/-!
# Digests of texts

* `Digest.sha1` : the five words of the SHA-1 digest of a byte sequence;
* `Digest.ofText` : the first 16 hexadecimal digits of the digest of a text's UTF-8 bytes.
-/

namespace BalancedTeams.Digest

/-- The chaining state: five 32-bit words. -/
structure State where
  a : UInt32
  b : UInt32
  c : UInt32
  d : UInt32
  e : UInt32

def State.start : State := ⟨0x67452301, 0xefcdab89, 0x98badcfe, 0x10325476, 0xc3d2e1f0⟩

def State.add (s t : State) : State :=
  ⟨s.a + t.a, s.b + t.b, s.c + t.c, s.d + t.d, s.e + t.e⟩

def rotateLeft (x n : UInt32) : UInt32 := (x <<< n) ||| (x >>> (32 - n))

/-- The mixing function and constant of round `t`. -/
def mix (t : Nat) (b c d : UInt32) : UInt32 :=
  if t < 20 then ((b &&& c) ||| ((~~~b) &&& d)) + 0x5a827999
  else if t < 40 then (b ^^^ c ^^^ d) + 0x6ed9eba1
  else if t < 60 then ((b &&& c) ||| (b &&& d) ||| (c &&& d)) + 0x8f1bbcdc
  else (b ^^^ c ^^^ d) + 0xca62c1d6

def round (t : Nat) (w : UInt32) (s : State) : State :=
  ⟨rotateLeft s.a 5 + mix t s.b s.c s.d + s.e + w, s.a, rotateLeft s.b 30, s.c, s.d⟩

def schedule (block : Array UInt32) : Array UInt32 :=
  (List.range 64).foldl (fun ws i =>
    ws.push (rotateLeft (ws.getD (i + 13) 0 ^^^ ws.getD (i + 8) 0 ^^^ ws.getD (i + 2) 0 ^^^
      ws.getD i 0) 1)) block

def compress (s : State) (block : Array UInt32) : State :=
  let ws := schedule block
  s.add ((List.range 80).foldl (fun st t => round t (ws.getD t 0) st) s)

/-- The bytes followed by one bit, zeros and the length in bits, to a multiple of 64 bytes. -/
def pad (bytes : List UInt8) : List UInt8 :=
  let n := bytes.length
  let zeros := (119 - n % 64) % 64
  let length := (List.range 8).map fun i => UInt8.ofNat (8 * n / Nat.pow 256 (7 - i) % 256)
  bytes ++ 0x80 :: List.replicate zeros 0 ++ length

/-- Big-endian words of four bytes each. -/
def words : List UInt8 → List UInt32
  | a :: b :: c :: d :: rest =>
    ((a.toUInt32 <<< 24) ||| (b.toUInt32 <<< 16) ||| (c.toUInt32 <<< 8) ||| d.toUInt32) ::
      words rest
  | _ => []

/-- Absorbs the words in blocks of 16; `block` holds the words of the block under way. -/
def absorb (s : State) (block : Array UInt32) : List UInt32 → State
  | [] => s
  | w :: rest =>
    let block := block.push w
    if block.size = 16 then absorb (compress s block) #[] rest else absorb s block rest

def sha1 (bytes : List UInt8) : State := absorb .start #[] (words (pad bytes))

def hexWord (w : UInt32) : List Char :=
  (List.range 8).map fun i => Nat.digitChar (w.toNat / Nat.pow 16 (7 - i) % 16)

/-- The first 16 hexadecimal digits of the digest of a text. -/
def ofText (s : String) : String :=
  let st := sha1 s.toUTF8.toList
  String.ofList (hexWord st.a ++ hexWord st.b)

end BalancedTeams.Digest
