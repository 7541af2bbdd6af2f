/-!
# Texts

* `CodePoint` : a character, or half of a surrogate pair that stands alone;
* `CodePoint.toNat`, `CodePoint.ofNat?` : the number of a code point, and the way back;
* `Text` : what names and messages consist of. Characters and strings count as code points and
  texts;
* `Text.encode` : a text as a string, which only has characters.
-/

namespace BalancedTeams

/-- A code point: a character, or half of a surrogate pair, counted from the first of the halves.
Two halves that stand side by side are no character. -/
inductive CodePoint where
  | char (c : Char)
  | half (index : Fin 2048)
  deriving DecidableEq, Repr, Inhabited

namespace CodePoint

instance : Coe Char CodePoint := ⟨char⟩

def firstHalf : Nat := 0xd800

def toNat : CodePoint → Nat
  | char c => c.toNat
  | half i => firstHalf + i

instance : Hashable CodePoint := ⟨fun c => hash c.toNat⟩

/-- The code point with a number; the last one is 0x10ffff. -/
def ofNat? (n : Nat) : Option CodePoint :=
  if n.isValidChar then some (char (Char.ofNat n))
  else if h : firstHalf ≤ n ∧ n - firstHalf < 2048 then some (half ⟨n - firstHalf, h.2⟩)
  else none

/-- The character, unless the code point is half of a pair. -/
def char? : CodePoint → Option Char
  | char c => some c
  | half _ => none

def mapChar (f : Char → Char) : CodePoint → CodePoint
  | char c => char (f c)
  | half i => half i

theorem ofNat?_toNat (c : CodePoint) : ofNat? c.toNat = some c := by
  cases c with
  | char c =>
    have h : c.toNat.isValidChar := c.valid
    simp [ofNat?, toNat, h]
  | half i =>
    have hi := i.isLt
    have h : ¬ (firstHalf + i.val).isValidChar := by
      simp only [Nat.isValidChar, firstHalf]
      omega
    have e : firstHalf + i.val - firstHalf = i.val := Nat.add_sub_cancel_left _ _
    simp [ofNat?, toNat, h, e]

end CodePoint

/-- Why a text cannot be had. -/
inductive TextFault where
  /-- An integer of more digits than are ever written. -/
  | tooManyDigits
  /-- Half of a surrogate pair, which has no encoding. -/
  | loneHalf
  deriving DecidableEq, Repr, Inhabited

abbrev Text := List CodePoint

namespace Text

def ofString (s : String) : Text := s.toList.map CodePoint.char

instance : Coe String Text := ⟨ofString⟩

def chars? (t : Text) : Option (List Char) := t.mapM CodePoint.char?

/-- A text as a string. -/
def encode (t : Text) : Except TextFault String :=
  match t.chars? with
  | some cs => .ok (String.ofList cs)
  | none => .error .loneHalf

/-- The order of texts by the numbers of their code points. -/
def le : Text → Text → Bool
  | [], _ => true
  | _ :: _, [] => false
  | c :: s, d :: t => c.toNat < d.toNat || (c.toNat == d.toNat && le s t)

theorem chars?_map_char (cs : List Char) : chars? (cs.map CodePoint.char) = some cs := by
  induction cs with
  | nil => rfl
  | cons c rest ih =>
    simp only [chars?] at ih
    simp [chars?, CodePoint.char?, ih]

theorem encode_ofString (s : String) : encode (ofString s) = .ok s := by
  simp [encode, ofString, chars?_map_char]

end Text
end BalancedTeams
