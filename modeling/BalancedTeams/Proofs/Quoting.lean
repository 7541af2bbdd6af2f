import BalancedTeams.Text.Quoted
import Mathlib.Algebra.Ring.Nat

/-!
# Quoted texts tell what was quoted

* `Text.hexValue` : the number that hexadecimal digits write, the same for `Text.hex`;
* `Text.readPoint` : the code point that a quoted text begins with, and what comes after it;
* `Text.readPoint_quotePoint` : the reader takes back what was written for one code point;
* `Text.quoted_inj` : texts that are quoted in the same way are the same.
-/

namespace BalancedTeams.Text

/-! ## Hexadecimal numbers -/

def digitValue (c : Char) : Nat := ((List.range 16).find? fun d => d.digitChar == c).getD 0

def hexValue (ds : List Char) : Nat := ds.foldl (fun n c => 16 * n + digitValue c) 0

theorem digitValue_digitChar : ∀ d < 16, digitValue d.digitChar = d := by decide

theorem hexValue_append_singleton (ds : List Char) (c : Char) :
    hexValue (ds ++ [c]) = 16 * hexValue ds + digitValue c := by
  rw [hexValue, List.foldl_append]
  rfl

/-- By strong induction, a digit of the number at a time from the last one on. -/
theorem hexValue_toDigits (n : Nat) : hexValue (Nat.toDigits 16 n) = n := by
  induction n using Nat.strongRecOn with
  | ind n ih =>
    by_cases h : n < 16
    · rw [Nat.toDigits_of_lt_base h, ← List.nil_append [n.digitChar], hexValue_append_singleton,
        digitValue_digitChar n h]
      exact Nat.zero_add n
    · have hlast := digitValue_digitChar (n % 16) (Nat.mod_lt n (by decide))
      rw [Nat.toDigits_of_base_le (by decide) (by omega), hexValue_append_singleton,
        ih (n / 16) (by omega), hlast]
      omega

theorem hexValue_zeros (k : Nat) (ds : List Char) :
    hexValue (List.replicate k '0' ++ ds) = hexValue ds := by
  induction k with
  | zero => rfl
  | succ k ih => exact ih

/-- Zeros in front do not change the number. -/
theorem hexValue_hex (width n : Nat) : hexValue (hex width n) = n :=
  (hexValue_zeros _ _).trans (hexValue_toDigits n)

theorem length_hex {width n : Nat} (hwidth : 0 < width) (hn : n < 16 ^ width) :
    (hex width n).length = width := by
  have hle := (Nat.length_toDigits_le_iff (b := 16) (by decide) hwidth).2 hn
  rw [hex, List.length_append, List.length_replicate]
  omega

/-! ## Code points -/

/-- The code point whose number is written in `width` digits, and what comes after them. -/
def readCode (width : Nat) (t : Text) : Option (CodePoint × Text) :=
  ((t.take width).mapM CodePoint.char?).bind fun ds =>
    (CodePoint.ofNat? (hexValue ds)).map fun c => (c, t.drop width)

/-- What a backslash stands for, with what comes after it. -/
def readEscape : Text → Option (CodePoint × Text)
  | [] => none
  | c :: rest =>
    if c = 'n' then some (CodePoint.char '\n', rest)
    else if c = 'r' then some (CodePoint.char '\r', rest)
    else if c = 't' then some (CodePoint.char '\t', rest)
    else if c = 'x' then readCode 2 rest
    else if c = 'u' then readCode 4 rest
    else if c = 'U' then readCode 8 rest
    else some (c, rest)

/-- The first code point inside quotes, and what comes after it. -/
def readPoint : Text → Option (CodePoint × Text)
  | [] => none
  | c :: rest => if c = '\\' then readEscape rest else some (c, rest)

theorem readCode_hex {width : Nat} {c : CodePoint} (hwidth : 0 < width) (hc : c.toNat < 16 ^ width)
    (rest : Text) : readCode width ((hex width c.toNat).map CodePoint.char ++ rest) = some (c, rest) := by
  have hlength : ((hex width c.toNat).map CodePoint.char).length = width := by
    rw [List.length_map, length_hex hwidth hc]
  have hchars : ((hex width c.toNat).map CodePoint.char).mapM CodePoint.char? =
      some (hex width c.toNat) := chars?_map_char _
  rw [readCode, List.take_left' hlength, List.drop_left' hlength, hchars, Option.bind_some, hexValue_hex,
    CodePoint.ofNat?_toNat]
  rfl

theorem toNat_lt (c : CodePoint) : c.toNat < 16 ^ 8 := by
  cases c with
  | char c => exact Nat.lt_of_lt_of_le c.val.toNat_lt (by decide)
  | half i =>
    have hi := i.isLt
    simp only [CodePoint.toNat, CodePoint.firstHalf]
    omega

theorem readPoint_codeEscape (c : CodePoint) (rest : Text) :
    readPoint ((codeEscape c.toNat).map CodePoint.char ++ rest) = some (c, rest) := by
  unfold codeEscape
  split
  · next h => exact readCode_hex (by decide) h rest
  · split
    · next h => exact readCode_hex (by decide) h rest
    · exact readCode_hex (by decide) (toNat_lt c) rest

/-- What is written for a code point is read as this code point. -/
theorem readPoint_quotePoint {quote : CodePoint} (hquote : quote = singleQuote ∨ quote = doubleQuote)
    (c : CodePoint) (rest : Text) : readPoint (quotePoint quote c ++ rest) = some (c, rest) := by
  unfold quotePoint
  split
  · next hc =>
    rcases hc with rfl | rfl
    · rcases hquote with rfl | rfl <;> rfl
    · rfl
  · next hc =>
    split
    · next h => rw [h]; rfl
    · split
      · next h => rw [h]; rfl
      · split
        · next h => rw [h]; rfl
        · split
          · exact if_neg fun h => hc (Or.inr h)
          · exact readPoint_codeEscape c rest

/-! ## Texts -/

/-- By induction on the first text, whose code points are read back one by one. -/
theorem flatMap_quotePoint_inj {quote : CodePoint} (hquote : quote = singleQuote ∨ quote = doubleQuote)
    {s t : Text} (h : s.flatMap (quotePoint quote) = t.flatMap (quotePoint quote)) : s = t := by
  induction s generalizing t with
  | nil =>
    cases t with
    | nil => rfl
    | cons d t =>
      have hread := readPoint_quotePoint hquote d (t.flatMap (quotePoint quote))
      rw [← List.flatMap_cons, ← h] at hread
      cases hread
  | cons c s ih =>
    have hread := readPoint_quotePoint hquote c (s.flatMap (quotePoint quote))
    rw [← List.flatMap_cons, h] at hread
    cases t with
    | nil => cases hread
    | cons d t =>
      rw [List.flatMap_cons, readPoint_quotePoint hquote, Option.some.injEq, Prod.mk.injEq] at hread
      obtain ⟨rfl, hrest⟩ := hread
      rw [ih hrest.symm]

theorem quoteFor_eq (t : Text) :
    quoteFor t = CodePoint.char singleQuote ∨ quoteFor t = CodePoint.char doubleQuote := by
  unfold quoteFor
  split
  · exact Or.inr rfl
  · exact Or.inl rfl

/-- **A quoted text tells what was quoted**: its first code point is the quote in use, and then all code
points can be read back. -/
theorem quoted_inj {s t : Text} : quoted s = quoted t ↔ s = t := by
  refine ⟨fun h => ?_, fun h => congrArg quoted h⟩
  unfold quoted at h
  obtain ⟨hquote, hrest⟩ := List.cons.inj h
  rw [← hquote] at hrest
  exact flatMap_quotePoint_inj (quoteFor_eq s) (List.append_cancel_right hrest)

end BalancedTeams.Text
