import BalancedTeams.Text.Basic

/-!
# Blank characters

* `isBlank` : the characters that separate words (Unicode white space and the four separators of
  the C0 range);
* `strip` : a text without the blanks at its ends.
-/

namespace BalancedTeams.Text

/-- Ranges of blank characters. U+200B, U+180E and U+FEFF are not blank. -/
def blankRanges : List (Nat × Nat) :=
  [(0x09, 0x0d), (0x1c, 0x20), (0x85, 0x85), (0xa0, 0xa0), (0x1680, 0x1680), (0x2000, 0x200a),
   (0x2028, 0x2029), (0x202f, 0x202f), (0x205f, 0x205f), (0x3000, 0x3000)]

/-- Whether `n` lies in one of the ranges, ends included. -/
def inRanges (ranges : List (Nat × Nat)) (n : Nat) : Bool :=
  ranges.any fun r => r.1 ≤ n && n ≤ r.2

def isBlank (c : CodePoint) : Bool := inRanges blankRanges c.toNat

def trimBy {α : Type} (p : α → Bool) (cs : List α) : List α :=
  ((cs.dropWhile p).reverse.dropWhile p).reverse

def strip (t : Text) : Text := trimBy isBlank t

end BalancedTeams.Text
