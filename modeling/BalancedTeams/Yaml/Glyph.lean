import BalancedTeams.Number.Numeral

/-!
# Characters with their places

* `Glyph` : a character of a document with its line and column;
* `Glyph.ofText` : a text as glyphs, every kind of line end but the two Unicode separators read as
  one line feed;
* `isReadable` : the characters that a document can hold;
* `isBreak`, `isWhite`, `endsWord` : line ends, blanks, and where a word ends;
* `skip` : past blanks, comments and line ends to the next token;
* `fold` : what a run of blanks and line ends inside a scalar stands for.
-/

namespace BalancedTeams.Yaml

structure Glyph where
  char : Char
  line : Nat
  column : Nat
  deriving DecidableEq, Repr, Inhabited

def byteOrderMark : Char := Char.ofNat 0xfeff

/-- A line feed, or one of the Unicode separators of lines and paragraphs. -/
def isBreak (c : Char) : Bool := c == '\n' || c.toNat == 0x2028 || c.toNat == 0x2029

def isWhite (c : Char) : Bool := c == ' ' || c == '\t' || isBreak c

/-- The text with one line feed for each of CR LF, CR and NEL. -/
def lineFeeds : List Char → List Char
  | [] => []
  | '\r' :: '\n' :: rest => '\n' :: lineFeeds rest
  | c :: rest => (if c = '\r' ∨ c.toNat = 0x85 then '\n' else c) :: lineFeeds rest

def readableRanges : List (Nat × Nat) :=
  [(0x09, 0x0a), (0x0d, 0x0d), (0x20, 0x7e), (0x85, 0x85), (0xa0, 0xfffd), (0x10000, 0x10ffff)]

def isReadable (c : Char) : Bool := Text.inRanges readableRanges c.toNat

namespace Glyph

/-- The glyphs of a text that begins at a place. A byte order mark takes up no column. -/
def place (line column : Nat) : List Char → List Glyph
  | [] => []
  | c :: rest =>
    ⟨c, line, column⟩ ::
      if isBreak c then Glyph.place (line + 1) 0 rest
      else Glyph.place line (if c = byteOrderMark then column else column + 1) rest

/-- The glyphs of a document, without a byte order mark at its start. -/
def ofText (text : String) : List Glyph :=
  match lineFeeds text.toList with
  | [] => []
  | c :: rest => Glyph.place 0 0 (if c = byteOrderMark then rest else c :: rest)

end Glyph

/-! ## Between tokens -/

def skipFrom (inComment : Bool) : List Glyph → List Glyph
  | [] => []
  | g :: rest =>
    if isBreak g.char then skipFrom false rest
    else if inComment then skipFrom true rest
    else if g.char = ' ' then skipFrom false rest
    else if g.char = '#' then skipFrom true rest
    else g :: rest

def skip (gs : List Glyph) : List Glyph := skipFrom false gs

def skipSpaces (gs : List Glyph) : List Glyph := gs.dropWhile fun g => g.char == ' '

/-- Whether a word that came before ends here. -/
def endsWord : List Glyph → Bool
  | [] => true
  | g :: _ => isWhite g.char

/-- Whether the next token is a sign of its own: this character and then a blank. -/
def isSign (c : Char) : List Glyph → Bool
  | [] => false
  | g :: rest => g.char == c && endsWord rest

/-- Whether a line starts here with three times the character and a blank. -/
def isTriple (c : Char) : List Glyph → Bool
  | g :: h :: i :: rest =>
    g.column == 0 && g.char == c && h.char == c && i.char == c && endsWord rest
  | _ => false

/-- The start or the end of a document. -/
def isMarker (gs : List Glyph) : Bool := isTriple '-' gs || isTriple '.' gs

/-! ## Inside scalars -/

/-- What a run of blanks and line ends stands for: a run within a line for itself, one line end for
a space, and each further one for itself. -/
def fold (run : List Glyph) : List Char :=
  match (run.map Glyph.char).filter isBreak with
  | [] => run.map Glyph.char
  | ['\n'] => [' ']
  | '\n' :: more => more
  | breaks => breaks

end BalancedTeams.Yaml
