import BalancedTeams.Text.Quoted
import BalancedTeams.Yaml.Plain
import BalancedTeams.Yaml.Tree

/-!
# Writing YAML documents

* `Style` : how a scalar is written: plain, in single or in double quotes. A text takes the first of
  the three that can hold it, all else is plain;
* `Style.folded` : a scalar from a column on, where long texts are folded after column 80;
  `Style.line` : a scalar on one line;
* `Writer.isSimpleKey` : whether a key stands on one line before its colon; the others have a sign
  of their own;
* `Writer.items`, `Writer.fields` : the lines of sequences and mappings in block form;
* `Yaml.render` : a document whose root is a mapping.
-/

namespace BalancedTeams.Yaml
namespace Writer

/-- Scalars are folded when they pass this column. -/
def width : Nat := 80

/-! ## The choice of quotes -/

/-- A scalar with the quotes it is written in. -/
inductive Style where
  | plain (cs : List Char)
  | single (cs : List Char)
  | double (t : Text)
  deriving DecidableEq, Repr, Inhabited

def isBreak (c : Char) : Bool :=
  c == '\n' || c.toNat == 0x85 || c.toNat == 0x2028 || c.toNat == 0x2029

def isWhite (c : Char) : Bool := c == ' ' || c == '\t' || c == '\r' || isBreak c

def printedRanges : List (Nat × Nat) :=
  [(0x20, 0x7e), (0xa0, 0xd7ff), (0xe000, 0xfefe), (0xff00, 0xfffd)]

/-- The characters that can be written as they are outside double quotes. -/
def isPrinted (c : Char) : Bool :=
  c == '\n' || c.toNat == 0x85 || Text.inRanges ((0x10000, 0x10fffe) :: printedRanges) c.toNat

/-- No plain scalar starts with one of these. -/
def leadingSigns : List Char :=
  "#,[]\x7b\x7d&*!|>%@\x60".toList ++ [Text.singleQuote, Text.doubleQuote]

def whiteNext (cs : List Char) : Bool := (cs.head?.map isWhite).getD true

def startsWithSign (cs : List Char) : Bool :=
  ['-', '-', '-'].isPrefixOf cs || ['.', '.', '.'].isPrefixOf cs ||
    match cs with
    | [] => false
    | c :: rest => leadingSigns.contains c || (['?', ':', '-'].contains c && whiteNext rest)

/-- Whether a colon before white space, or a number sign after it, is in the text after `before`. -/
def holdsSign (before : Char) : List Char → Bool
  | [] => false
  | c :: rest =>
    (c == ':' && whiteNext rest) || (c == '#' && isWhite before) || holdsSign c rest

/-- Whether a character of the first kind stands right before one of the second. -/
def holdsPair (p q : Char → Bool) : List Char → Bool
  | a :: b :: rest => (p a && q b) || holdsPair p q (b :: rest)
  | _ => false

def hasEnd (p : Char → Bool) (cs : List Char) : Bool := cs.head?.any p || cs.getLast?.any p

/-- A text can be plain if it reads as itself: no signs, no line ends, no spaces at its ends, and no
other meaning. -/
def canBePlain (cs : List Char) : Bool :=
  Plain.isText cs && !startsWithSign cs && !holdsSign 'x' cs && !cs.any isBreak &&
    !hasEnd (· == ' ') cs

/-- A text can stand in quotes unless it needs escapes or has spaces beside line ends. -/
def canBeSingle (cs : List Char) : Bool :=
  cs.all isPrinted && !holdsPair isBreak (· == ' ') cs && !holdsPair (· == ' ') isBreak cs

/-- The style of a text. -/
def Style.ofText (t : Text) : Style :=
  match t.chars? with
  | none => .double t
  | some cs =>
    if !canBeSingle cs then .double t else if canBePlain cs then .plain cs else .single cs

/-- Numbers as YAML has them: `.nan`, `.inf`, and always a point. -/
def floatStyle : FloatStyle := ⟨".nan", ".inf", ".0"⟩

def Style.of : Scalar → Style
  | .null => .plain "null".toList
  | .bool b => .plain (if b then "true" else "false").toList
  | .int n => .plain (toString n).toList
  | .float x => .plain (x.render floatStyle).toList
  | .str t => .ofText t
  | .date d => .plain d.text.toList
  | .timestamp t => .plain t.text.toList

/-! ## Folded texts -/

def newLine (indent : Nat) : List Char := '\n' :: List.replicate indent ' '

/-- The runs of spaces, of line ends and of other characters. -/
def runs (cs : List Char) : List (List Char) :=
  cs.splitBy fun a b => (a == ' ') == (b == ' ') && isBreak a == isBreak b

/-- A text from a column on, run by run. A single space between words becomes a new line when the
column is past the width; a line end is written twice if it would fold. `body` writes the words. -/
def foldRuns (body : List Char → List Char) (indent : Nat) (first : Bool) (column : Nat) :
    List (List Char) → List Char
  | [] => []
  | run :: rest =>
    let written :=
      if run = [' '] ∧ width < column ∧ first = false ∧ !rest.isEmpty then newLine indent
      else if run.head?.any isBreak then
        (if run.head? = some '\n' then ['\n'] else []) ++ run ++ List.replicate indent ' '
      else body run
    let next := if written.any isBreak then indent else column + written.length
    written ++ foldRuns body indent false next rest

/-- The words of a text in single quotes. -/
def doubled (cs : List Char) : List Char :=
  cs.flatMap fun c => if c = Text.singleQuote then [c, c] else [c]

/-! ## Escaped texts -/

def shortEscapes : List (Nat × Char) :=
  [(0x00, '0'), (0x07, 'a'), (0x08, 'b'), (0x09, 't'), (0x0a, 'n'), (0x0b, 'v'), (0x0c, 'f'),
   (0x0d, 'r'), (0x1b, 'e'), (0x22, Text.doubleQuote), (0x5c, '\\'), (0x85, 'N'), (0x2028, 'L'),
   (0x2029, 'P')]

def codeEscape (n : Nat) : List Char :=
  let upper (width : Nat) := (Text.hex width n).map Char.toUpper
  match shortEscapes.find? fun e => e.1 == n with
  | some e => ['\\', e.2]
  | none =>
    if n < 0x100 then '\\' :: 'x' :: upper 2
    else if n < 0x10000 then '\\' :: 'u' :: upper 4
    else '\\' :: 'U' :: upper 8

def escape (c : CodePoint) : Char ⊕ List Char :=
  let n := c.toNat
  match c with
  | .char c =>
    if Text.inRanges printedRanges n && !shortEscapes.any fun e => e.1 == n then .inl c
    else .inr (codeEscape n)
  | .half _ => .inr (codeEscape n)

/-- A new line inside double quotes; a space that would be lost at its start is escaped. -/
def continuation (indent : Nat) (next : Option CodePoint) : List Char :=
  '\\' :: newLine indent ++ (if next = some (.char ' ') then ['\\'] else [])

def continuationColumn (indent : Nat) (next : Option CodePoint) : Nat :=
  indent + (if next = some (.char ' ') then 1 else 0)

/-- A text in double quotes from a column on. Past the width the line is broken before a space and
beside an escape, though not beside the first or the last character. -/
def escaped (indent : Nat) (first afterEscape : Bool) (column : Nat) : Text → List Char
  | [] => []
  | c :: rest =>
    let inside := !first && !rest.isEmpty
    match escape c with
    | .inr e =>
      let column := column + e.length
      if inside ∧ width + 1 < column then
        e ++ continuation indent rest.head? ++
          escaped indent false true (continuationColumn indent rest.head?) rest
      else e ++ escaped indent false true column rest
    | .inl d =>
      if inside ∧ (d = ' ' ∨ afterEscape) ∧ width < column then
        continuation indent (some c) ++
          d :: escaped indent false false (continuationColumn indent (some c) + 1) rest
      else d :: escaped indent false false (column + 1) rest

/-! ## Scalars -/

namespace Style

def between (quote : Char) (cs : List Char) : List Char := quote :: cs ++ [quote]

/-- A scalar from a column on; `indent` is that of its further lines. -/
def folded (indent column : Nat) : Style → List Char
  | .plain cs => foldRuns id indent true column (runs cs)
  | .single cs => between Text.singleQuote (foldRuns doubled indent true (column + 1) (runs cs))
  | .double t => between Text.doubleQuote (escaped indent true false (column + 1) t)

def line : Style → List Char
  | .plain cs => cs
  | .single cs => between Text.singleQuote (doubled cs)
  | .double t =>
    between Text.doubleQuote (t.flatMap fun c => (escape c).elim (fun d => [d]) id)

def content : Style → Text
  | .plain cs => cs.map CodePoint.char
  | .single cs => cs.map CodePoint.char
  | .double t => t

end Style

/-- The length of the tag for the kind of a scalar. -/
def tagLength : Scalar → Nat
  | .null => 6
  | .bool _ => 6
  | .int _ => 5
  | .float _ => 7
  | .str _ => 5
  | .date _ => 11
  | .timestamp _ => 11

/-- The tag counts towards the length of a key, though it is not written. -/
def maxKey : Nat := 127

/-- Whether a key is short, not empty, and without line ends. -/
def isSimpleKey (k : Scalar) : Bool :=
  let content := (Style.of k).content
  !content.isEmpty && decide (content.length + tagLength k ≤ maxKey) &&
    !content.any fun c => c.char?.any isBreak

/-! ## Collections -/

def lines (indent : Nat) (ls : List (List Char)) : List Char := (newLine indent).intercalate ls

def anchorName (anchor : Nat) : List Char := "id".toList ++ (Calendar.padded 3 anchor).toList

def mark (anchor : Option Nat) : List (List Char) :=
  (anchor.map fun a => '&' :: anchorName a).toList

def empty (anchor : Option Nat) (brackets : String) : List Char :=
  [' '].intercalate (mark anchor ++ [brackets.toList])

def opening (anchor : Option Nat) : List Char := (mark anchor).flatMap fun m => ' ' :: m

mutual

def items (indent : Nat) : List Tree → List (List Char)
  | [] => []
  | t :: rest => ('-' :: ' ' :: afterSign indent (indent + 2) t) :: items indent rest

/-- A node after a sign in column `indent`. A collection begins on the same line if it has no
anchor; the items of a sequence with an anchor stand in column `below`. -/
def afterSign (indent below : Nat) : Tree → List Char
  | .scalar s => (Style.of s).folded (indent + 2) (indent + 2)
  | .list a [] => empty a "[]"
  | .list none ts => lines (indent + 2) (items (indent + 2) ts)
  | .list a ts => lines below (mark a ++ items below ts)
  | .map a [] => empty a "\x7b\x7d"
  | .map a fs => lines (indent + 2) (mark a ++ fields (indent + 2) fs)
  | .reference a => '*' :: anchorName a

def fields (indent : Nat) : List (Scalar × Tree) → List (List Char)
  | [] => []
  | (k, t) :: rest =>
    if isSimpleKey k then
      let key := (Style.of k).line
      (key ++ ':' :: afterKey indent key.length t) :: fields indent rest
    else
      ('?' :: ' ' :: (Style.of k).folded (indent + 2) (indent + 2)) ::
        (':' :: ' ' :: afterSign indent indent t) :: fields indent rest

/-- The node of a field whose key has `length` characters. A sequence stands below its key in the
same column, a mapping two columns to the right. -/
def afterKey (indent length : Nat) : Tree → List Char
  | .scalar s => ' ' :: (Style.of s).folded (indent + 2) (indent + length + 2)
  | .list a [] => ' ' :: empty a "[]"
  | .list a ts => lines indent (opening a :: items indent ts)
  | .map a [] => ' ' :: empty a "\x7b\x7d"
  | .map a fs => lines (indent + 2) (opening a :: fields (indent + 2) fs)
  | .reference a => ' ' :: '*' :: anchorName a

end

end Writer

def render (fields : List (Scalar × Tree)) : String :=
  String.ofList (Writer.lines 0 (Writer.fields 0 fields) ++ ['\n'])

end BalancedTeams.Yaml
