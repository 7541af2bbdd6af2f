import BalancedTeams.Yaml.Node
import BalancedTeams.Yaml.Quoted

/-!
# Reading YAML documents

* `Reader.plain` : a plain scalar, which may go on over several lines;
* `Reader.node` : a node of a block, a sequence or mapping by indentation, or a scalar;
* `Reader.flow` : a node in brackets or braces;
* `Node.ofYaml` : the root node of a document, and `Value.ofYaml?` its value.

Documents are block and flow collections and plain or quoted scalars; a key may be marked with a
question mark. They are taken to be well formed: no statement is made about other texts. A repeated
key has its last value.
-/

namespace BalancedTeams
namespace Yaml.Reader

/-! ## Plain scalars -/

/-- Whether a plain scalar ends before this character and the glyphs after it. In brackets and
braces their signs end it too. -/
def endsPlain (inFlow : Bool) (c : Char) (after : List Glyph) : Bool :=
  isWhite c ||
    (c == ':' && (endsWord after ||
      inFlow && after.head?.any fun g => [',', '[', ']', '\x7b', '\x7d'].contains g.char)) ||
    (inFlow && [',', '?', '[', ']', '\x7b', '\x7d'].contains c)

/-- The part of a plain scalar up to the next blank or sign. -/
def word (inFlow : Bool) : List Glyph → List Glyph
  | [] => []
  | g :: rest => if endsPlain inFlow g.char rest then [] else g :: word inFlow rest

def isGap (g : Glyph) : Bool := g.char == ' ' || isBreak g.char

/-- Whether a plain scalar goes on after a gap: at no comment or document marker, and in a block
only to the right of `parent`. -/
def goesOn (inFlow : Bool) (parent : Int) (gap gs : List Glyph) : Bool :=
  match gs with
  | [] => false
  | g :: _ =>
    !gap.isEmpty && g.char != '#' && !isMarker gs && (inFlow || decide (parent < g.column))

theorem word_nil (inFlow : Bool) : word inFlow [] = [] := rfl

/-- A plain scalar and what follows it; words are joined by what the gaps between them stand for. -/
def plain (inFlow : Bool) (parent : Int) (gs : List Glyph) : List Char × List Glyph :=
  let w := word inFlow gs
  if _hw : w = [] then ([], gs)
  else
    let rest := gs.drop w.length
    let gap := rest.takeWhile isGap
    let next := rest.drop gap.length
    if goesOn inFlow parent gap next then
      match plain inFlow parent next with
      | ([], after) => (w.map Glyph.char, after)
      | (more, after) => (w.map Glyph.char ++ fold gap ++ more, after)
    else (w.map Glyph.char, next)
termination_by gs.length
decreasing_by
  have hw : 0 < (word inFlow gs).length := List.length_pos_iff.2 _hw
  have hg : gs ≠ [] := fun h => _hw (by simp [w, h, word_nil])
  have := List.length_pos_iff.2 hg
  simp only [List.length_drop]
  omega

/-! ## Scalars -/

def scalar (inFlow : Bool) (parent : Int) (gs : List Glyph) : Node × List Glyph :=
  match gs with
  | [] => (.missing, [])
  | g :: rest =>
    if g.char = Text.singleQuote then
      let (cs, after) := Quoted.single rest
      (.quoted cs, after)
    else if g.char = Text.doubleQuote then
      let (cs, after) := Quoted.double rest
      (.quoted cs, after)
    else
      let (cs, after) := plain inFlow parent (g :: rest)
      (.plain cs, after)

/-- Whether the next glyph is this one; past it if so. -/
def past? (c : Char) : List Glyph → Option (List Glyph)
  | [] => none
  | g :: rest => if g.char = c then some rest else none

/-! ## Flow collections -/

mutual

/-- A node in brackets or braces; it may be left out. -/
def flow (fuel : Nat) (gs : List Glyph) : Node × List Glyph :=
  match fuel with
  | 0 => (.missing, gs)
  | fuel + 1 =>
    match skip gs with
    | [] => (.missing, [])
    | g :: rest =>
      if g.char = '[' then
        let (items, after) := flowItems fuel rest
        (.sequence items, after)
      else if g.char = '\x7b' then
        let (fields, after) := flowFields fuel rest
        (.mapping fields, after)
      else if [',', ']', '\x7d', ':'].contains g.char then (.missing, g :: rest)
      else scalar true 0 (g :: rest)

/-- The value after a key and its colon; it may be left out. -/
def flowValue (fuel : Nat) (gs : List Glyph) : Node × List Glyph :=
  match fuel with
  | 0 => (.missing, gs)
  | fuel + 1 =>
    match past? ':' (skip gs) with
    | none => (.missing, gs)
    | some after => flow fuel after

/-- The items up to the closing bracket. An item with a colon or a marked key is a mapping of one
field. -/
def flowItems (fuel : Nat) (gs : List Glyph) : List Node × List Glyph :=
  match fuel with
  | 0 => ([], gs)
  | fuel + 1 =>
    match skip gs with
    | [] => ([], [])
    | g :: rest =>
      if g.char = ']' then ([], rest)
      else if g.char = ',' then flowItems fuel rest
      else
        let marked := g.char = '?'
        let (item, after) := flow fuel (if marked then rest else g :: rest)
        if marked || (past? ':' (skip after)).isSome then
          let (v, after) := flowValue fuel after
          let (items, last) := flowItems fuel after
          (.mapping [(item, v)] :: items, last)
        else
          let (items, last) := flowItems fuel after
          (item :: items, last)

def flowFields (fuel : Nat) (gs : List Glyph) : List (Node × Node) × List Glyph :=
  match fuel with
  | 0 => ([], gs)
  | fuel + 1 =>
    match skip gs with
    | [] => ([], [])
    | g :: rest =>
      if g.char = '\x7d' then ([], rest)
      else if g.char = ',' then flowFields fuel rest
      else
        let (key, after) := flow fuel (if g.char = '?' then rest else g :: rest)
        let (v, after) := flowValue fuel after
        let (fields, last) := flowFields fuel after
        ((key, v) :: fields, last)

end

/-! ## Block collections -/

def opensFlow (g : Glyph) : Bool := g.char == '[' || g.char == '\x7b'

def leaf (fuel : Nat) (parent : Int) (gs : List Glyph) : Node × List Glyph :=
  match gs with
  | [] => (.missing, [])
  | g :: rest => if opensFlow g then flow fuel (g :: rest) else scalar false parent (g :: rest)

/-- What follows a key and its colon, if the node at `gs` that ends before `after` is a key: the
colon stands on the line where the node starts. -/
def afterKey? (gs after : List Glyph) : Option (List Glyph) :=
  match gs, skipSpaces after with
  | g :: _, colon :: rest =>
    if isSign ':' (colon :: rest) ∧ colon.line = g.line then some rest else none
  | _, _ => none

/-- Whether the next token stands in this column and is no document marker. -/
def isAt (column : Nat) (gs : List Glyph) : Bool :=
  gs.head?.any (fun g => g.column == column) && !isMarker gs

/-- Whether a node is missing: at the end of the document, or where the next token is not to the
right of `parent`. Under a key, the items of a sequence may stand right below it. -/
def isMissing (parent : Int) (underKey : Bool) (gs : List Glyph) : Bool :=
  match gs with
  | [] => true
  | g :: _ =>
    isMarker gs ||
      if underKey && isSign '-' gs then decide ((g.column : Int) < parent)
      else decide ((g.column : Int) ≤ parent)

mutual

/-- A node to the right of `parent`; it may be left out. -/
def node (fuel : Nat) (parent : Int) (underKey : Bool) (gs : List Glyph) : Node × List Glyph :=
  match fuel with
  | 0 => (.missing, gs)
  | fuel + 1 =>
    let gs := skip gs
    match gs with
    | [] => (.missing, [])
    | g :: _ =>
      if isMissing parent underKey gs then (.missing, gs)
      else if isSign '-' gs then
        let (ns, after) := items fuel g.column gs
        (.sequence ns, after)
      else if isSign '?' gs then
        let (fs, after) := fields fuel g.column gs
        (.mapping fs, after)
      else
        let (n, after) := leaf fuel parent gs
        match afterKey? gs after with
        | none => (n, after)
        | some _ =>
          let (fs, after) := fields fuel g.column gs
          (.mapping fs, after)

def items (fuel : Nat) (column : Nat) (gs : List Glyph) : List Node × List Glyph :=
  match fuel with
  | 0 => ([], gs)
  | fuel + 1 =>
    if isAt column gs && isSign '-' gs then
      let (n, after) := node fuel column false gs.tail
      let (ns, after) := items fuel column (skip after)
      (n :: ns, after)
    else ([], gs)

/-- A marked key in this column and the value after the colon below it. -/
def markedField (fuel : Nat) (column : Nat) (gs : List Glyph) : (Node × Node) × List Glyph :=
  match fuel with
  | 0 => ((.missing, .missing), gs)
  | fuel + 1 =>
    let (key, after) := node fuel column true gs.tail
    let next := skip after
    if isAt column next && isSign ':' next then
      let (n, after) := node fuel column true next.tail
      ((key, n), after)
    else ((key, .missing), after)

def fields (fuel : Nat) (column : Nat) (gs : List Glyph) : List (Node × Node) × List Glyph :=
  match fuel with
  | 0 => ([], gs)
  | fuel + 1 =>
    if !isAt column gs then ([], gs)
    else if isSign '?' gs then
      let (f, after) := markedField fuel column gs
      let (fs, after) := fields fuel column (skip after)
      (f :: fs, after)
    else
      let (key, after) := leaf fuel column gs
      match afterKey? gs after with
      | none => ([], gs)
      | some rest =>
        let (n, after) := node fuel column true rest
        let (fs, after) := fields fuel column (skip after)
        ((key, n) :: fs, after)

end

/-! ## Documents -/

def skipLine (gs : List Glyph) : List Glyph := gs.dropWhile fun g => !isBreak g.char

/-- Past the directives and the marker at the start of a document. -/
def start (fuel : Nat) (gs : List Glyph) : List Glyph :=
  match fuel with
  | 0 => gs
  | fuel + 1 =>
    match skip gs with
    | [] => []
    | g :: rest =>
      if g.column = 0 ∧ g.char = '%' then start fuel (skipLine rest)
      else if isTriple '-' (g :: rest) then rest.drop 2
      else g :: rest

/-- The root of a document of `size` glyphs; no glyph needs more than six steps. -/
def document (size : Nat) (gs : List Glyph) : Node :=
  (node (6 * size + 12) (-1) false (start (size + 1) gs)).1

end Yaml.Reader

def Yaml.Node.ofYaml (text : String) : Node :=
  let gs := Glyph.ofText text
  Reader.document gs.length gs

def Value.ofYaml? (text : String) : Except Yaml.DocumentFault Value :=
  if text.toList.all Yaml.isReadable then (Yaml.Node.ofYaml text).value? else .error .unreadable

end BalancedTeams
