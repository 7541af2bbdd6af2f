import BalancedTeams.Yaml.Glyph
import BalancedTeams.Yaml.Plain
import BalancedTeams.Text.Quoted

/-!
# Quoted scalars of YAML

* `Quoted.single` : a text in single quotes, where a quote is written twice;
* `Quoted.double` : a text in double quotes, where a backslash escapes.

Both give the numbers of the code points and what follows the closing quote. Line ends fold as in
`fold`. An escape may give a number that no code point has, or half of a surrogate pair, which stays
by itself.
-/

namespace BalancedTeams.Yaml.Quoted

def whiteRun (gs : List Glyph) : List Glyph := gs.takeWhile fun g => isWhite g.char

def codes (cs : List Char) : List Nat := cs.map Char.toNat

def single (gs : List Glyph) : List Nat × List Glyph :=
  match gs with
  | [] => ([], [])
  | g :: rest =>
    if g.char = Text.singleQuote then
      match rest with
      | [] => ([], [])
      | h :: more =>
        if h.char = Text.singleQuote then
          let (cs, after) := single more
          (h.char.toNat :: cs, after)
        else ([], h :: more)
    else if isWhite g.char then
      let run := whiteRun rest
      let (cs, after) := single (rest.drop run.length)
      (codes (fold (g :: run)) ++ cs, after)
    else
      let (cs, after) := single rest
      (g.char.toNat :: cs, after)
termination_by gs.length
decreasing_by all_goals simp only [List.length_drop, List.length_cons]; omega

/-! ## Escapes -/

/-- The escapes of one character, after the backslash. -/
def shortEscapes : List (Char × Nat) :=
  [('0', 0x00), ('a', 0x07), ('b', 0x08), ('t', 0x09), ('\t', 0x09), ('n', 0x0a), ('v', 0x0b),
   ('f', 0x0c), ('r', 0x0d), ('e', 0x1b), (' ', 0x20), (Text.doubleQuote, 0x22), ('\\', 0x5c),
   ('/', 0x2f), ('N', 0x85), ('_', 0xa0), ('L', 0x2028), ('P', 0x2029)]

/-- The number of hexadecimal digits after the other escapes. -/
def codeWidth? (c : Char) : Option Nat :=
  if c = 'x' then some 2 else if c = 'u' then some 4 else if c = 'U' then some 8 else none

def code (width : Nat) (gs : List Glyph) : Nat :=
  (Plain.number? 16 ((gs.take width).map Glyph.char)).getD 0

/-- What an escape stands for and the number of glyphs it takes after the backslash. A backslash at
the end of a line takes the blanks of the next one with it. -/
def escape : List Glyph → List Nat × Nat
  | [] => ([], 0)
  | g :: rest =>
    if isBreak g.char then
      let run := whiteRun rest
      (codes ((run.map Glyph.char).filter isBreak), run.length + 1)
    else match shortEscapes.find? fun e => e.1 == g.char with
      | some e => ([e.2], 1)
      | none =>
        match codeWidth? g.char with
        | some width => ([code width rest], 1 + width)
        | none => ([g.char.toNat], 1)

def double (gs : List Glyph) : List Nat × List Glyph :=
  match gs with
  | [] => ([], [])
  | g :: rest =>
    if g.char = Text.doubleQuote then ([], rest)
    else if g.char = '\\' then
      let (here, taken) := escape rest
      let (cs, after) := double (rest.drop taken)
      (here ++ cs, after)
    else if isWhite g.char then
      let run := whiteRun rest
      let (cs, after) := double (rest.drop run.length)
      (codes (fold (g :: run)) ++ cs, after)
    else
      let (cs, after) := double rest
      (g.char.toNat :: cs, after)
termination_by gs.length
decreasing_by all_goals simp only [List.length_drop, List.length_cons]; omega

end BalancedTeams.Yaml.Quoted
