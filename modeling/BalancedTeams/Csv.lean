import BalancedTeams.Value

/-!
# Comma-separated values

* `Csv.field` : one field, in quotes if it holds a sign of the format;
* `Csv.row` : a row with its line end.
-/

namespace BalancedTeams.Csv

def quote : CodePoint := Text.doubleQuote

/-- The code points that a field can hold in quotes only. -/
def isSign (c : CodePoint) : Bool := c == ',' || c == quote || c == '\r' || c == '\n'

def doubled (t : Text) : Text := t.flatMap fun c => if c = quote then [c, c] else [c]

def quoteIfNeeded (t : Text) : Text := if t.any isSign then quote :: doubled t ++ [quote] else t

/-- A value as a field; null is an empty one. -/
def field : Value → Except TextFault Text
  | .null => .ok []
  | v => v.text.map quoteIfNeeded

def row (fields : List Value) : Except TextFault Text := do
  let fields ← fields.mapM field
  return ("," : Text).intercalate fields ++ "\r\n"

end BalancedTeams.Csv
