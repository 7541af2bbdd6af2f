import BalancedTeams.Directory

/-!
# Tokens of a relation

* `Kind` : mention, operator, parenthesis, or a word that is none of them;
* `Token` : a kind with the reference of a mention and the place it was read from.
-/

namespace BalancedTeams

inductive Kind where
  | mention
  | and
  | or
  | not
  | opening
  | closing
  /-- A kind no relation is made of. -/
  | other (name : Text)
  deriving DecidableEq, Repr, Inhabited

namespace Kind

def text : Kind → Text
  | .mention => "OPERAND"
  | .and => "AND"
  | .or => "OR"
  | .not => "NOT"
  | .opening => "("
  | .closing => ")"
  | .other name => name

def ofText (s : Text) : Kind :=
  if s = "OPERAND" then .mention
  else if s = "AND" then .and
  else if s = "OR" then .or
  else if s = "NOT" then .not
  else if s = "(" then .opening
  else if s = ")" then .closing
  else .other s

end Kind

structure Token where
  kind : Kind
  /-- The reference of a mention. -/
  ref : Option Ref := none
  /-- The index of the entry the token was read from. -/
  entry : Nat := 0
  /-- The offset of its first character in that entry. -/
  offset : Nat := 0
  deriving DecidableEq, Repr, Inhabited

end BalancedTeams
