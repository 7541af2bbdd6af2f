import BalancedTeams.Fault

/-!
# From entries to tokens

* `operator?` : the operator a word stands for, in any letter case;
* `Token.ofText` : the tokens of one text, words being the runs of characters that are neither
  blank nor a parenthesis;
* `Token.ofEntries` : the tokens of all entries in order.
-/

namespace BalancedTeams

/-- The operator a word names, whatever the case of its letters. No letter outside ASCII has an
upper-case form among those of the three words. -/
def operator? (word : Text) : Option Kind :=
  let upper := word.map (CodePoint.mapChar Char.toUpper)
  if upper = "AND" then some .and
  else if upper = "OR" then some .or
  else if upper = "NOT" then some .not
  else none

/-- Neither blank nor a parenthesis. -/
def isWordPoint (c : CodePoint) : Bool := !Text.isBlank c && c != '(' && c != ')'

namespace Token

/-- The tokens of a text from offset `offset` on. -/
def ofText (entry : Nat) (offset : Nat) (cs : Text) : Except Fault (List Token) :=
  match cs with
  | [] => .ok []
  | c :: rest =>
    if c = '(' then do
      let ts ← ofText entry (offset + 1) rest
      return { kind := .opening, entry, offset } :: ts
    else if c = ')' then do
      let ts ← ofText entry (offset + 1) rest
      return { kind := .closing, entry, offset } :: ts
    else if Text.isBlank c then ofText entry (offset + 1) rest
    else
      let more := rest.takeWhile isWordPoint
      match operator? (c :: more) with
      | none => .error (.word none (.unexpected (c :: more) entry offset))
      | some kind => do
        let ts ← ofText entry (offset + 1 + more.length) (rest.drop more.length)
        return { kind, entry, offset } :: ts
termination_by cs.length
decreasing_by all_goals simp only [List.length_drop, List.length_cons]; omega

def ofEntry (index : Nat) : Entry → Except Fault (List Token)
  | .text t => ofText index 0 t
  | .ref r => .ok [{ kind := .mention, ref := some r, entry := index }]
  | .foreign v => do
    let shown ← v.quoted
    throw (.word none (.foreignEntry shown index))

def ofEntriesFrom (index : Nat) : List Entry → Except Fault (List Token)
  | [] => .ok []
  | e :: rest => do
    let ts ← ofEntry index e
    let more ← ofEntriesFrom (index + 1) rest
    return ts ++ more

def ofEntries (entries : List Entry) : Except Fault (List Token) := ofEntriesFrom 0 entries

end Token
end BalancedTeams
