import BalancedTeams.Fault

/-!
# Mentions in relation text

* `Mention.isNamePoint` : the code points a mentioned name is made of;
* `isMentionable` : whether `@name` would be read as a mention of the whole name;
* `Names.of?` : the table that mentions are looked up in, where people come before tags and the
  last one of several equal names counts;
* `Entry.parse` : text as entries; an `@` whose name is not in the table stays text;
* `Entry.render` : entries as text.
-/

namespace BalancedTeams

/-! ## Names -/

namespace Mention

def signs : Text := ['(', ')', '[', ']', '\x7b', '\x7d', '@']

def isNamePoint (c : CodePoint) : Bool := !Text.isBlank c && !signs.contains c

end Mention

/-- A nonempty name without blanks and signs. -/
def isMentionable (name : Text) : Bool := !name.isEmpty && name.all Mention.isNamePoint

abbrev Names := Table Ref

/-- The names of tags and, filed after them, of people. -/
def Names.of? (people : List Person) (tags : List Tag) : Option Names := do
  let tags ← Table.of? Tag.name (fun t => Ref.tag t.id) tags
  let people ← Table.of? Person.name (fun p => Ref.person p.id) people
  return tags ++ people

def Names.ref? (names : Names) (name : Text) : Option Ref := names.find? (.str name)

/-! ## Reading -/

namespace Entry

/-- The text collected so far, its end first, as an entry unless it is empty. -/
def ofPending (pending : Text) : List Entry :=
  if pending.isEmpty then [] else [.text pending.reverse]

/-- Reads on after `pending`. After an `@` comes the longest run of name characters; if it is a
known name the two are a mention. -/
def scan (find? : Text → Option Ref) (pending : Text) (cs : Text) : List Entry :=
  match cs with
  | [] => ofPending pending
  | c :: rest =>
    if c = '@' then
      let run := rest.takeWhile Mention.isNamePoint
      match if run.isEmpty then none else find? run with
      | some r => ofPending pending ++ .ref r :: scan find? [] (rest.drop run.length)
      | none => scan find? (c :: pending) rest
    else scan find? (c :: pending) rest
termination_by cs.length
decreasing_by all_goals simp only [List.length_drop, List.length_cons]; omega

/-- Text as entries; there is at least one. -/
def parse (names : Names) (text : Text) : List Entry :=
  match scan names.ref? [] text with
  | [] => [.text text]
  | entries => entries

/-! ## Writing -/

/-- The name filed under an id as a mention; nothing if there is none. -/
def mention (names : Table Value) (id : Value) : Except Fault Text := do
  let k ← id.key
  match names.find? k with
  | none => return ""
  | some .null => return ""
  | some name =>
    let name ← name.text
    return "@" ++ name

/-- A text as it is, a reference as `@name`; stale references and foreign entries as nothing. -/
def renderOne (people tags : Table Value) : Entry → Except Fault Text
  | .text t => .ok t
  | .ref (.person id) => mention people id
  | .ref (.tag id) => mention tags id
  | .foreign _ => .ok ""

/-- Entries as text. All ids are looked up, those of the people first. -/
def render (people : List Person) (tags : List Tag) (entries : List Entry) : Except Fault Text := do
  let people ← Fault.orNoKey (Table.of? Person.id Person.name people)
  let tags ← Fault.orNoKey (Table.of? Tag.id Tag.name tags)
  let texts ← entries.mapM (renderOne people tags)
  return texts.flatten

end Entry
end BalancedTeams
