import BalancedTeams.Config.Normalize
import BalancedTeams.Mention
import BalancedTeams.Relation.Grammar
import BalancedTeams.Request

/-!
# Requests from configurations

* `Load.tags`, `Load.people`, `Load.relations` : the parts of a request; ids have to be such that
  they can be looked up, and distinct, names of people distinct, and every relation well formed;
* `Load.unmentionable`, `Load.shadowed` : what a user is warned of;
* `Request.load` : the request of a document.
-/

namespace BalancedTeams
namespace Load

/-! ## Tags and people -/

def tags (seen : List Key) : List Config.NormalTag → Except Fault (List Tag)
  | [] => .ok []
  | t :: rest => do
    let k ← t.id.key
    if seen.contains k then
      let shown ← t.id.text
      throw (.input (.duplicateTag shown))
    let more ← tags (k :: seen) rest
    return { id := t.id, name := .str t.name } :: more

def tagNamed? (known : List Tag) (name : Text) : Option Tag :=
  known.find? fun t => t.name == .str name

def tagKey (known : List Tag) (name : Text) : Except Fault Key :=
  match tagNamed? known name with
  | some t => t.id.key
  | none => .error (.unknownVariable name)

def people (known : List Tag) (ids : List Key) (names : List Text) :
    List Config.NormalPerson → Except Fault (List Person)
  | [] => .ok []
  | p :: rest => do
    let k ← p.id.key
    if ids.contains k then
      let shown ← p.id.text
      throw (.input (.duplicatePerson shown))
    if names.contains p.name then throw (.input (.duplicateName p.name))
    let tags ← p.tags.mapM (tagKey known)
    let more ← people known (k :: ids) (p.name :: names) rest
    return { id := p.id, name := .str p.name, tags } :: more

/-! ## Warnings -/

/-- Whether a name can be mentioned; only texts can. -/
def canMention : Value → Bool
  | .str t => isMentionable t
  | _ => false

def unmentionable (kind : Text) (name : Value) : Except TextFault Text := do
  let shown ← name.quoted
  return kind ++ " name " ++ shown ++ " contains whitespace, brackets or '@' " ++
    "and cannot be mentioned in relations."

def unmentionableNames (people : List Person) (tags : List Tag) : Except TextFault (List Text) := do
  let unfit := fun names => List.filter (fun n => !canMention n) names
  let ofPeople ← (unfit (people.map Person.name)).mapM (unmentionable "Person")
  let ofTags ← (unfit (tags.map Tag.name)).mapM (unmentionable "Tag")
  return ofPeople ++ ofTags

def mentionedNames (people : List Person) (entries : List Entry) : List Text :=
  entries.filterMap fun e => match e with
    | .ref (.person id) =>
      (people.find? fun p => p.id.same id).bind fun p => match p.name with
        | .str name => some name
        | _ => none
    | _ => none

/-- The list in order and without repetitions. -/
def sortedNames (names : List Text) : List Text := (names.mergeSort Text.le).eraseReps

/-- The mentioned names that are names of tags too, in order. -/
def sharedNames (people : List Person) (tags : List Tag) (entries : List Entry) : List Text :=
  sortedNames ((mentionedNames people entries).filter fun n => (tagNamed? tags n).isSome)

def shadowed (index : Nat) (name : Text) : Text :=
  InputFault.relation index ++ " mentions @" ++ name ++
    ", which names both a person and a tag; the person is used."

/-! ## Relations -/

/-- An integer of at least 1, also as a whole float or as a text. -/
def priority (index : Nat) (given : Option Value) : Except Fault Int :=
  match given.getD (.int 1) with
  | .bool _ => .error (.input (.truthPriority index))
  | v =>
    let n := match v with
      | .int n => some n
      | .float x => x.int?
      | .str t => Numeral.int? t
      | _ => none
    match n with
    | some n => if 1 ≤ n then .ok n else refuse (.int n)
    | none => refuse v
where
  refuse (shown : Value) : Except Fault Int := do
    let shown ← shown.quoted
    throw (.input (.badPriority index shown))

/-- A fault within a relation, with its place. -/
def atRelation (index : Nat) (text : Text) : Fault → Fault
  | .word _ f => .word (some ⟨index, text⟩) f
  | .grammar _ f => .grammar (some ⟨index, text⟩) f
  | f => f

/-- A relation read from an entry, with the key of its id and the warnings about it; `next` is the
id that the next relation has unless one is given. -/
structure Read where
  relation : Relation
  key : Key
  warnings : List Text
  next : Int

def textOf (index : Nat) (fields : Config) : Except Fault Text :=
  match Value.field? "text" fields with
  | some (.str t) =>
    if t.strip.isEmpty then .error (.input (.relationWithoutText index)) else .ok t
  | _ => .error (.input (.relationWithoutText index))

/-- The id of an entry and the next free one after it. -/
def relationId (next : Int) (fields : Config) : Value × Int :=
  match Config.given? (Value.field? "id" fields) with
  | some id => (id, next)
  | none => (.int next, next + 1)

def relation (people : List Person) (tags : List Tag) (seen : List Key) (next : Int) (index : Nat)
    (v : Value) : Except Fault Read :=
  match v with
  | .map fields => do
    let text ← textOf index fields
    let (id, next) := relationId next fields
    let k ← id.key
    if seen.contains k then
      let shown ← id.text
      throw (.input (.duplicateRelation shown))
    let n ← priority index (Value.field? "priority" fields)
    let names ← Fault.orNoKey (Names.of? people tags)
    let entries := Entry.parse names text
    match relationTokens entries with
    | .error f => throw (atRelation index text f)
    | .ok _ =>
      return {
        relation := { id, entries, priority := .int n }
        key := k
        warnings := (sharedNames people tags entries).map (shadowed index)
        next }
  | _ => .error (.input (.relationNotAMap index))

def relationsFrom (people : List Person) (tags : List Tag) (seen : List Key) (next : Int)
    (index : Nat) : List Value → Except Fault (List Relation × List Text)
  | [] => .ok ([], [])
  | v :: rest => do
    let r ← relation people tags seen next index v
    let more ← relationsFrom people tags (r.key :: seen) r.next (index + 1) rest
    return (r.relation :: more.1, r.warnings ++ more.2)

def givenIds (items : List Value) : List Value :=
  items.filterMap fun v => match v with
    | .map fields => Value.field? "id" fields
    | _ => none

/-- The relations and the warnings about them; missing ids go on from the greatest integer id. -/
def relations (people : List Person) (tags : List Tag) (items : List Value) :
    Except Fault (List Relation × List Text) :=
  relationsFrom people tags [] (Config.nextId 0 (givenIds items)) 0 items

/-! ## Requests -/

def malformedPeople : Text :=
  "Some people entries were malformed and have been skipped or cleaned up."

/-- The team count; truth values are no integers here. -/
def teamCount : Value → Except Fault Int
  | .int n => .ok n
  | v => do
    let shown ← v.quoted
    throw (.input (.teamCountNotAnInteger shown))

def request (n : Config.Normal) : Except Fault Request := do
  let tags ← tags [] n.tags
  let people ← people tags [] [] n.people
  if people.isEmpty then throw (.input .noPeople)
  let unfit ← unmentionableNames people tags
  let (relations, warnings) ← relations people tags n.relations
  let teams ← teamCount n.teamCount
  return {
    people
    tags
    relations
    teamCount := .int teams
    timeLimit := n.settings.timeLimit.map Value.float
    workers := .int n.settings.workers
    emptyTag := n.settings.emptyTag.name
    warnings := (if n.wellFormed then [] else [malformedPeople]) ++
      unfit ++ warnings }

end Load

def Request.load (v : Value) : Except Fault Request := do
  let n ← Config.normal v
  Load.request n

end BalancedTeams
