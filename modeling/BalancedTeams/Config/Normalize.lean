import BalancedTeams.Request

/-!
# Configurations in normal form

* `Config` : the fields of a configuration, by text keys, in order;
* `Config.migrate` : brings the fields of older versions up to the current one;
* `Config.normal` : people and tags with names and ids, the relations, and complete solver settings;
  it also says whether every entry for a person was well formed (`Config.Normal`);
* `Config.Normal.toConfig` : the normal form as fields; `Config.standard` : the fields that hold
  where nothing is given.
-/

namespace BalancedTeams

abbrev Config := List (Scalar × Value)

namespace Config

def currentVersion : Int := 1

def defaultTeams : Value := .int 2

/-! ## Migration -/

/-- A bare text as a relation of priority 1. -/
def fullRelation : Value → Value
  | .str t => .map [(.str "text", .str t), (.str "priority", .int 1)]
  | v => v

/-- Before version 1 relations could be bare texts and the team count could be called `teams`. -/
def fromVersion0 (cfg : Config) : Config :=
  let cfg := match Value.field? "relations" cfg with
    | some (.list items) => Value.setField "relations" (.list (items.map fullRelation)) cfg
    | _ => cfg
  if Value.hasField "num_teams" cfg then cfg
  else match Value.field? "teams" cfg with
    | some n => Value.setField "num_teams" n (Value.eraseField "teams" cfg)
    | none => cfg

/-- The version of a configuration; one that cannot be read counts as 0, one out of range is a
fault. -/
def version (cfg : Config) : Except NumberFault Int :=
  match ((Value.field? "schema_version" cfg).getD (.int 0)).toInt with
  | .ok n => .ok n
  | .error .outOfRange => .error .outOfRange
  | .error _ => .ok 0

/-- Configurations of a later version stay as they are. -/
def migrate (cfg : Config) : Except NumberFault Config := do
  let v ← version cfg
  if currentVersion < v then return Value.setField "schema_version" (.int v) cfg
  else
    let cfg := if v < 1 then fromVersion0 cfg else cfg
    return Value.setField "schema_version" (.int currentVersion) cfg

/-- The fields of a document; one that is no map has none. -/
def ofValue : Value → Config
  | .map fields => fields
  | _ => []

/-! ## People -/

/-- A text with more than blanks, stripped. -/
def nameOf? : Value → Option Text
  | .str t => if t.strip.isEmpty then none else some t.strip
  | _ => none

def addNew (names : List Text) (name : Text) : List Text :=
  if names.contains name then names else names ++ [name]

/-- The distinct names of a list, and whether all of it were names. -/
def tagNames : Option Value → List Text × Bool
  | none => ([], true)
  | some .null => ([], true)
  | some (.list items) =>
    (items.filterMap nameOf? |>.foldl addNew [], items.all fun v => (nameOf? v).isSome)
  | some _ => ([], false)

/-- A person as given: a name, tag names, and an id unless it is left out. -/
structure PersonEntry where
  name : Text
  tags : List Text
  id : Option Value
  deriving Repr, Inhabited

/-- A value that is there and not null. -/
def given? : Option Value → Option Value
  | some .null => none
  | v => v

/-- The fields of an entry for a person; a bare text is a name. -/
def entryFields? : Value → Option Config
  | .str t => some [(.str "name", .str t)]
  | .map fields => some fields
  | _ => none

def personEntry? (v : Value) : Option (PersonEntry × Bool) := do
  let fields ← entryFields? v
  let name ← (Value.field? "name" fields).bind nameOf?
  let tags := tagNames (Value.field? "tags" fields)
  return ({ name, tags := tags.1, id := given? (Value.field? "id" fields) }, tags.2)

def personEntries : Option Value → List PersonEntry × Bool
  | none => ([], true)
  | some .null => ([], true)
  | some (.list items) =>
    let found := items.map personEntry?
    (found.filterMap fun e => e.map Prod.fst, found.all fun e => match e with
      | some (_, ok) => ok
      | none => false)
  | some _ => ([], false)

/-- One more than the greatest integer among the ids and `least`. -/
def nextId (least : Int) (ids : List Value) : Int :=
  (ids.filterMap Value.integer?).foldl max least + 1

structure NormalPerson where
  name : Text
  tags : List Text
  id : Value
  deriving Repr, Inhabited

/-- Missing ids filled in with consecutive integers from `next` on. -/
def fillIds (next : Int) : List PersonEntry → List NormalPerson
  | [] => []
  | p :: rest =>
    match p.id with
    | some id => ⟨p.name, p.tags, id⟩ :: fillIds next rest
    | none => ⟨p.name, p.tags, .int next⟩ :: fillIds (next + 1) rest

/-- Persons with ids; missing ones go on from the greatest integer id. -/
def withIds (people : List PersonEntry) : List NormalPerson :=
  fillIds (nextId (-1) (people.filterMap PersonEntry.id)) people

/-! ## Tags -/

structure NormalTag where
  name : Text
  id : Value
  deriving Repr, Inhabited

def declaredTag? : Value → Option NormalTag
  | .map fields =>
    match Value.field? "name" fields, given? (Value.field? "id" fields) with
    | some (.str t), some id => some ⟨t.strip, id⟩
    | _, _ => none
  | _ => none

/-- The list with a tag added at the end unless its name is in it. -/
def addTag (tags : List NormalTag) (t : NormalTag) : List NormalTag :=
  if tags.any fun u => u.name == t.name then tags else tags ++ [t]

/-- The declared tags; the first declaration of a name counts. -/
def declaredTags : Option Value → List NormalTag
  | some (.list items) => (items.filterMap declaredTag?).foldl addTag []
  | _ => []

/-- The tags people carry, in the order of first use. -/
def usedTags (people : List NormalPerson) : List Text :=
  (people.flatMap NormalPerson.tags).foldl addNew []

/-- Ids for tag names: the declared one, else consecutive integers from `next` on. -/
def numberTags (declared : List NormalTag) (next : Int) : List Text → List NormalTag
  | [] => []
  | name :: rest =>
    match declared.find? fun t => t.name == name with
    | some t => ⟨name, t.id⟩ :: numberTags declared next rest
    | none => ⟨name, .int next⟩ :: numberTags declared (next + 1) rest

/-- The tags people carry, with ids; tags nobody carries are dropped. -/
def tags (declared : List NormalTag) (people : List NormalPerson) : List NormalTag :=
  numberTags declared (nextId (-1) (declared.map NormalTag.id)) (usedTags people)

/-! ## Solver settings -/

structure Settings where
  timeLimit : Option Binary64 := none
  workers : Int := defaultWorkers
  emptyTag : EmptyTag := .vacuous
  deriving Repr, Inhabited

/-- What a value is read as; where it cannot be read the default counts, and only a number out of
range is a fault. -/
def orDefault {α : Type} (default : α) : Except NumberFault α → Except NumberFault α
  | .ok a => .ok a
  | .error .outOfRange => .error .outOfRange
  | .error _ => .ok default

/-- A time limit of at least 0. -/
def timeLimit : Option Value → Except NumberFault (Option Binary64)
  | none => .ok none
  | some .null => .ok none
  | some v => orDefault none (v.toFloat.map fun x => some x.clampBelow)

def workers : Option Value → Except NumberFault Int
  | none => .ok defaultWorkers
  | some v => orDefault defaultWorkers (v.toInt.map (max 0))

/-- A policy, in any letter case. -/
def emptyTag : Option Value → Except TextFault EmptyTag
  | none => .ok .vacuous
  | some v => do
    let name ← v.text
    return (EmptyTag.ofName? (name.strip.map (CodePoint.mapChar Char.toLower))).getD .vacuous

def settings : Option Value → Except Fault Settings
  | some (.map fields) => do
    let timeLimit ← timeLimit (Value.field? "time_limit_seconds" fields)
    let workers ← workers (Value.field? "num_workers" fields)
    let emptyTag ← emptyTag (Value.field? "empty_tag" fields)
    return { timeLimit, workers, emptyTag }
  | _ => return {}

/-! ## Normal form -/

/-- The items of a list of relations; anything else counts as none. -/
def relations : Option Value → List Value
  | some (.list items) => items
  | _ => []

structure Normal where
  /-- All fields after migration. -/
  fields : Config
  teamCount : Value
  people : List NormalPerson
  tags : List NormalTag
  relations : List Value
  settings : Settings
  /-- Whether every entry for a person was well formed. -/
  wellFormed : Bool
  deriving Repr, Inhabited

def normal (v : Value) : Except Fault Normal := do
  let fields ← migrate (ofValue v)
  let entries := personEntries (Value.field? "people" fields)
  let people := withIds entries.1
  let settings ← settings (Value.field? "solver" fields)
  return {
    fields
    teamCount := (Value.field? "num_teams" fields).getD defaultTeams
    people
    tags := tags (declaredTags (Value.field? "tags" fields)) people
    relations := relations (Value.field? "relations" fields)
    settings
    wellFormed := entries.2 }

/-! ## Normal form as fields -/

def NormalPerson.toValue (p : NormalPerson) : Value :=
  .map [(.str "name", .str p.name), (.str "tags", .list (p.tags.map Value.str)), (.str "id", p.id)]

def NormalTag.toValue (t : NormalTag) : Value :=
  .map [(.str "id", t.id), (.str "name", .str t.name)]

def Settings.toValue (s : Settings) : Value :=
  .map [(.str "time_limit_seconds", (s.timeLimit.map Value.float).getD .null),
    (.str "num_workers", .int s.workers), (.str "empty_tag", .str s.emptyTag.name)]

/-- The migrated fields with the normal ones in their places. -/
def Normal.toConfig (n : Normal) : Config :=
  n.fields
    |> Value.setField "num_teams" n.teamCount
    |> Value.setField "people" (.list (n.people.map NormalPerson.toValue))
    |> Value.setField "tags" (.list (n.tags.map NormalTag.toValue))
    |> Value.setField "relations" (.list n.relations)
    |> Value.setField "solver" n.settings.toValue

def standard : Config :=
  [(.str "schema_version", .int currentVersion), (.str "num_teams", defaultTeams),
   (.str "people", .list []), (.str "tags", .list []), (.str "relations", .list []),
   (.str "solver", Settings.toValue {})]

end Config
end BalancedTeams
