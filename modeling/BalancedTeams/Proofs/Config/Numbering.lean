import BalancedTeams.Proofs.Config.Faults
import Mathlib.Data.List.ReduceOption

/-!
# Ids that are filled in

* `Config.number` : ids in order, where consecutive integers stand for those that are missing;
* `Config.number_perm`, `Config.distinct_free` : what is numbered are the given ids and different
  integers;
* `Config.isFloat_of_same` : the integers are above all given ones, so that only a float can be the same
  as one of them;
* `IdKind.given`, `IdKind.filled` : the ids of a kind that a document gives, and those that are filled in;
  `IdKind.ids_eq` : people, tags and relations are numbered alike;
* `Load.request_duplicates` : ids that are reported as duplicates are some;
* `Request.filled_ids_new` : ids that are filled in are new, but for floats.
-/

namespace BalancedTeams
namespace Config

/-! ## Numbering -/

/-- The id in a place and the next free one after it. -/
def place (next : Int) : Option Value → Value × Int
  | some id => (id, next)
  | none => (.int next, next + 1)

/-- Ids in order; those that are missing are consecutive integers from `next` on. -/
def number (next : Int) : List (Option Value) → List Value
  | [] => []
  | given :: rest => (place next given).1 :: number (place next given).2 rest

theorem map_id_fillIds (entries : List PersonEntry) (next : Int) :
    (fillIds next entries).map NormalPerson.id = number next (entries.map PersonEntry.id) := by
  induction entries generalizing next with
  | nil => rfl
  | cons e entries ih =>
    rw [List.map_cons, number, fillIds]
    split
    · next id hid => rw [List.map_cons, ih, hid]; rfl
    · next hid => rw [List.map_cons, ih, hid]; rfl

theorem map_id_numberTags (declared : List NormalTag) (names : List Text) (next : Int) :
    (numberTags declared next names).map NormalTag.id =
      number next (names.map fun name => (declared.find? fun t => t.name == name).map NormalTag.id) := by
  induction names generalizing next with
  | nil => rfl
  | cons name names ih =>
    rw [List.map_cons, number, numberTags]
    split
    · next t ht => rw [List.map_cons, ih, ht]; rfl
    · next ht => rw [List.map_cons, ih, ht]; rfl

theorem freeIds_succ (next : Int) (count : Nat) :
    Load.freeIds next (count + 1) = .int next :: Load.freeIds (next + 1) count := by
  unfold Load.freeIds
  rw [List.range_succ_eq_map, List.map_cons, List.map_map]
  congr 1
  · simp
  · refine List.map_congr_left fun j _ => ?_
    show Value.int (next + ((j + 1 : Nat) : Int)) = .int (next + 1 + j)
    congr 1
    omega

def filledIn (places : List (Option Value)) (ids : List Value) : List Value :=
  ((places.zip ids).filter fun e => e.1.isNone).map Prod.snd

theorem filledIn_number (places : List (Option Value)) (next : Int) :
    filledIn places (number next places) = Load.freeIds next (places.count none) := by
  induction places generalizing next with
  | nil => rfl
  | cons given places ih =>
    cases given with
    | some id =>
      have hcount : (some id :: places).count none = places.count none := by simp
      rw [hcount, ← ih next]
      rfl
    | none =>
      have hcount : (none :: places).count none = places.count none + 1 := by simp
      rw [hcount, freeIds_succ, ← ih (next + 1)]
      rfl

/-- What is numbered are the ids that are given and those that are filled in. -/
theorem number_perm (places : List (Option Value)) (next : Int) :
    (number next places).Perm (places.reduceOption ++ filledIn places (number next places)) := by
  induction places generalizing next with
  | nil => exact .refl _
  | cons given places ih =>
    cases given with
    | some id => exact (ih next).cons id
    | none => exact ((ih (next + 1)).cons _).trans List.perm_middle.symm

theorem distinct_free (next : Int) (count : Nat) : DistinctKeys (Load.freeIds next count) where
  keyed id hid := by
    obtain ⟨j, -, rfl⟩ := List.mem_map.1 hid
    rfl
  nodup := by
    unfold Load.freeIds
    rw [List.map_map]
    refine List.nodup_range.map fun i j h => ?_
    have hkeys : some (Key.int (next + i)) = some (Key.int (next + j)) := h
    simp only [Option.some.injEq, Key.int.injEq] at hkeys
    omega

/-! ## Integers above the given ones -/

theorem le_foldl_max (ns : List Int) (least : Int) :
    least ≤ ns.foldl max least ∧ ∀ n ∈ ns, n ≤ ns.foldl max least := by
  induction ns generalizing least with
  | nil => exact ⟨Int.le_refl _, nofun⟩
  | cons m ns ih =>
    obtain ⟨hleast, hall⟩ := ih (max least m)
    rw [List.foldl_cons]
    exact ⟨by omega, List.forall_mem_cons.2 ⟨by omega, hall⟩⟩

theorem lt_nextId {ids : List Value} {id : Value} (hid : id ∈ ids) {n : Int} (hn : id.integer? = some n)
    (least : Int) : n < nextId least ids := by
  have := (le_foldl_max (ids.filterMap Value.integer?) least).2 n (List.mem_filterMap.2 ⟨id, hid, hn⟩)
  unfold nextId
  omega

/-- Only a float can be the same as an integer above all integers that are given. -/
theorem isFloat_of_same {ids : List Value} {least : Int} {count : Nat} {id new : Value} (hid : id ∈ ids)
    (hnew : new ∈ Load.freeIds (nextId least ids) count) (hsame : id.same new = true) :
    ∃ x, id = .float x := by
  obtain ⟨j, -, rfl⟩ := List.mem_map.1 hnew
  obtain ⟨k, hk, hint⟩ := same_eq_true_iff.1 hsame
  cases hint
  have habove : ∀ n, id.integer? = some n → n < nextId least ids + j := by
    intro n hn
    have := lt_nextId hid hn least
    omega
  cases id with
  | list items => cases hk
  | map fields => cases hk
  | scalar s =>
    cases s with
    | float x => exact ⟨x, rfl⟩
    | bool b =>
      have hb : some (Key.int (boolInt b)) = some (Key.int (nextId least ids + j)) := hk
      simp only [Option.some.injEq, Key.int.injEq] at hb
      exact absurd hb (Int.ne_of_lt (habove _ rfl))
    | int n =>
      have hn : some (Key.int n) = some (Key.int (nextId least ids + j)) := hk
      simp only [Option.some.injEq, Key.int.injEq] at hn
      exact absurd hn (Int.ne_of_lt (habove _ rfl))
    | _ => cases hk

/-- Distinct ids stay distinct when others are filled in, unless one is the same as those. -/
theorem nodup_keysIn_number {places : List (Option Value)} {next : Int}
    (hgiven : (keysIn places.reduceOption).Nodup)
    (hapart : ∀ old ∈ places.reduceOption, ∀ new ∈ filledIn places (number next places),
      old.same new = false) : (keysIn (number next places)).Nodup := by
  have hperm : (keysIn (number next places)).Perm
      (keysIn places.reduceOption ++ keysIn (filledIn places (number next places))) := by
    have := (number_perm places next).filterMap Value.key?
    rwa [List.filterMap_append] at this
  rw [hperm.nodup_iff, List.nodup_append']
  refine ⟨hgiven, ?_, fun k hk hfilled => ?_⟩
  · rw [filledIn_number]
    exact nodup_keysIn (distinct_free _ _)
  · obtain ⟨old, hold, hkey⟩ := mem_keysIn.1 hk
    obtain ⟨new, hnew, hkey'⟩ := mem_keysIn.1 hfilled
    have hsame := same_eq_true_iff.2 ⟨k, hkey, hkey'⟩
    rw [hapart old hold new hnew] at hsame
    cases hsame

end Config

/-! ## Duplicates that are reported -/

def Config.explicitId? (v : Value) : Option Value := given? (Value.field? "id" (ofValue v))

namespace Load
open Config (number place explicitId?)

theorem relationId_eq (next : Int) (fields : Config) :
    relationId next fields = place next (explicitId? (.map fields)) := by
  unfold relationId explicitId?
  show _ = place next (Config.given? (Value.field? "id" fields))
  cases Config.given? (Value.field? "id" fields) <;> rfl

section
variable {P : Fault → Prop} (hP : ∀ e, e.duplicateOf? = none → P e)
include hP

theorem tagKey_duplicates (known : List Tag) (name : Text) : FailsWith P (tagKey known name) := by
  unfold tagKey
  split
  · exact .key fun _ => hP _ rfl
  · exact .error (hP _ rfl)

/-- Relations are reported as duplicates only if two of their ids are the same, or one was seen before. -/
theorem relationsFrom_duplicates {people : List Person} {tags : List Tag} {seen : List Key} {next : Int}
    {index : Nat} {items : List Value}
    (hdup : ¬ (seen ++ keysIn (number next (items.map explicitId?))).Nodup →
      ∀ shown, P (.input (.duplicateRelation shown))) :
    FailsWith P (relationsFrom people tags seen next index items) := by
  induction items generalizing seen next index with
  | nil => exact .ok _
  | cons v rest ih =>
    rw [List.map_cons, number] at hdup
    unfold relationsFrom
    refine FailsWith.bind ?_ fun r hr => ?_
    · refine failsWith_relation (fun e _ => hP e) (fun _ => hP _ rfl) ?_ fun _ _ _ _ _ => hP _ rfl
      rintro fields rfl
      refine ⟨fun _ => hP _ rfl, fun k hk hseen => ⟨fun _ => hP _ rfl, hdup ?_⟩⟩
      rw [relationId_eq] at hk
      rw [keysIn_cons hk]
      exact not_nodup_of_seen hseen _
    · obtain ⟨fields, text, k, n, names, ts, rfl, -, hk, -, -, -, -, rfl⟩ := relation_eq_ok_iff.1 hr
      rw [relationId_eq] at hk
      rw [keysIn_cons hk, List.nodup_middle] at hdup
      refine (ih fun h => hdup ?_).bind fun more _ => .ok _
      rwa [← relationId_eq]

end

theorem map_id_of_relationsFrom {people : List Person} {tags : List Tag} {seen : List Key} {next : Int}
    {index : Nat} {items : List Value} {a : List Relation × List Text}
    (h : relationsFrom people tags seen next index items = .ok a) :
    a.1.map Relation.id = number next (items.map explicitId?) := by
  induction items generalizing seen next index a with
  | nil =>
    cases h
    rfl
  | cons v rest ih =>
    obtain ⟨r, more, hr, hmore, rfl⟩ := relationsFrom_cons_eq_ok_iff.1 h
    obtain ⟨fields, text, k, n, names, ts, rfl, -, -, -, -, -, -, rfl⟩ := relation_eq_ok_iff.1 hr
    rw [List.map_cons, List.map_cons, number, ih hmore, ← relationId_eq]

end Load

/-! ## Ids of a document -/

namespace Config
open Load (givenIds)

theorem explicitId?_fullRelation (v : Value) : explicitId? (fullRelation v) = explicitId? v := by
  cases v with
  | scalar s => cases s <;> rfl
  | _ => rfl

theorem relations_of_migrate {cfg fields : Config} (h : migrate cfg = .ok fields) :
    relations (Value.field? "relations" fields) = relations (Value.field? "relations" cfg) ∨
      relations (Value.field? "relations" fields) =
        (relations (Value.field? "relations" cfg)).map fullRelation := by
  obtain ⟨v, -, h⟩ := bind_eq_ok_iff.1 h
  dsimp only at h
  split at h
  · cases h
    exact Or.inl (by rw [Value.field?_setField_of_ne (by decide)])
  · cases h
    rw [Value.field?_setField_of_ne (by decide)]
    split
    · rw [fromVersion0_eq, field?_renamedTeams_of_ne (by decide) (by decide), relations_fullRelations]
      exact Or.inr rfl
    · exact Or.inl rfl

theorem map_explicitId?_of_migrate {cfg fields : Config} (h : migrate cfg = .ok fields) :
    (relations (Value.field? "relations" fields)).map explicitId? =
      (relations (Value.field? "relations" cfg)).map explicitId? := by
  rcases relations_of_migrate h with hsame | hfull
  · rw [hsame]
  · rw [hfull, List.map_map]
    exact List.map_congr_left fun v _ => explicitId?_fullRelation v

theorem nextId_givenIds (least : Int) (items : List Value) :
    nextId least (givenIds items) = nextId least (items.filterMap explicitId?) := by
  have hints : (givenIds items).filterMap Value.integer? =
      (items.filterMap explicitId?).filterMap Value.integer? := by
    unfold givenIds
    rw [List.filterMap_filterMap, List.filterMap_filterMap]
    refine List.filterMap_congr fun v _ => ?_
    cases v with
    | map fields =>
      show (Value.field? "id" fields).bind Value.integer? =
        (given? (Value.field? "id" fields)).bind Value.integer?
      cases Value.field? "id" fields with
      | none => rfl
      | some id =>
        cases id with
        | scalar s => cases s <;> rfl
        | _ => rfl
    | _ => rfl
  unfold nextId
  rw [hints]

theorem eq_of_nodup_filterMap {α : Type} {key : α → Option Key} {xs : List α}
    (h : (xs.filterMap key).Nodup) {a b : α} (ha : a ∈ xs) (hb : b ∈ xs) {k : Key} (hak : key a = some k)
    (hbk : key b = some k) : a = b := by
  by_contra hne
  have hpair := List.pairwise_filterMap.1 h
  have hsymm : Std.Symm fun x y : α => ∀ k, key x = some k → ∀ l, key y = some l → k ≠ l :=
    ⟨fun x y hxy k hk l hl e => hxy l hl k hk e.symm⟩
  exact hpair.forall ha hb hne k hak k hbk rfl

def declaredId? (declared : List NormalTag) (name : Text) : Option Value :=
  (declared.find? fun t => t.name == name).map NormalTag.id

theorem mem_of_declaredId? {declared : List NormalTag} {name : Text} {id : Value}
    (h : declaredId? declared name = some id) : ∃ t ∈ declared, t.name = name ∧ t.id = id := by
  obtain ⟨t, ht, rfl⟩ := Option.map_eq_some_iff.1 h
  exact ⟨t, List.mem_of_find?_eq_some ht, by simpa using List.find?_some ht, rfl⟩

theorem nodup_keysIn_declared {declared : List NormalTag} {names : List Text} (hnames : names.Nodup)
    (h : (keysIn (declared.map NormalTag.id)).Nodup) :
    (keysIn (names.map (declaredId? declared)).reduceOption).Nodup := by
  unfold keysIn at h ⊢
  rw [List.filterMap_map] at h
  rw [List.reduceOption, List.filterMap_map, List.filterMap_filterMap]
  refine hnames.filterMap fun name name' k hk hk' => ?_
  obtain ⟨id, hid, hkey⟩ := Option.bind_eq_some_iff.1 hk
  obtain ⟨id', hid', hkey'⟩ := Option.bind_eq_some_iff.1 hk'
  obtain ⟨t, ht, rfl, rfl⟩ := mem_of_declaredId? hid
  obtain ⟨t', ht', rfl, rfl⟩ := mem_of_declaredId? hid'
  rw [eq_of_nodup_filterMap h ht ht' hkey hkey']

end Config

namespace IdKind
open Config

/-- The ids that a document gives: those of the people in it, of the declared tags, of the relations. -/
def given (cfg : Config) : IdKind → List Value
  | person => (personEntries (Value.field? "people" cfg)).1.filterMap PersonEntry.id
  | tag => (declaredTags (Value.field? "tags" cfg)).map NormalTag.id
  | relation => (relations (Value.field? "relations" cfg)).filterMap explicitId?

/-- The places of ids in a normal form, with the ids that are given. -/
def places (n : Normal) : IdKind → List (Option Value)
  | person => (personEntries (Value.field? "people" n.fields)).1.map PersonEntry.id
  | tag => (n.tags.map NormalTag.name).map (declaredId? (declaredTags (Value.field? "tags" n.fields)))
  | relation => n.relations.map explicitId?

/-- The ids in these places; those of relations are filled in when they are read. -/
def ids (n : Normal) : IdKind → List Value
  | person => n.people.map NormalPerson.id
  | tag => n.tags.map NormalTag.id
  | relation => number (nextId 0 (Load.givenIds n.relations)) (n.relations.map explicitId?)

/-- The ids that are filled in. -/
def filled (n : Normal) (kind : IdKind) : List Value := filledIn (kind.places n) (kind.ids n)

def ofRequest (r : Request) : IdKind → List Value
  | person => r.people.map Person.id
  | tag => r.tags.map Tag.id
  | relation => r.relations.map Relation.id

/-- What integers are above where none is given. -/
def least : IdKind → Int
  | person => -1
  | tag => -1
  | relation => 0

/-- Migration keeps the given ids. -/
theorem given_of_migrate {cfg fields : Config} (h : migrate cfg = .ok fields) (kind : IdKind) :
    kind.given fields = kind.given cfg := by
  cases kind with
  | person =>
    show (personEntries (Value.field? "people" fields)).1.filterMap _ = _
    rw [field?_of_migrate h (by decide)]
    rfl
  | tag =>
    show (declaredTags (Value.field? "tags" fields)).map _ = _
    rw [field?_of_migrate h (by decide)]
    rfl
  | relation =>
    have hmap := congrArg List.reduceOption (map_explicitId?_of_migrate h)
    simp only [List.reduceOption, List.filterMap_map] at hmap
    exact hmap

variable {v : Value} {n : Normal}

/-- Ids of all kinds are numbered from above the given ones. -/
theorem ids_eq (h : normal v = .ok n) (kind : IdKind) :
    kind.ids n = number (nextId kind.least (kind.given (ofValue v))) (kind.places n) := by
  obtain ⟨fields, s, hfields, -, rfl⟩ := normal_eq_ok_iff.1 h
  rw [← given_of_migrate hfields]
  cases kind with
  | person => exact map_id_fillIds _ _
  | tag =>
    show (tags _ _).map NormalTag.id = number _ (((tags _ _).map NormalTag.name).map _)
    rw [map_name_tags]
    exact map_id_numberTags _ _ _
  | relation =>
    show number (nextId 0 (Load.givenIds _)) _ = number (nextId 0 _) _
    rw [nextId_givenIds]
    rfl

theorem places_subset (h : normal v = .ok n) (kind : IdKind) :
    (kind.places n).reduceOption ⊆ kind.given (ofValue v) := by
  obtain ⟨fields, s, hfields, -, rfl⟩ := normal_eq_ok_iff.1 h
  rw [← given_of_migrate hfields]
  intro id hid
  have hplace := List.reduceOption_mem_iff.1 hid
  cases kind with
  | person => exact List.mem_filterMap.2 (List.mem_map.1 hplace)
  | tag =>
    obtain ⟨name, -, hname⟩ := List.mem_map.1 hplace
    obtain ⟨t, ht, -, hid⟩ := mem_of_declaredId? hname
    exact List.mem_map.2 ⟨t, ht, hid⟩
  | relation => exact List.mem_filterMap.2 (List.mem_map.1 hplace)

/-- Ids that differ where they are given differ in their places. -/
theorem nodup_places (h : normal v = .ok n) {kind : IdKind}
    (hgiven : (keysIn (kind.given (ofValue v))).Nodup) : (keysIn (kind.places n).reduceOption).Nodup := by
  have hnames := nodup_tags_of_normal h
  obtain ⟨fields, s, hfields, -, rfl⟩ := normal_eq_ok_iff.1 h
  rw [← given_of_migrate hfields] at hgiven
  cases kind with
  | person =>
    show (keysIn ((personEntries (Value.field? "people" fields)).1.map PersonEntry.id).reduceOption).Nodup
    rw [List.reduceOption, List.filterMap_map]
    exact hgiven
  | tag => exact nodup_keysIn_declared hnames hgiven
  | relation =>
    show (keysIn ((relations (Value.field? "relations" fields)).map explicitId?).reduceOption).Nodup
    rw [List.reduceOption, List.filterMap_map]
    exact hgiven

/-- The ids that are filled in differ from each other. -/
theorem distinct_filled (h : normal v = .ok n) (kind : IdKind) : DistinctKeys (kind.filled n) := by
  unfold filled
  rw [ids_eq h, filledIn_number]
  exact distinct_free _ _

/-- A given id that is the same as one that is filled in is a float. -/
theorem isFloat_of_same_filled (h : normal v = .ok n) {kind : IdKind} {id new : Value}
    (hid : id ∈ kind.given (ofValue v)) (hnew : new ∈ kind.filled n) (hsame : id.same new = true) :
    ∃ x, id = .float x := by
  unfold filled at hnew
  rw [ids_eq h, filledIn_number] at hnew
  exact isFloat_of_same hid hnew hsame

/-- Two ids in different places are the same only if a given float is the same as an id that is
filled in. -/
theorem exists_float_of_not_nodup (h : normal v = .ok n) {kind : IdKind}
    (hgiven : (keysIn (kind.given (ofValue v))).Nodup) (hdup : ¬ (keysIn (kind.ids n)).Nodup) :
    ∃ x, .float x ∈ kind.given (ofValue v) ∧ ∃ new ∈ kind.filled n, (Value.float x).same new = true := by
  by_contra hnone
  refine hdup ?_
  rw [ids_eq h]
  refine nodup_keysIn_number (nodup_places h hgiven) fun old hold new hnew => ?_
  rw [← ids_eq h] at hnew
  by_contra hsame
  rw [Bool.not_eq_false] at hsame
  have hmem := places_subset h kind hold
  obtain ⟨x, rfl⟩ := isFloat_of_same_filled h hmem hnew hsame
  exact hnone ⟨x, hmem, new, hnew, hsame⟩

end IdKind

/-! ## Requests -/

namespace Load

theorem request_duplicates (n : Config.Normal) : FailsWith (fun e => ∀ kind, e.duplicateOf? = some kind →
    ¬ (keysIn (kind.ids n)).Nodup) (request n) := by
  have hother : ∀ e : Fault, e.duplicateOf? = none → ∀ kind, e.duplicateOf? = some kind →
      ¬ (keysIn (kind.ids n)).Nodup := by
    intro e he kind hkind
    rw [he] at hkind
    cases hkind
  unfold request
  refine FailsWith.bind ?_ fun tags _ => FailsWith.bind ?_ fun people _ => ?_
  · refine failsWith_tags (fun _ _ _ => hother _ rfl) fun t _ hdup => ⟨fun _ => hother _ rfl, ?_⟩
    rintro shown kind ⟨⟩
    exact hdup
  · refine failsWith_people (fun e _ => hother e) (fun _ _ _ => hother _ rfl)
      (fun p _ hdup => ⟨fun _ => hother _ rfl, ?_⟩) fun _ _ _ _ => tagKey_duplicates hother _ _
    rintro shown kind ⟨⟩
    exact hdup
  · dsimp only
    split
    · exact .error (hother _ rfl)
    · refine FailsWith.bind ?_ fun unfit _ => FailsWith.bind ?_ fun found _ => FailsWith.bind ?_ fun teams _ =>
        .ok _
      · intro e he
        obtain ⟨f, -, rfl⟩ := liftText_eq_error_iff.1 he
        exact hother _ rfl
      · apply relationsFrom_duplicates hother
        rintro hdup shown kind ⟨⟩
        exact hdup
      · exact failsWith_teamCount (fun e _ => hother e) fun _ => hother _ rfl

/-- A request has the ids of its normal form. -/
theorem ofRequest_eq {n : Config.Normal} {r : Request} (h : request n = .ok r) (kind : IdKind) :
    kind.ofRequest r = kind.ids n := by
  obtain ⟨tags, people, unfit, relations, warnings, teams, htags, hpeople, -, -, hrelations, -, rfl⟩ :=
    request_eq_ok_iff.1 h
  cases kind with
  | person =>
    obtain ⟨-, -, hall⟩ := people_eq_ok_iff.1 hpeople
    exact (ids_names_of_isPerson hall).1
  | tag =>
    obtain ⟨-, rfl⟩ := tags_eq_ok_iff.1 htags
    show (n.tags.map _).map Tag.id = _
    rw [List.map_map]
    rfl
  | relation => exact map_id_of_relationsFrom hrelations

end Load

namespace Request

/-- **Ids that are filled in are new, but for floats.** Let the ids of a kind that a document gives be
different. Those that are filled in differ from each other, and from each given one that is no float; a
request that loads has these ids in their places. Two of them are reported as duplicates only if a given
float is the same as an id that is filled in. -/
theorem filled_ids_new (v : Value) (kind : IdKind)
    (hgiven : (keysIn (kind.given (Config.ofValue v))).Nodup) :
    (∀ n, Config.normal v = .ok n → DistinctKeys (kind.filled n) ∧
      ∀ id ∈ kind.given (Config.ofValue v), ∀ new ∈ kind.filled n, id.same new = true →
        ∃ x, id = .float x) ∧
    (∀ r, Request.load v = .ok r → ∃ n, Config.normal v = .ok n ∧ kind.ofRequest r = kind.ids n) ∧
    ∀ e, Request.load v = .error e → e.duplicateOf? = some kind → ∃ n x, Config.normal v = .ok n ∧
      .float x ∈ kind.given (Config.ofValue v) ∧
      ∃ new ∈ kind.filled n, (Value.float x).same new = true := by
  refine ⟨fun n hn => ⟨IdKind.distinct_filled hn kind, fun id hid new hnew hsame => ?_⟩, fun r hr => ?_,
    fun e he hkind => ?_⟩
  · exact IdKind.isFloat_of_same_filled hn hid hnew hsame
  · obtain ⟨n, hn, hr⟩ := bind_eq_ok_iff.1 hr
    exact ⟨n, hn, Load.ofRequest_eq hr kind⟩
  · rcases bind_eq_error_iff.1 he with he | ⟨n, hn, he⟩
    · rcases Config.normal_fails v e he with ⟨rfl, -⟩ | ⟨rfl, -⟩ <;> cases hkind
    · obtain ⟨x, hx, hsame⟩ :=
        IdKind.exists_float_of_not_nodup hn hgiven (Load.request_duplicates n e he kind hkind)
      exact ⟨n, x, hn, hx, hsame⟩

/-- Ids of people, tags and relations of which some are given; the id 9 is that of a tag that nobody
carries. -/
def numberedDocument : Value :=
  .map [(.str "people", .list [.map [(.str "id", .int (-3)), (.str "name", .str "Ann")], .str "Bob",
      .map [(.str "id", .bool true), (.str "name", .str "Cy"), (.str "tags", .list [.str "tall", .str "new"])],
      .map [(.str "id", .str "2"), (.str "name", .str "Di")], .str "Eve"]),
    (.str "tags", .list [.map [(.str "id", .int 9), (.str "name", .str "left")],
      .map [(.str "id", .int (-1)), (.str "name", .str "new")]]),
    (.str "relations", .list [.str "@Ann", .map [(.str "id", .int 7), (.str "text", .str "@Bob")],
      .map [(.str "id", .null), (.str "text", .str "@tall")]])]

def numbered : Request where
  people := [⟨.int (-3), .str "Ann", []⟩, ⟨.int 2, .str "Bob", []⟩, ⟨.bool true, .str "Cy", [.int 10, .int (-1)]⟩,
    ⟨.str "2", .str "Di", []⟩, ⟨.int 3, .str "Eve", []⟩]
  tags := [⟨.int 10, .str "tall"⟩, ⟨.int (-1), .str "new"⟩]
  relations := [⟨.int 8, [.ref (.person (.int (-3)))], .int 1⟩, ⟨.int 7, [.ref (.person (.int 2))], .int 1⟩,
    ⟨.int 9, [.ref (.tag (.int 10))], .int 1⟩]
  teamCount := .int 2

theorem load_numbered : Request.load numberedDocument = .ok numbered := by with_unfolding_all rfl

theorem filled_ids_new_numbered : Request.load numberedDocument = .ok numbered ∧ ∀ kind : IdKind,
    (keysIn (kind.given (Config.ofValue numberedDocument))).Nodup ∧
    ∃ n, Config.normal numberedDocument = .ok n ∧ kind.ofRequest numbered = kind.ids n ∧
      DistinctKeys (kind.filled n) := by
  refine ⟨load_numbered, fun kind => ?_⟩
  have hgiven : (keysIn (kind.given (Config.ofValue numberedDocument))).Nodup := by
    cases kind <;> decide +kernel
  obtain ⟨hnormal, hload, -⟩ := filled_ids_new numberedDocument kind hgiven
  obtain ⟨n, hn, hids⟩ := hload _ load_numbered
  exact ⟨hgiven, n, hn, hids, (hnormal n hn).1⟩

/-- A document in which an id is the float 1.0, and 1 is the first id of that kind that is filled in. -/
def floatDocument : IdKind → Value
  | .person => .map [(.str "people", .list [.map [(.str "id", .int 0), (.str "name", .str "Ann")],
      .map [(.str "id", one), (.str "name", .str "Bob")], .str "Cy"])]
  | .tag => .map [(.str "people",
      .list [.map [(.str "name", .str "Ann"), (.str "tags", .list [.str "tall", .str "left", .str "new"])]]),
    (.str "tags", .list [.map [(.str "id", .int 0), (.str "name", .str "tall")],
      .map [(.str "id", one), (.str "name", .str "left")]])]
  | .relation => .map [(.str "people", .list [.str "Ann"]),
    (.str "relations", .list [.map [(.str "id", one), (.str "text", .str "@Ann")], .str "@Ann"])]
where
  one : Value := .float (.fin false 4503599627370496 (-52))

/-- An outcome can be compared with a fault. -/
instance decidableEqError {α : Type} (e : Fault) : (x : Except Fault α) → Decidable (x = .error e)
  | .ok _ => isFalse nofun
  | .error f => decidable_of_iff (f = e) (by rw [Except.error.injEq])

/-- Ids that are given are different, but 1.0 is the same as 1. -/
theorem duplicates_of_floats : (∀ kind other : IdKind,
      (keysIn (other.given (Config.ofValue (floatDocument kind)))).Nodup) ∧
    Request.load (floatDocument .person) = .error (.input (.duplicatePerson "1")) ∧
    Request.load (floatDocument .tag) = .error (.input (.duplicateTag "1")) ∧
    Request.load (floatDocument .relation) = .error (.input (.duplicateRelation "1")) := by
  refine ⟨fun kind other => ?_, ?_⟩
  · cases kind <;> cases other <;> decide +kernel
  · decide +kernel

end Request
end BalancedTeams
