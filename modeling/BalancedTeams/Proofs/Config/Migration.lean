import BalancedTeams.Proofs.Config.Numbering

/-!
# Documents of version 0

* `Config.IsVersion0` : a configuration as it may have been written before version 1, with bare texts for
  relations of priority 1, with the team count under its former name, and with no version that counts;
* `Load.Alike`, `Load.relation_of_alike` : entries that are read as the same relation;
* `Config.isVersion0_withEntries`, `Config.isVersion0_formerTeams` : ways to write one;
* `Config.normal_of_isVersion0` : migration restores all of the normal form but what the entries for
  relations look like;
* `Request.load_of_isVersion0` : it loads as it does in its present form.
-/

namespace BalancedTeams

/-! ## Former configurations -/

namespace Config

/-- No version, one below 1, or one that cannot be read. -/
inductive IsOldVersion : Option Value → Prop
  | missing : IsOldVersion none
  | below {v : Value} {n : Int} (h : v.toInt = .ok n) (hn : n < 1) : IsOldVersion (some v)
  | unreadable {v : Value} {e : NumberFault} (h : v.toInt = .error e) (he : e ≠ .outOfRange) :
    IsOldVersion (some v)

/-- What an entry for a relation may have been before: the same, or a bare text, if the entry is of
priority 1 and gives no id. -/
inductive IsFormerEntry : Value → Value → Prop
  | same (v : Value) : IsFormerEntry v v
  | bare {fields : Config} {t : Text} (htext : Value.field? "text" fields = some (.str t))
      (hid : given? (Value.field? "id" fields) = none)
      (hpriority : Load.priority 0 (Value.field? "priority" fields) = .ok 1) :
    IsFormerEntry (.str t) (.map fields)

/-- The first configuration is what the second one may have been in version 0. -/
structure IsVersion0 (old cfg : Config) : Prop where
  version : IsOldVersion (Value.field? "schema_version" old)
  relations : List.Forall₂ IsFormerEntry (relations (Value.field? "relations" old))
    (relations (Value.field? "relations" cfg))
  teamCount : Value.field? "num_teams" old = Value.field? "num_teams" cfg ∧
      Value.field? "teams" old = Value.field? "teams" cfg ∨
    Value.field? "num_teams" old = none ∧ Value.field? "teams" old = Value.field? "num_teams" cfg
  beside : ∀ name : Text, name ∉ (["schema_version", "relations", "num_teams", "teams"] : List Text) →
    Value.field? name old = Value.field? name cfg

/-! ## Going back -/

def withVersion : Option Value → Config → Config
  | none, cfg => Value.eraseField "schema_version" cfg
  | some v, cfg => Value.setField "schema_version" v cfg

def formerTeams (cfg : Config) : Config :=
  match Value.field? "num_teams" cfg with
  | some n => Value.setField "teams" n (Value.eraseField "num_teams" cfg)
  | none => cfg

def withEntries (items : List Value) (cfg : Config) : Config :=
  match Value.field? "relations" cfg with
  | some (.list _) => Value.setField "relations" (.list items) cfg
  | _ => cfg

theorem field?_withVersion_self (given : Option Value) (cfg : Config) :
    Value.field? "schema_version" (withVersion given cfg) = given := by
  cases given with
  | none => exact Value.field?_eraseField_self _ _
  | some v => exact Value.field?_setField_self _ _ _

theorem field?_withVersion_of_ne {name : Text} (h : name ≠ "schema_version") (given : Option Value)
    (cfg : Config) : Value.field? name (withVersion given cfg) = Value.field? name cfg := by
  cases given with
  | none => exact Value.field?_eraseField_of_ne h _
  | some v => exact Value.field?_setField_of_ne h _ _

theorem field?_formerTeams_of_ne {name : Text} (hcount : name ≠ "num_teams") (hteams : name ≠ "teams")
    (cfg : Config) : Value.field? name (formerTeams cfg) = Value.field? name cfg := by
  unfold formerTeams
  split
  · rw [Value.field?_setField_of_ne hteams, Value.field?_eraseField_of_ne hcount]
  · rfl

theorem field?_withEntries_of_ne {name : Text} (h : name ≠ "relations") (items : List Value) (cfg : Config) :
    Value.field? name (withEntries items cfg) = Value.field? name cfg := by
  unfold withEntries
  split
  · exact Value.field?_setField_of_ne h _ _
  · rfl

theorem relations_withEntries {items : List Value} {cfg : Config} {R : Value → Value → Prop}
    (h : List.Forall₂ R items (relations (Value.field? "relations" cfg))) :
    relations (Value.field? "relations" (withEntries items cfg)) = items := by
  unfold withEntries
  split
  · rw [Value.field?_setField_self]
    rfl
  · next hother =>
    have hnone : relations (Value.field? "relations" cfg) = [] := by
      unfold relations
      split
      · next old hold => exact absurd hold (hother old)
      · rfl
    rw [hnone] at h ⊢
    cases h
    rfl

/-- Former entries and a version that does not count give a form that the configuration may have had. -/
theorem isVersion0_withEntries {given : Option Value} {items : List Value} {cfg : Config}
    (hgiven : IsOldVersion given)
    (hitems : List.Forall₂ IsFormerEntry items (relations (Value.field? "relations" cfg))) :
    IsVersion0 (withVersion given (withEntries items cfg)) cfg := by
  refine ⟨?_, ?_, Or.inl ⟨?_, ?_⟩, fun name hname => ?_⟩
  · rwa [field?_withVersion_self]
  · rwa [field?_withVersion_of_ne (by decide), relations_withEntries hitems]
  · rw [field?_withVersion_of_ne (by decide), field?_withEntries_of_ne (by decide)]
  · rw [field?_withVersion_of_ne (by decide), field?_withEntries_of_ne (by decide)]
  · simp only [List.mem_cons, List.not_mem_nil, or_false, not_or] at hname
    obtain ⟨hversion, hrelations, -, -⟩ := hname
    rw [field?_withVersion_of_ne hversion, field?_withEntries_of_ne hrelations]

theorem isVersion0_formerTeams {given : Option Value} {items : List Value} {cfg : Config}
    (hgiven : IsOldVersion given)
    (hitems : List.Forall₂ IsFormerEntry items (relations (Value.field? "relations" cfg)))
    (hcount : Value.hasField "num_teams" cfg = true) :
    IsVersion0 (withVersion given (formerTeams (withEntries items cfg))) cfg := by
  rw [Value.hasField_eq] at hcount
  obtain ⟨n, hn⟩ := Option.isSome_iff_exists.1 hcount
  have hteams : formerTeams (withEntries items cfg) =
      Value.setField "teams" n (Value.eraseField "num_teams" (withEntries items cfg)) := by
    unfold formerTeams
    rw [field?_withEntries_of_ne (by decide), hn]
  refine ⟨?_, ?_, Or.inr ⟨?_, ?_⟩, fun name hname => ?_⟩
  · rwa [field?_withVersion_self]
  · rwa [field?_withVersion_of_ne (by decide), field?_formerTeams_of_ne (by decide) (by decide),
      relations_withEntries hitems]
  · rw [field?_withVersion_of_ne (by decide), hteams, Value.field?_setField_of_ne (by decide),
      Value.field?_eraseField_self]
  · rw [field?_withVersion_of_ne (by decide), hteams, Value.field?_setField_self, hn]
  · simp only [List.mem_cons, List.not_mem_nil, or_false, not_or] at hname
    obtain ⟨hversion, hrelations, hnum, hteams⟩ := hname
    rw [field?_withVersion_of_ne hversion, field?_formerTeams_of_ne hnum hteams,
      field?_withEntries_of_ne hrelations]

/-! ## Migration -/

theorem exists_version {cfg : Config} (h : IsOldVersion (Value.field? "schema_version" cfg)) :
    ∃ n < 1, version cfg = .ok n := by
  unfold version
  cases hgiven : Value.field? "schema_version" cfg with
  | none => exact ⟨0, by decide, rfl⟩
  | some v =>
    rw [hgiven] at h
    rw [Option.getD_some]
    cases h with
    | below hn hlow =>
      rw [hn]
      exact ⟨_, hlow, rfl⟩
    | @unreadable _ e he hne =>
      rw [he]
      cases e with
      | outOfRange => exact absurd rfl hne
      | _ => exact ⟨0, by decide, rfl⟩

theorem migrate_of_old {cfg : Config} (h : IsOldVersion (Value.field? "schema_version" cfg)) :
    migrate cfg = .ok (Value.setField "schema_version" (.int currentVersion) (fromVersion0 cfg)) := by
  obtain ⟨n, hn, hversion⟩ := exists_version h
  have hnow : ¬ currentVersion < n := by
    unfold currentVersion
    omega
  unfold migrate
  rw [hversion, ok_bind, if_neg hnow]
  dsimp only
  rw [if_pos hn]
  rfl

theorem migrate_of_current {cfg : Config} (h : version cfg = .ok currentVersion) :
    migrate cfg = .ok (Value.setField "schema_version" (.int currentVersion) cfg) := by
  unfold migrate
  rw [h]
  rfl

theorem field?_teamCount_renamedTeams (cfg : Config) : Value.field? "num_teams" (renamedTeams cfg) =
    (Value.field? "num_teams" cfg).or (Value.field? "teams" cfg) := by
  unfold renamedTeams
  rw [Value.hasField_eq]
  cases hcount : Value.field? "num_teams" cfg with
  | some n => exact hcount
  | none =>
    rw [if_neg (by decide), Option.none_or]
    cases Value.field? "teams" cfg with
    | some n => exact Value.field?_setField_self _ _ _
    | none => exact hcount

theorem field?_teamCount_of_isVersion0 {old cfg : Config} (h : IsVersion0 old cfg)
    (hteams : Value.hasField "num_teams" cfg = true ∨ Value.hasField "teams" cfg = false) :
    Value.field? "num_teams" (fromVersion0 old) = Value.field? "num_teams" cfg := by
  rw [fromVersion0_eq, field?_teamCount_renamedTeams, field?_fullRelations_of_ne (by decide),
    field?_fullRelations_of_ne (by decide)]
  rw [Value.hasField_eq, Value.hasField_eq] at hteams
  rcases h.teamCount with ⟨hcount, hformer⟩ | ⟨hcount, hformer⟩
  · rw [hcount, hformer]
    rcases hteams with hsome | hnone
    · obtain ⟨n, hn⟩ := Option.isSome_iff_exists.1 hsome
      rw [hn, Option.some_or]
    · rw [Option.isSome_eq_false_iff, Option.isNone_iff_eq_none] at hnone
      rw [hnone, Option.or_none]
  · rw [hcount, hformer, Option.none_or]

theorem normal_of_fields {old cfg former fields : Config} {n : Normal} (hformer : migrate old = .ok former)
    (hfields : migrate cfg = .ok fields) (hn : normal (.map cfg) = .ok n)
    (hsame : ∀ name ∈ (["num_teams", "people", "tags", "solver"] : List Text),
      Value.field? name former = Value.field? name fields) :
    n.relations = relations (Value.field? "relations" fields) ∧ normal (.map old) = .ok
      { n with fields := former, relations := relations (Value.field? "relations" former) } := by
  obtain ⟨fields', s, hfields', hs, rfl⟩ := normal_eq_ok_iff.1 hn
  cases hfields.symm.trans hfields'
  simp only [List.forall_mem_cons, List.not_mem_nil, false_implies, implies_true, and_true] at hsame
  obtain ⟨hcount, hpeople, htags, hsolver⟩ := hsame
  refine ⟨rfl, normal_eq_ok_iff.2 ⟨former, s, hformer, by rw [hsolver, hs], ?_⟩⟩
  rw [hcount, hpeople, htags]

/-- Migration restores the normal form, but for what the entries for relations look like. -/
theorem normal_of_isVersion0 {old cfg : Config} {n : Normal} (h : IsVersion0 old cfg)
    (hversion : version cfg = .ok currentVersion)
    (hteams : Value.hasField "num_teams" cfg = true ∨ Value.hasField "teams" cfg = false)
    (hn : normal (.map cfg) = .ok n) : n.relations = relations (Value.field? "relations" cfg) ∧
    ∃ fields, normal (.map old) = .ok
      { n with fields, relations := (relations (Value.field? "relations" old)).map fullRelation } := by
  have hformer := migrate_of_old h.version
  have hpresent := migrate_of_current hversion
  have hbeside : ∀ name : Text, name ∉ (["schema_version", "relations", "num_teams", "teams"] : List Text) →
      Value.field? name (Value.setField "schema_version" (.int currentVersion) (fromVersion0 old)) =
        Value.field? name (Value.setField "schema_version" (.int currentVersion) cfg) := by
    intro name hname
    rw [field?_of_migrate hformer hname, field?_of_migrate hpresent hname, h.beside name hname]
  obtain ⟨hitems, hold⟩ := normal_of_fields hformer hpresent hn (by
    simp only [List.forall_mem_cons, List.not_mem_nil, false_implies, implies_true, and_true]
    refine ⟨?_, hbeside "people" (by decide), hbeside "tags" (by decide), hbeside "solver" (by decide)⟩
    rw [Value.field?_setField_of_ne (by decide), Value.field?_setField_of_ne (by decide)]
    exact field?_teamCount_of_isVersion0 h hteams)
  rw [Value.field?_setField_of_ne (by decide)] at hitems
  rw [Value.field?_setField_of_ne (by decide), fromVersion0_eq,
    field?_renamedTeams_of_ne (by decide) (by decide), relations_fullRelations] at hold
  exact ⟨hitems, _, hold⟩

end Config

/-! ## Entries that are read alike -/

namespace Load
open Config (IsFormerEntry explicitId? fullRelation)

/-- The place of a relation matters only to what is reported. -/
theorem priority_eq_ok {index : Nat} {given : Option Value} {n : Int} (h : priority index given = .ok n)
    (other : Nat) : priority other given = .ok n := by
  unfold priority at h ⊢
  split at h
  · cases h
  · dsimp only at h ⊢
    split at h
    · split at h
      · next hlow =>
        rw [if_pos hlow]
        exact h
      · exact absurd h refuse_ne_ok
    · exact absurd h refuse_ne_ok

/-- The same text, the same id if one is given, and the same priority. -/
structure Alike (fields fields' : Config) : Prop where
  text : Value.field? "text" fields = Value.field? "text" fields'
  id : Config.given? (Value.field? "id" fields) = Config.given? (Value.field? "id" fields')
  priority : ∀ index, priority index (Value.field? "priority" fields) =
    priority index (Value.field? "priority" fields')

variable {people : List Person} {tags : List Tag} {seen : List Key} {next : Int} {index : Nat}

theorem relation_of_alike {fields fields' : Config} (h : Alike fields fields') :
    relation people tags seen next index (.map fields) = relation people tags seen next index (.map fields') := by
  have htext : textOf index fields = textOf index fields' := by
    unfold textOf
    rw [h.text]
  have hid : relationId next fields = relationId next fields' := by
    unfold relationId
    rw [h.id]
  unfold relation
  dsimp only
  rw [htext, hid, h.priority]

theorem alike_fullRelation {old : Value} {fields : Config} (h : IsFormerEntry old (.map fields)) :
    ∃ former, fullRelation old = .map former ∧ Alike former fields := by
  cases h with
  | same => exact ⟨fields, rfl, rfl, rfl, fun _ => rfl⟩
  | bare htext hid hpriority =>
    refine ⟨_, rfl, htext.symm, hid.symm, fun index => ?_⟩
    rw [priority_eq_ok hpriority index]
    rfl

/-- Former entries are read as the relations that they are now. -/
theorem relationsFrom_of_former {olds items : List Value} (h : List.Forall₂ IsFormerEntry olds items)
    (hmaps : ∀ v ∈ items, ∃ fields, v = .map fields) :
    relationsFrom people tags seen next index (olds.map fullRelation) =
      relationsFrom people tags seen next index items := by
  induction h generalizing seen next index with
  | nil => rfl
  | cons hentry _ ih =>
    obtain ⟨⟨fields, rfl⟩, hrest⟩ := List.forall_mem_cons.1 hmaps
    obtain ⟨former, hformer, halike⟩ := alike_fullRelation hentry
    rw [List.map_cons, hformer, relationsFrom, relationsFrom, relation_of_alike halike]
    congr 1
    funext r
    rw [ih hrest]

theorem explicitId?_of_former {old v : Value} (h : IsFormerEntry old v) : explicitId? old = explicitId? v := by
  cases h with
  | same => rfl
  | bare _ hid => exact hid.symm

theorem relations_of_former {olds items : List Value} (h : List.Forall₂ IsFormerEntry olds items)
    (hmaps : ∀ v ∈ items, ∃ fields, v = .map fields) :
    relations people tags (olds.map fullRelation) = relations people tags items := by
  have hids : (olds.map fullRelation).filterMap explicitId? = items.filterMap explicitId? := by
    rw [List.filterMap_map]
    induction h with
    | nil => rfl
    | cons hentry _ ih =>
      rw [List.filterMap_cons, List.filterMap_cons, ih fun v hv => hmaps v (List.mem_cons_of_mem _ hv),
        Function.comp_apply, Config.explicitId?_fullRelation, explicitId?_of_former hentry]
  unfold relations
  rw [Config.nextId_givenIds, Config.nextId_givenIds, hids]
  exact relationsFrom_of_former h hmaps

end Load

/-! ## Requests -/

namespace Request
open Config

/-- **Migration keeps the meaning.** A configuration of the current version that loads also loads, as the
same request, in any form it may have had in version 0; if it has no team count, it must not have one
under the former name. -/
theorem load_of_isVersion0 {old cfg : Config} {r : Request} (hversion : version cfg = .ok currentVersion)
    (hteams : Value.hasField "num_teams" cfg = true ∨ Value.hasField "teams" cfg = false)
    (hload : Request.load (.map cfg) = .ok r) (h : IsVersion0 old cfg) :
    Request.load (.map old) = .ok r := by
  obtain ⟨n, hn, hload⟩ := bind_eq_ok_iff.1 hload
  obtain ⟨hitems, fields, hold⟩ := normal_of_isVersion0 h hversion hteams hn
  obtain ⟨tags, people, unfit, relations, warnings, teams, htags, hpeople, hsome, hunfit, hrelations,
    hcount, rfl⟩ := Load.request_eq_ok_iff.1 hload
  have hmaps : ∀ v ∈ n.relations, ∃ fields, v = .map fields := by
    intro v hv
    obtain ⟨rel, -, hread⟩ := exists_of_mem_right (Load.isRead_relations hrelations).2.flip hv
    obtain ⟨fields, -, -, hfields, -⟩ := hread
    exact ⟨fields, hfields⟩
  refine bind_eq_ok_iff.2 ⟨_, hold, Load.request_eq_ok_iff.2 ?_⟩
  refine ⟨tags, people, unfit, relations, warnings, teams, htags, hpeople, hsome, hunfit, ?_, hcount, rfl⟩
  rw [hitems] at hmaps hrelations
  rw [Load.relations_of_former h.relations hmaps]
  exact hrelations

/-- Ann and Bob in two teams, and three relations, the second of which gives an id. -/
def presentFields : Config :=
  [(.str "schema_version", .int 1), (.str "num_teams", .int 2), (.str "people", .list [.str "Ann", .str "Bob"]),
    (.str "relations", .list [.map [(.str "text", .str "@Ann"), (.str "priority", .int 1)],
      .map [(.str "id", .int 1), (.str "text", .str "@Bob")], .map [(.str "text", .str "NOT @Ann")]])]

/-- Entries that the relations may have had; the first and the last one are bare texts. -/
def formerEntries : List Value :=
  [.str "@Ann", .map [(.str "id", .int 1), (.str "text", .str "@Bob")], .str "NOT @Ann"]

/-- Without a version, and with one that cannot be read and the former name of the team count. -/
theorem load_of_isVersion0_present : version presentFields = .ok currentVersion ∧
    ∃ r, Request.load (.map presentFields) = .ok r ∧
      Request.load (.map (withVersion none (withEntries formerEntries presentFields))) = .ok r ∧
      Request.load (.map (withVersion (some (.str "draft"))
        (formerTeams (withEntries formerEntries presentFields)))) = .ok r := by
  obtain ⟨r, hr⟩ : ∃ r, Request.load (.map presentFields) = .ok r := ⟨_, by with_unfolding_all rfl⟩
  have hversion : version presentFields = .ok currentVersion := rfl
  have hentries : List.Forall₂ IsFormerEntry formerEntries
      (Config.relations (Value.field? "relations" presentFields)) :=
    .cons (.bare rfl rfl rfl) (.cons (.same _) (.cons (.bare rfl rfl rfl) .nil))
  refine ⟨hversion, r, hr, load_of_isVersion0 hversion (Or.inl rfl) hr ?_,
    load_of_isVersion0 hversion (Or.inl rfl) hr ?_⟩
  · exact isVersion0_withEntries .missing hentries
  · exact isVersion0_formerTeams (.unreadable (e := .notANumber) rfl nofun) hentries rfl

end Request
end BalancedTeams
