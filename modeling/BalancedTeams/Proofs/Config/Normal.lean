import BalancedTeams.Config.Normalize
import BalancedTeams.Proofs.Model.Checks
import Mathlib.Data.List.DropRight

/-!
# What the normal form guarantees

* `Text.IsTidy` : a name as it is kept, stripped and not empty;
* `Config.normal_eq_ok_iff` : the parts of a normal form;
* `Config.tidy_of_normal`, `Config.nodup_tags_of_normal`, `Config.mem_tags_of_normal` : names are tidy,
  no two tags have one name, and the tags are those that people carry;
* `Config.field?_of_migrate` : the fields that migration leaves alone;
* `Config.OneMore` : a configuration with one more relation that is the same otherwise;
* `Config.addRelation`, `Config.normal_addRelation` : one more relation in a document is one more in
  its normal form, and changes nothing else there.
-/

namespace BalancedTeams

/-! ## Stripped texts -/

namespace Text

/-- Not empty, and without blanks at its ends. -/
def IsTidy (t : Text) : Prop := t ≠ [] ∧ t.strip = t

theorem trimBy_eq_rdropWhile {α : Type} (p : α → Bool) (cs : List α) :
    trimBy p cs = (cs.dropWhile p).rdropWhile p := rfl

theorem trimBy_trimBy {α : Type} (p : α → Bool) (cs : List α) : trimBy p (trimBy p cs) = trimBy p cs := by
  have hfront : (trimBy p cs).dropWhile p = trimBy p cs := by
    rw [trimBy_eq_rdropWhile]
    have hprefix := List.rdropWhile_prefix p (cs.dropWhile p)
    cases htrim : (cs.dropWhile p).rdropWhile p with
    | nil => rfl
    | cons c rest =>
      rw [htrim] at hprefix
      obtain ⟨tail, htail⟩ := hprefix
      have hhead := List.head?_dropWhile_not p cs
      rw [← htail, List.cons_append, List.head?_cons] at hhead
      exact List.dropWhile_cons_of_neg (by simpa using hhead)
  rw [trimBy_eq_rdropWhile p (trimBy p cs), hfront, trimBy_eq_rdropWhile, List.rdropWhile_idempotent]

theorem strip_strip (t : Text) : t.strip.strip = t.strip := trimBy_trimBy isBlank t

end Text

namespace Config

theorem isTidy_of_nameOf? {v : Value} {name : Text} (h : nameOf? v = some name) : name.IsTidy := by
  unfold nameOf? at h
  split at h
  · split at h
    · cases h
    · next hne =>
      cases h
      exact ⟨by simpa using hne, Text.strip_strip _⟩
  · cases h

/-! ## Names without repetition -/

theorem mem_addNew {names : List Text} {n name : Text} :
    n ∈ addNew names name ↔ n ∈ names ∨ n = name := by
  unfold addNew
  split
  · next hmem =>
    rw [List.contains_iff_mem] at hmem
    refine ⟨Or.inl, ?_⟩
    rintro (h | rfl)
    · exact h
    · exact hmem
  · rw [List.mem_append, List.mem_singleton]

theorem nodup_addNew {names : List Text} (h : names.Nodup) (name : Text) : (addNew names name).Nodup := by
  unfold addNew
  split
  · exact h
  · next hmem =>
    rw [List.contains_iff_mem] at hmem
    apply List.nodup_append'.2
    refine ⟨h, List.nodup_singleton name, ?_⟩
    intro n hn hname
    rw [List.mem_singleton] at hname
    subst hname
    exact hmem hn

theorem mem_foldl_addNew {names seen : List Text} {n : Text} :
    n ∈ names.foldl addNew seen ↔ n ∈ seen ∨ n ∈ names := by
  induction names generalizing seen with
  | nil => simp
  | cons name names ih => rw [List.foldl_cons, ih, mem_addNew, List.mem_cons, or_assoc]

theorem nodup_foldl_addNew {names seen : List Text} (h : seen.Nodup) : (names.foldl addNew seen).Nodup := by
  induction names generalizing seen with
  | nil => exact h
  | cons name names ih => exact ih (nodup_addNew h name)

/-! ## People -/

theorem isTidy_of_mem_tagNames {v : Option Value} {name : Text} (h : name ∈ (tagNames v).1) :
    name.IsTidy := by
  unfold tagNames at h
  split at h
  · cases h
  · cases h
  · rcases mem_foldl_addNew.1 h with h | h
    · cases h
    · obtain ⟨item, -, hitem⟩ := List.mem_filterMap.1 h
      exact isTidy_of_nameOf? hitem
  · cases h

theorem tidy_of_entry {v : Value} {e : PersonEntry} {ok : Bool}
    (h : personEntry? v = some (e, ok)) : e.name.IsTidy ∧ ∀ t ∈ e.tags, t.IsTidy := by
  unfold personEntry? at h
  simp only [Option.bind_eq_bind, Option.bind_eq_some_iff] at h
  obtain ⟨fields, -, name, ⟨w, -, hname⟩, h⟩ := h
  cases h
  exact ⟨isTidy_of_nameOf? hname, fun t ht => isTidy_of_mem_tagNames ht⟩

theorem exists_personEntry?_of_mem {v : Option Value} {e : PersonEntry} (h : e ∈ (personEntries v).1) :
    ∃ item ok, personEntry? item = some (e, ok) := by
  unfold personEntries at h
  split at h
  · cases h
  · cases h
  · obtain ⟨found, hfound, he⟩ := List.mem_filterMap.1 h
    obtain ⟨⟨e', ok⟩, rfl, rfl⟩ := Option.map_eq_some_iff.1 he
    obtain ⟨item, -, hitem⟩ := List.mem_map.1 hfound
    exact ⟨item, ok, hitem⟩
  · cases h

/-- Names and tags stay as they are when ids are filled in, and so do ids that are given; the others
are integers. -/
theorem exists_of_mem_fillIds {entries : List PersonEntry} {next : Int} {p : NormalPerson}
    (h : p ∈ fillIds next entries) :
    ∃ e ∈ entries, p.name = e.name ∧ p.tags = e.tags ∧
      (e.id = some p.id ∨ ∃ n : Int, p.id = .int n) := by
  induction entries generalizing next with
  | nil => cases h
  | cons e entries ih =>
    have hlater : ∀ {next : Int}, p ∈ fillIds next entries → ∃ e' ∈ e :: entries, p.name = e'.name ∧
        p.tags = e'.tags ∧ (e'.id = some p.id ∨ ∃ n : Int, p.id = .int n) := by
      intro next hmem
      obtain ⟨e', he', hsame⟩ := ih hmem
      exact ⟨e', List.mem_cons_of_mem _ he', hsame⟩
    unfold fillIds at h
    split at h
    · next id hid =>
      rcases List.mem_cons.1 h with rfl | h
      · exact ⟨e, List.mem_cons_self, rfl, rfl, Or.inl hid⟩
      · exact hlater h
    · rcases List.mem_cons.1 h with rfl | h
      · exact ⟨e, List.mem_cons_self, rfl, rfl, Or.inr ⟨next, rfl⟩⟩
      · exact hlater h

/-! ## Tags -/

theorem map_name_numberTags (declared : List NormalTag) (next : Int) (names : List Text) :
    (numberTags declared next names).map NormalTag.name = names := by
  induction names generalizing next with
  | nil => rfl
  | cons name names ih =>
    unfold numberTags
    split <;> rw [List.map_cons, ih]

theorem mem_usedTags {people : List NormalPerson} {name : Text} :
    name ∈ usedTags people ↔ ∃ p ∈ people, name ∈ p.tags := by
  unfold usedTags
  rw [mem_foldl_addNew, List.mem_flatMap]
  simp

theorem map_name_tags (declared : List NormalTag) (people : List NormalPerson) :
    (tags declared people).map NormalTag.name = usedTags people := map_name_numberTags ..

/-! ## Normal forms -/

variable {v : Value} {n : Normal}

theorem normal_eq_ok_iff : normal v = .ok n ↔ ∃ fields s, migrate (ofValue v) = .ok fields ∧
    settings (Value.field? "solver" fields) = .ok s ∧ n =
      { fields
        teamCount := (Value.field? "num_teams" fields).getD defaultTeams
        people := withIds (personEntries (Value.field? "people" fields)).1
        tags := tags (declaredTags (Value.field? "tags" fields))
          (withIds (personEntries (Value.field? "people" fields)).1)
        relations := relations (Value.field? "relations" fields)
        settings := s
        wellFormed := (personEntries (Value.field? "people" fields)).2 } := by
  unfold normal
  simp only [bind_eq_ok_iff, liftNumber_eq_ok_iff]
  constructor
  · rintro ⟨fields, hfields, s, hs, h⟩
    cases h
    exact ⟨fields, s, hfields, hs, rfl⟩
  · rintro ⟨fields, s, hfields, hs, rfl⟩
    exact ⟨fields, hfields, s, hs, rfl⟩

theorem tidy_of_normal (h : normal v = .ok n) :
    ∀ p ∈ n.people, p.name.IsTidy ∧ ∀ t ∈ p.tags, t.IsTidy := by
  obtain ⟨fields, s, -, -, rfl⟩ := normal_eq_ok_iff.1 h
  intro p hp
  obtain ⟨e, he, hname, htags, -⟩ := exists_of_mem_fillIds hp
  obtain ⟨item, ok, hitem⟩ := exists_personEntry?_of_mem he
  rw [hname, htags]
  exact tidy_of_entry hitem

theorem nodup_tags_of_normal (h : normal v = .ok n) : (n.tags.map NormalTag.name).Nodup := by
  obtain ⟨fields, s, -, -, rfl⟩ := normal_eq_ok_iff.1 h
  rw [map_name_tags]
  exact nodup_foldl_addNew List.nodup_nil

/-- The names of the tags are those that somebody carries. -/
theorem mem_tags_of_normal (h : normal v = .ok n) {name : Text} :
    name ∈ n.tags.map NormalTag.name ↔ ∃ p ∈ n.people, name ∈ p.tags := by
  obtain ⟨fields, s, -, -, rfl⟩ := normal_eq_ok_iff.1 h
  rw [map_name_tags]
  exact mem_usedTags

end Config

/-! ## One more relation -/

namespace Value

theorem hasField_eq (name : Text) (fields : List (Scalar × Value)) :
    hasField name fields = (field? name fields).isSome := by
  unfold hasField field?
  rw [Option.isSome_map, List.isSome_find?]

theorem field?_eraseField_self (name : Text) (fields : List (Scalar × Value)) :
    field? name (eraseField name fields) = none := by
  unfold field? eraseField
  rw [List.find?_filter]
  simp

theorem field?_eraseField_of_ne {name other : Text} (h : other ≠ name) (fields : List (Scalar × Value)) :
    field? other (eraseField name fields) = field? other fields := by
  unfold field? eraseField
  rw [List.find?_filter]
  congr 2
  funext f
  by_cases hf : f.1 = .str other
  · simp [hf, h]
  · simp [hf]

end Value

namespace Config

/-- The second configuration has one more relation, and is the same otherwise. -/
structure OneMore (item : Value) (cfg cfg' : Config) : Prop where
  beside : ∀ name : Text, name ≠ "relations" → Value.field? name cfg' = Value.field? name cfg
  relations_eq : relations (Value.field? "relations" cfg') =
    relations (Value.field? "relations" cfg) ++ [item]

def fullRelations (cfg : Config) : Config :=
  match Value.field? "relations" cfg with
  | some (.list items) => Value.setField "relations" (.list (items.map fullRelation)) cfg
  | _ => cfg

def renamedTeams (cfg : Config) : Config :=
  if Value.hasField "num_teams" cfg then cfg
  else match Value.field? "teams" cfg with
    | some n => Value.setField "num_teams" n (Value.eraseField "teams" cfg)
    | none => cfg

theorem fromVersion0_eq (cfg : Config) : fromVersion0 cfg = renamedTeams (fullRelations cfg) := rfl

theorem field?_fullRelations_of_ne {name : Text} (h : name ≠ "relations") (cfg : Config) :
    Value.field? name (fullRelations cfg) = Value.field? name cfg := by
  unfold fullRelations
  split
  · exact Value.field?_setField_of_ne h _ cfg
  · rfl

theorem relations_fullRelations (cfg : Config) : relations (Value.field? "relations" (fullRelations cfg)) =
    (relations (Value.field? "relations" cfg)).map fullRelation := by
  unfold fullRelations
  split
  · next items hitems =>
    rw [Value.field?_setField_self, hitems]
    rfl
  · next hother =>
    unfold relations
    split
    · next items hitems => exact absurd hitems (hother items)
    · rfl

theorem field?_renamedTeams_of_ne {name : Text} (hcount : name ≠ "num_teams") (hteams : name ≠ "teams")
    (cfg : Config) : Value.field? name (renamedTeams cfg) = Value.field? name cfg := by
  unfold renamedTeams
  split
  · rfl
  · split
    · rw [Value.field?_setField_of_ne hcount, Value.field?_eraseField_of_ne hteams]
    · rfl

/-- Migration is about four fields. -/
theorem field?_of_migrate {cfg fields : Config} (h : migrate cfg = .ok fields) {name : Text}
    (hname : name ∉ (["schema_version", "relations", "num_teams", "teams"] : List Text)) :
    Value.field? name fields = Value.field? name cfg := by
  simp only [List.mem_cons, List.not_mem_nil, or_false, not_or] at hname
  obtain ⟨hversion, hrelations, hcount, hteams⟩ := hname
  obtain ⟨v, -, h⟩ := bind_eq_ok_iff.1 h
  dsimp only at h
  split at h
  · cases h
    exact Value.field?_setField_of_ne hversion _ _
  · cases h
    rw [Value.field?_setField_of_ne hversion]
    split
    · rw [fromVersion0_eq, field?_renamedTeams_of_ne hcount hteams, field?_fullRelations_of_ne hrelations]
    · rfl

namespace OneMore
variable {item : Value} {cfg cfg' : Config}

/-- A change of one other field, to the same in both, keeps the additional relation. -/
theorem change (h : OneMore item cfg cfg') {name : Text} (hname : name ≠ "relations")
    {op : Config → Config} (hself : Value.field? name (op cfg') = Value.field? name (op cfg))
    (hbeside : ∀ c {other : Text}, other ≠ name → Value.field? other (op c) = Value.field? other c) :
    OneMore item (op cfg) (op cfg') where
  beside := by
    intro other hother
    by_cases hsame : other = name
    · subst hsame
      exact hself
    · rw [hbeside cfg' hsame, hbeside cfg hsame, h.beside other hother]
  relations_eq := by rw [hbeside cfg' hname.symm, hbeside cfg hname.symm, h.relations_eq]

theorem setField (h : OneMore item cfg cfg') {name : Text} (hname : name ≠ "relations") (w : Value) :
    OneMore item (Value.setField name w cfg) (Value.setField name w cfg') := by
  apply h.change hname
  · rw [Value.field?_setField_self, Value.field?_setField_self]
  · exact fun c _ hother => Value.field?_setField_of_ne hother w c

theorem eraseField (h : OneMore item cfg cfg') {name : Text} (hname : name ≠ "relations") :
    OneMore item (Value.eraseField name cfg) (Value.eraseField name cfg') := by
  apply h.change hname
  · rw [Value.field?_eraseField_self, Value.field?_eraseField_self]
  · exact fun c _ hother => Value.field?_eraseField_of_ne hother c

theorem fullRelations (h : OneMore item cfg cfg') (hitem : fullRelation item = item) :
    OneMore item (fullRelations cfg) (Config.fullRelations cfg') where
  beside := by
    intro name hname
    rw [field?_fullRelations_of_ne hname, field?_fullRelations_of_ne hname, h.beside name hname]
  relations_eq := by
    rw [relations_fullRelations, relations_fullRelations, h.relations_eq, List.map_append, List.map_cons,
      List.map_nil, hitem]

theorem renamedTeams (h : OneMore item cfg cfg') :
    OneMore item (renamedTeams cfg) (Config.renamedTeams cfg') := by
  have hcount : Value.hasField "num_teams" cfg' = Value.hasField "num_teams" cfg := by
    rw [Value.hasField_eq, Value.hasField_eq, h.beside "num_teams" (by decide)]
  have hteams : Value.field? "teams" cfg' = Value.field? "teams" cfg := h.beside "teams" (by decide)
  unfold Config.renamedTeams
  rw [hcount, hteams]
  split
  · exact h
  · split
    · exact (h.eraseField (by decide)).setField (by decide) _
    · exact h

theorem migrate (h : OneMore item cfg cfg') (hitem : Config.fullRelation item = item) {fields : Config}
    (hfields : migrate cfg = .ok fields) :
    ∃ fields', Config.migrate cfg' = .ok fields' ∧ OneMore item fields fields' := by
  have hversion : version cfg' = version cfg := by
    unfold version
    rw [h.beside "schema_version" (by decide)]
  have hset : ∀ {c c' : Config}, OneMore item c c' → ∀ w,
      OneMore item (Value.setField "schema_version" w c) (Value.setField "schema_version" w c') :=
    fun hc w => hc.setField (by decide) w
  unfold Config.migrate at hfields ⊢
  rw [hversion]
  obtain ⟨v, hv, hfields⟩ := bind_eq_ok_iff.1 hfields
  rw [hv, ok_bind]
  split at hfields
  · next hlater =>
    cases hfields
    rw [if_pos hlater]
    exact ⟨_, rfl, hset h _⟩
  · next hlater =>
    cases hfields
    rw [if_neg hlater]
    refine ⟨_, rfl, hset ?_ _⟩
    split
    · rw [fromVersion0_eq, fromVersion0_eq]
      exact (h.fullRelations hitem).renamedTeams
    · exact h

end OneMore

def relationEntry (id text : Text) : Value := .map [(.str "id", .str id), (.str "text", .str text)]

/-- The document with one more relation at the end; what is no list of relations counts as empty. -/
def addRelation (id text : Text) (v : Value) : Value :=
  .map (Value.setField "relations"
    (.list (relations (Value.field? "relations" (ofValue v)) ++ [relationEntry id text])) (ofValue v))

theorem oneMore_addRelation (id text : Text) (v : Value) :
    OneMore (relationEntry id text) (ofValue v) (ofValue (addRelation id text v)) where
  beside := fun _ hname => Value.field?_setField_of_ne hname _ _
  relations_eq := by
    show relations (Value.field? "relations" (Value.setField "relations" _ (ofValue v))) = _
    rw [Value.field?_setField_self]
    rfl

/-- **One more relation in a document is one more in its normal form**, which stays the same otherwise. -/
theorem normal_addRelation (id text : Text) {v : Value} {n : Normal} (h : normal v = .ok n) :
    ∃ fields, normal (addRelation id text v) =
      .ok { n with fields, relations := n.relations ++ [relationEntry id text] } := by
  obtain ⟨fields, s, hfields, hs, rfl⟩ := normal_eq_ok_iff.1 h
  obtain ⟨fields', hfields', hmore⟩ := (oneMore_addRelation id text v).migrate rfl hfields
  refine ⟨fields', normal_eq_ok_iff.2 ⟨fields', s, hfields', ?_, ?_⟩⟩
  · rw [hmore.beside "solver" (by decide)]
    exact hs
  · rw [hmore.beside "num_teams" (by decide), hmore.beside "people" (by decide),
      hmore.beside "tags" (by decide), hmore.relations_eq]

end Config
end BalancedTeams
