import BalancedTeams.Proofs.Config.Loading
import BalancedTeams.Proofs.Config.Normal

/-!
# A normal form is its own normal form

* `Config.Normal.Settled` : what holds of every normal form (`Config.settled_of_normal`): its version is
  current or later, names are tidy, no id is null, and the settings are in range;
* `Config.migrate_of_version`, `Config.personEntries_map`, `Config.Normal.tags_settled`,
  `Config.settings_toValue` : the parts of a settled form are read as they are;
* `Config.normal_toConfig` : the fields of a settled form have that form;
* `Config.normal_idempotent` : so a document and its normal form load alike, but for the warning about
  malformed people.
-/

namespace BalancedTeams

/-! ## Fields -/

namespace Value

theorem setField_of_field? {name : Text} {v : Value} {fields : List (Scalar × Value)}
    (h : field? name fields = some v) : setField name v fields = fields := by
  induction fields with
  | nil => cases h
  | cons f rest ih =>
    obtain ⟨k, old⟩ := f
    unfold setField
    by_cases hk : k = .str name
    · rw [if_pos hk]
      simp only [field?, hk, List.find?_cons, beq_self_eq_true, Option.map_some, Option.some.injEq] at h
      rw [hk, h]
    · rw [if_neg hk, ih]
      simpa [field?, List.find?_cons, hk] using h

end Value

namespace Config

/-! ## Versions -/

theorem version_of_field? {cfg : Config} {k : Int}
    (h : Value.field? "schema_version" cfg = some (.int k)) : version cfg = .ok k := by
  unfold version
  rw [h]
  rfl

/-- A configuration of the current version or a later one stays as it is. -/
theorem migrate_of_version {cfg : Config} {k : Int}
    (h : Value.field? "schema_version" cfg = some (.int k)) (hk : 1 ≤ k) : migrate cfg = .ok cfg := by
  unfold migrate
  rw [version_of_field? h, ok_bind]
  dsimp only
  split
  · rw [Value.setField_of_field? h]
    rfl
  · next hlater =>
    obtain rfl : k = currentVersion := by
      unfold currentVersion at hlater ⊢
      omega
    rw [if_neg (by decide), Value.setField_of_field? h]
    rfl

theorem exists_version_of_migrate {cfg fields : Config} (h : migrate cfg = .ok fields) :
    ∃ k : Int, 1 ≤ k ∧ Value.field? "schema_version" fields = some (.int k) := by
  obtain ⟨v, -, h⟩ := bind_eq_ok_iff.1 h
  dsimp only at h
  split at h
  · next hlater =>
    cases h
    refine ⟨v, ?_, Value.field?_setField_self _ _ _⟩
    unfold currentVersion at hlater
    omega
  · cases h
    exact ⟨currentVersion, Int.le_refl _, Value.field?_setField_self _ _ _⟩

/-! ## People -/

structure NormalPerson.Settled (p : NormalPerson) : Prop where
  name : p.name.IsTidy
  tags : ∀ t ∈ p.tags, t.IsTidy
  nodup : p.tags.Nodup
  id : p.id ≠ .null

theorem nodup_tagNames (v : Option Value) : (tagNames v).1.Nodup := by
  unfold tagNames
  split
  · exact List.nodup_nil
  · exact List.nodup_nil
  · exact nodup_foldl_addNew List.nodup_nil
  · exact List.nodup_nil

theorem given?_ne_null {v : Option Value} {id : Value} (h : given? v = some id) : id ≠ .null := by
  rintro rfl
  unfold given? at h
  split at h
  · cases h
  · next hnull => exact hnull h

theorem tags_id_of_personEntry? {v : Value} {e : PersonEntry} {ok : Bool}
    (h : personEntry? v = some (e, ok)) : e.tags.Nodup ∧ ∀ id, e.id = some id → id ≠ .null := by
  unfold personEntry? at h
  simp only [Option.bind_eq_bind, Option.bind_eq_some_iff] at h
  obtain ⟨fields, -, name, -, h⟩ := h
  cases h
  exact ⟨nodup_tagNames _, fun id hid => given?_ne_null hid⟩

theorem settled_of_mem_withIds {v : Option Value} {p : NormalPerson}
    (h : p ∈ withIds (personEntries v).1) : p.Settled := by
  obtain ⟨e, he, hname, htags, hid⟩ := exists_of_mem_fillIds h
  obtain ⟨item, ok, hitem⟩ := exists_personEntry?_of_mem he
  obtain ⟨hnodup, hgiven⟩ := tags_id_of_personEntry? hitem
  obtain ⟨htidy, htidytags⟩ := tidy_of_entry hitem
  refine ⟨hname ▸ htidy, htags ▸ htidytags, htags ▸ hnodup, ?_⟩
  rcases hid with hid | ⟨n, hn⟩
  · exact hgiven _ hid
  · rw [hn]
    nofun

theorem nameOf?_str {name : Text} (h : name.IsTidy) : nameOf? (.str name) = some name := by
  obtain ⟨hne, hstrip⟩ := h
  show (if name.strip.isEmpty then none else some name.strip) = some name
  rw [hstrip, if_neg (by simpa using hne)]

/-- Names that are all new are added one after the other. -/
theorem foldl_addNew_of_nodup {seen names : List Text} (h : (seen ++ names).Nodup) :
    names.foldl addNew seen = seen ++ names := by
  induction names generalizing seen with
  | nil => rw [List.foldl_nil, List.append_nil]
  | cons name names ih =>
    rw [List.append_cons] at h
    have hnew : name ∉ seen := by
      intro hmem
      have hfront := List.Nodup.of_append_left h
      rw [List.nodup_append'] at hfront
      exact hfront.2.2 hmem (List.mem_singleton_self _)
    have hadd : addNew seen name = seen ++ [name] := by
      unfold addNew
      rw [if_neg (by simpa using hnew)]
    rw [List.foldl_cons, hadd, ih h, ← List.append_cons]

theorem filterMap_nameOf?_str {names : List Text} (h : ∀ t ∈ names, t.IsTidy) :
    (names.map Value.str).filterMap nameOf? = names := by
  rw [List.filterMap_map, List.filterMap_congr (g := some)]
  · exact List.filterMap_some
  · exact fun t ht => nameOf?_str (h t ht)

theorem tagNames_map_str {names : List Text} (h : ∀ t ∈ names, t.IsTidy) (hnodup : names.Nodup) :
    tagNames (some (.list (names.map Value.str))) = (names, true) := by
  have hall : (names.map Value.str).all (fun v => (nameOf? v).isSome) = true := by
    rw [List.all_map, List.all_eq_true]
    intro t ht
    show (nameOf? (.str t)).isSome = true
    rw [nameOf?_str (h t ht)]
    rfl
  show (((names.map Value.str).filterMap nameOf?).foldl addNew [], (names.map Value.str).all _) = _
  rw [filterMap_nameOf?_str h, foldl_addNew_of_nodup (by simpa using hnodup), List.nil_append, hall]

theorem given?_some {id : Value} (h : id ≠ .null) : given? (some id) = some id := by
  unfold given?
  split
  · next hid => exact absurd (Option.some.inj hid) h
  · rfl

theorem personEntry?_toValue {p : NormalPerson} (h : p.Settled) :
    personEntry? p.toValue = some (⟨p.name, p.tags, some p.id⟩, true) := by
  have hname : (some (Value.str p.name)).bind nameOf? = some p.name := nameOf?_str h.name
  have htags := tagNames_map_str h.tags h.nodup
  have hid := given?_some h.id
  show (some (Value.str p.name)).bind nameOf? >>= (fun name =>
    let tags := tagNames (some (.list (p.tags.map Value.str)))
    pure (({ name, tags := tags.1, id := given? (some p.id) } : PersonEntry), tags.2)) = _
  rw [hname, htags, hid]
  rfl

theorem personEntries_map {people : List NormalPerson} (h : ∀ p ∈ people, p.Settled) :
    personEntries (some (.list (people.map NormalPerson.toValue))) =
      (people.map fun p => ⟨p.name, p.tags, some p.id⟩, true) := by
  have hfound : (people.map NormalPerson.toValue).map personEntry? =
      people.map fun p => some (⟨p.name, p.tags, some p.id⟩, true) := by
    rw [List.map_map]
    exact List.map_congr_left fun p hp => personEntry?_toValue (h p hp)
  unfold personEntries
  simp only [hfound, List.filterMap_map, List.all_map, Prod.mk.injEq]
  constructor
  · exact List.filterMap_eq_map' (f := fun p : NormalPerson => (⟨p.name, p.tags, some p.id⟩ : PersonEntry))
      ▸ rfl
  · rw [List.all_eq_true]
    exact fun _ _ => rfl

theorem fillIds_map (people : List NormalPerson) (next : Int) :
    fillIds next (people.map fun p => ⟨p.name, p.tags, some p.id⟩) = people := by
  induction people with
  | nil => rfl
  | cons p people ih => rw [List.map_cons, fillIds, ih]

theorem withIds_map (people : List NormalPerson) :
    withIds (people.map fun p => ⟨p.name, p.tags, some p.id⟩) = people := fillIds_map people _

/-! ## Tags -/

theorem declaredTag?_toValue {t : NormalTag} (hname : t.name.IsTidy) (hid : t.id ≠ .null) :
    declaredTag? t.toValue = some t := by
  have hgiven := given?_some hid
  unfold declaredTag? NormalTag.toValue
  dsimp only
  have hid' : given? (Value.field? "id" [(.str "id", t.id), (.str "name", .str t.name)]) = some t.id :=
    hgiven
  have hname' : Value.field? "name" [(.str "id", t.id), (.str "name", .str t.name)] =
      some (.str t.name) := rfl
  rw [hid', hname']
  dsimp only
  rw [hname.2]

theorem foldl_addTag_of_nodup {seen known : List NormalTag}
    (h : ((seen ++ known).map NormalTag.name).Nodup) : known.foldl addTag seen = seen ++ known := by
  induction known generalizing seen with
  | nil => rw [List.foldl_nil, List.append_nil]
  | cons t known ih =>
    rw [List.append_cons] at h
    have hnew : ∀ u ∈ seen, u.name ≠ t.name := by
      intro u hu hsame
      have hfront : ((seen ++ [t]).map NormalTag.name).Nodup := by
        rw [List.map_append] at h
        exact h.of_append_left
      rw [List.map_append, List.nodup_append'] at hfront
      exact hfront.2.2 (List.mem_map_of_mem hu) (hsame ▸ List.mem_singleton_self _)
    have hadd : addTag seen t = seen ++ [t] := by
      unfold addTag
      rw [if_neg (by simpa using hnew)]
    rw [List.foldl_cons, hadd, ih h, ← List.append_cons]

theorem numberTags_map_name {known sub : List NormalTag} (hnodup : (known.map NormalTag.name).Nodup)
    (hsub : ∀ t ∈ sub, t ∈ known) (next : Int) :
    numberTags known next (sub.map NormalTag.name) = sub := by
  induction sub with
  | nil => rfl
  | cons t sub ih =>
    have hfind : known.find? (fun u => u.name == t.name) = some t := by
      obtain ⟨u, hu⟩ : ∃ u, known.find? (fun u => u.name == t.name) = some u :=
        Option.isSome_iff_exists.1 (List.find?_isSome.2 ⟨t, hsub t List.mem_cons_self, by simp⟩)
      have hname : u.name = t.name := by simpa using List.find?_some hu
      rw [hu, List.inj_on_of_nodup_map hnodup (List.mem_of_find?_eq_some hu)
        (hsub t List.mem_cons_self) hname]
    rw [List.map_cons, numberTags, hfind]
    dsimp only
    rw [ih fun u hu => hsub u (List.mem_cons_of_mem _ hu)]

theorem id_of_mem_numberTags {declared : List NormalTag} {next : Int} {names : List Text} {t : NormalTag}
    (h : t ∈ numberTags declared next names) :
    (∃ d ∈ declared, t.id = d.id) ∨ ∃ n : Int, t.id = .int n := by
  induction names generalizing next with
  | nil => cases h
  | cons name names ih =>
    unfold numberTags at h
    split at h
    · next d hd =>
      rcases List.mem_cons.1 h with rfl | h
      · exact Or.inl ⟨d, List.mem_of_find?_eq_some hd, rfl⟩
      · exact ih h
    · rcases List.mem_cons.1 h with rfl | h
      · exact Or.inr ⟨next, rfl⟩
      · exact ih h

theorem mem_of_mem_foldl_addTag {seen found : List NormalTag} {t : NormalTag}
    (h : t ∈ found.foldl addTag seen) : t ∈ seen ∨ t ∈ found := by
  induction found generalizing seen with
  | nil => exact Or.inl h
  | cons u found ih =>
    rcases ih h with h | h
    · unfold addTag at h
      split at h
      · exact Or.inl h
      · rcases List.mem_append.1 h with h | h
        · exact Or.inl h
        · rw [List.mem_singleton] at h
          exact Or.inr (h ▸ List.mem_cons_self)
    · exact Or.inr (List.mem_cons_of_mem _ h)

theorem id_ne_null_of_declaredTag? {v : Value} {t : NormalTag} (h : declaredTag? v = some t) :
    t.id ≠ .null := by
  unfold declaredTag? at h
  split at h
  · split at h
    · next hid =>
      cases h
      exact given?_ne_null hid
    · cases h
  · cases h

theorem id_ne_null_of_mem_tags {v : Option Value} {people : List NormalPerson} {t : NormalTag}
    (h : t ∈ tags (declaredTags v) people) : t.id ≠ .null := by
  rcases id_of_mem_numberTags h with ⟨d, hd, hid⟩ | ⟨n, hn⟩
  · rw [hid]
    unfold declaredTags at hd
    split at hd
    · rcases mem_of_mem_foldl_addTag hd with hd | hd
      · cases hd
      · obtain ⟨item, -, hitem⟩ := List.mem_filterMap.1 hd
        exact id_ne_null_of_declaredTag? hitem
    · cases hd
  · rw [hn]
    nofun

/-! ## Settings -/

/-- A time limit as it is kept, and a number of workers of at least 0. -/
structure Settings.Settled (s : Settings) : Prop where
  timeLimit : ∀ x, s.timeLimit = some x → x.clampBelow = x
  workers : 0 ≤ s.workers

end Config

theorem Binary64.clampBelow_clampBelow (x : Binary64) : x.clampBelow.clampBelow = x.clampBelow := by
  by_cases hpos : x.isPositive
  · have hsame : x.clampBelow = x := if_pos hpos
    rw [hsame, hsame]
  · have hzero : x.clampBelow = zero false := if_neg hpos
    rw [hzero]
    rfl

namespace Config

theorem orDefault_eq_ok {α : Type} {default a : α} {x : Except NumberFault α}
    (h : orDefault default x = .ok a) : x = .ok a ∨ a = default := by
  unfold orDefault at h
  split at h
  · exact Or.inl h
  · cases h
  · cases h
    exact Or.inr rfl

theorem clampBelow_of_timeLimit {v : Option Value} {limit : Option Binary64} (h : timeLimit v = .ok limit)
    {x : Binary64} (hx : limit = some x) : x.clampBelow = x := by
  subst hx
  unfold timeLimit at h
  split at h
  · cases h
  · cases h
  · next w _ =>
    rcases orDefault_eq_ok h with h | h
    · cases hfloat : w.toFloat with
      | error e => simp [hfloat, Except.map] at h
      | ok y =>
        simp only [hfloat, Except.map, Except.ok.injEq, Option.some.injEq] at h
        rw [← h, Binary64.clampBelow_clampBelow]
    · cases h

theorem nonneg_of_workers {v : Option Value} {n : Int} (h : workers v = .ok n) : 0 ≤ n := by
  unfold workers at h
  split at h
  · cases h
    decide
  · next w =>
    rcases orDefault_eq_ok h with h | h
    · cases hint : w.toInt with
      | error e => simp [hint, Except.map] at h
      | ok m =>
        simp only [hint, Except.map, Except.ok.injEq] at h
        omega
    · rw [h]
      decide

theorem settled_of_settings {v : Option Value} {s : Settings} (h : settings v = .ok s) : s.Settled := by
  unfold settings at h
  split at h
  · obtain ⟨limit, hlimit, h⟩ := bind_eq_ok_iff.1 h
    obtain ⟨workers, hworkers, h⟩ := bind_eq_ok_iff.1 h
    obtain ⟨policy, -, h⟩ := bind_eq_ok_iff.1 h
    cases h
    exact ⟨fun x hx => clampBelow_of_timeLimit (liftNumber_eq_ok_iff.1 hlimit) hx,
      nonneg_of_workers (liftNumber_eq_ok_iff.1 hworkers)⟩
  · cases h
    exact ⟨nofun, by decide⟩

theorem timeLimit_getD {limit : Option Binary64} (h : ∀ x, limit = some x → x.clampBelow = x) :
    timeLimit (some ((limit.map Value.float).getD .null)) = .ok limit := by
  cases limit with
  | none => rfl
  | some x =>
    show Except.ok (some x.clampBelow) = _
    rw [h x rfl]

theorem workers_int {n : Int} (h : 0 ≤ n) : workers (some (.int n)) = .ok n := by
  show Except.ok (max 0 n) = _
  rw [Int.max_eq_right h]

theorem emptyTag_name (policy : EmptyTag) : emptyTag (some (.str policy.name)) = .ok policy := by
  cases policy <;> with_unfolding_all rfl

theorem settings_toValue {s : Settings} (h : s.Settled) : settings (some s.toValue) = .ok s := by
  have htime := timeLimit_getD h.timeLimit
  have hworkers := workers_int h.workers
  have hpolicy := emptyTag_name s.emptyTag
  show (do
    let timeLimit ← timeLimit (some ((s.timeLimit.map Value.float).getD .null))
    let workers ← workers (some (.int s.workers))
    let emptyTag ← emptyTag (some (.str s.emptyTag.name))
    return { timeLimit, workers, emptyTag } : Except Fault Settings) = .ok s
  rw [htime, hworkers, hpolicy]
  rfl

/-! ## Normal forms -/

/-- The version is the current one or a later one, people and settings are settled, and the tags are
those that people carry, with ids. -/
structure Normal.Settled (n : Normal) : Prop where
  version : ∃ k : Int, 1 ≤ k ∧ Value.field? "schema_version" n.fields = some (.int k)
  people : ∀ p ∈ n.people, p.Settled
  tags : n.tags.map NormalTag.name = usedTags n.people
  tagIds : ∀ t ∈ n.tags, t.id ≠ .null
  settings : n.settings.Settled

theorem settled_of_normal {v : Value} {n : Normal} (h : normal v = .ok n) : n.Settled := by
  obtain ⟨fields, s, hfields, hs, rfl⟩ := normal_eq_ok_iff.1 h
  exact ⟨exists_version_of_migrate hfields, fun p hp => settled_of_mem_withIds hp, map_name_tags _ _,
    fun t ht => id_ne_null_of_mem_tags ht, settled_of_settings hs⟩

namespace Normal
variable {n : Normal}

/-- The names of the tags are distinct and tidy, as those that people carry are. -/
theorem Settled.nodup_names (h : n.Settled) : (n.tags.map NormalTag.name).Nodup := by
  rw [h.tags]
  exact nodup_foldl_addNew List.nodup_nil

theorem Settled.tidy_name (h : n.Settled) {t : NormalTag} (ht : t ∈ n.tags) : t.name.IsTidy := by
  have hmem : t.name ∈ usedTags n.people := h.tags ▸ List.mem_map_of_mem ht
  obtain ⟨p, hp, hname⟩ := mem_usedTags.1 hmem
  exact (h.people p hp).tags _ hname

theorem declaredTags_map (h : n.Settled) :
    declaredTags (some (.list (n.tags.map NormalTag.toValue))) = n.tags := by
  have hfound : (n.tags.map NormalTag.toValue).filterMap declaredTag? = n.tags := by
    rw [List.filterMap_map, List.filterMap_congr (g := some)]
    · exact List.filterMap_some
    · exact fun t ht => declaredTag?_toValue (h.tidy_name ht) (h.tagIds t ht)
  show ((n.tags.map NormalTag.toValue).filterMap declaredTag?).foldl addTag [] = n.tags
  rw [hfound, foldl_addTag_of_nodup (by simpa using h.nodup_names), List.nil_append]

theorem tags_settled (h : n.Settled) : Config.tags n.tags n.people = n.tags := by
  unfold Config.tags
  rw [← h.tags]
  exact numberTags_map_name h.nodup_names (fun _ ht => ht) _

/-! ## Fields of a normal form -/

theorem field?_solver (n : Normal) : Value.field? "solver" n.toConfig = some n.settings.toValue :=
  Value.field?_setField_self _ _ _

theorem field?_relations (n : Normal) :
    Value.field? "relations" n.toConfig = some (.list n.relations) := by
  unfold toConfig
  rw [Value.field?_setField_of_ne (by decide), Value.field?_setField_self]

theorem field?_tags (n : Normal) :
    Value.field? "tags" n.toConfig = some (.list (n.tags.map NormalTag.toValue)) := by
  unfold toConfig
  rw [Value.field?_setField_of_ne (by decide), Value.field?_setField_of_ne (by decide),
    Value.field?_setField_self]

theorem field?_people (n : Normal) :
    Value.field? "people" n.toConfig = some (.list (n.people.map NormalPerson.toValue)) := by
  unfold toConfig
  rw [Value.field?_setField_of_ne (by decide), Value.field?_setField_of_ne (by decide),
    Value.field?_setField_of_ne (by decide), Value.field?_setField_self]

theorem field?_teamCount (n : Normal) : Value.field? "num_teams" n.toConfig = some n.teamCount := by
  unfold toConfig
  rw [Value.field?_setField_of_ne (by decide), Value.field?_setField_of_ne (by decide),
    Value.field?_setField_of_ne (by decide), Value.field?_setField_of_ne (by decide),
    Value.field?_setField_self]

theorem field?_version (n : Normal) :
    Value.field? "schema_version" n.toConfig = Value.field? "schema_version" n.fields := by
  unfold toConfig
  iterate 5 rw [Value.field?_setField_of_ne (by decide)]

def again (n : Normal) : Normal := { n with fields := n.toConfig, wellFormed := true }

theorem toConfig_again (n : Normal) : n.again.toConfig = n.toConfig := by
  show Value.setField "solver" n.settings.toValue
    (Value.setField "relations" (.list n.relations)
      (Value.setField "tags" (.list (n.tags.map NormalTag.toValue))
        (Value.setField "people" (.list (n.people.map NormalPerson.toValue))
          (Value.setField "num_teams" n.teamCount n.toConfig)))) = n.toConfig
  rw [Value.setField_of_field? n.field?_teamCount, Value.setField_of_field? n.field?_people,
    Value.setField_of_field? n.field?_tags, Value.setField_of_field? n.field?_relations,
    Value.setField_of_field? n.field?_solver]

end Normal

/-- The fields of a settled form have that form. -/
theorem normal_toConfig {n : Normal} (h : n.Settled) : normal (.map n.toConfig) = .ok n.again := by
  obtain ⟨k, hk, hversion⟩ := h.version
  refine normal_eq_ok_iff.2 ⟨n.toConfig, n.settings, ?_, ?_, ?_⟩
  · exact migrate_of_version (n.field?_version.trans hversion) hk
  · rw [n.field?_solver]
    exact settings_toValue h.settings
  · rw [n.field?_teamCount, n.field?_people, n.field?_tags, n.field?_relations, personEntries_map h.people,
      Normal.declaredTags_map h]
    dsimp only
    rw [withIds_map, Normal.tags_settled h]
    rfl

end Config

/-! ## Loading a normal form -/

namespace Load

def warned (warnings : List Text) (r : Except Fault Request) : Except Fault Request :=
  r.map fun r => { r with warnings := warnings ++ r.warnings }

theorem request_eq_warned (n : Config.Normal) :
    request n = warned (if n.wellFormed then [] else [malformedPeople]) (request n.again) := by
  unfold request
  show (Load.tags [] n.tags >>= _) = warned _ (Load.tags [] n.tags >>= _)
  cases Load.tags [] n.tags with
  | error e => rfl
  | ok tags =>
    rw [ok_bind, ok_bind]
    show (Load.people tags [] [] n.people >>= _) = warned _ (Load.people tags [] [] n.people >>= _)
    cases Load.people tags [] [] n.people with
    | error e => rfl
    | ok people =>
      rw [ok_bind, ok_bind]
      dsimp only
      split
      · rfl
      · cases unmentionableNames people tags with
        | error e => rfl
        | ok unfit =>
          show (Load.relations people tags n.relations >>= _) =
            warned _ (Load.relations people tags n.relations >>= _)
          cases Load.relations people tags n.relations with
          | error e => rfl
          | ok found =>
            show (teamCount n.teamCount >>= _) = warned _ (teamCount n.teamCount >>= _)
            cases teamCount n.teamCount with
            | error e => rfl
            | ok teams =>
              show Except.ok _ = Except.ok _
              rw [Except.ok.injEq]
              simp [Config.Normal.again]

/-- The other warnings begin with other letters. -/
theorem malformedPeople_not_mem {n : Config.Normal} {r : Request} (h : request n.again = .ok r) :
    malformedPeople ∉ r.warnings := by
  obtain ⟨tags, people, unfit, relations, warnings, teams, -, -, -, hunfit, hrelations, -, rfl⟩ :=
    request_eq_ok_iff.1 h
  intro hmem
  rcases List.mem_append.1 hmem with hmem | hmem
  · rcases head?_of_mem_unmentionableNames hunfit (by simpa [Config.Normal.again] using hmem) with h | h
    · rw [head?_malformedPeople] at h
      exact absurd h (by decide)
    · rw [head?_malformedPeople] at h
      exact absurd h (by decide)
  · have h := head?_of_mem_relationsFrom hrelations hmem
    rw [head?_malformedPeople] at h
    exact absurd h (by decide)

end Load

namespace Config

/-- **A normal form is its own normal form**, with all its fields, and all of its entries for people are
well formed. A document loads as its normal form does, with the same request or the same fault; only
the warning about malformed people is the document's alone. -/
theorem normal_idempotent {v : Value} {n : Normal} (h : normal v = .ok n) :
    normal (.map n.toConfig) = .ok { n with fields := n.toConfig, wellFormed := true } ∧
    Normal.toConfig { n with fields := n.toConfig, wellFormed := true } = n.toConfig ∧
    Request.load v = (Request.load (.map n.toConfig)).map (fun r =>
      { r with warnings := (if n.wellFormed then [] else [Load.malformedPeople]) ++ r.warnings }) ∧
    ∀ r, Request.load (.map n.toConfig) = .ok r → Load.malformedPeople ∉ r.warnings := by
  have hagain := normal_toConfig (settled_of_normal h)
  have hload : Request.load v = Load.request n := by
    unfold Request.load
    rw [h, ok_bind]
  have hloadAgain : Request.load (.map n.toConfig) = Load.request n.again := by
    unfold Request.load
    rw [hagain, ok_bind]
  refine ⟨hagain, n.toConfig_again, ?_, ?_⟩
  · rw [hload, hloadAgain]
    exact Load.request_eq_warned n
  · intro r hr
    exact Load.malformedPeople_not_mem (hloadAgain ▸ hr)

/-- An old document: a relation that is a bare text, the team count under its old name, an entry for
nobody, an id that is null, a tag given twice, one that nobody carries, and a time limit below 0. -/
def messyDocument : Value :=
  .map [(.str "teams", .int 3), (.str "notes", .list [.null]),
    (.str "people", .list [.str " Ann ", .int 5,
      .map [(.str "id", .int 7), (.str "name", .str "Bob"), (.str "tags", .list [.str "tall ", .str "tall"])],
      .map [(.str "id", .null), (.str "name", .str "Eve"), (.str "tags", .list [.str "new"])]]),
    (.str "tags", .list [.map [(.str "id", .str "t"), (.str "name", .str " tall")],
      .map [(.str "id", .int 4), (.str "name", .str "gone")]]),
    (.str "relations", .list [.str "@tall"]),
    (.str "solver", .map [(.str "time_limit_seconds", .int (-2)), (.str "num_workers", .bool true),
      (.str "empty_tag", .str " Error")])]

def messy : Normal where
  fields := Value.setField "schema_version" (.int 1) (renamedTeams (fullRelations (ofValue messyDocument)))
  teamCount := .int 3
  people := [⟨"Ann", [], .int 8⟩, ⟨"Bob", ["tall"], .int 7⟩, ⟨"Eve", ["new"], .int 9⟩]
  tags := [⟨"tall", .str "t"⟩, ⟨"new", .int 5⟩]
  relations := [.map [(.str "text", .str "@tall"), (.str "priority", .int 1)]]
  settings := { timeLimit := some (.zero false), workers := 1, emptyTag := .error }
  wellFormed := false

theorem normal_messy : normal messyDocument = .ok messy := by with_unfolding_all rfl

theorem normal_idempotent_messy : normal messyDocument = .ok messy ∧
    normal (.map messy.toConfig) = .ok { messy with fields := messy.toConfig, wellFormed := true } ∧
    Normal.toConfig { messy with fields := messy.toConfig, wellFormed := true } = messy.toConfig ∧
    Request.load messyDocument = (Request.load (.map messy.toConfig)).map (fun r =>
      { r with warnings := [Load.malformedPeople] ++ r.warnings }) ∧
    ∀ r, Request.load (.map messy.toConfig) = .ok r → Load.malformedPeople ∉ r.warnings :=
  ⟨normal_messy, normal_idempotent normal_messy⟩

end Config
end BalancedTeams
