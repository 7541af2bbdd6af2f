import BalancedTeams.Proofs.Config.Requests

/-!
# Faults of documents

* `Fault.IsReport` : the faults of a document that a user is told of; `Fault.duplicateOf?` : those that
  say that two ids of a kind are the same;
* `Config.normal_fails`, `Config.normal_eq_outOfRange_iff` : what there is no normal form for;
* `Load.failsWith_tags`, `Load.failsWith_people`, `Load.failsWith_relation` : how the parts of a request
  fail, for any property of the faults;
* `Load.Fails`, `Load.request_fails` : what can go wrong with a normal form;
* `Request.Escapes`, `Request.load_reports` : which documents neither load nor are reported.
-/

namespace BalancedTeams

/-- A fault of the input, or one of a relation with its place. -/
inductive Fault.IsReport : Fault → Prop
  | input (f : InputFault) : IsReport (.input f)
  | word (place : Place) (f : WordFault) : IsReport (.word (some place) f)
  | grammar (place : Place) (f : GrammarFault) : IsReport (.grammar (some place) f)

inductive IdKind where
  | person
  | tag
  | relation
  deriving DecidableEq, Repr

/-- The kind of ids of which a fault says that two are the same. -/
def Fault.duplicateOf? : Fault → Option IdKind
  | .input (.duplicatePerson _) => some .person
  | .input (.duplicateTag _) => some .tag
  | .input (.duplicateRelation _) => some .relation
  | _ => none

/-! ## Numerals -/

namespace Numeral

theorem ofDigits_append (ds : List Nat) (d : Nat) : ofDigits (ds ++ [d]) = 10 * ofDigits ds + d := by
  unfold ofDigits
  rw [List.foldl_append]
  rfl

theorem ofDigits_lt {ds : List Nat} (h : ∀ d ∈ ds, d < 10) : ofDigits ds < 10 ^ ds.length := by
  induction ds using List.reverseRecOn with
  | nil => decide
  | append_singleton ds d ih =>
    have hds := ih fun e he => h e (List.mem_append_left _ he)
    have hd := h d (List.mem_append_right _ (List.mem_singleton_self _))
    rw [ofDigits_append, List.length_append, List.length_singleton, Nat.pow_succ]
    omega

theorem lt_of_mem_digitRun? {cs : List Char} {ds : List Nat} (h : digitRun? cs = some ds) :
    ∀ d ∈ ds, d < 10 := by
  fun_induction digitRun? cs generalizing ds with
  | case1 => cases h
  | case2 c =>
    obtain ⟨d, hd, rfl⟩ := Option.map_eq_some_iff.1 h
    exact List.forall_mem_singleton.2 (Text.digit?_lt hd)
  | case3 c rest ih =>
    simp only [Option.bind_eq_bind, Option.bind_eq_some_iff] at h
    obtain ⟨d, hd, more, hmore, h⟩ := h
    cases h
    exact List.forall_mem_cons.2 ⟨Text.digit?_lt hd, ih hmore⟩
  | case4 c rest _ _ ih =>
    simp only [Option.bind_eq_bind, Option.bind_eq_some_iff] at h
    obtain ⟨d, hd, more, hmore, h⟩ := h
    cases h
    exact List.forall_mem_cons.2 ⟨Text.digit?_lt hd, ih hmore⟩

/-- An integer that has been read can be written. -/
theorem isWritable_of_int? {t : Text} {n : Int} (h : int? t = some n) : isWritable n = true := by
  obtain ⟨chars, -, h⟩ := Option.bind_eq_some_iff.1 h
  obtain ⟨ds, hds, h⟩ := Option.bind_eq_some_iff.1 h
  obtain ⟨u, hguard, h⟩ := Option.bind_eq_some_iff.1 h
  cases h
  have hlength : ds.length ≤ maxDigits := by
    by_contra hlong
    rw [guard, if_neg hlong] at hguard
    cases hguard
  have hlt : ∀ k, ds.length ≤ k → ofDigits ds < Nat.pow 10 k := by
    intro k hk
    apply lt_of_lt_of_le (ofDigits_lt (lt_of_mem_digitRun? hds))
    exact Nat.pow_le_pow_right (by decide) hk
  have habs : ∀ neg, (Binary64.applySign neg (ofDigits ds)).natAbs = ofDigits ds := by
    intro neg
    unfold Binary64.applySign
    split <;> omega
  unfold isWritable leastUnwritable
  rw [habs, decide_eq_true_iff]
  exact hlt maxDigits hlength

end Numeral

/-! ## Documents without a normal form -/

namespace Config

def fieldsOf : Option Value → Config
  | some (.map fields) => fields
  | _ => []

def solverFields (v : Value) : Config := fieldsOf (Value.field? "solver" (ofValue v))

/-- A version or a number of workers that is infinite, or an integer as a time limit that is out of the
range of floats. -/
inductive HasOutOfRange (v : Value) : Prop
  | version (neg : Bool) (h : Value.field? "schema_version" (ofValue v) = some (.float (.inf neg)))
  | timeLimit (n : Int) (h : Value.field? "time_limit_seconds" (solverFields v) = some (.int n))
      (hn : Binary64.ofInt? n = none)
  | workers (neg : Bool) (h : Value.field? "num_workers" (solverFields v) = some (.float (.inf neg)))

def HasUnwritablePolicy (v : Value) : Prop :=
  ∃ w, Value.field? "empty_tag" (solverFields v) = some w ∧ w.isWritable = false

theorem toInt_eq_outOfRange_iff {w : Value} :
    w.toInt = .error .outOfRange ↔ ∃ neg, w = .float (.inf neg) := by
  cases w with
  | list items => simp [Value.toInt]
  | map fields => simp [Value.toInt]
  | scalar s =>
    cases s with
    | float x => cases x <;> simp [Value.toInt, Scalar.toInt, Binary64.trunc?]
    | str t => cases h : Numeral.int? t <;> simp [Value.toInt, Scalar.toInt, h]
    | _ => simp [Value.toInt, Scalar.toInt]

theorem toFloat_eq_outOfRange_iff {w : Value} :
    w.toFloat = .error .outOfRange ↔ ∃ n, w = .int n ∧ Binary64.ofInt? n = none := by
  cases w with
  | list items => simp [Value.toFloat]
  | map fields => simp [Value.toFloat]
  | scalar s =>
    cases s with
    | int n => cases h : Binary64.ofInt? n <;> simp [Value.toFloat, Scalar.toFloat, h]
    | str t => cases h : Numeral.float? t <;> simp [Value.toFloat, Scalar.toFloat, h]
    | _ => simp [Value.toFloat, Scalar.toFloat]

theorem orDefault_eq_error_iff {α : Type} {default : α} {x : Except NumberFault α} {e : NumberFault} :
    orDefault default x = .error e ↔ e = .outOfRange ∧ x = .error .outOfRange := by
  cases x with
  | ok a => simp [orDefault]
  | error f => cases f <;> simp [orDefault, eq_comm]

theorem migrate_eq_error_iff {cfg : Config} {e : NumberFault} : migrate cfg = .error e ↔
    e = .outOfRange ∧ ∃ neg, Value.field? "schema_version" cfg = some (.float (.inf neg)) := by
  have hdefault : version cfg = orDefault 0 ((Value.field? "schema_version" cfg).getD (.int 0)).toInt := by
    unfold version
    cases ((Value.field? "schema_version" cfg).getD (.int 0)).toInt with
    | ok n => rfl
    | error f => cases f <;> rfl
  have hversion : version cfg = .error e ↔
      e = .outOfRange ∧ ∃ neg, Value.field? "schema_version" cfg = some (.float (.inf neg)) := by
    rw [hdefault, orDefault_eq_error_iff, toInt_eq_outOfRange_iff]
    cases Value.field? "schema_version" cfg <;> simp
  rw [← hversion]
  unfold migrate
  rw [bind_eq_error_iff, or_iff_left]
  rintro ⟨v, -, h⟩
  dsimp only at h
  split at h <;> cases h

theorem timeLimit_eq_error_iff {v : Option Value} {e : NumberFault} : timeLimit v = .error e ↔
    e = .outOfRange ∧ ∃ n, v = some (.int n) ∧ Binary64.ofInt? n = none := by
  unfold timeLimit
  split
  · simp
  · simp
  · rw [orDefault_eq_error_iff, map_eq_error_iff, toFloat_eq_outOfRange_iff]
    simp

theorem workers_eq_error_iff {v : Option Value} {e : NumberFault} : workers v = .error e ↔
    e = .outOfRange ∧ ∃ neg, v = some (.float (.inf neg)) := by
  unfold workers
  split
  · simp
  · rw [orDefault_eq_error_iff, map_eq_error_iff, toInt_eq_outOfRange_iff]
    simp

theorem emptyTag_eq_error_iff {v : Option Value} {e : TextFault} : emptyTag v = .error e ↔
    e = .tooManyDigits ∧ ∃ w, v = some w ∧ w.isWritable = false := by
  unfold emptyTag
  split
  · simp
  · next w =>
    rw [bind_eq_error_iff, or_iff_left (by rintro ⟨name, -, h⟩; cases h)]
    rw [Value.text, written_eq_error_iff]
    simp

/-- The settings are read from the fields of a map one after the other. -/
theorem settings_eq (v : Option Value) : settings v = (do
    let timeLimit ← timeLimit (Value.field? "time_limit_seconds" (fieldsOf v))
    let workers ← workers (Value.field? "num_workers" (fieldsOf v))
    let emptyTag ← emptyTag (Value.field? "empty_tag" (fieldsOf v))
    return { timeLimit, workers, emptyTag } : Except Fault Settings) := by
  cases v with
  | none => rfl
  | some w => cases w <;> rfl

theorem field?_solver_of_migrate {cfg fields : Config} (h : migrate cfg = .ok fields) :
    Value.field? "solver" fields = Value.field? "solver" cfg := field?_of_migrate h (by decide)

theorem liftNumber_eq_error_iff {α : Type} {x : Except NumberFault α} {e : Fault} :
    (liftM x : Except Fault α) = .error e ↔ ∃ f, x = .error f ∧ e = .number f := by
  cases x with
  | ok a => exact ⟨nofun, nofun⟩
  | error f =>
    show Except.error (Fault.number f) = _ ↔ _
    simp [eq_comm]

variable {v : Value}

theorem normal_eq_error_iff {e : Fault} : normal v = .error e ↔
    (∃ f, migrate (ofValue v) = .error f ∧ e = .number f) ∨
    ∃ fields, migrate (ofValue v) = .ok fields ∧ settings (Value.field? "solver" fields) = .error e := by
  unfold normal
  rw [bind_eq_error_iff, liftNumber_eq_error_iff]
  simp only [liftNumber_eq_ok_iff, bind_eq_error_iff]
  refine or_congr_right (exists_congr fun fields => and_congr_right fun _ => or_iff_left ?_)
  rintro ⟨s, -, h⟩
  cases h

/-- There is no normal form for two reasons only. -/
theorem normal_fails (v : Value) : FailsWith (fun e => e = .number .outOfRange ∧ HasOutOfRange v ∨
    e = .text .tooManyDigits ∧ HasUnwritablePolicy v) (normal v) := by
  intro e he
  rcases normal_eq_error_iff.1 he with ⟨f, hf, rfl⟩ | ⟨fields, hfields, hs⟩
  · obtain ⟨rfl, neg, h⟩ := migrate_eq_error_iff.1 hf
    exact Or.inl ⟨rfl, .version neg h⟩
  · rw [field?_solver_of_migrate hfields, settings_eq] at hs
    rcases bind_eq_error_iff.1 hs with hs | ⟨limit, -, hs⟩
    · obtain ⟨f, hf, rfl⟩ := liftNumber_eq_error_iff.1 hs
      obtain ⟨rfl, n, h, hn⟩ := timeLimit_eq_error_iff.1 hf
      exact Or.inl ⟨rfl, .timeLimit n h hn⟩
    · rcases bind_eq_error_iff.1 hs with hs | ⟨workers, -, hs⟩
      · obtain ⟨f, hf, rfl⟩ := liftNumber_eq_error_iff.1 hs
        obtain ⟨rfl, neg, h⟩ := workers_eq_error_iff.1 hf
        exact Or.inl ⟨rfl, .workers neg h⟩
      · rcases bind_eq_error_iff.1 hs with hs | ⟨policy, -, hs⟩
        · obtain ⟨f, hf, rfl⟩ := liftText_eq_error_iff.1 hs
          obtain ⟨rfl, w, h⟩ := emptyTag_eq_error_iff.1 hf
          exact Or.inr ⟨rfl, w, h⟩
        · cases hs

/-- A number that is out of range always shows: what is read before it is in range or out of it too. -/
theorem normal_eq_outOfRange_iff : normal v = .error (.number .outOfRange) ↔ HasOutOfRange v := by
  constructor
  · intro h
    rcases normal_fails v _ h with ⟨-, h⟩ | ⟨h, -⟩
    · exact h
    · cases h
  · intro h
    cases hfields : migrate (ofValue v) with
    | error f =>
      obtain ⟨rfl, -⟩ := migrate_eq_error_iff.1 hfields
      exact normal_eq_error_iff.2 (Or.inl ⟨_, hfields, rfl⟩)
    | ok fields =>
      refine normal_eq_error_iff.2 (Or.inr ⟨fields, hfields, ?_⟩)
      have hsolver : fieldsOf (Value.field? "solver" (ofValue v)) = solverFields v := rfl
      rw [field?_solver_of_migrate hfields, settings_eq, hsolver]
      cases hlimit : timeLimit (Value.field? "time_limit_seconds" (solverFields v)) with
      | error f =>
        obtain ⟨rfl, -⟩ := timeLimit_eq_error_iff.1 hlimit
        rfl
      | ok limit =>
        cases h with
        | version neg h =>
          rw [migrate_eq_error_iff.2 ⟨rfl, neg, h⟩] at hfields
          cases hfields
        | timeLimit n h hn =>
          rw [timeLimit_eq_error_iff.2 ⟨rfl, n, h, hn⟩] at hlimit
          cases hlimit
        | workers neg h =>
          simp only [workers_eq_error_iff.2 ⟨rfl, neg, h⟩]
          rfl

end Config

/-! ## How loading fails -/

namespace Load

theorem not_nodup_of_seen {seen : List Key} {k : Key} (h : seen.contains k = true) (keys : List Key) :
    ¬ (seen ++ k :: keys).Nodup := by
  intro hnodup
  rw [List.contains_iff_mem] at h
  exact (List.nodup_append'.1 hnodup).2.2 h List.mem_cons_self

/-- What a report about a priority shows: the value, or the integer that a float is equal to. -/
def shownPriority : Option Value → List Value
  | none => []
  | some (.float x) => .float x :: (x.int?.map Value.int).toList
  | some v => [v]

/-- What may come of a report that shows an id. -/
structure MayShow (P : Fault → Prop) (f : Text → InputFault) (id : Value) : Prop where
  unwritable : id.isWritable = false → P (.text .tooManyDigits)
  report : ∀ shown, P (.input (f shown))

section
variable {P : Fault → Prop}

theorem failsWith_shown {α β : Type} {id : Value} {f : Text → InputFault} (h : MayShow P f id)
    {g : α → Except Fault β} : FailsWith P
      ((liftM id.text : Except Fault Text) >>= fun t => (throw (.input (f t)) : Except Fault α) >>= g) :=
  FailsWith.bind (.written h.unwritable _) fun shown _ => .error (h.report shown)

theorem failsWith_tags {seen : List Key} {entries : List Config.NormalTag}
    (hkey : ∀ t ∈ entries, t.id.key? = none → P .noKey)
    (hdup : ∀ t ∈ entries, ¬ (seen ++ keysIn (entries.map Config.NormalTag.id)).Nodup →
      MayShow P .duplicateTag t.id) : FailsWith P (Load.tags seen entries) := by
  induction entries generalizing seen with
  | nil => exact .ok _
  | cons t rest ih =>
    obtain ⟨hkey, hkeys⟩ := List.forall_mem_cons.1 hkey
    unfold Load.tags
    refine (FailsWith.key hkey).bind fun k hk => ?_
    rw [List.map_cons, keysIn_cons (key_eq_ok_iff.1 hk)] at hdup
    dsimp only
    split
    · next hseen => exact failsWith_shown (hdup t List.mem_cons_self (not_nodup_of_seen hseen _))
    · refine (ih hkeys fun u hu h => hdup u (List.mem_cons_of_mem _ hu) ?_).bind fun more _ => .ok _
      rwa [List.nodup_middle]

section
variable (hreport : ∀ e : Fault, e.IsReport → e.duplicateOf? = none → P e)
include hreport

/-- Loading people fails at a key, at a tag, at a name, or at a duplicate where there is one. -/
theorem failsWith_people {known : List Tag} {seen : List Key} {names : List Text}
    {entries : List Config.NormalPerson} (hkey : ∀ p ∈ entries, p.id.key? = none → P .noKey)
    (hdup : ∀ p ∈ entries, ¬ (seen ++ keysIn (entries.map Config.NormalPerson.id)).Nodup →
      MayShow P .duplicatePerson p.id)
    (htag : ∀ p ∈ entries, ∀ name ∈ p.tags, FailsWith P (tagKey known name)) :
    FailsWith P (Load.people known seen names entries) := by
  induction entries generalizing seen names with
  | nil => exact .ok _
  | cons p rest ih =>
    obtain ⟨hkey, hkeys⟩ := List.forall_mem_cons.1 hkey
    obtain ⟨htag, htags⟩ := List.forall_mem_cons.1 htag
    unfold Load.people
    refine (FailsWith.key hkey).bind fun k hk => ?_
    rw [List.map_cons, keysIn_cons (key_eq_ok_iff.1 hk)] at hdup
    dsimp only
    split
    · next hseen => exact failsWith_shown (hdup p List.mem_cons_self (not_nodup_of_seen hseen _))
    · split
      · exact .error (hreport _ (.input _) rfl)
      · refine FailsWith.bind ?_ fun keys _ =>
          (ih hkeys (fun q hq h => hdup q (List.mem_cons_of_mem _ hq) ?_) htags).bind fun more _ => .ok _
        · intro e he
          obtain ⟨name, hname, he⟩ := exists_of_mapM_eq_error he
          exact htag name hname e he
        · rwa [List.nodup_middle]

theorem failsWith_teamCount {v : Value} (hlong : v.isWritable = false → P (.text .tooManyDigits)) :
    FailsWith P (teamCount v) := by
  unfold teamCount
  split
  · exact .ok _
  · exact FailsWith.bind (.written hlong _) fun _ _ => .error (hreport _ (.input _) rfl)

theorem failsWith_priority {index : Nat} {given : Option Value}
    (hlong : ∀ w ∈ shownPriority given, w.isWritable = false → P (.text .tooManyDigits)) :
    FailsWith P (priority index given) := by
  have hrefuse : ∀ w, (w.isWritable = false → w ∈ shownPriority given) →
      FailsWith P (priority.refuse index w) := fun w hw =>
    FailsWith.bind (.written (fun hwritable => hlong w (hw hwritable) hwritable) _) fun _ _ =>
      .error (hreport _ (.input _) rfl)
  cases given with
  | none => exact .ok _
  | some v =>
    have hself : v ∈ shownPriority (some v) := by
      cases v with
      | scalar s => cases s <;> simp [shownPriority]
      | _ => simp [shownPriority]
    unfold priority
    split
    · exact .error (hreport _ (.input _) rfl)
    · dsimp only
      split
      · next n hn =>
        split
        · exact .ok _
        · refine hrefuse _ fun hunwritable => ?_
          -- a text that has been read as an integer is short enough, a float may be too great
          simp only [Option.getD_some] at hn
          split at hn
          · cases hn
            exact hself
          · simp [shownPriority, hn]
          · rw [Value.isWritable, Scalar.isWritable, Numeral.isWritable_of_int? hn] at hunwritable
            cases hunwritable
          · cases hn
      · exact hrefuse _ fun _ => hself

/-- Reading an entry fails at its key, at its priority, at a name that cannot be looked up, or at a
duplicate where there is one; all else is reported. -/
theorem failsWith_relation {people : List Person} {tags : List Tag} {seen : List Key} {next : Int}
    {index : Nat} {v : Value} (hnames : Names.of? people tags = none → P .noKey)
    (hid : ∀ fields, v = .map fields → ((relationId next fields).1.key? = none → P .noKey) ∧
      ∀ k, (relationId next fields).1.key? = some k → seen.contains k = true →
        MayShow P .duplicateRelation (relationId next fields).1)
    (hlong : ∀ fields, v = .map fields → ∀ w ∈ shownPriority (Value.field? "priority" fields),
      w.isWritable = false → P (.text .tooManyDigits)) :
    FailsWith P (relation people tags seen next index v) := by
  unfold relation
  split
  · next fields =>
    obtain ⟨hkey, hdup⟩ := hid fields rfl
    have htext : FailsWith P (textOf index fields) := by
      unfold textOf
      split
      · split
        · exact .error (hreport _ (.input _) rfl)
        · exact .ok _
      · exact .error (hreport _ (.input _) rfl)
    refine htext.bind fun text _ => ?_
    dsimp only
    refine (FailsWith.key hkey).bind fun k hk => ?_
    split
    · next hseen => exact failsWith_shown (hdup k (key_eq_ok_iff.1 hk) hseen)
    · refine (failsWith_priority hreport (hlong fields rfl)).bind fun n _ => ?_
      cases hfound : Names.of? people tags with
      | none => exact .error (hnames hfound)
      | some names =>
        rw [Fault.orNoKey, ok_bind]
        split
        · next f hf =>
          apply FailsWith.error
          rcases relationTokens_fails _ f hf with ⟨w, rfl⟩ | ⟨g, rfl⟩ | ⟨v, hv, -⟩
          · exact hreport _ (.word _ w) rfl
          · exact hreport _ (.grammar _ g) rfl
          · exact absurd hv (Entry.foreign_not_mem_parse names text v)
        · exact .ok _
  · exact .error (hreport _ (.input _) rfl)

end
end

/-! ## What can go wrong with a normal form -/

/-- A report, or that one of the ids has no key, or that one of the values shown cannot be written. -/
inductive Fails (ids shown : List Value) : Fault → Prop
  | report {e : Fault} (h : e.IsReport) : Fails ids shown e
  | noKey {id : Value} (hid : id ∈ ids) (h : id.key? = none) : Fails ids shown .noKey
  | unwritable {w : Value} (hw : w ∈ shown) (h : w.isWritable = false) :
    Fails ids shown (.text .tooManyDigits)

variable {ids shown : List Value}

theorem mayShow_fails {id : Value} (hid : id ∈ shown) (f : Text → InputFault) :
    MayShow (Fails ids shown) f id where
  unwritable := .unwritable hid
  report _ := .report (.input _)

/-- The values of an entry that a report can show besides a free id. -/
def shownOf : Value → List Value
  | .map fields => (Value.field? "id" fields).toList ++ shownPriority (Value.field? "priority" fields)
  | _ => []

def freeIds (next : Int) (count : Nat) : List Value :=
  (List.range count).map fun j : Nat => .int (next + j)

variable {people : List Person} {tags : List Tag} {seen : List Key} {next : Int} {index : Nat}

theorem relation_fails (hnames : ∃ names, Names.of? people tags = some names) {v : Value}
    (hids : givenIds [v] ⊆ ids) (hshown : shownOf v ⊆ shown) (hfree : .int next ∈ shown) :
    FailsWith (Fails ids shown) (relation people tags seen next index v) := by
  obtain ⟨names, hnames⟩ := hnames
  refine failsWith_relation (fun e he _ => .report he) (fun hnone => ?_) ?_ ?_
  · rw [hnames] at hnone
    cases hnone
  · rintro fields rfl
    have hid : ((relationId next fields).1.key? = none → (relationId next fields).1 ∈ ids) ∧
        (relationId next fields).1 ∈ shown := by
      unfold relationId
      split
      · next id hgiven =>
        have hfield : Value.field? "id" fields = some id := by
          unfold Config.given? at hgiven
          split at hgiven
          · cases hgiven
          · exact hgiven
        refine ⟨fun _ => hids ?_, hshown ?_⟩
        · simp [givenIds, hfield]
        · simp [shownOf, hfield]
      · refine ⟨fun hkey => ?_, hfree⟩
        cases hkey
    exact ⟨fun hnone => .noKey (hid.1 hnone) hnone, fun _ _ _ => mayShow_fails hid.2 _⟩
  · rintro fields rfl w hw hlong
    exact .unwritable (hshown (List.mem_append_right _ hw)) hlong

theorem relationsFrom_fails (hnames : ∃ names, Names.of? people tags = some names) {items : List Value}
    (hids : givenIds items ⊆ ids) (hshown : items.flatMap shownOf ⊆ shown)
    (hfree : freeIds next items.length ⊆ shown) :
    FailsWith (Fails ids shown) (relationsFrom people tags seen next index items) := by
  induction items generalizing seen next index with
  | nil => exact .ok _
  | cons v rest ih =>
    have hfreeMem : ∀ j < rest.length + 1, Value.int (next + j) ∈ shown := by
      intro j hj
      exact hfree (List.mem_map.2 ⟨j, List.mem_range.2 hj, rfl⟩)
    have hsplit : givenIds (v :: rest) = givenIds [v] ++ givenIds rest :=
      List.filterMap_append (l := [v])
    rw [hsplit, List.append_subset] at hids
    rw [List.flatMap_cons, List.append_subset] at hshown
    unfold relationsFrom
    refine (relation_fails hnames hids.1 hshown.1 (by simpa using hfreeMem 0 (by omega))).bind fun r hr => ?_
    have hnext : freeIds r.next rest.length ⊆ shown := by
      intro w hw
      obtain ⟨j, hj, rfl⟩ := List.mem_map.1 hw
      rw [List.mem_range] at hj
      obtain ⟨fields, text, k, n, names, ts, -, -, -, -, -, -, -, rfl⟩ := relation_eq_ok_iff.1 hr
      show Value.int ((relationId next fields).2 + j) ∈ shown
      unfold relationId
      split
      · exact hfreeMem j (by omega)
      · have hmore := hfreeMem (j + 1) (by omega)
        rw [show next + ((j + 1 : Nat) : Int) = next + 1 + j by omega] at hmore
        exact hmore
    exact (ih hids.2 hshown.2 hnext).bind fun more _ => .ok _

/-! ## Requests -/

theorem exists_unmentionableNames {people : List Person} {tags : List Tag} (h : Coherent people tags) :
    ∃ unfit, unmentionableNames people tags = .ok unfit := by
  have hall : ∀ (kind : Text) (names : List Value), (∀ n ∈ names, ∃ t, n = .str t) →
      ∃ unfit, (names.filter fun n => !canMention n).mapM (unmentionable kind) = .ok unfit := by
    intro kind names hnames
    refine exists_mapM_eq_ok fun n hn => ?_
    obtain ⟨t, rfl⟩ := hnames n (List.mem_of_mem_filter hn)
    exact ⟨_, rfl⟩
  have hpeople : ∀ n ∈ people.map Person.name, ∃ t, n = .str t := by
    intro n hn
    obtain ⟨p, hp, rfl⟩ := List.mem_map.1 hn
    obtain ⟨name, hname, -⟩ := h.personTexts p hp
    exact ⟨name, hname⟩
  have htags : ∀ n ∈ tags.map Tag.name, ∃ t, n = .str t := by
    intro n hn
    obtain ⟨g, hg, rfl⟩ := List.mem_map.1 hn
    obtain ⟨name, hname, -⟩ := h.tagTexts g hg
    exact ⟨name, hname⟩
  obtain ⟨ofPeople, hpeople⟩ := hall "Person" _ hpeople
  obtain ⟨ofTags, htags⟩ := hall "Tag" _ htags
  exact ⟨_, bind_eq_ok_iff.2 ⟨ofPeople, hpeople, bind_eq_ok_iff.2 ⟨ofTags, htags, rfl⟩⟩⟩

end Load

namespace Config.Normal

/-- The ids that are looked up. -/
def ids (n : Normal) : List Value :=
  n.tags.map NormalTag.id ++ n.people.map NormalPerson.id ++ Load.givenIds n.relations

/-- The values that a report can show. -/
def shown (n : Normal) : List Value :=
  n.teamCount :: (n.tags.map NormalTag.id ++ n.people.map NormalPerson.id ++
    n.relations.flatMap Load.shownOf ++
    Load.freeIds (nextId 0 (Load.givenIds n.relations)) n.relations.length)

end Config.Normal

namespace Load

theorem exists_tagKey {v : Value} {n : Config.Normal} (hn : Config.normal v = .ok n) {tags : List Tag}
    (htags : Load.tags [] n.tags = .ok tags) {p : Config.NormalPerson} (hp : p ∈ n.people) {name : Text}
    (hname : name ∈ p.tags) : ∃ k, tagKey tags name = .ok k := by
  obtain ⟨hids, rfl⟩ := tags_eq_ok_iff.1 htags
  obtain ⟨t, ht, rfl⟩ := List.mem_map.1 ((Config.mem_tags_of_normal hn).2 ⟨p, hp, hname⟩)
  have hsome : (tagNamed? (n.tags.map fun t => ⟨t.id, .str t.name⟩) t.name).isSome = true :=
    List.find?_isSome.2 ⟨_, List.mem_map_of_mem ht, beq_self_eq_true _⟩
  obtain ⟨g, hg⟩ := Option.isSome_iff_exists.1 hsome
  obtain ⟨u, hu, rfl⟩ := List.mem_map.1 (name_of_tagNamed? hg).1
  obtain ⟨k, hk⟩ := Option.isSome_iff_exists.1 ((newKeys_nil_iff.1 hids).keyed_map u hu)
  exact ⟨k, tagKey_eq_ok_iff.2 ⟨_, hg, hk⟩⟩

theorem request_fails {v : Value} {n : Config.Normal} (hn : Config.normal v = .ok n) :
    FailsWith (Fails n.ids n.shown) (request n) := by
  unfold request
  refine FailsWith.bind ?_ fun tags htags => ?_
  · refine failsWith_tags (fun t ht => .noKey ?_) fun t ht _ => mayShow_fails ?_ _
    · simp [Config.Normal.ids, List.mem_map_of_mem ht]
    · simp [Config.Normal.shown, List.mem_map_of_mem ht]
  refine FailsWith.bind ?_ fun people hpeople => ?_
  · refine failsWith_people (fun e he _ => .report he) (fun p hp => .noKey ?_)
      (fun p hp _ => mayShow_fails ?_ _) fun p hp name hname => .of_exists_ok (exists_tagKey hn htags hp hname)
    · simp [Config.Normal.ids, List.mem_map_of_mem hp]
    · simp [Config.Normal.shown, List.mem_map_of_mem hp]
  have hlists := coherent_of_people hn htags hpeople
  dsimp only
  split
  · exact .error (.report (.input _))
  · refine (FailsWith.of_exists_ok ?_).bind fun unfit _ => ?_
    · obtain ⟨unfit, hunfit⟩ := exists_unmentionableNames hlists
      exact ⟨unfit, liftText_eq_ok_iff.2 hunfit⟩
    · refine FailsWith.bind ?_ fun found _ => ?_
      · unfold relations
        apply relationsFrom_fails hlists.exists_names
        · exact fun w hw => List.mem_append_right _ hw
        · intro w hw
          simp only [Config.Normal.shown, List.mem_cons, List.mem_append]
          tauto
        · intro w hw
          simp only [Config.Normal.shown, List.mem_cons, List.mem_append]
          tauto
      · exact (failsWith_teamCount (fun e he _ => .report he) (.unwritable List.mem_cons_self)).bind fun teams _ =>
          .ok _

end Load

namespace Request

/-- What a document neither loads for nor is reported for: a number out of range, a policy or a value in
a report that is too long to be written, and an id that cannot be looked up. -/
inductive Escapes (v : Value) : Fault → Prop
  | number (h : Config.HasOutOfRange v) : Escapes v (.number .outOfRange)
  | policy (h : Config.HasUnwritablePolicy v) : Escapes v (.text .tooManyDigits)
  | noKey {n : Config.Normal} (hn : Config.normal v = .ok n) {id : Value} (hid : id ∈ n.ids)
      (h : id.key? = none) : Escapes v .noKey
  | unwritable {n : Config.Normal} (hn : Config.normal v = .ok n) {w : Value} (hw : w ∈ n.shown)
      (h : w.isWritable = false) : Escapes v (.text .tooManyDigits)

theorem load_of_hasOutOfRange {v : Value} (h : Config.HasOutOfRange v) :
    Request.load v = .error (.number .outOfRange) :=
  bind_eq_error_iff.2 (Or.inl (Config.normal_eq_outOfRange_iff.2 h))

/-- **A document loads, or is reported, or escapes for a cause that is in the document.** Where a number
is out of range, and only there, the fault is that. -/
theorem load_reports (v : Value) :
    (Request.load v = .error (.number .outOfRange) ↔ Config.HasOutOfRange v) ∧
    ((∃ r, Request.load v = .ok r) ∨ ∃ e, Request.load v = .error e ∧ (e.IsReport ∨ Escapes v e)) := by
  have hfails : FailsWith (fun e => e.IsReport ∨ Escapes v e) (Request.load v) := by
    refine FailsWith.bind ?_ fun n hn => ?_
    · refine (Config.normal_fails v).mono ?_
      rintro e (⟨rfl, hrange⟩ | ⟨rfl, hpolicy⟩)
      · exact Or.inr (.number hrange)
      · exact Or.inr (.policy hpolicy)
    · refine (Load.request_fails hn).mono ?_
      intro e he
      cases he with
      | report h => exact Or.inl h
      | noKey hid h => exact Or.inr (.noKey hn hid h)
      | unwritable hw h => exact Or.inr (.unwritable hn hw h)
  refine ⟨⟨fun h => ?_, load_of_hasOutOfRange⟩, ?_⟩
  · rcases hfails _ h with h | h
    · cases h
    · cases h with
      | number hrange => exact hrange
  · cases h : Request.load v with
    | ok r => exact Or.inl ⟨r, rfl⟩
    | error e => exact Or.inr ⟨e, rfl, hfails e h⟩

/-- Ann alone, with more fields. -/
def annDocument (fields : Config) : Value := .map ((.str "people", .list [.str "Ann"]) :: fields)

theorem load_teamCount {n : Int} (h : Numeral.isWritable n = false) :
    Request.load (annDocument [(.str "num_teams", .list [.int n])]) = .error (.text .tooManyDigits) := by
  have hquoted : (Value.list [.int n]).quoted = .error .tooManyDigits := by
    unfold Value.quoted Value.written
    rw [if_neg]
    simp [Value.isWritable, Value.areWritable, Scalar.isWritable, h]
  have hcount : Load.teamCount (.list [.int n]) = .error (.text .tooManyDigits) := by
    show (liftM (Value.list [.int n]).quoted : Except Fault Text) >>= _ = _
    rw [hquoted]
    rfl
  have hnormal : ∃ fields, Config.normal (annDocument [(.str "num_teams", .list [.int n])]) = .ok
      { fields, teamCount := .list [.int n], people := [⟨"Ann", [], .int 0⟩], tags := [], relations := []
        settings := {}, wellFormed := true } := ⟨_, by with_unfolding_all rfl⟩
  obtain ⟨fields, hnormal⟩ := hnormal
  refine bind_eq_error_iff.2 (Or.inr ⟨_, hnormal, ?_⟩)
  unfold Load.request
  refine bind_eq_error_iff.2 (Or.inr ⟨[], rfl, ?_⟩)
  refine bind_eq_error_iff.2 (Or.inr ⟨[⟨.int 0, .str "Ann", []⟩], rfl, ?_⟩)
  refine bind_eq_error_iff.2 (Or.inr ⟨[], rfl, ?_⟩)
  refine bind_eq_error_iff.2 (Or.inr ⟨([], []), rfl, ?_⟩)
  exact bind_eq_error_iff.2 (Or.inl hcount)

/-- An infinite number of workers, an infinite version, a time limit out of range, a list as an id, and a
team count that is too long to be shown: these documents do not load, and nothing is reported. -/
theorem not_load_reports :
    Request.load (annDocument [(.str "solver", .map [(.str "num_workers", .float (.inf false))])]) =
      .error (.number .outOfRange) ∧
    Request.load (annDocument [(.str "schema_version", .float (.inf true))]) =
      .error (.number .outOfRange) ∧
    Request.load (annDocument [(.str "solver", .map [(.str "time_limit_seconds", .int (2 ^ 1024))])]) =
      .error (.number .outOfRange) ∧
    Request.load (.map [(.str "people",
      .list [.map [(.str "id", .list [.int 1]), (.str "name", .str "Ann")]])]) = .error .noKey ∧
    Request.load (annDocument [(.str "num_teams", .list [.int Numeral.leastUnwritable])]) =
      .error (.text .tooManyDigits) ∧
    ¬ Fault.IsReport (.number .outOfRange) ∧ ¬ Fault.IsReport .noKey ∧
    ¬ Fault.IsReport (.text .tooManyDigits) := by
  refine ⟨?_, ?_, ?_, ?_, ?_, nofun, nofun, nofun⟩
  · exact load_of_hasOutOfRange (.workers false rfl)
  · exact load_of_hasOutOfRange (.version true rfl)
  · exact load_of_hasOutOfRange (.timeLimit _ rfl (by decide +kernel))
  · with_unfolding_all rfl
  · exact load_teamCount (by decide +kernel)

end Request
end BalancedTeams
