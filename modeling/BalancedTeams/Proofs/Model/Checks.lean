import BalancedTeams.Model
import BalancedTeams.Proofs.Runs
import Mathlib.Data.List.Nodup

/-!
# What the checks of a request say

* `DistinctKeys` : ids that can be looked up and told apart; `keysIn` : the keys of ids;
* `Request.check_eq_ok_iff` : the requests that pass, with their team counts;
* `Request.model_eq_ok_iff` : the requests that have a model, with its parts.
-/

namespace BalancedTeams

/-- All ids have keys, no two the same. -/
structure DistinctKeys (ids : List Value) : Prop where
  keyed : ∀ id ∈ ids, id.key?.isSome = true
  nodup : (ids.map Value.key?).Nodup

theorem orNoKey_eq_ok_iff {α : Type} {o : Option α} {a : α} : Fault.orNoKey o = .ok a ↔ o = some a := by
  cases o <;> simp [Fault.orNoKey]

theorem key_eq_ok_iff {v : Value} {k : Key} : v.key = .ok k ↔ v.key? = some k := orNoKey_eq_ok_iff

theorem text_eq_ok_iff {v : Value} {t : Text} :
    v.text = .ok t ↔ v.isWritable = true ∧ t = v.plain := by
  unfold Value.text Value.written
  split
  · next h => simp [h, eq_comm]
  · next h => simp [h]

theorem same_eq_true_iff {a b : Value} :
    a.same b = true ↔ ∃ k, a.key? = some k ∧ b.key? = some k := by
  rw [Value.same, Bool.and_eq_true, beq_iff_eq, Option.isSome_iff_exists]
  constructor
  · rintro ⟨⟨k, hk⟩, e⟩
    exact ⟨k, hk, e ▸ hk⟩
  · rintro ⟨k, ha, hb⟩
    exact ⟨⟨k, ha⟩, ha.trans hb.symm⟩

theorem keysOf?_eq_some_iff {ids : List Value} {keys : List Key} :
    keysOf? ids = some keys ↔ ids.map Value.key? = keys.map some := by
  rw [keysOf?]
  induction ids generalizing keys with
  | nil => cases keys <;> simp
  | cons id ids ih =>
    rw [List.mapM_cons, List.map_cons]
    cases hid : id.key? with
    | none => cases keys <;> simp
    | some k =>
      simp only [Option.pure_def, Option.bind_eq_bind, Option.bind_some, Option.bind_eq_some_iff, ih]
      cases keys with
      | nil => simp
      | cons l keys => simp [and_comm]

theorem keyed_of_keysOf? {ids : List Value} {keys : List Key} (h : keysOf? ids = some keys) :
    ∀ id ∈ ids, id.key?.isSome = true := by
  intro id hid
  have hmem : id.key? ∈ keys.map some := by
    rw [← keysOf?_eq_some_iff.1 h]
    exact List.mem_map_of_mem hid
  obtain ⟨k, -, hk⟩ := List.mem_map.1 hmem
  rw [← hk]
  rfl

theorem exists_keysOf? {ids : List Value} (h : ∀ id ∈ ids, id.key?.isSome = true) :
    ∃ keys, keysOf? ids = some keys := by
  refine ⟨ids.filterMap Value.key?, keysOf?_eq_some_iff.2 ?_⟩
  induction ids with
  | nil => rfl
  | cons id ids ih =>
    obtain ⟨hid, hrest⟩ := List.forall_mem_cons.1 h
    obtain ⟨k, hk⟩ := Option.isSome_iff_exists.1 hid
    rw [List.map_cons, List.filterMap_cons_some hk, List.map_cons, hk, ih hrest]

theorem liftText_eq_ok_iff {α : Type} {x : Except TextFault α} {a : α} :
    (liftM x : Except Fault α) = .ok a ↔ x = .ok a := by
  cases x with
  | error e => exact ⟨nofun, nofun⟩
  | ok b =>
    rw [Except.ok.injEq]
    exact ⟨fun h => Except.ok.inj h, fun h => congrArg Except.ok h⟩

theorem shown_ne_ok {α β γ : Type} {x : Except Fault α} {f : α → Fault} {g : γ → Except Fault β} {b : β} :
    (x >>= fun a => (throw (f a) : Except Fault γ) >>= g) ≠ .ok b := by
  intro h
  obtain ⟨a, -, h⟩ := bind_eq_ok_iff.1 h
  cases h

namespace DistinctKeys
variable {ids : List Value}

theorem nil : DistinctKeys [] := ⟨nofun, List.nodup_nil⟩

theorem cons_iff {id : Value} :
    DistinctKeys (id :: ids) ↔
      ∃ k, id.key? = some k ∧ DistinctKeys ids ∧ ∀ v ∈ ids, v.key? ≠ some k := by
  constructor
  · rintro ⟨hkeyed, hnodup⟩
    obtain ⟨k, hk⟩ := Option.isSome_iff_exists.1 (hkeyed id List.mem_cons_self)
    rw [List.map_cons, List.nodup_cons, hk] at hnodup
    refine ⟨k, hk, ⟨fun v hv => hkeyed v (List.mem_cons_of_mem _ hv), hnodup.2⟩, fun v hv e => ?_⟩
    exact hnodup.1 (List.mem_map.2 ⟨v, hv, e⟩)
  · rintro ⟨k, hk, ⟨hkeyed, hnodup⟩, hnew⟩
    refine ⟨List.forall_mem_cons.2 ⟨by rw [hk, Option.isSome_some], hkeyed⟩, ?_⟩
    rw [List.map_cons, List.nodup_cons, hk]
    refine ⟨fun hmem => ?_, hnodup⟩
    obtain ⟨v, hv, e⟩ := List.mem_map.1 hmem
    exact hnew v hv e

theorem keyed_map {α : Type} {f : α → Value} {xs : List α} (h : DistinctKeys (xs.map f)) :
    ∀ x ∈ xs, (f x).key?.isSome = true := fun _ hx => h.keyed _ (List.mem_map_of_mem hx)

theorem nodup_ids (h : DistinctKeys ids) : ids.Nodup := List.Nodup.of_map _ h.nodup

theorem inj (h : DistinctKeys ids) {v w : Value} (hv : v ∈ ids) (hw : w ∈ ids)
    (e : v.key? = w.key?) : v = w := List.inj_on_of_nodup_map h.nodup hv hw e

theorem of_perm {ids' : List Value} (h : DistinctKeys ids) (hperm : ids.Perm ids') : DistinctKeys ids' where
  keyed id hid := h.keyed id (hperm.symm.subset hid)
  nodup := (hperm.map _).nodup h.nodup

end DistinctKeys

def keysIn (ids : List Value) : List Key := ids.filterMap Value.key?

theorem mem_keysIn {ids : List Value} {k : Key} : k ∈ keysIn ids ↔ ∃ id ∈ ids, id.key? = some k :=
  List.mem_filterMap

theorem keysIn_cons {id : Value} {k : Key} (h : id.key? = some k) (ids : List Value) :
    keysIn (id :: ids) = k :: keysIn ids := List.filterMap_cons_some h

theorem nodup_keysIn {ids : List Value} (h : DistinctKeys ids) : (keysIn ids).Nodup := by
  have hkeys : keysIn ids = (ids.map Value.key?).filterMap id := by
    rw [List.filterMap_map]
    rfl
  rw [hkeys]
  exact h.nodup.filterMap fun a b k ha hb => ha.trans hb.symm

/-! ## Checks -/

def NewKeys (seen : List Key) (ids : List Value) : Prop :=
  DistinctKeys ids ∧ ∀ id ∈ ids, ∀ k ∈ seen, id.key? ≠ some k

theorem newKeys_cons_iff {seen : List Key} {id : Value} {ids : List Value} :
    NewKeys seen (id :: ids) ↔
      ∃ k, id.key? = some k ∧ k ∉ seen ∧ NewKeys (k :: seen) ids := by
  unfold NewKeys
  rw [DistinctKeys.cons_iff]
  constructor
  · rintro ⟨⟨k, hk, hids, hnew⟩, hseen⟩
    refine ⟨k, hk, fun hmem => hseen id List.mem_cons_self k hmem hk, hids, fun v hv l hl => ?_⟩
    rcases List.mem_cons.1 hl with rfl | hl
    · exact hnew v hv
    · exact hseen v (List.mem_cons_of_mem _ hv) l hl
  · rintro ⟨k, hk, hfresh, hids, hnew⟩
    refine ⟨⟨k, hk, hids, fun v hv => hnew v hv k List.mem_cons_self⟩, fun v hv l hl => ?_⟩
    rcases List.mem_cons.1 hv with rfl | hv
    · rintro e
      rw [hk] at e
      cases e
      exact hfresh hl
    · exact hnew v hv l (List.mem_cons_of_mem _ hl)

theorem newKeys_nil_iff {ids : List Value} : NewKeys [] ids ↔ DistinctKeys ids :=
  ⟨fun h => h.1, fun h => ⟨h, fun _ _ _ hk => absurd hk List.not_mem_nil⟩⟩

theorem checkPeople_eq_ok_iff {seen : List Key} {people : List Person} :
    checkPeople seen people = .ok () ↔ NewKeys seen (people.map Person.id) := by
  induction people generalizing seen with
  | nil => exact ⟨fun _ => ⟨.nil, nofun⟩, fun _ => rfl⟩
  | cons p rest ih =>
    rw [List.map_cons, newKeys_cons_iff, checkPeople, bind_eq_ok_iff]
    refine exists_congr fun k => and_congr key_eq_ok_iff ?_
    split
    · next hmem =>
      rw [List.contains_iff_mem] at hmem
      exact ⟨fun h => absurd h shown_ne_ok, fun h => absurd hmem h.1⟩
    · next hnew =>
      rw [List.contains_iff_mem] at hnew
      exact ih.trans ⟨fun h => ⟨hnew, h⟩, fun h => h.2⟩

theorem isPriority_iff {v : Value} : isPriority v = true ↔ ∃ n : Int, v = .int n ∧ 1 ≤ n := by
  constructor
  · intro h
    unfold isPriority at h
    split at h
    · exact ⟨_, rfl, of_decide_eq_true h⟩
    · cases h
  · rintro ⟨n, rfl, hn⟩
    exact decide_eq_true hn

theorem checkRelations_eq_ok_iff {seen : List Key} {relations : List Relation} :
    checkRelations seen relations = .ok () ↔ NewKeys seen (relations.map Relation.id) ∧
      ∀ r ∈ relations, isPriority r.priority = true := by
  induction relations generalizing seen with
  | nil => exact ⟨fun _ => ⟨⟨.nil, nofun⟩, nofun⟩, fun _ => rfl⟩
  | cons r rest ih =>
    rw [List.map_cons, newKeys_cons_iff, checkRelations, bind_eq_ok_iff, List.forall_mem_cons]
    constructor
    · rintro ⟨k, hk, h⟩
      dsimp only at h
      split at h
      · exact absurd h shown_ne_ok
      · next hnew =>
        split at h
        · exact absurd h shown_ne_ok
        · next hpriority =>
          obtain ⟨hrest, hpriorities⟩ := ih.1 h
          exact ⟨⟨k, key_eq_ok_iff.1 hk, by simpa using hnew, hrest⟩, by simpa using hpriority,
            hpriorities⟩
    · rintro ⟨⟨k, hk, hnew, hrest⟩, hpriority, hpriorities⟩
      refine ⟨k, key_eq_ok_iff.2 hk, ?_⟩
      dsimp only
      rw [if_neg (by simpa using hnew), if_neg (by simp [hpriority])]
      exact ih.2 ⟨hrest, hpriorities⟩

theorem checkTeamCount_eq_ok_iff {people n : Nat} {given : Value} :
    checkTeamCount people given = .ok n ↔ given = .int n ∧ 1 ≤ n ∧ n ≤ people := by
  unfold checkTeamCount
  split
  · next i =>
    simp only [Value.scalar.injEq, Scalar.int.injEq]
    split
    · next hlow =>
      refine ⟨fun h => absurd h ?_, fun h => by omega⟩
      cases Value.text (.int i) <;> nofun
    · split
      · next hhigh =>
        refine ⟨fun h => absurd h ?_, fun h => by omega⟩
        cases Value.text (.int i) <;> nofun
      · rw [Except.ok.injEq]
        omega
  · next hother =>
    refine ⟨fun h => absurd h ?_, fun h => absurd h.1 (hother n)⟩
    cases given.quoted <;> nofun

namespace Request
variable {r : Request} {n : Nat} {m : AssignmentModel}

theorem check_eq_ok_iff : r.check = .ok n ↔
    r.teamCount = .int n ∧ (1 ≤ n ∧ n ≤ r.people.length) ∧ DistinctKeys (r.people.map Person.id) ∧
      DistinctKeys (r.relations.map Relation.id) ∧
      ∀ rel ∈ r.relations, isPriority rel.priority = true := by
  rw [check, bind_eq_ok_iff]
  simp only [bind_eq_ok_iff, checkTeamCount_eq_ok_iff]
  constructor
  · rintro ⟨k, ⟨hcount, hk⟩, _, hpeople, _, hrelations, h⟩
    cases h
    obtain ⟨hids, hpriorities⟩ := checkRelations_eq_ok_iff.1 hrelations
    exact ⟨hcount, hk, newKeys_nil_iff.1 (checkPeople_eq_ok_iff.1 hpeople), newKeys_nil_iff.1 hids,
      hpriorities⟩
  · rintro ⟨hcount, hn, hpeople, hids, hpriorities⟩
    exact ⟨n, ⟨hcount, hn⟩, (), checkPeople_eq_ok_iff.2 (newKeys_nil_iff.2 hpeople), (),
      checkRelations_eq_ok_iff.2 ⟨newKeys_nil_iff.2 hids, hpriorities⟩, rfl⟩

theorem formulas_eq_ok_iff {nodes : List Labelled} : r.formulas = .ok nodes ↔
    ∃ ctx, Context.of? r.people r.tags r.emptyTag = .ok ctx ∧ List.Forall₂ (fun rel node =>
      ∃ f, ctx.relation rel.entries = .ok f ∧ f.labelled = .ok node) r.relations nodes := by
  rw [formulas, bind_eq_ok_iff]
  simp only [mapM_eq_ok_iff, bind_eq_ok_iff, liftText_eq_ok_iff]

/-- A model is had where the checks pass, the formulas exist and the parts can be assembled. -/
theorem model_eq_ok_iff : r.model = .ok m ↔ ∃ n nodes vars c,
    r.check = .ok n ∧ r.formulas = .ok nodes ∧
      (Compiler.assemble r.people n nodes).run .empty = (.ok vars, c) ∧
      m = c.toModel ⟨objectiveTerms r.relations vars, "maximize"⟩ (r.people.map Person.id) n
        ((r.relations.map Relation.id).zip vars) := by
  rw [model, bind_eq_ok_iff]
  simp only [bind_eq_ok_iff]
  constructor
  · rintro ⟨n, hn, nodes, hnodes, h⟩
    split at h
    · cases h
    · next vars c hrun =>
      cases h
      exact ⟨n, nodes, vars, c, hn, hnodes, hrun, rfl⟩
  · rintro ⟨n, nodes, vars, c, hn, hnodes, hrun, rfl⟩
    refine ⟨n, hn, nodes, hnodes, ?_⟩
    rw [hrun]
    rfl

end Request
end BalancedTeams
