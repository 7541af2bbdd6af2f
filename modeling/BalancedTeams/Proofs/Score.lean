import BalancedTeams.Proofs.Model.Checks
import Mathlib.Algebra.BigOperators.Group.List.Basic
import Mathlib.Algebra.Ring.Int.Defs

/-!
# What a partition is worth

* `Roster.meets_eq_evaluate` : a roster meets what is true of its members;
* `score_congr` : teams that meet the same formulas have the same score;
* `addScores_eq_ok_iff` : a relation adds its priority once for every team that meets it;
* `Meets` : the formula of a relation, with its truth on each team;
* `IsWorth`, `score_eq_ok_iff` : the scores there are, as sums over the relations;
* `score_eq` : the score where priorities are integers;
* `weighted_map` : the same as a sum over all relations and teams.
-/

namespace BalancedTeams

theorem Roster.meets_eq_evaluate {team : Roster} (hteam : ∀ id ∈ team, id.key?.isSome = true)
    (node : Labelled) : team.meets node = Fault.orNoKey (node.evaluate team.holds) := by
  obtain ⟨keys, hkeys⟩ := exists_keysOf? hteam
  have hholds : keys.contains = team.holds := by
    funext k
    have hmem := congrArg (some k ∈ ·) (keysOf?_eq_some_iff.1 hkeys)
    rw [Bool.eq_iff_iff, List.contains_iff_mem, Roster.holds, List.any_eq_true]
    simpa using hmem.symm
  unfold Roster.meets
  rw [hkeys]
  show Fault.orNoKey (node.evaluate keys.contains) = _
  rw [hholds]

theorem addScores_congr {teams teams' : List Roster}
    (h : List.Forall₂ (fun a b => ∀ node, Roster.meets a node = Roster.meets b node) teams teams')
    (node : Labelled) (priority : Value) (total : Scalar) :
    addScores node priority total teams = addScores node priority total teams' := by
  induction h generalizing total with
  | nil => rfl
  | cons hab _ ih =>
    unfold addScores at ih ⊢
    rw [List.foldlM_cons, List.foldlM_cons, hab]
    exact bind_congr ih

/-- Teams that meet the same formulas have the same score. -/
theorem score_congr {teams teams' : List Roster}
    (h : List.Forall₂ (fun a b => ∀ node, Roster.meets a node = Roster.meets b node) teams teams')
    (relations : List Relation) (people : List Person) (tags : List Tag) (policy : Text) :
    score teams relations people tags policy = score teams' relations people tags policy := by
  unfold score
  simp only [addScores_congr h]

/-- What can be added to an integer without floats: what counts as an integer. -/
theorem Scalar.add_int_eq_ok_iff {total : Int} {a s : Scalar} (hfloat : ∀ x, a ≠ .float x) :
    Scalar.add (.int total) a = .ok s ↔ ∃ n, a.integer? = some n ∧ s = .int (total + n) := by
  unfold Scalar.add Scalar.combine
  cases a with
  | float x => exact absurd rfl (hfloat x)
  | bool b => simp [isNumber, integer?, eq_comm]
  | int n => simp [isNumber, integer?, eq_comm]
  | null => simp [isNumber, integer?]
  | str t => simp [isNumber, integer?]
  | date d => simp [isNumber, integer?]
  | timestamp t => simp [isNumber, integer?]

theorem addScore_eq_ok_iff {priority : Value} (hfloat : ∀ x, priority ≠ .float x) {total : Int} {b : Bool}
    {s : Scalar} :
    (if b then do
        let n ← (liftM priority.asScalar : Except Fault Scalar)
        liftM (Scalar.add (.int total) n)
      else return .int total : Except Fault Scalar) = .ok s ↔
    (b = true → priority.integer?.isSome = true) ∧
      s = .int (total + if b then priority.integer?.getD 0 else 0) := by
  cases b with
  | false =>
    rw [if_neg Bool.false_ne_true, if_neg Bool.false_ne_true, Int.add_zero]
    exact ⟨fun h => ⟨nofun, (Except.ok.inj h).symm⟩, fun h => congrArg Except.ok h.2.symm⟩
  | true =>
    rw [if_pos rfl, if_pos rfl, bind_eq_ok_iff]
    simp only [liftNumber_eq_ok_iff]
    cases priority with
    | list items => simp [Value.asScalar, Value.integer?]
    | map fields => simp [Value.asScalar, Value.integer?]
    | scalar a =>
      have ha : ∀ x, a ≠ .float x := fun x hx => hfloat x (hx ▸ rfl)
      simp only [Value.asScalar, Except.ok.injEq, exists_eq_left', Scalar.add_int_eq_ok_iff ha,
        Value.integer?]
      cases a.integer? <;> simp

/-- A relation adds its priority once for every team that meets it. -/
theorem addScores_eq_ok_iff {node : Labelled} {priority : Value} (hfloat : ∀ x, priority ≠ .float x)
    {total : Int} {teams : List Roster} {s : Scalar} :
    addScores node priority (.int total) teams = .ok s ↔ ∃ truths : List Bool,
      List.Forall₂ (fun team b => Roster.meets team node = .ok b) teams truths ∧
      (true ∈ truths → priority.integer?.isSome = true) ∧
      s = .int (total + priority.integer?.getD 0 * truths.count true) := by
  induction teams generalizing total with
  | nil =>
    constructor
    · intro h
      cases h
      exact ⟨[], .nil, nofun, by simp⟩
    · rintro ⟨truths, htruths, -, rfl⟩
      cases htruths
      simp [addScores, pure, Except.pure]
  | cons team teams ih =>
    have hcount : ∀ (b : Bool) (truths : List Bool) (w : Int), total + w * ((b :: truths).count true : Int) =
        total + (if b then w else 0) + w * (truths.count true : Int) := by
      intro b truths w
      cases b with
      | false => simp
      | true => simp [Int.mul_add, Int.add_assoc, Int.add_comm]
    unfold addScores at ih ⊢
    rw [List.foldlM_cons, bind_eq_ok_iff]
    constructor
    · rintro ⟨t, ht, hrest⟩
      obtain ⟨b, hb, ht⟩ := bind_eq_ok_iff.1 ht
      obtain ⟨hinteger, rfl⟩ := (addScore_eq_ok_iff hfloat).1 ht
      obtain ⟨truths, htruths, hintegers, rfl⟩ := ih.1 hrest
      refine ⟨b :: truths, .cons hb htruths, ?_, ?_⟩
      · intro hmem
        rcases List.mem_cons.1 hmem with rfl | hmem
        · exact hinteger rfl
        · exact hintegers hmem
      · rw [hcount]
    · rintro ⟨truths, htruths, hintegers, rfl⟩
      cases htruths with
      | @cons _ b _ truths hb htruths =>
        refine ⟨_, bind_eq_ok_iff.2 ⟨b, hb, (addScore_eq_ok_iff hfloat).2 ⟨?_, rfl⟩⟩, ?_⟩
        · rintro rfl
          exact hintegers List.mem_cons_self
        · exact ih.2 ⟨truths, htruths, fun h => hintegers (List.mem_cons_of_mem _ h), by rw [hcount]⟩

/-- The relation has a formula, which is true of the teams as told. -/
def Meets (ctx : Context) (teams : List Roster) (r : Relation) (truths : List Bool) : Prop :=
  ∃ f node, ctx.relation r.entries = .ok f ∧ f.labelled = .ok node ∧
    List.Forall₂ (fun team b => Roster.meets team node = .ok b) teams truths

/-- What a relation adds: its priority for every team that meets it. There has to be an integer for
that, unless no team meets it. -/
def IsWorth (ctx : Context) (teams : List Roster) (r : Relation) (worth : Int) : Prop :=
  ∃ truths, Meets ctx teams r truths ∧ (true ∈ truths → r.priority.integer?.isSome = true) ∧
    worth = r.weight * truths.count true

theorem addRelation_eq_ok_iff {ctx : Context} {teams : List Roster} {r : Relation}
    (hfloat : ∀ x, r.priority ≠ .float x) {total : Int} {s : Scalar} :
    (do
      let f ← ctx.relation r.entries
      let node ← (liftM f.labelled : Except Fault Labelled)
      addScores node r.priority (.int total) teams) = .ok s ↔
    ∃ w, IsWorth ctx teams r w ∧ s = .int (total + w) := by
  simp only [bind_eq_ok_iff, liftText_eq_ok_iff, addScores_eq_ok_iff hfloat]
  constructor
  · rintro ⟨f, hf, node, hnode, truths, htruths, hinteger, rfl⟩
    exact ⟨_, ⟨truths, ⟨f, node, hf, hnode, htruths⟩, hinteger, rfl⟩, rfl⟩
  · rintro ⟨_, ⟨truths, ⟨f, node, hf, hnode, htruths⟩, hinteger, rfl⟩, rfl⟩
    exact ⟨f, hf, node, hnode, truths, htruths, hinteger, rfl⟩

/-- Without floats, a score is the sum of what the relations add. -/
theorem score_eq_ok_iff {ctx : Context} {people : List Person} {tags : List Tag} {policy : Text}
    {teams : List Roster} {relations : List Relation} {s : Scalar}
    (hctx : Context.of? people tags policy = .ok ctx)
    (hfloat : ∀ r ∈ relations, ∀ x, r.priority ≠ .float x) :
    score teams relations people tags policy = .ok s ↔
      ∃ worths, List.Forall₂ (IsWorth ctx teams) relations worths ∧ s = .int worths.sum := by
  have hfold : ∀ total : Int, relations.foldlM (fun total r => do
        let f ← ctx.relation r.entries
        let node ← (liftM f.labelled : Except Fault Labelled)
        addScores node r.priority total teams) (.int total) = .ok s ↔
      ∃ worths, List.Forall₂ (IsWorth ctx teams) relations worths ∧ s = .int (total + worths.sum) := by
    induction relations with
    | nil =>
      intro total
      constructor
      · intro h
        cases h
        exact ⟨[], .nil, by simp⟩
      · rintro ⟨worths, hworths, rfl⟩
        cases hworths
        simp [pure, Except.pure]
    | cons r relations ih =>
      obtain ⟨hr, hrest⟩ := List.forall_mem_cons.1 hfloat
      intro total
      rw [List.foldlM_cons, bind_eq_ok_iff]
      constructor
      · rintro ⟨t, ht, h⟩
        obtain ⟨w, hw, rfl⟩ := (addRelation_eq_ok_iff hr).1 ht
        obtain ⟨worths, hworths, rfl⟩ := (ih hrest _).1 h
        exact ⟨w :: worths, .cons hw hworths, by rw [List.sum_cons, Int.add_assoc]⟩
      · rintro ⟨worths, hworths, rfl⟩
        cases hworths with
        | @cons _ w _ worths hw hworths =>
          refine ⟨_, (addRelation_eq_ok_iff hr).2 ⟨w, hw, rfl⟩, (ih hrest _).2 ⟨worths, hworths, ?_⟩⟩
          rw [List.sum_cons, Int.add_assoc]
  rw [score, hctx, ok_bind]
  simpa only [Int.zero_add] using hfold 0

/-- The priorities of all relations, each counted for every truth. -/
def weighted (relations : List Relation) (truths : List (List Bool)) : Int :=
  (List.zipWith (fun r (bs : List Bool) => r.weight * (bs.count true : Int)) relations truths).sum

/-- The score is the sum of the priorities of all relations over the teams that meet them. -/
theorem score_eq {ctx : Context} {people : List Person} {tags : List Tag} {policy : Text}
    {teams : List Roster} {relations : List Relation} {truths : List (List Bool)}
    (hctx : Context.of? people tags policy = .ok ctx)
    (hpriorities : ∀ r ∈ relations, ∃ n : Int, r.priority = .int n)
    (h : List.Forall₂ (Meets ctx teams) relations truths) :
    score teams relations people tags policy = .ok (.int (weighted relations truths)) := by
  have hfloat : ∀ r ∈ relations, ∀ x, r.priority ≠ .float x := by
    rintro r hr x hx
    obtain ⟨n, hn⟩ := hpriorities r hr
    cases hn.symm.trans hx
  refine (score_eq_ok_iff hctx hfloat).2 ⟨_, ?_, rfl⟩
  induction h with
  | nil => exact .nil
  | cons hr _ ih =>
    obtain ⟨⟨n, hn⟩, hrest⟩ := List.forall_mem_cons.1 hpriorities
    refine .cons ⟨_, hr, fun _ => by rw [hn]; rfl, rfl⟩ (ih hrest ?_)
    exact fun r hr => hfloat r (List.mem_cons_of_mem _ hr)

theorem weighted_map {α : Type} (relations : List Relation) (items : List α) (teams : List Roster)
    (holds : α → Roster → Bool) :
    weighted relations (items.map fun a => teams.map (holds a)) =
      ((relations.zip items).map fun e =>
        (teams.map fun team => if holds e.2 team then e.1.weight else 0).sum).sum := by
  have hcount : ∀ (w : Int) (a : α), w * ((teams.map (holds a)).count true : Int) =
      (teams.map fun team => if holds a team then w else 0).sum := by
    intro w a
    induction teams with
    | nil => simp
    | cons team teams ih =>
      rw [List.map_cons, List.map_cons, List.sum_cons, ← ih]
      cases holds a team with
      | false => simp
      | true => simp [Int.mul_add, Int.add_comm]
  unfold weighted
  induction relations generalizing items with
  | nil => simp
  | cons r relations ih =>
    cases items with
    | nil => simp
    | cons a items =>
      rw [List.map_cons, List.zipWith_cons_cons, List.sum_cons, ih, hcount, List.zip_cons_cons,
        List.map_cons, List.sum_cons]

end BalancedTeams
