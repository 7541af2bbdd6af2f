import BalancedTeams.Proofs.Compile.Meaning
import BalancedTeams.Proofs.Compile.Walk
import BalancedTeams.Proofs.Model.Checks

/-!
# All that an assembly records

* `seats`, `seatName` : people with teams, and the variables of these;
* `Compiler.Seated` : the compiler once memberships are declared;
* `sizeConstraints`, `placeConstraints` : the constraints on teams and on people;
* `Compiler.Prepared` : the compiler before the formulas are compiled;
* `Compiler.Assembled` : what a compiler holds in the end, and what its variables stand for
  (`Compiler.exists_assembled`).
-/

namespace BalancedTeams

/-! ## Seats -/

/-- People with teams: person by person, each with all teams. -/
def seats (people : List Person) (teams : Nat) : List (Person × Int) :=
  people.flatMap fun p => (slots teams).map fun t => (p, t)

/-- The membership variable of a person in a team. -/
def seatName (e : Person × Int) : Text := membershipName e.1.id.plain e.2

theorem mem_seats {people : List Person} {teams : Nat} {e : Person × Int} :
    e ∈ seats people teams ↔ e.1 ∈ people ∧ e.2 ∈ slots teams := by
  obtain ⟨p, t⟩ := e
  simp [seats]

def sizeConstraints (people : List Text) (teams : Nat) (slots : List Int) : List LinearConstraint :=
  slots.flatMap fun t =>
    [⟨Compiler.teamTerms people t, Comparison.ge.text, (sizeBounds people.length teams).1,
        "team_min_" ++ toString t⟩,
      ⟨Compiler.teamTerms people t, Comparison.le.text, (sizeBounds people.length teams).2,
        "team_max_" ++ toString t⟩]

def placeConstraints (teams : Nat) (people : List Text) : List LinearConstraint :=
  people.map fun p =>
    ⟨Compiler.personTerms teams p, Comparison.eq.text, 1, "one_team_" ++ p⟩

namespace Compiler
open Labelled

variable {c c' d : Compiler}

/-! ## Memberships -/

/-- The membership variables of the seats are declared, and nothing else is recorded. -/
structure Seated (seats : List (Person × Int)) (c : Compiler) : Prop where
  vars : c.builder.vars.toList = seats.map fun e => ⟨seatName e, 0, 1⟩
  nodup : (seats.map seatName).Nodup
  constraints : c.builder.constraints.toList = []
  memo : c.memo.isEmpty = true
  /-- Every membership is the variable of a seat. -/
  sound : ∀ k t x, c.memberships.find? k t = some x →
    ∃ e ∈ seats, e.1.id.key? = some k ∧ e.2 = t ∧ x = seatName e
  /-- Every seat has a membership. -/
  complete : ∀ e ∈ seats, ∃ k x, e.1.id.key? = some k ∧ c.memberships.find? k e.2 = some x

theorem seated_empty : Seated [] .empty where
  vars := rfl
  nodup := List.nodup_nil
  constraints := rfl
  memo := by simp [empty]
  sound k t x h := by simp [empty, Memberships.empty, Memberships.find?] at h
  complete := nofun

theorem Seated.seat {done : List (Person × Int)} {p : Person} {t : Int} {u : Unit}
    (h : Seated done c)
    (hy : Yields (do declare (seatName (p, t)); register p.id t (seatName (p, t))) c u c') :
    Seated (done ++ [(p, t)]) c' := by
  obtain ⟨_, d, hd, hr⟩ := yields_bind_iff.1 hy
  have hdecl := declares_of_yields hd
  obtain ⟨k, hk, hr⟩ := yields_lift_bind_iff.1 hr
  rw [key_eq_ok_iff] at hk
  obtain rfl := yields_modify_iff.1 hr
  have hnew : seatName (p, t) ∉ done.map seatName := by
    intro hmem
    obtain ⟨e, he, hname⟩ := List.mem_map.1 hmem
    have hdone : c.builder.declares (seatName (p, t)) = true := by
      rw [Builder.declares_iff, h.vars]
      exact ⟨_, List.mem_map_of_mem he, hname⟩
    rw [hdecl.fresh] at hdone
    cases hdone
  refine ⟨?_, ?_, hdecl.constraints.trans h.constraints, ?_, ?_, ?_⟩
  · simp only [hdecl.vars, h.vars, List.map_append, List.map_singleton]
  · rw [List.map_append, List.map_singleton]
    exact List.nodup_append'.2 ⟨h.nodup, List.nodup_singleton _, by simpa using hnew⟩
  · rw [← h.memo, ← hdecl.memo]
  · intro k' t' x hx
    rw [Memberships.find?_insert] at hx
    split at hx
    · next heq =>
      cases heq
      cases hx
      exact ⟨(p, t), List.mem_append_right _ List.mem_cons_self, hk, rfl, rfl⟩
    · rw [hdecl.memberships] at hx
      obtain ⟨e, he, hek⟩ := h.sound k' t' x hx
      exact ⟨e, List.mem_append_left _ he, hek⟩
  · intro e he
    rcases List.mem_append.1 he with he | he
    · obtain ⟨k', x, hk', hx⟩ := h.complete e he
      rw [← hdecl.memberships] at hx
      by_cases heq : (k, t) = (k', e.2)
      · exact ⟨k', _, hk', by rw [Memberships.find?_insert, if_pos heq]⟩
      · exact ⟨k', x, hk', by rw [Memberships.find?_insert, if_neg heq]; exact hx⟩
    · rw [List.mem_singleton] at he
      subst he
      exact ⟨k, _, hk, by rw [Memberships.find?_insert, if_pos rfl]⟩

theorem seated_of_yields_declareMemberships {people : List Person} {teams : Nat}
    {ids : List Text} (h : Yields (declareMemberships people teams) .empty ids c) :
    ids = people.map (·.id.plain) ∧ Seated (seats people teams) c := by
  refine h.mapM_induction (I := fun done results d =>
    results = done.map (·.id.plain) ∧ Seated (seats done teams) d) ?_ ⟨rfl, seated_empty⟩
  rintro done results p y d d' - ⟨rfl, hd⟩ hy
  obtain ⟨person, htext, hy⟩ := yields_lift_bind_iff.1 hy
  obtain ⟨-, rfl⟩ := text_eq_ok_iff.1 (liftText_eq_ok_iff.1 htext)
  obtain ⟨_, e, he, hy⟩ := yields_bind_iff.1 hy
  obtain ⟨rfl, rfl⟩ := yields_pure_iff.1 hy
  refine ⟨by rw [List.map_append, List.map_singleton], ?_⟩
  rw [seats, List.flatMap_append, List.flatMap_singleton]
  refine he.forM_induction (I := fun placed d => Seated (seats done teams ++ placed.map (p, ·)) d) ?_
    (by simpa using hd)
  intro placed t d d' _ hd hy
  rw [List.map_append, ← List.append_assoc]
  exact hd.seat hy

/-! ## Teams and people -/

theorem records_of_yields_balanceTeams {people : List Text} {teams : Nat} {u : Unit}
    (h : Yields (balanceTeams people teams) c u c') :
    c.Records (sizeConstraints people teams (slots teams)) c' := by
  refine h.forM_induction (I := fun done d => c.Records (sizeConstraints people teams done) d) ?_
    (.refl c)
  intro done t d d' _ hd hy
  obtain ⟨_, e, he, hy⟩ := yields_bind_iff.1 hy
  rw [sizeConstraints, List.flatMap_append, List.flatMap_singleton]
  exact hd.trans ((records_of_yields he).trans (records_of_yields hy))

theorem records_of_yields_placeEveryone {people : List Text} {teams : Nat} {u : Unit}
    (h : Yields (placeEveryone people teams) c u c') :
    c.Records (placeConstraints teams people) c' := by
  refine h.forM_induction (I := fun done d => c.Records (placeConstraints teams done) d) ?_ (.refl c)
  intro done p d d' _ hd hy
  rw [placeConstraints, List.map_append, List.map_singleton]
  exact hd.trans (records_of_yields hy)

/-- What is recorded before the formulas are compiled: the variables of the seats, and the
constraints on teams and people. -/
structure Prepared (people : List Person) (teams : Nat) (c : Compiler) : Prop where
  vars : c.builder.vars.toList = (seats people teams).map fun e => ⟨seatName e, 0, 1⟩
  nodup : ((seats people teams).map seatName).Nodup
  constraints : c.builder.constraints.toList =
    sizeConstraints (people.map (·.id.plain)) teams (slots teams) ++
      placeConstraints teams (people.map (·.id.plain))
  memo : c.memo.isEmpty = true
  sound : ∀ k t x, c.memberships.find? k t = some x →
    ∃ e ∈ seats people teams, e.1.id.key? = some k ∧ e.2 = t ∧ x = seatName e
  complete : ∀ e ∈ seats people teams, ∃ k x,
    e.1.id.key? = some k ∧ c.memberships.find? k e.2 = some x

theorem declares_iff_of_vars {seats : List (Person × Int)}
    (h : c.builder.vars.toList = seats.map fun e => ⟨seatName e, 0, 1⟩) (x : Text) :
    c.builder.declares x = true ↔ x ∈ seats.map seatName := by
  rw [Builder.declares_iff, h]
  simp

theorem prepared_of_yields {people : List Person} {teams : Nat} {ids : List Text} {e : Compiler}
    {u w : Unit} (h : Yields (declareMemberships people teams) .empty ids c)
    (hsizes : Yields (balanceTeams ids teams) c u d) (hplaces : Yields (placeEveryone ids teams) d w e) :
    Prepared people teams e := by
  obtain ⟨rfl, hseated⟩ := seated_of_yields_declareMemberships h
  have hrecords := (records_of_yields_balanceTeams hsizes).trans
    (records_of_yields_placeEveryone hplaces)
  exact ⟨hrecords.vars.trans hseated.vars, hseated.nodup,
    by rw [hrecords.constraints, hseated.constraints, List.nil_append],
    hrecords.memo ▸ hseated.memo, hrecords.memberships ▸ hseated.sound,
    hrecords.memberships ▸ hseated.complete⟩

namespace Prepared
variable {people : List Person} {teams : Nat}

theorem declares_iff (h : Prepared people teams c) (x : Text) :
    c.builder.declares x = true ↔ x ∈ (seats people teams).map seatName :=
  declares_iff_of_vars h.vars x

theorem isGrounded (h : Prepared people teams c) : c.IsGrounded := by
  intro k t x hx
  obtain ⟨e, he, -, -, rfl⟩ := h.sound k t x hx
  exact (h.declares_iff _).2 (List.mem_map_of_mem he)

theorem declares_trueName (h : Prepared people teams c) : c.builder.declares trueName = false := by
  rw [← Bool.not_eq_true, h.declares_iff]
  intro hmem
  obtain ⟨e, -, he⟩ := List.mem_map.1 hmem
  exact membershipName_ne_trueName _ _ he

theorem find?_eq (h : Prepared people teams c) (hids : DistinctKeys (people.map Person.id))
    {p : Person} {t : Int} {k : Key} (hp : p ∈ people) (ht : t ∈ slots teams)
    (hk : p.id.key? = some k) : c.memberships.find? k t = some (seatName (p, t)) := by
  obtain ⟨k', x, hk', hx⟩ := h.complete (p, t) (mem_seats.2 ⟨hp, ht⟩)
  rw [hk, Option.some.injEq] at hk'
  subst hk'
  obtain ⟨⟨q, s⟩, he, hq, rfl, rfl⟩ := h.sound k t x hx
  have hid : q.id = p.id := hids.inj (List.mem_map_of_mem (mem_seats.1 he).1)
    (List.mem_map_of_mem hp) (hq.trans hk.symm)
  rw [hx, seatName, seatName, hid]

end Prepared

/-! ## Formulas -/

theorem since_of_yields_compileAll {known nodes : List Labelled} {teams : Nat}
    {vars : List (List Text)} (hc : c.IsGrounded) (h₀ : Since known c [] c)
    (hparts : ∀ node ∈ nodes, node.parts ⊆ known) (h : Yields (compileAll teams nodes) c vars c') :
    ∃ ds, Since known c ds c' ∧ List.Forall₂ (fun node xs => List.Forall₂
      (fun t x => Stands known c ds t x (node.formula = ·)) (slots teams) xs) nodes vars := by
  refine h.mapM_induction (I := fun done results d => ∃ ds, Since known c ds d ∧
    List.Forall₂ (fun node xs => List.Forall₂
      (fun t x => Stands known c ds t x (node.formula = ·)) (slots teams) xs) done results) ?_
    ⟨[], h₀, .nil⟩
  rintro done results node xs d d' hnode ⟨ds, hd, hresults⟩ hxs
  obtain ⟨es, hes, hd', hstands⟩ := hxs.mapM_induction (I := fun placed ys d => ∃ es, ds <+: es ∧
    Since known c es d ∧ List.Forall₂
      (fun t x => Stands known c es t x (node.formula = ·)) placed ys)
    (by
      rintro placed ys t x e e' - ⟨es, hes, he, hys⟩ hx
      obtain ⟨fs, hfs, he', hstands⟩ := he.step (compiles_of_yields hx) hc (hparts node hnode)
      exact ⟨fs, hes.trans hfs, he', List.rel_append
        (hys.imp fun _ _ hr => hr.mono hfs.subset) (.cons hstands .nil)⟩)
    ⟨ds, List.prefix_refl _, hd, .nil⟩
  refine ⟨es, hd', List.rel_append (hresults.imp fun _ _ hr => ?_) (.cons hstands .nil)⟩
  exact hr.imp fun _ _ hx => hx.mono hes.subset

/-! ## The whole -/

/-- What an assembly has recorded: after the variables and constraints of `c₀` those of a circuit,
which gives each formula its variables. -/
structure Assembled (people : List Person) (teams : Nat) (nodes : List Labelled)
    (compiled : List (List Text)) (c₀ : Compiler) (ds : Circuit) (c : Compiler) : Prop
    extends Prepared people teams c₀ where
  since : Since (nodes.flatMap parts) c₀ ds c
  stands : List.Forall₂ (fun node xs => List.Forall₂ (fun t x =>
    Stands (nodes.flatMap parts) c₀ ds t x (node.formula = ·)) (slots teams) xs) nodes compiled

theorem exists_assembled {people : List Person} {teams : Nat} {nodes : List Labelled}
    {vars : List (List Text)} (h : (assemble people teams nodes).run .empty = (.ok vars, c)) :
    ∃ c₀ ds, Assembled people teams nodes vars c₀ ds c := by
  replace h : Yields (assemble people teams nodes) .empty vars c := h
  obtain ⟨ids, c₁, hids, hrest⟩ := yields_bind_iff.1 h
  obtain ⟨_, c₂, hsizes, hrest'⟩ := yields_bind_iff.1 hrest
  obtain ⟨_, c₃, hplaces, hcompile⟩ := yields_bind_iff.1 hrest'
  have hprepared := prepared_of_yields hids hsizes hplaces
  obtain ⟨ds, hds, hstands⟩ := since_of_yields_compileAll hprepared.isGrounded
    (since_refl hprepared.memo hprepared.declares_trueName)
    (fun node hnode => parts_subset_flatMap hnode) hcompile
  exact ⟨c₃, ds, hprepared, hds, hstands⟩

namespace Assembled
variable {people : List Person} {teams : Nat} {nodes : List Labelled} {compiled : List (List Text)}
  {c₀ : Compiler} {ds : Circuit} (h : Assembled people teams nodes compiled c₀ ds c)

include h

theorem declares_compiled : ∀ xs ∈ compiled, ∀ x ∈ xs, c.builder.declares x = true := by
  intro xs hxs x hx
  obtain ⟨node, -, hstands⟩ := exists_of_mem_right h.stands hxs
  obtain ⟨t, -, f, hf, -⟩ := exists_of_mem_right hstands hx
  exact h.since.declares_of_computes h.isGrounded hf

end Assembled

end Compiler
end BalancedTeams
