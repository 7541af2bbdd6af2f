import BalancedTeams.Proofs.Compile.Success

/-!
# Rows of compilations

* `Compiler.compileEach` : formulas compiled one after the other, each on its team;
* `Compiler.exists_run_compileEach` : rows that succeed;
* `Compiler.compileEach_correct` : what the variables of a row mean, and that nothing else is
  constrained.
-/

namespace BalancedTeams
namespace Compiler
open Labelled

variable {c₀ c c' : Compiler} {known : List Labelled}

/-- Compiles formulas one after the other, each on its team. -/
def compileEach (calls : List (Int × Labelled)) : CompileM (List Text) :=
  calls.mapM fun call => compile call.1 call.2

theorem since_of_yields_compileEach {calls : List (Int × Labelled)} {xs : List Text}
    (hc₀ : c₀.IsGrounded) (h₀ : Since known c₀ [] c)
    (hparts : ∀ call ∈ calls, call.2.parts ⊆ known) (h : Yields (compileEach calls) c xs c') :
    ∃ ds, Since known c₀ ds c' ∧ List.Forall₂
      (fun call x => Stands known c₀ ds call.1 x (call.2.formula = ·)) calls xs := by
  refine h.mapM_induction (I := fun done results d => ∃ ds, Since known c₀ ds d ∧ List.Forall₂
    (fun call x => Stands known c₀ ds call.1 x (call.2.formula = ·)) done results) ?_
    ⟨[], h₀, .nil⟩
  rintro done results call x d d' hcall ⟨ds, hd, hresults⟩ hx
  obtain ⟨es, hes, hd', hstands⟩ := hd.step (compiles_of_yields hx) hc₀ (hparts call hcall)
  refine ⟨es, hd', List.rel_append (hresults.imp fun _ _ hr => hr.mono hes.subset) ?_⟩
  exact .cons hstands .nil

theorem exists_run_compileEach {calls : List (Int × Labelled)} (hmemo : c.memo.isEmpty = true)
    (hc : c.IsGrounded) (htrue : c.builder.declares trueName = false) (hfresh : c.IsFresh)
    (hlabels : Unambiguous (calls.map Prod.snd))
    (hseats : ∀ call ∈ calls, c.HasSeats call.1 call.2.formula) :
    ∃ xs c', (compileEach calls).run c = (.ok xs, c') := by
  obtain ⟨xs, c', h, -⟩ : ∃ xs c', Yields (compileEach calls) c xs c' ∧
      ∃ ds, Since ((calls.map Prod.snd).flatMap parts) c ds c' ∧ c'.IsFresh :=
    Yields.exists_mapM (I := fun _ d => ∃ ds, Since _ c ds d ∧ d.IsFresh) (by
      rintro done call rest d hcalls ⟨ds, hd, hfreshd⟩
      have hcall : call ∈ calls := hcalls ▸ List.mem_append_right _ List.mem_cons_self
      have hparts := parts_subset_flatMap (List.mem_map_of_mem (f := Prod.snd) hcall)
      obtain ⟨x, d', hx⟩ := exists_yields_compile hc hlabels hparts (hseats call hcall) hd hfreshd
      have hcomp := compiles_of_yields hx
      obtain ⟨es, -, hd', -⟩ := hd.step hcomp hc hparts
      exact ⟨x, d', hx, es, hd', hcomp.isFresh hfreshd⟩)
    ⟨[], since_refl hmemo htrue, hfresh⟩
  exact ⟨xs, c', h⟩

/-- **Compiled variables mean their formulas, and nothing else is constrained.** In every binary
assignment that meets the constraints recorded by the compilations, the variable of each is 1 exactly
if the formula is true of the team, and every binary assignment of the variables there were before
extends in exactly one way. -/
theorem compileEach_correct {calls : List (Int × Labelled)} {xs : List Text}
    (hmemo : c.memo.isEmpty = true) (hc : c.IsGrounded)
    (htrue : c.builder.declares trueName = false)
    (hlabels : Unambiguous (calls.map Prod.snd))
    (h : (compileEach calls).run c = (.ok xs, c')) :
    (c.builder.vars.toList <+: c'.builder.vars.toList ∧
      c.builder.constraints.toList <+: c'.builder.constraints.toList) ∧
    (∀ v, c'.IsBinary v → (∀ k ∈ emitted c c', k.holds v = true) →
      List.Forall₂ (fun call x =>
        call.2.evaluate (c.memberships.team v call.1) = some (v x == 1)) calls xs) ∧
    ∀ v, c.IsBinary v → ∃ w,
      ((∀ x, c.builder.declares x = true → w x = v x) ∧ c'.IsBinary w ∧
        ∀ k ∈ emitted c c', k.holds w = true) ∧
      ∀ u, (∀ x, c.builder.declares x = true → u x = v x) → c'.IsBinary u →
        (∀ k ∈ emitted c c', k.holds u = true) → ∀ x, c'.builder.declares x = true → u x = w x := by
  have hparts : ∀ call ∈ calls, call.2.parts ⊆ (calls.map Prod.snd).flatMap parts :=
    fun call hcall => parts_subset_flatMap (List.mem_map_of_mem hcall)
  obtain ⟨ds, hds, hxs⟩ := since_of_yields_compileEach hc (since_refl hmemo htrue) hparts h
  refine ⟨⟨⟨_, hds.builder.vars.symm⟩, ⟨_, hds.builder.constraints.symm⟩⟩, ?_, ?_⟩
  · intro v hv hcs
    refine ((List.forall₂_and_left _ _).2 ⟨hparts, hxs⟩).imp ?_
    rintro call x ⟨hcall, hx⟩
    exact hds.evaluate_eq hc hlabels hcall hx hv hcs
  · intro v hv
    obtain ⟨w, ⟨hwv, hwbit, hwcs⟩, huniq⟩ :=
      Circuit.exists_unique_extension hds.builder.wellFormed (v := v) hv
    rw [hds.emitted_eq]
    simp only [hds.isBinary_iff, hds.declares_iff]
    exact ⟨w, ⟨hwv, hwbit, hwcs⟩, huniq⟩

/-- A person and not the same person, compiled twice on one team. -/
theorem compileEach_twice :
    let a : Labelled := .person "a" (.str "a")
    let calls : List (Int × Labelled) := [(0, .and "f" a (.not "g" a)), (0, .and "f" a (.not "g" a))]
    let c : Compiler :=
      { builder :=
          { vars := #[⟨"x_a_0", 0, 1⟩]
            constraints := #[]
            names := (∅ : Std.HashSet Text).insert "x_a_0"
            mem_names := by simp }
        memberships := Memberships.empty.insert (.str "a") (.str "a") 0 "x_a_0"
        memo := ∅ }
    ∃ xs c', (compileEach calls).run c = (.ok xs, c') ∧
      ∀ v, c'.IsBinary v → (∀ k ∈ emitted c c', k.holds v = true) →
        List.Forall₂ (fun call x =>
          call.2.evaluate (c.memberships.team v call.1) = some (v x == 1)) calls xs := by
  intro a calls c
  have hdeclares : ∀ x, c.builder.declares x = true ↔ x = "x_a_0" := by
    intro x
    rw [Builder.declares_iff]
    simp [c, eq_comm]
  have hfind : ∀ k t, c.memberships.find? k t = if ((.str "a" : Key), (0 : Int)) = (k, t) then
      some ("x_a_0" : Text) else none := by
    intro k t
    rw [Memberships.find?_insert]
    simp [Memberships.find?, Memberships.empty]
  have hmemo : c.memo.isEmpty = true := by simp [c]
  have hgrounded : c.IsGrounded := by
    intro k t x hx
    rw [hfind] at hx
    split at hx
    · cases hx
      exact (hdeclares _).2 rfl
    · cases hx
  have htrue : c.builder.declares trueName = false := by
    rw [← Bool.not_eq_true, hdeclares]
    decide
  have hfresh : c.IsFresh := by
    intro l t hl
    exact absurd ((hdeclares _).1 hl) (by simp [indicatorName, Text.ofString])
  have hlabels : Unambiguous (calls.map Prod.snd) := by decide
  have hseats : ∀ call ∈ calls, c.HasSeats call.1 call.2.formula := by
    intro call hcall id hid
    have hcall' : call = (0, .and "f" a (.not "g" a)) := by simpa [calls] using hcall
    have hid' : id = .str "a" := by simpa [hcall', a, formula, Formula.ids] using hid
    exact ⟨.str "a", "x_a_0", hid' ▸ rfl, by rw [hfind, hcall', if_pos rfl]⟩
  obtain ⟨xs, c', hrun⟩ := exists_run_compileEach hmemo hgrounded htrue hfresh hlabels hseats
  exact ⟨xs, c', hrun, (compileEach_correct hmemo hgrounded htrue hlabels hrun).2.1⟩

end Compiler
end BalancedTeams
