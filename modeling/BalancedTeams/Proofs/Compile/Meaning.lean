import BalancedTeams.Proofs.Compile.Steps
import BalancedTeams.Proofs.Formula.Evaluation
import BalancedTeams.Proofs.Names

/-!
# What compiled variables mean

* `Memberships.team` : the people that an assignment puts in a team;
* `Compiler.Computes c₀ ds slot f x` : the definitions `ds` make `x` the value of `f` on a team;
* `Compiler.Since known c₀ ds c` : the invariant of compilation: `c` is `c₀` with the circuit `ds`,
  and every variable it remembers computes the formula it is remembered for;
* `Compiler.Since.step` : one more formula keeps the invariant;
* `Compiler.Since.evaluate_eq` : the value of a compiled variable is that of the evaluation.
-/

namespace BalancedTeams

/-- The people whose variable for the team has the value 1. -/
def Memberships.team (m : Memberships) (v : Text → Int) (slot : Int) (k : Key) : Bool :=
  match m.find? k slot with
  | some x => v x == 1
  | none => false

theorem Memberships.find?_insert (m : Memberships) (person : Value) (k l : Key) (s t : Int)
    (x : Text) : (m.insert person k s x).find? l t =
      if (k, s) = (l, t) then some x else m.find? l t := by
  rw [Memberships.find?, Memberships.insert, Std.HashMap.getElem?_insert]
  simp only [beq_iff_eq]
  rfl

namespace Compiler
open Labelled

/-! ## Defined variables -/

/-- The definitions give `x` the value of the formula on team `slot`. -/
inductive Computes (c₀ : Compiler) (ds : Circuit) (slot : Int) : Formula → Text → Prop
  | person {id : Value} {k : Key} {x : Text} :
      id.key? = some k → c₀.memberships.find? k slot = some x → Computes c₀ ds slot (.person id) x
  | always {x : Text} : (x, .always) ∈ ds → Computes c₀ ds slot .always x
  | not {f : Formula} {a x : Text} :
      Computes c₀ ds slot f a → (x, .not a) ∈ ds → Computes c₀ ds slot (.not f) x
  | and {f g : Formula} {a b x : Text} : Computes c₀ ds slot f a → Computes c₀ ds slot g b →
      (x, .and a b) ∈ ds → Computes c₀ ds slot (.and f g) x
  | or {f g : Formula} {a b x : Text} : Computes c₀ ds slot f a → Computes c₀ ds slot g b →
      (x, .or a b) ∈ ds → Computes c₀ ds slot (.or f g) x

/-- All membership variables are declared. -/
def IsGrounded (c : Compiler) : Prop :=
  ∀ k slot x, c.memberships.find? k slot = some x → c.builder.declares x = true

variable {c₀ c d c' : Compiler} {ds es : Circuit} {slot : Int} {f : Formula} {x : Text}

namespace Computes

theorem mono (h : Computes c₀ ds slot f x) (hsub : ds ⊆ es) : Computes c₀ es slot f x := by
  induction h with
  | person hk hx => exact .person hk hx
  | always hx => exact .always (hsub hx)
  | not _ hx ih => exact .not ih (hsub hx)
  | and _ _ hx ihf ihg => exact .and ihf ihg (hsub hx)
  | or _ _ hx ihf ihg => exact .or ihf ihg (hsub hx)

theorem isKeyed (h : Computes c₀ ds slot f x) : f.isKeyed = true := by
  induction h with
  | person hk _ => rw [Formula.isKeyed, hk, Option.isSome_some]
  | always _ => rfl
  | not _ _ ih => exact ih
  | and _ _ _ ihf ihg | or _ _ _ ihf ihg => exact Bool.and_eq_true_iff.2 ⟨ihf, ihg⟩

theorem known (h : Computes c₀ ds slot f x) (hc₀ : c₀.IsGrounded) :
    c₀.builder.declares x = true ∨ x ∈ ds.names := by
  cases h with
  | person _ hx => exact Or.inl (hc₀ _ _ _ hx)
  | always hx | not _ hx | and _ _ hx | or _ _ hx => exact Or.inr (List.mem_map.2 ⟨_, hx, rfl⟩)

/-- Where the constraints hold the variable is 1 exactly if the formula is true of the team. -/
theorem value_eq (h : Computes c₀ ds slot f x) (hc₀ : c₀.IsGrounded)
    (hwf : ds.WellFormed (c₀.builder.declares · = true)) {v : Text → Int}
    (hv : ∀ y, c₀.builder.declares y = true ∨ y ∈ ds.names → IsBit (v y))
    (hcs : ∀ k ∈ ds.constraints, k.holds v = true) :
    v x = if f.eval (c₀.memberships.team v slot) = true then 1 else 0 := by
  induction h with
  | @person id k x hk hx =>
    have hbit := hv x (Or.inl (hc₀ _ _ _ hx))
    rw [Formula.eval, hk, Option.any_some, Memberships.team, hx]
    rcases hbit with h0 | h1
    · simp [h0]
    · simp [h1]
  | always hx => exact Circuit.value_of_mem hwf hv hcs hx
  | not _ hx ih =>
    rw [Circuit.value_of_mem hwf hv hcs hx, Gate.value, ih, Formula.eval]
    cases Formula.eval _ _ <;> rfl
  | and _ _ hx ihf ihg =>
    rw [Circuit.value_of_mem hwf hv hcs hx, Gate.value, ihf, ihg, Formula.eval]
    cases Formula.eval _ _ <;> cases Formula.eval _ _ <;> rfl
  | or _ _ hx ihf ihg =>
    rw [Circuit.value_of_mem hwf hv hcs hx, Gate.value, ihf, ihg, Formula.eval]
    cases Formula.eval _ _ <;> cases Formula.eval _ _ <;> rfl

end Computes

/-! ## The invariant -/

/-- Zeros and ones for all declared variables. -/
def IsBinary (c : Compiler) (v : Text → Int) : Prop :=
  ∀ x, c.builder.declares x = true → IsBit (v x)

/-- The constraints that were recorded after those of `c₀`. -/
def emitted (c₀ c : Compiler) : List LinearConstraint :=
  c.builder.constraints.toList.drop c₀.builder.constraints.size

/-- The variable computes a formula, and it is the wanted one if no label stands for two. -/
def Stands (known : List Labelled) (c₀ : Compiler) (ds : Circuit) (slot : Int) (x : Text)
    (wanted : Formula → Prop) : Prop :=
  ∃ f, Computes c₀ ds slot f x ∧ (Distinguishes known → wanted f)

def IsCircuitName (x : Text) : Prop := x = trueName ∨ ∃ l slot, x = indicatorName l slot

/-- `c` is `c₀` after the circuit `ds` was recorded; what it remembers computes what it should. -/
structure Since (known : List Labelled) (c₀ : Compiler) (ds : Circuit) (c : Compiler) : Prop where
  builder : c₀.builder.Extends ds c.builder
  names : ∀ x ∈ ds.names, IsCircuitName x
  memberships : c.memberships = c₀.memberships
  pinned : c.builder.declares trueName = true → (trueName, Gate.always) ∈ ds
  memo : ∀ l slot x, c.memo[(l, slot)]? = some x →
    Stands known c₀ ds slot x fun f => ∀ s ∈ known, s.label = l → s.formula = f

variable {known : List Labelled} {node : Labelled} {l : String} {g : Gate}

theorem Stands.mono {wanted : Formula → Prop} (h : Stands known c₀ ds slot x wanted)
    (hsub : ds ⊆ es) : Stands known c₀ es slot x wanted := by
  obtain ⟨f, hf, hwanted⟩ := h
  exact ⟨f, hf.mono hsub, hwanted⟩

theorem since_refl (hmemo : c.memo.isEmpty = true) (htrue : c.builder.declares trueName = false) :
    Since known c [] c where
  builder := .refl _
  names := nofun
  memberships := rfl
  pinned h := by rw [htrue] at h; cases h
  memo l slot x h := by rw [Std.HashMap.getElem?_of_isEmpty hmemo] at h; cases h

namespace Since

theorem declares_iff (h : Since known c₀ ds c) (y : Text) :
    c.builder.declares y = true ↔ c₀.builder.declares y = true ∨ y ∈ ds.names :=
  h.builder.declares_iff y

theorem names_append (h : Since known c₀ ds c) (hx : IsCircuitName x) :
    ∀ y ∈ Circuit.names (ds ++ [(x, g)]), IsCircuitName y := by
  intro y hy
  rw [Circuit.names, List.map_append, List.mem_append, List.map_singleton, List.mem_singleton] at hy
  rcases hy with hy | hy
  · exact h.names y hy
  · exact hy ▸ hx

theorem declares_of_computes (h : Since known c₀ ds c) (hc₀ : c₀.IsGrounded)
    (hx : Computes c₀ ds slot f x) : c.builder.declares x = true :=
  (h.declares_iff x).2 (hx.known hc₀)

theorem pin (h : Since known c₀ ds c) (hadds : c.Adds trueName .always c')
    (hmemo : c'.memo = c.memo) : Since known c₀ (ds ++ [(trueName, .always)]) c' where
  builder := h.builder.trans (hadds.extends nofun)
  names := h.names_append (Or.inl rfl)
  memberships := hadds.memberships.trans h.memberships
  pinned _ := List.mem_append_right _ List.mem_cons_self
  memo l slot x hx := by
    rw [hmemo] at hx
    exact (h.memo l slot x hx).mono (List.subset_append_left _ _)

theorem record (h : Since known c₀ ds c) (hnode : node ∈ known)
    (hx : x = indicatorName node.label slot) (hadds : c.Adds x g c')
    (hin : ∀ a ∈ g.inputs, c.builder.declares a = true)
    (hmemo : c'.memo = c.memo.insert (node.label, slot) x)
    (hf : Computes c₀ (ds ++ [(x, g)]) slot f x)
    (hwanted : Distinguishes known → node.formula = f) :
    Since known c₀ (ds ++ [(x, g)]) c' where
  builder := h.builder.trans (hadds.extends hin)
  names := h.names_append (Or.inr ⟨_, _, hx⟩)
  memberships := hadds.memberships.trans h.memberships
  pinned htrue := by
    rcases ((hadds.extends hin).declares_iff _).1 htrue with htrue | htrue
    · exact List.mem_append_left _ (h.pinned htrue)
    · rw [Circuit.names, List.map_singleton, List.mem_singleton] at htrue
      exact absurd (htrue.trans hx).symm (indicatorName_ne_trueName _ _)
  memo l slot' y hy := by
    rw [hmemo, Std.HashMap.getElem?_insert] at hy
    split at hy
    · next heq =>
      cases hy
      cases eq_of_beq heq
      exact ⟨f, hf, fun hdist s hs hl => (hdist s hs node hnode hl).trans (hwanted hdist)⟩
    · exact (h.memo l slot' y hy).mono (List.subset_append_left _ _)

/-- The invariant after a compilation, with what its variable stands for. -/
def Step (known : List Labelled) (c₀ : Compiler) (ds : Circuit) (slot : Int) (node : Labelled)
    (x : Text) (c' : Compiler) : Prop :=
  ∃ es, ds <+: es ∧ Since known c₀ es c' ∧ Stands known c₀ es slot x (node.formula = ·)

/-- Two operands are compiled one after the other, and then their indicator. -/
theorem step_binary {left right : Labelled} {a b : Text} {e : Compiler} (hc₀ : c₀.IsGrounded)
    (hnode : node ∈ known) (hleft : Step known c₀ ds slot left a d)
    (hright : ∀ {es}, Since known c₀ es d → Step known c₀ es slot right b e)
    (hx : x = indicatorName node.label slot) (hadds : e.Adds x g c') (hg : g.inputs = [a, b])
    (hmemo : c'.memo = e.memo.insert (node.label, slot) x)
    (hcomputes : ∀ {es f₁ f₂}, Computes c₀ es slot f₁ a → Computes c₀ es slot f₂ b → (x, g) ∈ es →
      ∃ f, Computes c₀ es slot f x ∧
        (left.formula = f₁ → right.formula = f₂ → node.formula = f)) :
    Step known c₀ ds slot node x c' := by
  obtain ⟨es, hes, hd, f₁, hf₁, hw₁⟩ := hleft
  obtain ⟨es', hes', he, f₂, hf₂, hw₂⟩ := hright hd
  replace hf₁ := hf₁.mono hes'.subset
  have hin : ∀ y ∈ g.inputs, e.builder.declares y = true := by
    intro y hy
    rw [hg, List.mem_cons, List.mem_singleton] at hy
    rcases hy with rfl | rfl
    · exact he.declares_of_computes hc₀ hf₁
    · exact he.declares_of_computes hc₀ hf₂
  have hsub : es' ⊆ es' ++ [(x, g)] := List.subset_append_left _ _
  obtain ⟨f, hf, hw⟩ := hcomputes (hf₁.mono hsub) (hf₂.mono hsub)
    (List.mem_append_right _ List.mem_cons_self)
  have hwanted : Distinguishes known → node.formula = f := fun hdist => hw (hw₁ hdist) (hw₂ hdist)
  exact ⟨_, (hes.trans hes').trans (List.prefix_append _ _),
    he.record hnode hx hadds hin hmemo hf hwanted, f, hf, hwanted⟩

/-- **One more formula keeps the invariant.** By induction on the branches of its compilation. -/
theorem step (hcomp : Compiles slot node c x c') (hc₀ : c₀.IsGrounded) (hparts : node.parts ⊆ known)
    (h : Since known c₀ ds c) : Step known c₀ ds slot node x c' := by
  induction hcomp generalizing ds with
  | person hk hx =>
    exact ⟨ds, List.prefix_refl _, h, _, .person hk (h.memberships ▸ hx), fun _ => rfl⟩
  | pinned htrue =>
    exact ⟨ds, List.prefix_refl _, h, _, .always (h.pinned htrue), fun _ => rfl⟩
  | pin hadds hmemo =>
    exact ⟨_, List.prefix_append _ _, h.pin hadds hmemo, _,
      .always (List.mem_append_right _ List.mem_cons_self), fun _ => rfl⟩
  | @known node x c _ hx =>
    obtain ⟨f, hf, hwanted⟩ := h.memo _ _ _ hx
    exact ⟨ds, List.prefix_refl _, h, f, hf,
      fun hdist => hwanted hdist node (hparts node.self_mem_parts) rfl⟩
  | @not l child a x c d c' _ _ hx hadds hmemo ih =>
    obtain ⟨es, hes, hd, f, hf, hw⟩ :=
      ih (parts_subset_of_mem_children hparts List.mem_cons_self) h
    have hin : ∀ y ∈ (Gate.not a).inputs, d.builder.declares y = true := by
      intro y hy
      rw [Gate.inputs, List.mem_singleton] at hy
      exact hy ▸ hd.declares_of_computes hc₀ hf
    have hnot : Computes c₀ (es ++ [(x, .not a)]) slot (.not f) x :=
      .not (hf.mono (List.subset_append_left _ _)) (List.mem_append_right _ List.mem_cons_self)
    have hwanted : Distinguishes known → (Labelled.not l child).formula = .not f := by
      intro hdist
      rw [formula, hw hdist]
    exact ⟨_, hes.trans (List.prefix_append _ _),
      hd.record (hparts (self_mem_parts _)) hx hadds hin hmemo hnot hwanted, _, hnot, hwanted⟩
  | @and l left right a b x c d e c' _ _ _ hx hadds hmemo ihf ihg =>
    have hleft := ihf (parts_subset_of_mem_children hparts (by simp [children])) h
    refine step_binary hc₀ (hparts (self_mem_parts _)) hleft
      (ihg (parts_subset_of_mem_children hparts (by simp [children])))
      hx hadds rfl hmemo fun ha hb hmem => ⟨_, .and ha hb hmem, fun h₁ h₂ => ?_⟩
    rw [formula, h₁, h₂]
  | @or l left right a b x c d e c' _ _ _ hx hadds hmemo ihf ihg =>
    have hleft := ihf (parts_subset_of_mem_children hparts (by simp [children])) h
    refine step_binary hc₀ (hparts (self_mem_parts _)) hleft
      (ihg (parts_subset_of_mem_children hparts (by simp [children])))
      hx hadds rfl hmemo fun ha hb hmem => ⟨_, .or ha hb hmem, fun h₁ h₂ => ?_⟩
    rw [formula, h₁, h₂]

theorem emitted_eq (h : Since known c₀ ds c) : emitted c₀ c = ds.constraints := by
  rw [emitted, h.builder.constraints, ← Array.length_toList, List.drop_left]

theorem isBinary_iff (h : Since known c₀ ds c) {v : Text → Int} :
    c.IsBinary v ↔ ∀ y, c₀.builder.declares y = true ∨ y ∈ ds.names → IsBit (v y) :=
  forall_congr' fun y => imp_congr_left (h.declares_iff y)

/-- The value of a compiled variable tells what the evaluation of its node gives. -/
theorem evaluate_eq (h : Since known c₀ ds c) (hc₀ : c₀.IsGrounded) (hdist : Distinguishes known)
    (hparts : node.parts ⊆ known) (hx : Stands known c₀ ds slot x (node.formula = ·))
    {v : Text → Int} (hv : c.IsBinary v) (hcs : ∀ k ∈ emitted c₀ c, k.holds v = true) :
    node.evaluate (c₀.memberships.team v slot) = some (v x == 1) := by
  obtain ⟨f, hf, hwanted⟩ := hx
  have hformula := hwanted hdist
  have hnode : Unambiguous [node] := by
    rw [Unambiguous, List.flatMap_singleton]
    exact fun s hs t ht => hdist s (hparts hs) t (hparts ht)
  have hkeyed : node.formula.isKeyed = true := by rw [hformula]; exact hf.isKeyed
  rw [evaluate_eq_eval hnode hkeyed, hformula, hf.value_eq hc₀ h.builder.wellFormed
    (h.isBinary_iff.1 hv) (h.emitted_eq ▸ hcs)]
  cases f.eval _ <;> rfl

end Since

end Compiler
end BalancedTeams
