import BalancedTeams.Proofs.Compile.Meaning
import BalancedTeams.Proofs.Compile.Walk

/-!
# Compilations that cannot fail

* `Labelled.gate?` : what defines a formula by the variables of its operands;
* `Compiler.result_descend` : how a formula is compiled, its operands first;
* `Compiler.IsFresh` : every indicator that is declared is remembered;
* `Compiler.Compiles.memo`, `Compiler.Compiles.isFresh` : only the labels below a node are remembered
  for it, and no indicator is lost;
* `Compiler.exists_yields_compile` : a formula whose people all have memberships is compiled.
-/

namespace BalancedTeams

def Formula.ids : Formula → List Value
  | person id => [id]
  | always => []
  | not f => f.ids
  | and f g => f.ids ++ g.ids
  | or f g => f.ids ++ g.ids

theorem Labelled.sizeOf_formula_le {node part : Labelled} (h : part ∈ node.parts) :
    sizeOf part.formula ≤ sizeOf node.formula := by
  induction node with
  | person l id | always l =>
    rw [parts, List.mem_singleton] at h
    exact Nat.le_of_eq (h ▸ rfl)
  | not l f ih =>
    rcases List.mem_cons.1 h with rfl | h
    · exact Nat.le_refl _
    · have := ih h
      simp only [formula, Formula.not.sizeOf_spec]
      omega
  | and l f g ihf ihg | or l f g ihf ihg =>
    rcases List.mem_cons.1 h with rfl | h
    · exact Nat.le_refl _
    · simp only [formula, Formula.and.sizeOf_spec, Formula.or.sizeOf_spec]
      rcases List.mem_append.1 h with h | h
      · have := ihf h
        omega
      · have := ihg h
        omega

theorem Labelled.sizeOf_formula_lt {node child : Labelled} (h : child ∈ node.children) :
    sizeOf child.formula < sizeOf node.formula := by
  cases node with
  | person | always => cases h
  | not l f =>
    rw [children, List.mem_singleton] at h
    rw [h, formula, Formula.not.sizeOf_spec]
    omega
  | and l f g | or l f g =>
    rw [children, List.mem_cons, List.mem_singleton] at h
    rcases h with rfl | rfl <;>
      simp only [formula, Formula.and.sizeOf_spec, Formula.or.sizeOf_spec] <;> omega

namespace Labelled

/-- What holds of a formula wherever it holds of its operands, holds of all formulas. -/
theorem children_induction {P : Labelled → Prop}
    (step : ∀ node, (∀ child ∈ node.children, P child) → P node) (node : Labelled) : P node := by
  induction node with
  | person l id => exact step _ nofun
  | always l => exact step _ nofun
  | not l f ih => exact step _ (List.forall_mem_singleton.2 ih)
  | and l f g ihf ihg | or l f g ihf ihg =>
    exact step _ (List.forall_mem_cons.2 ⟨ihf, List.forall_mem_singleton.2 ihg⟩)

def gate? : Labelled → List Text → Option Gate
  | always _, [] => some .always
  | not _ _, [a] => some (.not a)
  | and _ _ _, [a, b] => some (.and a b)
  | or _ _ _, [a, b] => some (.or a b)
  | _, _ => none

theorem exists_gate? {node : Labelled} {xs : List Text} (hleaf : node.isLeaf = false)
    (h : node.children.length = xs.length) :
    ∃ g, node.gate? xs = some g ∧ ∀ a ∈ g.inputs, a ∈ xs := by
  cases node with
  | person | always => cases hleaf
  | not l f =>
    obtain ⟨a, rfl⟩ := List.length_eq_one_iff.1 h.symm
    exact ⟨.not a, rfl, fun _ h => h⟩
  | and l f g =>
    obtain ⟨a, b, rfl⟩ := List.length_eq_two.1 h.symm
    exact ⟨.and a b, rfl, fun _ h => h⟩
  | or l f g =>
    obtain ⟨a, b, rfl⟩ := List.length_eq_two.1 h.symm
    exact ⟨.or a b, rfl, fun _ h => h⟩

theorem ids_of_children {node : Labelled} (h : node.isLeaf = false) :
    node.formula.ids = node.children.flatMap (·.formula.ids) := by
  cases node with
  | person | always => cases h
  | not l f => simp [formula, Formula.ids, children]
  | and l f g | or l f g => simp [formula, Formula.ids, children]

end Labelled

namespace Compiler
open Labelled

variable {c₀ c d c' : Compiler} {ds : Circuit} {slot : Int} {x p a b : Text} {known : List Labelled}
  {node : Labelled} {l : String}

/-! ## Single steps -/

theorem exists_yields_declare (h : c.builder.declares p = false) :
    ∃ c', Yields (declare p) c () c' := by
  have hok : ∃ b, (c.builder.declare p).mapError Fault.model = .ok b := by
    rw [Builder.declare, if_neg (by simp [h])]
    exact ⟨_, rfl⟩
  obtain ⟨b, hb⟩ := hok
  exact ⟨_, yields_onBuilder_iff.2 ⟨b, hb, rfl⟩⟩

section
variable {terms : Terms} {op : Comparison} {rhs : Int} {name : Text}

theorem exists_yields_require (h : ∀ t ∈ terms, c.builder.declares t.2 = true) :
    ∃ c', Yields (require terms op rhs name) c () c' := by
  have hnone : c.builder.undeclared? terms = none := Builder.undeclared?_eq_none_iff.2 h
  have hok : ∃ b, (c.builder.require terms op rhs name).mapError Fault.model = .ok b := by
    rw [Builder.require, hnone]
    exact ⟨_, rfl⟩
  obtain ⟨b, hb⟩ := hok
  exact ⟨_, yields_onBuilder_iff.2 ⟨b, hb, rfl⟩⟩

theorem exists_yields_require_bind {y : CompileM Unit}
    (h : ∀ t ∈ terms, c.builder.declares t.2 = true)
    (hy : ∀ d, (∀ x, d.builder.declares x = c.builder.declares x) → ∃ c', Yields y d () c') :
    ∃ c', Yields (require terms op rhs name >>= fun _ => y) c () c' := by
  obtain ⟨d, hd⟩ : ∃ d, Yields (require terms op rhs name) c () d := exists_yields_require h
  obtain ⟨c', hc'⟩ := hy d (records_of_yields hd).declares_eq
  exact ⟨c', yields_bind_iff.2 ⟨(), d, hd, hc'⟩⟩

end

theorem exists_yields_define {g : Gate} (hp : c.builder.declares p = true)
    (hg : ∀ a ∈ g.inputs, c.builder.declares a = true) : ∃ d, Yields (g.define p) c () d := by
  cases g with
  | always => exact exists_yields_require (by simp [hp])
  | not a =>
    have ha := hg a List.mem_cons_self
    exact exists_yields_require (by simp [hp, ha])
  | and a b | or a b =>
    have ha := hg a List.mem_cons_self
    have hb := hg b (by simp [Gate.inputs])
    refine exists_yields_require_bind (by simp [hp, ha]) fun d hd => ?_
    refine exists_yields_require_bind (by simp [hd, hp, hb]) fun e he => ?_
    exact exists_yields_require (by simp [he, hd, hp, ha, hb])

theorem exists_yields_indicator {definition : Text → CompileM Unit}
    (h : c.builder.declares (indicatorName l slot) = false)
    (hdef : ∀ d, (∀ x, d.builder.declares x = true ↔
        c.builder.declares x = true ∨ indicatorName l slot = x) →
      ∃ e, Yields (definition (indicatorName l slot)) d () e) :
    ∃ x c', Yields (indicator l slot definition) c x c' := by
  obtain ⟨d, hd⟩ := exists_yields_declare h
  obtain ⟨e, he⟩ := hdef d (declares_of_yields hd).declares_iff
  refine ⟨indicatorName l slot, _, yields_bind_iff.2 ⟨(), d, hd, yields_bind_iff.2 ⟨(), e, he,
    yields_bind_iff.2 ⟨⟨⟩, _, yields_modify_iff.2 rfl, yields_pure_iff.2 ⟨rfl, rfl⟩⟩⟩⟩⟩

theorem exists_yields_trueVar : ∃ x c', Yields trueVar c x c' := by
  unfold trueVar
  simp only [yields_get_bind_iff]
  cases htrue : c.builder.declares trueName with
  | true => exact ⟨_, _, yields_pure_iff.2 ⟨rfl, rfl⟩⟩
  | false =>
    obtain ⟨d, hd⟩ := exists_yields_declare htrue
    have hp : d.builder.declares trueName = true :=
      ((declares_of_yields hd).declares_iff _).2 (Or.inr rfl)
    obtain ⟨e, he⟩ : ∃ e, Yields (require [(1, trueName)] .eq 1 "pin_const_true") d () e :=
      exists_yields_require (by simp [hp])
    exact ⟨trueName, e, yields_bind_iff.2 ⟨(), d, hd, yields_bind_iff.2 ⟨(), e, he,
      yields_pure_iff.2 ⟨rfl, rfl⟩⟩⟩⟩

theorem result_get_bind {α : Type} (f : Compiler → CompileM α) (c : Compiler) :
    result (get >>= f) c = result (f c) c := by
  rw [result_bind]
  rfl

/-- The recursion on a compound formula that is not remembered: all its operands, and then its gate. -/
theorem result_descend (hleaf : node.isLeaf = false) (hnone : c.memo[(node.label, slot)]? = none) :
    result (descend slot node) c = result (node.children.mapM (descend slot) >>= fun xs =>
      indicator node.label slot fun p => ((node.gate? xs).map (Gate.define p)).getD (pure ())) c := by
  cases node with
  | person | always => cases hleaf
  | not l f | and l f g | or l f g =>
    replace hnone : c.memo[(l, slot)]? = none := hnone
    rw [descend, result_get_bind, hnone]
    simp only [children, List.mapM_cons, List.mapM_nil, bind_assoc, pure_bind]
    rfl

/-! ## What is remembered -/

/-- Every indicator that is declared is remembered. -/
def IsFresh (c : Compiler) : Prop :=
  ∀ l slot, c.builder.declares (indicatorName l slot) = true →
    c.memo[(l, slot)]?.isSome = true

theorem IsFresh.record {g : Gate} (h : c.IsFresh) (hx : x = indicatorName l slot)
    (hadds : c.Adds x g c') (hmemo : c'.memo = c.memo.insert (l, slot) x) : c'.IsFresh := by
  intro k t hk
  rw [hmemo, Std.HashMap.getElem?_insert]
  split
  · rfl
  · next hne =>
    rcases (hadds.declares_iff _).1 hk with hk | hk
    · exact h k t hk
    · obtain ⟨rfl, rfl⟩ := indicatorName_inj (hx.symm.trans hk)
      exact absurd (beq_self_eq_true _) hne

namespace Compiles

theorem isFresh (h : Compiles slot node c x c') (hc : c.IsFresh) : c'.IsFresh := by
  induction h with
  | person | pinned | known => exact hc
  | pin hadds hmemo =>
    intro l t hl
    rw [hmemo]
    refine hc l t (((hadds.declares_iff _).1 hl).resolve_right ?_)
    exact (indicatorName_ne_trueName l t).symm
  | not _ _ hx hadds hmemo ih => exact (ih hc).record hx hadds hmemo
  | and _ _ _ hx hadds hmemo ihf ihg | or _ _ _ hx hadds hmemo ihf ihg =>
    exact (ihg (ihf hc)).record hx hadds hmemo

/-- What is remembered after a compilation was so before or is for a label below the node. -/
theorem memo (h : Compiles slot node c x c') {e : String × Int} {y : Text}
    (hy : c'.memo[e]? = some y) :
    c.memo[e]? = some y ∨ ∃ part ∈ node.parts, part.label = e.1 := by
  have hinsert : ∀ {m : Std.HashMap (String × Int) Text} {l : String} {t : Int} {z : Text},
      (m.insert (l, t) z)[e]? = some y → m[e]? = some y ∨ l = e.1 := by
    intro m l t z hz
    rw [Std.HashMap.getElem?_insert] at hz
    split at hz
    · next heq => exact Or.inr (congrArg Prod.fst (eq_of_beq heq))
    · exact Or.inl hz
  induction h with
  | person | pinned | known => exact Or.inl hy
  | pin _ hmemo => exact Or.inl (hmemo ▸ hy)
  | not _ _ _ _ hmemo ih =>
    rcases hinsert (hmemo ▸ hy) with hy | hl
    · exact (ih hy).imp_right fun ⟨p, hp, hl⟩ => ⟨p, List.mem_cons_of_mem _ hp, hl⟩
    · exact Or.inr ⟨_, List.mem_cons_self, hl⟩
  | and _ _ _ _ _ hmemo ihf ihg | or _ _ _ _ _ hmemo ihf ihg =>
    rcases hinsert (hmemo ▸ hy) with hy | hl
    · rcases ihg hy with hy | ⟨p, hp, hl⟩
      · exact (ihf hy).imp_right fun ⟨p, hp, hl⟩ =>
          ⟨p, List.mem_cons_of_mem _ (List.mem_append_left _ hp), hl⟩
      · exact Or.inr ⟨p, List.mem_cons_of_mem _ (List.mem_append_right _ hp), hl⟩
    · exact Or.inr ⟨_, List.mem_cons_self, hl⟩

/-- The label of a node is not remembered for the nodes below it. -/
theorem memo_eq_none {child : Labelled} (h : Compiles slot child c x c') (hdist : Distinguishes known)
    (hparts : node.parts ⊆ known) (hchild : child ∈ node.children) {s : Int}
    (hnone : c.memo[(node.label, s)]? = none) : c'.memo[(node.label, s)]? = none := by
  rw [Option.eq_none_iff_forall_ne_some]
  intro y hy
  rcases h.memo hy with hy | ⟨part, hpart, hlabel⟩
  · rw [hnone] at hy
    cases hy
  · have hknown := parts_subset_of_mem_children hparts hchild hpart
    have hformula := hdist part hknown node (hparts (self_mem_parts _)) hlabel
    have hlt := Nat.lt_of_le_of_lt (sizeOf_formula_le hpart) (sizeOf_formula_lt hchild)
    rw [hformula] at hlt
    exact absurd hlt (Nat.lt_irrefl _)

end Compiles

theorem IsFresh.declares_eq_false (h : c.IsFresh) (hnone : c.memo[(l, slot)]? = none) :
    c.builder.declares (indicatorName l slot) = false := by
  rw [← Bool.not_eq_true]
  intro hdecl
  have := h l slot hdecl
  rw [hnone] at this
  cases this

/-! ## Whole formulas -/

/-- Every person of the formula has a membership in the team. -/
def HasSeats (c : Compiler) (slot : Int) (f : Formula) : Prop :=
  ∀ id ∈ f.ids, ∃ k x, id.key? = some k ∧ c.memberships.find? k slot = some x

/-- The operands of a node are compiled one after the other, and then its indicator is still new, since
the nodes below have other labels. -/
theorem exists_yields_operands {operands : List Labelled} (hc₀ : c₀.IsGrounded)
    (hdist : Distinguishes known) (hparts : node.parts ⊆ known) (hoperands : operands ⊆ node.children)
    (hdescend : ∀ child ∈ operands, ∀ {ds c}, Since known c₀ ds c → c.IsFresh →
      ∃ x c', Yields (descend slot child) c x c')
    (h : Since known c₀ ds c) (hfresh : c.IsFresh) (hnone : c.memo[(node.label, slot)]? = none) :
    ∃ xs d, Yields (operands.mapM (descend slot)) c xs d ∧ c.Keeps d ∧
      d.builder.declares (indicatorName node.label slot) = false ∧
      operands.length = xs.length ∧ ∀ a ∈ xs, d.builder.declares a = true := by
  induction operands generalizing c ds with
  | nil =>
    exact ⟨[], c, yields_pure_iff.2 ⟨rfl, rfl⟩, .refl c, hfresh.declares_eq_false hnone, rfl,
      List.forall_mem_nil _⟩
  | cons child operands ih =>
    obtain ⟨hchild, hrest⟩ := List.cons_subset.1 hoperands
    obtain ⟨x, d, hx⟩ := hdescend child List.mem_cons_self h hfresh
    have hcomp := compiles_of_yields_descend hx
    obtain ⟨es, -, hd, f, hf, -⟩ := h.step hcomp hc₀ (parts_subset_of_mem_children hparts hchild)
    have hnoned := hcomp.memo_eq_none hdist hparts hchild hnone
    obtain ⟨xs, e, hxs, hkeeps, hnew, hlength, hdeclares⟩ :=
      ih hrest (fun c hc => hdescend c (List.mem_cons_of_mem _ hc)) hd (hcomp.isFresh hfresh) hnoned
    have hdeclared := hkeeps.declares x (hd.declares_of_computes hc₀ hf)
    refine ⟨x :: xs, e, ?_, hcomp.keeps.trans hkeeps, hnew, congrArg Nat.succ hlength,
      List.forall_mem_cons.2 ⟨hdeclared, hdeclares⟩⟩
    rw [List.mapM_cons, yields_bind_iff]
    exact ⟨x, d, hx, yields_bind_iff.2 ⟨xs, e, hxs, yields_pure_iff.2 ⟨rfl, rfl⟩⟩⟩

theorem exists_yields_descend (hc₀ : c₀.IsGrounded) (hdist : Distinguishes known)
    (hparts : node.parts ⊆ known) (hseats : c₀.HasSeats slot node.formula)
    (h : Since known c₀ ds c) (hfresh : c.IsFresh) : ∃ x c', Yields (descend slot node) c x c' := by
  induction node using children_induction generalizing c ds with
  | step node ih =>
    cases hleaf : node.isLeaf with
    | true =>
      cases node with
      | not | and | or => cases hleaf
      | always l => exact exists_yields_trueVar
      | person l id =>
        obtain ⟨k, x, hk, hx⟩ := hseats id List.mem_cons_self
        refine ⟨x, c, yields_lift_bind_iff.2 ⟨k, ?_, yields_get_bind_iff.2 ?_⟩⟩
        · rw [Value.key, hk]
          rfl
        · rw [h.memberships, hx]
          exact yields_pure_iff.2 ⟨rfl, rfl⟩
    | false =>
      cases hmemo : c.memo[(node.label, slot)]? with
      | some p => exact ⟨p, c, yields_descend_of_memo hleaf hmemo⟩
      | none =>
        have hseatsBelow : ∀ child ∈ node.children, c₀.HasSeats slot child.formula := by
          intro child hchild id hid
          refine hseats id ?_
          rw [ids_of_children hleaf]
          exact List.mem_flatMap.2 ⟨child, hchild, hid⟩
        obtain ⟨xs, d, hxs, -, hnew, hlength, hdeclares⟩ :=
          exists_yields_operands hc₀ hdist hparts (List.Subset.refl _)
            (fun child hchild => ih child hchild (parts_subset_of_mem_children hparts hchild)
              (hseatsBelow child hchild)) h hfresh hmemo
        obtain ⟨g, hg, hinputs⟩ := exists_gate? hleaf hlength
        obtain ⟨x, c', hx⟩ : ∃ x c', Yields (indicator node.label slot fun p => g.define p) d x c' :=
          exists_yields_indicator hnew fun e he => exists_yields_define ((he _).2 (Or.inr rfl))
            fun a ha => (he a).2 (Or.inl (hdeclares a (hinputs a ha)))
        refine ⟨x, c', ?_⟩
        rw [Yields, result_descend hleaf hmemo, result_bind_of_yields hxs, hg]
        exact hx

/-- **A formula whose people all have memberships is compiled**, where no label stands for two
formulas. -/
theorem exists_yields_compile (hc₀ : c₀.IsGrounded) (hdist : Distinguishes known)
    (hparts : node.parts ⊆ known) (hseats : c₀.HasSeats slot node.formula)
    (h : Since known c₀ ds c) (hfresh : c.IsFresh) : ∃ x c', Yields (compile slot node) c x c' := by
  rw [compile_eq_descend]
  exact exists_yields_descend hc₀ hdist hparts hseats h hfresh

end Compiler
end BalancedTeams
