import BalancedTeams.Proofs.Compile.Steps

/-!
# The walk is the recursion

* `Compiler.Keeps c d` : whatever has a variable in `c` has the same in `d`;
* `Compiler.Unwinds`, `Compiler.unwinds` : a node on top of the stack is compiled, whatever is below it;
* `Compiler.compile_eq_descend` : the walk with a stack and the recursion are one computation;
* `Compiler.compiles_of_yields` : all that a compilation does.
-/

namespace BalancedTeams
namespace Compiler
open Labelled

variable {α β : Type} {c d e : Compiler} {slot : Int} {node : Labelled} {x : Text}

/-! ## Sequences -/

theorem result_bind_of_yields {y : CompileM α} {f : α → CompileM β} {a : α} (h : Yields y c a d) :
    result (y >>= f) c = result (f a) d := by
  rw [result_bind, show result y c = _ from h]

/-- Two continuations that agree wherever the first computation succeeds. -/
theorem result_bind_congr {y : CompileM α} {f g : α → CompileM β}
    (h : ∀ a d, Yields y c a d → result (f a) d = result (g a) d) :
    result (y >>= f) c = result (y >>= g) c := by
  rw [result_bind, result_bind]
  cases hy : result y c with
  | mk r d =>
    cases r with
    | error _ => rfl
    | ok a => exact h a d hy

/-! ## What has a variable keeps it -/

/-- The memberships are the same, and nothing remembered or declared is lost. -/
structure Keeps (c d : Compiler) : Prop where
  memberships : d.memberships = c.memberships
  memo : ∀ (k : String × Int) (x : Text), c.memo[k]? = some x → d.memo[k]? = some x
  declares : ∀ x, c.builder.declares x = true → d.builder.declares x = true

theorem Keeps.refl (c : Compiler) : c.Keeps c := ⟨rfl, fun _ _ h => h, fun _ h => h⟩

theorem Keeps.trans (h : c.Keeps d) (h' : d.Keeps e) : c.Keeps e :=
  ⟨h'.memberships.trans h.memberships, fun _ _ hx => h'.memo _ _ (h.memo _ _ hx),
    fun _ hx => h'.declares _ (h.declares _ hx)⟩

/-- An indicator for a label that was not remembered at first. -/
theorem Keeps.record {l : String} {p : Text} {g : Gate} (h : c.Keeps d)
    (hnone : c.memo[(l, slot)]? = none) (hadds : d.Adds p g e)
    (hmemo : e.memo = d.memo.insert (l, slot) p) : c.Keeps e where
  memberships := hadds.memberships.trans h.memberships
  memo := by
    intro k x hx
    rw [hmemo, Std.HashMap.getElem?_insert]
    split
    · next heq =>
      rw [← eq_of_beq heq, hnone] at hx
      cases hx
    · exact h.memo k x hx
  declares := fun x hx => (hadds.declares_iff x).2 (Or.inl (h.declares x hx))

namespace Compiles

theorem keeps (h : Compiles slot node c x d) : c.Keeps d := by
  induction h with
  | person | pinned | known => exact .refl _
  | pin hadds hmemo =>
    exact ⟨hadds.memberships, fun _ _ hx => hmemo ▸ hx,
      fun x hx => (hadds.declares_iff x).2 (Or.inl hx)⟩
  | not hnone _ _ hadds hmemo ih => exact ih.record hnone hadds hmemo
  | and hnone _ _ _ hadds hmemo ihf ihg | or hnone _ _ _ hadds hmemo ihf ihg =>
    exact (ihf.trans ihg).record hnone hadds hmemo

/-- A compiled formula has its variable from then on. -/
theorem yields_compiled? (h : Compiles slot node c x d) (hkeeps : d.Keeps e) :
    Yields (compiled? slot node) e (some x) e := by
  have hmemo : ∀ {n : Labelled}, n.isLeaf = false → d.memo[(n.label, slot)]? = some x →
      Yields (compiled? slot n) e (some x) e := by
    intro n hn hx
    cases n with
    | person | always => cases hn
    | not | and | or =>
      rw [compiled?, yields_get_bind_iff]
      exact yields_pure_iff.2 ⟨(hkeeps.memo _ _ hx).symm, rfl⟩
  have htrue : d.builder.declares trueName = true → ∀ l,
      Yields (compiled? slot (.always l)) e (some trueName) e := by
    intro hd l
    refine yields_bind_iff.2 ⟨trueName, e, ?_, yields_pure_iff.2 ⟨rfl, rfl⟩⟩
    rw [trueVar, yields_get_bind_iff, if_pos (hkeeps.declares _ hd)]
    exact yields_pure_iff.2 ⟨rfl, rfl⟩
  cases h with
  | person hk hx =>
    refine yields_bind_iff.2 ⟨x, e, ?_, yields_pure_iff.2 ⟨rfl, rfl⟩⟩
    refine yields_lift_bind_iff.2 ⟨_, by rw [Value.key, hk]; rfl, yields_get_bind_iff.2 ?_⟩
    rw [hkeeps.memberships, hx]
    exact yields_pure_iff.2 ⟨rfl, rfl⟩
  | pinned hd => exact htrue hd _
  | pin hadds _ => exact htrue ((hadds.declares_iff _).2 (Or.inr rfl)) _
  | known hn hx => exact hmemo hn hx
  | not _ _ _ _ hinsert | and _ _ _ _ _ hinsert | or _ _ _ _ _ hinsert =>
    exact hmemo rfl (by rw [hinsert]; exact Std.HashMap.getElem?_insert_self)

theorem yields_operand (h : Compiles slot node c x d) (hkeeps : d.Keeps e) :
    Yields (operand slot node) e x e :=
  yields_bind_iff.2 ⟨some x, e, h.yields_compiled? hkeeps, yields_pure_iff.2 ⟨rfl, rfl⟩⟩

end Compiles

/-! ## The stack -/

theorem result_compiled? (hnode : node.isLeaf = false) (c : Compiler) :
    result (compiled? slot node) c = (.ok c.memo[(node.label, slot)]?, c) := by
  cases node with
  | person | always => cases hnode
  | not | and | or => rfl

theorem yields_descend_of_memo (hnode : node.isLeaf = false)
    (h : c.memo[(node.label, slot)]? = some x) : Yields (descend slot node) c x c := by
  cases node with
  | person | always => cases hnode
  | not l f | and l f g | or l f g =>
    replace h : c.memo[(l, slot)]? = some x := h
    rw [descend, yields_get_bind_iff, h]
    exact yields_pure_iff.2 ⟨rfl, rfl⟩

/-- A node on top of the stack is compiled as by the recursion, and then the rest is worked off. -/
def Unwinds (slot : Int) (node : Labelled) : Prop :=
  ∀ rest c, result (walk slot ((node, false) :: rest)) c =
    result (descend slot node >>= fun _ => walk slot rest) c

/-- The children of a node and then the node itself, which finds the variables of both again. -/
theorem Unwinds.two {f g : Labelled} {define : Text → Text → CompileM Text} (hf : Unwinds slot f)
    (hg : Unwinds slot g)
    (hemit : emit slot node = operand slot f >>= fun a => operand slot g >>= define a)
    (rest : List Pending) (c : Compiler) :
    result (walk slot ((f, false) :: (g, false) :: (node, true) :: rest)) c =
      result ((descend slot f >>= fun a => descend slot g >>= define a) >>= fun _ =>
        walk slot rest) c := by
  rw [hf, bind_assoc]
  refine result_bind_congr fun a d hleft => ?_
  rw [hg, bind_assoc]
  refine result_bind_congr fun b e hright => ?_
  have hcompright := compiles_of_yields_descend hright
  have ha := (compiles_of_yields_descend hleft).yields_operand hcompright.keeps
  have hb := hcompright.yields_operand (.refl _)
  rw [walk, hemit, bind_assoc, result_bind_of_yields ha, bind_assoc, result_bind_of_yields hb]

/-- Every node unwinds. By induction on the node: when its children are done, they have the variables
that the recursion found for them. -/
theorem unwinds (slot : Int) (node : Labelled) : Unwinds slot node := by
  induction node with
  | person | always =>
    intro rest c
    rw [walk, compiled?, descend, bind_assoc]
    rfl
  | not l f ih =>
    intro rest c
    rw [walk, descend, result_bind, result_compiled? rfl, bind_assoc, result_bind, label]
    change _ = result _ c
    cases hmemo : c.memo[(l, slot)]? with
    | some p => rfl
    | none =>
      change result (walk slot ((f, false) :: (.not l f, true) :: rest)) c = _
      rw [ih, bind_assoc]
      refine result_bind_congr fun a d hf => ?_
      have ha := (compiles_of_yields_descend hf).yields_operand (.refl _)
      rw [walk, emit, bind_assoc, result_bind_of_yields ha]
  | and l f g ihf ihg | or l f g ihf ihg =>
    intro rest c
    rw [walk, descend, result_bind, result_compiled? rfl, bind_assoc, result_bind, label]
    change _ = result _ c
    cases hmemo : c.memo[(l, slot)]? with
    | some p => rfl
    | none => exact ihf.two ihg (by rw [emit]) rest c

/-- After the walk over a node, its variable is that of the recursion. -/
theorem result_walk_bind_operand (slot : Int) (node : Labelled) (c : Compiler) :
    result (walk slot [(node, false)] >>= fun _ => operand slot node) c =
      result (descend slot node) c := by
  have hwalk : result (walk slot [(node, false)] >>= fun _ => operand slot node) c =
      result (descend slot node >>= fun _ => operand slot node) c := by
    rw [result_bind, unwinds, ← result_bind, bind_assoc, walk, pure_bind]
  rw [hwalk]
  conv_rhs => rw [← bind_pure (descend slot node)]
  exact result_bind_congr fun x d h => (compiles_of_yields_descend h).yields_operand (.refl _)

/-- **The walk with a stack is the recursion on the formula**, also where it fails. -/
theorem compile_eq_descend (slot : Int) (node : Labelled) :
    compile slot node = descend slot node := by
  suffices key : ∀ c, result (compile slot node) c = result (descend slot node) c from funext key
  intro c
  cases node with
  | person | always =>
    rw [compile, compiled?, descend, bind_assoc]
    simp only [pure_bind, bind_pure]
  | not l f | and l f g | or l f g =>
    rw [compile, result_bind, result_compiled? rfl, label]
    cases hmemo : c.memo[(l, slot)]? with
    | some p => exact (yields_descend_of_memo rfl hmemo).symm
    | none => exact result_walk_bind_operand slot _ c

theorem compiles_of_yields {c' : Compiler} (h : Yields (compile slot node) c x c') :
    Compiles slot node c x c' :=
  compiles_of_yields_descend (compile_eq_descend slot node ▸ h)

end Compiler
end BalancedTeams
