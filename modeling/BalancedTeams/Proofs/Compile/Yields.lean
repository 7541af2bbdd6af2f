import BalancedTeams.Formula.Compile
import BalancedTeams.Proofs.Runs

/-!
# Compilations that succeed

* `Compiler.Yields x c a c'` : `x` succeeds on the compiler `c` with `a` and leaves `c'`;
* `Compiler.yields_bind_iff` and its like : what a successful computation has done, by its form;
* `Compiler.Declares`, `Compiler.Records` : what the builder has done when a variable is declared and
  when constraints are recorded;
* `Compiler.Yields.mapM_induction`, `Compiler.Yields.forM_induction` : what holds after each item of a
  list holds after all of them;
* `Compiler.Yields.exists_mapM`, `Compiler.Yields.exists_forM` : lists that can be worked off.
-/

namespace BalancedTeams

theorem Builder.declares_iff {b : Builder} {s : Text} :
    b.declares s = true ↔ ∃ x ∈ b.vars.toList, x.name = s := by
  rw [Builder.declares, Std.HashSet.contains_iff_mem, b.mem_names]

theorem Builder.declares_iff_of_vars {b b' : Builder} {xs : List Variable}
    (h : b'.vars.toList = b.vars.toList ++ xs) (s : Text) :
    b'.declares s = true ↔ b.declares s = true ∨ ∃ x ∈ xs, x.name = s := by
  rw [Builder.declares_iff, Builder.declares_iff, h]
  simp only [List.mem_append, or_and_right, exists_or]

theorem Builder.undeclared?_eq_none_iff {b : Builder} {terms : Terms} :
    b.undeclared? terms = none ↔ ∀ t ∈ terms, b.declares t.2 = true := by
  rw [Builder.undeclared?, Option.map_eq_none_iff, List.find?_eq_none]
  simp

namespace Compiler

variable {α β : Type} {c c' : Compiler}

def result (x : CompileM α) (c : Compiler) : Except Fault α × Compiler := x.run c

/-- The computation succeeds with `a` and leaves the compiler `c'`. -/
def Yields (x : CompileM α) (c : Compiler) (a : α) (c' : Compiler) : Prop :=
  result x c = (.ok a, c')

theorem result_bind (x : CompileM α) (f : α → CompileM β) (c : Compiler) :
    result (x >>= f) c = match result x c with
      | (.ok a, d) => result (f a) d
      | (.error e, d) => (.error e, d) := by
  have h : result (x >>= f) c =
      (fun r : Except Fault α × Compiler => ExceptT.bindCont f r.1 r.2) (result x c) := rfl
  rw [h]
  rcases result x c with ⟨_ | a, d⟩ <;> rfl

theorem yields_bind_iff {x : CompileM α} {f : α → CompileM β} {b : β} :
    Yields (x >>= f) c b c' ↔ ∃ a d, Yields x c a d ∧ Yields (f a) d b c' := by
  unfold Yields
  rw [result_bind]
  rcases result x c with ⟨e | a, d⟩
  · simp
  · constructor
    · intro h
      exact ⟨a, d, rfl, h⟩
    · rintro ⟨a', d', h, h'⟩
      cases h
      exact h'

theorem yields_pure_iff {a b : α} : Yields (pure a) c b c' ↔ b = a ∧ c' = c := by
  have h : result (pure a) c = (.ok a, c) := rfl
  rw [Yields, h, Prod.mk.injEq, Except.ok.injEq, eq_comm, eq_comm (a := c)]

theorem yields_get_iff {d : Compiler} : Yields get c d c' ↔ d = c ∧ c' = c := by
  have h : result get c = (.ok c, c) := rfl
  rw [Yields, h, Prod.mk.injEq, Except.ok.injEq, eq_comm, eq_comm (a := c)]

theorem yields_modify_iff {f : Compiler → Compiler} {u : PUnit} :
    Yields (modify f) c u c' ↔ c' = f c := by
  have h : result (modify f) c = (.ok ⟨⟩, f c) := rfl
  rw [Yields, h, Prod.mk.injEq]
  exact ⟨fun h => h.2.symm, fun h => ⟨rfl, h.symm⟩⟩

theorem not_yields_throw {e : Fault} {a : α} : ¬ Yields (throw e) c a c' := by
  intro h
  cases h

theorem yields_lift_iff {x : Except Fault α} {a : α} :
    Yields (liftM x : CompileM α) c a c' ↔ x = .ok a ∧ c' = c := by
  have h : result (liftM x : CompileM α) c = (x, c) := rfl
  rw [Yields, h, Prod.mk.injEq, eq_comm (a := c)]

theorem yields_get_bind_iff {f : Compiler → CompileM α} {a : α} :
    Yields (get >>= f) c a c' ↔ Yields (f c) c a c' := by
  rw [yields_bind_iff]
  constructor
  · rintro ⟨_, _, hget, h⟩
    obtain ⟨rfl, rfl⟩ := yields_get_iff.1 hget
    exact h
  · intro h
    exact ⟨c, c, yields_get_iff.2 ⟨rfl, rfl⟩, h⟩

theorem yields_lift_bind_iff {x : Except Fault α} {f : α → CompileM β} {b : β} :
    Yields ((liftM x : CompileM α) >>= f) c b c' ↔ ∃ a, x = .ok a ∧ Yields (f a) c b c' := by
  rw [yields_bind_iff]
  refine exists_congr fun a => ⟨?_, fun ⟨ha, h⟩ => ⟨c, yields_lift_iff.2 ⟨ha, rfl⟩, h⟩⟩
  rintro ⟨d, hx, h⟩
  obtain ⟨ha, rfl⟩ := yields_lift_iff.1 hx
  exact ⟨ha, h⟩

/-! ## Changes of the builder -/

theorem yields_onBuilder_iff {f : Builder → Except Fault Builder} {u : Unit} :
    Yields (onBuilder f) c u c' ↔ ∃ b, f c.builder = .ok b ∧ c' = { c with builder := b } := by
  unfold onBuilder
  rw [yields_get_bind_iff]
  constructor
  · intro h
    split at h
    · next b hb =>
      refine ⟨b, hb, ?_⟩
      cases h
      rfl
    · exact absurd h not_yields_throw
  · rintro ⟨b, hb, rfl⟩
    rw [hb]
    rfl

/-- A variable is declared under a new name. -/
structure Declares (c : Compiler) (p : Text) (c' : Compiler) : Prop where
  fresh : c.builder.declares p = false
  vars : c'.builder.vars.toList = c.builder.vars.toList ++ [⟨p, 0, 1⟩]
  constraints : c'.builder.constraints.toList = c.builder.constraints.toList
  memberships : c'.memberships = c.memberships
  memo : c'.memo = c.memo

theorem Declares.declares_iff {p : Text} (h : c.Declares p c') (x : Text) :
    c'.builder.declares x = true ↔ c.builder.declares x = true ∨ p = x := by
  rw [Builder.declares_iff_of_vars h.vars]
  simp

theorem declares_of_yields {p : Text} {u : Unit} (h : Yields (declare p) c u c') :
    c.Declares p c' := by
  obtain ⟨b, hb, rfl⟩ := yields_onBuilder_iff.1 h
  unfold Builder.declare at hb
  split at hb
  · cases hb
  · next hnew =>
    cases hb
    exact ⟨by simpa using hnew, by simp, rfl, rfl, rfl⟩

/-- Constraints over declared variables are recorded. -/
structure Records (c : Compiler) (ks : List LinearConstraint) (c' : Compiler) : Prop where
  declared : ∀ k ∈ ks, ∀ t ∈ k.terms, c.builder.declares t.2 = true
  vars : c'.builder.vars.toList = c.builder.vars.toList
  constraints : c'.builder.constraints.toList = c.builder.constraints.toList ++ ks
  memberships : c'.memberships = c.memberships
  memo : c'.memo = c.memo

theorem Records.refl (c : Compiler) : c.Records [] c := ⟨by simp, rfl, by simp, rfl, rfl⟩

theorem Records.declares_eq {ks : List LinearConstraint} (h : c.Records ks c') (x : Text) :
    c'.builder.declares x = c.builder.declares x := by
  rw [Bool.eq_iff_iff, Builder.declares_iff, Builder.declares_iff, h.vars]

theorem Records.trans {d : Compiler} {ks ls : List LinearConstraint} (h : c.Records ks c')
    (h' : c'.Records ls d) : c.Records (ks ++ ls) d where
  declared := by
    intro k hk t ht
    rcases List.mem_append.1 hk with hk | hk
    · exact h.declared k hk t ht
    · exact h.declares_eq t.2 ▸ h'.declared k hk t ht
  vars := h'.vars.trans h.vars
  constraints := by rw [h'.constraints, h.constraints, List.append_assoc]
  memberships := h'.memberships.trans h.memberships
  memo := h'.memo.trans h.memo

theorem records_of_yields {terms : Terms} {op : Comparison} {rhs : Int} {name : Text} {u : Unit}
    (h : Yields (require terms op rhs name) c u c') :
    c.Records [⟨terms, op.text, rhs, name⟩] c' := by
  obtain ⟨b, hb, rfl⟩ := yields_onBuilder_iff.1 h
  unfold Builder.require at hb
  split at hb
  · cases hb
  · next hnone =>
    cases hb
    refine ⟨?_, rfl, by simp [Builder.push], rfl, rfl⟩
    rw [Builder.undeclared?_eq_none_iff] at hnone
    simpa using hnone

/-! ## Lists -/

/-- What one item keeps, when the items before it are done and their results known, holds after all
of them. -/
theorem Yields.mapM_induction {f : α → CompileM β} {I : List α → List β → Compiler → Prop}
    {xs : List α} {ys : List β}
    (step : ∀ done results x y d d', x ∈ xs → I done results d → Yields (f x) d y d' →
      I (done ++ [x]) (results ++ [y]) d')
    (h : Yields (xs.mapM f) c ys c') (h0 : I [] [] c) : I xs ys c' := by
  suffices key : ∀ (done : List α) (results : List β) (ys : List β) (c : Compiler),
      Yields (xs.mapM f) c ys c' → I done results c → I (done ++ xs) (results ++ ys) c' from
    key [] [] ys c h h0
  clear h h0
  induction xs with
  | nil =>
    intro done results ys c h hI
    rw [List.mapM_nil] at h
    obtain ⟨rfl, rfl⟩ := yields_pure_iff.1 h
    simpa using hI
  | cons x xs ih =>
    intro done results ys c h hI
    rw [List.mapM_cons] at h
    obtain ⟨y, d, hy, h⟩ := yields_bind_iff.1 h
    obtain ⟨zs, e, hzs, h⟩ := yields_bind_iff.1 h
    obtain ⟨rfl, rfl⟩ := yields_pure_iff.1 h
    have hnext := step done results x y c d List.mem_cons_self hI hy
    have := ih (fun done results z w e e' hz => step done results z w e e' (List.mem_cons_of_mem _ hz))
      (done ++ [x]) (results ++ [y]) zs d hzs hnext
    simpa using this

/-- Where every item can follow those before it, all of them can be done. -/
theorem Yields.exists_mapM {f : α → CompileM β} {I : List α → Compiler → Prop} {xs : List α}
    (step : ∀ done x rest d, xs = done ++ x :: rest → I done d →
      ∃ y d', Yields (f x) d y d' ∧ I (done ++ [x]) d') (h0 : I [] c) :
    ∃ ys c', Yields (xs.mapM f) c ys c' ∧ I xs c' := by
  suffices key : ∀ (todo done : List α) (c : Compiler), xs = done ++ todo → I done c →
      ∃ ys c', Yields (todo.mapM f) c ys c' ∧ I xs c' from key xs [] c rfl h0
  intro todo
  induction todo with
  | nil =>
    rintro done c rfl hI
    exact ⟨[], c, yields_pure_iff.2 ⟨rfl, rfl⟩, by rwa [List.append_nil]⟩
  | cons x todo ih =>
    intro done c hxs hI
    obtain ⟨y, d, hy, hd⟩ := step done x todo c hxs hI
    obtain ⟨ys, c', hys, hc'⟩ := ih (done ++ [x]) d (by rw [hxs, List.append_assoc]; rfl) hd
    refine ⟨y :: ys, c', ?_, hc'⟩
    rw [List.mapM_cons, yields_bind_iff]
    exact ⟨y, d, hy, yields_bind_iff.2 ⟨ys, c', hys, yields_pure_iff.2 ⟨rfl, rfl⟩⟩⟩

theorem Yields.exists_forM {f : α → CompileM PUnit} {I : List α → Compiler → Prop} {xs : List α}
    (step : ∀ done x rest d, xs = done ++ x :: rest → I done d →
      ∃ d', Yields (f x) d ⟨⟩ d' ∧ I (done ++ [x]) d') (h0 : I [] c) :
    ∃ c', Yields (xs.forM f) c ⟨⟩ c' ∧ I xs c' := by
  suffices key : ∀ (todo done : List α) (c : Compiler), xs = done ++ todo → I done c →
      ∃ c', Yields (todo.forM f) c ⟨⟩ c' ∧ I xs c' from key xs [] c rfl h0
  intro todo
  induction todo with
  | nil =>
    rintro done c rfl hI
    exact ⟨c, yields_pure_iff.2 ⟨rfl, rfl⟩, by rwa [List.append_nil]⟩
  | cons x todo ih =>
    intro done c hxs hI
    obtain ⟨d, hy, hd⟩ := step done x todo c hxs hI
    obtain ⟨c', hys, hc'⟩ := ih (done ++ [x]) d (by rw [hxs, List.append_assoc]; rfl) hd
    refine ⟨c', ?_, hc'⟩
    change Yields (f x >>= fun _ => todo.forM f) c ⟨⟩ c'
    exact yields_bind_iff.2 ⟨⟨⟩, d, hy, hys⟩

theorem Yields.forM_induction {f : α → CompileM PUnit} {I : List α → Compiler → Prop} {xs : List α}
    {u : PUnit} (step : ∀ done x d d', x ∈ xs → I done d → Yields (f x) d ⟨⟩ d' → I (done ++ [x]) d')
    (h : Yields (xs.forM f) c u c') (h0 : I [] c) : I xs c' := by
  suffices key : ∀ (done : List α) (c : Compiler), Yields (xs.forM f) c u c' → I done c →
      I (done ++ xs) c' from key [] c h h0
  clear h h0
  induction xs with
  | nil =>
    intro done c h hI
    obtain ⟨-, rfl⟩ := yields_pure_iff.1 h
    simpa using hI
  | cons x xs ih =>
    intro done c h hI
    change Yields (f x >>= fun _ => xs.forM f) c u c' at h
    obtain ⟨y, d, hy, h⟩ := yields_bind_iff.1 h
    have hnext := step done x c d List.mem_cons_self hI hy
    have := ih (fun done z e e' hz => step done z e e' (List.mem_cons_of_mem _ hz)) (done ++ [x]) d h
      hnext
    simpa using this

end Compiler
end BalancedTeams
