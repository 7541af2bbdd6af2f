import BalancedTeams.Proofs.Circuit
import BalancedTeams.Proofs.Compile.Yields

/-!
# All that a compilation does

* `Builder.Extends b ds b'` : `b'` is `b` with the variables and constraints of a circuit;
* `Compiler.Adds c p g c'` : one definition is recorded;
* `Gate.define` : what records the constraints of a gate (`Compiler.records_define`);
* `Compiler.descend` : compilation by recursion on the formula;
* `Compiler.Compiles slot node c x c'` : the ways in which a formula is compiled to the variable `x`,
  one for each branch of the recursion that succeeds (`Compiler.compiles_of_yields_descend`).
-/

namespace BalancedTeams

/-! ## Extensions of builders -/

namespace Builder

/-- The variables and constraints of a circuit are recorded after all others, each variable new and
defined by declared ones. -/
structure Extends (b : Builder) (ds : Circuit) (b' : Builder) : Prop where
  vars : b'.vars.toList = b.vars.toList ++ ds.names.map (⟨·, 0, 1⟩)
  constraints : b'.constraints.toList = b.constraints.toList ++ ds.constraints
  wellFormed : ds.WellFormed (b.declares · = true)

namespace Extends
variable {b b' b'' : Builder} {ds es : Circuit}

theorem refl (b : Builder) : b.Extends [] b := ⟨by simp [Circuit.names], by simp [Circuit.constraints],
  trivial⟩

theorem declares_iff (h : b.Extends ds b') (x : Text) :
    b'.declares x = true ↔ b.declares x = true ∨ x ∈ ds.names := by
  rw [Builder.declares_iff_of_vars h.vars]
  simp

theorem trans (h : b.Extends ds b') (h' : b'.Extends es b'') : b.Extends (ds ++ es) b'' where
  vars := by rw [h'.vars, h.vars]; simp [Circuit.names]
  constraints := by rw [h'.constraints, h.constraints]; simp [Circuit.constraints]
  wellFormed := by
    have hknown : (b'.declares · = true) = fun x => b.declares x = true ∨ x ∈ ds.names :=
      funext fun x => propext (h.declares_iff x)
    exact Circuit.wellFormed_append.2 ⟨h.wellFormed, hknown ▸ h'.wellFormed⟩

theorem declares (h : b.Extends ds b') {x : Text} (hx : b.declares x = true) :
    b'.declares x = true := (h.declares_iff x).2 (Or.inl hx)

end Extends
end Builder

namespace Compiler

/-! ## Single definitions -/

/-- A new variable and the constraints that define it are recorded. -/
structure Adds (c : Compiler) (p : Text) (g : Gate) (c' : Compiler) : Prop where
  fresh : c.builder.declares p = false
  /-- The variable itself is declared when its constraints are checked. -/
  inputs : ∀ a ∈ g.inputs, c.builder.declares a = true ∨ a = p
  vars : c'.builder.vars.toList = c.builder.vars.toList ++ [⟨p, 0, 1⟩]
  constraints : c'.builder.constraints.toList = c.builder.constraints.toList ++ g.constraints p
  memberships : c'.memberships = c.memberships

theorem Adds.extends {c c' : Compiler} {p : Text} {g : Gate} (h : c.Adds p g c')
    (hg : ∀ a ∈ g.inputs, c.builder.declares a = true) : c.builder.Extends [(p, g)] c'.builder where
  vars := h.vars
  constraints := by rw [h.constraints]; simp [Circuit.constraints]
  wellFormed := ⟨by simp [h.fresh], hg, trivial⟩

theorem Adds.declares_iff {c c' : Compiler} {p : Text} {g : Gate} (h : c.Adds p g c') (x : Text) :
    c'.builder.declares x = true ↔ c.builder.declares x = true ∨ p = x := by
  rw [Builder.declares_iff_of_vars h.vars]
  simp

theorem Gate.exists_term {g : Gate} {a : Text} (h : a ∈ g.inputs) (p : Text) :
    ∃ k ∈ g.constraints p, ∃ t ∈ k.terms, t.2 = a := by
  cases g with
  | always => cases h
  | not b =>
    rw [Gate.inputs, List.mem_singleton] at h
    exact ⟨_, List.mem_cons_self, (1, b), by simp, h.symm⟩
  | and b d | or b d =>
    rw [Gate.inputs, List.mem_cons, List.mem_singleton] at h
    refine ⟨_, List.mem_cons_of_mem _ (List.mem_cons_of_mem _ List.mem_cons_self), (-1, a), ?_, rfl⟩
    rcases h with rfl | rfl <;> simp

theorem Declares.adds {c d c' : Compiler} {p : Text} {g : Gate} (hp : c.Declares p d)
    (hg : d.Records (g.constraints p) c') : c.Adds p g c' ∧ c'.memo = c.memo := by
  refine ⟨⟨hp.fresh, fun a ha => ?_, hg.vars.trans hp.vars, ?_, hg.memberships.trans hp.memberships⟩,
    hg.memo.trans hp.memo⟩
  · obtain ⟨k, hk, t, ht, rfl⟩ := Gate.exists_term ha p
    exact ((hp.declares_iff _).1 (hg.declared k hk t ht)).imp_right Eq.symm
  · rw [hg.constraints, hp.constraints]

end Compiler

def Gate.define (p : Text) : Gate → CompileM Unit
  | always => Compiler.require [(1, p)] .eq 1 "pin_const_true"
  | not a => Compiler.defineNot p a
  | and a b => Compiler.defineAnd p a b
  | or a b => Compiler.defineOr p a b

namespace Compiler

variable {c c' : Compiler} {p : Text} {u : Unit}

theorem records_define {g : Gate} (h : Yields (g.define p) c u c') :
    c.Records (g.constraints p) c' := by
  cases g with
  | always | not => exact records_of_yields h
  | and a b | or a b =>
    obtain ⟨_, d, h1, h⟩ := yields_bind_iff.1 h
    obtain ⟨_, e, h2, h3⟩ := yields_bind_iff.1 h
    exact (records_of_yields h1).trans ((records_of_yields h2).trans (records_of_yields h3))

/-- An indicator is declared, defined and remembered. -/
theorem adds_of_yields_indicator {label : String} {slot : Int} {definition : Text → CompileM Unit}
    {g : Gate} {x : Text} (h : Yields (indicator label slot definition) c x c')
    (hg : ∀ d d', Yields (definition x) d () d' → d.Records (g.constraints x) d') :
    x = indicatorName label slot ∧ c.Adds x g c' ∧ c'.memo = c.memo.insert (label, slot) x := by
  unfold indicator at h
  obtain ⟨_, d, hd, h⟩ := yields_bind_iff.1 h
  obtain ⟨_, e, he, h⟩ := yields_bind_iff.1 h
  obtain ⟨_, f, hf, h⟩ := yields_bind_iff.1 h
  obtain ⟨rfl, rfl⟩ := yields_pure_iff.1 h
  obtain rfl := yields_modify_iff.1 hf
  obtain ⟨hadds, hmemo⟩ := (declares_of_yields hd).adds (hg d e he)
  exact ⟨rfl, ⟨hadds.fresh, hadds.inputs, hadds.vars, hadds.constraints, hadds.memberships⟩,
    by rw [hmemo]⟩

/-! ## Compilations -/

end Compiler

def Labelled.isLeaf : Labelled → Bool
  | person _ _ => true
  | always _ => true
  | _ => false

namespace Compiler

/-- The variable of a formula on team `slot`, whose operands are compiled first, the left one before
the right one. -/
def descend (slot : Int) : Labelled → CompileM Text
  | .person _ id => memberVar slot id
  | .always _ => trueVar
  | .not l f => do
    match (← get).memo[(l, slot)]? with
    | some p => return p
    | none =>
      let a ← descend slot f
      indicator l slot fun p => defineNot p a
  | .and l f g => do
    match (← get).memo[(l, slot)]? with
    | some p => return p
    | none =>
      let a ← descend slot f
      let b ← descend slot g
      indicator l slot fun p => defineAnd p a b
  | .or l f g => do
    match (← get).memo[(l, slot)]? with
    | some p => return p
    | none =>
      let a ← descend slot f
      let b ← descend slot g
      indicator l slot fun p => defineOr p a b

/-- The formula is compiled on team `slot` to the variable `x`, which leads from `c` to `c'`. -/
inductive Compiles (slot : Int) : Labelled → Compiler → Text → Compiler → Prop
  | person {l : String} {id : Value} {k : Key} {x : Text} {c : Compiler} :
      id.key? = some k → c.memberships.find? k slot = some x → Compiles slot (.person l id) c x c
  | pinned {l : String} {c : Compiler} :
      c.builder.declares trueName = true → Compiles slot (.always l) c trueName c
  | pin {l : String} {c c' : Compiler} :
      c.Adds trueName .always c' → c'.memo = c.memo → Compiles slot (.always l) c trueName c'
  | known {node : Labelled} {x : Text} {c : Compiler} :
      node.isLeaf = false → c.memo[(node.label, slot)]? = some x → Compiles slot node c x c
  | not {l : String} {f : Labelled} {a x : Text} {c d c' : Compiler} :
      c.memo[(l, slot)]? = none → Compiles slot f c a d → x = indicatorName l slot →
      d.Adds x (.not a) c' → c'.memo = d.memo.insert (l, slot) x → Compiles slot (.not l f) c x c'
  | and {l : String} {f g : Labelled} {a b x : Text} {c d e c' : Compiler} :
      c.memo[(l, slot)]? = none → Compiles slot f c a d → Compiles slot g d b e →
      x = indicatorName l slot → e.Adds x (.and a b) c' → c'.memo = e.memo.insert (l, slot) x →
      Compiles slot (.and l f g) c x c'
  | or {l : String} {f g : Labelled} {a b x : Text} {c d e c' : Compiler} :
      c.memo[(l, slot)]? = none → Compiles slot f c a d → Compiles slot g d b e →
      x = indicatorName l slot → e.Adds x (.or a b) c' → c'.memo = e.memo.insert (l, slot) x →
      Compiles slot (.or l f g) c x c'

theorem compiles_of_yields_memberVar {l : String} {id : Value} {slot : Int} {x : Text}
    (h : Yields (memberVar slot id) c x c') : Compiles slot (.person l id) c x c' := by
  unfold memberVar at h
  obtain ⟨k, hk, h⟩ := yields_lift_bind_iff.1 h
  replace h := yields_get_bind_iff.1 h
  split at h
  · next y hy =>
    obtain ⟨rfl, rfl⟩ := yields_pure_iff.1 h
    refine .person ?_ hy
    unfold Value.key Fault.orNoKey at hk
    split at hk
    · next hkey => cases hk; exact hkey
    · cases hk
  · obtain ⟨s, -, h⟩ := yields_lift_bind_iff.1 h
    exact absurd h not_yields_throw

theorem compiles_of_yields_trueVar {l : String} {slot : Int} {x : Text}
    (h : Yields trueVar c x c') : Compiles slot (.always l) c x c' := by
  unfold trueVar at h
  replace h := yields_get_bind_iff.1 h
  split at h
  · next hdecl =>
    obtain ⟨rfl, rfl⟩ := yields_pure_iff.1 h
    exact .pinned hdecl
  · obtain ⟨_, e, he, h⟩ := yields_bind_iff.1 h
    obtain ⟨_, f, hf, h⟩ := yields_bind_iff.1 h
    obtain ⟨rfl, rfl⟩ := yields_pure_iff.1 h
    obtain ⟨hadds, hmemo⟩ := (declares_of_yields he).adds (g := .always) (records_of_yields hf)
    exact .pin hadds hmemo

/-- Every compilation that succeeds is one of the branches, by induction on the formula. -/
theorem compiles_of_yields_descend {slot : Int} {node : Labelled} {x : Text}
    (h : Yields (descend slot node) c x c') : Compiles slot node c x c' := by
  induction node generalizing c x c' with
  | person l id => exact compiles_of_yields_memberVar h
  | always l => exact compiles_of_yields_trueVar h
  | not l f ih =>
    rw [descend, yields_get_bind_iff] at h
    split at h
    · next y hy =>
      obtain ⟨rfl, rfl⟩ := yields_pure_iff.1 h
      exact .known rfl hy
    · next hnone =>
      obtain ⟨a, d, ha, h⟩ := yields_bind_iff.1 h
      obtain ⟨hx, hadds, hmemo⟩ := adds_of_yields_indicator h fun _ _ =>
        records_define (g := .not a)
      exact .not hnone (ih ha) hx hadds hmemo
  | and l f g ihf ihg =>
    rw [descend, yields_get_bind_iff] at h
    split at h
    · next y hy =>
      obtain ⟨rfl, rfl⟩ := yields_pure_iff.1 h
      exact .known rfl hy
    · next hnone =>
      obtain ⟨a, d, ha, h⟩ := yields_bind_iff.1 h
      obtain ⟨b, e, hb, h⟩ := yields_bind_iff.1 h
      obtain ⟨hx, hadds, hmemo⟩ := adds_of_yields_indicator h fun _ _ =>
        records_define (g := .and a b)
      exact .and hnone (ihf ha) (ihg hb) hx hadds hmemo
  | or l f g ihf ihg =>
    rw [descend, yields_get_bind_iff] at h
    split at h
    · next y hy =>
      obtain ⟨rfl, rfl⟩ := yields_pure_iff.1 h
      exact .known rfl hy
    · next hnone =>
      obtain ⟨a, d, ha, h⟩ := yields_bind_iff.1 h
      obtain ⟨b, e, hb, h⟩ := yields_bind_iff.1 h
      obtain ⟨hx, hadds, hmemo⟩ := adds_of_yields_indicator h fun _ _ =>
        records_define (g := .or a b)
      exact .or hnone (ihf ha) (ihg hb) hx hadds hmemo

end Compiler
end BalancedTeams
