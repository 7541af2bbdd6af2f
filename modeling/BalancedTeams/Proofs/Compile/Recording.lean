import BalancedTeams.Proofs.Compile.Success
import BalancedTeams.Proofs.Compile.Walk
import BalancedTeams.Proofs.Solver.Translation
import Mathlib.Data.List.Nodup

/-!
# What a builder records over a run

* `Builder.WellFormed` : binary variables with different names, and constraints with an operator that
  there is over declared variables; `Compiler.isWellFormed_toModel` : models of it are as good;
* `Builder.Grows b b'` : what `b` has recorded comes first in `b'`, which is well formed if `b` is;
* `Builder.Accepts` : what a constraint given by values has to meet (`Compiler.yields_add_iff`);
* `Compiler.Growing` : the builder grows under a computation, also where it fails;
* `Compiler.growing_compile` : so it does under the compilation of any formula;
* `Compiler.BuildStep`, `Compiler.after` : what can be done to a compiler, and the compiler after several
  such steps;
* `Compiler.after_wellFormed` : the builder is well formed after all of them, and each of them only adds.
-/

namespace BalancedTeams

/-! ## Builders -/

theorem Comparison.eq_text_of_ofText? {t : Text} {op : Comparison} (h : ofText? t = some op) :
    t = op.text := by
  unfold ofText? at h
  split at h
  · next ht =>
    cases h
    exact ht
  · split at h
    · next ht =>
      cases h
      exact ht
    · split at h
      · next ht =>
        cases h
        exact ht
      · cases h

namespace Builder
variable {b b' b'' : Builder}

/-- Binary variables with different names, and comparisons over them. -/
structure WellFormed (b : Builder) : Prop where
  nodup : (b.vars.toList.map Variable.name).Nodup
  binary : ∀ x ∈ b.vars.toList, x.low = 0 ∧ x.high = 1
  declared : ∀ k ∈ b.constraints.toList, ∀ t ∈ k.terms, b.declares t.2 = true
  operators : ∀ k ∈ b.constraints.toList, ∃ op : Comparison, k.operator = op.text

theorem wellFormed_empty : WellFormed ∅ := ⟨List.nodup_nil, nofun, nofun, nofun⟩

/-- The earlier builder is what the later one recorded first. -/
structure Grows (b b' : Builder) : Prop where
  vars : b.vars.toList <+: b'.vars.toList
  constraints : b.constraints.toList <+: b'.constraints.toList
  wellFormed : b.WellFormed → b'.WellFormed

theorem Grows.refl (b : Builder) : b.Grows b := ⟨List.prefix_rfl, List.prefix_rfl, id⟩

theorem Grows.trans (h : b.Grows b') (h' : b'.Grows b'') : b.Grows b'' :=
  ⟨h.vars.trans h'.vars, h.constraints.trans h'.constraints, h'.wellFormed ∘ h.wellFormed⟩

/-- A constraint given by values can be recorded. -/
structure Accepts (b : Builder) (terms : List (Value × Text)) (operator : Text) (rhs : Value) : Prop where
  coefficients : ∀ t ∈ terms, ∃ n, t.1.toInt = .ok n
  declared : ∀ t ∈ terms, b.declares t.2 = true
  operator : ∃ op : Comparison, operator = op.text
  rhs : ∃ n, rhs.toInt = .ok n

section
variable {terms : List (Value × Text)} {operator name : Text} {rhs : Value}

theorem readTerm_eq_ok_iff {t : Value × Text} {e : Int × Text} :
    (do
      let n ← t.1.toInt
      return (n, t.2) : Except Fault (Int × Text)) = .ok e ↔ t.1.toInt = .ok e.1 ∧ t.2 = e.2 := by
  rw [bind_eq_ok_iff]
  constructor
  · rintro ⟨n, hn, he⟩
    cases he
    exact ⟨liftNumber_eq_ok_iff.1 hn, rfl⟩
  · rintro ⟨hn, ht⟩
    exact ⟨e.1, liftNumber_eq_ok_iff.2 hn, by rw [ht]; rfl⟩

/-- What is recorded are the integers that the values stand for. -/
theorem add_eq_ok_iff : b.add terms operator rhs name = .ok b' ↔
    ∃ read, ∃ op : Comparison, ∃ n,
      List.Forall₂ (fun t e => t.1.toInt = .ok e.1 ∧ t.2 = e.2) terms read ∧
      (∀ t ∈ read, b.declares t.2 = true) ∧ operator = op.text ∧ rhs.toInt = .ok n ∧
      b' = b.push ⟨read, operator, n, name⟩ := by
  unfold Builder.add
  rw [bind_eq_ok_iff]
  refine exists_congr fun read => ?_
  rw [mapM_eq_ok_iff]
  simp only [readTerm_eq_ok_iff, ← undeclared?_eq_none_iff]
  constructor
  · rintro ⟨hread, h⟩
    split at h
    · cases h
    · next hnone =>
      split at h
      · cases h
      · next op hop =>
        obtain ⟨n, hn, h⟩ := bind_eq_ok_iff.1 h
        cases h
        exact ⟨op, n, hread, hnone, Comparison.eq_text_of_ofText? hop, liftNumber_eq_ok_iff.1 hn, rfl⟩
  · rintro ⟨op, n, hread, hnone, rfl, hn, rfl⟩
    refine ⟨hread, ?_⟩
    rw [hnone]
    simp only [Comparison.ofText?_text]
    exact bind_eq_ok_iff.2 ⟨n, liftNumber_eq_ok_iff.2 hn, rfl⟩

end

end Builder

/-! ## Single changes -/

namespace Compiler
open Labelled

variable {α β : Type} {c d c' : Compiler} {slot : Int} {p : Text}

theorem Declares.grows (h : c.Declares p c') : c.builder.Grows c'.builder where
  vars := ⟨_, h.vars.symm⟩
  constraints := ⟨[], by rw [List.append_nil, h.constraints]⟩
  wellFormed hc := by
    refine ⟨?_, ?_, ?_, fun k hk => hc.operators k (h.constraints ▸ hk)⟩
    · rw [h.vars, List.map_append, List.nodup_append']
      refine ⟨hc.nodup, List.nodup_singleton _, List.disjoint_singleton.2 fun hp => ?_⟩
      obtain ⟨x, hx, hname⟩ := List.mem_map.1 hp
      have hdecl := Builder.declares_iff.2 ⟨x, hx, hname⟩
      rw [h.fresh] at hdecl
      cases hdecl
    · intro x hx
      rw [h.vars] at hx
      rcases List.mem_append.1 hx with hx | hx
      · exact hc.binary x hx
      · cases List.mem_singleton.1 hx
        exact ⟨rfl, rfl⟩
    · intro k hk t ht
      rw [h.constraints] at hk
      exact (h.declares_iff _).2 (Or.inl (hc.declared k hk t ht))

theorem Records.grows {ks : List LinearConstraint} (h : c.Records ks c')
    (hops : ∀ k ∈ ks, ∃ op : Comparison, k.operator = op.text) : c.builder.Grows c'.builder where
  vars := ⟨[], by rw [List.append_nil, h.vars]⟩
  constraints := ⟨ks, h.constraints.symm⟩
  wellFormed hc := by
    refine ⟨h.vars ▸ hc.nodup, h.vars ▸ hc.binary, ?_, ?_⟩
    · intro k hk t ht
      rw [h.constraints] at hk
      rw [h.declares_eq]
      rcases List.mem_append.1 hk with hk | hk
      · exact hc.declared k hk t ht
      · exact h.declared k hk t ht
    · intro k hk
      rw [h.constraints] at hk
      rcases List.mem_append.1 hk with hk | hk
      · exact hc.operators k hk
      · exact hops k hk

theorem isWellFormed_toModel (h : c.builder.WellFormed) {objective : Objective}
    (hobjective : ∀ t ∈ objective.terms, c.builder.declares t.2 = true) (personIds : List Value)
    (teamCount : Nat) (satisfaction : List (Value × List Text)) :
    (c.toModel objective personIds teamCount satisfaction).linear.IsWellFormed := by
  have hmem : ∀ {x : Text}, c.builder.declares x = true → x ∈ c.builder.vars.toList.map Variable.name :=
    fun hx => List.mem_map.2 (Builder.declares_iff.1 hx)
  refine ⟨h.nodup, fun x hx => ?_, fun k hk t ht => hmem (h.declared k hk t ht), h.operators,
    fun t ht => hmem (hobjective t ht)⟩
  obtain ⟨hlow, hhigh⟩ := h.binary x hx
  rw [hlow, hhigh]
  decide

/-! ## Computations -/

/-- The builder grows, whether the computation succeeds or fails. -/
def Growing (x : CompileM α) : Prop := ∀ c : Compiler, c.builder.Grows (result x c).2.builder

theorem growing_pure (a : α) : Growing (pure a) := fun c => .refl c.builder

theorem growing_throw (e : Fault) : Growing (throw e : CompileM α) := fun c => .refl c.builder

theorem growing_get : Growing get := fun c => .refl c.builder

theorem growing_lift (x : Except Fault α) : Growing (liftM x) := fun c => .refl c.builder

theorem growing_modify {f : Compiler → Compiler} (h : ∀ c, (f c).builder = c.builder) :
    Growing (modify f) := by
  intro c
  have hresult : result (modify f) c = (.ok ⟨⟩, f c) := rfl
  rw [hresult, h]
  exact .refl c.builder

theorem Growing.bind {x : CompileM α} {f : α → CompileM β} (hx : Growing x) (hf : ∀ a, Growing (f a)) :
    Growing (x >>= f) := by
  intro c
  have hfirst := hx c
  rw [result_bind]
  cases hr : result x c with
  | mk r d =>
    rw [hr] at hfirst
    cases r with
    | error e => exact hfirst
    | ok a => exact hfirst.trans (hf a d)

theorem Growing.mapM {f : α → CompileM β} (h : ∀ a, Growing (f a)) (xs : List α) :
    Growing (xs.mapM f) := by
  induction xs with
  | nil => exact growing_pure []
  | cons x xs ih =>
    rw [List.mapM_cons]
    exact (h x).bind fun _ => ih.bind fun _ => growing_pure _

theorem Growing.forM {f : α → CompileM Unit} (h : ∀ a, Growing (f a)) (xs : List α) :
    Growing (xs.forM f) := by
  induction xs with
  | nil => exact growing_pure ()
  | cons x xs ih => exact (h x).bind fun _ => ih

/-- A change of the builder that fails has no effect. -/
theorem result_onBuilder (f : Builder → Except Fault Builder) (c : Compiler) :
    result (onBuilder f) c = match f c.builder with
      | .ok b => (.ok (), { c with builder := b })
      | .error e => (.error e, c) := by
  unfold onBuilder
  have hget : result (get : CompileM Compiler) c = (.ok c, c) := rfl
  rw [result_bind, hget]
  dsimp only
  cases f c.builder <;> rfl

theorem growing_onBuilder {f : Builder → Except Fault Builder}
    (h : ∀ c c', Yields (onBuilder f) c () c' → c.builder.Grows c'.builder) :
    Growing (onBuilder f) := by
  intro c
  have hresult := result_onBuilder f c
  cases hf : f c.builder with
  | ok b =>
    rw [hf] at hresult
    rw [hresult]
    exact h c _ hresult
  | error e =>
    rw [hf] at hresult
    rw [hresult]
    exact .refl c.builder

theorem yields_declare_iff {name : Text} :
    (∃ d, Yields (declare name) c () d) ↔ c.builder.declares name = false :=
  ⟨fun ⟨_, h⟩ => (declares_of_yields h).fresh, exists_yields_declare⟩

theorem growing_declare (name : Text) : Growing (declare name) :=
  growing_onBuilder fun _ _ h => (declares_of_yields h).grows

theorem growing_require (terms : Terms) (op : Comparison) (rhs : Int) (name : Text) :
    Growing (require terms op rhs name) :=
  growing_onBuilder fun _ _ h =>
    (records_of_yields h).grows (List.forall_mem_singleton.2 ⟨op, rfl⟩)

/-! ## Compilations -/

theorem growing_trueVar : Growing trueVar := by
  refine growing_get.bind fun c => ?_
  split
  · exact growing_pure _
  · exact (growing_declare _).bind fun _ => (growing_require _ _ _ _).bind fun _ => growing_pure _

theorem growing_memberVar (slot : Int) (id : Value) : Growing (memberVar slot id) := by
  refine (growing_lift _).bind fun k => growing_get.bind fun c => ?_
  split
  · exact growing_pure _
  · exact (growing_lift _).bind fun _ => growing_throw _

theorem growing_define (p : Text) (g : Gate) : Growing (g.define p) := by
  cases g with
  | always | not => exact growing_require _ _ _ _
  | and | or =>
    exact (growing_require _ _ _ _).bind fun _ => (growing_require _ _ _ _).bind fun _ =>
      growing_require _ _ _ _

theorem growing_remember (label : String) (slot : Int) (p : Text) : Growing (remember label slot p) :=
  growing_modify fun _ => rfl

/-- An indicator stays declared where its definition fails. -/
theorem growing_indicator (label : String) (slot : Int) {definition : Text → CompileM Unit}
    (h : ∀ p, Growing (definition p)) : Growing (indicator label slot definition) :=
  (growing_declare _).bind fun _ => (h _).bind fun _ =>
    (growing_remember label slot _).bind fun _ => growing_pure _

/-- By induction on the formula, whose operands are compiled before its own variable is declared. -/
theorem growing_descend (slot : Int) (node : Labelled) : Growing (descend slot node) := by
  induction node with
  | person l id => exact growing_memberVar slot id
  | always l => exact growing_trueVar
  | not l f ih =>
    refine growing_get.bind fun c => ?_
    split
    · exact growing_pure _
    · exact ih.bind fun a => growing_indicator l slot fun p => growing_define p (.not a)
  | and l f g ihf ihg =>
    refine growing_get.bind fun c => ?_
    split
    · exact growing_pure _
    · exact ihf.bind fun a => ihg.bind fun b =>
        growing_indicator l slot fun p => growing_define p (.and a b)
  | or l f g ihf ihg =>
    refine growing_get.bind fun c => ?_
    split
    · exact growing_pure _
    · exact ihf.bind fun a => ihg.bind fun b =>
        growing_indicator l slot fun p => growing_define p (.or a b)

theorem growing_compile (slot : Int) (node : Labelled) : Growing (compile slot node) :=
  compile_eq_descend slot node ▸ growing_descend slot node

theorem growing_register (person : Value) (slot : Int) (x : Text) :
    Growing (register person slot x) :=
  (growing_lift _).bind fun _ => growing_modify fun _ => rfl

/-! ## Constraints from values -/

def add (terms : List (Value × Text)) (operator : Text) (rhs : Value) (name : Text) : CompileM Unit :=
  onBuilder fun b => b.add terms operator rhs name

section
variable {terms : List (Value × Text)} {operator name : Text} {rhs : Value}

theorem growing_add (terms : List (Value × Text)) (operator : Text) (rhs : Value) (name : Text) :
    Growing (add terms operator rhs name) := by
  refine growing_onBuilder fun c c' h => ?_
  obtain ⟨b, hb, rfl⟩ := yields_onBuilder_iff.1 h
  obtain ⟨read, op, n, -, hdeclared, hop, -, rfl⟩ := Builder.add_eq_ok_iff.1 hb
  have hrecords : c.Records [⟨read, operator, n, name⟩]
      { c with builder := c.builder.push ⟨read, operator, n, name⟩ } :=
    ⟨by simpa using hdeclared, rfl, by simp [Builder.push], rfl, rfl⟩
  exact hrecords.grows (List.forall_mem_singleton.2 ⟨op, hop⟩)

theorem yields_add_iff : (∃ c', Yields (add terms operator rhs name) c () c') ↔
    c.builder.Accepts terms operator rhs := by
  constructor
  · rintro ⟨c', h⟩
    obtain ⟨b, hb, -⟩ := yields_onBuilder_iff.1 h
    obtain ⟨read, op, n, hread, hdeclared, hop, hn, -⟩ := Builder.add_eq_ok_iff.1 hb
    refine ⟨fun t ht => ?_, fun t ht => ?_, ⟨op, hop⟩, ⟨n, hn⟩⟩
    all_goals obtain ⟨e, he, hnumber, hname⟩ := exists_of_mem_right hread.flip ht
    · exact ⟨e.1, hnumber⟩
    · exact hname ▸ hdeclared e he
  · rintro ⟨hcoefficients, hdeclared, ⟨op, hop⟩, n, hn⟩
    have hterms : ∀ t ∈ terms, ∃ e : Int × Text, t.1.toInt = .ok e.1 ∧ t.2 = e.2 := by
      intro t ht
      obtain ⟨k, hk⟩ := hcoefficients t ht
      exact ⟨(k, t.2), hk, rfl⟩
    obtain ⟨read, hread⟩ := exists_forall₂ hterms
    refine ⟨_, yields_onBuilder_iff.2 ⟨_, Builder.add_eq_ok_iff.2 ⟨read, op, n, hread, ?_, hop, hn, rfl⟩,
      rfl⟩⟩
    intro e he
    obtain ⟨t, ht, -, hname⟩ := exists_of_mem_right hread he
    exact hname ▸ hdeclared t ht

end

/-! ## Runs -/

/-- What can be done to a compiler. -/
inductive BuildStep where
  /-- A new binary variable. -/
  | declare (name : Text)
  /-- A constraint given by values. -/
  | add (terms : List (Value × Text)) (operator : Text) (rhs : Value) (name : Text)
  | trueVar
  /-- A membership in a variable, whether it is declared or not. -/
  | register (id : Value) (slot : Int) (x : Text)
  | compile (slot : Int) (node : Labelled)
  /-- The model of what has been recorded. -/
  | build (objective : Objective) (personIds : List Value) (teamCount : Nat)
      (satisfaction : List (Value × List Text))

inductive BuildAnswer where
  | done
  | variable (x : Text)
  | model (m : AssignmentModel)

namespace BuildStep

def run : BuildStep → CompileM BuildAnswer
  | declare name => do
    Compiler.declare name
    return .done
  | add terms operator rhs name => do
    Compiler.add terms operator rhs name
    return .done
  | trueVar => return .variable (← Compiler.trueVar)
  | register id slot x => do
    Compiler.register id slot x
    return .done
  | compile slot node => return .variable (← Compiler.compile slot node)
  | build objective personIds teamCount satisfaction => do
    let c ← get
    return .model (c.toModel objective personIds teamCount satisfaction)

/-- A variable or a constraint. -/
def isEntry : BuildStep → Bool
  | declare _ => true
  | add _ _ _ _ => true
  | _ => false

theorem growing_run (s : BuildStep) : Growing s.run := by
  cases s with
  | declare name => exact (growing_declare name).bind fun _ => growing_pure _
  | add terms operator rhs name => exact (growing_add terms operator rhs name).bind fun _ => growing_pure _
  | trueVar => exact growing_trueVar.bind fun _ => growing_pure _
  | register id slot x => exact (growing_register id slot x).bind fun _ => growing_pure _
  | compile slot node => exact (growing_compile slot node).bind fun _ => growing_pure _
  | build => exact growing_get.bind fun _ => growing_pure _

theorem yields_done_iff {x : CompileM Unit} :
    (∃ d, Yields (do x; return BuildAnswer.done) c .done d) ↔ ∃ d, Yields x c () d := by
  refine exists_congr fun d => ?_
  rw [yields_bind_iff]
  constructor
  · rintro ⟨_, e, hx, hdone⟩
    obtain ⟨-, rfl⟩ := yields_pure_iff.1 hdone
    exact hx
  · exact fun hx => ⟨(), d, hx, yields_pure_iff.2 ⟨rfl, rfl⟩⟩

/-- A variable or a constraint that is refused leaves no trace. -/
theorem eq_of_fails {s : BuildStep} (hs : s.isEntry = true) {e : Fault}
    (h : result s.run c = (.error e, d)) : d = c := by
  have hentry : ∀ f : Builder → Except Fault Builder,
      result (onBuilder f >>= fun _ => pure BuildAnswer.done) c = (.error e, d) → d = c := by
    intro f h
    rw [result_bind, result_onBuilder] at h
    cases hf : f c.builder with
    | ok b =>
      rw [hf] at h
      cases h
    | error e' =>
      rw [hf] at h
      cases h
      rfl
  cases s with
  | declare | add => exact hentry _ h
  | trueVar | register | compile | build => cases hs

end BuildStep

/-- The compiler after several steps, of which any may fail. -/
def after (steps : List BuildStep) (c : Compiler) : Compiler :=
  steps.foldl (fun c s => (result s.run c).2) c

theorem grows_after (steps : List BuildStep) (c : Compiler) : c.builder.Grows (after steps c).builder := by
  induction steps generalizing c with
  | nil => exact .refl c.builder
  | cons s steps ih => exact (s.growing_run c).trans (ih _)

/-- **Whatever is done to a builder, it stays well formed and only grows.** After any steps, any of which
may have failed, its variables have different names and its constraints compare declared ones, and all of
them come first, in their order, in what is recorded later. A variable is refused exactly if its name is
declared, a constraint exactly if a number or its operator cannot be read or a variable is not declared,
and both without a trace. The model of what has been recorded is one that solvers take. -/
theorem after_wellFormed (memberships : Memberships) (memo : Std.HashMap (String × Int) Text)
    (earlier later : List BuildStep) :
    let c := after earlier ⟨∅, memberships, memo⟩
    let d := after later c
    c.builder.WellFormed ∧ c.builder.vars.toList <+: d.builder.vars.toList ∧
      c.builder.constraints.toList <+: d.builder.constraints.toList ∧
      (∀ name, (∃ d, Yields (BuildStep.declare name).run c .done d) ↔
        c.builder.declares name = false) ∧
      (∀ terms operator rhs name, (∃ d, Yields (BuildStep.add terms operator rhs name).run c .done d) ↔
        c.builder.Accepts terms operator rhs) ∧
      (∀ s : BuildStep, s.isEntry = true → ∀ e d, result s.run c = (.error e, d) → d = c) ∧
      ∀ objective personIds teamCount satisfaction,
        (∀ t ∈ objective.terms, c.builder.declares t.2 = true) → ∃ m,
          Yields (BuildStep.build objective personIds teamCount satisfaction).run c (.model m) c ∧
          m.linear.vars = c.builder.vars.toList ∧ m.linear.constraints = c.builder.constraints.toList ∧
          m.linear.IsWellFormed := by
  intro c d
  have hc : c.builder.WellFormed := (grows_after earlier _).wellFormed Builder.wellFormed_empty
  have hgrows : c.builder.Grows d.builder := grows_after later c
  refine ⟨hc, hgrows.vars, hgrows.constraints, fun name => ?_, fun terms operator rhs name => ?_,
    fun s hs e d h => BuildStep.eq_of_fails hs h,
    fun objective personIds teamCount satisfaction hobjective => ⟨_, rfl, rfl, rfl,
      isWellFormed_toModel hc hobjective personIds teamCount satisfaction⟩⟩
  · exact BuildStep.yields_done_iff.trans yields_declare_iff
  · exact BuildStep.yields_done_iff.trans yields_add_iff

end Compiler
end BalancedTeams
