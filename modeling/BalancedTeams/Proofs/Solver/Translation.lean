import BalancedTeams.Proofs.Runs
import BalancedTeams.Solver.Program

/-!
# Programs of linear models

* `Program.numbering_eq_some_iff` : a table of different names gives each its number;
* `LinearModel.IsWellFormed` : models over declared variables;
* `LinearModel.program` : the program that says of values by number what the model says of values by name
  (`LinearModel.feasible_program_iff`, `LinearModel.value_program`);
* `Solver.Gives` : what a computation gives if the solver refuses none of its calls;
* `Solver.gives_translate` : whatever the solver, the program of a well-formed model is this one.
-/

namespace BalancedTeams

/-! ## Numbers of names -/

namespace Program

variable {table : Numbering} {entries : List (Text × Nat)} {x : Text}

theorem getElem?_foldl_insert_of_not_mem (hx : x ∉ entries.map Prod.fst) :
    (entries.foldl (fun table e => table.insert e.1 e.2) table)[x]? = table[x]? := by
  induction entries generalizing table with
  | nil => rfl
  | cons e entries ih =>
    rw [List.map_cons, List.mem_cons, not_or] at hx
    rw [List.foldl_cons, ih hx.2, Std.HashMap.getElem?_insert, if_neg]
    exact fun heq => hx.1 (eq_of_beq heq).symm

theorem getElem?_foldl_insert {i : Nat} (hnames : (entries.map Prod.fst).Nodup)
    (hx : (x, i) ∈ entries) :
    (entries.foldl (fun table e => table.insert e.1 e.2) table)[x]? = some i := by
  induction entries generalizing table with
  | nil => cases hx
  | cons e entries ih =>
    rw [List.map_cons, List.nodup_cons] at hnames
    rw [List.foldl_cons]
    rcases List.mem_cons.1 hx with rfl | hx
    · rw [getElem?_foldl_insert_of_not_mem hnames.1, Std.HashMap.getElem?_insert_self]
    · exact ih hnames.2 hx

theorem numbering_eq_some_iff {names : List Text} (h : names.Nodup) {i : Nat} :
    (numbering names)[x]? = some i ↔ names[i]? = some x := by
  have hfst : names.zipIdx.map Prod.fst = names := List.zipIdx_map_fst 0 names
  unfold numbering
  constructor
  · intro hi
    by_cases hx : x ∈ names
    · obtain ⟨j, hj⟩ := List.getElem?_of_mem hx
      rw [getElem?_foldl_insert (hfst.symm ▸ h) (List.mem_zipIdx_iff_getElem?.2 hj),
        Option.some.injEq] at hi
      exact hi ▸ hj
    · rw [getElem?_foldl_insert_of_not_mem (hfst.symm ▸ hx), Std.HashMap.getElem?_empty] at hi
      cases hi
  · intro hi
    exact getElem?_foldl_insert (hfst.symm ▸ h) (List.mem_zipIdx_iff_getElem?.2 hi)

/-- The array holds the values of the names, in order. -/
def Holds (names : List Text) (xs : Array Int) (v : Text → Int) : Prop := xs.toList = names.map v

section
variable {names : List Text} {xs : Array Int} {v : Text → Int}

theorem Holds.getD_eq (h : Holds names xs v) {i : Nat} (hx : names[i]? = some x) :
    xs.getD i 0 = v x := by
  rw [Array.getD_eq_getD_getElem?, ← Array.getElem?_toList, h, List.getElem?_map, hx]
  rfl

theorem Holds.size_eq (h : Holds names xs v) : xs.size = names.length := by
  rw [← Array.length_toList, h, List.length_map]

theorem exists_holds (hnames : names.Nodup) (h : xs.size = names.length) :
    ∃ v, Holds names xs v := by
  refine ⟨fun x => xs.getD (names.idxOf x) 0, List.ext_getElem ?_ fun i hi hi' => ?_⟩
  · rw [Array.length_toList, List.length_map, h]
  · rw [Array.getElem_toList, List.getElem_map, hnames.idxOf_getElem]
    rw [Array.length_toList] at hi
    rw [Array.getD_eq_getD_getElem?, Array.getElem?_eq_getElem hi, Option.getD_some]

theorem holds_map (names : List Text) (v : Text → Int) : Holds names (names.map v).toArray v := rfl

end

def numbered (names : List Text) (ts : Terms) : IndexTerms :=
  ts.map fun t => (t.1, names.idxOf t.2)

theorem value_numbered {names : List Text} {ts : Terms} {xs : Array Int} {v : Text → Int}
    (hts : ∀ t ∈ ts, t.2 ∈ names) (h : Holds names xs v) : (numbered names ts).value xs = ts.value v := by
  induction ts with
  | nil => rfl
  | cons t ts ih =>
    obtain ⟨ht, hrest⟩ := List.forall_mem_cons.1 hts
    have hname : names[names.idxOf t.2]? = some t.2 := List.getElem?_idxOf ht
    show t.1 * xs.getD (names.idxOf t.2) 0 + (numbered names ts).value xs =
      t.1 * v t.2 + Terms.value v ts
    rw [h.getD_eq hname, ih hrest]

end Program

/-! ## Well-formed models -/

/-- Different names, bounds in order, and constraints and an objective over declared variables. -/
structure LinearModel.IsWellFormed (m : LinearModel) : Prop where
  nodup : (m.vars.map Variable.name).Nodup
  ordered : ∀ x ∈ m.vars, x.low ≤ x.high
  declared : ∀ c ∈ m.constraints, ∀ t ∈ c.terms, t.2 ∈ m.vars.map Variable.name
  operators : ∀ c ∈ m.constraints, ∃ op : Comparison, c.operator = op.text
  objective : ∀ t ∈ m.objective.terms, t.2 ∈ m.vars.map Variable.name

def LinearConstraint.numbered (names : List Text) (c : LinearConstraint) : IndexConstraint :=
  ⟨Program.numbered names c.terms, (Comparison.ofText? c.operator).getD .eq, c.rhs⟩

namespace LinearModel

def names (m : LinearModel) : List Text := m.vars.map Variable.name

/-- The model with numbers for names. -/
def program (m : LinearModel) : Program where
  bounds := m.vars.map fun x => (x.low, x.high)
  constraints := m.constraints.map (LinearConstraint.numbered m.names)
  objective := Program.numbered m.names m.objective.terms
  maximize := m.objective.isMaximize

variable {m : LinearModel} {xs : Array Int} {v : Text → Int}

theorem within_program_iff (hv : Program.Holds m.names xs v) :
    (∀ i (h : i < m.program.bounds.length), m.program.bounds[i].1 ≤ xs.getD i 0 ∧
        xs.getD i 0 ≤ m.program.bounds[i].2) ↔
      ∀ x ∈ m.vars, x.low ≤ v x.name ∧ v x.name ≤ x.high := by
  have hlength : m.program.bounds.length = m.vars.length := List.length_map _
  have hvalue : ∀ i (hi : i < m.vars.length), xs.getD i 0 = v m.vars[i].name := by
    intro i hi
    refine hv.getD_eq ?_
    rw [names, List.getElem?_map, List.getElem?_eq_getElem hi]
    rfl
  have hbound : ∀ i (hi : i < m.vars.length) (h : i < m.program.bounds.length),
      m.program.bounds[i] = (m.vars[i].low, m.vars[i].high) := fun i _ _ => List.getElem_map _
  constructor
  · intro hall x hx
    obtain ⟨i, hi, rfl⟩ := List.getElem_of_mem hx
    have hi' : i < m.program.bounds.length := hlength ▸ hi
    have hends := hall i hi'
    rwa [hbound i hi hi', hvalue i hi] at hends
  · intro hall i hi'
    have hi : i < m.vars.length := hlength ▸ hi'
    rw [hbound i hi hi', hvalue i hi]
    exact hall _ (List.getElem_mem hi)

theorem holds_numbered {c : LinearConstraint} (hop : ∃ op : Comparison, c.operator = op.text)
    (hdeclared : ∀ t ∈ c.terms, t.2 ∈ m.names) (hv : Program.Holds m.names xs v) :
    (c.numbered m.names).holds xs = c.holds v := by
  obtain ⟨op, hop⟩ := hop
  unfold IndexConstraint.holds LinearConstraint.holds LinearConstraint.numbered
  rw [hop, Comparison.ofText?_text, Option.getD_some, Program.value_numbered hdeclared hv]

/-- Values by number are feasible where values by name are. -/
theorem feasible_program_iff (hm : m.IsWellFormed) (hv : Program.Holds m.names xs v) :
    m.program.Feasible xs ↔ m.Feasible v := by
  have hsize : xs.size = m.program.bounds.length := by
    rw [hv.size_eq, names, List.length_map, program, List.length_map]
  have hrows : (∀ k ∈ m.program.constraints, k.holds xs = true) ↔
      ∀ c ∈ m.constraints, c.holds v = true := by
    rw [program, List.forall_mem_map]
    refine forall₂_congr fun c hc => ?_
    rw [holds_numbered (hm.operators c hc) (hm.declared c hc) hv]
  rw [Program.Feasible, within_program_iff hv, hrows]
  exact and_iff_right hsize

theorem value_program (hm : m.IsWellFormed) (hv : Program.Holds m.names xs v) :
    m.program.objective.value xs = m.value v := Program.value_numbered hm.objective hv

end LinearModel

/-! ## Calls that may be refused -/

namespace Solver

/-- The computation gives the result, or ends with a call that the solver refuses. -/
def Gives {α : Type} (solver : Solver) (a : α) (x : Except Fault α) : Prop :=
  x = .ok a ∨ ∃ call f, solver.take call = .error f ∧ x = .error (.program f)

namespace Gives
variable {solver : Solver} {α β : Type} {a : α} {b : β}

theorem pure (a : α) : solver.Gives a (Pure.pure a : Except Fault α) := Or.inl rfl

theorem take (call : SolverCall) : solver.Gives () (liftM (solver.take call) : Except Fault Unit) := by
  cases h : solver.take call with
  | ok => exact Or.inl rfl
  | error f => exact Or.inr ⟨call, f, h, rfl⟩

theorem bind {x : Except Fault α} {f : α → Except Fault β} (hx : solver.Gives a x)
    (hf : solver.Gives b (f a)) : solver.Gives b (x >>= f) := by
  rcases hx with rfl | ⟨call, e, hcall, rfl⟩
  · exact hf
  · exact Or.inr ⟨call, e, hcall, rfl⟩

theorem mapM {f : α → Except Fault β} {g : α → β} {xs : List α}
    (h : ∀ x ∈ xs, solver.Gives (g x) (f x)) : solver.Gives (xs.map g) (xs.mapM f) := by
  induction xs with
  | nil => exact pure []
  | cons x xs ih =>
    obtain ⟨hx, hrest⟩ := List.forall_mem_cons.1 h
    rw [List.mapM_cons]
    exact hx.bind ((ih hrest).bind (pure _))

theorem forM {f : α → Except Fault Unit} {xs : List α} (h : ∀ x ∈ xs, solver.Gives () (f x)) :
    solver.Gives () (xs.forM f) := by
  induction xs with
  | nil => exact pure ()
  | cons x xs ih =>
    obtain ⟨hx, hrest⟩ := List.forall_mem_cons.1 h
    show solver.Gives () (f x >>= fun _ => xs.forM f)
    exact hx.bind (ih hrest)

end Gives

/-! ## Translations -/

variable (solver : Solver) {names : List Text}

theorem gives_extend (hnames : names.Nodup) (done : IndexTerms) {t : Int × Text} (ht : t.2 ∈ names) :
    solver.Gives (done ++ [(t.1, names.idxOf t.2)])
      (solver.extend (Program.numbering names) done t) := by
  have hnumber : (Program.numbering names)[t.2]? = some (names.idxOf t.2) :=
    (Program.numbering_eq_some_iff hnames).2 (List.getElem?_idxOf ht)
  unfold extend
  rw [hnumber]
  exact (Gives.take _).bind (.pure _)

theorem gives_foldlM (hnames : names.Nodup) {ts : Terms} (hts : ∀ t ∈ ts, t.2 ∈ names)
    (done : IndexTerms) : solver.Gives (done ++ Program.numbered names ts)
      (ts.foldlM (solver.extend (Program.numbering names)) done) := by
  induction ts generalizing done with
  | nil =>
    rw [Program.numbered, List.map_nil, List.append_nil]
    exact .pure done
  | cons t ts ih =>
    obtain ⟨ht, hrest⟩ := List.forall_mem_cons.1 hts
    have hsplit : done ++ Program.numbered names (t :: ts) =
        (done ++ [(t.1, names.idxOf t.2)]) ++ Program.numbered names ts := by
      rw [List.append_assoc]
      rfl
    rw [List.foldlM_cons, hsplit]
    exact (solver.gives_extend hnames done ht).bind (ih hrest _)

theorem gives_terms (hnames : names.Nodup) {ts : Terms} (hts : ∀ t ∈ ts, t.2 ∈ names) :
    solver.Gives (Program.numbered names ts) (solver.terms (Program.numbering names) ts) :=
  solver.gives_foldlM hnames hts []

theorem gives_row (hnames : names.Nodup) {c : LinearConstraint}
    (hop : ∃ op : Comparison, c.operator = op.text) (hdeclared : ∀ t ∈ c.terms, t.2 ∈ names) :
    solver.Gives (c.numbered names) (solver.row (Program.numbering names) c) := by
  obtain ⟨op, hop⟩ := hop
  refine (solver.gives_terms hnames hdeclared).bind ?_
  rw [LinearConstraint.numbered, hop, Comparison.ofText?_text]
  refine (Gives.take _).bind ?_
  split
  · exact (Gives.take _).bind (.pure _)
  · exact .pure _

/-- **Whatever the solver, a well-formed model becomes the program that says the same**, unless a call is
refused. -/
theorem gives_translate {m : LinearModel} (hm : m.IsWellFormed) :
    solver.Gives m.program (solver.translate m) := by
  refine (Gives.forM fun x _ => .take _).bind ?_
  refine (Gives.mapM fun c hc =>
    solver.gives_row hm.nodup (hm.operators c hc) (hm.declared c hc)).bind ?_
  refine (solver.gives_terms hm.nodup hm.objective).bind ?_
  split
  · exact (Gives.take _).bind (.pure _)
  · exact .pure _

end Solver
end BalancedTeams
