import BalancedTeams.Formula.Evaluate

/-!
# The evaluation round by round

* `Labelled.parts` : a node and all nodes below it;
* `Labelled.Distinguishes`, `Labelled.Unambiguous` : no label stands for two formulas;
* `Formula.isKeyed` : every id can be looked up;
* `Evaluation.State`, `Evaluation.next?` : the values kept with the stack, and one round of the loop;
* `Evaluation.run_eq` : the evaluation does round after round until the stack is empty;
* `Evaluation.IsServed` : every node that waits for its children will find their values;
* `Evaluation.Sound` : the invariant of the loop; `Evaluation.Sound.next` : one round keeps it;
* `Evaluation.Reaches` : the states after some rounds, with their number (`Evaluation.Reaches.cost_le`,
  `Evaluation.Sound.reaches`, `Evaluation.exists_reaches_end`);
* `Labelled.evaluate_eq_eval` : the value of a node is that of its formula;
* `Labelled.evaluate_by_rounds` : the loop ends, and each value that it reads is there.
-/

namespace BalancedTeams

def Formula.isKeyed : Formula → Bool
  | person id => id.key?.isSome
  | always => true
  | not f => f.isKeyed
  | and f g => f.isKeyed && g.isKeyed
  | or f g => f.isKeyed && g.isKeyed

namespace Labelled

/-- A node and all nodes below it. -/
def parts : Labelled → List Labelled
  | person l id => [person l id]
  | always l => [always l]
  | not l f => not l f :: f.parts
  | and l f g => and l f g :: (f.parts ++ g.parts)
  | or l f g => or l f g :: (f.parts ++ g.parts)

/-- The labels of the nodes tell their formulas apart. -/
def Distinguishes (nodes : List Labelled) : Prop :=
  ∀ s ∈ nodes, ∀ t ∈ nodes, s.label = t.label → s.formula = t.formula

/-- No label stands for two formulas, within the nodes and among them. -/
def Unambiguous (nodes : List Labelled) : Prop := Distinguishes (nodes.flatMap parts)

instance (nodes : List Labelled) : Decidable (Distinguishes nodes) :=
  inferInstanceAs (Decidable (∀ s ∈ nodes, ∀ t ∈ nodes, s.label = t.label → s.formula = t.formula))

instance (nodes : List Labelled) : Decidable (Unambiguous nodes) :=
  inferInstanceAs (Decidable (Distinguishes (nodes.flatMap parts)))

theorem self_mem_parts (node : Labelled) : node ∈ node.parts := by
  cases node <;> simp [parts]

theorem parts_subset_of_mem_children {node child : Labelled} {known : List Labelled}
    (hparts : node.parts ⊆ known) (h : child ∈ node.children) : child.parts ⊆ known := by
  intro s hs
  refine hparts ?_
  cases node with
  | person | always => cases h
  | not l f =>
    rw [children, List.mem_singleton] at h
    exact List.mem_cons_of_mem _ (h ▸ hs)
  | and l f g | or l f g =>
    rw [children, List.mem_cons, List.mem_singleton] at h
    rw [parts, List.mem_cons, List.mem_append]
    rcases h with rfl | rfl
    · exact Or.inr (Or.inl hs)
    · exact Or.inr (Or.inr hs)

theorem parts_subset_flatMap {nodes : List Labelled} {node : Labelled} (h : node ∈ nodes) :
    node.parts ⊆ nodes.flatMap parts :=
  fun _ hs => List.mem_flatMap.2 ⟨node, h, hs⟩

theorem isKeyed_of_mem_parts {node part : Labelled} (h : part ∈ node.parts)
    (hkeyed : node.formula.isKeyed = true) : part.formula.isKeyed = true := by
  induction node with
  | person | always =>
    rw [parts, List.mem_singleton] at h
    exact h ▸ hkeyed
  | not l f ih =>
    rcases List.mem_cons.1 h with rfl | h
    · exact hkeyed
    · exact ih h hkeyed
  | and l f g ihf ihg | or l f g ihf ihg =>
    rcases List.mem_cons.1 h with rfl | h
    · exact hkeyed
    · obtain ⟨hf, hg⟩ := Bool.and_eq_true_iff.1 hkeyed
      rcases List.mem_append.1 h with h | h
      · exact ihf h hf
      · exact ihg h hg

end Labelled

namespace Evaluation
open Labelled (Pending stackCost)

/-! ## Rounds -/

abbrev Cache := Std.HashMap String Bool

/-- The values kept and the nodes still to visit, the next one first. -/
structure State where
  values : Cache
  stack : List Pending

def State.start (node : Labelled) : State := ⟨∅, [(node, false)]⟩

/-- The value of a node, by those kept of its children. -/
def valueOf? (members : Key → Bool) (values : Cache) : Labelled → Option Bool
  | .person _ id => id.key?.map members
  | .always _ => some true
  | .not _ f => do
    let a ← values[f.label]?
    return !a
  | .and _ f g => do
    let a ← values[f.label]?
    let b ← values[g.label]?
    return a && b
  | .or _ f g => do
    let a ← values[f.label]?
    let b ← values[g.label]?
    return a || b

/-- One round. The top of the stack is passed over if its label has a value; it gets its value if it has
no children or comes back after them; else it waits for them. -/
def next? (members : Key → Bool) (s : State) : Option State :=
  match s.stack with
  | [] => none
  | (node, done) :: rest =>
    if s.values.contains node.label then some ⟨s.values, rest⟩
    else if done || node.children.isEmpty then
      (valueOf? members s.values node).map fun b => ⟨s.values.insert node.label b, rest⟩
    else some ⟨s.values, node.children.map (·, false) ++ (node, true) :: rest⟩

variable {members : Key → Bool} {known : List Labelled} {root node : Labelled} {s t : State}

theorem run_of_contains {values : Cache} {done : Bool} {rest : List Pending}
    (h : values.contains node.label = true) :
    run members values ((node, done) :: rest) = run members values rest := by
  rw [run.eq_def]
  exact if_pos h

/-- The evaluation does round after round until the stack is empty. -/
theorem run_eq (members : Key → Bool) (s : State) : run members s.values s.stack =
    if s.stack = [] then some s.values
    else (next? members s).bind fun t => run members t.values t.stack := by
  obtain ⟨values, _ | ⟨⟨node, done⟩, rest⟩⟩ := s
  · rw [run, if_pos rfl]
  · rw [if_neg (List.cons_ne_nil _ _)]
    by_cases h : values.contains node.label = true
    · simp only [next?, h, if_true, Option.bind_some, run_of_contains h]
    · cases node with
      | person l id =>
        have hl : (Labelled.person l id).label = l := rfl
        cases done <;> cases hid : id.key? <;>
          simp [run, next?, valueOf?, Labelled.children, hl, hl ▸ h, hid]
      | always l =>
        have hl : (Labelled.always l).label = l := rfl
        cases done <;> simp [run, next?, valueOf?, Labelled.children, hl, hl ▸ h]
      | not l f =>
        have hl : (Labelled.not l f).label = l := rfl
        cases done <;> cases ha : values[f.label]? <;>
          simp [run, next?, valueOf?, Labelled.children, hl, hl ▸ h, ha]
      | and l f g =>
        have hl : (Labelled.and l f g).label = l := rfl
        cases done <;> cases ha : values[f.label]? <;> cases hb : values[g.label]? <;>
          simp [run, next?, valueOf?, Labelled.children, hl, hl ▸ h, ha, hb]
      | or l f g =>
        have hl : (Labelled.or l f g).label = l := rfl
        cases done <;> cases ha : values[f.label]? <;> cases hb : values[g.label]? <;>
          simp [run, next?, valueOf?, Labelled.children, hl, hl ▸ h, ha, hb]

/-- A round makes the stack cheaper. -/
theorem stackCost_lt_of_next? (h : next? members s = some t) :
    stackCost t.stack < stackCost s.stack := by
  obtain ⟨values, _ | ⟨⟨node, done⟩, rest⟩⟩ := s
  · cases h
  · simp only [next?] at h
    split at h
    · cases h
      exact Labelled.stackCost_lt_cons _ _
    · split at h
      · obtain ⟨b, -, rfl⟩ := Option.map_eq_some_iff.1 h
        exact Labelled.stackCost_lt_cons _ _
      · next hdone =>
        cases h
        obtain rfl : done = false := by simpa using fun hd : done = true => hdone (by simp [hd])
        exact Labelled.stackCost_children_lt node rest

/-! ## The invariant -/

/-- Each node that comes back from its children finds them among the labels that have a value and the
nodes above it. -/
def IsServed (has : String → Prop) : List Pending → Prop
  | [] => True
  | (node, done) :: rest =>
    (done = true → ∀ child ∈ node.children, has child.label) ∧
      IsServed (fun l => has l ∨ l = node.label) rest

/-- Every value kept is that of the known formulas with its label, which have one; all nodes on the stack
are known and will be served; and the root has a value or is on the stack. -/
structure Sound (members : Key → Bool) (known : List Labelled) (root : Labelled) (s : State) :
    Prop where
  right : ∀ part ∈ known, ∀ b, s.values[part.label]? = some b →
    part.formula.isKeyed = true ∧ b = part.formula.eval members
  parts : ∀ p ∈ s.stack, p.1.parts ⊆ known
  served : IsServed (s.values.contains · = true) s.stack
  root : s.values.contains root.label = true ∨ ∃ p ∈ s.stack, p.1.label = root.label

section
variable {has has' : String → Prop} {stack : List Pending} {nodes : List Labelled}

theorem IsServed.mono (h : IsServed has stack) (hhas : ∀ l, has l → has' l) : IsServed has' stack := by
  induction stack generalizing has has' with
  | nil => trivial
  | cons p rest ih =>
    exact ⟨fun hdone child hchild => hhas _ (h.1 hdone child hchild),
      ih h.2 fun l hl => hl.imp_left (hhas l)⟩

/-- Nodes on top that do not wait serve those below them. -/
theorem IsServed.of_visits (h : IsServed (fun l => has l ∨ ∃ node ∈ nodes, l = node.label) stack) :
    IsServed has (nodes.map (·, false) ++ stack) := by
  induction nodes generalizing has with
  | nil => exact h.mono fun l hl => hl.resolve_right (by simp)
  | cons node nodes ih =>
    refine ⟨nofun, ih (h.mono fun l hl => ?_)⟩
    simpa only [List.mem_cons, exists_eq_or_imp, or_assoc] using hl

end

theorem sound_start (members : Key → Bool) (node : Labelled) :
    Sound members node.parts node (.start node) where
  right := by
    intro part _ b hb
    simp [State.start] at hb
  parts := by
    intro p hp
    rw [List.mem_singleton.1 hp]
    exact List.Subset.refl _
  served := ⟨nofun, trivial⟩
  root := Or.inr ⟨_, List.mem_cons_self, rfl⟩

namespace Sound

theorem eq_of_valueOf? (h : Sound members known root s) (hparts : node.parts ⊆ known) {b : Bool}
    (hb : valueOf? members s.values node = some b) :
    node.formula.isKeyed = true ∧ b = node.formula.eval members := by
  have hchild : ∀ child ∈ node.children, ∀ a, s.values[child.label]? = some a →
      child.formula.isKeyed = true ∧ a = child.formula.eval members := fun child hc a ha =>
    h.right child (Labelled.parts_subset_of_mem_children hparts hc child.self_mem_parts) a ha
  cases node with
  | person l id =>
    obtain ⟨k, hk, rfl⟩ := Option.map_eq_some_iff.1 hb
    simp [Labelled.formula, Formula.isKeyed, Formula.eval, hk]
  | always l =>
    cases hb
    exact ⟨rfl, rfl⟩
  | not l f =>
    obtain ⟨a, ha, hb⟩ := Option.bind_eq_some_iff.1 hb
    cases hb
    obtain ⟨hk, rfl⟩ := hchild f List.mem_cons_self a ha
    exact ⟨hk, rfl⟩
  | and l f g | or l f g =>
    obtain ⟨a, ha, hb⟩ := Option.bind_eq_some_iff.1 hb
    obtain ⟨a', ha', hb⟩ := Option.bind_eq_some_iff.1 hb
    cases hb
    obtain ⟨hkf, rfl⟩ := hchild f List.mem_cons_self a ha
    obtain ⟨hkg, rfl⟩ := hchild g (List.mem_cons_of_mem _ List.mem_cons_self) a' ha'
    exact ⟨Bool.and_eq_true_iff.2 ⟨hkf, hkg⟩, rfl⟩

/-- The top is done with once its label has a value: it served the others by that. -/
theorem pop {values vs : Cache} {done : Bool} {rest : List Pending}
    (h : Sound members known root ⟨values, (node, done) :: rest⟩)
    (hvs : ∀ l, values.contains l = true ∨ l = node.label → vs.contains l = true)
    (hright : ∀ part ∈ known, ∀ b, vs[part.label]? = some b →
      part.formula.isKeyed = true ∧ b = part.formula.eval members) :
    Sound members known root ⟨vs, rest⟩ where
  right := hright
  parts p hp := h.parts p (List.mem_cons_of_mem _ hp)
  served := h.served.2.mono hvs
  root := by
    rcases h.root with hr | ⟨p, hp, hlabel⟩
    · exact Or.inl (hvs _ (Or.inl hr))
    · rcases List.mem_cons.1 hp with rfl | hp
      · exact Or.inl (hvs _ (Or.inr hlabel.symm))
      · exact Or.inr ⟨p, hp, hlabel⟩

/-- The top may wait for its children, which then serve it. -/
theorem wait {values : Cache} {done : Bool} {rest : List Pending}
    (h : Sound members known root ⟨values, (node, done) :: rest⟩) :
    Sound members known root ⟨values, node.children.map (·, false) ++ (node, true) :: rest⟩ where
  right := h.right
  parts := by
    have hnode : node.parts ⊆ known := h.parts _ List.mem_cons_self
    simp only [List.mem_append, List.mem_map, List.mem_cons]
    rintro p (⟨child, hchild, rfl⟩ | rfl | hp)
    · exact Labelled.parts_subset_of_mem_children hnode hchild
    · exact hnode
    · exact h.parts p (List.mem_cons_of_mem _ hp)
  served := by
    refine .of_visits ⟨fun _ child hchild => Or.inr ⟨child, hchild, rfl⟩, ?_⟩
    exact h.served.2.mono fun l hl => hl.imp_left Or.inl
  root := by
    refine h.root.imp_right ?_
    rintro ⟨p, hp, hlabel⟩
    rcases List.mem_cons.1 hp with rfl | hp
    · exact ⟨(node, true), by simp, hlabel⟩
    · exact ⟨p, by simp [hp], hlabel⟩

/-- **One round keeps the invariant.** -/
theorem next (hknown : Labelled.Distinguishes known) (h : Sound members known root s)
    (hnext : next? members s = some t) : Sound members known root t := by
  obtain ⟨values, _ | ⟨⟨node, done⟩, rest⟩⟩ := s
  · cases hnext
  · simp only [next?] at hnext
    split at hnext
    · next hkept =>
      cases hnext
      exact h.pop (fun l hl => hl.elim id fun e => e ▸ hkept) h.right
    · split at hnext
      · obtain ⟨b, hb, rfl⟩ := Option.map_eq_some_iff.1 hnext
        have hnode : node.parts ⊆ known := h.parts _ List.mem_cons_self
        refine h.pop (fun l hl => ?_) fun part hpart b' hb' => ?_
        · rw [Std.HashMap.contains_insert, Bool.or_eq_true, beq_iff_eq]
          exact hl.symm.imp_left Eq.symm
        · rw [Std.HashMap.getElem?_insert] at hb'
          split at hb'
          · next hlabel =>
            cases hb'
            rw [← hknown node (hnode node.self_mem_parts) part hpart (by simpa using hlabel)]
            exact h.eq_of_valueOf? hnode hb
          · exact h.right part hpart b' hb'
      · cases hnext
        exact h.wait

/-- A node that comes back finds the values of its children. -/
theorem getElem?_of_children (h : Sound members known root s) {rest : List Pending}
    (hstack : s.stack = (node, true) :: rest) {child : Labelled} (hchild : child ∈ node.children) :
    s.values[child.label]? = some (child.formula.eval members) := by
  have hnode : node.parts ⊆ known := h.parts (node, true) (hstack ▸ List.mem_cons_self)
  have hserved := h.served
  rw [hstack] at hserved
  have hhas : s.values.contains child.label = true := hserved.1 rfl child hchild
  rw [Std.HashMap.contains_eq_isSome_getElem?, Option.isSome_iff_exists] at hhas
  obtain ⟨b, hb⟩ := hhas
  have hmem := Labelled.parts_subset_of_mem_children hnode hchild child.self_mem_parts
  rw [hb, (h.right child hmem b hb).2]

/-- The only round that cannot be done is that of a person whose id cannot be looked up. -/
theorem of_next?_eq_none (h : Sound members known root s) (hnext : next? members s = none) :
    s.stack = [] ∨ ∃ l id done rest, s.stack = (.person l id, done) :: rest ∧ id.key? = none := by
  obtain ⟨values, _ | ⟨⟨node, done⟩, rest⟩⟩ := s
  · exact Or.inl rfl
  · refine Or.inr ?_
    have hchild : done = true → ∀ child ∈ node.children, ∃ a, values[child.label]? = some a := by
      rintro rfl child hmem
      exact ⟨_, h.getElem?_of_children rfl hmem⟩
    simp only [next?] at hnext
    split at hnext
    · cases hnext
    · split at hnext
      · next hready =>
        rw [Option.map_eq_none_iff] at hnext
        cases node with
        | person l id => exact ⟨l, id, done, rest, rfl, Option.map_eq_none_iff.1 hnext⟩
        | always l => cases hnext
        | not l f =>
          obtain ⟨a, ha⟩ := hchild (by simpa [Labelled.children] using hready) f List.mem_cons_self
          simp [valueOf?, ha] at hnext
        | and l f g | or l f g =>
          have hdone : done = true := by simpa [Labelled.children] using hready
          obtain ⟨a, ha⟩ := hchild hdone f List.mem_cons_self
          obtain ⟨b, hb⟩ := hchild hdone g (List.mem_cons_of_mem _ List.mem_cons_self)
          simp [valueOf?, ha, hb] at hnext
      · cases hnext

end Sound

/-! ## All rounds -/

/-- Some number of rounds leads from one state to another. -/
inductive Reaches (members : Key → Bool) : Nat → State → State → Prop
  | refl (s : State) : Reaches members 0 s s
  | next {n : Nat} {s t u : State} :
      next? members s = some t → Reaches members n t u → Reaches members (n + 1) s u

theorem Reaches.cost_le {n : Nat} (h : Reaches members n s t) :
    n + stackCost t.stack ≤ stackCost s.stack := by
  induction h with
  | refl => omega
  | next hnext _ ih =>
    have := stackCost_lt_of_next? hnext
    omega

theorem Sound.reaches {n : Nat} (hknown : Labelled.Distinguishes known)
    (h : Sound members known root s) (hreaches : Reaches members n s t) :
    Sound members known root t := by
  induction hreaches with
  | refl => exact h
  | next hnext _ ih => exact ih (h.next hknown hnext)

/-- The rounds come to an end, and the evaluation with them. By induction on the cost of the stack. -/
theorem exists_reaches_end (members : Key → Bool) (s : State) : ∃ n t, Reaches members n s t ∧
    next? members t = none ∧ run members s.values s.stack = run members t.values t.stack := by
  cases hnext : next? members s with
  | none => exact ⟨0, s, .refl s, hnext, rfl⟩
  | some t =>
    obtain ⟨n, u, hreaches, hend, hrun⟩ := exists_reaches_end members t
    have hstack : s.stack ≠ [] := by
      intro hnil
      rw [next?, hnil] at hnext
      cases hnext
    refine ⟨n + 1, u, .next hnext hreaches, hend, ?_⟩
    rw [run_eq, if_neg hstack, hnext, Option.bind_some, hrun]
termination_by stackCost s.stack
decreasing_by exact stackCost_lt_of_next? hnext

/-- After the last round either the stack is empty and the root has its value, or an id cannot be looked
up. -/
theorem exists_last_round (members : Key → Bool) (hknown : Labelled.Distinguishes node.parts) :
    ∃ n s, Reaches members n (.start node) s ∧ next? members s = none ∧
      (node.formula.isKeyed = true ∧ s.stack = [] ∧
          s.values[node.label]? = some (node.formula.eval members) ∧
          node.evaluate members = some (node.formula.eval members) ∨
        node.formula.isKeyed = false ∧ node.evaluate members = none) := by
  obtain ⟨n, s, hreaches, hend, hrun⟩ := exists_reaches_end members (.start node)
  have hsound := (sound_start members node).reaches hknown hreaches
  have hevaluate : node.evaluate members =
      (run members s.values s.stack).bind fun values => values[node.label]? := by
    rw [← hrun]
    rfl
  refine ⟨n, s, hreaches, hend, ?_⟩
  rcases hsound.of_next?_eq_none hend with hnil | ⟨l, id, done, rest, hstack, hid⟩
  · have hroot : s.values.contains node.label = true := by
      rcases hsound.root with hroot | ⟨p, hp, -⟩
      · exact hroot
      · rw [hnil] at hp
        cases hp
    rw [Std.HashMap.contains_eq_isSome_getElem?, Option.isSome_iff_exists] at hroot
    obtain ⟨b, hb⟩ := hroot
    obtain ⟨hkeyed, rfl⟩ := hsound.right node node.self_mem_parts b hb
    refine Or.inl ⟨hkeyed, hnil, hb, ?_⟩
    rw [hevaluate, hnil, run]
    exact hb
  · have hperson : Labelled.person l id ∈ node.parts :=
      hsound.parts _ (hstack ▸ List.mem_cons_self) (Labelled.self_mem_parts _)
    refine Or.inr ⟨?_, ?_⟩
    · rw [← Bool.not_eq_true]
      intro hkeyed
      have := Labelled.isKeyed_of_mem_parts hperson hkeyed
      simp [Labelled.formula, Formula.isKeyed, hid] at this
    · rw [hevaluate, run_eq, hend, hstack, if_neg (List.cons_ne_nil _ _)]
      rfl

end Evaluation

open Evaluation

/-- The value of a node on a roster is that of its formula. -/
theorem Labelled.evaluate_eq_eval {members : Key → Bool} {node : Labelled}
    (h : Unambiguous [node]) (hkeyed : node.formula.isKeyed = true) :
    node.evaluate members = some (node.formula.eval members) := by
  rw [Unambiguous, List.flatMap_singleton] at h
  obtain ⟨n, s, -, -, hvalue⟩ := exists_last_round members h
  rcases hvalue with ⟨-, -, -, hvalue⟩ | ⟨hnone, -⟩
  · exact hvalue
  · rw [hkeyed] at hnone
    cases hnone

/-- **The loop ends, and each value that it reads is there.** The value of a node is that of its formula,
unless some id cannot be looked up. There are at most two rounds for each node; a node that comes back
from its children finds the values of their formulas; and no round fails but that of a person whose id
cannot be looked up. -/
theorem Labelled.evaluate_by_rounds (members : Key → Bool) {node : Labelled}
    (h : Unambiguous [node]) :
    node.evaluate members =
        (if node.formula.isKeyed = true then some (node.formula.eval members) else none) ∧
      (∀ n s, Reaches members n (.start node) s → n ≤ 2 * node.size ∧
        (∀ parent rest, s.stack = (parent, true) :: rest → ∀ child ∈ parent.children,
          s.values[child.label]? = some (child.formula.eval members)) ∧
        (next? members s = none → s.stack = [] ∨
          ∃ l id done rest, s.stack = (.person l id, done) :: rest ∧ id.key? = none)) ∧
      ∃ n s, Reaches members n (.start node) s ∧ next? members s = none ∧
        (node.formula.isKeyed = true →
          s.stack = [] ∧ s.values[node.label]? = some (node.formula.eval members)) := by
  rw [Unambiguous, List.flatMap_singleton] at h
  obtain ⟨m, last, hlast, hend, hvalue⟩ := exists_last_round members h
  refine ⟨?_, fun n s hreaches => ?_, m, last, hlast, hend, fun hkeyed => ?_⟩
  · rcases hvalue with ⟨hkeyed, -, -, hvalue⟩ | ⟨hkeyed, hvalue⟩
    · rw [hvalue, if_pos hkeyed]
    · rw [hvalue, if_neg (by simp [hkeyed])]
  · have hsound := (sound_start members node).reaches h hreaches
    refine ⟨?_, fun _ _ hstack _ hchild => hsound.getElem?_of_children hstack hchild,
      hsound.of_next?_eq_none⟩
    have hcost := hreaches.cost_le
    simp only [State.start, stackCost, List.foldr_cons, List.foldr_nil, cost] at hcost
    omega
  · rcases hvalue with ⟨-, hnil, hb, -⟩ | ⟨hnone, -⟩
    · exact ⟨hnil, hb⟩
    · rw [hkeyed] at hnone
      cases hnone

/-- One of two people, and neither of them, with a sub-formula that occurs twice. -/
theorem Labelled.evaluate_by_rounds_shared :
    let a : Labelled := .person "a" (.int 1)
    let either : Labelled := .or "o" a (.person "b" (.int 2))
    let node : Labelled := .and "x" either (.not "n" either)
    Unambiguous [node] ∧ ∀ members, node.evaluate members = some (node.formula.eval members) := by
  intro a either node
  have hlabels : Unambiguous [node] := by decide
  refine ⟨hlabels, fun members => ?_⟩
  rw [(evaluate_by_rounds members hlabels).1, if_pos (by decide)]

end BalancedTeams
