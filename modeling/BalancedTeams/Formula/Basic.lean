import BalancedTeams.Directory
import BalancedTeams.Digest

/-!
# Formulas over the members of a team

* `Formula` : a condition on a roster, built from people, `always`, `not`, `and`, `or`;
* `Formula.eval` : whether a roster meets it;
* `Formula.label` : the structural id of a formula, a digest of its kind and of the ids of its
  parts; there is one where the text of every person's id can be encoded (`Formula.idText`);
* `Labelled` : a formula with the label of every sub-formula stored beside it, so that no label is
  computed twice (`Formula.labelled`, `Labelled.formula`);
* `Labelled.Pending` : a node on the stack of a walk, which visits it before and after its children.
-/

namespace BalancedTeams

inductive Formula where
  | person (id : Value)
  | always
  | not (child : Formula)
  | and (left right : Formula)
  | or (left right : Formula)
  deriving DecidableEq, Repr, Inhabited

namespace Formula

/-- Met by no roster. -/
def never : Formula := .not .always

/-- Whether a roster, given by the keys of its members, meets the formula. An id without a key is
no member. -/
def eval (members : Key → Bool) : Formula → Bool
  | person id => id.key?.any members
  | always => true
  | not f => !(eval members f)
  | and f g => eval members f && eval members g
  | or f g => eval members f || eval members g

/-! ## Labels -/

/-- The text whose digest is the label: the kind, and the parts after bars. -/
def labelText (kind : String) (parts : List String) : String := "|".intercalate (kind :: parts)

def labelOf (kind : String) (parts : List String) : String := Digest.ofText (labelText kind parts)

def idText (id : Value) : Except TextFault String := do
  let t ← id.text
  t.encode

/-- The structural id of a formula. -/
def label : Formula → Except TextFault String
  | person id => do
    let part ← idText id
    return labelOf "PERSON" [part]
  | always => return labelOf "TRUE" []
  | not f => do
    let part ← label f
    return labelOf "NOT" [part]
  | and f g => do
    let left ← label f
    let right ← label g
    return labelOf "AND" [left, right]
  | or f g => do
    let left ← label f
    let right ← label g
    return labelOf "OR" [left, right]

end Formula

/-- A formula with the labels of all its sub-formulas. -/
inductive Labelled where
  | person (label : String) (id : Value)
  | always (label : String)
  | not (label : String) (child : Labelled)
  | and (label : String) (left right : Labelled)
  | or (label : String) (left right : Labelled)
  deriving Repr, Inhabited

namespace Labelled

def label : Labelled → String
  | person l _ => l
  | always l => l
  | not l _ => l
  | and l _ _ => l
  | or l _ _ => l

def formula : Labelled → Formula
  | person _ id => .person id
  | always _ => .always
  | not _ f => .not f.formula
  | and _ f g => .and f.formula g.formula
  | or _ f g => .or f.formula g.formula

def size : Labelled → Nat
  | person _ _ => 1
  | always _ => 1
  | not _ f => f.size + 1
  | and _ f g => f.size + g.size + 1
  | or _ f g => f.size + g.size + 1

def children : Labelled → List Labelled
  | not _ f => [f]
  | and _ f g => [f, g]
  | or _ f g => [f, g]
  | _ => []

/-! ## Walks -/

/-- A node still to visit; the flag says that its children are done. -/
abbrev Pending := Labelled × Bool

/-- What a visit may still cost, so that every step of a walk makes the stack cheaper. -/
def cost : Pending → Nat
  | (node, false) => 2 * node.size
  | (_, true) => 1

theorem cost_pos (t : Pending) : 0 < cost t := by
  obtain ⟨node, _ | _⟩ := t
  · cases node <;> simp only [cost, size] <;> omega
  · exact Nat.one_pos

def stackCost (stack : List Pending) : Nat := stack.foldr (fun t n => cost t + n) 0

theorem stackCost_lt_cons (t : Pending) (rest : List Pending) : stackCost rest < stackCost (t :: rest) :=
  Nat.lt_add_of_pos_left (cost_pos t)

/-- A node costs more than its children and the return to it. -/
theorem stackCost_children_lt (node : Labelled) (rest : List Pending) :
    stackCost (node.children.map (·, false) ++ (node, true) :: rest) <
      stackCost ((node, false) :: rest) := by
  cases node <;> simp only [children, List.map_cons, List.map_nil, List.nil_append, List.cons_append,
    stackCost, List.foldr_cons, cost, size] <;> omega

end Labelled

namespace Formula

/-- The formula with its labels, each computed once. -/
def labelled : Formula → Except TextFault Labelled
  | person id => do
    let part ← idText id
    return .person (labelOf "PERSON" [part]) id
  | always => return .always (labelOf "TRUE" [])
  | not f => do
    let f ← labelled f
    return .not (labelOf "NOT" [f.label]) f
  | and f g => do
    let f ← labelled f
    let g ← labelled g
    return .and (labelOf "AND" [f.label, g.label]) f g
  | or f g => do
    let f ← labelled f
    let g ← labelled g
    return .or (labelOf "OR" [f.label, g.label]) f g

theorem map_label_labelled (f : Formula) : f.labelled.map Labelled.label = f.label := by
  induction f with
  | person id => simp only [labelled, label]; cases idText id <;> rfl
  | always => rfl
  | not f ih => simp only [labelled, label, ← ih]; cases labelled f <;> rfl
  | and f g ihf ihg =>
    simp only [labelled, label, ← ihf, ← ihg]
    cases labelled f <;> cases labelled g <;> rfl
  | or f g ihf ihg =>
    simp only [labelled, label, ← ihf, ← ihg]
    cases labelled f <;> cases labelled g <;> rfl

theorem formula_of_labelled {f : Formula} {node : Labelled} (h : f.labelled = .ok node) :
    node.formula = f := by
  induction f generalizing node with
  | person id =>
    simp only [labelled] at h
    cases hid : idText id with
    | error e => simp [hid, bind, Except.bind] at h
    | ok part => cases (hid ▸ h : Except.ok _ = Except.ok node); rfl
  | always => cases h; rfl
  | not f ih =>
    simp only [labelled] at h
    cases hf : labelled f with
    | error e => simp [hf, bind, Except.bind] at h
    | ok l => cases (hf ▸ h : Except.ok _ = Except.ok node); simp [Labelled.formula, ih hf]
  | and f g ihf ihg =>
    simp only [labelled] at h
    cases hf : labelled f with
    | error e => simp [hf, bind, Except.bind] at h
    | ok l =>
      cases hg : labelled g with
      | error e => simp [hf, hg, bind, Except.bind] at h
      | ok k =>
        cases (hg ▸ hf ▸ h : Except.ok _ = Except.ok node)
        simp [Labelled.formula, ihf hf, ihg hg]
  | or f g ihf ihg =>
    simp only [labelled] at h
    cases hf : labelled f with
    | error e => simp [hf, bind, Except.bind] at h
    | ok l =>
      cases hg : labelled g with
      | error e => simp [hf, hg, bind, Except.bind] at h
      | ok k =>
        cases (hg ▸ hf ▸ h : Except.ok _ = Except.ok node)
        simp [Labelled.formula, ihf hf, ihg hg]

end Formula
end BalancedTeams
