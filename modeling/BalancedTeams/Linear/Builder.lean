import BalancedTeams.Fault
import BalancedTeams.Linear.Model
import Std.Data.HashSet

/-!
# Building a linear model step by step

* `Builder` : the variables and constraints recorded so far, with the set of declared names;
* `Builder.declare` : a new binary variable;
* `Builder.require` : a constraint over declared variables;
* `Builder.add` : the same from values that have yet to be read as integers.
-/

namespace BalancedTeams

structure Builder where
  vars : Array Variable
  constraints : Array LinearConstraint
  names : Std.HashSet Text
  /-- The set holds the names of the variables. -/
  mem_names : ∀ s, s ∈ names ↔ ∃ x ∈ vars.toList, x.name = s

namespace Builder

def empty : Builder where
  vars := #[]
  constraints := #[]
  names := ∅
  mem_names := by simp

instance : Inhabited Builder := ⟨empty⟩
instance : EmptyCollection Builder := ⟨empty⟩

def declares (b : Builder) (name : Text) : Bool := b.names.contains name

def declare (b : Builder) (name : Text) : Except ModelFault Builder :=
  if b.declares name then .error (.duplicateVariable name)
  else .ok
    { vars := b.vars.push { name }
      constraints := b.constraints
      names := b.names.insert name
      mem_names := by
        intro s
        simp only [Std.HashSet.mem_insert, beq_iff_eq, b.mem_names, Array.toList_push,
          List.mem_append, List.mem_singleton]
        constructor
        · rintro (rfl | ⟨x, hx, rfl⟩)
          · exact ⟨_, Or.inr rfl, rfl⟩
          · exact ⟨x, Or.inl hx, rfl⟩
        · rintro ⟨x, hx | rfl, rfl⟩
          · exact Or.inr ⟨x, hx, rfl⟩
          · exact Or.inl rfl }

def undeclared? (b : Builder) (terms : Terms) : Option Text :=
  (terms.find? fun t => !b.declares t.2).map Prod.snd

/-- Records a constraint without looking at it. -/
def push (b : Builder) (c : LinearConstraint) : Builder :=
  { b with constraints := b.constraints.push c }

def require (b : Builder) (terms : Terms) (op : Comparison) (rhs : Int) (name : Text) :
    Except ModelFault Builder :=
  match b.undeclared? terms with
  | some x => .error (.undeclaredVariable x)
  | none => .ok (b.push ⟨terms, op.text, rhs, name⟩)

/-- Records a constraint given by values. The coefficients are read first; then come variables that
are not declared, the operator, and the right-hand side. -/
def add (b : Builder) (terms : List (Value × Text)) (operator : Text) (rhs : Value)
    (name : Text) : Except Fault Builder := do
  let terms ← terms.mapM fun t => do
    let c ← t.1.toInt
    return (c, t.2)
  match b.undeclared? terms with
  | some x => throw (.model (.undeclaredVariable x))
  | none =>
    match Comparison.ofText? operator with
    | none => throw (.model (.unknownOperator operator))
    | some _ =>
      let rhs ← rhs.toInt
      return b.push ⟨terms, operator, rhs, name⟩

end Builder
end BalancedTeams
