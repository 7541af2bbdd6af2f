import BalancedTeams.Proofs.Compile.Success
import Mathlib.Data.List.Nodup

/-!
# Compilations that may stop

* `Compiler.seat?`, `Compiler.var?` : the variable that a person or a formula has on a team;
* `Compiler.ownName?` : the variable that is declared for a formula;
* `Compiler.Missing` : the variables that a formula still needs;
* `Compiler.Consistent nodes c₀ c ds` : what `c` has declared, constrained and remembered since `c₀`
  are the definitions `ds`, each of a formula of the nodes by the variables of its operands;
* `Compiler.StopsAt` : the first of several people without a seat, as a fault;
* `Compiler.Descends`, `Compiler.descends` : from a consistent compiler a compilation comes to a
  consistent one, by definitions that were missing, whether it finds a variable or stops.
-/

namespace BalancedTeams
namespace Labelled

/-- Formulas of the nodes that have one label are one formula, with the same labels below. -/
def Identified (nodes : List Labelled) : Prop :=
  ∀ s ∈ nodes.flatMap parts, ∀ t ∈ nodes.flatMap parts, s.label = t.label → s = t

theorem mem_parts_iff {node part : Labelled} :
    part ∈ node.parts ↔ part = node ∨ ∃ child ∈ node.children, part ∈ child.parts := by
  cases node <;> simp [parts, children]

theorem mem_ids_iff {node : Labelled} {id : Value} :
    id ∈ node.formula.ids ↔ ∃ l, person l id ∈ node.parts := by
  induction node with
  | person l i => simp [formula, Formula.ids, parts, eq_comm]
  | always l => simp [formula, Formula.ids, parts]
  | not l f ih => simp [formula, Formula.ids, parts, ih]
  | and l f g ihf ihg | or l f g ihf ihg =>
    simp [formula, Formula.ids, parts, ihf, ihg, exists_or]

end Labelled

namespace Compiler
open Labelled

variable {c₀ c d e : Compiler} {ds es : Circuit} {slot : Int} {nodes : List Labelled}
  {node : Labelled} {x y : Text}

/-! ## Variables there are, and variables there are not -/

/-- The membership variable of the person in the team. -/
def seat? (c : Compiler) (slot : Int) (id : Value) : Option Text :=
  id.key?.bind fun k => c.memberships.find? k slot

def var? (c : Compiler) (slot : Int) : Labelled → Option Text
  | .person _ id => c.seat? slot id
  | .always _ => if c.builder.declares trueName = true then some trueName else none
  | .not l _ | .and l _ _ | .or l _ _ => c.memo[(l, slot)]?

/-- The variable that is declared for the formula on the team. People have theirs already. -/
def ownName? (slot : Int) : Labelled → Option Text
  | .person _ _ => none
  | .always _ => some trueName
  | .not l _ | .and l _ _ | .or l _ _ => some (indicatorName l slot)

/-- The variable has yet to be declared for a part of the formula. -/
def Missing (c : Compiler) (slot : Int) (node : Labelled) (x : Text) : Prop :=
  ∃ part ∈ node.parts, ownName? slot part = some x ∧ c.var? slot part = none

/-- The gate defines the formula by the variables that its operands have. -/
def Defines (c : Compiler) (slot : Int) (node : Labelled) (g : Gate) : Prop :=
  ∃ xs, List.Forall₂ (fun child x => c.var? slot child = some x) node.children xs ∧
    node.gate? xs = some g

/-- The name is reserved for compilations. -/
def isReserved (x : Text) : Bool := x == trueName || (Text.ofString "n_").isPrefixOf x

def varNames (c : Compiler) : List Text := c.builder.vars.toList.map Variable.name

theorem declares_iff_mem : c.builder.declares x = true ↔ x ∈ c.varNames := by
  rw [Builder.declares_iff, varNames, List.mem_map]

theorem var?_of_not_isLeaf (h : node.isLeaf = false) :
    c.var? slot node = c.memo[(node.label, slot)]? := by
  cases node with
  | person | always => cases h
  | not | and | or => rfl

theorem ownName?_of_not_isLeaf (h : node.isLeaf = false) :
    ownName? slot node = some (indicatorName node.label slot) := by
  cases node with
  | person | always => cases h
  | not | and | or => rfl

theorem isReserved_indicatorName (l : String) (slot : Int) :
    isReserved (indicatorName l slot) = true := by
  simp [isReserved, indicatorName, Text.ofString]

theorem isReserved_of_ownName? (h : ownName? slot node = some x) : isReserved x = true := by
  cases node with
  | person => cases h
  | always =>
    cases h
    decide
  | not | and | or =>
    cases h
    exact isReserved_indicatorName _ _

/-- The label and the team of a compound formula can be read off its variable. -/
theorem eq_of_ownName? {part : Labelled} {s : Int} (hnode : node.isLeaf = false)
    (h : ownName? slot node = some x) (h' : ownName? s part = some x) :
    part.isLeaf = false ∧ node.label = part.label ∧ slot = s := by
  rw [ownName?_of_not_isLeaf hnode] at h
  cases h
  have hleaf : part.isLeaf = false := by
    cases part with
    | person => cases h'
    | always => exact absurd (Option.some.inj h').symm (indicatorName_ne_trueName _ _)
    | not | and | or => rfl
  rw [ownName?_of_not_isLeaf hleaf] at h'
  obtain ⟨hl, hs⟩ := indicatorName_inj (Option.some.inj h').symm
  exact ⟨hleaf, hl, hs⟩

/-! ## What has a variable keeps it -/

/-- Every formula that has a variable keeps it. -/
def Retains (c d : Compiler) : Prop :=
  ∀ slot node x, c.var? slot node = some x → d.var? slot node = some x

theorem Keeps.seat?_eq (h : c.Keeps d) (slot : Int) (id : Value) :
    d.seat? slot id = c.seat? slot id := by
  rw [seat?, h.memberships, seat?]

theorem Keeps.retains (h : c.Keeps d) : c.Retains d := by
  intro slot node x hx
  cases node with
  | person l id => exact (h.seat?_eq slot id).trans hx
  | always l =>
    simp only [var?] at hx ⊢
    split at hx
    · next htrue =>
      rw [if_pos (h.declares _ htrue)]
      exact hx
    · cases hx
  | not | and | or => exact h.memo _ _ hx

theorem Defines.mono {g : Gate} (h : c.Defines slot node g) (hretains : c.Retains d) :
    d.Defines slot node g := by
  obtain ⟨xs, hxs, hg⟩ := h
  exact ⟨xs, hxs.imp fun child x => hretains slot child x, hg⟩

theorem Missing.of_keeps (h : d.Missing slot node x) (hkeeps : c.Keeps d) : c.Missing slot node x := by
  obtain ⟨part, hpart, hown, hnone⟩ := h
  refine ⟨part, hpart, hown, ?_⟩
  cases hvar : c.var? slot part with
  | none => rfl
  | some y =>
    rw [hkeeps.retains slot part y hvar] at hnone
    cases hnone

/-! ## Consistent compilers -/

/-- The compiler is `c₀` with the definitions `ds`, and possibly other variables and memberships. -/
structure Consistent (nodes : List Labelled) (c₀ c : Compiler) (ds : Circuit) : Prop where
  /-- Every definition is recorded once, all its constraints together. -/
  constraints : c.builder.constraints.toList = c₀.builder.constraints.toList ++ ds.constraints
  /-- The variables of compilations are those that are defined, in the same order. -/
  names : c.varNames.filter isReserved = ds.names
  nodup : ds.names.Nodup
  /-- What is remembered are the indicators that are defined. -/
  memo : ∀ l slot x, c.memo[(l, slot)]? = some x ↔ x = indicatorName l slot ∧ x ∈ ds.names
  /-- Every definition is that of a formula of the nodes. -/
  blocks : ∀ p g, (p, g) ∈ ds → ∃ part ∈ nodes.flatMap parts, ∃ slot,
    ownName? slot part = some p ∧ c.Defines slot part g
  /-- A variable is declared after those it is defined by. -/
  ordered : ∀ p g, (p, g) ∈ ds → ∃ earlier later, c.varNames = earlier ++ p :: later ∧
    ∀ a ∈ g.inputs, a ∈ earlier
  grounded : c.IsGrounded

namespace Consistent

theorem mem_names_iff (h : Consistent nodes c₀ c ds) (hx : isReserved x = true) :
    x ∈ ds.names ↔ c.builder.declares x = true := by
  rw [← h.names, List.mem_filter, declares_iff_mem]
  exact and_iff_left hx

/-- A formula has its own variable or none. -/
theorem var?_eq_some_iff (h : Consistent nodes c₀ c ds) (hown : ownName? slot node = some y) :
    c.var? slot node = some x ↔ x = y ∧ y ∈ ds.names := by
  cases node with
  | person => cases hown
  | always =>
    cases hown
    simp only [var?, h.mem_names_iff (by decide : isReserved trueName = true)]
    split
    · next htrue => simp only [htrue, and_true, Option.some.injEq, eq_comm]
    · next hfalse => simp only [hfalse, and_false, reduceCtorEq]
  | not | and | or =>
    cases hown
    show c.memo[_]? = some x ↔ _
    rw [h.memo]
    constructor
    · rintro ⟨rfl, hx⟩
      exact ⟨rfl, hx⟩
    · rintro ⟨rfl, hx⟩
      exact ⟨rfl, hx⟩

/-- The operands of a formula with a variable have variables too. -/
theorem var?_of_children (h : Consistent nodes c₀ c ds) (hsame : Identified nodes)
    (hnode : node ∈ nodes.flatMap parts) (hvar : c.var? slot node = some x) :
    ∀ child ∈ node.children, ∃ y, c.var? slot child = some y := by
  intro child hchild
  have hleaf : node.isLeaf = false := by
    cases node with
    | person | always => cases hchild
    | not | and | or => rfl
  have hown : ownName? slot node = some (indicatorName node.label slot) := ownName?_of_not_isLeaf hleaf
  obtain ⟨rfl, hx⟩ := (h.var?_eq_some_iff hown).1 hvar
  obtain ⟨⟨p, g⟩, hmem, rfl⟩ := List.mem_map.1 hx
  obtain ⟨part, hpart, s, hname, xs, hxs, -⟩ := h.blocks _ g hmem
  obtain ⟨-, hlabel, rfl⟩ := eq_of_ownName? hleaf hown hname
  obtain rfl := hsame node hnode part hpart hlabel
  obtain ⟨y, -, hy⟩ := exists_of_mem_right hxs.flip hchild
  exact ⟨y, hy⟩

theorem var?_of_parts (h : Consistent nodes c₀ c ds) (hsame : Identified nodes)
    (hparts : node.parts ⊆ nodes.flatMap parts) (hvar : c.var? slot node = some x) :
    ∀ part ∈ node.parts, ∃ y, c.var? slot part = some y := by
  induction node using children_induction generalizing x with
  | step node ih =>
    intro part hpart
    rcases mem_parts_iff.1 hpart with rfl | ⟨child, hchild, hpart⟩
    · exact ⟨x, hvar⟩
    · obtain ⟨y, hy⟩ := h.var?_of_children hsame (hparts (self_mem_parts node)) hvar child hchild
      exact ih child hchild (parts_subset_of_mem_children hparts hchild) hy part hpart

theorem declares_of_var? (h : Consistent nodes c₀ c ds) (hvar : c.var? slot node = some x) :
    c.builder.declares x = true := by
  cases hown : ownName? slot node with
  | some y =>
    obtain ⟨rfl, hx⟩ := (h.var?_eq_some_iff hown).1 hvar
    exact (h.mem_names_iff (isReserved_of_ownName? hown)).1 hx
  | none =>
    cases node with
    | person l id =>
      obtain ⟨k, -, hx⟩ := Option.bind_eq_some_iff.1 hvar
      exact h.grounded k slot x hx
    | always | not | and | or => cases hown

theorem not_mem_names (h : Consistent nodes c₀ c ds) {p : Text} {g : Gate} (hadds : c.Adds p g d)
    (hp : isReserved p = true) : p ∉ ds.names := by
  rw [h.mem_names_iff hp, hadds.fresh]
  exact Bool.false_ne_true

/-- Other variables, and memberships in declared ones, change nothing. -/
theorem keep (h : Consistent nodes c₀ c ds) {xs : List Text} (hvars : d.varNames = c.varNames ++ xs)
    (hxs : ∀ x ∈ xs, isReserved x = false)
    (hconstraints : d.builder.constraints.toList = c.builder.constraints.toList)
    (hmemo : d.memo = c.memo) (hretains : c.Retains d) (hgrounded : d.IsGrounded) :
    Consistent nodes c₀ d ds where
  constraints := hconstraints.trans h.constraints
  names := by
    have hnone : xs.filter isReserved = [] := by simpa [List.filter_eq_nil_iff] using hxs
    rw [hvars, List.filter_append, hnone, List.append_nil, h.names]
  nodup := h.nodup
  memo := by rw [hmemo]; exact h.memo
  blocks := by
    intro p g hg
    obtain ⟨part, hpart, s, hown, hdefines⟩ := h.blocks p g hg
    exact ⟨part, hpart, s, hown, hdefines.mono hretains⟩
  ordered := by
    intro p g hg
    obtain ⟨earlier, later, hnames, hinputs⟩ := h.ordered p g hg
    exact ⟨earlier, later ++ xs, by rw [hvars, hnames, List.append_assoc]; rfl, hinputs⟩
  grounded := hgrounded

theorem add (h : Consistent nodes c₀ c ds) {p : Text} {g : Gate} {part : Labelled}
    (hadds : c.Adds p g d) (hkeeps : c.Keeps d) (hpart : part ∈ nodes.flatMap parts)
    (hown : ownName? slot part = some p) (hdefines : c.Defines slot part g)
    (hinputs : ∀ a ∈ g.inputs, c.builder.declares a = true)
    (hmemo : ∀ l t x, d.memo[(l, t)]? = some x ↔
      c.memo[(l, t)]? = some x ∨ x = indicatorName l t ∧ x = p) :
    Consistent nodes c₀ d (ds ++ [(p, g)]) := by
  have hcircuit := isReserved_of_ownName? hown
  have hvars : d.varNames = c.varNames ++ [p] := by simp [varNames, hadds.vars]
  have hnames : Circuit.names (ds ++ [(p, g)]) = ds.names ++ [p] := by simp [Circuit.names]
  constructor
  case constraints =>
    rw [hadds.constraints, h.constraints]
    simp [Circuit.constraints]
  case names =>
    rw [hvars, List.filter_append, h.names, hnames, List.filter_singleton, hcircuit]
    rfl
  case nodup =>
    rw [hnames, List.nodup_append]
    refine ⟨h.nodup, List.nodup_singleton p, ?_⟩
    rintro x hx y hy rfl
    exact h.not_mem_names hadds hcircuit (List.mem_singleton.1 hy ▸ hx)
  case memo =>
    intro l t x
    rw [hmemo, h.memo, hnames, List.mem_append, List.mem_singleton, ← and_or_left]
  case blocks =>
    intro q k hk
    rcases List.mem_append.1 hk with hk | hk
    · obtain ⟨part, hpart, s, hown, hdefines⟩ := h.blocks q k hk
      exact ⟨part, hpart, s, hown, hdefines.mono hkeeps.retains⟩
    · cases List.mem_singleton.1 hk
      exact ⟨part, hpart, slot, hown, hdefines.mono hkeeps.retains⟩
  case ordered =>
    intro q k hk
    rw [hvars]
    rcases List.mem_append.1 hk with hk | hk
    · obtain ⟨earlier, later, heq, hin⟩ := h.ordered q k hk
      exact ⟨earlier, later ++ [p], by rw [heq, List.append_assoc]; rfl, hin⟩
    · cases List.mem_singleton.1 hk
      exact ⟨c.varNames, [], rfl, fun a ha => declares_iff_mem.1 (hinputs a ha)⟩
  case grounded =>
    intro k t x hx
    rw [hkeeps.memberships] at hx
    exact hkeeps.declares x (h.grounded k t x hx)

end Consistent

/-! ## Single steps -/

/-- The fault for a person without a seat in the team. -/
def seatFault (slot : Int) (id : Value) : Fault :=
  match id.key? with
  | none => .noKey
  | some _ =>
    match id.text with
    | .ok shown => .model (.noMembership shown (toString slot))
    | .error f => .text f

theorem result_memberVar (slot : Int) (id : Value) (c : Compiler) :
    result (memberVar slot id) c = match c.seat? slot id with
      | some x => (.ok x, c)
      | none => (.error (seatFault slot id), c) := by
  unfold memberVar seat? seatFault
  rw [result_bind, Value.key]
  cases hk : id.key? with
  | none => rfl
  | some k =>
    rw [Option.bind_some]
    refine (result_get_bind _ c).trans ?_
    cases hx : c.memberships.find? k slot with
    | some x => rfl
    | none =>
      show result (liftM id.text >>= _) c = _
      rw [result_bind]
      cases htext : id.text with
      | ok shown => rfl
      | error f => rfl

theorem exists_adds_trueVar (h : c.builder.declares trueName = false) :
    ∃ d, Yields trueVar c trueName d ∧ c.Adds trueName .always d ∧ c.Keeps d ∧ d.memo = c.memo := by
  obtain ⟨x, d, hx⟩ : ∃ x d, Yields trueVar c x d := exists_yields_trueVar
  have hcompiles : Compiles 0 (.always "") c x d := compiles_of_yields_trueVar hx
  have hkeeps := hcompiles.keeps
  cases hcompiles with
  | pinned htrue =>
    rw [h] at htrue
    cases htrue
  | pin hadds hmemo => exact ⟨d, hx, hadds, hkeeps, hmemo⟩
  | known hleaf => cases hleaf

theorem exists_adds_indicator {l : String} {g : Gate} (hnone : c.memo[(l, slot)]? = none)
    (hnew : c.builder.declares (indicatorName l slot) = false)
    (hg : ∀ a ∈ g.inputs, c.builder.declares a = true) :
    ∃ d, Yields (indicator l slot fun p => g.define p) c (indicatorName l slot) d ∧
      c.Adds (indicatorName l slot) g d ∧ c.Keeps d ∧
      d.memo = c.memo.insert (l, slot) (indicatorName l slot) := by
  obtain ⟨x, d, hx⟩ : ∃ x d, Yields (indicator l slot fun p => g.define p) c x d :=
    exists_yields_indicator hnew fun e he => exists_yields_define ((he _).2 (Or.inr rfl))
      fun a ha => (he a).2 (Or.inl (hg a ha))
  obtain ⟨rfl, hadds, hmemo⟩ := adds_of_yields_indicator hx fun _ _ => records_define
  exact ⟨d, hx, hadds, (Keeps.refl c).record hnone hadds hmemo, hmemo⟩

/-! ## Whole formulas -/

/-- `d` comes from `c` by the definitions `es`, whose variables were missing. -/
structure Grows (nodes : List Labelled) (c₀ c : Compiler) (ds : Circuit) (missing : Text → Prop)
    (es : Circuit) (d : Compiler) : Prop where
  consistent : Consistent nodes c₀ d (ds ++ es)
  builder : c.builder.Extends es d.builder
  keeps : c.Keeps d
  missing : ∀ x ∈ es.names, missing x

/-- The fault is that of the first of the people who has no seat in the team. -/
def StopsAt (c : Compiler) (slot : Int) (ids : List Value) (e : Fault) : Prop :=
  ∃ before id after, ids = before ++ id :: after ∧ (∀ i ∈ before, c.seat? slot i ≠ none) ∧
    c.seat? slot id = none ∧ e = seatFault slot id

/-- From every consistent compiler the formula is compiled, or stops at a person without a seat; either
way it leaves a consistent compiler, with definitions that were missing. -/
def Descends (nodes : List Labelled) (c₀ : Compiler) (slot : Int) (node : Labelled) : Prop :=
  ∀ c ds, Consistent nodes c₀ c ds → ∃ es d, Grows nodes c₀ c ds (c.Missing slot node) es d ∧
    ((∃ x, Yields (descend slot node) c x d ∧ d.var? slot node = some x) ∨
      ∃ e, result (descend slot node) c = (.error e, d) ∧ c.StopsAt slot node.formula.ids e)

theorem Grows.refl (h : Consistent nodes c₀ c ds) (missing : Text → Prop) :
    Grows nodes c₀ c ds missing [] c :=
  ⟨by rwa [List.append_nil], .refl _, .refl c, nofun⟩

theorem Grows.mono {missing missing' : Text → Prop} (h : Grows nodes c₀ c ds missing es d)
    (hmissing : ∀ x, missing x → missing' x) : Grows nodes c₀ c ds missing' es d :=
  ⟨h.consistent, h.builder, h.keeps, fun x hx => hmissing x (h.missing x hx)⟩

theorem Grows.trans {fs : Circuit} {missing missing' : Text → Prop}
    (h : Grows nodes c₀ c ds missing es d) (h' : Grows nodes c₀ d (ds ++ es) missing' fs e)
    (hmissing : ∀ x, missing' x → missing x) : Grows nodes c₀ c ds missing (es ++ fs) e where
  consistent := by rw [← List.append_assoc]; exact h'.consistent
  builder := h.builder.trans h'.builder
  keeps := h.keeps.trans h'.keeps
  missing := by
    intro x hx
    rw [Circuit.names, List.map_append, List.mem_append] at hx
    exact hx.elim (h.missing x) fun hx => hmissing x (h'.missing x hx)

theorem Grows.add (h : Consistent nodes c₀ c ds) {p : Text} {g : Gate} {missing : Text → Prop}
    (hadds : c.Adds p g d) (hkeeps : c.Keeps d) (hnode : node ∈ nodes.flatMap parts)
    (hown : ownName? slot node = some p) (hdefines : c.Defines slot node g)
    (hinputs : ∀ a ∈ g.inputs, c.builder.declares a = true)
    (hmemo : ∀ l t x, d.memo[(l, t)]? = some x ↔
      c.memo[(l, t)]? = some x ∨ x = indicatorName l t ∧ x = p) (hmissing : missing p) :
    Grows nodes c₀ c ds missing [(p, g)] d where
  consistent := h.add hadds hkeeps hnode hown hdefines hinputs hmemo
  builder := hadds.extends hinputs
  keeps := hkeeps
  missing := by
    intro x hx
    rw [Circuit.names, List.map_singleton, List.mem_singleton] at hx
    rwa [hx]

theorem StopsAt.append {ids : List Value} {e : Fault} (h : c.StopsAt slot ids e) (more : List Value) :
    c.StopsAt slot (ids ++ more) e := by
  obtain ⟨before, id, after, rfl, hrest⟩ := h
  exact ⟨before, id, after ++ more, by rw [List.append_assoc]; rfl, hrest⟩

theorem StopsAt.prepend {ids more : List Value} {e : Fault} (h : d.StopsAt slot ids e)
    (hkeeps : c.Keeps d) (hmore : ∀ i ∈ more, c.seat? slot i ≠ none) :
    c.StopsAt slot (more ++ ids) e := by
  obtain ⟨before, id, after, rfl, hbefore, hid, he⟩ := h
  refine ⟨more ++ before, id, after, by rw [List.append_assoc], ?_, hkeeps.seat?_eq slot id ▸ hid, he⟩
  exact List.forall_mem_append.2 ⟨hmore, fun i hi => hkeeps.seat?_eq slot i ▸ hbefore i hi⟩

/-- Everybody in a formula with a variable has a seat. -/
theorem Consistent.seat?_ne_none (h : Consistent nodes c₀ c ds) (hsame : Identified nodes)
    (hparts : node.parts ⊆ nodes.flatMap parts) (hvar : c.var? slot node = some x) :
    ∀ id ∈ node.formula.ids, c.seat? slot id ≠ none := by
  intro id hid
  obtain ⟨l, hl⟩ := mem_ids_iff.1 hid
  obtain ⟨y, hy⟩ := h.var?_of_parts hsame hparts hvar _ hl
  exact Option.ne_none_iff_exists'.2 ⟨y, hy⟩

/-- Formulas one after the other, until one of them stops. -/
theorem exists_mapM_descend (hsame : Identified nodes) {children : List Labelled}
    (hchildren : ∀ child ∈ children, child.parts ⊆ nodes.flatMap parts ∧ Descends nodes c₀ slot child)
    (h : Consistent nodes c₀ c ds) :
    ∃ es d, Grows nodes c₀ c ds (fun x => ∃ child ∈ children, c.Missing slot child x) es d ∧
      ((∃ xs, Yields (children.mapM (descend slot)) c xs d ∧
          List.Forall₂ (fun child x => d.var? slot child = some x) children xs) ∨
        ∃ e, result (children.mapM (descend slot)) c = (.error e, d) ∧
          c.StopsAt slot (children.flatMap (·.formula.ids)) e) := by
  induction children generalizing c ds with
  | nil => exact ⟨[], c, .refl h _, Or.inl ⟨[], yields_pure_iff.2 ⟨rfl, rfl⟩, .nil⟩⟩
  | cons child children ih =>
    obtain ⟨⟨hparts, hchild⟩, hrest⟩ := List.forall_mem_cons.1 hchildren
    rw [List.mapM_cons, List.flatMap_cons]
    obtain ⟨es, d, hgrows, ⟨x, hx, hvar⟩ | ⟨e, he, hstops⟩⟩ := hchild c ds h
    · replace hgrows : Grows nodes c₀ c ds (fun x => ∃ n ∈ child :: children, c.Missing slot n x) es d :=
        hgrows.mono fun x hx => ⟨child, List.mem_cons_self, hx⟩
      have hlater : ∀ x, (∃ n ∈ children, d.Missing slot n x) →
          ∃ n ∈ child :: children, c.Missing slot n x :=
        fun x ⟨n, hn, hx⟩ => ⟨n, List.mem_cons_of_mem _ hn, hx.of_keeps hgrows.keeps⟩
      rw [result_bind_of_yields hx]
      obtain ⟨fs, e, hgrows', ⟨xs, hxs, hvars⟩ | ⟨f, hf, hstops⟩⟩ := ih hrest hgrows.consistent
      · refine ⟨es ++ fs, e, hgrows.trans hgrows' hlater, Or.inl ⟨x :: xs, ?_, .cons ?_ hvars⟩⟩
        · exact yields_bind_iff.2 ⟨x, d, hx, yields_bind_iff.2 ⟨xs, e, hxs,
            yields_pure_iff.2 ⟨rfl, rfl⟩⟩⟩
        · exact hgrows'.keeps.retains slot child x hvar
      · refine ⟨es ++ fs, e, hgrows.trans hgrows' hlater, Or.inr ⟨f, ?_, ?_⟩⟩
        · rw [result_bind, hf]
        · refine hstops.prepend hgrows.keeps fun i hi => ?_
          rw [← hgrows.keeps.seat?_eq]
          exact hgrows.consistent.seat?_ne_none hsame hparts hvar i hi
    · refine ⟨es, d, hgrows.mono fun x hx => ⟨child, List.mem_cons_self, hx⟩, Or.inr ⟨e, ?_, ?_⟩⟩
      · rw [result_bind, he]
      · exact hstops.append _

/-- The label of a formula is not remembered for what is below it. -/
theorem Grows.memo_eq_none (hgrows : Grows nodes c₀ c ds
      (fun x => ∃ child ∈ node.children, c.Missing slot child x) es d)
    (h : Consistent nodes c₀ c ds) (hsame : Identified nodes)
    (hparts : node.parts ⊆ nodes.flatMap parts) (hleaf : node.isLeaf = false)
    (hnone : c.memo[(node.label, slot)]? = none) : d.memo[(node.label, slot)]? = none := by
  rw [Option.eq_none_iff_forall_ne_some]
  intro y hy
  obtain ⟨rfl, hmem⟩ := (hgrows.consistent.memo _ _ y).1 hy
  rw [Circuit.names, List.map_append, List.mem_append] at hmem
  rcases hmem with hmem | hmem
  · rw [(h.memo _ _ _).2 ⟨rfl, hmem⟩] at hnone
    cases hnone
  · obtain ⟨child, hchild, part, hpart, hown, -⟩ := hgrows.missing _ hmem
    obtain ⟨-, hlabel, -⟩ := eq_of_ownName? hleaf (ownName?_of_not_isLeaf hleaf) hown
    have hknown := parts_subset_of_mem_children hparts hchild hpart
    obtain rfl := hsame node (hparts (self_mem_parts node)) part hknown hlabel
    exact absurd (sizeOf_formula_lt hchild) (Nat.not_lt.2 (sizeOf_formula_le hpart))

theorem getElem?_insert_iff {m : Std.HashMap (String × Int) Text} {l : String}
    (hnone : m[(l, slot)]? = none) (k : String) (t : Int) (x : Text) :
    (m.insert (l, slot) (indicatorName l slot))[(k, t)]? = some x ↔
      m[(k, t)]? = some x ∨ x = indicatorName k t ∧ x = indicatorName l slot := by
  rw [Std.HashMap.getElem?_insert]
  split
  · next heq =>
    cases eq_of_beq heq
    simp [hnone, eq_comm]
  · next hne =>
    refine (or_iff_left ?_).symm
    rintro ⟨rfl, hx⟩
    obtain ⟨rfl, rfl⟩ := indicatorName_inj hx
    exact hne (beq_self_eq_true _)

/-- A compound formula: its operands one after the other, and then its indicator, which is new. -/
theorem Descends.compound (hsame : Identified nodes) (hparts : node.parts ⊆ nodes.flatMap parts)
    (hleaf : node.isLeaf = false) (hchildren : ∀ child ∈ node.children, Descends nodes c₀ slot child) :
    Descends nodes c₀ slot node := by
  intro c ds h
  cases hmemo : c.memo[(node.label, slot)]? with
  | some x =>
    exact ⟨[], c, .refl h _, Or.inl ⟨x, yields_descend_of_memo hleaf hmemo,
      (var?_of_not_isLeaf hleaf).trans hmemo⟩⟩
  | none =>
    have hbelow : ∀ child ∈ node.children, child.parts ⊆ nodes.flatMap parts ∧
        Descends nodes c₀ slot child :=
      fun child hchild => ⟨parts_subset_of_mem_children hparts hchild, hchildren child hchild⟩
    have hmissing : ∀ x, (∃ child ∈ node.children, c.Missing slot child x) → c.Missing slot node x :=
      fun x ⟨child, hchild, part, hpart, hx⟩ =>
        ⟨part, mem_parts_iff.2 (Or.inr ⟨child, hchild, hpart⟩), hx⟩
    unfold Yields
    simp only [result_descend hleaf hmemo]
    obtain ⟨es, d, hgrows, ⟨xs, hxs, hvars⟩ | ⟨e, he, hstops⟩⟩ := exists_mapM_descend hsame hbelow h
    · obtain ⟨g, hg, hinputs⟩ := exists_gate? hleaf hvars.length_eq
      have hown : ownName? slot node = some (indicatorName node.label slot) :=
        ownName?_of_not_isLeaf hleaf
      have hnone := hgrows.memo_eq_none h hsame hparts hleaf hmemo
      have hdeclared : ∀ a ∈ g.inputs, d.builder.declares a = true := by
        intro a ha
        obtain ⟨child, -, hchild⟩ := exists_of_mem_right hvars (hinputs a ha)
        exact hgrows.consistent.declares_of_var? hchild
      have hnew : d.builder.declares (indicatorName node.label slot) = false := by
        rw [← Bool.not_eq_true, ← hgrows.consistent.mem_names_iff (isReserved_of_ownName? hown)]
        intro hmem
        rw [(hgrows.consistent.memo _ _ _).2 ⟨rfl, hmem⟩] at hnone
        cases hnone
      obtain ⟨e, he, hadds, hkeeps, hinsert⟩ := exists_adds_indicator hnone hnew hdeclared
      have hself : c.Missing slot node (indicatorName node.label slot) :=
        ⟨node, self_mem_parts node, hown, (var?_of_not_isLeaf hleaf).trans hmemo⟩
      have hnext : Grows nodes c₀ d (ds ++ es) (c.Missing slot node)
          [(indicatorName node.label slot, g)] e := by
        refine .add hgrows.consistent hadds hkeeps (hparts (self_mem_parts node)) hown ⟨xs, hvars, hg⟩
          hdeclared ?_ hself
        rw [hinsert]
        exact getElem?_insert_iff hnone
      refine ⟨_, e, (hgrows.mono hmissing).trans hnext fun _ hx => hx,
        Or.inl ⟨indicatorName node.label slot, ?_, ?_⟩⟩
      · rw [result_bind_of_yields hxs, hg]
        exact he
      · rw [var?_of_not_isLeaf hleaf, hinsert, Std.HashMap.getElem?_insert_self]
    · refine ⟨es, d, hgrows.mono hmissing, Or.inr ⟨e, ?_, ?_⟩⟩
      · rw [result_bind, he]
      · rwa [ids_of_children hleaf]

/-- Every formula of the nodes is compiled, or stops, by induction on the formula. -/
theorem descends (hsame : Identified nodes) (hparts : node.parts ⊆ nodes.flatMap parts) :
    Descends nodes c₀ slot node := by
  induction node using children_induction with
  | step node ih =>
    cases hleaf : node.isLeaf with
    | false =>
      exact .compound hsame hparts hleaf fun child hchild =>
        ih child hchild (parts_subset_of_mem_children hparts hchild)
    | true =>
      intro c ds h
      cases node with
      | not | and | or => cases hleaf
      | person l id =>
        have hresult := result_memberVar slot id c
        refine ⟨[], c, .refl h _, ?_⟩
        cases hseat : c.seat? slot id with
        | some x =>
          rw [hseat] at hresult
          exact Or.inl ⟨x, hresult, hseat⟩
        | none =>
          rw [hseat] at hresult
          exact Or.inr ⟨_, hresult, [], id, [], rfl, List.forall_mem_nil _, hseat, rfl⟩
      | always l =>
        cases htrue : c.builder.declares trueName with
        | true =>
          refine ⟨[], c, .refl h _, Or.inl ⟨trueName, ?_, if_pos htrue⟩⟩
          rw [descend, trueVar, yields_get_bind_iff, if_pos htrue]
          exact yields_pure_iff.2 ⟨rfl, rfl⟩
        | false =>
          obtain ⟨d, hd, hadds, hkeeps, hmemo⟩ := exists_adds_trueVar htrue
          have hdeclared := (hadds.declares_iff trueName).2 (Or.inr rfl)
          have hself : c.Missing slot (.always l) trueName := by
            refine ⟨_, self_mem_parts _, rfl, if_neg ?_⟩
            rw [htrue]
            exact Bool.false_ne_true
          have hnext : Grows nodes c₀ c ds (c.Missing slot (.always l)) [(trueName, .always)] d := by
            have hdefines : c.Defines slot (.always l) .always := ⟨[], .nil, rfl⟩
            have hinputs : ∀ a ∈ Gate.always.inputs, c.builder.declares a = true := List.forall_mem_nil _
            refine .add h hadds hkeeps (hparts (self_mem_parts _)) rfl hdefines hinputs ?_ hself
            intro k t x
            rw [hmemo]
            refine (or_iff_left ?_).symm
            rintro ⟨rfl, hx⟩
            exact indicatorName_ne_trueName k t hx
          exact ⟨_, d, hnext, Or.inl ⟨trueName, hd, if_pos hdeclared⟩⟩

end Compiler
end BalancedTeams
