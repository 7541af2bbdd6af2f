import BalancedTeams.Proofs.Compile.Stopping
import BalancedTeams.Proofs.Model.Existence
import Mathlib.Data.List.Dedup

/-!
# What a compiler defines, counted

* `Labelled.Unambiguous.identified` : formulas whose labels were computed are told apart by them, with
  all the labels below;
* `Compiler.Settles` : the compiler has worked off a list of tasks, each a formula on a team, and defined
  what was missing for them and nothing else;
* `Compiler.settles_of_yields_compileAll` : compiling formulas on all teams settles them;
* `Compiler.census` : the variables that the parts of formulas need, each once, with the number of
  constraints of each;
* `Compiler.Settles.perm_census` : these are what is defined, from nothing.
-/

namespace BalancedTeams

/-! ## Labels -/

theorem Formula.labelled_of_mem_parts {f : Formula} {node part : Labelled} (h : f.labelled = .ok node)
    (hpart : part ∈ node.parts) : part.formula.labelled = .ok part := by
  induction f generalizing node with
  | person id =>
    obtain ⟨text, htext, hnode⟩ := bind_eq_ok_iff.1 h
    cases hnode
    rw [List.mem_singleton.1 hpart]
    exact h
  | always =>
    cases h
    rw [List.mem_singleton.1 hpart]
    rfl
  | not f ih =>
    obtain ⟨child, hchild, hnode⟩ := bind_eq_ok_iff.1 h
    cases hnode
    rcases List.mem_cons.1 hpart with rfl | hpart
    · rw [Labelled.formula, formula_of_labelled hchild]
      exact h
    · exact ih hchild hpart
  | and f g ihf ihg | or f g ihf ihg =>
    obtain ⟨left, hleft, hnode⟩ := bind_eq_ok_iff.1 h
    obtain ⟨right, hright, hnode⟩ := bind_eq_ok_iff.1 hnode
    cases hnode
    rcases List.mem_cons.1 hpart with rfl | hpart
    · rw [Labelled.formula, formula_of_labelled hleft, formula_of_labelled hright]
      exact h
    · rcases List.mem_append.1 hpart with hpart | hpart
      · exact ihf hleft hpart
      · exact ihg hright hpart

namespace Labelled

theorem Unambiguous.identified {nodes : List Labelled} (h : Unambiguous nodes)
    (hlabelled : ∀ node ∈ nodes, node.formula.labelled = .ok node) : Identified nodes := by
  have hpart : ∀ s ∈ nodes.flatMap parts, s.formula.labelled = .ok s := by
    intro s hs
    obtain ⟨node, hnode, hs⟩ := List.mem_flatMap.1 hs
    exact Formula.labelled_of_mem_parts (hlabelled node hnode) hs
  intro s hs t ht hlabel
  have hformula := h s hs t ht hlabel
  exact Except.ok.inj ((hpart s hs).symm.trans (hformula ▸ hpart t ht))

/-! ## Kinds of parts -/

/-- Conjunctions and disjunctions. -/
def isBinary : Labelled → Bool
  | and _ _ _ => true
  | or _ _ _ => true
  | _ => false

def isNegation : Labelled → Bool
  | not _ _ => true
  | _ => false

def isAlways : Labelled → Bool
  | always _ => true
  | _ => false

def rows : Labelled → Nat
  | person _ _ => 0
  | always _ => 1
  | not _ _ => 1
  | and _ _ _ => 3
  | or _ _ _ => 3

/-- The labels of the parts of one kind, each once. -/
def labelsOf (kind : Labelled → Bool) (nodes : List Labelled) : List String :=
  (((nodes.flatMap parts).filter kind).map label).dedup

theorem mem_labelsOf {kind : Labelled → Bool} {nodes : List Labelled} {l : String} :
    l ∈ labelsOf kind nodes ↔ ∃ part ∈ nodes.flatMap parts, kind part = true ∧ part.label = l := by
  rw [labelsOf, List.mem_dedup, List.mem_map]
  simp only [List.mem_filter, and_assoc]

theorem length_constraints_of_gate? {node : Labelled} {xs : List Text} {g : Gate}
    (h : node.gate? xs = some g) (p : Text) : (g.constraints p).length = node.rows := by
  unfold gate? at h
  split at h <;> first | cases h; rfl | cases h

end Labelled

namespace Compiler
open Labelled

variable {c₀ c d c' : Compiler} {ds : Circuit} {nodes : List Labelled} {node : Labelled} {t : Int}
  {x : Text} {teams : Nat}

/-! ## Tasks -/

/-- Formulas with teams: formula by formula, each with all teams. -/
def tasks (nodes : List Labelled) (teams : Nat) : List (Labelled × Int) :=
  nodes.flatMap fun node => (slots teams).map fun t => (node, t)

theorem mem_tasks {e : Labelled × Int} :
    e ∈ tasks nodes teams ↔ e.1 ∈ nodes ∧ e.2 ∈ slots teams := by
  obtain ⟨node, t⟩ := e
  simp [tasks]

/-- From `c`, with the definitions `ds`, the compiler `d` has worked off the tasks: each has its variable,
and only what was missing for one of them has been defined. -/
def Settles (nodes : List Labelled) (c₀ c : Compiler) (ds : Circuit) (done : List (Labelled × Int))
    (d : Compiler) : Prop :=
  ∃ es, Grows nodes c₀ c ds (fun x => ∃ e ∈ done, c.Missing e.2 e.1 x) es d ∧
    ∀ e ∈ done, ∃ x, d.var? e.2 e.1 = some x

theorem settles_nil (h : Consistent nodes c₀ c ds) : Settles nodes c₀ c ds [] c :=
  ⟨[], .refl h _, nofun⟩

theorem Settles.step {done : List (Labelled × Int)} (h : Settles nodes c₀ c ds done d)
    (hsame : Identified nodes) (hparts : node.parts ⊆ nodes.flatMap parts)
    (hx : Yields (compile t node) d x c') : Settles nodes c₀ c ds (done ++ [(node, t)]) c' := by
  obtain ⟨es, hgrows, hdone⟩ := h
  rw [compile_eq_descend] at hx
  obtain ⟨fs, e, hgrows', ⟨y, hy, hvar⟩ | ⟨e, he, -⟩⟩ :=
    descends hsame hparts d (ds ++ es) hgrows.consistent
  · cases hx.symm.trans hy
    refine ⟨es ++ fs, (hgrows.mono ?_).trans hgrows' ?_, ?_⟩
    · rintro y ⟨e, he, hmissing⟩
      exact ⟨e, List.mem_append_left _ he, hmissing⟩
    · intro y hmissing
      exact ⟨(node, t), List.mem_append_right _ List.mem_cons_self, hmissing.of_keeps hgrows.keeps⟩
    · intro e he
      rcases List.mem_append.1 he with he | he
      · obtain ⟨y, hy⟩ := hdone e he
        exact ⟨y, hgrows'.keeps.retains _ _ y hy⟩
      · rw [List.mem_singleton.1 he]
        exact ⟨x, hvar⟩
  · cases hx.symm.trans he

/-- Formulas that are compiled on all teams are settled. By induction on the formulas, and for each on the
teams. -/
theorem settles_of_yields_compileAll {more : List Labelled} {vars : List (List Text)}
    (h : Consistent nodes c₀ c ds) (hsame : Identified nodes) (hmore : more ⊆ nodes)
    (hvars : Yields (compileAll teams more) c vars c') :
    Settles nodes c₀ c ds (tasks more teams) c' := by
  refine hvars.mapM_induction (I := fun done _ d => Settles nodes c₀ c ds (tasks done teams) d) ?_
    (settles_nil h)
  intro done _ node xs d d' hnode hd hxs
  rw [tasks, List.flatMap_append, List.flatMap_singleton]
  refine hxs.mapM_induction
    (I := fun placed _ e => Settles nodes c₀ c ds (tasks done teams ++ placed.map (node, ·)) e) ?_
    (by simpa using hd)
  intro placed _ t x e e' _ he hx
  rw [List.map_append, ← List.append_assoc]
  exact he.step hsame (parts_subset_flatMap (hmore hnode)) hx

/-! ## The census -/

/-- The pinned variable, with its one constraint, if `always` is a part of the formulas. -/
def pinned (nodes : List Labelled) : List (Text × Nat) :=
  if (nodes.flatMap parts).any isAlways then [(trueName, 1)] else []

/-- The indicators of the labels on all teams, each with the number of its constraints. -/
def indicators (labels : List String) (teams rows : Nat) : List (Text × Nat) :=
  labels.flatMap fun l => (slots teams).map fun t => (indicatorName l t, rows)

/-- The variables that the parts of the formulas need on the teams, each once, with the numbers of their
constraints. -/
def census (nodes : List Labelled) (teams : Nat) : List (Text × Nat) :=
  pinned nodes ++ (indicators (labelsOf isNegation nodes) teams 1 ++
    indicators (labelsOf isBinary nodes) teams 3)

theorem mem_pinned {k : Nat} : (x, k) ∈ pinned nodes ↔
    (∃ part ∈ nodes.flatMap parts, isAlways part = true) ∧ x = trueName ∧ k = 1 := by
  rw [pinned, ← List.any_eq_true]
  split
  · next h => simp [h]
  · next h => simp [h]

theorem mem_indicators {labels : List String} {rows k : Nat} : (x, k) ∈ indicators labels teams rows ↔
    k = rows ∧ ∃ l ∈ labels, ∃ t ∈ slots teams, indicatorName l t = x := by
  simp only [indicators, List.mem_flatMap, List.mem_map, Prod.mk.injEq]
  constructor
  · rintro ⟨l, hl, t, ht, hx, rfl⟩
    exact ⟨rfl, l, hl, t, ht, hx⟩
  · rintro ⟨rfl, l, hl, t, ht, hx⟩
    exact ⟨l, hl, t, ht, hx, rfl⟩

/-- Who is in the census: the variables of the parts, with the rows of the parts. -/
theorem mem_census {k : Nat} (hteams : 0 < teams) : (x, k) ∈ census nodes teams ↔
    ∃ part ∈ nodes.flatMap parts, ∃ t ∈ slots teams, ownName? t part = some x ∧ part.rows = k := by
  have hslot : (0 : Int) ∈ slots teams := List.mem_map_of_mem (List.mem_range.2 hteams)
  simp only [census, List.mem_append, mem_pinned, mem_indicators, mem_labelsOf]
  constructor
  · rintro (⟨⟨part, hpart, hkind⟩, rfl, rfl⟩ | ⟨rfl, l, ⟨part, hpart, hkind, rfl⟩, t, ht, rfl⟩ |
      ⟨rfl, l, ⟨part, hpart, hkind, rfl⟩, t, ht, rfl⟩)
    · refine ⟨part, hpart, 0, hslot, ?_⟩
      cases part <;> first | exact ⟨rfl, rfl⟩ | cases hkind
    · refine ⟨part, hpart, t, ht, ?_⟩
      cases part <;> first | exact ⟨rfl, rfl⟩ | cases hkind
    · refine ⟨part, hpart, t, ht, ?_⟩
      cases part <;> first | exact ⟨rfl, rfl⟩ | cases hkind
  · rintro ⟨part, hpart, t, ht, hown, rfl⟩
    cases part with
    | person => cases hown
    | always =>
      cases hown
      exact Or.inl ⟨⟨_, hpart, rfl⟩, rfl, rfl⟩
    | not =>
      cases hown
      exact Or.inr (Or.inl ⟨rfl, _, ⟨_, hpart, rfl, rfl⟩, t, ht, rfl⟩)
    | and | or =>
      cases hown
      exact Or.inr (Or.inr ⟨rfl, _, ⟨_, hpart, rfl, rfl⟩, t, ht, rfl⟩)

theorem nodup_indicators {labels : List String} (teams rows : Nat) (h : labels.Nodup) :
    (indicators labels teams rows).Nodup := by
  rw [indicators, List.nodup_flatMap]
  refine ⟨fun l _ => (nodup_slots teams).map fun s t hst => ?_, h.imp fun {l k} hlk => ?_⟩
  · exact (indicatorName_inj (Prod.mk.inj hst).1).2
  · refine List.disjoint_left.2 fun e he he' => ?_
    obtain ⟨s, -, rfl⟩ := List.mem_map.1 he
    obtain ⟨t, -, heq⟩ := List.mem_map.1 he'
    exact hlk (indicatorName_inj (Prod.mk.inj heq).1).1.symm

theorem nodup_census (nodes : List Labelled) (teams : Nat) : (census nodes teams).Nodup := by
  have hpinned : (pinned nodes).Nodup := by
    unfold pinned
    split
    · exact List.nodup_singleton _
    · exact List.nodup_nil
  refine List.nodup_append'.2 ⟨hpinned, List.nodup_append'.2 ⟨nodup_indicators teams 1 (List.nodup_dedup _),
    nodup_indicators teams 3 (List.nodup_dedup _), ?_⟩, ?_⟩
  · rintro ⟨x, k⟩ h h'
    have hone := (mem_indicators.1 h).1
    have hthree := (mem_indicators.1 h').1
    omega
  · rintro ⟨x, k⟩ h h'
    obtain ⟨-, rfl, rfl⟩ := mem_pinned.1 h
    rcases List.mem_append.1 h' with h' | h'
    all_goals
      obtain ⟨-, l, -, t, -, htrue⟩ := mem_indicators.1 h'
      exact indicatorName_ne_trueName l t htrue

/-- A definition has as many constraints as the part has rows whose variable it defines. -/
theorem Consistent.length_constraints (h : Consistent nodes c₀ c ds) (hsame : Identified nodes)
    (hnode : node ∈ nodes.flatMap parts) (hown : ownName? t node = some x) {g : Gate}
    (hmem : (x, g) ∈ ds) : (g.constraints x).length = node.rows := by
  obtain ⟨part, hpart, s, hown', xs, -, hg⟩ := h.blocks x g hmem
  rw [length_constraints_of_gate? hg]
  cases hleaf : node.isLeaf with
  | false =>
    obtain ⟨-, hlabel, -⟩ := eq_of_ownName? hleaf hown hown'
    rw [hsame node hnode part hpart hlabel]
  | true =>
    cases node with
    | not | and | or => cases hleaf
    | person => cases hown
    | always =>
      cases hown
      cases part with
      | person => cases hown'
      | always => rfl
      | not | and | or => exact absurd (Option.some.inj hown') (indicatorName_ne_trueName _ _)

/-- **What is defined for formulas on all teams is the census of their parts.** -/
theorem Settles.perm_census (h : Settles nodes c₀ c₀ [] (tasks nodes teams) c) (hsame : Identified nodes)
    (hteams : 0 < teams) : ∃ es, c₀.builder.Extends es c.builder ∧
      (es.map fun e => (e.1, (e.2.constraints e.1).length)).Perm (census nodes teams) := by
  obtain ⟨es, hgrows, hdone⟩ := h
  have hcons : Consistent nodes c₀ c es := hgrows.consistent
  have hnodup : (es.map fun e => (e.1, (e.2.constraints e.1).length)).Nodup := by
    refine List.Nodup.of_map Prod.fst ?_
    rw [List.map_map]
    exact hcons.nodup
  refine ⟨es, hgrows.builder, (List.perm_ext_iff_of_nodup hnodup (nodup_census nodes teams)).2 ?_⟩
  rintro ⟨x, k⟩
  rw [mem_census hteams]
  constructor
  · intro hx
    obtain ⟨⟨p, g⟩, hmem, heq⟩ := List.mem_map.1 hx
    cases heq
    obtain ⟨⟨node, t⟩, htask, part, hpart, hown, -⟩ := hgrows.missing _ (List.mem_map_of_mem hmem)
    obtain ⟨hnode, ht⟩ := mem_tasks.1 htask
    have hknown := parts_subset_flatMap hnode hpart
    exact ⟨part, hknown, t, ht, hown, (hcons.length_constraints hsame hknown hown hmem).symm⟩
  · rintro ⟨part, hknown, t, ht, hown, rfl⟩
    obtain ⟨node, hnode, hpart⟩ := List.mem_flatMap.1 hknown
    obtain ⟨y, hy⟩ := hdone (node, t) (mem_tasks.2 ⟨hnode, ht⟩)
    obtain ⟨z, hz⟩ := hcons.var?_of_parts hsame (parts_subset_flatMap hnode) hy part hpart
    obtain ⟨⟨p, g⟩, hmem, rfl⟩ := List.mem_map.1 ((hcons.var?_eq_some_iff hown).1 hz).2
    refine List.mem_map.2 ⟨_, hmem, ?_⟩
    rw [← hcons.length_constraints hsame hknown hown hmem]

end Compiler
end BalancedTeams
