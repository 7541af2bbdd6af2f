import BalancedTeams.Proofs.Compile.Recording
import BalancedTeams.Proofs.Model.Soundness

/-!
# Models of requests are well formed

* `Compiler.growing_assemble` : a builder grows under an assembly, also where it fails;
* `Request.isWellFormed_of_model` : the model of a request has different names, and its constraints and
  its objective are over declared variables.
-/

namespace BalancedTeams
namespace Compiler

/-! ## Assemblies -/

theorem growing_declareMemberships (people : List Person) (teams : Nat) :
    Growing (declareMemberships people teams) := by
  refine .mapM (fun p => (growing_lift _).bind fun person => ?_) people
  refine Growing.bind (.forM (fun t => ?_) (slots teams)) fun _ => growing_pure _
  exact (growing_declare _).bind fun _ => growing_register _ _ _

theorem growing_balanceTeams (people : List Text) (teams : Nat) :
    Growing (balanceTeams people teams) :=
  .forM (fun _ => (growing_require _ _ _ _).bind fun _ => growing_require _ _ _ _) (slots teams)

theorem growing_placeEveryone (people : List Text) (teams : Nat) :
    Growing (placeEveryone people teams) := .forM (fun _ => growing_require _ _ _ _) people

theorem growing_compileAll (teams : Nat) (nodes : List Labelled) : Growing (compileAll teams nodes) :=
  .mapM (fun node => .mapM (fun t => growing_compile t node) (slots teams)) nodes

theorem growing_assemble (people : List Person) (teams : Nat) (nodes : List Labelled) :
    Growing (assemble people teams nodes) :=
  (growing_declareMemberships people teams).bind fun ids => (growing_balanceTeams ids teams).bind fun _ =>
    (growing_placeEveryone ids teams).bind fun _ => growing_compileAll teams nodes

/-- Whatever has been assembled is well formed, also where the assembly fails. -/
theorem wellFormed_assemble (people : List Person) (teams : Nat) (nodes : List Labelled) :
    (result (assemble people teams nodes) .empty).2.builder.WellFormed :=
  (growing_assemble people teams nodes .empty).wellFormed Builder.wellFormed_empty

end Compiler

/-! ## Models -/

theorem mem_objectiveTerms {relations : List Relation} {compiled : List (List Text)} {t : Int × Text}
    (ht : t ∈ objectiveTerms relations compiled) : ∃ xs ∈ compiled, t.2 ∈ xs := by
  obtain ⟨e, he, ht⟩ := List.mem_flatMap.1 ht
  obtain ⟨x, hx, rfl⟩ := List.mem_map.1 ht
  exact ⟨e.2, (List.of_mem_zip he).2, hx⟩

namespace Built

variable {r : Request} {m : AssignmentModel} {nodes : List Labelled} {compiled : List (List Text)}
  {c₀ c : Compiler} {ds : Circuit} (h : Built r m nodes compiled c₀ ds c)

include h

theorem objective_eq : m.linear.objective = ⟨objectiveTerms r.relations compiled, "maximize"⟩ := by
  rw [h.eq_toModel]
  rfl

theorem isMaximize : m.linear.objective.isMaximize = true := by
  rw [h.objective_eq]
  exact beq_self_eq_true _

end Built

/-- **The model of a request is well formed.** -/
theorem Request.isWellFormed_of_model {r : Request} {m : AssignmentModel} (h : r.model = .ok m) :
    m.linear.IsWellFormed := by
  obtain ⟨n, nodes, compiled, c, -, -, hrun, rfl⟩ := model_eq_ok_iff.1 h
  obtain ⟨c₀, ds, hassembled⟩ := Compiler.exists_assembled hrun
  have hc := Compiler.wellFormed_assemble r.people n nodes
  replace hrun : Compiler.result (Compiler.assemble r.people n nodes) .empty = (.ok compiled, c) := hrun
  rw [hrun] at hc
  refine Compiler.isWellFormed_toModel hc (fun t ht => ?_) _ _ _
  obtain ⟨xs, hxs, hx⟩ := mem_objectiveTerms ht
  exact hassembled.declares_compiled xs hxs _ hx

end BalancedTeams
