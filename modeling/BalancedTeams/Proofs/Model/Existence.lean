import BalancedTeams.Proofs.Compile.Success
import BalancedTeams.Proofs.Model.Assembly

/-!
# Requests that have a model

* `seatName_not_mem` : people whose ids are written differently have different membership variables;
* `Compiler.exists_assemble` : an assembly that cannot fail;
* `Request.Unambiguous` : no label stands for two formulas of the relations;
* `Request.exists_model` : a request that passes the checks has a model, if its ids are written
  differently and its relations only name its people.
-/

namespace BalancedTeams

theorem nodup_slots (teams : Nat) : (slots teams).Nodup :=
  List.Nodup.map (fun _ _ h => Int.ofNat_inj.1 h) List.nodup_range

/-- The variable of a seat is new where ids are written differently. -/
theorem seatName_not_mem {done rest : List Person} {p : Person} {placed more : List Int} {t : Int}
    (teams : Nat) (htexts : ((done ++ p :: rest).map (·.id.plain)).Nodup)
    (hslots : (placed ++ t :: more).Nodup) :
    seatName (p, t) ∉ (seats done teams ++ placed.map (p, ·)).map seatName := by
  rw [List.map_append, List.mem_append]
  rintro (hmem | hmem)
  · obtain ⟨⟨q, s⟩, hq, hname⟩ := List.mem_map.1 hmem
    rw [List.map_append, List.map_cons] at htexts
    refine (List.nodup_append'.1 htexts).2.2 (List.mem_map_of_mem (mem_seats.1 hq).1) ?_
    exact (membershipName_inj hname).1 ▸ List.mem_cons_self
  · obtain ⟨e, he, hname⟩ := List.mem_map.1 hmem
    obtain ⟨s, hs, rfl⟩ := List.mem_map.1 he
    refine (List.nodup_append'.1 hslots).2.2 hs ?_
    have hst : s = t := (membershipName_inj hname).2
    exact hst ▸ List.mem_cons_self

namespace Compiler
open Labelled

variable {c c₀ : Compiler} {people : List Person} {teams : Nat}

/-! ## Memberships -/

theorem exists_yields_seat {done : List (Person × Int)} {p : Person} {t : Int}
    (h : Seated done c) (hnew : seatName (p, t) ∉ done.map seatName)
    (hkey : p.id.key?.isSome = true) :
    ∃ c', Yields (do declare (seatName (p, t)); register p.id t (seatName (p, t))) c () c' ∧
      Seated (done ++ [(p, t)]) c' := by
  have hdecl : c.builder.declares (seatName (p, t)) = false := by
    rw [← Bool.not_eq_true, declares_iff_of_vars h.vars]
    exact hnew
  obtain ⟨d, hd⟩ := exists_yields_declare hdecl
  obtain ⟨k, hk⟩ := Option.isSome_iff_exists.1 hkey
  have hy : ∃ c', Yields (do declare (seatName (p, t)); register p.id t (seatName (p, t))) c () c' :=
    ⟨_, yields_bind_iff.2 ⟨(), d, hd,
      yields_lift_bind_iff.2 ⟨k, key_eq_ok_iff.2 hk, yields_modify_iff.2 rfl⟩⟩⟩
  obtain ⟨c', hc'⟩ := hy
  exact ⟨c', hc', h.seat hc'⟩

theorem exists_declareMemberships (teams : Nat) (hids : DistinctKeys (people.map Person.id))
    (hwritable : ∀ p ∈ people, p.id.isWritable = true)
    (htexts : (people.map (·.id.plain)).Nodup) :
    ∃ ids c, Yields (declareMemberships people teams) .empty ids c ∧
      Seated (seats people teams) c := by
  refine Yields.exists_mapM (I := fun done d => Seated (seats done teams) d) ?_ seated_empty
  intro done p rest d hpeople hd
  have hp : p ∈ people := hpeople ▸ List.mem_append_right _ List.mem_cons_self
  have hkey := hids.keyed_map _ hp
  have hplaced : ∃ d', Yields ((slots teams).forM fun t => do
      declare (seatName (p, t)); register p.id t (seatName (p, t))) d () d' ∧
      Seated (seats done teams ++ (slots teams).map (p, ·)) d' := by
    refine Yields.exists_forM (I := fun placed d => Seated (seats done teams ++ placed.map (p, ·)) d)
      ?_ (by simpa using hd)
    intro placed t more e hslots he
    have hnew := seatName_not_mem teams (hpeople ▸ htexts) (hslots ▸ nodup_slots teams)
    obtain ⟨e', he', hseated⟩ := exists_yields_seat he hnew hkey
    refine ⟨e', he', ?_⟩
    rwa [List.map_append, ← List.append_assoc]
  obtain ⟨d', hd', hseated⟩ := hplaced
  have htext : p.id.text = .ok p.id.plain := text_eq_ok_iff.2 ⟨hwritable p hp, rfl⟩
  refine ⟨p.id.plain, d', yields_lift_bind_iff.2 ⟨_, liftText_eq_ok_iff.2 htext,
    yields_bind_iff.2 ⟨(), d', hd', yields_pure_iff.2 ⟨rfl, rfl⟩⟩⟩, ?_⟩
  rwa [seats, List.flatMap_append, List.flatMap_singleton]

/-! ## Constraints -/

theorem exists_balanceTeams
    (hdecl : ∀ e ∈ seats people teams, c.builder.declares (seatName e) = true) :
    ∃ c', Yields (balanceTeams (people.map (·.id.plain)) teams) c () c' := by
  obtain ⟨c', h, -⟩ : ∃ c', Yields (balanceTeams (people.map (·.id.plain)) teams) c () c' ∧
      ∀ x, c'.builder.declares x = c.builder.declares x := by
    refine Yields.exists_forM (I := fun _ d => ∀ x, d.builder.declares x = c.builder.declares x) ?_
      fun _ => rfl
    intro done t rest d hslots hd
    have ht : t ∈ slots teams := hslots ▸ List.mem_append_right _ List.mem_cons_self
    have hterms : ∀ e ∈ teamTerms (people.map (·.id.plain)) t, c.builder.declares e.2 = true := by
      intro e he
      rw [teamTerms, List.map_map] at he
      obtain ⟨p, hp, rfl⟩ := List.mem_map.1 he
      exact hdecl (p, t) (mem_seats.2 ⟨hp, ht⟩)
    obtain ⟨e, he⟩ : ∃ e, Yields (require _ .ge _ ("team_min_" ++ toString t)) d () e :=
      exists_yields_require fun u hu => (hd _).trans (hterms u hu)
    have hde := fun x => ((records_of_yields he).declares_eq x).trans (hd x)
    obtain ⟨e', he'⟩ : ∃ e', Yields (require _ .le _ ("team_max_" ++ toString t)) e () e' :=
      exists_yields_require fun u hu => (hde _).trans (hterms u hu)
    exact ⟨e', yields_bind_iff.2 ⟨(), e, he, he'⟩,
      fun x => ((records_of_yields he').declares_eq x).trans (hde x)⟩
  exact ⟨c', h⟩

theorem exists_placeEveryone
    (hdecl : ∀ e ∈ seats people teams, c.builder.declares (seatName e) = true) :
    ∃ c', Yields (placeEveryone (people.map (·.id.plain)) teams) c () c' := by
  obtain ⟨c', h, -⟩ : ∃ c', Yields (placeEveryone (people.map (·.id.plain)) teams) c () c' ∧
      ∀ x, c'.builder.declares x = c.builder.declares x := by
    refine Yields.exists_forM (I := fun _ d => ∀ x, d.builder.declares x = c.builder.declares x) ?_
      fun _ => rfl
    intro done text rest d htexts hd
    obtain ⟨p, hp, rfl⟩ : ∃ p ∈ people, p.id.plain = text :=
      List.mem_map.1 (htexts ▸ List.mem_append_right _ List.mem_cons_self)
    obtain ⟨e, he⟩ : ∃ e, Yields (require (personTerms teams p.id.plain) .eq 1
        ("one_team_" ++ p.id.plain)) d () e := by
      refine exists_yields_require fun u hu => (hd _).trans ?_
      obtain ⟨t, ht, rfl⟩ := List.mem_map.1 hu
      exact hdecl (p, t) (mem_seats.2 ⟨hp, ht⟩)
    exact ⟨e, he, fun x => ((records_of_yields he).declares_eq x).trans (hd x)⟩
  exact ⟨c', h⟩

/-! ## Formulas -/

theorem Prepared.isFresh (h : Prepared people teams c) : c.IsFresh := by
  intro l t hl
  obtain ⟨e, -, he⟩ := List.mem_map.1 ((h.declares_iff _).1 hl)
  exact absurd he (membershipName_ne_indicatorName _ _ _ _)

theorem exists_compileAll {nodes : List Labelled} (hc : c.IsGrounded) (hmemo : c.memo.isEmpty = true)
    (htrue : c.builder.declares trueName = false) (hfresh : c.IsFresh)
    (hlabels : Unambiguous nodes)
    (hseats : ∀ node ∈ nodes, ∀ t ∈ slots teams, c.HasSeats t node.formula) :
    ∃ vars c', Yields (compileAll teams nodes) c vars c' := by
  obtain ⟨vars, c', h, -⟩ : ∃ vars c', Yields (compileAll teams nodes) c vars c' ∧
      ∃ ds, Since (nodes.flatMap parts) c ds c' ∧ c'.IsFresh := by
    refine Yields.exists_mapM (I := fun _ d => ∃ ds, Since _ c ds d ∧ d.IsFresh) ?_
      ⟨[], since_refl hmemo htrue, hfresh⟩
    intro done node rest d hnodes hd
    have hnode : node ∈ nodes := hnodes ▸ List.mem_append_right _ List.mem_cons_self
    have hparts := parts_subset_flatMap hnode
    refine Yields.exists_mapM (I := fun _ d => ∃ ds, Since _ c ds d ∧ d.IsFresh) ?_ hd
    rintro placed t more e hslots ⟨ds, he, hfreshe⟩
    have ht : t ∈ slots teams := hslots ▸ List.mem_append_right _ List.mem_cons_self
    obtain ⟨x, e', hx⟩ := exists_yields_compile hc hlabels hparts (hseats node hnode t ht) he hfreshe
    have hcomp := compiles_of_yields hx
    obtain ⟨es, -, he', -⟩ := he.step hcomp hc hparts
    exact ⟨x, e', hx, es, he', hcomp.isFresh hfreshe⟩
  exact ⟨vars, c', h⟩

/-! ## The whole -/

theorem exists_assemble {nodes : List Labelled} (hids : DistinctKeys (people.map Person.id))
    (hwritable : ∀ p ∈ people, p.id.isWritable = true)
    (htexts : (people.map (·.id.plain)).Nodup) (hlabels : Unambiguous nodes)
    (hpeople : ∀ node ∈ nodes, ∀ id ∈ node.formula.ids, ∃ p ∈ people, p.id.key? = id.key?) :
    ∃ vars c, (assemble people teams nodes).run .empty = (.ok vars, c) := by
  obtain ⟨ids, c₁, h₁, hseated⟩ := exists_declareMemberships teams hids hwritable htexts
  obtain ⟨rfl, -⟩ := seated_of_yields_declareMemberships h₁
  have hdecl : ∀ e ∈ seats people teams, c₁.builder.declares (seatName e) = true :=
    fun e he => (declares_iff_of_vars hseated.vars _).2 (List.mem_map_of_mem he)
  obtain ⟨c₂, h₂⟩ := exists_balanceTeams hdecl
  obtain ⟨c₃, h₃⟩ := exists_placeEveryone fun e he =>
    ((records_of_yields_balanceTeams h₂).declares_eq _).trans (hdecl e he)
  have hprepared := prepared_of_yields h₁ h₂ h₃
  have hseats : ∀ node ∈ nodes, ∀ t ∈ slots teams, c₃.HasSeats t node.formula := by
    intro node hnode t ht id hid
    obtain ⟨p, hp, hkey⟩ := hpeople node hnode id hid
    obtain ⟨k, hk⟩ := Option.isSome_iff_exists.1 (hids.keyed_map _ hp)
    exact ⟨k, _, hkey.symm.trans hk, hprepared.find?_eq hids hp ht hk⟩
  obtain ⟨vars, c, h⟩ := exists_compileAll hprepared.isGrounded hprepared.memo
    hprepared.declares_trueName hprepared.isFresh hlabels hseats
  exact ⟨vars, c, yields_bind_iff.2 ⟨_, c₁, h₁, yields_bind_iff.2 ⟨(), c₂, h₂,
    yields_bind_iff.2 ⟨(), c₃, h₃, h⟩⟩⟩⟩

end Compiler

/-- No label stands for two formulas of the relations. -/
def Request.Unambiguous (r : Request) : Prop :=
  ∀ nodes, r.formulas = .ok nodes → Labelled.Unambiguous nodes

/-- **A request that passes the checks has a model**, if its ids are written differently, no label
stands for two formulas, and the relations name people of the request. -/
theorem Request.exists_model {r : Request} {n : Nat} {nodes : List Labelled} (hcheck : r.check = .ok n)
    (hnodes : r.formulas = .ok nodes) (hwritable : ∀ p ∈ r.people, p.id.isWritable = true)
    (htexts : (r.people.map (·.id.plain)).Nodup) (hlabels : r.Unambiguous)
    (hpeople : ∀ node ∈ nodes, ∀ id ∈ node.formula.ids, ∃ p ∈ r.people, p.id.key? = id.key?) :
    ∃ m, r.model = .ok m ∧ m.teamCount = n := by
  obtain ⟨-, -, hids, -⟩ := Request.check_eq_ok_iff.1 hcheck
  obtain ⟨vars, c, hrun⟩ := Compiler.exists_assemble hids hwritable htexts (hlabels nodes hnodes)
    hpeople
  exact ⟨_, Request.model_eq_ok_iff.2 ⟨n, nodes, vars, c, hcheck, hnodes, hrun, rfl⟩, rfl⟩

/-! ## A small request -/

/-- Two people in two teams, each of which is to do without the first of them. -/
def Request.pair : Request where
  people := [⟨.str "a", .str "Ann", []⟩, ⟨.str "b", .str "Bob", []⟩]
  relations := [⟨.str "r", [.text "NOT ", .ref (.person (.str "a"))], .int 3⟩]
  teamCount := .int 2

def annNode : Labelled := .person "3112cdbe789d85f3" (.str "a")

def notAnnNode : Labelled := .not "7c9c0e90dee66d2b" annNode

theorem labelled_ann : Formula.labelled (.person (.str "a")) = .ok annNode := by
  have hlabel : Formula.labelOf "PERSON" ["a"] = annNode.label := by decide +kernel
  show Except.ok (Labelled.person (Formula.labelOf "PERSON" ["a"]) (.str "a")) = _
  rw [hlabel]
  rfl

theorem labelled_notAnn : Formula.labelled (.not (.person (.str "a"))) = .ok notAnnNode := by
  have hlabel : Formula.labelOf "NOT" [annNode.label] = notAnnNode.label := by decide +kernel
  rw [Formula.labelled, labelled_ann]
  show Except.ok (Labelled.not (Formula.labelOf "NOT" [annNode.label]) annNode) = _
  rw [hlabel]
  rfl

theorem Request.formulas_pair : pair.formulas = .ok [notAnnNode] := by
  refine Request.formulas_eq_ok_iff.2 ⟨⟨pair.people, [.str "a", .str "b"], ⟨[]⟩, .vacuous⟩, rfl,
    .cons ⟨_, ?_, labelled_notAnn⟩ .nil⟩
  with_unfolding_all rfl

theorem Request.unambiguous_pair : pair.Unambiguous := by
  intro nodes hnodes
  cases formulas_pair.symm.trans hnodes
  decide

theorem Request.exists_model_pair : ∃ m, pair.model = .ok m ∧ m.teamCount = 2 := by
  have hcheck : pair.check = .ok 2 := by with_unfolding_all rfl
  refine exists_model hcheck formulas_pair (by decide) (by decide) unambiguous_pair ?_
  intro node hnode id hid
  cases List.mem_singleton.1 hnode
  replace hid : id ∈ [Value.str "a"] := hid
  cases List.mem_singleton.1 hid
  exact ⟨_, List.mem_cons_self, rfl⟩

end BalancedTeams
