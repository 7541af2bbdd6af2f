import BalancedTeams.Proofs.Compile.Stopping

/-!
# Compilers after failures

* `Compiler.Reaches nodes c₀ c` : `c` is reached from `c₀` by compilations of the nodes, of which any
  may fail, by new memberships and by other variables;
* `Compiler.Consistent.remembered_iff` : indicators that are declared are remembered, each in one place;
* `Compiler.Consistent.compile` : what one compilation does to a consistent compiler;
* `Compiler.consistent_and_resumable` : after every history the compiler is consistent, a compilation
  fails exactly if somebody has no seat, and once everybody has one it can be done again.
-/

namespace BalancedTeams
namespace Compiler
open Labelled

variable {c₀ c d c' : Compiler} {ds : Circuit} {slot : Int} {nodes : List Labelled} {node : Labelled}
  {x : Text}

/-- `c` is reached from `c₀` by compilations of the nodes, whether they succeed or fail, by memberships
in declared variables where there were none, and by variables that are not named as in compilations. -/
inductive Reaches (nodes : List Labelled) (c₀ : Compiler) : Compiler → Prop
  | start : Reaches nodes c₀ c₀
  | compile {c c' : Compiler} {slot : Int} {node : Labelled} {r : Except Fault Text} :
      Reaches nodes c₀ c → node ∈ nodes → (Compiler.compile slot node).run c = (r, c') →
      Reaches nodes c₀ c'
  | register {c c' : Compiler} {person : Value} {slot : Int} {x : Text} {r : Except Fault Unit} :
      Reaches nodes c₀ c → c.seat? slot person = none → c.builder.declares x = true →
      (Compiler.register person slot x).run c = (r, c') → Reaches nodes c₀ c'
  | declare {c c' : Compiler} {x : Text} {r : Except Fault Unit} :
      Reaches nodes c₀ c → isReserved x = false → (Compiler.declare x).run c = (r, c') →
      Reaches nodes c₀ c'

namespace Consistent

theorem start (hmemo : c₀.memo.isEmpty = true) (hgrounded : c₀.IsGrounded)
    (hnames : ∀ x, c₀.builder.declares x = true → isReserved x = false) :
    Consistent nodes c₀ c₀ [] where
  constraints := by simp [Circuit.constraints]
  names := by
    rw [Circuit.names, List.map_nil, List.filter_eq_nil_iff]
    intro x hx
    rw [hnames x (declares_iff_mem.2 hx)]
    exact Bool.false_ne_true
  nodup := List.nodup_nil
  memo := by
    intro l t x
    simp [Std.HashMap.getElem?_of_isEmpty hmemo, Circuit.names]
  blocks := nofun
  ordered := nofun
  grounded := hgrounded

theorem register (h : Consistent nodes c₀ c ds) {person : Value} {r : Except Fault Unit}
    (hnew : c.seat? slot person = none) (hx : c.builder.declares x = true)
    (hrun : (Compiler.register person slot x).run c = (r, c')) : Consistent nodes c₀ c' ds := by
  have hresult : result (Compiler.register person slot x) c = (r, c') := hrun
  unfold Compiler.register at hresult
  rw [result_bind, Value.key] at hresult
  cases hk : person.key? with
  | none =>
    rw [hk] at hresult
    cases hresult
    exact h
  | some k =>
    rw [hk] at hresult
    cases hresult
    have hfind : c.memberships.find? k slot = none := by rwa [seat?, hk] at hnew
    refine h.keep (List.append_nil _).symm (List.forall_mem_nil _) rfl rfl ?_ ?_
    · intro t node y hy
      cases node with
      | always | not | and | or => exact hy
      | person l id =>
        obtain ⟨m, hm, hy⟩ := Option.bind_eq_some_iff.1 hy
        refine Option.bind_eq_some_iff.2 ⟨m, hm, ?_⟩
        rw [Memberships.find?_insert, if_neg ?_, hy]
        rintro ⟨⟩
        rw [hfind] at hy
        cases hy
    · intro m t y hy
      rw [Memberships.find?_insert] at hy
      split at hy
      · cases hy
        exact hx
      · exact h.grounded m t y hy

theorem declare (h : Consistent nodes c₀ c ds) {r : Except Fault Unit} (hx : isReserved x = false)
    (hrun : (Compiler.declare x).run c = (r, c')) : Consistent nodes c₀ c' ds := by
  cases hdecl : c.builder.declares x with
  | true =>
    have hfails : (c.builder.declare x).mapError Fault.model =
        .error (.model (.duplicateVariable x)) := by
      rw [Builder.declare, if_pos hdecl]
      rfl
    have hresult : result (Compiler.declare x) c = (.error (.model (.duplicateVariable x)), c) := by
      unfold Compiler.declare onBuilder
      refine (result_get_bind _ c).trans ?_
      dsimp only
      rw [hfails]
      rfl
    cases hrun.symm.trans hresult
    exact h
  | false =>
    obtain ⟨d, hd⟩ := exists_yields_declare hdecl
    cases hrun.symm.trans hd
    have hdeclares := declares_of_yields hd
    have hvars : c'.varNames = c.varNames ++ [x] := by simp [varNames, hdeclares.vars]
    have hkeeps : c.Keeps c' := ⟨hdeclares.memberships, fun _ _ hy => hdeclares.memo ▸ hy,
      fun y hy => (hdeclares.declares_iff y).2 (Or.inl hy)⟩
    refine h.keep hvars (List.forall_mem_singleton.2 hx) hdeclares.constraints hdeclares.memo
      hkeeps.retains ?_
    intro k t y hy
    rw [hkeeps.memberships] at hy
    exact hkeeps.declares y (h.grounded k t y hy)

/-- A variable of a compilation is pinned to 1 or an indicator. -/
theorem eq_of_mem_names (h : Consistent nodes c₀ c ds) (hx : x ∈ ds.names) :
    (x = trueName ∧ (x, .always) ∈ ds) ∨ ∃ l t, x = indicatorName l t := by
  obtain ⟨⟨p, g⟩, hmem, rfl⟩ := List.mem_map.1 hx
  obtain ⟨part, -, t, hown, xs, hxs, hg⟩ := h.blocks p g hmem
  cases part with
  | person => cases hown
  | always l =>
    cases hxs
    cases hown
    cases hg
    exact Or.inl ⟨rfl, hmem⟩
  | not | and | or =>
    cases hown
    exact Or.inr ⟨_, t, rfl⟩

/-- Indicators are remembered, each in one place. -/
theorem remembered_iff (h : Consistent nodes c₀ c ds) (hx : x ≠ trueName) :
    (∃! key : String × Int, c.memo[key]? = some x) ↔
      isReserved x = true ∧ c.builder.declares x = true := by
  constructor
  · rintro ⟨⟨l, t⟩, hmemo, -⟩
    obtain ⟨rfl, hmem⟩ := (h.memo l t x).1 hmemo
    have hname := isReserved_indicatorName l t
    exact ⟨hname, (h.mem_names_iff hname).1 hmem⟩
  · rintro ⟨hname, hdecl⟩
    have hmem := (h.mem_names_iff hname).2 hdecl
    rcases h.eq_of_mem_names hmem with ⟨htrue, -⟩ | ⟨l, t, rfl⟩
    · exact absurd htrue hx
    · refine ⟨(l, t), (h.memo l t _).2 ⟨rfl, hmem⟩, ?_⟩
      rintro ⟨k, s⟩ hother
      obtain ⟨hk, hs⟩ := indicatorName_inj ((h.memo k s _).1 hother).1
      rw [hk, hs]

theorem pinned_iff (h : Consistent nodes c₀ c ds) :
    (trueName, .always) ∈ ds ↔ c.builder.declares trueName = true := by
  rw [← h.mem_names_iff (by decide)]
  constructor
  · exact fun hmem => List.mem_map.2 ⟨_, hmem, rfl⟩
  · intro hmem
    rcases h.eq_of_mem_names hmem with ⟨-, hpin⟩ | ⟨l, t, htrue⟩
    · exact hpin
    · exact absurd htrue.symm (indicatorName_ne_trueName l t)

/-- A compilation defines variables that were missing. If it succeeds everybody has a seat and nothing
is missing any more, and otherwise it stops at somebody without a seat. -/
theorem compile (h : Consistent nodes c₀ c ds) (hsame : Identified nodes) (hnode : node ∈ nodes)
    {r : Except Fault Text} (hrun : (Compiler.compile slot node).run c = (r, c')) :
    ∃ es, Grows nodes c₀ c ds (c.Missing slot node) es c' ∧
      ((∃ x, r = .ok x ∧ (∀ id ∈ node.formula.ids, c.seat? slot id ≠ none) ∧
          ∀ y, c.Missing slot node y → y ∈ es.names) ∨
        ∃ e, r = .error e ∧ c.StopsAt slot node.formula.ids e) := by
  have hparts := parts_subset_flatMap hnode
  rw [compile_eq_descend] at hrun
  obtain ⟨es, d, hgrows, ⟨x, hx, hvar⟩ | ⟨e, he, hstops⟩⟩ := descends hsame hparts c ds h
  · cases hrun.symm.trans hx
    refine ⟨es, hgrows, Or.inl ⟨x, rfl, ?_, ?_⟩⟩
    · intro id hid
      rw [← hgrows.keeps.seat?_eq]
      exact hgrows.consistent.seat?_ne_none hsame hparts hvar id hid
    · rintro y ⟨part, hpart, hown, hnone⟩
      obtain ⟨z, hz⟩ := hgrows.consistent.var?_of_parts hsame hparts hvar part hpart
      have hy := ((hgrows.consistent.var?_eq_some_iff hown).1 hz).2
      rw [Circuit.names, List.map_append, List.mem_append] at hy
      refine hy.resolve_left fun hy => ?_
      rw [(h.var?_eq_some_iff hown).2 ⟨rfl, hy⟩] at hnone
      cases hnone
  · cases hrun.symm.trans he
    exact ⟨es, hgrows, Or.inr ⟨e, rfl, hstops⟩⟩

end Consistent

theorem Reaches.exists_consistent (h : Reaches nodes c₀ c) (hsame : Identified nodes)
    (h₀ : Consistent nodes c₀ c₀ []) : ∃ ds, Consistent nodes c₀ c ds := by
  induction h with
  | start => exact ⟨[], h₀⟩
  | compile _ hnode hrun ih =>
    obtain ⟨ds, h⟩ := ih
    obtain ⟨es, hgrows, -⟩ := h.compile hsame hnode hrun
    exact ⟨ds ++ es, hgrows.consistent⟩
  | register _ hnew hx hrun ih =>
    obtain ⟨ds, h⟩ := ih
    exact ⟨ds, h.register hnew hx hrun⟩
  | declare _ hx hrun ih =>
    obtain ⟨ds, h⟩ := ih
    exact ⟨ds, h.declare hx hrun⟩

theorem Reaches.trans (h : Reaches nodes c₀ c) (h' : Reaches nodes c d) : Reaches nodes c₀ d := by
  induction h' with
  | start => exact h
  | compile _ hnode hrun ih => exact .compile ih hnode hrun
  | register _ hnew hx hrun ih => exact .register ih hnew hx hrun
  | declare _ hx hrun ih => exact .declare ih hx hrun

theorem StopsAt.exists_mem {ids : List Value} {e : Fault} (h : c.StopsAt slot ids e) :
    ∃ id ∈ ids, c.seat? slot id = none ∧ e = seatFault slot id := by
  obtain ⟨before, id, after, rfl, -, hid, he⟩ := h
  exact ⟨id, by simp, hid, he⟩

theorem seatFault_eq {id : Value} (hkey : id.key?.isSome = true) (htext : id.isWritable = true) :
    ∃ shown, id.text = .ok shown ∧ seatFault slot id = .model (.noMembership shown (toString slot)) := by
  obtain ⟨k, hk⟩ := Option.isSome_iff_exists.1 hkey
  unfold seatFault
  rw [hk]
  cases hshown : id.text with
  | ok shown => exact ⟨shown, rfl, rfl⟩
  | error f =>
    rw [(written_eq_error_iff.1 hshown).2] at htext
    cases htext

/-- **A compiler stays consistent, and a compilation that failed can be done again.** After every
history of compilations, of which any may have failed, and of new memberships and other variables,

* the variables and constraints of the compilations are the definitions of formulas, each variable
  defined once and by variables declared before it, and what is remembered are the indicators;
* a compilation fails exactly if somebody in its formula has no seat in the team, which is what it
  says of the first one;
* whether it fails or not, it only adds definitions that were missing, and all of them if it succeeds;
* after a failure, as soon as everybody has a seat the compilation succeeds, and adds what is missing
  then. -/
theorem consistent_and_resumable (hsame : Identified nodes) (hmemo : c₀.memo.isEmpty = true)
    (hgrounded : c₀.IsGrounded) (hnames : ∀ x, c₀.builder.declares x = true → isReserved x = false)
    (hreaches : Reaches nodes c₀ c) :
    (∃ ds, Consistent nodes c₀ c ds ∧
      ((trueName, .always) ∈ ds ↔ c.builder.declares trueName = true) ∧
      ∀ x, x ≠ trueName → ((∃! key : String × Int, c.memo[key]? = some x) ↔
        isReserved x = true ∧ c.builder.declares x = true)) ∧
    ∀ node ∈ nodes, ∀ (slot : Int) (r : Except Fault Text) (c' : Compiler),
      (Compiler.compile slot node).run c = (r, c') →
      ((∃ e, r = .error e) ↔ ∃ id ∈ node.formula.ids, c.seat? slot id = none) ∧
      (∀ e, r = .error e → c.StopsAt slot node.formula.ids e ∧
        ((∀ id ∈ node.formula.ids, id.key?.isSome = true ∧ id.isWritable = true) →
          ∃ shown, e = .model (.noMembership shown (toString slot)))) ∧
      (∃ es, c.builder.Extends es c'.builder ∧ c'.memberships = c.memberships ∧
        (∀ x ∈ es.names, c.Missing slot node x) ∧
        ∀ x, r = .ok x → ∀ y, c.Missing slot node y → y ∈ es.names) ∧
      ∀ e d, r = .error e → Reaches nodes c' d →
        (∀ id ∈ node.formula.ids, d.seat? slot id ≠ none) →
        ∃ x d' es, (Compiler.compile slot node).run d = (.ok x, d') ∧
          d.builder.Extends es d'.builder ∧ ∀ y, y ∈ es.names ↔ d.Missing slot node y := by
  have h₀ : Consistent nodes c₀ c₀ [] := .start hmemo hgrounded hnames
  obtain ⟨ds, h⟩ := hreaches.exists_consistent hsame h₀
  refine ⟨⟨ds, h, h.pinned_iff, fun x hx => h.remembered_iff hx⟩, ?_⟩
  intro node hnode slot r c' hrun
  obtain ⟨es, hgrows, hends⟩ := h.compile hsame hnode hrun
  refine ⟨?_, ?_, ⟨es, hgrows.builder, hgrows.keeps.memberships, hgrows.missing, ?_⟩, ?_⟩
  · rcases hends with ⟨x, rfl, hseats, -⟩ | ⟨e, rfl, hstops⟩
    · exact ⟨nofun, fun ⟨id, hid, hnone⟩ => absurd hnone (hseats id hid)⟩
    · obtain ⟨id, hid, hnone, -⟩ := hstops.exists_mem
      exact ⟨fun _ => ⟨id, hid, hnone⟩, fun _ => ⟨e, rfl⟩⟩
  · rintro e rfl
    rcases hends with ⟨x, hx, -⟩ | ⟨e', he, hstops⟩
    · cases hx
    · cases he
      refine ⟨hstops, fun hwritable => ?_⟩
      obtain ⟨id, hid, -, rfl⟩ := hstops.exists_mem
      obtain ⟨shown, -, heq⟩ := seatFault_eq (hwritable id hid).1 (hwritable id hid).2
      exact ⟨shown, heq⟩
  · rintro x rfl
    rcases hends with ⟨y, -, -, hall⟩ | ⟨e, he, -⟩
    · exact hall
    · cases he
  · rintro e d - hlater hseats
    obtain ⟨fs, h'⟩ := ((hreaches.compile hnode hrun).trans hlater).exists_consistent hsame h₀
    cases hagain : (Compiler.compile slot node).run d with
    | mk r' d' =>
      obtain ⟨gs, hgrows', ⟨x, rfl, -, hall⟩ | ⟨e', -, hstops⟩⟩ := h'.compile hsame hnode hagain
      · exact ⟨x, d', gs, rfl, hgrows'.builder, fun y => ⟨hgrows'.missing y, hall y⟩⟩
      · obtain ⟨id, hid, hnone, -⟩ := hstops.exists_mem
        exact absurd hnone (hseats id hid)

/-! ## A person who is seated late -/

/-- Not one person, and another person. -/
def notAnnButBob : Labelled :=
  .and "c" (.not "n" (.person "a" (.str "ann"))) (.person "b" (.str "bob"))

/-- There is a variable for each of the two in the first team, but only the first one has a seat. -/
def annSeated : Compiler where
  builder :=
    { vars := #[⟨"x_ann_0", 0, 1⟩, ⟨"x_bob_0", 0, 1⟩]
      constraints := #[]
      names := ((∅ : Std.HashSet Text).insert "x_ann_0").insert "x_bob_0"
      mem_names := by simp [or_comm] }
  memberships := Memberships.empty.insert (.str "ann") (.str "ann") 0 "x_ann_0"
  memo := ∅

theorem identified_notAnnButBob : Identified [notAnnButBob] := by
  intro s hs t ht hlabel
  simp only [notAnnButBob, parts, List.flatMap_singleton, List.cons_append, List.nil_append,
    List.mem_cons, List.not_mem_nil, or_false] at hs ht
  rcases hs with rfl | rfl | rfl | rfl <;> rcases ht with rfl | rfl | rfl | rfl <;>
    first | rfl | exact absurd hlabel (by decide)

theorem ids_notAnnButBob : notAnnButBob.formula.ids = [.str "ann", .str "bob"] := rfl

theorem declares_annSeated (x : Text) :
    annSeated.builder.declares x = true ↔ x = "x_ann_0" ∨ x = "x_bob_0" := by
  rw [Builder.declares_iff]
  simp [annSeated, eq_comm]

theorem find?_annSeated (k : Key) (t : Int) : annSeated.memberships.find? k t =
    if ((.str "ann" : Key), (0 : Int)) = (k, t) then some ("x_ann_0" : Text) else none := by
  rw [annSeated, Memberships.find?_insert]
  simp [Memberships.find?, Memberships.empty]

theorem isGrounded_annSeated : annSeated.IsGrounded := by
  intro k t x hx
  rw [find?_annSeated] at hx
  split at hx
  · cases hx
    exact (declares_annSeated _).2 (Or.inl rfl)
  · cases hx

theorem isReserved_of_declares_annSeated (x : Text) (hx : annSeated.builder.declares x = true) :
    isReserved x = false := by
  rcases (declares_annSeated x).1 hx with rfl | rfl <;> decide

theorem seat?_register_annSeated {c : Compiler} (hc : c.memberships = annSeated.memberships) :
    ∀ id ∈ notAnnButBob.formula.ids,
      ({ c with memberships := c.memberships.insert (.str "bob") (.str "bob") 0 "x_bob_0" } :
        Compiler).seat? 0 id ≠ none := by
  rw [ids_notAnnButBob, List.forall_mem_cons, List.forall_mem_singleton, hc]
  constructor
  · show (annSeated.memberships.insert (.str "bob") (.str "bob") 0 "x_bob_0").find? (.str "ann") 0 ≠ none
    rw [Memberships.find?_insert, if_neg (by decide), find?_annSeated, if_pos rfl]
    exact Option.some_ne_none _
  · show (annSeated.memberships.insert (.str "bob") (.str "bob") 0 "x_bob_0").find? (.str "bob") 0 ≠ none
    rw [Memberships.find?_insert, if_pos rfl]
    exact Option.some_ne_none _

/-- The second one gets a seat only after the formula has failed for want of one. -/
theorem consistent_and_resumable_late : ∃ c' d x d' es,
    (Compiler.compile 0 notAnnButBob).run annSeated = (.error (.model (.noMembership "bob" "0")), c') ∧
      (Compiler.register (.str "bob") 0 "x_bob_0").run c' = (.ok (), d) ∧
      (Compiler.compile 0 notAnnButBob).run d = (.ok x, d') ∧ d.builder.Extends es d'.builder ∧
      ∀ y, y ∈ es.names ↔ d.Missing 0 notAnnButBob y := by
  have hann : annSeated.seat? 0 (.str "ann") = some "x_ann_0" := (find?_annSeated _ _).trans (if_pos rfl)
  have hbob : annSeated.seat? 0 (.str "bob") = none := (find?_annSeated _ _).trans (if_neg (by decide))
  cases hrun : (Compiler.compile 0 notAnnButBob).run annSeated with
  | mk r c' =>
    obtain ⟨hfails, hfault, ⟨es, hextends, hmemberships, -⟩, hagain⟩ :=
      (consistent_and_resumable identified_notAnnButBob (by simp [annSeated]) isGrounded_annSeated
        isReserved_of_declares_annSeated .start).2 notAnnButBob List.mem_cons_self 0 r c' hrun
    obtain ⟨e, rfl⟩ := hfails.2 ⟨.str "bob", by rw [ids_notAnnButBob]; decide, hbob⟩
    have he : e = .model (.noMembership "bob" "0") := by
      obtain ⟨id, hid, hnone, rfl⟩ := (hfault e rfl).1.exists_mem
      rw [ids_notAnnButBob, List.mem_cons, List.mem_singleton] at hid
      rcases hid with rfl | rfl
      · rw [hann] at hnone
        cases hnone
      · rfl
    have hdeclared : c'.builder.declares "x_bob_0" = true :=
      hextends.declares ((declares_annSeated _).2 (Or.inr rfl))
    have hnew : c'.seat? 0 (.str "bob") = none := by
      rw [seat?, hmemberships]
      exact hbob
    obtain ⟨x, d', fs, hdone, hrest⟩ := hagain e _ rfl (.register .start hnew hdeclared rfl)
      (seat?_register_annSeated hmemberships)
    exact ⟨c', _, x, d', fs, by rw [he], rfl, hdone, hrest⟩

end Compiler
end BalancedTeams
