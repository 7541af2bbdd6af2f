import BalancedTeams.Proofs.Runs
import BalancedTeams.Solver.Session

/-!
# Runs of sessions

* `SessionM.run_bind` and its like : what a computation on a session does, by its form;
* `Session.reporting` : the session after some stages;
* `run_solveModel`, `run_solveRequest_of_unbuilt`, `run_solveRequest_of_built` : the answer to a model or
  a request, the stages that are reported, and the one run of the backend.
-/

namespace BalancedTeams

/-- The session after these stages, if somebody listens. -/
def Session.reporting {σ : Type} (s : Session σ) (listening : Bool) (stages : List Stage) :
    Session σ :=
  if listening then { s with stages := s.stages ++ stages } else s

theorem Session.reporting_reporting {σ : Type} (s : Session σ) (listening : Bool)
    (first second : List Stage) : (s.reporting listening first).reporting listening second =
      s.reporting listening (first ++ second) := by
  cases listening with
  | false => rfl
  | true =>
    unfold reporting
    simp only [if_true, List.append_assoc]

namespace SessionM
variable {σ α β : Type}

theorem run_bind (x : SessionM σ α) (f : α → SessionM σ β) (s : Session σ) :
    (x >>= f).run s = match x.run s with
      | (.ok a, t) => (f a).run t
      | (.error e, t) => (.error e, t) := by
  have h : (x >>= f).run s =
      (fun r : Except Fault α × Session σ => ExceptT.bindCont f r.1 r.2) (x.run s) := rfl
  rw [h]
  rcases x.run s with ⟨_ | a, t⟩ <;> rfl

theorem run_get (s : Session σ) : (get : SessionM σ (Session σ)).run s = (.ok s, s) := rfl

theorem run_liftM (x : Except Fault α) (s : Session σ) : (liftM x : SessionM σ α).run s = (x, s) := rfl

theorem run_report (listening : Bool) (stage : Stage) (s : Session σ) :
    (report listening stage).run s = (.ok (), s.reporting listening [stage]) := by
  cases listening <;> rfl

theorem run_onBackend (x : ExceptT Fault (StateM σ) α) (s : Session σ) :
    (onBackend x).run s = ((x.run s.backend).1, { s with backend := (x.run s.backend).2 }) := by
  unfold onBackend
  rw [run_bind, run_get]
  dsimp only
  rcases x.run s.backend with ⟨_ | a, b⟩ <;> rfl

end SessionM

/-! ## Models and requests -/

section
variable {σ τ : Type} {backend : Backend σ τ}

/-- The backend runs once, on the model with its limit and token. -/
theorem run_solveModel (m : AssignmentModel) (limit : Option Value) (token : Option τ)
    (s : Session σ) : (solveModel backend m limit token).run s =
      (((backend.solve m limit token).run s.backend).1 >>= m.result,
        { s with backend := ((backend.solve m limit token).run s.backend).2 }) := by
  unfold solveModel
  rw [SessionM.run_bind, SessionM.run_onBackend]
  cases ((backend.solve m limit token).run s.backend).1 <;> rfl

theorem run_solveRequest_of_unbuilt {r : Request} {e : Fault} (token : Option τ)
    (listening : Bool) (s : Session σ) (hm : r.model = .error e) :
    (solveRequest backend r token listening).run s = (.error e, s.reporting listening [.build]) := by
  unfold solveRequest
  rw [SessionM.run_bind, SessionM.run_report]
  dsimp only
  rw [SessionM.run_bind, SessionM.run_liftM, hm]

/-- A run that is solved reports a stage more. -/
theorem run_solveRequest_of_built {r : Request} {m : AssignmentModel} (token : Option τ)
    (listening : Bool) (s : Session σ) (hm : r.model = .ok m) :
    (solveRequest backend r token listening).run s =
      match ((backend.solve m r.timeLimit token).run s.backend).1 >>= m.result with
      | .error e => (.error e, Session.reporting
          { s with backend := ((backend.solve m r.timeLimit token).run s.backend).2 } listening
          [.build, .solve])
      | .ok result => (.ok { result with warnings := r.warnings }, Session.reporting
          { s with backend := ((backend.solve m r.timeLimit token).run s.backend).2 } listening
          (if result.solution.isSome then [.build, .solve, .map] else [.build, .solve])) := by
  have hbackend : ∀ stages, (s.reporting listening stages).backend = s.backend := by
    cases listening <;> exact fun _ => rfl
  have hreport : ∀ b : σ, ({ s.reporting listening [.build, .solve] with backend := b } : Session σ) =
      Session.reporting { s with backend := b } listening [.build, .solve] := by
    cases listening <;> exact fun _ => rfl
  unfold solveRequest
  simp only [SessionM.run_bind, SessionM.run_report, hm, SessionM.run_liftM, run_solveModel, hbackend,
    Session.reporting_reporting, List.singleton_append, hreport]
  cases ((backend.solve m r.timeLimit token).run s.backend).1 >>= m.result with
  | error e => rfl
  | ok result =>
    dsimp only
    cases result.solution.isSome with
    | false => rfl
    | true =>
      rw [if_pos rfl, if_pos rfl, SessionM.run_bind, SessionM.run_report,
        Session.reporting_reporting]
      rfl

end

end BalancedTeams
