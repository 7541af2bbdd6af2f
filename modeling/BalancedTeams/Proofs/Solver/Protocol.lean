import BalancedTeams.Proofs.Model.Rosters
import BalancedTeams.Proofs.Solver.Sessions
import BalancedTeams.Solver.Scripted

/-!
# Jobs that share a backend

* `Job.built` : the one run of the backend that a job needs, or the fault its model ends with;
* `Job.reply` : the answer to a job and its stages, from the outcome of that run alone;
* `Job.run_of_unbuilt`, `Job.run_of_built` : one job does what its reply says, and moves the backend on
  by that run or not at all;
* `Job.Obeys`, `Job.obeys_reply` : what replies have in common, whatever the outcome;
* `Backend.Follows`, `Job.runAll_follows` : jobs that share a backend with a script.
-/

namespace BalancedTeams

/-- What a backend is asked in one run. -/
structure Invocation (τ : Type) where
  model : AssignmentModel
  limit : Option Value
  token : Option τ

/-- The run of a backend on what it is asked. -/
def Backend.ask {σ τ : Type} (backend : Backend σ τ) (q : Invocation τ) (s : σ) :
    Except Fault Outcome × σ :=
  (backend.solve q.model q.limit q.token).run s

namespace Job
variable {τ : Type}

/-- The run of a backend that a job needs, with the job's own limit and token. -/
def built : Job τ → Except Fault (Invocation τ)
  | .request r token _ => r.model.map fun m => ⟨m, r.timeLimit, token⟩
  | .teams r token => r.model.map fun m => ⟨m, r.timeLimit, token⟩
  | .model m limit token => .ok ⟨m, limit, token⟩

def listens : Job τ → Bool
  | .request _ _ listening => listening
  | _ => false

/-- What is said of the result that an outcome has for the model. -/
def answerOf (result : Except Fault Result) : Job τ → Except Fault Answer
  | .request r _ _ => result.map fun x => .result { x with warnings := r.warnings }
  | .teams .. => do
    let x ← result
    match x.solution with
    | some s => return .teams s.teams
    | none =>
      throw (.solver (.finished ((x.diagnostic.map Diagnostic.status).getD Status.solverError)))
  | .model .. => result.map .result

end Job

def Answer.solution? : Except Fault Answer → Option Solution
  | .ok (.result x) => x.solution
  | _ => none

def Answer.teams? : Except Fault Answer → Option (List Roster)
  | .ok (.teams ts) => some ts
  | _ => none

namespace Job
variable {τ : Type}

/-- The stages that a listener hears of: building, then solving if the model is built, then reading back
if the answer has a solution. -/
def stagesOf (j : Job τ) (answer : Except Fault Answer) : List Stage :=
  if j.listens then
    .build :: (if j.built.isOk then [.solve] else []) ++
      (if (Answer.solution? answer).isSome then [.map] else [])
  else []

/-- The answer to a job and its stages, where the backend's run ends in an outcome. -/
def reply (j : Job τ) (o : Outcome) : Except Fault Answer × List Stage :=
  let answer := j.built >>= fun q => j.answerOf (q.model.result o)
  (answer, j.stagesOf answer)

variable {j : Job τ} {o : Outcome}

theorem reply_of_unbuilt {e : Fault} (h : j.built = .error e) :
    j.reply o = (.error e, if j.listens then [.build] else []) := by
  unfold reply stagesOf
  rw [h]
  rfl

theorem reply_of_built {q : Invocation τ} (h : j.built = .ok q) :
    j.reply o = (j.answerOf (q.model.result o), if j.listens then
      .build :: .solve :: (if (Answer.solution? (j.answerOf (q.model.result o))).isSome then [.map] else [])
      else []) := by
  unfold reply stagesOf
  rw [h]
  rfl

/-! ## One job -/

section
variable {σ : Type} {backend : Backend σ τ} {s : σ}

theorem model_of_unbuilt {r : Request} {f : AssignmentModel → Invocation τ} {e : Fault}
    (h : r.model.map f = .error e) : r.model = .error e := by
  cases hm : r.model with
  | error e' => rw [hm] at h; cases h; rfl
  | ok m => rw [hm] at h; cases h

theorem model_of_built {r : Request} {f : AssignmentModel → Invocation τ} {q : Invocation τ}
    (h : r.model.map f = .ok q) : ∃ m, r.model = .ok m ∧ f m = q := by
  cases hm : r.model with
  | error e => rw [hm] at h; cases h
  | ok m => rw [hm] at h; cases h; exact ⟨m, rfl, rfl⟩

/-- A job whose model is not built leaves the backend alone. -/
theorem run_of_unbuilt {e : Fault} (h : j.built = .error e) (o : Outcome) :
    j.run backend s = ((j.reply o).1, (j.reply o).2, s) := by
  rw [reply_of_unbuilt h]
  unfold run SessionM.runFrom
  cases j with
  | request r token listening =>
    have hm := model_of_unbuilt h
    rw [answer, SessionM.run_bind, run_solveRequest_of_unbuilt token listening _ hm]
    cases listening <;> rfl
  | teams r token =>
    have hm := model_of_unbuilt h
    rw [answer, assignTeams, SessionM.run_bind, SessionM.run_bind,
      run_solveRequest_of_unbuilt token false _ hm]
    rfl
  | model m limit token => cases h

/-- A job whose model is built runs the backend once, on what it needs. -/
theorem run_of_built {q : Invocation τ} {b : σ} (h : j.built = .ok q) (hask : backend.ask q s = (.ok o, b)) :
    j.run backend s = ((j.reply o).1, (j.reply o).2, b) := by
  rw [reply_of_built h]
  unfold run SessionM.runFrom
  cases j with
  | request r token listening =>
    obtain ⟨m, hm, rfl⟩ := model_of_built h
    have hsolve : (backend.solve m r.timeLimit token).run s = (.ok o, b) := hask
    rw [answer, SessionM.run_bind, run_solveRequest_of_built token listening _ hm, hsolve, ok_bind]
    dsimp only
    generalize m.result o = x
    rcases x with e | ⟨_ | solution, diagnostic, warnings⟩ <;> cases listening <;> rfl
  | teams r token =>
    obtain ⟨m, hm, rfl⟩ := model_of_built h
    have hsolve : (backend.solve m r.timeLimit token).run s = (.ok o, b) := hask
    rw [answer, assignTeams, SessionM.run_bind, SessionM.run_bind,
      run_solveRequest_of_built token false _ hm, hsolve, ok_bind]
    dsimp only
    generalize m.result o = x
    rcases x with e | ⟨_ | solution, diagnostic, warnings⟩ <;> rfl
  | model m limit token =>
    cases h
    have hsolve : (backend.solve m limit token).run s = (.ok o, b) := hask
    rw [answer, SessionM.run_bind, run_solveModel, hsolve, ok_bind]
    dsimp only
    generalize m.result o = x
    rcases x with e | x <;> rfl

end

/-! ## What replies have in common -/

theorem result_of_unsolved {m : AssignmentModel} (h : Status.isSolved o.status = false) :
    m.result o = .ok { diagnostic := some (.ofStatus o.status) } := by
  unfold AssignmentModel.result
  rw [h]
  rfl

/-- What an answer has to do with the outcome of the one run. -/
structure Obeys (j : Job τ) (o : Outcome) (answer : Except Fault Answer) : Prop where
  /-- Without a model the answer is the fault of building it. -/
  unbuilt : ∀ e, j.built = .error e → answer = .error e
  /-- A status that goes without values comes back in a diagnostic, and there is no solution. -/
  diagnosed : ∀ q, j.built = .ok q → Status.isSolved o.status = false →
    (∀ r token, j ≠ .teams r token) → ∃ x, answer = .ok (.result x) ∧ x.solution = none ∧
      x.diagnostic.map Diagnostic.status = some o.status
  /-- Where teams are asked for, it comes back in a fault. -/
  refused : ∀ q, j.built = .ok q → Status.isSolved o.status = false →
    ∀ r token, j = .teams r token → answer = .error (.solver (.finished o.status))
  /-- The teams are those of the solution of the request for the same outcome; where it has none, there
  is a fault. -/
  same : ∀ r token listening, j = .teams r token →
    Answer.teams? answer =
      (Answer.solution? ((Job.request r token listening).reply o).1).map Solution.teams ∧
    (Answer.teams? answer = none → ∃ e, answer = .error e)

theorem obeys_reply (j : Job τ) (o : Outcome) : j.Obeys o (j.reply o).1 where
  unbuilt e h := by rw [reply_of_unbuilt h]
  diagnosed q h hstatus hteams := by
    rw [reply_of_built h]
    cases j with
    | request r token listening =>
      exact ⟨_, by rw [answerOf, result_of_unsolved hstatus]; rfl, rfl, rfl⟩
    | teams r token => exact absurd rfl (hteams r token)
    | model m limit token => exact ⟨_, by rw [answerOf, result_of_unsolved hstatus]; rfl, rfl, rfl⟩
  refused q h hstatus r token hj := by
    subst hj
    rw [reply_of_built h, answerOf, result_of_unsolved hstatus]
    rfl
  same r token listening hj := by
    subst hj
    cases hm : (Job.teams r token).built with
    | error e =>
      have hrequest : (Job.request r token listening).built = .error e := hm
      rw [reply_of_unbuilt hm, reply_of_unbuilt hrequest]
      exact ⟨rfl, fun _ => ⟨e, rfl⟩⟩
    | ok q =>
      have hrequest : (Job.request r token listening).built = .ok q := hm
      rw [reply_of_built hm, reply_of_built hrequest]
      dsimp only [answerOf]
      generalize q.model.result o = x
      rcases x with e | ⟨_ | solution, diagnostic, warnings⟩
      · exact ⟨rfl, fun _ => ⟨e, rfl⟩⟩
      · exact ⟨rfl, fun _ => ⟨_, rfl⟩⟩
      · exact ⟨rfl, nofun⟩

end Job

/-! ## Jobs in a row -/

/-- The runs of a backend end in the outcomes of a script, one after the other, whatever it is asked;
`log` lists what `record` keeps of each run. -/
structure Backend.Follows {σ τ ρ : Type} (backend : Backend σ τ) (script : Nat → Outcome)
    (log : σ → List ρ) (record : Invocation τ → ρ) : Prop where
  outcome : ∀ q s, (backend.ask q s).1 = .ok (script (log s).length)
  logged : ∀ q s, log (backend.ask q s).2 = log s ++ [record q]

def Outcome.cycle (outcomes : List Outcome) (h : outcomes ≠ []) (n : Nat) : Outcome :=
  outcomes.get ⟨n % outcomes.length, Nat.mod_lt n (List.length_pos_iff.2 h)⟩

theorem Backend.follows_scripted {τ : Type} {outcomes : List Outcome} (h : outcomes ≠ []) :
    (Backend.scripted outcomes : Backend (Script τ) τ).Follows (Outcome.cycle outcomes h) Script.log
      fun q => ⟨q.limit, q.token⟩ := by
  have hget : ∀ n : Nat, outcomes[n % outcomes.length]? = some (Outcome.cycle outcomes h n) :=
    fun n => List.getElem?_eq_getElem _
  have hask : ∀ (q : Invocation τ) s, (Backend.scripted outcomes).ask q s =
      (.ok (Outcome.cycle outcomes h s.log.length), ⟨s.log ++ [⟨q.limit, q.token⟩]⟩) := by
    intro q s
    simp only [Backend.ask, Backend.scripted, hget]
    rfl
  exact ⟨fun q s => by rw [hask], fun q s => by rw [hask]⟩

namespace Job

/-- The runs of a backend that jobs need, in order. -/
def invocations {τ : Type} (jobs : List (Job τ)) : List (Invocation τ) :=
  jobs.filterMap fun j => j.built.toOption

section
variable {σ τ ρ : Type} {backend : Backend σ τ} {script : Nat → Outcome} {log : σ → List ρ}
  {record : Invocation τ → ρ}

/-- One job: its reply is that for the next outcome of the script. -/
theorem run_follows (h : backend.Follows script log record) (j : Job τ) (s : σ) :
    ∃ after, j.run backend s =
        ((j.reply (script (log s).length)).1, (j.reply (script (log s).length)).2, after) ∧
      log after = log s ++ (invocations [j]).map record := by
  cases hbuilt : j.built with
  | error e =>
    have hnone : invocations [j] = [] := by simp [invocations, hbuilt, Except.toOption]
    exact ⟨s, run_of_unbuilt hbuilt _, by rw [hnone, List.map_nil, List.append_nil]⟩
  | ok q =>
    have hone : invocations [j] = [q] := by simp [invocations, hbuilt, Except.toOption]
    refine ⟨(backend.ask q s).2, run_of_built hbuilt (Prod.ext (h.outcome q s) rfl), ?_⟩
    rw [hone, h.logged]
    rfl

/-- **Jobs that share a backend each get what they would get alone**, for the outcome that comes next in
the script: every job before it whose model is built has used up one, with its own limit and token, and
the others none. -/
theorem runAll_follows (h : backend.Follows script log record) (s : σ) {jobs : List (Job τ)}
    {i : Nat} {j : Job τ} (hj : jobs[i]? = some j) : ∃ answer stages after,
      (runAll backend s jobs)[i]? = some (answer, stages, after) ∧
      log after = log s ++ (invocations (jobs.take (i + 1))).map record ∧
      (answer, stages) = j.reply (script ((log s).length + (invocations (jobs.take i)).length)) ∧
      j.Obeys (script ((log s).length + (invocations (jobs.take i)).length)) answer := by
  induction jobs generalizing s i with
  | nil => cases hj
  | cons first rest ih =>
    obtain ⟨after, hrun, hlog⟩ := run_follows h first s
    cases i with
    | zero =>
      cases hj
      refine ⟨_, _, after, by rw [runAll, hrun]; rfl, ?_, rfl, obeys_reply _ _⟩
      rw [hlog]
      rfl
    | succ i =>
      obtain ⟨answer, stages, last, hlast, hlogs, hreply, hobeys⟩ := ih after hj
      have hsplit : ∀ k, invocations ((first :: rest).take (k + 1)) =
          invocations [first] ++ invocations (rest.take k) := by
        intro k
        rw [List.take_succ_cons]
        exact List.filterMap_append (l := [first])
      have hposition : (log after).length + (invocations (rest.take i)).length =
          (log s).length + (invocations ((first :: rest).take (i + 1))).length := by
        rw [hlog, hsplit, List.length_append, List.length_append, List.length_map, Nat.add_assoc]
      rw [hposition] at hreply hobeys
      refine ⟨answer, stages, last, ?_, ?_, hreply, hobeys⟩
      · rw [runAll, hrun]
        exact hlast
      · rw [hlogs, hlog, hsplit, List.map_append, List.append_assoc]

end

/-! ## Four jobs -/

def unruled : Request := { Request.pair with emptyTag := "never" }

/-- An outcome that puts each of the two people in a team of her own. -/
def apart : Outcome where
  status := Status.optimal
  values := .ofInts [("x_a_0", 1), ("x_b_1", 1)]
  objective := some (.int 3)

theorem result_apart {m : AssignmentModel} (hm : Request.pair.model = .ok m) (htwo : m.teamCount = 2) :
    m.result apart =
      .ok { solution := some ⟨[[.str "a"], [.str "b"]], .int 3, Status.optimal⟩ } := by
  have hteams : m.rosters apart.values = .ok [[.str "a"], [.str "b"]] := by
    refine (Request.rosters_of_one hm (by rw [htwo]; decide)).trans ?_
    rw [htwo]
    rfl
  have hsolved : Status.isSolved apart.status = true := rfl
  unfold AssignmentModel.result
  rw [if_pos hsolved, hteams]
  rfl

theorem reply_apart {m : AssignmentModel} (hm : Request.pair.model = .ok m) (htwo : m.teamCount = 2)
    (token : Option Nat) : (Job.request Request.pair token true).reply apart =
      (.ok (.result { solution := some ⟨[[.str "a"], [.str "b"]], .int 3, Status.optimal⟩ }),
        [.build, .solve, .map]) := by
  have hbuilt : (Job.request Request.pair token true).built = .ok ⟨m, none, token⟩ := by
    rw [built, hm]
    rfl
  rw [reply_of_built hbuilt]
  dsimp only [answerOf]
  rw [result_apart hm htwo]
  rfl

/-- The first job has no model and uses up no outcome; the others get the first, the second and the third,
which gives a solution. Two of them share a token. -/
theorem runAll_follows_pair :
    let outcomes : List Outcome :=
      [⟨Status.infeasible, [], none⟩, ⟨Status.cancelled, [], none⟩, apart]
    let jobs : List (Job Nat) := [.request unruled none true, .teams Request.pair (some 1),
      .request Request.pair (some 2) true, .request Request.pair (some 1) true]
    let answers := runAll (Backend.scripted outcomes) {} jobs
    ∃ first second third,
      answers[1]? = some (.error (.solver (.finished "infeasible")), [], first) ∧
      first.log = [⟨none, some 1⟩] ∧
      answers[2]? = some (.ok (.result { diagnostic := some (.ofStatus "cancelled") }),
        [.build, .solve], second) ∧ second.log = [⟨none, some 1⟩, ⟨none, some 2⟩] ∧
      answers[3]? = some (.ok (.result
        { solution := some ⟨[[.str "a"], [.str "b"]], .int 3, Status.optimal⟩ }),
        [.build, .solve, .map], third) ∧
      third.log = [⟨none, some 1⟩, ⟨none, some 2⟩, ⟨none, some 1⟩] := by
  intro outcomes jobs answers
  obtain ⟨m, hm, htwo⟩ := Request.exists_model_pair
  have hunbuilt : (Job.request unruled (none : Option Nat) true).built =
      .error (.model (.unknownPolicy "never")) := by with_unfolding_all rfl
  have hteams : ∀ token : Option Nat, (Job.teams Request.pair token).built = .ok ⟨m, none, token⟩ := by
    intro token
    rw [built, hm]
    rfl
  have hrequest : ∀ token : Option Nat, (Job.request Request.pair token true).built =
      .ok ⟨m, none, token⟩ := hteams
  have hneeded : ∀ k, invocations (jobs.take (k + 1)) =
      [⟨m, none, some 1⟩, ⟨m, none, some 2⟩, ⟨m, none, some 1⟩].take k := by
    intro k
    match k with
    | 0 => simp [jobs, invocations, hunbuilt, Except.toOption]
    | 1 => simp [jobs, invocations, hunbuilt, hteams, Except.toOption]
    | 2 => simp [jobs, invocations, hunbuilt, hteams, hrequest, Except.toOption]
    | k + 3 => simp [jobs, invocations, hunbuilt, hteams, hrequest, Except.toOption]
  have h := Backend.follows_scripted (τ := Nat) (List.cons_ne_nil _ _ : outcomes ≠ [])
  obtain ⟨answer₁, stages₁, first, hfirst, hlog₁, hreply₁, -⟩ :=
    runAll_follows h {} (rfl : jobs[1]? = some (.teams Request.pair (some 1)))
  obtain ⟨answer₂, stages₂, second, hsecond, hlog₂, hreply₂, -⟩ :=
    runAll_follows h {} (rfl : jobs[2]? = some (.request Request.pair (some 2) true))
  obtain ⟨answer₃, stages₃, third, hthird, hlog₃, hreply₃, -⟩ :=
    runAll_follows h {} (rfl : jobs[3]? = some (.request Request.pair (some 1) true))
  rw [hneeded] at hlog₁ hlog₂ hlog₃ hreply₁ hreply₂ hreply₃
  rw [reply_of_built (hteams _)] at hreply₁
  rw [reply_of_built (hrequest _)] at hreply₂
  have hsolution := hreply₃.trans (reply_apart hm htwo _)
  cases hreply₁
  cases hreply₂
  cases hsolution
  exact ⟨first, second, third, hfirst, hlog₁, hsecond, hlog₂, hthird, hlog₃⟩

end Job
end BalancedTeams
