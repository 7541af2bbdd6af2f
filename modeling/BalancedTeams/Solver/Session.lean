import BalancedTeams.Solver.Outcome

/-!
# Solving requests with a backend

* `Backend` : what solves models, with a state and a kind of cancel tokens of its own;
* `Session` : the backend's state and the stages reported so far;
* `solveModel`, `solveRequest`, `assignTeams` : the ways to have a model or a request solved;
* `Job`, `Job.run`, `Job.runAll` : one of these ways with what it is used on, and jobs that share a
  backend;
* `Call`, `Call.run` : one use of a backend for a request.
-/

namespace BalancedTeams

/-- What solves models. A time limit and a cancel token may be given. -/
structure Backend (σ τ : Type) where
  solve : AssignmentModel → Option Value → Option τ → ExceptT Fault (StateM σ) Outcome
  cancel : ExceptT Fault (StateM σ) Unit

inductive Stage where
  | build
  | solve
  | map
  deriving DecidableEq, Repr, Inhabited

def Stage.name : Stage → String
  | .build => "build"
  | .solve => "solve"
  | .map => "map"

structure Session (σ : Type) where
  backend : σ
  stages : List Stage

/-- A computation on a session, which keeps its changes when it fails. -/
abbrev SessionM (σ : Type) := ExceptT Fault (StateM (Session σ))

namespace SessionM
variable {σ : Type} {α : Type}

def onBackend (x : ExceptT Fault (StateM σ) α) : SessionM σ α := do
  let s ← get
  let (r, b) := x.run s.backend
  set { s with backend := b }
  match r with
  | .ok a => return a
  | .error e => throw e

def report (listening : Bool) (stage : Stage) : SessionM σ Unit :=
  if listening then modify fun s => { s with stages := s.stages ++ [stage] } else pure ()

/-- What a computation gives, the stages it reports, and the backend's state after it. -/
def runFrom (x : SessionM σ α) (s : σ) : Except Fault α × List Stage × σ :=
  let (r, session) := x.run { backend := s, stages := [] }
  (r, session.stages, session.backend)

end SessionM

/-- What is said of an outcome without values. -/
def Diagnostic.ofStatus (status : Text) : Diagnostic :=
  { status, message := "Solver returned " ++ status ++ "." }

/-- The solution or the diagnostic of an outcome. The status is looked at first, then the rosters,
then the objective, which is computed from the values if the backend gives none. -/
def AssignmentModel.result (m : AssignmentModel) (outcome : Outcome) : Except Fault Result := do
  if Status.isSolved outcome.status then
    let teams ← m.rosters outcome.values
    let objective ← match outcome.objective with
      | none | some .null => do
        let total ← Terms.reading outcome.values m.linear.objective.terms
        (total.toInt : Except NumberFault Int)
      | some v => (v.toInt : Except NumberFault Int)
    return { solution := some { teams, objective := .int objective, status := outcome.status } }
  else return { diagnostic := some (.ofStatus outcome.status) }

section
variable {σ τ : Type}

def solveModel (backend : Backend σ τ) (m : AssignmentModel) (limit : Option Value)
    (token : Option τ) : SessionM σ Result := do
  let outcome ← SessionM.onBackend (backend.solve m limit token)
  liftM (m.result outcome)

/-- Builds the model of a request and has it solved; the result carries the request's warnings. -/
def solveRequest (backend : Backend σ τ) (r : Request) (token : Option τ) (listening : Bool) :
    SessionM σ Result := do
  SessionM.report listening .build
  let m ← liftM r.model
  SessionM.report listening .solve
  let result ← solveModel backend m r.timeLimit token
  if result.solution.isSome then SessionM.report listening .map
  return { result with warnings := r.warnings }

/-- The teams of a request; a result without a solution is a fault. -/
def assignTeams (backend : Backend σ τ) (r : Request) (token : Option τ) :
    SessionM σ (List Roster) := do
  let result ← solveRequest backend r token false
  match result.solution with
  | some s => return s.teams
  | none =>
    throw (.solver (.finished ((result.diagnostic.map Diagnostic.status).getD Status.solverError)))

end

/-! ## Jobs and calls -/

/-- Something to have solved, with a cancel token if one is given. -/
inductive Job (τ : Type) where
  /-- A request; its stages are reported if somebody listens. -/
  | request (r : Request) (token : Option τ) (listening : Bool)
  /-- A request, for its teams only. -/
  | teams (r : Request) (token : Option τ)
  /-- A model alone, with a time limit of its own. -/
  | model (m : AssignmentModel) (limit : Option Value) (token : Option τ)

inductive Answer where
  | result (r : Result)
  | teams (ts : List Roster)
  | cancelled
  deriving Repr, Inhabited

namespace Job
variable {σ τ : Type}

def answer (backend : Backend σ τ) : Job τ → SessionM σ Answer
  | .request r token listening => return .result (← solveRequest backend r token listening)
  | .teams r token => return .teams (← assignTeams backend r token)
  | .model m limit token => return .result (← solveModel backend m limit token)

/-- The answer to a job, the stages it reports, and the backend's state after it. -/
def run (backend : Backend σ τ) (j : Job τ) (s : σ) : Except Fault Answer × List Stage × σ :=
  (j.answer backend).runFrom s

/-- The answers to jobs that share a backend, each with its stages and the state after it. -/
def runAll (backend : Backend σ τ) (s : σ) :
    List (Job τ) → List (Except Fault Answer × List Stage × σ)
  | [] => []
  | j :: rest =>
    let step := j.run backend s
    step :: runAll backend step.2.2 rest

end Job

/-- The ways to use a backend for a request. -/
inductive Via where
  /-- Solve the request and report the stages. -/
  | request
  /-- Solve the request for its teams only. -/
  | assign
  /-- Build the model first and solve it alone, without a time limit. -/
  | model
  /-- Cancel what is running. -/
  | cancel
  deriving DecidableEq, Repr, Inhabited

structure Call (τ : Type) where
  via : Via
  request : Request
  token : Option τ := none
  deriving Repr, Inhabited

def Call.answer {σ τ : Type} (backend : Backend σ τ) (c : Call τ) : SessionM σ Answer := do
  match c.via with
  | .request => (Job.request c.request c.token true).answer backend
  | .assign => (Job.teams c.request c.token).answer backend
  | .model =>
    let m ← liftM c.request.model
    (Job.model m none c.token).answer backend
  | .cancel =>
    SessionM.onBackend backend.cancel
    return .cancelled

/-- The answer to a call, the stages it reported, and the backend's state after it. -/
def Call.run {σ τ : Type} (backend : Backend σ τ) (c : Call τ) (s : σ) :
    Except Fault Answer × List Stage × σ := (c.answer backend).runFrom s

end BalancedTeams
