import Paro.L2Machine.ApplyQueue

/-!
# Threads of the journal apply runtime

The threads that work on the state of `ApplyQueue` (crates/journal/src/apply_queue.rs): submissions
(`submit_observed_tracked`), tablet workers (`run_tablet_worker`), the loops that run the hooks of a
published prefix (`run_published_hooks`), and the two recovery entry points.

Every section under a lock and every closure that is called is one step. What a closure returns is part of
the step (`ok`). `History` records what happened: it is written by the steps and read by none.
`La-b` are lines of this file.
-/
namespace Paro.L2

open Function

inductive ApplyPhase
  | catalogPre
  | tabletPart (part : Nat)
  | descriptor
  | catalogPost
deriving DecidableEq, Repr

/-- What the runtime reads of a request. L256-268 -/
structure ApplyRequest where
  lsn : Nat
  durableBatchLsn : Nat := 0
  /-- `WaitMode::Published` or `AsyncCompletion` -/
  waitsForPublished : Bool := true
  catalogSerial : Bool := false
  tabletParts : List Nat := []
deriving DecidableEq, Repr

inductive SubmitPc
  | waitTurn
  | takeLane
  | catalogPre
  | enqueue (part : Nat)
  | finishTurn
  | tabletPhase
  | descriptor
  | catalogPost
  | markApplied
  | publishing
  | waitPublished
  | failRecord
  | failTicket
  | returned (ok : Bool)
deriving DecidableEq, Repr

/-- A submission and the progress of its ticket. L1099-1115 -/
structure Submission where
  request : ApplyRequest
  remainingTabletParts : Nat
  partError : Bool := false
  applied : Bool := false
  published : Bool := false
  pc : SubmitPc := .waitTurn
deriving DecidableEq, Repr

inductive WorkerStage
  | running
  | ran (ok : Bool)
  | complete (ok : Bool)
  | failTicket
deriving DecidableEq, Repr

structure Worker where
  tabletId : Nat
  stage : WorkerStage := .running
deriving DecidableEq, Repr

def Worker.holds (worker : Worker) : Bool :=
  match worker.stage with
  | .running | .ran _ => true
  | .complete _ | .failTicket => false

inductive HookStage
  | hook
  | observe
  | markPublished
  | failRecord
  | failTicket
deriving DecidableEq, Repr

structure Publisher where
  todo : List Nat
  stage : HookStage := .hook
deriving DecidableEq, Repr

structure History where
  /-- LSNs passed by a gap. -/
  skipped : List Nat := []
  placeholders : List Nat := []
  /-- LSNs of records that were marked applied. -/
  marked : List Nat := []
  /-- Closures that returned. -/
  finished : List (Nat × ApplyPhase × Bool) := []
  /-- Parts in the order in which workers took them. -/
  started : List (Nat × TabletApplyWork) := []
  /-- Parts whose success was counted. -/
  completed : List TabletApplyWork := []
  /-- Calls of `on_published` and of `record_published`. -/
  hooked : List Nat := []
  observed : List Nat := []

structure ApplyRuntime where
  state : ApplyRuntimeState := {}
  tabletDispatch : TabletDispatchState := {}
  submissions : Nat → Option Submission := fun _ => none
  workers : TabletApplyWork → Option Worker := fun _ => none
  publishers : Nat → Option Publisher := fun _ => none
  catalogLane : Option Nat := none
  history : History := {}

namespace ApplyRuntime
variable (r : ApplyRuntime) (lsn : Nat)

def updateTicket (f : Submission → Submission) : ApplyRuntime :=
  { r with submissions := update r.submissions lsn ((r.submissions lsn).map f) }

def goto (pc : SubmitPc) : ApplyRuntime := r.updateTicket lsn fun sub => { sub with pc }

/-- The submission returns, and with it goes its guard of the catalog lane. -/
def leave (ok : Bool) : ApplyRuntime :=
  { r.goto lsn (.returned ok) with
    catalogLane := if r.catalogLane = some lsn then none else r.catalogLane }

def log (f : History → History) : ApplyRuntime := { r with history := f r.history }

def logFinished (phase : ApplyPhase) (ok : Bool) : ApplyRuntime :=
  r.log fun h => { h with finished := h.finished ++ [(lsn, phase, ok)] }

def poison : ApplyRuntime := { r with state := r.state.poison }

/-! ## Submissions -/

/-- The registration of a request, whose parts are counted in 32 bits (643). L428-438 -/
def submit (request : ApplyRequest) : ApplyRuntime :=
  match r.state.registerRecord request.lsn request.durableBatchLsn with
  | (.error _, state) => { r with state }
  | (.ok lsn, state) =>
    { r with
      state
      submissions := update r.submissions lsn
        (some { request, remainingTabletParts := request.tabletParts.length % 2 ^ 32 }) }

variable (sub : Submission)

/-- After the hooks of its prefix. L505-510 -/
def afterPublishing : ApplyRuntime :=
  if sub.request.waitsForPublished then r.goto lsn .waitPublished else r.leave lsn true

/-- `mark_applied`: its locked part, and the loop over the hooks if there are any.
L887-899 -/
def markAppliedStep : ApplyRuntime :=
  match r.state.markApplied lsn with
  | .error _ => r.leave lsn false
  | .ok (hooks, state) =>
    let r : ApplyRuntime := { r with state }
    let r := r.log fun h => { h with marked := h.marked ++ [lsn] }
    let r := r.updateTicket lsn fun sub => { sub with applied := true }
    if hooks.isEmpty then r.afterPublishing lsn sub
    else { r.goto lsn .publishing with publishers := update r.publishers lsn (some { todo := hooks }) }

/-- The next step of a submission; `none` while it is blocked.
L446-513, and for the waits 1182-1212 -/
def advanceSubmission (ok : Bool) : Option ApplyRuntime :=
  match sub.pc with
  | .waitTurn =>
    match r.state.waitForDispatchTurn lsn with
    | none => none
    | some (.error _) => some (r.goto lsn .failRecord)
    | some (.ok _) => some (r.goto lsn .takeLane)
  | .takeLane =>
    if sub.request.catalogSerial then
      if r.catalogLane.isNone then some { r.goto lsn .catalogPre with catalogLane := some lsn } else none
    else some (r.goto lsn .catalogPre)
  | .catalogPre =>
    some ((r.logFinished lsn .catalogPre ok).goto lsn (if ok then .enqueue 0 else .failRecord))
  | .enqueue part =>
    match sub.request.tabletParts[part]? with
    | some tabletId =>
      some { r.goto lsn (.enqueue (part + 1)) with
        tabletDispatch := r.tabletDispatch.enqueueTabletPart tabletId ⟨lsn, part⟩ }
    | none => some (r.goto lsn .finishTurn)
  | .finishTurn =>
    some { r.goto lsn .tabletPhase with state := r.state.finishDispatchTurn lsn }
  | .tabletPhase =>
    if sub.partError then some (r.goto lsn .failRecord)
    else if sub.remainingTabletParts = 0 then some (r.goto lsn .descriptor)
    else if r.state.poisoned then some (r.goto lsn .failRecord)
    else none
  | .descriptor =>
    some ((r.logFinished lsn .descriptor ok).goto lsn (if ok then .catalogPost else .failRecord))
  | .catalogPost =>
    some ((r.logFinished lsn .catalogPost ok).goto lsn (if ok then .markApplied else .failRecord))
  | .markApplied => some (r.markAppliedStep lsn sub)
  | .publishing => none
  | .waitPublished =>
    if sub.partError then some (r.leave lsn false)
    else if sub.published then some (r.leave lsn true)
    else if r.state.poisoned then some (r.leave lsn false)
    else none
  -- `fail_record`: poison under the state lock, then fail the ticket under its own
  | .failRecord => some (r.poison.goto lsn .failTicket)
  | .failTicket => some ((r.updateTicket lsn fun sub => { sub with partError := true }).leave lsn false)
  | .returned _ => none

/-! ## Tablet workers -/

/-- A worker asks for work. L1277-1279 -/
def dequeue : ApplyRuntime :=
  match r.tabletDispatch.dequeueTabletWork with
  | (.work tabletId work, tabletDispatch) =>
    { r with
      tabletDispatch
      workers := update r.workers work (some { tabletId })
      history := { r.history with started := r.history.started ++ [(tabletId, work)] } }
  | (_, tabletDispatch) => { r with tabletDispatch }

/-- L1281-1300 and 751-758 -/
def advanceWorker (work : TabletApplyWork) (worker : Worker) (ok : Bool) : ApplyRuntime :=
  match worker.stage with
  | .running =>
    { r.logFinished work.lsn (.tabletPart work.part) ok with
      workers := update r.workers work (some { worker with stage := .ran ok }) }
  | .ran ok =>
    { r with
      tabletDispatch := r.tabletDispatch.finishTabletDispatch worker.tabletId
      workers := update r.workers work (some { worker with stage := .complete ok }) }
  | .complete true =>
    { r.updateTicket work.lsn fun sub => { sub with
        remainingTabletParts := sub.remainingTabletParts - 1 } with
      workers := update r.workers work none
      history := { r.history with completed := r.history.completed ++ [work] } }
  | .complete false =>
    { r.poison with workers := update r.workers work (some { worker with stage := .failTicket }) }
  | .failTicket =>
    { r.updateTicket work.lsn fun sub => { sub with partError := true } with
      workers := update r.workers work none }

/-! ## Hooks of a published prefix -/

def finishPublisher (trigger : Nat) (ok : Bool) : ApplyRuntime :=
  let r : ApplyRuntime := { r with publishers := update r.publishers trigger none }
  match r.submissions trigger with
  | none => r
  | some sub => if ok then r.afterPublishing trigger sub else r.leave trigger false

/-- One step of the loop; without an observer `record_published` is not called.
L901-941 -/
def advancePublisher (observer : Bool) (trigger : Nat) (publisher : Publisher) (ok : Bool) : ApplyRuntime :=
  let goto (r : ApplyRuntime) (stage : HookStage) : ApplyRuntime :=
    { r with publishers := update r.publishers trigger (some { publisher with stage }) }
  match publisher.todo, publisher.stage with
  | [], _ => r.finishPublisher trigger true
  | lsn :: _, .hook =>
    goto (r.log fun h => { h with hooked := h.hooked ++ [lsn] }) (if ok then .observe else .failRecord)
  | lsn :: _, .observe =>
    if observer then
      goto (r.log fun h => { h with observed := h.observed ++ [lsn] })
        (if ok then .markPublished else .failRecord)
    else goto r .markPublished
  | lsn :: todo, .markPublished =>
    { r.updateTicket lsn fun sub => { sub with published := true } with
      publishers := update r.publishers trigger (some { todo }) }
  | _ :: _, .failRecord => goto r.poison .failTicket
  | lsn :: _, .failTicket =>
    (r.updateTicket lsn fun sub => { sub with partError := true }).finishPublisher trigger false

/-! ## Recovery -/

/-- L778-811 -/
def placeholder : ApplyRuntime :=
  match r.state.advanceDispatchPastPlaceholder lsn with
  | .error _ => r
  | .ok (hooks, state) =>
    { r with
      state
      publishers :=
        if hooks.isEmpty then r.publishers else update r.publishers lsn (some { todo := hooks })
      history :=
        if r.state.nextDispatchLsn = lsn then
          { r.history with placeholders := r.history.placeholders ++ [lsn] }
        else r.history }

/-- L815-856 -/
def gapBefore : ApplyRuntime :=
  match r.state.advanceDispatchGapBefore lsn with
  | .error _ => r
  | .ok state =>
    { r with
      state
      history := { r.history with
        skipped := r.history.skipped ++
          List.range' r.state.nextDispatchLsn (lsn - r.state.nextDispatchLsn) } }

end ApplyRuntime
end Paro.L2
