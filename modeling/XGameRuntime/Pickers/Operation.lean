import XGameRuntime.Concurrency.Pool
import XGameRuntime.Results

/-! # Pick operations

`src/com/pickers/async_op.rs`: the operation that a pick hands back, from `start` or `completed`
to its completion handler. The state's mutex is a flag of the memory, so that a section which
holds it is a step of its own.
-/

namespace XGameRuntime.Pickers
open Concurrency
set_option autoImplicit false

/-! ## Data -/

inductive AsyncStatus where
  | Started | Completed | Canceled | Error
  deriving DecidableEq, Repr

/-- A completion handler as one call of `SetCompleted` passes it; `call` tells apart two
registrations of one delegate. -/
structure Handler where
  delegate : ℕ
  call : ℕ
  deriving DecidableEq, Repr

section
variable {Path Value : Type}

structure OperationState (Path : Type) where
  status : AsyncStatus := .Started
  error : HRESULT := S_OK
  picked : Option Path := none
  handler : Option Handler := none

def OperationState.finish (state : OperationState Path) :
    Except HRESULT (Option Path) → OperationState Path
  | .ok picked => { state with status := .Completed, picked := picked }
  | .error error => { state with status := .Error, error := error }

inductive Query where
  | Completed | GetResults | Status | ErrorCode
  deriving DecidableEq, Repr

/-- What the getters return; an error `S_OK` is `Error::empty`, a null result. -/
inductive Answer (Value : Type) where
  | completed (result : Except HRESULT Handler)
  | results (result : Except HRESULT Value)
  | status (status : AsyncStatus)
  | errorCode (error : HRESULT)

def OperationState.results (createResult : Path → Value) (state : OperationState Path) :
    Except HRESULT Value :=
  match state.status with
  | .Completed =>
      match state.picked with
      | none => .error S_OK
      | some path => .ok (createResult path)
  | .Error => .error state.error
  | _ => .error E_ILLEGAL_METHOD_CALL

def OperationState.answer (createResult : Path → Value) (state : OperationState Path) :
    Query → Answer Value
  | .Completed => .completed (state.handler.elim (.error S_OK) .ok)
  | .GetResults => .results (state.results createResult)
  | .Status => .status state.status
  | .ErrorCode => .errorCode state.error

/-- What has happened, latest first. -/
inductive Event (Path Value : Type) where
  /-- The section of a call of `SetCompleted`. -/
  | registered (handler : Option Handler)
  /-- The section of `finish`. -/
  | finished (outcome : Except HRESULT (Option Path))
  | invoked (handler : Handler) (status : AsyncStatus)
  | answered (answer : Answer Value)

structure Memory (Path Value : Type) where
  state : OperationState Path := {}
  locked : Bool := false
  created : Bool := false
  returned : Bool := false
  /-- A posted message holds the work of `run_later`. -/
  deferred : Bool := false
  calls : ℕ := 0
  log : List (Event Path Value) := []

namespace Memory
variable (m : Memory Path Value)

def record (e : Event Path Value) : Memory Path Value := { m with log := e :: m.log }

/-- `finish` gives the state's lock back. -/
def finish (outcome : Except HRESULT (Option Path)) : Memory Path Value :=
  { m with state := m.state.finish outcome, locked := false }.record (.finished outcome)

def register (handler : Option Handler) : Memory Path Value :=
  { m with state := { m.state with handler := handler }, locked := false }.record
    (.registered handler)

def unlock : Memory Path Value := { m with locked := false }

end Memory

/-! ## Threads -/

/-- What a thread has left to do; `finishing` and the like have the state's lock. -/
inductive Code (Path : Type) where
  /-- Code of the title: a thread's, or that of a handler or a dialog's message loop. -/
  | title
  /-- `run_later` in `start`. -/
  | start
  | returning
  /-- The work of the pick, with the dialog. -/
  | job
  | finish (outcome : Except HRESULT (Option Path))
  | finishing (outcome : Except HRESULT (Option Path))
  | invoke (handler : Handler)
  | invoking (handler : Handler)
  | call (handler : Handler) (status : AsyncStatus)
  | setCompleted (handler : Option Handler)
  | registering (handler : Option Handler)
  | query (query : Query)
  | answering (query : Query)

inductive Choice (Path : Type) where
  | pick
  /-- The title asks for what is known at once. -/
  | lookUp (outcome : Except HRESULT (Option Path))
  | setCompleted (delegate : Option ℕ)
  | ask (query : Query)
  | dispatch
  | thread
  | done
  | queued (queued : Bool)
  /-- A dialog runs the title's messages. -/
  | modal
  | outcome (outcome : Except HRESULT (Option Path))
  | go

def Memory.titleStep (m : Memory Path Value) :
    Choice Path → Option (Outcome (Memory Path Value) (Code Path))
  | .pick =>
      if m.created then none else some ⟨{ m with created := true }, [.start, .title], []⟩
  | .lookUp outcome =>
      if m.created then none
      else some ⟨{ m with created := true }, [.finish outcome, .returning, .title], []⟩
  | .setCompleted delegate =>
      if m.returned then
        some ⟨{ m with calls := m.calls + 1 },
          [.setCompleted (delegate.map fun d => ⟨d, m.calls⟩), .title], []⟩
      else none
  | .ask query => if m.returned then some ⟨m, [.query query, .title], []⟩ else none
  | .dispatch =>
      if m.deferred then some ⟨{ m with deferred := false }, [.job, .title], []⟩ else none
  | .thread => some ⟨m, [.title], [[.title]]⟩
  | .done => some ⟨m, [], []⟩
  | _ => none

/-- `self.state.lock()`. -/
def Memory.lock (m : Memory Path Value) (next : Code Path) :
    Option (Outcome (Memory Path Value) (Code Path)) :=
  if m.locked then none else some ⟨{ m with locked := true }, [next], []⟩

/-- The functions of the operation, one section after the other. -/
def Memory.step (createResult : Path → Value) (m : Memory Path Value) :
    Code Path → Choice Path → Option (Outcome (Memory Path Value) (Code Path))
  | .title, choice => m.titleStep choice
  | .start, .queued true => some ⟨{ m with deferred := true }, [.returning], []⟩
  | .start, .queued false => some ⟨m, [.finish (.error E_FAIL), .returning], []⟩
  | .returning, .go => some ⟨{ m with returned := true }, [], []⟩
  | .job, .modal => some ⟨m, [.title, .job], []⟩
  | .job, .outcome outcome => some ⟨m, [.finish outcome], []⟩
  | .finish outcome, .go => m.lock (.finishing outcome)
  | .finishing outcome, .go =>
      some ⟨m.finish outcome, m.state.handler.toList.map .invoke, []⟩
  | .invoke handler, .go => m.lock (.invoking handler)
  | .invoking handler, .go => some ⟨m.unlock, [.call handler m.state.status], []⟩
  | .call handler status, .go => some ⟨m.record (.invoked handler status), [.title], []⟩
  | .setCompleted handler, .go => m.lock (.registering handler)
  | .registering handler, .go =>
      some ⟨m.register handler,
        if m.state.status ≠ .Started then handler.toList.map .invoke else [], []⟩
  | .query query, .go => m.lock (.answering query)
  | .answering query, .go =>
      some ⟨m.unlock.record (.answered (m.state.answer createResult query)), [], []⟩
  | _, _ => none

def machine (createResult : Path → Value) : Machine (Memory Path Value) (Code Path) (Choice Path) where
  step := Memory.step createResult

def start : Config (Memory Path Value) (Code Path) where
  shared := {}
  threads := [[.title]]

end

end XGameRuntime.Pickers
