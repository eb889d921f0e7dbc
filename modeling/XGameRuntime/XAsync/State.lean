import XGameRuntime.Results
import XGameRuntime.TaskQueue.Load
import XGameRuntime.TaskQueue.Api

/-! # The state of the async engine

What the functions of `src/com/xasync/core.rs`, the `XAsync*` methods of
`src/com/xasync/impl.rs` and `run_sync` of `src/com/xasync/mod.rs` read and write, and what they
have left to do between two of their lock sections.

A block is named by a number, its address, and 0 is the null pointer. The `internal` area of a
block, which holds a signature and a pointer, is the index of the call parked there.
-/

namespace XGameRuntime.XAsync
open TaskQueue
set_option autoImplicit false

inductive XAsyncOp where
  | begin
  | doWork
  | getResult
  | cancel
  | cleanup
  deriving DecidableEq, Repr

/-- The provider of a call: a function of the game, `run_provider`, or `run_sync_helper` with its
context. -/
inductive Provider where
  | game
  | run
  | runSync (helper : ℕ)
  deriving DecidableEq, Repr

structure XAsyncBlock where
  queue : ℕ := 0
  callback : Option ℕ := none
  internal : Option ℕ := none
  deriving DecidableEq, Repr

/-- `AsyncState` with its `Inner`. The last field is a history variable: `XAsyncGetResult` has
passed its checks and gone to the provider. -/
structure AsyncState where
  provider : Provider
  identity : ℕ
  queue : ℕ
  block : ℕ
  status : HRESULT := E_PENDING
  resultSize : ℕ := 0
  canceled : Bool := false
  cleanedUp : Bool := false
  delivering : Bool := false
  deriving DecidableEq, Repr

/-- `XsyncContextHelper`, with `size_of::<T>()`; its payload is dropped with it. -/
structure XsyncContextHelper where
  size : ℕ
  result : HRESULT := E_ABORT
  canceled : Bool := false
  payload : Option ℕ := none
  deriving DecidableEq, Repr

/-- What a future of `run_sync` returns. -/
inductive FutureResult where
  | ok (value : ℕ)
  | err (hr : HRESULT)
  deriving DecidableEq, Repr

/-- What the methods return. Calls are named by the index of their state; `none` stands for a
block that drives no call, or that has not been looked at. -/
inductive Return where
  | begin (block : ℕ) (state : Option ℕ) (hr : HRESULT)
  | schedule (state : Option ℕ) (hr : HRESULT)
  | getStatus (state : Option ℕ) (hr : HRESULT)
  | getResultSize (state : Option ℕ) (hr : HRESULT) (size : ℕ)
  /-- `XAsyncGetResult` returns without having taken the result. -/
  | getResultRefused (state : Option ℕ) (hr : HRESULT)
  /-- `XAsyncGetResult` returns, and `out` is what `run_sync` has put in the buffer. -/
  | getResult (state : ℕ) (hr : HRESULT) (out : Option ℕ)
  deriving DecidableEq, Repr

/-- The history of the engine. -/
inductive Event where
  /-- `XAsyncBegin` has parked a call in a block. -/
  | began (state block : ℕ)
  /-- The provider has received an operation. -/
  | invoked (state : ℕ) (op : XAsyncOp)
  /-- `complete_state` hands over the completion callback; `status` is what is recorded then. -/
  | announced (state : ℕ) (status : HRESULT)
  /-- The completion routine of the game runs on the block. -/
  | routine (state block callback : ℕ)
  | future (helper : ℕ) (result : FutureResult)
  /-- The worker of `run_sync` completes its block, and so the call that the block drives. -/
  | workerCompletes (helper : ℕ) (state : Option ℕ)
  /-- A context of `run_sync` is used, and is freed. -/
  | touched (helper : ℕ)
  | released (helper : ℕ)
  | returned (value : Return)
  deriving DecidableEq, Repr

/-- A callback with its context, as it is submitted to a queue. -/
inductive Callback where
  /-- A callback of the game. -/
  | game (id : ℕ)
  /-- `work_callback`. -/
  | work (state : ℕ)
  /-- `completion_callback`. -/
  | completion (state callback : ℕ)
  /-- `run_sync_worker`. -/
  | runSyncWorker (helper block : ℕ)
  deriving DecidableEq, Repr

/-- The methods that resolve a block. `out` says that the out-pointer is not null. -/
inductive XAsyncCall where
  | schedule (delayInMs : ℕ)
  | complete (result : HRESULT) (requiredBufferSize : ℕ)
  /-- `wait` is off for a caller inside a dispatch, which must not block. -/
  | getStatus (wait : Bool)
  | getResultSize (out : Bool)
  | getResult (identity bufferSize : ℕ)
  | cancel
  deriving DecidableEq, Repr

/-- What a thread has left to do in the engine. -/
inductive Code where
  /-- Code of the game, which may call anything, any number of times. -/
  | game
  /-- A call returns. -/
  | ret (value : Return)
  /-- A call that has resolved its block. `complete` is `complete_state`. -/
  | call (state : ℕ) (c : XAsyncCall)
  /-- `AsyncState::invoke`, the end of a provider's own code, and what the engine does next. -/
  | invoke (state : ℕ) (op : XAsyncOp)
  | opReturn (state : ℕ) (op : XAsyncOp)
  | afterOp (state : ℕ) (op : XAsyncOp) (hr : HRESULT) (out : Option ℕ)
  /-- The rest of `complete_state`, after its lock section has recorded `result`. -/
  | announce (state : ℕ) (result : HRESULT)
  | completionCallback (state callback : ℕ)
  | cleanup (state : ℕ)
  | beginReturn (state : ℕ) (hr : HRESULT)
  /-- `XTaskQueueGetCurrentProcessTaskQueue`, once it has seen that there is a process queue. -/
  | processQueue
  -- the closure of `run_sync_helper`: the call of the future, its return, and `complete`
  | work (helper block : ℕ) (canceled : Bool)
  | futureReturn (helper block : ℕ)
  | completeBlock (helper block : ℕ)
  deriving DecidableEq, Repr

/-- What code of the game does next, or what code called by the engine returns. -/
inductive Choice where
  /-- The game writes the two fields of a block that are its own. -/
  | setBlock (block queue : ℕ) (callback : Option ℕ)
  | queue (c : QueueCall ℕ Unit)
  | begin (block identity : ℕ) (provider : Bool)
  | run (block : ℕ) (work : Bool)
  | runSync (block size : ℕ)
  | xasync (block : ℕ) (c : XAsyncCall)
  | thread
  | finish
  | returns (hr : HRESULT)
  | produces (value : ℕ)
  deriving DecidableEq, Repr

structure Memory where
  blocks : ℕ → XAsyncBlock := fun _ => {}
  states : List AsyncState := []
  helpers : List XsyncContextHelper := []
  runSyncQueue : Option ℕ := none
  log : List Event := []

namespace Memory

def record (m : Memory) (e : Event) : Memory := { m with log := e :: m.log }

def setBlock (m : Memory) (b : ℕ) (block : XAsyncBlock) : Memory :=
  { m with blocks := Function.update m.blocks b block }

def setState (m : Memory) (i : ℕ) (state : AsyncState) : Memory :=
  { m with states := m.states.set i state }

def setHelper (m : Memory) (i : ℕ) (helper : XsyncContextHelper) : Memory :=
  { m with helpers := m.helpers.set i helper }

/-- `state_of`. -/
def stateOf (m : Memory) (b : ℕ) : Option ℕ :=
  if b = 0 then none else (m.blocks b).internal

/-- `take_state`. -/
def takeState (m : Memory) (b : ℕ) : Memory :=
  if b = 0 then m else m.setBlock b { m.blocks b with internal := none }

/-- `AsyncState` and `write_internal` in `XAsyncBegin`. -/
def park (m : Memory) (state : AsyncState) : Memory :=
  ({ m with states := m.states ++ [state] }.setBlock state.block
    { m.blocks state.block with internal := some m.states.length }).record
    (.began m.states.length state.block)

@[simp] theorem record_blocks (m : Memory) (e : Event) : (m.record e).blocks = m.blocks := rfl
@[simp] theorem record_states (m : Memory) (e : Event) : (m.record e).states = m.states := rfl
@[simp] theorem record_helpers (m : Memory) (e : Event) : (m.record e).helpers = m.helpers := rfl
@[simp] theorem record_log (m : Memory) (e : Event) : (m.record e).log = e :: m.log := rfl

@[simp] theorem setBlock_blocks (m : Memory) (b : ℕ) (block : XAsyncBlock) :
    (m.setBlock b block).blocks = Function.update m.blocks b block := rfl
@[simp] theorem setBlock_states (m : Memory) (b : ℕ) (block : XAsyncBlock) :
    (m.setBlock b block).states = m.states := rfl
@[simp] theorem setBlock_helpers (m : Memory) (b : ℕ) (block : XAsyncBlock) :
    (m.setBlock b block).helpers = m.helpers := rfl
@[simp] theorem setBlock_log (m : Memory) (b : ℕ) (block : XAsyncBlock) :
    (m.setBlock b block).log = m.log := rfl

@[simp] theorem setState_blocks (m : Memory) (i : ℕ) (state : AsyncState) :
    (m.setState i state).blocks = m.blocks := rfl
@[simp] theorem setState_states (m : Memory) (i : ℕ) (state : AsyncState) :
    (m.setState i state).states = m.states.set i state := rfl
@[simp] theorem setState_helpers (m : Memory) (i : ℕ) (state : AsyncState) :
    (m.setState i state).helpers = m.helpers := rfl
@[simp] theorem setState_log (m : Memory) (i : ℕ) (state : AsyncState) :
    (m.setState i state).log = m.log := rfl

@[simp] theorem setHelper_blocks (m : Memory) (i : ℕ) (helper : XsyncContextHelper) :
    (m.setHelper i helper).blocks = m.blocks := rfl
@[simp] theorem setHelper_states (m : Memory) (i : ℕ) (helper : XsyncContextHelper) :
    (m.setHelper i helper).states = m.states := rfl
@[simp] theorem setHelper_helpers (m : Memory) (i : ℕ) (helper : XsyncContextHelper) :
    (m.setHelper i helper).helpers = m.helpers.set i helper := rfl
@[simp] theorem setHelper_log (m : Memory) (i : ℕ) (helper : XsyncContextHelper) :
    (m.setHelper i helper).log = m.log := rfl

@[simp] theorem takeState_states (m : Memory) (b : ℕ) : (m.takeState b).states = m.states := by
  unfold takeState
  split <;> rfl

@[simp] theorem takeState_helpers (m : Memory) (b : ℕ) :
    (m.takeState b).helpers = m.helpers := by
  unfold takeState
  split <;> rfl

@[simp] theorem takeState_log (m : Memory) (b : ℕ) : (m.takeState b).log = m.log := by
  unfold takeState
  split <;> rfl

@[simp] theorem park_states (m : Memory) (state : AsyncState) :
    (m.park state).states = m.states ++ [state] := rfl
@[simp] theorem park_helpers (m : Memory) (state : AsyncState) :
    (m.park state).helpers = m.helpers := rfl
@[simp] theorem park_log (m : Memory) (state : AsyncState) :
    (m.park state).log = .began m.states.length state.block :: m.log := rfl

end Memory
end XGameRuntime.XAsync
