import XGameRuntime.Results
import XGameRuntime.TaskQueue.Machine

/-! # The entry points of the task queue

The `XTaskQueue*` methods of `src/com/xasync/impl.rs`, which resolve handles and check their
arguments before they call into a queue, all but `XTaskQueueRegisterWaiter` and
`XTaskQueueUnregisterWaiter`. `QueueGame` is the client whose code may call any of these at any time,
on any number of threads, from callbacks and monitors too.
-/

namespace XGameRuntime.TaskQueue
open Concurrency
set_option autoImplicit false

/-- A call with its arguments; `out` says that the out-pointer is not null, and a callback that
is `none` is a null pointer. -/
inductive QueueCall (κ γ : Type) where
  | create (workDispatchMode completionDispatchMode : ℕ) (out : Bool)
  | createComposite (workPort completionPort : ℕ) (out : Bool)
  | getPort (queue port : ℕ) (out : Bool)
  | duplicateHandle (queueHandle : ℕ) (out : Bool)
  | closeHandle (queue : ℕ)
  | dispatch (queue port timeoutInMs : ℕ)
  | submitDelayedCallback (queue port delayMs : ℕ) (callback : Option κ)
  | terminate (queue : ℕ) (wait : Bool) (terminated : List γ)
  | registerMonitor (queue callbackContext : ℕ) (callback out : Bool)
  | unregisterMonitor (queue token : ℕ)
  | getCurrentProcessTaskQueue (out : Bool)
  | setCurrentProcessTaskQueue (queue : ℕ)
  deriving DecidableEq, Repr

/-- The call, with the callbacks and the code in it renamed. -/
def QueueCall.map {κ γ κ' γ' : Type} (f : κ → κ') (g : γ → γ') : QueueCall κ γ → QueueCall κ' γ'
  | .create work completion out => .create work completion out
  | .createComposite work completion out => .createComposite work completion out
  | .getPort queue port out => .getPort queue port out
  | .duplicateHandle queueHandle out => .duplicateHandle queueHandle out
  | .closeHandle queue => .closeHandle queue
  | .dispatch queue port timeoutInMs => .dispatch queue port timeoutInMs
  | .submitDelayedCallback queue port delayMs callback =>
      .submitDelayedCallback queue port delayMs (callback.map f)
  | .terminate queue wait terminated => .terminate queue wait (terminated.map g)
  | .registerMonitor queue callbackContext callback out =>
      .registerMonitor queue callbackContext callback out
  | .unregisterMonitor queue token => .unregisterMonitor queue token
  | .getCurrentProcessTaskQueue out => .getCurrentProcessTaskQueue out
  | .setCurrentProcessTaskQueue queue => .setCurrentProcessTaskQueue queue

/-- What a call does at once and what it goes on to run. -/
structure Reply (κ γ : Type) where
  admin : List Admin := []
  run : List (Instr κ γ) := []
  spawn : List (List (Instr κ γ)) := []

section Perform
variable {κ γ : Type}

/-- `ret` is what the caller runs with the value returned, and `seen` what it runs once it has seen
that there is a process queue. -/
def QueueCall.perform (s : TaskQueues κ) (ret : ℕ → List γ) (seen : List γ) :
    QueueCall κ γ → Reply κ γ
  | .create work completion out =>
      if out then
        match DispatchMode.fromRaw work, DispatchMode.fromRaw completion with
        | some work, some completion =>
            { admin := [.newQueue work completion, .createQueueHandle s.queues.length]
              run := (ret S_OK).map .frame }
        | _, _ => { run := (ret E_INVALIDARG).map .frame }
      else { run := (ret E_POINTER).map .frame }
  | .createComposite work completion out =>
      if out then
        match s.portHandles.get work, s.portHandles.get completion with
        | some work, some completion =>
            { admin := [.composite work completion, .createQueueHandle s.queues.length]
              run := (ret S_OK).map .frame }
        | _, _ => { run := (ret E_INVALIDARG).map .frame }
      else { run := (ret E_POINTER).map .frame }
  | .getPort queue port out =>
      if out then
        match s.queueHandles.get queue, PortKind.fromRaw port with
        | some queue, some kind =>
            match s.portOf queue kind with
            | some p => { admin := [.createPortHandle p], run := (ret S_OK).map .frame }
            | none => {}
        | _, _ => { run := (ret E_INVALIDARG).map .frame }
      else { run := (ret E_POINTER).map .frame }
  | .duplicateHandle queueHandle out =>
      if out then
        match s.queueHandles.get queueHandle with
        | some queue => { admin := [.createQueueHandle queue], run := (ret S_OK).map .frame }
        | none => { run := (ret E_INVALIDARG).map .frame }
      else { run := (ret E_POINTER).map .frame }
  | .closeHandle queue => { admin := [.closeQueueHandle queue] }
  | .dispatch queue port timeoutInMs =>
      match s.queueHandles.get queue, PortKind.fromRaw port with
      | some queue, some kind =>
          match s.portOf queue kind with
          | some p => { run := [.dispatch ⟨p, timeoutInMs, ret 1, ret 0⟩] }
          | none => {}
      | _, _ => { run := (ret 0).map .frame }
  | .submitDelayedCallback queue port delayMs callback =>
      match callback with
      | none => { run := (ret E_POINTER).map .frame }
      | some callback =>
          match s.queueHandles.get queue, PortKind.fromRaw port with
          | some queue, some kind =>
              { run := [.submit ⟨queue, kind, delayMs, callback, ret S_OK, ret E_ABORT⟩] }
          | _, _ => { run := (ret E_INVALIDARG).map .frame }
  | .terminate queue wait terminated =>
      match s.queueHandles.get queue with
      | none => { run := (ret E_INVALIDARG).map .frame }
      | some queue =>
          if wait then { run := [.terminate ⟨queue, true, terminated ++ ret S_OK⟩] }
          else
            { run := (ret S_OK).map .frame, spawn := [[.terminate ⟨queue, true, terminated⟩]] }
  | .registerMonitor queue callbackContext callback out =>
      if out && callback then
        match s.queueHandles.get queue with
        | some queue =>
            { admin := [.registerMonitor queue callbackContext], run := (ret S_OK).map .frame }
        | none => { run := (ret E_INVALIDARG).map .frame }
      else { run := (ret E_POINTER).map .frame }
  | .unregisterMonitor queue token =>
      match s.queueHandles.get queue with
      | some queue => { admin := [.unregisterMonitor queue token] }
      | none => {}
  | .getCurrentProcessTaskQueue out =>
      if out && s.processQueue.isSome then { run := seen.map .frame }
      else { run := (ret 0).map .frame }
  | .setCurrentProcessTaskQueue queue =>
      { admin := [.setProcessQueue (s.queueHandles.get queue)] }

/-- The rest of `XTaskQueueGetCurrentProcessTaskQueue`, in a section of its own: by then the process
queue may be another one, or gone. -/
def createProcessQueueHandle (s : TaskQueues κ) (ret : ℕ → List γ) : Reply κ γ where
  admin := [.defaultProcessQueue, .createQueueHandle (s.processQueue.getD s.queues.length)]
  run := (ret 1).map .frame

end Perform

/-! ## Arbitrary code above the queue -/

inductive GameFrame where
  /-- Code that may call anything, any number of times. -/
  | code
  /-- A call that returns a value. -/
  | ret (value : ℕ)
  /-- A call that has seen a process queue. -/
  | processQueue
  deriving DecidableEq, Repr

/-- What game code does next. -/
inductive GameChoice where
  | call (c : QueueCall ℕ GameFrame)
  | thread
  | finish
  deriving DecidableEq, Repr

/-- The client whose callbacks, named by numbers, and monitors may do anything; its memory is the
list of the values returned to it, newest first. -/
def QueueGame : Client ℕ where
  Mem := List ℕ
  Frame := GameFrame
  Choice := GameChoice
  body _ _ := [.code]
  monitor _ _ _ := [.code]
  step mem s frame choice :=
    match frame, choice with
    | .code, .call c =>
        let r := c.perform s (fun value => [.ret value]) [.processQueue]
        some { mem := mem, admin := r.admin, run := r.run ++ [.frame .code], spawn := r.spawn }
    | .code, .thread => some { mem := mem, run := [.frame .code], spawn := [[.frame .code]] }
    | .code, .finish => some { mem := mem }
    | .ret value, _ => some { mem := value :: mem }
    | .processQueue, _ =>
        let r := createProcessQueueHandle s fun value => [.ret value]
        some { mem := mem, admin := r.admin, run := r.run }

/-- A process with `n` threads of the game, before any call. -/
def QueueGame.start (pool n : ℕ) : Config (World QueueGame) (Frame ℕ GameFrame) where
  shared := { pool := pool, mem := ([] : List ℕ) }
  threads := [.clock] :: List.replicate n [.client .code]

theorem QueueGame.initial (pool n : ℕ) : Initial QueueGame (QueueGame.start pool n) := by
  refine ⟨⟨pool, 0, rfl⟩, ?_⟩
  intro f hf
  obtain ⟨k, hk, hfk⟩ := List.mem_flatten.mp (Multiset.mem_coe.mp hf)
  rcases List.mem_cons.mp hk with rfl | hk
  · exact .inl (List.mem_singleton.mp hfk)
  · rw [List.eq_of_mem_replicate hk] at hfk
    exact .inr ⟨.code, List.mem_singleton.mp hfk⟩

/-- In a schedule, a call that the game makes on thread 1. -/
def QueueGame.call (c : QueueCall ℕ GameFrame) : ℕ × Option GameChoice := (1, some (.call c))

/-- In a schedule, `n` further steps of one thread. -/
def QueueGame.steps (thread n : ℕ) : List (ℕ × Option GameChoice) :=
  List.replicate n (thread, some .finish)

end XGameRuntime.TaskQueue
