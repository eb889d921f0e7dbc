import XGameRuntime.XAsync.State

/-! # The async engine

The `XAsync*` methods of `src/com/xasync/impl.rs`, the functions of `src/com/xasync/core.rs` that
they share, and the two providers of the runtime, cut at their lock sections and at the calls
into code of the game. `Engine` is a client of the task queue.

The block belongs to the caller until a call is parked in it, so `XAsyncBegin` up to `write_internal`
is one step: a game that uses a block before that races with its own call. From then on other threads
resolve the block, also before the provider has received `Begin`.
-/

namespace XGameRuntime.XAsync
open Concurrency TaskQueue
set_option autoImplicit false

abbrev EngineStep := ClientStep Callback Memory Code

/-! ## The queue of a call -/

/-- What `XAsyncBegin` makes of the queue field of a block: the field it leaves there, and the
queue of the call or the error it returns. -/
structure Route where
  admin : List Admin := []
  field : ℕ
  queue : Except HRESULT ℕ

/-- `queue_for`, and the rewriting of the queue field that follows it. -/
def queueFor (s : TaskQueues Callback) (field : ℕ) : Option Route :=
  if field = 0 then do
    let (q, t) ← s.defaultProcessQueue
    let (handle, _) ← t.getProcessQueueHandle
    some ⟨[.defaultProcessQueue, .processQueueHandle], handle, .ok q⟩
  else
    match s.queueHandles.get field with
    | none => some ⟨[], field, .error E_INVALIDARG⟩
    | some q => do
        let mode ← s.modeOf q .work
        if mode = .manual then
          let (isProcess, t) ← s.isProcessQueue q
          if isProcess then some ⟨[.defaultProcessQueue], field, .ok q⟩
          else
            let (handle, u) ← t.getProcessQueueHandle
            -- the cached handle may have been closed by the game
            match u.queueHandles.get handle with
            | none => some ⟨[.defaultProcessQueue, .processQueueHandle], handle,
                .error E_ILLEGAL_METHOD_CALL⟩
            | some p => some ⟨[.defaultProcessQueue, .processQueueHandle], handle, .ok p⟩
        else some ⟨[], field, .ok q⟩

/-! ## Providers -/

section Providers

/-- `run_provider`. -/
def runProvider (m : Memory) (i : ℕ) (state : AsyncState) : XAsyncOp → Option EngineStep
  | .begin =>
      match m.stateOf state.block with
      | none => some { mem := m, run := [.frame (.afterOp i .begin E_ILLEGAL_METHOD_CALL none)] }
      | some j => do
          let parked ← m.states[j]?
          some { mem := m, run := [.submit ⟨parked.queue, .work, 0, .work j,
            [.afterOp i .begin S_OK none], [.afterOp i .begin E_ABORT none]⟩] }
  | .doWork => some { mem := m, run := [.frame .game, .frame (.opReturn i .doWork)] }
  | op => some { mem := m, run := [.frame (.afterOp i op S_OK none)] }

/-- What `Begin` of `run_sync_helper` submits; a refused closure is run in place. -/
def runSyncSubmission (i h b q : ℕ) : Submission Callback Code :=
  ⟨q, .work, 0, .runSyncWorker h b, [.afterOp i .begin S_OK none],
    [.work h b false, .afterOp i .begin S_OK none]⟩

/-- `run_sync_helper` on its context `h`. -/
def runSyncHelper (m : Memory) (s : TaskQueues Callback) (i : ℕ) (state : AsyncState) (h : ℕ)
    (helper : XsyncContextHelper) : XAsyncOp → EngineStep
  | .begin =>
      match m.runSyncQueue with
      | some q =>
          { mem := m.record (.touched h)
            run := [.submit (runSyncSubmission i h state.block q)] }
      | none =>
          { mem := { m.record (.touched h) with runSyncQueue := some s.queues.length }
            admin := [.newQueue .threadPool .threadPool]
            run := [.submit (runSyncSubmission i h state.block s.queues.length)] }
  | .doWork =>
      { mem := m.record (.touched h), run := [.frame (.afterOp i .doWork S_OK none)] }
  | .getResult =>
      { mem := m.record (.touched h)
        run := [.frame (.afterOp i .getResult S_OK
          (if helper.result = S_OK then helper.payload else none))] }
  | .cancel =>
      { mem := (m.record (.touched h)).setHelper h { helper with canceled := true }
        run := [.frame (.afterOp i .cancel S_OK none)] }
  | .cleanup =>
      { mem := (m.record (.released h)).setHelper h { helper with payload := none }
        run := [.frame (.afterOp i .cleanup S_OK none)] }

/-- `AsyncState::invoke`, up to the point where the provider runs code of the game. -/
def invoke (m : Memory) (s : TaskQueues Callback) (i : ℕ) (state : AsyncState) (op : XAsyncOp) :
    Option EngineStep :=
  let m := m.record (.invoked i op)
  match state.provider with
  | .game => some { mem := m, run := [.frame .game, .frame (.opReturn i op)] }
  | .run => runProvider m i state op
  | .runSync h => do
      let helper ← m.helpers[h]?
      some (runSyncHelper m s i state h helper op)

end Providers

/-! ## `XAsyncBegin` and `run_sync` -/

/-- `run_sync` frees the context when `XAsyncBegin` has returned an error. -/
def Memory.beginReturned (m : Memory) (b : ℕ) (i : Option ℕ) (provider : Provider) (hr : HRESULT) :
    Memory :=
  match provider with
  | .runSync h => (m.record (.returned (.begin b i hr))).record (.released h)
  | _ => m.record (.returned (.begin b i hr))

def xasyncBegin (m : Memory) (s : TaskQueues Callback) (b identity : ℕ) (provider : Provider) :
    Option EngineStep :=
  if b = 0 then some { mem := m.beginReturned b none provider E_POINTER }
  else if (m.stateOf b).isSome then some { mem := m.beginReturned b none provider E_INVALIDARG }
  else do
    let route ← queueFor s (m.blocks b).queue
    let routed := m.setBlock b { m.blocks b with queue := route.field }
    match route.queue with
    | .error hr => some { mem := routed.beginReturned b none provider hr, admin := route.admin }
    | .ok q =>
        let state : AsyncState := { provider := provider, identity := identity, queue := q, block := b }
        some { mem := routed.park state, admin := route.admin
               run := [.frame (.invoke m.states.length .begin)] }

/-- The calling code of the game goes on. -/
def resume (r : EngineStep) : EngineStep := { r with run := r.run ++ [.frame .game] }

def Memory.newHelper (m : Memory) (size : ℕ) : Memory :=
  { m with helpers := m.helpers ++ [{ size := size }] }

/-! ## Calls that have resolved their block -/

/-- What a call returns when the block drives none. -/
def XAsyncCall.illegal : XAsyncCall → List Return
  | .schedule _ => [.schedule none E_ILLEGAL_METHOD_CALL]
  | .complete _ _ | .cancel => []
  | .getStatus _ => [.getStatus none E_ILLEGAL_METHOD_CALL]
  | .getResultSize out => [.getResultSize none (if out then E_ILLEGAL_METHOD_CALL else E_POINTER) 0]
  | .getResult _ _ => [.getResultRefused none E_ILLEGAL_METHOD_CALL]

/-- The lock section of `complete_state`. -/
def completeState (m : Memory) (i : ℕ) (state : AsyncState) (result : HRESULT) (size : ℕ) :
    EngineStep :=
  if state.status = E_PENDING then
    { mem := m.setState i { state with status := result, resultSize := size }
      run := [.frame (.announce i result)] }
  else { mem := m }

def callStep (m : Memory) (i : ℕ) (state : AsyncState) : XAsyncCall → Option EngineStep
  | .schedule delayInMs =>
      some { mem := m, run := [.submit ⟨state.queue, .work, delayInMs, .work i,
        [.ret (.schedule (some i) S_OK)],
        [.call i (.complete E_ABORT 0), .ret (.schedule (some i) E_ABORT)]⟩] }
  | .complete result size => some (completeState m i state result size)
  | .getStatus wait =>
      if state.status = E_PENDING then
        if wait then none
        else some { mem := m, run := [.frame (.ret (.getStatus (some i) E_PENDING))] }
      else if state.resultSize = 0 then
        some { mem := m
               run := [.frame (.cleanup i), .frame (.ret (.getStatus (some i) state.status))] }
      else some { mem := m, run := [.frame (.ret (.getStatus (some i) state.status))] }
  | .getResultSize out =>
      let value : Return :=
        if out = false then .getResultSize none E_POINTER 0
        else if state.status = E_PENDING then .getResultSize (some i) E_PENDING 0
        else .getResultSize (some i) state.status state.resultSize
      some { mem := m, run := [.frame (.ret value)] }
  | .getResult identity bufferSize =>
      if state.status = E_PENDING then
        some { mem := m, run := [.frame (.ret (.getResultRefused (some i) E_PENDING))] }
      else if state.status ≠ S_OK then
        some { mem := m, run := [.frame (.cleanup i),
          .frame (.ret (.getResult i state.status none))] }
      else if identity ≠ 0 ∧ identity ≠ state.identity then
        some { mem := m, run := [.frame (.ret (.getResultRefused (some i) E_INVALIDARG))] }
      else if bufferSize < state.resultSize then
        some { mem := m, run := [.frame (.ret (.getResultRefused (some i) E_NOT_SUFFICIENT_BUFFER))] }
      else
        some { mem := m.setState i { state with delivering := true }
               run := [.frame (.invoke i .getResult)] }
  | .cancel =>
      if state.status ≠ E_PENDING ∨ state.canceled = true then some { mem := m }
      else
        some { mem := m.setState i { state with canceled := true }
               run := [.frame (.invoke i .cancel)] }

/-- What the engine does with the value that a provider's operation returns. -/
def afterOp (m : Memory) (i : ℕ) (state : AsyncState) (hr : HRESULT) (out : Option ℕ) :
    XAsyncOp → EngineStep
  | .begin =>
      if hr = S_OK then { mem := m.record (.returned (.begin state.block (some i) S_OK)) }
      else
        { mem := m.setState i { state with status := hr }
          run := [.frame (.cleanup i), .frame (.beginReturn i hr)] }
  | .doWork => if hr = E_PENDING then { mem := m } else completeState m i state hr 0
  | .getResult =>
      { mem := m, run := [.frame (.cleanup i), .frame (.ret (.getResult i hr out))] }
  | .cancel =>
      if state.status = E_PENDING then
        { mem := m, run := [.submit ⟨state.queue, .work, 0, .work i, [],
          [.call i (.complete E_ABORT 0)]⟩] }
      else { mem := m }
  | .cleanup => { mem := m.takeState state.block }

/-! ## The steps -/

/-- What a call of the game on a queue does and goes on to run. -/
def gameCall (s : TaskQueues Callback) (c : QueueCall ℕ Unit) : Reply Callback Code :=
  (c.map Callback.game fun _ => Code.game).perform s (fun _ => []) [.processQueue]

/-- Code of the game. -/
def gameStep (m : Memory) (s : TaskQueues Callback) : Choice → Option EngineStep
  | .setBlock b queue callback =>
      some { mem := m.setBlock b { m.blocks b with queue := queue, callback := callback }
             run := [.frame .game] }
  | .queue c =>
      let r := gameCall s c
      some { mem := m, admin := r.admin, run := r.run ++ [.frame .game], spawn := r.spawn }
  | .begin b identity provider =>
      if provider then (xasyncBegin m s b identity .game).map resume
      else some { mem := m.record (.returned (.begin b none E_POINTER)), run := [.frame .game] }
  | .run b work =>
      if work then (xasyncBegin m s b 0 .run).map resume
      else some { mem := m.record (.returned (.begin b none E_POINTER)), run := [.frame .game] }
  | .runSync b size =>
      if b = 0 then some { mem := m, run := [.frame .game] }
      else (xasyncBegin (m.newHelper size) s b 0 (.runSync m.helpers.length)).map resume
  | .xasync b c =>
      match m.stateOf b with
      | none => some { mem := m, run := c.illegal.map (.frame ∘ .ret) ++ [.frame .game] }
      | some i => some { mem := m, run := [.frame (.call i c), .frame .game] }
  | .thread => some { mem := m, run := [.frame .game], spawn := [[.frame .game]] }
  | .finish => some { mem := m }
  | .returns _ | .produces _ => none

def Memory.step (m : Memory) (s : TaskQueues Callback) : Code → Choice → Option EngineStep
  | .game, choice => gameStep m s choice
  | .ret value, _ => some { mem := m.record (.returned value) }
  | .call i c, _ => do
      let state ← m.states[i]?
      callStep m i state c
  | .invoke i op, _ => do
      let state ← m.states[i]?
      invoke m s i state op
  | .opReturn i op, .returns hr => some { mem := m, run := [.frame (.afterOp i op hr none)] }
  | .opReturn _ _, _ => none
  | .afterOp i op hr out, _ => do
      let state ← m.states[i]?
      some (afterOp m i state hr out op)
  | .announce i _, _ => do
      let state ← m.states[i]?
      match (m.blocks state.block).callback with
      | none => some { mem := m }
      | some callback =>
          some { mem := m.record (.announced i state.status)
                 run := [.submit ⟨state.queue, .completion, 0, .completion i callback, [],
                   [.completionCallback i callback]⟩] }
  | .completionCallback i callback, _ => do
      let state ← m.states[i]?
      some { mem := m.record (.routine i state.block callback), run := [.frame .game] }
  | .cleanup i, _ => do
      let state ← m.states[i]?
      if state.cleanedUp then some { mem := m }
      else
        some { mem := m.setState i { state with cleanedUp := true }
               run := [.frame (.invoke i .cleanup)] }
  | .beginReturn i hr, _ => do
      let state ← m.states[i]?
      some { mem := m.beginReturned state.block (some i) state.provider hr }
  | .processQueue, _ =>
      let r := createProcessQueueHandle s fun _ => []
      some { mem := m, admin := r.admin, run := r.run }
  | .work h b canceled, _ => do
      let helper ← m.helpers[h]?
      if canceled then
        some { mem := (m.record (.touched h)).setHelper h { helper with result := E_ABORT }
               run := [.frame (.completeBlock h b)] }
      else
        some { mem := m.record (.touched h), run := [.frame .game, .frame (.futureReturn h b)] }
  | .futureReturn h b, .produces value => do
      let helper ← m.helpers[h]?
      some { mem := ((m.record (.future h (.ok value))).record (.touched h)).setHelper h
               { helper with result := S_OK, payload := some value }
             run := [.frame (.completeBlock h b)] }
  | .futureReturn h b, .returns hr => do
      let helper ← m.helpers[h]?
      some { mem := ((m.record (.future h (.err hr))).record (.touched h)).setHelper h
               { helper with result := hr }
             run := [.frame (.completeBlock h b)] }
  | .futureReturn _ _, _ => none
  | .completeBlock h b, _ => do
      let helper ← m.helpers[h]?
      let completes := (m.record (.touched h)).record (.workerCompletes h (m.stateOf b))
      match m.stateOf b with
      | none => some { mem := completes }
      | some i =>
          some { mem := completes
                 run := [.frame (.call i (.complete helper.result helper.size))] }

/-- The code of a callback. -/
def Callback.code : Callback → Bool → List Code
  | .game _, _ => [.game]
  | .work i, true => [.call i (.complete E_ABORT 0)]
  | .work i, false => [.invoke i .doWork]
  | .completion i callback, _ => [.completionCallback i callback]
  | .runSyncWorker h b, canceled => [.work h b canceled]

/-- The engine under a game whose own code may do anything. -/
@[reducible] def Engine : Client Callback where
  Mem := Memory
  Frame := Code
  Choice := Choice
  body := Callback.code
  monitor _ _ _ := [.game]
  step := Memory.step

/-- A process with `n` threads of the game, before any call. -/
def Engine.start (pool n : ℕ) : Config (World Engine) (Frame Callback Code) where
  shared := { pool := pool, mem := ({} : Memory) }
  threads := [.clock] :: List.replicate n [.client .game]

theorem Engine.initial (pool n : ℕ) : Initial Engine (Engine.start pool n) := by
  refine ⟨⟨pool, 0, rfl⟩, ?_⟩
  intro f hf
  obtain ⟨k, hk, hfk⟩ := List.mem_flatten.mp (Multiset.mem_coe.mp hf)
  rcases List.mem_cons.mp hk with rfl | hk
  · exact .inl (List.mem_singleton.mp hfk)
  · rw [List.eq_of_mem_replicate hk] at hfk
    exact .inr ⟨.game, List.mem_singleton.mp hfk⟩

end XGameRuntime.XAsync
