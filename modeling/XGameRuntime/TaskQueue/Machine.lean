import XGameRuntime.Concurrency.Pool
import XGameRuntime.TaskQueue.Queue

/-! # The threads of the task queue

What the functions of `src/com/xasync/task_queue.rs` do between two of their lock sections is a
frame; what one section does is a case of `coreStep` or `queueStep`. Code that runs above the
queue (callback bodies, monitors, whatever else the threads of the process execute) is a
`Client`: it may call any operation at any time, so what holds for every client holds for
arbitrary callbacks.
-/

namespace XGameRuntime.TaskQueue
open Concurrency
set_option autoImplicit false

/-! ## Calls and frames -/

/-- The arguments of `Queue::submit`, with what its caller goes on to run for either result. -/
structure Submission (κ γ : Type) where
  queue : ℕ
  kind : PortKind
  delay : ℕ
  callback : κ
  onAccepted : List γ := []
  onRefused : List γ := []

/-- The arguments of `Port::dispatch`, with what its caller goes on to run for either result. -/
structure Dispatch (γ : Type) where
  port : ℕ
  timeout : ℕ
  onTrue : List γ := []
  onFalse : List γ := []

/-- The arguments of `Queue::terminate`, with what its caller runs once it returns. -/
structure Termination (γ : Type) where
  queue : ℕ
  wait : Bool := true
  after : List γ := []

inductive Frame (κ γ : Type) where
  /-- Code above the queue. -/
  | client (g : γ)
  /-- The clock, which advances whenever it is scheduled. -/
  | clock
  -- `Queue::submit` and `Port::submit`
  | notify (a : Submission κ γ)
  | notifying (a : Submission κ γ) (handle : ℕ) (monitors : List Monitor)
  | submitContext (a : Submission κ γ) (owner : ℕ)
  | submitDue (a : Submission κ γ) (owner : ℕ) (ownerTerminated : Bool)
  | submitPort (a : Submission κ γ) (task : Task κ) (ownerTerminated : Bool)
  -- a callback about to be invoked, and its invocation
  | invoke (task : Task κ) (canceled : Bool)
  | running (task : Task κ) (canceled : Bool)
  | finishOne (p : ℕ)
  | worker (p : ℕ)
  /-- The thread of a delayed callback on an immediate port. -/
  | delayed (p : ℕ) (task : Task κ)
  -- `Port::dispatch`
  | dispatch (d : Dispatch γ)
  | dispatchWait (d : Dispatch γ) (deadline : ℕ)
  | drainReady (d : Dispatch γ)
  | dispatchBatch (d : Dispatch γ) (batch : List (Task κ)) (total : ℕ)
  -- `Queue::terminate`, `PortContext::terminate` and `Port::terminate_context`
  | terminateQueue (a : Termination γ)
  | terminate (owners : List ℕ) (a : Termination γ)
  | terminateContext (owner : ℕ) (owners : List ℕ) (a : Termination γ)
  | cancel (owner : ℕ) (pending : List (Task κ)) (drainRest : Bool) (owners : List ℕ)
      (a : Termination γ)
  | awaitDrained (owner : ℕ) (owners : List ℕ) (a : Termination γ)
  | terminateReturn (a : Termination γ)

/-! ## The lock sections -/

section Core
variable {κ γ : Type}

/-- The section of `Port::submit` under the port lock, and what follows it. -/
def submitSection (s : Core κ) (a : Submission κ γ) (task : Task κ) (ownerTerminated : Bool)
    (p : ℕ) (port : Port κ) : Outcome (Core κ) (Frame κ γ) :=
  if port.state.terminated || ownerTerminated then
    ⟨{ s with refused := task :: s.refused }, a.onRefused.map .client, []⟩
  else
    let accepted := { s with accepted := task :: s.accepted }
    match port.mode, task.due with
    | .immediate, none =>
        ⟨accepted.setState p port port.state.startInline,
          .invoke task false :: .finishOne p :: a.onAccepted.map .client, []⟩
    | .immediate, some _ => ⟨accepted, a.onAccepted.map .client, [[.delayed p task]]⟩
    | mode, _ =>
        let (state, workers) := (port.state.insert task).startWorkers mode s.pool
        ⟨accepted.setState p port state, a.onAccepted.map .client,
          List.replicate workers [.worker p]⟩

/-- The steps that touch the core alone; `body` is the code of a callback. -/
def coreStep (body : κ → Bool → List γ) (s : Core κ) :
    Frame κ γ → Option (Outcome (Core κ) (Frame κ γ))
  | .clock => some ⟨{ s with now := s.now + 1 }, [.clock], []⟩
  | .submitContext a owner => do
      let context ← s.contexts[owner]?
      some ⟨s, [.submitDue a owner context.terminated], []⟩
  | .submitDue a owner ownerTerminated =>
      let due := if a.delay = 0 then none else some (s.now + a.delay)
      some ⟨{ s with nextTask := s.nextTask + 1 },
        [.submitPort a ⟨a.callback, owner, due, s.nextTask⟩ ownerTerminated], []⟩
  | .submitPort a task ownerTerminated => do
      let context ← s.contexts[task.owner]?
      let port ← s.ports[context.port]?
      some (submitSection s a task ownerTerminated context.port port)
  | .invoke task canceled =>
      some ⟨{ s with started := (task, canceled) :: s.started },
        (body task.callback canceled).map .client ++ [.running task canceled], []⟩
  | .running task _ => some ⟨{ s with finished := task :: s.finished }, [], []⟩
  | .finishOne p => do
      let port ← s.ports[p]?
      some ⟨s.setState p port port.state.finishOne, [], []⟩
  | .worker p => do
      let port ← s.ports[p]?
      match port.state.waitForTask s.now with
      | .terminated => some ⟨s, [], []⟩
      | .ready task state =>
          some ⟨s.setState p port state, [.invoke task false, .finishOne p, .worker p], []⟩
      | .notYet => none
  | .delayed p task => do
      let port ← s.ports[p]?
      if task.readyAt s.now then some ⟨s, [.invoke task port.state.terminated], []⟩ else none
  | .dispatch d => some ⟨s, [.dispatchWait d (s.now + d.timeout)], []⟩
  | .dispatchWait d deadline => do
      let port ← s.ports[d.port]?
      match port.state.waitForTask s.now with
      | .terminated => some ⟨s, d.onFalse.map .client, []⟩
      | .ready task state =>
          some ⟨s.setState d.port port state, [.invoke task false, .drainReady d], []⟩
      | .notYet => if deadline ≤ s.now then some ⟨s, d.onFalse.map .client, []⟩ else none
  | .drainReady d => do
      let port ← s.ports[d.port]?
      let (state, batch) := port.state.drainReady s.now
      some ⟨s.setState d.port port state, [.dispatchBatch d batch (1 + batch.length)], []⟩
  | .dispatchBatch d (task :: rest) total =>
      some ⟨s, [.invoke task false, .dispatchBatch d rest total], []⟩
  | .dispatchBatch d [] total => do
      let port ← s.ports[d.port]?
      some ⟨s.setState d.port port (port.state.finishN total), d.onTrue.map .client, []⟩
  | .terminate (owner :: owners) a => do
      let context ← s.contexts[owner]?
      some ⟨s.setContext owner { context with terminated := true },
        [.terminateContext owner owners a], []⟩
  | .terminateContext owner owners a => do
      let context ← s.contexts[owner]?
      let port ← s.ports[context.port]?
      let (state, pending, drainRest) := port.state.terminateContext owner
      some ⟨(s.setState context.port port state).setContext owner { context with closed := true },
        [.cancel owner pending drainRest owners a], []⟩
  | .cancel owner (task :: rest) drainRest owners a =>
      some ⟨s, [.invoke task true, .cancel owner rest drainRest owners a], []⟩
  | .cancel owner [] true owners a => do
      let context ← s.contexts[owner]?
      let port ← s.ports[context.port]?
      let (state, rest) := port.state.drainRest
      some ⟨s.setPort context.port { port with state := state, drained := true },
        [.cancel owner rest false owners a], []⟩
  | .cancel owner [] false owners a =>
      if a.wait then some ⟨s, [.awaitDrained owner owners a], []⟩
      else some ⟨s, [.terminate owners a], []⟩
  | .awaitDrained owner owners a => do
      let context ← s.contexts[owner]?
      let port ← s.ports[context.port]?
      if port.state.inFlight = 0 then
        some ⟨s.setContext owner { context with settled := true }, [.terminate owners a], []⟩
      else none
  | _ => none

end Core

/-! ## Clients and the whole machine -/

/-- What client code asks for: to go on running its own code, or to call into a queue. -/
inductive Instr (κ γ : Type) where
  | frame (g : γ)
  | submit (a : Submission κ γ)
  | dispatch (d : Dispatch γ)
  | terminate (a : Termination γ)

def Instr.toFrame {κ γ : Type} : Instr κ γ → Frame κ γ
  | .frame g => .client g
  | .submit a => .notify a
  | .dispatch d => .dispatch d
  | .terminate a => .terminateQueue a

/-- One step of client code: its memory, the queue operations it ran in one go, and what runs
next on this thread and on new ones. -/
structure ClientStep (κ μ γ : Type) where
  mem : μ
  admin : List Admin := []
  run : List (Instr κ γ) := []
  spawn : List (List (Instr κ γ)) := []

structure Client (κ : Type) where
  Mem : Type
  Frame : Type
  Choice : Type
  /-- The code of a callback, invoked with `canceled`. -/
  body : κ → Bool → List Frame
  /-- The code of a monitor, given its context, the queue handle and the port. -/
  monitor : ℕ → ℕ → PortKind → List Frame
  step : Mem → TaskQueues κ → Frame → Choice → Option (ClientStep κ Mem Frame)

structure World {κ : Type} (C : Client κ) extends TaskQueues κ where
  mem : C.Mem

variable {κ : Type} (C : Client κ)

/-- `notify_monitors`, the call of `Queue::terminate` and its return. -/
def registryStep (s : TaskQueues κ) :
    Frame κ C.Frame → Option (Outcome (TaskQueues κ) (Frame κ C.Frame))
  | .notify a => do
      let q ← s.queues[a.queue]?
      if q.monitorsLocked then none
      else if q.monitors.isEmpty then
        some ⟨s, [.submitContext a (q.context a.kind)], []⟩
      else
        match q.canonicalHandle with
        | some handle =>
            some ⟨s.setQueue a.queue { q with monitorsLocked := true },
              [.notifying a handle q.monitors], []⟩
        | none =>
            let handle := s.queueHandles.next
            some ⟨(s.createQueueHandle a.queue).setQueue a.queue
              { q with monitorsLocked := true, canonicalHandle := some handle },
              [.notifying a handle q.monitors], []⟩
  | .notifying a handle (monitor :: rest) =>
      some ⟨s, (C.monitor monitor.context handle a.kind).map .client ++
        [.notifying a handle rest], []⟩
  | .notifying a _ [] => do
      let q ← s.queues[a.queue]?
      some ⟨s.setQueue a.queue { q with monitorsLocked := false },
        [.submitContext a (q.context a.kind)], []⟩
  | .terminateQueue a => do
      let q ← s.queues[a.queue]?
      some ⟨s, [.terminate [q.work, q.completion] a], []⟩
  | .terminate [] a => some ⟨s, a.after.map .client ++ [.terminateReturn a], []⟩
  | .terminateReturn a =>
      some ⟨{ s with returned := if a.wait then a.queue :: s.returned else s.returned }, [], []⟩
  | _ => none

def queueStep (s : TaskQueues κ) (f : Frame κ C.Frame) :
    Option (Outcome (TaskQueues κ) (Frame κ C.Frame)) :=
  match registryStep C s f with
  | some o => some o
  | none => (coreStep C.body s.toCore f).map fun o =>
      ⟨{ s with toCore := o.shared }, o.push, o.spawn⟩

/-- The machine of a client: its own code makes choices, the code of the queue makes none. -/
def machine : Machine (World C) (Frame κ C.Frame) (Option C.Choice) where
  step s f x :=
    match f, x with
    | .client g, some choice => do
        let r ← C.step s.mem s.toTaskQueues g choice
        let queues ← Admin.applyAll s.toTaskQueues r.admin
        some ⟨⟨queues, r.mem⟩, r.run.map Instr.toFrame, r.spawn.map (·.map Instr.toFrame)⟩
    | .client _, none => none
    | f, _ => do
        let o ← queueStep C s.toTaskQueues f
        some ⟨⟨o.shared, s.mem⟩, o.push, o.spawn⟩

/-- A process before it has touched the task queue: nothing exists but the clock and threads
that run client code. -/
structure Initial (c : Config (World C) (Frame κ C.Frame)) : Prop where
  queues : ∃ pool now, c.shared.toTaskQueues = { now := now, pool := pool }
  threads : ∀ f ∈ c.frames, f = .clock ∨ ∃ g, f = .client g

/-! ## What a step can do -/

section Inversion
variable {C}

/-- The steps of `coreStep`, one constructor for each way a lock section can go. -/
inductive CoreStep {γ : Type} (body : κ → Bool → List γ) (s : Core κ) :
    Frame κ γ → Outcome (Core κ) (Frame κ γ) → Prop where
  | clock : CoreStep body s .clock ⟨{ s with now := s.now + 1 }, [.clock], []⟩
  | submitContext {a : Submission κ γ} {owner : ℕ} {context : PortContext}
      (hc : s.contexts[owner]? = some context) :
      CoreStep body s (.submitContext a owner) ⟨s, [.submitDue a owner context.terminated], []⟩
  | submitDue {a : Submission κ γ} {owner : ℕ} {ownerTerminated : Bool} {due : Option ℕ}
      (hd : due = if a.delay = 0 then none else some (s.now + a.delay)) :
      CoreStep body s (.submitDue a owner ownerTerminated) ⟨{ s with nextTask := s.nextTask + 1 },
        [.submitPort a ⟨a.callback, owner, due, s.nextTask⟩ ownerTerminated], []⟩
  | refuse {a : Submission κ γ} {task : Task κ} {ownerTerminated : Bool} {context : PortContext}
      {port : Port κ} (hc : s.contexts[task.owner]? = some context)
      (hp : s.ports[context.port]? = some port)
      (ht : port.state.terminated = true ∨ ownerTerminated = true) :
      CoreStep body s (.submitPort a task ownerTerminated)
        ⟨{ s with refused := task :: s.refused }, a.onRefused.map .client, []⟩
  | acceptInline {a : Submission κ γ} {task : Task κ} {context : PortContext} {port : Port κ}
      (hc : s.contexts[task.owner]? = some context) (hp : s.ports[context.port]? = some port)
      (ht : port.state.terminated = false) (hm : port.mode = .immediate) (hd : task.due = none) :
      CoreStep body s (.submitPort a task false)
        ⟨{ s with accepted := task :: s.accepted }.setState context.port port
            port.state.startInline,
          .invoke task false :: .finishOne context.port :: a.onAccepted.map .client, []⟩
  | acceptDelayed {a : Submission κ γ} {task : Task κ} {context : PortContext} {port : Port κ}
      (hc : s.contexts[task.owner]? = some context) (hp : s.ports[context.port]? = some port)
      (ht : port.state.terminated = false) (hm : port.mode = .immediate)
      (hd : task.due.isSome = true) :
      CoreStep body s (.submitPort a task false) ⟨{ s with accepted := task :: s.accepted },
        a.onAccepted.map .client, [[.delayed context.port task]]⟩
  | acceptQueued {a : Submission κ γ} {task : Task κ} {context : PortContext} {port : Port κ}
      (hc : s.contexts[task.owner]? = some context) (hp : s.ports[context.port]? = some port)
      (ht : port.state.terminated = false) (hm : port.mode ≠ .immediate) :
      CoreStep body s (.submitPort a task false)
        ⟨{ s with accepted := task :: s.accepted }.setState context.port port
            ((port.state.insert task).startWorkers port.mode s.pool).1,
          a.onAccepted.map .client,
          List.replicate ((port.state.insert task).startWorkers port.mode s.pool).2
            [.worker context.port]⟩
  | invoke {task : Task κ} {canceled : Bool} :
      CoreStep body s (.invoke task canceled)
        ⟨{ s with started := (task, canceled) :: s.started },
          (body task.callback canceled).map .client ++ [.running task canceled], []⟩
  | running {task : Task κ} {canceled : Bool} :
      CoreStep body s (.running task canceled) ⟨{ s with finished := task :: s.finished }, [], []⟩
  | finishOne {p : ℕ} {port : Port κ} (hp : s.ports[p]? = some port) :
      CoreStep body s (.finishOne p) ⟨s.setState p port port.state.finishOne, [], []⟩
  | workerExit {p : ℕ} {port : Port κ} (hp : s.ports[p]? = some port)
      (ht : port.state.terminated = true) : CoreStep body s (.worker p) ⟨s, [], []⟩
  | workerTake {p : ℕ} {port : Port κ} {task : Task κ} {rest : List (Task κ)}
      (hp : s.ports[p]? = some port) (ht : port.state.terminated = false)
      (hl : port.state.tasks = task :: rest) :
      CoreStep body s (.worker p)
        ⟨s.setState p port { port.state with tasks := rest, inFlight := port.state.inFlight + 1 },
          [.invoke task false, .finishOne p, .worker p], []⟩
  | delayed {p : ℕ} {task : Task κ} {port : Port κ} (hp : s.ports[p]? = some port) :
      CoreStep body s (.delayed p task) ⟨s, [.invoke task port.state.terminated], []⟩
  | dispatch {d : Dispatch γ} :
      CoreStep body s (.dispatch d) ⟨s, [.dispatchWait d (s.now + d.timeout)], []⟩
  | dispatchExit {d : Dispatch γ} {deadline : ℕ} :
      CoreStep body s (.dispatchWait d deadline) ⟨s, d.onFalse.map .client, []⟩
  | dispatchTake {d : Dispatch γ} {deadline : ℕ} {port : Port κ} {task : Task κ}
      {rest : List (Task κ)} (hp : s.ports[d.port]? = some port)
      (ht : port.state.terminated = false) (hl : port.state.tasks = task :: rest) :
      CoreStep body s (.dispatchWait d deadline)
        ⟨s.setState d.port port
            { port.state with tasks := rest, inFlight := port.state.inFlight + 1 },
          [.invoke task false, .drainReady d], []⟩
  | drainReady {d : Dispatch γ} {port : Port κ} (hp : s.ports[d.port]? = some port) :
      CoreStep body s (.drainReady d)
        ⟨s.setState d.port port (port.state.drainReady s.now).1,
          [.dispatchBatch d (port.state.drainReady s.now).2
            (1 + (port.state.drainReady s.now).2.length)], []⟩
  | batchNext {d : Dispatch γ} {task : Task κ} {rest : List (Task κ)} {total : ℕ} :
      CoreStep body s (.dispatchBatch d (task :: rest) total)
        ⟨s, [.invoke task false, .dispatchBatch d rest total], []⟩
  | batchEnd {d : Dispatch γ} {total : ℕ} {port : Port κ} (hp : s.ports[d.port]? = some port) :
      CoreStep body s (.dispatchBatch d [] total)
        ⟨s.setState d.port port (port.state.finishN total), d.onTrue.map .client, []⟩
  | terminate {owner : ℕ} {owners : List ℕ} {a : Termination γ} {context : PortContext}
      (hc : s.contexts[owner]? = some context) :
      CoreStep body s (.terminate (owner :: owners) a)
        ⟨s.setContext owner { context with terminated := true },
          [.terminateContext owner owners a], []⟩
  | terminateContext {owner : ℕ} {owners : List ℕ} {a : Termination γ} {context : PortContext}
      {port : Port κ} (hc : s.contexts[owner]? = some context)
      (hp : s.ports[context.port]? = some port) :
      CoreStep body s (.terminateContext owner owners a)
        ⟨(s.setState context.port port (port.state.terminateContext owner).1).setContext owner
            { context with closed := true },
          [.cancel owner (port.state.terminateContext owner).2.1
            (port.state.terminateContext owner).2.2 owners a], []⟩
  | cancelNext {owner : ℕ} {task : Task κ} {rest : List (Task κ)} {drainRest : Bool}
      {owners : List ℕ} {a : Termination γ} :
      CoreStep body s (.cancel owner (task :: rest) drainRest owners a)
        ⟨s, [.invoke task true, .cancel owner rest drainRest owners a], []⟩
  | cancelDrain {owner : ℕ} {owners : List ℕ} {a : Termination γ} {context : PortContext}
      {port : Port κ} (hc : s.contexts[owner]? = some context)
      (hp : s.ports[context.port]? = some port) :
      CoreStep body s (.cancel owner [] true owners a)
        ⟨s.setPort context.port { port with state := port.state.drainRest.1, drained := true },
          [.cancel owner port.state.drainRest.2 false owners a], []⟩
  | cancelWait {owner : ℕ} {owners : List ℕ} {a : Termination γ} (hw : a.wait = true) :
      CoreStep body s (.cancel owner [] false owners a) ⟨s, [.awaitDrained owner owners a], []⟩
  | cancelReturn {owner : ℕ} {owners : List ℕ} {a : Termination γ} (hw : a.wait = false) :
      CoreStep body s (.cancel owner [] false owners a) ⟨s, [.terminate owners a], []⟩
  | awaitDrained {owner : ℕ} {owners : List ℕ} {a : Termination γ} {context : PortContext}
      {port : Port κ} (hc : s.contexts[owner]? = some context)
      (hp : s.ports[context.port]? = some port) (hf : port.state.inFlight = 0) :
      CoreStep body s (.awaitDrained owner owners a)
        ⟨s.setContext owner { context with settled := true }, [.terminate owners a], []⟩

theorem submitSection_inv {γ : Type} {body : κ → Bool → List γ} {s : Core κ} {a : Submission κ γ}
    {task : Task κ} {ownerTerminated : Bool} {context : PortContext} {port : Port κ}
    (hc : s.contexts[task.owner]? = some context) (hp : s.ports[context.port]? = some port) :
    CoreStep body s (.submitPort a task ownerTerminated)
      (submitSection s a task ownerTerminated context.port port) := by
  unfold submitSection
  split
  · rename_i h
    exact .refuse hc hp (by simpa using h)
  · rename_i h
    simp only [Bool.or_eq_true, not_or, Bool.not_eq_true] at h
    obtain ⟨ht, rfl⟩ := h
    split
    · rename_i hm hd
      exact .acceptInline hc hp ht hm hd
    · rename_i due hm hd
      exact .acceptDelayed hc hp ht hm (by rw [hd]; rfl)
    · rename_i hn hs
      refine .acceptQueued hc hp ht ?_
      intro hm
      cases hd : task.due with
      | none => exact hn hm hd
      | some due => exact hs due hm hd

theorem waitForTask_terminated {s : PortState κ} {now : ℕ}
    (h : s.waitForTask now = .terminated) : s.terminated = true := by
  unfold PortState.waitForTask at h
  split at h
  · assumption
  · split at h
    · simp at h
    · split at h <;> simp at h

theorem coreStep_inv {γ : Type} {body : κ → Bool → List γ} {s : Core κ} {f : Frame κ γ}
    {o : Outcome (Core κ) (Frame κ γ)} (h : coreStep body s f = some o) :
    CoreStep body s f o := by
  unfold coreStep at h
  split at h <;>
    try simp only [Option.bind_eq_bind, Option.bind_eq_some_iff, Option.some.injEq,
      reduceCtorEq] at h
  · exact h ▸ .clock
  · obtain ⟨context, hc, rfl⟩ := h
    exact .submitContext hc
  · exact h ▸ .submitDue rfl
  · obtain ⟨context, hc, port, hp, rfl⟩ := h
    exact submitSection_inv hc hp
  · exact h ▸ .invoke
  · exact h ▸ .running
  · obtain ⟨port, hp, rfl⟩ := h
    exact .finishOne hp
  · obtain ⟨port, hp, h⟩ := h
    split at h
    · rename_i hw
      cases h
      exact .workerExit hp (waitForTask_terminated hw)
    · rename_i hw
      cases h
      obtain ⟨ht, -, rest, hl, rfl⟩ := PortState.waitForTask_ready hw
      exact .workerTake hp ht hl
    · simp at h
  · obtain ⟨port, hp, h⟩ := h
    split at h
    · cases h
      exact .delayed hp
    · simp at h
  · exact h ▸ .dispatch
  · obtain ⟨port, hp, h⟩ := h
    split at h
    · cases h
      exact .dispatchExit
    · rename_i hw
      cases h
      obtain ⟨ht, -, rest, hl, rfl⟩ := PortState.waitForTask_ready hw
      exact .dispatchTake hp ht hl
    · split at h
      · cases h
        exact .dispatchExit
      · simp at h
  · obtain ⟨port, hp, rfl⟩ := h
    exact .drainReady hp
  · exact h ▸ .batchNext
  · obtain ⟨port, hp, rfl⟩ := h
    exact .batchEnd hp
  · obtain ⟨context, hc, rfl⟩ := h
    exact .terminate hc
  · obtain ⟨context, hc, port, hp, rfl⟩ := h
    exact .terminateContext hc hp
  · exact h ▸ .cancelNext
  · obtain ⟨context, hc, port, hp, rfl⟩ := h
    exact .cancelDrain hc hp
  · split at h <;> rename_i hw
    · cases h
      exact .cancelWait hw
    · cases h
      exact .cancelReturn (by simpa using hw)
  · obtain ⟨context, hc, port, hp, h⟩ := h
    split at h
    · rename_i hf
      cases h
      exact .awaitDrained hc hp hf
    · simp at h

/-- The frames of code that is not inside a lock section of the core and holds no callback. -/
def Frame.isOuter {γ : Type} : Frame κ γ → Bool
  | .client _ | .clock | .notify _ | .notifying .. | .submitContext .. | .dispatch _ | .terminateQueue _
  | .terminate .. | .terminateReturn _ => true
  | _ => false

/-- The steps of `registryStep`. -/
inductive RegistryStep (C : Client κ) (s : TaskQueues κ) :
    Frame κ C.Frame → Outcome (TaskQueues κ) (Frame κ C.Frame) → Prop where
  | notifyNone {a : Submission κ C.Frame} {q : Queue} (hq : s.queues[a.queue]? = some q) :
      RegistryStep C s (.notify a) ⟨s, [.submitContext a (q.context a.kind)], []⟩
  | notify {a : Submission κ C.Frame} {q : Queue} {handle : ℕ} {t : TaskQueues κ}
      (hq : s.queues[a.queue]? = some q) (ht : s.Extends t) :
      RegistryStep C s (.notify a) ⟨t, [.notifying a handle q.monitors], []⟩
  | notifyNext {a : Submission κ C.Frame} {handle : ℕ} {monitor : Monitor} {rest : List Monitor} :
      RegistryStep C s (.notifying a handle (monitor :: rest))
        ⟨s, (C.monitor monitor.context handle a.kind).map .client ++ [.notifying a handle rest], []⟩
  | notifyEnd {a : Submission κ C.Frame} {handle : ℕ} {q : Queue}
      (hq : s.queues[a.queue]? = some q) :
      RegistryStep C s (.notifying a handle [])
        ⟨s.setQueue a.queue { q with monitorsLocked := false },
          [.submitContext a (q.context a.kind)], []⟩
  | terminateQueue {a : Termination C.Frame} {q : Queue} (hq : s.queues[a.queue]? = some q) :
      RegistryStep C s (.terminateQueue a) ⟨s, [.terminate [q.work, q.completion] a], []⟩
  | terminated {a : Termination C.Frame} :
      RegistryStep C s (.terminate [] a) ⟨s, a.after.map .client ++ [.terminateReturn a], []⟩
  | terminateReturn {a : Termination C.Frame} :
      RegistryStep C s (.terminateReturn a)
        ⟨{ s with returned := if a.wait then a.queue :: s.returned else s.returned }, [], []⟩

theorem registryStep_inv {s : TaskQueues κ} {f : Frame κ C.Frame}
    {o : Outcome (TaskQueues κ) (Frame κ C.Frame)} (h : registryStep C s f = some o) :
    RegistryStep C s f o := by
  unfold registryStep at h
  split at h <;>
    simp only [Option.bind_eq_bind, Option.bind_eq_some_iff, Option.some.injEq,
      reduceCtorEq] at h
  · obtain ⟨q, hq, h⟩ := h
    split at h
    · simp at h
    · split at h
      · cases h
        exact .notifyNone hq
      · split at h
        · cases h
          exact .notify hq (setQueue_extends hq rfl rfl)
        · cases h
          exact .notify hq (TaskQueues.Extends.trans (t := s.createQueueHandle _) .rfl
            (setQueue_extends hq rfl rfl))
  · exact h ▸ .notifyNext
  · obtain ⟨q, hq, rfl⟩ := h
    exact .notifyEnd hq
  · obtain ⟨q, hq, rfl⟩ := h
    exact .terminateQueue hq
  · exact h ▸ .terminated
  · exact h ▸ .terminateReturn

/-- A step runs client code, or a section of the registry, or a section of the core. -/
inductive Step (C : Client κ) (s : World C) :
    Frame κ C.Frame → Outcome (World C) (Frame κ C.Frame) → Prop where
  | client {g : C.Frame} {choice : C.Choice} {r : ClientStep κ C.Mem C.Frame} {t : TaskQueues κ}
      (hr : C.step s.mem s.toTaskQueues g choice = some r)
      (ht : Admin.applyAll s.toTaskQueues r.admin = some t) :
      Step C s (.client g)
        ⟨⟨t, r.mem⟩, r.run.map Instr.toFrame, r.spawn.map (·.map Instr.toFrame)⟩
  | registry {f : Frame κ C.Frame} {o : Outcome (TaskQueues κ) (Frame κ C.Frame)}
      (h : RegistryStep C s.toTaskQueues f o) : Step C s f ⟨⟨o.shared, s.mem⟩, o.push, o.spawn⟩
  | core {f : Frame κ C.Frame} {o : Outcome (Core κ) (Frame κ C.Frame)}
      (h : CoreStep C.body s.toCore f o) :
      Step C s f ⟨⟨{ s.toTaskQueues with toCore := o.shared }, s.mem⟩, o.push, o.spawn⟩

theorem step_inv {s : World C} {f : Frame κ C.Frame} {x : Option C.Choice}
    {o : Outcome (World C) (Frame κ C.Frame)} (h : (machine C).step s f x = some o) :
    Step C s f o := by
  simp only [machine] at h
  split at h
  · rename_i g choice
    simp only [Option.bind_eq_bind, Option.bind_eq_some_iff, Option.some.injEq] at h
    obtain ⟨r, hr, t, ht, rfl⟩ := h
    exact .client hr ht
  · simp at h
  · simp only [Option.bind_eq_bind, Option.bind_eq_some_iff, Option.some.injEq] at h
    obtain ⟨q, hq, rfl⟩ := h
    unfold queueStep at hq
    split at hq
    · rename_i hreg
      cases hq
      exact .registry (registryStep_inv hreg)
    · obtain ⟨b, hb, rfl⟩ := Option.map_eq_some_iff.mp hq
      exact .core (coreStep_inv hb)

theorem step_queue {s : World C} {f : Frame κ C.Frame} {x : Option C.Choice}
    {o : Outcome (World C) (Frame κ C.Frame)} (hf : ∀ g, f ≠ .client g) :
    (machine C).step s f x = some o ↔ ∃ q, queueStep C s.toTaskQueues f = some q ∧
      o = ⟨⟨q.shared, s.mem⟩, q.push, q.spawn⟩ := by
  cases f with
  | client g => exact absurd rfl (hf g)
  | _ =>
    simp only [machine, Option.bind_eq_bind, Option.bind_eq_some_iff, Option.some.injEq]
    exact exists_congr fun q => and_congr_right fun _ => eq_comm

theorem toFrame_isOuter {γ : Type} (i : Instr κ γ) : i.toFrame.isOuter = true := by
  cases i <;> rfl

theorem Initial.outer {c : Config (World C) (Frame κ C.Frame)} (h0 : Initial C c) :
    ∀ f ∈ c.frames, f.isOuter = true := by
  intro f hf
  rcases h0.threads f hf with rfl | ⟨g, rfl⟩ <;> rfl

theorem registryStep_outer {s : TaskQueues κ} {f : Frame κ C.Frame}
    {o : Outcome (TaskQueues κ) (Frame κ C.Frame)} (h : RegistryStep C s f o) :
    s.toCore.Grows o.shared.toCore ∧ f.isOuter = true ∧ (∀ g ∈ o.push, g.isOuter = true) ∧
      o.spawn = [] := by
  cases h with
  | notify hq ht => exact ⟨ht.1, rfl, by simp [Frame.isOuter], rfl⟩
  | notifyNext | terminated =>
    refine ⟨.refl _, rfl, ?_, rfl⟩
    simp only [List.forall_mem_append, List.forall_mem_map]
    simp [Frame.isOuter]
  | _ => exact ⟨.refl _, rfl, by simp [Frame.isOuter], rfl⟩

/-- Outside the core only ports and contexts are created, and no frame that matters to it
comes or goes. -/
theorem Step.split {s : World C} {f : Frame κ C.Frame}
    {o : Outcome (World C) (Frame κ C.Frame)} (h : Step C s f o) :
    (s.toCore.Grows o.shared.toCore ∧ f.isOuter = true ∧ (∀ g ∈ o.push, g.isOuter = true) ∧
        ∀ k ∈ o.spawn, ∀ g ∈ k, g.isOuter = true) ∨
      ∃ o' : Outcome (Core κ) (Frame κ C.Frame), CoreStep C.body s.toCore f o' ∧
        o.shared.toCore = o'.shared ∧ o.push = o'.push ∧ o.spawn = o'.spawn := by
  cases h with
  | client hr ht =>
    left
    refine ⟨(applyAll_extends ht).1, rfl, ?_, ?_⟩
    · exact List.forall_mem_map.mpr fun i _ => toFrame_isOuter i
    · exact List.forall_mem_map.mpr fun is _ =>
        List.forall_mem_map.mpr fun i _ => toFrame_isOuter i
  | registry h =>
    left
    obtain ⟨hg, hf, ho, hs⟩ := registryStep_outer h
    exact ⟨hg, hf, ho, by simp [hs]⟩
  | core h => exact .inr ⟨_, h, rfl, rfl, rfl⟩

/-- `Step.split` on the multiset of frames. -/
theorem Step.outer_or_core {s : World C} {f : Frame κ C.Frame}
    {o : Outcome (World C) (Frame κ C.Frame)} (h : Step C s f o) :
    (s.toCore.Grows o.shared.toCore ∧ f.isOuter = true ∧ ∀ g ∈ o.frames, g.isOuter = true) ∨
      ∃ o' : Outcome (Core κ) (Frame κ C.Frame), CoreStep C.body s.toCore f o' ∧
        o.shared.toCore = o'.shared ∧ o.frames = o'.frames := by
  rcases h.split with ⟨hg, hf, hp, hs⟩ | ⟨o', ho, h1, h2, h3⟩
  · exact .inl ⟨hg, hf, forall_frames.mpr ⟨hp, hs⟩⟩
  · exact .inr ⟨o', ho, h1, by rw [Outcome.frames, Outcome.frames, h2, h3]⟩

section Fire
variable {c c' : Config (World C) (Frame κ C.Frame)} {i : ℕ} {x : Option C.Choice}
  {k : List (Frame κ C.Frame)}

/-- A submission that finds the port terminated, or has found its owner terminated, is refused. -/
theorem fire_refuse {a : Submission κ C.Frame} {task : Task κ} {ownerTerminated : Bool}
    {context : PortContext} {port : Port κ}
    (hk : c.threads[i]? = some (.submitPort a task ownerTerminated :: k))
    (hc : c.shared.contexts[task.owner]? = some context)
    (hp : c.shared.ports[context.port]? = some port)
    (ht : port.state.terminated = true ∨ ownerTerminated = true)
    (h : (machine C).fire c i x = some c') :
    c'.threads[i]? = some (a.onRefused.map .client ++ k) := by
  obtain ⟨o, hs, -, hthread⟩ := fire_thread hk h
  rw [hthread]
  cases step_inv hs with
  | registry hreg => cases hreg
  | core hcore =>
    cases hcore with
    | refuse => rfl
    | acceptInline hc' hp' ht' | acceptDelayed hc' hp' ht' | acceptQueued hc' hp' ht' =>
      rw [hc, Option.some.injEq] at hc'
      subst hc'
      rw [hp, Option.some.injEq] at hp'
      subst hp'
      simp [ht'] at ht

theorem fire_invoke {task : Task κ} {canceled : Bool}
    (hk : c.threads[i]? = some (.invoke task canceled :: k))
    (h : (machine C).fire c i x = some c') :
    c'.threads[i]? =
      some ((C.body task.callback canceled).map .client ++ .running task canceled :: k) := by
  obtain ⟨o, hs, -, hthread⟩ := fire_thread hk h
  rw [hthread]
  cases step_inv hs with
  | registry hreg => cases hreg
  | core hcore =>
    cases hcore
    simp

end Fire

end Inversion
end XGameRuntime.TaskQueue
