import XGameRuntime.HandleTable
import XGameRuntime.TaskQueue.Port
import XGameRuntime.Concurrency.Arena

/-! # Port contexts, queues and their handles

The rest of the state of `src/com/xasync/task_queue.rs`. `Core` is what callbacks travel
through: the ports, the contexts that queues hold on them, the clock, and the history of every
submission. `Registry` is what names them: the queues, the handle tables and the process queue.
Objects live in arenas and are named by their index.
-/

namespace XGameRuntime.TaskQueue
open Concurrency
set_option autoImplicit false

/-- A queue's handle on a port; its index is the owner id that tags the callbacks submitted
through it. The last three fields are history variables: the port was already terminated when
the context was made, `terminate_context` has pulled its callbacks out, and a terminator that
did so has since found nothing in flight. -/
structure PortContext where
  port : ℕ
  terminated : Bool := false
  bornDead : Bool := false
  closed : Bool := false
  settled : Bool := false
  deriving DecidableEq, Repr

structure Monitor where
  token : ℕ
  context : ℕ
  deriving DecidableEq, Repr

/-- `monitorsLocked` is the mutex around `monitors`, held while they are notified. -/
structure Queue where
  work : ℕ
  completion : ℕ
  monitors : List Monitor := []
  monitorsLocked : Bool := false
  nextToken : ℕ := 1
  canonicalHandle : Option ℕ := none
  deriving DecidableEq, Repr

def Queue.context (q : Queue) : PortKind → ℕ
  | .work => q.work
  | .completion => q.completion

/-- `pool` is the number of workers of a thread pool on this host. The last four fields record, for
every submission so far, whether it was refused or accepted, each invocation with its `canceled`
argument, and which invocations have returned. -/
structure Core (κ : Type) where
  now : ℕ := 0
  pool : ℕ
  ports : List (Port κ) := []
  contexts : List PortContext := []
  nextTask : ℕ := 0
  refused : List (Task κ) := []
  accepted : List (Task κ) := []
  started : List (Task κ × Bool) := []
  finished : List (Task κ) := []

structure Registry where
  queues : List Queue := []
  queueHandles : HandleTable ℕ := {}
  portHandles : HandleTable ℕ := {}
  processQueue : Option ℕ := none
  processQueueHandle : Option ℕ := none
  returned : List ℕ := []

structure TaskQueues (κ : Type) extends Core κ, Registry

variable {κ : Type}

namespace Core

def setPort (s : Core κ) (p : ℕ) (port : Port κ) : Core κ :=
  { s with ports := s.ports.set p port }

def setState (s : Core κ) (p : ℕ) (port : Port κ) (state : PortState κ) : Core κ :=
  s.setPort p { port with state := state }

def setContext (s : Core κ) (o : ℕ) (context : PortContext) : Core κ :=
  { s with contexts := s.contexts.set o context }

/-- `Port::new`. -/
def newPort (s : Core κ) (mode : DispatchMode) : Core κ :=
  { s with ports := s.ports ++ [{ mode := mode }] }

/-- `PortContext::new`. -/
def newContext (s : Core κ) (p : ℕ) (port : Port κ) : Core κ :=
  { s.setState p port port.state.addContext with
    contexts := s.contexts ++ [{ port := p, bornDead := port.state.terminated }] }

/-- What the creation of queues does to the core. -/
inductive Grows : Core κ → Core κ → Prop where
  | refl (s : Core κ) : Grows s s
  | port {s t : Core κ} (mode : DispatchMode) : Grows s t → Grows s (t.newPort mode)
  | context {s t : Core κ} {p : ℕ} {port : Port κ} : Grows s t → t.ports[p]? = some port →
      Grows s (t.newContext p port)

theorem Grows.trans {s t u : Core κ} (h1 : Grows s t) (h2 : Grows t u) : Grows s u := by
  induction h2 with
  | refl => exact h1
  | port mode _ ih => exact .port mode ih
  | context _ hp ih => exact .context ih hp

end Core

namespace TaskQueues

/-- `Queue::composite`; `none` when one of the ports does not exist. -/
def composite (s : TaskQueues κ) (work completion : ℕ) : Option (TaskQueues κ) := do
  let workPort ← s.ports[work]?
  let withWork := s.toCore.newContext work workPort
  let completionPort ← withWork.ports[completion]?
  some { s with
    toCore := withWork.newContext completion completionPort
    queues := s.queues ++
      [{ work := s.contexts.length, completion := s.contexts.length + 1 }] }

/-- `Queue::new`. -/
def newQueue (s : TaskQueues κ) (work completion : DispatchMode) : Option (TaskQueues κ) :=
  { s with toCore := (s.toCore.newPort work).newPort completion }.composite
    s.ports.length (s.ports.length + 1)

def createQueueHandle (s : TaskQueues κ) (q : ℕ) : TaskQueues κ :=
  { s with queueHandles := (s.queueHandles.create q).2 }

def closeQueueHandle (s : TaskQueues κ) (handle : ℕ) : TaskQueues κ :=
  { s with queueHandles := s.queueHandles.close handle }

def createPortHandle (s : TaskQueues κ) (p : ℕ) : TaskQueues κ :=
  { s with portHandles := (s.portHandles.create p).2 }

def setQueue (s : TaskQueues κ) (i : ℕ) (q : Queue) : TaskQueues κ :=
  { s with queues := s.queues.set i q }

/-- `Queue::register_monitor`; blocked while the monitors are being notified. -/
def registerMonitor (s : TaskQueues κ) (i context : ℕ) : Option (TaskQueues κ) := do
  let q ← s.queues[i]?
  if q.monitorsLocked then none
  else some (s.setQueue i { q with
    nextToken := q.nextToken + 1
    monitors := q.monitors ++ [⟨q.nextToken, context⟩] })

/-- `Queue::unregister_monitor`. -/
def unregisterMonitor (s : TaskQueues κ) (i token : ℕ) : Option (TaskQueues κ) := do
  let q ← s.queues[i]?
  if q.monitorsLocked then none
  else some (s.setQueue i { q with
    monitors := q.monitors.filter fun monitor => decide (monitor.token ≠ token) })

/-- `default_process_queue`: the queue a block that names none uses, made on first use. -/
def defaultProcessQueue (s : TaskQueues κ) : Option (ℕ × TaskQueues κ) :=
  match s.processQueue with
  | some q => some (q, s)
  | none => do
      let t ← s.newQueue .threadPool .threadPool
      some (s.queues.length, { t with processQueue := some s.queues.length })

/-- `process_queue_handle`: the cached handle of the process queue. -/
def getProcessQueueHandle (s : TaskQueues κ) : Option (ℕ × TaskQueues κ) :=
  match s.processQueueHandle with
  | some handle => some (handle, s)
  | none => do
      let (q, t) ← s.defaultProcessQueue
      some (t.queueHandles.next,
        { t.createQueueHandle q with processQueueHandle := some t.queueHandles.next })

def setProcessQueue (s : TaskQueues κ) (queue : Option ℕ) : TaskQueues κ :=
  match queue with
  | some q => { s with processQueue := some q }
  | none => { s with processQueue := none, processQueueHandle := none }

/-- `is_process_queue`. -/
def isProcessQueue (s : TaskQueues κ) (q : ℕ) : Option (Bool × TaskQueues κ) := do
  let (process, t) ← s.defaultProcessQueue
  some (decide (q = process), t)

/-- The port behind one half of a queue. -/
def portOf (s : TaskQueues κ) (q : ℕ) (kind : PortKind) : Option ℕ := do
  let queue ← s.queues[q]?
  let context ← s.contexts[queue.context kind]?
  some context.port

/-- `queue.port(kind).mode()`. -/
def modeOf (s : TaskQueues κ) (q : ℕ) (kind : PortKind) : Option DispatchMode := do
  let p ← s.portOf q kind
  let port ← s.ports[p]?
  some port.mode

end TaskQueues

/-! ## Operations that only create or name objects -/

/-- The operations on queues that code runs in one go, without a callback in between. -/
inductive Admin where
  | newQueue (work completion : DispatchMode)
  | composite (work completion : ℕ)
  | createQueueHandle (q : ℕ)
  | closeQueueHandle (handle : ℕ)
  | createPortHandle (p : ℕ)
  | registerMonitor (q context : ℕ)
  | unregisterMonitor (q token : ℕ)
  | setProcessQueue (queue : Option ℕ)
  | defaultProcessQueue
  | processQueueHandle
  deriving DecidableEq, Repr

def Admin.apply (s : TaskQueues κ) : Admin → Option (TaskQueues κ)
  | .newQueue work completion => s.newQueue work completion
  | .composite work completion => s.composite work completion
  | .createQueueHandle q => some (s.createQueueHandle q)
  | .closeQueueHandle handle => some (s.closeQueueHandle handle)
  | .createPortHandle p => some (s.createPortHandle p)
  | .registerMonitor q context => s.registerMonitor q context
  | .unregisterMonitor q token => s.unregisterMonitor q token
  | .setProcessQueue queue => some (s.setProcessQueue queue)
  | .defaultProcessQueue => s.defaultProcessQueue.map Prod.snd
  | .processQueueHandle => s.getProcessQueueHandle.map Prod.snd

def Admin.applyAll : TaskQueues κ → List Admin → Option (TaskQueues κ)
  | s, [] => some s
  | s, a :: as => (a.apply s).bind fun t => Admin.applyAll t as

/-- Queues keep their contexts: what an operation of the registry may change about a queue. -/
def SameContexts (qs qs' : List Queue) : Prop :=
  ∀ (i : ℕ) (q : Queue), qs[i]? = some q → ∃ q' : Queue, qs'[i]? = some q' ∧
    q'.work = q.work ∧ q'.completion = q.completion

theorem SameContexts.refl (qs : List Queue) : SameContexts qs qs :=
  fun _ q h => ⟨q, h, rfl, rfl⟩

theorem SameContexts.trans {qs qs' qs'' : List Queue} (h1 : SameContexts qs qs')
    (h2 : SameContexts qs' qs'') : SameContexts qs qs'' := by
  intro i q hq
  obtain ⟨q', hq', hw, hc⟩ := h1 i q hq
  obtain ⟨q'', hq'', hw', hc'⟩ := h2 i q' hq'
  exact ⟨q'', hq'', hw'.trans hw, hc'.trans hc⟩

theorem SameContexts.set {qs : List Queue} {i : ℕ} {q r : Queue} (hq : qs[i]? = some q)
    (hw : r.work = q.work) (hc : r.completion = q.completion) : SameContexts qs (qs.set i r) := by
  intro j t ht
  have hi : i < qs.length := (List.getElem?_eq_some_iff.mp hq).1
  by_cases hij : i = j
  · subst hij
    rw [hq, Option.some.injEq] at ht
    subst ht
    exact ⟨r, by simp [hi], hw, hc⟩
  · exact ⟨t, by simpa [List.getElem?_set, hij] using ht, rfl, rfl⟩

theorem SameContexts.push (qs : List Queue) (r : Queue) : SameContexts qs (qs ++ [r]) := by
  intro i q h
  exact ⟨q, getElem?_push_of h, rfl, rfl⟩

section Growth
variable {s t : TaskQueues κ}

/-- An operation of this section only creates ports and contexts, and keeps every queue's. -/
def TaskQueues.Extends (s t : TaskQueues κ) : Prop :=
  s.toCore.Grows t.toCore ∧ SameContexts s.queues t.queues ∧ t.returned = s.returned

theorem TaskQueues.Extends.rfl : s.Extends s :=
  ⟨.refl _, .refl _, Eq.refl _⟩

theorem TaskQueues.Extends.trans {u : TaskQueues κ} (h1 : s.Extends t) (h2 : t.Extends u) :
    s.Extends u :=
  ⟨h1.1.trans h2.1, h1.2.1.trans h2.2.1, h2.2.2.trans h1.2.2⟩

theorem composite_extends {work completion : ℕ} (h : s.composite work completion = some t) :
    s.Extends t := by
  simp only [TaskQueues.composite, Option.bind_eq_bind, Option.bind_eq_some_iff] at h
  obtain ⟨wp, hw, cp, hc, h⟩ := h
  cases h
  exact ⟨.context (.context (.refl _) hw) hc, .push _ _, rfl⟩

/-- A new queue is made whatever there is already. -/
theorem newQueue_made (s : TaskQueues κ) (work completion : DispatchMode) :
    ∃ t, s.newQueue work completion = some t := by
  simp [TaskQueues.newQueue, TaskQueues.composite, Core.newPort, Core.newContext, Core.setState,
    Core.setPort]

theorem defaultProcessQueue_made (s : TaskQueues κ) :
    ∃ q t, s.defaultProcessQueue = some (q, t) := by
  unfold TaskQueues.defaultProcessQueue
  cases s.processQueue with
  | some q => exact ⟨q, s, rfl⟩
  | none =>
    obtain ⟨t, ht⟩ := newQueue_made s .threadPool .threadPool
    exact ⟨_, _, Option.bind_eq_some_iff.mpr ⟨t, ht, rfl⟩⟩

theorem newQueue_extends {work completion : DispatchMode}
    (h : s.newQueue work completion = some t) : s.Extends t := by
  obtain ⟨hg, hq, hr⟩ := composite_extends h
  exact ⟨(Core.Grows.port completion (.port work (.refl _))).trans hg, hq, hr⟩

theorem defaultProcessQueue_extends {q : ℕ} (h : s.defaultProcessQueue = some (q, t)) :
    s.Extends t := by
  unfold TaskQueues.defaultProcessQueue at h
  split at h
  · cases h
    exact .rfl
  · simp only [Option.bind_eq_bind, Option.bind_eq_some_iff] at h
    obtain ⟨u, hu, h⟩ := h
    cases h
    have hx := newQueue_extends hu
    exact hx

theorem getProcessQueueHandle_extends {handle : ℕ}
    (h : s.getProcessQueueHandle = some (handle, t)) : s.Extends t := by
  unfold TaskQueues.getProcessQueueHandle at h
  split at h
  · cases h
    exact .rfl
  · simp only [Option.bind_eq_bind, Option.bind_eq_some_iff] at h
    obtain ⟨⟨q, u⟩, hu, h⟩ := h
    cases h
    have hx := defaultProcessQueue_extends hu
    exact hx

theorem setQueue_extends {i : ℕ} {q r : Queue} (hq : s.queues[i]? = some q)
    (hw : r.work = q.work) (hc : r.completion = q.completion) : s.Extends (s.setQueue i r) :=
  ⟨.refl _, .set hq hw hc, rfl⟩

theorem admin_extends {a : Admin} (h : a.apply s = some t) : s.Extends t := by
  cases a with
  | newQueue work completion => exact newQueue_extends h
  | composite work completion => exact composite_extends h
  | createQueueHandle q => cases h; exact .rfl
  | closeQueueHandle handle => cases h; exact .rfl
  | createPortHandle p => cases h; exact .rfl
  | registerMonitor i context =>
    simp only [Admin.apply, TaskQueues.registerMonitor, Option.bind_eq_bind,
      Option.bind_eq_some_iff] at h
    obtain ⟨q, hq, h⟩ := h
    split at h
    · simp at h
    · cases h
      exact setQueue_extends hq rfl rfl
  | unregisterMonitor i token =>
    simp only [Admin.apply, TaskQueues.unregisterMonitor, Option.bind_eq_bind,
      Option.bind_eq_some_iff] at h
    obtain ⟨q, hq, h⟩ := h
    split at h
    · simp at h
    · cases h
      exact setQueue_extends hq rfl rfl
  | setProcessQueue queue =>
    cases h
    unfold TaskQueues.setProcessQueue
    split <;> exact .rfl
  | defaultProcessQueue =>
    obtain ⟨⟨q, u⟩, hu, rfl⟩ := Option.map_eq_some_iff.mp h
    exact defaultProcessQueue_extends hu
  | processQueueHandle =>
    obtain ⟨⟨q, u⟩, hu, rfl⟩ := Option.map_eq_some_iff.mp h
    exact getProcessQueueHandle_extends hu

theorem applyAll_extends {as : List Admin} (h : Admin.applyAll s as = some t) : s.Extends t := by
  induction as generalizing s with
  | nil => cases h; exact .rfl
  | cons a as ih =>
    obtain ⟨u, hu, hr⟩ := Option.bind_eq_some_iff.mp h
    exact (admin_extends hu).trans (ih hr)

end Growth
end XGameRuntime.TaskQueue
