import Mathlib.Data.Nat.Notation
import Mathlib.Data.List.InsertIdx

/-! # Ports

The port half of `src/com/xasync/task_queue.rs`: the modes, the tasks a port holds and the
sections of its functions that run under the port lock, each as a function on `PortState`. A
callback and its context are one opaque value of type `κ`; instants and delays are natural
numbers on one clock.
-/

namespace XGameRuntime.TaskQueue
set_option autoImplicit false

/-- `XTaskQueueDispatchMode`. -/
inductive DispatchMode where
  | manual
  | threadPool
  | serializedThreadPool
  | immediate
  deriving DecidableEq, Repr

def DispatchMode.fromRaw : ℕ → Option DispatchMode
  | 0 => some .manual
  | 1 => some .threadPool
  | 2 => some .serializedThreadPool
  | 3 => some .immediate
  | _ => none

/-- `XTaskQueuePort`: which half of a queue an operation refers to. -/
inductive PortKind where
  | work
  | completion
  deriving DecidableEq, Repr

def PortKind.fromRaw : ℕ → Option PortKind
  | 0 => some .work
  | 1 => some .completion
  | _ => none

/-- A submitted callback. `id` numbers the submissions; the runtime has no such field, it only
serves to tell two submissions of one callback apart. -/
structure Task (κ : Type) where
  callback : κ
  owner : ℕ
  due : Option ℕ
  id : ℕ
  deriving DecidableEq, Repr

def Task.readyAt {κ : Type} (task : Task κ) (now : ℕ) : Bool :=
  match task.due with
  | none => true
  | some due => decide (due ≤ now)

structure PortState (κ : Type) where
  tasks : List (Task κ) := []
  submitted : ℕ := 0
  dispatched : ℕ := 0
  terminated : Bool := false
  activeContexts : ℕ := 0
  inFlight : ℕ := 0
  workersStarted : Bool := false

/-- `drained` is a history variable: the termination that set `terminated` has also emptied the
port for the second time. -/
structure Port (κ : Type) where
  mode : DispatchMode
  state : PortState κ := {}
  drained : Bool := false

namespace PortState
variable {κ : Type}

def addContext (s : PortState κ) : PortState κ :=
  { s with activeContexts := s.activeContexts + 1 }

/-- First lock section of `terminate_context`: the callbacks of `owner` are pulled out, and the
flag says whether this was the last live context, so that the rest must be drained. -/
def terminateContext (s : PortState κ) (owner : ℕ) : PortState κ × List (Task κ) × Bool :=
  let active := if s.activeContexts > 0 then s.activeContexts - 1 else s.activeContexts
  let last := decide (active = 0) && !s.terminated
  ({ s with
      activeContexts := active
      tasks := s.tasks.filter fun task => decide (task.owner ≠ owner)
      terminated := s.terminated || last },
    s.tasks.filter fun task => decide (task.owner = owner), last)

/-- Second lock section of `terminate_context`. -/
def drainRest (s : PortState κ) : PortState κ × List (Task κ) :=
  ({ s with tasks := [] }, s.tasks)

/-- The ordering test of `submit`: the new task goes before `queued`. -/
def goesBefore (task queued : Task κ) : Bool :=
  match queued.due, task.due with
  | some queuedDue, some newDue => decide (queuedDue > newDue)
  | some _, none => true
  | _, _ => false

def insert (s : PortState κ) (task : Task κ) : PortState κ :=
  { s with
    submitted := s.submitted + 1
    tasks := s.tasks.insertIdx (s.tasks.findIdx (goesBefore task)) task }

def startInline (s : PortState κ) : PortState κ :=
  { s with inFlight := s.inFlight + 1 }

/-- One pass of the loop of `wait_for_task`: a task, the end of the port, or nothing yet. -/
inductive Wait (κ : Type) where
  | terminated
  | ready (task : Task κ) (state : PortState κ)
  | notYet

def waitForTask (s : PortState κ) (now : ℕ) : Wait κ :=
  if s.terminated then .terminated
  else
    match s.tasks with
    | [] => .notYet
    | task :: rest =>
        if task.readyAt now then
          .ready task { s with tasks := rest, inFlight := s.inFlight + 1 }
        else .notYet

/-- What a pass that has found nothing sleeps until, unless it is notified: the caller's deadline
or that of the head. -/
def waitUntil (s : PortState κ) (deadline : Option ℕ) : Option ℕ :=
  match deadline, s.tasks.head?.bind Task.due with
  | some a, some b => some (min a b)
  | some a, none => some a
  | none, some b => some b
  | none, none => none

def finishOne (s : PortState κ) : PortState κ :=
  { s with dispatched := s.dispatched + 1, inFlight := s.inFlight - 1 }

def drainReady (s : PortState κ) (now : ℕ) : PortState κ × List (Task κ) :=
  let out := s.tasks.takeWhile (·.readyAt now)
  ({ s with tasks := s.tasks.dropWhile (·.readyAt now), inFlight := s.inFlight + out.length }, out)

def finishN (s : PortState κ) (n : ℕ) : PortState κ :=
  if n = 0 then s
  else { s with dispatched := s.dispatched + n, inFlight := s.inFlight - n }

/-- `start_workers`: how many threads this submission starts. `pool` is the size of a thread
pool, `available_parallelism` capped at 4. -/
def startWorkers (s : PortState κ) (mode : DispatchMode) (pool : ℕ) : PortState κ × ℕ :=
  if s.workersStarted then (s, 0)
  else
    match mode with
    | .serializedThreadPool => ({ s with workersStarted := true }, 1)
    | .threadPool => ({ s with workersStarted := true }, pool)
    | .manual | .immediate => (s, 0)

/-! ## What the sections do to the list of tasks -/

theorem insert_perm (s : PortState κ) (task : Task κ) :
    (s.insert task).tasks.Perm (task :: s.tasks) :=
  List.perm_insertIdx _ _ List.findIdx_le_length

theorem terminateContext_perm (s : PortState κ) (owner : ℕ) :
    ((s.terminateContext owner).2.1 ++ (s.terminateContext owner).1.tasks).Perm s.tasks := by
  have h := List.filter_append_perm (fun task : Task κ => decide (task.owner = owner)) s.tasks
  simpa [terminateContext] using h

theorem drainReady_append (s : PortState κ) (now : ℕ) :
    (s.drainReady now).2 ++ (s.drainReady now).1.tasks = s.tasks :=
  List.takeWhile_append_dropWhile

theorem waitForTask_ready {s s' : PortState κ} {now : ℕ} {task : Task κ}
    (h : s.waitForTask now = .ready task s') : s.terminated = false ∧ task.readyAt now = true ∧
      ∃ rest, s.tasks = task :: rest ∧
        s' = { s with tasks := rest, inFlight := s.inFlight + 1 } := by
  unfold waitForTask at h
  split at h
  · simp at h
  · rename_i ht
    split at h
    · simp at h
    · rename_i head rest hl
      split at h
      · rename_i hr
        simp only [Wait.ready.injEq] at h
        obtain ⟨rfl, rfl⟩ := h
        exact ⟨by simpa using ht, hr, rest, hl, rfl⟩
      · simp at h

@[simp] theorem finishN_tasks (s : PortState κ) (n : ℕ) : (s.finishN n).tasks = s.tasks := by
  unfold finishN
  split <;> rfl

@[simp] theorem startWorkers_tasks (s : PortState κ) (mode : DispatchMode) (pool : ℕ) :
    (s.startWorkers mode pool).1.tasks = s.tasks := by
  unfold startWorkers
  split
  · rfl
  · split <;> rfl

@[simp] theorem startWorkers_terminated (s : PortState κ) (mode : DispatchMode) (pool : ℕ) :
    (s.startWorkers mode pool).1.terminated = s.terminated := by
  unfold startWorkers
  split
  · rfl
  · split <;> rfl

@[simp] theorem startWorkers_inFlight (s : PortState κ) (mode : DispatchMode) (pool : ℕ) :
    (s.startWorkers mode pool).1.inFlight = s.inFlight := by
  unfold startWorkers
  split
  · rfl
  · split <;> rfl

@[simp] theorem startWorkers_activeContexts (s : PortState κ) (mode : DispatchMode) (pool : ℕ) :
    (s.startWorkers mode pool).1.activeContexts = s.activeContexts := by
  unfold startWorkers
  split
  · rfl
  · split <;> rfl

end PortState
end XGameRuntime.TaskQueue
