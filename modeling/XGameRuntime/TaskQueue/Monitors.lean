import XGameRuntime.TaskQueue.Machine

/-! # A pump woken by a monitor

The host that monitors are made for: threads submit to one queue, a monitor tells a pump thread
about each submission, and the pump answers each notification with one dispatch of timeout 0 on
the port it names. `Queue::submit` notifies before it inserts, so the pump may look too early.
-/

namespace XGameRuntime.TaskQueue
open Concurrency
set_option autoImplicit false

/-! ## The host -/

/-- The index of the context, and of the port, of one half of the queue. -/
def PortKind.half : PortKind → ℕ
  | .work => 0
  | .completion => 1

theorem PortKind.half_injective {k l : PortKind} (h : k.half = l.half) : k = l := by
  cases k <;> cases l <;> first | rfl | cases h

/-- The notifications that the pump has not answered yet. -/
structure PumpMemory where
  outstanding : PortKind → ℕ := fun _ => 0

inductive PumpFrame where
  /-- A thread, or a callback, that submits. -/
  | submitter
  /-- The monitor, called for one half of the queue. -/
  | monitor (kind : PortKind)
  /-- The loop of the pump thread. -/
  | pump
  deriving DecidableEq, Repr

inductive PumpChoice where
  | submit (kind : PortKind) (delay callback : ℕ)
  | finish
  /-- The pump answers a notification. -/
  | answer (kind : PortKind)
  deriving DecidableEq, Repr

def PumpMemory.step (m : PumpMemory) (s : TaskQueues ℕ) :
    PumpFrame → PumpChoice → Option (ClientStep ℕ PumpMemory PumpFrame)
  | .submitter, .submit kind delay callback =>
      some { mem := m, run := [.submit ⟨0, kind, delay, callback, [], []⟩, .frame .submitter] }
  | .submitter, .finish => some { mem := m }
  | .monitor kind, _ =>
      some { mem := ⟨Function.update m.outstanding kind (m.outstanding kind + 1)⟩ }
  | .pump, .answer kind =>
      if m.outstanding kind = 0 then none
      else do
        let p ← s.portOf 0 kind
        some { mem := ⟨Function.update m.outstanding kind (m.outstanding kind - 1)⟩
               run := [.dispatch ⟨p, 0, [], []⟩, .frame .pump] }
  | _, _ => none

@[reducible] def Pump : Client ℕ where
  Mem := PumpMemory
  Frame := PumpFrame
  Choice := PumpChoice
  body _ _ := [.submitter]
  monitor _ _ kind := [.monitor kind]
  step := PumpMemory.step

/-- A queue with one registered monitor. -/
def monitored (pool : ℕ) (work completion : DispatchMode) : TaskQueues ℕ :=
  (Admin.applyAll { pool := pool } [.newQueue work completion, .registerMonitor 0 0]).getD
    { pool := pool }

/-- `n` submitting threads and the pump. -/
def Pump.start (pool : ℕ) (work completion : DispatchMode) (n : ℕ) :
    Config (World Pump) (Frame ℕ PumpFrame) where
  shared := { toTaskQueues := monitored pool work completion, mem := {} }
  threads := [.clock] :: [.client .pump] :: List.replicate n [.client .submitter]

/-! ## Undelayed callbacks come first -/

section Order
variable {κ : Type}

def UndelayedFirst (tasks : List (Task κ)) : Prop :=
  tasks.Pairwise fun a b => b.due = none → a.due = none

theorem undelayedFirst_insert (task : Task κ) {tasks : List (Task κ)} (h : UndelayedFirst tasks) :
    UndelayedFirst (tasks.insertIdx (tasks.findIdx (PortState.goesBefore task)) task) := by
  induction tasks with
  | nil => exact List.pairwise_singleton _ _
  | cons queued rest ih =>
    obtain ⟨hhead, hrest⟩ := List.pairwise_cons.mp h
    rw [List.findIdx_cons]
    cases hb : PortState.goesBefore task queued with
    | true =>
      have hdue : queued.due ≠ none := by
        intro hn
        rw [PortState.goesBefore, hn] at hb
        cases hb
      refine List.pairwise_cons.mpr ⟨?_, h⟩
      intro b hm hn
      rcases List.mem_cons.mp hm with rfl | hm
      · exact absurd hn hdue
      · exact absurd (hhead b hm hn) hdue
    | false =>
      refine List.pairwise_cons.mpr ⟨?_, ih hrest⟩
      intro b hm hn
      have hmem := (List.perm_insertIdx task rest List.findIdx_le_length).mem_iff.mp hm
      rcases List.mem_cons.mp hmem with rfl | hmem
      · cases hq : queued.due with
        | none => rfl
        | some due =>
          rw [PortState.goesBefore, hq, hn] at hb
          cases hb
      · exact hhead b hmem hn

/-- What is not ready now, or stands behind something that is not, is delayed. -/
theorem undelayedFirst_dropWhile {tasks : List (Task κ)} (h : UndelayedFirst tasks) (now : ℕ) :
    ∀ task ∈ tasks.dropWhile (·.readyAt now), task.due ≠ none := by
  induction tasks with
  | nil => exact List.forall_mem_nil _
  | cons queued rest ih =>
    obtain ⟨hhead, hrest⟩ := List.pairwise_cons.mp h
    rw [List.dropWhile_cons]
    cases hr : queued.readyAt now with
    | true => exact ih hrest
    | false =>
      have hdue : queued.due ≠ none := by
        intro hn
        rw [Task.readyAt, hn] at hr
        cases hr
      refine List.forall_mem_cons.mpr ⟨hdue, ?_⟩
      intro b hm hn
      exact hdue (hhead b hm hn)

end Order

/-! ## What is waiting, and who will look -/

section Measures
variable {κ γ : Type}

/-- The undelayed callbacks queued on a port. -/
def undelayed (p : ℕ) (s : Core κ) : ℕ :=
  match s.ports[p]? with
  | some port => port.state.tasks.countP (·.due.isNone)
  | none => 0

/-- An undelayed submission between its notification and its insertion. -/
def Frame.past (k : PortKind) : Frame κ γ → ℕ
  | .notifying a _ [] => if a.delay = 0 ∧ a.kind = k then 1 else 0
  | .submitContext a owner | .submitDue a owner _ => if a.delay = 0 ∧ owner = k.half then 1 else 0
  | .submitPort _ task _ => if task.due = none ∧ task.owner = k.half then 1 else 0
  | _ => 0

/-- A dispatch that has yet to look at the port for the last time. -/
def Frame.looking (p : ℕ) : Frame κ γ → ℕ
  | .dispatch d | .dispatchWait d _ | .drainReady d => if d.port = p then 1 else 0
  | _ => 0

/-- The step is the last look of a dispatch at the port: it takes what is ready, or finds that
nothing is. -/
def Frame.LastLook (s : Core κ) (p : ℕ) : Frame κ γ → Prop
  | .drainReady d => d.port = p
  | .dispatchWait d _ => d.port = p ∧ ∀ port ∈ s.ports[p]?,
      ∀ task ∈ port.state.tasks.head?, task.readyAt s.now = false
  | _ => False

/-- The monitor is about to tell the pump. -/
def Frame.telling (k : PortKind) : Frame κ PumpFrame → ℕ
  | .client (.monitor kind) => if kind = k then 1 else 0
  | _ => 0

/-- Undelayed callbacks that the pump has been told about and that are still to be run. -/
def backlog (k : PortKind) (s : Core κ) (fs : Multiset (Frame κ γ)) : ℕ :=
  undelayed k.half s + weight (Frame.past k) fs

/-- Notifications that are still to be answered, and dispatches still to look. -/
def alarms (k : PortKind) (m : PumpMemory) (fs : Multiset (Frame κ PumpFrame)) : ℕ :=
  m.outstanding k + weight (Frame.telling k) fs + weight (Frame.looking k.half) fs

theorem undelayed_setPort {s : Core κ} {p q : ℕ} {port new : Port κ} (hq : s.ports[q]? = some port) :
    undelayed p (s.setPort q new) =
      if p = q then new.state.tasks.countP (·.due.isNone) else undelayed p s := by
  unfold undelayed
  show (match (s.ports.set q new)[p]? with | some port => _ | none => _) = _
  by_cases hpq : p = q
  · subst hpq
    rw [getElem?_set_at new hq, if_pos rfl]
  · rw [List.getElem?_set_ne (Ne.symm hpq), if_neg hpq]

theorem undelayed_at {s : Core κ} {p : ℕ} {port : Port κ} (hp : s.ports[p]? = some port) :
    undelayed p s = port.state.tasks.countP (·.due.isNone) := by
  rw [undelayed, hp]

/-- A write to a port that queues no more undelayed callbacks than it had. -/
theorem undelayed_setPort_le {s : Core κ} {p q : ℕ} {port new : Port κ}
    (hq : s.ports[q]? = some port)
    (h : new.state.tasks.countP (·.due.isNone) ≤ port.state.tasks.countP (·.due.isNone)) :
    undelayed p (s.setPort q new) ≤ undelayed p s := by
  rw [undelayed_setPort hq]
  by_cases hpq : p = q
  · subst hpq
    rw [if_pos rfl, undelayed_at hq]
    exact h
  · rw [if_neg hpq]

theorem undelayed_insert {s : Core κ} {p q : ℕ} {port new : Port κ} {task : Task κ}
    (hq : s.ports[q]? = some port) (h : new.state.tasks = (port.state.insert task).tasks) :
    undelayed p (s.setPort q new) = undelayed p s + if task.due = none ∧ q = p then 1 else 0 := by
  rw [undelayed_setPort hq]
  by_cases hpq : p = q
  · subst hpq
    rw [if_pos rfl, undelayed_at hq, h, (PortState.insert_perm port.state task).countP_eq,
      List.countP_cons]
    cases task.due <;> simp
  · simp [hpq, Ne.symm hpq]

theorem past_clients (k : PortKind) (fs : List γ) :
    ((fs.map (Frame.client (κ := κ))).map (Frame.past k)).sum = 0 := by
  rw [List.map_map]
  exact List.sum_eq_zero fun x hx => by
    obtain ⟨g, -, rfl⟩ := List.mem_map.mp hx
    rfl

end Measures

/-! ## The queue of the host -/

/-- One queue with its own two ports, never terminated, and a monitor. -/
structure Pumped (s : TaskQueues ℕ) : Prop where
  queues : ∃ q : Queue, s.queues = [q] ∧ q.work = 0 ∧ q.completion = 1 ∧ q.monitors ≠ []
  contexts : ∀ (i : ℕ) (context : PortContext), s.contexts[i]? = some context → context.port = i
  alive : ∀ (p : ℕ) (port : Port ℕ), s.ports[p]? = some port → port.state.terminated = false
  sorted : ∀ (p : ℕ) (port : Port ℕ), s.ports[p]? = some port → UndelayedFirst port.state.tasks

/-- No terminator is at work, and submissions go to the one queue. -/
def Frame.Calm {κ γ : Type} : Frame κ γ → Prop
  | .notify a | .notifying a _ _ => a.queue = 0
  | .terminateQueue _ | .terminate .. | .terminateContext .. | .cancel .. | .awaitDrained ..
  | .terminateReturn _ => False
  | _ => True

section Steps
variable {s : TaskQueues ℕ} {f : Frame ℕ PumpFrame}

theorem Pumped.context_half (h : Pumped s) {q : Queue} (hq : s.queues[0]? = some q) (k : PortKind) :
    q.context k = k.half := by
  obtain ⟨q', hqs, hw, hc, -⟩ := h.queues
  rw [hqs, List.getElem?_cons_zero, Option.some.injEq] at hq
  subst hq
  cases k with
  | work => exact hw
  | completion => exact hc

theorem Pumped.portOf (h : Pumped s) {k : PortKind} {p : ℕ} (hp : s.portOf 0 k = some p) :
    p = k.half := by
  simp only [TaskQueues.portOf, Option.bind_eq_bind, Option.bind_eq_some_iff,
    Option.some.injEq] at hp
  obtain ⟨q, hq, context, hc, rfl⟩ := hp
  rw [h.contexts _ context hc, h.context_half hq]

/-- A step of the core keeps the contexts, and what it leaves in a port. -/
theorem Pumped.setState (h : Pumped s) {p : ℕ} {port : Port ℕ} {state : PortState ℕ}
    (hp : s.ports[p]? = some port) (ht : state.terminated = port.state.terminated)
    (hs : UndelayedFirst state.tasks) {t : Core ℕ} (hports : t.ports = s.toCore.ports)
    (hcontexts : t.contexts = s.toCore.contexts) :
    Pumped { s with toCore := t.setState p port state } := by
  refine ⟨h.queues, ?_, ?_, ?_⟩
  · intro i context hi
    have hi' : s.contexts[i]? = some context := by
      rw [← hcontexts]
      exact hi
    exact h.contexts i context hi'
  · intro q new hq
    have hq' : (s.ports.set p { port with state := state })[q]? = some new := by
      rw [← hports]
      exact hq
    rcases getElem?_set_cases hq' with ⟨-, rfl⟩ | ⟨-, hold⟩
    · exact ht.trans (h.alive p port hp)
    · exact h.alive q new hold
  · intro q new hq
    have hq' : (s.ports.set p { port with state := state })[q]? = some new := by
      rw [← hports]
      exact hq
    rcases getElem?_set_cases hq' with ⟨-, rfl⟩ | ⟨-, hold⟩
    · exact hs
    · exact h.sorted q new hold

theorem Pumped.history (h : Pumped s) {t : Core ℕ} (hports : t.ports = s.toCore.ports)
    (hcontexts : t.contexts = s.toCore.contexts) : Pumped { s with toCore := t } := by
  refine ⟨h.queues, ?_, ?_, ?_⟩
  · intro i context hi
    exact h.contexts i context (hcontexts ▸ hi)
  · intro p port hp
    exact h.alive p port (hports ▸ hp)
  · intro p port hp
    exact h.sorted p port (hports ▸ hp)

theorem coreStep_pumped {body : ℕ → Bool → List PumpFrame} {o : Outcome (Core ℕ) (Frame ℕ PumpFrame)}
    (h : CoreStep body s.toCore f o) (hf : f.Calm) (hI : Pumped s) :
    Pumped { s with toCore := o.shared } := by
  cases h with
  | acceptInline hc hp ht hm hd =>
    refine hI.setState hp ?_ ?_ rfl rfl
    · rfl
    · exact hI.sorted _ _ hp
  | acceptQueued hc hp ht hm =>
    refine hI.setState hp ?_ ?_ rfl rfl
    · rw [PortState.startWorkers_terminated]
      rfl
    · rw [PortState.startWorkers_tasks]
      exact undelayedFirst_insert _ (hI.sorted _ _ hp)
  | finishOne hp =>
    refine hI.setState hp ?_ ?_ rfl rfl
    · rfl
    · exact hI.sorted _ _ hp
  | workerTake hp ht hl | dispatchTake hp ht hl =>
    refine hI.setState hp ?_ ?_ rfl rfl
    · rfl
    · have hs := hI.sorted _ _ hp
      rw [hl] at hs
      exact (List.pairwise_cons.mp hs).2
  | drainReady hp =>
    refine hI.setState hp ?_ ?_ rfl rfl
    · rfl
    · exact (hI.sorted _ _ hp).sublist (List.dropWhile_sublist _)
  | @batchEnd d total port hp =>
    refine hI.setState hp ?_ ?_ rfl rfl
    · unfold PortState.finishN
      split <;> rfl
    · have hs := hI.sorted _ _ hp
      unfold PortState.finishN
      split <;> exact hs
  | terminate | terminateContext | cancelNext | cancelDrain | cancelWait | cancelReturn
  | awaitDrained => exact absurd hf id
  | _ => exact hI.history rfl rfl

theorem coreStep_calm {body : ℕ → Bool → List PumpFrame} {s : Core ℕ}
    {o : Outcome (Core ℕ) (Frame ℕ PumpFrame)} (h : CoreStep body s f o) (hf : f.Calm) :
    ∀ g ∈ o.frames, g.Calm := by
  have hclients : ∀ fs : List PumpFrame, ∀ g ∈ fs.map (Frame.client (κ := ℕ)), g.Calm :=
    fun fs => List.forall_mem_map.mpr fun _ _ => trivial
  refine forall_frames.mpr ?_
  cases h with
  | refuse | dispatchExit | batchEnd => exact ⟨hclients _, fun k hk => by cases hk⟩
  | acceptInline =>
    refine ⟨?_, fun k hk => by cases hk⟩
    exact List.forall_mem_cons.mpr ⟨trivial, List.forall_mem_cons.mpr ⟨trivial, hclients _⟩⟩
  | acceptDelayed | acceptQueued =>
    refine ⟨hclients _, fun k hk g hg => ?_⟩
    simp only [List.mem_singleton, List.mem_replicate] at hk
    simp_all [Frame.Calm]
  | invoke =>
    refine ⟨?_, fun k hk => by cases hk⟩
    exact List.forall_mem_append.mpr ⟨hclients _, List.forall_mem_singleton.mpr trivial⟩
  | terminate | terminateContext | cancelNext | cancelDrain | cancelWait | cancelReturn
  | awaitDrained => exact absurd hf id
  | _ => exact ⟨by simp [Frame.Calm], fun k hk => by cases hk⟩

/-- The backlog of the core only shrinks: a submission counts until it has inserted, and its
callback from then on. -/
theorem coreStep_backlog {body : ℕ → Bool → List PumpFrame}
    {o : Outcome (Core ℕ) (Frame ℕ PumpFrame)} (k : PortKind) (h : CoreStep body s.toCore f o)
    (hf : f.Calm) (hI : Pumped s) :
    undelayed k.half o.shared + weight (Frame.past k) o.frames ≤
      undelayed k.half s.toCore + f.past k := by
  rw [weight_frames]
  cases h with
  | submitContext => simp [Frame.past, undelayed]
  | @submitDue a owner flag due hd =>
    have hdue : (due = none) = (a.delay = 0) := by
      rw [hd]
      split <;> simp_all
    simp [Frame.past, undelayed, hdue]
  | refuse | dispatchExit =>
    rw [past_clients]
    exact Nat.le_add_right _ _
  | acceptDelayed hc hp ht hm hd =>
    rw [past_clients]
    simp [Frame.past, undelayed]
  | @acceptInline a task context port hc hp ht hm hd =>
    have hz := past_clients (κ := ℕ) k a.onAccepted
    simp only [List.map_cons, List.sum_cons, hz, List.map_nil, List.sum_nil]
    have hle : undelayed k.half (s.toCore.setPort context.port
        { port with state := port.state.startInline }) ≤ undelayed k.half s.toCore := by
      refine undelayed_setPort_le hp ?_
      exact le_rfl
    exact hle.trans (Nat.le_add_right _ _)
  | @acceptQueued a task context port hc hp ht hm =>
    have hport := hI.contexts _ _ hc
    have hnew : undelayed k.half (s.toCore.setPort context.port
        { port with state := ((port.state.insert task).startWorkers port.mode s.pool).1 }) =
        undelayed k.half s.toCore + if task.due = none ∧ context.port = k.half then 1 else 0 :=
      undelayed_insert hp (PortState.startWorkers_tasks _ _ _)
    rw [hport] at hnew
    have hw : ((List.replicate ((port.state.insert task).startWorkers port.mode s.pool).2
        [Frame.worker (κ := ℕ) (γ := PumpFrame) context.port]).map
          fun l => (l.map (Frame.past k)).sum).sum = 0 := by
      simp [Frame.past]
    show undelayed k.half (s.toCore.setPort context.port _) + _ ≤ _
    rw [past_clients, hw, hport]
    show _ ≤ undelayed k.half s.toCore + if task.due = none ∧ task.owner = k.half then 1 else 0
    exact le_of_eq hnew
  | @invoke task canceled =>
    have hz := past_clients (κ := ℕ) k (body task.callback canceled)
    simp only [List.map_append, List.sum_append, hz, List.map_cons, List.map_nil, List.sum_cons,
      List.sum_nil]
    exact le_rfl
  | finishOne hp =>
    exact undelayed_setPort_le hp le_rfl
  | workerTake hp ht hl | dispatchTake hp ht hl =>
    refine undelayed_setPort_le hp ?_
    rw [hl]
    exact List.Sublist.countP_le (List.sublist_cons_self _ _)
  | drainReady hp =>
    refine undelayed_setPort_le hp ?_
    exact List.Sublist.countP_le (List.dropWhile_sublist _)
  | @batchEnd d total port hp =>
    rw [past_clients]
    refine undelayed_setPort_le hp ?_
    unfold PortState.finishN
    split <;> exact le_rfl
  | terminate | terminateContext | cancelNext | cancelDrain | cancelWait | cancelReturn
  | awaitDrained => exact absurd hf id
  | _ => simp [Frame.past, undelayed]

theorem countP_undelayed_eq_zero {κ : Type} {tasks : List (Task κ)}
    (h : ∀ task ∈ tasks, task.due ≠ none) : tasks.countP (·.due.isNone) = 0 := by
  refine List.countP_eq_zero.mpr fun task ht hn => ?_
  exact h task ht (Option.isNone_iff_eq_none.mp hn)

theorem waitForTask_notYet {κ : Type} {state : PortState κ} {now : ℕ}
    (h : state.waitForTask now = .notYet) :
    ∀ task ∈ state.tasks.head?, task.readyAt now = false := by
  intro task ht
  obtain ⟨rest, hl⟩ := List.head?_eq_some_iff.mp ht
  unfold PortState.waitForTask at h
  split at h
  · cases h
  · rw [hl] at h
    cases hr : task.readyAt now with
    | false => rfl
    | true =>
      simp only [hr, if_true] at h
      cases h

/-- Where nothing is ready, nothing is undelayed. -/
theorem dropWhile_of_head {κ : Type} {tasks : List (Task κ)} {now : ℕ}
    (h : ∀ task ∈ tasks.head?, task.readyAt now = false) :
    tasks.dropWhile (·.readyAt now) = tasks := by
  cases tasks with
  | nil => rfl
  | cons task rest =>
    have hr := h task rfl
    rw [List.dropWhile_cons, hr]
    rfl

/-- A dispatch goes on looking at its port, or has just looked for the last time and left no
undelayed callback there. -/
theorem coreStep_looking {body : ℕ → Bool → List PumpFrame}
    {o : Outcome (Core ℕ) (Frame ℕ PumpFrame)} (p : ℕ) (h : coreStep body s.toCore f = some o)
    (hI : Pumped s) : f.looking p ≤ weight (Frame.looking p) o.frames ∨
      undelayed p o.shared = 0 ∧ (∀ k, weight (Frame.past k) o.frames = 0) ∧
        f.LastLook s.toCore p := by
  cases f with
  | dispatch d =>
    cases h
    left
    rw [weight_frames]
    exact Nat.le_add_right _ _
  | dispatchWait d deadline =>
    simp only [coreStep, Option.bind_eq_bind, Option.bind_eq_some_iff] at h
    obtain ⟨port, hp, h⟩ := h
    split at h
    · rename_i hw
      have hdead := waitForTask_terminated hw
      rw [hI.alive _ port hp] at hdead
      cases hdead
    · cases h
      left
      rw [weight_frames]
      simp [Frame.looking]
    · rename_i hw
      split at h
      · cases h
        by_cases hd : d.port = p
        · right
          subst hd
          have hready := waitForTask_notYet hw
          refine ⟨?_, ?_, rfl, ?_⟩
          · rw [undelayed_at hp]
            refine countP_undelayed_eq_zero ?_
            have hdrop := undelayedFirst_dropWhile (hI.sorted _ port hp) s.now
            rw [dropWhile_of_head hready] at hdrop
            exact hdrop
          · intro k
            rw [weight_frames, past_clients]
            rfl
          · intro port' hp'
            rw [hp] at hp'
            obtain rfl := Option.some.inj hp'
            exact hready
        · left
          simp only [Frame.looking, hd, if_false]
          exact Nat.zero_le _
      · cases h
  | drainReady d =>
    simp only [coreStep, Option.bind_eq_bind, Option.bind_eq_some_iff, Option.some.injEq] at h
    obtain ⟨port, hp, rfl⟩ := h
    by_cases hd : d.port = p
    · right
      subst hd
      refine ⟨?_, fun k => rfl, rfl⟩
      show undelayed d.port (s.toCore.setPort d.port _) = 0
      rw [undelayed_setPort hp, if_pos rfl]
      exact countP_undelayed_eq_zero (undelayedFirst_dropWhile (hI.sorted _ port hp) s.now)
    · left
      simp only [Frame.looking, hd, if_false]
      exact Nat.zero_le _
  | _ => exact .inl (Nat.zero_le _)

theorem coreStep_telling {body : ℕ → Bool → List PumpFrame} {s : Core ℕ}
    {o : Outcome (Core ℕ) (Frame ℕ PumpFrame)} (k : PortKind) (h : CoreStep body s f o) :
    f.telling k = 0 := by
  cases h <;> rfl

/-- The monitors are called before their submission counts as past its notification. -/
theorem registryStep_heard {o : Outcome (TaskQueues ℕ) (Frame ℕ PumpFrame)}
    (h : registryStep Pump s f = some o) (hf : f.Calm) (hI : Pumped s) :
    Pumped o.shared ∧ (∀ g ∈ o.frames, g.Calm) ∧ o.shared.toCore = s.toCore ∧
      ∀ k, f.telling k = 0 ∧ f.looking k.half = 0 ∧
        (weight (Frame.past k) o.frames ≤ f.past k ∨ 0 < weight (Frame.telling k) o.frames) := by
  have hset : ∀ (t : TaskQueues ℕ) (q : Queue), t.toCore = s.toCore → t.queues = s.queues →
      q.work = 0 → q.completion = 1 → q.monitors ≠ [] → Pumped (t.setQueue 0 q) := by
    intro t q hcore hqueues hw hc hm
    obtain ⟨old, hold, -⟩ := hI.queues
    refine ⟨⟨q, ?_, hw, hc, hm⟩, ?_, ?_, ?_⟩
    · show t.queues.set 0 q = [q]
      rw [hqueues, hold]
      rfl
    · show ∀ (i : ℕ) (context : PortContext), t.toCore.contexts[i]? = some context → _
      rw [hcore]
      exact hI.contexts
    · show ∀ (p : ℕ) (port : Port ℕ), t.toCore.ports[p]? = some port → _
      rw [hcore]
      exact hI.alive
    · show ∀ (p : ℕ) (port : Port ℕ), t.toCore.ports[p]? = some port → _
      rw [hcore]
      exact hI.sorted
  obtain ⟨q₀, hqs, hw, hc, hm⟩ := hI.queues
  cases f with
  | notify a =>
    have ha : a.queue = 0 := hf
    simp only [registryStep, ha, hqs, List.getElem?_cons_zero, Option.bind_eq_bind,
      Option.bind_some] at h
    have hne : q₀.monitors.isEmpty = false := by
      cases hq : q₀.monitors with
      | nil => exact absurd hq hm
      | cons => rfl
    obtain ⟨monitor, rest, hcons⟩ := List.exists_cons_of_ne_nil hm
    split at h
    · cases h
    · rw [hne] at h
      split at h
      · rename_i hfalse
        cases hfalse
      · split at h
        · cases h
          refine ⟨hset s _ rfl rfl hw hc hm, ?_, rfl, fun k => ⟨rfl, rfl, .inl ?_⟩⟩
          · exact forall_frames.mpr ⟨List.forall_mem_singleton.mpr ha, List.forall_mem_nil _⟩
          · rw [weight_frames, hcons]
            exact le_rfl
        · cases h
          refine ⟨hset (s.createQueueHandle 0) _ rfl rfl hw hc hm, ?_, rfl,
            fun k => ⟨rfl, rfl, .inl ?_⟩⟩
          · exact forall_frames.mpr ⟨List.forall_mem_singleton.mpr ha, List.forall_mem_nil _⟩
          · rw [weight_frames, hcons]
            exact le_rfl
  | notifying a handle monitors =>
    have ha : a.queue = 0 := hf
    cases monitors with
    | cons monitor rest =>
      cases h
      refine ⟨hI, ?_, rfl, fun k => ⟨rfl, rfl, ?_⟩⟩
      · refine forall_frames.mpr ⟨?_, List.forall_mem_nil _⟩
        exact List.forall_mem_cons.mpr ⟨trivial, List.forall_mem_singleton.mpr ha⟩
      · rw [weight_frames, weight_frames]
        by_cases hk : a.kind = k
        · right
          simp [Frame.telling, hk]
        · left
          have hz : (Frame.notifying a handle rest : Frame ℕ PumpFrame).past k = 0 := by
            cases rest <;> simp [Frame.past, hk]
          simp only [List.map_cons, List.map_nil, List.cons_append, List.nil_append, List.sum_cons,
            List.sum_nil, hz]
          exact Nat.zero_le _
    | nil =>
      simp only [registryStep, ha, hqs, List.getElem?_cons_zero, Option.bind_eq_bind,
        Option.bind_some, Option.some.injEq] at h
      cases h
      refine ⟨hset s _ rfl rfl hw hc hm, ?_, rfl, fun k => ⟨rfl, rfl, .inl ?_⟩⟩
      · exact forall_frames.mpr ⟨List.forall_mem_singleton.mpr trivial, List.forall_mem_nil _⟩
      · have hq : q₀.context a.kind = a.kind.half :=
          hI.context_half (by rw [hqs]; rfl) a.kind
        have hk : (a.kind.half = k.half) = (a.kind = k) :=
          propext ⟨PortKind.half_injective, fun h => h ▸ rfl⟩
        rw [weight_frames]
        simp [Frame.past, hq, hk]
  | terminateQueue | terminate | terminateReturn => exact absurd hf id
  | _ => cases h

/-- The pump answers a notification by going to look. -/
theorem pumpStep_heard {m : PumpMemory} {g : PumpFrame} {choice : PumpChoice}
    {r : ClientStep ℕ PumpMemory PumpFrame} (h : m.step s g choice = some r) (hI : Pumped s) :
    r.admin = [] ∧ (∀ i ∈ r.run, (i.toFrame).Calm) ∧ r.spawn = [] ∧
      ∀ k, weight (Frame.past k) (↑(r.run.map Instr.toFrame) : Multiset (Frame ℕ PumpFrame)) = 0 ∧
        m.outstanding k + (Frame.client (κ := ℕ) g).telling k ≤ r.mem.outstanding k +
          weight (Frame.looking k.half)
            (↑(r.run.map Instr.toFrame) : Multiset (Frame ℕ PumpFrame)) := by
  cases g with
  | submitter =>
    cases choice with
    | submit kind delay callback =>
      cases h
      refine ⟨rfl, ?_, rfl, fun k => ⟨rfl, Nat.le_add_right _ _⟩⟩
      exact List.forall_mem_cons.mpr ⟨rfl, List.forall_mem_singleton.mpr trivial⟩
    | finish =>
      cases h
      exact ⟨rfl, List.forall_mem_nil _, rfl, fun k => ⟨rfl, Nat.le_add_right _ _⟩⟩
    | answer kind => cases h
  | monitor kind =>
    cases h
    refine ⟨rfl, List.forall_mem_nil _, rfl, fun k => ⟨rfl, ?_⟩⟩
    by_cases hk : k = kind
    · subst hk
      simp [Frame.telling]
    · simp [Frame.telling, Function.update_of_ne hk, Ne.symm hk]
  | pump =>
    cases choice with
    | submit kind delay callback => cases h
    | finish => cases h
    | answer kind =>
      simp only [PumpMemory.step] at h
      split at h
      · cases h
      · rename_i hpos
        simp only [Option.bind_eq_bind, Option.bind_eq_some_iff, Option.some.injEq] at h
        obtain ⟨p, hp, rfl⟩ := h
        have hport := hI.portOf hp
        refine ⟨rfl, ?_, rfl, fun k => ⟨rfl, ?_⟩⟩
        · exact List.forall_mem_cons.mpr ⟨trivial, List.forall_mem_singleton.mpr trivial⟩
        · by_cases hk : k = kind
          · subst hk
            have hlook : weight (Frame.looking k.half) (↑([Instr.dispatch ⟨p, 0, [], []⟩,
                Instr.frame PumpFrame.pump].map (Instr.toFrame (κ := ℕ))) :
                Multiset (Frame ℕ PumpFrame)) = 1 := by
              simp [weight, Instr.toFrame, Frame.looking, hport]
            rw [hlook]
            simp only [Frame.telling, Function.update_self]
            omega
          · simp [Frame.telling, Function.update_of_ne hk]

end Steps

/-! ## Runs -/

/-- The last look of a dispatch at one port comes while no undelayed submission is between its
notification and its insertion, or another notification for the port, or another dispatch on it,
is still to come. -/
def inTime (k : PortKind) (s : World Pump) (R : Multiset (Frame ℕ PumpFrame))
    (f : Frame ℕ PumpFrame) : Prop :=
  f.LastLook s.toCore k.half → weight (Frame.past k) R = 0 ∨ 0 < alarms k s.mem R

/-- The condition that every dispatch looks in time. -/
def looksInTime : Guard (World Pump) (Frame ℕ PumpFrame) (Option PumpChoice) :=
  fun s R f _ => inTime .work s R f ∧ inTime .completion s R f

instance (s : Core ℕ) (p : ℕ) (f : Frame ℕ PumpFrame) : Decidable (f.LastLook s p) := by
  unfold Frame.LastLook
  split <;> infer_instance

instance : ∀ (s : World Pump) (R : Multiset (Frame ℕ PumpFrame)) (f : Frame ℕ PumpFrame)
    (x : Option PumpChoice), Decidable (looksInTime s R f x) := by
  intro s R f x
  unfold looksInTime inTime
  infer_instance

theorem looksInTime.at {s : World Pump} {R : Multiset (Frame ℕ PumpFrame)}
    {f : Frame ℕ PumpFrame} {x : Option PumpChoice} (h : looksInTime s R f x) (k : PortKind) :
    inTime k s R f := by
  cases k with
  | work => exact h.1
  | completion => exact h.2

/-- Whatever is waiting, someone is still to come for it. -/
structure Heard (s : World Pump) (fs : Multiset (Frame ℕ PumpFrame)) : Prop where
  pumped : Pumped s.toTaskQueues
  calm : ∀ f ∈ fs, f.Calm
  heard : ∀ k, 0 < backlog k s.toCore fs → 0 < alarms k s.mem fs

section Steps
variable {s : World Pump} {f : Frame ℕ PumpFrame} {R : Multiset (Frame ℕ PumpFrame)}

theorem Heard.rest (hI : Heard s (f ::ₘ R)) {new : Multiset (Frame ℕ PumpFrame)}
    (h : ∀ g ∈ new, g.Calm) : ∀ g ∈ new + R, g.Calm := by
  intro g hm
  rcases Multiset.mem_add.mp hm with hn | hR
  · exact h g hn
  · exact hI.calm g (Multiset.mem_cons_of_mem hR)

/-- `Heard` before the step, with the frame that runs set apart. -/
theorem Heard.apart (hI : Heard s (f ::ₘ R)) (k : PortKind) :
    0 < undelayed k.half s.toCore + (f.past k + weight (Frame.past k) R) →
      0 < s.mem.outstanding k + (f.telling k + weight (Frame.telling k) R) +
        (f.looking k.half + weight (Frame.looking k.half) R) := by
  have hk := hI.heard k
  simpa only [backlog, alarms, weight_cons] using hk

theorem Heard.client {g : PumpFrame} {choice : PumpChoice} {r : ClientStep ℕ PumpMemory PumpFrame}
    {t : TaskQueues ℕ} (hI : Heard s (.client g ::ₘ R)) (hr : s.mem.step s.toTaskQueues g choice = some r)
    (ht : Admin.applyAll s.toTaskQueues r.admin = some t) :
    Heard ⟨t, r.mem⟩ ((⟨⟨t, r.mem⟩, r.run.map Instr.toFrame, r.spawn.map (·.map Instr.toFrame)⟩ :
      Outcome (World Pump) (Frame ℕ PumpFrame)).frames + R) := by
  obtain ⟨hadmin, hrun, hspawn, hk⟩ := pumpStep_heard hr hI.pumped
  rw [hadmin] at ht
  cases ht
  have hframes : (⟨⟨s.toTaskQueues, r.mem⟩, r.run.map Instr.toFrame,
      r.spawn.map (·.map Instr.toFrame)⟩ : Outcome (World Pump) (Frame ℕ PumpFrame)).frames =
      ↑(r.run.map Instr.toFrame) := by
    rw [hspawn]
    simp [Outcome.frames]
  rw [hframes]
  refine ⟨hI.pumped, hI.rest (List.forall_mem_map.mpr hrun), fun k hpos => ?_⟩
  obtain ⟨hpast, hle⟩ := hk k
  have hold := hI.apart k
  simp only [backlog, alarms, weight_add, hpast] at hpos ⊢
  simp only [Frame.past, Frame.looking] at hold
  omega

theorem Heard.registry {o : Outcome (TaskQueues ℕ) (Frame ℕ PumpFrame)} (hI : Heard s (f ::ₘ R))
    (h : registryStep Pump s.toTaskQueues f = some o) :
    Heard ⟨o.shared, s.mem⟩ (o.frames + R) := by
  obtain ⟨hpumped, hcalm, hcore, hk⟩ :=
    registryStep_heard h (hI.calm f (Multiset.mem_cons_self f R)) hI.pumped
  refine ⟨hpumped, hI.rest hcalm, fun k hpos => ?_⟩
  obtain ⟨ht, hl, hp⟩ := hk k
  have hold := hI.apart k
  simp only [backlog, alarms, weight_add, hcore] at hpos ⊢
  omega

theorem Heard.core {o : Outcome (Core ℕ) (Frame ℕ PumpFrame)} {x : Option PumpChoice}
    (hI : Heard s (f ::ₘ R)) (hg : looksInTime s R f x)
    (h : coreStep Pump.body s.toCore f = some o) :
    Heard ⟨{ s.toTaskQueues with toCore := o.shared }, s.mem⟩ (o.frames + R) := by
  have hf := hI.calm f (Multiset.mem_cons_self f R)
  have hcore := coreStep_inv h
  refine ⟨coreStep_pumped hcore hf hI.pumped, hI.rest (coreStep_calm hcore hf), fun k hpos => ?_⟩
  have hold := hI.apart k
  have hback := coreStep_backlog k hcore hf hI.pumped
  have ht := coreStep_telling k hcore
  simp only [backlog, alarms, weight_add] at hpos ⊢
  rcases coreStep_looking k.half h hI.pumped with hl | ⟨hzero, hpast, hlast⟩
  · omega
  · have htime := hg.at k hlast
    have hnew := hpast k
    unfold alarms at htime
    omega

theorem Heard.step {x : Option PumpChoice} {o : Outcome (World Pump) (Frame ℕ PumpFrame)}
    (hI : Heard s (f ::ₘ R)) (hg : looksInTime s R f x) (h : (machine Pump).step s f x = some o) :
    Heard o.shared (o.frames + R) := by
  by_cases hf : ∃ g, f = .client g
  · obtain ⟨g, rfl⟩ := hf
    cases x with
    | none => simp [machine] at h
    | some choice =>
      simp only [machine, Option.bind_eq_bind, Option.bind_eq_some_iff, Option.some.injEq] at h
      obtain ⟨r, hr, t, ht, rfl⟩ := h
      exact hI.client hr ht
  · obtain ⟨q, hq, rfl⟩ := (step_queue fun g he => hf ⟨g, he⟩).mp h
    unfold queueStep at hq
    split at hq
    · rename_i hreg
      cases hq
      exact hI.registry hreg
    · obtain ⟨b, hb, rfl⟩ := Option.map_eq_some_iff.mp hq
      exact hI.core hg hb

end Steps

theorem Pump.heard {work completion : DispatchMode} {pool n : ℕ}
    {c : Config (World Pump) (Frame ℕ PumpFrame)}
    (h : (machine Pump).Reaches looksInTime (Pump.start pool work completion n) c) :
    Heard c.shared c.frames := by
  refine h.preserved (I := Heard) ?_ fun s f R x o hg hI hs => hI.step hg hs
  have hpumped : Pumped (monitored pool work completion) := by
    refine ⟨⟨_, rfl, rfl, rfl, List.cons_ne_nil _ _⟩, ?_, ?_, ?_⟩
    · intro i context hi
      match i, hi with
      | 0, rfl => rfl
      | 1, rfl => rfl
    · intro p port hp
      match p, hp with
      | 0, rfl => rfl
      | 1, rfl => rfl
    · intro p port hp
      match p, hp with
      | 0, rfl => exact List.Pairwise.nil
      | 1, rfl => exact List.Pairwise.nil
  have hframes : (Pump.start pool work completion n).frames =
      ↑(Frame.clock (κ := ℕ) :: Frame.client PumpFrame.pump ::
        List.replicate n (Frame.client PumpFrame.submitter)) := by
    simp [Config.frames, Pump.start, List.flatten_replicate_singleton]
  have hzero : ∀ k, backlog k (Pump.start pool work completion n).shared.toCore
      (Pump.start pool work completion n).frames = 0 := by
    intro k
    rw [hframes]
    cases k <;> simp [backlog, undelayed, weight, Frame.past] <;> rfl
  refine ⟨hpumped, ?_, fun k hpos => ?_⟩
  · rw [hframes]
    refine List.forall_mem_cons.mpr ⟨trivial, List.forall_mem_cons.mpr ⟨trivial, ?_⟩⟩
    intro f hf
    rw [List.eq_of_mem_replicate hf]
    trivial
  · rw [hzero k] at hpos
    cases hpos

/-- A submission in progress, a monitor being called, or a dispatch that has yet to look. -/
def Frame.busy : Frame ℕ PumpFrame → Bool
  | .notify _ | .notifying .. | .submitContext .. | .submitDue .. | .submitPort .. | .dispatch _
  | .dispatchWait .. | .drainReady _ | .client (.monitor _) => true
  | _ => false

/-- No submission is in progress, and every notification has been answered by a dispatch. -/
structure Quiescent (c : Config (World Pump) (Frame ℕ PumpFrame)) : Prop where
  answered : ∀ k, c.shared.mem.outstanding k = 0
  threads : ∀ stack ∈ c.threads, ∀ f ∈ stack, f.busy = false

theorem Quiescent.alarms {c : Config (World Pump) (Frame ℕ PumpFrame)} (h : Quiescent c)
    (k : PortKind) : alarms k c.shared.mem c.frames = 0 := by
  have hidle : ∀ f ∈ c.frames, f.busy = false := by
    intro f hf
    obtain ⟨stack, hs, hm⟩ := List.mem_flatten.mp (Multiset.mem_coe.mp hf)
    exact h.threads stack hs f hm
  have htell : weight (Frame.telling k) c.frames = 0 := by
    refine weight_eq_zero _ fun f hf => ?_
    have hb := hidle f hf
    cases f with
    | client g => cases g <;> first | rfl | cases hb
    | _ => rfl
  have hlook : weight (Frame.looking k.half) c.frames = 0 := by
    refine weight_eq_zero _ fun f hf => ?_
    have hb := hidle f hf
    cases f <;> first | rfl | cases hb
  rw [TaskQueue.alarms, h.answered k, htell, hlook]

/-- In every run in which each dispatch looks in time, a state in which the pump has nothing left
to do has no undelayed callback queued. -/
theorem monitors_lose_no_wakeup {work completion : DispatchMode} {pool n p : ℕ} {k : PortKind}
    {c : Config (World Pump) (Frame ℕ PumpFrame)} {port : Port ℕ}
    (h : (machine Pump).Reaches looksInTime (Pump.start pool work completion n) c) (hq : Quiescent c)
    (hp : c.shared.portOf 0 k = some p) (hport : c.shared.ports[p]? = some port) :
    ∀ task ∈ port.state.tasks, task.due ≠ none := by
  have hI := Pump.heard h
  have hk := hI.heard k
  rw [hq.alarms k] at hk
  have hzero : undelayed k.half c.shared.toCore = 0 := by
    have hle : undelayed k.half c.shared.toCore ≤ backlog k c.shared.toCore c.frames :=
      Nat.le_add_right _ _
    omega
  obtain rfl := hI.pumped.portOf hp
  rw [undelayed_at hport] at hzero
  intro task ht hn
  exact List.countP_eq_zero.mp hzero task ht (Option.isNone_iff_eq_none.mpr hn)

section Schedules

/-- `n` steps of a thread whose choices do not matter. -/
def Pump.steps (thread n : ℕ) : List (ℕ × Option PumpChoice) :=
  List.replicate n (thread, some .finish)

/-- What a schedule looks at in the end: nothing is in progress, and the work port is manual and
holds the callbacks that `queued` accepts. -/
def Pump.restsWith (queued : List (Task ℕ) → Bool) (c : Config (World Pump) (Frame ℕ PumpFrame)) :
    Bool :=
  decide (c.shared.mem.outstanding .work = 0 ∧ c.shared.mem.outstanding .completion = 0) &&
    (c.threads.all fun stack => stack.all fun f => !f.busy) &&
    decide (c.shared.portOf 0 .work = some 0) &&
    (c.shared.ports[0]?).any fun port => decide (port.mode = .manual) && queued port.state.tasks

theorem Pump.restsWith_spec {queued : List (Task ℕ) → Bool}
    {c : Config (World Pump) (Frame ℕ PumpFrame)} (h : Pump.restsWith queued c = true) :
    Quiescent c ∧ c.shared.portOf 0 .work = some 0 ∧
      ∃ port : Port ℕ, c.shared.ports[0]? = some port ∧ port.mode = .manual ∧
        queued port.state.tasks = true := by
  simp only [restsWith, Bool.and_eq_true, decide_eq_true_eq] at h
  obtain ⟨⟨⟨⟨hw, hc⟩, hthreads⟩, hp⟩, hport⟩ := h
  obtain ⟨port, hport, hq⟩ := (Option.any_eq_true _ _).mp hport
  simp only [Bool.and_eq_true, decide_eq_true_eq] at hq
  refine ⟨⟨fun k => ?_, fun stack hs f hf => ?_⟩, hp, port, hport, hq.1, hq.2⟩
  · cases k with
    | work => exact hw
    | completion => exact hc
  · have hb := List.all_eq_true.mp (List.all_eq_true.mp hthreads stack hs) f hf
    simpa using hb

/-- A submission that has inserted its callback before the pump looks. -/
theorem monitors_lose_no_wakeup_one : ∃ c port,
    (machine Pump).Reaches looksInTime (Pump.start 2 .manual .manual 1) c ∧ Quiescent c ∧
      c.shared.ports[0]? = some port ∧ port.mode = .manual ∧
      ∀ task ∈ port.state.tasks, task.due ≠ none := by
  have h : ((machine Pump).run looksInTime
      ((2, some (.submit .work 0 7)) :: Pump.steps 2 7 ++ (1, some (.answer .work)) ::
        Pump.steps 1 7)
      (Pump.start 2 .manual .manual 1)).any (Pump.restsWith fun _ => true) = true := by
    decide +kernel
  obtain ⟨c, hr, hc⟩ := Machine.Reaches.of_run_any h
  obtain ⟨hq, hp, port, hport, hm, -⟩ := Pump.restsWith_spec hc
  exact ⟨c, port, hr, hq, hport, hm, monitors_lose_no_wakeup hr hq hp hport⟩

/-- The pump answers the notification before the callback it is about has been inserted. -/
theorem monitors_lose_wakeup : ∃ c port,
    (machine Pump).Reaches anyStep (Pump.start 2 .manual .manual 1) c ∧ Quiescent c ∧
      c.shared.portOf 0 .work = some 0 ∧ c.shared.ports[0]? = some port ∧ port.mode = .manual ∧
      ∃ task ∈ port.state.tasks, task.due = none := by
  have h : ((machine Pump).run anyStep
      ((2, some (.submit .work 0 7)) :: Pump.steps 2 3 ++ (1, some (.answer .work)) ::
        Pump.steps 1 2 ++ Pump.steps 2 4)
      (Pump.start 2 .manual .manual 1)).any
        (Pump.restsWith fun tasks => tasks.any (·.due.isNone)) = true := by
    decide +kernel
  obtain ⟨c, hr, hc⟩ := Machine.Reaches.of_run_any h
  obtain ⟨hq, hp, port, hport, hm, htasks⟩ := Pump.restsWith_spec hc
  obtain ⟨task, ht, hn⟩ := List.any_eq_true.mp htasks
  exact ⟨c, port, hr, hq, hp, hport, hm, task, ht, Option.isNone_iff_eq_none.mp hn⟩

end Schedules

end XGameRuntime.TaskQueue
