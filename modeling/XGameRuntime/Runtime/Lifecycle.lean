import XGameRuntime.Results
import XGameRuntime.TaskQueue.Api
import XGameRuntime.TaskQueue.Load
import XGameRuntime.TaskQueue.Names
import XGameRuntime.TaskQueue.ProcessQueue

/-! # Initialization and its undoing

`initialize` and `uninitialize` of `src/lib.rs`, called by any number of threads while others use task
queues. The count of initializations is locked for the whole of a call, so whoever is first installs
the process queue before anyone else's call returns, and whoever is last takes it away.
-/

namespace XGameRuntime.Runtime
open Concurrency TaskQueue
set_option autoImplicit false

/-! ## The calls -/

inductive RemoteConnectHandlers where
  | runtime
  | game (id : ℕ)
  deriving DecidableEq, Repr

/-- What has happened, latest first. -/
inductive Event where
  /-- `initialize` has counted itself. -/
  | entered
  /-- `initialize` has returned, with what is installed then. -/
  | initialized (queue : Option ℕ) (handlers : Option RemoteConnectHandlers)
  /-- `uninitialize` has counted itself out. -/
  | left
  /-- `uninitialize` has returned `E_NOTIMPL`. -/
  | refused
  /-- The process queue has been set by the game, or made on first use. -/
  | foreign
  deriving DecidableEq, Repr

structure Memory where
  /-- `INIT_REF_COUNT`, and whether a call holds its lock from one section to the next. -/
  initRefCount : ℕ := 0
  locked : Bool := false
  handlers : Option RemoteConnectHandlers := none
  log : List Event := []
  deriving DecidableEq, Repr

def Memory.record (m : Memory) (e : Event) : Memory := { m with log := e :: m.log }

/-- `default_process_queue` makes the process queue if there is none. -/
def Memory.defaultProcessQueue (m : Memory) (s : Registry) : Memory :=
  if s.processQueue.isSome then m else m.record .foreign

inductive Code where
  | game
  /-- `XTaskQueueGetCurrentProcessTaskQueue`, once it has seen that there is a process queue. -/
  | processQueue
  /-- The first `initialize`, about to ask whether there is a process queue. -/
  | hasProcessQueue
  | install
  | setHandlers
  /-- The last `uninitialize`. -/
  | uninstall
  deriving DecidableEq, Repr

/-- Between the sections of a call that keeps the count locked. -/
def Code.locks : Code → Bool
  | .game | .processQueue => false
  | .hasProcessQueue | .install | .setHandlers | .uninstall => true

inductive Choice where
  | call (c : QueueCall ℕ Unit)
  | initializeApiImpl
  | uninitializeApiImpl
  /-- `XUserPlatformRemoteConnectSetEventHandlers`. -/
  | setEventHandlers (id : ℕ)
  /-- `process_queue_handle`, for a block that names no queue. -/
  | nullQueue
  | thread
  | finish
  deriving Repr

/-- `initialize`, up to what the first call goes on to do. -/
def Memory.initializeApiImpl (m : Memory) (s : Registry) : Memory × List Code :=
  let m := { m with initRefCount := m.initRefCount + 1 }.record .entered
  if m.initRefCount > 1 then (m.record (.initialized s.processQueue m.handlers), [])
  else ({ m with locked := true }, [.hasProcessQueue])

/-- `uninitialize`, up to what the last call goes on to do. -/
def Memory.uninitializeApiImpl (m : Memory) : Memory × List Code :=
  if m.initRefCount = 0 then (m.record .refused, [])
  else
    let m := { m with initRefCount := m.initRefCount - 1 }.record .left
    if m.initRefCount = 0 then ({ m with locked := true }, [.uninstall]) else (m, [])

theorem Memory.initializeApiImpl_first {m : Memory} (h : m.initRefCount = 0) (s : Registry) :
    m.initializeApiImpl s =
      ({ m.record .entered with initRefCount := 1, locked := true }, [.hasProcessQueue]) := by
  unfold Memory.initializeApiImpl
  rw [h]
  rfl

theorem Memory.initializeApiImpl_again {m : Memory} (h : 0 < m.initRefCount) (s : Registry) :
    m.initializeApiImpl s =
      (({ m with initRefCount := m.initRefCount + 1 }.record .entered).record
        (.initialized s.processQueue m.handlers), []) :=
  if_pos (Nat.succ_lt_succ h)

theorem Memory.uninitializeApiImpl_last {m : Memory} (h : m.initRefCount = 1) :
    m.uninitializeApiImpl =
      ({ m.record .left with initRefCount := 0, locked := true }, [.uninstall]) := by
  unfold Memory.uninitializeApiImpl
  rw [h]
  rfl

theorem Memory.uninitializeApiImpl_other {m : Memory} (h : 1 < m.initRefCount) :
    m.uninitializeApiImpl = ({ m with initRefCount := m.initRefCount - 1 }.record .left, []) := by
  have hne : m.initRefCount ≠ 0 := by omega
  have hne' : m.initRefCount - 1 ≠ 0 := by omega
  exact (if_neg hne).trans (if_neg hne')

/-- What comes of a call that waits for the lock. -/
def locking (m : Memory) (r : Memory × List Code) : Option (ClientStep ℕ Memory Code) :=
  if m.locked then none else some { mem := r.1, run := (r.2 ++ [Code.game]).map .frame }

/-- A queue call. Only one of them sets the process queue. -/
def queueCall (m : Memory) (s : TaskQueues ℕ) (c : QueueCall ℕ Unit) :
    ClientStep ℕ Memory Code :=
  let r := (c.map id fun _ => Code.game).perform s (fun _ => []) [.processQueue]
  let m := match c with
    | .setCurrentProcessTaskQueue _ => m.record .foreign
    | _ => m
  { mem := m, admin := r.admin, run := r.run ++ [.frame .game], spawn := r.spawn }

def gameStep (m : Memory) (s : TaskQueues ℕ) : Choice → Option (ClientStep ℕ Memory Code)
  | .call c => some (queueCall m s c)
  | .initializeApiImpl => locking m (m.initializeApiImpl s.toRegistry)
  | .uninitializeApiImpl => locking m m.uninitializeApiImpl
  | .setEventHandlers id =>
      some { mem := { m with handlers := some (.game id) }, run := [.frame .game] }
  | .nullQueue =>
      some { mem := m.defaultProcessQueue s.toRegistry, admin := [.processQueueHandle]
             run := [.frame .game] }
  | .thread => some { mem := m, run := [.frame .game], spawn := [[.frame .game]] }
  | .finish => some { mem := m }

def hostStep (m : Memory) (s : TaskQueues ℕ) : Code → Choice → Option (ClientStep ℕ Memory Code)
  | .game, choice => gameStep m s choice
  | .processQueue, _ =>
      let r := createProcessQueueHandle s fun _ => []
      some { mem := m.defaultProcessQueue s.toRegistry, admin := r.admin, run := r.run }
  | .hasProcessQueue, _ =>
      some { mem := m, run := [.frame (if s.processQueue.isSome then .setHandlers else .install)] }
  | .install, _ =>
      some { mem := m
             admin := [.newQueue .threadPool .threadPool, .setProcessQueue (some s.queues.length)]
             run := [.frame .setHandlers] }
  | .setHandlers, _ =>
      let m := { m with handlers := some RemoteConnectHandlers.runtime, locked := false }
      some { mem := m.record (.initialized s.processQueue m.handlers) }
  | .uninstall, _ => some { mem := { m with locked := false }, admin := [.setProcessQueue none] }

/-- The process that hosts the runtime: its threads, callbacks and monitors may call anything. -/
def Host : Client ℕ where
  Mem := Memory
  Frame := Code
  Choice := Choice
  body _ _ := [.game]
  monitor _ _ _ := [.game]
  step := hostStep

/-- A process with `n` threads, before any call. -/
def start (pool n : ℕ) : Config (World Host) (Frame ℕ Code) where
  shared := { pool := pool, mem := ({} : Memory) }
  threads := [.clock] :: List.replicate n [.client .game]

/-- The game takes the process queue away from nobody: the queue it sets is one it has a handle to. -/
def Choice.setsQueue (s : Registry) : Choice → Bool
  | .call (.setCurrentProcessTaskQueue queue) => (s.queueHandles.get queue).isSome
  | _ => true

abbrev setsQueues : Guard (World Host) (Frame ℕ Code) (Option Choice) :=
  fun s _ _ x => x.all (Choice.setsQueue s.toRegistry) = true

theorem start_initial (pool n : ℕ) : Initial Host (start pool n) := by
  refine ⟨⟨pool, 0, rfl⟩, fun f hf => ?_⟩
  obtain ⟨k, hk, hfk⟩ := List.mem_flatten.mp (Multiset.mem_coe.mp hf)
  rcases List.mem_cons.mp hk with rfl | hk
  · exact .inl (List.mem_singleton.mp hfk)
  · rw [List.eq_of_mem_replicate hk] at hfk
    exact .inr ⟨.game, List.mem_singleton.mp hfk⟩

/-! ## Clients and the process queue -/

section Clients
variable {κ : Type} {s t : TaskQueues κ}

/-- The operations that touch the slot of the process queue. -/
def setsProcessQueue : Admin → Bool
  | .setProcessQueue _ | .defaultProcessQueue | .processQueueHandle => true
  | _ => false

theorem admin_processQueue {a : Admin} (h : a.apply s = some t) (ha : setsProcessQueue a = false) :
    t.processQueue = s.processQueue := by
  cases a with
  | newQueue work completion => exact (newQueue_registry h).2.1
  | composite work completion => exact (composite_registry h).2.1
  | createQueueHandle | closeQueueHandle | createPortHandle =>
    cases h
    rfl
  | registerMonitor | unregisterMonitor =>
    simp only [Admin.apply, TaskQueues.registerMonitor, TaskQueues.unregisterMonitor,
      Option.bind_eq_bind, Option.bind_eq_some_iff] at h
    obtain ⟨q, hq, h⟩ := h
    split at h
    · cases h
    · cases h
      rfl
  | setProcessQueue | defaultProcessQueue | processQueueHandle => cases ha

theorem applyAll_processQueue {as : List Admin} (h : Admin.applyAll s as = some t)
    (ha : ∀ a ∈ as, setsProcessQueue a = false) : t.processQueue = s.processQueue := by
  induction as generalizing s with
  | nil =>
    cases h
    rfl
  | cons a as ih =>
    obtain ⟨u, hu, hr⟩ := Option.bind_eq_some_iff.mp h
    obtain ⟨hfirst, hrest⟩ := List.forall_mem_cons.mp ha
    exact (ih hr hrest).trans (admin_processQueue hu hfirst)

/-- Only one call touches the slot. -/
theorem perform_keeps {γ : Type} {ret : ℕ → List γ} {seen : List γ} (c : QueueCall κ γ)
    (hc : ∀ queue, c ≠ .setCurrentProcessTaskQueue queue) :
    ∀ a ∈ (c.perform s ret seen).admin, setsProcessQueue a = false := by
  cases c with
  | setCurrentProcessTaskQueue queue => exact absurd rfl (hc queue)
  | _ =>
    simp only [QueueCall.perform]
    repeat' split
    all_goals simp [setsProcessQueue]

theorem client_admin {C : Client κ} {s : World C} {g : C.Frame} {choice : C.Choice}
    {o : Outcome (World C) (Frame κ C.Frame)} {r : ClientStep κ C.Mem C.Frame}
    (h : (machine C).step s (.client g) (some choice) = some o)
    (hr : C.step s.mem s.toTaskQueues g choice = some r) :
    Admin.applyAll s.toTaskQueues r.admin = some o.shared.toTaskQueues := by
  simp only [machine, Option.bind_eq_bind, Option.bind_eq_some_iff, Option.some.injEq] at h
  obtain ⟨r', hr', t, ht, rfl⟩ := h
  rw [hr, Option.some.injEq] at hr'
  subst hr'
  exact ht

theorem defaultProcessQueue_processQueue {q : ℕ} (h : s.defaultProcessQueue = some (q, t))
    (hsome : s.processQueue.isSome = true) : t.processQueue = s.processQueue := by
  obtain ⟨-, hq, hsame, -⟩ := defaultProcessQueue_registry h
  obtain ⟨p, hp⟩ := Option.isSome_iff_exists.mp hsome
  rw [hq, hp, hsame p hp]

theorem processQueueHandle_processQueue {handle : ℕ} (h : s.getProcessQueueHandle = some (handle, t))
    (hsome : s.processQueue.isSome = true) : t.processQueue = s.processQueue := by
  unfold TaskQueues.getProcessQueueHandle at h
  split at h
  · cases h
    rfl
  · simp only [Option.bind_eq_bind, Option.bind_eq_some_iff] at h
    obtain ⟨⟨q, u⟩, hu, h⟩ := h
    cases h
    have hkeep := defaultProcessQueue_processQueue hu hsome
    exact hkeep

end Clients

/-! ## The invariant -/

/-- How many threads are at a place of a call. -/
def stage (c : Code) : Load ℕ Code where
  callback _ := 0
  code g := if g.locks ∧ g = c then 1 else 0

theorem stage_fits (c : Code) : (stage c).Fits Host.body Host.monitor := by
  have hgame : (stage c).run [.game] = 0 := by cases c <;> rfl
  exact ⟨fun _ _ => Nat.le_of_eq hgame, fun _ _ _ => hgame⟩

/-- The count is what the log says, one call at a time is between its sections, and outside such calls
the process queue is installed while anybody has initialized. -/
structure Sound (m : Memory) (queue : Option ℕ) (L : Code → ℕ) : Prop where
  mutex : L .hasProcessQueue + L .install + L .setHandlers + L .uninstall ≤ if m.locked then 1 else 0
  count : m.initRefCount + m.log.count .left = m.log.count .entered
  matched : ∀ earlier, (.left :: earlier) <:+ m.log → earlier.count .left < earlier.count .entered
  refused : ∀ earlier, (.refused :: earlier) <:+ m.log →
    earlier.count .left = earlier.count .entered
  initialized : ∀ q h, .initialized q h ∈ m.log → q.isSome = true ∧ h.isSome = true
  first : 0 < L .hasProcessQueue + L .install → m.initRefCount = 1
  made : 0 < L .setHandlers → m.initRefCount = 1 ∧ queue.isSome = true
  last : 0 < L .uninstall → m.initRefCount = 0
  installed : m.locked = false → 0 < m.initRefCount →
    queue.isSome = true ∧ m.handlers.isSome = true
  absent : .foreign ∉ m.log → m.locked = false → m.initRefCount = 0 → queue = none

/-- Nobody is between the sections of a call. -/
def Vacant (L : Code → ℕ) : Prop :=
  L .hasProcessQueue = 0 ∧ L .install = 0 ∧ L .setHandlers = 0 ∧ L .uninstall = 0

section Rules
variable {m : Memory} {queue queue' : Option ℕ} {L L' : Code → ℕ}

theorem Sound.mono (h : Sound m queue L) (hL : ∀ c, L' c ≤ L c) : Sound m queue L' := by
  have h1 := hL .hasProcessQueue
  have h2 := hL .install
  have h3 := hL .setHandlers
  have h4 := hL .uninstall
  have hm := h.mutex
  exact { h with
    mutex := by omega
    first := fun hf => h.first (by omega)
    made := fun hf => h.made (by omega)
    last := fun hf => h.last (by omega) }

/-- A log that grows by an event which is neither counted nor a return. -/
theorem suffix_of_other {e e' : Event} {log earlier : List Event}
    (h : (e :: earlier) <:+ e' :: log) (he : e' ≠ e) : (e :: earlier) <:+ log := by
  rcases List.suffix_cons_iff.mp h with heq | hold
  · exact absurd (List.cons.inj heq).1.symm he
  · exact hold

/-- The game sets the process queue, or a block that names none makes it. -/
theorem Sound.foreign (h : Sound m queue L) (hq : queue.isSome = true → queue'.isSome = true) :
    Sound (m.record .foreign) queue' L where
  mutex := h.mutex
  count := by
    have hcount := h.count
    simpa [Memory.record] using hcount
  matched earlier hs := h.matched earlier (suffix_of_other hs (by decide))
  refused earlier hs := h.refused earlier (suffix_of_other hs (by decide))
  initialized q handlers hm := by
    rcases List.mem_cons.mp hm with he | hm
    · cases he
    · exact h.initialized q handlers hm
  first := h.first
  made hf := ⟨(h.made hf).1, hq (h.made hf).2⟩
  last := h.last
  installed hl hc := ⟨hq (h.installed hl hc).1, (h.installed hl hc).2⟩
  absent hf := absurd List.mem_cons_self hf

/-- The process queue is made for whoever has found none. -/
theorem Sound.defaultProcessQueue (h : Sound m queue L) {s : Registry} (hs : s.processQueue = queue)
    (hq : queue.isSome = true → queue' = queue) :
    Sound (m.defaultProcessQueue s) queue' L := by
  unfold Memory.defaultProcessQueue
  rw [hs]
  split
  · rename_i hsome
    rw [hq hsome]
    exact h
  · rename_i hnone
    exact h.foreign fun hsome => absurd hsome hnone

/-- Nobody is between the sections of a call while the lock is free. -/
theorem Sound.free (h : Sound m queue L) (hl : m.locked = false) : Vacant L := by
  have hm := h.mutex
  rw [hl, if_neg Bool.false_ne_true] at hm
  exact ⟨by omega, by omega, by omega, by omega⟩

/-- An event that is not a return of `initialize` leaves alone what those have found. -/
theorem Sound.returned (h : Sound m queue L) {e : Event} (he : ∀ q handlers, e ≠ .initialized q handlers)
    (q : Option ℕ) (handlers : Option RemoteConnectHandlers)
    (hm : .initialized q handlers ∈ e :: m.log) : q.isSome = true ∧ handlers.isSome = true :=
  h.initialized q handlers ((List.mem_cons.mp hm).resolve_left fun heq => he q handlers heq.symm)

theorem Sound.initializeApiImpl (h : Sound m queue L) (hl : m.locked = false) {s : Registry}
    (hs : s.processQueue = queue) :
    Sound (m.initializeApiImpl s).1 queue fun c => L c + (stage c).run (m.initializeApiImpl s).2 := by
  have hfree := h.free hl
  rw [Vacant] at hfree
  have hcount := h.count
  by_cases hzero : m.initRefCount = 0
  · rw [Memory.initializeApiImpl_first hzero]
    refine ⟨?_, ?_, fun earlier hs => h.matched earlier (suffix_of_other hs (by decide)),
      fun earlier hs => h.refused earlier (suffix_of_other hs (by decide)), h.returned (by simp),
      fun _ => rfl, fun hf => ?_, fun hf => ?_, fun hl => Bool.noConfusion hl,
      fun _ hl => Bool.noConfusion hl⟩
    · simp [hfree, stage, Code.locks, Load.run]
    · simp only [Memory.record, List.count_cons, beq_iff_eq, reduceCtorEq, if_false, if_true]
      omega
    · simp [hfree, stage, Code.locks, Load.run] at hf
    · simp [hfree, stage, Code.locks, Load.run] at hf
  · have hpos := Nat.pos_of_ne_zero hzero
    have hinstalled := h.installed hl hpos
    rw [Memory.initializeApiImpl_again hpos]
    refine ⟨h.mutex, ?_, fun earlier hs => ?_, fun earlier hs => ?_, fun q handlers hm => ?_,
      fun hf => ?_, fun hf => ?_, fun hf => ?_, fun _ _ => hinstalled, fun _ _ hz => Nat.noConfusion hz⟩
    · simp only [Memory.record, List.count_cons, beq_iff_eq, reduceCtorEq, if_false, if_true]
      omega
    · exact h.matched earlier (suffix_of_other (suffix_of_other hs (by simp)) (by simp))
    · exact h.refused earlier (suffix_of_other (suffix_of_other hs (by simp)) (by simp))
    · rcases List.mem_cons.mp hm with he | hm
      · cases he
        exact hs ▸ hinstalled
      · exact h.returned (by simp) q handlers hm
    all_goals simp [hfree] at hf

theorem Sound.uninitializeApiImpl (h : Sound m queue L) (hl : m.locked = false) :
    Sound m.uninitializeApiImpl.1 queue fun c => L c + (stage c).run m.uninitializeApiImpl.2 := by
  have hfree := h.free hl
  rw [Vacant] at hfree
  have hcount := h.count
  by_cases hzero : m.initRefCount = 0
  · have hrefused : m.uninitializeApiImpl = (m.record .refused, []) := if_pos hzero
    rw [hrefused]
    refine ⟨h.mutex, ?_, fun earlier hs => h.matched earlier (suffix_of_other hs (by decide)),
      fun earlier hs => ?_, h.returned (by simp), h.first, h.made, h.last, h.installed,
      fun hf => h.absent fun hm => hf (List.mem_cons_of_mem _ hm)⟩
    · simpa [Memory.record] using hcount
    · rcases List.suffix_cons_iff.mp hs with heq | hold
      · rw [(List.cons.inj heq).2]
        omega
      · exact h.refused earlier hold
  · have hpos := Nat.pos_of_ne_zero hzero
    have hinstalled := h.installed hl hpos
    have hmatched : ∀ earlier, (.left :: earlier) <:+ .left :: m.log →
        earlier.count .left < earlier.count .entered := by
      intro earlier hs
      rcases List.suffix_cons_iff.mp hs with heq | hold
      · rw [(List.cons.inj heq).2]
        omega
      · exact h.matched earlier hold
    have hrefused : ∀ earlier, (.refused :: earlier) <:+ .left :: m.log →
        earlier.count .left = earlier.count .entered :=
      fun earlier hs => h.refused earlier (suffix_of_other hs (by decide))
    by_cases hone : m.initRefCount = 1
    · rw [Memory.uninitializeApiImpl_last hone]
      refine ⟨?_, ?_, hmatched, hrefused, h.returned (by simp), fun hf => ?_, fun hf => ?_,
        fun _ => rfl, fun hl => Bool.noConfusion hl, fun _ hl => Bool.noConfusion hl⟩
      · simp [hfree, stage, Code.locks, Load.run]
      · simp only [Memory.record, List.count_cons, beq_iff_eq, reduceCtorEq, if_false, if_true]
        omega
      · simp [hfree, stage, Code.locks, Load.run] at hf
      · simp [hfree, stage, Code.locks, Load.run] at hf
    · have hmore : m.initRefCount - 1 ≠ 0 := by omega
      rw [Memory.uninitializeApiImpl_other (by omega)]
      refine ⟨h.mutex, ?_, hmatched, hrefused, h.returned (by simp), fun hf => ?_, fun hf => ?_,
        fun hf => ?_, fun _ _ => hinstalled, fun _ _ hz => absurd hz hmore⟩
      · simp only [Memory.record, List.count_cons, beq_iff_eq, reduceCtorEq, if_false, if_true]
        omega
      all_goals simp [hfree] at hf

/-- Whoever is between the sections of a call is the only one, and has the lock. -/
theorem Sound.alone {g : Code} (h : Sound m queue fun c => L c + (stage c).code g)
    (hg : g.locks = true) : m.locked = true ∧ Vacant L := by
  have hm := h.mutex
  have hone : 1 ≤ (stage .hasProcessQueue).code g + (stage .install).code g +
      (stage .setHandlers).code g + (stage .uninstall).code g := by
    cases g with
    | game | processQueue => cases hg
    | _ => simp [stage, Code.locks]
  cases hl : m.locked with
  | false =>
    rw [hl, if_neg Bool.false_ne_true] at hm
    omega
  | true =>
    rw [hl, if_pos rfl] at hm
    exact ⟨rfl, by omega, by omega, by omega, by omega⟩

theorem Sound.looks (h : Sound m queue fun c => L c + (stage c).code .hasProcessQueue) :
    Sound m queue fun c =>
      L c + (stage c).run [if queue.isSome then .setHandlers else .install] := by
  obtain ⟨hl, hfree⟩ := h.alone rfl
  rw [Vacant] at hfree
  have hone : m.initRefCount = 1 := h.first (by simp [stage, Code.locks])
  refine { h with mutex := ?_, first := fun _ => hone, made := fun hf => ⟨hone, ?_⟩,
                  last := fun hf => ?_ }
  · rw [hl]
    split <;> simp [hfree, stage, Code.locks, Load.run]
  · by_contra hq
    simp [hfree, stage, Code.locks, Load.run, hq] at hf
  · split at hf <;> simp [hfree, stage, Code.locks, Load.run] at hf

theorem Sound.install (h : Sound m queue fun c => L c + (stage c).code .install) (q : ℕ) :
    Sound m (some q) fun c => L c + (stage c).run [.setHandlers] := by
  obtain ⟨hl, hfree⟩ := h.alone rfl
  rw [Vacant] at hfree
  have hone : m.initRefCount = 1 := h.first (by simp [stage, Code.locks])
  refine { h with mutex := ?_, first := fun _ => hone, made := fun _ => ⟨hone, rfl⟩,
                  last := fun hf => ?_, installed := fun hl' => ?_, absent := fun _ hl' => ?_ }
  · simp [hl, hfree, stage, Code.locks, Load.run]
  · simp [hfree, stage, Code.locks, Load.run] at hf
  all_goals
    rw [hl] at hl'
    cases hl'

theorem Sound.setHandlers (h : Sound m queue fun c => L c + (stage c).code .setHandlers) :
    Sound ({ m with handlers := some .runtime, locked := false }.record
      (.initialized queue (some .runtime))) queue L := by
  obtain ⟨-, hfree⟩ := h.alone rfl
  rw [Vacant] at hfree
  obtain ⟨hone, hqueue⟩ := h.made (by simp [stage, Code.locks])
  have hcount := h.count
  refine ⟨?_, ?_, fun earlier hs => h.matched earlier (suffix_of_other hs (by simp)),
    fun earlier hs => h.refused earlier (suffix_of_other hs (by simp)), fun q handlers hm => ?_,
    fun _ => hone, fun _ => ⟨hone, hqueue⟩, fun hf => ?_, fun _ _ => ⟨hqueue, rfl⟩,
    fun _ _ hz => ?_⟩
  · simp [hfree]
  · simpa [Memory.record] using hcount
  · rcases List.mem_cons.mp hm with he | hm
    · cases he
      exact ⟨hqueue, rfl⟩
    · exact h.initialized q handlers hm
  · simp [hfree] at hf
  · rw [show m.initRefCount = 0 from hz] at hone
    cases hone

theorem Sound.uninstall (h : Sound m queue fun c => L c + (stage c).code .uninstall) :
    Sound { m with locked := false } none L := by
  obtain ⟨-, hfree⟩ := h.alone rfl
  rw [Vacant] at hfree
  have hzero : m.initRefCount = 0 := h.last (by simp [stage, Code.locks])
  refine { h with mutex := ?_, first := fun hf => ?_, made := fun hf => ?_, last := fun _ => hzero,
                  installed := fun _ hpos => ?_, absent := fun _ _ _ => rfl }
  · simp [hfree]
  · simp [hfree] at hf
  · simp [hfree] at hf
  · rw [show m.initRefCount = 0 from hzero] at hpos
    exact absurd hpos (Nat.lt_irrefl 0)

end Rules

/-! ## Steps -/

section Steps
variable {m : Memory} {s t : TaskQueues ℕ} {r : ClientStep ℕ Memory Code} {L : Code → ℕ}

theorem asked_frames {mem : Memory} {admin : List Admin} (c : Code) (fs : List Code) :
    (stage c).asked (⟨mem, admin, fs.map .frame, []⟩ : ClientStep ℕ Memory Code) =
      (stage c).run fs := by
  simp [Load.asked, Load.run, Load.instr, Function.comp_def]

/-- Code outside the sections of `initialize` and `uninitialize`. -/
theorem code_free {c g : Code} (hg : g.locks = false) : (stage c).code g = 0 :=
  if_neg fun h => by rw [hg] at h; exact Bool.noConfusion h.1

@[simp] theorem code_game (c : Code) : (stage c).code .game = 0 := code_free rfl

@[simp] theorem code_processQueue (c : Code) : (stage c).code .processQueue = 0 := code_free rfl

@[simp] theorem stage_callback (c : Code) (id : ℕ) : (stage c).callback id = 0 := rfl

@[simp] theorem run_game (c : Code) : (stage c).run [.game] = 0 := by
  simp [Load.run]

/-- A queue call runs code of the game only. -/
theorem asked_queueCall (c : Code) (call : QueueCall ℕ Unit) :
    (stage c).asked (queueCall m s call) = 0 := by
  cases call with
  | submitDelayedCallback queue port delayMs callback =>
    cases callback with
    | none => simp [queueCall, QueueCall.map, QueueCall.perform, Load.asked, Load.instr]
    | some id =>
      simp only [queueCall, QueueCall.map, Option.map_some, QueueCall.perform]
      split <;> simp [Load.asked, Load.instr, Load.submission]
  | terminate queue wait terminated =>
    simp only [queueCall, QueueCall.map, QueueCall.perform]
    have hrun : (stage c).run (List.replicate terminated.length Code.game) = 0 := by
      simp [Load.run]
    split
    · simp [Load.asked, Load.instr]
    · split <;> simp [Load.asked, Load.instr, hrun]
  | _ =>
    simp only [queueCall, QueueCall.map, QueueCall.perform]
    repeat' split
    all_goals simp [Load.asked, Load.instr, Load.dispatch]

theorem queueCall_sound (call : QueueCall ℕ Unit) (h : Sound m s.processQueue L)
    (hset : (Choice.call call).setsQueue s.toRegistry = true)
    (ht : Admin.applyAll s (queueCall m s call).admin = some t) :
    Sound (queueCall m s call).mem t.processQueue L := by
  by_cases hcall : ∃ queue, call = .setCurrentProcessTaskQueue queue
  · obtain ⟨queue, rfl⟩ := hcall
    refine h.foreign fun _ => ?_
    obtain ⟨q, hq⟩ := Option.isSome_iff_exists.mp hset
    have hslot : t = s.setProcessQueue (s.queueHandles.get queue) := (Option.some.inj ht).symm
    rw [hslot, hq]
    rfl
  · have hkeep : t.processQueue = s.processQueue := by
      refine applyAll_processQueue ht (perform_keeps _ fun queue hc => hcall ⟨queue, ?_⟩)
      cases call with
      | setCurrentProcessTaskQueue q => exact congrArg _ (by cases hc; rfl)
      | _ => cases hc
    have hmem : (queueCall m s call).mem = m := by
      cases call with
      | setCurrentProcessTaskQueue q => exact absurd ⟨q, rfl⟩ hcall
      | _ => rfl
    rw [hkeep, hmem]
    exact h

theorem hostStep_sound {g : Code} {choice : Choice}
    (h : Sound m s.processQueue fun c => L c + (stage c).code g)
    (hset : choice.setsQueue s.toRegistry = true) (hr : hostStep m s g choice = some r)
    (ht : Admin.applyAll s r.admin = some t) :
    Sound r.mem t.processQueue fun c => L c + (stage c).asked r := by
  cases g with
  | hasProcessQueue =>
    cases hr
    cases ht
    simp only [← List.map_singleton, asked_frames]
    exact h.looks
  | install =>
    cases hr
    obtain ⟨u, hu, ht⟩ := Option.bind_eq_some_iff.mp ht
    cases ht
    simp only [← List.map_singleton, asked_frames]
    exact h.install _
  | setHandlers =>
    cases hr
    cases ht
    exact h.setHandlers
  | uninstall =>
    cases hr
    cases ht
    exact h.uninstall
  | processQueue =>
    cases hr
    obtain ⟨u, hu, ht⟩ := Option.bind_eq_some_iff.mp ht
    cases ht
    obtain ⟨⟨q, v⟩, hv, rfl⟩ := Option.map_eq_some_iff.mp hu
    simp only [code_processQueue, Nat.add_zero] at h
    have hkeep := defaultProcessQueue_processQueue hv
    exact h.defaultProcessQueue rfl hkeep
  | game =>
    simp only [code_game, Nat.add_zero] at h
    have hlocking : ∀ {r' : Memory × List Code}, locking m r' = some r → m.locked = false ∧
        r = { mem := r'.1, run := (r'.2 ++ [Code.game]).map .frame } := by
      intro r' hr
      unfold locking at hr
      split at hr
      · cases hr
      · rename_i hfree
        exact ⟨by simpa using hfree, (Option.some.inj hr).symm⟩
    have hrun : ∀ c fs, (stage c).run (fs ++ [Code.game]) = (stage c).run fs := by
      intro c fs
      rw [Load.run, List.map_append, List.sum_append]
      exact Nat.add_eq_left.mpr (run_game c)
    cases choice with
    | call call =>
      cases hr
      simp only [asked_queueCall, Nat.add_zero]
      exact queueCall_sound call h hset ht
    | initializeApiImpl =>
      obtain ⟨hl, rfl⟩ := hlocking hr
      cases ht
      simp only [asked_frames, hrun]
      exact h.initializeApiImpl hl rfl
    | uninitializeApiImpl =>
      obtain ⟨hl, rfl⟩ := hlocking hr
      cases ht
      simp only [asked_frames, hrun]
      exact h.uninitializeApiImpl hl
    | setEventHandlers id =>
      cases hr
      cases ht
      simp only [← List.map_singleton, asked_frames, run_game, Nat.add_zero]
      exact { h with installed := fun hl hpos => ⟨(h.installed hl hpos).1, rfl⟩ }
    | nullQueue =>
      cases hr
      obtain ⟨u, hu, ht⟩ := Option.bind_eq_some_iff.mp ht
      cases ht
      obtain ⟨⟨handle, v⟩, hv, rfl⟩ := Option.map_eq_some_iff.mp hu
      simp only [← List.map_singleton, asked_frames, run_game, Nat.add_zero]
      exact h.defaultProcessQueue rfl (processQueueHandle_processQueue hv)
    | thread =>
      cases hr
      cases ht
      simpa [Load.asked, Load.instr] using h
    | finish =>
      cases hr
      cases ht
      simpa [Load.asked] using h

end Steps

/-! ## Runs -/

section Runs
variable {pool n : ℕ} {c : Config (World Host) (Frame ℕ Code)}

theorem reaches_sound (h : (machine Host).Reaches setsQueues (start pool n) c) :
    Sound c.shared.mem c.shared.processQueue fun code =>
      (stage code).total c.shared.toCore c.frames := by
  refine h.preserved (I := fun s fs =>
    Sound s.mem s.processQueue fun code => (stage code).total s.toCore fs) ?_ ?_
  · have hzero : ∀ code, (stage code).total (start pool n).shared.toCore (start pool n).frames = 0 := by
      intro code
      have hcore : (stage code).core (start pool n).shared.toCore = 0 := rfl
      rw [Load.total, hcore, Nat.zero_add]
      refine weight_eq_zero _ fun f hf => ?_
      obtain rfl | ⟨g, rfl⟩ := (start_initial pool n).threads f hf
      · rfl
      · obtain ⟨k, hk, hfk⟩ := List.mem_flatten.mp (Multiset.mem_coe.mp hf)
        rcases List.mem_cons.mp hk with rfl | hk
        · cases List.mem_singleton.mp hfk
        · rw [List.eq_of_mem_replicate hk] at hfk
          cases List.mem_singleton.mp hfk
          exact code_game code
    simp only [hzero]
    refine ⟨Nat.le_refl _, rfl, fun _ hs => ?_, fun _ hs => ?_, fun _ _ hm => ?_, fun hf => ?_,
      fun hf => ?_, fun _ => rfl, fun _ hpos => ?_, fun _ _ _ => rfl⟩
    · exact absurd (hs.subset List.mem_cons_self) List.not_mem_nil
    · exact absurd (hs.subset List.mem_cons_self) List.not_mem_nil
    · exact absurd hm List.not_mem_nil
    all_goals exact absurd ‹_› (Nat.lt_irrefl 0)
  · intro s f R x o hg hI hs
    cases f with
    | client g =>
      obtain ⟨choice, r, rfl, hr, hm, hl⟩ := client_step hs
      have hload : ∀ code, (stage code).total s.toCore (.client g ::ₘ R) =
          (stage code).total s.toCore R + (stage code).code g := by
        intro code
        simp only [Load.total, weight_cons, Load.frame]
        omega
      simp only [hload] at hI
      have hafter : Sound r.mem o.shared.processQueue _ :=
        hostStep_sound hI hg hr (client_admin hs hr)
      rw [← hm] at hafter
      exact hafter.mono fun code => Nat.le_of_eq (hl (stage code) R)
    | _ =>
      rcases step_client_or_queue hs with ⟨hm, hl⟩ | ⟨g, choice, r, hf, -⟩
      · rcases step_registry hs with hgrew | ⟨g, choice, r, hf, -⟩
        · rw [hm, hgrew.queue]
          exact hI.mono fun code => hl (stage code) (stage_fits code) R
        · cases hf
      · cases hf

/-- The process queue names a queue that exists. -/
theorem reaches_hostNamed (h : (machine Host).Reaches setsQueues (start pool n) c) :
    c.shared.toTaskQueues.Named := by
  refine reaches_named (start_initial pool n) (fun s g choice r t hr ht hn => ?_) h
  cases g with
  | hasProcessQueue | setHandlers =>
    cases hr
    cases ht
    exact hn
  | install =>
    cases hr
    obtain ⟨u, hu, ht⟩ := Option.bind_eq_some_iff.mp ht
    cases ht
    refine (hn.newQueue hu).setProcessQueue fun q hq => ?_
    cases hq
    have hlen := newQueue_queues hu
    omega
  | uninstall =>
    cases hr
    cases ht
    exact hn.setProcessQueue fun q hq => (by cases hq)
  | processQueue =>
    cases hr
    exact createProcessQueueHandle_named ht hn
  | game =>
    cases choice with
    | call call =>
      cases hr
      exact perform_named _ ht hn
    | initializeApiImpl | uninitializeApiImpl =>
      simp only [Host, hostStep, gameStep, locking] at hr
      split at hr
      · cases hr
      · cases hr
        cases ht
        exact hn
    | nullQueue =>
      cases hr
      exact applyAll_named ht hn fun a ha u _ => by
        rw [List.mem_singleton.mp ha]
        trivial
    | setEventHandlers | thread | finish =>
      cases hr
      cases ht
      exact hn

/-- Initializations are counted exactly: an `uninitialize` undoes one that is not undone yet, or is
refused because none is left. Every `initialize` returns with the process queue and the handlers for
remote connect in place, whoever made the first call, and they stay in place until the last
`uninitialize`; then the process queue is gone, unless others than the runtime have made one. -/
theorem initialization_exact (h : (machine Host).Reaches setsQueues (start pool n) c) :
    c.shared.mem.initRefCount + c.shared.mem.log.count .left = c.shared.mem.log.count .entered ∧
    (∀ earlier, (.left :: earlier) <:+ c.shared.mem.log →
      earlier.count .left < earlier.count .entered) ∧
    (∀ earlier, (.refused :: earlier) <:+ c.shared.mem.log →
      earlier.count .left = earlier.count .entered) ∧
    (∀ queue handlers, .initialized queue handlers ∈ c.shared.mem.log →
      queue.isSome = true ∧ handlers.isSome = true) ∧
    (c.shared.mem.locked = false → 0 < c.shared.mem.initRefCount →
      c.shared.mem.handlers.isSome = true ∧
        ∃ q, c.shared.processQueue = some q ∧ q < c.shared.queues.length) ∧
    (.foreign ∉ c.shared.mem.log → c.shared.mem.locked = false →
      (c.shared.processQueue.isSome = true ↔ 0 < c.shared.mem.initRefCount)) := by
  have hI := reaches_sound h
  refine ⟨hI.count, hI.matched, hI.refused, hI.initialized, fun hl hpos => ?_, fun hf hl => ?_⟩
  · obtain ⟨hqueue, hhandlers⟩ := hI.installed hl hpos
    obtain ⟨q, hq⟩ := Option.isSome_iff_exists.mp hqueue
    exact ⟨hhandlers, q, hq, (reaches_hostNamed h).process q hq⟩
  · refine ⟨fun hqueue => Nat.pos_of_ne_zero fun hzero => ?_, fun hpos => (hI.installed hl hpos).1⟩
    rw [hI.absent hf hl hzero] at hqueue
    cases hqueue

end Runs

instance (s : World Host) (R : Multiset (Frame ℕ Host.Frame)) (f : Frame ℕ Host.Frame)
    (x : Option Host.Choice) : Decidable (setsQueues s R f x) :=
  inferInstanceAs (Decidable (x.all (Choice.setsQueue s.toRegistry) = true))

/-- In a schedule, a call of thread `i` and `k` further sections of it. -/
def Host.calls (i : ℕ) (choice : Choice) (k : ℕ) : List (ℕ × Option Choice) :=
  (i, some choice) :: List.replicate k (i, some .finish)

/-- Two threads initialize, the second one while the first is at it, and both undo it. -/
theorem initialization_exact_twice : ∃ c : Config (World Host) (Frame ℕ Code),
    c.shared.mem.log = [.refused, .left, .left, .initialized (some 0) (some .runtime), .entered,
      .initialized (some 0) (some .runtime), .entered] ∧ c.shared.mem.locked = false ∧
    (c.shared.processQueue.isSome = true ↔ 0 < c.shared.mem.initRefCount) := by
  have hrun : ((machine Host).run setsQueues
      (Host.calls 1 .initializeApiImpl 3 ++ Host.calls 2 .initializeApiImpl 0 ++
        Host.calls 1 .uninitializeApiImpl 0 ++ Host.calls 2 .uninitializeApiImpl 1 ++
        Host.calls 1 .uninitializeApiImpl 0) (start 2 2)).any (fun c => decide (c.shared.mem.log =
          [.refused, .left, .left, .initialized (some 0) (some .runtime), .entered,
            .initialized (some 0) (some .runtime), .entered] ∧ c.shared.mem.locked = false)) = true := by
    decide +kernel
  obtain ⟨c, hc, hcheck⟩ := Machine.Reaches.of_run_any hrun
  obtain ⟨hlog, hl⟩ := of_decide_eq_true hcheck
  exact ⟨c, hlog, hl, (initialization_exact hc).2.2.2.2.2 (by rw [hlog]; decide) hl⟩

end XGameRuntime.Runtime
