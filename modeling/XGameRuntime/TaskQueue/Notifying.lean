import XGameRuntime.Concurrency.Registrations
import XGameRuntime.TaskQueue.Machine

/-! # The monitors of a queue

`Queue::notify_monitors`, `Queue::register_monitor` and `Queue::unregister_monitor` follow the protocol
of a registry that is notified under its lock, for each queue by itself.
-/

namespace XGameRuntime.TaskQueue
open Concurrency
set_option autoImplicit false

variable {κ : Type}

/-- The monitors of queue `i`. -/
def TaskQueues.registrations (s : TaskQueues κ) (i : ℕ) : Registrations Monitor :=
  (s.queues[i]?).elim {} fun q => ⟨q.monitors, q.nextToken, q.monitorsLocked⟩

/-- The loop of `notify_monitors` on queue `i`. -/
def notifyMonitors (C : Client κ) (i : ℕ) : Notifier (Frame κ C.Frame) Monitor where
  left
    | .notifying a _ monitors => if a.queue = i then some monitors else none
    | _ => none
  resume
    | .notifying a handle _, monitors => .notifying a handle monitors
    | f, _ => f
  calls
    | .notifying a handle _, monitor => (C.monitor monitor.context handle a.kind).map .client
    | _, _ => []
  left_resume := by
    intro f l l' h
    cases f with
    | notifying a handle monitors =>
      by_cases hi : a.queue = i
      · exact if_pos hi
      · exact absurd h (by simp [hi])
    | _ => exact absurd h (by simp)
  resume_left := by
    intro f l h
    cases f with
    | notifying a handle monitors =>
      by_cases hi : a.queue = i
      · simp only [hi, if_true, Option.some.injEq] at h
        rw [h]
      · exact absurd h (by simp [hi])
    | _ => rfl
  resume_resume := by
    intro f l l'
    cases f <;> rfl
  calls_resume := by
    intro f l a
    cases f <;> rfl
  left_calls := by
    intro f a g hg
    cases f with
    | notifying b handle monitors =>
      obtain ⟨h, -, rfl⟩ := List.mem_map.mp hg
      rfl
    | _ => exact absurd hg List.not_mem_nil

/-! ## The operations of the registry -/

section Operations
variable {s t : TaskQueues κ} {i : ℕ}

theorem registrations_none (h : s.queues[i]? = none) : s.registrations i = {} := by
  simp [TaskQueues.registrations, h]

theorem registrations_some {q : Queue} (h : s.queues[i]? = some q) :
    s.registrations i = ⟨q.monitors, q.nextToken, q.monitorsLocked⟩ := by
  simp [TaskQueues.registrations, h]

theorem registrations_congr (h : t.queues = s.queues) : t.registrations i = s.registrations i := by
  simp [TaskQueues.registrations, h]

theorem registrations_set {j : ℕ} {q r : Queue} (hq : s.queues[j]? = some q)
    (ht : t.queues = s.queues.set j r) : t.registrations i =
      if j = i then ⟨r.monitors, r.nextToken, r.monitorsLocked⟩ else s.registrations i := by
  have hj : j < s.queues.length := (List.getElem?_eq_some_iff.mp hq).1
  split
  · rename_i hi
    subst hi
    exact registrations_some (by rw [ht, List.getElem?_set_self hj])
  · rename_i hi
    simp [TaskQueues.registrations, ht, List.getElem?_set_ne hi]

/-- A queue is created without monitors. -/
theorem registrations_push {work completion : ℕ}
    (ht : t.queues = s.queues ++ [{ work := work, completion := completion }]) :
    t.registrations i = s.registrations i := by
  unfold TaskQueues.registrations
  rw [ht]
  rcases Nat.lt_trichotomy i s.queues.length with hi | hi | hi
  · rw [List.getElem?_append_left hi]
  · subst hi
    simp
  · have hnone : s.queues[i]? = none := List.getElem?_eq_none (by omega)
    rw [hnone, List.getElem?_eq_none (by simp; omega)]

theorem composite_registrations {work completion : ℕ} (h : s.composite work completion = some t) :
    t.registrations i = s.registrations i := by
  simp only [TaskQueues.composite, Option.bind_eq_bind, Option.bind_eq_some_iff] at h
  obtain ⟨wp, hw, cp, hc, h⟩ := h
  cases h
  exact registrations_push rfl

theorem newQueue_registrations {work completion : DispatchMode}
    (h : s.newQueue work completion = some t) : t.registrations i = s.registrations i := by
  have hcomposite := composite_registrations (i := i) h
  exact hcomposite

theorem defaultProcessQueue_registrations {q : ℕ} (h : s.defaultProcessQueue = some (q, t)) :
    t.registrations i = s.registrations i := by
  unfold TaskQueues.defaultProcessQueue at h
  split at h
  · cases h
    rfl
  · simp only [Option.bind_eq_bind, Option.bind_eq_some_iff] at h
    obtain ⟨u, hu, h⟩ := h
    cases h
    have hnew := newQueue_registrations (i := i) hu
    exact hnew

theorem getProcessQueueHandle_registrations {handle : ℕ}
    (h : s.getProcessQueueHandle = some (handle, t)) : t.registrations i = s.registrations i := by
  unfold TaskQueues.getProcessQueueHandle at h
  split at h
  · cases h
    rfl
  · simp only [Option.bind_eq_bind, Option.bind_eq_some_iff] at h
    obtain ⟨⟨q, u⟩, hu, h⟩ := h
    cases h
    have hdefault := defaultProcessQueue_registrations (i := i) hu
    exact hdefault

/-- What an operation does to the monitors of a queue. -/
inductive Registers (s t : TaskQueues κ) (i : ℕ) : Admin → Prop where
  | same {a : Admin} (h : t.registrations i = s.registrations i) : Registers s t i a
  | register {context : ℕ} {r : Registrations Monitor} (hs : s.registrations i = r)
      (hr : r.locked = false)
      (ht : t.registrations i =
        { r with entries := r.entries ++ [⟨r.next, context⟩], next := r.next + 1 }) :
      Registers s t i (.registerMonitor i context)
  | unregister {token : ℕ} {r : Registrations Monitor} (hs : s.registrations i = r)
      (hr : r.locked = false)
      (ht : t.registrations i =
        { r with entries := r.entries.filter fun m => decide (m.token ≠ token) }) :
      Registers s t i (.unregisterMonitor i token)

theorem admin_registers {a : Admin} (h : a.apply s = some t) (i : ℕ) : Registers s t i a := by
  cases a with
  | newQueue work completion => exact .same (newQueue_registrations h)
  | composite work completion => exact .same (composite_registrations h)
  | createQueueHandle | closeQueueHandle | createPortHandle =>
    cases h
    exact .same rfl
  | registerMonitor j context =>
    simp only [Admin.apply, TaskQueues.registerMonitor, Option.bind_eq_bind,
      Option.bind_eq_some_iff] at h
    obtain ⟨q, hq, h⟩ := h
    split at h
    · cases h
    · rename_i hlocked
      cases h
      have hset := registrations_set (i := i) hq (t := s.setQueue j { q with
        nextToken := q.nextToken + 1
        monitors := q.monitors ++ [⟨q.nextToken, context⟩] }) rfl
      by_cases hj : j = i
      · subst hj
        rw [if_pos rfl] at hset
        exact .register (registrations_some hq) (by simpa using hlocked) hset
      · rw [if_neg hj] at hset
        exact .same hset
  | unregisterMonitor j token =>
    simp only [Admin.apply, TaskQueues.unregisterMonitor, Option.bind_eq_bind,
      Option.bind_eq_some_iff] at h
    obtain ⟨q, hq, h⟩ := h
    split at h
    · cases h
    · rename_i hlocked
      cases h
      have hset := registrations_set (i := i) hq (t := s.setQueue j { q with
        monitors := q.monitors.filter fun monitor => decide (monitor.token ≠ token) }) rfl
      by_cases hj : j = i
      · subst hj
        rw [if_pos rfl] at hset
        exact .unregister (registrations_some hq) (by simpa using hlocked) hset
      · rw [if_neg hj] at hset
        exact .same hset
  | setProcessQueue queue =>
    cases h
    refine .same (registrations_congr ?_)
    unfold TaskQueues.setProcessQueue
    split <;> rfl
  | defaultProcessQueue =>
    obtain ⟨⟨q, u⟩, hu, rfl⟩ := Option.map_eq_some_iff.mp h
    exact .same (defaultProcessQueue_registrations hu)
  | processQueueHandle =>
    obtain ⟨⟨q, u⟩, hu, rfl⟩ := Option.map_eq_some_iff.mp h
    exact .same (getProcessQueueHandle_registrations hu)

theorem Registers.changes {a : Admin} (h : Registers s t i a) :
    (s.registrations i).Changes Monitor.token (t.registrations i) := by
  cases h with
  | same h => rw [h]; exact .refl
  | register hs hr ht =>
    rw [hs, ht]
    exact .register .refl hr rfl
  | unregister hs hr ht =>
    rw [hs, ht]
    exact .unregister _ .refl hr

theorem applyAll_changes {as : List Admin} (h : Admin.applyAll s as = some t) :
    (s.registrations i).Changes Monitor.token (t.registrations i) := by
  induction as generalizing s with
  | nil => cases h; exact .refl
  | cons a as ih =>
    obtain ⟨u, hu, hr⟩ := Option.bind_eq_some_iff.mp h
    exact (admin_registers hu i).changes.trans (ih hr)

/-- A monitor that is unregistered is gone. -/
theorem applyAll_unregister {as : List Admin} (h : Admin.applyAll s as = some t) {token : ℕ}
    (hlt : token < (s.registrations i).next) (hmem : .unregisterMonitor i token ∈ as) :
    ∀ m ∈ (t.registrations i).entries, m.token ≠ token := by
  induction as generalizing s with
  | nil => cases hmem
  | cons a as ih =>
    obtain ⟨u, hu, hr⟩ := Option.bind_eq_some_iff.mp h
    have hreg := admin_registers hu i
    rcases List.mem_cons.mp hmem with rfl | hmem
    · refine ((applyAll_changes hr).gone ⟨hlt.trans_le hreg.changes.next_le, ?_⟩).2
      have hgone := hu
      simp only [Admin.apply, TaskQueues.unregisterMonitor, Option.bind_eq_bind,
        Option.bind_eq_some_iff] at hgone
      obtain ⟨q, hq, hgone⟩ := hgone
      split at hgone
      · cases hgone
      · cases hgone
        rw [registrations_set hq rfl, if_pos rfl]
        intro m hm
        exact of_decide_eq_true (List.mem_filter.mp hm).2
    · exact ih hr (hlt.trans_le hreg.changes.next_le) hmem

/-- Nothing but its own unregistration removes a monitor. -/
theorem applyAll_keeps {as : List Admin} (h : Admin.applyAll s as = some t) {m : Monitor}
    (hm : m ∈ (s.registrations i).entries) (hn : .unregisterMonitor i m.token ∉ as) :
    m ∈ (t.registrations i).entries := by
  induction as generalizing s with
  | nil => cases h; exact hm
  | cons a as ih =>
    obtain ⟨u, hu, hr⟩ := Option.bind_eq_some_iff.mp h
    rw [List.mem_cons, not_or] at hn
    obtain ⟨ha, hn⟩ := hn
    refine ih hr ?_ hn
    cases admin_registers hu i with
    | same h => rw [h]; exact hm
    | register hs hr' ht =>
      rw [ht, ← hs]
      exact List.mem_append_left _ hm
    | @unregister token r hs hr' ht =>
      rw [ht, ← hs]
      refine List.mem_filter.mpr ⟨hm, decide_eq_true fun he => ha ?_⟩
      rw [he]

end Operations

/-! ## The steps of the machine -/

section Steps
variable {C : Client κ} {s : World C} {i : ℕ}

theorem toFrame_left (instr : Instr κ C.Frame) :
    (notifyMonitors C i).left instr.toFrame = none := by
  cases instr <;> rfl

theorem client_left (l : List C.Frame) :
    ∀ g ∈ (l.map Frame.client : List (Frame κ C.Frame)), (notifyMonitors C i).left g = none := by
  intro g hg
  obtain ⟨h, -, rfl⟩ := List.mem_map.mp hg
  rfl

/-- `notify_monitors` takes the lock of its queue, unless it has no monitors. -/
theorem notify_inv {s : TaskQueues κ} {a : Submission κ C.Frame}
    {o : Outcome (TaskQueues κ) (Frame κ C.Frame)} (h : registryStep C s (.notify a) = some o) :
    (s.registrations a.queue).locked = false ∧ o.spawn = [] ∧
      (((s.registrations a.queue).entries = [] ∧ o.shared = s ∧
          ∃ owner, o.push = [.submitContext a owner]) ∨
        (∃ handle, o.push = [.notifying a handle (s.registrations a.queue).entries]) ∧
          ∀ i, o.shared.registrations i = if a.queue = i then
            ⟨(s.registrations a.queue).entries, (s.registrations a.queue).next, true⟩
            else s.registrations i) := by
  simp only [registryStep, Option.bind_eq_bind, Option.bind_eq_some_iff] at h
  obtain ⟨q, hq, h⟩ := h
  rw [registrations_some hq]
  split at h
  · cases h
  · rename_i hlocked
    refine ⟨by simpa using hlocked, ?_⟩
    split at h
    · rename_i hempty
      cases h
      exact ⟨rfl, .inl ⟨List.isEmpty_iff.mp hempty, rfl, _, rfl⟩⟩
    · split at h
      · cases h
        exact ⟨rfl, .inr ⟨⟨_, rfl⟩, fun i =>
          registrations_set (r := { q with monitorsLocked := true }) hq rfl⟩⟩
      · cases h
        exact ⟨rfl, .inr ⟨⟨_, rfl⟩, fun i =>
          registrations_set (s := s) (r := { q with
            monitorsLocked := true
            canonicalHandle := some s.queueHandles.next }) hq rfl⟩⟩

theorem registryStep_notifies {f : Frame κ C.Frame}
    {o : Outcome (TaskQueues κ) (Frame κ C.Frame)}
    (h : registryStep C s.toTaskQueues f = some o) :
    NotifyStep Monitor.token (notifyMonitors C i) (s.registrations i) f
      (⟨⟨o.shared, s.mem⟩, o.push, o.spawn⟩ : Outcome (World C) (Frame κ C.Frame))
      (o.shared.registrations i) := by
  cases f with
  | notify a =>
    obtain ⟨hlocked, hspawn, hcases⟩ := notify_inv h
    rcases hcases with ⟨-, hshared, owner, hpush⟩ | ⟨⟨handle, hpush⟩, hreg⟩
    · rw [hshared]
      refine .outside rfl (forall_frames.mpr ⟨?_, by simp [hspawn]⟩) .refl
      rw [hpush]
      intro g hg
      rw [List.mem_singleton.mp hg]
      rfl
    · rw [hreg i]
      split
      · rename_i hi
        subst hi
        have hg : (notifyMonitors C a.queue).left (.notifying a handle
            (s.registrations a.queue).entries) = some (s.registrations a.queue).entries := if_pos rfl
        exact .lock rfl hlocked hg hpush hspawn
      · rename_i hi
        refine .outside rfl (forall_frames.mpr ⟨?_, by simp [hspawn]⟩) .refl
        rw [hpush]
        intro g hg
        rw [List.mem_singleton.mp hg]
        exact if_neg hi
  | notifying a handle monitors =>
    cases monitors with
    | cons monitor rest =>
      cases h
      by_cases hi : a.queue = i
      · exact .call (if_pos hi) (List.Perm.refl _) rfl rfl
      · refine .outside (if_neg hi) (forall_frames.mpr ⟨?_, by simp⟩) .refl
        intro g hg
        rcases List.mem_append.mp hg with hg | hg
        · exact client_left _ g hg
        · rw [List.mem_singleton.mp hg]
          exact if_neg hi
    | nil =>
      simp only [registryStep, Option.bind_eq_bind, Option.bind_eq_some_iff] at h
      obtain ⟨q, hq, h⟩ := h
      cases h
      have hset := registrations_set (i := i) hq (t := s.toTaskQueues.setQueue a.queue
        { q with monitorsLocked := false }) rfl
      rw [hset]
      have hout : ∀ g ∈ (Outcome.frames ⟨(⟨s.toTaskQueues.setQueue a.queue
          { q with monitorsLocked := false }, s.mem⟩ : World C),
          [.submitContext a (q.context a.kind)], []⟩ : Multiset (Frame κ C.Frame)),
          (notifyMonitors C i).left g = none := by
        refine forall_frames.mpr ⟨fun g hg => ?_, by simp⟩
        rw [List.mem_singleton.mp hg]
        rfl
      split
      · rename_i hi
        subst hi
        have hs : s.registrations a.queue = ⟨q.monitors, q.nextToken, q.monitorsLocked⟩ :=
          registrations_some hq
        rw [hs]
        exact .unlock (if_pos rfl) hout
      · rename_i hi
        exact .outside (if_neg hi) hout .refl
  | terminateQueue a =>
    simp only [registryStep, Option.bind_eq_bind, Option.bind_eq_some_iff] at h
    obtain ⟨q, hq, h⟩ := h
    cases h
    exact .outside rfl (forall_frames.mpr ⟨by simp [notifyMonitors], by simp⟩) .refl
  | terminate owners a =>
    cases owners with
    | cons => cases h
    | nil =>
      cases h
      refine .outside rfl (forall_frames.mpr ⟨fun g hg => ?_, by simp⟩) .refl
      rcases List.mem_append.mp hg with hg | hg
      · exact client_left _ g hg
      · rw [List.mem_singleton.mp hg]
        rfl
  | terminateReturn a =>
    cases h
    exact .outside rfl (forall_frames.mpr ⟨by simp, by simp⟩) .refl
  | _ => cases h

/-- A notification does not change who is registered. -/
theorem registryStep_entries {s : TaskQueues κ} {f : Frame κ C.Frame}
    {o : Outcome (TaskQueues κ) (Frame κ C.Frame)} (h : registryStep C s f = some o) :
    (o.shared.registrations i).entries = (s.registrations i).entries := by
  cases f with
  | notify a =>
    obtain ⟨-, -, ⟨-, hshared, -⟩ | ⟨-, hreg⟩⟩ := notify_inv h
    · rw [hshared]
    · rw [hreg i]
      split
      · rename_i hi
        rw [hi]
      · rfl
  | notifying a handle monitors =>
    cases monitors with
    | cons =>
      cases h
      rfl
    | nil =>
      simp only [registryStep, Option.bind_eq_bind, Option.bind_eq_some_iff] at h
      obtain ⟨q, hq, h⟩ := h
      cases h
      rw [registrations_set (i := i) hq rfl]
      split
      · rename_i hi
        rw [← hi, registrations_some hq]
      · rfl
  | terminateQueue a =>
    simp only [registryStep, Option.bind_eq_bind, Option.bind_eq_some_iff] at h
    obtain ⟨q, hq, h⟩ := h
    cases h
    rfl
  | terminate owners a =>
    cases owners with
    | cons => cases h
    | nil =>
      cases h
      rfl
  | terminateReturn a =>
    cases h
    rfl
  | _ => cases h

theorem coreStep_left {f : Frame κ C.Frame} {s : Core κ} {o : Outcome (Core κ) (Frame κ C.Frame)}
    (h : CoreStep C.body s f o) : (notifyMonitors C i).left f = none ∧
      ∀ g ∈ o.frames, (notifyMonitors C i).left g = none := by
  have hnil : ∀ k ∈ ([] : List (List (Frame κ C.Frame))), ∀ g ∈ k,
      (notifyMonitors C i).left g = none := by simp
  have hclients : ∀ (fs : List (Frame κ C.Frame)) (l : List C.Frame),
      (∀ g ∈ fs, (notifyMonitors C i).left g = none) →
        ∀ g ∈ fs ++ l.map Frame.client, (notifyMonitors C i).left g = none := by
    intro fs l hfs g hg
    rcases List.mem_append.mp hg with hg | hg
    · exact hfs g hg
    · exact client_left l g hg
  cases h with
  | refuse | dispatchExit | batchEnd =>
    exact ⟨rfl, forall_frames.mpr ⟨hclients [] _ (by simp), hnil⟩⟩
  | acceptInline =>
    exact ⟨rfl, forall_frames.mpr ⟨hclients [_, _] _ (by simp [notifyMonitors]), hnil⟩⟩
  | acceptDelayed =>
    exact ⟨rfl, forall_frames.mpr ⟨hclients [] _ (by simp), by simp [notifyMonitors]⟩⟩
  | acceptQueued =>
    refine ⟨rfl, forall_frames.mpr ⟨hclients [] _ (by simp), fun k hk g hg => ?_⟩⟩
    rw [List.eq_of_mem_replicate hk] at hg
    rw [List.mem_singleton.mp hg]
    rfl
  | invoke =>
    refine ⟨rfl, forall_frames.mpr ⟨fun g hg => ?_, hnil⟩⟩
    rcases List.mem_append.mp hg with hg | hg
    · exact client_left _ g hg
    · rw [List.mem_singleton.mp hg]
      rfl
  | _ => exact ⟨rfl, forall_frames.mpr ⟨by simp [notifyMonitors], hnil⟩⟩

theorem machine_notifies (C : Client κ) (i : ℕ) : (machine C).Notifies Monitor.token
    (notifyMonitors C i) fun s => s.toTaskQueues.registrations i where
  step := by
    intro s f x o h
    cases f with
    | client g =>
      cases step_inv h with
      | client hr ht =>
        refine .outside rfl (forall_frames.mpr ⟨?_, ?_⟩) (applyAll_changes ht)
        · exact List.forall_mem_map.mpr fun instr _ => toFrame_left instr
        · exact List.forall_mem_map.mpr fun instrs _ =>
            List.forall_mem_map.mpr fun instr _ => toFrame_left instr
      | registry hreg => cases hreg
      | core hcore => cases hcore
    | _ =>
      obtain ⟨q, hq, rfl⟩ := (step_queue (by simp)).mp h
      unfold queueStep at hq
      split at hq
      · rename_i hreg
        cases hq
        exact registryStep_notifies hreg
      · obtain ⟨b, hb, rfl⟩ := Option.map_eq_some_iff.mp hq
        obtain ⟨hf, hfs⟩ := coreStep_left (i := i) (coreStep_inv hb)
        exact .outside hf hfs .refl
  enabled := by
    intro s f l hf hlocked
    cases f with
    | notifying a handle monitors =>
      have hi : a.queue = i := by
        by_contra hi
        exact absurd hf (by simp [notifyMonitors, hi])
      have hqueue : ∃ q, s.queues[a.queue]? = some q := by
        rw [hi]
        cases hq : s.queues[i]? with
        | some q => exact ⟨q, rfl⟩
        | none =>
          rw [registrations_none hq] at hlocked
          cases hlocked
      obtain ⟨q, hq⟩ := hqueue
      refine ⟨none, ?_⟩
      cases monitors with
      | cons monitor rest =>
        exact ⟨_, (step_queue (by simp)).mpr ⟨_, rfl, rfl⟩⟩
      | nil =>
        have hstep : queueStep C s.toTaskQueues (.notifying a handle []) =
            some ⟨s.toTaskQueues.setQueue a.queue { q with monitorsLocked := false },
              [.submitContext a (q.context a.kind)], []⟩ := by
          simp only [queueStep, registryStep, hq, Option.bind_eq_bind, Option.bind_some]
        exact ⟨_, (step_queue (by simp)).mpr ⟨_, hstep, rfl⟩⟩
    | _ => cases hf

end Steps
end XGameRuntime.TaskQueue
