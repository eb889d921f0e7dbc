import XGameRuntime.TaskQueue.Api
import XGameRuntime.TaskQueue.History

/-! # What names resolve to

Handles, the process queue and the contexts of a queue name objects that exist, as long as the
code above the queue only makes handles of queues that exist.
-/

namespace XGameRuntime.TaskQueue
open Concurrency
set_option autoImplicit false

structure TaskQueues.Named {κ : Type} (s : TaskQueues κ) : Prop where
  contexts : ∀ queue ∈ s.queues, ∀ kind : PortKind, queue.context kind < s.contexts.length
  handles : ∀ handle q, s.queueHandles.get handle = some q → q < s.queues.length
  process : ∀ q, s.processQueue = some q → q < s.queues.length

section Admin
variable {κ : Type} {s t : TaskQueues κ}

theorem SameContexts.length_le {qs qs' : List Queue} (h : SameContexts qs qs') :
    qs.length ≤ qs'.length := by
  by_contra hlt
  have hi : qs'.length < qs.length := by omega
  obtain ⟨q', hq', -⟩ := h qs'.length qs[qs'.length] (List.getElem?_eq_getElem hi)
  rw [List.getElem?_eq_none le_rfl] at hq'
  cases hq'

theorem get_create_cases {table : HandleTable ℕ} {handle q p : ℕ}
    (h : (table.create q).2.get handle = some p) : p = q ∨ table.get handle = some p := by
  by_cases hn : handle = table.next
  · by_cases h0 : handle = 0
    · simp [HandleTable.get, h0] at h
    · subst hn
      rw [show table.next = (table.create q).1 from rfl, HandleTable.get_create table q h0] at h
      exact .inl (Option.some.inj h).symm
  · rw [HandleTable.get_create_of_ne _ _ _ hn] at h
    exact .inr h

theorem TaskQueues.Named.createQueueHandle (h : s.Named) {q : ℕ} (hq : q < s.queues.length) :
    (s.createQueueHandle q).Named := by
  refine ⟨h.contexts, fun handle p hp => ?_, h.process⟩
  rcases get_create_cases hp with rfl | hp
  · exact hq
  · exact h.handles handle p hp

theorem TaskQueues.Named.closeQueueHandle (h : s.Named) (handle : ℕ) :
    (s.closeQueueHandle handle).Named := by
  refine ⟨h.contexts, fun other p hp => ?_, h.process⟩
  change (s.queueHandles.close handle).get other = some p at hp
  by_cases ho : other = handle
  · subst ho
    rw [HandleTable.get_close] at hp
    cases hp
  · rw [HandleTable.get_close_of_ne _ _ _ ho] at hp
    exact h.handles other p hp

/-- A queue in the arena is changed, but not its contexts. -/
theorem TaskQueues.Named.setQueue (h : s.Named) {i : ℕ} {q r : Queue} (hq : s.queues[i]? = some q)
    (hw : r.work = q.work) (hc : r.completion = q.completion) : (s.setQueue i r).Named := by
  have hlen : (s.setQueue i r).queues.length = s.queues.length := List.length_set
  refine ⟨fun queue hm kind => ?_, fun handle p hp => ?_, fun p hp => ?_⟩
  · rcases List.mem_or_eq_of_mem_set hm with hm | rfl
    · exact h.contexts queue hm kind
    · have hold := h.contexts q (List.mem_of_getElem? hq) kind
      cases kind with
      | work =>
        show queue.work < s.contexts.length
        rw [hw]
        exact hold
      | completion =>
        show queue.completion < s.contexts.length
        rw [hc]
        exact hold
  · rw [hlen]
    exact h.handles handle p hp
  · rw [hlen]
    exact h.process p hp

theorem TaskQueues.Named.setProcessQueue (h : s.Named) {queue : Option ℕ}
    (hq : ∀ q, queue = some q → q < s.queues.length) : (s.setProcessQueue queue).Named := by
  cases queue with
  | none => exact ⟨h.contexts, h.handles, fun q hq => (by cases hq)⟩
  | some q => exact ⟨h.contexts, h.handles, fun p hp => hq p hp⟩

theorem composite_queues {work completion : ℕ} (h : s.composite work completion = some t) :
    t.queues.length = s.queues.length + 1 := by
  simp only [TaskQueues.composite, Option.bind_eq_bind, Option.bind_eq_some_iff] at h
  obtain ⟨wp, hw, cp, hc, h⟩ := h
  cases h
  simp

theorem TaskQueues.Named.composite (hn : s.Named) {work completion : ℕ}
    (h : s.composite work completion = some t) : t.Named := by
  have hlen := composite_queues h
  simp only [TaskQueues.composite, Option.bind_eq_bind, Option.bind_eq_some_iff] at h
  obtain ⟨wp, hw, cp, hc, h⟩ := h
  cases h
  refine ⟨fun queue hm kind => ?_, fun handle p hp => ?_, fun p hp => ?_⟩
  · have hctx : ((s.toCore.newContext work wp).newContext completion cp).contexts.length =
        s.contexts.length + 2 := by
      simp [Core.newContext]
    show queue.context kind < ((s.toCore.newContext work wp).newContext completion cp).contexts.length
    rw [hctx]
    rcases List.mem_append.mp hm with hm | hm
    · have hold := hn.contexts queue hm kind
      omega
    · rw [List.mem_singleton.mp hm]
      cases kind <;> simp only [Queue.context] <;> omega
  · rw [hlen]
    have hold := hn.handles handle p hp
    omega
  · rw [hlen]
    have hold := hn.process p hp
    omega

theorem TaskQueues.Named.newQueue (hn : s.Named) {work completion : DispatchMode}
    (h : s.newQueue work completion = some t) : t.Named := by
  have hn' : ({ s with toCore := (s.toCore.newPort work).newPort completion } :
      TaskQueues κ).Named := ⟨hn.contexts, hn.handles, hn.process⟩
  exact hn'.composite h

theorem newQueue_queues {work completion : DispatchMode}
    (h : s.newQueue work completion = some t) : t.queues.length = s.queues.length + 1 := by
  have hlen := composite_queues h
  exact hlen

theorem TaskQueues.Named.defaultProcessQueue (hn : s.Named) {q : ℕ}
    (h : s.defaultProcessQueue = some (q, t)) : t.Named ∧ q < t.queues.length := by
  unfold TaskQueues.defaultProcessQueue at h
  split at h
  · rename_i p hp
    cases h
    exact ⟨hn, hn.process q hp⟩
  · simp only [Option.bind_eq_bind, Option.bind_eq_some_iff] at h
    obtain ⟨u, hu, h⟩ := h
    have hnu := hn.newQueue hu
    have hlt : s.queues.length < u.queues.length := by
      have hlen := newQueue_queues hu
      omega
    cases h
    exact ⟨⟨hnu.contexts, hnu.handles, fun p hp => by cases hp; exact hlt⟩, hlt⟩

theorem TaskQueues.Named.getProcessQueueHandle (hn : s.Named) {handle : ℕ}
    (h : s.getProcessQueueHandle = some (handle, t)) : t.Named := by
  unfold TaskQueues.getProcessQueueHandle at h
  split at h
  · cases h
    exact hn
  · simp only [Option.bind_eq_bind, Option.bind_eq_some_iff] at h
    obtain ⟨⟨q, u⟩, hu, h⟩ := h
    cases h
    obtain ⟨hnu, hq⟩ := hn.defaultProcessQueue hu
    have hc := hnu.createQueueHandle hq
    exact ⟨hc.contexts, hc.handles, hc.process⟩

/-- The operations that name a queue name one that exists. -/
def Admin.Names (s : TaskQueues κ) : Admin → Prop
  | .createQueueHandle q => q < s.queues.length
  | .setProcessQueue queue => ∀ q, queue = some q → q < s.queues.length
  | _ => True

theorem admin_named {a : Admin} (h : a.apply s = some t) (ha : a.Names s) (hn : s.Named) :
    t.Named := by
  cases a with
  | newQueue work completion => exact hn.newQueue h
  | composite work completion => exact hn.composite h
  | createQueueHandle q => cases h; exact hn.createQueueHandle ha
  | closeQueueHandle handle => cases h; exact hn.closeQueueHandle handle
  | createPortHandle p => cases h; exact ⟨hn.contexts, hn.handles, hn.process⟩
  | registerMonitor i context =>
    simp only [Admin.apply, TaskQueues.registerMonitor, Option.bind_eq_bind,
      Option.bind_eq_some_iff] at h
    obtain ⟨q, hq, h⟩ := h
    split at h
    · cases h
    · cases h
      exact hn.setQueue hq rfl rfl
  | unregisterMonitor i token =>
    simp only [Admin.apply, TaskQueues.unregisterMonitor, Option.bind_eq_bind,
      Option.bind_eq_some_iff] at h
    obtain ⟨q, hq, h⟩ := h
    split at h
    · cases h
    · cases h
      exact hn.setQueue hq rfl rfl
  | setProcessQueue queue => cases h; exact hn.setProcessQueue ha
  | defaultProcessQueue =>
    obtain ⟨⟨q, u⟩, hu, rfl⟩ := Option.map_eq_some_iff.mp h
    exact (hn.defaultProcessQueue hu).1
  | processQueueHandle =>
    obtain ⟨⟨handle, u⟩, hu, rfl⟩ := Option.map_eq_some_iff.mp h
    exact hn.getProcessQueueHandle hu

/-- Operations that name existing queues in whatever later state they run in. -/
theorem applyAll_named {as : List Admin} (h : Admin.applyAll s as = some t) (hn : s.Named)
    (ha : ∀ a ∈ as, ∀ u : TaskQueues κ, s.queues.length ≤ u.queues.length → a.Names u) :
    t.Named := by
  induction as generalizing s with
  | nil => cases h; exact hn
  | cons a as ih =>
    obtain ⟨u, hu, hr⟩ := Option.bind_eq_some_iff.mp h
    have hle := (admin_extends hu).2.1.length_le
    refine ih hr (admin_named hu (ha a (by simp) s le_rfl) hn) fun b hb v hv => ?_
    exact ha b (by simp [hb]) v (hle.trans hv)

/-- A new queue and a handle on it. -/
theorem created_named {a : Admin}
    (h : Admin.applyAll s [a, .createQueueHandle s.queues.length] = some t)
    (ha : ∀ u, a.apply s = some u → u.Named ∧ u.queues.length = s.queues.length + 1) :
    t.Named := by
  obtain ⟨u, hu, hr⟩ := Option.bind_eq_some_iff.mp h
  obtain ⟨hnu, hlen⟩ := ha u hu
  cases hr
  exact hnu.createQueueHandle (by omega)

theorem perform_named {γ : Type} {ret : ℕ → List γ} {seen : List γ} (c : QueueCall κ γ)
    (h : Admin.applyAll s (c.perform s ret seen).admin = some t) (hn : s.Named) : t.Named := by
  cases c with
  | create work completion out =>
    simp only [QueueCall.perform] at h
    split at h
    · split at h
      · exact created_named h fun u hu => ⟨hn.newQueue hu, newQueue_queues hu⟩
      · cases h
        exact hn
    · cases h
      exact hn
  | createComposite work completion out =>
    simp only [QueueCall.perform] at h
    split at h
    · split at h
      · exact created_named h fun u hu => ⟨hn.composite hu, composite_queues hu⟩
      · cases h
        exact hn
    · cases h
      exact hn
  | duplicateHandle handle out =>
    simp only [QueueCall.perform] at h
    split at h
    · split at h
      · rename_i queue hq
        refine applyAll_named h hn fun a ha u hu => ?_
        rw [List.mem_singleton.mp ha]
        exact lt_of_lt_of_le (hn.handles handle queue hq) hu
      · cases h
        exact hn
    · cases h
      exact hn
  | setCurrentProcessTaskQueue handle =>
    refine applyAll_named h hn fun a ha u hu => ?_
    rw [List.mem_singleton.mp ha]
    exact fun q hq => lt_of_lt_of_le (hn.handles handle q hq) hu
  | _ =>
    refine applyAll_named h hn fun a ha u hu => ?_
    simp only [QueueCall.perform] at ha
    repeat' split at ha
    all_goals
      first
      | rw [List.mem_singleton.mp ha]; trivial
      | cases ha

/-- The process queue that there is, or the next queue made. -/
theorem defaultProcessQueue_queue {q : ℕ} (h : s.defaultProcessQueue = some (q, t)) :
    s.processQueue.getD s.queues.length = q := by
  unfold TaskQueues.defaultProcessQueue at h
  split at h
  · rename_i p hp
    cases h
    rw [hp]
    rfl
  · rename_i hp
    simp only [Option.bind_eq_bind, Option.bind_eq_some_iff] at h
    obtain ⟨u, hu, h⟩ := h
    cases h
    rw [hp]
    rfl

theorem createProcessQueueHandle_named
    (h : Admin.applyAll s
      [.defaultProcessQueue, .createQueueHandle (s.processQueue.getD s.queues.length)] = some t)
    (hn : s.Named) : t.Named := by
  obtain ⟨u, hu, hr⟩ := Option.bind_eq_some_iff.mp h
  obtain ⟨⟨q, v⟩, hv, rfl⟩ := Option.map_eq_some_iff.mp hu
  obtain ⟨hnv, hq⟩ := hn.defaultProcessQueue hv
  cases hr
  exact hnv.createQueueHandle ((defaultProcessQueue_queue hv).trans_lt hq)

end Admin

section Runs
variable {κ : Type} {C : Client κ}

theorem registryStep_named {s : TaskQueues κ} {f : Frame κ C.Frame}
    {o : Outcome (TaskQueues κ) (Frame κ C.Frame)} (h : registryStep C s f = some o)
    (hn : s.Named) : o.shared.Named := by
  unfold registryStep at h
  split at h <;>
    simp only [Option.bind_eq_bind, Option.bind_eq_some_iff, Option.some.injEq,
      reduceCtorEq] at h
  · obtain ⟨q, hq, h⟩ := h
    split at h
    · cases h
    · split at h
      · cases h
        exact hn
      · split at h
        · cases h
          exact hn.setQueue hq rfl rfl
        · cases h
          have hlt := (List.getElem?_eq_some_iff.mp hq).1
          exact (hn.createQueueHandle hlt).setQueue hq rfl rfl
  · subst h
    exact hn
  · obtain ⟨q, hq, rfl⟩ := h
    exact hn.setQueue hq rfl rfl
  · obtain ⟨q, hq, rfl⟩ := h
    exact hn
  · subst h
    exact hn
  · subst h
    exact ⟨hn.contexts, hn.handles, hn.process⟩

theorem CoreStep.contexts_length {γ : Type} {body : κ → Bool → List γ} {s : Core κ}
    {f : Frame κ γ} {o : Outcome (Core κ) (Frame κ γ)} (h : CoreStep body s f o) :
    o.shared.contexts.length = s.contexts.length := by
  cases h with
  | terminate | terminateContext | awaitDrained => exact List.length_set
  | _ => rfl

/-- If the steps of the client leave names that resolve, so does every run. -/
theorem reaches_named {c₀ c : Config (World C) (Frame κ C.Frame)}
    {G : Guard (World C) (Frame κ C.Frame) (Option C.Choice)} (h0 : Initial C c₀)
    (hclient : ∀ (s : World C) g choice r t, C.step s.mem s.toTaskQueues g choice = some r →
      Admin.applyAll s.toTaskQueues r.admin = some t → s.toTaskQueues.Named → t.Named)
    (h : (machine C).Reaches G c₀ c) : c.shared.toTaskQueues.Named := by
  refine h.preserved (I := fun s _ => s.toTaskQueues.Named) ?_ ?_
  · obtain ⟨pool, now, hq⟩ := h0.queues
    rw [hq]
    exact ⟨fun queue hm => (by cases hm), fun handle q hg => by simp [HandleTable.get] at hg,
      fun q hp => (by cases hp)⟩
  · intro s f R x o _ hn hs
    simp only [machine] at hs
    split at hs
    · simp only [Option.bind_eq_bind, Option.bind_eq_some_iff, Option.some.injEq] at hs
      obtain ⟨r, hr, t, ht, rfl⟩ := hs
      exact hclient s _ _ r t hr ht hn
    · cases hs
    · simp only [Option.bind_eq_bind, Option.bind_eq_some_iff, Option.some.injEq] at hs
      obtain ⟨q, hq, rfl⟩ := hs
      unfold queueStep at hq
      split at hq
      · rename_i hreg
        cases hq
        exact registryStep_named hreg hn
      · obtain ⟨b, hb, rfl⟩ := Option.map_eq_some_iff.mp hq
        have hlen := (coreStep_inv hb).contexts_length
        exact ⟨fun queue hm kind => by
          show queue.context kind < b.shared.contexts.length
          rw [hlen]
          exact hn.contexts queue hm kind, hn.handles, hn.process⟩

theorem QueueGame.named {c₀ c : Config (World QueueGame) (Frame ℕ GameFrame)}
    {G : Guard (World QueueGame) (Frame ℕ GameFrame) (Option GameChoice)}
    (h0 : Initial QueueGame c₀) (h : (machine QueueGame).Reaches G c₀ c) :
    c.shared.toTaskQueues.Named := by
  refine reaches_named h0 (fun s g choice r t hr ht hn => ?_) h
  cases g with
  | code =>
    cases choice with
    | call c => cases hr; exact perform_named c ht hn
    | thread => cases hr; cases ht; exact hn
    | finish => cases hr; cases ht; exact hn
  | ret value => cases hr; cases ht; exact hn
  | processQueue => cases hr; exact createProcessQueueHandle_named ht hn

end Runs
end XGameRuntime.TaskQueue
