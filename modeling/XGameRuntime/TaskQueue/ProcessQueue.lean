import XGameRuntime.TaskQueue.Machine

/-! # The process queue and its cached handle

Two places know the process queue: the slot with the installed queue and the handle that
`process_queue_handle` made of an earlier content of that slot. What each operation on queues
does to the two, and when the handle still resolves to the queue in the slot.
-/

namespace XGameRuntime.TaskQueue
open Concurrency
set_option autoImplicit false

/-- The cached handle, if there is one, resolves to the process queue. -/
def Registry.Cached (s : Registry) : Prop :=
  ∀ handle, s.processQueueHandle = some handle →
    ∃ q, s.processQueue = some q ∧ s.queueHandles.get handle = some q

/-- Handles are numbered from 1 on, and one is only cached while a process queue is installed. -/
structure Registry.Numbered (s : Registry) : Prop where
  pos : 0 < s.queueHandles.next
  cached : ∀ handle, s.processQueueHandle = some handle → handle < s.queueHandles.next
  installed : s.processQueueHandle.isSome = true → s.processQueue.isSome = true

/-- The table of handles has at most got a new entry, and the process queue is the same. -/
structure Registry.Grew (s t : Registry) : Prop where
  queue : t.processQueue = s.processQueue
  handle : t.processQueueHandle = s.processQueueHandle
  table : t.queueHandles = s.queueHandles ∨ ∃ q, t.queueHandles = (s.queueHandles.create q).2

section Growth
variable {s t : Registry}

theorem Registry.Grew.rfl : s.Grew s := ⟨Eq.refl _, Eq.refl _, .inl (Eq.refl _)⟩

theorem Registry.Grew.numbered (h : s.Grew t) (hn : s.Numbered) : t.Numbered := by
  have hp := hn.pos
  have hin : t.processQueueHandle.isSome = true → t.processQueue.isSome = true := by
    rw [h.handle, h.queue]
    exact hn.installed
  rcases h.table with ht | ⟨q, ht⟩
  · refine ⟨by rw [ht]; exact hp, fun handle hh => ?_, hin⟩
    rw [ht]
    exact hn.cached handle (h.handle ▸ hh)
  · refine ⟨by rw [ht]; exact Nat.succ_pos _, fun handle hh => ?_, hin⟩
    rw [ht]
    have hlt := hn.cached handle (h.handle ▸ hh)
    show handle < s.queueHandles.next + 1
    omega

theorem Registry.Grew.get (h : s.Grew t) {handle : ℕ} (hlt : handle < s.queueHandles.next) :
    t.queueHandles.get handle = s.queueHandles.get handle := by
  rcases h.table with ht | ⟨q, ht⟩
  · rw [ht]
  · rw [ht]
    exact HandleTable.get_create_of_ne _ _ _ (by omega)

theorem Registry.Grew.cached (h : s.Grew t) (hn : s.Numbered) : t.Cached ↔ s.Cached := by
  unfold Registry.Cached
  rw [h.handle, h.queue]
  refine forall_congr' fun handle => ?_
  refine imp_congr_right fun hh => ?_
  rw [h.get (hn.cached handle hh)]

end Growth

/-! ## What each operation does to the process queue -/

section Operations
variable {κ : Type} {s t : TaskQueues κ}

theorem composite_registry {work completion : ℕ} (h : s.composite work completion = some t) :
    t.queueHandles = s.queueHandles ∧ t.processQueue = s.processQueue ∧
      t.processQueueHandle = s.processQueueHandle := by
  simp only [TaskQueues.composite, Option.bind_eq_bind, Option.bind_eq_some_iff] at h
  obtain ⟨wp, hw, cp, hc, h⟩ := h
  cases h
  exact ⟨rfl, rfl, rfl⟩

theorem newQueue_registry {work completion : DispatchMode}
    (h : s.newQueue work completion = some t) : t.queueHandles = s.queueHandles ∧
      t.processQueue = s.processQueue ∧ t.processQueueHandle = s.processQueueHandle := by
  have hc := composite_registry h
  exact hc

theorem defaultProcessQueue_registry {q : ℕ} (h : s.defaultProcessQueue = some (q, t)) :
    t.queueHandles = s.queueHandles ∧ t.processQueue = some q ∧
      (∀ p, s.processQueue = some p → p = q) ∧
      t.processQueueHandle = s.processQueueHandle := by
  unfold TaskQueues.defaultProcessQueue at h
  split at h
  · rename_i p hp
    cases h
    refine ⟨rfl, hp, fun p' hp' => ?_, rfl⟩
    rw [hp] at hp'
    exact (Option.some.inj hp').symm
  · rename_i hp
    simp only [Option.bind_eq_bind, Option.bind_eq_some_iff] at h
    obtain ⟨u, hu, h⟩ := h
    cases h
    obtain ⟨h1, -, h3⟩ := newQueue_registry hu
    refine ⟨h1, rfl, fun p hp' => ?_, h3⟩
    rw [hp] at hp'
    cases hp'

/-- Making the process queue does not change whether the cached handle resolves to it, unless
there was none. -/
theorem defaultProcessQueue_cached {q : ℕ} (h : s.defaultProcessQueue = some (q, t))
    (hc : s.Cached) : t.Cached := by
  obtain ⟨htable, hq, hsame, hhandle⟩ := defaultProcessQueue_registry h
  intro handle hh
  rw [hhandle] at hh
  obtain ⟨p, hp, hget⟩ := hc handle hh
  have hpq := hsame p hp
  subst hpq
  rw [htable]
  exact ⟨p, hq, hget⟩

theorem defaultProcessQueue_numbered {q : ℕ} (h : s.defaultProcessQueue = some (q, t))
    (hn : s.Numbered) : t.Numbered := by
  obtain ⟨htable, hq, -, hhandle⟩ := defaultProcessQueue_registry h
  refine ⟨by rw [htable]; exact hn.pos, fun handle hh => ?_, fun _ => by rw [hq]; rfl⟩
  rw [htable]
  exact hn.cached handle (hhandle ▸ hh)

/-- `process_queue_handle` returns the cached handle, or makes one of the process queue. -/
theorem getProcessQueueHandle_registry {handle : ℕ} (hn : s.Numbered)
    (h : s.getProcessQueueHandle = some (handle, t)) :
    t.Numbered ∧ t.processQueueHandle = some handle ∧
      ((s.processQueueHandle = some handle ∧ t = s) ∨
        ∃ q, t.processQueue = some q ∧ t.queueHandles.get handle = some q ∧
          (∀ p, s.processQueue = some p → p = q) ∧ s.processQueueHandle = none) := by
  unfold TaskQueues.getProcessQueueHandle at h
  split at h
  · rename_i cached hcached
    cases h
    exact ⟨hn, hcached, .inl ⟨hcached, rfl⟩⟩
  · rename_i hnone
    simp only [Option.bind_eq_bind, Option.bind_eq_some_iff] at h
    obtain ⟨⟨q, u⟩, hu, h⟩ := h
    obtain ⟨htable, hq, hsame, -⟩ := defaultProcessQueue_registry hu
    cases h
    have hpos : 0 < u.queueHandles.next := by rw [htable]; exact hn.pos
    have hget := HandleTable.get_create u.queueHandles q (Nat.pos_iff_ne_zero.mp hpos)
    refine ⟨⟨Nat.succ_pos _, ?_, fun _ => ?_⟩, rfl, .inr ⟨q, hq, hget, hsame, hnone⟩⟩
    · intro handle hh
      cases hh
      exact Nat.lt_succ_self _
    · show u.processQueue.isSome = true
      rw [hq]
      rfl

/-- What an operation must not do: close the cached handle, or install another queue than the one
it resolves to. -/
def Admin.keepsCache (s : Registry) : Admin → Bool
  | .closeQueueHandle handle => decide (s.processQueueHandle ≠ some handle)
  | .setProcessQueue (some q) =>
      s.processQueueHandle.all fun handle => decide (s.queueHandles.get handle = some q)
  | _ => true

theorem admin_numbered {a : Admin} (h : a.apply s = some t) (hn : s.Numbered) : t.Numbered := by
  have hsame : ∀ u : TaskQueues κ, u.queueHandles = s.queueHandles →
      u.processQueue = s.processQueue → u.processQueueHandle = s.processQueueHandle →
      u.Numbered := fun u h1 h2 h3 => Registry.Grew.numbered ⟨h2, h3, .inl h1⟩ hn
  cases a with
  | newQueue work completion =>
    obtain ⟨h1, h2, h3⟩ := newQueue_registry h
    exact hsame t h1 h2 h3
  | composite work completion =>
    obtain ⟨h1, h2, h3⟩ := composite_registry h
    exact hsame t h1 h2 h3
  | createQueueHandle q =>
    cases h
    have hg : s.toRegistry.Grew (s.createQueueHandle q).toRegistry := ⟨rfl, rfl, .inr ⟨q, rfl⟩⟩
    exact hg.numbered hn
  | closeQueueHandle handle =>
    cases h
    have hnext : (s.queueHandles.close handle).next = s.queueHandles.next := by
      unfold HandleTable.close
      split <;> rfl
    have hp := hn.pos
    refine ⟨by show 0 < (s.queueHandles.close handle).next; omega, fun other hh => ?_, hn.installed⟩
    have hlt := hn.cached other hh
    show other < (s.queueHandles.close handle).next
    omega
  | createPortHandle p => cases h; exact hsame _ rfl rfl rfl
  | registerMonitor i context =>
    simp only [Admin.apply, TaskQueues.registerMonitor, Option.bind_eq_bind,
      Option.bind_eq_some_iff] at h
    obtain ⟨q, hq, h⟩ := h
    split at h
    · cases h
    · cases h
      exact hsame _ rfl rfl rfl
  | unregisterMonitor i token =>
    simp only [Admin.apply, TaskQueues.unregisterMonitor, Option.bind_eq_bind,
      Option.bind_eq_some_iff] at h
    obtain ⟨q, hq, h⟩ := h
    split at h
    · cases h
    · cases h
      exact hsame _ rfl rfl rfl
  | setProcessQueue queue =>
    cases h
    cases queue with
    | some q => exact ⟨hn.pos, hn.cached, fun _ => rfl⟩
    | none => exact ⟨hn.pos, fun handle hh => (by cases hh), fun hh => (by cases hh)⟩
  | defaultProcessQueue =>
    obtain ⟨⟨q, u⟩, hu, rfl⟩ := Option.map_eq_some_iff.mp h
    exact defaultProcessQueue_numbered hu hn
  | processQueueHandle =>
    obtain ⟨⟨handle, u⟩, hu, rfl⟩ := Option.map_eq_some_iff.mp h
    exact (getProcessQueueHandle_registry hn hu).1

theorem admin_cached {a : Admin} (h : a.apply s = some t) (hn : s.Numbered) (hc : s.Cached)
    (ha : a.keepsCache s.toRegistry = true) : t.Cached := by
  have hsame : ∀ u : TaskQueues κ, u.queueHandles = s.queueHandles →
      u.processQueue = s.processQueue → u.processQueueHandle = s.processQueueHandle →
      u.Cached := by
    intro u h1 h2 h3 handle hh
    rw [h1, h2]
    exact hc handle (h3 ▸ hh)
  cases a with
  | newQueue work completion =>
    obtain ⟨h1, h2, h3⟩ := newQueue_registry h
    exact hsame t h1 h2 h3
  | composite work completion =>
    obtain ⟨h1, h2, h3⟩ := composite_registry h
    exact hsame t h1 h2 h3
  | createQueueHandle q =>
    cases h
    have hg : s.toRegistry.Grew (s.createQueueHandle q).toRegistry := ⟨rfl, rfl, .inr ⟨q, rfl⟩⟩
    exact (hg.cached hn).mpr hc
  | closeQueueHandle handle =>
    cases h
    have hne := of_decide_eq_true ha
    intro other hh
    obtain ⟨q, hq, hget⟩ := hc other hh
    refine ⟨q, hq, ?_⟩
    have hother : other ≠ handle := by
      rintro rfl
      exact hne hh
    show (s.queueHandles.close handle).get other = some q
    rw [HandleTable.get_close_of_ne _ _ _ hother]
    exact hget
  | createPortHandle p => cases h; exact hsame _ rfl rfl rfl
  | registerMonitor i context =>
    simp only [Admin.apply, TaskQueues.registerMonitor, Option.bind_eq_bind,
      Option.bind_eq_some_iff] at h
    obtain ⟨q, hq, h⟩ := h
    split at h
    · cases h
    · cases h
      exact hsame _ rfl rfl rfl
  | unregisterMonitor i token =>
    simp only [Admin.apply, TaskQueues.unregisterMonitor, Option.bind_eq_bind,
      Option.bind_eq_some_iff] at h
    obtain ⟨q, hq, h⟩ := h
    split at h
    · cases h
    · cases h
      exact hsame _ rfl rfl rfl
  | setProcessQueue queue =>
    cases h
    cases queue with
    | some q =>
      intro handle hh
      have hall : s.processQueueHandle.all _ = true := ha
      have hcached : s.processQueueHandle = some handle := hh
      rw [hcached] at hall
      exact ⟨q, rfl, of_decide_eq_true hall⟩
    | none =>
      intro handle hh
      cases hh
  | defaultProcessQueue =>
    obtain ⟨⟨q, u⟩, hu, rfl⟩ := Option.map_eq_some_iff.mp h
    exact defaultProcessQueue_cached hu hc
  | processQueueHandle =>
    obtain ⟨⟨handle, u⟩, hu, rfl⟩ := Option.map_eq_some_iff.mp h
    obtain ⟨-, hhandle, ⟨-, rfl⟩ | ⟨q, hq, hget, -⟩⟩ := getProcessQueueHandle_registry hn hu
    · exact hc
    · intro other hh
      rw [hhandle, Option.some.injEq] at hh
      subst hh
      exact ⟨q, hq, hget⟩

theorem applyAll_numbered {as : List Admin} (h : Admin.applyAll s as = some t)
    (hn : s.Numbered) : t.Numbered := by
  induction as generalizing s with
  | nil => cases h; exact hn
  | cons a as ih =>
    obtain ⟨u, hu, hr⟩ := Option.bind_eq_some_iff.mp h
    exact ih hr (admin_numbered hu hn)

/-- Operations that keep the cache in whatever state they run in. -/
theorem applyAll_cached {as : List Admin} (h : Admin.applyAll s as = some t) (hn : s.Numbered)
    (hc : s.Cached) (ha : ∀ a ∈ as, ∀ u : Registry, a.keepsCache u = true) : t.Cached := by
  induction as generalizing s with
  | nil => cases h; exact hc
  | cons a as ih =>
    obtain ⟨u, hu, hr⟩ := Option.bind_eq_some_iff.mp h
    have hcu := admin_cached hu hn hc (ha a (by simp) _)
    exact ih hr (admin_numbered hu hn) hcu fun b hb => ha b (by simp [hb])

end Operations

/-! ## Steps -/

section Steps
variable {κ : Type} {C : Client κ}

theorem registryStep_grew {s : TaskQueues κ} {f : Frame κ C.Frame}
    {o : Outcome (TaskQueues κ) (Frame κ C.Frame)} (h : registryStep C s f = some o) :
    s.toRegistry.Grew o.shared.toRegistry := by
  unfold registryStep at h
  split at h <;>
    simp only [Option.bind_eq_bind, Option.bind_eq_some_iff, Option.some.injEq,
      reduceCtorEq] at h
  · obtain ⟨q, hq, h⟩ := h
    split at h
    · cases h
    · split at h
      · cases h
        exact .rfl
      · split at h
        · cases h
          exact ⟨rfl, rfl, .inl rfl⟩
        · cases h
          exact ⟨rfl, rfl, .inr ⟨_, rfl⟩⟩
  · subst h
    exact .rfl
  · obtain ⟨q, hq, rfl⟩ := h
    exact ⟨rfl, rfl, .inl rfl⟩
  · obtain ⟨q, hq, rfl⟩ := h
    exact .rfl
  · subst h
    exact .rfl
  · subst h
    exact ⟨rfl, rfl, .inl rfl⟩

/-- Only what a client asks for can do more to the process queue than grow the table. -/
theorem step_registry {s : World C} {f : Frame κ C.Frame} {x : Option C.Choice}
    {o : Outcome (World C) (Frame κ C.Frame)} (h : (machine C).step s f x = some o) :
    s.toRegistry.Grew o.shared.toRegistry ∨
      ∃ g choice r, f = .client g ∧ x = some choice ∧
        C.step s.mem s.toTaskQueues g choice = some r ∧
        Admin.applyAll s.toTaskQueues r.admin = some o.shared.toTaskQueues ∧
        o.shared.mem = r.mem := by
  simp only [machine] at h
  split at h
  · rename_i g choice
    simp only [Option.bind_eq_bind, Option.bind_eq_some_iff, Option.some.injEq] at h
    obtain ⟨r, hr, t, ht, rfl⟩ := h
    exact .inr ⟨g, choice, r, rfl, rfl, hr, ht, rfl⟩
  · cases h
  · left
    simp only [Option.bind_eq_bind, Option.bind_eq_some_iff, Option.some.injEq] at h
    obtain ⟨q, hq, rfl⟩ := h
    unfold queueStep at hq
    split at hq
    · rename_i hreg
      cases hq
      exact registryStep_grew hreg
    · obtain ⟨b, hb, rfl⟩ := Option.map_eq_some_iff.mp hq
      exact .rfl

theorem Initial.registry {c : Config (World C) (Frame κ C.Frame)} (h0 : Initial C c) :
    c.shared.toRegistry.Numbered ∧ c.shared.toRegistry.Cached := by
  obtain ⟨pool, now, hq⟩ := h0.queues
  have hreg : c.shared.toRegistry = {} := by rw [hq]
  rw [hreg]
  exact ⟨⟨Nat.one_pos, fun _ h => (by cases h), fun h => (by cases h)⟩, fun _ h => (by cases h)⟩

/-- Handles stay numbered in every run. -/
theorem reaches_numbered {c₀ c : Config (World C) (Frame κ C.Frame)}
    {G : Guard (World C) (Frame κ C.Frame) (Option C.Choice)} (h0 : Initial C c₀)
    (h : (machine C).Reaches G c₀ c) : c.shared.toRegistry.Numbered := by
  refine h.preserved (I := fun s _ => s.toRegistry.Numbered) h0.registry.1 ?_
  intro s f R x o _ hn hs
  rcases step_registry hs with hg | ⟨g, choice, r, -, -, -, ht, -⟩
  · exact hg.numbered hn
  · exact applyAll_numbered ht hn

end Steps
end XGameRuntime.TaskQueue
