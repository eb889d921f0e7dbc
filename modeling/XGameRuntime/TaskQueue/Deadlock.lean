import XGameRuntime.Concurrency.Deadlock
import XGameRuntime.TaskQueue.InFlight
import XGameRuntime.TaskQueue.Rules
import XGameRuntime.Unregistration

/-! # Threads that block in the task queue

A thread waits for another one in two places of `src/com/xasync/task_queue.rs`: for the lock around
the monitors of a queue, which `Queue::notify_monitors` holds while it calls them, and in
`Port::terminate_context` for the callbacks in flight on a port. Nothing else blocks but sleep: of
workers and delayed callbacks, and of `Port::dispatch` until its deadline.
-/

namespace XGameRuntime.TaskQueue
open Concurrency
set_option autoImplicit false

/-- A frame that sleeps: it has found nothing to run yet. -/
def Frame.Asleep {κ γ : Type} (s : Core κ) : Frame κ γ → Prop
  | .worker p => ∃ port, s.ports[p]? = some port ∧ port.state.waitForTask s.now = .notYet
  | .delayed _ task => task.readyAt s.now = false
  | .dispatchWait d deadline => s.now < deadline ∧
      ∃ port, s.ports[d.port]? = some port ∧ port.state.waitForTask s.now = .notYet
  | _ => False

/-! ## What keeps a step from running -/

section Steps
variable {κ : Type} {C : Client κ} {s : World C} {x : Option C.Choice}
  {o : Outcome (World C) (Frame κ C.Frame)}

theorem step_notify {a : Submission κ C.Frame} (h : (machine C).step s (.notify a) x = some o) :
    (s.registrations a.queue).locked = false := by
  obtain ⟨q, hq, -⟩ := (step_queue (by simp)).mp h
  unfold queueStep at hq
  split at hq
  · rename_i hreg
    exact (notify_inv hreg).1
  · obtain ⟨b, hb, -⟩ := Option.map_eq_some_iff.mp hq
    cases hb

theorem step_awaitDrained {owner p : ℕ} {owners : List ℕ} {a : Termination C.Frame}
    (h : (machine C).step s (.awaitDrained owner owners a) x = some o) (ho : s.On owner p)
    {port : Port κ} (hp : s.ports[p]? = some port) : port.state.inFlight = 0 := by
  cases step_inv h with
  | registry hreg => cases hreg
  | core hcore =>
    cases hcore with
    | awaitDrained hc hp' hzero =>
      obtain ⟨context, hc', rfl⟩ := ho
      rw [hc, Option.some.injEq] at hc'
      subst hc'
      rw [hp, Option.some.injEq] at hp'
      rw [hp']
      exact hzero

/-- A call on the monitors of a queue goes through just when nobody holds the lock. -/
theorem MonitorCall.apply_iff {t : TaskQueues κ} (m : MonitorCall)
    (hq : m.queue < t.queues.length) :
    (∃ u, m.admin.apply t = some u) ↔ (t.registrations m.queue).locked = false := by
  have hqueue := List.getElem?_eq_getElem hq
  rw [registrations_some hqueue]
  cases m with
  | register q context =>
    have hqueue' : t.queues[q]? = some t.queues[q] := hqueue
    simp only [MonitorCall.admin, Admin.apply, TaskQueues.registerMonitor, hqueue',
      Option.bind_eq_bind, Option.bind_some, MonitorCall.queue]
    cases t.queues[q].monitorsLocked <;> simp
  | unregister q token =>
    have hqueue' : t.queues[q]? = some t.queues[q] := hqueue
    simp only [MonitorCall.admin, Admin.apply, TaskQueues.unregisterMonitor, hqueue',
      Option.bind_eq_bind, Option.bind_some, MonitorCall.queue]
    cases t.queues[q].monitorsLocked <;> simp

theorem queueStep_of_core {f : Frame κ C.Frame} {b : Outcome (Core κ) (Frame κ C.Frame)}
    (h : coreStep C.body s.toCore f = some b) : ∃ o, queueStep C s.toTaskQueues f = some o := by
  unfold queueStep
  split
  · exact ⟨_, rfl⟩
  · rw [h]
    exact ⟨_, rfl⟩

theorem queueStep_of_registry {f : Frame κ C.Frame}
    {o : Outcome (TaskQueues κ) (Frame κ C.Frame)}
    (h : registryStep C s.toTaskQueues f = some o) :
    ∃ o, queueStep C s.toTaskQueues f = some o := by
  unfold queueStep
  rw [h]
  exact ⟨_, rfl⟩

/-- What is to be found, a frame of the queue finds; and unless it sleeps or has to wait, it runs. -/
theorem queueStep_enabled {f : Frame κ C.Frame} (hclient : ∀ g, f ≠ .client g)
    (hqueue : ∀ q ∈ f.queues, q < s.queues.length)
    (hcontext : ∀ owner ∈ f.contexts, ∃ context port, s.contexts[owner]? = some context ∧
      s.ports[context.port]? = some port)
    (hport : ∀ p ∈ f.ports, p < s.ports.length) :
    (∃ o, queueStep C s.toTaskQueues f = some o) ∨ f.Asleep s.toCore ∨
      (∃ a, f = .notify a ∧ (s.registrations a.queue).locked = true) ∨
      ∃ owner owners a p port, f = .awaitDrained owner owners a ∧ s.On owner p ∧
        s.ports[p]? = some port ∧ port.state.inFlight ≠ 0 := by
  have hports : ∀ p ∈ f.ports, ∃ port, s.ports[p]? = some port :=
    fun p hp => ⟨_, List.getElem?_eq_getElem (hport p hp)⟩
  have hqueues : ∀ q ∈ f.queues, ∃ queue, s.queues[q]? = some queue :=
    fun q hq => ⟨_, List.getElem?_eq_getElem (hqueue q hq)⟩
  cases f with
  | client g => exact absurd rfl (hclient g)
  | clock | submitDue | invoke | running | dispatch => exact .inl (queueStep_of_core rfl)
  | terminateReturn => exact .inl (queueStep_of_registry rfl)
  | notify a =>
    obtain ⟨q, hq⟩ := hqueues a.queue (List.mem_singleton_self _)
    cases hlocked : q.monitorsLocked with
    | true =>
      refine .inr (.inr (.inl ⟨a, rfl, ?_⟩))
      rw [registrations_some hq]
      exact hlocked
    | false =>
      have hreg : ∃ o, registryStep C s.toTaskQueues (.notify a) = some o := by
        simp only [registryStep, hq, hlocked, Option.bind_eq_bind, Option.bind_some,
          Bool.false_eq_true, if_false]
        split
        · exact ⟨_, rfl⟩
        · split <;> exact ⟨_, rfl⟩
      obtain ⟨o, ho⟩ := hreg
      exact .inl (queueStep_of_registry ho)
  | notifying a handle monitors =>
    left
    cases monitors with
    | cons monitor rest => exact queueStep_of_registry rfl
    | nil =>
      obtain ⟨q, hq⟩ := hqueues a.queue (List.mem_singleton_self _)
      exact queueStep_of_registry (by simp only [registryStep, hq]; rfl)
  | terminateQueue a =>
    obtain ⟨q, hq⟩ := hqueues a.queue (List.mem_singleton_self _)
    exact .inl (queueStep_of_registry (by simp only [registryStep, hq]; rfl))
  | submitContext a owner =>
    obtain ⟨context, port, hc, hp⟩ := hcontext owner (List.mem_singleton_self _)
    exact .inl (queueStep_of_core (by simp only [coreStep, hc]; rfl))
  | submitPort a task ownerTerminated =>
    obtain ⟨context, port, hc, hp⟩ := hcontext task.owner (List.mem_singleton_self _)
    exact .inl (queueStep_of_core (by
      simp only [coreStep, hc, hp, Option.bind_eq_bind, Option.bind_some]; rfl))
  | finishOne p =>
    obtain ⟨port, hp⟩ := hports p (List.mem_singleton_self _)
    exact .inl (queueStep_of_core (by simp only [coreStep, hp]; rfl))
  | worker p =>
    obtain ⟨port, hp⟩ := hports p (List.mem_singleton_self _)
    cases hw : port.state.waitForTask s.now with
    | terminated | ready =>
      exact .inl (queueStep_of_core (by
        simp only [coreStep, hp, hw, Option.bind_eq_bind, Option.bind_some]; rfl))
    | notYet => exact .inr (.inl ⟨port, hp, hw⟩)
  | delayed p task =>
    obtain ⟨port, hp⟩ := hports p (List.mem_singleton_self _)
    cases hready : task.readyAt s.now with
    | true => exact .inl (queueStep_of_core (by simp [coreStep, hp, hready]; rfl))
    | false => exact .inr (.inl hready)
  | dispatchWait d deadline =>
    obtain ⟨port, hp⟩ := hports d.port (List.mem_singleton_self _)
    cases hw : port.state.waitForTask s.now with
    | terminated | ready =>
      exact .inl (queueStep_of_core (by
        simp only [coreStep, hp, hw, Option.bind_eq_bind, Option.bind_some]; rfl))
    | notYet =>
      by_cases hlate : deadline ≤ s.now
      · exact .inl (queueStep_of_core (by
          simp only [coreStep, hp, hw, Option.bind_eq_bind, Option.bind_some, if_pos hlate]
          rfl))
      · exact .inr (.inl ⟨Nat.not_le.mp hlate, port, hp, hw⟩)
  | drainReady d =>
    obtain ⟨port, hp⟩ := hports d.port (List.mem_singleton_self _)
    exact .inl (queueStep_of_core (by simp only [coreStep, hp]; rfl))
  | dispatchBatch d batch total =>
    obtain ⟨port, hp⟩ := hports d.port (List.mem_singleton_self _)
    left
    cases batch with
    | nil => exact queueStep_of_core (by simp only [coreStep, hp]; rfl)
    | cons task rest => exact queueStep_of_core rfl
  | terminate owners a =>
    left
    cases owners with
    | nil => exact queueStep_of_registry rfl
    | cons owner owners =>
      obtain ⟨context, port, hc, hp⟩ := hcontext owner List.mem_cons_self
      exact queueStep_of_core (by simp only [coreStep, hc]; rfl)
  | terminateContext owner owners a =>
    obtain ⟨context, port, hc, hp⟩ := hcontext owner List.mem_cons_self
    exact .inl (queueStep_of_core (by
      simp only [coreStep, hc, hp, Option.bind_eq_bind, Option.bind_some]; rfl))
  | cancel owner pending drainRest owners a =>
    obtain ⟨context, port, hc, hp⟩ := hcontext owner List.mem_cons_self
    left
    cases pending with
    | cons task rest => exact queueStep_of_core rfl
    | nil =>
      cases drainRest with
      | true =>
        exact queueStep_of_core (by
          simp only [coreStep, hc, hp, Option.bind_eq_bind, Option.bind_some]; rfl)
      | false =>
        cases hwait : a.wait with
        | true => exact queueStep_of_core (by simp only [coreStep, hwait]; rfl)
        | false => exact queueStep_of_core (by simp only [coreStep, hwait]; rfl)
  | awaitDrained owner owners a =>
    obtain ⟨context, port, hc, hp⟩ := hcontext owner List.mem_cons_self
    by_cases hzero : port.state.inFlight = 0
    · exact .inl (queueStep_of_core (by
        simp only [coreStep, hc, hp, Option.bind_eq_bind, Option.bind_some, if_pos hzero]
        rfl))
    · exact .inr (.inr (.inr ⟨owner, owners, a, context.port, port, rfl, ⟨context, hc, rfl⟩, hp,
        hzero⟩))

/-- A frame that sleeps does not run. -/
theorem Frame.Asleep.blocked {f : Frame κ C.Frame} (h : f.Asleep s.toCore) :
    (machine C).step s f x = none := by
  rw [Option.eq_none_iff_forall_ne_some]
  intro o ho
  cases f with
  | worker p =>
    obtain ⟨port, hp, hw⟩ := h
    obtain ⟨q, hq, -⟩ := (step_queue (by simp)).mp ho
    simp [queueStep, registryStep, coreStep, hp, hw] at hq
  | delayed p task =>
    have hready : task.readyAt s.now = false := h
    obtain ⟨q, hq, -⟩ := (step_queue (by simp)).mp ho
    simp [queueStep, registryStep, coreStep, hready] at hq
  | dispatchWait d deadline =>
    obtain ⟨hearly, port, hp, hw⟩ := h
    obtain ⟨q, hq, -⟩ := (step_queue (by simp)).mp ho
    simp [queueStep, registryStep, coreStep, hp, hw, Nat.not_le.mpr hearly] at hq
  | _ => exact h

end Steps

/-! ## What is waited for -/

/-- What a thread may have to wait for. -/
inductive Resource where
  /-- The lock around the monitors of queue `q`. -/
  | monitors (q : ℕ)
  /-- That nothing is in flight on port `p`. -/
  | flights (p : ℕ)
  deriving DecidableEq, Repr

def Frame.Awaits (s : TaskQueues ℕ) (f : Frame ℕ RuledFrame) : Resource → Prop
  | .monitors q =>
      (∃ m, f = .client (.monitor m) ∧ m.queue = q) ∨ ∃ a, f = .notify a ∧ a.queue = q
  | .flights p => ∃ owner owners a, f = .awaitDrained owner owners a ∧ s.On owner p

def Frame.Holds (f : Frame ℕ RuledFrame) : Resource → Prop
  | .monitors q => ∃ a handle monitors, f = .notifying a handle monitors ∧ a.queue = q
  | .flights p => 0 < f.inFlight p

def TaskQueues.Busy (s : TaskQueues ℕ) : Resource → Prop
  | .monitors q => (s.registrations q).locked = true
  | .flights p => ∃ port, s.ports[p]? = some port ∧ port.state.inFlight ≠ 0

section Blocking
variable {rules : Rules} {s : World (RuledGame rules)} {f : Frame ℕ RuledFrame}
  {R fs : Multiset (Frame ℕ RuledFrame)}

/-- What is busy is what some frame holds. -/
structure Accounted (s : World (RuledGame rules)) (fs : Multiset (Frame ℕ RuledFrame)) : Prop where
  inFlight : InFlight s.toCore fs
  monitors : ∀ q, (s.registrations q).Kept Monitor.token (notifyMonitors (RuledGame rules) q) fs

theorem Frame.holds_monitors {q : ℕ} :
    f.Holds (.monitors q) ↔ ((notifyMonitors (RuledGame rules) q).left f).isSome = true := by
  constructor
  · rintro ⟨a, handle, monitors, rfl, hq⟩
    exact Option.isSome_iff_exists.mpr ⟨monitors, if_pos hq⟩
  · intro h
    cases f with
    | notifying a handle monitors =>
      refine ⟨a, handle, monitors, rfl, ?_⟩
      by_contra hne
      simp [notifyMonitors, hne] at h
    | _ => cases h

theorem Accounted.busy_iff (h : Accounted s fs) (r : Resource) :
    s.Busy r ↔ ∃ g ∈ fs, g.Holds r := by
  cases r with
  | monitors q =>
    have hK := h.monitors q
    constructor
    · intro hb
      have hb' : (s.registrations q).locked = true := hb
      have hw := hK.exclusive
      rw [if_pos hb'] at hw
      by_contra hnone
      have hnil : ∀ g ∈ fs, (notifyMonitors (RuledGame rules) q).left g = none := by
        intro g hg
        by_contra hl
        exact hnone ⟨g, hg, Frame.holds_monitors.mpr (Option.isSome_iff_ne_none.mpr hl)⟩
      rw [Notifier.weight_inside hnil] at hw
      cases hw
    · rintro ⟨g, hg, hheld⟩
      obtain ⟨l, hl⟩ := Option.isSome_iff_exists.mp (Frame.holds_monitors.mp hheld)
      exact hK.locked hg hl
  | flights p =>
    constructor
    · rintro ⟨port, hp, hne⟩
      by_contra hnone
      refine hne ((h.inFlight.count p port hp).trans (weight_eq_zero _ fun g hg => ?_))
      by_contra hg'
      exact hnone ⟨g, hg, Nat.pos_of_ne_zero hg'⟩
    · rintro ⟨g, hg, hheld⟩
      have hpos : 0 < g.inFlight p := hheld
      have hle := le_weight (w := Frame.inFlight p) hg
      cases hp : s.ports[p]? with
      | none =>
        rw [h.inFlight.fresh p hp] at hle
        exact absurd hle (Nat.not_le.mpr hpos)
      | some port =>
        have hcount := h.inFlight.count p port hp
        exact ⟨port, hp, by omega⟩

/-- What needs something busy does not run. -/
theorem Frame.Awaits.blocked {r : Resource} (h : f.Awaits s.toTaskQueues r) (hb : s.Busy r)
    (x : Option RuledChoice) : (machine (RuledGame rules)).step s f x = none := by
  rw [Option.eq_none_iff_forall_ne_some]
  intro o hs
  cases r with
  | monitors q =>
    have hlocked : (s.registrations q).locked = true := hb
    rcases h with ⟨m, rfl, rfl⟩ | ⟨a, rfl, rfl⟩
    · rcases client_or_queue hs with ⟨code, choice, r, t, he, hr, ht, -⟩ | ⟨o', ho, -⟩
      · cases he
        cases hr
        obtain ⟨u, hu, -⟩ := Option.bind_eq_some_iff.mp ht
        have hq : m.queue < s.queues.length := by
          by_contra hq
          rw [registrations_none (List.getElem?_eq_none (Nat.not_lt.mp hq))] at hlocked
          cases hlocked
        rw [(m.apply_iff hq).mp ⟨u, hu⟩] at hlocked
        cases hlocked
      · cases ho
    · rw [step_notify hs] at hlocked
      cases hlocked
  | flights p =>
    obtain ⟨owner, owners, a, rfl, ho⟩ := h
    obtain ⟨port, hp, hne⟩ := hb
    exact hne (step_awaitDrained hs ho hp)

/-- What a frame needs, it goes on needing. -/
theorem Frame.Awaits.stays {g : Frame ℕ RuledFrame} {r : Resource} {x : Option RuledChoice}
    {o : Outcome (World (RuledGame rules)) (Frame ℕ RuledFrame)} (h : f.Awaits s.toTaskQueues r)
    (hs : (machine (RuledGame rules)).step s g x = some o) : f.Awaits o.shared.toTaskQueues r := by
  cases r with
  | monitors q => exact h
  | flights p =>
    obtain ⟨owner, owners, a, hf, ho⟩ := h
    exact ⟨owner, owners, a, hf, (step_inv hs).later.on ho⟩

theorem machine_waits (rules : Rules) : (machine (RuledGame rules)).Waits
    (fun s f r => Frame.Awaits s.toTaskQueues f r) Frame.Holds Accounted where
  blocked := by
    intro s f g R r hI hneed hg hheld x
    exact hneed.blocked ((hI.busy_iff r).mpr ⟨g, hg, hheld⟩) x
  stays := fun hneed hs => hneed.stays hs

/-- What runs neither sleeps nor needs anything busy, and whatever else there is runs. -/
theorem enabled_or_awaits (hr : Resolved s.toTaskQueues fs) (hP : Placed s.toCore fs)
    (hS : ∀ g ∈ fs, g.Sound s.toTaskQueues) (hf : f ∈ fs) :
    (∃ x o, (machine (RuledGame rules)).step s f x = some o) ∨ f.Asleep s.toCore ∨
      ∃ r, f.Awaits s.toTaskQueues r ∧ s.Busy r := by
  by_cases hclient : ∃ g, f = .client g
  · obtain ⟨g, rfl⟩ := hclient
    cases g with
    | code caller => exact .inl ⟨some .finish, _, rfl⟩
    | ret value => exact .inl ⟨some .finish, _, rfl⟩
    | monitor m =>
      have hq : m.queue < s.queues.length := (hS _ hf).monitor m rfl
      cases hlocked : (s.registrations m.queue).locked with
      | true => exact .inr (.inr ⟨.monitors m.queue, .inl ⟨m, rfl, rfl⟩, hlocked⟩)
      | false =>
        obtain ⟨u, hu⟩ := (m.apply_iff hq).mpr hlocked
        refine .inl ⟨some .finish, ⟨⟨u, s.mem⟩, [], []⟩, ?_⟩
        simp [machine, Admin.applyAll, hu]
    | processQueue =>
      obtain ⟨q, u, hu⟩ := defaultProcessQueue_made s.toTaskQueues
      refine .inl ⟨some .finish, Option.isSome_iff_exists.mp ?_⟩
      simp [machine, createProcessQueueHandle, Admin.applyAll, Admin.apply, hu]
  · have hk := hr.frames f hf
    have hcontext : ∀ owner ∈ f.contexts, ∃ context port, s.contexts[owner]? = some context ∧
        s.ports[context.port]? = some port := by
      intro owner ho
      have hc := List.getElem?_eq_getElem (hk.contexts owner ho)
      obtain ⟨port, hp⟩ := hP.context owner _ hc
      exact ⟨_, port, hc, hp⟩
    have hne : ∀ g, f ≠ .client g := fun g he => hclient ⟨g, he⟩
    rcases queueStep_enabled (C := RuledGame rules) hne hk.queues hcontext (hS f hf).ports with
      ⟨q, hq⟩ | hasleep | ⟨a, rfl, hlocked⟩ | ⟨owner, owners, a, p, port, rfl, ho, hp, hne⟩
    · exact .inl ⟨none, _, (step_queue hne).mpr ⟨q, hq, rfl⟩⟩
    · exact .inr (.inl hasleep)
    · exact .inr (.inr ⟨.monitors a.queue, .inr ⟨a, rfl, rfl⟩, hlocked⟩)
    · exact .inr (.inr ⟨.flights p, ⟨owner, owners, a, rfl, ho⟩, port, hp, hne⟩)

end Blocking

/-! ## Threads of the runtime -/

section Background
variable {κ : Type} {C : Client κ}

/-- The loop of a worker, or the thread of a delayed callback. -/
def Frame.background {γ : Type} : Frame κ γ → Bool
  | .worker _ | .delayed _ _ => true
  | _ => false

theorem background_outer {γ : Type} {f : Frame κ γ} (h : f.isOuter = true) :
    f.background = false := by
  cases f with
  | worker | delayed => cases h
  | _ => rfl

theorem pairwise_background {γ : Type} {l : List (Frame κ γ)}
    (h : ∀ g ∈ l, g.background = false) : l.Pairwise fun g _ => g.background = false :=
  List.pairwise_of_forall_mem_list fun g hg _ _ => h g hg

theorem ordered_background {σ γ : Type} {f : Frame κ γ} {o : Outcome σ (Frame κ γ)}
    (hpush : ∀ g ∈ o.push, g.background = false)
    (hspawn : ∀ k ∈ o.spawn, k.Pairwise fun g _ => g.background = false) :
    o.Ordered (fun g _ => g.background = false) f :=
  ⟨pairwise_background hpush, fun g hg _ _ => hpush g hg, hspawn⟩

theorem CoreStep.background {γ : Type} {body : κ → Bool → List γ} {s : Core κ} {f : Frame κ γ}
    {o : Outcome (Core κ) (Frame κ γ)} (h : CoreStep body s f o) :
    o.Ordered (fun g _ => g.background = false) f := by
  have hclients : ∀ gs : List γ, ∀ g ∈ gs.map (Frame.client (κ := κ)), g.background = false :=
    fun gs => List.forall_mem_map.mpr fun _ _ => rfl
  cases h with
  | @workerTake p port task rest =>
    refine ⟨?_, fun g hg _ hf => (by cases hf), List.forall_mem_nil _⟩
    simp [Frame.background]
  | acceptDelayed =>
    exact ordered_background (hclients _)
      (List.forall_mem_singleton.mpr (List.pairwise_singleton _ _))
  | acceptQueued =>
    refine ordered_background (hclients _) fun k hk => ?_
    rw [List.eq_of_mem_replicate hk]
    exact List.pairwise_singleton _ _
  | refuse | dispatchExit | batchEnd => exact ordered_background (hclients _) (List.forall_mem_nil _)
  | acceptInline =>
    refine ordered_background ?_ (List.forall_mem_nil _)
    exact List.forall_mem_cons.mpr ⟨rfl, List.forall_mem_cons.mpr ⟨rfl, hclients _⟩⟩
  | invoke =>
    refine ordered_background ?_ (List.forall_mem_nil _)
    exact List.forall_mem_append.mpr ⟨hclients _, List.forall_mem_singleton.mpr rfl⟩
  | _ =>
    refine ordered_background ?_ (List.forall_mem_nil _)
    simp [Frame.background]

theorem step_background {s : World C} {f : Frame κ C.Frame} {x : Option C.Choice}
    {o : Outcome (World C) (Frame κ C.Frame)} (h : (machine C).step s f x = some o) :
    o.Ordered (fun g _ => g.background = false) f := by
  rcases (step_inv h).split with ⟨-, -, hpush, hspawn⟩ | ⟨o', ho, -, hpush, hspawn⟩
  · exact ordered_background (fun g hg => background_outer (hpush g hg)) fun k hk =>
      pairwise_background fun g hg => background_outer (hspawn k hk g hg)
  · have hb := ho.background
    exact ⟨hpush ▸ hb.push, hpush ▸ hb.passes, hspawn ▸ hb.spawn⟩

end Background

/-! ## Specification -/

namespace RuledGame
variable {rules : Rules} {c₀ c d : Config (World (RuledGame rules)) (Frame ℕ RuledFrame)}

/-- Thread `i` can take a step. -/
def Able (c : Config (World (RuledGame rules)) (Frame ℕ RuledFrame)) (i : ℕ) : Prop :=
  ∃ x c', (machine (RuledGame rules)).fire c i x = some c'

/-- What thread `i` would run has to wait for thread `j`. -/
def WaitsFor (c : Config (World (RuledGame rules)) (Frame ℕ RuledFrame)) (i j : ℕ) : Prop :=
  c.WaitsFor (fun s f r => Frame.Awaits s.toTaskQueues f r) Frame.Holds i j

/-- Each of these threads waits for one of them. -/
def Knot (c : Config (World (RuledGame rules)) (Frame ℕ RuledFrame)) (S : Set ℕ) : Prop :=
  c.Knot (fun s f r => Frame.Awaits s.toTaskQueues f r) Frame.Holds S

/-- Thread `i` sleeps in `Port::dispatch`, which its deadline ends. -/
def Dozes (c : Config (World (RuledGame rules)) (Frame ℕ RuledFrame)) (i : ℕ) : Prop :=
  ∃ call deadline, c.top i = some (.dispatchWait call deadline) ∧ c.shared.now < deadline

theorem Starts.accounted (h0 : Starts c₀)
    (h : (machine (RuledGame rules)).Reaches anyStep c₀ c) : Accounted c.shared c.frames :=
  ⟨h0.initial.inFlight h, fun q => h0.initial.kept h q⟩

theorem Starts.background (h0 : Starts c₀)
    (h : (machine (RuledGame rules)).Reaches anyStep c₀ c) :
    ∀ k ∈ c.threads, k.Pairwise fun g _ => g.background = false := by
  refine h.ordered (fun k hk => pairwise_background fun g hg => ?_) fun _ _ _ _ hs =>
    step_background hs
  exact background_outer (h0.initial.outer g
    (Multiset.mem_coe.mpr (List.mem_flatten.mpr ⟨k, hk, hg⟩)))

theorem able_iff {i : ℕ} {f : Frame ℕ RuledFrame} (htop : c.top i = some f) :
    Able c i ↔ ∃ x o, (machine (RuledGame rules)).step c.shared f x = some o := by
  obtain ⟨l, hl, hf⟩ := Option.bind_eq_some_iff.mp htop
  cases l with
  | nil => cases hf
  | cons g k =>
    cases hf
    constructor
    · rintro ⟨x, c', hfire⟩
      obtain ⟨o, hs, -⟩ := fire_thread hl hfire
      exact ⟨x, o, hs⟩
    · rintro ⟨x, o, hs⟩
      refine ⟨x, ⟨o.shared, c.threads.set i (o.push ++ k) ++ o.spawn⟩, ?_⟩
      unfold Machine.fire
      rw [hl]
      exact Option.map_eq_some_iff.mpr ⟨o, hs, rfl⟩

/-- A thread can go on just when it does not sleep and waits for no thread. -/
theorem Starts.able (h0 : Starts c₀) (h : (machine (RuledGame rules)).Reaches anyStep c₀ c)
    {i : ℕ} {f : Frame ℕ RuledFrame} (htop : c.top i = some f) :
    Able c i ↔ ¬ f.Asleep c.shared.toCore ∧ ∀ j, ¬ WaitsFor c i j := by
  have hacc := h0.accounted h
  constructor
  · intro hable
    refine ⟨fun hasleep => ?_, fun j hwait => ?_⟩
    · obtain ⟨x, o, hs⟩ := (able_iff htop).mp hable
      rw [hasleep.blocked] at hs
      cases hs
    · obtain ⟨x, c', hfire⟩ := hable
      rw [Config.WaitsFor.blocked (machine_waits rules) hacc hwait x] at hfire
      cases hfire
  · rintro ⟨hawake, hfree⟩
    have hf : f ∈ c.frames := by
      rw [frames_eq htop]
      exact Multiset.mem_cons_self _ _
    rcases enabled_or_awaits (h0.initial.resolved (RuledGame.grounded rules) h)
      (h0.initial.placed h) (h0.sound h) hf with hstep | hasleep | ⟨r, hneed, hbusy⟩
    · exact (able_iff htop).mpr hstep
    · exact absurd hasleep hawake
    · obtain ⟨g, hg, hheld⟩ := (hacc.busy_iff r).mp hbusy
      obtain ⟨j, k, hk, hgk⟩ := mem_frames_iff.mp hg
      exact absurd ⟨f, r, k, g, htop, hneed, hk, hgk, hheld⟩ (hfree j)

/-- A thread that others wait for, and that waits for none, can go on or dozes. -/
theorem Starts.able_or_dozes (h0 : Starts c₀)
    (h : (machine (RuledGame rules)).Reaches anyStep c₀ c) {i j : ℕ} (hwait : WaitsFor c i j)
    (hfree : ∀ l, ¬ WaitsFor c j l) : Able c j ∨ Dozes c j := by
  obtain ⟨f, r, k, g, -, -, hk, hg, hheld⟩ := hwait
  cases k with
  | nil => cases hg
  | cons f' k =>
    have htop : c.top j = some f' := top_eq hk
    by_cases hawake : f'.Asleep c.shared.toCore
    · right
      have hbottom : f'.background = false := by
        rcases List.mem_cons.mp hg with rfl | hg
        · cases g with
          | worker | delayed =>
            cases r with
            | monitors q =>
              obtain ⟨a, handle, monitors, he, -⟩ := hheld
              cases he
            | flights p => cases hheld
          | _ => rfl
        · exact (List.pairwise_cons.mp (h0.background h _ (List.mem_of_getElem? hk))).1 g hg
      cases f' with
      | dispatchWait call deadline => exact ⟨call, deadline, htop, hawake.1⟩
      | worker | delayed => cases hbottom
      | _ => exact absurd hawake (by simp [Frame.Asleep])
    · exact .inl ((h0.able h htop).mpr ⟨hawake, hfree⟩)

/-- Which threads are blocked, for how long, and by whom. -/
structure Blocking (c : Config (World (RuledGame rules)) (Frame ℕ RuledFrame)) : Prop where
  able : ∀ i f, c.top i = some f →
    (Able c i ↔ ¬ f.Asleep c.shared.toCore ∧ ∀ j, ¬ WaitsFor c i j)
  /-- Threads that wait for one another in a knot never run again. -/
  knot : ∀ S, Knot c S → ∀ d, (machine (RuledGame rules)).Reaches anyStep c d →
    Knot d S ∧ ∀ i ∈ S, d.threads[i]? = c.threads[i]?
  /-- Any other thread that waits does so, in the end, for one that can go on, or will. -/
  free : ∀ i, (∃ j, WaitsFor c i j) → (∀ S, Knot c S → i ∉ S) →
    ∃ l, Relation.TransGen (WaitsFor c) i l ∧ (Able c l ∨ Dozes c l)

theorem Starts.free (h0 : Starts c₀) (h : (machine (RuledGame rules)).Reaches anyStep c₀ c)
    {i : ℕ} (hwait : ∃ j, WaitsFor c i j) (hknot : ∀ S, Knot c S → i ∉ S) :
    ∃ l, Relation.TransGen (WaitsFor c) i l ∧ (Able c l ∨ Dozes c l) := by
  rcases Config.knot_or_free (fun s f r => Frame.Awaits s.toTaskQueues f r) Frame.Holds c i with
    ⟨S, hi, hS⟩ | ⟨l, hl, hfree⟩
  · exact absurd hi (hknot S hS)
  · rcases Relation.ReflTransGen.cases_tail hl with rfl | ⟨b, hb, hlast⟩
    · obtain ⟨j, hj⟩ := hwait
      exact absurd hj (hfree j)
    · exact ⟨l, .tail' hb hlast, h0.able_or_dozes h hlast hfree⟩

/-- In every state of every run of a game that calls the task queue from any number of threads, a
thread can go on unless it sleeps or waits for a thread that holds what it needs; threads that wait
for one another in a knot, one that waits for itself among them, never run again; and any other
thread that waits does so, in the end, for one that can go on or dispatches until its deadline. -/
theorem blocked_exactly_by_knots (h0 : Starts c₀)
    (h : (machine (RuledGame rules)).Reaches anyStep c₀ c) : Blocking c where
  able _ _ htop := h0.able h htop
  knot _ hS _ hd := Config.Knot.reaches (machine_waits rules)
    (fun _ he => h0.accounted (h.trans he)) hS hd
  free _ hwait hknot := h0.free h hwait hknot

/-- A callback of an Immediate queue terminates the queue and waits. -/
def selfTermination : List (ℕ × Option RuledChoice) :=
  [(1, some (.call (.create 3 3 true)))] ++ List.replicate 1 (1, some .finish) ++
    [(1, some (.call (.submitDelayedCallback 1 0 0 (some 7))))] ++
    List.replicate 5 (1, some .finish) ++ [(1, some (.call (.terminate 1 true [])))] ++
    List.replicate 5 (1, some .finish)

/-- The callback waits for itself, and its thread never runs again. -/
theorem blocked_exactly_by_knots_self :
    ∃ c, (machine (RuledGame fun _ _ => true)).Reaches anyStep (start (fun _ _ => true) 2 1) c ∧
      WaitsFor c 1 1 ∧ ∀ d, (machine (RuledGame fun _ _ => true)).Reaches anyStep c d →
        d.threads[1]? = c.threads[1]? := by
  obtain ⟨c, hc⟩ : ∃ c, (machine (RuledGame fun _ _ => true)).run anyStep selfTermination
    (start (fun _ _ => true) 2 1) = some c := ⟨_, rfl⟩
  have hstack : c.threads[1]? = some [.awaitDrained 0 [1] ⟨0, true, [.ret 0]⟩,
      .client (.code .callback), .running ⟨7, 0, none, 0⟩ false, .finishOne 0, .client (.ret 0),
      .client (.code .thread)] := run_at hc (fun c => c.threads[1]?) rfl
  have hcontext : (c.shared.contexts[0]?).map PortContext.port = some 0 :=
    run_at hc (fun c => (c.shared.contexts[0]?).map PortContext.port) rfl
  have hwait : WaitsFor c 1 1 := by
    obtain ⟨context, hcontext, hport⟩ := Option.map_eq_some_iff.mp hcontext
    refine ⟨_, .flights 0, _, .finishOne 0, top_eq hstack, ?_, hstack, by simp, Nat.one_pos⟩
    exact ⟨0, [1], _, rfl, context, hcontext, hport⟩
  have hr := Machine.Reaches.of_run hc
  refine ⟨c, hr, hwait, fun d hd => ?_⟩
  have hblocking := blocked_exactly_by_knots (starts _ 2 1) hr
  exact (hblocking.knot {1} (fun i hi => ⟨1, rfl, hi ▸ hwait⟩) d hd).2 1 rfl

end RuledGame
end XGameRuntime.TaskQueue
