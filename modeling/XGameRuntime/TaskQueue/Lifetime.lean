import XGameRuntime.TaskQueue.Dispatch
import XGameRuntime.TaskQueue.Use

/-! # Ports that nothing uses any more

The runtime drops a port with the last reference to it, and with the port the callbacks that it
holds. A callback that is still queued when that happens is one that nothing could have called:
its port is a Manual one that has not been terminated, and the game has closed every handle through
which it could dispatch it.
-/

namespace XGameRuntime.TaskQueue
open Concurrency
set_option autoImplicit false

/-! ## Steps -/

section Steps
variable {κ : Type} {C : Client κ}

/-- Code that comes to queues and ports through the tables alone. -/
def Client.Grounded (C : Client κ) : Prop :=
  ∀ (s : World C) (g : C.Frame) (choice : C.Choice) (r : ClientStep κ C.Mem C.Frame)
    (t : TaskQueues κ), C.step s.mem s.toTaskQueues g choice = some r →
    Admin.applyAll s.toTaskQueues r.admin = some t → s.toTaskQueues.Named →
    TaskQueue.Grounded s.toTaskQueues t (r.run ++ r.spawn.flatten)

theorem QueueGame.grounded : QueueGame.Grounded := by
  intro s g choice r t hr ht hn
  have hquiet : ∀ gs : List GameFrame,
      TaskQueue.Grounded s.toTaskQueues s.toTaskQueues (gs.map (Instr.frame (κ := ℕ))) := .rets hn
  cases g with
  | ret value => cases hr; cases ht; exact hquiet []
  | processQueue =>
    cases hr
    exact createProcessQueueHandle_grounded [GameFrame.ret 1] hn ht
  | code =>
    cases choice with
    | thread => cases hr; cases ht; exact hquiet [.code, .code]
    | finish => cases hr; cases ht; exact hquiet []
    | call c =>
      cases hr
      exact (perform_grounded c hn ht).with_code _

theorem client_or_queue {s : World C} {f : Frame κ C.Frame} {x : Option C.Choice}
    {o : Outcome (World C) (Frame κ C.Frame)} (h : (machine C).step s f x = some o) :
    (∃ g choice r t, f = .client g ∧ C.step s.mem s.toTaskQueues g choice = some r ∧
      Admin.applyAll s.toTaskQueues r.admin = some t ∧
      o = ⟨⟨t, r.mem⟩, r.run.map Instr.toFrame, r.spawn.map (·.map Instr.toFrame)⟩) ∨
    ∃ q, queueStep C s.toTaskQueues f = some q ∧ o = ⟨⟨q.shared, s.mem⟩, q.push, q.spawn⟩ := by
  simp only [machine] at h
  split at h
  · rename_i g choice
    simp only [Option.bind_eq_bind, Option.bind_eq_some_iff, Option.some.injEq] at h
    obtain ⟨r, hr, t, ht, rfl⟩ := h
    exact .inl ⟨g, choice, r, t, rfl, hr, ht, rfl⟩
  · cases h
  · simp only [Option.bind_eq_bind, Option.bind_eq_some_iff, Option.some.injEq] at h
    obtain ⟨q, hq, rfl⟩ := h
    exact .inr ⟨q, hq, rfl⟩

theorem mem_calls {r : ClientStep κ C.Mem C.Frame} {s : World C} {g : Frame κ C.Frame}
    (hg : g ∈ (Outcome.mk s (r.run.map Instr.toFrame)
      (r.spawn.map (·.map Instr.toFrame))).frames) :
    ∃ i ∈ r.run ++ r.spawn.flatten, g = i.toFrame := by
  simp only [Outcome.frames, ← List.map_flatten, ← List.map_append, Multiset.mem_coe,
    List.mem_map] at hg
  obtain ⟨i, hi, rfl⟩ := hg
  exact ⟨i, hi, rfl⟩

theorem queueStep_named {s : TaskQueues κ} {f : Frame κ C.Frame}
    {o : Outcome (TaskQueues κ) (Frame κ C.Frame)} (h : queueStep C s f = some o) (hn : s.Named) :
    o.shared.Named := by
  unfold queueStep at h
  split at h
  · rename_i hreg
    cases h
    exact registryStep_named hreg hn
  · obtain ⟨b, hb, rfl⟩ := Option.map_eq_some_iff.mp h
    have hlen := (coreStep_inv hb).contexts_length
    refine ⟨fun queue hm kind => ?_, hn.handles, hn.process⟩
    show queue.context kind < b.shared.contexts.length
    rw [hlen]
    exact hn.contexts queue hm kind

variable {s : World C} {f : Frame κ C.Frame} {R : Multiset (Frame κ C.Frame)}
  {x : Option C.Choice} {o : Outcome (World C) (Frame κ C.Frame)} {p : ℕ}

theorem step_resolved (hC : C.Grounded) (hr : Resolved s.toTaskQueues (f ::ₘ R))
    (hs : (machine C).step s f x = some o) : Resolved o.shared.toTaskQueues (o.frames + R) := by
  have hl := (step_inv hs).later
  have hq := (step_inv hs).sameContexts
  have hold : ∀ g ∈ R, g.Known o.shared.toTaskQueues := fun g hg =>
    (hr.frames g (Multiset.mem_cons_of_mem hg)).mono hl hq
  rcases client_or_queue hs with ⟨g, choice, r, t, rfl, hstep, ht, rfl⟩ | ⟨q, hqueue, rfl⟩
  · have hcalls := hC s g choice r t hstep ht hr.named
    refine ⟨hcalls.named, fun g' hg' => (Multiset.mem_add.mp hg').elim (fun hg' => ?_) (hold g')⟩
    obtain ⟨i, hi, rfl⟩ := mem_calls hg'
    exact hcalls.known i hi
  · refine ⟨queueStep_named hqueue hr.named,
      fun g hg => (Multiset.mem_add.mp hg).elim (fun hg => ?_) (hold g)⟩
    have hk := hr.frames f (Multiset.mem_cons_self f R)
    exact ((queueStep_follows hqueue g hg).known hr.named hk).mono hl hq

theorem Initial.resolved (hC : C.Grounded) {c₀ c : Config (World C) (Frame κ C.Frame)}
    (h0 : Initial C c₀) (h : (machine C).Reaches anyStep c₀ c) :
    Resolved c.shared.toTaskQueues c.frames := by
  refine h.preserved (I := fun s fs => Resolved s.toTaskQueues fs) ?_
    fun s f R x o _ hr hs => step_resolved hC hr hs
  obtain ⟨pool, now, hq⟩ := h0.queues
  constructor
  · rw [hq]
    exact ⟨fun queue hm => (by cases hm), fun handle q hg => by simp [HandleTable.get] at hg,
      fun q hp => (by cases hp)⟩
  · intro f hf
    rcases h0.threads f hf with rfl | ⟨g, rfl⟩
    · exact ⟨fun _ h => (by cases h), fun _ h => (by cases h)⟩
    · exact ⟨fun _ h => (by cases h), fun _ h => (by cases h)⟩

/-- What nothing uses, nothing comes to use, and nothing changes. -/
theorem step_unused (hC : C.Grounded) (hr : Resolved s.toTaskQueues (f ::ₘ R))
    (hs : (machine C).step s f x = some o) (hp : p < s.ports.length)
    (hu : ¬ Used s.toTaskQueues (f ::ₘ R) p) :
    ¬ Used o.shared.toTaskQueues (o.frames + R) p ∧ o.shared.ports[p]? = s.ports[p]? := by
  have hl := (step_inv hs).later
  have hq := (step_inv hs).sameContexts
  have htables : ¬ s.toTaskQueues.Refers p := fun h => hu (.inl h)
  have hframe : ¬ f.Uses s.toTaskQueues p := fun h => hu (.inr ⟨f, Multiset.mem_cons_self f R, h⟩)
  have hold : ∀ g ∈ R, ¬ g.Uses o.shared.toTaskQueues p := fun g hg h =>
    hu (.inr ⟨g, Multiset.mem_cons_of_mem hg,
      h.back hl hq hr.named (hr.frames g (Multiset.mem_cons_of_mem hg))⟩)
  rcases client_or_queue hs with ⟨g, choice, r, t, rfl, hstep, ht, rfl⟩ | ⟨q, hqueue, rfl⟩
  · have hcalls := hC s g choice r t hstep ht hr.named
    have hnew : ¬ t.Refers p := fun h => htables (hcalls.refers p hp h)
    refine ⟨?_, hcalls.ports p hp htables⟩
    rintro (h | ⟨g', hg', h⟩)
    · exact hnew h
    · rcases Multiset.mem_add.mp hg' with hg' | hg'
      · obtain ⟨i, hi, rfl⟩ := mem_calls hg'
        exact hnew (hcalls.uses i hi p h)
      · exact hold g' hg' h
  · have hk := hr.frames f (Multiset.mem_cons_self f R)
    refine ⟨?_, queueStep_ports hqueue hframe⟩
    rintro (h | ⟨g, hg, h⟩)
    · exact (queueStep_refers hqueue hr.named hk h).elim htables hframe
    · rcases Multiset.mem_add.mp hg with hg | hg
      · have hf := queueStep_follows hqueue g hg
        exact hframe (hf.uses (h.back hl hq hr.named (hf.known hr.named hk)))
      · exact hold g hg h

end Steps

/-! ## Ports with workers -/

section Workers
variable {κ : Type}

/-- Callbacks wait for the game to dispatch them, or for workers that have been started. -/
def Port.Manned (port : Port κ) : Prop :=
  port.state.tasks ≠ [] → port.mode = .manual ∨ port.state.workersStarted = true

theorem startWorkers_manned (s : PortState κ) {mode : DispatchMode} (pool : ℕ)
    (hm : mode ≠ .immediate) :
    mode = .manual ∨ (s.startWorkers mode pool).1.workersStarted = true := by
  unfold PortState.startWorkers
  split
  · rename_i hs
    exact .inr hs
  · cases mode with
    | manual => exact .inl rfl
    | threadPool | serializedThreadPool => exact .inr rfl
    | immediate => exact absurd rfl hm

theorem startWorkers_starts (s : PortState κ) (mode : DispatchMode) {pool : ℕ} (hpool : 0 < pool)
    (h : (s.startWorkers mode pool).1.workersStarted = true) :
    s.workersStarted = true ∨ 0 < (s.startWorkers mode pool).2 := by
  unfold PortState.startWorkers at h ⊢
  split
  · rename_i hs
    exact .inl hs
  · rename_i hs
    rw [if_neg hs] at h
    cases mode with
    | manual | immediate => exact .inl h
    | threadPool => exact .inr hpool
    | serializedThreadPool => exact .inr Nat.one_pos

/-- What a step keeps of a port: its callbacks are waited for, and its workers were there or are
started with it. -/
structure Staffed {γ : Type} (pool : ℕ) (frames : Multiset (Frame κ γ)) (p : ℕ)
    (port port' : Port κ) : Prop where
  manned : port.Manned → port'.Manned
  workers : port'.state.workersStarted = true →
    port.state.workersStarted = true ∨ (0 < pool → .worker p ∈ frames)

section Core
variable {γ : Type} {body : κ → Bool → List γ} {s t : Core κ} {f : Frame κ γ}
  {o : Outcome (Core κ) (Frame κ γ)} {frames : Multiset (Frame κ γ)} {p q pool : ℕ}

theorem Staffed.of_fewer {port port' : Port κ} (hm : port'.mode = port.mode)
    (hw : port'.state.workersStarted = port.state.workersStarted)
    (ht : port.state.tasks = [] → port'.state.tasks = []) : Staffed pool frames p port port' where
  manned h hn := by
    rw [hm, hw]
    exact h fun he => hn (ht he)
  workers h := .inl (hw ▸ h)

theorem Staffed.of_setPort {port port' r : Port κ} (hr : t.ports[q]? = some r)
    (ht : t.ports = s.ports.set p port') (hp : s.ports[p]? = some port)
    (h : Staffed pool frames p port port') :
    ∃ port, s.ports[q]? = some port ∧ Staffed pool frames q port r := by
  rw [ht] at hr
  rcases getElem?_set_cases hr with ⟨rfl, rfl⟩ | ⟨-, hq⟩
  · exact ⟨port, hp, h⟩
  · exact ⟨r, hq, .of_fewer rfl rfl id⟩

theorem CoreStep.staffed (h : CoreStep body s f o) {port' : Port κ}
    (hp' : o.shared.ports[p]? = some port') :
    ∃ port, s.ports[p]? = some port ∧ Staffed s.pool o.frames p port port' := by
  cases h with
  | acceptInline hc hp | finishOne hp =>
    exact Staffed.of_setPort hp' rfl hp (.of_fewer rfl rfl id)
  | @acceptQueued a task context port hc hp ht hm =>
    refine Staffed.of_setPort hp' rfl hp ⟨fun _ _ => startWorkers_manned _ _ hm, fun hw => ?_⟩
    by_cases hpool : 0 < s.pool
    · refine (startWorkers_starts _ _ hpool hw).imp_right fun hpos _ => ?_
      simp only [Outcome.frames, Multiset.mem_coe, List.mem_append, List.mem_flatten]
      exact .inr ⟨_, List.mem_replicate.mpr ⟨Nat.pos_iff_ne_zero.mp hpos, rfl⟩,
        List.mem_singleton_self _⟩
    · exact .inr fun h => absurd h hpool
  | workerTake hp ht hl | dispatchTake hp ht hl =>
    refine Staffed.of_setPort hp' rfl hp (.of_fewer rfl rfl fun he => ?_)
    rw [hl] at he
    cases he
  | drainReady hp =>
    refine Staffed.of_setPort hp' rfl hp (.of_fewer rfl rfl fun he => ?_)
    simp [PortState.drainReady, he]
  | @batchEnd d total port hp =>
    refine Staffed.of_setPort hp' rfl hp (.of_fewer rfl ?_ ?_)
    · simp only [PortState.finishN]
      split <;> rfl
    · rw [PortState.finishN_tasks]
      exact id
  | terminateContext hc hp =>
    refine Staffed.of_setPort hp' rfl hp (.of_fewer rfl rfl fun he => ?_)
    simp [PortState.terminateContext, he]
  | cancelDrain hc hp => exact Staffed.of_setPort hp' rfl hp (.of_fewer rfl rfl fun _ => rfl)
  | _ => exact ⟨port', hp', .of_fewer rfl rfl id⟩

/-- A worker stays until its port is terminated. -/
theorem CoreStep.worker_stays (h : CoreStep body s (.worker p) o) : .worker p ∈ o.frames ∨
    ∃ port, s.ports[p]? = some port ∧ port.state.terminated = true := by
  cases h with
  | workerExit hp ht => exact .inr ⟨_, hp, ht⟩
  | workerTake => exact .inl (by simp [Outcome.frames])

theorem CoreStep.pool_same (h : CoreStep body s f o) : o.shared.pool = s.pool := by
  cases h <;> rfl

theorem Core.Grows.pool_same (h : s.Grows t) : t.pool = s.pool :=
  h.preserves (I := fun u => u.pool = s.pool) (fun _ _ h => h) (fun _ _ _ _ h => h) rfl

end Core

/-- A port that has started its workers keeps them until it is terminated. -/
structure Manned {γ : Type} (s : Core κ) (fs : Multiset (Frame κ γ)) : Prop where
  pool : 0 < s.pool
  ports : ∀ (p : ℕ) (port : Port κ), s.ports[p]? = some port → port.Manned
  workers : ∀ (p : ℕ) (port : Port κ), s.ports[p]? = some port →
    port.state.workersStarted = true → port.state.terminated = true ∨ .worker p ∈ fs

variable {C : Client κ} {c₀ c : Config (World C) (Frame κ C.Frame)}

theorem Initial.manned (h0 : Initial C c₀) (hpool : 0 < c₀.shared.pool)
    (h : (machine C).Reaches anyStep c₀ c) : Manned c.shared.toCore c.frames := by
  refine h.preserved (I := fun s fs => Manned s.toCore fs) ?_ ?_
  · obtain ⟨pool, now, hq⟩ := h0.queues
    have hnone : ∀ p : ℕ, c₀.shared.ports[p]? = none := fun p => by rw [hq]; rfl
    exact ⟨hpool, fun p port hp => by simp [hnone] at hp, fun p port hp => by simp [hnone] at hp⟩
  · intro s f R x o _ hI hs
    rcases (step_inv hs).outer_or_core with ⟨hg, hf, -⟩ | ⟨o', ho, h1, h2⟩
    · refine ⟨hg.pool_same ▸ hI.pool, fun p port' hp' => ?_, fun p port' hp' hw => ?_⟩
      · rcases hg.port_cases hp' with ⟨mode, he⟩ | ⟨port, hp, he⟩
        · rw [he]
          exact fun hn => absurd rfl hn
        · rw [he]
          exact hI.ports p port hp
      · rcases hg.port_cases hp' with ⟨mode, he⟩ | ⟨port, hp, he⟩
        · rw [he] at hw
          cases hw
        · rw [he] at hw ⊢
          rcases hI.workers p port hp hw with ht | hm
          · exact .inl ht
          · rcases Multiset.mem_cons.mp hm with rfl | hR
            · cases hf
            · exact .inr (Multiset.mem_add.mpr (.inr hR))
    · rw [h1, h2]
      refine ⟨ho.pool_same ▸ hI.pool, fun p port' hp' => ?_, fun p port' hp' hw => ?_⟩
      · obtain ⟨port, hp, hst⟩ := ho.staffed hp'
        exact hst.manned (hI.ports p port hp)
      · obtain ⟨port, hp, hst⟩ := ho.staffed hp'
        have hlater : port.state.terminated = true → port'.state.terminated = true := by
          obtain ⟨port₂, hp₂, hl⟩ := ho.later.ports p port hp
          rw [hp', Option.some.injEq] at hp₂
          exact hp₂ ▸ hl.terminated
        rcases hst.workers hw with hold | hnew
        · rcases hI.workers p port hp hold with ht | hm
          · exact .inl (hlater ht)
          · rcases Multiset.mem_cons.mp hm with rfl | hR
            · rcases ho.worker_stays with hstay | ⟨port₂, hp₂, ht⟩
              · exact .inr (Multiset.mem_add.mpr (.inl hstay))
              · rw [hp, Option.some.injEq] at hp₂
                subst hp₂
                exact .inl (hlater ht)
            · exact .inr (Multiset.mem_add.mpr (.inr hR))
        · exact .inr (Multiset.mem_add.mpr (.inl (hnew hI.pool)))

end Workers

/-! ## Specification -/

section Specification
variable {c₀ c c' : Config (World QueueGame) (Frame ℕ GameFrame)} {p : ℕ}

/-- What nothing uses, nothing ever uses, and it stays as it is. -/
theorem reaches_unused (hr : Resolved c.shared.toTaskQueues c.frames)
    (hp : p < c.shared.ports.length) (hu : ¬ Used c.shared.toTaskQueues c.frames p)
    (h : (machine QueueGame).Reaches anyStep c c') :
    ¬ Used c'.shared.toTaskQueues c'.frames p ∧ c'.shared.ports[p]? = c.shared.ports[p]? := by
  have hI : Resolved c'.shared.toTaskQueues c'.frames ∧
      ¬ Used c'.shared.toTaskQueues c'.frames p ∧ c'.shared.ports[p]? = c.shared.ports[p]? := by
    refine h.preserved (I := fun s fs => Resolved s.toTaskQueues fs ∧
      ¬ Used s.toTaskQueues fs p ∧ s.ports[p]? = c.shared.ports[p]?) ⟨hr, hu, rfl⟩ ?_
    rintro s f R x o - ⟨hrs, hus, hps⟩ hs
    have hlt : p < s.ports.length :=
      (List.getElem?_eq_some_iff.mp (hps.trans (List.getElem?_eq_getElem hp))).1
    obtain ⟨hu', hp'⟩ := step_unused QueueGame.grounded hrs hs hlt hus
    exact ⟨step_resolved QueueGame.grounded hrs hs, hu', hp'.trans hps⟩
  exact hI.2

/-- A port that holds callbacks and is not a live Manual one is in use: by its workers, or by the
termination that is about to cancel them. -/
theorem Initial.used (h0 : Initial QueueGame c₀) (hpool : 0 < c₀.shared.pool)
    (h : (machine QueueGame).Reaches anyStep c₀ c) {port : Port ℕ}
    (hp : c.shared.ports[p]? = some port) (ht : port.state.tasks ≠ [])
    (hm : port.mode ≠ .manual ∨ port.state.terminated = true) :
    Used c.shared.toTaskQueues c.frames p := by
  have hd := h0.drainSound h
  have hmanned := h0.manned hpool h
  by_cases hterm : port.state.terminated = true
  · rcases hd.terminated p port hp hterm with hdr | ⟨owner, pending, owners, a, context, hf, hc, hpc⟩
    · exact absurd (hd.drained p port hp hdr).2 ht
    · exact .inr ⟨_, hf, .context List.mem_cons_self ⟨context, hc, hpc⟩⟩
  · rcases hmanned.ports p port hp ht with hman | hw
    · exact absurd hman (hm.resolve_right hterm)
    · have hworker := (hmanned.workers p port hp hw).resolve_left hterm
      exact .inr ⟨_, hworker, .port (List.mem_singleton_self _)⟩

/-- In every run of a game that calls the task queue from any number of threads, a callback that is
still queued is on a port that something still uses, or nothing will ever call it: its port is a
Manual one that has not been terminated, nothing in any later state uses it, and neither the port
nor the callback changes again, so that it makes no difference when the runtime drops them. -/
theorem callbacks_kept_or_abandoned (h0 : Initial QueueGame c₀) (hpool : 0 < c₀.shared.pool)
    (h : (machine QueueGame).Reaches anyStep c₀ c) {port : Port ℕ} {task : Task ℕ}
    (hp : c.shared.ports[p]? = some port) (ht : task ∈ port.state.tasks) :
    Used c.shared.toTaskQueues c.frames p ∨
      port.mode = .manual ∧ port.state.terminated = false ∧
      ∀ c', (machine QueueGame).Reaches anyStep c c' →
        ¬ Used c'.shared.toTaskQueues c'.frames p ∧ c'.shared.ports[p]? = some port ∧
        ∀ call ∈ c'.shared.started, call.1.id ≠ task.id := by
  by_cases hu : Used c.shared.toTaskQueues c.frames p
  · exact .inl hu
  have hlt : p < c.shared.ports.length := (List.getElem?_eq_some_iff.mp hp).1
  have hlive : port.mode = .manual ∧ port.state.terminated = false := by
    by_contra hn
    refine hu (h0.used hpool h hp (List.ne_nil_of_mem ht) ?_)
    by_cases hm : port.mode = .manual
    · exact .inr (by simpa [hm] using hn)
    · exact .inl hm
  refine .inr ⟨hlive.1, hlive.2, fun c' h' => ?_⟩
  obtain ⟨hu', hp'⟩ := reaches_unused (h0.resolved QueueGame.grounded h) hlt hu h'
  rw [hp] at hp'
  refine ⟨hu', hp', fun call hcall he => ?_⟩
  refine h0.queued_not_started (h.trans h') (p := p) (t := task) ?_
    (List.mem_map_of_mem hcall) he.symm
  rw [Core.queue_eq hp']
  exact ht

end Specification

/-- A callback is queued on a Manual queue, and the only handle of the queue is closed. -/
def closedQueue : List (ℕ × Option GameChoice) :=
  [QueueGame.call (.create 0 0 true)] ++ QueueGame.steps 1 1 ++
    [QueueGame.call (.submitDelayedCallback 1 0 0 (some 7))] ++ QueueGame.steps 1 5 ++
    [QueueGame.call (.closeHandle 1)]

/-- What holds of the state that a schedule computes holds of the state that it leads to. -/
theorem run_at {σ φ χ α : Type} {M : Machine σ φ χ} {G : Guard σ φ χ}
    [∀ s R f x, Decidable (G s R f x)] {schedule : List (ℕ × χ)} {c₀ c : Config σ φ}
    (h : M.run G schedule c₀ = some c) (f : Config σ φ → α) {a : α}
    (ha : (M.run G schedule c₀).map f = some a) : f c = a := by
  rw [h] at ha
  exact Option.some.inj ha

theorem closedQueue_unused {c : Config (World QueueGame) (Frame ℕ GameFrame)}
    (h : (machine QueueGame).run anyStep closedQueue (QueueGame.start 2 1) = some c) :
    ¬ Used c.shared.toTaskQueues c.frames 0 := by
  have hqueues : c.shared.queueHandles.entries =
      Function.update (Function.update (fun _ => none) 1 (some 0)) 1 none :=
    run_at h (fun c => c.shared.queueHandles.entries) rfl
  have hports : c.shared.portHandles.entries = fun _ => none :=
    run_at h (fun c => c.shared.portHandles.entries) rfl
  have hprocess : c.shared.processQueue = none := run_at h (fun c => c.shared.processQueue) rfl
  have hthreads : c.threads = [[.clock], [.client .code]] := run_at h (fun c => c.threads) rfl
  rintro (hr | ⟨f, hf, hu⟩)
  · cases hr with
    | portHandle hh => simp [HandleTable.get, hports] at hh
    | queueHandle hh =>
      simp [HandleTable.get, hqueues] at hh
    | processQueue hh => simp [hprocess] at hh
  · have hquiet : f = .clock ∨ f = .client .code := by
      simpa [Config.frames, hthreads] using hf
    rcases hquiet with rfl | rfl
    · cases hu with
      | port h => cases h
      | context h => cases h
      | queue h => cases h
    · cases hu with
      | port h => cases h
      | context h => cases h
      | queue h => cases h

/-- Nothing uses the port of a Manual queue that has been closed, and its callback is never called. -/
theorem callbacks_kept_or_abandoned_closed :
    ∃ (c : Config (World QueueGame) (Frame ℕ GameFrame)) (port : Port ℕ) (task : Task ℕ),
      (machine QueueGame).Reaches anyStep (QueueGame.start 2 1) c ∧
      c.shared.ports[0]? = some port ∧ task ∈ port.state.tasks ∧
      ∀ c', (machine QueueGame).Reaches anyStep c c' →
        c'.shared.ports[0]? = some port ∧ ∀ call ∈ c'.shared.started, call.1.id ≠ task.id := by
  obtain ⟨c, hc⟩ : ∃ c, (machine QueueGame).run anyStep closedQueue (QueueGame.start 2 1) = some c :=
    ⟨_, rfl⟩
  have hport : c.shared.ports[0]? = some { mode := .manual, state := {
      tasks := [⟨7, 0, none, 0⟩], submitted := 1, activeContexts := 1 } } :=
    run_at hc (fun c => c.shared.ports[0]?) rfl
  have hr := Machine.Reaches.of_run hc
  have hkept := callbacks_kept_or_abandoned (QueueGame.initial 2 1) Nat.two_pos hr hport
    (List.mem_singleton_self _)
  obtain ⟨-, -, hlater⟩ := hkept.resolve_left (closedQueue_unused hc)
  exact ⟨c, _, _, hr, hport, List.mem_singleton_self _, fun c' h' => (hlater c' h').2⟩

end XGameRuntime.TaskQueue
