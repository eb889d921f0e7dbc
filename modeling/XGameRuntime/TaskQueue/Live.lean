import XGameRuntime.TaskQueue.History
import XGameRuntime.TaskQueue.Load

/-! # What may still be called

A callback that a port has accepted is live until it is called or pulled out to be canceled. A load
counted over the live callbacks and over client code grows by a callback only when a port accepts it,
so what clients have done with it and what is live never exceed what has been accepted.
-/

namespace XGameRuntime.TaskQueue
open Concurrency
set_option autoImplicit false

namespace Load
variable {κ γ : Type} (w : Load κ γ)

/-- A load of live callbacks and of client code, continuations included. -/
def live : Frame κ γ → ℕ
  | .client g => w.code g
  | .notify a | .notifying a _ _ | .submitContext a _ | .submitDue a _ _ | .submitPort a _ _ =>
      max (w.run a.onAccepted) (w.run a.onRefused)
  | .invoke task false | .delayed _ task => w.callback task.callback
  | .dispatch d | .dispatchWait d _ | .drainReady d => w.dispatch d
  | .dispatchBatch d batch _ => w.tasks batch + w.dispatch d
  | .terminateQueue a | .terminate _ a | .terminateContext _ _ a | .cancel _ _ _ _ a
  | .awaitDrained _ _ a => w.run a.after
  | .invoke _ true | .clock | .running _ _ | .finishOne _ | .worker _ | .terminateReturn _ => 0

def liveTotal (s : Core κ) (fs : Multiset (Frame κ γ)) : ℕ := w.core s + weight w.live fs

/-- The load counts the code of a callback under the callback, if it is not canceled. -/
structure Calls (body : κ → Bool → List γ) (monitor : ℕ → ℕ → PortKind → List γ) : Prop where
  called : ∀ callback, w.run (body callback false) ≤ w.callback callback
  canceled : ∀ callback, w.run (body callback true) = 0
  monitor : ∀ context handle kind, w.run (monitor context handle kind) = 0

/-- What a step of a client starts. -/
def started {μ : Type} (r : ClientStep κ μ γ) : ℕ :=
  (r.run.map (w.live ∘ Instr.toFrame)).sum +
    (r.spawn.map fun k => (k.map (w.live ∘ Instr.toFrame)).sum).sum

theorem live_le (f : Frame κ γ) : w.live f ≤ w.frame f := by
  cases f with
  | notify | notifying | submitContext | submitDue | submitPort =>
    exact max_le_max (Nat.le_add_left _ _) (Nat.le_refl _)
  | invoke task canceled =>
    cases canceled with
    | true => exact Nat.zero_le _
    | false => exact Nat.le_refl _
  | cancel => exact Nat.le_add_left _ _
  | _ => exact Nat.le_refl _

theorem liveTotal_le (s : Core κ) (fs : Multiset (Frame κ γ)) : w.liveTotal s fs ≤ w.total s fs :=
  Nat.add_le_add_left (Multiset.sum_map_le_sum_map _ _ fun f _ => w.live_le f) _

theorem live_toFrame_le (i : Instr κ γ) : w.live i.toFrame ≤ w.instr i := by
  cases i with
  | submit a => exact max_le_max (Nat.le_add_left _ _) (Nat.le_refl _)
  | frame | dispatch | terminate => exact Nat.le_refl _

/-- It starts no more than it asks for. -/
theorem started_le_asked {μ : Type} (r : ClientStep κ μ γ) : w.started r ≤ w.asked r := by
  refine Nat.add_le_add (List.sum_le_sum fun i _ => w.live_toFrame_le i) ?_
  exact List.sum_le_sum fun k _ => List.sum_le_sum fun i _ => w.live_toFrame_le i

@[simp] theorem sum_live_clients (fs : List γ) :
    (fs.map (w.live ∘ Frame.client)).sum = w.run fs := rfl

section Core
variable {body : κ → Bool → List γ} {s : Core κ} {f : Frame κ γ}
  {o : Outcome (Core κ) (Frame κ γ)}

theorem coreStep_live {monitor : ℕ → ℕ → PortKind → List γ} (hw : w.Calls body monitor)
    (h : CoreStep body s f o) :
    w.core o.shared + weight w.live o.frames + w.tasks s.accepted ≤
      w.core s + w.live f + w.tasks o.shared.accepted := by
  cases h with
  | @refuse a task =>
    refine Nat.add_le_add_right ?_ _
    simp only [weight_frames, live, List.map_map, sum_live_clients]
    simp [core]
  | @acceptInline a task context port hc hp =>
    have htasks : w.tasks ({ port with state := port.state.startInline } : Port κ).state.tasks + 0 ≤
        w.tasks port.state.tasks + 0 := Nat.le_refl _
    have hcore := w.core_setPort hp htasks
    simp only [weight_frames, live, List.map_cons, List.map_map]
    simp only [core] at hcore ⊢
    simp [Core.setState, Core.setPort] at hcore ⊢
    omega
  | @acceptDelayed a task context port hc hp =>
    simp only [weight_frames, live, List.map_map, List.map_cons, sum_live_clients, tasks_cons]
    simp [core]
    omega
  | @acceptQueued a task context port hc hp =>
    have hperm := w.tasks_perm (port.state.insert_perm task)
    rw [tasks_cons] at hperm
    have htasks : w.tasks ({ port with
          state := ((port.state.insert task).startWorkers port.mode s.pool).1 } :
            Port κ).state.tasks + 0 ≤ w.tasks port.state.tasks + w.callback task.callback := by
      rw [PortState.startWorkers_tasks]
      omega
    have hcore := w.core_setPort hp htasks
    simp only [weight_frames, live, List.map_map, List.map_replicate, sum_live_clients]
    simp only [core] at hcore ⊢
    simp [Core.setState, Core.setPort, live] at hcore ⊢
    omega
  | @invoke task canceled =>
    refine Nat.add_le_add_right ?_ _
    simp only [weight_frames, List.map_append, List.map_map, List.sum_append, sum_live_clients]
    cases canceled with
    | true => simpa [live, core] using hw.canceled task.callback
    | false => simpa [live, core] using hw.called task.callback
  | @finishOne p port hp =>
    refine Nat.add_le_add_right (w.core_setPort hp ?_) _
    simp [weight_frames, live, PortState.finishOne]
  | @workerTake p port task rest hp ht hl =>
    refine Nat.add_le_add_right (w.core_setPort hp ?_) _
    simp only [weight_frames, hl, tasks_cons]
    simp [live]
    omega
  | @delayed p task port hp =>
    refine Nat.add_le_add_right ?_ _
    cases hterminated : port.state.terminated <;> simp [weight_frames, live, core]
  | @dispatchExit d deadline =>
    refine Nat.add_le_add_right ?_ _
    simp only [weight_frames, List.map_map, sum_live_clients]
    simp [live, dispatch]
  | @dispatchTake d deadline port task rest hp ht hl =>
    refine Nat.add_le_add_right (w.core_setPort hp ?_) _
    simp only [weight_frames, hl, tasks_cons]
    simp [live]
    omega
  | @drainReady d port hp =>
    refine Nat.add_le_add_right (w.core_setPort hp ?_) _
    have hd := w.tasks_append (port.state.drainReady s.now).2 (port.state.drainReady s.now).1.tasks
    rw [port.state.drainReady_append s.now] at hd
    simp only [weight_frames, hd]
    simp [live]
    omega
  | @batchNext d task rest total =>
    refine Nat.add_le_add_right ?_ _
    simp [weight_frames, live]
    omega
  | @batchEnd d total port hp =>
    refine Nat.add_le_add_right (w.core_setPort hp ?_) _
    simp only [weight_frames, List.map_map, sum_live_clients, PortState.finishN_tasks]
    simp [live, dispatch]
  | @terminateContext owner owners a context port hc hp =>
    refine Nat.add_le_add_right (w.core_setPort hp ?_) _
    have hperm := w.tasks_perm (port.state.terminateContext_perm owner)
    rw [tasks_append] at hperm
    simp only [weight_frames, ← hperm]
    simp [live]
  | @cancelDrain owner owners a context port hc hp =>
    refine Nat.add_le_add_right (w.core_setPort hp ?_) _
    simp [weight_frames, live, PortState.drainRest]
  | terminate | awaitDrained =>
    refine Nat.add_le_add_right ?_ _
    simp [weight_frames, live]
  | _ => simp [weight_frames, live, core]

end Core

section Machine
variable {C : Client κ} {w : Load κ C.Frame}

theorem registryStep_live (hw : w.Calls C.body C.monitor) {s : TaskQueues κ} {f : Frame κ C.Frame}
    {o : Outcome (TaskQueues κ) (Frame κ C.Frame)} (h : RegistryStep C s f o) :
    w.core o.shared.toCore + weight w.live o.frames ≤ w.core s.toCore + w.live f := by
  cases h with
  | notify hq ht =>
    rw [w.grows_load ht.1]
    simp [weight_frames, live]
  | @notifyNext a handle monitor rest =>
    have hm := hw.monitor monitor.context handle a.kind
    simp only [weight_frames, List.map_append, List.map_map, List.sum_append, sum_live_clients, hm]
    simp [live]
  | terminated =>
    simp only [weight_frames, List.map_append, List.map_map, List.sum_append, sum_live_clients]
    simp [live]
  | notifyEnd => simp [weight_frames, live, core, TaskQueues.setQueue]
  | _ => simp [weight_frames, live, core]

/-- A step of the machine runs the queue, which makes live what it accepts and no more, or it is a
step of the client. -/
theorem step_live {s : World C} {f : Frame κ C.Frame} {x : Option C.Choice}
    {o : Outcome (World C) (Frame κ C.Frame)} (h : (machine C).step s f x = some o)
    (hw : w.Calls C.body C.monitor) (R : Multiset (Frame κ C.Frame)) :
    ((∀ g, f ≠ .client g) ∧ o.shared.mem = s.mem ∧
      w.liveTotal o.shared.toCore (o.frames + R) + w.tasks s.accepted ≤
        w.liveTotal s.toCore (f ::ₘ R) + w.tasks o.shared.accepted) ∨
    ∃ g choice r, f = .client g ∧ x = some choice ∧
      C.step s.mem s.toTaskQueues g choice = some r ∧ o.shared.mem = r.mem ∧
      o.shared.accepted = s.accepted ∧
      w.liveTotal o.shared.toCore (o.frames + R) = w.liveTotal s.toCore R + w.started r := by
  have hstep := step_inv h
  cases f with
  | client g =>
    right
    cases x with
    | none => cases h
    | some choice =>
      simp only [machine, Option.bind_eq_bind, Option.bind_eq_some_iff, Option.some.injEq] at h
      obtain ⟨r, hr, t, ht, rfl⟩ := h
      have hgrows := (applyAll_extends ht).1
      refine ⟨g, choice, r, rfl, rfl, hr, rfl, hgrows.sameHistory.accepted, ?_⟩
      have hcore := w.grows_load hgrows
      have hspawn : ((r.spawn.map fun k => k.map Instr.toFrame).map fun k => (k.map w.live).sum) =
          r.spawn.map fun k => (k.map (w.live ∘ Instr.toFrame)).sum := by
        simp only [List.map_map, Function.comp_def]
      rw [liveTotal, weight_add, weight_frames, hcore, hspawn, List.map_map, liveTotal, started]
      omega
  | _ =>
    left
    cases hstep with
    | registry hreg =>
      have hl := registryStep_live hw hreg
      have hacc := (registryStep_outer hreg).1.sameHistory.accepted
      refine ⟨by simp, rfl, ?_⟩
      simp only [liveTotal, weight_add, weight_cons, Outcome.frames, hacc] at hl ⊢
      omega
    | core hcore =>
      have hl := w.coreStep_live hw hcore
      refine ⟨by simp, rfl, ?_⟩
      simp only [liveTotal, weight_add, weight_cons, Outcome.frames] at hl ⊢
      omega

end Machine
end Load

/-! ## What is accepted -/

section Accepted
variable {κ γ : Type}

/-- The port of the callback takes it. -/
def Core.accepts (s : Core κ) (task : Task κ) (ownerTerminated : Bool) : Bool :=
  !ownerTerminated && ((s.contexts[task.owner]?).bind fun context => s.ports[context.port]?).any
    fun port => !port.state.terminated

theorem coreStep_accepted {body : κ → Bool → List γ} {s : Core κ} {f : Frame κ γ}
    {o : Outcome (Core κ) (Frame κ γ)} (h : CoreStep body s f o) : o.shared.accepted = s.accepted ∨
      ∃ a task, f = .submitPort a task false ∧ s.accepts task false = true ∧
        o.shared.accepted = task :: s.accepted := by
  cases h with
  | acceptInline hc hp ht | acceptDelayed hc hp ht | acceptQueued hc hp ht =>
    exact .inr ⟨_, _, rfl, by simp [Core.accepts, hc, hp, ht], rfl⟩
  | _ => exact .inl rfl

/-- A step accepts nothing, or the callback of a submission. -/
theorem step_accepted {C : Client κ} {s : World C} {f : Frame κ C.Frame} {x : Option C.Choice}
    {o : Outcome (World C) (Frame κ C.Frame)} (h : (machine C).step s f x = some o) :
    o.shared.accepted = s.accepted ∨ ∃ a task, f = .submitPort a task false ∧
      s.accepts task false = true ∧ o.shared.accepted = task :: s.accepted := by
  rcases (step_inv h).split with ⟨hg, -⟩ | ⟨o', hcore, h1, -⟩
  · exact .inl hg.sameHistory.accepted
  · rw [h1]
    exact coreStep_accepted hcore

end Accepted
end XGameRuntime.TaskQueue
