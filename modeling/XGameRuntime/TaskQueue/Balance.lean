import XGameRuntime.TaskQueue.Load

/-! # Loads that are kept exactly

A load is even in a call of the queue if the call leads to as much whichever way it goes. Where all
calls are even, the queue keeps the load exactly: what is given to it is queued, taken, cancelled
or run, and neither lost nor doubled.
-/

namespace XGameRuntime.TaskQueue
open Concurrency
set_option autoImplicit false

namespace Load

section Core
variable {κ γ : Type} (w : Load κ γ)

/-- The load counts the code of a callback under the callback, neither more nor less. -/
structure Exact (body : κ → Bool → List γ) (monitor : ℕ → ℕ → PortKind → List γ) : Prop where
  body : ∀ callback canceled, w.run (body callback canceled) = w.callback callback
  monitor : ∀ context handle kind, w.run (monitor context handle kind) = 0

theorem Exact.fits {body : κ → Bool → List γ} {monitor : ℕ → ℕ → PortKind → List γ}
    (h : w.Exact body monitor) : w.Fits body monitor :=
  ⟨fun callback canceled => Nat.le_of_eq (h.body callback canceled), h.monitor⟩

/-- Accepted or refused, a submission leads to the same. -/
def EvenSubmission (a : Submission κ γ) (callback : κ) : Prop :=
  w.callback callback + w.run a.onAccepted = w.run a.onRefused

def EvenDispatch (d : Dispatch γ) : Prop := w.run d.onTrue = w.run d.onFalse

def EvenFrame : Frame κ γ → Prop
  | .notify a | .notifying a _ _ | .submitContext a _ | .submitDue a _ _ =>
      w.EvenSubmission a a.callback
  | .submitPort a task _ => w.EvenSubmission a task.callback
  | .dispatch d | .dispatchWait d _ | .drainReady d | .dispatchBatch d _ _ => w.EvenDispatch d
  | _ => True

def EvenInstr : Instr κ γ → Prop
  | .submit a => w.EvenSubmission a a.callback
  | .dispatch d => w.EvenDispatch d
  | _ => True

variable {w}

theorem EvenSubmission.eq {a : Submission κ γ} {callback : κ} (h : w.EvenSubmission a callback) :
    w.submission a callback = w.run a.onRefused := by
  unfold EvenSubmission at h
  rw [submission, h, Nat.max_self]

theorem EvenDispatch.eq {d : Dispatch γ} (h : w.EvenDispatch d) : w.dispatch d = w.run d.onFalse := by
  unfold EvenDispatch at h
  rw [dispatch, h, Nat.max_self]

theorem evenFrame_toFrame {i : Instr κ γ} (h : w.EvenInstr i) : w.EvenFrame i.toFrame := by
  cases i <;> exact h

variable {body : κ → Bool → List γ} {s : Core κ} {f : Frame κ γ}
  {o : Outcome (Core κ) (Frame κ γ)}

/-- The rule for a step that writes one port. -/
theorem core_writePort {p : ℕ} {port port' : Port κ} {a b : ℕ} (hp : s.ports[p]? = some port)
    (h : w.tasks port'.state.tasks + a = w.tasks port.state.tasks + b) :
    ((s.ports.set p port').map fun port => w.tasks port.state.tasks).sum + a = w.core s + b := by
  rw [core, sum_map_at _ hp, sum_map_set_at _ port' hp]
  omega

theorem coreStep_exact
    (hbody : ∀ callback canceled, w.run (body callback canceled) = w.callback callback)
    (hf : w.EvenFrame f) (h : CoreStep body s f o) :
    w.core o.shared + weight w.frame o.frames = w.core s + w.frame f := by
  cases h with
  | @refuse a task =>
    simp only [weight_frames, frame, List.map_map, sum_clients, EvenSubmission.eq hf]
    simp [core]
  | @acceptInline a task context port hc hp =>
    have he : w.callback task.callback + w.run a.onAccepted = w.run a.onRefused := hf
    refine core_writePort hp ?_
    simp only [weight_frames, frame, List.map_cons, List.map_map, EvenSubmission.eq hf]
    simp [PortState.startInline, he]
  | @acceptDelayed a task context port hc hp =>
    have he : w.callback task.callback + w.run a.onAccepted = w.run a.onRefused := hf
    simp only [weight_frames, frame, List.map_map, List.map_cons, sum_clients,
      EvenSubmission.eq hf]
    simp [core]
    omega
  | @acceptQueued a task context port hc hp =>
    have he : w.callback task.callback + w.run a.onAccepted = w.run a.onRefused := hf
    refine core_writePort hp ?_
    have hperm := w.tasks_perm (port.state.insert_perm task)
    rw [tasks_cons] at hperm
    simp only [weight_frames, frame, List.map_map, List.map_replicate, sum_clients,
      EvenSubmission.eq hf, PortState.startWorkers_tasks, hperm]
    simp [frame]
    omega
  | @invoke task canceled =>
    have hb := hbody task.callback canceled
    simp only [weight_frames, List.map_append, List.map_map, List.sum_append, sum_clients]
    simpa [frame, core] using hb
  | @finishOne p port hp =>
    refine core_writePort hp ?_
    simp [weight_frames, frame, PortState.finishOne]
  | @workerTake p port task rest hp ht hl =>
    refine core_writePort hp ?_
    simp only [weight_frames, hl, tasks_cons]
    simp [frame]
    omega
  | @dispatchExit d deadline =>
    simp only [weight_frames, List.map_map, sum_clients, frame, EvenDispatch.eq hf]
    simp
  | @dispatchTake d deadline port task rest hp ht hl =>
    refine core_writePort hp ?_
    simp only [weight_frames, hl, tasks_cons]
    simp [frame]
    omega
  | @drainReady d port hp =>
    refine core_writePort hp ?_
    have hd := w.tasks_append (port.state.drainReady s.now).2 (port.state.drainReady s.now).1.tasks
    rw [port.state.drainReady_append s.now] at hd
    simp only [weight_frames, hd]
    simp [frame]
    omega
  | @batchNext d task rest total =>
    simp [weight_frames, frame]
    omega
  | @batchEnd d total port hp =>
    have he : w.run d.onTrue = w.run d.onFalse := hf
    refine core_writePort hp ?_
    have ht : (port.state.finishN total).tasks = port.state.tasks := by
      unfold PortState.finishN
      split <;> rfl
    simp only [weight_frames, List.map_map, sum_clients, ht, frame, EvenDispatch.eq hf, he]
    simp
  | @terminateContext owner owners a context port hc hp =>
    refine core_writePort hp ?_
    have hperm := w.tasks_perm (port.state.terminateContext_perm owner)
    rw [tasks_append] at hperm
    simp only [weight_frames, ← hperm]
    simp [frame]
    omega
  | @cancelNext owner task rest drainRest owners a =>
    simp [weight_frames, frame]
    omega
  | @cancelDrain owner owners a context port hc hp =>
    refine core_writePort hp ?_
    simp [weight_frames, frame, PortState.drainRest]
  | terminate | awaitDrained => simp [weight_frames, frame]
  | _ => simp [weight_frames, frame, core]

theorem even_clients (fs : List γ) : ∀ g ∈ fs.map (Frame.client (κ := κ)), w.EvenFrame g := by
  intro g hg
  obtain ⟨code, -, rfl⟩ := List.mem_map.mp hg
  trivial

/-- The calls that a step of the core goes on with are even. -/
theorem coreStep_even (hf : w.EvenFrame f) (h : CoreStep body s f o) :
    ∀ g ∈ o.frames, w.EvenFrame g := by
  rw [forall_frames]
  cases h with
  | refuse => exact ⟨even_clients _, by simp⟩
  | acceptInline =>
    refine ⟨?_, by simp⟩
    simp only [List.forall_mem_cons]
    exact ⟨trivial, trivial, even_clients _⟩
  | acceptDelayed => exact ⟨even_clients _, by simp [EvenFrame]⟩
  | acceptQueued =>
    refine ⟨even_clients _, fun k hk => ?_⟩
    rw [List.eq_of_mem_replicate hk]
    simp [EvenFrame]
  | invoke =>
    refine ⟨?_, by simp⟩
    simp only [List.forall_mem_append]
    exact ⟨even_clients _, by simp [EvenFrame]⟩
  | dispatchExit | batchEnd => exact ⟨even_clients _, by simp⟩
  | submitContext | submitDue | dispatch | dispatchTake | drainReady | batchNext =>
    exact ⟨by simpa [EvenFrame] using hf, by simp⟩
  | _ => exact ⟨by simp [EvenFrame], by simp⟩

end Core

section Registry
variable {κ : Type} {C : Client κ} {w : Load κ C.Frame} {s : TaskQueues κ} {f : Frame κ C.Frame}
  {o : Outcome (TaskQueues κ) (Frame κ C.Frame)}

theorem registryStep_exact (hw : w.Exact C.body C.monitor) (h : RegistryStep C s f o) :
    w.core o.shared.toCore + weight w.frame o.frames = w.core s.toCore + w.frame f := by
  cases h with
  | notify hq ht =>
    rw [w.grows_load ht.1]
    simp [weight_frames, frame]
  | @notifyNext a handle monitor rest =>
    have hm := hw.monitor monitor.context handle a.kind
    simp only [weight_frames, List.map_append, List.map_map, List.sum_append, sum_clients, hm]
    simp [frame]
  | terminated =>
    simp only [weight_frames, List.map_append, List.map_map, List.sum_append, sum_clients]
    simp [frame]
  | notifyEnd => simp [weight_frames, frame, core, TaskQueues.setQueue]
  | _ => simp [weight_frames, frame, core]

theorem registryStep_even (hf : w.EvenFrame f) (h : RegistryStep C s f o) :
    ∀ g ∈ o.frames, w.EvenFrame g := by
  rw [forall_frames]
  cases h with
  | notifyNext =>
    refine ⟨?_, by simp⟩
    simp only [List.forall_mem_append]
    exact ⟨even_clients _, by simpa [EvenFrame] using hf⟩
  | terminated =>
    refine ⟨?_, by simp⟩
    simp only [List.forall_mem_append]
    exact ⟨even_clients _, by simp [EvenFrame]⟩
  | terminateQueue | terminateReturn => exact ⟨by simp [EvenFrame], by simp⟩
  | _ => exact ⟨by simpa [EvenFrame] using hf, by simp⟩

end Registry
end Load

/-! ## Clients -/

section Clients
variable {κ : Type} {C : Client κ}

/-- A step of the client leaves even calls. -/
def ClientStep.Even {μ γ : Type} (w : Load κ γ) (r : ClientStep κ μ γ) : Prop :=
  (∀ a ∈ r.run, w.EvenInstr a) ∧ ∀ k ∈ r.spawn, ∀ a ∈ k, w.EvenInstr a

theorem queue_step_exact {s : World C} {f : Frame κ C.Frame} {x : Option C.Choice}
    {o : Outcome (World C) (Frame κ C.Frame)} (h : (machine C).step s f x = some o)
    (hf : ∀ g, f ≠ .client g) {w : Load κ C.Frame} (hw : w.Exact C.body C.monitor)
    (he : w.EvenFrame f) (R : Multiset (Frame κ C.Frame)) :
    o.shared.mem = s.mem ∧ (∀ g ∈ o.frames, w.EvenFrame g) ∧
      w.total o.shared.toCore (o.frames + R) = w.total s.toCore (f ::ₘ R) := by
  cases step_inv h with
  | client => exact absurd rfl (hf _)
  | registry hreg =>
    have hl := Load.registryStep_exact hw hreg
    refine ⟨rfl, Load.registryStep_even he hreg, ?_⟩
    simp only [Load.total, weight_add, weight_cons, Outcome.frames] at hl ⊢
    omega
  | core hcore =>
    have hl := Load.coreStep_exact hw.body he hcore
    refine ⟨rfl, Load.coreStep_even he hcore, ?_⟩
    simp only [Load.total, weight_add, weight_cons, Outcome.frames] at hl ⊢
    omega

variable {c₀ c : Config (World C) (Frame κ C.Frame)}
  {G : Guard (World C) (Frame κ C.Frame) (Option C.Choice)}

/-- Where the client leaves even calls, all calls are even. -/
theorem even_frames {w : Load κ C.Frame} (h : (machine C).Reaches G c₀ c)
    (h0 : ∀ f ∈ c₀.frames, w.EvenFrame f)
    (heven : ∀ (s : World C) g choice r, C.step s.mem s.toTaskQueues g choice = some r →
      r.Even w) : ∀ f ∈ c.frames, w.EvenFrame f := by
  refine h.preserved (I := fun _ fs => ∀ f ∈ fs, w.EvenFrame f) h0 ?_
  intro s f R x o _ hI hs
  have hrest : ∀ g ∈ R, w.EvenFrame g := fun g hg => hI g (Multiset.mem_cons_of_mem hg)
  have hpush : ∀ g ∈ o.frames, w.EvenFrame g := by
    cases hstep : step_inv hs with
    | @client g choice r t hr ht =>
      obtain ⟨hrun, hspawn⟩ := heven s g choice r hr
      rw [forall_frames]
      refine ⟨List.forall_mem_map.mpr fun a ha => Load.evenFrame_toFrame (hrun a ha), ?_⟩
      exact List.forall_mem_map.mpr fun k hk =>
        List.forall_mem_map.mpr fun a ha => Load.evenFrame_toFrame (hspawn k hk a ha)
    | registry hreg => exact Load.registryStep_even (hI f (Multiset.mem_cons_self _ _)) hreg
    | core hcore => exact Load.coreStep_even (hI f (Multiset.mem_cons_self _ _)) hcore
  intro g hg
  rcases Multiset.mem_add.mp hg with hg | hg
  · exact hpush g hg
  · exact hrest g hg

/-- The rule for what a client keeps about loads that are kept exactly. Unlike `client_invariant`
it asks nothing of `I`. -/
theorem client_exact {ι : Type} {w : ι → Load κ C.Frame} {I : C.Mem → (ι → ℕ) → Prop}
    {J : World C → Multiset (Frame κ C.Frame) → Prop} (h : (machine C).Reaches G c₀ c)
    (hw : ∀ i, (w i).Exact C.body C.monitor) (h0e : ∀ i, ∀ f ∈ c₀.frames, (w i).EvenFrame f)
    (heven : ∀ i (s : World C) g choice r, C.step s.mem s.toTaskQueues g choice = some r →
      r.Even (w i))
    (hJ : ∀ c, (machine C).Reaches G c₀ c → J c.shared c.frames)
    (h0 : I c₀.shared.mem fun i => (w i).total c₀.shared.toCore c₀.frames)
    (hstep : ∀ (s : World C) (R : Multiset (Frame κ C.Frame)) g choice r,
      G s R (.client g) (some choice) → J s (.client g ::ₘ R) →
      C.step s.mem s.toTaskQueues g choice = some r →
      I s.mem (fun i => (w i).total s.toCore R + (w i).code g) →
      I r.mem fun i => (w i).total s.toCore R + (w i).asked r) :
    I c.shared.mem fun i => (w i).total c.shared.toCore c.frames := by
  refine h.invariant (I := fun s fs => I s.mem fun i => (w i).total s.toCore fs)
    (J := fun s fs => J s fs ∧ ∀ i, ∀ f ∈ fs, (w i).EvenFrame f)
    (fun d hd => ⟨hJ d hd, fun i => even_frames hd (h0e i) (heven i)⟩) h0 ?_
  intro s f R x o hg hj hI hs
  by_cases hf : ∀ g, f ≠ .client g
  · have hq := fun i => queue_step_exact hs hf (hw i) (hj.2 i f (Multiset.mem_cons_self _ _)) R
    have ht : (fun i => (w i).total o.shared.toCore (o.frames + R)) =
        fun i => (w i).total s.toCore (f ::ₘ R) := by
      funext i
      exact (hq i).2.2
    simp only [ht, (step_continues hs hf).1]
    exact hI
  · push Not at hf
    obtain ⟨g, rfl⟩ := hf
    obtain ⟨choice, r, rfl, hr, hm, hl⟩ := client_step hs
    have ht : (fun i => (w i).total o.shared.toCore (o.frames + R)) =
        fun i => (w i).total s.toCore R + (w i).asked r := by
      funext i
      exact hl (w i) R
    have hc : (fun i => (w i).total s.toCore (.client g ::ₘ R)) =
        fun i => (w i).total s.toCore R + (w i).code g := by
      funext i
      simp only [Load.total, weight_cons, Load.frame]
      omega
    simp only [hc] at hI
    simp only [ht, hm]
    exact hstep s R g choice r hg hj.1 hr hI

end Clients
end XGameRuntime.TaskQueue
