import Mathlib.Algebra.Order.BigOperators.Group.Multiset
import Mathlib.Algebra.Order.Group.Nat
import XGameRuntime.TaskQueue.Machine

/-! # What code above the queue still has to do

A `Load` weighs callbacks and client frames. Counted over the queued tasks and over all frames,
the continuations inside the calls of the queue included, a load never grows while the queue
itself is running: the queue neither invents nor duplicates what its clients gave it. So a client
can count what it has in flight by looking at its own steps alone, which is the rule
`Machine.Reaches.client`.
-/

namespace XGameRuntime.TaskQueue
open Concurrency
set_option autoImplicit false

structure Load (κ γ : Type) where
  callback : κ → ℕ
  code : γ → ℕ

namespace Load
variable {κ γ : Type} (w : Load κ γ)

def run (fs : List γ) : ℕ := (fs.map w.code).sum

def tasks (ts : List (Task κ)) : ℕ := (ts.map fun task => w.callback task.callback).sum

def submission (a : Submission κ γ) (callback : κ) : ℕ :=
  max (w.callback callback + w.run a.onAccepted) (w.run a.onRefused)

def dispatch (d : Dispatch γ) : ℕ := max (w.run d.onTrue) (w.run d.onFalse)

/-- What a frame may still lead to, whichever way the calls in it go. -/
def frame : Frame κ γ → ℕ
  | .client g => w.code g
  | .notify a | .notifying a _ _ | .submitContext a _ | .submitDue a _ _ =>
      w.submission a a.callback
  | .submitPort a task _ => w.submission a task.callback
  | .invoke task _ | .delayed _ task => w.callback task.callback
  | .dispatch d | .dispatchWait d _ | .drainReady d => w.dispatch d
  | .dispatchBatch d batch _ => w.tasks batch + w.dispatch d
  | .terminateQueue a | .terminate _ a | .terminateContext _ _ a | .awaitDrained _ _ a =>
      w.run a.after
  | .cancel _ pending _ _ a => w.tasks pending + w.run a.after
  | .clock | .running _ _ | .finishOne _ | .worker _ | .terminateReturn _ => 0

/-- What is queued. -/
def core (s : Core κ) : ℕ := (s.ports.map fun port => w.tasks port.state.tasks).sum

def total (s : Core κ) (fs : Multiset (Frame κ γ)) : ℕ := w.core s + weight w.frame fs

/-- What a client asks for in one instruction. -/
def instr : Instr κ γ → ℕ
  | .frame g => w.code g
  | .submit a => w.submission a a.callback
  | .dispatch d => w.dispatch d
  | .terminate a => w.run a.after

/-- What one step of a client leaves to do. -/
def asked {μ : Type} (r : ClientStep κ μ γ) : ℕ :=
  (r.run.map w.instr).sum + (r.spawn.map fun k => (k.map w.instr).sum).sum

/-- The load counts the code of a callback under the callback, and monitors for nothing. -/
structure Fits (body : κ → Bool → List γ) (monitor : ℕ → ℕ → PortKind → List γ) : Prop where
  body : ∀ callback canceled, w.run (body callback canceled) ≤ w.callback callback
  monitor : ∀ context handle kind, w.run (monitor context handle kind) = 0

@[simp] theorem run_nil : w.run [] = 0 := rfl

@[simp] theorem run_cons (g : γ) (fs : List γ) : w.run (g :: fs) = w.code g + w.run fs := by
  simp [run]

@[simp] theorem tasks_nil : w.tasks [] = 0 := rfl

@[simp] theorem tasks_cons (task : Task κ) (ts : List (Task κ)) :
    w.tasks (task :: ts) = w.callback task.callback + w.tasks ts := by
  simp [tasks]

theorem tasks_append (ts us : List (Task κ)) : w.tasks (ts ++ us) = w.tasks ts + w.tasks us := by
  simp [tasks]

theorem tasks_perm {ts us : List (Task κ)} (h : ts.Perm us) : w.tasks ts = w.tasks us :=
  (h.map _).sum_eq

@[simp] theorem sum_clients (fs : List γ) :
    (fs.map (w.frame ∘ Frame.client)).sum = w.run fs := rfl

theorem frame_comp_toFrame : w.frame ∘ Instr.toFrame = w.instr := by
  funext i
  cases i <;> rfl

section Comparison
variable {w} {w' : Load κ γ}

theorem run_le (hg : ∀ g, w.code g ≤ w'.code g) (fs : List γ) : w.run fs ≤ w'.run fs :=
  List.sum_le_sum fun g _ => hg g

theorem tasks_le (hk : ∀ callback, w.callback callback ≤ w'.callback callback)
    (ts : List (Task κ)) : w.tasks ts ≤ w'.tasks ts :=
  List.sum_le_sum fun task _ => hk task.callback

theorem frame_le (hk : ∀ callback, w.callback callback ≤ w'.callback callback)
    (hg : ∀ g, w.code g ≤ w'.code g) (f : Frame κ γ) : w.frame f ≤ w'.frame f := by
  have hsubmit : ∀ (a : Submission κ γ) (callback : κ),
      w.submission a callback ≤ w'.submission a callback := fun a callback =>
    max_le_max (Nat.add_le_add (hk callback) (run_le hg _)) (run_le hg _)
  have hdispatch : ∀ d : Dispatch γ, w.dispatch d ≤ w'.dispatch d := fun d =>
    max_le_max (run_le hg _) (run_le hg _)
  cases f with
  | client g => exact hg g
  | notify | notifying | submitContext | submitDue | submitPort => exact hsubmit _ _
  | invoke | delayed => exact hk _
  | dispatch | dispatchWait | drainReady => exact hdispatch _
  | dispatchBatch => exact Nat.add_le_add (tasks_le hk _) (hdispatch _)
  | terminateQueue | terminate | terminateContext | awaitDrained => exact run_le hg _
  | cancel => exact Nat.add_le_add (tasks_le hk _) (run_le hg _)
  | clock | running | finishOne | worker | terminateReturn => exact le_rfl

/-- A load that weighs everything less counts less. -/
theorem total_le (hk : ∀ callback, w.callback callback ≤ w'.callback callback)
    (hg : ∀ g, w.code g ≤ w'.code g) (s : Core κ) (fs : Multiset (Frame κ γ)) :
    w.total s fs ≤ w'.total s fs :=
  Nat.add_le_add (List.sum_le_sum fun port _ => tasks_le hk port.state.tasks)
    (Multiset.sum_map_le_sum_map _ _ fun f _ => frame_le hk hg f)

end Comparison

@[simp] theorem core_setContext (s : Core κ) (owner : ℕ) (context : PortContext) :
    w.core (s.setContext owner context) = w.core s := rfl

/-! ## The queue keeps loads -/

section Core
variable {body : κ → Bool → List γ} {s : Core κ} {f : Frame κ γ}
  {o : Outcome (Core κ) (Frame κ γ)}

/-- The rule for a step that writes one port. -/
theorem core_setPort {p : ℕ} {port port' : Port κ} {a b : ℕ} (hp : s.ports[p]? = some port)
    (h : w.tasks port'.state.tasks + a ≤ w.tasks port.state.tasks + b) :
    ((s.ports.set p port').map fun port => w.tasks port.state.tasks).sum + a ≤ w.core s + b := by
  rw [core, sum_map_at _ hp, sum_map_set_at _ port' hp]
  omega

theorem coreStep_load (hbody : ∀ callback canceled, w.run (body callback canceled) ≤ w.callback callback)
    (h : CoreStep body s f o) :
    w.core o.shared + weight w.frame o.frames ≤ w.core s + w.frame f := by
  cases h with
  | @refuse a task =>
    simp only [weight_frames, frame, List.map_map, sum_clients, submission]
    simp [core]
  | @acceptInline a task context port hc hp =>
    refine w.core_setPort hp ?_
    simp only [weight_frames, frame, List.map_cons, List.map_map, submission]
    simp [PortState.startInline]
  | @acceptDelayed a task context port hc hp =>
    simp only [weight_frames, frame, List.map_map, List.map_cons, sum_clients, submission]
    simp [core]
    omega
  | @acceptQueued a task context port hc hp =>
    refine w.core_setPort hp ?_
    have hperm := w.tasks_perm (port.state.insert_perm task)
    rw [tasks_cons] at hperm
    simp only [weight_frames, frame, List.map_map, List.map_replicate, sum_clients, submission,
      PortState.startWorkers_tasks, hperm]
    simp [frame]
    omega
  | @invoke task canceled =>
    have hb := hbody task.callback canceled
    simp only [weight_frames, List.map_append, List.map_map, List.sum_append, sum_clients]
    simpa [frame, core] using hb
  | @finishOne p port hp =>
    refine w.core_setPort hp ?_
    simp [weight_frames, frame, PortState.finishOne]
  | @workerTake p port task rest hp ht hl =>
    refine w.core_setPort hp ?_
    simp only [weight_frames, hl, tasks_cons]
    simp [frame]
    omega
  | @dispatchExit d deadline =>
    simp only [weight_frames, List.map_map, sum_clients]
    simp [frame, dispatch]
  | @dispatchTake d deadline port task rest hp ht hl =>
    refine w.core_setPort hp ?_
    simp only [weight_frames, hl, tasks_cons]
    simp [frame]
    omega
  | @drainReady d port hp =>
    refine w.core_setPort hp ?_
    have hd := w.tasks_append (port.state.drainReady s.now).2 (port.state.drainReady s.now).1.tasks
    rw [port.state.drainReady_append s.now] at hd
    simp only [weight_frames, hd]
    simp [frame]
    omega
  | @batchNext d task rest total =>
    simp [weight_frames, frame]
    omega
  | @batchEnd d total port hp =>
    refine w.core_setPort hp ?_
    have ht : (port.state.finishN total).tasks = port.state.tasks := by
      unfold PortState.finishN
      split <;> rfl
    simp only [weight_frames, List.map_map, sum_clients, ht]
    simp [frame, dispatch]
  | @terminateContext owner owners a context port hc hp =>
    refine w.core_setPort hp ?_
    have hperm := w.tasks_perm (port.state.terminateContext_perm owner)
    rw [tasks_append] at hperm
    simp only [weight_frames, ← hperm]
    simp [frame]
    omega
  | @cancelNext owner task rest drainRest owners a =>
    simp [weight_frames, frame]
    omega
  | @cancelDrain owner owners a context port hc hp =>
    refine w.core_setPort hp ?_
    simp [weight_frames, frame, PortState.drainRest]
  | terminate | awaitDrained => simp [weight_frames, frame]
  | _ => simp [weight_frames, frame, core]

theorem grows_load {t : Core κ} (h : s.Grows t) : w.core t = w.core s := by
  induction h with
  | refl => rfl
  | port mode _ ih => simpa [core, Core.newPort] using ih
  | @context t p port _ hp ih =>
    rw [← ih]
    exact sum_map_set_same _ hp rfl

end Core

section Machine
variable {C : Client κ} {w : Load κ C.Frame}

theorem registryStep_load (hw : w.Fits C.body C.monitor) {s : TaskQueues κ} {f : Frame κ C.Frame}
    {o : Outcome (TaskQueues κ) (Frame κ C.Frame)} (h : RegistryStep C s f o) :
    w.core o.shared.toCore + weight w.frame o.frames ≤ w.core s.toCore + w.frame f := by
  cases h with
  | notify hq ht =>
    rw [w.grows_load ht.1]
    simp [weight_frames, frame]
  | @notifyNext a handle monitor rest =>
    have hm := hw.monitor monitor.context handle a.kind
    simp only [weight_frames, List.map_append, List.map_map, List.sum_append, sum_clients, hm]
    simp [frame]
  | terminated =>
    simp only [weight_frames, List.map_append, List.map_map, List.sum_append, sum_clients]
    simp [frame]
  | notifyEnd => simp [weight_frames, frame, core, TaskQueues.setQueue]
  | _ => simp [weight_frames, frame, core]

end Machine
end Load

/-! ## Continuations -/

/-- The client code that a call of the queue goes on with. -/
def Frame.continuation {κ γ : Type} : Frame κ γ → List γ
  | .notify a | .notifying a _ _ | .submitContext a _ | .submitDue a _ _ | .submitPort a _ _ =>
      a.onAccepted ++ a.onRefused
  | .dispatch d | .dispatchWait d _ | .drainReady d | .dispatchBatch d _ _ => d.onTrue ++ d.onFalse
  | .terminateQueue a | .terminate _ a | .terminateContext _ _ a | .cancel _ _ _ _ a
  | .awaitDrained _ _ a => a.after
  | _ => []

/-- Client code that a step of the queue starts comes from a continuation, a callback or a
monitor; and it carries no new continuation. -/
structure Continues {κ γ : Type} (body : κ → Bool → List γ) (monitor : ℕ → ℕ → PortKind → List γ)
    (f g : Frame κ γ) : Prop where
  code : ∀ code, g = .client code → code ∈ f.continuation ∨
    (∃ callback canceled, code ∈ body callback canceled) ∨
    ∃ context handle kind, code ∈ monitor context handle kind
  continuation : ∀ code ∈ g.continuation, code ∈ f.continuation

section Continuations
variable {κ γ : Type} {body : κ → Bool → List γ} {monitor : ℕ → ℕ → PortKind → List γ}
  {f : Frame κ γ}

theorem continues_clients {fs : List γ} (h : ∀ code ∈ fs, code ∈ f.continuation ∨
      (∃ callback canceled, code ∈ body callback canceled) ∨
      ∃ context handle kind, code ∈ monitor context handle kind) :
    ∀ g ∈ fs.map Frame.client, Continues body monitor f g := by
  intro g hg
  obtain ⟨code, hcode, rfl⟩ := List.mem_map.mp hg
  refine ⟨fun other he => ?_, fun other ho => ?_⟩
  · cases he
    exact h code hcode
  · simp [Frame.continuation] at ho

/-- The rule for a step that starts no client code. -/
theorem continues_frames {fs : List (Frame κ γ)} (h : ∀ g ∈ fs, (∀ code, g ≠ .client code) ∧
      ∀ code ∈ g.continuation, code ∈ f.continuation) :
    ∀ g ∈ fs, Continues body monitor f g :=
  fun g hg => ⟨fun code he => absurd he ((h g hg).1 code), (h g hg).2⟩

theorem coreStep_continues {s : Core κ} {o : Outcome (Core κ) (Frame κ γ)}
    (h : CoreStep body s f o) : (∀ g ∈ o.push, Continues body monitor f g) ∧
      ∀ k ∈ o.spawn, ∀ g ∈ k, Continues body monitor f g := by
  cases h with
  | refuse =>
    refine ⟨continues_clients fun code hc => .inl ?_, by simp⟩
    exact List.mem_append_right _ hc
  | acceptInline =>
    refine ⟨?_, by simp⟩
    simp only [List.forall_mem_cons]
    refine ⟨⟨by simp, by simp [Frame.continuation]⟩, ⟨by simp, by simp [Frame.continuation]⟩, ?_⟩
    exact continues_clients fun code hc => .inl (List.mem_append_left _ hc)
  | acceptDelayed =>
    refine ⟨continues_clients fun code hc => .inl (List.mem_append_left _ hc), ?_⟩
    simp only [List.forall_mem_singleton]
    exact ⟨by simp, by simp [Frame.continuation]⟩
  | acceptQueued =>
    refine ⟨continues_clients fun code hc => .inl (List.mem_append_left _ hc), ?_⟩
    intro k hk
    rw [List.eq_of_mem_replicate hk]
    exact continues_frames (by simp [Frame.continuation])
  | @invoke task canceled =>
    refine ⟨?_, by simp⟩
    simp only [List.forall_mem_append]
    refine ⟨continues_clients fun code hc => .inr (.inl ⟨_, _, hc⟩), ?_⟩
    exact continues_frames (by simp [Frame.continuation])
  | dispatchExit =>
    exact ⟨continues_clients fun code hc => .inl (List.mem_append_right _ hc), by simp⟩
  | batchEnd => exact ⟨continues_clients fun code hc => .inl (List.mem_append_left _ hc), by simp⟩
  | _ => exact ⟨continues_frames (by simp [Frame.continuation]), by simp⟩

theorem registryStep_continues {C : Client κ} {s : TaskQueues κ} {f : Frame κ C.Frame}
    {o : Outcome (TaskQueues κ) (Frame κ C.Frame)} (h : RegistryStep C s f o) :
    ∀ g ∈ o.push, Continues C.body C.monitor f g := by
  cases h with
  | notifyNext =>
    simp only [List.forall_mem_append]
    refine ⟨continues_clients fun code hc => .inr (.inr ⟨_, _, _, hc⟩), ?_⟩
    exact continues_frames (by simp [Frame.continuation])
  | terminated =>
    simp only [List.forall_mem_append]
    refine ⟨continues_clients fun code hc => .inl hc, ?_⟩
    exact continues_frames (by simp [Frame.continuation])
  | _ => exact continues_frames (by simp [Frame.continuation])

end Continuations

/-! ## Clients -/

section Clients
variable {κ : Type} {C : Client κ}

theorem client_step {s : World C} {g : C.Frame} {x : Option C.Choice}
    {o : Outcome (World C) (Frame κ C.Frame)} (h : (machine C).step s (.client g) x = some o) :
    ∃ choice r, x = some choice ∧ C.step s.mem s.toTaskQueues g choice = some r ∧
      o.shared.mem = r.mem ∧ ∀ (w : Load κ C.Frame) (R : Multiset (Frame κ C.Frame)),
        w.total o.shared.toCore (o.frames + R) = w.total s.toCore R + w.asked r := by
  cases x with
  | none => simp [machine] at h
  | some choice =>
    simp only [machine, Option.bind_eq_bind, Option.bind_eq_some_iff, Option.some.injEq] at h
    obtain ⟨r, hr, t, ht, rfl⟩ := h
    refine ⟨choice, r, rfl, hr, rfl, fun w R => ?_⟩
    have hg := w.grows_load (applyAll_extends ht).1
    have hs : ((r.spawn.map fun k => k.map Instr.toFrame).map fun k => (k.map w.frame).sum) =
        r.spawn.map fun k => (k.map w.instr).sum := by
      simp only [List.map_map, Function.comp_def, ← w.frame_comp_toFrame]
    rw [Load.total, weight_add, weight_frames, hg, hs, List.map_map, w.frame_comp_toFrame,
      Load.total, Load.asked]
    omega

/-- A step of the machine runs the queue, which keeps the client's memory and every load, or it is
a step of the client. -/
theorem step_client_or_queue {s : World C} {f : Frame κ C.Frame} {x : Option C.Choice}
    {o : Outcome (World C) (Frame κ C.Frame)} (h : (machine C).step s f x = some o) :
    (o.shared.mem = s.mem ∧ ∀ w : Load κ C.Frame, w.Fits C.body C.monitor →
      ∀ R : Multiset (Frame κ C.Frame),
        w.total o.shared.toCore (o.frames + R) ≤ w.total s.toCore (f ::ₘ R)) ∨
    ∃ g choice r, f = .client g ∧ x = some choice ∧
      C.step s.mem s.toTaskQueues g choice = some r ∧ o.shared.mem = r.mem ∧
      ∀ (w : Load κ C.Frame) (R : Multiset (Frame κ C.Frame)),
        w.total o.shared.toCore (o.frames + R) = w.total s.toCore R + w.asked r := by
  have hstep := step_inv h
  cases f with
  | client g =>
    obtain ⟨choice, r, hx, hr, hm, hl⟩ := client_step h
    exact .inr ⟨g, choice, r, rfl, hx, hr, hm, hl⟩
  | _ =>
    left
    cases hstep with
    | registry hreg =>
      refine ⟨rfl, fun w hw R => ?_⟩
      have hl := Load.registryStep_load hw hreg
      simp only [Load.total, weight_add, weight_cons, Outcome.frames] at hl ⊢
      omega
    | core hcore =>
      refine ⟨rfl, fun w hw R => ?_⟩
      have hl := w.coreStep_load hw.body hcore
      simp only [Load.total, weight_add, weight_cons, Outcome.frames] at hl ⊢
      omega

theorem step_continues {s : World C} {f : Frame κ C.Frame} {x : Option C.Choice}
    {o : Outcome (World C) (Frame κ C.Frame)} (h : (machine C).step s f x = some o)
    (hf : ∀ g, f ≠ .client g) : o.shared.mem = s.mem ∧
      (∀ g ∈ o.push, Continues C.body C.monitor f g) ∧
      ∀ k ∈ o.spawn, ∀ g ∈ k, Continues C.body C.monitor f g := by
  cases step_inv h with
  | client => exact absurd rfl (hf _)
  | registry hreg =>
    have hs := (registryStep_outer hreg).2.2.2
    exact ⟨rfl, registryStep_continues hreg, by simp [hs]⟩
  | core hcore => exact ⟨rfl, coreStep_continues hcore⟩

variable {c₀ c : Config (World C) (Frame κ C.Frame)}
  {G : Guard (World C) (Frame κ C.Frame) (Option C.Choice)}

/-- The rule for what a client keeps about its memory and about the loads in flight. It looks at
the client's own steps only; `I` must survive when a load shrinks. -/
theorem client_invariant {ι : Type} {w : ι → Load κ C.Frame}
    {I : C.Mem → (ι → ℕ) → Prop} {J : World C → Multiset (Frame κ C.Frame) → Prop}
    (h : (machine C).Reaches G c₀ c) (hw : ∀ i, (w i).Fits C.body C.monitor)
    (hJ : ∀ c, (machine C).Reaches G c₀ c → J c.shared c.frames)
    (h0 : I c₀.shared.mem fun i => (w i).total c₀.shared.toCore c₀.frames)
    (hmono : ∀ m L L', (∀ i, L' i ≤ L i) → I m L → I m L')
    (hstep : ∀ (s : World C) (R : Multiset (Frame κ C.Frame)) g choice r,
      G s R (.client g) (some choice) → J s (.client g ::ₘ R) →
      C.step s.mem s.toTaskQueues g choice = some r →
      I s.mem (fun i => (w i).total s.toCore R + (w i).code g) →
      I r.mem fun i => (w i).total s.toCore R + (w i).asked r) :
    I c.shared.mem fun i => (w i).total c.shared.toCore c.frames := by
  refine h.invariant (I := fun s fs => I s.mem fun i => (w i).total s.toCore fs) hJ h0 ?_
  intro s f R x o hg hj hI hs
  rcases step_client_or_queue hs with ⟨hm, hl⟩ | ⟨g, choice, r, rfl, rfl, hr, hm, hl⟩
  · rw [hm]
    exact hmono _ _ _ (fun i => hl (w i) (hw i) R) hI
  · rw [hm]
    have hI' : I s.mem fun i => (w i).total s.toCore R + (w i).code g := by
      refine hmono _ _ _ (fun i => ?_) hI
      simp only [Load.total, weight_cons, Load.frame]
      omega
    have h' := hstep s R g choice r hg hj hr hI'
    exact hmono _ _ _ (fun i => Nat.le_of_eq (hl (w i) R)) h'

end Clients
end XGameRuntime.TaskQueue
