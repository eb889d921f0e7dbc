import XGameRuntime.Concurrency.Ledger
import XGameRuntime.TaskQueue.Api
import XGameRuntime.TaskQueue.History

/-! # Where a callback is

Every callback handed to a port is in one place: with its submitter, refused, on the port, with
whoever took it off the port, or finished. The machine refines the `Ledger`: each of its steps
is one of the ledger's moves, so conservation is inherited from there.
-/

namespace XGameRuntime.TaskQueue
open Concurrency
set_option autoImplicit false

/-! ## Places -/

inductive Place where
  | submitting
  | refused
  | queued
  /-- Taken by a worker or a dispatch batch. -/
  | taken
  /-- In a terminator's cancel list. -/
  | canceling
  /-- In the thread of a delayed callback on an immediate port. -/
  | delayed
  /-- Out of all lists, about to be called. -/
  | starting
  | executing
  | finished
  deriving DecidableEq, Repr

def Place.stage : Place → Stage
  | .submitting => .offered
  | .refused => .refused
  | .queued | .taken | .canceling | .delayed | .starting => .held
  | .executing => .running
  | .finished => .done

variable {κ γ : Type}

def Frame.holds : Frame κ γ → Multiset (Task κ × Place)
  | .submitPort _ task _ => {(task, .submitting)}
  | .invoke task _ => {(task, .starting)}
  | .running task _ => {(task, .executing)}
  | .delayed _ task => {(task, .delayed)}
  | .dispatchBatch _ batch _ => (batch : Multiset (Task κ)).map (·, .taken)
  | .cancel _ pending _ _ _ => (pending : Multiset (Task κ)).map (·, .canceling)
  | _ => 0

namespace Core

def queued (s : Core κ) : Multiset (Task κ) :=
  (s.ports.map fun port => (port.state.tasks : Multiset (Task κ))).sum

def holds (s : Core κ) : Multiset (Task κ × Place) :=
  s.queued.map (·, .queued) + (s.refused : Multiset (Task κ)).map (·, .refused) +
    (s.finished : Multiset (Task κ)).map (·, .finished)

def ledger (s : Core κ) (fs : Multiset (Frame κ γ)) : Ledger (Task κ) Place where
  places := s.holds + weight Frame.holds fs
  next := s.nextTask
  accepted := s.accepted
  refused := s.refused
  started := s.started.map Prod.fst

/-- What is held apart from the callbacks queued on port `p`. -/
def holdsBut (s : Core κ) (p : ℕ) : Multiset (Task κ × Place) :=
  ((s.ports.eraseIdx p).map fun port => (port.state.tasks : Multiset (Task κ))).sum.map
      (·, .queued) +
    (s.refused : Multiset (Task κ)).map (·, .refused) +
    (s.finished : Multiset (Task κ)).map (·, .finished)

theorem holds_at {s : Core κ} {p : ℕ} {port : Port κ} (h : s.ports[p]? = some port) :
    s.holds = (port.state.tasks : Multiset (Task κ)).map (·, .queued) + s.holdsBut p := by
  have h1 := sum_map_at (fun port : Port κ => (port.state.tasks : Multiset (Task κ))) h
  unfold holds queued holdsBut
  rw [h1, Multiset.map_add, add_assoc, add_assoc, add_assoc]

theorem holds_setPort {s : Core κ} {p : ℕ} {port : Port κ} (h : s.ports[p]? = some port)
    (port' : Port κ) : (s.setPort p port').holds =
      (port'.state.tasks : Multiset (Task κ)).map (·, .queued) + s.holdsBut p := by
  have h1 := sum_map_set_at (fun port : Port κ => (port.state.tasks : Multiset (Task κ))) port' h
  unfold holds queued setPort holdsBut
  rw [h1, Multiset.map_add, add_assoc, add_assoc, add_assoc]

theorem holds_setPort_of_eq {s : Core κ} {p : ℕ} {port port' : Port κ}
    (h : s.ports[p]? = some port) (ht : port'.state.tasks = port.state.tasks) :
    (s.setPort p port').holds = s.holds := by
  rw [holds_at h, holds_setPort h, ht]

theorem holds_refused (s : Core κ) (task : Task κ) :
    ({ s with refused := task :: s.refused } : Core κ).holds = (task, .refused) ::ₘ s.holds := by
  simp only [holds, ← Multiset.cons_coe, Multiset.map_cons, Multiset.add_cons, Multiset.cons_add]
  rfl

theorem holds_finished (s : Core κ) (task : Task κ) :
    ({ s with finished := task :: s.finished } : Core κ).holds =
      (task, .finished) ::ₘ s.holds := by
  simp only [holds, ← Multiset.cons_coe, Multiset.map_cons, Multiset.add_cons]
  rfl

/-- Creating ports and contexts moves no callback. -/
theorem Grows.ledger {s t : Core κ} (h : s.Grows t) (fs : Multiset (Frame κ γ)) :
    t.ledger fs = s.ledger fs := by
  induction h with
  | refl => rfl
  | @port t mode hst ih =>
    rw [← ih]
    have hq : (t.newPort mode).queued = t.queued := by
      simp [Core.queued, newPort]
    simp only [Core.ledger, holds, hq]
    rfl
  | @context t p port hst hp ih =>
    rw [← ih]
    have hq : (t.newContext p port).holds = t.holds :=
      holds_setPort_of_eq hp rfl
    simp only [Core.ledger, hq]
    rfl

end Core

/-! ## Every step is a move of the ledger -/

@[simp] theorem sum_holds_clients (fs : List γ) :
    (fs.map (Frame.holds ∘ Frame.client (κ := κ))).sum = 0 := by
  apply List.sum_eq_zero
  simp [Frame.holds]

theorem holds_outer {f : Frame κ γ} (h : f.isOuter = true) : f.holds = 0 := by
  cases f <;> simp [Frame.isOuter] at h <;> rfl

section Moves
variable {s t : Core κ} {fs gs : Multiset (Frame κ γ)}

/-- Nothing is submitted, accepted, refused or invoked. -/
structure Core.SameCalls (s t : Core κ) : Prop where
  next : t.nextTask = s.nextTask
  accepted : t.accepted = s.accepted
  refused : t.refused = s.refused
  started : t.started = s.started

theorem move_stay (h : s.SameCalls t)
    (hp : t.holds + weight Frame.holds gs = s.holds + weight Frame.holds fs) :
    Ledger.Move Task.id Place.stage (s.ledger fs) (t.ledger gs) := by
  refine .stay ?_
  ext1
  · exact hp
  · exact h.next
  · exact h.accepted
  · exact h.refused
  · simp only [Core.ledger, h.started]

/-- Callbacks change hands between places where they are held. -/
theorem move_relocate (h : s.SameCalls t) (tasks : Multiset (Task κ)) {p q : Place}
    (rest : Multiset (Task κ × Place)) (hp : p.stage = .held) (hq : q.stage = .held)
    (hs : s.holds + weight Frame.holds fs = tasks.map (·, p) + rest)
    (ht : t.holds + weight Frame.holds gs = tasks.map (·, q) + rest) :
    Ledger.Move Task.id Place.stage (s.ledger fs) (t.ledger gs) := by
  refine .relocate _ hp hq hs ?_
  ext1
  · exact ht
  · exact h.next
  · exact h.accepted
  · exact h.refused
  · simp only [Core.ledger, h.started]

/-- A port accepts the callback of a submission. -/
theorem move_accept (task : Task κ) {q : Place} (rest : Multiset (Task κ × Place))
    (hq : q.stage = .held) (hn : t.nextTask = s.nextTask) (ha : t.accepted = task :: s.accepted)
    (hr : t.refused = s.refused) (hst : t.started = s.started)
    (hs : s.holds + weight Frame.holds fs = (task, .submitting) ::ₘ rest)
    (ht : t.holds + weight Frame.holds gs = (task, q) ::ₘ rest) :
    Ledger.Move Task.id Place.stage (s.ledger fs) (t.ledger gs) := by
  refine .accept rfl hq hs ?_
  ext1
  · exact ht
  · exact hn
  · exact ha
  · exact hr
  · simp only [Core.ledger, hst]

end Moves

theorem coreStep_move {body : κ → Bool → List γ} {s : Core κ} {f : Frame κ γ}
    {o : Outcome (Core κ) (Frame κ γ)} (h : CoreStep body s f o) (R : Multiset (Frame κ γ)) :
    Ledger.Move Task.id Place.stage (s.ledger (f ::ₘ R)) (o.shared.ledger (o.frames + R)) := by
  cases h with
  | clock | submitContext | workerExit | dispatch | dispatchExit | terminate | cancelWait
    | cancelReturn | awaitDrained =>
    refine move_stay ⟨rfl, rfl, rfl, rfl⟩ ?_
    simp [weight_frames, Frame.holds]
    try rfl
  | @submitDue a owner ownerTerminated due hd =>
    refine .offer (i := ⟨a.callback, owner, due, s.nextTask⟩) (p := .submitting) rfl rfl ?_
    ext1
    · simp [Core.ledger, weight_frames, Frame.holds, Core.holds, Core.queued]
    all_goals rfl
  | @refuse a task ownerTerminated context port hc hp ht =>
    refine .refuse (i := task) (p := .submitting) (q := .refused)
      (m := s.holds + weight Frame.holds R) rfl rfl ?_ ?_
    · simp [Core.ledger, Frame.holds]
    · ext1
      · simp [Core.ledger, weight_frames, Core.holds_refused]
      all_goals rfl
  | @acceptInline a task context port hc hp ht hm hd =>
    have hh : (s.setPort context.port { port with state := port.state.startInline }).holds =
        s.holds := Core.holds_setPort_of_eq hp rfl
    refine move_accept task (q := .starting) (s.holds + weight Frame.holds R) rfl rfl rfl rfl rfl
      (by simp [Frame.holds]) ?_
    rw [← hh]
    simp [weight_frames, Frame.holds]
    rfl
  | @acceptDelayed a task context port hc hp ht hm hd =>
    refine move_accept task (q := .delayed) (s.holds + weight Frame.holds R) rfl rfl rfl rfl rfl
      (by simp [Frame.holds]) ?_
    simp [weight_frames, Frame.holds]
    rfl
  | @acceptQueued a task context port hc hp ht hm =>
    have hi : (((port.state.insert task).startWorkers port.mode s.pool).1.tasks :
        Multiset (Task κ)) = task ::ₘ port.state.tasks := by
      rw [PortState.startWorkers_tasks]
      exact Multiset.coe_eq_coe.mpr (port.state.insert_perm task)
    have hh := Core.holds_setPort hp { port with
      state := ((port.state.insert task).startWorkers port.mode s.pool).1 }
    rw [hi, Multiset.map_cons, Multiset.cons_add, ← Core.holds_at hp] at hh
    refine move_accept task (q := .queued) (s.holds + weight Frame.holds R) rfl rfl rfl rfl rfl
      (by simp [Frame.holds]) ?_
    rw [← Multiset.cons_add, ← hh]
    simp [weight_frames, Frame.holds]
    rfl
  | @invoke task canceled =>
    refine .start (i := task) (p := .starting) (q := .executing)
      (m := s.holds + weight Frame.holds R) rfl rfl ?_ ?_
    · simp [Core.ledger, Frame.holds]
    · ext1
      · simp [Core.ledger, weight_frames, Frame.holds]
        rfl
      all_goals rfl
  | @running task canceled =>
    refine .finish (i := task) (p := .executing) (q := .finished)
      (m := s.holds + weight Frame.holds R) rfl rfl ?_ ?_
    · simp [Core.ledger, Frame.holds]
    · ext1
      · simp [Core.ledger, weight_frames, Core.holds_finished]
      all_goals rfl
  | @finishOne p port hp =>
    have hh : (s.setPort p { port with state := port.state.finishOne }).holds = s.holds :=
      Core.holds_setPort_of_eq hp rfl
    refine move_stay ⟨rfl, rfl, rfl, rfl⟩ ?_
    rw [← hh]
    simp [weight_frames, Frame.holds]
    rfl
  | @workerTake p port task rest hp ht hl =>
    refine move_relocate ⟨rfl, rfl, rfl, rfl⟩ {task} (p := .queued) (q := .starting)
      ((rest : Multiset (Task κ)).map (·, .queued) + s.holdsBut p + weight Frame.holds R)
      rfl rfl ?_ ?_
    · rw [Core.holds_at hp, hl, ← Multiset.cons_coe]
      simp [Frame.holds, -Multiset.cons_coe, -Multiset.map_coe]
    · rw [Core.setState, Core.holds_setPort hp]
      simp [weight_frames, Frame.holds, -Multiset.map_coe]
  | @delayed p task port hp =>
    refine move_relocate ⟨rfl, rfl, rfl, rfl⟩ {task} (p := .delayed) (q := .starting)
      (s.holds + weight Frame.holds R) rfl rfl ?_ ?_
    · simp [Frame.holds]
    · simp [weight_frames, Frame.holds]
  | @dispatchTake d deadline port task rest hp ht hl =>
    refine move_relocate ⟨rfl, rfl, rfl, rfl⟩ {task} (p := .queued) (q := .starting)
      ((rest : Multiset (Task κ)).map (·, .queued) + s.holdsBut d.port + weight Frame.holds R)
      rfl rfl ?_ ?_
    · rw [Core.holds_at hp, hl, ← Multiset.cons_coe]
      simp [Frame.holds, -Multiset.cons_coe, -Multiset.map_coe]
    · rw [Core.setState, Core.holds_setPort hp]
      simp [weight_frames, Frame.holds, -Multiset.map_coe]
  | @drainReady d port hp =>
    have hd : (port.state.tasks : Multiset (Task κ)) =
        ↑(port.state.drainReady s.now).2 + ↑(port.state.drainReady s.now).1.tasks := by
      rw [Multiset.coe_add, PortState.drainReady_append]
    refine move_relocate ⟨rfl, rfl, rfl, rfl⟩ (port.state.drainReady s.now).2 (p := .queued)
      (q := .taken) (((port.state.drainReady s.now).1.tasks : Multiset (Task κ)).map (·, .queued) +
        s.holdsBut d.port + weight Frame.holds R) rfl rfl ?_ ?_
    · rw [Core.holds_at hp, hd, Multiset.map_add]
      simp [Frame.holds, -Multiset.map_coe, add_assoc]
    · rw [Core.setState, Core.holds_setPort hp]
      simp [weight_frames, Frame.holds, -Multiset.map_coe, add_assoc, add_left_comm]
  | @batchNext d task rest total =>
    refine move_relocate ⟨rfl, rfl, rfl, rfl⟩ {task} (p := .taken) (q := .starting)
      (s.holds + (rest : Multiset (Task κ)).map (·, .taken) + weight Frame.holds R) rfl rfl ?_ ?_
    · simp only [weight_cons, Frame.holds, ← Multiset.cons_coe]
      simp [-Multiset.cons_coe, -Multiset.map_coe, add_assoc]
    · simp [weight_frames, Frame.holds, -Multiset.map_coe, add_assoc]
  | @batchEnd d total port hp =>
    have hh : (s.setPort d.port { port with state := port.state.finishN total }).holds =
        s.holds := by
      refine Core.holds_setPort_of_eq hp ?_
      simp only [PortState.finishN]
      split <;> rfl
    refine move_stay ⟨rfl, rfl, rfl, rfl⟩ ?_
    rw [← hh]
    simp [weight_frames, Frame.holds]
    rfl
  | @terminateContext owner owners a context port hc hp =>
    have hd : (port.state.tasks : Multiset (Task κ)) = ↑(port.state.terminateContext owner).2.1 +
        ↑(port.state.terminateContext owner).1.tasks := by
      rw [Multiset.coe_add]
      exact Multiset.coe_eq_coe.mpr (port.state.terminateContext_perm owner).symm
    refine move_relocate ⟨rfl, rfl, rfl, rfl⟩ (port.state.terminateContext owner).2.1
      (p := .queued) (q := .canceling)
      (((port.state.terminateContext owner).1.tasks : Multiset (Task κ)).map (·, .queued) +
        s.holdsBut context.port + weight Frame.holds R) rfl rfl ?_ ?_
    · rw [Core.holds_at hp, hd, Multiset.map_add]
      simp [Frame.holds, -Multiset.map_coe, add_assoc]
    · have hh := Core.holds_setPort hp
        { port with state := (port.state.terminateContext owner).1 }
      have ht : ((s.setState context.port port (port.state.terminateContext owner).1).setContext
          owner { context with closed := true }).holds = _ := hh
      rw [ht]
      simp [weight_frames, Frame.holds, -Multiset.map_coe, add_assoc, add_left_comm]
  | @cancelNext owner task rest drainRest owners a =>
    refine move_relocate ⟨rfl, rfl, rfl, rfl⟩ {task} (p := .canceling) (q := .starting)
      (s.holds + (rest : Multiset (Task κ)).map (·, .canceling) + weight Frame.holds R)
      rfl rfl ?_ ?_
    · simp only [weight_cons, Frame.holds, ← Multiset.cons_coe]
      simp [-Multiset.cons_coe, -Multiset.map_coe, add_assoc]
    · simp [weight_frames, Frame.holds, -Multiset.map_coe, add_assoc]
  | @cancelDrain owner owners a context port hc hp =>
    refine move_relocate ⟨rfl, rfl, rfl, rfl⟩ port.state.tasks (p := .queued) (q := .canceling)
      (s.holdsBut context.port + weight Frame.holds R) rfl rfl ?_ ?_
    · rw [Core.holds_at hp]
      simp [Frame.holds, -Multiset.map_coe, add_assoc]
    · rw [Core.holds_setPort hp]
      simp [weight_frames, Frame.holds, PortState.drainRest, -Multiset.map_coe, add_left_comm]

variable {C : Client κ}

theorem step_move {s : World C} {f : Frame κ C.Frame} {o : Outcome (World C) (Frame κ C.Frame)}
    (h : Step C s f o) (R : Multiset (Frame κ C.Frame)) :
    Ledger.Move Task.id Place.stage (s.ledger (f ::ₘ R)) (o.shared.ledger (o.frames + R)) := by
  rcases h.outer_or_core with ⟨hg, hf, ho⟩ | ⟨o', ho', hs, hfr⟩
  · refine .stay ?_
    rw [hg.ledger]
    ext1
    · simp only [Core.ledger, weight_cons, weight_add, holds_outer hf]
      rw [weight_eq_zero _ fun g hg => holds_outer (ho g hg)]
    all_goals rfl
  · rw [hs, hfr]
    exact coreStep_move ho' R

/-! ## Runs -/

section Runs
variable {c₀ c : Config (World C) (Frame κ C.Frame)}

theorem Initial.holds_frames (h0 : Initial C c₀) : weight Frame.holds c₀.frames = 0 :=
  weight_eq_zero _ fun f hf => holds_outer (h0.outer f hf)

/-- The ledger of every configuration that a run reaches is sound. -/
theorem Initial.sound (h0 : Initial C c₀)
    {G : Guard (World C) (Frame κ C.Frame) (Option C.Choice)} (h : (machine C).Reaches G c₀ c) :
    Ledger.Sound Task.id Place.stage (c.shared.ledger c.frames) := by
  refine h.preserved (I := fun s fs => Ledger.Sound Task.id Place.stage (s.ledger fs)) ?_ ?_
  · obtain ⟨pool, now, hq⟩ := h0.queues
    have he : c₀.shared.ledger c₀.frames = ⟨0, 0, [], [], []⟩ := by
      simp only [Core.ledger, Core.holds, Core.queued, hq, h0.holds_frames]
      rfl
    rw [he]
    exact Ledger.sound_empty _ _
  · intro s f R x o _ hI hs
    exact (step_move (step_inv hs) R).sound _ _ hI

end Runs

/-! ## The second drain -/

/-- The terminator that found context `o` to be the last live one on its port has not drained
the port yet. -/
def Draining (s : Core κ) (fs : Multiset (Frame κ γ)) (p : ℕ) : Prop :=
  ∃ owner pending owners a context, Frame.cancel owner pending true owners a ∈ fs ∧
    s.contexts[owner]? = some context ∧ context.port = p

structure DrainSound (s : Core κ) (fs : Multiset (Frame κ γ)) : Prop where
  drained : ∀ (p : ℕ) (port : Port κ), s.ports[p]? = some port → port.drained = true →
    port.state.terminated = true ∧ port.state.tasks = []
  draining : ∀ (p : ℕ) (port : Port κ), Draining s fs p → s.ports[p]? = some port →
    port.state.terminated = true
  terminated : ∀ (p : ℕ) (port : Port κ), s.ports[p]? = some port →
    port.state.terminated = true → port.drained = true ∨ Draining s fs p
  known : ∀ owner pending owners a, Frame.cancel owner pending true owners a ∈ fs →
    ∃ (context : PortContext) (port : Port κ), s.contexts[owner]? = some context ∧
      s.ports[context.port]? = some port

section DrainStep
variable {body : κ → Bool → List γ} {s : Core κ} {f : Frame κ γ}
  {o : Outcome (Core κ) (Frame κ γ)} {R : Multiset (Frame κ γ)} {p : ℕ}

/-- A terminator keeps draining until its step has drained the port. -/
theorem Draining.keep (h : CoreStep body s f o) (hd : Draining s (f ::ₘ R) p) :
    Draining o.shared (o.frames + R) p ∨
      ∀ port', o.shared.ports[p]? = some port' → port'.drained = true := by
  obtain ⟨owner, pending, owners, a, context, hm, hc, hp⟩ := hd
  obtain ⟨context', hc', hl⟩ := h.later.contexts owner context hc
  rcases Multiset.mem_cons.mp hm with rfl | hR
  · cases h with
    | @cancelNext owner task rest drainRest owners a =>
      left
      exact ⟨owner, rest, owners, a, context', by simp [Outcome.frames], hc', hl.port.trans hp⟩
    | @cancelDrain owner owners a context₂ port hc₂ hp₂ =>
      right
      rw [hc, Option.some.injEq] at hc₂
      subst hc₂
      intro port' hport
      rcases getElem?_set_cases hport with ⟨-, rfl⟩ | ⟨hne, -⟩
      · rfl
      · exact absurd hp hne
  · left
    exact ⟨owner, pending, owners, a, context', Multiset.mem_add.mpr (.inr hR), hc',
      hl.port.trans hp⟩

/-- The frames of a draining terminator come from one before, or from the section that set the
flag. -/
theorem Draining.origin (h : CoreStep body s f o) (hd : Draining o.shared (o.frames + R) p) :
    Draining s (f ::ₘ R) p ∨
      ∀ port', o.shared.ports[p]? = some port' → port'.state.terminated = true := by
  obtain ⟨owner, pending, owners, a, context', hm, hc', hp⟩ := hd
  obtain ⟨context, hc, hs⟩ := h.context_cases hc'
  have hpc : context.port = p := hs.later.port.symm.trans hp
  rcases Multiset.mem_add.mp hm with ho | hR
  · cases h with
    | @terminateContext owner₂ owners₂ a₂ context₂ port hc₂ hp₂ =>
      right
      simp only [Outcome.frames, List.flatten_nil, List.append_nil, Multiset.mem_coe,
        List.mem_singleton, Frame.cancel.injEq] at ho
      obtain ⟨rfl, -, hlast, -, -⟩ := ho
      rw [hc, Option.some.injEq] at hc₂
      subst hc₂
      intro port' hport
      rcases getElem?_set_cases hport with ⟨-, rfl⟩ | ⟨hne, -⟩
      · simp only [PortState.terminateContext] at hlast ⊢
        simp [← hlast]
      · exact absurd hpc hne
    | @cancelNext owner₂ task rest drainRest owners₂ a₂ =>
      left
      simp [Outcome.frames] at ho
      obtain ⟨rfl, -, rfl, -, -⟩ := ho
      exact ⟨owner, task :: rest, owners₂, a₂, context, by simp, hc, hpc⟩
    | _ => simp [Outcome.frames] at ho
  · left
    exact ⟨owner, pending, owners, a, context, Multiset.mem_cons_of_mem hR, hc, hpc⟩

theorem coreStep_drainSound (h : CoreStep body s f o) (hI : DrainSound s (f ::ₘ R)) :
    DrainSound o.shared (o.frames + R) := by
  constructor
  · intro p port' hp' hd'
    obtain ⟨port, hp, hs⟩ := h.port_cases hp'
    cases hs with
    | ordinary ho =>
      obtain ⟨ht, hn⟩ := hI.drained p port hp (ho.drained.symm.trans hd')
      refine ⟨ho.terminated.trans ht, List.eq_nil_iff_forall_not_mem.mpr ?_⟩
      intro task hm
      rcases ho.tasks task hm with hmem | ⟨hf, -⟩
      · rw [hn] at hmem
        exact List.not_mem_nil hmem
      · simp [ht] at hf
    | terminateContext owner owners a context hf hc hpp he =>
      subst he
      obtain ⟨ht, hn⟩ := hI.drained p port hp hd'
      simp [PortState.terminateContext, ht, hn]
    | cancelDrain owner owners a context hf hc hpp he =>
      subst he
      have ht := hI.draining p port
        ⟨owner, [], owners, a, context, by simp [hf], hc, hpp⟩ hp
      exact ⟨ht, rfl⟩
  · intro p port' hd' hp'
    rcases hd'.origin h with hd | ht
    · obtain ⟨port, hp, hs⟩ := h.port_cases hp'
      obtain ⟨port₂, hp₂, hl⟩ := h.later.ports p port hp
      rw [hp', Option.some.injEq] at hp₂
      subst hp₂
      exact hl.terminated (hI.draining p port hd hp)
    · exact ht port' hp'
  · intro p port' hp' ht'
    obtain ⟨port, hp, hs⟩ := h.port_cases hp'
    cases hs with
    | ordinary ho =>
      rcases hI.terminated p port hp (ho.terminated.symm.trans ht') with hd | hd
      · exact .inl (ho.drained.trans hd)
      · rcases hd.keep h with hk | hk
        · exact .inr hk
        · exact .inl (hk port' hp')
    | terminateContext owner owners a context hf hc hpp he =>
      subst hf hpp
      cases hlast : (port.state.terminateContext owner).2.2 with
      | false =>
        have ht : port.state.terminated = true := by
          subst he
          simp only [PortState.terminateContext] at ht' hlast
          simpa [hlast] using ht'
        rcases hI.terminated context.port port hp ht with hd | hd
        · subst he
          exact .inl hd
        · rcases hd.keep h with hk | hk
          · exact .inr hk
          · exact .inl (hk port' hp')
      | true =>
        right
        obtain ⟨context', hc', hl⟩ := h.later.contexts owner context hc
        cases h with
        | @terminateContext _ _ _ context₂ port₂ hc₂ hp₂ =>
          rw [hc, Option.some.injEq] at hc₂
          subst hc₂
          rw [hp, Option.some.injEq] at hp₂
          subst hp₂
          refine ⟨owner, (port.state.terminateContext owner).2.1, owners, a, context', ?_, hc',
            hl.port⟩
          simp [Outcome.frames, hlast]
    | cancelDrain owner owners a context hf hc hpp he =>
      subst he
      exact .inl rfl
  · intro owner pending owners a hm
    have hknown : ∃ (context : PortContext) (port : Port κ),
        s.contexts[owner]? = some context ∧ s.ports[context.port]? = some port := by
      rcases Multiset.mem_add.mp hm with ho | hR
      · cases h with
        | terminateContext hc hp =>
          simp only [Outcome.frames, List.flatten_nil, List.append_nil, Multiset.mem_coe,
            List.mem_singleton, Frame.cancel.injEq] at ho
          obtain ⟨rfl, -⟩ := ho
          exact ⟨_, _, hc, hp⟩
        | cancelNext =>
          simp [Outcome.frames] at ho
          obtain ⟨rfl, -, rfl, rfl, rfl⟩ := ho
          exact hI.known owner _ _ _ (Multiset.mem_cons_self _ _)
        | _ => simp [Outcome.frames] at ho
      · exact hI.known owner pending owners a (Multiset.mem_cons_of_mem hR)
    obtain ⟨context, port, hc, hp⟩ := hknown
    exact h.later.known hc hp

end DrainStep

/-- Outside the core no frame of a terminator comes or goes. -/
theorem mem_outer {f g : Frame κ γ} {fs R : Multiset (Frame κ γ)} (hf : f.isOuter = true)
    (ho : ∀ g ∈ fs, g.isOuter = true) (hg : g.isOuter = false) : g ∈ fs + R ↔ g ∈ f ::ₘ R := by
  have hne : g ≠ f := by
    rintro rfl
    simp [hf] at hg
  have hn : g ∉ fs := fun hm => by simp [ho g hm] at hg
  simp [hne, hn]

theorem Core.Grows.port_cases {s t : Core κ} (h : s.Grows t) {p : ℕ} {port' : Port κ}
    (hp : t.ports[p]? = some port') :
    (∃ mode, port' = { mode := mode, state := { ({} : PortState κ) with
        activeContexts := port'.state.activeContexts } }) ∨
      ∃ port, s.ports[p]? = some port ∧ port' = { port with
        state := { port.state with activeContexts := port'.state.activeContexts } } := by
  induction h generalizing port' with
  | refl => exact .inr ⟨port', hp, rfl⟩
  | @port t mode _ ih =>
    rcases getElem?_push_cases hp with hp | ⟨-, rfl⟩
    · exact ih hp
    · exact .inl ⟨mode, rfl⟩
  | @context t q port _ hq ih =>
    rcases getElem?_set_cases hp with ⟨rfl, rfl⟩ | ⟨-, hp⟩
    · rcases ih hq with ⟨mode, he⟩ | ⟨old, ho, he⟩
      · left
        refine ⟨mode, ?_⟩
        rw [he]
        rfl
      · right
        refine ⟨old, ho, ?_⟩
        rw [he]
        rfl
    · exact ih hp

theorem Core.Grows.drainSound {s t : Core κ} {fs gs : Multiset (Frame κ γ)} (h : s.Grows t)
    (hfs : ∀ g, g.isOuter = false → (g ∈ gs ↔ g ∈ fs)) (hI : DrainSound s fs) :
    DrainSound t gs := by
  have hkeep : ∀ p, Draining s fs p → Draining t gs p := by
    rintro p ⟨owner, pending, owners, a, context, hm, hc, hp⟩
    obtain ⟨context', hc', hl⟩ := h.later.contexts owner context hc
    exact ⟨owner, pending, owners, a, context', (hfs _ rfl).mpr hm, hc', hl.port.trans hp⟩
  constructor
  · intro p port' hp' hd
    rcases h.port_cases hp' with ⟨mode, he⟩ | ⟨port, hp, he⟩
    · rw [he] at hd
      simp at hd
    · rw [he] at hd ⊢
      exact hI.drained p port hp hd
  · rintro p port' ⟨owner, pending, owners, a, context', hm, hc', hp⟩ hp'
    have hm' := (hfs _ rfl).mp hm
    obtain ⟨context, port, hc, hport⟩ := hI.known owner pending owners a hm'
    obtain ⟨context₂, hc₂, hl⟩ := h.later.contexts owner context hc
    rw [hc', Option.some.injEq] at hc₂
    subst hc₂
    have hpc : context.port = p := hl.port.symm.trans hp
    rw [hpc] at hport
    obtain ⟨port₂, hp₂, hpl⟩ := h.later.ports p port hport
    rw [hp', Option.some.injEq] at hp₂
    subst hp₂
    exact hpl.terminated
      (hI.draining p port ⟨owner, pending, owners, a, context, hm', hc, hpc⟩ hport)
  · intro p port' hp' ht
    rcases h.port_cases hp' with ⟨mode, he⟩ | ⟨port, hp, he⟩
    · rw [he] at ht
      simp at ht
    · rw [he] at ht ⊢
      exact (hI.terminated p port hp ht).imp_right (hkeep p)
  · intro owner pending owners a hm
    obtain ⟨context, port, hc, hp⟩ := hI.known owner pending owners a ((hfs _ rfl).mp hm)
    exact h.later.known hc hp

/-! ## The specification -/

section Specification
variable {c₀ c : Config (World C) (Frame κ C.Frame)}

theorem Initial.drainSound (h0 : Initial C c₀)
    {G : Guard (World C) (Frame κ C.Frame) (Option C.Choice)} (h : (machine C).Reaches G c₀ c) :
    DrainSound c.shared.toCore c.frames := by
  refine h.preserved (I := fun s fs => DrainSound s.toCore fs) ?_ ?_
  · obtain ⟨pool, now, hq⟩ := h0.queues
    have hnone : ∀ p : ℕ, c₀.shared.ports[p]? = none := by
      intro p
      rw [hq]
      rfl
    constructor
    · intro p port hp
      simp [hnone] at hp
    · intro p port _ hp
      simp [hnone] at hp
    · intro p port hp
      simp [hnone] at hp
    · intro owner pending owners a hm
      have hf := h0.outer _ hm
      simp [Frame.isOuter] at hf
  · intro s f R x o _ hI hs
    rcases (step_inv hs).outer_or_core with ⟨hg, hf, ho⟩ | ⟨o', ho', hsh, hfr⟩
    · exact hg.drainSound (fun g hg => mem_outer hf ho hg) hI
    · rw [hsh, hfr]
      exact coreStep_drainSound ho' hI

/-- The places of a callback: who holds it, on the ports or in the frames of the threads. -/
def placesOf (c : Config (World C) (Frame κ C.Frame)) (task : Task κ) :
    Multiset (Task κ × Place) :=
  (c.shared.holds + weight Frame.holds c.frames).filter fun x => x.1.id = task.id

theorem drained_forever (h0 : Initial C c₀) (h : (machine C).Reaches anyStep c₀ c) {p : ℕ}
    {port : Port κ} (hp : c.shared.ports[p]? = some port) (hd : port.drained = true)
    {c' : Config (World C) (Frame κ C.Frame)} (h' : (machine C).Reaches anyStep c c') :
    ∃ port', c'.shared.ports[p]? = some port' ∧ port'.state.tasks = [] := by
  obtain ⟨port', hp', hl⟩ := (reaches_later h').ports p port hp
  exact ⟨port', hp', ((h0.drainSound (h.trans h')).drained p port' hp' (hl.drained hd)).2⟩

theorem Initial.refused_never_started (h0 : Initial C c₀)
    {G : Guard (World C) (Frame κ C.Frame) (Option C.Choice)} (h : (machine C).Reaches G c₀ c) :
    ∀ task ∈ c.shared.refused, ∀ call ∈ c.shared.started, call.1.id ≠ task.id := by
  have hs := h0.sound h
  intro task ht call hcall heq
  obtain ⟨q, hq, hst⟩ := hs.started_place (i := call.1) (List.mem_map_of_mem hcall)
  obtain ⟨r, hr, hre⟩ := hs.refused_place (i := task) ht
  obtain ⟨-, rfl⟩ := hs.same hr hq heq
  simp [hre, Stage.isStarted] at hst

/-- Exactly-once callbacks: in every state of every run, an accepted callback is in one place,
and it has been invoked once, with one value of `canceled`, if that place is `executing` or
`finished`, and not at all otherwise; a refused one is never invoked; a port whose second drain
is done is empty from then on, and a terminated port is in the middle of it or past it. -/
theorem callbacks_exactly_once (h0 : Initial C c₀) (h : (machine C).Reaches anyStep c₀ c) :
    (c.shared.accepted.map Task.id).Nodup ∧
    (∀ task ∈ c.shared.accepted, ∃ place : Place, place.stage.isAccepted = true ∧
      placesOf c task = {(task, place)} ∧
      c.shared.started.countP (fun x => decide (x.1.id = task.id)) =
        if place.stage.isStarted = true then 1 else 0) ∧
    (∀ task ∈ c.shared.refused, ∀ call ∈ c.shared.started, call.1.id ≠ task.id) ∧
    (∀ (p : ℕ) (port : Port κ), c.shared.ports[p]? = some port → port.drained = true →
      ∀ c', (machine C).Reaches anyStep c c' →
        ∃ port', c'.shared.ports[p]? = some port' ∧ port'.state.tasks = []) ∧
    (∀ (p : ℕ) (port : Port κ), c.shared.ports[p]? = some port → port.state.terminated = true →
      port.drained = true ∨ Draining c.shared.toCore c.frames p) := by
  have hs := h0.sound h
  have hd := h0.drainSound h
  refine ⟨hs.nodup_accepted, ?_, h0.refused_never_started h, ?_, ?_⟩
  · intro task ht
    obtain ⟨place, hp, ha⟩ := hs.accepted_place (i := task) ht
    refine ⟨place, ha, hs.unique hp, ?_⟩
    have hc := hs.count_started hp
    simp only [Core.ledger, List.countP_map] at hc
    exact hc
  · intro p port hp hdr c' h'
    exact drained_forever h0 h hp hdr h'
  · exact fun p port hp ht => hd.terminated p port hp ht

end Specification

/-- A manual queue that gets two callbacks, runs one and is terminated: one has been invoked with
`canceled = false` and the other with `canceled = true`, and the port is drained. -/
theorem callbacks_exactly_once_manual :
    ∃ c, (machine QueueGame).Reaches anyStep (QueueGame.start 2 1) c ∧
      c.shared.started.map (fun call => (call.1.callback, call.2)) = [(8, true), (7, false)] ∧
      (∀ task ∈ c.shared.accepted, ∃ place : Place, place.stage.isAccepted = true ∧
        placesOf c task = {(task, place)} ∧
        c.shared.started.countP (fun x => decide (x.1.id = task.id)) =
          if place.stage.isStarted = true then 1 else 0) := by
  have h : ((machine QueueGame).run anyStep
      ([QueueGame.call (.create 0 0 true)] ++ QueueGame.steps 1 1 ++
        [QueueGame.call (.submitDelayedCallback 1 0 0 (some 7))] ++ QueueGame.steps 1 5 ++
        [QueueGame.call (.dispatch 1 0 0)] ++ QueueGame.steps 1 8 ++
        [QueueGame.call (.submitDelayedCallback 1 0 0 (some 8))] ++ QueueGame.steps 1 5 ++
        [QueueGame.call (.terminate 1 true [])] ++ QueueGame.steps 1 17)
      (QueueGame.start 2 1)).any (fun c => decide (c.shared.started.map
        (fun call => (call.1.callback, call.2)) = [(8, true), (7, false)])) = true := by
    decide +kernel
  obtain ⟨c, hr, hc⟩ := Machine.Reaches.of_run_any h
  exact ⟨c, hr, of_decide_eq_true hc,
    (callbacks_exactly_once (QueueGame.initial 2 1) hr).2.1⟩

end XGameRuntime.TaskQueue
