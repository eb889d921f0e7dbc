import XGameRuntime.TaskQueue.Callbacks
import XGameRuntime.TaskQueue.InFlight

/-! # Waiting for a termination

`terminate(wait)` takes `in_flight = 0` for the end of every callback of its queue. That is right
as long as none of them is outside the count when the wait ends (in the thread of a delayed
callback of an immediate port, or in another terminator's cancel list), and no submitter that
read the flag of the context before it was stored gets in after the context was closed.
-/

namespace XGameRuntime.TaskQueue
open Concurrency
set_option autoImplicit false

variable {κ γ : Type}

/-! ## How far a terminator has come -/

/-- `terminate_context` has pulled out the callbacks of context `owner`. -/
def Core.Closed (s : Core κ) (owner : ℕ) : Prop :=
  ∃ context, s.contexts[owner]? = some context ∧ context.closed = true

/-- A terminator of context `owner` has seen the end of its wait. -/
def Core.Settled (s : Core κ) (owner : ℕ) : Prop :=
  ∃ context, s.contexts[owner]? = some context ∧ context.settled = true

theorem Core.Later.closed {s t : Core κ} (h : s.Later t) {owner : ℕ} (hc : s.Closed owner) :
    t.Closed owner := by
  obtain ⟨context, hc, hx⟩ := hc
  obtain ⟨context', hc', hl⟩ := h.contexts owner context hc
  exact ⟨context', hc', hl.closed hx⟩

theorem Core.Later.settled {s t : Core κ} (h : s.Later t) {owner : ℕ} (hc : s.Settled owner) :
    t.Settled owner := by
  obtain ⟨context, hc, hx⟩ := hc
  obtain ⟨context', hc', hl⟩ := h.contexts owner context hc
  exact ⟨context', hc', hl.settled hx⟩

/-- The contexts of the queue that `a` waits for are settled, but those that are left. -/
def SettledBut (s : TaskQueues κ) (a : Termination γ) (left : List ℕ) : Prop :=
  a.wait = true → ∃ queue : Queue, s.queues[a.queue]? = some queue ∧
    ∀ owner ∈ [queue.work, queue.completion], owner ∈ left ∨ s.Settled owner

def Frame.Terminating (s : TaskQueues κ) : Frame κ γ → Prop
  | .terminate owners a => SettledBut s a owners
  | .terminateContext owner owners a => SettledBut s a (owner :: owners)
  | .cancel owner _ _ owners a => s.Closed owner ∧ SettledBut s a (owner :: owners)
  | .awaitDrained owner owners a => s.Closed owner ∧ SettledBut s a (owner :: owners)
  | .terminateReturn a => SettledBut s a []
  | _ => True

structure Terminating (s : TaskQueues κ) (fs : Multiset (Frame κ γ)) : Prop where
  frames : ∀ f ∈ fs, f.Terminating s
  returned : ∀ q ∈ s.returned, ∃ queue : Queue, s.queues[q]? = some queue ∧
    ∀ owner ∈ [queue.work, queue.completion], s.Settled owner

section After
variable {s t : TaskQueues κ}

theorem SettledBut.later (hl : s.toCore.Later t.toCore) (hq : SameContexts s.queues t.queues)
    {a : Termination γ} {left : List ℕ} (h : SettledBut s a left) : SettledBut t a left := by
  intro hw
  obtain ⟨queue, hqueue, ho⟩ := h hw
  obtain ⟨queue', hqueue', hwork, hcompletion⟩ := hq a.queue queue hqueue
  refine ⟨queue', hqueue', ?_⟩
  rw [hwork, hcompletion]
  exact fun owner hm => (ho owner hm).imp_right hl.settled

theorem Frame.Terminating.later (hl : s.toCore.Later t.toCore)
    (hq : SameContexts s.queues t.queues) {f : Frame κ γ} (h : f.Terminating s) :
    f.Terminating t := by
  cases f with
  | terminate | terminateContext | terminateReturn => exact SettledBut.later hl hq h
  | cancel | awaitDrained => exact ⟨hl.closed h.1, h.2.later hl hq⟩
  | _ => trivial

end After

theorem terminating_toFrame {s : TaskQueues κ} (i : Instr κ γ) : i.toFrame.Terminating s := by
  cases i <;> trivial

theorem Core.closed_setContext {s : Core κ} {owner : ℕ} {context : PortContext}
    (hc : s.contexts[owner]? = some context) :
    (s.setContext owner { context with closed := true }).Closed owner := by
  have hi : owner < s.contexts.length := (List.getElem?_eq_some_iff.mp hc).1
  exact ⟨_, by simp [Core.setContext, hi]; rfl, rfl⟩

theorem Core.settled_setContext {s : Core κ} {owner : ℕ} {context : PortContext}
    (hc : s.contexts[owner]? = some context) :
    (s.setContext owner { context with settled := true }).Settled owner := by
  have hi : owner < s.contexts.length := (List.getElem?_eq_some_iff.mp hc).1
  exact ⟨_, by simp [Core.setContext, hi]; rfl, rfl⟩

theorem coreStep_terminating {body : κ → Bool → List γ} {s : TaskQueues κ} {f : Frame κ γ}
    {o : Outcome (Core κ) (Frame κ γ)} (h : CoreStep body s.toCore f o) (hI : f.Terminating s) :
    (∀ g ∈ o.push, g.Terminating { s with toCore := o.shared }) ∧
      ∀ k ∈ o.spawn, ∀ g ∈ k, g.Terminating { s with toCore := o.shared } := by
  have hf : f.Terminating { s with toCore := o.shared } :=
    Frame.Terminating.later (s := s) (t := { s with toCore := o.shared }) h.later
      (SameContexts.refl s.queues) hI
  cases h with
  | @terminate owner owners a context hc => simpa [Frame.Terminating] using hf
  | @terminateContext owner owners a context port hc hp =>
    have hcl := Core.closed_setContext (s := s.toCore.setState context.port port
      (port.state.terminateContext owner).1) hc
    simpa [Frame.Terminating] using And.intro hcl hf
  | @cancelNext owner task rest drainRest owners a => simpa [Frame.Terminating] using hf
  | @cancelDrain owner owners a context port hc hp => simpa [Frame.Terminating] using hf
  | @cancelWait owner owners a hw => simpa [Frame.Terminating] using hf
  | @cancelReturn owner owners a hw =>
    have hv : SettledBut s a owners := fun ht => by simp [hw] at ht
    simpa [Frame.Terminating] using hv
  | @awaitDrained owner owners a context port hc hp hz =>
    have hs := Core.settled_setContext (s := s.toCore) hc
    have hv : SettledBut { s with
        toCore := s.setContext owner { context with settled := true } } a owners := by
      intro hw
      obtain ⟨queue, hq, ho⟩ := hf.2 hw
      refine ⟨queue, hq, fun other hm => ?_⟩
      rcases ho other hm with hin | hse
      · rcases List.mem_cons.mp hin with rfl | hin
        · exact .inr hs
        · exact .inl hin
      · exact .inr hse
    simpa [Frame.Terminating] using hv
  | _ =>
    simp only [List.forall_mem_cons, List.forall_mem_append, List.forall_mem_map,
      Frame.Terminating]
    simp

section Machine
variable {C : Client κ} {s : World C} {f : Frame κ C.Frame}
  {o : Outcome (World C) (Frame κ C.Frame)} {R : Multiset (Frame κ C.Frame)}

theorem registryStep_terminating {s : TaskQueues κ}
    {o : Outcome (TaskQueues κ) (Frame κ C.Frame)} (h : RegistryStep C s f o)
    (hI : f.Terminating s) : ∀ g ∈ o.push, g.Terminating o.shared := by
  cases h with
  | @terminateQueue a q hq =>
    have hv : SettledBut s a [q.work, q.completion] := fun _ => ⟨q, hq, fun _ hm => .inl hm⟩
    simpa [Frame.Terminating] using hv
  | @terminated a =>
    have hv : SettledBut s a [] := hI
    simp only [List.forall_mem_append, List.forall_mem_map]
    simpa [Frame.Terminating] using hv
  | notifyNext =>
    simp only [List.forall_mem_append, List.forall_mem_map]
    simp [Frame.Terminating]
  | _ => simp [Frame.Terminating]

theorem Step.terminating_frames (h : Step C s f o) (hI : f.Terminating s.toTaskQueues) :
    ∀ g ∈ o.frames, g.Terminating o.shared.toTaskQueues := by
  rw [forall_frames]
  cases h with
  | client hr ht =>
    exact ⟨List.forall_mem_map.mpr fun i _ => terminating_toFrame i,
      List.forall_mem_map.mpr fun is _ => List.forall_mem_map.mpr fun i _ => terminating_toFrame i⟩
  | registry h =>
    obtain ⟨-, -, -, hs⟩ := registryStep_outer h
    exact ⟨registryStep_terminating h hI, by simp [hs]⟩
  | core h => exact coreStep_terminating h hI

theorem Step.terminating (h : Step C s f o) (hI : Terminating s.toTaskQueues (f ::ₘ R)) :
    Terminating o.shared.toTaskQueues (o.frames + R) := by
  have hl := h.later
  have hq := h.sameContexts
  have hf := hI.frames f (Multiset.mem_cons_self f R)
  constructor
  · intro g hg
    rcases Multiset.mem_add.mp hg with ho | hR
    · exact h.terminating_frames hf g ho
    · exact (hI.frames g (Multiset.mem_cons_of_mem hR)).later hl hq
  · have hold : ∀ q ∈ s.returned, ∃ queue : Queue, o.shared.queues[q]? = some queue ∧
        ∀ owner ∈ [queue.work, queue.completion], o.shared.Settled owner := by
      intro q hm
      obtain ⟨queue, hqueue, ho⟩ := hI.returned q hm
      obtain ⟨queue', hqueue', hwork, hcompletion⟩ := hq q queue hqueue
      refine ⟨queue', hqueue', ?_⟩
      rw [hwork, hcompletion]
      exact fun owner hm => hl.settled (ho owner hm)
    cases h with
    | client hr ht =>
      have hret := (applyAll_extends ht).2.2
      simpa only [hret] using hold
    | registry h =>
      cases h with
      | notify hqueue ht =>
        have hret := ht.2.2
        simpa only [hret] using hold
      | @terminateReturn a =>
        cases hw : a.wait with
        | false => simpa [hw] using hold
        | true =>
          simp only [if_true]
          refine List.forall_mem_cons.mpr ⟨?_, hold⟩
          obtain ⟨queue, hqueue, ho⟩ := hf hw
          exact ⟨queue, hqueue, fun owner hm => (ho owner hm).resolve_left List.not_mem_nil⟩
      | _ => exact hold
    | core h => exact hold

variable {c₀ c : Config (World C) (Frame κ C.Frame)}
  {G : Guard (World C) (Frame κ C.Frame) (Option C.Choice)}

theorem Initial.terminating (h0 : Initial C c₀) (h : (machine C).Reaches G c₀ c) :
    Terminating c.shared.toTaskQueues c.frames := by
  refine h.preserved (I := fun s fs => Terminating s.toTaskQueues fs) ?_ ?_
  · obtain ⟨pool, now, hq⟩ := h0.queues
    rw [hq]
    refine ⟨fun f hf => ?_, by simp⟩
    rcases h0.threads f hf with rfl | ⟨g, rfl⟩ <;> trivial
  · intro s f R x o _ hI hs
    exact (step_inv hs).terminating hI

end Machine

/-! ## What is outside the count -/

/-- The frame holds or runs an unfinished callback of `owner` that `in_flight` does not count. -/
def Frame.Uncounted (s : Core κ) (owner : ℕ) : Frame κ γ → Prop
  | .delayed _ task => task.owner = owner
  | .cancel _ pending _ _ _ => ∃ task ∈ pending, task.owner = owner
  | .invoke task canceled => task.owner = owner ∧ (canceled = true ∨ s.OwnThread task)
  | .running task canceled => task.owner = owner ∧ (canceled = true ∨ s.OwnThread task)
  | _ => False

/-- `Covered`, seen on the multiset of frames. -/
structure AllCovered (s : Core κ) (fs : Multiset (Frame κ γ)) : Prop where
  invoke : ∀ task, Frame.invoke task false ∈ fs → s.OwnThread task ∨
    ∃ p, s.On task.owner p ∧ 0 < weight (Frame.inFlight p) fs
  running : ∀ task, Frame.running task false ∈ fs → s.OwnThread task ∨
    ∃ p, s.On task.owner p ∧ 0 < weight (Frame.inFlight p) fs
  batch : ∀ d batch total, Frame.dispatchBatch d batch total ∈ fs → 0 < total

theorem Covered.suffix {s : Core κ} {pre k : List (Frame κ γ)} (h : Covered s (pre ++ k)) :
    Covered s k := by
  induction pre with
  | nil => exact h
  | cons f pre ih => exact ih h.2

theorem Initial.allCovered {C : Client κ} {c₀ c : Config (World C) (Frame κ C.Frame)}
    {G : Guard (World C) (Frame κ C.Frame) (Option C.Choice)} (h0 : Initial C c₀)
    (h : (machine C).Reaches G c₀ c) : AllCovered c.shared.toCore c.frames := by
  have hcov := h0.covered h
  have hbelow : ∀ f ∈ c.frames, ∃ k, f.Covered c.shared.toCore k ∧ ∀ g ∈ k, g ∈ c.frames := by
    intro f hf
    obtain ⟨k, hk, hfk⟩ := List.mem_flatten.mp (Multiset.mem_coe.mp hf)
    obtain ⟨pre, rest, rfl⟩ := List.append_of_mem hfk
    refine ⟨rest, (hcov _ hk).suffix.1, fun g hg => ?_⟩
    exact Multiset.mem_coe.mpr (List.mem_flatten.mpr
      ⟨_, hk, List.mem_append_right pre (List.mem_cons_of_mem f hg)⟩)
  have hcounts : ∀ task k, Counts c.shared.toCore task k → (∀ g ∈ k, g ∈ c.frames) →
      ∃ p, c.shared.On task.owner p ∧ 0 < weight (Frame.inFlight p) c.frames := by
    rintro task k ⟨g, k', p, rfl, ho, hw⟩ hk
    exact ⟨p, ho, Nat.lt_of_lt_of_le hw (le_weight (hk g List.mem_cons_self))⟩
  constructor
  · intro task hm
    obtain ⟨k, hc, hk⟩ := hbelow _ hm
    exact (hc rfl).imp_right fun h => hcounts task k h hk
  · intro task hm
    obtain ⟨k, hc, hk⟩ := hbelow _ hm
    exact (hc rfl).imp_right fun h => hcounts task k h hk
  · intro d batch total hm
    obtain ⟨k, hc, -⟩ := hbelow _ hm
    exact hc

/-- The condition under which waiting for the contexts `owners` means what it says. When the wait
for one of them ends, no other thread holds or runs a callback of it that `in_flight` does not
count; and a submitter that read the flag of one of them before it was stored is refused if it
comes to the port after `terminate_context` has pulled out its callbacks. -/
def countsAll {C : Client κ} (owners : List ℕ) :
    Guard (World C) (Frame κ C.Frame) (Option C.Choice) :=
  fun s R f _ =>
    match f with
    | .awaitDrained owner _ _ => owner ∈ owners → ∀ g ∈ R, ¬ g.Uncounted s.toCore owner
    | .submitPort _ task ownerTerminated => task.owner ∈ owners →
        ∀ context ∈ s.contexts[task.owner]?, context.closed = true →
          ownerTerminated = true ∨
            ∃ port ∈ s.ports[context.port]?, port.state.terminated = true
    | _ => True

instance (s : Core κ) (task : Task κ) : Decidable (s.OwnThread task) :=
  inferInstanceAs (Decidable (_ ∧ ∃ context ∈ s.contexts[task.owner]?,
    ∃ port ∈ s.ports[context.port]?, port.mode = .immediate))

instance (s : Core κ) (owner : ℕ) (f : Frame κ γ) : Decidable (f.Uncounted s owner) :=
  match f with
  | .delayed _ task => inferInstanceAs (Decidable (task.owner = owner))
  | .cancel _ pending _ _ _ => inferInstanceAs (Decidable (∃ task ∈ pending, task.owner = owner))
  | .invoke task canceled =>
      inferInstanceAs (Decidable (task.owner = owner ∧ (canceled = true ∨ s.OwnThread task)))
  | .running task canceled =>
      inferInstanceAs (Decidable (task.owner = owner ∧ (canceled = true ∨ s.OwnThread task)))
  | .client _ | .clock | .notify .. | .notifying .. | .submitContext .. | .submitDue ..
  | .submitPort .. | .finishOne .. | .worker .. | .dispatch .. | .dispatchWait .. | .drainReady ..
  | .dispatchBatch .. | .terminateQueue .. | .terminate .. | .terminateContext ..
  | .awaitDrained .. | .terminateReturn .. => inferInstanceAs (Decidable False)

instance {C : Client κ} (owners : List ℕ) (s : World C) (R : Multiset (Frame κ C.Frame))
    (f : Frame κ C.Frame) (x : Option C.Choice) : Decidable (countsAll owners s R f x) :=
  match f with
  | .awaitDrained owner _ _ => inferInstanceAs (Decidable (owner ∈ owners →
      ∀ g ∈ R, ¬ g.Uncounted s.toCore owner))
  | .submitPort _ task ownerTerminated => inferInstanceAs (Decidable (task.owner ∈ owners →
      ∀ context ∈ s.contexts[task.owner]?, context.closed = true →
        ownerTerminated = true ∨ ∃ port ∈ s.ports[context.port]?, port.state.terminated = true))
  | .client _ | .clock | .notify .. | .notifying .. | .submitContext .. | .submitDue ..
  | .invoke .. | .running .. | .finishOne .. | .worker .. | .delayed .. | .dispatch ..
  | .dispatchWait .. | .drainReady .. | .dispatchBatch .. | .terminateQueue .. | .terminate ..
  | .terminateContext .. | .cancel .. | .terminateReturn .. => inferInstanceAs (Decidable True)

/-! ## A settled context has no callback left -/

structure Settling (owners : List ℕ) (s : Core κ) : Prop where
  queued : ∀ owner ∈ owners, s.Closed owner → ∀ (p : ℕ) (port : Port κ),
    s.ports[p]? = some port → ∀ task ∈ port.state.tasks, task.owner ≠ owner
  closed : ∀ owner ∈ owners, s.Settled owner → s.Closed owner
  finished : ∀ owner ∈ owners, s.Settled owner →
    ∀ task ∈ s.accepted, task.owner = owner → task ∈ s.finished

theorem Core.mem_holds {s : Core κ} {task : Task κ} {place : Place}
    (h : (task, place) ∈ s.holds) :
    (place = .queued ∧ ∃ (p : ℕ) (port : Port κ), s.ports[p]? = some port ∧
      task ∈ port.state.tasks) ∨ place = .refused ∨ (place = .finished ∧ task ∈ s.finished) := by
  simp only [Core.holds, Multiset.mem_add, Multiset.mem_map, Prod.mk.injEq] at h
  rcases h with (⟨t, ht, rfl, rfl⟩ | ⟨t, ht, rfl, rfl⟩) | ⟨t, ht, rfl, rfl⟩
  · left
    refine ⟨rfl, ?_⟩
    obtain ⟨port, hport, htx⟩ := mem_sum_map.mp ht
    obtain ⟨p, hp⟩ := List.getElem?_of_mem hport
    exact ⟨p, port, hp, htx⟩
  · exact .inr (.inl rfl)
  · exact .inr (.inr ⟨rfl, ht⟩)

/-- An accepted callback whose context is closed, with nothing in flight on its port and nothing
outside the count, is finished. -/
theorem finished_of_drained {s : Core κ} {fs : Multiset (Frame κ γ)} {owner : ℕ}
    {context : PortContext} {port : Port κ} (hc : s.contexts[owner]? = some context)
    (hp : s.ports[context.port]? = some port) (hz : port.state.inFlight = 0)
    (hsound : Ledger.Sound Task.id Place.stage (s.ledger fs)) (hP : Placed s fs)
    (hF : InFlight s fs) (hA : AllCovered s fs)
    (hq : ∀ (p : ℕ) (port : Port κ), s.ports[p]? = some port →
      ∀ task ∈ port.state.tasks, task.owner ≠ owner)
    (hu : ∀ g ∈ fs, ¬ g.Uncounted s owner) {task : Task κ} (hm : task ∈ s.accepted)
    (ho : task.owner = owner) : task ∈ s.finished := by
  have hzero : ∀ p, s.On task.owner p → weight (Frame.inFlight p) fs = 0 := by
    rintro p ⟨context₂, hc₂, rfl⟩
    rw [ho, hc, Option.some.injEq] at hc₂
    subst hc₂
    rw [← hF.count _ port hp, hz]
  have hcounted : ¬ ∃ p, s.On task.owner p ∧ 0 < weight (Frame.inFlight p) fs := by
    rintro ⟨p, hon, hw⟩
    rw [hzero p hon] at hw
    exact Nat.lt_irrefl 0 hw
  obtain ⟨place, hpl, hst⟩ := hsound.accepted_place (i := task) hm
  rcases Multiset.mem_add.mp hpl with hcore | hframe
  · rcases Core.mem_holds hcore with ⟨rfl, p, port₂, hp₂, ht⟩ | rfl | ⟨rfl, hfin⟩
    · exact absurd ho (hq p port₂ hp₂ task ht)
    · simp [Place.stage, Stage.isAccepted] at hst
    · exact hfin
  · obtain ⟨g, hg, hgt⟩ := mem_weight.mp hframe
    have hun := hu g hg
    cases g with
    | submitPort a t ownerTerminated =>
      simp only [Frame.holds, Multiset.mem_singleton, Prod.mk.injEq] at hgt
      obtain ⟨-, rfl⟩ := hgt
      simp [Place.stage, Stage.isAccepted] at hst
    | invoke t canceled =>
      simp only [Frame.holds, Multiset.mem_singleton, Prod.mk.injEq] at hgt
      obtain ⟨rfl, -⟩ := hgt
      cases canceled with
      | true => exact absurd ⟨ho, .inl rfl⟩ hun
      | false => exact absurd ((hA.invoke task hg).resolve_right hcounted) fun h => hun ⟨ho, .inr h⟩
    | running t canceled =>
      simp only [Frame.holds, Multiset.mem_singleton, Prod.mk.injEq] at hgt
      obtain ⟨rfl, -⟩ := hgt
      cases canceled with
      | true => exact absurd ⟨ho, .inl rfl⟩ hun
      | false => exact absurd ((hA.running task hg).resolve_right hcounted) fun h => hun ⟨ho, .inr h⟩
    | delayed p t =>
      simp only [Frame.holds, Multiset.mem_singleton, Prod.mk.injEq] at hgt
      obtain ⟨rfl, -⟩ := hgt
      exact absurd ho hun
    | cancel owner₂ pending drainRest owners a =>
      simp only [Frame.holds, Multiset.mem_map, Multiset.mem_coe, Prod.mk.injEq] at hgt
      obtain ⟨t, ht, rfl, -⟩ := hgt
      exact absurd ⟨t, ht, ho⟩ hun
    | dispatchBatch d batch total =>
      simp only [Frame.holds, Multiset.mem_map, Multiset.mem_coe, Prod.mk.injEq] at hgt
      obtain ⟨t, ht, rfl, -⟩ := hgt
      have hon := hP.frames _ hg t ht
      have hpos := hA.batch d batch total hg
      have hle := le_weight (w := Frame.inFlight d.port) hg
      rw [hzero d.port hon] at hle
      simp only [Frame.inFlight, if_true] at hle
      omega
    | _ => simp [Frame.holds] at hgt

theorem Core.closed_of_step {body : κ → Bool → List γ} {s : Core κ} {f : Frame κ γ}
    {o : Outcome (Core κ) (Frame κ γ)} (h : CoreStep body s f o) {owner : ℕ}
    (hc : o.shared.Closed owner) : s.Closed owner ∨
      ∃ owners a, f = .terminateContext owner owners a := by
  obtain ⟨context', hc', hcl⟩ := hc
  obtain ⟨context, hc, hs⟩ := h.context_cases hc'
  cases hs with
  | same he => exact .inl ⟨context, hc, he ▸ hcl⟩
  | terminate owners a hf he => exact .inl ⟨context, hc, by simpa [he] using hcl⟩
  | terminateContext owners a hf he => exact .inr ⟨owners, a, hf⟩
  | awaitDrained owners a port hf hp hz he => exact .inl ⟨context, hc, by simpa [he] using hcl⟩

theorem Core.settled_of_step {body : κ → Bool → List γ} {s : Core κ} {f : Frame κ γ}
    {o : Outcome (Core κ) (Frame κ γ)} (h : CoreStep body s f o) {owner : ℕ}
    (hc : o.shared.Settled owner) : s.Settled owner ∨
      ∃ owners a context port, f = .awaitDrained owner owners a ∧
        s.contexts[owner]? = some context ∧ s.ports[context.port]? = some port ∧
        port.state.inFlight = 0 := by
  obtain ⟨context', hc', hcl⟩ := hc
  obtain ⟨context, hc, hs⟩ := h.context_cases hc'
  cases hs with
  | same he => exact .inl ⟨context, hc, he ▸ hcl⟩
  | terminate owners a hf he => exact .inl ⟨context, hc, by simpa [he] using hcl⟩
  | terminateContext owners a hf he => exact .inl ⟨context, hc, by simpa [he] using hcl⟩
  | awaitDrained owners a port hf hp hz he => exact .inr ⟨owners, a, context, port, hf, hc, hp, hz⟩

theorem CoreStep.accepted_cases {body : κ → Bool → List γ} {s : Core κ} {f : Frame κ γ}
    {o : Outcome (Core κ) (Frame κ γ)} (h : CoreStep body s f o) {task : Task κ}
    (hm : task ∈ o.shared.accepted) : task ∈ s.accepted ∨
      ∃ a context port, f = .submitPort a task false ∧ s.contexts[task.owner]? = some context ∧
        s.ports[context.port]? = some port ∧ port.state.terminated = false := by
  cases h with
  | acceptInline hc hp ht | acceptDelayed hc hp ht | acceptQueued hc hp ht =>
    rcases List.mem_cons.mp hm with rfl | hm
    · exact .inr ⟨_, _, _, rfl, hc, hp, ht⟩
    · exact .inl hm
  | _ => exact .inl hm

/-- `countsAll`, for the frame of a core step. -/
def CountsAll (owners : List ℕ) (s : Core κ) (R : Multiset (Frame κ γ)) : Frame κ γ → Prop
  | .awaitDrained owner _ _ => owner ∈ owners → ∀ g ∈ R, ¬ g.Uncounted s owner
  | .submitPort _ task ownerTerminated => task.owner ∈ owners →
      ∀ context ∈ s.contexts[task.owner]?, context.closed = true →
        ownerTerminated = true ∨ ∃ port ∈ s.ports[context.port]?, port.state.terminated = true
  | _ => True

section Step
variable {body : κ → Bool → List γ} {s : Core κ} {f : Frame κ γ}
  {o : Outcome (Core κ) (Frame κ γ)} {R : Multiset (Frame κ γ)} {owners : List ℕ}

/-- Nothing is accepted for a closed context. -/
theorem CountsAll.refuses (hg : CountsAll owners s R f) {task : Task κ} (ho : task.owner ∈ owners)
    (hcl : s.Closed task.owner) {a : Submission κ γ} {context : PortContext} {port : Port κ}
    (hf : f = .submitPort a task false) (hc : s.contexts[task.owner]? = some context)
    (hp : s.ports[context.port]? = some port) (ht : port.state.terminated = false) : False := by
  subst hf
  obtain ⟨context₂, hc₂, hx⟩ := hcl
  rw [hc, Option.some.injEq] at hc₂
  subst hc₂
  rcases hg ho context hc hx with hfalse | ⟨port₂, hp₂, htrue⟩
  · simp at hfalse
  · rw [Option.mem_def, hp, Option.some.injEq] at hp₂
    subst hp₂
    simp [ht] at htrue

theorem coreStep_settling_queued (h : CoreStep body s f o) (hg : CountsAll owners s R f)
    (hP : Placed s (f ::ₘ R)) (hI : Settling owners s) (owner : ℕ) (ho : owner ∈ owners)
    (hcl : o.shared.Closed owner) (p : ℕ) (port' : Port κ)
    (hp' : o.shared.ports[p]? = some port') (task : Task κ) (ht : task ∈ port'.state.tasks) :
    task.owner ≠ owner := by
  rcases Core.closed_of_step h hcl with hcl | ⟨owners', a, rfl⟩
  · obtain ⟨port, hp, hs⟩ := h.port_cases hp'
    have hold := hI.queued owner ho hcl p port hp
    cases hs with
    | ordinary hord =>
      rcases hord.tasks task ht with hm | ⟨hterm, ⟨context, hc, hpc⟩, a, hf⟩
      · exact hold task hm
      · rintro rfl
        exact hg.refuses ho hcl hf hc (hpc ▸ hp) hterm
    | terminateContext owner' owners' a context hf hc hpp he =>
      subst he
      exact hold task (List.mem_of_mem_filter ht)
    | cancelDrain owner' owners' a context hf hc hpp he =>
      subst he
      simp [PortState.drainRest] at ht
  · cases h with
    | @terminateContext _ _ _ context port hc hp =>
      rcases getElem?_set_cases hp' with ⟨rfl, rfl⟩ | ⟨hne, hold⟩
      · simpa using (List.mem_filter.mp ht).2
      · rintro rfl
        obtain ⟨context₂, hc₂, hpc⟩ := hP.queued p port' hold task ht
        rw [hc, Option.some.injEq] at hc₂
        subst hc₂
        exact hne hpc

theorem coreStep_settling (h : CoreStep body s f o) (hg : CountsAll owners s R f)
    (hsound : Ledger.Sound Task.id Place.stage (s.ledger (f ::ₘ R))) (hP : Placed s (f ::ₘ R))
    (hF : InFlight s (f ::ₘ R)) (hA : AllCovered s (f ::ₘ R))
    (hclosed : ∀ owner owners a, f = .awaitDrained owner owners a → s.Closed owner)
    (hI : Settling owners s) : Settling owners o.shared := by
  have hl := h.later
  refine ⟨coreStep_settling_queued h hg hP hI, ?_, ?_⟩
  · intro owner ho hs
    rcases Core.settled_of_step h hs with hs | ⟨owners', a, context, port, hf, -⟩
    · exact hl.closed (hI.closed owner ho hs)
    · exact hl.closed (hclosed owner owners' a hf)
  · intro owner ho hs task hm htask
    rcases Core.settled_of_step h hs with hs | ⟨owners', a, context, port, hf, hc, hp, hz⟩
    · rcases h.accepted_cases hm with hm | ⟨a, context, port, hf, hc, hp, ht⟩
      · exact hl.finished.subset (hI.finished owner ho hs task hm htask)
      · have hcl := hI.closed owner ho hs
        rw [← htask] at hcl ho
        exact absurd (hg.refuses ho hcl hf hc hp ht) id
    · subst hf
      rcases h.accepted_cases hm with hm | ⟨a, context, port, hf, -⟩
      · refine hl.finished.subset ?_
        refine finished_of_drained hc hp hz hsound hP hF hA
          (hI.queued owner ho (hclosed owner owners' a rfl)) ?_ hm htask
        intro g hmem
        rcases Multiset.mem_cons.mp hmem with rfl | hR
        · exact id
        · exact hg ho g hR
      · simp at hf

end Step

theorem Settling.newPort {s : Core κ} {owners : List ℕ} (mode : DispatchMode)
    (hI : Settling owners s) : Settling owners (s.newPort mode) := by
  refine ⟨?_, hI.closed, hI.finished⟩
  intro owner ho hcl p port hp task ht
  rcases getElem?_push_cases hp with hp | ⟨-, rfl⟩
  · exact hI.queued owner ho hcl p port hp task ht
  · simp at ht

theorem Settling.newContext {s : Core κ} {owners : List ℕ} {q : ℕ} {port : Port κ}
    (hq : s.ports[q]? = some port) (hI : Settling owners s) :
    Settling owners (s.newContext q port) := by
  have hclosed : ∀ owner, (s.newContext q port).Closed owner → s.Closed owner := by
    rintro owner ⟨context, hc, hx⟩
    rcases getElem?_push_cases hc with hc | ⟨-, rfl⟩
    · exact ⟨context, hc, hx⟩
    · simp at hx
  have hsettled : ∀ owner, (s.newContext q port).Settled owner → s.Settled owner := by
    rintro owner ⟨context, hc, hx⟩
    rcases getElem?_push_cases hc with hc | ⟨-, rfl⟩
    · exact ⟨context, hc, hx⟩
    · simp at hx
  refine ⟨?_, ?_, ?_⟩
  · intro owner ho hcl p port' hp task ht
    rcases getElem?_set_cases hp with ⟨rfl, rfl⟩ | ⟨-, hp⟩
    · exact hI.queued owner ho (hclosed owner hcl) q port hq task ht
    · exact hI.queued owner ho (hclosed owner hcl) p port' hp task ht
  · exact fun owner ho hs =>
      (Core.Later.newContext hq).closed (hI.closed owner ho (hsettled owner hs))
  · exact fun owner ho hs task hm htask => hI.finished owner ho (hsettled owner hs) task hm htask

/-! ## The specification -/

section Specification
variable {C : Client κ} {c₀ c : Config (World C) (Frame κ C.Frame)} {owners : List ℕ}

theorem countsAll.core {s : World C} {R : Multiset (Frame κ C.Frame)} {f : Frame κ C.Frame}
    {x : Option C.Choice} (h : countsAll owners s R f x) : CountsAll owners s.toCore R f := by
  cases f with
  | awaitDrained | submitPort => exact h
  | _ => trivial

theorem Initial.settling (h0 : Initial C c₀) (h : (machine C).Reaches (countsAll owners) c₀ c) :
    Settling owners c.shared.toCore := by
  refine h.invariant (I := fun s _ => Settling owners s.toCore)
    (J := fun s fs => Ledger.Sound Task.id Place.stage (s.ledger fs) ∧ Placed s.toCore fs ∧
      InFlight s.toCore fs ∧ AllCovered s.toCore fs ∧ Terminating s.toTaskQueues fs)
    (fun _ h => ⟨h0.sound h, h0.placed h, h0.inFlight h, h0.allCovered h, h0.terminating h⟩) ?_ ?_
  · obtain ⟨pool, now, hq⟩ := h0.queues
    rw [hq]
    refine ⟨fun owner _ hcl => ?_, fun owner _ hs => ?_, fun owner _ hs => ?_⟩
    · obtain ⟨context, hc, -⟩ := hcl
      simp at hc
    · obtain ⟨context, hc, -⟩ := hs
      simp at hc
    · obtain ⟨context, hc, -⟩ := hs
      simp at hc
  · rintro s f R x o hg ⟨hsound, hP, hF, hA, hT⟩ hI hs
    rcases (step_inv hs).outer_or_core with ⟨hgr, -, -⟩ | ⟨o', ho', hsh, -⟩
    · exact hgr.preserves (fun _ mode h => h.newPort mode) (fun _ _ _ hp h => h.newContext hp) hI
    · rw [hsh]
      refine coreStep_settling ho' hg.core hsound hP hF hA ?_ hI
      rintro owner owners a rfl
      exact (hT.frames _ (Multiset.mem_cons_self _ _)).1

/-- What a queue whose termination was waited for has accepted is finished, and stays so. -/
theorem returned_finished (h0 : Initial C c₀) {q : ℕ} {queue : Queue}
    (hq : c.shared.queues[q]? = some queue)
    (h : (machine C).Reaches (countsAll [queue.work, queue.completion]) c₀ c)
    (hr : q ∈ c.shared.returned) {task : Task κ} (hm : task ∈ c.shared.accepted)
    (ho : task.owner ∈ [queue.work, queue.completion]) : task ∈ c.shared.finished := by
  obtain ⟨queue₂, hq₂, hs⟩ := (h0.terminating h).returned q hr
  rw [hq, Option.some.injEq] at hq₂
  subst hq₂
  exact (h0.settling h).finished task.owner ho (hs task.owner ho) task hm rfl

/-- Nothing is accepted for a closed context in a whole run. -/
theorem accepted_of_settled {c' : Config (World C) (Frame κ C.Frame)} {owner : ℕ}
    (h0 : Initial C c₀) (h : (machine C).Reaches (countsAll owners) c₀ c)
    (h' : (machine C).Reaches (countsAll owners) c c') (ho : owner ∈ owners)
    (hs : c.shared.Settled owner) {task : Task κ} (hm : task ∈ c'.shared.accepted)
    (htask : task.owner = owner) : task ∈ c.shared.accepted := by
  induction h' with
  | refl => exact hm
  | @tail b d hcb hbd ih =>
    have hset := (reaches_later hcb).settled hs
    have hcl := (h0.settling (h.trans hcb)).closed owner ho hset
    obtain ⟨i, x, f, o, -, -, hg, hst, h1, -⟩ := hbd.cases
    rw [h1] at hm
    rcases (step_inv hst).outer_or_core with ⟨hgr, -, -⟩ | ⟨o', ho', hsh, -⟩
    · rw [hgr.sameHistory.accepted] at hm
      exact ih hm
    · rw [hsh] at hm
      rcases ho'.accepted_cases hm with hm | ⟨a, context, port, hf, hc, hp, ht⟩
      · exact ih hm
      · subst htask
        exact absurd (hg.core.refuses ho hcl hf hc hp ht) id

/-- Terminate(wait) is final: once a waiting termination of a queue has returned, every callback
accepted through the queue has been invoked to completion, and no callback submitted through it is
started any more. The queue's contexts are the ones that `countsAll` speaks of. -/
theorem terminate_wait_final (h0 : Initial C c₀) {q : ℕ} {queue : Queue}
    (hq : c.shared.queues[q]? = some queue)
    (h : (machine C).Reaches (countsAll [queue.work, queue.completion]) c₀ c)
    (hr : q ∈ c.shared.returned) :
    (∀ task ∈ c.shared.accepted, task.owner ∈ [queue.work, queue.completion] →
      task ∈ c.shared.finished) ∧
    ∀ c', (machine C).Reaches (countsAll [queue.work, queue.completion]) c c' →
      ∀ call ∈ c'.shared.started, call.1.owner ∈ [queue.work, queue.completion] →
        call ∈ c.shared.started := by
  have hfin := fun (task : Task κ) (hm : task ∈ c.shared.accepted) ho =>
    returned_finished h0 hq h hr hm ho
  refine ⟨hfin, ?_⟩
  intro c' h' call hcall ho
  obtain ⟨queue₂, hq₂, hs⟩ := (h0.terminating h).returned q hr
  rw [hq, Option.some.injEq] at hq₂
  subst hq₂
  have hsound := h0.sound h
  have hsound' := h0.sound (h.trans h')
  have hl := reaches_later h'
  -- the callback was accepted before the return, so it had finished by then
  have hacc' : call.1 ∈ c'.shared.accepted :=
    hsound'.accepted_of_started (i := call.1) (List.mem_map_of_mem hcall)
  have hacc := accepted_of_settled h0 h h' ho (hs call.1.owner ho) hacc' rfl
  have hdone := hfin call.1 hacc ho
  have hpl : (call.1, Place.finished) ∈ (c.shared.ledger c.frames).places := by
    refine Multiset.mem_add.mpr (.inl (Multiset.mem_add.mpr (.inr ?_)))
    exact Multiset.mem_map_of_mem _ hdone
  have hpl' : (call.1, Place.finished) ∈ (c'.shared.ledger c'.frames).places := by
    refine Multiset.mem_add.mpr (.inl (Multiset.mem_add.mpr (.inr ?_)))
    exact Multiset.mem_map_of_mem _ (hl.finished.subset hdone)
  -- it had been started once by then, and it has been started once now
  have h1 := hsound.count_started hpl
  have h2 := hsound'.count_started hpl'
  obtain ⟨fresh, hfresh⟩ := hl.started
  simp only [Core.ledger, ← hfresh, List.map_append, List.countP_append] at h1 h2
  have hz : (fresh.map Prod.fst).countP (fun task => decide (task.id = call.1.id)) = 0 := by
    omega
  rw [← hfresh] at hcall
  rcases List.mem_append.mp hcall with hf | hold
  · have hn := List.countP_eq_zero.mp hz call.1 (List.mem_map_of_mem hf)
    simp at hn
  · exact hold

end Specification

/-- A manual queue with a callback on it is terminated: the callback has been invoked, canceled,
when the call returns. -/
theorem terminate_wait_final_manual :
    ∃ c, (machine QueueGame).Reaches (countsAll [0, 1]) (QueueGame.start 2 1) c ∧
      (c.shared.queues[0]? = some ⟨0, 1, [], false, 1, none⟩ ∧ 0 ∈ c.shared.returned ∧
        c.shared.accepted.length = 1) ∧
      ∀ task ∈ c.shared.accepted, task.owner ∈ [0, 1] → task ∈ c.shared.finished := by
  have h : ((machine QueueGame).run (countsAll [0, 1])
      ([QueueGame.call (.create 0 0 true)] ++ QueueGame.steps 1 1 ++
        [QueueGame.call (.submitDelayedCallback 1 0 0 (some 7))] ++ QueueGame.steps 1 5 ++
        [QueueGame.call (.terminate 1 true [])] ++ QueueGame.steps 1 18)
      (QueueGame.start 2 1)).any (fun c => decide (
        c.shared.queues[0]? = some ⟨0, 1, [], false, 1, none⟩ ∧ 0 ∈ c.shared.returned ∧
          c.shared.accepted.length = 1)) = true := by
    decide +kernel
  obtain ⟨c, hr, hc⟩ := Machine.Reaches.of_run_any h
  obtain ⟨hq, hret, hlen⟩ := of_decide_eq_true hc
  exact ⟨c, hr, ⟨hq, hret, hlen⟩,
    (terminate_wait_final (QueueGame.initial 2 1) hq hr hret).1⟩

/-- A composite on an immediate port gets a delayed callback and is terminated: the call returns
while the callback waits in its own thread, and the callback is then started with
`canceled = false`. -/
theorem terminate_wait_leaves_delayed :
    ∃ c c', (machine QueueGame).Reaches anyStep (QueueGame.start 2 1) c ∧
      (machine QueueGame).Reaches anyStep c c' ∧
      c.shared.queues[1]? = some ⟨2, 3, [], false, 1, none⟩ ∧ 1 ∈ c.shared.returned ∧
      (∃ task ∈ c.shared.accepted, task.owner = 2 ∧ task ∉ c.shared.finished) ∧
      ∃ call ∈ c'.shared.started, call.1.owner = 2 ∧ call.2 = false ∧
        call ∉ c.shared.started := by
  have h : ((machine QueueGame).run anyStep
      ([QueueGame.call (.create 3 0 true)] ++ QueueGame.steps 1 1 ++
        [QueueGame.call (.getPort 1 0 true)] ++ QueueGame.steps 1 1 ++
        [QueueGame.call (.getPort 1 1 true)] ++ QueueGame.steps 1 1 ++
        [QueueGame.call (.createComposite 1 2 true)] ++ QueueGame.steps 1 1 ++
        [QueueGame.call (.submitDelayedCallback 2 0 1 (some 7))] ++ QueueGame.steps 1 5 ++
        [QueueGame.call (.terminate 2 true [])] ++ QueueGame.steps 1 12)
      (QueueGame.start 2 1)).any (fun c => decide (
        c.shared.queues[1]? = some ⟨2, 3, [], false, 1, none⟩ ∧ 1 ∈ c.shared.returned ∧
        c.shared.accepted = [⟨7, 2, some 1, 0⟩] ∧ c.shared.finished = [] ∧
        c.shared.started = []) &&
        ((machine QueueGame).run anyStep (QueueGame.steps 0 1 ++ QueueGame.steps 2 2) c).any
          fun c' => decide (c'.shared.started = [(⟨7, 2, some 1, 0⟩, false)])) = true := by
    decide +kernel
  obtain ⟨c, hr, hc⟩ := Machine.Reaches.of_run_any h
  rw [Bool.and_eq_true] at hc
  obtain ⟨hq, hret, hacc, hfin, hst⟩ := of_decide_eq_true hc.1
  obtain ⟨c', hr', hc'⟩ := Machine.Reaches.of_run_any hc.2
  have hst' := of_decide_eq_true hc'
  refine ⟨c, c', hr, hr', hq, hret, ⟨⟨7, 2, some 1, 0⟩, ?_, rfl, ?_⟩,
    ⟨(⟨7, 2, some 1, 0⟩, false), ?_, rfl, rfl, ?_⟩⟩
  · rw [hacc]
    exact List.mem_singleton_self _
  · rw [hfin]
    exact List.not_mem_nil
  · rw [hst']
    exact List.mem_singleton_self _
  · rw [hst]
    exact List.not_mem_nil

end XGameRuntime.TaskQueue
