import XGameRuntime.TaskQueue.Callbacks
import XGameRuntime.TaskQueue.Names
import XGameRuntime.TaskQueue.Provenance

/-! # A terminated queue refuses work

A submission is refused for its context once the terminator has stored the context's flag. With
`wait` the caller stores both flags before it returns; without it a thread of its own does, at
some time after the return.
-/

namespace XGameRuntime.TaskQueue
open Concurrency
set_option autoImplicit false

variable {κ γ : Type}

/-! ## The flags that a terminator stores -/

def Core.Flagged (s : Core κ) (owner : ℕ) : Prop :=
  ∃ context, s.contexts[owner]? = some context ∧ context.terminated = true

theorem Core.Later.flagged {s t : Core κ} (h : s.Later t) {owner : ℕ} (hf : s.Flagged owner) :
    t.Flagged owner := by
  obtain ⟨context, hc, ht⟩ := hf
  obtain ⟨context', hc', hl⟩ := h.contexts owner context hc
  exact ⟨context', hc', hl.terminated ht⟩

theorem Core.flagged_setContext {s : Core κ} {owner : ℕ} {context : PortContext}
    (hc : s.contexts[owner]? = some context) :
    (s.setContext owner { context with terminated := true }).Flagged owner := by
  have hi : owner < s.contexts.length := (List.getElem?_eq_some_iff.mp hc).1
  exact ⟨_, by simp [Core.setContext, hi]; rfl, rfl⟩

/-- The contexts of a queue. -/
def Queue.owners (queue : Queue) : List ℕ := [queue.work, queue.completion]

/-- A terminator that is still to store the flag of context `owner`. -/
def Frame.Stores (s : TaskQueues κ) (owner : ℕ) : Frame κ γ → Prop
  | .terminateQueue a => ∃ queue ∈ s.queues[a.queue]?, owner ∈ queue.owners
  | .terminate owners _ | .terminateContext _ owners _ | .cancel _ _ _ owners _
  | .awaitDrained _ owners _ => owner ∈ owners
  | _ => False

/-- The flag of the context is stored, or a terminator is on its way to it. -/
def Owed (s : TaskQueues κ) (fs : Multiset (Frame κ γ)) (owner : ℕ) : Prop :=
  s.toCore.Flagged owner ∨ ∃ f ∈ fs, f.Stores s owner

/-- The queue's contexts are flagged, but those that are left. -/
def FlaggedBut (s : TaskQueues κ) (a : Termination γ) (left : List ℕ) : Prop :=
  ∃ queue : Queue, s.queues[a.queue]? = some queue ∧
    ∀ owner ∈ queue.owners, owner ∈ left ∨ s.toCore.Flagged owner

def Frame.Flagging (s : TaskQueues κ) : Frame κ γ → Prop
  | .terminate owners a | .terminateContext _ owners a | .cancel _ _ _ owners a
  | .awaitDrained _ owners a => FlaggedBut s a owners
  | .terminateReturn a => FlaggedBut s a []
  | _ => True

structure Flagging (s : TaskQueues κ) (fs : Multiset (Frame κ γ)) : Prop where
  frames : ∀ f ∈ fs, f.Flagging s
  returned : ∀ q ∈ s.returned, ∃ queue : Queue, s.queues[q]? = some queue ∧
    ∀ owner ∈ queue.owners, s.toCore.Flagged owner

section Later
variable {s t : TaskQueues κ}

theorem SameContexts.owners {qs qs' : List Queue} (h : SameContexts qs qs') {q : ℕ}
    {queue : Queue} (hq : qs[q]? = some queue) :
    ∃ queue', qs'[q]? = some queue' ∧ queue'.owners = queue.owners := by
  obtain ⟨queue', hq', hw, hc⟩ := h q queue hq
  exact ⟨queue', hq', by rw [Queue.owners, hw, hc, Queue.owners]⟩

theorem FlaggedBut.later (hl : s.toCore.Later t.toCore) (hq : SameContexts s.queues t.queues)
    {a : Termination γ} {left : List ℕ} (h : FlaggedBut s a left) : FlaggedBut t a left := by
  obtain ⟨queue, hqueue, ho⟩ := h
  obtain ⟨queue', hqueue', hsame⟩ := hq.owners hqueue
  refine ⟨queue', hqueue', ?_⟩
  rw [hsame]
  exact fun owner hm => (ho owner hm).imp_right hl.flagged

theorem Frame.Flagging.later (hl : s.toCore.Later t.toCore) (hq : SameContexts s.queues t.queues)
    {f : Frame κ γ} (h : f.Flagging s) : f.Flagging t := by
  cases f with
  | terminate | terminateContext | cancel | awaitDrained | terminateReturn =>
    exact FlaggedBut.later hl hq h
  | _ => trivial

theorem Frame.Stores.later (hq : SameContexts s.queues t.queues) {owner : ℕ} {f : Frame κ γ}
    (h : f.Stores s owner) : f.Stores t owner := by
  cases f with
  | terminateQueue a =>
    obtain ⟨queue, hqueue, ho⟩ := h
    obtain ⟨queue', hqueue', hsame⟩ := hq.owners hqueue
    exact ⟨queue', hqueue', hsame ▸ ho⟩
  | _ => exact h

end Later

theorem flagging_toFrame {s : TaskQueues κ} (i : Instr κ γ) : i.toFrame.Flagging s := by
  cases i <;> trivial

section Steps
variable {C : Client κ} {s : World C} {f : Frame κ C.Frame}
  {o : Outcome (World C) (Frame κ C.Frame)} {R : Multiset (Frame κ C.Frame)} {owner : ℕ}

/-- A terminator stores the flag it is at, and goes on to the others. -/
theorem Step.stores (h : Step C s f o) (hf : f.Stores s.toTaskQueues owner) :
    o.shared.toCore.Flagged owner ∨ ∃ g ∈ o.push, g.Stores o.shared.toTaskQueues owner := by
  cases h with
  | client hr ht => exact absurd hf id
  | registry h =>
    cases h with
    | terminateQueue hq =>
      obtain ⟨queue, hqueue, ho⟩ := hf
      rw [hq, Option.mem_some_iff] at hqueue
      subst hqueue
      exact .inr ⟨_, List.mem_singleton_self _, ho⟩
    | terminated => exact absurd hf List.not_mem_nil
    | _ => exact absurd hf id
  | core h =>
    cases h with
    | @terminate other owners a context hc =>
      rcases List.mem_cons.mp hf with rfl | hf
      · exact .inl (Core.flagged_setContext hc)
      · exact .inr ⟨_, List.mem_singleton_self _, hf⟩
    | terminateContext => exact .inr ⟨_, List.mem_singleton_self _, hf⟩
    | cancelNext => exact .inr ⟨_, List.mem_cons_of_mem _ (List.mem_singleton_self _), hf⟩
    | cancelDrain | cancelWait | cancelReturn | awaitDrained =>
      exact .inr ⟨_, List.mem_singleton_self _, hf⟩
    | _ => exact absurd hf id

theorem Step.owed (h : Step C s f o) (ho : Owed s.toTaskQueues (f ::ₘ R) owner) :
    Owed o.shared.toTaskQueues (o.frames + R) owner := by
  rcases ho with hflag | ⟨g, hg, hstores⟩
  · exact .inl (h.later.flagged hflag)
  · rcases Multiset.mem_cons.mp hg with rfl | hR
    · refine (h.stores hstores).imp_right ?_
      rintro ⟨g, hg, hs⟩
      refine ⟨g, Multiset.mem_add.mpr (.inl ?_), hs⟩
      exact Multiset.mem_coe.mpr (List.mem_append_left _ hg)
    · exact .inr ⟨g, Multiset.mem_add.mpr (.inr hR), hstores.later h.sameContexts⟩

theorem Step.flagging_frames (h : Step C s f o) (hI : f.Flagging s.toTaskQueues) :
    ∀ g ∈ o.frames, g.Flagging o.shared.toTaskQueues := by
  have hf : f.Flagging o.shared.toTaskQueues := hI.later h.later h.sameContexts
  rw [forall_frames]
  cases h with
  | client hr ht =>
    exact ⟨List.forall_mem_map.mpr fun i _ => flagging_toFrame i,
      List.forall_mem_map.mpr fun is _ => List.forall_mem_map.mpr fun i _ => flagging_toFrame i⟩
  | registry h =>
    cases h with
    | terminateQueue hq =>
      refine ⟨?_, by simp⟩
      simp only [List.forall_mem_singleton]
      exact ⟨_, hq, fun owner hm => .inl hm⟩
    | terminated =>
      simp only [List.forall_mem_append, List.forall_mem_map, List.forall_mem_singleton]
      exact ⟨⟨fun _ _ => trivial, hf⟩, by simp⟩
    | notifyNext =>
      simp only [List.forall_mem_append, List.forall_mem_map]
      simp [Frame.Flagging]
    | _ => simp [Frame.Flagging]
  | core h =>
    cases h with
    | @terminate other owners a context hc =>
      simp only [List.forall_mem_singleton]
      refine ⟨?_, by simp⟩
      obtain ⟨queue, hqueue, ho⟩ := hf
      refine ⟨queue, hqueue, fun owner hm => ?_⟩
      rcases ho owner hm with hin | hflag
      · rcases List.mem_cons.mp hin with rfl | hin
        · exact .inr (Core.flagged_setContext hc)
        · exact .inl hin
      · exact .inr hflag
    | terminateContext | cancelDrain | cancelWait | cancelReturn | awaitDrained =>
      simp only [List.forall_mem_singleton]
      exact ⟨hf, by simp⟩
    | cancelNext =>
      simp only [List.forall_mem_cons]
      exact ⟨⟨trivial, hf, by simp⟩, by simp⟩
    | _ =>
      simp only [List.forall_mem_cons, List.forall_mem_append, List.forall_mem_map,
        Frame.Flagging]
      simp

theorem Step.flagging (h : Step C s f o) (hI : Flagging s.toTaskQueues (f ::ₘ R)) :
    Flagging o.shared.toTaskQueues (o.frames + R) := by
  have hl := h.later
  have hq := h.sameContexts
  have hf := hI.frames f (Multiset.mem_cons_self f R)
  constructor
  · intro g hg
    rcases Multiset.mem_add.mp hg with ho | hR
    · exact h.flagging_frames hf g ho
    · exact (hI.frames g (Multiset.mem_cons_of_mem hR)).later hl hq
  · have hold : ∀ q ∈ s.returned, ∃ queue : Queue, o.shared.queues[q]? = some queue ∧
        ∀ owner ∈ queue.owners, o.shared.toCore.Flagged owner := by
      intro q hm
      obtain ⟨queue, hqueue, ho⟩ := hI.returned q hm
      obtain ⟨queue', hqueue', hsame⟩ := hq.owners hqueue
      refine ⟨queue', hqueue', ?_⟩
      rw [hsame]
      exact fun owner hm => hl.flagged (ho owner hm)
    cases h with
    | client hr ht =>
      have hret := (applyAll_extends ht).2.2
      simpa only [hret] using hold
    | registry h =>
      cases h with
      | notify hqueue ht =>
        have hret := ht.2.2
        simpa only [hret] using hold
      | @terminateReturn a =>
        cases hw : a.wait with
        | false => simpa [hw] using hold
        | true =>
          simp only [if_true]
          refine List.forall_mem_cons.mpr ⟨?_, hold⟩
          obtain ⟨queue, hqueue, ho⟩ := hf
          exact ⟨queue, hqueue, fun owner hm => (ho owner hm).resolve_left List.not_mem_nil⟩
      | _ => exact hold
    | core h => exact hold

end Steps

/-! ## Submissions that have read the flag too early -/

/-- A callback of one of the contexts, among those that `p` picks. -/
def picks (owners : List ℕ) (p : κ → Bool) (owner : ℕ) (callback : κ) : Bool :=
  decide (owner ∈ owners) && p callback

/-- A submission through one of the contexts that has found its flag unset. -/
def Frame.early (owners : List ℕ) (p : κ → Bool) : Frame κ γ → ℕ
  | .submitDue a owner false => (picks owners p owner a.callback).toNat
  | .submitPort _ task false => (picks owners p task.owner task.callback).toNat
  | _ => 0

/-- How many of these callbacks have been accepted, or may still be. -/
def admitted (owners : List ℕ) (p : κ → Bool) (s : Core κ) (fs : Multiset (Frame κ γ)) : ℕ :=
  s.accepted.countP (fun task => picks owners p task.owner task.callback) +
    weight (Frame.early owners p) fs

/-- The condition that a submission through one of the contexts reads the flag only when no
terminator is still to store it. -/
def flagsFirst {C : Client κ} (owners : List ℕ) :
    Guard (World C) (Frame κ C.Frame) (Option C.Choice) :=
  fun s R f _ =>
    match f with
    | .submitContext _ owner => owner ∈ owners → ∀ g ∈ R, ¬ g.Stores s.toTaskQueues owner
    | _ => True

section Admitted
variable {owners : List ℕ} {p : κ → Bool}

theorem early_outer {f : Frame κ γ} (h : f.isOuter = true) : f.early owners p = 0 := by
  cases f <;> first | rfl | cases h

theorem early_frames {σ : Type} {o : Outcome σ (Frame κ γ)}
    (hp : ∀ g ∈ o.push, g.early owners p = 0) (hs : ∀ k ∈ o.spawn, ∀ g ∈ k, g.early owners p = 0) :
    weight (Frame.early owners p) o.frames = 0 :=
  weight_eq_zero _ (forall_frames.mpr ⟨hp, hs⟩)

theorem early_clients (fs : List γ) :
    ∀ g ∈ fs.map (Frame.client (κ := κ)), g.early owners p = 0 :=
  List.forall_mem_map.mpr fun _ _ => rfl

/-- Only a submission that has found the flag unset gets in. -/
theorem coreStep_early {body : κ → Bool → List γ} {s : Core κ} {f : Frame κ γ}
    {o : Outcome (Core κ) (Frame κ γ)} (h : CoreStep body s f o)
    (hf : ∀ a owner, f = .submitContext a owner → owner ∈ owners → s.Flagged owner) :
    o.shared.accepted.countP (fun task => picks owners p task.owner task.callback) +
        weight (Frame.early owners p) o.frames ≤
      s.accepted.countP (fun task => picks owners p task.owner task.callback) +
        f.early owners p := by
  cases h with
  | @submitContext a owner context hc =>
    have hzero : (Frame.submitDue a owner context.terminated : Frame κ γ).early owners p = 0 := by
      cases ht : context.terminated with
      | true => rfl
      | false =>
        by_cases ho : owner ∈ owners
        · obtain ⟨context', hc', hflag⟩ := hf a owner rfl ho
          rw [hc, Option.some.injEq] at hc'
          subst hc'
          rw [ht] at hflag
          cases hflag
        · simp [Frame.early, picks, ho]
    rw [early_frames (fun g hg => List.mem_singleton.mp hg ▸ hzero) (fun k hk => by cases hk)]
    exact Nat.le_add_right _ _
  | @submitDue a owner ownerTerminated due hd =>
    rw [weight_frames]
    cases ownerTerminated <;> simp [Frame.early]
  | refuse =>
    rw [early_frames (early_clients _) (by simp)]
    exact Nat.le_add_right _ _
  | @acceptInline a task =>
    rw [early_frames (by simp [Frame.early]) (by simp)]
    show (task :: s.accepted).countP _ + 0 ≤ _
    simp only [List.countP_cons, Frame.early, Nat.add_zero]
    cases picks owners p task.owner task.callback <;> simp
  | @acceptDelayed a task =>
    rw [early_frames (early_clients _) (by simp [Frame.early])]
    show (task :: s.accepted).countP _ + 0 ≤ _
    simp only [List.countP_cons, Frame.early, Nat.add_zero]
    cases picks owners p task.owner task.callback <;> simp
  | @acceptQueued a task =>
    rw [early_frames (early_clients _) (by simp [Frame.early])]
    show (task :: s.accepted).countP _ + 0 ≤ _
    simp only [List.countP_cons, Frame.early, Nat.add_zero]
    cases picks owners p task.owner task.callback <;> simp
  | @invoke task canceled =>
    rw [early_frames _ (by simp)]
    · exact Nat.le_add_right _ _
    · simp only [List.forall_mem_append, List.forall_mem_singleton]
      exact ⟨early_clients _, rfl⟩
  | dispatchExit | batchEnd =>
    rw [early_frames (early_clients _) (by simp)]
    exact Nat.le_add_right _ _
  | _ =>
    rw [early_frames (by simp [Frame.early]) (by simp)]
    exact Nat.le_add_right _ _

/-- The callback was with a submission that had found the flag unset. -/
def Task.Early (task : Task κ) (fs : Multiset (Frame κ γ)) : Prop :=
  (∃ a, .submitPort a task false ∈ fs) ∨
    ∃ a, .submitDue a task.owner false ∈ fs ∧ a.callback = task.callback

/-- A submission through one of the contexts that has found the flag unset had found it unset when
the frames were `fs₁`. -/
def Frame.Preceded (owners : List ℕ) (fs₁ : Multiset (Frame κ γ)) : Frame κ γ → Prop
  | .submitDue a owner false => owner ∈ owners → .submitDue a owner false ∈ fs₁
  | .submitPort _ task false => task.owner ∈ owners → task.Early fs₁
  | _ => True

theorem preceded_outer {fs₁ : Multiset (Frame κ γ)} {f : Frame κ γ} (h : f.isOuter = true) :
    f.Preceded owners fs₁ := by
  cases f <;> trivial

theorem preceded_self (fs₁ : Multiset (Frame κ γ)) : ∀ f ∈ fs₁, f.Preceded owners fs₁ := by
  intro f hf
  cases f with
  | submitDue a owner flag =>
    cases flag with
    | true => trivial
    | false => exact fun _ => hf
  | submitPort a task flag =>
    cases flag with
    | true => trivial
    | false => exact fun _ => .inl ⟨a, hf⟩
  | _ => trivial

/-- A submission takes what it has found along, and gets in with it. -/
theorem coreStep_known {body : κ → Bool → List γ} {s : Core κ} {f : Frame κ γ}
    {o : Outcome (Core κ) (Frame κ γ)} {fs₁ : Multiset (Frame κ γ)} (h : CoreStep body s f o)
    (hf : ∀ a owner, f = .submitContext a owner → owner ∈ owners → s.Flagged owner)
    (hk : f.Preceded owners fs₁) :
    (∀ task ∈ o.shared.accepted, task ∈ s.accepted ∨
      (task.owner ∈ owners → task.Early fs₁)) ∧ ∀ g ∈ o.frames, g.Preceded owners fs₁ := by
  rw [forall_frames]
  cases h with
  | @submitContext a owner context hc =>
    refine ⟨fun _ => .inl, List.forall_mem_singleton.mpr ?_, by simp⟩
    cases ht : context.terminated with
    | true => trivial
    | false =>
      intro ho
      obtain ⟨context', hc', hflag⟩ := hf a owner rfl ho
      rw [hc, Option.some.injEq] at hc'
      rw [← hc', ht] at hflag
      cases hflag
  | @submitDue a owner ownerTerminated due hd =>
    refine ⟨fun _ => .inl, List.forall_mem_singleton.mpr ?_, by simp⟩
    cases ownerTerminated with
    | true => trivial
    | false => exact fun ho => .inr ⟨a, hk ho, rfl⟩
  | acceptInline | acceptDelayed | acceptQueued =>
    refine ⟨fun task ht => ?_, ?_⟩
    · rcases List.mem_cons.mp ht with rfl | ht
      · exact .inr hk
      · exact .inl ht
    · simp [Frame.Preceded]
  | _ =>
    refine ⟨fun _ => .inl, ?_⟩
    simp only [List.forall_mem_cons, List.forall_mem_append, List.forall_mem_map, Frame.Preceded]
    simp

/-- What has been accepted since `s₁`, through these contexts: submissions that had found the flag
unset by then, each once. -/
structure Admits (owners : List ℕ) (s₁ : Core κ) (fs₁ : Multiset (Frame κ γ)) (s : Core κ)
    (fs : Multiset (Frame κ γ)) : Prop where
  count : ∀ p : κ → Bool, admitted owners p s fs ≤ admitted owners p s₁ fs₁
  accepted : ∀ task ∈ s.accepted, task.owner ∈ owners → task ∈ s₁.accepted ∨ task.Early fs₁
  frames : ∀ f ∈ fs, f.Preceded owners fs₁

theorem Admits.refl (s₁ : Core κ) (fs₁ : Multiset (Frame κ γ)) : Admits owners s₁ fs₁ s₁ fs₁ :=
  ⟨fun _ => le_rfl, fun _ ht _ => .inl ht, preceded_self fs₁⟩

variable {C : Client κ}

theorem Step.admitted {s : World C} {f : Frame κ C.Frame} {R : Multiset (Frame κ C.Frame)}
    {o : Outcome (World C) (Frame κ C.Frame)} (h : Step C s f o)
    (hf : ∀ a owner, f = .submitContext a owner → owner ∈ owners → s.toCore.Flagged owner) :
    admitted owners p o.shared.toCore (o.frames + R) ≤ admitted owners p s.toCore (f ::ₘ R) := by
  unfold TaskQueue.admitted
  rw [weight_add, weight_cons]
  rcases h.outer_or_core with ⟨hg, hout, ho⟩ | ⟨o', ho', hsh, hfr⟩
  · rw [hg.sameHistory.accepted, weight_eq_zero _ fun g hg => early_outer (ho g hg)]
    omega
  · have hle := coreStep_early (p := p) ho' hf
    rw [hsh, hfr]
    omega

theorem Step.admits {s : World C} {f : Frame κ C.Frame} {R : Multiset (Frame κ C.Frame)}
    {o : Outcome (World C) (Frame κ C.Frame)} {s₁ : Core κ} {fs₁ : Multiset (Frame κ C.Frame)}
    (h : Step C s f o)
    (hf : ∀ a owner, f = .submitContext a owner → owner ∈ owners → s.toCore.Flagged owner)
    (hI : Admits owners s₁ fs₁ s.toCore (f ::ₘ R)) :
    Admits owners s₁ fs₁ o.shared.toCore (o.frames + R) := by
  have hstep : (∀ task ∈ o.shared.accepted, task ∈ s.accepted ∨
      (task.owner ∈ owners → task.Early fs₁)) ∧ ∀ g ∈ o.frames, g.Preceded owners fs₁ := by
    rcases h.outer_or_core with ⟨hg, -, ho⟩ | ⟨o', ho', hsh, hfr⟩
    · refine ⟨fun task ht => ?_, fun g hg => preceded_outer (ho g hg)⟩
      rw [hg.sameHistory.accepted] at ht
      exact .inl ht
    · rw [hsh, hfr]
      exact coreStep_known ho' hf (hI.frames f (Multiset.mem_cons_self f R))
  refine ⟨fun p => (h.admitted hf).trans (hI.count p), fun task ht ho => ?_, fun g hg => ?_⟩
  · rcases hstep.1 task ht with hold | hearly
    · exact hI.accepted task hold ho
    · exact .inr (hearly ho)
  · rcases Multiset.mem_add.mp hg with hg | hR
    · exact hstep.2 g hg
    · exact hI.frames g (Multiset.mem_cons_of_mem hR)

end Admitted

/-! ## After the return -/

section Runs
variable {C : Client κ} {c₀ c₁ c₂ : Config (World C) (Frame κ C.Frame)}
  {G : Guard (World C) (Frame κ C.Frame) (Option C.Choice)} {owners : List ℕ}

theorem Initial.flagging (h0 : Initial C c₀) (h : (machine C).Reaches G c₀ c₁) :
    Flagging c₁.shared.toTaskQueues c₁.frames := by
  refine h.preserved (I := fun s fs => Flagging s.toTaskQueues fs) ?_ ?_
  · obtain ⟨pool, now, hq⟩ := h0.queues
    rw [hq]
    refine ⟨fun f hf => ?_, by simp⟩
    rcases h0.threads f hf with rfl | ⟨g, rfl⟩ <;> trivial
  · intro s f R x o _ hI hs
    exact (step_inv hs).flagging hI

/-- With both flags stored nothing gets in but what has found one unset before. -/
theorem admits_of_flagged (hf : ∀ owner ∈ owners, c₁.shared.toCore.Flagged owner)
    (h : (machine C).Reaches G c₁ c₂) :
    (∀ owner ∈ owners, c₂.shared.toCore.Flagged owner) ∧
      Admits owners c₁.shared.toCore c₁.frames c₂.shared.toCore c₂.frames := by
  refine h.preserved (I := fun s fs => (∀ owner ∈ owners, s.toCore.Flagged owner) ∧
    Admits owners c₁.shared.toCore c₁.frames s.toCore fs) ⟨hf, .refl _ _⟩ ?_
  intro s f R x o _ hI hs
  have hstep := step_inv hs
  refine ⟨fun owner ho => hstep.later.flagged (hI.1 owner ho), ?_⟩
  exact hstep.admits (fun a owner _ ho => hI.1 owner ho) hI.2

/-- A submission that is not ahead of a terminator finds the flag stored. -/
theorem Owed.flagged {s : World C} {R : Multiset (Frame κ C.Frame)} {a : Submission κ C.Frame}
    {owner : ℕ} {x : Option C.Choice} (h : Owed s.toTaskQueues (.submitContext a owner ::ₘ R) owner)
    (ho : owner ∈ owners) (hg : flagsFirst owners s R (.submitContext a owner) x) :
    s.toCore.Flagged owner := by
  rcases h with hflag | ⟨g, hgm, hstores⟩
  · exact hflag
  · rcases Multiset.mem_cons.mp hgm with rfl | hR
    · exact absurd hstores id
    · exact absurd hstores (hg ho g hR)

/-- The same while terminators are on their way to the flags, if no submission is ahead of
them. -/
theorem admits_of_owed (hf : ∀ owner ∈ owners, Owed c₁.shared.toTaskQueues c₁.frames owner)
    (h : (machine C).Reaches (flagsFirst owners) c₁ c₂) :
    (∀ owner ∈ owners, Owed c₂.shared.toTaskQueues c₂.frames owner) ∧
      Admits owners c₁.shared.toCore c₁.frames c₂.shared.toCore c₂.frames := by
  refine h.preserved (I := fun s fs => (∀ owner ∈ owners, Owed s.toTaskQueues fs owner) ∧
    Admits owners c₁.shared.toCore c₁.frames s.toCore fs) ⟨hf, .refl _ _⟩ ?_
  intro s f R x o hg hI hs
  have hstep := step_inv hs
  refine ⟨fun owner ho => hstep.owed (hI.1 owner ho), hstep.admits (fun a owner he ho => ?_) hI.2⟩
  subst he
  exact (hI.1 owner ho).flagged ho hg

/-- A caller that reports `ok` for an accepted submission reports `abort` for a refused one. -/
def Submission.Tells (reports : γ → γ → Prop) (a : Submission κ γ) : Prop :=
  ∀ ok abort, reports ok abort → ok ∈ a.onAccepted → abort ∈ a.onRefused

def Instr.Tells (reports : γ → γ → Prop) : Instr κ γ → Prop
  | .submit a => a.Tells reports
  | _ => True

/-- What a terminated queue does with the submissions that come after `c₁`, in a later state `c₂`
of a run under `G`. Those accepted had all found the flag unset by `c₁`. One that reads the flag now
finds it set, takes that to the port, and is refused there, which its caller is told. A callback is
started only if it was accepted, and a refused one never. -/
structure Refuses (G : Guard (World C) (Frame κ C.Frame) (Option C.Choice))
    (reports : C.Frame → C.Frame → Prop) (queue : Queue)
    (c₁ c₂ : Config (World C) (Frame κ C.Frame)) : Prop where
  admits : Admits queue.owners c₁.shared.toCore c₁.frames c₂.shared.toCore c₂.frames
  started : ∀ call ∈ c₂.shared.started, call.1 ∈ c₂.shared.accepted
  never : ∀ task ∈ c₂.shared.refused, ∀ call ∈ c₂.shared.started, call.1.id ≠ task.id
  reads : ∀ i a owner k x c₃, c₂.threads[i]? = some (.submitContext a owner :: k) →
    owner ∈ queue.owners → G c₂.shared (c₂.others i) (.submitContext a owner) x →
      (machine C).fire c₂ i x = some c₃ → c₃.threads[i]? = some (.submitDue a owner true :: k)
  due : ∀ i a owner k x c₃, c₂.threads[i]? = some (.submitDue a owner true :: k) →
    (machine C).fire c₂ i x = some c₃ → ∃ task, task.callback = a.callback ∧ task.owner = owner ∧
      c₃.threads[i]? = some (.submitPort a task true :: k)
  refused : ∀ i a task k x c₃, c₂.threads[i]? = some (.submitPort a task true :: k) →
    (machine C).fire c₂ i x = some c₃ → c₃.shared.accepted = c₂.shared.accepted ∧
      task ∈ c₃.shared.refused ∧ c₃.threads[i]? = some (a.onRefused.map .client ++ k) ∧
      a.Tells reports

theorem fire_refused {i : ℕ} {a : Submission κ C.Frame} {task : Task κ}
    {k : List (Frame κ C.Frame)} {x : Option C.Choice} {c₃ : Config (World C) (Frame κ C.Frame)}
    (hk : c₂.threads[i]? = some (.submitPort a task true :: k))
    (h : (machine C).fire c₂ i x = some c₃) : c₃.shared.accepted = c₂.shared.accepted ∧
      task ∈ c₃.shared.refused ∧ c₃.threads[i]? = some (a.onRefused.map .client ++ k) := by
  obtain ⟨f, k', o, hk', hs, rfl⟩ := fire_cases h
  rw [hk, Option.some.injEq, List.cons.injEq] at hk'
  obtain ⟨rfl, rfl⟩ := hk'
  have hi : i < c₂.threads.length := (List.getElem?_eq_some_iff.mp hk).1
  cases step_inv hs with
  | registry hreg => cases hreg
  | core hcore =>
    cases hcore with
    | refuse hc hp ht =>
      refine ⟨rfl, List.mem_cons_self, ?_⟩
      rw [List.append_nil, List.getElem?_set_self hi]

/-- A submission that reads the flag finds it as it is, and takes it to the port. -/
theorem fire_flagged {i owner : ℕ} {a : Submission κ C.Frame} {k : List (Frame κ C.Frame)}
    {x : Option C.Choice} {c₃ : Config (World C) (Frame κ C.Frame)}
    (hk : c₂.threads[i]? = some (.submitContext a owner :: k))
    (hflag : c₂.shared.toCore.Flagged owner) (h : (machine C).fire c₂ i x = some c₃) :
    c₃.threads[i]? = some (.submitDue a owner true :: k) := by
  obtain ⟨f, k', o, hk', hs, rfl⟩ := fire_cases h
  rw [hk, Option.some.injEq, List.cons.injEq] at hk'
  obtain ⟨rfl, rfl⟩ := hk'
  have hi : i < c₂.threads.length := (List.getElem?_eq_some_iff.mp hk).1
  cases step_inv hs with
  | registry hreg => cases hreg
  | core hcore =>
    cases hcore with
    | submitContext hc =>
      obtain ⟨context, hc', ht⟩ := hflag
      rw [hc, Option.some.injEq] at hc'
      rw [List.append_nil, List.getElem?_set_self hi, hc', ht]
      rfl

theorem fire_due {i owner : ℕ} {a : Submission κ C.Frame} {flag : Bool}
    {k : List (Frame κ C.Frame)} {x : Option C.Choice} {c₃ : Config (World C) (Frame κ C.Frame)}
    (hk : c₂.threads[i]? = some (.submitDue a owner flag :: k))
    (h : (machine C).fire c₂ i x = some c₃) : ∃ task, task.callback = a.callback ∧
      task.owner = owner ∧ c₃.threads[i]? = some (.submitPort a task flag :: k) := by
  obtain ⟨f, k', o, hk', hs, rfl⟩ := fire_cases h
  rw [hk, Option.some.injEq, List.cons.injEq] at hk'
  obtain ⟨rfl, rfl⟩ := hk'
  have hi : i < c₂.threads.length := (List.getElem?_eq_some_iff.mp hk).1
  cases step_inv hs with
  | registry hreg => cases hreg
  | core hcore =>
    cases hcore with
    | @submitDue _ _ _ due hd =>
      refine ⟨⟨a.callback, owner, due, c₂.shared.nextTask⟩, rfl, rfl, ?_⟩
      rw [List.append_nil, List.getElem?_set_self hi]
      rfl

/-- The rule for a client whose submissions report their refusal. -/
theorem refuses_of_admits {reports : C.Frame → C.Frame → Prop} {queue : Queue}
    (h0 : Initial C c₀) (h : (machine C).Reaches anyStep c₀ c₂)
    (hreports : ∀ a task flag, .submitPort a task flag ∈ c₂.frames → a.Tells reports)
    (hadmits : Admits queue.owners c₁.shared.toCore c₁.frames c₂.shared.toCore c₂.frames)
    (hflags : ∀ i a owner x, c₂.top i = some (.submitContext a owner) → owner ∈ queue.owners →
      G c₂.shared (c₂.others i) (.submitContext a owner) x → c₂.shared.toCore.Flagged owner) :
    Refuses G reports queue c₁ c₂ := by
  refine ⟨hadmits, fun call hcall => ?_, h0.refused_never_started h,
    fun i a owner k x c₃ hk ho hg hf => ?_, fun i a owner k x c₃ hk hf => fire_due hk hf,
    fun i a task k x c₃ hk hf => ?_⟩
  · exact (h0.sound h).accepted_of_started (i := call.1) (List.mem_map_of_mem hcall)
  · refine fire_flagged hk (hflags i a owner x ?_ ho hg) hf
    rw [Config.top, hk]
    rfl
  · obtain ⟨hacc, hmem, hthread⟩ := fire_refused hk hf
    refine ⟨hacc, hmem, hthread, hreports a task true ?_⟩
    exact Multiset.mem_coe.mpr (List.mem_flatten.mpr
      ⟨_, List.mem_of_getElem? hk, List.mem_cons_self⟩)

theorem reaches_tells {reports : C.Frame → C.Frame → Prop} (h0 : Initial C c₀)
    (h : (machine C).Reaches G c₀ c₂)
    (hclient : ∀ (s : World C) g choice r, C.step s.mem s.toTaskQueues g choice = some r →
      (∀ i ∈ r.run, i.Tells reports) ∧ ∀ k ∈ r.spawn, ∀ i ∈ k, i.Tells reports) :
    ∀ a task flag, .submitPort a task flag ∈ c₂.frames → a.Tells reports := by
  have hsubmits : ∀ i : Instr κ C.Frame, i.Tells reports → i.Submits (·.Tells reports) := by
    intro i hi
    cases i with
    | submit a => exact hi
    | _ => trivial
  intro a task flag hm
  refine (submitted_invariant h0 h (fun s _ g choice r _ hr => ?_) a task flag hm).1
  obtain ⟨hrun, hspawn⟩ := hclient s g choice r hr
  exact ⟨fun i hi => hsubmits i (hrun i hi), fun k hk i hi => hsubmits i (hspawn k hk i hi)⟩

end Runs

/-- A submission of the game returns `E_ABORT` where it would have returned `S_OK`. -/
def QueueGame.reports (ok abort : GameFrame) : Prop := ok = .ret S_OK ∧ abort = .ret E_ABORT

theorem perform_tells (c : QueueCall ℕ GameFrame) (s : TaskQueues ℕ) :
    (∀ i ∈ (c.perform s (fun value => [.ret value]) [.processQueue]).run,
      i.Tells QueueGame.reports) ∧
    ∀ k ∈ (c.perform s (fun value => [.ret value]) [.processQueue]).spawn,
      ∀ i ∈ k, i.Tells QueueGame.reports := by
  cases c with
  | submitDelayedCallback queue port delayMs callback =>
    simp only [QueueCall.perform]
    repeat' split
    all_goals simp [Instr.Tells, Submission.Tells, QueueGame.reports]
  | _ =>
    simp only [QueueCall.perform]
    repeat' split
    all_goals simp [Instr.Tells]

theorem QueueGame.tells {c₀ c : Config (World QueueGame) (Frame ℕ GameFrame)}
    {G : Guard (World QueueGame) (Frame ℕ GameFrame) (Option GameChoice)}
    (h0 : Initial QueueGame c₀) (h : (machine QueueGame).Reaches G c₀ c) :
    ∀ a task flag, .submitPort a task flag ∈ c.frames → a.Tells QueueGame.reports := by
  refine reaches_tells h0 h fun s g choice r hr => ?_
  have hcode : (Instr.frame GameFrame.code : Instr ℕ GameFrame).Tells QueueGame.reports := trivial
  cases g with
  | code =>
    cases choice with
    | call c =>
      cases hr
      obtain ⟨hrun, hspawn⟩ := perform_tells c s.toTaskQueues
      exact ⟨List.forall_mem_append.mpr ⟨hrun, List.forall_mem_singleton.mpr hcode⟩, hspawn⟩
    | thread =>
      cases hr
      exact ⟨List.forall_mem_singleton.mpr hcode,
        List.forall_mem_singleton.mpr (List.forall_mem_singleton.mpr hcode)⟩
    | finish => cases hr; exact ⟨List.forall_mem_nil _, List.forall_mem_nil _⟩
  | ret value => cases hr; exact ⟨List.forall_mem_nil _, List.forall_mem_nil _⟩
  | processQueue =>
    cases hr
    exact ⟨List.forall_mem_singleton.mpr trivial, List.forall_mem_nil _⟩

end XGameRuntime.TaskQueue
