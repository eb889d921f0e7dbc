import XGameRuntime.TaskQueue.History

/-! # Where callbacks and code come from

A client that only asks for submissions of which `S` holds finds `S` behind every callback of the
process: each one was submitted by such a call, through a context of the queue that the call
names. And code that a client leaves to the queue to run, in a continuation, a callback or a
monitor, may assume how the call went: `K` holds of every client frame, if it holds of the
continuations once their call has been decided.
-/

namespace XGameRuntime.TaskQueue
open Concurrency
set_option autoImplicit false

variable {κ γ : Type}

/-- `owner` is the context through which the submission goes. -/
def Submission.Through (a : Submission κ γ) (s : TaskQueues κ) (owner : ℕ) : Prop :=
  ∃ q, s.queues[a.queue]? = some q ∧ owner = q.context a.kind

/-- A submission of which `S` holds has brought this callback in. -/
def Task.From (task : Task κ) (S : Submission κ γ → Prop) (s : TaskQueues κ) : Prop :=
  ∃ a, S a ∧ task.callback = a.callback ∧ a.Through s task.owner

/-- What is known of a frame. -/
def Frame.Justified (S : Submission κ γ → Prop) (K : γ → Prop) (s : TaskQueues κ) :
    Frame κ γ → Prop
  | .client g => K g
  | .notify a | .notifying a _ _ => S a
  | .submitContext a owner | .submitDue a owner _ => S a ∧ a.Through s owner
  | .submitPort a task _ => S a ∧ task.callback = a.callback ∧ a.Through s task.owner
  | .invoke task _ | .running task _ | .delayed _ task => task.From S s
  | .dispatch d | .dispatchWait d _ | .drainReady d =>
      (∀ g ∈ d.onTrue, K g) ∧ ∀ g ∈ d.onFalse, K g
  | .dispatchBatch d batch _ => (∀ task ∈ batch, task.From S s) ∧
      (∀ g ∈ d.onTrue, K g) ∧ ∀ g ∈ d.onFalse, K g
  | .terminateQueue a | .terminate _ a | .terminateContext _ _ a | .awaitDrained _ _ a =>
      ∀ g ∈ a.after, K g
  | .cancel _ pending _ _ a => (∀ task ∈ pending, task.From S s) ∧ ∀ g ∈ a.after, K g
  | .clock | .finishOne _ | .worker _ | .terminateReturn _ => True

/-- Every callback of the process comes from a submission of which `S` holds, and every frame is
justified. -/
structure Justified (S : Submission κ γ → Prop) (K : γ → Prop) (s : TaskQueues κ)
    (fs : Multiset (Frame κ γ)) : Prop where
  queued : ∀ (p : ℕ) (port : Port κ), s.ports[p]? = some port →
    ∀ task ∈ port.state.tasks, task.From S s
  accepted : ∀ task ∈ s.accepted, task.From S s
  refused : ∀ task ∈ s.refused, task.From S s
  started : ∀ call ∈ s.started, call.1.From S s
  finished : ∀ task ∈ s.finished, task.From S s
  frames : ∀ f ∈ fs, f.Justified S K s

section Mono
variable {S S' : Submission κ γ → Prop} {K K' : γ → Prop} {s t : TaskQueues κ}

theorem Submission.Through.later {a : Submission κ γ} {owner : ℕ}
    (hq : SameContexts s.queues t.queues) (h : a.Through s owner) : a.Through t owner := by
  obtain ⟨q, hs, ho⟩ := h
  obtain ⟨q', ht, hw, hc⟩ := hq _ _ hs
  refine ⟨q', ht, ho.trans ?_⟩
  cases a.kind with
  | work => exact hw.symm
  | completion => exact hc.symm

theorem Task.From.later {task : Task κ} (hq : SameContexts s.queues t.queues)
    (hS : ∀ a, S a → S' a) (h : task.From S s) : task.From S' t := by
  obtain ⟨a, ha, hc, ho⟩ := h
  exact ⟨a, hS a ha, hc, ho.later hq⟩

theorem Frame.Justified.later {f : Frame κ γ} (hq : SameContexts s.queues t.queues)
    (hS : ∀ a, S a → S' a) (hK : ∀ g, K g → K' g) (h : f.Justified S K s) :
    f.Justified S' K' t := by
  cases f with
  | client g => exact hK g h
  | notify a | notifying a => exact hS a h
  | submitContext a owner | submitDue a owner => exact ⟨hS a h.1, h.2.later hq⟩
  | submitPort a task => exact ⟨hS a h.1, h.2.1, h.2.2.later hq⟩
  | invoke task | running task | delayed p task => exact Task.From.later hq hS h
  | dispatch d | dispatchWait d | drainReady d =>
    exact ⟨fun g hg => hK g (h.1 g hg), fun g hg => hK g (h.2 g hg)⟩
  | dispatchBatch d batch =>
    exact ⟨fun task ht => (h.1 task ht).later hq hS, fun g hg => hK g (h.2.1 g hg),
      fun g hg => hK g (h.2.2 g hg)⟩
  | terminateQueue a | terminate _ a | terminateContext _ _ a | awaitDrained _ _ a =>
    exact fun g hg => hK g (h g hg)
  | cancel =>
    exact ⟨fun task ht => (h.1 task ht).later hq hS, fun g hg => hK g (h.2 g hg)⟩
  | clock | finishOne | worker | terminateReturn => trivial

theorem justified_clients {fs : List γ} (h : ∀ g ∈ fs, K g) :
    ∀ f ∈ fs.map Frame.client, Frame.Justified S K s f := by
  intro f hf
  obtain ⟨g, hg, rfl⟩ := List.mem_map.mp hf
  exact h g hg

end Mono

/-! ## The steps of the queue -/

section Steps
variable {S : Submission κ γ → Prop} {K : γ → Prop}

/-- What `K` has to say about code that the core starts. -/
structure Starts (body : κ → Bool → List γ) (S : Submission κ γ → Prop) (K : γ → Prop)
    (s : Core κ) : Prop where
  body : ∀ (task : Task κ) (canceled : Bool), (task, canceled) ∈ s.started →
    ∀ g ∈ body task.callback canceled, K g
  accepted : ∀ (a : Submission κ γ) (task : Task κ), S a → task.callback = a.callback →
    task ∈ s.accepted → ∀ g ∈ a.onAccepted, K g
  refused : ∀ (a : Submission κ γ) (task : Task κ), S a → task.callback = a.callback →
    task ∈ s.refused → ∀ g ∈ a.onRefused, K g

theorem coreStep_queued {body : κ → Bool → List γ} {s : TaskQueues κ} {f : Frame κ γ}
    {o : Outcome (Core κ) (Frame κ γ)} {R : Multiset (Frame κ γ)}
    (h : CoreStep body s.toCore f o) (hI : Justified S K s (f ::ₘ R)) :
    ∀ (p : ℕ) (port : Port κ), o.shared.ports[p]? = some port →
      ∀ task ∈ port.state.tasks, task.From S s := by
  intro p port' hp' task ht
  have hf := hI.frames f (Multiset.mem_cons_self f R)
  obtain ⟨port, hp, hs⟩ := h.port_cases hp'
  cases hs with
  | ordinary ho =>
    rcases ho.tasks task ht with hm | ⟨-, -, a, rfl⟩
    · exact hI.queued p port hp task hm
    · exact ⟨a, hf.1, hf.2.1, hf.2.2⟩
  | terminateContext owner owners a context hf' hc hpp he =>
    subst he
    exact hI.queued p port hp task (List.mem_of_mem_filter ht)
  | cancelDrain owner owners a context hf' hc hpp he =>
    subst he
    simp [PortState.drainRest] at ht

/-- The history grows by what the frame that runs carries. -/
theorem coreStep_history {body : κ → Bool → List γ} {s : TaskQueues κ} {f : Frame κ γ}
    {o : Outcome (Core κ) (Frame κ γ)} (h : CoreStep body s.toCore f o)
    (hf : f.Justified S K s) :
    (∀ task ∈ o.shared.accepted, task ∈ s.accepted ∨ task.From S s) ∧
      (∀ task ∈ o.shared.refused, task ∈ s.refused ∨ task.From S s) ∧
      (∀ call ∈ o.shared.started, call ∈ s.started ∨ call.1.From S s) ∧
      ∀ task ∈ o.shared.finished, task ∈ s.finished ∨ task.From S s := by
  have hsame : (∀ task ∈ s.accepted, task ∈ s.accepted ∨ task.From S s) ∧
      (∀ task ∈ s.refused, task ∈ s.refused ∨ task.From S s) ∧
      (∀ call ∈ s.started, call ∈ s.started ∨ call.1.From S s) ∧
      ∀ task ∈ s.finished, task ∈ s.finished ∨ task.From S s :=
    ⟨fun _ => .inl, fun _ => .inl, fun _ => .inl, fun _ => .inl⟩
  cases h with
  | @refuse a task =>
    refine ⟨hsame.1, fun other ho => ?_, hsame.2.2⟩
    rcases List.mem_cons.mp ho with rfl | ho
    · exact .inr ⟨a, hf.1, hf.2.1, hf.2.2⟩
    · exact .inl ho
  | @acceptInline a task | @acceptDelayed a task | @acceptQueued a task =>
    refine ⟨fun other ho => ?_, hsame.2⟩
    rcases List.mem_cons.mp ho with rfl | ho
    · exact .inr ⟨a, hf.1, hf.2.1, hf.2.2⟩
    · exact .inl ho
  | @invoke task canceled =>
    refine ⟨hsame.1, hsame.2.1, fun call hc => ?_, hsame.2.2.2⟩
    rcases List.mem_cons.mp hc with rfl | hc
    · exact .inr hf
    · exact .inl hc
  | @running task canceled =>
    refine ⟨hsame.1, hsame.2.1, hsame.2.2.1, fun other ho => ?_⟩
    rcases List.mem_cons.mp ho with rfl | ho
    · exact .inr hf
    · exact .inl ho
  | _ => exact hsame

theorem coreStep_frames_justified {body : κ → Bool → List γ} {s : TaskQueues κ} {f : Frame κ γ}
    {o : Outcome (Core κ) (Frame κ γ)} {R : Multiset (Frame κ γ)}
    (h : CoreStep body s.toCore f o) (hI : Justified S K s (f ::ₘ R))
    (hK : Starts body S K o.shared) : ∀ g ∈ o.frames, g.Justified S K s := by
  have hf := hI.frames f (Multiset.mem_cons_self f R)
  rw [forall_frames]
  cases h with
  | clock => simp [Frame.Justified]
  | submitContext hc => exact ⟨by simpa [Frame.Justified] using hf, by simp⟩
  | submitDue hd =>
    refine ⟨?_, by simp⟩
    simpa [Frame.Justified] using hf
  | @refuse a task =>
    refine ⟨justified_clients fun g hg => ?_, by simp⟩
    exact hK.refused a task hf.1 hf.2.1 (by simp) g hg
  | @acceptInline a task context port =>
    refine ⟨?_, by simp⟩
    have hfrom : task.From S s := ⟨a, hf.1, hf.2.1, hf.2.2⟩
    simp only [List.forall_mem_cons]
    refine ⟨hfrom, trivial, justified_clients fun g hg => ?_⟩
    exact hK.accepted a task hf.1 hf.2.1 (List.mem_cons_self ..) g hg
  | @acceptDelayed a task context port =>
    have hfrom : task.From S s := ⟨a, hf.1, hf.2.1, hf.2.2⟩
    refine ⟨justified_clients fun g hg => ?_, by simpa [Frame.Justified] using hfrom⟩
    exact hK.accepted a task hf.1 hf.2.1 (by simp) g hg
  | @acceptQueued a task context port =>
    refine ⟨justified_clients fun g hg => ?_, ?_⟩
    · exact hK.accepted a task hf.1 hf.2.1 (List.mem_cons_self ..) g hg
    · intro k hk
      rw [List.eq_of_mem_replicate hk]
      simp [Frame.Justified]
  | @invoke task canceled =>
    refine ⟨?_, by simp⟩
    simp only [List.forall_mem_append, List.forall_mem_singleton]
    refine ⟨justified_clients fun g hg => ?_, hf⟩
    exact hK.body task canceled (by simp) g hg
  | running | finishOne | workerExit => exact ⟨by simp, by simp⟩
  | @workerTake p port task rest hp ht hl =>
    have hfrom := hI.queued p port hp task (by simp [hl])
    refine ⟨?_, by simp⟩
    simp only [List.forall_mem_cons]
    exact ⟨hfrom, trivial, trivial, by simp⟩
  | delayed hp => exact ⟨by simpa [Frame.Justified] using hf, by simp⟩
  | dispatch => exact ⟨by simpa [Frame.Justified] using hf, by simp⟩
  | dispatchExit => exact ⟨justified_clients hf.2, by simp⟩
  | @dispatchTake d deadline port task rest hp ht hl =>
    have hfrom := hI.queued d.port port hp task (by simp [hl])
    refine ⟨?_, by simp⟩
    simp only [List.forall_mem_cons]
    exact ⟨hfrom, hf, by simp⟩
  | @drainReady d port hp =>
    refine ⟨?_, by simp⟩
    simp only [List.forall_mem_singleton]
    exact ⟨fun task ht => hI.queued d.port port hp task (List.takeWhile_subset _ ht), hf⟩
  | batchNext =>
    refine ⟨?_, by simp⟩
    simp only [List.forall_mem_cons]
    refine ⟨hf.1 _ (by simp), ⟨fun task ht => hf.1 task (by simp [ht]), hf.2⟩, by simp⟩
  | batchEnd => exact ⟨justified_clients hf.2.1, by simp⟩
  | cancelNext =>
    refine ⟨?_, by simp⟩
    simp only [List.forall_mem_cons]
    refine ⟨hf.1 _ (by simp), ⟨fun task ht => hf.1 task (by simp [ht]), hf.2⟩, by simp⟩
  | terminate | awaitDrained | cancelReturn =>
    refine ⟨?_, by simp⟩
    simpa [Frame.Justified] using hf
  | @terminateContext owner owners a context port hc hp =>
    refine ⟨?_, by simp⟩
    simp only [List.forall_mem_singleton]
    exact ⟨fun task ht => hI.queued context.port port hp task (List.mem_of_mem_filter ht), hf⟩
  | @cancelDrain owner owners a context port hc hp =>
    refine ⟨?_, by simp⟩
    simp only [List.forall_mem_singleton]
    exact ⟨fun task ht => hI.queued context.port port hp task ht, hf.2⟩
  | cancelWait =>
    refine ⟨?_, by simp⟩
    simpa [Frame.Justified] using hf

/-- The frame that ran is gone and others have come. -/
theorem Justified.replace {s : TaskQueues κ} {f : Frame κ γ} {F R : Multiset (Frame κ γ)}
    {S' : Submission κ γ → Prop} {K' : γ → Prop} (hI : Justified S K s (f ::ₘ R))
    (hS : ∀ a, S a → S' a) (hK : ∀ g, K g → K' g) (hF : ∀ g ∈ F, g.Justified S' K' s) :
    Justified S' K' s (F + R) := by
  have hsame : SameContexts s.queues s.queues := .refl _
  have hfrom : ∀ task : Task κ, task.From S s → task.From S' s := fun task h => h.later hsame hS
  constructor
  · exact fun p port hp task ht => hfrom task (hI.queued p port hp task ht)
  · exact fun task ht => hfrom task (hI.accepted task ht)
  · exact fun task ht => hfrom task (hI.refused task ht)
  · exact fun call hc => hfrom call.1 (hI.started call hc)
  · exact fun task ht => hfrom task (hI.finished task ht)
  · intro g hg
    rcases Multiset.mem_add.mp hg with ho | hR
    · exact hF g ho
    · exact (hI.frames g (Multiset.mem_cons_of_mem hR)).later hsame hS hK

theorem coreStep_justified {body : κ → Bool → List γ} {s : TaskQueues κ} {f : Frame κ γ}
    {o : Outcome (Core κ) (Frame κ γ)} {R : Multiset (Frame κ γ)} {K' : γ → Prop}
    (h : CoreStep body s.toCore f o) (hI : Justified S K s (f ::ₘ R))
    (hmono : ∀ g, K g → K' g) (hK : Starts body S K' o.shared) :
    Justified S K' { s with toCore := o.shared } (o.frames + R) := by
  have hI' : Justified S K' s (f ::ₘ R) :=
    hI.replace (F := {f}) (fun _ => id) hmono (by
      intro g hg
      rw [Multiset.mem_singleton.mp hg]
      exact (hI.frames f (Multiset.mem_cons_self f R)).later (.refl _) (fun _ => id) hmono)
  have hnew := hI'.replace (fun _ => id) (fun _ => id) (coreStep_frames_justified h hI' hK)
  obtain ⟨hacc, href, hst, hfin⟩ := coreStep_history h (hI.frames f (Multiset.mem_cons_self f R))
  constructor
  · exact fun p port hp task ht => coreStep_queued h hI p port hp task ht
  · exact fun task ht => (hacc task ht).elim (hI.accepted task) id
  · exact fun task ht => (href task ht).elim (hI.refused task) id
  · exact fun call hc => (hst call hc).elim (hI.started call) id
  · exact fun task ht => (hfin task ht).elim (hI.finished task) id
  · exact hnew.frames

theorem registryStep_frames_justified {C : Client κ} {s : TaskQueues κ}
    {S : Submission κ C.Frame → Prop} {K : C.Frame → Prop} {f : Frame κ C.Frame}
    {o : Outcome (TaskQueues κ) (Frame κ C.Frame)} (h : RegistryStep C s f o)
    (hf : f.Justified S K s)
    (hmonitor : ∀ context handle kind, ∀ g ∈ C.monitor context handle kind, K g) :
    ∀ g ∈ o.push, g.Justified S K s := by
  cases h with
  | @notifyNone a q hq =>
    simp only [List.forall_mem_singleton]
    exact ⟨hf, q, hq, rfl⟩
  | notify hq ht =>
    simp only [List.forall_mem_singleton]
    exact hf
  | @notifyNext a handle monitor rest =>
    simp only [List.forall_mem_append, List.forall_mem_singleton]
    exact ⟨justified_clients fun g hg => hmonitor _ _ _ g hg, hf⟩
  | @notifyEnd a handle q hq =>
    simp only [List.forall_mem_singleton]
    exact ⟨hf, q, hq, rfl⟩
  | terminateQueue hq =>
    simp only [List.forall_mem_singleton]
    exact hf
  | terminated =>
    simp only [List.forall_mem_append, List.forall_mem_singleton]
    exact ⟨justified_clients hf, trivial⟩
  | terminateReturn => simp

end Steps

/-! ## The rule -/

/-- What a client asks for has to be justified. -/
def Instr.Justified (S : Submission κ γ → Prop) (K : γ → Prop) : Instr κ γ → Prop
  | .frame g => K g
  | .submit a => S a
  | .dispatch d => (∀ g ∈ d.onTrue, K g) ∧ ∀ g ∈ d.onFalse, K g
  | .terminate a => ∀ g ∈ a.after, K g

theorem Instr.Justified.toFrame {S : Submission κ γ → Prop} {K : γ → Prop} {s : TaskQueues κ}
    {i : Instr κ γ} (h : i.Justified S K) : i.toFrame.Justified S K s := by
  cases i <;> exact h

/-- Growth of the core leaves every callback where it is. -/
theorem Core.Grows.queued {s t : Core κ} (h : s.Grows t) {p : ℕ} {port : Port κ}
    (hp : t.ports[p]? = some port) {task : Task κ} (ht : task ∈ port.state.tasks) :
    ∃ port', s.ports[p]? = some port' ∧ task ∈ port'.state.tasks := by
  induction h generalizing port with
  | refl => exact ⟨port, hp, ht⟩
  | port mode _ ih =>
    rcases getElem?_push_cases hp with hp | ⟨-, rfl⟩
    · exact ih hp ht
    · simp at ht
  | @context t q port' _ hq ih =>
    rcases getElem?_set_cases hp with ⟨rfl, rfl⟩ | ⟨-, hp⟩
    · exact ih hq ht
    · exact ih hp ht

theorem Justified.grows {S : Submission κ γ → Prop} {K : γ → Prop} {s t : TaskQueues κ}
    {fs : Multiset (Frame κ γ)} (hg : s.toCore.Grows t.toCore)
    (hq : SameContexts s.queues t.queues) (hI : Justified S K s fs) : Justified S K t fs := by
  have hh := hg.sameHistory
  have hfrom : ∀ task : Task κ, task.From S s → task.From S t :=
    fun task ht => ht.later hq fun _ => id
  constructor
  · intro p port hp task ht
    obtain ⟨port', hp', ht'⟩ := hg.queued hp ht
    exact hfrom task (hI.queued p port' hp' task ht')
  · rw [hh.accepted]
    exact fun task ht => hfrom task (hI.accepted task ht)
  · rw [hh.refused]
    exact fun task ht => hfrom task (hI.refused task ht)
  · rw [hh.started]
    exact fun call hc => hfrom call.1 (hI.started call hc)
  · rw [hh.finished]
    exact fun task ht => hfrom task (hI.finished task ht)
  · exact fun f hf => (hI.frames f hf).later hq (fun _ => id) fun _ => id

theorem registryStep_justified {C : Client κ} {s : TaskQueues κ}
    {S : Submission κ C.Frame → Prop} {K K' : C.Frame → Prop} {f : Frame κ C.Frame}
    {o : Outcome (TaskQueues κ) (Frame κ C.Frame)} {R : Multiset (Frame κ C.Frame)}
    (h : RegistryStep C s f o) (hI : Justified S K s (f ::ₘ R)) (hmono : ∀ g, K g → K' g)
    (hmonitor : ∀ context handle kind, ∀ g ∈ C.monitor context handle kind, K g) :
    Justified S K' o.shared (o.frames + R) := by
  have hpush := registryStep_frames_justified h (hI.frames f (Multiset.mem_cons_self f R)) hmonitor
  obtain ⟨hgrow, -, -, hspawn⟩ := registryStep_outer h
  have hq : SameContexts s.queues o.shared.queues := by
    cases h with
    | notify hq ht => exact ht.2.1
    | notifyEnd hq => exact .set hq rfl rfl
    | _ => exact .refl _
  have hframes : ∀ g ∈ o.frames, g.Justified S K' s := by
    rw [forall_frames, hspawn]
    exact ⟨fun g hg => (hpush g hg).later (.refl _) (fun _ => id) hmono, by simp⟩
  exact (hI.replace (fun _ => id) hmono hframes).grows hgrow hq

section Runs
variable {C : Client κ} {c₀ c : Config (World C) (Frame κ C.Frame)}
  {G : Guard (World C) (Frame κ C.Frame) (Option C.Choice)}
  {S : C.Mem → Submission κ C.Frame → Prop} {K : C.Mem → Core κ → C.Frame → Prop}
  {J : World C → Multiset (Frame κ C.Frame) → Prop}

/-- What a step of a client must keep: all that it asks for is justified, and nothing that was
justified ceases to be. -/
structure Keeps (S : C.Mem → Submission κ C.Frame → Prop) (K : C.Mem → Core κ → C.Frame → Prop)
    (s : World C) (r : ClientStep κ C.Mem C.Frame) : Prop where
  run : ∀ i ∈ r.run, i.Justified (S r.mem) (K r.mem s.toCore)
  spawn : ∀ k ∈ r.spawn, ∀ i ∈ k, i.Justified (S r.mem) (K r.mem s.toCore)
  submission : ∀ a, S s.mem a → S r.mem a
  code : ∀ g, K s.mem s.toCore g → K r.mem s.toCore g

/-- The rule: justified at the start and by every step of the client, justified in every run. -/
theorem justified_invariant (h : (machine C).Reaches G c₀ c)
    (hJ : ∀ c, (machine C).Reaches G c₀ c → J c.shared c.frames) (h0 : Initial C c₀)
    (hcode : ∀ g, .client g ∈ c₀.frames → K c₀.shared.mem c₀.shared.toCore g)
    (hstarts : ∀ m s, Starts C.body (S m) (K m s) s)
    (hmonitor : ∀ m s context handle kind, ∀ g ∈ C.monitor context handle kind, K m s g)
    (hlater : ∀ m s t g, s.Later t → K m s g → K m t g)
    (hclient : ∀ (s : World C) (R : Multiset (Frame κ C.Frame)) g choice r,
      G s R (.client g) (some choice) → J s (.client g ::ₘ R) → K s.mem s.toCore g →
      C.step s.mem s.toTaskQueues g choice = some r → Keeps S K s r) :
    Justified (S c.shared.mem) (K c.shared.mem c.shared.toCore) c.shared.toTaskQueues
      c.frames := by
  refine h.invariant (I := fun s fs => Justified (S s.mem) (K s.mem s.toCore) s.toTaskQueues fs)
    hJ ?_ ?_
  · obtain ⟨pool, now, hq⟩ := h0.queues
    rw [hq]
    refine ⟨fun p port hp => by simp at hp, by simp, by simp, by simp, by simp, fun f hf => ?_⟩
    rcases h0.threads f hf with rfl | ⟨g, rfl⟩
    · trivial
    · have hg := hcode g hf
      rw [hq] at hg
      exact hg
  · intro s f R x o hg hj hI hs
    have hf := hI.frames f (Multiset.mem_cons_self f R)
    cases f with
    | client g =>
      cases x with
      | none => simp [machine] at hs
      | some choice =>
        simp only [machine, Option.bind_eq_bind, Option.bind_eq_some_iff, Option.some.injEq] at hs
        obtain ⟨r, hr, t, ht, rfl⟩ := hs
        have hk := hclient s R g choice r hg hj hf hr
        have hext := applyAll_extends ht
        have hcode' : ∀ g', K r.mem s.toCore g' → K r.mem t.toCore g' :=
          fun g' => hlater r.mem s.toCore t.toCore g' hext.1.later
        have hi : ∀ i : Instr κ C.Frame, i.Justified (S r.mem) (K r.mem s.toCore) →
            i.toFrame.Justified (S r.mem) (K r.mem t.toCore) s.toTaskQueues :=
          fun i hi => hi.toFrame.later (.refl _) (fun _ => id) hcode'
        have hmid := hI.replace hk.submission (fun g' hg' => hcode' g' (hk.code g' hg'))
          (F := (Outcome.mk (⟨t, r.mem⟩ : World C) (r.run.map Instr.toFrame)
            (r.spawn.map (·.map Instr.toFrame))).frames)
          (forall_frames.mpr ⟨List.forall_mem_map.mpr fun i hm => hi i (hk.run i hm),
            List.forall_mem_map.mpr fun k hm =>
              List.forall_mem_map.mpr fun i hm' => hi i (hk.spawn k hm i hm')⟩)
        exact hmid.grows hext.1 hext.2.1
    | _ =>
      cases step_inv hs with
      | registry hreg =>
        have hl := (registryStep_outer hreg).1.later
        exact registryStep_justified hreg hI (fun g => hlater s.mem _ _ g hl)
          (hmonitor s.mem s.toCore)
      | core hcore =>
        have hl := hcore.later
        exact coreStep_justified hcore hI (fun g => hlater s.mem _ _ g hl) (hstarts s.mem _)

/-- What holds of every submission that a client asks for. -/
def Instr.Submits (S : Submission κ γ → Prop) : Instr κ γ → Prop
  | .submit a => S a
  | _ => True

theorem Instr.Submits.justified {S : Submission κ γ → Prop} {i : Instr κ γ} (h : i.Submits S) :
    i.Justified S fun _ => True := by
  cases i with
  | frame g => trivial
  | submit a => exact h
  | dispatch d => exact ⟨fun _ _ => trivial, fun _ _ => trivial⟩
  | terminate a => exact fun _ _ => trivial

/-- The rule for what holds of submissions alone. -/
theorem submitted_invariant {S : Submission κ C.Frame → Prop} (h0 : Initial C c₀)
    (h : (machine C).Reaches G c₀ c)
    (hclient : ∀ (s : World C) (R : Multiset (Frame κ C.Frame)) g choice r,
      G s R (.client g) (some choice) → C.step s.mem s.toTaskQueues g choice = some r →
      (∀ i ∈ r.run, i.Submits S) ∧ ∀ k ∈ r.spawn, ∀ i ∈ k, i.Submits S) :
    ∀ a task flag, .submitPort a task flag ∈ c.frames → S a ∧ task.callback = a.callback := by
  have hI := justified_invariant (S := fun _ => S) (K := fun _ _ _ => True)
    (J := fun _ _ => True) h (fun _ _ => trivial) h0 (fun _ _ => trivial)
    (fun _ _ => ⟨fun _ _ _ _ _ => trivial, fun _ _ _ _ _ _ _ => trivial,
      fun _ _ _ _ _ _ _ => trivial⟩) (fun _ _ _ _ _ _ _ => trivial) (fun _ _ _ _ _ h => h) ?_
  · intro a task flag hm
    obtain ⟨ha, hc, -⟩ := hI.frames _ hm
    exact ⟨ha, hc⟩
  · intro s R g choice r hg _ _ hr
    obtain ⟨hrun, hspawn⟩ := hclient s R g choice r hg hr
    exact ⟨fun i hi => (hrun i hi).justified, fun k hk i hi => (hspawn k hk i hi).justified,
      fun _ ha => ha, fun _ h => h⟩

end Runs
end XGameRuntime.TaskQueue
