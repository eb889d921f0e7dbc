import XGameRuntime.TaskQueue.Machine

/-! # What never goes back

Ports and contexts are never destroyed, their flags are only ever set, and the history of
submissions and invocations only grows.
-/

namespace XGameRuntime.TaskQueue
open Concurrency
set_option autoImplicit false

variable {κ γ : Type}

structure Port.Later (port port' : Port κ) : Prop where
  mode : port'.mode = port.mode
  terminated : port.state.terminated = true → port'.state.terminated = true
  drained : port.drained = true → port'.drained = true

theorem Port.Later.refl (port : Port κ) : port.Later port :=
  ⟨rfl, id, id⟩

theorem Port.Later.of_state (port : Port κ) {state : PortState κ}
    (h : state.terminated = port.state.terminated) : port.Later { port with state := state } :=
  ⟨rfl, fun ht => h.trans ht, id⟩

theorem Port.Later.trans {a b c : Port κ} (h1 : a.Later b) (h2 : b.Later c) : a.Later c :=
  ⟨h2.mode.trans h1.mode, h2.terminated ∘ h1.terminated, h2.drained ∘ h1.drained⟩

structure PortContext.Later (a b : PortContext) : Prop where
  port : b.port = a.port
  bornDead : b.bornDead = a.bornDead
  terminated : a.terminated = true → b.terminated = true
  closed : a.closed = true → b.closed = true
  settled : a.settled = true → b.settled = true

theorem PortContext.Later.refl (a : PortContext) : a.Later a :=
  ⟨rfl, rfl, id, id, id⟩

theorem PortContext.Later.trans {a b c : PortContext} (h1 : a.Later b) (h2 : b.Later c) :
    a.Later c :=
  ⟨h2.port.trans h1.port, h2.bornDead.trans h1.bornDead, h2.terminated ∘ h1.terminated,
    h2.closed ∘ h1.closed, h2.settled ∘ h1.settled⟩

/-- Each object of the first arena is in the second one, later in its life. -/
def Kept {α : Type} (Later : α → α → Prop) (l l' : List α) : Prop :=
  ∀ (i : ℕ) (a : α), l[i]? = some a → ∃ b, l'[i]? = some b ∧ Later a b

section Kept
variable {α : Type} {Later : α → α → Prop}

theorem Kept.refl (hr : ∀ a, Later a a) (l : List α) : Kept Later l l :=
  fun _ a h => ⟨a, h, hr a⟩

theorem Kept.trans (ht : ∀ a b c, Later a b → Later b c → Later a c) {l l' l'' : List α}
    (h1 : Kept Later l l') (h2 : Kept Later l' l'') : Kept Later l l'' := by
  intro i a ha
  obtain ⟨b, hb, hab⟩ := h1 i a ha
  obtain ⟨c, hc, hbc⟩ := h2 i b hb
  exact ⟨c, hc, ht a b c hab hbc⟩

theorem Kept.set (hr : ∀ a, Later a a) {l : List α} {i : ℕ} {a b : α} (ha : l[i]? = some a)
    (hab : Later a b) : Kept Later l (l.set i b) := by
  intro j c hc
  have hi : i < l.length := (List.getElem?_eq_some_iff.mp ha).1
  by_cases hij : i = j
  · subst hij
    rw [ha, Option.some.injEq] at hc
    subst hc
    exact ⟨b, by simp [hi], hab⟩
  · exact ⟨c, by simpa [List.getElem?_set, hij] using hc, hr c⟩

theorem Kept.push (hr : ∀ a, Later a a) (l : List α) (b : α) : Kept Later l (l ++ [b]) :=
  fun _ a h => ⟨a, getElem?_push_of h, hr a⟩

end Kept

namespace Core

structure Later (s t : Core κ) : Prop where
  ports : Kept Port.Later s.ports t.ports
  contexts : Kept PortContext.Later s.contexts t.contexts
  accepted : s.accepted <:+ t.accepted
  refused : s.refused <:+ t.refused
  started : s.started <:+ t.started
  finished : s.finished <:+ t.finished

theorem Later.refl (s : Core κ) : s.Later s :=
  ⟨.refl Port.Later.refl _, .refl PortContext.Later.refl _, List.suffix_rfl, List.suffix_rfl,
    List.suffix_rfl, List.suffix_rfl⟩

theorem Later.trans {s t u : Core κ} (h1 : s.Later t) (h2 : t.Later u) : s.Later u :=
  ⟨@Kept.trans _ Port.Later (fun _ _ _ h h' => h.trans h') _ _ _ h1.ports h2.ports,
    @Kept.trans _ PortContext.Later (fun _ _ _ h h' => h.trans h') _ _ _ h1.contexts h2.contexts,
    h1.accepted.trans h2.accepted, h1.refused.trans h2.refused, h1.started.trans h2.started,
    h1.finished.trans h2.finished⟩

theorem Later.setPort {s : Core κ} {p : ℕ} {port port' : Port κ} (hp : s.ports[p]? = some port)
    (h : port.Later port') : s.Later (s.setPort p port') :=
  { Later.refl s with ports := .set Port.Later.refl hp h }

theorem Later.setContext {s : Core κ} {o : ℕ} {context context' : PortContext}
    (hc : s.contexts[o]? = some context) (h : context.Later context') :
    s.Later (s.setContext o context') :=
  { Later.refl s with contexts := .set PortContext.Later.refl hc h }

/-- What both ways of growing preserve is preserved. -/
theorem Grows.preserves {I : Core κ → Prop} {s t : Core κ} (h : s.Grows t)
    (hport : ∀ u mode, I u → I (u.newPort mode))
    (hcontext : ∀ u p port, u.ports[p]? = some port → I u → I (u.newContext p port))
    (hs : I s) : I t := by
  induction h with
  | refl => exact hs
  | port mode _ ih => exact hport _ mode ih
  | context _ hp ih => exact hcontext _ _ _ hp ih

theorem Later.newPort (s : Core κ) (mode : DispatchMode) : s.Later (s.newPort mode) :=
  { Later.refl s with ports := .push Port.Later.refl _ _ }

theorem Later.newContext {s : Core κ} {p : ℕ} {port : Port κ} (hp : s.ports[p]? = some port) :
    s.Later (s.newContext p port) := by
  have h1 : s.Later (s.setState p port port.state.addContext) :=
    .setPort hp (.of_state port rfl)
  have h2 : (s.setState p port port.state.addContext).Later (s.newContext p port) :=
    { Later.refl _ with contexts := .push PortContext.Later.refl _ _ }
  exact h1.trans h2

theorem Later.known {s t : Core κ} (h : s.Later t) {o : ℕ} {context : PortContext}
    {port : Port κ} (hc : s.contexts[o]? = some context)
    (hp : s.ports[context.port]? = some port) :
    ∃ (context : PortContext) (port : Port κ), t.contexts[o]? = some context ∧
      t.ports[context.port]? = some port := by
  obtain ⟨context', hc', hl⟩ := h.contexts o context hc
  obtain ⟨port', hp', -⟩ := h.ports context.port port hp
  exact ⟨context', port', hc', hl.port ▸ hp'⟩

/-- Growth submits nothing and invokes nothing. -/
structure SameHistory (s t : Core κ) : Prop where
  next : t.nextTask = s.nextTask
  accepted : t.accepted = s.accepted
  refused : t.refused = s.refused
  started : t.started = s.started
  finished : t.finished = s.finished

theorem Grows.sameHistory {s t : Core κ} (h : s.Grows t) : s.SameHistory t :=
  h.preserves (I := fun u => s.SameHistory u) (fun _ _ h => ⟨h.1, h.2, h.3, h.4, h.5⟩)
    (fun _ _ _ _ h => ⟨h.1, h.2, h.3, h.4, h.5⟩) ⟨rfl, rfl, rfl, rfl, rfl⟩

theorem Grows.later {s t : Core κ} (h : s.Grows t) : s.Later t :=
  h.preserves (I := fun u => s.Later u) (fun u mode hu => hu.trans (.newPort u mode))
    (fun _ _ _ hp hu => hu.trans (.newContext hp)) (.refl s)

end Core

theorem CoreStep.later {body : κ → Bool → List γ} {s : Core κ} {f : Frame κ γ}
    {o : Outcome (Core κ) (Frame κ γ)} (h : CoreStep body s f o) : s.Later o.shared := by
  cases h with
  | clock | submitContext | submitDue | workerExit | delayed | dispatch | dispatchExit | batchNext
    | cancelNext | cancelWait | cancelReturn => exact { Core.Later.refl s with }
  | refuse => exact { Core.Later.refl s with refused := List.suffix_cons _ _ }
  | @acceptInline a task context port hc hp =>
    have hstart : port.Later { port with state := port.state.startInline } :=
      .of_state port rfl
    have hl := Core.Later.setPort hp hstart
    exact { hl with accepted := List.suffix_cons _ _ }
  | acceptDelayed => exact { Core.Later.refl s with accepted := List.suffix_cons _ _ }
  | @acceptQueued a task context port hc hp =>
    have hl := Core.Later.setPort hp (.of_state port
      (PortState.startWorkers_terminated (port.state.insert task) port.mode s.pool))
    exact { hl with accepted := List.suffix_cons _ _ }
  | invoke => exact { Core.Later.refl s with started := List.suffix_cons _ _ }
  | running => exact { Core.Later.refl s with finished := List.suffix_cons _ _ }
  | finishOne hp | workerTake hp | dispatchTake hp | drainReady hp =>
    exact .setPort hp (.of_state _ rfl)
  | @batchEnd d total port hp =>
    refine .setPort hp (.of_state _ ?_)
    simp only [PortState.finishN]
    split <;> rfl
  | terminate hc => exact .setContext hc ⟨rfl, rfl, fun _ => rfl, id, id⟩
  | @terminateContext owner owners a context port hc hp =>
    have hl : port.Later { port with state := (port.state.terminateContext owner).1 } :=
      ⟨rfl, fun ht => by simp [PortState.terminateContext, ht], id⟩
    have h1 := Core.Later.setPort hp hl
    exact h1.trans (.setContext hc ⟨rfl, rfl, id, fun _ => rfl, id⟩)
  | cancelDrain hc hp => exact .setPort hp ⟨rfl, id, fun _ => rfl⟩
  | awaitDrained hc => exact .setContext hc ⟨rfl, rfl, id, id, fun _ => rfl⟩

/-! ## What a step does to one port -/

/-- `owner` is a context on port `p`. -/
def Core.On (s : Core κ) (owner p : ℕ) : Prop :=
  ∃ context, s.contexts[owner]? = some context ∧ context.port = p

theorem Core.Later.on {s t : Core κ} (h : s.Later t) {owner p : ℕ} (ho : s.On owner p) :
    t.On owner p := by
  obtain ⟨context, hc, hp⟩ := ho
  obtain ⟨context', hc', hl⟩ := h.contexts owner context hc
  exact ⟨context', hc', hl.port.trans hp⟩

/-- All steps but those of a termination: the flags and the count of contexts stay, and a
callback that the port did not have was just submitted, to a port that is not terminated. -/
structure Port.Ordinary (s : Core κ) (f : Frame κ γ) (p : ℕ) (port port' : Port κ) : Prop where
  mode : port'.mode = port.mode
  drained : port'.drained = port.drained
  terminated : port'.state.terminated = port.state.terminated
  activeContexts : port'.state.activeContexts = port.state.activeContexts
  tasks : ∀ task ∈ port'.state.tasks, task ∈ port.state.tasks ∨
    port.state.terminated = false ∧ s.On task.owner p ∧ ∃ a, f = .submitPort a task false

theorem Port.Ordinary.refl (s : Core κ) (f : Frame κ γ) (p : ℕ) (port : Port κ) :
    port.Ordinary s f p port :=
  ⟨rfl, rfl, rfl, rfl, fun _ h => .inl h⟩

inductive PortStep (s : Core κ) (f : Frame κ γ) (p : ℕ) (port port' : Port κ) : Prop where
  | ordinary (h : port.Ordinary s f p port')
  | terminateContext (owner : ℕ) (owners : List ℕ) (a : Termination γ) (context : PortContext)
      (hf : f = .terminateContext owner owners a) (hc : s.contexts[owner]? = some context)
      (hp : context.port = p)
      (h : port' = { port with state := (port.state.terminateContext owner).1 })
  | cancelDrain (owner : ℕ) (owners : List ℕ) (a : Termination γ) (context : PortContext)
      (hf : f = .cancel owner [] true owners a) (hc : s.contexts[owner]? = some context)
      (hp : context.port = p)
      (h : port' = { port with state := port.state.drainRest.1, drained := true })

/-- A step that writes one port, seen from any port. -/
theorem PortStep.of_setPort {s t : Core κ} {f : Frame κ γ} {p q : ℕ} {port port' r : Port κ}
    (hr : t.ports[q]? = some r) (ht : t.ports = s.ports.set p port')
    (hp : s.ports[p]? = some port) (h : PortStep s f p port port') :
    ∃ port, s.ports[q]? = some port ∧ PortStep s f q port r := by
  rw [ht] at hr
  rcases getElem?_set_cases hr with ⟨rfl, rfl⟩ | ⟨-, hq⟩
  · exact ⟨port, hp, h⟩
  · exact ⟨r, hq, .ordinary (.refl s f q r)⟩

theorem CoreStep.port_cases {body : κ → Bool → List γ} {s : Core κ} {f : Frame κ γ}
    {o : Outcome (Core κ) (Frame κ γ)} (h : CoreStep body s f o) {p : ℕ} {port' : Port κ}
    (hp' : o.shared.ports[p]? = some port') :
    ∃ port, s.ports[p]? = some port ∧ PortStep s f p port port' := by
  cases h with
  | clock | submitContext | submitDue | refuse | acceptDelayed | invoke | running | workerExit
    | delayed | dispatch | dispatchExit | batchNext | terminate | cancelNext | cancelWait
    | cancelReturn | awaitDrained => exact ⟨port', hp', .ordinary (.refl s _ p port')⟩
  | acceptInline hc hp | finishOne hp =>
    exact PortStep.of_setPort hp' rfl hp (.ordinary ⟨rfl, rfl, rfl, rfl, fun _ h => .inl h⟩)
  | @acceptQueued a task context port hc hp ht =>
    refine PortStep.of_setPort hp' rfl hp (.ordinary ⟨rfl, rfl, ?_, ?_, ?_⟩)
    · exact PortState.startWorkers_terminated _ _ _
    · exact PortState.startWorkers_activeContexts _ _ _
    · intro other hm
      rw [PortState.startWorkers_tasks] at hm
      rcases List.mem_cons.mp ((port.state.insert_perm task).mem_iff.mp hm) with rfl | hold
      · exact .inr ⟨ht, ⟨context, hc, rfl⟩, a, rfl⟩
      · exact .inl hold
  | workerTake hp ht hl | dispatchTake hp ht hl =>
    refine PortStep.of_setPort hp' rfl hp (.ordinary ⟨rfl, rfl, rfl, rfl, ?_⟩)
    intro other hm
    exact .inl (hl ▸ List.mem_cons_of_mem _ hm)
  | @drainReady d port hp =>
    refine PortStep.of_setPort hp' rfl hp (.ordinary ⟨rfl, rfl, rfl, rfl, ?_⟩)
    intro task ht
    exact .inl (List.dropWhile_subset _ ht)
  | @batchEnd d total port hp =>
    have hs : port.state.finishN total = { port.state with
        dispatched := (port.state.finishN total).dispatched
        inFlight := (port.state.finishN total).inFlight } := by
      simp only [PortState.finishN]
      split <;> rfl
    refine PortStep.of_setPort hp' rfl hp (.ordinary ⟨rfl, rfl, ?_, ?_, ?_⟩)
    · rw [hs]
    · rw [hs]
    · rw [hs]
      exact fun _ h => .inl h
  | terminateContext hc hp =>
    exact PortStep.of_setPort hp' rfl hp (.terminateContext _ _ _ _ rfl hc rfl rfl)
  | cancelDrain hc hp => exact PortStep.of_setPort hp' rfl hp (.cancelDrain _ _ _ _ rfl hc rfl rfl)

/-! ## What a step does to one context -/

inductive ContextStep (s : Core κ) (f : Frame κ γ) (i : ℕ) (c c' : PortContext) : Prop where
  | same (h : c' = c)
  | terminate (owners : List ℕ) (a : Termination γ) (hf : f = .terminate (i :: owners) a)
      (h : c' = { c with terminated := true })
  | terminateContext (owners : List ℕ) (a : Termination γ) (hf : f = .terminateContext i owners a)
      (h : c' = { c with closed := true })
  | awaitDrained (owners : List ℕ) (a : Termination γ) (port : Port κ)
      (hf : f = .awaitDrained i owners a) (hp : s.ports[c.port]? = some port)
      (hz : port.state.inFlight = 0) (h : c' = { c with settled := true })

theorem ContextStep.of_setContext {s t : Core κ} {f : Frame κ γ} {i j : ℕ}
    {c c' d : PortContext} (hd : t.contexts[j]? = some d) (ht : t.contexts = s.contexts.set i c')
    (hc : s.contexts[i]? = some c) (h : ContextStep s f i c c') :
    ∃ c, s.contexts[j]? = some c ∧ ContextStep s f j c d := by
  rw [ht] at hd
  rcases getElem?_set_cases hd with ⟨rfl, rfl⟩ | ⟨-, hq⟩
  · exact ⟨c, hc, h⟩
  · exact ⟨d, hq, .same rfl⟩

theorem CoreStep.context_cases {body : κ → Bool → List γ} {s : Core κ} {f : Frame κ γ}
    {o : Outcome (Core κ) (Frame κ γ)} (h : CoreStep body s f o) {i : ℕ} {c' : PortContext}
    (hc' : o.shared.contexts[i]? = some c') :
    ∃ c, s.contexts[i]? = some c ∧ ContextStep s f i c c' := by
  cases h with
  | clock | submitContext | submitDue | refuse | acceptInline | acceptDelayed | acceptQueued
    | invoke | running | finishOne | workerExit | workerTake | delayed | dispatch | dispatchExit
    | dispatchTake | drainReady | batchNext | batchEnd | cancelNext | cancelDrain | cancelWait
    | cancelReturn => exact ⟨c', hc', .same rfl⟩
  | terminate hc => exact ContextStep.of_setContext hc' rfl hc (.terminate _ _ rfl rfl)
  | terminateContext hc => exact ContextStep.of_setContext hc' rfl hc (.terminateContext _ _ rfl rfl)
  | awaitDrained hc hp hz => exact ContextStep.of_setContext hc' rfl hc (.awaitDrained _ _ _ rfl hp hz rfl)

theorem ContextStep.later {s : Core κ} {f : Frame κ γ} {i : ℕ} {c c' : PortContext}
    (h : ContextStep s f i c c') : c.Later c' := by
  cases h with
  | same h => exact h ▸ .refl c
  | terminate owners a hf h => exact h ▸ ⟨rfl, rfl, fun _ => rfl, id, id⟩
  | terminateContext owners a hf h => exact h ▸ ⟨rfl, rfl, id, fun _ => rfl, id⟩
  | awaitDrained owners a port hf hp hz h => exact h ▸ ⟨rfl, rfl, id, id, fun _ => rfl⟩

variable {C : Client κ}

theorem Step.later {s : World C} {f : Frame κ C.Frame} {o : Outcome (World C) (Frame κ C.Frame)}
    (h : Step C s f o) : s.toCore.Later o.shared.toCore := by
  rcases h.outer_or_core with ⟨hg, -, -⟩ | ⟨o', ho, hs, -⟩
  · exact hg.later
  · rw [hs]
    exact ho.later

/-- Queues keep their contexts in every step. -/
theorem Step.sameContexts {s : World C} {f : Frame κ C.Frame}
    {o : Outcome (World C) (Frame κ C.Frame)} (h : Step C s f o) :
    SameContexts s.queues o.shared.queues := by
  cases h with
  | client hr ht => exact (applyAll_extends ht).2.1
  | registry h =>
    cases h with
    | notify hq ht => exact ht.2.1
    | notifyEnd hq => exact .set hq rfl rfl
    | _ => exact .refl _
  | core h => exact .refl _

theorem reaches_later {G : Guard (World C) (Frame κ C.Frame) (Option C.Choice)}
    {c c' : Config (World C) (Frame κ C.Frame)} (h : (machine C).Reaches G c c') :
    c.shared.toCore.Later c'.shared.toCore := by
  induction h with
  | refl => exact .refl _
  | tail _ hf ih =>
    obtain ⟨i, x, f, o, -, -, -, hs, h1, -⟩ := hf.cases
    rw [h1]
    exact ih.trans (step_inv hs).later

theorem reaches_sameContexts {G : Guard (World C) (Frame κ C.Frame) (Option C.Choice)}
    {c c' : Config (World C) (Frame κ C.Frame)} (h : (machine C).Reaches G c c') :
    SameContexts c.shared.queues c'.shared.queues := by
  induction h with
  | refl => exact .refl _
  | tail _ hf ih =>
    obtain ⟨i, x, f, o, -, -, -, hs, h1, -⟩ := hf.cases
    rw [h1]
    exact ih.trans (step_inv hs).sameContexts

end XGameRuntime.TaskQueue
