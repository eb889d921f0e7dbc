import XGameRuntime.TaskQueue.Callbacks
import XGameRuntime.TaskQueue.Placement

/-! # Counting the contexts of a port

`terminate_context` takes one off `active_contexts` whether or not its context was still live,
so the count is the number of live contexts only in runs where no context is terminated again
while its port has live ones. In those runs a port dies with its last live context, and a
callback is refused or canceled only if its own context was terminated, or made on a port that
was already dead.
-/

namespace XGameRuntime.TaskQueue
open Concurrency
set_option autoImplicit false

variable {κ γ : Type}

/-- How many contexts made on port `p` have not been through `terminate_context`. -/
def Core.live (s : Core κ) (p : ℕ) : ℕ :=
  s.contexts.countP fun context => decide (context.port = p) && !context.closed

/-- The condition that no terminator spends the count of another context: a context that is
closed already goes through `terminate_context` only where no context is live. -/
def spendsOwnCount {C : Client κ} : Guard (World C) (Frame κ C.Frame) (Option C.Choice) :=
  fun s _ f _ =>
    match f with
    | .terminateContext owner _ _ => ∀ context ∈ s.contexts[owner]?,
        context.closed = true → s.live context.port = 0
    | _ => True

instance {C : Client κ} (s : World C) (R : Multiset (Frame κ C.Frame)) (f : Frame κ C.Frame)
    (x : Option C.Choice) : Decidable (spendsOwnCount s R f x) :=
  match f with
  | .terminateContext owner _ _ => inferInstanceAs (Decidable (∀ context ∈ s.contexts[owner]?,
      context.closed = true → s.live context.port = 0))
  | .client _ | .clock | .notify .. | .notifying .. | .submitContext .. | .submitDue ..
  | .submitPort .. | .invoke .. | .running .. | .finishOne .. | .worker .. | .delayed ..
  | .dispatch .. | .dispatchWait .. | .drainReady .. | .dispatchBatch .. | .terminateQueue ..
  | .terminate .. | .cancel .. | .awaitDrained .. | .terminateReturn .. =>
      inferInstanceAs (Decidable True)

/-! ## The count -/

structure Counted (s : Core κ) (fs : Multiset (Frame κ γ)) : Prop where
  count : ∀ (p : ℕ) (port : Port κ), s.ports[p]? = some port →
    port.state.activeContexts = s.live p
  alive : ∀ (p : ℕ) (port : Port κ), s.ports[p]? = some port → port.state.terminated = false →
    ∀ (o : ℕ) (context : PortContext), s.contexts[o]? = some context → context.port = p →
      0 < s.live p
  dead : ∀ (p : ℕ) (port : Port κ), s.ports[p]? = some port → port.state.terminated = true →
    ∀ (o : ℕ) (context : PortContext), s.contexts[o]? = some context → context.port = p →
      context.bornDead = true ∨ context.closed = true
  flagged : ∀ (o : ℕ) (context : PortContext), s.contexts[o]? = some context →
    context.closed = true → context.terminated = true
  closing : ∀ owner owners a, Frame.terminateContext owner owners a ∈ fs →
    ∃ context, s.contexts[owner]? = some context ∧ context.terminated = true

theorem Core.live_setContext {s : Core κ} {o : ℕ} {context : PortContext}
    (hc : s.contexts[o]? = some context) (context' : PortContext) (p : ℕ) :
    (s.setContext o context').live p +
        (if decide (context.port = p) && !context.closed then 1 else 0) =
      s.live p + (if decide (context'.port = p) && !context'.closed then 1 else 0) :=
  countP_set_add _ context' hc

/-- A step leaves the number of live contexts alone unless it closes one. -/
theorem CoreStep.live {body : κ → Bool → List γ} {s : Core κ} {f : Frame κ γ}
    {o : Outcome (Core κ) (Frame κ γ)} (h : CoreStep body s f o)
    (hf : ∀ owner owners a, f ≠ .terminateContext owner owners a) (p : ℕ) :
    o.shared.live p = s.live p := by
  cases h with
  | terminate hc | awaitDrained hc =>
    exact Nat.add_right_cancel (Core.live_setContext hc _ p)
  | terminateContext => exact absurd rfl (hf _ _ _)
  | _ => rfl

/-- `spendsOwnCount`, for the frame of a core step. -/
def SpendsOwn (s : Core κ) (f : Frame κ γ) : Prop :=
  match f with
  | .terminateContext owner _ _ => ∀ context, s.contexts[owner]? = some context →
      context.closed = true → s.live context.port = 0
  | _ => True

section Step
variable {body : κ → Bool → List γ} {s : Core κ} {f : Frame κ γ}
  {o : Outcome (Core κ) (Frame κ γ)} {R : Multiset (Frame κ γ)}

theorem coreStep_closing (h : CoreStep body s f o) (hI : Counted s (f ::ₘ R)) (owner : ℕ)
    (owners : List ℕ) (a : Termination γ)
    (hm : Frame.terminateContext owner owners a ∈ o.frames + R) :
    ∃ context, o.shared.contexts[owner]? = some context ∧ context.terminated = true := by
  rcases Multiset.mem_add.mp hm with ho | hR
  · cases h with
    | @terminate owner₂ owners₂ a₂ context hc =>
      simp only [Outcome.frames, List.flatten_nil, List.append_nil, Multiset.mem_coe,
        List.mem_singleton, Frame.terminateContext.injEq] at ho
      obtain ⟨rfl, -, -⟩ := ho
      have hi : owner < s.contexts.length := (List.getElem?_eq_some_iff.mp hc).1
      exact ⟨_, by simp [Core.setContext, hi]; rfl, rfl⟩
    | _ => simp [Outcome.frames] at ho
  · obtain ⟨context, hc, ht⟩ := hI.closing owner owners a (Multiset.mem_cons_of_mem hR)
    obtain ⟨context', hc', hl⟩ := h.later.contexts owner context hc
    exact ⟨context', hc', hl.terminated ht⟩

theorem coreStep_flagged (h : CoreStep body s f o) (hI : Counted s (f ::ₘ R)) (i : ℕ)
    (context' : PortContext) (hc' : o.shared.contexts[i]? = some context')
    (hcl : context'.closed = true) : context'.terminated = true := by
  obtain ⟨context, hc, hs⟩ := h.context_cases hc'
  cases hs with
  | same he => exact hI.flagged i context' (he ▸ hc) hcl
  | terminate owners a hf he => rw [he]
  | terminateContext owners a hf he =>
    subst hf
    obtain ⟨context₂, hc₂, ht⟩ := hI.closing i owners a (Multiset.mem_cons_self _ _)
    rw [hc, Option.some.injEq] at hc₂
    subst hc₂
    rw [he]
    exact ht
  | awaitDrained owners a port hf hp hz he =>
    rw [he] at hcl ⊢
    exact hI.flagged i context hc hcl

/-- What `terminate_context` does to the count: it closes a live context, or none is live and
the flag has long been set. -/
theorem terminateContext_live {owner : ℕ} {owners : List ℕ} {a : Termination γ}
    {context : PortContext} {port : Port κ} (hc : s.contexts[owner]? = some context)
    (hp : s.ports[context.port]? = some port)
    (hg : context.closed = true → s.live context.port = 0)
    (hI : Counted s (.terminateContext owner owners a ::ₘ R)) :
    (s.live context.port =
        (s.setContext owner { context with closed := true }).live context.port + 1) ∨
      (s.live context.port = 0 ∧
        (s.setContext owner { context with closed := true }).live context.port = 0 ∧
        port.state.terminated = true) := by
  have hl := Core.live_setContext hc { context with closed := true } context.port
  cases hcl : context.closed with
  | false =>
    left
    simp only [hcl, decide_true, Bool.not_false, Bool.not_true, Bool.and_true, Bool.and_false,
      if_true, Bool.false_eq_true, if_false] at hl
    omega
  | true =>
    right
    have hz := hg hcl
    simp only [hcl, Bool.not_true, Bool.and_false, Bool.false_eq_true, if_false] at hl
    refine ⟨hz, by omega, ?_⟩
    cases ht : port.state.terminated with
    | true => rfl
    | false =>
      have ha := hI.alive context.port port hp ht owner context hc rfl
      omega

theorem coreStep_count (h : CoreStep body s f o) (hg : SpendsOwn s f)
    (hI : Counted s (f ::ₘ R)) (p : ℕ) (port' : Port κ) (hp' : o.shared.ports[p]? = some port') :
    port'.state.activeContexts = o.shared.live p := by
  by_cases hf : ∃ owner owners a, f = .terminateContext owner owners a
  · obtain ⟨owner, owners, a, rfl⟩ := hf
    cases h with
    | @terminateContext _ _ _ context port hc hp =>
      have hl := terminateContext_live hc hp (hg context hc) hI
      have ha := hI.count context.port port hp
      have hlive : ∀ q, ((s.setState context.port port
          (port.state.terminateContext owner).1).setContext owner
            { context with closed := true }).live q =
          (s.setContext owner { context with closed := true }).live q := fun _ => rfl
      rw [hlive]
      rcases getElem?_set_cases hp' with ⟨rfl, rfl⟩ | ⟨hne, hp'⟩
      · simp only [PortState.terminateContext]
        split <;> omega
      · have hother := Core.live_setContext hc { context with closed := true } p
        simp only [hne, decide_false, Bool.false_and] at hother
        rw [hI.count p port' hp']
        omega
  · have hl : o.shared.live p = s.live p :=
      h.live (fun owner owners a he => hf ⟨owner, owners, a, he⟩) p
    obtain ⟨port, hp, hs⟩ := h.port_cases hp'
    rw [hl, ← hI.count p port hp]
    cases hs with
    | ordinary ho => exact ho.activeContexts
    | terminateContext owner owners a context he => exact absurd ⟨owner, owners, a, he⟩ hf
    | cancelDrain owner owners a context he hc hpp hport =>
      subst hport
      rfl

theorem Core.live_eq_zero {s : Core κ} {p : ℕ} (h : s.live p = 0) {o : ℕ} {context : PortContext}
    (hc : s.contexts[o]? = some context) (hp : context.port = p) : context.closed = true := by
  have hz := List.countP_eq_zero.mp h context (List.mem_of_getElem? hc)
  simpa [hp] using hz

theorem coreStep_dead (h : CoreStep body s f o) (hg : SpendsOwn s f) (hI : Counted s (f ::ₘ R)) (p : ℕ)
    (port' : Port κ) (hp' : o.shared.ports[p]? = some port')
    (ht' : port'.state.terminated = true) (i : ℕ) (context' : PortContext)
    (hc' : o.shared.contexts[i]? = some context') (hon : context'.port = p) :
    context'.bornDead = true ∨ context'.closed = true := by
  obtain ⟨context, hc, hs⟩ := h.context_cases hc'
  obtain ⟨port, hp, hps⟩ := h.port_cases hp'
  have hpc : context.port = p := hs.later.port.symm.trans hon
  by_cases ht : port.state.terminated = true
  · exact (hI.dead p port hp ht i context hc hpc).imp
      (fun hb => hs.later.bornDead.trans hb) hs.later.closed
  · right
    cases hps with
    | ordinary ho => exact absurd (ho.terminated.symm.trans ht') ht
    | terminateContext owner owners a context₂ he hc₂ hpp hport =>
      refine Core.live_eq_zero ?_ hc' hon
      rw [← coreStep_count h hg hI p port' hp', hport]
      subst hport
      simp only [PortState.terminateContext] at ht' ⊢
      simpa [ht] using ht'
    | cancelDrain owner owners a context₂ he hc₂ hpp hport =>
      subst hport
      exact absurd ht' ht

theorem coreStep_alive (h : CoreStep body s f o) (hg : SpendsOwn s f)
    (hI : Counted s (f ::ₘ R)) (p : ℕ) (port' : Port κ) (hp' : o.shared.ports[p]? = some port')
    (ht' : port'.state.terminated = false) (i : ℕ) (context' : PortContext)
    (hc' : o.shared.contexts[i]? = some context') (hon : context'.port = p) :
    0 < o.shared.live p := by
  obtain ⟨context, hc, hs⟩ := h.context_cases hc'
  obtain ⟨port, hp, hps⟩ := h.port_cases hp'
  have hpc : context.port = p := hs.later.port.symm.trans hon
  have hcount := coreStep_count h hg hI p port' hp'
  have hold := hI.count p port hp
  cases hps with
  | ordinary ho =>
    have ha := hI.alive p port hp (ho.terminated.symm.trans ht') i context hc hpc
    rw [← hcount, ho.activeContexts, hold]
    exact ha
  | terminateContext owner owners a context₂ he hc₂ hpp hport =>
    subst hport
    rw [← hcount]
    simp only [PortState.terminateContext, Bool.or_eq_false_iff, Bool.and_eq_false_iff,
      decide_eq_false_iff_not, Bool.not_eq_false'] at ht' ⊢
    obtain ⟨h1, h2 | h2⟩ := ht'
    · exact Nat.pos_of_ne_zero h2
    · simp [h1] at h2
  | cancelDrain owner owners a context₂ he hc₂ hpp hport =>
    subst hport
    rw [← hcount]
    exact hold ▸ hI.alive p port hp ht' i context hc hpc

theorem coreStep_counted (h : CoreStep body s f o) (hg : SpendsOwn s f)
    (hI : Counted s (f ::ₘ R)) : Counted o.shared (o.frames + R) :=
  ⟨coreStep_count h hg hI, coreStep_alive h hg hI, coreStep_dead h hg hI, coreStep_flagged h hI,
    coreStep_closing h hI⟩

end Step

/-! ## Growth -/

theorem Core.live_newContext (s : Core κ) (q : ℕ) (port : Port κ) (p : ℕ) :
    (s.newContext q port).live p = s.live p + if q = p then 1 else 0 := by
  simp [Core.live, Core.newContext, List.countP_append, List.countP_cons]

theorem Counted.newPort {s : Core κ} {fs : Multiset (Frame κ γ)} (mode : DispatchMode)
    (hp : Placed s fs) (hI : Counted s fs) : Counted (s.newPort mode) fs := by
  refine ⟨?_, ?_, ?_, hI.flagged, hI.closing⟩
  · intro p port' hport
    rcases getElem?_push_cases hport with hport | ⟨rfl, rfl⟩
    · exact hI.count p port' hport
    · symm
      refine List.countP_eq_zero.mpr ?_
      intro context hm
      obtain ⟨o, ho⟩ := List.getElem?_of_mem hm
      obtain ⟨port, hport⟩ := hp.context o context ho
      have hlt := (List.getElem?_eq_some_iff.mp hport).1
      simp [Nat.ne_of_lt hlt]
  · intro p port' hport ht o context hc hon
    rcases getElem?_push_cases hport with hport | ⟨rfl, rfl⟩
    · exact hI.alive p port' hport ht o context hc hon
    · obtain ⟨port, hport⟩ := hp.context o context hc
      have hlt := (List.getElem?_eq_some_iff.mp hport).1
      omega
  · intro p port' hport ht
    rcases getElem?_push_cases hport with hport | ⟨rfl, rfl⟩
    · exact hI.dead p port' hport ht
    · simp at ht

/-- A port after a context was made on some port, as it was before. -/
theorem Core.port_of_newContext {s : Core κ} {q : ℕ} {port : Port κ} (hq : s.ports[q]? = some port)
    {p : ℕ} {port' : Port κ} (hp' : (s.newContext q port).ports[p]? = some port') :
    ∃ old, s.ports[p]? = some old ∧ port'.state.terminated = old.state.terminated ∧
      port'.state.activeContexts = old.state.activeContexts + if q = p then 1 else 0 := by
  rcases getElem?_set_cases hp' with ⟨rfl, rfl⟩ | ⟨hne, hp'⟩
  · exact ⟨port, hq, rfl, by simp [PortState.addContext]⟩
  · exact ⟨port', hp', rfl, by simp [hne]⟩

theorem Counted.newContext {s : Core κ} {fs : Multiset (Frame κ γ)} {q : ℕ} {port : Port κ}
    (hq : s.ports[q]? = some port) (hI : Counted s fs) : Counted (s.newContext q port) fs := by
  refine ⟨?_, ?_, ?_, ?_, ?_⟩
  · intro p port' hp'
    obtain ⟨old, hold, -, ha⟩ := Core.port_of_newContext hq hp'
    rw [Core.live_newContext, ha, hI.count p old hold]
  · intro p port' hp' ht o context hc hon
    obtain ⟨old, hold, hterm, -⟩ := Core.port_of_newContext hq hp'
    rw [Core.live_newContext]
    rcases getElem?_push_cases hc with hc | ⟨-, rfl⟩
    · have ha := hI.alive p old hold (hterm.symm.trans ht) o context hc hon
      omega
    · simp only at hon
      simp [hon]
  · intro p port' hp' ht o context hc hon
    obtain ⟨old, hold, hterm, -⟩ := Core.port_of_newContext hq hp'
    rcases getElem?_push_cases hc with hc | ⟨-, rfl⟩
    · exact hI.dead p old hold (hterm.symm.trans ht) o context hc hon
    · left
      simp only at hon
      subst hon
      rw [hq, Option.some.injEq] at hold
      subst hold
      exact hterm.symm.trans ht
  · intro o context hc hcl
    rcases getElem?_push_cases hc with hc | ⟨-, rfl⟩
    · exact hI.flagged o context hc hcl
    · simp at hcl
  · intro owner owners a hm
    obtain ⟨context, hc, ht⟩ := hI.closing owner owners a hm
    exact ⟨context, getElem?_push_of hc, ht⟩

theorem Counted.outer {s : Core κ} {f : Frame κ γ} {fs R : Multiset (Frame κ γ)}
    (hf : f.isOuter = true) (ho : ∀ g ∈ fs, g.isOuter = true) (hI : Counted s (f ::ₘ R)) :
    Counted s (fs + R) :=
  ⟨hI.count, hI.alive, hI.dead, hI.flagged,
    fun owner owners a hm => hI.closing owner owners a ((mem_outer hf ho rfl).mp hm)⟩

/-! ## Refused and canceled callbacks -/

/-- Context `owner` was terminated, or its port was dead when it was made. -/
def Core.Doomed (s : Core κ) (owner : ℕ) : Prop :=
  ∃ context, s.contexts[owner]? = some context ∧
    (context.terminated = true ∨ context.bornDead = true)

theorem Core.Later.doomed {s t : Core κ} (h : s.Later t) {owner : ℕ} (hd : s.Doomed owner) :
    t.Doomed owner := by
  obtain ⟨context, hc, hx⟩ := hd
  obtain ⟨context', hc', hl⟩ := h.contexts owner context hc
  exact ⟨context', hc', hx.imp hl.terminated fun hb => hl.bornDead.trans hb⟩

/-- What a frame is about to refuse or cancel belongs to a doomed context. -/
def Frame.DoomSound (s : Core κ) : Frame κ γ → Prop
  | .submitDue _ owner ownerTerminated => ownerTerminated = true → s.Doomed owner
  | .submitPort _ task ownerTerminated => ownerTerminated = true → s.Doomed task.owner
  | .invoke task canceled => canceled = true → s.Doomed task.owner
  | .terminateContext owner _ _ => s.Doomed owner
  | .cancel _ pending _ _ _ => ∀ task ∈ pending, s.Doomed task.owner
  | _ => True

structure DoomSound (s : Core κ) (fs : Multiset (Frame κ γ)) : Prop where
  refused : ∀ task ∈ s.refused, s.Doomed task.owner
  canceled : ∀ call ∈ s.started, call.2 = true → s.Doomed call.1.owner
  frames : ∀ f ∈ fs, f.DoomSound s

theorem Frame.DoomSound.later {s t : Core κ} (h : s.Later t) {f : Frame κ γ}
    (hf : f.DoomSound s) : f.DoomSound t := by
  cases f with
  | submitDue | submitPort | invoke => exact fun hx => h.doomed (hf hx)
  | terminateContext => exact h.doomed hf
  | cancel => exact fun task ht => h.doomed (hf task ht)
  | _ => trivial

theorem Frame.DoomSound.outer {s : Core κ} {f : Frame κ γ} (h : f.isOuter = true) :
    f.DoomSound s := by
  cases f with
  | submitDue | submitPort | invoke | terminateContext | cancel => simp [Frame.isOuter] at h
  | _ => trivial

/-- Every context on a terminated port is doomed. -/
theorem Counted.doomed {s : Core κ} {fs : Multiset (Frame κ γ)} (hI : Counted s fs) {p : ℕ}
    {port : Port κ} (hp : s.ports[p]? = some port) (ht : port.state.terminated = true)
    {owner : ℕ} (ho : s.On owner p) : s.Doomed owner := by
  obtain ⟨context, hc, hcp⟩ := ho
  refine ⟨context, hc, ?_⟩
  rcases hI.dead p port hp ht owner context hc hcp with hb | hcl
  · exact .inr hb
  · exact .inl (hI.flagged owner context hc hcl)

section Doom
variable {body : κ → Bool → List γ} {s : Core κ} {f : Frame κ γ}
  {o : Outcome (Core κ) (Frame κ γ)} {R : Multiset (Frame κ γ)}

theorem coreStep_frames_doomSound (h : CoreStep body s f o) (hC : Counted s (f ::ₘ R))
    (hP : Placed s (f ::ₘ R)) (hD : DrainSound s (f ::ₘ R)) (hI : f.DoomSound s) :
    ∀ g ∈ o.frames, g.DoomSound o.shared := by
  have hl := h.later
  have hf := hI.later hl
  rw [forall_frames]
  cases h with
  | @submitContext a owner context hc =>
    have hd : context.terminated = true → s.Doomed owner := fun ht => ⟨context, hc, .inl ht⟩
    simpa [Frame.DoomSound] using hd
  | @submitDue a owner ownerTerminated due hd => simpa [Frame.DoomSound] using hf
  | @delayed p task port hp =>
    have hd : port.state.terminated = true → s.Doomed task.owner := fun ht =>
      hC.doomed hp ht (hP.frames _ (Multiset.mem_cons_self _ _))
    simpa [Frame.DoomSound] using hd
  | @terminate owner owners a context hc =>
    have hi : owner < s.contexts.length := (List.getElem?_eq_some_iff.mp hc).1
    have hd : (s.setContext owner { context with terminated := true }).Doomed owner :=
      ⟨_, by simp [Core.setContext, hi]; rfl, .inl rfl⟩
    simpa [Frame.DoomSound] using hd
  | @terminateContext owner owners a context port hc hp =>
    simp only [List.forall_mem_singleton, List.not_mem_nil, false_imp_iff, implies_true, and_true,
      Frame.DoomSound]
    intro task ht
    have ho : task.owner = owner := by simpa using (List.mem_filter.mp ht).2
    rw [ho]
    exact hf
  | @cancelNext owner task rest drainRest owners a =>
    simp only [Frame.DoomSound, List.forall_mem_cons] at hf ⊢
    simpa using hf
  | @cancelDrain owner owners a context port hc hp =>
    simp only [List.forall_mem_singleton, List.not_mem_nil, false_imp_iff, implies_true, and_true,
      Frame.DoomSound]
    intro task ht
    have hterm := hD.draining context.port port
      ⟨owner, [], owners, a, context, Multiset.mem_cons_self _ _, hc, rfl⟩ hp
    exact hl.doomed (hC.doomed hp hterm (hP.queued context.port port hp task ht))
  | _ =>
    simp only [List.forall_mem_cons, List.forall_mem_append, List.forall_mem_map, Frame.DoomSound]
    simp

theorem coreStep_doomSound (h : CoreStep body s f o) (hC : Counted s (f ::ₘ R))
    (hP : Placed s (f ::ₘ R)) (hD : DrainSound s (f ::ₘ R)) (hI : DoomSound s (f ::ₘ R)) :
    DoomSound o.shared (o.frames + R) := by
  have hl := h.later
  have hf := hI.frames f (Multiset.mem_cons_self f R)
  refine ⟨?_, ?_, ?_⟩
  · have hold : ∀ task ∈ s.refused, o.shared.Doomed task.owner :=
      fun task ht => hl.doomed (hI.refused task ht)
    cases h with
    | @refuse a task ownerTerminated context port hc hp ht =>
      refine List.forall_mem_cons.mpr ⟨?_, hold⟩
      rcases ht with ht | ht
      · exact hl.doomed (hC.doomed hp ht ⟨context, hc, rfl⟩)
      · exact hl.doomed (hf ht)
    | _ => exact hold
  · have hold : ∀ call ∈ s.started, call.2 = true → o.shared.Doomed call.1.owner :=
      fun call hm ht => hl.doomed (hI.canceled call hm ht)
    cases h with
    | @invoke task canceled => exact List.forall_mem_cons.mpr ⟨fun ht => hl.doomed (hf ht), hold⟩
    | _ => exact hold
  · intro g hg
    rcases Multiset.mem_add.mp hg with ho | hR
    · exact coreStep_frames_doomSound h hC hP hD hf g ho
    · exact (hI.frames g (Multiset.mem_cons_of_mem hR)).later hl

end Doom

theorem Core.Grows.doomSound {s t : Core κ} {f : Frame κ γ} {fs R : Multiset (Frame κ γ)}
    (h : s.Grows t) (ho : ∀ g ∈ fs, g.isOuter = true) (hI : DoomSound s (f ::ₘ R)) :
    DoomSound t (fs + R) := by
  have hl := h.later
  refine ⟨?_, ?_, ?_⟩
  · rw [h.sameHistory.refused]
    exact fun task ht => hl.doomed (hI.refused task ht)
  · rw [h.sameHistory.started]
    exact fun call hm ht => hl.doomed (hI.canceled call hm ht)
  · intro g hg
    rcases Multiset.mem_add.mp hg with hg | hR
    · exact .outer (ho g hg)
    · exact (hI.frames g (Multiset.mem_cons_of_mem hR)).later hl

/-! ## The specification -/

section Specification
variable {C : Client κ} {c₀ c : Config (World C) (Frame κ C.Frame)}

theorem spendsOwnCount.core {s : World C} {R : Multiset (Frame κ C.Frame)} {f : Frame κ C.Frame}
    {x : Option C.Choice} (h : spendsOwnCount s R f x) : SpendsOwn s.toCore f := by
  cases f with
  | terminateContext => exact h
  | _ => trivial

theorem Initial.counted (h0 : Initial C c₀) (h : (machine C).Reaches spendsOwnCount c₀ c) :
    Counted c.shared.toCore c.frames := by
  refine h.invariant (I := fun s fs => Counted s.toCore fs)
    (J := fun s fs => Placed s.toCore fs) (fun _ h => h0.placed h) ?_ ?_
  · obtain ⟨pool, now, hq⟩ := h0.queues
    rw [hq]
    refine ⟨fun p port hp => by simp at hp, fun p port hp => by simp at hp,
      fun p port hp => by simp at hp, fun o context hc => by simp at hc, ?_⟩
    intro owner owners a hm
    have hf := h0.outer _ hm
    simp [Frame.isOuter] at hf
  · intro s f R x o hg hP hI hs
    rcases (step_inv hs).outer_or_core with ⟨hgr, hf, ho⟩ | ⟨o', ho', hsh, hfr⟩
    · have hboth := hgr.preserves (I := fun u => Placed u (o.frames + R) ∧ Counted u (o.frames + R))
        (fun _ mode h => ⟨h.1.newPort mode, h.2.newPort mode h.1⟩)
        (fun _ _ _ hp h => ⟨h.1.newContext hp, h.2.newContext hp⟩) ⟨hP.outer ho, hI.outer hf ho⟩
      exact hboth.2
    · rw [hsh, hfr]
      exact coreStep_counted ho' hg.core hI

theorem Initial.doomSound (h0 : Initial C c₀) (h : (machine C).Reaches spendsOwnCount c₀ c) :
    DoomSound c.shared.toCore c.frames := by
  refine h.invariant (I := fun s fs => DoomSound s.toCore fs)
    (J := fun s fs => Counted s.toCore fs ∧ Placed s.toCore fs ∧ DrainSound s.toCore fs)
    (fun _ h => ⟨h0.counted h, h0.placed h, h0.drainSound h⟩) ?_ ?_
  · obtain ⟨pool, now, hq⟩ := h0.queues
    rw [hq]
    exact ⟨by simp, by simp, fun f hf => .outer (h0.outer f hf)⟩
  · intro s f R x o hg hJ hI hs
    rcases (step_inv hs).outer_or_core with ⟨hgr, -, ho⟩ | ⟨o', ho', hsh, hfr⟩
    · exact hgr.doomSound ho hI
    · rw [hsh, hfr]
      exact coreStep_doomSound ho' hJ.1 hJ.2.1 hJ.2.2 hI

theorem Core.Grows.live_le {s t : Core κ} (h : s.Grows t) (p : ℕ) : s.live p ≤ t.live p :=
  h.preserves (I := fun u => s.live p ≤ u.live p) (fun _ _ h => h)
    (fun u q port _ h => by rw [Core.live_newContext]; omega) le_rfl

/-- A step that keeps the count of live contexts up sets no flag, and one that brings it to
zero does. -/
theorem coreStep_flag {body : κ → Bool → List γ} {s : Core κ} {f : Frame κ γ}
    {o : Outcome (Core κ) (Frame κ γ)} {R : Multiset (Frame κ γ)} (h : CoreStep body s f o)
    (hg : SpendsOwn s f) (hI : Counted s (f ::ₘ R)) {p : ℕ} {port port' : Port κ} (hp : s.ports[p]? = some port)
    (hp' : o.shared.ports[p]? = some port') (ht : port.state.terminated = false) :
    port'.state.terminated = true ↔ 0 < s.live p ∧ o.shared.live p = 0 := by
  obtain ⟨port₂, hp₂, hs⟩ := h.port_cases hp'
  rw [hp, Option.some.injEq] at hp₂
  subst hp₂
  have hcount := coreStep_count h hg hI p port' hp'
  cases hs with
  | ordinary ho =>
    have hl : s.live p = o.shared.live p := by
      rw [← hI.count p port hp, ← hcount, ho.activeContexts]
    rw [ho.terminated, ht, hl]
    simp only [Bool.false_eq_true, false_iff]
    omega
  | terminateContext owner owners a context hf hc hpp hport =>
    subst hf hpp
    have hl := terminateContext_live hc hp (hg context hc) hI
    have ha := hI.count context.port port hp
    simp only [ht, Bool.false_eq_true, and_false, or_false] at hl
    subst hport
    rw [← hcount]
    simp only [PortState.terminateContext, ht, Bool.false_or, Bool.not_false, Bool.and_true,
      decide_eq_true_eq]
    omega
  | cancelDrain owner owners a context hf hc hpp hport =>
    have hl : s.live p = o.shared.live p := by
      rw [← hI.count p port hp, ← hcount, hport]
      rfl
    subst hport
    rw [hl]
    simp only [PortState.drainRest, ht, Bool.false_eq_true, false_iff]
    omega

/-- Context counting on shared ports, in runs where no terminator spends another context's count:
the count is the number of live contexts, the flag is set by the step that closes the last of
them, and a callback is refused or canceled only if its context was terminated or made on a dead
port. -/
theorem active_contexts_counts_live (h0 : Initial C c₀)
    (h : (machine C).Reaches spendsOwnCount c₀ c) :
    (∀ (p : ℕ) (port : Port κ), c.shared.ports[p]? = some port →
      port.state.activeContexts = c.shared.live p) ∧
    (∀ c', (machine C).Fires spendsOwnCount c c' → ∀ (p : ℕ) (port port' : Port κ),
      c.shared.ports[p]? = some port → c'.shared.ports[p]? = some port' →
      port.state.terminated = false →
        (port'.state.terminated = true ↔ 0 < c.shared.live p ∧ c'.shared.live p = 0)) ∧
    (∀ task ∈ c.shared.refused, c.shared.Doomed task.owner) ∧
    (∀ call ∈ c.shared.started, call.2 = true → c.shared.Doomed call.1.owner) := by
  have hC := h0.counted h
  have hD := h0.doomSound h
  refine ⟨hC.count, ?_, hD.refused, hD.canceled⟩
  intro c' hfire p port port' hp hp' ht
  obtain ⟨i, x, f, o, -, hfr, hg, hs, h1, -⟩ := hfire.cases
  rw [hfr] at hC
  rw [h1] at hp' ⊢
  rcases (step_inv hs).outer_or_core with ⟨hgr, -, -⟩ | ⟨o', ho', hsh, -⟩
  · have hle := hgr.live_le p
    have hterm : port'.state.terminated = false := by
      rcases hgr.port_cases hp' with ⟨mode, he⟩ | ⟨old, hold, he⟩
      · rw [he]
      · rw [hp, Option.some.injEq] at hold
        subst hold
        rw [he]
        exact ht
    rw [hterm]
    simp only [Bool.false_eq_true, false_iff]
    omega
  · rw [hsh] at hp' ⊢
    exact coreStep_flag ho' hg.core hC hp hp' ht

end Specification

/-- A composite queue on the ports of another one: the calls that make it. -/
def compositeOfManual : List (ℕ × Option GameChoice) :=
  [QueueGame.call (.create 0 0 true)] ++ QueueGame.steps 1 1 ++
    [QueueGame.call (.getPort 1 0 true)] ++ QueueGame.steps 1 1 ++
    [QueueGame.call (.getPort 1 1 true)] ++ QueueGame.steps 1 1 ++
    [QueueGame.call (.createComposite 1 2 true)] ++ QueueGame.steps 1 1

/-- The composite is terminated: its source keeps the count of its own context, and a callback
submitted through the source is accepted. -/
theorem active_contexts_counts_live_composite :
    ∃ c, (machine QueueGame).Reaches spendsOwnCount (QueueGame.start 2 1) c ∧
      (c.shared.live 0 = 1 ∧ c.shared.accepted.map Task.owner = [0]) ∧
      (∀ (p : ℕ) (port : Port ℕ), c.shared.ports[p]? = some port →
        port.state.activeContexts = c.shared.live p) := by
  have h : ((machine QueueGame).run spendsOwnCount (compositeOfManual ++
      [QueueGame.call (.terminate 2 true [])] ++ QueueGame.steps 1 12 ++
      [QueueGame.call (.submitDelayedCallback 1 0 0 (some 7))] ++ QueueGame.steps 1 5)
      (QueueGame.start 2 1)).any (fun c => decide (c.shared.live 0 = 1 ∧
        c.shared.accepted.map Task.owner = [0])) = true := by
    decide +kernel
  obtain ⟨c, hr, hc⟩ := Machine.Reaches.of_run_any h
  exact ⟨c, hr, of_decide_eq_true hc, (active_contexts_counts_live (QueueGame.initial 2 1) hr).1⟩

/-- The composite is terminated twice: that spends the count of its source, whose context is live,
and a callback submitted through the source is refused. -/
theorem active_contexts_spent_twice :
    ∃ c, (machine QueueGame).Reaches anyStep (QueueGame.start 2 1) c ∧
      c.shared.ports.map (fun port => port.state.activeContexts) = [0, 0] ∧
      c.shared.live 0 = 1 ∧ ∃ task ∈ c.shared.refused, ¬ c.shared.Doomed task.owner := by
  have h : ((machine QueueGame).run anyStep (compositeOfManual ++
      [QueueGame.call (.terminate 2 true [])] ++ QueueGame.steps 1 12 ++
      [QueueGame.call (.terminate 2 true [])] ++ QueueGame.steps 1 14 ++
      [QueueGame.call (.submitDelayedCallback 1 0 0 (some 7))] ++ QueueGame.steps 1 5)
      (QueueGame.start 2 1)).any (fun c => decide (
        c.shared.ports.map (fun port => port.state.activeContexts) = [0, 0] ∧
        c.shared.live 0 = 1 ∧ c.shared.refused.map Task.owner = [0] ∧
        c.shared.contexts[0]? = some ⟨0, false, false, false, false⟩)) = true := by
    decide +kernel
  obtain ⟨c, hr, hc⟩ := Machine.Reaches.of_run_any h
  obtain ⟨hactive, hlive, hrefused, hcontext⟩ := of_decide_eq_true hc
  refine ⟨c, hr, hactive, hlive, ?_⟩
  obtain ⟨task, hm, ho⟩ := List.mem_map.mp (hrefused ▸ List.mem_singleton_self 0 :
    0 ∈ c.shared.refused.map Task.owner)
  refine ⟨task, hm, ?_⟩
  rintro ⟨context, hc, hx⟩
  rw [ho, hcontext, Option.some.injEq] at hc
  subst hc
  simp at hx

end XGameRuntime.TaskQueue
