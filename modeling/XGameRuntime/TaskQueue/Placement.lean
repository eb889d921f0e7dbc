import XGameRuntime.TaskQueue.History

/-! # Contexts and ports belong together

A context's port exists, and the callbacks that wait on a port, or were taken from it, were
submitted through contexts on that port.
-/

namespace XGameRuntime.TaskQueue
open Concurrency
set_option autoImplicit false

variable {κ γ : Type}

/-- The callbacks that a frame has taken from a port are those of contexts on that port. -/
def Frame.Placed (s : Core κ) : Frame κ γ → Prop
  | .delayed p task => s.On task.owner p
  | .dispatchBatch d batch _ => ∀ task ∈ batch, s.On task.owner d.port
  | _ => True

structure Placed (s : Core κ) (fs : Multiset (Frame κ γ)) : Prop where
  context : ∀ (o : ℕ) (context : PortContext), s.contexts[o]? = some context →
    ∃ port, s.ports[context.port]? = some port
  queued : ∀ (p : ℕ) (port : Port κ), s.ports[p]? = some port →
    ∀ task ∈ port.state.tasks, s.On task.owner p
  frames : ∀ f ∈ fs, f.Placed s

theorem Frame.Placed.later {s t : Core κ} (h : s.Later t) {f : Frame κ γ} (hf : f.Placed s) :
    f.Placed t := by
  cases f with
  | delayed p task => exact h.on hf
  | dispatchBatch d batch total => exact fun task ht => h.on (hf task ht)
  | _ => trivial

theorem Frame.Placed.outer {s : Core κ} {f : Frame κ γ} (h : f.isOuter = true) : f.Placed s := by
  cases f with
  | delayed | dispatchBatch => simp [Frame.isOuter] at h
  | _ => trivial

theorem coreStep_frames_placed {body : κ → Bool → List γ} {s : Core κ} {f : Frame κ γ}
    {o : Outcome (Core κ) (Frame κ γ)} {R : Multiset (Frame κ γ)} (h : CoreStep body s f o)
    (hI : Placed s (f ::ₘ R)) : ∀ g ∈ o.frames, g.Placed s := by
  have hf := hI.frames f (Multiset.mem_cons_self f R)
  rw [forall_frames]
  cases h with
  | @drainReady d port hp =>
    simp only [List.forall_mem_singleton, List.not_mem_nil, false_imp_iff, implies_true, and_true]
    exact fun task ht => hI.queued d.port port hp task (List.takeWhile_subset _ ht)
  | @batchNext d task rest total =>
    simp only [Frame.Placed, List.forall_mem_cons] at hf ⊢
    simpa using hf.2
  | @acceptDelayed a task context port hc hp =>
    have hon : s.On task.owner context.port := ⟨context, hc, rfl⟩
    simpa [Frame.Placed] using hon
  | _ =>
    simp only [List.forall_mem_cons, List.forall_mem_append, List.forall_mem_map, Frame.Placed]
    simp

theorem coreStep_placed {body : κ → Bool → List γ} {s : Core κ} {f : Frame κ γ}
    {o : Outcome (Core κ) (Frame κ γ)} {R : Multiset (Frame κ γ)} (h : CoreStep body s f o)
    (hI : Placed s (f ::ₘ R)) : Placed o.shared (o.frames + R) := by
  constructor
  · intro i context' hc'
    obtain ⟨context, hc, hs⟩ := h.context_cases hc'
    obtain ⟨port, hp⟩ := hI.context i context hc
    obtain ⟨port', hp', -⟩ := h.later.ports _ port hp
    exact ⟨port', hs.later.port ▸ hp'⟩
  · intro p port' hp' task ht
    obtain ⟨port, hp, hs⟩ := h.port_cases hp'
    refine h.later.on ?_
    cases hs with
    | ordinary ho =>
      rcases ho.tasks task ht with hm | ⟨-, hon, -⟩
      · exact hI.queued p port hp task hm
      · exact hon
    | terminateContext owner owners a context hf hc hpp he =>
      subst he
      exact hI.queued p port hp task (List.mem_of_mem_filter ht)
    | cancelDrain owner owners a context hf hc hpp he =>
      subst he
      simp [PortState.drainRest] at ht
  · intro g hg
    rcases Multiset.mem_add.mp hg with ho | hR
    · exact Frame.Placed.later h.later (coreStep_frames_placed h hI g ho)
    · exact Frame.Placed.later h.later (hI.frames g (Multiset.mem_cons_of_mem hR))

theorem Placed.newPort {s : Core κ} {fs : Multiset (Frame κ γ)} (mode : DispatchMode)
    (hI : Placed s fs) : Placed (s.newPort mode) fs := by
  constructor
  · intro o context hc
    obtain ⟨port, hp⟩ := hI.context o context hc
    exact ⟨port, getElem?_push_of hp⟩
  · intro p port hp task ht
    rcases getElem?_push_cases hp with hp | ⟨-, rfl⟩
    · exact (Core.Later.newPort s mode).on (hI.queued p port hp task ht)
    · simp at ht
  · exact fun f hf => (hI.frames f hf).later (.newPort s mode)

theorem Placed.newContext {s : Core κ} {fs : Multiset (Frame κ γ)} {q : ℕ} {port : Port κ}
    (hq : s.ports[q]? = some port) (hI : Placed s fs) : Placed (s.newContext q port) fs := by
  have hl := Core.Later.newContext hq
  constructor
  · intro o context hc
    have hport : ∃ port, s.ports[context.port]? = some port := by
      rcases getElem?_push_cases hc with hc | ⟨-, rfl⟩
      · exact hI.context o context hc
      · exact ⟨port, hq⟩
    obtain ⟨port₁, hp⟩ := hport
    obtain ⟨port₂, hp₂, -⟩ := hl.ports _ _ hp
    exact ⟨port₂, hp₂⟩
  · intro p port' hp task ht
    rcases getElem?_set_cases hp with ⟨rfl, rfl⟩ | ⟨-, hp⟩
    · exact hl.on (hI.queued q port hq task ht)
    · exact hl.on (hI.queued p port' hp task ht)
  · exact fun f hf => (hI.frames f hf).later hl

theorem Placed.outer {s : Core κ} {f : Frame κ γ} {fs R : Multiset (Frame κ γ)}
    (ho : ∀ g ∈ fs, g.isOuter = true) (hI : Placed s (f ::ₘ R)) : Placed s (fs + R) :=
  ⟨hI.context, hI.queued, fun g hg => (Multiset.mem_add.mp hg).elim
    (fun h => .outer (ho g h)) fun h => hI.frames g (Multiset.mem_cons_of_mem h)⟩

section Runs
variable {C : Client κ} {c₀ c : Config (World C) (Frame κ C.Frame)}
  {G : Guard (World C) (Frame κ C.Frame) (Option C.Choice)}

theorem Initial.placed (h0 : Initial C c₀) (h : (machine C).Reaches G c₀ c) :
    Placed c.shared.toCore c.frames := by
  refine h.preserved (I := fun s fs => Placed s.toCore fs) ?_ ?_
  · obtain ⟨pool, now, hq⟩ := h0.queues
    rw [hq]
    exact ⟨fun o context hc => by simp at hc, fun p port hp => by simp at hp,
      fun f hf => .outer (h0.outer f hf)⟩
  · intro s f R x o _ hI hs
    rcases (step_inv hs).outer_or_core with ⟨hg, hf, ho⟩ | ⟨o', ho', hsh, hfr⟩
    · exact hg.preserves (I := fun u => Placed u (o.frames + R))
        (fun _ mode h => h.newPort mode) (fun _ _ _ hp h => h.newContext hp) (hI.outer ho)
    · rw [hsh, hfr]
      exact coreStep_placed ho' hI

end Runs
end XGameRuntime.TaskQueue
