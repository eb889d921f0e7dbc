import XGameRuntime.TaskQueue.Placement

/-! # What `in_flight` counts

The counter of a port is the number of callbacks that its workers and dispatchers, and inline
submitters, still have to account for. A callback that runs with `canceled = false` is above the
frame that will account for it, with one exception: the delayed callbacks of immediate ports,
which run on threads of their own.
-/

namespace XGameRuntime.TaskQueue
open Concurrency
set_option autoImplicit false

variable {κ γ : Type}

/-! ## The count -/

/-- What a frame will take off the counter of port `p`. -/
def Frame.inFlight (p : ℕ) : Frame κ γ → ℕ
  | .finishOne q => if q = p then 1 else 0
  | .drainReady d => if d.port = p then 1 else 0
  | .dispatchBatch d _ total => if d.port = p then total else 0
  | _ => 0

structure InFlight (s : Core κ) (fs : Multiset (Frame κ γ)) : Prop where
  count : ∀ (p : ℕ) (port : Port κ), s.ports[p]? = some port →
    port.state.inFlight = weight (Frame.inFlight p) fs
  fresh : ∀ p : ℕ, s.ports[p]? = none → weight (Frame.inFlight p) fs = 0

theorem inFlight_outer (p : ℕ) {f : Frame κ γ} (h : f.isOuter = true) : f.inFlight p = 0 := by
  cases f <;> simp [Frame.isOuter] at h <;> rfl

@[simp] theorem sum_inFlight_clients (p : ℕ) (fs : List γ) :
    (fs.map (Frame.inFlight p ∘ Frame.client (κ := κ))).sum = 0 := by
  apply List.sum_eq_zero
  simp [Frame.inFlight]

@[simp] theorem PortState.finishN_inFlight (s : PortState κ) (n : ℕ) :
    (s.finishN n).inFlight = s.inFlight - n := by
  unfold PortState.finishN
  split
  · simp [*]
  · rfl

@[simp] theorem PortState.insert_inFlight (s : PortState κ) (task : Task κ) :
    (s.insert task).inFlight = s.inFlight := rfl

section Step
variable {body : κ → Bool → List γ} {s : Core κ} {f : Frame κ γ}
  {o : Outcome (Core κ) (Frame κ γ)} {R : Multiset (Frame κ γ)}

/-- The rule for a step that writes one port. -/
theorem InFlight.count_setPort {p : ℕ} {port port' : Port κ} (hp : s.ports[p]? = some port)
    (hI : InFlight s (f ::ₘ R)) {gs : Multiset (Frame κ γ)}
    (hsame : ∀ q, q ≠ p → weight (Frame.inFlight q) gs = f.inFlight q)
    (hat : f.inFlight p ≤ port.state.inFlight →
      port'.state.inFlight + f.inFlight p = port.state.inFlight + weight (Frame.inFlight p) gs)
    {q : ℕ} {r : Port κ} (hr : (s.ports.set p port')[q]? = some r) :
    r.state.inFlight = weight (Frame.inFlight q) (gs + R) := by
  rw [weight_add]
  rcases getElem?_set_cases hr with ⟨rfl, rfl⟩ | ⟨hne, hr⟩
  · have hc := hI.count p port hp
    rw [weight_cons] at hc
    have ha := hat (by omega)
    omega
  · have hc := hI.count q r hr
    rw [weight_cons] at hc
    rw [hsame q (Ne.symm hne)]
    exact hc

theorem coreStep_inFlight_count (h : CoreStep body s f o) (hI : InFlight s (f ::ₘ R)) (q : ℕ)
    (r : Port κ) (hr : o.shared.ports[q]? = some r) :
    r.state.inFlight = weight (Frame.inFlight q) (o.frames + R) := by
  cases h with
  | @acceptInline a task context port hc hp =>
    refine hI.count_setPort hp ?_ ?_ hr
    · intro q hq
      simp [weight_frames, Frame.inFlight, Ne.symm hq]
    · intro _
      simp [weight_frames, Frame.inFlight, PortState.startInline]
  | @acceptQueued a task context port hc hp =>
    refine hI.count_setPort hp ?_ ?_ hr
    · intro q hq
      simp [weight_frames, Frame.inFlight]
    · intro _
      simp [weight_frames, Frame.inFlight]
  | @finishOne p port hp =>
    refine hI.count_setPort hp ?_ ?_ hr
    · intro q hq
      simp [weight_frames, Frame.inFlight, Ne.symm hq]
    · intro hle
      simp [weight_frames, Frame.inFlight, PortState.finishOne] at hle ⊢
      omega
  | @workerTake p port task rest hp =>
    refine hI.count_setPort hp ?_ ?_ hr
    · intro q hq
      simp [weight_frames, Frame.inFlight, Ne.symm hq]
    · intro _
      simp [weight_frames, Frame.inFlight]
  | @dispatchTake d deadline port task rest hp =>
    refine hI.count_setPort hp ?_ ?_ hr
    · intro q hq
      simp [weight_frames, Frame.inFlight, Ne.symm hq]
    · intro _
      simp [weight_frames, Frame.inFlight]
  | @drainReady d port hp =>
    refine hI.count_setPort hp ?_ ?_ hr
    · intro q hq
      simp [weight_frames, Frame.inFlight, Ne.symm hq]
    · intro _
      simp [weight_frames, Frame.inFlight, PortState.drainReady]
      omega
  | @batchEnd d total port hp =>
    refine hI.count_setPort hp ?_ ?_ hr
    · intro q hq
      simp [weight_frames, Frame.inFlight, Ne.symm hq]
    · intro hle
      simp [weight_frames, Frame.inFlight] at hle ⊢
      omega
  | @terminateContext owner owners a context port hc hp =>
    refine hI.count_setPort hp ?_ ?_ hr
    · intro q hq
      simp [weight_frames, Frame.inFlight]
    · intro _
      simp [weight_frames, Frame.inFlight, PortState.terminateContext]
  | @cancelDrain owner owners a context port hc hp =>
    refine hI.count_setPort hp ?_ ?_ hr
    · intro q hq
      simp [weight_frames, Frame.inFlight]
    · intro _
      simp [weight_frames, Frame.inFlight, PortState.drainRest]
  | _ => simpa [weight_frames, Frame.inFlight] using hI.count q r hr

theorem ne_of_none {p q : ℕ} {port : Port κ} (hp : s.ports[p]? = some port)
    (hq : s.ports[q]? = none) : p ≠ q := by
  rintro rfl
  simp [hq] at hp

theorem coreStep_inFlight_fresh (h : CoreStep body s f o) (hI : InFlight s (f ::ₘ R)) (q : ℕ)
    (hn : o.shared.ports[q]? = none) : weight (Frame.inFlight q) (o.frames + R) = 0 := by
  have hs : s.ports[q]? = none := by
    cases hp : s.ports[q]? with
    | none => rfl
    | some port =>
      obtain ⟨port', hp', -⟩ := h.later.ports q port hp
      simp [hn] at hp'
  have hi := hI.fresh q hs
  rw [weight_cons] at hi
  cases h with
  | acceptInline hc hp | finishOne hp | workerTake hp | dispatchTake hp | drainReady hp
    | batchEnd hp =>
    have hne := ne_of_none hp hs
    simpa [weight_frames, Frame.inFlight, hne] using hi
  | _ => simpa [weight_frames, Frame.inFlight] using hi

theorem coreStep_inFlight (h : CoreStep body s f o) (hI : InFlight s (f ::ₘ R)) :
    InFlight o.shared (o.frames + R) :=
  ⟨coreStep_inFlight_count h hI, coreStep_inFlight_fresh h hI⟩

end Step

theorem InFlight.outer {s : Core κ} {f : Frame κ γ} {fs R : Multiset (Frame κ γ)}
    (hf : f.isOuter = true) (ho : ∀ g ∈ fs, g.isOuter = true) (hI : InFlight s (f ::ₘ R)) :
    InFlight s (fs + R) := by
  have hw : ∀ p, weight (Frame.inFlight p) (fs + R) = weight (Frame.inFlight p) (f ::ₘ R) := by
    intro p
    rw [weight_add, weight_cons, inFlight_outer p hf,
      weight_eq_zero _ fun g hg => inFlight_outer p (ho g hg)]
  exact ⟨fun p port hp => hw p ▸ hI.count p port hp, fun p hn => hw p ▸ hI.fresh p hn⟩

theorem InFlight.newPort {s : Core κ} {fs : Multiset (Frame κ γ)} (mode : DispatchMode)
    (hI : InFlight s fs) : InFlight (s.newPort mode) fs := by
  constructor
  · intro p port hp
    rcases getElem?_push_cases hp with hp | ⟨rfl, rfl⟩
    · exact hI.count p port hp
    · exact (hI.fresh _ (by simp)).symm
  · intro p hn
    refine hI.fresh p (List.getElem?_eq_none ?_)
    have hlen := List.getElem?_eq_none_iff.mp hn
    simp [Core.newPort] at hlen
    omega

theorem InFlight.newContext {s : Core κ} {fs : Multiset (Frame κ γ)} {q : ℕ} {port : Port κ}
    (hq : s.ports[q]? = some port) (hI : InFlight s fs) : InFlight (s.newContext q port) fs := by
  constructor
  · intro p port' hp
    rcases getElem?_set_cases hp with ⟨rfl, rfl⟩ | ⟨-, hp⟩
    · exact hI.count q port hq
    · exact hI.count p port' hp
  · intro p hn
    refine hI.fresh p (List.getElem?_eq_none ?_)
    have hlen := List.getElem?_eq_none_iff.mp hn
    simpa [Core.newContext, Core.setState, Core.setPort] using hlen

/-! ## The stacks -/

/-- A delayed callback of an immediate port: it waits and runs on a thread of its own. -/
def Core.OwnThread (s : Core κ) (task : Task κ) : Prop :=
  task.due.isSome = true ∧ ∃ context ∈ s.contexts[task.owner]?,
    ∃ port ∈ s.ports[context.port]?, port.mode = .immediate

theorem Core.Later.ownThread {s t : Core κ} (h : s.Later t) {task : Task κ}
    (ht : s.OwnThread task) : t.OwnThread task := by
  obtain ⟨hd, context, hc, port, hp, hm⟩ := ht
  obtain ⟨context', hc', hl⟩ := h.contexts task.owner context hc
  obtain ⟨port', hp', hpl⟩ := h.ports context.port port hp
  exact ⟨hd, context', hc', port', hl.port ▸ hp', hpl.mode.trans hm⟩

/-- The frame below the call of a callback will take it off the counter of its port. -/
def Counts (s : Core κ) (task : Task κ) (k : List (Frame κ γ)) : Prop :=
  ∃ g k' p, k = g :: k' ∧ s.On task.owner p ∧ 0 < g.inFlight p

def Frame.Covered (s : Core κ) (k : List (Frame κ γ)) : Frame κ γ → Prop
  | .invoke task canceled => canceled = false → s.OwnThread task ∨ Counts s task k
  | .running task canceled => canceled = false → s.OwnThread task ∨ Counts s task k
  | .delayed _ task => s.OwnThread task
  | .dispatchBatch _ _ total => 0 < total
  | _ => True

/-- In a stack, each callback that is called with `canceled = false` is covered. -/
def Covered (s : Core κ) : List (Frame κ γ) → Prop
  | [] => True
  | f :: k => f.Covered s k ∧ Covered s k

theorem Covered.later {s t : Core κ} (h : s.Later t) {k : List (Frame κ γ)} (hk : Covered s k) :
    Covered t k := by
  induction k with
  | nil => trivial
  | cons f k ih =>
    refine ⟨?_, ih hk.2⟩
    have hcounts : ∀ task, Counts s task k → Counts t task k := by
      rintro task ⟨g, k', p, rfl, ho, hw⟩
      exact ⟨g, k', p, rfl, h.on ho, hw⟩
    cases f with
    | invoke task canceled => exact fun hx => (hk.1 hx).imp h.ownThread (hcounts task)
    | running task canceled => exact fun hx => (hk.1 hx).imp h.ownThread (hcounts task)
    | delayed p task => exact h.ownThread hk.1
    | dispatchBatch d batch total => exact hk.1
    | _ => trivial

theorem Covered.append_clients {s : Core κ} {fs : List γ} {k : List (Frame κ γ)}
    (hk : Covered s k) : Covered s (fs.map .client ++ k) := by
  induction fs with
  | nil => exact hk
  | cons g fs ih => exact ⟨trivial, ih⟩

theorem Covered.of_outer {s : Core κ} {fs k : List (Frame κ γ)}
    (ho : ∀ f ∈ fs, f.isOuter = true) (hk : Covered s k) : Covered s (fs ++ k) := by
  induction fs with
  | nil => exact hk
  | cons f fs ih =>
    obtain ⟨hf, hfs⟩ := List.forall_mem_cons.mp ho
    refine ⟨?_, ih hfs⟩
    cases f with
    | invoke | running | delayed | dispatchBatch => simp [Frame.isOuter] at hf
    | _ => trivial

theorem coreStep_covered {body : κ → Bool → List γ} {s : Core κ} {f : Frame κ γ}
    {o : Outcome (Core κ) (Frame κ γ)} {R : Multiset (Frame κ γ)} {k : List (Frame κ γ)}
    (h : CoreStep body s f o) (hP : Placed s (f ::ₘ R)) (hI : Covered s (f :: k)) :
    Covered o.shared (o.push ++ k) ∧ ∀ t ∈ o.spawn, Covered o.shared t := by
  have hl := h.later
  have hk := hI.2
  have hf := hP.frames f (Multiset.mem_cons_self f R)
  suffices hs : Covered s (o.push ++ k) ∧ ∀ t ∈ o.spawn, Covered s t from
    ⟨hs.1.later hl, fun t ht => (hs.2 t ht).later hl⟩
  cases h with
  | @acceptInline a task context port hc hp =>
    refine ⟨⟨fun _ => .inr ?_, trivial, hk.append_clients⟩, by simp⟩
    exact ⟨_, _, context.port, rfl, ⟨context, hc, rfl⟩, by simp [Frame.inFlight]⟩
  | @acceptDelayed a task context port hc hp ht hm hd =>
    refine ⟨hk.append_clients, List.forall_mem_singleton.mpr ⟨?_, trivial⟩⟩
    exact ⟨hd, context, hc, port, hp, hm⟩
  | acceptQueued =>
    refine ⟨hk.append_clients, fun t ht => ?_⟩
    rw [List.eq_of_mem_replicate ht]
    exact ⟨trivial, trivial⟩
  | @invoke task canceled =>
    rw [List.append_assoc]
    exact ⟨Covered.append_clients ⟨hI.1, hk⟩, by simp⟩
  | @workerTake p port task rest hp ht htasks =>
    refine ⟨⟨fun _ => .inr ?_, trivial, trivial, hk⟩, by simp⟩
    have ho := hP.queued p port hp task (htasks ▸ List.mem_cons_self)
    exact ⟨_, _, p, rfl, ho, by simp [Frame.inFlight]⟩
  | @delayed p task port hp => exact ⟨⟨fun _ => .inl hI.1, hk⟩, by simp⟩
  | @dispatchTake d deadline port task rest hp ht htasks =>
    refine ⟨⟨fun _ => .inr ?_, trivial, hk⟩, by simp⟩
    have ho := hP.queued d.port port hp task (htasks ▸ List.mem_cons_self)
    exact ⟨_, _, d.port, rfl, ho, by simp [Frame.inFlight]⟩
  | @drainReady d port hp => exact ⟨⟨Nat.lt_add_right _ Nat.one_pos, hk⟩, by simp⟩
  | @batchNext d task rest total =>
    have ht : 0 < total := hI.1
    refine ⟨⟨fun _ => .inr ?_, ht, hk⟩, by simp⟩
    exact ⟨_, _, d.port, rfl, hf task List.mem_cons_self, by simpa [Frame.inFlight] using ht⟩
  | cancelNext => exact ⟨⟨fun hx => by simp at hx, trivial, hk⟩, by simp⟩
  | refuse | dispatchExit | batchEnd => exact ⟨hk.append_clients, by simp⟩
  | running | finishOne | workerExit => exact ⟨hk, by simp⟩
  | _ => exact ⟨⟨trivial, hk⟩, by simp⟩

/-! ## Runs -/

section Runs
variable {C : Client κ} {c₀ c : Config (World C) (Frame κ C.Frame)}
  {G : Guard (World C) (Frame κ C.Frame) (Option C.Choice)}

theorem Initial.inFlight (h0 : Initial C c₀) (h : (machine C).Reaches G c₀ c) :
    InFlight c.shared.toCore c.frames := by
  refine h.preserved (I := fun s fs => InFlight s.toCore fs) ?_ ?_
  · obtain ⟨pool, now, hq⟩ := h0.queues
    rw [hq]
    exact ⟨fun p port hp => by simp at hp,
      fun p _ => weight_eq_zero _ fun f hf => inFlight_outer p (h0.outer f hf)⟩
  · intro s f R x o _ hI hs
    rcases (step_inv hs).outer_or_core with ⟨hg, hf, ho⟩ | ⟨o', ho', hsh, hfr⟩
    · exact hg.preserves (I := fun u => InFlight u (o.frames + R))
        (fun _ mode h => h.newPort mode) (fun _ _ _ hp h => h.newContext hp) (hI.outer hf ho)
    · rw [hsh, hfr]
      exact coreStep_inFlight ho' hI

theorem Initial.covered (h0 : Initial C c₀) (h : (machine C).Reaches G c₀ c) :
    ∀ k ∈ c.threads, Covered c.shared.toCore k := by
  refine h.stacks (P := fun s k => Covered s.toCore k) (J := fun s fs => Placed s.toCore fs)
    (fun _ h => h0.placed h) ?_ ?_ ?_
  · intro k hk
    rw [← List.append_nil k]
    refine Covered.of_outer (fun f hf => ?_) trivial
    exact h0.outer f (Multiset.mem_coe.mpr (List.mem_flatten.mpr ⟨k, hk, hf⟩))
  · intro s f x o k hs hk
    exact hk.later (step_inv hs).later
  · intro s f R k x o _ hP hI hs
    have h := step_inv hs
    rcases h.split with ⟨hg, hf, hp, hsp⟩ | ⟨o', ho, h1, h2, h3⟩
    · have hk := hI.2.later h.later
      refine ⟨hk.of_outer hp, fun t ht => ?_⟩
      rw [← List.append_nil t]
      exact Covered.of_outer (hsp t ht) trivial
    · rw [h1, h2, h3]
      exact coreStep_covered ho hP hI

end Runs
end XGameRuntime.TaskQueue
