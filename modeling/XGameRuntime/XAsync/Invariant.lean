import XGameRuntime.XAsync.Steps

/-! # Invariants of the engine

The rule for invariants about the memory of the engine and about what is in flight, and
conditions on its steps.
-/

namespace XGameRuntime.XAsync
open Concurrency TaskQueue
set_option autoImplicit false

/-! ## Loads of the engine -/

/-- A load that does not see the game's own code. -/
structure Sees (w : Load Callback Code) : Prop where
  game : w.code .game = 0
  processQueue : w.code .processQueue = 0
  callback : ∀ id, w.callback (.game id) = 0
  body : ∀ callback canceled, w.run (callback.code canceled) ≤ w.callback callback

theorem Sees.fits {w : Load Callback Code} (h : Sees w) :
    w.Fits Engine.body Engine.monitor := by
  refine ⟨h.body, fun _ _ _ => ?_⟩
  simp [h.game]

section Asked
variable (w : Load Callback Code) {m : Memory} {s : TaskQueues Callback}

theorem asked_frame (mem : Memory) (g : Code) :
    w.asked { mem := mem, run := [.frame g] } = w.code g := by
  simp [Load.asked, Load.instr]

theorem asked_frame_admin (mem : Memory) (admin : List Admin) (g : Code) :
    w.asked { mem := mem, admin := admin, run := [.frame g] } = w.code g := by
  simp [Load.asked, Load.instr]

/-- `XAsyncBegin` asks for `Begin` and nothing else. -/
theorem Begins.asked {b identity : ℕ} {provider : Provider} {r : EngineStep}
    (h : Begins m s b identity provider r) (hw : ∀ i, w.code (.invoke i .begin) = 0) :
    w.asked r = 0 := by
  cases h with
  | rejected | unrouted => simp [Load.asked]
  | parked => rw [asked_frame_admin, hw]

theorem asked_resume (hw : Sees w) (r : EngineStep) : w.asked (resume r) = w.asked r := by
  simp [Load.asked, resume, Load.instr, hw.game]

/-- What the game asks of a queue for itself counts for nothing. -/
theorem asked_queue (hw : Sees w) (c : QueueCall ℕ Unit) (s : TaskQueues Callback) :
    w.asked { mem := m, admin := (gameCall s c).admin, run := (gameCall s c).run ++ [.frame .game]
              spawn := (gameCall s c).spawn } = 0 := by
  have hafter : ∀ n, w.run (List.replicate n Code.game) = 0 := by
    intro n
    simp [Load.run, hw.game]
  cases c with
  | submitDelayedCallback queue port delayMs callback =>
    cases callback with
    | none => simp [gameCall, QueueCall.map, QueueCall.perform, Load.asked, Load.instr, hw.game]
    | some id =>
      simp only [gameCall, QueueCall.map, Option.map_some, QueueCall.perform]
      split <;> simp [Load.asked, Load.instr, Load.submission, hw.game, hw.callback]
  | terminate queue wait terminated =>
    simp only [gameCall, QueueCall.map, QueueCall.perform]
    split
    · simp [Load.asked, Load.instr, hw.game]
    · split <;> simp [Load.asked, Load.instr, hw.game, hafter]
  | dispatch queue port timeoutInMs =>
    simp only [gameCall, QueueCall.map, QueueCall.perform]
    split
    · split <;> simp [Load.asked, Load.instr, Load.dispatch, hw.game]
    · simp [Load.asked, Load.instr, hw.game]
  | _ =>
    simp only [gameCall, QueueCall.map, QueueCall.perform]
    repeat' split
    all_goals simp [Load.asked, Load.instr, hw.game, hw.processQueue]

end Asked

/-! ## The rules -/

/-- A step of the machine runs the queue, which starts what callbacks and continuations say, or a
section of the engine. -/
theorem engine_step_cases {s : World Engine} {f : Frame Callback Code} {x : Option Choice}
    {o : Outcome (World Engine) (Frame Callback Code)}
    (h : (machine Engine).step s f x = some o) :
    ((∀ code, f ≠ .client code) ∧ o.shared.mem = s.mem ∧
      (∀ g ∈ o.push, Continues Engine.body Engine.monitor f g) ∧
      ∀ k ∈ o.spawn, ∀ g ∈ k, Continues Engine.body Engine.monitor f g) ∨
    ∃ code choice r, f = .client code ∧ x = some choice ∧
      Steps s.mem s.toTaskQueues code choice r ∧ o.shared.mem = r.mem ∧
      o.push = r.run.map Instr.toFrame ∧ o.spawn = r.spawn.map (·.map Instr.toFrame) := by
  by_cases hf : ∀ code, f ≠ .client code
  · exact .inl ⟨hf, step_continues h hf⟩
  · right
    simp only [not_forall, not_not] at hf
    obtain ⟨code, rfl⟩ := hf
    cases x with
    | none => simp [machine] at h
    | some choice =>
      simp only [machine, Option.bind_eq_bind, Option.bind_eq_some_iff, Option.some.injEq] at h
      obtain ⟨r, hr, t, ht, rfl⟩ := h
      exact ⟨code, choice, r, rfl, rfl, steps_inv hr, rfl, rfl, rfl⟩

section Rule
variable {c₀ c : Config (World Engine) (Frame Callback Code)}
  {G : Guard (World Engine) (Frame Callback Code) (Option Choice)}

/-- What every step of the engine keeps, about its memory and about loads in flight, holds in
every run. -/
theorem engine_invariant {ι : Type} {w : ι → Load Callback Code} {I : Memory → (ι → ℕ) → Prop}
    {J : World Engine → Multiset (Frame Callback Code) → Prop}
    (h : (machine Engine).Reaches G c₀ c) (hw : ∀ i, Sees (w i))
    (hJ : ∀ c, (machine Engine).Reaches G c₀ c → J c.shared c.frames)
    (h0 : I c₀.shared.mem fun i => (w i).total c₀.shared.toCore c₀.frames)
    (hmono : ∀ m L L', (∀ i, L' i ≤ L i) → I m L → I m L')
    (hstep : ∀ (s : World Engine) (R : Multiset (Frame Callback Code)) code choice r,
      G s R (.client code) (some choice) → J s (.client code ::ₘ R) →
      Steps s.mem s.toTaskQueues code choice r →
      I s.mem (fun i => (w i).total s.toCore R + (w i).code code) →
      I r.mem fun i => (w i).total s.toCore R + (w i).asked r) :
    I c.shared.mem fun i => (w i).total c.shared.toCore c.frames :=
  client_invariant h (fun i => (hw i).fits) hJ h0 hmono
    fun s R code choice r hg hj hs hI => hstep s R code choice r hg hj (steps_inv hs) hI

/-- The rule for what depends on the memory alone. -/
theorem memory_invariant {I : Memory → Prop}
    {J : World Engine → Multiset (Frame Callback Code) → Prop}
    (h : (machine Engine).Reaches G c₀ c)
    (hJ : ∀ c, (machine Engine).Reaches G c₀ c → J c.shared c.frames) (h0 : I c₀.shared.mem)
    (hstep : ∀ (s : World Engine) (R : Multiset (Frame Callback Code)) code choice r,
      G s R (.client code) (some choice) → J s (.client code ::ₘ R) →
      Steps s.mem s.toTaskQueues code choice r → I s.mem → I r.mem) :
    I c.shared.mem :=
  engine_invariant (w := fun e : Empty => e.elim) (I := fun m _ => I m) h (fun e => e.elim) hJ h0
    (fun _ _ _ _ hI => hI)
    fun s R code choice r hg hj hs hI => hstep s R code choice r hg hj hs hI

theorem total_client (w : Load Callback Code) (s : Core Callback) (code : Code)
    (R : Multiset (Frame Callback Code)) :
    w.total s (.client code ::ₘ R) = w.total s R + w.code code := by
  simp only [Load.total, weight_cons, Load.frame]
  omega

/-- Nothing is in flight at the start. -/
theorem start_total {w : Load Callback Code} (hw : Sees w) (pool n : ℕ) :
    w.total (Engine.start pool n).shared.toCore (Engine.start pool n).frames = 0 := by
  have hf : ∀ f ∈ (Engine.start pool n).frames, w.frame f = 0 := by
    intro f hf
    obtain ⟨k, hk, hfk⟩ := List.mem_flatten.mp (Multiset.mem_coe.mp hf)
    rcases List.mem_cons.mp hk with rfl | hk
    · rw [List.mem_singleton.mp hfk]
      rfl
    · rw [List.eq_of_mem_replicate hk, List.mem_singleton] at hfk
      subst hfk
      exact hw.game
  rw [Load.total, weight_eq_zero _ hf]
  rfl

end Rule

/-! ## Conditions on steps -/

/-- A condition on the steps of the engine's own code, and on no other. -/
def onCode (G : World Engine → Multiset (Frame Callback Code) → Code → Choice → Bool) :
    Guard (World Engine) (Frame Callback Code) (Option Choice) :=
  fun s R f x =>
    match f, x with
    | .client code, some choice => G s R code choice = true
    | _, _ => True

instance (G : World Engine → Multiset (Frame Callback Code) → Code → Choice → Bool)
    (s : World Engine) (R : Multiset (Frame Callback Code)) (f : Frame Callback Code)
    (x : Option Choice) : Decidable (onCode G s R f x) :=
  match f, x with
  | .client code, some choice => inferInstanceAs (Decidable (G s R code choice = true))
  | .client _, none => inferInstanceAs (Decidable True)
  | .clock, _ | .notify .., _ | .notifying .., _ | .submitContext .., _ | .submitDue .., _
  | .submitPort .., _ | .invoke .., _ | .running .., _ | .finishOne .., _ | .worker .., _
  | .delayed .., _ | .dispatch .., _ | .dispatchWait .., _ | .drainReady .., _
  | .dispatchBatch .., _ | .terminateQueue .., _ | .terminate .., _ | .terminateContext .., _
  | .cancel .., _ | .awaitDrained .., _ | .terminateReturn .., _ => inferInstanceAs (Decidable True)

/-- In a schedule, a choice of the code on thread 1, and `n` further steps of a thread. -/
def Engine.does (choice : Choice) : ℕ × Option Choice := (1, some choice)

def Engine.steps (thread n : ℕ) : List (ℕ × Option Choice) :=
  List.replicate n (thread, some .finish)

end XGameRuntime.XAsync
