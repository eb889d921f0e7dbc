import XGameRuntime.TaskQueue.Refusal
import XGameRuntime.XAsync.Invariant

/-! # Calls on a terminated queue

`XTaskQueueTerminate` returns `S_OK`, and what becomes of the submissions that follow: those of
the game and those of `XAsyncSchedule`.
-/

namespace XGameRuntime.XAsync
open Concurrency TaskQueue
set_option autoImplicit false

/-! ## What `XAsyncSchedule` reports -/

/-- `XAsyncSchedule` returns `E_ABORT` where it would have returned `S_OK`. -/
def Engine.reports (ok abort : Code) : Prop :=
  ∃ i, ok = .ret (.schedule (some i) S_OK) ∧ abort = .ret (.schedule (some i) E_ABORT)

section Tells
variable {m : Memory} {s : TaskQueues Callback} {code : Code} {x : Choice} {r : EngineStep}

@[simp] theorem tells_frame (g : Code) :
    (Instr.frame g : Instr Callback Code).Tells Engine.reports ↔ True := Iff.rfl
@[simp] theorem tells_dispatch (d : Dispatch Code) :
    (Instr.dispatch d : Instr Callback Code).Tells Engine.reports ↔ True := Iff.rfl
@[simp] theorem tells_terminate (a : Termination Code) :
    (Instr.terminate a : Instr Callback Code).Tells Engine.reports ↔ True := Iff.rfl

/-- A submission that is no `XAsyncSchedule` has nothing to report. -/
theorem tells_submit {a : Submission Callback Code}
    (h : ∀ i, .ret (.schedule (some i) S_OK) ∉ a.onAccepted) :
    (Instr.submit a).Tells Engine.reports := by
  rintro ok abort ⟨i, rfl, rfl⟩ hok
  exact absurd hok (h i)

theorem queue_tells (c : QueueCall ℕ Unit) (s : TaskQueues Callback) :
    (∀ i ∈ (gameCall s c).run,
      i.Tells Engine.reports) ∧
    ∀ k ∈ (gameCall s c).spawn,
      ∀ i ∈ k, i.Tells Engine.reports := by
  cases c with
  | submitDelayedCallback queue port delayMs callback =>
    cases callback with
    | none => simp [gameCall, QueueCall.map, QueueCall.perform]
    | some id =>
      simp only [gameCall, QueueCall.map, Option.map_some, QueueCall.perform]
      split
      · simp only [List.forall_mem_singleton]
        exact ⟨tells_submit fun i => List.not_mem_nil, by simp⟩
      · simp
  | _ =>
    simp only [gameCall, QueueCall.map, QueueCall.perform]
    repeat' split
    all_goals simp

theorem Invokes.tells {i : ℕ} {state : AsyncState} {op : XAsyncOp} (h : Invokes m i state op r) :
    (∀ i ∈ r.run, i.Tells Engine.reports) ∧ r.spawn = [] := by
  cases h with
  | runBegin | runSyncBegin =>
    simp only [List.forall_mem_singleton]
    exact ⟨tells_submit fun i => by simp [runSyncSubmission], by simp⟩
  | _ => simp

theorem Begins.tells {b identity : ℕ} {provider : Provider}
    (h : Begins m s b identity provider r) :
    (∀ i ∈ r.run, i.Tells Engine.reports) ∧ r.spawn = [] := by
  cases h with
  | rejected => exact ⟨by simp, rfl⟩
  | unrouted => exact ⟨by simp, rfl⟩
  | parked => exact ⟨by simp, rfl⟩

theorem Steps.tells (h : Steps m s code x r) :
    (∀ i ∈ r.run, i.Tells Engine.reports) ∧ ∀ k ∈ r.spawn, ∀ i ∈ k, i.Tells Engine.reports := by
  cases h with
  | queue hr =>
    subst hr
    simp only [List.forall_mem_append, List.forall_mem_singleton]
    exact ⟨⟨(queue_tells _ _).1, trivial⟩, (queue_tells _ _).2⟩
  | begin h | run h | runSync _ h =>
    simp only [resume, List.forall_mem_append, List.forall_mem_singleton]
    exact ⟨⟨h.tells.1, trivial⟩, by simp [h.tells.2]⟩
  | invoke _ hi => exact ⟨hi.tells.1, by simp [hi.tells.2]⟩
  | schedule =>
    simp only [List.forall_mem_singleton]
    refine ⟨?_, by simp⟩
    rintro ok abort ⟨j, rfl, rfl⟩ hok
    cases List.mem_singleton.mp hok
    exact List.mem_cons_of_mem _ (List.mem_singleton_self _)
  | canceled | announce =>
    simp only [List.forall_mem_singleton]
    exact ⟨tells_submit fun i => List.not_mem_nil, by simp⟩
  | @unresolved b c => cases c <;> simp [XAsyncCall.illegal]
  | _ => simp

theorem Engine.tells {c₀ c : Config (World Engine) (Frame Callback Code)}
    {G : Guard (World Engine) (Frame Callback Code) (Option Choice)} (h0 : Initial Engine c₀)
    (h : (machine Engine).Reaches G c₀ c) :
    ∀ a task flag, .submitPort a task flag ∈ c.frames → a.Tells Engine.reports :=
  reaches_tells h0 h fun _ _ _ _ hr => (steps_inv hr).tells

end Tells

/-! ## Termination by a client -/

section Client
variable {κ : Type} {C : Client κ}

/-- A queue is terminated, with `wait` or, by code `game` that makes one of the choices
`terminates`, without it. From the return on the queue refuses: with `wait` in every run, and
without it in the runs where no submission through the queue reads the flag of its context while
a terminator is still to store it. -/
def TerminateRefuses (C : Client κ) (c₀ : Config (World C) (Frame κ C.Frame)) (game : C.Frame)
    (terminates : ℕ → C.Choice → Prop) (reports : C.Frame → C.Frame → Prop) : Prop :=
  ∀ (q : ℕ) (queue : Queue) (c₁ : Config (World C) (Frame κ C.Frame)),
    (machine C).Reaches anyStep c₀ c₁ → c₁.shared.queues[q]? = some queue →
    ((q ∈ c₁.shared.returned ∨ ∃ a, .terminateReturn a ∈ c₁.frames ∧ a.queue = q) →
      ∀ c₂, (machine C).Reaches anyStep c₁ c₂ → Refuses anyStep reports queue c₁ c₂) ∧
    ∀ c i handle x, (machine C).Reaches anyStep c₀ c → c.top i = some (.client game) →
      c.shared.queueHandles.get handle = some q → terminates handle x →
      (machine C).fire c i (some x) = some c₁ →
      ∀ c₂, (machine C).Reaches (flagsFirst queue.owners) c₁ c₂ →
        Refuses (flagsFirst queue.owners) reports queue c₁ c₂

theorem terminateRefuses {c₀ : Config (World C) (Frame κ C.Frame)} {game : C.Frame}
    {terminates : ℕ → C.Choice → Prop} {reports : C.Frame → C.Frame → Prop} (h0 : Initial C c₀)
    (htells : ∀ G c, (machine C).Reaches G c₀ c →
      ∀ a task flag, .submitPort a task flag ∈ c.frames → a.Tells reports)
    (hspawn : ∀ (s : World C) handle q x r, terminates handle x →
      s.queueHandles.get handle = some q → C.step s.mem s.toTaskQueues game x = some r →
      ∃ after, [.terminate ⟨q, true, after⟩] ∈ r.spawn) :
    TerminateRefuses C c₀ game terminates reports := by
  intro q queue c₁ h hq
  constructor
  · intro hret c₂ h'
    have hend := h.trans h'
    have hflags := h0.flagging h
    have hflagged : ∀ owner ∈ queue.owners, c₁.shared.toCore.Flagged owner := by
      rcases hret with hret | ⟨a, ha, rfl⟩
      · obtain ⟨queue', hq', ho⟩ := hflags.returned q hret
        rw [hq, Option.some.injEq] at hq'
        exact hq' ▸ ho
      · obtain ⟨queue', hq', ho⟩ := hflags.frames _ ha
        rw [hq, Option.some.injEq] at hq'
        subst hq'
        exact fun owner hm => (ho owner hm).resolve_left List.not_mem_nil
    obtain ⟨hlater, hadmits⟩ := admits_of_flagged hflagged h'
    exact refuses_of_admits h0 hend (htells _ _ hend) hadmits fun _ _ owner _ _ ho _ =>
      hlater owner ho
  · intro c i handle x hc ht hget hx hf c₂ h'
    have hend : (machine C).Reaches anyStep c₀ c₂ :=
      h.trans (h'.weaken fun _ _ _ _ _ => trivial)
    obtain ⟨f, o, hft, hstep, hshared, hframes⟩ := fire_frames hf
    rw [ht, Option.some.injEq] at hft
    subst hft
    simp only [machine, Option.bind_eq_bind, Option.bind_eq_some_iff, Option.some.injEq] at hstep
    obtain ⟨r, hr, t, -, rfl⟩ := hstep
    obtain ⟨after, hmem⟩ := hspawn c.shared handle q x r hx hget hr
    have hterm : Frame.terminateQueue ⟨q, true, after⟩ ∈ c₁.frames := by
      rw [hframes]
      refine Multiset.mem_add.mpr (.inl (Multiset.mem_coe.mpr (List.mem_append_right _ ?_)))
      exact List.mem_flatten.mpr ⟨_, List.mem_map_of_mem hmem, List.mem_singleton_self _⟩
    have howed : ∀ owner ∈ queue.owners, Owed c₁.shared.toTaskQueues c₁.frames owner :=
      fun owner ho => .inr ⟨_, hterm, queue, hq, ho⟩
    obtain ⟨hlater, hadmits⟩ := admits_of_owed howed h'
    refine refuses_of_admits h0 hend (htells _ _ hend) hadmits fun _ _ owner _ ht ho hg => ?_
    have howner := hlater owner ho
    rw [frames_eq ht] at howner
    exact howner.flagged ho hg

end Client

/-- A terminated queue refuses the submissions of the game, and those of `XAsyncSchedule`. -/
theorem terminated_queue_refuses {c₀ : Config (World QueueGame) (Frame ℕ GameFrame)}
    {d₀ : Config (World Engine) (Frame Callback Code)} (h0 : Initial QueueGame c₀)
    (h1 : Initial Engine d₀) :
    TerminateRefuses QueueGame c₀ .code
      (fun handle x => ∃ terminated, x = .call (.terminate handle false terminated))
      QueueGame.reports ∧
    TerminateRefuses Engine d₀ .game
      (fun handle x => ∃ terminated, x = .queue (.terminate handle false terminated))
      Engine.reports := by
  constructor
  · refine terminateRefuses h0 (fun G c h => QueueGame.tells h0 h) ?_
    rintro s handle q x r ⟨terminated, rfl⟩ hget hr
    cases hr
    simp only [QueueCall.perform, hget]
    exact ⟨terminated, List.mem_singleton_self _⟩
  · refine terminateRefuses h1 (fun G c h => Engine.tells h1 h) ?_
    rintro s handle q x r ⟨terminated, rfl⟩ hget hr
    cases hr
    simp only [gameCall, QueueCall.map, QueueCall.perform, hget]
    exact ⟨_, List.mem_singleton_self _⟩

/-- A queue is terminated with `wait`, and the callback submitted next is refused. -/
theorem terminated_queue_refuses_waited : ∃ c₁ c₂,
    (machine QueueGame).Reaches anyStep (QueueGame.start 2 1) c₁ ∧
      (machine QueueGame).Reaches anyStep c₁ c₂ ∧
      (0 ∈ c₁.shared.returned ∧ c₂.shared.mem = [E_ABORT, S_OK, S_OK] ∧
        c₂.shared.accepted = []) ∧
      Refuses anyStep QueueGame.reports ⟨0, 1, [], false, 1, none⟩ c₁ c₂ := by
  have h : ((machine QueueGame).run anyStep
      ([QueueGame.call (.create 0 0 true)] ++ QueueGame.steps 1 1 ++
        [QueueGame.call (.terminate 1 true [])] ++ QueueGame.steps 1 14)
      (QueueGame.start 2 1)).any (fun c₁ => decide (
        c₁.shared.queues[0]? = some ⟨0, 1, [], false, 1, none⟩ ∧ 0 ∈ c₁.shared.returned) &&
        ((machine QueueGame).run anyStep
          ([QueueGame.call (.submitDelayedCallback 1 0 0 (some 7))] ++ QueueGame.steps 1 5)
          c₁).any fun c₂ => decide (
            (show List ℕ from c₂.shared.mem) = [E_ABORT, S_OK, S_OK] ∧
            c₂.shared.accepted = [])) = true := by
    decide +kernel
  obtain ⟨c₁, hr, hc⟩ := Machine.Reaches.of_run_any h
  rw [Bool.and_eq_true] at hc
  obtain ⟨hq, hret⟩ := of_decide_eq_true hc.1
  obtain ⟨c₂, hr', hc'⟩ := Machine.Reaches.of_run_any hc.2
  obtain ⟨hmem, hacc⟩ := of_decide_eq_true hc'
  exact ⟨c₁, c₂, hr, hr', ⟨hret, hmem, hacc⟩,
    ((terminated_queue_refuses (QueueGame.initial 2 1) (Engine.initial 2 1)).1 0 _ c₁ hr hq).1
      (.inl hret) c₂ hr'⟩

/-- Without `wait` the call returns before its thread has stored a flag: the callback submitted
next is accepted, and it is started. -/
theorem terminated_queue_accepts : ∃ c c₁ c₂ queue,
    (machine QueueGame).Reaches anyStep (QueueGame.start 2 1) c ∧
      c.shared.queueHandles.get 1 = some 0 ∧
      (machine QueueGame).fire c 1 (some (.call (.terminate 1 false []))) = some c₁ ∧
      (machine QueueGame).Reaches anyStep c₁ c₂ ∧ c₁.shared.queues[0]? = some queue ∧
      ¬ Refuses anyStep QueueGame.reports queue c₁ c₂ ∧
      c₂.shared.mem = [S_OK, S_OK, S_OK] ∧
      ∃ task ∈ c₂.shared.accepted, (task, false) ∈ c₂.shared.started := by
  have h : ((machine QueueGame).run anyStep
      ([QueueGame.call (.create 0 0 true)] ++ QueueGame.steps 1 1) (QueueGame.start 2 1)).any
      (fun c => decide (c.shared.queueHandles.get 1 = some 0) &&
        ((machine QueueGame).fire c 1 (some (.call (.terminate 1 false [])))).any fun c₁ =>
          decide (c₁.shared.queues[0]? = some ⟨0, 1, [], false, 1, none⟩ ∧
            admitted [0, 1] (fun _ => true) c₁.shared.toCore c₁.frames = 0) &&
          ((machine QueueGame).run anyStep (QueueGame.steps 1 1 ++
            [QueueGame.call (.submitDelayedCallback 1 0 0 (some 7))] ++ QueueGame.steps 1 5 ++
            [QueueGame.call (.dispatch 1 0 0)] ++ QueueGame.steps 1 3) c₁).any fun c₂ => decide (
              (show List ℕ from c₂.shared.mem) = [S_OK, S_OK, S_OK] ∧
              c₂.shared.accepted = [⟨7, 0, none, 0⟩] ∧
              c₂.shared.started = [(⟨7, 0, none, 0⟩, false)])) = true := by
    decide +kernel
  obtain ⟨c, hr, hc⟩ := Machine.Reaches.of_run_any h
  rw [Bool.and_eq_true] at hc
  obtain ⟨c₁, hf, hc₁⟩ := (Option.any_eq_true _ _).mp hc.2
  rw [Bool.and_eq_true] at hc₁
  obtain ⟨hq, hzero⟩ := of_decide_eq_true hc₁.1
  obtain ⟨c₂, hr', hc₂⟩ := Machine.Reaches.of_run_any hc₁.2
  obtain ⟨hmem, hacc, hstarted⟩ := of_decide_eq_true hc₂
  refine ⟨c, c₁, c₂, _, hr, of_decide_eq_true hc.1, hf, hr', hq, ?_, hmem, ⟨7, 0, none, 0⟩, ?_, ?_⟩
  · intro hrefuses
    have hle := hrefuses.admits.count fun _ => true
    have hone : 1 ≤ admitted [0, 1] (fun _ => true) c₂.shared.toCore c₂.frames := by
      unfold admitted
      rw [hacc]
      exact Nat.le_add_right 1 _
    change admitted [0, 1] _ _ _ ≤ admitted [0, 1] _ _ _ at hle
    omega
  · rw [hacc]
    exact List.mem_singleton_self _
  · rw [hstarted]
    exact List.mem_singleton_self _

end XGameRuntime.XAsync
