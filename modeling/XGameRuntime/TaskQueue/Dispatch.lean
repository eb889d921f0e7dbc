import XGameRuntime.TaskQueue.Turns

/-! # One call of `dispatch`

A dispatch keeps all it knows in the frame it leaves on the stack of its thread, below the callbacks
that it calls, so the whole call is followed by looking at that frame. Whatever the callbacks and the
other threads do in the meantime, it calls its first callback and those that it found ready when that
one returned, and no others.
-/

namespace XGameRuntime.TaskQueue
open Concurrency
set_option autoImplicit false

variable {κ : Type}

/-! ## The stages of a call -/

/-- How far a dispatch has come. Of its batch `snapshot` it has still to call `left`. -/
inductive DispatchStage (κ : Type) where
  | called
  | waiting (deadline : ℕ)
  | first (task : Task κ)
  | batch (task : Task κ) (snapshot left : List (Task κ))
  | returned (value : Bool) (ran : List (Task κ))

/-- The frame that a dispatch leaves on the stack. -/
def DispatchStage.frame {γ : Type} (d : Dispatch γ) : DispatchStage κ → Option (Frame κ γ)
  | .called => some (.dispatch d)
  | .waiting deadline => some (.dispatchWait d deadline)
  | .first _ => some (.drainReady d)
  | .batch _ snapshot left => some (.dispatchBatch d left (1 + snapshot.length))
  | .returned _ _ => none

section Call
variable (C : Client κ) (i : ℕ) (k : List (Frame κ C.Frame)) (d : Dispatch C.Frame)
  (c : Config (World C) (Frame κ C.Frame))

/-- Code of the dispatch, called by thread `i` on the stack `k`, runs in a step from `b` to `b'` and
leaves `push` on the stack. -/
structure DispatchStep (f : Frame κ C.Frame) (push : List (Frame κ C.Frame))
    (b b' : Config (World C) (Frame κ C.Frame)) : Prop where
  top : b.threads[i]? = some (f :: k)
  fire : ∃ x, (machine C).fire b i x = some b'
  stack : b'.threads[i]? = some (push ++ k)

/-- The stages that the dispatch `d`, called by thread `i` on the stack `k` in `c`, goes through. -/
inductive DispatchRun : DispatchStage κ → Config (World C) (Frame κ C.Frame) → Prop where
  | called {e : Config (World C) (Frame κ C.Frame)}
      (ho : (machine C).Over anyStep i (.dispatch d :: k) c e) : DispatchRun .called e
  | wait {b b' e : Config (World C) (Frame κ C.Frame)} (hb : DispatchRun .called b)
      (hs : DispatchStep C i k (.dispatch d) [.dispatchWait d (b.shared.now + d.timeout)] b b')
      (ho : (machine C).Over anyStep i (.dispatchWait d (b.shared.now + d.timeout) :: k) b' e) :
      DispatchRun (.waiting (b.shared.now + d.timeout)) e
  /-- The port is terminated, or the time is up and nothing is ready. -/
  | empty {b e : Config (World C) (Frame κ C.Frame)} {deadline : ℕ} {port : Port κ}
      (hb : DispatchRun (.waiting deadline) b)
      (hs : DispatchStep C i k (.dispatchWait d deadline) (d.onFalse.map .client) b e)
      (hp : b.shared.ports[d.port]? = some port)
      (hn : port.state.terminated = true ∨
        deadline ≤ b.shared.now ∧ ∀ task ∈ port.state.tasks, task.readyAt b.shared.now = false)
      (he : e.shared.toCore = b.shared.toCore) : DispatchRun (.returned false []) e
  /-- The first callback is the head of the port. -/
  | take {b b' e : Config (World C) (Frame κ C.Frame)} {deadline : ℕ} {port : Port κ}
      {task : Task κ} {rest : List (Task κ)} (hb : DispatchRun (.waiting deadline) b)
      (hs : DispatchStep C i k (.dispatchWait d deadline) [.invoke task false, .drainReady d] b b')
      (hp : b.shared.ports[d.port]? = some port) (ht : port.state.terminated = false)
      (hl : port.state.tasks = task :: rest) (hr : task.readyAt b.shared.now = true)
      (hq : b'.shared.toCore.queue d.port = rest)
      (ho : (machine C).Over anyStep i (.drainReady d :: k) b' e) : DispatchRun (.first task) e
  /-- It has returned: what is queued and ready now is the batch. -/
  | snapshot {b b' e : Config (World C) (Frame κ C.Frame)} {task : Task κ}
      {snapshot : List (Task κ)} (hb : DispatchRun (.first task) b)
      (hs : DispatchStep C i k (.drainReady d) [.dispatchBatch d snapshot (1 + snapshot.length)] b b')
      (hn : snapshot = (b.shared.toCore.queue d.port).filter fun t => t.readyAt b.shared.now)
      (hq : b'.shared.toCore.queue d.port =
        (b.shared.toCore.queue d.port).filter fun t => !t.readyAt b.shared.now)
      (ho : (machine C).Over anyStep i
        (.dispatchBatch d snapshot (1 + snapshot.length) :: k) b' e) :
      DispatchRun (.batch task snapshot snapshot) e
  | next {b b' e : Config (World C) (Frame κ C.Frame)} {task t : Task κ}
      {snapshot left : List (Task κ)} (hb : DispatchRun (.batch task snapshot (t :: left)) b)
      (hs : DispatchStep C i k (.dispatchBatch d (t :: left) (1 + snapshot.length))
        [.invoke t false, .dispatchBatch d left (1 + snapshot.length)] b b')
      (hc : b'.shared.toCore = b.shared.toCore)
      (ho : (machine C).Over anyStep i
        (.dispatchBatch d left (1 + snapshot.length) :: k) b' e) :
      DispatchRun (.batch task snapshot left) e
  | done {b e : Config (World C) (Frame κ C.Frame)} {task : Task κ} {snapshot : List (Task κ)}
      (hb : DispatchRun (.batch task snapshot []) b)
      (hs : DispatchStep C i k (.dispatchBatch d [] (1 + snapshot.length))
        (d.onTrue.map .client) b e)
      (hq : e.shared.toCore.queue d.port = b.shared.toCore.queue d.port) :
      DispatchRun (.returned true (task :: snapshot)) e

end Call

/-! ## The steps of a dispatch -/

section Steps
variable {C : Client κ} {c c' : Config (World C) (Frame κ C.Frame)} {i : ℕ}
  {k : List (Frame κ C.Frame)} {x : Option C.Choice} {d : Dispatch C.Frame}

/-- A frame of a dispatch runs a section of the core. -/
theorem fire_core {f : Frame κ C.Frame} (hf : ∀ g, f ≠ .client g)
    (hreg : ∀ s, registryStep C s f = none) (hk : c.threads[i]? = some (f :: k)) :
    (machine C).fire c i x = some c' ↔ ∃ o, coreStep C.body c.shared.toCore f = some o ∧
      c' = ⟨⟨{ c.shared.toTaskQueues with toCore := o.shared }, c.shared.mem⟩,
        c.threads.set i (o.push ++ k) ++ o.spawn⟩ := by
  have hqueue : ∀ q, queueStep C c.shared.toTaskQueues f = some q ↔
      ∃ o, coreStep C.body c.shared.toCore f = some o ∧
        q = ⟨{ c.shared.toTaskQueues with toCore := o.shared }, o.push, o.spawn⟩ := by
    intro q
    unfold queueStep
    rw [hreg]
    simp only [Option.map_eq_some_iff]
    exact exists_congr fun o => and_congr_right fun _ => eq_comm
  unfold Machine.fire
  rw [hk]
  simp only [Option.map_eq_some_iff]
  constructor
  · rintro ⟨o, ho, rfl⟩
    obtain ⟨q, hq, rfl⟩ := (step_queue hf).mp ho
    obtain ⟨o', ho', rfl⟩ := (hqueue q).mp hq
    exact ⟨o', ho', rfl⟩
  · rintro ⟨o, ho, rfl⟩
    exact ⟨_, (step_queue hf).mpr ⟨_, (hqueue _).mpr ⟨o, ho, rfl⟩, rfl⟩, rfl⟩

theorem getElem?_ran {push : List (Frame κ C.Frame)} {spawn : List (List (Frame κ C.Frame))}
    {f : Frame κ C.Frame} (hk : c.threads[i]? = some (f :: k)) :
    (c.threads.set i (push ++ k) ++ spawn)[i]? = some (push ++ k) := by
  have hlt : i < c.threads.length := (List.getElem?_eq_some_iff.mp hk).1
  rw [List.getElem?_append_left (by simpa using hlt), List.getElem?_set_self hlt]

/-- What a step of a dispatch finds and leaves, by the frame that runs. -/
theorem dispatchStep_of_fire {f : Frame κ C.Frame} (hf : ∀ g, f ≠ .client g)
    (hreg : ∀ s, registryStep C s f = none) (hk : c.threads[i]? = some (f :: k)) (hfire : (machine C).fire c i x = some c') :
    ∃ o, coreStep C.body c.shared.toCore f = some o ∧ c'.shared.toCore = o.shared ∧
      DispatchStep C i k f o.push c c' := by
  obtain ⟨o, ho, rfl⟩ := (fire_core hf hreg hk).mp hfire
  exact ⟨o, ho, rfl, hk, ⟨x, hfire⟩, getElem?_ran hk⟩

theorem InOrder.none_ready {accepted : List (Task κ)} {s : PortState κ} {now : ℕ}
    (h : InOrder accepted s.tasks) (hn : s.waitForTask now = .notYet) :
    ∀ task ∈ s.tasks, task.readyAt now = false := by
  intro task ht
  obtain ⟨due, hd, hlt, -⟩ := (h.headAnswers now).sleep hn none task ht
  unfold Task.readyAt
  rw [hd]
  exact decide_eq_false (by omega)

end Steps

section Runs
variable {C : Client κ} {c₀ c b e : Config (World C) (Frame κ C.Frame)} {i : ℕ}
  {k : List (Frame κ C.Frame)} {x : Option C.Choice} {d : Dispatch C.Frame}
  {stage : DispatchStage κ}

theorem DispatchStep.reaches {f : Frame κ C.Frame} {push : List (Frame κ C.Frame)}
    (h : DispatchStep C i k f push b e) : (machine C).Reaches anyStep b e := by
  obtain ⟨x, hfire⟩ := h.fire
  exact .tail .refl ⟨i, x, fun _ _ => trivial, hfire⟩

/-- Until it returns, the frame of the dispatch is on the stack of its thread. -/
theorem DispatchRun.stack (h : DispatchRun C i k d c stage b) {f : Frame κ C.Frame}
    (hf : stage.frame d = some f) : ∃ l, b.threads[i]? = some (l ++ f :: k) := by
  cases h with
  | empty | done => cases hf
  | called ho | wait _ _ ho | take _ _ _ _ _ _ _ ho | snapshot _ _ _ _ ho | next _ _ _ ho =>
    rw [← Option.some.inj hf]
    exact ho.stack

/-- What other threads and the callbacks do keeps a dispatch in its stage. -/
theorem DispatchRun.stay (h : DispatchRun C i k d c stage b) {f : Frame κ C.Frame}
    (hf : stage.frame d = some f) (hfires : (machine C).Fires anyStep b e)
    {l : List (Frame κ C.Frame)} (he : e.threads[i]? = some (l ++ f :: k)) :
    DispatchRun C i k d c stage e := by
  cases h with
  | empty | done => cases hf
  | called ho =>
    cases hf
    exact .called (ho.tail hfires he)
  | wait hb hs ho =>
    cases hf
    exact .wait hb hs (ho.tail hfires he)
  | take hb hs hp ht hl hr hq ho =>
    cases hf
    exact .take hb hs hp ht hl hr hq (ho.tail hfires he)
  | snapshot hb hs hn hq ho =>
    cases hf
    exact .snapshot hb hs hn hq (ho.tail hfires he)
  | next hb hs hc ho =>
    cases hf
    exact .next hb hs hc (ho.tail hfires he)

/-- A step of the dispatch itself takes it to its next stage. -/
theorem DispatchRun.advance (h : DispatchRun C i k d c stage b) {f : Frame κ C.Frame}
    (hf : stage.frame d = some f) (hin : b.shared.toCore.InOrder)
    (hk : b.threads[i]? = some (f :: k)) (hfire : (machine C).fire b i x = some e) :
    ∃ stage', DispatchRun C i k d c stage' e := by
  cases stage with
  | returned => cases hf
  | called =>
    cases hf
    obtain ⟨o, ho, -, hs⟩ := dispatchStep_of_fire (by simp) (fun _ => rfl) hk hfire
    cases ho
    exact ⟨_, .wait h hs (.refl (l := []) hs.stack)⟩
  | waiting deadline =>
    cases hf
    obtain ⟨o, ho, he, hs⟩ := dispatchStep_of_fire (by simp) (fun _ => rfl) hk hfire
    simp only [coreStep, Option.bind_eq_bind, Option.bind_eq_some_iff] at ho
    obtain ⟨port, hp, ho⟩ := ho
    split at ho
    · rename_i hw
      cases ho
      exact ⟨_, .empty h hs hp (.inl (waitForTask_terminated hw)) he⟩
    · rename_i task state hw
      cases ho
      obtain ⟨ht, hr, rest, hl, rfl⟩ := PortState.waitForTask_ready hw
      refine ⟨_, .take h hs hp ht hl hr ?_ (.refl (l := [.invoke task false]) hs.stack)⟩
      rw [he, Core.queue_setPort hp rfl, if_pos rfl]
    · rename_i hw
      split at ho
      · rename_i hd
        cases ho
        exact ⟨_, .empty h hs hp (.inr ⟨hd, (hin d.port port hp).none_ready hw⟩) he⟩
      · cases ho
  | first task =>
    cases hf
    obtain ⟨o, ho, he, hs⟩ := dispatchStep_of_fire (by simp) (fun _ => rfl) hk hfire
    simp only [coreStep, Option.bind_eq_bind, Option.bind_eq_some_iff] at ho
    obtain ⟨port, hp, ho⟩ := ho
    cases ho
    have hans := (hin d.port port hp).headAnswers b.shared.now
    have hqueue := Core.queue_eq (s := b.shared.toCore) hp
    refine ⟨_, .snapshot h hs ?_ ?_ (.refl (l := []) hs.stack)⟩
    · rw [hqueue]
      exact hans.drained
    · rw [hqueue, he, Core.queue_setPort hp rfl, if_pos rfl]
      exact hans.left
  | batch task snapshot left =>
    cases hf
    obtain ⟨o, ho, he, hs⟩ := dispatchStep_of_fire (by simp) (fun _ => rfl) hk hfire
    cases left with
    | cons t left =>
      cases ho
      exact ⟨_, .next h hs he (.refl (l := [.invoke t false]) hs.stack)⟩
    | nil =>
      simp only [coreStep, Option.bind_eq_bind, Option.bind_eq_some_iff] at ho
      obtain ⟨port, hp, ho⟩ := ho
      cases ho
      refine ⟨_, .done h hs ?_⟩
      rw [he, Core.queue_setPort hp rfl, if_pos rfl, PortState.finishN_tasks, Core.queue_eq hp]

/-- A run from the call on goes through the stages, and goes on arbitrarily once the dispatch has
returned. -/
theorem dispatch_run (h0 : Initial C c₀) (hc : (machine C).Reaches anyStep c₀ c)
    (hk : c.threads[i]? = some (.dispatch d :: k)) (h : (machine C).Reaches anyStep c b) :
    ∃ stage e, DispatchRun C i k d c stage e ∧
      (e = b ∨ stage.frame d = none ∧ (machine C).Reaches anyStep e b) := by
  induction h with
  | refl => exact ⟨.called, c, .called (.refl (l := []) hk), .inl rfl⟩
  | @tail b b' hcb hfires ih =>
    obtain ⟨stage, e, hrun, hrest⟩ := ih
    rcases hrest with rfl | ⟨hret, hrest⟩
    · cases hf : stage.frame d with
      | none => exact ⟨stage, e, hrun, .inr ⟨hf, .tail .refl hfires⟩⟩
      | some f =>
        obtain ⟨l, hl⟩ := hrun.stack hf
        obtain ⟨j, x, -, hfire⟩ := id hfires
        rcases fire_keeps hl hfire with ⟨l', hl'⟩ | ⟨rfl, htop⟩
        · exact ⟨stage, b', hrun.stay hf hfires hl', .inl rfl⟩
        · obtain ⟨stage', hrun'⟩ :=
            hrun.advance hf (reaches_inOrder h0 (hc.trans hcb)) htop hfire
          exact ⟨stage', b', hrun', .inl rfl⟩
    · exact ⟨stage, e, hrun, .inr ⟨hret, hrest.tail hfires⟩⟩

/-! ## What it has called -/

theorem DispatchRun.reaches (h : DispatchRun C i k d c stage e) :
    (machine C).Reaches anyStep c e := by
  induction h with
  | called ho => exact ho.reaches
  | empty hb hs _ _ _ ih | done hb hs _ ih => exact ih.trans hs.reaches
  | wait hb hs ho ih | take hb hs _ _ _ _ _ ho ih | snapshot hb hs _ _ ho ih
    | next hb hs _ ho ih => exact (ih.trans hs.reaches).trans ho.reaches

/-- A callback that was called has started once the frame below the call runs. -/
theorem started_of_over {b' : Config (World C) (Frame κ C.Frame)} {t : Task κ}
    {g : Frame κ C.Frame} (hb : b'.threads[i]? = some (.invoke t false :: g :: k))
    (ho : (machine C).Over anyStep i (g :: k) b' e) (he : e.threads[i]? = some (g :: k)) :
    (t, false) ∈ e.shared.started := by
  rcases ho.reaches.over_or_popped (l := []) hb with hover | ⟨a, x, a', -, ha, -, hfire, hrest⟩
  · obtain ⟨l, hl⟩ := hover.stack
    rw [he, Option.some.injEq] at hl
    have hlen := congrArg List.length hl
    simp only [List.length_cons, List.length_append] at hlen
    omega
  · obtain ⟨o, ho', hshared, -⟩ := dispatchStep_of_fire (by simp) (fun _ => rfl) ha hfire
    cases ho'
    refine (reaches_later hrest).started.subset ?_
    rw [hshared]
    exact List.mem_cons_self

theorem DispatchRun.first_started (h : DispatchRun C i k d c stage e) {task : Task κ}
    (hstage : stage = .first task) (he : e.threads[i]? = some (.drainReady d :: k)) :
    (task, false) ∈ e.shared.started := by
  cases h with
  | take hb hs hp ht hl hr hq ho =>
    cases hstage
    exact started_of_over hs.stack ho he
  | _ => cases hstage

/-- The batch of a dispatch: it was cut off the port in one step, after the first callback, and what
is no longer to be called has been called. -/
structure Batched (C : Client κ) (i : ℕ) (k : List (Frame κ C.Frame)) (d : Dispatch C.Frame)
    (c : Config (World C) (Frame κ C.Frame)) (task : Task κ) (snapshot : List (Task κ))
    (s s' e : Config (World C) (Frame κ C.Frame)) : Prop where
  first : DispatchRun C i k d c (.first task) s
  cut : DispatchStep C i k (.drainReady d) [.dispatchBatch d snapshot (1 + snapshot.length)] s s'
  ready : snapshot = (s.shared.toCore.queue d.port).filter fun t => t.readyAt s.shared.now
  left : s'.shared.toCore.queue d.port =
    (s.shared.toCore.queue d.port).filter fun t => !t.readyAt s.shared.now
  later : (machine C).Reaches anyStep s' e

theorem DispatchRun.batched (h : DispatchRun C i k d c stage e) {task : Task κ}
    {snapshot left : List (Task κ)} (hstage : stage = .batch task snapshot left) :
    ∃ s s' ran, Batched C i k d c task snapshot s s' e ∧ snapshot = ran ++ left ∧
      (e.threads[i]? = some (.dispatchBatch d left (1 + snapshot.length) :: k) →
        ∀ t ∈ ran, (t, false) ∈ e.shared.started) := by
  induction h generalizing left with
  | called | wait | empty | take | done => cases hstage
  | @snapshot b b' e task' snapshot' hb hs hn hq ho ih =>
    cases hstage
    exact ⟨b, b', [], ⟨hb, hs, hn, hq, ho.reaches⟩, rfl, fun _ t ht => nomatch ht⟩
  | @next b b' e task' t snapshot' left' hb hs hc ho ih =>
    cases hstage
    obtain ⟨s, s', ran, hbatch, hsplit, hstarted⟩ := ih rfl
    have hbe := hs.reaches.trans ho.reaches
    refine ⟨s, s', ran ++ [t], { hbatch with later := hbatch.later.trans hbe }, ?_, ?_⟩
    · rw [hsplit, List.append_assoc]
      rfl
    · intro he u hu
      rcases List.mem_append.mp hu with hu | hu
      · exact (reaches_later hbe).started.subset (hstarted hs.top u hu)
      · rw [List.mem_singleton.mp hu]
        exact started_of_over hs.stack ho he

end Runs

/-! ## What it leaves alone -/

/-- The steps that may take a callback off port `p`: those of its consumers, and the two sections of a
termination. -/
def Frame.takesOff {γ : Type} (s : Core κ) (p : ℕ) : Frame κ γ → Prop
  | .worker q => q = p
  | .dispatchWait d _ => d.port = p
  | .drainReady d => d.port = p
  | .terminateContext owner _ _ => s.On owner p
  | .cancel owner [] true _ _ => s.On owner p
  | _ => False

theorem coreStep_keeps_queued {γ : Type} {body : κ → Bool → List γ} {s : Core κ} {f : Frame κ γ}
    {o : Outcome (Core κ) (Frame κ γ)} (h : CoreStep body s f o) {p : ℕ} {task : Task κ}
    (ht : task ∈ s.queue p) : task ∈ o.shared.queue p ∨ f.takesOff s p := by
  have hsame : ∀ {t : Core κ} {q : ℕ} {port port' : Port κ}, s.ports[q]? = some port →
      t.ports = s.ports.set q port' →
      (∀ u ∈ port.state.tasks, u ∈ port'.state.tasks) → task ∈ t.queue p := by
    intro t q port port' hp hports hsub
    rw [Core.queue_setPort hp hports]
    split
    · rename_i he
      rw [← he, Core.queue_eq hp] at ht
      exact hsub task ht
    · exact ht
  cases h with
  | clock | submitContext | submitDue | refuse | acceptDelayed | invoke | running | workerExit
    | delayed | dispatch | dispatchExit | batchNext | terminate | cancelNext | cancelWait
    | cancelReturn | awaitDrained => exact .inl ht
  | acceptInline hc hp | finishOne hp =>
    exact .inl (hsame hp rfl fun _ ht => ht)
  | acceptQueued hc hp =>
    refine .inl (hsame hp rfl fun t ht => ?_)
    rw [PortState.startWorkers_tasks]
    exact (PortState.insert_perm _ _).mem_iff.mpr (List.mem_cons_of_mem _ ht)
  | batchEnd hp =>
    refine .inl (hsame hp rfl fun t ht => ?_)
    rw [PortState.finishN_tasks]
    exact ht
  | workerTake hp | dispatchTake hp | drainReady hp =>
    rw [Core.queue_setPort hp rfl]
    split
    · rename_i he
      exact .inr he
    · exact .inl ht
  | terminateContext hc hp | cancelDrain hc hp =>
    rw [Core.queue_setPort hp rfl]
    split
    · rename_i he
      exact .inr ⟨_, hc, he⟩
    · exact .inl ht

section Facts
variable {C : Client κ} {c₀ c c' e : Config (World C) (Frame κ C.Frame)} {i j : ℕ}
  {k : List (Frame κ C.Frame)} {x : Option C.Choice} {d : Dispatch C.Frame}
  {stage : DispatchStage κ}

/-- A queued callback stays queued unless a consumer or a termination takes it. -/
theorem leaves_queue (hfire : (machine C).fire c j x = some c') {p : ℕ} {task : Task κ}
    (ht : task ∈ c.shared.toCore.queue p) (hn : task ∉ c'.shared.toCore.queue p) :
    ∃ f, c.top j = some f ∧ f.takesOff c.shared.toCore p := by
  obtain ⟨f, k, o, hk, ho, rfl⟩ := fire_cases hfire
  refine ⟨f, top_eq hk, ?_⟩
  rcases step_split ho with ⟨hg, -⟩ | ⟨o', ho', h1, -⟩
  · exact absurd (hg.queue_eq p ▸ ht) hn
  · rw [h1] at hn
    exact (coreStep_keeps_queued (coreStep_inv ho') ht).resolve_left hn

/-- A callback that is queued has not started. -/
theorem Initial.queued_not_started (h0 : Initial C c₀) (h : (machine C).Reaches anyStep c₀ c)
    {p : ℕ} {t u : Task κ} (ht : t ∈ c.shared.toCore.queue p)
    (hu : u ∈ c.shared.started.map Prod.fst) : t.id ≠ u.id := by
  intro hid
  cases hp : c.shared.ports[p]? with
  | none =>
    rw [Core.queue_none hp] at ht
    cases ht
  | some port =>
    rw [Core.queue_eq hp] at ht
    obtain ⟨place, hplace, hstarted⟩ := (h0.sound h).started_place hu
    have hq : (t, Place.queued) ∈ c.shared.holds + weight Frame.holds c.frames := by
      refine Multiset.mem_add.mpr (.inl ?_)
      rw [Core.holds_at hp]
      exact Multiset.mem_add.mpr (.inl (Multiset.mem_map_of_mem _ (Multiset.mem_coe.mpr ht)))
    obtain ⟨-, rfl⟩ := (h0.sound h).same hplace hq hid
    cases hstarted

theorem GoesFirst.irrefl {accepted : List (Task κ)} (hn : accepted.Nodup) {t : Task κ}
    (h : GoesFirst accepted t t) : False := by
  have htwice : ¬ SubmittedBefore accepted t t := fun hs =>
    (List.nodup_cons.mp (hs.nodup hn)).1 List.mem_cons_self
  unfold GoesFirst at h
  cases hd : t.due with
  | none =>
    simp only [hd] at h
    exact htwice h
  | some a =>
    simp only [hd] at h
    rcases h with h | h
    · exact absurd h (Nat.lt_irrefl a)
    · exact htwice h.2

/-- The callbacks of a port are different submissions. -/
theorem InOrder.nodup {accepted tasks : List (Task κ)} (h : InOrder accepted tasks)
    (hn : (accepted.map Task.id).Nodup) : (tasks.map Task.id).Nodup := by
  refine List.pairwise_map.mpr (h.order.imp_of_mem fun {t u} ht hu hg hid => ?_)
  have htu : t = u := List.inj_on_of_nodup_map hn (h.mem t ht) (h.mem u hu) hid
  subst htu
  exact hg.irrefl hn.of_map

/-- From its first callback on, a dispatch knows its port. -/
theorem DispatchRun.port (h : DispatchRun C i k d c stage e) (hstage : (∃ task, stage = .first task) ∨
    ∃ task snapshot left, stage = .batch task snapshot left) :
    ∃ port, e.shared.ports[d.port]? = some port := by
  have hfirst : ∀ {task e}, DispatchRun C i k d c (.first task) e →
      ∃ port, e.shared.ports[d.port]? = some port := by
    intro task e h
    cases h with
    | take hb hs hp _ _ _ _ ho =>
      obtain ⟨port', hp', -⟩ := (reaches_later (hs.reaches.trans ho.reaches)).ports _ _ hp
      exact ⟨port', hp'⟩
  rcases hstage with ⟨task, rfl⟩ | ⟨task, snapshot, left, rfl⟩
  · exact hfirst h
  · obtain ⟨s, s', ran, hbatch, -⟩ := h.batched rfl
    obtain ⟨port, hp⟩ := hfirst hbatch.first
    obtain ⟨port', hp', -⟩ :=
      (reaches_later (hbatch.cut.reaches.trans hbatch.later)).ports _ _ hp
    exact ⟨port', hp'⟩

/-- What lets a dispatch that waits go on. -/
def DispatchStage.MayGoOn (s : Core κ) (p : ℕ) : DispatchStage κ → Prop
  | .waiting deadline => ∃ port ∈ s.ports[p]?, port.state.terminated = true ∨ deadline ≤ s.now ∨
      ∃ task ∈ port.state.tasks, task.readyAt s.now = true
  | _ => True

/-- When its frame is on top of the stack a dispatch can take its next step. -/
theorem DispatchRun.enabled (h : DispatchRun C i k d c stage e) {f : Frame κ C.Frame}
    (hf : stage.frame d = some f) (hin : e.shared.toCore.InOrder)
    (hk : e.threads[i]? = some (f :: k)) (hgo : stage.MayGoOn e.shared.toCore d.port)
    (x : Option C.Choice) : ∃ e', (machine C).fire e i x = some e' := by
  suffices hstep : (∃ o, coreStep C.body e.shared.toCore f = some o) ∧ (∀ g, f ≠ .client g) ∧
      ∀ s, registryStep C s f = none by
    obtain ⟨⟨o, ho⟩, hclient, hreg⟩ := hstep
    exact ⟨_, (fire_core hclient hreg hk).mpr ⟨o, ho, rfl⟩⟩
  cases stage with
  | returned => cases hf
  | called =>
    cases hf
    exact ⟨⟨_, rfl⟩, by simp, fun _ => rfl⟩
  | waiting deadline =>
    cases hf
    refine ⟨?_, by simp, fun _ => rfl⟩
    obtain ⟨port, hp, hgo⟩ := hgo
    rw [Option.mem_def] at hp
    simp only [coreStep, hp, Option.bind_eq_bind, Option.bind_some]
    cases hw : port.state.waitForTask e.shared.now with
    | terminated => exact ⟨_, rfl⟩
    | ready task state => exact ⟨_, rfl⟩
    | notYet =>
      rcases hgo with ht | hd | ⟨task, ht, hr⟩
      · simp [PortState.waitForTask, ht] at hw
      · exact ⟨_, if_pos hd⟩
      · have hnone := (hin d.port port hp).none_ready hw task ht
        rw [hr] at hnone
        cases hnone
  | first task =>
    cases hf
    refine ⟨?_, by simp, fun _ => rfl⟩
    obtain ⟨port, hp⟩ := h.port (.inl ⟨task, rfl⟩)
    simp only [coreStep, hp, Option.bind_eq_bind, Option.bind_some]
    exact ⟨_, rfl⟩
  | batch task snapshot left =>
    cases hf
    refine ⟨?_, by simp, fun _ => rfl⟩
    cases left with
    | cons t left => exact ⟨_, rfl⟩
    | nil =>
      obtain ⟨port, hp⟩ := h.port (.inr ⟨task, snapshot, [], rfl⟩)
      simp only [coreStep, hp, Option.bind_eq_bind, Option.bind_some]
      exact ⟨_, rfl⟩

/-! ## Bounded by the snapshot -/

/-- A dispatch that has returned `true` in `e` has called its first callback and then, in the order of
the list, those that were queued and ready when that one returned: each once, none that was submitted
after the batch was cut off. -/
structure RanSnapshot (C : Client κ) (i : ℕ) (k : List (Frame κ C.Frame)) (d : Dispatch C.Frame)
    (c : Config (World C) (Frame κ C.Frame)) (ran : List (Task κ))
    (e : Config (World C) (Frame κ C.Frame)) : Prop where
  stack : e.threads[i]? = some (d.onTrue.map .client ++ k)
  batch : ∃ task snapshot s s', ran = task :: snapshot ∧ Batched C i k d c task snapshot s s' e ∧
    ∀ t ∈ ran, t ∈ s.shared.accepted
  once : (ran.map Task.id).Nodup
  started : ∀ t ∈ ran, (t, false) ∈ e.shared.started

/-- A dispatch that has returned `false` in `e` has found its port terminated, or its time up with
nothing ready, and has changed nothing. -/
structure RanNothing (C : Client κ) (i : ℕ) (k : List (Frame κ C.Frame)) (d : Dispatch C.Frame)
    (c : Config (World C) (Frame κ C.Frame)) (e : Config (World C) (Frame κ C.Frame)) : Prop where
  stack : e.threads[i]? = some (d.onFalse.map .client ++ k)
  idle : ∃ b port deadline, DispatchRun C i k d c (.waiting deadline) b ∧
    e.shared.toCore = b.shared.toCore ∧ b.shared.ports[d.port]? = some port ∧
    (port.state.terminated = true ∨
      deadline ≤ b.shared.now ∧ ∀ task ∈ port.state.tasks, task.readyAt b.shared.now = false)

theorem DispatchRun.ranSnapshot (h0 : Initial C c₀) (hc : (machine C).Reaches anyStep c₀ c)
    {ran : List (Task κ)} (h : DispatchRun C i k d c (.returned true ran) e) :
    RanSnapshot C i k d c ran e := by
  have hreach := h.reaches
  cases h with
  | @done b _ task snapshot hb hs hq =>
    obtain ⟨s, s', ran, hbatch, hsplit, hstarted⟩ := hb.batched rfl
    rw [List.append_nil] at hsplit
    subst hsplit
    have hbe := reaches_later hs.reaches
    have hse := (reaches_later (hbatch.cut.reaches.trans hbatch.later)).trans hbe
    have hs0 := hc.trans hbatch.first.reaches
    have hfirst := hbatch.first.first_started rfl hbatch.cut.top
    have hmem : ∀ t ∈ snapshot, t ∈ s.shared.toCore.queue d.port := by
      intro t ht
      rw [hbatch.ready] at ht
      exact List.mem_of_mem_filter ht
    have hstartedTask : task ∈ s.shared.started.map Prod.fst := List.mem_map_of_mem hfirst
    have hin := reaches_inOrder h0 hs0
    have haccepted : ∀ t ∈ snapshot, t ∈ s.shared.accepted := by
      intro t ht
      obtain ⟨port, hp⟩ := hbatch.first.port (.inl ⟨task, rfl⟩)
      have hqueue := hmem t ht
      rw [Core.queue_eq hp] at hqueue
      exact (hin d.port port hp).mem t hqueue
    refine ⟨hs.stack, ⟨task, snapshot, s, s', rfl, { hbatch with later := ?_ }, ?_⟩, ?_, ?_⟩
    · exact hbatch.later.trans hs.reaches
    · exact List.forall_mem_cons.mpr ⟨(h0.sound hs0).accepted_of_started hstartedTask, haccepted⟩
    · rw [List.map_cons, List.nodup_cons]
      refine ⟨fun hmap => ?_, ?_⟩
      · obtain ⟨t, ht, hid⟩ := List.mem_map.mp hmap
        exact h0.queued_not_started hs0 (hmem t ht) hstartedTask hid
      · obtain ⟨port, hp⟩ := hbatch.first.port (.inl ⟨task, rfl⟩)
        have hnodup := (hin d.port port hp).nodup (h0.sound hs0).nodup_accepted
        rw [← Core.queue_eq hp] at hnodup
        rw [hbatch.ready]
        exact hnodup.sublist (List.filter_sublist.map _)
    · refine List.forall_mem_cons.mpr ⟨hse.started.subset hfirst, fun t ht => ?_⟩
      exact hbe.started.subset (hstarted hs.top t ht)

theorem DispatchRun.ranNothing {ran : List (Task κ)}
    (h : DispatchRun C i k d c (.returned false ran) e) :
    ran = [] ∧ RanNothing C i k d c e := by
  cases h with
  | @empty b _ deadline port hb hs hp hn he =>
    exact ⟨rfl, hs.stack, b, port, deadline, hb, he, hp, hn⟩

/-- What is said of a dispatch that thread `i` calls on the stack `k` in `c`, and of the run from there
to `b`. -/
structure BoundedBySnapshot (C : Client κ) (i : ℕ) (k : List (Frame κ C.Frame))
    (d : Dispatch C.Frame) (c b : Config (World C) (Frame κ C.Frame)) : Prop where
  /-- The dispatch is in one of its stages, or has returned on the way. -/
  stages : ∃ stage e, DispatchRun C i k d c stage e ∧
    (e = b ∨ stage.frame d = none ∧ (machine C).Reaches anyStep e b)
  /-- Only its port can keep it waiting, and only before its first callback. -/
  goesOn : ∀ stage e f x, DispatchRun C i k d c stage e → stage.frame d = some f →
    e.threads[i]? = some (f :: k) → stage.MayGoOn e.shared.toCore d.port →
    ∃ e', (machine C).fire e i x = some e'
  returnsTrue : ∀ ran e, DispatchRun C i k d c (.returned true ran) e → RanSnapshot C i k d c ran e
  returnsFalse : ∀ ran e, DispatchRun C i k d c (.returned false ran) e →
    ran = [] ∧ RanNothing C i k d c e
  /-- Other callbacks stay queued unless a consumer or a termination takes them. -/
  stays : ∀ e j x e' p task, (machine C).Reaches anyStep c e → (machine C).fire e j x = some e' →
    task ∈ e.shared.toCore.queue p → task ∉ e'.shared.toCore.queue p →
    ∃ f, e.top j = some f ∧ f.takesOff e.shared.toCore p

theorem dispatch_bounded_by_snapshot (h0 : Initial C c₀) (hc : (machine C).Reaches anyStep c₀ c)
    (hk : c.threads[i]? = some (.dispatch d :: k)) {b : Config (World C) (Frame κ C.Frame)}
    (h : (machine C).Reaches anyStep c b) : BoundedBySnapshot C i k d c b :=
  ⟨dispatch_run h0 hc hk h,
    fun _ _ _ x hrun hf hstack hgo =>
      hrun.enabled hf (reaches_inOrder h0 (hc.trans hrun.reaches)) hstack hgo x,
    fun _ _ hrun => hrun.ranSnapshot h0 hc, fun _ _ hrun => hrun.ranNothing,
    fun _ _ _ _ _ _ _ hfire ht hn => leaves_queue hfire ht hn⟩

end Facts

/-- The thread of the game has just called the dispatch. -/
def aboutToDispatch (c : Config (World QueueGame) (Frame ℕ QueueGame.Frame)) : Bool :=
  match (c.threads[1]? : Option (List (Frame ℕ QueueGame.Frame))) with
  | some (.dispatch _ :: _) => true
  | _ => false

/-- A dispatch of two callbacks, the first of which submits a third one. -/
theorem dispatch_bounded_by_snapshot_resubmits :
    ∃ c b d k, (machine QueueGame).Reaches anyStep (QueueGame.start 2 1) c ∧
      c.threads[1]? = some (.dispatch d :: k) ∧ (machine QueueGame).Reaches anyStep c b ∧
      b.shared.started.map (fun call => call.1.callback) = [9, 8, 7] ∧
      BoundedBySnapshot QueueGame 1 k d c b := by
  have h : ((machine QueueGame).run anyStep
      ([QueueGame.call (.create 0 0 true)] ++ QueueGame.steps 1 1 ++
        [QueueGame.call (.submitDelayedCallback 1 0 0 (some 7))] ++ QueueGame.steps 1 5 ++
        [QueueGame.call (.submitDelayedCallback 1 0 0 (some 8))] ++ QueueGame.steps 1 5 ++
        [QueueGame.call (.dispatch 1 0 0)])
      (QueueGame.start 2 1)).any (fun c =>
        aboutToDispatch c &&
        ((machine QueueGame).run anyStep
          (QueueGame.steps 1 3 ++ [QueueGame.call (.submitDelayedCallback 1 0 0 (some 9))] ++
            QueueGame.steps 1 16) c).any fun b => decide
              (b.shared.started.map (fun call => call.1.callback) = [9, 8, 7])) = true := by
    decide +kernel
  obtain ⟨c, hc, hcheck⟩ := Machine.Reaches.of_run_any h
  obtain ⟨hk, hrun⟩ := (Bool.and_eq_true _ _).mp hcheck
  obtain ⟨b, hb, hstarted⟩ := Machine.Reaches.of_run_any hrun
  unfold aboutToDispatch at hk
  split at hk
  · rename_i d k hstack
    exact ⟨c, b, d, k, hc, hstack, hb, of_decide_eq_true hstarted,
      dispatch_bounded_by_snapshot (QueueGame.initial 2 1) hc hstack hb⟩
  · cases hk

end XGameRuntime.TaskQueue
