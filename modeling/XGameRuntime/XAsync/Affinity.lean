import XGameRuntime.TaskQueue.Names
import XGameRuntime.TaskQueue.Placement
import XGameRuntime.XAsync.Routing

/-! # Where a completion routine runs

Every completion of a call is submitted to the completion half of the queue that `XAsyncBegin`
has chosen for the call. That is the completion port of the queue the block named, unless the
begin has moved the block to the process queue.
-/

namespace XGameRuntime.XAsync
open Concurrency TaskQueue
set_option autoImplicit false

section Calls
variable {m : Memory} {s : TaskQueues Callback} {code : Code} {x : Choice} {r : EngineStep}

theorem AsyncState.Same.trans {a b c : AsyncState} (h1 : a.Same b) (h2 : b.Same c) : a.Same c :=
  ⟨h2.provider.trans h1.provider, h2.identity.trans h1.identity, h2.queue.trans h1.queue,
    h2.block.trans h1.block⟩

theorem reaches_keeps {G : Guard (World Engine) (Frame Callback Code) (Option Choice)}
    {c c' : Config (World Engine) (Frame Callback Code)} (h : (machine Engine).Reaches G c c')
    {i : ℕ} {state : AsyncState} (hs : c.shared.mem.states[i]? = some state) :
    ∃ state', c'.shared.mem.states[i]? = some state' ∧ state.Same state' := by
  induction h with
  | refl => exact ⟨state, hs, .rfl⟩
  | tail _ hf ih =>
    obtain ⟨mid, hmid, hsame⟩ := ih
    obtain ⟨j, x, f, o, -, -, -, hstep, hshared, -⟩ := hf.cases
    rw [hshared]
    rcases engine_step_cases hstep with ⟨-, hmem, -⟩ | ⟨code, choice, r, -, -, hr, hmem, -⟩
    · rw [hmem]
      exact ⟨mid, hmid, hsame⟩
    · rw [hmem]
      obtain ⟨new, hnew, hsame'⟩ := hr.keeps hmid
      exact ⟨new, hnew, hsame.trans hsame'⟩

end Calls

/-! ## Completions are submitted to the queue of their call -/

/-- A submission that carries a completion goes to the completion half of the queue of its call,
and only its refusal goes on with the routine itself. -/
structure Submits (m : Memory) (a : Submission Callback Code) : Prop where
  queue : ∀ i callback, a.callback = .completion i callback → a.kind = .completion ∧
    ∃ state, m.states[i]? = some state ∧ state.queue = a.queue
  onAccepted : ∀ i callback, .completionCallback i callback ∉ a.onAccepted
  onRefused : ∀ i callback, .completionCallback i callback ∈ a.onRefused →
    a.callback = .completion i callback

/-- The routine is only called by a callback that the queue has started, or in place of one that
it has refused. -/
def Delivers (s : Core Callback) (code : Code) : Prop :=
  ∀ i callback, code = .completionCallback i callback →
    ∃ task, task.callback = .completion i callback ∧
      (task ∈ s.refused ∨ ∃ canceled, (task, canceled) ∈ s.started)

section Provenance
variable {m : Memory} {s : TaskQueues Callback} {code : Code} {x : Choice} {r : EngineStep}

theorem Submits.later {m' : Memory} {a : Submission Callback Code} (h : Submits m a)
    (hs : ∀ (i : ℕ) (state : AsyncState), m.states[i]? = some state →
      ∃ state', m'.states[i]? = some state' ∧ state.Same state') : Submits m' a := by
  refine ⟨fun i callback he => ?_, h.onAccepted, h.onRefused⟩
  obtain ⟨hk, state, hstate, hq⟩ := h.queue i callback he
  obtain ⟨state', hstate', hsame⟩ := hs i state hstate
  exact ⟨hk, state', hstate', hsame.queue.trans hq⟩

def isRoutine : Code → Bool
  | .completionCallback .. => true
  | _ => false

def isCompletion : Callback → Bool
  | .completion .. => true
  | _ => false

/-- An instruction that submits no completion and does not call the routine. -/
def Quiet (i : Instr Callback Code) : Prop :=
  i.Justified (fun a => isCompletion a.callback = false ∧ (∀ g ∈ a.onAccepted, isRoutine g = false) ∧
    ∀ g ∈ a.onRefused, isRoutine g = false) fun g => isRoutine g = false

@[simp] theorem quiet_frame (g : Code) : Quiet (.frame g) ↔ isRoutine g = false := Iff.rfl

@[simp] theorem quiet_submit (a : Submission Callback Code) :
    Quiet (.submit a) ↔ isCompletion a.callback = false ∧
      (∀ g ∈ a.onAccepted, isRoutine g = false) ∧ ∀ g ∈ a.onRefused, isRoutine g = false := Iff.rfl

@[simp] theorem quiet_dispatch (d : Dispatch Code) : Quiet (.dispatch d) ↔
    (∀ g ∈ d.onTrue, isRoutine g = false) ∧ ∀ g ∈ d.onFalse, isRoutine g = false := Iff.rfl

@[simp] theorem quiet_terminate (a : Termination Code) :
    Quiet (.terminate a) ↔ ∀ g ∈ a.after, isRoutine g = false := Iff.rfl

theorem queue_quiet (c : QueueCall ℕ Unit) (s : TaskQueues Callback) :
    (∀ i ∈ (gameCall s c).run, Quiet i) ∧
    ∀ k ∈ (gameCall s c).spawn,
      ∀ i ∈ k, Quiet i := by
  cases c with
  | submitDelayedCallback queue port delayMs callback =>
    cases callback with
    | none => simp [gameCall, QueueCall.map, QueueCall.perform]
    | some id =>
      simp only [gameCall, QueueCall.map, Option.map_some, QueueCall.perform]
      split <;> simp [isCompletion]
  | _ =>
    simp only [gameCall, QueueCall.map, QueueCall.perform]
    repeat' split
    all_goals simp [isRoutine]

theorem Invokes.quiet {i : ℕ} {state : AsyncState} {op : XAsyncOp} (h : Invokes m i state op r) :
    (∀ i ∈ r.run, Quiet i) ∧ r.spawn = [] := by
  cases h <;> simp [isRoutine, isCompletion, runSyncSubmission]

theorem Begins.quiet {b identity : ℕ} {provider : Provider}
    (h : Begins m s b identity provider r) : (∀ i ∈ r.run, Quiet i) ∧ r.spawn = [] := by
  cases h with
  | rejected => exact ⟨by simp, rfl⟩
  | unrouted => exact ⟨by simp, rfl⟩
  | parked => exact ⟨by simp [isRoutine], rfl⟩

/-- Only the end of `complete_state` submits a completion. -/
theorem Steps.quiet (h : Steps m s code x r) :
    ((∀ i ∈ r.run, Quiet i) ∧ ∀ k ∈ r.spawn, ∀ i ∈ k, Quiet i) ∨
    ∃ i state callback, m.states[i]? = some state ∧ r.mem.states = m.states ∧ r.spawn = [] ∧
      r.run = [.submit ⟨state.queue, .completion, 0, .completion i callback, [],
        [.completionCallback i callback]⟩] := by
  cases h with
  | queue hr =>
    subst hr
    left
    simp only [List.forall_mem_append, List.forall_mem_singleton]
    exact ⟨⟨(queue_quiet _ _).1, by simp [isRoutine]⟩, (queue_quiet _ _).2⟩
  | begin h | run h | runSync _ h =>
    left
    simp only [resume, List.forall_mem_append, List.forall_mem_singleton]
    exact ⟨⟨h.quiet.1, by simp [isRoutine]⟩, by simp [h.quiet.2]⟩
  | invoke _ hi => exact .inl ⟨hi.quiet.1, by simp [hi.quiet.2]⟩
  | announce hs hc => exact .inr ⟨_, _, _, hs, rfl, rfl, rfl⟩
  | @unresolved b c =>
    left
    cases c <;> simp [XAsyncCall.illegal, isRoutine]
  | _ =>
    left
    simp [isRoutine, isCompletion]

theorem Quiet.justified {i : Instr Callback Code} (h : Quiet i) (m : Memory)
    (t : Core Callback) : i.Justified (Submits m) (Delivers t) := by
  have hcode : ∀ g : Code, isRoutine g = false → Delivers t g := by
    intro g hg j callback he
    subst he
    cases hg
  cases i with
  | frame g => exact hcode g h
  | submit a =>
    refine ⟨fun j callback he => ?_, fun j callback hmem => ?_, fun j callback hmem => ?_⟩
    · have hc := h.1
      rw [he] at hc
      cases hc
    · cases h.2.1 _ hmem
    · cases h.2.2 _ hmem
  | dispatch d => exact ⟨fun g hg => hcode g (h.1 g hg), fun g hg => hcode g (h.2 g hg)⟩
  | terminate a => exact fun g hg => hcode g (h g hg)

theorem Steps.keepsSubmits {s : World Engine} (h : Steps s.mem s.toTaskQueues code x r) :
    Keeps Submits (fun _ t => Delivers t) s r := by
  have hsub : ∀ a, Submits s.mem a → Submits r.mem a :=
    fun a ha => ha.later fun i state hs => h.keeps hs
  rcases h.quiet with ⟨hrun, hspawn⟩ | ⟨i, state, callback, hs, hstates, hspawn, hrun⟩
  · exact ⟨fun i hi => (hrun i hi).justified _ _, fun k hk i hi => (hspawn k hk i hi).justified _ _,
      hsub, fun g hg => hg⟩
  · refine ⟨?_, by simp [hspawn], hsub, fun g hg => hg⟩
    rw [hrun]
    simp only [List.forall_mem_singleton]
    refine ⟨fun j callback' he => ?_, by simp, fun j callback' hmem => ?_⟩
    · cases he
      exact ⟨rfl, state, by rw [hstates]; exact hs, rfl⟩
    · cases List.mem_singleton.mp hmem
      rfl

end Provenance

/-- Every callback of the process comes from a submission of which `Submits` holds. -/
theorem submits {pool n : ℕ} {c : Config (World Engine) (Frame Callback Code)}
    {G : Guard (World Engine) (Frame Callback Code) (Option Choice)}
    (h : (machine Engine).Reaches G (Engine.start pool n) c) :
    Justified (Submits c.shared.mem) (Delivers c.shared.toCore) c.shared.toTaskQueues
      c.frames := by
  refine justified_invariant (S := Submits) (K := fun _ t => Delivers t) (J := fun _ _ => True) h
    (fun _ _ => trivial) (Engine.initial pool n) ?_ ?_ ?_ ?_ ?_
  · intro g hg i callback he
    subst he
    obtain ⟨k, hk, hfk⟩ := List.mem_flatten.mp (Multiset.mem_coe.mp hg)
    rcases List.mem_cons.mp hk with rfl | hk
    · cases List.mem_singleton.mp hfk
    · rw [List.eq_of_mem_replicate hk] at hfk
      cases List.mem_singleton.mp hfk
  · intro m t
    refine ⟨fun task canceled hstarted g hg i callback he => ?_,
      fun a task ha _ _ g hg i callback he => ?_, fun a task ha hc hrefused g hg i callback he => ?_⟩
    · subst he
      refine ⟨task, ?_, .inr ⟨canceled, hstarted⟩⟩
      cases htask : task.callback with
      | completion j other =>
        rw [htask] at hg
        cases List.mem_singleton.mp hg
        rfl
      | work j =>
        rw [htask] at hg
        cases canceled <;> cases List.mem_singleton.mp hg
      | _ =>
        rw [htask] at hg
        cases List.mem_singleton.mp hg
    · exact absurd (he ▸ hg) (ha.onAccepted i callback)
    · subst he
      exact ⟨task, hc.trans (ha.onRefused i callback hg), .inl hrefused⟩
  · intro m t context handle kind g hg i callback he
    cases List.mem_singleton.mp hg
    cases he
  · intro m t u g hl hd i callback he
    obtain ⟨task, hc, hmem⟩ := hd i callback he
    refine ⟨task, hc, hmem.imp (fun hr => hl.refused.subset hr) ?_⟩
    rintro ⟨canceled, hst⟩
    exact ⟨canceled, hl.started.subset hst⟩
  · intro s R g choice r _ _ _ hr
    exact (steps_inv hr).keepsSubmits

/-! ## The port behind the queue of a call -/

section Ports
variable {s t : TaskQueues Callback} {q : ℕ}

/-- The queue that the handle of the process queue resolves to. -/
def processTarget (s : TaskQueues Callback) : Option ℕ :=
  match s.processQueueHandle with
  | some handle => s.queueHandles.get handle
  | none => s.processQueue

/-- A begin leaves the block on its queue, or moves it to one that shares the completion port. -/
def Affine (s : TaskQueues Callback) (q : ℕ) : Prop :=
  s.modeOf q .work ≠ some .manual ∨ s.processQueue = some q ∨
    ∃ p, processTarget s = some p ∧ s.portOf p .completion = s.portOf q .completion

theorem portOf_later {kind : PortKind} {p : ℕ} (hl : s.toCore.Later t.toCore)
    (hq : SameContexts s.queues t.queues) (h : s.portOf q kind = some p) :
    t.portOf q kind = some p := by
  simp only [TaskQueues.portOf, Option.bind_eq_bind, Option.bind_eq_some_iff,
    Option.some.injEq] at h ⊢
  obtain ⟨queue, hqueue, context, hc, rfl⟩ := h
  obtain ⟨queue', hqueue', hw, hcompletion⟩ := hq q queue hqueue
  obtain ⟨context', hc', hlater⟩ := hl.contexts _ context hc
  refine ⟨queue', hqueue', context', ?_, hlater.port⟩
  have hsame : queue'.context kind = queue.context kind := by
    cases kind with
    | work => exact hw
    | completion => exact hcompletion
  rw [hsame]
  exact hc'

theorem portOf_exists (hn : s.Named) (hq : q < s.queues.length) (kind : PortKind) :
    ∃ p, s.portOf q kind = some p := by
  have hqueue := List.getElem?_eq_getElem hq
  have hlt := hn.contexts _ (List.mem_of_getElem? hqueue) kind
  refine ⟨(s.contexts[(s.queues[q]).context kind]).port, ?_⟩
  simp [TaskQueues.portOf, hqueue, List.getElem?_eq_getElem hlt]

theorem portOf_lt {kind : PortKind} {p : ℕ} (h : s.portOf q kind = some p)
    (hports : ∀ (o : ℕ) (context : PortContext), s.contexts[o]? = some context →
      ∃ port, s.ports[context.port]? = some port) : p < s.ports.length := by
  simp only [TaskQueues.portOf, Option.bind_eq_bind, Option.bind_eq_some_iff,
    Option.some.injEq] at h
  obtain ⟨queue, -, context, hc, rfl⟩ := h
  obtain ⟨port, hp⟩ := hports _ context hc
  exact (List.getElem?_eq_some_iff.mp hp).1

/-- The ports of a queue made on first use are new. -/
theorem defaultProcessQueue_ports (hnone : s.processQueue = none)
    (h : s.defaultProcessQueue = some (q, t)) :
    q = s.queues.length ∧ t.portOf q .completion = some (s.ports.length + 1) := by
  simp only [TaskQueues.defaultProcessQueue, hnone, Option.bind_eq_bind,
    Option.bind_eq_some_iff] at h
  obtain ⟨u, hu, h⟩ := h
  cases h
  refine ⟨rfl, ?_⟩
  simp only [TaskQueues.newQueue, TaskQueues.composite, Option.bind_eq_bind,
    Option.bind_eq_some_iff] at hu
  obtain ⟨wp, hw, cp, hc, hu⟩ := hu
  cases hu
  simp [TaskQueues.portOf, Queue.context, Core.newContext, Core.newPort, Core.setState,
    Core.setPort]

/-- Where `queue_for` and the rewriting take a block that names a queue. -/
theorem queueFor_moves {field p : ℕ} {route : Route} (hn : s.Numbered)
    (hget : s.queueHandles.get field = some q) (hroute : queueFor s field = some route)
    (hp : route.queue = .ok p) :
    (p = q ∧ (s.modeOf q .work ≠ some .manual ∨ s.processQueue = some q)) ∨
    (s.modeOf q .work = some .manual ∧ s.processQueue ≠ some q ∧
      (processTarget s = some p ∨ processTarget s = none ∧ s.processQueue = none ∧
        p = s.queues.length ∧ ∀ u, Admin.applyAll s route.admin = some u →
          u.portOf p .completion = some (s.ports.length + 1))) := by
  have hf : field ≠ 0 := by
    rintro rfl
    simp [HandleTable.get] at hget
  simp only [queueFor, hf, if_false, hget, Option.bind_eq_bind, Option.bind_eq_some_iff] at hroute
  obtain ⟨mode, hmode, hroute⟩ := hroute
  by_cases hm : mode = .manual
  · subst hm
    simp only [if_true, TaskQueues.isProcessQueue, Option.bind_eq_bind,
      Option.bind_eq_some_iff] at hroute
    obtain ⟨⟨isProcess, t₁⟩, ⟨⟨process, t₂⟩, ht, he⟩, hroute⟩ := hroute
    cases he
    obtain ⟨htable, hprocess, hsame, hhandle⟩ := defaultProcessQueue_registry ht
    by_cases hq : s.processQueue = some q
    · have hqp := hsame q hq
      simp only [hqp, decide_true, if_true, Option.some.injEq] at hroute
      subst hroute
      rw [Except.ok.injEq] at hp
      exact .inl ⟨by rw [← hp, hqp], .inr hq⟩
    · have hne := defaultProcessQueue_new ht (modeOf_lt hmode) hq
      simp only [hne, decide_false, Bool.false_eq_true, if_false, Option.bind_eq_some_iff] at hroute
      obtain ⟨⟨handle, u⟩, hu, hroute⟩ := hroute
      have hadmin : Admin.applyAll s [.defaultProcessQueue, .processQueueHandle] = some u :=
        applyAll_handle ht hu
      refine .inr ⟨hmode, hq, ?_⟩
      cases hres : u.queueHandles.get handle with
      | none =>
        simp only [hres, Option.some.injEq] at hroute
        subst hroute
        cases hp
      | some p' =>
        simp only [hres, Option.some.injEq] at hroute
        subst hroute
        cases hp
        obtain ⟨-, -, ⟨hcached, rfl⟩ | ⟨p', hp', hget', hpq, hnone⟩⟩ :=
          getProcessQueueHandle_registry (defaultProcessQueue_numbered ht hn) hu
        · left
          rw [hhandle] at hcached
          rw [htable] at hres
          simp only [processTarget, hcached]
          exact hres
        · rw [hget', Option.some.injEq] at hres
          subst hres
          have hpp := hpq process hprocess
          subst hpp
          rw [hhandle] at hnone
          cases hin : s.processQueue with
          | some p₀ =>
            left
            simp only [processTarget, hnone, hin]
            rw [hsame p₀ hin]
          | none =>
            right
            obtain ⟨hlen, hport⟩ := defaultProcessQueue_ports hin ht
            refine ⟨by simp only [processTarget, hnone, hin], rfl, hlen, fun v hv => ?_⟩
            rw [hadmin, Option.some.injEq] at hv
            subst hv
            have hext := getProcessQueueHandle_extends hu
            exact portOf_later hext.1.later hext.2.1 hport
  · simp only [hm, if_false, Option.some.injEq] at hroute
    subst hroute
    cases hp
    refine .inl ⟨rfl, .inl fun h => ?_⟩
    rw [hmode, Option.some.injEq] at h
    exact hm h

theorem processTarget_lt (hnamed : s.Named) {p : ℕ} (h : processTarget s = some p) :
    p < s.queues.length := by
  unfold processTarget at h
  split at h
  · exact hnamed.handles _ p h
  · exact hnamed.process p h

/-- The completion port of the call, in any later state, is the one of the queue that the block
named exactly when the begin was affine. -/
theorem completion_port_iff {field p port : ℕ} {route : Route} {u : TaskQueues Callback}
    (hn : s.Numbered) (hnamed : s.Named)
    (hports : ∀ (o : ℕ) (context : PortContext), s.contexts[o]? = some context →
      ∃ port, s.ports[context.port]? = some port)
    (hget : s.queueHandles.get field = some q) (hroute : queueFor s field = some route)
    (hp : route.queue = .ok p) (ht : Admin.applyAll s route.admin = some t)
    (hl : t.toCore.Later u.toCore) (hq : SameContexts t.queues u.queues)
    (hport : u.portOf p .completion = some port) :
    u.portOf q .completion = some port ↔ Affine s q := by
  have hext := applyAll_extends ht
  have hlater : s.toCore.Later u.toCore := hext.1.later.trans hl
  have hqueues : SameContexts s.queues u.queues := hext.2.1.trans hq
  obtain ⟨b, hb⟩ := portOf_exists hnamed (hnamed.handles field q hget) .completion
  have hbu := portOf_later hlater hqueues hb
  rw [hbu, Option.some.injEq]
  rcases queueFor_moves hn hget hroute hp with ⟨rfl, haffine⟩ | ⟨hmode, hne, htarget⟩
  · rw [hbu, Option.some.injEq] at hport
    exact ⟨fun _ => haffine.imp_right .inl, fun _ => hport⟩
  · have hiff : Affine s q ↔ ∃ p, processTarget s = some p ∧
        s.portOf p .completion = s.portOf q .completion := by
      unfold Affine
      simp only [hmode, hne, ne_eq, not_true_eq_false, false_or]
    rw [hiff]
    rcases htarget with htarget | ⟨htarget, -, -, hfresh⟩
    · obtain ⟨a, ha⟩ := portOf_exists hnamed (processTarget_lt hnamed htarget) .completion
      have hau := portOf_later hlater hqueues ha
      rw [hport, Option.some.injEq] at hau
      constructor
      · intro hbp
        exact ⟨p, htarget, by rw [ha, hb, hbp, hau]⟩
      · rintro ⟨p', hp', hsame⟩
        rw [htarget, Option.some.injEq] at hp'
        rw [← hp', ha, hb, Option.some.injEq] at hsame
        rw [← hsame, hau]
    · have hpu := portOf_later hl hq (hfresh t ht)
      rw [hport, Option.some.injEq] at hpu
      have hlt := portOf_lt hb hports
      constructor
      · intro hbp
        omega
      · rintro ⟨p', hp', -⟩
        rw [htarget] at hp'
        cases hp'

end Ports

/-! ## Completion affinity -/

theorem engine_named {pool n : ℕ} {c : Config (World Engine) (Frame Callback Code)}
    {G : Guard (World Engine) (Frame Callback Code) (Option Choice)}
    (h : (machine Engine).Reaches G (Engine.start pool n) c) : c.shared.toTaskQueues.Named := by
  refine reaches_named (Engine.initial pool n) (fun s code choice r t hr ht hn => ?_) h
  by_cases hq : ∃ c, code = .game ∧ choice = .queue c
  · obtain ⟨c, rfl, rfl⟩ := hq
    cases hr
    exact perform_named _ ht hn
  · by_cases hp : code = .processQueue
    · subst hp
      cases hr
      exact createProcessQueueHandle_named ht hn
    · have hc := step_creates (fun c hcode hchoice => hq ⟨c, hcode, hchoice⟩) hp hr
      refine applyAll_named ht hn fun a ha u _ => ?_
      have hca := List.all_eq_true.mp hc a ha
      cases a <;> trivial

/-- The context through which a completion of a call goes is on the completion port of the
call's queue. -/
theorem completion_through {i callback : ℕ} {c : Config (World Engine) (Frame Callback Code)}
    {task : TaskQueue.Task Callback}
    {state : AsyncState} (hs : c.shared.mem.states[i]? = some state)
    (hc : task.callback = .completion i callback)
    (hfrom : task.From (Submits c.shared.mem) c.shared.toTaskQueues) (port : ℕ) :
    c.shared.toCore.On task.owner port ↔
      c.shared.toTaskQueues.portOf state.queue .completion = some port := by
  obtain ⟨a, ha, hac, queue, hqueue, howner⟩ := hfrom
  obtain ⟨hk, state', hs', hq⟩ := ha.queue i callback (hac.symm.trans hc)
  rw [hs, Option.some.injEq] at hs'
  subst hs'
  rw [hq]
  simp only [Core.On, TaskQueues.portOf, hqueue, Option.bind_eq_bind, Option.bind_some,
    Option.bind_eq_some_iff, Option.some.injEq, howner, hk]

/-- A begin that has parked a call went through a route. -/
theorem began_routes {s : World Engine} {b : ℕ} {x : Choice}
    {o : Outcome (World Engine) (Frame Callback Code)}
    (h : (machine Engine).step s (.client .game) (some x) = some o) (hx : x.beginsOn = some b)
    (hbegan : s.mem.states.length < o.shared.mem.states.length) :
    ∃ route q state, queueFor s.toTaskQueues (s.mem.blocks b).queue = some route ∧
      route.queue = .ok q ∧
      Admin.applyAll s.toTaskQueues route.admin = some o.shared.toTaskQueues ∧
      o.shared.mem.states[s.mem.states.length]? = some state ∧ state.queue = q := by
  simp only [machine, Option.bind_eq_bind, Option.bind_eq_some_iff, Option.some.injEq] at h
  obtain ⟨r, hr, u, hu, rfl⟩ := h
  have hlen : s.mem.states.length < r.mem.states.length := hbegan
  by_cases hb : b = 0
  · subst hb
    have hsame : r.mem.states = s.mem.states := by
      cases x with
      | begin c identity provider =>
        cases provider with
        | false => cases hx
        | true => cases hx; cases hr; rfl
      | run c work =>
        cases work with
        | false => cases hx
        | true => cases hx; cases hr; rfl
      | runSync c size => cases hx; cases hr; rfl
      | _ => cases hx
    rw [hsame] at hlen
    exact absurd hlen (lt_irrefl _)
  · obtain ⟨m, identity, provider, r', hblocks, hstates, hbegin, rfl⟩ :=
      begins_xasyncBegin hb hx hr
    change s.mem.states.length < r'.mem.states.length at hlen
    cases hn : m.stateOf b with
    | some i =>
      simp only [xasyncBegin, hb, hn, if_false, Option.isSome_some, if_true, Option.some.injEq]
        at hbegin
      subst hbegin
      rw [Memory.beginReturned_states, hstates] at hlen
      exact absurd hlen (lt_irrefl _)
    | none =>
      obtain ⟨route, hroute, hadmin, -, hcall⟩ := xasyncBegin_routes hb hn hbegin
      rw [hblocks] at hroute
      rw [hstates] at hcall
      have hadmin' : (resume r').admin = route.admin := hadmin
      rw [hadmin'] at hu
      rcases hcall with ⟨hr', -, hst⟩ | ⟨q, state, hq, hst, hsq⟩
      · rw [hst] at hlen
        exact absurd hlen (lt_irrefl _)
      · refine ⟨route, q, state, hroute, hq, hu, ?_, hsq⟩
        show r'.mem.states[s.mem.states.length]? = some state
        rw [hst]
        exact List.getElem?_concat_length

/-- Every completion of a call is submitted to the completion port of the queue that its block
named at the begin, exactly when the begin was affine; and the routine runs only as that callback
or in place of it, once it has been refused. -/
theorem completion_affinity {pool n i b q : ℕ} {x : Choice}
    {c c' c'' : Config (World Engine) (Frame Callback Code)}
    (h : (machine Engine).Reaches anyStep (Engine.start pool n) c) (hx : x.beginsOn = some b)
    (hget : c.shared.queueHandles.get (c.shared.mem.blocks b).queue = some q)
    (ht : c.top i = some (.client .game)) (hf : (machine Engine).fire c i (some x) = some c')
    (hbegan : c.shared.mem.states.length < c'.shared.mem.states.length)
    (h' : (machine Engine).Reaches anyStep c' c'') :
    (∀ task callback, task.callback = .completion c.shared.mem.states.length callback →
      (task ∈ c''.shared.accepted ∨ task ∈ c''.shared.refused) →
      ((∃ port, c''.shared.toCore.On task.owner port ∧
          c''.shared.toTaskQueues.portOf q .completion = some port) ↔
        Affine c.shared.toTaskQueues q)) ∧
    ∀ callback, .client (.completionCallback c.shared.mem.states.length callback) ∈ c''.frames →
      ∃ task, task.callback = .completion c.shared.mem.states.length callback ∧
        (task ∈ c''.shared.refused ∨ ∃ canceled, (task, canceled) ∈ c''.shared.started) := by
  have hend : (machine Engine).Reaches anyStep (Engine.start pool n) c'' :=
    (Machine.Reaches.tail h ⟨i, some x, fun _ _ => trivial, hf⟩).trans h'
  have hjust := submits hend
  refine ⟨fun task callback hc hmem => ?_, fun callback hmem => hjust.frames _ hmem _ callback rfl⟩
  have hfrom : task.From (Submits c''.shared.mem) c''.shared.toTaskQueues :=
    hmem.elim (hjust.accepted task) (hjust.refused task)
  obtain ⟨f, o, hft, hstep, hshared, -⟩ := fire_frames hf
  rw [ht, Option.some.injEq] at hft
  subst hft
  rw [hshared] at hbegan
  obtain ⟨route, p, state, hroute, hp, hadmin, hstate, hsq⟩ := began_routes hstep hx hbegan
  rw [← hshared] at hadmin hstate
  obtain ⟨state', hstate', hsame⟩ := reaches_keeps h' hstate
  have hon := completion_through hstate' hc hfrom
  rw [hsame.queue, hsq] at hon
  have hplaced := (Engine.initial pool n).placed h
  obtain ⟨a, -, -, queue, hqueue, howner⟩ := hfrom
  have hiff : ∀ port, c''.shared.toCore.On task.owner port →
      (c''.shared.toTaskQueues.portOf q .completion = some port ↔ Affine c.shared.toTaskQueues q) :=
    fun port hport => completion_port_iff (reaches_numbered (Engine.initial pool n) h)
      (engine_named h) hplaced.context hget hroute hp hadmin (reaches_later h')
      (reaches_sameContexts h') ((hon port).mp hport)
  have hex : ∃ port, c''.shared.toCore.On task.owner port := by
    have hlt := (engine_named hend).contexts queue (List.mem_of_getElem? hqueue) a.kind
    rw [← howner] at hlt
    exact ⟨_, _, List.getElem?_eq_getElem hlt, rfl⟩
  obtain ⟨port, hport⟩ := hex
  constructor
  · rintro ⟨port', hport', hq'⟩
    exact (hiff port' hport').mp hq'
  · exact fun haffine => ⟨port, hport, (hiff port hport).mpr haffine⟩

/-- A block that names a fresh queue with the given modes and has a completion routine. -/
def namesQueue (work completion : ℕ) : List (ℕ × Option Choice) :=
  [Engine.does (.queue (.create work completion true)), Engine.does (.setBlock 1 1 (some 7))]

/-- The provider's `Begin` returns, and the call is completed. -/
def completesCall : List (ℕ × Option Choice) :=
  [Engine.does .finish, Engine.does .finish, Engine.does (.returns S_OK)] ++ Engine.steps 1 1 ++
    [Engine.does (.xasync 1 (.complete S_OK 8))] ++ Engine.steps 1 6

/-- The work port is a thread pool. -/
theorem completion_affinity_pool : ∃ c c' c'' task,
    (machine Engine).Reaches anyStep (Engine.start 2 1) c ∧
      (machine Engine).fire c 1 (some (.begin 1 0 true)) = some c' ∧
      (machine Engine).Reaches anyStep c' c'' ∧ task ∈ c''.shared.accepted ∧
      task.callback = .completion 0 7 ∧ ∃ port, c''.shared.toCore.On task.owner port ∧
        c''.shared.toTaskQueues.portOf 0 .completion = some port := by
  have h : ((machine Engine).run anyStep (namesQueue 1 0) (Engine.start 2 1)).any (fun c =>
      (atGame c && decide (c.shared.queueHandles.get (c.shared.mem.blocks 1).queue = some 0 ∧
        c.shared.toTaskQueues.modeOf 0 .work = some .threadPool ∧
        c.shared.mem.states.length = 0)) &&
      ((machine Engine).fire c 1 (some (.begin 1 0 true))).any fun c' =>
        decide (c'.shared.mem.states.length = 1) &&
        ((machine Engine).run anyStep completesCall c').any fun c'' =>
          c''.shared.accepted.any fun task => decide (task.callback = .completion 0 7)) = true := by
    decide +kernel
  obtain ⟨c, hr, hc⟩ := Machine.Reaches.of_run_any h
  rw [Bool.and_eq_true, Bool.and_eq_true] at hc
  obtain ⟨⟨hgame, hstart⟩, hc⟩ := hc
  obtain ⟨hget, hmode, hlen⟩ := of_decide_eq_true hstart
  obtain ⟨c', hf, hc'⟩ := (Option.any_eq_true _ _).mp hc
  rw [Bool.and_eq_true] at hc'
  obtain ⟨c'', hr', hc''⟩ := Machine.Reaches.of_run_any hc'.2
  obtain ⟨task, hmem, htask⟩ := List.any_eq_true.mp hc''
  have hcall : task.callback = .completion c.shared.mem.states.length 7 := by
    rw [hlen]
    exact of_decide_eq_true htask
  have hbegan : c.shared.mem.states.length < c'.shared.mem.states.length := by
    rw [hlen, of_decide_eq_true hc'.1]
    exact Nat.one_pos
  have haffine : Affine c.shared.toTaskQueues 0 := by
    left
    rw [hmode]
    decide
  exact ⟨c, c', c'', task, hr, hf, hr', hmem, of_decide_eq_true htask,
    ((completion_affinity hr rfl hget (top_of_atGame hgame) hf hbegan hr').1 task 7 hcall
      (.inl hmem)).mpr haffine⟩

/-- The work port is manual, the completion port is a thread pool, and the queue is not the
process queue: the completion goes to the process queue with the work. -/
theorem completion_follows_work : ∃ c c' c'' task,
    (machine Engine).Reaches anyStep (Engine.start 2 1) c ∧
      c.shared.queueHandles.get (c.shared.mem.blocks 1).queue = some 0 ∧
      (machine Engine).fire c 1 (some (.begin 1 0 true)) = some c' ∧
      (machine Engine).Reaches anyStep c' c'' ∧ task ∈ c''.shared.accepted ∧
      task.callback = .completion 0 7 ∧ ¬ ∃ port, c''.shared.toCore.On task.owner port ∧
        c''.shared.toTaskQueues.portOf 0 .completion = some port := by
  have h : ((machine Engine).run anyStep (namesQueue 0 1) (Engine.start 2 1)).any (fun c =>
      decide (c.shared.queueHandles.get (c.shared.mem.blocks 1).queue = some 0) &&
      ((machine Engine).fire c 1 (some (.begin 1 0 true))).any fun c' =>
        ((machine Engine).run anyStep completesCall c').any fun c'' =>
          c''.shared.accepted.any fun task => decide (task.callback = .completion 0 7 ∧
            c''.shared.contexts[task.owner]?.map PortContext.port = some 3 ∧
            c''.shared.toTaskQueues.portOf 0 .completion = some 1)) = true := by
    decide +kernel
  obtain ⟨c, hr, hc⟩ := Machine.Reaches.of_run_any h
  rw [Bool.and_eq_true] at hc
  obtain ⟨c', hf, hc'⟩ := (Option.any_eq_true _ _).mp hc.2
  obtain ⟨c'', hr', hc''⟩ := Machine.Reaches.of_run_any hc'
  obtain ⟨task, hmem, htask⟩ := List.any_eq_true.mp hc''
  obtain ⟨hcall, howner, hport⟩ := of_decide_eq_true htask
  refine ⟨c, c', c'', task, hr, of_decide_eq_true hc.1, hf, hr', hmem, hcall, ?_⟩
  rintro ⟨port, ⟨context, hcontext, rfl⟩, hq⟩
  rw [hcontext, Option.map_some, Option.some.injEq] at howner
  rw [hport, howner, Option.some.injEq] at hq
  exact absurd hq (by decide)

end XGameRuntime.XAsync
