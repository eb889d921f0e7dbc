import XGameRuntime.TaskQueue.Balance
import XGameRuntime.TaskQueue.Provenance
import XGameRuntime.XAsync.Status

/-! # The completion notification

Between the lock section that records a final status and the completion routine of the game a call
has one notification: a frame, a continuation, a queued callback or a batch holds it. A refused
`DoWork` ends in `E_ABORT` and in a notification like any other.
-/

namespace XGameRuntime.XAsync
open Concurrency TaskQueue
set_option autoImplicit false

/-! ## Loads of the engine that are kept exactly -/

/-- A load of the engine that no refusal changes. -/
structure Balanced (w : Load Callback Code) : Prop where
  game : w.code .game = 0
  processQueue : w.code .processQueue = 0
  body : ∀ callback canceled, w.run (callback.code canceled) = w.callback callback
  schedule : ∀ i, w.code (.ret (.schedule i S_OK)) = w.code (.ret (.schedule i E_ABORT))
  run : ∀ i j, w.callback (.work j) + w.code (.afterOp i .begin S_OK none) =
    w.code (.afterOp i .begin E_ABORT none)

namespace Balanced
variable {w : Load Callback Code} (h : Balanced w)
include h

theorem callback_game (id : ℕ) : w.callback (.game id) = 0 := by
  rw [← h.body (.game id) false]
  simp [Callback.code, h.game]

theorem sees : Sees w :=
  ⟨h.game, h.processQueue, h.callback_game, fun _ _ => Nat.le_of_eq (h.body _ _)⟩

theorem exact : w.Exact Engine.body Engine.monitor := by
  refine ⟨h.body, fun _ _ _ => ?_⟩
  simp [h.game]

theorem callback_work (i : ℕ) : w.callback (.work i) = w.code (.call i (.complete E_ABORT 0)) := by
  rw [← h.body (.work i) true]
  simp [Callback.code]

theorem callback_completion (i callback : ℕ) :
    w.callback (.completion i callback) = w.code (.completionCallback i callback) := by
  rw [← h.body (.completion i callback) true]
  simp [Callback.code]

theorem callback_runSyncWorker (helper b : ℕ) :
    w.callback (.runSyncWorker helper b) = w.code (.work helper b false) := by
  rw [← h.body (.runSyncWorker helper b) false]
  simp [Callback.code]

end Balanced

section Even
variable {w : Load Callback Code} {m : Memory} {s : TaskQueues Callback} {code : Code} {x : Choice}
  {r : EngineStep}

theorem queue_even (hw : Balanced w) (c : QueueCall ℕ Unit) (s : TaskQueues Callback) :
    (∀ a ∈ (gameCall s c).run, w.EvenInstr a) ∧
      ∀ k ∈ (gameCall s c).spawn,
        ∀ a ∈ k, w.EvenInstr a := by
  cases c with
  | submitDelayedCallback queue port delayMs callback =>
    cases callback with
    | none => simp [gameCall, QueueCall.map, QueueCall.perform]
    | some id =>
      simp only [gameCall, QueueCall.map, Option.map_some, QueueCall.perform]
      split <;> simp [Load.EvenInstr, Load.EvenSubmission, hw.callback_game]
  | _ =>
    simp only [gameCall, QueueCall.map, QueueCall.perform]
    repeat' split
    all_goals simp [Load.EvenInstr, Load.EvenDispatch]

theorem Invokes.even {i : ℕ} {state : AsyncState} {op : XAsyncOp} (hw : Balanced w)
    (h : Invokes m i state op r) : (∀ a ∈ r.run, w.EvenInstr a) ∧ r.spawn = [] := by
  cases h with
  | @runBegin j q hp hj =>
    have hrun := hw.run i j
    simp [Load.EvenInstr, Load.EvenSubmission, hrun]
  | @runSyncBegin h q helper admin hp hh =>
    have hworker := hw.callback_runSyncWorker h state.block
    simp [Load.EvenInstr, Load.EvenSubmission, runSyncSubmission, hworker]
  | _ => simp [Load.EvenInstr]

theorem Begins.even {b identity : ℕ} {provider : Provider}
    (h : Begins m s b identity provider r) : (∀ a ∈ r.run, w.EvenInstr a) ∧ r.spawn = [] := by
  cases h with
  | rejected | unrouted => exact ⟨fun _ => by simp, rfl⟩
  | parked => exact ⟨by simp [Load.EvenInstr], rfl⟩

/-- Refused or accepted, what a step submits comes to the same. -/
theorem Steps.even (hw : Balanced w) (h : Steps m s code x r) : r.Even w := by
  cases h with
  | queue hr =>
    subst hr
    obtain ⟨hrun, hspawn⟩ := queue_even hw _ s
    refine ⟨?_, hspawn⟩
    simp only [List.forall_mem_append, List.forall_mem_singleton]
    exact ⟨hrun, trivial⟩
  | begin h | run h | runSync _ h =>
    obtain ⟨hrun, hspawn⟩ := h.even (w := w)
    refine ⟨?_, by simp [resume, hspawn]⟩
    simp only [resume, List.forall_mem_append, List.forall_mem_singleton]
    exact ⟨hrun, trivial⟩
  | invoke _ hi =>
    obtain ⟨hrun, hspawn⟩ := hi.even hw
    exact ⟨hrun, by simp [hspawn]⟩
  | @schedule i =>
    have hwork := hw.callback_work i
    have hret := hw.schedule (some i)
    simp [ClientStep.Even, Load.EvenInstr, Load.EvenSubmission, hwork, hret]
  | @canceled i =>
    have hwork := hw.callback_work i
    simp [ClientStep.Even, Load.EvenInstr, Load.EvenSubmission, hwork]
  | @announce i callback =>
    have hc := hw.callback_completion i callback
    simp [ClientStep.Even, Load.EvenInstr, Load.EvenSubmission, hc]
  | @unresolved b c => cases c <;> simp [ClientStep.Even, XAsyncCall.illegal, Load.EvenInstr]
  | _ => simp [ClientStep.Even, Load.EvenInstr]

end Even

section Rule
variable {c c' : Config (World Engine) (Frame Callback Code)} {pool n : ℕ}
  {G : Guard (World Engine) (Frame Callback Code) (Option Choice)}

theorem start_even {w : Load Callback Code} :
    ∀ f ∈ (Engine.start pool n).frames, w.EvenFrame f := by
  intro f hf
  rcases (Engine.initial pool n).threads f hf with rfl | ⟨g, rfl⟩ <;> trivial

/-- `engine_invariant` for loads that are kept exactly, from any configuration of a run on. -/
theorem engine_exact {ι : Type} {w : ι → Load Callback Code} {I : Memory → (ι → ℕ) → Prop}
    {J : World Engine → Multiset (Frame Callback Code) → Prop} (hw : ∀ i, Balanced (w i))
    (h : (machine Engine).Reaches anyStep (Engine.start pool n) c)
    (h' : (machine Engine).Reaches G c c')
    (hJ : ∀ d, (machine Engine).Reaches G c d → J d.shared d.frames)
    (h0 : I c.shared.mem fun i => (w i).total c.shared.toCore c.frames)
    (hstep : ∀ (s : World Engine) (R : Multiset (Frame Callback Code)) code choice r,
      G s R (.client code) (some choice) → J s (.client code ::ₘ R) →
      Steps s.mem s.toTaskQueues code choice r →
      I s.mem (fun i => (w i).total s.toCore R + (w i).code code) →
      I r.mem fun i => (w i).total s.toCore R + (w i).asked r) :
    I c'.shared.mem fun i => (w i).total c'.shared.toCore c'.frames := by
  have heven : ∀ i (s : World Engine) g choice r,
      Engine.step s.mem s.toTaskQueues g choice = some r → r.Even (w i) :=
    fun i s g choice r hr => (steps_inv hr).even (hw i)
  refine client_exact h' (fun i => (hw i).exact) (fun i => ?_) heven hJ h0
    fun s R code choice r hg hj hs hI => hstep s R code choice r hg hj (steps_inv hs) hI
  exact even_frames h start_even (heven i)

end Rule

/-! ## The invariant -/

/-- The notifications of a call that are under way. -/
def notice (i : ℕ) : Load Callback Code where
  callback
    | .completion j _ => if j = i then 1 else 0
    | _ => 0
  code
    | .announce j _ | .completionCallback j _ => if j = i then 1 else 0
    | _ => 0

/-- `XAsyncBegin` says that the call has begun. -/
def Return.begins (i : ℕ) : Return → ℕ
  | .begin _ (some j) hr => if j = i ∧ hr = S_OK then 1 else 0
  | _ => 0

/-- `XAsyncBegin` is still to return from the call. -/
def beginning (i : ℕ) : Load Callback Code where
  callback _ := 0
  code
    | .invoke j .begin | .opReturn j .begin | .afterOp j .begin _ _ => if j = i then 1 else 0
    | .beginReturn j hr => if j = i ∧ hr = S_OK then 1 else 0
    | .ret value => value.begins i
    | _ => 0

def Event.begins (i : ℕ) : Event → ℕ
  | .returned value => value.begins i
  | _ => 0

def Event.routines (i : ℕ) : Event → ℕ
  | .routine j _ _ => if j = i then 1 else 0
  | _ => 0

/-- How often `XAsyncBegin` has returned `S_OK` for the call, and how often its completion routine
has been invoked. -/
def Memory.begun (m : Memory) (i : ℕ) : ℕ := (m.log.map (Event.begins i)).sum

def Memory.routines (m : Memory) (i : ℕ) : ℕ := (m.log.map (Event.routines i)).sum

theorem notice_balanced (i : ℕ) : Balanced (notice i) := by
  refine ⟨rfl, rfl, fun callback canceled => ?_, fun _ => rfl, fun _ _ => rfl⟩
  cases callback with
  | work j => cases canceled <;> simp [Callback.code, notice]
  | _ => simp [Callback.code, notice]

theorem beginning_balanced (i : ℕ) : Balanced (beginning i) := by
  refine ⟨rfl, rfl, fun callback canceled => ?_, fun _ => rfl, fun _ _ => by simp [beginning]⟩
  cases callback with
  | work j => cases canceled <;> simp [Callback.code, beginning]
  | _ => simp [Callback.code, beginning]

/-- The notifications and the begin of one call. -/
inductive Trace where
  | notice
  | beginning

def Trace.load (i : ℕ) : Trace → Load Callback Code
  | .notice => XAsync.notice i
  | .beginning => XAsync.beginning i

theorem Trace.balanced (i : ℕ) (t : Trace) : Balanced (t.load i) := by
  cases t with
  | notice => exact notice_balanced i
  | beginning => exact beginning_balanced i

/-- A call that has begun, or is beginning, has one notification once its status is final, and none
before; and a final status that it is `known` to have had stays. -/
structure Notified (i : ℕ) (known : Option HRESULT) (m : Memory) (L : Trace → ℕ) : Prop where
  unborn : m.states.length ≤ i → L .notice = 0 ∧ L .beginning = 0 ∧ m.begun i = 0 ∧
    m.routines i = 0
  born : ∀ status ∈ known, status ≠ E_PENDING ∧ i < m.states.length
  once : L .beginning + m.begun i ≤ 1
  known : L .beginning + m.begun i = 1 → ∀ status ∈ known, m.status i = status
  one : L .beginning + m.begun i = 1 →
    L .notice + m.routines i = if m.status i = E_PENDING then 0 else 1

/-- The provider does not complete the call with `E_PENDING`; and until its completion routine has
been invoked, the block of the call keeps a completion callback. -/
def keepsCallback (i : ℕ) (m : Memory) (code : Code) : Bool :=
  (match code with
    | .call j (.complete result _) => decide (j = i → result ≠ E_PENDING)
    | _ => true) &&
  decide (m.routines i = 0 → ∀ state ∈ m.states[i]?, (m.blocks state.block).callback ≠ none)

abbrev callbackKept (i : ℕ) : Guard (World Engine) (Frame Callback Code) (Option Choice) :=
  onCode fun s _ code _ => keepsCallback i s.mem code

section Steps
variable {i : ℕ} {known : Option HRESULT} {m : Memory} {s : TaskQueues Callback} {code : Code}
  {x : Choice} {r : EngineStep} {L L' : Trace → ℕ}

@[simp] theorem begun_record (m : Memory) (e : Event) :
    (m.record e).begun i = e.begins i + m.begun i := by
  simp [Memory.begun]

@[simp] theorem routines_record (m : Memory) (e : Event) :
    (m.record e).routines i = e.routines i + m.routines i := by
  simp [Memory.routines]

@[simp] theorem begun_setBlock (m : Memory) (b : ℕ) (block : XAsyncBlock) :
    (m.setBlock b block).begun i = m.begun i := rfl

@[simp] theorem routines_setBlock (m : Memory) (b : ℕ) (block : XAsyncBlock) :
    (m.setBlock b block).routines i = m.routines i := rfl

@[simp] theorem begun_setState (m : Memory) (j : ℕ) (state : AsyncState) :
    (m.setState j state).begun i = m.begun i := rfl

@[simp] theorem routines_setState (m : Memory) (j : ℕ) (state : AsyncState) :
    (m.setState j state).routines i = m.routines i := rfl

@[simp] theorem begun_setHelper (m : Memory) (h : ℕ) (helper : XsyncContextHelper) :
    (m.setHelper h helper).begun i = m.begun i := rfl

@[simp] theorem routines_setHelper (m : Memory) (h : ℕ) (helper : XsyncContextHelper) :
    (m.setHelper h helper).routines i = m.routines i := rfl

theorem begun_log {m' : Memory} (h : m'.log = m.log) : m'.begun i = m.begun i := by
  rw [Memory.begun, h]
  rfl

theorem routines_log {m' : Memory} (h : m'.log = m.log) : m'.routines i = m.routines i := by
  rw [Memory.routines, h]
  rfl

/-- The rule for a step that neither creates the call nor writes its status. -/
theorem Notified.move {m' : Memory} (hI : Notified i known m L)
    (hlen : m.states.length ≤ m'.states.length) (hs : m'.status i = m.status i)
    (hb : L' .beginning + m'.begun i = L .beginning + m.begun i)
    (hn : L' .notice + m'.routines i = L .notice + m.routines i) : Notified i known m' L' := by
  refine ⟨fun hi => ?_, fun status hk => ?_, ?_, fun ho => ?_, fun ho => ?_⟩
  · obtain ⟨h1, h2, h3, h4⟩ := hI.unborn (hlen.trans hi)
    omega
  · obtain ⟨hf, hi⟩ := hI.born status hk
    exact ⟨hf, hi.trans_le hlen⟩
  · rw [hb]
    exact hI.once
  · rw [hs]
    exact hI.known (hb ▸ ho)
  · rw [hn, hs]
    exact hI.one (hb ▸ ho)

theorem Notified.of_eq {m' : Memory} (hI : Notified i known m L)
    (hlen : m.states.length ≤ m'.states.length) (hs : m'.status i = m.status i)
    (hb : m'.begun i = m.begun i) (hr : m'.routines i = m.routines i)
    (hL : ∀ t, L' t = L t) : Notified i known m' L' :=
  hI.move hlen hs (by rw [hL, hb]) (by rw [hL, hr])

theorem Invokes.notified {j : ℕ} {state : AsyncState} {op : XAsyncOp} (h : Invokes m j state op r)
    (i : ℕ) : r.mem.begun i = m.begun i ∧ r.mem.routines i = m.routines i ∧
      ∀ t : Trace, (t.load i).asked r = (t.load i).code (.invoke j op) := by
  cases h with
  | @game op | @runOther op =>
    refine ⟨by simp [Event.begins], by simp [Event.routines], fun t => ?_⟩
    cases t <;> cases op <;> simp_all [Trace.load, Load.asked, Load.instr, notice, beginning]
  | _ =>
    refine ⟨by simp [Event.begins, Memory.begun], by simp [Event.routines, Memory.routines],
      fun t => ?_⟩
    cases t <;> simp [Trace.load, Load.asked, Load.instr, Load.submission, notice, beginning,
      runSyncSubmission]

theorem beginReturned_begun (m : Memory) (b : ℕ) (j : Option ℕ) (provider : Provider)
    (hr : HRESULT) : (m.beginReturned b j provider hr).begun i =
      (Return.begin b j hr).begins i + m.begun i := by
  cases provider <;> simp [Memory.beginReturned, Event.begins]

theorem beginReturned_routines (m : Memory) (b : ℕ) (j : Option ℕ) (provider : Provider)
    (hr : HRESULT) : (m.beginReturned b j provider hr).routines i = m.routines i := by
  cases provider <;> simp [Memory.beginReturned, Event.routines]

/-- A new call begins, with no notification. -/
theorem Notified.park {state : AsyncState} (hI : Notified i known m L) (hs : state.status = E_PENDING)
    (hn : L' .notice = L .notice)
    (hb : L' .beginning = L .beginning + if m.states.length = i then 1 else 0) :
    Notified i known (m.park state) L' := by
  have hbegun : (m.park state).begun i = m.begun i := by
    simp [Memory.begun, Event.begins]
  have hroutines : (m.park state).routines i = m.routines i := by
    simp [Memory.routines, Event.routines]
  by_cases hi : m.states.length = i
  · obtain ⟨h1, h2, h3, h4⟩ := hI.unborn (Nat.le_of_eq hi)
    have hpending : (m.park state).status i = E_PENDING := by
      rw [status_park hs, Memory.status, List.getElem?_eq_none (Nat.le_of_eq hi)]
      rfl
    rw [if_pos hi] at hb
    have hunknown : ∀ status, status ∉ known := by
      intro status hk
      have hborn := (hI.born status hk).2
      omega
    refine ⟨fun hle => ?_, fun status hk => absurd hk (hunknown status), ?_,
      fun _ status hk => absurd hk (hunknown status), fun _ => ?_⟩
    · rw [Memory.park_states, List.length_append, List.length_singleton] at hle
      omega
    · omega
    · rw [hpending, if_pos rfl]
      omega
  · rw [if_neg hi] at hb
    refine hI.of_eq (by simp) (status_park hs i) hbegun hroutines fun t => ?_
    cases t with
    | notice => exact hn
    | beginning => exact hb

theorem Begins.notified {b identity : ℕ} {provider : Provider}
    (h : Begins m s b identity provider r) (hI : Notified i known m L) :
    Notified i known r.mem fun t => L t + (t.load i).asked r := by
  cases h with
  | rejected =>
    refine hI.of_eq ?_ ?_ ?_ ?_ fun t => rfl
    · rw [Memory.beginReturned_states]
    · rw [Memory.status, Memory.beginReturned_states]
      rfl
    · rw [beginReturned_begun]
      simp [Return.begins]
    · exact beginReturned_routines ..
  | unrouted =>
    refine hI.of_eq ?_ ?_ ?_ ?_ fun t => rfl
    · rw [Memory.beginReturned_states]
      exact Nat.le_refl _
    · rw [Memory.status, Memory.beginReturned_states]
      rfl
    · rw [beginReturned_begun]
      simp only [Return.begins, Nat.zero_add]
      exact begun_log rfl
    · rw [beginReturned_routines]
      exact routines_log rfl
  | @parked route q routed state hb hn hroute hq hm hstate =>
    have hrouted : Notified i known routed L := by
      subst hm
      exact hI.of_eq (Nat.le_refl _) rfl (begun_log rfl) (routines_log rfl) fun _ => rfl
    have hlen : routed.states.length = m.states.length := by
      subst hm
      rfl
    refine hrouted.park (by subst hstate; rfl) ?_ ?_
    · simp [Trace.load, Load.asked, Load.instr, notice]
    · rw [hlen]
      simp [Trace.load, Load.asked, Load.instr, beginning]

/-- The rule for a step that writes the status of a call. -/
theorem Notified.write {j : ℕ} {state state' : AsyncState} (hI : Notified i known m L)
    (hs : m.states[j]? = some state)
    (hb : L' .beginning + (m.setState j state').begun i ≤ L .beginning + m.begun i)
    (hsame : j ≠ i → ∀ t, L' t = L t)
    (hself : j = i → L' .beginning + m.begun i = 1 → state'.status ≠ E_PENDING ∧
      L' .notice = L .notice + 1 ∧ state.status = E_PENDING ∧ L' .beginning = L .beginning) :
    Notified i known (m.setState j state') L' := by
  have hstatus : (m.setState j state').status i = if j = i then state'.status else m.status i :=
    status_setState hs i
  by_cases hj : j = i
  · subst hj
    rw [if_pos rfl] at hstatus
    have hborn : j < m.states.length := (List.getElem?_eq_some_iff.mp hs).1
    refine ⟨fun hle => ?_, fun status hk => ?_, hb.trans hI.once, fun ho status hk => ?_,
      fun ho => ?_⟩
    · rw [Memory.setState_states, List.length_set] at hle
      omega
    · rw [Memory.setState_states, List.length_set]
      exact hI.born status hk
    · obtain ⟨-, -, hp, hB⟩ := hself rfl ho
      have hold := hI.known (hB ▸ ho) status hk
      rw [status_of hs, hp] at hold
      exact absurd hold.symm (hI.born status hk).1
    · obtain ⟨hf, hn, hp, hB⟩ := hself rfl ho
      have hone := hI.one (hB ▸ ho)
      rw [status_of hs, if_pos hp] at hone
      rw [hstatus, if_neg hf]
      change L' .notice + m.routines j = 1
      omega
  · rw [if_neg hj] at hstatus
    exact hI.of_eq (by simp) hstatus rfl rfl (hsame hj)

/-- While its notification is under way the call keeps its callback, so the notification is not
dropped. -/
theorem Notified.unheard {j : ℕ} {result : HRESULT} {state : AsyncState}
    (hI : Notified i known m fun t => L t + (t.load i).code (.announce j result))
    (hs : m.states[j]? = some state) (hc : (m.blocks state.block).callback = none)
    (hg : keepsCallback i m (.announce j result) = true) : Notified i known m L := by
  have hkeeps : m.routines i = 0 → ∀ state ∈ m.states[i]?, (m.blocks state.block).callback ≠ none :=
    of_decide_eq_true (by simpa [keepsCallback] using hg)
  by_cases hj : j = i
  · subst hj
    have hborn : j < m.states.length := (List.getElem?_eq_some_iff.mp hs).1
    have hself : (notice j).code (.announce j result) = 1 := by simp [notice]
    have hzero : (beginning j).code (.announce j result) = 0 := rfl
    obtain ⟨-, hknown, honce, hstays, hone⟩ := hI
    simp only [Trace.load, hself, hzero] at honce hstays hone
    refine ⟨fun hle => absurd hborn (Nat.not_lt.mpr hle), hknown, honce, hstays, fun ho => ?_⟩
    have hsum := hone ho
    have hdelivered : m.routines j = 0 := by
      split at hsum <;> omega
    exact absurd hc (hkeeps hdelivered state hs)
  · refine hI.of_eq (Nat.le_refl _) rfl rfl rfl fun t => ?_
    cases t <;> simp [Trace.load, notice, beginning, hj]

theorem notified_step (h : Steps m s code x r) (hg : keepsCallback i m code = true)
    (hI : Notified i known m fun t => L t + (t.load i).code code) :
    Notified i known r.mem fun t => L t + (t.load i).asked r := by
  cases h with
  | begin h | run h =>
    simp only [asked_resume _ (Trace.balanced i _).sees]
    simp only [(Trace.balanced i _).game, Nat.add_zero] at hI
    exact h.notified hI
  | runSync _ h =>
    simp only [asked_resume _ (Trace.balanced i _).sees]
    simp only [(Trace.balanced i _).game, Nat.add_zero] at hI
    exact h.notified (hI.of_eq (Nat.le_refl _) rfl rfl rfl fun _ => rfl)
  | queue hr =>
    subst hr
    refine hI.of_eq (Nat.le_refl _) rfl rfl rfl fun t => ?_
    rw [asked_queue _ (t.balanced i).sees, (t.balanced i).game]
  | invoke hs hi =>
    obtain ⟨hbegun, hroutines, hasked⟩ := hi.notified i
    refine hI.of_eq ?_ ?_ hbegun hroutines fun t => by rw [hasked]
    · rw [hi.same.1]
    · rw [Memory.status, hi.same.1]
      rfl
  | @complete j size result state x hs hp =>
    refine hI.write hs ?_ (fun hj t => ?_) fun hj _ => ⟨?_, ?_, hp, ?_⟩
    · exact Nat.le_refl _
    · cases t <;> simp [Trace.load, Load.asked, Load.instr, notice, beginning, hj]
    · rw [keepsCallback, Bool.and_eq_true] at hg
      exact of_decide_eq_true hg.1 hj
    · simp [Trace.load, Load.asked, Load.instr, notice, hj]
    · simp [Trace.load, Load.asked, Load.instr, beginning]
  | @didWork j hr out state x hs hk hp =>
    refine hI.write hs ?_ (fun hj t => ?_) fun hj _ => ⟨hk, ?_, hp, ?_⟩
    · exact Nat.le_refl _
    · cases t <;> simp [Trace.load, Load.asked, Load.instr, notice, beginning, hj]
    · simp [Trace.load, Load.asked, Load.instr, notice, hj]
    · simp [Trace.load, Load.asked, Load.instr, beginning]
  | @beginFailed j hr out state x hs ho =>
    refine hI.write hs ?_ (fun hj t => ?_) fun hj hB => ?_
    · simp [Trace.load, Load.asked, Load.instr, beginning, ho]
    · cases t <;> simp [Trace.load, Load.asked, Load.instr, notice, beginning, hj]
    · have honce := hI.once
      simp [Trace.load, Load.asked, Load.instr, beginning, ho] at hB
      simp [Trace.load, beginning, hj] at honce
      omega
  | unheard hs hc => exact hI.unheard hs hc hg
  | @beginReturn j hr state x hs =>
    refine hI.move ?_ ?_ ?_ ?_
    · rw [Memory.beginReturned_states]
    · rw [Memory.status, Memory.beginReturned_states]
      rfl
    · rw [beginReturned_begun]
      simp [Trace.load, Load.asked, beginning, Return.begins]
      omega
    · rw [beginReturned_routines]
      simp [Trace.load, Load.asked, notice]
  | cleanedUp =>
    refine hI.of_eq ?_ ?_ (begun_log (Memory.takeState_log ..))
      (routines_log (Memory.takeState_log ..)) fun t => ?_
    · rw [Memory.takeState_states]
    · rw [Memory.status, Memory.takeState_states]
      rfl
    · cases t <;> simp [Trace.load, Load.asked, notice, beginning]
  | cancel hs | getResult hs | cleanup hs =>
    refine hI.of_eq (by simp) (status_setState_same hs (by rfl) i) rfl rfl fun t => ?_
    cases t <;> simp [Trace.load, Load.asked, Load.instr, notice, beginning]
  | @opReturn j op hr =>
    refine hI.of_eq (Nat.le_refl _) rfl rfl rfl fun t => ?_
    cases t <;> cases op <;> simp [Trace.load, Load.asked, Load.instr, notice, beginning]
  | @unresolved b c =>
    refine hI.of_eq (Nat.le_refl _) rfl rfl rfl fun t => ?_
    cases t <;> cases c <;>
      simp [Trace.load, Load.asked, Load.instr, notice, beginning, XAsyncCall.illegal, Return.begins]
  | _ =>
    refine hI.move (Nat.le_refl _) rfl ?_ ?_
    · simp [Trace.load, Load.asked, Load.instr, Load.submission, beginning, Event.begins,
        Return.begins, Nat.add_assoc]
    · simp [Trace.load, Load.asked, Load.instr, Load.submission, notice, Event.routines,
        Nat.add_assoc]

end Steps

/-! ## Refused work -/

/-- What a submission of `work_callback` for the call goes on with when it is refused:
`XAsyncSchedule` and `XAsyncCancel` complete the call, and the `Begin` of `run_provider` fails. -/
def Aborts (i : ℕ) (a : Submission Callback Code) : Prop :=
  a.callback = .work i → a.onRefused.head? = some (.call i (.complete E_ABORT 0)) ∨
    a.onRefused = [.afterOp i .begin E_ABORT none]

/-- The `Begin` of `run_provider` schedules the call that it finds on its block. Where that is
call `i`, it is the `Begin` of call `i`. -/
def findsOwn (i : ℕ) (m : Memory) : Code → Bool
  | .invoke j .begin => decide (∀ state ∈ m.states[j]?, state.provider = .run →
      m.stateOf state.block = some i → j = i)
  | _ => true

/-- As `callbackKept`, in runs in which no `Begin` of another call finds the call on its block. -/
abbrev ownBegin (i : ℕ) : Guard (World Engine) (Frame Callback Code) (Option Choice) :=
  onCode fun s _ code _ => keepsCallback i s.mem code && findsOwn i s.mem code

section Aborts
variable {i : ℕ} {m : Memory} {s : TaskQueues Callback} {code : Code} {x : Choice} {r : EngineStep}

/-- A submission of something else has nothing to complete. -/
theorem submits_other {a : Submission Callback Code} (h : a.callback ≠ .work i) :
    (Instr.submit a).Submits (Aborts i) :=
  fun hi => absurd hi h

theorem queue_aborts (c : QueueCall ℕ Unit) (s : TaskQueues Callback) :
    (∀ a ∈ (gameCall s c).run,
      a.Submits (Aborts i)) ∧
    ∀ k ∈ (gameCall s c).spawn,
      ∀ a ∈ k, a.Submits (Aborts i) := by
  cases c with
  | submitDelayedCallback queue port delayMs callback =>
    cases callback with
    | none => simp [gameCall, QueueCall.map, QueueCall.perform]
    | some id =>
      simp only [gameCall, QueueCall.map, Option.map_some, QueueCall.perform]
      split
      · simp only [List.forall_mem_singleton]
        exact ⟨submits_other (by simp), by simp⟩
      · simp
  | _ =>
    simp only [gameCall, QueueCall.map, QueueCall.perform]
    repeat' split
    all_goals simp [Instr.Submits]

theorem Invokes.aborts {j : ℕ} {state : AsyncState} {op : XAsyncOp} (h : Invokes m j state op r)
    (hs : m.states[j]? = some state) (hown : findsOwn i m (.invoke j op) = true) :
    (∀ a ∈ r.run, a.Submits (Aborts i)) ∧ r.spawn = [] := by
  cases h with
  | @runBegin k q hp hk =>
    simp only [List.forall_mem_singleton]
    refine ⟨fun hw => ?_, trivial⟩
    cases hw
    have hj := of_decide_eq_true hown state hs hp hk
    subst hj
    exact .inr rfl
  | runSyncBegin =>
    simp only [List.forall_mem_singleton]
    exact ⟨submits_other (by simp [runSyncSubmission]), trivial⟩
  | _ => simp [Instr.Submits]

theorem Begins.aborts {b identity : ℕ} {provider : Provider}
    (h : Begins m s b identity provider r) :
    (∀ a ∈ r.run, a.Submits (Aborts i)) ∧ r.spawn = [] := by
  cases h with
  | rejected | unrouted => exact ⟨fun _ => by simp, rfl⟩
  | parked => exact ⟨by simp [Instr.Submits], rfl⟩

theorem Steps.aborts (h : Steps m s code x r) (hown : findsOwn i m code = true) :
    (∀ a ∈ r.run, a.Submits (Aborts i)) ∧ ∀ k ∈ r.spawn, ∀ a ∈ k, a.Submits (Aborts i) := by
  cases h with
  | queue hr =>
    subst hr
    simp only [List.forall_mem_append, List.forall_mem_singleton]
    exact ⟨⟨(queue_aborts _ _).1, trivial⟩, (queue_aborts _ _).2⟩
  | begin h | run h | runSync _ h =>
    simp only [resume, List.forall_mem_append, List.forall_mem_singleton]
    obtain ⟨hrun, hspawn⟩ := h.aborts (i := i)
    exact ⟨⟨hrun, trivial⟩, by simp [hspawn]⟩
  | invoke hs hi =>
    obtain ⟨hrun, hspawn⟩ := hi.aborts hs hown
    exact ⟨hrun, by simp [hspawn]⟩
  | schedule | canceled =>
    simp only [List.forall_mem_singleton]
    refine ⟨fun hw => ?_, by simp⟩
    cases hw
    exact .inl rfl
  | announce =>
    simp only [List.forall_mem_singleton]
    exact ⟨submits_other (by simp), by simp⟩
  | @unresolved b c => cases c <;> simp [XAsyncCall.illegal, Instr.Submits]
  | _ => simp [Instr.Submits]

end Aborts

/-! ## Runs -/

section Runs
variable {c c₁ c₂ : Config (World Engine) (Frame Callback Code)} {i pool n : ℕ}

theorem notified_later {known : Option HRESULT}
    (h : (machine Engine).Reaches anyStep (Engine.start pool n) c)
    (h' : (machine Engine).Reaches (callbackKept i) c c₁)
    (h0 : Notified i known c.shared.mem fun t => (t.load i).total c.shared.toCore c.frames) :
    Notified i known c₁.shared.mem fun t => (t.load i).total c₁.shared.toCore c₁.frames :=
  engine_exact (J := fun _ _ => True) (Trace.balanced i) h h' (fun _ _ => trivial) h0
    fun _ _ _ _ _ hg _ hs hI => notified_step hs hg hI

theorem notified (h : (machine Engine).Reaches (callbackKept i) (Engine.start pool n) c) :
    Notified i none c.shared.mem fun t => (t.load i).total c.shared.toCore c.frames := by
  refine notified_later .refl h ?_
  have hzero : ∀ t : Trace,
      (t.load i).total (Engine.start pool n).shared.toCore (Engine.start pool n).frames = 0 :=
    fun t => start_total (t.balanced i).sees pool n
  refine ⟨fun _ => ⟨hzero _, hzero _, rfl, rfl⟩, by simp, ?_, fun _ => by simp, fun ho => ?_⟩
  · simp only [hzero]
    exact Nat.zero_le 1
  · simp only [hzero] at ho
    cases ho

/-- The notifications of a call: those under way and the completion routines that have run. -/
def notifications (i : ℕ) (c : Config (World Engine) (Frame Callback Code)) : ℕ :=
  (notice i).total c.shared.toCore c.frames + c.shared.mem.routines i

/-- A submission of the call's `DoWork` is about to be refused, or its `work_callback` to run with
`canceled`. -/
inductive SeesRefusal (i : ℕ) (s : Core Callback) : Frame Callback Code → Prop where
  | refused {a : Submission Callback Code} {task : TaskQueue.Task Callback} {ownerTerminated : Bool}
      {context : PortContext} {port : Port Callback} (hw : task.callback = .work i)
      (hc : s.contexts[task.owner]? = some context) (hp : s.ports[context.port]? = some port)
      (ht : port.state.terminated = true ∨ ownerTerminated = true) :
      SeesRefusal i s (.submitPort a task ownerTerminated)
  | canceled {task : TaskQueue.Task Callback} (hw : task.callback = .work i) :
      SeesRefusal i s (.invoke task true)

theorem kept_of_ownBegin (h : (machine Engine).Reaches (ownBegin i) c c₁) :
    (machine Engine).Reaches (callbackKept i) c c₁ := by
  refine h.weaken fun s R f x hg => ?_
  cases f with
  | client code =>
    cases x with
    | none => trivial
    | some choice => exact (Bool.and_eq_true_iff.mp hg).1
  | _ => trivial

/-- The operation that has seen it goes on to complete the call, or to fail its `Begin`. -/
theorem SeesRefusal.fire {c' : Config (World Engine) (Frame Callback Code)} {t : ℕ}
    {f : Frame Callback Code} {rest : List (Frame Callback Code)} {x : Option Choice}
    (h : (machine Engine).Reaches (ownBegin i) (Engine.start pool n) c)
    (hk : c.threads[t]? = some (f :: rest)) (hsee : SeesRefusal i c.shared.toCore f)
    (hf : (machine Engine).fire c t x = some c') :
    ∃ g k, c'.threads[t]? = some (.client g :: k) ∧ rest.length ≤ k.length ∧
      (g = .call i (.complete E_ABORT 0) ∨ g = .afterOp i .begin E_ABORT none) := by
  cases hsee with
  | @refused a task ownerTerminated context port hw hc hp ht =>
    have hmem : .submitPort a task ownerTerminated ∈ c.frames :=
      Multiset.mem_coe.mpr (List.mem_flatten.mpr ⟨_, List.mem_of_getElem? hk, List.mem_cons_self⟩)
    obtain ⟨haborts, hcallback⟩ := submitted_invariant (S := Aborts i) (Engine.initial pool n) h
      (fun _ _ _ _ _ hg hr => (steps_inv hr).aborts (Bool.and_eq_true_iff.mp hg).2) a task
      ownerTerminated hmem
    have hthread := fire_refuse hk hc hp ht hf
    rcases haborts (hcallback ▸ hw) with hhead | hall
    · obtain ⟨more, hmore⟩ := List.head?_eq_some_iff.mp hhead
      rw [hmore, List.map_cons, List.cons_append] at hthread
      exact ⟨_, _, hthread, by simp, .inl rfl⟩
    · rw [hall, List.map_cons, List.cons_append] at hthread
      exact ⟨_, _, hthread, by simp, .inr rfl⟩
  | @canceled task hw =>
    have hthread := fire_invoke hk hf
    rw [hw] at hthread
    exact ⟨_, _, hthread, Nat.le_succ _, .inl rfl⟩

theorem begun_of_mem {m : Memory} (h : ∃ b, .returned (.begin b (some i) S_OK) ∈ m.log) :
    1 ≤ m.begun i := by
  obtain ⟨b, hb⟩ := h
  obtain ⟨before, after, hlog⟩ := List.append_of_mem hb
  simp only [Memory.begun, hlog, List.map_append, List.map_cons, List.sum_append, List.sum_cons,
    Event.begins, Return.begins]
  simp
  omega

section Operation
variable {d d' : Config (World Engine) (Frame Callback Code)} {t : ℕ} {x : Option Choice}
  {code : Code}

/-- What the thread whose turn it is does to the memory and to the notification. -/
theorem fire_code (htop : d.top t = some (.client code))
    (hf : (machine Engine).fire d t x = some d') :
    ∃ choice r, Steps d.shared.mem d.shared.toTaskQueues code choice r ∧
      d'.shared.mem = r.mem ∧ ∀ w : Load Callback Code,
        w.total d'.shared.toCore d'.frames + w.code code =
          w.total d.shared.toCore d.frames + w.asked r := by
  obtain ⟨f, o, htop', hs, hshared, hframes⟩ := fire_frames hf
  rw [htop, Option.some.injEq] at htop'
  subst htop'
  obtain ⟨choice, r, rfl, hr, hmem, htotal⟩ := client_step hs
  refine ⟨choice, r, steps_inv hr, by rw [hshared, hmem], fun w => ?_⟩
  rw [hshared, hframes, htotal, frames_eq htop]
  simp only [Load.total, weight_cons, Load.frame]
  omega

/-- A call whose begin has failed never begins. -/
theorem not_begun_later (hd : (machine Engine).Reaches (callbackKept i) (Engine.start pool n) d)
    (htop : d.top t = some (.client (.afterOp i .begin E_ABORT none)))
    (hf : (machine Engine).fire d t x = some d')
    (hd' : (machine Engine).Reaches (callbackKept i) (Engine.start pool n) d')
    (h : (machine Engine).Reaches (callbackKept i) d' c) : c.shared.mem.begun i = 0 := by
  obtain ⟨choice, r, hs, hmem, htotal⟩ := fire_code htop hf
  have honce := (notified hd).once
  have hbegin := htotal (beginning i)
  obtain ⟨hborn, hzero⟩ : i < d'.shared.mem.states.length ∧
      (beginning i).total d'.shared.toCore d'.frames + d'.shared.mem.begun i = 0 := by
    rw [hmem]
    cases hs with
    | beginFailed hs ho =>
      have hself : (beginning i).code (.afterOp i .begin E_ABORT none) = 1 := by simp [beginning]
      have hasked : ∀ m : Memory, (beginning i).asked { mem := m, run := [.frame (.cleanup i),
          .frame (.beginReturn i E_ABORT)] } = 0 := by
        intro m
        simp [Load.asked, Load.instr, beginning, ho]
      rw [hself, hasked] at hbegin
      refine ⟨by simpa using (List.getElem?_eq_some_iff.mp hs).1, ?_⟩
      rw [begun_setState]
      simp only [Trace.load] at honce
      omega
  -- nothing is known of a call that does not begin, so anything can be said of it
  have hany : ∀ status, status ≠ E_PENDING → 1 ≤ c.shared.mem.begun i →
      c.shared.mem.status i = status := by
    intro status hstatus hb
    obtain ⟨hunborn, -, honce, -, hone⟩ := notified hd'
    have hknown : Notified i (some status) d'.shared.mem fun t =>
        (t.load i).total d'.shared.toCore d'.frames := by
      refine ⟨hunborn, fun _ hk => ?_, honce, fun ho => ?_, hone⟩
      · cases hk
        exact ⟨hstatus, hborn⟩
      · simp only [Trace.load] at ho
        omega
    have hlater := notified_later (hd'.weaken fun _ _ _ _ _ => trivial) h hknown
    have hsum := hlater.once
    exact hlater.known (by omega) _ rfl
  by_contra hne
  have hok := hany S_OK (by decide) (by omega)
  have habort := hany E_ABORT (by decide) (by omega)
  exact absurd (hok.symm.trans habort) (by decide)

/-- From where an operation completes the call on, the status is the one that it leaves. -/
theorem completed_later (htop : d.top t = some (.client (.call i (.complete E_ABORT 0))))
    (hf : (machine Engine).fire d t x = some d')
    (hd' : (machine Engine).Reaches (callbackKept i) (Engine.start pool n) d')
    (h : (machine Engine).Reaches (callbackKept i) d' c) (hb : 1 ≤ c.shared.mem.begun i) :
    c.shared.mem.status i ≠ E_PENDING ∧ c.shared.mem.status i =
      if d.shared.mem.status i = E_PENDING then E_ABORT else d.shared.mem.status i := by
  obtain ⟨choice, r, hs, hmem, -⟩ := fire_code htop hf
  obtain ⟨hborn, hstatus⟩ : i < d'.shared.mem.states.length ∧ d'.shared.mem.status i =
      if d.shared.mem.status i = E_PENDING then E_ABORT else d.shared.mem.status i := by
    rw [hmem]
    cases hs with
    | complete hs hp =>
      refine ⟨by simpa using (List.getElem?_eq_some_iff.mp hs).1, ?_⟩
      rw [status_setState hs, status_of hs, if_pos rfl, if_pos hp]
    | completeLate hs hp =>
      refine ⟨(List.getElem?_eq_some_iff.mp hs).1, ?_⟩
      rw [status_of hs, if_neg hp]
  have hfinal : d'.shared.mem.status i ≠ E_PENDING := by
    rw [hstatus]
    split
    · decide
    · assumption
  obtain ⟨hunborn, -, honce, -, hone⟩ := notified hd'
  have hknown : Notified i (some (d'.shared.mem.status i)) d'.shared.mem fun t =>
      (t.load i).total d'.shared.toCore d'.frames := by
    refine ⟨hunborn, fun status hk => ?_, honce, fun _ status hk => ?_, hone⟩
    · cases hk
      exact ⟨hfinal, hborn⟩
    · cases hk
      rfl
  have hlater := notified_later (hd'.weaken fun _ _ _ _ _ => trivial) h hknown
  have hsum := hlater.once
  have hkept := hlater.known (by omega) _ rfl
  rw [hkept]
  exact ⟨hfinal, hstatus⟩

end Operation

end Runs

/-- The thread of the game is in a submission of the `DoWork` of the call that will be refused. -/
def aboutToRefuse (i : ℕ) (c : Config (World Engine) (Frame Callback Code)) : Bool :=
  match (c.threads[1]? : Option (List (Frame Callback Code))) with
  | some [.submitPort _ task true, .client .game] =>
      decide (task.callback = .work i) &&
        (c.shared.contexts[task.owner]?.any fun context => c.shared.ports[context.port]?.isSome)
  | _ => false

theorem aboutToRefuse_spec {i : ℕ} {c : Config (World Engine) (Frame Callback Code)}
    (h : aboutToRefuse i c = true) : ∃ f, c.threads[1]? = some [f, .client .game] ∧
      SeesRefusal i c.shared.toCore f := by
  unfold aboutToRefuse at h
  split at h
  · rename_i a task hthread
    rw [Bool.and_eq_true] at h
    obtain ⟨context, hc, hp⟩ := (Option.any_eq_true _ _).mp h.2
    obtain ⟨port, hp⟩ := Option.isSome_iff_exists.mp hp
    exact ⟨_, hthread, .refused (of_decide_eq_true h.1) hc hp (.inr rfl)⟩
  · cases h

end XGameRuntime.XAsync
