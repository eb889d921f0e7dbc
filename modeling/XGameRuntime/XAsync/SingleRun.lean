import XGameRuntime.TaskQueue.Live
import XGameRuntime.XAsync.Protocol
import XGameRuntime.XAsync.Status

/-! # The work of `XAsyncRun`

`run_provider` calls the work function at every `DoWork`, and a `DoWork` is a pass that a queue has
accepted for the call. `XAsyncRun` submits one; `XAsyncCancel` submits another when the call is
pending, whether the first has come or not.
-/

namespace XGameRuntime.XAsync
open Concurrency TaskQueue
set_option autoImplicit false

/-! ## The passes of a call -/

/-- The call is one of `XAsyncRun`. -/
def Memory.isRun (m : Memory) (i : ℕ) : Bool :=
  (m.states[i]?).any fun state => decide (state.provider = .run)

/-- How often the provider of call `i` has received `DoWork`. -/
def Memory.works (m : Memory) (i : ℕ) : ℕ := (m.ops i).count .doWork

abbrev passes (i : ℕ) : Load Callback Code := pendingLoad .doWork i

/-- What a section is about to record for a call that no pass of it has returned. -/
def Code.records : Code → Option (ℕ × HRESULT)
  | .call i (.complete result _) => some (i, result)
  | .afterOp i .begin hr _ => if hr = S_OK then none else some (i, hr)
  | _ => none

/-- A queue accepts one pass for a call of `XAsyncRun`, while it is pending, and such a call gets no
final status while a pass that is not canceled may still come. -/
def onePass (s : World Engine) (R : Multiset (Frame Callback Code)) : Frame Callback Code → Bool
  | .submitPort _ task ownerTerminated =>
      match task.callback with
      | .work i => decide (s.accepts task ownerTerminated = true → s.mem.isRun i = true →
          s.mem.status i = E_PENDING ∧ (passes i).tasks s.accepted = 0)
      | _ => true
  | .client code =>
      match code.records with
      | some (i, result) => decide (s.mem.isRun i = true → s.mem.status i = E_PENDING →
          result ≠ E_PENDING → (passes i).liveTotal s.toCore R = 0)
      | none => true
  | _ => true

abbrev oneRun : Guard (World Engine) (Frame Callback Code) (Option Choice) := fun s R f _ =>
  onePass s R f = true

theorem passes_work (i : ℕ) : (passes i).callback (.work i) = 1 := by simp [pendingLoad]

theorem passes_invoke (i : ℕ) : (passes i).code (.invoke i .doWork) = 1 := by simp [pendingLoad]

theorem passes_calls (i : ℕ) : (passes i).Calls Engine.body Engine.monitor := by
  refine ⟨fun callback => (pendingLoad_sees .doWork i).body callback false, fun callback => ?_,
    fun _ _ _ => ?_⟩
  · cases callback <;> simp [Callback.code, pendingLoad]
  · simp [pendingLoad]

/-- The frames of a pass whose `DoWork` has been received. -/
def returning (i : ℕ) : Load Callback Code where
  callback _ := 0
  code
    | .opReturn j .doWork | .afterOp j .doWork _ _ => if j = i then 1 else 0
    | _ => 0

theorem returning_sees (i : ℕ) : Sees (returning i) := by
  refine ⟨rfl, rfl, fun _ => rfl, fun callback canceled => ?_⟩
  cases callback with
  | work j => cases canceled <;> simp [Callback.code, returning]
  | _ => simp [Callback.code, returning]

theorem Invokes.returns {m : Memory} {i : ℕ} {state : AsyncState} {op : XAsyncOp} {r : EngineStep}
    (h : Invokes m i state op r) (j : ℕ) :
    (returning j).asked r ≤ if i = j ∧ op = .doWork then 1 else 0 := by
  cases h with
  | game => cases op <;> simp [Load.asked, Load.instr, returning]
  | runOther => cases op <;> simp [Load.asked, Load.instr, returning]
  | runSyncBegin => simp [Load.asked, Load.instr, Load.submission, runSyncSubmission, returning]
  | _ => simp [Load.asked, Load.instr, Load.submission, returning]

section Steps
variable {m : Memory} {s : TaskQueues Callback} {code : Code} {x : Choice} {r : EngineStep}

/-- No section of the engine starts a pass: it submits it. -/
theorem Invokes.starts {i : ℕ} {state : AsyncState} {op : XAsyncOp} (h : Invokes m i state op r)
    (j : ℕ) : (passes j).started r = 0 := by
  cases h <;> simp [Load.started, Load.live, Instr.toFrame, pendingLoad, runSyncSubmission]

theorem Begins.starts {b identity : ℕ} {provider : Provider}
    (h : Begins m s b identity provider r) (j : ℕ) : (passes j).started r = 0 := by
  cases h with
  | rejected => rfl
  | unrouted => rfl
  | parked => simp [Load.started, Load.live, Instr.toFrame, pendingLoad]

theorem started_resume (r : EngineStep) (j : ℕ) :
    (passes j).started (resume r) = (passes j).started r := by
  simp [Load.started, resume, Load.live, Instr.toFrame, pendingLoad]

theorem Steps.starts (h : Steps m s code x r) (j : ℕ) : (passes j).started r = 0 := by
  cases h with
  | queue hr =>
    subst hr
    refine Nat.le_zero.mp ((Load.started_le_asked _ _).trans ?_)
    exact (asked_queue (passes j) (pendingLoad_sees .doWork j) _ _).le
  | begin h | run h | runSync _ h =>
    rw [started_resume]
    exact h.starts j
  | invoke _ hi => exact hi.starts j
  | @unresolved b c => 
    cases c <;> simp [Load.started, Load.live, Instr.toFrame, pendingLoad, XAsyncCall.illegal]
  | _ => simp [Load.started, Load.live, Instr.toFrame, pendingLoad]

theorem Begins.works {b identity : ℕ} {provider : Provider}
    (h : Begins m s b identity provider r) (j : ℕ) : r.mem.works j = m.works j := by
  cases h with
  | rejected => rw [Memory.works, Memory.beginReturned_ops]; rfl
  | unrouted => rw [Memory.works, Memory.beginReturned_ops]; rfl
  | @parked route q routed state hb hn hroute hq hm hstate =>
    subst hm
    simp only [Memory.works, Memory.park, ops_record, Event.operation]
    rfl

theorem Steps.works (h : Steps m s code x r) (j : ℕ) :
    r.mem.works j = m.works j + if code = .invoke j .doWork then 1 else 0 := by
  cases h with
  | begin h | run h =>
    have hw := h.works j
    simpa [resume] using hw
  | @runSync b size r hb h =>
    have hw : r.mem.works j = m.works j := h.works j
    simpa [resume] using hw
  | @invoke i op state r x hs hi =>
    rw [Memory.works, hi.ops, Memory.works]
    by_cases hij : i = j
    · subst hij
      cases op <;> simp
    · simp [hij]
  | beginReturn => 
    rw [Memory.works, Memory.beginReturned_ops, Memory.works]
    simp
  | cleanedUp =>
    rw [Memory.works, Memory.ops, Memory.takeState_log]
    simp [Memory.works, Memory.ops]
  | _ => simp [Memory.works, Memory.ops, Event.operation, List.filterMap_cons]

/-- A pass is only submitted for a call that is there. -/
theorem Steps.submitsPass (h : Steps m s code x r) {L : ℕ → ℕ} (hpark : Parked m L) {j : ℕ}
    (hj : r.mem.states[j]? = none) : (passes j).asked r = 0 := by
  have hsubmit : ∀ {i : ℕ} {state : AsyncState}, m.states[i]? = some state →
      r.mem.states = m.states → ¬ (i = j) := by
    rintro i state hs hsame rfl
    rw [hsame, hs] at hj
    cases hj
  cases h with
  | queue hr =>
    subst hr
    exact asked_queue (passes j) (pendingLoad_sees .doWork j) _ _
  | begin h | run h | runSync _ h =>
    rw [asked_resume _ (pendingLoad_sees .doWork j), h.asked _ fun _ => rfl]
  | invoke _ hi =>
    refine Nat.le_zero.mp ((hi.pending .doWork j).trans_eq (if_neg ?_))
    rintro ⟨-, -, hb⟩
    obtain ⟨-, state, hs, -⟩ := hpark.parked _ j (stateOf_eq_some hb).2
    rw [hi.same.1, hs] at hj
    cases hj
  | schedule hs | canceled hs =>
    simp [Load.asked, Load.instr, Load.submission, pendingLoad, hsubmit hs rfl]
  | @unresolved b c => cases c <;> simp [Load.asked, Load.instr, pendingLoad, XAsyncCall.illegal]
  | _ => simp [Load.asked, Load.instr, Load.submission, pendingLoad]

/-- What follows `DoWork` comes from one that has been received. -/
theorem Steps.returns (h : Steps m s code x r) (j : ℕ) :
    (returning j).asked r ≤
      (returning j).code code + if code = .invoke j .doWork then 1 else 0 := by
  cases h with
  | queue hr =>
    subst hr
    exact (asked_queue (returning j) (returning_sees j) _ _).le.trans (Nat.zero_le _)
  | begin h | run h | runSync _ h =>
    rw [asked_resume _ (returning_sees j), h.asked _ fun _ => rfl]
    exact Nat.zero_le _
  | @invoke i op state r x hs hi =>
    have hle := hi.returns j
    by_cases hk : i = j ∧ op = .doWork
    · obtain ⟨rfl, rfl⟩ := hk
      simpa [returning] using hle
    · rw [if_neg hk] at hle
      exact hle.trans (Nat.zero_le _)
  | @unresolved b c => cases c <;> simp [Load.asked, Load.instr, returning, XAsyncCall.illegal]
  | @opReturn i op hr => cases op <;> simp [Load.asked, Load.instr, returning]
  | _ => simp [Load.asked, Load.instr, Load.submission, returning]

/-- The sections that write a status. -/
theorem Steps.writes (h : Steps m s code x r) : (∀ j, r.mem.status j = m.status j) ∨
    ∃ i status, (∀ j, r.mem.status j = if i = j then status else m.status j) ∧
      (code.records = some (i, status) ∨ ∃ out, code = .afterOp i .doWork status out) := by
  cases h with
  | complete hs => exact .inr ⟨_, _, fun j => status_setState hs j, .inl rfl⟩
  | didWork hs => exact .inr ⟨_, _, fun j => status_setState hs j, .inr ⟨_, rfl⟩⟩
  | beginFailed hs ho => exact .inr ⟨_, _, fun j => status_setState hs j, .inl (if_neg ho)⟩
  | cancel hs | getResult hs | cleanup hs =>
    exact .inl fun j => status_setState_same hs (by rfl) j
  | begin h | run h | runSync _ h => exact .inl fun j => h.status j
  | invoke _ hi => exact .inl fun j => by rw [Memory.status, hi.same.1]; rfl
  | beginReturn => exact .inl fun j => by rw [Memory.status, Memory.beginReturned_states]; rfl
  | cleanedUp => exact .inl fun j => by rw [Memory.status, Memory.takeState_states]; rfl
  | _ => exact .inl fun _ => rfl

end Steps

/-! ## Every run -/

section Runs
variable {c c' : Config (World Engine) (Frame Callback Code)} {pool n : ℕ}
  {G : Guard (World Engine) (Frame Callback Code) (Option Choice)}

/-- What has been received and what may still come has been accepted. -/
theorem works_le_accepted (h : (machine Engine).Reaches G (Engine.start pool n) c) (i : ℕ) :
    c.shared.mem.works i + (passes i).liveTotal c.shared.toCore c.frames ≤
      (passes i).tasks c.shared.accepted := by
  refine h.preserved (I := fun s fs => s.mem.works i + (passes i).liveTotal s.toCore fs ≤
    (passes i).tasks s.accepted) ?_ ?_
  · have hlive :=
      (passes i).liveTotal_le (Engine.start pool n).shared.toCore (Engine.start pool n).frames
    rw [start_total (pendingLoad_sees .doWork i)] at hlive
    simp only [Nat.le_zero.mp hlive]
    exact Nat.le_refl 0
  · intro s f R x o _ hI hs
    rcases Load.step_live hs (passes_calls i) R with ⟨-, hmem, hlive⟩ |
      ⟨code, choice, r, rfl, rfl, hr, hmem, hacc, hlive⟩
    · rw [hmem]
      omega
    · have hst := steps_inv hr
      have hworks := hst.works i
      rw [hmem, hacc, hlive, hst.starts, hworks]
      simp only [Load.liveTotal, weight_cons, Load.live] at hI ⊢
      have hcode : (if code = .invoke i .doWork then 1 else 0) ≤ (passes i).code code := by
        split
        · rename_i hc
          simp [hc, pendingLoad]
        · exact Nat.zero_le _
      omega

/-- A pass is submitted for a call that has begun. -/
theorem unborn_passes (h : (machine Engine).Reaches G (Engine.start pool n) c) :
    ∀ i, c.shared.mem.states[i]? = none → (passes i).total c.shared.toCore c.frames = 0 := by
  refine engine_invariant (J := fun s fs => Parked s.mem fun i => (closing i).total s.toCore fs)
    (I := fun m L => ∀ i, m.states[i]? = none → L i = 0)
    h (pendingLoad_sees .doWork) (fun _ hc => parked hc) ?_ ?_ ?_
  · intro i _
    exact start_total (pendingLoad_sees .doWork i) pool n
  · intro m L L' hL hI i hi
    exact Nat.le_zero.mp (hI i hi ▸ hL i)
  · intro s R code choice r _ hpark hs hI i hi
    have hold : s.mem.states[i]? = none := by
      rw [List.getElem?_eq_none_iff] at hi ⊢
      exact hs.length_le.trans hi
    show (passes i).total s.toCore R + (passes i).asked r = 0
    rw [hs.submitsPass hpark hi]
    exact (Nat.add_eq_zero_iff.mp (hI i hold)).1

theorem unborn_accepted (h : (machine Engine).Reaches G (Engine.start pool n) c) :
    ∀ i, c.shared.mem.states[i]? = none → (passes i).tasks c.shared.accepted = 0 := by
  refine h.invariant (I := fun s _ => ∀ i, s.mem.states[i]? = none → (passes i).tasks s.accepted = 0)
    (J := fun s fs => ∀ i, s.mem.states[i]? = none → (passes i).total s.toCore fs = 0)
    (fun c hc => unborn_passes hc) (fun _ _ => rfl) ?_
  intro s f R x o _ hJ hI hs i hi
  have hold : s.mem.states[i]? = none := by
    rcases engine_step_cases hs with ⟨-, hmem, -⟩ | ⟨code, choice, r, -, -, hr, hmem, -⟩
    · rw [← hmem]
      exact hi
    · rw [hmem] at hi
      rw [List.getElem?_eq_none_iff] at hi ⊢
      exact hr.length_le.trans hi
  rcases step_accepted hs with hacc | ⟨a, task, rfl, -, hacc⟩
  · rw [hacc]
    exact hI i hold
  · rw [hacc, Load.tasks_cons, hI i hold, Nat.add_zero]
    have hzero := hJ i hold
    rw [Load.total, weight_cons] at hzero
    have hle : (passes i).callback task.callback ≤ (passes i).frame (.submitPort a task false) :=
      (Nat.le_add_right _ _).trans (Nat.le_max_left _ _)
    omega

theorem returning_le (h : (machine Engine).Reaches G (Engine.start pool n) c) :
    ∀ i, (returning i).total c.shared.toCore c.frames ≤ c.shared.mem.works i := by
  refine engine_invariant (J := fun _ _ => True) (I := fun m L => ∀ i, L i ≤ m.works i)
    h returning_sees (fun _ _ => trivial) ?_ ?_ ?_
  · intro i
    exact (start_total (returning_sees i) pool n).le.trans (Nat.zero_le _)
  · intro m L L' hL hI i
    exact (hL i).trans (hI i)
  · intro s R code choice r _ _ hs hI i
    have hle : (returning i).total s.toCore R + (returning i).code code ≤ s.mem.works i := hI i
    have hasked := hs.returns i
    show (returning i).total s.toCore R + (returning i).asked r ≤ r.mem.works i
    rw [hs.works i]
    omega

/-- A call keeps its provider. -/
theorem Steps.isRun {m : Memory} {s : TaskQueues Callback} {code : Code} {x : Choice}
    {r : EngineStep} (h : Steps m s code x r) {i : ℕ} (hrun : r.mem.isRun i = true) :
    m.states[i]? = none ∨ m.isRun i = true := by
  cases hs : m.states[i]? with
  | none => exact .inl rfl
  | some state =>
    obtain ⟨state', hs', hsame⟩ := h.keeps hs
    rw [Memory.isRun, hs'] at hrun
    rw [Memory.isRun, hs]
    simpa [hsame.provider] using hrun

/-- What is known of a call while the condition is met. -/
def RunKept (i : ℕ) (s : World Engine) (fs : Multiset (Frame Callback Code)) : Prop :=
  s.mem.isRun i = true → (passes i).tasks s.accepted ≤ 1 ∧
    (0 < (passes i).liveTotal s.toCore fs → s.mem.status i = E_PENDING)

/-- What is known of a call whatever the queues do. -/
structure RunCounted (i : ℕ) (s : World Engine) (fs : Multiset (Frame Callback Code)) : Prop where
  received : s.mem.works i + (passes i).liveTotal s.toCore fs ≤ (passes i).tasks s.accepted
  returning : (returning i).total s.toCore fs ≤ s.mem.works i
  unborn : s.mem.states[i]? = none → (passes i).tasks s.accepted = 0

theorem runCounted (h : (machine Engine).Reaches G (Engine.start pool n) c) (i : ℕ) :
    RunCounted i c.shared c.frames :=
  ⟨works_le_accepted h i, returning_le h i, unborn_accepted h i⟩

/-- A section of the engine starts no pass, and records nothing that a pass may come after. -/
theorem RunKept.client {s : World Engine} {R : Multiset (Frame Callback Code)} {code : Code}
    {choice : Choice} {r : EngineStep} {i : ℕ} (hI : RunKept i s (.client code ::ₘ R))
    (hJ : RunCounted i s (.client code ::ₘ R)) (hg : oneRun s R (.client code) (some choice))
    (hs : Steps s.mem s.toTaskQueues code choice r) (hrun : r.mem.isRun i = true) :
    (passes i).tasks s.accepted ≤ 1 ∧
      (0 < (passes i).liveTotal s.toCore R → r.mem.status i = E_PENDING) := by
  have hreceived := hJ.received
  have hlive : (passes i).liveTotal s.toCore (.client code ::ₘ R) =
      (passes i).liveTotal s.toCore R + (passes i).code code := by
    simp only [Load.liveTotal, weight_cons, Load.live]
    omega
  rcases hs.isRun hrun with hnone | hold
  · have hzero := hJ.unborn hnone
    exact ⟨by omega, fun hpos => by omega⟩
  obtain ⟨hone, hpending⟩ := hI hold
  refine ⟨hone, fun hpos => ?_⟩
  have hstatus := hpending (by omega)
  rcases hs.writes with hsame | ⟨j, status, hwrite, hcode⟩
  · rw [hsame, hstatus]
  rw [hwrite]
  split
  · rename_i hj
    subst hj
    rcases hcode with hrec | ⟨out, rfl⟩
    · by_contra hfinal
      have hguard : (passes j).liveTotal s.toCore R = 0 := by
        simp only [oneRun, onePass, hrec, decide_eq_true_eq] at hg
        exact hg hold hstatus hfinal
      omega
    · -- the pass that returns is the one that was accepted
      have hreturning :
          1 ≤ (returning j).total s.toCore (.client (.afterOp j .doWork status out) ::ₘ R) := by
        simp only [Load.total, weight_cons, Load.frame, returning, if_pos]
        omega
      have hworks := hJ.returning
      omega
  · exact hstatus

theorem runKept (h : (machine Engine).Reaches oneRun (Engine.start pool n) c) (i : ℕ) :
    RunKept i c.shared c.frames := by
  refine h.invariant (I := RunKept i) (J := RunCounted i) (fun c hc => runCounted hc i) ?_ ?_
  · intro hrun
    cases hrun
  · intro s f R x o hg hJ hI hs hrun
    rcases Load.step_live hs (passes_calls i) R with ⟨hf, hmem, hlive⟩ |
      ⟨code, choice, r, rfl, rfl, hr, hmem, hacc, hlive⟩
    · rw [hmem] at hrun ⊢
      obtain ⟨hone, hpending⟩ := hI hrun
      rcases step_accepted hs with hacc | ⟨a, task, rfl, haccepts, hacc⟩
      · rw [hacc] at hlive ⊢
        exact ⟨hone, fun hpos => hpending (by omega)⟩
      · rw [hacc, Load.tasks_cons] at hlive ⊢
        by_cases hcb : task.callback = .work i
        · simp only [oneRun, onePass, hcb, decide_eq_true_eq] at hg
          obtain ⟨hstatus, hzero⟩ := hg haccepts hrun
          rw [hcb, passes_work, hzero]
          exact ⟨Nat.le_refl 1, fun _ => hstatus⟩
        · have hzero : (passes i).callback task.callback = 0 := by
            cases hcallback : task.callback with
            | work j =>
              have hj : j ≠ i := by
                rintro rfl
                exact hcb hcallback
              simp [pendingLoad, hj]
            | _ => rfl
          exact ⟨by omega, fun hpos => hpending (by omega)⟩
    · have hst := steps_inv hr
      rw [hmem, hacc, hlive, hst.starts, Nat.add_zero]
      rw [hmem] at hrun
      exact hI.client hJ hg hst hrun

/-- The work function of an `XAsyncRun` is called at most once, and while the call is pending. -/
theorem run_works_once (h : (machine Engine).Reaches oneRun (Engine.start pool n) c) {i : ℕ}
    (hrun : c.shared.mem.isRun i = true) : c.shared.mem.works i ≤ 1 ∧
      ∀ c', (machine Engine).Fires anyStep c c' → c'.shared.mem.works i ≠ c.shared.mem.works i →
        c.shared.mem.status i = E_PENDING := by
  have hreceived := works_le_accepted h i
  obtain ⟨hone, hpending⟩ := runKept h i hrun
  refine ⟨by omega, fun c' hf hne => ?_⟩
  obtain ⟨t, x, f, o, -, hfr, -, hs, h1, -⟩ := hf.cases
  rcases engine_step_cases hs with ⟨-, hmem, -⟩ | ⟨code, choice, r, rfl, rfl, hr, hmem, -⟩
  · rw [h1, hmem] at hne
    exact absurd rfl hne
  · rw [h1, hmem, hr.works] at hne
    have hcode : code = .invoke i .doWork := by
      by_contra hc
      simp [hc] at hne
    refine hpending ?_
    have hlive := passes_invoke i
    rw [hfr, Load.liveTotal, weight_cons, hcode, Load.live]
    omega

end Runs

/-- The work function has returned when the call is canceled: the one pass was all. -/
theorem run_works_once_canceled : ∃ c, (machine Engine).Reaches oneRun (Engine.start 2 1) c ∧
    c.shared.mem.isRun 0 = true ∧ c.shared.mem.works 0 = 1 ∧
    ∀ c', (machine Engine).Fires anyStep c c' → c'.shared.mem.works 0 ≠ 1 →
      c.shared.mem.status 0 = E_PENDING := by
  have h : ((machine Engine).run oneRun ([Engine.does (.run 1 true)] ++ Engine.steps 1 6 ++
      Engine.steps 2 4 ++ [(2, some (.returns S_OK))] ++ Engine.steps 2 1 ++
      [Engine.does (.xasync 1 .cancel)] ++ Engine.steps 1 1) (Engine.start 2 1)).any (fun c => decide (
        c.shared.mem.isRun 0 = true ∧ c.shared.mem.works 0 = 1)) = true := by
    decide +kernel
  obtain ⟨c, hr, hc⟩ := Machine.Reaches.of_run_any h
  obtain ⟨hrun, hworks⟩ := of_decide_eq_true hc
  exact ⟨c, hr, hrun, hworks, hworks ▸ (run_works_once hr hrun).2⟩

/-- A call is canceled before its first pass: the pass for the cancellation calls the work function
again, and here the call has completed by then. -/
theorem cancel_works_again : ∃ c c', (machine Engine).Reaches anyStep (Engine.start 2 1) c ∧
    (machine Engine).Fires anyStep c c' ∧
    .returned (.begin 1 (some 0) S_OK) ∈ c.shared.mem.log ∧ c.shared.mem.isRun 0 = true ∧
    c.shared.mem.works 0 = 1 ∧ c.shared.mem.status 0 = S_OK ∧ c'.shared.mem.works 0 = 2 := by
  have h : ((machine Engine).run anyStep ([Engine.does (.run 1 true)] ++ Engine.steps 1 6 ++
      [Engine.does (.xasync 1 .cancel)] ++ Engine.steps 1 7 ++ Engine.steps 2 4 ++
      [(2, some (.returns S_OK))] ++ Engine.steps 2 1 ++ Engine.steps 3 2) (Engine.start 2 1)).any
      (fun c => decide (.returned (.begin 1 (some 0) S_OK) ∈ c.shared.mem.log ∧
        c.shared.mem.isRun 0 = true ∧ c.shared.mem.works 0 = 1 ∧ c.shared.mem.status 0 = S_OK) &&
        ((machine Engine).fire c 3 (some .finish)).any fun c' =>
          decide (c'.shared.mem.works 0 = 2)) = true := by
    decide +kernel
  obtain ⟨c, hr, hc⟩ := Machine.Reaches.of_run_any h
  rw [Bool.and_eq_true] at hc
  obtain ⟨c', hf, hc'⟩ := (Option.any_eq_true _ _).mp hc.2
  obtain ⟨hlog, hrun, hworks, hstatus⟩ := of_decide_eq_true hc.1
  exact ⟨c, c', hr, ⟨3, some .finish, fun _ _ => trivial, hf⟩, hlog, hrun, hworks, hstatus,
    of_decide_eq_true hc'⟩

end XGameRuntime.XAsync
