import XGameRuntime.XAsync.Engine

/-! # A call polled by one thread

What `XAsyncGetStatus`, `XAsyncGetResultSize` and `XAsyncGetResult` do to a call that is complete
when nobody else is at it: the steps of the engine, taken one after the other.
-/

namespace XGameRuntime.XAsync
open TaskQueue
set_option autoImplicit false

/-! ## The steps of one thread -/

/-- Code of the game comes to its end at once, and its operations return `hr`. -/
def Code.settle (hr : HRESULT) : Code → Choice
  | .opReturn _ _ => .returns hr
  | _ => .finish

def Instr.code : Instr Callback Code → Option Code
  | .frame c => some c
  | .submit _ | .dispatch _ | .terminate _ => none

/-- The rest of a thread, run to its end, where it calls into no queue. -/
def Memory.runCode (hr : HRESULT) (s : TaskQueues Callback) :
    ℕ → Memory → List Code → Option Memory
  | _, m, [] => some m
  | 0, _, _ :: _ => none
  | n + 1, m, code :: rest => do
      let r ← m.step s code (code.settle hr)
      let frames ← r.run.mapM Instr.code
      runCode hr s n r.mem (frames ++ rest)

/-- The methods that ask for the outcome of a call. -/
inductive Poll where
  | getStatus (wait : Bool)
  | getResultSize (out : Bool)
  | getResult (identity bufferSize : ℕ)
  deriving DecidableEq, Repr

def Poll.call : Poll → XAsyncCall
  | .getStatus wait => .getStatus wait
  | .getResultSize out => .getResultSize out
  | .getResult identity bufferSize => .getResult identity bufferSize

def Poll.code (m : Memory) (b : ℕ) (p : Poll) : List Code :=
  match m.stateOf b with
  | none => p.call.illegal.map .ret
  | some i => [.call i p.call]

/-- What the last method to return has returned. -/
def Memory.answer (m : Memory) : Option Return :=
  m.log.head?.bind fun
    | .returned value => some value
    | _ => none

/-- No poll takes more steps. -/
def Poll.steps : ℕ := 12

def Memory.poll (hr : HRESULT) (s : TaskQueues Callback) (m : Memory) (b : ℕ) (p : Poll) :
    Option Memory :=
  m.runCode hr s Poll.steps (p.code m b)

def Return.hresult : Return → HRESULT
  | .begin _ _ hr | .schedule _ hr | .getStatus _ hr | .getResultSize _ hr _
  | .getResultRefused _ hr | .getResult _ hr _ => hr

/-! ## Rules -/

section Rules
variable {hr : HRESULT} {s : TaskQueues Callback} {n : ℕ} {m : Memory} {codes rest : List Code}
  {P : Memory → Prop}

/-- Within `n` steps the thread comes to its end in a memory that meets `P`. -/
def Ends (hr : HRESULT) (s : TaskQueues Callback) (n : ℕ) (m : Memory) (codes : List Code)
    (P : Memory → Prop) : Prop :=
  ∃ m', m.runCode hr s n codes = some m' ∧ P m'

theorem Ends.done (h : P m) : Ends hr s n m [] P := by
  refine ⟨m, ?_, h⟩
  cases n <;> rfl

theorem Ends.step {code : Code} {r : EngineStep} {l : List Code}
    (hstep : m.step s code (code.settle hr) = some r) (hframes : r.run = l.map .frame)
    (h : Ends hr s n r.mem (l ++ rest) P) : Ends hr s (n + 1) m (code :: rest) P := by
  obtain ⟨m', hrun, hP⟩ := h
  refine ⟨m', ?_, hP⟩
  have hcodes : r.run.mapM Instr.code = some l := by
    rw [hframes]
    clear hframes hrun
    induction l with
    | nil => rfl
    | cons c l ih =>
      rw [List.map_cons, List.mapM_cons, ih]
      rfl
  rw [Memory.runCode, hstep]
  simpa [hcodes] using hrun

theorem Ends.more {k : ℕ} (h : Ends hr s n m codes P) : Ends hr s (n + k) m codes P := by
  obtain ⟨m', hrun, hP⟩ := h
  refine ⟨m', ?_, hP⟩
  induction n generalizing m codes with
  | zero =>
    cases codes with
    | nil =>
      rw [← hrun]
      cases k <;> rfl
    | cons code rest => cases hrun
  | succ n ih =>
    cases codes with
    | nil =>
      rw [← hrun]
      cases k <;> rfl
    | cons code rest =>
      rw [Nat.add_right_comm, Memory.runCode]
      rw [Memory.runCode] at hrun
      obtain ⟨r, hr, hrun⟩ := Option.bind_eq_some_iff.mp hrun
      obtain ⟨frames, hframes, hrun⟩ := Option.bind_eq_some_iff.mp hrun
      rw [hr]
      simp [hframes, ih hrun]

/-- What `GetResult` of the provider returns, and what it puts in the buffer. -/
def Memory.delivers (hr : HRESULT) (m : Memory) : Provider → Option (HRESULT × Option ℕ)
  | .game => some (hr, none)
  | .run => some (S_OK, none)
  | .runSync h => m.helpers[h]?.map fun helper =>
      (S_OK, if helper.result = S_OK then helper.payload else none)

/-- An operation of the game's provider ends after three steps. -/
theorem Ends.game {i : ℕ} {state : AsyncState} {op : XAsyncOp} (hi : m.states[i]? = some state)
    (hop : op ≠ .begin) (hprov : state.provider = .game)
    (h : Ends hr s n (m.record (.invoked i op)) (.afterOp i op hr none :: rest) P) :
    Ends hr s (n + 3) m (.invoke i op :: rest) P := by
  refine Ends.step (l := [.game, .opReturn i op])
    (r := { mem := m.record (.invoked i op), run := [.frame .game, .frame (.opReturn i op)] })
    ?_ rfl ?_
  · cases op with
    | begin => exact absurd rfl hop
    | _ => simp [Memory.step, hi, invoke, hprov]
  · exact Ends.step (l := []) (r := { mem := m.record (.invoked i op) }) rfl rfl
      (Ends.step (l := [.afterOp i op hr none])
        (r := { mem := m.record (.invoked i op), run := [.frame (.afterOp i op hr none)] }) rfl rfl h)

/-- A provider asked for the result answers within three steps. -/
theorem Ends.getResult {i : ℕ} {state : AsyncState} {v : HRESULT × Option ℕ}
    (hi : m.states[i]? = some state) (hv : m.delivers hr state.provider = some v)
    (h : ∀ m', m'.blocks = m.blocks → m'.states = m.states → m'.helpers = m.helpers →
      Ends hr s n m' (.afterOp i .getResult v.1 v.2 :: rest) P) :
    Ends hr s (n + 3) m (.invoke i .getResult :: rest) P := by
  cases hprov : state.provider with
  | game =>
    rw [hprov] at hv
    cases hv
    exact .game hi (by simp) hprov (h _ rfl rfl rfl)
  | run =>
    rw [hprov] at hv
    cases hv
    refine Ends.more (n := n + 1) (k := 2) (Ends.step (l := [.afterOp i .getResult S_OK none])
      (r := { mem := m.record (.invoked i .getResult)
              run := [.frame (.afterOp i .getResult S_OK none)] }) ?_ rfl (h _ rfl rfl rfl))
    simp [Memory.step, hi, invoke, hprov, runProvider]
  | runSync helper =>
    rw [hprov] at hv
    obtain ⟨context, hcontext, rfl⟩ := Option.map_eq_some_iff.mp hv
    refine Ends.more (n := n + 1) (k := 2) (Ends.step
      (l := [.afterOp i .getResult S_OK
        (if context.result = S_OK then context.payload else none)])
      (r := runSyncHelper (m.record (.invoked i .getResult)) s i state helper context .getResult)
      ?_ rfl (h _ rfl rfl rfl))
    simp [Memory.step, hi, invoke, hprov, hcontext]

/-- So does one that is cleaned up. -/
theorem Ends.cleanup {i : ℕ} {state : AsyncState} {v : HRESULT × Option ℕ}
    (hi : m.states[i]? = some state) (hv : m.delivers hr state.provider = some v)
    (h : ∀ m' hr' out, m'.blocks = m.blocks → m'.states = m.states →
      Ends hr s n m' (.afterOp i .cleanup hr' out :: rest) P) :
    Ends hr s (n + 3) m (.invoke i .cleanup :: rest) P := by
  cases hprov : state.provider with
  | game => exact .game hi (by simp) hprov (h _ _ _ rfl rfl)
  | run =>
    refine Ends.more (n := n + 1) (k := 2) (Ends.step (l := [.afterOp i .cleanup S_OK none])
      (r := { mem := m.record (.invoked i .cleanup)
              run := [.frame (.afterOp i .cleanup S_OK none)] }) ?_ rfl (h _ _ _ rfl rfl))
    simp [Memory.step, hi, invoke, hprov, runProvider]
  | runSync helper =>
    rw [hprov] at hv
    obtain ⟨context, hcontext, -⟩ := Option.map_eq_some_iff.mp hv
    refine Ends.more (n := n + 1) (k := 2) (Ends.step (l := [.afterOp i .cleanup S_OK none])
      (r := runSyncHelper (m.record (.invoked i .cleanup)) s i state helper context .cleanup)
      ?_ rfl (h _ _ _ rfl rfl))
    simp [Memory.step, hi, invoke, hprov, hcontext]

/-- `cleanup` takes the call out of its block. -/
theorem Ends.clean {i : ℕ} {state : AsyncState} {v : HRESULT × Option ℕ}
    (hi : m.states[i]? = some state) (hopen : state.cleanedUp = false) (hblock : state.block ≠ 0)
    (hv : m.delivers hr state.provider = some v)
    (h : ∀ m', m'.stateOf state.block = none → Ends hr s n m' rest P) :
    Ends hr s (n + 5) m (.cleanup i :: rest) P := by
  have hlt : i < m.states.length := (List.getElem?_eq_some_iff.mp hi).1
  let cleaned := m.setState i { state with cleanedUp := true }
  have hcleaned : cleaned.states[i]? = some { state with cleanedUp := true } := by
    simp [cleaned, hlt]
  refine Ends.step (l := [.invoke i .cleanup])
    (r := { mem := cleaned, run := [.frame (.invoke i .cleanup)] }) ?_ rfl ?_
  · simp [Memory.step, hi, hopen, cleaned]
  · refine Ends.cleanup (n := n + 1) hcleaned (v := v) hv fun m' hr' out hblocks hstates => ?_
    refine Ends.step (l := []) (r := { mem := m'.takeState state.block }) ?_ rfl (h _ ?_)
    · simp [Memory.step, hstates, hcleaned, afterOp]
    · simp [Memory.stateOf, Memory.takeState, hblock]

theorem Ends.ret {value : Return} (h : P (m.record (.returned value))) :
    Ends hr s (n + 1) m [.ret value] P :=
  Ends.step (l := []) (r := { mem := m.record (.returned value) }) rfl rfl (Ends.done h)

end Rules

/-! ## Polls of a complete call -/

section Polls
variable {hr : HRESULT} {s : TaskQueues Callback} {m : Memory} {b i : ℕ} {state : AsyncState}
  {v : HRESULT × Option ℕ}

/-- A call that is complete, and that its block still drives. -/
structure Complete (m : Memory) (b i : ℕ) (state : AsyncState) : Prop where
  parked : m.stateOf b = some i
  driven : m.states[i]? = some state
  block : state.block = b
  final : state.status ≠ E_PENDING
  notTaken : state.cleanedUp = false

/-- The method has returned `value`, and the call is as it was. -/
structure Kept (m : Memory) (value : Return) (m' : Memory) : Prop where
  answer : m'.answer = some value
  blocks : m'.blocks = m.blocks
  states : m'.states = m.states
  helpers : m'.helpers = m.helpers

/-- The method has returned `value`, and its block drives no call. -/
structure Taken (b : ℕ) (value : Return) (m' : Memory) : Prop where
  answer : m'.answer = some value
  free : m'.stateOf b = none

theorem Complete.ne_zero (h : Complete m b i state) : b ≠ 0 := by
  rintro rfl
  have hparked := h.parked
  simp [Memory.stateOf] at hparked

theorem Complete.code (h : Complete m b i state) (p : Poll) : p.code m b = [.call i p.call] := by
  unfold Poll.code
  rw [h.parked]

theorem Complete.of_kept {m' : Memory} {value : Return} (h : Complete m b i state)
    (hkept : Kept m value m') : Complete m' b i state := by
  have hparked : m'.stateOf b = m.stateOf b := by
    unfold Memory.stateOf
    rw [hkept.blocks]
  exact ⟨hparked.trans h.parked, hkept.states ▸ h.driven, h.block, h.final, h.notTaken⟩

/-- A block that drives no call is refused. -/
theorem poll_of_free (hr : HRESULT) (s : TaskQueues Callback) (h : m.stateOf b = none) (p : Poll) :
    ∃ value ∈ p.call.illegal, m.poll hr s b p = some (m.record (.returned value)) := by
  unfold Memory.poll Poll.code
  rw [h]
  cases p with
  | getStatus wait => exact ⟨_, List.mem_singleton_self _, rfl⟩
  | getResultSize out => exact ⟨_, List.mem_singleton_self _, rfl⟩
  | getResult identity bufferSize => exact ⟨_, List.mem_singleton_self _, rfl⟩

/-- A call that only answers. -/
theorem Complete.kept (hr : HRESULT) (s : TaskQueues Callback) (h : Complete m b i state) (p : Poll)
    (value : Return) (hp : callStep m i state p.call = some { mem := m, run := [.frame (.ret value)] }) :
    ∃ m', m.poll hr s b p = some m' ∧ Kept m value m' := by
  unfold Memory.poll
  rw [h.code]
  refine Ends.step (n := 11) (l := [.ret value])
    (r := { mem := m, run := [.frame (.ret value)] }) ?_ rfl
    (Ends.ret (n := 10) ⟨rfl, rfl, rfl, rfl⟩)
  simpa [Memory.step, h.driven] using hp

/-- A call that cleans up before it answers. -/
theorem Complete.taken (s : TaskQueues Callback) (h : Complete m b i state)
    (hv : m.delivers hr state.provider = some v) (p : Poll) (value : Return) (hp : callStep m i state p.call =
      some { mem := m, run := [.frame (.cleanup i), .frame (.ret value)] }) :
    ∃ m', m.poll hr s b p = some m' ∧ Taken b value m' := by
  have hb := h.ne_zero
  unfold Memory.poll
  rw [h.code]
  refine Ends.step (n := 11) (l := [.cleanup i, .ret value])
    (r := { mem := m, run := [.frame (.cleanup i), .frame (.ret value)] }) ?_ rfl
    (Ends.clean (n := 6) h.driven h.notTaken (h.block ▸ hb) hv fun m' hfree =>
      Ends.ret (n := 5) ⟨rfl, h.block ▸ hfree⟩)
  simpa [Memory.step, h.driven] using hp

/-- Too small a buffer is refused, and nothing else happens. -/
theorem getResult_small (hr : HRESULT) (s : TaskQueues Callback) (h : Complete m b i state)
    (hok : state.status = S_OK) {identity bufferSize : ℕ} (hid : identity = 0 ∨ identity = state.identity)
    (hsize : bufferSize < state.resultSize) :
    ∃ m', m.poll hr s b (.getResult identity bufferSize) = some m' ∧
      Kept m (.getResultRefused (some i) E_NOT_SUFFICIENT_BUFFER) m' := by
  have hsame : ¬ (identity ≠ 0 ∧ identity ≠ state.identity) := by
    rintro ⟨hne, hne'⟩
    exact hid.elim hne hne'
  refine h.kept hr s _ _ ?_
  simp only [Poll.call, callStep, if_neg h.final, if_neg (not_not.mpr hok), if_neg hsame,
    if_pos hsize]

/-- With room for it the result is handed out, and the call is over. -/
theorem getResult_fits (s : TaskQueues Callback) (h : Complete m b i state)
    (hok : state.status = S_OK) (hv : m.delivers hr state.provider = some v) {identity bufferSize : ℕ}
    (hid : identity = 0 ∨ identity = state.identity) (hsize : state.resultSize ≤ bufferSize) :
    ∃ m', m.poll hr s b (.getResult identity bufferSize) = some m' ∧
      Taken b (.getResult i v.1 v.2) m' := by
  have hsame : ¬ (identity ≠ 0 ∧ identity ≠ state.identity) := by
    rintro ⟨hne, hne'⟩
    exact hid.elim hne hne'
  have hlt : i < m.states.length := (List.getElem?_eq_some_iff.mp h.driven).1
  let delivering := m.setState i { state with delivering := true }
  have hdriven : delivering.states[i]? = some { state with delivering := true } := by
    simp [delivering, hlt]
  have hb := h.ne_zero
  have hblock := h.block
  unfold Memory.poll
  rw [h.code]
  refine Ends.step (n := 11) (l := [.invoke i .getResult])
    (r := { mem := delivering, run := [.frame (.invoke i .getResult)] }) ?_ rfl ?_
  · have hcall : callStep m i state (.getResult identity bufferSize) =
        some { mem := delivering, run := [.frame (.invoke i .getResult)] } := by
      simp only [callStep, if_neg h.final, if_neg (not_not.mpr hok), if_neg hsame,
        if_neg (Nat.not_lt.mpr hsize)]
      rfl
    simpa [Memory.step, h.driven, Poll.call] using hcall
  · refine Ends.getResult (n := 8) hdriven (v := v) hv fun m' hblocks hstates hhelpers => ?_
    have hdriven' : m'.states[i]? = some { state with delivering := true } := by
      rw [hstates, hdriven]
    have hv' : m'.delivers hr state.provider = some v := by
      unfold Memory.delivers at hv ⊢
      rwa [hhelpers]
    refine Ends.step (n := 7) (l := [.cleanup i, .ret (.getResult i v.1 v.2)])
      (r := { mem := m', run := [.frame (.cleanup i), .frame (.ret (.getResult i v.1 v.2))] })
      ?_ rfl (Ends.clean (n := 2) hdriven' h.notTaken (hblock ▸ hb) hv' fun m'' hfree =>
        Ends.ret (n := 1) ⟨rfl, hblock ▸ hfree⟩)
    simp [Memory.step, hdriven', afterOp]

end Polls

/-- Block 1 drives a call of `run_sync` that has ended, with a payload of some size. -/
def finished (size : ℕ) : Memory where
  blocks := Function.update (fun _ => {}) 1 { internal := some 0 }
  states := [{ provider := .runSync 0, identity := 0, queue := 0, block := 1, status := S_OK,
               resultSize := size }]
  helpers := [{ size := size, result := S_OK, payload := some 0 }]

theorem complete_finished (size : ℕ) : ∃ state, Complete (finished size) 1 0 state ∧
    state.status = S_OK ∧ state.resultSize = size ∧
    (finished size).delivers S_OK state.provider = some (S_OK, some 0) :=
  ⟨_, ⟨rfl, rfl, rfl, (by decide : S_OK ≠ E_PENDING), rfl⟩, rfl, rfl, rfl⟩

end XGameRuntime.XAsync
