import XGameRuntime.XAsync.Polling

/-! # Looking at a call

`XAsyncGetStatus` cleans up a call without a result as soon as its status is known. What that
changes for whoever looks at the call later.
-/

namespace XGameRuntime.XAsync
open TaskQueue
set_option autoImplicit false

/-! ## What a poll returns -/

/-- What a poll of a complete call returns; `hr` is what `GetResult` of its provider returns. -/
def AsyncState.outcome (state : AsyncState) (hr : HRESULT) : Poll → HRESULT
  | .getStatus _ => state.status
  | .getResultSize out => if out then state.status else E_POINTER
  | .getResult identity bufferSize =>
      if state.status ≠ S_OK then state.status
      else if identity ≠ 0 ∧ identity ≠ state.identity then E_INVALIDARG
      else if bufferSize < state.resultSize then E_NOT_SUFFICIENT_BUFFER
      else hr

/-- The poll takes the call out of its block. -/
def AsyncState.takenBy (state : AsyncState) : Poll → Bool
  | .getStatus _ => decide (state.resultSize = 0)
  | .getResultSize _ => false
  | .getResult identity bufferSize =>
      decide (state.status ≠ S_OK ∨
        (¬ (identity ≠ 0 ∧ identity ≠ state.identity) ∧ state.resultSize ≤ bufferSize))

/-- What a poll of a block without a call returns. -/
def Poll.refusal : Poll → HRESULT
  | .getResultSize false => E_POINTER
  | _ => E_ILLEGAL_METHOD_CALL

/-- A call as its pollers see it: `none` once it has been taken. -/
abbrev View := Option AsyncState

def View.outcome (hr : HRESULT) (p : Poll) : View → HRESULT
  | none => p.refusal
  | some state => state.outcome hr p

def View.next (p : Poll) : View → View
  | none => none
  | some state => if state.takenBy p then none else some state

/-! ## Runs -/

/-- A poll whose answer counts, or one more `XAsyncGetStatus`. -/
inductive Probe where
  | poll (p : Poll)
  | extra (wait : Bool)
  deriving DecidableEq, Repr

def Probe.made : Probe → Poll
  | .poll p => p
  | .extra wait => .getStatus wait

def Probe.counted : Probe → Option Poll
  | .poll p => some p
  | .extra _ => none

/-- What a thread that probes the call is told by the polls that count. -/
def Memory.observe (hr : HRESULT) (s : TaskQueues Callback) (b : ℕ) :
    Memory → List Probe → Option (List HRESULT)
  | _, [] => some []
  | m, q :: probes => do
      let m' ← m.poll hr s b q.made
      let value ← m'.answer
      let rest ← observe hr s b m' probes
      some (if q.counted.isSome then value.hresult :: rest else rest)

def View.observe (hr : HRESULT) : View → List Probe → List HRESULT
  | _, [] => []
  | view, q :: probes =>
      if q.counted.isSome then view.outcome hr q.made :: observe hr (view.next q.made) probes
      else observe hr (view.next q.made) probes

theorem next_cases (state : AsyncState) (p : Poll) :
    (state.takenBy p = true ∧ View.next p (some state) = none) ∨
      (state.takenBy p = false ∧ View.next p (some state) = some state) := by
  cases htaken : state.takenBy p with
  | true => exact .inl ⟨rfl, if_pos htaken⟩
  | false => exact .inr ⟨rfl, if_neg (htaken ▸ Bool.false_ne_true)⟩

section Runs
variable {hr : HRESULT} {s : TaskQueues Callback} {m : Memory} {b : ℕ} {v : HRESULT × Option ℕ}

/-- The memory is as the view says. -/
def Shows (hr : HRESULT) (v : HRESULT × Option ℕ) (b : ℕ) (m : Memory) : View → Prop
  | none => m.stateOf b = none
  | some state => ∃ i, Complete m b i state ∧ m.delivers hr state.provider = some v

theorem shows_of_kept {m' : Memory} {state : AsyncState} {value : Return}
    (h : Shows hr v b m (some state)) (hkept : Kept m value m') : Shows hr v b m' (some state) := by
  obtain ⟨i, hcomplete, hv⟩ := h
  refine ⟨i, hcomplete.of_kept hkept, ?_⟩
  unfold Memory.delivers at hv ⊢
  rwa [hkept.helpers]

/-- A poll that leaves the call in its block. -/
theorem shows_kept {state : AsyncState} {p : Poll} {value : Return} {m' : Memory}
    (h : Shows hr v b m (some state)) (hpoll : m.poll hr s b p = some m') (hkept : Kept m value m')
    (hvalue : value.hresult = state.outcome v.1 p) (htaken : state.takenBy p = false) :
    ∃ m' value, m.poll hr s b p = some m' ∧ m'.answer = some value ∧
      value.hresult = state.outcome v.1 p ∧
      Shows hr v b m' (if state.takenBy p then none else some state) := by
  refine ⟨m', value, hpoll, hkept.answer, hvalue, ?_⟩
  rw [htaken]
  exact shows_of_kept h hkept

/-- A poll that takes it out. -/
theorem shows_taken {state : AsyncState} {p : Poll} {value : Return} {m' : Memory}
    (hpoll : m.poll hr s b p = some m') (hfree : Taken b value m')
    (hvalue : value.hresult = state.outcome v.1 p) (htaken : state.takenBy p = true) :
    ∃ m' value, m.poll hr s b p = some m' ∧ m'.answer = some value ∧
      value.hresult = state.outcome v.1 p ∧
      Shows hr v b m' (if state.takenBy p then none else some state) := by
  refine ⟨m', value, hpoll, hfree.answer, hvalue, ?_⟩
  rw [htaken]
  exact hfree.free

theorem shows_getResult {i : ℕ} {state : AsyncState} (h : Complete m b i state)
    (hv : m.delivers hr state.provider = some v) (identity bufferSize : ℕ) :
    ∃ m' value, m.poll hr s b (.getResult identity bufferSize) = some m' ∧
      m'.answer = some value ∧ value.hresult = state.outcome v.1 (.getResult identity bufferSize) ∧
      Shows hr v b m' (if state.takenBy (.getResult identity bufferSize) then none else some state) := by
  have hshows : Shows hr v b m (some state) := ⟨i, h, hv⟩
  by_cases hok : state.status = S_OK
  · by_cases hid : identity ≠ 0 ∧ identity ≠ state.identity
    · obtain ⟨m', hpoll, hkept⟩ := h.kept hr s (.getResult identity bufferSize)
        (.getResultRefused (some i) E_INVALIDARG) (by
          simp only [Poll.call, callStep, if_neg h.final, if_neg (not_not.mpr hok), if_pos hid])
      refine shows_kept hshows hpoll hkept ?_ ?_
      · simp only [Return.hresult, AsyncState.outcome, if_neg (not_not.mpr hok), if_pos hid]
      · refine decide_eq_false ?_
        rintro (hne | ⟨hnot, -⟩)
        · exact hne hok
        · exact hnot hid
    · have hsame : identity = 0 ∨ identity = state.identity := by
        by_contra hn
        exact hid (not_or.mp hn)
      by_cases hsize : bufferSize < state.resultSize
      · obtain ⟨m', hpoll, hkept⟩ := getResult_small hr s h hok hsame hsize
        refine shows_kept hshows hpoll hkept ?_ ?_
        · simp only [Return.hresult, AsyncState.outcome, if_neg (not_not.mpr hok), if_neg hid,
            if_pos hsize]
        · simp only [AsyncState.takenBy, hok, Nat.not_le.mpr hsize]
          simp
      · obtain ⟨m', hpoll, htaken⟩ := getResult_fits s h hok hv hsame
          (Nat.not_lt.mp hsize)
        refine shows_taken hpoll htaken ?_ ?_
        · simp only [Return.hresult, AsyncState.outcome, if_neg (not_not.mpr hok), if_neg hid,
            if_neg hsize]
        · simp only [AsyncState.takenBy]
          exact decide_eq_true (.inr ⟨hid, Nat.not_lt.mp hsize⟩)
  · obtain ⟨m', hpoll, htaken⟩ := h.taken s hv (.getResult identity bufferSize)
      (.getResult i state.status none) (by
        simp only [Poll.call, callStep, if_neg h.final, if_pos hok])
    refine shows_taken hpoll htaken ?_ ?_
    · simp only [Return.hresult, AsyncState.outcome, if_pos hok]
    · simp only [AsyncState.takenBy]
      exact decide_eq_true (.inl hok)

theorem poll_shows {view : View} (h : Shows hr v b m view) (p : Poll) :
    ∃ m' value, m.poll hr s b p = some m' ∧ m'.answer = some value ∧
      value.hresult = view.outcome v.1 p ∧ Shows hr v b m' (view.next p) := by
  cases view with
  | none =>
    obtain ⟨value, hvalue, hpoll⟩ := poll_of_free hr s h p
    refine ⟨_, value, hpoll, rfl, ?_, h⟩
    cases p with
    | getStatus wait => rw [List.mem_singleton.mp hvalue]; rfl
    | getResultSize out => rw [List.mem_singleton.mp hvalue]; cases out <;> rfl
    | getResult identity bufferSize => rw [List.mem_singleton.mp hvalue]; rfl
  | some state =>
    obtain ⟨i, hcomplete, hv⟩ := id h
    cases p with
    | getStatus wait =>
      by_cases hsize : state.resultSize = 0
      · obtain ⟨m', hpoll, htaken⟩ := hcomplete.taken s hv (.getStatus wait)
          (.getStatus (some i) state.status) (by
            simp only [Poll.call, callStep, if_neg hcomplete.final, if_pos hsize])
        exact shows_taken hpoll htaken rfl (decide_eq_true hsize)
      · obtain ⟨m', hpoll, hkept⟩ := hcomplete.kept hr s (.getStatus wait)
          (.getStatus (some i) state.status) (by
            simp only [Poll.call, callStep, if_neg hcomplete.final, if_neg hsize])
        exact shows_kept h hpoll hkept rfl (decide_eq_false hsize)
    | getResultSize out =>
      cases out with
      | false =>
        obtain ⟨m', hpoll, hkept⟩ := hcomplete.kept hr s (.getResultSize false)
          (.getResultSize none E_POINTER 0) rfl
        exact shows_kept h hpoll hkept rfl rfl
      | true =>
        obtain ⟨m', hpoll, hkept⟩ := hcomplete.kept hr s (.getResultSize true)
          (.getResultSize (some i) state.status state.resultSize) (by
            simp only [Poll.call, callStep, if_neg hcomplete.final]
            rfl)
        exact shows_kept h hpoll hkept rfl rfl
    | getResult identity bufferSize => exact shows_getResult hcomplete hv identity bufferSize

/-- Every run of probes ends, with the answers that the view gives. -/
theorem observe_shows {view : View} (h : Shows hr v b m view) (probes : List Probe) :
    m.observe hr s b probes = some (view.observe v.1 probes) := by
  induction probes generalizing m view with
  | nil => rfl
  | cons q probes ih =>
    obtain ⟨m', value, hpoll, hanswer, hvalue, hnext⟩ := poll_shows (s := s) h q.made
    rw [Memory.observe, hpoll]
    simp only [Option.bind_eq_bind, Option.bind_some, hanswer, ih hnext, hvalue, View.observe]

end Runs

/-! ## Extra polls -/

section Extra
variable {hr : HRESULT} {state : AsyncState} {view : View}

/-- With nothing to take, or an outcome that a free block has, too, an extra poll changes no
answer. -/
def AsyncState.Steady (state : AsyncState) : Prop :=
  state.resultSize ≠ 0 ∨ state.status = E_ILLEGAL_METHOD_CALL

theorem observe_taken (hstatus : state.status = E_ILLEGAL_METHOD_CALL) (probes : List Probe) :
    View.observe hr (some state) probes = View.observe hr none probes := by
  have hbad : ¬ E_ILLEGAL_METHOD_CALL = S_OK := by decide
  have houtcome : ∀ p, state.outcome hr p = p.refusal := by
    intro p
    cases p with
    | getStatus wait => exact hstatus
    | getResultSize out => cases out <;> simp [AsyncState.outcome, Poll.refusal, hstatus]
    | getResult identity bufferSize => simp [AsyncState.outcome, Poll.refusal, hstatus, hbad]
  induction probes with
  | nil => rfl
  | cons q probes ih =>
    have hrest : View.observe hr (View.next q.made (some state)) probes =
        View.observe hr none probes := by
      rcases next_cases state q.made with ⟨-, hnext⟩ | ⟨-, hnext⟩
      · rw [hnext]
      · rw [hnext, ih]
    rw [View.observe, View.observe, hrest]
    simp only [View.outcome, houtcome]
    rfl

/-- What the polls that count return when no other is made. -/
def View.answers (hr : HRESULT) (view : View) (probes : List Probe) : List HRESULT :=
  view.observe hr ((probes.filterMap Probe.counted).map Probe.poll)

theorem observe_none (probes : List Probe) :
    View.observe hr none probes = View.answers hr none probes := by
  unfold View.answers
  induction probes with
  | nil => rfl
  | cons q probes ih =>
    cases q with
    | poll p => exact congrArg (p.refusal :: ·) ih
    | extra wait => exact ih

theorem observe_steady (h : state.Steady) (probes : List Probe) :
    View.observe hr (some state) probes = View.answers hr (some state) probes := by
  rcases h with hsize | hstatus
  · induction probes with
    | nil => rfl
    | cons q probes ih =>
      cases q with
      | poll p =>
        refine congrArg (state.outcome hr p :: ·) ?_
        rcases next_cases state p with ⟨-, hnext⟩ | ⟨-, hnext⟩
        · simp only [Probe.made, hnext]
          exact observe_none probes
        · simp only [Probe.made, hnext]
          exact ih
      | extra wait =>
        rcases next_cases state (.getStatus wait) with ⟨htaken, -⟩ | ⟨-, hnext⟩
        · exact absurd (of_decide_eq_true htaken) hsize
        · have hskip : View.observe hr (some state) (.extra wait :: probes) =
              View.observe hr (View.next (.getStatus wait) (some state)) probes := rfl
          rw [hskip, hnext]
          exact ih
  · unfold View.answers
    rw [observe_taken hstatus, observe_taken hstatus]
    exact observe_none probes

end Extra

/-- Two probes of a complete call with the same polls that count are told the same, however many
other polls of the status they make, just when the call has a result or its status is that of a
block without a call. -/
theorem status_observational_iff (hr : HRESULT) (s : TaskQueues Callback) (m : Memory) (b i : ℕ)
    (state : AsyncState) (v : HRESULT × Option ℕ) (h : Complete m b i state)
    (hv : m.delivers hr state.provider = some v) :
    (∀ probes probes', probes.filterMap Probe.counted = probes'.filterMap Probe.counted →
      m.observe hr s b probes = m.observe hr s b probes') ↔
    state.resultSize ≠ 0 ∨ state.status = E_ILLEGAL_METHOD_CALL := by
  have hshows : Shows hr v b m (some state) := ⟨i, h, hv⟩
  have hobserve : ∀ probes, m.observe hr s b probes = some (View.observe v.1 (some state) probes) :=
    fun probes => observe_shows hshows probes
  constructor
  · intro hsame
    by_contra hnot
    rw [not_or, not_not] at hnot
    have hextra := hsame [.poll (.getStatus false)] [.extra false, .poll (.getStatus false)] rfl
    rw [hobserve, hobserve] at hextra
    have htaken : View.next (.getStatus false) (some state) = none := by
      simp [View.next, AsyncState.takenBy, hnot.1]
    simp only [View.observe, Probe.made, Probe.counted, htaken] at hextra
    exact hnot.2 (List.head_eq_of_cons_eq (Option.some.inj hextra))
  · intro hsteady probes probes' hcounted
    rw [hobserve, hobserve, observe_steady hsteady, observe_steady hsteady, View.answers,
      View.answers, hcounted]

theorem status_observational_iff_finished :
    (finished 8).observe S_OK { pool := 2 } 1 [.extra false, .poll (.getResult 0 8)] =
      (finished 8).observe S_OK { pool := 2 } 1 [.poll (.getResult 0 8)] := by
  obtain ⟨state, hcomplete, -, hsize, hout⟩ := complete_finished 8
  refine (status_observational_iff S_OK { pool := 2 } (finished 8) 1 0 state _ hcomplete hout).mpr
    (.inl ?_) _ _ rfl
  rw [hsize]
  decide

/-- A call of `run_sync` without a result, asked for its status, has none left for
`get_result::<()>`. -/
theorem status_takes_empty_result :
    ¬ ∀ (hr : HRESULT) (s : TaskQueues Callback) (m : Memory) (b i : ℕ) (state : AsyncState)
      (v : HRESULT × Option ℕ), Complete m b i state → m.delivers hr state.provider = some v →
      ∀ probes probes', probes.filterMap Probe.counted = probes'.filterMap Probe.counted →
        m.observe hr s b probes = m.observe hr s b probes' := by
  intro h
  obtain ⟨state, hcomplete, -, -, hout⟩ := complete_finished 0
  have hsame := h S_OK { pool := 2 } (finished 0) 1 0 state _ hcomplete hout
    [.extra false, .poll (.getResult 0 0)] [.poll (.getResult 0 0)] rfl
  revert hsame
  decide

end XGameRuntime.XAsync
