import XGameRuntime.XAsync.Engine

/-! # What a step of the engine can do

One constructor for each way a section of the engine can go, with the conditions under which it
does.
-/

namespace XGameRuntime.XAsync
open Concurrency TaskQueue
set_option autoImplicit false

variable {m : Memory} {s : TaskQueues Callback}

/-- The ways of `AsyncState::invoke`. -/
inductive Invokes (m : Memory) (i : ℕ) (state : AsyncState) : XAsyncOp → EngineStep → Prop where
  | game {op : XAsyncOp} (hp : state.provider = .game) : Invokes m i state op
      { mem := m.record (.invoked i op), run := [.frame .game, .frame (.opReturn i op)] }
  | runLost (hp : state.provider = .run) (hn : m.stateOf state.block = none) :
      Invokes m i state .begin
        { mem := m.record (.invoked i .begin)
          run := [.frame (.afterOp i .begin E_ILLEGAL_METHOD_CALL none)] }
  | runBegin {j q : ℕ} (hp : state.provider = .run) (hj : m.stateOf state.block = some j) :
      Invokes m i state .begin
        { mem := m.record (.invoked i .begin)
          run := [.submit ⟨q, .work, 0, .work j, [.afterOp i .begin S_OK none],
            [.afterOp i .begin E_ABORT none]⟩] }
  | runDoWork (hp : state.provider = .run) : Invokes m i state .doWork
      { mem := m.record (.invoked i .doWork), run := [.frame .game, .frame (.opReturn i .doWork)] }
  | runOther {op : XAsyncOp} (hp : state.provider = .run) (hb : op ≠ .begin) (hw : op ≠ .doWork) :
      Invokes m i state op
        { mem := m.record (.invoked i op), run := [.frame (.afterOp i op S_OK none)] }
  | runSyncBegin {h q : ℕ} {helper : XsyncContextHelper} {admin : List Admin}
      (hp : state.provider = .runSync h) (hh : m.helpers[h]? = some helper) :
      Invokes m i state .begin
        { mem := { (m.record (.invoked i .begin)).record (.touched h) with runSyncQueue := some q }
          admin := admin
          run := [.submit (runSyncSubmission i h state.block q)] }
  | runSyncDoWork {h : ℕ} {helper : XsyncContextHelper}
      (hp : state.provider = .runSync h) (hh : m.helpers[h]? = some helper) :
      Invokes m i state .doWork
        { mem := (m.record (.invoked i .doWork)).record (.touched h)
          run := [.frame (.afterOp i .doWork S_OK none)] }
  | runSyncGetResult {h : ℕ} {helper : XsyncContextHelper}
      (hp : state.provider = .runSync h) (hh : m.helpers[h]? = some helper) :
      Invokes m i state .getResult
        { mem := (m.record (.invoked i .getResult)).record (.touched h)
          run := [.frame (.afterOp i .getResult S_OK
            (if helper.result = S_OK then helper.payload else none))] }
  | runSyncCancel {h : ℕ} {helper : XsyncContextHelper}
      (hp : state.provider = .runSync h) (hh : m.helpers[h]? = some helper) :
      Invokes m i state .cancel
        { mem := ((m.record (.invoked i .cancel)).record (.touched h)).setHelper h
            { helper with canceled := true }
          run := [.frame (.afterOp i .cancel S_OK none)] }
  | runSyncCleanup {h : ℕ} {helper : XsyncContextHelper}
      (hp : state.provider = .runSync h) (hh : m.helpers[h]? = some helper) :
      Invokes m i state .cleanup
        { mem := ((m.record (.invoked i .cleanup)).record (.released h)).setHelper h
            { helper with payload := none }
          run := [.frame (.afterOp i .cleanup S_OK none)] }

/-- The ways of `XAsyncBegin` on a block. -/
inductive Begins (m : Memory) (s : TaskQueues Callback) (b identity : ℕ) (provider : Provider) :
    EngineStep → Prop where
  | rejected {hr : HRESULT} (hc : b = 0 ∧ hr = E_POINTER ∨
      b ≠ 0 ∧ (∃ i, m.stateOf b = some i) ∧ hr = E_INVALIDARG) :
      Begins m s b identity provider { mem := m.beginReturned b none provider hr }
  | unrouted {route : Route} {hr : HRESULT} (hb : b ≠ 0) (hn : m.stateOf b = none)
      (hroute : queueFor s (m.blocks b).queue = some route) (hq : route.queue = .error hr) :
      Begins m s b identity provider
        { mem := (m.setBlock b { m.blocks b with queue := route.field }).beginReturned b none
            provider hr
          admin := route.admin }
  | parked {route : Route} {q : ℕ} {routed : Memory} {state : AsyncState} (hb : b ≠ 0)
      (hn : m.stateOf b = none)
      (hroute : queueFor s (m.blocks b).queue = some route) (hq : route.queue = .ok q)
      (hm : routed = m.setBlock b { m.blocks b with queue := route.field })
      (hstate : state =
        { provider := provider, identity := identity, queue := q, block := b }) :
      Begins m s b identity provider
        { mem := routed.park state, admin := route.admin
          run := [.frame (.invoke m.states.length .begin)] }

inductive Steps (m : Memory) (s : TaskQueues Callback) : Code → Choice → EngineStep → Prop where
  -- code of the game
  | setBlock {b queue : ℕ} {callback : Option ℕ} :
      Steps m s .game (.setBlock b queue callback)
        { mem := m.setBlock b { m.blocks b with queue := queue, callback := callback }
          run := [.frame .game] }
  | queue {c : QueueCall ℕ Unit} {reply : Reply Callback Code}
      (hr : reply = gameCall s c) :
      Steps m s .game (.queue c)
        { mem := m, admin := reply.admin, run := reply.run ++ [.frame .game]
          spawn := reply.spawn }
  | processQueue {x : Choice} :
      Steps m s .processQueue x
        { mem := m
          admin := [.defaultProcessQueue, .createQueueHandle (s.processQueue.getD s.queues.length)] }
  | nullProvider {choice : Choice} {b : ℕ}
      (hc : (∃ identity, choice = .begin b identity false) ∨ choice = .run b false) :
      Steps m s .game choice
        { mem := m.record (.returned (.begin b none E_POINTER)), run := [.frame .game] }
  | begin {b identity : ℕ} {r : EngineStep} (h : Begins m s b identity .game r) :
      Steps m s .game (.begin b identity true) (resume r)
  | run {b : ℕ} {r : EngineStep} (h : Begins m s b 0 .run r) :
      Steps m s .game (.run b true) (resume r)
  | runSync {b size : ℕ} {r : EngineStep} (hb : b ≠ 0)
      (h : Begins (m.newHelper size) s b 0 (.runSync m.helpers.length) r) :
      Steps m s .game (.runSync b size) (resume r)
  | runSyncNull {size : ℕ} :
      Steps m s .game (.runSync 0 size) { mem := m, run := [.frame .game] }
  | unresolved {b : ℕ} {c : XAsyncCall} (hb : m.stateOf b = none) :
      Steps m s .game (.xasync b c)
        { mem := m, run := c.illegal.map (.frame ∘ .ret) ++ [.frame .game] }
  | resolved {b i : ℕ} {c : XAsyncCall} (hb : m.stateOf b = some i) :
      Steps m s .game (.xasync b c) { mem := m, run := [.frame (.call i c), .frame .game] }
  | thread : Steps m s .game .thread
      { mem := m, run := [.frame .game], spawn := [[.frame .game]] }
  | finish : Steps m s .game .finish { mem := m }
  | ret {value : Return} {x : Choice} :
      Steps m s (.ret value) x { mem := m.record (.returned value) }
  -- calls
  | schedule {i delayInMs : ℕ} {state : AsyncState} {x : Choice}
      (hs : m.states[i]? = some state) :
      Steps m s (.call i (.schedule delayInMs)) x
        { mem := m, run := [.submit ⟨state.queue, .work, delayInMs, .work i,
          [.ret (.schedule (some i) S_OK)],
          [.call i (.complete E_ABORT 0), .ret (.schedule (some i) E_ABORT)]⟩] }
  | complete {i size : ℕ} {result : HRESULT} {state : AsyncState} {x : Choice}
      (hs : m.states[i]? = some state) (hp : state.status = E_PENDING) :
      Steps m s (.call i (.complete result size)) x
        { mem := m.setState i { state with status := result, resultSize := size }
          run := [.frame (.announce i result)] }
  | completeLate {i size : ℕ} {result : HRESULT} {state : AsyncState} {x : Choice}
      (hs : m.states[i]? = some state) (hp : state.status ≠ E_PENDING) :
      Steps m s (.call i (.complete result size)) x { mem := m }
  | getStatus {i : ℕ} {wait : Bool} {state : AsyncState} {x : Choice}
      (hs : m.states[i]? = some state)
      (hk : state.status = E_PENDING ∧ wait = false ∨ state.status ≠ E_PENDING ∧ state.resultSize ≠ 0) :
      Steps m s (.call i (.getStatus wait)) x
        { mem := m, run := [.frame (.ret (.getStatus (some i) state.status))] }
  | getStatusCleanup {i : ℕ} {wait : Bool} {state : AsyncState} {x : Choice}
      (hs : m.states[i]? = some state) (hp : state.status ≠ E_PENDING)
      (hz : state.resultSize = 0) :
      Steps m s (.call i (.getStatus wait)) x
        { mem := m
          run := [.frame (.cleanup i), .frame (.ret (.getStatus (some i) state.status))] }
  | getResultSizeNull {i : ℕ} {state : AsyncState} {x : Choice} (hs : m.states[i]? = some state) :
      Steps m s (.call i (.getResultSize false)) x
        { mem := m, run := [.frame (.ret (.getResultSize none E_POINTER 0))] }
  | getResultSize {i size : ℕ} {state : AsyncState} {x : Choice}
      (hs : m.states[i]? = some state) :
      Steps m s (.call i (.getResultSize true)) x
        { mem := m, run := [.frame (.ret (.getResultSize (some i) state.status size))] }
  | getResultRefused {i identity bufferSize : ℕ} {hr : HRESULT} {state : AsyncState} {x : Choice}
      (hs : m.states[i]? = some state)
      (hk : state.status = E_PENDING ∧ hr = E_PENDING ∨ state.status = S_OK) :
      Steps m s (.call i (.getResult identity bufferSize)) x
        { mem := m, run := [.frame (.ret (.getResultRefused (some i) hr))] }
  | getResultFailed {i identity bufferSize : ℕ} {state : AsyncState} {x : Choice}
      (hs : m.states[i]? = some state) (hp : state.status ≠ E_PENDING)
      (ho : state.status ≠ S_OK) :
      Steps m s (.call i (.getResult identity bufferSize)) x
        { mem := m, run := [.frame (.cleanup i), .frame (.ret (.getResult i state.status none))] }
  | getResult {i identity bufferSize : ℕ} {state : AsyncState} {x : Choice}
      (hs : m.states[i]? = some state) (ho : state.status = S_OK)
      (hid : identity = 0 ∨ identity = state.identity) (hb : state.resultSize ≤ bufferSize) :
      Steps m s (.call i (.getResult identity bufferSize)) x
        { mem := m.setState i { state with delivering := true }
          run := [.frame (.invoke i .getResult)] }
  | cancelIgnored {i : ℕ} {state : AsyncState} {x : Choice} (hs : m.states[i]? = some state)
      (hk : state.status ≠ E_PENDING ∨ state.canceled = true) :
      Steps m s (.call i .cancel) x { mem := m }
  | cancel {i : ℕ} {state : AsyncState} {x : Choice} (hs : m.states[i]? = some state)
      (hp : state.status = E_PENDING) (hk : state.canceled = false) :
      Steps m s (.call i .cancel) x
        { mem := m.setState i { state with canceled := true }
          run := [.frame (.invoke i .cancel)] }
  -- operations of the provider
  | invoke {i : ℕ} {op : XAsyncOp} {state : AsyncState} {r : EngineStep} {x : Choice}
      (hs : m.states[i]? = some state) (hi : Invokes m i state op r) :
      Steps m s (.invoke i op) x r
  | opReturn {i : ℕ} {op : XAsyncOp} {hr : HRESULT} :
      Steps m s (.opReturn i op) (.returns hr)
        { mem := m, run := [.frame (.afterOp i op hr none)] }
  | begun {i : ℕ} {out : Option ℕ} {state : AsyncState} {x : Choice}
      (hs : m.states[i]? = some state) :
      Steps m s (.afterOp i .begin S_OK out) x
        { mem := m.record (.returned (.begin state.block (some i) S_OK)) }
  | beginFailed {i : ℕ} {hr : HRESULT} {out : Option ℕ} {state : AsyncState} {x : Choice}
      (hs : m.states[i]? = some state) (ho : hr ≠ S_OK) :
      Steps m s (.afterOp i .begin hr out) x
        { mem := m.setState i { state with status := hr }
          run := [.frame (.cleanup i), .frame (.beginReturn i hr)] }
  | didWork {i : ℕ} {hr : HRESULT} {out : Option ℕ} {state : AsyncState} {x : Choice}
      (hs : m.states[i]? = some state) (hp : hr ≠ E_PENDING) (hk : state.status = E_PENDING) :
      Steps m s (.afterOp i .doWork hr out) x
        { mem := m.setState i { state with status := hr, resultSize := 0 }
          run := [.frame (.announce i hr)] }
  | didWorkLate {i : ℕ} {hr : HRESULT} {out : Option ℕ} {state : AsyncState} {x : Choice}
      (hs : m.states[i]? = some state) (hp : hr = E_PENDING ∨ state.status ≠ E_PENDING) :
      Steps m s (.afterOp i .doWork hr out) x { mem := m }
  | gotResult {i : ℕ} {hr : HRESULT} {out : Option ℕ} {state : AsyncState} {x : Choice}
      (hs : m.states[i]? = some state) :
      Steps m s (.afterOp i .getResult hr out) x
        { mem := m, run := [.frame (.cleanup i), .frame (.ret (.getResult i hr out))] }
  | canceled {i : ℕ} {hr : HRESULT} {out : Option ℕ} {state : AsyncState} {x : Choice}
      (hs : m.states[i]? = some state) (hp : state.status = E_PENDING) :
      Steps m s (.afterOp i .cancel hr out) x
        { mem := m, run := [.submit ⟨state.queue, .work, 0, .work i, [],
          [.call i (.complete E_ABORT 0)]⟩] }
  | canceledLate {i : ℕ} {hr : HRESULT} {out : Option ℕ} {state : AsyncState} {x : Choice}
      (hs : m.states[i]? = some state) (hp : state.status ≠ E_PENDING) :
      Steps m s (.afterOp i .cancel hr out) x { mem := m }
  | cleanedUp {i : ℕ} {hr : HRESULT} {out : Option ℕ} {state : AsyncState} {x : Choice}
      (hs : m.states[i]? = some state) :
      Steps m s (.afterOp i .cleanup hr out) x { mem := m.takeState state.block }
  -- the rest of the engine
  | unheard {i : ℕ} {result : HRESULT} {state : AsyncState} {x : Choice}
      (hs : m.states[i]? = some state) (hc : (m.blocks state.block).callback = none) :
      Steps m s (.announce i result) x { mem := m }
  | announce {i callback : ℕ} {result : HRESULT} {state : AsyncState} {x : Choice}
      (hs : m.states[i]? = some state) (hc : (m.blocks state.block).callback = some callback) :
      Steps m s (.announce i result) x
        { mem := m.record (.announced i state.status)
          run := [.submit ⟨state.queue, .completion, 0, .completion i callback, [],
            [.completionCallback i callback]⟩] }
  | completionCallback {i callback : ℕ} {state : AsyncState} {x : Choice}
      (hs : m.states[i]? = some state) :
      Steps m s (.completionCallback i callback) x
        { mem := m.record (.routine i state.block callback), run := [.frame .game] }
  | cleanup {i : ℕ} {state : AsyncState} {x : Choice} (hs : m.states[i]? = some state)
      (hc : state.cleanedUp = false) :
      Steps m s (.cleanup i) x
        { mem := m.setState i { state with cleanedUp := true }
          run := [.frame (.invoke i .cleanup)] }
  | cleanupAgain {i : ℕ} {state : AsyncState} {x : Choice} (hs : m.states[i]? = some state)
      (hc : state.cleanedUp = true) : Steps m s (.cleanup i) x { mem := m }
  | beginReturn {i : ℕ} {hr : HRESULT} {state : AsyncState} {x : Choice}
      (hs : m.states[i]? = some state) :
      Steps m s (.beginReturn i hr) x
        { mem := m.beginReturned state.block (some i) state.provider hr }
  -- the worker of `run_sync`
  | workCanceled {h b : ℕ} {helper : XsyncContextHelper} {x : Choice}
      (hh : m.helpers[h]? = some helper) :
      Steps m s (.work h b true) x
        { mem := (m.record (.touched h)).setHelper h { helper with result := E_ABORT }
          run := [.frame (.completeBlock h b)] }
  | work {h b : ℕ} {helper : XsyncContextHelper} {x : Choice}
      (hh : m.helpers[h]? = some helper) :
      Steps m s (.work h b false) x
        { mem := m.record (.touched h), run := [.frame .game, .frame (.futureReturn h b)] }
  | futureOk {h b value : ℕ} {helper : XsyncContextHelper} (hh : m.helpers[h]? = some helper) :
      Steps m s (.futureReturn h b) (.produces value)
        { mem := ((m.record (.future h (.ok value))).record (.touched h)).setHelper h
            { helper with result := S_OK, payload := some value }
          run := [.frame (.completeBlock h b)] }
  | futureErr {h b : ℕ} {hr : HRESULT} {helper : XsyncContextHelper}
      (hh : m.helpers[h]? = some helper) :
      Steps m s (.futureReturn h b) (.returns hr)
        { mem := ((m.record (.future h (.err hr))).record (.touched h)).setHelper h
            { helper with result := hr }
          run := [.frame (.completeBlock h b)] }
  | completeBlock {h b i : ℕ} {helper : XsyncContextHelper} {x : Choice}
      (hh : m.helpers[h]? = some helper) (hb : m.stateOf b = some i) :
      Steps m s (.completeBlock h b) x
        { mem := (m.record (.touched h)).record (.workerCompletes h (some i))
          run := [.frame (.call i (.complete helper.result helper.size))] }
  | completeNothing {h b : ℕ} {helper : XsyncContextHelper} {x : Choice}
      (hh : m.helpers[h]? = some helper) (hb : m.stateOf b = none) :
      Steps m s (.completeBlock h b) x
        { mem := (m.record (.touched h)).record (.workerCompletes h none) }

theorem runSyncHelper_inv {i h : ℕ} {state : AsyncState} {helper : XsyncContextHelper}
    {op : XAsyncOp} (hp : state.provider = .runSync h) (hh : m.helpers[h]? = some helper) :
    Invokes m i state op (runSyncHelper (m.record (.invoked i op)) s i state h helper op) := by
  cases op with
  | begin =>
    simp only [runSyncHelper]
    cases hq : (m.record (.invoked i .begin)).runSyncQueue with
    | some q =>
      have hi : Invokes m i state .begin { mem := _, admin := [], run := _ } :=
        .runSyncBegin (q := q) hp hh
      have hm : { (m.record (.invoked i .begin)).record (.touched h) with
          runSyncQueue := some q } = (m.record (.invoked i .begin)).record (.touched h) := by
        rw [← hq]
        rfl
      rw [hm] at hi
      exact hi
    | none => exact .runSyncBegin hp hh
  | doWork => exact .runSyncDoWork hp hh
  | getResult => exact .runSyncGetResult hp hh
  | cancel => exact .runSyncCancel hp hh
  | cleanup => exact .runSyncCleanup hp hh

theorem invoke_inv {i : ℕ} {state : AsyncState} {op : XAsyncOp} {r : EngineStep}
    (h : invoke m s i state op = some r) : Invokes m i state op r := by
  unfold invoke at h
  cases hp : state.provider with
  | game =>
    simp only [hp, Option.some.injEq] at h
    subst h
    exact .game hp
  | run =>
    simp only [hp] at h
    cases op with
    | begin =>
      simp only [runProvider] at h
      split at h
      · rename_i hn
        cases h
        exact .runLost hp hn
      · rename_i j hj
        simp only [Option.bind_eq_bind, Option.bind_eq_some_iff, Option.some.injEq] at h
        obtain ⟨parked, -, rfl⟩ := h
        exact .runBegin hp hj
    | doWork => cases h; exact .runDoWork hp
    | getResult | cancel | cleanup => cases h; exact .runOther hp (by simp) (by simp)
  | runSync helper =>
    simp only [hp, Option.bind_eq_bind, Option.bind_eq_some_iff, Option.some.injEq] at h
    obtain ⟨context, hh, rfl⟩ := h
    exact runSyncHelper_inv hp hh

theorem xasyncBegin_inv {b identity : ℕ} {provider : Provider} {r : EngineStep}
    (h : xasyncBegin m s b identity provider = some r) : Begins m s b identity provider r := by
  unfold xasyncBegin at h
  split at h
  · rename_i hb
    cases h
    exact .rejected (.inl ⟨hb, rfl⟩)
  · rename_i hb
    split at h
    · rename_i hn
      cases h
      exact .rejected (.inr ⟨hb, Option.isSome_iff_exists.mp hn, rfl⟩)
    · rename_i hn
      simp only [Option.not_isSome_iff_eq_none] at hn
      simp only [Option.bind_eq_bind, Option.bind_eq_some_iff] at h
      obtain ⟨route, hroute, h⟩ := h
      split at h
      · rename_i hr hq
        cases h
        exact .unrouted hb hn hroute hq
      · rename_i q hq
        cases h
        exact .parked hb hn hroute hq rfl rfl

theorem callStep_inv {i : ℕ} {state : AsyncState} {c : XAsyncCall} {r : EngineStep} {x : Choice}
    (hs : m.states[i]? = some state) (h : callStep m i state c = some r) :
    Steps m s (.call i c) x r := by
  cases c with
  | schedule delayInMs =>
    cases h
    exact .schedule hs
  | complete result size =>
    simp only [callStep, completeState, Option.some.injEq] at h
    split at h <;> subst h
    · exact .complete hs (by assumption)
    · exact .completeLate hs (by assumption)
  | getStatus wait =>
    simp only [callStep] at h
    split at h
    · rename_i hp
      split at h
      · simp at h
      · rename_i hw
        cases h
        have hk := Steps.getStatus (s := s) (x := x) hs (.inl ⟨hp, by simpa using hw⟩)
        rw [hp] at hk
        exact hk
    · rename_i hp
      split at h <;> cases h
      · exact .getStatusCleanup hs hp (by assumption)
      · exact .getStatus hs (.inr ⟨hp, by assumption⟩)
  | getResultSize out =>
    simp only [callStep, Option.some.injEq] at h
    cases out with
    | false =>
      subst h
      exact .getResultSizeNull hs
    | true =>
      subst h
      simp only [Bool.true_eq_false, if_false]
      split
      · rename_i hp
        have hk : Steps m s (.call i (.getResultSize true)) x
            { mem := m, run := [.frame (.ret (.getResultSize (some i) state.status 0))] } :=
          .getResultSize hs
        rw [hp] at hk
        exact hk
      · exact .getResultSize hs
  | getResult identity bufferSize =>
    simp only [callStep] at h
    split at h
    · cases h
      exact .getResultRefused hs (.inl ⟨by assumption, rfl⟩)
    · rename_i hp
      split at h
      · cases h
        exact .getResultFailed hs hp (by assumption)
      · rename_i ho
        simp only [ne_eq, not_not] at ho
        split at h
        · cases h
          exact .getResultRefused hs (.inr ho)
        · rename_i hid
          split at h <;> cases h
          · exact .getResultRefused hs (.inr ho)
          · exact .getResult hs ho (by tauto) (by omega)
  | cancel =>
    simp only [callStep] at h
    split at h <;> rename_i hk <;> cases h
    · exact .cancelIgnored hs hk
    · simp only [not_or, ne_eq, not_not, Bool.not_eq_true] at hk
      exact .cancel hs hk.1 hk.2

theorem afterOp_inv {i : ℕ} {state : AsyncState} {op : XAsyncOp} {hr : HRESULT} {out : Option ℕ}
    {x : Choice} (hs : m.states[i]? = some state) :
    Steps m s (.afterOp i op hr out) x (afterOp m i state hr out op) := by
  cases op with
  | begin =>
    simp only [afterOp]
    split
    · subst hr
      exact .begun hs
    · exact .beginFailed hs (by assumption)
  | doWork =>
    simp only [afterOp, completeState]
    split
    · exact .didWorkLate hs (.inl (by assumption))
    · split
      · exact .didWork hs (by assumption) (by assumption)
      · exact .didWorkLate hs (.inr (by assumption))
  | getResult => exact .gotResult hs
  | cancel =>
    simp only [afterOp]
    split
    · exact .canceled hs (by assumption)
    · exact .canceledLate hs (by assumption)
  | cleanup => exact .cleanedUp hs

theorem gameStep_inv {choice : Choice} {r : EngineStep} (h : gameStep m s choice = some r) :
    Steps m s .game choice r := by
  cases choice with
  | setBlock b queue callback => cases h; exact .setBlock
  | queue c => cases h; exact .queue rfl
  | begin b identity provider =>
    cases provider with
    | false => cases h; exact .nullProvider (.inl ⟨identity, rfl⟩)
    | true =>
      obtain ⟨r', hr, rfl⟩ := Option.map_eq_some_iff.mp h
      exact .begin (xasyncBegin_inv hr)
  | run b work =>
    cases work with
    | false => cases h; exact .nullProvider (.inr rfl)
    | true =>
      obtain ⟨r', hr, rfl⟩ := Option.map_eq_some_iff.mp h
      exact .run (xasyncBegin_inv hr)
  | runSync b size =>
    simp only [gameStep] at h
    split at h
    · rename_i hb
      subst hb
      cases h
      exact .runSyncNull
    · rename_i hb
      obtain ⟨r', hr, rfl⟩ := Option.map_eq_some_iff.mp h
      exact .runSync hb (xasyncBegin_inv hr)
  | xasync b c =>
    simp only [gameStep] at h
    split at h <;> cases h
    · exact .unresolved (by assumption)
    · exact .resolved (by assumption)
  | thread => cases h; exact .thread
  | finish => cases h; exact .finish
  | returns hr => simp [gameStep] at h
  | produces value => simp [gameStep] at h

theorem steps_inv {code : Code} {choice : Choice} {r : EngineStep}
    (h : m.step s code choice = some r) : Steps m s code choice r := by
  unfold Memory.step at h
  split at h <;>
    try simp only [Option.bind_eq_bind, Option.bind_eq_some_iff, Option.some.injEq,
      reduceCtorEq] at h
  · exact gameStep_inv h
  · exact h ▸ .ret
  · obtain ⟨state, hs, h⟩ := h
    exact callStep_inv hs h
  · obtain ⟨state, hs, h⟩ := h
    exact .invoke hs (invoke_inv h)
  · exact h ▸ .opReturn
  · obtain ⟨state, hs, rfl⟩ := h
    exact afterOp_inv hs
  · obtain ⟨state, hs, h⟩ := h
    split at h <;> cases h
    · exact .unheard hs (by assumption)
    · exact .announce hs (by assumption)
  · obtain ⟨state, hs, rfl⟩ := h
    exact .completionCallback hs
  · obtain ⟨state, hs, h⟩ := h
    split at h <;> rename_i hc <;> cases h
    · exact .cleanupAgain hs hc
    · exact .cleanup hs (by simpa using hc)
  · obtain ⟨state, hs, rfl⟩ := h
    exact .beginReturn hs
  · exact h ▸ .processQueue
  · obtain ⟨helper, hh, h⟩ := h
    split at h <;> rename_i hc <;> cases h
    · subst hc
      exact .workCanceled hh
    · rw [Bool.eq_false_of_not_eq_true hc]
      exact .work hh
  · obtain ⟨helper, hh, rfl⟩ := h
    exact .futureOk hh
  · obtain ⟨helper, hh, rfl⟩ := h
    exact .futureErr hh
  · obtain ⟨helper, hh, h⟩ := h
    split at h <;> rename_i hb <;> cases h <;> rw [hb]
    · exact .completeNothing hh hb
    · exact .completeBlock hh hb

end XGameRuntime.XAsync
