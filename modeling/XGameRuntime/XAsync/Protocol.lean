import XGameRuntime.XAsync.Parking

/-! # The operations that a provider receives

`Begin`, then `DoWork` with at most one `Cancel`, then at most one `GetResult`, then at most one
`Cleanup`. The flag `cleaned_up` guards `Cleanup` against itself only, so the order of the rest
depends on what is still under way when the result is taken.
-/

namespace XGameRuntime.XAsync
open Concurrency TaskQueue
set_option autoImplicit false

/-! ## The protocol -/

/-- How far a provider has come. -/
inductive Stage where
  | idle
  | working (canceled : Bool)
  | delivered
  | closed
  deriving DecidableEq, Repr

def Stage.next : Stage → XAsyncOp → Option Stage
  | .idle, .begin => some (.working false)
  | .working canceled, .doWork => some (.working canceled)
  | .working false, .cancel => some (.working true)
  | .working _, .getResult => some .delivered
  | .working _, .cleanup => some .closed
  | .delivered, .cleanup => some .closed
  | _, _ => none

theorem Stage.next_ne_idle (stage : Stage) (op : XAsyncOp) : stage.next op ≠ some .idle := by
  cases stage with
  | working canceled => cases canceled <;> cases op <;> simp [Stage.next]
  | _ => cases op <;> simp [Stage.next]

/-- The stage after a history of operations, newest first; `none` when they are out of order. -/
def stageOf : List XAsyncOp → Option Stage
  | [] => some .idle
  | op :: earlier => (stageOf earlier).bind (·.next op)

/-- `Begin`, then `DoWork` and at most one `Cancel`, then at most one `GetResult`, then at most one
`Cleanup`. -/
def Ordered (ops : List XAsyncOp) : Prop :=
  ∃ work tail, ops = .begin :: work ++ tail ∧ (∀ op ∈ work, op = .doWork ∨ op = .cancel) ∧
    work.count .cancel ≤ 1 ∧ tail ∈ [[], [.getResult], [.cleanup], [.getResult, .cleanup]]

/-- While a provider works, its operations are `Begin` and work. -/
theorem stageOf_working {ops : List XAsyncOp} {canceled : Bool}
    (h : stageOf ops = some (.working canceled)) : ∃ work, ops.reverse = .begin :: work ∧
      (∀ op ∈ work, op = .doWork ∨ op = .cancel) ∧
      work.count .cancel = if canceled then 1 else 0 := by
  induction ops generalizing canceled with
  | nil => simp [stageOf] at h
  | cons op earlier ih =>
    obtain ⟨stage, hs, hn⟩ := Option.bind_eq_some_iff.mp h
    have hwork : ∀ c, stage = .working c → (op = .doWork ∧ canceled = c ∨
        op = .cancel ∧ c = false ∧ canceled = true) →
        ∃ work, (op :: earlier).reverse = .begin :: work ∧
          (∀ op ∈ work, op = .doWork ∨ op = .cancel) ∧
          work.count .cancel = if canceled then 1 else 0 := by
      intro c hc hop
      subst hc
      obtain ⟨work, hw, hall, hcount⟩ := ih hs
      refine ⟨work ++ [op], by simp [hw], ?_, ?_⟩
      · simp only [List.forall_mem_append, List.forall_mem_singleton]
        exact ⟨hall, hop.imp And.left And.left⟩
      · rcases hop with ⟨rfl, rfl⟩ | ⟨rfl, rfl, rfl⟩ <;> simp [hcount]
    cases stage with
    | idle =>
      cases op <;> simp [Stage.next] at hn
      subst hn
      cases earlier with
      | nil => exact ⟨[], rfl, by simp, by simp⟩
      | cons op' earlier =>
        obtain ⟨stage', hs', hn'⟩ := Option.bind_eq_some_iff.mp hs
        cases stage' with
        | working c => cases c <;> cases op' <;> simp [Stage.next] at hn'
        | _ => cases op' <;> simp [Stage.next] at hn'
    | working c =>
      refine hwork c rfl ?_
      cases c <;> cases op <;> simp [Stage.next] at hn <;> simp [hn]
    | delivered => cases op <;> simp [Stage.next] at hn
    | closed => cases op <;> simp [Stage.next] at hn

theorem ordered_of_working {earlier : List XAsyncOp} {canceled : Bool}
    (h : stageOf earlier = some (.working canceled)) {tail : List XAsyncOp}
    (ht : tail ∈ [[], [.getResult], [.cleanup], [.getResult, .cleanup]]) :
    Ordered (earlier.reverse ++ tail) := by
  obtain ⟨work, hw, hall, hcount⟩ := stageOf_working h
  refine ⟨work, tail, by simp [hw], hall, ?_, ht⟩
  rw [hcount]
  split <;> omega

/-- Before the result is delivered the provider worked. -/
theorem stageOf_delivered {ops : List XAsyncOp} (h : stageOf ops = some .delivered) :
    ∃ earlier canceled, ops = .getResult :: earlier ∧
      stageOf earlier = some (.working canceled) := by
  cases ops with
  | nil => simp [stageOf] at h
  | cons op earlier =>
    obtain ⟨before, hs, hn⟩ := Option.bind_eq_some_iff.mp h
    cases before with
    | working canceled =>
      refine ⟨earlier, canceled, ?_, hs⟩
      cases canceled <;> cases op <;> simp [Stage.next] at hn ⊢
    | _ => cases op <;> simp [Stage.next] at hn

/-- A history that the stages accept has that shape, once it has begun. -/
theorem stageOf_ordered {ops : List XAsyncOp} {stage : Stage} (h : stageOf ops = some stage)
    (hi : ops ≠ []) : Ordered ops.reverse := by
  obtain ⟨op, earlier, rfl⟩ := List.exists_cons_of_ne_nil hi
  obtain ⟨before, hs, hn⟩ := Option.bind_eq_some_iff.mp h
  cases stage with
  | idle => exact absurd hn (before.next_ne_idle op)
  | working canceled => simpa using ordered_of_working h (show [] ∈ _ by simp)
  | delivered =>
    obtain ⟨earlier', canceled, he, hw⟩ := stageOf_delivered h
    simpa [he] using ordered_of_working hw (show [.getResult] ∈ _ by simp)
  | closed =>
    cases before with
    | working canceled =>
      have hop : op = .cleanup := by cases canceled <;> cases op <;> simp [Stage.next] at hn ⊢
      simpa [hop] using ordered_of_working hs (show [.cleanup] ∈ _ by simp)
    | delivered =>
      have hop : op = .cleanup := by cases op <;> simp [Stage.next] at hn ⊢
      obtain ⟨earlier', canceled, he, hw⟩ := stageOf_delivered hs
      simpa [hop, he] using ordered_of_working hw (show [.getResult, .cleanup] ∈ _ by simp)
    | _ => cases op <;> simp [Stage.next] at hn

theorem count_cleanup {ops : List XAsyncOp} (h : Ordered ops) (hm : .cleanup ∈ ops) :
    ops.count .cleanup = 1 := by
  obtain ⟨work, tail, rfl, hwork, -, ht⟩ := h
  have hnot : .cleanup ∉ work := by
    intro hc
    rcases hwork _ hc with h | h <;> simp at h
  have hz := List.count_eq_zero.mpr hnot
  simp only [List.mem_cons, List.not_mem_nil, or_false] at ht
  rcases ht with rfl | rfl | rfl | rfl <;> simp [hz, hnot] at hm ⊢

/-! ## What is under way -/

def Event.operation (i : ℕ) : Event → Option XAsyncOp
  | .invoked j op => if j = i then some op else none
  | _ => none

/-- The operations that the provider of call `i` has received, newest first. -/
def Memory.ops (m : Memory) (i : ℕ) : List XAsyncOp := m.log.filterMap (Event.operation i)

/-- The operations to come: the `DoWork` passes that are queued, submitted or about to run, and
the other operations about to be invoked. -/
inductive Pending where
  | doWork
  | cancel
  | getResult
  | cleanup
  deriving DecidableEq

def pendingLoad (k : Pending) (i : ℕ) : Load Callback Code where
  callback
    | .work j => if k = .doWork ∧ j = i then 1 else 0
    | _ => 0
  code
    | .invoke j .doWork => if k = .doWork ∧ j = i then 1 else 0
    | .invoke j .cancel => if k = .cancel ∧ j = i then 1 else 0
    | .invoke j .getResult => if k = .getResult ∧ j = i then 1 else 0
    | .invoke j .cleanup => if k = .cleanup ∧ j = i then 1 else 0
    | _ => 0

theorem pendingLoad_sees (k : Pending) (i : ℕ) : Sees (pendingLoad k i) := by
  refine ⟨rfl, rfl, fun _ => rfl, fun callback canceled => ?_⟩
  cases callback with
  | work j => cases canceled <;> simp [Callback.code, pendingLoad]
  | _ => simp [Callback.code, pendingLoad]

/-- `Begin` is still to be sent for call `i`. -/
def toBegin (i : ℕ) : Load Callback Code where
  callback _ := 0
  code
    | .invoke j .begin => if j = i then 1 else 0
    | _ => 0

theorem toBegin_sees (i : ℕ) : Sees (toBegin i) := by
  refine ⟨rfl, rfl, fun _ => rfl, fun callback canceled => ?_⟩
  cases callback with
  | work j => cases canceled <;> simp [Callback.code, toBegin]
  | _ => simp [Callback.code, toBegin]

/-- How far a call has come, and what may be pending for it then. -/
inductive CallOrdered (state : AsyncState) (stage : Option Stage) (pending : Pending → ℕ) : Prop where
  | parked (hs : stage = some .idle) (hd : state.delivering = false) (hc : state.cleanedUp = false)
      (hcancel : pending .cancel = 0) (hg : pending .getResult = 0) (hk : pending .cleanup = 0)
  | working {canceled : Bool} (hs : stage = some (.working canceled))
      (hd : state.delivering = false) (hc : state.cleanedUp = false)
      (hcancel : (if canceled then 1 else 0) + pending .cancel ≤ if state.canceled then 1 else 0)
      (hg : pending .getResult = 0) (hk : pending .cleanup = 0)
  | delivering {canceled : Bool} (hs : stage = some (.working canceled))
      (hd : state.delivering = true) (hc : state.cleanedUp = false) (hw : pending .doWork = 0)
      (hcancel : pending .cancel = 0) (hg : pending .getResult ≤ 1) (hk : pending .cleanup = 0)
  | delivered (hs : stage = some .delivered) (hd : state.delivering = true)
      (hc : state.cleanedUp = false) (hw : pending .doWork = 0) (hcancel : pending .cancel = 0)
      (hg : pending .getResult = 0) (hk : pending .cleanup = 0)
  | closing (hs : stage = some .delivered ∨ ∃ canceled, stage = some (.working canceled))
      (hc : state.cleanedUp = true) (hw : pending .doWork = 0) (hcancel : pending .cancel = 0)
      (hg : pending .getResult = 0) (hk : pending .cleanup ≤ 1)
  | closed (hs : stage = some .closed) (hc : state.cleanedUp = true) (hz : ∀ k, pending k = 0)

theorem CallOrdered.mono {state state' : AsyncState} {stage : Option Stage}
    {pending pending' : Pending → ℕ} (h : CallOrdered state stage pending)
    (hd : state'.delivering = state.delivering) (hc : state'.cleanedUp = state.cleanedUp)
    (hk : state'.canceled = state.canceled) (hp : ∀ k, pending' k ≤ pending k) :
    CallOrdered state' stage pending' := by
  have h1 := hp .doWork
  have h2 := hp .cancel
  have h3 := hp .getResult
  have h4 := hp .cleanup
  cases h with
  | parked hs hd' hc' hcancel hg hk' =>
    exact .parked hs (hd.trans hd') (hc.trans hc') (by omega) (by omega) (by omega)
  | working hs hd' hc' hcancel hg hk' =>
    exact .working hs (hd.trans hd') (hc.trans hc') (by rw [hk]; omega) (by omega) (by omega)
  | delivering hs hd' hc' hw hcancel hg hk' =>
    exact .delivering hs (hd.trans hd') (hc.trans hc') (by omega) (by omega) (by omega) (by omega)
  | delivered hs hd' hc' hw hcancel hg hk' =>
    exact .delivered hs (hd.trans hd') (hc.trans hc') (by omega) (by omega) (by omega) (by omega)
  | closing hs hc' hw hcancel hg hk' =>
    exact .closing hs (hc.trans hc') (by omega) (by omega) (by omega) (by omega)
  | closed hs hc' hz =>
    exact .closed hs (hc.trans hc') fun k => Nat.le_zero.mp (hz k ▸ hp k)

theorem CallOrdered.isOpen {state : AsyncState} {stage : Option Stage} {pending : Pending → ℕ}
    (h : CallOrdered state stage pending) (hb : stage ≠ some .idle) (hc : state.cleanedUp = false) :
    (stage = some .delivered ∨ ∃ canceled, stage = some (.working canceled)) ∧
      pending .cleanup = 0 := by
  cases h with
  | parked hs => exact absurd hs hb
  | working hs hd hc' hcancel hg hk => exact ⟨.inr ⟨_, hs⟩, hk⟩
  | delivering hs hd hc' hw hcancel hg hk => exact ⟨.inr ⟨_, hs⟩, hk⟩
  | delivered hs hd hc' hw hcancel hg hk => exact ⟨.inl hs, hk⟩
  | closing hs hc' => simp [hc] at hc'
  | closed hs hc' => simp [hc] at hc'

theorem CallOrdered.isWorking {state : AsyncState} {stage : Option Stage} {pending : Pending → ℕ}
    (h : CallOrdered state stage pending) (hb : stage ≠ some .idle) (hd : state.delivering = false)
    (hc : state.cleanedUp = false) : ∃ canceled, stage = some (.working canceled) ∧
      (if canceled then 1 else 0) + pending .cancel ≤ (if state.canceled then 1 else 0) ∧
      pending .getResult = 0 ∧ pending .cleanup = 0 := by
  cases h with
  | parked hs => exact absurd hs hb
  | working hs hd' hc' hcancel hg hk => exact ⟨_, hs, hcancel, hg, hk⟩
  | delivering hs hd' => simp [hd] at hd'
  | delivered hs hd' => simp [hd] at hd'
  | closing hs hc' => simp [hc] at hc'
  | closed hs hc' => simp [hc] at hc'

/-- A pass may be submitted while the call is not being taken. -/
theorem CallOrdered.submit {state : AsyncState} {stage : Option Stage}
    {pending pending' : Pending → ℕ} (h : CallOrdered state stage pending)
    (hd : state.delivering = false) (hc : state.cleanedUp = false)
    (hp : ∀ k, k ≠ .doWork → pending' k ≤ pending k) : CallOrdered state stage pending' := by
  have h1 := hp .cancel (by simp)
  have h2 := hp .getResult (by simp)
  have h3 := hp .cleanup (by simp)
  by_cases hb : stage = some .idle
  · cases h with
    | parked hs _ _ hcancel hg hk => exact .parked hs hd hc (by omega) (by omega) (by omega)
    | working hs | delivering hs | delivered hs | closed hs => cases hs.symm.trans hb
    | closing hs hc' => simp [hc] at hc'
  · obtain ⟨canceled, hs, hcancel, hg, hk⟩ := h.isWorking hb hd hc
    exact .working hs hd hc (by omega) (by omega) (by omega)

structure Ops (m : Memory) (pending : Pending × ℕ → ℕ) : Prop where
  unborn : ∀ i, m.states[i]? = none → m.ops i = [] ∧ ∀ k, pending (k, i) = 0
  call : ∀ i state, m.states[i]? = some state →
    CallOrdered state (stageOf (m.ops i)) fun k => pending (k, i)

theorem Ops.of_eq {m m' : Memory} {L L' : Pending × ℕ → ℕ} (hI : Ops m L)
    (hs : m'.states = m.states) (ho : ∀ i, m'.ops i = m.ops i) (hL : ∀ k, L' k ≤ L k) :
    Ops m' L' := by
  refine ⟨fun i hn => ?_, fun i state hi => ?_⟩
  · obtain ⟨hops, hz⟩ := hI.unborn i (hs ▸ hn)
    exact ⟨(ho i).trans hops, fun k => Nat.le_zero.mp (hz k ▸ hL (k, i))⟩
  · rw [ho]
    exact (hI.call i state (hs ▸ hi)).mono rfl rfl rfl fun k => hL (k, i)

/-- The rule for a step that is about one call. -/
theorem Ops.at {m m' : Memory} {L L' : Pending × ℕ → ℕ} {i : ℕ} {state state' : AsyncState}
    (hI : Ops m L) (hs : m.states[i]? = some state) (hs' : m'.states = m.states.set i state')
    (ho : ∀ j, j ≠ i → m'.ops j = m.ops j) (hL : ∀ k j, j ≠ i → L' (k, j) ≤ L (k, j))
    (hi : CallOrdered state (stageOf (m.ops i)) (fun k => L (k, i)) →
      CallOrdered state' (stageOf (m'.ops i)) fun k => L' (k, i)) : Ops m' L' := by
  refine ⟨fun j hn => ?_, fun j new hj => ?_⟩
  · have hne : j ≠ i := by
      rintro rfl
      rw [hs', getElem?_set_at state' hs] at hn
      simp at hn
    have hn' : m.states[j]? = none := by simpa [hs', List.getElem?_set, hne.symm] using hn
    obtain ⟨hops, hz⟩ := hI.unborn j hn'
    exact ⟨(ho j hne).trans hops, fun k => Nat.le_zero.mp (hz k ▸ hL k j hne)⟩
  · rcases getElem?_set_cases (hs' ▸ hj) with ⟨rfl, rfl⟩ | ⟨hne, hj⟩
    · exact hi (hI.call i state hs)
    · rw [ho j (Ne.symm hne)]
      exact (hI.call j new hj).mono rfl rfl rfl fun k => hL k j (Ne.symm hne)

/-! ## The condition -/

/-- The condition under which the order is kept. `Begin` has been sent before a pass of the call
starts, `XAsyncCancel` goes to the provider or the result is taken. When the result is taken, by
`XAsyncGetResult` going to the provider or by the cleanup, nothing is pending for the call; from then
on no pass is submitted for it and it is not taken again; and a cleanup that finds the flag set finds
`Cleanup` sent. -/
def takesAlone (s : World Engine) (R : Multiset (Frame Callback Code)) : Code → Bool
  | .call i (.getResult identity bufferSize) => decide (∀ state ∈ s.mem.states[i]?,
      state.status = S_OK → (identity = 0 ∨ identity = state.identity) →
      state.resultSize ≤ bufferSize →
        (toBegin i).total s.toCore R = 0 ∧ state.delivering = false ∧ state.cleanedUp = false ∧
        (pendingLoad .doWork i).total s.toCore R = 0 ∧ (pendingLoad .cancel i).total s.toCore R = 0)
  | .cleanup i => decide (∀ state ∈ s.mem.states[i]?,
      if state.cleanedUp then (pendingLoad .cleanup i).total s.toCore R = 0
      else (toBegin i).total s.toCore R = 0 ∧ (pendingLoad .doWork i).total s.toCore R = 0 ∧
        (pendingLoad .cancel i).total s.toCore R = 0 ∧
        (pendingLoad .getResult i).total s.toCore R = 0)
  | .call i (.schedule _) => decide (∀ state ∈ s.mem.states[i]?,
      state.delivering = false ∧ state.cleanedUp = false)
  | .call i .cancel => decide (∀ state ∈ s.mem.states[i]?, state.status = E_PENDING →
      (toBegin i).total s.toCore R = 0 ∧ state.delivering = false ∧ state.cleanedUp = false)
  | .afterOp i .cancel _ _ => decide (∀ state ∈ s.mem.states[i]?,
      state.status = E_PENDING → state.delivering = false ∧ state.cleanedUp = false)
  | .invoke i .doWork => decide ((toBegin i).total s.toCore R = 0)
  | _ => true

abbrev lonelyTaker : Guard (World Engine) (Frame Callback Code) (Option Choice) :=
  onCode fun s R code _ => takesAlone s R code

/-! ## One step -/

section Steps
variable {m : Memory} {code : Code} {x : Choice} {r : EngineStep}

@[simp] theorem ops_record (m : Memory) (e : Event) (i : ℕ) :
    (m.record e).ops i = (e.operation i).toList ++ m.ops i := by
  simp only [Memory.ops, Memory.record, List.filterMap_cons]
  cases e.operation i <;> rfl

theorem Invokes.ops {i : ℕ} {state : AsyncState} {op : XAsyncOp} (h : Invokes m i state op r)
    (j : ℕ) : r.mem.ops j = if i = j then op :: m.ops j else m.ops j := by
  have hrec : (m.record (.invoked i op)).ops j = if i = j then op :: m.ops j else m.ops j := by
    rw [ops_record]
    simp only [Event.operation]
    split <;> rfl
  cases h <;> exact hrec

/-- What an invocation leaves pending: nothing, but for the pass that `XAsyncRun` submits. -/
theorem Invokes.pending {i : ℕ} {state : AsyncState} {op : XAsyncOp} (h : Invokes m i state op r)
    (k : Pending) (j : ℕ) : (pendingLoad k j).asked r ≤
      if op = .begin ∧ k = .doWork ∧ m.stateOf state.block = some j then 1 else 0 := by
  cases h with
  | runBegin hp hj =>
    simp [Load.asked, Load.instr, Load.submission, pendingLoad, hj]
  | _ => simp [Load.asked, Load.instr, Load.submission, pendingLoad, runSyncSubmission]

theorem Memory.beginReturned_ops (m : Memory) (b : ℕ) (i : Option ℕ) (provider : Provider)
    (hr : HRESULT) (j : ℕ) : (m.beginReturned b i provider hr).ops j = m.ops j := by
  cases provider <;> simp [Memory.beginReturned, Event.operation]

/-- An operation that was pending is received. -/
theorem CallOrdered.invoked {state : AsyncState} {ops : List XAsyncOp} {L : Pending → ℕ}
    {op : XAsyncOp} {i : ℕ} (hop : op ≠ .begin) (hb : op = .doWork → stageOf ops ≠ some .idle)
    (h : CallOrdered state (stageOf ops) fun k => L k + (pendingLoad k i).code (.invoke i op)) :
    CallOrdered state (stageOf (op :: ops)) L := by
  simp only [stageOf]
  cases op with
  | begin => exact absurd rfl hop
  | doWork =>
    simp only [pendingLoad] at h
    cases h with
    | parked hs => exact absurd hs (hb rfl)
    | @working canceled hs hd hc hcancel hg hk =>
      have hnext : stageOf (.doWork :: ops) = some (.working canceled) := by
        simp [stageOf, hs, Stage.next]
      exact .working hnext hd hc (by simpa using hcancel)
        (by simpa using hg) (by simpa using hk)
    | delivering hs hd hc hw | delivered hs hd hc hw | closing hs hc hw => simp at hw
    | closed hs hc hz => simpa using hz .doWork
  | cancel =>
    simp only [pendingLoad] at h
    cases h with
    | parked hs hd hc hcancel => simp at hcancel
    | @working canceled hs hd hc hcancel hg hk =>
      simp only [true_and, if_true] at hcancel
      have hle : (if state.canceled = true then 1 else 0) ≤ 1 := by split <;> omega
      cases canceled with
      | true =>
        simp only [if_true] at hcancel
        omega
      | false =>
        have hnext : stageOf (.cancel :: ops) = some (.working true) := by
          simp [stageOf, hs, Stage.next]
        refine .working hnext hd hc ?_ (by simpa using hg) (by simpa using hk)
        simp at hcancel ⊢
        omega
    | delivering hs hd hc hw hcancel | delivered hs hd hc hw hcancel | closing hs hc hw hcancel =>
      simp at hcancel
    | closed hs hc hz => simpa using hz .cancel
  | getResult =>
    simp only [pendingLoad] at h
    cases h with
    | parked hs hd hc hcancel hg | working hs hd hc hcancel hg => simp at hg
    | @delivering canceled hs hd hc hw hcancel hg hk =>
      exact .delivered (by cases canceled <;> simp [hs, Stage.next]) hd hc (by simpa using hw)
        (by simpa using hcancel) (by simpa using hg) (by simpa using hk)
    | delivered hs hd hc hw hcancel hg | closing hs hc hw hcancel hg => simp at hg
    | closed hs hc hz => simpa using hz .getResult
  | cleanup =>
    simp only [pendingLoad] at h
    cases h with
    | parked hs hd hc hcancel hg hk | working hs hd hc hcancel hg hk => simp at hk
    | delivering hs hd hc hw hcancel hg hk | delivered hs hd hc hw hcancel hg hk => simp at hk
    | closing hs hc hw hcancel hg hk =>
      refine .closed ?_ hc fun k => ?_
      · rcases hs with hs | ⟨canceled, hs⟩
        · simp [hs, Stage.next]
        · cases canceled <;> simp [hs, Stage.next]
      · cases k <;> simp at hw hcancel hg hk ⊢ <;> assumption
    | closed hs hc hz => simpa using hz .cleanup

@[simp] theorem park_ops (m : Memory) (state : AsyncState) (i : ℕ) :
    (m.park state).ops i = m.ops i := by
  simp only [Memory.park, ops_record, Event.operation]
  rfl

/-! ## `Begin` -/

/-- `Begin` is sent once, and to no call before it is parked. -/
structure Begun (m : Memory) (toBegin : ℕ → ℕ) : Prop where
  unborn : ∀ i, m.states.length ≤ i → (m.ops i).count .begin + toBegin i = 0
  once : ∀ i, (m.ops i).count .begin + toBegin i ≤ 1

theorem Begun.of_eq {m m' : Memory} {L L' : ℕ → ℕ} (hI : Begun m L)
    (hs : m'.states.length = m.states.length)
    (ho : ∀ i, (m'.ops i).count .begin + L' i ≤ (m.ops i).count .begin + L i) : Begun m' L' :=
  ⟨fun i hi => Nat.le_zero.mp (hI.unborn i (hs ▸ hi) ▸ ho i), fun i => (ho i).trans (hI.once i)⟩

theorem Invokes.toBegin {i : ℕ} {state : AsyncState} {op : XAsyncOp} (h : Invokes m i state op r)
    (j : ℕ) : (toBegin j).asked r = 0 := by
  cases h <;> simp [Load.asked, Load.instr, Load.submission, XAsync.toBegin, runSyncSubmission]

theorem Begins.begun {s : TaskQueues Callback} {b identity : ℕ} {provider : Provider} {L : ℕ → ℕ}
    (h : Begins m s b identity provider r) (hI : Begun m L) :
    Begun r.mem fun i => L i + (XAsync.toBegin i).asked r := by
  cases h with
  | rejected =>
    refine hI.of_eq (by rw [Memory.beginReturned_states]) fun i => ?_
    rw [Memory.beginReturned_ops]
    simp [Load.asked]
  | unrouted =>
    refine hI.of_eq (by rw [Memory.beginReturned_states]; rfl) fun i => ?_
    rw [Memory.beginReturned_ops]
    simp [Load.asked, Memory.ops]
  | @parked route q routed state hb hn hroute hq hm hstate =>
    have hops : ∀ i, (routed.park state).ops i = m.ops i := by
      intro i
      rw [park_ops, hm]
      rfl
    have hlen : (routed.park state).states.length = m.states.length + 1 := by simp [hm]
    refine ⟨fun i hi => ?_, fun i => ?_⟩
    · have hlt : m.states.length + 1 ≤ i := hlen ▸ hi
      have hz := hI.unborn i (by omega)
      rw [asked_frame_admin, hops]
      simp only [XAsync.toBegin]
      rw [if_neg (by omega)]
      exact hz
    · have hone := hI.once i
      rw [asked_frame_admin, hops]
      simp only [XAsync.toBegin]
      split
      · have hz := hI.unborn i (by omega)
        omega
      · exact hone

theorem begun_step {s : TaskQueues Callback} {L : ℕ → ℕ} (h : Steps m s code x r)
    (hI : Begun m fun i => L i + (toBegin i).code code) :
    Begun r.mem fun i => L i + (toBegin i).asked r := by
  have hless : Begun m L := hI.of_eq rfl fun i => by omega
  cases h with
  | begin h | run h =>
    exact (h.begun hless).of_eq rfl fun i => by rw [asked_resume _ (toBegin_sees i)]; rfl
  | @runSync b size r hb h =>
    have hnew : Begun (m.newHelper size) L := hless.of_eq rfl fun _ => le_rfl
    exact (h.begun hnew).of_eq rfl fun i => by rw [asked_resume _ (toBegin_sees i)]; rfl
  | @invoke i op state r x hs hi =>
    refine hI.of_eq (by rw [hi.same.1]) fun j => ?_
    rw [hi.toBegin, hi.ops]
    split
    · subst j
      cases op <;> simp [toBegin]
      omega
    · omega
  | queue hr =>
    subst hr
    refine hless.of_eq rfl fun i => ?_
    rw [asked_queue _ (toBegin_sees i)]
    rfl
  | cleanedUp =>
    refine hless.of_eq (by rw [Memory.takeState_states]) fun i => ?_
    simp [Memory.ops, Load.asked]
  | beginReturn =>
    refine hless.of_eq (by rw [Memory.beginReturned_states]) fun i => ?_
    rw [Memory.beginReturned_ops]
    simp [Load.asked]
  | unresolved =>
    refine hless.of_eq rfl fun i => ?_
    simp [Load.asked, Load.instr, toBegin, Function.comp_def]
  | _ =>
    refine hless.of_eq (by simp) fun i => ?_
    show (m.ops i).count .begin + _ ≤ _
    simp [Load.asked, Load.instr, Load.submission, toBegin]

/-- A provider that has not received `Begin` has received nothing. -/
theorem CallOrdered.idle {state : AsyncState} {ops : List XAsyncOp} {pending : Pending → ℕ}
    (h : CallOrdered state (stageOf ops) pending) (hb : .begin ∉ ops) : ops = [] := by
  by_contra hne
  have hstage : ∃ stage, stageOf ops = some stage := by
    cases h with
    | closing hs =>
      rcases hs with hs | ⟨canceled, hs⟩
      · exact ⟨_, hs⟩
      · exact ⟨_, hs⟩
    | parked hs | working hs | delivering hs | delivered hs | closed hs => exact ⟨_, hs⟩
  obtain ⟨stage, hs⟩ := hstage
  obtain ⟨work, tail, hops, -⟩ := stageOf_ordered hs hne
  refine hb (List.mem_reverse.mp ?_)
  rw [hops]
  exact List.mem_cons_self

theorem stageOf_ne_idle {ops : List XAsyncOp} (hb : .begin ∈ ops) : stageOf ops ≠ some .idle := by
  cases ops with
  | nil => cases hb
  | cons op earlier =>
    intro h
    obtain ⟨stage, -, hn⟩ := Option.bind_eq_some_iff.mp h
    exact stage.next_ne_idle op hn

/-! ## One step -/

/-- A new call: its provider has received nothing. -/
theorem Ops.begins {s : TaskQueues Callback} {b identity : ℕ} {provider : Provider}
    {L : Pending × ℕ → ℕ} (h : Begins m s b identity provider r) (hI : Ops m L) :
    Ops r.mem fun k => L k + (pendingLoad k.1 k.2).asked r := by
  cases h with
  | rejected =>
    exact hI.of_eq (m.beginReturned_states ..) (fun i => m.beginReturned_ops ..) fun _ => le_rfl
  | unrouted =>
    exact hI.of_eq (Memory.beginReturned_states ..) (fun i => Memory.beginReturned_ops ..)
      fun _ => le_rfl
  | @parked route q routed state hb hn hroute hq hm hstate =>
    have hmem : (routed.park state).states = m.states ++ [state] := by simp [hm]
    have hops : ∀ i, (routed.park state).ops i = m.ops i := by
      intro i
      rw [park_ops, hm]
      rfl
    have hzero : ∀ k j, (pendingLoad k j).code (.invoke m.states.length .begin) = 0 :=
      fun _ _ => rfl
    simp only [asked_frame_admin, hzero, Nat.add_zero]
    refine ⟨fun j hj => ?_, fun j new hj => ?_⟩
    · have hlen : m.states.length + 1 ≤ j := by
        have hle := List.getElem?_eq_none_iff.mp hj
        rw [hmem, List.length_append] at hle
        exact hle
      rw [hops]
      exact hI.unborn j (List.getElem?_eq_none (by omega))
    · rw [hmem] at hj
      rw [hops]
      rcases getElem?_push_cases hj with hj | ⟨rfl, rfl⟩
      · exact hI.call j new hj
      · obtain ⟨hnone, hz⟩ := hI.unborn m.states.length (by simp)
        rw [hnone]
        exact .parked rfl (by rw [hstate]) (by rw [hstate]) (hz _) (hz _) (hz _)

theorem ops_step {s : World Engine} {R : Multiset (Frame Callback Code)}
    (h : Steps s.mem s.toTaskQueues code x r) (hg : takesAlone s R code = true)
    (honce : ∀ i, (s.mem.ops i).count .begin +
      ((toBegin i).total s.toCore R + (toBegin i).code code) ≤ 1)
    (hsent : ∀ i, i < s.mem.states.length → .begin ∈ s.mem.ops i ∨
      0 < (toBegin i).total s.toCore R + (toBegin i).code code)
    (halive : ∀ i state, s.mem.states[i]? = some state → state.cleanedUp = false →
      s.mem.stateOf state.block = some i)
    (hI : Ops s.mem fun k =>
      (pendingLoad k.1 k.2).total s.toCore R + (pendingLoad k.1 k.2).code code) :
    Ops r.mem fun k => (pendingLoad k.1 k.2).total s.toCore R + (pendingLoad k.1 k.2).asked r := by
  have hbegun : ∀ {i state}, s.mem.states[i]? = some state → (toBegin i).total s.toCore R = 0 →
      (toBegin i).code code = 0 → stageOf (s.mem.ops i) ≠ some .idle := by
    intro i state hs hzero hcode
    refine stageOf_ne_idle ((hsent i (List.getElem?_eq_some_iff.mp hs).1).resolve_right ?_)
    omega
  cases h with
  | begin h | run h =>
    have hb := (hI.of_eq rfl (fun _ => rfl) fun k => Nat.le_add_right _ _).begins h
    exact hb.of_eq rfl (fun _ => rfl) fun k => by rw [asked_resume _ (pendingLoad_sees k.1 k.2)]
  | @runSync b size r hb h =>
    have hnew : Ops (s.mem.newHelper size) fun k => (pendingLoad k.1 k.2).total s.toCore R :=
      hI.of_eq rfl (fun _ => rfl) fun k => Nat.le_add_right _ _
    exact (hnew.begins h).of_eq rfl (fun _ => rfl) fun k => by
      rw [asked_resume _ (pendingLoad_sees k.1 k.2)]
  | schedule hs =>
    obtain ⟨hd, hc⟩ := of_decide_eq_true hg _ hs
    refine hI.at hs (set_at_self hs).symm (fun _ _ => rfl) (fun k j hne => ?_) fun hcall => ?_
    · simp [Load.asked, Load.instr, Load.submission, pendingLoad, Ne.symm hne]
    · refine hcall.submit hd hc fun k hk => ?_
      simp [Load.asked, Load.instr, Load.submission, pendingLoad, hk]
  | canceled hs hp =>
    obtain ⟨hd, hc⟩ := of_decide_eq_true hg _ hs hp
    refine hI.at hs (set_at_self hs).symm (fun _ _ => rfl) (fun k j hne => ?_) fun hcall => ?_
    · simp [Load.asked, Load.instr, Load.submission, pendingLoad, Ne.symm hne]
    · refine hcall.submit hd hc fun k hk => ?_
      simp [Load.asked, Load.instr, Load.submission, pendingLoad, hk]
  | @cancel i state x hs hp hk =>
    obtain ⟨hz, hd, hc⟩ := of_decide_eq_true hg state hs hp
    refine hI.at hs rfl (fun _ _ => rfl) (fun k j hne => ?_) fun hcall => ?_
    · simp [Load.asked, Load.instr, pendingLoad, Ne.symm hne]
    · obtain ⟨canceled, hst, hcancel, hget, hclean⟩ := hcall.isWorking (hbegun hs hz rfl) hd hc
      have hle : (if canceled then 1 else 0) +
          (pendingLoad .cancel i).total s.toCore R ≤ 0 := by simpa [hk, pendingLoad] using hcancel
      refine .working hst hd hc ?_ ?_ ?_
      · have hone : (pendingLoad .cancel i).code (.invoke i .cancel) = 1 := by simp [pendingLoad]
        rw [asked_frame, hone, if_pos rfl]
        dsimp only
        omega
      · simpa [Load.asked, Load.instr, pendingLoad] using hget
      · simpa [Load.asked, Load.instr, pendingLoad] using hclean
  | @getResult i identity bufferSize state x hs ho hid hb =>
    obtain ⟨hz, hd, hc, hw, hcancel⟩ := of_decide_eq_true hg state hs ho hid hb
    refine hI.at hs rfl (fun _ _ => rfl) (fun k j hne => ?_) fun hcall => ?_
    · simp [Load.asked, Load.instr, pendingLoad, Ne.symm hne]
    · obtain ⟨canceled, hst, -, hget, hclean⟩ := hcall.isWorking (hbegun hs hz rfl) hd hc
      refine .delivering hst rfl hc ?_ ?_ ?_ ?_
      · simpa [Load.asked, Load.instr, pendingLoad] using hw
      · simpa [Load.asked, Load.instr, pendingLoad] using hcancel
      · simp [Load.asked, Load.instr, pendingLoad] at hget ⊢
        omega
      · simpa [Load.asked, Load.instr, pendingLoad] using hclean
  | @cleanup i state x hs hc =>
    have hquiet := of_decide_eq_true hg state hs
    simp only [hc, Bool.false_eq_true, if_false] at hquiet
    obtain ⟨hz, hw, hcancel, hget⟩ := hquiet
    refine hI.at hs rfl (fun _ _ => rfl) (fun k j hne => ?_) fun hcall => ?_
    · simp [Load.asked, Load.instr, pendingLoad, Ne.symm hne]
    · obtain ⟨hst, hclean⟩ := hcall.isOpen (hbegun hs hz rfl) hc
      refine .closing hst rfl ?_ ?_ ?_ ?_
      · simpa [Load.asked, Load.instr, pendingLoad] using hw
      · simpa [Load.asked, Load.instr, pendingLoad] using hcancel
      · simpa [Load.asked, Load.instr, pendingLoad] using hget
      · simp [Load.asked, Load.instr, pendingLoad] at hclean ⊢
        omega
  | complete hs | didWork hs | beginFailed hs =>
    refine hI.at hs rfl (fun _ _ => rfl) (fun k j hne => ?_) fun hcall => ?_
    · simp [Load.asked, Load.instr, pendingLoad]
    · refine hcall.mono rfl rfl rfl fun k => ?_
      simp [Load.asked, Load.instr, pendingLoad]
  | @invoke i op state r x hs hi =>
    by_cases hop : op = .begin
    · subst hop
      have hone : (toBegin i).code (.invoke i .begin) = 1 := by simp [toBegin]
      have hfirst := honce i
      rw [hone] at hfirst
      have hnot : .begin ∉ s.mem.ops i := List.count_eq_zero.mp (by omega)
      have hnone := (hI.call i state hs).idle hnot
      -- the call is still parked, so a pass that `XAsyncRun` submits is its own
      have hpend : ∀ k j, (pendingLoad k j).asked r ≤ if k = .doWork ∧ i = j then 1 else 0 := by
        intro k j
        have hp := hi.pending k j
        cases hI.call i state hs with
        | parked hidle hd hc => simpa [halive i state hs hc] using hp
        | working hidle | delivering hidle | delivered hidle | closed hidle =>
          rw [hnone] at hidle
          cases hidle
        | closing hidle =>
          rw [hnone] at hidle
          rcases hidle with hidle | ⟨canceled, hidle⟩ <;> cases hidle
      refine hI.at hs (by rw [hi.same.1, set_at_self hs]) (fun j hne => ?_) (fun k j hne => ?_)
        fun hcall => ?_
      · rw [hi.ops, if_neg (Ne.symm hne)]
      · have hp := hpend k j
        rw [if_neg fun h => hne h.2.symm] at hp
        exact Nat.add_le_add_left (hp.trans (Nat.zero_le _)) _
      · rw [hnone] at hcall
        rw [hi.ops, if_pos rfl, hnone]
        have hother : ∀ k, k ≠ .doWork → (pendingLoad k i).asked r = 0 := by
          intro k hk
          have hp := hpend k i
          rw [if_neg fun h => hk h.1] at hp
          omega
        cases hcall with
        | parked hidle hd hc hcancel hg hk =>
          refine .working rfl hd hc ?_ ?_ ?_
          · have hnone := Nat.le_zero.mpr (Nat.add_eq_zero_iff.mp hcancel).1
            simpa [hother .cancel (by simp)] using hnone.trans (Nat.zero_le _)
          · simpa [hother .getResult (by simp)] using (Nat.add_eq_zero_iff.mp hg).1
          · simpa [hother .cleanup (by simp)] using (Nat.add_eq_zero_iff.mp hk).1
        | working hidle | delivering hidle | delivered hidle | closed hidle => cases hidle
        | closing hidle => rcases hidle with hidle | ⟨canceled, hidle⟩ <;> cases hidle
    have hzero : ∀ k j, (pendingLoad k j).asked r = 0 := by
      intro k j
      have hp := hi.pending k j
      simpa [hop] using hp
    refine hI.at hs (by rw [hi.same.1, set_at_self hs]) (fun j hne => ?_) (fun k j hne => ?_)
      fun hcall => ?_
    · rw [hi.ops, if_neg (Ne.symm hne)]
    · simp [hzero]
    · rw [hi.ops, if_pos rfl]
      have hb : op = .doWork → stageOf (s.mem.ops i) ≠ some .idle := by
        rintro rfl
        exact hbegun hs (of_decide_eq_true hg) rfl
      simpa [hzero] using hcall.invoked hop hb
  | queue hr =>
    subst hr
    refine hI.of_eq rfl (fun _ => rfl) fun k => ?_
    rw [asked_queue _ (pendingLoad_sees k.1 k.2)]
    exact Nat.le_add_right _ _
  | cleanedUp =>
    refine hI.of_eq (Memory.takeState_states ..) (fun i => ?_) fun k => ?_
    · rw [Memory.ops, Memory.takeState_log]
      rfl
    · simp [Load.asked]
  | beginReturn =>
    refine hI.of_eq (Memory.beginReturned_states ..) (fun i => Memory.beginReturned_ops ..) fun k => ?_
    simp [Load.asked]
  | unresolved =>
    refine hI.of_eq rfl (fun _ => rfl) fun k => ?_
    simp [Load.asked, Load.instr, pendingLoad, Function.comp_def]
  | _ =>
    refine hI.of_eq rfl (fun _ => rfl) fun k => ?_
    simp [Load.asked, Load.instr, Load.submission, pendingLoad]

end Steps

end XGameRuntime.XAsync
