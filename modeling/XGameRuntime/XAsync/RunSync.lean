import XGameRuntime.Concurrency.Traces
import XGameRuntime.XAsync.Payloads
import XGameRuntime.XAsync.Workers

/-! # What a call of `run_sync` reports

The result of a call of `run_sync` is in its context, and the worker completes the call with it. A
`DoWork` pass completes the call too, with the `S_OK` that `run_sync_helper` returns for it, whether
the future has returned or not.
-/

namespace XGameRuntime.XAsync
open Concurrency TaskQueue
set_option autoImplicit false

/-! ## What may be recorded -/

/-- The future of context `h` has returned `Ok`. -/
def Memory.produced (m : Memory) (h : ℕ) : Bool :=
  m.log.any fun
    | .future k (.ok _) => k = h
    | _ => false

theorem produced_iff {m : Memory} {h : ℕ} :
    m.produced h = true ↔ ∃ value, .future h (.ok value) ∈ m.log := by
  unfold Memory.produced
  rw [List.any_eq_true]
  constructor
  · rintro ⟨e, he, hk⟩
    split at hk
    · exact ⟨_, of_decide_eq_true hk ▸ he⟩
    · cases hk
  · rintro ⟨value, hv⟩
    exact ⟨_, hv, by simp⟩

/-- What is recorded for a call with context `h`: by a refused or canceled pass, by the worker, or by a
pass for a `T` without bytes whose value is there. -/
inductive Final (m : Memory) (h : ℕ) (canceled : Bool) : HRESULT → ℕ → Prop where
  | aborted (hc : canceled = true) : Final m h canceled E_ABORT 0
  | worker {helper : XsyncContextHelper} {j : Option ℕ} (hh : m.helpers[h]? = some helper)
      (hl : .workerCompletes h j ∈ m.log) : Final m h canceled helper.result helper.size
  | worked {helper : XsyncContextHelper} {hr : HRESULT} (hc : canceled = true)
      (hh : m.helpers[h]? = some helper) (hz : helper.size = 0) (hp : m.produced h = true) :
      Final m h canceled hr 0

/-- The return value says that call `i` has succeeded. -/
def Return.reports (i : ℕ) : Return → Bool
  | .getStatus (some j) hr | .getResultSize (some j) hr _ | .getResult j hr _ => j = i ∧ hr = S_OK
  | _ => false

/-! ## What is under way for a call -/

inductive Errand where
  /-- A `DoWork` pass, or a cancellation that may submit one. -/
  | passing (i : ℕ)
  | completes (i : ℕ) (result : HRESULT) (size : ℕ)
  | reporting (i : ℕ)
  | retrieving (i : ℕ)
  | handing (i : ℕ) (out : Option ℕ)

def Errand.call : Errand → ℕ
  | .passing i | .completes i _ _ | .reporting i | .retrieving i | .handing i _ => i

@[simp] def Code.passes (i : ℕ) : Code → Bool
  | .invoke j .doWork | .opReturn j .doWork | .afterOp j .doWork _ _ | .invoke j .cancel
  | .opReturn j .cancel | .afterOp j .cancel _ _ | .call j (.schedule _) => j = i
  | _ => false

@[simp] def Code.completesWith (i : ℕ) (result : HRESULT) (size : ℕ) : Code → Bool
  | .call j (.complete result' size') => j = i ∧ result' = result ∧ size' = size
  | _ => false

@[simp] def Code.reports (i : ℕ) : Code → Bool
  | .ret value => value.reports i
  | .invoke j .getResult | .opReturn j .getResult | .afterOp j .getResult _ _ => j = i
  | _ => false

@[simp] def Code.retrieves (i : ℕ) : Code → Bool
  | .invoke j .getResult => j = i
  | _ => false

@[simp] def Code.hands (i : ℕ) (out : Option ℕ) : Code → Bool
  | .afterOp j .getResult _ out' => j = i ∧ out' = out
  | .opReturn j .getResult => j = i ∧ none = out
  | .ret (.getResult j hr out') => j = i ∧ hr = S_OK ∧ out' = out
  | _ => false

def Errand.code : Errand → Code → Bool
  | .passing i => Code.passes i
  | .completes i result size => Code.completesWith i result size
  | .reporting i => Code.reports i
  | .retrieving i => Code.retrieves i
  | .handing i out => Code.hands i out

@[simp] def Callback.passes (i : ℕ) : Callback → Bool
  | .work j => j = i
  | _ => false

def Errand.callback : Errand → Callback → Bool
  | .passing i => Callback.passes i
  | .completes i result size => fun callback => callback.passes i && (E_ABORT = result ∧ 0 = size)
  | _ => fun _ => false

def Errand.load (t : Errand) : Load Callback Code where
  callback callback := if t.callback callback then 1 else 0
  code code := if t.code code then 1 else 0

theorem Errand.load_sees (t : Errand) : Sees t.load := by
  refine ⟨?_, ?_, fun id => ?_, fun callback canceled => ?_⟩
  · cases t <;> rfl
  · cases t <;> rfl
  · cases t <;> rfl
  · cases t <;> cases callback <;> cases canceled <;>
      simp [Callback.code, Errand.load, Errand.code, Errand.callback]

section Errands
variable {t : Errand} {i : ℕ}

@[simp] theorem Errand.code_game : t.code .game = false := by
  cases t <;> rfl

@[simp] theorem Errand.code_announce (result : HRESULT) : t.code (.announce i result) = false := by
  cases t <;> rfl

@[simp] theorem Errand.code_completionCallback (callback : ℕ) :
    t.code (.completionCallback i callback) = false := by
  cases t <;> rfl

@[simp] theorem Errand.code_cleanup : t.code (.cleanup i) = false := by
  cases t <;> rfl

@[simp] theorem Errand.code_beginReturn (hr : HRESULT) : t.code (.beginReturn i hr) = false := by
  cases t <;> rfl

@[simp] theorem Errand.code_futureReturn (h b : ℕ) : t.code (.futureReturn h b) = false := by
  cases t <;> rfl

@[simp] theorem Errand.code_completeBlock (h b : ℕ) : t.code (.completeBlock h b) = false := by
  cases t <;> rfl

@[simp] theorem Errand.callback_completion (callback : ℕ) :
    t.callback (.completion i callback) = false := by
  cases t <;> rfl

theorem Errand.other_call (h : t.call ≠ i) (c : XAsyncCall) : t.code (.call i c) = false := by
  cases t <;> cases c <;> simp [Errand.code] <;> exact fun hi => absurd hi.symm h

theorem Errand.other_invoke (h : t.call ≠ i) (op : XAsyncOp) : t.code (.invoke i op) = false := by
  cases t <;> cases op <;> simp [Errand.code] <;> exact fun hi => h hi.symm

theorem Errand.other_opReturn (h : t.call ≠ i) (op : XAsyncOp) :
    t.code (.opReturn i op) = false := by
  cases t <;> cases op <;> simp [Errand.code] <;> exact fun hi => absurd hi.symm h

theorem Errand.other_afterOp (h : t.call ≠ i) (op : XAsyncOp) (hr : HRESULT) (out : Option ℕ) :
    t.code (.afterOp i op hr out) = false := by
  cases t <;> cases op <;> simp [Errand.code] <;> exact fun hi => absurd hi.symm h

theorem Errand.other_getStatus (h : t.call ≠ i) (hr : HRESULT) :
    t.code (.ret (.getStatus (some i) hr)) = false := by
  cases t with
  | reporting j =>
    have hne : i ≠ j := Ne.symm h
    simp [Errand.code, Return.reports, hne]
  | _ => rfl

theorem Errand.other_getResultSize (h : t.call ≠ i) (hr : HRESULT) (size : ℕ) :
    t.code (.ret (.getResultSize (some i) hr size)) = false := by
  cases t with
  | reporting j =>
    have hne : i ≠ j := Ne.symm h
    simp [Errand.code, Return.reports, hne]
  | _ => rfl

theorem Errand.other_work (h : t.call ≠ i) : t.callback (.work i) = false := by
  cases t <;> simp [Errand.callback] <;> exact fun hi => absurd hi.symm h

end Errands

/-- What is known of a call of `run_sync` with context `h`. -/
structure Told (m : Memory) (L : Errand → ℕ) (i h : ℕ) (state : AsyncState) : Prop where
  passing : 0 < L (.passing i) → state.status ≠ E_PENDING ∨ state.canceled = true
  completes : ∀ result size, 0 < L (.completes i result size) →
    state.status ≠ E_PENDING ∨ Final m h state.canceled result size
  status : state.status ≠ E_PENDING → Final m h state.canceled state.status state.resultSize
  reporting : 0 < L (.reporting i) → state.status = S_OK
  retrieving : 0 < L (.retrieving i) → state.cleanedUp = false
  handing : ∀ out, 0 < L (.handing i out) → ∃ value, out = some value ∧
    .future h (.ok value) ∈ m.log
  reported : ∀ value, .returned value ∈ m.log → value.reports i = true → state.status = S_OK
  handed : ∀ out, .returned (.getResult i S_OK out) ∈ m.log → ∃ value, out = some value ∧
    .future h (.ok value) ∈ m.log

/-- What is known of all calls. -/
structure Recorded (m : Memory) (L : Errand → ℕ) : Prop where
  unborn : ∀ i, m.states[i]? = none → (∀ t : Errand, t.call = i → L t = 0) ∧
    ∀ value, .returned value ∈ m.log → value.reports i = false
  told : ∀ i h state, m.states[i]? = some state → state.provider = .runSync h → Told m L i h state

/-- What a section keeps of what is recorded: it writes no result of a context whose worker is through,
and reports nothing. -/
structure Keeps (m m' : Memory) : Prop where
  helpers : ∀ h helper, m.helpers[h]? = some helper → ∃ helper', m'.helpers[h]? = some helper' ∧
    helper'.size = helper.size ∧ ∀ j, .workerCompletes h j ∈ m.log → helper'.result = helper.result
  log : m.log <:+ m'.log

/-- No return value that reports a success is new. -/
def Silent (m m' : Memory) : Prop :=
  ∀ value, .returned value ∈ m'.log → .returned value ∈ m.log ∨ ∀ i, value.reports i = false

theorem Keeps.rfl {m : Memory} : Keeps m m :=
  ⟨fun _ helper hh => ⟨helper, hh, by trivial, fun _ _ => by trivial⟩, List.suffix_rfl⟩

theorem Silent.rfl {m : Memory} : Silent m m := fun _ hv => .inl hv

section Rules
variable {m m' : Memory} {L L' : Errand → ℕ}

theorem Keeps.produced (h : Keeps m m') {k : ℕ} (hp : m.produced k = true) :
    m'.produced k = true := by
  obtain ⟨value, hv⟩ := produced_iff.mp hp
  exact produced_iff.mpr ⟨value, h.log.subset hv⟩

theorem Final.keep {h size : ℕ} {canceled canceled' : Bool} {result : HRESULT}
    (hf : Final m h canceled result size) (hk : Keeps m m')
    (hc : canceled = true → canceled' = true) : Final m' h canceled' result size := by
  cases hf with
  | aborted hcanceled => exact .aborted (hc hcanceled)
  | worker hh hl =>
    obtain ⟨helper', hh', hsize, hresult⟩ := hk.helpers h _ hh
    rw [← hsize, ← hresult _ hl]
    exact .worker hh' (hk.log.subset hl)
  | worked hcanceled hh hz hp =>
    obtain ⟨helper', hh', hsize, -⟩ := hk.helpers h _ hh
    exact .worked (hc hcanceled) hh' (hsize.trans hz) (hk.produced hp)

section Call
variable {i h : ℕ} {state state' : AsyncState}

/-- The rule for a call whose status is not written: what is new is true of it. -/
theorem Told.of (hI : Told m L i h state) (hk : Keeps m m') (hret : Silent m m')
    (hstatus : state'.status = state.status) (hsize : state'.resultSize = state.resultSize)
    (hcanceled : state.canceled = true → state'.canceled = true)
    (hpassing : L' (.passing i) ≤ L (.passing i) ∨
      state'.status ≠ E_PENDING ∨ state'.canceled = true)
    (hcompletes : ∀ result size, L' (.completes i result size) ≤ L (.completes i result size) ∨
      state'.status ≠ E_PENDING ∨ Final m' h state'.canceled result size)
    (hreporting : L' (.reporting i) ≤ L (.reporting i) ∨ state'.status = S_OK)
    (hretrieving : 0 < L' (.retrieving i) → state'.cleanedUp = false)
    (hhanding : ∀ out, L' (.handing i out) ≤ L (.handing i out) ∨
      ∃ value, out = some value ∧ .future h (.ok value) ∈ m'.log) : Told m' L' i h state' := by
  refine ⟨fun hpos => ?_, fun result size hpos => ?_, fun hfinal => ?_, fun hpos => ?_, hretrieving,
    fun out hpos => ?_, fun value hv hr => ?_, fun out hv => ?_⟩
  · rcases hpassing with hle | hnew
    · exact (hI.passing (hpos.trans_le hle)).imp (hstatus ▸ ·) hcanceled
    · exact hnew
  · rcases hcompletes result size with hle | hnew
    · exact (hI.completes result size (hpos.trans_le hle)).imp (hstatus ▸ ·) (·.keep hk hcanceled)
    · exact hnew
  · rw [hstatus] at hfinal ⊢
    rw [hsize]
    exact (hI.status hfinal).keep hk hcanceled
  · rcases hreporting with hle | hnew
    · exact hstatus.trans (hI.reporting (hpos.trans_le hle))
    · exact hnew
  · rcases hhanding out with hle | hnew
    · obtain ⟨value, ho, hf⟩ := hI.handing out (hpos.trans_le hle)
      exact ⟨value, ho, hk.log.subset hf⟩
    · exact hnew
  · rcases hret value hv with hold | hno
    · exact hstatus.trans (hI.reported value hold hr)
    · simp [hno] at hr
  · rcases hret _ hv with hold | hno
    · obtain ⟨value, ho, hf⟩ := hI.handed out hold
      exact ⟨value, ho, hk.log.subset hf⟩
    · have hi := hno i
      simp [Return.reports] at hi

/-- The rule for a call that is not written. -/
theorem Told.keep (hI : Told m L i h state) (hk : Keeps m m') (hret : Silent m m')
    (hL : ∀ t, t.call = i → L' t ≤ L t) : Told m' L' i h state :=
  hI.of hk hret rfl rfl id (.inl (hL _ rfl)) (fun _ _ => .inl (hL _ rfl)) (.inl (hL _ rfl))
    (fun hpos => hI.retrieving (hpos.trans_le (hL (.retrieving i) rfl))) fun _ => .inl (hL _ rfl)

/-- The rule for a section that records the status of a pending call. -/
theorem Told.write (hI : Told m L i h state) (hk : Keeps m m') (hret : Silent m m')
    (hpending : state.status = E_PENDING) (hcanceled : state'.canceled = state.canceled)
    (hclean : state'.cleanedUp = state.cleanedUp)
    (hfinal : Final m h state.canceled state'.status state'.resultSize)
    (hL : ∀ t, t.call = i → L' t ≤ L t) : Told m' L' i h state' := by
  have hno : state.status ≠ S_OK := by
    rw [hpending]
    decide
  refine ⟨fun hpos => ?_, fun result size hpos => ?_, fun _ => hcanceled ▸ hfinal.keep hk id,
    fun hpos => ?_, fun hpos => ?_, fun out hpos => ?_, fun value hv hr => ?_, fun out hv => ?_⟩
  · exact .inr (hcanceled ▸
      (hI.passing (hpos.trans_le (hL (.passing i) rfl))).resolve_left (absurd hpending))
  · refine .inr (hcanceled ▸ Final.keep (Or.resolve_left ?_ (absurd hpending)) hk id)
    exact hI.completes result size (hpos.trans_le (hL (.completes i result size) rfl))
  · exact absurd (hI.reporting (hpos.trans_le (hL (.reporting i) rfl))) hno
  · exact hclean.trans (hI.retrieving (hpos.trans_le (hL (.retrieving i) rfl)))
  · obtain ⟨value, ho, hf⟩ := hI.handing out (hpos.trans_le (hL (.handing i out) rfl))
    exact ⟨value, ho, hk.log.subset hf⟩
  · rcases hret value hv with hold | hnone
    · exact absurd (hI.reported value hold hr) hno
    · simp [hnone] at hr
  · rcases hret _ hv with hold | hnone
    · obtain ⟨value, ho, hf⟩ := hI.handed out hold
      exact ⟨value, ho, hk.log.subset hf⟩
    · have hi := hnone i
      simp [Return.reports] at hi

end Call

theorem Recorded.mono (hI : Recorded m L) (hL : ∀ t, L' t ≤ L t) : Recorded m L' := by
  refine ⟨fun i hi => ?_, fun i h state hs hp => ?_⟩
  · obtain ⟨hz, hret⟩ := hI.unborn i hi
    exact ⟨fun t ht => Nat.le_zero.mp (hz t ht ▸ hL t), hret⟩
  · exact (hI.told i h state hs hp).keep .rfl .rfl fun t _ => hL t

/-- The rule for a step that writes one call at most. -/
theorem Recorded.at {i : ℕ} {state state' : AsyncState} (hI : Recorded m L) (hk : Keeps m m')
    (hs : m.states[i]? = some state) (hs' : m'.states = m.states.set i state')
    (hret : Silent m m')
    (hL : ∀ t, t.call ≠ i → L' t ≤ L t)
    (hi : ∀ h, state'.provider = .runSync h → Told m' L' i h state') : Recorded m' L' := by
  refine ⟨fun j hj => ?_, fun j h new hj hp => ?_⟩
  · have hne : j ≠ i := by
      rintro rfl
      rw [hs', getElem?_set_at state' hs] at hj
      simp at hj
    have hj' : m.states[j]? = none := by simpa [hs', List.getElem?_set, hne.symm] using hj
    obtain ⟨hz, hold⟩ := hI.unborn j hj'
    refine ⟨fun t ht => Nat.le_zero.mp (hz t ht ▸ hL t (ht ▸ hne)), fun value hv => ?_⟩
    exact (hret value hv).elim (hold value) (· j)
  · rcases getElem?_set_cases (hs' ▸ hj) with ⟨rfl, rfl⟩ | ⟨hne, hj⟩
    · exact hi h hp
    · exact (hI.told j h new hj hp).keep hk hret fun t ht => hL t (ht ▸ Ne.symm hne)

/-- The rule for a step that writes no call. -/
theorem Recorded.keep (hI : Recorded m L) (hk : Keeps m m') (hs : m'.states = m.states)
    (hret : Silent m m')
    (hL : ∀ t, L' t ≤ L t) : Recorded m' L' := by
  refine ⟨fun j hj => ?_, fun j h state hj hp => ?_⟩
  · obtain ⟨hz, hold⟩ := hI.unborn j (hs ▸ hj)
    exact ⟨fun t ht => Nat.le_zero.mp (hz t ht ▸ hL t),
      fun value hv => (hret value hv).elim (hold value) (· j)⟩
  · exact (hI.told j h state (hs ▸ hj) hp).keep hk hret fun t _ => hL t

end Rules

/-! ## The condition -/

/-- The condition under which a call of `run_sync` reports what its future returns. While the call is
pending, the game itself neither schedules nor completes it, no `XAsyncRun` whose block it has got in
the meantime schedules it, a `DoWork` pass that reaches it finds that the future has returned `Ok` and
that `T` has no bytes, and no worker of another call completes it. No future fails with `S_OK`, and a
call whose result somebody takes is not cleaned up before that. -/
def tellsOutcome (s : World Engine) (R : Multiset (Frame Callback Code)) : Code → Choice → Bool
  | .game, .xasync b (.schedule _) | .game, .xasync b (.complete _ _) =>
      decide (∀ i ∈ s.mem.stateOf b, ∀ state ∈ s.mem.states[i]?, state.status = E_PENDING →
        state.provider.context = none)
  | .invoke i .begin, _ => decide (∀ state ∈ s.mem.states[i]?, state.provider = .run →
      ∀ j ∈ s.mem.stateOf state.block, ∀ other ∈ s.mem.states[j]?, other.status = E_PENDING →
        other.provider.context = none)
  | .afterOp i .doWork _ _, _ => decide (∀ state ∈ s.mem.states[i]?, state.status = E_PENDING →
      ∀ h ∈ state.provider.context, s.mem.produced h = true ∧
        ∀ helper ∈ s.mem.helpers[h]?, helper.size = 0)
  | .completeBlock h b, _ => decide (∀ i ∈ s.mem.stateOf b, ∀ state ∈ s.mem.states[i]?,
      state.status = E_PENDING → ∀ k ∈ state.provider.context, k = h)
  | .futureReturn _ _, .returns hr => decide (hr ≠ S_OK)
  | .call i (.getResult identity bufferSize), _ => decide (∀ state ∈ s.mem.states[i]?,
      ∀ _ ∈ state.provider.context, state.status = S_OK →
        (identity = 0 ∨ identity = state.identity) → state.resultSize ≤ bufferSize →
        state.cleanedUp = false)
  | .cleanup i, _ => decide (∀ state ∈ s.mem.states[i]?, ∀ _ ∈ state.provider.context,
      state.cleanedUp = false → (Errand.retrieving i).load.total s.toCore R = 0)
  | _, _ => true

abbrev toldOutcome : Guard (World Engine) (Frame Callback Code) (Option Choice) := onCode tellsOutcome

section Steps
variable {m : Memory} {s : TaskQueues Callback} {code : Code} {x : Choice} {r : EngineStep}

theorem Steps.keepsRecords {L : Phase × ℕ → ℕ} (h : Steps m s code x r)
    (hw : Workers m fun k => L k + (workerIn k.1 k.2).code code) : Keeps m r.mem := by
  refine ⟨fun k helper hk => ?_, h.log⟩
  have hlt := (List.getElem?_eq_some_iff.mp hk).1
  cases h.stores with
  | kept hlog hhelpers =>
    have hlen : k < r.mem.helpers.length := by
      rcases h.helpers with he | ⟨-, he⟩ <;> omega
    obtain ⟨helper', hk'⟩ : ∃ helper', r.mem.helpers[k]? = some helper' :=
      ⟨_, List.getElem?_eq_getElem hlen⟩
    rcases hhelpers k helper' hk' with ⟨old, hold, hresult, hsize, -⟩ | ⟨rfl, -⟩
    · rw [hk, Option.some.injEq] at hold
      subst hold
      exact ⟨helper', hk', hsize, fun _ _ => hresult⟩
    · omega
  | @canceled j b old hcode hh hlog hhelpers =>
    rw [hhelpers]
    by_cases hj : j = k
    · subst hj
      rw [hk, Option.some.injEq] at hh
      subst hh
      refine ⟨_, getElem?_set_at _ hk, rfl, fun j' hl => ?_⟩
      have hz := (hw.ended j j' hl).2
      simp [hcode, workerIn] at hz
    · exact ⟨helper, by simpa [List.getElem?_set, hj] using hk, rfl, fun _ _ => rfl⟩
  | @returned j b old new result hcode hx hh hlog hhelpers hresult hsize hpayload =>
    rw [hhelpers]
    by_cases hj : j = k
    · subst hj
      rw [hk, Option.some.injEq] at hh
      subst hh
      refine ⟨new, getElem?_set_at _ hk, hsize, fun j' hl => ?_⟩
      have hz := (hw.ended j j' hl).2
      simp [hcode, workerIn] at hz
    · exact ⟨helper, by simpa [List.getElem?_set, hj] using hk, rfl, fun _ _ => rfl⟩

theorem Begins.reports {b identity : ℕ} {provider : Provider}
    (h : Begins m s b identity provider r) {value : Return} (hv : .returned value ∈ r.mem.log) :
    .returned value ∈ m.log ∨ ∀ i, value.reports i = false := by
  cases h with
  | rejected | unrouted =>
    cases provider <;> simp only [Memory.beginReturned, Memory.record_log, List.mem_cons,
      Event.returned.injEq, reduceCtorEq, false_or, Memory.setBlock_log] at hv <;>
    · rcases hv with rfl | hv
      · exact .inr fun _ => rfl
      · exact .inl hv
  | parked hb hn hroute hq hm hstate =>
    left
    subst hm hstate
    simpa using hv

/-- What a return leaves in the history. -/
theorem Steps.reports (h : Steps m s code x r) {value : Return} (hv : .returned value ∈ r.mem.log) :
    .returned value ∈ m.log ∨ code = .ret value ∨ ∀ i, value.reports i = false := by
  have hbegin : ∀ {b identity : ℕ} {provider : Provider} {r : EngineStep} {n : Memory},
      n.log = m.log → Begins n s b identity provider r → .returned value ∈ r.mem.log →
        .returned value ∈ m.log ∨ code = .ret value ∨ ∀ i, value.reports i = false := by
    intro b identity provider r n hn hb hv
    exact (hn ▸ hb.reports hv).imp_right .inr
  cases h with
  | begin h | run h => exact hbegin rfl h hv
  | runSync _ h => exact hbegin (n := m.newHelper _) rfl h hv
  | invoke _ hi => cases hi <;> exact .inl (by simpa using hv)
  | nullProvider | begun =>
    simp only [Memory.record_log, List.mem_cons, Event.returned.injEq] at hv
    rcases hv with rfl | hv
    · exact .inr (.inr fun _ => rfl)
    · exact .inl hv
  | ret =>
    simp only [Memory.record_log, List.mem_cons, Event.returned.injEq] at hv
    rcases hv with rfl | hv
    · exact .inr (.inl rfl)
    · exact .inl hv
  | @beginReturn i hr state x hs =>
    cases hp : state.provider <;> simp only [Memory.beginReturned, hp, Memory.record_log,
      List.mem_cons, Event.returned.injEq, reduceCtorEq, false_or] at hv <;>
    · rcases hv with rfl | hv
      · exact .inr (.inr fun _ => rfl)
      · exact .inl hv
  | cleanedUp => exact .inl (by simpa using hv)
  | _ => exact .inl (by simpa using hv)

/-- A new call is pending. -/
theorem Begins.pending {b identity : ℕ} {provider : Provider}
    (h : Begins m s b identity provider r) : r.mem.states = m.states ∨
      ∃ state : AsyncState, r.mem.states = m.states ++ [state] ∧ state.status = E_PENDING := by
  cases h with
  | rejected | unrouted => exact .inl (Memory.beginReturned_states ..)
  | @parked route q routed state hb hn hroute hq hm hstate =>
    refine .inr ⟨state, ?_, by rw [hstate]⟩
    rw [hm]
    rfl

theorem Recorded.begins {L : Errand → ℕ} {n : Memory} {b identity : ℕ} {provider : Provider}
    (hI : Recorded m L) (hn : n.states = m.states) (hl : n.log = m.log)
    (h : Begins n s b identity provider r) (hk : Keeps m r.mem) :
    Recorded r.mem fun t => L t + t.load.asked (resume r) := by
  have hret : Silent m r.mem := fun value hv => hl ▸ h.reports hv
  have hasked : ∀ t : Errand, t.load.asked (resume r) = 0 := by
    intro t
    rw [asked_resume _ t.load_sees, h.asked _ fun i => ?_]
    cases t <;> rfl
  simp only [hasked, Nat.add_zero]
  rcases h.pending with hstates | ⟨state, hstates, hpending⟩
  · exact hI.keep hk (hstates.trans hn) hret fun t => Nat.le_refl _
  rw [hn] at hstates
  refine ⟨fun i hi => ?_, fun i k new hi hp => ?_⟩
  · have hlen : m.states.length < i := by
      rw [hstates, List.getElem?_eq_none_iff, List.length_append, List.length_singleton] at hi
      omega
    obtain ⟨hzero, hold⟩ := hI.unborn i (List.getElem?_eq_none_iff.mpr hlen.le)
    exact ⟨hzero, fun value hv => (hret value hv).elim (hold value) (· i)⟩
  · rw [hstates] at hi
    rcases getElem?_push_cases hi with hold | ⟨rfl, rfl⟩
    · exact (hI.told i k new hold hp).keep hk hret fun t _ => Nat.le_refl _
    · -- nothing is known of a new call
      have hnone : m.states[m.states.length]? = none := by simp
      obtain ⟨hzero, hold⟩ := hI.unborn _ hnone
      have hL : ∀ t : Errand, t.call = m.states.length → ¬ 0 < L t :=
        fun t ht => Nat.not_lt.mpr (hzero t ht).le
      have hno : ∀ value, .returned value ∈ r.mem.log → value.reports m.states.length = false :=
        fun value hv => (hret value hv).elim (hold value) (· _)
      refine ⟨fun hpos => absurd hpos (hL (.passing _) rfl), fun _ _ hpos =>
        absurd hpos (hL (.completes ..) rfl), fun hs => absurd hpending hs,
        fun hpos => absurd hpos (hL (.reporting _) rfl), fun hpos =>
        absurd hpos (hL (.retrieving _) rfl), fun _ hpos => absurd hpos (hL (.handing ..) rfl),
        fun value hv hr => ?_, fun out hv => ?_⟩
      · simp [hno value hv] at hr
      · have hr := hno _ hv
        simp [Return.reports] at hr

/-- `S_OK` is recorded with the payload. -/
theorem Final.ok {h size : ℕ} {canceled : Bool} {L : Phase × ℕ → ℕ}
    (hf : Final m h canceled S_OK size) (hw : Workers m L)
    (herr : ∀ k, .future k (.err S_OK) ∉ m.log) :
    ∃ helper value, m.helpers[h]? = some helper ∧ helper.size = size ∧
      .future h (.ok value) ∈ m.log := by
  generalize hr : S_OK = result at hf
  cases hf with
  | aborted => cases hr
  | @worker helper j hh hl =>
    rcases hw.early h helper hh with he | ⟨result, hfuture⟩
    · rw [he] at hr
      cases hr
    · have hresult := hw.result h helper result hh hfuture
      cases result with
      | ok value => exact ⟨helper, value, hh, rfl, hfuture⟩
      | err e =>
        have hok : e = S_OK := hresult.symm.trans hr.symm
        exact absurd (hok ▸ hfuture) (herr h)
  | @worked helper hr' hc hh hz hp =>
    obtain ⟨value, hv⟩ := produced_iff.mp hp
    exact ⟨helper, value, hh, hz, hv⟩

/-- The rule for a call that is about to return a value other than a result. -/
theorem Recorded.announces {L : Errand → ℕ} {i : ℕ} {state : AsyncState} {value : Return}
    (hI : Recorded m L) (hs : m.states[i]? = some state)
    (hother : ∀ t : Errand, t.call ≠ i → t.code (.ret value) = false)
    (hok : value.reports i = true → state.status = S_OK)
    (hvalue : ∀ out, (Errand.handing i out).code (.ret value) = false) :
    Recorded m fun t => L t + t.load.code (.ret value) := by
  refine hI.at .rfl hs (set_at_self hs).symm .rfl (fun t ht => ?_) fun k hp => ?_
  · simp [Errand.load, hother t ht]
  · have htold := hI.told i k state hs hp
    refine htold.of .rfl .rfl rfl rfl id (.inl ?_)
      (fun _ _ => .inl ?_) ?_ (fun hpos => htold.retrieving (hpos.trans_le ?_)) fun out => .inl ?_
    · simp [Errand.load, Errand.code]
    · simp [Errand.load, Errand.code]
    · by_cases hr : value.reports i = true
      · exact .inr (hok hr)
      · left
        simp [Errand.load, Errand.code, hr]
    · simp [Errand.load, Errand.code]
    · simp [Errand.load, hvalue out]

/-! ### The sections that leave something new -/

section Sections
variable {L : Errand → ℕ} {i : ℕ} {state : AsyncState}

theorem Recorded.resolved {c : XAsyncCall} (hI : Recorded m L)
    (hs : m.states[i]? = some state)
    (hfinal : ∀ k, state.provider = .runSync k → (∃ d, c = .schedule d) ∨
      (∃ result size, c = .complete result size) → state.status ≠ E_PENDING) :
    Recorded m fun t => L t + t.load.code (.call i c) := by
  refine hI.at .rfl hs (set_at_self hs).symm .rfl (fun t ht => ?_) fun k hp => ?_
  · simp [Errand.load, Errand.other_call ht]
  · have htold := hI.told i k state hs hp
    refine htold.of .rfl .rfl rfl rfl id ?_ (fun result size => ?_) (.inl ?_)
      (fun hpos => htold.retrieving (hpos.trans_le ?_)) fun out => .inl ?_
    · cases c with
      | schedule d => exact .inr (.inl (hfinal k hp (.inl ⟨d, rfl⟩)))
      | _ => exact .inl (by simp [Errand.load, Errand.code])
    · cases c with
      | complete result size => exact .inr (.inl (hfinal k hp (.inr ⟨result, size, rfl⟩)))
      | _ => exact .inl (by simp [Errand.load, Errand.code])
    · simp [Errand.load, Errand.code]
    · simp [Errand.load, Errand.code]
    · simp [Errand.load, Errand.code]

/-- What may submit a pass for a call finds it canceled, or final. -/
theorem Recorded.ready (hI : Recorded m fun t => L t + t.load.code code)
    (hs : m.states[i]? = some state) (hpassing : (Errand.passing i).code code = true) {k : ℕ}
    (hp : state.provider = .runSync k) : state.status ≠ E_PENDING ∨ state.canceled = true :=
  (hI.told i k state hs hp).passing (by simp [Errand.load, hpassing])

/-- A pass is submitted for a call that is canceled, or final. -/
theorem Recorded.submits {r : EngineStep} (hI : Recorded m fun t => L t + t.load.code code)
    (hs : m.states[i]? = some state) (hk : Keeps m r.mem) (hret : Silent m r.mem)
    (hstates : r.mem.states = m.states)
    (hready : ∀ k, state.provider = .runSync k → state.status ≠ E_PENDING ∨ state.canceled = true)
    (hasked : ∀ t : Errand, t.load.asked r ≤ t.load.callback (.work i)) :
    Recorded r.mem fun t => L t + t.load.asked r := by
  refine hI.at hk hs (hstates.trans (set_at_self hs).symm) hret (fun t ht => ?_) fun k hp => ?_
  · have hle := hasked t
    simp only [Errand.load, Errand.other_work ht] at hle ⊢
    simp only [Bool.false_eq_true, if_false] at hle
    omega
  · have htold := hI.told i k state hs hp
    have hcanceled := hready k hp
    refine htold.of hk hret rfl rfl id (.inr hcanceled) (fun result size => ?_) (.inl ?_)
      (fun hpos => htold.retrieving (hpos.trans_le ?_)) fun out => .inl ?_
    · by_cases habort : E_ABORT = result ∧ 0 = size
      · obtain ⟨rfl, rfl⟩ := habort
        exact .inr (hcanceled.imp_right .aborted)
      · left
        have hle := hasked (.completes i result size)
        simp [Errand.load, Errand.callback, habort] at hle ⊢
        omega
    · have hle := hasked (.reporting i)
      simp [Errand.load, Errand.callback] at hle ⊢
      omega
    · have hle := hasked (.retrieving i)
      simp [Errand.load, Errand.callback] at hle ⊢
      omega
    · have hle := hasked (.handing i out)
      simp [Errand.load, Errand.callback] at hle ⊢
      omega

/-- A final status is recorded for a pending call. -/
theorem Recorded.writes {state' : AsyncState} (hI : Recorded m fun t => L t + t.load.code code)
    (hs : m.states[i]? = some state) (hr : r.mem = m.setState i state')
    (hprov : state'.provider = state.provider) (hpending : state.status = E_PENDING)
    (hcanceled : state'.canceled = state.canceled) (hclean : state'.cleanedUp = state.cleanedUp)
    (hfinal : ∀ k, state.provider = .runSync k →
      Final m k state.canceled state'.status state'.resultSize)
    (hasked : ∀ t : Errand, t.load.asked r = 0) :
    Recorded r.mem fun t => L t + t.load.asked r := by
  simp only [hasked, Nat.add_zero]
  rw [hr]
  have hk : Keeps m (m.setState i state') := ⟨Keeps.rfl.helpers, List.suffix_rfl⟩
  refine hI.at hk hs rfl (fun value hv => .inl hv) (fun t _ => Nat.le_add_right _ _) fun k hp => ?_
  have hp' := hprov.symm.trans hp
  exact (hI.told i k state hs hp').write hk (fun value hv => .inl hv) hpending hcanceled hclean
    (hfinal k hp') fun t _ => Nat.le_add_right _ _

theorem Recorded.takes (hI : Recorded m L) (hs : m.states[i]? = some state)
    (ho : state.status = S_OK)
    (hopen : ∀ k, state.provider = .runSync k → state.cleanedUp = false) :
    Recorded (m.setState i { state with delivering := true })
      fun t => L t + t.load.code (.invoke i .getResult) := by
  have hk : Keeps m (m.setState i { state with delivering := true }) :=
    ⟨Keeps.rfl.helpers, List.suffix_rfl⟩
  refine hI.at hk hs rfl (fun value hv => .inl hv) (fun t ht => ?_) fun k hp => ?_
  · simp [Errand.load, Errand.other_invoke ht]
  · refine (hI.told i k state hs hp).of hk (fun value hv => .inl hv) rfl rfl id (.inl ?_)
      (fun _ _ => .inl ?_) (.inr ho) (fun _ => hopen k hp) fun out => .inl ?_
    · simp [Errand.load, Errand.code]
    · simp [Errand.load, Errand.code]
    · simp [Errand.load, Errand.code]

theorem Recorded.cancels (hI : Recorded m L) (hs : m.states[i]? = some state) :
    Recorded (m.setState i { state with canceled := true })
      fun t => L t + t.load.code (.invoke i .cancel) := by
  have hk : Keeps m (m.setState i { state with canceled := true }) :=
    ⟨Keeps.rfl.helpers, List.suffix_rfl⟩
  refine hI.at hk hs rfl (fun value hv => .inl hv) (fun t ht => ?_) fun k hp => ?_
  · simp [Errand.load, Errand.other_invoke ht]
  · have htold := hI.told i k state hs hp
    refine htold.of hk (fun value hv => .inl hv) rfl rfl (fun _ => rfl) (.inr (.inr rfl))
      (fun _ _ => .inl ?_) (.inl ?_) (fun hpos => htold.retrieving (hpos.trans_le ?_)) fun out => .inl ?_
    · simp [Errand.load, Errand.code]
    · simp [Errand.load, Errand.code]
    · simp [Errand.load, Errand.code]
    · simp [Errand.load, Errand.code]

theorem Recorded.cleans (hI : Recorded m L) (hs : m.states[i]? = some state)
    (hz : ∀ k, state.provider = .runSync k → L (.retrieving i) = 0) :
    Recorded (m.setState i { state with cleanedUp := true })
      fun t => L t + t.load.code (.invoke i .cleanup) := by
  have hk : Keeps m (m.setState i { state with cleanedUp := true }) :=
    ⟨Keeps.rfl.helpers, List.suffix_rfl⟩
  refine hI.at hk hs rfl (fun value hv => .inl hv) (fun t ht => ?_) fun k hp => ?_
  · simp [Errand.load, Errand.other_invoke ht]
  · refine (hI.told i k state hs hp).of hk (fun value hv => .inl hv) rfl rfl id (.inl ?_)
      (fun _ _ => .inl ?_) (.inl ?_) (fun hpos => ?_) fun out => .inl ?_
    · simp [Errand.load, Errand.code]
    · simp [Errand.load, Errand.code]
    · simp [Errand.load, Errand.code]
    · rw [hz k hp] at hpos
      simp [Errand.load, Errand.code] at hpos
    · simp [Errand.load, Errand.code]

/-- A worker completes the call that its block drives. -/
theorem Recorded.completes {m' : Memory} {h : ℕ} {j : Option ℕ} {helper : XsyncContextHelper}
    (hI : Recorded m L) (hs : m.states[i]? = some state) (hk : Keeps m m') (hret : Silent m m')
    (hstates : m'.states = m.states) (hh : m'.helpers[h]? = some helper)
    (hl : .workerCompletes h j ∈ m'.log)
    (hown : ∀ k, state.provider = .runSync k → state.status = E_PENDING → k = h) :
    Recorded m' fun t => L t + t.load.code (.call i (.complete helper.result helper.size)) := by
  refine hI.at hk hs (hstates.trans (set_at_self hs).symm) hret (fun t ht => ?_) fun k hp => ?_
  · simp [Errand.load, Errand.other_call ht]
  · have htold := hI.told i k state hs hp
    refine htold.of hk hret rfl rfl id (.inl ?_) (fun result size => ?_) (.inl ?_)
      (fun hpos => htold.retrieving (hpos.trans_le ?_)) fun out => .inl ?_
    · simp [Errand.load, Errand.code]
    · by_cases hsame : helper.result = result ∧ helper.size = size
      · obtain ⟨rfl, rfl⟩ := hsame
        right
        by_cases hpending : state.status = E_PENDING
        · obtain rfl := hown k hp hpending
          exact .inr (.worker hh hl)
        · exact .inl hpending
      · left
        simp [Errand.load, Errand.code, hsame]
    · simp [Errand.load, Errand.code]
    · simp [Errand.load, Errand.code]
    · simp [Errand.load, Errand.code]

/-- `run_sync_helper` hands out the payload of its call. -/
theorem Recorded.hands {h : ℕ} {helper : XsyncContextHelper} {W : Phase × ℕ → ℕ}
    (hI : Recorded m fun t => L t + t.load.code (.invoke i .getResult))
    (hs : m.states[i]? = some state) (hp : state.provider = .runSync h)
    (hh : m.helpers[h]? = some helper) (hw : Workers m W) (hpayload : m.KeepsPayloads)
    (howners : Owners m) (herr : ∀ k, .future k (.err S_OK) ∉ m.log) :
    Recorded m fun t => L t + t.load.code (.afterOp i .getResult S_OK
      (if helper.result = S_OK then helper.payload else none)) := by
  refine hI.at .rfl hs (set_at_self hs).symm .rfl (fun t ht => ?_) fun k hp' => ?_
  · simp [Errand.load, Errand.other_afterOp ht]
  obtain rfl := Provider.runSync.inj (hp.symm.trans hp')
  have htold := hI.told i h state hs hp
  have hok : state.status = S_OK := htold.reporting (by simp [Errand.load, Errand.code])
  have hopen : state.cleanedUp = false := htold.retrieving (by simp [Errand.load, Errand.code])
  have hfinal := htold.status (by rw [hok]; decide)
  rw [hok] at hfinal
  obtain ⟨helper', value, hh', -, hv⟩ := hfinal.ok hw herr
  rw [hh, Option.some.injEq] at hh'
  subst hh'
  have hresult : helper.result = S_OK := hw.result h helper _ hh hv
  have hheld : helper.payload = some value := by
    refine (hpayload h helper value hh hv).resolve_right ?_
    rintro ⟨j, other, hj, hpj, hc⟩
    obtain rfl := howners.unique j i h ⟨other, hj, hpj⟩ ⟨state, hs, hp⟩
    rw [hs, Option.some.injEq] at hj
    subst hj
    simp [hopen] at hc
  refine htold.of .rfl .rfl rfl rfl id (.inl ?_) (fun _ _ => .inl ?_) (.inr hok) (fun _ => hopen)
    fun out => ?_
  · simp [Errand.load, Errand.code]
  · simp [Errand.load, Errand.code]
  · rw [if_pos hresult, hheld]
    by_cases hout : some value = out
    · exact .inr ⟨value, hout.symm, hv⟩
    · left
      simp [Errand.load, Errand.code, hout]

/-- A provider of another kind. -/
theorem Recorded.unknown {r : EngineStep} (hI : Recorded m L) (hs : m.states[i]? = some state)
    (hk : Keeps m r.mem) (hret : Silent m r.mem) (hstates : r.mem.states = m.states)
    (hp : ∀ k, state.provider ≠ .runSync k)
    (hasked : ∀ t : Errand, t.call ≠ i → t.load.asked r = 0) :
    Recorded r.mem fun t => L t + t.load.asked r := by
  refine hI.at hk hs (hstates.trans (set_at_self hs).symm) hret (fun t ht => ?_)
    fun k hprov => absurd hprov (hp k)
  rw [hasked t ht, Nat.add_zero]

theorem Recorded.invokes {op : XAsyncOp} {W : Phase × ℕ → ℕ} {r : EngineStep}
    (hI : Recorded m fun t => L t + t.load.code (.invoke i op))
    (hs : m.states[i]? = some state) (hi : Invokes m i state op r)
    (hother : op = .begin → state.provider = .run → ∀ j ∈ m.stateOf state.block,
      ∃ other, m.states[j]? = some other ∧ ∀ k, other.provider = .runSync k →
        other.status ≠ E_PENDING)
    (hk : Keeps m r.mem) (hret : Silent m r.mem) (hw : Workers m W) (hpayload : m.KeepsPayloads)
    (howners : Owners m) (herr : ∀ k, .future k (.err S_OK) ∉ m.log) :
    Recorded r.mem fun t => L t + t.load.asked r := by
  have hquiet : Recorded m L := hI.mono fun t => Nat.le_add_right _ _
  have hstates := hi.same.1
  cases hi with
  | game hp =>
    refine hquiet.unknown hs hk hret hstates (by simp [hp]) fun t ht => ?_
    simp [Load.asked, Load.instr, Errand.load, Errand.other_opReturn ht]
  | runLost hp =>
    refine hquiet.unknown hs hk hret hstates (by simp [hp]) fun t ht => ?_
    simp [Load.asked, Load.instr, Errand.load, Errand.other_afterOp ht]
  | @runBegin j q hp hj =>
    obtain ⟨other, ho, hfinal⟩ := hother rfl hp j hj
    refine hI.submits ho hk hret hstates (fun k hprov => .inl (hfinal k hprov)) fun t => ?_
    cases t <;> simp [Load.asked, Load.instr, Load.submission, Errand.load, Errand.code]
  | runSyncBegin hp hh =>
    refine hI.keep hk hstates hret fun t => ?_
    cases t <;> simp [Load.asked, Load.instr, Load.submission, Errand.load, Errand.code,
      Errand.callback, runSyncSubmission]
  | runDoWork hp =>
    refine hquiet.unknown hs hk hret hstates (by simp [hp]) fun t ht => ?_
    simp [Load.asked, Load.instr, Errand.load, Errand.other_opReturn ht]
  | runOther hp =>
    refine hquiet.unknown hs hk hret hstates (by simp [hp]) fun t ht => ?_
    simp [Load.asked, Load.instr, Errand.load, Errand.other_afterOp ht]
  | runSyncDoWork hp hh =>
    refine hI.keep hk hstates hret fun t => ?_
    cases t <;> simp [Load.asked, Load.instr, Errand.load, Errand.code]
  | runSyncGetResult hp hh =>
    have hands := hI.hands hs hp hh hw hpayload howners herr
    refine hands.keep hk hstates hret fun t => ?_
    rw [asked_frame]
  | runSyncCancel hp hh =>
    refine hI.keep hk hstates hret fun t => ?_
    cases t <;> simp [Load.asked, Load.instr, Errand.load, Errand.code]
  | runSyncCleanup hp hh =>
    refine hI.keep hk hstates hret fun t => ?_
    cases t <;> simp [Load.asked, Load.instr, Errand.load, Errand.code]

/-- A call returns what was to be returned. -/
theorem Recorded.returns {value : Return} (hI : Recorded m fun t => L t + t.load.code (.ret value)) :
    Recorded (m.record (.returned value)) L := by
  have hk : Keeps m (m.record (.returned value)) :=
    ⟨Keeps.rfl.helpers, List.suffix_cons _ _⟩
  have hmem : ∀ v, .returned v ∈ (m.record (.returned value)).log → v = value ∨
      .returned v ∈ m.log := by
    intro v hv
    simpa using hv
  refine ⟨fun j hj => ?_, fun j k state hs hp => ?_⟩
  · obtain ⟨hz, hold⟩ := hI.unborn j hj
    refine ⟨fun t ht => (Nat.add_eq_zero_iff.mp (hz t ht)).1, fun v hv => ?_⟩
    rcases hmem v hv with rfl | hv
    · have hz' := (Nat.add_eq_zero_iff.mp (hz (.reporting j) rfl)).2
      by_contra hr
      rw [Bool.not_eq_false] at hr
      simp [Errand.load, Errand.code, hr] at hz'
    · exact hold v hv
  · have htold := hI.told j k state hs hp
    have hold : Told m L j k state := htold.keep .rfl .rfl fun t _ => Nat.le_add_right _ _
    refine ⟨hold.passing, fun result size hpos => (hold.completes result size hpos).imp_right
      (·.keep hk id), fun hfinal => (hold.status hfinal).keep hk id, hold.reporting, hold.retrieving,
      fun out hpos => ?_, fun v hv hr => ?_, fun out hv => ?_⟩
    · obtain ⟨payload, ho, hf⟩ := hold.handing out hpos
      exact ⟨payload, ho, hk.log.subset hf⟩
    · rcases hmem v hv with rfl | hv
      · exact htold.reporting (by simp [Errand.load, Errand.code, hr])
      · exact hold.reported v hv hr
    · have hhanded : ∃ payload, out = some payload ∧ .future k (.ok payload) ∈ m.log := by
        rcases hmem _ hv with rfl | hv
        · exact htold.handing out (by simp [Errand.load, Errand.code])
        · exact hold.handed out hv
      obtain ⟨payload, ho, hf⟩ := hhanded
      exact ⟨payload, ho, hk.log.subset hf⟩

end Sections

theorem recorded_step {s : World Engine} {R : Multiset (Frame Callback Code)}
    (h : Steps s.mem s.toTaskQueues code x r) (hg : tellsOutcome s R code x = true)
    (hw : Workers s.mem fun k =>
      (workerIn k.1 k.2).total s.toCore R + (workerIn k.1 k.2).code code)
    (hpayload : s.mem.KeepsPayloads) (howners : Owners s.mem)
    (hfail : ∀ i k, s.mem.Runs i k → (failing i).code code = 0)
    (hparked : ∀ b i, s.mem.stateOf b = some i → ∃ state, s.mem.states[i]? = some state)
    (herr : ∀ k, .future k (.err S_OK) ∉ s.mem.log)
    (hI : Recorded s.mem fun t => t.load.total s.toCore R + t.load.code code) :
    Recorded r.mem fun t => t.load.total s.toCore R + t.load.asked r := by
  have hk := h.keepsRecords hw
  have hret : (∀ value, code ≠ .ret value) → Silent s.mem r.mem :=
    fun hne value hv => (h.reports hv).imp_right fun hor => hor.resolve_left (hne value)
  have hquiet : Recorded s.mem fun t => t.load.total s.toCore R :=
    hI.mono fun t => Nat.le_add_right _ _
  have hcontext : ∀ {state : AsyncState} {k : ℕ}, state.provider = .runSync k →
      k ∈ state.provider.context := fun hp => by simp [hp, Provider.context]
  cases h with
  | queue hr =>
    subst hr
    refine hI.keep hk rfl (hret (by simp)) fun t => ?_
    rw [asked_queue _ t.load_sees]
    exact Nat.le_add_right _ _
  | begin h | run h => exact hquiet.begins rfl rfl h hk
  | @runSync b size r hb h =>
    exact hquiet.begins (n := s.mem.newHelper size) rfl rfl h hk
  | @unresolved b c hb =>
    refine hI.keep hk rfl (hret (by simp)) fun t => ?_
    cases c <;> cases t <;>
      simp [Load.asked, Load.instr, Errand.load, XAsyncCall.illegal, Errand.code, Return.reports]
  | @resolved b i c hb =>
    obtain ⟨state, hs⟩ := hparked b i hb
    have hfinal : ∀ k, state.provider = .runSync k → (∃ d, c = .schedule d) ∨
        (∃ result size, c = .complete result size) → state.status ≠ E_PENDING := by
      rintro k hp (⟨d, rfl⟩ | ⟨result, size, rfl⟩) hpending
      · have hnone := of_decide_eq_true hg i hb state hs hpending
        simp [hp, Provider.context] at hnone
      · have hnone := of_decide_eq_true hg i hb state hs hpending
        simp [hp, Provider.context] at hnone
    refine (hquiet.resolved hs hfinal).mono fun t => ?_
    simp [Load.asked, Load.instr, Errand.load]
  | ret =>
    refine hI.returns.mono fun t => ?_
    simp [Load.asked]
  | @schedule i delayInMs state x hs =>
    refine hI.submits hs hk (hret (by simp)) rfl
      (fun k hp => hI.ready hs (by simp [Errand.code]) hp) fun t => ?_
    cases t <;>
      simp [Load.asked, Load.instr, Load.submission, Errand.load, Errand.code, Errand.callback,
        Return.reports]
  | @complete i size result state x hs hp =>
    refine hI.writes hs rfl rfl hp rfl rfl (fun k hprov => ?_) fun t => ?_
    · have hcode : 0 < (Errand.completes i result size).load.code (.call i (.complete result size)) := by
        simp [Errand.load, Errand.code]
      have hor := (hI.told i k state hs hprov).completes result size (by omega)
      exact hor.resolve_left (absurd hp)
    · simp [Load.asked, Load.instr, Errand.load]
  | @getStatus i wait state x hs hkind =>
    refine (hquiet.announces hs (fun t ht => Errand.other_getStatus ht state.status) ?_ fun _ => rfl).mono
      fun t => ?_
    · simp [Return.reports]
    · simp [Load.asked, Load.instr]
  | @getStatusCleanup i wait state x hs hp hz =>
    refine (hquiet.announces hs (fun t ht => Errand.other_getStatus ht state.status) ?_ fun _ => rfl).mono
      fun t => ?_
    · simp [Return.reports]
    · simp [Load.asked, Load.instr, Errand.load]
  | getResultSizeNull =>
    refine hI.keep hk rfl (hret (by simp)) fun t => ?_
    cases t <;> simp [Load.asked, Load.instr, Errand.load, Errand.code, Return.reports]
  | @getResultSize i size state x hs =>
    refine (hquiet.announces hs (fun t ht => Errand.other_getResultSize ht state.status size) ?_
      fun _ => rfl).mono fun t => ?_
    · simp [Return.reports]
    · simp [Load.asked, Load.instr]
  | @getResultRefused i identity bufferSize hr state x hs hkind =>
    refine hI.keep hk rfl (hret (by simp)) fun t => ?_
    cases t <;> simp [Load.asked, Load.instr, Errand.load, Errand.code, Return.reports]
  | @getResultFailed i identity bufferSize state x hs hp ho =>
    refine hI.keep hk rfl (hret (by simp)) fun t => ?_
    cases t <;> simp [Load.asked, Load.instr, Errand.load, Errand.code, Return.reports, ho]
  | @getResult i identity bufferSize state x hs ho hid hb =>
    have hopen : ∀ k, state.provider = .runSync k → state.cleanedUp = false :=
      fun k hp => of_decide_eq_true hg state hs k (hcontext hp) ho hid hb
    refine (hquiet.takes hs ho hopen).mono fun t => ?_
    rw [asked_frame]
  | @cancel i state x hs hp hc =>
    refine (hquiet.cancels hs).mono fun t => ?_
    rw [asked_frame]
  | @invoke i op state r x hs hi =>
    refine hI.invokes hs hi (fun ho hp j hj => ?_) hk (hret (by simp)) hw hpayload howners herr
    subst ho
    obtain ⟨other, hother⟩ := hparked _ j hj
    refine ⟨other, hother, fun k hprov hpending => ?_⟩
    have hnone := of_decide_eq_true hg state hs hp j hj other hother hpending
    simp [hprov, Provider.context] at hnone
  | @opReturn i op hr =>
    refine hI.keep hk rfl (hret (by simp)) fun t => ?_
    cases op <;> cases t <;> simp [Load.asked, Load.instr, Errand.load, Errand.code]
  | @beginFailed i hr out state x hs ho =>
    have hprov : ∀ k, state.provider ≠ .runSync k := by
      intro k hp
      have hz := hfail i k ⟨state, hs, hp⟩
      simp [failing, ho] at hz
    refine hI.at hk hs rfl (hret (by simp)) (fun t ht => ?_) fun k hp => absurd hp (hprov k)
    simp [Load.asked, Load.instr, Errand.load]
  | @didWork i hr out state x hs ho hp =>
    refine hI.writes hs rfl rfl hp rfl rfl (fun k hprov => ?_) fun t => ?_
    · have hcode : 0 < (Errand.passing i).load.code (.afterOp i .doWork hr out) := by
        simp [Errand.load, Errand.code]
      have hcanceled := (hI.told i k state hs hprov).passing (by omega)
      obtain ⟨hproduced, hbytes⟩ := of_decide_eq_true hg state hs hp k (hcontext hprov)
      obtain ⟨helper, hh⟩ : ∃ helper, s.mem.helpers[k]? = some helper :=
        ⟨_, List.getElem?_eq_getElem (howners.made i k ⟨state, hs, hprov⟩)⟩
      exact .worked (hcanceled.resolve_left (absurd hp)) hh (hbytes helper hh) hproduced
    · simp [Load.asked, Load.instr, Errand.load]
  | @gotResult i hr out state x hs =>
    refine hI.keep hk rfl (hret (by simp)) fun t => ?_
    cases t <;> simp [Load.asked, Load.instr, Errand.load, Errand.code, Return.reports]
    all_goals split <;> split <;> simp_all
  | @canceled i hr out state x hs hp =>
    refine hI.submits hs hk (hret (by simp)) rfl
      (fun k hp => hI.ready hs (by simp [Errand.code]) hp) fun t => ?_
    cases t <;>
      simp [Load.asked, Load.instr, Load.submission, Errand.load, Errand.code, Errand.callback]
  | @cleanedUp i hr out state x hs =>
    refine hI.keep hk (Memory.takeState_states ..) (hret (by simp)) fun t => ?_
    simp [Load.asked]
  | @cleanup i state x hs hc =>
    refine (hquiet.cleans hs fun k hp => ?_).mono fun t => ?_
    · exact of_decide_eq_true hg state hs k (hcontext hp) hc
    · rw [asked_frame]
  | beginReturn =>
    refine hI.keep hk (Memory.beginReturned_states ..) (hret (by simp)) fun t => ?_
    simp [Load.asked]
  | @completeBlock h b i helper x hh hb =>
    obtain ⟨state, hs⟩ := hparked b i hb
    have hown : ∀ k, state.provider = .runSync k → state.status = E_PENDING → k = h :=
      fun k hp hpending => of_decide_eq_true hg i hb state hs hpending k (hcontext hp)
    refine (hquiet.completes hs hk (hret (by simp)) rfl hh List.mem_cons_self hown).mono fun t => ?_
    rw [asked_frame]
  | _ =>
    refine hI.keep hk rfl (hret (by simp)) fun t => ?_
    simp [Load.asked, Load.instr, Load.submission, Errand.load]

end Steps

/-! ## Every run -/

section Runs
variable {c : Config (World Engine) (Frame Callback Code)} {pool n : ℕ}

theorem no_err_ok (h : (machine Engine).Reaches toldOutcome (Engine.start pool n) c) :
    ∀ k, .future k (.err S_OK) ∉ c.shared.mem.log := by
  refine memory_invariant (I := fun m => ∀ k, .future k (.err S_OK) ∉ m.log)
    (J := fun _ _ => True) h (fun _ _ => trivial) (by simp [Engine.start]) ?_
  intro s R code choice r hg _ hs hI k hf
  cases hs.stores with
  | kept hlog | canceled _ _ hlog => exact hI k ((hlog _ _).mp hf)
  | @returned j b helper helper' result hcode hx hh hlog =>
    have hmem : k = j ∧ .err S_OK = result ∨ .future k (.err S_OK) ∈ s.mem.log := by
      simpa [hlog] using hf
    rcases hmem with ⟨rfl, rfl⟩ | hold
    · subst hcode hx
      have hne : decide (S_OK ≠ S_OK) = true := hg
      exact of_decide_eq_true hne rfl
    · exact hI k hold

theorem recorded (h : (machine Engine).Reaches toldOutcome (Engine.start pool n) c) :
    Recorded c.shared.mem fun t => t.load.total c.shared.toCore c.frames := by
  refine client_invariant (J := fun (s : World Engine) (fs : Multiset (Frame Callback Code)) =>
    (Workers s.mem fun k => (workerIn k.1 k.2).total s.toCore fs) ∧ s.mem.KeepsPayloads ∧
      Owners s.mem ∧ (∀ i k, s.mem.Runs i k → (failing i).total s.toCore fs = 0) ∧
      (∀ b i, s.mem.stateOf b = some i → ∃ state, s.mem.states[i]? = some state) ∧
      ∀ k, .future k (.err S_OK) ∉ s.mem.log)
    h (fun t => t.load_sees.fits) ?_ ?_ ?_ ?_
  · intro d hd
    refine ⟨reaches_workers hd, reaches_payload hd, reaches_owners hd, fun i k hr => ?_,
      fun b i hb => ?_, no_err_ok hd⟩
    · obtain ⟨state, hs, hp⟩ := hr
      refine reaches_failing hd i fun state' hs' => ?_
      rw [hs, Option.some.injEq] at hs'
      exact ⟨k, hs' ▸ hp⟩
    · obtain ⟨-, state, hs, -⟩ := (parked hd).parked b i (stateOf_eq_some hb).2
      exact ⟨state, hs⟩
  · refine ⟨fun i _ => ⟨fun t _ => start_total t.load_sees pool n, fun value hv => ?_⟩,
      fun i k state hs => ?_⟩
    · simp [Engine.start] at hv
    · simp [Engine.start] at hs
  · exact fun m L L' hL hI => hI.mono hL
  · rintro s R code choice r hg ⟨hw, hpayload, howners, hfail, hparked, herr⟩ hstep hI
    simp only [total_client] at hw hfail
    exact recorded_step (steps_inv hstep) hg hw hpayload howners
      (fun i k hr => (Nat.add_eq_zero_iff.mp (hfail i k hr)).2) hparked herr hI

/-- The future of context `h` has returned `Ok` with this value, and nothing else. -/
def Memory.Produced (m : Memory) (h value : ℕ) : Prop :=
  ∀ result, .future h result ∈ m.log ↔ result = .ok value

theorem produced_of_mem {k value : ℕ} (h : (machine Engine).Reaches toldOutcome (Engine.start pool n) c)
    (hv : .future k (.ok value) ∈ c.shared.mem.log) : c.shared.mem.Produced k value := by
  refine fun result => ⟨fun hr => ?_, fun hr => hr ▸ hv⟩
  have heq := eq_of_countP (future_once h k) hr hv (by simp [isFuture]) (by simp [isFuture])
  simpa using heq

/-- What a call of `run_sync` with context `k` tells is what its future has returned. -/
structure OutcomeTold (m : Memory) (i k : ℕ) (state : AsyncState) : Prop where
  ok : state.status = S_OK → ∃ helper value, m.helpers[k]? = some helper ∧
    state.resultSize = helper.size ∧ m.Produced k value
  err : state.canceled = false → ∀ hr, .future k (.err hr) ∈ m.log →
    state.status = E_PENDING ∨ state.status = hr
  reported : ∀ value, .returned value ∈ m.log → value.reports i = true →
    ∃ payload, m.Produced k payload
  delivered : ∀ out, .returned (.getResult i S_OK out) ∈ m.log →
    ∃ payload, out = some payload ∧ m.Produced k payload

theorem run_sync_outcome (h : (machine Engine).Reaches toldOutcome (Engine.start pool n) c) {i k : ℕ}
    {state : AsyncState} (hs : c.shared.mem.states[i]? = some state)
    (hp : state.provider = .runSync k) : OutcomeTold c.shared.mem i k state := by
  have htold := (recorded h).told i k state hs hp
  have hworkers := reaches_workers h
  have hok : state.status = S_OK → ∃ helper value, c.shared.mem.helpers[k]? = some helper ∧
      state.resultSize = helper.size ∧ c.shared.mem.Produced k value := by
    intro ho
    have hfinal := htold.status (by rw [ho]; decide)
    rw [ho] at hfinal
    obtain ⟨helper, value, hh, hsize, hv⟩ := hfinal.ok hworkers (no_err_ok h)
    exact ⟨helper, value, hh, hsize.symm, produced_of_mem h hv⟩
  refine ⟨hok, fun hc hr hf => ?_, fun value hv hr => ?_, fun out hv => ?_⟩
  · by_cases hpending : state.status = E_PENDING
    · exact .inl hpending
    · right
      have hfinal := htold.status hpending
      generalize hstatus : state.status = status at hfinal ⊢
      generalize state.resultSize = size at hfinal
      cases hfinal with
      | aborted hcanceled => simp [hc] at hcanceled
      | worker hh hl => exact hworkers.result k _ _ hh hf
      | worked hcanceled => simp [hc] at hcanceled
  · obtain ⟨helper, payload, -, -, hproduced⟩ := hok (htold.reported value hv hr)
    exact ⟨payload, hproduced⟩
  · obtain ⟨payload, ho, hf⟩ := htold.handed out hv
    exact ⟨payload, ho, produced_of_mem h hf⟩

end Runs

/-- The worker returns 7, and the game takes it. -/
theorem run_sync_outcome_taken : ∃ c state,
    (machine Engine).Reaches toldOutcome (Engine.start 2 1) c ∧
    .returned (.getResult 0 S_OK (some 7)) ∈ c.shared.mem.log ∧
    c.shared.mem.states[0]? = some state ∧ OutcomeTold c.shared.mem 0 0 state := by
  have h : ((machine Engine).run toldOutcome
      ([Engine.does (.runSync 1 8)] ++ Engine.steps 1 6 ++ Engine.steps 2 4 ++
        [(2, some (.produces 7))] ++ Engine.steps 2 3 ++
        [Engine.does (.xasync 1 (.getResult 0 8))] ++ Engine.steps 1 7)
      (Engine.start 2 1)).any (fun c => decide (
        .returned (.getResult 0 S_OK (some 7)) ∈ c.shared.mem.log ∧
        ∃ state ∈ c.shared.mem.states[0]?, state.provider = .runSync 0)) = true := by
    decide +kernel
  obtain ⟨c, hr, hc⟩ := Machine.Reaches.of_run_any h
  obtain ⟨hlog, state, hs, hp⟩ := of_decide_eq_true hc
  exact ⟨c, state, hr, hlog, hs, run_sync_outcome hr hs hp⟩

/-- A call is canceled while its future runs. The pass for the cancellation completes it with `S_OK`,
and that is what the game is told: nothing has been produced. -/
theorem canceled_call_succeeds : ∃ c state,
    (machine Engine).Reaches anyStep (Engine.start 2 1) c ∧
    c.shared.mem.states[0]? = some state ∧ state.provider = .runSync 0 ∧ state.status = S_OK ∧
    .returned (.getStatus (some 0) S_OK) ∈ c.shared.mem.log ∧
    ∀ e ∈ c.shared.mem.log, isFuture 0 e = false := by
  have h : ((machine Engine).run anyStep
      ([Engine.does (.runSync 1 8)] ++ Engine.steps 1 6 ++ [Engine.does (.xasync 1 .cancel)] ++
        Engine.steps 1 7 ++ Engine.steps 4 5 ++
        [Engine.does (.xasync 1 (.getStatus false))] ++ Engine.steps 1 5)
      (Engine.start 2 1)).any (fun c => decide (
        .returned (.getStatus (some 0) S_OK) ∈ c.shared.mem.log ∧
        (∀ e ∈ c.shared.mem.log, isFuture 0 e = false) ∧
        ∃ state ∈ c.shared.mem.states[0]?, state.provider = .runSync 0 ∧ state.status = S_OK)) =
      true := by
    decide +kernel
  obtain ⟨c, hr, hc⟩ := Machine.Reaches.of_run_any h
  obtain ⟨hlog, hnone, state, hs, hp, ho⟩ := of_decide_eq_true hc
  exact ⟨c, state, hr, hs, hp, ho, hlog, hnone⟩

end XGameRuntime.XAsync
