import XGameRuntime.XAsync.Operations

/-! # The contexts of `run_sync`

`run_sync` boxes a context and leaves a raw pointer to it in two places: with the provider, whose
`Cleanup` frees it, and with the closure of the worker. Only the order in which the two come keeps
the worker from a context that is gone.
-/

namespace XGameRuntime.XAsync
open Concurrency TaskQueue
set_option autoImplicit false

/-! ## Whose context it is -/

/-- Call `i` was begun by `run_sync` with context `h`. -/
def Memory.Runs (m : Memory) (i h : ℕ) : Prop :=
  ∃ state, m.states[i]? = some state ∧ state.provider = .runSync h

section Steps
variable {m : Memory} {s : TaskQueues Callback} {code : Code} {x : Choice} {r : EngineStep}

@[simp] theorem Memory.beginReturned_helpers (m : Memory) (b : ℕ) (i : Option ℕ)
    (provider : Provider) (hr : HRESULT) : (m.beginReturned b i provider hr).helpers = m.helpers := by
  cases provider <;> rfl

theorem Invokes.helpers {i : ℕ} {state : AsyncState} {op : XAsyncOp} (h : Invokes m i state op r) :
    r.mem.helpers.length = m.helpers.length := by
  cases h <;> simp

theorem Begins.helpers {b identity : ℕ} {provider : Provider}
    (h : Begins m s b identity provider r) : r.mem.helpers.length = m.helpers.length := by
  cases h with
  | rejected => rw [Memory.beginReturned_helpers]
  | unrouted => rw [Memory.beginReturned_helpers, Memory.setBlock_helpers]
  | @parked route q routed state hb hn hroute hq hm hstate =>
    change routed.helpers.length = _
    rw [hm]
    rfl

/-- Only `run_sync` makes a context. -/
theorem Steps.helpers (h : Steps m s code x r) : r.mem.helpers.length = m.helpers.length ∨
    code = .game ∧ r.mem.helpers.length = m.helpers.length + 1 := by
  cases h with
  | begin h | run h => exact .inl h.helpers
  | runSync _ h =>
    refine .inr ⟨rfl, ?_⟩
    rw [resume, h.helpers]
    simp [Memory.newHelper]
  | invoke _ hi => exact .inl hi.helpers
  | beginReturn => exact .inl (by rw [Memory.beginReturned_helpers])
  | _ => exact .inl (by simp)

theorem Steps.keeps_runs (h : Steps m s code x r) {i k : ℕ} (hr : m.Runs i k) : r.mem.Runs i k := by
  obtain ⟨state, hs, hp⟩ := hr
  obtain ⟨new, hn, hsame⟩ := h.keeps hs
  exact ⟨new, hn, hsame.provider.trans hp⟩

/-- A call with a context was there, or it is new and so is its context. -/
theorem Steps.runs (h : Steps m s code x r) {i k : ℕ} (hr : r.mem.Runs i k) :
    m.Runs i k ∨ i = m.states.length ∧ k = m.helpers.length ∧
      r.mem.helpers.length = m.helpers.length + 1 := by
  obtain ⟨new, hn, hp⟩ := hr
  have hbegin : ∀ {b identity : ℕ} {provider : Provider} {r : EngineStep},
      Begins m s b identity provider r → provider ≠ .runSync k → r.mem.states[i]? = some new →
        m.Runs i k := by
    intro b identity provider r hb hne hn
    rcases hb.state hn with hold | ⟨-, -, hprov, -⟩
    · exact ⟨new, hold, hp⟩
    · exact absurd (hprov.symm.trans hp) hne
  cases h with
  | begin h | run h => exact .inl (hbegin h (by simp) hn)
  | @runSync b size r hb h =>
    rcases h.state hn with hold | ⟨hi, -, hprov, -⟩
    · exact .inl ⟨new, hold, hp⟩
    · rw [hp, Provider.runSync.injEq] at hprov
      refine .inr ⟨hi, hprov, ?_⟩
      change r.mem.helpers.length = _
      rw [h.helpers]
      simp [Memory.newHelper]
  | complete hs | didWork hs | beginFailed hs | cancel hs | getResult hs | cleanup hs =>
    rcases getElem?_set_cases hn with ⟨rfl, rfl⟩ | ⟨-, hn⟩
    · exact .inl ⟨_, hs, hp⟩
    · exact .inl ⟨new, hn, hp⟩
  | invoke _ hi =>
    rw [hi.same.1] at hn
    exact .inl ⟨new, hn, hp⟩
  | beginReturn =>
    rw [Memory.beginReturned_states] at hn
    exact .inl ⟨new, hn, hp⟩
  | cleanedUp =>
    rw [Memory.takeState_states] at hn
    exact .inl ⟨new, hn, hp⟩
  | _ => exact .inl ⟨new, hn, hp⟩

end Steps

/-- A context belongs to one call, or to none. -/
structure Owners (m : Memory) : Prop where
  made : ∀ i h, m.Runs i h → h < m.helpers.length
  unique : ∀ i j h, m.Runs i h → m.Runs j h → i = j

theorem owners_step {m : Memory} {s : TaskQueues Callback} {code : Code} {x : Choice}
    {r : EngineStep} (h : Steps m s code x r) (hI : Owners m) : Owners r.mem := by
  refine ⟨fun i k hr => ?_, fun i j k hi hj => ?_⟩
  · rcases h.runs hr with hold | ⟨-, rfl, hlen⟩
    · have hk := hI.made i k hold
      rcases h.helpers with he | ⟨-, he⟩ <;> omega
    · omega
  · rcases h.runs hi with hi | ⟨rfl, rfl, -⟩ <;> rcases h.runs hj with hj | ⟨rfl, hk, -⟩
    · exact hI.unique i j k hi hj
    · have hlt := hI.made i k hi
      omega
    · have hlt := hI.made j _ hj
      omega
    · rfl

/-! ## What `Begin` starts -/

/-- The call of context `h` has received `Begin`. -/
def Memory.Started (m : Memory) (h : ℕ) : Prop := ∃ i, m.Runs i h ∧ .begin ∈ m.ops i

/-- The call of context `h` receives `Begin` now. -/
def Memory.Starting (m : Memory) (code : Code) (h : ℕ) : Prop :=
  ∃ i, code = .invoke i .begin ∧ m.Runs i h

section Steps
variable {m : Memory} {s : TaskQueues Callback} {code : Code} {x : Choice} {r : EngineStep} {k : ℕ}

theorem Memory.Started.lt (h : m.Started k) (howners : Owners m) : k < m.helpers.length := by
  obtain ⟨i, hr, -⟩ := h
  exact howners.made i k hr

theorem Steps.stays_started (h : Steps m s code x r) (hk : m.Started k) : r.mem.Started k := by
  obtain ⟨i, hr, hop⟩ := hk
  exact ⟨i, h.keeps_runs hr, ops_of_log h.log hop⟩

theorem Memory.Starting.started (hk : m.Starting code k) (h : Steps m s code x r) :
    r.mem.Started k := by
  obtain ⟨i, rfl, hr⟩ := hk
  refine ⟨i, h.keeps_runs hr, ?_⟩
  cases h with
  | invoke _ hi =>
    rw [hi.ops, if_pos rfl]
    exact List.mem_cons_self

/-- `Begin` is sent once. -/
theorem Memory.Starting.fresh {L : ℕ → ℕ} (hk : m.Starting code k) (howners : Owners m)
    (hbegun : Begun m fun i => L i + (toBegin i).code code) : ¬ m.Started k := by
  rintro ⟨j, hj, hop⟩
  obtain ⟨i, rfl, hr⟩ := hk
  obtain rfl := howners.unique i j k hr hj
  have hone := hbegun.once i
  have hpos := List.count_pos_iff.mpr hop
  simp only [toBegin, if_true] at hone
  omega

/-- What the `Begin` of a context starts is there once, and not before. -/
structure StartedOnce (m : Memory) (W : ℕ → ℕ) : Prop where
  one : ∀ k, W k ≤ 1
  fresh : ∀ k, ¬ m.Started k → W k = 0

theorem StartedOnce.zero {W : ℕ → ℕ} (h : ∀ k, W k = 0) : StartedOnce m W :=
  ⟨fun k => h k ▸ Nat.zero_le 1, fun k _ => h k⟩

theorem StartedOnce.mono {W W' : ℕ → ℕ} (hI : StartedOnce m W) (hW : ∀ k, W' k ≤ W k) :
    StartedOnce m W' :=
  ⟨fun k => (hW k).trans (hI.one k), fun k hk => Nat.le_zero.mp (hI.fresh k hk ▸ hW k)⟩

theorem StartedOnce.step {L W W' : ℕ → ℕ} (hI : StartedOnce m W) (h : Steps m s code x r)
    (howners : Owners m) (hbegun : Begun m fun i => L i + (toBegin i).code code)
    (hW : ∀ k, W' k ≤ W k ∨ m.Starting code k ∧ W' k ≤ W k + 1) : StartedOnce r.mem W' := by
  refine ⟨fun k => ?_, fun k hk => ?_⟩
  · rcases hW k with hle | ⟨hstarts, hle⟩
    · exact hle.trans (hI.one k)
    · rw [hI.fresh k (hstarts.fresh howners hbegun)] at hle
      exact hle
  · rcases hW k with hle | ⟨hstarts, -⟩
    · exact Nat.le_zero.mp (hI.fresh k (fun hs => hk (h.stays_started hs)) ▸ hle)
    · exact absurd (hstarts.started h) hk

end Steps

/-! ## The life of a call -/

/-- Code that leads to the failure of `XAsyncBegin` for call `i`. -/
def failing (i : ℕ) : Load Callback Code where
  callback _ := 0
  code
    | .opReturn j .begin | .beginReturn j _ => if j = i then 1 else 0
    | .afterOp j .begin hr _ => if j = i ∧ hr ≠ S_OK then 1 else 0
    | _ => 0

/-- Code that takes the result of call `i`. -/
def taking (i : ℕ) : Load Callback Code where
  callback _ := 0
  code
    | .invoke j .getResult | .opReturn j .getResult | .afterOp j .getResult _ _ | .cleanup j
    | .invoke j .cleanup => if j = i then 1 else 0
    | _ => 0

theorem failing_sees (i : ℕ) : Sees (failing i) := by
  refine ⟨rfl, rfl, fun _ => rfl, fun callback canceled => ?_⟩
  cases callback with
  | work j => cases canceled <;> simp [Callback.code, failing]
  | _ => simp [Callback.code, failing]

theorem taking_sees (i : ℕ) : Sees (taking i) := by
  refine ⟨rfl, rfl, fun _ => rfl, fun callback canceled => ?_⟩
  cases callback with
  | work j => cases canceled <;> simp [Callback.code, taking]
  | _ => simp [Callback.code, taking]

section Steps
variable {m : Memory} {s : TaskQueues Callback} {code : Code} {x : Choice} {r : EngineStep}

/-- Only a provider of another kind can fail its `Begin`. -/
theorem Invokes.failing {i : ℕ} {state : AsyncState} {op : XAsyncOp} (h : Invokes m i state op r)
    (j : ℕ) : (failing j).asked r = 0 ∨ j = i ∧ ∀ k, state.provider ≠ .runSync k := by
  by_cases hin : j = i
  · by_cases hk : ∀ k, state.provider ≠ .runSync k
    · exact .inr ⟨hin, hk⟩
    · left
      simp only [not_forall, not_not] at hk
      obtain ⟨k, hk⟩ := hk
      cases h <;> simp_all [Load.asked, Load.instr, Load.submission, XAsync.failing,
        runSyncSubmission]
  · left
    cases h with
    | @game op | @runOther op =>
      cases op <;> simp [Load.asked, Load.instr, XAsync.failing, Ne.symm hin]
    | _ => simp [Load.asked, Load.instr, Load.submission, XAsync.failing, runSyncSubmission,
        Ne.symm hin]

/-- Other steps do not lead to it. -/
theorem Steps.failing (h : Steps m s code x r) (i : ℕ) :
    (failing i).asked r ≤ (failing i).code code ∨ ∃ state, r.mem.states[i]? = some state ∧
      ∀ k, state.provider ≠ .runSync k := by
  have hbegin : ∀ {b identity : ℕ} {provider : Provider} {r : EngineStep} {n : Memory},
      Begins n s b identity provider r → (XAsync.failing i).asked (resume r) = 0 := by
    intro b identity provider r n hb
    rw [asked_resume _ (failing_sees i), hb.asked _ fun _ => rfl]
  cases h with
  | queue hr =>
    subst hr
    left
    rw [asked_queue _ (failing_sees i)]
    exact Nat.zero_le _
  | begin h | run h | runSync _ h => exact .inl (hbegin h ▸ Nat.zero_le _)
  | @invoke j op state r x hs hi =>
    rcases hi.failing i with hz | ⟨rfl, hk⟩
    · exact .inl (hz ▸ Nat.zero_le _)
    · exact .inr ⟨state, hi.same.1 ▸ hs, hk⟩
  | @opReturn j op hr =>
    left
    cases op <;> simp [Load.asked, Load.instr, XAsync.failing]
    split <;> simp_all
  | unresolved =>
    left
    simp [Load.asked, Load.instr, XAsync.failing, Function.comp_def]
  | @beginFailed j hr out state x hs ho =>
    left
    simp [Load.asked, Load.instr, XAsync.failing, ho]
  | _ =>
    left
    simp [Load.asked, Load.instr, Load.submission, XAsync.failing]

theorem Invokes.taking {i : ℕ} {state : AsyncState} {op : XAsyncOp} (h : Invokes m i state op r)
    (j : ℕ) : (taking j).asked r ≤ (taking j).code (.invoke i op) := by
  cases h with
  | @game op | @runOther op => cases op <;> simp [Load.asked, Load.instr, XAsync.taking]
  | _ => simp [Load.asked, Load.instr, Load.submission, XAsync.taking, runSyncSubmission]

/-- The result of a call is taken, and the call cleaned up, only once its status is known. -/
structure Settled (m : Memory) (taking : ℕ → ℕ) : Prop where
  unborn : ∀ i, m.states[i]? = none → taking i = 0
  settled : ∀ i h state, m.states[i]? = some state → state.provider = .runSync h →
    state.cleanedUp = true ∨ 0 < taking i → state.status ≠ E_PENDING

theorem Settled.of_eq {m m' : Memory} {L L' : ℕ → ℕ} (hI : Settled m L)
    (hs : m'.states = m.states) (hL : ∀ i, L' i ≤ L i) : Settled m' L' := by
  refine ⟨fun i hn => ?_, fun i h state hi hp hk => ?_⟩
  · exact Nat.le_zero.mp (hI.unborn i (hs ▸ hn) ▸ hL i)
  · exact hI.settled i h state (hs ▸ hi) hp (hk.imp_right (·.trans_le (hL i)))

/-- The rule for a step that writes one call. -/
theorem Settled.at {m m' : Memory} {L L' : ℕ → ℕ} {i : ℕ} {state state' : AsyncState}
    (hI : Settled m L) (hs : m.states[i]? = some state) (hs' : m'.states = m.states.set i state')
    (hL : ∀ j, j ≠ i → L' j ≤ L j)
    (hi : ∀ h, state'.provider = .runSync h →
      state'.cleanedUp = true ∨ 0 < L' i → state'.status ≠ E_PENDING) : Settled m' L' := by
  refine ⟨fun j hn => ?_, fun j h new hj hp hk => ?_⟩
  · have hne : j ≠ i := by
      rintro rfl
      rw [hs', getElem?_set_at state' hs] at hn
      simp at hn
    have hn' : m.states[j]? = none := by simpa [hs', List.getElem?_set, hne.symm] using hn
    exact Nat.le_zero.mp (hI.unborn j hn' ▸ hL j hne)
  · rcases getElem?_set_cases (hs' ▸ hj) with ⟨rfl, rfl⟩ | ⟨hne, hj⟩
    · exact hi h hp hk
    · exact hI.settled j h new hj hp (hk.imp_right (·.trans_le (hL j (Ne.symm hne))))

theorem settled_step {L : ℕ → ℕ} (h : Steps m s code x r)
    (hf : ∀ i k, m.Runs i k → (XAsync.failing i).code code = 0)
    (hI : Settled m fun i => L i + (XAsync.taking i).code code) :
    Settled r.mem fun i => L i + (XAsync.taking i).asked r := by
  have hbegin : ∀ {b identity : ℕ} {provider : Provider} {r : EngineStep} {n : Memory},
      n.states = m.states → Begins n s b identity provider r →
        Settled r.mem fun i => L i + (XAsync.taking i).asked (resume r) := by
    intro b identity provider r n hn hb
    refine ⟨fun i hi => ?_, fun i k state hi hp hk => ?_⟩
    · have hlen := hb.length_le
      rw [hn] at hlen
      have hi' : m.states[i]? = none := by
        rw [List.getElem?_eq_none_iff] at hi ⊢
        omega
      have hz := hI.unborn i hi'
      rw [asked_resume _ (taking_sees i), hb.asked _ fun _ => rfl]
      omega
    · rw [asked_resume _ (taking_sees i), hb.asked _ fun _ => rfl] at hk
      rcases hb.state hi with hold | ⟨rfl, hc, -⟩
      · rw [hn] at hold
        exact hI.settled i k state hold hp (hk.imp_right fun hpos => by omega)
      · have hz := hI.unborn n.states.length (by simp [hn])
        rcases hk with hk | hk
        · simp [hc] at hk
        · omega
  cases h with
  | begin h | run h => exact hbegin rfl h
  | runSync _ h => exact hbegin (n := m.newHelper _) rfl h
  | queue hr =>
    subst hr
    refine hI.of_eq rfl fun i => ?_
    rw [asked_queue _ (taking_sees i)]
    exact Nat.le_add_right _ _
  | @complete i size result state x hs hp =>
    refine hI.at hs rfl (fun j _ => by simp [Load.asked, Load.instr, XAsync.taking]) ?_
    intro h hprov hk
    refine absurd hp (hI.settled i h state hs hprov ?_)
    simpa [Load.asked, Load.instr, XAsync.taking] using hk
  | @didWork i hr out state x hs hp hpend =>
    refine hI.at hs rfl (fun j _ => by simp [Load.asked, Load.instr, XAsync.taking]) ?_
    intro h hprov hk
    refine absurd hpend (hI.settled i h state hs hprov ?_)
    simpa [Load.asked, Load.instr, XAsync.taking] using hk
  | @beginFailed i hr out state x hs ho =>
    refine hI.at hs rfl (fun j hne => ?_) ?_
    · simp [Load.asked, Load.instr, XAsync.taking, Ne.symm hne]
    · intro h hprov _
      have hz := hf i h ⟨state, hs, hprov⟩
      simp [XAsync.failing, ho] at hz
  | @cancel i state x hs hp hk =>
    refine hI.at hs rfl (fun j hne => ?_) ?_
    · simp [Load.asked, Load.instr, XAsync.taking]
    · intro h hprov hk
      refine hI.settled i h state hs hprov ?_
      simpa [Load.asked, Load.instr, XAsync.taking] using hk
  | @getResult i identity bufferSize state x hs ho hid hb =>
    refine hI.at hs rfl (fun j hne => ?_) ?_
    · simp [Load.asked, Load.instr, XAsync.taking, Ne.symm hne]
    · intro h _ _
      change state.status ≠ E_PENDING
      rw [ho]
      decide
  | @getStatusCleanup i wait state x hs hp hz =>
    refine hI.at hs (set_at_self hs).symm (fun j hne => ?_) fun h _ _ => hp
    simp [Load.asked, Load.instr, XAsync.taking, Ne.symm hne]
  | @getResultFailed i identity bufferSize state x hs hp ho =>
    refine hI.at hs (set_at_self hs).symm (fun j hne => ?_) fun h _ _ => hp
    simp [Load.asked, Load.instr, XAsync.taking, Ne.symm hne]
  | @cleanup i state x hs hc =>
    refine hI.at hs rfl (fun j hne => ?_) ?_
    · simp [Load.asked, Load.instr, XAsync.taking, Ne.symm hne]
    · intro h hprov _
      exact hI.settled i h state hs hprov (.inr (by simp [XAsync.taking]))
  | @invoke i op state r x hs hi =>
    exact hI.of_eq hi.same.1 fun j => Nat.add_le_add_left (hi.taking j) _
  | beginReturn =>
    refine hI.of_eq (Memory.beginReturned_states ..) fun i => ?_
    simp [Load.asked]
  | cleanedUp =>
    refine hI.of_eq (Memory.takeState_states ..) fun i => ?_
    simp [Load.asked]
  | unresolved =>
    refine hI.of_eq rfl fun i => ?_
    simp [Load.asked, Load.instr, XAsync.taking, Function.comp_def]
  | @opReturn i op hr =>
    refine hI.of_eq rfl fun i => ?_
    cases op <;> simp [Load.asked, Load.instr, XAsync.taking]
  | _ =>
    refine hI.of_eq rfl fun i => ?_
    simp [Load.asked, Load.instr, Load.submission, XAsync.taking]

end Steps

/-! ## Who still uses a context -/

/-- The worker of context `h`: queued, inside the future, or about to complete its block. -/
def working (h : ℕ) : Load Callback Code where
  callback
    | .runSyncWorker k _ => if k = h then 1 else 0
    | _ => 0
  code
    | .work k _ _ | .futureReturn k _ | .completeBlock k _ => if k = h then 1 else 0
    | _ => 0

theorem working_sees (h : ℕ) : Sees (working h) := by
  refine ⟨rfl, rfl, fun _ => rfl, fun callback canceled => ?_⟩
  cases callback with
  | work j => cases canceled <;> simp [Callback.code, working]
  | _ => simp [Callback.code, working]

/-- What a context may be held by: its worker, and what is pending for its call. -/
inductive Holder where
  | worker (helper : ℕ)
  | begins (call : ℕ)
  | pending (k : Pending) (call : ℕ)

def Holder.load : Holder → Load Callback Code
  | .worker h => working h
  | .begins i => toBegin i
  | .pending k i => pendingLoad k i

theorem Holder.load_sees (k : Holder) : Sees k.load := by
  cases k with
  | worker h => exact working_sees h
  | begins i => exact toBegin_sees i
  | pending k i => exact pendingLoad_sees k i

def Provider.context : Provider → Option ℕ
  | .runSync h => some h
  | _ => none

/-- A call of `run_sync` is not cleaned up. -/
abbrev Memory.KeepsContext (m : Memory) (i : ℕ) : Prop :=
  ∀ state ∈ m.states[i]?, ∀ _ ∈ state.provider.context, state.cleanedUp = false

/-- The condition under which a context outlives its users. When a call of `run_sync` is cleaned
up, its `Begin` has been sent, its worker has ended and no `DoWork`, `Cancel` or `GetResult` of the
call is queued or under way; from then on no pass is scheduled for the call, neither by the game nor
by an `XAsyncRun` whose block the call has since got, and its result is not taken again. -/
def releasesLast (s : World Engine) (R : Multiset (Frame Callback Code)) : Code → Bool
  | .cleanup i => decide (∀ state ∈ s.mem.states[i]?, state.cleanedUp = false →
      ∀ h ∈ state.provider.context, (toBegin i).total s.toCore R = 0 ∧
        (working h).total s.toCore R = 0 ∧
        (pendingLoad .doWork i).total s.toCore R = 0 ∧
        (pendingLoad .cancel i).total s.toCore R = 0 ∧
        (pendingLoad .getResult i).total s.toCore R = 0)
  | .call i (.schedule _) => decide (s.mem.KeepsContext i)
  | .invoke i .begin => decide (∀ state ∈ s.mem.states[i]?, state.provider = .run →
      ∀ j ∈ s.mem.stateOf state.block, s.mem.KeepsContext j)
  | .call i (.getResult identity bufferSize) => decide (∀ state ∈ s.mem.states[i]?,
      ∀ _ ∈ state.provider.context, state.status = S_OK →
        (identity = 0 ∨ identity = state.identity) → state.resultSize ≤ bufferSize →
        state.cleanedUp = false)
  | _ => true

abbrev contextsOutlive : Guard (World Engine) (Frame Callback Code) (Option Choice) :=
  onCode fun s R code _ => releasesLast s R code

section Steps
variable {m : Memory} {s : TaskQueues Callback} {code : Code} {x : Choice} {r : EngineStep}

/-- Only the `Begin` of `run_sync` starts a worker, for the context of its call. -/
theorem Steps.working (h : Steps m s code x r) (k : ℕ) :
    (working k).asked r ≤ (working k).code code ∨ m.Starting code k := by
  have hbegin : ∀ {b identity : ℕ} {provider : Provider} {r : EngineStep} {n : Memory},
      Begins n s b identity provider r → (XAsync.working k).asked (resume r) = 0 := by
    intro b identity provider r n hb
    rw [asked_resume _ (working_sees k), hb.asked _ fun _ => rfl]
  cases h with
  | queue hr =>
    subst hr
    left
    rw [asked_queue _ (working_sees k)]
    exact Nat.zero_le _
  | begin h | run h | runSync _ h => exact .inl (hbegin h ▸ Nat.zero_le _)
  | @invoke i op state r x hs hi =>
    cases hi with
    | @runSyncBegin h q helper admin hp hh =>
      by_cases hk : h = k
      · exact .inr ⟨i, rfl, state, hs, hk ▸ hp⟩
      · left
        simp [Load.asked, Load.instr, Load.submission, XAsync.working, runSyncSubmission, hk]
    | _ =>
      left
      simp [Load.asked, Load.instr, Load.submission, XAsync.working]
  | unresolved =>
    left
    simp [Load.asked, Load.instr, XAsync.working, Function.comp_def]
  | _ =>
    left
    simp [Load.asked, Load.instr, Load.submission, XAsync.working]

/-- The ways in which an operation becomes pending for a call that was there. -/
inductive Asks (m : Memory) (i : ℕ) (state : AsyncState) : Code → Prop where
  | schedule {delayInMs : ℕ} : Asks m i state (.call i (.schedule delayInMs))
  | begin {j : ℕ} {other : AsyncState} (hs : m.states[j]? = some other)
      (hp : other.provider = .run) (hb : m.stateOf other.block = some i) :
      Asks m i state (.invoke j .begin)
  | cancel {code : Code} (hp : state.status = E_PENDING) : Asks m i state code
  | getResult {identity bufferSize : ℕ} (ho : state.status = S_OK)
      (hid : identity = 0 ∨ identity = state.identity) (hb : state.resultSize ≤ bufferSize) :
      Asks m i state (.call i (.getResult identity bufferSize))

/-- Only the `Begin` of `XAsyncRun` leaves an operation pending, for the call on its block. -/
theorem Invokes.asks {i : ℕ} {state : AsyncState} {op : XAsyncOp} (h : Invokes m i state op r)
    (k : Pending) (j : ℕ) : (pendingLoad k j).asked r = 0 ∨
      op = .begin ∧ state.provider = .run ∧ m.stateOf state.block = some j := by
  cases h with
  | @runBegin j' q hp hj =>
    by_cases hin : j' = j
    · exact .inr ⟨rfl, hp, hin ▸ hj⟩
    · left
      simp [Load.asked, Load.instr, Load.submission, pendingLoad, hin]
  | _ =>
    left
    simp [Load.asked, Load.instr, Load.submission, pendingLoad, runSyncSubmission]

theorem Steps.pending (h : Steps m s code x r) {k : Pending} (hk : k ≠ .cleanup) (i : ℕ) :
    (pendingLoad k i).asked r ≤ (pendingLoad k i).code code ∨ m.states[i]? = none ∨
      ∃ state, m.states[i]? = some state ∧ Asks m i state code := by
  cases h with
  | queue hr =>
    subst hr
    left
    rw [asked_queue _ (pendingLoad_sees k i)]
    exact Nat.zero_le _
  | begin h | run h | runSync _ h =>
    left
    rw [asked_resume _ (pendingLoad_sees k i), h.asked _ fun _ => rfl]
    exact Nat.zero_le _
  | @invoke j op other r x hs hi =>
    rcases hi.asks k i with hz | ⟨rfl, hp, hb⟩
    · exact .inl (hz ▸ Nat.zero_le _)
    · cases hi' : m.states[i]? with
      | none => exact .inr (.inl rfl)
      | some state => exact .inr (.inr ⟨state, rfl, .begin hs hp hb⟩)
  | unresolved =>
    left
    simp [Load.asked, Load.instr, pendingLoad, Function.comp_def]
  | @schedule j delayInMs state x hs =>
    by_cases hj : j = i
    · subst hj
      exact .inr (.inr ⟨state, hs, .schedule⟩)
    · left
      simp [Load.asked, Load.instr, Load.submission, pendingLoad, hj]
  | @cancel j state x hs hp _ | @canceled j hr out state x hs hp =>
    by_cases hj : j = i
    · subst hj
      exact .inr (.inr ⟨state, hs, .cancel hp⟩)
    · left
      simp [Load.asked, Load.instr, Load.submission, pendingLoad, hj]
  | @getResult j identity bufferSize state x hs ho hid hb =>
    by_cases hj : j = i
    · subst hj
      exact .inr (.inr ⟨state, hs, .getResult ho hid hb⟩)
    · left
      simp [Load.asked, Load.instr, pendingLoad, hj]
  | cleanup =>
    left
    simp [Load.asked, Load.instr, pendingLoad, hk]
  | _ =>
    left
    simp [Load.asked, Load.instr, Load.submission, pendingLoad]

/-- Only a new call is about to receive `Begin`. -/
theorem Steps.toBegin (h : Steps m s code x r) {i : ℕ} (hi : i < m.states.length) :
    (toBegin i).asked r ≤ (toBegin i).code code := by
  have hbegin : ∀ {b identity : ℕ} {provider : Provider} {r : EngineStep} {n : Memory},
      n.states = m.states → Begins n s b identity provider r →
        (XAsync.toBegin i).asked (resume r) = 0 := by
    intro b identity provider r n hn hb
    rw [asked_resume _ (toBegin_sees i)]
    cases hb with
    | rejected | unrouted => simp [Load.asked]
    | parked =>
      rw [asked_frame_admin, hn]
      exact if_neg (by omega)
  cases h with
  | begin h | run h => exact hbegin rfl h ▸ Nat.zero_le _
  | runSync _ h => exact hbegin (n := m.newHelper _) rfl h ▸ Nat.zero_le _
  | invoke _ hi => exact hi.toBegin i ▸ Nat.zero_le _
  | queue hr =>
    subst hr
    rw [asked_queue _ (toBegin_sees i)]
    exact Nat.zero_le _
  | unresolved => simp [Load.asked, Load.instr, XAsync.toBegin, Function.comp_def]
  | _ => simp [Load.asked, Load.instr, Load.submission, XAsync.toBegin]

/-- Nobody holds the context of a call that is cleaned up, and nobody works on one whose call was
not accepted. -/
structure Unheld (m : Memory) (held : Holder → ℕ) : Prop where
  closed : ∀ i h state, m.states[i]? = some state → state.provider = .runSync h →
    state.cleanedUp = true → held (.worker h) = 0 ∧ held (.begins i) = 0 ∧
      ∀ k, k ≠ .cleanup → held (.pending k i) = 0
  lost : ∀ h, (∀ i, ¬ m.Runs i h) → held (.worker h) = 0

theorem unheld_step {s : World Engine} {R : Multiset (Frame Callback Code)}
    (h : Steps s.mem s.toTaskQueues code x r) (hg : releasesLast s R code = true)
    (howners : Owners s.mem)
    (hsettled : ∀ (i h : ℕ) (state : AsyncState), s.mem.states[i]? = some state →
      state.provider = .runSync h → state.cleanedUp = true → state.status ≠ E_PENDING)
    (hI : Unheld s.mem fun k => k.load.total s.toCore R + k.load.code code) :
    Unheld r.mem fun k => k.load.total s.toCore R + k.load.asked r := by
  refine ⟨fun i k new hi hp hc => ?_, fun k hk => ?_⟩
  · rcases h.state hi with ⟨old, hold, hsame, hflag⟩ | ⟨-, hnew⟩
    · have hprov : old.provider = .runSync k := hsame.provider.symm.trans hp
      rcases hflag with hflag | ⟨rfl, hopen, hrun⟩
      · have hcl : old.cleanedUp = true := hflag ▸ hc
        obtain ⟨hw, hsent, hpend⟩ := hI.closed i k old hold hprov hcl
        change (toBegin i).total s.toCore R + (toBegin i).code code = 0 at hsent
        refine ⟨?_, ?_, fun p hne => ?_⟩
        · rcases h.working k with hle | ⟨j, rfl, hj⟩
          · change (working k).total s.toCore R + (working k).code code = 0 at hw
            change (working k).total s.toCore R + (working k).asked r = 0
            omega
          · -- its `Begin` has been sent
            obtain rfl := howners.unique j i k hj ⟨old, hold, hprov⟩
            simp [XAsync.toBegin] at hsent
        · change (toBegin i).total s.toCore R + (toBegin i).asked r = 0
          have hle := h.toBegin (List.getElem?_eq_some_iff.mp hold).1
          omega
        · have hz := hpend p hne
          change (pendingLoad p i).total s.toCore R + (pendingLoad p i).code code = 0 at hz
          change (pendingLoad p i).total s.toCore R + (pendingLoad p i).asked r = 0
          rcases h.pending hne i with hle | hnone | ⟨state, hs, hask⟩
          · omega
          · simp [hold] at hnone
          · rw [hold, Option.some.injEq] at hs
            subst hs
            -- a pass of a call that is cleaned up: the condition excludes it
            have hcontext : k ∈ old.provider.context := by simp [hprov, Provider.context]
            cases hask with
            | schedule =>
              have hfree := of_decide_eq_true hg old hold k hcontext
              simp [hcl] at hfree
            | begin hs hp hb =>
              have hfree := of_decide_eq_true hg _ hs hp i hb old hold k hcontext
              simp [hcl] at hfree
            | cancel hpe => exact absurd hpe (hsettled i k old hold hprov hcl)
            | getResult ho hid hb =>
              have hfree := of_decide_eq_true hg old hold k hcontext ho hid hb
              simp [hcl] at hfree
      · have hcontext : k ∈ old.provider.context := by simp [hprov, Provider.context]
        obtain ⟨hsent, hw, hd, hca, hge⟩ := of_decide_eq_true hg old hold hopen k hcontext
        have hasked : ∀ w : Load Callback Code, w.asked r = w.code (.invoke i .cleanup) := by
          intro w
          have hspawn : r.spawn = [] := by cases h <;> rfl
          simp [Load.asked, hrun, hspawn, Load.instr]
        refine ⟨?_, ?_, fun p hne => ?_⟩
        · change (working k).total s.toCore R + (working k).asked r = 0
          rw [hasked, hw]
          rfl
        · change (toBegin i).total s.toCore R + (toBegin i).asked r = 0
          rw [hasked, hsent]
          rfl
        · change (pendingLoad p i).total s.toCore R + (pendingLoad p i).asked r = 0
          have hcode : (pendingLoad p i).code (.invoke i .cleanup) = 0 := by
            simp [pendingLoad, hne]
          rw [hasked, hcode]
          cases p with
          | cleanup => exact absurd rfl hne
          | doWork => exact hd
          | cancel => exact hca
          | getResult => exact hge
    · simp [hc] at hnew
  · have hz := hI.lost k fun i hi => hk i (h.keeps_runs hi)
    change (working k).total s.toCore R + (working k).code code = 0 at hz
    change (working k).total s.toCore R + (working k).asked r = 0
    rcases h.working k with hle | ⟨i, -, hi⟩
    · omega
    · exact absurd (h.keeps_runs hi) (hk i)

end Steps

end XGameRuntime.XAsync
