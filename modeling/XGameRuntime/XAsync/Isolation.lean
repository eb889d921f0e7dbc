import XGameRuntime.XAsync.Workers

/-! # A block that is begun again

What is left of a call when its block is begun again: code and callbacks that act for it, code that
acts for it only while it has no result, and the worker of `run_sync`, which knows the block alone. When
none of these is left, the earlier call is over for good, and a worker completes no call but its own.
-/

namespace XGameRuntime.XAsync
open Concurrency TaskQueue
set_option autoImplicit false

/-! ## What is left -/

/-- What may be left of a call. -/
inductive Remnant where
  /-- Goes to the provider of the call, submits a pass for it or runs its completion routine. -/
  | act (i : ℕ)
  /-- Does so only while the call has no result. -/
  | late (i : ℕ)
  | beginning (i : ℕ)
  /-- The worker of `run_sync` with context `h`, for block `b`. -/
  | worker (h b : ℕ)
  deriving DecidableEq

@[simp] def Code.acts (i : ℕ) : Code → Bool
  | .call j (.schedule _) | .call j (.getResult _ _) | .invoke j _ | .announce j _
  | .completionCallback j _ => j = i
  | _ => false

@[simp] def Code.late (i : ℕ) : Code → Bool
  | .call j (.complete _ _) | .call j .cancel | .opReturn j .doWork | .opReturn j .cancel
  | .afterOp j .doWork _ _ | .afterOp j .cancel _ _ => j = i
  | _ => false

@[simp] def Code.begins (i : ℕ) : Code → Bool
  | .opReturn j .begin | .afterOp j .begin _ _ => j = i
  | _ => false

@[simp] def Code.worksOn (h b : ℕ) : Code → Bool
  | .work h' b' _ | .futureReturn h' b' | .completeBlock h' b' => h' = h ∧ b' = b
  | _ => false

@[simp] def Callback.acts (i : ℕ) : Callback → Bool
  | .work j | .completion j _ => j = i
  | _ => false

@[simp] def Callback.late (i : ℕ) : Callback → Bool
  | .work j => j = i
  | _ => false

@[simp] def Callback.worksOn (h b : ℕ) : Callback → Bool
  | .runSyncWorker h' b' => h' = h ∧ b' = b
  | _ => false

@[simp] def Remnant.code : Remnant → Code → Bool
  | .act i => Code.acts i
  | .late i => Code.late i
  | .beginning i => Code.begins i
  | .worker h b => Code.worksOn h b

@[simp] def Remnant.callback : Remnant → Callback → Bool
  | .act i => Callback.acts i
  | .late i => Callback.late i
  | .beginning _ => fun _ => false
  | .worker h b => Callback.worksOn h b

def Remnant.load (t : Remnant) : Load Callback Code where
  callback callback := if t.callback callback then 1 else 0
  code code := if t.code code then 1 else 0

theorem Remnant.load_sees (t : Remnant) : Sees t.load := by
  refine ⟨?_, ?_, fun id => ?_, fun callback canceled => ?_⟩
  · cases t <;> rfl
  · cases t <;> rfl
  · cases t <;> rfl
  · cases callback with
    | work i => cases canceled <;> cases t <;> simp [Callback.code, Remnant.load]
    | _ => cases t <;> simp [Callback.code, Remnant.load]

@[simp] def Remnant.call : Remnant → Option ℕ
  | .act i | .late i | .beginning i => some i
  | .worker _ _ => none

/-- The call that code acts for. -/
@[simp] def Code.owner : Code → Option ℕ
  | .call i _ | .invoke i _ | .opReturn i _ | .afterOp i _ _ _ | .announce i _
  | .completionCallback i _ => some i
  | _ => none

@[simp] def Callback.owner : Callback → Option ℕ
  | .work i | .completion i _ => some i
  | _ => none

theorem Remnant.code_other {t : Remnant} {i : ℕ} (ht : t.call = some i) (code : Code)
    (hc : ¬ code.owner = some i) : t.load.code code = 0 := by
  refine if_neg ?_
  cases t with
  | act j | late j | beginning j =>
    obtain rfl : j = i := Option.some.inj ht
    cases code with
    | call k c => cases c <;> simp at hc ⊢ <;> exact hc
    | opReturn k op | afterOp k op => cases op <;> simp at hc ⊢ <;> exact hc
    | invoke | announce | completionCallback => simp at hc ⊢ <;> exact hc
    | _ => simp
  | worker h b => cases ht

theorem Remnant.callback_other {t : Remnant} {i : ℕ} (ht : t.call = some i) (callback : Callback)
    (hc : ¬ callback.owner = some i) : t.load.callback callback = 0 := by
  refine if_neg ?_
  cases t with
  | act j | late j | beginning j =>
    obtain rfl : j = i := Option.some.inj ht
    cases callback <;> simp at hc ⊢ <;> exact hc
  | worker h b => cases ht

theorem Remnant.worker_code (h b : ℕ) (code : Code) :
    (Remnant.worker h b).load.code code = if code.worksOn h b then 1 else 0 := rfl

theorem Remnant.worker_callback (h b : ℕ) (callback : Callback) :
    (Remnant.worker h b).load.callback callback = if callback.worksOn h b then 1 else 0 := rfl

/-- A provider's operation that is about to return counts as one that has. -/
theorem Remnant.code_afterOp (t : Remnant) (i : ℕ) (op : XAsyncOp) (hr : HRESULT) (out : Option ℕ) :
    t.load.code (.afterOp i op hr out) = t.load.code (.opReturn i op) := by
  cases t <;> cases op <;> rfl

/-! ## Earlier calls -/

/-- A later call has begun on the block of call `i`. -/
def Memory.Superseded (m : Memory) (i : ℕ) : Prop :=
  ∃ j state state', i < j ∧ m.states[i]? = some state ∧ m.states[j]? = some state' ∧
    state'.block = state.block

/-- What the provider and the game see of call `i`. -/
@[simp] def Event.isOf (i : ℕ) : Event → Bool
  | .invoked j _ | .announced j _ | .routine j _ _ => j = i
  | _ => false

/-- The history of call `i`. -/
def Memory.eventsOf (m : Memory) (i : ℕ) : List Event := m.log.filter (Event.isOf i)

@[simp] theorem eventsOf_record (m : Memory) (e : Event) (i : ℕ) :
    (m.record e).eventsOf i = if e.isOf i then e :: m.eventsOf i else m.eventsOf i := by
  simp only [Memory.eventsOf, Memory.record, List.filter_cons]

@[simp] theorem eventsOf_setBlock (m : Memory) (b : ℕ) (block : XAsyncBlock) (i : ℕ) :
    (m.setBlock b block).eventsOf i = m.eventsOf i := rfl

@[simp] theorem eventsOf_setHelper (m : Memory) (h : ℕ) (helper : XsyncContextHelper) (i : ℕ) :
    (m.setHelper h helper).eventsOf i = m.eventsOf i := rfl

/-- Call `i` has been cleaned up, and nothing is left that would still act for it. -/
structure Idle (m : Memory) (L : Remnant → ℕ) (i : ℕ) : Prop where
  quiet : L (.act i) = 0
  ended : ∃ state, m.states[i]? = some state ∧ state.cleanedUp = true ∧
    (L (.late i) = 0 ∨ state.status ≠ E_PENDING ∧ L (.beginning i) = 0)

section Rules
variable {m m' : Memory} {L L' : Remnant → ℕ} {i : ℕ}

/-- The rule for a step that leaves the flag and the status of the call alone. -/
theorem Idle.of (hI : Idle m L i)
    (hs : ∀ state, m.states[i]? = some state → ∃ state', m'.states[i]? = some state' ∧
      state'.cleanedUp = state.cleanedUp ∧ state'.status = state.status)
    (hL : ∀ t, t.call = some i → L' t ≤ L t) : Idle m' L' i := by
  have hzero : ∀ t, t.call = some i → L t = 0 → L' t = 0 := fun t ht hz =>
    Nat.le_zero.mp (hz ▸ hL t ht)
  obtain ⟨state, hstate, hclean, hover⟩ := hI.ended
  obtain ⟨state', hstate', hclean', hstatus⟩ := hs state hstate
  refine ⟨hzero _ rfl hI.quiet, state', hstate', hclean'.trans hclean, ?_⟩
  rw [hstatus]
  exact hover.imp (hzero _ rfl) (And.imp_right (hzero _ rfl))

theorem Idle.of_eq (hI : Idle m L i) (hs : m'.states = m.states)
    (hL : ∀ t, t.call = some i → L' t ≤ L t) : Idle m' L' i :=
  hI.of (fun state hstate => ⟨state, hs ▸ hstate, rfl, rfl⟩) hL

/-- The rule for a step that writes another call. -/
theorem Idle.of_set {k : ℕ} {state' : AsyncState} (hI : Idle m L i) (hk : k ≠ i)
    (hs : m'.states = m.states.set k state') (hL : ∀ t, t.call = some i → L' t ≤ L t) :
    Idle m' L' i := by
  refine hI.of (fun state hstate => ⟨state, ?_, rfl, rfl⟩) hL
  rw [hs, List.getElem?_set_ne hk]
  exact hstate

variable {code : Code} (hI : Idle m (fun t => L t + t.load.code code) i)
include hI

theorem Idle.not_act : code.acts i = false := by
  cases ha : code.acts i with
  | false => rfl
  | true =>
    have hone : (Remnant.act i).load.code code = 1 := if_pos ha
    have hq := hI.quiet
    omega

theorem Idle.not_late {state : AsyncState} (hs : m.states[i]? = some state)
    (hp : state.status = E_PENDING) : code.late i = false := by
  cases hl : code.late i with
  | false => rfl
  | true =>
    have hone : (Remnant.late i).load.code code = 1 := if_pos hl
    obtain ⟨state', hs', -, hz | ⟨hn, -⟩⟩ := hI.ended
    · omega
    · rw [hs, Option.some.injEq] at hs'
      exact absurd hp (hs' ▸ hn)

theorem Idle.cleaned {state : AsyncState} (hs : m.states[i]? = some state) :
    state.cleanedUp = true := by
  obtain ⟨state', hs', hc, -⟩ := hI.ended
  rw [hs, Option.some.injEq] at hs'
  exact hs' ▸ hc

end Rules

/-! ## One step -/

section Steps
variable {m : Memory} {s : TaskQueues Callback} {code : Code} {x : Choice} {r : EngineStep}
  {L : Remnant → ℕ}

theorem Invokes.remnant {k i : ℕ} {state : AsyncState} {op : XAsyncOp} (h : Invokes m k state op r)
    (hk : k ≠ i) (hj : op = .begin → m.stateOf state.block ≠ some i) {t : Remnant}
    (ht : t.call = some i) : t.load.asked r = 0 := by
  cases h with
  | @runBegin j q hp hstate =>
    have hne : j ≠ i := by
      rintro rfl
      exact hj rfl hstate
    simp [Load.asked, Load.instr, Load.submission, Remnant.callback_other ht,
        Remnant.code_other ht, hk, hne]
  | @game op | @runOther op =>
    simp [Load.asked, Load.instr, Remnant.code_other ht, hk]
  | _ =>
    simp [Load.asked, Load.instr, Load.submission, Remnant.callback_other ht,
        Remnant.code_other ht, runSyncSubmission, hk]

theorem Invokes.eventsOf {k i : ℕ} {state : AsyncState} {op : XAsyncOp}
    (h : Invokes m k state op r) (hk : k ≠ i) : r.mem.eventsOf i = m.eventsOf i := by
  have hrec : (m.record (.invoked k op)).eventsOf i = m.eventsOf i := by
    simp [hk]
  cases h <;> exact hrec

theorem Memory.beginReturned_eventsOf (m : Memory) (b : ℕ) (j : Option ℕ) (provider : Provider)
    (hr : HRESULT) (i : ℕ) : (m.beginReturned b j provider hr).eventsOf i = m.eventsOf i := by
  cases provider <;> simp [Memory.beginReturned]

/-- A new call is no other's business. -/
theorem Begins.idle {b identity i : ℕ} {provider : Provider} (h : Begins m s b identity provider r)
    (hi : i < m.states.length) :
    r.mem.eventsOf i = m.eventsOf i ∧
      (∀ t : Remnant, t.call = some i → t.load.asked r = 0) ∧
      ∀ state, m.states[i]? = some state → r.mem.states[i]? = some state := by
  cases h with
  | rejected =>
    refine ⟨Memory.beginReturned_eventsOf .., fun t _ => rfl, fun state hs => ?_⟩
    rw [Memory.beginReturned_states]
    exact hs
  | unrouted =>
    refine ⟨Memory.beginReturned_eventsOf .., fun t _ => rfl, fun state hs => ?_⟩
    rw [Memory.beginReturned_states]
    exact hs
  | @parked route q routed state hb hn hroute hq hm hstate =>
    have hne : m.states.length ≠ i := by omega
    subst hm
    refine ⟨?_, fun t ht => ?_, fun old hold => getElem?_push_of hold⟩
    · simp only [Memory.park, eventsOf_record, Event.isOf]
      rfl
    · rw [asked_frame_admin]
      exact Remnant.code_other ht _ (by simpa using hne)

/-- A call that is idle, and that no block drives, stays idle, and its history is closed. -/
theorem Steps.idle (h : Steps m s code x r) {i : ℕ} (hfree : ∀ b, m.stateOf b ≠ some i)
    (hI : Idle m (fun t => L t + t.load.code code) i) :
    Idle r.mem (fun t => L t + t.load.asked r) i ∧ r.mem.eventsOf i = m.eventsOf i := by
  have hi : i < m.states.length := by
    obtain ⟨state, hs, -⟩ := hI.ended
    exact (List.getElem?_eq_some_iff.mp hs).1
  have hact := hI.not_act
  cases h with
  | begin h | run h =>
    obtain ⟨hevents, hload, hstate⟩ := h.idle hi
    refine ⟨hI.of (fun state hs => ⟨state, hstate state hs, rfl, rfl⟩) fun t ht => ?_, hevents⟩
    rw [asked_resume _ t.load_sees, hload t ht]
    exact Nat.le_add_right _ _
  | @runSync b size r hb h =>
    obtain ⟨hevents, hload, hstate⟩ := h.idle (i := i) hi
    refine ⟨hI.of (fun state hs => ⟨state, hstate state hs, rfl, rfl⟩) fun t ht => ?_, hevents⟩
    rw [asked_resume _ t.load_sees, hload t ht]
    exact Nat.le_add_right _ _
  | queue hr =>
    subst hr
    refine ⟨hI.of_eq rfl fun t ht => ?_, rfl⟩
    rw [asked_queue _ t.load_sees]
    exact Nat.le_add_right _ _
  | @resolved b k c hb =>
    have hk : k ≠ i := by
      rintro rfl
      exact hfree b hb
    refine ⟨hI.of_eq rfl fun t ht => ?_, rfl⟩
    simp [Load.asked, Load.instr, Remnant.code_other ht, hk]
  | @completeBlock h b k helper x hh hb =>
    have hk : k ≠ i := by
      rintro rfl
      exact hfree b hb
    refine ⟨hI.of_eq rfl fun t ht => ?_, by simp⟩
    simp [Load.asked, Load.instr, Remnant.code_other ht, hk]
  | @unresolved b c hb =>
    refine ⟨hI.of_eq rfl fun t ht => ?_, rfl⟩
    simp [Load.asked, Load.instr, Remnant.code_other ht, Function.comp_def]
  | @invoke k op state r x hs hinvoke =>
    have hk : k ≠ i := by simpa using hact
    refine ⟨hI.of_eq hinvoke.same.1 fun t ht => ?_, hinvoke.eventsOf hk⟩
    rw [hinvoke.remnant hk (fun _ => hfree _) ht]
    exact Nat.le_add_right _ _
  | @schedule k delayInMs state x hs =>
    have hk : k ≠ i := by simpa using hact
    refine ⟨hI.of_eq rfl fun t ht => ?_, rfl⟩
    simp [Load.asked, Load.instr, Load.submission, Remnant.callback_other ht,
        Remnant.code_other ht, hk]
  | @announce k callback result state x hs hc | @completionCallback k callback state x hs =>
    have hk : k ≠ i := by simpa using hact
    refine ⟨hI.of_eq rfl fun t ht => ?_, by simp [hk]⟩
    simp [Load.asked, Load.instr, Load.submission, Remnant.callback_other ht,
        Remnant.code_other ht, hk]
  | @getResult k identity bufferSize state x hs ho hid hb =>
    have hk : k ≠ i := by simpa using hact
    refine ⟨hI.of_set hk rfl fun t ht => ?_, rfl⟩
    simp [Load.asked, Load.instr, Remnant.code_other ht, hk]
  | @complete k size result state x hs hp | @didWork k hr out state x hs hpend hp =>
    have hk : k ≠ i := by
      rintro rfl
      simpa using hI.not_late hs hp
    refine ⟨hI.of_set hk rfl fun t ht => ?_, rfl⟩
    simp [Load.asked, Load.instr, Remnant.code_other ht, hk]
  | @cancel k state x hs hp hcanceled =>
    have hk : k ≠ i := by
      rintro rfl
      simpa using hI.not_late hs hp
    refine ⟨hI.of_set hk rfl fun t ht => ?_, rfl⟩
    simp [Load.asked, Load.instr, Remnant.code_other ht, hk]
  | @canceled k hr out state x hs hp =>
    have hk : k ≠ i := by
      rintro rfl
      simpa using hI.not_late hs hp
    refine ⟨hI.of_eq rfl fun t ht => ?_, rfl⟩
    simp [Load.asked, Load.instr, Load.submission, Remnant.callback_other ht,
        Remnant.code_other ht, hk]
  | @cleanup k state x hs hc =>
    have hk : k ≠ i := by
      rintro rfl
      simp [hI.cleaned hs] at hc
    refine ⟨hI.of_set hk rfl fun t ht => ?_, rfl⟩
    simp [Load.asked, Load.instr, Remnant.code_other ht, hk]
  | @beginFailed k hr out state x hs ho =>
    by_cases hk : k = i
    · -- the status is written, but nothing is left that looks at it
      subst hk
      obtain ⟨state', hs', hclean, hz | ⟨-, hz⟩⟩ := hI.ended
      · have hnew := getElem?_set_at { state with status := hr } hs
        have hc : state.cleanedUp = true := hI.cleaned hs
        refine ⟨⟨?_, _, hnew, hc, .inl ?_⟩, rfl⟩
        · simpa [Load.asked, Load.instr, Remnant.load] using hI.quiet
        · simpa [Load.asked, Load.instr, Remnant.load] using hz
      · simp [Remnant.load] at hz
    · refine ⟨hI.of_set hk rfl fun t ht => ?_, rfl⟩
      simp [Load.asked, Load.instr, Remnant.code_other ht]
  | @opReturn k op hr =>
    refine ⟨hI.of_eq rfl fun t ht => ?_, rfl⟩
    simp [Load.asked, Load.instr, Remnant.code_afterOp]
  | cleanedUp hs =>
    refine ⟨hI.of_eq (Memory.takeState_states ..) fun t ht => ?_, ?_⟩
    · simp [Load.asked]
    · rw [Memory.eventsOf, Memory.takeState_log]
      rfl
  | beginReturn hs =>
    refine ⟨hI.of_eq (Memory.beginReturned_states ..) fun t ht => ?_,
      Memory.beginReturned_eventsOf ..⟩
    simp [Load.asked]
  | workCanceled | work | futureOk | futureErr =>
    refine ⟨hI.of_eq rfl fun t ht => ?_, by simp⟩
    simp [Load.asked, Load.instr, Remnant.code_other ht]
  | _ =>
    refine ⟨hI.of_eq rfl fun t ht => ?_, by simp⟩
    simp [Load.asked, Load.instr, Remnant.code_other ht]

/-! ## Which steps begin a call -/

/-- A step that parks a new call in block `b`. -/
structure Parks (m : Memory) (x : Choice) (r : EngineStep) (b : ℕ) : Prop where
  choice : (∃ identity, x = .begin b identity true) ∨ x = .run b true ∨ ∃ size, x = .runSync b size
  free : m.stateOf b = none
  state : ∃ state, r.mem.states = m.states ++ [state] ∧ state.block = b
  parked : ∀ c i, r.mem.stateOf c = some i →
    c = b ∧ i = m.states.length ∨ c ≠ b ∧ m.stateOf c = some i

/-- A step that parks none. -/
structure ParksNone (m : Memory) (r : EngineStep) : Prop where
  length : r.mem.states.length = m.states.length
  parked : ∀ b i, r.mem.stateOf b = some i → m.stateOf b = some i

/-- The `Begin` of a call of `run_sync` makes its worker. -/
def StartsWorker (m : Memory) (code : Code) (h b : ℕ) : Prop :=
  ∃ i state, code = .invoke i .begin ∧ m.states[i]? = some state ∧ state.provider = .runSync h ∧
    state.block = b

theorem stateOf_congr {m m' : Memory} (h : ∀ b, (m'.blocks b).internal = (m.blocks b).internal)
    (b : ℕ) : m'.stateOf b = m.stateOf b := by
  unfold Memory.stateOf
  rw [h]

theorem stateOf_takeState {b c i : ℕ} (h : (m.takeState b).stateOf c = some i) :
    m.stateOf c = some i := by
  unfold Memory.takeState at h
  split at h
  · exact h
  · by_cases hc : c = b
    · subst hc
      simp [Memory.stateOf] at h
    · unfold Memory.stateOf at h ⊢
      rw [Memory.setBlock_blocks, Function.update_of_ne hc] at h
      exact h

theorem Begins.parks {b identity : ℕ} {provider : Provider}
    (h : Begins m s b identity provider r) : ParksNone m (resume r) ∨
      m.stateOf b = none ∧ (∃ state, r.mem.states = m.states ++ [state] ∧ state.block = b) ∧
        ∀ c i, r.mem.stateOf c = some i →
          c = b ∧ i = m.states.length ∨ c ≠ b ∧ m.stateOf c = some i := by
  cases h with
  | rejected =>
    refine .inl ⟨?_, fun c i hc => ?_⟩
    · rw [resume, Memory.beginReturned_states]
    · rw [← hc]
      exact (stateOf_congr (fun c => by rw [resume, Memory.beginReturned_blocks]) c).symm
  | unrouted =>
    refine .inl ⟨?_, fun c i hc => ?_⟩
    · rw [resume, Memory.beginReturned_states, Memory.setBlock_states]
    · rw [← hc]
      refine (stateOf_congr (fun c => ?_) c).symm
      rw [resume, Memory.beginReturned_blocks]
      exact internal_setBlock m _ _ _ c
  | @parked route q routed state hb hn hroute hq hm hstate =>
    subst hm hstate
    refine .inr ⟨hn, ⟨_, rfl, rfl⟩, fun c i hc => ?_⟩
    by_cases hcb : c = b
    · subst hcb
      refine .inl ⟨rfl, ?_⟩
      simpa [Memory.stateOf, hb, Memory.park, eq_comm] using hc
    · refine .inr ⟨hcb, ?_⟩
      simpa [Memory.stateOf, Memory.park, Function.update_of_ne hcb] using hc

theorem Steps.parks (h : Steps m s code x r) :
    (code = .game ∧ ∃ b, Parks m x r b) ∨ ParksNone m r := by
  cases h with
  | @begin b identity r h =>
    rcases h.parks with hnone | ⟨hfree, hstate, hparked⟩
    · exact .inr hnone
    · exact .inl ⟨rfl, b, .inl ⟨identity, rfl⟩, hfree, hstate, hparked⟩
  | @run b r h =>
    rcases h.parks with hnone | ⟨hfree, hstate, hparked⟩
    · exact .inr hnone
    · exact .inl ⟨rfl, b, .inr (.inl rfl), hfree, hstate, hparked⟩
  | @runSync b size r hb hbegins =>
    rcases hbegins.parks with hnone | ⟨hfree, hstate, hparked⟩
    · exact .inr ⟨hnone.length, hnone.parked⟩
    · exact .inl ⟨rfl, b, .inr (.inr ⟨size, rfl⟩), hfree, hstate, hparked⟩
  | setBlock =>
    refine .inr ⟨rfl, fun c i hc => ?_⟩
    rw [← hc]
    exact (stateOf_congr (internal_setBlock m _ _ _) c).symm
  | queue hr =>
    subst hr
    exact .inr ⟨rfl, fun _ _ hc => hc⟩
  | invoke hs hinvoke =>
    refine .inr ⟨by rw [hinvoke.same.1], fun c i hc => ?_⟩
    rw [← hc]
    exact (stateOf_congr (fun c => by rw [hinvoke.same.2]) c).symm
  | cleanedUp => exact .inr ⟨by rw [Memory.takeState_states], fun _ _ hc => stateOf_takeState hc⟩
  | beginReturn =>
    refine .inr ⟨by rw [Memory.beginReturned_states], fun c i hc => ?_⟩
    rw [← hc]
    exact (stateOf_congr (fun c => by rw [Memory.beginReturned_blocks]) c).symm
  | complete | getResult | cancel | beginFailed | didWork | cleanup =>
    exact .inr ⟨by simp, fun _ _ hc => hc⟩
  | _ => exact .inr ⟨rfl, fun _ _ hc => hc⟩

/-- No step but a `Begin` makes a worker. -/
theorem Steps.startsWorker (h : Steps m s code x r) (k b : ℕ) :
    (Remnant.worker k b).load.asked r ≤ (Remnant.worker k b).load.code code ∨
      StartsWorker m code k b := by
  cases h with
  | begin h | run h | runSync _ h =>
    left
    rw [asked_resume _ (Remnant.load_sees _), h.asked _ fun _ => rfl]
    exact Nat.zero_le _
  | queue hr =>
    subst hr
    left
    rw [asked_queue _ (Remnant.load_sees _)]
    exact Nat.zero_le _
  | @invoke i op state r x hs hinvoke =>
    cases hinvoke with
    | @runSyncBegin h q helper admin hp hh =>
      by_cases hk : h = k ∧ state.block = b
      · exact .inr ⟨i, state, rfl, hs, hk.1 ▸ hp, hk.2⟩
      · left
        simp [Load.asked, Load.instr, Load.submission, Remnant.worker_callback,
          Remnant.worker_code, runSyncSubmission, hk]
    | _ =>
      left
      simp [Load.asked, Load.instr, Load.submission, Remnant.worker_callback, Remnant.worker_code]
  | unresolved =>
    left
    simp [Load.asked, Load.instr, Remnant.worker_code, Function.comp_def]
  | _ =>
    left
    simp [Load.asked, Load.instr, Load.submission, Remnant.worker_callback, Remnant.worker_code]

/-- A call that a later one has followed on its block stays so. -/
theorem Steps.superseded (h : Steps m s code x r) {i : ℕ} (hi : m.Superseded i) :
    r.mem.Superseded i := by
  obtain ⟨j, state, state', hij, hs, hs', hb⟩ := hi
  obtain ⟨new, hn, hsame⟩ := h.keeps hs
  obtain ⟨new', hn', hsame'⟩ := h.keeps hs'
  exact ⟨j, new, new', hij, hn, hn', by rw [hsame'.block, hsame.block, hb]⟩

/-- No other step makes a call an earlier one. -/
theorem Steps.superseded_of (h : Steps m s code x r) (hlen : r.mem.states.length = m.states.length)
    {i : ℕ} (hi : r.mem.Superseded i) : m.Superseded i := by
  have hold : ∀ (j : ℕ) (new : AsyncState), r.mem.states[j]? = some new →
      ∃ old, m.states[j]? = some old ∧ old.block = new.block := by
    intro j new hj
    have hlt : j < m.states.length := hlen ▸ (List.getElem?_eq_some_iff.mp hj).1
    obtain ⟨new', hn, hsame⟩ := h.keeps (List.getElem?_eq_getElem hlt)
    rw [hj, Option.some.injEq] at hn
    exact ⟨_, List.getElem?_eq_getElem hlt, by rw [hn, hsame.block]⟩
  obtain ⟨j, state, state', hij, hs, hs', hb⟩ := hi
  obtain ⟨old, ho, hob⟩ := hold i state hs
  obtain ⟨old', ho', hob'⟩ := hold j state' hs'
  exact ⟨j, old, old', hij, ho, ho', by rw [hob', hob, hb]⟩

end Steps

/-! ## Runs -/

/-- Nothing is left of the earlier calls on block `b`. -/
def unoccupied (s : World Engine) (R : Multiset (Frame Callback Code)) (b : ℕ) : Bool :=
  decide (∀ i < s.mem.states.length, ∀ state ∈ s.mem.states[i]?, state.block = b →
    (Remnant.act i).load.total s.toCore R = 0 ∧
      ((Remnant.late i).load.total s.toCore R = 0 ∨
        state.status ≠ E_PENDING ∧ (Remnant.beginning i).load.total s.toCore R = 0)) &&
  decide (∀ h < s.mem.helpers.length, (Remnant.worker h b).load.total s.toCore R = 0)

/-- The condition on a game that uses its blocks again: it begins a call on a block that drives none
when nothing is left of the earlier calls on it. -/
def beginsUnoccupied (s : World Engine) (R : Multiset (Frame Callback Code)) : Code → Choice → Bool
  | .game, .begin b _ true | .game, .run b true | .game, .runSync b _ =>
      (s.mem.stateOf b).isSome || unoccupied s R b
  | _, _ => true

abbrev reusesUnoccupied : Guard (World Engine) (Frame Callback Code) (Option Choice) :=
  onCode beginsUnoccupied

structure Isolated (m : Memory) (L : Remnant → ℕ) : Prop where
  idle : ∀ i, m.Superseded i → Idle m L i
  latest : ∀ b i, m.stateOf b = some i → ¬ m.Superseded i
  worker : ∀ h b, 0 < L (.worker h b) → h < m.helpers.length ∧
    ∀ i, m.stateOf b = some i → m.Runs i h
  completed : ∀ h i, .workerCompletes h (some i) ∈ m.log → m.Runs i h

theorem Isolated.mono {m : Memory} {L L' : Remnant → ℕ} (hI : Isolated m L)
    (hL : ∀ t, L' t ≤ L t) : Isolated m L' :=
  ⟨fun i hi => (hI.idle i hi).of_eq rfl fun t _ => hL t, hI.latest,
    fun h b hpos => hI.worker h b (hpos.trans_le (hL _)), hI.completed⟩

section Run
variable {s : World Engine} {R : Multiset (Frame Callback Code)} {code : Code} {x : Choice}
  {r : EngineStep}

/-- The `Begin` of a call finds no later call on its block, and no earlier one. -/
theorem Isolated.ownWorker {m : Memory} {L : Remnant → ℕ} {K : ℕ → ℕ} {i k b : ℕ}
    {state : AsyncState} (hI : Isolated m fun t => L t + t.load.code (.invoke i .begin))
    (hp : Parked m K) (howners : Owners m) (hs : m.states[i]? = some state)
    (hprov : state.provider = .runSync k) (hblock : state.block = b) :
    k < m.helpers.length ∧ ∀ j, m.stateOf b = some j → m.Runs j k := by
  refine ⟨howners.made i k ⟨state, hs, hprov⟩, fun j hj => ?_⟩
  obtain ⟨-, other, ho, hob⟩ := hp.parked b j (stateOf_eq_some hj).2
  rcases Nat.lt_trichotomy i j with hlt | rfl | hlt
  · have hact := (hI.idle i ⟨j, state, other, hlt, hs, ho, hob.trans hblock.symm⟩).quiet
    simp [Remnant.load] at hact
  · exact ⟨state, hs, hprov⟩
  · exact absurd ⟨i, other, state, hlt, ho, hs, hblock.trans hob.symm⟩ (hI.latest b j hj)

theorem isolated_step (hg : beginsUnoccupied s R code x = true)
    (hp : Parked s.mem fun i => (closing i).total s.toCore R + (closing i).code code)
    (howners : Owners s.mem) (h : Steps s.mem s.toTaskQueues code x r)
    (hI : Isolated s.mem fun t => t.load.total s.toCore R + t.load.code code) :
    Isolated r.mem fun t => t.load.total s.toCore R + t.load.asked r := by
  have hcompleted : ∀ k i, .workerCompletes k (some i) ∈ r.mem.log → r.mem.Runs i k := by
    intro k i hl
    rcases h.completes hl with hold | ⟨b, rfl⟩
    · exact h.keeps_runs (hI.completed k i hold)
    · refine h.keeps_runs ?_
      have hworker := hI.worker k b (by simp [Remnant.load])
      cases h with
      | @completeBlock _ _ j helper x hh hb =>
        simp only [Memory.record_log, List.mem_cons, Event.workerCompletes.injEq, reduceCtorEq,
          true_and, Option.some.injEq, false_or] at hl
        rcases hl with rfl | hl
        · exact hworker.2 i hb
        · exact hI.completed k i hl
      | completeNothing hh hb =>
        simp only [Memory.record_log, List.mem_cons, Event.workerCompletes.injEq, reduceCtorEq,
          and_false, false_or] at hl
        exact hI.completed k i hl
  rcases h.parks with ⟨rfl, b, hparks⟩ | hnone
  · obtain ⟨state, hstates, hblock⟩ := hparks.state
    have hopen : unoccupied s R b = true := by
      rcases hparks.choice with ⟨identity, rfl⟩ | rfl | ⟨size, rfl⟩ <;>
        simpa [beginsUnoccupied, hparks.free] using hg
    obtain ⟨hleft, hworkers⟩ := Bool.and_eq_true_iff.mp hopen
    replace hleft := of_decide_eq_true hleft
    replace hworkers := of_decide_eq_true hworkers
    have hidle : ∀ i, r.mem.Superseded i → (∀ c, s.mem.stateOf c ≠ some i) ∧
        Idle s.mem (fun t => t.load.total s.toCore R + t.load.code .game) i := by
      rintro i ⟨j, old, later, hij, hi, hj, hb⟩
      rw [hstates] at hi hj
      have hi' : s.mem.states[i]? = some old := by
        rcases getElem?_push_cases hi with hi | ⟨hi, -⟩
        · exact hi
        · have hlt := (List.getElem?_eq_some_iff.mp hj).1
          rw [List.length_append, List.length_singleton] at hlt
          omega
      rcases getElem?_push_cases hj with hj | ⟨-, rfl⟩
      · have hsup : s.mem.Superseded i := ⟨j, old, later, hij, hi', hj, hb⟩
        exact ⟨fun c hc => hI.latest c i hc hsup, hI.idle i hsup⟩
      · -- the call that the new one follows on its block
        have hob : old.block = b := hb.symm.trans hblock
        have hfree : ∀ c, s.mem.stateOf c ≠ some i := by
          intro c hc
          obtain ⟨hc0, hin⟩ := stateOf_eq_some hc
          obtain ⟨-, old', ho', hbo⟩ := hp.parked c i hin
          rw [hi', Option.some.injEq] at ho'
          subst ho'
          rw [← hbo, hob, hparks.free] at hc
          cases hc
        have hclean : old.cleanedUp = true := by
          cases hcl : old.cleanedUp with
          | true => rfl
          | false =>
            have hin := hp.alive i old hi' hcl
            have hb0 := (hp.parked old.block i hin).1
            exact absurd (by rw [Memory.stateOf, if_neg hb0, hin]) (hfree old.block)
        obtain ⟨hact, hlate⟩ := hleft i (List.getElem?_eq_some_iff.mp hi').1 old hi' hob
        exact ⟨hfree, hact, old, hi', hclean, hlate⟩
    refine ⟨fun i hi => (h.idle (hidle i hi).1 (hidle i hi).2).1, fun c i hc hi => ?_,
      fun k c hpos => ?_, hcompleted⟩
    · rcases hparks.parked c i hc with ⟨-, rfl⟩ | ⟨-, hc⟩
      · obtain ⟨j, old, later, hij, -, hj, -⟩ := hi
        rw [hstates] at hj
        have hlt := (List.getElem?_eq_some_iff.mp hj).1
        rw [List.length_append, List.length_singleton] at hlt
        omega
      · exact (hidle i hi).1 c hc
    · have hle : (Remnant.worker k c).load.asked r ≤ (Remnant.worker k c).load.code .game := by
        refine (h.startsWorker k c).resolve_right ?_
        rintro ⟨i, state, hcode, -⟩
        cases hcode
      have hzero : (Remnant.worker k c).load.code .game = 0 := (Remnant.load_sees _).game
      obtain ⟨hk, hruns⟩ := hI.worker k c (by omega)
      refine ⟨?_, fun i hc => ?_⟩
      · rcases h.helpers with he | ⟨-, he⟩ <;> omega
      · rcases hparks.parked c i hc with ⟨rfl, -⟩ | ⟨-, hc⟩
        · have hno := hworkers k hk
          omega
        · exact h.keeps_runs (hruns i hc)
  · have hsup : ∀ i, r.mem.Superseded i → s.mem.Superseded i := fun i hi =>
      h.superseded_of hnone.length hi
    refine ⟨fun i hi => ?_, fun b i hb hi => hI.latest b i (hnone.parked b i hb) (hsup i hi),
      fun k b hpos => ?_, hcompleted⟩
    · refine (h.idle (fun b hb => ?_) (hI.idle i (hsup i hi))).1
      exact hI.latest b i hb (hsup i hi)
    · have hold : k < s.mem.helpers.length ∧ ∀ i, s.mem.stateOf b = some i → s.mem.Runs i k := by
        rcases h.startsWorker k b with hle | ⟨i, state, rfl, hs, hprov, hblock⟩
        · exact hI.worker k b (by omega)
        · exact hI.ownWorker hp howners hs hprov hblock
      refine ⟨?_, fun i hb => h.keeps_runs (hold.2 i (hnone.parked b i hb))⟩
      rcases h.helpers with he | ⟨-, he⟩ <;> omega

variable {c c' : Config (World Engine) (Frame Callback Code)} {pool n : ℕ}

theorem isolated (h : (machine Engine).Reaches reusesUnoccupied (Engine.start pool n) c) :
    Isolated c.shared.mem fun t => t.load.total c.shared.toCore c.frames := by
  refine engine_invariant (w := Remnant.load) (J := fun s fs =>
    (Parked s.mem fun i => (closing i).total s.toCore fs) ∧ Owners s.mem) h Remnant.load_sees
    (fun c hc => ⟨parked hc, reaches_owners hc⟩) ?_ (fun m L L' hL hI => hI.mono hL) ?_
  · refine ⟨?_, fun b i hb => ?_, fun k b hpos => ?_, fun k i hl => ?_⟩
    · rintro i ⟨j, old, later, -, hi, -⟩
      simp [Engine.start] at hi
    · simp [Engine.start, Memory.stateOf] at hb
    · simp [start_total (Remnant.load_sees _)] at hpos
    · simp [Engine.start] at hl
  · rintro s R code choice r hg ⟨hp, howners⟩ hs hI
    refine isolated_step hg ?_ howners hs hI
    simpa only [total_client] using hp

/-- In every run of a game that begins no call on a block of which an earlier call has left anything,
a call is over once a later one has begun on its block: its provider receives nothing more, no
completion of it is announced and its completion routine does not run. A worker of `run_sync`
completes the call it was started for, or none. -/
theorem reuse_isolates (h : (machine Engine).Reaches reusesUnoccupied (Engine.start pool n) c)
    (h' : (machine Engine).Reaches reusesUnoccupied c c') :
    (∀ i, c.shared.mem.Superseded i →
      c'.shared.mem.eventsOf i = c.shared.mem.eventsOf i) ∧
    ∀ k i, .workerCompletes k (some i) ∈ c'.shared.mem.log → c'.shared.mem.Runs i k := by
  refine ⟨fun i hi => ?_, (isolated (h.trans h')).completed⟩
  have hkept : c'.shared.mem.Superseded i ∧
      c'.shared.mem.eventsOf i = c.shared.mem.eventsOf i := by
    refine memory_invariant (J := fun s fs => Isolated s.mem fun t => t.load.total s.toCore fs)
      (I := fun m => m.Superseded i ∧ m.eventsOf i = c.shared.mem.eventsOf i) h'
      (fun d hd => isolated (h.trans hd)) ⟨hi, rfl⟩ ?_
    rintro s R code choice r - hI hs ⟨hsup, hevents⟩
    have hidle := hI.idle i hsup
    simp only [total_client] at hidle
    have hstep := hs.idle (fun b hb => hI.latest b i hb hsup) hidle
    exact ⟨hs.superseded hsup, hstep.2.trans hevents⟩
  exact hkept.2

end Run

/-- A call is completed and polled, and its block is begun again. -/
def begunAgain : List (ℕ × Option Choice) :=
  [Engine.does (.begin 1 0 true), Engine.does .finish, Engine.does .finish,
    Engine.does (.returns S_OK)] ++ Engine.steps 1 1 ++
    [Engine.does (.xasync 1 (.complete S_OK 0))] ++ Engine.steps 1 2 ++
    [Engine.does (.xasync 1 (.getStatus false))] ++ Engine.steps 1 4 ++
    [Engine.does (.returns S_OK)] ++ Engine.steps 1 2 ++ [Engine.does (.begin 1 0 true)]

/-- The second call is completed and cleaned up in its turn. -/
def cleanedUpAgain : List (ℕ × Option Choice) :=
  [Engine.does .finish, Engine.does .finish, Engine.does (.returns S_OK)] ++ Engine.steps 1 1 ++
    [Engine.does (.xasync 1 (.complete S_OK 0))] ++ Engine.steps 1 2 ++
    [Engine.does (.xasync 1 (.getStatus false))] ++ Engine.steps 1 3

theorem reuse_isolates_begunAgain :
    ∃ c c' : Config (World Engine) (Frame Callback Code), c.shared.mem.Superseded 0 ∧
      c'.shared.mem.eventsOf 1 = [.invoked 1 .cleanup, .invoked 1 .begin] ∧
        c'.shared.mem.eventsOf 0 = c.shared.mem.eventsOf 0 := by
  have h : ((machine Engine).run reusesUnoccupied begunAgain (Engine.start 2 1)).any (fun c =>
      decide (c.shared.mem.states.map AsyncState.block = [1, 1]) &&
        ((machine Engine).run reusesUnoccupied cleanedUpAgain c).any fun c' =>
          decide (c'.shared.mem.eventsOf 1 = [.invoked 1 .cleanup, .invoked 1 .begin])) = true := by
    decide +kernel
  obtain ⟨c, hr, hc⟩ := Machine.Reaches.of_run_any h
  obtain ⟨hblocks, hc⟩ := Bool.and_eq_true_iff.mp hc
  obtain ⟨c', hr', hc'⟩ := Machine.Reaches.of_run_any hc
  have hsup : c.shared.mem.Superseded 0 := by
    have hmap := of_decide_eq_true hblocks
    obtain ⟨state, rest, hs, hb, hrest⟩ := List.map_eq_cons_iff.mp hmap
    obtain ⟨state', rest', hs', hb', -⟩ := List.map_eq_cons_iff.mp hrest
    refine ⟨1, state, state', Nat.one_pos, ?_, ?_, hb'.trans hb.symm⟩ <;> simp [hs, hs']
  exact ⟨c, c', hsup, of_decide_eq_true hc', (reuse_isolates hr hr').1 0 hsup⟩

end XGameRuntime.XAsync
