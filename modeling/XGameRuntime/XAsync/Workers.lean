import XGameRuntime.XAsync.Lifetime

/-! # The worker of `run_sync`

A context has one worker. It runs the future, stores what the future returns in the context, and then
completes the block: after that nobody writes the result of the context any more.
-/

namespace XGameRuntime.XAsync
open Concurrency TaskQueue
set_option autoImplicit false

/-- What a future leaves in the result of its context. -/
def FutureResult.hresult : FutureResult → HRESULT
  | .ok _ => S_OK
  | .err hr => hr

/-- How a future returns. -/
def FutureResult.choice : FutureResult → Choice
  | .ok value => .produces value
  | .err hr => .returns hr

/-- Whether the worker has stored its result. -/
inductive Phase where
  | before
  | finishing
  deriving DecidableEq

/-- The worker of context `h`, by its phase. -/
def workerIn (p : Phase) (h : ℕ) : Load Callback Code where
  callback
    | .runSyncWorker k _ => if p = .before ∧ k = h then 1 else 0
    | _ => 0
  code
    | .work k _ _ | .futureReturn k _ => if p = .before ∧ k = h then 1 else 0
    | .completeBlock k _ => if p = .finishing ∧ k = h then 1 else 0
    | _ => 0

theorem workerIn_sees (k : Phase × ℕ) : Sees (workerIn k.1 k.2) := by
  refine ⟨rfl, rfl, fun _ => rfl, fun callback canceled => ?_⟩
  cases callback with
  | work j => cases canceled <;> simp [Callback.code, workerIn]
  | _ => simp [Callback.code, workerIn]

/-- What a section does to the futures and to what the contexts hold. -/
inductive Stores (m : Memory) (code : Code) (x : Choice) (r : EngineStep) : Prop where
  | kept (hlog : ∀ h result, .future h result ∈ r.mem.log ↔ .future h result ∈ m.log)
      (hhelpers : ∀ h helper', r.mem.helpers[h]? = some helper' →
        (∃ helper, m.helpers[h]? = some helper ∧ helper'.result = helper.result ∧
          helper'.size = helper.size ∧
          (helper'.payload = helper.payload ∨ ∃ i, code = .invoke i .cleanup ∧ m.Runs i h)) ∨
        h = m.helpers.length ∧ helper'.result = E_ABORT)
  | canceled {h b : ℕ} {helper : XsyncContextHelper} (hcode : code = .work h b true)
      (hh : m.helpers[h]? = some helper)
      (hlog : ∀ h result, .future h result ∈ r.mem.log ↔ .future h result ∈ m.log)
      (hhelpers : r.mem.helpers = m.helpers.set h { helper with result := E_ABORT })
  | returned {h b : ℕ} {helper helper' : XsyncContextHelper} {result : FutureResult}
      (hcode : code = .futureReturn h b) (hx : x = result.choice)
      (hh : m.helpers[h]? = some helper)
      (hlog : r.mem.log = .touched h :: .future h result :: m.log)
      (hhelpers : r.mem.helpers = m.helpers.set h helper')
      (hresult : helper'.result = result.hresult) (hsize : helper'.size = helper.size)
      (hpayload : ∀ value, result = .ok value → helper'.payload = some value)

section Steps
variable {m : Memory} {s : TaskQueues Callback} {code : Code} {x : Choice} {r : EngineStep}

theorem Stores.of_eq (hlog : ∀ h result, .future h result ∈ r.mem.log ↔ .future h result ∈ m.log)
    (hhelpers : r.mem.helpers = m.helpers) : Stores m code x r :=
  .kept hlog fun _ helper' hh => .inl ⟨helper', hhelpers ▸ hh, rfl, rfl, .inl rfl⟩

theorem Invokes.stores {i : ℕ} {state : AsyncState} {op : XAsyncOp}
    (hs : m.states[i]? = some state) (h : Invokes m i state op r) :
    Stores m (.invoke i op) x r := by
  cases h with
  | @runSyncCancel k helper hp hh =>
    refine .kept (by simp) fun j helper' hj => .inl ?_
    rcases getElem?_set_cases hj with ⟨rfl, rfl⟩ | ⟨-, hj⟩
    · exact ⟨helper, hh, rfl, rfl, .inl rfl⟩
    · exact ⟨helper', hj, rfl, rfl, .inl rfl⟩
  | @runSyncCleanup k helper hp hh =>
    refine .kept (by simp) fun j helper' hj => .inl ?_
    rcases getElem?_set_cases hj with ⟨rfl, rfl⟩ | ⟨-, hj⟩
    · exact ⟨helper, hh, rfl, rfl, .inr ⟨i, rfl, state, hs, hp⟩⟩
    · exact ⟨helper', hj, rfl, rfl, .inl rfl⟩
  | _ => exact .of_eq (by simp) (by simp)

theorem Memory.mem_beginReturned {b : ℕ} {i : Option ℕ} {provider : Provider} {hr : HRESULT}
    {e : Event} (h1 : ∀ value, e ≠ .returned value) (h2 : ∀ h, e ≠ .released h) :
    e ∈ (m.beginReturned b i provider hr).log ↔ e ∈ m.log := by
  cases provider <;> simp [Memory.beginReturned, h1, h2]

/-- `XAsyncBegin` leaves futures and contexts alone. -/
theorem Begins.stores {b identity : ℕ} {provider : Provider}
    (h : Begins m s b identity provider r) :
    (∀ h result, .future h result ∈ r.mem.log ↔ .future h result ∈ m.log) ∧
      r.mem.helpers = m.helpers := by
  cases h with
  | rejected =>
    exact ⟨fun _ _ => Memory.mem_beginReturned (by simp) (by simp),
      Memory.beginReturned_helpers ..⟩
  | unrouted =>
    refine ⟨fun _ _ => (Memory.mem_beginReturned (by simp) (by simp)).trans (by simp), ?_⟩
    rw [Memory.beginReturned_helpers, Memory.setBlock_helpers]
  | parked hb hn hroute hq hm hstate =>
    subst hm hstate
    exact ⟨by simp, by simp⟩

theorem Steps.stores (h : Steps m s code x r) : Stores m code x r := by
  cases h with
  | begin h | run h => exact .of_eq h.stores.1 h.stores.2
  | @runSync b size r hb h =>
    have hst := h.stores
    refine .kept hst.1 fun j helper' hj => ?_
    change r.mem.helpers[j]? = some helper' at hj
    rw [hst.2, Memory.newHelper, List.getElem?_append] at hj
    split at hj
    · exact .inl ⟨helper', hj, rfl, rfl, .inl rfl⟩
    · right
      obtain ⟨hlt, hget⟩ := List.getElem?_eq_some_iff.mp hj
      simp only [List.length_singleton] at hlt
      exact ⟨by omega, by rw [← hget]; simp⟩
  | invoke hs hi => exact hi.stores hs
  | beginReturn =>
    exact .of_eq (fun _ _ => Memory.mem_beginReturned (by simp) (by simp))
      (Memory.beginReturned_helpers ..)
  | cleanedUp => exact .of_eq (by simp) (by simp)
  | workCanceled hh => exact .canceled rfl hh (by simp) rfl
  | futureOk hh =>
    refine .returned rfl rfl hh rfl rfl rfl rfl fun value hv => ?_
    cases hv
    rfl
  | futureErr hh => exact .returned rfl rfl hh rfl rfl rfl rfl (by simp)
  | _ => exact .of_eq (by simp) (by simp)

theorem Invokes.worker {i : ℕ} {state : AsyncState} {op : XAsyncOp}
    (hs : m.states[i]? = some state) (h : Invokes m i state op r) (k : ℕ) :
    (workerIn .finishing k).asked r = 0 ∧ ((workerIn .before k).asked r = 0 ∨
      m.Starting (.invoke i op) k ∧ (workerIn .before k).asked r = 1) := by
  cases h with
  | @runSyncBegin h q helper admin hp hh =>
    by_cases hk : h = k
    · refine ⟨by simp [Load.asked, Load.instr, Load.submission, workerIn, runSyncSubmission], .inr ?_⟩
      refine ⟨⟨i, rfl, state, hs, hk ▸ hp⟩, ?_⟩
      simp [Load.asked, Load.instr, Load.submission, workerIn, runSyncSubmission, hk]
    · simp [Load.asked, Load.instr, Load.submission, workerIn, runSyncSubmission, hk]
  | _ => simp [Load.asked, Load.instr, Load.submission, workerIn]

/-- A worker is new with the `Begin` of its call, goes on, or stores what the future returns. -/
theorem Steps.worker (h : Steps m s code x r) (k : ℕ) :
    (workerIn .before k).asked r ≤ (workerIn .before k).code code ∧
        (workerIn .before k).asked r + (workerIn .finishing k).asked r ≤
          (workerIn .before k).code code + (workerIn .finishing k).code code ∨
      m.Starting code k ∧ (workerIn .before k).asked r + (workerIn .finishing k).asked r ≤ 1 := by
  have hbegin : ∀ {b identity : ℕ} {provider : Provider} {r : EngineStep} {n : Memory} (p : Phase),
      Begins n s b identity provider r → (workerIn p k).asked (resume r) = 0 := by
    intro b identity provider r n p hb
    rw [asked_resume _ (workerIn_sees (p, k)), hb.asked _ fun _ => rfl]
  cases h with
  | queue hr =>
    subst hr
    left
    rw [asked_queue _ (workerIn_sees (.before, k)), asked_queue _ (workerIn_sees (.finishing, k))]
    exact ⟨Nat.zero_le _, Nat.zero_le _⟩
  | begin h | run h | runSync _ h =>
    left
    rw [hbegin .before h, hbegin .finishing h]
    exact ⟨Nat.zero_le _, Nat.zero_le _⟩
  | invoke hs hi =>
    obtain ⟨hfinishing, hbefore | ⟨hstarts, hbefore⟩⟩ := hi.worker hs k
    · left
      rw [hbefore, hfinishing]
      exact ⟨Nat.zero_le _, Nat.zero_le _⟩
    · exact .inr ⟨hstarts, by rw [hbefore, hfinishing]⟩
  | unresolved =>
    left
    simp [Load.asked, Load.instr, workerIn, Function.comp_def]
  | _ =>
    left
    simp [Load.asked, Load.instr, Load.submission, workerIn]

theorem Begins.completes {b identity : ℕ} {provider : Provider}
    (h : Begins m s b identity provider r) {k : ℕ} {j : Option ℕ}
    (hl : .workerCompletes k j ∈ r.mem.log) : .workerCompletes k j ∈ m.log := by
  cases h with
  | rejected => exact (Memory.mem_beginReturned (by simp) (by simp)).mp hl
  | unrouted =>
    have hold := (Memory.mem_beginReturned (by simp) (by simp)).mp hl
    simpa using hold
  | parked hb hn hroute hq hm hstate =>
    subst hm hstate
    simpa using hl

/-- Only the last section of the worker says that it completes. -/
theorem Steps.completes (h : Steps m s code x r) {k : ℕ} {j : Option ℕ}
    (hl : .workerCompletes k j ∈ r.mem.log) :
    .workerCompletes k j ∈ m.log ∨ ∃ b, code = .completeBlock k b := by
  cases h with
  | begin h | run h => exact .inl (h.completes hl)
  | runSync _ h => exact .inl (h.completes hl)
  | invoke _ hi => cases hi <;> exact .inl (by simpa using hl)
  | beginReturn => exact .inl ((Memory.mem_beginReturned (by simp) (by simp)).mp hl)
  | cleanedUp => exact .inl (by simpa using hl)
  | completeBlock hh hb | completeNothing hh hb =>
    simp only [Memory.record_log, List.mem_cons, Event.workerCompletes.injEq, reduceCtorEq,
      false_or] at hl
    rcases hl with ⟨rfl, -⟩ | hl
    · exact .inr ⟨_, rfl⟩
    · exact .inl hl
  | _ => exact .inl (by simpa using hl)

/-! ## Every run -/

/-- A context has one worker, which stores the result of the context once. -/
structure Workers (m : Memory) (worker : Phase × ℕ → ℕ) : Prop where
  once : StartedOnce m fun h => worker (.before, h) + worker (.finishing, h)
  started : ∀ h result, .future h result ∈ m.log → m.Started h
  returned : ∀ h result, .future h result ∈ m.log → worker (.before, h) = 0
  ended : ∀ h j, .workerCompletes h j ∈ m.log →
    m.Started h ∧ worker (.before, h) + worker (.finishing, h) = 0
  result : ∀ h helper result, m.helpers[h]? = some helper → .future h result ∈ m.log →
    helper.result = result.hresult
  early : ∀ h helper, m.helpers[h]? = some helper →
    helper.result = E_ABORT ∨ ∃ result, .future h result ∈ m.log

theorem Workers.mono {L L' : Phase × ℕ → ℕ} (hI : Workers m L) (hL : ∀ k, L' k ≤ L k) :
    Workers m L' := by
  refine ⟨hI.once.mono fun k => ?_, hI.started, fun k result hf => ?_, fun k j hl => ?_,
    hI.result, hI.early⟩
  · exact Nat.add_le_add (hL (.before, k)) (hL (.finishing, k))
  · exact Nat.le_zero.mp (hI.returned k result hf ▸ hL (.before, k))
  · obtain ⟨hk, hz⟩ := hI.ended k j hl
    have h1 := hL (.before, k)
    have h2 := hL (.finishing, k)
    exact ⟨hk, by omega⟩

theorem workers_step {L : Phase × ℕ → ℕ} {B : ℕ → ℕ} (h : Steps m s code x r)
    (howners : Owners m) (hbegun : Begun m fun i => B i + (toBegin i).code code)
    (hI : Workers m fun k => L k + (workerIn k.1 k.2).code code) :
    Workers r.mem fun k => L k + (workerIn k.1 k.2).asked r := by
  have hlen : m.helpers.length ≤ r.mem.helpers.length := by
    rcases h.helpers with he | ⟨-, he⟩ <;> omega
  -- the worker of a call that has received `Begin` goes on
  have hgoes : ∀ k, m.Started k → (workerIn .before k).asked r ≤ (workerIn .before k).code code ∧
      (workerIn .before k).asked r + (workerIn .finishing k).asked r ≤
        (workerIn .before k).code code + (workerIn .finishing k).code code :=
    fun k hk => (h.worker k).resolve_right fun hstarts => hstarts.1.fresh howners hbegun hk
  have hended : ∀ k j, .workerCompletes k j ∈ r.mem.log → r.mem.Started k ∧
      L (.before, k) + (workerIn .before k).asked r +
        (L (.finishing, k) + (workerIn .finishing k).asked r) = 0 := by
    intro k j hl
    rcases h.completes hl with hl | ⟨b, rfl⟩
    · obtain ⟨hk, hz⟩ := hI.ended k j hl
      have hworker := (hgoes k hk).2
      dsimp only at hz
      exact ⟨h.stays_started hk, by omega⟩
    · -- it was the worker itself
      have hone := hI.once.one k
      have hcode : (workerIn .finishing k).code (.completeBlock k b) = 1 := by simp [workerIn]
      dsimp only at hone
      have hk : m.Started k := by
        by_contra hk
        have hz := hI.once.fresh k hk
        dsimp only at hz
        omega
      have hasked : (workerIn .before k).asked r + (workerIn .finishing k).asked r = 0 := by
        cases h <;> simp [Load.asked, Load.instr, workerIn]
      exact ⟨h.stays_started hk, by omega⟩
  have honce : StartedOnce r.mem fun k => L (.before, k) + (workerIn .before k).asked r +
      (L (.finishing, k) + (workerIn .finishing k).asked r) := by
    refine hI.once.step h howners hbegun fun k => ?_
    dsimp only
    rcases h.worker k with ⟨-, hle⟩ | ⟨hstarts, hle⟩
    · left
      omega
    · exact .inr ⟨hstarts, by omega⟩
  -- a context whose future has returned is out of the hands of its worker's first half
  have hkept : ∀ k, L (.before, k) + (workerIn .before k).code code = 0 →
      m.Started k → L (.before, k) + (workerIn .before k).asked r = 0 := by
    intro k hz hk
    have hworker := (hgoes k hk).1
    omega
  have hmade : ∀ k result, .future k result ∈ m.log → k < m.helpers.length :=
    fun k result hf => (hI.started k result hf).lt howners
  cases h.stores with
  | kept hlog hhelpers =>
    refine ⟨honce, fun k result hf => ?_, fun k result hf => ?_, hended, ?_, ?_⟩
    · exact h.stays_started (hI.started k result ((hlog k result).mp hf))
    · have hf' := (hlog k result).mp hf
      exact hkept k (hI.returned k result hf') (hI.started k result hf')
    · intro k helper' result hk hf
      have hf' := (hlog k result).mp hf
      rcases hhelpers k helper' hk with ⟨helper, hold, hsame, -⟩ | ⟨rfl, -⟩
      · rw [hsame]
        exact hI.result k helper result hold hf'
      · have hlt := hmade _ result hf'
        omega
    · intro k helper' hk
      rcases hhelpers k helper' hk with ⟨helper, hold, hsame, -⟩ | ⟨-, hnew⟩
      · rw [hsame]
        exact (hI.early k helper hold).imp_right (Exists.imp fun result => (hlog k result).mpr)
      · exact .inl hnew
  | @canceled k b helper hcode hh hlog hhelpers =>
    have hfresh : ∀ result, .future k result ∉ m.log := by
      intro result hf
      have hz := hI.returned k result hf
      simp [hcode, workerIn] at hz
    refine ⟨honce, fun j result hf => ?_, fun j result hf => ?_, hended, ?_, ?_⟩
    · exact h.stays_started (hI.started j result ((hlog j result).mp hf))
    · have hf' := (hlog j result).mp hf
      exact hkept j (hI.returned j result hf') (hI.started j result hf')
    · intro j helper' result hj hf
      have hf' := (hlog j result).mp hf
      rw [hhelpers] at hj
      rcases getElem?_set_cases hj with ⟨rfl, -⟩ | ⟨-, hold⟩
      · exact absurd hf' (hfresh result)
      · exact hI.result j helper' result hold hf'
    · intro j helper' hj
      rw [hhelpers] at hj
      rcases getElem?_set_cases hj with ⟨-, rfl⟩ | ⟨-, hold⟩
      · exact .inl rfl
      · exact (hI.early j helper' hold).imp_right (Exists.imp fun result => (hlog j result).mpr)
  | @returned k b helper helper₁ result hcode hx hh hlog hhelpers hresult hsize hpayload =>
    have hfresh : ∀ result, .future k result ∉ m.log := by
      intro result hf
      have hz := hI.returned k result hf
      simp [hcode, workerIn] at hz
    have hone := hI.once.one k
    have hcount : (workerIn .before k).code code = 1 := by simp [hcode, workerIn]
    dsimp only at hone
    have hk : m.Started k := by
      by_contra hk
      have hz := hI.once.fresh k hk
      dsimp only at hz
      omega
    have hmem : ∀ j result', .future j result' ∈ r.mem.log ↔
        j = k ∧ result' = result ∨ .future j result' ∈ m.log := by
      simp [hlog]
    refine ⟨honce, fun j result' hf => ?_, fun j result' hf => ?_, hended, ?_, ?_⟩
    · rcases (hmem j result').mp hf with ⟨rfl, -⟩ | hf
      · exact h.stays_started hk
      · exact h.stays_started (hI.started j result' hf)
    · rcases (hmem j result').mp hf with ⟨rfl, -⟩ | hf
      · have hasked : (workerIn .before j).asked r = 0 := by
          subst hcode
          cases h <;> simp [Load.asked, Load.instr, workerIn]
        show L (.before, j) + (workerIn .before j).asked r = 0
        omega
      · exact hkept j (hI.returned j result' hf) (hI.started j result' hf)
    · intro j helper' result' hj hf
      rw [hhelpers] at hj
      rcases (hmem j result').mp hf with ⟨rfl, rfl⟩ | hf
      · rw [getElem?_set_at _ hh, Option.some.injEq] at hj
        rw [← hj, hresult]
      · rcases getElem?_set_cases hj with ⟨rfl, -⟩ | ⟨-, hold⟩
        · exact absurd hf (hfresh result')
        · exact hI.result j helper' result' hold hf
    · intro j helper' hj
      rw [hhelpers] at hj
      rcases getElem?_set_cases hj with ⟨rfl, -⟩ | ⟨-, hold⟩
      · exact .inr ⟨result, (hmem _ _).mpr (.inl ⟨rfl, rfl⟩)⟩
      · exact (hI.early j helper' hold).imp_right
          (Exists.imp fun result' hf => (hmem _ result').mpr (.inr hf))

end Steps

section Runs
variable {c : Config (World Engine) (Frame Callback Code)} {pool n : ℕ}
  {G : Guard (World Engine) (Frame Callback Code) (Option Choice)}

theorem reaches_workers (h : (machine Engine).Reaches G (Engine.start pool n) c) :
    Workers c.shared.mem fun k => (workerIn k.1 k.2).total c.shared.toCore c.frames := by
  refine engine_invariant (J := fun s fs => Owners s.mem ∧
    Begun s.mem fun i => (toBegin i).total s.toCore fs) h workerIn_sees
    (fun _ hc => ⟨reaches_owners hc, reaches_begun hc⟩) ?_ ?_ ?_
  · have hz : ∀ p k,
        (workerIn p k).total (Engine.start pool n).shared.toCore (Engine.start pool n).frames = 0 :=
      fun p k => start_total (workerIn_sees (p, k)) pool n
    refine ⟨.zero fun k => ?_, ?_, ?_, ?_, ?_, ?_⟩
    · simp only [hz]
    all_goals simp [Engine.start]
  · exact fun m L L' hL hI => hI.mono hL
  · rintro s R code choice r _ ⟨howners, hbegun⟩ hs hI
    simp only [total_client] at hbegun
    exact workers_step hs howners hbegun hI

/-- The call of context `k` has been cleaned up. -/
def Memory.Closed (m : Memory) (k : ℕ) : Prop :=
  ∃ (i : ℕ) (state : AsyncState), m.states[i]? = some state ∧ state.provider = .runSync k ∧
    state.cleanedUp = true

/-- The payload of a call stays in its context until the call is cleaned up. -/
def Memory.KeepsPayloads (m : Memory) : Prop :=
  ∀ (k : ℕ) (helper : XsyncContextHelper) (value : ℕ), m.helpers[k]? = some helper →
    .future k (.ok value) ∈ m.log →
    helper.payload = some value ∨ m.Closed k

theorem Steps.stays_closed {m : Memory} {s : TaskQueues Callback} {code : Code} {x : Choice}
    {r : EngineStep} (h : Steps m s code x r) {k : ℕ} (hk : m.Closed k) : r.mem.Closed k := by
  obtain ⟨i, state, hs, hp, hc⟩ := hk
  obtain ⟨new, hn, hsame⟩ := h.keeps hs
  exact ⟨i, new, hn, hsame.provider.trans hp, h.stays_clean hs hc hn⟩

theorem reaches_payload (h : (machine Engine).Reaches G (Engine.start pool n) c) :
    c.shared.mem.KeepsPayloads := by
  refine memory_invariant (I := Memory.KeepsPayloads) (J := fun s fs => Owners s.mem ∧
    (Workers s.mem fun k => (workerIn k.1 k.2).total s.toCore fs) ∧
      Parked s.mem fun i => (closing i).total s.toCore fs) h
    (fun c hc => ⟨reaches_owners hc, reaches_workers hc, parked hc⟩)
    (fun k helper value hk => by simp [Engine.start] at hk) ?_
  rintro s R code choice r - ⟨howners, hworkers, hparked⟩ hs hI k helper' value hk hf
  have hold : ∀ helper, s.mem.helpers[k]? = some helper → helper'.payload = helper.payload →
      .future k (.ok value) ∈ s.mem.log → helper'.payload = some value ∨ r.mem.Closed k :=
    fun helper hh hsame hf => (hI k helper value hh hf).imp hsame.trans hs.stays_closed
  cases hs.stores with
  | kept hlog hhelpers =>
    have hf' := (hlog _ _).mp hf
    rcases hhelpers k helper' hk with ⟨helper, hh, -, -, hpayload⟩ | ⟨rfl, -⟩
    · rcases hpayload with hsame | ⟨i, rfl, state, hst, hp⟩
      · exact hold helper hh hsame hf'
      · -- `Cleanup` comes after the flag
        have hclosing : 0 < (closing i).total s.toCore (.client (.invoke i .cleanup) ::ₘ R) := by
          rw [total_client]
          simp [closing]
        obtain ⟨state', hst', hc, -⟩ := hparked.closing i hclosing
        rw [hst, Option.some.injEq] at hst'
        subst hst'
        exact .inr (hs.stays_closed ⟨i, state, hst, hp, hc⟩)
    · have hlt := (hworkers.started _ _ hf').lt howners
      omega
  | @canceled j b helper hcode hh hlog hhelpers =>
    rw [hhelpers] at hk
    have hf' := (hlog _ _).mp hf
    rcases getElem?_set_cases hk with ⟨rfl, rfl⟩ | ⟨-, hk⟩
    · exact hold helper hh rfl hf'
    · exact hold helper' hk rfl hf'
  | @returned j b helper helper₁ result hcode hx hh hlog hhelpers hresult hsize hpayload =>
    rw [hhelpers] at hk
    have hmem : k = j ∧ .ok value = result ∨ .future k (.ok value) ∈ s.mem.log := by
      simpa [hlog] using hf
    rcases hmem with ⟨rfl, hv⟩ | hf'
    · rw [getElem?_set_at _ hh, Option.some.injEq] at hk
      exact .inl (hk ▸ hpayload value hv.symm)
    · rcases getElem?_set_cases hk with ⟨rfl, -⟩ | ⟨-, hk⟩
      · have hz := hworkers.returned j _ hf'
        rw [total_client] at hz
        simp [hcode, workerIn] at hz
      · exact hold helper' hk rfl hf'

end Runs
end XGameRuntime.XAsync
