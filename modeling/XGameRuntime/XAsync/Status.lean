import XGameRuntime.XAsync.Parking

/-! # The status of a call and its announcement

`complete_state` records a status and hands over the completion callback. It takes
`status != E_PENDING` for "already completed", and a `Begin` that fails writes the status without
that test.
-/

namespace XGameRuntime.XAsync
open Concurrency TaskQueue
set_option autoImplicit false

/-- The status of a call, `E_PENDING` before there is one. -/
def Memory.status (m : Memory) (i : ℕ) : HRESULT := (m.states[i]?.map (·.status)).getD E_PENDING

def Event.announcement : Event → Option (ℕ × HRESULT)
  | .announced i status => some (i, status)
  | _ => none

/-- The completion callbacks handed over so far, each with the status recorded at that time. -/
def Memory.announced (m : Memory) : List (ℕ × HRESULT) := m.log.filterMap Event.announcement

def Memory.announcements (m : Memory) (i : ℕ) : ℕ :=
  m.announced.countP fun a => decide (a.1 = i)

section Lookup
variable {m : Memory} {i : ℕ} {state state' : AsyncState}

theorem status_of (h : m.states[i]? = some state) : m.status i = state.status := by
  simp [Memory.status, h]

theorem status_setState (h : m.states[i]? = some state) (j : ℕ) :
    (m.setState i state').status j = if i = j then state'.status else m.status j := by
  unfold Memory.status
  split
  · rename_i hij
    subst hij
    simp [getElem?_set_at state' h]
  · rename_i hij
    simp [hij]

theorem status_setState_same (h : m.states[i]? = some state) (hs : state'.status = state.status)
    (j : ℕ) : (m.setState i state').status j = m.status j := by
  rw [status_setState h]
  split
  · rename_i hij
    rw [hs, ← hij, status_of h]
  · rfl

theorem status_park (hs : state.status = E_PENDING) (j : ℕ) :
    (m.park state).status j = m.status j := by
  unfold Memory.status
  rcases Nat.lt_trichotomy j m.states.length with hj | rfl | hj
  · simp [List.getElem?_append_left hj]
  · simp [hs]
  · rw [List.getElem?_eq_none (by simp; omega), List.getElem?_eq_none (by omega)]

end Lookup

/-! ## How a step writes a status -/

section Steps
variable {m : Memory} {s : TaskQueues Callback} {code : Code} {x : Choice} {r : EngineStep}

theorem Begins.status {b identity : ℕ} {provider : Provider}
    (h : Begins m s b identity provider r) (j : ℕ) : r.mem.status j = m.status j := by
  cases h with
  | rejected => rw [Memory.status, Memory.beginReturned_states]; rfl
  | unrouted => rw [Memory.status, Memory.beginReturned_states]; rfl
  | @parked route q routed state hb hn hroute hq hm hstate =>
    have hpark := status_park (m := routed) (show state.status = E_PENDING by subst hstate; rfl) j
    have hrouted : routed.status j = m.status j := by
      subst hm
      rfl
    rw [← hrouted, ← hpark]

/-- A step writes the status of one call at most, and only a failing `Begin` writes one that is
not pending. -/
theorem Steps.status (h : Steps m s code x r) : (∀ j, r.mem.status j = m.status j) ∨
    ∃ i status, (∀ j, r.mem.status j = if i = j then status else m.status j) ∧
      (m.status i = E_PENDING ∨ ∃ out, code = .afterOp i .begin status out ∧ status ≠ S_OK) := by
  cases h with
  | complete hs hp | didWork hs _ hp =>
    exact .inr ⟨_, _, fun j => status_setState hs j, .inl ((status_of hs).trans hp)⟩
  | beginFailed hs ho => exact .inr ⟨_, _, fun j => status_setState hs j, .inr ⟨_, rfl, ho⟩⟩
  | cancel hs | getResult hs | cleanup hs =>
    exact .inl fun j => status_setState_same hs (by rfl) j
  | begin h | run h | runSync _ h => exact .inl fun j => h.status j
  | invoke _ hi => exact .inl fun j => by rw [Memory.status, hi.same.1]; rfl
  | beginReturn => exact .inl fun j => by rw [Memory.status, Memory.beginReturned_states]; rfl
  | cleanedUp => exact .inl fun j => by rw [Memory.status, Memory.takeState_states]; rfl
  | _ => exact .inl fun _ => rfl

end Steps

/-! ## The invariant -/

/-- A call whose recorded result is final is between its lock section and the hand-over. -/
def announcing (i : ℕ) : Load Callback Code where
  callback _ := 0
  code
    | .announce j result => if j = i ∧ result ≠ E_PENDING then 1 else 0
    | _ => 0

theorem announcing_sees (i : ℕ) : Sees (announcing i) := by
  refine ⟨rfl, rfl, fun _ => rfl, fun callback canceled => ?_⟩
  cases callback with
  | work j => cases canceled <;> simp [Callback.code, announcing]
  | _ => simp [Callback.code, announcing]

structure Announced (m : Memory) (announcing : ℕ → ℕ) : Prop where
  once : ∀ i, announcing i + m.announcements i ≤ 1
  pending : ∀ i, m.status i = E_PENDING → announcing i + m.announcements i = 0
  final : ∀ i status, (i, status) ∈ m.announced → status ≠ E_PENDING ∧ m.status i = status

/-- The condition under which a status is final: a completion with `E_PENDING` finds no callback
to hand over, and a `Begin` that fails does so with the status the call has, if it has one. -/
def writesFinal (m : Memory) : Code → Bool
  | .announce i result => decide (result = E_PENDING →
      ∀ state ∈ m.states[i]?, (m.blocks state.block).callback = none)
  | .afterOp i .begin hr _ => decide (hr ≠ S_OK →
      ∀ state ∈ m.states[i]?, state.status = E_PENDING ∨ state.status = hr)
  | _ => true

abbrev finalWrites : Guard (World Engine) (Frame Callback Code) (Option Choice) :=
  onCode fun s _ code _ => writesFinal s.mem code

section Steps
variable {m : Memory} {s : TaskQueues Callback} {code : Code} {x : Choice} {r : EngineStep}
  {L : ℕ → ℕ}

theorem Announced.of_eq {m' : Memory} {L' : ℕ → ℕ} (hI : Announced m L)
    (hs : ∀ i, m'.status i = m.status i) (ha : m'.announced = m.announced)
    (hL : ∀ i, L' i ≤ L i) : Announced m' L' := by
  have hc : ∀ i, m'.announcements i = m.announcements i := fun i => by
    rw [Memory.announcements, ha]
    rfl
  refine ⟨fun i => ?_, fun i hp => ?_, fun i status hm => ?_⟩
  · have ho := hI.once i
    have hl := hL i
    rw [hc]
    omega
  · have hz := hI.pending i (hs i ▸ hp)
    have hl := hL i
    rw [hc]
    omega
  · rw [hs]
    exact hI.final i status (ha ▸ hm)

/-- The rule for a step that records a status. -/
theorem Announced.write {L' : ℕ → ℕ} {i : ℕ} {state state' : AsyncState} (hI : Announced m L)
    (hs : m.states[i]? = some state)
    (hw : state.status = E_PENDING ∨ state.status = state'.status)
    (hL : ∀ j, L' j ≤ L j + if i = j ∧ state.status = E_PENDING ∧ state'.status ≠ E_PENDING
      then 1 else 0) :
    Announced (m.setState i state') L' := by
  have hst : ∀ j, (m.setState i state').status j = _ := fun j => status_setState hs j
  have hold := status_of hs
  refine ⟨fun j => ?_, fun j hp => ?_, fun j status hm => ?_⟩
  · have ho := hI.once j
    have hl := hL j
    change L' j + m.announcements j ≤ 1
    split at hl
    · rename_i hc
      have hz := hI.pending j (by rw [← hc.1, hold, hc.2.1])
      omega
    · omega
  · have hl := hL j
    change L' j + m.announcements j = 0
    rw [hst] at hp
    by_cases hij : i = j
    · subst hij
      rw [if_pos rfl] at hp
      have hz := hI.pending i (by rcases hw with hw | hw <;> simp [hold, hw, hp])
      simp [hp] at hl
      omega
    · rw [if_neg hij] at hp
      have hz := hI.pending j hp
      simp [hij] at hl
      omega
  · obtain ⟨hf, hj⟩ := hI.final j status hm
    refine ⟨hf, ?_⟩
    rw [hst]
    split
    · rename_i hij
      subst hij
      rw [hold] at hj
      rcases hw with hw | hw
      · exact absurd (hj.symm.trans hw) hf
      · exact hw.symm.trans hj
    · exact hj

theorem Invokes.announced {i : ℕ} {state : AsyncState} {op : XAsyncOp}
    (h : Invokes m i state op r) : r.mem.announced = m.announced ∧
      ∀ j, (announcing j).asked r = 0 := by
  cases h <;> refine ⟨rfl, fun j => ?_⟩ <;>
    simp [Load.asked, Load.instr, Load.submission, announcing, runSyncSubmission]

theorem Memory.beginReturned_announced (m : Memory) (b : ℕ) (i : Option ℕ) (provider : Provider)
    (hr : HRESULT) : (m.beginReturned b i provider hr).announced = m.announced := by
  cases provider <;> rfl

theorem Begins.announced {b identity : ℕ} {provider : Provider}
    (h : Begins m s b identity provider r) : r.mem.announced = m.announced := by
  cases h with
  | rejected | unrouted => exact Memory.beginReturned_announced ..
  | parked hb hn hroute hq hm hstate =>
    subst hm
    simp [Memory.announced, List.filterMap_cons, Event.announcement]

/-- The hand-over: the frame that counted becomes an entry of the history. -/
theorem Announced.announce {i callback : ℕ} {result : HRESULT} {state : AsyncState}
    (hI : Announced m fun j => L j + (announcing j).code (.announce i result))
    (hs : m.states[i]? = some state) (hc : (m.blocks state.block).callback = some callback)
    (hg : writesFinal m (.announce i result) = true) {q : ℕ} :
    Announced (m.record (.announced i state.status)) fun j => L j + (announcing j).asked
      { mem := m.record (.announced i state.status)
        run := [.submit ⟨q, .completion, 0, .completion i callback, [],
          [.completionCallback i callback]⟩] } := by
  have hr : result ≠ E_PENDING := by
    intro hr
    have hn := of_decide_eq_true hg hr state hs
    simp [hc] at hn
  have hself : (announcing i).code (.announce i result) = 1 := by simp [announcing, hr]
  have hother : ∀ j, i ≠ j → (announcing j).code (.announce i result) = 0 := by
    intro j hij
    simp [announcing, hij]
  have hasked : ∀ j, (announcing j).asked
      { mem := m.record (.announced i state.status)
        run := [.submit ⟨q, .completion, 0, .completion i callback, [],
          [.completionCallback i callback]⟩] } = 0 := by
    intro j
    simp [Load.asked, Load.instr, Load.submission, announcing]
  have hcount : ∀ j, (m.record (.announced i state.status)).announcements j =
      m.announcements j + if i = j then 1 else 0 := by
    intro j
    simp [Memory.announcements, Memory.announced, Event.announcement, List.countP_cons]
  have hfinal : m.status i ≠ E_PENDING := by
    intro hp
    have hz := hI.pending i hp
    omega
  refine ⟨fun j => ?_, fun j hp => ?_, fun j status hm => ?_⟩
  · have ho := hI.once j
    rw [hasked, hcount]
    by_cases hij : i = j
    · subst hij
      rw [if_pos rfl]
      omega
    · rw [if_neg hij]
      omega
  · have hz := hI.pending j hp
    rw [hasked, hcount]
    by_cases hij : i = j
    · subst hij
      exact absurd hp hfinal
    · rw [if_neg hij]
      omega
  · have hm' : (j, status) = (i, state.status) ∨ (j, status) ∈ m.announced := by
      simpa [Memory.announced, Event.announcement] using hm
    rcases hm' with hm' | hm'
    · cases hm'
      rw [status_of hs] at hfinal
      exact ⟨hfinal, status_of hs⟩
    · exact hI.final j status hm'

theorem announced_step (h : Steps m s code x r) (hg : writesFinal m code = true)
    (hI : Announced m fun i => L i + (announcing i).code code) :
    Announced r.mem fun i => L i + (announcing i).asked r := by
  have hst := h.status
  cases h with
  | complete hs hp | didWork hs _ hp =>
    refine hI.write hs (.inl hp) fun j => ?_
    simp [Load.asked, Load.instr, announcing, hp]
  | beginFailed hs ho =>
    have hw := of_decide_eq_true hg ho _ hs
    refine hI.write hs hw fun j => ?_
    simp [Load.asked, Load.instr, announcing]
  | cancel hs | getResult hs | cleanup hs =>
    refine hI.of_eq (fun j => status_setState_same hs (by rfl) j) rfl fun j => ?_
    simp [Load.asked, Load.instr, announcing]
  | queue hr =>
    subst hr
    refine hI.of_eq (fun _ => rfl) rfl fun i => ?_
    rw [asked_queue _ (announcing_sees i)]
    exact Nat.le_add_right _ _
  | begin h | run h | runSync _ h =>
    refine hI.of_eq (fun j => h.status j) h.announced fun i => ?_
    rw [asked_resume _ (announcing_sees i), h.asked _ fun _ => rfl]
    exact Nat.le_add_right _ _
  | invoke hs hi =>
    refine hI.of_eq (fun j => by rw [Memory.status, hi.same.1]; rfl) hi.announced.1 fun j => ?_
    rw [hi.announced.2]
    exact Nat.le_add_right _ _
  | beginReturn =>
    refine hI.of_eq (fun j => by rw [Memory.status, Memory.beginReturned_states]; rfl)
      (Memory.beginReturned_announced ..) fun i => by simp [Load.asked]
  | cleanedUp =>
    refine hI.of_eq (fun j => by rw [Memory.status, Memory.takeState_states]; rfl)
      (by rw [Memory.announced, Memory.takeState_log]; rfl) fun i => by simp [Load.asked]
  | @announce i callback result state x hs hc => exact hI.announce hs hc hg
  | unresolved =>
    refine hI.of_eq (fun _ => rfl) rfl fun i => ?_
    simp [Load.asked, Load.instr, announcing, Function.comp_def]
  | _ =>
    refine hI.of_eq (fun _ => rfl) rfl fun i => ?_
    simp [Load.asked, Load.instr, Load.submission, announcing]

end Steps

/-! ## Runs -/

section Runs
variable {c c' : Config (World Engine) (Frame Callback Code)} {pool n : ℕ}

theorem announced (h : (machine Engine).Reaches finalWrites (Engine.start pool n) c) :
    Announced c.shared.mem fun i => (announcing i).total c.shared.toCore c.frames := by
  refine engine_invariant (J := fun _ _ => True) h announcing_sees (fun _ _ => trivial) ?_ ?_ ?_
  · refine ⟨fun i => ?_, fun i _ => ?_, fun i status hm => ?_⟩
    · simp only [start_total (announcing_sees i)]
      exact Nat.zero_le 1
    · simp only [start_total (announcing_sees i)]
      rfl
    · simp [Memory.announced, Engine.start] at hm
  · exact fun m L L' hL hI => hI.of_eq (fun _ => rfl) rfl hL
  · exact fun s R code choice r hg _ hs hI => announced_step hs hg hI

/-- A final status stays. -/
theorem status_later (h : (machine Engine).Reaches finalWrites c c') {i : ℕ}
    (hf : c.shared.mem.status i ≠ E_PENDING) :
    c'.shared.mem.status i = c.shared.mem.status i := by
  refine memory_invariant (I := fun m => m.status i = c.shared.mem.status i)
    (J := fun _ _ => True) h (fun _ _ => trivial) rfl ?_
  intro s R code choice r hg _ hs hI
  rcases hs.status with hsame | ⟨j, status, hw, hor⟩
  · exact (hsame i).trans hI
  · rw [hw]
    split
    · rename_i hji
      subst hji
      rcases hor with hp | ⟨out, rfl, ho⟩
      · exact absurd (hI.symm.trans hp) hf
      · cases hst : s.mem.states[j]? with
        | none =>
          have hp : s.mem.status j = E_PENDING := by simp [Memory.status, hst]
          exact absurd (hI.symm.trans hp) hf
        | some state =>
          have hst' := status_of hst
          rcases of_decide_eq_true hg ho state hst with hp | hsame
          · exact absurd (hI.symm.trans (hst'.trans hp)) hf
          · exact hsame.symm.trans (hst'.symm.trans hI)
    · exact hI

/-- The status of a call is written once, from `E_PENDING` to a final value, and its completion
callback is handed over once at most, when the status recorded is already final. -/
theorem status_written_once (h : (machine Engine).Reaches finalWrites (Engine.start pool n) c)
    (h' : (machine Engine).Reaches finalWrites c c') (i : ℕ) :
    (c.shared.mem.status i ≠ E_PENDING → c'.shared.mem.status i = c.shared.mem.status i) ∧
    c.shared.mem.announcements i ≤ 1 ∧
    ∀ status, (i, status) ∈ c.shared.mem.announced →
      status ≠ E_PENDING ∧ c.shared.mem.status i = status := by
  have ha := announced h
  refine ⟨status_later h', ?_, ha.final i⟩
  have ho := ha.once i
  omega

end Runs

/-- A call with a completion callback is completed, and completed again. -/
theorem status_written_once_twice_completed :
    ∃ c c', (machine Engine).Reaches finalWrites (Engine.start 2 1) c ∧
      (machine Engine).Reaches finalWrites c c' ∧
      (c.shared.mem.status 0 ≠ E_PENDING ∧ c.shared.mem.announcements 0 = 1) ∧
      c'.shared.mem.status 0 = c.shared.mem.status 0 := by
  have h : ((machine Engine).run finalWrites
      ([Engine.does (.setBlock 1 0 (some 7)), Engine.does (.begin 1 0 true),
        Engine.does .finish, Engine.does .finish, Engine.does (.returns S_OK)] ++
        Engine.steps 1 1 ++ [Engine.does (.xasync 1 (.complete S_OK 8))] ++ Engine.steps 1 3)
      (Engine.start 2 1)).any (fun c => decide (
        c.shared.mem.status 0 ≠ E_PENDING ∧ c.shared.mem.announcements 0 = 1) &&
        ((machine Engine).run finalWrites (Engine.steps 1 3 ++
          [Engine.does (.xasync 1 (.complete E_ABORT 0))] ++ Engine.steps 1 1) c).isSome) =
      true := by
    decide +kernel
  obtain ⟨c, hr, hc⟩ := Machine.Reaches.of_run_any h
  rw [Bool.and_eq_true] at hc
  obtain ⟨hst, hann⟩ := of_decide_eq_true hc.1
  obtain ⟨c', hc'⟩ := Option.isSome_iff_exists.mp hc.2
  have hr' := Machine.Reaches.of_run hc'
  exact ⟨c, c', hr, hr', ⟨hst, hann⟩, (status_written_once hr hr' 0).1 hst⟩

/-- A completion with `E_PENDING` hands the callback over and leaves the call pending, so that the
next one hands it over again; and a `Begin` that fails after it has completed its call changes
the status. -/
theorem status_written_twice :
    (∃ c, (machine Engine).Reaches anyStep (Engine.start 2 1) c ∧
      c.shared.mem.announced = [(0, S_OK), (0, E_PENDING)]) ∧
    ∃ c c', (machine Engine).Reaches anyStep (Engine.start 2 1) c ∧
      (machine Engine).Reaches anyStep c c' ∧ c.shared.mem.status 0 = S_OK ∧
      c'.shared.mem.status 0 = E_ABORT := by
  constructor
  · have h : ((machine Engine).run anyStep
        ([Engine.does (.setBlock 1 0 (some 7)), Engine.does (.begin 1 0 true),
          Engine.does .finish, Engine.does .finish, Engine.does (.returns S_OK)] ++
          Engine.steps 1 1 ++ [Engine.does (.xasync 1 (.complete E_PENDING 8))] ++ Engine.steps 1 6 ++
          [Engine.does (.xasync 1 (.complete S_OK 8))] ++ Engine.steps 1 2)
        (Engine.start 2 1)).any (fun c => decide (
          c.shared.mem.announced = [(0, S_OK), (0, E_PENDING)])) = true := by
      decide +kernel
    obtain ⟨c, hr, hc⟩ := Machine.Reaches.of_run_any h
    exact ⟨c, hr, of_decide_eq_true hc⟩
  · have h : ((machine Engine).run anyStep
        [Engine.does (.begin 1 0 true), Engine.does .finish,
          Engine.does (.xasync 1 (.complete S_OK 8)), Engine.does .finish]
        (Engine.start 2 1)).any (fun c => decide (c.shared.mem.status 0 = S_OK) &&
          ((machine Engine).run anyStep (Engine.steps 1 2 ++ [Engine.does (.returns E_ABORT)] ++
            Engine.steps 1 1) c).any fun c' => decide (c'.shared.mem.status 0 = E_ABORT)) =
        true := by
      decide +kernel
    obtain ⟨c, hr, hc⟩ := Machine.Reaches.of_run_any h
    rw [Bool.and_eq_true] at hc
    obtain ⟨c', hr', hc'⟩ := Machine.Reaches.of_run_any hc.2
    exact ⟨c, c', hr, hr', of_decide_eq_true hc.1, of_decide_eq_true hc'⟩

end XGameRuntime.XAsync
