import XGameRuntime.XAsync.Invariant

/-! # Which call is parked in which block

A block drives the call that it was begun with until `take_state`, which only the cleanup of that
call comes to, once.
-/

namespace XGameRuntime.XAsync
open Concurrency TaskQueue
set_option autoImplicit false

/-- The operation `Cleanup` of call `i` is under way: `take_state` is still to come. -/
def closing (i : ℕ) : Load Callback Code where
  callback _ := 0
  code
    | .invoke j .cleanup | .opReturn j .cleanup | .afterOp j .cleanup _ _ => if j = i then 1 else 0
    | _ => 0

theorem closing_sees (i : ℕ) : Sees (closing i) := by
  refine ⟨rfl, rfl, fun _ => rfl, fun callback canceled => ?_⟩
  cases callback with
  | work j => cases canceled <;> simp [Callback.code, closing]
  | _ => simp [Callback.code, closing]

/-- A block drives the call that it was begun with until `take_state`, the last thing that the
cleanup of the call does. -/
structure Parked (m : Memory) (closing : ℕ → ℕ) : Prop where
  parked : ∀ b i, (m.blocks b).internal = some i → b ≠ 0 ∧
    ∃ state, m.states[i]? = some state ∧ state.block = b
  alive : ∀ i state, m.states[i]? = some state → state.cleanedUp = false →
    (m.blocks state.block).internal = some i
  once : ∀ i, closing i ≤ 1
  closing : ∀ i, 0 < closing i → ∃ state, m.states[i]? = some state ∧ state.cleanedUp = true ∧
    (m.blocks state.block).internal = some i

theorem Parked.of_eq {m m' : Memory} {L L' : ℕ → ℕ} (hI : Parked m L) (hs : m'.states = m.states)
    (hb : ∀ b, (m'.blocks b).internal = (m.blocks b).internal) (hL : ∀ i, L' i ≤ L i) :
    Parked m' L' := by
  refine ⟨fun b i hi => ?_, fun i state hst hc => ?_, fun i => (hL i).trans (hI.once i), ?_⟩
  · rw [hs]
    exact hI.parked b i (hb b ▸ hi)
  · rw [hb]
    exact hI.alive i state (hs ▸ hst) hc
  · intro i hi
    rw [hs]
    simp only [hb]
    exact hI.closing i (hi.trans_le (hL i))

/-- The rule for a step that writes one call and leaves its block and its flag alone. -/
theorem Parked.setState {m : Memory} {L L' : ℕ → ℕ} {i : ℕ} {state state' : AsyncState}
    (hI : Parked m L) (hs : m.states[i]? = some state) (hb : state'.block = state.block)
    (hc : state'.cleanedUp = state.cleanedUp) (hL : ∀ j, L' j ≤ L j) :
    Parked (m.setState i state') L' := by
  have hnew := getElem?_set_at state' hs
  have hlook : ∀ (j : ℕ) (old : AsyncState), m.states[j]? = some old →
      ∃ new : AsyncState, (m.states.set i state')[j]? = some new ∧
        new.block = old.block ∧ new.cleanedUp = old.cleanedUp := by
    intro j old hj
    by_cases hij : i = j
    · subst hij
      rw [hs, Option.some.injEq] at hj
      subst hj
      exact ⟨state', hnew, hb, hc⟩
    · exact ⟨old, by simpa [List.getElem?_set, hij] using hj, rfl, rfl⟩
  refine ⟨fun b j hj => ?_, fun j new hj hcl => ?_, fun j => (hL j).trans (hI.once j), ?_⟩
  · obtain ⟨hb0, old, hold, hob⟩ := hI.parked b j hj
    obtain ⟨new, hnew, hnb, -⟩ := hlook j old hold
    exact ⟨hb0, new, hnew, hnb.trans hob⟩
  · rcases getElem?_set_cases hj with ⟨rfl, rfl⟩ | ⟨-, hj⟩
    · rw [hb]
      exact hI.alive i state hs (hc ▸ hcl)
    · exact hI.alive j new hj hcl
  · intro j hj
    obtain ⟨old, hold, hcl, hin⟩ := hI.closing j (hj.trans_le (hL j))
    obtain ⟨new, hnew, hnb, hnc⟩ := hlook j old hold
    exact ⟨new, hnew, hnc.trans hcl, hnb ▸ hin⟩

section Steps
variable {m : Memory} {s : TaskQueues Callback} {code : Code} {x : Choice} {r : EngineStep}
  {L : ℕ → ℕ}

theorem Invokes.same {i : ℕ} {state : AsyncState} {op : XAsyncOp} (h : Invokes m i state op r) :
    r.mem.states = m.states ∧ r.mem.blocks = m.blocks := by
  cases h <;> exact ⟨rfl, rfl⟩

theorem Invokes.closing {i : ℕ} {state : AsyncState} {op : XAsyncOp} (h : Invokes m i state op r)
    (j : ℕ) : (closing j).asked r ≤ (closing j).code (.invoke i op) := by
  cases h with
  | @game op => cases op <;> simp [Load.asked, Load.instr, XAsync.closing]
  | @runOther op => cases op <;> simp [Load.asked, Load.instr, XAsync.closing]
  | _ => simp [Load.asked, Load.instr, Load.submission, XAsync.closing, runSyncSubmission]

theorem Memory.beginReturned_states (m : Memory) (b : ℕ) (i : Option ℕ) (provider : Provider)
    (hr : HRESULT) : (m.beginReturned b i provider hr).states = m.states := by
  cases provider <;> rfl

theorem Memory.beginReturned_blocks (m : Memory) (b : ℕ) (i : Option ℕ) (provider : Provider)
    (hr : HRESULT) : (m.beginReturned b i provider hr).blocks = m.blocks := by
  cases provider <;> rfl

theorem Begins.length_le {b identity : ℕ} {provider : Provider}
    (h : Begins m s b identity provider r) : m.states.length ≤ r.mem.states.length := by
  cases h with
  | rejected => rw [Memory.beginReturned_states]
  | unrouted => rw [Memory.beginReturned_states, Memory.setBlock_states]
  | @parked route q routed state hb hn hroute hq hm hstate =>
    rw [hm]
    simp

/-- A call that is parked is about to receive `Begin`. -/
theorem Begins.sends {b identity i : ℕ} {provider : Provider}
    (h : Begins m s b identity provider r) (hi : i < r.mem.states.length) :
    i < m.states.length ∨ .frame (.invoke i .begin) ∈ r.run := by
  cases h with
  | rejected => exact .inl (by rwa [Memory.beginReturned_states] at hi)
  | unrouted => exact .inl (by rwa [Memory.beginReturned_states] at hi)
  | @parked route q routed state hb hn hroute hq hm hstate =>
    have hlen : i < m.states.length + 1 := by simpa [hm] using hi
    rcases Nat.lt_succ_iff_lt_or_eq.mp hlen with hlt | rfl
    · exact .inl hlt
    · exact .inr (List.mem_singleton_self _)

theorem Steps.length_le (h : Steps m s code x r) : m.states.length ≤ r.mem.states.length := by
  cases h with
  | begin h | run h => exact h.length_le
  | runSync _ h =>
    have hle := h.length_le
    exact hle
  | invoke _ hi => rw [hi.same.1]
  | beginReturn => rw [Memory.beginReturned_states]
  | cleanedUp => rw [Memory.takeState_states]
  | _ => simp

theorem Steps.sends {i : ℕ} (h : Steps m s code x r) (hi : i < r.mem.states.length) :
    i < m.states.length ∨ .frame (.invoke i .begin) ∈ r.run := by
  cases h with
  | begin h | run h => exact (h.sends hi).imp_right (List.mem_append_left _)
  | runSync _ h => exact (h.sends hi).imp_right (List.mem_append_left _)
  | invoke _ h => exact .inl (by rwa [h.same.1] at hi)
  | beginReturn => exact .inl (by rwa [Memory.beginReturned_states] at hi)
  | cleanedUp => exact .inl (by rwa [Memory.takeState_states] at hi)
  | _ => exact .inl (by simpa using hi)

theorem internal_setBlock (m : Memory) (b queue : ℕ) (callback : Option ℕ) (c : ℕ) :
    ((m.setBlock b ⟨queue, callback, (m.blocks b).internal⟩).blocks c).internal =
      (m.blocks c).internal := by
  by_cases hc : c = b
  · subst hc
    simp
  · simp [Function.update_of_ne hc]

theorem stateOf_eq_some {b i : ℕ} (h : m.stateOf b = some i) :
    b ≠ 0 ∧ (m.blocks b).internal = some i := by
  unfold Memory.stateOf at h
  split at h
  · simp at h
  · exact ⟨by assumption, h⟩

theorem stateOf_eq_none {b : ℕ} (hb : b ≠ 0) (h : m.stateOf b = none) :
    (m.blocks b).internal = none := by
  simpa [Memory.stateOf, hb] using h

/-- A new call is parked in a block that drives none. -/
theorem Parked.park {state : AsyncState} (hI : Parked m L)
    (hb : state.block ≠ 0) (hn : (m.blocks state.block).internal = none) :
    Parked (m.park state) L := by
  have hfree : ∀ (i : ℕ) (old : AsyncState), m.states[i]? = some old → old.block = state.block →
      old.cleanedUp = true := by
    intro i old hi hob
    cases hc : old.cleanedUp with
    | true => rfl
    | false =>
      have ha := hI.alive i old hi hc
      simp [hob, hn] at ha
  have hblock : ∀ b, b ≠ state.block →
      ((m.park state).blocks b).internal = (m.blocks b).internal := by
    intro b hne
    simp [Memory.park, Function.update_of_ne hne]
  have hself : ((m.park state).blocks state.block).internal = some m.states.length := by
    simp [Memory.park]
  refine ⟨fun b i hi => ?_, fun i old hi hc => ?_, hI.once, fun i hi => ?_⟩
  · by_cases hbs : b = state.block
    · subst hbs
      rw [hself, Option.some.injEq] at hi
      subst hi
      exact ⟨hb, state, by simp, rfl⟩
    · rw [hblock b hbs] at hi
      obtain ⟨hb0, old, hold, hob⟩ := hI.parked b i hi
      exact ⟨hb0, old, getElem?_push_of hold, hob⟩
  · rcases getElem?_push_cases hi with hi | ⟨rfl, rfl⟩
    · have hne : old.block ≠ state.block := by
        intro hob
        simp [hfree i old hi hob] at hc
      rw [hblock _ hne]
      exact hI.alive i old hi hc
    · exact hself
  · obtain ⟨old, hold, hc, hin⟩ := hI.closing i hi
    have hne : old.block ≠ state.block := by
      intro hob
      simp [hob, hn] at hin
    exact ⟨old, getElem?_push_of hold, hc, by rw [hblock _ hne]; exact hin⟩

/-- The flag is set, so the operation starts. -/
theorem Parked.cleanup {i : ℕ} {state : AsyncState} (hI : Parked m fun j => L j + 0)
    (hs : m.states[i]? = some state) (hc : state.cleanedUp = false) :
    Parked (m.setState i { state with cleanedUp := true }) fun j => L j + if i = j then 1 else 0 := by
  have hnew := getElem?_set_at { state with cleanedUp := true } hs
  have hzero : L i = 0 := by
    by_contra hpos
    obtain ⟨old, hold, hcl, -⟩ := hI.closing i (Nat.pos_of_ne_zero hpos)
    rw [hs, Option.some.injEq] at hold
    subst hold
    simp [hc] at hcl
  refine ⟨fun b j hj => ?_, fun j new hj hcl => ?_, fun j => ?_, fun j hj => ?_⟩
  · obtain ⟨hb0, old, hold, hob⟩ := hI.parked b j hj
    by_cases hij : i = j
    · subst hij
      rw [hs, Option.some.injEq] at hold
      subst hold
      exact ⟨hb0, _, hnew, hob⟩
    · exact ⟨hb0, old, by simpa [List.getElem?_set, hij] using hold, hob⟩
  · rcases getElem?_set_cases hj with ⟨rfl, rfl⟩ | ⟨-, hj⟩
    · simp at hcl
    · exact hI.alive j new hj hcl
  · have ho := hI.once j
    split <;> rename_i hij
    · subst hij
      omega
    · exact ho
  · by_cases hij : i = j
    · subst hij
      exact ⟨_, hnew, rfl, hI.alive i state hs hc⟩
    · simp only [hij, if_false] at hj
      obtain ⟨old, hold, hcl, hin⟩ := hI.closing j hj
      exact ⟨old, by simpa [List.getElem?_set, hij] using hold, hcl, hin⟩

/-- The end of the cleanup. -/
theorem Parked.takeState {i : ℕ} {state : AsyncState}
    (hI : Parked m fun j => L j + if i = j then 1 else 0) (hs : m.states[i]? = some state) :
    Parked (m.takeState state.block) fun j => L j + 0 := by
  obtain ⟨old, hold, hcl, hin⟩ := hI.closing i (by simp)
  rw [hs, Option.some.injEq] at hold
  subst hold
  have hb := (hI.parked _ i hin).1
  have hself : ((m.takeState state.block).blocks state.block).internal = none := by
    simp [Memory.takeState, hb]
  have hblock : ∀ b, b ≠ state.block →
      ((m.takeState state.block).blocks b).internal = (m.blocks b).internal := by
    intro b hne
    simp [Memory.takeState, hb, Function.update_of_ne hne]
  refine ⟨fun b j hj => ?_, fun j new hj hc => ?_, fun j => ?_, fun j hj => ?_⟩
  · have hne : b ≠ state.block := by
      rintro rfl
      simp [hself] at hj
    rw [m.takeState_states]
    exact hI.parked b j (hblock b hne ▸ hj)
  · rw [m.takeState_states] at hj
    have ha := hI.alive j new hj hc
    have hne : new.block ≠ state.block := by
      intro hb
      rw [hb, hin, Option.some.injEq] at ha
      subst ha
      rw [hs, Option.some.injEq] at hj
      subst hj
      simp [hcl] at hc
    rw [hblock _ hne]
    exact ha
  · have ho := hI.once j
    omega
  · have hj' : 0 < L j := hj
    have ho := hI.once i
    have hne : i ≠ j := by
      rintro rfl
      simp only [if_true] at ho
      omega
    obtain ⟨other, hother, hc, hin'⟩ := hI.closing j (by omega)
    have hbne : other.block ≠ state.block := by
      intro hb
      rw [hb, hin, Option.some.injEq] at hin'
      exact hne hin'
    rw [m.takeState_states]
    exact ⟨other, hother, hc, by rw [hblock _ hbne]; exact hin'⟩

theorem begins_parked {b identity : ℕ} {provider : Provider}
    (h : Begins m s b identity provider r) (hI : Parked m L) :
    Parked r.mem fun i => L i + (closing i).asked r := by
  cases h with
  | rejected hc =>
    refine hI.of_eq (m.beginReturned_states ..) (fun c => ?_) fun i => by simp [Load.asked]
    rw [Memory.beginReturned_blocks]
  | @unrouted route hr hb hn hroute hq =>
    refine hI.of_eq (Memory.beginReturned_states ..) (fun c => ?_) fun i => by simp [Load.asked]
    rw [Memory.beginReturned_blocks]
    exact internal_setBlock m _ _ _ c
  | @parked route q routed state hb hn hroute hq hm hstate =>
    have hrouted : Parked routed L := by
      subst hm
      exact hI.of_eq rfl (fun c => internal_setBlock m _ _ _ c) fun _ => le_rfl
    have hnone : (routed.blocks state.block).internal = none := by
      subst hm hstate
      simpa using stateOf_eq_none hb hn
    have hpark := hrouted.park (show state.block ≠ 0 by subst hstate; exact hb) hnone
    refine hpark.of_eq rfl (fun _ => rfl) fun j => ?_
    simp [Load.asked, Load.instr, XAsync.closing]

theorem parked_step (h : Steps m s code x r)
    (hI : Parked m fun i => L i + (closing i).code code) :
    Parked r.mem fun i => L i + (closing i).asked r := by
  cases h with
  | setBlock =>
    refine hI.of_eq rfl (fun c => internal_setBlock m _ _ _ c) fun i => ?_
    simp [Load.asked, Load.instr, closing]
  | queue hr =>
    subst hr
    refine hI.of_eq rfl (fun _ => rfl) fun i => ?_
    rw [asked_queue _ (closing_sees i)]
    exact Nat.le_add_right _ _
  | begin h | run h =>
    have hb := begins_parked h (hI.of_eq rfl (fun _ => rfl) fun i => Nat.le_add_right _ _)
    exact hb.of_eq rfl (fun _ => rfl) fun i => by rw [asked_resume _ (closing_sees i)]
  | @runSync b size r hb h =>
    have hnew : Parked (m.newHelper size) L :=
      hI.of_eq rfl (fun _ => rfl) fun i => Nat.le_add_right _ _
    have hb := begins_parked h hnew
    exact hb.of_eq rfl (fun _ => rfl) fun i => by rw [asked_resume _ (closing_sees i)]
  | @invoke i op state r x hs hi =>
    refine hI.of_eq hi.same.1 (fun b => by rw [hi.same.2]) fun j => ?_
    exact Nat.add_le_add_left (hi.closing j) _
  | unresolved =>
    refine hI.of_eq rfl (fun _ => rfl) fun i => ?_
    simp [Load.asked, Load.instr, closing, Function.comp_def]
  | complete hs | cancel hs | didWork hs | getResult hs | beginFailed hs =>
    refine hI.setState hs rfl rfl fun i => ?_
    simp [Load.asked, Load.instr, closing]
  | @cleanup i state x hs hc => exact hI.cleanup hs hc
  | @cleanedUp i hr out state x hs => exact hI.takeState hs
  | @opReturn i op hr =>
    refine hI.of_eq rfl (fun _ => rfl) fun i => ?_
    cases op <;> simp [Load.asked, Load.instr, closing]
  | beginReturn =>
    refine hI.of_eq (m.beginReturned_states ..) (fun c => ?_) fun i => by simp [Load.asked]
    rw [Memory.beginReturned_blocks]
  | _ =>
    refine hI.of_eq rfl (fun _ => rfl) fun i => ?_
    simp [Load.asked, Load.instr, Load.submission, closing]


/-! ## Histories grow -/

theorem Invokes.log {i : ℕ} {state : AsyncState} {op : XAsyncOp} (h : Invokes m i state op r) :
    m.log <:+ r.mem.log := by
  cases h <;> simp [List.suffix_cons_iff]

theorem Memory.beginReturned_log (m : Memory) (b : ℕ) (i : Option ℕ) (provider : Provider)
    (hr : HRESULT) : m.log <:+ (m.beginReturned b i provider hr).log := by
  cases provider <;> simp [Memory.beginReturned, List.suffix_cons_iff]

theorem Begins.log {b identity : ℕ} {provider : Provider}
    (h : Begins m s b identity provider r) : m.log <:+ r.mem.log := by
  cases h with
  | rejected => exact Memory.beginReturned_log ..
  | unrouted => exact Memory.beginReturned_log (m.setBlock b _) ..
  | parked hb hn hroute hq hm hstate =>
    subst hm
    exact List.suffix_cons _ _

theorem Steps.log (h : Steps m s code x r) : m.log <:+ r.mem.log := by
  cases h with
  | begin h | run h | runSync _ h => exact h.log
  | invoke _ hi => exact hi.log
  | beginReturn => exact Memory.beginReturned_log ..
  | _ => simp [List.suffix_cons_iff]

/-! ## What a step may change about a call -/

/-- The fields of a call that nothing writes. -/
structure AsyncState.Same (a b : AsyncState) : Prop where
  provider : b.provider = a.provider
  identity : b.identity = a.identity
  queue : b.queue = a.queue
  block : b.block = a.block

theorem AsyncState.Same.rfl {a : AsyncState} : a.Same a :=
  ⟨Eq.refl _, Eq.refl _, Eq.refl _, Eq.refl _⟩

/-- The rule for a step that writes one call and keeps its flag. -/
theorem state_of_set {i j : ℕ} {state state' new : AsyncState}
    (hs : m.states[i]? = some state) (h : (m.states.set i state')[j]? = some new)
    (hsame : state.Same state') (hc : state'.cleanedUp = state.cleanedUp) :
    ∃ old, m.states[j]? = some old ∧ old.Same new ∧ new.cleanedUp = old.cleanedUp := by
  rcases getElem?_set_cases h with ⟨rfl, rfl⟩ | ⟨-, h⟩
  · exact ⟨state, hs, hsame, hc⟩
  · exact ⟨new, h, .rfl, Eq.refl _⟩

theorem Begins.state {b identity : ℕ} {provider : Provider}
    (h : Begins m s b identity provider r) {j : ℕ} {new : AsyncState}
    (hn : r.mem.states[j]? = some new) : m.states[j]? = some new ∨
      j = m.states.length ∧ new.cleanedUp = false ∧ new.provider = provider ∧ new.block = b := by
  cases h with
  | rejected => exact .inl (by simpa [Memory.beginReturned_states] using hn)
  | unrouted => exact .inl (by simpa [Memory.beginReturned_states] using hn)
  | @parked route q routed state hb hn' hroute hq hm hstate =>
    rw [hm] at hn
    rcases getElem?_push_cases hn with hn | ⟨hj, rfl⟩
    · exact .inl hn
    · exact .inr ⟨hj, by rw [hstate], by rw [hstate], by rw [hstate]⟩

/-- A call is a new one, or it was there with the same fields, and only its cleanup sets the
flag. -/
theorem Steps.state (h : Steps m s code x r) {j : ℕ} {new : AsyncState}
    (hn : r.mem.states[j]? = some new) :
    (∃ old, m.states[j]? = some old ∧ old.Same new ∧ (new.cleanedUp = old.cleanedUp ∨
      code = .cleanup j ∧ old.cleanedUp = false ∧ r.run = [.frame (.invoke j .cleanup)])) ∨
    j = m.states.length ∧ new.cleanedUp = false := by
  cases h with
  | begin h | run h =>
    rcases h.state hn with hn | ⟨hj, hc, -⟩
    · exact .inl ⟨new, hn, .rfl, .inl rfl⟩
    · exact .inr ⟨hj, hc⟩
  | runSync _ h =>
    rcases h.state hn with hn | ⟨hj, hc, -⟩
    · exact .inl ⟨new, hn, .rfl, .inl rfl⟩
    · exact .inr ⟨hj, hc⟩
  | complete hs | didWork hs | beginFailed hs | cancel hs | getResult hs =>
    obtain ⟨old, h1, h2, h3⟩ := state_of_set hs hn ⟨rfl, rfl, rfl, rfl⟩ rfl
    exact .inl ⟨old, h1, h2, .inl h3⟩
  | cleanup hs hc =>
    rcases getElem?_set_cases hn with ⟨rfl, rfl⟩ | ⟨-, hn⟩
    · exact .inl ⟨_, hs, ⟨rfl, rfl, rfl, rfl⟩, .inr ⟨rfl, hc, rfl⟩⟩
    · exact .inl ⟨new, hn, .rfl, .inl rfl⟩
  | invoke _ hi =>
    rw [hi.same.1] at hn
    exact .inl ⟨new, hn, .rfl, .inl rfl⟩
  | beginReturn =>
    rw [Memory.beginReturned_states] at hn
    exact .inl ⟨new, hn, .rfl, .inl rfl⟩
  | cleanedUp =>
    rw [Memory.takeState_states] at hn
    exact .inl ⟨new, hn, .rfl, .inl rfl⟩
  | _ => exact .inl ⟨new, hn, .rfl, .inl rfl⟩

/-- A call stays, with the fields that nothing writes. -/
theorem Steps.keeps (h : Steps m s code x r) {i : ℕ} {state : AsyncState}
    (hs : m.states[i]? = some state) : ∃ state', r.mem.states[i]? = some state' ∧
      state.Same state' := by
  have hi := (List.getElem?_eq_some_iff.mp hs).1
  have hi' : i < r.mem.states.length := lt_of_lt_of_le hi h.length_le
  have hnew := List.getElem?_eq_getElem hi'
  rcases h.state hnew with ⟨old, hold, hsame, -⟩ | ⟨hlast, -⟩
  · rw [hs, Option.some.injEq] at hold
    subst hold
    exact ⟨_, hnew, hsame⟩
  · omega

theorem callback_update (m : Memory) (b : ℕ) (block : XAsyncBlock)
    (h : block.callback = (m.blocks b).callback) (b' : ℕ) :
    ((m.setBlock b block).blocks b').callback = (m.blocks b').callback := by
  by_cases hb : b' = b
  · subst hb
    simpa using h
  · simp [Function.update_of_ne hb]

theorem callback_takeState (m : Memory) (b b' : ℕ) :
    ((m.takeState b).blocks b').callback = (m.blocks b').callback := by
  unfold Memory.takeState
  split
  · rfl
  · refine callback_update m b _ ?_ b'
    rfl

theorem Begins.callback {b identity : ℕ} {provider : Provider}
    (h : Begins m s b identity provider r) (b' : ℕ) :
    (r.mem.blocks b').callback = (m.blocks b').callback := by
  cases h with
  | rejected => rw [Memory.beginReturned_blocks]
  | unrouted =>
    rw [Memory.beginReturned_blocks]
    refine callback_update m b _ ?_ b'
    rfl
  | @parked route q routed state hb hn hroute hq hm hstate =>
    have hpark := callback_update routed state.block
      { routed.blocks state.block with internal := some routed.states.length } rfl b'
    refine hpark.trans ?_
    subst hm
    refine callback_update m b _ ?_ b'
    rfl

/-- Only the game writes the callback of a block. -/
theorem Steps.callback (h : Steps m s code x r) (b : ℕ) :
    (r.mem.blocks b).callback = (m.blocks b).callback ∨
      ∃ queue callback, code = .game ∧ x = .setBlock b queue callback ∧
        (r.mem.blocks b).callback = callback := by
  cases h with
  | @setBlock b' queue callback =>
    by_cases hb : b = b'
    · subst hb
      exact .inr ⟨queue, callback, rfl, rfl, by simp⟩
    · exact .inl (by simp [Function.update_of_ne hb])
  | begin h | run h | runSync _ h => exact .inl (h.callback b)
  | invoke _ hi => exact .inl (by rw [hi.same.2])
  | beginReturn => exact .inl (by rw [Memory.beginReturned_blocks])
  | cleanedUp => exact .inl (callback_takeState ..)
  | _ => exact .inl rfl

end Steps

section Runs

variable {c : Config (World Engine) (Frame Callback Code)}
  {G : Guard (World Engine) (Frame Callback Code) (Option Choice)} {pool n : ℕ}

theorem parked (h : (machine Engine).Reaches G (Engine.start pool n) c) :
    Parked c.shared.mem fun i => (closing i).total c.shared.toCore c.frames := by
  refine engine_invariant (J := fun _ _ => True) h closing_sees (fun _ _ => trivial) ?_ ?_ ?_
  · refine ⟨fun b i hi => ?_, fun i state hi => ?_, fun i => ?_, fun i hi => ?_⟩
    · simp [Engine.start] at hi
    · simp [Engine.start] at hi
    · simp only [start_total (closing_sees i)]
      exact Nat.zero_le 1
    · simp [start_total (closing_sees i)] at hi
  · exact fun m L L' hL hI => hI.of_eq rfl (fun _ => rfl) hL
  · exact fun s R code choice r _ _ hs hI => parked_step hs hI

end Runs
end XGameRuntime.XAsync
