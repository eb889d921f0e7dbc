import XGameRuntime.XAsync.Invariant
import XGameRuntime.ResultTables.Table

/-! # What the side tables hand out

An entry is written when a fetch ends and is never taken out, so it is the value of the call
begun last on its block only if the fetches of one block end in the order in which their calls
were begun and a lookup waits for the last of them.
-/

namespace XGameRuntime.ResultTables
open Concurrency TaskQueue XAsync
set_option autoImplicit false

variable {V : Type} {api : ResultApi V}

/-! ## What the property says -/

/-- A lookup that returns `S_OK` reports what the call begun last on the block has fetched. -/
def Answer.Fresh (api : ResultApi V) (a : Answer V) : Prop :=
  a.hr = S_OK → ∃ v report, a.fetched = some (.ok v) ∧ a.report = some report ∧ report.Of api v

/-- The entry holds a value, and not nothing or an error. -/
def found : Option (Except HRESULT V) → Bool
  | some (.ok _) => true
  | _ => false

theorem found_iff {entry : Option (Except HRESULT V)} :
    found entry = true ↔ ∃ v, entry = some (.ok v) := by
  cases entry with
  | none => simp [found]
  | some result => cases result <;> simp [found]

/-- The condition: a fetch of a call that is no longer the last one begun on its block succeeds
only before the last one's has ended, and a lookup that finds a value comes after the fetch of
the call begun last on the block. -/
def inOrder (api : ResultApi V) :
    Guard (World api.client) (Frame Callback Code) (Option (TableChoice V)) :=
  fun s _ f x =>
    match f, x with
    | .client .game, some (.resultSize b _) | .client .game, some (.result b _ _) =>
        found (s.mem.table b) = true → (s.mem.fetchedLast b).isSome = true
    | .client (.futureReturn h _), some (.fetch reply) =>
        found (some (api.outcome reply)) = true →
          ∀ b ∈ s.mem.keyOf h, s.mem.latest b = some h ∨ (s.mem.fetchedLast b).isNone = true
    | _, _ => True

instance : ∀ (s : World api.client) (R : Multiset (Frame Callback Code)) (f : Frame Callback Code)
    (x : Option (TableChoice V)), Decidable (inOrder api s R f x) := by
  intro s R f x
  unfold inOrder
  split <;> infer_instance

/-! ## The engine under a table -/

section Engine
variable {s : TaskQueues Callback} {m : Memory}

theorem beginReturned_helpers (m : Memory) (b : ℕ) (i : Option ℕ) (provider : Provider)
    (hr : HRESULT) : (m.beginReturned b i provider hr).helpers = m.helpers := by
  unfold Memory.beginReturned
  split <;> rfl

theorem invokes_helpers {i : ℕ} {state : AsyncState} {op : XAsyncOp} {r : EngineStep}
    (h : Invokes m i state op r) : r.mem.helpers.length = m.helpers.length := by
  cases h <;> simp

theorem begins_helpers {b identity : ℕ} {provider : Provider} {r : EngineStep}
    (h : Begins m s b identity provider r) : r.mem.helpers.length = m.helpers.length := by
  cases h with
  | rejected => rw [beginReturned_helpers]
  | unrouted => rw [beginReturned_helpers, Memory.setBlock_helpers]
  | @parked route q routed state hb hn hroute hq hm hstate =>
    show routed.helpers.length = m.helpers.length
    rw [hm]
    rfl

theorem steps_helpers {code : Code} {x : Choice} {r : EngineStep} (h : Steps m s code x r) :
    m.helpers.length ≤ r.mem.helpers.length := by
  cases h with
  | begin h | run h => exact (begins_helpers h).ge
  | runSync _ h =>
    have hle := begins_helpers h
    rw [show (resume _).mem.helpers.length = _ from hle]
    simp [Memory.newHelper]
  | invoke _ hi => exact (invokes_helpers hi).ge
  | beginReturn => rw [beginReturned_helpers]
  | cleanedUp => rw [Memory.takeState_helpers]
  | _ => simp

theorem runSync_helpers {b size : ℕ} {r : EngineStep} (hb : b ≠ 0)
    (h : gameStep m s (.runSync b size) = some r) :
    r.mem.helpers.length = m.helpers.length + 1 := by
  simp only [gameStep, hb, if_false] at h
  obtain ⟨r', hr, rfl⟩ := Option.map_eq_some_iff.mp h
  have hlen := begins_helpers (xasyncBegin_inv hr)
  show r'.mem.helpers.length = _
  rw [hlen]
  simp [Memory.newHelper]

end Engine

/-! ## Steps -/

/-- The ways of `ResultApi.step`. -/
inductive TableSteps (api : ResultApi V) (m : TableMemory V) (s : TaskQueues Callback) :
    Code → TableChoice V → TableStep V → Prop where
  | engine {code : Code} {c : Choice} {r : EngineStep} (hr : m.engine.step s code c = some r) :
      TableSteps api m s code (.engine c) (m.lift r)
  | rejected {args : AsyncArgs} {b : ℕ} :
      TableSteps api m s .game (.async args b) { mem := m, run := [.frame .game] }
  | begun {args : AsyncArgs} {b : ℕ} {r : EngineStep}
      (hr : gameStep m.engine s (.runSync b 0) = some r)
      (hg : m.engine.states.length < r.mem.states.length) :
      TableSteps api m s .game (.async args b) ((m.begin b m.engine.helpers.length).lift r)
  | refused {args : AsyncArgs} {b : ℕ} {r : EngineStep}
      (hr : gameStep m.engine s (.runSync b 0) = some r) :
      TableSteps api m s .game (.async args b) (m.lift r)
  | resultSize {b : ℕ} {out : Bool} :
      TableSteps api m s .game (.resultSize b out)
        { mem := m.answer b (api.resultSize (m.table b) out), run := [.frame .game] }
  | result {b bufferSize : ℕ} {pointers : Bool} :
      TableSteps api m s .game (.result b bufferSize pointers)
        { mem := m.answer b (api.result (m.table b) bufferSize pointers)
          run := [.frame .game] }
  | fetch {h b key : ℕ} {reply : Reply V} {r : EngineStep} (hk : m.keyOf h = some key)
      (hr : m.engine.step s (.futureReturn h b) (returned (api.outcome reply)) = some r) :
      TableSteps api m s (.futureReturn h b) (.fetch reply)
        ((m.file key h (api.outcome reply)).lift r)

theorem tableSteps_inv {m : TableMemory V} {s : TaskQueues Callback} {code : Code}
    {x : TableChoice V} {r : TableStep V} (h : api.step m s code x = some r) :
    TableSteps api m s code x r := by
  unfold ResultApi.step at h
  split at h
  · unfold asyncStep at h
    split at h
    · cases h
      exact .rejected
    · obtain ⟨r', hr, h⟩ := Option.bind_eq_some_iff.mp h
      split at h
      · rename_i hg
        cases h
        exact .begun hr hg
      · cases h
        exact .refused hr
  · cases h
    exact .resultSize
  · cases h
    exact .result
  · simp only [Option.bind_eq_bind, Option.bind_eq_some_iff, Option.some.injEq] at h
    obtain ⟨key, hk, r', hr, rfl⟩ := h
    exact .fetch hk hr
  · split at h
    · cases h
    · obtain ⟨r', hr, rfl⟩ := Option.map_eq_some_iff.mp h
      exact .engine hr
  · obtain ⟨r', hr, rfl⟩ := Option.map_eq_some_iff.mp h
    exact .engine hr
  · cases h

/-- What the entries of a table are: `filedBy` names the call that has filed the entry of a
block. -/
structure Coherent (api : ResultApi V) (m : TableMemory V) (filedBy : ℕ → Option ℕ) : Prop where
  bound : ∀ h b, m.keyOf h = some b → h < m.engine.helpers.length
  unbegun : ∀ h, m.keyOf h = none → m.fetched h = none
  latest : ∀ b h, m.latest b = some h → m.keyOf h = some b
  filed : ∀ b h, filedBy b = some h → m.keyOf h = some b
  table : ∀ b, m.table b = (filedBy b).bind m.fetched
  newest : ∀ b h v, filedBy b = some h → m.fetched h = some (.ok v) →
    m.latest b = some h ∨ m.fetchedLast b = none
  error : ∀ h hr, m.fetched h = some (.error hr) → hr ≠ S_OK
  fresh : ∀ a ∈ m.answers, a.Fresh api

section Invariant
variable {m : TableMemory V} {filedBy : ℕ → Option ℕ}

theorem Coherent.lift (hI : Coherent api m filedBy) {r : EngineStep}
    (hle : m.engine.helpers.length ≤ r.mem.helpers.length) :
    Coherent api (m.lift r).mem filedBy :=
  ⟨fun h b hk => lt_of_lt_of_le (hI.bound h b hk) hle, hI.unbegun, hI.latest, hI.filed, hI.table,
    hI.newest, hI.error, hI.fresh⟩

/-- A new call has fetched nothing yet. -/
theorem Coherent.begin (hI : Coherent api m filedBy) {b : ℕ} {r : EngineStep}
    (hlen : r.mem.helpers.length = m.engine.helpers.length + 1) :
    Coherent api ((m.begin b m.engine.helpers.length).lift r).mem filedBy := by
  have hnew : m.keyOf m.engine.helpers.length = none := by
    cases hk : m.keyOf m.engine.helpers.length with
    | none => rfl
    | some key => exact absurd (hI.bound _ key hk) (Nat.lt_irrefl _)
  have hkey : ∀ h key, m.keyOf h = some key →
      Function.update m.keyOf m.engine.helpers.length (some b) h = some key := by
    intro h key hk
    have hne : h ≠ m.engine.helpers.length := (hI.bound h key hk).ne
    rw [Function.update_of_ne hne, hk]
  constructor
  · intro h key hk
    show h < r.mem.helpers.length
    rw [hlen]
    rcases update_cases hk with ⟨rfl, -⟩ | ⟨-, hold⟩
    · exact Nat.lt_succ_self _
    · exact Nat.lt_succ_of_lt (hI.bound h key hold)
  · intro h hk
    rcases update_cases hk with ⟨-, hnone⟩ | ⟨-, hold⟩
    · cases hnone
    · exact hI.unbegun h hold
  · intro b' h hl
    rcases update_cases hl with ⟨rfl, he⟩ | ⟨-, hold⟩
    · obtain rfl := Option.some.inj he
      exact Function.update_self _ _ _
    · exact hkey h b' (hI.latest b' h hold)
  · exact fun b' h hf => hkey h b' (hI.filed b' h hf)
  · exact hI.table
  · intro b' h v hf hv
    show Function.update m.latest b (some m.engine.helpers.length) b' = some h ∨
      (Function.update m.latest b (some m.engine.helpers.length) b').bind m.fetched = none
    by_cases hb : b' = b
    · right
      rw [hb, Function.update_self]
      exact hI.unbegun _ hnew
    · rw [Function.update_of_ne hb]
      exact hI.newest b' h v hf hv
  · exact hI.error
  · exact hI.fresh

/-- The entry that a call files is its own from then on. -/
theorem Coherent.file (hI : Coherent api m filedBy) {key h : ℕ} {result : Except HRESULT V}
    (hk : m.keyOf h = some key) (he : ∀ hr, result = .error hr → hr ≠ S_OK)
    (ho : (∃ v, result = .ok v) → m.latest key = some h ∨ m.fetchedLast key = none) :
    Coherent api (m.file key h result) (Function.update filedBy key (some h)) := by
  have hne : ∀ g b, b ≠ key → m.keyOf g = some b → g ≠ h := by
    intro g b hb hg hgh
    rw [hgh, hk] at hg
    exact hb (Option.some.inj hg).symm
  have hlast : ∀ b, m.fetchedLast b = none → m.latest b ≠ some h →
      (m.file key h result).fetchedLast b = none := by
    intro b hnone hl
    show (m.latest b).bind (Function.update m.fetched h (some result)) = none
    cases hlb : m.latest b with
    | none => rfl
    | some l =>
      have hlh : l ≠ h := fun hlh => hl (hlb.trans (congrArg some hlh))
      refine (Function.update_of_ne hlh _ _).trans ?_
      unfold TableMemory.fetchedLast at hnone
      rw [hlb] at hnone
      exact hnone
  constructor
  · exact hI.bound
  · intro g hg
    have hgh : g ≠ h := by
      rintro rfl
      have hnone := hk.symm.trans hg
      cases hnone
    exact (Function.update_of_ne hgh _ _).trans (hI.unbegun g hg)
  · exact hI.latest
  · intro b g hf
    rcases update_cases hf with ⟨rfl, hg⟩ | ⟨-, hold⟩
    · obtain rfl := Option.some.inj hg
      exact hk
    · exact hI.filed b g hold
  · intro b
    show Function.update m.table key (some result) b =
      (Function.update filedBy key (some h) b).bind (Function.update m.fetched h (some result))
    by_cases hb : b = key
    · rw [hb, Function.update_self, Function.update_self, Option.bind_some, Function.update_self]
    · rw [Function.update_of_ne hb, Function.update_of_ne hb, hI.table b]
      cases hf : filedBy b with
      | none => rfl
      | some g => exact (Function.update_of_ne (hne g b hb (hI.filed b g hf)) _ _).symm
  · intro b g v hf hv
    rcases update_cases hf with ⟨rfl, hg⟩ | ⟨hb, hold⟩
    · obtain rfl := Option.some.inj hg
      have hr : result = .ok v := by
        rcases update_cases hv with ⟨-, hr⟩ | ⟨hgg, -⟩
        · exact (Option.some.inj hr).symm
        · exact absurd rfl hgg
      by_cases hl : m.latest b = some g
      · exact .inl hl
      · exact .inr (hlast b ((ho ⟨v, hr⟩).resolve_left hl) hl)
    · have hgh := hne g b hb (hI.filed b g hold)
      have hv' : m.fetched g = some (.ok v) := (Function.update_of_ne hgh _ _).symm.trans hv
      refine (hI.newest b g v hold hv').imp id fun hnone => hlast b hnone ?_
      exact fun hl => hne h b hb (hI.latest b h hl) rfl
  · intro g hr hg
    rcases update_cases hg with ⟨-, hx⟩ | ⟨-, hold⟩
    · exact he hr (Option.some.inj hx).symm
    · exact hI.error g hr hold
  · exact hI.fresh

/-- A lookup that waits for the last call finds its value or none. -/
theorem Coherent.answer (hI : Coherent api m filedBy) {b : ℕ} {reply : HRESULT × Option (Report V)}
    (hr : reply.1 = S_OK → ∃ v report, m.table b = some (.ok v) ∧ reply.2 = some report ∧
      report.Of api v)
    (ho : (∃ v, m.table b = some (.ok v)) → (m.fetchedLast b).isSome = true) :
    Coherent api (m.answer b reply) filedBy := by
  refine ⟨hI.bound, hI.unbegun, hI.latest, hI.filed, hI.table, hI.newest, hI.error, ?_⟩
  refine List.forall_mem_cons.mpr ⟨?_, hI.fresh⟩
  intro hok
  obtain ⟨v, report, hv, hrep, hof⟩ := hr hok
  refine ⟨v, report, ?_, hrep, hof⟩
  have hsome := ho ⟨v, hv⟩
  rw [hI.table b] at hv
  obtain ⟨h, hf, hv⟩ := Option.bind_eq_some_iff.mp hv
  rcases hI.newest b h v hf hv with h1 | h1
  · show (m.latest b).bind m.fetched = _
    rw [h1]
    exact hv
  · rw [h1] at hsome
    cases hsome

theorem Coherent.table_error (hI : Coherent api m filedBy) {b : ℕ} {hr : HRESULT}
    (h : m.table b = some (.error hr)) : hr ≠ S_OK := by
  rw [hI.table b] at h
  obtain ⟨g, -, hg⟩ := Option.bind_eq_some_iff.mp h
  exact hI.error g hr hg

theorem TableSteps.coherent {s : World api.client} {R : Multiset (Frame Callback Code)}
    {code : Code} {x : TableChoice V} {r : TableStep V}
    (h : TableSteps api s.mem s.toTaskQueues code x r)
    (hg : inOrder api s R (.client code) (some x)) (hI : Coherent api s.mem filedBy) :
    ∃ filedBy', Coherent api r.mem filedBy' := by
  cases h with
  | engine hr => exact ⟨filedBy, hI.lift (steps_helpers (steps_inv hr))⟩
  | rejected => exact ⟨filedBy, hI⟩
  | @begun args b r hr hlt =>
    have hb : b ≠ 0 := by
      rintro rfl
      cases hr
      exact absurd hlt (Nat.lt_irrefl _)
    exact ⟨filedBy, hI.begin (runSync_helpers hb hr)⟩
  | refused hr => exact ⟨filedBy, hI.lift (steps_helpers (gameStep_inv hr))⟩
  | resultSize =>
    exact ⟨filedBy, hI.answer (resultSize_ok fun hr he => hI.table_error he) fun hv =>
      hg (found_iff.mpr hv)⟩
  | result =>
    exact ⟨filedBy, hI.answer (result_ok fun hr he => hI.table_error he) fun hv =>
      hg (found_iff.mpr hv)⟩
  | @fetch h b key reply r hk hr =>
    have horder : (∃ v, api.outcome reply = .ok v) →
        s.mem.latest key = some h ∨ s.mem.fetchedLast key = none := by
      rintro ⟨v, hv⟩
      have hf : found (some (api.outcome reply)) = true := by rw [hv]; rfl
      exact (hg hf key hk).imp id Option.isNone_iff_eq_none.mp
    exact ⟨_, (hI.file hk (fun hr he => api.outcome_error he) horder).lift
      (steps_helpers (steps_inv hr))⟩

end Invariant

/-! ## Runs -/

theorem reaches_coherent {pool n : ℕ} {c : Config (World api.client) (Frame Callback Code)}
    (h : (machine api.client).Reaches (inOrder api) (api.start pool n) c) :
    ∃ filedBy, Coherent api c.shared.mem filedBy := by
  refine h.preserved (I := fun s _ => ∃ filedBy, Coherent api s.mem filedBy) ?_ ?_
  · refine ⟨fun _ => none, ?_, fun _ _ => rfl, ?_, ?_, fun _ => rfl, ?_, ?_, ?_⟩
    · intro h b hk
      cases hk
    · intro b h hl
      cases hl
    · intro b h hf
      cases hf
    · intro b h v hf
      cases hf
    · intro h hr hf
      cases hf
    · exact List.forall_mem_nil _
  · intro s f R x o hg hI hs
    obtain ⟨filedBy, hI⟩ := hI
    rcases step_client_or_queue hs with ⟨hm, -⟩ | ⟨g, choice, r, rfl, rfl, hr, hm, -⟩
    · rw [hm]
      exact ⟨filedBy, hI⟩
    · rw [hm]
      exact (tableSteps_inv hr).coherent hg hI

/-- In every run whose fetches and lookups come in order, whatever a table answers with `S_OK` is
what the call begun last on the block has fetched. -/
theorem side_tables_fresh (t : SideTable) {pool n : ℕ}
    {c : Config (World t.api.client) (Frame Callback Code)}
    (h : (machine t.api.client).Reaches (inOrder t.api) (t.api.start pool n) c) :
    ∀ a ∈ c.shared.mem.answers, a.Fresh t.api := by
  obtain ⟨filedBy, hI⟩ := reaches_coherent h
  exact hI.fresh

/-! ## Two calls on one block -/

section Schedules

/-- Thread 1 begins a call on a block and returns to the code of the game. -/
def asyncSchedule (b : ℕ) : List (ℕ × Option (TableChoice String)) :=
  (1, some (.async {} b)) :: List.replicate 6 (1, some (.engine .finish))

/-- A worker runs the closure of a call, and the service replies `value`. -/
def fetchSchedule (worker : ℕ) (value : String) : List (ℕ × Option (TableChoice String)) :=
  List.replicate 4 (worker, some (.engine .finish)) ++ [(worker, some (.fetch (.ok value)))]

/-- The worker completes the block, and thread 1 asks for the status, which takes the call off
the block. -/
def completeSchedule (worker b : ℕ) : List (ℕ × Option (TableChoice String)) :=
  List.replicate 3 (worker, some (.engine .finish)) ++
    (1, some (.engine (.xasync b (.getStatus false)))) ::
      List.replicate 5 (1, some (.engine .finish))

/-- The block of a finished call is used again, and the token of its second call is read. -/
theorem side_tables_fresh_read : ∃ c, (machine licenseToken.client).Reaches
      (inOrder licenseToken) (licenseToken.start 2 1) c ∧
    c.shared.mem.keyOf 0 = some 1 ∧ c.shared.mem.keyOf 1 = some 1 ∧
    ∃ a ∈ c.shared.mem.answers, a.block = 1 ∧ a.hr = S_OK ∧
      (∃ v ∈ a.fetched, v.toOption = some "second") ∧ a.Fresh licenseToken := by
  have h : ((machine licenseToken.client).run (inOrder licenseToken)
      (asyncSchedule 1 ++ fetchSchedule 2 "first" ++ completeSchedule 2 1 ++
        asyncSchedule 1 ++ fetchSchedule 3 "second" ++ [(1, some (.result 1 7 true))])
      (licenseToken.start 2 1)).any (fun c =>
        decide (c.shared.mem.keyOf 0 = some 1 ∧ c.shared.mem.keyOf 1 = some 1) &&
        c.shared.mem.answers.any fun a => decide (a.block = 1 ∧ a.hr = S_OK) &&
          a.fetched.any fun v => decide (v.toOption = some "second")) = true := by
    decide +kernel
  obtain ⟨c, hr, hc⟩ := Machine.Reaches.of_run_any h
  obtain ⟨hbegun, hc⟩ := Bool.and_eq_true_iff.mp hc
  obtain ⟨hfirst, hsecond⟩ := of_decide_eq_true hbegun
  obtain ⟨a, ha, hread⟩ := List.any_eq_true.mp hc
  obtain ⟨hok, hfetched⟩ := Bool.and_eq_true_iff.mp hread
  obtain ⟨hblock, hok⟩ := of_decide_eq_true hok
  obtain ⟨v, hv, htoken⟩ := (Option.any_eq_true _ _).mp hfetched
  exact ⟨c, hr, hfirst, hsecond, a, ha, hblock, hok, ⟨v, hv, of_decide_eq_true htoken⟩,
    side_tables_fresh .licenseToken (c := c) hr a ha⟩

/-- A second call is begun on the block of a finished one, and before its fetch has ended the
token of the first is read as its result. -/
theorem side_tables_stale : ∃ c, (machine licenseToken.client).Reaches anyStep
      (licenseToken.start 2 1) c ∧
    ∃ a ∈ c.shared.mem.answers, a.hr = S_OK ∧ a.fetched.isNone = true ∧
      ¬ a.Fresh licenseToken := by
  have h : ((machine licenseToken.client).run anyStep
      (asyncSchedule 1 ++ fetchSchedule 2 "token" ++ completeSchedule 2 1 ++ asyncSchedule 1 ++
        [(1, some (.result 1 6 true))])
      (licenseToken.start 2 1)).any (fun c => c.shared.mem.answers.any fun a =>
        decide (a.hr = S_OK) && a.fetched.isNone) = true := by
    decide +kernel
  obtain ⟨c, hr, hc⟩ := Machine.Reaches.of_run_any h
  obtain ⟨a, ha, hbad⟩ := List.any_eq_true.mp hc
  rw [Bool.and_eq_true] at hbad
  obtain ⟨hok, hnone⟩ := hbad
  refine ⟨c, hr, a, ha, of_decide_eq_true hok, hnone, fun hfresh => ?_⟩
  obtain ⟨v, report, hv, -⟩ := hfresh (of_decide_eq_true hok)
  rw [hv] at hnone
  cases hnone

end Schedules

end XGameRuntime.ResultTables
