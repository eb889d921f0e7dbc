import XGameRuntime.Pickers.Operation

/-! # A completion handler runs once

Whoever finds in its own section that a handler is to be called has promised to call it. The
history says which handlers have to be called (`due`), the pool which promises are still open
(`Code.promises`); the sum of the calls made and of those promised is what is due.
-/

namespace XGameRuntime.Pickers
open Concurrency
set_option autoImplicit false

section
variable {Path Value : Type}

/-! ## What a history says -/

def Event.finishes : Event Path Value → Bool
  | .finished _ => true
  | _ => false

def Event.registers (handler : Handler) : Event Path Value → Bool
  | .registered h => decide (h = some handler)
  | _ => false

def Event.calls (handler : Handler) : Event Path Value → Bool
  | .invoked h _ => decide (h = handler)
  | _ => false

/-- What the pick has produced. -/
def outcome : List (Event Path Value) → Option (Except HRESULT (Option Path))
  | [] => none
  | .finished outcome :: _ => some outcome
  | .registered _ :: log | .invoked _ _ :: log | .answered _ :: log => outcome log

/-- The handler of the last call of `SetCompleted`. -/
def registered : List (Event Path Value) → Option Handler
  | [] => none
  | .registered handler :: _ => handler
  | .finished _ :: log | .invoked _ _ :: log | .answered _ :: log => registered log

/-- The state that a history leads to. -/
def replay : List (Event Path Value) → OperationState Path
  | [] => {}
  | .registered handler :: log => { replay log with handler := handler }
  | .finished outcome :: log => (replay log).finish outcome
  | .invoked _ _ :: log | .answered _ :: log => replay log

/-- How often a handler has to be called: once if it stands registered when the pick finishes, and
once if it is registered afterwards. -/
def due (handler : Handler) : List (Event Path Value) → ℕ
  | [] => 0
  | .registered h :: log =>
      due handler log + if (outcome log).isSome ∧ h = some handler then 1 else 0
  | .finished _ :: log => due handler log + if registered log = some handler then 1 else 0
  | .invoked _ _ :: log | .answered _ :: log => due handler log

/-- The status that an outcome comes to. -/
def finalStatus : Except HRESULT (Option Path) → AsyncStatus
  | .ok _ => .Completed
  | .error _ => .Error

/-- What an outcome is for `GetResults`: a cancelled pick is a success with no file. -/
def result (createResult : Path → Value) : Except HRESULT (Option Path) → Except HRESULT Value
  | .ok none => .error S_OK
  | .ok (some path) => .ok (createResult path)
  | .error error => .error error

/-- Every handler was told, and every getter answered, what the history before it says. -/
def Told (createResult : Path → Value) : List (Event Path Value) → Prop
  | [] => True
  | .invoked _ status :: log =>
      ((outcome log).isSome ∧ status = (replay log).status) ∧ Told createResult log
  | .answered answer :: log =>
      (∃ query, answer = (replay log).answer createResult query) ∧ Told createResult log
  | .registered _ :: log | .finished _ :: log => Told createResult log

theorem finalStatus_ne (o : Except HRESULT (Option Path)) : finalStatus o ≠ .Started := by
  cases o <;> exact nofun

theorem replay_handler (log : List (Event Path Value)) : (replay log).handler = registered log := by
  induction log with
  | nil => rfl
  | cons e log ih =>
    cases e with
    | registered handler => rfl
    | finished outcome => cases outcome <;> exact ih
    | invoked handler status => exact ih
    | answered answer => exact ih

theorem replay_status (log : List (Event Path Value)) :
    (replay log).status = (outcome log).elim .Started finalStatus := by
  induction log with
  | nil => rfl
  | cons e log ih =>
    cases e with
    | registered handler => exact ih
    | finished outcome => cases outcome <;> rfl
    | invoked handler status => exact ih
    | answered answer => exact ih

theorem replay_status_ne {log : List (Event Path Value)} :
    (replay log).status ≠ .Started ↔ (outcome log).isSome := by
  rw [replay_status]
  cases outcome log with
  | none => simp
  | some o => simpa using finalStatus_ne o

theorem replay_results {createResult : Path → Value} {log : List (Event Path Value)}
    {o : Except HRESULT (Option Path)} (h : outcome log = some o) :
    (replay log).results createResult = result createResult o := by
  induction log with
  | nil => cases h
  | cons e log ih =>
    cases e with
    | registered handler => exact ih h
    | finished outcome =>
      obtain rfl := Option.some.inj h
      cases outcome with
      | error error => rfl
      | ok picked => cases picked <;> rfl
    | invoked handler status => exact ih h
    | answered answer => exact ih h

theorem outcome_append {later log : List (Event Path Value)} (h : outcome later = none) :
    outcome (later ++ log) = outcome log := by
  induction later with
  | nil => rfl
  | cons e later ih =>
    cases e with
    | finished outcome => cases h
    | registered handler => exact ih h
    | invoked handler status => exact ih h
    | answered answer => exact ih h

theorem outcome_none {log : List (Event Path Value)} (h : log.countP Event.finishes = 0) :
    outcome log = none := by
  induction log with
  | nil => rfl
  | cons e log ih =>
    rw [List.countP_cons] at h
    have hlog := ih (Nat.add_eq_zero_iff.mp h).1
    cases e with
    | finished outcome => cases (Nat.add_eq_zero_iff.mp h).2
    | registered handler => exact hlog
    | invoked handler status => exact hlog
    | answered answer => exact hlog

theorem registered_mem {log : List (Event Path Value)} {handler : Handler}
    (h : registered log = some handler) : .registered (some handler) ∈ log := by
  induction log with
  | nil => cases h
  | cons e log ih =>
    cases e with
    | registered h' =>
      obtain rfl : h' = some handler := h
      exact List.mem_cons_self
    | finished outcome => exact List.mem_cons_of_mem _ (ih h)
    | invoked h' status => exact List.mem_cons_of_mem _ (ih h)
    | answered answer => exact List.mem_cons_of_mem _ (ih h)

theorem due_unfinished {log : List (Event Path Value)} (h : outcome log = none)
    (handler : Handler) : due handler log = 0 := by
  induction log with
  | nil => rfl
  | cons e log ih =>
    cases e with
    | finished outcome => cases h
    | registered h' =>
      have hlog : outcome log = none := h
      rw [due, ih hlog, if_neg]
      simp [hlog]
    | invoked h' status => exact ih h
    | answered answer => exact ih h

/-- What is due after a completion, for the handler that it finds and for every later one. -/
theorem due_finished {later earlier : List (Event Path Value)}
    {o : Except HRESULT (Option Path)} (hlater : outcome later = none)
    (hearlier : outcome earlier = none) (handler : Handler) :
    due handler (later ++ .finished o :: earlier) =
      later.countP (Event.registers handler) + if registered earlier = some handler then 1 else 0 := by
  induction later with
  | nil => rw [List.nil_append, due, due_unfinished hearlier, List.countP_nil]
  | cons e later ih =>
    rw [List.cons_append, List.countP_cons]
    cases e with
    | finished outcome => cases hlater
    | registered h' =>
      have hrest : outcome later = none := hlater
      have hdone : (outcome (later ++ .finished o :: earlier)).isSome := by
        rw [outcome_append hrest]
        rfl
      rw [due, ih hlater]
      simp only [hdone, true_and, Event.registers, decide_eq_true_eq]
      omega
    | invoked h' status => exact ih hlater
    | answered answer => exact ih hlater

theorem Told.suffix {createResult : Path → Value} {later log : List (Event Path Value)}
    (h : Told createResult (later ++ log)) : Told createResult log := by
  induction later with
  | nil => exact h
  | cons e later ih =>
    cases e with
    | invoked handler status => exact ih h.2
    | answered answer => exact ih h.2
    | registered handler => exact ih h
    | finished outcome => exact ih h

/-! ## What a step does -/

variable {createResult : Path → Value} {m : Memory Path Value} {f : Code Path} {x : Choice Path}
  {o : Outcome (Memory Path Value) (Code Path)}

/-- The sections under the lock, with the code that goes to wait for it. -/
inductive Section : Code Path → Code Path → Prop where
  | finish (outcome : Except HRESULT (Option Path)) : Section (.finish outcome) (.finishing outcome)
  | invoke (handler : Handler) : Section (.invoke handler) (.invoking handler)
  | setCompleted (handler : Option Handler) : Section (.setCompleted handler) (.registering handler)
  | query (query : Query) : Section (.query query) (.answering query)

inductive Step (createResult : Path → Value) (m : Memory Path Value) :
    Code Path → Outcome (Memory Path Value) (Code Path) → Prop where
  | pick (h : m.created = false) :
      Step createResult m .title ⟨{ m with created := true }, [.start, .title], []⟩
  | lookUp (h : m.created = false) (outcome : Except HRESULT (Option Path)) :
      Step createResult m .title
        ⟨{ m with created := true }, [.finish outcome, .returning, .title], []⟩
  | setCompleted (delegate : Option ℕ) :
      Step createResult m .title ⟨{ m with calls := m.calls + 1 },
        [.setCompleted (delegate.map fun d => ⟨d, m.calls⟩), .title], []⟩
  | ask (query : Query) : Step createResult m .title ⟨m, [.query query, .title], []⟩
  | dispatch (h : m.deferred = true) :
      Step createResult m .title ⟨{ m with deferred := false }, [.job, .title], []⟩
  | thread : Step createResult m .title ⟨m, [.title], [[.title]]⟩
  | done : Step createResult m .title ⟨m, [], []⟩
  | queued : Step createResult m .start ⟨{ m with deferred := true }, [.returning], []⟩
  | refused : Step createResult m .start ⟨m, [.finish (.error E_FAIL), .returning], []⟩
  | returning : Step createResult m .returning ⟨{ m with returned := true }, [], []⟩
  | modal : Step createResult m .job ⟨m, [.title, .job], []⟩
  | outcome (outcome : Except HRESULT (Option Path)) :
      Step createResult m .job ⟨m, [.finish outcome], []⟩
  | lock {f next : Code Path} (hsection : Section f next) (h : m.locked = false) :
      Step createResult m f ⟨{ m with locked := true }, [next], []⟩
  | finish (outcome : Except HRESULT (Option Path)) :
      Step createResult m (.finishing outcome)
        ⟨m.finish outcome, m.state.handler.toList.map .invoke, []⟩
  | invoke (handler : Handler) :
      Step createResult m (.invoking handler) ⟨m.unlock, [.call handler m.state.status], []⟩
  | call (handler : Handler) (status : AsyncStatus) :
      Step createResult m (.call handler status) ⟨m.record (.invoked handler status), [.title], []⟩
  | register (handler : Option Handler) :
      Step createResult m (.registering handler) ⟨m.register handler,
        if m.state.status ≠ .Started then handler.toList.map .invoke else [], []⟩
  | answer (query : Query) :
      Step createResult m (.answering query)
        ⟨m.unlock.record (.answered (m.state.answer createResult query)), [], []⟩

theorem lock_inv {next : Code Path} (hsection : Section f next) (h : m.lock next = some o) :
    Step createResult m f o := by
  unfold Memory.lock at h
  split at h
  · cases h
  · next hfree =>
    obtain rfl := Option.some.inj h
    exact .lock hsection (Bool.eq_false_iff.mpr hfree)

theorem titleStep_inv (h : m.titleStep x = some o) : Step createResult m .title o := by
  unfold Memory.titleStep at h
  split at h
  · split at h
    · cases h
    · next hnew =>
      obtain rfl := Option.some.inj h
      exact .pick (Bool.eq_false_iff.mpr hnew)
  · split at h
    · cases h
    · next hnew =>
      obtain rfl := Option.some.inj h
      exact .lookUp (Bool.eq_false_iff.mpr hnew) _
  · split at h
    · obtain rfl := Option.some.inj h
      exact .setCompleted _
    · cases h
  · split at h
    · obtain rfl := Option.some.inj h
      exact .ask _
    · cases h
  · split at h
    · next hdeferred =>
      obtain rfl := Option.some.inj h
      exact .dispatch hdeferred
    · cases h
  · obtain rfl := Option.some.inj h
    exact .thread
  · obtain rfl := Option.some.inj h
    exact .done
  · cases h

theorem step_inv (h : m.step createResult f x = some o) : Step createResult m f o := by
  unfold Memory.step at h
  split at h
  · exact titleStep_inv h
  · obtain rfl := Option.some.inj h
    exact .queued
  · obtain rfl := Option.some.inj h
    exact .refused
  · obtain rfl := Option.some.inj h
    exact .returning
  · obtain rfl := Option.some.inj h
    exact .modal
  · obtain rfl := Option.some.inj h
    exact .outcome _
  · exact lock_inv (.finish _) h
  · obtain rfl := Option.some.inj h
    exact .finish _
  · exact lock_inv (.invoke _) h
  · obtain rfl := Option.some.inj h
    exact .invoke _
  · obtain rfl := Option.some.inj h
    exact .call _ _
  · exact lock_inv (.setCompleted _) h
  · obtain rfl := Option.some.inj h
    exact .register _
  · exact lock_inv (.query _) h
  · obtain rfl := Option.some.inj h
    exact .answer _
  · cases h

/-! ## Who holds the lock, who is to finish, who has promised to call -/

def Code.holds : Code Path → ℕ
  | .finishing _ | .invoking _ | .registering _ | .answering _ => 1
  | _ => 0

/-- The code that will finish the pick. -/
def Code.ends : Code Path → ℕ
  | .start | .job | .finish _ | .finishing _ => 1
  | _ => 0

def Code.promises (handler : Handler) : Code Path → ℕ
  | .invoke h | .invoking h | .call h _ => if h = handler then 1 else 0
  | _ => 0

/-- The code that will register a handler. -/
def Code.registers (handler : Handler) : Code Path → ℕ
  | .setCompleted h | .registering h => if h = some handler then 1 else 0
  | _ => 0

/-- What a promise to call was made on. -/
def Code.Sees (status : AsyncStatus) : Code Path → Prop
  | .invoke _ | .invoking _ => status ≠ .Started
  | .call _ told => status ≠ .Started ∧ told = status
  | _ => True

theorem Code.Sees.keep {status status' : AsyncStatus} (h : f.Sees status)
    (hstatus : status' = status ∨ status = .Started) : f.Sees status' := by
  obtain rfl | rfl := hstatus
  · exact h
  · cases f with
    | invoke handler => exact absurd rfl h
    | invoking handler => exact absurd rfl h
    | call handler told => exact absurd rfl h.1
    | _ => trivial

/-- What is left to do for the pick to finish, outside the threads, and whether it has. -/
def ending (created deferred : Bool) (log : List (Event Path Value)) : ℕ :=
  (if created then 0 else 1) + (if deferred then 1 else 0) + log.countP Event.finishes

theorem ending_cons {created deferred : Bool} {log : List (Event Path Value)} {e : Event Path Value} :
    ending created deferred (e :: log) =
      ending created deferred log + if e.finishes then 1 else 0 := by
  unfold ending
  rw [List.countP_cons]
  omega

theorem Section.holds {next : Code Path} (h : Section f next) : f.holds = 0 ∧ next.holds = 1 := by
  cases h <;> exact ⟨rfl, rfl⟩

theorem Section.ends {next : Code Path} (h : Section f next) : next.ends = f.ends := by
  cases h <;> rfl

theorem Section.promises {next : Code Path} (h : Section f next) (handler : Handler) :
    next.promises handler = f.promises handler := by
  cases h <;> rfl

theorem Section.registers {next : Code Path} (h : Section f next) (handler : Handler) :
    next.registers handler = f.registers handler := by
  cases h <;> rfl

theorem Section.sees {next : Code Path} (h : Section f next) {status : AsyncStatus}
    (hf : f.Sees status) : next.Sees status := by
  cases h <;> exact hf

theorem OperationState.finish_status (state : OperationState Path)
    (outcome : Except HRESULT (Option Path)) : (state.finish outcome).status = finalStatus outcome := by
  cases outcome <;> rfl

theorem weight_invokes {w : Code Path → ℕ} (h : ∀ handler, w (.invoke handler) = 0)
    (handler : Option Handler) : ((handler.toList.map Code.invoke).map w).sum = 0 := by
  cases handler with
  | none => rfl
  | some handler => simpa using h handler

theorem weight_promises (handler : Handler) (h : Option Handler) :
    ((h.toList.map Code.invoke).map (Code.promises handler : Code Path → ℕ)).sum =
      if h = some handler then 1 else 0 := by
  cases h with
  | none => rfl
  | some h => simp [Code.promises]

/-! ## What holds in every run -/

variable {c : Config (Memory Path Value) (Code Path)} {G : Guard (Memory Path Value) (Code Path) (Choice Path)}

theorem state_invariant (h : (machine createResult).Reaches G start c) :
    c.shared.state = replay c.shared.log := by
  refine h.preserved (I := fun m _ => m.state = replay m.log) rfl ?_
  intro m f R x o _ hi hs
  cases step_inv hs with
  | finish outcome =>
    show m.state.finish outcome = (replay m.log).finish outcome
    rw [hi]
  | register handler =>
    show { m.state with handler := handler } = { replay m.log with handler := handler }
    rw [hi]
  | _ => exact hi

/-- What a call that is found due puts on the stack has no other weight than its promise. -/
theorem weight_registered {w : Code Path → ℕ} (h : ∀ handler, w (.invoke handler) = 0) (p : Prop)
    [Decidable p] (handler : Option Handler) :
    ((if p then handler.toList.map Code.invoke else []).map w).sum = 0 := by
  split
  · exact weight_invokes h handler
  · rfl

/-- The lock is held by one thread, or by none when it is free. -/
theorem lock_invariant (h : (machine createResult).Reaches G start c) :
    weight Code.holds c.frames = if c.shared.locked then 1 else 0 := by
  refine h.preserved (I := fun m fs => weight Code.holds fs = if m.locked then 1 else 0) rfl ?_
  intro m f R x o _ hi hs
  rw [weight_cons] at hi
  rw [weight_add, weight_frames]
  -- a thread in its section is the one that holds the lock
  have hunlock : f.holds = 1 → weight Code.holds R = 0 := by
    intro hf
    split at hi <;> omega
  cases step_inv hs with
  | lock hsection hfree =>
    obtain ⟨hf, hnext⟩ := hsection.holds
    rw [hf, if_neg (by rw [hfree]; decide)] at hi
    simp [hnext]
    omega
  | finish outcome =>
    rw [hunlock rfl, weight_invokes fun _ => rfl]
    rfl
  | invoke handler =>
    rw [hunlock rfl]
    rfl
  | register handler =>
    rw [hunlock rfl, weight_registered fun _ => rfl]
    rfl
  | answer query =>
    rw [hunlock rfl]
    rfl
  | _ =>
    simp [Code.holds, Memory.record] at hi ⊢
    exact hi

/-- A pick finishes once. -/
theorem ends_invariant (h : (machine createResult).Reaches G start c) :
    weight Code.ends c.frames + ending c.shared.created c.shared.deferred c.shared.log = 1 := by
  refine h.preserved
    (I := fun m fs => weight Code.ends fs + ending m.created m.deferred m.log = 1) rfl ?_
  intro m f R x o _ hi hs
  rw [weight_cons] at hi
  rw [weight_add, weight_frames]
  cases step_inv hs with
  | pick hnew | lookUp hnew outcome =>
    simp [hnew, Code.ends, ending] at hi ⊢
    omega
  | dispatch hdeferred =>
    simp [hdeferred, Code.ends, ending] at hi ⊢
    omega
  | queued =>
    have hnone : m.deferred = false := by
      cases hdeferred : m.deferred with
      | false => rfl
      | true =>
        simp [hdeferred, Code.ends, ending] at hi
        omega
    simp [hnone, Code.ends, ending] at hi ⊢
    omega
  | lock hsection hfree =>
    simp [hsection.ends] at hi ⊢
    omega
  | finish outcome =>
    rw [weight_invokes fun _ => rfl]
    simp [Code.ends, Memory.finish, Memory.record, ending_cons, Event.finishes] at hi ⊢
    omega
  | register handler =>
    rw [weight_registered fun _ => rfl]
    simp [Code.ends, Memory.register, Memory.record, ending_cons, Event.finishes] at hi ⊢
    omega
  | _ =>
    simp [Code.ends, Memory.record, Memory.unlock, ending_cons, Event.finishes] at hi ⊢
    omega

theorem finishes_le (h : (machine createResult).Reaches G start c) :
    c.shared.log.countP Event.finishes ≤ 1 := by
  have hends := ends_invariant h
  unfold ending at hends
  omega

/-- While a thread is to finish the pick, it has not finished. -/
theorem started_of_ends {fs : Multiset (Code Path)} (hends : 0 < weight Code.ends fs)
    (h : weight Code.ends fs + ending m.created m.deferred m.log = 1)
    (hstate : m.state = replay m.log) : m.state.status = .Started := by
  have hnone : outcome m.log = none := by
    refine outcome_none ?_
    unfold ending at h
    omega
  rw [hstate, replay_status, hnone]
  rfl

/-! ## Promises -/

theorem Step.sees (h : Step createResult m f o) (hf : f.Sees m.state.status) :
    ∀ g ∈ o.frames, g.Sees o.shared.state.status := by
  cases h with
  | lock hsection hfree =>
    intro g hg
    obtain rfl := Multiset.mem_singleton.mp hg
    exact hsection.sees hf
  | finish outcome =>
    refine forall_frames.mpr ⟨fun g hg => ?_, fun _ hk => absurd hk List.not_mem_nil⟩
    obtain ⟨handler, -, rfl⟩ := List.mem_map.mp hg
    show (m.state.finish outcome).status ≠ .Started
    rw [OperationState.finish_status]
    exact finalStatus_ne outcome
  | invoke handler =>
    intro g hg
    obtain rfl := Multiset.mem_singleton.mp hg
    exact ⟨hf, rfl⟩
  | register handler =>
    refine forall_frames.mpr ⟨fun g hg => ?_, fun _ hk => absurd hk List.not_mem_nil⟩
    split at hg
    · next hdone =>
      obtain ⟨handler, -, rfl⟩ := List.mem_map.mp hg
      exact hdone
    · exact absurd hg List.not_mem_nil
  | _ => simp [forall_frames, Code.Sees]

theorem Step.status (h : Step createResult m f o) :
    o.shared.state.status = m.state.status ∨ 0 < f.ends := by
  cases h with
  | finish outcome => exact .inr Nat.one_pos
  | _ => exact .inl rfl

/-- Who has promised to call a handler has seen the pick finished, and its status stays. -/
theorem sees_invariant (h : (machine createResult).Reaches G start c) :
    ∀ f ∈ c.frames, f.Sees c.shared.state.status := by
  refine h.invariant (I := fun m fs => ∀ f ∈ fs, f.Sees m.state.status)
    (J := fun m fs => weight Code.ends fs + ending m.created m.deferred m.log = 1 ∧
      m.state = replay m.log) (fun c hc => ⟨ends_invariant hc, state_invariant hc⟩) ?_ ?_
  · intro f hf
    obtain rfl := Multiset.mem_singleton.mp hf
    trivial
  · intro m f R x o _ hJ hi hs
    obtain ⟨hf, hR⟩ := Multiset.forall_mem_cons.mp hi
    have hstep := step_inv hs
    have hstatus : o.shared.state.status = m.state.status ∨ m.state.status = .Started := by
      refine hstep.status.imp_right fun hends => ?_
      refine started_of_ends ?_ hJ.1 hJ.2
      rw [weight_cons]
      omega
    intro g hg
    obtain hg | hg := Multiset.mem_add.mp hg
    · exact hstep.sees hf g hg
    · exact (hR g hg).keep hstatus

/-- The calls that have been made and those that are promised are those that are due. -/
theorem calls_invariant (h : (machine createResult).Reaches G start c) (handler : Handler) :
    c.shared.log.countP (Event.calls handler) + weight (Code.promises handler) c.frames =
      due handler c.shared.log := by
  refine h.invariant
    (I := fun m fs => m.log.countP (Event.calls handler) + weight (Code.promises handler) fs =
      due handler m.log) (J := fun m _ => m.state = replay m.log)
    (fun c hc => state_invariant hc) rfl ?_
  intro m f R x o _ hJ hi hs
  rw [weight_cons] at hi
  rw [weight_add, weight_frames]
  cases step_inv hs with
  | lock hsection hfree =>
    simp [hsection.promises] at hi ⊢
    omega
  | finish outcome =>
    rw [weight_promises, hJ, replay_handler]
    simp [Memory.finish, Memory.record, Code.promises, Event.calls, due] at hi ⊢
    omega
  | invoke h' =>
    simp [Memory.unlock, Code.promises] at hi ⊢
    omega
  | call h' status =>
    simp [Memory.record, Code.promises, Event.calls, List.countP_cons, due] at hi ⊢
    omega
  | register h' =>
    have hpush : ((if m.state.status ≠ .Started then h'.toList.map .invoke else []).map
        (Code.promises handler : Code Path → ℕ)).sum =
        if (outcome m.log).isSome ∧ h' = some handler then 1 else 0 := by
      rw [hJ]
      by_cases hdone : (outcome m.log).isSome
      · rw [if_pos (replay_status_ne.mpr hdone), weight_promises]
        simp only [hdone, true_and]
      · rw [if_neg (mt replay_status_ne.mp hdone), if_neg fun hboth => hdone hboth.1]
        rfl
    rw [hpush]
    simp only [Memory.register, Memory.record, Code.promises, due] at hi ⊢
    rw [List.countP_cons_of_neg Bool.false_ne_true]
    simp at hi ⊢
    omega
  | answer query =>
    simp [Memory.unlock, Memory.record, Code.promises, Event.calls, due] at hi ⊢
    omega
  | _ =>
    simp [Code.promises] at hi ⊢
    omega

/-- Whether the call that passes the handler has been made, of so many calls. -/
def Handler.made (handler : Handler) (calls : ℕ) : ℕ := if handler.call < calls then 1 else 0

theorem Handler.made_succ (handler : Handler) (calls : ℕ) :
    handler.made (calls + 1) = handler.made calls + if handler.call = calls then 1 else 0 := by
  unfold Handler.made
  split_ifs <;> omega

/-- No two calls of `SetCompleted` pass the same reference. -/
theorem registers_invariant (h : (machine createResult).Reaches G start c) (handler : Handler) :
    c.shared.log.countP (Event.registers handler) + weight (Code.registers handler) c.frames ≤
      handler.made c.shared.calls := by
  refine h.preserved
    (I := fun m fs => m.log.countP (Event.registers handler) + weight (Code.registers handler) fs ≤
      handler.made m.calls) (Nat.zero_le _) ?_
  intro m f R x o _ hi hs
  rw [weight_cons] at hi
  rw [weight_add, weight_frames]
  cases step_inv hs with
  | setCompleted delegate =>
    have hnew : (if delegate.map (fun d => (⟨d, m.calls⟩ : Handler)) = some handler then 1 else 0) ≤
        if handler.call = m.calls then 1 else 0 := by
      split
      · next hpassed =>
        obtain ⟨d, -, rfl⟩ := Option.map_eq_some_iff.mp hpassed
        exact Nat.le_of_eq (if_pos rfl).symm
      · exact Nat.zero_le _
    simp [Code.registers, Handler.made_succ] at hi hnew ⊢
    omega
  | lock hsection hfree =>
    simp [hsection.registers] at hi ⊢
    omega
  | finish outcome =>
    rw [weight_invokes fun _ => rfl]
    simp [Memory.finish, Memory.record, Code.registers, Event.registers] at hi ⊢
    omega
  | register h' =>
    rw [weight_registered fun _ => rfl]
    simp [Memory.register, Memory.record, Code.registers, Event.registers, List.countP_cons] at hi ⊢
    omega
  | _ =>
    simp [Memory.record, Memory.unlock, Code.registers, Event.registers] at hi ⊢
    omega

theorem told_invariant (h : (machine createResult).Reaches G start c) :
    Told createResult c.shared.log := by
  refine h.invariant (I := fun m _ => Told createResult m.log)
    (J := fun m fs => m.state = replay m.log ∧ ∀ f ∈ fs, f.Sees m.state.status)
    (fun c hc => ⟨state_invariant hc, sees_invariant hc⟩) (by trivial) ?_
  intro m f R x o _ hJ hi hs
  obtain ⟨hstate, hsees⟩ := hJ
  cases step_inv hs with
  | call handler status =>
    obtain ⟨hdone, htold⟩ := hsees _ (Multiset.mem_cons_self _ _)
    rw [hstate] at hdone htold
    exact ⟨⟨replay_status_ne.mp hdone, htold⟩, hi⟩
  | answer query => exact ⟨⟨query, congrArg (OperationState.answer createResult · query) hstate⟩, hi⟩
  | _ => exact hi

/-! ## Stacks -/

/-- The code that something else may run above. -/
def Code.Waits : Code Path → Prop
  | .title | .returning | .job => True
  | _ => False

/-- Whatever is below the top of a stack has neither the lock nor a promise. -/
theorem waits_invariant (h : (machine createResult).Reaches G start c) :
    ∀ k ∈ c.threads, ∀ f ∈ k.tail, f.Waits := by
  refine h.stacks (P := fun _ k => ∀ f ∈ k.tail, f.Waits) (J := fun _ _ => True)
    (fun _ _ => trivial) ?_ ?_ ?_
  · intro k hk f hf
    obtain rfl := List.mem_singleton.mp hk
    exact absurd hf List.not_mem_nil
  · exact fun _ _ _ _ _ _ hk => hk
  · intro m f R k x o _ _ hk hs
    have hbelow : ∀ g ∈ k, g.Waits := hk
    have htail : ∀ {l : List (Code Path)}, (∀ g ∈ l.tail, g.Waits) →
        ∀ g ∈ (l ++ k).tail, g.Waits := by
      intro l hl g hg
      cases l with
      | nil => exact hbelow g (List.mem_of_mem_tail hg)
      | cons f l => exact (List.mem_append.mp hg).elim (hl g) (hbelow g)
    cases step_inv hs with
    | finish outcome =>
      refine ⟨htail ?_, fun _ ht => absurd ht List.not_mem_nil⟩
      cases m.state.handler <;> exact fun _ hg => absurd hg List.not_mem_nil
    | register handler =>
      refine ⟨htail ?_, fun _ ht => absurd ht List.not_mem_nil⟩
      split
      · cases handler <;> exact fun _ hg => absurd hg List.not_mem_nil
      · exact fun _ hg => absurd hg List.not_mem_nil
    | _ => exact ⟨htail (by simp [Code.Waits]), by simp [Code.Waits]⟩

end

end XGameRuntime.Pickers
