import XGameRuntime.Pickers.Completion

/-! # A promised call is made

A promise lies on top of its thread's stack, and so does the lock's holder: a handler that has to
be called is called, by a thread that does not have the lock.
-/

namespace XGameRuntime.Pickers
open Concurrency
set_option autoImplicit false

section
variable {Path Value : Type} {createResult : Path → Value}
  {c : Config (Memory Path Value) (Code Path)} {i : ℕ} {f : Code Path} {k : List (Code Path)}

/-- What no waiting code has is on top of a stack. -/
theorem exists_top {w : Code Path → ℕ} (hw : ∀ f : Code Path, f.Waits → w f = 0)
    (h : (machine createResult).Reaches anyStep start c) (hpos : 0 < weight w c.frames) :
    ∃ (i : ℕ) (f : Code Path) (k : List (Code Path)), c.threads[i]? = some (f :: k) ∧ 0 < w f := by
  have hsome : ∃ f ∈ c.frames, w f ≠ 0 := by
    by_contra hnone
    push Not at hnone
    exact absurd (weight_eq_zero w hnone) (Nat.ne_of_gt hpos)
  obtain ⟨f, hf, hne⟩ := hsome
  obtain ⟨k, hk, hfk⟩ := List.mem_flatten.mp (Multiset.mem_coe.mp hf)
  obtain ⟨i, hi⟩ := List.mem_iff_getElem?.mp hk
  cases k with
  | nil => exact absurd hfk List.not_mem_nil
  | cons g k =>
    obtain rfl | hbelow := List.mem_cons.mp hfk
    · exact ⟨i, f, k, hi, Nat.pos_of_ne_zero hne⟩
    · exact absurd (hw f (waits_invariant h _ hk f hbelow)) hne

/-- A thread whose next section can run may run it next, and the others stay where they are. -/
theorem advance {x : Choice Path} {o : Outcome (Memory Path Value) (Code Path)}
    (hk : c.threads[i]? = some (f :: k)) (hs : c.shared.step createResult f x = some o) :
    ∃ d, (machine createResult).Reaches anyStep c d ∧ d.shared = o.shared ∧
      d.threads[i]? = some (o.push ++ k) ∧
      ∀ j l, j ≠ i → c.threads[j]? = some l → d.threads[j]? = some l := by
  have hfire : (machine createResult).fire c i x =
      some ⟨o.shared, c.threads.set i (o.push ++ k) ++ o.spawn⟩ := by
    unfold Machine.fire
    rw [hk]
    exact Option.map_eq_some_iff.mpr ⟨o, hs, rfl⟩
  have hi : i < c.threads.length := (List.getElem?_eq_some_iff.mp hk).1
  refine ⟨_, .tail .refl (.of_fire (top_eq hk) trivial hfire), rfl, ?_, ?_⟩
  · show (c.threads.set i (o.push ++ k) ++ o.spawn)[i]? = _
    rw [List.getElem?_append_left (by simpa using hi), List.getElem?_set_self hi]
  · intro j l hj hl
    have hlt : j < c.threads.length := (List.getElem?_eq_some_iff.mp hl).1
    show (c.threads.set i (o.push ++ k) ++ o.spawn)[j]? = _
    rw [List.getElem?_append_left (by simpa using hlt), List.getElem?_set_ne hj.symm, hl]

/-- The lock is given back by the section that holds it. -/
theorem unlocks (hf : 0 < f.holds) (m : Memory Path Value) :
    ∃ o, m.step createResult f .go = some o ∧ o.shared.locked = false := by
  cases f with
  | finishing outcome => exact ⟨_, rfl, rfl⟩
  | invoking handler => exact ⟨_, rfl, rfl⟩
  | registering handler => exact ⟨_, rfl, rfl⟩
  | answering query => exact ⟨_, rfl, rfl⟩
  | _ => exact absurd hf (Nat.lt_irrefl 0)

theorem holds_waits (f : Code Path) (h : f.Waits) : f.holds = 0 := by
  cases f <;> first | rfl | exact h.elim

theorem promises_waits (handler : Handler) (f : Code Path) (h : f.Waits) :
    f.promises handler = 0 := by
  cases f <;> first | rfl | exact h.elim

/-- A thread that waits for the lock gets it. -/
theorem free_lock (h : (machine createResult).Reaches anyStep start c)
    (hk : c.threads[i]? = some (f :: k)) (hf : f.holds = 0) :
    ∃ d, (machine createResult).Reaches anyStep c d ∧ d.shared.locked = false ∧
      d.threads[i]? = some (f :: k) := by
  cases hlocked : c.shared.locked with
  | false => exact ⟨c, .refl, hlocked, hk⟩
  | true =>
    have hone := lock_invariant h
    rw [hlocked, if_pos rfl] at hone
    obtain ⟨j, g, l, hl, hg⟩ := exists_top holds_waits h (Nat.lt_of_lt_of_eq Nat.one_pos hone.symm)
    have hij : i ≠ j := by
      rintro rfl
      rw [hk, Option.some.injEq, List.cons.injEq] at hl
      rw [← hl.1, hf] at hg
      exact Nat.lt_irrefl 0 hg
    obtain ⟨o, ho, hfree⟩ : ∃ o, c.shared.step createResult g .go = some o ∧
        o.shared.locked = false := unlocks hg c.shared
    obtain ⟨d, hd, hshared, -, hothers⟩ := advance hl ho
    exact ⟨d, hd, by rw [hshared, hfree], hothers i _ hij hk⟩

theorem call_made {handler : Handler} {status : AsyncStatus}
    (hk : c.threads[i]? = some (.call handler status :: k)) :
    ∃ d, (machine createResult).Reaches anyStep c d ∧ .invoked handler status ∈ d.shared.log := by
  have hstep : c.shared.step createResult (.call handler status) .go = some _ := rfl
  obtain ⟨d, hd, hshared, -, -⟩ := advance hk hstep
  exact ⟨d, hd, hshared ▸ List.mem_cons_self⟩

theorem invoking_called {handler : Handler} (hk : c.threads[i]? = some (.invoking handler :: k)) :
    ∃ d status, (machine createResult).Reaches anyStep c d ∧
      .invoked handler status ∈ d.shared.log := by
  have hstep : c.shared.step createResult (.invoking handler) .go = some _ := rfl
  obtain ⟨b, hb, -, hcall, -⟩ := advance hk hstep
  obtain ⟨d, hd, hin⟩ := call_made hcall
  exact ⟨d, _, hb.trans hd, hin⟩

/-- Whoever has promised to call a handler comes to call it. -/
theorem promise_kept (h : (machine createResult).Reaches anyStep start c) {handler : Handler}
    (hpos : 0 < weight (Code.promises handler) c.frames) :
    ∃ d status, (machine createResult).Reaches anyStep c d ∧
      .invoked handler status ∈ d.shared.log := by
  obtain ⟨i, f, k, hk, hf⟩ := exists_top (promises_waits handler) h hpos
  cases f with
  | invoke h' =>
    obtain rfl : h' = handler := by
      by_contra hne
      exact absurd hf (by simp [Code.promises, hne])
    obtain ⟨b, hb, hfree, hb'⟩ := free_lock h hk rfl
    have hlock : b.shared.step createResult (.invoke h') .go =
        some ⟨{ b.shared with locked := true }, [.invoking h'], []⟩ :=
      if_neg (by rw [hfree]; decide)
    obtain ⟨a, ha, -, hinvoking, -⟩ := advance hb' hlock
    obtain ⟨d, status, hd, hin⟩ := invoking_called hinvoking
    exact ⟨d, status, (hb.trans ha).trans hd, hin⟩
  | invoking h' =>
    obtain rfl : h' = handler := by
      by_contra hne
      exact absurd hf (by simp [Code.promises, hne])
    exact invoking_called hk
  | call h' status =>
    obtain rfl : h' = handler := by
      by_contra hne
      exact absurd hf (by simp [Code.promises, hne])
    obtain ⟨d, hd, hin⟩ := call_made hk
    exact ⟨d, status, hd, hin⟩
  | _ => exact absurd hf (Nat.lt_irrefl 0)

/-- The thread that calls a handler, or runs code of the title, does not have the lock. -/
theorem called_unlocked (h : (machine createResult).Reaches anyStep start c)
    (hk : f :: k ∈ c.threads) (hf : f.holds = 0) : ∀ g ∈ f :: k, g.holds = 0 := by
  intro g hg
  obtain rfl | hg := List.mem_cons.mp hg
  · exact hf
  · exact holds_waits g (waits_invariant h _ hk g hg)

/-! ## Exactly once -/

theorem outcome_suffix {later log : List (Event Path Value)} (h : outcome (later ++ log) = none) :
    outcome later = none ∧ outcome log = none := by
  induction later with
  | nil => exact ⟨rfl, h⟩
  | cons e later ih =>
    cases e with
    | finished outcome => cases h
    | registered handler => exact ih h
    | invoked handler status => exact ih h
    | answered answer => exact ih h

/-- What has happened since the completion was told by a history that knows the outcome. -/
theorem told_later {later earlier : List (Event Path Value)} {o : Except HRESULT (Option Path)}
    {e : Event Path Value} (hlater : outcome later = none)
    (htold : Told createResult (later ++ .finished o :: earlier)) (he : e ∈ later) :
    ∃ log, outcome log = some o ∧ Told createResult (e :: log) := by
  obtain ⟨since, before, rfl⟩ := List.append_of_mem he
  rw [List.append_assoc] at htold
  have hbefore : outcome before = none := by
    rw [List.append_cons] at hlater
    exact (outcome_suffix hlater).2
  exact ⟨before ++ .finished o :: earlier, by rw [outcome_append hbefore]; rfl, htold.suffix⟩

theorem not_invoked {log : List (Event Path Value)} (hnone : outcome log = none)
    (htold : Told createResult log) (handler : Handler) (status : AsyncStatus) :
    .invoked handler status ∉ log := by
  intro hin
  obtain ⟨since, before, rfl⟩ := List.append_of_mem hin
  obtain ⟨⟨hdone, -⟩, -⟩ := htold.suffix
  rw [List.append_cons] at hnone
  rw [(outcome_suffix hnone).2] at hdone
  cases hdone

/-- What a completed pick has promised: whoever registered last before the completion or at any
time after it is called once, with the status and the result that the outcome comes to, and
nobody else is called. -/
structure Delivered (createResult : Path → Value) (c : Config (Memory Path Value) (Code Path))
    (later : List (Event Path Value)) (o : Except HRESULT (Option Path))
    (earlier : List (Event Path Value)) : Prop where
  once : outcome later = none ∧ outcome earlier = none
  called : ∀ handler, .registered (some handler) ∈ later ∨ registered earlier = some handler →
    c.shared.log.countP (Event.calls handler) + weight (Code.promises handler) c.frames = 1
  replaced : ∀ handler, .registered (some handler) ∉ later → registered earlier ≠ some handler →
    c.shared.log.countP (Event.calls handler) = 0 ∧ weight (Code.promises handler) c.frames = 0
  status : ∀ handler status, .invoked handler status ∈ c.shared.log →
    .invoked handler status ∈ later ∧ status = finalStatus o ∧ status ≠ .Started
  results : ∀ r, .answered (.results r) ∈ later → r = result createResult o

theorem delivered (h : (machine createResult).Reaches anyStep start c)
    {later earlier : List (Event Path Value)} {o : Except HRESULT (Option Path)}
    (hlog : c.shared.log = later ++ .finished o :: earlier) :
    Delivered createResult c later o earlier := by
  have hcount := finishes_le h
  rw [hlog, List.countP_append, List.countP_cons_of_pos rfl] at hcount
  have hlater : outcome later = none := outcome_none (by omega)
  have hearlier : outcome earlier = none := outcome_none (by omega)
  have htold := told_invariant h
  rw [hlog] at htold
  have hdue : ∀ handler, c.shared.log.countP (Event.calls handler) +
      weight (Code.promises handler) c.frames = later.countP (Event.registers handler) +
        if registered earlier = some handler then 1 else 0 := by
    intro handler
    rw [calls_invariant h handler, hlog, due_finished hlater hearlier]
  refine ⟨⟨hlater, hearlier⟩, ?_, ?_, ?_, ?_⟩
  · intro handler hregistered
    rw [hdue]
    have hone : later.countP (Event.registers handler) + earlier.countP (Event.registers handler) ≤
        1 := by
      have hregisters := registers_invariant h handler
      have hmade : handler.made c.shared.calls ≤ 1 := by
        unfold Handler.made
        split <;> decide
      rw [hlog, List.countP_append, List.countP_cons_of_neg Bool.false_ne_true] at hregisters
      omega
    have hearlierCount : registered earlier = some handler →
        0 < earlier.countP (Event.registers handler) := fun hlast =>
      List.countP_pos_iff.mpr ⟨_, registered_mem hlast, decide_eq_true rfl⟩
    have hlaterCount : .registered (some handler) ∈ later →
        0 < later.countP (Event.registers handler) := fun hin =>
      List.countP_pos_iff.mpr ⟨_, hin, decide_eq_true rfl⟩
    split
    · next hlast =>
      have hpos := hearlierCount hlast
      omega
    · next hlast =>
      have hpos := hlaterCount (hregistered.resolve_right hlast)
      omega
  · intro handler hnotin hne
    have hzero : later.countP (Event.registers handler) = 0 := by
      refine List.countP_eq_zero.mpr fun e he hregisters => ?_
      cases e with
      | registered h' =>
        obtain rfl := of_decide_eq_true hregisters
        exact hnotin he
      | _ => cases hregisters
    have hsum := hdue handler
    rw [hzero, if_neg hne] at hsum
    exact Nat.add_eq_zero_iff.mp hsum
  · intro handler status hin
    rw [hlog] at hin
    have hinlater : .invoked handler status ∈ later := by
      obtain hin | hin := List.mem_append.mp hin
      · exact hin
      · obtain hin | hin := List.mem_cons.mp hin
        · cases hin
        · have hrest : Told createResult (.finished o :: earlier) := htold.suffix
          exact absurd hin (not_invoked hearlier hrest handler status)
    obtain ⟨log, houtcome, ⟨-, hstatus⟩, -⟩ := told_later hlater htold hinlater
    rw [replay_status, houtcome] at hstatus
    exact ⟨hinlater, hstatus, hstatus ▸ finalStatus_ne o⟩
  · intro r hin
    obtain ⟨log, houtcome, ⟨query, hanswer⟩, -⟩ := told_later hlater htold hin
    cases query with
    | GetResults =>
      obtain rfl := Answer.results.inj hanswer
      exact replay_results houtcome
    | _ => cases hanswer

/-- A picker's completion handler runs exactly once, however the pick comes to its end and
whatever the title does meanwhile. -/
theorem completion_handler_once (h : (machine createResult).Reaches anyStep start c) :
    (outcome c.shared.log = none → ∀ handler,
      c.shared.log.countP (Event.calls handler) = 0 ∧
        weight (Code.promises handler) c.frames = 0) ∧
    (∀ later o earlier, c.shared.log = later ++ .finished o :: earlier →
      Delivered createResult c later o earlier) ∧
    (∀ f k, f :: k ∈ c.threads → f = .title ∨ (∃ handler status, f = .call handler status) →
      ∀ g ∈ f :: k, g.holds = 0) ∧
    ∀ handler, 0 < weight (Code.promises handler) c.frames →
      ∃ d status, (machine createResult).Reaches anyStep c d ∧
        .invoked handler status ∈ d.shared.log := by
  refine ⟨fun hnone handler => ?_, fun _ _ _ => delivered h, fun f k hk hf => ?_,
    fun _ => promise_kept h⟩
  · have hcalls := calls_invariant h handler
    rw [due_unfinished hnone] at hcalls
    exact Nat.add_eq_zero_iff.mp hcalls
  · refine called_unlocked h hk ?_
    obtain rfl | ⟨handler, status, rfl⟩ := hf <;> rfl

end

/-- One handler before the completion, which asks for the result, and one after it. -/
def handlersSchedule : List (ℕ × Choice ℕ) :=
  [(0, .pick), (0, .queued true), (0, .go), (0, .setCompleted (some 5)), (0, .go), (0, .go),
    (0, .dispatch), (0, .outcome (.ok (some 7))), (0, .go), (0, .go), (0, .go), (0, .go), (0, .go),
    (0, .ask .GetResults), (0, .go), (0, .go), (0, .done),
    (0, .setCompleted (some 6)), (0, .go), (0, .go), (0, .go), (0, .go), (0, .go)]

def handlersLater : List (Event ℕ ℕ) :=
  [.invoked ⟨6, 1⟩ .Completed, .registered (some ⟨6, 1⟩), .answered (.results (.ok 8)),
    .invoked ⟨5, 0⟩ .Completed]

theorem completion_handler_once_run : ∃ c : Config (Memory ℕ ℕ) (Code ℕ),
    (machine Nat.succ).Reaches anyStep start c ∧ c.shared.log.countP (Event.calls ⟨5, 0⟩) = 1 ∧
      Delivered Nat.succ c handlersLater (.ok (some 7)) [.registered (some ⟨5, 0⟩)] := by
  have hsome : ((machine Nat.succ).run anyStep handlersSchedule start).isSome := by decide +kernel
  obtain ⟨c, hrun⟩ := Option.isSome_iff_exists.mp hsome
  have hlog : ((machine Nat.succ).run anyStep handlersSchedule start).map (fun c => c.shared.log) =
      some (handlersLater ++ .finished (.ok (some 7)) :: [.registered (some ⟨5, 0⟩)]) := rfl
  rw [hrun] at hlog
  have hc : c.shared.log = _ := Option.some.inj hlog
  have hreaches := Machine.Reaches.of_run hrun
  refine ⟨c, hreaches, by rw [hc]; decide, ?_⟩
  exact (completion_handler_once hreaches).2.1 _ _ _ hc

end XGameRuntime.Pickers
