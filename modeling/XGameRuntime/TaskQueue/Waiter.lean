import XGameRuntime.Concurrency.Pool

/-! # Waiters

`waiter::register` and `waiter::unregister` of `src/com/xasync/impl.rs`: a thread submits a callback
each time the caller's handle is signalled, until its cancel event is. A wait for any of the two
returns the lowest index that is signalled, and the cancel event is the second object, so a handle
that stays signalled hides it.
-/

namespace XGameRuntime.TaskQueue
open Concurrency
set_option autoImplicit false

/-! ## Handles -/

inductive ResetMode where
  | auto
  | manual
  deriving DecidableEq, Repr

structure WaitHandle where
  reset : ResetMode
  signalled : Bool := false
  closed : Bool := false
  deriving DecidableEq, Repr

def WAIT_FAILED : ℕ := 0xFFFFFFFF

/-- What a wait that returns for this handle does to it. -/
def WaitHandle.consume (handle : WaitHandle) : WaitHandle :=
  match handle.reset with
  | .auto => { handle with signalled := false }
  | .manual => handle

/-- `WaitForMultipleObjects` on two objects, for any of them and without a time limit; `none` while
it blocks. -/
def waitForMultipleObjects (first second : WaitHandle) : Option (ℕ × WaitHandle × WaitHandle) :=
  if first.closed || second.closed then some (WAIT_FAILED, first, second)
  else if first.signalled then some (0, first.consume, second)
  else if second.signalled then some (1, first, second.consume)
  else none

/-! ## The threads of a waiter -/

/-- `exited` says that the thread has left its loop and `returned` that `unregister` has returned.
The last two fields are history variables, counted from `SetEvent` on: the callbacks submitted and the
steps of the waiter's thread. -/
structure Waiter where
  wait : WaitHandle
  cancel : WaitHandle := { reset := .manual }
  exited : Bool := false
  returned : Bool := false
  submitted : ℕ := 0
  lateSubmits : ℕ := 0
  lateSteps : ℕ := 0
  deriving DecidableEq, Repr

inductive WaiterFrame where
  -- the loop of the thread
  | waiting
  | submitting
  -- `unregister`
  | setEvent
  | join
  | closeHandle
  /-- Whoever else has the caller's handle. -/
  | owner
  deriving DecidableEq, Repr

/-- What the queue answers to a submission, or what is done to the caller's handle. -/
inductive WaiterChoice where
  | accepted
  | refused
  | set
  | reset
  | close
  deriving DecidableEq, Repr

namespace Waiter

/-- A step of the waiter's thread is counted once the event is set. -/
def tick (s : Waiter) : Waiter :=
  if s.cancel.signalled then { s with lateSteps := s.lateSteps + 1 } else s

def submit (s : Waiter) : Waiter :=
  { s with
    submitted := s.submitted + 1
    lateSubmits := if s.cancel.signalled then s.lateSubmits + 1 else s.lateSubmits }

def exit (s : Waiter) : Waiter := { s with exited := true }

/-- What the owner of the caller's handle may do to it. -/
def touch (s : Waiter) : WaiterChoice → Waiter
  | .set => { s with wait := { s.wait with signalled := true } }
  | .reset => { s with wait := { s.wait with signalled := false } }
  | .close => { s with wait := { s.wait with closed := true } }
  | _ => s

end Waiter

def waiterMachine : Machine Waiter WaiterFrame WaiterChoice where
  step s f x :=
    match f with
    | .waiting => do
        let (signalled, wait, cancel) ← waitForMultipleObjects s.wait s.cancel
        let s := { s.tick with wait := wait, cancel := cancel }
        if signalled ≠ 0 then some ⟨s.exit, [], []⟩
        else some ⟨s, [.submitting], []⟩
    | .submitting =>
        if x = .accepted then some ⟨s.tick.submit, [.waiting], []⟩
        else some ⟨s.tick.exit, [], []⟩
    | .setEvent => some ⟨{ s with cancel := { s.cancel with signalled := true } }, [], []⟩
    | .join => if s.exited then some ⟨s, [], []⟩ else none
    | .closeHandle =>
        some ⟨{ s with cancel := { s.cancel with closed := true }, returned := true }, [], []⟩
    | .owner => some ⟨s.touch x, [.owner], []⟩

/-- A registered waiter: its thread, the thread that will unregister it, the owner of the handle. -/
def Waiter.start (wait : WaitHandle) : Config Waiter WaiterFrame where
  shared := { wait := wait }
  threads := [[.waiting], [.setEvent, .join, .closeHandle], [.owner]]

/-- Once a callback has been submitted after `SetEvent`, no wait finds the caller's handle
signalled. -/
def signalledOnce : Guard Waiter WaiterFrame WaiterChoice :=
  fun s _ f _ => f = .waiting → s.cancel.signalled = true → s.wait.closed = false →
    s.lateSubmits ≠ 0 → s.wait.signalled = false

instance (s : Waiter) (R : Multiset WaiterFrame) (f : WaiterFrame) (x : WaiterChoice) :
    Decidable (signalledOnce s R f x) :=
  inferInstanceAs (Decidable (f = .waiting → s.cancel.signalled = true → s.wait.closed = false →
    s.lateSubmits ≠ 0 → s.wait.signalled = false))

/-! ## What unregistering promises -/

/-- From `SetEvent` on the waiter submits at most one callback, and its thread, which nothing blocks,
leaves its loop within three steps; nothing keeps `unregister` from joining it then, and nothing is
submitted once `unregister` has returned. -/
structure StopsWaiting (c : Config Waiter WaiterFrame) : Prop where
  submits : c.shared.lateSubmits ≤ 1
  steps : c.shared.lateSteps ≤ 3
  runs : c.shared.cancel.signalled = true → c.shared.exited = false →
    ∀ x, ∃ c', waiterMachine.fire c 0 x = some c'
  joins : c.shared.exited = true → c.threads[1]? ≠ some [] → ∀ x, ∃ c', waiterMachine.fire c 1 x = some c'
  silent : c.shared.returned = true → ∀ c', waiterMachine.Reaches anyStep c c' →
    c'.shared.submitted = c.shared.submitted

/-! ## Where the threads are -/

/-- The waiter's thread: in its loop, or past it. -/
inductive InLoop (s : Waiter) : List WaiterFrame → Prop where
  | waiting (he : s.exited = false) : InLoop s [.waiting]
  | submitting (he : s.exited = false) : InLoop s [.submitting]
  | exited (he : s.exited = true) : InLoop s []

/-- The thread that unregisters the waiter. -/
inductive Unregistering (s : Waiter) : List WaiterFrame → Prop where
  | before (hs : s.cancel.signalled = false) (hr : s.returned = false) :
      Unregistering s [.setEvent, .join, .closeHandle]
  | joining (hs : s.cancel.signalled = true) (hr : s.returned = false) :
      Unregistering s [.join, .closeHandle]
  | joined (hs : s.cancel.signalled = true) (hr : s.returned = false) (he : s.exited = true) :
      Unregistering s [.closeHandle]
  | returned (he : s.exited = true) : Unregistering s []

structure Shape (c : Config Waiter WaiterFrame) : Prop where
  threads : ∃ w u, c.threads = [w, u, [.owner]] ∧ InLoop c.shared w ∧ Unregistering c.shared u
  manual : c.shared.cancel.reset = .manual

theorem waitForMultipleObjects_cancel {first second first' second' : WaitHandle} {signalled : ℕ}
    (h : waitForMultipleObjects first second = some (signalled, first', second'))
    (hm : second.reset = .manual) : second' = second := by
  unfold waitForMultipleObjects at h
  split at h
  · cases h
    rfl
  · split at h
    · cases h
      rfl
    · split at h
      · cases h
        unfold WaitHandle.consume
        rw [hm]
      · cases h

/-- A step of the waiter's thread: it stays in its loop or leaves it, and the cancel event and the
thread that sets it see nothing of it. -/
structure LoopStep (s s' : Waiter) (push : List WaiterFrame) : Prop where
  loop : InLoop s' push
  cancel : s'.cancel = s.cancel
  returned : s'.returned = s.returned

@[simp] theorem Waiter.tick_cancel (s : Waiter) : s.tick.cancel = s.cancel := by
  unfold Waiter.tick
  split <;> rfl

@[simp] theorem Waiter.tick_returned (s : Waiter) : s.tick.returned = s.returned := by
  unfold Waiter.tick
  split <;> rfl

@[simp] theorem Waiter.tick_exited (s : Waiter) : s.tick.exited = s.exited := by
  unfold Waiter.tick
  split <;> rfl

theorem waiting_step {s : Waiter} {x : WaiterChoice} {o : Outcome Waiter WaiterFrame}
    (h : waiterMachine.step s .waiting x = some o) (hm : s.cancel.reset = .manual)
    (he : s.exited = false) : LoopStep s o.shared o.push ∧ o.spawn = [] := by
  simp only [waiterMachine, Option.bind_eq_bind, Option.bind_eq_some_iff] at h
  obtain ⟨⟨signalled, wait, cancel⟩, hw, h⟩ := h
  have hcancel := waitForMultipleObjects_cancel hw hm
  dsimp only at h
  split at h
  · cases h
    exact ⟨⟨.exited rfl, hcancel, by simp [Waiter.exit]⟩, rfl⟩
  · cases h
    exact ⟨⟨.submitting (by simpa using he), hcancel, by simp⟩, rfl⟩

theorem submitting_step {s : Waiter} {x : WaiterChoice} {o : Outcome Waiter WaiterFrame}
    (h : waiterMachine.step s .submitting x = some o) (he : s.exited = false) :
    LoopStep s o.shared o.push ∧ o.spawn = [] := by
  simp only [waiterMachine] at h
  split at h
  · cases h
    exact ⟨⟨.waiting (by simpa [Waiter.submit] using he), by simp [Waiter.submit],
      by simp [Waiter.submit]⟩, rfl⟩
  · cases h
    exact ⟨⟨.exited rfl, by simp [Waiter.exit], by simp [Waiter.exit]⟩, rfl⟩

/-- What the thread that unregisters does not change leaves it where it is. -/
theorem Unregistering.keep {s s' : Waiter} {u : List WaiterFrame} (h : Unregistering s u)
    (hc : s'.cancel = s.cancel) (hr : s'.returned = s.returned)
    (he : s.exited = true → s'.exited = true) : Unregistering s' u := by
  cases h with
  | before hs hr' => exact .before (hc ▸ hs) (hr ▸ hr')
  | joining hs hr' => exact .joining (hc ▸ hs) (hr ▸ hr')
  | joined hs hr' he' => exact .joined (hc ▸ hs) (hr ▸ hr') (he he')
  | returned he' => exact .returned (he he')

theorem InLoop.keep {s s' : Waiter} {w : List WaiterFrame} (h : InLoop s w)
    (he : s'.exited = s.exited) : InLoop s' w := by
  cases h with
  | waiting h => exact .waiting (he.trans h)
  | submitting h => exact .submitting (he.trans h)
  | exited h => exact .exited (he.trans h)

theorem Shape.fire {c c' : Config Waiter WaiterFrame} {i : ℕ} {x : WaiterChoice} (h : Shape c)
    (hfire : waiterMachine.fire c i x = some c') : Shape c' := by
  obtain ⟨f, k, o, hk, ho, rfl⟩ := fire_cases hfire
  obtain ⟨⟨w, u, hthreads, hw, hu⟩, hm⟩ := h
  rw [hthreads] at hk ⊢
  rcases i with - | - | - | i
  · simp only [List.getElem?_cons_zero, Option.some.injEq] at hk
    subst hk
    have hstep : LoopStep c.shared o.shared o.push ∧ o.spawn = [] ∧ k = [] ∧
        c.shared.exited = false := by
      cases hw with
      | waiting he => exact ⟨(waiting_step ho hm he).1, (waiting_step ho hm he).2, rfl, he⟩
      | submitting he => exact ⟨(submitting_step ho he).1, (submitting_step ho he).2, rfl, he⟩
    obtain ⟨hl, hs, rfl, he⟩ := hstep
    refine ⟨⟨o.push, u, ?_, hl.loop, hu.keep hl.cancel hl.returned fun h => ?_⟩,
      hl.cancel ▸ hm⟩
    · rw [hs]
      simp
    · rw [he] at h
      cases h
  · simp only [List.getElem?_cons_succ, List.getElem?_cons_zero, Option.some.injEq] at hk
    subst hk
    cases hu with
    | before hs hr =>
      cases ho
      exact ⟨⟨w, _, rfl, hw.keep rfl, .joining rfl hr⟩, hm⟩
    | joining hs hr =>
      simp only [waiterMachine] at ho
      split at ho
      · rename_i he
        cases ho
        exact ⟨⟨w, _, rfl, hw, .joined hs hr he⟩, hm⟩
      · cases ho
    | joined hs hr he =>
      cases ho
      exact ⟨⟨w, _, rfl, hw.keep rfl, .returned he⟩, hm⟩
  · simp only [List.getElem?_cons_succ, List.getElem?_cons_zero, Option.some.injEq,
      List.cons.injEq] at hk
    obtain ⟨rfl, rfl⟩ := hk
    cases ho
    have htouch : (c.shared.touch x).cancel = c.shared.cancel ∧
        (c.shared.touch x).returned = c.shared.returned ∧
        (c.shared.touch x).exited = c.shared.exited := by
      cases x <;> exact ⟨rfl, rfl, rfl⟩
    refine ⟨⟨w, u, rfl, hw.keep htouch.2.2, hu.keep htouch.1 htouch.2.1 fun h => ?_⟩, ?_⟩
    · exact htouch.2.2.trans h
    · exact htouch.1 ▸ hm
  · simp at hk

theorem reaches_shape {G : Guard Waiter WaiterFrame WaiterChoice} {wait : WaitHandle}
    {c : Config Waiter WaiterFrame} (h : waiterMachine.Reaches G (Waiter.start wait) c) :
    Shape c := by
  induction h with
  | refl => exact ⟨⟨_, _, rfl, .waiting rfl, .before rfl rfl⟩, rfl⟩
  | tail _ hf ih =>
    obtain ⟨i, x, -, hfire⟩ := hf
    exact ih.fire hfire

/-- A thread that has left its loop submits nothing more. -/
theorem Shape.submitted {c c' : Config Waiter WaiterFrame} (h : Shape c)
    (he : c.shared.exited = true) (hr : waiterMachine.Reaches anyStep c c') :
    Shape c' ∧ c'.shared.exited = true ∧ c'.shared.submitted = c.shared.submitted := by
  induction hr with
  | refl => exact ⟨h, he, rfl⟩
  | @tail b d _ hf ih =>
    obtain ⟨i, x, -, hfire⟩ := hf
    obtain ⟨hb, heb, hsb⟩ := ih
    refine ⟨hb.fire hfire, ?_⟩
    rw [← hsb]
    obtain ⟨f, k, o, hk, ho, rfl⟩ := fire_cases hfire
    obtain ⟨⟨w, u, hthreads, hw, hu⟩, -⟩ := hb
    have hframe : f ≠ .waiting ∧ f ≠ .submitting := by
      rw [hthreads] at hk
      have hw0 : w = [] := by
        cases hw with
        | waiting hn | submitting hn =>
          rw [heb] at hn
          cases hn
        | exited => rfl
      subst hw0
      rcases i with - | - | - | i
      · cases hk
      · simp only [List.getElem?_cons_succ, List.getElem?_cons_zero, Option.some.injEq] at hk
        subst hk
        cases hu <;> exact ⟨by decide, by decide⟩
      · simp only [List.getElem?_cons_succ, List.getElem?_cons_zero, Option.some.injEq,
          List.cons.injEq] at hk
        rw [← hk.1]
        exact ⟨by decide, by decide⟩
      · simp at hk
    cases f with
    | waiting => exact absurd rfl hframe.1
    | submitting => exact absurd rfl hframe.2
    | setEvent | closeHandle =>
      cases ho
      exact ⟨heb, rfl⟩
    | join =>
      simp only [waiterMachine, heb, if_true, Option.some.injEq] at ho
      subst ho
      exact ⟨heb, rfl⟩
    | owner =>
      cases ho
      cases x <;> exact ⟨heb, rfl⟩

theorem Shape.runs {c : Config Waiter WaiterFrame} (h : Shape c)
    (hs : c.shared.cancel.signalled = true) (he : c.shared.exited = false) (x : WaiterChoice) :
    ∃ c', waiterMachine.fire c 0 x = some c' := by
  obtain ⟨⟨w, u, hthreads, hw, -⟩, -⟩ := h
  have hfire : ∀ f o, c.threads[0]? = some [f] → waiterMachine.step c.shared f x = some o →
      ∃ c', waiterMachine.fire c 0 x = some c' := by
    intro f o hk ho
    unfold Machine.fire
    rw [hk]
    exact ⟨_, Option.map_eq_some_iff.mpr ⟨o, ho, rfl⟩⟩
  have hstep : ∃ f o, c.threads[0]? = some [f] ∧ waiterMachine.step c.shared f x = some o := by
    rw [hthreads]
    cases hw with
    | waiting =>
      refine ⟨.waiting, ?_⟩
      simp only [waiterMachine, Option.bind_eq_bind, Option.bind_eq_some_iff]
      have hwait : ∃ r, waitForMultipleObjects c.shared.wait c.shared.cancel = some r := by
        unfold waitForMultipleObjects
        rw [hs]
        split
        · exact ⟨_, rfl⟩
        · split <;> exact ⟨_, rfl⟩
      obtain ⟨⟨signalled, wait, cancel⟩, hr⟩ := hwait
      by_cases hz : signalled = 0
      · exact ⟨_, rfl, _, hr, by rw [if_neg (not_not.mpr hz)]⟩
      · exact ⟨_, rfl, _, hr, by rw [if_pos hz]⟩
    | submitting =>
      refine ⟨.submitting, ?_⟩
      simp only [waiterMachine]
      split <;> exact ⟨_, rfl, rfl⟩
    | exited hn =>
      rw [he] at hn
      cases hn
  obtain ⟨f, o, hk, ho⟩ := hstep
  exact hfire f o hk ho

theorem Shape.joins {c : Config Waiter WaiterFrame} (h : Shape c) (he : c.shared.exited = true)
    (hu : c.threads[1]? ≠ some []) (x : WaiterChoice) :
    ∃ c', waiterMachine.fire c 1 x = some c' := by
  obtain ⟨⟨w, u, hthreads, -, hun⟩, -⟩ := h
  unfold Machine.fire
  rw [hthreads] at hu ⊢
  cases hun with
  | before | joined => exact ⟨_, rfl⟩
  | joining =>
    have hjoin : waiterMachine.step c.shared .join x = some ⟨c.shared, [], []⟩ := by
      simp only [waiterMachine, he, if_true]
    simp only [List.getElem?_cons_succ, List.getElem?_cons_zero, hjoin]
    exact ⟨_, rfl⟩
  | returned => exact absurd rfl hu

/-! ## How late it may be -/

/-- What the waiter's thread has done since `SetEvent`, by where it is. -/
inductive Late (s : Waiter) : List WaiterFrame → Prop where
  | waiting (h1 : s.lateSubmits ≤ 1) (h2 : s.lateSteps ≤ 2 * s.lateSubmits) : Late s [.waiting]
  | submitting (h1 : s.lateSubmits = 0) (h2 : s.lateSteps ≤ 1) : Late s [.submitting]
  | exited (h1 : s.lateSubmits ≤ 1) (h2 : s.lateSteps ≤ 3) : Late s []

structure NotTooLate (c : Config Waiter WaiterFrame) : Prop where
  late : ∀ w, c.threads[0]? = some w → Late c.shared w
  early : c.shared.cancel.signalled = false → c.shared.lateSubmits = 0 ∧ c.shared.lateSteps = 0

theorem waiting_late {s : Waiter} {R : Multiset WaiterFrame} {x : WaiterChoice}
    {o : Outcome Waiter WaiterFrame} (h : waiterMachine.step s .waiting x = some o)
    (hg : signalledOnce s R .waiting x)
    (hearly : s.cancel.signalled = false → s.lateSubmits = 0 ∧ s.lateSteps = 0)
    (h1 : s.lateSubmits ≤ 1) (h2 : s.lateSteps ≤ 2 * s.lateSubmits) :
    Late o.shared o.push ∧
      (s.cancel.signalled = false → o.shared.lateSubmits = 0 ∧ o.shared.lateSteps = 0) := by
  simp only [waiterMachine, Option.bind_eq_bind, Option.bind_eq_some_iff] at h
  obtain ⟨⟨signalled, wait, cancel⟩, hw, h⟩ := h
  have htick : s.tick.lateSubmits = s.lateSubmits ∧ s.tick.lateSteps ≤ s.lateSteps + 1 ∧
      (s.cancel.signalled = false → s.tick.lateSteps = s.lateSteps) := by
    unfold Waiter.tick
    split
    · rename_i hc
      refine ⟨rfl, Nat.le_refl _, fun hn => ?_⟩
      rw [hc] at hn
      cases hn
    · exact ⟨rfl, Nat.le_succ _, fun _ => rfl⟩
  obtain ⟨ht1, ht2, ht3⟩ := htick
  dsimp only at h
  split at h
  · cases h
    refine ⟨.exited (ht1 ▸ h1) ?_, fun hn => ⟨ht1.trans (hearly hn).1, (ht3 hn).trans (hearly hn).2⟩⟩
    have hle : s.tick.lateSteps ≤ 3 := by omega
    exact hle
  · rename_i hz
    cases h
    have hsig : s.wait.closed = false ∧ s.wait.signalled = true := by
      unfold waitForMultipleObjects at hw
      split at hw
      · cases hw
        exact absurd (by decide) hz
      · rename_i hcl
        simp only [Bool.or_eq_true, not_or, Bool.not_eq_true] at hcl
        split at hw
        · rename_i hsg
          exact ⟨hcl.1, hsg⟩
        · split at hw
          · cases hw
            exact absurd (by decide) hz
          · cases hw
    have hnone : s.lateSubmits = 0 := by
      by_contra hne
      cases hc : s.cancel.signalled with
      | false => exact hne (hearly hc).1
      | true =>
        have hquiet := hg rfl hc hsig.1 hne
        rw [hsig.2] at hquiet
        cases hquiet
    refine ⟨.submitting (ht1.trans hnone) ?_,
      fun hn => ⟨ht1.trans (hearly hn).1, (ht3 hn).trans (hearly hn).2⟩⟩
    have hle : s.tick.lateSteps ≤ 1 := by omega
    exact hle

theorem submitting_late {s : Waiter} {x : WaiterChoice} {o : Outcome Waiter WaiterFrame}
    (h : waiterMachine.step s .submitting x = some o)
    (hearly : s.cancel.signalled = false → s.lateSubmits = 0 ∧ s.lateSteps = 0)
    (h1 : s.lateSubmits = 0) (h2 : s.lateSteps ≤ 1) :
    Late o.shared o.push ∧
      (s.cancel.signalled = false → o.shared.lateSubmits = 0 ∧ o.shared.lateSteps = 0) := by
  simp only [waiterMachine] at h
  cases hc : s.cancel.signalled with
  | false =>
    have hz := hearly hc
    have htick : s.tick = s := if_neg (by simp [hc])
    rw [htick] at h
    split at h
    · cases h
      have hsub : s.submit.lateSubmits = 0 := by
        simp [Waiter.submit, hc, hz.1]
      exact ⟨.waiting (hsub.trans_le (Nat.zero_le 1)) (hz.2.trans_le (Nat.zero_le _)),
        fun _ => ⟨hsub, hz.2⟩⟩
    · cases h
      exact ⟨.exited (by show s.lateSubmits ≤ 1; omega) (by show s.lateSteps ≤ 3; omega),
        fun _ => hz⟩
  | true =>
    have htick : s.tick = { s with lateSteps := s.lateSteps + 1 } := if_pos hc
    rw [htick] at h
    refine ⟨?_, fun hn => by cases hn⟩
    split at h
    · cases h
      have hsub : ({ s with lateSteps := s.lateSteps + 1 } : Waiter).submit.lateSubmits = 1 := by
        simp [Waiter.submit, hc, h1]
      refine .waiting (Nat.le_of_eq hsub) ?_
      rw [hsub]
      show s.lateSteps + 1 ≤ 2 * 1
      omega
    · cases h
      exact .exited (by show s.lateSubmits ≤ 1; omega) (by show s.lateSteps + 1 ≤ 3; omega)

theorem Late.same {s s' : Waiter} {w : List WaiterFrame} (h : Late s w)
    (h1 : s'.lateSubmits = s.lateSubmits) (h2 : s'.lateSteps = s.lateSteps) : Late s' w := by
  cases h with
  | waiting ha hb => exact .waiting (h1 ▸ ha) (h1 ▸ h2 ▸ hb)
  | submitting ha hb => exact .submitting (h1 ▸ ha) (h2 ▸ hb)
  | exited ha hb => exact .exited (h1 ▸ ha) (h2 ▸ hb)

theorem NotTooLate.fire {c c' : Config Waiter WaiterFrame} {i : ℕ} {x : WaiterChoice}
    (h : NotTooLate c) (hshape : Shape c) (hfire : waiterMachine.fire c i x = some c')
    (hg : ∀ f, c.top i = some f → signalledOnce c.shared (c.others i) f x) : NotTooLate c' := by
  obtain ⟨f, k, o, hk, ho, rfl⟩ := fire_cases hfire
  have hguard := hg f (top_eq hk)
  obtain ⟨⟨w, u, hthreads, hw, hu⟩, hm⟩ := hshape
  have hlate := h.late w (by rw [hthreads]; rfl)
  have hearly := h.early
  -- a step of another thread, which counts nothing
  have hother : ∀ {s' : Waiter} {l : List (List WaiterFrame)}, l[0]? = some w →
      s'.lateSubmits = c.shared.lateSubmits → s'.lateSteps = c.shared.lateSteps →
      (s'.cancel.signalled = false → c.shared.cancel.signalled = false) → NotTooLate ⟨s', l⟩ := by
    intro s' l hl h1 h2 hc
    refine ⟨fun w' hw' => ?_, fun hn => ?_⟩
    · rw [hl, Option.some.injEq] at hw'
      exact hw' ▸ hlate.same h1 h2
    · rw [h1, h2]
      exact hearly (hc hn)
  rw [hthreads] at hk ⊢
  rcases i with - | - | - | i
  · simp only [List.getElem?_cons_zero, Option.some.injEq] at hk
    subst hk
    have hown : Late o.shared o.push ∧ (c.shared.cancel.signalled = false →
        o.shared.lateSubmits = 0 ∧ o.shared.lateSteps = 0) ∧ k = [] ∧
        o.shared.cancel = c.shared.cancel := by
      cases hw with
      | waiting he =>
        cases hlate with
        | waiting h1 h2 =>
          obtain ⟨hl, hn⟩ := waiting_late ho hguard hearly h1 h2
          exact ⟨hl, hn, rfl, (waiting_step ho hm he).1.cancel⟩
      | submitting he =>
        cases hlate with
        | submitting h1 h2 =>
          obtain ⟨hl, hn⟩ := submitting_late ho hearly h1 h2
          exact ⟨hl, hn, rfl, (submitting_step ho he).1.cancel⟩
    obtain ⟨hl, hn, rfl, hc⟩ := hown
    refine ⟨fun w' hw' => ?_, fun hs => hn (hc ▸ hs)⟩
    simp only [List.set_cons_zero, List.append_nil, List.cons_append,
      List.getElem?_cons_zero, Option.some.injEq] at hw'
    exact hw' ▸ hl
  · simp only [List.getElem?_cons_succ, List.getElem?_cons_zero, Option.some.injEq] at hk
    subst hk
    cases hu with
    | before =>
      cases ho
      exact hother rfl rfl rfl fun hn => by cases hn
    | joining =>
      simp only [waiterMachine] at ho
      split at ho
      · cases ho
        exact hother rfl rfl rfl id
      · cases ho
    | joined =>
      cases ho
      exact hother rfl rfl rfl id
  · simp only [List.getElem?_cons_succ, List.getElem?_cons_zero, Option.some.injEq,
      List.cons.injEq] at hk
    obtain ⟨rfl, rfl⟩ := hk
    cases ho
    cases x <;> exact hother rfl rfl rfl id
  · simp at hk

theorem cancelled_waiter_stops {wait : WaitHandle} {c : Config Waiter WaiterFrame}
    (h : waiterMachine.Reaches signalledOnce (Waiter.start wait) c) : StopsWaiting c := by
  have hshape := reaches_shape h
  have hlate : NotTooLate c := by
    induction h with
    | refl => exact ⟨fun w hw => Option.some.inj hw ▸ .waiting (Nat.zero_le _) (Nat.zero_le _),
        fun _ => ⟨rfl, rfl⟩⟩
    | tail hb hf ih =>
      obtain ⟨i, x, hg, hfire⟩ := hf
      exact (ih (reaches_shape hb)).fire (reaches_shape hb) hfire hg
  have hexited : c.shared.returned = true → c.shared.exited = true := by
    intro hr
    obtain ⟨⟨w, u, -, -, hu⟩, -⟩ := hshape
    cases hu with
    | before _ hn | joining _ hn | joined _ hn =>
      rw [hr] at hn
      cases hn
    | returned he => exact he
  have hbound : c.shared.lateSubmits ≤ 1 ∧ c.shared.lateSteps ≤ 3 := by
    obtain ⟨⟨w, u, hthreads, -, -⟩, -⟩ := hshape
    cases hlate.late w (by rw [hthreads]; rfl) with
    | waiting h1 h2 => exact ⟨h1, by omega⟩
    | submitting h1 h2 => exact ⟨by omega, by omega⟩
    | exited h1 h2 => exact ⟨h1, h2⟩
  exact ⟨hbound.1, hbound.2, fun hs he => hshape.runs hs he, fun he hu => hshape.joins he hu,
    fun hr _ hc' => (hshape.submitted (hexited hr) hc').2.2⟩

/-- A manual-reset handle is left signalled: the waiter, cancelled before its first wait, submits two
callbacks and goes on. -/
theorem signalled_handle_hides_cancel :
    ∃ c, waiterMachine.Reaches anyStep (Waiter.start { reset := .manual, signalled := true }) c ∧
      c.top 0 = some .waiting ∧ ¬ StopsWaiting c := by
  have h : (waiterMachine.run anyStep
      [(1, .accepted), (0, .accepted), (0, .accepted), (0, .accepted), (0, .accepted)]
      (Waiter.start { reset := .manual, signalled := true })).any (fun c => decide
        (c.top 0 = some .waiting ∧ c.shared.lateSubmits = 2)) = true := by
    decide
  obtain ⟨c, hr, hc⟩ := Machine.Reaches.of_run_any h
  obtain ⟨htop, htwo⟩ := of_decide_eq_true hc
  refine ⟨c, hr, htop, fun hs => ?_⟩
  have hone := hs.submits
  omega

/-- An auto-reset handle that is signalled when the waiter is cancelled: one more callback, and the
thread is joined. -/
theorem cancelled_waiter_stops_auto :
    ∃ c, waiterMachine.Reaches signalledOnce
        (Waiter.start { reset := .auto, signalled := true }) c ∧
      c.shared.lateSubmits = 1 ∧ c.shared.returned = true ∧ StopsWaiting c := by
  have h : (waiterMachine.run signalledOnce
      [(1, .accepted), (0, .accepted), (0, .accepted), (0, .accepted), (1, .accepted),
        (1, .accepted)]
      (Waiter.start { reset := .auto, signalled := true })).any (fun c => decide
        (c.shared.lateSubmits = 1 ∧ c.shared.returned = true)) = true := by
    decide
  obtain ⟨c, hr, hc⟩ := Machine.Reaches.of_run_any h
  obtain ⟨hone, hret⟩ := of_decide_eq_true hc
  exact ⟨c, hr, hone, hret, cancelled_waiter_stops hr⟩

end XGameRuntime.TaskQueue
