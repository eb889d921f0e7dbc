import XGameRuntime.XAsync.Affinity
import XGameRuntime.XAsync.Notification

/-! # The callback that a completion delivers

`complete_state` publishes a status inside its lock section and reads the callback of the block
after it. Where nobody polls the call in between, the callback that is delivered is the one that
the block had at the begin.
-/

namespace XGameRuntime.XAsync
open Concurrency TaskQueue
set_option autoImplicit false

/-! ## Who has seen a final status -/

/-- What a call returns tells that call `i` is complete. -/
def Return.observes (i : ℕ) : Return → ℕ
  | .getStatus (some j) hr | .getResultSize (some j) hr _ | .getResultRefused (some j) hr =>
      if j = i ∧ hr ≠ E_PENDING then 1 else 0
  | .getResult j _ _ => if j = i then 1 else 0
  | _ => 0

/-- A call is about to return that call `i` is complete. -/
def observing (i : ℕ) : Load Callback Code where
  callback _ := 0
  code
    | .invoke j .getResult | .opReturn j .getResult | .afterOp j .getResult _ _ =>
        if j = i then 1 else 0
    | .ret value => value.observes i
    | _ => 0

def Event.observes (i : ℕ) : Event → ℕ
  | .returned value => value.observes i
  | _ => 0

def Memory.observed (m : Memory) (i : ℕ) : ℕ := (m.log.map (Event.observes i)).sum

/-- How often a thread has come to see the final status of call `i`. -/
def observations (i : ℕ) (c : Config (World Engine) (Frame Callback Code)) : ℕ :=
  (observing i).total c.shared.toCore c.frames + c.shared.mem.observed i

/-- The callback in the block of call `i`. -/
def Memory.callbackOf (m : Memory) (i : ℕ) : Option ℕ :=
  m.states[i]?.bind fun state => (m.blocks state.block).callback

/-! ## What is delivered -/

/-- In `c`, after `XAsyncBegin` has parked call `i` in block `b` in `c₁`: whoever comes from the lock
section of `complete_state` to read the callback has nobody before it that has come to see the final
status, and reads the callback that the block had at the begin. The game has not heard of the call
through another. -/
def DeliversOwn (i b : ℕ) (c₁ c : Config (World Engine) (Frame Callback Code)) : Prop :=
  (∀ t result, c.top t = some (.client (.announce i result)) →
    observations i c = 0 ∧ (c.shared.mem.blocks b).callback = (c₁.shared.mem.blocks b).callback) ∧
  ∀ b' callback, .routine i b' callback ∈ c.shared.mem.log →
    (c₁.shared.mem.blocks b).callback = some callback

/-- The threads between the lock section and the read. -/
def handing (i : ℕ) : Load Callback Code where
  callback _ := 0
  code
    | .announce j _ => if j = i then 1 else 0
    | _ => 0

/-- The code asks for the status, the size or the result of the call. -/
def polls (i : ℕ) : Code → Bool
  | .call j (.getStatus _) | .call j (.getResultSize _) | .call j (.getResult _ _) => decide (j = i)
  | _ => false

/-- The code changes the callback in the block of the call. -/
def changesCallback (i : ℕ) (m : Memory) : Code → Choice → Bool
  | .game, .setBlock b _ callback =>
      decide (∃ state ∈ m.states[i]?, state.block = b ∧ callback ≠ (m.blocks b).callback)
  | _, _ => false

/-- The `Begin` of the call fails with `E_PENDING` after the call has been completed. -/
def revives (i : ℕ) (m : Memory) : Code → Bool
  | .afterOp j .begin hr _ => decide (j = i ∧ hr = E_PENDING ∧ m.status i ≠ E_PENDING)
  | _ => false

/-- The owner of the block changes the callback only when the call is seen to be complete. -/
def ownsCallback (i : ℕ) (m : Memory) (code : Code) (choice : Choice) : Bool :=
  !changesCallback i m code choice || decide (0 < m.observed i)

abbrev patient (i : ℕ) : Guard (World Engine) (Frame Callback Code) (Option Choice) :=
  onCode fun s _ code choice => ownsCallback i s.mem code choice

/-- Besides, no thread polls the call while another is between the lock section and the read, and
its `Begin` does not put a completed call back to pending. -/
abbrev unpolled (i : ℕ) : Guard (World Engine) (Frame Callback Code) (Option Choice) :=
  onCode fun s R code choice => ownsCallback i s.mem code choice &&
    (!polls i code || decide ((handing i).total s.toCore R = 0)) && !revives i s.mem code

/-! ## What a step adds -/

/-- Completions of the call that carry another callback than `own`. -/
def straying (i : ℕ) (own : Option ℕ) : Load Callback Code where
  callback
    | .completion j callback => if j = i ∧ some callback ≠ own then 1 else 0
    | _ => 0
  code
    | .completionCallback j callback => if j = i ∧ some callback ≠ own then 1 else 0
    | _ => 0

def Event.strays (i : ℕ) (own : Option ℕ) : Event → ℕ
  | .routine j _ callback => if j = i ∧ some callback ≠ own then 1 else 0
  | _ => 0

/-- What a completion of one call leaves behind. -/
inductive Trail where
  | handing
  | observing
  | straying

def Trail.load (i : ℕ) (own : Option ℕ) : Trail → Load Callback Code
  | .handing => XAsync.handing i
  | .observing => XAsync.observing i
  | .straying => XAsync.straying i own

def Event.trail (i : ℕ) (own : Option ℕ) (e : Event) : Trail → ℕ
  | .handing => 0
  | .observing => e.observes i
  | .straying => e.strays i own

/-- What has been left in the log. -/
def Memory.left (m : Memory) (i : ℕ) (own : Option ℕ) (t : Trail) : ℕ :=
  (m.log.map fun e => e.trail i own t).sum

theorem trail_balanced (i : ℕ) (own : Option ℕ) (t : Trail) : Balanced (t.load i own) := by
  cases t
  all_goals
    refine ⟨rfl, rfl, fun callback canceled => ?_, fun _ => rfl, fun _ _ => rfl⟩
    cases callback with
    | work j => cases canceled <;> simp [Callback.code, Trail.load, handing, observing, straying]
    | _ => simp [Callback.code, Trail.load, handing, observing, straying]

/-- The sections that complete the call, announce it or poll it. -/
def attends (i : ℕ) : Code → Bool
  | .call j (.complete _ _) | .afterOp j .doWork _ _ | .announce j _ => decide (j = i)
  | code => polls i code

section Steps
variable {i b : ℕ} {own : Option ℕ} {m : Memory} {s : TaskQueues Callback} {code : Code}
  {x : Choice} {r : EngineStep} {t : Trail} {L : Trail → ℕ}

@[simp] theorem left_record (m : Memory) (e : Event) :
    (m.record e).left i own t = e.trail i own t + m.left i own t := by
  simp [Memory.left]

@[simp] theorem left_setBlock (m : Memory) (b : ℕ) (block : XAsyncBlock) :
    (m.setBlock b block).left i own t = m.left i own t := rfl

@[simp] theorem left_setState (m : Memory) (j : ℕ) (state : AsyncState) :
    (m.setState j state).left i own t = m.left i own t := rfl

@[simp] theorem left_setHelper (m : Memory) (h : ℕ) (helper : XsyncContextHelper) :
    (m.setHelper h helper).left i own t = m.left i own t := rfl

theorem left_log {m' : Memory} (h : m'.log = m.log) : m'.left i own t = m.left i own t := by
  rw [Memory.left, h]
  rfl

theorem left_observing (m : Memory) : m.left i own .observing = m.observed i := rfl

theorem beginReturned_left (m : Memory) (b : ℕ) (j : Option ℕ) (provider : Provider)
    (hr : HRESULT) : (m.beginReturned b j provider hr).left i own t = m.left i own t := by
  cases provider <;> cases t <;>
    simp [Memory.beginReturned, Event.trail, Event.observes, Return.observes, Event.strays]

theorem Invokes.left {j : ℕ} {state : AsyncState} {op : XAsyncOp} (h : Invokes m j state op r) :
    r.mem.left i own t = m.left i own t ∧
      (t.load i own).asked r = (t.load i own).code (.invoke j op) := by
  cases h with
  | @game op | @runOther op =>
    refine ⟨by cases t <;> simp [Event.trail, Event.observes, Event.strays], ?_⟩
    cases t <;> cases op <;>
      simp_all [Load.asked, Load.instr, Trail.load, handing, observing, straying]
  | _ =>
    refine ⟨by cases t <;> simp [Event.trail, Event.observes, Event.strays, Memory.left], ?_⟩
    cases t <;> simp [Load.asked, Load.instr, Load.submission, Trail.load, handing, observing,
      straying, runSyncSubmission]

theorem Begins.left {b identity : ℕ} {provider : Provider}
    (h : Begins m s b identity provider r) :
    r.mem.left i own t = m.left i own t ∧ (t.load i own).asked r = 0 := by
  refine ⟨?_, h.asked _ fun _ => by cases t <;> rfl⟩
  cases h with
  | rejected => exact beginReturned_left ..
  | unrouted => exact beginReturned_left ..
  | @parked route q routed state hb hn hroute hq hm hstate =>
    subst hm
    cases t <;> simp [Memory.left, Event.trail, Event.observes, Event.strays]

/-- Where a step does not attend to the call, what is under way and what is in the log stay in
balance. -/
theorem Steps.left (h : Steps m s code x r) (ha : attends i code = false) :
    (t.load i own).asked r + r.mem.left i own t =
      (t.load i own).code code + m.left i own t := by
  cases h with
  | begin h | run h | runSync _ h =>
    obtain ⟨hleft, hasked⟩ :=
      (h.left : Memory.left _ i own t = m.left i own t ∧ (t.load i own).asked _ = 0)
    rw [asked_resume _ (trail_balanced i own t).sees, hasked, (trail_balanced i own t).game]
    exact congrArg (0 + ·) hleft
  | queue hr =>
    subst hr
    rw [asked_queue _ (trail_balanced i own t).sees, (trail_balanced i own t).game]
  | invoke hs hi => rw [hi.left.1, hi.left.2]
  | beginReturn =>
    rw [beginReturned_left]
    cases t <;> simp [Load.asked, Trail.load, handing, observing, straying]
  | cleanedUp =>
    rw [left_log (Memory.takeState_log ..)]
    cases t <;> simp [Load.asked, Trail.load, handing, observing, straying]
  | @opReturn j op hr =>
    cases t <;> cases op <;>
      simp [Load.asked, Load.instr, Trail.load, handing, observing, straying]
  | @unresolved b c =>
    cases t <;> cases c <;> simp [Load.asked, Load.instr, Trail.load, handing, observing, straying,
      XAsyncCall.illegal, Return.observes]
  | announce | unheard | complete | completeLate | didWork | didWorkLate | getStatus
  | getStatusCleanup | getResultSizeNull | getResultSize | getResultRefused | getResultFailed
  | getResult =>
    simp only [attends, polls, decide_eq_false_iff_not] at ha
    cases t <;> simp [Load.asked, Load.instr, Load.submission, Trail.load, handing, observing,
      straying, Event.trail, Event.observes, Event.strays, Return.observes, ha]
  | _ =>
    cases t <;> simp [Load.asked, Load.instr, Load.submission, Trail.load, handing, observing,
      straying, Event.trail, Event.observes, Event.strays, Return.observes]

/-- The section of a call finds the call. -/
theorem Steps.attended (h : Steps m s code x r) (ha : attends i code = true) :
    i < m.states.length := by
  have hfound : ∀ {j : ℕ} {state : AsyncState}, m.states[j]? = some state → j = i →
      i < m.states.length := by
    rintro j state hs rfl
    exact (List.getElem?_eq_some_iff.mp hs).1
  cases h with
  | announce hs | unheard hs | complete hs | completeLate hs | didWork hs | didWorkLate hs
  | getStatus hs | getStatusCleanup hs | getResultSizeNull hs | getResultSize hs
  | getResultRefused hs | getResultFailed hs | getResult hs =>
    exact hfound hs (of_decide_eq_true ha)
  | _ => simp [attends, polls] at ha

/-! ## The invariant -/

/-- A call that has not begun has left nothing. -/
def Unborn (i : ℕ) (own : Option ℕ) (m : Memory) (L : Trail → ℕ) : Prop :=
  ∀ t, L t + m.left i own t = 0

/-- A call whose final status has been seen stays complete, and nobody is on the way to its
callback. Before that the callback is `own`, and nothing else is delivered at any time. -/
structure Owned (i : ℕ) (own : Option ℕ) (m : Memory) (L : Trail → ℕ) : Prop where
  born : i < m.states.length
  seen : 0 < L .observing + m.observed i → m.status i ≠ E_PENDING ∧ L .handing = 0
  kept : L .observing + m.observed i = 0 → m.callbackOf i = own
  none : L .straying + m.left i own .straying = 0

theorem unborn_step (h : Steps m s code x r) (hlen : m.states.length ≤ i)
    (hI : Unborn i own m fun t => L t + (t.load i own).code code) :
    Unborn i own r.mem fun t => L t + (t.load i own).asked r := by
  have ha : attends i code = false := by
    by_contra hn
    have hborn := h.attended (Bool.eq_true_of_not_eq_false hn)
    omega
  intro t
  have hleft : (t.load i own).asked r + r.mem.left i own t =
      (t.load i own).code code + m.left i own t := h.left ha
  have hzero := hI t
  dsimp only at hzero ⊢
  omega

/-- A step that changes the callback of no block of the call keeps it. -/
theorem Steps.callbackOf (h : Steps m s code x r) (hi : i < m.states.length)
    (hc : changesCallback i m code x = false) : r.mem.callbackOf i = m.callbackOf i := by
  have hs := List.getElem?_eq_getElem hi
  obtain ⟨state', hs', hsame⟩ := h.keeps hs
  simp only [Memory.callbackOf, hs, hs', Option.bind_some, hsame.block]
  rcases h.callback m.states[i].block with hkept | ⟨queue, callback, rfl, rfl, hnew⟩
  · exact hkept
  · have hsame : ¬ ∃ state' ∈ m.states[i]?, state'.block = m.states[i].block ∧
        callback ≠ (m.blocks m.states[i].block).callback := of_decide_eq_false hc
    rw [hnew]
    by_contra hne
    exact hsame ⟨_, hs, rfl, hne⟩

/-- The status of a call that has been seen to be complete stays final. -/
theorem Steps.status_final (h : Steps m s code x r) (hp : m.status i ≠ E_PENDING)
    (hr : revives i m code = false) : r.mem.status i ≠ E_PENDING := by
  rcases h.status with hsame | ⟨j, status, hnew, hold⟩
  · rw [hsame]
    exact hp
  · rw [hnew]
    split
    · rename_i hj
      subst hj
      rcases hold with hold | ⟨out, rfl, -⟩
      · exact absurd hold hp
      · intro he
        simp [revives, he, hp] at hr
    · exact hp

/-- A step that does not attend to the call. -/
theorem Owned.idle (h : Steps m s code x r) (ha : attends i code = false)
    (hown : ownsCallback i m code x = true) (hr : revives i m code = false)
    (hI : Owned i own m fun t => L t + (t.load i own).code code) :
    Owned i own r.mem fun t => L t + (t.load i own).asked r := by
  have hleft : ∀ t : Trail, (t.load i own).asked r + r.mem.left i own t =
      (t.load i own).code code + m.left i own t := fun _ => h.left ha
  have hobserving := hleft .observing
  have hhanding := hleft .handing
  have hstraying := hleft .straying
  have hzero : ∀ m : Memory, m.left i own .handing = 0 := by simp [Memory.left, Event.trail]
  simp only [left_observing, hzero] at hobserving hhanding
  obtain ⟨hborn, hseen, hkept, hnone⟩ := hI
  refine ⟨hborn.trans_le h.length_le, fun hpos => ?_, fun hz => ?_, by omega⟩
  · obtain ⟨hp, hh⟩ := hseen (by omega)
    exact ⟨h.status_final hp hr, by omega⟩
  · rw [← hkept (by omega)]
    refine h.callbackOf hborn ?_
    by_contra hc
    rw [Bool.not_eq_false] at hc
    have hpos : 0 < m.observed i := by simpa [ownsCallback, hc] using hown
    omega

/-- A poll of the call returns that it is complete only where its status is final. -/
theorem Steps.polled (h : Steps m s code x r) (hp : polls i code = true) :
    (∀ t : Trail, (t.load i own).code code = 0) ∧ (handing i).asked r = 0 ∧
      (straying i own).asked r = 0 ∧ r.mem.log = m.log ∧ r.mem.status i = m.status i ∧
      (0 < (observing i).asked r → m.status i ≠ E_PENDING) := by
  have hcode : ∀ t : Trail, (t.load i own).code code = 0 := by
    intro t
    cases code with
    | call j c =>
      cases c <;> first | cases hp | (cases t <;> simp [Trail.load, handing, observing, straying])
    | _ => cases hp
  refine ⟨hcode, ?_⟩
  cases h with
  | @getStatus j wait state x hs | @getResultSizeNull j state x hs
  | @getResultSize j size state x hs =>
    obtain rfl : j = i := of_decide_eq_true hp
    refine ⟨by simp [Load.asked, Load.instr, handing], by simp [Load.asked, Load.instr, straying],
      rfl, rfl, fun hpos he => ?_⟩
    rw [status_of hs] at he
    simp [Load.asked, Load.instr, observing, Return.observes, he] at hpos
  | @getResultRefused j identity bufferSize hr state x hs hk =>
    obtain rfl : j = i := of_decide_eq_true hp
    refine ⟨by simp [Load.asked, Load.instr, handing], by simp [Load.asked, Load.instr, straying],
      rfl, rfl, fun hpos he => ?_⟩
    rw [status_of hs] at he
    rcases hk with ⟨-, rfl⟩ | hok
    · simp [Load.asked, Load.instr, observing, Return.observes] at hpos
    · exact absurd (hok.symm.trans he) (by decide)
  | @getStatusCleanup j wait state x hs hf | @getResultFailed j identity bufferSize state x hs hf =>
    obtain rfl : j = i := of_decide_eq_true hp
    refine ⟨by simp [Load.asked, Load.instr, handing], by simp [Load.asked, Load.instr, straying],
      rfl, rfl, fun _ => ?_⟩
    rw [status_of hs]
    exact hf
  | @getResult j identity bufferSize state x hs ho hid hb =>
    obtain rfl : j = i := of_decide_eq_true hp
    refine ⟨by simp [Load.asked, Load.instr, handing], by simp [Load.asked, Load.instr, straying],
      rfl, status_setState_same hs (by rfl) j, fun _ => ?_⟩
    rw [status_of hs, ho]
    decide
  | _ => simp [polls] at hp

/-- A poll, which may come to see a final status. -/
theorem Owned.poll (h : Steps m s code x r) (hp : polls i code = true) (hh : L .handing = 0)
    (hI : Owned i own m fun t => L t + (t.load i own).code code) :
    Owned i own r.mem fun t => L t + (t.load i own).asked r := by
  obtain ⟨hcode, hhanding, hstraying, hlog, hstatus, hfinal⟩ :=
    (h.polled hp : (∀ t : Trail, (t.load i own).code code = 0) ∧ _)
  have hobserved : r.mem.observed i = m.observed i := by rw [Memory.observed, hlog]; rfl
  have hcallback : r.mem.callbackOf i = m.callbackOf i := by
    refine h.callbackOf hI.born ?_
    cases code <;> first | rfl | cases hp
  obtain ⟨hborn, hseen, hkept, hnone⟩ := hI
  simp only [hcode, Nat.add_zero] at hseen hkept hnone
  refine ⟨hborn.trans_le h.length_le, fun hpos => ?_, fun hz => ?_, ?_⟩
  · simp only [Trail.load, hhanding, hh, hstatus, and_true]
    simp only [Trail.load, hobserved] at hpos
    by_cases hold : 0 < L .observing + m.observed i
    · exact (hseen hold).1
    · exact hfinal (by omega)
  · simp only [Trail.load, hobserved] at hz
    rw [hcallback]
    exact hkept (by omega)
  · simp only [Trail.load, hstraying, left_log hlog]
    exact hnone

/-- The rule for a section of `complete_state` of a call that nobody has seen to be complete. -/
theorem Owned.unseen (hI : Owned i own m L) {L' : Trail → ℕ} {m' : Memory}
    (hz : L .observing + m.observed i = 0) (hlen : m.states.length ≤ m'.states.length)
    (hcallback : m'.callbackOf i = m.callbackOf i) (hobserving : L' .observing = L .observing)
    (hobserved : m'.observed i = m.observed i)
    (hstraying : L' .straying + m'.left i own .straying = L .straying + m.left i own .straying) :
    Owned i own m' L' := by
  obtain ⟨hborn, -, hkept, hnone⟩ := hI
  refine ⟨hborn.trans_le hlen, fun hpos => ?_, fun _ => ?_, hstraying.trans hnone⟩
  · rw [hobserving, hobserved] at hpos
    omega
  · rw [hcallback]
    exact hkept hz

/-- A section that completes the call or announces it. -/
theorem Owned.attend (h : Steps m s code x r) (ha : attends i code = true)
    (hp : polls i code = false) (hI : Owned i own m fun t => L t + (t.load i own).code code) :
    Owned i own r.mem fun t => L t + (t.load i own).asked r := by
  have hcallback : r.mem.callbackOf i = m.callbackOf i := by
    refine h.callbackOf hI.born ?_
    cases code <;> first | rfl | cases ha
  have hpending : m.status i = E_PENDING →
      L .observing + (observing i).code code + m.observed i = 0 := by
    intro hp
    by_contra hne
    exact (hI.seen (Nat.pos_of_ne_zero hne)).1 hp
  have hhanding : (handing i).code code = 1 →
      L .observing + (observing i).code code + m.observed i = 0 := by
    intro hself
    by_contra hne
    have hzero : L .handing + (handing i).code code = 0 := (hI.seen (Nat.pos_of_ne_zero hne)).2
    omega
  have hlen := h.length_le
  cases h with
  | @complete j size result state x hs hpend | @didWork j hr out state x hs hk hpend =>
    obtain rfl : j = i := of_decide_eq_true ha
    refine hI.unseen (hpending ((status_of hs).trans hpend)) hlen hcallback ?_ rfl ?_ <;>
      simp [Load.asked, Load.instr, Trail.load, observing, straying]
  | @announce j callback result state x hs hc =>
    obtain rfl : j = i := of_decide_eq_true ha
    have hz := hhanding (by simp [handing])
    have hown : own = some callback := by
      rw [← hI.kept hz, Memory.callbackOf, hs]
      exact hc
    refine hI.unseen hz hlen hcallback ?_ (by simp [Memory.observed, Event.observes]) ?_ <;>
      simp [Load.asked, Load.instr, Load.submission, Trail.load, observing, straying, Event.trail,
        Event.strays, hown]
  | @unheard j result state x hs hc =>
    obtain rfl : j = i := of_decide_eq_true ha
    refine hI.unseen (hhanding (by simp [handing])) hlen hcallback ?_ rfl ?_ <;>
      simp [Load.asked, Trail.load, observing, straying]
  | completeLate | didWorkLate =>
    refine ⟨hI.born, ?_, ?_, ?_⟩
    · simpa [Load.asked, Trail.load, handing, observing] using hI.seen
    · simpa [Load.asked, Trail.load, observing] using hI.kept
    · simpa [Load.asked, Trail.load, straying] using hI.none
  | getStatus | getStatusCleanup | getResultSizeNull | getResultSize | getResultRefused
  | getResultFailed | getResult => exact absurd ha (by simpa [attends] using hp)
  | _ => simp [attends, polls] at ha

theorem owned_step (h : Steps m s code x r) (hown : ownsCallback i m code x = true)
    (hpoll : polls i code = true → L .handing = 0) (hr : revives i m code = false)
    (hI : Owned i own m fun t => L t + (t.load i own).code code) :
    Owned i own r.mem fun t => L t + (t.load i own).asked r := by
  by_cases hp : polls i code = true
  · exact hI.poll h hp (hpoll hp)
  · rw [Bool.not_eq_true] at hp
    by_cases ha : attends i code = true
    · exact hI.attend h ha hp
    · exact hI.idle h (Bool.eq_false_of_not_eq_true ha) hown hr

theorem beginReturned_log (m : Memory) (b' : ℕ) (j : Option ℕ) (provider : Provider)
    (hr : HRESULT) : (m.beginReturned b' j provider hr).log ≠ .began i b :: m.log := by
  cases provider <;> simp [Memory.beginReturned]

theorem Begins.began {b' identity : ℕ} {provider : Provider}
    (h : Begins m s b' identity provider r) (hlog : r.mem.log = .began i b :: m.log) :
    m.states.length = i ∧ ∃ state, r.mem.states[i]? = some state ∧ state.block = b := by
  cases h with
  | rejected => exact absurd hlog (beginReturned_log _ _ _ _ _)
  | unrouted => exact absurd hlog (beginReturned_log _ _ _ _ _)
  | @parked route q routed state hb hn hroute hq hm hstate =>
    subst hm
    simp only [Memory.park_log, Memory.setBlock_states, Memory.setBlock_log, List.cons.injEq,
      Event.began.injEq, and_true] at hlog
    obtain ⟨rfl, rfl⟩ := hlog
    exact ⟨rfl, state, by simp, rfl⟩

/-- A step that parks a call makes it. -/
theorem Steps.began (h : Steps m s code x r) (hlog : r.mem.log = .began i b :: m.log) :
    m.states.length = i ∧ ∃ state, r.mem.states[i]? = some state ∧ state.block = b := by
  cases h with
  | begin h | run h | runSync _ h => exact h.began hlog
  | invoke _ hi => cases hi <;> simp at hlog
  | beginReturn => exact absurd hlog (beginReturned_log _ _ _ _ _)
  | cleanedUp => simp at hlog
  | _ => simp at hlog

end Steps

/-! ## Runs -/

section Runs
variable {i b pool n : ℕ} {own : Option ℕ}
  {c c₀ c₁ : Config (World Engine) (Frame Callback Code)}

theorem unborn (h : (machine Engine).Reaches anyStep (Engine.start pool n) c)
    (hlen : c.shared.mem.states.length ≤ i) :
    Unborn i own c.shared.mem fun t => (t.load i own).total c.shared.toCore c.frames := by
  refine engine_exact (J := fun _ _ => True) (I := fun m L => m.states.length ≤ i → Unborn i own m L)
    (trail_balanced i own) .refl h (fun _ _ => trivial) (fun _ t => ?_) ?_ hlen
  · simp only [start_total (trail_balanced i own t).sees]
    rfl
  · intro s R code choice r _ _ hs hI hlen'
    have hold := hs.length_le.trans hlen'
    exact unborn_step hs hold (hI hold)

/-- The step that parks a call leaves the callback of its block, and nothing else of the call. -/
theorem owned_began (h : (machine Engine).Reaches anyStep (Engine.start pool n) c₀)
    (hf : (machine Engine).Fires anyStep c₀ c₁)
    (hlog : c₁.shared.mem.log = .began i b :: c₀.shared.mem.log) :
    ∃ state, c₁.shared.mem.states[i]? = some state ∧ state.block = b ∧
      Owned i (c₁.shared.mem.blocks b).callback c₁.shared.mem fun t =>
        (t.load i (c₁.shared.mem.blocks b).callback).total c₁.shared.toCore c₁.frames := by
  obtain ⟨hlen, state, hs, hblock⟩ : c₀.shared.mem.states.length = i ∧
      ∃ state, c₁.shared.mem.states[i]? = some state ∧ state.block = b := by
    obtain ⟨_, _, f, o, -, -, -, hs, hshared, -⟩ := hf.cases
    rcases engine_step_cases hs with ⟨-, hmem, -⟩ | ⟨_, _, r, -, -, hstep, hmem, -⟩
    · rw [hshared, hmem] at hlog
      simp at hlog
    · rw [hshared, hmem] at hlog ⊢
      exact hstep.began hlog
  have hlast : (machine Engine).Reaches (fun s _ _ _ => s.mem.states.length ≤ i) c₀ c₁ := by
    obtain ⟨t, x, -, hf⟩ := hf
    exact .tail .refl ⟨t, x, fun _ _ => Nat.le_of_eq hlen, hf⟩
  have hzero := engine_exact (J := fun _ _ => True)
    (trail_balanced i (c₁.shared.mem.blocks b).callback) h hlast (fun _ _ => trivial)
    (unborn h (Nat.le_of_eq hlen)) fun s R code choice r hg _ hs hI => unborn_step hs hg hI
  refine ⟨state, hs, hblock, ⟨(List.getElem?_eq_some_iff.mp hs).1, fun hpos => ?_, fun _ => ?_,
    hzero .straying⟩⟩
  · have hobserving := hzero .observing
    dsimp only at hobserving hpos
    rw [left_observing] at hobserving
    omega
  · rw [Memory.callbackOf, hs, ← hblock]
    rfl

theorem owned (h : (machine Engine).Reaches anyStep (Engine.start pool n) c₁)
    (h' : (machine Engine).Reaches (unpolled i) c₁ c)
    (h0 : Owned i own c₁.shared.mem fun t =>
      (t.load i own).total c₁.shared.toCore c₁.frames) :
    Owned i own c.shared.mem fun t => (t.load i own).total c.shared.toCore c.frames := by
  refine engine_exact (J := fun _ _ => True) (trail_balanced i own) h h' (fun _ _ => trivial) h0 ?_
  intro s R code choice r hg _ hs hI
  have hg' : (ownsCallback i s.mem code choice &&
    (!polls i code || decide ((handing i).total s.toCore R = 0)) && !revives i s.mem code) = true := hg
  simp only [Bool.and_eq_true, Bool.or_eq_true, Bool.not_eq_true', decide_eq_true_eq] at hg'
  obtain ⟨⟨hown, hpoll⟩, hr⟩ := hg'
  refine owned_step hs hown (fun hp => ?_) hr hI
  exact hpoll.resolve_left (by simp [hp])

/-- Where nobody polls the call between the lock section and the read, what is delivered is the
callback that the block had at the begin. -/
theorem own_callback_delivered (h : (machine Engine).Reaches (unpolled i) (Engine.start pool n) c₀)
    (hf : (machine Engine).Fires (unpolled i) c₀ c₁)
    (hlog : c₁.shared.mem.log = .began i b :: c₀.shared.mem.log)
    (h' : (machine Engine).Reaches (unpolled i) c₁ c) : DeliversOwn i b c₁ c := by
  have hbefore : (machine Engine).Reaches anyStep (Engine.start pool n) c₀ :=
    h.weaken fun _ _ _ _ _ => trivial
  have hpark : (machine Engine).Fires anyStep c₀ c₁ := hf.weaken fun _ _ _ _ _ => trivial
  obtain ⟨state, hs, hblock, h0⟩ := owned_began hbefore hpark hlog
  have hI := owned (hbefore.tail hpark) h' h0
  refine ⟨fun t result htop => ?_, fun b' callback hroutine => ?_⟩
  · have hhanding : (handing i).total c.shared.toCore c.frames ≠ 0 := by
      rw [frames_eq htop, total_client]
      simp [handing]
    have hz : observations i c = 0 := by
      by_contra hne
      exact hhanding (hI.seen (Nat.pos_of_ne_zero hne)).2
    obtain ⟨state', hs', hsame⟩ := reaches_keeps h' hs
    have hkept := hI.kept hz
    rw [Memory.callbackOf, hs', Option.bind_some, hsame.block, hblock] at hkept
    exact ⟨hz, hkept⟩
  · have hnone : c.shared.mem.left i (c₁.shared.mem.blocks b).callback .straying = 0 :=
      (Nat.add_eq_zero_iff.mp hI.none).2
    have hevent := List.sum_eq_zero_iff.mp hnone _ (List.mem_map_of_mem hroutine)
    by_contra hne
    simp [Event.trail, Event.strays, Ne.symm hne] at hevent

end Runs

/-- A run, a begin on block 1 and a run, looked at after the begin and at the end. -/
theorem exists_begun {G : Guard (World Engine) (Frame Callback Code) (Option Choice)}
    [∀ s R f x, Decidable (G s R f x)] (before after : List (ℕ × Option Choice))
    (begun ended : Config (World Engine) (Frame Callback Code) → Bool)
    (hG : ∀ s R, G s R (.client .game) (some (.begin 1 0 true)))
    (h : ((machine Engine).run G before (Engine.start 2 2)).any (fun c₀ => atGame c₀ &&
      ((machine Engine).fire c₀ 1 (some (.begin 1 0 true))).any fun c₁ =>
        (decide (c₁.shared.mem.log = .began 0 1 :: c₀.shared.mem.log) && begun c₁) &&
        ((machine Engine).run G after c₁).any ended) = true) :
    ∃ c₀ c₁ c, (machine Engine).Reaches G (Engine.start 2 2) c₀ ∧
      (machine Engine).Fires G c₀ c₁ ∧ c₁.shared.mem.log = .began 0 1 :: c₀.shared.mem.log ∧
      begun c₁ = true ∧ (machine Engine).Reaches G c₁ c ∧ ended c = true := by
  obtain ⟨c₀, h₀, hc₀⟩ := Machine.Reaches.of_run_any h
  rw [Bool.and_eq_true] at hc₀
  obtain ⟨hgame, hc₀⟩ := hc₀
  obtain ⟨c₁, hf, hc₁⟩ := (Option.any_eq_true _ _).mp hc₀
  rw [Bool.and_eq_true, Bool.and_eq_true] at hc₁
  obtain ⟨⟨hlog, hbegun⟩, hc₁⟩ := hc₁
  obtain ⟨c, h', hc⟩ := Machine.Reaches.of_run_any hc₁
  exact ⟨c₀, c₁, c, h₀, .of_fire (top_of_atGame hgame) (hG _ _) hf, of_decide_eq_true hlog, hbegun,
    h', hc⟩

/-- The call is completed, announced and delivered before it is polled. -/
theorem own_callback_delivered_first : ∃ c₁ c, c₁.shared.mem.stateOf 1 = some 0 ∧
    (machine Engine).Reaches (unpolled 0) c₁ c ∧ .routine 0 1 7 ∈ c.shared.mem.log ∧
    0 < c.shared.mem.observed 0 ∧ DeliversOwn 0 1 c₁ c := by
  obtain ⟨c₀, c₁, c, h₀, hf, hlog, hstate, h', hc⟩ := exists_begun (G := unpolled 0)
    [Engine.does (.queue (.create 1 3 true)), Engine.does (.setBlock 1 1 (some 7))]
    ([Engine.does .finish, Engine.does .finish, Engine.does (.returns S_OK),
      Engine.does .finish, Engine.does (.xasync 1 (.complete S_OK 8))] ++ Engine.steps 1 8 ++
      [(2, some (.xasync 1 (.getStatus false)))] ++ Engine.steps 2 2)
    (fun c => decide (c.shared.mem.stateOf 1 = some 0))
    (fun c => decide (.routine 0 1 7 ∈ c.shared.mem.log ∧ 0 < c.shared.mem.observed 0))
    (fun _ _ => rfl) (by decide +kernel)
  obtain ⟨hroutine, hobserved⟩ := of_decide_eq_true hc
  exact ⟨c₁, c, of_decide_eq_true hstate, h', hroutine, hobserved,
    own_callback_delivered h₀ hf hlog h'⟩

/-- Another thread sees the final status before the callback is read, and puts a callback of its
own in the block. -/
theorem callback_read_late : ∃ c₀ c₁ c, (machine Engine).Reaches (patient 0) (Engine.start 2 2) c₀ ∧
    (machine Engine).Fires (patient 0) c₀ c₁ ∧
    c₁.shared.mem.log = .began 0 1 :: c₀.shared.mem.log ∧
    (machine Engine).Reaches (patient 0) c₁ c ∧ ¬ DeliversOwn 0 1 c₁ c := by
  obtain ⟨c₀, c₁, c, h₀, hf, hlog, hseven, h', hnine⟩ := exists_begun (G := patient 0)
    [Engine.does (.queue (.create 1 3 true)), Engine.does (.setBlock 1 1 (some 7))]
    ([Engine.does .finish, Engine.does .finish, Engine.does (.returns S_OK),
      Engine.does .finish, Engine.does (.xasync 1 (.complete S_OK 8)), Engine.does .finish,
      (2, some (.xasync 1 (.getStatus false)))] ++ Engine.steps 2 2 ++
      [(2, some (.setBlock 1 1 (some 9)))] ++ Engine.steps 1 7)
    (fun c => decide ((c.shared.mem.blocks 1).callback = some 7))
    (fun c => decide (.routine 0 1 9 ∈ c.shared.mem.log))
    (fun _ _ => rfl) (by decide +kernel)
  refine ⟨c₀, c₁, c, h₀, hf, hlog, h', fun hown => ?_⟩
  have hsame := hown.2 1 9 (of_decide_eq_true hnine)
  rw [of_decide_eq_true hseven] at hsame
  exact absurd hsame (by decide)

end XGameRuntime.XAsync
