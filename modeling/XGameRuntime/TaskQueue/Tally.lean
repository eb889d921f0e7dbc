import XGameRuntime.Concurrency.Traces
import XGameRuntime.TaskQueue.Api
import XGameRuntime.TaskQueue.InFlight

/-! # What has been taken and what has been finished

A trace of the callbacks that leave a port to be run, or are started inline, and of those that
`finish_one` and `finish_n` account for. In between, a callback is noted down with the frame that
will account for it. The two counters of a port are what the trace and these notes say.
-/

namespace XGameRuntime.TaskQueue
open Concurrency
set_option autoImplicit false

variable {κ γ : Type}

/-! ## The trace and the notes -/

inductive Mark (κ : Type) where
  /-- A callback has been taken off the queue of a port, or started inline. -/
  | taken (p : ℕ) (task : Task κ)
  /-- `finish_one` or `finish_n` of a port has accounted for a callback. -/
  | finished (p : ℕ) (task : Task κ)

def Core.tasks (s : Core κ) (p : ℕ) : List (Task κ) := (s.ports[p]?.map fun port => port.state.tasks).getD []

/-- The tasks at the head of a port that are gone. -/
def removed (s t : Core κ) (p : ℕ) : List (Task κ) :=
  (s.tasks p).take ((s.tasks p).length - (t.tasks p).length)

/-- The port on which a submission has run its callback inline: it was accepted, by an immediate
port, and has no delay. -/
def inlinePort (s t : Core κ) (task : Task κ) : Option ℕ :=
  (s.contexts[task.owner]?.map PortContext.port).filter fun p =>
    s.ports[p]?.any (fun port => decide (port.mode = .immediate)) && task.due.isNone &&
      decide (t.accepted.length = s.accepted.length + 1)

/-- What a step takes and what it accounts for, by the callbacks noted with its frame. -/
def entries (s : Core κ) (f : Frame κ γ) (held : List (Task κ)) (t : Core κ) : List (Mark κ) :=
  match f with
  | .submitPort _ task _ => (inlinePort s t task).toList.map fun p => .taken p task
  | .worker p => (removed s t p).map (.taken p)
  | .dispatchWait d _ => (removed s t d.port).map (.taken d.port)
  | .drainReady d => (removed s t d.port).map (.taken d.port)
  | .finishOne p => held.map (.finished p)
  | .dispatchBatch d [] _ => held.map (.finished d.port)
  | _ => []

/-- The callbacks that go with the frame which will account for them. -/
def pass (s : Core κ) (f : Frame κ γ) (held : List (Task κ)) (t : Core κ) (g : Frame κ γ) :
    List (Task κ) :=
  match f, g with
  | .submitPort _ task _, .finishOne _ => (inlinePort s t task).toList.map fun _ => task
  | .worker p, .finishOne _ => removed s t p
  | .dispatchWait d _, .drainReady _ => removed s t d.port
  | .drainReady d, .dispatchBatch .. => held ++ removed s t d.port
  | .dispatchBatch .., .dispatchBatch .. => held
  | _, _ => []

def taken (p : ℕ) : List (Mark κ) → Multiset (Task κ)
  | [] => 0
  | .taken q task :: trace => (if q = p then {task} else 0) + taken p trace
  | .finished _ _ :: trace => taken p trace

def finished (p : ℕ) : List (Mark κ) → Multiset (Task κ)
  | [] => 0
  | .taken _ _ :: trace => finished p trace
  | .finished q task :: trace => (if q = p then {task} else 0) + finished p trace

/-- The port whose counter a frame will take its callbacks off. -/
def Frame.finishPort : Frame κ γ → Option ℕ
  | .finishOne p => some p
  | .drainReady d => some d.port
  | .dispatchBatch d _ _ => some d.port
  | _ => none

/-- The callbacks that are between their take and their finish on a port. -/
def outstanding (p : ℕ) (f : Frame κ γ × List (Task κ)) : Multiset (Task κ) :=
  if f.1.finishPort = some p then ↑f.2 else 0

/-- A frame will take as many off the counter as callbacks are noted with it. -/
def Frame.Accounts : Frame κ γ → List (Task κ) → Prop
  | .finishOne _, held => held.length = 1
  | .drainReady _, held => held.length = 1
  | .dispatchBatch _ _ total, held => held.length = total
  | _, _ => True

theorem taken_append (p : ℕ) (l trace : List (Mark κ)) :
    taken p (l ++ trace) = taken p l + taken p trace := by
  induction l with
  | nil => exact (zero_add _).symm
  | cons e l ih => cases e <;> simp [taken, ih, add_assoc]

theorem finished_append (p : ℕ) (l trace : List (Mark κ)) :
    finished p (l ++ trace) = finished p l + finished p trace := by
  induction l with
  | nil => exact (zero_add _).symm
  | cons e l ih => cases e <;> simp [finished, ih, add_assoc]

theorem taken_taken (p q : ℕ) (l : List (Task κ)) :
    taken p (l.map (.taken q)) = if q = p then ↑l else 0 := by
  induction l with
  | nil => simp [taken]
  | cons task l ih =>
    rw [List.map_cons, taken, ih]
    split <;> rfl

theorem finished_taken (p q : ℕ) (l : List (Task κ)) : finished p (l.map (.taken q)) = 0 := by
  induction l with
  | nil => rfl
  | cons task l ih => exact ih

theorem finished_finished (p q : ℕ) (l : List (Task κ)) :
    finished p (l.map (.finished q)) = if q = p then ↑l else 0 := by
  induction l with
  | nil => simp [finished]
  | cons task l ih =>
    rw [List.map_cons, finished, ih]
    split <;> rfl

theorem taken_finished (p q : ℕ) (l : List (Task κ)) : taken p (l.map (.finished q)) = 0 := by
  induction l with
  | nil => rfl
  | cons task l ih => exact ih

theorem inFlight_accounts {p : ℕ} {f : Frame κ γ} {held : List (Task κ)} (h : f.Accounts held) :
    f.inFlight p = (outstanding p (f, held)).card := by
  cases f with
  | finishOne q =>
    have hlen : held.length = 1 := h
    by_cases hq : q = p <;> simp [Frame.inFlight, outstanding, Frame.finishPort, hq, hlen]
  | drainReady d =>
    have hlen : held.length = 1 := h
    by_cases hd : d.port = p <;> simp [Frame.inFlight, outstanding, Frame.finishPort, hd, hlen]
  | dispatchBatch d batch total =>
    have hlen : held.length = total := h
    by_cases hd : d.port = p <;> simp [Frame.inFlight, outstanding, Frame.finishPort, hd, hlen]
  | _ => rfl

/-! ## Steps -/

@[simp] theorem PortState.finishN_dispatched (s : PortState κ) (n : ℕ) :
    (s.finishN n).dispatched = s.dispatched + n := by
  unfold PortState.finishN
  split
  · next h => rw [h, Nat.add_zero]
  · rfl

@[simp] theorem PortState.startWorkers_dispatched (s : PortState κ) (mode : DispatchMode) (pool : ℕ) :
    (s.startWorkers mode pool).1.dispatched = s.dispatched := by
  unfold startWorkers
  split
  · rfl
  · split <;> rfl

section Step
variable {body : κ → Bool → List γ} {s t : Core κ} {f : Frame κ γ}
  {o : Outcome (Core κ) (Frame κ γ)} {held : List (Task κ)}

theorem removed_setState {p : ℕ} {port : Port κ} (hp : s.ports[p]? = some port)
    (state : PortState κ) : removed s (s.setState p port state) p =
      port.state.tasks.take (port.state.tasks.length - state.tasks.length) := by
  have hlt : p < s.ports.length := (List.getElem?_eq_some_iff.mp hp).1
  have hbefore : s.tasks p = port.state.tasks := by
    rw [Core.tasks, hp]
    rfl
  have hafter : (s.setState p port state).tasks p = state.tasks := by
    simp [Core.tasks, Core.setState, Core.setPort, hlt]
  rw [removed, hbefore, hafter]

theorem removed_head {p : ℕ} {port : Port κ} {task : Task κ} {rest : List (Task κ)}
    (hp : s.ports[p]? = some port) (hl : port.state.tasks = task :: rest) :
    removed s (s.setState p port
      { port.state with tasks := rest, inFlight := port.state.inFlight + 1 }) p = [task] := by
  rw [removed_setState hp, hl]
  simp

theorem removed_ready {p : ℕ} {port : Port κ} (hp : s.ports[p]? = some port) :
    removed s (s.setState p port (port.state.drainReady s.now).1) p =
      (port.state.drainReady s.now).2 := by
  have happend := port.state.drainReady_append s.now
  rw [removed_setState hp, ← happend, List.length_append, Nat.add_sub_cancel, List.take_left]

theorem removed_self (s : Core κ) (p : ℕ) : removed s s p = [] := by
  rw [removed, Nat.sub_self, List.take_zero]

theorem inlinePort_none {task : Task κ}
    (h : ∀ p, (s.contexts[task.owner]?.map PortContext.port) = some p →
      (s.ports[p]?.any fun port => decide (port.mode = .immediate)) = false ∨
        task.due.isNone = false ∨ t.accepted.length ≠ s.accepted.length + 1) :
    inlinePort s t task = none := by
  unfold inlinePort
  rw [Option.filter_eq_none_iff]
  intro p hp hall
  simp only [Bool.and_eq_true, decide_eq_true_eq] at hall
  obtain ⟨⟨hmode, hdue⟩, hlen⟩ := hall
  obtain h | h | h := h p hp
  · exact absurd (h.symm.trans hmode) Bool.false_ne_true
  · exact absurd (h.symm.trans hdue) Bool.false_ne_true
  · exact h hlen

theorem outstanding_clients (p : ℕ) (pass : Frame κ γ → List (Task κ)) (fs : List γ) :
    (((fs.map Frame.client).map fun g => (g, pass g)).map (outstanding p)).sum = 0 := by
  induction fs with
  | nil => rfl
  | cons g fs ih =>
    rw [List.map_cons, List.map_cons, List.map_cons, List.sum_cons, ih]
    rfl

/-- What a step takes it passes on, and what it finishes it held. -/
structure Books (s : Core κ) (f : Frame κ γ) (held : List (Task κ))
    (o : Outcome (Core κ) (Frame κ γ)) : Prop where
  balance : ∀ p, taken p (entries s f held o.shared) + outstanding p (f, held) =
    finished p (entries s f held o.shared) +
      ((o.push.map fun g => (g, pass s f held o.shared g)).map (outstanding p)).sum
  accounts : ∀ g ∈ o.push, g.Accounts (pass s f held o.shared g)

theorem accounts_clients (pass : Frame κ γ → List (Task κ)) (fs : List γ) :
    ∀ g ∈ fs.map Frame.client, g.Accounts (pass g) :=
  List.forall_mem_map.mpr fun _ _ => trivial

theorem finishPort_clients (fs : List γ) :
    ∀ g ∈ fs.map (Frame.client : γ → Frame κ γ), g.finishPort = none :=
  List.forall_mem_map.mpr fun _ _ => rfl

/-- The rule for a step that takes nothing and holds nothing. -/
theorem books_quiet (hentries : entries s f held o.shared = []) (hf : f.finishPort = none)
    (hpush : ∀ g ∈ o.push, g.finishPort = none) : Books s f held o := by
  constructor
  · intro p
    have hsum : ((o.push.map fun g => (g, pass s f held o.shared g)).map (outstanding p)).sum = 0 := by
      refine List.sum_eq_zero fun x hx => ?_
      obtain ⟨⟨g, l⟩, hg, rfl⟩ := List.mem_map.mp hx
      obtain ⟨g', hg', heq⟩ := List.mem_map.mp hg
      obtain rfl : g' = g := congrArg Prod.fst heq
      exact if_neg (by rw [hpush g' hg']; exact nofun)
    rw [hentries, hsum, outstanding, if_neg (by rw [hf]; exact nofun)]
    rfl
  · intro g hg
    have hnone := hpush g hg
    cases g <;> trivial

theorem coreStep_books (h : CoreStep body s f o) (hheld : f.Accounts held) : Books s f held o := by
  cases h with
  | @acceptInline a task context port hc hp ht hm hd =>
    have hinline : inlinePort s ({ s with accepted := task :: s.accepted }.setState context.port port
        port.state.startInline) task = some context.port := by
      simp [inlinePort, hc, hp, hm, hd, Core.setState, Core.setPort]
    constructor
    · intro p
      simp only [List.map_cons, List.sum_cons, outstanding_clients]
      simp [entries, pass, hinline, taken, finished, outstanding, Frame.finishPort]
    · intro g hg
      obtain rfl | hg := List.mem_cons.mp hg
      · trivial
      · obtain rfl | hg := List.mem_cons.mp hg
        · simp [Frame.Accounts, pass, hinline]
        · exact accounts_clients _ _ g hg
  | @workerTake p port task rest hp ht hl =>
    have hremoved := removed_head hp hl
    constructor
    · intro q
      simp [entries, pass, hremoved, taken, finished, outstanding, Frame.finishPort]
    · simp [Frame.Accounts, pass, hremoved]
  | @dispatchTake d deadline port task rest hp ht hl =>
    have hremoved := removed_head hp hl
    constructor
    · intro q
      simp [entries, pass, hremoved, taken, finished, outstanding, Frame.finishPort]
    · simp [Frame.Accounts, pass, hremoved]
  | @drainReady d port hp =>
    have hremoved := removed_ready hp
    have hlen : held.length = 1 := hheld
    constructor
    · intro q
      simp only [entries, hremoved, taken_taken, finished_taken]
      by_cases hd : d.port = q
      · subst hd
        simp [pass, hremoved, outstanding, Frame.finishPort, add_comm]
      · simp [outstanding, Frame.finishPort, hd]
    · simp [Frame.Accounts, pass, hremoved, hlen]
  | @batchNext d task rest total =>
    constructor
    · intro q
      simp [entries, pass, taken, finished, outstanding, Frame.finishPort]
    · simp only [List.forall_mem_cons]
      exact ⟨trivial, hheld, List.forall_mem_nil _⟩
  | @finishOne p port hp =>
    constructor
    · intro q
      simp only [entries, taken_finished, finished_finished]
      simp [outstanding, Frame.finishPort]
    · exact List.forall_mem_nil _
  | @batchEnd d total port hp =>
    constructor
    · intro q
      simp only [entries, taken_finished, finished_finished, outstanding_clients]
      simp [outstanding, Frame.finishPort]
    · exact accounts_clients _ _
  | @refuse a task ownerTerminated context port hc hp ht =>
    have hlen : s.accepted.length ≠ s.accepted.length + 1 := Nat.ne_of_lt (Nat.lt_succ_self _)
    have hnone : inlinePort s { s with refused := task :: s.refused } task = none :=
      inlinePort_none fun _ _ => .inr (.inr hlen)
    exact books_quiet (by rw [entries, hnone]; rfl) rfl (finishPort_clients _)
  | @acceptDelayed a task context port hc hp ht hm hd =>
    have hnone : inlinePort s { s with accepted := task :: s.accepted } task = none := by
      refine inlinePort_none fun _ _ => .inr (.inl ?_)
      rw [← Option.not_isSome, hd]
      rfl
    exact books_quiet (by rw [entries, hnone]; rfl) rfl (finishPort_clients _)
  | @acceptQueued a task context port hc hp ht hm =>
    have hnone : inlinePort s ({ s with accepted := task :: s.accepted }.setState context.port port
        ((port.state.insert task).startWorkers port.mode s.pool).1) task = none := by
      refine inlinePort_none fun p hp' => .inl ?_
      rw [hc] at hp'
      obtain rfl := Option.some.inj hp'
      simp [hp, hm]
    exact books_quiet (by rw [entries, hnone]; rfl) rfl (finishPort_clients _)
  | workerExit => exact books_quiet (by rw [entries, removed_self]; rfl) rfl (List.forall_mem_nil _)
  | dispatchExit =>
    exact books_quiet (by rw [entries, removed_self]; rfl) rfl (finishPort_clients _)
  | @invoke task canceled =>
    refine books_quiet rfl rfl (List.forall_mem_append.mpr ⟨finishPort_clients _, ?_⟩)
    exact List.forall_mem_singleton.mpr rfl
  | running => exact books_quiet rfl rfl (List.forall_mem_nil _)
  | cancelNext =>
    exact books_quiet rfl rfl (List.forall_mem_cons.mpr ⟨rfl, List.forall_mem_singleton.mpr rfl⟩)
  | _ => exact books_quiet rfl rfl (List.forall_mem_singleton.mpr rfl)

theorem spawn_quiet (h : CoreStep body s f o) : ∀ k ∈ o.spawn, ∀ g ∈ k, g.finishPort = none := by
  cases h with
  | acceptDelayed =>
    exact List.forall_mem_singleton.mpr (List.forall_mem_singleton.mpr rfl)
  | acceptQueued =>
    intro k hk
    rw [List.eq_of_mem_replicate hk]
    exact List.forall_mem_singleton.mpr rfl
  | _ => exact nofun

/-- Only `finish_one` and `finish_n` finish. -/
theorem finished_entries (hone : ∀ p, f ≠ .finishOne p)
    (hbatch : ∀ d total, f ≠ .dispatchBatch d [] total) (q : ℕ) :
    finished q (entries s f held t) = 0 := by
  cases f with
  | submitPort a task ownerTerminated =>
    rw [entries]
    cases inlinePort s t task <;> rfl
  | worker p => exact finished_taken q _ _
  | dispatchWait d deadline => exact finished_taken q _ _
  | drainReady d => exact finished_taken q _ _
  | finishOne p => exact absurd rfl (hone p)
  | dispatchBatch d batch total =>
    cases batch with
    | nil => exact absurd rfl (hbatch d total)
    | cons task rest => rfl
  | _ => rfl

theorem dispatched_set {p : ℕ} {port port' : Port κ} (hp : s.ports[p]? = some port) {q : ℕ}
    {r' : Port κ} (hr : (s.ports.set p port')[q]? = some r')
    (hat : port'.state.dispatched = port.state.dispatched) :
    ∃ r, s.ports[q]? = some r ∧ r'.state.dispatched = r.state.dispatched := by
  obtain ⟨rfl, rfl⟩ | ⟨-, hr⟩ := getElem?_set_cases hr
  · exact ⟨port, hp, hat⟩
  · exact ⟨r', hr, rfl⟩

theorem dispatched_kept (h : CoreStep body s f o) (hone : ∀ p, f ≠ .finishOne p)
    (hbatch : ∀ d total, f ≠ .dispatchBatch d [] total) {q : ℕ} {r' : Port κ}
    (hr : o.shared.ports[q]? = some r') :
    ∃ r, s.ports[q]? = some r ∧ r'.state.dispatched = r.state.dispatched := by
  cases h with
  | @finishOne p port hp => exact absurd rfl (hone p)
  | @batchEnd d total port hp => exact absurd rfl (hbatch d total)
  | acceptInline hc hp | terminateContext hc hp | cancelDrain hc hp => exact dispatched_set hp hr rfl
  | workerTake hp | dispatchTake hp | drainReady hp => exact dispatched_set hp hr rfl
  | acceptQueued hc hp =>
    exact dispatched_set hp hr (PortState.startWorkers_dispatched _ _ _)
  | _ => exact ⟨r', hr, rfl⟩

theorem coreStep_dispatched (h : CoreStep body s f o) (hheld : f.Accounts held) {q : ℕ}
    {r' : Port κ} (hr : o.shared.ports[q]? = some r') :
    ∃ r, s.ports[q]? = some r ∧ r'.state.dispatched =
      r.state.dispatched + (finished q (entries s f held o.shared)).card := by
  have hkept : (∀ p, f ≠ .finishOne p) → (∀ d total, f ≠ .dispatchBatch d [] total) →
      ∃ r, s.ports[q]? = some r ∧ r'.state.dispatched =
        r.state.dispatched + (finished q (entries s f held o.shared)).card := by
    intro hone hbatch
    obtain ⟨r, hs, heq⟩ := dispatched_kept h hone hbatch hr
    exact ⟨r, hs, by rw [finished_entries hone hbatch, heq]; rfl⟩
  cases h with
  | @finishOne p port hp =>
    have hlen : held.length = 1 := hheld
    rw [entries, finished_finished]
    obtain ⟨rfl, rfl⟩ | ⟨hpq, hr⟩ := getElem?_set_cases hr
    · refine ⟨port, hp, ?_⟩
      rw [if_pos rfl, Multiset.coe_card, hlen]
      rfl
    · exact ⟨r', hr, by rw [if_neg hpq]; rfl⟩
  | @batchEnd d total port hp =>
    have hlen : held.length = total := hheld
    rw [entries, finished_finished]
    obtain ⟨rfl, rfl⟩ | ⟨hpq, hr⟩ := getElem?_set_cases hr
    · refine ⟨port, hp, ?_⟩
      rw [if_pos rfl, Multiset.coe_card, hlen]
      exact PortState.finishN_dispatched _ _
    · exact ⟨r', hr, by rw [if_neg hpq]; rfl⟩
  | _ => exact hkept nofun nofun

theorem finished_fresh (h : CoreStep body s f o) {q : ℕ} (hn : s.ports[q]? = none) :
    finished q (entries s f held o.shared) = 0 := by
  have hother : (∀ p, f ≠ .finishOne p) → (∀ d total, f ≠ .dispatchBatch d [] total) →
      finished q (entries s f held o.shared) = 0 :=
    fun hone hbatch => finished_entries hone hbatch q
  cases h with
  | finishOne hp | batchEnd hp =>
    rw [entries, finished_finished, if_neg (ne_of_none hp hn)]
  | _ => exact hother nofun nofun

end Step

/-! ## Runs -/

/-- What the trace and the notes say of the callbacks of each port and of its counters. -/
structure Tallied (s : Core κ) (trace : List (Mark κ)) (fs : Multiset (Frame κ γ × List (Task κ))) :
    Prop where
  accounts : ∀ x ∈ fs, x.1.Accounts x.2
  balance : ∀ p, taken p trace = finished p trace + weight (outstanding p) fs
  dispatched : ∀ (p : ℕ) (port : Port κ), s.ports[p]? = some port →
    port.state.dispatched = (finished p trace).card
  fresh : ∀ p : ℕ, s.ports[p]? = none → finished p trace = 0

/-- The counter of a port, by the frames, is how many callbacks are outstanding. -/
theorem weight_accounts {fs : Multiset (Frame κ γ × List (Task κ))}
    (h : ∀ x ∈ fs, x.1.Accounts x.2) (p : ℕ) :
    weight (Frame.inFlight p) (fs.map Prod.fst) = (weight (outstanding p) fs).card := by
  induction fs using Multiset.induction_on with
  | empty => rfl
  | cons x fs ih =>
    obtain ⟨hx, hfs⟩ := Multiset.forall_mem_cons.mp h
    rw [Multiset.map_cons, weight_cons, weight_cons, Multiset.card_add, ih hfs, inFlight_accounts hx]

theorem outstanding_none {p : ℕ} {x : Frame κ γ × List (Task κ)} (h : x.1.finishPort = none) :
    outstanding p x = 0 :=
  if_neg (by rw [h]; exact nofun)

theorem accounts_none {f : Frame κ γ} (h : f.finishPort = none) (held : List (Task κ)) :
    f.Accounts held := by
  cases f <;> trivial

theorem finishPort_outer {f : Frame κ γ} (h : f.isOuter = true) : f.finishPort = none := by
  cases f <;> first | rfl | cases h

theorem entries_outer {s t : Core κ} {f : Frame κ γ} {held : List (Task κ)} (h : f.isOuter = true) :
    entries s f held t = [] := by
  cases f <;> first | rfl | cases h

section Machine
variable {C : Client κ} {c₀ : Config (World C) (Frame κ C.Frame)}

/-- What the machine of a client notes down. -/
def tally (C : Client κ) : Notes (World C) (Frame κ C.Frame) (Mark κ) (List (Task κ)) where
  entries s f held o := entries s.toCore f held o.shared.toCore
  pass s f held o g := pass s.toCore f held o.shared.toCore g
  blank := []

/-- What the frames of a step weigh, where those of new threads weigh nothing. -/
theorem weight_tally {s : World C} {f : Frame κ C.Frame} {held : List (Task κ)}
    {o : Outcome (World C) (Frame κ C.Frame)}
    (hspawn : ∀ k ∈ o.spawn, ∀ g ∈ k, g.finishPort = none) (p : ℕ) :
    weight (outstanding p) ((tally C).frames s f held o) =
      ((o.push.map fun g => (g, pass s.toCore f held o.shared.toCore g)).map (outstanding p)).sum := by
  have hnone : ((((tally C).spawn o).flatten).map (outstanding p)).sum = 0 := by
    refine List.sum_eq_zero fun x hx => ?_
    obtain ⟨y, hy, rfl⟩ := List.mem_map.mp hx
    obtain ⟨l, hl, hyl⟩ := List.mem_flatten.mp hy
    obtain ⟨k, hk, rfl⟩ := List.mem_map.mp hl
    obtain ⟨g, hg, rfl⟩ := List.mem_map.mp hyl
    exact outstanding_none (hspawn k hk g hg)
  unfold weight Notes.frames
  rw [Multiset.map_coe, Multiset.sum_coe, List.map_append, List.sum_append, hnone, add_zero]
  rfl

theorem accounts_tally {s : World C} {f : Frame κ C.Frame} {held : List (Task κ)}
    {o : Outcome (World C) (Frame κ C.Frame)}
    (hspawn : ∀ k ∈ o.spawn, ∀ g ∈ k, g.finishPort = none)
    (hpush : ∀ g ∈ o.push, g.Accounts (pass s.toCore f held o.shared.toCore g)) :
    ∀ x ∈ (tally C).frames s f held o, x.1.Accounts x.2 := by
  intro x hx
  obtain hx | hx := List.mem_append.mp (Multiset.mem_coe.mp hx)
  · obtain ⟨g, hg, rfl⟩ := List.mem_map.mp hx
    exact hpush g hg
  · obtain ⟨l, hl, hxl⟩ := List.mem_flatten.mp hx
    obtain ⟨k, hk, rfl⟩ := List.mem_map.mp hl
    obtain ⟨g, hg, rfl⟩ := List.mem_map.mp hxl
    exact accounts_none (hspawn k hk g hg) _

theorem coreStep_tallied {s : World C} {f : Frame κ C.Frame} {held : List (Task κ)}
    {o : Outcome (World C) (Frame κ C.Frame)} {o' : Outcome (Core κ) (Frame κ C.Frame)}
    {R : Multiset (Frame κ C.Frame × List (Task κ))} {trace : List (Mark κ)}
    (h : CoreStep C.body s.toCore f o') (hshared : o.shared.toCore = o'.shared)
    (hpush : o.push = o'.push) (hspawn : o.spawn = o'.spawn)
    (hI : Tallied s.toCore trace ((f, held) ::ₘ R)) :
    Tallied o.shared.toCore ((tally C).entries s f held o ++ trace)
      ((tally C).frames s f held o + R) := by
  obtain ⟨hf, hR⟩ := Multiset.forall_mem_cons.mp hI.accounts
  have hbooks := coreStep_books h hf
  have hquiet : ∀ k ∈ o.spawn, ∀ g ∈ k, g.finishPort = none := hspawn ▸ spawn_quiet h
  have hentries : (tally C).entries s f held o = entries s.toCore f held o'.shared :=
    congrArg (entries s.toCore f held) hshared
  rw [hentries]
  constructor
  · intro x hx
    obtain hx | hx := Multiset.mem_add.mp hx
    · refine accounts_tally hquiet ?_ x hx
      rw [hpush, hshared]
      exact hbooks.accounts
    · exact hR x hx
  · intro p
    have hstep := hbooks.balance p
    have hbalance := hI.balance p
    rw [weight_cons] at hbalance
    rw [taken_append, finished_append, weight_add, weight_tally hquiet, hpush, hshared, hbalance]
    rw [← add_assoc, add_add_add_comm, hstep, add_add_add_comm]
  · intro q r' hr
    rw [hshared] at hr
    obtain ⟨r, hr, heq⟩ := coreStep_dispatched h hf hr
    rw [finished_append, Multiset.card_add, heq, hI.dispatched q r hr, Nat.add_comm]
  · intro q hn
    rw [hshared] at hn
    have hs : s.ports[q]? = none := by
      cases hp : s.ports[q]? with
      | none => rfl
      | some port =>
        obtain ⟨port', hp', -⟩ := h.later.ports q port hp
        rw [hn] at hp'
        cases hp'
    rw [finished_append, finished_fresh h hs, hI.fresh q hs]
    rfl

theorem outer_tallied {s t : Core κ} {f : Frame κ C.Frame} {held : List (Task κ)}
    {fs R : Multiset (Frame κ C.Frame × List (Task κ))} {trace : List (Mark κ)}
    (hgrows : s.Grows t) (hf : f.isOuter = true) (hfs : ∀ x ∈ fs, x.1.isOuter = true)
    (hI : Tallied s trace ((f, held) ::ₘ R)) : Tallied t trace (fs + R) := by
  have hmoved : Tallied s trace (fs + R) := by
    refine ⟨fun x hx => ?_, fun p => ?_, hI.dispatched, hI.fresh⟩
    · obtain hx | hx := Multiset.mem_add.mp hx
      · exact accounts_none (finishPort_outer (hfs x hx)) _
      · exact hI.accounts x (Multiset.mem_cons_of_mem hx)
    · have hbalance := hI.balance p
      rw [weight_cons, outstanding_none (finishPort_outer hf), zero_add] at hbalance
      rw [weight_add, hbalance,
        weight_eq_zero _ fun x hx => outstanding_none (finishPort_outer (hfs x hx)), zero_add]
  refine hgrows.preserves (I := fun u => Tallied u trace (fs + R)) ?_ ?_ hmoved
  · intro u mode hu
    refine ⟨hu.accounts, hu.balance, fun p port hp => ?_, fun p hn => ?_⟩
    · obtain hp | ⟨rfl, rfl⟩ := getElem?_push_cases hp
      · exact hu.dispatched p port hp
      · rw [hu.fresh _ (by simp)]
        rfl
    · refine hu.fresh p (List.getElem?_eq_none ?_)
      have hlen := List.getElem?_eq_none_iff.mp hn
      simp [Core.newPort] at hlen
      omega
  · intro u q port hq hu
    refine ⟨hu.accounts, hu.balance, fun p port' hp => ?_, fun p hn => ?_⟩
    · obtain ⟨rfl, rfl⟩ | ⟨-, hp⟩ := getElem?_set_cases hp
      · exact hu.dispatched q port hq
      · exact hu.dispatched p port' hp
    · refine hu.fresh p (List.getElem?_eq_none ?_)
      have hlen := List.getElem?_eq_none_iff.mp hn
      simpa [Core.newContext, Core.setState, Core.setPort] using hlen

theorem Initial.tallied {c : Config (World C × List (Mark κ)) (Frame κ C.Frame × List (Task κ))}
    (h0 : Initial C c₀)
    (h : ((machine C).traced (tally C)).Reaches anyStep (c₀.traced (tally C)) c) :
    Tallied c.shared.1.toCore c.shared.2 c.frames := by
  refine h.traced_invariant (I := fun s trace fs => Tallied s.toCore trace fs) (J := fun _ _ => True)
    (fun _ _ => trivial) ?_ ?_
  · obtain ⟨pool, now, hq⟩ := h0.queues
    have houter : ∀ x ∈ (c₀.traced (tally C)).frames, x.1.finishPort = none := by
      intro x hx
      obtain ⟨l, hl, hxl⟩ := List.mem_flatten.mp (Multiset.mem_coe.mp hx)
      obtain ⟨k, hk, rfl⟩ := List.mem_map.mp hl
      obtain ⟨g, hg, rfl⟩ := List.mem_map.mp hxl
      refine finishPort_outer (h0.outer g ?_)
      exact Multiset.mem_coe.mpr (List.mem_flatten.mpr ⟨k, hk, hg⟩)
    rw [hq]
    refine ⟨fun x hx => accounts_none (houter x hx) _, fun p => ?_, nofun, fun _ _ => rfl⟩
    rw [weight_eq_zero _ fun x hx => outstanding_none (houter x hx)]
    rfl
  · intro s trace f held R x o _ hI hs
    obtain ⟨hg, hf, hp, hsp⟩ | ⟨o', ho', hshared, hpush, hspawn⟩ := (step_inv hs).split
    · have hentries : (tally C).entries s f held o = [] := entries_outer hf
      rw [hentries]
      refine outer_tallied hg hf (fun x hx => ?_) hI
      obtain hx | hx := List.mem_append.mp (Multiset.mem_coe.mp hx)
      · obtain ⟨g, hg, rfl⟩ := List.mem_map.mp hx
        exact hp g hg
      · obtain ⟨l, hl, hxl⟩ := List.mem_flatten.mp hx
        obtain ⟨k, hk, rfl⟩ := List.mem_map.mp hl
        obtain ⟨g, hg, rfl⟩ := List.mem_map.mp hxl
        exact hsp k hk g hg
    · exact coreStep_tallied ho' hshared hpush hspawn hI

/-- The accounting of `in_flight` is exact: it is the number of callbacks that have been taken and
are not finished; what a finish takes off is there, and `dispatched` has grown by what has been
finished. -/
theorem in_flight_exact {c : Config (World C × List (Mark κ)) (Frame κ C.Frame × List (Task κ))}
    (h0 : Initial C c₀)
    (h : ((machine C).traced (tally C)).Reaches anyStep (c₀.traced (tally C)) c) (p : ℕ)
    (port : Port κ) (hp : c.shared.1.ports[p]? = some port) :
    port.state.inFlight = (weight (outstanding p) c.frames).card ∧
      taken p c.shared.2 = finished p c.shared.2 + weight (outstanding p) c.frames ∧
      port.state.dispatched = (finished p c.shared.2).card ∧
      (∀ held, (.finishOne p, held) ∈ c.frames → held.length = 1 ∧ 1 ≤ port.state.inFlight) ∧
      (∀ d batch total held, d.port = p → (.dispatchBatch d batch total, held) ∈ c.frames →
        held.length = total ∧ total ≤ port.state.inFlight) ∧
      ((∀ x ∈ c.frames, x.1.finishPort ≠ some p) → port.state.inFlight = 0) := by
  have htallied := h0.tallied h
  have hcount : port.state.inFlight = (weight (outstanding p) c.frames).card := by
    have hreaches := h.untraced
    rw [untraced_traced] at hreaches
    rw [(h0.inFlight hreaches).count p port hp, untraced_frames]
    exact weight_accounts htallied.accounts p
  have hle : ∀ f held, (f, held) ∈ c.frames → f.finishPort = some p →
      held.length ≤ port.state.inFlight := by
    intro f held hin hport
    obtain ⟨R, hR⟩ := Multiset.exists_cons_of_mem hin
    rw [hcount, hR, weight_cons, Multiset.card_add, outstanding, if_pos hport, Multiset.coe_card]
    exact Nat.le_add_right _ _
  refine ⟨hcount, htallied.balance p, htallied.dispatched p port hp, ?_, ?_, ?_⟩
  · intro held hin
    have hlen : held.length = 1 := htallied.accounts _ hin
    exact ⟨hlen, hlen ▸ hle _ held hin rfl⟩
  · intro d batch total held hd hin
    have hlen : held.length = total := htallied.accounts _ hin
    exact ⟨hlen, hlen ▸ hle _ held hin (congrArg some hd)⟩
  · intro hnone
    have hzero : weight (outstanding p) c.frames = 0 :=
      weight_eq_zero _ fun x hx => if_neg (hnone x hx)
    rw [hcount, hzero]
    rfl

end Machine

/-- A dispatch whose callback dispatches in turn: two callbacks are outstanding. -/
def nestedDispatch : List (ℕ × Option GameChoice) :=
  [QueueGame.call (.create 0 0 true)] ++ QueueGame.steps 1 1 ++
    [QueueGame.call (.submitDelayedCallback 1 0 0 (some 7))] ++ QueueGame.steps 1 5 ++
    [QueueGame.call (.submitDelayedCallback 1 0 0 (some 8))] ++ QueueGame.steps 1 5 ++
    [QueueGame.call (.dispatch 1 0 0)] ++ QueueGame.steps 1 3 ++
    [QueueGame.call (.dispatch 1 0 0)] ++ QueueGame.steps 1 2

theorem in_flight_exact_nested : ∃ (c : Config (World QueueGame × List (Mark ℕ))
      (Frame ℕ GameFrame × List (Task ℕ))) (port : Port ℕ),
    c.shared.1.ports[0]? = some port ∧ (taken 0 c.shared.2).card = 2 ∧
      port.state.inFlight = (weight (outstanding 0) c.frames).card ∧
      taken 0 c.shared.2 = finished 0 c.shared.2 + weight (outstanding 0) c.frames := by
  have h : (((machine QueueGame).traced (tally QueueGame)).run anyStep nestedDispatch
      ((QueueGame.start 2 1).traced (tally QueueGame))).any (fun c =>
        (c.shared.1.ports[0]?).isSome && decide ((taken 0 c.shared.2).card = 2)) = true := by
    decide +kernel
  obtain ⟨c, hr, hc⟩ := Machine.Reaches.of_run_any h
  obtain ⟨hport, htaken⟩ := (Bool.and_eq_true _ _).mp hc
  obtain ⟨port, hp⟩ := Option.isSome_iff_exists.mp hport
  obtain ⟨hcount, hbalance, -⟩ := in_flight_exact (QueueGame.initial 2 1) hr 0 port hp
  exact ⟨c, port, hp, of_decide_eq_true htaken, hcount, hbalance⟩

end XGameRuntime.TaskQueue
