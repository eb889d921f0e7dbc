import Mathlib.Algebra.Order.BigOperators.Group.Multiset
import XGameRuntime.TaskQueue.Turns

/-! # Serialized ports

`DispatchMode` promises that a serialized port runs its callbacks one at a time and in order. The
port has one worker, but `dispatch` looks at the mode of no port and takes callbacks of this one as
well. What is needed is that whoever takes a callback finds none in flight.
-/

namespace XGameRuntime.TaskQueue
open Concurrency
set_option autoImplicit false

variable {κ γ : Type}

/-! ## Who holds a port -/

/-- The port that a frame waits on for a callback. -/
def Frame.waitsOn : Frame κ γ → Option ℕ
  | .worker p => some p
  | .dispatchWait d _ => some d.port
  | _ => none

/-- A worker or a dispatcher that takes a callback off a serialized port finds none in flight. -/
def takesAlone {C : Client κ} : Guard (World C) (Frame κ C.Frame) (Option C.Choice) :=
  fun s _ f _ => ∀ p ∈ f.waitsOn, ∀ port ∈ s.ports[p]?, port.mode = .serializedThreadPool →
    (f.takes s.toCore p).length ≠ 0 → port.state.inFlight = 0

instance {C : Client κ} (s : World C) (R : Multiset (Frame κ C.Frame)) (f : Frame κ C.Frame)
    (x : Option C.Choice) : Decidable (takesAlone s R f x) :=
  inferInstanceAs (Decidable (∀ p ∈ f.waitsOn, ∀ port ∈ s.ports[p]?,
    port.mode = .serializedThreadPool → (f.takes s.toCore p).length ≠ 0 → port.state.inFlight = 0))

/-- Frames that account for callbacks taken off port `p`. -/
def Frame.holder (p : ℕ) : Frame κ γ → ℕ
  | .finishOne q => if q = p then 1 else 0
  | .drainReady d => if d.port = p then 1 else 0
  | .dispatchBatch d _ _ => if d.port = p then 1 else 0
  | _ => 0

/-- Frames that call a callback of port `p` with `canceled = false`, or are about to. -/
def Frame.calls (s : Core κ) (p : ℕ) : Frame κ γ → ℕ
  | .invoke task canceled | .running task canceled =>
      if canceled = false ∧ s.On task.owner p then 1 else 0
  | _ => 0

/-- The callbacks of port `p` that a frame is executing with `canceled = false`. -/
def Frame.executes (s : Core κ) (p : ℕ) : Frame κ γ → Multiset (Task κ)
  | .running task canceled => if canceled = false ∧ s.On task.owner p then {task} else 0
  | _ => 0

/-- The callbacks of port `p` that are executing with `canceled = false`. -/
def executing {C : Client κ} (c : Config (World C) (Frame κ C.Frame)) (p : ℕ) :
    Multiset (Task κ) :=
  weight (Frame.executes c.shared.toCore p) c.frames

theorem holder_outer (p : ℕ) {f : Frame κ γ} (h : f.isOuter = true) : f.holder p = 0 := by
  cases f <;> simp [Frame.isOuter] at h <;> rfl

@[simp] theorem sum_holder_clients (p : ℕ) (fs : List γ) :
    (fs.map (Frame.holder p ∘ Frame.client (κ := κ))).sum = 0 := by
  apply List.sum_eq_zero
  simp [Frame.holder]

/-- A frame that takes something off the counter of a port is no call. -/
theorem calls_of_inFlight {s : Core κ} {p q : ℕ} {f : Frame κ γ} (h : 0 < f.inFlight q) :
    f.calls s p = 0 ∧ f.holder q = 1 := by
  cases f with
  | finishOne | drainReady | dispatchBatch =>
    simp only [Frame.inFlight] at h
    split at h
    · rename_i he
      exact ⟨rfl, if_pos he⟩
    · cases h
  | _ => cases h

theorem executes_le_calls (s : Core κ) (p : ℕ) (fs : Multiset (Frame κ γ)) :
    (weight (Frame.executes s p) fs).card ≤ weight (Frame.calls s p) fs := by
  induction fs using Multiset.induction_on with
  | empty => exact Nat.le_refl 0
  | cons f fs ih =>
    have hf : (f.executes s p).card ≤ f.calls s p := by
      cases f with
      | running task canceled =>
        simp only [Frame.executes, Frame.calls]
        split <;> simp
      | _ => exact Nat.zero_le _
    rw [weight_cons, weight_cons, Multiset.card_add]
    exact Nat.add_le_add hf ih

/-- In a stack each call of a callback of the port is above a holder of its own. -/
theorem Covered.calls_le {s : Core κ} {p : ℕ} (hp : ∀ task : Task κ, s.On task.owner p →
    ¬ s.OwnThread task) {k : List (Frame κ γ)} (hk : Covered s k) :
    (k.map (Frame.calls s p)).sum ≤ (k.tail.map (Frame.holder p)).sum := by
  induction k with
  | nil => exact Nat.le_refl 0
  | cons f k ih =>
    have htail := ih hk.2
    have hle : (k.tail.map (Frame.holder p)).sum ≤ (k.map (Frame.holder p)).sum :=
      ((List.tail_sublist k).map _).sum_le_sum fun _ _ => Nat.zero_le _
    by_cases hf : f.calls s p = 0
    · simp only [List.map_cons, List.sum_cons, hf, List.tail_cons]
      omega
    · have hcounts : ∃ task, s.On task.owner p ∧ Counts s task k ∧ f.calls s p = 1 := by
        cases f with
        | invoke task canceled | running task canceled =>
          simp only [Frame.calls] at hf ⊢
          split at hf
          · rename_i hcall
            rcases hk.1 hcall.1 with hown | hcounts
            · exact absurd hown (hp task hcall.2)
            · exact ⟨task, hcall.2, hcounts, if_pos hcall⟩
          · exact absurd rfl hf
        | _ => exact absurd rfl hf
      obtain ⟨task, hon, ⟨g, k', q, rfl, hq, hg⟩, hone⟩ := hcounts
      obtain ⟨hcalls, hholder⟩ := calls_of_inFlight (s := s) (p := p) hg
      have hpq := hon.unique hq
      subst hpq
      simp only [List.tail_cons, List.map_cons, List.sum_cons, hcalls, hholder, hone] at htail ⊢
      omega

theorem Covered.mem {s : Core κ} {k : List (Frame κ γ)} (hk : Covered s k) {f : Frame κ γ}
    (hf : f ∈ k) : ∃ l, f.Covered s l := by
  induction k with
  | nil => cases hf
  | cons g k ih =>
    rcases List.mem_cons.mp hf with rfl | hf
    · exact ⟨k, hk.1⟩
    · exact ih hk.2 hf

theorem holder_le_inFlight {s : Core κ} {f : Frame κ γ} {k : List (Frame κ γ)}
    (h : f.Covered s k) (p : ℕ) : f.holder p ≤ f.inFlight p := by
  cases f with
  | dispatchBatch d batch total =>
    have ht : 0 < total := h
    simp only [Frame.holder, Frame.inFlight]
    split
    · exact ht
    · exact Nat.le_refl 0
  | _ => exact Nat.le_refl _

/-! ## One holder -/

/-- A serialized port has at most one holder. -/
def HeldAlone (s : Core κ) (fs : Multiset (Frame κ γ)) : Prop :=
  ∀ (p : ℕ) (port : Port κ), s.ports[p]? = some port → port.mode = .serializedThreadPool →
    weight (Frame.holder p) fs ≤ 1

/-- What is known of the holders when a frame runs: each counts in `in_flight`. -/
structure HoldersCount (s : Core κ) (fs : Multiset (Frame κ γ)) : Prop where
  inFlight : InFlight s fs
  holder : ∀ p, weight (Frame.holder p) fs ≤ weight (Frame.inFlight p) fs

theorem HoldersCount.none {s : Core κ} {fs : Multiset (Frame κ γ)} (h : HoldersCount s fs) {p : ℕ}
    (hp : ∀ port, s.ports[p]? = some port → port.state.inFlight = 0) :
    weight (Frame.holder p) fs = 0 := by
  have hle := h.holder p
  cases hs : s.ports[p]? with
  | none =>
    rw [h.inFlight.fresh p hs] at hle
    exact Nat.le_zero.mp hle
  | some port =>
    rw [← h.inFlight.count p port hs, hp port hs] at hle
    exact Nat.le_zero.mp hle

section Step
variable {body : κ → Bool → List γ} {s : Core κ} {f : Frame κ γ}
  {o : Outcome (Core κ) (Frame κ γ)} {p : ℕ}

/-- The step of a worker or a dispatcher that takes a callback makes the thread a holder; every other
step hands on what it holds, on a port that is not immediate. -/
theorem coreStep_holder (h : coreStep body s f = some o)
    (hm : ∀ port, s.ports[p]? = some port → port.mode ≠ .immediate) :
    weight (Frame.holder p) o.frames ≤ f.holder p ∨
      f.waitsOn = some p ∧ (f.takes s p).length ≠ 0 ∧ weight (Frame.holder p) o.frames = 1 := by
  have hstep := coreStep_inv h
  cases hstep with
  | @acceptInline a task context port hc hp ht hmode =>
    have hne : context.port ≠ p := by
      rintro rfl
      exact hm port hp hmode
    simp [weight_frames, Frame.holder, hne]
  | @workerTake q port task rest hp =>
    rcases worker_takes hp h with hnil | ⟨taken, hfirst, -⟩
    · cases hnil
    · by_cases hq : q = p
      · rw [hq] at hfirst
        simp [weight_frames, Frame.holder, Frame.waitsOn, Frame.takes, hfirst, hq]
      · simp [weight_frames, Frame.holder, hq]
  | @dispatchTake d deadline port task rest hp =>
    rcases dispatchWait_takes hp h with hnil | ⟨taken, hfirst, -⟩
    · cases hfs : d.onFalse with
      | nil =>
        rw [hfs] at hnil
        cases hnil
      | cons g gs =>
        rw [hfs] at hnil
        cases hnil
    · by_cases hq : d.port = p
      · rw [hq] at hfirst
        simp [weight_frames, Frame.holder, Frame.waitsOn, Frame.takes, hfirst, hq]
      · simp [weight_frames, Frame.holder, hq]
  | batchEnd | drainReady | batchNext => simp [weight_frames, Frame.holder]
  | _ => simp [weight_frames, Frame.holder]

end Step

section Runs
variable {C : Client κ} {c₀ c : Config (World C) (Frame κ C.Frame)}
  {G : Guard (World C) (Frame κ C.Frame) (Option C.Choice)} {p : ℕ}

theorem Initial.holdersCount (h0 : Initial C c₀) (h : (machine C).Reaches G c₀ c) :
    HoldersCount c.shared.toCore c.frames := by
  refine ⟨h0.inFlight h, fun p => ?_⟩
  refine Multiset.sum_map_le_sum_map _ _ fun f hf => ?_
  obtain ⟨k, hk, hfk⟩ := List.mem_flatten.mp (Multiset.mem_coe.mp hf)
  obtain ⟨l, hl⟩ := (h0.covered h k hk).mem hfk
  exact holder_le_inFlight hl p

theorem Initial.heldAlone (h0 : Initial C c₀) (h : (machine C).Reaches takesAlone c₀ c) :
    HeldAlone c.shared.toCore c.frames := by
  refine h.invariant (I := fun s fs => HeldAlone s.toCore fs)
    (J := fun s fs => HoldersCount s.toCore fs) (fun _ h => h0.holdersCount h) ?_ ?_
  · intro p port hp
    obtain ⟨pool, now, hq⟩ := h0.queues
    rw [hq] at hp
    cases hp
  · intro s f R x o hg hJ hI hs p port' hp' hmode
    rw [weight_add]
    rcases step_split hs with ⟨hgrow, hf, hpush, hspawn⟩ | ⟨o', ho, h1, h2, h3⟩
    · have hzero : weight (Frame.holder p) o.frames = 0 :=
        weight_eq_zero _ (forall_frames.mpr
          ⟨fun g hg => holder_outer p (hpush g hg), fun k hk g hg => holder_outer p (hspawn k hk g hg)⟩)
      cases hp : s.ports[p]? with
      | none =>
        have hnone := hJ.none (p := p) fun port hport => by rw [hp] at hport; cases hport
        rw [weight_cons] at hnone
        omega
      | some port =>
        obtain ⟨port₁, hp₁, hl⟩ := hgrow.later.ports p port hp
        rw [hp', Option.some.injEq] at hp₁
        subst hp₁
        have hone := hI p port hp (hl.mode.symm.trans hmode)
        rw [weight_cons] at hone
        omega
    · rw [h1] at hp'
      obtain ⟨port, hp, -⟩ := (coreStep_inv ho).port_cases hp'
      obtain ⟨port₁, hp₁, hl⟩ := (coreStep_inv ho).later.ports p port hp
      rw [hp', Option.some.injEq] at hp₁
      subst hp₁
      have hmode' : port.mode = .serializedThreadPool := hl.mode.symm.trans hmode
      have hone := hI p port hp hmode'
      rw [weight_cons] at hone
      have hfr : o.frames = o'.frames := by rw [Outcome.frames, Outcome.frames, h2, h3]
      rw [hfr]
      have hnot : ∀ port, s.ports[p]? = some port → port.mode ≠ .immediate := by
        intro port₂ hp₂
        rw [hp, Option.some.injEq] at hp₂
        subst hp₂
        rw [hmode']
        decide
      rcases coreStep_holder ho hnot with hle | ⟨hw, htakes, htake⟩
      · omega
      · have hidle := hg p hw port hp hmode' htakes
        have hnone := hJ.none (p := p) fun port₂ hp₂ => by
          rw [hp, Option.some.injEq] at hp₂
          rw [← hp₂, hidle]
        rw [weight_cons] at hnone
        omega

/-- Nothing is taken and not started while no frame but the one that runs is a holder. -/
theorem toStart_of_holders {s : Core κ} {g : Frame κ C.Frame} {R : Multiset (Frame κ C.Frame)}
    (hg : g ∈ R) (hholder : weight (Frame.holder p) R = 0)
    (hcalls : weight (Frame.calls s p) R = 0) : g.toStart s p = [] := by
  have h1 := le_weight (w := Frame.holder p) hg
  have h2 := le_weight (w := Frame.calls s p) hg
  rw [hholder] at h1
  rw [hcalls] at h2
  cases g with
  | invoke task canceled =>
    simp only [Frame.calls] at h2
    split at h2
    · cases h2
    · rename_i hn
      exact if_neg hn
  | dispatchBatch d batch total =>
    simp only [Frame.holder] at h1
    split at h1
    · cases h1
    · rename_i hn
      exact if_neg hn
  | _ => rfl

theorem not_ownThread {s : Core κ} {port : Port κ} (hp : s.ports[p]? = some port)
    (hm : port.mode = .serializedThreadPool) (task : Task κ) (hon : s.On task.owner p) :
    ¬ s.OwnThread task := by
  rintro ⟨-, context, hc, port', hp', hmode⟩
  have hpp : p = context.port := hon.unique ⟨context, hc, rfl⟩
  subst hpp
  rw [Option.mem_def, hp, Option.some.injEq] at hp'
  rw [← hp', hm] at hmode
  cases hmode

/-- Calls of a serialized port do not outnumber the holders that do not run. -/
theorem Initial.calls_le (h0 : Initial C c₀) (h : (machine C).Reaches G c₀ c) {port : Port κ}
    (hp : c.shared.ports[p]? = some port) (hm : port.mode = .serializedThreadPool) (j : ℕ) :
    weight (Frame.calls c.shared.toCore p) c.frames ≤ weight (Frame.holder p) (c.others j) :=
  weight_le_others (fun k hk => (h0.covered h k hk).calls_le (not_ownThread hp hm)) j

/-- Who takes alone takes in turn. -/
theorem Initial.inTurn_of_takesAlone (h0 : Initial C c₀)
    (h : (machine C).Reaches takesAlone c₀ c) {j : ℕ} {f : Frame κ C.Frame} {x : Option C.Choice}
    (ht : c.top j = some f) (hg : takesAlone c.shared (c.others j) f x)
    (hm : ∀ port, c.shared.ports[p]? = some port → port.mode = .serializedThreadPool) :
    inTurn p c.shared (c.others j) f x := by
  intro htakes g hgR
  have hfr := frames_eq ht
  have hport : ∃ port, c.shared.ports[p]? = some port := by
    by_contra hnone
    refine htakes ?_
    have hp : c.shared.ports[p]? = none := by
      cases hp : c.shared.ports[p]? with
      | none => rfl
      | some port => exact absurd ⟨port, hp⟩ hnone
    cases f with
    | worker | dispatchWait | drainReady =>
      simp only [Frame.takes]
      split
      · rename_i he
        simp [Core.first, Core.ready, he, hp]
      · rfl
    | _ => rfl
  obtain ⟨port, hp⟩ := hport
  have hone := h0.heldAlone h p port hp (hm port hp)
  have hnone : weight (Frame.holder p) (c.others j) = 0 := by
    have hidle : f.waitsOn = some p → weight (Frame.holder p) c.frames = 0 := by
      intro hw
      refine (h0.holdersCount h).none fun port₂ hp₂ => ?_
      exact hg p hw port₂ hp₂ (hm port₂ hp₂) fun hlen => htakes (List.length_eq_zero_iff.mp hlen)
    rw [hfr, weight_cons] at hone hidle
    cases f with
    | worker q | dispatchWait d deadline =>
      simp only [Frame.takes] at htakes
      split at htakes
      · rename_i he
        exact (Nat.add_eq_zero_iff.mp (hidle (congrArg some he))).2
      · exact absurd rfl htakes
    | drainReady d =>
      simp only [Frame.takes] at htakes
      split at htakes
      · rename_i he
        simp only [Frame.holder, he, if_true] at hone
        omega
      · exact absurd rfl htakes
    | _ => exact absurd rfl htakes
  have hcalls := h0.calls_le h hp (hm port hp) j
  rw [hfr, weight_cons, hnone] at hcalls
  exact toStart_of_holders hgR hnone (Nat.add_eq_zero_iff.mp (Nat.le_zero.mp hcalls)).2

/-- Undelayed callbacks in the order of their submissions. -/
def InSubmissionOrder (accepted : List (Task κ)) (t u : Task κ) : Prop :=
  t.due = none → u.due = none → SubmittedBefore accepted t u

theorem GoesFirst.inSubmissionOrder {accepted : List (Task κ)} {t u : Task κ}
    (h : GoesFirst accepted t u) : InSubmissionOrder accepted t u := by
  intro ht hu
  simpa only [GoesFirst, ht, hu] using h

theorem Initial.serialized_line (h0 : Initial C c₀) (h : (machine C).Reaches takesAlone c₀ c)
    (hm : ∀ port, c.shared.ports[p]? = some port → port.mode = .serializedThreadPool) :
    ∃ i, Line (InSubmissionOrder c.shared.accepted) c p i := by
  induction h with
  | refl => exact ⟨0, h0.line _ p⟩
  | @tail b d hb hfires ih =>
    have hlater := reaches_later (.tail .refl hfires)
    have hmb : ∀ port, b.shared.ports[p]? = some port → port.mode = .serializedThreadPool := by
      intro port hp
      obtain ⟨port', hp', hl⟩ := hlater.ports p port hp
      exact hl.mode ▸ hm port' hp'
    obtain ⟨i, hline⟩ := ih hmb
    obtain ⟨j, x, hg, hfire⟩ := hfires
    refine hline.fire h0 hb hfire (fun port hp => ?_) (fun f ht => ?_) (fun t u hB ht hu => ?_) ?_
    · rw [hm port hp]
      decide
    · exact h0.inTurn_of_takesAlone hb ht (hg f ht) hmb
    · exact (hB ht hu).trans hlater.accepted.sublist
    · intro a task port _ _ hp _ ha
      rw [ha]
      refine ⟨fun t ht _ _ => ?_, ?_⟩
      · refine List.cons_sublist_cons.mpr (List.singleton_sublist.mpr ?_)
        rcases List.mem_append.mp ht with ht | ht
        · exact h0.starts_accepted hb ht
        · exact h0.pending_accepted hb i ht
      · have horder := reaches_inOrder h0 (hb.weaken fun _ _ _ _ _ => trivial) p port hp
        exact (horder.insert task).order.imp GoesFirst.inSubmissionOrder

/-- On a serialized port at most one callback is executing, and undelayed callbacks start in the order
in which they were submitted. -/
structure RunsInOrder (c : Config (World C) (Frame κ C.Frame)) (p : ℕ) : Prop where
  one : (executing c p).card ≤ 1
  order : ((c.shared.toCore.starts p).filter fun task => task.due.isNone).Pairwise
    fun u t => SubmittedBefore c.shared.accepted t u

theorem serialized_runs_in_order (h0 : Initial C c₀) (h : (machine C).Reaches takesAlone c₀ c)
    {port : Port κ} (hp : c.shared.ports[p]? = some port)
    (hm : port.mode = .serializedThreadPool) : RunsInOrder c p := by
  have hmode : ∀ port, c.shared.ports[p]? = some port → port.mode = .serializedThreadPool := by
    intro port' hp'
    rw [hp, Option.some.injEq] at hp'
    exact hp' ▸ hm
  refine ⟨?_, ?_⟩
  · have hcalls := h0.calls_le h hp hm c.threads.length
    have hall : c.others c.threads.length = c.frames := by
      unfold Config.others Config.frames
      rw [List.set_eq_of_length_le (Nat.le_refl _)]
    rw [hall] at hcalls
    exact (executes_le_calls _ p c.frames).trans (hcalls.trans (h0.heldAlone h p port hp hm))
  · obtain ⟨i, hline⟩ := h0.serialized_line h hmode
    refine (hline.started.filter _).imp_of_mem fun {u t} hu ht hB => ?_
    exact hB (Option.isNone_iff_eq_none.mp (List.mem_filter.mp ht).2)
      (Option.isNone_iff_eq_none.mp (List.mem_filter.mp hu).2)

end Runs

/-- Two callbacks on a serialized port: its worker executes the first one when a dispatch takes the
second one and executes it too. -/
theorem dispatch_runs_beside_worker :
    ∃ c port, (machine QueueGame).Reaches anyStep (QueueGame.start 2 1) c ∧
      c.shared.ports[0]? = some port ∧ port.mode = .serializedThreadPool ∧
      ¬ RunsInOrder c 0 := by
  have h : ((machine QueueGame).run anyStep
      ([QueueGame.call (.create 2 0 true)] ++ QueueGame.steps 1 1 ++
        [QueueGame.call (.submitDelayedCallback 1 0 0 (some 7))] ++ QueueGame.steps 1 5 ++
        [QueueGame.call (.submitDelayedCallback 1 0 0 (some 8))] ++ QueueGame.steps 1 5 ++
        QueueGame.steps 2 3 ++ [QueueGame.call (.dispatch 1 0 0)] ++ QueueGame.steps 1 4)
      (QueueGame.start 2 1)).any (fun c => decide
        (c.shared.ports[0]?.map Port.mode = some .serializedThreadPool ∧
          (executing c 0).card = 2)) = true := by
    decide +kernel
  obtain ⟨c, hr, hc⟩ := Machine.Reaches.of_run_any h
  obtain ⟨hport, htwo⟩ := of_decide_eq_true hc
  obtain ⟨port, hp, hm⟩ := Option.map_eq_some_iff.mp hport
  refine ⟨c, port, hr, hp, hm, fun hin => ?_⟩
  have hone := hin.one
  omega

/-- Two callbacks that the worker runs one after the other. -/
theorem serialized_runs_in_order_worker :
    ∃ c port, (machine QueueGame).Reaches takesAlone (QueueGame.start 2 1) c ∧
      c.shared.ports[0]? = some port ∧ port.mode = .serializedThreadPool ∧
      (c.shared.toCore.starts 0).map Task.callback = [8, 7] ∧ RunsInOrder c 0 := by
  have h : ((machine QueueGame).run takesAlone
      ([QueueGame.call (.create 2 0 true)] ++ QueueGame.steps 1 1 ++
        [QueueGame.call (.submitDelayedCallback 1 0 0 (some 7))] ++ QueueGame.steps 1 5 ++
        [QueueGame.call (.submitDelayedCallback 1 0 0 (some 8))] ++ QueueGame.steps 1 5 ++
        QueueGame.steps 2 7)
      (QueueGame.start 2 1)).any (fun c => decide
        (c.shared.ports[0]?.map Port.mode = some .serializedThreadPool ∧
          (c.shared.toCore.starts 0).map Task.callback = [8, 7])) = true := by
    decide +kernel
  obtain ⟨c, hr, hc⟩ := Machine.Reaches.of_run_any h
  obtain ⟨hport, hstarts⟩ := of_decide_eq_true hc
  obtain ⟨port, hp, hm⟩ := Option.map_eq_some_iff.mp hport
  exact ⟨c, port, hr, hp, hm, hstarts,
    serialized_runs_in_order (QueueGame.initial 2 1) hr hp hm⟩

end XGameRuntime.TaskQueue
