import XGameRuntime.Concurrency.Traces
import XGameRuntime.TaskQueue.Turns

/-! # When a callback starts

`Port::submit` turns the delay of a callback into the time at which it is due, and whoever takes the
callback off its port later compares that time with the clock. A trace notes both moments down: a
callback that is not canceled starts when its delay is over, not before.
-/

namespace XGameRuntime.TaskQueue
open Concurrency
set_option autoImplicit false

variable {κ γ : Type}

/-! ## The trace -/

inductive Moment where
  /-- A callback has been given its due time. -/
  | submitted (id now delay : ℕ)
  | started (id : ℕ) (canceled : Bool) (now : ℕ)
  deriving DecidableEq, Repr

def moments (s : Core κ) : Frame κ γ → List Moment
  | .submitDue a _ _ => [.submitted s.nextTask s.now a.delay]
  | .invoke task canceled => [.started task.id canceled s.now]
  | _ => []

def timing (C : Client κ) : Notes (World C) (Frame κ C.Frame) Moment Unit where
  entries s f _ _ := moments s.toCore f
  pass _ _ _ _ _ := ()
  blank := ()

def Moment.submits (id : ℕ) : Moment → Bool
  | .submitted i _ _ => i == id
  | .started .. => false

/-- Before each start that is not canceled, the trace has a submission whose delay is over. -/
def Timely (trace : List Moment) : Prop :=
  ∀ id now earlier, (.started id false now :: earlier) <:+ trace →
    ∃ time delay, .submitted id time delay ∈ earlier ∧ time + delay ≤ now

theorem Timely.cons {trace : List Moment} {e : Moment} (h : Timely trace)
    (he : ∀ id now, e = .started id false now →
      ∃ time delay, .submitted id time delay ∈ trace ∧ time + delay ≤ now) :
    Timely (e :: trace) := by
  intro id now earlier hs
  rcases List.suffix_cons_iff.mp hs with heq | hold
  · cases heq
    exact he id now rfl
  · exact h id now earlier hold

/-- The trace has the submission of a callback, and the callback is due when its delay is over. -/
def Dated (trace : List Moment) (task : Task κ) : Prop :=
  ∃ time delay, .submitted task.id time delay ∈ trace ∧
    task.due = if delay = 0 then none else some (time + delay)

theorem Dated.later {trace trace' : List Moment} {task : Task κ} (h : Dated trace task)
    (hs : trace ⊆ trace') : Dated trace' task := by
  obtain ⟨time, delay, hm, hd⟩ := h
  exact ⟨time, delay, hs hm, hd⟩

/-- A callback that is ready has waited for its delay. -/
theorem Dated.over {trace : List Moment} {task : Task κ} {now : ℕ} (h : Dated trace task)
    (hclock : ∀ id time delay, .submitted id time delay ∈ trace → time ≤ now)
    (hr : task.readyAt now = true) :
    ∃ time delay, .submitted task.id time delay ∈ trace ∧ time + delay ≤ now := by
  obtain ⟨time, delay, hm, hd⟩ := h
  refine ⟨time, delay, hm, ?_⟩
  by_cases h0 : delay = 0
  · have htime := hclock _ _ _ hm
    omega
  · rw [if_neg h0] at hd
    unfold Task.readyAt at hr
    rw [hd] at hr
    exact of_decide_eq_true hr

/-! ## Steps -/

/-- What a frame knows of the callbacks it is about to hand on. -/
def Frame.OnTime (trace : List Moment) (now : ℕ) : Frame κ γ → Prop
  | .submitPort _ task _ => Dated trace task
  | .invoke task canceled => canceled = false → task.readyAt now = true
  | .dispatchBatch _ batch _ => ∀ task ∈ batch, task.readyAt now = true
  | _ => True

/-- The trace agrees with the clock, with the numbers given out and with what has been accepted. -/
structure Clocked (s : Core κ) (trace : List Moment) (fs : Multiset (Frame κ γ)) : Prop where
  timely : Timely trace
  clock : ∀ id time delay, .submitted id time delay ∈ trace → time ≤ s.now
  fresh : ∀ id time delay, .submitted id time delay ∈ trace → id < s.nextTask
  once : ∀ id, trace.countP (Moment.submits id) ≤ 1
  accepted : ∀ task ∈ s.accepted, Dated trace task
  frames : ∀ f ∈ fs, f.OnTime trace s.now

theorem Frame.OnTime.later {trace trace' : List Moment} {now now' : ℕ} {f : Frame κ γ}
    (h : f.OnTime trace now) (hs : trace ⊆ trace') (hn : now ≤ now') : f.OnTime trace' now' := by
  cases f with
  | submitPort a task ownerTerminated => exact Dated.later h hs
  | invoke task canceled => exact fun hc => readyAt_later (h hc) hn
  | dispatchBatch d batch total => exact fun task ht => readyAt_later (h task ht) hn
  | _ => trivial

theorem Frame.OnTime.outer {trace : List Moment} {now : ℕ} {f : Frame κ γ}
    (h : f.isOuter = true) : f.OnTime trace now := by
  cases f with
  | submitPort | invoke | dispatchBatch => simp [Frame.isOuter] at h
  | _ => trivial

theorem moments_outer {s : Core κ} {f : Frame κ γ} (h : f.isOuter = true) : moments s f = [] := by
  cases f with
  | submitDue | invoke => simp [Frame.isOuter] at h
  | _ => rfl

section Step
variable {body : κ → Bool → List γ} {s : Core κ} {f : Frame κ γ}
  {o : Outcome (Core κ) (Frame κ γ)} {trace : List Moment}

theorem coreStep_now (h : CoreStep body s f o) : s.now ≤ o.shared.now := by
  cases h with
  | clock => exact Nat.le_succ _
  | _ => exact Nat.le_refl _

@[simp] theorem Core.setState_now (s : Core κ) (p : ℕ) (port : Port κ) (state : PortState κ) :
    (s.setState p port state).now = s.now := rfl

/-- What a step goes on to start is ready. -/
theorem coreStep_onTime (h : coreStep body s f = some o) (hf : f.OnTime trace s.now) :
    ∀ g ∈ o.frames, g.OnTime (moments s f ++ trace) o.shared.now := by
  rw [forall_frames]
  cases coreStep_inv h with
  | @submitDue a owner ownerTerminated due hd =>
    refine ⟨List.forall_mem_singleton.mpr ?_, List.forall_mem_nil _⟩
    exact ⟨s.now, a.delay, List.mem_cons_self, hd⟩
  | @acceptInline a task context port hc hp ht hm hdue =>
    refine ⟨?_, List.forall_mem_nil _⟩
    have hready : task.readyAt s.now = true := by
      unfold Task.readyAt
      rw [hdue]
    simpa [Frame.OnTime] using hready
  | acceptDelayed | acceptQueued =>
    refine ⟨List.forall_mem_map.mpr fun _ _ => trivial, ?_⟩
    simp [Frame.OnTime]
  | @workerTake p port task rest hp ht hl =>
    refine ⟨?_, List.forall_mem_nil _⟩
    rcases worker_takes hp h with hnil | ⟨taken, hfirst, hready, hpush⟩
    · cases hnil
    · cases hpush
      simpa [Frame.OnTime] using hready
  | @dispatchTake d deadline port task rest hp ht hl =>
    refine ⟨?_, List.forall_mem_nil _⟩
    rcases dispatchWait_takes hp h with hnil | ⟨taken, hfirst, hready, hpush⟩
    · have hmem := congrArg (Frame.invoke task false ∈ ·) hnil
      simp at hmem
    · cases hpush
      simpa [Frame.OnTime] using hready
  | @delayed p task port hp =>
    refine ⟨List.forall_mem_singleton.mpr fun _ => ?_, List.forall_mem_nil _⟩
    simp only [coreStep, hp, Option.bind_eq_bind, Option.bind_some] at h
    split at h
    · assumption
    · cases h
  | drainReady =>
    refine ⟨List.forall_mem_singleton.mpr fun task ht => ?_, List.forall_mem_nil _⟩
    exact List.mem_takeWhile_imp (p := fun t : Task κ => t.readyAt s.now) ht
  | @batchNext d task rest total =>
    obtain ⟨hready, hrest⟩ := List.forall_mem_cons.mp hf
    simpa [Frame.OnTime] using ⟨hready, hrest⟩
  | _ =>
    simp only [List.forall_mem_cons, List.forall_mem_append, List.forall_mem_map, Frame.OnTime]
    simp

/-- The rule for a step that submits and starts nothing. -/
theorem Clocked.quiet {R : Multiset (Frame κ γ)} (hI : Clocked s trace (f ::ₘ R)) {t : Core κ}
    {fs : Multiset (Frame κ γ)} (hnow : s.now ≤ t.now) (hnext : t.nextTask = s.nextTask)
    (haccepted : ∀ task ∈ t.accepted, Dated trace task) (hfs : ∀ g ∈ fs, g.OnTime trace t.now) :
    Clocked t trace (fs + R) where
  timely := hI.timely
  clock id time delay hm := (hI.clock id time delay hm).trans hnow
  fresh id time delay hm := hnext ▸ hI.fresh id time delay hm
  once := hI.once
  accepted := haccepted
  frames g hg := (Multiset.mem_add.mp hg).elim (hfs g) fun hR =>
    (hI.frames g (Multiset.mem_cons_of_mem hR)).later (List.Subset.refl _) hnow

/-- The number of a submission is new. -/
theorem Clocked.submit {R : Multiset (Frame κ γ)} (hI : Clocked s trace (f ::ₘ R)) (delay : ℕ)
    {fs : Multiset (Frame κ γ)}
    (hfs : ∀ g ∈ fs, g.OnTime (.submitted s.nextTask s.now delay :: trace) s.now) :
    Clocked { s with nextTask := s.nextTask + 1 }
      (.submitted s.nextTask s.now delay :: trace) (fs + R) := by
  have hnew : ∀ e ∈ trace, ¬e.submits s.nextTask = true := by
    rintro (⟨id, time, d⟩ | ⟨id, canceled, time⟩) hm hs
    · obtain rfl := beq_iff_eq.mp hs
      exact Nat.lt_irrefl _ (hI.fresh _ _ _ hm)
    · cases hs
  constructor
  · exact hI.timely.cons fun _ _ he => Moment.noConfusion he
  · rintro id time d (_ | ⟨_, hm⟩)
    · exact Nat.le_refl _
    · exact hI.clock id time d hm
  · rintro id time d (_ | ⟨_, hm⟩)
    · exact Nat.lt_succ_self _
    · exact (hI.fresh id time d hm).trans (Nat.lt_succ_self _)
  · intro id
    rw [List.countP_cons]
    by_cases he : s.nextTask = id
    · subst he
      rw [List.countP_eq_zero.mpr hnew]
      simp [Moment.submits]
    · simpa [Moment.submits, he] using hI.once id
  · exact fun task ht => (hI.accepted task ht).later (List.subset_cons_self _ _)
  · exact fun g hg => (Multiset.mem_add.mp hg).elim (hfs g) fun hR =>
      (hI.frames g (Multiset.mem_cons_of_mem hR)).later (List.subset_cons_self _ _) (Nat.le_refl _)

/-- A callback that starts is known and, when it is not canceled, ready. -/
theorem Clocked.start {R : Multiset (Frame κ γ)} {task : Task κ} {canceled : Bool}
    (hI : Clocked s trace (.invoke task canceled ::ₘ R)) (ha : task ∈ s.accepted)
    {fs : Multiset (Frame κ γ)} (hfs : ∀ g ∈ fs, ∀ trace', g.OnTime trace' s.now) :
    Clocked { s with started := (task, canceled) :: s.started }
      (.started task.id canceled s.now :: trace) (fs + R) := by
  have hready := hI.frames _ (Multiset.mem_cons_self _ _)
  have hold : ∀ {id time d}, .submitted id time d ∈ Moment.started task.id canceled s.now :: trace →
      .submitted id time d ∈ trace := fun hm => (List.mem_cons.mp hm).resolve_left Moment.noConfusion
  constructor
  · refine hI.timely.cons fun id now he => ?_
    cases he
    exact (hI.accepted task ha).over hI.clock (hready rfl)
  · exact fun id time d hm => hI.clock id time d (hold hm)
  · exact fun id time d hm => hI.fresh id time d (hold hm)
  · exact fun id => (List.countP_cons_of_neg Bool.false_ne_true).trans_le (hI.once id)
  · exact fun t ht => (hI.accepted t ht).later (List.subset_cons_self _ _)
  · exact fun g hg => (Multiset.mem_add.mp hg).elim (fun hg => hfs g hg _) fun hR =>
      (hI.frames g (Multiset.mem_cons_of_mem hR)).later (List.subset_cons_self _ _) (Nat.le_refl _)

theorem coreStep_clocked {R : Multiset (Frame κ γ)} (h : coreStep body s f = some o)
    (hI : Clocked s trace (f ::ₘ R))
    (hsound : ∀ task canceled, f = .invoke task canceled → task ∈ s.accepted) :
    Clocked o.shared (moments s f ++ trace) (o.frames + R) := by
  have hf := hI.frames f (Multiset.mem_cons_self f R)
  have hfs := coreStep_onTime h hf
  have hnow := coreStep_now (coreStep_inv h)
  cases coreStep_inv h with
  | submitDue hd => exact hI.submit _ hfs
  | @invoke task canceled =>
    refine hI.start (hsound task canceled rfl) fun g hg trace' => ?_
    simp only [Outcome.frames, List.flatten_nil, List.append_nil, Multiset.mem_coe, List.mem_append,
      List.mem_map, List.mem_singleton] at hg
    rcases hg with ⟨_, -, rfl⟩ | rfl <;> trivial
  | acceptInline | acceptDelayed | acceptQueued =>
    exact hI.quiet hnow rfl (List.forall_mem_cons.mpr ⟨hf, hI.accepted⟩) hfs
  | _ => exact hI.quiet hnow rfl hI.accepted hfs

end Step

/-! ## Runs -/

section Runs
variable {C : Client κ} {c₀ : Config (World C) (Frame κ C.Frame)}
  {c : Config (World C × List Moment) (Frame κ C.Frame × Unit)}

/-- A callback about to be called has been accepted. -/
theorem Initial.invoked_accepted {c : Config (World C) (Frame κ C.Frame)} (h0 : Initial C c₀)
    (h : (machine C).Reaches anyStep c₀ c) {task : Task κ} {canceled : Bool}
    (hf : .invoke task canceled ∈ c.frames) : task ∈ c.shared.accepted := by
  refine (h0.sound h).accepted_of_place (p := .starting) (Multiset.mem_add.mpr (.inr ?_)) rfl
  exact mem_weight.mpr ⟨_, hf, Multiset.mem_singleton_self _⟩

theorem Initial.clocked (h0 : Initial C c₀)
    (h : ((machine C).traced (timing C)).Reaches anyStep (c₀.traced (timing C)) c) :
    Clocked c.shared.1.toCore c.shared.2 (c.frames.map Prod.fst) := by
  refine h.traced_invariant (I := fun s trace fs => Clocked s.toCore trace (fs.map Prod.fst))
    (J := fun s fs => ∀ task canceled, .invoke task canceled ∈ fs → task ∈ s.accepted)
    (fun c hc task canceled hf => h0.invoked_accepted hc hf) ?_ ?_
  · obtain ⟨pool, now, hq⟩ := h0.queues
    have hframes : (c₀.traced (timing C)).frames.map Prod.fst = c₀.frames := by
      rw [← untraced_frames, untraced_traced]
    rw [hframes, hq]
    exact ⟨fun _ _ _ hs => by simp at hs, nofun, nofun, fun _ => Nat.zero_le _, nofun,
      fun f hf => .outer (h0.outer f hf)⟩
  · intro s trace f b R x o hJ hI hs
    rw [Multiset.map_cons] at hI
    rw [Multiset.map_add, Notes.frames_fst]
    rcases step_split hs with ⟨hg, hf, hpush, hspawn⟩ | ⟨o', ho', h1, h2, h3⟩
    · have houter := forall_frames.mpr ⟨hpush, hspawn⟩
      have hquiet : (timing C).entries s f b o = [] := moments_outer hf
      rw [hquiet, List.nil_append]
      refine hg.preserves (I := fun u => Clocked u trace (o.frames + R.map Prod.fst)) ?_ ?_ ?_
      · exact fun _ _ h => { h with }
      · exact fun _ _ _ _ h => { h with }
      · exact hI.quiet (Nat.le_refl _) rfl hI.accepted fun g hg => .outer (houter g hg)
    · have hframes : o.frames = o'.frames := by rw [Outcome.frames, Outcome.frames, h2, h3]
      rw [h1, hframes]
      exact coreStep_clocked ho' hI fun task canceled hf =>
        hJ task canceled (hf ▸ Multiset.mem_cons_self _ _)

theorem submits_of_mem {trace : List Moment} {id time delay : ℕ}
    (h : .submitted id time delay ∈ trace) : 0 < trace.countP (Moment.submits id) :=
  List.countP_pos_iff.mpr ⟨_, h, beq_self_eq_true id⟩

/-- No callback starts early. In every run, whatever the callbacks and the threads do, each start of
a callback that is not canceled comes after exactly one submission of it, at which it was given its
number, and after the delay asked for there has passed on the clock. -/
theorem never_early (h0 : Initial C c₀)
    (h : ((machine C).traced (timing C)).Reaches anyStep (c₀.traced (timing C)) c) :
    Timely c.shared.2 ∧ (∀ id time delay time' delay', .submitted id time delay ∈ c.shared.2 →
      .submitted id time' delay' ∈ c.shared.2 → time = time' ∧ delay = delay') ∧
    ∀ id now earlier, (.started id false now :: earlier) <:+ c.shared.2 →
      earlier.countP (Moment.submits id) = 1 := by
  have hclocked := h0.clocked h
  refine ⟨hclocked.timely, fun id time delay time' delay' hm hm' => ?_, fun id now earlier hs => ?_⟩
  · have heq := eq_of_countP (hclocked.once id) hm hm' (beq_self_eq_true id) (beq_self_eq_true id)
    exact ⟨(Moment.submitted.inj heq).2.1, (Moment.submitted.inj heq).2.2⟩
  · obtain ⟨time, delay, hm, -⟩ := hclocked.timely id now earlier hs
    have hpos := submits_of_mem hm
    have hle := (((List.suffix_cons _ _).trans hs).sublist.countP_le).trans (hclocked.once id)
    omega

end Runs

/-- A callback with a delay, dispatched once the clock has moved on. -/
def delayedDispatch : List (ℕ × Option GameChoice) :=
  [QueueGame.call (.create 0 0 true)] ++ QueueGame.steps 1 1 ++
    [QueueGame.call (.submitDelayedCallback 1 0 2 (some 7))] ++ QueueGame.steps 1 5 ++
    [QueueGame.call (.dispatch 1 0 9)] ++ QueueGame.steps 1 1 ++ QueueGame.steps 0 3 ++
    QueueGame.steps 1 2

theorem never_early_delayed : ∃ (c : Config (World QueueGame × List Moment)
      (Frame ℕ GameFrame × Unit)),
    c.shared.2 = [.started 0 false 3, .submitted 0 0 2] ∧ Timely c.shared.2 := by
  have h : (((machine QueueGame).traced (timing QueueGame)).run anyStep delayedDispatch
      ((QueueGame.start 2 1).traced (timing QueueGame))).any (fun c =>
        decide (c.shared.2 = [.started 0 false 3, .submitted 0 0 2])) = true := by
    decide +kernel
  obtain ⟨c, hr, hc⟩ := Machine.Reaches.of_run_any h
  exact ⟨c, of_decide_eq_true hc, (never_early (QueueGame.initial 2 1) hr).1⟩

end XGameRuntime.TaskQueue
