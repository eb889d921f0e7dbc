import Mathlib.Data.List.TakeWhile
import XGameRuntime.TaskQueue.Callbacks
import XGameRuntime.TaskQueue.InFlight
import XGameRuntime.TaskQueue.Order

/-! # Taking turns

Workers and dispatchers take callbacks off a port before they start them. As long as nobody takes
one while another is still to be started, the callbacks that were started, those that were taken
and those that are queued are one line, and a port starts its callbacks in the order of its list.
-/

namespace XGameRuntime.TaskQueue
open Concurrency
set_option autoImplicit false

variable {κ γ : Type}

/-! ## The line of a port -/

instance (s : Core κ) (owner p : ℕ) : Decidable (s.On owner p) :=
  decidable_of_iff (s.contexts[owner]?.map PortContext.port = some p) (by simp [Core.On])

/-- What `wait_for_task` would take off a port. -/
def Core.first (s : Core κ) (p : ℕ) : List (Task κ) :=
  match s.ports[p]?.map fun port => port.state.waitForTask s.now with
  | some (PortState.Wait.ready task _) => [task]
  | _ => []

/-- What `drain_ready` would take off a port. -/
def Core.ready (s : Core κ) (p : ℕ) : List (Task κ) :=
  (s.ports[p]?.map fun port => (port.state.drainReady s.now).2).getD []

/-- The callbacks that a step takes off port `p`. -/
def Frame.takes (s : Core κ) (p : ℕ) : Frame κ γ → List (Task κ)
  | .worker q => if q = p then s.first q else []
  | .dispatchWait d _ => if d.port = p then s.first d.port else []
  | .drainReady d => if d.port = p then s.ready d.port else []
  | _ => []

/-- The callbacks of port `p` that a frame goes on to start with `canceled = false`. -/
def Frame.toStart (s : Core κ) (p : ℕ) : Frame κ γ → List (Task κ)
  | .invoke task canceled => if canceled = false ∧ s.On task.owner p then [task] else []
  | .dispatchBatch d batch _ => if d.port = p then batch else []
  | _ => []

/-- The callbacks of port `p` that a thread has taken and not started. -/
def toStart (s : Core κ) (p : ℕ) (k : List (Frame κ γ)) : List (Task κ) :=
  k.flatMap (Frame.toStart s p)

/-- The callbacks of port `p` started with `canceled = false`, the last one first. -/
def Core.starts (s : Core κ) (p : ℕ) : List (Task κ) :=
  (s.started.filter fun call => !call.2 && decide (s.On call.1.owner p)).map Prod.fst

def Core.queue (s : Core κ) (p : ℕ) : List (Task κ) :=
  (s.ports[p]?.map fun port => port.state.tasks).getD []

/-- Callbacks of port `p` are taken only when none is waiting to be started. -/
def inTurn {C : Client κ} (p : ℕ) : Guard (World C) (Frame κ C.Frame) (Option C.Choice) :=
  fun s R f _ => f.takes s.toCore p ≠ [] → ∀ g ∈ R, g.toStart s.toCore p = []

instance {C : Client κ} (p : ℕ) (s : World C) (R : Multiset (Frame κ C.Frame))
    (f : Frame κ C.Frame) (x : Option C.Choice) : Decidable (inTurn p s R f x) :=
  inferInstanceAs (Decidable (f.takes s.toCore p ≠ [] → ∀ g ∈ R, g.toStart s.toCore p = []))

@[simp] theorem toStart_nil (s : Core κ) (p : ℕ) : toStart s p ([] : List (Frame κ γ)) = [] := rfl

@[simp] theorem toStart_cons (s : Core κ) (p : ℕ) (f : Frame κ γ) (k : List (Frame κ γ)) :
    toStart s p (f :: k) = f.toStart s p ++ toStart s p k := rfl

@[simp] theorem toStart_append (s : Core κ) (p : ℕ) (k l : List (Frame κ γ)) :
    toStart s p (k ++ l) = toStart s p k ++ toStart s p l :=
  List.flatMap_append

theorem toStart_eq_nil {s : Core κ} {p : ℕ} {k : List (Frame κ γ)} :
    toStart s p k = [] ↔ ∀ f ∈ k, f.toStart s p = [] :=
  List.flatMap_eq_nil_iff

@[simp] theorem toStart_clients (s : Core κ) (p : ℕ) (fs : List γ) :
    toStart s p (fs.map (Frame.client (κ := κ))) = [] := by
  rw [toStart_eq_nil]
  exact List.forall_mem_map.mpr fun _ _ => rfl

theorem toStart_outer {s : Core κ} {p : ℕ} {f : Frame κ γ} (h : f.isOuter = true) :
    f.toStart s p = [] := by
  cases f <;> simp [Frame.isOuter] at h <;> rfl

theorem Core.queue_eq {s : Core κ} {p : ℕ} {port : Port κ} (hp : s.ports[p]? = some port) :
    s.queue p = port.state.tasks := by
  simp [Core.queue, hp]

theorem Core.queue_none {s : Core κ} {p : ℕ} (hp : s.ports[p]? = none) : s.queue p = [] := by
  simp [Core.queue, hp]

/-- A context is on one port. -/
theorem Core.On.unique {s : Core κ} {owner p q : ℕ} (hp : s.On owner p) (hq : s.On owner q) :
    p = q := by
  obtain ⟨context, hc, rfl⟩ := hp
  obtain ⟨context', hc', rfl⟩ := hq
  rw [hc, Option.some.injEq] at hc'
  rw [hc']

/-- A context that is on a port never moves to another one. -/
theorem Core.Later.on_iff {s t : Core κ} (h : s.Later t) {owner q : ℕ} (hq : s.On owner q)
    (p : ℕ) : t.On owner p ↔ s.On owner p := by
  refine ⟨fun hp => ?_, h.on⟩
  rw [hp.unique (h.on hq)]
  exact hq

/-! ## What a step does to the line -/

theorem toStart_invoke {s : Core κ} {task : Task κ} {q : ℕ} (h : s.On task.owner q) (p : ℕ) :
    (Frame.invoke (γ := γ) task false).toStart s p = if q = p then [task] else [] := by
  have hiff : s.On task.owner p ↔ q = p := ⟨h.unique, fun he => he ▸ h⟩
  simp [Frame.toStart, hiff]

/-- The callbacks in a list belong to a port. -/
def Core.Known (s : Core κ) (tasks : List (Task κ)) : Prop :=
  ∀ task ∈ tasks, ∃ q, s.On task.owner q

theorem Core.Later.toStart {s t : Core κ} (h : s.Later t) (p : ℕ) {k : List (Frame κ γ)}
    (hk : ∀ task, .invoke task false ∈ k → ∃ q, s.On task.owner q) :
    toStart t p k = toStart s p k := by
  refine List.flatMap_congr fun f hf => ?_
  cases f with
  | invoke task canceled =>
    cases canceled with
    | true => rfl
    | false =>
      obtain ⟨q, hq⟩ := hk task hf
      simp [Frame.toStart, h.on_iff hq p]
  | _ => rfl

theorem Core.Later.starts {s t : Core κ} (h : s.Later t) (p : ℕ)
    (hk : s.Known (s.started.map Prod.fst)) :
    (s.started.filter fun call => !call.2 && decide (t.On call.1.owner p)).map Prod.fst =
      s.starts p := by
  unfold Core.starts
  congr 1
  refine List.filter_congr fun call hcall => ?_
  obtain ⟨q, hq⟩ := hk call.1 (List.mem_map_of_mem hcall)
  simp [h.on_iff hq p]

/-- What a step may do to the line of port `p`. -/
inductive LineStep (s s' : Core κ) (p : ℕ) (f : Frame κ γ) (push : List (Frame κ γ)) : Prop where
  | stay (hf : TaskQueue.toStart s' p push = f.toStart s p) (hs : s'.starts p = s.starts p)
      (hq : (s'.queue p).Sublist (s.queue p))
  | take (hf : f.toStart s p = []) (hpush : TaskQueue.toStart s' p push = f.takes s p)
      (hs : s'.starts p = s.starts p) (hq : s.queue p = f.takes s p ++ s'.queue p)
      (hr : ∀ task ∈ f.takes s p, task.readyAt s.now = true)
  | start (task : Task κ) (hf : f.toStart s p = [task]) (hpush : TaskQueue.toStart s' p push = [])
      (hs : s'.starts p = task :: s.starts p) (hq : s'.queue p = s.queue p)
  | accept (a : Submission κ γ) (task : Task κ) (port : Port κ) (hf : f = .submitPort a task false)
      (hon : s.On task.owner p) (hp : s.ports[p]? = some port)
      (ht : port.state.terminated = false) (hpush : TaskQueue.toStart s' p push = []) (hs : s'.starts p = s.starts p)
      (hq : s'.queue p = (port.state.insert task).tasks) (ha : s'.accepted = task :: s.accepted)

theorem Core.queue_setPort {s t : Core κ} {q : ℕ} {port port' : Port κ}
    (hq : s.ports[q]? = some port) (ht : t.ports = s.ports.set q port') (p : ℕ) :
    t.queue p = if q = p then port'.state.tasks else s.queue p := by
  unfold Core.queue
  rw [ht]
  have hlt : q < s.ports.length := (List.getElem?_eq_some_iff.mp hq).1
  by_cases h : q = p
  · subst h
    simp [hlt]
  · simp [h]

theorem Core.Grows.queue_eq {s t : Core κ} (h : s.Grows t) (p : ℕ) : t.queue p = s.queue p := by
  refine h.preserves (I := fun u => u.queue p = s.queue p) (fun u mode hu => ?_)
    (fun u q port hq hu => ?_) rfl
  · rw [← hu]
    cases hp : u.ports[p]? with
    | some port => rw [Core.queue_eq hp, Core.queue_eq (s := u.newPort mode) (getElem?_push_of hp)]
    | none =>
      rw [Core.queue_none hp]
      cases hn : (u.newPort mode).ports[p]? with
      | none => exact Core.queue_none hn
      | some port =>
        rcases getElem?_push_cases hn with hold | ⟨-, rfl⟩
        · rw [hp] at hold
          cases hold
        · exact Core.queue_eq hn
  · rw [← hu, Core.queue_setPort (t := u.newContext q port) hq rfl]
    split
    · rename_i he
      rw [← he, Core.queue_eq hq]
      rfl
    · rfl

section Step
variable {body : κ → Bool → List γ} {s : Core κ} {f : Frame κ γ}
  {o : Outcome (Core κ) (Frame κ γ)} {R : Multiset (Frame κ γ)} {p : ℕ}

/-- What a worker takes is ready, and it is what the worker goes on to call. -/
theorem worker_takes {q : ℕ} {port : Port κ} (hp : s.ports[q]? = some port)
    (h : coreStep body s (.worker q) = some o) : o.push = [] ∨
      ∃ task, s.first q = [task] ∧ task.readyAt s.now = true ∧
        o.push = [.invoke task false, .finishOne q, .worker q] := by
  simp only [coreStep, hp, Option.bind_eq_bind, Option.bind_some] at h
  split at h
  · rw [← Option.some.inj h]
    exact .inl rfl
  · rename_i task state hw
    rw [← Option.some.inj h]
    exact .inr ⟨task, by simp [Core.first, hp, hw], (PortState.waitForTask_ready hw).2.1, rfl⟩
  · cases h

/-- The same for a dispatcher. -/
theorem dispatchWait_takes {d : Dispatch γ} {deadline : ℕ} {port : Port κ}
    (hp : s.ports[d.port]? = some port) (h : coreStep body s (.dispatchWait d deadline) = some o) :
    o.push = d.onFalse.map .client ∨
      ∃ task, s.first d.port = [task] ∧ task.readyAt s.now = true ∧
        o.push = [.invoke task false, .drainReady d] := by
  simp only [coreStep, hp, Option.bind_eq_bind, Option.bind_some] at h
  split at h
  · rw [← Option.some.inj h]
    exact .inl rfl
  · rename_i task state hw
    rw [← Option.some.inj h]
    exact .inr ⟨task, by simp [Core.first, hp, hw], (PortState.waitForTask_ready hw).2.1, rfl⟩
  · split at h
    · rw [← Option.some.inj h]
      exact .inl rfl
    · cases h

/-- Callbacks that the port gives up without starting them leave the rest of the line as it was. -/
theorem LineStep.of_setPort {s' : Core κ} {push : List (Frame κ γ)} {q : ℕ} {port port' : Port κ}
    (hp : s.ports[q]? = some port) (ht : s'.ports = s.ports.set q port')
    (hsub : port'.state.tasks.Sublist port.state.tasks)
    (hf : toStart s' p push = f.toStart s p) (hs : s'.starts p = s.starts p) :
    LineStep s s' p f push := by
  refine .stay hf hs ?_
  rw [Core.queue_setPort hp ht]
  split
  · rename_i he
    exact he ▸ (Core.queue_eq hp).symm ▸ hsub
  · exact .refl _

/-- A step that takes the callbacks `ts` off the front of port `q` and goes on to start them. -/
theorem LineStep.of_take {s' : Core κ} {push : List (Frame κ γ)} {q : ℕ} {port port' : Port κ}
    {ts : List (Task κ)} (hp : s.ports[q]? = some port) (ht : s'.ports = s.ports.set q port')
    (htasks : port.state.tasks = ts ++ port'.state.tasks)
    (hf : f.toStart s p = []) (htakes : f.takes s p = if q = p then ts else [])
    (hpush : toStart s' p push = if q = p then ts else [])
    (hr : ∀ task ∈ ts, task.readyAt s.now = true) (hs : s'.starts p = s.starts p) :
    LineStep s s' p f push := by
  by_cases hq : q = p
  · rw [if_pos hq] at htakes hpush
    refine .take hf (hpush.trans htakes.symm) hs ?_ (htakes ▸ hr)
    rw [htakes, Core.queue_setPort hp ht, if_pos hq, ← hq, Core.queue_eq hp]
    exact htasks
  · rw [if_neg hq] at hpush
    refine .stay (hpush.trans hf.symm) hs ?_
    rw [Core.queue_setPort hp ht, if_neg hq]

theorem Core.Later.sameStarts {t : Core κ} (h : s.Later t)
    (hk : s.Known (s.started.map Prod.fst)) (he : t.started = s.started) :
    t.starts p = s.starts p := by
  unfold Core.starts
  rw [he]
  exact h.starts p hk

theorem coreStep_line (h : coreStep body s f = some o) (hP : Placed s (f ::ₘ R))
    (hk : s.Known (s.started.map Prod.fst))
    (hinvoke : ∀ task, f = .invoke task false → ∃ q, s.On task.owner q)
    (hdelayed : ∀ q task, f = .delayed q task → s.OwnThread task)
    (hm : ∀ port, s.ports[p]? = some port → port.mode ≠ .immediate) :
    LineStep s o.shared p f o.push ∧ ∀ k ∈ o.spawn, toStart o.shared p k = [] := by
  have hstep := coreStep_inv h
  have hl := hstep.later
  have hsame : o.shared.started = s.started → o.shared.starts p = s.starts p := hl.sameStarts hk
  have hf := hP.frames f (Multiset.mem_cons_self f R)
  cases hstep with
  | clock | submitContext | submitDue | running | workerExit | dispatch | terminate | cancelWait
    | cancelReturn | awaitDrained => exact ⟨.stay rfl (hsame rfl) (.refl _), by simp⟩
  | refuse | dispatchExit => exact ⟨.stay (by simp; rfl) (hsame rfl) (.refl _), by simp⟩
  | @acceptInline a task context port hc hp ht hmode =>
    refine ⟨.of_setPort hp rfl (.refl _) ?_ (hsame rfl), by simp⟩
    have hon : s.On task.owner context.port := ⟨context, hc, rfl⟩
    have hne : context.port ≠ p := by
      rintro rfl
      exact hm port hp hmode
    rw [hl.toStart p (by simpa using ⟨_, hon⟩), toStart_cons, toStart_invoke hon, if_neg hne]
    simp [Frame.toStart]
  | @acceptDelayed a task context port hc hp ht hmode hd =>
    exact ⟨.stay (by simp; rfl) (hsame rfl) (.refl _), by simp [Frame.toStart]⟩
  | @acceptQueued a task context port hc hp ht hmode =>
    refine ⟨?_, fun k hkm => by rw [List.eq_of_mem_replicate hkm]; rfl⟩
    by_cases he : context.port = p
    · subst he
      refine .accept a task port rfl ⟨context, hc, rfl⟩ hp ht (by simp) (hsame rfl) ?_ rfl
      rw [Core.queue_setPort hp rfl, if_pos rfl, PortState.startWorkers_tasks]
    · refine .stay (by simp; rfl) (hsame rfl) ?_
      rw [Core.queue_setPort hp rfl, if_neg he]
  | @invoke task canceled =>
    refine ⟨?_, by simp⟩
    have hpush : toStart ({ s with started := (task, canceled) :: s.started } : Core κ) p
        ((body task.callback canceled).map .client ++ [.running task canceled]) = [] := by
      simp [Frame.toStart]
    have hold : ((s.started.filter fun call => !call.2 && decide (({ s with
        started := (task, canceled) :: s.started } : Core κ).On call.1.owner p)).map Prod.fst) =
        s.starts p := hl.starts p hk
    by_cases hon : canceled = false ∧ s.On task.owner p
    · obtain ⟨rfl, hon⟩ := hon
      refine .start task ?_ hpush ?_ rfl
      · simp [Frame.toStart, hon]
      · rw [← hold]
        unfold Core.starts
        rw [List.filter_cons_of_pos (by simpa using hl.on hon), List.map_cons]
    · refine .stay (hpush.trans (if_neg hon).symm) ?_ (.refl _)
      rw [← hold]
      unfold Core.starts
      rw [List.filter_cons_of_neg]
      intro hx
      simp only [Bool.and_eq_true, Bool.not_eq_true', decide_eq_true_eq] at hx
      obtain ⟨rfl, hx⟩ := hx
      obtain ⟨q, hq⟩ := hinvoke task rfl
      exact hon ⟨rfl, (hl.on_iff hq p).mp hx⟩
  | finishOne hp => exact ⟨.of_setPort hp rfl (.refl _) rfl (hsame rfl), by simp⟩
  | @workerTake q port task rest hp ht htasks =>
    refine ⟨?_, by simp⟩
    have hon := hP.queued q port hp task (htasks ▸ List.mem_cons_self)
    rcases worker_takes hp h with hnil | ⟨taken, hfirst, hready, hpush⟩
    · cases hnil
    · cases hpush
      refine LineStep.of_take hp rfl (show _ = [task] ++ _ from htasks) rfl ?_ ?_
        (by simpa using hready) (hsame rfl)
      · simp [Frame.takes, hfirst]
      · rw [hl.toStart p (by simpa using ⟨_, hon⟩), toStart_cons, toStart_invoke hon]
        simp [Frame.toStart]
  | @delayed q task port hp =>
    refine ⟨.stay ?_ (hsame rfl) (.refl _), by simp⟩
    obtain ⟨-, context, hc, port', hp', hmode⟩ := hdelayed q task rfl
    have hon : s.On task.owner context.port := ⟨context, hc, rfl⟩
    have hne : context.port ≠ p := by
      rintro rfl
      exact hm port' hp' hmode
    cases hterm : port.state.terminated with
    | true => rfl
    | false =>
      rw [toStart_cons, toStart_invoke hon, if_neg hne]
      rfl
  | @dispatchTake d deadline port task rest hp ht htasks =>
    refine ⟨?_, by simp⟩
    have hon := hP.queued d.port port hp task (htasks ▸ List.mem_cons_self)
    rcases dispatchWait_takes hp h with hnil | ⟨taken, hfirst, hready, hpush⟩
    · have hlen := congrArg (toStart s d.port) hnil
      rw [toStart_clients, toStart_cons, toStart_invoke hon, if_pos rfl] at hlen
      cases hlen
    · cases hpush
      refine LineStep.of_take hp rfl (show _ = [task] ++ _ from htasks) rfl ?_ ?_
        (by simpa using hready) (hsame rfl)
      · simp [Frame.takes, hfirst]
      · rw [hl.toStart p (by simpa using ⟨_, hon⟩), toStart_cons, toStart_invoke hon]
        simp [Frame.toStart]
  | @drainReady d port hp =>
    refine ⟨.of_take hp rfl (port.state.drainReady_append s.now).symm rfl ?_ ?_ ?_ (hsame rfl),
      by simp⟩
    · simp [Frame.takes, Core.ready, hp]
    · simp [Frame.toStart]
    · exact fun task (ht : task ∈ port.state.tasks.takeWhile (·.readyAt s.now)) =>
        List.mem_takeWhile_imp (p := fun t : Task κ => t.readyAt s.now) ht
  | @batchNext d task rest total =>
    refine ⟨.stay ?_ (hsame rfl) (.refl _), by simp⟩
    have hon : s.On task.owner d.port := hf task List.mem_cons_self
    rw [toStart_cons, toStart_invoke hon]
    simp only [toStart_cons, Frame.toStart, toStart_nil, List.append_nil]
    split <;> rfl
  | @batchEnd d total port hp =>
    refine ⟨.of_setPort hp rfl (by simp) ?_ (hsame rfl), by simp⟩
    simp [Frame.toStart]
  | terminateContext hc hp =>
    exact ⟨.of_setPort hp rfl List.filter_sublist rfl (hsame rfl), by simp⟩
  | cancelNext => exact ⟨.stay rfl (hsame rfl) (.refl _), by simp⟩
  | cancelDrain hc hp => exact ⟨.of_setPort hp rfl (List.nil_sublist _) rfl (hsame rfl), by simp⟩

end Step

/-! ## Runs -/

section Runs
variable {C : Client κ} {c₀ c c' : Config (World C) (Frame κ C.Frame)}
  {G : Guard (World C) (Frame κ C.Frame) (Option C.Choice)} {p j : ℕ} {x : Option C.Choice}

/-- A step is one of the core or leaves alone what the core is about. -/
theorem step_split {s : World C} {f : Frame κ C.Frame} {o : Outcome (World C) (Frame κ C.Frame)}
    (h : (machine C).step s f x = some o) :
    (s.toCore.Grows o.shared.toCore ∧ f.isOuter = true ∧ (∀ g ∈ o.push, g.isOuter = true) ∧
        ∀ k ∈ o.spawn, ∀ g ∈ k, g.isOuter = true) ∨
      ∃ o' : Outcome (Core κ) (Frame κ C.Frame), coreStep C.body s.toCore f = some o' ∧
        o.shared.toCore = o'.shared ∧ o.push = o'.push ∧ o.spawn = o'.spawn := by
  by_cases hf : ∃ g, f = .client g
  · obtain ⟨g, rfl⟩ := hf
    rcases (step_inv h).split with hg | ⟨o', ho, -⟩
    · exact .inl hg
    · cases ho
  · obtain ⟨q, hq, rfl⟩ := (step_queue fun g he => hf ⟨g, he⟩).mp h
    unfold queueStep at hq
    split at hq
    · rename_i hreg
      cases hq
      obtain ⟨hg, hfo, hpush, hspawn⟩ := registryStep_outer (registryStep_inv hreg)
      exact .inl ⟨hg, hfo, hpush, by simp [hspawn]⟩
    · obtain ⟨b, hb, rfl⟩ := Option.map_eq_some_iff.mp hq
      exact .inr ⟨b, hb, rfl, rfl, rfl⟩

/-- The clock does not go back. -/
theorem fire_now (h : (machine C).fire c j x = some c') : c.shared.now ≤ c'.shared.now := by
  obtain ⟨f, k, o, hk, ho, rfl⟩ := fire_cases h
  show c.shared.now ≤ o.shared.now
  rcases step_split ho with ⟨hg, -⟩ | ⟨o', ho', h1, -⟩
  · exact hg.preserves (I := fun u => c.shared.now ≤ u.now) (fun _ _ h => h) (fun _ _ _ _ h => h)
      (Nat.le_refl _)
  · rw [h1]
    cases coreStep_inv ho' with
    | clock => exact Nat.le_succ _
    | _ => exact Nat.le_refl _

theorem readyAt_later {task : Task κ} {now now' : ℕ} (h : task.readyAt now = true)
    (hle : now ≤ now') : task.readyAt now' = true := by
  unfold Task.readyAt at h ⊢
  cases hd : task.due with
  | none => rfl
  | some due =>
    rw [hd] at h
    exact decide_eq_true ((of_decide_eq_true h).trans hle)

/-- The port of an accepted callback is known. -/
theorem Initial.known (h0 : Initial C c₀) (h : (machine C).Reaches G c₀ c) :
    c.shared.toCore.Known c.shared.accepted := by
  refine h.preserved (I := fun s _ => s.toCore.Known s.accepted) ?_ ?_
  · obtain ⟨pool, now, hq⟩ := h0.queues
    intro task ht
    rw [hq] at ht
    cases ht
  · intro s f R x o _ hI hs
    have hold : ∀ task ∈ s.accepted, ∃ q, o.shared.toCore.On task.owner q :=
      fun task ht => (hI task ht).imp fun q hq => (step_inv hs).later.on hq
    intro task ht
    rcases (step_inv hs).outer_or_core with ⟨hg, -, -⟩ | ⟨o', ho, he, -⟩
    · rw [hg.sameHistory.accepted] at ht
      exact hold task ht
    · rw [he] at ht hold ⊢
      have hl := ho.later
      cases ho with
      | acceptInline hc | acceptDelayed hc | acceptQueued hc =>
        rcases List.mem_cons.mp ht with rfl | ht
        · exact ⟨_, hl.on ⟨_, hc, rfl⟩⟩
        · exact hold task ht
      | _ => exact hold task ht

theorem Initial.known_started (h0 : Initial C c₀) (h : (machine C).Reaches G c₀ c) :
    c.shared.toCore.Known (c.shared.started.map Prod.fst) :=
  fun task ht => h0.known h task ((h0.sound h).accepted_of_started ht)

theorem Initial.known_held (h0 : Initial C c₀) (h : (machine C).Reaches G c₀ c) {task : Task κ}
    {place : Place} {f : Frame κ C.Frame} (hf : f ∈ c.frames) (ht : (task, place) ∈ f.holds)
    (hp : place.stage.isAccepted = true) : ∃ q, c.shared.toCore.On task.owner q := by
  refine h0.known h task ((h0.sound h).accepted_of_place (p := place) ?_ hp)
  exact Multiset.mem_add.mpr (.inr (mem_weight.mpr ⟨f, hf, ht⟩))

theorem mem_frames {k : List (Frame κ C.Frame)} {f : Frame κ C.Frame} (hk : k ∈ c.threads)
    (hf : f ∈ k) : f ∈ c.frames :=
  Multiset.mem_coe.mpr (List.mem_flatten.mpr ⟨k, hk, hf⟩)

/-- What a step does to the line of a port that is not immediate, in the thread that runs, in those
it spawns and in the others. -/
theorem Initial.line_step (h0 : Initial C c₀) (h : (machine C).Reaches G c₀ c)
    (hfire : (machine C).fire c j x = some c')
    (hm : ∀ port, c'.shared.ports[p]? = some port → port.mode ≠ .immediate) :
    ∃ f k push spawn, c.threads[j]? = some (f :: k) ∧
      c'.threads = c.threads.set j (push ++ k) ++ spawn ∧
      LineStep c.shared.toCore c'.shared.toCore p f push ∧
      (∀ l ∈ spawn, toStart c'.shared.toCore p l = []) ∧
      (∀ l ∈ k :: c.threads, toStart c'.shared.toCore p l = toStart c.shared.toCore p l) := by
  obtain ⟨f, k, o, hk, ho, rfl⟩ := fire_cases hfire
  have hmem := List.mem_of_getElem? hk
  have hlater := (step_inv ho).later
  have hknown := h0.known_started h
  have hinvoke : ∀ l ∈ c.threads, ∀ task, .invoke task false ∈ l →
      ∃ q, c.shared.toCore.On task.owner q := fun l hl task ht =>
    h0.known_held h (mem_frames hl ht) (Multiset.mem_singleton_self (task, Place.starting)) rfl
  have hm' : ∀ port, c.shared.ports[p]? = some port → port.mode ≠ .immediate := by
    intro port hp
    obtain ⟨port', hp', hl⟩ := hlater.ports p port hp
    exact hl.mode ▸ hm port' hp'
  refine ⟨f, k, o.push, o.spawn, hk, rfl, ?_⟩
  rw [← and_assoc]
  refine ⟨?_, List.forall_mem_cons.mpr ⟨?_, fun l hl => hlater.toStart p (hinvoke l hl)⟩⟩
  · rcases step_split ho with ⟨hg, hf, hpush, hspawn⟩ | ⟨o', ho', h1, h2, h3⟩
    · refine ⟨.stay ?_ (hlater.sameStarts hknown hg.sameHistory.started) ?_, ?_⟩
      · rw [toStart_eq_nil.mpr fun g hg => toStart_outer (hpush g hg), toStart_outer hf]
      · rw [hg.queue_eq p]
      · exact fun l hl => toStart_eq_nil.mpr fun g hg => toStart_outer (hspawn l hl g hg)
    · rw [h1, h2, h3]
      have hP := h0.placed h
      rw [frames_eq (top_eq hk)] at hP
      have hcov := h0.covered h (f :: k) hmem
      refine coreStep_line ho' hP hknown (fun task he => ?_) (fun q task he => ?_) hm'
      · exact hinvoke _ hmem task (he ▸ List.mem_cons_self)
      · subst he
        exact hcov.1
  · exact hlater.toStart p fun task ht => hinvoke _ hmem task (List.mem_cons_of_mem _ ht)

/-- The callbacks of port `p` that thread `i` has taken and not started. -/
def pending (c : Config (World C) (Frame κ C.Frame)) (p i : ℕ) : List (Task κ) :=
  toStart c.shared.toCore p (c.threads.getD i [])

/-- The callbacks of port `p` in a line: those started, those that thread `i` has taken, those queued.
`B` relates each to those behind it. -/
structure Line (B : Task κ → Task κ → Prop) (c : Config (World C) (Frame κ C.Frame)) (p i : ℕ) :
    Prop where
  others : ∀ m, m ≠ i → pending c p m = []
  started : (c.shared.toCore.starts p).Pairwise fun u t => B t u
  ahead : ∀ t ∈ c.shared.toCore.starts p,
    ∀ u ∈ pending c p i ++ c.shared.toCore.queue p, B t u
  line : (pending c p i ++ c.shared.toCore.queue p).Pairwise B
  ready : ∀ t ∈ c.shared.toCore.starts p ++ pending c p i, t.readyAt c.shared.now = true

theorem pending_eq {i : ℕ} {k : List (Frame κ C.Frame)} (hk : c.threads[i]? = some k) :
    pending c p i = toStart c.shared.toCore p k := by
  rw [pending, List.getD_eq_getElem?_getD, hk]
  rfl

theorem pending_none {i : ℕ} (hk : c.threads[i]? = none) : pending c p i = [] := by
  rw [pending, List.getD_eq_getElem?_getD, hk]
  rfl

/-- Nothing waits to be started when no frame that does not run has anything to start. -/
theorem pending_of_others {f : Frame κ C.Frame} {k : List (Frame κ C.Frame)}
    (hk : c.threads[j]? = some (f :: k)) (hf : f.toStart c.shared.toCore p = [])
    (hR : ∀ g ∈ c.others j, g.toStart c.shared.toCore p = []) (i : ℕ) : pending c p i = [] := by
  have hgetD : c.threads.getD j [] = f :: k := by
    rw [List.getD_eq_getElem?_getD, hk]
    rfl
  have hj : j < c.threads.length := (List.getElem?_eq_some_iff.mp hk).1
  have hothers : ∀ (l : List (Frame κ C.Frame)) (m : ℕ), (c.threads.set j k)[m]? = some l →
      toStart c.shared.toCore p l = [] := by
    intro l m hl
    refine toStart_eq_nil.mpr fun g hg => hR g ?_
    unfold Config.others
    rw [hgetD, List.tail_cons]
    exact Multiset.mem_coe.mpr (List.mem_flatten.mpr ⟨l, List.mem_of_getElem? hl, hg⟩)
  by_cases hij : i = j
  · subst hij
    rw [pending_eq hk, toStart_cons, hf, hothers k i (by simp [hj])]
    rfl
  · cases hl : c.threads[i]? with
    | none => exact pending_none hl
    | some l =>
      rw [pending_eq hl]
      exact hothers l i (by rw [List.getElem?_set_ne (Ne.symm hij), hl])

theorem starts_subset (s : Core κ) (p : ℕ) : s.starts p ⊆ s.started.map Prod.fst :=
  List.map_subset _ List.filter_sublist.subset

theorem Initial.starts_accepted (h0 : Initial C c₀) (h : (machine C).Reaches G c₀ c) :
    c.shared.toCore.starts p ⊆ c.shared.accepted :=
  fun _ ht => (h0.sound h).accepted_of_started (starts_subset _ p ht)

theorem Initial.pending_accepted (h0 : Initial C c₀) (h : (machine C).Reaches G c₀ c) (i : ℕ) :
    pending c p i ⊆ c.shared.accepted := by
  intro task ht
  cases hk : c.threads[i]? with
  | none =>
    rw [pending_none hk] at ht
    cases ht
  | some k =>
    rw [pending_eq hk] at ht
    obtain ⟨f, hf, ht⟩ := List.mem_flatMap.mp ht
    have hheld : ∃ place : Place, (task, place) ∈ f.holds ∧ place.stage.isAccepted = true := by
      cases f with
      | invoke task' canceled =>
        simp only [Frame.toStart] at ht
        split at ht
        · rw [List.mem_singleton.mp ht]
          exact ⟨.starting, Multiset.mem_singleton_self _, rfl⟩
        · cases ht
      | dispatchBatch d batch total =>
        simp only [Frame.toStart] at ht
        split at ht
        · exact ⟨.taken, Multiset.mem_map_of_mem _ (Multiset.mem_coe.mpr ht), rfl⟩
        · cases ht
      | _ => cases ht
    obtain ⟨place, hheld, hplace⟩ := hheld
    refine (h0.sound h).accepted_of_place (p := place) ?_ hplace
    exact Multiset.mem_add.mpr
      (.inr (mem_weight.mpr ⟨f, mem_frames (List.mem_of_getElem? hk) hf, hheld⟩))

theorem Initial.line (h0 : Initial C c₀) (B : Task κ → Task κ → Prop) (p : ℕ) : Line B c₀ p 0 := by
  obtain ⟨pool, now, hq⟩ := h0.queues
  have hpending : ∀ i, pending c₀ p i = [] := by
    intro i
    cases hk : c₀.threads[i]? with
    | none => exact pending_none hk
    | some k =>
      rw [pending_eq hk]
      exact toStart_eq_nil.mpr fun f hf =>
        toStart_outer (h0.outer f (mem_frames (List.mem_of_getElem? hk) hf))
  have hstarts : c₀.shared.toCore.starts p = [] := by
    rw [hq]
    rfl
  have hqueue : c₀.shared.toCore.queue p = [] := by
    rw [hq]
    rfl
  refine ⟨fun m _ => hpending m, ?_, ?_, ?_, ?_⟩
  · rw [hstarts]
    exact .nil
  · rw [hstarts]
    exact fun t ht => nomatch ht
  · rw [hpending, hqueue]
    exact .nil
  · rw [hstarts, hpending]
    exact fun t ht => nomatch ht

/-- A step changes what its own thread has taken, and what no other thread has. -/
theorem pending_fire {f : Frame κ C.Frame} {k push : List (Frame κ C.Frame)}
    {spawn : List (List (Frame κ C.Frame))} (hk : c.threads[j]? = some (f :: k))
    (hthreads : c'.threads = c.threads.set j (push ++ k) ++ spawn)
    (hspawn : ∀ l ∈ spawn, toStart c'.shared.toCore p l = [])
    (hsame : ∀ l ∈ k :: c.threads, toStart c'.shared.toCore p l = toStart c.shared.toCore p l) :
    pending c' p j = toStart c'.shared.toCore p push ++ toStart c.shared.toCore p k ∧
      ∀ m, m ≠ j → pending c' p m = pending c p m := by
  have hj : j < c.threads.length := (List.getElem?_eq_some_iff.mp hk).1
  refine ⟨?_, fun m hmj => ?_⟩
  · have hnew : c'.threads[j]? = some (push ++ k) := by
      rw [hthreads, List.getElem?_append_left (by simpa using hj), List.getElem?_set_self hj]
    rw [pending_eq hnew, toStart_append, hsame k List.mem_cons_self]
  · cases hl : c.threads[m]? with
    | some l =>
      have hlt : m < (c.threads.set j (push ++ k)).length := by
        rw [List.length_set]
        exact (List.getElem?_eq_some_iff.mp hl).1
      have hnew : c'.threads[m]? = some l := by
        rw [hthreads, List.getElem?_append_left hlt, List.getElem?_set_ne (Ne.symm hmj), hl]
      rw [pending_eq hl, pending_eq hnew,
        hsame l (List.mem_cons_of_mem _ (List.mem_of_getElem? hl))]
    | none =>
      rw [pending_none hl]
      cases hl' : c'.threads[m]? with
      | none => exact pending_none hl'
      | some l =>
        have hge : (c.threads.set j (push ++ k)).length ≤ m := by
          rw [List.length_set]
          exact List.getElem?_eq_none_iff.mp hl
        have hmem := hl'
        rw [hthreads, List.getElem?_append_right hge] at hmem
        rw [pending_eq hl']
        exact hspawn l (List.mem_of_getElem? hmem)

/-- A step after which the line has the same callbacks in it, or fewer that were queued. -/
theorem Line.same {B B' : Task κ → Task κ → Prop} {i : ℕ} (hI : Line B c p i)
    (hB : ∀ t u, B t u → B' t u) (hnow : c.shared.now ≤ c'.shared.now)
    (hpending : ∀ m, pending c' p m = pending c p m)
    (hs : c'.shared.toCore.starts p = c.shared.toCore.starts p)
    (hq : (c'.shared.toCore.queue p).Sublist (c.shared.toCore.queue p)) : Line B' c' p i := by
  have hsub := (List.Sublist.refl (pending c p i)).append hq
  refine ⟨fun m hmi => (hpending m).trans (hI.others m hmi), ?_, ?_, ?_, ?_⟩
  · rw [hs]
    exact hI.started.imp (hB _ _)
  · rw [hs, hpending i]
    exact fun t ht u hu => hB t u (hI.ahead t ht u (hsub.subset hu))
  · rw [hpending i]
    exact (hI.line.sublist hsub).imp (hB _ _)
  · rw [hs, hpending i]
    exact fun t ht => readyAt_later (hI.ready t ht) hnow

/-- One step of a run that takes its turns. A callback that is accepted must fit into the line where
`submit` puts it. -/
theorem Line.fire {B B' : Task κ → Task κ → Prop} {i : ℕ} (hI : Line B c p i) (h0 : Initial C c₀)
    (h : (machine C).Reaches G c₀ c) (hfire : (machine C).fire c j x = some c')
    (hm : ∀ port, c'.shared.ports[p]? = some port → port.mode ≠ .immediate)
    (hturn : ∀ f, c.top j = some f → inTurn p c.shared (c.others j) f x)
    (hB : ∀ t u, B t u → B' t u)
    (haccept : ∀ a task port, c.top j = some (.submitPort a task false) →
      c.shared.toCore.On task.owner p → c.shared.ports[p]? = some port →
      port.state.terminated = false → c'.shared.accepted = task :: c.shared.accepted →
      (∀ t ∈ c.shared.toCore.starts p ++ pending c p i, B' t task) ∧
        (port.state.insert task).tasks.Pairwise B') :
    ∃ i', Line B' c' p i' := by
  obtain ⟨f, k, push, spawn, hk, hthreads, hstep, hspawn, hsame⟩ := h0.line_step h hfire hm
  obtain ⟨hjnew, hother⟩ := pending_fire hk hthreads hspawn hsame
  have hnow := fire_now hfire
  have hjold : pending c p j = f.toStart c.shared.toCore p ++ toStart c.shared.toCore p k := by
    rw [pending_eq hk, toStart_cons]
  have hall : pending c' p j = pending c p j → ∀ m, pending c' p m = pending c p m := by
    intro he m
    by_cases hmj : m = j
    · rw [hmj, he]
    · exact hother m hmj
  cases hstep with
  | stay hf hs hq => exact ⟨i, hI.same hB hnow (hall (by rw [hjnew, hjold, hf])) hs hq⟩
  | take hf hpush hs hq hr =>
    by_cases hnone : f.takes c.shared.toCore p = []
    · refine ⟨i, hI.same hB hnow (hall (by rw [hjnew, hjold, hf, hpush, hnone])) hs ?_⟩
      rw [hq, hnone, List.nil_append]
    · have hempty := pending_of_others hk hf (hturn f (top_eq hk) hnone)
      have hk0 : toStart c.shared.toCore p k = [] := by
        have hjempty := hempty j
        rw [hjold, hf, List.nil_append] at hjempty
        exact hjempty
      have hfront : pending c' p j = f.takes c.shared.toCore p := by
        rw [hjnew, hpush, hk0, List.append_nil]
      have hline : pending c' p j ++ c'.shared.toCore.queue p =
          pending c p i ++ c.shared.toCore.queue p := by
        rw [hfront, ← hq, hempty i, List.nil_append]
      refine ⟨j, fun m hmj => (hother m hmj).trans (hempty m), ?_, ?_, ?_, ?_⟩
      · rw [hs]
        exact hI.started.imp (hB _ _)
      · rw [hs, hline]
        exact fun t ht u hu => hB t u (hI.ahead t ht u hu)
      · rw [hline]
        exact hI.line.imp (hB _ _)
      · rw [hs, hfront]
        refine List.forall_mem_append.mpr ⟨fun t ht => ?_, fun t ht => readyAt_later (hr t ht) hnow⟩
        exact readyAt_later (hI.ready t (List.mem_append_left _ ht)) hnow
  | start task hf hpush hs hq =>
    have hij : j = i := by
      by_contra hne
      have hjempty := hI.others j hne
      rw [hjold, hf] at hjempty
      cases hjempty
    subst hij
    have hfront : pending c p j = task :: pending c' p j := by
      rw [hjold, hjnew, hf, hpush]
      rfl
    have hahead := hI.ahead
    have hline := hI.line
    have hready := hI.ready
    rw [hfront, ← hq] at hahead hline
    rw [hfront] at hready
    obtain ⟨hfirst, hrest⟩ := List.pairwise_cons.mp hline
    refine ⟨j, fun m hmj => (hother m hmj).trans (hI.others m hmj), ?_, ?_, ?_, ?_⟩
    · rw [hs]
      refine List.pairwise_cons.mpr ⟨fun t ht => ?_, hI.started.imp (hB _ _)⟩
      exact hB t task (hahead t ht task List.mem_cons_self)
    · rw [hs]
      refine List.forall_mem_cons.mpr ⟨fun u hu => hB task u (hfirst u hu), fun t ht u hu => ?_⟩
      exact hB t u (hahead t ht u (List.mem_cons_of_mem _ hu))
    · exact hrest.imp (hB _ _)
    · rw [hs]
      exact fun t ht => readyAt_later (hready t (List.perm_middle.mem_iff.mpr ht)) hnow
  | accept a task port hf hon hp ht hpush hs hq ha =>
    have he := hall (by rw [hjnew, hjold, hpush, hf]; rfl)
    obtain ⟨hnew, hqueue⟩ := haccept a task port (hf ▸ top_eq hk) hon hp ht ha
    obtain ⟨hstarts, hpending⟩ := List.forall_mem_append.mp hnew
    have hmem : ∀ u ∈ (port.state.insert task).tasks, u = task ∨ u ∈ c.shared.toCore.queue p := by
      intro u hu
      rw [Core.queue_eq hp]
      exact List.mem_cons.mp ((port.state.insert_perm task).mem_iff.mp hu)
    refine ⟨i, fun m hmi => (he m).trans (hI.others m hmi), ?_, ?_, ?_, ?_⟩
    · rw [hs]
      exact hI.started.imp (hB _ _)
    · rw [hs, he i, hq]
      intro t ht u hu
      rcases List.mem_append.mp hu with hu | hu
      · exact hB t u (hI.ahead t ht u (List.mem_append_left _ hu))
      · rcases hmem u hu with rfl | hu
        · exact hstarts t ht
        · exact hB t u (hI.ahead t ht u (List.mem_append_right _ hu))
    · rw [he i, hq]
      obtain ⟨hfront, -, hcross⟩ := List.pairwise_append.mp hI.line
      refine List.pairwise_append.mpr ⟨hfront.imp (hB _ _), hqueue, fun t ht u hu => ?_⟩
      rcases hmem u hu with rfl | hu
      · exact hpending t ht
      · exact hB t u (hcross t ht u hu)
    · rw [hs, he i]
      exact fun t ht => readyAt_later (hI.ready t ht) hnow

end Runs
end XGameRuntime.TaskQueue
