import XGameRuntime.TaskQueue.Turns

/-! # Callbacks in the order they become ready

An undelayed callback is ready when it is submitted, a delayed one at its deadline. `submit` puts an
undelayed callback before every delayed one, even one that is ready, and `dispatch` holds the rest of
what it has taken in a local vector, which a dispatch from inside one of its callbacks overtakes. The
time at which a port accepted a callback is no field of it: runs note it down.
-/

namespace XGameRuntime.TaskQueue
open Concurrency
set_option autoImplicit false

variable {κ : Type}

/-! ## Ready times -/

/-- Notes the callbacks that a step has accepted, with the time of the step. -/
def noteAccepted {C : Client κ} (s t : World C) (log : List (Task κ × ℕ)) : List (Task κ × ℕ) :=
  ((t.accepted.take (t.accepted.length - s.accepted.length)).map fun task => (task, s.now)) ++ log

/-- When a callback that was accepted at a time becomes ready. -/
def readyTime (entry : Task κ × ℕ) : ℕ := entry.1.due.getD entry.2

/-- In the log of accepted callbacks, newest first, `t` becomes ready before `u`, or with it and was
submitted before. -/
def ReadyFirst (log : List (Task κ × ℕ)) (t u : Task κ) : Prop :=
  ∃ a ∈ log, ∃ b ∈ log, a.1 = t ∧ b.1 = u ∧ (readyTime a < readyTime b ∨
    readyTime a = readyTime b ∧ SubmittedBefore (log.map Prod.fst) t u)

instance [DecidableEq κ] (accepted : List (Task κ)) (t u : Task κ) :
    Decidable (SubmittedBefore accepted t u) :=
  inferInstanceAs (Decidable ([u, t].Sublist accepted))

instance [DecidableEq κ] (log : List (Task κ × ℕ)) (t u : Task κ) :
    Decidable (ReadyFirst log t u) :=
  inferInstanceAs (Decidable (∃ a ∈ log, ∃ b ∈ log, a.1 = t ∧ b.1 = u ∧
    (readyTime a < readyTime b ∨
      readyTime a = readyTime b ∧ SubmittedBefore (log.map Prod.fst) t u)))

/-- The callbacks of port `p` have started in the order they became ready, and none that waits, taken
or queued, goes before one that has started. -/
structure StartsInReadyOrder {C : Client κ} (log : List (Task κ × ℕ))
    (c : Config (World C) (Frame κ C.Frame)) (p : ℕ) : Prop where
  started : (c.shared.toCore.starts p).Pairwise fun u t => ReadyFirst log t u
  waiting : ∀ t ∈ c.shared.toCore.starts p, ∀ u,
    (u ∈ c.shared.toCore.queue p ∨ ∃ i, u ∈ pending c p i) → ReadyFirst log t u

/-- An undelayed callback comes when no delayed one in the port is ready, a delayed one when its
deadline has not passed. -/
def ComesInTime (s : Core κ) (p : ℕ) (task : Task κ) : Prop :=
  (task.due = none → ∀ u ∈ s.queue p, u.due.isSome = true → u.readyAt s.now = false) ∧
    ∀ due ∈ task.due, s.now ≤ due

/-- The callback that a step submits to its port, unless its owner was found terminated. -/
def Frame.submits {γ : Type} : Frame κ γ → Option (Task κ)
  | .submitPort _ task false => some task
  | _ => none

/-- Callbacks of port `p` come in time and are taken in turn. -/
def inReadyOrder {C : Client κ} (p : ℕ) : Guard (World C) (Frame κ C.Frame) (Option C.Choice) :=
  fun s R f x => inTurn p s R f x ∧ ∀ task ∈ f.submits, s.On task.owner p →
    (∀ port ∈ s.ports[p]?, port.state.terminated = false) → ComesInTime s.toCore p task

instance (s : Core κ) (p : ℕ) (task : Task κ) : Decidable (ComesInTime s p task) :=
  inferInstanceAs (Decidable ((task.due = none →
    ∀ u ∈ s.queue p, u.due.isSome = true → u.readyAt s.now = false) ∧
      ∀ due ∈ task.due, s.now ≤ due))

instance {C : Client κ} (p : ℕ) (s : World C) (R : Multiset (Frame κ C.Frame))
    (f : Frame κ C.Frame) (x : Option C.Choice) : Decidable (inReadyOrder p s R f x) :=
  inferInstanceAs (Decidable (inTurn p s R f x ∧ ∀ task ∈ f.submits, s.On task.owner p →
    (∀ port ∈ s.ports[p]?, port.state.terminated = false) → ComesInTime s.toCore p task))

/-! ## The log -/

section Log
variable {log log' : List (Task κ × ℕ)}

theorem ReadyFirst.later {t u : Task κ} (h : ReadyFirst log t u) (hl : log <:+ log') :
    ReadyFirst log' t u := by
  obtain ⟨a, ha, b, hb, hat, hbu, hr⟩ := h
  refine ⟨a, hl.subset ha, b, hl.subset hb, hat, hbu, hr.imp_right fun hr => ⟨hr.1, ?_⟩⟩
  exact hr.2.trans (hl.sublist.map Prod.fst)

/-- What the log of a run says. -/
structure LogSound (log : List (Task κ × ℕ)) (s : Core κ) : Prop where
  tasks : log.map Prod.fst = s.accepted
  past : ∀ entry ∈ log, entry.2 ≤ s.now

theorem LogSound.note {C : Client κ} {s t : World C} (h : LogSound log s.toCore)
    (hl : s.accepted <:+ t.accepted) (hnow : s.now ≤ t.now) :
    LogSound (noteAccepted s t log) t.toCore := by
  obtain ⟨new, hnew⟩ := hl
  have htake : t.accepted.take (t.accepted.length - s.accepted.length) = new := by
    rw [← hnew, List.length_append, Nat.add_sub_cancel, List.take_left']
    rfl
  unfold noteAccepted
  rw [htake]
  refine ⟨?_, ?_⟩
  · rw [List.map_append, List.map_map, h.tasks, ← hnew]
    simp [Function.comp_def]
  · refine List.forall_mem_append.mpr ⟨?_, fun entry he => (h.past entry he).trans hnow⟩
    exact List.forall_mem_map.mpr fun task _ => hnow

/-- A callback that is ready has not become ready in the future. -/
theorem LogSound.readyTime_le {s : Core κ} (h : LogSound log s) {entry : Task κ × ℕ}
    (he : entry ∈ log) (hr : entry.1.readyAt s.now = true) : readyTime entry ≤ s.now := by
  unfold readyTime
  unfold Task.readyAt at hr
  cases hd : entry.1.due with
  | none => exact h.past entry he
  | some due =>
    rw [hd] at hr
    exact of_decide_eq_true hr

theorem LogSound.entry {s : Core κ} (h : LogSound log s) {task : Task κ} (ht : task ∈ s.accepted) :
    ∃ entry ∈ log, entry.1 = task := by
  rw [← h.tasks] at ht
  exact List.mem_map.mp ht

/-- A callback that is accepted is the first entry of the log, and the older ones go before it when
they are ready no later. -/
theorem LogSound.readyFirst_new {s : Core κ} (h : LogSound log s) {task t : Task κ}
    (ht : t ∈ s.accepted)
    (hle : ∀ entry ∈ log, entry.1 = t → readyTime entry ≤ readyTime (task, s.now)) :
    ReadyFirst ((task, s.now) :: log) t task := by
  obtain ⟨entry, he, rfl⟩ := h.entry ht
  refine ⟨entry, List.mem_cons_of_mem _ he, (task, s.now), List.mem_cons_self, rfl, rfl, ?_⟩
  rcases Nat.lt_or_eq_of_le (hle entry he rfl) with hlt | heq
  · exact .inl hlt
  · refine .inr ⟨heq, List.cons_sublist_cons.mpr (List.singleton_sublist.mpr ?_)⟩
    exact List.mem_map_of_mem he

end Log

/-! ## Runs -/

section Runs
variable {C : Client κ} {c₀ c : Config (World C) (Frame κ C.Frame)} {p : ℕ}
  {log : List (Task κ × ℕ)}

/-- A callback that comes in time is put where it belongs. -/
theorem LogSound.readyFirst_insert {s : Core κ} {port : Port κ} {task : Task κ}
    (h : LogSound log s) (hp : s.ports[p]? = some port) (hin : InOrder s.accepted port.state.tasks)
    (hready : port.state.tasks.Pairwise (ReadyFirst log)) (htime : ComesInTime s p task) :
    (port.state.insert task).tasks.Pairwise (ReadyFirst ((task, s.now) :: log)) := by
  refine pairwise_insert (hready.imp fun hr => hr.later (List.suffix_cons _ _))
    (hin.order.imp GoesFirst.goesBefore) (fun t ht hb => ?_) (fun t ht hb => ?_)
  · refine h.readyFirst_new (hin.mem t ht) fun entry he het => ?_
    subst het
    have hpast := h.past entry he
    unfold PortState.goesBefore at hb
    unfold readyTime
    cases hd : entry.1.due <;> cases hn : task.due <;> simp only [hd, hn] at hb ⊢
    · exact hpast
    · exact hpast.trans (htime.2 _ hn)
    · cases hb
    · exact Nat.le_of_not_lt (of_decide_eq_false hb)
  · obtain ⟨entry, he, rfl⟩ := h.entry (hin.mem t ht)
    refine ⟨(task, s.now), List.mem_cons_self, entry, List.mem_cons_of_mem _ he, rfl, rfl, .inl ?_⟩
    unfold PortState.goesBefore at hb
    unfold readyTime
    cases hd : entry.1.due <;> cases hn : task.due <;> simp only [hd, hn] at hb ⊢
    · cases hb
    · cases hb
    · have hlate := htime.1 hn entry.1 (by rw [Core.queue_eq hp]; exact ht) (by rw [hd]; rfl)
      unfold Task.readyAt at hlate
      rw [hd] at hlate
      exact Nat.lt_of_not_le (of_decide_eq_false hlate)
    · exact of_decide_eq_true hb

theorem Initial.logSound {G : Guard (World C) (Frame κ C.Frame) (Option C.Choice)}
    (h0 : Initial C c₀) (h : (machine C).Records G noteAccepted c₀ [] c log) :
    LogSound log c.shared.toCore := by
  induction h with
  | refl =>
    obtain ⟨pool, now, hq⟩ := h0.queues
    rw [hq]
    exact ⟨rfl, fun entry he => nomatch he⟩
  | tail hb hf ih =>
    have hlater := reaches_later (.tail .refl hf)
    obtain ⟨j, x, -, hfire⟩ := hf
    exact ih.note hlater.accepted (fire_now hfire)

theorem Initial.ready_line (h0 : Initial C c₀)
    (h : (machine C).Records (inReadyOrder p) noteAccepted c₀ [] c log)
    (hm : ∀ port, c.shared.ports[p]? = some port → port.mode ≠ .immediate) :
    ∃ i, Line (ReadyFirst log) c p i := by
  induction h with
  | refl => exact ⟨0, h0.line _ p⟩
  | @tail b d log hb hfires ih =>
    have hlater := reaches_later (.tail .refl hfires)
    have hreach := hb.reaches
    have hlog := h0.logSound hb
    obtain ⟨i, hline⟩ := ih fun port hp => by
      obtain ⟨port', hp', hl⟩ := hlater.ports p port hp
      exact hl.mode ▸ hm port' hp'
    obtain ⟨j, x, hg, hfire⟩ := hfires
    refine hline.fire h0 hreach hfire hm (fun f ht => (hg f ht).1) (fun t u hB => ?_) ?_
    · exact hB.later (List.suffix_append _ _)
    · intro a task port htop hon hp ht ha
      have hnote : noteAccepted b.shared d.shared log = (task, b.shared.now) :: log := by
        unfold noteAccepted
        rw [ha]
        simp
      have htime : ComesInTime b.shared.toCore p task := by
        refine (hg _ htop).2 task rfl hon fun port' hp' => ?_
        rw [Option.mem_def, hp, Option.some.injEq] at hp'
        exact hp' ▸ ht
      rw [hnote]
      refine ⟨fun t htm => ?_, ?_⟩
      · have hacc : t ∈ b.shared.accepted := by
          rcases List.mem_append.mp htm with ht | ht
          · exact h0.starts_accepted hreach ht
          · exact h0.pending_accepted hreach i ht
        refine hlog.readyFirst_new hacc fun entry he het => ?_
        have hle := hlog.readyTime_le he (het ▸ hline.ready t htm)
        refine hle.trans ?_
        show b.shared.now ≤ task.due.getD b.shared.now
        cases hd : task.due with
        | none => exact Nat.le_refl _
        | some due => exact htime.2 due hd
      · have hin := reaches_inOrder h0 (hreach.weaken fun _ _ _ _ _ => trivial) p port hp
        refine hlog.readyFirst_insert hp hin ?_ htime
        have hall := (List.pairwise_append.mp hline.line).2.1
        rwa [Core.queue_eq hp] at hall

theorem starts_in_ready_order (h0 : Initial C c₀)
    (h : (machine C).Records (inReadyOrder p) noteAccepted c₀ [] c log) {port : Port κ}
    (hp : c.shared.ports[p]? = some port) (hm : port.mode ≠ .immediate) :
    StartsInReadyOrder log c p := by
  obtain ⟨i, hline⟩ := h0.ready_line h fun port' hp' => by
    rw [hp, Option.some.injEq] at hp'
    exact hp' ▸ hm
  refine ⟨hline.started, fun t ht u hu => hline.ahead t ht u (List.mem_append.mpr ?_)⟩
  rcases hu with hu | ⟨m, hu⟩
  · exact .inr hu
  · by_cases hmi : m = i
    · exact .inl (hmi ▸ hu)
    · rw [hline.others m hmi] at hu
      cases hu

end Runs

/-- A callback is delayed by one tick, two ticks pass, another one is submitted without a delay: one
thread dispatches, and the second callback starts while the first one is queued. -/
theorem undelayed_overtakes_due :
    ∃ c log port, (machine QueueGame).Records anyStep noteAccepted (QueueGame.start 2 1) [] c log ∧
      c.shared.ports[0]? = some port ∧ port.mode = .manual ∧ ¬ StartsInReadyOrder log c 0 := by
  have h : ((machine QueueGame).runNoting anyStep noteAccepted
      ([QueueGame.call (.create 0 0 true)] ++ QueueGame.steps 1 1 ++
        [QueueGame.call (.submitDelayedCallback 1 0 1 (some 7))] ++ QueueGame.steps 1 5 ++
        QueueGame.steps 0 2 ++
        [QueueGame.call (.submitDelayedCallback 1 0 0 (some 8))] ++ QueueGame.steps 1 5 ++
        [QueueGame.call (.dispatch 1 0 0)] ++ QueueGame.steps 1 3)
      (QueueGame.start 2 1) []).any (fun r => decide
        (r.1.shared.ports[0]?.map Port.mode = some .manual ∧
          ∃ t ∈ r.1.shared.toCore.starts 0, ∃ u ∈ r.1.shared.toCore.queue 0,
            ¬ ReadyFirst r.2 t u)) = true := by
    decide +kernel
  obtain ⟨c, log, hr, hc⟩ := Machine.Records.of_run_any h
  obtain ⟨hport, t, ht, u, hu, hn⟩ := of_decide_eq_true hc
  obtain ⟨port, hp, hm⟩ := Option.map_eq_some_iff.mp hport
  exact ⟨c, log, port, hr, hp, hm, fun hs => hn (hs.waiting t ht u (.inl hu))⟩

/-- A delayed callback and an undelayed one after it, each dispatched once it is ready. -/
theorem starts_in_ready_order_delayed :
    ∃ c log port,
      (machine QueueGame).Records (inReadyOrder 0) noteAccepted (QueueGame.start 2 1) [] c log ∧
      c.shared.ports[0]? = some port ∧ port.mode ≠ .immediate ∧
      (c.shared.toCore.starts 0).map Task.callback = [7, 8] ∧ StartsInReadyOrder log c 0 := by
  have h : ((machine QueueGame).runNoting (inReadyOrder 0) noteAccepted
      ([QueueGame.call (.create 0 0 true)] ++ QueueGame.steps 1 1 ++
        [QueueGame.call (.submitDelayedCallback 1 0 2 (some 7))] ++ QueueGame.steps 1 5 ++
        [QueueGame.call (.submitDelayedCallback 1 0 0 (some 8))] ++ QueueGame.steps 1 5 ++
        [QueueGame.call (.dispatch 1 0 0)] ++ QueueGame.steps 1 8 ++ QueueGame.steps 0 2 ++
        [QueueGame.call (.dispatch 1 0 0)] ++ QueueGame.steps 1 3)
      (QueueGame.start 2 1) []).any (fun r => decide
        (r.1.shared.ports[0]?.map Port.mode = some .manual ∧
          (r.1.shared.toCore.starts 0).map Task.callback = [7, 8])) = true := by
    decide +kernel
  obtain ⟨c, log, hr, hc⟩ := Machine.Records.of_run_any h
  obtain ⟨hport, hstarts⟩ := of_decide_eq_true hc
  obtain ⟨port, hp, hm⟩ := Option.map_eq_some_iff.mp hport
  have hmode : port.mode ≠ .immediate := by
    rw [hm]
    decide
  exact ⟨c, log, port, hr, hp, hmode, hstarts,
    starts_in_ready_order (QueueGame.initial 2 1) hr hp hmode⟩

end XGameRuntime.TaskQueue
