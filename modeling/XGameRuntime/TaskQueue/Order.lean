import Mathlib.Data.List.Basic
import XGameRuntime.TaskQueue.Api
import XGameRuntime.TaskQueue.History

/-! # The order of a port

The list of a port in every configuration: its undelayed callbacks as they were submitted, then the
delayed ones by deadline. What the head says about the rest follows.
-/

namespace XGameRuntime.TaskQueue
open Concurrency
set_option autoImplicit false

/-! ## Lists in order -/

section Lists
variable {α : Type} {R : α → α → Prop} {p : α → Bool} {l : List α}

/-- An element goes before the first one with `p`: `p` marks what comes after it. -/
theorem pairwise_insert {x : α} (h : l.Pairwise R)
    (hup : l.Pairwise fun a b => p a = true → p b = true)
    (hbefore : ∀ a ∈ l, p a = false → R a x) (hafter : ∀ a ∈ l, p a = true → R x a) :
    (l.insertIdx (l.findIdx p) x).Pairwise R := by
  induction l with
  | nil => exact List.pairwise_singleton R x
  | cons a l ih =>
    obtain ⟨ha, hl⟩ := List.pairwise_cons.mp h
    obtain ⟨hupa, hupl⟩ := List.pairwise_cons.mp hup
    cases hp : p a with
    | true =>
      rw [List.findIdx_cons, hp]
      refine List.pairwise_cons.mpr ⟨fun b hb => hafter b hb ?_, h⟩
      rcases List.mem_cons.mp hb with rfl | hbl
      · exact hp
      · exact hupa b hbl hp
    | false =>
      rw [List.findIdx_cons, hp]
      refine List.pairwise_cons.mpr ⟨fun b hb => ?_, ih hl hupl ?_ ?_⟩
      · rcases List.eq_or_mem_of_mem_insertIdx hb with rfl | hbl
        · exact hbefore a List.mem_cons_self hp
        · exact ha b hbl
      · exact fun b hb => hbefore b (List.mem_cons_of_mem _ hb)
      · exact fun b hb => hafter b (List.mem_cons_of_mem _ hb)

/-- What holds of no element unless it holds of those before it holds of a first part. -/
theorem takeWhile_eq_filter (h : l.Pairwise fun a b => p b = true → p a = true) :
    l.takeWhile p = l.filter p ∧ l.dropWhile p = l.filter (fun a => !p a) := by
  induction l with
  | nil => exact ⟨rfl, rfl⟩
  | cons a l ih =>
    obtain ⟨ha, hl⟩ := List.pairwise_cons.mp h
    obtain ⟨htake, hdrop⟩ := ih hl
    cases hp : p a with
    | true =>
      rw [List.takeWhile_cons_of_pos hp, List.dropWhile_cons_of_pos hp,
        List.filter_cons_of_pos hp, List.filter_cons_of_neg (by simp [hp]), htake, hdrop]
      exact ⟨rfl, rfl⟩
    | false =>
      have hnone : ∀ b ∈ l, p b = false := by
        intro b hb
        cases hpb : p b with
        | true => exact absurd (ha b hb hpb) (by simp [hp])
        | false => rfl
      rw [List.takeWhile_cons_of_neg (by simp [hp]), List.dropWhile_cons_of_neg (by simp [hp]),
        List.filter_cons_of_neg (by simp [hp]), List.filter_cons_of_pos (by simp [hp])]
      refine ⟨(List.filter_eq_nil_iff.mpr fun b hb => by simp [hnone b hb]).symm, ?_⟩
      rw [List.filter_eq_self.mpr fun b hb => by simp [hnone b hb]]

end Lists

/-! ## The order of callbacks -/

section Order
variable {κ : Type}

/-- In the history of accepted submissions, newest first, `t` is older than `u`. -/
def SubmittedBefore (accepted : List (Task κ)) (t u : Task κ) : Prop :=
  [u, t].Sublist accepted

/-- `t` goes before `u` in a port. -/
def GoesFirst (accepted : List (Task κ)) (t u : Task κ) : Prop :=
  match t.due, u.due with
  | none, none => SubmittedBefore accepted t u
  | none, some _ => True
  | some a, some b => a < b ∨ a = b ∧ SubmittedBefore accepted t u
  | some _, none => False

structure InOrder (accepted tasks : List (Task κ)) : Prop where
  mem : ∀ task ∈ tasks, task ∈ accepted
  order : tasks.Pairwise (GoesFirst accepted)

variable {accepted tasks : List (Task κ)}

theorem GoesFirst.later {accepted' : List (Task κ)} (h : accepted <:+ accepted') {t u : Task κ}
    (hg : GoesFirst accepted t u) : GoesFirst accepted' t u := by
  unfold GoesFirst at hg ⊢
  cases ht : t.due <;> cases hu : u.due <;> simp only [ht, hu] at hg ⊢
  · exact hg.trans h.sublist
  · exact hg.imp_right fun hg => ⟨hg.1, hg.2.trans h.sublist⟩

theorem GoesFirst.readyAt {t u : Task κ} (h : GoesFirst accepted t u) {now : ℕ}
    (hu : u.readyAt now = true) : t.readyAt now = true := by
  unfold GoesFirst at h
  unfold Task.readyAt at hu ⊢
  cases ht : t.due with
  | none => rfl
  | some a =>
    cases hd : u.due with
    | none =>
      rw [ht, hd] at h
      exact absurd h id
    | some b =>
      rw [ht, hd] at h
      rw [hd] at hu
      have hle := of_decide_eq_true hu
      refine decide_eq_true ?_
      dsimp only at h
      omega

theorem InOrder.later {accepted' : List (Task κ)} (h : InOrder accepted tasks)
    (hl : accepted <:+ accepted') : InOrder accepted' tasks :=
  ⟨fun task ht => hl.subset (h.mem task ht), h.order.imp fun hg => hg.later hl⟩

theorem InOrder.sublist {tasks' : List (Task κ)} (h : InOrder accepted tasks)
    (hs : tasks'.Sublist tasks) : InOrder accepted tasks' :=
  ⟨fun task ht => h.mem task (hs.subset ht), h.order.sublist hs⟩

theorem InOrder.nil : InOrder accepted ([] : List (Task κ)) :=
  ⟨List.forall_mem_nil _, .nil⟩

/-- What the scan of `submit` finds to be behind the new callback is all that follows. -/
theorem GoesFirst.goesBefore {task t u : Task κ} (h : GoesFirst accepted t u)
    (hp : PortState.goesBefore task t = true) : PortState.goesBefore task u = true := by
  unfold PortState.goesBefore at hp ⊢
  unfold GoesFirst at h
  cases hd : t.due <;> cases hu : u.due <;> cases hn : task.due <;>
    simp only [hd, hu, hn] at hp h ⊢
  · cases hp
  · cases hp
  · cases hp
  · have hlt := of_decide_eq_true hp
    exact decide_eq_true (by omega)

/-- The scan of `submit` finds the place of the newest callback. -/
theorem InOrder.insert {s : PortState κ} (h : InOrder accepted s.tasks) (task : Task κ) :
    InOrder (task :: accepted) (s.insert task).tasks := by
  have hnew : ∀ t ∈ s.tasks, SubmittedBefore (task :: accepted) t task :=
    fun t ht => List.cons_sublist_cons.mpr (List.singleton_sublist.mpr (h.mem t ht))
  refine ⟨fun t ht => ?_, pairwise_insert (h.later (List.suffix_cons _ _)).order
    (h.order.imp GoesFirst.goesBefore) ?_ ?_⟩
  · rcases List.mem_cons.mp ((s.insert_perm task).mem_iff.mp ht) with rfl | hold
    · exact List.mem_cons_self
    · exact List.mem_cons_of_mem _ (h.mem t hold)
  · intro t ht hp
    have hbefore := hnew t ht
    unfold PortState.goesBefore at hp
    unfold GoesFirst
    cases hd : t.due <;> cases hn : task.due <;> simp only [hd, hn] at hp ⊢
    · exact hbefore
    · cases hp
    · have hle := of_decide_eq_false hp
      rcases Nat.lt_or_eq_of_le (Nat.le_of_not_lt hle) with hlt | heq
      · exact .inl hlt
      · exact .inr ⟨heq, hbefore⟩
  · intro t ht hp
    unfold PortState.goesBefore at hp
    unfold GoesFirst
    cases hd : t.due <;> cases hn : task.due <;> simp only [hd, hn] at hp ⊢
    · cases hp
    · cases hp
    · exact .inl (of_decide_eq_true hp)

/-! ## What the order says -/

/-- The two parts of a port. -/
structure QueueOrder (accepted tasks : List (Task κ)) : Prop where
  parts : tasks = (tasks.filter fun task => task.due.isNone) ++
    tasks.filter fun task => task.due.isSome
  undelayed : (tasks.filter fun task => task.due.isNone).Pairwise (SubmittedBefore accepted)
  delayed : (tasks.filter fun task => task.due.isSome).Pairwise fun t u =>
    ∃ a b, t.due = some a ∧ u.due = some b ∧ (a < b ∨ a = b ∧ SubmittedBefore accepted t u)

/-- What the head of a port answers for, whatever the clock shows. -/
structure HeadAnswers (s : PortState κ) (now : ℕ) : Prop where
  ready : (∃ task ∈ s.tasks, task.readyAt now = true) →
    ∃ head ∈ s.tasks.head?, head.readyAt now = true
  earliest : ∀ head ∈ s.tasks.head?, ∀ a, head.due = some a →
    ∀ task ∈ s.tasks, ∃ b, task.due = some b ∧ a ≤ b
  sleep : s.waitForTask now = .notYet → ∀ deadline, ∀ task ∈ s.tasks, ∃ b, task.due = some b ∧
    now < b ∧ ∃ wake, s.waitUntil deadline = some wake ∧ wake ≤ b
  drained : (s.drainReady now).2 = s.tasks.filter fun task => task.readyAt now
  left : (s.drainReady now).1.tasks = s.tasks.filter fun task => !task.readyAt now

theorem InOrder.queueOrder (h : InOrder accepted tasks) : QueueOrder accepted tasks := by
  have hsplit : (tasks.takeWhile fun task => task.due.isNone) =
        (tasks.filter fun task => task.due.isNone) ∧
      (tasks.dropWhile fun task => task.due.isNone) =
        tasks.filter fun task => !task.due.isNone := by
    refine takeWhile_eq_filter (h.order.imp fun {t u} hg hu => ?_)
    unfold GoesFirst at hg
    cases ht : t.due with
    | none => rfl
    | some a =>
      rw [Option.isNone_iff_eq_none] at hu
      rw [ht, hu] at hg
      exact absurd hg id
  have hsome : (fun task : Task κ => !task.due.isNone) = fun task => task.due.isSome := by
    funext task
    cases task.due <;> rfl
  rw [hsome] at hsplit
  refine ⟨?_, ?_, ?_⟩
  · rw [← hsplit.1, ← hsplit.2, List.takeWhile_append_dropWhile]
  · refine (h.order.filter _).imp_of_mem fun {t u} ht hu hg => ?_
    have hnt := Option.isNone_iff_eq_none.mp (List.mem_filter.mp ht).2
    have hnu := Option.isNone_iff_eq_none.mp (List.mem_filter.mp hu).2
    simpa only [GoesFirst, hnt, hnu] using hg
  · refine (h.order.filter _).imp_of_mem fun {t u} ht hu hg => ?_
    obtain ⟨a, ha⟩ := Option.isSome_iff_exists.mp (List.mem_filter.mp ht).2
    obtain ⟨b, hb⟩ := Option.isSome_iff_exists.mp (List.mem_filter.mp hu).2
    simp only [GoesFirst, ha, hb] at hg
    exact ⟨a, b, ha, hb, hg⟩

theorem InOrder.headAnswers {s : PortState κ} (h : InOrder accepted s.tasks) (now : ℕ) :
    HeadAnswers s now := by
  have hready : ∀ head ∈ s.tasks.head?, ∀ task ∈ s.tasks, task.readyAt now = true →
      head.readyAt now = true := by
    intro head hhead task ht hr
    obtain ⟨rest, hl⟩ := List.head?_eq_some_iff.mp hhead
    have horder := h.order
    rw [hl] at ht horder
    rcases List.mem_cons.mp ht with rfl | ht
    · exact hr
    · exact ((List.pairwise_cons.mp horder).1 task ht).readyAt hr
  have hearliest : ∀ head ∈ s.tasks.head?, ∀ a, head.due = some a →
      ∀ task ∈ s.tasks, ∃ b, task.due = some b ∧ a ≤ b := by
    intro head hhead a ha task ht
    obtain ⟨rest, hl⟩ := List.head?_eq_some_iff.mp hhead
    have horder := h.order
    rw [hl] at ht horder
    rcases List.mem_cons.mp ht with rfl | ht
    · exact ⟨a, ha, Nat.le_refl a⟩
    · have hg := (List.pairwise_cons.mp horder).1 task ht
      unfold GoesFirst at hg
      cases hb : task.due with
      | none =>
        rw [ha, hb] at hg
        exact absurd hg id
      | some b =>
        simp only [ha, hb] at hg
        exact ⟨b, rfl, by omega⟩
  have hdrain := takeWhile_eq_filter
    (h.order.imp fun {t u} hg (hu : u.readyAt now = true) => hg.readyAt hu)
  refine ⟨?_, hearliest, ?_, hdrain.1, hdrain.2⟩
  · rintro ⟨task, ht, hr⟩
    have hhead := List.head?_eq_some_head (List.ne_nil_of_mem ht)
    exact ⟨_, hhead, hready _ hhead task ht hr⟩
  · intro hnot deadline task ht
    cases hl : s.tasks with
    | nil =>
      rw [hl] at ht
      cases ht
    | cons head rest =>
      have hhead : head ∈ s.tasks.head? := by rw [hl]; rfl
      have hlate : head.readyAt now = false := by
        unfold PortState.waitForTask at hnot
        split at hnot
        · cases hnot
        · rw [hl] at hnot
          dsimp only at hnot
          split at hnot
          · cases hnot
          · rename_i hr
            exact Bool.eq_false_iff.mpr hr
      unfold Task.readyAt at hlate
      cases ha : head.due with
      | none =>
        rw [ha] at hlate
        cases hlate
      | some a =>
        rw [ha] at hlate
        have hlt := of_decide_eq_false hlate
        obtain ⟨b, hb, hle⟩ := hearliest head hhead a ha task ht
        refine ⟨b, hb, by omega, ?_⟩
        have hdue : s.tasks.head?.bind Task.due = some a := by
          rw [hl]
          exact ha
        unfold PortState.waitUntil
        rw [hdue]
        cases deadline with
        | none => exact ⟨a, rfl, hle⟩
        | some d => exact ⟨min d a, rfl, by omega⟩

end Order

/-! ## Every port is in order -/

section Machine
variable {κ γ : Type}

/-- Every port is in order. -/
def Core.InOrder (s : Core κ) : Prop :=
  ∀ (p : ℕ) (port : Port κ), s.ports[p]? = some port →
    TaskQueue.InOrder s.accepted port.state.tasks

theorem Core.InOrder.setPort {s t : Core κ} {p : ℕ} {port : Port κ} (h : s.InOrder)
    (ha : s.accepted <:+ t.accepted) (ht : t.ports = s.ports.set p port)
    (hport : TaskQueue.InOrder t.accepted port.state.tasks) : t.InOrder := by
  intro q port' hq
  rw [ht] at hq
  rcases getElem?_set_cases hq with ⟨rfl, rfl⟩ | ⟨-, hq⟩
  · exact hport
  · exact (h q port' hq).later ha

theorem Core.Grows.inOrder {s t : Core κ} (h : s.Grows t) (hs : s.InOrder) : t.InOrder := by
  refine h.preserves (fun u mode hu p port hp => ?_) (fun u q port hq hu => ?_) hs
  · rcases getElem?_push_cases hp with hp | ⟨-, rfl⟩
    · exact hu p port hp
    · exact .nil
  · exact hu.setPort (t := u.newContext q port) List.suffix_rfl rfl (hu q port hq)

theorem CoreStep.inOrder {body : κ → Bool → List γ} {s : Core κ} {f : Frame κ γ}
    {o : Outcome (Core κ) (Frame κ γ)} (h : CoreStep body s f o) (hs : s.InOrder) :
    o.shared.InOrder := by
  have hl := h.later
  cases h with
  | clock | submitContext | submitDue | refuse | invoke | running | workerExit | delayed | dispatch
    | dispatchExit | batchNext | terminate | cancelNext | cancelWait | cancelReturn
    | awaitDrained => exact hs
  | acceptDelayed => exact fun p port hp => (hs p port hp).later hl.accepted
  | acceptInline hc hp => exact hs.setPort hl.accepted rfl ((hs _ _ hp).later hl.accepted)
  | acceptQueued hc hp =>
    refine hs.setPort hl.accepted rfl ?_
    rw [PortState.startWorkers_tasks]
    exact (hs _ _ hp).insert _
  | finishOne hp =>
    have hold := hs _ _ hp
    exact hs.setPort hl.accepted rfl hold
  | workerTake hp ht htasks | dispatchTake hp ht htasks =>
    refine hs.setPort hl.accepted rfl ((hs _ _ hp).sublist ?_)
    rw [htasks]
    exact List.sublist_cons_self _ _
  | drainReady hp =>
    exact hs.setPort hl.accepted rfl ((hs _ _ hp).sublist (List.dropWhile_sublist _))
  | batchEnd hp =>
    refine hs.setPort hl.accepted rfl ?_
    rw [PortState.finishN_tasks]
    exact hs _ _ hp
  | terminateContext hc hp =>
    exact hs.setPort hl.accepted rfl ((hs _ _ hp).sublist List.filter_sublist)
  | cancelDrain hc hp => exact hs.setPort hl.accepted rfl .nil

end Machine

section Runs
variable {κ : Type} {C : Client κ} {c₀ c : Config (World C) (Frame κ C.Frame)}

theorem reaches_inOrder (h0 : Initial C c₀) (h : (machine C).Reaches anyStep c₀ c) :
    c.shared.toCore.InOrder := by
  refine h.preserved (I := fun s _ => s.toCore.InOrder) ?_ ?_
  · obtain ⟨pool, now, hq⟩ := h0.queues
    intro p port hp
    rw [hq] at hp
    cases hp
  · intro s f R x o _ hI hs
    rcases (step_inv hs).outer_or_core with ⟨hg, -, -⟩ | ⟨o', ho, he, -⟩
    · exact hg.inOrder hI
    · rw [he]
      exact ho.inOrder hI

theorem port_order_exact (h0 : Initial C c₀) (h : (machine C).Reaches anyStep c₀ c) {p : ℕ}
    {port : Port κ} (hp : c.shared.ports[p]? = some port) :
    QueueOrder c.shared.accepted port.state.tasks ∧ ∀ now, HeadAnswers port.state now :=
  have horder := reaches_inOrder h0 h p port hp
  ⟨horder.queueOrder, horder.headAnswers⟩

end Runs

/-- A delayed callback and after it an undelayed one. -/
theorem port_order_exact_delayed :
    ∃ c port, (machine QueueGame).Reaches anyStep (QueueGame.start 2 1) c ∧
      c.shared.ports[0]? = some port ∧ port.state.tasks.map Task.callback = [8, 7] ∧
      QueueOrder c.shared.accepted port.state.tasks ∧ ∀ now, HeadAnswers port.state now := by
  have h : ((machine QueueGame).run anyStep
      ([QueueGame.call (.create 0 0 true)] ++ QueueGame.steps 1 1 ++
        [QueueGame.call (.submitDelayedCallback 1 0 5 (some 7))] ++ QueueGame.steps 1 5 ++
        [QueueGame.call (.submitDelayedCallback 1 0 0 (some 8))] ++ QueueGame.steps 1 5)
      (QueueGame.start 2 1)).any (fun c => decide
        (c.shared.ports[0]?.map (fun port => port.state.tasks.map Task.callback) =
          some [8, 7])) = true := by
    decide +kernel
  obtain ⟨c, hr, hc⟩ := Machine.Reaches.of_run_any h
  obtain ⟨port, hp, htasks⟩ := Option.map_eq_some_iff.mp (of_decide_eq_true hc)
  obtain ⟨horder, hhead⟩ := port_order_exact (QueueGame.initial 2 1) hr hp
  exact ⟨c, port, hr, hp, htasks, horder, hhead⟩

end XGameRuntime.TaskQueue
