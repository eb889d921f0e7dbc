import XGameRuntime.TaskQueue.Deadlock

/-! # Rules under which nothing deadlocks

Callbacks do not wait for a termination, and monitors do not submit, dispatch, wait for a
termination or touch the monitors of a queue. Then a thread that waits for callbacks in flight holds
nothing, a thread that waits for a lock holds no lock, and a thread that holds a lock waits for
nothing.
-/

namespace XGameRuntime.TaskQueue
open Concurrency
set_option autoImplicit false

/-- The rules under which no thread blocks for ever. -/
def orderly : Rules
  | .thread, _ => true
  | .callback, .terminate _ wait _ => !wait
  | .callback, _ => true
  | .monitor, .submitDelayedCallback .. | .monitor, .dispatch .. | .monitor, .registerMonitor ..
  | .monitor, .unregisterMonitor .. => false
  | .monitor, .terminate _ wait _ => !wait
  | .monitor, _ => true

/-! ## What frames need to lie on -/

/-- How much code has to be free of: nothing, the locks of monitors, or those and callbacks in
flight. -/
def Caller.need : Caller → ℕ
  | .monitor => 0
  | .callback => 1
  | .thread => 2

def RuledFrame.need : RuledFrame → ℕ
  | .code caller => caller.need
  | .ret _ | .processQueue => 0
  | .monitor _ => 1

/-- What a frame itself may come to wait for, or what it calls. -/
def Frame.base : Frame ℕ RuledFrame → ℕ
  | .client g => g.need
  | .clock | .running _ _ | .finishOne _ | .terminateReturn _ => 0
  | .terminateQueue _ | .terminate _ _ | .terminateContext _ _ _ | .cancel _ _ _ _ _
  | .awaitDrained _ _ _ => 2
  | _ => 1

/-- A frame whose code may lie where `n` is allowed. -/
structure Frame.Needs (f : Frame ℕ RuledFrame) (n : ℕ) : Prop where
  base : f.base ≤ n
  continuation : ∀ g ∈ f.continuation, g.need ≤ n

/-- What a frame allows above it, by what it holds. -/
def Frame.allows : Frame ℕ RuledFrame → ℕ
  | .notifying _ _ _ => 0
  | .finishOne _ | .drainReady _ | .dispatchBatch _ _ _ => 1
  | _ => 2

def Resource.rank : Resource → ℕ
  | .monitors _ => 1
  | .flights _ => 2

/-- What a thread waits for: callbacks in flight, a lock or nothing. -/
def Frame.rank : Frame ℕ RuledFrame → ℕ
  | .awaitDrained _ _ _ => 2
  | .notify _ | .client (.monitor _) => 1
  | _ => 0

theorem RuledFrame.need_le (g : RuledFrame) : g.need ≤ 2 := by
  cases g with
  | code caller => cases caller <;> decide
  | ret | monitor | processQueue => simp [RuledFrame.need]

theorem Frame.base_le (f : Frame ℕ RuledFrame) : f.base ≤ 2 := by
  cases f with
  | client g => exact g.need_le
  | _ => simp [Frame.base]

theorem Frame.needs_two (f : Frame ℕ RuledFrame) : f.Needs 2 :=
  ⟨f.base_le, fun g _ => g.need_le⟩

theorem Frame.rank_le_base (f : Frame ℕ RuledFrame) : f.rank ≤ f.base := by
  cases f with
  | client g => cases g <;> simp [Frame.rank, Frame.base, RuledFrame.need]
  | _ => simp [Frame.rank, Frame.base]

theorem Frame.Awaits.rank {s : TaskQueues ℕ} {f : Frame ℕ RuledFrame} {r : Resource}
    (h : f.Awaits s r) : f.rank = r.rank := by
  cases r with
  | monitors q => rcases h with ⟨m, rfl, -⟩ | ⟨a, rfl, -⟩ <;> rfl
  | flights p =>
    obtain ⟨owner, owners, a, rfl, -⟩ := h
    rfl

theorem Frame.Holds.allows {g : Frame ℕ RuledFrame} {r : Resource} (h : g.Holds r) :
    g.allows < r.rank ∧ g.rank = 0 := by
  cases r with
  | monitors q =>
    obtain ⟨a, handle, monitors, rfl, -⟩ := h
    exact ⟨Nat.one_pos, rfl⟩
  | flights p =>
    cases g with
    | finishOne | drainReady | dispatchBatch => exact ⟨Nat.one_lt_two, rfl⟩
    | _ => exact absurd h (Nat.lt_irrefl 0)

/-! ## Steps -/

section Steps
variable {s : TaskQueues ℕ} {f : Frame ℕ RuledFrame} {n : ℕ}

theorem Frame.Needs.mono {m : ℕ} (h : f.Needs m) (hmn : m ≤ n) : f.Needs n :=
  ⟨h.base.trans hmn, fun g hg => (h.continuation g hg).trans hmn⟩

/-- Frames that may lie wherever `f` may. -/
def Leads (f : Frame ℕ RuledFrame) (l : List (Frame ℕ RuledFrame)) : Prop :=
  ∀ g ∈ l, ∀ n, f.Needs n → g.Needs n

theorem leads_frames {l : List (Frame ℕ RuledFrame)}
    (h : ∀ g ∈ l, g.base ≤ f.base ∧ g.continuation ⊆ f.continuation) : Leads f l :=
  fun g hg _ hf => ⟨(h g hg).1.trans hf.base, fun code hc => hf.continuation code ((h g hg).2 hc)⟩

theorem leads_clients {gs : List RuledFrame} (h : gs ⊆ f.continuation) :
    Leads f (gs.map Frame.client) := by
  intro g hg n hf
  obtain ⟨code, hcode, rfl⟩ := List.mem_map.mp hg
  exact ⟨hf.continuation code (h hcode), List.forall_mem_nil _⟩

theorem Leads.append {l k : List (Frame ℕ RuledFrame)} (h1 : Leads f l) (h2 : Leads f k) :
    Leads f (l ++ k) :=
  List.forall_mem_append.mpr ⟨h1, h2⟩

/-- What calls in the queue go on with lies on anything. -/
theorem pairwise_calls (calls : List (Instr ℕ RuledFrame)) :
    (calls.map Instr.toFrame).Pairwise fun f g => f.Needs g.allows := by
  refine List.pairwise_of_forall_mem_list fun f _ g hg => ?_
  obtain ⟨i, -, rfl⟩ := List.mem_map.mp hg
  cases i <;> exact f.needs_two

/-- Frames on client code. -/
theorem pairwise_clients {l : List (Frame ℕ RuledFrame)} (gs : List RuledFrame)
    (h : l.Pairwise fun f g => f.Needs g.allows) :
    (l ++ gs.map Frame.client).Pairwise fun (f g : Frame ℕ RuledFrame) => f.Needs g.allows := by
  have hclient : ∀ (f : Frame ℕ RuledFrame), ∀ g ∈ gs.map (Frame.client (κ := ℕ)),
      f.Needs g.allows := by
    intro f g hg
    obtain ⟨code, -, rfl⟩ := List.mem_map.mp hg
    exact f.needs_two
  exact List.pairwise_append.mpr ⟨h, List.pairwise_of_forall_mem_list fun f _ => hclient f,
    fun f _ => hclient f⟩

theorem perform_needs (c : QueueCall ℕ RuledFrame) (hc : c.need ≤ n) :
    ∀ i ∈ (c.perform s (fun value => [.ret value]) [.processQueue]).run, i.toFrame.Needs n := by
  intro i hi
  have hret : ∀ g : RuledFrame, (∃ value, g ∈ [RuledFrame.ret value]) → g.need ≤ n := by
    rintro g ⟨value, hg⟩
    rw [List.mem_singleton.mp hg]
    exact Nat.zero_le n
  have hseen : ∀ g ∈ [RuledFrame.processQueue], g.need ≤ n :=
    List.forall_mem_singleton.mpr (Nat.zero_le n)
  cases perform_runs c i (List.mem_append_left _ hi) with
  | frame hg => exact ⟨hg.elim (hret _) (hseen _), List.forall_mem_nil _⟩
  | submit hneed ha => exact ⟨hneed.ge.trans hc, fun g hg => hret g (ha g hg)⟩
  | dispatch hneed _ hd => exact ⟨hneed.ge.trans hc, fun g hg => hret g (hd g hg)⟩
  | terminate => exact (Frame.needs_two _).mono (perform_waits hi ▸ hc)

theorem QueueCall.need_map {κ γ κ' γ' : Type} (c : QueueCall κ γ) (f : κ → κ') (g : γ → γ') :
    (c.map f g).need = c.need := by
  cases c with
  | terminate queue wait terminated => cases wait <;> rfl
  | _ => rfl

theorem QueueCall.locks_map {κ γ κ' γ' : Type} (c : QueueCall κ γ) (f : κ → κ') (g : γ → γ') :
    (c.map f g).locks = c.locks := by
  cases c <;> rfl

theorem orderly_need {caller : Caller} {c : QueueCall ℕ Unit} (h : orderly caller c = true) :
    c.need ≤ caller.need := by
  revert h
  cases c with
  | terminate queue wait terminated =>
    cases wait <;> cases caller <;> simp [orderly, QueueCall.need, Caller.need]
  | _ => cases caller <;> simp [orderly, QueueCall.need, Caller.need]

theorem orderly_locks {caller : Caller} {c : QueueCall ℕ Unit} (h : orderly caller c = true)
    (hc : c.locks = true) : 1 ≤ caller.need := by
  revert h
  cases c with
  | registerMonitor | unregisterMonitor => cases caller <;> simp [orderly, Caller.need]
  | _ => cases hc

/-- The rules keep a call from what its caller's place does not allow. -/
theorem reply_needs {caller : Caller} {c : QueueCall ℕ Unit} (h : orderly caller c = true) :
    ∀ i ∈ (c.reply s caller).run, i.toFrame.Needs caller.need := by
  unfold QueueCall.reply
  have hrun := perform_needs (s := s) (c.map id fun _ => RuledFrame.code (c.after caller))
    ((c.need_map _ _).trans_le (orderly_need h))
  rcases Reply.locking_cases ((c.map id fun _ => RuledFrame.code (c.after caller)).perform s
    (fun value => [.ret value]) [.processQueue]) with he | ⟨m, hm, he⟩
  · rw [he]
    exact hrun
  · rw [he]
    refine List.forall_mem_cons.mpr ⟨⟨?_, List.forall_mem_nil _⟩, hrun⟩
    have hlocks : (c.map id fun _ => RuledFrame.code (c.after caller)).locks = true :=
      (perform_locks hm).2.2.2
    rw [c.locks_map] at hlocks
    exact orderly_locks h hlocks

theorem CoreStep.orderly {body : ℕ → Bool → List RuledFrame}
    (hbody : ∀ callback canceled, body callback canceled = [.code .callback]) {s : Core ℕ}
    {o : Outcome (Core ℕ) (Frame ℕ RuledFrame)} (h : CoreStep body s f o) :
    o.Ordered (fun f g => f.Needs g.allows) f := by
  suffices hs : o.push.Pairwise (fun f g => f.Needs g.allows) ∧ Leads f o.push ∧
      ∀ k ∈ o.spawn, k.Pairwise fun f g => f.Needs g.allows from
    ⟨hs.1, fun g hg h => hs.2.1 g hg h.allows, hs.2.2⟩
  have hinvoke : ∀ (task : Task ℕ) (canceled : Bool) (n : ℕ), 1 ≤ n →
      (Frame.invoke (γ := RuledFrame) task canceled).Needs n :=
    fun task canceled n hn => ⟨hn, List.forall_mem_nil _⟩
  cases h with
  | refuse =>
    exact ⟨pairwise_clients _ .nil, leads_clients (List.subset_append_right _ _),
      List.forall_mem_nil _⟩
  | @acceptInline a task context port =>
    refine ⟨pairwise_clients (l := [_, _]) _ ?_, ?_, List.forall_mem_nil _⟩
    · exact List.pairwise_pair.mpr (hinvoke _ _ _ le_rfl)
    · refine Leads.append (l := [_, _]) (leads_frames ?_)
        (leads_clients (List.subset_append_left _ _))
      simp [Frame.base, Frame.continuation]
  | acceptDelayed =>
    exact ⟨pairwise_clients _ .nil, leads_clients (List.subset_append_left _ _),
      List.forall_mem_singleton.mpr (List.pairwise_singleton _ _)⟩
  | acceptQueued =>
    refine ⟨pairwise_clients _ .nil, leads_clients (List.subset_append_left _ _), fun k hk => ?_⟩
    rw [List.eq_of_mem_replicate hk]
    exact List.pairwise_singleton _ _
  | @invoke task canceled =>
    rw [hbody]
    refine ⟨List.pairwise_pair.mpr (Frame.needs_two _), ?_, List.forall_mem_nil _⟩
    exact leads_frames (by simp [Frame.base, Frame.continuation, RuledFrame.need, Caller.need])
  | @workerTake p port task rest =>
    refine ⟨?_, leads_frames (by simp [Frame.base, Frame.continuation]), List.forall_mem_nil _⟩
    refine List.pairwise_cons.mpr ⟨?_, List.pairwise_pair.mpr (Frame.needs_two _)⟩
    simp only [List.mem_cons, List.not_mem_nil, or_false, forall_eq_or_imp, forall_eq]
    exact ⟨hinvoke _ _ _ le_rfl, hinvoke _ _ _ (Nat.le_succ 1)⟩
  | dispatchExit =>
    exact ⟨pairwise_clients _ .nil, leads_clients (List.subset_append_right _ _),
      List.forall_mem_nil _⟩
  | batchEnd =>
    exact ⟨pairwise_clients _ .nil, leads_clients (List.subset_append_left _ _),
      List.forall_mem_nil _⟩
  | dispatchTake | batchNext =>
    refine ⟨List.pairwise_pair.mpr (hinvoke _ _ _ le_rfl), leads_frames ?_, List.forall_mem_nil _⟩
    simp [Frame.base, Frame.continuation]
  | cancelNext =>
    refine ⟨List.pairwise_pair.mpr (Frame.needs_two _), leads_frames ?_, List.forall_mem_nil _⟩
    simp [Frame.base, Frame.continuation]
  | running | finishOne | workerExit =>
    exact ⟨.nil, List.forall_mem_nil _, List.forall_mem_nil _⟩
  | _ =>
    refine ⟨List.pairwise_singleton _ _, leads_frames ?_, List.forall_mem_nil _⟩
    simp [Frame.base, Frame.continuation]

theorem RegistryStep.orderly {rules : Rules} {f : Frame ℕ (RuledGame rules).Frame}
    {o : Outcome (TaskQueues ℕ) (Frame ℕ (RuledGame rules).Frame)}
    (h : RegistryStep (RuledGame rules) s f o) :
    o.push.Pairwise (fun f g => f.Needs g.allows) ∧ Leads f o.push ∧ o.spawn = [] := by
  cases h with
  | notifyNext =>
    refine ⟨List.pairwise_pair.mpr ⟨le_rfl, List.forall_mem_nil _⟩, leads_frames ?_, rfl⟩
    simp [Frame.base, Frame.continuation, RuledFrame.need, Caller.need]
  | @terminated a =>
    refine ⟨List.pairwise_append.mpr ⟨pairwise_clients (l := []) _ .nil,
      List.pairwise_singleton _ _, fun g _ h hh => ?_⟩, ?_, rfl⟩
    · rw [List.mem_singleton.mp hh]
      exact g.needs_two
    · refine (leads_clients (List.Subset.refl _)).append (leads_frames ?_)
      simp [Frame.base, Frame.continuation]
  | terminateReturn => exact ⟨.nil, List.forall_mem_nil _, rfl⟩
  | _ =>
    refine ⟨List.pairwise_singleton _ _, leads_frames ?_, rfl⟩
    simp [Frame.base, Frame.continuation]

theorem step_orderly {s : World (RuledGame orderly)} {x : Option RuledChoice}
    {o : Outcome (World (RuledGame orderly)) (Frame ℕ RuledFrame)}
    (h : (machine (RuledGame orderly)).step s f x = some o) :
    o.Ordered (fun f g => f.Needs g.allows) f := by
  rcases client_or_queue h with ⟨code, choice, r, t, rfl, hr, -, rfl⟩ | ⟨q, hq, rfl⟩
  · refine ⟨pairwise_calls _, fun g hg h hf => ?_, List.forall_mem_map.mpr fun calls _ =>
      pairwise_calls calls⟩
    obtain ⟨i, hi, rfl⟩ := List.mem_map.mp hg
    cases code with
    | ret value => cases hr; cases hi
    | monitor m => cases hr; cases hi
    | processQueue =>
      cases hr
      rw [List.mem_singleton.mp hi]
      exact ⟨Nat.zero_le _, List.forall_mem_nil _⟩
    | code caller =>
      cases choice with
      | finish => cases hr; cases hi
      | thread =>
        cases hr
        rw [List.mem_singleton.mp hi]
        exact hf
      | call c =>
        simp only at hr
        split at hr
        · rename_i hallowed
          cases hr
          rcases List.mem_append.mp hi with hi | hi
          · exact (reply_needs hallowed i hi).mono hf.base
          · rw [List.mem_singleton.mp hi]
            exact hf
        · cases hr
  · unfold queueStep at hq
    split at hq
    · rename_i hreg
      cases hq
      obtain ⟨hpush, hleads, hspawn⟩ := (registryStep_inv hreg).orderly
      refine ⟨hpush, fun g hg h => hleads g hg h.allows, ?_⟩
      rw [hspawn]
      exact List.forall_mem_nil _
    · obtain ⟨b, hb, rfl⟩ := Option.map_eq_some_iff.mp hq
      have ho := (coreStep_inv hb).orderly fun _ _ => rfl
      exact ⟨ho.push, ho.passes, ho.spawn⟩

end Steps

/-! ## Specification -/

namespace RuledGame
variable {c₀ c : Config (World (RuledGame orderly)) (Frame ℕ RuledFrame)}

theorem Starts.ordered (h0 : Starts c₀)
    (h : (machine (RuledGame orderly)).Reaches anyStep c₀ c) :
    ∀ k ∈ c.threads, k.Pairwise fun f g => f.Needs g.allows := by
  refine h.ordered (fun k hk => ?_) fun _ _ _ _ hs => step_orderly hs
  refine List.pairwise_of_forall_mem_list fun f _ g hg => ?_
  have hmem : g ∈ c₀.frames := Multiset.mem_coe.mpr (List.mem_flatten.mpr ⟨k, hk, hg⟩)
  rcases h0.initial.threads g hmem with rfl | ⟨code, rfl⟩ <;> exact f.needs_two

/-- Whoever is waited for waits for less. -/
theorem Starts.rank_lt (h0 : Starts c₀) (h : (machine (RuledGame orderly)).Reaches anyStep c₀ c)
    {i j : ℕ} (hwait : WaitsFor c i j) :
    (c.top j).elim 0 Frame.rank < (c.top i).elim 0 Frame.rank := by
  obtain ⟨f, r, k, g, htop, hneed, hk, hg, hheld⟩ := hwait
  rw [htop, Option.elim_some, Frame.Awaits.rank hneed]
  obtain ⟨hallows, hrank⟩ := Frame.Holds.allows hheld
  cases k with
  | nil => cases hg
  | cons f' k =>
    rw [top_eq hk, Option.elim_some]
    rcases List.mem_cons.mp hg with rfl | hg
    · rw [hrank]
      exact Nat.zero_lt_of_lt hallows
    · have hneeds := (List.pairwise_cons.mp (h0.ordered h _ (List.mem_of_getElem? hk))).1 g hg
      exact (f'.rank_le_base.trans hneeds.base).trans_lt hallows

/-- In every state of every run of a game that keeps to the rules, however many threads and queues
it has and whatever else its callbacks and monitors call, no thread is in a knot: each thread that
waits does so, in the end, for one that can go on or dispatches until its deadline. -/
theorem orderly_never_knotted (h0 : Starts c₀)
    (h : (machine (RuledGame orderly)).Reaches anyStep c₀ c) :
    (∀ S, Knot c S → S = ∅) ∧ ∀ i, (∃ j, WaitsFor c i j) →
      ∃ l, Relation.TransGen (WaitsFor c) i l ∧ (Able c l ∨ Dozes c l) := by
  have hknot : ∀ S, Knot c S → S = ∅ := fun S hS =>
    Config.Knot.eq_empty (fun i => (c.top i).elim 0 Frame.rank) (fun _ _ hw => h0.rank_lt h hw) hS
  refine ⟨hknot, fun i hwait => h0.free h hwait fun S hS => ?_⟩
  rw [hknot S hS]
  exact Set.notMem_empty i

/-- Two threads submit to a queue that has a monitor: the first one is about to call it. -/
def submitTwice : List (ℕ × Option RuledChoice) :=
  [(1, some (.call (.create 0 0 true)))] ++ List.replicate 1 (1, some .finish) ++
    [(1, some (.call (.registerMonitor 1 9 true true)))] ++ List.replicate 2 (1, some .finish) ++
    [(1, some (.call (.submitDelayedCallback 1 0 0 (some 7)))), (1, some .finish),
      (2, some (.call (.submitDelayedCallback 1 0 0 (some 8))))]

/-- The second thread waits for the first, and a thread that it waits for can go on. -/
theorem orderly_never_knotted_submit :
    ∃ c : Config (World (RuledGame orderly)) (Frame ℕ RuledFrame), WaitsFor c 2 1 ∧
    (∀ S, Knot c S → S = ∅) ∧
    ∃ l, Relation.TransGen (WaitsFor c) 2 l ∧ (Able c l ∨ Dozes c l) := by
  obtain ⟨c, hc⟩ : ∃ c, (machine (RuledGame orderly)).run anyStep submitTwice
    (start orderly 2 2) = some c := ⟨_, rfl⟩
  have hfirst : c.threads[1]? = some [.notifying ⟨0, .work, 0, 7, [.ret S_OK], [.ret E_ABORT]⟩ 2
      [⟨1, 9⟩], .client (.code .thread)] := run_at hc (fun c => c.threads[1]?) rfl
  have hsecond : c.threads[2]? = some [.notify ⟨0, .work, 0, 8, [.ret S_OK], [.ret E_ABORT]⟩,
      .client (.code .thread)] := run_at hc (fun c => c.threads[2]?) rfl
  have hwait : WaitsFor c 2 1 := by
    refine ⟨_, .monitors 0, _, _, top_eq hsecond, .inr ⟨_, rfl, rfl⟩, hfirst,
      List.mem_cons_self, ?_⟩
    exact ⟨_, _, _, rfl, rfl⟩
  obtain ⟨hknot, hfree⟩ := orderly_never_knotted (starts _ 2 2) (Machine.Reaches.of_run hc)
  exact ⟨c, hwait, hknot, hfree 2 ⟨1, hwait⟩⟩

end RuledGame
end XGameRuntime.TaskQueue
