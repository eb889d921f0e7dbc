import XGameRuntime.TaskQueue.Lifetime
import XGameRuntime.TaskQueue.Load

/-! # Games that keep to rules

A client like `QueueGame`, with two differences. Its code is that of a thread, of a callback or of
a monitor, and rules say what each may call. And a call that takes the lock around the monitors of
a queue takes it in a step of its own, so that a thread is seen to wait for it.
-/

namespace XGameRuntime.TaskQueue
open Concurrency
set_option autoImplicit false

/-- Who calls. -/
inductive Caller where
  | thread
  | callback
  | monitor
  deriving DecidableEq, Repr

/-- The calls that each kind of code may make. -/
abbrev Rules := Caller → QueueCall ℕ Unit → Bool

/-- The code that `XTaskQueueTerminate` calls back runs on a thread of its own unless the call
waits. -/
def QueueCall.after {κ γ : Type} (caller : Caller) : QueueCall κ γ → Caller
  | .terminate _ false _ => .thread
  | _ => caller

/-- A call that takes the lock around the monitors of a queue. -/
inductive MonitorCall where
  | register (q context : ℕ)
  | unregister (q token : ℕ)
  deriving DecidableEq, Repr

def MonitorCall.queue : MonitorCall → ℕ
  | .register q _ | .unregister q _ => q

def MonitorCall.admin : MonitorCall → Admin
  | .register q context => .registerMonitor q context
  | .unregister q token => .unregisterMonitor q token

inductive RuledFrame where
  /-- Code that may call what the rules allow, any number of times. -/
  | code (caller : Caller)
  /-- A call that returns a value. -/
  | ret (value : ℕ)
  /-- A call that is about to take a lock. -/
  | monitor (call : MonitorCall)
  /-- A call that has seen a process queue. -/
  | processQueue
  deriving DecidableEq, Repr

inductive RuledChoice where
  | call (c : QueueCall ℕ Unit)
  | thread
  | finish
  deriving DecidableEq, Repr

/-- What takes the lock around the monitors of a queue is put off to a step of its own. -/
def Reply.locking {κ : Type} (r : Reply κ RuledFrame) : Reply κ RuledFrame :=
  match r.admin with
  | [.registerMonitor q context] =>
      { r with admin := [], run := .frame (.monitor (.register q context)) :: r.run }
  | [.unregisterMonitor q token] =>
      { r with admin := [], run := .frame (.monitor (.unregister q token)) :: r.run }
  | _ => r

/-- What a call of `caller` does at once and what it goes on to run. -/
def QueueCall.reply (s : TaskQueues ℕ) (caller : Caller) (c : QueueCall ℕ Unit) :
    Reply ℕ RuledFrame :=
  ((c.map id fun _ => .code (c.after caller)).perform s (fun value => [.ret value])
    [.processQueue]).locking

/-- The client whose callbacks, named by numbers, and monitors may do anything that the rules allow
them. -/
@[reducible] def RuledGame (rules : Rules) : Client ℕ where
  Mem := List ℕ
  Frame := RuledFrame
  Choice := RuledChoice
  body _ _ := [.code .callback]
  monitor _ _ _ := [.code .monitor]
  step mem s frame choice :=
    match frame, choice with
    | .code caller, .call c =>
        if rules caller c then
          let r := c.reply s caller
          some { mem := mem, admin := r.admin, run := r.run ++ [.frame (.code caller)],
                 spawn := r.spawn }
        else none
    | .code caller, .thread =>
        some { mem := mem, run := [.frame (.code caller)], spawn := [[.frame (.code .thread)]] }
    | .code _, .finish => some { mem := mem }
    | .ret value, _ => some { mem := value :: mem }
    | .monitor call, _ => some { mem := mem, admin := [call.admin] }
    | .processQueue, _ =>
        let r := createProcessQueueHandle s fun value => [.ret value]
        some { mem := mem, admin := r.admin, run := r.run }

/-- A process of which no thread has called anything yet. -/
structure RuledGame.Starts {rules : Rules}
    (c : Config (World (RuledGame rules)) (Frame ℕ RuledFrame)) : Prop where
  initial : Initial (RuledGame rules) c
  code : ∀ g, .client g ∈ c.frames → g = .code .thread

/-- A process with `n` threads of the game, before any call. -/
def RuledGame.start (rules : Rules) (pool n : ℕ) :
    Config (World (RuledGame rules)) (Frame ℕ RuledFrame) where
  shared := { pool := pool, mem := ([] : List ℕ) }
  threads := [.clock] :: List.replicate n [.client (.code .thread)]

theorem RuledGame.starts (rules : Rules) (pool n : ℕ) :
    Starts (RuledGame.start rules pool n) := by
  have hframes : ∀ f ∈ (RuledGame.start rules pool n).frames,
      f = .clock ∨ f = .client (.code .thread) := by
    intro f hf
    obtain ⟨k, hk, hfk⟩ := List.mem_flatten.mp (Multiset.mem_coe.mp hf)
    rcases List.mem_cons.mp hk with rfl | hk
    · exact .inl (List.mem_singleton.mp hfk)
    · rw [List.eq_of_mem_replicate hk] at hfk
      exact .inr (List.mem_singleton.mp hfk)
  refine ⟨⟨⟨pool, 0, rfl⟩, fun f hf => (hframes f hf).imp_right fun h => ⟨_, h⟩⟩, fun g hg => ?_⟩
  rcases hframes _ hg with h | h
  · cases h
  · exact Frame.client.inj h

/-! ## What a call leads to -/

section Calls
variable {rules : Rules} {s t : TaskQueues ℕ} {γ : Type} {ret : ℕ → List γ} {seen : List γ}

/-- Whether a call registers or unregisters a monitor. -/
def QueueCall.locks {κ : Type} : QueueCall κ γ → Bool
  | .registerMonitor .. | .unregisterMonitor .. => true
  | _ => false

/-- A call that takes a lock does nothing else, on a queue that it has found under a handle. -/
theorem perform_locks {c : QueueCall ℕ γ} {m : MonitorCall}
    (h : (c.perform s ret seen).admin = [m.admin]) :
    (∃ gs : List γ, (c.perform s ret seen).run = gs.map .frame) ∧ (c.perform s ret seen).spawn = [] ∧
      (∃ handle, s.queueHandles.get handle = some m.queue) ∧ c.locks = true := by
  cases c with
  | registerMonitor queue context callback out =>
    simp only [QueueCall.perform] at h ⊢
    split
    · rename_i hout
      rw [if_pos hout] at h
      cases hq : s.queueHandles.get queue with
      | none => simp [hq] at h
      | some q =>
        rw [hq] at h
        cases m with
        | register r token =>
          cases h
          exact ⟨⟨_, rfl⟩, rfl, ⟨queue, hq⟩, rfl⟩
        | unregister r token => cases h
    · rename_i hout
      rw [if_neg hout] at h
      cases h
  | unregisterMonitor queue token =>
    simp only [QueueCall.perform] at h ⊢
    cases hq : s.queueHandles.get queue with
    | none => simp [hq] at h
    | some q =>
      rw [hq] at h
      cases m with
      | register r token => cases h
      | unregister r token =>
        cases h
        exact ⟨⟨[], rfl⟩, rfl, ⟨queue, hq⟩, rfl⟩
  | _ =>
    exfalso
    simp only [QueueCall.perform] at h
    repeat' split at h
    all_goals cases m <;> cases h

/-- A call is put off as it is, or as one that takes a lock. -/
theorem Reply.locking_cases {κ : Type} (r : Reply κ RuledFrame) : r.locking = r ∨
    ∃ m : MonitorCall, r.admin = [m.admin] ∧
      r.locking = { r with admin := [], run := .frame (.monitor m) :: r.run } := by
  unfold Reply.locking
  split
  · rename_i q context h
    exact .inr ⟨.register q context, h, rfl⟩
  · rename_i q token h
    exact .inr ⟨.unregister q token, h, rfl⟩
  · exact .inl rfl

/-- The client code in an instruction, or that the queue goes on with after it. -/
def Instr.code {κ : Type} : Instr κ γ → List γ
  | .frame g => [g]
  | .submit a => a.onAccepted ++ a.onRefused
  | .dispatch d => d.onTrue ++ d.onFalse
  | .terminate a => a.after

/-- What `XTaskQueueTerminate` calls back. -/
def QueueCall.terminated {κ : Type} : QueueCall κ γ → List γ
  | .terminate _ _ terminated => terminated
  | _ => []

/-- What the frames that a call leaves on the stack need. -/
def QueueCall.need {κ : Type} : QueueCall κ γ → ℕ
  | .submitDelayedCallback .. | .dispatch .. => 1
  | .terminate _ true _ => 2
  | _ => 0

/-- What a call may run: what it returns to, or one operation of the queue. -/
inductive QueueCall.Runs (s : TaskQueues ℕ) (ret : ℕ → List γ) (seen : List γ)
    (c : QueueCall ℕ γ) : Instr ℕ γ → Prop where
  | frame {g : γ} (hg : (∃ value, g ∈ ret value) ∨ g ∈ seen) :
      QueueCall.Runs s ret seen c (.frame g)
  | submit {a : Submission ℕ γ} (hc : c.need = 1)
      (ha : ∀ g ∈ a.onAccepted ++ a.onRefused, ∃ value, g ∈ ret value) :
      QueueCall.Runs s ret seen c (.submit a)
  | dispatch {d : Dispatch γ} (hc : c.need = 1) (hp : ∃ q, s.Serves q d.port)
      (hd : ∀ g ∈ d.onTrue ++ d.onFalse, ∃ value, g ∈ ret value) :
      QueueCall.Runs s ret seen c (.dispatch d)
  | terminate {a : Termination γ} (hc : ∃ queue wait, c = .terminate queue wait c.terminated)
      (ha : ∀ g ∈ a.after, g ∈ c.terminated ∨ ∃ value, g ∈ ret value) :
      QueueCall.Runs s ret seen c (.terminate a)

theorem QueueCall.Runs.rets {c : QueueCall ℕ γ} (value : ℕ) :
    ∀ i ∈ (ret value).map Instr.frame, c.Runs s ret seen i := by
  intro i hi
  obtain ⟨g, hg, rfl⟩ := List.mem_map.mp hi
  exact .frame (.inl ⟨value, hg⟩)

theorem ret_or_ret {value value' : ℕ} : ∀ g ∈ ret value ++ ret value', ∃ value, g ∈ ret value :=
  List.forall_mem_append.mpr ⟨fun _ hg => ⟨_, hg⟩, fun _ hg => ⟨_, hg⟩⟩

theorem perform_runs (c : QueueCall ℕ γ) :
    ∀ i ∈ (c.perform s ret seen).run ++ (c.perform s ret seen).spawn.flatten, c.Runs s ret seen i := by
  have hrets : ∀ value, ∀ i ∈ (ret value).map (Instr.frame (κ := ℕ)) ++ [].flatten,
      c.Runs s ret seen i := by
    intro value
    rw [List.flatten_nil, List.append_nil]
    exact QueueCall.Runs.rets value
  cases c with
  | submitDelayedCallback queue port delayMs callback =>
    simp only [QueueCall.perform]
    split
    · exact hrets _
    · split
      · exact List.forall_mem_singleton.mpr (.submit rfl ret_or_ret)
      · exact hrets _
  | dispatch queue port timeoutInMs =>
    simp only [QueueCall.perform]
    split
    · split
      · rename_i p hp
        exact List.forall_mem_singleton.mpr (.dispatch rfl ⟨_, portOf_serves hp⟩ ret_or_ret)
      · exact List.forall_mem_nil _
    · exact hrets _
  | terminate queue wait terminated =>
    simp only [QueueCall.perform]
    split
    · exact hrets _
    · split
      · refine List.forall_mem_singleton.mpr (.terminate ⟨queue, _, rfl⟩ ?_)
        exact List.forall_mem_append.mpr ⟨fun _ hg => .inl hg, fun _ hg => .inr ⟨_, hg⟩⟩
      · refine List.forall_mem_append.mpr ⟨QueueCall.Runs.rets _, ?_⟩
        exact List.forall_mem_singleton.mpr (.terminate ⟨queue, _, rfl⟩ fun _ hg => .inl hg)
  | getCurrentProcessTaskQueue out =>
    simp only [QueueCall.perform]
    split
    · intro i hi
      rw [List.flatten_nil, List.append_nil] at hi
      obtain ⟨g, hg, rfl⟩ := List.mem_map.mp hi
      exact .frame (.inr hg)
    · exact hrets _
  | _ =>
    simp only [QueueCall.perform]
    repeat' split
    all_goals
      first
      | exact hrets _
      | exact List.forall_mem_nil _

/-- A call that runs a termination on its caller's thread waits for it. -/
theorem perform_waits {c : QueueCall ℕ γ} {a : Termination γ}
    (h : .terminate a ∈ (c.perform s ret seen).run) : c.need = 2 := by
  cases perform_runs c _ (List.mem_append_left _ h) with
  | terminate hc =>
    obtain ⟨queue, wait, hc⟩ := hc
    rw [hc] at h ⊢
    cases wait with
    | true => rfl
    | false =>
      simp only [QueueCall.perform] at h
      split at h
      · simp at h
      · simp at h

/-- The client code of a call is what it returns to or what it calls back. -/
theorem perform_code {P : γ → Prop} (c : QueueCall ℕ γ) (hret : ∀ value, ∀ g ∈ ret value, P g)
    (hseen : ∀ g ∈ seen, P g) (hafter : ∀ g ∈ c.terminated, P g) :
    ∀ i ∈ (c.perform s ret seen).run ++ (c.perform s ret seen).spawn.flatten, ∀ g ∈ i.code, P g := by
  intro i hi g hg
  have hretP : (∃ value, g ∈ ret value) → P g := fun ⟨value, hg⟩ => hret value g hg
  cases perform_runs c i hi with
  | frame hg' =>
    rw [List.mem_singleton.mp hg]
    exact hg'.elim (fun ⟨value, hg⟩ => hret value _ hg) (hseen _)
  | submit _ ha => exact hretP (ha g hg)
  | dispatch _ _ hd => exact hretP (hd g hg)
  | terminate _ ha => exact (ha g hg).elim (hafter g) hretP

/-- A call is given only what the tables refer to. -/
theorem reply_grounded (caller : Caller) (c : QueueCall ℕ Unit) (hn : s.Named)
    (h : Admin.applyAll s (c.reply s caller).admin = some t) :
    Grounded s t ((c.reply s caller).run ++ (c.reply s caller).spawn.flatten) := by
  revert h
  unfold QueueCall.reply
  generalize hc : c.map id (fun _ => RuledFrame.code (c.after caller)) = d
  rcases Reply.locking_cases (d.perform s (fun value => [.ret value]) [.processQueue]) with
    he | ⟨m, hm, he⟩
  · rw [he]
    exact perform_grounded d hn
  · rw [he]
    intro h
    cases h
    obtain ⟨⟨gs, hrun⟩, hspawn, -⟩ := perform_locks hm
    rw [hrun, hspawn, List.flatten_nil, List.append_nil]
    exact .rets hn (.monitor m :: gs)

/-- The code of a call returns a value, calls back, goes on with the process queue or takes the lock
of a queue. -/
theorem reply_code (caller : Caller) (c : QueueCall ℕ Unit) (hn : s.Named) :
    ∀ i ∈ (c.reply s caller).run ++ (c.reply s caller).spawn.flatten, ∀ g ∈ i.code,
      (∃ value, g = .ret value) ∨ g = .processQueue ∨ g = .code (c.after caller) ∨
        ∃ m : MonitorCall, g = .monitor m ∧ i = .frame g ∧ m.queue < s.queues.length := by
  unfold QueueCall.reply
  generalize hc : c.map id (fun _ => RuledFrame.code (c.after caller)) = d
  have hafter : ∀ g ∈ d.terminated, g = .code (c.after caller) := by
    subst hc
    cases c with
    | terminate queue wait terminated =>
      intro g hg
      obtain ⟨-, -, rfl⟩ := List.mem_map.mp hg
      rfl
    | _ => exact List.forall_mem_nil _
  have hcode : ∀ i ∈ (d.perform s (fun value => [.ret value]) [.processQueue]).run ++
      (d.perform s (fun value => [.ret value]) [.processQueue]).spawn.flatten, ∀ g ∈ i.code,
      (∃ value, g = .ret value) ∨ g = .processQueue ∨ g = .code (c.after caller) :=
    perform_code d (fun value g hg => .inl ⟨value, List.mem_singleton.mp hg⟩)
      (fun g hg => .inr (.inl (List.mem_singleton.mp hg))) fun g hg => .inr (.inr (hafter g hg))
  rcases Reply.locking_cases (d.perform s (fun value => [.ret value]) [.processQueue]) with
    he | ⟨m, hm, he⟩
  · rw [he]
    exact fun i hi g hg => (hcode i hi g hg).imp_right (Or.imp_right .inl)
  · rw [he]
    obtain ⟨-, -, ⟨handle, hq⟩, -⟩ := perform_locks hm
    intro i hi g hg
    rcases List.mem_cons.mp hi with rfl | hi
    · rw [List.mem_singleton.mp hg]
      exact .inr (.inr (.inr ⟨m, rfl, rfl, hn.handles handle _ hq⟩))
    · exact (hcode i hi g hg).imp_right (Or.imp_right .inl)

theorem RuledGame.grounded (rules : Rules) : (RuledGame rules).Grounded := by
  intro s g choice r t hr ht hn
  have hquiet : ∀ gs : List RuledFrame,
      TaskQueue.Grounded s.toTaskQueues s.toTaskQueues (gs.map (Instr.frame (κ := ℕ))) := .rets hn
  cases g with
  | ret value => cases hr; cases ht; exact hquiet []
  | monitor m =>
    cases hr
    have hnamed : t.Named := applyAll_named ht hn fun a ha u _ => by
      rw [List.mem_singleton.mp ha]
      cases m <;> trivial
    exact .of_admin [] ht hn hnamed fun p hp => by cases m <;> exact hp.elim
  | processQueue =>
    cases hr
    exact createProcessQueueHandle_grounded [RuledFrame.ret 1] hn ht
  | code caller =>
    cases choice with
    | thread => cases hr; cases ht; exact hquiet [.code caller, .code .thread]
    | finish => cases hr; cases ht; exact hquiet []
    | call c =>
      simp only [RuledGame] at hr
      split at hr
      · cases hr
        exact (reply_grounded caller c hn ht).with_code _
      · cases hr

/-- The ports that a call goes on with are those of queues. -/
theorem perform_ports (c : QueueCall ℕ γ) {p : ℕ} :
    ∀ i ∈ (c.perform s ret seen).run ++ (c.perform s ret seen).spawn.flatten, p ∈ i.toFrame.ports →
      ∃ q, s.Serves q p := by
  intro i hi hp
  cases perform_runs c i hi with
  | frame | submit | terminate => cases hp
  | dispatch _ hd => exact List.mem_singleton.mp hp ▸ hd

theorem reply_ports (caller : Caller) (c : QueueCall ℕ Unit) {p : ℕ} :
    ∀ i ∈ (c.reply s caller).run ++ (c.reply s caller).spawn.flatten, p ∈ i.toFrame.ports →
      ∃ q, s.Serves q p := by
  unfold QueueCall.reply
  generalize c.map id (fun _ => RuledFrame.code (c.after caller)) = d
  rcases Reply.locking_cases (d.perform s (fun value => [.ret value]) [.processQueue]) with
    he | ⟨m, hm, he⟩
  · rw [he]
    exact perform_ports d
  · rw [he]
    intro i hi hp
    rcases List.mem_cons.mp hi with rfl | hi
    · cases hp
    · exact perform_ports d i hi hp

end Calls

/-! ## What frames refer to -/

section Sound
variable {rules : Rules} {s : World (RuledGame rules)} {f : Frame ℕ RuledFrame}
  {R : Multiset (Frame ℕ RuledFrame)}

/-- A frame holds ports that exist, and is to take no lock but that of a queue that exists. -/
structure Frame.Sound (s : TaskQueues ℕ) (f : Frame ℕ RuledFrame) : Prop where
  ports : ∀ p ∈ f.ports, p < s.ports.length
  monitor : ∀ m, f = .client (.monitor m) → m.queue < s.queues.length
  continuation : ∀ m, .monitor m ∉ f.continuation

theorem Frame.Sound.mono {s t : TaskQueues ℕ} (hl : s.toCore.Later t.toCore)
    (hq : SameContexts s.queues t.queues) (h : f.Sound s) : f.Sound t :=
  ⟨fun p hp => (h.ports p hp).trans_le hl.ports_le,
    fun m hm => (h.monitor m hm).trans_le hq.length_le, h.continuation⟩

theorem Placed.on_lt {s : Core ℕ} (h : Placed s R) {owner p : ℕ} (ho : s.On owner p) :
    p < s.ports.length := by
  obtain ⟨context, hc, rfl⟩ := ho
  obtain ⟨port, hp⟩ := h.context owner context hc
  exact (List.getElem?_eq_some_iff.mp hp).1

theorem Instr.continuation_toFrame {γ : Type} {i : Instr ℕ γ} {g : γ}
    (h : g ∈ i.toFrame.continuation) : g ∈ i.code := by
  cases i with
  | frame => cases h
  | _ => exact h

/-- The frames of the calls in `calls` are sound when what they look up exists. -/
theorem sound_calls {t : TaskQueues ℕ} {calls : List (Instr ℕ RuledFrame)}
    (hl : s.toCore.Later t.toCore) (hq : SameContexts s.queues t.queues) (hP : Placed s.toCore R)
    (hports : ∀ i ∈ calls, ∀ p ∈ i.toFrame.ports, ∃ q, s.Serves q p)
    (hcode : ∀ i ∈ calls, ∀ g ∈ i.code, ∀ m, g = .monitor m →
      i = .frame g ∧ m.queue < s.queues.length) :
    ∀ i ∈ calls, i.toFrame.Sound t := by
  intro i hi
  refine Frame.Sound.mono hl hq ⟨fun p hp => ?_, fun m hm => ?_, fun m hm => ?_⟩
  · obtain ⟨q, queue, kind, -, ho⟩ := hports i hi p hp
    exact hP.on_lt ho
  · cases i with
    | frame g =>
      cases hm
      exact (hcode _ hi _ (List.mem_singleton_self _) m rfl).2
    | _ => cases hm
  · obtain ⟨he, -⟩ := hcode i hi _ (Instr.continuation_toFrame hm) m rfl
    rw [he] at hm
    cases hm

theorem step_sound {x : Option RuledChoice} {o : Outcome (World (RuledGame rules)) (Frame ℕ RuledFrame)}
    (hr : Resolved s.toTaskQueues (f ::ₘ R)) (hP : Placed s.toCore (f ::ₘ R))
    (hS : ∀ g ∈ f ::ₘ R, g.Sound s.toTaskQueues)
    (hs : (machine (RuledGame rules)).step s f x = some o) :
    ∀ g ∈ o.frames + R, g.Sound o.shared.toTaskQueues := by
  have hl := (step_inv hs).later
  have hq := (step_inv hs).sameContexts
  intro g hg
  rcases Multiset.mem_add.mp hg with hg | hg
  swap
  · exact (hS g (Multiset.mem_cons_of_mem hg)).mono hl hq
  have hf := hS f (Multiset.mem_cons_self f R)
  rcases client_or_queue hs with ⟨code, choice, r, t, rfl, hstep, ht, rfl⟩ | ⟨q, hqueue, rfl⟩
  · obtain ⟨i, hi, rfl⟩ := mem_calls hg
    have hquiet : ∀ gs : List RuledFrame, (∀ m, .monitor m ∉ gs) →
        ∀ i ∈ gs.map (Instr.frame (κ := ℕ)), i.toFrame.Sound t := by
      intro gs hgs
      refine sound_calls hl hq hP (fun i hi p hp => ?_) fun i hi g hg m hm => ?_
      · rw [(grounded_rets gs hi).2.2] at hp
        cases hp
      · obtain ⟨g', hg', rfl⟩ := List.mem_map.mp hi
        rw [List.mem_singleton.mp hg] at hm
        exact absurd (hm ▸ hg') (hgs m)
    cases code with
    | ret value => cases hstep; cases hi
    | monitor m => cases hstep; cases hi
    | processQueue =>
      cases hstep
      exact hquiet [.ret 1] (by simp) i hi
    | code caller =>
      cases choice with
      | finish => cases hstep; cases hi
      | thread =>
        cases hstep
        exact hquiet [.code caller, .code .thread] (by simp) i hi
      | call c =>
        simp only [RuledGame] at hstep
        split at hstep
        · cases hstep
          have hcalls := sound_calls (s := s) hl hq hP (fun i hi p hp => reply_ports caller c i hi hp)
            fun i hi g hg m hm => by
              rcases reply_code caller c hr.named i hi g hg with
                ⟨value, rfl⟩ | rfl | rfl | ⟨m', rfl, he, hlt⟩
              · cases hm
              · cases hm
              · cases hm
              · cases hm
                exact ⟨he, hlt⟩
          rcases List.mem_append.mp hi with hi | hi
          · rcases List.mem_append.mp hi with hi | hi
            · exact hcalls i (List.mem_append_left _ hi)
            · exact hquiet [.code caller] (by simp) i hi
          · exact hcalls i (List.mem_append_right _ hi)
        · cases hstep
  · have hfollows := queueStep_follows hqueue g hg
    have hne : ∀ code, f ≠ .client code := by
      rintro code rfl
      cases hqueue
    obtain ⟨-, hpush, hspawn⟩ := step_continues hs hne
    have hcont := forall_frames.mpr ⟨hpush, hspawn⟩ g hg
    refine Frame.Sound.mono hl hq ⟨fun p hp => ?_, fun m hm => ?_, fun m hm => ?_⟩
    · rcases hfollows.ports p hp with hp | ⟨owner, -, ho⟩
      · exact hf.ports p hp
      · exact hP.on_lt ho
    · rcases hcont.code _ hm with h | ⟨callback, canceled, h⟩ | ⟨context, handle, kind, h⟩
      · exact absurd h (hf.continuation m)
      · cases List.mem_singleton.mp h
      · cases List.mem_singleton.mp h
    · exact hf.continuation m (hcont.continuation _ hm)

theorem RuledGame.Starts.sound {c₀ c : Config (World (RuledGame rules)) (Frame ℕ RuledFrame)}
    (h0 : Starts c₀) (h : (machine (RuledGame rules)).Reaches anyStep c₀ c) :
    ∀ f ∈ c.frames, f.Sound c.shared.toTaskQueues := by
  refine h.invariant (I := fun s fs => ∀ f ∈ fs, f.Sound s.toTaskQueues)
    (J := fun s fs => Resolved s.toTaskQueues fs ∧ Placed s.toCore fs)
    (fun d hd => ⟨h0.initial.resolved (RuledGame.grounded rules) hd, h0.initial.placed hd⟩) ?_ ?_
  · intro f hf
    rcases h0.initial.threads f hf with rfl | ⟨g, rfl⟩
    · exact ⟨fun _ h => (by cases h), fun _ h => (by cases h), fun _ h => (by cases h)⟩
    · rw [h0.code g hf]
      exact ⟨fun _ h => (by cases h), fun _ h => (by cases h), fun _ h => (by cases h)⟩
  · intro s f R x o _ hJ hS hs
    exact step_sound hJ.1 hJ.2 hS hs

end Sound
end XGameRuntime.TaskQueue
