import XGameRuntime.XAsync.Protocol

/-! # Providers are driven in order

Every run in which the result of a call is taken alone. What is left to show beyond the order of
the operations is that `XAsyncGetResult` does not return before `Cleanup` has been sent: that is a
fact about the stack of the thread that returns.
-/

namespace XGameRuntime.XAsync
open Concurrency TaskQueue
set_option autoImplicit false

/-! ## Runs -/

theorem ops_of_log {m m' : Memory} (h : m.log <:+ m'.log) {i : ℕ} {op : XAsyncOp}
    (hop : op ∈ m.ops i) : op ∈ m'.ops i := by
  obtain ⟨fresh, hf⟩ := h
  rw [Memory.ops, ← hf, List.filterMap_append]
  exact List.mem_append_right _ hop

section Runs
variable {c : Config (World Engine) (Frame Callback Code)} {pool n : ℕ}

theorem reaches_begun {G : Guard (World Engine) (Frame Callback Code) (Option Choice)}
    (h : (machine Engine).Reaches G (Engine.start pool n) c) :
    Begun c.shared.mem fun i => (toBegin i).total c.shared.toCore c.frames := by
  refine engine_invariant (J := fun _ _ => True) h toBegin_sees (fun _ _ => trivial) ?_ ?_ ?_
  · simp only [start_total (toBegin_sees _)]
    exact ⟨fun _ _ => rfl, fun _ => Nat.zero_le 1⟩
  · exact fun m L L' hL hI => hI.of_eq rfl fun i => Nat.add_le_add_left (hL i) _
  · exact fun s R code choice r _ _ hs hI => begun_step hs hI

/-- `Begin` has been sent to a call that is parked, or is about to be. -/
theorem begin_sent {G : Guard (World Engine) (Frame Callback Code) (Option Choice)}
    (h : (machine Engine).Reaches G (Engine.start pool n) c) (i : ℕ)
    (hi : i < c.shared.mem.states.length) :
    .begin ∈ c.shared.mem.ops i ∨ .client (.invoke i .begin) ∈ c.frames := by
  revert hi
  refine h.preserved (I := fun s fs => i < s.mem.states.length →
    .begin ∈ s.mem.ops i ∨ .client (.invoke i .begin) ∈ fs) ?_ ?_
  · intro hi
    exact absurd hi (Nat.not_lt_zero i)
  · intro s f R x o _ hI hs hi
    rcases engine_step_cases hs with ⟨hf, hm, -⟩ | ⟨code, choice, r, rfl, -, hr, hm, hpush, -⟩
    · rw [hm] at hi ⊢
      refine (hI hi).imp_right fun hmem => ?_
      rcases Multiset.mem_cons.mp hmem with he | hmem
      · exact absurd he.symm (hf _)
      · exact Multiset.mem_add.mpr (.inr hmem)
    · rw [hm] at hi ⊢
      rcases hr.sends hi with hold | hrun
      · rcases hI hold with hop | hmem
        · exact .inl (ops_of_log hr.log hop)
        · rcases Multiset.mem_cons.mp hmem with he | hmem
          · cases he
            cases hr with
            | invoke _ hi =>
              left
              rw [hi.ops, if_pos rfl]
              exact List.mem_cons_self
          · exact .inr (Multiset.mem_add.mpr (.inr hmem))
      · refine .inr (Multiset.mem_add.mpr (.inl (Multiset.mem_coe.mpr (List.mem_append_left _ ?_))))
        rw [hpush]
        exact List.mem_map_of_mem hrun

theorem toBegin_pos {core : Core Callback} {fs : Multiset (Frame Callback Code)} {i : ℕ}
    (h : .client (.invoke i .begin) ∈ fs) : 0 < (toBegin i).total core fs := by
  have hle := le_weight (w := (toBegin i).frame) h
  simp only [Load.frame, toBegin, if_true] at hle
  exact hle.trans (Nat.le_add_left _ _)

theorem reaches_ops (h : (machine Engine).Reaches lonelyTaker (Engine.start pool n) c) :
    Ops c.shared.mem fun k => (pendingLoad k.1 k.2).total c.shared.toCore c.frames := by
  refine engine_invariant (w := fun k : Pending × ℕ => pendingLoad k.1 k.2)
    (J := fun s fs => Begun s.mem (fun i => (toBegin i).total s.toCore fs) ∧
      (∀ i, i < s.mem.states.length → .begin ∈ s.mem.ops i ∨ 0 < (toBegin i).total s.toCore fs) ∧
      Parked s.mem fun i => (closing i).total s.toCore fs) h (fun k => pendingLoad_sees k.1 k.2)
    (fun _ hc => ⟨reaches_begun hc, fun i hi => (begin_sent hc i hi).imp_right toBegin_pos,
      parked hc⟩) ?_ ?_ ?_
  · refine ⟨fun i _ => ⟨rfl, fun k => start_total (pendingLoad_sees k i) pool n⟩, fun i state hi => ?_⟩
    simp [Engine.start] at hi
  · exact fun m L L' hL hI => hI.of_eq rfl (fun _ => rfl) hL
  · rintro s R code choice r hg ⟨hbegun, hsent, hpark⟩ hs hI
    simp only [total_client] at hbegun hsent
    refine ops_step hs hg hbegun.once hsent (fun i state hi hc => ?_) hI
    have hin := hpark.alive i state hi hc
    rw [Memory.stateOf, if_neg (hpark.parked _ i hin).1, hin]

/-- Once the flag is set, `Cleanup` has been sent or is about to be. -/
theorem cleanup_sent {G : Guard (World Engine) (Frame Callback Code) (Option Choice)}
    (h : (machine Engine).Reaches G (Engine.start pool n) c) (i : ℕ) :
    ∀ state, c.shared.mem.states[i]? = some state → state.cleanedUp = true →
      .cleanup ∈ c.shared.mem.ops i ∨ .client (.invoke i .cleanup) ∈ c.frames := by
  refine h.preserved (I := fun s fs => ∀ state, s.mem.states[i]? = some state →
    state.cleanedUp = true → .cleanup ∈ s.mem.ops i ∨ .client (.invoke i .cleanup) ∈ fs) ?_ ?_
  · intro state hs
    simp [Engine.start] at hs
  · intro s f R x o _ hI hs state hst hc
    rcases engine_step_cases hs with ⟨hf, hm, -⟩ | ⟨code, choice, r, rfl, -, hr, hm, hpush, -⟩
    · rw [hm] at hst ⊢
      refine (hI state hst hc).imp_right fun hmem => ?_
      rcases Multiset.mem_cons.mp hmem with he | hmem
      · exact absurd he.symm (hf _)
      · exact Multiset.mem_add.mpr (.inr hmem)
    · rw [hm] at hst ⊢
      rcases hr.state hst with ⟨old, hold, -, hflag⟩ | ⟨-, hnew⟩
      · rcases hflag with hsame | ⟨rfl, -, hrun⟩
        · rcases hI old hold (hsame ▸ hc) with hop | hmem
          · exact .inl (ops_of_log hr.log hop)
          · rcases Multiset.mem_cons.mp hmem with he | hmem
            · cases he
              cases hr with
              | invoke _ hi =>
                left
                rw [hi.ops, if_pos rfl]
                exact List.mem_cons_self
            · exact .inr (Multiset.mem_add.mpr (.inr hmem))
        · refine .inr (Multiset.mem_add.mpr (.inl ?_))
          simp [Outcome.frames, hpush, hrun, Instr.toFrame]
      · simp [hc] at hnew

end Runs

/-! ## What `XAsyncGetResult` returns after -/

/-- The return of a call of `XAsyncGetResult` that took the result. -/
def Code.returnsResult : Code → Option ℕ
  | .ret (.getResult i _ _) => some i
  | _ => none

/-- Code that ends with `Cleanup` sent, unless another thread has set the flag. -/
def Code.closes : Code → Option ℕ
  | .cleanup i | .invoke i .cleanup => some i
  | _ => none

def clientCode : Frame Callback Code → Option Code
  | .client code => some code
  | _ => none

/-- In a stack, a result is returned only when `Cleanup` has been sent by then: it has been sent
already, or the code above, or one of the calls `seen` further up, sends it. -/
def Returns (m : Memory) : List ℕ → List (Frame Callback Code) → Prop
  | _, [] => True
  | seen, f :: k =>
      (∀ i ∈ (clientCode f).bind Code.returnsResult, .cleanup ∈ m.ops i ∨ i ∈ seen) ∧
        Returns m (((clientCode f).bind Code.closes).toList ++ seen) k

theorem Returns.mono {m m' : Memory} {seen seen' : List ℕ} {k : List (Frame Callback Code)}
    (h : Returns m seen k) (hops : ∀ i, .cleanup ∈ m.ops i → .cleanup ∈ m'.ops i)
    (hseen : ∀ i ∈ seen, i ∈ seen' ∨ .cleanup ∈ m'.ops i) : Returns m' seen' k := by
  induction k generalizing seen seen' with
  | nil => trivial
  | cons f k ih =>
    refine ⟨fun i hi => ?_, ih h.2 fun i hi => ?_⟩
    · rcases h.1 i hi with hop | hs
      · exact .inl (hops i hop)
      · exact (hseen i hs).symm
    · rcases List.mem_append.mp hi with hi | hi
      · exact .inl (List.mem_append_left _ hi)
      · exact (hseen i hi).imp_left (List.mem_append_right _)

theorem Returns.append {m : Memory} {seen : List ℕ} {fs k : List (Frame Callback Code)}
    (hf : ∀ f ∈ fs, (clientCode f).bind Code.returnsResult = none) (h : Returns m seen k) :
    Returns m seen (fs ++ k) := by
  induction fs generalizing seen with
  | nil => exact h
  | cons f fs ih =>
    obtain ⟨hhead, htail⟩ := List.forall_mem_cons.mp hf
    refine ⟨by simp [hhead], ih htail ?_⟩
    exact h.mono (fun _ h => h) fun i hi => .inl (List.mem_append_right _ hi)

section Steps
variable {m : Memory} {s : TaskQueues Callback} {code : Code} {x : Choice} {r : EngineStep}

/-- An instruction that is neither such a return nor goes on to one. -/
def Mute (i : Instr Callback Code) : Prop :=
  (clientCode i.toFrame).bind Code.returnsResult = none ∧
    ∀ g ∈ i.toFrame.continuation, g.returnsResult = none

@[simp] theorem mute_frame (g : Code) : Mute (.frame g) ↔ g.returnsResult = none := by
  simp [Mute, Instr.toFrame, Frame.continuation, clientCode]

@[simp] theorem mute_submit (a : Submission Callback Code) :
    Mute (.submit a) ↔ ∀ g ∈ a.onAccepted ++ a.onRefused, g.returnsResult = none := by
  simp [Mute, Instr.toFrame, Frame.continuation, clientCode]

@[simp] theorem mute_dispatch (d : Dispatch Code) :
    Mute (.dispatch d) ↔ ∀ g ∈ d.onTrue ++ d.onFalse, g.returnsResult = none := by
  simp [Mute, Instr.toFrame, Frame.continuation, clientCode]

@[simp] theorem mute_terminate (a : Termination Code) :
    Mute (.terminate a) ↔ ∀ g ∈ a.after, g.returnsResult = none := by
  simp [Mute, Instr.toFrame, Frame.continuation, clientCode]

/-- What a game asks of a queue goes on with code of the game. -/
theorem queue_mute (c : QueueCall ℕ Unit) (s : TaskQueues Callback) :
    (∀ i ∈ (gameCall s c).run, Mute i) ∧ ∀ k ∈ (gameCall s c).spawn, ∀ i ∈ k, Mute i := by
  cases c with
  | submitDelayedCallback queue port delayMs callback =>
    cases callback with
    | none => simp [gameCall, QueueCall.map, QueueCall.perform]
    | some id =>
      simp only [gameCall, QueueCall.map, Option.map_some, QueueCall.perform]
      split <;> simp
  | terminate queue wait terminated =>
    simp only [gameCall, QueueCall.map, QueueCall.perform]
    repeat' split
    all_goals simp [Code.returnsResult]
  | _ =>
    simp only [gameCall, QueueCall.map, QueueCall.perform]
    repeat' split
    all_goals simp [Code.returnsResult]

theorem Invokes.mute {i : ℕ} {state : AsyncState} {op : XAsyncOp} (h : Invokes m i state op r) :
    (∀ i ∈ r.run, Mute i) ∧ r.spawn = [] := by
  cases h <;> simp [Code.returnsResult, runSyncSubmission]

theorem Begins.mute {b identity : ℕ} {provider : Provider}
    (h : Begins m s b identity provider r) : (∀ i ∈ r.run, Mute i) ∧ r.spawn = [] := by
  cases h with
  | rejected => exact ⟨by simp, rfl⟩
  | unrouted => exact ⟨by simp, rfl⟩
  | parked => exact ⟨by simp [Code.returnsResult], rfl⟩

/-- Only the end of `XAsyncGetResult` prepares its return, under a cleanup. -/
theorem Steps.mute (h : Steps m s code x r) :
    ((∀ i ∈ r.run, Mute i) ∧ ∀ k ∈ r.spawn, ∀ i ∈ k, Mute i) ∨
    ∃ i hr out, r.run = [.frame (.cleanup i), .frame (.ret (.getResult i hr out))] ∧
      r.spawn = [] ∧ code.closes = none := by
  cases h with
  | queue hr =>
    subst hr
    left
    simp only [List.forall_mem_append, List.forall_mem_singleton]
    exact ⟨⟨(queue_mute _ _).1, by simp [Code.returnsResult]⟩, (queue_mute _ _).2⟩
  | begin h | run h | runSync _ h =>
    left
    simp only [resume, List.forall_mem_append, List.forall_mem_singleton]
    exact ⟨⟨h.mute.1, by simp [Code.returnsResult]⟩, by simp [h.mute.2]⟩
  | invoke _ hi => exact .inl ⟨hi.mute.1, by simp [hi.mute.2]⟩
  | getResultFailed | gotResult => exact .inr ⟨_, _, _, rfl, rfl, rfl⟩
  | @unresolved b c =>
    left
    cases c <;> simp [XAsyncCall.illegal, Code.returnsResult]
  | _ =>
    left
    simp [Code.returnsResult]

theorem Invokes.returned {i : ℕ} {state : AsyncState} {op : XAsyncOp} {value : Return}
    (h : Invokes m i state op r) (hv : .returned value ∈ r.mem.log) : .returned value ∈ m.log := by
  cases h <;> simpa using hv

theorem Memory.beginReturned_returned {b : ℕ} {j : Option ℕ} {provider : Provider} {hr : HRESULT}
    {i : ℕ} {hr' : HRESULT} {out : Option ℕ}
    (h : .returned (.getResult i hr' out) ∈ (m.beginReturned b j provider hr).log) :
    .returned (.getResult i hr' out) ∈ m.log := by
  cases provider <;> simpa [Memory.beginReturned] using h

theorem Begins.returned {b identity i : ℕ} {provider : Provider} {hr : HRESULT} {out : Option ℕ}
    (h : Begins m s b identity provider r) (hv : .returned (.getResult i hr out) ∈ r.mem.log) :
    .returned (.getResult i hr out) ∈ m.log := by
  cases h with
  | rejected => exact Memory.beginReturned_returned hv
  | unrouted => exact Memory.beginReturned_returned (m := m.setBlock b _) hv
  | parked hb hn hroute hq hm hstate =>
    subst hm
    simpa using hv

/-- Only that return enters the history as such. -/
theorem Steps.returned (h : Steps m s code x r) {i : ℕ} {hr : HRESULT} {out : Option ℕ}
    (hv : .returned (.getResult i hr out) ∈ r.mem.log) :
    .returned (.getResult i hr out) ∈ m.log ∨ code = .ret (.getResult i hr out) := by
  cases h with
  | ret =>
    rcases List.mem_cons.mp hv with he | hv
    · cases he
      exact .inr rfl
    · exact .inl hv
  | begin h | run h | runSync _ h => exact .inl (h.returned hv)
  | invoke _ hi => exact .inl (hi.returned hv)
  | beginReturn => exact .inl (Memory.beginReturned_returned hv)
  | _ =>
    left
    simpa using hv

end Steps

section Runs
variable {c : Config (World Engine) (Frame Callback Code)} {pool n : ℕ}
  {G : Guard (World Engine) (Frame Callback Code) (Option Choice)}

/-- No continuation that waits in a call of the queue is such a return. -/
theorem continuations_mute (h : (machine Engine).Reaches G (Engine.start pool n) c) :
    ∀ f ∈ c.frames, ∀ g ∈ f.continuation, g.returnsResult = none := by
  refine h.preserved (I := fun _ fs => ∀ f ∈ fs, ∀ g ∈ f.continuation, g.returnsResult = none)
    ?_ ?_
  · intro f hf
    obtain ⟨k, hk, hfk⟩ := List.mem_flatten.mp (Multiset.mem_coe.mp hf)
    rcases List.mem_cons.mp hk with rfl | hk
    · rw [List.mem_singleton.mp hfk]
      simp [Frame.continuation]
    · rw [List.eq_of_mem_replicate hk, List.mem_singleton] at hfk
      subst hfk
      simp [Frame.continuation]
  · intro s f R x o _ hI hs
    obtain ⟨hf, hR⟩ := Multiset.forall_mem_cons.mp hI
    refine fun g hg => (Multiset.mem_add.mp hg).elim (fun hg => ?_) (hR g)
    have hnew : (∀ g ∈ o.push, ∀ code ∈ g.continuation, code.returnsResult = none) ∧
        ∀ k ∈ o.spawn, ∀ g ∈ k, ∀ code ∈ g.continuation, code.returnsResult = none := by
      rcases engine_step_cases hs with ⟨-, -, hp, hsp⟩ | ⟨code, choice, r, rfl, -, hr, -, hp, hsp⟩
      · exact ⟨fun g hg code hc => hf code ((hp g hg).continuation code hc),
          fun k hk g hg code hc => hf code ((hsp k hk g hg).continuation code hc)⟩
      · rw [hp, hsp]
        simp only [List.forall_mem_map]
        rcases hr.mute with ⟨hrun, hspawn⟩ | ⟨i, hr, out, hrun, hspawn, -⟩
        · exact ⟨fun i hi => (hrun i hi).2, fun k hk i hi => (hspawn k hk i hi).2⟩
        · rw [hrun, hspawn]
          simp [Instr.toFrame, Frame.continuation]
    exact forall_frames.mpr hnew g hg

/-- The step of code that closes a call: it sends `Cleanup`, or is about to, or finds the flag set
by another thread, and then nothing is left to send. -/
theorem returns_closing {s : World Engine} {R : Multiset (Frame Callback Code)}
    {k : List (Frame Callback Code)} {code : Code} {choice : Choice} {r : EngineStep} {i : ℕ}
    {o : Outcome (World Engine) (Frame Callback Code)} (hcl : code.closes = some i)
    (hr : Steps s.mem s.toTaskQueues code choice r)
    (hsent : ∀ i state, s.mem.states[i]? = some state → state.cleanedUp = true →
      .cleanup ∈ s.mem.ops i ∨ .client (.invoke i .cleanup) ∈ .client code ::ₘ R)
    (hg : takesAlone s R code = true)
    (hlog : ∀ i, .cleanup ∈ s.mem.ops i → .cleanup ∈ o.shared.mem.ops i)
    (hP : Returns s.mem [] (.client code :: k)) (hp : o.push = r.run.map Instr.toFrame)
    (hm : o.shared.mem = r.mem)
    (hpush : ∀ g ∈ o.push, (clientCode g).bind Code.returnsResult = none) :
    Returns o.shared.mem [] (o.push ++ k) := by
  have h2 : Returns s.mem [i] k := by simpa [clientCode, hcl] using hP.2
  have hdone : .cleanup ∈ o.shared.mem.ops i → Returns o.shared.mem [] (o.push ++ k) := by
    intro hop
    refine Returns.append hpush (h2.mono hlog fun j hj => .inr ?_)
    rw [List.mem_singleton.mp hj]
    exact hop
  cases hr with
  | cleanup hs hc =>
    simp only [Code.closes, Option.some.injEq] at hcl
    subst hcl
    rw [hp]
    refine ⟨by simp [clientCode, Instr.toFrame, Code.returnsResult], ?_⟩
    exact h2.mono hlog fun j hj => .inl (by simpa [clientCode, Instr.toFrame, Code.closes] using hj)
  | @cleanupAgain i state x hs hc =>
    simp only [Code.closes, Option.some.injEq] at hcl
    subst hcl
    apply hdone
    rcases hsent i state hs hc with hop | hmem
    · exact hlog i hop
    · have hquiet := of_decide_eq_true hg state hs
      rw [if_pos hc] at hquiet
      rcases Multiset.mem_cons.mp hmem with he | hmem
      · simp at he
      · have hle := le_weight (w := (pendingLoad .cleanup i).frame) hmem
        simp [Load.frame, pendingLoad, Load.total] at hle hquiet
        omega
  | @invoke j op state r x hs hi =>
    cases op <;> simp [Code.closes] at hcl
    subst hcl
    apply hdone
    rw [hm, hi.ops, if_pos rfl]
    exact List.mem_cons_self
  | _ => simp [Code.closes] at hcl

theorem reaches_returns (h : (machine Engine).Reaches lonelyTaker (Engine.start pool n) c) :
    ∀ k ∈ c.threads, Returns c.shared.mem [] k := by
  have hops : ∀ {s : World Engine} {f x o}, (machine Engine).step s f x = some o →
      ∀ i, .cleanup ∈ s.mem.ops i → .cleanup ∈ o.shared.mem.ops i := by
    intro s f x o hs i hop
    rcases engine_step_cases hs with ⟨-, hm, -⟩ | ⟨code, choice, r, -, -, hr, hm, -⟩
    · exact hm ▸ hop
    · exact hm ▸ ops_of_log hr.log hop
  refine h.stacks (P := fun s k => Returns s.mem [] k)
    (J := fun s fs => (∀ f ∈ fs, ∀ g ∈ f.continuation, g.returnsResult = none) ∧
      ∀ i state, s.mem.states[i]? = some state → state.cleanedUp = true →
        .cleanup ∈ s.mem.ops i ∨ .client (.invoke i .cleanup) ∈ fs)
    (fun _ h => ⟨continuations_mute h, cleanup_sent h⟩) ?_ ?_ ?_
  · intro k hk
    rw [← List.append_nil k]
    refine Returns.append (fun f hf => ?_) trivial
    rcases List.mem_cons.mp hk with rfl | hk
    · rw [List.mem_singleton.mp hf]
      rfl
    · rw [List.eq_of_mem_replicate hk, List.mem_singleton] at hf
      subst hf
      rfl
  · intro s f x o k hs hk
    exact hk.mono (hops hs) fun i hi => .inl hi
  · rintro s f R k x o hg ⟨hmute, hsent⟩ hP hs
    have hlog := hops hs
    rcases engine_step_cases hs with ⟨hf, hm, hp, hsp⟩ | ⟨code, choice, r, rfl, rfl, hr, hm, hp, hsp⟩
    · -- the queue starts no such return
      have hnone : ∀ g : Frame Callback Code, Continues Engine.body Engine.monitor f g →
          (clientCode g).bind Code.returnsResult = none := by
        intro g hc
        cases g with
        | client code =>
          rcases hc.code code rfl with hin | ⟨callback, canceled, hin⟩ | ⟨context, handle, kind, hin⟩
          · exact hmute f (Multiset.mem_cons_self _ _) code hin
          · cases callback <;> cases canceled <;> simp [Callback.code] at hin <;> subst hin <;> rfl
          · simp only [List.mem_singleton] at hin
            subst hin
            rfl
        | _ => rfl
      have hk : Returns o.shared.mem [] k := by
        have hcl : (clientCode f).bind Code.closes = none := by
          cases f with
          | client code => exact absurd rfl (hf code)
          | _ => rfl
        have h2 := hP.2
        rw [hcl] at h2
        exact h2.mono hlog fun i hi => .inl hi
      refine ⟨hk.append fun g hg => hnone g (hp g hg), fun t ht => ?_⟩
      rw [← List.append_nil t]
      exact Returns.append (fun g hg => hnone g (hsp t ht g hg)) trivial
    · have hkeep : code.closes = none → Returns o.shared.mem [] k := by
        intro hcl
        have h2 := hP.2
        simp only [clientCode, Option.bind_some, hcl] at h2
        exact h2.mono hlog fun i hi => .inl hi
      rcases hr.mute with ⟨hrun, hspawn⟩ | ⟨i, hr', out, hrun, hspawn, hcl⟩
      · have hpush : ∀ g ∈ o.push, (clientCode g).bind Code.returnsResult = none := by
          rw [hp]
          exact List.forall_mem_map.mpr fun i hi => (hrun i hi).1
        refine ⟨?_, fun t ht => ?_⟩
        · cases hcl : code.closes with
          | none => exact (hkeep hcl).append hpush
          | some i => exact returns_closing hcl hr hsent hg hlog hP hp hm hpush
        · rw [hsp] at ht
          obtain ⟨is, his, rfl⟩ := List.mem_map.mp ht
          rw [← List.append_nil (is.map _)]
          refine Returns.append (fun g hg' => ?_) trivial
          obtain ⟨i, hi, rfl⟩ := List.mem_map.mp hg'
          exact (hspawn is his i hi).1
      · rw [hp, hsp, hrun, hspawn]
        refine ⟨⟨by simp [clientCode, Instr.toFrame, Code.returnsResult], ?_, ?_⟩, by simp⟩
        · intro j hj
          right
          simpa [clientCode, Instr.toFrame, Code.returnsResult, Code.closes, eq_comm] using hj
        · exact (hkeep hcl).mono (fun _ h => h) fun _ hi => by simp at hi

/-- Every result returned so far was returned after `Cleanup` had been sent. -/
theorem returned_closed (h : (machine Engine).Reaches lonelyTaker (Engine.start pool n) c) :
    ∀ i hr out, .returned (.getResult i hr out) ∈ c.shared.mem.log →
      .cleanup ∈ c.shared.mem.ops i := by
  induction h with
  | refl => simp [Engine.start]
  | @tail b d hab hbd ih =>
    intro i hr out hlog
    obtain ⟨t, x, -, hf⟩ := hbd
    obtain ⟨f, k, o, hk, hs, rfl⟩ := fire_cases hf
    have hret := reaches_returns hab _ (List.mem_of_getElem? hk)
    rcases engine_step_cases hs with ⟨-, hm, -⟩ | ⟨code, choice, r, rfl, -, hr', hm, -⟩
    · rw [hm] at hlog ⊢
      exact ih i hr out hlog
    · rw [hm] at hlog ⊢
      rcases hr'.returned hlog with hold | rfl
      · exact ops_of_log hr'.log (ih i hr out hold)
      · refine ops_of_log hr'.log ?_
        simpa [clientCode, Code.returnsResult] using hret.1 i (by simp [clientCode, Code.returnsResult])

/-- A provider receives `Begin`, then `DoWork` with at most one `Cancel`, then at most one
`GetResult`, then at most one `Cleanup` and nothing more; and exactly one `Cleanup` once
`XAsyncGetResult` has returned with the result taken. Before `Begin`, which the call is about to
receive, it receives nothing. -/
theorem provider_receives_in_order (h : (machine Engine).Reaches lonelyTaker (Engine.start pool n) c)
    {i : ℕ} (hi : i < c.shared.mem.states.length) :
    (c.shared.mem.ops i = [] ∧ .client (.invoke i .begin) ∈ c.frames ∨
        Ordered (c.shared.mem.ops i).reverse) ∧
      ((∃ hr out, .returned (.getResult i hr out) ∈ c.shared.mem.log) →
        (c.shared.mem.ops i).count .cleanup = 1) := by
  have hcall := (reaches_ops h).call i _ (List.getElem?_eq_getElem hi)
  have hstage : ∃ stage, stageOf (c.shared.mem.ops i) = some stage := by
    cases hcall with
    | parked hs | working hs | delivering hs | delivered hs | closed hs => exact ⟨_, hs⟩
    | closing hs =>
      rcases hs with hs | ⟨canceled, hs⟩ <;> exact ⟨_, hs⟩
  obtain ⟨stage, hs⟩ := hstage
  constructor
  · by_cases hnil : c.shared.mem.ops i = []
    · refine .inl ⟨hnil, (begin_sent h i hi).resolve_left ?_⟩
      rw [hnil]
      exact List.not_mem_nil
    · exact .inr (stageOf_ordered hs hnil)
  · rintro ⟨hr, out, hret⟩
    have hcl := returned_closed h i hr out hret
    rw [← List.count_reverse]
    exact count_cleanup (stageOf_ordered hs (List.ne_nil_of_mem hcl)) (List.mem_reverse.mpr hcl)

end Runs

/-- A call is begun, completed, and its result is taken. -/
theorem provider_receives_in_order_taken :
    ∃ c, (machine Engine).Reaches lonelyTaker (Engine.start 2 1) c ∧
      (0 < c.shared.mem.states.length ∧
        .returned (.getResult 0 S_OK none) ∈ c.shared.mem.log) ∧
      Ordered (c.shared.mem.ops 0).reverse ∧ (c.shared.mem.ops 0).count .cleanup = 1 := by
  have h : ((machine Engine).run lonelyTaker
      ([Engine.does (.begin 1 0 true), Engine.does .finish, Engine.does .finish,
          Engine.does (.returns S_OK)] ++
        Engine.steps 1 1 ++ [Engine.does (.xasync 1 (.complete S_OK 8))] ++ Engine.steps 1 2 ++
        [Engine.does (.xasync 1 (.getResult 0 8))] ++ Engine.steps 1 3 ++
        [Engine.does (.returns S_OK)] ++ Engine.steps 1 4 ++ [Engine.does (.returns S_OK)] ++
        Engine.steps 1 2)
      (Engine.start 2 1)).any (fun c => decide (0 < c.shared.mem.states.length ∧
        .returned (.getResult 0 S_OK none) ∈ c.shared.mem.log ∧ c.shared.mem.ops 0 ≠ [])) =
          true := by
    decide +kernel
  obtain ⟨c, hr, hc⟩ := Machine.Reaches.of_run_any h
  obtain ⟨hlen, hret, hsent⟩ := of_decide_eq_true hc
  have hord := provider_receives_in_order hr hlen
  exact ⟨c, hr, ⟨hlen, hret⟩, hord.1.resolve_left fun he => hsent he.1, hord.2 ⟨_, _, hret⟩⟩

/-- A pass that `XAsyncSchedule` has queued reaches the provider after `Cleanup`: the call is
completed without a result and polled first. -/
theorem provider_works_after_cleanup :
    ∃ c, (machine Engine).Reaches anyStep (Engine.start 2 1) c ∧
      (c.shared.mem.ops 0).reverse = [.begin, .cleanup, .doWork] := by
  have h : ((machine Engine).run anyStep
      ([Engine.does (.begin 1 0 true), Engine.does .finish, Engine.does .finish,
          Engine.does (.returns S_OK)] ++
        Engine.steps 1 1 ++ [Engine.does (.xasync 1 (.schedule 0))] ++ Engine.steps 1 6 ++
        [Engine.does (.xasync 1 (.complete S_OK 0))] ++ Engine.steps 1 2 ++
        [Engine.does (.xasync 1 (.getStatus false))] ++ Engine.steps 1 3 ++ Engine.steps 2 3)
      (Engine.start 2 1)).any (fun c => decide (
        (c.shared.mem.ops 0).reverse = [.begin, .cleanup, .doWork])) = true := by
    decide +kernel
  obtain ⟨c, hr, hc⟩ := Machine.Reaches.of_run_any h
  exact ⟨c, hr, of_decide_eq_true hc⟩

end XGameRuntime.XAsync
