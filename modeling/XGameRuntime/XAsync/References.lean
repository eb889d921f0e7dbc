import XGameRuntime.Concurrency.Traces
import XGameRuntime.TaskQueue.Submitted
import XGameRuntime.XAsync.Parking

/-! # The references to a call

`Arc::into_raw` and `Arc::from_raw` as tokens. A block holds one to its call, from `XAsyncBegin` to
the `take_state` of the cleanup, and each submission of `work_callback` carries one, which is taken
back when the port refuses it or the callback is invoked. Each token is taken back once.
-/

namespace XGameRuntime.XAsync
open Concurrency TaskQueue
set_option autoImplicit false

/-! ## Tokens -/

inductive Reference where
  /-- `XAsyncBegin` leaves a reference to a call in its block. -/
  | parked (state : ℕ)
  /-- A reference to a call goes with a submission. -/
  | handed (state : ℕ)
  /-- The cleanup of a call detaches from the block whatever it finds there. -/
  | detached (state : ℕ) (taken : Option ℕ)
  deriving DecidableEq

def Callback.handed : Callback → Option Reference
  | .work i => some (.handed i)
  | _ => none

def handedBy : Frame Callback Code → Option Reference
  | .notify a => a.callback.handed
  | _ => none

def parkedBy (m m' : Memory) : List Reference :=
  (List.range' m.states.length (m'.states.length - m.states.length)).map .parked

/-- The end of a cleanup is its `take_state`. -/
def detachedBy (m : Memory) : Code → List Reference
  | .afterOp i .cleanup _ _ =>
      [.detached i (m.states[i]?.bind fun state => m.stateOf state.block)]
  | _ => []

/-- The tokens of the blocks that a section of the engine makes and takes back. -/
def slotTokens (m : Memory) (code : Code) (m' : Memory) : List Reference :=
  parkedBy m m' ++ detachedBy m code

def tokensOf (m : Memory) (f : Frame Callback Code)
    (o : Outcome (World Engine) (Frame Callback Code)) : List Reference :=
  match f with
  | .client code => (o.push ++ o.spawn.flatten).filterMap handedBy ++ slotTokens m code o.shared.mem
  | _ => []

/-- The engine with a trace of its tokens. -/
def tokens : Notes (World Engine) (Frame Callback Code) Reference Unit where
  entries s f _ o := tokensOf s.mem f o
  pass _ _ _ _ _ := ()
  blank := ()

/-- How many references to call `i` have been turned into tokens. -/
def intoRaw (trace : List Reference) (i : ℕ) : ℕ := trace.count (.parked i) + trace.count (.handed i)

/-- How many tokens of call `i` have been taken back: by `take_state`, after a refused submission,
and by `work_callback`. -/
def fromRaw (s : Core Callback) (trace : List Reference) (i : ℕ) : ℕ :=
  trace.count (.detached i (some i)) + (s.refused.map Task.callback).count (.work i) +
    (s.started.map fun call => call.1.callback).count (.work i)

/-! ## Blocks -/

section Slots
variable {m m' : Memory} {s : TaskQueues Callback} {code : Code} {x : Choice} {r : EngineStep}

/-- What a section does to the `internal` areas. -/
inductive Slots (m : Memory) : Code → Memory → Prop where
  | quiet {code : Code} {m' : Memory} (hcode : ∀ i hr out, code ≠ .afterOp i .cleanup hr out)
      (hlen : m'.states.length = m.states.length)
      (hin : ∀ b, (m'.blocks b).internal = (m.blocks b).internal) : Slots m code m'
  | parks {m' : Memory} {state : AsyncState} (hlen : m'.states.length = m.states.length + 1)
      (hnew : m'.states[m.states.length]? = some state)
      (hfree : (m.blocks state.block).internal = none)
      (hin : ∀ b, (m'.blocks b).internal =
        if b = state.block then some m.states.length else (m.blocks b).internal) : Slots m .game m'
  | detaches {i : ℕ} {hr : HRESULT} {out : Option ℕ} {state : AsyncState}
      (hs : m.states[i]? = some state) : Slots m (.afterOp i .cleanup hr out) (m.takeState state.block)

theorem Slots.unwritten (hcode : ∀ i hr out, code ≠ .afterOp i .cleanup hr out)
    (hstates : m'.states.length = m.states.length) (hblocks : m'.blocks = m.blocks) :
    Slots m code m' :=
  .quiet hcode hstates fun b => by rw [hblocks]

theorem Begins.slots {b identity : ℕ} {provider : Provider} (h : Begins m s b identity provider r) :
    Slots m .game r.mem := by
  cases h with
  | rejected hc =>
    exact .unwritten nofun (congrArg _ (m.beginReturned_states ..)) (m.beginReturned_blocks ..)
  | unrouted hb hn hroute hq =>
    refine .quiet nofun (congrArg _ (Memory.beginReturned_states ..)) fun c => ?_
    rw [Memory.beginReturned_blocks]
    exact internal_setBlock m _ _ _ c
  | @parked route q routed state hb hn hroute hq hm hstate =>
    have hblock : state.block = b := by rw [hstate]
    have hlen : routed.states = m.states := by rw [hm]; rfl
    refine @Slots.parks _ _ state ?_ ?_ ?_ fun c => ?_
    · rw [Memory.park_states, hlen, List.length_append]
      rfl
    · rw [Memory.park_states, hlen, List.getElem?_concat_length]
    · rw [hblock]
      exact stateOf_eq_none hb hn
    · rw [← hlen]
      by_cases hc : c = state.block
      · simp [Memory.park, hc]
      · rw [if_neg hc]
        simp only [Memory.park, Memory.record_blocks, Memory.setBlock_blocks, Function.update_of_ne hc]
        rw [hm]
        exact internal_setBlock m _ _ _ c

theorem Steps.slots (h : Steps m s code x r) : Slots m code r.mem := by
  cases h with
  | setBlock => exact .quiet nofun rfl fun c => internal_setBlock m _ _ _ c
  | begin h | run h => exact h.slots
  | runSync _ h =>
    have hslots := h.slots
    cases hslots with
    | quiet hcode hlen hin => exact .quiet hcode hlen hin
    | parks hlen hnew hfree hin => exact .parks hlen hnew hfree hin
  | @invoke i op state r x hs hi =>
    exact .unwritten nofun (congrArg _ hi.same.1) hi.same.2
  | cleanedUp hs => exact .detaches hs
  | beginReturn hs =>
    exact .unwritten nofun (congrArg _ (m.beginReturned_states ..)) (m.beginReturned_blocks ..)
  | complete | cancel | didWork | getResult | beginFailed | cleanup =>
    exact .unwritten nofun List.length_set rfl
  | _ => exact .unwritten nofun rfl rfl

/-- The tokens of the blocks, by the trace: one for each call, in its block until its cleanup
detaches it from there. -/
structure Slotted (m : Memory) (trace : List Reference) : Prop where
  parked : ∀ i, trace.count (.parked i) = if i < m.states.length then 1 else 0
  slot : ∀ i state, m.states[i]? = some state → trace.count (.detached i (some i)) +
    (if (m.blocks state.block).internal = some i then 1 else 0) = 1
  detached : ∀ i taken, .detached i taken ∈ trace → taken = some i ∧ i < m.states.length

theorem parkedBy_kept (hlen : m'.states.length = m.states.length) : parkedBy m m' = [] := by
  rw [parkedBy, hlen, Nat.sub_self]
  rfl

theorem detachedBy_other (hcode : ∀ i hr out, code ≠ .afterOp i .cleanup hr out) :
    detachedBy m code = [] := by
  cases code with
  | afterOp i op hr out =>
    cases op with
    | cleanup => exact absurd rfl (hcode i hr out)
    | _ => rfl
  | _ => rfl

/-- The block of a call stays its block. -/
theorem Steps.block (h : Steps m s code x r) {i : ℕ} {state state' : AsyncState}
    (hs : m.states[i]? = some state) (hs' : r.mem.states[i]? = some state') :
    state'.block = state.block := by
  obtain ⟨new, hnew, hsame⟩ := h.keeps hs
  rw [hs', Option.some.injEq] at hnew
  subst hnew
  exact hsame.block

theorem slotted_step {L : ℕ → ℕ} {trace : List Reference} (h : Steps m s code x r)
    (hP : Parked m fun i => L i + (closing i).code code) (hI : Slotted m trace) :
    Slotted r.mem (slotTokens m code r.mem ++ trace) := by
  have hold : ∀ i state', r.mem.states[i]? = some state' → i < m.states.length →
      ∃ state, m.states[i]? = some state ∧ state.block = state'.block := by
    intro i state' hs' hlt
    have hs := List.getElem?_eq_getElem hlt
    exact ⟨_, hs, (h.block hs hs').symm⟩
  have hslots := h.slots
  clear h
  generalize r.mem = m' at hold hslots ⊢
  cases hslots with
  | quiet hcode hlen hin =>
    rw [slotTokens, parkedBy_kept hlen, detachedBy_other hcode, List.append_nil]
    refine ⟨fun i => ?_, fun i state' hs' => ?_, fun i taken hm => ?_⟩
    · rw [List.nil_append, hlen]
      exact hI.parked i
    · have hlt := (List.getElem?_eq_some_iff.mp hs').1
      obtain ⟨state, hs, hblock⟩ := hold i state' hs' (hlen ▸ hlt)
      rw [List.nil_append, ← hblock, hin]
      exact hI.slot i state hs
    · rw [hlen]
      exact hI.detached i taken hm
  | @parks _ new hlen hnew hfree hin =>
    have hentries : slotTokens m .game m' = [.parked m.states.length] := by
      rw [slotTokens, parkedBy, hlen, Nat.add_sub_cancel_left]
      rfl
    rw [hentries]
    refine ⟨fun i => ?_, fun i state' hs' => ?_, fun i taken hm => ?_⟩
    · rw [List.singleton_append, List.count_cons, hI.parked i, hlen]
      by_cases hi : m.states.length = i
      · simp [hi]
      · have hlt : i < m.states.length + 1 ↔ i < m.states.length := by omega
        simp [hi, hlt]
    · have hlt := (List.getElem?_eq_some_iff.mp hs').1
      have hother : Reference.parked m.states.length ≠ .detached i (some i) := by simp
      rw [List.singleton_append, List.count_cons_of_ne hother, hin]
      by_cases hi : i = m.states.length
      · subst hi
        obtain rfl : new = state' := by rwa [hnew, Option.some.injEq] at hs'
        have hnone : trace.count (.detached m.states.length (some m.states.length)) = 0 := by
          refine List.count_eq_zero.mpr fun hm => ?_
          exact absurd (hI.detached _ _ hm).2 (Nat.lt_irrefl _)
        rw [hnone, if_pos rfl, if_pos rfl]
      · obtain ⟨state, hs, hblock⟩ := hold i state' hs' (by omega)
        have hslot := hI.slot i state hs
        rw [← hblock]
        by_cases hb : state.block = new.block
        · rw [hb, hfree, if_neg (Option.some_ne_none _).symm] at hslot
          rw [if_pos hb, if_neg (fun he => hi (Option.some.inj he).symm)]
          exact hslot
        · rw [if_neg hb]
          exact hslot
    · obtain hm | hm := List.mem_cons.mp hm
      · cases hm
      · obtain ⟨htaken, hlt⟩ := hI.detached i taken hm
        exact ⟨htaken, by omega⟩
  | @detaches i hr out state hs =>
    obtain ⟨state', hs', hcleaned, hin⟩ := hP.closing i (by simp [closing])
    obtain rfl : state = state' := by rwa [hs, Option.some.injEq] at hs'
    have hb := (hP.parked _ i hin).1
    have htaken : m.stateOf state.block = some i := by rw [Memory.stateOf, if_neg hb, hin]
    have hentries : slotTokens m (.afterOp i .cleanup hr out) (m.takeState state.block) =
        [.detached i (some i)] := by
      rw [slotTokens, parkedBy_kept (by rw [m.takeState_states]), detachedBy, hs, Option.bind_some,
        htaken]
      rfl
    have hself : ((m.takeState state.block).blocks state.block).internal = none := by
      simp [Memory.takeState, hb]
    have hother : ∀ b, b ≠ state.block →
        ((m.takeState state.block).blocks b).internal = (m.blocks b).internal := by
      intro b hne
      simp [Memory.takeState, hb, Function.update_of_ne hne]
    rw [hentries]
    refine ⟨fun j => ?_, fun j other hj => ?_, fun j taken hm => ?_⟩
    · have hother : Reference.detached i (some i) ≠ .parked j := by simp
      rw [m.takeState_states, List.singleton_append, List.count_cons_of_ne hother]
      exact hI.parked j
    · rw [m.takeState_states] at hj
      have hslot := hI.slot j other hj
      rw [List.singleton_append]
      by_cases hij : j = i
      · subst hij
        obtain rfl : state = other := by rwa [hs, Option.some.injEq] at hj
        rw [hin, if_pos rfl] at hslot
        rw [List.count_cons_self, hself, if_neg (Option.some_ne_none _).symm]
        exact hslot
      · rw [List.count_cons_of_ne (fun he => hij (Reference.detached.inj he).1.symm)]
        by_cases hob : other.block = state.block
        · rw [hob, hin, if_neg (fun he => hij (Option.some.inj he).symm)] at hslot
          rw [hob, hself, if_neg (Option.some_ne_none _).symm]
          exact hslot
        · rw [hother _ hob]
          exact hslot
    · rw [m.takeState_states]
      obtain hm | hm := List.mem_cons.mp hm
      · obtain ⟨rfl, rfl⟩ := Reference.detached.inj hm
        exact ⟨rfl, (List.getElem?_eq_some_iff.mp hs).1⟩
      · exact hI.detached j taken hm

theorem Slotted.append {l trace : List Reference} (hI : Slotted m trace)
    (hl : ∀ e ∈ l, ∃ i, e = .handed i) : Slotted m (l ++ trace) := by
  have hkept : ∀ e, (∀ i, e ≠ .handed i) → (l ++ trace).count e = trace.count e := by
    intro e he
    have hzero : l.count e = 0 := by
      refine List.count_eq_zero.mpr fun hm => ?_
      obtain ⟨i, hi⟩ := hl e hm
      exact he i hi
    rw [List.count_append, hzero, Nat.zero_add]
  refine ⟨fun i => ?_, fun i state hs => ?_, fun i taken hm => ?_⟩
  · have hparked : ∀ j, Reference.parked i ≠ .handed j := nofun
    rw [hkept _ hparked]
    exact hI.parked i
  · have hdetached : ∀ j, Reference.detached i (some i) ≠ .handed j := nofun
    rw [hkept _ hdetached]
    exact hI.slot i state hs
  · obtain hm | hm := List.mem_append.mp hm
    · obtain ⟨j, hj⟩ := hl _ hm
      cases hj
    · exact hI.detached i taken hm

end Slots

/-! ## Submissions -/

section Handed

theorem handed_cases {callback : Callback} {e : Reference} (h : callback.handed = some e) :
    ∃ i, e = .handed i := by
  cases callback with
  | work i => exact ⟨i, (Option.some.inj h).symm⟩
  | _ => cases h

theorem handedBy_cases {f : Frame Callback Code} {e : Reference} (h : handedBy f = some e) :
    ∃ i, e = .handed i := by
  cases f with
  | notify a => exact handed_cases h
  | _ => cases h

/-- A token goes with each submission of `work_callback`. -/
theorem handed_count (is : List (Instr Callback Code)) (i : ℕ) :
    ((is.map Instr.toFrame).filterMap handedBy).count (.handed i) =
      ((is.map Instr.toFrame).map Frame.offers).sum.count (.work i) := by
  induction is with
  | nil => rfl
  | cons a is ih =>
    rw [List.map_cons, List.map_cons, List.sum_cons, Multiset.count_add, ← ih]
    cases a with
    | submit a =>
      simp only [Instr.toFrame, Frame.offers, Multiset.count_singleton]
      cases hc : a.callback with
      | work j =>
        have hby : handedBy (.notify a) = some (.handed j) := by rw [handedBy, hc, Callback.handed]
        rw [List.filterMap_cons_some hby, List.count_cons]
        by_cases hij : i = j
        · simp [hij, Nat.add_comm]
        · have hji : j ≠ i := fun he => hij he.symm
          simp [hij, hji]
      | _ =>
        have hby : handedBy (.notify a) = none := by
          rw [handedBy, hc]
          rfl
        rw [List.filterMap_cons_none hby, if_neg (by simp), Nat.zero_add]
    | _ =>
      rw [List.filterMap_cons_none rfl]
      exact (Nat.zero_add _).symm

theorem slotTokens_handed (m m' : Memory) (code : Code) (i : ℕ) :
    (slotTokens m code m').count (.handed i) = 0 := by
  refine List.count_eq_zero.mpr fun hm => ?_
  obtain hm | hm := List.mem_append.mp hm
  · obtain ⟨j, -, hj⟩ := List.mem_map.mp hm
    cases hj
  · unfold detachedBy at hm
    split at hm
    · cases List.mem_singleton.mp hm
    · cases hm

end Handed

/-! ## Runs -/

section Runs
variable {pool n : ℕ}

/-- The tokens that the trace has handed out are those of what has been submitted. -/
structure Referenced (s : World Engine) (trace : List Reference) (fs : Multiset (Frame Callback Code)) :
    Prop where
  slotted : Slotted s.mem trace
  handed : ∀ i, trace.count (.handed i) = (s.submitted fs).count (.work i)

theorem step_referenced {s : World Engine} {f : Frame Callback Code} {x : Option Choice}
    {o : Outcome (World Engine) (Frame Callback Code)} {R : Multiset (Frame Callback Code)}
    {trace : List Reference} (h : (machine Engine).step s f x = some o)
    (hP : Parked s.mem fun i => (closing i).total s.toCore (f ::ₘ R))
    (hI : Referenced s trace (f ::ₘ R)) :
    Referenced o.shared (tokensOf s.mem f o ++ trace) (o.frames + R) := by
  obtain ⟨hf, hmem, -⟩ | ⟨code, choice, r, rfl, rfl, hsteps, hmem, hpush, hspawn⟩ :=
    engine_step_cases h
  · have hnone : tokensOf s.mem f o = [] := by
      cases f with
      | client code => exact absurd rfl (hf code)
      | _ => rfl
    rw [hnone, List.nil_append]
    refine ⟨hmem ▸ hI.slotted, fun i => ?_⟩
    rw [queue_submitted h hf]
    exact hI.handed i
  · have hcode : (fun i => (closing i).total s.toCore (.client code ::ₘ R)) =
        fun i => (closing i).total s.toCore R + (closing i).code code := by
      funext i
      simp only [Load.total, weight_cons, Load.frame]
      omega
    rw [hcode] at hP
    rw [tokensOf, List.append_assoc, hmem]
    refine ⟨?_, fun i => ?_⟩
    · rw [hmem]
      refine (slotted_step hsteps hP hI.slotted).append fun e he => ?_
      obtain ⟨g, -, hg⟩ := List.mem_filterMap.mp he
      exact handedBy_cases hg
    · have hframes : o.push ++ o.spawn.flatten = (r.run ++ r.spawn.flatten).map Instr.toFrame := by
        rw [hpush, hspawn, List.map_append, List.map_flatten]
      have hweight : weight Frame.offers o.frames =
          (((r.run ++ r.spawn.flatten).map Instr.toFrame).map Frame.offers).sum := by
        rw [← hframes]
        rfl
      rw [List.count_append, List.count_append, slotTokens_handed, hframes, handed_count,
        client_submitted h, hweight, Multiset.count_add, hI.handed i, Nat.zero_add, Nat.add_comm]

theorem referenced {c : Config (World Engine × List Reference) (Frame Callback Code × Unit)}
    (h : ((machine Engine).traced tokens).Reaches anyStep ((Engine.start pool n).traced tokens) c) :
    Referenced c.shared.1 c.shared.2 (c.frames.map Prod.fst) := by
  refine h.traced_invariant (I := fun s trace fs => Referenced s trace (fs.map Prod.fst))
    (J := fun s fs => Parked s.mem fun i => (closing i).total s.toCore fs)
    (fun _ hc => XAsync.parked hc) ?_ ?_
  · refine ⟨⟨fun _ => rfl, nofun, nofun⟩, fun i => ?_⟩
    have hframes : ((Engine.start pool n).traced tokens).frames.map Prod.fst =
        (Engine.start pool n).frames := by
      rw [← untraced_frames, untraced_traced]
    have hoffers : weight Frame.offers (Engine.start pool n).frames = 0 := by
      refine weight_eq_zero _ fun f hf => ?_
      obtain rfl | ⟨g, rfl⟩ := (Engine.initial pool n).threads f hf <;> rfl
    rw [hframes, Core.submitted, hoffers]
    simp [Core.ledger, (Engine.initial pool n).holds_frames]
    rfl
  · intro s trace f b R x o hP hI hs
    rw [Multiset.map_cons] at hI
    rw [Multiset.map_add, Notes.frames_fst]
    exact step_referenced hs hP hI

end Runs

/-- A call is scheduled, completed without a result and polled: its block gives its token back
while the one of the submission is outstanding. -/
def cleanedUpWhileQueued : List (ℕ × Option Choice) :=
  [Engine.does (.begin 1 0 true), Engine.does .finish, Engine.does .finish,
      Engine.does (.returns S_OK)] ++
    Engine.steps 1 1 ++ [Engine.does (.xasync 1 (.schedule 0))] ++ Engine.steps 1 6 ++
    [Engine.does (.xasync 1 (.complete S_OK 0))] ++ Engine.steps 1 2 ++
    [Engine.does (.xasync 1 (.getStatus false))] ++ Engine.steps 1 4 ++
    [Engine.does (.returns S_OK)] ++ Engine.steps 1 1

end XGameRuntime.XAsync
