import XGameRuntime.Retrieval
import XGameRuntime.XAsync.Lifetime

/-! # Who frees the payload of a `run_sync` call

`run_sync_helper` hands a payload out by copying its bytes, and `Cleanup` drops the original with the
context. Both own what the payload owns on the heap. The payloads of the runtime own nothing there,
but for the names that `XGameSaveReadBlobDataAsync` stashes.
-/

namespace XGameRuntime.XAsync
open Concurrency TaskQueue
set_option autoImplicit false

/-! ## Payloads and their heap blocks -/

/-- The `T` of the calls of `run_sync`. -/
inductive Payload where
  | unit
  /-- `u64`: of a user, a save provider, a product query. -/
  | handle (value : ℕ)
  /-- `i64`, of `XGameSaveGetRemainingQuotaAsync`. -/
  | remainingQuota (bytes : ℤ)
  /-- `XNetworkingSecurityInformation`, with no thumbprints and a null pointer to them. -/
  | securityInformation (enabledHttpSecurityProtocolFlags : ℕ)
  /-- `XStoreGameLicense`, whose strings are arrays in place. -/
  | gameLicense
  | folder (path : Retrieval.PathPayload)
  /-- The container handle and the names of `XGameSaveReadBlobDataAsync`, a `Vec<Option<String>>`. -/
  | readBlobData (container : ℕ) (names : List (Option String))

/-- How many heap blocks a payload owns: the buffer of the `Vec`, and one for each of its strings,
where they are not empty. -/
def Payload.blocks : Payload → ℕ
  | .readBlobData _ names =>
      (if names = [] then 0 else 1) + names.countP fun name => name.any (· ≠ "")
  | _ => 0

/-- A heap block of the payload of context `helper`. -/
structure Token where
  helper : ℕ
  index : ℕ
  deriving DecidableEq, Repr

def Payload.tokens (p : Payload) (h : ℕ) : List Token := (List.range p.blocks).map (⟨h, ·⟩)

@[simp] theorem mem_tokens {p : Payload} {h : ℕ} {t : Token} :
    t ∈ p.tokens h ↔ t.helper = h ∧ t.index < p.blocks := by
  simp only [Payload.tokens, List.mem_map, List.mem_range]
  constructor
  · rintro ⟨j, hj, rfl⟩
    exact ⟨rfl, hj⟩
  · rintro ⟨rfl, hj⟩
    exact ⟨t.index, hj, rfl⟩

theorem nodup_tokens (p : Payload) (h : ℕ) : (p.tokens h).Nodup := by
  refine List.nodup_range.map fun i j hij => ?_
  simpa using hij

inductive HeapEvent where
  | allocated (t : Token)
  | used (t : Token)
  | freed (t : Token)
  deriving DecidableEq, Repr

/-- The payload of context `h` after a history, newest first. -/
def storedIn (h : ℕ) : List Event → Option ℕ
  | [] => none
  | .future k (.ok value) :: earlier => if k = h then some value else storedIn h earlier
  | _ :: earlier => storedIn h earlier

section Heap
variable (payload : ℕ → Payload) (context : ℕ → Option ℕ)

/-- What the drop of the payload of a context frees. -/
def dropStored (h : ℕ) (earlier : List Event) : List HeapEvent :=
  ((storedIn h earlier).toList.flatMap fun value => (payload value).tokens h).map .freed

/-- What an event does to the heap blocks of payloads, newest first. A future's value replaces what
its context holds; the context is dropped with its payload; and the function that has asked for the
result owns the copy, uses it and drops it. -/
def Event.heap (earlier : List Event) : Event → List HeapEvent
  | .future h (.ok value) =>
      ((payload value).tokens h).map .allocated ++ dropStored payload h earlier
  | .released h => dropStored payload h earlier
  | .returned (.getResult i _ (some value)) =>
      let tokens := (context i).toList.flatMap fun h => (payload value).tokens h
      tokens.map .freed ++ tokens.map .used
  | _ => []

def heap : List Event → List HeapEvent
  | [] => []
  | e :: earlier => e.heap payload context earlier ++ heap earlier

end Heap

/-- The context of call `i`. -/
def Memory.contextOf (m : Memory) (i : ℕ) : Option ℕ :=
  m.states[i]?.bind fun state => state.provider.context

/-- The history of the heap blocks of payloads, newest first. -/
def Memory.heap (m : Memory) (payload : ℕ → Payload) : List HeapEvent :=
  XAsync.heap payload m.contextOf m.log

/-- In a history, newest first, nothing uses or frees a block after it is freed. -/
def FreedLast (t : Token) (history : List HeapEvent) : Prop :=
  history.Pairwise fun later earlier => earlier = .freed t → later ≠ .used t ∧ later ≠ .freed t

instance (t : Token) (history : List HeapEvent) : Decidable (FreedLast t history) :=
  inferInstanceAs (Decidable (List.Pairwise _ _))

theorem FreedLast.count_le {t : Token} {history : List HeapEvent} (h : FreedLast t history) :
    history.count (.freed t) ≤ 1 :=
  count_le_one (h.imp fun hne he => (hne he).2)

/-! ## Histories of heap blocks -/

def isFuture (h : ℕ) : Event → Bool
  | .future k _ => k = h
  | _ => false

/-- Nobody has been handed heap blocks. -/
def Plain (payload : ℕ → Payload) (log : List Event) : Prop :=
  ∀ i hr value, .returned (.getResult i hr (some value)) ∈ log → (payload value).blocks = 0

section Histories
variable {payload : ℕ → Payload} {context : ℕ → Option ℕ} {t : Token} {e : Event}
  {log : List Event}

theorem Plain.tail (h : Plain payload (e :: log)) : Plain payload log :=
  fun i hr value hv => h i hr value (List.mem_cons_of_mem _ hv)

theorem storedIn_future {h value : ℕ} (hs : storedIn h log = some value) :
    .future h (.ok value) ∈ log := by
  induction log with
  | nil => simp [storedIn] at hs
  | cons e log ih =>
    unfold storedIn at hs
    split at hs
    · rename_i heq
      simp at heq
    · rename_i k value' earlier heq
      obtain ⟨rfl, rfl⟩ := List.cons.inj heq
      split at hs
      · rename_i hk
        rw [hk, Option.some.inj hs]
        exact List.mem_cons_self
      · exact List.mem_cons_of_mem _ (ih hs)
    · rename_i heq
      obtain ⟨rfl, rfl⟩ := List.cons.inj heq
      exact List.mem_cons_of_mem _ (ih hs)

theorem mem_dropStored {h : ℕ} {a : HeapEvent} : a ∈ dropStored payload h log ↔
    ∃ t value, a = .freed t ∧ storedIn h log = some value ∧ t ∈ (payload value).tokens h := by
  simp only [dropStored, List.mem_map, List.mem_flatMap, Option.mem_toList]
  constructor
  · rintro ⟨t, ⟨value, hv, ht⟩, rfl⟩
    exact ⟨t, value, rfl, hv, ht⟩
  · rintro ⟨t, value, rfl, hv, ht⟩
    exact ⟨t, ⟨value, hv, ht⟩, rfl⟩

theorem no_second_future {h : ℕ} {result : FutureResult}
    (ho : (Event.future h result :: log).countP (isFuture h) ≤ 1) (other : FutureResult) :
    .future h other ∉ log := by
  intro hm
  have hpos : 0 < log.countP (isFuture h) :=
    List.countP_pos_iff.mpr ⟨_, hm, by simp [isFuture]⟩
  rw [List.countP_cons_of_pos (by simp [isFuture])] at ho
  omega

/-- With nothing handed out, blocks are freed with their context. -/
theorem freed_of_event (hp : Plain payload (e :: log))
    (ho : (e :: log).countP (isFuture t.helper) ≤ 1)
    (hf : .freed t ∈ e.heap payload context log) : e = .released t.helper := by
  unfold Event.heap at hf
  split at hf
  · rename_i h value
    simp only [List.mem_append, List.mem_map, reduceCtorEq, and_false, exists_false,
      false_or] at hf
    obtain ⟨t', old, ht, hs, hm⟩ := mem_dropStored.mp hf
    cases ht
    obtain ⟨rfl, -⟩ := mem_tokens.mp hm
    exact absurd (storedIn_future hs) (no_second_future ho _)
  · obtain ⟨t', old, ht, hs, hm⟩ := mem_dropStored.mp hf
    cases ht
    rw [(mem_tokens.mp hm).1]
  · rename_i i hr value
    have hz := hp i hr value List.mem_cons_self
    simp [Payload.tokens, hz] at hf
  · simp at hf

theorem not_used (hp : Plain payload (e :: log)) : .used t ∉ e.heap payload context log := by
  intro hf
  unfold Event.heap at hf
  split at hf
  · simp [dropStored] at hf
  · simp [dropStored] at hf
  · rename_i i hr value
    have hz := hp i hr value List.mem_cons_self
    simp [Payload.tokens, hz] at hf
  · simp at hf

theorem freed_of_heap (hp : Plain payload log) (ho : log.countP (isFuture t.helper) ≤ 1)
    (hf : .freed t ∈ heap payload context log) : .released t.helper ∈ log := by
  induction log with
  | nil => simp [heap] at hf
  | cons e log ih =>
    rcases List.mem_append.mp hf with hf | hf
    · rw [freed_of_event hp ho hf]
      exact List.mem_cons_self
    · have hle := (List.sublist_cons_self e log).countP_le (p := isFuture t.helper)
      exact List.mem_cons_of_mem _ (ih hp.tail (hle.trans ho) hf)

/-- The blocks of one payload are freed once by one drop. -/
theorem freedLast_drop (h : ℕ) : FreedLast t (dropStored payload h log) := by
  have hnodup : (dropStored payload h log).Nodup := by
    cases hs : storedIn h log with
    | none => simp [dropStored, hs]
    | some value =>
      simp only [dropStored, hs, Option.toList_some, List.flatMap_cons, List.flatMap_nil,
        List.append_nil]
      refine (nodup_tokens _ h).map fun a b hab => ?_
      simpa using hab
  refine hnodup.imp_of_mem fun {later earlier} hl _ hne he => ⟨?_, fun hlater => hne ?_⟩
  · rintro rfl
    simp [dropStored] at hl
  · rw [hlater, he]

theorem heap_freedLast (hr : ReleasedLast t.helper log) (hp : Plain payload log)
    (ho : log.countP (isFuture t.helper) ≤ 1) : FreedLast t (heap payload context log) := by
  induction log with
  | nil => exact List.Pairwise.nil
  | cons e log ih =>
    obtain ⟨hhead, htail⟩ := List.pairwise_cons.mp hr
    have hle := (List.sublist_cons_self e log).countP_le (p := isFuture t.helper)
    refine List.pairwise_append.mpr ⟨?_, ih htail hp.tail (hle.trans ho), ?_⟩
    · by_cases hf : .freed t ∈ e.heap payload context log
      · rw [freed_of_event hp ho hf]
        exact freedLast_drop t.helper
      · refine List.pairwise_of_forall_mem_list fun later _ earlier hm he => ?_
        exact absurd (he ▸ hm) hf
    · intro later hl earlier hm he
      subst he
      have hrel := hhead _ (freed_of_heap hp.tail (hle.trans ho) hm) rfl
      refine ⟨?_, ?_⟩ <;> rintro rfl
      · exact not_used hp hl
      · rw [freed_of_event hp ho hl] at hrel
        exact hrel rfl

theorem allocated_of_event (ha : .allocated t ∈ e.heap payload context log) : ∃ value,
    e = .future t.helper (.ok value) ∧ t ∈ (payload value).tokens t.helper := by
  unfold Event.heap at ha
  split at ha
  · rename_i h value
    simp only [List.mem_append, List.mem_map, HeapEvent.allocated.injEq, exists_eq_right,
      dropStored, reduceCtorEq, and_false, exists_false, or_false] at ha
    obtain ⟨rfl, -⟩ := mem_tokens.mp ha
    exact ⟨value, rfl, ha⟩
  · simp [dropStored] at ha
  · simp at ha
  · simp at ha

/-- A block that was allocated belongs to the payload that its context holds. -/
theorem allocated_stored (ho : log.countP (isFuture t.helper) ≤ 1)
    (ha : .allocated t ∈ heap payload context log) : ∃ value,
      storedIn t.helper log = some value ∧ t ∈ (payload value).tokens t.helper := by
  induction log with
  | nil => simp [heap] at ha
  | cons e log ih =>
    have hle := (List.sublist_cons_self e log).countP_le (p := isFuture t.helper)
    rcases List.mem_append.mp ha with ha | ha
    · obtain ⟨value, rfl, hm⟩ := allocated_of_event ha
      exact ⟨value, by simp [storedIn], hm⟩
    · obtain ⟨value, hs, hm⟩ := ih (hle.trans ho) ha
      refine ⟨value, ?_, hm⟩
      have hne : ∀ result, e ≠ .future t.helper result := by
        rintro result rfl
        exact no_second_future ho _ (storedIn_future hs)
      unfold storedIn
      split
      · rename_i heq
        simp at heq
      · rename_i k other earlier heq
        obtain ⟨rfl, rfl⟩ := List.cons.inj heq
        rw [if_neg fun hk => hne _ (by rw [hk]), hs]
      · rename_i heq
        obtain ⟨rfl, rfl⟩ := List.cons.inj heq
        exact hs

theorem freed_of_released (hr : ReleasedLast t.helper log)
    (ho : log.countP (isFuture t.helper) ≤ 1) (hrel : .released t.helper ∈ log)
    (ha : .allocated t ∈ heap payload context log) : .freed t ∈ heap payload context log := by
  induction log with
  | nil => simp at hrel
  | cons e log ih =>
    obtain ⟨hhead, htail⟩ := List.pairwise_cons.mp hr
    have hle := (List.sublist_cons_self e log).countP_le (p := isFuture t.helper)
    rcases List.mem_cons.mp hrel with rfl | hin
    · -- the drop of the context, with the payload that it holds
      have halloc : .allocated t ∈ heap payload context log := by
        refine (List.mem_append.mp ha).resolve_left fun ha => ?_
        simp [Event.heap, dropStored] at ha
      obtain ⟨value, hs, hm⟩ := allocated_stored (hle.trans ho) halloc
      exact List.mem_append_left _ (mem_dropStored.mpr ⟨t, value, rfl, hs, hm⟩)
    · rcases List.mem_append.mp ha with ha | ha
      · obtain ⟨value, rfl, -⟩ := allocated_of_event ha
        exact absurd rfl (hhead _ hin rfl)
      · exact List.mem_append_right _ (ih htail (hle.trans ho) hin ha)

end Histories

/-! ## A future returns once -/

/-- The future of context `h` is still to return. -/
def toReturn (h : ℕ) : Load Callback Code where
  callback
    | .runSyncWorker k _ => if k = h then 1 else 0
    | _ => 0
  code
    | .work k _ false | .futureReturn k _ => if k = h then 1 else 0
    | _ => 0

theorem toReturn_sees (h : ℕ) : Sees (toReturn h) := by
  refine ⟨rfl, rfl, fun _ => rfl, fun callback canceled => ?_⟩
  cases callback with
  | work j => cases canceled <;> simp [Callback.code, toReturn]
  | runSyncWorker k b => cases canceled <;> simp [Callback.code, toReturn]
  | _ => simp [Callback.code, toReturn]

section Steps
variable {m : Memory} {s : TaskQueues Callback} {code : Code} {x : Choice} {r : EngineStep}

theorem Begins.futures {b identity : ℕ} {provider : Provider}
    (h : Begins m s b identity provider r) (k : ℕ) :
    r.mem.log.countP (isFuture k) = m.log.countP (isFuture k) := by
  cases h with
  | rejected | unrouted => cases provider <;> simp [Memory.beginReturned, isFuture]
  | @parked route q routed state hb hn hroute hq hm hstate =>
    subst hm hstate
    simp [isFuture]

/-- A future that returns was to return. -/
theorem Steps.toReturn (h : Steps m s code x r) (k : ℕ) :
    r.mem.log.countP (isFuture k) + (toReturn k).asked r ≤
        m.log.countP (isFuture k) + (toReturn k).code code ∨
      m.Starting code k ∧ r.mem.log.countP (isFuture k) + (toReturn k).asked r ≤
        m.log.countP (isFuture k) + (toReturn k).code code + 1 := by
  have hbegin : ∀ {b identity : ℕ} {provider : Provider} {r : EngineStep} {n : Memory},
      n.log = m.log → Begins n s b identity provider r →
        r.mem.log.countP (isFuture k) + (XAsync.toReturn k).asked (resume r) =
          m.log.countP (isFuture k) := by
    intro b identity provider r n hn hb
    rw [asked_resume _ (toReturn_sees k), hb.futures, hb.asked _ fun _ => rfl, hn]
    rfl
  cases h with
  | queue hr =>
    subst hr
    left
    rw [asked_queue _ (toReturn_sees k)]
    dsimp only
    omega
  | begin h | run h =>
    left
    exact (hbegin rfl h).trans_le (Nat.le_add_right _ _)
  | runSync _ h =>
    left
    exact (hbegin (n := m.newHelper _) rfl h).trans_le (Nat.le_add_right _ _)
  | @invoke i op state r x hs hi =>
    cases hi with
    | @runSyncBegin h q helper admin hp hh =>
      by_cases hk : h = k
      · refine .inr ⟨⟨i, rfl, state, hs, hk ▸ hp⟩, ?_⟩
        simp [isFuture, Load.asked, Load.instr, Load.submission, XAsync.toReturn,
          runSyncSubmission, hk]
      · left
        simp [isFuture, Load.asked, Load.instr, Load.submission, XAsync.toReturn,
          runSyncSubmission, hk]
    | _ =>
      left
      simp [isFuture, Load.asked, Load.instr, Load.submission, XAsync.toReturn]
  | beginReturn =>
    left
    cases ‹AsyncState›.provider <;> simp [Memory.beginReturned, isFuture, Load.asked]
  | unresolved =>
    left
    simp [Load.asked, Load.instr, XAsync.toReturn, Function.comp_def]
  | futureOk hh | futureErr hh =>
    left
    simp [isFuture, List.countP_cons, Load.asked, Load.instr, XAsync.toReturn]
  | _ =>
    left
    simp [isFuture, Load.asked, Load.instr, Load.submission, XAsync.toReturn]

end Steps

/-! ## Payloads without heap blocks may be handed out -/

/-- The condition under which a payload has one owner: what `GetResult` hands out owns no heap
block. -/
def handsOutPlain (payload : ℕ → Payload) (s : World Engine) : Code → Bool
  | .invoke i .getResult => decide (∀ state ∈ s.mem.states[i]?, ∀ h ∈ state.provider.context,
      ∀ helper ∈ s.mem.helpers[h]?, helper.result = S_OK → ∀ value ∈ helper.payload,
        (payload value).blocks = 0)
  | _ => true

abbrev payloadsStay (payload : ℕ → Payload) :
    Guard (World Engine) (Frame Callback Code) (Option Choice) :=
  onCode fun s R code _ => releasesLast s R code && handsOutPlain payload s code

/-- A payload with heap blocks is on its way to the caller. -/
def carrying (payload : ℕ → Payload) : Load Callback Code where
  callback _ := 0
  code
    | .afterOp _ _ _ (some value) | .ret (.getResult _ _ (some value)) =>
        if (payload value).blocks = 0 then 0 else 1
    | _ => 0

theorem carrying_sees (payload : ℕ → Payload) : Sees (carrying payload) := by
  refine ⟨rfl, rfl, fun _ => rfl, fun callback canceled => ?_⟩
  cases callback with
  | work j => cases canceled <;> simp [Callback.code, carrying]
  | _ => simp [Callback.code, carrying]

section Steps
variable {payload : ℕ → Payload} {m : Memory} {code : Code} {x : Choice} {r : EngineStep}

theorem Steps.carrying {s : World Engine} (h : Steps s.mem s.toTaskQueues code x r)
    (hg : handsOutPlain payload s code = true) :
    (carrying payload).asked r ≤ (carrying payload).code code := by
  cases h with
  | queue hr =>
    subst hr
    rw [asked_queue _ (carrying_sees payload)]
    exact Nat.zero_le _
  | begin h | run h | runSync _ h =>
    rw [asked_resume _ (carrying_sees payload), h.asked _ fun _ => rfl]
    exact Nat.zero_le _
  | @invoke i op state r x hs hi =>
    cases hi with
    | @runSyncGetResult h helper hp hh =>
      have hplain := of_decide_eq_true hg state hs h (by simp [hp, Provider.context]) helper hh
      rw [asked_frame]
      split
      · rename_i ho
        cases hv : helper.payload with
        | none => simp [XAsync.carrying]
        | some value => simp [XAsync.carrying, hplain ho value hv]
      · simp [XAsync.carrying]
    | _ => simp [Load.asked, Load.instr, Load.submission, XAsync.carrying, runSyncSubmission]
  | @unresolved b c hb =>
    cases c <;> simp [Load.asked, Load.instr, XAsync.carrying, XAsyncCall.illegal]
  | @gotResult i hr out state x hs =>
    cases out <;> simp [Load.asked, Load.instr, XAsync.carrying]
  | _ => simp [Load.asked, Load.instr, Load.submission, XAsync.carrying]

end Steps

section Runs
variable {payload : ℕ → Payload} {c : Config (World Engine) (Frame Callback Code)} {pool n : ℕ}

theorem future_once {G : Guard (World Engine) (Frame Callback Code) (Option Choice)}
    (h : (machine Engine).Reaches G (Engine.start pool n) c) (k : ℕ) :
    c.shared.mem.log.countP (isFuture k) ≤ 1 := by
  have hI : StartedOnce c.shared.mem fun k => c.shared.mem.log.countP (isFuture k) +
      (toReturn k).total c.shared.toCore c.frames := by
    refine engine_invariant (J := fun s fs => Owners s.mem ∧
      Begun s.mem fun i => (toBegin i).total s.toCore fs)
      (I := fun m L => StartedOnce m fun k => m.log.countP (isFuture k) + L k)
      h toReturn_sees (fun _ hc => ⟨reaches_owners hc, reaches_begun hc⟩) ?_ ?_ ?_
    · refine .zero fun k => ?_
      show 0 + (toReturn k).total _ _ = 0
      rw [Nat.zero_add, start_total (toReturn_sees k)]
    · exact fun m L L' hL hI => hI.mono fun k => Nat.add_le_add_left (hL k) _
    · rintro s R code choice r _ ⟨howners, hbegun⟩ hs hI
      simp only [total_client] at hbegun
      refine hI.step hs howners hbegun fun k => ?_
      dsimp only
      rcases hs.toReturn k with hle | ⟨hstarts, hle⟩
      · left
        omega
      · exact .inr ⟨hstarts, by omega⟩
  exact (Nat.le_add_right _ _).trans (hI.one k)

theorem reaches_plain (h : (machine Engine).Reaches (payloadsStay payload) (Engine.start pool n) c) :
    Plain payload c.shared.mem.log := by
  have hI : (carrying payload).total c.shared.toCore c.frames = 0 ∧
      Plain payload c.shared.mem.log := by
    refine engine_invariant (J := fun _ _ => True) (w := fun _ : Unit => carrying payload)
      (I := fun m L => L () = 0 ∧ Plain payload m.log)
      h (fun _ => carrying_sees payload) (fun _ _ => trivial) ?_ ?_ ?_
    · refine ⟨start_total (carrying_sees payload) pool n, fun i hr value hv => ?_⟩
      simp [Engine.start] at hv
    · exact fun m L L' hL hI => ⟨Nat.le_zero.mp (hI.1 ▸ hL ()), hI.2⟩
    · rintro s R code choice r hg _ hs ⟨hz, hplain⟩
      have hg' : handsOutPlain payload s code = true := (Bool.and_eq_true_iff.mp hg).2
      have hle := hs.carrying hg'
      refine ⟨by dsimp only at hz ⊢; omega, fun i hr value hv => ?_⟩
      rcases hs.returned hv with hold | rfl
      · exact hplain i hr value hold
      · by_contra hne
        simp [carrying, hne] at hz
  exact hI.2

/-- No block of a payload is used or freed after it is freed, and each is freed once by the time the
block of its call lets the call go. -/
theorem payload_has_one_owner (payload : ℕ → Payload)
    (h : (machine Engine).Reaches (payloadsStay payload) (Engine.start pool n) c) (t : Token) :
    FreedLast t (c.shared.mem.heap payload) ∧
    ∀ i state, c.shared.mem.states[i]? = some state → state.provider = .runSync t.helper →
      c.shared.mem.stateOf state.block ≠ some i → .allocated t ∈ c.shared.mem.heap payload →
        (c.shared.mem.heap payload).count (.freed t) = 1 := by
  have hkept : (machine Engine).Reaches contextsOutlive (Engine.start pool n) c := by
    refine h.weaken fun s R f x hg => ?_
    cases f with
    | client code =>
      cases x with
      | none => trivial
      | some choice => exact (Bool.and_eq_true_iff.mp hg).1
    | _ => trivial
  have hlast := (reaches_released hkept).last t.helper
  have honce := future_once hkept t.helper
  have hfreed : FreedLast t (c.shared.mem.heap payload) :=
    heap_freedLast hlast (reaches_plain h) honce
  refine ⟨hfreed, fun i state hs hp hgone ha => ?_⟩
  have hrel := (sent_released hkept).2 i t.helper ⟨state, hs, hp⟩ (let_go_sent hkept hs hgone)
  have hle := hfreed.count_le
  have hpos := List.count_pos_iff.mpr (freed_of_released hlast honce hrel ha)
  exact Nat.le_antisymm hle hpos

end Runs

/-- The names of one blob, as `XGameSaveReadBlobDataAsync` stashes them. -/
def oneName : ℕ → Payload := fun _ => .readBlobData 1 [some "a"]

/-- A call that is canceled after its future has returned: its names go with the context. -/
theorem payload_has_one_owner_canceled :
    ∃ c, (machine Engine).Reaches (payloadsStay oneName) (Engine.start 2 1) c ∧
      FreedLast ⟨0, 1⟩ (c.shared.mem.heap oneName) ∧
      (c.shared.mem.heap oneName).count (.freed ⟨0, 1⟩) = 1 := by
  have h : ((machine Engine).run (payloadsStay oneName)
      ([Engine.does (.runSync 1 32)] ++ Engine.steps 1 6 ++ [Engine.does (.xasync 1 .cancel)] ++
        Engine.steps 1 7 ++ Engine.steps 4 5 ++ Engine.steps 2 4 ++ [(2, some (.produces 7))] ++
        Engine.steps 2 3 ++ [Engine.does (.xasync 1 (.getStatus false))] ++ Engine.steps 1 4)
      (Engine.start 2 1)).any (fun c => decide (∃ state ∈ c.shared.mem.states[0]?,
        state.provider = .runSync 0 ∧ c.shared.mem.stateOf state.block ≠ some 0 ∧
          .allocated ⟨0, 1⟩ ∈ c.shared.mem.heap oneName)) = true := by
    decide +kernel
  obtain ⟨c, hr, hc⟩ := Machine.Reaches.of_run_any h
  obtain ⟨state, hs, hp, hgone, ha⟩ := of_decide_eq_true hc
  have hone := payload_has_one_owner oneName hr ⟨0, 1⟩
  exact ⟨c, hr, hone.1, hone.2 0 state hs hp hgone ha⟩

/-- `XGameSaveReadBlobDataResult` is handed a copy of the names, uses it and drops it, when the
original has gone with the context. -/
theorem names_are_freed_twice :
    ∃ c, (machine Engine).Reaches anyStep (Engine.start 2 1) c ∧
      ¬ FreedLast ⟨0, 1⟩ (c.shared.mem.heap oneName) ∧
      (c.shared.mem.heap oneName).count (.freed ⟨0, 1⟩) = 2 := by
  have h : ((machine Engine).run anyStep
      ([Engine.does (.runSync 1 32)] ++ Engine.steps 1 6 ++ Engine.steps 2 4 ++
        [(2, some (.produces 7))] ++ Engine.steps 2 3 ++
        [Engine.does (.xasync 1 (.getResult 0 32))] ++ Engine.steps 1 7)
      (Engine.start 2 1)).any (fun c => decide (¬ FreedLast ⟨0, 1⟩ (c.shared.mem.heap oneName) ∧
        (c.shared.mem.heap oneName).count (.freed ⟨0, 1⟩) = 2)) = true := by
    decide +kernel
  obtain ⟨c, hr, hc⟩ := Machine.Reaches.of_run_any h
  exact ⟨c, hr, of_decide_eq_true hc⟩

end XGameRuntime.XAsync
