import XGameRuntime.TaskQueue.ProcessQueue
import XGameRuntime.TaskQueue.Provenance
import XGameRuntime.XAsync.Parking

/-! # The queue of a call

`XAsyncBegin` chooses the queue of a call and may write another handle into the block: the cached
handle of the process queue. When the two agree, and when the queue is the one that the block
named.
-/

namespace XGameRuntime.XAsync
open Concurrency TaskQueue
set_option autoImplicit false

/-! ## What `queue_for` and the rewriting of the queue field give -/

section Route
variable {s t : TaskQueues Callback} {field : ℕ} {route : Route}

/-- The block names no queue, or one whose work port is manual and which is not the process
queue. -/
def Rewrites (s : TaskQueues Callback) (field : ℕ) : Prop :=
  field = 0 ∨ ∃ q, s.queueHandles.get field = some q ∧ s.modeOf q .work = some .manual ∧
    s.processQueue ≠ some q

/-- The field resolves to the process queue, and that is the queue of the call. -/
def Route.Coherent (route : Route) (t : TaskQueues Callback) : Prop :=
  ∃ q, t.processQueue = some q ∧ t.queueHandles.get route.field = some q ∧ route.queue = .ok q

/-- The two operations that the rewriting performs, one after the other. -/
theorem handle_cached {q handle : ℕ} {u : TaskQueues Callback} (hn : s.Numbered)
    (ht : s.defaultProcessQueue = some (q, t)) (hu : t.getProcessQueueHandle = some (handle, u)) :
    u.processQueue = some q ∧ (u.queueHandles.get handle = some q ↔ s.Cached) := by
  obtain ⟨htable, hq, hsame, hhandle⟩ := defaultProcessQueue_registry ht
  have hnt := defaultProcessQueue_numbered ht hn
  obtain ⟨-, -, ⟨hcached, rfl⟩ | ⟨p, hp, hget, hpq, hnone⟩⟩ := getProcessQueueHandle_registry hnt hu
  · refine ⟨hq, fun hget => ?_, fun hc => ?_⟩
    · intro other ho
      rw [← hhandle, hcached, Option.some.injEq] at ho
      subst ho
      rw [htable] at hget
      have hin : s.processQueue.isSome = true := hn.installed (by rw [← hhandle, hcached]; rfl)
      obtain ⟨p, hp⟩ := Option.isSome_iff_exists.mp hin
      exact ⟨q, by rw [hp, hsame p hp], hget⟩
    · obtain ⟨p, hp, hget⟩ := hc handle (hhandle ▸ hcached)
      rw [htable, hget, hsame p hp]
  · have hqp := hpq q hq
    subst hqp
    refine ⟨hp, fun _ => ?_, fun _ => hget⟩
    intro other ho
    rw [← hhandle, hnone] at ho
    cases ho

theorem applyAll_handle {q handle : ℕ} {u : TaskQueues Callback}
    (ht : s.defaultProcessQueue = some (q, t)) (hu : t.getProcessQueueHandle = some (handle, u)) :
    Admin.applyAll s [.defaultProcessQueue, .processQueueHandle] = some u := by
  simp [Admin.applyAll, Admin.apply, ht, hu]

theorem defaultProcessQueue_new {p q : ℕ} (ht : s.defaultProcessQueue = some (p, t))
    (hq : q < s.queues.length) (hne : s.processQueue ≠ some q) : q ≠ p := by
  unfold TaskQueues.defaultProcessQueue at ht
  split at ht
  · rename_i installed hin
    cases ht
    rintro rfl
    exact hne hin
  · simp only [Option.bind_eq_bind, Option.bind_eq_some_iff] at ht
    obtain ⟨u, hu, ht⟩ := ht
    cases ht
    omega

theorem modeOf_lt {q : ℕ} {kind : PortKind} {mode : DispatchMode}
    (h : s.modeOf q kind = some mode) : q < s.queues.length := by
  simp only [TaskQueues.modeOf, TaskQueues.portOf, Option.bind_eq_bind,
    Option.bind_eq_some_iff] at h
  obtain ⟨p, ⟨queue, hq, -⟩, -⟩ := h
  exact (List.getElem?_eq_some_iff.mp hq).1

/-- A rewritten field is good exactly when the cached handle was. -/
theorem queueFor_coherent (hn : s.Numbered) (hw : Rewrites s field)
    (hroute : queueFor s field = some route) (ht : Admin.applyAll s route.admin = some t) :
    route.Coherent t ↔ s.Cached := by
  unfold queueFor at hroute
  by_cases hf : field = 0
  · simp only [hf, if_true, Option.bind_eq_bind, Option.bind_eq_some_iff, Option.some.injEq] at hroute
    obtain ⟨⟨q, t₁⟩, ht₁, ⟨handle, u⟩, hu, rfl⟩ := hroute
    rw [applyAll_handle ht₁ hu, Option.some.injEq] at ht
    subst ht
    obtain ⟨hq, hiff⟩ := handle_cached hn ht₁ hu
    rw [← hiff]
    constructor
    · rintro ⟨p, hp, hget, he⟩
      cases he
      exact hget
    · exact fun hget => ⟨q, hq, hget, rfl⟩
  · obtain ⟨q, hget, hmode, hne⟩ := hw.resolve_left hf
    simp only [hf, if_false, hget, hmode, Option.bind_eq_bind, Option.bind_some, if_true,
      TaskQueues.isProcessQueue, Option.bind_eq_some_iff] at hroute
    obtain ⟨⟨isProcess, t₁⟩, ⟨⟨p, t₂⟩, ht₁, hp⟩, hroute⟩ := hroute
    cases hp
    have hqp := defaultProcessQueue_new ht₁ (modeOf_lt hmode) hne
    simp only [hqp, decide_false, Bool.false_eq_true, if_false, Option.bind_eq_some_iff] at hroute
    obtain ⟨⟨handle, u⟩, hu, hroute⟩ := hroute
    obtain ⟨hq, hiff⟩ := handle_cached hn ht₁ hu
    rw [← hiff]
    cases hres : u.queueHandles.get handle with
    | none =>
      simp only [hres, Option.some.injEq] at hroute
      subst hroute
      constructor
      · rintro ⟨p', hp', -, he⟩
        cases he
      · intro h
        cases h
    | some p' =>
      simp only [hres, Option.some.injEq] at hroute
      subst hroute
      rw [applyAll_handle ht₁ hu, Option.some.injEq] at ht
      subst ht
      rw [hres.symm]
      constructor
      · rintro ⟨p'', hp'', hget', he⟩
        rw [hq] at hp''
        cases hp''
        exact hget'
      · intro h
        refine ⟨p, hq, h, ?_⟩
        rw [hres] at h
        cases h
        rfl

end Route

/-! ## A call begins -/

section Begin
variable {m : Memory} {s : TaskQueues Callback} {b : ℕ}

/-- The block on which a choice of the game begins a call. -/
def Choice.beginsOn : Choice → Option ℕ
  | .begin b _ true | .run b true | .runSync b _ => some b
  | _ => none

theorem invoke_admin {i : ℕ} {state : AsyncState} {op : XAsyncOp} {r : EngineStep}
    (h : invoke m s i state op = some r) :
    ∀ a ∈ r.admin, ∃ work completion, a = Admin.newQueue work completion := by
  unfold invoke at h
  split at h
  · cases h
    simp
  · cases op with
    | begin =>
      simp only [runProvider] at h
      split at h
      · cases h
        simp
      · simp only [Option.bind_eq_bind, Option.bind_eq_some_iff, Option.some.injEq] at h
        obtain ⟨parked, -, rfl⟩ := h
        simp
    | _ => cases h; simp
  · simp only [Option.bind_eq_bind, Option.bind_eq_some_iff, Option.some.injEq] at h
    obtain ⟨helper, -, rfl⟩ := h
    cases op with
    | begin =>
      simp only [runSyncHelper]
      split
      · simp
      · intro a ha
        exact ⟨_, _, List.mem_singleton.mp ha⟩
    | _ => simp [runSyncHelper]

/-- What `XAsyncBegin` makes of a block that drives no call: either it returns an error before the
provider, or the new call has the queue of the route. -/
theorem xasyncBegin_routes {identity : ℕ} {provider : Provider} {r : EngineStep} (hb : b ≠ 0)
    (hn : m.stateOf b = none) (h : xasyncBegin m s b identity provider = some r) :
    ∃ route, queueFor s (m.blocks b).queue = some route ∧ r.admin = route.admin ∧
      (r.mem.blocks b).queue = route.field ∧
      ((∃ hr, route.queue = .error hr ∧ r.mem.states = m.states) ∨
        ∃ q state, route.queue = .ok q ∧ r.mem.states = m.states ++ [state] ∧
          state.queue = q) := by
  simp only [xasyncBegin, hb, hn, if_false, Option.isSome_none, Bool.false_eq_true,
    Option.bind_eq_bind, Option.bind_eq_some_iff] at h
  obtain ⟨route, hroute, h⟩ := h
  split at h
  · rename_i hr hq
    cases h
    refine ⟨route, hroute, rfl, ?_, .inl ⟨hr, hq, ?_⟩⟩
    · rw [Memory.beginReturned_blocks]
      simp
    · rw [Memory.beginReturned_states]
      rfl
  · rename_i q hq
    cases h
    refine ⟨route, hroute, rfl, by simp [Memory.park],
      .inr ⟨q, { provider := provider, identity := identity, queue := q, block := b }, hq, ?_, rfl⟩⟩
    simp

/-- A begin of the game is `XAsyncBegin` on a memory with the same blocks and calls. -/
theorem begins_xasyncBegin {x : Choice} {r : EngineStep} (hb : b ≠ 0) (hx : x.beginsOn = some b)
    (h : gameStep m s x = some r) :
    ∃ m' identity provider r', m'.blocks = m.blocks ∧ m'.states = m.states ∧
      xasyncBegin m' s b identity provider = some r' ∧ r = resume r' := by
  cases x with
  | begin c identity provider =>
    cases provider with
    | false => cases hx
    | true =>
      cases hx
      obtain ⟨r', hr, rfl⟩ := Option.map_eq_some_iff.mp h
      exact ⟨m, identity, _, r', rfl, rfl, hr, rfl⟩
  | run c work =>
    cases work with
    | false => cases hx
    | true =>
      cases hx
      obtain ⟨r', hr, rfl⟩ := Option.map_eq_some_iff.mp h
      exact ⟨m, 0, _, r', rfl, rfl, hr, rfl⟩
  | runSync c size =>
    cases hx
    simp only [gameStep, hb, if_false] at h
    obtain ⟨r', hr, rfl⟩ := Option.map_eq_some_iff.mp h
    exact ⟨m.newHelper size, 0, _, r', rfl, rfl, hr, rfl⟩
  | _ => cases hx

end Begin

/-! ## The handle that a begin writes -/

section Written
variable {s : World Engine} {b : ℕ} {x : Choice}
  {o : Outcome (World Engine) (Frame Callback Code)}

/-- A begin that goes on to write the handle of the process queue into its block. -/
structure Writes (s : World Engine) (b : ℕ) (x : Choice) : Prop where
  begins : x.beginsOn = some b
  block : b ≠ 0
  free : s.mem.stateOf b = none
  rewrites : Rewrites s.toTaskQueues (s.mem.blocks b).queue

/-- After the begin the handle in the block resolves to the installed process queue, and the new
call has that queue. -/
def Coherent (s t : World Engine) (b : ℕ) : Prop :=
  ∃ q state, t.processQueue = some q ∧ t.queueHandles.get (t.mem.blocks b).queue = some q ∧
    t.mem.states[s.mem.states.length]? = some state ∧ state.queue = q

theorem begin_coherent (hn : s.toRegistry.Numbered) (hw : Writes s b x)
    (h : (machine Engine).step s (.client .game) (some x) = some o) :
    Coherent s o.shared b ↔ s.toRegistry.Cached := by
  simp only [machine, Option.bind_eq_bind, Option.bind_eq_some_iff, Option.some.injEq] at h
  obtain ⟨r, hr, t, ht, rfl⟩ := h
  obtain ⟨m, identity, provider, r', hblocks, hstates, hbegin, rfl⟩ :=
    begins_xasyncBegin hw.block hw.begins hr
  have hfree : m.stateOf b = none := by
    have hf := hw.free
    unfold Memory.stateOf at hf ⊢
    rw [hblocks]
    exact hf
  obtain ⟨route, hroute, hadmin, hfield, hcall⟩ :=
    xasyncBegin_routes hw.block hfree hbegin
  rw [hblocks] at hroute
  rw [hstates] at hcall
  have hadmin' : (resume r').admin = route.admin := hadmin
  rw [hadmin'] at ht
  rw [← queueFor_coherent hn hw.rewrites hroute ht]
  unfold Coherent Route.Coherent
  show (∃ q state, t.processQueue = some q ∧ t.queueHandles.get (r'.mem.blocks b).queue = some q ∧
    r'.mem.states[s.mem.states.length]? = some state ∧ state.queue = q) ↔ _
  rw [hfield]
  rcases hcall with ⟨hr', hq, hst⟩ | ⟨q, state, hq, hst, hsq⟩
  · constructor
    · rintro ⟨q, state, -, -, hstate, -⟩
      rw [hst, List.getElem?_eq_none le_rfl] at hstate
      cases hstate
    · rintro ⟨q, -, -, he⟩
      rw [hq] at he
      cases he
  · have hlast : r'.mem.states[s.mem.states.length]? = some state := by
      rw [hst]
      exact List.getElem?_concat_length
    constructor
    · rintro ⟨p, other, hp, hget, hother, hsame⟩
      rw [hlast, Option.some.injEq] at hother
      subst hother
      rw [hq, ← hsq, hsame]
      exact ⟨p, hp, hget, rfl⟩
    · rintro ⟨p, hp, hget, he⟩
      rw [hq] at he
      cases he
      exact ⟨q, state, hp, hget, hlast, hsq⟩

/-- A game that never closes the cached handle, and never installs another queue than the one
that a cached handle resolves to. -/
def keepsCache (s : World Engine) : Code → Choice → Bool
  | .game, .queue (.closeHandle handle) =>
      (Admin.closeQueueHandle handle).keepsCache s.toRegistry
  | .game, .queue (.setCurrentProcessTaskQueue handle) =>
      (Admin.setProcessQueue (s.queueHandles.get handle)).keepsCache s.toRegistry
  | _, _ => true

abbrev cacheKept : Guard (World Engine) (Frame Callback Code) (Option Choice) :=
  onCode fun s _ code choice => keepsCache s code choice

/-- The operations that keep the cache in every state. -/
def harmless : Admin → Bool
  | .closeQueueHandle _ | .setProcessQueue _ => false
  | _ => true

/-- All that the engine does with queues by itself. -/
def creates : Admin → Bool
  | .newQueue _ _ | .defaultProcessQueue | .processQueueHandle => true
  | _ => false

theorem creates_harmless {as : List Admin} (h : as.all creates = true) : as.all harmless = true := by
  refine List.all_eq_true.mpr fun a ha => ?_
  have hc := List.all_eq_true.mp h a ha
  cases a <;> first | rfl | cases hc

theorem harmless_cached {as : List Admin} {t u : TaskQueues Callback} (hn : t.toRegistry.Numbered)
    (hc : t.toRegistry.Cached) (ha : as.all harmless = true)
    (ht : Admin.applyAll t as = some u) : u.Cached := by
  refine applyAll_cached ht hn hc fun a hmem v => ?_
  have h := List.all_eq_true.mp ha a hmem
  cases a with
  | closeQueueHandle handle => cases h
  | setProcessQueue queue => cases h
  | _ => rfl

theorem perform_cached (c : QueueCall ℕ Unit) {t : TaskQueues Callback} (hn : s.toRegistry.Numbered)
    (hc : s.toRegistry.Cached) (hk : keepsCache s .game (.queue c) = true)
    (ht : Admin.applyAll s.toTaskQueues (gameCall s.toTaskQueues c).admin = some t) : t.Cached := by
  cases c with
  | closeHandle handle =>
    obtain ⟨u, hu, hr⟩ := Option.bind_eq_some_iff.mp ht
    cases hr
    exact admin_cached hu hn hc hk
  | setCurrentProcessTaskQueue handle =>
    obtain ⟨u, hu, hr⟩ := Option.bind_eq_some_iff.mp ht
    cases hr
    exact admin_cached hu hn hc hk
  | _ =>
    refine harmless_cached hn hc ?_ ht
    simp only [gameCall, QueueCall.map, QueueCall.perform]
    repeat' split
    all_goals rfl

theorem queueFor_creates {t : TaskQueues Callback} {field : ℕ} {route : Route}
    (h : queueFor t field = some route) : route.admin.all creates = true := by
  unfold queueFor at h
  split at h
  · simp only [Option.bind_eq_bind, Option.bind_eq_some_iff, Option.some.injEq] at h
    obtain ⟨⟨q, u⟩, -, ⟨handle, v⟩, -, rfl⟩ := h
    rfl
  · split at h
    · cases h
      rfl
    · simp only [Option.bind_eq_bind, Option.bind_eq_some_iff] at h
      obtain ⟨mode, -, h⟩ := h
      split at h
      · simp only [Option.bind_eq_some_iff] at h
        obtain ⟨⟨isProcess, u⟩, -, h⟩ := h
        split at h
        · cases h
          rfl
        · simp only [Option.bind_eq_some_iff] at h
          obtain ⟨⟨handle, v⟩, -, h⟩ := h
          split at h <;> cases h <;> rfl
      · cases h
        rfl

theorem created_creates {as : List Admin}
    (ha : ∀ a ∈ as, ∃ work completion, a = Admin.newQueue work completion) :
    as.all creates = true := by
  refine List.all_eq_true.mpr fun a hmem => ?_
  obtain ⟨work, completion, rfl⟩ := ha a hmem
  rfl

theorem xasyncBegin_creates {m : Memory} {t : TaskQueues Callback} {identity : ℕ}
    {provider : Provider} {r : EngineStep} (h : xasyncBegin m t b identity provider = some r) :
    r.admin.all creates = true := by
  by_cases hb : b = 0
  · simp only [xasyncBegin, hb, if_true] at h
    cases h
    rfl
  · cases hn : m.stateOf b with
    | some i =>
      simp only [xasyncBegin, hb, hn, if_false, Option.isSome_some, if_true] at h
      cases h
      rfl
    | none =>
      obtain ⟨route, hroute, hadmin, -⟩ := xasyncBegin_routes hb hn h
      rw [hadmin, queueFor_creates hroute]

theorem gameStep_creates {m : Memory} {t : TaskQueues Callback} {x : Choice} {r : EngineStep}
    (hx : ∀ c, x ≠ .queue c) (h : gameStep m t x = some r) : r.admin.all creates = true := by
  cases x with
  | queue c => exact absurd rfl (hx c)
  | begin b identity provider =>
    cases provider with
    | false => cases h; rfl
    | true =>
      obtain ⟨r', hr, rfl⟩ := Option.map_eq_some_iff.mp h
      have ha := xasyncBegin_creates hr
      exact ha
  | run b work =>
    cases work with
    | false => cases h; rfl
    | true =>
      obtain ⟨r', hr, rfl⟩ := Option.map_eq_some_iff.mp h
      have ha := xasyncBegin_creates hr
      exact ha
  | runSync b size =>
    simp only [gameStep] at h
    split at h
    · cases h
      rfl
    · obtain ⟨r', hr, rfl⟩ := Option.map_eq_some_iff.mp h
      have ha := xasyncBegin_creates hr
      exact ha
  | xasync b c =>
    simp only [gameStep] at h
    split at h <;> cases h <;> rfl
  | returns hr => cases h
  | produces value => cases h
  | _ => cases h; rfl

/-- The queue calls of the game are the only code that may harm the cache. -/
theorem step_creates {m : Memory} {t : TaskQueues Callback} {code : Code} {x : Choice}
    {r : EngineStep} (hx : ∀ c, code = .game → x ≠ .queue c) (hp : code ≠ .processQueue)
    (h : m.step t code x = some r) : r.admin.all creates = true := by
  cases code with
  | game => exact gameStep_creates (fun c => hx c rfl) h
  | processQueue => exact absurd rfl hp
  | invoke i op =>
    simp only [Memory.step, Option.bind_eq_bind, Option.bind_eq_some_iff] at h
    obtain ⟨state, -, h⟩ := h
    exact created_creates (invoke_admin h)
  | _ =>
    have hs : Steps m t _ x r := steps_inv h
    cases hs <;> rfl

/-- A game that keeps the cache finds the cached handle good in every state. -/
theorem reaches_cached {pool n : ℕ} {c : Config (World Engine) (Frame Callback Code)}
    (h : (machine Engine).Reaches cacheKept (Engine.start pool n) c) : c.shared.toRegistry.Cached := by
  refine h.invariant (I := fun s _ => s.toRegistry.Cached) (J := fun s _ => s.toRegistry.Numbered)
    (fun c hc => reaches_numbered (Engine.initial pool n) hc) (Engine.initial pool n).registry.2 ?_
  intro s f R x o hg hn hc hs
  rcases step_registry hs with hgrew | ⟨code, choice, r, rfl, rfl, hr, ht, -⟩
  · exact (hgrew.cached hn).mpr hc
  · by_cases hq : ∃ c, code = .game ∧ choice = .queue c
    · obtain ⟨c, rfl, rfl⟩ := hq
      cases hr
      exact perform_cached c hn hc hg ht
    · by_cases hp : code = .processQueue
      · subst hp
        cases hr
        exact harmless_cached hn hc rfl ht
      · refine harmless_cached hn hc (creates_harmless ?_) ht
        exact step_creates (fun c hcode hchoice => hq ⟨c, hcode, hchoice⟩) hp hr

end Written

/-- A begin that writes the handle of the process queue into its block is coherent exactly when
the cached handle resolves to the process queue, or there is none; and in the runs of a game
that keeps the cache every such begin is. -/
theorem process_queue_coherent {pool n i b : ℕ} {x : Choice}
    {c c' : Config (World Engine) (Frame Callback Code)}
    (h : (machine Engine).Reaches anyStep (Engine.start pool n) c) (hw : Writes c.shared b x)
    (ht : c.top i = some (.client .game)) (hf : (machine Engine).fire c i (some x) = some c') :
    (Coherent c.shared c'.shared b ↔ c.shared.toRegistry.Cached) ∧
    ((machine Engine).Reaches cacheKept (Engine.start pool n) c → Coherent c.shared c'.shared b) := by
  obtain ⟨f, o, hft, hs, hshared, -⟩ := fire_frames hf
  rw [ht, Option.some.injEq] at hft
  subst hft
  have hiff := begin_coherent (reaches_numbered (Engine.initial pool n) h) hw hs
  rw [hshared]
  exact ⟨hiff, fun hk => hiff.mpr (reaches_cached hk)⟩

/-- The begin of a block that names no queue. -/
theorem Writes.null {s : World Engine} {b identity : ℕ} (hb : b ≠ 0)
    (h : s.mem.stateOf b = none ∧ (s.mem.blocks b).queue = 0) :
    Writes s b (.begin b identity true) :=
  ⟨rfl, hb, h.1, .inl h.2⟩

/-- Thread 1 is about to run code of the game. -/
def atGame (c : Config (World Engine) (Frame Callback Code)) : Bool :=
  match c.top 1 with
  | some (.client .game) => true
  | _ => false

theorem top_of_atGame {c : Config (World Engine) (Frame Callback Code)} (h : atGame c = true) :
    c.top 1 = some (.client .game) := by
  unfold atGame at h
  split at h
  · assumption
  · cases h

/-- A process queue is installed, a first begin has made and cached its handle, and a second block
that names no queue gets that handle. -/
theorem process_queue_coherent_cached : ∃ c c',
    (machine Engine).Reaches cacheKept (Engine.start 2 1) c ∧
      (c.shared.processQueue = some 0 ∧ c.shared.processQueueHandle = some 2) ∧
      (machine Engine).fire c 1 (some (.begin 2 0 true)) = some c' ∧
      Coherent c.shared c'.shared 2 := by
  have h : ((machine Engine).run cacheKept
      ([Engine.does (.queue (.create 0 0 true)),
        Engine.does (.queue (.setCurrentProcessTaskQueue 1)),
        Engine.does (.begin 1 0 true), Engine.does .finish, Engine.does .finish,
        Engine.does (.returns S_OK)] ++ Engine.steps 1 1)
      (Engine.start 2 1)).any (fun c => decide ((c.shared.mem.stateOf 2 = none ∧
          (c.shared.mem.blocks 2).queue = 0) ∧
          c.shared.processQueue = some 0 ∧ c.shared.processQueueHandle = some 2) &&
        (atGame c && ((machine Engine).fire c 1 (some (.begin 2 0 true))).isSome)) =
          true := by
    decide +kernel
  obtain ⟨c, hr, hc⟩ := Machine.Reaches.of_run_any h
  simp only [Bool.and_eq_true] at hc
  obtain ⟨hstate, hgame, hfires⟩ := hc
  obtain ⟨hfree, hinstalled⟩ := of_decide_eq_true hstate
  obtain ⟨c', hc'⟩ := Option.isSome_iff_exists.mp hfires
  have hany := hr.weaken fun _ _ _ _ _ => trivial
  exact ⟨c, c', hr, hinstalled, hc',
    (process_queue_coherent hany (.null (by decide) hfree)
      (top_of_atGame hgame) hc').2 hr⟩

/-- A second process queue is installed over the first one after a block has made the process
queue's handle: the next block gets a handle on the first queue. -/
theorem process_queue_replaced : ∃ c c',
    (machine Engine).Reaches anyStep (Engine.start 2 1) c ∧
      Writes c.shared 2 (.begin 2 0 true) ∧
      (machine Engine).fire c 1 (some (.begin 2 0 true)) = some c' ∧
      ¬ Coherent c.shared c'.shared 2 := by
  have h : ((machine Engine).run anyStep
      ([Engine.does (.queue (.create 0 0 true)),
        Engine.does (.queue (.setCurrentProcessTaskQueue 1)),
        Engine.does (.begin 1 0 true), Engine.does .finish, Engine.does .finish,
        Engine.does (.returns S_OK)] ++
        Engine.steps 1 1 ++
        [Engine.does (.queue (.create 0 0 true)),
          Engine.does (.queue (.setCurrentProcessTaskQueue 3))])
      (Engine.start 2 1)).any (fun c => decide (c.shared.mem.stateOf 2 = none ∧
          (c.shared.mem.blocks 2).queue = 0) &&
        ((machine Engine).fire c 1 (some (.begin 2 0 true))).any fun c' => decide (
          c'.shared.processQueue = some 1 ∧
            c'.shared.queueHandles.get (c'.shared.mem.blocks 2).queue = some 0)) = true := by
    decide +kernel
  obtain ⟨c, hr, hc⟩ := Machine.Reaches.of_run_any h
  rw [Bool.and_eq_true] at hc
  obtain ⟨c', hf, hc'⟩ := (Option.any_eq_true _ _).mp hc.2
  obtain ⟨hp, hget⟩ := of_decide_eq_true hc'
  refine ⟨c, c', hr, .null (by decide) (of_decide_eq_true hc.1), hf, ?_⟩
  rintro ⟨q, state, hq, hq', -⟩
  rw [hp] at hq
  rw [hget] at hq'
  cases hq
  cases hq'

end XGameRuntime.XAsync
