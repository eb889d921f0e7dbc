import XGameRuntime.Concurrency.Arena
import XGameRuntime.Concurrency.Pool
import XGameRuntime.Ipc.Transport

/-! # Parked replies

Any number of threads that call `unixlib::request_with_timeout`. Between its two calls into the
host a request owns the box that its reply is parked in, as a bare number.
-/

namespace XGameRuntime.Ipc
open Bytes Concurrency
set_option autoImplicit false

/-! ## Threads that make requests -/

/-- The history of the requests, each with its own number. -/
inductive Event where
  /-- `exchange` has parked a reply. -/
  | parked (call handle replyType : ℕ) (reply : Option ParkedReply)
  /-- `fetch_reply` has taken the box of a handle back. -/
  | released (call handle : ℕ)
  | returned (call : ℕ) (result : Except HRESULT (ℕ × List UInt8))

structure Memory where
  parked : Parked := fun _ => none
  calls : ℕ := 0
  log : List Event := []

/-- What a thread has left to do: code of the game, and the two halves of a request. -/
inductive Code where
  | game
  | exchange (call : ℕ) (params : ExchangeParams)
  | fetch (call : ℕ) (params : ExchangeParams)

/-- How `Socket::connect` fails. -/
inductive ConnectError where
  | pathTooLong | noSocket | timeout | notFound | denied | refused
  deriving DecidableEq, Repr

def STATUS_OBJECT_NAME_NOT_FOUND : NtStatus := 0xC0000034
def STATUS_ACCESS_DENIED : NtStatus := 0xC0000022
def STATUS_CONNECTION_REFUSED : NtStatus := 0xC0000236

def connectStatus : ConnectError → NtStatus
  | .pathTooLong => STATUS_INVALID_PARAMETER
  | .noSocket => STATUS_UNEXPECTED_IO_ERROR
  | .timeout => STATUS_IO_TIMEOUT
  | .notFound => STATUS_OBJECT_NAME_NOT_FOUND
  | .denied => STATUS_ACCESS_DENIED
  | .refused => STATUS_CONNECTION_REFUSED

/-- What the game asks for, and what the service and the allocator do. -/
inductive Choice where
  | request (socketPath : String) (ioTimeoutMs : ℕ) (msgType : UInt16) (payload : List UInt8)
  | finish
  /-- The service cannot be reached. -/
  | unreachable (e : ConnectError)
  | serve (peer : Peer) (box : ℕ)
  | go

def Memory.record (m : Memory) (e : Event) : Memory := { m with log := e :: m.log }

@[simp] theorem record_parked (m : Memory) (e : Event) : (m.record e).parked = m.parked := rfl

@[simp] theorem record_calls (m : Memory) (e : Event) : (m.record e).calls = m.calls := rfl

/-- `unixlib::request_with_timeout`, cut at the calls into the host. A handle that is no box leaves
the second of them without a step. -/
def Memory.step (m : Memory) : Code → Choice → Option (Outcome Memory Code)
  | .game, .request socketPath ioTimeoutMs msgType payload =>
      some ⟨{ m with calls := m.calls + 1 },
        [.exchange m.calls (exchangeParams socketPath ioTimeoutMs msgType payload), .game], []⟩
  | .game, .finish => some ⟨m, [], []⟩
  | .exchange call params, .unreachable e =>
      if connectStatus e ≠ STATUS_SUCCESS then
        some ⟨m.record (.returned call (.error E_FAIL)), [], []⟩
      else some ⟨m, [.fetch call params.cleared], []⟩
  | .exchange call params, .serve peer box =>
      -- the allocator hands out an address that no box has
      if box = 0 ∨ m.parked box ≠ none then none
      else
        match Ipc.exchange m.parked box params peer with
        | (_, status, params, parked) =>
            let m := { m with parked := parked }
            if status ≠ STATUS_SUCCESS then some ⟨m.record (.returned call (.error E_FAIL)), [], []⟩
            else
              some ⟨m.record (.parked call params.replyHandle params.replyType
                (parked params.replyHandle)), [.fetch call params], []⟩
  | .fetch call params, .go => do
      let (status, body, parked) ← fetchReply m.parked (fetchParams params)
      let m := { m with parked := parked }.record (.released call params.replyHandle)
      if status ≠ STATUS_SUCCESS then some ⟨m.record (.returned call (.error E_FAIL)), [], []⟩
      else some ⟨m.record (.returned call (.ok (params.replyType % 2 ^ 16, body))), [], []⟩
  | _, _ => none

def machine : Machine Memory Code Choice where
  step := Memory.step

/-- A process with `n` threads of the game, before any request. -/
def start (n : ℕ) : Config Memory Code where
  shared := {}
  threads := List.replicate n [.game]

/-! ## What is counted -/

def Event.parks (call : ℕ) : Event → Bool
  | .parked c _ _ _ => decide (c = call)
  | _ => false

def Event.releases (call : ℕ) : Event → Bool
  | .released c _ => decide (c = call)
  | _ => false

def Memory.parkings (m : Memory) (call : ℕ) : ℕ := m.log.countP (Event.parks call)

def Memory.releases (m : Memory) (call : ℕ) : ℕ := m.log.countP (Event.releases call)

/-- The request is before its first call into the host. -/
def Code.exchanging (call : ℕ) : Code → ℕ
  | .exchange c _ => if c = call then 1 else 0
  | _ => 0

/-- The request is between its two calls. -/
def Code.fetching (call : ℕ) : Code → ℕ
  | .fetch c _ => if c = call then 1 else 0
  | _ => 0

def Code.holds (handle : ℕ) : Code → ℕ
  | .fetch _ params => if params.replyHandle = handle then 1 else 0
  | _ => 0

/-- The request that holds a handle finds its own reply under it. -/
def Code.Owns (m : Memory) : Code → Prop
  | .fetch call params => ∃ body, m.parked params.replyHandle = some ⟨body⟩ ∧
      params.replyHandle ≠ 0 ∧ params.replyLen = body.length ∧ params.replyType < 2 ^ 16 ∧
      .parked call params.replyHandle params.replyType (some ⟨body⟩) ∈ m.log
  | _ => True

/-- Every box is held by one request, which will take it back. -/
structure Sound (m : Memory) (F : Multiset Code) : Prop where
  held : ∀ handle, weight (Code.holds handle) F = if (m.parked handle).isSome then 1 else 0
  owned : ∀ f ∈ F, f.Owns m
  balanced : ∀ call, m.releases call + weight (Code.fetching call) F = m.parkings call
  once : ∀ call, m.parkings call + weight (Code.exchanging call) F ≤
    if call < m.calls then 1 else 0
  own : ∀ call replyType body, .returned call (.ok (replyType, body)) ∈ m.log →
    ∃ handle, .parked call handle replyType (some ⟨body⟩) ∈ m.log
  matched : ∀ call handle, .released call handle ∈ m.log →
    ∃ replyType reply, .parked call handle replyType reply ∈ m.log

/-! ## One step -/

theorem sound_start (n : ℕ) : Sound (start n).shared (start n).frames := by
  have hgame : ∀ f ∈ (start n).frames, f = .game := by
    intro f hf
    obtain ⟨k, hk, hfk⟩ := List.mem_flatten.mp (Multiset.mem_coe.mp hf)
    rw [List.eq_of_mem_replicate hk] at hfk
    exact List.mem_singleton.mp hfk
  have hzero : ∀ w : Code → ℕ, w .game = 0 → weight w (start n).frames = 0 := by
    intro w hw
    refine weight_eq_zero w fun f hf => ?_
    rw [hgame f hf, hw]
  refine ⟨fun handle => hzero _ rfl, fun f hf => ?_, fun call => ?_, fun call => ?_, ?_, ?_⟩
  · rw [hgame f hf]
    trivial
  · rw [hzero _ rfl]
    rfl
  · rw [hzero _ rfl]
    exact Nat.zero_le _
  · intro call replyType body h
    cases h
  · intro call handle h
    cases h

/-- What a step of a thread can do, where requests own their handles. -/
inductive Steps (m : Memory) : Code → Outcome Memory Code → Prop where
  | request (params : ExchangeParams) : Steps m .game
      ⟨{ m with calls := m.calls + 1 }, [.exchange m.calls params, .game], []⟩
  | finish : Steps m .game ⟨m, [], []⟩
  | failed (call : ℕ) (params : ExchangeParams) : Steps m (.exchange call params)
      ⟨m.record (.returned call (.error E_FAIL)), [], []⟩
  | park (call : ℕ) (params params' : ExchangeParams) (body : List UInt8)
      (hbox : params'.replyHandle ≠ 0) (hfree : m.parked params'.replyHandle = none)
      (hlen : params'.replyLen = body.length) (htype : params'.replyType < 2 ^ 16) :
      Steps m (.exchange call params)
        ⟨{ m with parked := Function.update m.parked params'.replyHandle (some ⟨body⟩) }.record
          (.parked call params'.replyHandle params'.replyType (some ⟨body⟩)),
          [.fetch call params'], []⟩
  | fetch (call : ℕ) (params : ExchangeParams) (body : List UInt8)
      (hown : .parked call params.replyHandle params.replyType (some ⟨body⟩) ∈ m.log)
      (hlive : m.parked params.replyHandle = some ⟨body⟩) :
      Steps m (.fetch call params)
        ⟨({ m with parked := Function.update m.parked params.replyHandle none }.record
          (.released call params.replyHandle)).record
            (.returned call (.ok (params.replyType, body))), [], []⟩

theorem steps_inv {m : Memory} {code : Code} {choice : Choice} {o : Outcome Memory Code}
    (hown : code.Owns m) (h : m.step code choice = some o) : Steps m code o := by
  cases code with
  | game =>
    cases choice with
    | request socketPath ioTimeoutMs msgType payload =>
      cases h
      exact .request _
    | finish =>
      cases h
      exact .finish
    | unreachable e => cases h
    | serve peer box => cases h
    | go => cases h
  | exchange call params =>
    cases choice with
    | unreachable e =>
      have hstatus : connectStatus e ≠ STATUS_SUCCESS := by cases e <;> decide
      simp only [Memory.step, if_pos hstatus, Option.some.injEq] at h
      subst h
      exact .failed call params
    | serve peer box =>
      simp only [Memory.step] at h
      split at h
      · cases h
      · rename_i hbox
        rw [not_or, not_not] at hbox
        rcases exchange_cases m.parked box params peer with
          ⟨sent, status, hstatus, hexchange⟩ | ⟨sent, replyType, body, htype, hexchange⟩
        · simp only [hexchange, if_pos hstatus, Option.some.injEq] at h
          subst h
          exact .failed call params
        · simp only [hexchange, ne_eq, not_true, if_false, Option.some.injEq,
            Function.update_self] at h
          subst h
          exact .park call params { params.cleared with
            replyType := replyType, replyLen := body.length, replyHandle := box } body hbox.1 hbox.2
            rfl htype
    | request socketPath ioTimeoutMs msgType payload => cases h
    | finish => cases h
    | go => cases h
  | fetch call params =>
    cases choice with
    | go =>
      obtain ⟨body, hlive, hne, hlen, htype, hlog⟩ := hown
      simp only [Memory.step, fetchParams, hlen] at h
      rw [fetchReply_own m.parked hne hlive] at h
      simp only [Option.bind_eq_bind, Option.bind_some, ne_eq, not_true, if_false,
        Option.some.injEq, Nat.mod_eq_of_lt htype] at h
      subst h
      exact .fetch call params body hlog hlive
    | request socketPath ioTimeoutMs msgType payload => cases h
    | finish => cases h
    | unreachable e => cases h
    | serve peer box => cases h

theorem Code.Owns.mono {m m' : Memory} {f : Code} (h : f.Owns m)
    (hparked : ∀ handle, f.holds handle ≠ 0 → m'.parked handle = m.parked handle)
    (hlog : m.log ⊆ m'.log) : f.Owns m' := by
  cases f with
  | game => trivial
  | exchange call params => trivial
  | fetch call params =>
    obtain ⟨body, hlive, hne, hlen, htype, hown⟩ := h
    refine ⟨body, ?_, hne, hlen, htype, hlog hown⟩
    rw [hparked _ (by simp [Code.holds]), hlive]

theorem own_mono {m : Memory} {e : Event} (hI : ∀ call replyType body,
    .returned call (.ok (replyType, body)) ∈ m.log →
      ∃ handle, .parked call handle replyType (some ⟨body⟩) ∈ m.log)
    (he : ∀ call replyType body, e = .returned call (.ok (replyType, body)) →
      ∃ handle, .parked call handle replyType (some ⟨body⟩) ∈ m.log) :
    ∀ call replyType body, .returned call (.ok (replyType, body)) ∈ e :: m.log →
      ∃ handle, .parked call handle replyType (some ⟨body⟩) ∈ e :: m.log := by
  intro call replyType body h
  rcases List.mem_cons.mp h with h | h
  · obtain ⟨handle, hp⟩ := he call replyType body h.symm
    exact ⟨handle, List.mem_cons_of_mem _ hp⟩
  · obtain ⟨handle, hp⟩ := hI call replyType body h
    exact ⟨handle, List.mem_cons_of_mem _ hp⟩

theorem matched_mono {m : Memory} {e : Event} (hI : ∀ call handle, .released call handle ∈ m.log →
      ∃ replyType reply, .parked call handle replyType reply ∈ m.log)
    (he : ∀ call handle, e = .released call handle →
      ∃ replyType reply, .parked call handle replyType reply ∈ m.log) :
    ∀ call handle, .released call handle ∈ e :: m.log →
      ∃ replyType reply, .parked call handle replyType reply ∈ e :: m.log := by
  intro call handle h
  rcases List.mem_cons.mp h with h | h
  · obtain ⟨replyType, reply, hp⟩ := he call handle h.symm
    exact ⟨replyType, reply, List.mem_cons_of_mem _ hp⟩
  · obtain ⟨replyType, reply, hp⟩ := hI call handle h
    exact ⟨replyType, reply, List.mem_cons_of_mem _ hp⟩

theorem releases_record (m : Memory) (e : Event) (call : ℕ) :
    (m.record e).releases call = m.releases call + if e.releases call then 1 else 0 :=
  List.countP_cons

theorem parkings_record (m : Memory) (e : Event) (call : ℕ) :
    (m.record e).parkings call = m.parkings call + if e.parks call then 1 else 0 :=
  List.countP_cons

/-- Nobody holds a box that is not there. -/
theorem holds_of_free {R : Multiset Code} {handle : ℕ}
    (hheld : weight (Code.holds handle) R = 0) {f : Code} (hf : f ∈ R) : f.holds handle = 0 :=
  Nat.le_zero.mp (hheld ▸ le_weight hf)

theorem sound_step {m : Memory} {code : Code} {R : Multiset Code} {o : Outcome Memory Code}
    (h : Steps m code o) (hI : Sound m (code ::ₘ R)) : Sound o.shared (o.frames + R) := by
  obtain ⟨hheld, howned, hbalanced, honce, hown, hmatched⟩ := hI
  have hrest : ∀ f ∈ R, f.Owns m := fun f hf => howned f (Multiset.mem_cons_of_mem hf)
  simp only [weight_cons] at hheld hbalanced honce
  cases h with
  | request params =>
    refine ⟨fun handle => ?_, fun f hf => ?_, fun call => ?_, fun call => ?_, hown, hmatched⟩
    · rw [weight_add, weight_frames]
      simpa [Code.holds] using hheld handle
    · rcases Multiset.mem_add.mp hf with hf | hf
      · rcases List.mem_cons.mp (Multiset.mem_coe.mp hf) with rfl | hf
        · trivial
        · rw [List.mem_singleton.mp hf]
          trivial
      · exact (hrest f hf).mono (fun _ _ => rfl) (List.Subset.refl _)
    · rw [weight_add, weight_frames]
      change m.releases call + _ = m.parkings call
      simpa [Code.fetching] using hbalanced call
    · rw [weight_add, weight_frames]
      have hcall := honce call
      simp only [Code.exchanging, Nat.zero_add] at hcall
      simp only [List.map_cons, List.map_nil, List.sum_cons, List.sum_nil, Code.exchanging,
        Nat.add_zero]
      change m.parkings call + _ ≤ _
      split at hcall <;> split <;> split <;> omega
  | finish =>
    refine ⟨fun handle => ?_, fun f hf => ?_, fun call => ?_, fun call => ?_, hown, hmatched⟩
    · rw [weight_add, weight_frames]
      simpa [Code.holds] using hheld handle
    · rcases Multiset.mem_add.mp hf with hf | hf
      · cases Multiset.mem_coe.mp hf
      · exact hrest f hf
    · rw [weight_add, weight_frames]
      simpa [Code.fetching] using hbalanced call
    · rw [weight_add, weight_frames]
      simpa [Code.exchanging] using honce call
  | failed call params =>
    refine ⟨fun handle => ?_, fun f hf => ?_, fun c => ?_, fun c => ?_, ?_, ?_⟩
    · rw [weight_add, weight_frames, record_parked]
      simpa [Code.holds] using hheld handle
    · rcases Multiset.mem_add.mp hf with hf | hf
      · cases Multiset.mem_coe.mp hf
      · exact (hrest f hf).mono (fun _ _ => rfl) (List.subset_cons_self _ _)
    · rw [weight_add, weight_frames, releases_record, parkings_record]
      simpa [Code.fetching, Event.parks, Event.releases] using hbalanced c
    · rw [weight_add, weight_frames, parkings_record]
      have hc := honce c
      simp only [List.map_nil, List.sum_nil, Nat.zero_add, Event.parks, Bool.false_eq_true,
        if_false, Nat.add_zero]
      exact Nat.le_trans (Nat.add_le_add_left (Nat.le_add_left _ _) _) hc
    · refine own_mono hown fun c replyType body he => ?_
      cases he
    · refine matched_mono hmatched fun c handle he => ?_
      cases he
  | park call params params' body hbox hfree hlen htype =>
    have hnew : weight (Code.holds params'.replyHandle) R = 0 := by
      simpa [Code.holds, hfree] using hheld params'.replyHandle
    refine ⟨fun handle => ?_, fun f hf => ?_, fun c => ?_, fun c => ?_, ?_, ?_⟩
    · rw [weight_add, weight_frames]
      have hhandle := hheld handle
      by_cases heq : params'.replyHandle = handle
      · subst heq
        simp [Code.holds, hnew]
      · simpa [Code.holds, heq, Function.update_of_ne (Ne.symm heq)] using hhandle
    · rcases Multiset.mem_add.mp hf with hf | hf
      · rw [List.mem_singleton.mp (Multiset.mem_coe.mp hf)]
        exact ⟨body, Function.update_self .., hbox, hlen, htype, List.mem_cons_self⟩
      · refine (hrest f hf).mono (fun handle hholds => ?_) (List.subset_cons_self _ _)
        refine Function.update_of_ne (fun heq => hholds ?_) _ _
        rw [heq]
        exact holds_of_free hnew hf
    · rw [weight_add, weight_frames, releases_record, parkings_record]
      have hc := hbalanced c
      simp only [Code.fetching, Nat.zero_add] at hc
      simp only [List.map_cons, List.map_nil, List.sum_cons, List.sum_nil, Code.fetching,
        Nat.add_zero, Event.parks, Event.releases, decide_eq_true_eq, Bool.false_eq_true, if_false]
      change m.releases c + _ = m.parkings c + _
      rw [← hc]
      omega
    · rw [weight_add, weight_frames, parkings_record]
      have hc := honce c
      simp only [Code.exchanging] at hc
      simp only [List.map_cons, List.map_nil, List.sum_cons, List.sum_nil, Code.exchanging,
        Nat.zero_add, Event.parks, decide_eq_true_eq]
      change m.parkings c + _ + _ ≤ if c < m.calls then 1 else 0
      omega
    · refine own_mono hown fun c replyType body he => ?_
      cases he
    · refine matched_mono hmatched fun c handle he => ?_
      cases he
  | fetch call params body hlog hlive =>
    have hothers : weight (Code.holds params.replyHandle) R = 0 := by
      have h := hheld params.replyHandle
      simp only [Code.holds, if_true, hlive, Option.isSome_some] at h
      omega
    refine ⟨fun handle => ?_, fun f hf => ?_, fun c => ?_, fun c => ?_, ?_, ?_⟩
    · rw [weight_add, weight_frames]
      have hhandle := hheld handle
      by_cases heq : params.replyHandle = handle
      · subst heq
        simp [hothers]
      · simpa [Code.holds, heq, Function.update_of_ne (Ne.symm heq)] using hhandle
    · rcases Multiset.mem_add.mp hf with hf | hf
      · cases Multiset.mem_coe.mp hf
      · refine (hrest f hf).mono (fun handle hholds => ?_) fun e he =>
          List.mem_cons_of_mem _ (List.mem_cons_of_mem _ he)
        refine Function.update_of_ne (fun heq => hholds ?_) _ _
        rw [heq]
        exact holds_of_free hothers hf
    · rw [weight_add, weight_frames, releases_record, releases_record, parkings_record,
        parkings_record]
      have hc := hbalanced c
      simp only [Code.fetching] at hc
      simp only [List.map_nil, List.sum_nil, Nat.zero_add, Event.parks, Event.releases,
        decide_eq_true_eq, Bool.false_eq_true, if_false, Nat.add_zero]
      change m.releases c + _ + _ = m.parkings c
      omega
    · rw [weight_add, weight_frames, parkings_record, parkings_record]
      have hc := honce c
      simp only [Code.exchanging, Nat.zero_add] at hc
      change m.parkings c + 0 + 0 + _ ≤ if c < m.calls then 1 else 0
      simpa using hc
    · refine own_mono (own_mono hown fun c replyType body he => ?_) fun c replyType body he => ?_
      · cases he
      · cases he
        exact ⟨params.replyHandle, List.mem_cons_of_mem _ hlog⟩
    · refine matched_mono (matched_mono hmatched fun c handle he => ?_) fun c handle he => ?_
      · cases he
        exact ⟨params.replyType, some ⟨body⟩, hlog⟩
      · cases he

theorem reaches_sound {n : ℕ} {c : Config Memory Code} (h : machine.Reaches anyStep (start n) c) :
    Sound c.shared c.frames :=
  h.preserved (sound_start n) fun _ _ _ _ _ _ hI hs =>
    sound_step (steps_inv (hI.owned _ (Multiset.mem_cons_self _ _)) hs) hI

/-! ## Every run -/

/-- Parked replies are neither leaked nor crossed. -/
structure RepliesKept (m : Memory) (F : Multiset Code) : Prop where
  /-- A request that returns `Ok` returns the reply that its own `exchange` parked. -/
  own : ∀ call replyType body, .returned call (.ok (replyType, body)) ∈ m.log →
    ∃ handle, .parked call handle replyType (some ⟨body⟩) ∈ m.log
  /-- A request parks at most one reply, -/
  once : ∀ call, m.parkings call ≤ 1
  /-- has released it once if it is not between its two calls and not at all if it is, -/
  released : ∀ call, m.releases call + weight (Code.fetching call) F = m.parkings call
  /-- and releases the handle that it has created. -/
  matched : ∀ call handle, .released call handle ∈ m.log →
    ∃ replyType reply, .parked call handle replyType reply ∈ m.log
  /-- Until it does, its reply lies under its handle, and nothing keeps it from fetching it. -/
  live : ∀ call params, .fetch call params ∈ F →
    (∃ body, m.parked params.replyHandle = some ⟨body⟩ ∧
      .parked call params.replyHandle params.replyType (some ⟨body⟩) ∈ m.log) ∧
    (m.step (.fetch call params) .go).isSome
  /-- With no request in progress nothing is parked. -/
  idle : (∀ f ∈ F, f = .game) → ∀ handle, m.parked handle = none

theorem fetch_steps {m : Memory} {call : ℕ} {params : ExchangeParams}
    (h : (Code.fetch call params).Owns m) : (m.step (.fetch call params) .go).isSome := by
  obtain ⟨body, hlive, hne, hlen, -, -⟩ := h
  simp only [Memory.step, fetchParams, hlen]
  rw [fetchReply_own m.parked hne hlive]
  rfl

theorem parked_replies_kept (n : ℕ) {c : Config Memory Code}
    (h : machine.Reaches anyStep (start n) c) : RepliesKept c.shared c.frames := by
  obtain ⟨hheld, howned, hbalanced, honce, hown, hmatched⟩ := reaches_sound h
  refine ⟨hown, fun call => ?_, hbalanced, hmatched, fun call params hf => ?_, fun hgame handle => ?_⟩
  · have hcall := honce call
    split at hcall <;> omega
  · obtain ⟨body, hlive, -, -, -, hlog⟩ := howned _ hf
    exact ⟨⟨body, hlive, hlog⟩, fetch_steps (howned _ hf)⟩
  · have hnone : weight (Code.holds handle) c.frames = 0 := by
      refine weight_eq_zero _ fun f hf => ?_
      rw [hgame f hf]
      rfl
    have hhandle := hheld handle
    rw [hnone] at hhandle
    cases hp : c.shared.parked handle with
    | none => rfl
    | some reply => simp [hp] at hhandle

/-- A service that replies with one byte. -/
def echoing (byte : UInt8) : Peer where
  arrivals := [.piece (leBytes 4 XML_MAGIC_V2 ++ leBytes 2 1 ++ leBytes 4 1 ++ [byte])]

/-- Two requests between their calls, in the other order than they began. -/
theorem parked_replies_kept_crossing : ∃ c, machine.Reaches anyStep (start 2) c ∧
    RepliesKept c.shared c.frames ∧
    c.shared.parked 8 = some ⟨[5]⟩ ∧ c.shared.parked 16 = some ⟨[7]⟩ := by
  have hrun : ((machine.run anyStep
      [(0, .request "xodus.sock" 10000 1 []), (1, .request "xodus.sock" 10000 1 []),
        (1, .serve (echoing 7) 16), (0, .serve (echoing 5) 8)] (start 2)).any fun c =>
      decide (c.shared.parked 8 = some ⟨[5]⟩ ∧ c.shared.parked 16 = some ⟨[7]⟩)) = true := by
    decide +kernel
  obtain ⟨c, hc, hcheck⟩ := Machine.Reaches.of_run_any hrun
  exact ⟨c, hc, parked_replies_kept 2 hc, of_decide_eq_true hcheck⟩

end XGameRuntime.Ipc
