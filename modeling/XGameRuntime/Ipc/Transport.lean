import Mathlib.Logic.Function.Basic
import XGameRuntime.Bytes.Stream
import XGameRuntime.Results

/-! # The two transports to the service

One request and its reply over loopback TCP (`src/ipc.rs`), and over the Unix socket: the half of
`src/ipc/unixlib.rs`, in the game's process, and that of `unixlib/src/lib.rs`, across the call
into the host. The connection is open, and over TCP the handshake is done.
-/

namespace XGameRuntime.Ipc
open Bytes
set_option autoImplicit false

def XML_MAGIC_V2 : ℕ := 0x59445358
def MAX_MESSAGE_SIZE : ℕ := 16 * 1024 * 1024

/-- The service at the other end of a connection. -/
structure Peer where
  departures : List Departure := []
  arrivals : List Arrival := []

/-- What comes of a request: what has gone out of it, and what is returned. -/
structure Traffic where
  sent : List UInt8 := []
  result : Except HRESULT (ℕ × List UInt8)

/-! ## Over TCP -/

/-- `request_over_tcp`, from the request on. -/
def requestOverTcp (peer : Peer) (msgType : UInt16) (payload : List UInt8) : Traffic :=
  let request := leBytes 4 XML_MAGIC_V2 ++ leBytes 2 msgType.toNat ++
    leBytes 4 (payload.length % 2 ^ 32) ++ payload
  let written := writeAll request peer.departures
  match written.1 with
  | .error _ => { sent := written.2, result := .error E_FAIL }
  | .ok () =>
      match readExact 4 peer.arrivals with
      | (.error _, _) => { sent := written.2, result := .error E_FAIL }
      | (.ok magic, arrivals) =>
          if fromLeBytes magic ≠ XML_MAGIC_V2 then { sent := written.2, result := .error E_FAIL }
          else
            match readExact 6 arrivals with
            | (.error _, _) => { sent := written.2, result := .error E_FAIL }
            | (.ok header, arrivals) =>
                let replyType := fromLeBytes (header.take 2)
                let size := fromLeBytes ((header.drop 2).take 4)
                if size > MAX_MESSAGE_SIZE then { sent := written.2, result := .error E_FAIL }
                else
                  match (readExact size arrivals).1 with
                  | .error _ => { sent := written.2, result := .error E_FAIL }
                  | .ok body => { sent := written.2, result := .ok (replyType, body) }

/-! ## Over the Unix socket: the host's half -/

abbrev NtStatus := ℕ

def STATUS_SUCCESS : NtStatus := 0
def STATUS_INVALID_PARAMETER : NtStatus := 0xC000000D
def STATUS_BUFFER_TOO_SMALL : NtStatus := 0xC0000023
def STATUS_UNEXPECTED_IO_ERROR : NtStatus := 0xC00000E9
def STATUS_IO_TIMEOUT : NtStatus := 0xC00000B5
def STATUS_INVALID_NETWORK_RESPONSE : NtStatus := 0xC0000C01

/-- How `Socket` reports that a stream has failed. -/
def ioStatus : StreamError → NtStatus
  | .closed | .lost => STATUS_UNEXPECTED_IO_ERROR
  | .timeout => STATUS_IO_TIMEOUT

/-- `ExchangeParams`. A pointer is what it points to, `none` where it is null; the reply's handle
is an address. -/
structure ExchangeParams where
  socketPath : Option String
  request : Option (List UInt8)
  requestLen : ℕ
  timeoutMs : ℕ
  msgType : ℕ
  replyType : ℕ := 0
  replyLen : ℕ := 0
  replyHandle : ℕ := 0

structure FetchReplyParams where
  replyHandle : ℕ
  buffer : Option (List UInt8)
  bufferLen : ℕ

structure ParkedReply where
  body : List UInt8
  deriving DecidableEq, Repr

/-- `exchange` up to the point where it parks the reply: what has gone out, and the status, or the
type, the size and the body of the reply. -/
def exchangeReply (params : ExchangeParams) (peer : Peer) :
    List UInt8 × Except NtStatus (ℕ × ℕ × List UInt8) :=
  if params.socketPath = none ∨ params.timeoutMs = 0 then ([], .error STATUS_INVALID_PARAMETER)
  else if params.requestLen > MAX_MESSAGE_SIZE ∨ (params.requestLen > 0 ∧ params.request = none) then
    ([], .error STATUS_INVALID_PARAMETER)
  else
    let request := (params.request.getD []).take params.requestLen
    let framed := leBytes 4 XML_MAGIC_V2 ++ leBytes 2 (params.msgType % 2 ^ 16) ++
      leBytes 4 (request.length % 2 ^ 32) ++ request
    let written := writeAll framed peer.departures
    match written.1 with
    | .error e => (written.2, .error (ioStatus e))
    | .ok () =>
        match readExact 10 peer.arrivals with
        | (.error e, _) => (written.2, .error (ioStatus e))
        | (.ok header, arrivals) =>
            if fromLeBytes (header.take 4) ≠ XML_MAGIC_V2 then
              (written.2, .error STATUS_INVALID_NETWORK_RESPONSE)
            else
              let replyType := fromLeBytes ((header.drop 4).take 2)
              let size := fromLeBytes ((header.drop 6).take 4)
              if size > MAX_MESSAGE_SIZE then (written.2, .error STATUS_INVALID_NETWORK_RESPONSE)
              else
                match (readExact size arrivals).1 with
                | .error e => (written.2, .error (ioStatus e))
                | .ok body => (written.2, .ok (replyType, size, body))

/-- The replies that are parked, by the address of their box. -/
abbrev Parked := ℕ → Option ParkedReply

def ExchangeParams.cleared (params : ExchangeParams) : ExchangeParams :=
  { params with replyType := 0, replyLen := 0, replyHandle := 0 }

/-- `exchange`; `box` is the address that the allocator has for a reply. -/
def exchange (parked : Parked) (box : ℕ) (params : ExchangeParams) (peer : Peer) :
    List UInt8 × NtStatus × ExchangeParams × Parked :=
  match exchangeReply params.cleared peer with
  | (sent, .error status) => (sent, status, params.cleared, parked)
  | (sent, .ok (replyType, size, body)) =>
      (sent, STATUS_SUCCESS,
        { params.cleared with replyType := replyType, replyLen := size, replyHandle := box },
        Function.update parked box (some ⟨body⟩))

/-- `fetch_reply`, with what it leaves in the buffer. It takes the box back whatever comes of it;
`none` is a handle that is no box. -/
def fetchReply (parked : Parked) (params : FetchReplyParams) :
    Option (NtStatus × List UInt8 × Parked) :=
  let buffer := params.buffer.getD []
  if params.replyHandle = 0 then some (STATUS_INVALID_PARAMETER, buffer, parked)
  else do
    let reply ← parked params.replyHandle
    let left := Function.update parked params.replyHandle none
    if params.bufferLen < reply.body.length then some (STATUS_BUFFER_TOO_SMALL, buffer, left)
    else if reply.body = [] then some (STATUS_SUCCESS, buffer, left)
    else if params.buffer = none then some (STATUS_INVALID_PARAMETER, buffer, left)
    else some (STATUS_SUCCESS, reply.body ++ buffer.drop reply.body.length, left)

/-! ## Over the Unix socket: the game's half -/

/-- `io_timeout.as_millis().max(1) as u64`. -/
def timeoutMs (ioTimeoutMs : ℕ) : ℕ := max ioTimeoutMs 1 % 2 ^ 64

/-- What `unixlib::request_with_timeout` hands to `exchange`. -/
def exchangeParams (socketPath : String) (ioTimeoutMs : ℕ) (msgType : UInt16)
    (payload : List UInt8) : ExchangeParams where
  socketPath := some socketPath
  request := some payload
  requestLen := payload.length
  timeoutMs := timeoutMs ioTimeoutMs
  msgType := msgType.toNat

/-- What it hands to `fetch_reply`. -/
def fetchParams (params : ExchangeParams) : FetchReplyParams where
  replyHandle := params.replyHandle
  buffer := some (List.replicate params.replyLen 0)
  bufferLen := params.replyLen

/-- `unixlib::request_with_timeout`, by a thread that is alone; `none` is undefined behaviour. -/
def requestOverUnixlib (parked : Parked) (box : ℕ) (socketPath : String) (ioTimeoutMs : ℕ)
    (peer : Peer) (msgType : UInt16) (payload : List UInt8) : Option (Traffic × Parked) :=
  match exchange parked box (exchangeParams socketPath ioTimeoutMs msgType payload) peer with
  | (sent, status, params, parked) =>
      if status ≠ STATUS_SUCCESS then some ({ sent := sent, result := .error E_FAIL }, parked)
      else do
        let (status, body, parked) ← fetchReply parked (fetchParams params)
        if status ≠ STATUS_SUCCESS then some ({ sent := sent, result := .error E_FAIL }, parked)
        else some ({ sent := sent, result := .ok (params.replyType % 2 ^ 16, body) }, parked)

/-! ## Two copies of one framing -/

/-- The length field of a frame. -/
def lengthField (frame : List UInt8) : ℕ := fromLeBytes ((frame.drop 6).take 4)

/-- The frame that both transports send. -/
def requestFrame (msgType : UInt16) (payload : List UInt8) : List UInt8 :=
  leBytes 4 XML_MAGIC_V2 ++ leBytes 2 msgType.toNat ++ leBytes 4 (payload.length % 2 ^ 32) ++ payload

theorem lengthField_requestFrame (msgType : UInt16) (payload : List UInt8) :
    lengthField (requestFrame msgType payload) = payload.length % 2 ^ 32 := by
  have hprefix : (leBytes 4 XML_MAGIC_V2 ++ leBytes 2 msgType.toNat).length = 6 := by
    rw [List.length_append, length_leBytes, length_leBytes]
  unfold lengthField requestFrame
  rw [List.append_assoc, List.drop_left' hprefix, List.take_left' (length_leBytes 4 _),
    fromLeBytes_leBytes]
  exact Nat.mod_mod _ _

/-- What the host's half reports is what comes back over TCP, but for the status. -/
def SameReply (result : Except HRESULT (ℕ × List UInt8)) :
    Except NtStatus (ℕ × ℕ × List UInt8) → Prop
  | .error _ => result = .error E_FAIL
  | .ok (replyType, size, body) =>
      result = .ok (replyType, body) ∧ replyType < 2 ^ 16 ∧ size = body.length

section Framing
variable (peer : Peer) (msgType : UInt16) {payload : List UInt8} (socketPath : String)
  (ioTimeoutMs : ℕ)

theorem fromLeBytes_take_lt (k : ℕ) (bytes : List UInt8) :
    fromLeBytes (bytes.take k) < 256 ^ k := by
  refine Nat.lt_of_lt_of_le (fromLeBytes_lt _) (Nat.pow_le_pow_right (by decide) ?_)
  exact List.length_take_le k bytes

/-- Up to the largest message both put the same frame on the wire and read the same reply. -/
theorem exchangeReply_same (h : payload.length ≤ MAX_MESSAGE_SIZE)
    (htimeout : timeoutMs ioTimeoutMs ≠ 0) :
    (exchangeReply (exchangeParams socketPath ioTimeoutMs msgType payload) peer).1 =
      (requestOverTcp peer msgType payload).sent ∧
    SameReply (requestOverTcp peer msgType payload).result
      (exchangeReply (exchangeParams socketPath ioTimeoutMs msgType payload) peer).2 := by
  have htype : msgType.toNat % 2 ^ 16 = msgType.toNat := Nat.mod_eq_of_lt msgType.toNat_lt
  unfold exchangeReply requestOverTcp
  simp only [exchangeParams, htimeout, reduceCtorEq, or_false, if_false, and_false, gt_iff_lt,
    if_neg (Nat.not_lt.mpr h), Option.getD_some, List.take_length, htype]
  cases (writeAll (leBytes 4 XML_MAGIC_V2 ++ leBytes 2 msgType.toNat ++
    leBytes 4 (payload.length % 2 ^ 32) ++ payload) peer.departures).1 with
  | error e => exact ⟨rfl, rfl⟩
  | ok u =>
    dsimp only
    rw [readExact_add 4 6]
    cases hmagic : readExact 4 peer.arrivals with
    | mk magic arrivals =>
      cases magic with
      | error e => exact ⟨rfl, rfl⟩
      | ok magic =>
        have hlength : magic.length = 4 := readExact_length (by rw [hmagic])
        dsimp only
        cases hheader : readExact 6 arrivals with
        | mk header rest =>
          cases header with
          | error e =>
            by_cases hbad : fromLeBytes magic ≠ XML_MAGIC_V2
            · rw [if_pos hbad]
              exact ⟨rfl, rfl⟩
            · rw [if_neg hbad]
              exact ⟨rfl, rfl⟩
          | ok header =>
            have hdrop : (magic ++ header).drop 6 = header.drop 2 := by
              rw [List.drop_append, hlength, List.drop_eq_nil_of_le (by omega)]
              rfl
            simp only [Except.map, List.take_left' hlength, List.drop_left' hlength, hdrop]
            by_cases hbad : fromLeBytes magic ≠ XML_MAGIC_V2
            · simp only [if_pos hbad]
              exact ⟨trivial, rfl⟩
            · simp only [if_neg hbad]
              by_cases hsize : MAX_MESSAGE_SIZE < fromLeBytes ((header.drop 2).take 4)
              · simp only [if_pos hsize]
                exact ⟨trivial, rfl⟩
              · simp only [if_neg hsize]
                cases hbody : (readExact (fromLeBytes ((header.drop 2).take 4)) rest).1 with
                | error e => exact ⟨rfl, rfl⟩
                | ok body =>
                  exact ⟨rfl, rfl, fromLeBytes_take_lt 2 header, (readExact_length hbody).symm⟩

theorem requestOverTcp_sent : (requestOverTcp peer msgType payload).sent =
    (writeAll (requestFrame msgType payload) peer.departures).2 := by
  unfold requestOverTcp requestFrame
  dsimp only
  split
  · rfl
  · split
    · rfl
    · split
      · rfl
      · split
        · rfl
        · split
          · rfl
          · split <;> rfl

/-- A larger message is refused by the host's half before anything goes out, and so is a time-out
that the cast leaves nothing of. -/
theorem exchangeReply_refused (h : ¬(payload.length ≤ MAX_MESSAGE_SIZE ∧ timeoutMs ioTimeoutMs ≠ 0)) :
    exchangeReply (exchangeParams socketPath ioTimeoutMs msgType payload) peer =
      ([], .error STATUS_INVALID_PARAMETER) := by
  by_cases htimeout : timeoutMs ioTimeoutMs = 0
  · rw [exchangeReply, if_pos (.inr htimeout)]
  · have hlarge : MAX_MESSAGE_SIZE < payload.length :=
      Nat.not_le.mp fun hle => h ⟨hle, htimeout⟩
    simp [exchangeReply, exchangeParams, htimeout, hlarge]

end Framing

section Fetch
variable (parked : Parked) (box : ℕ) (params : ExchangeParams) {body : List UInt8} {peer : Peer}
  {sent : List UInt8}

theorem exchange_error {status : NtStatus}
    (h : exchangeReply params.cleared peer = (sent, .error status)) :
    exchange parked box params peer = (sent, status, params.cleared, parked) := by
  unfold exchange
  rw [h]

theorem exchange_ok {replyType size : ℕ}
    (h : exchangeReply params.cleared peer = (sent, .ok (replyType, size, body))) :
    exchange parked box params peer = (sent, STATUS_SUCCESS,
      { params.cleared with replyType := replyType, replyLen := size, replyHandle := box },
      Function.update parked box (some ⟨body⟩)) := by
  unfold exchange
  rw [h]

/-- No failure has the status of a success. -/
theorem exchangeReply_error {status : NtStatus}
    (h : (exchangeReply params peer).2 = .error status) : status ≠ STATUS_SUCCESS := by
  have hio : ∀ e, ioStatus e ≠ STATUS_SUCCESS := by
    intro e
    cases e <;> decide
  unfold exchangeReply at h
  dsimp only at h
  split at h
  · cases h
    decide
  · split at h
    · cases h
      decide
    · split at h
      · cases h
        exact hio _
      · split at h
        · cases h
          exact hio _
        · split at h
          · cases h
            decide
          · split at h
            · cases h
              decide
            · split at h
              · cases h
                exact hio _
              · cases h

theorem exchangeReply_ok {replyType size : ℕ}
    (h : (exchangeReply params peer).2 = .ok (replyType, size, body)) :
    replyType < 2 ^ 16 ∧ size = body.length := by
  unfold exchangeReply at h
  dsimp only at h
  split at h
  · cases h
  · split at h
    · cases h
    · split at h
      · cases h
      · split at h
        · cases h
        · split at h
          · cases h
          · split at h
            · cases h
            · split at h
              · cases h
              · rename_i hbody
                cases h
                exact ⟨fromLeBytes_take_lt 2 _, (readExact_length hbody).symm⟩

/-- `exchange` fails and parks nothing, or it parks the reply that it describes. -/
theorem exchange_cases (peer : Peer) :
    (∃ sent status, status ≠ STATUS_SUCCESS ∧
      exchange parked box params peer = (sent, status, params.cleared, parked)) ∨
    ∃ sent replyType body, replyType < 2 ^ 16 ∧
      exchange parked box params peer = (sent, STATUS_SUCCESS,
        { params.cleared with replyType := replyType, replyLen := body.length, replyHandle := box },
        Function.update parked box (some ⟨body⟩)) := by
  cases hreply : exchangeReply params.cleared peer with
  | mk sent found =>
    cases found with
    | error status =>
      exact .inl ⟨sent, status, exchangeReply_error _ (congrArg Prod.snd hreply),
        exchange_error parked box params hreply⟩
    | ok found =>
      obtain ⟨replyType, size, body⟩ := found
      obtain ⟨htype, rfl⟩ := exchangeReply_ok _ (congrArg Prod.snd hreply)
      exact .inr ⟨sent, replyType, body, htype, exchange_ok parked box params hreply⟩

/-- A call that fetches its own reply gets it whole. -/
theorem fetchReply_own {handle : ℕ} (hhandle : handle ≠ 0)
    (hparked : parked handle = some ⟨body⟩) :
    fetchReply parked ⟨handle, some (List.replicate body.length 0), body.length⟩ =
      some (STATUS_SUCCESS, body, Function.update parked handle none) := by
  unfold fetchReply
  rw [if_neg hhandle, hparked]
  simp only [Option.getD_some, Option.bind_eq_bind, Option.bind_some, Nat.lt_irrefl, if_false,
    reduceCtorEq]
  by_cases hempty : body = []
  · rw [if_pos hempty, hempty]
    rfl
  · rw [if_neg hempty, List.drop_eq_nil_of_le (Nat.le_of_eq List.length_replicate),
      List.append_nil]

end Fetch

section Unixlib
variable (peer : Peer) (parked : Parked) (box : ℕ) (socketPath : String) (ioTimeoutMs : ℕ)
  (msgType : UInt16) {payload : List UInt8}

/-- The host's half is behind the call as TCP is, and nothing stays parked. -/
theorem requestOverUnixlib_same (h : payload.length ≤ MAX_MESSAGE_SIZE)
    (htimeout : timeoutMs ioTimeoutMs ≠ 0) (hbox : box ≠ 0) (hfree : parked box = none) :
    requestOverUnixlib parked box socketPath ioTimeoutMs peer msgType payload =
      some (requestOverTcp peer msgType payload, parked) := by
  obtain ⟨hsent, hreply⟩ := exchangeReply_same peer msgType socketPath ioTimeoutMs h htimeout
  unfold requestOverUnixlib
  cases hexchange : exchangeReply (exchangeParams socketPath ioTimeoutMs msgType payload) peer with
  | mk sent found =>
    rw [hexchange] at hsent hreply
    cases found with
    | error status =>
      rw [exchange_error _ _ (exchangeParams _ _ _ _) hexchange]
      have hfailed := exchangeReply_error _ (congrArg Prod.snd hexchange)
      dsimp only at hsent hreply ⊢
      rw [if_pos hfailed, hsent, ← hreply]
    | ok found =>
      obtain ⟨replyType, size, body⟩ := found
      obtain ⟨hresult, htype, rfl⟩ := hreply
      rw [exchange_ok _ _ (exchangeParams _ _ _ _) hexchange]
      dsimp only at hsent ⊢
      simp only [fetchParams]
      rw [if_neg (by simp), fetchReply_own _ hbox (Function.update_self ..)]
      simp only [Option.bind_eq_bind, Option.bind_some, ne_eq, not_true, if_false,
        Nat.mod_eq_of_lt htype, Function.update_idem, hsent, ← hresult]
      rw [Function.update_eq_self_iff.mpr hfree.symm]

theorem requestOverUnixlib_refused
    (h : ¬(payload.length ≤ MAX_MESSAGE_SIZE ∧ timeoutMs ioTimeoutMs ≠ 0)) :
    requestOverUnixlib parked box socketPath ioTimeoutMs peer msgType payload =
      some ({ result := .error E_FAIL }, parked) := by
  unfold requestOverUnixlib
  rw [exchange_error _ _ (exchangeParams _ _ _ _)
    (exchangeReply_refused peer msgType socketPath ioTimeoutMs h)]
  rfl

end Unixlib

/-- The two transports behave alike on a request, whatever the service does and wherever the
reply is parked meanwhile. -/
def TransportsAgree (socketPath : String) (ioTimeoutMs : ℕ) (msgType : UInt16)
    (payload : List UInt8) : Prop :=
  ∀ (peer : Peer) (parked : Parked) (box : ℕ), box ≠ 0 → parked box = none →
    requestOverUnixlib parked box socketPath ioTimeoutMs peer msgType payload =
      some (requestOverTcp peer msgType payload, parked) ∧
    ∃ frame, (requestOverTcp peer msgType payload).sent <+: frame ∧
      lengthField frame = payload.length

/-- What is refused goes out over TCP. -/
theorem not_transportsAgree (socketPath : String) (ioTimeoutMs : ℕ) (msgType : UInt16)
    {payload : List UInt8} (h : ¬(payload.length ≤ MAX_MESSAGE_SIZE ∧ timeoutMs ioTimeoutMs ≠ 0)) :
    ¬ TransportsAgree socketPath ioTimeoutMs msgType payload := by
  intro hagree
  obtain ⟨hsame, -⟩ := hagree {} (fun _ => none) 1 (by decide) rfl
  rw [requestOverUnixlib_refused _ _ _ _ _ _ h] at hsame
  have hsent := congrArg (fun t => Traffic.sent t.1) (Option.some.inj hsame)
  dsimp only at hsent
  rw [requestOverTcp_sent] at hsent
  have hframe := congrArg List.length hsent
  simp [requestFrame, writeAll, leBytes] at hframe

theorem transports_agree_iff (socketPath : String) (ioTimeoutMs : ℕ) (msgType : UInt16)
    (payload : List UInt8) :
    TransportsAgree socketPath ioTimeoutMs msgType payload ↔
      payload.length ≤ MAX_MESSAGE_SIZE ∧ timeoutMs ioTimeoutMs ≠ 0 := by
  constructor
  · intro h
    by_contra hrefused
    exact not_transportsAgree socketPath ioTimeoutMs msgType hrefused h
  · rintro ⟨hlen, htimeout⟩ peer parked box hbox hfree
    refine ⟨requestOverUnixlib_same _ _ _ _ _ _ hlen htimeout hbox hfree,
      requestFrame msgType payload, ?_, ?_⟩
    · rw [requestOverTcp_sent]
      exact writeAll_front _ _
    · rw [lengthField_requestFrame]
      exact Nat.mod_eq_of_lt (Nat.lt_of_le_of_lt hlen (by decide))

/-- A payload of one byte more than the largest message. -/
theorem transports_disagree_large :
    ¬ ∀ (socketPath : String) (ioTimeoutMs : ℕ) (msgType : UInt16) (payload : List UInt8),
      TransportsAgree socketPath ioTimeoutMs msgType payload := by
  intro h
  refine not_transportsAgree "xodus.sock" 10000 1 (fun hmeets => ?_)
    (h "xodus.sock" 10000 1 (List.replicate (MAX_MESSAGE_SIZE + 1) 0))
  rw [List.length_replicate] at hmeets
  exact absurd hmeets.1 (Nat.not_succ_le_self _)

end XGameRuntime.Ipc
