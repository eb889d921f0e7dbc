import XGameRuntime.Bytes.Delivery
import XGameRuntime.Ipc.Hex
import XGameRuntime.Ipc.Transport

/-! # Sessions

`request_over_tcp` of `src/ipc.rs` as a whole: where the service is, the handshake, one request and
its reply, and what a caller makes of it. Then `request_with_timeout`, which prefers the Unix socket.
-/

namespace XGameRuntime.Ipc
open Bytes
set_option autoImplicit false

def HANDSHAKE_MAGIC : ℕ := 0x55414458
def HANDSHAKE_ACCEPTED : UInt8 := 1
def SECRET_LEN : ℕ := 32

/-- What `xodus-cli run` publishes: `XODUS_TCP_PORT` and `XODUS_TCP_SECRET`. -/
structure Environment where
  tcpPort : Option String := none
  tcpSecret : Option String := none
  deriving DecidableEq, Repr

/-- `str::parse::<u16>`. -/
def parseU16 (s : String) : Option ℕ :=
  let digits := match s.toList with
    | '+' :: rest => rest
    | chars => chars
  if digits = [] ∨ digits.all Char.isDigit = false then none
  else
    let n := digits.foldl (fun n c => 10 * n + (c.toNat - 48)) 0
    if n < 2 ^ 16 then some n else none

def endpoint (env : Environment) : Except HRESULT (ℕ × List UInt8) :=
  match env.tcpPort.bind parseU16 with
  | none => .error E_NOTIMPL
  | some port =>
      match (env.tcpSecret.bind hexDecode).filter fun s => s.length = SECRET_LEN with
      | none => .error E_NOTIMPL
      | some secret => .ok (port, secret)

/-- `perform_handshake`: what has gone out, and the connection after it. -/
def performHandshake (peer : Peer) (secret : List UInt8) :
    List UInt8 × Except HRESULT Peer :=
  let magic := writeAll (leBytes 4 HANDSHAKE_MAGIC) peer.departures
  let departures := afterWrite (leBytes 4 HANDSHAKE_MAGIC) peer.departures
  match magic.1 with
  | .error _ => (magic.2, .error E_FAIL)
  | .ok () =>
      let presented := writeAll secret departures
      match presented.1 with
      | .error _ => (magic.2 ++ presented.2, .error E_FAIL)
      | .ok () =>
          match readExact 1 peer.arrivals with
          | (.error _, _) => (magic.2 ++ presented.2, .error E_FAIL)
          | (.ok accepted, arrivals) =>
              if accepted ≠ [HANDSHAKE_ACCEPTED] then (magic.2 ++ presented.2, .error E_FAIL)
              else
                (magic.2 ++ presented.2,
                  .ok { departures := afterWrite secret departures, arrivals := arrivals })

/-- `request_over_tcp`; `connect` is what comes of connecting to a port. -/
def request (env : Environment) (connect : ℕ → Option Peer) (msgType : UInt16)
    (payload : List UInt8) : Traffic :=
  match endpoint env with
  | .error e => { result := .error e }
  | .ok (port, secret) =>
      match connect port with
      | none => { result := .error E_FAIL }
      | some peer =>
          match performHandshake peer secret with
          | (sent, .error e) => { sent := sent, result := .error e }
          | (sent, .ok peer) =>
              let traffic := requestOverTcp peer msgType payload
              { sent := sent ++ traffic.sent, result := traffic.result }

/-! ## On the wire -/

/-- What goes out before the request. -/
def hello (secret : List UInt8) : List UInt8 := leBytes 4 HANDSHAKE_MAGIC ++ secret

/-- A reply as the service sends it. -/
def replyFrame (replyType : ℕ) (body : List UInt8) : List UInt8 :=
  leBytes 4 XML_MAGIC_V2 ++ leBytes 2 replyType ++ leBytes 4 body.length ++ body

/-- The service accepts the secret, takes the request and sends the reply. -/
structure Answers (peer : Peer) (secret : List UInt8) (msgType : UInt16) (payload : List UInt8)
    (replyType : ℕ) (body : List UInt8) : Prop where
  takes : Takes [leBytes 4 HANDSHAKE_MAGIC, secret, requestFrame msgType payload] peer.departures
  replyType_lt : replyType < 2 ^ 16
  body_le : body.length ≤ MAX_MESSAGE_SIZE
  replies : HANDSHAKE_ACCEPTED :: replyFrame replyType body <+: delivered peer.arrivals

section Reply
variable {peer : Peer} {msgType : UInt16} {payload : List UInt8}

theorem leBytes_fromLeBytes (bytes : List UInt8) :
    leBytes bytes.length (fromLeBytes bytes) = bytes := by
  induction bytes with
  | nil => rfl
  | cons b bytes ih =>
    have hb := b.toNat_lt
    have hdiv : (b.toNat + 256 * fromLeBytes bytes) / 256 = fromLeBytes bytes := by omega
    have hmod : UInt8.ofNat (b.toNat + 256 * fromLeBytes bytes) = b := by
      apply UInt8.toNat_inj.mp
      rw [UInt8.toNat_ofNat']
      omega
    rw [List.length_cons, fromLeBytes, leBytes, hdiv, ih, hmod]

theorem fromLeBytes_eq {k n : ℕ} {bytes : List UInt8} (h : bytes.length = k) (hn : n < 256 ^ k) :
    fromLeBytes bytes = n ↔ bytes = leBytes k n := by
  constructor
  · rintro rfl
    rw [← h, leBytes_fromLeBytes]
  · rintro rfl
    rw [fromLeBytes_leBytes, Nat.mod_eq_of_lt hn]

/-- The half of `request_over_tcp` that reads the reply. -/
def readReply (arrivals : List Arrival) : Except HRESULT (ℕ × List UInt8) :=
  match readExact 4 arrivals with
  | (.error _, _) => .error E_FAIL
  | (.ok magic, arrivals) =>
      if fromLeBytes magic ≠ XML_MAGIC_V2 then .error E_FAIL
      else
        match readExact 6 arrivals with
        | (.error _, _) => .error E_FAIL
        | (.ok header, arrivals) =>
            let size := fromLeBytes ((header.drop 2).take 4)
            if size > MAX_MESSAGE_SIZE then .error E_FAIL
            else
              match (readExact size arrivals).1 with
              | .error _ => .error E_FAIL
              | .ok body => .ok (fromLeBytes (header.take 2), body)

theorem requestOverTcp_result : (requestOverTcp peer msgType payload).result =
    match (writeAll (requestFrame msgType payload) peer.departures).1 with
    | .error _ => .error E_FAIL
    | .ok () => readReply peer.arrivals := by
  unfold requestOverTcp requestFrame readReply
  dsimp only
  cases (writeAll (leBytes 4 XML_MAGIC_V2 ++ leBytes 2 msgType.toNat ++
    leBytes 4 (payload.length % 2 ^ 32) ++ payload) peer.departures).1 with
  | error e => rfl
  | ok u =>
    dsimp only
    rcases readExact 4 peer.arrivals with ⟨e | magic, arrivals⟩
    · rfl
    · dsimp only
      split
      · rfl
      · rcases readExact 6 arrivals with ⟨e | header, arrivals⟩
        · rfl
        · dsimp only
          split
          · rfl
          · rcases (readExact (fromLeBytes ((header.drop 2).take 4)) arrivals).1 with e | body
            · rfl
            · rfl

/-- A reply is read from what the service delivers, however that is cut. -/
theorem readReply_ok {arrivals : List Arrival} {replyType : ℕ} {body : List UInt8} :
    readReply arrivals = .ok (replyType, body) ↔ replyType < 2 ^ 16 ∧
      body.length ≤ MAX_MESSAGE_SIZE ∧ replyFrame replyType body <+: delivered arrivals := by
  constructor
  · intro h
    unfold readReply at h
    split at h
    · cases h
    · rename_i magic rest hmagic
      split at h
      · cases h
      · rename_i hversion
        split at h
        · cases h
        · rename_i header rest' hheader
          dsimp only at h
          split at h
          · cases h
          · rename_i hsize
            split at h
            · cases h
            · rename_i body' hbody
              cases h
              obtain ⟨hmagic4, hfirst⟩ := readExact_ok hmagic
              obtain ⟨hheader6, hsecond⟩ := readExact_ok hheader
              obtain ⟨hlen, hthird⟩ := readExact_ok (Prod.ext hbody rfl)
              have htype : (header.take 2).length = 2 := by rw [List.length_take]; omega
              have hfield : ((header.drop 2).take 4).length = 4 := by
                rw [List.length_take, List.length_drop]
                omega
              have hsplit : header = header.take 2 ++ (header.drop 2).take 4 := by
                have hdrop : (header.drop 2).take 4 = header.drop 2 :=
                  List.take_of_length_le (by rw [List.length_drop]; omega)
                rw [hdrop, List.take_append_drop]
              have hlt := fromLeBytes_take_lt 2 header
              have hframe : replyFrame (fromLeBytes (header.take 2)) body =
                  magic ++ header ++ body := by
                rw [replyFrame, hlen, ← (fromLeBytes_eq hmagic4 (by decide)).mp
                  (not_not.mp hversion), ← (fromLeBytes_eq htype hlt).mp rfl,
                  ← (fromLeBytes_eq hfield (fromLeBytes_take_lt 4 _)).mp rfl,
                  List.append_assoc magic, ← hsplit]
              refine ⟨hlt, Nat.le_of_not_lt (hlen ▸ hsize), ?_⟩
              rw [hframe, hfirst, hsecond, hthird, ← List.append_assoc, ← List.append_assoc]
              exact List.prefix_append _ _
  · rintro ⟨htype, hbody, tail, htail⟩
    rw [replyFrame] at htail
    simp only [List.append_assoc] at htail
    obtain ⟨rest, hmagic, hrest⟩ := readExact_first htail.symm
    rw [← List.append_assoc] at hrest
    obtain ⟨rest', hheader, hrest'⟩ := readExact_first hrest
    obtain ⟨rest'', hread, -⟩ := readExact_first hrest'
    have hsize : body.length < 256 ^ 4 := Nat.lt_of_le_of_lt hbody (by decide)
    have htype : replyType < 256 ^ 2 := htype
    rw [length_leBytes] at hmagic
    rw [List.length_append, length_leBytes, length_leBytes] at hheader
    have htake : (leBytes 2 replyType ++ leBytes 4 body.length).take 2 = leBytes 2 replyType :=
      List.take_left' (length_leBytes 2 _)
    have hdrop : ((leBytes 2 replyType ++ leBytes 4 body.length).drop 2).take 4 =
        leBytes 4 body.length := by
      rw [List.drop_left' (length_leBytes 2 _)]
      exact List.take_of_length_le (Nat.le_of_eq (length_leBytes 4 _))
    unfold readReply
    rw [hmagic]
    dsimp only
    rw [fromLeBytes_leBytes, Nat.mod_eq_of_lt (by decide), if_neg (not_not.mpr rfl), hheader]
    dsimp only
    rw [htake, hdrop, fromLeBytes_leBytes, fromLeBytes_leBytes, Nat.mod_eq_of_lt hsize,
      Nat.mod_eq_of_lt htype, if_neg (Nat.not_lt.mpr hbody), hread]

theorem readReply_error {arrivals : List Arrival} {e : HRESULT}
    (h : readReply arrivals = .error e) : e = E_FAIL := by
  unfold readReply at h
  split at h
  · cases h; rfl
  · split at h
    · cases h; rfl
    · split at h
      · cases h; rfl
      · dsimp only at h
        split at h
        · cases h; rfl
        · split at h
          · cases h; rfl
          · cases h

end Reply

/-! ## The whole session -/

section Handshake
variable {peer peer' : Peer} {secret sent : List UInt8}

theorem performHandshake_sent : (performHandshake peer secret).1 <+: hello secret := by
  unfold performHandshake hello
  dsimp only
  split
  · exact List.IsPrefix.trans (writeAll_front _ _) (List.prefix_append _ _)
  · rename_i hmagic
    rw [writeAll_all hmagic]
    have hprefix : leBytes 4 HANDSHAKE_MAGIC ++ (writeAll secret
        (afterWrite (leBytes 4 HANDSHAKE_MAGIC) peer.departures)).2 <+:
          leBytes 4 HANDSHAKE_MAGIC ++ secret :=
      (List.prefix_append_right_inj _).mpr (writeAll_front _ _)
    split
    · exact hprefix
    · split
      · exact hprefix
      · split
        · exact hprefix
        · exact hprefix

/-- The handshake succeeds when the service takes the secret and says so. -/
theorem performHandshake_ok : performHandshake peer secret = (sent, .ok peer') ↔
    sent = hello secret ∧ (writeAll (leBytes 4 HANDSHAKE_MAGIC) peer.departures).1 = .ok () ∧
      (writeAll secret (afterWrite (leBytes 4 HANDSHAKE_MAGIC) peer.departures)).1 = .ok () ∧
        readExact 1 peer.arrivals = (.ok [HANDSHAKE_ACCEPTED], peer'.arrivals) ∧
          peer'.departures =
            afterWrite secret (afterWrite (leBytes 4 HANDSHAKE_MAGIC) peer.departures) := by
  constructor
  · intro h
    unfold performHandshake at h
    dsimp only at h
    split at h
    · cases h
    · rename_i hmagic
      split at h
      · cases h
      · rename_i hsecret
        split at h
        · cases h
        · rename_i accepted arrivals hread
          split at h
          · cases h
          · rename_i haccepted
            cases h
            rw [writeAll_all hmagic, writeAll_all hsecret]
            exact ⟨rfl, hmagic, hsecret, not_not.mp haccepted ▸ hread, rfl⟩
  · rintro ⟨rfl, hmagic, hsecret, hread, hdepartures⟩
    unfold performHandshake
    dsimp only
    rw [hmagic]
    dsimp only
    rw [hsecret]
    dsimp only
    rw [hread]
    dsimp only
    rw [if_neg (not_not.mpr rfl), writeAll_all hmagic, writeAll_all hsecret, ← hdepartures]
    rfl

theorem performHandshake_error {e : HRESULT} (h : performHandshake peer secret = (sent, .error e)) :
    e = E_FAIL := by
  unfold performHandshake at h
  dsimp only at h
  split at h
  · cases h; rfl
  · split at h
    · cases h; rfl
    · split at h
      · cases h; rfl
      · split at h
        · cases h; rfl
        · cases h

end Handshake

section Session
variable {env : Environment} {connect : ℕ → Option Peer} {msgType : UInt16} {payload : List UInt8}

theorem endpoint_error {e : HRESULT} (h : endpoint env = .error e) : e = E_NOTIMPL := by
  unfold endpoint at h
  split at h
  · cases h; rfl
  · split at h
    · cases h; rfl
    · cases h

/-- A session succeeds when the service answers. -/
theorem request_ok {replyType : ℕ} {body : List UInt8} :
    (request env connect msgType payload).result = .ok (replyType, body) ↔
      ∃ port secret peer, endpoint env = .ok (port, secret) ∧ connect port = some peer ∧
        Answers peer secret msgType payload replyType body := by
  unfold request
  cases hendpoint : endpoint env with
  | error e =>
    refine ⟨fun h => (by cases h), ?_⟩
    rintro ⟨port, secret, peer, h, -⟩
    cases h
  | ok found =>
    obtain ⟨port, secret⟩ := found
    dsimp only
    have hport : (∃ port' secret' peer, (.ok (port, secret) : Except HRESULT (ℕ × List UInt8)) =
        .ok (port', secret') ∧ connect port' = some peer ∧
          Answers peer secret' msgType payload replyType body) ↔
        ∃ peer, connect port = some peer ∧ Answers peer secret msgType payload replyType body := by
      constructor
      · rintro ⟨port', secret', peer, h, hrest⟩
        cases h
        exact ⟨peer, hrest⟩
      · rintro ⟨peer, hrest⟩
        exact ⟨port, secret, peer, rfl, hrest⟩
    rw [hport]
    cases hconnect : connect port with
    | none =>
      refine ⟨fun h => (by cases h), ?_⟩
      rintro ⟨peer, h, -⟩
      cases h
    | some peer =>
      dsimp only
      have hpeer : (∃ peer', some peer = some peer' ∧
          Answers peer' secret msgType payload replyType body) ↔
          Answers peer secret msgType payload replyType body := by
        constructor
        · rintro ⟨peer', h, hrest⟩
          cases h
          exact hrest
        · exact fun h => ⟨peer, rfl, h⟩
      rw [hpeer]
      constructor
      · intro h
        split at h
        · cases h
        · rename_i sent peer' hshake
          obtain ⟨-, hmagic, hsecret, haccepted, hdepartures⟩ := performHandshake_ok.mp hshake
          dsimp only at h
          rw [requestOverTcp_result] at h
          split at h
          · cases h
          · rename_i hframe
            obtain ⟨htype, hbody, hreply⟩ := readReply_ok.mp h
            refine ⟨⟨hmagic, hsecret, hdepartures ▸ hframe, trivial⟩, htype, hbody, ?_⟩
            rw [(readExact_ok haccepted).2]
            exact List.cons_prefix_cons.mpr ⟨rfl, hreply⟩
      · rintro ⟨⟨hmagic, hsecret, hframe, -⟩, htype, hbody, tail, htail⟩
        have hdelivered : delivered peer.arrivals =
            [HANDSHAKE_ACCEPTED] ++ (replyFrame replyType body ++ tail) := htail.symm
        obtain ⟨rest, haccepted, hrest⟩ := readExact_first hdelivered
        have hshake : performHandshake peer secret = (hello secret, .ok ⟨afterWrite secret
            (afterWrite (leBytes 4 HANDSHAKE_MAGIC) peer.departures), rest⟩) :=
          performHandshake_ok.mpr ⟨rfl, hmagic, hsecret, haccepted, rfl⟩
        rw [hshake]
        dsimp only
        rw [requestOverTcp_result, hframe]
        exact readReply_ok.mpr ⟨htype, hbody, tail, hrest.symm⟩

/-- What a session puts on the wire, and the request only once the service has accepted the secret. -/
structure Discreet (env : Environment) (connect : ℕ → Option Peer) (msgType : UInt16)
    (payload sent : List UInt8) : Prop where
  sends : sent ≠ [] → ∃ port secret peer, endpoint env = .ok (port, secret) ∧
    connect port = some peer ∧ sent <+: hello secret ++ requestFrame msgType payload ∧
      ((hello secret).length < sent.length →
        (delivered peer.arrivals).head? = some HANDSHAKE_ACCEPTED)

theorem discreet_nil : Discreet env connect msgType payload [] := ⟨fun h => absurd rfl h⟩

theorem request_discreet :
    Discreet env connect msgType payload (request env connect msgType payload).sent := by
  unfold request
  cases hendpoint : endpoint env with
  | error e => exact discreet_nil
  | ok found =>
    obtain ⟨port, secret⟩ := found
    dsimp only
    cases hconnect : connect port with
    | none => exact discreet_nil
    | some peer =>
      dsimp only
      cases hshake : performHandshake peer secret with
      | mk sent result =>
        have hsent : sent <+: hello secret := by
          have hprefix : (performHandshake peer secret).1 <+: hello secret := performHandshake_sent
          rwa [hshake] at hprefix
        cases result with
        | error e =>
          refine ⟨fun _ => ⟨port, secret, peer, hendpoint, hconnect, ?_, fun hlong => ?_⟩⟩
          · exact hsent.trans (List.prefix_append _ _)
          · exact absurd hlong (Nat.not_lt.mpr hsent.length_le)
        | ok peer' =>
          obtain ⟨rfl, -, -, haccepted, -⟩ := performHandshake_ok.mp hshake
          refine ⟨fun _ => ⟨port, secret, peer, hendpoint, hconnect, ?_, fun _ => ?_⟩⟩
          · dsimp only
            rw [requestOverTcp_sent]
            exact (List.prefix_append_right_inj _).mpr (writeAll_front _ _)
          · rw [(readExact_ok haccepted).2]
            rfl

theorem requestOverTcp_error {peer : Peer} {e : HRESULT}
    (h : (requestOverTcp peer msgType payload).result = .error e) : e = E_FAIL := by
  rw [requestOverTcp_result] at h
  split at h
  · cases h
    rfl
  · exact readReply_error h

/-- An error says whether it is known where the service is. -/
theorem request_error {e : HRESULT} (h : (request env connect msgType payload).result = .error e) :
    endpoint env = .error E_NOTIMPL ∧ e = E_NOTIMPL ∨
      (∃ found, endpoint env = .ok found) ∧ e = E_FAIL := by
  unfold request at h
  cases hendpoint : endpoint env with
  | error e' =>
    rw [hendpoint] at h
    cases h
    obtain rfl := endpoint_error hendpoint
    exact .inl ⟨rfl, rfl⟩
  | ok found =>
    refine .inr ⟨⟨found, rfl⟩, ?_⟩
    rw [hendpoint] at h
    dsimp only at h
    split at h
    · cases h
      rfl
    · split at h
      · rename_i hshake
        cases h
        exact performHandshake_error hshake
      · exact requestOverTcp_error h

/-- A session sends its greeting and its request, of which no byte leaves before the service has accepted
the secret. It succeeds just when the service takes all of it and sends a well-formed reply, in pieces of
any size, and its result is that reply. -/
theorem session_exact (env : Environment) (connect : ℕ → Option Peer) (msgType : UInt16)
    (payload : List UInt8) :
    Discreet env connect msgType payload (request env connect msgType payload).sent ∧
    (∀ replyType body, (request env connect msgType payload).result = .ok (replyType, body) ↔
      ∃ port secret peer, endpoint env = .ok (port, secret) ∧ connect port = some peer ∧
        Answers peer secret msgType payload replyType body) ∧
    ∀ e, (request env connect msgType payload).result = .error e →
      endpoint env = .error E_NOTIMPL ∧ e = E_NOTIMPL ∨
        (∃ found, endpoint env = .ok found) ∧ e = E_FAIL :=
  ⟨request_discreet, fun _ _ => request_ok, fun _ => request_error⟩

end Session

/-! ## Over either transport -/

/-- What a request finds: the service at a port and at the Unix socket, the replies that other
threads have parked, and the address that the allocator has for one more. -/
structure Surroundings where
  connect : ℕ → Option Peer := fun _ => none
  socket : Option Peer := none
  parked : Parked := fun _ => none
  box : ℕ
  box_ne : box ≠ 0
  free : parked box = none

section Either
variable (unixlib : Option String) (env : Environment) (around : Surroundings) (ioTimeoutMs : ℕ)
  (msgType : UInt16) (payload : List UInt8)

theorem requestOverUnixlib_isSome (around : Surroundings) (socketPath : String) (ioTimeoutMs : ℕ)
    (peer : Peer) (msgType : UInt16) (payload : List UInt8) :
    (requestOverUnixlib around.parked around.box socketPath ioTimeoutMs peer msgType
      payload).isSome := by
  by_cases h : payload.length ≤ MAX_MESSAGE_SIZE ∧ timeoutMs ioTimeoutMs ≠ 0
  · rw [requestOverUnixlib_same _ _ _ _ _ _ h.1 h.2 around.box_ne around.free]
    rfl
  · rw [requestOverUnixlib_refused _ _ _ _ _ _ h]
    rfl

/-- `request_with_timeout`; `unixlib` is the path that its `transport` has found. -/
def requestWithTimeout : Traffic :=
  match unixlib with
  | none => request env around.connect msgType payload
  | some socketPath =>
      match around.socket with
      | none => { result := .error E_FAIL }
      | some peer =>
          ((requestOverUnixlib around.parked around.box socketPath ioTimeoutMs peer msgType
            payload).get (requestOverUnixlib_isSome ..)).1

/-- The service takes a request and sends the reply; at the Unix socket there is no secret. -/
def Serves (replyType : ℕ) (body : List UInt8) : Prop :=
  match unixlib with
  | none => ∃ port secret peer, endpoint env = .ok (port, secret) ∧
      around.connect port = some peer ∧ Answers peer secret msgType payload replyType body
  | some _ => payload.length ≤ MAX_MESSAGE_SIZE ∧ timeoutMs ioTimeoutMs ≠ 0 ∧
      ∃ peer, around.socket = some peer ∧ Takes [requestFrame msgType payload] peer.departures ∧
        replyType < 2 ^ 16 ∧ body.length ≤ MAX_MESSAGE_SIZE ∧
          replyFrame replyType body <+: delivered peer.arrivals

/-- What a request puts on the wire: over TCP nothing of itself before the secret is accepted. -/
def Reticent (sent : List UInt8) : Prop :=
  match unixlib with
  | none => Discreet env around.connect msgType payload sent
  | some _ => sent <+: requestFrame msgType payload

variable {unixlib env around ioTimeoutMs msgType payload} {socketPath : String}

/-- At the Unix socket a request is refused, or it is what it is over TCP after the handshake. -/
theorem requestWithTimeout_unixlib {peer : Peer} (hpeer : around.socket = some peer) :
    requestWithTimeout (some socketPath) env around ioTimeoutMs msgType payload =
      if payload.length ≤ MAX_MESSAGE_SIZE ∧ timeoutMs ioTimeoutMs ≠ 0 then
        requestOverTcp peer msgType payload
      else { result := .error E_FAIL } := by
  simp only [requestWithTimeout, hpeer]
  split
  · rename_i h
    simp only [requestOverUnixlib_same _ _ _ _ _ _ h.1 h.2 around.box_ne around.free,
      Option.get_some]
  · rename_i h
    simp only [requestOverUnixlib_refused _ _ _ _ _ _ h, Option.get_some]

theorem requestWithTimeout_ok {replyType : ℕ} {body : List UInt8} :
    (requestWithTimeout unixlib env around ioTimeoutMs msgType payload).result =
        .ok (replyType, body) ↔
      Serves unixlib env around ioTimeoutMs msgType payload replyType body := by
  cases unixlib with
  | none => exact request_ok
  | some socketPath =>
    unfold Serves
    cases hpeer : around.socket with
    | none =>
      simp only [requestWithTimeout, hpeer]
      refine ⟨fun h => (by cases h), ?_⟩
      rintro ⟨-, -, peer, h, -⟩
      cases h
    | some peer =>
      rw [requestWithTimeout_unixlib hpeer]
      split
      · rename_i hfits
        rw [requestOverTcp_result]
        constructor
        · intro h
          split at h
          · cases h
          · rename_i hframe
            exact ⟨hfits.1, hfits.2, peer, rfl, ⟨hframe, trivial⟩, readReply_ok.mp h⟩
        · rintro ⟨-, -, peer', hsame, ⟨hframe, -⟩, hreply⟩
          cases hsame
          rw [hframe]
          exact readReply_ok.mpr hreply
      · rename_i hfits
        refine ⟨fun h => (by cases h), ?_⟩
        rintro ⟨hlen, htimeout, -⟩
        exact absurd ⟨hlen, htimeout⟩ hfits

theorem requestWithTimeout_reticent : Reticent unixlib env around msgType payload
    (requestWithTimeout unixlib env around ioTimeoutMs msgType payload).sent := by
  cases unixlib with
  | none => exact request_discreet
  | some socketPath =>
    show _ <+: requestFrame msgType payload
    cases hpeer : around.socket with
    | none =>
      simp only [requestWithTimeout, hpeer]
      exact List.nil_prefix
    | some peer =>
      rw [requestWithTimeout_unixlib hpeer]
      split
      · rw [requestOverTcp_sent]
        exact writeAll_front _ _
      · exact List.nil_prefix

theorem requestWithTimeout_error {e : HRESULT}
    (h : (requestWithTimeout unixlib env around ioTimeoutMs msgType payload).result = .error e) :
    e = E_FAIL ∨ e = E_NOTIMPL ∧ unixlib = none ∧ endpoint env = .error E_NOTIMPL := by
  cases unixlib with
  | none =>
    rcases request_error h with ⟨hendpoint, rfl⟩ | ⟨-, rfl⟩
    · exact .inr ⟨rfl, rfl, hendpoint⟩
    · exact .inl rfl
  | some socketPath =>
    cases hpeer : around.socket with
    | none =>
      simp only [requestWithTimeout, hpeer] at h
      cases h
      exact .inl rfl
    | some peer =>
      rw [requestWithTimeout_unixlib hpeer] at h
      split at h
      · exact .inl (requestOverTcp_error h)
      · cases h
        exact .inl rfl

end Either

end XGameRuntime.Ipc
