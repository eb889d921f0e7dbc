import Mathlib.Data.List.Basic
import XGameRuntime.Ipc.Base64
import XGameRuntime.Ipc.Session

/-! # Token and signature

`get_token_and_signature` of `src/ipc.rs`: a typed exchange, over either transport, that is tried up to
three times.
-/

namespace XGameRuntime.Ipc
open Bytes
set_option autoImplicit false

/-! ## Exchanges -/

/-- In milliseconds. -/
def IO_TIMEOUT : ℕ := 10000

/-- The XML of a request and of its response. -/
structure Xml (Req Resp : Type) where
  serialize : Req → Option String
  deserialize : String → Option Resp

section Exchange
variable {Req Resp : Type}

/-- `exchange_with_timeout`: what has gone out, and the response. -/
def exchangeWithTimeout (xml : Xml Req Resp) (unixlib : Option String) (env : Environment)
    (around : Surroundings) (reqType respType : UInt16) (body : Req) (ioTimeoutMs : ℕ) :
    List UInt8 × Except HRESULT Resp :=
  match xml.serialize body with
  | none => ([], .error E_FAIL)
  | some payload =>
      let traffic :=
        requestWithTimeout unixlib env around ioTimeoutMs reqType (utf8Bytes payload)
      match traffic.result with
      | .error e => (traffic.sent, .error e)
      | .ok (replyType, replyBody) =>
          if replyType ≠ respType.toNat then (traffic.sent, .error E_FAIL)
          else
            match (fromUtf8 replyBody).bind xml.deserialize with
            | none => (traffic.sent, .error E_FAIL)
            | some response => (traffic.sent, .ok response)

/-- The service answers the request with a text that is the response. -/
def Responds (xml : Xml Req Resp) (unixlib : Option String) (env : Environment)
    (around : Surroundings) (reqType respType : UInt16) (body : Req) (ioTimeoutMs : ℕ)
    (response : Resp) : Prop :=
  ∃ payload text, xml.serialize body = some payload ∧
    Serves unixlib env around ioTimeoutMs reqType (utf8Bytes payload) respType.toNat
      (utf8Bytes text) ∧
    xml.deserialize text = some response

variable {xml : Xml Req Resp} {unixlib : Option String} {env : Environment} {around : Surroundings}
  {reqType respType : UInt16} {body : Req} {ioTimeoutMs : ℕ}

theorem utf8Bytes_fromUtf8 {bytes : List UInt8} {text : String} (h : fromUtf8 bytes = some text) :
    bytes = utf8Bytes text := by
  unfold fromUtf8 String.fromUTF8? at h
  split at h
  · cases h
    rfl
  · cases h

theorem exchangeWithTimeout_ok {response : Resp} :
    (exchangeWithTimeout xml unixlib env around reqType respType body ioTimeoutMs).2 =
        .ok response ↔
      Responds xml unixlib env around reqType respType body ioTimeoutMs response := by
  unfold exchangeWithTimeout Responds
  cases hpayload : xml.serialize body with
  | none =>
    refine ⟨fun h => (by cases h), ?_⟩
    rintro ⟨payload, text, h, -⟩
    cases h
  | some payload =>
    dsimp only
    constructor
    · intro h
      split at h
      · cases h
      · rename_i replyType replyBody hresult
        split at h
        · cases h
        · rename_i htype
          split at h
          · cases h
          · rename_i found hfound
            cases h
            obtain ⟨text, htext, hresponse⟩ := Option.bind_eq_some_iff.mp hfound
            have hserves := requestWithTimeout_ok.mp hresult
            rw [not_not.mp htype, utf8Bytes_fromUtf8 htext] at hserves
            exact ⟨payload, text, rfl, hserves, hresponse⟩
    · rintro ⟨payload', text, hsame, hserves, hresponse⟩
      cases hsame
      rw [requestWithTimeout_ok.mpr hserves]
      dsimp only
      rw [if_neg (not_not.mpr rfl), fromUtf8_utf8Bytes, Option.bind_some, hresponse]

theorem exchangeWithTimeout_reticent {payload : String} (h : xml.serialize body = some payload) :
    Reticent unixlib env around reqType (utf8Bytes payload)
      (exchangeWithTimeout xml unixlib env around reqType respType body ioTimeoutMs).1 := by
  unfold exchangeWithTimeout
  rw [h]
  dsimp only
  split
  · exact requestWithTimeout_reticent
  · split
    · exact requestWithTimeout_reticent
    · split
      · exact requestWithTimeout_reticent
      · exact requestWithTimeout_reticent

theorem exchangeWithTimeout_error {e : HRESULT}
    (h : (exchangeWithTimeout xml unixlib env around reqType respType body ioTimeoutMs).2 =
      .error e) :
    e = E_FAIL ∨ e = E_NOTIMPL ∧ unixlib = none ∧ endpoint env = .error E_NOTIMPL := by
  unfold exchangeWithTimeout at h
  split at h
  · cases h
    exact .inl rfl
  · dsimp only at h
    split at h
    · rename_i hresult
      cases h
      exact requestWithTimeout_error hresult
    · split at h
      · cases h
        exact .inl rfl
      · split at h
        · cases h
          exact .inl rfl
        · cases h

end Exchange

/-! ## Attempts -/

def TOKEN_AND_SIGNATURE_RETRY_DELAY : ℕ := 300

/-- What a thread does: a session with what has gone out in it, or a pause in milliseconds. -/
inductive Deed where
  | session (sent : List UInt8)
  | sleep (ms : ℕ)
  deriving DecidableEq, Repr

section Retries
variable {α : Type}

/-- The loop of `get_token_and_signature`, with `left` attempts to go. -/
def attempts (once : ℕ → List UInt8 × Except HRESULT α) :
    ℕ → ℕ → HRESULT → List Deed × Except HRESULT α
  | 0, _, lastErr => ([], .error lastErr)
  | left + 1, attempt, _ =>
      match (once attempt).2 with
      | .ok result => ([.session (once attempt).1], .ok result)
      | .error err =>
          let rest := attempts once left (attempt + 1) err
          (.session (once attempt).1 ::
            ((if left = 0 then [] else [.sleep TOKEN_AND_SIGNATURE_RETRY_DELAY]) ++ rest.1), rest.2)

variable {once : ℕ → List UInt8 × Except HRESULT α}

/-- The first success, at the attempt where it comes. -/
theorem attempts_ok {left attempt : ℕ} {lastErr : HRESULT} {result : α} :
    (attempts once left attempt lastErr).2 = .ok result ↔
      ∃ k < left, (once (attempt + k)).2 = .ok result ∧
        ∀ j < k, ∀ result', (once (attempt + j)).2 ≠ .ok result' := by
  induction left generalizing attempt lastErr with
  | zero =>
    refine ⟨fun h => (by cases h), ?_⟩
    rintro ⟨k, hk, -⟩
    exact absurd hk (Nat.not_lt_zero k)
  | succ left ih =>
    rw [attempts]
    cases hfirst : (once attempt).2 with
    | ok found =>
      dsimp only
      constructor
      · intro h
        refine ⟨0, Nat.succ_pos left, ?_, fun j hj => absurd hj (Nat.not_lt_zero j)⟩
        rw [Nat.add_zero, hfirst]
        exact h
      · rintro ⟨k, hk, hresult, hbefore⟩
        cases k with
        | zero =>
          rw [Nat.add_zero, hfirst] at hresult
          exact hresult
        | succ k => exact absurd hfirst (hbefore 0 (Nat.succ_pos k) found)
    | error err =>
      dsimp only
      rw [ih]
      constructor
      · rintro ⟨k, hk, hresult, hbefore⟩
        refine ⟨k + 1, Nat.succ_lt_succ hk, ?_, fun j hj result' => ?_⟩
        · rwa [Nat.add_assoc, Nat.add_comm 1 k] at hresult
        · cases j with
          | zero =>
            rw [Nat.add_zero, hfirst]
            exact fun h => by cases h
          | succ j =>
            have hj := hbefore j (Nat.lt_of_succ_lt_succ hj) result'
            rwa [Nat.add_assoc, Nat.add_comm 1 j] at hj
      · rintro ⟨k, hk, hresult, hbefore⟩
        cases k with
        | zero =>
          rw [Nat.add_zero, hfirst] at hresult
          cases hresult
        | succ k =>
          refine ⟨k, Nat.lt_of_succ_lt_succ hk, ?_, fun j hj => ?_⟩
          · rwa [Nat.add_assoc, Nat.add_comm 1 k]
          · rw [Nat.add_assoc, Nat.add_comm 1 j]
            exact hbefore (j + 1) (Nat.succ_lt_succ hj)

/-- Without a success the error is that of the last attempt. -/
theorem attempts_error {left attempt : ℕ} {lastErr e : HRESULT}
    (h : (attempts once (left + 1) attempt lastErr).2 = .error e) :
    (once (attempt + left)).2 = .error e := by
  induction left generalizing attempt lastErr with
  | zero =>
    rw [attempts] at h
    cases hfirst : (once attempt).2 with
    | ok found =>
      rw [hfirst] at h
      cases h
    | error err =>
      rw [hfirst] at h
      cases h
      rfl
  | succ left ih =>
    rw [attempts] at h
    cases hfirst : (once attempt).2 with
    | ok found =>
      rw [hfirst] at h
      cases h
    | error err =>
      rw [hfirst] at h
      have hlast := ih h
      rwa [Nat.add_assoc, Nat.add_comm 1 left] at hlast

/-- One session for each attempt that is made, with a pause between two. -/
theorem attempts_deeds (once : ℕ → List UInt8 × Except HRESULT α) (left attempt : ℕ)
    (lastErr : HRESULT) : ∃ n ≤ left,
    (attempts once left attempt lastErr).1 =
      ((List.range' attempt n).map fun i => Deed.session (once i).1).intersperse
        (.sleep TOKEN_AND_SIGNATURE_RETRY_DELAY) ∧
    (0 < left → 0 < n) ∧ (∀ i, i + 1 < n → ∃ e, (once (attempt + i)).2 = .error e) ∧
    (n < left → ∃ result, (once (attempt + (n - 1))).2 = .ok result) := by
  induction left generalizing attempt lastErr with
  | zero =>
    refine ⟨0, Nat.le_refl 0, rfl, id, fun i hi => ?_, fun h => absurd h (Nat.lt_irrefl 0)⟩
    exact absurd hi (Nat.not_lt_zero _)
  | succ left ih =>
    rw [attempts]
    cases hfirst : (once attempt).2 with
    | ok found =>
      refine ⟨1, Nat.succ_le_succ (Nat.zero_le left), rfl, fun _ => Nat.one_pos, fun i hi => ?_,
        fun _ => ⟨found, hfirst⟩⟩
      exact absurd hi (by omega)
    | error err =>
      obtain ⟨n, hn, hdeeds, hpos, hfailed, hdone⟩ := ih (attempt + 1) err
      refine ⟨n + 1, Nat.succ_le_succ hn, ?_, fun _ => Nat.succ_pos n, fun i hi => ?_, fun h => ?_⟩
      · dsimp only
        rw [hdeeds, List.range'_succ, List.map_cons]
        cases n with
        | zero =>
          have hleft : left = 0 := by omega
          rw [if_pos hleft]
          rfl
        | succ n =>
          have hleft : left ≠ 0 := by omega
          rw [if_neg hleft, List.range'_succ, List.map_cons]
          rfl
      · cases i with
        | zero => exact ⟨err, hfirst⟩
        | succ i =>
          obtain ⟨e, he⟩ := hfailed i (by omega)
          refine ⟨e, ?_⟩
          rwa [Nat.add_assoc, Nat.add_comm 1 i] at he
      · obtain ⟨result, hresult⟩ := hdone (by omega)
        refine ⟨result, ?_⟩
        have hn := hpos (by omega)
        rwa [show attempt + 1 + (n - 1) = attempt + (n + 1 - 1) by omega] at hresult

end Retries

/-! ## Tokens -/

def MSG_TYPE_XSTS_TOKEN_REQUEST : UInt16 := 5
def MSG_TYPE_XSTS_TOKEN_RESPONSE : UInt16 := 6
def TOKEN_AND_SIGNATURE_RETRIES : ℕ := 3

/-- `XstsTokenRequest`, with the body in base64. -/
structure XstsTokenRequest where
  method : String
  url : String
  body : String
  forceRefresh : Bool
  clientId : String
  titleId : String
  deriving DecidableEq, Repr

structure XstsTokenResponse where
  authorization : String
  signature : String
  deriving DecidableEq, Repr

section Tokens
variable (xml : Xml XstsTokenRequest XstsTokenResponse) (unixlib : Option String) (env : Environment)
  (around : Surroundings) (arounds : ℕ → Surroundings) (clientId titleId method url : String)
  (body : List UInt8)

/-- The request, with `title_client_id()` and `title_id()`. -/
def tokenRequest : XstsTokenRequest where
  method := method
  url := url
  body := base64Encode body
  forceRefresh := false
  clientId := clientId
  titleId := titleId

def getTokenAndSignatureOnce : List UInt8 × Except HRESULT (String × String) :=
  let exchanged := exchangeWithTimeout xml unixlib env around MSG_TYPE_XSTS_TOKEN_REQUEST
    MSG_TYPE_XSTS_TOKEN_RESPONSE (tokenRequest clientId titleId method url body) IO_TIMEOUT
  (exchanged.1, exchanged.2.map fun response => (response.authorization, response.signature))

/-- What the service does may differ from one attempt to the next. -/
def getTokenAndSignature : List Deed × Except HRESULT (String × String) :=
  attempts
    (fun i => getTokenAndSignatureOnce xml unixlib env (arounds i) clientId titleId method url body)
    TOKEN_AND_SIGNATURE_RETRIES 0 E_FAIL

theorem once_ok (authorization signature : String) :
    (getTokenAndSignatureOnce xml unixlib env around clientId titleId method url body).2 =
        .ok (authorization, signature) ↔
      Responds xml unixlib env around MSG_TYPE_XSTS_TOKEN_REQUEST MSG_TYPE_XSTS_TOKEN_RESPONSE
        (tokenRequest clientId titleId method url body) IO_TIMEOUT ⟨authorization, signature⟩ := by
  rw [← exchangeWithTimeout_ok, getTokenAndSignatureOnce]
  dsimp only
  rcases (exchangeWithTimeout xml unixlib env around MSG_TYPE_XSTS_TOKEN_REQUEST
    MSG_TYPE_XSTS_TOKEN_RESPONSE (tokenRequest clientId titleId method url body) IO_TIMEOUT).2
    with e | response
  · refine ⟨fun h => (by cases h), fun h => (by cases h)⟩
  · refine ⟨fun h => ?_, fun h => (by cases h; rfl)⟩
    cases h
    rfl

theorem once_error {e : HRESULT}
    (h : (getTokenAndSignatureOnce xml unixlib env around clientId titleId method url body).2 =
      .error e) :
    e = E_FAIL ∨ e = E_NOTIMPL ∧ unixlib = none ∧ endpoint env = .error E_NOTIMPL := by
  rw [getTokenAndSignatureOnce] at h
  dsimp only at h
  cases hexchange : (exchangeWithTimeout xml unixlib env around MSG_TYPE_XSTS_TOKEN_REQUEST
      MSG_TYPE_XSTS_TOKEN_RESPONSE (tokenRequest clientId titleId method url body) IO_TIMEOUT).2 with
  | ok response =>
    rw [hexchange] at h
    cases h
  | error e' =>
    rw [hexchange] at h
    cases h
    exact exchangeWithTimeout_error hexchange

theorem once_reticent {payload : String}
    (h : xml.serialize (tokenRequest clientId titleId method url body) = some payload) :
    Reticent unixlib env around MSG_TYPE_XSTS_TOKEN_REQUEST (utf8Bytes payload)
      (getTokenAndSignatureOnce xml unixlib env around clientId titleId method url body).1 :=
  exchangeWithTimeout_reticent h

/-- The token is that of the first of three attempts that the service answers. Each attempt is a session
of its own, with a pause between two; there are three unless one succeeds, and over TCP each keeps the
request back until the service has accepted the secret. -/
theorem token_exact :
    (∀ authorization signature,
      (getTokenAndSignature xml unixlib env arounds clientId titleId method url body).2 =
          .ok (authorization, signature) ↔
        ∃ k < 3, Responds xml unixlib env (arounds k) MSG_TYPE_XSTS_TOKEN_REQUEST
          MSG_TYPE_XSTS_TOKEN_RESPONSE (tokenRequest clientId titleId method url body) IO_TIMEOUT
            ⟨authorization, signature⟩ ∧
          ∀ j < k, ∀ response, ¬ Responds xml unixlib env (arounds j) MSG_TYPE_XSTS_TOKEN_REQUEST
            MSG_TYPE_XSTS_TOKEN_RESPONSE (tokenRequest clientId titleId method url body) IO_TIMEOUT
              response) ∧
    (∀ e, (getTokenAndSignature xml unixlib env arounds clientId titleId method url body).2 = .error e →
      e = E_FAIL ∨ e = E_NOTIMPL ∧ unixlib = none ∧ endpoint env = .error E_NOTIMPL) ∧
    ∃ sessions : List (List UInt8),
      (getTokenAndSignature xml unixlib env arounds clientId titleId method url body).1 =
        (sessions.map Deed.session).intersperse (.sleep 300) ∧
      0 < sessions.length ∧ sessions.length ≤ 3 ∧
      (sessions.length < 3 → ∃ token,
        (getTokenAndSignature xml unixlib env arounds clientId titleId method url body).2 = .ok token) ∧
      ∀ i sent, sessions[i]? = some sent → ∀ payload,
        xml.serialize (tokenRequest clientId titleId method url body) = some payload →
          Reticent unixlib env (arounds i) MSG_TYPE_XSTS_TOKEN_REQUEST (utf8Bytes payload) sent := by
  refine ⟨fun authorization signature => ?_, fun e he => ?_, ?_⟩
  · have hanswered : ∀ (j : ℕ) (token : String × String),
        (getTokenAndSignatureOnce xml unixlib env (arounds j) clientId titleId method url body).2 =
            .ok token ↔
          Responds xml unixlib env (arounds j) MSG_TYPE_XSTS_TOKEN_REQUEST MSG_TYPE_XSTS_TOKEN_RESPONSE
            (tokenRequest clientId titleId method url body) IO_TIMEOUT ⟨token.1, token.2⟩ :=
      fun j token => once_ok xml unixlib env (arounds j) clientId titleId method url body token.1 token.2
    rw [getTokenAndSignature, attempts_ok, TOKEN_AND_SIGNATURE_RETRIES]
    simp only [Nat.zero_add, ne_eq, hanswered]
    constructor
    · rintro ⟨k, hk, hresult, hbefore⟩
      exact ⟨k, hk, hresult, fun j hj response =>
        hbefore j hj (response.authorization, response.signature)⟩
    · rintro ⟨k, hk, hresult, hbefore⟩
      exact ⟨k, hk, hresult, fun j hj token => hbefore j hj ⟨token.1, token.2⟩⟩
  · exact once_error xml unixlib env _ clientId titleId method url body (attempts_error he)
  · obtain ⟨n, hn, hdeeds, hpos, hfailed, hdone⟩ := attempts_deeds
      (fun i => getTokenAndSignatureOnce xml unixlib env (arounds i) clientId titleId method url body)
      TOKEN_AND_SIGNATURE_RETRIES 0 E_FAIL
    refine ⟨(List.range' 0 n).map fun i =>
      (getTokenAndSignatureOnce xml unixlib env (arounds i) clientId titleId method url body).1,
      ?_, ?_, ?_, fun hless => ?_, fun i sent hsent payload hpayload => ?_⟩
    · rw [List.map_map]
      exact hdeeds
    · rw [List.length_map, List.length_range']
      exact hpos (by decide)
    · rw [List.length_map, List.length_range']
      exact hn
    · rw [List.length_map, List.length_range'] at hless
      obtain ⟨token, htoken⟩ := hdone hless
      have hn := hpos (by decide)
      refine ⟨token, attempts_ok.mpr ⟨n - 1, by omega, htoken, fun j hj token' htoken' => ?_⟩⟩
      obtain ⟨e, he⟩ := hfailed j (by omega)
      rw [htoken'] at he
      cases he
    · rw [List.getElem?_map, Option.map_eq_some_iff] at hsent
      obtain ⟨j, hj, rfl⟩ := hsent
      obtain ⟨hlt, hget⟩ := List.getElem?_eq_some_iff.mp hj
      rw [List.getElem_range'] at hget
      obtain rfl : i = j := by omega
      exact once_reticent xml unixlib env (arounds i) clientId titleId method url body hpayload

end Tokens

end XGameRuntime.Ipc
