import XGameRuntime.XAsync.Engine

/-! # Results filed under the address of a block

The pointer-keyed calls of `src/com/xuser/impl.rs` and `src/com/xstore.rs`. An `*Async` call runs
its fetch with `run_sync` and files what it has fetched under the address of its block, where
`*ResultSize` and `*Result` look it up. The seven APIs run the same code on their own values.
-/

namespace XGameRuntime.ResultTables
open Concurrency TaskQueue XAsync
set_option autoImplicit false

/-! ## The APIs -/

/-- What an `*Async` call checks before it starts. `nullArgument` says that one of the two
strings it requires is null. -/
structure AsyncArgs where
  userKnown : Bool := true
  nullArgument : Bool := false
  storeContextHandle : ℕ := 1
  deriving DecidableEq, Repr

/-- How a round trip to the service fails: `endpoint` finds none in the environment, or anything
goes wrong after that. -/
inductive ExchangeError where
  | noEndpoint
  | failed
  deriving DecidableEq, Repr

def ExchangeError.hresult : ExchangeError → HRESULT
  | .noEndpoint => E_NOTIMPL
  | .failed => E_FAIL

/-- What a round trip to the service comes to. -/
abbrev Reply (V : Type) := Except ExchangeError V

/-- `outcome` turns the reply of the service into what the fetch returns; `needed` is the size that
`*ResultSize` reports. -/
structure ResultApi (V : Type) where
  check : AsyncArgs → Option HRESULT
  outcome : Reply V → Except HRESULT V
  needed : V → ℕ
  refusesNull : V → Bool := fun _ => true
  outcome_error : ∀ {reply : Reply V} {hr : HRESULT}, outcome reply = .error hr → hr ≠ S_OK

variable {V : Type}

/-- `exchange`, and the fetches that return its reply as it is. -/
def exchange : Reply V → Except HRESULT V
  | .ok v => .ok v
  | .error e => .error e.hresult

theorem exchange_error {reply : Reply V} {hr : HRESULT} (h : exchange reply = .error hr) :
    hr ≠ S_OK := by
  cases reply with
  | error e =>
    cases h
    cases e <;> decide
  | ok v => cases h

/-- `non_empty_store_key`, after `exchange`. -/
def nonEmptyStoreKey (reply : Reply String) : Except HRESULT String :=
  match exchange reply with
  | .ok key => if key.isEmpty then .error E_ACCESSDENIED else .ok key
  | .error hr => .error hr

theorem nonEmptyStoreKey_error {reply : Reply String} {hr : HRESULT}
    (h : nonEmptyStoreKey reply = .error hr) : hr ≠ S_OK := by
  unfold nonEmptyStoreKey at h
  split at h
  · split at h
    · cases h; decide
    · cases h
  · rename_i he
    cases h
    exact exchange_error he

def knownUser (args : AsyncArgs) : Option HRESULT :=
  if args.userKnown then none else some E_INVALIDARG

def knownUserAndStrings (args : AsyncArgs) : Option HRESULT :=
  if args.userKnown = false then some E_INVALIDARG
  else if args.nullArgument then some E_POINTER else none

def storeContext (args : AsyncArgs) : Option HRESULT :=
  if args.storeContextHandle = 0 then some E_POINTER else none

/-- `str::len` and the terminator. -/
def cString (value : String) : ℕ := value.utf8ByteSize + 1

/-- `encode_utf16().count()` and the terminator. -/
def utf16String (value : String) : ℕ :=
  (value.toList.map fun c => if c.toNat < 0x10000 then 1 else 2).sum + 1

/-- `size_of::<XUserGetTokenAndSignatureData>()`, and of its UTF-16 twin. -/
def dataSize : ℕ := 32

def gamerPicture : ResultApi (List UInt8) where
  check := knownUser
  outcome := exchange
  needed picture := picture.length
  refusesNull picture := !picture.isEmpty
  outcome_error := exchange_error

def tokenAndSignature : ResultApi (String × String) where
  check := knownUserAndStrings
  outcome := exchange
  needed v := dataSize + cString v.1 + cString v.2
  outcome_error := exchange_error

def tokenAndSignatureUtf16 : ResultApi (String × String) where
  check := knownUserAndStrings
  outcome := exchange
  needed v := dataSize + (utf16String v.1 + utf16String v.2) * 2
  outcome_error := exchange_error

def msaTokenSilently : ResultApi String where
  check := knownUser
  outcome := exchange
  needed := cString
  outcome_error := exchange_error

def userCollectionsId : ResultApi String where
  check := storeContext
  outcome := nonEmptyStoreKey
  needed := cString
  outcome_error := nonEmptyStoreKey_error

def userPurchaseId : ResultApi String where
  check := storeContext
  outcome := nonEmptyStoreKey
  needed := cString
  outcome_error := nonEmptyStoreKey_error

def licenseToken : ResultApi String where
  check := storeContext
  outcome := exchange
  needed := cString
  outcome_error := exchange_error

/-- The seven tables. -/
inductive SideTable where
  | gamerPicture
  | tokenAndSignature
  | tokenAndSignatureUtf16
  | msaTokenSilently
  | userCollectionsId
  | userPurchaseId
  | licenseToken
  deriving DecidableEq, Repr

@[reducible] def SideTable.Value : SideTable → Type
  | .gamerPicture => List UInt8
  | .tokenAndSignature | .tokenAndSignatureUtf16 => String × String
  | .msaTokenSilently | .userCollectionsId | .userPurchaseId | .licenseToken => String

def SideTable.api : (t : SideTable) → ResultApi t.Value
  | .gamerPicture => ResultTables.gamerPicture
  | .tokenAndSignature => ResultTables.tokenAndSignature
  | .tokenAndSignatureUtf16 => ResultTables.tokenAndSignatureUtf16
  | .msaTokenSilently => ResultTables.msaTokenSilently
  | .userCollectionsId => ResultTables.userCollectionsId
  | .userPurchaseId => ResultTables.userPurchaseId
  | .licenseToken => ResultTables.licenseToken

/-! ## The two lookups -/

/-- What a lookup that returns `S_OK` hands out. -/
inductive Report (V : Type) where
  | size (needed : ℕ)
  | value (v : V)

/-- The body of every `*ResultSize`; `out` says that the out-pointer is not null. -/
def ResultApi.resultSize (api : ResultApi V) (entry : Option (Except HRESULT V)) (out : Bool) :
    HRESULT × Option (Report V) :=
  if out = false then (E_POINTER, none)
  else
    match entry with
    | some (.ok v) => (S_OK, some (.size (api.needed v)))
    | some (.error hr) => (hr, none)
    | none => (E_ILLEGAL_METHOD_CALL, none)

/-- The body of every `*Result`; `pointers` says that the buffer and what else it writes through
are not null. -/
def ResultApi.result (api : ResultApi V) (entry : Option (Except HRESULT V)) (bufferSize : ℕ)
    (pointers : Bool) : HRESULT × Option (Report V) :=
  match entry with
  | some (.ok v) =>
      if bufferSize < api.needed v then (E_NOT_SUFFICIENT_BUFFER, none)
      else if pointers = false ∧ api.refusesNull v = true then (E_POINTER, none)
      else (S_OK, some (.value v))
  | some (.error hr) => (hr, none)
  | none => (E_ILLEGAL_METHOD_CALL, none)

def Report.Of (api : ResultApi V) (v : V) : Report V → Prop
  | .size n => n = api.needed v
  | .value w => w = v

/-- A lookup that succeeds reports the value it has found. -/
theorem resultSize_ok {api : ResultApi V} {entry : Option (Except HRESULT V)} {out : Bool}
    (he : ∀ hr, entry = some (.error hr) → hr ≠ S_OK)
    (h : (api.resultSize entry out).1 = S_OK) :
    ∃ v report, entry = some (.ok v) ∧ (api.resultSize entry out).2 = some report ∧
      report.Of api v := by
  cases out with
  | false => cases h
  | true =>
    cases entry with
    | none => cases h
    | some found =>
      cases found with
      | ok v => exact ⟨v, .size (api.needed v), rfl, rfl, rfl⟩
      | error hr => exact absurd h (he hr rfl)

theorem result_ok {api : ResultApi V} {entry : Option (Except HRESULT V)} {bufferSize : ℕ}
    {pointers : Bool} (he : ∀ hr, entry = some (.error hr) → hr ≠ S_OK)
    (h : (api.result entry bufferSize pointers).1 = S_OK) :
    ∃ v report, entry = some (.ok v) ∧ (api.result entry bufferSize pointers).2 = some report ∧
      report.Of api v := by
  cases entry with
  | none => cases h
  | some found =>
    cases found with
    | error hr => exact absurd h (he hr rfl)
    | ok v =>
      unfold ResultApi.result at h ⊢
      by_cases hsize : bufferSize < api.needed v
      · simp only [hsize, if_true] at h
        cases h
      · by_cases hnull : pointers = false ∧ api.refusesNull v = true
        · simp only [hsize, hnull, and_self, if_true, if_false] at h
          cases h
        · simp only [hsize, hnull, if_false]
          exact ⟨v, .value v, rfl, rfl, rfl⟩

/-! ## The calls on one table -/

/-- An answer of a lookup, with what the call begun last on the block had fetched by then. -/
structure Answer (V : Type) where
  block : ℕ
  fetched : Option (Except HRESULT V)
  hr : HRESULT
  report : Option (Report V)

/-- The async engine with one table. `keyOf` is the address that the closure of a call has
captured; `latest`, `fetched` and `answers` are history variables: the call begun last on a
block, what a call has fetched, and the answers of the lookups. -/
structure TableMemory (V : Type) where
  engine : Memory := {}
  table : ℕ → Option (Except HRESULT V) := fun _ => none
  keyOf : ℕ → Option ℕ := fun _ => none
  latest : ℕ → Option ℕ := fun _ => none
  fetched : ℕ → Option (Except HRESULT V) := fun _ => none
  answers : List (Answer V) := []

namespace TableMemory

/-- What the call begun last on a block has fetched. -/
def fetchedLast (m : TableMemory V) (b : ℕ) : Option (Except HRESULT V) :=
  (m.latest b).bind m.fetched

/-- The call of context `h` is begun on a block. -/
def begin (m : TableMemory V) (b h : ℕ) : TableMemory V :=
  { m with keyOf := Function.update m.keyOf h (some b)
           latest := Function.update m.latest b (some h) }

/-- The closure of a call files what it has fetched. -/
def file (m : TableMemory V) (key h : ℕ) (result : Except HRESULT V) : TableMemory V :=
  { m with table := Function.update m.table key (some result)
           fetched := Function.update m.fetched h (some result) }

def answer (m : TableMemory V) (b : ℕ) (reply : HRESULT × Option (Report V)) : TableMemory V :=
  { m with answers := ⟨b, m.fetchedLast b, reply.1, reply.2⟩ :: m.answers }

end TableMemory

inductive TableChoice (V : Type) where
  /-- Code of the game that does not go through this API, or any other code of the engine. -/
  | engine (c : Choice)
  | async (args : AsyncArgs) (block : ℕ)
  | resultSize (block : ℕ) (out : Bool)
  | result (block bufferSize : ℕ) (pointers : Bool)
  /-- The fetch of a call ends with a reply. -/
  | fetch (reply : Reply V)

abbrev TableStep (V : Type) := ClientStep Callback (TableMemory V) Code

/-- A step of the engine under the table. -/
def TableMemory.lift (m : TableMemory V) (r : EngineStep) : TableStep V :=
  { mem := { m with engine := r.mem }, admin := r.admin, run := r.run, spawn := r.spawn }

/-- What the closure returns to `run_sync`, whose payload is `()`. -/
def returned : Except HRESULT V → Choice
  | .ok _ => .produces 0
  | .error hr => .returns hr

/-- `*Async`: the call has been begun when `XAsyncBegin` has parked it. -/
def asyncStep (api : ResultApi V) (m : TableMemory V) (s : TaskQueues Callback)
    (args : AsyncArgs) (b : ℕ) : Option (TableStep V) :=
  match api.check args with
  | some _ => some { mem := m, run := [.frame .game] }
  | none => do
      let r ← gameStep m.engine s (.runSync b 0)
      if m.engine.states.length < r.mem.states.length then
        some ((m.begin b m.engine.helpers.length).lift r)
      else some (m.lift r)

def ResultApi.step (api : ResultApi V) (m : TableMemory V) (s : TaskQueues Callback) :
    Code → TableChoice V → Option (TableStep V)
  | .game, .async args b => asyncStep api m s args b
  | .game, .resultSize b out =>
      some { mem := m.answer b (api.resultSize (m.table b) out), run := [.frame .game] }
  | .game, .result b bufferSize pointers =>
      some { mem := m.answer b (api.result (m.table b) bufferSize pointers)
             run := [.frame .game] }
  | .futureReturn h b, .fetch reply => do
      let key ← m.keyOf h
      let r ← m.engine.step s (.futureReturn h b) (returned (api.outcome reply))
      some ((m.file key h (api.outcome reply)).lift r)
  | .futureReturn h b, .engine c =>
      if (m.keyOf h).isSome then none
      else (m.engine.step s (.futureReturn h b) c).map m.lift
  | code, .engine c => (m.engine.step s code c).map m.lift
  | _, _ => none

/-- One API over the engine, under a game whose own code may do anything. -/
@[reducible] def ResultApi.client (api : ResultApi V) : Client Callback where
  Mem := TableMemory V
  Frame := Code
  Choice := TableChoice V
  body := Callback.code
  monitor _ _ _ := [.game]
  step := api.step

/-- A process with `n` threads of the game, before any call. -/
def ResultApi.start (api : ResultApi V) (pool n : ℕ) :
    Config (World api.client) (Frame Callback Code) where
  shared := { pool := pool, mem := ({} : TableMemory V) }
  threads := [.clock] :: List.replicate n [.client .game]

end XGameRuntime.ResultTables
