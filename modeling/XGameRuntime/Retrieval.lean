import XGameRuntime.GameSave.Reads
import XGameRuntime.ResultTables.Table
import XGameRuntime.XAsync.Polling

/-! # Results that the caller brings the buffer for

`XAsyncGetResult` checks the size of the buffer before it goes to the provider, and the result
tables keep what they hand out. Two functions of `src/com/xgamesave/object.rs` take a payload of
fixed size first and look at the caller's buffer then.
-/

namespace XGameRuntime.Retrieval
open TaskQueue XAsync GameSave FileSystem
set_option autoImplicit false

/-! ## Attempts -/

/-- What comes of asking for the result: `out` is what is written. -/
structure Attempt (σ α : Type) where
  result : HRESULT
  out : Option α
  state : σ

/-- A function that hands out a result of the caller's size. `Holds st size out` says that the call
is complete and successful in `st`, and that its result is `out` and takes `size`. -/
structure ResultFunction where
  State : Type
  Out : Type
  attempt : State → ℕ → Option (Attempt State Out)
  Holds : State → ℕ → Out → Prop

namespace ResultFunction
variable (F : ResultFunction) (size : ℕ) (out : F.Out)

/-- Each of some attempts is refused and writes nothing, and one with room for the result then
gets it. -/
def Retrievable : F.State → List ℕ → Prop
  | st, [] => ∀ room, size ≤ room → ∃ st', F.attempt st room = some ⟨S_OK, some out, st'⟩
  | st, room :: rooms => ∃ st',
      F.attempt st room = some ⟨E_NOT_SUFFICIENT_BUFFER, none, st'⟩ ∧ Retrievable st' rooms

variable {F size out}

theorem retrievable_of_keeps {st : F.State} {rooms : List ℕ}
    (hkeeps : ∀ st room, F.Holds st size out → room < size → ∃ st',
      F.attempt st room = some ⟨E_NOT_SUFFICIENT_BUFFER, none, st'⟩ ∧ F.Holds st' size out)
    (hgives : ∀ st room, F.Holds st size out → size ≤ room → ∃ st',
      F.attempt st room = some ⟨S_OK, some out, st'⟩)
    (h : F.Holds st size out) (hrooms : ∀ room ∈ rooms, room < size) :
    F.Retrievable size out st rooms := by
  induction rooms generalizing st with
  | nil => exact fun room hroom => hgives st room h hroom
  | cons room rooms ih =>
    obtain ⟨hroom, hrest⟩ := List.forall_mem_cons.mp hrooms
    obtain ⟨st', hrefused, h'⟩ := hkeeps st room h hroom
    exact ⟨st', hrefused, ih h' hrest⟩

theorem not_retrievable_of_spent {st st' : F.State} {room : ℕ} {rooms : List ℕ}
    (hfirst : F.attempt st room = some ⟨E_NOT_SUFFICIENT_BUFFER, none, st'⟩)
    (hspent : ∀ room, ∃ st'', F.attempt st' room = some ⟨E_ILLEGAL_METHOD_CALL, none, st''⟩) :
    ¬ F.Retrievable size out st (room :: rooms) := by
  rintro ⟨st₁, hrefused, hrest⟩
  rw [hfirst] at hrefused
  obtain rfl : st' = st₁ := congrArg Attempt.state (Option.some.inj hrefused)
  cases rooms with
  | nil =>
    obtain ⟨st'', hgiven⟩ := hrest size (Nat.le_refl _)
    obtain ⟨st₂, hillegal⟩ := hspent size
    rw [hillegal] at hgiven
    have hresult : E_ILLEGAL_METHOD_CALL = S_OK :=
      congrArg Attempt.result (Option.some.inj hgiven)
    exact absurd hresult (by decide)
  | cons room rooms =>
    obtain ⟨st'', hagain, -⟩ := hrest
    obtain ⟨st₂, hillegal⟩ := hspent room
    rw [hillegal] at hagain
    have hresult : E_ILLEGAL_METHOD_CALL = E_NOT_SUFFICIENT_BUFFER :=
      congrArg Attempt.result (Option.some.inj hagain)
    exact absurd hresult (by decide)

end ResultFunction

/-! ## The functions -/

/-- `PathPayload`: the first `len` of its bytes. -/
structure PathPayload where
  bytes : List UInt8
  fits : bytes.length < 260

/-- `size_of::<PathPayload>()`, and of the handle and the names that a read of blobs stashes. -/
def pathPayloadSize : ℕ := 272
def stashSize : ℕ := 32

/-- What the functions read beside the engine; `stash` and `folders` say which payload a value of
`run_sync` is. -/
structure Surroundings where
  host : Host
  saves : Saves host
  faults : Faults
  queues : TaskQueues Callback
  block : ℕ
  stash : ℕ → ℕ × List (Option String)
  folders : ℕ → PathPayload
  countOfBlobs : ℕ

section Functions
variable (e : Surroundings)

/-- `XAsyncGetResult` by a thread that is alone with the call. -/
def xasyncGetResult (m : Memory) (bufferSize : ℕ) : Option (Attempt Memory (Option ℕ)) := do
  let m' ← m.poll S_OK e.queues e.block (.getResult 0 bufferSize)
  match m'.answer with
  | some (.getResult _ hr out) => some ⟨hr, if hr = S_OK then some out else none, m'⟩
  | some value => some ⟨value.hresult, none, m'⟩
  | none => none

/-- `XGameSaveReadBlobDataResult`; the pointers are there. -/
def readBlobDataResult (m : Memory) (blobsSize : ℕ) : Option (Attempt Memory BlobRead) := do
  let fetched ← xasyncGetResult e m stashSize
  match fetched.out with
  | none => some ⟨fetched.result, none, fetched.state⟩
  | some value =>
      let payload := (value.map e.stash).getD (0, [])
      let read := xgameSaveReadBlobDataResult e.saves e.faults (.ok payload) e.countOfBlobs true
        blobsSize true
      some ⟨read.result, if read.result = S_OK ∨ read.blobs ≠ [] then some read else none,
        fetched.state⟩

/-- `XGameSaveFilesGetFolderWithUiResult`; the pointer is there. -/
def filesGetFolderWithUiResult (m : Memory) (folderSize : ℕ) :
    Option (Attempt Memory (List UInt8)) := do
  let fetched ← xasyncGetResult e m pathPayloadSize
  match fetched.out with
  | none => some ⟨fetched.result, none, fetched.state⟩
  | some value =>
      let bytes := ((value.map e.folders).map PathPayload.bytes).getD []
      if folderSize < bytes.length + 1 then
        some ⟨E_NOT_SUFFICIENT_BUFFER, none, fetched.state⟩
      else some ⟨S_OK, some (bytes ++ [0]), fetched.state⟩

/-- The call of the block is complete, and its provider hands out `out`, of `size`. -/
def Delivers (m : Memory) (size : ℕ) (out : Option ℕ) : Prop :=
  ∃ i state, Complete m e.block i state ∧ state.status = S_OK ∧ state.resultSize = size ∧
    m.delivers S_OK state.provider = some (S_OK, out)

/-- The blobs that were asked for are there. -/
def DeliversBlobs (m : Memory) (size : ℕ) (out : BlobRead) : Prop :=
  ∃ value container names c, Delivers e m stashSize (some value) ∧
    e.stash value = (container, names) ∧ e.saves.containers.get container = some c ∧
    readStashed e.host e.faults e.saves.disk c.root 0 e.countOfBlobs names = out ∧
    out.result = S_OK ∧ size = names.length

def DeliversFolder (m : Memory) (size : ℕ) (out : List UInt8) : Prop :=
  ∃ value, Delivers e m pathPayloadSize (some value) ∧
    out = (e.folders value).bytes ++ [0] ∧ size = (e.folders value).bytes.length + 1

end Functions

/-- The functions with a buffer of the caller's size: the engine's own, two of the game saves, and
those of the seven tables. -/
inductive CallerSized where
  | xasyncGetResult
  | readBlobDataResult
  | filesGetFolderWithUiResult
  | table (t : ResultTables.SideTable)
  deriving DecidableEq

def CallerSized.function (e : Surroundings) : CallerSized → ResultFunction
  | .xasyncGetResult => ⟨Memory, Option ℕ, Retrieval.xasyncGetResult e, Delivers e⟩
  | .readBlobDataResult => ⟨Memory, BlobRead, Retrieval.readBlobDataResult e, DeliversBlobs e⟩
  | .filesGetFolderWithUiResult =>
      ⟨Memory, List UInt8, Retrieval.filesGetFolderWithUiResult e, DeliversFolder e⟩
  | .table t =>
      { State := Option (Except HRESULT t.Value)
        Out := ResultTables.Report t.Value
        attempt := fun entry bufferSize =>
          let found := t.api.result entry bufferSize true
          some ⟨found.1, found.2, entry⟩
        Holds := fun entry size out =>
          ∃ v, entry = some (.ok v) ∧ size = t.api.needed v ∧ out = .value v }

/-! ## What a small buffer does -/

section Attempts
variable {e : Surroundings} {m : Memory} {size room : ℕ} {out : Option ℕ}

theorem delivers_of_kept {m' : Memory} {value : Return} (h : Delivers e m size out)
    (hkept : Kept m value m') : Delivers e m' size out := by
  obtain ⟨i, state, hcomplete, hok, hsize, hout⟩ := h
  refine ⟨i, state, hcomplete.of_kept hkept, hok, hsize, ?_⟩
  unfold Memory.delivers at hout ⊢
  rwa [hkept.helpers]

theorem xasyncGetResult_small (h : Delivers e m size out) (hroom : room < size) :
    ∃ m', xasyncGetResult e m room = some ⟨E_NOT_SUFFICIENT_BUFFER, none, m'⟩ ∧
      Delivers e m' size out := by
  obtain ⟨i, state, hcomplete, hok, hsize, hout⟩ := id h
  obtain ⟨m', hpoll, hkept⟩ := getResult_small S_OK e.queues hcomplete hok (.inl rfl)
    (hsize ▸ hroom)
  refine ⟨m', ?_, delivers_of_kept h hkept⟩
  simp [xasyncGetResult, hpoll, hkept.answer, Return.hresult]

theorem xasyncGetResult_fits (h : Delivers e m size out) (hroom : size ≤ room) :
    ∃ m', xasyncGetResult e m room = some ⟨S_OK, some out, m'⟩ ∧ m'.stateOf e.block = none := by
  obtain ⟨i, state, hcomplete, hok, hsize, hout⟩ := h
  obtain ⟨m', hpoll, htaken⟩ := getResult_fits e.queues hcomplete hok hout
    (.inl rfl) (hsize ▸ hroom)
  refine ⟨m', ?_, htaken.free⟩
  simp [xasyncGetResult, hpoll, htaken.answer]

theorem xasyncGetResult_free (room : ℕ) (h : m.stateOf e.block = none) :
    ∃ m', xasyncGetResult e m room = some ⟨E_ILLEGAL_METHOD_CALL, none, m'⟩ := by
  obtain ⟨value, hvalue, hpoll⟩ := poll_of_free S_OK e.queues h (.getResult 0 room)
  obtain rfl := List.mem_singleton.mp hvalue
  refine ⟨m.record (.returned (.getResultRefused none E_ILLEGAL_METHOD_CALL)), ?_⟩
  rw [xasyncGetResult, hpoll]
  rfl

/-- A function that takes a payload of fixed size before it looks at the buffer. -/
theorem readBlobDataResult_small {blobs : BlobRead} (h : DeliversBlobs e m size blobs)
    (hroom : room < size) :
    ∃ m', readBlobDataResult e m room = some ⟨E_NOT_SUFFICIENT_BUFFER, none, m'⟩ ∧
      m'.stateOf e.block = none := by
  obtain ⟨value, container, names, c, hdelivers, hstash, hget, hread, hok, rfl⟩ := h
  obtain ⟨m', hfetched, hfree⟩ := xasyncGetResult_fits hdelivers (Nat.le_refl _)
  refine ⟨m', ?_, hfree⟩
  have hrefused : xgameSaveReadBlobDataResult e.saves e.faults (.ok (container, names))
      e.countOfBlobs true room true =
      { result := E_NOT_SUFFICIENT_BUFFER, countOfBlobs := e.countOfBlobs } := by
    simp [xgameSaveReadBlobDataResult, hget, hroom]
  have hbad : ¬ E_NOT_SUFFICIENT_BUFFER = S_OK := by decide
  simp [readBlobDataResult, hfetched, hstash, hrefused, hbad]

theorem readBlobDataResult_fits {blobs : BlobRead} (h : DeliversBlobs e m size blobs)
    (hroom : size ≤ room) :
    ∃ m', readBlobDataResult e m room = some ⟨S_OK, some blobs, m'⟩ := by
  obtain ⟨value, container, names, c, hdelivers, hstash, hget, hread, hok, rfl⟩ := h
  obtain ⟨m', hfetched, -⟩ := xasyncGetResult_fits hdelivers (Nat.le_refl _)
  refine ⟨m', ?_⟩
  have hgiven : xgameSaveReadBlobDataResult e.saves e.faults (.ok (container, names))
      e.countOfBlobs true room true = blobs := by
    simpa [xgameSaveReadBlobDataResult, hget, Nat.not_lt.mpr hroom] using hread
  simp [readBlobDataResult, hfetched, hstash, hgiven, hok]

theorem readBlobDataResult_free (room : ℕ) (h : m.stateOf e.block = none) :
    ∃ m', readBlobDataResult e m room = some ⟨E_ILLEGAL_METHOD_CALL, none, m'⟩ := by
  obtain ⟨m', hfetched⟩ := xasyncGetResult_free stashSize h
  exact ⟨m', by simp [readBlobDataResult, hfetched]⟩

theorem filesGetFolderWithUiResult_small {folder : List UInt8} (h : DeliversFolder e m size folder)
    (hroom : room < size) :
    ∃ m', filesGetFolderWithUiResult e m room = some ⟨E_NOT_SUFFICIENT_BUFFER, none, m'⟩ ∧
      m'.stateOf e.block = none := by
  obtain ⟨value, hdelivers, rfl, rfl⟩ := h
  obtain ⟨m', hfetched, hfree⟩ := xasyncGetResult_fits hdelivers (Nat.le_refl _)
  refine ⟨m', ?_, hfree⟩
  simp only [filesGetFolderWithUiResult, hfetched]
  exact if_pos hroom

theorem filesGetFolderWithUiResult_fits {folder : List UInt8} (h : DeliversFolder e m size folder)
    (hroom : size ≤ room) :
    ∃ m', filesGetFolderWithUiResult e m room = some ⟨S_OK, some folder, m'⟩ := by
  obtain ⟨value, hdelivers, rfl, rfl⟩ := h
  obtain ⟨m', hfetched, -⟩ := xasyncGetResult_fits hdelivers (Nat.le_refl _)
  refine ⟨m', ?_⟩
  simp only [filesGetFolderWithUiResult, hfetched]
  exact if_neg (Nat.not_lt.mpr hroom)

theorem filesGetFolderWithUiResult_free (room : ℕ) (h : m.stateOf e.block = none) :
    ∃ m', filesGetFolderWithUiResult e m room = some ⟨E_ILLEGAL_METHOD_CALL, none, m'⟩ := by
  obtain ⟨m', hfetched⟩ := xasyncGetResult_free pathPayloadSize h
  exact ⟨m', by simp [filesGetFolderWithUiResult, hfetched]⟩

theorem table_small {V : Type} {api : ResultTables.ResultApi V} {v : V} {room : ℕ}
    (hroom : room < api.needed v) :
    api.result (some (.ok v)) room true = (E_NOT_SUFFICIENT_BUFFER, none) :=
  if_pos hroom

theorem table_fits {V : Type} {api : ResultTables.ResultApi V} {v : V} {room : ℕ}
    (hroom : api.needed v ≤ room) :
    api.result (some (.ok v)) room true = (S_OK, some (.value v)) := by
  unfold ResultTables.ResultApi.result
  dsimp only
  rw [if_neg (Nat.not_lt.mpr hroom), if_neg (by simp)]

end Attempts

/-! ## Small buffers -/

/-- Refusing a buffer keeps the call for a function that looks at the size before it takes the
payload, and loses it for the two that take it first. -/
theorem small_buffer_keeps_call_iff (e : Surroundings) (api : CallerSized)
    (st : (api.function e).State) (size : ℕ) (out : (api.function e).Out) (rooms : List ℕ)
    (h : (api.function e).Holds st size out) (hrooms : ∀ room ∈ rooms, room < size) :
    (api.function e).Retrievable size out st rooms ↔
      rooms = [] ∨ (api ≠ .readBlobDataResult ∧ api ≠ .filesGetFolderWithUiResult) := by
  cases api with
  | xasyncGetResult =>
    refine iff_of_true (ResultFunction.retrievable_of_keeps ?_ ?_ h hrooms) (.inr (by simp))
    · exact fun st room h hroom => xasyncGetResult_small h hroom
    · intro st room h hroom
      obtain ⟨m', hgiven, -⟩ := xasyncGetResult_fits h hroom
      exact ⟨m', hgiven⟩
  | table t =>
    refine iff_of_true (ResultFunction.retrievable_of_keeps ?_ ?_ h hrooms) (.inr (by simp))
    · rintro st room ⟨v, rfl, rfl, rfl⟩ hroom
      refine ⟨some (.ok v), ?_, v, rfl, rfl, rfl⟩
      simp only [CallerSized.function]
      rw [table_small hroom]
    · rintro st room ⟨v, rfl, rfl, rfl⟩ hroom
      refine ⟨some (.ok v), ?_⟩
      simp only [CallerSized.function]
      rw [table_fits hroom]
  | readBlobDataResult =>
    cases rooms with
    | nil => exact iff_of_true (fun room hroom => readBlobDataResult_fits h hroom) (.inl rfl)
    | cons room rooms =>
      refine iff_of_false ?_ (by simp)
      obtain ⟨m', hfirst, hfree⟩ := readBlobDataResult_small h (hrooms room List.mem_cons_self)
      exact ResultFunction.not_retrievable_of_spent hfirst fun room => readBlobDataResult_free room hfree
  | filesGetFolderWithUiResult =>
    cases rooms with
    | nil => exact iff_of_true (fun room hroom => filesGetFolderWithUiResult_fits h hroom) (.inl rfl)
    | cons room rooms =>
      refine iff_of_false ?_ (by simp)
      obtain ⟨m', hfirst, hfree⟩ :=
        filesGetFolderWithUiResult_small h (hrooms room List.mem_cons_self)
      exact ResultFunction.not_retrievable_of_spent hfirst
        fun room => filesGetFolderWithUiResult_free room hfree

/-- A folder of one letter. -/
def letterFolder : Surroundings where
  host := driveHost
  saves := { disk := {} }
  faults := {}
  queues := { pool := 2 }
  block := 1
  stash := fun _ => (0, [])
  folders := fun _ => ⟨[67], by decide⟩
  countOfBlobs := 0

theorem delivers_finished (size : ℕ) : Delivers letterFolder (finished size) size (some 0) := by
  obtain ⟨state, hcomplete, hok, hsize, hout⟩ := complete_finished size
  exact ⟨0, state, hcomplete, hok, hsize, hout⟩

theorem small_buffer_keeps_call_iff_finished :
    (CallerSized.xasyncGetResult.function letterFolder).Retrievable 272 (some 0) (finished 272)
      [0, 271] :=
  (small_buffer_keeps_call_iff letterFolder .xasyncGetResult (finished 272) 272 (some 0) [0, 271]
    (delivers_finished 272) (by decide)).mpr (.inr (by decide))

/-- A folder asked for with a buffer of one byte is lost. -/
theorem small_buffer_loses_folder :
    ¬ ∀ (e : Surroundings) (api : CallerSized) (st : (api.function e).State) (size : ℕ)
      (out : (api.function e).Out) (rooms : List ℕ), (api.function e).Holds st size out →
      (∀ room ∈ rooms, room < size) → (api.function e).Retrievable size out st rooms := by
  intro h
  have hholds : DeliversFolder letterFolder (finished pathPayloadSize) 2 [67, 0] :=
    ⟨0, delivers_finished pathPayloadSize, rfl, rfl⟩
  obtain ⟨m', hfirst, hfree⟩ := filesGetFolderWithUiResult_small hholds (by decide : 1 < 2)
  exact ResultFunction.not_retrievable_of_spent
    (F := CallerSized.filesGetFolderWithUiResult.function letterFolder) hfirst
    (fun room => filesGetFolderWithUiResult_free room hfree)
    (h letterFolder .filesGetFolderWithUiResult (finished pathPayloadSize) 2 [67, 0] [1] hholds
      (by decide))

end XGameRuntime.Retrieval
