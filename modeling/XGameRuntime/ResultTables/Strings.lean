import XGameRuntime.Bytes.Text
import XGameRuntime.Results
import XGameRuntime.XUser.Users

/-! # Strings in the game's buffers

The getters that copy one string into a buffer of the game: `src/com/xpackage.rs`,
`src/com/xsystem.rs`, `src/com/xuser/impl.rs`, `src/com/xstore.rs` and
`src/com/xpersistent_local_storage.rs`. A null pointer is 0, and an out-pointer is whether it is
there.
-/

namespace XGameRuntime.ResultTables
open Bytes
set_option autoImplicit false

/-- What a getter returns, where it returns anything, and leaves behind it. -/
structure StringReply where
  hr : Option HRESULT
  memory : Bytes.Memory
  used : Option ℕ := none

/-- `write_out_bytes`, and a terminator behind it. -/
def writeTerminated (m : Bytes.Memory) (p : ℕ) (bytes : List UInt8) : Bytes.Memory :=
  (m.write p bytes).write (p + bytes.length) [0]

/-! ## The getters -/

/-- `XPackageGetMountPath`, with what the handle stands for. -/
def getMountPath (mountPath : Option String) (m : Bytes.Memory) (pathSize path : ℕ) :
    StringReply :=
  match mountPath with
  | none => { hr := some E_INVALIDARG, memory := m }
  | some mountPath =>
      if path = 0 then { hr := some E_POINTER, memory := m }
      else
        let bytes := utf8Bytes mountPath
        let len := min bytes.length (pathSize - 1)
        let m := m.write path (bytes.take len)
        { hr := some S_OK, memory := if pathSize ≠ 0 then m.write (path + len) [0] else m }

/-- `user_locale`, over the environment. -/
def userLocale (var : String → Option String) : String :=
  let raw := (["LC_ALL", "LC_MESSAGES", "LANG"].findSome? var).getD ""
  let base := raw.toList.takeWhile fun c => c ≠ '.' ∧ c ≠ '@'
  let tag := String.ofList (base.map fun c => if c = '_' then '-' else c)
  if tag = "" ∨ tag = "C" ∨ tag = "POSIX" then "en-US" else tag

/-- `XPackageGetUserLocale`. -/
def getUserLocale (var : String → Option String) (m : Bytes.Memory) (localeSize locale : ℕ) :
    StringReply :=
  if locale = 0 then { hr := some E_POINTER, memory := m }
  else
    let bytes := utf8Bytes (userLocale var)
    if bytes.length + 1 > localeSize then { hr := some E_NOT_SUFFICIENT_BUFFER, memory := m }
    else { hr := some S_OK, memory := writeTerminated m locale bytes }

/-- `XSystemGetAppSpecificDeviceId`, whose size is an `i32`. -/
def getAppSpecificDeviceId (id : String) (m : Bytes.Memory) (deviceIdSize : ℤ) (deviceId : ℕ)
    (deviceIdUsed : Bool) : StringReply :=
  let bytes := utf8Bytes id
  let used := if deviceIdUsed then some (bytes.length + 1) else none
  if deviceId = 0 ∨ deviceIdSize ≤ 0 then { hr := some S_OK, memory := m, used }
  else
    let len := min (bytes.length + 1) deviceIdSize.toNat
    { hr := some S_OK, memory := m.write deviceId ((bytes ++ [0]).take len), used }

def GAMERTAG_COMPONENT_MODERN : ℕ := 1

/-- The gamertag that `XUserGetGamertag` is asked for. -/
def gamertagFor (user : XUser.UserState) (component : ℕ) : String :=
  if component = GAMERTAG_COMPONENT_MODERN ∧ user.gamertagModern ≠ "" then user.gamertagModern
  else user.gamertag

/-- `XUserGetGamertag`, with the user that the handle stands for. -/
def getGamertag (user : Option XUser.UserState) (component : ℕ) (m : Bytes.Memory)
    (gamertagSize gamertag : ℕ) (gamertagUsed : Bool) : StringReply :=
  match user with
  | none => { hr := some E_INVALIDARG, memory := m }
  | some user =>
      let bytes := utf8Bytes (gamertagFor user component)
      let needed := bytes.length + 1
      let used := if gamertagUsed then some needed else none
      if gamertag = 0 ∨ gamertagSize = 0 then { hr := some S_OK, memory := m, used }
      else if gamertagSize < needed then
        { hr := some E_NOT_SUFFICIENT_BUFFER, memory := m, used }
      else { hr := some S_OK, memory := writeTerminated m gamertag bytes, used }

/-- `XUserGetMsaTokenSilentlyResult`, with what its table holds for the block. -/
def getMsaTokenSilentlyResult (entry : Option (Except HRESULT String)) (m : Bytes.Memory)
    (resultTokenSize resultToken : ℕ) (resultTokenUsed : Bool) : StringReply :=
  match entry with
  | some (.ok token) =>
      let bytes := utf8Bytes token
      let needed := bytes.length + 1
      if needed > resultTokenSize then { hr := some E_NOT_SUFFICIENT_BUFFER, memory := m }
      else if resultToken = 0 then { hr := some E_POINTER, memory := m }
      else
        { hr := some S_OK
          memory := writeTerminated m resultToken bytes
          used := if resultTokenUsed then some needed else none }
  | some (.error hr) => { hr := some hr, memory := m }
  | none => { hr := some E_ILLEGAL_METHOD_CALL, memory := m }

/-- `opaque_result`, with what its table holds for the block. -/
def opaqueResult (entry : Option (Except HRESULT String)) (m : Bytes.Memory) (size result : ℕ) :
    StringReply :=
  match entry with
  | some (.ok value) =>
      let bytes := utf8Bytes value
      if bytes.length + 1 > size then { hr := some E_NOT_SUFFICIENT_BUFFER, memory := m }
      else if result = 0 then { hr := some E_POINTER, memory := m }
      else { hr := some S_OK, memory := writeTerminated m result bytes }
  | some (.error hr) => { hr := some hr, memory := m }
  | none => { hr := some E_ILLEGAL_METHOD_CALL, memory := m }

/-- `x_persistent_local_storage_get_path`, which returns nothing. -/
def getPath (tmpPath : String) (m : Bytes.Memory) (pathSize path : ℕ) : StringReply :=
  let bytes := utf8Bytes tmpPath
  let len := min bytes.length (pathSize - 1)
  let m := m.write path (bytes.take len)
  { hr := none
    memory := if pathSize ≠ 0 then m.write (path + len) [0] else m
    used := some (len + 1) }

/-- One of the getters, with all that it is given but the buffer. -/
inductive StringGetter where
  | mountPath (path : Option String)
  | userLocale (var : String → Option String)
  | deviceId (id : String) (used : Bool)
  | gamertag (user : Option XUser.UserState) (component : ℕ) (used : Bool)
  | msaToken (entry : Option (Except HRESULT String)) (used : Bool)
  | collectionsId (entry : Option (Except HRESULT String))
  | purchaseId (entry : Option (Except HRESULT String))
  | licenseToken (entry : Option (Except HRESULT String))
  | persistentPath (tmpPath : String)

namespace StringGetter

def call (m : Bytes.Memory) (size buffer : ℕ) : StringGetter → StringReply
  | .mountPath path => getMountPath path m size buffer
  | .userLocale var => getUserLocale var m size buffer
  | .deviceId id used => getAppSpecificDeviceId id m size buffer used
  | .gamertag user component used => getGamertag user component m size buffer used
  | .msaToken entry used => getMsaTokenSilentlyResult entry m size buffer used
  | .collectionsId entry => opaqueResult entry m size buffer
  | .purchaseId entry => opaqueResult entry m size buffer
  | .licenseToken entry => opaqueResult entry m size buffer
  | .persistentPath tmpPath => getPath tmpPath m size buffer

/-- The value of an entry that holds one. -/
def ofEntry (entry : Option (Except HRESULT String)) : Option String :=
  entry.bind Except.toOption

/-- The value that is stored for the call, if there is one. -/
def value : StringGetter → Option String
  | .mountPath path => path
  | .userLocale var => some (ResultTables.userLocale var)
  | .deviceId id _ => some id
  | .gamertag user component _ => user.map (gamertagFor · component)
  | .msaToken entry _ => ofEntry entry
  | .collectionsId entry => ofEntry entry
  | .purchaseId entry => ofEntry entry
  | .licenseToken entry => ofEntry entry
  | .persistentPath tmpPath => some tmpPath

/-- The getters that cut a value off where the buffer ends. -/
def clamps : StringGetter → Bool
  | .mountPath _ | .deviceId _ _ | .persistentPath _ => true
  | _ => false

end StringGetter

/-! ## What a reply promises -/

namespace StringReply

/-- `S_OK`, or from the getter that returns nothing a used size that the buffer has. -/
def Succeeds (reply : StringReply) (size : ℕ) : Prop :=
  reply.hr = some S_OK ∨ reply.hr = none ∧ ∃ used, reply.used = some used ∧ used ≤ size

/-- Nothing is written outside the buffer, and a success leaves the whole value in it. -/
structure Honest (reply : StringReply) (m : Bytes.Memory) (size buffer : ℕ) (value : String) :
    Prop where
  confined : ∀ a, a < buffer ∨ buffer + size ≤ a → reply.memory.byte a = m.byte a
  complete : reply.Succeeds size → value.utf8ByteSize + 1 ≤ size ∧
    reply.memory.read buffer (value.utf8ByteSize + 1) = utf8Bytes value ++ [0] ∧
    ∀ used, reply.used = some used → used = value.utf8ByteSize + 1

variable {m : Bytes.Memory} {size buffer : ℕ} {value : String} {hr : HRESULT} {used : Option ℕ}

theorem honest_refused (h : hr ≠ S_OK) :
    Honest { hr := some hr, memory := m, used := used } m size buffer value where
  confined _ _ := rfl
  complete := by
    rintro (hok | ⟨hnone, -⟩)
    · exact absurd (Option.some.inj hok) h
    · cases hnone

theorem honest_whole {returned : Option HRESULT} (hfit : value.utf8ByteSize + 1 ≤ size)
    (hused : ∀ n, used = some n → n = value.utf8ByteSize + 1) :
    Honest { hr := returned, memory := m.write buffer (utf8Bytes value ++ [0]), used := used } m size
      buffer value where
  confined a ha := by
    refine m.write_outside buffer _ ?_
    rw [List.length_append, length_utf8Bytes, List.length_singleton]
    omega
  complete _ := by
    have hread := m.read_write buffer (utf8Bytes value ++ [0])
    rw [List.length_append, length_utf8Bytes, List.length_singleton] at hread
    exact ⟨hfit, hread, hused⟩

theorem writeTerminated_eq (bytes : List UInt8) :
    writeTerminated m buffer bytes = m.write buffer (bytes ++ [0]) :=
  (m.write_append buffer bytes [0]).symm

/-- A getter that checks the size first. -/
theorem honest_checked {reply : StringReply} (hbuffer : buffer ≠ 0)
    (hshort : size < value.utf8ByteSize + 1 →
      ∃ used, reply = { hr := some E_NOT_SUFFICIENT_BUFFER, memory := m, used := used })
    (hwhole : value.utf8ByteSize + 1 ≤ size → buffer ≠ 0 →
      ∃ used, (∀ n, used = some n → n = value.utf8ByteSize + 1) ∧
        reply = { hr := some S_OK, memory := writeTerminated m buffer (utf8Bytes value), used }) :
    reply.Honest m size buffer value := by
  by_cases hfit : value.utf8ByteSize + 1 ≤ size
  · obtain ⟨used, hused, rfl⟩ := hwhole hfit hbuffer
    rw [writeTerminated_eq]
    exact honest_whole hfit hused
  · obtain ⟨used, rfl⟩ := hshort (Nat.lt_of_not_le hfit)
    exact honest_refused (by decide)

/-- A getter that cuts the value off succeeds all the same. -/
theorem honest_clamped {reply : StringReply} (hok : reply.Succeeds size)
    (hwhole : value.utf8ByteSize + 1 ≤ size →
      ∃ returned used, (∀ n, used = some n → n = value.utf8ByteSize + 1) ∧
        reply = ⟨returned, m.write buffer (utf8Bytes value ++ [0]), used⟩) :
    reply.Honest m size buffer value ↔ value.utf8ByteSize + 1 ≤ size := by
  refine ⟨fun h => (h.complete hok).1, fun hfit => ?_⟩
  obtain ⟨returned, used, hused, rfl⟩ := hwhole hfit
  exact honest_whole hfit hused

end StringReply

/-! ## Which getters keep the promise -/

section Getters
variable {m : Bytes.Memory} {size buffer : ℕ} {value : String}

theorem used_flag {used : Bool} {needed n : ℕ} (h : (if used then some needed else none) = some n) :
    n = needed := by
  cases used with
  | false => cases h
  | true => exact (Option.some.inj h).symm

theorem getUserLocale_honest {var : String → Option String} (hbuffer : buffer ≠ 0) :
    (getUserLocale var m size buffer).Honest m size buffer (userLocale var) := by
  unfold getUserLocale
  rw [if_neg hbuffer]
  refine StringReply.honest_checked hbuffer (fun hshort => ?_) (fun hfit _ => ?_)
  · exact ⟨none, if_pos hshort⟩
  · exact ⟨none, nofun, if_neg (Nat.not_lt.mpr hfit)⟩

theorem getGamertag_honest {user : XUser.UserState} {component : ℕ} {used : Bool}
    (hbuffer : buffer ≠ 0) (hsize : 0 < size) :
    (getGamertag (some user) component m size buffer used).Honest m size buffer
      (gamertagFor user component) := by
  have hnone : ¬(buffer = 0 ∨ size = 0) := by omega
  unfold getGamertag
  dsimp only
  rw [if_neg hnone]
  refine StringReply.honest_checked hbuffer (fun hshort => ?_) (fun hfit _ => ?_)
  · exact ⟨_, if_pos hshort⟩
  · exact ⟨_, fun n hn => used_flag hn, if_neg (Nat.not_lt.mpr hfit)⟩

theorem getMsaTokenSilentlyResult_honest {used : Bool} (hbuffer : buffer ≠ 0) :
    (getMsaTokenSilentlyResult (some (.ok value)) m size buffer used).Honest m size buffer
      value := by
  unfold getMsaTokenSilentlyResult
  dsimp only
  rw [if_neg hbuffer]
  refine StringReply.honest_checked hbuffer (fun hshort => ?_) (fun hfit _ => ?_)
  · exact ⟨none, if_pos hshort⟩
  · exact ⟨_, fun n hn => used_flag hn, if_neg (Nat.not_lt.mpr hfit)⟩

theorem opaqueResult_honest (hbuffer : buffer ≠ 0) :
    (opaqueResult (some (.ok value)) m size buffer).Honest m size buffer value := by
  unfold opaqueResult
  dsimp only
  rw [if_neg hbuffer]
  refine StringReply.honest_checked hbuffer (fun hshort => ?_) (fun hfit _ => ?_)
  · exact ⟨none, if_pos hshort⟩
  · exact ⟨none, nofun, if_neg (Nat.not_lt.mpr hfit)⟩

/-- The loop over the bytes and the terminator, where the buffer has room for both. -/
theorem clamped_write (hfit : value.utf8ByteSize + 1 ≤ size) :
    (if size ≠ 0 then
      (m.write buffer ((utf8Bytes value).take (min (utf8Bytes value).length (size - 1)))).write
        (buffer + min (utf8Bytes value).length (size - 1)) [0]
    else m.write buffer ((utf8Bytes value).take (min (utf8Bytes value).length (size - 1)))) =
      m.write buffer (utf8Bytes value ++ [0]) := by
  have hlen : min (utf8Bytes value).length (size - 1) = (utf8Bytes value).length := by
    rw [length_utf8Bytes]
    omega
  rw [if_pos (by omega), hlen, List.take_length, ← m.write_append]

theorem getMountPath_honest (hbuffer : buffer ≠ 0) :
    (getMountPath (some value) m size buffer).Honest m size buffer value ↔
      value.utf8ByteSize + 1 ≤ size := by
  unfold getMountPath
  dsimp only
  rw [if_neg hbuffer]
  refine StringReply.honest_clamped (.inl rfl) (fun hfit => ⟨some S_OK, none, nofun, ?_⟩)
  rw [clamped_write hfit]

theorem getPath_honest (hsize : 0 < size) :
    (getPath value m size buffer).Honest m size buffer value ↔ value.utf8ByteSize + 1 ≤ size := by
  unfold getPath
  dsimp only
  refine StringReply.honest_clamped (.inr ⟨rfl, _, rfl, by omega⟩) (fun hfit => ?_)
  have hlen : min (utf8Bytes value).length (size - 1) = value.utf8ByteSize := by
    rw [length_utf8Bytes]
    omega
  refine ⟨none, some (value.utf8ByteSize + 1), fun n hn => (Option.some.inj hn).symm, ?_⟩
  rw [clamped_write hfit, hlen]

theorem getAppSpecificDeviceId_honest {used : Bool} (hbuffer : buffer ≠ 0) (hsize : 0 < size) :
    (getAppSpecificDeviceId value m size buffer used).Honest m size buffer value ↔
      value.utf8ByteSize + 1 ≤ size := by
  have hnone : ¬(buffer = 0 ∨ (size : ℤ) ≤ 0) := by omega
  unfold getAppSpecificDeviceId
  dsimp only
  rw [if_neg hnone, Int.toNat_natCast]
  refine StringReply.honest_clamped (.inl rfl) (fun hfit => ?_)
  have hlen : min ((utf8Bytes value).length + 1) size = (utf8Bytes value ++ [0]).length := by
    rw [List.length_append, length_utf8Bytes, List.length_singleton]
    omega
  rw [hlen, List.take_length]
  exact ⟨some S_OK, if used then some (value.utf8ByteSize + 1) else none,
    fun n hn => used_flag hn, rfl⟩

end Getters

theorem ofEntry_eq_some {entry : Option (Except HRESULT String)} {value : String}
    (h : StringGetter.ofEntry entry = some value) : entry = some (.ok value) := by
  rcases entry with _ | ⟨hr | found⟩
  · cases h
  · cases h
  · cases h
    rfl

/-- Of the getters, those that cut a value off keep the promise where they need not. -/
theorem string_getters_honest (getter : StringGetter) (m : Bytes.Memory) (size buffer : ℕ)
    (value : String) (hvalue : getter.value = some value) (hbuffer : buffer ≠ 0)
    (hsize : 0 < size) :
    (getter.call m size buffer).Honest m size buffer value ↔
      (getter.clamps = true → value.utf8ByteSize + 1 ≤ size) := by
  have halways : ∀ {p : Prop}, p → (p ↔ (false = true → value.utf8ByteSize + 1 ≤ size)) :=
    fun hp => ⟨fun _ h => (nomatch h), fun _ => hp⟩
  have hclamps : (true = true → value.utf8ByteSize + 1 ≤ size) ↔ value.utf8ByteSize + 1 ≤ size :=
    ⟨fun h => h rfl, fun h _ => h⟩
  cases getter with
  | mountPath path =>
    cases hvalue
    exact (getMountPath_honest hbuffer).trans hclamps.symm
  | userLocale var =>
    cases hvalue
    exact halways (getUserLocale_honest hbuffer)
  | deviceId id used =>
    cases hvalue
    exact (getAppSpecificDeviceId_honest hbuffer hsize).trans hclamps.symm
  | gamertag user component used =>
    cases user with
    | none => cases hvalue
    | some user =>
      cases hvalue
      exact halways (getGamertag_honest hbuffer hsize)
  | msaToken entry used =>
    obtain rfl := ofEntry_eq_some hvalue
    exact halways (getMsaTokenSilentlyResult_honest hbuffer)
  | collectionsId entry =>
    obtain rfl := ofEntry_eq_some hvalue
    exact halways (opaqueResult_honest hbuffer)
  | purchaseId entry =>
    obtain rfl := ofEntry_eq_some hvalue
    exact halways (opaqueResult_honest hbuffer)
  | licenseToken entry =>
    obtain rfl := ofEntry_eq_some hvalue
    exact halways (opaqueResult_honest hbuffer)
  | persistentPath tmpPath =>
    cases hvalue
    exact (getPath_honest hsize).trans hclamps.symm

/-- Where the buffer has room for the device id. -/
theorem string_getters_honest_device :
    ((StringGetter.deviceId "4f-a" true).call ⟨fun _ => 0⟩ 5 16).Honest ⟨fun _ => 0⟩ 5 16 "4f-a" :=
  (string_getters_honest (.deviceId "4f-a" true) ⟨fun _ => 0⟩ 5 16 "4f-a" rfl (by decide)
    (by decide)).mpr (fun _ => by decide)

/-- A mount path of two bytes and a buffer of two. -/
theorem mount_path_cut_off :
    ¬∀ (getter : StringGetter) (m : Bytes.Memory) (size buffer : ℕ) (value : String),
      getter.value = some value → buffer ≠ 0 → 0 < size →
        (getter.call m size buffer).Honest m size buffer value := by
  intro hall
  have h := hall (.mountPath (some "Z:")) ⟨fun _ => 1⟩ 2 16 "Z:" rfl (by decide) (by decide)
  exact absurd (h.complete (.inl rfl)).1 (by decide)

end XGameRuntime.ResultTables
