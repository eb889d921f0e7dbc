import XGameRuntime.Bytes.Text
import XGameRuntime.ResultTables.Table

/-! # Token and signature buffers

`XUserGetTokenAndSignatureResultSize`, `XUserGetTokenAndSignatureResult` and their UTF-16 twins, of
`src/com/xuser/impl.rs`, over the bytes of the caller's buffer. Lengths and addresses are `ℕ`: two
strings that lie in memory together are shorter than the `usize` range, and so is what they need.
-/

namespace XGameRuntime.ResultTables
open Bytes
set_option autoImplicit false

/-! ## The two paths -/

/-- `XUserGetTokenAndSignatureData`, and with counts for sizes `XUserGetTokenAndSignatureUtf16Data`:
two `usize` and two pointers in declaration order. -/
structure TokenAndSignatureData where
  tokenSize : ℕ
  signatureSize : ℕ
  token : ℕ
  signature : ℕ
  deriving DecidableEq, Repr

def TokenAndSignatureData.store (data : TokenAndSignatureData) (m : Bytes.Memory) (p : ℕ) :
    Bytes.Memory :=
  let m := m.writeWord p data.tokenSize
  let m := m.writeWord (p + 8) data.signatureSize
  let m := m.writeWord (p + 16) data.token
  m.writeWord (p + 24) data.signature

def TokenAndSignatureData.load (m : Bytes.Memory) (p : ℕ) : TokenAndSignatureData where
  tokenSize := m.readWord p
  signatureSize := m.readWord (p + 8)
  token := m.readWord (p + 16)
  signature := m.readWord (p + 24)

/-- An entry of one of the two tables. -/
abbrev TokenEntry := Option (Except HRESULT (String × String))

/-- What a lookup returns and leaves: the bytes of memory, `*ptr_to_buffer` and `*buffer_used`. -/
structure BufferReply where
  hr : HRESULT
  memory : Bytes.Memory
  data : Option ℕ := none
  used : Option ℕ := none

/-- `XUserGetTokenAndSignatureResultSize`; `out` says that `buffer_size` is not null. -/
def getTokenAndSignatureResultSize (entry : TokenEntry) (out : Bool) : HRESULT × Option ℕ :=
  if out = false then (E_POINTER, none)
  else
    match entry with
    | some (.ok (token, signature)) =>
        (S_OK, some (dataSize + token.utf8ByteSize + 1 + signature.utf8ByteSize + 1))
    | some (.error hr) => (hr, none)
    | none => (E_ILLEGAL_METHOD_CALL, none)

/-- `XUserGetTokenAndSignatureResult`; the flags say that `ptr_to_buffer` and `buffer_used` are not
null. -/
def getTokenAndSignatureResult (entry : TokenEntry) (m : Bytes.Memory) (bufferSize buffer : ℕ)
    (ptrToBuffer bufferUsed : Bool) : BufferReply :=
  match entry with
  | some (.ok (token, signature)) =>
      let tokenSize := token.utf8ByteSize + 1
      let signatureSize := signature.utf8ByteSize + 1
      let needed := dataSize + tokenSize + signatureSize
      if needed > bufferSize then { hr := E_NOT_SUFFICIENT_BUFFER, memory := m }
      else if buffer = 0 ∨ ptrToBuffer = false then { hr := E_POINTER, memory := m }
      else
        let tokenPtr := buffer + dataSize
        let signaturePtr := tokenPtr + tokenSize
        let m := m.write tokenPtr (utf8Bytes token)
        let m := m.write (tokenPtr + token.utf8ByteSize) [0]
        let m := m.write signaturePtr (utf8Bytes signature)
        let m := m.write (signaturePtr + signature.utf8ByteSize) [0]
        let data := ⟨tokenSize, signatureSize, tokenPtr, signaturePtr⟩
        { hr := S_OK
          memory := TokenAndSignatureData.store data m buffer
          data := some buffer
          used := if bufferUsed then some needed else none }
  | some (.error hr) => { hr, memory := m }
  | none => { hr := E_ILLEGAL_METHOD_CALL, memory := m }

/-- `XUserGetTokenAndSignatureUtf16ResultSize`. -/
def getTokenAndSignatureUtf16ResultSize (entry : TokenEntry) (out : Bool) : HRESULT × Option ℕ :=
  if out = false then (E_POINTER, none)
  else
    match entry with
    | some (.ok (token, signature)) =>
        let tokenCount := (utf16Units token).length + 1
        let signatureCount := (utf16Units signature).length + 1
        (S_OK, some (dataSize + (tokenCount + signatureCount) * 2))
    | some (.error hr) => (hr, none)
    | none => (E_ILLEGAL_METHOD_CALL, none)

/-- `XUserGetTokenAndSignatureUtf16Result`. -/
def getTokenAndSignatureUtf16Result (entry : TokenEntry) (m : Bytes.Memory)
    (bufferSize buffer : ℕ) (ptrToBuffer bufferUsed : Bool) : BufferReply :=
  match entry with
  | some (.ok (token, signature)) =>
      let tokenUnits := utf16Units token ++ [0]
      let signatureUnits := utf16Units signature ++ [0]
      let tokenBytes := tokenUnits.length * 2
      let signatureBytes := signatureUnits.length * 2
      let needed := dataSize + tokenBytes + signatureBytes
      if needed > bufferSize then { hr := E_NOT_SUFFICIENT_BUFFER, memory := m }
      else if buffer = 0 ∨ ptrToBuffer = false then { hr := E_POINTER, memory := m }
      else
        let tokenPtr := buffer + dataSize
        let signaturePtr := buffer + (dataSize + tokenBytes)
        let m := utf16.store m tokenPtr tokenUnits
        let m := utf16.store m signaturePtr signatureUnits
        let data := ⟨tokenUnits.length, signatureUnits.length, tokenPtr, signaturePtr⟩
        { hr := S_OK
          memory := TokenAndSignatureData.store data m buffer
          data := some buffer
          used := if bufferUsed then some needed else none }
  | some (.error hr) => { hr, memory := m }
  | none => { hr := E_ILLEGAL_METHOD_CALL, memory := m }

/-! ## The layout -/

theorem TokenAndSignatureData.store_outside (data : TokenAndSignatureData) (m : Bytes.Memory)
    {p a : ℕ} (h : a < p ∨ p + dataSize ≤ a) : (data.store m p).byte a = m.byte a := by
  have hsize : dataSize = 32 := rfl
  simp only [TokenAndSignatureData.store]
  rw [Memory.writeWord_outside _ _ _ (by omega), Memory.writeWord_outside _ _ _ (by omega),
    Memory.writeWord_outside _ _ _ (by omega), Memory.writeWord_outside _ _ _ (by omega)]

theorem TokenAndSignatureData.load_store {data : TokenAndSignatureData} (m : Bytes.Memory) (p : ℕ)
    (ht : data.tokenSize < 2 ^ 64) (hs : data.signatureSize < 2 ^ 64) (hpt : data.token < 2 ^ 64)
    (hps : data.signature < 2 ^ 64) : load (data.store m p) p = data := by
  obtain ⟨tokenSize, signatureSize, token, signature⟩ := data
  simp only [load, TokenAndSignatureData.store, mk.injEq]
  refine ⟨?_, ?_, ?_, ?_⟩
  · rw [Memory.readWord_writeWord_disjoint _ _ _ _ (by omega),
      Memory.readWord_writeWord_disjoint _ _ _ _ (by omega),
      Memory.readWord_writeWord_disjoint _ _ _ _ (by omega), Memory.readWord_writeWord _ _ ht]
  · rw [Memory.readWord_writeWord_disjoint _ _ _ _ (by omega),
      Memory.readWord_writeWord_disjoint _ _ _ _ (by omega), Memory.readWord_writeWord _ _ hs]
  · rw [Memory.readWord_writeWord_disjoint _ _ _ _ (by omega), Memory.readWord_writeWord _ _ hpt]
  · rw [Memory.readWord_writeWord _ _ hps]

section Layout
variable {U : Type} {e : Encoding U} {m : Bytes.Memory} {base : ℕ} {token signature : String}

theorem TokenAndSignatureData.store_holds (data : TokenAndSignatureData) {p n : ℕ} {s : String}
    (h : e.Holds m p n s) (hp : base + dataSize ≤ p) : e.Holds (data.store m base) p n s := by
  have hsize : dataSize = 32 := rfl
  refine Encoding.Holds.write (Encoding.Holds.write (Encoding.Holds.write
    (Encoding.Holds.write h ?_) ?_) ?_) ?_
  all_goals
    rw [length_leBytes]
    omega

/-- Units of `s` and its terminator. -/
def sizeIn (e : Encoding U) (s : String) : ℕ :=
  (e.encode s).length + 1

/-- The header, and behind it one string after the other. -/
def layOut (e : Encoding U) (m : Bytes.Memory) (base : ℕ) (token signature : String) :
    Bytes.Memory :=
  let tokenPtr := base + dataSize
  let signaturePtr := tokenPtr + sizeIn e token * e.width
  let m := e.store m tokenPtr (e.encode token ++ [e.zero])
  let m := e.store m signaturePtr (e.encode signature ++ [e.zero])
  TokenAndSignatureData.store ⟨sizeIn e token, sizeIn e signature, tokenPtr, signaturePtr⟩ m base

/-- What both strings need in one buffer. -/
def spaceFor (e : Encoding U) (token signature : String) : ℕ :=
  dataSize + sizeIn e token * e.width + sizeIn e signature * e.width

/-- What the game finds in a buffer of `needed` bytes. -/
structure Delivered (e : Encoding U) (m : Bytes.Memory) (base needed : ℕ)
    (token signature : String) (after : Bytes.Memory) : Prop where
  confined : ∀ a, a < base ∨ base + needed ≤ a → after.byte a = m.byte a
  afterHeader : base + dataSize ≤ (TokenAndSignatureData.load after base).token ∧
    base + dataSize ≤ (TokenAndSignatureData.load after base).signature
  inside : let data := TokenAndSignatureData.load after base
    data.token + data.tokenSize * e.width ≤ base + needed ∧
      data.signature + data.signatureSize * e.width ≤ base + needed
  disjoint : let data := TokenAndSignatureData.load after base
    data.token + data.tokenSize * e.width ≤ data.signature ∨
      data.signature + data.signatureSize * e.width ≤ data.token
  aligned : let data := TokenAndSignatureData.load after base
    e.width ∣ data.token ∧ e.width ∣ data.signature
  token : let data := TokenAndSignatureData.load after base
    e.Holds after data.token data.tokenSize token
  signature : let data := TokenAndSignatureData.load after base
    e.Holds after data.signature data.signatureSize signature

theorem layOut_load (hw : 0 < e.width) (hfit : base + spaceFor e token signature ≤ 2 ^ 64) :
    TokenAndSignatureData.load (layOut e m base token signature) base =
      ⟨sizeIn e token, sizeIn e signature, base + dataSize,
        base + dataSize + sizeIn e token * e.width⟩ := by
  have hsize : dataSize = 32 := rfl
  have ht := Nat.le_mul_of_pos_right (sizeIn e token) hw
  have hs := Nat.le_mul_of_pos_right (sizeIn e signature) hw
  have hpos : 0 < sizeIn e signature := Nat.succ_pos _
  unfold spaceFor at hfit
  exact TokenAndSignatureData.load_store _ _ (by dsimp only; omega) (by dsimp only; omega)
    (by dsimp only; omega) (by dsimp only; omega)

theorem layOut_delivered (hw : e.width ∣ 8) (hb : 8 ∣ base) (ht : '\x00' ∉ token.toList)
    (hs : '\x00' ∉ signature.toList) (hfit : base + spaceFor e token signature ≤ 2 ^ 64) :
    Delivered e m base (spaceFor e token signature) token signature
      (layOut e m base token signature) := by
  have hsize : dataSize = 32 := rfl
  have hload := layOut_load (m := m) (Nat.pos_of_dvd_of_pos hw (by decide)) hfit
  have htoken : ∀ s : String, (e.encode s ++ [e.zero]).length = sizeIn e s := by
    intro s
    rw [List.length_append, List.length_singleton, sizeIn]
  refine ⟨?_, ?_, ?_, ?_, ?_, ?_, ?_⟩
  · intro a ha
    unfold spaceFor at ha
    rw [layOut, TokenAndSignatureData.store_outside _ _ (by omega),
      Encoding.store_outside _ _ (by rw [htoken]; omega),
      Encoding.store_outside _ _ (by rw [htoken]; omega)]
  · rw [hload]
    exact ⟨Nat.le_refl _, Nat.le_add_right _ _⟩
  · rw [hload]
    dsimp only [spaceFor]
    omega
  · rw [hload]
    exact .inl (Nat.le_refl _)
  · have hstart : e.width ∣ base + dataSize := Nat.dvd_add (hw.trans hb) (hw.trans ⟨4, rfl⟩)
    rw [hload]
    exact ⟨hstart, Nat.dvd_add hstart (Nat.dvd_mul_left _ _)⟩
  · rw [hload]
    refine TokenAndSignatureData.store_holds _ (Encoding.Holds.write (Encoding.holds_store ht) ?_)
      (Nat.le_refl _)
    exact .inr (Nat.le_refl _)
  · rw [hload]
    exact TokenAndSignatureData.store_holds _ (Encoding.holds_store hs) (Nat.le_add_right _ _)

/-! ## The lookups of the tables -/

/-- What a lookup of the table has to report, as bytes. -/
def deliver (e : Encoding U) (m : Bytes.Memory) (buffer : ℕ) (bufferUsed : Bool) :
    HRESULT × Option (Report (String × String)) → BufferReply
  | (hr, some (.value (token, signature))) =>
      { hr
        memory := layOut e m buffer token signature
        data := some buffer
        used := if bufferUsed then some (spaceFor e token signature) else none }
  | (hr, _) => { hr, memory := m }

def sized : HRESULT × Option (Report (String × String)) → HRESULT × Option ℕ
  | (hr, some (.size needed)) => (hr, some needed)
  | (hr, _) => (hr, none)

theorem deliver_result (e : Encoding U) (m : Bytes.Memory) {api : ResultApi (String × String)}
    (v : String × String) (hnull : api.refusesNull v = true) (bufferSize buffer : ℕ)
    (ptrToBuffer bufferUsed : Bool) :
    deliver e m buffer bufferUsed
        (api.result (some (.ok v)) bufferSize (decide (buffer ≠ 0) && ptrToBuffer)) =
      if api.needed v > bufferSize then { hr := E_NOT_SUFFICIENT_BUFFER, memory := m }
      else if buffer = 0 ∨ ptrToBuffer = false then { hr := E_POINTER, memory := m }
      else
        { hr := S_OK
          memory := layOut e m buffer v.1 v.2
          data := some buffer
          used := if bufferUsed then some (spaceFor e v.1 v.2) else none } := by
  unfold ResultApi.result
  dsimp only
  by_cases hsize : bufferSize < api.needed v
  · rw [if_pos hsize, if_pos hsize]
    rfl
  · rw [if_neg hsize, if_neg hsize]
    by_cases hpointers : buffer = 0 ∨ ptrToBuffer = false
    · rw [if_pos hpointers, if_pos]
      · rfl
      · refine ⟨?_, hnull⟩
        rcases hpointers with rfl | rfl
        · rfl
        · exact Bool.and_false _
    · obtain ⟨hb, hp⟩ := not_or.mp hpointers
      rw [if_neg hpointers, if_neg]
      · rfl
      · rw [decide_eq_true hb, Bool.eq_true_of_not_eq_false hp]
        exact fun h => absurd h.1 (by decide)

end Layout

theorem getTokenAndSignatureResultSize_eq (entry : TokenEntry) (out : Bool) :
    getTokenAndSignatureResultSize entry out = sized (tokenAndSignature.resultSize entry out) := by
  cases out with
  | false => rfl
  | true => rcases entry with _ | ⟨hr | ⟨token, signature⟩⟩ <;> rfl

theorem needed_utf8 (v : String × String) :
    tokenAndSignature.needed v = spaceFor utf8 v.1 v.2 := by
  have hsize : ∀ s : String, sizeIn utf8 s * utf8.width = cString s := fun s => Nat.mul_one _
  rw [spaceFor, hsize, hsize]
  rfl

/-- Two writes for each string, its bytes and its terminator. -/
theorem getTokenAndSignatureResult_eq (entry : TokenEntry) (m : Bytes.Memory)
    (bufferSize buffer : ℕ) (ptrToBuffer bufferUsed : Bool) :
    getTokenAndSignatureResult entry m bufferSize buffer ptrToBuffer bufferUsed =
      deliver utf8 m buffer bufferUsed
        (tokenAndSignature.result entry bufferSize (decide (buffer ≠ 0) && ptrToBuffer)) := by
  rcases entry with _ | ⟨hr | ⟨token, signature⟩⟩
  · rfl
  · rfl
  · have hstore : ∀ (m : Bytes.Memory) (p : ℕ) (s : String),
        (m.write p (utf8Bytes s)).write (p + s.utf8ByteSize) [0] =
          utf8.store m p (utf8.encode s ++ [utf8.zero]) := by
      intro m p s
      have hbytes : ∀ bytes : List UInt8, bytes.flatMap utf8.bytes = bytes :=
        fun bytes => List.flatMap_singleton' bytes
      rw [Encoding.store, hbytes, Memory.write_append]
      rfl
    have hwidth : sizeIn utf8 token * utf8.width = token.utf8ByteSize + 1 := Nat.mul_one _
    rw [deliver_result _ _ _ rfl, ← needed_utf8, layOut, hwidth]
    simp only [getTokenAndSignatureResult, hstore]
    rfl

theorem length_utf16Units (s : String) : (utf16Units s).length + 1 = utf16String s := by
  have hchar : ∀ c, (utf16EncodeChar c).length = if c.toNat < 0x10000 then 1 else 2 := by
    intro c
    unfold utf16EncodeChar
    split <;> rfl
  rw [utf16Units, utf16String, List.length_flatMap]
  simp only [hchar]

theorem getTokenAndSignatureUtf16ResultSize_eq (entry : TokenEntry) (out : Bool) :
    getTokenAndSignatureUtf16ResultSize entry out =
      sized (tokenAndSignatureUtf16.resultSize entry out) := by
  cases out with
  | false => rfl
  | true =>
    rcases entry with _ | ⟨hr | ⟨token, signature⟩⟩
    · rfl
    · rfl
    · simp only [getTokenAndSignatureUtf16ResultSize, length_utf16Units]
      rfl

theorem needed_utf16 (v : String × String) :
    tokenAndSignatureUtf16.needed v = spaceFor utf16 v.1 v.2 := by
  have hsize : ∀ s : String, sizeIn utf16 s = utf16String s := length_utf16Units
  rw [spaceFor, hsize, hsize, Nat.add_assoc, ← Nat.add_mul]
  rfl

theorem getTokenAndSignatureUtf16Result_eq (entry : TokenEntry) (m : Bytes.Memory)
    (bufferSize buffer : ℕ) (ptrToBuffer bufferUsed : Bool) :
    getTokenAndSignatureUtf16Result entry m bufferSize buffer ptrToBuffer bufferUsed =
      deliver utf16 m buffer bufferUsed
        (tokenAndSignatureUtf16.result entry bufferSize (decide (buffer ≠ 0) && ptrToBuffer)) := by
  rcases entry with _ | ⟨hr | ⟨token, signature⟩⟩
  · rfl
  · rfl
  · have hunits : ∀ s : String, (utf16Units s ++ [0]).length = sizeIn utf16 s := by
      intro s
      rw [List.length_append]
      rfl
    rw [deliver_result _ _ _ rfl, needed_utf16]
    simp only [getTokenAndSignatureUtf16Result, hunits, ← Nat.add_assoc]
    rfl

/-! ## The round trip -/

/-- Over buffers that the game may pass, `result` agrees with the size that `resultSize` reports,
and what it leaves reads back as the pair. -/
def RoundTrips {U : Type} (e : Encoding U) (resultSize : TokenEntry → Bool → HRESULT × Option ℕ)
    (result : TokenEntry → Bytes.Memory → ℕ → ℕ → Bool → Bool → BufferReply)
    (token signature : String) : Prop :=
  ∃ needed, resultSize (some (.ok (token, signature))) true = (S_OK, some needed) ∧
    ∀ m bufferSize buffer, buffer ≠ 0 → 8 ∣ buffer → buffer + bufferSize ≤ 2 ^ 64 →
      let reply := result (some (.ok (token, signature))) m bufferSize buffer true true
      (reply.hr = S_OK ↔ needed ≤ bufferSize) ∧
        (needed ≤ bufferSize → reply.data = some buffer ∧ reply.used = some needed ∧
          Delivered e m buffer needed token signature reply.memory) ∧
        (bufferSize < needed → reply.memory = m ∧ reply.data = none ∧ reply.used = none)

theorem roundTrips_of_table {U : Type} {e : Encoding U} {api : ResultApi (String × String)}
    {resultSize : TokenEntry → Bool → HRESULT × Option ℕ}
    {result : TokenEntry → Bytes.Memory → ℕ → ℕ → Bool → Bool → BufferReply}
    {token signature : String} (hw : e.width ∣ 8)
    (hneeded : api.needed (token, signature) = spaceFor e token signature)
    (hnull : api.refusesNull (token, signature) = true)
    (hsize : ∀ entry out, resultSize entry out = sized (api.resultSize entry out))
    (hresult : ∀ entry m bufferSize buffer ptrToBuffer bufferUsed,
      result entry m bufferSize buffer ptrToBuffer bufferUsed =
        deliver e m buffer bufferUsed
          (api.result entry bufferSize (decide (buffer ≠ 0) && ptrToBuffer)))
    (ht : '\x00' ∉ token.toList) (hs : '\x00' ∉ signature.toList) :
    RoundTrips e resultSize result token signature := by
  refine ⟨api.needed (token, signature), hsize _ _, fun m bufferSize buffer hb h8 hfit => ?_⟩
  dsimp only
  rw [hresult, deliver_result e m _ hnull, hneeded]
  by_cases hle : spaceFor e token signature ≤ bufferSize
  · rw [if_neg (Nat.not_lt.mpr hle), if_neg (by simp [hb])]
    have hspace : buffer + spaceFor e token signature ≤ 2 ^ 64 := by omega
    refine ⟨iff_of_true rfl hle, fun _ => ⟨rfl, rfl, layOut_delivered hw h8 ht hs hspace⟩,
      fun hlt => absurd hle (Nat.not_le.mpr hlt)⟩
  · rw [if_pos (Nat.lt_of_not_le hle)]
    have hne : E_NOT_SUFFICIENT_BUFFER ≠ S_OK := by decide
    exact ⟨iff_of_false hne hle, fun h => absurd h hle, fun _ => ⟨rfl, rfl, rfl⟩⟩

theorem token_buffers_round_trip (token signature : String) (ht : '\x00' ∉ token.toList)
    (hs : '\x00' ∉ signature.toList) :
    RoundTrips utf8 getTokenAndSignatureResultSize getTokenAndSignatureResult token signature ∧
      RoundTrips utf16 getTokenAndSignatureUtf16ResultSize getTokenAndSignatureUtf16Result
        token signature :=
  ⟨roundTrips_of_table (by decide) (needed_utf8 _) rfl getTokenAndSignatureResultSize_eq
      getTokenAndSignatureResult_eq ht hs,
    roundTrips_of_table (by decide) (needed_utf16 _) rfl getTokenAndSignatureUtf16ResultSize_eq
      getTokenAndSignatureUtf16Result_eq ht hs⟩

theorem token_buffers_round_trip_pair :
    RoundTrips utf8 getTokenAndSignatureResultSize getTokenAndSignatureResult "t🔑k" "s1g" ∧
      RoundTrips utf16 getTokenAndSignatureUtf16ResultSize getTokenAndSignatureUtf16Result
        "t🔑k" "s1g" :=
  token_buffers_round_trip "t🔑k" "s1g" (by decide) (by decide)

end XGameRuntime.ResultTables
