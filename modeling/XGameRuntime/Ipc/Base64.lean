import XGameRuntime.Bytes.Sextets
import XGameRuntime.Bytes.Slices

/-! # Base64

The text that carries arbitrary bytes inside the XML of a message (`src/ipc.rs`).
-/

namespace XGameRuntime.Ipc
open Bytes
set_option autoImplicit false

def BASE64_ALPHABET : List UInt8 :=
  "ABCDEFGHIJKLMNOPQRSTUVWXYZabcdefghijklmnopqrstuvwxyz0123456789+/".toList.map
    (fun c => UInt8.ofNat c.toNat)

/-- `BASE64_ALPHABET[i]`. -/
def symbol (i : ℕ) : UInt8 := BASE64_ALPHABET.getD i 0

/-- A byte `as char`. -/
def asChar (b : UInt8) : Char := Char.ofNat b.toNat

/-- What `base64_encode` writes for one chunk; a missing byte counts as zero. -/
def encodeChunk (chunk : List UInt8) : List Char :=
  let n := (chunk.getD 0 0).toNat <<< 16 ||| (chunk.getD 1 0).toNat <<< 8 ||| (chunk.getD 2 0).toNat
  [asChar (symbol (n >>> 18 &&& 0x3f)), asChar (symbol (n >>> 12 &&& 0x3f)),
    if chunk.length > 1 then asChar (symbol (n >>> 6 &&& 0x3f)) else '=',
    if chunk.length > 2 then asChar (symbol (n &&& 0x3f)) else '=']

def base64Encode (bytes : List UInt8) : String :=
  String.ofList ((chunks 3 bytes).flatMap encodeChunk)

/-- `value`. -/
def symbolValue (c : UInt8) : Option ℕ := BASE64_ALPHABET.idxOf? c

/-- `u32::to_be_bytes`. -/
def toBeBytes (n : ℕ) : List UInt8 :=
  [UInt8.ofNat (n >>> 24), UInt8.ofNat (n >>> 16), UInt8.ofNat (n >>> 8), UInt8.ofNat n]

/-- `n = (n << 6) | value(c)?`. -/
def pushValue (n : ℕ) (c : UInt8) : Option ℕ := do
  let v ← symbolValue c
  some (n <<< 6 ||| v)

/-- What `base64_decode` makes of one chunk: `bytes[1..chunk.len()]`. -/
def decodeChunk (chunk : List UInt8) : Option (List UInt8) :=
  if chunk.length < 2 then none
  else do
    let n ← chunk.foldlM pushValue 0
    some (((toBeBytes (n <<< (6 * (4 - chunk.length)))).take chunk.length).drop 1)

def base64Decode (s : String) : Option (List UInt8) := do
  let outs ← (chunks 4 (utf8Bytes (trimEndMatches '=' s))).mapM decodeChunk
  some outs.flatten

/-! ## The alphabet -/

theorem symbolValue_symbol {i : ℕ} (h : i < 64) : symbolValue (symbol i) = some i := by
  have hall : ∀ i : Fin 64, symbolValue (symbol i) = some i.val := by decide +kernel
  exact hall ⟨i, h⟩

theorem symbol_mem {i : ℕ} (h : i < 64) : symbol i ∈ BASE64_ALPHABET := by
  have hvalue := symbolValue_symbol h
  by_contra hnot
  rw [symbolValue, List.idxOf?_eq_none_iff.mpr hnot] at hvalue
  cases hvalue

theorem symbol_of_symbolValue {c : UInt8} {i : ℕ} (h : symbolValue c = some i) :
    symbol i = c ∧ i < 64 := by
  rw [symbolValue, List.idxOf?_eq_some_iff] at h
  obtain ⟨hlt, hget, -⟩ := h
  refine ⟨?_, hlt⟩
  rw [symbol, List.getD_eq_getElem?_getD, List.getElem?_eq_getElem hlt, hget, Option.getD_some]

theorem utf8EncodeChar_asChar {c : UInt8} (h : c ∈ BASE64_ALPHABET) :
    String.utf8EncodeChar (asChar c) = [c] := by
  have hall : ∀ c ∈ BASE64_ALPHABET, String.utf8EncodeChar (asChar c) = [c] := by decide +kernel
  exact hall c h

theorem pad_notMem : (61 : UInt8) ∉ BASE64_ALPHABET := by decide +kernel

/-! ## Chunks in sextets -/

theorem three_octets (a b c : UInt8) :
    a.toNat <<< 16 ||| b.toNat <<< 8 ||| c.toNat = a.toNat * 65536 + b.toNat * 256 + c.toNat := by
  have hb := b.toNat_lt
  have hc := c.toNat_lt
  have hlow : b.toNat <<< 8 ||| c.toNat = b.toNat <<< 8 + c.toNat :=
    (Nat.shiftLeft_add_eq_or_of_lt hc b.toNat).symm
  have hsmall : b.toNat <<< 8 + c.toNat < 2 ^ 16 := by
    rw [Nat.shiftLeft_eq]
    omega
  rw [Nat.or_assoc, hlow, ← Nat.shiftLeft_add_eq_or_of_lt hsmall, Nat.shiftLeft_eq,
    Nat.shiftLeft_eq]
  omega

theorem sextet_of_shift (n k : ℕ) : n >>> k &&& 0x3f = n / 2 ^ k % 64 := by
  rw [Nat.shiftRight_eq_div_pow]
  exact Nat.and_two_pow_sub_one_eq_mod _ 6

theorem push_sextet (n : ℕ) {v : ℕ} (hv : v < 64) : n <<< 6 ||| v = n * 64 + v := by
  rw [← Nat.shiftLeft_add_eq_or_of_lt (i := 6) hv, Nat.shiftLeft_eq]

/-- A chunk is its sextets, and padding. -/
theorem encodeChunk_eq {chunk : List UInt8} (h : chunk ≠ []) (hlen : chunk.length ≤ 3) :
    encodeChunk chunk = (sextets chunk).map (fun v => asChar (symbol v)) ++
      List.replicate (missing (sextets chunk).length) '=' := by
  have hzero : (0 : UInt8).toNat = 0 := rfl
  match chunk with
  | [a] =>
    have ha := a.toNat_lt
    have hn := three_octets a 0 0
    simp only [encodeChunk, List.getD_cons_zero, List.getD_cons_succ, List.getD_nil]
    rw [hn, sextet_of_shift, sextet_of_shift, hzero]
    have h0 : (a.toNat * 65536 + 0 * 256 + 0) / 2 ^ 18 % 64 = a.toNat / 4 := by omega
    have h1 : (a.toNat * 65536 + 0 * 256 + 0) / 2 ^ 12 % 64 = a.toNat % 4 * 16 := by omega
    rw [h0, h1]
    rfl
  | [a, b] =>
    have ha := a.toNat_lt
    have hb := b.toNat_lt
    have hn := three_octets a b 0
    simp only [encodeChunk, List.getD_cons_zero, List.getD_cons_succ, List.getD_nil]
    rw [hn, sextet_of_shift, sextet_of_shift, sextet_of_shift, hzero]
    have h0 : (a.toNat * 65536 + b.toNat * 256 + 0) / 2 ^ 18 % 64 = a.toNat / 4 := by omega
    have h1 : (a.toNat * 65536 + b.toNat * 256 + 0) / 2 ^ 12 % 64 =
        a.toNat % 4 * 16 + b.toNat / 16 := by omega
    have h2 : (a.toNat * 65536 + b.toNat * 256 + 0) / 2 ^ 6 % 64 = b.toNat % 16 * 4 := by omega
    rw [h0, h1, h2]
    rfl
  | [a, b, c] =>
    have ha := a.toNat_lt
    have hb := b.toNat_lt
    have hc := c.toNat_lt
    have hn := three_octets a b c
    have hlast : ∀ n : ℕ, n &&& 0x3f = n % 64 := fun n => Nat.and_two_pow_sub_one_eq_mod n 6
    simp only [encodeChunk, List.getD_cons_zero, List.getD_cons_succ]
    rw [hn, sextet_of_shift, sextet_of_shift, sextet_of_shift, hlast]
    have h0 : (a.toNat * 65536 + b.toNat * 256 + c.toNat) / 2 ^ 18 % 64 = a.toNat / 4 := by omega
    have h1 : (a.toNat * 65536 + b.toNat * 256 + c.toNat) / 2 ^ 12 % 64 =
        a.toNat % 4 * 16 + b.toNat / 16 := by omega
    have h2 : (a.toNat * 65536 + b.toNat * 256 + c.toNat) / 2 ^ 6 % 64 =
        b.toNat % 16 * 4 + c.toNat / 64 := by omega
    have h3 : (a.toNat * 65536 + b.toNat * 256 + c.toNat) % 64 = c.toNat % 64 := by omega
    rw [h0, h1, h2, h3]
    simp [sextets, missing]

theorem flatMap_encodeChunk (bytes : List UInt8) :
    (chunks 3 bytes).flatMap encodeChunk = (sextets bytes).map (fun v => asChar (symbol v)) ++
      List.replicate (missing (sextets bytes).length) '=' := by
  induction bytes using sextets.induct with
  | case1 => rfl
  | case2 a =>
    rw [chunks_short (List.cons_ne_nil _ _) (by simp), List.flatMap_singleton,
      encodeChunk_eq (List.cons_ne_nil _ _) (by simp)]
  | case3 a b =>
    rw [chunks_short (List.cons_ne_nil _ _) (by simp), List.flatMap_singleton,
      encodeChunk_eq (List.cons_ne_nil _ _) (by simp)]
  | case4 a b c rest ih =>
    have hchunks : chunks 3 (a :: b :: c :: rest) = [a, b, c] :: chunks 3 rest :=
      chunks_append (by decide : 0 < 3) (rfl : [a, b, c].length = 3) rest
    have hmissing : missing (sextets (a :: b :: c :: rest)).length =
        missing (sextets rest).length := by
      unfold missing
      simp only [sextets, List.length_cons]
      omega
    rw [hchunks, List.flatMap_cons, ih, encodeChunk_eq (List.cons_ne_nil _ _) (by simp), hmissing]
    simp [sextets, missing]

/-! ## Decoding in sextets -/

theorem bigEndian_octets (n : ℕ) : toBeBytes n =
    [UInt8.ofNat (n / 2 ^ 24), UInt8.ofNat (n / 2 ^ 16), UInt8.ofNat (n / 2 ^ 8), UInt8.ofNat n] := by
  simp only [toBeBytes, Nat.shiftRight_eq_div_pow]

theorem ofNat_congr {m n : ℕ} (h : m % 256 = n % 256) : UInt8.ofNat m = UInt8.ofNat n := by
  rw [← UInt8.toNat_inj, UInt8.toNat_ofNat', UInt8.toNat_ofNat', h]

theorem mapM_cons_eq_some {c : UInt8} {chars : List UInt8} {values : List ℕ} :
    (c :: chars).mapM symbolValue = some values ↔
      ∃ v rest, symbolValue c = some v ∧ chars.mapM symbolValue = some rest ∧
        values = v :: rest := by
  rw [List.mapM_cons]
  cases symbolValue c with
  | none => simp
  | some v =>
    cases chars.mapM symbolValue with
    | none => simp
    | some rest => simp [eq_comm]

theorem values_of_chars {chars : List UInt8} {values : List ℕ}
    (h : chars.mapM symbolValue = some values) :
    (∀ v ∈ values, v < 64) ∧ chars = values.map symbol := by
  induction chars generalizing values with
  | nil =>
    cases h
    exact ⟨fun v hv => absurd hv List.not_mem_nil, rfl⟩
  | cons c chars ih =>
    obtain ⟨v, rest, hc, hrest, rfl⟩ := mapM_cons_eq_some.mp h
    obtain ⟨hlt, hchars⟩ := ih hrest
    obtain ⟨hsymbol, hv⟩ := symbol_of_symbolValue hc
    exact ⟨List.forall_mem_cons.mpr ⟨hv, hlt⟩, by rw [List.map_cons, hsymbol, ← hchars]⟩

theorem chars_of_values {values : List ℕ} (h : ∀ v ∈ values, v < 64) :
    (values.map symbol).mapM symbolValue = some values := by
  induction values with
  | nil => rfl
  | cons v values ih =>
    obtain ⟨hv, hvalues⟩ := List.forall_mem_cons.mp h
    exact mapM_cons_eq_some.mpr ⟨v, values, symbolValue_symbol hv, ih hvalues, rfl⟩

/-- The number that the loop over a chunk comes to. -/
theorem foldlM_pushValue {chunk : List UInt8} {values : List ℕ}
    (h : chunk.mapM symbolValue = some values) (n : ℕ) :
    chunk.foldlM pushValue n = some (values.foldl (fun n v => n * 64 + v) n) := by
  induction chunk generalizing values n with
  | nil =>
    cases h
    rfl
  | cons c chunk ih =>
    obtain ⟨v, rest, hc, hrest, rfl⟩ := mapM_cons_eq_some.mp h
    have hpush : pushValue n c = some (n * 64 + v) := by
      rw [pushValue, hc]
      exact congrArg some (push_sextet n (symbol_of_symbolValue hc).2)
    rw [List.foldlM_cons, hpush]
    exact ih hrest (n * 64 + v)

theorem foldlM_pushValue_none {chunk : List UInt8} (h : chunk.mapM symbolValue = none) (n : ℕ) :
    chunk.foldlM pushValue n = none := by
  induction chunk generalizing n with
  | nil => cases h
  | cons c chunk ih =>
    rw [List.foldlM_cons]
    cases hc : symbolValue c with
    | none =>
      rw [pushValue, hc]
      rfl
    | some v =>
      have hrest : chunk.mapM symbolValue = none := by
        rw [List.mapM_cons, hc] at h
        cases hchunk : chunk.mapM symbolValue with
        | none => rfl
        | some rest =>
          rw [hchunk] at h
          cases h
      rw [pushValue, hc]
      exact ih hrest _

theorem decodeChunk_eq {chunk : List UInt8} (h : chunk ≠ []) (hlen : chunk.length ≤ 4) :
    decodeChunk chunk = (chunk.mapM symbolValue).bind octets := by
  cases hvalues : chunk.mapM symbolValue with
  | none =>
    rw [decodeChunk, foldlM_pushValue_none hvalues]
    exact ite_self _
  | some values =>
    obtain ⟨hlt, hchunk⟩ := values_of_chars hvalues
    have hsame : chunk.length = values.length := by rw [hchunk, List.length_map]
    have hshift : ∀ n k : ℕ, n <<< k = n * 2 ^ k := Nat.shiftLeft_eq
    rw [decodeChunk, foldlM_pushValue hvalues, hsame]
    simp only [Option.bind_eq_bind, Option.bind_some, hshift, bigEndian_octets]
    match values with
    | [] => exact absurd (List.length_eq_zero_iff.mp hsame) h
    | [v] => rfl
    | [v, w] =>
      have h0 := ofNat_congr (m := ((0 * 64 + v) * 64 + w) * 2 ^ (6 * (4 - 2)) / 2 ^ 16)
        (n := v * 4 + w / 16) (by omega)
      exact congrArg (fun b => some [b]) h0
    | [v, w, x] =>
      have hx := hlt x (by simp)
      have h0 := ofNat_congr
        (m := (((0 * 64 + v) * 64 + w) * 64 + x) * 2 ^ (6 * (4 - 3)) / 2 ^ 16)
        (n := v * 4 + w / 16) (by omega)
      have h1 := ofNat_congr
        (m := (((0 * 64 + v) * 64 + w) * 64 + x) * 2 ^ (6 * (4 - 3)) / 2 ^ 8)
        (n := w * 16 + x / 4) (by omega)
      exact congrArg₂ (fun b c => some [b, c]) h0 h1
    | [v, w, x, y] =>
      have hx := hlt x (by simp)
      have hy := hlt y (by simp)
      have h0 := ofNat_congr
        (m := ((((0 * 64 + v) * 64 + w) * 64 + x) * 64 + y) * 2 ^ (6 * (4 - 4)) / 2 ^ 16)
        (n := v * 4 + w / 16) (by omega)
      have h1 := ofNat_congr
        (m := ((((0 * 64 + v) * 64 + w) * 64 + x) * 64 + y) * 2 ^ (6 * (4 - 4)) / 2 ^ 8)
        (n := w * 16 + x / 4) (by omega)
      have h2 := ofNat_congr
        (m := ((((0 * 64 + v) * 64 + w) * 64 + x) * 64 + y) * 2 ^ (6 * (4 - 4)))
        (n := x * 64 + y) (by omega)
      have hout := congr (congrArg₂ (fun b c d => [b, c, d]) h0 h1) h2
      exact congrArg some hout
    | _ :: _ :: _ :: _ :: _ :: _ =>
      rw [hsame] at hlen
      simp only [List.length_cons] at hlen
      omega

/-- The octets of a whole group of four are in front of the others. -/
theorem octets_append {group : List ℕ} (h : group.length = 4) (rest : List ℕ) :
    octets (group ++ rest) = (octets group).bind (fun out => (octets rest).map (out ++ ·)) := by
  match group with
  | [v, w, x, y] => rfl

theorem decodeChunks_eq (chars : List UInt8) :
    ((chunks 4 chars).mapM decodeChunk).map List.flatten =
      (chars.mapM symbolValue).bind octets := by
  induction hn : chars.length using Nat.strong_induction_on generalizing chars with
  | _ n ih =>
    by_cases hnil : chars = []
    · rw [hnil]
      rfl
    · by_cases hshort : chars.length ≤ 4
      · rw [chunks_short hnil hshort, List.mapM_cons, decodeChunk_eq hnil hshort]
        cases (chars.mapM symbolValue).bind octets with
        | none => rfl
        | some out => exact congrArg some (List.append_nil out)
      · have htake : (chars.take 4).length = 4 := by
          rw [List.length_take]
          omega
        have hne : chars.take 4 ≠ [] := by
          intro h
          rw [h] at htake
          cases htake
        have hrest := ih (chars.drop 4).length (by rw [List.length_drop]; omega) (chars.drop 4) rfl
        have hchunks := chunks_append (by decide) htake (chars.drop 4)
        have hvalues : (chars.take 4 ++ chars.drop 4).mapM symbolValue = do
            return (← (chars.take 4).mapM symbolValue) ++ (← (chars.drop 4).mapM symbolValue) :=
          List.mapM_append
        rw [List.take_append_drop] at hchunks hvalues
        rw [hchunks, List.mapM_cons, decodeChunk_eq hne (Nat.le_of_eq htake), hvalues]
        cases hgroup : (chars.take 4).mapM symbolValue with
        | none => rfl
        | some group =>
          have hfour : group.length = 4 := by
            rw [(values_of_chars hgroup).2, List.length_map] at htake
            exact htake
          simp only [Option.bind_eq_bind, Option.bind_some, Option.pure_def]
          cases htail : (chars.drop 4).mapM symbolValue with
          | none =>
            rw [htail] at hrest
            rw [Option.map_eq_none_iff.mp hrest]
            cases octets group <;> rfl
          | some tail =>
            rw [htail] at hrest
            simp only [Option.bind_some] at hrest ⊢
            rw [octets_append hfour, ← hrest]
            cases octets group with
            | none => rfl
            | some out =>
              cases (chunks 4 (chars.drop 4)).mapM decodeChunk with
              | none => rfl
              | some outs => rfl

/-! ## What the codec accepts -/

theorem asChar_symbol_ne_pad {v : ℕ} (h : v < 64) : asChar (symbol v) ≠ '=' := by
  intro he
  have henc := utf8EncodeChar_asChar (symbol_mem h)
  rw [he] at henc
  have hpad : (61 : UInt8) = symbol v := List.head_eq_of_cons_eq henc
  exact pad_notMem (hpad ▸ symbol_mem h)

theorem base64Encode_eq (bytes : List UInt8) :
    base64Encode bytes = String.ofList ((sextets bytes).map (fun v => asChar (symbol v)) ++
      List.replicate (missing (sextets bytes).length) '=') := by
  rw [base64Encode, flatMap_encodeChunk]

theorem utf8Bytes_symbols {values : List ℕ} (h : ∀ v ∈ values, v < 64) :
    (values.map (fun v => asChar (symbol v))).flatMap String.utf8EncodeChar =
      values.map symbol := by
  induction values with
  | nil => rfl
  | cons v values ih =>
    obtain ⟨hv, hvalues⟩ := List.forall_mem_cons.mp h
    rw [List.map_cons, List.flatMap_cons, utf8EncodeChar_asChar (symbol_mem hv), ih hvalues]
    rfl

theorem utf8Bytes_pad (n : ℕ) :
    (List.replicate n '=').flatMap String.utf8EncodeChar = List.replicate n 61 := by
  induction n with
  | zero => rfl
  | succ n ih =>
    rw [List.replicate_succ, List.flatMap_cons, ih]
    rfl

theorem utf8Bytes_base64Encode (bytes : List UInt8) :
    utf8Bytes (base64Encode bytes) = (sextets bytes).map symbol ++
      List.replicate (missing (sextets bytes).length) 61 := by
  rw [base64Encode_eq, utf8Bytes_ofList, List.flatMap_append,
    utf8Bytes_symbols (fun _ hv => sextets_lt hv), utf8Bytes_pad]

/-- A text without its padding. -/
def base64Body (s : String) : List UInt8 := utf8Bytes (trimEndMatches '=' s)

theorem utf8Bytes_eq_body (s : String) :
    ∃ n, utf8Bytes s = base64Body s ++ List.replicate n 61 := by
  obtain ⟨n, hs⟩ := trimEndMatches_append '=' s
  refine ⟨n, ?_⟩
  rw [utf8Bytes_eq, hs, List.flatMap_append, utf8Bytes_pad, base64Body, utf8Bytes_eq]

theorem base64Body_base64Encode (bytes : List UInt8) :
    base64Body (base64Encode bytes) = (sextets bytes).map symbol := by
  have hnot : '=' ∉ (sextets bytes).map (fun v => asChar (symbol v)) := by
    rw [List.mem_map]
    rintro ⟨v, hv, he⟩
    exact asChar_symbol_ne_pad (sextets_lt hv) he
  rw [base64Body, base64Encode_eq, trimEndMatches_pad hnot, utf8Bytes_ofList,
    utf8Bytes_symbols (fun _ hv => sextets_lt hv)]

theorem base64Decode_eq (s : String) :
    base64Decode s = ((base64Body s).mapM symbolValue).bind octets := by
  rw [← decodeChunks_eq]
  unfold base64Decode base64Body
  cases (chunks 4 (utf8Bytes (trimEndMatches '=' s))).mapM decodeChunk <;> rfl

/-- What is encoded is decoded, and its padding is at the end. -/
theorem base64_round_trip (bytes : List UInt8) :
    base64Decode (base64Encode bytes) = some bytes ∧
      (utf8Bytes (base64Encode bytes)).length = 4 * ((bytes.length + 2) / 3) ∧
      ∀ i c, (utf8Bytes (base64Encode bytes))[i]? = some c →
        c ∈ BASE64_ALPHABET ∨ c = 61 ∧ (utf8Bytes (base64Encode bytes)).length ≤ i + 2 := by
  obtain ⟨hlen, hpad⟩ := length_sextets bytes
  refine ⟨?_, ?_, ?_⟩
  · rw [base64Decode_eq, base64Body_base64Encode,
      chars_of_values (fun _ hv => sextets_lt hv)]
    exact octets_sextets bytes
  · rw [utf8Bytes_base64Encode, List.length_append, List.length_map, List.length_replicate, hlen]
  · intro i c hc
    rw [utf8Bytes_base64Encode] at hc ⊢
    rw [List.length_append, List.length_map, List.length_replicate]
    by_cases hi : i < (sextets bytes).length
    · rw [List.getElem?_append_left (by rwa [List.length_map])] at hc
      obtain ⟨v, hv, rfl⟩ := List.mem_map.mp (List.mem_of_getElem? hc)
      exact .inl (symbol_mem (sextets_lt hv))
    · rw [List.getElem?_append_right (by rw [List.length_map]; omega)] at hc
      exact .inr ⟨List.eq_of_mem_replicate (List.mem_of_getElem? hc), by omega⟩

/-- The texts that `base64_decode` refuses. -/
def Refused (s : String) : Prop :=
  (∃ c ∈ base64Body s, c ∉ BASE64_ALPHABET) ∨ (base64Body s).length % 4 = 1

/-- The texts whose padding is that of their body, with nothing in the bits that are left over. -/
def WellPadded (s : String) : Prop :=
  (utf8Bytes s).length = (base64Body s).length + missing (base64Body s).length ∧
    spareBits ((base64Body s).map BASE64_ALPHABET.idxOf) = 0

theorem exists_values {chars : List UInt8} (h : ∀ c ∈ chars, c ∈ BASE64_ALPHABET) :
    ∃ values, chars.mapM symbolValue = some values := by
  induction chars with
  | nil => exact ⟨[], rfl⟩
  | cons c chars ih =>
    obtain ⟨hc, hchars⟩ := List.forall_mem_cons.mp h
    obtain ⟨values, hvalues⟩ := ih hchars
    cases hv : symbolValue c with
    | none => exact absurd hc (List.idxOf?_eq_none_iff.mp hv)
    | some v => exact ⟨v :: values, mapM_cons_eq_some.mpr ⟨v, values, hv, hvalues, rfl⟩⟩

theorem refused_iff {s : String} : Refused s ↔ base64Decode s = none := by
  rw [base64Decode_eq, Refused]
  cases hvalues : (base64Body s).mapM symbolValue with
  | none =>
    refine ⟨fun _ => rfl, fun _ => .inl ?_⟩
    by_contra hall
    push Not at hall
    obtain ⟨values, hsome⟩ := exists_values hall
    rw [hsome] at hvalues
    cases hvalues
  | some values =>
    obtain ⟨hlt, hbody⟩ := values_of_chars hvalues
    have hin : ¬∃ c ∈ base64Body s, c ∉ BASE64_ALPHABET := by
      rintro ⟨c, hc, hnot⟩
      rw [hbody] at hc
      obtain ⟨v, hv, rfl⟩ := List.mem_map.mp hc
      exact hnot (symbol_mem (hlt v hv))
    rw [Option.bind_some, octets_eq_none, hbody, List.length_map]
    rw [hbody] at hin
    exact or_iff_right hin

theorem idxOf_symbols {values : List ℕ} (h : ∀ v ∈ values, v < 64) :
    (values.map symbol).map BASE64_ALPHABET.idxOf = values := by
  have hall : ∀ v : Fin 64, BASE64_ALPHABET.idxOf (symbol v) = v.val := by decide +kernel
  calc (values.map symbol).map BASE64_ALPHABET.idxOf
      = values.map (fun v => BASE64_ALPHABET.idxOf (symbol v)) := List.map_map
    _ = values.map id := List.map_congr_left (fun v hv => hall ⟨v, h v hv⟩)
    _ = values := List.map_id values

/-- A text that decodes to its own encoding has the padding of its body. -/
theorem wellPadded_iff {s : String} {bytes : List UInt8} (h : base64Decode s = some bytes) :
    base64Encode bytes = s ↔ WellPadded s := by
  rw [base64Decode_eq] at h
  obtain ⟨values, hvalues, hbytes⟩ := Option.bind_eq_some_iff.mp h
  obtain ⟨hlt, hbody⟩ := values_of_chars hvalues
  have hspare := sextets_octets hlt hbytes
  rw [WellPadded, hbody, idxOf_symbols hlt, List.length_map]
  constructor
  · rintro rfl
    have hsame := base64Body_base64Encode bytes
    rw [hbody] at hsame
    have hvals : values = sextets bytes := by
      have hmap := congrArg (List.map BASE64_ALPHABET.idxOf) hsame
      rwa [idxOf_symbols hlt, idxOf_symbols (fun _ hv => sextets_lt hv)] at hmap
    rw [utf8Bytes_base64Encode, List.length_append, List.length_map, List.length_replicate, hvals]
    exact ⟨rfl, hvals ▸ hspare.mp hvals.symm⟩
  · rintro ⟨hlen, hzero⟩
    obtain ⟨n, hn⟩ := utf8Bytes_eq_body s
    have hpad : n = missing values.length := by
      rw [hn, hbody, List.length_append, List.length_map, List.length_replicate] at hlen
      omega
    refine utf8Bytes_injective ?_
    rw [utf8Bytes_base64Encode, hspare.mpr hzero, hn, hbody, hpad]

/-- A text is the encoding of what it decodes to where it is refused, or is padded as it should
be. -/
theorem base64_decode_canonical (s : String) :
    (∀ bytes, base64Decode s = some bytes → base64Encode bytes = s) ↔
      Refused s ∨ WellPadded s := by
  rw [refused_iff]
  cases h : base64Decode s with
  | none => exact ⟨fun _ => .inl rfl, fun _ _ hbytes => nomatch hbytes⟩
  | some bytes =>
    have hpadded := wellPadded_iff h
    constructor
    · intro hall
      exact .inr (hpadded.mp (hall bytes rfl))
    · rintro (hnone | hwell) out hout
      · cases hnone
      · cases hout
        exact hpadded.mpr hwell

/-- Padding that is missing or surplus, and bits that are left over. -/
theorem base64_decode_unpadded :
    (base64Decode "QQ" = some [65] ∧ base64Decode "QQ===" = some [65] ∧
      base64Decode "QR==" = some [65] ∧ base64Encode [65] = "QQ==") ∧
      ¬∀ s bytes, base64Decode s = some bytes → base64Encode bytes = s := by
  have hruns : base64Decode "QQ" = some [65] ∧ base64Decode "QQ===" = some [65] ∧
      base64Decode "QR==" = some [65] ∧ base64Encode [65] = "QQ==" := by decide +kernel
  refine ⟨hruns, fun hall => ?_⟩
  have henc := hall "QQ" [65] hruns.1
  rw [hruns.2.2.2] at henc
  exact absurd henc (by decide)

end XGameRuntime.Ipc
