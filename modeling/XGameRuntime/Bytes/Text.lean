import XGameRuntime.Bytes.Memory
import Mathlib.Data.List.Basic

/-! # Text in memory

Strings in UTF-8 and in UTF-16, stored unit by unit up to a terminating zero.
-/

namespace XGameRuntime.Bytes
set_option autoImplicit false

/-! ## UTF-8 -/

/-- `str::as_bytes`. -/
def utf8Bytes (s : String) : List UInt8 :=
  s.toByteArray.data.toList

def fromUtf8 (bytes : List UInt8) : Option String :=
  String.fromUTF8? ⟨bytes.toArray⟩

@[simp] theorem length_utf8Bytes (s : String) : (utf8Bytes s).length = s.utf8ByteSize :=
  rfl

theorem fromUtf8_utf8Bytes (s : String) : fromUtf8 (utf8Bytes s) = some s :=
  dif_pos s.isValidUTF8

theorem utf8Bytes_eq (s : String) : utf8Bytes s = s.toList.flatMap String.utf8EncodeChar := by
  rw [utf8Bytes, ← String.utf8Encode_toList]
  exact List.toList_data_toByteArray

/-- Only the null character has a zero byte: the bytes of a longer one carry their tags. -/
theorem zero_notMem_utf8EncodeChar {c : Char} (h : c ≠ '\x00') :
    0 ∉ String.utf8EncodeChar c := by
  have htag : ∀ b : UInt8, ∀ {t : UInt8}, t ≠ 0 → 0 ≠ b ||| t :=
    fun _ _ ht hz => ht (UInt8.or_eq_zero_iff.mp hz.symm).2
  rcases Char.utf8Size_eq c with hs | hs | hs | hs
  · rw [String.utf8EncodeChar_eq_singleton hs, List.mem_singleton]
    intro hz
    have hle : c.val.toNat ≤ 127 := UInt32.le_iff_toNat_le.mp (Char.utf8Size_eq_one_iff.mp hs)
    have hmod : c.val.toNat % 256 = 0 := (congrArg UInt8.toNat hz).symm
    refine h (Char.ext (UInt32.toNat_inj.mp ?_))
    change c.val.toNat = 0
    omega
  · rw [String.utf8EncodeChar_eq_cons_cons hs]
    simp only [List.mem_cons, List.not_mem_nil, or_false, not_or]
    exact ⟨htag _ (by decide), htag _ (by decide)⟩
  · rw [String.utf8EncodeChar_eq_cons_cons_cons hs]
    simp only [List.mem_cons, List.not_mem_nil, or_false, not_or]
    exact ⟨htag _ (by decide), htag _ (by decide), htag _ (by decide)⟩
  · rw [String.utf8EncodeChar_eq_cons_cons_cons_cons hs]
    simp only [List.mem_cons, List.not_mem_nil, or_false, not_or]
    exact ⟨htag _ (by decide), htag _ (by decide), htag _ (by decide), htag _ (by decide)⟩

theorem zero_notMem_utf8Bytes {s : String} (h : '\x00' ∉ s.toList) : 0 ∉ utf8Bytes s := by
  rw [utf8Bytes_eq, List.mem_flatMap]
  rintro ⟨c, hc, hz⟩
  exact zero_notMem_utf8EncodeChar (fun he => h (he ▸ hc)) hz

/-! ## UTF-16 -/

/-- `char::encode_utf16`: a character past the basic plane is a pair of surrogates. -/
def utf16EncodeChar (c : Char) : List UInt16 :=
  if c.toNat < 0x10000 then [UInt16.ofNat c.toNat]
  else
    [UInt16.ofNat (0xD800 + (c.toNat - 0x10000) / 0x400),
      UInt16.ofNat (0xDC00 + (c.toNat - 0x10000) % 0x400)]

/-- `str::encode_utf16`. -/
def utf16Units (s : String) : List UInt16 :=
  s.toList.flatMap utf16EncodeChar

/-- `char::decode_utf16`, up to the first unpaired surrogate. -/
def utf16Chars : List UInt16 → Option (List Char)
  | [] => some []
  | [u] => if u < 0xD800 ∨ 0xE000 ≤ u then some [Char.ofNat u.toNat] else none
  | u :: v :: rest =>
      if u < 0xD800 ∨ 0xE000 ≤ u then (utf16Chars (v :: rest)).map (Char.ofNat u.toNat :: ·)
      else if u < 0xDC00 ∧ 0xDC00 ≤ v ∧ v < 0xE000 then
        (utf16Chars rest).map
          (Char.ofNat (0x10000 + (u.toNat - 0xD800) * 0x400 + (v.toNat - 0xDC00)) :: ·)
      else none

def fromUtf16 (units : List UInt16) : Option String :=
  (utf16Chars units).map String.ofList

theorem char_bounds (c : Char) : c.toNat < 0xD800 ∨ 0xE000 ≤ c.toNat ∧ c.toNat < 0x110000 := by
  rcases c.valid with h | ⟨h, h'⟩
  · exact .inl h
  · exact .inr ⟨h, h'⟩

theorem utf16Chars_encode (c : Char) (rest : List UInt16) :
    utf16Chars (utf16EncodeChar c ++ rest) = (utf16Chars rest).map (c :: ·) := by
  have hc := char_bounds c
  by_cases hsmall : c.toNat < 0x10000
  · have hunit : (UInt16.ofNat c.toNat).toNat = c.toNat := UInt16.toNat_ofNat_of_lt' hsmall
    have hplain : UInt16.ofNat c.toNat < 0xD800 ∨ 0xE000 ≤ UInt16.ofNat c.toNat := by
      rw [UInt16.lt_iff_toNat_lt, UInt16.le_iff_toNat_le, hunit]
      exact hc.imp_right And.left
    rw [utf16EncodeChar, if_pos hsmall, List.singleton_append]
    cases rest with
    | nil =>
      show utf16Chars [UInt16.ofNat c.toNat] = some [c]
      rw [utf16Chars, if_pos hplain, hunit, Char.ofNat_toNat]
    | cons v rest => rw [utf16Chars, if_pos hplain, hunit, Char.ofNat_toNat]
  · obtain ⟨v, hv⟩ := Nat.exists_eq_add_of_le (Nat.le_of_not_lt hsmall)
    have hlt : v < 0x100000 := by omega
    have hhigh : (UInt16.ofNat (0xD800 + v / 0x400)).toNat = 0xD800 + v / 0x400 :=
      UInt16.toNat_ofNat_of_lt' (by unfold UInt16.size; omega)
    have hlow : (UInt16.ofNat (0xDC00 + v % 0x400)).toNat = 0xDC00 + v % 0x400 :=
      UInt16.toNat_ofNat_of_lt' (by unfold UInt16.size; omega)
    have hpair : 0x10000 + (0xD800 + v / 0x400 - 0xD800) * 0x400
        + (0xDC00 + v % 0x400 - 0xDC00) = c.toNat := by omega
    rw [utf16EncodeChar, if_neg hsmall, hv, Nat.add_sub_cancel_left]
    simp only [List.cons_append, List.nil_append]
    rw [utf16Chars, if_neg, if_pos, hhigh, hlow, hpair, Char.ofNat_toNat]
    · simp only [UInt16.lt_iff_toNat_lt, UInt16.le_iff_toNat_le, hhigh, hlow]
      refine ⟨?_, ?_, ?_⟩
      · change 0xD800 + v / 0x400 < 0xDC00
        omega
      · exact Nat.le_add_right _ _
      · change 0xDC00 + v % 0x400 < 0xE000
        omega
    · simp only [UInt16.lt_iff_toNat_lt, UInt16.le_iff_toNat_le, hhigh, not_or]
      refine ⟨Nat.not_lt.mpr (Nat.le_add_right _ _), ?_⟩
      change ¬0xE000 ≤ 0xD800 + v / 0x400
      omega

theorem fromUtf16_utf16Units (s : String) : fromUtf16 (utf16Units s) = some s := by
  have hchars : ∀ cs : List Char, utf16Chars (cs.flatMap utf16EncodeChar) = some cs := by
    intro cs
    induction cs with
    | nil => rfl
    | cons c cs ih => rw [List.flatMap_cons, utf16Chars_encode, ih]; rfl
  rw [fromUtf16, utf16Units, hchars, Option.map_some, String.ofList_toList]

theorem zero_notMem_utf16Units {s : String} (h : '\x00' ∉ s.toList) : 0 ∉ utf16Units s := by
  rw [utf16Units, List.mem_flatMap]
  rintro ⟨c, hc, hz⟩
  have hne : c.toNat ≠ 0 := by
    intro he
    have hnul : c = '\x00' := by rw [← Char.ofNat_toNat c, he]
    exact h (hnul ▸ hc)
  have hbounds := char_bounds c
  unfold utf16EncodeChar at hz
  split at hz
  · have hunit := congrArg UInt16.toNat (List.mem_singleton.mp hz)
    rw [UInt16.toNat_ofNat', UInt16.toNat_zero] at hunit
    omega
  · simp only [List.mem_cons, List.not_mem_nil, or_false] at hz
    rcases hz with hz | hz
    · have hunit := congrArg UInt16.toNat hz
      rw [UInt16.toNat_ofNat', UInt16.toNat_zero] at hunit
      omega
    · have hunit := congrArg UInt16.toNat hz
      rw [UInt16.toNat_ofNat', UInt16.toNat_zero] at hunit
      omega

/-! ## Strings in memory -/

/-- How a string lies in memory: in units of `width` bytes. -/
structure Encoding (U : Type) where
  width : ℕ
  zero : U
  bytes : U → List UInt8
  unit : List UInt8 → U
  encode : String → List U
  decode : List U → Option String
  length_bytes : ∀ u, (bytes u).length = width
  unit_bytes : ∀ u, unit (bytes u) = u
  decode_encode : ∀ s, decode (encode s) = some s
  zero_notMem : ∀ {s : String}, '\x00' ∉ s.toList → zero ∉ encode s

def utf8 : Encoding UInt8 where
  width := 1
  zero := 0
  bytes b := [b]
  unit bytes := bytes.headD 0
  encode := utf8Bytes
  decode := fromUtf8
  length_bytes _ := rfl
  unit_bytes _ := rfl
  decode_encode := fromUtf8_utf8Bytes
  zero_notMem := zero_notMem_utf8Bytes

def utf16 : Encoding UInt16 where
  width := 2
  zero := 0
  bytes u := leBytes 2 u.toNat
  unit bytes := UInt16.ofNat (fromLeBytes bytes)
  encode := utf16Units
  decode := fromUtf16
  length_bytes u := length_leBytes 2 u.toNat
  unit_bytes u := by
    have hlt : u.toNat < 256 ^ 2 := u.toNat_lt
    rw [fromLeBytes_leBytes, Nat.mod_eq_of_lt hlt, UInt16.ofNat_toNat]
  decode_encode := fromUtf16_utf16Units
  zero_notMem := zero_notMem_utf16Units

namespace Encoding
variable {U : Type} (e : Encoding U) (m : Memory)

def store (p : ℕ) (units : List U) : Memory :=
  m.write p (units.flatMap e.bytes)

/-- `n` units from `p` on. -/
def load (p : ℕ) : ℕ → List U
  | 0 => []
  | n + 1 => e.unit (m.read p e.width) :: load (p + e.width) n

theorem length_flatMap_bytes (units : List U) :
    (units.flatMap e.bytes).length = units.length * e.width := by
  induction units with
  | nil => exact (Nat.zero_mul _).symm
  | cons u units ih =>
    rw [List.flatMap_cons, List.length_append, e.length_bytes, ih, List.length_cons,
      Nat.succ_mul, Nat.add_comm]

theorem store_outside {p : ℕ} {units : List U} {a : ℕ}
    (h : a < p ∨ p + units.length * e.width ≤ a) : (e.store m p units).byte a = m.byte a :=
  m.write_outside p _ (by rw [e.length_flatMap_bytes]; exact h)

theorem load_write_disjoint {p q n : ℕ} {bytes : List UInt8}
    (h : q + bytes.length ≤ p ∨ p + n * e.width ≤ q) :
    e.load (m.write q bytes) p n = e.load m p n := by
  induction n generalizing p with
  | zero => rfl
  | succ n ih =>
    rw [Nat.succ_mul] at h
    rw [load, load, ih (by omega), m.read_write_disjoint q p e.width bytes (by omega)]

theorem load_store (p : ℕ) (units : List U) :
    e.load (e.store m p units) p units.length = units := by
  induction units generalizing m p with
  | nil => rfl
  | cons u units ih =>
    have hlen := e.length_bytes u
    have hsplit : e.store m p (u :: units) =
        e.store (m.write p (e.bytes u)) (p + e.width) units := by
      rw [store, List.flatMap_cons, m.write_append, hlen]
      rfl
    have hfirst : (e.store m p (u :: units)).read p e.width = e.bytes u := by
      rw [hsplit, store, Memory.read_write_disjoint _ _ _ _ _ (.inr (Nat.le_refl _)), ← hlen,
        m.read_write]
    rw [List.length_cons, load, hfirst, e.unit_bytes, hsplit, ih]

/-- The `n` units from `p` on are `s` and its terminator. -/
def Holds (p n : ℕ) (s : String) : Prop :=
  ∃ units, e.load m p n = units ++ [e.zero] ∧ e.zero ∉ units ∧ e.decode units = some s

variable {e m}

theorem holds_store {p : ℕ} {s : String} (h : '\x00' ∉ s.toList) :
    e.Holds (e.store m p (e.encode s ++ [e.zero])) p ((e.encode s).length + 1) s := by
  have hload := e.load_store m p (e.encode s ++ [e.zero])
  rw [List.length_append, List.length_singleton] at hload
  exact ⟨e.encode s, hload, e.zero_notMem h, e.decode_encode s⟩

theorem Holds.write {p q n : ℕ} {s : String} {bytes : List UInt8} (h : e.Holds m p n s)
    (hd : q + bytes.length ≤ p ∨ p + n * e.width ≤ q) : e.Holds (m.write q bytes) p n s := by
  obtain ⟨units, hload, hrest⟩ := h
  exact ⟨units, (e.load_write_disjoint m hd).trans hload, hrest⟩

end Encoding

end XGameRuntime.Bytes
