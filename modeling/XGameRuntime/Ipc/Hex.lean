import XGameRuntime.Bytes.Slices

/-! # Hexadecimal

How the shared secret of the TCP endpoint is written in the environment (`src/ipc.rs`).
-/

namespace XGameRuntime.Ipc
open Bytes
set_option autoImplicit false

/-- `u8::from_str_radix(s.get(i..i + 2)?, 16).ok()`. -/
def byteAt (s : String) (i : ℕ) : Option UInt8 := do
  let pair ← getSlice s i (i + 2)
  let n ← fromStrRadix16 256 pair
  some (UInt8.ofNat n)

def hexDecode (s : String) : Option (List UInt8) :=
  if s.utf8ByteSize % 2 ≠ 0 then none
  else (List.range' 0 (s.utf8ByteSize / 2) 2).mapM (byteAt s)

/-- `hex_encode`, in lower case. -/
def hexEncode (bytes : List UInt8) : String :=
  String.ofList (bytes.flatMap fun b => [(b.toNat / 16).digitChar, (b.toNat % 16).digitChar])

/-! ## What is hexadecimal -/

/-- The bytes that digits stand for, two by two. -/
def pairValues : List Char → List UInt8
  | a :: b :: rest =>
      UInt8.ofNat ((toDigit16 a).getD 0 * 16 + (toDigit16 b).getD 0) :: pairValues rest
  | _ => []

/-- `s` spells `bytes` in digits. -/
structure Spells (s : String) (bytes : List UInt8) : Prop where
  even : s.toList.length % 2 = 0
  digits : ∀ c ∈ s.toList, (toDigit16 c).isSome
  values : bytes = pairValues s.toList

/-- Pairs of digits, where a sign may stand for the first of a pair. -/
def signedPairs : List Char → Bool
  | [] => true
  | [_] => false
  | a :: b :: rest => (a == '+' || (toDigit16 a).isSome) && (toDigit16 b).isSome && signedPairs rest

/-! ## By characters -/

/-- The value of a pair of characters. -/
def pairValue (a b : Char) : Option UInt8 :=
  (fromStrRadix16 256 (String.ofList [a, b])).map UInt8.ofNat

def decodePairs : List Char → Option (List UInt8)
  | [] => some []
  | [_] => none
  | a :: b :: rest => do
      let v ← pairValue a b
      let vs ← decodePairs rest
      some (v :: vs)

theorem digits16_one {b : Char} (hb : b.utf8Size = 1) :
    digits16 256 [UInt8.ofNat b.toNat] = toDigit16 b := by
  rw [digits16, List.foldlM_cons, digit_of_byte hb]
  cases hv : toDigit16 b with
  | none => rfl
  | some v =>
    have hlt := (toDigit16_bounds hv).2.2
    simp only [Option.bind_eq_bind, Option.bind_some, Nat.zero_mul, Nat.zero_add]
    rw [if_pos (by omega)]
    rfl

theorem digits16_two {a b : Char} (ha : a.utf8Size = 1) (hb : b.utf8Size = 1) :
    digits16 256 [UInt8.ofNat a.toNat, UInt8.ofNat b.toNat] =
      (toDigit16 a).bind fun v => (toDigit16 b).map fun w => v * 16 + w := by
  rw [digits16, List.foldlM_cons, digit_of_byte ha]
  cases hv : toDigit16 a with
  | none => rfl
  | some v =>
    have hvlt := (toDigit16_bounds hv).2.2
    simp only [Option.bind_eq_bind, Option.bind_some, Nat.zero_mul, Nat.zero_add]
    rw [if_pos (by omega), Option.bind_some, List.foldlM_cons, digit_of_byte hb]
    cases hw : toDigit16 b with
    | none => rfl
    | some w =>
      have hwlt := (toDigit16_bounds hw).2.2
      simp only [Option.bind_eq_bind, Option.bind_some, Option.map_some]
      rw [if_pos (by omega)]
      rfl

theorem pairValue_long {a b c : Char} (hc : c ∈ [a, b]) (h : c.utf8Size ≠ 1) :
    pairValue a b = none := by
  rw [pairValue, fromStrRadix16_long hc h]
  rfl

theorem pairValue_plain {a b : Char} (ha : a.utf8Size = 1) (hb : b.utf8Size = 1) :
    pairValue a b = (if a = '+' then toDigit16 b
      else (toDigit16 a).bind fun v => (toDigit16 b).map fun w => v * 16 + w).map UInt8.ofNat := by
  have hbytes : utf8Bytes (String.ofList [a, b]) = [UInt8.ofNat a.toNat, UInt8.ofNat b.toNat] := by
    rw [utf8Bytes_ofList, List.flatMap_cons, List.flatMap_singleton, utf8EncodeChar_plain ha,
      utf8EncodeChar_plain hb]
    rfl
  rw [pairValue, fromStrRadix16, hbytes]
  simp only [sign_iff ha, digits16_one hb, digits16_two ha hb]

/-- A pair that is read is two digits, or a sign and a digit. -/
theorem pairValue_eq (a b : Char) : pairValue a b =
    if (a == '+' || (toDigit16 a).isSome) && (toDigit16 b).isSome then
      some (UInt8.ofNat ((toDigit16 a).getD 0 * 16 + (toDigit16 b).getD 0)) else none := by
  have hlong : ∀ {c : Char}, c.utf8Size ≠ 1 → toDigit16 c = none := by
    intro c hc
    cases hd : toDigit16 c with
    | none => rfl
    | some n => exact absurd (utf8Size_of_toDigit16 hd) hc
  by_cases ha : a.utf8Size = 1
  · by_cases hb : b.utf8Size = 1
    · rw [pairValue_plain ha hb]
      by_cases hsign : a = '+'
      · have hnone : toDigit16 '+' = none := by decide
        rw [if_pos hsign, hsign, hnone]
        cases toDigit16 b <;> simp
      · rw [if_neg hsign, beq_eq_false_iff_ne.mpr hsign]
        cases toDigit16 a <;> cases toDigit16 b <;> rfl
    · rw [pairValue_long (by simp) hb, hlong hb, Option.isSome_none, Bool.and_false]
      rfl
  · have hsign : (a == '+') = false := beq_eq_false_iff_ne.mpr (fun he => ha (by rw [he]; rfl))
    rw [pairValue_long (by simp) ha, hlong ha, hsign]
    rfl

theorem decodePairs_eq (cs : List Char) :
    decodePairs cs = if signedPairs cs then some (pairValues cs) else none := by
  induction cs using decodePairs.induct with
  | case1 => rfl
  | case2 c => rfl
  | case3 a b rest ih =>
    rw [decodePairs, pairValue_eq, ih, signedPairs, pairValues]
    cases (a == '+' || (toDigit16 a).isSome) && (toDigit16 b).isSome with
    | false => rfl
    | true => cases signedPairs rest <;> rfl

/-! ## By bytes -/

theorem byteAt_shift {a b : Char} (ha : a.utf8Size = 1) (hb : b.utf8Size = 1) (rest : List Char)
    (i : ℕ) : byteAt (String.ofList (a :: b :: rest)) (2 + i) = byteAt (String.ofList rest) i := by
  have hdrop : dropBytes (2 + i) (a :: b :: rest) = dropBytes i rest := by
    have h := dropBytes_cons (c := a) (1 + i) (b :: rest)
    have h' := dropBytes_cons (c := b) i rest
    rw [ha] at h
    rw [hb] at h'
    rw [← h', ← h, ← Nat.add_assoc]
  have hlen : 2 + i + 2 - (2 + i) = i + 2 - i := by omega
  rw [byteAt, byteAt, getSlice, getSlice, String.toList_ofList, String.toList_ofList, hdrop, hlen]

theorem byteAt_zero (cs : List Char) : byteAt (String.ofList cs) 0 =
    (takeBytes 2 cs).bind fun slice =>
      (fromStrRadix16 256 (String.ofList slice)).map UInt8.ofNat := by
  rw [byteAt, getSlice, String.toList_ofList, dropBytes]
  simp only [Option.bind_eq_bind, Option.bind_some]
  cases takeBytes 2 cs with
  | none => rfl
  | some slice =>
    simp only [Option.bind_some]
    cases fromStrRadix16 256 (String.ofList slice) <;> rfl

theorem byteAt_zero_pair {a b : Char} (ha : a.utf8Size = 1) (hb : b.utf8Size = 1)
    (rest : List Char) : byteAt (String.ofList (a :: b :: rest)) 0 = pairValue a b := by
  have htake : takeBytes 2 (a :: b :: rest) = some [a, b] := by
    rw [takeBytes, if_pos (by omega), ha, takeBytes, if_pos (by omega), hb, takeBytes]
    rfl
  rw [byteAt_zero, htake]
  rfl

theorem byteAt_zero_long {a : Char} (ha : a.utf8Size ≠ 1) (rest : List Char) :
    byteAt (String.ofList (a :: rest)) 0 = none := by
  have hpos := a.utf8Size_pos
  rw [byteAt_zero, takeBytes]
  split
  · have htwo : 1 + 1 - a.utf8Size = 0 := by omega
    rw [htwo, takeBytes, Option.map_some, Option.bind_some,
      fromStrRadix16_long (List.mem_singleton_self a) ha]
    rfl
  · rfl

theorem byteAt_zero_second {a b : Char} (ha : a.utf8Size = 1) (hb : b.utf8Size ≠ 1)
    (rest : List Char) : byteAt (String.ofList (a :: b :: rest)) 0 = none := by
  have hpos := b.utf8Size_pos
  rw [byteAt_zero, takeBytes, if_pos (by omega), ha, takeBytes, if_neg (by omega)]
  rfl

/-- The slices are those of the pairs of characters, as far as all are read. -/
theorem mapM_byteAt {a b : Char} (ha : a.utf8Size = 1) (hb : b.utf8Size = 1) (rest : List Char)
    (n : ℕ) : (List.range' 0 (n + 1) 2).mapM (byteAt (String.ofList (a :: b :: rest))) =
      (pairValue a b).bind fun v =>
        ((List.range' 0 n 2).mapM (byteAt (String.ofList rest))).map (v :: ·) := by
  have hshift : (List.range' 2 n 2).mapM (byteAt (String.ofList (a :: b :: rest))) =
      (List.range' 0 n 2).mapM (byteAt (String.ofList rest)) := by
    rw [← List.map_add_range' 0 n 2, List.mapM_map]
    exact congrArg (List.mapM · _) (funext (byteAt_shift ha hb rest))
  rw [List.range'_succ, List.mapM_cons, byteAt_zero_pair ha hb, hshift]
  cases pairValue a b with
  | none => rfl
  | some v => cases (List.range' 0 n 2).mapM (byteAt (String.ofList rest)) <;> rfl

theorem hexDecode_none {s : String} (hs : s ≠ "") (h : byteAt s 0 = none) : hexDecode s = none := by
  unfold hexDecode
  split
  · rfl
  · rename_i heven
    have hsize : s.utf8ByteSize ≠ 0 := fun h0 => hs (String.utf8ByteSize_eq_zero_iff.mp h0)
    obtain ⟨n, hn⟩ : ∃ n, s.utf8ByteSize / 2 = n + 1 := ⟨s.utf8ByteSize / 2 - 1, by omega⟩
    rw [hn, List.range'_succ, List.mapM_cons, h]
    rfl

theorem utf8ByteSize_cons (c : Char) (cs : List Char) :
    (String.ofList (c :: cs)).utf8ByteSize = c.utf8Size + (String.ofList cs).utf8ByteSize := by
  rw [← length_utf8Bytes, ← length_utf8Bytes, utf8Bytes_ofList, utf8Bytes_ofList,
    List.flatMap_cons, List.length_append, String.length_utf8EncodeChar]

theorem hexDecode_pair {a b : Char} (ha : a.utf8Size = 1) (hb : b.utf8Size = 1)
    (rest : List Char) : hexDecode (String.ofList (a :: b :: rest)) =
      (pairValue a b).bind fun v => (hexDecode (String.ofList rest)).map (v :: ·) := by
  have hsize : (String.ofList (a :: b :: rest)).utf8ByteSize =
      (String.ofList rest).utf8ByteSize + 2 := by
    rw [utf8ByteSize_cons, utf8ByteSize_cons, ha, hb]
    omega
  have hmod : ((String.ofList rest).utf8ByteSize + 2) % 2 = (String.ofList rest).utf8ByteSize % 2 :=
    Nat.add_mod_right _ _
  have hdiv : ((String.ofList rest).utf8ByteSize + 2) / 2 =
      (String.ofList rest).utf8ByteSize / 2 + 1 := Nat.add_div_right _ (by decide)
  rw [hexDecode, hexDecode, hsize, hmod, hdiv, mapM_byteAt ha hb]
  split
  · cases pairValue a b <;> rfl
  · rfl

theorem hexDecode_ofList (cs : List Char) : hexDecode (String.ofList cs) = decodePairs cs := by
  induction cs using decodePairs.induct with
  | case1 => rfl
  | case2 a =>
    by_cases ha : a.utf8Size = 1
    · rw [hexDecode, if_pos (by rw [utf8ByteSize_cons, ha]; decide)]
      rfl
    · exact hexDecode_none (by simp) (byteAt_zero_long ha [])
  | case3 a b rest ih =>
    by_cases ha : a.utf8Size = 1
    · by_cases hb : b.utf8Size = 1
      · rw [hexDecode_pair ha hb, ih, decodePairs]
        cases pairValue a b with
        | none => rfl
        | some v => cases decodePairs rest <;> rfl
      · rw [hexDecode_none (by simp) (byteAt_zero_second ha hb rest), decodePairs,
          pairValue_long (by simp) hb]
        rfl
    · rw [hexDecode_none (by simp) (byteAt_zero_long ha (b :: rest)), decodePairs,
        pairValue_long (by simp) ha]
      rfl

theorem hexDecode_eq (s : String) :
    hexDecode s = if signedPairs s.toList then some (pairValues s.toList) else none := by
  have h := hexDecode_ofList s.toList
  rw [String.ofList_toList] at h
  rw [h, decodePairs_eq]

/-! ## What is accepted -/

theorem signedPairs_iff {cs : List Char} (h : '+' ∉ cs) :
    signedPairs cs ↔ cs.length % 2 = 0 ∧ ∀ c ∈ cs, (toDigit16 c).isSome := by
  induction cs using signedPairs.induct with
  | case1 => exact ⟨fun _ => ⟨rfl, fun c hc => absurd hc List.not_mem_nil⟩, fun _ => rfl⟩
  | case2 c => exact ⟨fun hs => (nomatch hs), fun hs => absurd hs.1 (by simp)⟩
  | case3 a b rest ih =>
    have ha : (a == '+') = false :=
      beq_eq_false_iff_ne.mpr (fun he => h (by simp [he]))
    have hrest := ih (fun hin => h (by simp [hin]))
    have hlen : (a :: b :: rest).length % 2 = rest.length % 2 := by
      simp only [List.length_cons]
      omega
    rw [signedPairs, ha, Bool.false_or, Bool.and_eq_true, Bool.and_eq_true, hrest, hlen,
      List.forall_mem_cons, List.forall_mem_cons]
    tauto

theorem sign_no_digit : toDigit16 '+' = none := by decide

theorem signedPairs_digitChars (bytes : List UInt8) :
    signedPairs (bytes.flatMap fun b => [(b.toNat / 16).digitChar, (b.toNat % 16).digitChar]) ∧
      pairValues (bytes.flatMap fun b => [(b.toNat / 16).digitChar, (b.toNat % 16).digitChar]) =
        bytes := by
  have hdigit : ∀ {n : ℕ}, n < 16 → toDigit16 n.digitChar = some n := by
    intro n hn
    have hall : ∀ n : Fin 16, toDigit16 n.val.digitChar = some n.val := by decide
    exact hall ⟨n, hn⟩
  induction bytes with
  | nil => exact ⟨rfl, rfl⟩
  | cons b bytes ih =>
    have hb := b.toNat_lt
    have hhigh := hdigit (n := b.toNat / 16) (by omega)
    have hlow := hdigit (n := b.toNat % 16) (by omega)
    have hbyte : UInt8.ofNat (b.toNat / 16 * 16 + b.toNat % 16) = b := by
      rw [Nat.div_add_mod', UInt8.ofNat_toNat]
    rw [List.flatMap_cons]
    simp only [List.cons_append, List.nil_append, signedPairs, pairValues, hhigh, hlow,
      Option.isSome_some, Bool.or_true, Bool.true_and, Option.getD_some, hbyte, ih.2]
    exact ⟨ih.1, trivial⟩

/-- A text is read as the hexadecimal it is, but for a sign in front of a single digit. -/
theorem hex_decode_exact (s : String) (bytes : List UInt8) :
    ((∀ out, hexDecode s = some out ↔ Spells s out) ↔
      '+' ∉ s.toList ∨ signedPairs s.toList = false) ∧
      hexDecode (hexEncode bytes) = some bytes := by
  constructor
  · rw [hexDecode_eq]
    constructor
    · intro hall
      by_contra hnot
      push Not at hnot
      obtain ⟨hin, hpairs⟩ := hnot
      have hspells := (hall (pairValues s.toList)).mp (if_pos (by simpa using hpairs))
      have hdigit := hspells.digits '+' hin
      rw [sign_no_digit] at hdigit
      cases hdigit
    · intro hcond out
      by_cases hin : '+' ∈ s.toList
      · have hpairs := hcond.resolve_left (fun hnot => hnot hin)
        rw [if_neg (by rw [hpairs]; exact Bool.false_ne_true)]
        refine ⟨nofun, fun hspells => ?_⟩
        have hdigit := hspells.digits '+' hin
        rw [sign_no_digit] at hdigit
        cases hdigit
      · have hpairs := signedPairs_iff hin
        constructor
        · intro hout
          obtain ⟨hread, hvalues⟩ := Option.ite_none_right_eq_some.mp hout
          exact ⟨(hpairs.mp hread).1, (hpairs.mp hread).2, (Option.some.inj hvalues).symm⟩
        · rintro ⟨heven, hdigits, rfl⟩
          exact if_pos (hpairs.mpr ⟨heven, hdigits⟩)
  · obtain ⟨hpairs, hvalues⟩ := signedPairs_digitChars bytes
    rw [hexDecode_eq, hexEncode, String.toList_ofList, if_pos hpairs, hvalues]

theorem hex_decode_sign :
    hexDecode "+f" = some [15] ∧ ¬∀ s out, hexDecode s = some out ↔ Spells s out := by
  have hrun : hexDecode "+f" = some [15] := by decide +kernel
  refine ⟨hrun, fun hall => ?_⟩
  have hdigit := ((hall _ _).mp hrun).digits '+' (by decide)
  rw [sign_no_digit] at hdigit
  cases hdigit

end XGameRuntime.Ipc
