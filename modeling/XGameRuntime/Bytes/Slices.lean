import Mathlib.Data.List.DropRight
import XGameRuntime.Bytes.Text

/-! # Pieces of strings

Slices by byte offsets, trimming, and numbers in hexadecimal.
-/

namespace XGameRuntime.Bytes
set_option autoImplicit false

/-- What is said of the characters of a list is decided along the list, not over all characters. -/
instance decidableChars (cs : List Char) (p : Char → Prop) [DecidablePred p] :
    Decidable (∀ c ∈ cs, p c) :=
  List.decidableBAll p cs

/-! ## Plain characters -/

theorem utf8Bytes_injective {s t : String} (h : utf8Bytes s = utf8Bytes t) : s = t := by
  have hs := fromUtf8_utf8Bytes s
  rw [h, fromUtf8_utf8Bytes] at hs
  exact (Option.some.inj hs).symm

theorem utf8Bytes_ofList (cs : List Char) :
    utf8Bytes (String.ofList cs) = cs.flatMap String.utf8EncodeChar := by
  rw [utf8Bytes_eq, String.toList_ofList]

theorem utf8EncodeChar_plain {c : Char} (h : c.utf8Size = 1) :
    String.utf8EncodeChar c = [UInt8.ofNat c.toNat] := by
  rw [String.utf8EncodeChar_eq_singleton h]
  rfl

/-- Every byte of a longer character has its high bit set. -/
theorem high_of_mem_utf8EncodeChar {c : Char} (h : c.utf8Size ≠ 1) {b : UInt8}
    (hb : b ∈ String.utf8EncodeChar c) : 128 ≤ b.toNat := by
  have htag : ∀ (b : UInt8) {t : UInt8}, 128 ≤ t.toNat → 128 ≤ (b ||| t).toNat := by
    intro b t ht
    rw [UInt8.toNat_or]
    exact ht.trans Nat.right_le_or
  rcases Char.utf8Size_eq c with hs | hs | hs | hs
  · exact absurd hs h
  · rw [String.utf8EncodeChar_eq_cons_cons hs] at hb
    simp only [List.mem_cons, List.not_mem_nil, or_false] at hb
    obtain rfl | rfl := hb
    · exact htag _ (by decide)
    · exact htag _ (by decide)
  · rw [String.utf8EncodeChar_eq_cons_cons_cons hs] at hb
    simp only [List.mem_cons, List.not_mem_nil, or_false] at hb
    obtain rfl | rfl | rfl := hb
    · exact htag _ (by decide)
    · exact htag _ (by decide)
    · exact htag _ (by decide)
  · rw [String.utf8EncodeChar_eq_cons_cons_cons_cons hs] at hb
    simp only [List.mem_cons, List.not_mem_nil, or_false] at hb
    obtain rfl | rfl | rfl | rfl := hb
    · exact htag _ (by decide)
    · exact htag _ (by decide)
    · exact htag _ (by decide)
    · exact htag _ (by decide)

/-! ## Trimming -/

/-- `str::trim_end_matches`. -/
def trimEndMatches (c : Char) (s : String) : String :=
  String.ofList (s.toList.rdropWhile (· = c))

theorem trimEndMatches_append (c : Char) (s : String) :
    ∃ n, s.toList = (trimEndMatches c s).toList ++ List.replicate n c := by
  refine ⟨(s.toList.rtakeWhile (· = c)).length, ?_⟩
  have hpad : ∀ d ∈ s.toList.rtakeWhile (· = c), d = c := by
    intro d hd
    have hp := List.mem_rtakeWhile_imp hd
    exact of_decide_eq_true hp
  have hsplit := List.rdropWhile_append_rtakeWhile (p := fun d => decide (d = c)) (l := s.toList)
  have htail : s.toList.rtakeWhile (· = c) =
      List.replicate (s.toList.rtakeWhile (· = c)).length c :=
    List.eq_replicate_iff.mpr ⟨rfl, hpad⟩
  rw [trimEndMatches, String.toList_ofList, ← htail, hsplit]

theorem trimEndMatches_pad {c : Char} {cs : List Char} (h : c ∉ cs) (n : ℕ) :
    trimEndMatches c (String.ofList (cs ++ List.replicate n c)) = String.ofList cs := by
  have hself : cs.rdropWhile (· = c) = cs := by
    refine List.rdropWhile_eq_self_iff.mpr ?_
    intro hne hlast
    exact h (of_decide_eq_true hlast ▸ List.getLast_mem hne)
  have hdrop : (cs ++ List.replicate n c).rdropWhile (· = c) = cs := by
    induction n with
    | zero => rw [List.replicate_zero, List.append_nil, hself]
    | succ n ih =>
      rw [List.replicate_succ', ← List.append_assoc, List.rdropWhile_concat,
        if_pos (decide_eq_true rfl), ih]
  rw [trimEndMatches, String.toList_ofList, hdrop]

/-- `char::is_whitespace`. -/
def isWhitespace (c : Char) : Bool :=
  let n := c.toNat
  (9 ≤ n && n ≤ 13) || n == 0x20 || n == 0x85 || n == 0xA0 || n == 0x1680 ||
    (0x2000 ≤ n && n ≤ 0x200A) || n == 0x2028 || n == 0x2029 || n == 0x202F || n == 0x205F ||
    n == 0x3000

/-- `str::trim`. -/
def trim (cs : List Char) : List Char :=
  (cs.dropWhile isWhitespace).rdropWhile isWhitespace

/-! ## Searching -/

/-- `str::find`, with the offset in characters. -/
def find (pat : List Char) : List Char → Option ℕ
  | [] => if pat = [] then some 0 else none
  | c :: cs => if pat.isPrefixOf (c :: cs) then some 0 else (find pat cs).map (· + 1)

/-- No occurrence of `pat` begins within `front`, whatever it reaches into. -/
def Absent (pat front rest : List Char) : Prop :=
  ∀ first second, front = first ++ second → second ≠ [] → ¬pat <+: second ++ rest

section Search
variable {pat front rest : List Char}

theorem find_of_prefix (h : pat <+: rest) : find pat rest = some 0 := by
  cases rest with
  | nil =>
    rw [List.prefix_nil] at h
    rw [find, if_pos h]
  | cons c cs => rw [find, if_pos (List.isPrefixOf_iff_prefix.mpr h)]

theorem find_append (h : Absent pat front rest) :
    find pat (front ++ rest) = (find pat rest).map (· + front.length) := by
  induction front with
  | nil =>
    show find pat rest = (find pat rest).map (· + 0)
    cases find pat rest <;> rfl
  | cons c front ih =>
    have hhere := h [] (c :: front) rfl (List.cons_ne_nil _ _)
    have htail : Absent pat front rest := fun first second hsplit hne =>
      h (c :: first) second (by rw [hsplit]; rfl) hne
    rw [List.cons_append] at hhere ⊢
    rw [find, if_neg (fun hp => hhere (List.isPrefixOf_iff_prefix.mp hp)), ih htail,
      Option.map_map]
    cases find pat rest with
    | none => rfl
    | some n => exact congrArg some (Nat.add_assoc n front.length 1)

theorem find_none (hne : pat ≠ []) (h : Absent pat front []) : find pat front = none := by
  have hfind := find_append h
  rw [List.append_nil] at hfind
  rw [hfind, find, if_neg hne]
  rfl

theorem Absent.suffix {tail : List Char} (h : Absent pat (front ++ tail) rest) :
    Absent pat tail rest := by
  intro first second hsplit hne
  exact h (front ++ first) second (by rw [hsplit, List.append_assoc]) hne

theorem absent_nil : Absent pat [] rest := by
  intro first second hsplit hne
  exact absurd (List.append_eq_nil_iff.mp hsplit.symm).2 hne

theorem Absent.append {middle : List Char} (hfront : Absent pat front (middle ++ rest))
    (hmiddle : Absent pat middle rest) : Absent pat (front ++ middle) rest := by
  intro first second hsplit hne
  obtain ⟨part, hfirst, hpart⟩ | ⟨part, hfront', hsecond⟩ := List.append_eq_append_iff.mp hsplit
  · exact hmiddle part second hpart hne
  · by_cases hnil : part = []
    · rw [hnil, List.nil_append] at hsecond
      rw [hsecond]
      exact hmiddle [] middle rfl (fun hm => hne (by rw [hsecond, hm]))
    · rw [hsecond, List.append_assoc]
      exact hfront first part hfront' hnil

/-- An occurrence begins with the first character of the pattern. -/
theorem absent_of_notMem {c : Char} (h : c ∉ front) : Absent (c :: pat) front rest := by
  intro first second hsplit hne hprefix
  cases second with
  | nil => exact hne rfl
  | cons d second =>
    rw [List.cons_append, List.cons_prefix_cons] at hprefix
    rw [hsplit, hprefix.1] at h
    exact h (List.mem_append_right _ List.mem_cons_self)

/-- An occurrence that reaches past the end has the last character in front of its own. -/
theorem absent_of_last {last : Char} (hlast : last ∉ pat.dropLast) (h : ¬pat <:+: front ++ [last]) :
    Absent pat (front ++ [last]) rest := by
  intro first second hsplit hne hprefix
  by_cases hshort : pat.length ≤ second.length
  · refine h ?_
    have hin : pat <+: second := List.prefix_of_prefix_length_le hprefix (List.prefix_append _ _) hshort
    rw [hsplit]
    exact hin.isInfix.trans (List.suffix_append first second).isInfix
  · have hin : second <+: pat.dropLast := by
      obtain ⟨tail, htail⟩ : second <+: pat :=
        List.prefix_of_prefix_length_le (List.prefix_append _ _) hprefix (by omega)
      have hne' : tail ≠ [] := by
        rintro rfl
        rw [List.append_nil] at htail
        exact hshort (by rw [htail])
      exact ⟨tail.dropLast, by rw [← htail, List.dropLast_append_of_ne_nil hne']⟩
    have hmem : last ∈ second := by
      have hget := congrArg List.getLast? hsplit
      rw [List.getLast?_append_of_ne_nil _ (List.cons_ne_nil _ _), List.getLast?_append_of_ne_nil _ hne] at hget
      exact List.mem_of_getLast? hget.symm
    exact hlast (hin.subset hmem)

end Search

/-! ## Slices by byte offsets -/

/-- The characters from an offset on, where the offset is the start of one or the end. -/
def dropBytes : ℕ → List Char → Option (List Char)
  | 0, cs => some cs
  | _ + 1, [] => none
  | n + 1, c :: cs => if c.utf8Size ≤ n + 1 then dropBytes (n + 1 - c.utf8Size) cs else none

/-- The characters up to an offset. -/
def takeBytes : ℕ → List Char → Option (List Char)
  | 0, _ => some []
  | _ + 1, [] => none
  | n + 1, c :: cs =>
      if c.utf8Size ≤ n + 1 then (takeBytes (n + 1 - c.utf8Size) cs).map (c :: ·) else none

/-- `str::get`. -/
def getSlice (s : String) (start stop : ℕ) : Option String := do
  let rest ← dropBytes start s.toList
  let slice ← takeBytes (stop - start) rest
  some (String.ofList slice)

theorem dropBytes_cons {c : Char} (n : ℕ) (cs : List Char) :
    dropBytes (c.utf8Size + n) (c :: cs) = dropBytes n cs := by
  have hpos := c.utf8Size_pos
  obtain ⟨k, hk⟩ : ∃ k, c.utf8Size + n = k + 1 := ⟨c.utf8Size + n - 1, by omega⟩
  have hdrop : k + 1 - c.utf8Size = n := by omega
  rw [hk, dropBytes, if_pos (by omega), hdrop]

/-! ## Hexadecimal -/

/-- `char::to_digit`, of base 16. -/
def toDigit16 (c : Char) : Option ℕ :=
  if '0' ≤ c ∧ c ≤ '9' then some (c.toNat - '0'.toNat)
  else if 'a' ≤ c ∧ c ≤ 'f' then some (c.toNat - 'a'.toNat + 10)
  else if 'A' ≤ c ∧ c ≤ 'F' then some (c.toNat - 'A'.toNat + 10)
  else none

/-- The value of a row of digits that stays below `limit`. -/
def digits16 (limit : ℕ) (digits : List UInt8) : Option ℕ :=
  digits.foldlM (fun n b => do
    let digit ← toDigit16 (Char.ofNat b.toNat)
    if n * 16 + digit < limit then some (n * 16 + digit) else none) 0

/-- `from_str_radix` of base 16, of an unsigned type with `limit` values: a `+` may precede the
digits. -/
def fromStrRadix16 (limit : ℕ) (src : String) : Option ℕ :=
  match utf8Bytes src with
  | [] => none
  | [b] => if b = 43 ∨ b = 45 then none else digits16 limit [b]
  | b :: rest => if b = 43 then digits16 limit rest else digits16 limit (b :: rest)

theorem toDigit16_bounds {c : Char} {n : ℕ} (h : toDigit16 c = some n) :
    48 ≤ c.toNat ∧ c.toNat ≤ 102 ∧ n < 16 := by
  unfold toDigit16 at h
  have hval : ∀ {d e : Char}, d ≤ e → d.toNat ≤ e.toNat := fun h => h
  split at h
  · rename_i hc
    have hlow := hval hc.1
    have hhigh := hval hc.2
    cases h
    change 48 ≤ c.toNat at hlow
    change c.toNat ≤ 57 at hhigh
    change 48 ≤ c.toNat ∧ c.toNat ≤ 102 ∧ c.toNat - 48 < 16
    omega
  · split at h
    · rename_i hc
      have hlow := hval hc.1
      have hhigh := hval hc.2
      cases h
      change 97 ≤ c.toNat at hlow
      change c.toNat ≤ 102 at hhigh
      change 48 ≤ c.toNat ∧ c.toNat ≤ 102 ∧ c.toNat - 97 + 10 < 16
      omega
    · split at h
      · rename_i hc
        have hlow := hval hc.1
        have hhigh := hval hc.2
        cases h
        change 65 ≤ c.toNat at hlow
        change c.toNat ≤ 70 at hhigh
        change 48 ≤ c.toNat ∧ c.toNat ≤ 102 ∧ c.toNat - 65 + 10 < 16
        omega
      · cases h

theorem utf8Size_eq_one_of_lt {c : Char} (h : c.toNat < 128) : c.utf8Size = 1 := by
  rw [Char.utf8Size_eq_one_iff, UInt32.le_iff_toNat_le]
  exact Nat.le_of_lt_succ h

theorem utf8Size_of_toDigit16 {c : Char} {n : ℕ} (h : toDigit16 c = some n) : c.utf8Size = 1 :=
  utf8Size_eq_one_of_lt (by have hc := toDigit16_bounds h; omega)

theorem ofNat_toNat_plain {c : Char} (h : c.utf8Size = 1) :
    Char.ofNat (UInt8.ofNat c.toNat).toNat = c := by
  have hle : c.toNat ≤ 127 := UInt32.le_iff_toNat_le.mp (Char.utf8Size_eq_one_iff.mp h)
  have hmod : (UInt8.ofNat c.toNat).toNat = c.toNat := by
    rw [UInt8.toNat_ofNat']
    omega
  rw [hmod, Char.ofNat_toNat]

/-- A byte of a longer character is no digit. -/
theorem toDigit16_high {b : UInt8} (h : 128 ≤ b.toNat) : toDigit16 (Char.ofNat b.toNat) = none := by
  have hb := b.toNat_lt
  have hvalid : (Char.ofNat b.toNat).toNat = b.toNat := by
    have hv : b.toNat.isValidChar := .inl (by omega)
    rw [Char.ofNat, dif_pos hv]
    rfl
  cases hd : toDigit16 (Char.ofNat b.toNat) with
  | none => rfl
  | some n =>
    have hbounds := toDigit16_bounds hd
    omega

theorem digits16_high {limit : ℕ} {digits : List UInt8} {b : UInt8} (hb : b ∈ digits)
    (h : 128 ≤ b.toNat) : digits16 limit digits = none := by
  unfold digits16
  generalize 0 = n
  induction digits generalizing n with
  | nil => exact absurd hb List.not_mem_nil
  | cons d digits ih =>
    rw [List.foldlM_cons]
    obtain rfl | hb := List.mem_cons.mp hb
    · rw [toDigit16_high h]
      rfl
    · cases toDigit16 (Char.ofNat d.toNat) with
      | none => rfl
      | some v =>
        simp only [Option.bind_eq_bind, Option.bind_some]
        split
        · exact ih hb _
        · rfl

theorem fromStrRadix16_high {limit : ℕ} {src : String} {b : UInt8} (hb : b ∈ utf8Bytes src)
    (h : 128 ≤ b.toNat) : fromStrRadix16 limit src = none := by
  unfold fromStrRadix16
  split
  · rfl
  · rename_i heq
    rw [heq] at hb
    split
    · rfl
    · exact digits16_high hb h
  · rename_i d rest hrest heq
    rw [heq] at hb
    split
    · rename_i hd
      obtain rfl | hb := List.mem_cons.mp hb
      · rw [hd] at h
        exact absurd h (by decide)
      · exact digits16_high hb h
    · exact digits16_high hb h

theorem fromStrRadix16_long {limit : ℕ} {cs : List Char} {c : Char} (hc : c ∈ cs)
    (h : c.utf8Size ≠ 1) : fromStrRadix16 limit (String.ofList cs) = none := by
  obtain ⟨b, hb⟩ := List.exists_mem_of_ne_nil _ (String.utf8EncodeChar_ne_nil (c := c))
  refine fromStrRadix16_high (b := b) ?_ (high_of_mem_utf8EncodeChar h hb)
  rw [utf8Bytes_ofList]
  exact List.mem_flatMap.mpr ⟨c, hc, hb⟩

theorem digit_of_byte {c : Char} (h : c.utf8Size = 1) :
    toDigit16 (Char.ofNat (UInt8.ofNat c.toNat).toNat) = toDigit16 c := by
  rw [ofNat_toNat_plain h]

theorem sign_iff {c : Char} (h : c.utf8Size = 1) : UInt8.ofNat c.toNat = 43 ↔ c = '+' := by
  constructor
  · intro hb
    have hc := ofNat_toNat_plain h
    rw [hb] at hc
    exact hc.symm
  · rintro rfl
    rfl

/-- A row of plain characters, with room for as many digits. -/
theorem digits16_plain {limit n : ℕ} {cs : List Char} (hplain : ∀ c ∈ cs, c.utf8Size = 1)
    (hroom : (n + 1) * 16 ^ cs.length ≤ limit) :
    (cs.flatMap String.utf8EncodeChar).foldlM (fun n b => do
      let digit ← toDigit16 (Char.ofNat b.toNat)
      if n * 16 + digit < limit then some (n * 16 + digit) else none) n =
      if ∀ c ∈ cs, (toDigit16 c).isSome then
        some (cs.foldl (fun n c => n * 16 + (toDigit16 c).getD 0) n)
      else none := by
  induction cs generalizing n with
  | nil =>
    rw [if_pos nofun]
    rfl
  | cons c cs ih =>
    obtain ⟨hc, hcs⟩ := List.forall_mem_cons.mp hplain
    rw [List.flatMap_cons, utf8EncodeChar_plain hc, List.singleton_append, List.foldlM_cons,
      digit_of_byte hc]
    cases hd : toDigit16 c with
    | none =>
      rw [if_neg (fun hall => ?_)]
      · rfl
      · have hsome := hall c List.mem_cons_self
        rw [hd] at hsome
        cases hsome
    | some d =>
      have hdlt := (toDigit16_bounds hd).2.2
      have hpow : (n + 1) * 16 ^ (c :: cs).length = (n + 1) * 16 * 16 ^ cs.length := by
        rw [List.length_cons, Nat.pow_succ, Nat.mul_assoc, Nat.mul_comm 16]
      have hle : (n * 16 + d + 1) * 16 ^ cs.length ≤ limit := by
        rw [hpow] at hroom
        exact (Nat.mul_le_mul_right _ (by omega)).trans hroom
      have hlt : n * 16 + d < limit := by
        have hone : n * 16 + d + 1 ≤ (n * 16 + d + 1) * 16 ^ cs.length :=
          Nat.le_mul_of_pos_right _ (Nat.pow_pos (by decide))
        omega
      have hrest := ih hcs hle
      have hall : (∀ x ∈ c :: cs, (toDigit16 x).isSome) ↔ ∀ x ∈ cs, (toDigit16 x).isSome := by
        rw [List.forall_mem_cons, hd]
        exact and_iff_right rfl
      simp only [Option.bind_eq_bind, Option.bind_some, if_pos hlt, hall, List.foldl_cons, hd,
        Option.getD_some]
      exact hrest

end XGameRuntime.Bytes
