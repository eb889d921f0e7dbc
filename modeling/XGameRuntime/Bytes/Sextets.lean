import Mathlib.Data.List.Basic
import Mathlib.Data.Nat.Notation

/-! # Octets in groups of six bits

Three octets are four sextets. A sequence that ends within a group of three leaves low bits of its
last sextet unused.
-/

namespace XGameRuntime.Bytes
set_option autoImplicit false

/-! ## Chunks -/

section Chunks
variable {α : Type}

/-- `slice::chunks`: pieces of length `n`, the last of them possibly shorter. -/
def chunks (n : ℕ) (xs : List α) : List (List α) :=
  go xs.length xs
where
  /-- There are no more chunks than elements. -/
  go : ℕ → List α → List (List α)
    | 0, _ => []
    | _ + 1, [] => []
    | k + 1, x :: xs => (x :: xs).take n :: go k ((x :: xs).drop n)

theorem chunks_go {n k : ℕ} (hn : 0 < n) {xs : List α} (hk : xs.length ≤ k) :
    chunks.go n k xs = chunks n xs := by
  suffices h : ∀ k l (xs : List α), xs.length ≤ k → xs.length ≤ l →
      chunks.go n k xs = chunks.go n l xs from h k xs.length xs hk (Nat.le_refl _)
  intro k
  induction k with
  | zero =>
    intro l xs hk _
    rw [List.eq_nil_of_length_eq_zero (Nat.le_zero.mp hk)]
    cases l <;> rfl
  | succ k ih =>
    intro l xs hk hl
    cases xs with
    | nil => cases l <;> rfl
    | cons x xs =>
      cases l with
      | zero => exact absurd hl (Nat.not_succ_le_zero _)
      | succ l =>
        have hdrop : ((x :: xs).drop n).length = xs.length + 1 - n := List.length_drop
        rw [List.length_cons] at hk hl
        rw [chunks.go, chunks.go, ih l _ (by omega) (by omega)]

theorem chunks_append {n : ℕ} (hn : 0 < n) {chunk : List α} (h : chunk.length = n)
    (rest : List α) : chunks n (chunk ++ rest) = chunk :: chunks n rest := by
  have hlen : (chunk ++ rest).length = n + rest.length := by rw [List.length_append, h]
  cases hchunk : chunk ++ rest with
  | nil =>
    rw [hchunk, List.length_nil] at hlen
    omega
  | cons x xs =>
    have htake : (x :: xs).take n = chunk := by rw [← hchunk, List.take_left' h]
    have hdrop : (x :: xs).drop n = rest := by rw [← hchunk, List.drop_left' h]
    rw [hchunk, List.length_cons] at hlen
    rw [chunks, List.length_cons, chunks.go, htake, hdrop, chunks_go hn (by omega)]

theorem chunks_short {n : ℕ} {xs : List α} (h : xs ≠ []) (hn : xs.length ≤ n) :
    chunks n xs = [xs] := by
  cases xs with
  | nil => exact absurd rfl h
  | cons x xs =>
    rw [chunks, List.length_cons, chunks.go, List.take_of_length_le hn, List.drop_of_length_le hn]
    cases xs.length <;> rfl

end Chunks

/-! ## Sextets -/

/-- What a sequence of octets is in groups of six bits, filled up with zero bits. -/
def sextets : List UInt8 → List ℕ
  | [] => []
  | [a] => [a.toNat / 4, a.toNat % 4 * 16]
  | [a, b] => [a.toNat / 4, a.toNat % 4 * 16 + b.toNat / 16, b.toNat % 16 * 4]
  | a :: b :: c :: rest =>
      a.toNat / 4 :: (a.toNat % 4 * 16 + b.toNat / 16) :: (b.toNat % 16 * 4 + c.toNat / 64) ::
        c.toNat % 64 :: sextets rest

/-- The whole octets in a sequence of sextets. A single sextet has none. -/
def octets : List ℕ → Option (List UInt8)
  | [] => some []
  | [_] => none
  | [v, w] => some [UInt8.ofNat (v * 4 + w / 16)]
  | [v, w, x] => some [UInt8.ofNat (v * 4 + w / 16), UInt8.ofNat (w * 16 + x / 4)]
  | v :: w :: x :: y :: rest =>
      (octets rest).map ([UInt8.ofNat (v * 4 + w / 16), UInt8.ofNat (w * 16 + x / 4),
        UInt8.ofNat (x * 64 + y)] ++ ·)

/-- The low bits of the last sextet that are in no octet. -/
def spareBits : List ℕ → ℕ
  | [_, w] => w % 16
  | [_, _, x] => x % 4
  | _ :: _ :: _ :: _ :: rest => spareBits rest
  | _ => 0

/-- How many sextets are missing in the last group of four. -/
def missing (n : ℕ) : ℕ := (4 - n % 4) % 4

theorem sextets_lt {bytes : List UInt8} {v : ℕ} (h : v ∈ sextets bytes) : v < 64 := by
  induction bytes using sextets.induct with
  | case1 => exact absurd h List.not_mem_nil
  | case2 a =>
    have ha := a.toNat_lt
    simp only [sextets, List.mem_cons, List.not_mem_nil, or_false] at h
    omega
  | case3 a b =>
    have ha := a.toNat_lt
    have hb := b.toNat_lt
    simp only [sextets, List.mem_cons, List.not_mem_nil, or_false] at h
    omega
  | case4 a b c rest ih =>
    have ha := a.toNat_lt
    have hb := b.toNat_lt
    have hc := c.toNat_lt
    rw [sextets, List.mem_cons, List.mem_cons, List.mem_cons, List.mem_cons] at h
    obtain h | h | h | h | h := h
    · omega
    · omega
    · omega
    · omega
    · exact ih h

theorem length_sextets (bytes : List UInt8) :
    (sextets bytes).length + missing (sextets bytes).length = 4 * ((bytes.length + 2) / 3) ∧
      missing (sextets bytes).length ≤ 2 := by
  induction bytes using sextets.induct with
  | case1 => decide
  | case2 a => simp [sextets, missing]
  | case3 a b => simp [sextets, missing]
  | case4 a b c rest ih =>
    obtain ⟨hlen, hle⟩ := ih
    have hmod : missing (sextets (a :: b :: c :: rest)).length = missing (sextets rest).length := by
      unfold missing
      simp only [sextets, List.length_cons]
      omega
    rw [hmod]
    simp only [sextets, List.length_cons]
    exact ⟨by omega, hle⟩

theorem ofNat_octet {a : UInt8} {n : ℕ} (h : n % 256 = a.toNat) : UInt8.ofNat n = a := by
  rw [← UInt8.toNat_inj, UInt8.toNat_ofNat', h]

theorem octets_sextets (bytes : List UInt8) : octets (sextets bytes) = some bytes := by
  induction bytes using sextets.induct with
  | case1 => rfl
  | case2 a =>
    have ha := a.toNat_lt
    rw [sextets, octets, ofNat_octet (a := a) (by omega)]
  | case3 a b =>
    have ha := a.toNat_lt
    have hb := b.toNat_lt
    rw [sextets, octets, ofNat_octet (a := a) (by omega), ofNat_octet (a := b) (by omega)]
  | case4 a b c rest ih =>
    have ha := a.toNat_lt
    have hb := b.toNat_lt
    have hc := c.toNat_lt
    rw [sextets, octets, ofNat_octet (a := a) (by omega), ofNat_octet (a := b) (by omega),
      ofNat_octet (a := c) (by omega), ih]
    rfl

theorem octets_eq_none {values : List ℕ} : octets values = none ↔ values.length % 4 = 1 := by
  induction values using octets.induct with
  | case1 => decide
  | case2 => exact ⟨fun _ => rfl, fun _ => rfl⟩
  | case3 => exact ⟨nofun, nofun⟩
  | case4 => exact ⟨nofun, nofun⟩
  | case5 v w x y rest ih =>
    rw [octets, Option.map_eq_none_iff, ih]
    simp only [List.length_cons]
    omega

theorem toNat_octet {n : ℕ} : (UInt8.ofNat n).toNat = n % 256 := UInt8.toNat_ofNat'

/-- The octets have their sextets back where no bit is spare. -/
theorem sextets_octets {values : List ℕ} {bytes : List UInt8} (hlt : ∀ v ∈ values, v < 64)
    (h : octets values = some bytes) : sextets bytes = values ↔ spareBits values = 0 := by
  induction values using octets.induct generalizing bytes with
  | case1 => cases h; exact ⟨fun _ => rfl, fun _ => rfl⟩
  | case2 => cases h
  | case3 v w =>
    cases h
    have hv := hlt v (by simp)
    have hw := hlt w (by simp)
    simp only [sextets, spareBits, toNat_octet, List.cons.injEq, and_true]
    omega
  | case4 v w x =>
    cases h
    have hv := hlt v (by simp)
    have hw := hlt w (by simp)
    have hx := hlt x (by simp)
    simp only [sextets, spareBits, toNat_octet, List.cons.injEq, and_true]
    omega
  | case5 v w x y rest ih =>
    rw [octets, Option.map_eq_some_iff] at h
    obtain ⟨tail, htail, rfl⟩ := h
    have hv := hlt v (by simp)
    have hw := hlt w (by simp)
    have hx := hlt x (by simp)
    have hy := hlt y (by simp)
    have hrest := ih (fun u hu => hlt u (by simp [hu])) htail
    simp only [List.cons_append, List.nil_append, sextets, spareBits, toNat_octet,
      List.cons.injEq, hrest]
    omega

end XGameRuntime.Bytes
