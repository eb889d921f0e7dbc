import Mathlib.Data.Nat.Notation
import Mathlib.Algebra.GroupWithZero.Nat

/-! # Bytes over a stream

Numbers in little-endian order, and a socket as its reader and its writer see it: what the other
side sends comes in pieces of any size, between signals and failures.
-/

namespace XGameRuntime.Bytes
set_option autoImplicit false

/-! ## Little-endian numbers -/

/-- The `k` low bytes of a number. -/
def leBytes : ℕ → ℕ → List UInt8
  | 0, _ => []
  | k + 1, n => UInt8.ofNat n :: leBytes k (n / 256)

def fromLeBytes : List UInt8 → ℕ
  | [] => 0
  | b :: bytes => b.toNat + 256 * fromLeBytes bytes

@[simp] theorem length_leBytes (k n : ℕ) : (leBytes k n).length = k := by
  induction k generalizing n with
  | zero => rfl
  | succ k ih => rw [leBytes, List.length_cons, ih]

theorem fromLeBytes_leBytes (k n : ℕ) : fromLeBytes (leBytes k n) = n % 256 ^ k := by
  induction k generalizing n with
  | zero => rw [Nat.pow_zero, Nat.mod_one]; rfl
  | succ k ih =>
    have hbyte : (UInt8.ofNat n).toNat = n % 256 := rfl
    rw [leBytes, fromLeBytes, ih, hbyte, Nat.pow_succ, Nat.mul_comm (256 ^ k), Nat.mod_mul]

theorem fromLeBytes_lt (bytes : List UInt8) : fromLeBytes bytes < 256 ^ bytes.length := by
  induction bytes with
  | nil => exact Nat.one_pos
  | cons b bytes ih =>
    have hb := b.toNat_lt
    rw [fromLeBytes, List.length_cons, Nat.pow_succ]
    omega

/-! ## Reading -/

/-- What a `recv` runs into: a piece of what the other side has sent, a signal, the end of the
time it may take, or a connection that is lost. After the last arrival the stream is closed. -/
inductive Arrival where
  | piece (bytes : List UInt8)
  | interrupted
  | timeout
  | lost
  deriving DecidableEq, Repr

inductive StreamError where
  | closed
  | timeout
  | lost
  deriving DecidableEq, Repr

/-- `read_exact`, and what is still to come after it. Each `recv` asks for what is missing. -/
def readExact : ℕ → List Arrival → Except StreamError (List UInt8) × List Arrival
  | 0, arrivals => (.ok [], arrivals)
  | _ + 1, [] => (.error .closed, [])
  | n + 1, .interrupted :: arrivals => readExact (n + 1) arrivals
  | _ + 1, .timeout :: arrivals => (.error .timeout, arrivals)
  | _ + 1, .lost :: arrivals => (.error .lost, arrivals)
  | n + 1, .piece bytes :: arrivals =>
      if bytes.length ≤ n + 1 then
        let rest := readExact (n + 1 - bytes.length) arrivals
        (rest.1.map (bytes ++ ·), rest.2)
      else (.ok (bytes.take (n + 1)), .piece (bytes.drop (n + 1)) :: arrivals)

@[simp] theorem readExact_zero (arrivals : List Arrival) :
    readExact 0 arrivals = (.ok [], arrivals) := by
  cases arrivals <;> rfl

theorem readExact_length {n : ℕ} {arrivals : List Arrival} {bytes : List UInt8}
    (h : (readExact n arrivals).1 = .ok bytes) : bytes.length = n := by
  induction arrivals generalizing n bytes with
  | nil =>
    cases n with
    | zero => cases h; rfl
    | succ n => cases h
  | cons arrival arrivals ih =>
    cases n with
    | zero => cases h; rfl
    | succ n =>
      cases arrival with
      | interrupted => exact ih h
      | timeout => cases h
      | lost => cases h
      | piece piece =>
        rw [readExact] at h
        split at h
        · rename_i hle
          dsimp only at h
          cases hrest : (readExact (n + 1 - piece.length) arrivals).1 with
          | error e => rw [hrest] at h; cases h
          | ok rest =>
            rw [hrest] at h
            cases h
            rw [List.length_append, ih hrest]
            omega
        · rename_i hgt
          cases h
          rw [List.length_take]
          omega

/-- A piece that is longer than the first of two reads. -/
theorem readExact_split {m n : ℕ} {piece : List UInt8} (h : m + 1 < piece.length)
    (arrivals : List Arrival) :
    readExact (m + n + 1) (.piece piece :: arrivals) =
      match readExact (m + 1) (.piece piece :: arrivals) with
      | (.error e, rest) => (.error e, rest)
      | (.ok first, rest) =>
          ((readExact n rest).1.map (first ++ ·), (readExact n rest).2) := by
  have hfirst : readExact (m + 1) (.piece piece :: arrivals) =
      (.ok (piece.take (m + 1)), .piece (piece.drop (m + 1)) :: arrivals) := by
    rw [readExact, if_neg (by omega)]
  rw [hfirst]
  dsimp only
  cases n with
  | zero =>
    rw [Nat.add_zero, hfirst, readExact_zero]
    simp only [Except.map, List.append_nil]
  | succ n =>
    have hdrop : (piece.drop (m + 1)).length = piece.length - (m + 1) := List.length_drop
    by_cases hle : piece.length ≤ m + (n + 1) + 1
    · have hsum : m + (n + 1) + 1 - piece.length = n + 1 - (piece.length - (m + 1)) := by omega
      rw [readExact, if_pos hle, readExact, if_pos (by omega), hdrop, hsum]
      rcases readExact (n + 1 - (piece.length - (m + 1))) arrivals with ⟨e | rest, left⟩
      · rfl
      · simp only [Except.map]
        rw [← List.append_assoc, List.take_append_drop]
    · have htake : m + (n + 1) + 1 = (m + 1) + (n + 1) := by omega
      rw [readExact, if_neg hle, readExact, if_neg (by omega), htake, List.take_add, List.drop_drop]
      rfl

/-- One read in two: it is cut short where the first or the second is. -/
theorem readExact_add (m n : ℕ) (arrivals : List Arrival) :
    readExact (m + n) arrivals =
      match readExact m arrivals with
      | (.error e, rest) => (.error e, rest)
      | (.ok first, rest) =>
          ((readExact n rest).1.map (first ++ ·), (readExact n rest).2) := by
  have hnothing : ∀ (r : Except StreamError (List UInt8) × List Arrival),
      r = (r.1.map (([] : List UInt8) ++ ·), r.2) := by
    rintro ⟨r | r, rest⟩ <;> rfl
  induction arrivals generalizing m with
  | nil =>
    cases m with
    | zero =>
      rw [Nat.zero_add, readExact_zero]
      exact hnothing _
    | succ m =>
      rw [Nat.succ_add]
      rfl
  | cons arrival arrivals ih =>
    cases m with
    | zero =>
      rw [Nat.zero_add, readExact_zero]
      exact hnothing _
    | succ m =>
      rw [Nat.succ_add]
      cases arrival with
      | interrupted =>
        rw [readExact, readExact]
        have hih := ih (m + 1)
        rwa [Nat.succ_add] at hih
      | timeout => rfl
      | lost => rfl
      | piece piece =>
        by_cases hle : piece.length ≤ m + 1
        · have hsum : m + n + 1 - piece.length = (m + 1 - piece.length) + n := by omega
          rw [readExact, if_pos (by omega), readExact, if_pos hle, hsum, ih]
          rcases readExact (m + 1 - piece.length) arrivals with ⟨e | first, rest⟩
          · rfl
          · simp only [Except.map, List.append_assoc]
            cases (readExact n rest).1 <;> rfl
        · exact readExact_split (by omega) arrivals

/-- What comes after a whole read is left for the next. -/
theorem readExact_append {n : ℕ} {arrivals rest : List Arrival} {bytes : List UInt8}
    (h : readExact n arrivals = (.ok bytes, rest)) (more : List Arrival) :
    readExact n (arrivals ++ more) = (.ok bytes, rest ++ more) := by
  induction arrivals generalizing n bytes with
  | nil =>
    cases n with
    | zero =>
      cases h
      exact readExact_zero more
    | succ n => cases h
  | cons arrival arrivals ih =>
    cases n with
    | zero =>
      cases h
      exact readExact_zero _
    | succ n =>
      rw [List.cons_append]
      cases arrival with
      | interrupted => exact ih h
      | timeout => cases h
      | lost => cases h
      | piece piece =>
        rw [readExact] at h ⊢
        split at h
        · rename_i hle
          rw [if_pos hle]
          dsimp only at h ⊢
          rcases hread : readExact (n + 1 - piece.length) arrivals with ⟨e | first, left⟩
          · rw [hread] at h
            cases h
          · rw [hread] at h
            cases h
            rw [ih hread]
            rfl
        · rename_i hgt
          rw [if_neg hgt]
          cases h
          rfl

/-! ## Writing -/

/-- What a `send` comes to; after the last one everything is taken. -/
inductive Departure where
  | taken (n : ℕ)
  | interrupted
  | timeout
  | lost
  deriving DecidableEq, Repr

/-- `write_all`, with what has gone out. -/
def writeAll : List UInt8 → List Departure → Except StreamError Unit × List UInt8
  | [], _ => (.ok (), [])
  | bytes, [] => (.ok (), bytes)
  | bytes, .interrupted :: departures => writeAll bytes departures
  | _, .timeout :: _ => (.error .timeout, [])
  | _, .lost :: _ => (.error .lost, [])
  | bytes, .taken n :: departures =>
      let rest := writeAll (bytes.drop (n + 1)) departures
      (rest.1, bytes.take (n + 1) ++ rest.2)

theorem writeAll_front (bytes : List UInt8) (departures : List Departure) :
    (writeAll bytes departures).2 <+: bytes := by
  induction departures generalizing bytes with
  | nil => cases bytes <;> exact List.prefix_rfl
  | cons departure departures ih =>
    cases bytes with
    | nil => exact List.prefix_rfl
    | cons b bytes =>
      cases departure with
      | interrupted => exact ih _
      | timeout => exact List.nil_prefix
      | lost => exact List.nil_prefix
      | taken n =>
        rw [writeAll]
        have hrest := ih ((b :: bytes).drop (n + 1))
        obtain ⟨t, ht⟩ := hrest
        refine ⟨t, ?_⟩
        dsimp only
        rw [List.append_assoc, ht, List.take_append_drop]
        exact List.cons_ne_nil _ _

end XGameRuntime.Bytes
