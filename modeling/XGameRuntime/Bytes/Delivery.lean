import Mathlib.Data.List.Basic
import XGameRuntime.Bytes.Stream

/-! # What a stream delivers and takes

However the bytes are cut into pieces, a reader sees the same bytes up to the first failure, and a
writer whose writes all succeed has put all of its bytes on the wire.
-/

namespace XGameRuntime.Bytes
set_option autoImplicit false

/-- The bytes that come before the first failure. -/
def delivered : List Arrival → List UInt8
  | [] => []
  | .piece bytes :: arrivals => bytes ++ delivered arrivals
  | .interrupted :: arrivals => delivered arrivals
  | .timeout :: _ | .lost :: _ => []

/-- A read gets the next bytes when there are enough, and leaves the others. -/
theorem readExact_delivered {n : ℕ} {arrivals : List Arrival} (h : n ≤ (delivered arrivals).length) :
    (readExact n arrivals).1 = .ok ((delivered arrivals).take n) ∧
      delivered (readExact n arrivals).2 = (delivered arrivals).drop n := by
  induction arrivals generalizing n with
  | nil =>
    obtain rfl := Nat.le_zero.mp h
    exact ⟨rfl, rfl⟩
  | cons arrival arrivals ih =>
    cases n with
    | zero => exact ⟨rfl, rfl⟩
    | succ n =>
      cases arrival with
      | interrupted => exact ih h
      | timeout | lost => cases h
      | piece bytes =>
        rw [delivered, List.length_append] at h
        rw [readExact, delivered]
        split
        · rename_i hle
          obtain ⟨hread, hrest⟩ := ih (n := n + 1 - bytes.length) (by omega)
          dsimp only
          rw [hread, hrest, List.take_append, List.drop_append, List.take_of_length_le hle,
            List.drop_of_length_le hle]
          exact ⟨rfl, rfl⟩
        · rename_i hgt
          have hle : n + 1 ≤ bytes.length := by omega
          rw [delivered, List.take_append_of_le_length hle, List.drop_append_of_le_length hle]
          exact ⟨rfl, rfl⟩

/-- A read fails when there are not enough. -/
theorem readExact_short {n : ℕ} {arrivals : List Arrival} (h : (delivered arrivals).length < n) :
    ∃ e, (readExact n arrivals).1 = .error e := by
  induction arrivals generalizing n with
  | nil =>
    obtain ⟨k, rfl⟩ := Nat.exists_eq_add_of_lt h
    exact ⟨.closed, rfl⟩
  | cons arrival arrivals ih =>
    cases n with
    | zero => exact absurd h (Nat.not_lt_zero _)
    | succ n =>
      cases arrival with
      | interrupted => exact ih h
      | timeout => exact ⟨.timeout, rfl⟩
      | lost => exact ⟨.lost, rfl⟩
      | piece bytes =>
        rw [delivered, List.length_append] at h
        rw [readExact, if_pos (by omega)]
        obtain ⟨e, he⟩ := ih (n := n + 1 - bytes.length) (by omega)
        refine ⟨e, ?_⟩
        dsimp only
        rw [he]
        rfl

theorem readExact_ok {n : ℕ} {arrivals rest : List Arrival} {bytes : List UInt8}
    (h : readExact n arrivals = (.ok bytes, rest)) :
    bytes.length = n ∧ delivered arrivals = bytes ++ delivered rest := by
  have hlen : bytes.length = n := readExact_length (congrArg Prod.fst h)
  rcases Nat.lt_or_ge (delivered arrivals).length n with hshort | henough
  · obtain ⟨e, he⟩ := readExact_short hshort
    rw [h] at he
    cases he
  · obtain ⟨hread, hrest⟩ := readExact_delivered henough
    rw [h] at hread hrest
    cases hread
    refine ⟨hlen, ?_⟩
    rw [hrest, List.take_append_drop]

theorem readExact_first {arrivals : List Arrival} {bytes tail : List UInt8}
    (h : delivered arrivals = bytes ++ tail) :
    ∃ rest, readExact bytes.length arrivals = (.ok bytes, rest) ∧ delivered rest = tail := by
  have henough : bytes.length ≤ (delivered arrivals).length := by
    rw [h, List.length_append]
    exact Nat.le_add_right _ _
  obtain ⟨hread, hrest⟩ := readExact_delivered henough
  rw [h, List.take_left] at hread
  rw [h, List.drop_left] at hrest
  exact ⟨_, Prod.ext hread rfl, hrest⟩

/-- What is left of the departures after a write. -/
def afterWrite : List UInt8 → List Departure → List Departure
  | [], departures => departures
  | _, [] => []
  | bytes, .interrupted :: departures => afterWrite bytes departures
  | _, .timeout :: departures | _, .lost :: departures => departures
  | bytes, .taken n :: departures => afterWrite (bytes.drop (n + 1)) departures

theorem writeAll_all {bytes : List UInt8} {departures : List Departure} {u : Unit}
    (h : (writeAll bytes departures).1 = .ok u) : (writeAll bytes departures).2 = bytes := by
  induction departures generalizing bytes with
  | nil => cases bytes <;> rfl
  | cons departure departures ih =>
    cases bytes with
    | nil => rfl
    | cons b bytes =>
      cases departure with
      | interrupted => exact ih h
      | timeout | lost => cases h
      | taken n =>
        rw [writeAll] at h ⊢
        · dsimp only at h ⊢
          rw [ih h, List.take_append_drop]
        · exact List.cons_ne_nil _ _
        · exact List.cons_ne_nil _ _

/-- The network takes some writes, one after the other. -/
def Takes : List (List UInt8) → List Departure → Prop
  | [], _ => True
  | bytes :: more, departures =>
      (writeAll bytes departures).1 = .ok () ∧ Takes more (afterWrite bytes departures)

end XGameRuntime.Bytes
