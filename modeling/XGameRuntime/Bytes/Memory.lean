import XGameRuntime.Bytes.Stream

/-! # Bytes in memory

What is read at an address after writes at others.
-/

namespace XGameRuntime.Bytes
set_option autoImplicit false

/-- A byte for each address. -/
@[ext] structure Memory where
  byte : ℕ → UInt8

namespace Memory
variable (m : Memory) (p q n k : ℕ) (bytes more : List UInt8)

def write : Memory :=
  ⟨fun a => if a < p then m.byte a else (bytes[a - p]?).getD (m.byte a)⟩

/-- `n` bytes from `p` on. -/
def read : List UInt8 :=
  (List.range n).map fun i => m.byte (p + i)

@[simp] theorem length_read : (m.read p n).length = n := by
  rw [read, List.length_map, List.length_range]

/-- A write changes its own range. -/
theorem write_outside {a : ℕ} (h : a < p ∨ p + bytes.length ≤ a) :
    (m.write p bytes).byte a = m.byte a := by
  by_cases ha : a < p
  · exact if_pos ha
  · have hnone : bytes[a - p]? = none := List.getElem?_eq_none (by omega)
    show (if a < p then m.byte a else (bytes[a - p]?).getD (m.byte a)) = m.byte a
    rw [if_neg ha, hnone]
    rfl

theorem write_inside {i : ℕ} (h : i < bytes.length) :
    (m.write p bytes).byte (p + i) = bytes[i] := by
  have hi : bytes[p + i - p]? = some bytes[i] := by
    rw [Nat.add_sub_cancel_left, List.getElem?_eq_getElem h]
  show (if p + i < p then m.byte (p + i) else (bytes[p + i - p]?).getD _) = bytes[i]
  rw [if_neg (by omega), hi]
  rfl

/-- One write in two. -/
theorem write_append :
    m.write p (bytes ++ more) = (m.write p bytes).write (p + bytes.length) more := by
  ext a
  by_cases hfirst : a < p + bytes.length
  · rw [write_outside _ _ _ (.inl hfirst)]
    by_cases ha : a < p
    · rw [write_outside _ _ _ (.inl ha), write_outside _ _ _ (.inl ha)]
    · obtain ⟨i, rfl⟩ := Nat.exists_eq_add_of_le (Nat.le_of_not_lt ha)
      have hi : i < bytes.length := by omega
      rw [write_inside _ _ _ hi, write_inside _ _ _ (by rw [List.length_append]; omega),
        List.getElem_append_left hi]
  · by_cases hsecond : a < p + bytes.length + more.length
    · obtain ⟨i, rfl⟩ := Nat.exists_eq_add_of_le (Nat.le_of_not_lt hfirst)
      have hi : i < more.length := by omega
      have hlt : bytes.length + i < (bytes ++ more).length := by
        rw [List.length_append]
        omega
      have hright := write_inside m p (bytes ++ more) hlt
      rw [← Nat.add_assoc] at hright
      rw [write_inside _ _ _ hi, hright, List.getElem_append_right (Nat.le_add_right _ _)]
      simp only [Nat.add_sub_cancel_left]
    · rw [write_outside _ _ _ (.inr (by rw [List.length_append]; omega)),
        write_outside _ _ _ (.inr (by omega)), write_outside _ _ _ (.inr (by omega))]

theorem read_write : (m.write p bytes).read p bytes.length = bytes := by
  refine List.ext_getElem (length_read _ _ _) fun i hi hi' => ?_
  rw [← write_inside m p bytes hi']
  simp only [read, List.getElem_map, List.getElem_range]

theorem read_write_disjoint (h : p + bytes.length ≤ q ∨ q + n ≤ p) :
    (m.write p bytes).read q n = m.read q n := by
  refine List.map_congr_left fun i hi => ?_
  have hlt := List.mem_range.mp hi
  exact write_outside _ _ _ (by omega)

/-! ## Machine words -/

/-- A `usize` or a pointer. -/
def writeWord (v : ℕ) : Memory :=
  m.write p (leBytes 8 v)

def readWord : ℕ :=
  fromLeBytes (m.read p 8)

theorem readWord_writeWord {v : ℕ} (h : v < 2 ^ 64) : (m.writeWord p v).readWord p = v := by
  have hread := read_write m p (leBytes 8 v)
  rw [length_leBytes] at hread
  rw [readWord, writeWord, hread, fromLeBytes_leBytes]
  exact Nat.mod_eq_of_lt h

theorem readWord_writeWord_disjoint (v : ℕ) (h : p + 8 ≤ q ∨ q + 8 ≤ p) :
    (m.writeWord p v).readWord q = m.readWord q := by
  rw [readWord, writeWord, read_write_disjoint _ _ _ _ _ (by rw [length_leBytes]; exact h)]
  rfl

theorem writeWord_outside (v : ℕ) {a : ℕ} (h : a < p ∨ p + 8 ≤ a) :
    (m.writeWord p v).byte a = m.byte a :=
  write_outside _ _ _ (by rw [length_leBytes]; exact h)

end Memory

end XGameRuntime.Bytes
