import Mathlib.Algebra.GroupWithZero.Nat
import Mathlib.Algebra.BigOperators.Group.List.Basic
import Mathlib.Algebra.BigOperators.Group.Multiset.Basic
import Mathlib.Logic.Function.Basic

/-! # Lists as arenas

Objects that are never moved live in a list and are named by their index. What a sum over the
arena does when one object is replaced, and what a lookup sees after a write.
-/

namespace XGameRuntime.Concurrency
set_option autoImplicit false

variable {α M : Type}

theorem sum_map_at [AddCommMonoid M] (w : α → M) {l : List α} {i : ℕ} {a : α}
    (h : l[i]? = some a) : (l.map w).sum = w a + ((l.eraseIdx i).map w).sum := by
  induction l generalizing i with
  | nil => simp at h
  | cons x l ih =>
    cases i with
    | zero =>
      simp only [List.getElem?_cons_zero, Option.some.injEq] at h
      subst h
      simp
    | succ i =>
      have hi := ih (i := i) (by simpa using h)
      simp only [List.eraseIdx_cons_succ, List.map_cons, List.sum_cons]
      rw [hi, add_left_comm]

theorem sum_map_set_at [AddCommMonoid M] (w : α → M) {l : List α} {i : ℕ} {a : α} (b : α)
    (h : l[i]? = some a) : ((l.set i b).map w).sum = w b + ((l.eraseIdx i).map w).sum := by
  have hi : i < l.length := (List.getElem?_eq_some_iff.mp h).1
  have hb : (l.set i b)[i]? = some b := by simp [hi]
  rw [sum_map_at w hb, List.eraseIdx_set_eq]

theorem sum_map_set_same [AddCommMonoid M] (w : α → M) {l : List α} {i : ℕ} {a b : α}
    (h : l[i]? = some a) (hw : w b = w a) : ((l.set i b).map w).sum = (l.map w).sum := by
  rw [sum_map_at w h, sum_map_set_at w b h, hw]

theorem mem_sum_map {β : Type} {w : α → Multiset β} {l : List α} {b : β} :
    b ∈ (l.map w).sum ↔ ∃ a ∈ l, b ∈ w a := by
  induction l with
  | nil => simp
  | cons a l ih => simp [ih]

theorem countP_set_add (P : α → Bool) {l : List α} {i : ℕ} {a : α} (b : α) (h : l[i]? = some a) :
    (l.set i b).countP P + (if P a then 1 else 0) = l.countP P + (if P b then 1 else 0) := by
  obtain ⟨hi, ha⟩ := List.getElem?_eq_some_iff.mp h
  have hle := List.boole_getElem_le_countP (p := P) hi
  rw [List.countP_set hi]
  rw [ha] at hle ⊢
  omega

theorem getElem?_set_cases {l : List α} {i j : ℕ} {b c : α} (h : (l.set i b)[j]? = some c) :
    (i = j ∧ c = b) ∨ (i ≠ j ∧ l[j]? = some c) := by
  rw [List.getElem?_set] at h
  split at h
  · split at h
    · exact Or.inl ⟨by assumption, by simpa using h.symm⟩
    · simp at h
  · exact Or.inr ⟨by assumption, h⟩

theorem getElem?_set_at {l : List α} {i : ℕ} {a : α} (b : α) (h : l[i]? = some a) :
    (l.set i b)[i]? = some b := by
  simp [(List.getElem?_eq_some_iff.mp h).1]

theorem set_at_self {l : List α} {i : ℕ} {a : α} (h : l[i]? = some a) : l.set i a = l := by
  obtain ⟨hi, rfl⟩ := List.getElem?_eq_some_iff.mp h
  exact List.set_getElem_self hi

theorem getElem?_push_cases {l : List α} {j : ℕ} {b c : α} (h : (l ++ [b])[j]? = some c) :
    l[j]? = some c ∨ (j = l.length ∧ c = b) := by
  rw [List.getElem?_append] at h
  split at h
  · exact Or.inl h
  · right
    rcases Nat.eq_zero_or_pos (j - l.length) with hz | hp
    · rw [hz] at h
      exact ⟨by omega, by simpa using h.symm⟩
    · rw [List.getElem?_eq_none (by simp; omega)] at h
      simp at h

theorem getElem?_push_of {l : List α} {j : ℕ} {b c : α} (h : l[j]? = some c) :
    (l ++ [b])[j]? = some c := by
  rw [List.getElem?_append_left (List.getElem?_eq_some_iff.mp h).1]
  exact h

theorem update_cases {β : Type} [DecidableEq β] {f : β → α} {i j : β} {a b : α}
    (h : Function.update f i a j = b) : (j = i ∧ b = a) ∨ (j ≠ i ∧ f j = b) := by
  by_cases hij : j = i
  · subst hij
    rw [Function.update_self] at h
    exact .inl ⟨rfl, h.symm⟩
  · rw [Function.update_of_ne hij] at h
    exact .inr ⟨hij, h⟩

end XGameRuntime.Concurrency
