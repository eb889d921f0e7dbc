import Mathlib.Data.Nat.Notation
import Mathlib.Logic.Function.Basic

/-! # The checked handle table

`src/com/handle_table.rs`: opaque `u64` handles map to reference-counted objects. Ids are handed
out sequentially from 1 and 0 is never an entry.
-/

namespace XGameRuntime
set_option autoImplicit false

structure HandleTable (T : Type) where
  next : ℕ := 1
  entries : ℕ → Option T := fun _ => none

namespace HandleTable
variable {T : Type}

def create (t : HandleTable T) (value : T) : ℕ × HandleTable T :=
  (t.next, { next := t.next + 1, entries := Function.update t.entries t.next (some value) })

def get (t : HandleTable T) (handle : ℕ) : Option T :=
  if handle = 0 then none else t.entries handle

def close (t : HandleTable T) (handle : ℕ) : HandleTable T :=
  if handle = 0 then t else { t with entries := Function.update t.entries handle none }

/-- The number of open handles to values that meet `p`. -/
def count (t : HandleTable T) (p : T → Bool) : ℕ :=
  (List.range t.next).countP fun handle => (t.get handle).any p

/-- What a handle stands for changes in place, through the lock it is kept under. -/
def put (t : HandleTable T) (handle : ℕ) (value : T) : HandleTable T :=
  { t with entries := Function.update t.entries handle (some value) }

theorem get_create (t : HandleTable T) (value : T) (hn : t.next ≠ 0) :
    (t.create value).2.get (t.create value).1 = some value := by
  simp [create, get, hn]

theorem get_create_of_ne (t : HandleTable T) (value : T) (handle : ℕ) (h : handle ≠ t.next) :
    (t.create value).2.get handle = t.get handle := by
  simp [create, get, Function.update_of_ne h]

theorem get_close (t : HandleTable T) (handle : ℕ) : (t.close handle).get handle = none := by
  by_cases h : handle = 0
  · simp [get, h]
  · simp [get, close, h]

theorem get_close_of_ne (t : HandleTable T) (handle other : ℕ) (h : other ≠ handle) :
    (t.close handle).get other = t.get other := by
  by_cases h0 : handle = 0
  · simp [close, h0]
  · simp [get, close, h0, Function.update_of_ne h]

/-- What comes out of a table went in. -/
theorem get_of_create {t : HandleTable T} {value found : T} {handle : ℕ}
    (h : (t.create value).2.get handle = some found) :
    found = value ∨ t.get handle = some found := by
  unfold create get at h
  dsimp only at h
  split at h
  · cases h
  · rename_i h0
    by_cases he : handle = t.next
    · subst he
      rw [Function.update_self] at h
      exact .inl (Option.some.inj h).symm
    · rw [Function.update_of_ne he] at h
      exact .inr (by rw [get, if_neg h0, h])

theorem get_of_close {t : HandleTable T} {found : T} {handle other : ℕ}
    (h : (t.close handle).get other = some found) : t.get other = some found := by
  by_cases he : other = handle
  · subst he
    rw [get_close] at h
    cases h
  · rwa [get_close_of_ne t handle other he] at h

theorem get_put (t : HandleTable T) {handle : ℕ} (value : T) (h : handle ≠ 0) :
    (t.put handle value).get handle = some value := by
  simp [put, get, h]

theorem get_of_put {t : HandleTable T} {value found : T} {handle other : ℕ}
    (h : (t.put handle value).get other = some found) :
    found = value ∨ t.get other = some found := by
  unfold put get at h
  dsimp only at h
  split at h
  · cases h
  · rename_i h0
    by_cases he : other = handle
    · subst he
      rw [Function.update_self] at h
      exact .inl (Option.some.inj h).symm
    · rw [Function.update_of_ne he] at h
      exact .inr (by rw [get, if_neg h0, h])

theorem ne_zero_of_get {t : HandleTable T} {value : T} {handle : ℕ}
    (h : t.get handle = some value) : handle ≠ 0 := by
  rintro rfl
  cases h

theorem get_put_of_ne (t : HandleTable T) {handle other : ℕ} (value : T) (h : other ≠ handle) :
    (t.put handle value).get other = t.get other := by
  simp [get, put, Function.update_of_ne h]

/-- Handles that have not been handed out stand for nothing. -/
structure Fresh (t : HandleTable T) : Prop where
  pos : 0 < t.next
  unused : ∀ handle, t.next ≤ handle → t.get handle = none

theorem Fresh.lt {t : HandleTable T} (h : t.Fresh) {handle : ℕ} {value : T}
    (hg : t.get handle = some value) : handle < t.next := by
  by_contra hle
  rw [h.unused handle (Nat.not_lt.mp hle)] at hg
  cases hg

theorem fresh_empty : ({} : HandleTable T).Fresh := by
  refine ⟨Nat.one_pos, fun handle _ => ?_⟩
  unfold get
  split <;> rfl

theorem Fresh.create {t : HandleTable T} (h : t.Fresh) (value : T) : (t.create value).2.Fresh := by
  refine ⟨Nat.succ_pos _, fun handle hle => ?_⟩
  have hlt : t.next < handle := hle
  rw [get_create_of_ne t value handle (Nat.ne_of_gt hlt)]
  exact h.unused handle (Nat.le_of_lt hlt)

theorem Fresh.close {t : HandleTable T} (h : t.Fresh) (handle : ℕ) : (t.close handle).Fresh := by
  have hnext : (t.close handle).next = t.next := by
    unfold HandleTable.close
    split <;> rfl
  refine ⟨hnext ▸ h.pos, fun other hle => ?_⟩
  by_contra hne
  obtain ⟨value, hv⟩ := Option.ne_none_iff_exists'.mp hne
  have hlt := h.lt (get_of_close hv)
  rw [hnext] at hle
  exact absurd hlt (Nat.not_lt.mpr hle)

theorem Fresh.put {t : HandleTable T} (h : t.Fresh) {handle : ℕ} {old : T}
    (hg : t.get handle = some old) (value : T) : (t.put handle value).Fresh := by
  refine ⟨h.pos, fun other hle => ?_⟩
  have hlt := h.lt hg
  have hne : other ≠ handle := Nat.ne_of_gt (Nat.lt_of_lt_of_le hlt hle)
  rw [get_put_of_ne t value hne]
  exact h.unused other hle

/-! ## Counting -/

theorem countP_range_congr {n : ℕ} {p q : ℕ → Bool} (h : ∀ i < n, p i = q i) :
    (List.range n).countP p = (List.range n).countP q :=
  List.countP_congr fun i hi => by rw [h i (List.mem_range.mp hi)]

theorem countP_range_off {n i : ℕ} {p q : ℕ → Bool} (hi : i < n)
    (h : ∀ j < n, j ≠ i → p j = q j) (hq : q i = false) :
    (List.range n).countP q + (if p i then 1 else 0) = (List.range n).countP p := by
  induction n with
  | zero => exact absurd hi (Nat.not_lt_zero i)
  | succ n ih =>
    rw [List.range_succ, List.countP_append, List.countP_append, List.countP_singleton,
      List.countP_singleton]
    by_cases he : i = n
    · subst he
      rw [hq, countP_range_congr fun j hj => h j (Nat.lt_succ_of_lt hj) (Nat.ne_of_lt hj)]
      simp
    · have hrest := ih (by omega) fun j hj hne => h j (Nat.lt_succ_of_lt hj) hne
      rw [h n (Nat.lt_succ_self n) fun hn => he hn.symm, ← hrest]
      omega

theorem count_create {t : HandleTable T} (h : t.Fresh) (value : T) (p : T → Bool) :
    (t.create value).2.count p = t.count p + if p value then 1 else 0 := by
  have hnext : (t.create value).2.next = t.next + 1 := rfl
  have hnew := get_create t value (Nat.pos_iff_ne_zero.mp h.pos)
  unfold count
  rw [hnext, List.range_succ, List.countP_append, List.countP_singleton,
    countP_range_congr (q := fun handle => (t.get handle).any p)]
  · rw [show t.next = (t.create value).1 from rfl, hnew]
    rfl
  · intro i hi
    rw [get_create_of_ne t value i (Nat.ne_of_lt hi)]

theorem count_close {t : HandleTable T} (h : t.Fresh) {handle : ℕ} {value : T}
    (hg : t.get handle = some value) (p : T → Bool) :
    (t.close handle).count p + (if p value then 1 else 0) = t.count p := by
  have hnext : (t.close handle).next = t.next := by
    unfold HandleTable.close
    split <;> rfl
  have hoff := countP_range_off (p := fun handle => (t.get handle).any p)
    (q := fun other => ((t.close handle).get other).any p) (h.lt hg)
    (fun j _ hne => by rw [get_close_of_ne t handle j hne]) (by rw [get_close]; rfl)
  rw [hg] at hoff
  unfold count
  rw [hnext]
  exact hoff

theorem count_pos {t : HandleTable T} (h : t.Fresh) {handle : ℕ} {value : T}
    (hg : t.get handle = some value) {p : T → Bool} (hp : p value = true) : 0 < t.count p := by
  refine List.countP_pos_iff.mpr ⟨handle, List.mem_range.mpr (h.lt hg), ?_⟩
  rw [hg]
  exact hp

theorem exists_of_count_pos {t : HandleTable T} {p : T → Bool} (h : 0 < t.count p) :
    ∃ handle value, t.get handle = some value ∧ p value = true := by
  obtain ⟨handle, -, hany⟩ := List.countP_pos_iff.mp h
  obtain ⟨value, hget, hp⟩ := (Option.any_eq_true _ _).mp hany
  exact ⟨handle, value, hget, hp⟩

end HandleTable
end XGameRuntime
