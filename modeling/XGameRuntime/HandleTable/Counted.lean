import XGameRuntime.HandleTable

/-! # Handles to counted references

A table of `Arc`s: a value lives as long as a handle to it is open or somebody holds a reference that
a lookup has cloned. An `Arc` is the number of its allocation; the strong counts are kept with the
values.
-/

namespace XGameRuntime
set_option autoImplicit false

structure Counted (T : Type) where
  values : List T := []
  strong : ℕ → ℕ := fun _ => 0
  handles : HandleTable ℕ := {}

namespace Counted
variable {T : Type}

/-- `Arc::new` and `create`. -/
def create (t : Counted T) (value : T) : ℕ × Counted T :=
  let entry := t.handles.create t.values.length
  (entry.1,
    { values := t.values ++ [value]
      strong := Function.update t.strong t.values.length 1
      handles := entry.2 })

def retain (t : Counted T) (i : ℕ) : Counted T :=
  { t with strong := Function.update t.strong i (t.strong i + 1) }

def release (t : Counted T) (i : ℕ) : Counted T :=
  { t with strong := Function.update t.strong i (t.strong i - 1) }

/-- `get`: a clone of the reference in the table. -/
def get (t : Counted T) (handle : ℕ) : Option (ℕ × Counted T) :=
  (t.handles.get handle).map fun i => (i, t.retain i)

/-- What `close` takes out of the table, and drops then. -/
def remove (t : Counted T) (handle : ℕ) : Option (ℕ × Counted T) :=
  (t.handles.get handle).map fun i => (i, { t with handles := t.handles.close handle })

/-- One reference to `i`, as a count by value. -/
def one (i j : ℕ) : ℕ := if i = j then 1 else 0

@[simp] theorem one_self (i : ℕ) : one i i = 1 := if_pos rfl

/-- Each strong count is the number of the handles and of those who hold a reference. -/
structure Held (t : Counted T) (w : ℕ → ℕ) : Prop where
  strong : ∀ i, t.strong i = t.handles.count (fun j => decide (j = i)) + w i
  fresh : t.handles.Fresh
  made : ∀ i, 0 < t.strong i → i < t.values.length

theorem update_add_one (f : ℕ → ℕ) (i j : ℕ) : Function.update f i (f i + 1) j = f j + one i j := by
  by_cases he : j = i
  · subst he
    rw [Function.update_self, one_self]
  · rw [Function.update_of_ne he, one, if_neg (Ne.symm he), Nat.add_zero]

theorem update_sub_one (f : ℕ → ℕ) (i j : ℕ) : Function.update f i (f i - 1) j = f j - one i j := by
  by_cases he : j = i
  · subst he
    rw [Function.update_self, one_self]
  · rw [Function.update_of_ne he, one, if_neg (Ne.symm he), Nat.sub_zero]

section Rules
variable {t t' : Counted T} {w : ℕ → ℕ} {i handle : ℕ}

theorem held_empty : Held ({} : Counted T) fun _ => 0 where
  strong _ := rfl
  fresh := HandleTable.fresh_empty
  made _ h := absurd h (Nat.lt_irrefl 0)

theorem Held.unmade (h : t.Held w) : t.strong t.values.length = 0 := by
  by_contra hne
  exact absurd (h.made _ (Nat.pos_of_ne_zero hne)) (Nat.lt_irrefl _)

theorem Held.create (h : t.Held w) (value : T) : (t.create value).2.Held w := by
  have hzero := h.unmade
  refine ⟨fun j => ?_, h.fresh.create _, fun j hj => ?_⟩
  · show Function.update t.strong t.values.length 1 j = _
    have hcount := HandleTable.count_create h.fresh t.values.length fun k => decide (k = j)
    simp only [decide_eq_true_eq] at hcount
    show _ = (t.handles.create t.values.length).2.count _ + w j
    rw [hcount]
    have hj := h.strong j
    by_cases he : j = t.values.length
    · subst he
      rw [Function.update_self, if_pos rfl]
      omega
    · rw [Function.update_of_ne he, if_neg (Ne.symm he)]
      omega
  · show j < (t.values ++ [value]).length
    rw [List.length_append, List.length_singleton]
    by_cases he : j = t.values.length
    · omega
    · have hpos : 0 < t.strong j := by
        have hj : 0 < Function.update t.strong t.values.length 1 j := hj
        rwa [Function.update_of_ne he] at hj
      exact Nat.lt_succ_of_lt (h.made j hpos)

theorem Held.live_of_get (h : t.Held w) (hget : t.handles.get handle = some i) : 0 < t.strong i := by
  have hcount := HandleTable.count_pos h.fresh hget (p := fun j => decide (j = i)) (by simp)
  rw [h.strong i]
  omega

theorem Held.get (h : t.Held w) (hget : t.get handle = some (i, t')) :
    t'.Held fun j => w j + one i j := by
  obtain ⟨k, hk, hkt⟩ := Option.map_eq_some_iff.mp hget
  cases hkt
  have hlive := h.live_of_get hk
  refine ⟨fun j => ?_, h.fresh, fun j hj => h.made j ?_⟩
  · show Function.update t.strong i (t.strong i + 1) j = t.handles.count _ + (w j + one i j)
    rw [update_add_one, h.strong j, Nat.add_assoc]
  · have hj : 0 < Function.update t.strong i (t.strong i + 1) j := hj
    by_cases he : j = i
    · exact he ▸ hlive
    · rwa [Function.update_of_ne he] at hj

theorem Held.remove (h : t.Held w) (hget : t.remove handle = some (i, t')) :
    t'.Held fun j => w j + one i j := by
  obtain ⟨k, hk, hkt⟩ := Option.map_eq_some_iff.mp hget
  cases hkt
  refine ⟨fun j => ?_, h.fresh.close handle, h.made⟩
  have hcount := HandleTable.count_close h.fresh hk fun k => decide (k = j)
  simp only [decide_eq_true_eq] at hcount
  show t.strong j = (t.handles.close handle).count _ + (w j + one i j)
  rw [h.strong j, ← hcount]
  unfold one
  omega

theorem Held.release (h : t.Held fun j => w j + one i j) : (t.release i).Held w := by
  refine ⟨fun j => ?_, h.fresh, fun j hj => h.made j ?_⟩
  · show Function.update t.strong i (t.strong i - 1) j = t.handles.count _ + w j
    have hj := h.strong j
    rw [update_sub_one]
    omega
  · have hj : 0 < Function.update t.strong i (t.strong i - 1) j := hj
    rw [update_sub_one] at hj
    omega

/-- A value is alive just as long as somebody has it. -/
theorem Held.live_iff (h : t.Held w) :
    0 < t.strong i ↔ (∃ handle, t.handles.get handle = some i) ∨ 0 < w i := by
  constructor
  · intro hlive
    rw [h.strong i] at hlive
    rcases Nat.eq_zero_or_pos (w i) with hzero | hpos
    · rw [hzero, Nat.add_zero] at hlive
      obtain ⟨handle, j, hget, hj⟩ := HandleTable.exists_of_count_pos hlive
      exact .inl ⟨handle, of_decide_eq_true hj ▸ hget⟩
    · exact .inr hpos
  · rintro (⟨handle, hget⟩ | hpos)
    · exact h.live_of_get hget
    · rw [h.strong i]
      omega

end Rules
end Counted
end XGameRuntime
