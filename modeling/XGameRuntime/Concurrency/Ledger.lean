import Mathlib.Data.Multiset.Filter
import Mathlib.Data.Multiset.Range
import Mathlib.Data.Multiset.Count

/-! # The ledger of a component that accepts work

What a component that takes callbacks is for, with no code in it: every item it is offered is
refused or accepted, and an accepted item is held, then running, then done. `Move` lists the
changes that respect this, `Sound` is what they preserve, and the section on consequences
reads off that each item is in one place and is started at most once. A machine meets the
specification when each of its steps is a `Move`.
-/

namespace XGameRuntime.Concurrency
set_option autoImplicit false

inductive Stage where
  | offered
  | refused
  | held
  | running
  | done
  deriving DecidableEq, Repr

def Stage.isAccepted : Stage → Bool
  | .held | .running | .done => true
  | _ => false

def Stage.isStarted : Stage → Bool
  | .running | .done => true
  | _ => false

/-- An item that is neither refused nor started yet. -/
def Stage.isPending : Stage → Bool
  | .offered | .held => true
  | _ => false

/-- `places` says where each item is; `next` is the serial number of the next one offered. -/
@[ext] structure Ledger (ι π : Type) where
  places : Multiset (ι × π)
  next : ℕ
  accepted : List ι
  refused : List ι
  started : List ι

variable {ι π : Type} (key : ι → ℕ) (stage : π → Stage)

inductive Ledger.Move (l l' : Ledger ι π) : Prop where
  | stay (h : l' = l)
  | offer {i : ι} {p : π} (hp : stage p = .offered) (hk : key i = l.next)
      (h : l' = { l with places := (i, p) ::ₘ l.places, next := l.next + 1 })
  | refuse {m : Multiset (ι × π)} {i : ι} {p q : π} (hp : stage p = .offered)
      (hq : stage q = .refused) (hl : l.places = (i, p) ::ₘ m)
      (h : l' = { l with places := (i, q) ::ₘ m, refused := i :: l.refused })
  | accept {m : Multiset (ι × π)} {i : ι} {p q : π} (hp : stage p = .offered)
      (hq : stage q = .held) (hl : l.places = (i, p) ::ₘ m)
      (h : l' = { l with places := (i, q) ::ₘ m, accepted := i :: l.accepted })
  | relocate {m : Multiset (ι × π)} (items : Multiset ι) {p q : π} (hp : stage p = .held)
      (hq : stage q = .held) (hl : l.places = items.map (·, p) + m)
      (h : l' = { l with places := items.map (·, q) + m })
  | start {m : Multiset (ι × π)} {i : ι} {p q : π} (hp : stage p = .held)
      (hq : stage q = .running) (hl : l.places = (i, p) ::ₘ m)
      (h : l' = { l with places := (i, q) ::ₘ m, started := i :: l.started })
  | finish {m : Multiset (ι × π)} {i : ι} {p q : π} (hp : stage p = .running)
      (hq : stage q = .done) (hl : l.places = (i, p) ::ₘ m)
      (h : l' = { l with places := (i, q) ::ₘ m })

/-- The items whose place satisfies `P`. -/
def itemsAt (P : Stage → Bool) (m : Multiset (ι × π)) : Multiset ι :=
  (m.filter fun x => P (stage x.2) = true).map Prod.fst

@[simp] theorem itemsAt_zero (P : Stage → Bool) :
    itemsAt stage P (0 : Multiset (ι × π)) = 0 := rfl

@[simp] theorem itemsAt_add (P : Stage → Bool) (m m' : Multiset (ι × π)) :
    itemsAt stage P (m + m') = itemsAt stage P m + itemsAt stage P m' := by
  simp [itemsAt, Multiset.filter_add]

@[simp] theorem itemsAt_cons (P : Stage → Bool) (i : ι) (p : π) (m : Multiset (ι × π)) :
    itemsAt stage P ((i, p) ::ₘ m) =
      if P (stage p) = true then i ::ₘ itemsAt stage P m else itemsAt stage P m := by
  unfold itemsAt
  split <;> rename_i h <;> simp [h]

theorem itemsAt_map (P : Stage → Bool) (items : Multiset ι) (p : π) :
    itemsAt stage P (items.map (·, p)) = if P (stage p) = true then items else 0 := by
  unfold itemsAt
  split <;> rename_i h <;> simp [Multiset.filter_map, h]

structure Ledger.Sound (l : Ledger ι π) : Prop where
  keys : l.places.map (fun x => key x.1) = Multiset.range l.next
  accepted : itemsAt stage Stage.isAccepted l.places = l.accepted
  refused : itemsAt stage (fun x => decide (x = .refused)) l.places = l.refused
  started : itemsAt stage Stage.isStarted l.places = l.started

theorem Ledger.sound_empty :
    Ledger.Sound key stage (⟨0, 0, [], [], []⟩ : Ledger ι π) :=
  ⟨rfl, rfl, rfl, rfl⟩

theorem keys_map (items : Multiset ι) (p : π) :
    (items.map (·, p)).map (fun x => key x.1) = items.map key := by
  rw [Multiset.map_map]
  rfl

theorem Ledger.Move.sound {l l' : Ledger ι π} (h : Ledger.Move key stage l l')
    (hl : Ledger.Sound key stage l) : Ledger.Sound key stage l' := by
  obtain ⟨hi, ha, hr, hs⟩ := hl
  cases h with
  | stay h =>
    subst h
    exact ⟨hi, ha, hr, hs⟩
  | offer hp hk h =>
    subst h
    constructor
    · simp only [Multiset.map_cons, Multiset.range_succ, hi, hk]
    all_goals simpa [hp, Stage.isAccepted, Stage.isStarted]
  | refuse hp hq hm h =>
    subst h
    rw [hm] at hi ha hr hs
    constructor
    · simpa using hi
    all_goals simp_all [Stage.isAccepted, Stage.isStarted]
  | accept hp hq hm h =>
    subst h
    rw [hm] at hi ha hr hs
    constructor
    · simpa using hi
    all_goals simp_all [Stage.isAccepted, Stage.isStarted]
  | relocate items hp hq hm h =>
    subst h
    rw [hm] at hi ha hr hs
    constructor
    · simp only [Multiset.map_add, keys_map] at hi ⊢
      exact hi
    all_goals
      simp only [itemsAt_add, itemsAt_map, hp, hq] at ha hr hs ⊢
      assumption
  | start hp hq hm h =>
    subst h
    rw [hm] at hi ha hr hs
    constructor
    · simpa using hi
    all_goals simp_all [Stage.isAccepted, Stage.isStarted]
  | finish hp hq hm h =>
    subst h
    rw [hm] at hi ha hr hs
    constructor
    · simpa using hi
    all_goals simp_all [Stage.isAccepted, Stage.isStarted]

/-! ## Consequences -/

section Consequences
variable {key stage} {l : Ledger ι π} {i : ι} {p q : π}

theorem mem_itemsAt {P : Stage → Bool} {m : Multiset (ι × π)} :
    i ∈ itemsAt stage P m ↔ ∃ p, (i, p) ∈ m ∧ P (stage p) = true := by
  simp [itemsAt]

/-- An item is in one place. -/
theorem Ledger.Sound.unique (h : Ledger.Sound key stage l) (hm : (i, p) ∈ l.places) :
    l.places.filter (fun x => key x.1 = key i) = {(i, p)} := by
  have hc : (l.places.filter fun x => key x.1 = key i).card ≤ 1 := by
    have h1 : (l.places.map fun x => key x.1).count (key i) ≤ 1 := by
      rw [h.keys]
      exact Multiset.nodup_iff_count_le_one.mp (Multiset.nodup_range l.next) (key i)
    rw [Multiset.count_map] at h1
    have he : (l.places.filter fun x => key x.1 = key i) =
        l.places.filter fun x => key i = key x.1 :=
      Multiset.filter_congr fun x _ => eq_comm
    rw [he]
    exact h1
  have hin : (i, p) ∈ l.places.filter fun x => key x.1 = key i := by simpa using hm
  obtain ⟨rest, hrest⟩ := Multiset.exists_cons_of_mem hin
  rw [hrest, Multiset.card_cons] at hc
  have hz : rest = 0 := Multiset.card_eq_zero.mp (by omega)
  rw [hrest, hz]
  rfl

theorem Ledger.Sound.same (h : Ledger.Sound key stage l) {j : ι} (hp : (i, p) ∈ l.places)
    (hq : (j, q) ∈ l.places) (hk : key j = key i) : j = i ∧ q = p := by
  have hm : (j, q) ∈ l.places.filter fun x => key x.1 = key i := by simpa [hk] using hq
  rw [h.unique hp, Multiset.mem_singleton] at hm
  simpa using hm

/-- An item is started once if its place says that it has started, and never otherwise. -/
theorem Ledger.Sound.count_started (h : Ledger.Sound key stage l) (hm : (i, p) ∈ l.places) :
    l.started.countP (fun j => key j = key i) = if (stage p).isStarted = true then 1 else 0 := by
  have hs : l.started.countP (fun j => decide (key j = key i)) =
      (itemsAt stage Stage.isStarted l.places).countP fun j => key j = key i := by
    rw [h.started, Multiset.coe_countP]
  rw [hs, itemsAt, Multiset.countP_map, Multiset.filter_filter]
  have he : (l.places.filter fun x => key x.1 = key i ∧ (stage x.2).isStarted = true) =
      ((l.places.filter fun x => key x.1 = key i).filter
        fun x => (stage x.2).isStarted = true) := by
    rw [Multiset.filter_filter]
    exact Multiset.filter_congr fun x _ => and_comm
  rw [he, h.unique hm, Multiset.filter_singleton]
  split <;> simp

theorem Ledger.Sound.accepted_place (h : Ledger.Sound key stage l) (hi : i ∈ l.accepted) :
    ∃ p, (i, p) ∈ l.places ∧ (stage p).isAccepted = true := by
  have hm : i ∈ itemsAt stage Stage.isAccepted l.places := by rw [h.accepted]; exact hi
  exact mem_itemsAt.mp hm

theorem Ledger.Sound.started_place (h : Ledger.Sound key stage l) (hi : i ∈ l.started) :
    ∃ p, (i, p) ∈ l.places ∧ (stage p).isStarted = true := by
  have hm : i ∈ itemsAt stage Stage.isStarted l.places := by rw [h.started]; exact hi
  exact mem_itemsAt.mp hm

theorem Ledger.Sound.refused_place (h : Ledger.Sound key stage l) (hi : i ∈ l.refused) :
    ∃ p, (i, p) ∈ l.places ∧ stage p = .refused := by
  have hm : i ∈ itemsAt stage (fun x => decide (x = .refused)) l.places := by
    rw [h.refused]; exact hi
  obtain ⟨p, hp, hs⟩ := mem_itemsAt.mp hm
  exact ⟨p, hp, by simpa using hs⟩

theorem Ledger.Sound.accepted_of_place (h : Ledger.Sound key stage l) (hp : (i, p) ∈ l.places)
    (ha : (stage p).isAccepted = true) : i ∈ l.accepted := by
  have hm : i ∈ itemsAt stage Stage.isAccepted l.places := mem_itemsAt.mpr ⟨p, hp, ha⟩
  rw [h.accepted] at hm
  exact hm

theorem Ledger.Sound.accepted_of_started (h : Ledger.Sound key stage l) (hi : i ∈ l.started) :
    i ∈ l.accepted := by
  obtain ⟨p, hp, hs⟩ := h.started_place hi
  refine h.accepted_of_place hp ?_
  cases hst : stage p <;> simp_all [Stage.isAccepted, Stage.isStarted]

/-- Each item is pending, or refused, or started. -/
theorem Ledger.Sound.items (h : Ledger.Sound key stage l) :
    l.places.map Prod.fst = itemsAt stage Stage.isPending l.places + l.refused + l.started := by
  rw [← h.refused, ← h.started]
  generalize l.places = m
  induction m using Multiset.induction_on with
  | empty => rfl
  | cons x m ih =>
    obtain ⟨i, p⟩ := x
    rw [Multiset.map_cons, ih]
    cases hp : stage p <;> simp [hp, Stage.isPending, Stage.isStarted]

theorem Ledger.Sound.nodup_accepted (h : Ledger.Sound key stage l) :
    (l.accepted.map key).Nodup := by
  have hle : (itemsAt stage Stage.isAccepted l.places).map key ≤
      l.places.map fun x => key x.1 := by
    unfold itemsAt
    rw [Multiset.map_map]
    exact Multiset.map_le_map (Multiset.filter_le _ _)
  rw [h.accepted, h.keys] at hle
  exact Multiset.coe_nodup.mp (Multiset.nodup_of_le hle (Multiset.nodup_range l.next))

end Consequences
end XGameRuntime.Concurrency
