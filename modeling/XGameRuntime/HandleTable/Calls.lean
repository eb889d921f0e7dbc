import Mathlib.Algebra.Group.Nat.Even
import Mathlib.Data.List.InsertIdx
import Mathlib.Data.List.Nodup
import XGameRuntime.Concurrency.Names
import XGameRuntime.HandleTable

/-! # Calls on a handle table that overlap

A `create` takes its id from the counter before it takes the lock of the entries, so that other
calls come between the two.
-/

namespace XGameRuntime.HandleTable
open Concurrency
set_option autoImplicit false

variable {T : Type}

/-- `next.fetch_add(1)`: the counter is a `u64`. -/
def reserve (t : HandleTable T) : ℕ × HandleTable T :=
  (t.next % 2 ^ 64, { t with next := t.next + 1 })

/-- The locked step of `create`. -/
def insert (t : HandleTable T) (id : ℕ) (value : T) : HandleTable T :=
  { t with entries := Function.update t.entries id (some value) }

/-- The table, with the calls of `create` that have an id but no entry yet. -/
structure Calls (T : Type) where
  table : HandleTable T := {}
  creates : List (ℕ × T) := []

/-- The next step of a call; `insert i` is the second step of the `i`-th waiting `create`. -/
inductive Action (T : Type) where
  | reserve (value : T)
  | insert (i : ℕ)
  | get (handle : ℕ)
  | close (handle : ℕ)

def Calls.step (s : Calls T) : Action T → Option (NameEvent ℕ T × Calls T)
  | .reserve value =>
      some (.named s.table.reserve.1,
        { table := s.table.reserve.2, creates := (s.table.reserve.1, value) :: s.creates })
  | .insert i => do
      let (id, value) ← s.creates[i]?
      some (.bound id value, { table := s.table.insert id value, creates := s.creates.eraseIdx i })
  | .get handle => some (.found handle (s.table.get handle), s)
  | .close handle => some (.unbound handle, { s with table := s.table.close handle })

/-- A run from the empty table, with its trace, the latest event first. -/
inductive Calls.Runs : List (NameEvent ℕ T) → Calls T → Prop where
  | start : Runs [] {}
  | step {trace : List (NameEvent ℕ T)} {s t : Calls T} {action : Action T} {e : NameEvent ℕ T}
      (hrun : Runs trace s) (hstep : s.step action = some (e, t)) : Runs (e :: trace) t

/-! ## Refinement -/

theorem get_insert {t : HandleTable T} {id : ℕ} (value : T) (h : id ≠ 0) :
    (t.insert id value).get = Function.update t.get id (some value) := by
  funext handle
  by_cases he : handle = id
  · subst he
    rw [Function.update_self, get, if_neg h]
    exact Function.update_self ..
  · rw [Function.update_of_ne he, get, get, insert]
    dsimp only
    rw [Function.update_of_ne he]

theorem get_close_eq (t : HandleTable T) (handle : ℕ) :
    (t.close handle).get = Function.update t.get handle none := by
  funext other
  by_cases he : other = handle
  · subst he
    rw [Function.update_self, get_close]
  · rw [Function.update_of_ne he, get_close_of_ne t handle other he]

def isNamed : NameEvent ℕ T → Bool
  | .named _ => true
  | _ => false

/-- How many calls of `create` have taken an id. -/
def idsTaken (trace : List (NameEvent ℕ T)) : ℕ := trace.countP isNamed

/-- The table as a map with fresh names: those below the counter have been given, and those of
the waiting calls are pending. -/
structure Refines (s : Calls T) (names : Names ℕ T) : Prop where
  map : names.map = s.table.get
  given : ∀ n, n ∈ names.given ↔ n < s.table.next
  pending : ∀ n, n ∈ names.pending ↔ n ∈ s.creates.map Prod.fst
  distinct : (s.creates.map Prod.fst).Nodup
  taken : ∀ id ∈ s.creates.map Prod.fst, id ≠ 0 ∧ id < s.table.next

theorem refines_start : Refines ({} : Calls T) (Names.start 0) where
  map := by
    funext handle
    exact (ite_self _).symm
  given n := by
    show n = 0 ↔ n < 1
    omega
  pending n := ⟨fun h => h.elim, fun h => absurd h List.not_mem_nil⟩
  distinct := List.nodup_nil
  taken := fun id hid => absurd hid List.not_mem_nil

section Steps
variable {s : Calls T} {names : Names ℕ T} (h : Refines s names)
include h

theorem Refines.reserve (value : T) (hpos : 0 < s.table.next) (hlt : s.table.next < 2 ^ 64) :
    ∃ next, names.Step (.named s.table.reserve.1) next ∧
      Refines { table := s.table.reserve.2, creates := (s.table.reserve.1, value) :: s.creates }
        next := by
  have hid : s.table.reserve.1 = s.table.next := Nat.mod_eq_of_lt hlt
  have hnext : s.table.reserve.2.next = s.table.next + 1 := rfl
  rw [hid]
  refine ⟨_, .name (fun hgiven => absurd ((h.given _).mp hgiven) (Nat.lt_irrefl _)), ?_⟩
  constructor
  · exact h.map
  · intro n
    show n = s.table.next ∨ n ∈ names.given ↔ n < s.table.next + 1
    rw [h.given]
    omega
  · intro n
    show n = s.table.next ∨ n ∈ names.pending ↔ n ∈ s.table.next :: s.creates.map Prod.fst
    rw [h.pending, List.mem_cons]
  · refine List.nodup_cons.mpr ⟨fun hin => ?_, h.distinct⟩
    exact absurd (h.taken _ hin).2 (Nat.lt_irrefl _)
  · refine List.forall_mem_cons.mpr ⟨⟨Nat.ne_of_gt hpos, Nat.lt_succ_self _⟩, fun id hin => ?_⟩
    obtain ⟨hne, hid⟩ := h.taken id hin
    exact ⟨hne, Nat.lt_succ_of_lt hid⟩

theorem Refines.insert {i id : ℕ} {value : T} (hi : s.creates[i]? = some (id, value)) :
    ∃ next, names.Step (.bound id value) next ∧
      Refines { table := s.table.insert id value, creates := s.creates.eraseIdx i } next := by
  have hids : (s.creates.map Prod.fst)[i]? = some id := by rw [List.getElem?_map, hi]; rfl
  have hin : id ∈ s.creates.map Prod.fst := List.mem_of_getElem? hids
  have hleft : (s.creates.eraseIdx i).map Prod.fst = (s.creates.map Prod.fst).erase id := by
    obtain ⟨hlt, hget⟩ := List.getElem?_eq_some_iff.mp hids
    rw [← List.eraseIdx_map, ← hget, List.Nodup.erase_getElem h.distinct i hlt]
  refine ⟨_, .bind ((h.pending id).mpr hin) value, ?_⟩
  constructor
  · show Function.update names.map id (some value) = (s.table.insert id value).get
    rw [get_insert value (h.taken id hin).1, h.map]
  · exact h.given
  · intro n
    show n ∈ names.pending ∧ n ≠ id ↔ n ∈ (s.creates.eraseIdx i).map Prod.fst
    rw [hleft, h.distinct.mem_erase_iff, h.pending]
    exact And.comm
  · show ((s.creates.eraseIdx i).map Prod.fst).Nodup
    rw [hleft]
    exact h.distinct.erase id
  · intro n hn
    have hn : n ∈ (s.creates.eraseIdx i).map Prod.fst := hn
    rw [hleft] at hn
    exact h.taken n (List.mem_of_mem_erase hn)

theorem Refines.close (handle : ℕ) :
    ∃ next, names.Step (.unbound handle) next ∧
      Refines { s with table := s.table.close handle } next := by
  have hnext : (s.table.close handle).next = s.table.next := by
    unfold HandleTable.close
    split <;> rfl
  refine ⟨_, .unbind handle, ?_⟩
  constructor
  · show Function.update names.map handle none = (s.table.close handle).get
    rw [get_close_eq, h.map]
  · intro n
    rw [hnext]
    exact h.given n
  · exact h.pending
  · exact h.distinct
  · intro id hid
    rw [hnext]
    exact h.taken id hid

end Steps

/-- Up to `2 ^ 64` ids, what the calls do is a run of the map with fresh names. -/
theorem Calls.Runs.refines {trace : List (NameEvent ℕ T)} {s : Calls T} (h : Calls.Runs trace s)
    (hcreates : idsTaken trace < 2 ^ 64) :
    ∃ names, Names.Runs 0 trace names ∧ Refines s names ∧ s.table.next = idsTaken trace + 1 := by
  induction h with
  | start => exact ⟨Names.start 0, .start, refines_start, rfl⟩
  | @step trace s t action e hrun hstep ih =>
    have hcons : idsTaken (e :: trace) = idsTaken trace + if isNamed e then 1 else 0 :=
      List.countP_cons
    obtain ⟨names, hnames, hrefines, hnext⟩ := ih (by omega)
    cases action with
    | reserve value =>
      cases hstep
      have hone : idsTaken (.named s.table.reserve.1 :: trace) = idsTaken trace + 1 := hcons
      obtain ⟨next, hstep, hrefines⟩ := hrefines.reserve value (by omega) (by omega)
      exact ⟨next, hnames.step hstep, hrefines, by rw [hone, ← hnext]; rfl⟩
    | insert i =>
      obtain ⟨⟨id, value⟩, hi, hrest⟩ := Option.bind_eq_some_iff.mp hstep
      cases hrest
      obtain ⟨next, hstep, hrefines⟩ := hrefines.insert hi
      exact ⟨next, hnames.step hstep, hrefines, hnext⟩
    | get handle =>
      cases hstep
      refine ⟨names, hnames.step ?_, hrefines, hnext⟩
      rw [← hrefines.map]
      exact .find handle
    | close handle =>
      cases hstep
      obtain ⟨next, hstep, hrefines'⟩ := hrefines.close handle
      refine ⟨next, hnames.step hstep, hrefines', ?_⟩
      have hsame : (s.table.close handle).next = s.table.next := by
        unfold HandleTable.close
        split <;> rfl
      exact hsame.trans hnext

/-- However the calls overlap, an id is new where it is handed out and where its entry is made; a
handle is found exactly while its entry is there, and closing it leaves the others alone. -/
theorem handle_table_fresh {trace : List (NameEvent ℕ T)} {s : Calls T} (h : Calls.Runs trace s)
    (hcreates : idsTaken trace < 2 ^ 64) :
    (∃ names, Names.Runs 0 trace names ∧ names.map = s.table.get) ∧ FreshMap 0 trace ∧
      (∀ later earlier handle result, trace = later ++ .found handle result :: earlier →
        (handle = 0 ∨ ∀ value, .bound handle value ∉ earlier) → result = none) ∧
      (∀ later since before handle value result,
        trace = later ++ .found handle result :: (since ++ .unbound handle :: before) →
          .bound handle value ∈ before → result = none) ∧
      ∀ handle other, other ≠ handle → (s.table.close handle).get other = s.table.get other := by
  obtain ⟨names, hnames, hrefines, -⟩ := h.refines hcreates
  have hfresh := hnames.freshMap
  refine ⟨⟨names, hnames, hrefines.map⟩, hfresh, ?_, ?_, ?_⟩
  · rintro later earlier handle result htrace hforeign
    refine hfresh.found_foreign htrace fun value hin => ?_
    obtain hzero | hnot := hforeign
    · obtain ⟨first, rest, hsplit⟩ := List.append_of_mem hin
      rw [hsplit, ← List.cons_append, ← List.append_assoc] at htrace
      exact (hfresh.bound htrace).1 hzero
    · exact hnot value hin
  · intro later since before handle value result htrace hbound
    exact hfresh.found_unbound htrace hbound
  · exact fun handle other hne => get_close_of_ne s.table handle other hne

/-- Two calls of `create` overlap; the entry of the second is made first, found and closed. -/
theorem handle_table_fresh_overlap :
    FreshMap 0 [.found 2 none, .bound 1 true, .unbound 2, .found 2 (some false), .bound 2 false,
      .named 2, .named 1] := by
  have h1 := Calls.Runs.start.step (rfl : ({} : Calls Bool).step (.reserve true) = some _)
  have h2 := h1.step (rfl : Calls.step _ (.reserve false) = some _)
  have h3 := h2.step (rfl : Calls.step _ (.insert 0) = some _)
  have h4 := h3.step (rfl : Calls.step _ (.get 2) = some _)
  have h5 := h4.step (rfl : Calls.step _ (.close 2) = some _)
  have h6 := h5.step (rfl : Calls.step _ (.insert 0) = some _)
  have h7 := h6.step (rfl : Calls.step _ (.get 2) = some _)
  exact (handle_table_fresh h7 (by decide)).2.1

end XGameRuntime.HandleTable
