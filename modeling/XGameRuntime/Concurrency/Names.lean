import Mathlib.Data.Set.Insert
import Mathlib.Logic.Function.Basic

/-! # A partial map with fresh names

Whoever wants to enter a value is given a name first and binds the value to it later; everybody
else looks up and unbinds names of their own choosing. `null` is never given.
-/

namespace XGameRuntime.Concurrency
set_option autoImplicit false

section Names
variable {N V : Type}

inductive NameEvent (N V : Type) where
  | named (n : N)
  | bound (n : N) (v : V)
  | found (n : N) (result : Option V)
  | unbound (n : N)

structure Names (N V : Type) where
  given : Set N
  pending : Set N
  map : N → Option V

def Names.start (null : N) : Names N V where
  given := {null}
  pending := ∅
  map _ := none

/-! ## What is bound -/

/-- `n` has been bound to `v`, and nobody has unbound it since. -/
def Live (trace : List (NameEvent N V)) (n : N) (v : V) : Prop :=
  ∃ since before, trace = since ++ .bound n v :: before ∧ .unbound n ∉ since

variable {trace : List (NameEvent N V)} {n : N} {v : V}

theorem Live.mem (h : Live trace n v) : .bound n v ∈ trace := by
  obtain ⟨since, before, rfl, -⟩ := h
  exact List.mem_append_right _ List.mem_cons_self

theorem live_cons {e : NameEvent N V} (hbound : e ≠ .bound n v) (hunbound : e ≠ .unbound n) :
    Live trace n v ↔ Live (e :: trace) n v := by
  constructor
  · rintro ⟨since, before, rfl, hsince⟩
    exact ⟨e :: since, before, rfl, List.not_mem_cons_of_ne_of_not_mem hunbound.symm hsince⟩
  · rintro ⟨since, before, htrace, hsince⟩
    cases since with
    | nil => exact absurd (List.head_eq_of_cons_eq htrace) hbound
    | cons first since =>
      refine ⟨since, before, List.tail_eq_of_cons_eq htrace, ?_⟩
      exact fun hin => hsince (List.mem_cons_of_mem _ hin)

theorem live_bound {w : V} : Live (.bound n v :: trace) n w ↔ v = w ∨ Live trace n w := by
  by_cases hvw : v = w
  · subst hvw
    exact ⟨fun _ => .inl rfl, fun _ => ⟨[], trace, rfl, List.not_mem_nil⟩⟩
  · have hne : NameEvent.bound n v ≠ .bound n w := fun he => hvw (NameEvent.bound.inj he).2
    exact Iff.symm ((or_iff_right hvw).trans (live_cons hne nofun))

theorem not_live_unbound : ¬Live (.unbound n :: trace) n v := by
  rintro ⟨since, before, htrace, hsince⟩
  cases since with
  | nil => cases List.head_eq_of_cons_eq htrace
  | cons first since =>
    rw [List.cons_append] at htrace
    exact hsince (List.head_eq_of_cons_eq htrace ▸ List.mem_cons_self)

/-! ## What a trace says -/

/-- Every name is new where it is bound, and a look-up finds what its name is bound to. -/
structure FreshMap (null : N) (trace : List (NameEvent N V)) : Prop where
  named : ∀ {later earlier n}, trace = later ++ .named n :: earlier →
    n ≠ null ∧ .named n ∉ earlier
  bound : ∀ {later earlier n v}, trace = later ++ .bound n v :: earlier →
    n ≠ null ∧ .named n ∈ earlier ∧ ∀ w, .bound n w ∉ earlier
  found : ∀ {later earlier n r}, trace = later ++ .found n r :: earlier →
    ∀ v, r = some v ↔ Live earlier n v

/-! ## Runs -/

section Runs
variable [DecidableEq N]

inductive Names.Step (s : Names N V) : NameEvent N V → Names N V → Prop where
  | name {n : N} (h : n ∉ s.given) :
      Step s (.named n) { s with given := insert n s.given, pending := insert n s.pending }
  | bind {n : N} (h : n ∈ s.pending) (v : V) :
      Step s (.bound n v)
        { s with pending := s.pending \ {n}, map := Function.update s.map n (some v) }
  | find (n : N) : Step s (.found n (s.map n)) s
  | unbind (n : N) : Step s (.unbound n) { s with map := Function.update s.map n none }

/-- A run with its trace, the latest event first. -/
inductive Names.Runs (null : N) : List (NameEvent N V) → Names N V → Prop where
  | start : Runs null [] (Names.start null)
  | step {trace : List (NameEvent N V)} {s t : Names N V} {e : NameEvent N V}
      (hrun : Runs null trace s) (hstep : s.Step e t) : Runs null (e :: trace) t

/-! ## Invariants of a run -/

variable {null : N} {s : Names N V}

theorem Names.Runs.given_iff (h : Names.Runs null trace s) :
    n ∈ s.given ↔ n = null ∨ .named n ∈ trace := by
  induction h with
  | start => simp [Names.start]
  | step hrun hstep ih =>
    cases hstep with
    | name hn => simp [ih, or_left_comm]
    | bind hn v => simp [ih]
    | find n => simp [ih]
    | unbind n => simp [ih]

theorem Names.Runs.pending_named (h : Names.Runs null trace s) (hn : n ∈ s.pending) :
    .named n ∈ trace ∧ n ≠ null := by
  induction h with
  | start => exact absurd hn (Set.notMem_empty n)
  | step hrun hstep ih =>
    cases hstep with
    | name hnew =>
      obtain rfl | hn := hn
      · refine ⟨List.mem_cons_self, fun hnull => hnew (hrun.given_iff.mpr (.inl hnull))⟩
      · exact ⟨List.mem_cons_of_mem _ (ih hn).1, (ih hn).2⟩
    | bind _ v => exact ⟨List.mem_cons_of_mem _ (ih hn.1).1, (ih hn.1).2⟩
    | find m => exact ⟨List.mem_cons_of_mem _ (ih hn).1, (ih hn).2⟩
    | unbind m => exact ⟨List.mem_cons_of_mem _ (ih hn).1, (ih hn).2⟩

/-- A name is bound after it has been given, and once. -/
theorem Names.Runs.bound_named (h : Names.Runs null trace s) (hn : .bound n v ∈ trace) :
    .named n ∈ trace ∧ n ≠ null ∧ n ∉ s.pending := by
  induction h with
  | start => exact absurd hn List.not_mem_nil
  | @step trace s t e hrun hstep ih =>
    obtain he | hn := List.mem_cons.mp hn
    · subst he
      cases hstep with
      | bind hpending =>
        obtain ⟨hnamed, hnull⟩ := hrun.pending_named hpending
        exact ⟨List.mem_cons_of_mem _ hnamed, hnull, fun hin => hin.2 rfl⟩
    · obtain ⟨hnamed, hnull, hnot⟩ := ih hn
      refine ⟨List.mem_cons_of_mem _ hnamed, hnull, ?_⟩
      cases hstep with
      | name hnew =>
        rintro (rfl | hin)
        · exact hnew (hrun.given_iff.mpr (.inr hnamed))
        · exact hnot hin
      | bind _ w => exact fun hin => hnot hin.1
      | find m => exact hnot
      | unbind m => exact hnot

theorem Names.Runs.map_iff (h : Names.Runs null trace s) : s.map n = some v ↔ Live trace n v := by
  induction h with
  | start => exact ⟨nofun, fun hlive => absurd hlive.mem List.not_mem_nil⟩
  | step hrun hstep ih =>
    cases hstep with
    | name hnew => exact ih.trans (live_cons nofun nofun)
    | @bind m hpending w =>
      by_cases he : n = m
      · subst he
        rw [live_bound]
        dsimp only
        rw [Function.update_self, Option.some.injEq]
        refine ⟨.inl, fun hw => hw.resolve_right (fun hlive => ?_)⟩
        exact (hrun.bound_named hlive.mem).2.2 hpending
      · dsimp only
        rw [Function.update_of_ne he]
        exact ih.trans (live_cons (fun hb => he (NameEvent.bound.inj hb).1.symm) nofun)
    | find m => exact ih.trans (live_cons nofun nofun)
    | unbind m =>
      by_cases he : n = m
      · subst he
        dsimp only
        rw [Function.update_self]
        exact ⟨nofun, fun hlive => absurd hlive not_live_unbound⟩
      · dsimp only
        rw [Function.update_of_ne he]
        exact ih.trans (live_cons nofun (fun hb => he (NameEvent.unbound.inj hb).symm))

/-! ## Refinement -/

theorem Names.Runs.at {later earlier : List (NameEvent N V)} {e : NameEvent N V}
    (h : Names.Runs null (later ++ e :: earlier) s) :
    ∃ s t : Names N V, Names.Runs null earlier s ∧ s.Step e t := by
  induction later generalizing s with
  | nil =>
    cases h with
    | step hrun hstep => exact ⟨_, _, hrun, hstep⟩
  | cons first later ih =>
    cases h with
    | step hrun hstep => exact ih hrun

theorem Names.Runs.freshMap (h : Names.Runs null trace s) : FreshMap null trace where
  named := by
    rintro later earlier n rfl
    obtain ⟨s, t, hrun, hstep⟩ := h.at
    cases hstep with
    | name hnew =>
      rw [hrun.given_iff] at hnew
      exact ⟨fun hnull => hnew (.inl hnull), fun hin => hnew (.inr hin)⟩
  bound := by
    rintro later earlier n v rfl
    obtain ⟨s, t, hrun, hstep⟩ := h.at
    cases hstep with
    | bind hpending =>
      obtain ⟨hnamed, hnull⟩ := hrun.pending_named hpending
      exact ⟨hnull, hnamed, fun w hin => (hrun.bound_named hin).2.2 hpending⟩
  found := by
    rintro later earlier n r rfl v
    obtain ⟨s, t, hrun, hstep⟩ := h.at
    cases hstep with
    | find => exact hrun.map_iff

end Runs

namespace FreshMap
variable {trace : List (NameEvent N V)} {n null : N} {v : V}

/-- What is not bound is not found. -/
theorem found_foreign (h : FreshMap null trace) {later earlier : List (NameEvent N V)}
    {r : Option V} (htrace : trace = later ++ .found n r :: earlier)
    (hforeign : ∀ v, .bound n v ∉ earlier) : r = none := by
  cases r with
  | none => rfl
  | some v => exact absurd ((h.found htrace v).mp rfl).mem (hforeign v)

/-- What has been unbound after it was bound is not found again. -/
theorem found_unbound (h : FreshMap null trace) {later since before : List (NameEvent N V)}
    {r : Option V} (htrace : trace = later ++ .found n r :: (since ++ .unbound n :: before))
    (hbound : .bound n v ∈ before) : r = none := by
  cases r with
  | none => rfl
  | some w =>
    obtain ⟨first, rest, hsplit, hfirst⟩ := (h.found htrace w).mp rfl
    obtain ⟨mid, hmid, hrest⟩ | ⟨mid, hmid, hrest⟩ := List.append_eq_append_iff.mp hsplit
    · cases mid with
      | nil => cases List.head_eq_of_cons_eq hrest
      | cons e mid =>
        have he : .unbound n = e := List.head_eq_of_cons_eq hrest
        exact absurd (by rw [hmid, he]; simp) hfirst
    · cases mid with
      | nil => cases List.head_eq_of_cons_eq hrest
      | cons e mid =>
        have he : .bound n w = e := List.head_eq_of_cons_eq hrest
        have hagain : trace = (later ++ .found n (some w) :: first) ++ .bound n w ::
            (mid ++ .unbound n :: before) := by
          rw [htrace, hmid, ← he]
          simp
        exact absurd (by simp [hbound]) ((h.bound hagain).2.2 v)

end FreshMap

end Names

end XGameRuntime.Concurrency
