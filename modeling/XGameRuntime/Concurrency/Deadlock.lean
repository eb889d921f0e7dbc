import Mathlib.Logic.Relation
import Mathlib.Order.Minimal
import XGameRuntime.Concurrency.Pool

/-! # Threads that wait for one another

The frame on top of a stack may need what frames of any stack hold, and cannot run before they have
given it up. Threads each of which waits for one of them stay where they are for ever. A thread
that no such knot holds up waits, in the end, for a thread that waits for none.
-/

namespace XGameRuntime.Concurrency
set_option autoImplicit false

variable {σ φ χ ρ : Type}

section Waiting
variable (awaits : σ → φ → ρ → Prop) (holds : φ → ρ → Prop)

/-- The frame that thread `i` would run needs what a frame of thread `j` holds. -/
def Config.WaitsFor (c : Config σ φ) (i j : ℕ) : Prop :=
  ∃ f r k g, c.top i = some f ∧ awaits c.shared f r ∧ c.threads[j]? = some k ∧ g ∈ k ∧ holds g r

/-- Each of these threads waits for one of them. -/
def Config.Knot (c : Config σ φ) (S : Set ℕ) : Prop :=
  ∀ i ∈ S, ∃ j ∈ S, c.WaitsFor awaits holds i j

/-- Under `I`, a frame does not run while something that it needs is held, and it goes on needing it
while other frames run. -/
structure Machine.Waits (M : Machine σ φ χ) (I : σ → Multiset φ → Prop) : Prop where
  blocked : ∀ {s : σ} {f g : φ} {R : Multiset φ} {r : ρ}, I s (f ::ₘ R) → awaits s f r →
    g ∈ f ::ₘ R → holds g r → ∀ x, M.step s f x = none
  stays : ∀ {s : σ} {f g : φ} {r : ρ} {x : χ} {o : Outcome σ φ}, awaits s f r →
    M.step s g x = some o → awaits o.shared f r

end Waiting

theorem mem_frames_iff {c : Config σ φ} {f : φ} :
    f ∈ c.frames ↔ ∃ (i : ℕ) (k : List φ), c.threads[i]? = some k ∧ f ∈ k := by
  constructor
  · intro h
    obtain ⟨k, hk, hf⟩ := List.mem_flatten.mp (Multiset.mem_coe.mp h)
    obtain ⟨i, hi⟩ := List.mem_iff_getElem?.mp hk
    exact ⟨i, k, hi, hf⟩
  · rintro ⟨i, k, hi, hf⟩
    exact Multiset.mem_coe.mpr (List.mem_flatten.mpr ⟨k, List.mem_of_getElem? hi, hf⟩)

/-- A step leaves the stacks of the other threads alone. -/
theorem fire_other {M : Machine σ φ χ} {c c' : Config σ φ} {i j : ℕ} {x : χ} {k : List φ}
    (h : M.fire c i x = some c') (hij : i ≠ j) (hk : c.threads[j]? = some k) :
    c'.threads[j]? = some k := by
  obtain ⟨f, l, o, -, -, rfl⟩ := fire_cases h
  have hj : j < c.threads.length := (List.getElem?_eq_some_iff.mp hk).1
  show (c.threads.set i (o.push ++ l) ++ o.spawn)[j]? = some k
  rw [List.getElem?_append_left (by rwa [List.length_set]), List.getElem?_set_ne hij, hk]

section Knots
variable {awaits : σ → φ → ρ → Prop} {holds : φ → ρ → Prop} {M : Machine σ φ χ} {G : Guard σ φ χ}
  {I : σ → Multiset φ → Prop} {c c' : Config σ φ} {i j : ℕ} {S : Set ℕ}

theorem Config.WaitsFor.blocked (hM : M.Waits awaits holds I) (hI : I c.shared c.frames)
    (h : c.WaitsFor awaits holds i j) (x : χ) : M.fire c i x = none := by
  obtain ⟨f, r, k, g, htop, hneed, hk, hg, hheld⟩ := h
  have hmem : g ∈ c.frames := mem_frames_iff.mpr ⟨j, k, hk, hg⟩
  rw [frames_eq htop] at hI hmem
  have hstep := hM.blocked hI hneed hmem hheld x
  obtain ⟨l, hl, hf⟩ := Option.bind_eq_some_iff.mp htop
  cases l with
  | nil => cases hf
  | cons f' l =>
    cases hf
    unfold Machine.fire
    rw [hl]
    exact Option.map_eq_none_iff.mpr hstep

theorem Config.WaitsFor.lt_length (h : c.WaitsFor awaits holds i j) : i < c.threads.length := by
  obtain ⟨f, r, k, g, htop, -⟩ := h
  obtain ⟨l, hl, -⟩ := Option.bind_eq_some_iff.mp htop
  exact (List.getElem?_eq_some_iff.mp hl).1

/-- A thread goes on waiting for another one while neither of them runs. -/
theorem Config.WaitsFor.stays (hM : M.Waits awaits holds I) {l : ℕ} {x : χ}
    (hf : M.fire c l x = some c') (hi : l ≠ i) (hj : l ≠ j) (h : c.WaitsFor awaits holds i j) :
    c'.WaitsFor awaits holds i j := by
  obtain ⟨f, r, k, g, htop, hneed, hk, hg, hheld⟩ := h
  obtain ⟨stack, hstack, hhead⟩ := Option.bind_eq_some_iff.mp htop
  obtain ⟨f', o, -, hs, hshared, -⟩ := fire_frames hf
  refine ⟨f, r, k, g, ?_, hshared ▸ hM.stays hneed hs, fire_other hf hj hk, hg, hheld⟩
  exact Option.bind_eq_some_iff.mpr ⟨stack, fire_other hf hi hstack, hhead⟩

theorem Config.Knot.fire (hM : M.Waits awaits holds I) (hI : I c.shared c.frames)
    (hS : c.Knot awaits holds S) {l : ℕ} {x : χ} (hf : M.fire c l x = some c') :
    c'.Knot awaits holds S ∧ ∀ i ∈ S, c'.threads[i]? = c.threads[i]? := by
  have hl : ∀ i ∈ S, l ≠ i := by
    rintro i hi rfl
    obtain ⟨j, -, hwait⟩ := hS l hi
    rw [hwait.blocked hM hI x] at hf
    cases hf
  refine ⟨fun i hi => ?_, fun i hi => ?_⟩
  · obtain ⟨j, hj, hwait⟩ := hS i hi
    exact ⟨j, hj, hwait.stays hM hf (hl i hi) (hl j hj)⟩
  · obtain ⟨j, -, hwait⟩ := hS i hi
    have hk := List.getElem?_eq_getElem hwait.lt_length
    rw [hk, fire_other hf (hl i hi) hk]

/-- The threads of a knot never run again. -/
theorem Config.Knot.reaches (hM : M.Waits awaits holds I)
    (hI : ∀ d, M.Reaches G c d → I d.shared d.frames) (hS : c.Knot awaits holds S)
    (h : M.Reaches G c c') :
    c'.Knot awaits holds S ∧ ∀ i ∈ S, c'.threads[i]? = c.threads[i]? := by
  induction h with
  | refl => exact ⟨hS, fun _ _ => rfl⟩
  | @tail b d hcb hbd ih =>
    obtain ⟨hknot, hsame⟩ := ih
    obtain ⟨l, x, -, hf⟩ := hbd
    obtain ⟨hknot', hsame'⟩ := hknot.fire hM (hI b hcb) hf
    exact ⟨hknot', fun i hi => (hsame' i hi).trans (hsame i hi)⟩

/-- Either a thread is in a knot, or whoever it waits for waits in the end for a thread that waits
for none. -/
theorem Config.knot_or_free (awaits : σ → φ → ρ → Prop) (holds : φ → ρ → Prop) (c : Config σ φ)
    (i : ℕ) :
    (∃ S : Set ℕ, i ∈ S ∧ c.Knot awaits holds S) ∨
      ∃ j, Relation.ReflTransGen (c.WaitsFor awaits holds) i j ∧
        ∀ l, ¬ c.WaitsFor awaits holds j l := by
  by_cases hacc : Acc (fun a b => c.WaitsFor awaits holds b a) i
  · right
    induction hacc with
    | intro i _ ih =>
      by_cases hwait : ∃ l, c.WaitsFor awaits holds i l
      · obtain ⟨l, hl⟩ := hwait
        obtain ⟨j, hj, hfree⟩ := ih l hl
        exact ⟨j, .head hl hj, hfree⟩
      · exact ⟨i, .refl, not_exists.mp hwait⟩
  · refine .inl ⟨{i | ¬ Acc (fun a b => c.WaitsFor awaits holds b a) i}, hacc, fun j hj => ?_⟩
    by_contra hnone
    refine hj (Acc.intro j fun l hl => ?_)
    by_contra hl'
    exact hnone ⟨l, hl', hl⟩

/-- Where whoever is waited for has a lower rank than those that wait for it, there is no knot. -/
theorem Config.Knot.eq_empty (rank : ℕ → ℕ)
    (hrank : ∀ i j, c.WaitsFor awaits holds i j → rank j < rank i)
    (hS : c.Knot awaits holds S) : S = ∅ := by
  by_contra hne
  obtain ⟨i, hi, hmin⟩ := exists_minimalFor_of_wellFoundedLT (· ∈ S) rank
    (Set.nonempty_iff_ne_empty.mpr hne)
  obtain ⟨j, hj, hwait⟩ := hS i hi
  have hlt := hrank i j hwait
  exact absurd (hmin hj hlt.le) (Nat.not_le.mpr hlt)

end Knots

/-! ## What the frames of a stack have to do with each other -/

/-- What a step leaves on a stack may lie on whatever its frame lay on. -/
structure Outcome.Ordered (above : φ → φ → Prop) (f : φ) (o : Outcome σ φ) : Prop where
  push : o.push.Pairwise above
  passes : ∀ g ∈ o.push, ∀ h, above f h → above g h
  spawn : ∀ k ∈ o.spawn, k.Pairwise above

/-- The rule for a relation between the frames of a stack and those below them. -/
theorem Machine.Reaches.ordered {M : Machine σ φ χ} {G : Guard σ φ χ} {c₀ c : Config σ φ}
    {above : φ → φ → Prop} (h : M.Reaches G c₀ c) (h0 : ∀ k ∈ c₀.threads, k.Pairwise above)
    (hstep : ∀ s f x o, M.step s f x = some o → o.Ordered above f) :
    ∀ k ∈ c.threads, k.Pairwise above := by
  refine h.stacks (P := fun _ k => k.Pairwise above) (J := fun _ _ => True) (fun _ _ => trivial) h0
    (fun _ _ _ _ _ _ hk => hk) ?_
  intro s f R k x o _ _ hk hs
  obtain ⟨hf, hk⟩ := List.pairwise_cons.mp hk
  have ho := hstep s f x o hs
  refine ⟨List.pairwise_append.mpr ⟨ho.push, hk, fun g hg h' hh' => ?_⟩, ho.spawn⟩
  exact ho.passes g hg h' (hf h' hh')

end XGameRuntime.Concurrency
