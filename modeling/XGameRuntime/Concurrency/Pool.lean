import Mathlib.Algebra.GroupWithZero.Nat
import Mathlib.Algebra.BigOperators.Group.Multiset.Basic
import Mathlib.Algebra.Order.BigOperators.Group.List
import Mathlib.Algebra.Order.Group.Nat

/-! # Pools of threads with explicit stacks

A machine runs the frame on top of one thread's stack: it reads and writes the shared memory,
replaces that frame and may spawn threads. One step is one atomic section of the program, so
the runs of a pool are the interleavings of those sections.

Invariants are stated over the shared memory and the *multiset* of all frames of the pool:
`fire_frames` forgets which stack a frame lies on, which is all that counting arguments need.
`Machine.Reaches.stacks` is the rule for the few facts that do depend on the order inside a stack.
-/

namespace XGameRuntime.Concurrency
set_option autoImplicit false

/-- What one step leaves behind: the memory, the frames that replace the one that ran (the
first is on top), and the stacks of the threads it spawned. -/
structure Outcome (σ φ : Type) where
  shared : σ
  push : List φ
  spawn : List (List φ)

structure Machine (σ φ χ : Type) where
  step : σ → φ → χ → Option (Outcome σ φ)

structure Config (σ φ : Type) where
  shared : σ
  threads : List (List φ)

variable {σ φ χ : Type}

def Outcome.frames (o : Outcome σ φ) : Multiset φ := ↑(o.push ++ o.spawn.flatten)

def Config.frames (c : Config σ φ) : Multiset φ := ↑c.threads.flatten

/-- The frame that thread `i` would run. -/
def Config.top (c : Config σ φ) (i : ℕ) : Option φ := c.threads[i]?.bind List.head?

/-- Every frame of the pool but the one that thread `i` would run. -/
def Config.others (c : Config σ φ) (i : ℕ) : Multiset φ :=
  ↑(c.threads.set i (c.threads.getD i []).tail).flatten

def Machine.fire (M : Machine σ φ χ) (c : Config σ φ) (i : ℕ) (x : χ) : Option (Config σ φ) :=
  match c.threads[i]? with
  | some (f :: k) =>
      (M.step c.shared f x).map fun o => ⟨o.shared, c.threads.set i (o.push ++ k) ++ o.spawn⟩
  | _ => none

/-! ## One step, seen on the multiset of frames -/

theorem flatten_set_perm {α : Type} (l : List (List α)) (i : ℕ) (a b : List α)
    (h : l[i]? = some a) : ((l.set i b).flatten ++ a).Perm (b ++ l.flatten) := by
  induction l generalizing i with
  | nil => simp at h
  | cons x l ih =>
    cases i with
    | zero =>
      simp only [List.getElem?_cons_zero, Option.some.injEq] at h
      subst h
      simp only [List.set_cons_zero, List.flatten_cons, List.append_assoc]
      exact List.Perm.append_left b List.perm_append_comm
    | succ i =>
      have hp := ih i (by simpa using h)
      simp only [List.set_cons_succ, List.flatten_cons, List.append_assoc]
      have h1 := List.Perm.append_left x hp
      have h2 : (x ++ (b ++ l.flatten)).Perm (b ++ (x ++ l.flatten)) := by
        rw [← List.append_assoc, ← List.append_assoc]
        exact List.Perm.append_right _ List.perm_append_comm
      exact h1.trans h2

theorem fire_cases {M : Machine σ φ χ} {c c' : Config σ φ} {i : ℕ} {x : χ}
    (h : M.fire c i x = some c') : ∃ f k o, c.threads[i]? = some (f :: k) ∧
      M.step c.shared f x = some o ∧
      c' = ⟨o.shared, c.threads.set i (o.push ++ k) ++ o.spawn⟩ := by
  unfold Machine.fire at h
  split at h
  · rename_i f k hk
    obtain ⟨o, ho, rfl⟩ := Option.map_eq_some_iff.mp h
    exact ⟨f, k, o, hk, ho, rfl⟩
  · simp at h

theorem top_eq {c : Config σ φ} {i : ℕ} {f : φ} {k : List φ}
    (h : c.threads[i]? = some (f :: k)) : c.top i = some f := by
  simp [Config.top, h]

theorem frames_eq {c : Config σ φ} {i : ℕ} {f : φ} (h : c.top i = some f) :
    c.frames = f ::ₘ c.others i := by
  obtain ⟨stack, hs, hf⟩ := Option.bind_eq_some_iff.mp h
  cases stack with
  | nil => simp at hf
  | cons g k =>
    simp only [List.head?_cons, Option.some.injEq] at hf
    subst hf
    have hp := flatten_set_perm c.threads i (g :: k) k hs
    have hmove : ((c.threads.set i k).flatten ++ g :: k).Perm
        (g :: ((c.threads.set i k).flatten ++ k)) := List.perm_middle
    have hp' : (k ++ (g :: (c.threads.set i k).flatten)).Perm (k ++ c.threads.flatten) :=
      (List.perm_append_comm.trans (by simpa using hmove.symm)).trans hp
    have hq := (List.perm_append_left_iff k).mp hp'
    have ht : c.threads.getD i [] = g :: k := by
      rw [List.getD_eq_getElem?_getD, hs]
      rfl
    unfold Config.frames Config.others
    rw [ht]
    simpa using (Multiset.coe_eq_coe.mpr hq).symm

/-- On its own thread a step replaces the frame that ran by the frames it pushed. -/
theorem fire_thread {M : Machine σ φ χ} {c c' : Config σ φ} {i : ℕ} {x : χ} {f : φ} {k : List φ}
    (hk : c.threads[i]? = some (f :: k)) (h : M.fire c i x = some c') :
    ∃ o, M.step c.shared f x = some o ∧ c'.shared = o.shared ∧
      c'.threads[i]? = some (o.push ++ k) := by
  obtain ⟨f', k', o, hk', ho, rfl⟩ := fire_cases h
  rw [hk, Option.some.injEq, List.cons.injEq] at hk'
  obtain ⟨rfl, rfl⟩ := hk'
  have hi : i < c.threads.length := (List.getElem?_eq_some_iff.mp hk).1
  refine ⟨o, ho, rfl, ?_⟩
  rw [List.getElem?_append_left (by simpa using hi), List.getElem?_set_self hi]

/-- A step replaces the frame that ran by the frames it pushed and spawned. -/
theorem fire_frames {M : Machine σ φ χ} {c c' : Config σ φ} {i : ℕ} {x : χ}
    (h : M.fire c i x = some c') : ∃ f o, c.top i = some f ∧ M.step c.shared f x = some o ∧
      c'.shared = o.shared ∧ c'.frames = o.frames + c.others i := by
  obtain ⟨f, k, o, hk, ho, rfl⟩ := fire_cases h
  refine ⟨f, o, top_eq hk, ho, rfl, ?_⟩
  have ht : c.threads.getD i [] = f :: k := by
    rw [List.getD_eq_getElem?_getD, hk]
    rfl
  have hi : i < c.threads.length := (List.getElem?_eq_some_iff.mp hk).1
  have hp := flatten_set_perm (c.threads.set i k) i k (o.push ++ k) (by simp [hi])
  have hset : (c.threads.set i (o.push ++ k)).flatten.Perm
      (o.push ++ (c.threads.set i k).flatten) := by
    rw [List.set_set, List.append_assoc] at hp
    have h2 : (o.push ++ (k ++ (c.threads.set i k).flatten)).Perm
        ((o.push ++ (c.threads.set i k).flatten) ++ k) := by
      rw [List.append_assoc]
      exact List.Perm.append_left _ List.perm_append_comm
    exact (List.perm_append_right_iff k).mp (hp.trans h2)
  unfold Config.frames Outcome.frames Config.others
  rw [ht]
  simp only [List.tail_cons, List.flatten_append, Multiset.coe_add]
  apply Multiset.coe_eq_coe.mpr
  have h3 := List.Perm.append_right o.spawn.flatten hset
  refine h3.trans ?_
  rw [List.append_assoc, List.append_assoc]
  exact List.Perm.append_left _ List.perm_append_comm

theorem forall_frames {P : φ → Prop} {o : Outcome σ φ} :
    (∀ f ∈ o.frames, P f) ↔ (∀ f ∈ o.push, P f) ∧ ∀ k ∈ o.spawn, ∀ f ∈ k, P f := by
  simp only [Outcome.frames, Multiset.mem_coe, List.forall_mem_append, List.mem_flatten]
  exact and_congr_right fun _ =>
    ⟨fun h k hk f hf => h f ⟨k, hk, hf⟩, fun h f ⟨k, hk, hf⟩ => h k hk f hf⟩

/-! ## Weights -/

section Weight
variable {M : Type} [AddCommMonoid M] (w : φ → M)

/-- The sum of a weight over frames; with a multiset as the weight, all that frames hold. -/
def weight (fs : Multiset φ) : M := (fs.map w).sum

@[simp] theorem weight_zero : weight w 0 = 0 := rfl

@[simp] theorem weight_cons (f : φ) (fs : Multiset φ) :
    weight w (f ::ₘ fs) = w f + weight w fs := by
  simp [weight]

@[simp] theorem weight_add (fs gs : Multiset φ) :
    weight w (fs + gs) = weight w fs + weight w gs := by
  simp [weight]

theorem weight_frames (o : Outcome σ φ) :
    weight w o.frames = (o.push.map w).sum + (o.spawn.map fun k => (k.map w).sum).sum := by
  simp [weight, Outcome.frames, List.sum_flatten, Function.comp_def]

theorem le_weight {w : φ → ℕ} {f : φ} {fs : Multiset φ} (h : f ∈ fs) : w f ≤ weight w fs := by
  obtain ⟨rest, rfl⟩ := Multiset.exists_cons_of_mem h
  rw [weight_cons]
  exact Nat.le_add_right _ _

theorem mem_weight {α : Type} {w : φ → Multiset α} {fs : Multiset φ} {a : α} :
    a ∈ weight w fs ↔ ∃ f ∈ fs, a ∈ w f := by
  induction fs using Multiset.induction_on with
  | empty => simp
  | cons f fs ih => simp [ih]

theorem weight_flatten (l : List (List φ)) :
    weight w (l.flatten : Multiset φ) = (l.map fun k => (k.map w).sum).sum := by
  simp [weight, List.sum_flatten, Function.comp_def]

/-- Where every stack weighs no more than another weight of what is below its top, so do all the
frames: the frame that would run is not needed for it. -/
theorem weight_le_others {v w : φ → ℕ} {c : Config σ φ}
    (h : ∀ k ∈ c.threads, (k.map w).sum ≤ (k.tail.map v).sum) (i : ℕ) :
    weight w c.frames ≤ weight v (c.others i) := by
  have htail : ∀ k : List φ, (k.tail.map v).sum ≤ (k.map v).sum :=
    fun k => ((List.tail_sublist k).map v).sum_le_sum fun _ _ => Nat.zero_le _
  have key : ∀ (l : List (List φ)), (∀ k ∈ l, (k.map w).sum ≤ (k.tail.map v).sum) → ∀ j,
      (l.map fun k => (k.map w).sum).sum ≤
        ((l.set j (l.getD j []).tail).map fun k => (k.map v).sum).sum := by
    intro l
    induction l with
    | nil => exact fun _ _ => Nat.le_refl _
    | cons k l ih =>
      intro hl j
      obtain ⟨hk, hl⟩ := List.forall_mem_cons.mp hl
      cases j with
      | zero =>
        have hrest : (l.map fun k => (k.map w).sum).sum ≤ (l.map fun k => (k.map v).sum).sum :=
          List.sum_le_sum fun k hkl => (hl k hkl).trans (htail k)
        simpa using Nat.add_le_add hk hrest
      | succ j =>
        have hrest := ih hl j
        simpa using Nat.add_le_add (hk.trans (htail k)) hrest
  unfold Config.frames Config.others
  rw [weight_flatten, weight_flatten]
  exact key c.threads h i

theorem weight_eq_zero {fs : Multiset φ} (h : ∀ f ∈ fs, w f = 0) : weight w fs = 0 := by
  rw [weight, Multiset.map_congr rfl h]
  simp

end Weight

/-! ## Runs whose steps meet a condition -/

/-- A condition on a step: the memory before it, the other frames of the pool, the frame that
runs and the choice it makes. -/
abbrev Guard (σ φ χ : Type) := σ → Multiset φ → φ → χ → Prop

/-- The condition that every step meets. -/
def anyStep : Guard σ φ χ := fun _ _ _ _ => True

instance : ∀ (s : σ) (R : Multiset φ) (f : φ) (x : χ), Decidable (anyStep s R f x) :=
  fun _ _ _ _ => inferInstanceAs (Decidable True)

def Machine.Fires (M : Machine σ φ χ) (G : Guard σ φ χ) (c c' : Config σ φ) : Prop :=
  ∃ i x, (∀ f, c.top i = some f → G c.shared (c.others i) f x) ∧ M.fire c i x = some c'

/-- `c` is reached from `c₀` by steps that all meet `G`. -/
inductive Machine.Reaches (M : Machine σ φ χ) (G : Guard σ φ χ) (c₀ : Config σ φ) :
    Config σ φ → Prop where
  | refl : Machine.Reaches M G c₀ c₀
  | tail {b c : Config σ φ} : Machine.Reaches M G c₀ b → M.Fires G b c → Machine.Reaches M G c₀ c

/-- `c` is reached from `c₀` while the frames `k` stay at the bottom of the stack of thread `i`, which
runs only what is above them. -/
inductive Machine.Over (M : Machine σ φ χ) (G : Guard σ φ χ) (i : ℕ) (k : List φ)
    (c₀ : Config σ φ) : Config σ φ → Prop where
  | refl {l : List φ} : c₀.threads[i]? = some (l ++ k) → Machine.Over M G i k c₀ c₀
  | tail {b c : Config σ φ} {l : List φ} : Machine.Over M G i k c₀ b → M.Fires G b c →
      c.threads[i]? = some (l ++ k) → Machine.Over M G i k c₀ c

section Rules
variable {M : Machine σ φ χ} {G : Guard σ φ χ} {c₀ c c' : Config σ φ}

theorem Machine.Fires.cases (h : M.Fires G c c') : ∃ i x f o, c.top i = some f ∧
    c.frames = f ::ₘ c.others i ∧ G c.shared (c.others i) f x ∧ M.step c.shared f x = some o ∧
    c'.shared = o.shared ∧ c'.frames = o.frames + c.others i := by
  obtain ⟨i, x, hG, hf⟩ := h
  obtain ⟨f, o, ht, hs, h1, h2⟩ := fire_frames hf
  exact ⟨i, x, f, o, ht, frames_eq ht, hG f ht, hs, h1, h2⟩

theorem Machine.Fires.of_fire {i : ℕ} {x : χ} {f : φ} (ht : c.top i = some f)
    (hG : G c.shared (c.others i) f x) (h : M.fire c i x = some c') : M.Fires G c c' := by
  refine ⟨i, x, fun g hg => ?_, h⟩
  rw [ht, Option.some.injEq] at hg
  exact hg ▸ hG

theorem Machine.Reaches.trans {c₁ c₂ : Config σ φ} (h1 : M.Reaches G c₀ c₁)
    (h2 : M.Reaches G c₁ c₂) : M.Reaches G c₀ c₂ := by
  induction h2 with
  | refl => exact h1
  | tail _ hf ih => exact .tail ih hf

theorem Machine.Fires.weaken {G' : Guard σ φ χ} (hG : ∀ s R f x, G s R f x → G' s R f x)
    (h : M.Fires G c c') : M.Fires G' c c' := by
  obtain ⟨i, x, hg, hf⟩ := h
  exact ⟨i, x, fun f ht => hG _ _ _ _ (hg f ht), hf⟩

theorem Machine.Reaches.weaken {G' : Guard σ φ χ} (hG : ∀ s R f x, G s R f x → G' s R f x)
    (h : M.Reaches G c₀ c) : M.Reaches G' c₀ c := by
  induction h with
  | refl => exact .refl
  | tail _ hf ih => exact .tail ih (hf.weaken hG)

/-- The invariant rule: what holds at the start and is preserved by every step that meets the
condition holds in every configuration reached. The step may use what is already known of the
frame that runs and of those that do not. -/
theorem Machine.Reaches.invariant_top {I : σ → Multiset φ → Prop} {J : σ → φ → Multiset φ → Prop}
    (h : M.Reaches G c₀ c)
    (hJ : ∀ c i f, M.Reaches G c₀ c → c.top i = some f → J c.shared f (c.others i))
    (h0 : I c₀.shared c₀.frames)
    (hstep : ∀ s f R x o, G s R f x → J s f R → I s (f ::ₘ R) → M.step s f x = some o →
      I o.shared (o.frames + R)) :
    I c.shared c.frames := by
  induction h with
  | refl => exact h0
  | @tail b d hab hbd ih =>
    obtain ⟨i, x, f, o, ht, hfr, hg, hs, h1, h2⟩ := hbd.cases
    rw [h1, h2]
    exact hstep b.shared f (b.others i) x o hg (hJ b i f hab ht) (hfr ▸ ih) hs

/-- The invariant rule, where the step may use an invariant `J` already established. -/
theorem Machine.Reaches.invariant {I J : σ → Multiset φ → Prop} (h : M.Reaches G c₀ c)
    (hJ : ∀ c, M.Reaches G c₀ c → J c.shared c.frames) (h0 : I c₀.shared c₀.frames)
    (hstep : ∀ s f R x o, G s R f x → J s (f ::ₘ R) → I s (f ::ₘ R) →
      M.step s f x = some o → I o.shared (o.frames + R)) :
    I c.shared c.frames :=
  h.invariant_top (J := fun s f R => J s (f ::ₘ R))
    (fun c _ _ hr ht => frames_eq ht ▸ hJ c hr) h0 hstep

/-- The invariant rule without an earlier invariant. -/
theorem Machine.Reaches.preserved {I : σ → Multiset φ → Prop} (h : M.Reaches G c₀ c)
    (h0 : I c₀.shared c₀.frames)
    (hstep : ∀ s f R x o, G s R f x → I s (f ::ₘ R) → M.step s f x = some o →
      I o.shared (o.frames + R)) :
    I c.shared c.frames :=
  h.invariant (J := fun _ _ => True) (fun _ _ => trivial) h0
    (fun s f R x o hg _ hi hs => hstep s f R x o hg hi hs)

/-- The rule for facts about the order inside a stack: a step keeps them for the stacks that do
not move, and establishes them for those that it changes. -/
theorem Machine.Reaches.stacks {P : σ → List φ → Prop} {J : σ → Multiset φ → Prop}
    (h : M.Reaches G c₀ c) (hJ : ∀ c, M.Reaches G c₀ c → J c.shared c.frames)
    (h0 : ∀ k ∈ c₀.threads, P c₀.shared k)
    (hkeep : ∀ s f x o k, M.step s f x = some o → P s k → P o.shared k)
    (hstep : ∀ s f R k x o, G s R f x → J s (f ::ₘ R) → P s (f :: k) → M.step s f x = some o →
      P o.shared (o.push ++ k) ∧ ∀ t ∈ o.spawn, P o.shared t) :
    ∀ k ∈ c.threads, P c.shared k := by
  induction h with
  | refl => exact h0
  | @tail b d hab hbd ih =>
    obtain ⟨i, x, hg, hf⟩ := hbd
    obtain ⟨f, k, o, hk, ho, rfl⟩ := fire_cases hf
    have hj := hJ b hab
    rw [frames_eq (top_eq hk)] at hj
    have hp := hstep b.shared f (b.others i) k x o (hg f (top_eq hk)) hj
      (ih _ (List.mem_of_getElem? hk)) ho
    intro t ht
    rcases List.mem_append.mp ht with ht | ht
    · rcases List.mem_or_eq_of_mem_set ht with ht | rfl
      · exact hkeep b.shared f x o t ho (ih t ht)
      · exact hp.1
    · exact hp.2 t ht

/-- A stack that is no longer there has gone by running the frame on its top. -/
theorem Machine.Reaches.popped {i : ℕ} {f : φ} {k : List φ} (h : M.Reaches G c c')
    (hk : c.threads[i]? = some (f :: k)) (hp : c'.threads[i]? ≠ some (f :: k)) :
    ∃ d x d', M.Reaches G c d ∧ d.threads[i]? = some (f :: k) ∧ G d.shared (d.others i) f x ∧
      M.fire d i x = some d' ∧ M.Reaches G d' c' := by
  induction h with
  | refl => exact absurd hk hp
  | @tail b c' hcb hbc ih =>
    by_cases hb : b.threads[i]? = some (f :: k)
    · obtain ⟨j, x, hg, hf⟩ := hbc
      obtain ⟨g, l, o, hl, ho, rfl⟩ := fire_cases hf
      by_cases hij : j = i
      · subst hij
        exact ⟨b, x, _, hcb, hb, hg f (top_eq hb), hf, .refl⟩
      · refine absurd ?_ hp
        have hi : i < (b.threads.set j (o.push ++ l)).length := by
          rw [List.length_set]
          exact (List.getElem?_eq_some_iff.mp hb).1
        rw [List.getElem?_append_left hi, List.getElem?_set_ne hij, hb]
    · obtain ⟨d, x, d', hcd, hd, hg, hf, hdb⟩ := ih hb
      exact ⟨d, x, d', hcd, hd, hg, hf, .tail hdb hbc⟩

theorem Machine.Over.reaches {i : ℕ} {k : List φ} (h : M.Over G i k c c') : M.Reaches G c c' := by
  induction h with
  | refl => exact .refl
  | tail _ hf _ ih => exact .tail ih hf

theorem Machine.Over.stack {i : ℕ} {k : List φ} (h : M.Over G i k c c') :
    ∃ l, c'.threads[i]? = some (l ++ k) := by
  cases h with
  | refl hk => exact ⟨_, hk⟩
  | tail _ _ hk => exact ⟨_, hk⟩

/-- A step keeps a frame where it is unless it runs it. -/
theorem fire_keeps {i j : ℕ} {x : χ} {f : φ} {k l : List φ} (hk : c.threads[i]? = some (l ++ f :: k))
    (h : M.fire c j x = some c') : (∃ l', c'.threads[i]? = some (l' ++ f :: k)) ∨
      j = i ∧ c.threads[i]? = some (f :: k) := by
  obtain ⟨g, k', o, hj, ho, rfl⟩ := fire_cases h
  by_cases hij : j = i
  · subst hij
    cases l with
    | nil => exact .inr ⟨rfl, hk⟩
    | cons g' l =>
      rw [hk, Option.some.injEq, List.cons_append, List.cons.injEq] at hj
      obtain ⟨rfl, rfl⟩ := hj
      have hlt : j < c.threads.length := (List.getElem?_eq_some_iff.mp hk).1
      refine .inl ⟨o.push ++ l, ?_⟩
      rw [List.getElem?_append_left (by simpa using hlt), List.getElem?_set_self hlt,
        List.append_assoc]
  · have hlt : i < (c.threads.set j (o.push ++ k')).length := by
      rw [List.length_set]
      exact (List.getElem?_eq_some_iff.mp hk).1
    refine .inl ⟨l, ?_⟩
    rw [List.getElem?_append_left hlt, List.getElem?_set_ne hij, hk]

/-- A frame stays where it is until what is above it has gone and it runs itself. -/
theorem Machine.Reaches.over_or_popped {i : ℕ} {f : φ} {k l : List φ} (h : M.Reaches G c c')
    (hk : c.threads[i]? = some (l ++ f :: k)) : M.Over G i (f :: k) c c' ∨
      ∃ d x d', M.Over G i (f :: k) c d ∧ d.threads[i]? = some (f :: k) ∧
        G d.shared (d.others i) f x ∧ M.fire d i x = some d' ∧ M.Reaches G d' c' := by
  induction h with
  | refl => exact .inl (.refl hk)
  | @tail b c' hcb hbc ih =>
    rcases ih with hover | ⟨d, x, d', hover, hd, hg, hf, hdb⟩
    · obtain ⟨l', hb⟩ := hover.stack
      obtain ⟨j, x, hg, hf⟩ := hbc
      rcases fire_keeps hb hf with ⟨l'', hc'⟩ | ⟨rfl, htop⟩
      · exact .inl (.tail hover ⟨j, x, hg, hf⟩ hc')
      · exact .inr ⟨b, x, c', hover, htop, hg f (top_eq htop), hf, .refl⟩
    · exact .inr ⟨d, x, d', hover, hd, hg, hf, .tail hdb hbc⟩

end Rules

/-! ## Running a schedule -/

/-- Run a schedule, a list of threads and choices, checking `G` at each step. -/
def Machine.run (M : Machine σ φ χ) (G : Guard σ φ χ) [∀ s R f x, Decidable (G s R f x)] :
    List (ℕ × χ) → Config σ φ → Option (Config σ φ)
  | [], c => some c
  | (i, x) :: schedule, c =>
      match c.top i with
      | some f => if G c.shared (c.others i) f x then (M.fire c i x).bind (M.run G schedule) else none
      | none => none

theorem run_cons {M : Machine σ φ χ} {G : Guard σ φ χ} [∀ s R f x, Decidable (G s R f x)] {i : ℕ}
    {x : χ} {schedule : List (ℕ × χ)} {c c' : Config σ φ}
    (h : M.run G ((i, x) :: schedule) c = some c') :
    ∃ f d, c.top i = some f ∧ G c.shared (c.others i) f x ∧ M.fire c i x = some d ∧
      M.run G schedule d = some c' := by
  simp only [Machine.run] at h
  split at h
  · rename_i f hf
    split at h
    · rename_i hg
      obtain ⟨d, hd, hr⟩ := Option.bind_eq_some_iff.mp h
      exact ⟨f, d, hf, hg, hd, hr⟩
    · simp at h
  · simp at h

theorem Machine.Reaches.of_run {M : Machine σ φ χ} {G : Guard σ φ χ} [∀ s R f x, Decidable (G s R f x)]
    {schedule : List (ℕ × χ)} {c c' : Config σ φ} (h : M.run G schedule c = some c') :
    M.Reaches G c c' := by
  induction schedule generalizing c with
  | nil =>
    simp only [Machine.run, Option.some.injEq] at h
    subst h
    exact .refl
  | cons step schedule ih =>
    obtain ⟨f, d, hf, hg, hd, hr⟩ := run_cons h
    exact (Machine.Reaches.tail .refl (.of_fire hf hg hd)).trans (ih hr)

/-- Running a schedule and looking at the configuration it ends in. -/
theorem Machine.Reaches.of_run_any {M : Machine σ φ χ} {G : Guard σ φ χ}
    [∀ s R f x, Decidable (G s R f x)] {schedule : List (ℕ × χ)} {c : Config σ φ}
    {check : Config σ φ → Bool} (h : (M.run G schedule c).any check = true) :
    ∃ c', M.Reaches G c c' ∧ check c' = true := by
  obtain ⟨c', hc, hx⟩ := (Option.any_eq_true _ _).mp h
  exact ⟨c', .of_run hc, hx⟩

/-! ## History variables -/

/-- `c` is reached from `c₀` by steps that meet `G`, and `a` is what has been noted down on the way. -/
inductive Machine.Records {η : Type} (M : Machine σ φ χ) (G : Guard σ φ χ) (note : σ → σ → η → η)
    (c₀ : Config σ φ) (a₀ : η) : Config σ φ → η → Prop where
  | refl : Machine.Records M G note c₀ a₀ c₀ a₀
  | tail {b c : Config σ φ} {a : η} : Machine.Records M G note c₀ a₀ b a → M.Fires G b c →
      Machine.Records M G note c₀ a₀ c (note b.shared c.shared a)

theorem Machine.Records.reaches {η : Type} {M : Machine σ φ χ} {G : Guard σ φ χ}
    {note : σ → σ → η → η} {c₀ c : Config σ φ} {a₀ a : η} (h : M.Records G note c₀ a₀ c a) :
    M.Reaches G c₀ c := by
  induction h with
  | refl => exact .refl
  | tail _ hf ih => exact .tail ih hf

/-- Every run can be noted down. -/
theorem Machine.Reaches.records {η : Type} {M : Machine σ φ χ} {G : Guard σ φ χ}
    {c₀ c : Config σ φ} (h : M.Reaches G c₀ c) (note : σ → σ → η → η) (a₀ : η) :
    ∃ a, M.Records G note c₀ a₀ c a := by
  induction h with
  | refl => exact ⟨a₀, .refl⟩
  | @tail b c _ hf ih =>
    obtain ⟨a, ha⟩ := ih
    exact ⟨_, .tail ha hf⟩

/-- Run a schedule and note it down. -/
def Machine.runNoting {η : Type} (M : Machine σ φ χ) (G : Guard σ φ χ)
    [∀ s R f x, Decidable (G s R f x)] (note : σ → σ → η → η) :
    List (ℕ × χ) → Config σ φ → η → Option (Config σ φ × η)
  | [], c, a => some (c, a)
  | step :: schedule, c, a =>
      (M.run G [step] c).bind fun d => M.runNoting G note schedule d (note c.shared d.shared a)

theorem Machine.Records.of_run {η : Type} {M : Machine σ φ χ} {G : Guard σ φ χ}
    [∀ s R f x, Decidable (G s R f x)] {note : σ → σ → η → η} {schedule : List (ℕ × χ)}
    {c₀ c c' : Config σ φ} {a₀ a a' : η} (h0 : M.Records G note c₀ a₀ c a)
    (h : M.runNoting G note schedule c a = some (c', a')) : M.Records G note c₀ a₀ c' a' := by
  induction schedule generalizing c a with
  | nil =>
    simp only [Machine.runNoting, Option.some.injEq, Prod.mk.injEq] at h
    obtain ⟨rfl, rfl⟩ := h
    exact h0
  | cons step schedule ih =>
    obtain ⟨d, hd, hrest⟩ := Option.bind_eq_some_iff.mp h
    obtain ⟨f, e, htop, hg, hfire, he⟩ := run_cons hd
    simp only [Machine.run, Option.some.injEq] at he
    subst he
    exact ih (.tail h0 (.of_fire htop hg hfire)) hrest

/-- Running a schedule and looking at where it ends and what it has noted. -/
theorem Machine.Records.of_run_any {η : Type} {M : Machine σ φ χ} {G : Guard σ φ χ}
    [∀ s R f x, Decidable (G s R f x)] {note : σ → σ → η → η} {schedule : List (ℕ × χ)}
    {c : Config σ φ} {a : η} {check : Config σ φ × η → Bool}
    (h : (M.runNoting G note schedule c a).any check = true) :
    ∃ c' a', M.Records G note c a c' a' ∧ check (c', a') = true := by
  obtain ⟨⟨c', a'⟩, hc, hx⟩ := (Option.any_eq_true _ _).mp h
  exact ⟨c', a', .of_run .refl hc, hx⟩

end XGameRuntime.Concurrency
