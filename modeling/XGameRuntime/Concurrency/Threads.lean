import XGameRuntime.Concurrency.Pool

/-! # Frames that know their thread

Every frame of a stack carries the number of the stack, and whatever lies under another frame only waits
for it. A frame that does not wait is then the only one of its thread that can act.
-/

namespace XGameRuntime.Concurrency
set_option autoImplicit false

variable {σ φ χ : Type}

section Named
variable (thread : φ → ℕ) (waits : φ → Prop) (count : σ → ℕ)

structure Named (c : Config σ φ) : Prop where
  all : count c.shared = c.threads.length
  own : ∀ (i : ℕ) (k : List φ), c.threads[i]? = some k → ∀ f ∈ k, thread f = i
  below : ∀ k ∈ c.threads, ∀ f ∈ k.tail, waits f

/-- A step stays on its thread, and numbers those that it spawns. -/
structure NamedStep (s : σ) (f : φ) (o : Outcome σ φ) : Prop where
  own : ∀ g ∈ o.push, thread g = thread f
  below : ∀ g ∈ o.push.tail, waits g
  all : count o.shared = count s + o.spawn.length
  spawned : ∀ (j : ℕ) (k : List φ), o.spawn[j]? = some k →
    (∀ g ∈ k, thread g = count s + j) ∧ ∀ g ∈ k.tail, waits g

end Named

section Rules
variable {thread : φ → ℕ} {waits : φ → Prop} {count : σ → ℕ} {M : Machine σ φ χ} {G : Guard σ φ χ}
  {c₀ c : Config σ φ}

theorem mem_tail_append {l k : List φ} {f : φ} (h : f ∈ (l ++ k).tail) : f ∈ l.tail ∨ f ∈ k := by
  cases l with
  | nil => exact .inr (List.mem_of_mem_tail h)
  | cons g l => exact List.mem_append.mp h

theorem Named.fire {c' : Config σ φ} {i : ℕ} {x : χ} (h : Named thread waits count c)
    (hstep : ∀ s f o, M.step s f x = some o → NamedStep thread waits count s f o)
    (hf : M.fire c i x = some c') : Named thread waits count c' := by
  obtain ⟨f, k, o, hk, ho, rfl⟩ := fire_cases hf
  have hs := hstep _ _ _ ho
  have hi : i < c.threads.length := (List.getElem?_eq_some_iff.mp hk).1
  have hold := h.own i _ hk
  refine ⟨?_, fun j l hl g hg => ?_, fun l hl g hg => ?_⟩
  · rw [hs.all, h.all, List.length_append, List.length_set]
  · by_cases hj : j < c.threads.length
    · rw [List.getElem?_append_left (by rwa [List.length_set])] at hl
      by_cases hji : i = j
      · subst hji
        rw [List.getElem?_set_self hi, Option.some.injEq] at hl
        subst hl
        rcases List.mem_append.mp hg with hg | hg
        · rw [hs.own g hg]
          exact hold f List.mem_cons_self
        · exact hold g (List.mem_cons_of_mem _ hg)
      · rw [List.getElem?_set_ne hji] at hl
        exact h.own j l hl g hg
    · rw [List.getElem?_append_right (by rw [List.length_set]; omega), List.length_set] at hl
      rw [(hs.spawned _ l hl).1 g hg, h.all]
      omega
  · rcases List.mem_append.mp hl with hl | hl
    · rcases List.mem_or_eq_of_mem_set hl with hl | rfl
      · exact h.below l hl g hg
      · rcases mem_tail_append hg with hg | hg
        · exact hs.below g hg
        · exact h.below _ (List.mem_of_getElem? hk) g hg
    · obtain ⟨j, hj⟩ := List.mem_iff_getElem?.mp hl
      exact (hs.spawned j l hj).2 g hg

theorem Machine.Reaches.named (h : M.Reaches G c₀ c) (h0 : Named thread waits count c₀)
    (hstep : ∀ s f x o, M.step s f x = some o → NamedStep thread waits count s f o) :
    Named thread waits count c := by
  induction h with
  | refl => exact h0
  | tail _ hf ih =>
    obtain ⟨i, x, -, hf⟩ := hf
    exact ih.fire (fun s f o => hstep s f x o) hf

/-- A thread whose frame can run may run it next. -/
theorem Machine.Reaches.next {i : ℕ} {f : φ} {k : List φ} {x : χ} {o : Outcome σ φ}
    (h : M.Reaches anyStep c₀ c) (hk : c.threads[i]? = some (f :: k))
    (hs : M.step c.shared f x = some o) :
    ∃ d, M.Reaches anyStep c₀ d ∧ d.shared = o.shared ∧ d.threads[i]? = some (o.push ++ k) := by
  have hfire : M.fire c i x = some ⟨o.shared, c.threads.set i (o.push ++ k) ++ o.spawn⟩ := by
    unfold Machine.fire
    rw [hk]
    exact Option.map_eq_some_iff.mpr ⟨o, hs, rfl⟩
  have hi : i < c.threads.length := (List.getElem?_eq_some_iff.mp hk).1
  refine ⟨_, h.tail (.of_fire (top_eq hk) trivial hfire), rfl, ?_⟩
  show (c.threads.set i (o.push ++ k) ++ o.spawn)[i]? = _
  rw [List.getElem?_append_left (by rwa [List.length_set]), List.getElem?_set_self hi]

theorem Named.top (h : Named thread waits count c) {i : ℕ} {f : φ} (ht : c.top i = some f) :
    thread f = i := by
  obtain ⟨k, hk, hf⟩ := Option.bind_eq_some_iff.mp ht
  exact h.own i k hk f (List.mem_of_head? hf)

/-- While one frame runs, no other frame of its thread does anything but wait. -/
theorem Named.apart (h : Named thread waits count c) {i : ℕ} {f : φ} (ht : c.top i = some f) :
    ∀ g ∈ c.others i, ¬waits g → thread g ≠ thread f := by
  intro g hg hbusy heq
  rw [h.top ht] at heq
  obtain ⟨k, hk, hgk⟩ := List.mem_flatten.mp (Multiset.mem_coe.mp hg)
  obtain ⟨j, hj⟩ := List.mem_iff_getElem?.mp hk
  have hji : i = j := by
    by_contra hne
    rw [List.getElem?_set_ne hne] at hj
    exact hne (heq.symm.trans (h.own j k hj g hgk))
  subst hji
  obtain ⟨l, hl, -⟩ := Option.bind_eq_some_iff.mp ht
  rw [List.getElem?_set_self (List.getElem?_eq_some_iff.mp hl).1, Option.some.injEq,
    List.getD_eq_getElem?_getD, hl] at hj
  exact hbusy (h.below l (List.mem_of_getElem? hl) g (hj ▸ hgk))

end Rules

end XGameRuntime.Concurrency
