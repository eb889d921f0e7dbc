import Mathlib.Data.List.Perm.Subperm
import XGameRuntime.Concurrency.Pool

/-! # Registries that are notified under their lock

A registry hands out a token for each entry. A notification takes the lock, calls every entry in
turn and only then gives the lock back, while entries come and go under the same lock. What a
notification has still to call is kept in a frame below the call, so at most one such frame exists,
and it exists exactly while the registry is locked.
-/

namespace XGameRuntime.Concurrency
set_option autoImplicit false

/-! ## The registry and its notifications -/

structure Registrations (α : Type) where
  entries : List α := []
  next : ℕ := 1
  locked : Bool := false

/-- How the frame of a notification is read: the entries that it has `left` to call, the frame with
another such list, and the code that it runs for an entry. -/
structure Notifier (φ α : Type) where
  left : φ → Option (List α)
  resume : φ → List α → φ
  calls : φ → α → List φ
  left_resume : ∀ f l l', left f = some l → left (resume f l') = some l'
  resume_left : ∀ f l, left f = some l → resume f l = f
  resume_resume : ∀ f l l', resume (resume f l) l' = resume f l'
  calls_resume : ∀ f l a, calls (resume f l) a = calls f a
  left_calls : ∀ f a, ∀ g ∈ calls f a, left g = none

section Protocol
variable {σ φ χ α : Type} (token : α → ℕ)

/-- What is done to a registry outside notifications. -/
inductive Registrations.Changes (r : Registrations α) : Registrations α → Prop where
  | refl : Registrations.Changes r r
  | register {s : Registrations α} {a : α} (h : Registrations.Changes r s) (hs : s.locked = false)
      (ha : token a = s.next) :
      Registrations.Changes r { s with entries := s.entries ++ [a], next := s.next + 1 }
  | unregister {s : Registrations α} (t : ℕ) (h : Registrations.Changes r s)
      (hs : s.locked = false) :
      Registrations.Changes r { s with entries := s.entries.filter fun a => decide (token a ≠ t) }

/-- The steps that the protocol allows: the frame `f` runs and leaves `o`, and the registry goes from
`r` to the last argument. -/
inductive NotifyStep (N : Notifier φ α) (r : Registrations α) (f : φ) (o : Outcome σ φ) :
    Registrations α → Prop where
  | outside {r' : Registrations α} (hf : N.left f = none) (ho : ∀ g ∈ o.frames, N.left g = none)
      (h : r.Changes token r') : NotifyStep N r f o r'
  | lock {g : φ} (hf : N.left f = none) (hr : r.locked = false) (hg : N.left g = some r.entries)
      (hpush : o.push = [g]) (hspawn : o.spawn = []) : NotifyStep N r f o { r with locked := true }
  | call {l l' : List α} {a : α} (hf : N.left f = some l) (hl : l.Perm (a :: l'))
      (hpush : o.push = N.calls f a ++ [N.resume f l']) (hspawn : o.spawn = []) :
      NotifyStep N r f o r
  | unlock (hf : N.left f = some []) (ho : ∀ g ∈ o.frames, N.left g = none) :
      NotifyStep N r f o { r with locked := false }

/-- A machine that treats the registry it shows as `view` by the protocol, and that can go on with a
notification whenever its frame is on top of a stack. -/
structure Machine.Notifies (M : Machine σ φ χ) (N : Notifier φ α) (view : σ → Registrations α) :
    Prop where
  step : ∀ {s : σ} {f : φ} {x : χ} {o : Outcome σ φ}, M.step s f x = some o →
    NotifyStep token N (view s) f o (view o.shared)
  enabled : ∀ {s : σ} {f : φ} {l : List α}, N.left f = some l → (view s).locked = true →
    ∃ x o, M.step s f x = some o

/-! ## What holds of every run -/

/-- Whether the frame is that of a notification. -/
def Notifier.inside (N : Notifier φ α) (f : φ) : ℕ := if (N.left f).isSome then 1 else 0

/-- The lock is held by one notification or by none; tokens are handed out once; a notification calls
no one but the entries, which stay as they are. -/
structure Registrations.Kept (N : Notifier φ α) (r : Registrations α) (fs : Multiset φ) : Prop where
  exclusive : weight N.inside fs = if r.locked then 1 else 0
  nodup : (r.entries.map token).Nodup
  fresh : ∀ a ∈ r.entries, token a < r.next
  left : ∀ f ∈ fs, ∀ l, N.left f = some l → l.Subperm r.entries

/-- The entry with this token is not there, and no notification will call it. -/
structure Registrations.Gone (N : Notifier φ α) (t : ℕ) (r : Registrations α) (fs : Multiset φ) :
    Prop where
  fresh : t < r.next
  entries : ∀ a ∈ r.entries, token a ≠ t
  left : ∀ f ∈ fs, ∀ l, N.left f = some l → ∀ a ∈ l, token a ≠ t

section Frames
variable {N : Notifier φ α} {f : φ} {fs : Multiset φ} {r : Registrations α} {token}

theorem Notifier.inside_none (h : N.left f = none) : N.inside f = 0 := by
  simp [Notifier.inside, h]

theorem Notifier.inside_some {l : List α} (h : N.left f = some l) : N.inside f = 1 := by
  simp [Notifier.inside, h]

theorem Notifier.weight_inside (h : ∀ g ∈ fs, N.left g = none) : weight N.inside fs = 0 :=
  weight_eq_zero _ fun g hg => N.inside_none (h g hg)

theorem Notifier.none_inside (h : weight N.inside fs = 0) : ∀ g ∈ fs, N.left g = none := by
  intro g hg
  cases hl : N.left g with
  | none => rfl
  | some l =>
    have hle := le_weight (w := N.inside) hg
    rw [N.inside_some hl] at hle
    omega

theorem Notifier.weight_call {a : α} {l : List α} (h : N.left f = some l) (l' : List α) :
    weight N.inside (↑(N.calls f a ++ [N.resume f l']) : Multiset φ) = 1 := by
  have hcalls : weight N.inside (N.calls f a : Multiset φ) = 0 :=
    N.weight_inside fun g hg => N.left_calls f a g (Multiset.mem_coe.mp hg)
  rw [← Multiset.coe_add, weight_add, hcalls, Multiset.coe_singleton]
  simpa [weight] using N.inside_some (N.left_resume f l l' h)

theorem Registrations.Kept.idle (h : r.Kept token N fs) (hr : r.locked = false) :
    ∀ g ∈ fs, N.left g = none := by
  have hw := h.exclusive
  rw [hr] at hw
  exact N.none_inside hw

theorem Registrations.Kept.locked (h : r.Kept token N fs) (hf : f ∈ fs) {l : List α}
    (hl : N.left f = some l) : r.locked = true := by
  cases hr : r.locked with
  | true => rfl
  | false => exact absurd (h.idle hr f hf) (by simp [hl])

/-- What is locked stays as it is. -/
theorem Registrations.Changes.of_locked {r' : Registrations α} (h : r.Changes token r')
    (hr : r.locked = true) : r' = r := by
  induction h with
  | refl => rfl
  | register _ hs _ ih | unregister _ _ hs ih =>
    rw [ih, hr] at hs
    cases hs

theorem Registrations.Changes.trans {r' r'' : Registrations α} (h : r.Changes token r')
    (h' : r'.Changes token r'') : r.Changes token r'' := by
  induction h' with
  | refl => exact h
  | register _ hs ha ih => exact .register ih hs ha
  | unregister t _ hs ih => exact .unregister t ih hs

theorem Registrations.Changes.locked {r' : Registrations α} (h : r.Changes token r') :
    r'.locked = r.locked := by
  induction h with
  | refl => rfl
  | register _ _ _ ih | unregister _ _ _ ih => exact ih

theorem Registrations.Changes.nodup {r' : Registrations α} (h : r.Changes token r')
    (hr : (r.entries.map token).Nodup ∧ ∀ a ∈ r.entries, token a < r.next) :
    (r'.entries.map token).Nodup ∧ ∀ a ∈ r'.entries, token a < r'.next := by
  induction h with
  | refl => exact hr
  | @register s a _ _ ha ih =>
    obtain ⟨hn, hlt⟩ := ih
    constructor
    · rw [List.map_append, List.map_singleton]
      refine hn.append (List.nodup_singleton _) fun t ht hta => ?_
      obtain ⟨b, hb, rfl⟩ := List.mem_map.mp ht
      have hb' := hlt b hb
      rw [List.mem_singleton.mp hta, ha] at hb'
      exact Nat.lt_irrefl _ hb'
    · intro b hb
      rcases List.mem_append.mp hb with hb | hb
      · exact Nat.lt_succ_of_lt (hlt b hb)
      · rw [List.mem_singleton.mp hb, ha]
        exact Nat.lt_succ_self _
  | unregister t _ _ ih =>
    exact ⟨ih.1.sublist (List.filter_sublist.map _), fun b hb => ih.2 b (List.mem_of_mem_filter hb)⟩

/-- An entry that is not there does not come back: its token has been handed out. -/
theorem Registrations.Changes.gone {r' : Registrations α} {t : ℕ} (h : r.Changes token r')
    (hr : t < r.next ∧ ∀ a ∈ r.entries, token a ≠ t) :
    t < r'.next ∧ ∀ a ∈ r'.entries, token a ≠ t := by
  induction h with
  | refl => exact hr
  | @register s a _ _ ha ih =>
    refine ⟨Nat.lt_succ_of_lt ih.1, fun b hb => ?_⟩
    rcases List.mem_append.mp hb with hb | hb
    · exact ih.2 b hb
    · rw [List.mem_singleton.mp hb, ha]
      exact (Nat.ne_of_lt ih.1).symm
  | unregister u _ _ ih => exact ⟨ih.1, fun b hb => ih.2 b (List.mem_of_mem_filter hb)⟩

theorem Registrations.Changes.next_le {r' : Registrations α} (h : r.Changes token r') :
    r.next ≤ r'.next := by
  induction h with
  | refl => exact Nat.le_refl _
  | register _ _ _ ih => exact Nat.le_succ_of_le ih
  | unregister _ _ _ ih => exact ih

/-! ## One step -/

section Step
variable {R : Multiset φ} {o : Outcome σ φ} {r' : Registrations α}

/-- The frames that are left to call something, after a call and after the lock has been taken. -/
theorem NotifyStep.mem_left (h : NotifyStep token N r f o r') {g : φ} (hg : g ∈ o.frames + R)
    {l : List α} (hl : N.left g = some l) : g ∈ R ∨ l = r.entries ∧ r.locked = false ∨
      ∃ l₀ a, N.left f = some l₀ ∧ l₀.Perm (a :: l) := by
  rcases Multiset.mem_add.mp hg with hg | hg
  · cases h with
    | outside _ ho | unlock _ ho =>
      rw [ho g hg] at hl
      cases hl
    | lock _ hr hg' hpush hspawn =>
      rw [Outcome.frames, hpush, hspawn] at hg
      rw [List.mem_singleton.mp (Multiset.mem_coe.mp hg), hg', Option.some.injEq] at hl
      exact .inr (.inl ⟨hl.symm, hr⟩)
    | @call l₀ l' a hf hperm hpush hspawn =>
      rw [Outcome.frames, hpush, hspawn, List.flatten_nil, List.append_nil] at hg
      rcases List.mem_append.mp (Multiset.mem_coe.mp hg) with hg | hg
      · rw [N.left_calls f a g hg] at hl
        cases hl
      · rw [List.mem_singleton.mp hg, N.left_resume f l₀ l' hf, Option.some.injEq] at hl
        subst hl
        exact .inr (.inr ⟨l₀, a, hf, hperm⟩)
  · exact .inl hg

theorem Registrations.Kept.step (hK : r.Kept token N (f ::ₘ R)) (h : NotifyStep token N r f o r') :
    r'.Kept token N (o.frames + R) := by
  have hleft : ∀ g ∈ o.frames + R, ∀ l, N.left g = some l → l.Subperm r.entries := by
    intro g hg l hl
    rcases h.mem_left hg hl with hR | ⟨rfl, -⟩ | ⟨l₀, a, hf, hperm⟩
    · exact hK.left g (Multiset.mem_cons_of_mem hR) l hl
    · exact List.Subperm.refl _
    · exact ((List.sublist_cons_self a l).subperm.trans hperm.symm.subperm).trans
        (hK.left f (Multiset.mem_cons_self _ _) l₀ hf)
  have hw := hK.exclusive
  rw [weight_cons] at hw
  cases h with
  | outside hf ho hc =>
    rw [N.inside_none hf, Nat.zero_add] at hw
    have hall := hc.nodup ⟨hK.nodup, hK.fresh⟩
    refine ⟨?_, hall.1, hall.2, fun g hg l hl => ?_⟩
    · rw [weight_add, N.weight_inside ho, Nat.zero_add, hw, hc.locked]
    · rcases Multiset.mem_add.mp hg with hg | hg
      · rw [ho g hg] at hl
        cases hl
      · have hlocked := hK.locked (Multiset.mem_cons_of_mem hg) hl
        rw [hc.of_locked hlocked]
        exact hK.left g (Multiset.mem_cons_of_mem hg) l hl
  | lock hf hr hg hpush hspawn =>
    rw [N.inside_none hf, Nat.zero_add, hr] at hw
    refine ⟨?_, hK.nodup, hK.fresh, hleft⟩
    rw [weight_add, hw, Outcome.frames, hpush, hspawn]
    simp [weight, N.inside_some hg]
  | @call l l' a hf hl hpush hspawn =>
    rw [N.inside_some hf] at hw
    refine ⟨?_, hK.nodup, hK.fresh, hleft⟩
    rw [weight_add, Outcome.frames, hpush, hspawn, List.flatten_nil, List.append_nil,
      N.weight_call hf, hw]
  | unlock hf ho =>
    rw [N.inside_some hf, hK.locked (Multiset.mem_cons_self _ _) hf, if_pos rfl] at hw
    refine ⟨?_, hK.nodup, hK.fresh, hleft⟩
    rw [weight_add, N.weight_inside ho]
    simp only [Bool.false_eq_true, if_false]
    omega

theorem Registrations.Gone.step {t : ℕ} (hG : r.Gone token N t (f ::ₘ R))
    (h : NotifyStep token N r f o r') : r'.Gone token N t (o.frames + R) := by
  have hentries : t < r'.next ∧ ∀ a ∈ r'.entries, token a ≠ t := by
    cases h with
    | outside _ _ hc => exact hc.gone ⟨hG.fresh, hG.entries⟩
    | lock | call | unlock => exact ⟨hG.fresh, hG.entries⟩
  refine ⟨hentries.1, hentries.2, fun g hg l hl a ha => ?_⟩
  rcases h.mem_left hg hl with hR | ⟨rfl, -⟩ | ⟨l₀, b, hf, hperm⟩
  · exact hG.left g (Multiset.mem_cons_of_mem hR) l hl a ha
  · exact hG.entries a ha
  · exact hG.left f (Multiset.mem_cons_self _ _) l₀ hf a
      (hperm.mem_iff.mpr (List.mem_cons_of_mem b ha))

/-- A step that removes an entry finds the lock free, so no notification is on its way. -/
theorem Registrations.Kept.removed (hK : r.Kept token N (f ::ₘ R)) (h : NotifyStep token N r f o r')
    {a : α} (ha : a ∈ r.entries) (hn : ∀ b ∈ r'.entries, token b ≠ token a) :
    (∀ g ∈ o.frames + R, N.left g = none) ∧ r'.Gone token N (token a) (o.frames + R) := by
  cases h with
  | lock | call | unlock => exact absurd rfl (hn a ha)
  | outside hf ho hc =>
    have hr : r.locked = false := by
      cases hr : r.locked with
      | false => rfl
      | true =>
        rw [hc.of_locked hr] at hn
        exact absurd rfl (hn a ha)
    have hidle : ∀ g ∈ o.frames + R, N.left g = none := by
      intro g hg
      rcases Multiset.mem_add.mp hg with hg | hg
      · exact ho g hg
      · exact hK.idle hr g (Multiset.mem_cons_of_mem hg)
    refine ⟨hidle, (hK.fresh a ha).trans_le hc.next_le, hn, fun g hg l hl => ?_⟩
    rw [hidle g hg] at hl
    cases hl

end Step
end Frames

/-! ## Every run -/

section Runs
variable {M : Machine σ φ χ} {G : Guard σ φ χ} {N : Notifier φ α} {view : σ → Registrations α}
  {c₀ c c' : Config σ φ} {token}

theorem Machine.Notifies.kept (hM : M.Notifies token N view) (h : M.Reaches G c₀ c)
    (h0 : (view c₀.shared).Kept token N c₀.frames) : (view c.shared).Kept token N c.frames :=
  h.preserved (I := fun s fs => (view s).Kept token N fs) h0
    fun _ _ _ _ _ _ hK hs => hK.step (hM.step hs)

theorem Machine.Notifies.gone (hM : M.Notifies token N view) (h : M.Reaches G c c') {t : ℕ}
    (hG : (view c.shared).Gone token N t c.frames) : (view c'.shared).Gone token N t c'.frames :=
  h.preserved (I := fun s fs => (view s).Gone token N t fs) hG
    fun _ _ _ _ _ _ hG hs => hG.step (hM.step hs)

/-- The entry with this token has been removed: no notification is on its way, and no later one calls
the entry. -/
structure Unregistered (M : Machine σ φ χ) (token : α → ℕ) (N : Notifier φ α)
    (view : σ → Registrations α) (t : ℕ) (c : Config σ φ) : Prop where
  idle : ∀ f ∈ c.frames, N.left f = none
  gone : ∀ d, M.Reaches anyStep c d → (view d.shared).Gone token N t d.frames

theorem Machine.Notifies.unregistered (hM : M.Notifies token N view)
    (hK : (view c.shared).Kept token N c.frames) {i : ℕ} {x : χ} (hfire : M.fire c i x = some c')
    {a : α} (ha : a ∈ (view c.shared).entries)
    (hn : ∀ b ∈ (view c'.shared).entries, token b ≠ token a) :
    Unregistered M token N view (token a) c' := by
  obtain ⟨f, o, htop, hs, hshared, hframes⟩ := fire_frames hfire
  rw [frames_eq htop] at hK
  have hstep := hM.step hs
  rw [← hshared] at hstep
  obtain ⟨hidle, hgone⟩ := hK.removed hstep ha hn
  rw [← hframes] at hidle hgone
  exact ⟨hidle, fun d hd => hM.gone hd hgone⟩

/-! ## One notification -/

/-- A notification that thread `i` has begun on the stack `k` with the entries `l₀` has called those of
the first list and has those of the second left. -/
inductive Machine.Walk (M : Machine σ φ χ) (G : Guard σ φ χ) (N : Notifier φ α) (i : ℕ) (k : List φ)
    (g : φ) (l₀ : List α) (c₀ : Config σ φ) : List α → List α → Config σ φ → Prop where
  | start {c : Config σ φ} (ho : M.Over G i (N.resume g l₀ :: k) c₀ c) :
      Machine.Walk M G N i k g l₀ c₀ [] l₀ c
  | call {called l l' : List α} {a : α} {x : χ} {b b' c : Config σ φ}
      (hb : Machine.Walk M G N i k g l₀ c₀ called l b)
      (htop : b.threads[i]? = some (N.resume g l :: k)) (hfire : M.fire b i x = some b')
      (hl : l.Perm (a :: l'))
      (hpush : b'.threads[i]? = some (N.calls g a ++ N.resume g l' :: k))
      (ho : M.Over G i (N.resume g l' :: k) b' c) :
      Machine.Walk M G N i k g l₀ c₀ (called ++ [a]) l' c

variable {i : ℕ} {k : List φ} {g : φ} {l₀ called l : List α}

/-- What it has called and what it has left are the entries it has begun with. -/
theorem Machine.Walk.perm (h : M.Walk G N i k g l₀ c₀ called l c) : (called ++ l).Perm l₀ := by
  induction h with
  | start => exact List.Perm.refl _
  | @call called l l' a x b b' c hb htop hfire hl hpush ho ih =>
    refine List.Perm.trans ?_ ih
    rw [List.append_assoc]
    exact List.Perm.append_left called hl.symm

theorem Machine.Walk.stack (h : M.Walk G N i k g l₀ c₀ called l c) :
    ∃ above, c.threads[i]? = some (above ++ N.resume g l :: k) := by
  cases h with
  | start ho | call _ _ _ _ _ ho => exact ho.stack

theorem Machine.Walk.stay (h : M.Walk G N i k g l₀ c₀ called l c) (hf : M.Fires G c c')
    {above : List φ} (hk : c'.threads[i]? = some (above ++ N.resume g l :: k)) :
    M.Walk G N i k g l₀ c₀ called l c' := by
  cases h with
  | start ho => exact .start (ho.tail hf hk)
  | call hb htop hfire hl hpush ho => exact .call hb htop hfire hl hpush (ho.tail hf hk)

/-- When its frame runs, a notification calls one more entry, or it has called them all. -/
theorem Machine.Walk.advance (hM : M.Notifies token N view) (hg : (N.left g).isSome = true)
    (h : M.Walk G N i k g l₀ c₀ called l c) (htop : c.threads[i]? = some (N.resume g l :: k)) {x : χ}
    (hfire : M.fire c i x = some c') :
    l = [] ∨ ∃ a l', M.Walk G N i k g l₀ c₀ (called ++ [a]) l' c' := by
  obtain ⟨l₁, hg⟩ := Option.isSome_iff_exists.mp hg
  have hleft := N.left_resume g l₁ l hg
  obtain ⟨o, hs, -, hthread⟩ := fire_thread htop hfire
  have hstep := hM.step hs
  generalize view o.shared = r' at hstep
  cases hstep with
  | outside hf | lock hf =>
    rw [hleft] at hf
    cases hf
  | unlock hf =>
    rw [hleft, Option.some.injEq] at hf
    exact .inl hf
  | @call l₂ l' a hf hl hpush hspawn =>
    rw [hleft, Option.some.injEq] at hf
    subst hf
    have hpush' : c'.threads[i]? = some (N.calls g a ++ N.resume g l' :: k) := by
      rw [hthread, hpush, N.calls_resume, N.resume_resume, List.append_assoc]
      rfl
    exact .inr ⟨a, l', .call h htop hfire hl hpush' (.refl hpush')⟩

/-- A notification that has begun calls its entries one after the other, and then it is over. -/
theorem Machine.Walk.of_reaches (hM : M.Notifies token N view) (hg : (N.left g).isSome = true)
    (hk : c₀.threads[i]? = some (N.resume g l₀ :: k)) (h : M.Reaches G c₀ c) :
    ∃ called l b, M.Walk G N i k g l₀ c₀ called l b ∧ (b = c ∨ l = [] ∧
      b.threads[i]? = some (N.resume g [] :: k) ∧ ∃ x b', M.fire b i x = some b' ∧
        M.Reaches G b' c) := by
  induction h with
  | refl => exact ⟨[], l₀, c₀, .start (.refl (l := []) hk), .inl rfl⟩
  | @tail b c hcb hbc ih =>
    obtain ⟨called, l, d, hwalk, hrest⟩ := ih
    rcases hrest with rfl | ⟨rfl, htop, x, b', hfire, hrest⟩
    · obtain ⟨above, habove⟩ := hwalk.stack
      obtain ⟨j, x, -, hfire⟩ := id hbc
      rcases fire_keeps habove hfire with ⟨above', habove'⟩ | ⟨rfl, htop⟩
      · exact ⟨called, l, c, hwalk.stay hbc habove', .inl rfl⟩
      · rcases hwalk.advance hM hg htop hfire with rfl | ⟨a, l', hwalk'⟩
        · exact ⟨called, [], d, hwalk, .inr ⟨rfl, htop, x, c, hfire, .refl⟩⟩
        · exact ⟨called ++ [a], l', c, hwalk', .inl rfl⟩
    · exact ⟨called, [], d, hwalk, .inr ⟨rfl, htop, x, b', hfire, hrest.tail hbc⟩⟩

theorem Machine.Walk.reaches (h : M.Walk anyStep N i k g l₀ c₀ called l c) :
    M.Reaches anyStep c₀ c := by
  induction h with
  | start ho => exact ho.reaches
  | call hb htop hfire hl hpush ho ih =>
    exact (ih.tail ⟨i, _, fun _ _ => trivial, hfire⟩).trans ho.reaches

/-- What is said of a notification that thread `i` has begun on the stack `k` with the entries `l₀`: it
calls each of them once, whatever its callbacks and the other threads do, and only a callback that
does not return can keep it from its next call. -/
structure CallsEachOnce (M : Machine σ φ χ) (token : α → ℕ) (N : Notifier φ α) (i : ℕ) (k : List φ)
    (g : φ) (l₀ : List α) (c : Config σ φ) : Prop where
  nodup : (l₀.map token).Nodup
  walk : ∀ e, M.Reaches anyStep c e → ∃ called l b, M.Walk anyStep N i k g l₀ c called l b ∧
    (called ++ l).Perm l₀ ∧ (b = e ∨ l = [] ∧ b.threads[i]? = some (N.resume g [] :: k) ∧
      ∃ x b', M.fire b i x = some b' ∧ M.Reaches anyStep b' e)
  goesOn : ∀ called l b, M.Walk anyStep N i k g l₀ c called l b →
    b.threads[i]? = some (N.resume g l :: k) → ∃ x b', M.fire b i x = some b'

theorem Machine.Notifies.callsEachOnce (hM : M.Notifies token N view)
    (hK : (view c.shared).Kept token N c.frames) {f : φ} {x : χ}
    (hk : c.threads[i]? = some (f :: k)) (hf : N.left f = none) (hfire : M.fire c i x = some c')
    (hk' : c'.threads[i]? = some (g :: k)) (hg : N.left g = some l) :
    l = (view c.shared).entries ∧ CallsEachOnce M token N i k g l c' := by
  have hcc' : M.Reaches anyStep c c' := .tail .refl ⟨i, x, fun _ _ => trivial, hfire⟩
  have hK' := hM.kept hcc' hK
  obtain ⟨o, hs, hshared, hthread⟩ := fire_thread hk hfire
  rw [hk', Option.some.injEq] at hthread
  have happend : [g] ++ k = o.push ++ k := hthread
  have hpush : o.push = [g] := (List.append_cancel_right happend).symm
  have hmem : g ∈ o.frames :=
    Multiset.mem_coe.mpr (List.mem_append_left _ (hpush ▸ List.mem_singleton_self g))
  have hl : l = (view c.shared).entries := by
    have hstep := hM.step hs
    rcases hstep.mem_left (R := 0) (Multiset.mem_add.mpr (.inl hmem)) hg with
      hR | ⟨hl, -⟩ | ⟨l₁, a, hf', -⟩
    · cases hR
    · exact hl
    · rw [hf] at hf'
      cases hf'
  have hresume : N.resume g l = g := N.resume_left g l hg
  have hsome : (N.left g).isSome = true := by rw [hg]; rfl
  refine ⟨hl, ?_, fun e he => ?_, fun called l' b hwalk htop => ?_⟩
  · rw [hl]
    exact hK.nodup
  · obtain ⟨called, rest, b, hwalk, hb⟩ :=
      Machine.Walk.of_reaches hM hsome (by rw [hresume]; exact hk') he
    exact ⟨called, rest, b, hwalk, hwalk.perm, hb⟩
  · have hleft := N.left_resume g l l' hg
    have hKb := hM.kept hwalk.reaches hK'
    have hin : N.resume g l' ∈ b.frames := by
      rw [frames_eq (top_eq htop)]
      exact Multiset.mem_cons_self _ _
    obtain ⟨y, p, hp⟩ := hM.enabled hleft (hKb.locked hin hleft)
    refine ⟨y, ⟨p.shared, b.threads.set i (p.push ++ k) ++ p.spawn⟩, ?_⟩
    unfold Machine.fire
    rw [htop]
    simp only [hp, Option.map_some]

end Runs
end Protocol
end XGameRuntime.Concurrency
