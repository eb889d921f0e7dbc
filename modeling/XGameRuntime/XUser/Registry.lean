import XGameRuntime.XUser.Accounts

/-! # What the registry knows

The registry holds weak entries, so that a user falls out of it when the last handle to it is closed
and the last thread that holds it is done. Until then every search sees it, with the identity it has
been registered with; afterwards none ever sees it again.
-/

namespace XGameRuntime.XUser
open Concurrency
set_option autoImplicit false

/-! ## What does not change -/

/-- What a user keeps from its registration on. -/
def UserState.identity (u : UserState) : UserState := { u with state := .SignedIn, strong := 0 }

/-- Users keep their identity, and the dead stay dead. -/
structure Kept (m m' : Memory) : Prop where
  identity : ∀ (user : ℕ) (u : UserState), m.users[user]? = some u →
    ∃ u' : UserState, m'.users[user]? = some u' ∧ u'.identity = u.identity
  dead : ∀ user < m.users.length, m.strong user = 0 → m'.strong user = 0

theorem Kept.refl (m : Memory) : Kept m m where
  identity _ u hu := ⟨u, hu, rfl⟩
  dead _ _ h := h

theorem Kept.length {m m' : Memory} (h : Kept m m') : m.users.length ≤ m'.users.length := by
  by_contra hlt
  rw [Nat.not_le] at hlt
  obtain ⟨u', hu', -⟩ := h.identity _ _ (List.getElem?_eq_getElem hlt)
  exact Nat.lt_irrefl _ (List.getElem?_eq_some_iff.mp hu').1

theorem Kept.trans {m m' m'' : Memory} (h : Kept m m') (h' : Kept m' m'') : Kept m m'' where
  identity user u hu := by
    obtain ⟨u', hu', he⟩ := h.identity user u hu
    obtain ⟨u'', hu'', he'⟩ := h'.identity user u' hu'
    exact ⟨u'', hu'', he'.trans he⟩
  dead user hlt hd := h'.dead user (hlt.trans_le h.length) (h.dead user hlt hd)

section Sections
variable (m : Memory)

/-- A write to one user that leaves its identity and lets no dead one live. -/
theorem kept_modify {m' : Memory} {user : ℕ} {g : UserState → UserState}
    (husers : m'.users = m.users.modify user g) (hg : ∀ u, (g u).identity = u.identity)
    (hdead : ∀ u, m.users[user]? = some u → u.strong = 0 → (g u).strong = 0) : Kept m m' := by
  constructor
  · intro other u hu
    rw [husers, List.getElem?_modify, hu]
    refine ⟨_, rfl, ?_⟩
    split
    · exact hg u
    · rfl
  · intro other hlt hd
    unfold Memory.strong at hd ⊢
    rw [husers, List.getElem?_modify]
    rw [List.getElem?_eq_getElem hlt] at hd ⊢
    split
    · rename_i he
      exact hdead _ (he ▸ List.getElem?_eq_getElem hlt) hd
    · exact hd

theorem kept_same {m' : Memory} (husers : m'.users = m.users) : Kept m m' := by
  constructor
  · exact fun _ u hu => ⟨u, husers ▸ hu, rfl⟩
  · intro user _ hd
    rw [Memory.strong, husers]
    exact hd

theorem kept_retain {m' : Memory} {user : ℕ} (hlive : 0 < m.strong user)
    (husers : m'.users = (m.retain user).users) : Kept m m' := by
  refine kept_modify m husers (fun _ => rfl) fun u hu hd => ?_
  rw [Memory.strong, hu] at hlive
  exact absurd hd (Nat.ne_of_gt hlive)

theorem kept_release {m' : Memory} {user : ℕ} (husers : m'.users = (m.release user).users) :
    Kept m m' :=
  kept_modify m husers (fun _ => rfl) fun u _ hd => by rw [hd]

theorem kept_setState {m' : Memory} {user : ℕ} {state : XUserStateValue}
    (husers : m'.users = (m.setState user state).users) : Kept m m' :=
  kept_modify m husers (fun _ => rfl) fun _ _ hd => hd

theorem kept_registerUser (userId : ℕ) (info : UserInfo) : Kept m (m.registerUser userId info) := by
  constructor
  · intro user u hu
    exact ⟨u, by rw [Memory.registerUser, List.getElem?_append_left
      (List.getElem?_eq_some_iff.mp hu).1, hu], rfl⟩
  · intro user hlt hd
    rw [strong_registerUser, hd, if_neg (Nat.ne_of_gt hlt)]

theorem kept_close (handle : ℕ) : Kept m (m.closeHandle handle) := by
  unfold Memory.closeHandle
  split
  · exact .refl m
  · exact kept_release m rfl

end Sections

theorem Sound.kept {m : Memory} {code : Code} {R : Multiset Code} {o : Outcome Memory Code}
    (hI : Sound m (code ::ₘ R)) (h : Steps m code o) : Kept m o.shared := by
  cases h with
  | borrow hget => exact kept_retain m (hI.live_of_get hget) rfl
  | spawnSignOut hget => exact kept_retain m (hI.live_of_get hget) rfl
  | search hfind | found hfind => exact kept_retain m (find_strong hfind).1 rfl
  | close handle => exact kept_close m handle
  | register => exact kept_registerUser m _ _
  | signOut | signedOut => exact kept_setState m rfl
  | @compared user1 handle2 =>
    cases user1 with
    | none => exact kept_same m rfl
    | some user => exact kept_release m rfl
  | drop => exact kept_release m rfl
  | _ => exact kept_same m rfl

/-! ## What a search finds -/

/-- The entries of the registry are users, each listed once, and a user has its account for a local
id. -/
structure Listed (m : Memory) : Prop where
  nodup : m.registry.Nodup
  known : ∀ user ∈ m.registry, user < m.users.length
  localId : ∀ u ∈ m.users, u.localId = u.userId

theorem listed_modify {m m' : Memory} {user : ℕ} {g : UserState → UserState} (h : Listed m)
    (husers : m'.users = m.users.modify user g) (hregistry : m'.registry = m.registry)
    (hg : ∀ u, (g u).identity = u.identity) : Listed m' := by
  refine ⟨hregistry ▸ h.nodup, fun other ho => ?_, fun u hu => ?_⟩
  · rw [husers, List.length_modify]
    exact h.known other (hregistry ▸ ho)
  · rw [husers] at hu
    obtain ⟨i, hi⟩ := List.mem_iff_getElem?.mp hu
    rw [List.getElem?_modify] at hi
    obtain ⟨v, hv, rfl⟩ := Option.map_eq_some_iff.mp hi
    have hold := h.localId v (List.mem_of_getElem? hv)
    split
    · exact (congrArg UserState.localId (hg v)).trans
        (hold.trans (congrArg UserState.userId (hg v)).symm)
    · exact hold

theorem listed_same {m m' : Memory} (h : Listed m) (husers : m'.users = m.users)
    (hregistry : m'.registry = m.registry) : Listed m' :=
  ⟨hregistry ▸ h.nodup, fun user hu => husers ▸ h.known user (hregistry ▸ hu),
    fun u hu => h.localId u (husers ▸ hu)⟩

theorem listed_registerUser {m : Memory} (h : Listed m) (userId : ℕ) (info : UserInfo) :
    Listed (m.registerUser userId info) := by
  have hold : ∀ user ∈ m.registry.filter fun user => decide (0 < m.strong user),
      user < m.users.length := fun user hu => h.known user (List.mem_of_mem_filter hu)
  refine ⟨?_, ?_, ?_⟩
  · refine List.Nodup.append (h.nodup.filter _) (List.nodup_singleton _) ?_
    exact List.disjoint_singleton.mpr fun hm => Nat.lt_irrefl _ (hold _ hm)
  · intro user hu
    unfold Memory.registerUser
    rw [List.length_append, List.length_singleton]
    rcases List.mem_append.mp hu with hu | hu
    · exact (hold user hu).trans (Nat.lt_succ_self _)
    · rw [List.mem_singleton.mp hu]
      exact Nat.lt_succ_self _
  · intro u hu
    rcases List.mem_append.mp hu with hu | hu
    · exact h.localId u hu
    · rw [List.mem_singleton.mp hu]

theorem listed_step {m : Memory} {code : Code} {o : Outcome Memory Code} (h : Listed m)
    (hs : Steps m code o) : Listed o.shared := by
  cases hs with
  | borrow | spawnSignOut | search | found | signOut | signedOut | drop =>
    exact listed_modify h rfl rfl fun _ => rfl
  | close handle =>
    unfold Memory.closeHandle
    split
    · exact h
    · exact listed_modify h rfl rfl fun _ => rfl
  | register => exact listed_registerUser h _ _
  | @compared user1 handle2 =>
    cases user1 with
    | none => exact listed_same h rfl rfl
    | some user => exact listed_modify h rfl rfl fun _ => rfl
  | _ => exact listed_same h rfl rfl

/-- A search finds nothing only when no user that lives is what it looks for. -/
theorem Sound.find_none {m : Memory} {F : Multiset Code} (hI : Sound m F) {p : UserState → Bool} :
    m.find p = none ↔ ∀ u ∈ m.users, 0 < u.strong → p u = false := by
  unfold Memory.find
  rw [List.find?_eq_none]
  constructor
  · intro h u hu hlive
    obtain ⟨user, hget⟩ := List.mem_iff_getElem?.mp hu
    have hstrong : 0 < m.strong user := by
      rw [Memory.strong, hget]
      exact hlive
    have hnot := h user (hI.listed user hstrong)
    simpa [hget, hlive] using hnot
  · intro h user _ hfound
    obtain ⟨u, hget, hcond⟩ := (Option.any_eq_true _ _).mp hfound
    obtain ⟨hlive, hp⟩ := (Bool.and_eq_true _ _).mp hcond
    rw [h u (List.mem_of_getElem? hget) (of_decide_eq_true hlive)] at hp
    cases hp

/-- Whoever is alive is held by a handle or by a thread. -/
theorem Sound.live_iff {m : Memory} {F : Multiset Code} (hI : Sound m F) {user : ℕ} :
    0 < m.strong user ↔
      (∃ handle, m.handles.get handle = some user) ∨ ∃ f ∈ F, f.user = some user := by
  constructor
  · intro hlive
    rw [hI.held user] at hlive
    by_cases hcount : 0 < m.handles.count fun v => decide (v = user)
    · obtain ⟨handle, v, hget, hv⟩ := HandleTable.exists_of_count_pos hcount
      exact .inl ⟨handle, of_decide_eq_true hv ▸ hget⟩
    · refine .inr (by_contra fun hnone => ?_)
      have hzero : weight (Code.holds user) F = 0 :=
        weight_eq_zero _ fun f hf => if_neg fun huser => hnone ⟨f, hf, huser⟩
      omega
  · rintro (⟨handle, hget⟩ | ⟨f, hf, huser⟩)
    · exact hI.live_of_get hget
    · exact hI.live_of_held hf huser

/-! ## Runs -/

section Runs
variable {n : ℕ} {c c' : Config Memory Code}

theorem reaches_later (h : machine.Reaches anyStep (start n) c)
    (h' : machine.Reaches anyStep c c') : Kept c.shared c'.shared := by
  induction h' with
  | refl => exact .refl _
  | @tail d d' hd hf ih =>
    obtain ⟨i, x, f, o, -, hframes, -, hs, hshared, -⟩ := hf.cases
    have hI := reaches_sound (h.trans hd)
    rw [hframes] at hI
    rw [hshared]
    exact ih.trans (hI.kept (steps_inv hs))

theorem reaches_listed (h : machine.Reaches anyStep (start n) c) : Listed c.shared :=
  h.preserved (I := fun m _ => Listed m) ⟨List.nodup_nil, fun _ hu => absurd hu List.not_mem_nil,
    fun _ hu => absurd hu List.not_mem_nil⟩
    fun _ _ _ _ _ _ hI hs => listed_step hI (steps_inv hs)

/-- The registry is exact in every state of every run. A search returns a user that lives and is what
it looks for, and returns nothing only when there is none; a user lives exactly as long as a handle to
it is open or a thread holds it. From its registration on a user keeps its identity, with its account
for a local id, and once it is dead it stays dead and no handle leads to it. -/
theorem registry_exact (h : machine.Reaches anyStep (start n) c)
    (h' : machine.Reaches anyStep c c') :
    (∀ p user, c.shared.find p = some user →
      ∃ u, c.shared.users[user]? = some u ∧ 0 < u.strong ∧ p u = true) ∧
    (∀ p, c.shared.find p = none ↔ ∀ u ∈ c.shared.users, 0 < u.strong → p u = false) ∧
    (∀ user, 0 < c.shared.strong user ↔ (∃ handle, c.shared.handles.get handle = some user) ∨
      ∃ f ∈ c.frames, f.user = some user) ∧
    ∀ (user : ℕ) (u : UserState), c.shared.users[user]? = some u → u.localId = u.userId ∧
      ∃ u' : UserState, c'.shared.users[user]? = some u' ∧ u'.identity = u.identity ∧
        (u.strong = 0 → u'.strong = 0 ∧ ∀ handle, c'.shared.handles.get handle ≠ some user) := by
  have hI := reaches_sound h
  have hI' := reaches_sound (h.trans h')
  have hkept := reaches_later h h'
  refine ⟨fun p user hfind => ?_, fun p => hI.find_none, fun user => hI.live_iff,
    fun user u hu => ⟨(reaches_listed h).localId u (List.mem_of_getElem? hu), ?_⟩⟩
  · obtain ⟨hlive, -, u, hu, hp⟩ := find_strong hfind
    rw [Memory.strong, hu] at hlive
    exact ⟨u, hu, hlive, hp⟩
  · obtain ⟨u', hu', hidentity⟩ := hkept.identity user u hu
    refine ⟨u', hu', hidentity, fun hd => ?_⟩
    have hdead : c'.shared.strong user = 0 := by
      refine hkept.dead user (List.getElem?_eq_some_iff.mp hu).1 ?_
      rw [Memory.strong, hu]
      exact hd
    refine ⟨?_, fun handle hget => ?_⟩
    · rw [Memory.strong, hu'] at hdead
      exact hdead
    · exact Nat.ne_of_gt (hI'.live_of_get hget) hdead

/-- A user whose only handle is closed, and who signs in again. -/
theorem registry_exact_again : ∃ c c' : Config Memory Code,
    c.shared.users.map UserState.strong = [0] ∧ c'.shared.users.map UserState.strong = [0, 1] ∧
      (∀ handle, c'.shared.handles.get handle ≠ some 0) ∧
        ∀ p, c'.shared.find p = none ↔ ∀ u ∈ c'.shared.users, 0 < u.strong → p u = false := by
  have hrun : ((machine.run anyStep (signInSchedule 1 ++ sections 1 5 ++ [(0, .close 1)])
      (start 1)).any fun c => decide (c.shared.users.map UserState.strong = [0]) &&
        (machine.run anyStep (signInSchedule 2 ++ sections 2 5) c).any fun c' =>
          decide (c'.shared.users.map UserState.strong = [0, 1])) = true := by
    decide +kernel
  obtain ⟨c, hc, hcheck⟩ := Machine.Reaches.of_run_any hrun
  obtain ⟨hdead, hnext⟩ := (Bool.and_eq_true _ _).mp hcheck
  obtain ⟨c', hc', hagain⟩ := Machine.Reaches.of_run_any hnext
  have hdead' := of_decide_eq_true hdead
  obtain ⟨u, hu⟩ : ∃ u, c.shared.users = [u] := List.map_eq_singleton_iff.mp hdead' |>.imp fun _ h => h.1
  rw [hu] at hdead'
  obtain ⟨-, u', -, -, hgone⟩ :=
    (registry_exact hc hc').2.2.2 0 u (by rw [hu]; rfl)
  refine ⟨c, c', of_decide_eq_true hdead, of_decide_eq_true hagain,
    (hgone (List.cons.inj hdead').1).2, fun p => ?_⟩
  exact (registry_exact (hc.trans hc') .refl).2.1 p

end Runs
end XGameRuntime.XUser
