import XGameRuntime.XUser.Users

/-! # Who keeps a user alive

What a step does, and that the strong count of a user is the number of its handles and of the
threads that hold it, so that whatever is held is alive and registered.
-/

namespace XGameRuntime.XUser
open Concurrency
set_option autoImplicit false

/-! ## Users under the sections -/

section Fields
variable (m : Memory) (user other : ℕ)

@[simp] theorem record_users (e : Event) : (m.record e).users = m.users := rfl
@[simp] theorem record_handles (e : Event) : (m.record e).handles = m.handles := rfl
@[simp] theorem record_registry (e : Event) : (m.record e).registry = m.registry := rfl
@[simp] theorem record_listeners (e : Event) : (m.record e).listeners = m.listeners := rfl
@[simp] theorem record_log (e : Event) : (m.record e).log = e :: m.log := rfl
@[simp] theorem record_strong (e : Event) : (m.record e).strong user = m.strong user := rfl
@[simp] theorem record_userId (e : Event) : (m.record e).userId user = m.userId user := rfl
@[simp] theorem record_state (e : Event) : (m.record e).state user = m.state user := rfl

@[simp] theorem retain_handles : (m.retain user).handles = m.handles := rfl
@[simp] theorem retain_registry : (m.retain user).registry = m.registry := rfl
@[simp] theorem retain_listeners : (m.retain user).listeners = m.listeners := rfl
@[simp] theorem retain_log : (m.retain user).log = m.log := rfl
@[simp] theorem release_handles : (m.release user).handles = m.handles := rfl
@[simp] theorem release_registry : (m.release user).registry = m.registry := rfl
@[simp] theorem release_listeners : (m.release user).listeners = m.listeners := rfl
@[simp] theorem release_log : (m.release user).log = m.log := rfl

/-- What a write to one user does to a field of any user. -/
theorem users_modify {α : Type} (g : UserState → UserState) (field : UserState → α) :
    ((m.users.modify user g)[other]?.map field) =
      m.users[other]?.map fun u => field (if user = other then g u else u) := by
  rw [List.getElem?_modify]
  split
  · simp [Function.comp_def]
  · simp

theorem strong_retain (h : 0 < m.strong user) :
    (m.retain user).strong other = m.strong other + if user = other then 1 else 0 := by
  unfold Memory.strong Memory.retain
  rw [users_modify]
  split
  · rename_i he
    subst he
    cases hu : m.users[user]? with
    | none => simp [Memory.strong, hu] at h
    | some u => simp
  · simp

theorem strong_release :
    (m.release user).strong other = m.strong other - if user = other then 1 else 0 := by
  unfold Memory.strong Memory.release
  rw [users_modify]
  split
  · rename_i he
    cases hu : m.users[other]? <;> simp
  · simp

theorem strong_setState (state : XUserStateValue) :
    (m.setState user state).strong other = m.strong other := by
  unfold Memory.strong Memory.setState
  rw [users_modify]
  split <;> rfl

@[simp] theorem userId_retain : (m.retain user).userId other = m.userId other := by
  unfold Memory.userId Memory.retain
  rw [users_modify]
  split <;> rfl

@[simp] theorem userId_release : (m.release user).userId other = m.userId other := by
  unfold Memory.userId Memory.release
  rw [users_modify]
  split <;> rfl

@[simp] theorem userId_setState (state : XUserStateValue) :
    (m.setState user state).userId other = m.userId other := by
  unfold Memory.userId Memory.setState
  rw [users_modify]
  split <;> rfl

theorem strong_registerUser (userId : ℕ) (info : UserInfo) :
    (m.registerUser userId info).strong other =
      m.strong other + if m.users.length = other then 1 else 0 := by
  unfold Memory.strong Memory.registerUser
  dsimp only
  by_cases he : m.users.length = other
  · subst he
    simp
  · by_cases hlt : other < m.users.length
    · rw [List.getElem?_append_left hlt, if_neg he, Nat.add_zero]
    · rw [List.getElem?_eq_none (by simp; omega), List.getElem?_eq_none (by omega), if_neg he]
      rfl

@[simp] theorem closeHandle_log : (m.closeHandle user).log = m.log := by
  unfold Memory.closeHandle
  split <;> rfl

end Fields

theorem lt_of_strong {m : Memory} {user : ℕ} (h : 0 < m.strong user) : user < m.users.length := by
  by_contra hle
  rw [Memory.strong, List.getElem?_eq_none (Nat.not_lt.mp hle)] at h
  cases h

theorem find_strong {m : Memory} {p : UserState → Bool} {user : ℕ} (h : m.find p = some user) :
    0 < m.strong user ∧ user ∈ m.registry ∧ ∃ u, m.users[user]? = some u ∧ p u = true := by
  have hp := List.find?_some h
  obtain ⟨u, hu, hcond⟩ := (Option.any_eq_true _ _).mp hp
  rw [Bool.and_eq_true, decide_eq_true_eq] at hcond
  refine ⟨?_, List.mem_of_find?_eq_some h, u, hu, hcond.2⟩
  rw [Memory.strong, hu]
  exact hcond.1

/-! ## One step -/

/-- The user that a thread keeps alive. -/
def Code.user : Code → Option ℕ
  | .finish _ user | .create user _ | .signOut user | .signedOut user | .drop user => some user
  | .comparing user1 _ => user1
  | .fire _ _ after | .notifying _ _ _ after => some after.user
  | _ => none

/-- Code that holds no user and is not in the registry or in the listeners. -/
def Code.Plain : Code → Prop
  | .game | .signIn _ | .interactive | .handleFromInfo _ | .comparing none _ => True
  | _ => False

/-- Code of a call that has been given a handle to a user. -/
def Code.Borrows (user : ℕ) : Code → Prop
  | .create v false | .drop v | .comparing (some v) _ => v = user
  | _ => False

/-- The closure of a sign-out, run or not. -/
def Code.SignsOut (user : ℕ) : Code → Prop
  | .signOut v | .drop v => v = user
  | _ => False

/-- What a step of a thread can do. -/
inductive Steps (m : Memory) : Code → Outcome Memory Code → Prop where
  | plain {code : Code} {push : List Code} {spawn : List (List Code)} (hcode : code.Plain)
      (hpush : ∀ f ∈ push, f.Plain) (hspawn : ∀ k ∈ spawn, ∀ f ∈ k, f.Plain) :
      Steps m code ⟨m, push, spawn⟩
  | borrow {user handle : ℕ} {code : Code} (hget : m.handles.get handle = some user)
      (hcode : code.Borrows user) : Steps m .game ⟨m.retain user, [code, .game], []⟩
  | search {user : ℕ} {p : UserState → Bool} (hfind : m.find p = some user) :
      Steps m .game ⟨{ m.retain user with registryLock := true }, [.create user true, .game], []⟩
  | spawnSignOut {user handle : ℕ} {code : Code} (hget : m.handles.get handle = some user)
      (hcode : code.SignsOut user) : Steps m .game ⟨m.retain user, [.game], [[code]]⟩
  | close (handle : ℕ) : Steps m .game ⟨m.closeHandle handle, [.game], []⟩
  | listen : Steps m .game
      ⟨{ m with listeners := m.listeners ++ [m.nextToken], nextToken := m.nextToken + 1 }.record
        (.registered m.nextToken), [.game], []⟩
  | unlisten (token : ℕ) : Steps m .game
      ⟨{ m with listeners := m.listeners.filter fun t => decide (t ≠ token) }, [.game], []⟩
  | enter {info : UserInfo} {userId : ℕ} (hparse : parseU64 info.xuid = some userId) :
      Steps m (.handleFromInfo info)
        ⟨{ m with calls := m.calls + 1 }.record (.entered m.calls info),
          [.lookUp m.calls userId info], []⟩
  | found {call userId user : ℕ} {info : UserInfo}
      (hfind : m.find (fun u => decide (u.userId = userId)) = some user) :
      Steps m (.lookUp call userId info) ⟨m.retain user, [.finish call user], []⟩
  | missed {call userId : ℕ} {info : UserInfo}
      (hfind : m.find (fun u => decide (u.userId = userId)) = none) :
      Steps m (.lookUp call userId info) ⟨m, [.register call userId info], []⟩
  | register {call userId : ℕ} {info : UserInfo} : Steps m (.register call userId info)
      ⟨m.registerUser userId info,
        [.fire userId .SIGNED_IN_AGAIN (.handle call m.users.length)], []⟩
  | finish {call user : ℕ} : Steps m (.finish call user)
      ⟨(m.createHandle user).record (.returned call user m.handles.next), [], []⟩
  | create {user : ℕ} {inRegistry : Bool} : Steps m (.create user inRegistry)
      ⟨{ m.createHandle user with registryLock := m.registryLock && !inRegistry }, [], []⟩
  | signOut {user localId : ℕ} : Steps m (.signOut user)
      ⟨(m.setState user .SigningOut).record (.wrote user .SigningOut),
        [.fire localId .SIGNING_OUT (.signOut user)], []⟩
  | signedOut {user localId : ℕ} : Steps m (.signedOut user)
      ⟨(m.setState user .SignedOut).record (.wrote user .SignedOut),
        [.fire localId .SIGNED_OUT (.done user)], []⟩
  | fire {localId : ℕ} {event : ChangeEvent} {after : After} : Steps m (.fire localId event after)
      ⟨{ m with changeLock := true }.record (.fired event after.user localId),
        [.notifying localId event m.listeners after], []⟩
  | notify {localId token : ℕ} {event : ChangeEvent} {after : After} {tokens : List ℕ}
      (htoken : token ∈ tokens) : Steps m (.notifying localId event tokens after)
        ⟨m.record (.notified token event after.user),
          [.game, .notifying localId event (tokens.erase token) after], []⟩
  | notified {localId : ℕ} {event : ChangeEvent} {after : After} :
      Steps m (.notifying localId event [] after)
        ⟨{ m with changeLock := false }, [after.code], []⟩
  | compared {user1 : Option ℕ} {handle2 : ℕ} : Steps m (.comparing user1 handle2)
      ⟨(user1.elim m m.release).record (.compared (compareUsers user1 (m.handles.get handle2))),
        [], []⟩
  | drop {user : ℕ} : Steps m (.drop user) ⟨m.release user, [], []⟩

theorem findStep_inv {m : Memory} {p : UserState → Bool} {o : Outcome Memory Code}
    (h : m.findStep p = some o) : Steps m .game o := by
  unfold Memory.findStep at h
  split at h
  · cases h
  · split at h
    · cases h
      exact .plain trivial (by simp [Code.Plain]) (by simp)
    · rename_i hfind
      cases h
      exact .search hfind

theorem gameStep_inv {m : Memory} {choice : Choice} {o : Outcome Memory Code}
    (h : m.gameStep choice = some o) : Steps m .game o := by
  have hgame : ∀ f ∈ [Code.game], f.Plain := by simp [Code.Plain]
  cases choice with
  | addUser options submission =>
    simp only [Memory.gameStep] at h
    split at h
    · cases h
      exact .plain trivial hgame (by simp)
    · cases h
      refine .plain trivial hgame ?_
      split <;> simp [Code.Plain]
  | addUserByIdWithUi userId submission =>
    cases h
    refine .plain trivial hgame ?_
    split <;> simp [Code.Plain]
  | duplicate handle =>
    simp only [Memory.gameStep] at h
    split at h
    · cases h
      exact .plain trivial hgame (by simp)
    · rename_i hget
      cases h
      exact .borrow hget rfl
  | close handle =>
    cases h
    exact .close handle
  | compare user1 user2 =>
    simp only [Memory.gameStep] at h
    split at h
    · cases h
      exact .plain trivial (by simp [Code.Plain]) (by simp)
    · rename_i hget
      cases h
      exact .borrow hget rfl
  | read handle =>
    simp only [Memory.gameStep] at h
    split at h
    · cases h
      exact .plain trivial hgame (by simp)
    · rename_i hget
      cases h
      exact .borrow hget rfl
  | findUserById userId => exact findStep_inv h
  | findUserByLocalId localId => exact findStep_inv h
  | findForDevice => exact findStep_inv h
  | signOutAsync handle submission =>
    simp only [Memory.gameStep] at h
    split at h
    · cases h
      exact .plain trivial hgame (by simp)
    · rename_i hget
      cases submission with
      | refused =>
        cases h
        exact .plain trivial hgame (by simp)
      | canceled =>
        cases h
        exact .spawnSignOut hget rfl
      | run =>
        cases h
        exact .spawnSignOut hget rfl
  | registerForChangeEvent =>
    simp only [Memory.gameStep] at h
    split at h
    · cases h
    · cases h
      exact .listen
  | unregisterForChangeEvent token =>
    simp only [Memory.gameStep] at h
    split at h
    · cases h
    · cases h
      exact .unlisten token
  | finish =>
    cases h
    exact .plain trivial (by simp) (by simp)
  | userInfo reply => cases h
  | window reply => cases h
  | notify token => cases h
  | go => cases h

theorem steps_inv {m : Memory} {code : Code} {choice : Choice} {o : Outcome Memory Code}
    (h : m.step code choice = some o) : Steps m code o := by
  unfold Memory.step at h
  split at h
  · exact gameStep_inv h
  · cases h
    exact .plain trivial (by simp [Code.Plain]) (by simp)
  · cases h
    refine .plain trivial ?_ (by simp)
    split <;> simp [Code.Plain]
  · cases h
    exact .plain trivial (by simp [Code.Plain]) (by simp)
  · cases h
    exact .plain trivial (by simp) (by simp)
  · split at h
    · cases h
      exact .plain trivial (by simp) (by simp)
    · rename_i hparse
      cases h
      exact .enter hparse
  · split at h
    · cases h
    · split at h
      · rename_i hfind
        cases h
        exact .found hfind
      · rename_i hfind
        cases h
        exact .missed hfind
  · split at h
    · cases h
    · cases h
      exact .register
  · cases h
    exact .finish
  · cases h
    exact .create
  · cases h
    exact .signOut
  · cases h
    exact .signedOut
  · split at h
    · cases h
    · cases h
      exact .fire
  · split at h
    · rename_i htoken
      cases h
      exact .notify htoken
    · cases h
  · split at h
    · rename_i hempty
      cases h
      subst hempty
      exact .notified
    · cases h
  · cases h
    exact .compared
  · cases h
    exact .drop
  · cases h

/-! ## Holders -/

def Code.holds (user : ℕ) (f : Code) : ℕ := if f.user = some user then 1 else 0

/-- The strong count is the number of those who hold the user, and whoever is held is registered. -/
structure Sound (m : Memory) (F : Multiset Code) : Prop where
  held : ∀ user, m.strong user =
    m.handles.count (fun v => decide (v = user)) + weight (Code.holds user) F
  fresh : m.handles.Fresh
  listed : ∀ user, 0 < m.strong user → user ∈ m.registry

theorem holds_of_user {f : Code} {v : ℕ} (h : f.user = some v) (user : ℕ) :
    f.holds user = if v = user then 1 else 0 := by
  simp [Code.holds, h]

@[simp] theorem holds_game (user : ℕ) : Code.game.holds user = 0 := rfl

theorem Code.Plain.holds {f : Code} (h : f.Plain) (user : ℕ) : f.holds user = 0 := by
  have hnone : f.user = none := by
    cases f with
    | comparing user1 handle2 =>
      cases user1 with
      | none => rfl
      | some v => cases h
    | game | signIn | interactive | handleFromInfo => rfl
    | _ => cases h
  rw [Code.holds, hnone]
  rfl

theorem Code.Borrows.user {f : Code} {v : ℕ} (h : f.Borrows v) : f.user = some v := by
  cases f with
  | create w inRegistry =>
    cases inRegistry with
    | false => exact congrArg some h
    | true => cases h
  | drop w => exact congrArg some h
  | comparing user1 handle2 =>
    cases user1 with
    | none => cases h
    | some w => exact congrArg some h
  | _ => cases h

theorem Code.SignsOut.user {f : Code} {v : ℕ} (h : f.SignsOut v) : f.user = some v := by
  cases f with
  | signOut w => exact congrArg some h
  | drop w => exact congrArg some h
  | _ => cases h

@[simp] theorem After.user_code (after : After) : after.code.user = some after.user := by
  cases after <;> rfl

section Outcome
variable (user : ℕ) (m : Memory)

theorem weight_plain {push : List Code} {spawn : List (List Code)} (hpush : ∀ f ∈ push, f.Plain)
    (hspawn : ∀ k ∈ spawn, ∀ f ∈ k, f.Plain) :
    weight (Code.holds user) (Outcome.frames ⟨m, push, spawn⟩) = 0 :=
  weight_eq_zero _ fun f hf => (forall_frames.mpr ⟨hpush, hspawn⟩ f hf).holds user

end Outcome

theorem mem_start {n : ℕ} {f : Code} (h : f ∈ (start n).frames) : f = .game := by
  obtain ⟨k, hk, hfk⟩ := List.mem_flatten.mp (Multiset.mem_coe.mp h)
  rw [List.eq_of_mem_replicate hk] at hfk
  exact List.mem_singleton.mp hfk

theorem weight_start {w : Code → ℕ} (hw : w .game = 0) (n : ℕ) : weight w (start n).frames = 0 :=
  weight_eq_zero w fun f hf => by rw [mem_start hf, hw]

theorem sound_start (n : ℕ) : Sound (start n).shared (start n).frames := by
  refine ⟨fun user => ?_, HandleTable.fresh_empty, fun user h => ?_⟩
  · rw [weight_start rfl]
    rfl
  · cases h

theorem Sound.live_of_get {m : Memory} {F : Multiset Code} (h : Sound m F) {handle user : ℕ}
    (hget : m.handles.get handle = some user) : 0 < m.strong user := by
  have hcount := HandleTable.count_pos h.fresh hget (p := fun v => decide (v = user)) (by simp)
  rw [h.held user]
  exact Nat.lt_of_lt_of_le hcount (Nat.le_add_right _ _)

theorem Sound.live_of_held {m : Memory} {F : Multiset Code} (h : Sound m F) {f : Code} {user : ℕ}
    (hf : f ∈ F) (huser : f.user = some user) : 0 < m.strong user := by
  have hle := le_weight (w := Code.holds user) hf
  rw [Code.holds, if_pos huser] at hle
  rw [h.held user]
  omega

/-- A user that gains a reference which a frame holds. -/
theorem sound_retain {m m' : Memory} {F F' : Multiset Code} (h : Sound m F) {user : ℕ}
    (hlive : 0 < m.strong user) (husers : m'.users = (m.retain user).users)
    (hhandles : m'.handles = m.handles) (hregistry : m'.registry = m.registry)
    (hframes : ∀ u, weight (Code.holds u) F' = weight (Code.holds u) F + if user = u then 1 else 0) :
    Sound m' F' := by
  have hstrong : ∀ u, m'.strong u = m.strong u + if user = u then 1 else 0 := by
    intro u
    rw [← strong_retain m user u hlive, Memory.strong, husers]
    rfl
  refine ⟨fun u => ?_, hhandles ▸ h.fresh, fun u hu => ?_⟩
  · rw [hstrong, h.held, hframes, hhandles, Nat.add_assoc]
  · rw [hregistry]
    rw [hstrong] at hu
    split at hu
    · rename_i he
      exact h.listed u (he ▸ hlive)
    · exact h.listed u hu

/-- A user that loses the reference of a frame. -/
theorem sound_release {m m' : Memory} {F F' : Multiset Code} (h : Sound m F) {user : ℕ}
    (husers : m'.users = (m.release user).users) (hhandles : m'.handles = m.handles)
    (hregistry : m'.registry = m.registry)
    (hframes : ∀ u, weight (Code.holds u) F = weight (Code.holds u) F' + if user = u then 1 else 0) :
    Sound m' F' := by
  have hstrong : ∀ u, m'.strong u = m.strong u - if user = u then 1 else 0 := by
    intro u
    rw [← strong_release m user u, Memory.strong, husers]
    rfl
  refine ⟨fun u => ?_, hhandles ▸ h.fresh, fun u hu => ?_⟩
  · rw [hstrong, h.held, hframes, hhandles]
    omega
  · rw [hregistry]
    refine h.listed u ?_
    rw [hstrong] at hu
    omega

/-- A step that moves no reference. -/
theorem sound_same {m m' : Memory} {F F' : Multiset Code} (h : Sound m F)
    (hstrong : ∀ u, m'.strong u = m.strong u) (hhandles : m'.handles = m.handles)
    (hregistry : m'.registry = m.registry)
    (hframes : ∀ u, weight (Code.holds u) F' = weight (Code.holds u) F) : Sound m' F' := by
  refine ⟨fun u => ?_, hhandles ▸ h.fresh, fun u hu => ?_⟩
  · rw [hstrong, h.held, hframes, hhandles]
  · rw [hregistry]
    exact h.listed u (hstrong u ▸ hu)

/-- A reference that goes from a frame into the table. -/
theorem sound_createHandle {m m' : Memory} {F F' : Multiset Code} (h : Sound m F) {user : ℕ}
    (hstrong : ∀ u, m'.strong u = m.strong u) (hhandles : m'.handles = (m.handles.create user).2)
    (hregistry : m'.registry = m.registry)
    (hframes : ∀ u, weight (Code.holds u) F = weight (Code.holds u) F' + if user = u then 1 else 0) :
    Sound m' F' := by
  refine ⟨fun u => ?_, hhandles ▸ h.fresh.create user, fun u hu => ?_⟩
  · rw [hstrong, h.held, hframes, hhandles, HandleTable.count_create h.fresh]
    simp only [decide_eq_true_eq]
    omega
  · rw [hregistry]
    exact h.listed u (hstrong u ▸ hu)

theorem sound_close {m : Memory} {F : Multiset Code} (h : Sound m F) (handle : ℕ) :
    Sound (m.closeHandle handle) F := by
  unfold Memory.closeHandle
  split
  · exact h
  · rename_i user hget
    have hstrong : ∀ u, (Memory.release { m with handles := m.handles.close handle } user).strong u =
        m.strong u - if user = u then 1 else 0 := strong_release _ user
    refine ⟨fun u => ?_, h.fresh.close handle, fun u hu => ?_⟩
    · have hcount := HandleTable.count_close h.fresh hget fun v => decide (v = u)
      rw [hstrong, h.held, ← hcount, release_handles]
      simp only [decide_eq_true_eq]
      omega
    · rw [hstrong] at hu
      exact h.listed u (by omega)

theorem sound_register {m : Memory} {F F' : Multiset Code} (h : Sound m F) (userId : ℕ)
    (info : UserInfo) (hframes : ∀ u, weight (Code.holds u) F' = weight (Code.holds u) F +
      if m.users.length = u then 1 else 0) : Sound (m.registerUser userId info) F' := by
  refine ⟨fun u => ?_, h.fresh, fun u hu => ?_⟩
  · rw [strong_registerUser, h.held, hframes, Nat.add_assoc]
    rfl
  · rw [strong_registerUser] at hu
    refine List.mem_append.mpr ?_
    by_cases he : m.users.length = u
    · exact .inr (List.mem_singleton.mpr he.symm)
    · rw [if_neg he, Nat.add_zero] at hu
      exact .inl (List.mem_filter.mpr ⟨h.listed u hu, by simpa using hu⟩)

theorem sound_step {m : Memory} {code : Code} {R : Multiset Code} {o : Outcome Memory Code}
    (h : Steps m code o) (hI : Sound m (code ::ₘ R)) : Sound o.shared (o.frames + R) := by
  cases h with
  | plain hcode hpush hspawn =>
    refine sound_same hI (fun _ => rfl) rfl rfl fun u => ?_
    rw [weight_add, weight_plain u m hpush hspawn, weight_cons, hcode.holds u]
  | borrow hget hcode =>
    refine sound_retain hI (hI.live_of_get hget) rfl rfl rfl fun u => ?_
    rw [weight_add, weight_frames, weight_cons]
    simp [holds_of_user hcode.user]
    omega
  | search hfind =>
    refine sound_retain hI (find_strong hfind).1 rfl rfl rfl fun u => ?_
    rw [weight_add, weight_frames, weight_cons]
    simp [Code.holds, Code.user]
    omega
  | spawnSignOut hget hcode =>
    refine sound_retain hI (hI.live_of_get hget) rfl rfl rfl fun u => ?_
    rw [weight_add, weight_frames, weight_cons]
    simp [holds_of_user hcode.user]
    omega
  | close handle =>
    have hclosed := sound_close hI handle
    refine sound_same hclosed (fun _ => rfl) rfl rfl fun u => ?_
    rw [weight_add, weight_frames, weight_cons]
    simp
  | listen | unlisten | enter | missed | notify | fire =>
    refine sound_same hI (fun _ => rfl) rfl rfl fun u => ?_
    rw [weight_add, weight_frames, weight_cons]
    simp [Code.holds, Code.user]
  | @notified localId event after =>
    refine sound_same hI (fun _ => rfl) rfl rfl fun u => ?_
    rw [weight_add, weight_frames, weight_cons]
    have hnow : (Code.notifying localId event [] after).user = some after.user := rfl
    simp [holds_of_user (After.user_code after), holds_of_user hnow]
  | signOut | signedOut =>
    refine sound_same hI (fun u => strong_setState _ _ u _) rfl rfl fun u => ?_
    rw [weight_add, weight_frames, weight_cons]
    simp [Code.holds, Code.user, After.user]
  | found hfind =>
    refine sound_retain hI (find_strong hfind).1 rfl rfl rfl fun u => ?_
    rw [weight_add, weight_frames, weight_cons]
    simp [Code.holds, Code.user]
    omega
  | register =>
    refine sound_register hI _ _ fun u => ?_
    rw [weight_add, weight_frames, weight_cons]
    simp [Code.holds, Code.user, After.user]
    omega
  | finish | create =>
    refine sound_createHandle hI (fun _ => rfl) rfl rfl fun u => ?_
    rw [weight_add, weight_frames, weight_cons]
    simp [Code.holds, Code.user]
    omega
  | @compared user1 handle2 =>
    cases user1 with
    | none =>
      refine sound_same hI (fun _ => rfl) rfl rfl fun u => ?_
      rw [weight_add, weight_frames, weight_cons]
      simp [Code.holds, Code.user]
    | some user =>
      refine sound_release hI rfl rfl rfl fun u => ?_
      rw [weight_add, weight_frames, weight_cons]
      simp [Code.holds, Code.user]
      omega
  | drop =>
    refine sound_release hI rfl rfl rfl fun u => ?_
    rw [weight_add, weight_frames, weight_cons]
    simp [Code.holds, Code.user]
    omega

theorem reaches_sound {G : Guard Memory Code Choice} {n : ℕ} {c : Config Memory Code}
    (h : machine.Reaches G (start n) c) : Sound c.shared c.frames :=
  h.preserved (sound_start n) fun _ _ _ _ _ _ hI hs => sound_step (steps_inv hs) hI

end XGameRuntime.XUser
