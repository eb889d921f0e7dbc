import Mathlib.Data.Finset.Card
import XGameRuntime.XUser.Holders

/-! # One user for an account

A sign-in that has found no user of its account registers one later, under another lock. Two that
do so at once leave the account with two users.
-/

namespace XGameRuntime.XUser
open Concurrency
set_option autoImplicit false

/-! ## What is counted -/

def Event.opens (user : ℕ) : Event → Bool
  | .opened u _ _ => decide (u = user)
  | _ => false

def Event.beginsPeriod (userId : ℕ) : Event → Bool
  | .opened _ id first => decide (id = userId) && first
  | _ => false

def Event.signsIn (user : ℕ) : Event → Bool
  | .fired .SIGNED_IN_AGAIN u _ => decide (u = user)
  | _ => false

def Event.signsInTo (userId : ℕ) : Event → Bool
  | .fired .SIGNED_IN_AGAIN _ localId => decide (localId = userId)
  | _ => false

namespace Memory
variable (m : Memory)

/-- How often a handle to the user has been handed out. -/
def handed (user : ℕ) : ℕ := m.log.countP (Event.opens user)

/-- The periods that have begun in which some handle to the account is open. -/
def periodsFor (userId : ℕ) : ℕ := m.log.countP (Event.beginsPeriod userId)

/-- How often `SignedInAgain` has been fired for the user. -/
def firedOf (user : ℕ) : ℕ := m.log.countP (Event.signsIn user)

def firedFor (userId : ℕ) : ℕ := m.log.countP (Event.signsInTo userId)

/-- The accounts of all users that have been created. -/
def accounts : List ℕ := m.users.map UserState.userId

def createdFor (userId : ℕ) : ℕ := m.accounts.count userId

/-- The users of the account to whom no handle has been handed out yet. -/
def freshFor (userId : ℕ) : ℕ :=
  ((Finset.range m.accounts.length).filter fun user =>
    m.accounts[user]? = some userId ∧ m.handed user = 0).card

end Memory

/-- The user and the local id for which a thread is about to fire `SignedInAgain`. -/
def Code.signsIn : Code → Option (ℕ × ℕ)
  | .fire localId .SIGNED_IN_AGAIN after => some (after.user, localId)
  | _ => none

def Code.unfired (user : ℕ) (f : Code) : ℕ := if f.signsIn.any fun x => decide (x.1 = user) then 1 else 0

def Code.unfiredFor (userId : ℕ) (f : Code) : ℕ :=
  if f.signsIn.any fun x => decide (x.2 = userId) then 1 else 0

/-- A sign-in that will hand out a handle to the user. -/
def Code.WillOpen (user : ℕ) : Code → Prop
  | .finish _ u => u = user
  | .fire _ _ (.handle _ u) => u = user
  | .notifying _ _ _ (.handle _ u) => u = user
  | _ => False

/-- The condition: a user is registered only while its account has no other that is alive, and a
handle is handed out only to a user that has an open one or has never had one. -/
def oneAtATime : Guard Memory Code Choice := fun m _ f _ =>
  match f with
  | .register _ userId _ =>
      ∀ user < m.users.length, 0 < m.strong user → m.userId user ≠ some userId
  | .finish _ user | .create user _ => m.handed user = 0 ∨ 0 < m.handlesTo user
  | _ => True

instance : ∀ (m : Memory) (R : Multiset Code) (f : Code) (x : Choice),
    Decidable (oneAtATime m R f x) := by
  intro m R f x
  unfold oneAtATime
  split <;> infer_instance

/-! ## One user for an account -/

theorem userId_eq (m : Memory) (user : ℕ) : m.userId user = m.accounts[user]? :=
  List.getElem?_map.symm

theorem accounts_modify (m : Memory) (user : ℕ) (g : UserState → UserState)
    (hg : ∀ u, (g u).userId = u.userId) : (m.users.modify user g).map UserState.userId = m.accounts := by
  refine List.ext_getElem? fun other => ?_
  rw [List.getElem?_map, users_modify, Memory.accounts, List.getElem?_map]
  congr 1
  funext u
  split
  · exact hg u
  · rfl

theorem accounts_retain (m : Memory) (user : ℕ) : (m.retain user).accounts = m.accounts :=
  accounts_modify m user _ fun _ => rfl

theorem accounts_release (m : Memory) (user : ℕ) : (m.release user).accounts = m.accounts :=
  accounts_modify m user _ fun _ => rfl

theorem accounts_setState (m : Memory) (user : ℕ) (state : XUserStateValue) :
    (m.setState user state).accounts = m.accounts :=
  accounts_modify m user _ fun _ => rfl

theorem accounts_registerUser (m : Memory) (userId : ℕ) (info : UserInfo) :
    (m.registerUser userId info).accounts = m.accounts ++ [userId] :=
  List.map_append

theorem lt_of_live {m : Memory} {user : ℕ} (h : 0 < m.strong user) :
    user < m.accounts.length := by
  rw [Memory.accounts, List.length_map]
  exact lt_of_strong h

/-- Nobody comes to life, except by being registered. -/
theorem steps_alive {m : Memory} {code : Code} {R : Multiset Code} {o : Outcome Memory Code}
    (h : Steps m code o) (hI : Sound m (code ::ₘ R)) :
    (∃ call userId info, code = .register call userId info ∧ o = ⟨m.registerUser userId info,
      [.fire userId .SIGNED_IN_AGAIN (.handle call m.users.length)], []⟩) ∨
    (o.shared.accounts = m.accounts ∧ ∀ user, 0 < o.shared.strong user → 0 < m.strong user) := by
  have hretain : ∀ v, 0 < m.strong v → ∀ user, 0 < (m.retain v).strong user → 0 < m.strong user := by
    intro v hv user h
    rw [strong_retain m v user hv] at h
    split at h
    · rename_i he
      exact he ▸ hv
    · exact h
  have hrelease : ∀ (m : Memory) (v user : ℕ),
      0 < (m.release v).strong user → 0 < m.strong user := by
    intro m v user h
    rw [strong_release m v user] at h
    omega
  cases h with
  | @register call userId info => exact .inl ⟨call, userId, info, rfl, rfl⟩
  | borrow hget _ | spawnSignOut hget _ =>
    exact .inr ⟨accounts_retain m _, hretain _ (hI.live_of_get hget)⟩
  | search hfind | found hfind =>
    exact .inr ⟨accounts_retain m _, hretain _ (find_strong hfind).1⟩
  | close handle =>
    refine .inr ?_
    show (m.closeHandle handle).accounts = m.accounts ∧
      ∀ user, 0 < (m.closeHandle handle).strong user → 0 < m.strong user
    unfold Memory.closeHandle
    split
    · exact ⟨rfl, fun _ hu => hu⟩
    · exact ⟨accounts_release _ _, hrelease _ _⟩
  | signOut | signedOut =>
    refine .inr ⟨accounts_setState m _ _, fun user hu => ?_⟩
    rw [← strong_setState m _ user]
    exact hu
  | @compared user1 handle2 =>
    cases user1 with
    | none => exact .inr ⟨rfl, fun _ hu => hu⟩
    | some v => exact .inr ⟨accounts_release m v, hrelease m v⟩
  | @drop v => exact .inr ⟨accounts_release m v, hrelease m v⟩
  | _ => exact .inr ⟨rfl, fun _ hu => hu⟩

/-- An account has one user that is alive. -/
def Unique (m : Memory) : Prop :=
  ∀ user other id, 0 < m.strong user → 0 < m.strong other → m.accounts[user]? = some id →
    m.accounts[other]? = some id → user = other

theorem unique_step {m : Memory} {code : Code} {R : Multiset Code} {x : Choice}
    {o : Outcome Memory Code} (hG : oneAtATime m R code x) (h : Steps m code o)
    (hI : Sound m (code ::ₘ R)) (hU : Unique m) : Unique o.shared := by
  rcases steps_alive h hI with ⟨call, userId, info, rfl, rfl⟩ | ⟨hid, halive⟩
  · have hnew : ∀ user id, 0 < (m.registerUser userId info).strong user →
        (m.registerUser userId info).accounts[user]? = some id →
        (user = m.accounts.length ∧ id = userId) ∨
          (0 < m.strong user ∧ m.accounts[user]? = some id) := by
      intro user id hs hid
      rw [accounts_registerUser] at hid
      rcases getElem?_push_cases hid with hid | hid
      · have hlt := (List.getElem?_eq_some_iff.mp hid).1
        rw [Memory.accounts, List.length_map] at hlt
        rw [strong_registerUser, if_neg (Nat.ne_of_gt hlt)] at hs
        exact .inr ⟨hs, hid⟩
      · exact .inl hid
    have hother : ∀ user, 0 < m.strong user → m.accounts[user]? ≠ some userId := by
      intro user hs hid
      exact hG user (lt_of_strong hs) hs ((userId_eq m user).trans hid)
    intro user other id hu ho huid hoid
    rcases hnew user id hu huid with ⟨hunew, rfl⟩ | ⟨hulive, hufor⟩
    · rcases hnew other _ ho hoid with ⟨honew, -⟩ | ⟨holive, hofor⟩
      · exact hunew.trans honew.symm
      · exact absurd hofor (hother other holive)
    · rcases hnew other id ho hoid with ⟨-, rfl⟩ | ⟨holive, hofor⟩
      · exact absurd hufor (hother user hulive)
      · exact hU user other id hulive holive hufor hofor
  · intro user other id hu ho huid hoid
    rw [hid] at huid hoid
    exact hU user other id (halive user hu) (halive other ho) huid hoid

/-! ## One event for a user -/

theorem firedOf_record (m : Memory) (e : Event) (user : ℕ) :
    (m.record e).firedOf user = m.firedOf user + if e.signsIn user then 1 else 0 :=
  List.countP_cons

theorem firedFor_record (m : Memory) (e : Event) (userId : ℕ) :
    (m.record e).firedFor userId = m.firedFor userId + if e.signsInTo userId then 1 else 0 :=
  List.countP_cons

/-- `SignedInAgain` is fired once for each user, or is about to be. -/
structure FiredOnce (m : Memory) (F : Multiset Code) : Prop where
  user : ∀ user, m.firedOf user + weight (Code.unfired user) F =
    if user < m.accounts.length then 1 else 0
  account : ∀ userId, m.firedFor userId + weight (Code.unfiredFor userId) F = m.createdFor userId

@[simp] theorem signsIn_game : Code.game.signsIn = none := rfl

theorem Code.Plain.signsIn {f : Code} (h : f.Plain) : f.signsIn = none := by
  cases f <;> first | rfl | cases h

theorem Code.Borrows.signsIn {f : Code} {v : ℕ} (h : f.Borrows v) : f.signsIn = none := by
  cases f <;> first | rfl | cases h

theorem Code.SignsOut.signsIn {f : Code} {v : ℕ} (h : f.SignsOut v) : f.signsIn = none := by
  cases f <;> first | rfl | cases h

theorem After.signsIn_code (after : After) : after.code.signsIn = none := by
  cases after <;> rfl

/-- A step that fires nothing and signs nobody in. -/
theorem firedOnce_same {m : Memory} {code : Code} {R : Multiset Code} {o : Outcome Memory Code}
    (h : FiredOnce m (code ::ₘ R)) (haccounts : o.shared.accounts = m.accounts)
    (hlog : ∀ user, o.shared.firedOf user = m.firedOf user)
    (hlogFor : ∀ userId, o.shared.firedFor userId = m.firedFor userId)
    (hcode : code.signsIn = none) (hframes : ∀ f ∈ o.frames, f.signsIn = none) :
    FiredOnce o.shared (o.frames + R) := by
  have hzero : ∀ user (f : Code), f.signsIn = none → f.unfired user = 0 := by
    intro user f hf
    simp [Code.unfired, hf]
  have hzeroFor : ∀ userId (f : Code), f.signsIn = none → f.unfiredFor userId = 0 := by
    intro userId f hf
    simp [Code.unfiredFor, hf]
  refine ⟨fun user => ?_, fun userId => ?_⟩
  · have huser := h.user user
    rw [weight_cons, hzero user code hcode] at huser
    rw [weight_add, weight_eq_zero _ fun f hf => hzero user f (hframes f hf), hlog, haccounts]
    exact huser
  · have hfor := h.account userId
    rw [weight_cons, hzeroFor userId code hcode] at hfor
    rw [weight_add, weight_eq_zero _ fun f hf => hzeroFor userId f (hframes f hf), hlogFor,
      Memory.createdFor, haccounts]
    exact hfor

theorem firedOnce_register {m : Memory} {call userId : ℕ} {info : UserInfo} {R : Multiset Code}
    (h : FiredOnce m (.register call userId info ::ₘ R)) :
    FiredOnce (m.registerUser userId info)
      (Outcome.frames ⟨m.registerUser userId info,
        [.fire userId .SIGNED_IN_AGAIN (.handle call m.users.length)], []⟩ + R) := by
  have hlength : m.users.length = m.accounts.length := (List.length_map _).symm
  refine ⟨fun user => ?_, fun id => ?_⟩
  · have huser := h.user user
    rw [weight_cons] at huser
    rw [weight_add, weight_frames, accounts_registerUser, List.length_append, hlength]
    change m.firedOf user + _ = _
    simp only [Code.unfired, Code.signsIn, Option.any_none, Option.any_some, After.user,
      Bool.false_eq_true, if_false, decide_eq_true_eq, Nat.zero_add, List.map_cons, List.map_nil,
      List.sum_cons, List.sum_nil, Nat.add_zero, List.length_singleton] at huser ⊢
    by_cases heq : m.accounts.length = user
    · rw [if_neg (by omega)] at huser
      rw [if_pos heq, if_pos (by omega)]
      omega
    · rw [if_neg heq, Nat.zero_add, huser]
      exact if_congr (by omega) rfl rfl
  · have hfor := h.account id
    rw [weight_cons] at hfor
    rw [weight_add, weight_frames, Memory.createdFor, accounts_registerUser, List.count_append,
      List.count_singleton]
    change m.firedFor id + _ = m.createdFor id + _
    simp [Code.unfiredFor, Code.signsIn] at hfor ⊢
    omega

theorem firedOnce_fire {m : Memory} {localId : ℕ} {event : ChangeEvent} {after : After}
    {R : Multiset Code} (h : FiredOnce m (.fire localId event after ::ₘ R)) :
    FiredOnce ({ m with changeLock := true }.record (.fired event after.user localId))
      (Outcome.frames ⟨{ m with changeLock := true }.record (.fired event after.user localId),
        [.notifying localId event m.listeners after], []⟩ + R) := by
  refine ⟨fun user => ?_, fun userId => ?_⟩
  · have huser := h.user user
    rw [weight_cons] at huser
    rw [weight_add, weight_frames, firedOf_record]
    change m.firedOf user + _ + _ = if user < m.accounts.length then 1 else 0
    cases event <;> simp [Code.unfired, Code.signsIn, Event.signsIn] at huser ⊢ <;> omega
  · have hfor := h.account userId
    rw [weight_cons] at hfor
    rw [weight_add, weight_frames, firedFor_record]
    change m.firedFor userId + _ + _ = m.createdFor userId
    cases event <;> simp [Code.unfiredFor, Code.signsIn, Event.signsInTo] at hfor ⊢ <;> omega

theorem firedOnce_step {m : Memory} {code : Code} {R : Multiset Code} {o : Outcome Memory Code}
    (h : Steps m code o) (hI : Sound m (code ::ₘ R)) (hF : FiredOnce m (code ::ₘ R)) :
    FiredOnce o.shared (o.frames + R) := by
  rcases steps_alive h hI with ⟨call, userId, info, rfl, rfl⟩ | ⟨haccounts, -⟩
  · exact firedOnce_register hF
  · cases h with
    | fire => exact firedOnce_fire hF
    | register => exact firedOnce_register hF
    | plain hcode hpush hspawn =>
      refine firedOnce_same hF rfl (fun _ => rfl) (fun _ => rfl) hcode.signsIn fun f hf => ?_
      exact Code.Plain.signsIn (forall_frames.mpr ⟨hpush, hspawn⟩ f hf)
    | borrow hget hcode =>
      refine firedOnce_same hF haccounts (fun _ => rfl) (fun _ => rfl) rfl ?_
      simp [Outcome.frames, hcode.signsIn]
    | spawnSignOut hget hcode =>
      refine firedOnce_same hF haccounts (fun _ => rfl) (fun _ => rfl) rfl ?_
      simp [Outcome.frames, hcode.signsIn]
    | @notified localId event after =>
      refine firedOnce_same hF haccounts (fun _ => rfl) (fun _ => rfl) rfl ?_
      simp [Outcome.frames, after.signsIn_code]
    | close handle =>
      have hlog : (m.closeHandle handle).log = m.log := closeHandle_log m handle
      refine firedOnce_same hF haccounts (fun _ => ?_) (fun _ => ?_) rfl (by simp [Outcome.frames])
      · exact congrArg (List.countP _) hlog
      · exact congrArg (List.countP _) hlog
    | @compared user1 handle2 =>
      cases user1 <;> exact firedOnce_same hF haccounts (fun _ => rfl) (fun _ => rfl) rfl
        (by simp [Outcome.frames])
    | _ =>
      refine firedOnce_same hF haccounts (fun _ => rfl) (fun _ => rfl) rfl ?_
      simp [Outcome.frames, Code.signsIn]

/-! ## One event for a period -/

/-- Every user has been handed out or is about to be, and the periods of an account have begun with
the first handles to its users. -/
structure Handed (m : Memory) (F : Multiset Code) : Prop where
  old : ∀ user, 0 < m.handed user → user < m.accounts.length
  opened : ∀ user, 0 < m.handlesTo user → 0 < m.handed user
  coming : ∀ user < m.accounts.length, 0 < m.handed user ∨ ∃ f ∈ F, f.WillOpen user
  periods : ∀ userId, m.periodsFor userId + m.freshFor userId = m.createdFor userId

section Fresh
variable {m m' : Memory} {user id : ℕ}

theorem freshFor_same (haccounts : m'.accounts = m.accounts)
    (hhanded : ∀ user, m'.handed user = m.handed user) (userId : ℕ) :
    m'.freshFor userId = m.freshFor userId := by
  unfold Memory.freshFor
  simp only [haccounts, hhanded]

theorem freshFor_opened (haccounts : m'.accounts = m.accounts)
    (hhanded : ∀ u, m'.handed u = m.handed u + if user = u then 1 else 0)
    (hid : m.accounts[user]? = some id) (userId : ℕ) :
    m'.freshFor userId + (if userId = id ∧ m.handed user = 0 then 1 else 0) =
      m.freshFor userId := by
  have hlt := (List.getElem?_eq_some_iff.mp hid).1
  unfold Memory.freshFor
  simp only [haccounts, hhanded]
  split
  · rename_i h
    obtain ⟨rfl, hfresh⟩ := h
    have hmem : user ∈ (Finset.range m.accounts.length).filter fun u =>
        m.accounts[u]? = some userId ∧ m.handed u = 0 :=
      Finset.mem_filter.mpr ⟨Finset.mem_range.mpr hlt, hid, hfresh⟩
    rw [← Finset.card_erase_add_one hmem]
    congr 2
    refine Finset.ext fun u => ?_
    simp only [Finset.mem_filter, Finset.mem_erase, Finset.mem_range]
    constructor
    · rintro ⟨hu, hacc, hzero⟩
      refine ⟨fun he => ?_, hu, hacc, by omega⟩
      rw [if_pos he.symm] at hzero
      cases hzero
    · rintro ⟨hne, hu, hacc, hzero⟩
      exact ⟨hu, hacc, by rw [if_neg (Ne.symm hne), hzero]⟩
  · rename_i h
    rw [Nat.add_zero]
    refine congrArg Finset.card (Finset.filter_congr fun u _ => and_congr_right fun hacc => ?_)
    by_cases he : user = u
    · subst he
      rw [hid, Option.some.injEq] at hacc
      have hne : m.handed user ≠ 0 := fun hzero => h ⟨hacc.symm, hzero⟩
      omega
    · rw [if_neg he, Nat.add_zero]

theorem freshFor_register (hold : ∀ user, 0 < m.handed user → user < m.accounts.length)
    (haccounts : m'.accounts = m.accounts ++ [id]) (hhanded : ∀ u, m'.handed u = m.handed u)
    (userId : ℕ) :
    m'.freshFor userId = m.freshFor userId + if id = userId then 1 else 0 := by
  have hnew : m.handed m.accounts.length = 0 := by
    by_contra hne
    exact Nat.lt_irrefl _ (hold _ (Nat.pos_of_ne_zero hne))
  have hsame : (Finset.range m.accounts.length).filter (fun u =>
      (m.accounts ++ [id])[u]? = some userId ∧ m.handed u = 0) =
      (Finset.range m.accounts.length).filter fun u =>
        m.accounts[u]? = some userId ∧ m.handed u = 0 := by
    refine Finset.filter_congr fun u hu => ?_
    rw [List.getElem?_append_left (Finset.mem_range.mp hu)]
  unfold Memory.freshFor
  simp only [haccounts, hhanded, List.length_append, List.length_singleton]
  rw [Finset.range_add_one, Finset.filter_insert, hsame, List.getElem?_concat_length]
  by_cases he : id = userId
  · rw [if_pos ⟨congrArg some he, hnew⟩, if_pos he, Finset.card_insert_of_notMem]
    simp
  · rw [if_neg (fun h => he (Option.some.inj h.1)), if_neg he, Nat.add_zero]

end Fresh

section Handing
variable {m m' : Memory} {code : Code} {R : Multiset Code}

/-- A step that hands nothing out. -/
theorem handed_same {o : Outcome Memory Code} (h : Handed m (code ::ₘ R))
    (haccounts : o.shared.accounts = m.accounts)
    (hhanded : ∀ user, o.shared.handed user = m.handed user)
    (hperiods : ∀ userId, o.shared.periodsFor userId = m.periodsFor userId)
    (hhandles : ∀ user, 0 < o.shared.handlesTo user → 0 < m.handlesTo user)
    (hcode : ∀ user, code.WillOpen user → ∃ f ∈ o.frames, f.WillOpen user) :
    Handed o.shared (o.frames + R) := by
  refine ⟨fun user hu => ?_, fun user hu => ?_, fun user hu => ?_, fun userId => ?_⟩
  · rw [haccounts]
    exact h.old user (hhanded user ▸ hu)
  · rw [hhanded]
    exact h.opened user (hhandles user hu)
  · rw [haccounts] at hu
    rw [hhanded]
    refine (h.coming user hu).imp_right fun ⟨f, hf, hopen⟩ => ?_
    rcases Multiset.mem_cons.mp hf with rfl | hf
    · obtain ⟨g, hg, hopen⟩ := hcode user hopen
      exact ⟨g, Multiset.mem_add.mpr (.inl hg), hopen⟩
    · exact ⟨f, Multiset.mem_add.mpr (.inr hf), hopen⟩
  · rw [hperiods, freshFor_same haccounts hhanded, Memory.createdFor, haccounts]
    exact h.periods userId

theorem handed_register {call userId : ℕ} {info : UserInfo}
    (h : Handed m (.register call userId info ::ₘ R)) :
    Handed (m.registerUser userId info) (Outcome.frames ⟨m.registerUser userId info,
      [.fire userId .SIGNED_IN_AGAIN (.handle call m.users.length)], []⟩ + R) := by
  have hlength : m.users.length = m.accounts.length := (List.length_map _).symm
  have haccounts := accounts_registerUser m userId info
  have hfresh : ∀ id, (m.registerUser userId info).freshFor id =
      m.freshFor id + if userId = id then 1 else 0 :=
    freshFor_register h.old haccounts fun _ => rfl
  refine ⟨fun user hu => ?_, h.opened, fun user hu => ?_, fun id => ?_⟩
  · rw [haccounts, List.length_append]
    exact Nat.lt_of_lt_of_le (h.old user hu) (Nat.le_add_right _ _)
  · rw [haccounts, List.length_append, List.length_singleton] at hu
    by_cases he : user = m.accounts.length
    · refine .inr ⟨_, Multiset.mem_add.mpr (.inl (Multiset.mem_coe.mpr List.mem_cons_self)), ?_⟩
      exact hlength.trans he.symm
    · refine (h.coming user (by omega)).imp_right fun ⟨f, hf, hopen⟩ => ?_
      rcases Multiset.mem_cons.mp hf with rfl | hf
      · cases hopen
      · exact ⟨f, Multiset.mem_add.mpr (.inr hf), hopen⟩
  · have hperiods := h.periods id
    rw [hfresh, Memory.createdFor, haccounts, List.count_append, List.count_singleton]
    simp only [beq_iff_eq]
    change m.periodsFor id + _ = m.createdFor id + _
    omega

/-- The first handle to a user is the first one to its account. -/
theorem first_iff {user id : ℕ} (hid : m.accounts[user]? = some id)
    (hG : m.handed user = 0 ∨ 0 < m.handlesTo user) (hlive : 0 < m.strong user)
    (hI : Sound m (code ::ₘ R)) (hU : Unique m) (hH : Handed m (code ::ₘ R)) :
    m.openHandles id = 0 ↔ m.handed user = 0 := by
  constructor
  · intro hclosed
    refine hG.resolve_right fun hopen => ?_
    obtain ⟨handle, v, hget, hv⟩ := HandleTable.exists_of_count_pos hopen
    rw [decide_eq_true_eq] at hv
    subst hv
    have hpos := HandleTable.count_pos hI.fresh hget (p := fun u => decide (m.userId u = some id))
      (by rw [userId_eq, hid, decide_eq_true_eq])
    exact absurd hclosed (Nat.ne_of_gt hpos)
  · intro hfresh
    by_contra hopen
    obtain ⟨handle, v, hget, hv⟩ := HandleTable.exists_of_count_pos (Nat.pos_of_ne_zero hopen)
    rw [decide_eq_true_eq, userId_eq] at hv
    have hsame := hU v user id (hI.live_of_get hget) hlive hv hid
    subst hsame
    have hpos := HandleTable.count_pos hI.fresh hget (p := fun u => decide (u = v)) (by simp)
    exact Nat.ne_of_gt (hH.opened v hpos) hfresh

theorem handed_open {user id : ℕ} (hid : m.accounts[user]? = some id)
    (hfirst : m.openHandles id = 0 ↔ m.handed user = 0) (h : Handed m (code ::ₘ R))
    (hopen : ∀ u, code.WillOpen u → u = user)
    (haccounts : m'.accounts = m.accounts)
    (hhanded : ∀ u, m'.handed u = m.handed u + if user = u then 1 else 0)
    (hperiods : ∀ userId, m'.periodsFor userId = m.periodsFor userId +
      if userId = id ∧ m.openHandles id = 0 then 1 else 0)
    (hhandles : ∀ u, m'.handlesTo u = m.handlesTo u + if user = u then 1 else 0) :
    Handed m' R := by
  refine ⟨fun u hu => ?_, fun u hu => ?_, fun u hu => ?_, fun userId => ?_⟩
  · rw [haccounts]
    by_cases he : user = u
    · exact he ▸ (List.getElem?_eq_some_iff.mp hid).1
    · rw [hhanded, if_neg he] at hu
      exact h.old u hu
  · rw [hhanded]
    by_cases he : user = u
    · rw [if_pos he]
      exact Nat.succ_pos _
    · rw [hhandles, if_neg he] at hu
      exact Nat.lt_of_lt_of_le (h.opened u hu) (Nat.le_add_right _ _)
  · rw [haccounts] at hu
    rw [hhanded]
    by_cases he : user = u
    · exact .inl (by rw [if_pos he]; exact Nat.succ_pos _)
    · rw [if_neg he]
      refine (h.coming u hu).imp_right fun ⟨f, hf, hwill⟩ => ?_
      rcases Multiset.mem_cons.mp hf with rfl | hf
      · exact absurd (hopen u hwill).symm he
      · exact ⟨f, hf, hwill⟩
  · have hfresh := freshFor_opened haccounts hhanded hid userId
    have hbefore := h.periods userId
    rw [hperiods, Memory.createdFor, haccounts, if_congr (and_congr_right' hfirst) rfl rfl]
    change _ = m.createdFor userId
    omega

end Handing

theorem handed_createHandle (m : Memory) (user u : ℕ) :
    (m.createHandle user).handed u = m.handed u + if user = u then 1 else 0 := by
  simp [Memory.handed, Memory.createHandle, Event.opens, List.countP_cons]

theorem periodsFor_createHandle {m : Memory} {user id : ℕ} (hid : m.accounts[user]? = some id)
    (userId : ℕ) : (m.createHandle user).periodsFor userId = m.periodsFor userId +
      if userId = id ∧ m.openHandles id = 0 then 1 else 0 := by
  have hget : (m.userId user).getD 0 = id := by
    rw [userId_eq, hid]
    rfl
  unfold Memory.periodsFor Memory.createHandle
  rw [hget, record_log, List.countP_cons]
  simp only [Event.beginsPeriod, Bool.and_eq_true, decide_eq_true_eq]
  rw [if_congr (and_congr_left' eq_comm) rfl rfl]

theorem handlesTo_createHandle {m : Memory} (h : m.handles.Fresh) (user u : ℕ) :
    (m.createHandle user).handlesTo u = m.handlesTo u + if user = u then 1 else 0 := by
  unfold Memory.handlesTo Memory.createHandle
  rw [record_handles, HandleTable.count_create h]
  simp only [decide_eq_true_eq]

theorem handlesTo_close (m : Memory) (h : m.handles.Fresh) (handle u : ℕ) :
    (m.closeHandle handle).handlesTo u ≤ m.handlesTo u := by
  unfold Memory.closeHandle
  split
  · exact Nat.le_refl _
  · rename_i user hget
    have hcount := HandleTable.count_close h hget fun v => decide (v = u)
    unfold Memory.handlesTo
    rw [release_handles, ← hcount]
    exact Nat.le_add_right _ _

theorem Code.Plain.not_willOpen {f : Code} (h : f.Plain) (user : ℕ) : ¬ f.WillOpen user := by
  intro hopen
  cases f <;> first | exact hopen | cases h

/-- A step whose thread is in no sign-in. -/
theorem willOpen_none {code : Code} {o : Outcome Memory Code} (h : ∀ user, ¬ code.WillOpen user) :
    ∀ user, code.WillOpen user → ∃ f ∈ o.frames, f.WillOpen user :=
  fun user hopen => absurd hopen (h user)

theorem handed_step {m : Memory} {code : Code} {R : Multiset Code} {x : Choice}
    {o : Outcome Memory Code} (hG : oneAtATime m R code x) (h : Steps m code o)
    (hI : Sound m (code ::ₘ R)) (hU : Unique m) (hH : Handed m (code ::ₘ R)) :
    Handed o.shared (o.frames + R) := by
  have hid : ∀ user, code.user = some user → ∃ id, m.accounts[user]? = some id := by
    intro user huser
    have hlive := hI.live_of_held (Multiset.mem_cons_self _ _) huser
    exact ⟨_, List.getElem?_eq_getElem (lt_of_live hlive)⟩
  rcases steps_alive h hI with ⟨call, userId, info, rfl, rfl⟩ | ⟨haccounts, -⟩
  · exact handed_register hH
  · cases h with
    | register => exact handed_register hH
    | plain hcode hpush hspawn =>
      exact handed_same hH rfl (fun _ => rfl) (fun _ => rfl) (fun _ => id)
        (willOpen_none hcode.not_willOpen)
    | close handle =>
      have hlog : (m.closeHandle handle).log = m.log := closeHandle_log m handle
      refine handed_same hH haccounts (fun _ => ?_) (fun _ => ?_) (fun user hu => ?_)
        (willOpen_none fun _ => id)
      · exact congrArg (List.countP _) hlog
      · exact congrArg (List.countP _) hlog
      · exact Nat.lt_of_lt_of_le hu (handlesTo_close m hI.fresh handle user)
    | @finish call user =>
      obtain ⟨id, hid⟩ := hid user rfl
      have hlive : 0 < m.strong user := hI.live_of_held (Multiset.mem_cons_self _ _) rfl
      have hfirst := first_iff hid hG hlive hI hU hH
      have hopen := handed_open hid hfirst hH (fun u hu => Eq.symm hu) haccounts
        (handed_createHandle m user) (periodsFor_createHandle hid)
        (handlesTo_createHandle hI.fresh user)
      exact (Multiset.zero_add R).symm ▸ hopen
    | @create user inRegistry =>
      obtain ⟨id, hid⟩ := hid user rfl
      have hlive : 0 < m.strong user := hI.live_of_held (Multiset.mem_cons_self _ _) rfl
      have hfirst := first_iff hid hG hlive hI hU hH
      have hopen := handed_open hid hfirst hH (fun u hu => False.elim hu) haccounts
        (handed_createHandle m user) (periodsFor_createHandle hid)
        (handlesTo_createHandle hI.fresh user)
      exact (Multiset.zero_add R).symm ▸ hopen
    | @fire localId event after =>
      refine handed_same hH haccounts (fun _ => rfl) (fun _ => rfl) (fun _ => id) fun user hopen => ?_
      refine ⟨_, Multiset.mem_coe.mpr List.mem_cons_self, ?_⟩
      cases after <;> exact hopen
    | @notify localId token event after tokens htoken =>
      refine handed_same hH haccounts (fun _ => rfl) (fun _ => rfl) (fun _ => id) fun user hopen => ?_
      refine ⟨.notifying localId event (tokens.erase token) after, ?_, ?_⟩
      · exact Multiset.mem_coe.mpr (List.mem_cons_of_mem _ List.mem_cons_self)
      · cases after <;> exact hopen
    | @notified localId event after =>
      refine handed_same hH haccounts (fun _ => rfl) (fun _ => rfl) (fun _ => id) fun user hopen => ?_
      refine ⟨_, Multiset.mem_coe.mpr List.mem_cons_self, ?_⟩
      cases after <;> exact hopen
    | @compared user1 handle2 =>
      cases user1 <;> exact handed_same hH haccounts (fun _ => rfl) (fun _ => rfl) (fun _ => id)
        (willOpen_none fun _ => id)
    | _ =>
      exact handed_same hH haccounts (fun _ => rfl) (fun _ => rfl) (fun _ => id)
        (willOpen_none fun _ => id)

/-! ## Every run -/

theorem accounts_kept {n : ℕ} {c : Config Memory Code}
    (h : machine.Reaches oneAtATime (start n) c) :
    Unique c.shared ∧ FiredOnce c.shared c.frames ∧ Handed c.shared c.frames := by
  refine h.invariant (J := Sound) (I := fun m F => Unique m ∧ FiredOnce m F ∧ Handed m F)
    (fun c hc => reaches_sound hc) ⟨?_, ?_, ?_⟩ fun m code R x o hG hI ⟨hU, hF, hH⟩ hs => ?_
  · intro user other id hu
    cases hu
  · refine ⟨fun user => ?_, fun userId => ?_⟩
    · rw [weight_start rfl]
      rfl
    · rw [weight_start rfl]
      rfl
  · refine ⟨fun user hu => ?_, fun user hu => ?_, fun user hu => ?_, fun userId => rfl⟩
    · cases hu
    · cases hu
    · cases hu
  · have hsteps := steps_inv hs
    exact ⟨unique_step hG hsteps hI hU, firedOnce_step hsteps hI hF, handed_step hG hsteps hI hU hH⟩

/-- One user object per account. -/
structure OneUserPerAccount (m : Memory) (F : Multiset Code) : Prop where
  /-- At most one user of an account is registered and alive. -/
  unique : ∀ user ∈ m.registry, ∀ other ∈ m.registry, 0 < m.strong user → 0 < m.strong other →
    m.userId user = m.userId other → user = other
  /-- Open handles to one account compare equal, -/
  same : ∀ handle1 handle2 user other, m.handles.get handle1 = some user →
    m.handles.get handle2 = some other → m.userId user = m.userId other →
    m.compare handle1 handle2 = 0
  /-- also to a thread that has looked up the first of them and not yet the second. -/
  comparing : ∀ user handle2 other, .comparing (some user) handle2 ∈ F →
    m.handles.get handle2 = some other → m.userId user = m.userId other →
    compareUsers (some user) (m.handles.get handle2) = 0
  /-- `SignedInAgain` is fired once for each user, or is about to be, -/
  fired : ∀ user < m.users.length, m.firedOf user + weight (Code.unfired user) F = 1
  /-- and each user of an account stands for one period in which a handle to it is open. -/
  periods : ∀ userId, m.periodsFor userId + m.freshFor userId = m.createdFor userId
  idle : (∀ f ∈ F, f = .game) → ∀ userId, m.firedFor userId = m.periodsFor userId

theorem one_user_per_account (n : ℕ) {c : Config Memory Code}
    (h : machine.Reaches oneAtATime (start n) c) : OneUserPerAccount c.shared c.frames := by
  have hI := reaches_sound h
  obtain ⟨hU, hF, hH⟩ := accounts_kept h
  have hunique : ∀ user other, 0 < c.shared.strong user → 0 < c.shared.strong other →
      c.shared.userId user = c.shared.userId other → user = other := by
    intro user other hu ho hsame
    have hid := List.getElem?_eq_getElem (lt_of_live hu)
    refine hU user other _ hu ho hid ?_
    rw [← userId_eq, ← hsame, userId_eq, hid]
  refine ⟨fun user _ other _ hu ho hsame => hunique user other hu ho hsame, ?_, ?_, ?_, hH.periods, ?_⟩
  · intro handle1 handle2 user other h1 h2 hsame
    rw [Memory.compare, h1, h2]
    exact if_pos (hunique user other (hI.live_of_get h1) (hI.live_of_get h2) hsame)
  · intro user handle2 other hf h2 hsame
    rw [h2]
    exact if_pos (hunique user other (hI.live_of_held hf rfl) (hI.live_of_get h2) hsame)
  · intro user hu
    have hfired := hF.user user
    rw [Memory.accounts, List.length_map, if_pos hu] at hfired
    exact hfired
  · intro hgame userId
    have hfired := hF.account userId
    rw [weight_eq_zero _ fun f hf => by rw [hgame f hf]; rfl, Nat.add_zero] at hfired
    have hfresh : c.shared.freshFor userId = 0 := by
      refine Finset.card_eq_zero.mpr (Finset.filter_eq_empty_iff.mpr fun user hu hcond => ?_)
      rcases hH.coming user (Finset.mem_range.mp hu) with hpos | ⟨f, hf, hopen⟩
      · exact Nat.ne_of_gt hpos hcond.2
      · rw [hgame f hf] at hopen
        exact hopen
    rw [hfired, ← hH.periods userId, hfresh, Nat.add_zero]

/-- Two sign-ins one after the other, a duplicate of the first handle, which is then closed. -/
theorem one_user_per_account_shared : ∃ c, machine.Reaches oneAtATime (start 1) c ∧
    OneUserPerAccount c.shared c.frames ∧ c.shared.handles.get 2 = some 0 ∧
    c.shared.handles.get 3 = some 0 ∧ c.shared.compare 2 3 = 0 := by
  have hrun : ((machine.run oneAtATime
      (signInSchedule 1 ++ sections 1 5 ++ signInSchedule 2 ++ sections 2 2 ++
        [(0, .duplicate 1), (0, .go), (0, .close 1)]) (start 1)).any fun c =>
      decide (c.shared.handles.get 2 = some 0 ∧ c.shared.handles.get 3 = some 0 ∧
        c.shared.compare 2 3 = 0)) = true := by
    decide +kernel
  obtain ⟨c, hc, hcheck⟩ := Machine.Reaches.of_run_any hrun
  exact ⟨c, hc, one_user_per_account 1 hc, of_decide_eq_true hcheck⟩

/-- Two sign-ins that have both looked for the account before either registers it. -/
theorem two_users_of_one_account : ¬ ∀ (n : ℕ) (c : Config Memory Code),
    machine.Reaches anyStep (start n) c → OneUserPerAccount c.shared c.frames := by
  intro h
  have hrun : ((machine.run anyStep
      (signInSchedule 1 ++ signInSchedule 2 ++ sections 1 1 ++ sections 2 1 ++ sections 1 4 ++
        sections 2 4) (start 1)).any fun c =>
      decide (c.shared.handles.get 1 = some 0 ∧ c.shared.handles.get 2 = some 1 ∧
        c.shared.userId 0 = c.shared.userId 1)) = true := by
    decide +kernel
  obtain ⟨c, hc, hcheck⟩ := Machine.Reaches.of_run_any hrun
  obtain ⟨h1, h2, hsame⟩ := of_decide_eq_true hcheck
  have hcompare := (h 1 c hc).same 1 2 0 1 h1 h2 hsame
  rw [Memory.compare, h1, h2] at hcompare
  cases hcompare

end XGameRuntime.XUser
