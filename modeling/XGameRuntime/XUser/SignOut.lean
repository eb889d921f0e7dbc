import XGameRuntime.XUser.Holders

/-! # What a sign-out does to its user

A sign-out writes `SigningOut` and later `SignedOut`, whatever the state was, and fires an event
after each. It is a one-way sequence if no sign-out begins on a user that is not signed in.
-/

namespace XGameRuntime.XUser
open Concurrency
set_option autoImplicit false

/-! ## What the property says -/

def Event.wroteTo (user : ℕ) : Event → Option XUserStateValue
  | .wrote u state => if u = user then some state else none
  | _ => none

/-- What a listener is told of the sign-outs of a user. -/
def Event.tells (token user : ℕ) : Event → Option ChangeEvent
  | .notified _ .SIGNED_IN_AGAIN _ => none
  | .notified t event u => if t = token ∧ u = user then some event else none
  | _ => none

namespace Memory
variable (m : Memory)

/-- The states that sign-outs have given to the user, first to last. -/
def writes (user : ℕ) : List XUserStateValue := (m.log.filterMap (Event.wroteTo user)).reverse

def told (token user : ℕ) : List ChangeEvent := (m.log.filterMap (Event.tells token user)).reverse

end Memory

/-- The token was handed out before the first sign-out of the user began. -/
def registeredBefore (token user : ℕ) : List Event → Bool
  | [] => false
  | .registered t :: log =>
      decide (t = token ∧ log.filterMap (Event.wroteTo user) = []) || registeredBefore token user log
  | _ :: log => registeredBefore token user log

/-- A token is never handed out again, so one that is registered has been so ever since. -/
def Memory.Throughout (m : Memory) (token user : ℕ) : Prop :=
  token ∈ m.listeners ∧ registeredBefore token user m.log = true

/-- Where a sign-out is that has begun: before its second write or behind it. -/
inductive Progress where
  | half (user : ℕ)
  | late (user : ℕ)
  deriving DecidableEq, Repr

def Code.progress : Code → Option Progress
  | .fire _ _ (.signOut user) | .notifying _ _ _ (.signOut user) | .signedOut user =>
      some (.half user)
  | .fire _ _ (.done user) | .notifying _ _ _ (.done user) => some (.late user)
  | _ => none

/-- Sign-outs are a one-way sequence. -/
structure OneWay (m : Memory) (F : Multiset Code) : Prop where
  /-- The state only moves from `SignedIn` to `SigningOut` and on to `SignedOut`. -/
  writes : ∀ user, m.writes user <+: [.SigningOut, .SignedOut]
  state : ∀ user state, m.state user = some state →
    state = ((m.writes user).getLast?).getD .SignedIn
  /-- A listener that has been registered throughout has been told so far in this order, -/
  told : ∀ user token, m.Throughout token user → m.told token user <+: [.SIGNING_OUT, .SIGNED_OUT]
  /-- and each event once when no sign-out of the user is on its way. -/
  done : ∀ user, m.writes user ≠ [] →
    (∀ f ∈ F, f.progress ≠ some (.half user) ∧ f.progress ≠ some (.late user)) →
      m.writes user = [.SigningOut, .SignedOut] ∧
      ∀ token, m.Throughout token user → m.told token user = [.SIGNING_OUT, .SIGNED_OUT]

/-- The condition: a sign-out begins on a user that is signed in. -/
def signedInFirst : Guard Memory Code Choice := fun m _ f _ =>
  match f with
  | .signOut user => m.state user = some .SignedIn
  | _ => True

instance : ∀ (m : Memory) (R : Multiset Code) (f : Code) (x : Choice),
    Decidable (signedInFirst m R f x) := by
  intro m R f x
  unfold signedInFirst
  split <;> infer_instance

/-! ## One step -/

def Code.counts (p : Progress) (f : Code) : ℕ := if f.progress = some p then 1 else 0

/-- What a sign-out on its way still has to tell a listener. -/
def Code.owed (token : ℕ) : Code → List ChangeEvent
  | .fire _ event (.signOut _) => [event, .SIGNED_OUT]
  | .notifying _ event tokens (.signOut _) =>
      if token ∈ tokens then [event, .SIGNED_OUT] else [.SIGNED_OUT]
  | .signedOut _ => [.SIGNED_OUT]
  | .fire _ event (.done _) => [event]
  | .notifying _ event tokens (.done _) => if token ∈ tokens then [event] else []
  | _ => []

/-- Each call of `fire_change_event` fires its own event. -/
def Code.Typed : Code → Prop
  | .fire _ event (.handle _ _) => event = .SIGNED_IN_AGAIN
  | .notifying _ event _ (.handle _ _) => event = .SIGNED_IN_AGAIN
  | .fire _ event (.signOut _) => event = .SIGNING_OUT
  | .notifying _ event tokens (.signOut _) => event = .SIGNING_OUT ∧ tokens.Nodup
  | .fire _ event (.done _) => event = .SIGNED_OUT
  | .notifying _ event tokens (.done _) => event = .SIGNED_OUT ∧ tokens.Nodup
  | _ => True

/-- How far the only sign-out of a user is. -/
inductive Stage (m : Memory) (F : Multiset Code) (user : ℕ) : Prop where
  | before (hwrites : m.writes user = [])
      (hstate : m.state user = none ∨ m.state user = some .SignedIn)
      (hhalf : weight (Code.counts (.half user)) F = 0)
      (hlate : weight (Code.counts (.late user)) F = 0) (htold : ∀ token, m.told token user = [])
  | half (hwrites : m.writes user = [.SigningOut]) (hstate : m.state user = some .SigningOut)
      (hhalf : weight (Code.counts (.half user)) F = 1)
      (hlate : weight (Code.counts (.late user)) F = 0)
  | late (hwrites : m.writes user = [.SigningOut, .SignedOut])
      (hstate : m.state user = some .SignedOut)
      (hhalf : weight (Code.counts (.half user)) F = 0)
      (hlate : weight (Code.counts (.late user)) F ≤ 1)

structure Sequence (m : Memory) (F : Multiset Code) : Prop where
  tokens : ∀ token, .registered token ∈ m.log → token < m.nextToken
  listeners : m.listeners.Nodup ∧ ∀ token ∈ m.listeners, token < m.nextToken
  typed : ∀ f ∈ F, f.Typed
  stage : ∀ user, Stage m F user
  /-- What a listener has been told and what it is still owed is the two events. -/
  told : ∀ user token, m.Throughout token user → m.writes user ≠ [] →
    (∀ f ∈ F, f.progress = some (.half user) ∨ f.progress = some (.late user) →
      m.told token user ++ f.owed token = [.SIGNING_OUT, .SIGNED_OUT]) ∧
    (weight (Code.counts (.half user)) F + weight (Code.counts (.late user)) F = 0 →
      m.told token user = [.SIGNING_OUT, .SIGNED_OUT])

section Records
variable (m : Memory) (user token : ℕ)

theorem writes_record (e : Event) :
    (m.record e).writes user = m.writes user ++ (e.wroteTo user).toList := by
  unfold Memory.writes
  rw [record_log, List.filterMap_cons]
  cases e.wroteTo user <;> simp

theorem told_record (e : Event) :
    (m.record e).told token user = m.told token user ++ (e.tells token user).toList := by
  unfold Memory.told
  rw [record_log, List.filterMap_cons]
  cases e.tells token user <;> simp

@[simp] theorem state_retain (other : ℕ) : (m.retain user).state other = m.state other := by
  unfold Memory.state Memory.retain
  rw [users_modify]
  split <;> rfl

@[simp] theorem state_release (other : ℕ) : (m.release user).state other = m.state other := by
  unfold Memory.state Memory.release
  rw [users_modify]
  split <;> rfl

@[simp] theorem state_closeHandle (other : ℕ) :
    (m.closeHandle user).state other = m.state other := by
  unfold Memory.closeHandle
  split
  · rfl
  · exact state_release _ _ other

theorem state_setState (other : ℕ) (state : XUserStateValue) : (m.setState user state).state other =
    if user = other then (m.state other).map fun _ => state else m.state other := by
  unfold Memory.state Memory.setState
  rw [users_modify]
  split
  · rw [Option.map_map]
    rfl
  · rfl

theorem state_registerUser (other userId : ℕ) (info : UserInfo) :
    (m.registerUser userId info).state other =
      if m.users.length = other then some .SignedIn else m.state other := by
  unfold Memory.state Memory.registerUser
  dsimp only
  by_cases he : m.users.length = other
  · subst he
    simp
  · by_cases hlt : other < m.users.length
    · rw [List.getElem?_append_left hlt, if_neg he]
    · rw [List.getElem?_eq_none (by simp; omega), List.getElem?_eq_none (by omega), if_neg he]

end Records

/-- An event that is no write, no registration and no news of a sign-out. -/
def Event.Quiet : Event → Prop
  | .wrote _ _ | .registered _ => False
  | .notified _ event _ => event = .SIGNED_IN_AGAIN
  | _ => True

/-- A log to which nothing that sign-outs are judged by has been added. -/
structure SameLog (log log' : List Event) : Prop where
  writes : ∀ user, log'.filterMap (Event.wroteTo user) = log.filterMap (Event.wroteTo user)
  told : ∀ token user,
    log'.filterMap (Event.tells token user) = log.filterMap (Event.tells token user)
  registered : ∀ token, .registered token ∈ log' → .registered token ∈ log
  before : ∀ token user, registeredBefore token user log' = registeredBefore token user log

theorem sameLog_refl (log : List Event) : SameLog log log :=
  ⟨fun _ => rfl, fun _ _ => rfl, fun _ h => h, fun _ _ => rfl⟩

theorem sameLog_cons {log log' : List Event} {e : Event} (h : SameLog log log') (he : e.Quiet) :
    SameLog log (e :: log') := by
  have hwrites : ∀ user, e.wroteTo user = none := by
    intro user
    cases e <;> first | rfl | cases he
  have htells : ∀ token user, e.tells token user = none := by
    intro token user
    cases e <;> first | rfl | cases he
    rfl
  have hbefore : ∀ token user,
      registeredBefore token user (e :: log') = registeredBefore token user log' := by
    intro token user
    cases e <;> first | rfl | cases he
  refine ⟨fun user => ?_, fun token user => ?_, fun token hin => ?_, fun token user => ?_⟩
  · rw [List.filterMap_cons_none (hwrites user)]
    exact h.writes user
  · rw [List.filterMap_cons_none (htells token user)]
    exact h.told token user
  · rcases List.mem_cons.mp hin with hin | hin
    · subst hin
      cases he
    · exact h.registered token hin
  · rw [hbefore]
    exact h.before token user

theorem Stage.congr {m m' : Memory} {F F' : Multiset Code} {user : ℕ} (h : Stage m F user)
    (hwrites : m'.writes user = m.writes user) (hstate : m'.state user = m.state user)
    (hcounts : ∀ p, p = .half user ∨ p = .late user →
      weight (Code.counts p) F' = weight (Code.counts p) F)
    (htold : weight (Code.counts (.half user)) F + weight (Code.counts (.late user)) F = 0 →
      ∀ token, m'.told token user = m.told token user) : Stage m' F' user := by
  have hhalf := hcounts (.half user) (.inl rfl)
  have hlate := hcounts (.late user) (.inr rfl)
  cases h with
  | before w s h l t =>
    refine .before (hwrites.trans w) (hstate ▸ s) (hhalf.trans h) (hlate.trans l) fun token => ?_
    rw [htold (by omega), t]
  | half w s h l => exact .half (hwrites.trans w) (hstate.trans s) (hhalf.trans h) (hlate.trans l)
  | late w s h l =>
    exact .late (hwrites.trans w) (hstate.trans s) (hhalf.trans h) (hlate.symm ▸ l)

/-- A step that begins no sign-out and brings none past a write. -/
theorem sequence_kept {m m' : Memory} {F F' : Multiset Code} (hS : Sequence m F)
    (hlisteners : m'.listeners.Sublist m.listeners) (hnext : m'.nextToken = m.nextToken)
    (hstate : ∀ user, m'.state user = m.state user)
    (hwrites : ∀ user, m'.writes user = m.writes user)
    (hregistered : ∀ token, .registered token ∈ m'.log → .registered token ∈ m.log)
    (hbefore : ∀ token user,
      registeredBefore token user m'.log = registeredBefore token user m.log)
    (hcounts : ∀ p, weight (Code.counts p) F' = weight (Code.counts p) F)
    (htyped : ∀ f ∈ F', f.Typed)
    (htold : ∀ user token, m.Throughout token user → ∀ f' ∈ F',
      f'.progress = some (.half user) ∨ f'.progress = some (.late user) →
      ∃ f ∈ F, (f.progress = some (.half user) ∨ f.progress = some (.late user)) ∧
        m'.told token user ++ f'.owed token = m.told token user ++ f.owed token)
    (hquiet : ∀ user, weight (Code.counts (.half user)) F + weight (Code.counts (.late user)) F = 0 →
      ∀ token, m'.told token user = m.told token user) :
    Sequence m' F' := by
  have hthroughout : ∀ token user, m'.Throughout token user → m.Throughout token user := by
    intro token user h
    exact ⟨hlisteners.subset h.1, hbefore token user ▸ h.2⟩
  refine ⟨fun token hin => ?_, ⟨hlisteners.nodup hS.listeners.1, fun token hin => ?_⟩, htyped,
    fun user => ?_, fun user token hthrough hbegun => ⟨fun f' hf' hp => ?_, fun hnone => ?_⟩⟩
  · rw [hnext]
    exact hS.tokens token (hregistered token hin)
  · rw [hnext]
    exact hS.listeners.2 token (hlisteners.subset hin)
  · exact (hS.stage user).congr (hwrites user) (hstate user) (fun p _ => hcounts p) (hquiet user)
  · have hthrough' := hthroughout token user hthrough
    rw [hwrites] at hbegun
    obtain ⟨f, hf, hpf, howed⟩ := htold user token hthrough' f' hf' hp
    rw [howed]
    exact (hS.told user token hthrough' hbegun).1 f hf hpf
  · rw [hcounts, hcounts] at hnone
    rw [hwrites] at hbegun
    rw [hquiet user hnone]
    exact (hS.told user token (hthroughout token user hthrough) hbegun).2 hnone

/-- A step of a thread that is in no sign-out. -/
theorem sequence_same {m : Memory} {code : Code} {R : Multiset Code} {o : Outcome Memory Code}
    (hS : Sequence m (code ::ₘ R)) (hlisteners : o.shared.listeners.Sublist m.listeners)
    (hnext : o.shared.nextToken = m.nextToken) (hstate : ∀ user, o.shared.state user = m.state user)
    (hlog : SameLog m.log o.shared.log) (hcode : code.progress = none)
    (hframes : ∀ f ∈ o.frames, f.progress = none ∧ f.Typed) :
    Sequence o.shared (o.frames + R) := by
  have htold : ∀ user token, o.shared.told token user = m.told token user := fun user token =>
    congrArg List.reverse (hlog.told token user)
  refine sequence_kept hS hlisteners hnext hstate
    (fun user => congrArg List.reverse (hlog.writes user)) hlog.registered hlog.before
    (fun p => ?_) (fun f hf => ?_) (fun user token _ f hf hp => ?_) fun user _ token => htold user token
  · have hzero : ∀ f : Code, f.progress = none → f.counts p = 0 := by
      intro f hf
      simp [Code.counts, hf]
    rw [weight_add, weight_cons, hzero code hcode,
      weight_eq_zero _ fun f hf => hzero f (hframes f hf).1]
  · rcases Multiset.mem_add.mp hf with hf | hf
    · exact (hframes f hf).2
    · exact hS.typed f (Multiset.mem_cons_of_mem hf)
  · rcases Multiset.mem_add.mp hf with hf | hf
    · rw [(hframes f hf).1] at hp
      rcases hp with hp | hp <;> cases hp
    · exact ⟨f, Multiset.mem_cons_of_mem hf, hp, by rw [htold]⟩

/-- The thread is in a sign-out of the user that has begun. -/
def Code.OnItsWay (user : ℕ) (f : Code) : Prop :=
  f.progress = some (.half user) ∨ f.progress = some (.late user)

theorem counts_onItsWay {f : Code} {user : ℕ} (h : f.OnItsWay user) :
    f.counts (.half user) + f.counts (.late user) = 1 := by
  rcases h with h | h <;> simp [Code.counts, h]

/-- A user has one sign-out on its way. -/
theorem Stage.alone {m : Memory} {code : Code} {R : Multiset Code} {user : ℕ}
    (h : Stage m (code ::ₘ R) user) (hcode : code.OnItsWay user) {f : Code} (hf : f ∈ R) :
    ¬ f.OnItsWay user := by
  intro hway
  have hone : weight (Code.counts (.half user)) (code ::ₘ R) +
      weight (Code.counts (.late user)) (code ::ₘ R) ≤ 1 := by
    cases h <;> omega
  have hhalf := le_weight (w := Code.counts (.half user)) hf
  have hlate := le_weight (w := Code.counts (.late user)) hf
  have hfirst := counts_onItsWay hcode
  have hsecond := counts_onItsWay hway
  rw [weight_cons, weight_cons] at hone
  omega

/-- A step of a sign-out between its writes. -/
theorem sequence_moved {m : Memory} {code : Code} {R : Multiset Code} {o : Outcome Memory Code}
    (f' : Code) (extra : Multiset Code) (hS : Sequence m (code ::ₘ R)) (hframes : o.frames = f' ::ₘ extra)
    (hlisteners : o.shared.listeners = m.listeners) (hnext : o.shared.nextToken = m.nextToken)
    (hstate : ∀ user, o.shared.state user = m.state user)
    (hwrites : ∀ user, o.shared.writes user = m.writes user)
    (hregistered : ∀ token, .registered token ∈ o.shared.log → .registered token ∈ m.log)
    (hbefore : ∀ token user,
      registeredBefore token user o.shared.log = registeredBefore token user m.log)
    (hprogress : f'.progress = code.progress) (htyped : f'.Typed)
    (hextra : ∀ f ∈ extra, f.progress = none ∧ f.Typed)
    (htold : ∀ user token, m.Throughout token user → code.OnItsWay user →
      o.shared.told token user ++ f'.owed token = m.told token user ++ code.owed token)
    (hothers : ∀ user token, ¬ code.OnItsWay user → o.shared.told token user = m.told token user) :
    Sequence o.shared (o.frames + R) := by
  rw [hframes]
  refine sequence_kept hS (hlisteners ▸ List.Sublist.refl _) hnext hstate hwrites hregistered hbefore
    (fun p => ?_) (fun f hf => ?_) (fun user token hthrough f hf hp => ?_) fun user hnone token => ?_
  · have hzero : weight (Code.counts p) extra = 0 := by
      refine weight_eq_zero _ fun f hf => ?_
      rw [Code.counts, (hextra f hf).1]
      rfl
    rw [weight_add, weight_cons, weight_cons, hzero, Code.counts, Code.counts, hprogress]
    omega
  · rcases Multiset.mem_add.mp hf with hf | hf
    · rcases Multiset.mem_cons.mp hf with rfl | hf
      · exact htyped
      · exact (hextra f hf).2
    · exact hS.typed f (Multiset.mem_cons_of_mem hf)
  · rcases Multiset.mem_add.mp hf with hf | hf
    · rcases Multiset.mem_cons.mp hf with rfl | hf
      · rw [hprogress] at hp
        exact ⟨code, Multiset.mem_cons_self _ _, hp, htold user token hthrough hp⟩
      · rw [(hextra f hf).1] at hp
        rcases hp with hp | hp <;> cases hp
    · refine ⟨f, Multiset.mem_cons_of_mem hf, hp, ?_⟩
      rw [hothers user token fun hway => (hS.stage user).alone hway hf hp]
  · refine hothers user token fun hway => ?_
    have hone := counts_onItsWay hway
    rw [weight_cons, weight_cons] at hnone
    omega

theorem sequence_fire {m : Memory} {localId : ℕ} {event : ChangeEvent} {after : After}
    {R : Multiset Code} {o : Outcome Memory Code} (hS : Sequence m (.fire localId event after ::ₘ R))
    (ho : o = ⟨{ m with changeLock := true }.record (.fired event after.user localId),
      [.notifying localId event m.listeners after], []⟩) : Sequence o.shared (o.frames + R) := by
  have htyped := hS.typed _ (Multiset.mem_cons_self _ _)
  have hlog : SameLog m.log o.shared.log := by
    rw [ho]
    exact sameLog_cons (sameLog_refl _) trivial
  refine sequence_moved (.notifying localId event m.listeners after) 0 hS (by rw [ho]; rfl)
    (by rw [ho]; rfl) (by rw [ho]; rfl) (fun _ => by rw [ho]; rfl)
    (fun user => congrArg List.reverse (hlog.writes user)) hlog.registered hlog.before ?_ ?_
    (by simp) (fun user token hthrough _ => ?_)
    fun user token _ => congrArg List.reverse (hlog.told token user)
  · cases after <;> rfl
  · cases after with
    | handle call user => exact htyped
    | signOut user => exact ⟨htyped, hS.listeners.1⟩
    | done user => exact ⟨htyped, hS.listeners.1⟩
  · refine congrArg₂ _ (congrArg List.reverse (hlog.told token user)) ?_
    cases after with
    | handle call user => rfl
    | signOut user => exact if_pos hthrough.1
    | done user => exact if_pos hthrough.1

/-- A listener that is told an event is owed it no more. -/
theorem owed_erase {localId token user : ℕ} {event : ChangeEvent} {after : After} {tokens : List ℕ}
    (htoken : token ∈ tokens) (htyped : (Code.notifying localId event tokens after).Typed)
    (hway : (Code.notifying localId event tokens after).OnItsWay user) (t : ℕ) :
    ((Event.notified token event after.user).tells t user).toList ++
        (Code.notifying localId event (tokens.erase token) after).owed t =
      (Code.notifying localId event tokens after).owed t := by
  have hmem : token ≠ t → (t ∈ tokens.erase token ↔ t ∈ tokens) := fun hne =>
    List.mem_erase_of_ne (Ne.symm hne)
  cases after with
  | handle call v => rcases hway with hway | hway <;> cases hway
  | signOut v =>
    obtain ⟨rfl, hnodup⟩ := htyped
    have hv : v = user := by
      rcases hway with hway | hway <;> cases hway
      rfl
    by_cases he : token = t
    · subst he
      simp [Event.tells, Code.owed, After.user, hv, htoken, hnodup.not_mem_erase]
    · simp [Event.tells, Code.owed, he, hmem he]
  | done v =>
    obtain ⟨rfl, hnodup⟩ := htyped
    have hv : v = user := by
      rcases hway with hway | hway <;> cases hway
      rfl
    by_cases he : token = t
    · subst he
      simp [Event.tells, Code.owed, After.user, hv, htoken, hnodup.not_mem_erase]
    · simp [Event.tells, Code.owed, he, hmem he]

theorem sequence_notify {m : Memory} {localId token : ℕ} {event : ChangeEvent} {after : After}
    {tokens : List ℕ} {R : Multiset Code} {o : Outcome Memory Code} (htoken : token ∈ tokens)
    (hS : Sequence m (.notifying localId event tokens after ::ₘ R))
    (ho : o = ⟨m.record (.notified token event after.user),
      [.game, .notifying localId event (tokens.erase token) after], []⟩) :
    Sequence o.shared (o.frames + R) := by
  have htyped := hS.typed _ (Multiset.mem_cons_self _ _)
  have hshared : o.shared = m.record (.notified token event after.user) := by rw [ho]
  have htells : ∀ t user, ¬ (Code.notifying localId event tokens after).OnItsWay user →
      (Event.notified token event after.user).tells t user = none := by
    intro t user hway
    cases after with
    | handle call v =>
      rw [show event = .SIGNED_IN_AGAIN from htyped]
      rfl
    | signOut v =>
      have hne : v ≠ user := fun he => hway (.inl (congrArg (fun u => some (Progress.half u)) he))
      rw [htyped.1]
      exact if_neg fun h => hne h.2
    | done v =>
      have hne : v ≠ user := fun he => hway (.inr (congrArg (fun u => some (Progress.late u)) he))
      rw [htyped.1]
      exact if_neg fun h => hne h.2
  refine sequence_moved (.notifying localId event (tokens.erase token) after) {.game} hS ?_
    (by rw [hshared]; rfl) (by rw [hshared]; rfl) (fun _ => by rw [hshared]; rfl)
    (fun user => ?_) (fun t hin => ?_) (fun t user => by rw [hshared]; rfl) ?_ ?_
    (fun f hf => ?_) (fun user t hthrough hway => ?_) fun user t hway => ?_
  · rw [ho]
    exact Multiset.cons_swap _ _ 0
  · rw [hshared, writes_record]
    exact List.append_nil _
  · rw [hshared] at hin
    simpa using hin
  · cases after <;> rfl
  · cases after with
    | handle call user => exact htyped
    | signOut user => exact ⟨htyped.1, htyped.2.erase token⟩
    | done user => exact ⟨htyped.1, htyped.2.erase token⟩
  · rw [Multiset.mem_singleton.mp hf]
    exact ⟨rfl, trivial⟩
  · rw [hshared, told_record, List.append_assoc]
    refine congrArg (m.told t user ++ ·) ?_
    exact owed_erase htoken htyped hway t
  · rw [hshared, told_record, htells t user hway]
    exact List.append_nil _

theorem counts_of_not {f : Code} {user : ℕ} (h : ¬ f.OnItsWay user) {p : Progress}
    (hp : p = .half user ∨ p = .late user) : f.counts p = 0 := by
  refine if_neg fun hf => h ?_
  rcases hp with rfl | rfl
  · exact .inl hf
  · exact .inr hf

/-- Nobody is on its way whom no count has. -/
theorem not_onItsWay {F : Multiset Code} {user : ℕ} (hhalf : weight (Code.counts (.half user)) F = 0)
    (hlate : weight (Code.counts (.late user)) F = 0) {f : Code} (hf : f ∈ F) :
    ¬ f.OnItsWay user := by
  intro hway
  have hone := counts_onItsWay hway
  have h1 := le_weight (w := Code.counts (.half user)) hf
  have h2 := le_weight (w := Code.counts (.late user)) hf
  omega

/-- A step that moves one user on. -/
theorem sequence_user {m m' : Memory} {code f' : Code} {R : Multiset Code}
    (hS : Sequence m (code ::ₘ R)) (v : ℕ) (hlisteners : m'.listeners = m.listeners)
    (hnext : m'.nextToken = m.nextToken)
    (hregistered : ∀ token, .registered token ∈ m'.log → .registered token ∈ m.log)
    (hbefore : ∀ token user,
      registeredBefore token user m'.log = registeredBefore token user m.log)
    (htold : ∀ token user, m'.told token user = m.told token user)
    (hcode : ∀ user, user ≠ v → ¬ code.OnItsWay user) (hnew : ∀ user, user ≠ v → ¬ f'.OnItsWay user)
    (htyped : f'.Typed) (hwrites : ∀ user, user ≠ v → m'.writes user = m.writes user)
    (hstate : ∀ user, user ≠ v → m'.state user = m.state user) (hstage : Stage m' (f' ::ₘ R) v)
    (hv : ∀ token, m.Throughout token v →
      (∀ f ∈ f' ::ₘ R, f.OnItsWay v →
        m.told token v ++ f.owed token = [.SIGNING_OUT, .SIGNED_OUT]) ∧
      (weight (Code.counts (.half v)) (f' ::ₘ R) + weight (Code.counts (.late v)) (f' ::ₘ R) = 0 →
        m.told token v = [.SIGNING_OUT, .SIGNED_OUT])) :
    Sequence m' (f' ::ₘ R) := by
  have hthroughout : ∀ token user, m'.Throughout token user → m.Throughout token user :=
    fun token user h => ⟨hlisteners ▸ h.1, hbefore token user ▸ h.2⟩
  have hcounts : ∀ user, user ≠ v → ∀ p, p = .half user ∨ p = .late user →
      weight (Code.counts p) (f' ::ₘ R) = weight (Code.counts p) (code ::ₘ R) := by
    intro user hne p hp
    rw [weight_cons, weight_cons, counts_of_not (hnew user hne) hp,
      counts_of_not (hcode user hne) hp]
  refine ⟨fun token hin => ?_, ?_, fun f hf => ?_, fun user => ?_, fun user token hthrough hbegun => ?_⟩
  · rw [hnext]
    exact hS.tokens token (hregistered token hin)
  · rw [hlisteners, hnext]
    exact hS.listeners
  · rcases Multiset.mem_cons.mp hf with rfl | hf
    · exact htyped
    · exact hS.typed f (Multiset.mem_cons_of_mem hf)
  · by_cases he : user = v
    · exact he ▸ hstage
    · exact (hS.stage user).congr (hwrites user he) (hstate user he) (hcounts user he)
        fun _ token => htold token user
  · have hthrough' := hthroughout token user hthrough
    rw [htold]
    by_cases he : user = v
    · subst he
      exact hv token hthrough'
    · rw [hwrites user he] at hbegun
      obtain ⟨hframes, hnone⟩ := hS.told user token hthrough' hbegun
      refine ⟨fun f hf hway => ?_, fun h => ?_⟩
      · rcases Multiset.mem_cons.mp hf with rfl | hf
        · exact absurd hway (hnew user he)
        · exact hframes f (Multiset.mem_cons_of_mem hf) hway
      · rw [hcounts user he _ (.inl rfl), hcounts user he _ (.inr rfl)] at h
        exact hnone h

theorem setState_told (m : Memory) (v : ℕ) (state : XUserStateValue) (token user : ℕ) :
    ((m.setState v state).record (.wrote v state)).told token user = m.told token user := by
  rw [told_record]
  exact List.append_nil _

theorem setState_writes (m : Memory) (v : ℕ) (state : XUserStateValue) {user : ℕ} (h : user ≠ v) :
    ((m.setState v state).record (.wrote v state)).writes user = m.writes user := by
  rw [writes_record, Event.wroteTo, if_neg (Ne.symm h)]
  exact List.append_nil _

theorem setState_writes_self (m : Memory) (v : ℕ) (state : XUserStateValue) :
    ((m.setState v state).record (.wrote v state)).writes v = m.writes v ++ [state] := by
  rw [writes_record, Event.wroteTo, if_pos rfl]
  rfl

theorem sequence_signOut {m : Memory} {v localId : ℕ} {R : Multiset Code}
    (hS : Sequence m (.signOut v ::ₘ R)) (hG : m.state v = some .SignedIn) :
    Sequence ((m.setState v .SigningOut).record (.wrote v .SigningOut))
      (.fire localId .SIGNING_OUT (.signOut v) ::ₘ R) := by
  obtain ⟨hwrites, hhalf, hlate, htold⟩ : m.writes v = [] ∧
      weight (Code.counts (.half v)) R = 0 ∧ weight (Code.counts (.late v)) R = 0 ∧
      ∀ token, m.told token v = [] := by
    cases hS.stage v with
    | before w s h l t =>
      rw [weight_cons] at h l
      exact ⟨w, by omega, by omega, t⟩
    | half w s h l =>
      rw [s] at hG
      cases hG
    | late w s h l =>
      rw [s] at hG
      cases hG
  refine sequence_user hS v rfl rfl (fun token hin => ?_) (fun _ _ => rfl) (setState_told m v _)
    (fun user hne hway => ?_) (fun user hne hway => ?_) rfl (fun user => setState_writes m v _)
    (fun user hne => ?_) ?_ fun token hthrough => ⟨fun f hf hway => ?_, fun hnone => ?_⟩
  · simpa [Memory.setState] using hin
  · rcases hway with hway | hway <;> cases hway
  · rcases hway with hway | hway <;> cases hway
    exact hne rfl
  · exact (state_setState m v user _).trans (if_neg (Ne.symm hne))
  · refine .half ?_ ?_ ?_ ?_
    · rw [setState_writes_self, hwrites]
      rfl
    · rw [record_state, state_setState, if_pos rfl, hG]
      rfl
    · rw [weight_cons, hhalf]
      simp [Code.counts, Code.progress]
    · rw [weight_cons, hlate]
      simp [Code.counts, Code.progress]
  · rw [htold]
    rcases Multiset.mem_cons.mp hf with rfl | hf
    · rfl
    · exact absurd hway (not_onItsWay hhalf hlate hf)
  · rw [weight_cons] at hnone
    simp [Code.counts, Code.progress] at hnone

theorem sequence_signedOut {m : Memory} {v localId : ℕ} {R : Multiset Code}
    (hS : Sequence m (.signedOut v ::ₘ R)) :
    Sequence ((m.setState v .SignedOut).record (.wrote v .SignedOut))
      (.fire localId .SIGNED_OUT (.done v) ::ₘ R) := by
  have hway : (Code.signedOut v).OnItsWay v := .inl rfl
  obtain ⟨hwrites, hstate, hhalf, hlate⟩ : m.writes v = [.SigningOut] ∧
      m.state v = some .SigningOut ∧ weight (Code.counts (.half v)) R = 0 ∧
      weight (Code.counts (.late v)) R = 0 := by
    have hone : (Code.signedOut v).counts (.half v) = 1 := if_pos rfl
    cases hS.stage v with
    | before w s h l t =>
      rw [weight_cons] at h
      omega
    | half w s h l =>
      rw [weight_cons] at h l
      exact ⟨w, s, by omega, by omega⟩
    | late w s h l =>
      rw [weight_cons] at h
      omega
  refine sequence_user hS v rfl rfl (fun token hin => ?_) (fun _ _ => rfl) (setState_told m v _)
    (fun user hne hway => ?_) (fun user hne hway => ?_) rfl (fun user => setState_writes m v _)
    (fun user hne => ?_) ?_ fun token hthrough => ⟨fun f hf hfway => ?_, fun hnone => ?_⟩
  · simpa [Memory.setState] using hin
  · rcases hway with hway | hway <;> cases hway
    exact hne rfl
  · rcases hway with hway | hway <;> cases hway
    exact hne rfl
  · exact (state_setState m v user _).trans (if_neg (Ne.symm hne))
  · refine .late ?_ ?_ ?_ ?_
    · rw [setState_writes_self, hwrites]
      rfl
    · rw [record_state, state_setState, if_pos rfl, hstate]
      rfl
    · rw [weight_cons, hhalf]
      simp [Code.counts, Code.progress]
    · rw [weight_cons, hlate]
      simp [Code.counts, Code.progress]
  · rcases Multiset.mem_cons.mp hf with rfl | hf
    · have htold := (hS.told v token hthrough (by rw [hwrites]; exact List.cons_ne_nil _ _)).1
        (.signedOut v) (Multiset.mem_cons_self _ _) hway
      exact htold
    · exact absurd hfway (not_onItsWay hhalf hlate hf)
  · rw [weight_cons, weight_cons] at hnone
    simp [Code.counts, Code.progress] at hnone

/-- A sign-out that has told everyone. -/
theorem sequence_done {m : Memory} {v localId : ℕ} {event : ChangeEvent} {R : Multiset Code}
    (hS : Sequence m (.notifying localId event [] (.done v) ::ₘ R)) :
    Sequence { m with changeLock := false } (.drop v ::ₘ R) := by
  have hway : (Code.notifying localId event [] (.done v)).OnItsWay v := .inr rfl
  obtain ⟨hwrites, hstate, hhalf, hlate⟩ : m.writes v = [.SigningOut, .SignedOut] ∧
      m.state v = some .SignedOut ∧ weight (Code.counts (.half v)) R = 0 ∧
      weight (Code.counts (.late v)) R = 0 := by
    have hone : (Code.notifying localId event [] (.done v)).counts (.late v) = 1 := if_pos rfl
    cases hS.stage v with
    | before w s h l t =>
      rw [weight_cons] at l
      omega
    | half w s h l =>
      rw [weight_cons] at l
      omega
    | late w s h l =>
      rw [weight_cons] at h l
      exact ⟨w, s, by omega, by omega⟩
  refine sequence_user hS v rfl rfl (fun _ h => h) (fun _ _ => rfl) (fun _ _ => rfl)
    (fun user hne hway => ?_) (fun user _ hway => ?_) trivial (fun _ _ => rfl) (fun _ _ => rfl)
    (.late hwrites hstate ?_ ?_) fun token hthrough => ⟨fun f hf hfway => ?_, fun _ => ?_⟩
  · rcases hway with hway | hway <;> cases hway
    exact hne rfl
  · rcases hway with hway | hway <;> cases hway
  · rw [weight_cons, hhalf]
    rfl
  · rw [weight_cons, hlate]
    exact Nat.zero_le _
  · rcases Multiset.mem_cons.mp hf with rfl | hf
    · rcases hfway with hway | hway <;> cases hway
    · exact absurd hfway (not_onItsWay hhalf hlate hf)
  · have htold := (hS.told v token hthrough (by rw [hwrites]; exact List.cons_ne_nil _ _)).1 _
      (Multiset.mem_cons_self _ _) hway
    simpa [Code.owed] using htold

theorem sequence_register {m : Memory} {call userId : ℕ} {info : UserInfo} {R : Multiset Code}
    (hS : Sequence m (.register call userId info ::ₘ R)) :
    Sequence (m.registerUser userId info)
      (.fire userId .SIGNED_IN_AGAIN (.handle call m.users.length) ::ₘ R) := by
  have hcounts : ∀ p, weight (Code.counts p)
      (.fire userId .SIGNED_IN_AGAIN (.handle call m.users.length) ::ₘ R) =
      weight (Code.counts p) (.register call userId info ::ₘ R) := by
    intro p
    rw [weight_cons, weight_cons]
    rfl
  refine ⟨hS.tokens, hS.listeners, fun f hf => ?_, fun user => ?_, fun user token hthrough hbegun =>
    ⟨fun f hf hway => ?_, fun hnone => ?_⟩⟩
  · rcases Multiset.mem_cons.mp hf with rfl | hf
    · rfl
    · exact hS.typed f (Multiset.mem_cons_of_mem hf)
  · by_cases he : m.users.length = user
    · have hnone : m.state user = none := by
        rw [Memory.state, List.getElem?_eq_none (Nat.le_of_eq he)]
        rfl
      cases hS.stage user with
      | before w s h l t =>
        refine .before w (.inr ?_) ((hcounts _).trans h) ((hcounts _).trans l) t
        rw [state_registerUser, if_pos he]
      | half w s h l =>
        rw [hnone] at s
        cases s
      | late w s h l =>
        rw [hnone] at s
        cases s
    · refine (hS.stage user).congr rfl ?_ (fun p _ => hcounts p) fun _ _ => rfl
      rw [state_registerUser, if_neg he]
  · rcases Multiset.mem_cons.mp hf with rfl | hf
    · rcases hway with hway | hway <;> cases hway
    · exact (hS.told user token hthrough hbegun).1 f (Multiset.mem_cons_of_mem hf) hway
  · rw [hcounts, hcounts] at hnone
    exact (hS.told user token hthrough hbegun).2 hnone

theorem registeredBefore_registered {log : List Event} {token user : ℕ}
    (h : registeredBefore token user log = true) : .registered token ∈ log := by
  induction log with
  | nil => cases h
  | cons e log ih =>
    cases e with
    | registered t =>
      rw [registeredBefore, Bool.or_eq_true, decide_eq_true_eq] at h
      rcases h with ⟨rfl, -⟩ | h
      · exact List.mem_cons_self
      · exact List.mem_cons_of_mem _ (ih h)
    | _ => exact List.mem_cons_of_mem _ (ih h)

theorem sequence_listen {m : Memory} {R : Multiset Code} (hS : Sequence m (.game ::ₘ R)) :
    Sequence ({ m with listeners := m.listeners ++ [m.nextToken]
                       nextToken := m.nextToken + 1 }.record (.registered m.nextToken))
      (.game ::ₘ R) := by
  refine ⟨fun token hin => ?_, ⟨?_, fun token hin => ?_⟩, hS.typed, fun user => ?_,
    fun user token hthrough hbegun => ?_⟩
  · rcases List.mem_cons.mp hin with he | hin
    · cases he
      exact Nat.lt_succ_self _
    · exact Nat.lt_succ_of_lt (hS.tokens token hin)
  · refine List.Nodup.append hS.listeners.1 (List.nodup_singleton _) fun token hin hnew => ?_
    rw [List.mem_singleton.mp hnew] at hin
    exact Nat.lt_irrefl _ (hS.listeners.2 _ hin)
  · rcases List.mem_append.mp hin with hin | hin
    · exact Nat.lt_succ_of_lt (hS.listeners.2 token hin)
    · rw [List.mem_singleton.mp hin]
      exact Nat.lt_succ_self _
  · refine (hS.stage user).congr ?_ rfl (fun _ _ => rfl) fun _ token => ?_
    · rw [writes_record]
      exact List.append_nil _
    · rw [told_record]
      exact List.append_nil _
  · obtain ⟨hin, hbefore⟩ := hthrough
    have hwrites : m.writes user ≠ [] := by
      rw [writes_record] at hbegun
      exact fun h => hbegun ((List.append_nil _).trans h)
    have hrest : registeredBefore token user m.log = true := by
      rw [record_log, registeredBefore, Bool.or_eq_true, decide_eq_true_eq] at hbefore
      refine hbefore.resolve_left fun h => hwrites ?_
      rw [Memory.writes]
      exact congrArg List.reverse h.2
    have hlt := hS.tokens token (registeredBefore_registered hrest)
    have hold : token ∈ m.listeners := by
      rcases List.mem_append.mp hin with hin | hin
      · exact hin
      · rw [List.mem_singleton.mp hin] at hlt
        exact absurd hlt (Nat.lt_irrefl _)
    have hnews : (Event.registered m.nextToken).tells token user = none := rfl
    rw [told_record, hnews, Option.toList_none, List.append_nil]
    exact hS.told user token ⟨hold, hrest⟩ hwrites

theorem Code.Plain.progress {f : Code} (h : f.Plain) : f.progress = none ∧ f.Typed := by
  cases f <;> first | exact ⟨rfl, trivial⟩ | cases h

theorem Code.Borrows.progress {f : Code} {v : ℕ} (h : f.Borrows v) :
    f.progress = none ∧ f.Typed := by
  cases f <;> first | exact ⟨rfl, trivial⟩ | cases h

theorem Code.SignsOut.progress {f : Code} {v : ℕ} (h : f.SignsOut v) :
    f.progress = none ∧ f.Typed := by
  cases f <;> first | exact ⟨rfl, trivial⟩ | cases h

theorem sequence_step {m : Memory} {code : Code} {R : Multiset Code} {x : Choice}
    {o : Outcome Memory Code} (hG : signedInFirst m R code x) (h : Steps m code o)
    (hS : Sequence m (code ::ₘ R)) : Sequence o.shared (o.frames + R) := by
  have hgame : Code.game.progress = none ∧ Code.game.Typed := ⟨rfl, trivial⟩
  cases h with
  | plain hcode hpush hspawn =>
    refine sequence_same hS (List.Sublist.refl _) rfl (fun _ => rfl) (sameLog_refl _)
      hcode.progress.1 fun f hf => ?_
    exact Code.Plain.progress (forall_frames.mpr ⟨hpush, hspawn⟩ f hf)
  | @borrow user handle code hget hcode =>
    refine sequence_same hS (List.Sublist.refl _) rfl (state_retain m user) (sameLog_refl _) rfl ?_
    exact forall_frames.mpr ⟨by simpa [hgame] using hcode.progress, by simp⟩
  | @spawnSignOut user handle code hget hcode =>
    refine sequence_same hS (List.Sublist.refl _) rfl (state_retain m user) (sameLog_refl _) rfl ?_
    exact forall_frames.mpr ⟨by simpa using hgame, by simpa using hcode.progress⟩
  | @search user p hfind =>
    refine sequence_same hS (List.Sublist.refl _) rfl (state_retain m user) (sameLog_refl _) rfl ?_
    exact forall_frames.mpr ⟨by simp [Code.progress, Code.Typed], by simp⟩
  | close handle =>
    refine sequence_same hS ?_ ?_ (state_closeHandle m handle) ?_ rfl
      (forall_frames.mpr ⟨by simpa using hgame, by simp⟩)
    · show (m.closeHandle handle).listeners.Sublist m.listeners
      unfold Memory.closeHandle
      split <;> exact List.Sublist.refl _
    · show (m.closeHandle handle).nextToken = m.nextToken
      unfold Memory.closeHandle
      split <;> rfl
    · show SameLog m.log (m.closeHandle handle).log
      rw [closeHandle_log]
      exact sameLog_refl _
  | listen => exact sequence_listen hS
  | unlisten token =>
    refine sequence_same hS List.filter_sublist rfl (fun _ => rfl) (sameLog_refl _) rfl ?_
    exact forall_frames.mpr ⟨by simpa using hgame, by simp⟩
  | enter hparse =>
    refine sequence_same hS (List.Sublist.refl _) rfl (fun _ => rfl)
      (sameLog_cons (sameLog_refl _) trivial) rfl ?_
    exact forall_frames.mpr ⟨by simp [Code.progress, Code.Typed], by simp⟩
  | @found call userId user info hfind =>
    refine sequence_same hS (List.Sublist.refl _) rfl (state_retain m user) (sameLog_refl _) rfl ?_
    exact forall_frames.mpr ⟨by simp [Code.progress, Code.Typed], by simp⟩
  | missed hfind =>
    refine sequence_same hS (List.Sublist.refl _) rfl (fun _ => rfl) (sameLog_refl _) rfl ?_
    exact forall_frames.mpr ⟨by simp [Code.progress, Code.Typed], by simp⟩
  | register => exact sequence_register hS
  | finish =>
    exact sequence_same hS (List.Sublist.refl _) rfl (fun _ => rfl)
      (sameLog_cons (sameLog_cons (sameLog_refl _) trivial) trivial) rfl
      (forall_frames.mpr ⟨by simp, by simp⟩)
  | create =>
    exact sequence_same hS (List.Sublist.refl _) rfl (fun _ => rfl)
      (sameLog_cons (sameLog_refl _) trivial) rfl (forall_frames.mpr ⟨by simp, by simp⟩)
  | signOut => exact sequence_signOut hS hG
  | signedOut => exact sequence_signedOut hS
  | fire => exact sequence_fire hS rfl
  | notify htoken => exact sequence_notify htoken hS rfl
  | @notified localId event after =>
    cases after with
    | handle call user =>
      exact sequence_same hS (List.Sublist.refl _) rfl (fun _ => rfl) (sameLog_refl _) rfl
        (forall_frames.mpr ⟨by simp [After.code, Code.progress, Code.Typed], by simp⟩)
    | signOut user =>
      exact sequence_moved (.signedOut user) 0 hS rfl rfl rfl (fun _ => rfl) (fun _ => rfl)
        (fun _ h => h) (fun _ _ => rfl) rfl trivial (by simp) (fun _ _ _ _ => rfl) fun _ _ _ => rfl
    | done user => exact sequence_done hS
  | @compared user1 handle2 =>
    cases user1 with
    | none =>
      exact sequence_same hS (List.Sublist.refl _) rfl (fun _ => rfl)
        (sameLog_cons (sameLog_refl _) trivial) rfl (forall_frames.mpr ⟨by simp, by simp⟩)
    | some user =>
      exact sequence_same hS (List.Sublist.refl _) rfl (state_release m user)
        (sameLog_cons (sameLog_refl _) trivial) rfl (forall_frames.mpr ⟨by simp, by simp⟩)
  | @drop user =>
    exact sequence_same hS (List.Sublist.refl _) rfl (state_release m user) (sameLog_refl _) rfl
      (forall_frames.mpr ⟨by simp, by simp⟩)

/-! ## Every run -/

theorem reaches_sequence {n : ℕ} {c : Config Memory Code}
    (h : machine.Reaches signedInFirst (start n) c) : Sequence c.shared c.frames := by
  refine h.preserved ⟨fun token hin => ?_, ⟨List.nodup_nil, fun token hin => ?_⟩, fun f hf => ?_,
    fun user => ?_, fun user token _ hbegun => absurd rfl hbegun⟩
    fun m code R x o hG hS hs => sequence_step hG (steps_inv hs) hS
  · cases hin
  · cases hin
  · rw [mem_start hf]
    trivial
  · exact .before rfl (.inl rfl) (weight_start rfl n) (weight_start rfl n) fun _ => rfl

theorem sign_out_one_way (n : ℕ) {c : Config Memory Code}
    (h : machine.Reaches signedInFirst (start n) c) : OneWay c.shared c.frames := by
  have hS := reaches_sequence h
  refine ⟨fun user => ?_, fun user state hstate => ?_, fun user token hthrough => ?_,
    fun user hbegun hnone => ?_⟩
  · cases hS.stage user with
    | before w => exact w ▸ List.nil_prefix
    | half w => exact w ▸ ⟨[.SignedOut], rfl⟩
    | late w => exact w ▸ List.prefix_rfl
  · cases hS.stage user with
    | before w s =>
      rw [hstate] at s
      rw [w]
      exact Option.some.inj (s.resolve_left (Option.some_ne_none state))
    | half w s =>
      rw [hstate] at s
      rw [w]
      exact Option.some.inj s
    | late w s =>
      rw [hstate] at s
      rw [w]
      exact Option.some.inj s
  · by_cases hbegun : c.shared.writes user = []
    · cases hS.stage user with
      | before w s h l t => exact t token ▸ List.nil_prefix
      | half w =>
        rw [hbegun] at w
        cases w
      | late w =>
        rw [hbegun] at w
        cases w
    · obtain ⟨hframes, hidle⟩ := hS.told user token hthrough hbegun
      by_cases hway : ∃ f ∈ c.frames, f.OnItsWay user
      · obtain ⟨f, hf, hway⟩ := hway
        exact ⟨_, hframes f hf hway⟩
      · rw [hidle]
        have hzero : ∀ p, p = .half user ∨ p = .late user →
            weight (Code.counts p) c.frames = 0 := fun p hp =>
          weight_eq_zero _ fun f hf => counts_of_not (fun hw => hway ⟨f, hf, hw⟩) hp
        rw [hzero _ (.inl rfl), hzero _ (.inr rfl)]
  · have hzero : ∀ p, p = .half user ∨ p = .late user → weight (Code.counts p) c.frames = 0 :=
      fun p hp => weight_eq_zero _ fun f hf =>
        counts_of_not (fun hw => hw.elim (hnone f hf).1 (hnone f hf).2) hp
    refine ⟨?_, fun token hthrough => (hS.told user token hthrough hbegun).2 ?_⟩
    · cases hS.stage user with
      | before w => exact absurd w hbegun
      | half w s h l =>
        rw [hzero _ (.inl rfl)] at h
        cases h
      | late w => exact w
    · rw [hzero _ (.inl rfl), hzero _ (.inr rfl)]

/-- A listener, a sign-in and a sign-out. -/
theorem sign_out_one_way_once : ∃ c, machine.Reaches signedInFirst (start 1) c ∧
    OneWay c.shared c.frames ∧ c.shared.state 0 = some .SignedOut ∧
    c.shared.told 1 0 = [.SIGNING_OUT, .SIGNED_OUT] := by
  have hrun : ((machine.run signedInFirst
      ([(0, .registerForChangeEvent)] ++ signInSchedule 1 ++ sections 1 3 ++
        [(1, .notify 1), (1, .finish)] ++ sections 1 2 ++ [(0, .signOutAsync 1 .run)] ++
        sections 2 2 ++ [(2, .notify 1), (2, .finish)] ++ sections 2 3 ++
        [(2, .notify 1), (2, .finish)] ++ sections 2 2) (start 1)).any
      fun c : Config Memory Code => decide (c.shared.state 0 = some .SignedOut ∧
        c.shared.told 1 0 = [.SIGNING_OUT, .SIGNED_OUT])) = true := by
    decide +kernel
  obtain ⟨c, hc, hcheck⟩ := Machine.Reaches.of_run_any hrun
  exact ⟨c, hc, sign_out_one_way 1 hc, of_decide_eq_true hcheck⟩

/-- A second sign-out of a user that the first has signed out. -/
theorem sign_out_goes_back : ¬ ∀ (n : ℕ) (c : Config Memory Code),
    machine.Reaches anyStep (start n) c → OneWay c.shared c.frames := by
  intro h
  have hrun : ((machine.run anyStep
      (signInSchedule 1 ++ sections 1 5 ++ [(0, .signOutAsync 1 .run)] ++ sections 2 7 ++
        [(0, .signOutAsync 1 .run)] ++ sections 3 1) (start 1)).any
      fun c : Config Memory Code => decide (c.shared.writes 0 =
        [.SigningOut, .SignedOut, .SigningOut])) = true := by
    decide +kernel
  obtain ⟨c, hc, hcheck⟩ := Machine.Reaches.of_run_any hrun
  have hprefix := ((h 1 c hc).writes 0).length_le
  rw [of_decide_eq_true hcheck] at hprefix
  exact absurd hprefix (by decide)

end XGameRuntime.XUser
