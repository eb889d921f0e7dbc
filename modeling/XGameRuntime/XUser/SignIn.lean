import XGameRuntime.XUser.Holders

/-! # What a sign-in returns

`user_handle_from_info` hands out the user that is registered for the account, whatever has become
of it since it was signed in. A sign-in returns a signed-in user if its lookup finds one.
-/

namespace XGameRuntime.XUser
open Concurrency
set_option autoImplicit false

/-! ## What the property says -/

/-- The user is signed in with what the service has just said of it. -/
def UserState.fits (info : UserInfo) (u : UserState) : Bool :=
  decide (u.state = .SignedIn ∧ u.gamertag = info.gamertag ∧
    u.ageGroup = parseAgeGroup info.ageGroup)

def Memory.fits (m : Memory) (user : ℕ) (info : UserInfo) : Bool :=
  (m.users[user]?.map (UserState.fits info)).getD false

def Event.writes (user : ℕ) (state : XUserStateValue) : Event → Bool
  | .wrote u s => decide (u = user ∧ s = state)
  | _ => false

/-- A sign-out of the user is between its two writes. -/
def signingOut (user : ℕ) (log : List Event) : Bool :=
  decide (log.countP (Event.writes user .SignedOut) < log.countP (Event.writes user .SigningOut))

/-- A sign-out of the user has run since the call was entered: one that was under way then, or one
that has written the state since. -/
def signedOutSince (call user : ℕ) : List Event → Bool
  | [] => false
  | .entered c _ :: log => if c = call then signingOut user log else signedOutSince call user log
  | .wrote u _ :: log => decide (u = user) || signedOutSince call user log
  | _ :: log => signedOutSince call user log

/-- A `user_handle_from_info` that returns `Ok` in this step, with no sign-out of its user since it
was entered, returns a handle to a user that is signed in as the service says, and then a signed-in
user is found for a device. -/
def YieldsSignedIn (m m' : Memory) : Prop :=
  ∀ call user handle info, .returned call user handle ∉ m.log →
    .returned call user handle ∈ m'.log → .entered call info ∈ m'.log →
    signedOutSince call user m'.log = false →
      m'.handles.get handle = some user ∧
      (∃ u, m'.users[user]? = some u ∧ u.state = .SignedIn ∧ u.gamertag = info.gamertag ∧
        u.ageGroup = parseAgeGroup info.ageGroup) ∧
      ∃ other, m'.findForDevice = some other ∧ m'.state other = some .SignedIn

/-- The condition: a lookup that finds a user finds it signed in as the service says, or signed out
since the call was entered. -/
def freshLookups : Guard Memory Code Choice := fun m _ f _ =>
  match f with
  | .lookUp call userId info =>
      ∀ user, m.find (fun u => decide (u.userId = userId)) = some user →
        signedOutSince call user m.log = true ∨ m.fits user info = true
  | _ => True

instance : ∀ (m : Memory) (R : Multiset Code) (f : Code) (x : Choice),
    Decidable (freshLookups m R f x) := by
  intro m R f x
  unfold freshLookups
  split
  · rename_i call userId info
    cases m.find (fun u => decide (u.userId = userId)) with
    | none => exact isTrue fun user h => by cases h
    | some user =>
      exact decidable_of_iff (signedOutSince call user m.log = true ∨ m.fits user info = true)
        ⟨fun h v hv => Option.some.inj hv ▸ h, fun h => h user rfl⟩
  · infer_instance

/-! ## One step -/

/-- What a sign-in knows of the user that it will hand out. -/
def Memory.Answered (m : Memory) (call user : ℕ) : Prop :=
  ∃ info, .entered call info ∈ m.log ∧
    (signedOutSince call user m.log = true ∨ m.fits user info = true)

def Code.Answers (m : Memory) : Code → Prop
  | .lookUp call _ info | .register call _ info => .entered call info ∈ m.log
  | .finish call user => m.Answered call user
  | .fire _ _ (.handle call user) => m.Answered call user
  | .notifying _ _ _ (.handle call user) => m.Answered call user
  | _ => True

/-- Every sign-in that has looked its account up has found it as the service says, or it has been
signed out meanwhile. -/
structure Answering (m : Memory) (F : Multiset Code) : Prop where
  calls : ∀ call info, .entered call info ∈ m.log → call < m.calls
  entered : ∀ call info other, .entered call info ∈ m.log → .entered call other ∈ m.log →
    info = other
  answers : ∀ f ∈ F, f.Answers m

/-- What a step leaves of what the sign-ins know. -/
structure Grows (m m' : Memory) : Prop where
  entered : ∀ call info, .entered call info ∈ m.log → .entered call info ∈ m'.log
  since : ∀ call user, call < m.calls → signedOutSince call user m.log = true →
    signedOutSince call user m'.log = true
  fits : ∀ call user info, m.fits user info = true →
    signedOutSince call user m'.log = true ∨ m'.fits user info = true

theorem Grows.answered {m m' : Memory} (h : Grows m m')
    (hcalls : ∀ call info, .entered call info ∈ m.log → call < m.calls) {call user : ℕ}
    (ha : m.Answered call user) : m'.Answered call user := by
  obtain ⟨info, hentered, hfits⟩ := ha
  refine ⟨info, h.entered call info hentered, ?_⟩
  rcases hfits with hsince | hfits
  · exact .inl (h.since call user (hcalls call info hentered) hsince)
  · exact h.fits call user info hfits

theorem Grows.answers {m m' : Memory} (h : Grows m m')
    (hcalls : ∀ call info, .entered call info ∈ m.log → call < m.calls) {f : Code}
    (ha : f.Answers m) : f.Answers m' := by
  cases f with
  | lookUp call userId info => exact h.entered call info ha
  | register call userId info => exact h.entered call info ha
  | finish call user => exact h.answered hcalls ha
  | fire localId event after =>
    cases after with
    | handle call user => exact h.answered hcalls ha
    | signOut user => trivial
    | done user => trivial
  | notifying localId event tokens after =>
    cases after with
    | handle call user => exact h.answered hcalls ha
    | signOut user => trivial
    | done user => trivial
  | _ => trivial

section Writes
variable (m : Memory)

theorem fits_modify (user other : ℕ) (g : UserState → UserState) (info : UserInfo)
    (hg : ∀ u, (g u).fits info = u.fits info) :
    ((m.users.modify user g)[other]?.map (UserState.fits info)).getD false = m.fits other info := by
  rw [users_modify]
  unfold Memory.fits
  congr 2
  funext u
  split
  · exact hg u
  · rfl

@[simp] theorem fits_retain (user other : ℕ) (info : UserInfo) :
    (m.retain user).fits other info = m.fits other info :=
  fits_modify m user other _ info fun _ => rfl

@[simp] theorem fits_release (user other : ℕ) (info : UserInfo) :
    (m.release user).fits other info = m.fits other info :=
  fits_modify m user other _ info fun _ => rfl

theorem fits_setState {user other : ℕ} (state : XUserStateValue) (h : other ≠ user)
    (info : UserInfo) : (m.setState user state).fits other info = m.fits other info := by
  unfold Memory.fits Memory.setState
  dsimp only
  rw [List.getElem?_modify_ne _ _ (Ne.symm h)]

theorem fits_registerUser {user : ℕ} {info : UserInfo} (userId : ℕ) (newInfo : UserInfo)
    (h : m.fits user info = true) : (m.registerUser userId newInfo).fits user info = true := by
  unfold Memory.fits at h ⊢
  cases hu : m.users[user]? with
  | none => simp [hu] at h
  | some u =>
    rw [hu] at h
    show ((m.users ++ [_])[user]?.map _).getD false = true
    rw [getElem?_push_of hu]
    exact h

/-- A step that writes no state and enters no call. -/
theorem grows_same {m m' : Memory} (hlog : m'.log = m.log)
    (hfits : ∀ user info, m'.fits user info = m.fits user info) : Grows m m' := by
  refine ⟨fun call info h => ?_, fun call user _ h => ?_, fun call user info h => ?_⟩
  · rw [hlog]
    exact h
  · rw [hlog]
    exact h
  · rw [hfits]
    exact .inr h

theorem grows_record {m m' : Memory} {e : Event} (hlog : m'.log = e :: m.log)
    (he : ∀ call user log, signedOutSince call user (e :: log) = signedOutSince call user log)
    (hfits : ∀ user info, m.fits user info = true → m'.fits user info = true) : Grows m m' := by
  refine ⟨fun call info h => ?_, fun call user _ h => ?_, fun call user info h => ?_⟩
  · rw [hlog]
    exact List.mem_cons_of_mem _ h
  · rw [hlog, he]
    exact h
  · exact .inr (hfits user info h)

/-- A sign-out that writes the state. -/
theorem grows_wrote (user : ℕ) (state : XUserStateValue) :
    Grows m ((m.setState user state).record (.wrote user state)) := by
  refine ⟨fun call info h => List.mem_cons_of_mem _ h, fun call other _ h => ?_,
    fun call other info h => ?_⟩
  · rw [record_log, signedOutSince]
    show (_ || signedOutSince call other m.log) = true
    rw [h, Bool.or_true]
  · by_cases he : other = user
    · refine .inl ?_
      rw [record_log, signedOutSince, decide_eq_true he.symm, Bool.true_or]
    · exact .inr ((fits_setState m state he info).trans h)

end Writes

theorem steps_grow {m : Memory} {code : Code} {o : Outcome Memory Code} (h : Steps m code o) :
    Grows m o.shared := by
  cases h with
  | borrow | spawnSignOut | search | found => exact grows_same rfl (fits_retain m _)
  | drop => exact grows_same rfl (fits_release m _)
  | close handle =>
    show Grows m (m.closeHandle handle)
    unfold Memory.closeHandle
    split
    · exact grows_same rfl fun _ _ => rfl
    · exact grows_same rfl (fits_release _ _)
  | @compared user1 handle2 =>
    cases user1 with
    | none => exact grows_record rfl (fun _ _ _ => rfl) fun _ _ h => h
    | some user =>
      exact grows_record rfl (fun _ _ _ => rfl) fun other info h => (fits_release m user _ _).trans h
  | signOut | signedOut => exact grows_wrote m _ _
  | @enter info userId hparse =>
    refine ⟨fun call info h => List.mem_cons_of_mem _ h, fun call user hlt h => ?_,
      fun _ _ _ h => .inr h⟩
    show signedOutSince call user (.entered m.calls info :: m.log) = true
    rw [signedOutSince, if_neg (Nat.ne_of_gt hlt)]
    exact h
  | @register call userId info =>
    exact ⟨fun _ _ h => h, fun _ _ _ h => h, fun _ _ _ h => .inr (fits_registerUser m userId info h)⟩
  | @finish call user =>
    have hcreate : Grows m (m.createHandle user) :=
      grows_record rfl (fun _ _ _ => rfl) fun _ _ h => h
    exact ⟨fun call info h => List.mem_cons_of_mem _ (hcreate.entered call info h),
      fun call user hlt h => hcreate.since call user hlt h, hcreate.fits⟩
  | create | listen | fire | notify =>
    exact grows_record rfl (fun _ _ _ => rfl) fun _ _ h => h
  | plain | unlisten | missed | notified => exact grows_same rfl fun _ _ => rfl

@[simp] theorem answers_game (m : Memory) : Code.game.Answers m := trivial

/-- Calls are entered under numbers of their own. -/
theorem steps_entered {m : Memory} {code : Code} {o : Outcome Memory Code} (h : Steps m code o) :
    (∃ info, o.shared.log = .entered m.calls info :: m.log ∧ o.shared.calls = m.calls + 1) ∨
    (o.shared.calls = m.calls ∧
      ∀ call info, .entered call info ∈ o.shared.log → .entered call info ∈ m.log) := by
  cases h with
  | @enter info userId hparse => exact .inl ⟨info, rfl, rfl⟩
  | close handle =>
    refine .inr ?_
    show (m.closeHandle handle).calls = m.calls ∧
      ∀ call info, .entered call info ∈ (m.closeHandle handle).log → .entered call info ∈ m.log
    unfold Memory.closeHandle
    split <;> exact ⟨rfl, fun _ _ h => h⟩
  | @compared user1 handle2 =>
    refine .inr ⟨by cases user1 <;> rfl, fun call info h => ?_⟩
    cases user1 <;> simpa using h
  | finish | create =>
    refine .inr ⟨rfl, fun call info h => ?_⟩
    simpa [Memory.createHandle] using h
  | signOut | signedOut | fire | notify | listen =>
    refine .inr ⟨rfl, fun call info h => ?_⟩
    simpa [Memory.setState] using h
  | _ => exact .inr ⟨rfl, fun _ _ h => h⟩

theorem Code.Plain.answers {f : Code} (h : f.Plain) (m : Memory) : f.Answers m := by
  cases f <;> trivial

theorem Code.Borrows.answers {f : Code} {v : ℕ} (h : f.Borrows v) (m : Memory) : f.Answers m := by
  cases f <;> trivial

theorem Code.SignsOut.answers {f : Code} {v : ℕ} (h : f.SignsOut v) (m : Memory) : f.Answers m := by
  cases f <;> trivial

theorem fits_new (m : Memory) (userId : ℕ) (info : UserInfo) :
    (m.registerUser userId info).fits m.users.length info = true := by
  unfold Memory.fits Memory.registerUser
  simp [UserState.fits]

/-- What the threads that a step leaves behind know. -/
theorem answers_frames {m : Memory} {code : Code} {R : Multiset Code} {x : Choice}
    {o : Outcome Memory Code} (hG : freshLookups m R code x) (h : Steps m code o)
    (ha : code.Answers o.shared) (hm : code.Answers m) : ∀ f ∈ o.frames, f.Answers o.shared := by
  cases h with
  | plain hcode hpush hspawn =>
    exact fun f hf => Code.Plain.answers (forall_frames.mpr ⟨hpush, hspawn⟩ f hf) m
  | borrow hget hcode => simp [Outcome.frames, hcode.answers]
  | spawnSignOut hget hcode => simp [Outcome.frames, hcode.answers]
  | enter hparse => simp [Outcome.frames, Code.Answers]
  | @found call userId user info hfind =>
    have hanswered : (m.retain user).Answered call user :=
      ⟨info, hm, (hG user hfind).imp_right fun hfits => (fits_retain m user user info).trans hfits⟩
    simpa [Outcome.frames, Code.Answers] using hanswered
  | missed hfind => simpa [Outcome.frames, Code.Answers] using hm
  | @register call userId info =>
    have hanswered : (m.registerUser userId info).Answered call m.users.length :=
      ⟨info, hm, .inr (fits_new m userId info)⟩
    simpa [Outcome.frames, Code.Answers] using hanswered
  | @fire localId event after =>
    intro f hf
    rw [List.mem_singleton.mp (Multiset.mem_coe.mp hf)]
    cases after <;> exact ha
  | @notify localId token event after tokens htoken =>
    intro f hf
    rcases List.mem_cons.mp (Multiset.mem_coe.mp hf) with rfl | hf
    · trivial
    · rw [List.mem_singleton.mp hf]
      cases after <;> exact ha
  | @notified localId event after =>
    intro f hf
    rw [List.mem_singleton.mp (Multiset.mem_coe.mp hf)]
    cases after <;> exact ha
  | _ => simp [Outcome.frames, Code.Answers]

theorem answering_step {m : Memory} {code : Code} {R : Multiset Code} {x : Choice}
    {o : Outcome Memory Code} (hG : freshLookups m R code x) (h : Steps m code o)
    (hA : Answering m (code ::ₘ R)) : Answering o.shared (o.frames + R) := by
  have hgrow := steps_grow h
  have hkept : ∀ f ∈ code ::ₘ R, f.Answers o.shared := fun f hf =>
    hgrow.answers hA.calls (hA.answers f hf)
  have hcalls : (∀ call info, .entered call info ∈ o.shared.log → call < o.shared.calls) ∧
      ∀ call info other, .entered call info ∈ o.shared.log → .entered call other ∈ o.shared.log →
        info = other := by
    rcases steps_entered h with ⟨info, hlog, hcalls⟩ | ⟨hcalls, hlog⟩
    · rw [hlog, hcalls]
      refine ⟨fun call i hin => ?_, fun call i j hi hj => ?_⟩
      · rcases List.mem_cons.mp hin with he | hin
        · cases he
          exact Nat.lt_succ_self _
        · exact Nat.lt_succ_of_lt (hA.calls call i hin)
      · rcases List.mem_cons.mp hi with he | hi
        · cases he
          rcases List.mem_cons.mp hj with he | hj
          · cases he
            rfl
          · exact absurd (hA.calls _ j hj) (Nat.lt_irrefl _)
        · rcases List.mem_cons.mp hj with he | hj
          · cases he
            exact absurd (hA.calls _ i hi) (Nat.lt_irrefl _)
          · exact hA.entered call i j hi hj
    · rw [hcalls]
      exact ⟨fun call i hin => hA.calls call i (hlog call i hin),
        fun call i j hi hj => hA.entered call i j (hlog call i hi) (hlog call j hj)⟩
  refine ⟨hcalls.1, hcalls.2, fun f hf => ?_⟩
  rcases Multiset.mem_add.mp hf with hf | hf
  · exact answers_frames hG h (hkept code (Multiset.mem_cons_self _ _))
      (hA.answers code (Multiset.mem_cons_self _ _)) f hf
  · exact hkept f (Multiset.mem_cons_of_mem hf)

/-! ## Every run -/

theorem reaches_answering {n : ℕ} {c : Config Memory Code}
    (h : machine.Reaches freshLookups (start n) c) : Answering c.shared c.frames := by
  refine h.preserved ⟨fun call info hin => ?_, fun call info other hin => ?_, fun f hf => ?_⟩
    fun m code R x o hG hA hs => answering_step hG (steps_inv hs) hA
  · cases hin
  · cases hin
  · rw [mem_start hf]
    trivial

/-- A sign-in returns by handing out the handle. -/
theorem steps_returned {m : Memory} {code : Code} {o : Outcome Memory Code} (h : Steps m code o)
    {call user handle : ℕ} (hold : .returned call user handle ∉ m.log)
    (hnew : .returned call user handle ∈ o.shared.log) :
    code = .finish call user ∧ handle = m.handles.next ∧
      o.shared = (m.createHandle user).record (.returned call user handle) := by
  cases h with
  | finish =>
    rcases List.mem_cons.mp hnew with he | hin
    · cases he
      exact ⟨rfl, rfl, rfl⟩
    · simp [Memory.createHandle, hold] at hin
  | close handle =>
    refine absurd ?_ hold
    change _ ∈ (m.closeHandle handle).log at hnew
    unfold Memory.closeHandle at hnew
    split at hnew <;> exact hnew
  | @compared user1 handle2 =>
    cases user1 <;> simp [hold] at hnew
  | create => simp [Memory.createHandle, hold] at hnew
  | signOut | signedOut | fire | notify | listen | enter =>
    simp [Memory.setState, hold] at hnew
  | _ => exact absurd hnew hold

theorem fits_iff {m : Memory} {user : ℕ} {info : UserInfo} : m.fits user info = true ↔
    ∃ u, m.users[user]? = some u ∧ u.state = .SignedIn ∧ u.gamertag = info.gamertag ∧
      u.ageGroup = parseAgeGroup info.ageGroup := by
  unfold Memory.fits UserState.fits
  cases m.users[user]? <;> simp

/-- A user that is alive and signed in is enough for a device. -/
theorem findForDevice_of_signedIn {m : Memory} {F : Multiset Code} (hI : Sound m F) {user : ℕ}
    (hlive : 0 < m.strong user) (hstate : m.state user = some .SignedIn) :
    ∃ other, m.findForDevice = some other ∧ m.state other = some .SignedIn := by
  have hsome : (m.findForDevice).isSome = true := by
    refine List.find?_isSome.mpr ⟨user, hI.listed user hlive, ?_⟩
    unfold Memory.strong at hlive
    unfold Memory.state at hstate
    cases hu : m.users[user]? with
    | none => simp [hu] at hstate
    | some u =>
      rw [hu] at hlive hstate
      simpa using And.intro hlive (Option.some.inj hstate)
  obtain ⟨other, hfind⟩ := Option.isSome_iff_exists.mp hsome
  obtain ⟨-, -, u, hu, hsigned⟩ := find_strong hfind
  refine ⟨other, hfind, ?_⟩
  rw [Memory.state, hu]
  exact congrArg some (of_decide_eq_true hsigned)

theorem sign_in_yields_signed_in (n : ℕ) {c c' : Config Memory Code}
    (h : machine.Reaches freshLookups (start n) c) (hstep : machine.Fires freshLookups c c') :
    YieldsSignedIn c.shared c'.shared := by
  intro call user handle info hold hnew hentered hsince
  have hI := reaches_sound h
  have hI' := reaches_sound (h.tail hstep)
  have hA := reaches_answering h
  obtain ⟨i, x, f, o, -, hframes, hG, hs, hshared, -⟩ := hstep.cases
  rw [hshared] at hI' hnew hentered hsince ⊢
  obtain ⟨rfl, rfl, ho⟩ := steps_returned (steps_inv hs) hold hnew
  obtain ⟨known, hknown, hfits⟩ := hA.answers _ (hframes ▸ Multiset.mem_cons_self _ _)
  have hlog : o.shared.log = .returned call user c.shared.handles.next ::
      (c.shared.createHandle user).log := by
    rw [ho]
    rfl
  have hgrow := steps_grow (steps_inv hs)
  have hfits' : o.shared.fits user known = true := by
    rcases hfits with hsigned | hfits
    · have hlt := hA.calls call known hknown
      rw [hgrow.since call user hlt hsigned] at hsince
      cases hsince
    · refine (hgrow.fits call user known hfits).resolve_left ?_
      rw [hsince]
      exact Bool.false_ne_true
  have hsame : known = info := by
    refine hA.entered call known info hknown ?_
    rw [hlog] at hentered
    simpa [Memory.createHandle] using hentered
  have hget : o.shared.handles.get c.shared.handles.next = some user := by
    rw [ho]
    exact HandleTable.get_create _ _ (Nat.pos_iff_ne_zero.mp hI.fresh.pos)
  obtain ⟨u, hu, hstate, hrest⟩ := fits_iff.mp hfits'
  refine ⟨hget, ⟨u, hu, hstate, hsame ▸ hrest⟩, ?_⟩
  refine findForDevice_of_signedIn hI' (hI'.live_of_get hget) ?_
  rw [Memory.state, hu]
  exact congrArg some hstate

/-- The second of two sign-ins, up to its return. -/
theorem sign_in_yields_signed_in_again : ∃ c c' : Config Memory Code,
    machine.Reaches freshLookups (start 1) c ∧ YieldsSignedIn c.shared c'.shared ∧ .returned 1 0 2 ∉ c.shared.log ∧
    .returned 1 0 2 ∈ c'.shared.log := by
  have hrun : ((machine.run freshLookups
      (signInSchedule 1 ++ sections 1 5 ++ signInSchedule 2 ++ sections 2 1) (start 1)).any
      fun c : Config Memory Code => decide (c.top 2 = some (.finish 1 0)) &&
        decide (.returned 1 0 2 ∉ c.shared.log) &&
        (machine.fire c 2 .go).any fun c' : Config Memory Code =>
          decide (.returned 1 0 2 ∈ c'.shared.log)) = true := by
    decide +kernel
  obtain ⟨c, hc, hcheck⟩ := Machine.Reaches.of_run_any hrun
  simp only [Bool.and_eq_true, decide_eq_true_eq] at hcheck
  obtain ⟨⟨htop, hold⟩, hnext⟩ := hcheck
  obtain ⟨c', hfire, hnew⟩ := (Option.any_eq_true _ _).mp hnext
  exact ⟨c, c', hc, sign_in_yields_signed_in 1 hc (.of_fire htop trivial hfire), hold,
    of_decide_eq_true hnew⟩

/-- A sign-in after a sign-out, while the handle of the first sign-in is still open. -/
theorem sign_in_yields_signed_out : ¬ ∀ (n : ℕ) (c c' : Config Memory Code),
    machine.Reaches anyStep (start n) c → machine.Fires anyStep c c' →
      YieldsSignedIn c.shared c'.shared := by
  intro h
  have hrun : ((machine.run anyStep
      (signInSchedule 1 ++ sections 1 5 ++ [(0, .signOutAsync 1 .run)] ++ sections 2 7 ++
        signInSchedule 3 ++ sections 3 1) (start 1)).any
      fun c : Config Memory Code => decide (c.top 3 = some (.finish 1 0)) &&
        decide (.returned 1 0 2 ∉ c.shared.log) &&
        (machine.fire c 3 .go).any fun c' : Config Memory Code =>
          decide (.returned 1 0 2 ∈ c'.shared.log ∧ .entered 1 fakeGamer ∈ c'.shared.log ∧
            signedOutSince 1 0 c'.shared.log = false ∧
            c'.shared.state 0 = some .SignedOut)) = true := by
    decide +kernel
  obtain ⟨c, hc, hcheck⟩ := Machine.Reaches.of_run_any hrun
  simp only [Bool.and_eq_true, decide_eq_true_eq] at hcheck
  obtain ⟨⟨htop, hold⟩, hnext⟩ := hcheck
  obtain ⟨c', hfire, hlast⟩ := (Option.any_eq_true _ _).mp hnext
  obtain ⟨hnew, hentered, hsince, hstate⟩ := of_decide_eq_true hlast
  obtain ⟨-, ⟨u, hu, hsigned, -⟩, -⟩ := h 1 c c' hc (.of_fire htop trivial hfire) 1 0 2 fakeGamer
    hold hnew hentered hsince
  rw [Memory.state, hu] at hstate
  have hout : u.state = .SignedOut := Option.some.inj hstate
  rw [hsigned] at hout
  cases hout

end XGameRuntime.XUser
