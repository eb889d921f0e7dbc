import XGameRuntime.Concurrency.Arena
import XGameRuntime.Concurrency.Pool
import XGameRuntime.HandleTable
import XGameRuntime.Results

/-! # Users

`src/com/xuser/core.rs` and the entry points of `src/com/xuser/impl.rs` that reach it: the
registry of weak entries, the handle table, the listeners for change events, and the closures of
sign-ins and sign-outs on the threads of `run_sync`. An `Arc<UserState>` is the number of its
allocation; its strong count is kept with it.
-/

namespace XGameRuntime.XUser
open Concurrency
set_option autoImplicit false

/-! ## Data -/

inductive XUserStateValue where
  | SignedIn | SigningOut | SignedOut
  deriving DecidableEq, Repr

inductive ChangeEvent where
  | SIGNED_IN_AGAIN | SIGNING_OUT | SIGNED_OUT
  deriving DecidableEq, Repr

structure UserState where
  localId : ℕ
  userId : ℕ
  isGuest : Bool
  state : XUserStateValue
  gamertag : String
  gamertagModern : String
  ageGroup : ℕ
  strong : ℕ
  deriving DecidableEq, Repr

structure UserInfo where
  xuid : String
  gamertag : String
  gamertagModern : String
  ageGroup : String
  deriving DecidableEq, Repr

/-- `str::parse::<u64>`. -/
def parseU64 (s : String) : Option ℕ :=
  let digits := match s.toList with
    | '+' :: rest => rest
    | chars => chars
  if digits = [] ∨ digits.all Char.isDigit = false then none
  else
    let n := digits.foldl (fun n c => 10 * n + (c.toNat - 48)) 0
    if n < 2 ^ 64 then some n else none

def parseAgeGroup (agg : String) : ℕ :=
  if agg = "Adult" then 3
  else if agg = "Teen" then 2
  else if agg = "Child" then 1
  else 0

/-- What has happened, latest first. -/
inductive Event where
  /-- `user_handle_from_info` has been entered with an xuid that parses. -/
  | entered (call : ℕ) (info : UserInfo)
  | returned (call user handle : ℕ)
  /-- A handle has been handed out; `first` says that none to the account was open. -/
  | opened (user userId : ℕ) (first : Bool)
  | fired (event : ChangeEvent) (user localId : ℕ)
  /-- The callback of a registration is called; it is told the user's local id. -/
  | notified (token : ℕ) (event : ChangeEvent) (user : ℕ)
  | wrote (user : ℕ) (state : XUserStateValue)
  | registered (token : ℕ)
  | compared (result : ℕ)
  deriving DecidableEq, Repr

structure Memory where
  users : List UserState := []
  registry : List ℕ := []
  registryLock : Bool := false
  handles : HandleTable ℕ := {}
  listeners : List ℕ := []
  nextToken : ℕ := 1
  changeLock : Bool := false
  calls : ℕ := 0
  log : List Event := []

/-! ## Sections under one lock -/

namespace Memory
variable (m : Memory)

def record (e : Event) : Memory := { m with log := e :: m.log }

def strong (user : ℕ) : ℕ := (m.users[user]?.map UserState.strong).getD 0

def userId (user : ℕ) : Option ℕ := m.users[user]?.map UserState.userId

def state (user : ℕ) : Option XUserStateValue := m.users[user]?.map UserState.state

/-- `Arc::clone`, and `Weak::upgrade` of a user that is alive. -/
def retain (user : ℕ) : Memory :=
  { m with users := m.users.modify user fun u => { u with strong := u.strong + 1 } }

def release (user : ℕ) : Memory :=
  { m with users := m.users.modify user fun u => { u with strong := u.strong - 1 } }

def setState (user : ℕ) (state : XUserStateValue) : Memory :=
  { m with users := m.users.modify user fun u => { u with state := state } }

/-- `registry.iter().filter_map(Weak::upgrade).find(p)`. -/
def find (p : UserState → Bool) : Option ℕ :=
  m.registry.find? fun user => m.users[user]?.any fun u => decide (0 < u.strong) && p u

def registerUser (userId : ℕ) (info : UserInfo) : Memory :=
  { m with
    users := m.users ++ [{
      localId := userId
      userId := userId
      isGuest := false
      state := .SignedIn
      gamertag := info.gamertag
      gamertagModern := info.gamertagModern
      ageGroup := parseAgeGroup info.ageGroup
      strong := 1 }]
    registry := m.registry.filter (fun user => decide (0 < m.strong user)) ++ [m.users.length] }

def openHandles (userId : ℕ) : ℕ := m.handles.count fun user => decide (m.userId user = some userId)

def handlesTo (user : ℕ) : ℕ := m.handles.count fun v => decide (v = user)

/-- `UserHandleTable::create`. The strong reference goes into the table. -/
def createHandle (user : ℕ) : Memory :=
  { m with handles := (m.handles.create user).2 }.record
    (.opened user ((m.userId user).getD 0)
      (decide (m.openHandles ((m.userId user).getD 0) = 0)))

def closeHandle (handle : ℕ) : Memory :=
  match m.handles.get handle with
  | none => m
  | some user => { m with handles := m.handles.close handle }.release user

end Memory

/-- What `XUserCompare` answers on what its two lookups have found. -/
def compareUsers : Option ℕ → Option ℕ → ℕ
  | none, none => 0
  | some a, some b => if a = b then 0 else 1
  | _, _ => 1

def Memory.compare (m : Memory) (user1 user2 : ℕ) : ℕ :=
  compareUsers (m.handles.get user1) (m.handles.get user2)

def Memory.findForDevice (m : Memory) : Option ℕ := m.find fun u => decide (u.state = .SignedIn)

/-! ## Threads -/

/-- What comes after `fire_change_event`, with the user that it keeps alive. -/
inductive After where
  | handle (call user : ℕ)
  | signOut (user : ℕ)
  | done (user : ℕ)
  deriving DecidableEq, Repr

def After.user : After → ℕ
  | .handle _ user => user
  | .signOut user => user
  | .done user => user

/-- What a thread has left to do: code of the game, a closure of `run_sync`, or the rest of a call
between two sections. -/
inductive Code where
  | game
  /-- The closure of `XUserAddAsync`. -/
  | signIn (allowUi : Bool)
  /-- `interactive_sign_in`, and what is done with what it returns. -/
  | interactive
  | handleFromInfo (info : UserInfo)
  | lookUp (call userId : ℕ) (info : UserInfo)
  | register (call userId : ℕ) (info : UserInfo)
  /-- `UserHandleTable::create` for `user_handle_from_info`. -/
  | finish (call user : ℕ)
  /-- `UserHandleTable::create` for another entry point, which may be in the registry. -/
  | create (user : ℕ) (inRegistry : Bool)
  | signOut (user : ℕ)
  | signedOut (user : ℕ)
  | fire (localId : ℕ) (event : ChangeEvent) (after : After)
  | notifying (localId : ℕ) (event : ChangeEvent) (tokens : List ℕ) (after : After)
  | comparing (user1 : Option ℕ) (handle2 : ℕ)
  /-- An `Arc` that goes out of scope, at the latest when the closure of its call is freed. -/
  | drop (user : ℕ)
  deriving DecidableEq, Repr

def After.code : After → Code
  | .handle call user => .finish call user
  | .signOut user => .signedOut user
  | .done user => .drop user

inductive Submission where
  | refused | canceled | run
  deriving DecidableEq, Repr

inductive Choice where
  | addUser (options : ℕ) (submission : Submission)
  | addUserByIdWithUi (userId : ℕ) (submission : Submission)
  | duplicate (handle : ℕ)
  | close (handle : ℕ)
  | compare (user1 user2 : ℕ)
  | read (handle : ℕ)
  | findUserById (userId : ℕ)
  | findUserByLocalId (localId : ℕ)
  | findForDevice
  | signOutAsync (handle : ℕ) (submission : Submission)
  | registerForChangeEvent
  | unregisterForChangeEvent (token : ℕ)
  | finish
  | userInfo (reply : Except HRESULT UserInfo)
  | window (reply : Except HRESULT (Option UserInfo))
  | notify (token : ℕ)
  | go
  deriving Repr

/-- `XUserFindUserById` and the others that search the registry and create a handle in it. -/
def Memory.findStep (m : Memory) (p : UserState → Bool) : Option (Outcome Memory Code) :=
  if m.registryLock then none
  else
    match m.find p with
    | none => some ⟨m, [.game], []⟩
    | some user =>
        some ⟨{ m.retain user with registryLock := true }, [.create user true, .game], []⟩

def Memory.gameStep (m : Memory) : Choice → Option (Outcome Memory Code)
  | .addUser options submission =>
      if options &&& 5 = 0 then some ⟨m, [.game], []⟩
      else
        some ⟨m, [.game],
          if submission = .run then [[.signIn (decide (options &&& 4 ≠ 0))]] else []⟩
  | .addUserByIdWithUi _ submission =>
      some ⟨m, [.game], if submission = .run then [[.interactive]] else []⟩
  | .duplicate handle =>
      match m.handles.get handle with
      | none => some ⟨m, [.game], []⟩
      | some user => some ⟨m.retain user, [.create user false, .game], []⟩
  | .close handle => some ⟨m.closeHandle handle, [.game], []⟩
  | .compare user1 user2 =>
      match m.handles.get user1 with
      | none => some ⟨m, [.comparing none user2, .game], []⟩
      | some user => some ⟨m.retain user, [.comparing (some user) user2, .game], []⟩
  | .read handle =>
      match m.handles.get handle with
      | none => some ⟨m, [.game], []⟩
      | some user => some ⟨m.retain user, [.drop user, .game], []⟩
  | .findUserById userId => m.findStep fun u => decide (u.userId = userId)
  | .findUserByLocalId localId => m.findStep fun u => decide (u.localId = localId)
  | .findForDevice => m.findStep fun u => decide (u.state = .SignedIn)
  | .signOutAsync handle submission =>
      match m.handles.get handle with
      | none => some ⟨m, [.game], []⟩
      | some user =>
          match submission with
          | .refused => some ⟨m, [.game], []⟩
          | .canceled => some ⟨m.retain user, [.game], [[.drop user]]⟩
          | .run => some ⟨m.retain user, [.game], [[.signOut user]]⟩
  | .registerForChangeEvent =>
      if m.changeLock then none
      else
        some ⟨{ m with listeners := m.listeners ++ [m.nextToken], nextToken := m.nextToken + 1 }.record
          (.registered m.nextToken), [.game], []⟩
  | .unregisterForChangeEvent token =>
      if m.changeLock then none
      else some ⟨{ m with listeners := m.listeners.filter fun t => decide (t ≠ token) }, [.game], []⟩
  | .finish => some ⟨m, [], []⟩
  | _ => none

/-- `user_handle_from_info`, `fire_change_event` and the closures, one section after the other. -/
def Memory.step (m : Memory) : Code → Choice → Option (Outcome Memory Code)
  | .game, choice => m.gameStep choice
  | .signIn _, .userInfo (.ok info) => some ⟨m, [.handleFromInfo info], []⟩
  | .signIn allowUi, .userInfo (.error _) => some ⟨m, if allowUi then [.interactive] else [], []⟩
  | .interactive, .window (.ok (some info)) => some ⟨m, [.handleFromInfo info], []⟩
  | .interactive, .window _ => some ⟨m, [], []⟩
  | .handleFromInfo info, .go =>
      match parseU64 info.xuid with
      | none => some ⟨m, [], []⟩
      | some userId =>
          some ⟨{ m with calls := m.calls + 1 }.record (.entered m.calls info),
            [.lookUp m.calls userId info], []⟩
  | .lookUp call userId info, .go =>
      if m.registryLock then none
      else
        match m.find fun u => decide (u.userId = userId) with
        | some user => some ⟨m.retain user, [.finish call user], []⟩
        | none => some ⟨m, [.register call userId info], []⟩
  | .register call userId info, .go =>
      if m.registryLock then none
      else
        some ⟨m.registerUser userId info,
          [.fire userId .SIGNED_IN_AGAIN (.handle call m.users.length)], []⟩
  | .finish call user, .go =>
      some ⟨(m.createHandle user).record (.returned call user m.handles.next), [], []⟩
  | .create user inRegistry, .go =>
      some ⟨{ m.createHandle user with registryLock := m.registryLock && !inRegistry }, [], []⟩
  | .signOut user, .go =>
      some ⟨(m.setState user .SigningOut).record (.wrote user .SigningOut),
        [.fire ((m.users[user]?.map UserState.localId).getD 0) .SIGNING_OUT (.signOut user)], []⟩
  | .signedOut user, .go =>
      some ⟨(m.setState user .SignedOut).record (.wrote user .SignedOut),
        [.fire ((m.users[user]?.map UserState.localId).getD 0) .SIGNED_OUT (.done user)], []⟩
  | .fire localId event after, .go =>
      if m.changeLock then none
      else
        some ⟨{ m with changeLock := true }.record (.fired event after.user localId),
          [.notifying localId event m.listeners after], []⟩
  | .notifying localId event tokens after, .notify token =>
      if token ∈ tokens then
        -- the callback is code of the game
        some ⟨m.record (.notified token event after.user),
          [.game, .notifying localId event (tokens.erase token) after], []⟩
      else none
  | .notifying _ _ tokens after, .go =>
      if tokens = [] then some ⟨{ m with changeLock := false }, [after.code], []⟩ else none
  | .comparing user1 handle2, .go =>
      some ⟨(user1.elim m m.release).record (.compared (compareUsers user1 (m.handles.get handle2))),
        [], []⟩
  | .drop user, .go => some ⟨m.release user, [], []⟩
  | _, _ => none

def machine : Machine Memory Code Choice where
  step := Memory.step

/-- A process with `n` threads of the game, in which nobody has signed in. -/
def start (n : ℕ) : Config Memory Code where
  shared := {}
  threads := List.replicate n [.game]

/-! ## Schedules -/

def fakeGamer : UserInfo where
  xuid := "2533274999999999"
  gamertag := "FakeGamer"
  gamertagModern := "FakeGamer"
  ageGroup := "Adult"

/-- In a schedule, a sign-in that the service answers with the account, up to its lookup. -/
def signInSchedule (worker : ℕ) : List (ℕ × Choice) :=
  [(0, .addUser 1 .run), (worker, .userInfo (.ok fakeGamer)), (worker, .go)]

def sections (worker n : ℕ) : List (ℕ × Choice) := List.replicate n (worker, .go)

end XGameRuntime.XUser
