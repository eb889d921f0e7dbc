import XGameRuntime.Concurrency.Pool
import XGameRuntime.XStore.Ownership

/-! # Enumerating a query

`XStoreEnumerateProductsQuery` of `src/com/xstore.rs`, and what else a title may call meanwhile, in its
callback or on other threads: it may query, close the handle, or enumerate again.
-/

namespace XGameRuntime.XStore
open Concurrency Counted
set_option autoImplicit false

/-! ## The calls -/

inductive Source where
  | entitled | associated | products
  deriving DecidableEq, Repr

/-- What has happened, latest first. -/
inductive Event (F : Type) where
  /-- A query is there, with what the service has listed. -/
  | queried (handle : ℕ) (listed : List (Listing F))
  /-- An enumeration has found the handle. -/
  | entered (call handle : ℕ)
  /-- The callback is called with a product. -/
  | visited (call : ℕ) (product : Listing F)
  /-- A callback that is running reads its product. -/
  | looked (call : ℕ) (product : Listing F)
  | verdict (call : ℕ) (keepGoing : Bool)
  /-- An enumeration has returned `S_OK`. -/
  | returned (call : ℕ)
  | refused (result : HRESULT)
  | registered (token : ℕ)
  | unregistered (token : ℕ) (found : Bool)
  deriving DecidableEq, Repr

structure Memory (F : Type) where
  table : ProductQueryHandleTable F := {}
  calls : ℕ := 0
  /-- `LICENSE_CHANGE_TOKENS`. -/
  licenseChangeTokens : ℕ := 1
  log : List (Event F) := []

inductive Code where
  | game
  /-- A worker of `run_sync` that waits for the service. -/
  | fetch (source : Source)
  /-- The loop over the entries, in the callback for one of them. -/
  | callback (call query i : ℕ)
  deriving DecidableEq, Repr

/-- Pointers are whether they are not null. -/
inductive Choice (F : Type) where
  | query (source : Source) (storeContextHandle : ℕ)
  | enumerate (handle : ℕ) (callback : Bool)
  | close (handle : ℕ)
  | registerGameLicenseChanged (storeContextHandle : ℕ) (callback token : Bool)
  | unregisterGameLicenseChanged (token : ℕ)
  | thread
  | finish
  /-- What `ipc::get_entitled_products` returns. -/
  | entitled (reply : Except HRESULT (List EntitledProduct))
  /-- What `ipc::get_associated_products` or `ipc::get_products` returns. -/
  | catalog (reply : Except HRESULT (List (CatalogProductEntry F)))
  | look
  | verdict (keepGoing : Bool)

section Steps
variable {F R : Type} (A : Amounts F) (m : Memory F)

def Memory.record (e : Event F) : Memory F := { m with log := e :: m.log }

def Memory.query (entry : Strings → R → ProductQueryEntry F × Strings) (listing : R → Listing F)
    (products : List R) : Memory F :=
  let created := m.table.create entry products
  { m with table := created.2 }.record (.queried created.1 (products.map listing))

/-- The loop goes on to an entry, or returns when there is none. -/
def Memory.visit (call query i : ℕ) : Memory F × List Code :=
  match m.table.entry query i with
  | some e =>
      (m.record (.visited call (e.product.map m.table.strings.read)), [.callback call query i])
  | none => ({ m with table := m.table.drop query }.record (.returned call), [])

def Memory.gameStep : Choice F → Option (Outcome (Memory F) Code)
  | .query source storeContextHandle =>
      if storeContextHandle = 0 then some ⟨m.record (.refused E_POINTER), [], []⟩
      else some ⟨m, [], [[.fetch source]]⟩
  | .enumerate handle callback =>
      if callback = false then some ⟨m.record (.refused E_POINTER), [], []⟩
      else
        match m.table.get handle with
        | none => some ⟨m.record (.refused E_INVALIDARG), [], []⟩
        | some (query, table) =>
            let entered := { m with table := table, calls := m.calls + 1 }.record
              (.entered m.calls handle)
            let r := entered.visit m.calls query 0
            some ⟨r.1, r.2, []⟩
  | .close handle => some ⟨{ m with table := m.table.close handle }, [], []⟩
  | .registerGameLicenseChanged storeContextHandle callback token =>
      if storeContextHandle = 0 ∨ callback = false ∨ token = false then
        some ⟨m.record (.refused E_POINTER), [], []⟩
      else
        some ⟨{ m with licenseChangeTokens := m.licenseChangeTokens + 1 }.record
          (.registered m.licenseChangeTokens), [], []⟩
  | .unregisterGameLicenseChanged token =>
      some ⟨m.record (.unregistered token
        (!decide (token = 0 ∨ m.licenseChangeTokens ≤ token))), [], []⟩
  | .thread => some ⟨m, [], [[.game]]⟩
  | _ => none

/-- Code of the title runs on top of the frame that has called it. -/
def Memory.inside (f : Code) (choice : Choice F) : Option (Outcome (Memory F) Code) :=
  (m.gameStep choice).map fun o => { o with push := o.push ++ [f] }

def Memory.step : Code → Choice F → Option (Outcome (Memory F) Code)
  | .game, .finish => some ⟨m, [], []⟩
  | .game, choice => m.inside .game choice
  | .fetch .entitled, .entitled reply =>
      some ⟨m.query (entitledEntry A) (EntitledProduct.listing A) (reply.toOption.getD []), [], []⟩
  | .fetch .associated, .catalog reply | .fetch .products, .catalog reply =>
      some ⟨m.query (catalogEntry A) (CatalogProductEntry.listing A) (reply.toOption.getD []),
        [], []⟩
  | .callback call query i, .look =>
      (m.table.entry query i).map fun e =>
        ⟨m.record (.looked call (e.product.map m.table.strings.read)), [.callback call query i], []⟩
  | .callback call query i, .verdict keepGoing =>
      let m := m.record (.verdict call keepGoing)
      if keepGoing then
        let r := m.visit call query (i + 1)
        some ⟨r.1, r.2, []⟩
      else some ⟨{ m with table := m.table.drop query }.record (.returned call), [], []⟩
  | .callback call query i, choice => m.inside (.callback call query i) choice
  | _, _ => none

def machine : Machine (Memory F) Code (Choice F) where
  step m := m.step A

/-- A process with `n` threads of the title, before any call. -/
def start (F : Type) (n : ℕ) : Config (Memory F) Code where
  shared := {}
  threads := List.replicate n [.game]

end Steps

/-! ## The plain loop -/

section Loop
variable {P : Type}

/-- What a callback that returns these verdicts is called with, the running call included. -/
def visits : List P → List Bool → List P
  | [], _ => []
  | p :: _, [] => [p]
  | p :: products, keepGoing :: verdicts => p :: if keepGoing then visits products verdicts else []

/-- Whether the loop is over after these verdicts. -/
def ended : List P → List Bool → Bool
  | [], _ => true
  | _ :: _, [] => false
  | _ :: products, keepGoing :: verdicts => !keepGoing || ended products verdicts

theorem visits_going (l : List P) (i : ℕ) : visits l (List.replicate i true) = l.take (i + 1) := by
  induction l generalizing i with
  | nil => simp [visits]
  | cons p l ih =>
    cases i with
    | zero => simp [visits]
    | succ i => simp [visits, List.replicate_succ, ih]

theorem ended_going (l : List P) (i : ℕ) : ended l (List.replicate i true) = decide (l.length ≤ i) := by
  induction l generalizing i with
  | nil => simp [ended]
  | cons p l ih =>
    cases i with
    | zero => simp [ended]
    | succ i => simp [ended, List.replicate_succ, ih]

theorem visits_stopped {l : List P} {i : ℕ} (h : i < l.length) :
    visits l (List.replicate i true ++ [false]) = l.take (i + 1) := by
  induction l generalizing i with
  | nil => cases h
  | cons p l ih =>
    cases i with
    | zero => simp [visits]
    | succ i => simp [visits, List.replicate_succ, ih (Nat.lt_of_succ_lt_succ h)]

theorem ended_stopped {l : List P} {i : ℕ} (h : i < l.length) :
    ended l (List.replicate i true ++ [false]) = true := by
  induction l generalizing i with
  | nil => cases h
  | cons p l ih =>
    cases i with
    | zero => simp [ended]
    | succ i => simp [ended, List.replicate_succ, ih (Nat.lt_of_succ_lt_succ h)]

end Loop

/-! ## What the log says of a call -/

section Log
variable {F : Type}

def Event.call : Event F → Option ℕ
  | .entered call _ | .visited call _ | .looked call _ | .verdict call _ | .returned call =>
      some call
  | _ => none

def Event.visit (call : ℕ) : Event F → Option (Listing F)
  | .visited c product => if c = call then some product else none
  | _ => none

def Event.keepGoing (call : ℕ) : Event F → Option Bool
  | .verdict c keepGoing => if c = call then some keepGoing else none
  | _ => none

/-- What the callback of a call has been called with, in order. -/
def visited (call : ℕ) (log : List (Event F)) : List (Listing F) :=
  (log.filterMap (Event.visit call)).reverse

/-- What the callback of a call has returned, in order. -/
def verdicts (call : ℕ) (log : List (Event F)) : List Bool :=
  (log.filterMap (Event.keepGoing call)).reverse

variable {call : ℕ} {log : List (Event F)}

theorem visited_cons (call : ℕ) (e : Event F) (log : List (Event F)) :
    visited call (e :: log) = visited call log ++ (e.visit call).toList := by
  unfold visited
  cases h : e.visit call with
  | none => simp [h]
  | some p => simp [h]

theorem verdicts_cons (call : ℕ) (e : Event F) (log : List (Event F)) :
    verdicts call (e :: log) = verdicts call log ++ (e.keepGoing call).toList := by
  unfold verdicts
  cases h : e.keepGoing call with
  | none => simp [h]
  | some b => simp [h]

theorem visited_other {e : Event F} (h : e.call ≠ some call) :
    visited call (e :: log) = visited call log := by
  have hnone : e.visit call = none := by
    cases e with
    | visited c product => exact if_neg fun he => h (congrArg some he)
    | _ => rfl
  rw [visited_cons, hnone]
  exact List.append_nil _

theorem verdicts_other {e : Event F} (h : e.call ≠ some call) :
    verdicts call (e :: log) = verdicts call log := by
  have hnone : e.keepGoing call = none := by
    cases e with
    | verdict c keepGoing => exact if_neg fun he => h (congrArg some he)
    | _ => rfl
  rw [verdicts_cons, hnone]
  exact List.append_nil _

end Log

end XGameRuntime.XStore
