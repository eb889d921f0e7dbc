import XGameRuntime.Concurrency.Registrations
import XGameRuntime.XUser.Holders

/-! # The listeners for change events

`fire_change_event`, `register_change_event` and `unregister_change_event` follow the protocol of a
registry that is notified under its lock. The registry is a map, so a notification calls its entries
in an order of its own.
-/

namespace XGameRuntime.XUser
open Concurrency
set_option autoImplicit false

def Memory.registrations (m : Memory) : Registrations ℕ := ⟨m.listeners, m.nextToken, m.changeLock⟩

/-- The loop of `fire_change_event`. -/
def fireChangeEvent : Notifier Code ℕ where
  left
    | .notifying _ _ tokens _ => some tokens
    | _ => none
  resume
    | .notifying localId event _ after, tokens => .notifying localId event tokens after
    | f, _ => f
  calls _ _ := [.game]
  left_resume := by
    intro f l l' h
    cases f with
    | notifying => rfl
    | _ => cases h
  resume_left := by
    intro f l h
    cases f with
    | notifying =>
      cases h
      rfl
    | _ => rfl
  resume_resume := by
    intro f l l'
    cases f <;> rfl
  calls_resume _ _ _ := rfl
  left_calls := by
    intro f a g hg
    rw [List.mem_singleton.mp hg]

section Steps
variable {m : Memory} {o : Outcome Memory Code}

/-- The calls of the game that leave the listeners alone. -/
theorem gameStep_same {x : Choice} (h : m.gameStep x = some o) (hr : x ≠ .registerForChangeEvent)
    (hu : ∀ token, x ≠ .unregisterForChangeEvent token) :
    o.shared.registrations = m.registrations := by
  have hfind : ∀ p, m.findStep p = some o → o.shared.registrations = m.registrations := by
    intro p h
    unfold Memory.findStep at h
    split at h
    · cases h
    · split at h <;> cases h <;> rfl
  cases x with
  | registerForChangeEvent => exact absurd rfl hr
  | unregisterForChangeEvent token => exact absurd rfl (hu token)
  | findUserById | findUserByLocalId | findForDevice => exact hfind _ h
  | addUser | duplicate | compare | read =>
    simp only [Memory.gameStep] at h
    split at h <;> cases h <;> rfl
  | close handle =>
    cases h
    show (m.closeHandle handle).registrations = m.registrations
    unfold Memory.closeHandle
    split <;> rfl
  | signOutAsync handle submission =>
    simp only [Memory.gameStep] at h
    split at h
    · cases h
      rfl
    · cases submission <;> cases h <;> rfl
  | addUserByIdWithUi | finish =>
    cases h
    rfl
  | _ => cases h

/-- What the game does to the listeners, by the call. -/
theorem gameStep_listeners {x : Choice} (h : m.gameStep x = some o) :
    o.shared.registrations = m.registrations ∨ m.changeLock = false ∧
      ((x = .registerForChangeEvent ∧ o.shared.registrations =
          ⟨m.listeners ++ [m.nextToken], m.nextToken + 1, m.changeLock⟩) ∨
        ∃ token, x = .unregisterForChangeEvent token ∧ o.shared.registrations =
          ⟨m.listeners.filter fun t => decide (t ≠ token), m.nextToken, m.changeLock⟩) := by
  cases x with
  | registerForChangeEvent =>
    simp only [Memory.gameStep] at h
    split at h
    · cases h
    · rename_i hlock
      cases h
      exact .inr ⟨by simpa using hlock, .inl ⟨rfl, rfl⟩⟩
  | unregisterForChangeEvent token =>
    simp only [Memory.gameStep] at h
    split at h
    · cases h
    · rename_i hlock
      cases h
      exact .inr ⟨by simpa using hlock, .inr ⟨token, rfl, rfl⟩⟩
  | _ => exact .inl (gameStep_same h (by simp) (by simp))

theorem gameStep_changes {x : Choice} (h : m.gameStep x = some o) :
    m.registrations.Changes id o.shared.registrations := by
  rcases gameStep_listeners h with hsame | ⟨hlock, ⟨-, hreg⟩ | ⟨token, -, hreg⟩⟩
  · rw [hsame]
    exact .refl
  · rw [hreg]
    exact .register .refl hlock rfl
  · rw [hreg]
    exact .unregister token .refl hlock

theorem Code.Plain.left {f : Code} (h : f.Plain) : fireChangeEvent.left f = none := by
  cases f with
  | notifying => cases h
  | _ => rfl

theorem gameStep_left {x : Choice} (h : m.gameStep x = some o) :
    ∀ g ∈ o.frames, fireChangeEvent.left g = none := by
  cases gameStep_inv h with
  | plain _ hpush hspawn =>
    exact forall_frames.mpr ⟨fun g hg => (hpush g hg).left, fun k hk g hg => (hspawn k hk g hg).left⟩
  | @borrow user handle code hget hcode =>
    refine forall_frames.mpr ⟨?_, by simp⟩
    rw [List.forall_mem_cons]
    refine ⟨?_, by simp [fireChangeEvent]⟩
    cases code with
    | notifying => cases hcode
    | _ => rfl
  | @spawnSignOut user handle code hget hcode =>
    refine forall_frames.mpr ⟨by simp [fireChangeEvent], ?_⟩
    intro k hk g hg
    rw [List.mem_singleton.mp hk] at hg
    rw [List.mem_singleton.mp hg]
    cases code with
    | notifying => cases hcode
    | _ => rfl
  | search | close | listen | unlisten =>
    exact forall_frames.mpr ⟨by simp [fireChangeEvent], by simp⟩

/-- Of the sections of the calls only the one that begins `fire_change_event` takes the lock. -/
theorem Steps.notifies {code : Code} (h : Steps m code o) (hgame : code ≠ .game)
    (hfire : ∀ localId event after, code ≠ .fire localId event after) :
    NotifyStep id fireChangeEvent m.registrations code o o.shared.registrations := by
  have hone : ∀ {g : Code}, fireChangeEvent.left g = none → ∀ m : Memory,
      ∀ f ∈ (Outcome.frames ⟨m, [g], []⟩ : Multiset Code), fireChangeEvent.left f = none := by
    intro g hg m f hf
    rw [List.mem_singleton.mp (Multiset.mem_coe.mp hf)]
    exact hg
  have hnil : ∀ m : Memory, ∀ f ∈ (Outcome.frames ⟨m, [], []⟩ : Multiset Code),
      fireChangeEvent.left f = none := fun _ _ hf => absurd hf (Multiset.notMem_zero _)
  cases h with
  | borrow | search | spawnSignOut | close | listen | unlisten => exact absurd rfl hgame
  | fire => exact absurd rfl (hfire _ _ _)
  | plain hcode hpush hspawn =>
    exact .outside hcode.left (forall_frames.mpr
      ⟨fun g hg => (hpush g hg).left, fun k hk g hg => (hspawn k hk g hg).left⟩) .refl
  | notify htoken => exact .call rfl (List.perm_cons_erase htoken) rfl rfl
  | @notified localId event after =>
    refine .unlock rfl (hone ?_ _)
    cases after <;> rfl
  | enter | found | missed | register | signOut | signedOut => exact .outside rfl (hone rfl _) .refl
  | finish | create | drop => exact .outside rfl (hnil _) .refl
  | @compared user1 handle2 =>
    refine .outside rfl (hnil _) ?_
    cases user1 <;> exact .refl

theorem machine_notifies : machine.Notifies id fireChangeEvent Memory.registrations where
  step := by
    intro m code x o h
    cases code with
    | game => exact .outside rfl (gameStep_left h) (gameStep_changes h)
    | fire localId event after =>
      cases x with
      | go =>
        simp only [machine, Memory.step] at h
        split at h
        · cases h
        · rename_i hlock
          cases h
          exact .lock rfl (by simpa [Memory.registrations] using hlock) rfl rfl rfl
      | _ => cases h
    | _ => exact (steps_inv h).notifies (by simp) (by simp)
  enabled := by
    intro m f l hf _
    cases f with
    | notifying localId event tokens after =>
      cases tokens with
      | nil => exact ⟨.go, _, rfl⟩
      | cons token rest => exact ⟨.notify token, _, if_pos List.mem_cons_self⟩
    | _ => cases hf

/-- Nothing but its own unregistration removes a listener. -/
theorem step_keeps {code : Code} {x : Choice} (h : m.step code x = some o) {token : ℕ}
    (ht : token ∈ m.listeners) (hn : code = .game → x ≠ .unregisterForChangeEvent token) :
    token ∈ o.shared.listeners := by
  cases code with
  | game =>
    have hlisteners : ∀ {r : Registrations ℕ}, o.shared.registrations = r →
        o.shared.listeners = r.entries := fun hreg => congrArg Registrations.entries hreg
    rcases gameStep_listeners h with hsame | ⟨-, ⟨-, hreg⟩ | ⟨t, rfl, hreg⟩⟩
    · exact hlisteners hsame ▸ ht
    · exact hlisteners hreg ▸ List.mem_append_left _ ht
    · rw [hlisteners hreg]
      refine List.mem_filter.mpr ⟨ht, decide_eq_true fun he => hn rfl ?_⟩
      rw [he]
  | comparing user1 handle2 =>
    cases steps_inv h with
    | plain => exact ht
    | compared => cases user1 <;> exact ht
  | _ => cases steps_inv h <;> exact ht

end Steps
end XGameRuntime.XUser
