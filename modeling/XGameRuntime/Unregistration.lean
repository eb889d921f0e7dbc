import XGameRuntime.TaskQueue.Api
import XGameRuntime.TaskQueue.Notifying
import XGameRuntime.XUser.Listeners

/-! # Unregistering is synchronous

Both registries of callbacks, the monitors of a queue and the listeners for change events, are notified
under the lock that their removals take. A call of a removal that comes back has therefore found no
notification on its way. A callback runs above the frame of its notification, so none is executing
then, and no later notification finds the one that was removed.
-/

namespace XGameRuntime
open Concurrency
set_option autoImplicit false

namespace TaskQueue
variable {κ : Type} {C : Client κ} {c₀ c : Config (World C) (Frame κ C.Frame)}

/-- What is said of the next step after `c`, and of everything after that. -/
structure MonitorsSynchronous (C : Client κ) (c : Config (World C) (Frame κ C.Frame)) : Prop where
  /-- `XTaskQueueUnregisterMonitor` on queue `i`, called by thread `j`. -/
  unregisters : ∀ i j m g choice r c', c.top j = some (.client g) →
    C.step c.shared.mem c.shared.toTaskQueues g choice = some r →
    .unregisterMonitor i m.token ∈ r.admin → m ∈ (c.shared.registrations i).entries →
    (machine C).fire c j (some choice) = some c' →
    Unregistered (machine C) Monitor.token (notifyMonitors C i)
      (fun s => s.toTaskQueues.registrations i) m.token c'
  /-- A monitor stays registered until it is unregistered itself. -/
  keeps : ∀ i j m x c', m ∈ (c.shared.registrations i).entries → (machine C).fire c j x = some c' →
    m ∈ (c'.shared.registrations i).entries ∨ ∃ g choice r, c.top j = some (.client g) ∧
      x = some choice ∧ C.step c.shared.mem c.shared.toTaskQueues g choice = some r ∧
      .unregisterMonitor i m.token ∈ r.admin
  /-- `Queue::submit` takes the lock of the queue. -/
  notifies : ∀ j a k x c', c.threads[j]? = some (.notify a :: k) → (machine C).fire c j x = some c' →
    (c.shared.registrations a.queue).entries = [] ∧
        (∃ owner, c'.threads[j]? = some (.submitContext a owner :: k)) ∨
      ∃ handle, c'.threads[j]? =
          some (.notifying a handle (c.shared.registrations a.queue).entries :: k) ∧
        CallsEachOnce (machine C) Monitor.token (notifyMonitors C a.queue) j k
          (.notifying a handle (c.shared.registrations a.queue).entries)
          (c.shared.registrations a.queue).entries c'

theorem Initial.kept (h0 : Initial C c₀) (h : (machine C).Reaches anyStep c₀ c) (i : ℕ) :
    (c.shared.registrations i).Kept Monitor.token (notifyMonitors C i) c.frames := by
  refine (machine_notifies C i).kept h ?_
  obtain ⟨pool, now, hq⟩ := h0.queues
  have hnone : (c₀.shared.registrations i) = {} := by
    rw [hq]
    rfl
  have hidle : ∀ f ∈ c₀.frames, (notifyMonitors C i).left f = none := by
    intro f hf
    rcases h0.threads f hf with rfl | ⟨g, rfl⟩ <;> rfl
  rw [hnone]
  refine ⟨Notifier.weight_inside hidle, List.nodup_nil, by simp, fun f hf l hl => ?_⟩
  rw [hidle f hf] at hl
  cases hl

theorem Initial.monitorsSynchronous (h0 : Initial C c₀) (h : (machine C).Reaches anyStep c₀ c) :
    MonitorsSynchronous C c where
  unregisters := by
    intro i j m g choice r c' htop hr hadmin hm hfire
    have hK := h0.kept h i
    refine (machine_notifies C i).unregistered hK hfire hm ?_
    obtain ⟨f, o, htop', hs, hshared, -⟩ := fire_frames hfire
    rw [htop, Option.some.injEq] at htop'
    subst htop'
    simp only [machine, hr, Option.bind_eq_bind, Option.bind_some, Option.bind_eq_some_iff] at hs
    obtain ⟨t, ht, ho⟩ := hs
    rw [hshared, ← Option.some.inj ho]
    exact applyAll_unregister ht (hK.fresh m hm) hadmin
  keeps := by
    intro i j m x c' hm hfire
    obtain ⟨f, o, htop, hs, hshared, -⟩ := fire_frames hfire
    rw [hshared]
    cases f with
    | client g =>
      cases x with
      | none => cases hs
      | some choice =>
        simp only [machine, Option.bind_eq_bind, Option.bind_eq_some_iff] at hs
        obtain ⟨r, hr, t, ht, ho⟩ := hs
        rw [← Option.some.inj ho]
        by_cases hadmin : .unregisterMonitor i m.token ∈ r.admin
        · exact .inr ⟨g, choice, r, htop, rfl, hr, hadmin⟩
        · exact .inl (applyAll_keeps ht hm hadmin)
    | _ =>
      obtain ⟨q, hq, rfl⟩ := (step_queue (by simp)).mp hs
      left
      unfold queueStep at hq
      split at hq
      · rename_i hreg
        cases hq
        rw [← registryStep_entries (i := i) hreg] at hm
        exact hm
      · obtain ⟨b, hb, rfl⟩ := Option.map_eq_some_iff.mp hq
        exact hm
  notifies := by
    intro j a k x c' hk hfire
    obtain ⟨o, hs, -, hthread⟩ := fire_thread hk hfire
    obtain ⟨q, hq, rfl⟩ := (step_queue (by simp)).mp hs
    have hreg : registryStep C c.shared.toTaskQueues (.notify a) = some q := by
      unfold queueStep at hq
      split at hq
      · rename_i hreg
        rw [hreg, hq]
      · obtain ⟨b, hb, -⟩ := Option.map_eq_some_iff.mp hq
        cases hb
    obtain ⟨-, -, ⟨hempty, -, owner, hpush⟩ | ⟨⟨handle, hpush⟩, -⟩⟩ := notify_inv hreg
    · refine .inl ⟨hempty, owner, ?_⟩
      rw [hthread]
      exact congrArg (fun l => some (l ++ k)) hpush
    · have hk' : c'.threads[j]? =
          some (.notifying a handle (c.shared.registrations a.queue).entries :: k) := by
        rw [hthread]
        exact congrArg (fun l => some (l ++ k)) hpush
      exact .inr ⟨handle, hk', ((machine_notifies C a.queue).callsEachOnce (h0.kept h a.queue) hk rfl
        hfire hk' (if_pos rfl)).2⟩

end TaskQueue

namespace XUser
variable {c : Config Memory Code}

structure ListenersSynchronous (c : Config Memory Code) : Prop where
  /-- `XUserUnregisterForChangeEvent`, called by thread `j`. -/
  unregisters : ∀ j token c', c.top j = some .game → token ∈ c.shared.listeners →
    machine.fire c j (.unregisterForChangeEvent token) = some c' →
    Unregistered machine id fireChangeEvent Memory.registrations token c'
  /-- A listener stays registered until it is unregistered itself. -/
  keeps : ∀ j token x c', token ∈ c.shared.listeners → machine.fire c j x = some c' →
    token ∈ c'.shared.listeners ∨
      c.top j = some .game ∧ x = .unregisterForChangeEvent token
  /-- `fire_change_event` takes the lock. -/
  notifies : ∀ j localId event after k x c', c.threads[j]? = some (.fire localId event after :: k) →
    machine.fire c j x = some c' →
    c'.threads[j]? = some (.notifying localId event c.shared.listeners after :: k) ∧
      CallsEachOnce machine id fireChangeEvent j k (.notifying localId event c.shared.listeners after)
        c.shared.listeners c'

theorem reaches_kept {n : ℕ} (h : machine.Reaches anyStep (start n) c) :
    c.shared.registrations.Kept id fireChangeEvent c.frames := by
  refine machine_notifies.kept h ?_
  have hidle : ∀ f ∈ (start n).frames, fireChangeEvent.left f = none := by
    intro f hf
    obtain ⟨k, hk, hfk⟩ := List.mem_flatten.mp (Multiset.mem_coe.mp hf)
    rw [List.eq_of_mem_replicate hk] at hfk
    rw [List.mem_singleton.mp hfk]
    rfl
  refine ⟨Notifier.weight_inside hidle, List.nodup_nil, ?_, fun f hf l hl => ?_⟩
  · intro token ht
    cases ht
  · rw [hidle f hf] at hl
    cases hl

theorem listenersSynchronous {n : ℕ} (h : machine.Reaches anyStep (start n) c) :
    ListenersSynchronous c where
  unregisters := by
    intro j token c' htop ht hfire
    refine machine_notifies.unregistered (reaches_kept h) hfire ht ?_
    obtain ⟨f, o, htop', hs, hshared, -⟩ := fire_frames hfire
    rw [htop, Option.some.injEq] at htop'
    subst htop'
    rw [hshared]
    simp only [machine, Memory.step, Memory.gameStep] at hs
    split at hs
    · cases hs
    · cases hs
      intro t ht'
      exact of_decide_eq_true (List.mem_filter.mp ht').2
  keeps := by
    intro j token x c' ht hfire
    obtain ⟨f, o, htop, hs, hshared, -⟩ := fire_frames hfire
    rw [hshared]
    by_cases hgame : f = .game ∧ x = .unregisterForChangeEvent token
    · obtain ⟨rfl, rfl⟩ := hgame
      exact .inr ⟨htop, rfl⟩
    · exact .inl (step_keeps hs ht fun hf hx => hgame ⟨hf, hx⟩)
  notifies := by
    intro j localId event after k x c' hk hfire
    obtain ⟨o, hs, -, hthread⟩ := fire_thread hk hfire
    have hk' : c'.threads[j]? =
        some (.notifying localId event c.shared.listeners after :: k) := by
      rw [hthread]
      cases steps_inv hs with
      | plain hcode => cases hcode
      | fire => rfl
    exact ⟨hk', (machine_notifies.callsEachOnce (reaches_kept h) hk rfl hfire hk' rfl).2⟩

end XUser

/-! ## Both registries -/

/-- The thread of the game is about to notify the monitors of the queue. -/
def aboutToNotify (c : Config (TaskQueue.World TaskQueue.QueueGame)
    (TaskQueue.Frame ℕ TaskQueue.QueueGame.Frame)) : Bool :=
  match (c.threads[1]? : Option (List (TaskQueue.Frame ℕ TaskQueue.QueueGame.Frame))) with
  | some (.notify _ :: _) => true
  | _ => false

/-- Thread 1 is about to fire a change event. -/
def aboutToFire (u : Config XUser.Memory XUser.Code) : Bool :=
  match (u.threads[1]? : Option (List XUser.Code)) with
  | some (.fire _ _ _ :: _) => true
  | _ => false

end XGameRuntime
