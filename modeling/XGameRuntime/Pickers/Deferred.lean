import XGameRuntime.Concurrency.Threads
import XGameRuntime.Concurrency.Windows

/-! # Deferred work

`src/com/pickers/deferred.rs`: work that a thread hands to its own message loop. The work travels as a
raw pointer, first in `run_later`, then in a window, then in the window's procedure, and each of them
must give it up for the next. Every call of the window manager is a step of its own; any thread may
post to any window, and a thread may take messages from its loop and drop them, or destroy its windows.
A thread that ends loses the windows that it has left.
-/

namespace XGameRuntime.Pickers.Deferred
open Concurrency
set_option autoImplicit false

def WM_APP : ℕ := 0x8000
/-- The message that carries one piece of deferred work. -/
def WM_RUN_DEFERRED : ℕ := WM_APP

/-- What has happened, latest first. -/
inductive Event where
  /-- `run_later` has returned on a thread. -/
  | told (work thread : ℕ) (queued : Bool)
  | ran (work thread : ℕ)
  /-- `run_later` has dropped the work. -/
  | dropped (work thread : ℕ)
  /-- The window that kept the work has been destroyed, and not by those who know of the work. -/
  | lost (work : ℕ)
  /-- The title has taken a message for the window and not dispatched it. -/
  | discarded (window : ℕ)
  deriving DecidableEq, Repr

structure Memory (W : WindowManager) where
  threads : ℕ := 1
  user32 : W.State := W.start
  /-- How many pieces of work have been boxed. -/
  works : ℕ := 0
  log : List Event := []

/-- What a thread has left to do. -/
inductive Code where
  /-- Code of the title, with its message loops, and the work itself. -/
  | title (thread : ℕ)
  /-- The title is done with the thread. -/
  | ending (thread : ℕ)
  /-- `run_later` before `CreateWindowExW`. -/
  | create (thread work : ℕ)
  /-- Before `SetWindowLongPtrW`. -/
  | store (thread window work : ℕ)
  /-- Before `PostMessageW`. -/
  | post (thread window work : ℕ)
  /-- Before `DestroyWindow`, as nothing could be posted. -/
  | abandon (thread window work : ℕ)
  /-- Before the work is dropped. -/
  | drop (thread work : ℕ)
  | returning (thread work : ℕ) (posted : Bool)
  /-- `deferred_wnd_proc`. -/
  | deferredWndProc (thread window message : ℕ)
  /-- It has read the pointer and is about to zero it. -/
  | zero (thread window : ℕ) (stored : Option ℕ)
  /-- Before `DestroyWindow`. -/
  | destroy (thread window : ℕ) (stored : Option ℕ)
  /-- Before the work is run. -/
  | run (thread : ℕ) (stored : Option ℕ)
  deriving DecidableEq, Repr

inductive Choice (W : WindowManager) where
  | runLater
  | post (x : W.Chance) (a : Message)
  /-- A message sent to a window of the thread, past the queue. -/
  | send (a : Message)
  | dispatch (a : Message)
  | discard (a : Message)
  | destroy (window : ℕ)
  | thread
  | done
  /-- What `CreateWindowExW` or `PostMessageW` comes to. -/
  | outcome (x : W.Chance)
  | go

section Machine
variable {W : WindowManager}

namespace Memory
variable (m : Memory W)

def desktop : Desktop := W.desktop m.user32

def record (e : Event) : Memory W := { m with log := e :: m.log }

/-- The window has been destroyed by those who do not know of the work. -/
def lose (window : ℕ) (user32 : W.State) : Memory W :=
  { m with
    user32 := user32
    log := (m.desktop.getUserData window).toList.map .lost ++ m.log }

def defWindowProc (a : Message) : Memory W :=
  if ((W.desktop (W.defWindowProc m.user32 a)).windows a.window).isSome then
    { m with user32 := W.defWindowProc m.user32 a }
  else m.lose a.window (W.defWindowProc m.user32 a)

/-- What the title does on a thread. -/
def titleStep (thread : ℕ) : Choice W → Option (Outcome (Memory W) Code)
  | .runLater =>
      some ⟨{ m with works := m.works + 1 }, [.create thread m.works, .title thread], []⟩
  | .post x a => some ⟨{ m with user32 := (W.postMessage x m.user32 a).2 }, [.title thread], []⟩
  | .send a =>
      if m.desktop.owns thread a.window then
        some ⟨m, [.deferredWndProc thread a.window a.message, .title thread], []⟩
      else none
  | .dispatch a =>
      (W.peekMessage m.user32 thread a).map fun s =>
        ⟨{ m with user32 := s }, [.deferredWndProc thread a.window a.message, .title thread], []⟩
  | .discard a =>
      (W.peekMessage m.user32 thread a).map fun s =>
        ⟨{ m with user32 := s }.record (.discarded a.window), [.title thread], []⟩
  | .destroy window =>
      if m.desktop.owns thread window then
        some ⟨m.lose window (W.destroyWindow m.user32 thread window), [.title thread], []⟩
      else none
  | .thread =>
      some ⟨{ m with threads := m.threads + 1 }, [.title thread],
        [[.title m.threads, .ending m.threads]]⟩
  | .done => some ⟨m, [], []⟩
  | _ => none

/-- A thread ends when its windows are destroyed. -/
def endingStep (thread : ℕ) : Choice W → Option (Outcome (Memory W) Code)
  | .destroy window =>
      if m.desktop.owns thread window then
        some ⟨m.lose window (W.destroyWindow m.user32 thread window), [.ending thread], []⟩
      else none
  | .done => if m.desktop.hasNoWindows thread then some ⟨m, [], []⟩ else none
  | _ => none

/-- `run_later` and `deferred_wnd_proc`, one call of the window manager after the other. -/
def step : Code → Choice W → Option (Outcome (Memory W) Code)
  | .title thread, choice => m.titleStep thread choice
  | .ending thread, choice => m.endingStep thread choice
  | .create thread work, .outcome x =>
      match W.createWindowEx x m.user32 thread with
      | (some window, s) => some ⟨{ m with user32 := s }, [.store thread window work], []⟩
      | (none, s) => some ⟨{ m with user32 := s }, [.drop thread work], []⟩
  | .store thread window work, .go =>
      some ⟨{ m with user32 := W.setWindowLongPtr m.user32 window (some work) },
        [.post thread window work], []⟩
  | .post thread window work, .outcome x =>
      match W.postMessage x m.user32 ⟨window, WM_RUN_DEFERRED⟩ with
      | (true, s) => some ⟨{ m with user32 := s }, [.returning thread work true], []⟩
      | (false, s) => some ⟨{ m with user32 := s }, [.abandon thread window work], []⟩
  | .abandon thread window work, .go =>
      some ⟨{ m with user32 := W.destroyWindow m.user32 thread window }, [.drop thread work], []⟩
  | .drop thread work, .go =>
      some ⟨m.record (.dropped work thread), [.returning thread work false], []⟩
  | .returning thread work posted, .go => some ⟨m.record (.told work thread posted), [], []⟩
  | .deferredWndProc thread window message, .go =>
      if message ≠ WM_RUN_DEFERRED then some ⟨m.defWindowProc ⟨window, message⟩, [], []⟩
      else some ⟨m, [.zero thread window (W.getWindowLongPtr m.user32 window)], []⟩
  | .zero thread window stored, .go =>
      some ⟨{ m with user32 := W.setWindowLongPtr m.user32 window none },
        [.destroy thread window stored], []⟩
  | .destroy thread window stored, .go =>
      some ⟨{ m with user32 := W.destroyWindow m.user32 thread window }, [.run thread stored], []⟩
  | .run thread (some work), .go => some ⟨m.record (.ran work thread), [.title thread], []⟩
  | .run _ none, .go => some ⟨m, [], []⟩
  | _, _ => none

end Memory

variable (W) in
def machine : Machine (Memory W) Code (Choice W) where
  step := Memory.step

variable (W) in
def start : Config (Memory W) Code where
  shared := {}
  threads := [[.title 0, .ending 0]]

end Machine

/-! ## Frames and their threads -/

def Code.thread : Code → ℕ
  | .title t | .ending t | .create t _ | .store t _ _ | .post t _ _ | .abandon t _ _ | .drop t _
  | .returning t _ _ | .deferredWndProc t _ _ | .zero t _ _ | .destroy t _ _ | .run t _ => t

/-- It may lie under other frames of its thread. -/
def Code.IsOuter : Code → Prop
  | .title _ | .ending _ => True
  | _ => False

/-! ## What a step does -/

section Step
variable {W : WindowManager} {m : Memory W} {f : Code} {x : Choice W} {o : Outcome (Memory W) Code}

inductive Step (m : Memory W) : Code → Outcome (Memory W) Code → Prop where
  | runLater (t : ℕ) :
      Step m (.title t) ⟨{ m with works := m.works + 1 }, [.create t m.works, .title t], []⟩
  | posted {a : Message} {s : W.State} (t : ℕ) (hs : W.desktop s = m.desktop.post a) :
      Step m (.title t) ⟨{ m with user32 := s }, [.title t], []⟩
  | unposted {s : W.State} (t : ℕ) (hs : W.desktop s = m.desktop) :
      Step m (.title t) ⟨{ m with user32 := s }, [.title t], []⟩
  | sent {t : ℕ} {a : Message} (h : m.desktop.owns t a.window) :
      Step m (.title t) ⟨m, [.deferredWndProc t a.window a.message, .title t], []⟩
  | dispatched {t : ℕ} {a : Message} {s : W.State} (h : m.desktop.owns t a.window)
      (hs : W.desktop s = m.desktop.take a) :
      Step m (.title t)
        ⟨{ m with user32 := s }, [.deferredWndProc t a.window a.message, .title t], []⟩
  | discarded {a : Message} {s : W.State} (t : ℕ) (hs : W.desktop s = m.desktop.take a) :
      Step m (.title t) ⟨{ m with user32 := s }.record (.discarded a.window), [.title t], []⟩
  | destroyed {t v : ℕ} {s : W.State} (h : m.desktop.owns t v)
      (hs : W.desktop s = m.desktop.destroy v) : Step m (.title t) ⟨m.lose v s, [.title t], []⟩
  | thread (t : ℕ) :
      Step m (.title t) ⟨{ m with threads := m.threads + 1 }, [.title t],
        [[.title m.threads, .ending m.threads]]⟩
  | done (t : ℕ) : Step m (.title t) ⟨m, [], []⟩
  | cleared {t v : ℕ} {s : W.State} (h : m.desktop.owns t v)
      (hs : W.desktop s = m.desktop.destroy v) : Step m (.ending t) ⟨m.lose v s, [.ending t], []⟩
  | ended {t : ℕ} (h : m.desktop.hasNoWindows t) : Step m (.ending t) ⟨m, [], []⟩
  | created {t v : ℕ} {s : W.State} (work : ℕ) (h : m.desktop.windows v = none)
      (hs : W.desktop s = m.desktop.put v { owner := t }) :
      Step m (.create t work) ⟨{ m with user32 := s }, [.store t v work], []⟩
  | refused {s : W.State} (t work : ℕ) (hs : W.desktop s = m.desktop) :
      Step m (.create t work) ⟨{ m with user32 := s }, [.drop t work], []⟩
  | stored {t v work : ℕ} {s : W.State} (hs : ∀ w, m.desktop.windows v = some w →
      W.desktop s = m.desktop.put v { w with userData := some work }) :
      Step m (.store t v work) ⟨{ m with user32 := s }, [.post t v work], []⟩
  | queued {t v work : ℕ} {s : W.State} (hs : W.desktop s = m.desktop.post ⟨v, WM_RUN_DEFERRED⟩) :
      Step m (.post t v work) ⟨{ m with user32 := s }, [.returning t work true], []⟩
  | unqueued {s : W.State} (t v work : ℕ) (hs : W.desktop s = m.desktop) :
      Step m (.post t v work) ⟨{ m with user32 := s }, [.abandon t v work], []⟩
  | abandoned {t v work : ℕ} {s : W.State}
      (hs : m.desktop.owns t v → W.desktop s = m.desktop.destroy v) :
      Step m (.abandon t v work) ⟨{ m with user32 := s }, [.drop t work], []⟩
  | dropped (t work : ℕ) :
      Step m (.drop t work) ⟨m.record (.dropped work t), [.returning t work false], []⟩
  | returned (t work : ℕ) (posted : Bool) :
      Step m (.returning t work posted) ⟨m.record (.told work t posted), [], []⟩
  | closed {t v message : ℕ} {s : W.State}
      (hs : m.desktop.owns t v → W.desktop s = m.desktop.destroy v) :
      Step m (.deferredWndProc t v message) ⟨m.lose v s, [], []⟩
  | ignored {t v message : ℕ} {s : W.State} (h : message ≠ WM_RUN_DEFERRED)
      (hs : m.desktop.owns t v → W.desktop s = m.desktop) :
      Step m (.deferredWndProc t v message) ⟨{ m with user32 := s }, [], []⟩
  | read {t v : ℕ} {stored : Option ℕ}
      (hd : ∀ w, m.desktop.windows v = some w → stored = w.userData) :
      Step m (.deferredWndProc t v WM_RUN_DEFERRED) ⟨m, [.zero t v stored], []⟩
  | zeroed {t v : ℕ} {s : W.State} (stored : Option ℕ) (hs : ∀ w, m.desktop.windows v = some w →
      W.desktop s = m.desktop.put v { w with userData := none }) :
      Step m (.zero t v stored) ⟨{ m with user32 := s }, [.destroy t v stored], []⟩
  | gone {t v : ℕ} {s : W.State} (stored : Option ℕ)
      (hs : m.desktop.owns t v → W.desktop s = m.desktop.destroy v) :
      Step m (.destroy t v stored) ⟨{ m with user32 := s }, [.run t stored], []⟩
  | ran (t work : ℕ) : Step m (.run t (some work)) ⟨m.record (.ran work t), [.title t], []⟩
  | empty (t : ℕ) : Step m (.run t none) ⟨m, [], []⟩

theorem titleStep_inv (hW : W.Documented) {t : ℕ} (h : m.titleStep t x = some o) :
    Step m (.title t) o := by
  unfold Memory.titleStep at h
  split at h
  · obtain rfl := Option.some.inj h
    exact .runLater t
  · rename_i chance a
    obtain rfl := Option.some.inj h
    rcases hpost : W.postMessage chance m.user32 a with ⟨_ | _, s⟩
    · exact .unposted t (hW.unposted _ _ _ _ hpost)
    · exact .posted t (hW.posted _ _ _ _ hpost)
  · split at h
    · rename_i howns
      obtain rfl := Option.some.inj h
      exact .sent howns
    · cases h
  · obtain ⟨s, htake, rfl⟩ := Option.map_eq_some_iff.mp h
    obtain ⟨howns, hs⟩ := hW.taken _ _ _ _ htake
    exact .dispatched howns hs
  · obtain ⟨s, htake, rfl⟩ := Option.map_eq_some_iff.mp h
    exact .discarded t (hW.taken _ _ _ _ htake).2
  · split at h
    · rename_i howns
      obtain rfl := Option.some.inj h
      exact .destroyed howns (hW.destroyed _ _ _ howns)
    · cases h
  · obtain rfl := Option.some.inj h
    exact .thread t
  · obtain rfl := Option.some.inj h
    exact .done t
  · cases h

theorem endingStep_inv (hW : W.Documented) {t : ℕ} (h : m.endingStep t x = some o) :
    Step m (.ending t) o := by
  unfold Memory.endingStep at h
  split at h
  · split at h
    · rename_i howns
      obtain rfl := Option.some.inj h
      exact .cleared howns (hW.destroyed _ _ _ howns)
    · cases h
  · split at h
    · rename_i hnone
      obtain rfl := Option.some.inj h
      exact .ended hnone
    · cases h
  · cases h

/-- The default procedure leaves the window, or destroys it. -/
theorem defWindowProc_inv (hW : W.Documented) {t : ℕ} {a : Message} (ha : a.message ≠ WM_RUN_DEFERRED) :
    Step m (.deferredWndProc t a.window a.message) ⟨m.defWindowProc a, [], []⟩ := by
  unfold Memory.defWindowProc
  split
  · rename_i hthere
    refine .ignored ha fun howns => (hW.defaulted _ _ _ howns).resolve_right fun hgone => ?_
    rw [hgone, Desktop.destroy_self] at hthere
    cases hthere
  · rename_i hthere
    refine .closed fun howns => (hW.defaulted _ _ _ howns).resolve_left fun hsame => ?_
    obtain ⟨w, hw, -⟩ := Desktop.owns_iff.mp howns
    have hw : (W.desktop m.user32).windows a.window = some w := hw
    rw [hsame, hw] at hthere
    exact hthere rfl

theorem step_inv (hW : W.Documented) (h : m.step f x = some o) : Step m f o := by
  unfold Memory.step at h
  split at h
  · exact titleStep_inv hW h
  · exact endingStep_inv hW h
  · split at h
    · rename_i hcreate
      obtain rfl := Option.some.inj h
      obtain ⟨hnew, hs⟩ := hW.created _ _ _ _ _ hcreate
      exact .created _ hnew hs
    · rename_i hcreate
      obtain rfl := Option.some.inj h
      exact .refused _ _ (hW.refused _ _ _ _ hcreate)
  · obtain rfl := Option.some.inj h
    exact .stored fun w hw => hW.set _ _ w _ hw
  · split at h
    · rename_i hpost
      obtain rfl := Option.some.inj h
      exact .queued (hW.posted _ _ _ _ hpost)
    · rename_i hpost
      obtain rfl := Option.some.inj h
      exact .unqueued _ _ _ (hW.unposted _ _ _ _ hpost)
  · obtain rfl := Option.some.inj h
    exact .abandoned (hW.destroyed _ _ _)
  · obtain rfl := Option.some.inj h
    exact .dropped _ _
  · obtain rfl := Option.some.inj h
    exact .returned _ _ _
  · split at h
    · rename_i hother
      obtain rfl := Option.some.inj h
      exact defWindowProc_inv (a := ⟨_, _⟩) hW hother
    · rename_i hrun
      obtain rfl := Option.some.inj h
      obtain rfl := not_not.mp hrun
      exact .read fun w hw => hW.get _ _ w hw
  · obtain rfl := Option.some.inj h
    exact .zeroed _ fun w hw => hW.set _ _ w _ hw
  · obtain rfl := Option.some.inj h
    exact .gone _ (hW.destroyed _ _ _)
  · obtain rfl := Option.some.inj h
    exact .ran _ _
  · obtain rfl := Option.some.inj h
    exact .empty _
  · cases h

theorem Step.named (h : Step m f o) : NamedStep Code.thread Code.IsOuter Memory.threads m f o := by
  have hquiet : ∀ {o : Outcome (Memory W) Code}, (∀ g ∈ o.push, g.thread = f.thread) →
      (∀ g ∈ o.push.tail, g.IsOuter) → o.shared.threads = m.threads → o.spawn = [] →
      NamedStep Code.thread Code.IsOuter Memory.threads m f o := by
    intro o hthread hwaits hcount hspawn
    refine ⟨hthread, hwaits, ?_, fun j k hk => ?_⟩
    · rw [hcount, hspawn]
      rfl
    · rw [hspawn] at hk
      cases hk
  cases h with
  | thread t =>
    refine ⟨?_, ?_, rfl, fun j k hk => ?_⟩
    · simp [Code.thread]
    · simp
    · cases j with
      | zero =>
        obtain rfl := Option.some.inj hk
        simp [Code.thread, Code.IsOuter]
      | succ j => cases hk
  | _ => exact hquiet (by simp [Code.thread]) (by simp [Code.IsOuter]) rfl rfl

end Step

/-! ## Windows and their threads -/

section Windows
variable {W : WindowManager} {m : Memory W} {f : Code} {o : Outcome (Memory W) Code}
  {G : Guard (Memory W) Code (Choice W)} {c : Config (Memory W) Code}

theorem named_invariant (hW : W.Documented) (h : (machine W).Reaches G (start W) c) :
    Named Code.thread Code.IsOuter Memory.threads c := by
  refine h.named ⟨rfl, fun i k hk f hf => ?_, fun k hk f hf => ?_⟩
    fun _ _ _ _ hs => (step_inv hW hs).named
  · cases i with
    | zero =>
      obtain rfl := Option.some.inj hk
      rcases List.mem_pair.mp hf with rfl | rfl <;> rfl
    | succ i => cases hk
  · obtain rfl := List.mem_singleton.mp hk
    obtain rfl := List.mem_singleton.mp hf
    trivial

theorem apart_invariant (hW : W.Documented) (h : (machine W).Reaches G (start W) c) {i : ℕ}
    (ht : c.top i = some f) : ∀ g ∈ c.others i, ¬g.IsOuter → g.thread ≠ f.thread :=
  (named_invariant hW h).apart ht

/-- What a thread knows of the window that it is busy with. -/
def Code.Sees (d : Desktop) : Code → Prop
  | .store t v _ | .destroy t v _ => d.windows v = some ⟨t, none⟩
  | .post t v work | .abandon t v work => d.windows v = some ⟨t, some work⟩
  | .deferredWndProc t v _ => d.owns t v
  | .zero t v stored => d.windows v = some ⟨t, stored⟩
  | _ => True

theorem Code.Sees.keep {d d' : Desktop} (h : f.Sees d)
    (hkeep : ∀ v w, d.windows v = some w → w.owner = f.thread → d'.windows v = some w) :
    f.Sees d' := by
  cases f with
  | deferredWndProc t v message =>
    obtain ⟨w, hw, ho⟩ := Desktop.owns_iff.mp h
    exact Desktop.owns_iff.mpr ⟨w, hkeep v w hw ho, ho⟩
  | store | post | abandon | zero | destroy => exact hkeep _ _ h rfl
  | _ => trivial

theorem owns_of_windows {d : Desktop} {t v : ℕ} {data : Option ℕ} (h : d.windows v = some ⟨t, data⟩) :
    d.owns t v = true := Desktop.owns_iff.mpr ⟨_, h, rfl⟩

theorem owner_of_owns {d : Desktop} {t v : ℕ} {w : Window} (h : d.owns t v)
    (hw : d.windows v = some w) : w.owner = t := by
  obtain ⟨w', hw', ho⟩ := Desktop.owns_iff.mp h
  obtain rfl := Option.some.inj (hw.symm.trans hw')
  exact ho

/-- A window is what it was, or it is the thread's own. -/
def Leaves (t : ℕ) (before after : Option Window) : Prop :=
  after = before ∨ ∀ w, before = some w ∨ after = some w → w.owner = t

section Leaves
variable {d d' : Desktop} {t v' : ℕ}

theorem leaves_put {w' : Window} (hs : d' = d.put v' w')
    (hold : ∀ w, d.windows v' = some w → w.owner = t) (hnew : w'.owner = t) (v : ℕ) :
    Leaves t (d.windows v) (d'.windows v) := by
  rw [hs]
  by_cases he : v = v'
  · subst he
    refine .inr fun w hw => hw.elim (hold w) fun hw => ?_
    obtain rfl := Option.some.inj ((Desktop.put_self v w').symm.trans hw)
    exact hnew
  · exact .inl (Desktop.put_other he)

theorem leaves_destroy (hs : d' = d.destroy v') (hown : d.owns t v') (v : ℕ) :
    Leaves t (d.windows v) (d'.windows v) := by
  rw [hs]
  by_cases he : v = v'
  · subst he
    refine .inr fun w hw => hw.elim (owner_of_owns hown) fun hw => ?_
    cases Desktop.destroy_self.symm.trans hw
  · exact .inl (Desktop.destroy_other he)

end Leaves

/-- A step leaves the windows of other threads as they are. -/
theorem Step.leaves (h : Step m f o) (hf : f.Sees m.desktop) (v : ℕ) :
    Leaves f.thread (m.desktop.windows v) (o.shared.desktop.windows v) := by
  cases h with
  | posted t hs => exact .inl (Desktop.windows_eq hs v)
  | unposted t hs => exact .inl (Desktop.windows_eq hs v)
  | dispatched howns hs => exact .inl (Desktop.windows_eq hs v)
  | discarded t hs => exact .inl (Desktop.windows_eq hs v)
  | refused t work hs => exact .inl (Desktop.windows_eq hs v)
  | queued hs => exact .inl (Desktop.windows_eq hs v)
  | unqueued t v' work hs => exact .inl (Desktop.windows_eq hs v)
  | ignored hmessage hs => exact .inl (Desktop.windows_eq (hs hf) v)
  | created work hnew hs => exact leaves_put hs (fun w hw => by cases hnew.symm.trans hw) rfl v
  | stored hs => exact leaves_put (hs _ hf) (fun w hw => owner_of_owns (owns_of_windows hf) hw) rfl v
  | zeroed stored hs =>
    exact leaves_put (hs _ hf) (fun w hw => owner_of_owns (owns_of_windows hf) hw) rfl v
  | destroyed howns hs => exact leaves_destroy hs howns v
  | cleared howns hs => exact leaves_destroy hs howns v
  | abandoned hs => exact leaves_destroy (hs (owns_of_windows hf)) (owns_of_windows hf) v
  | gone stored hs => exact leaves_destroy (hs (owns_of_windows hf)) (owns_of_windows hf) v
  | closed hs => exact leaves_destroy (hs hf) hf v
  | _ => exact .inl rfl

theorem Step.keeps (h : Step m f o) (hf : f.Sees m.desktop) {v : ℕ} {w : Window}
    (hw : m.desktop.windows v = some w) (hne : w.owner ≠ f.thread) :
    o.shared.desktop.windows v = some w := by
  rcases h.leaves hf v with hsame | hown
  · exact hsame.trans hw
  · exact absurd (hown w (.inl hw)) hne

/-- A thread makes no windows for others. -/
theorem Step.makes (h : Step m f o) (hf : f.Sees m.desktop) {v : ℕ} {w : Window}
    (hw : o.shared.desktop.windows v = some w) (hne : w.owner ≠ f.thread) :
    m.desktop.windows v = some w := by
  rcases h.leaves hf v with hsame | hown
  · exact hsame.symm.trans hw
  · exact absurd (hown w (.inr hw)) hne

theorem Step.sees (h : Step m f o) (hf : f.Sees m.desktop) :
    ∀ g ∈ o.frames, g.Sees o.shared.desktop := by
  cases h with
  | sent howns =>
    refine forall_frames.mpr ⟨fun g hg => ?_, fun _ hk => absurd hk List.not_mem_nil⟩
    rcases List.mem_pair.mp hg with rfl | rfl
    · exact howns
    · trivial
  | @dispatched t a s howns hs =>
    refine forall_frames.mpr ⟨fun g hg => ?_, fun _ hk => absurd hk List.not_mem_nil⟩
    rcases List.mem_pair.mp hg with rfl | rfl
    · show (W.desktop s).owns t a.window = true
      rw [hs]
      exact howns
    · trivial
  | created work hnew hs =>
    intro g hg
    obtain rfl := Multiset.mem_singleton.mp hg
    exact (Desktop.windows_eq hs _).trans (Desktop.put_self _ _)
  | stored hs =>
    intro g hg
    obtain rfl := Multiset.mem_singleton.mp hg
    exact (Desktop.windows_eq (hs _ hf) _).trans (Desktop.put_self _ _)
  | unqueued t v work hs =>
    intro g hg
    obtain rfl := Multiset.mem_singleton.mp hg
    exact (Desktop.windows_eq hs _).trans hf
  | @read t v stored hd =>
    intro g hg
    obtain rfl := Multiset.mem_singleton.mp hg
    obtain ⟨⟨owner, data⟩, hw, ho⟩ := Desktop.owns_iff.mp hf
    obtain rfl : owner = t := ho
    exact hw.trans (by rw [hd _ hw])
  | zeroed stored hs =>
    intro g hg
    obtain rfl := Multiset.mem_singleton.mp hg
    exact (Desktop.windows_eq (hs _ hf) _).trans (Desktop.put_self _ _)
  | _ => simp [forall_frames, Code.Sees]

theorem sees_invariant (hW : W.Documented) (h : (machine W).Reaches G (start W) c) :
    ∀ f ∈ c.frames, f.Sees c.shared.desktop := by
  refine h.invariant_top (I := fun m fs => ∀ f ∈ fs, f.Sees m.desktop)
    (J := fun _ f R => ∀ g ∈ R, ¬g.IsOuter → g.thread ≠ f.thread)
    (fun c i f hc ht => apart_invariant hW hc ht) ?_ ?_
  · intro f hf
    rcases List.mem_pair.mp hf with rfl | rfl <;> trivial
  · intro m f R x o _ hapart hi hs
    obtain ⟨hf, hR⟩ := Multiset.forall_mem_cons.mp hi
    intro g hg
    rcases Multiset.mem_add.mp hg with hg | hg
    · exact (step_inv hW hs).sees hf g hg
    · cases g with
      | title t => trivial
      | ending t => trivial
      | _ =>
        refine (hR _ hg).keep fun v w hw ho => (step_inv hW hs).keeps hf hw ?_
        rw [ho]
        exact hapart _ hg id

/-! ## Threads that are over -/

/-- A thread has still to end, or it has left no windows. -/
def Seat (d : Desktop) (t : ℕ) (k : List Code) : Prop :=
  k.getLast? = some (.ending t) ∨ k = [] ∧ ∀ v w, d.windows v = some w → w.owner ≠ t

/-- The frame at the bottom stays until the thread has no windows. -/
theorem Step.seat (h : Step m f o) {t : ℕ} {k : List Code} (hs : Seat m.desktop t (f :: k)) :
    Seat o.shared.desktop t (o.push ++ k) := by
  rcases hs with hlast | ⟨hnil, -⟩
  · cases k with
    | nil =>
      obtain rfl := Option.some.inj hlast
      cases h with
      | cleared howns hs => exact .inl rfl
      | ended hnone => exact .inr ⟨rfl, fun v w hw => Desktop.ne_owner hnone hw⟩
    | cons g k =>
      rw [List.getLast?_cons_cons] at hlast
      refine .inl ?_
      rw [List.getLast?_append, hlast]
      rfl
  · cases hnil

theorem Step.spawned (h : Step m f o) {j : ℕ} {k : List Code} (hk : o.spawn[j]? = some k) :
    j = 0 ∧ k = [.title m.threads, .ending m.threads] := by
  cases h with
  | thread t =>
    cases j with
    | zero => exact ⟨rfl, (Option.some.inj hk).symm⟩
    | succ j => cases hk
  | _ => cases hk

theorem seat_invariant (hW : W.Documented) (h : (machine W).Reaches G (start W) c) :
    ∀ (t : ℕ) (k : List Code), c.threads[t]? = some k → Seat c.shared.desktop t k := by
  induction h with
  | refl =>
    intro t k hk
    cases t with
    | zero =>
      obtain rfl := Option.some.inj hk
      exact .inl rfl
    | succ t => cases hk
  | @tail c c' hreach hf ih =>
    obtain ⟨i, x, -, hfire⟩ := hf
    obtain ⟨f, k, o, hk, ho, rfl⟩ := fire_cases hfire
    have hstep := step_inv hW ho
    have hnamed := named_invariant hW hreach
    have hi : i < c.threads.length := (List.getElem?_eq_some_iff.mp hk).1
    have hthread : f.thread = i := hnamed.own i _ hk f List.mem_cons_self
    have hsees : f.Sees c.shared.desktop := by
      refine sees_invariant hW hreach f ?_
      rw [frames_eq (top_eq hk)]
      exact Multiset.mem_cons_self f _
    intro t l hl
    by_cases ht : t < c.threads.length
    · rw [List.getElem?_append_left (by rwa [List.length_set])] at hl
      by_cases hti : i = t
      · subst hti
        rw [List.getElem?_set_self hi, Option.some.injEq] at hl
        exact hl ▸ hstep.seat (ih i _ hk)
      · rw [List.getElem?_set_ne hti] at hl
        refine (ih t l hl).imp_right fun ⟨hnil, hnone⟩ => ⟨hnil, fun v w hw howner => ?_⟩
        exact hnone v w (hstep.makes hsees hw (by omega)) howner
    · rw [List.getElem?_append_right (by rw [List.length_set]; omega), List.length_set] at hl
      obtain ⟨hj, rfl⟩ := hstep.spawned hl
      refine .inl ?_
      rw [hnamed.all, show c.threads.length = t by omega]
      rfl

/-- A thread that is over has left no windows. -/
theorem no_windows_left (hW : W.Documented) (h : (machine W).Reaches G (start W) c) {t v : ℕ}
    {w : Window} (ht : c.threads[t]? = some []) (hw : c.shared.desktop.windows v = some w) :
    w.owner ≠ t := by
  rcases seat_invariant hW h t [] ht with hlast | ⟨-, hnone⟩
  · cases hlast
  · exact hnone v w hw

end Windows

end XGameRuntime.Pickers.Deferred
