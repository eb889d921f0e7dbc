import Mathlib.Data.Finmap
import Mathlib.Data.Multiset.Count
import Mathlib.Data.Multiset.Filter
import Mathlib.Order.Lattice.Nat

/-! # Windows that only take messages

A window belongs to the thread that has created it and keeps one pointer for its procedure. Messages are
posted to it by anyone and taken by its own thread; a window that is destroyed takes with it those that
nobody has taken. The manager of the windows is whatever answers the calls; what is documented of the
calls is what they do to the windows that can be seen.
-/

namespace XGameRuntime.Concurrency
set_option autoImplicit false

structure Window where
  owner : ℕ
  /-- Nothing is the null pointer. -/
  userData : Option ℕ := none
  deriving DecidableEq, Repr

structure Message where
  window : ℕ
  message : ℕ
  deriving DecidableEq, Repr

/-- The windows of one class, and the messages that nobody has taken. -/
structure Desktop where
  table : Finmap fun _ : ℕ => Window := ∅
  posted : Multiset Message := 0

namespace Desktop
variable (d : Desktop) {d' : Desktop} {v v' p : ℕ} {w w' : Window} {a b : Message}

def windows (v : ℕ) : Option Window := d.table.lookup v

/-- The window is there from now on, or is another. -/
def put (v : ℕ) (w : Window) : Desktop := { d with table := d.table.insert v w }

def post (a : Message) : Desktop := { d with posted := a ::ₘ d.posted }

def take (a : Message) : Desktop := { d with posted := d.posted.erase a }

def destroy (v : ℕ) : Desktop where
  table := d.table.erase v
  posted := d.posted.filter fun a => a.window ≠ v

/-- A window that is not there has no pointer. -/
def getUserData (v : ℕ) : Option ℕ := (d.windows v).bind Window.userData

def owns (thread v : ℕ) : Bool := (d.windows v).any fun w => w.owner == thread

def hasNoWindows (thread : ℕ) : Prop := ∀ e ∈ d.table.entries, e.2.owner ≠ thread

instance (thread : ℕ) : Decidable (d.hasNoWindows thread) :=
  inferInstanceAs (Decidable (∀ e ∈ d.table.entries, e.2.owner ≠ thread))

variable {d}

theorem windows_empty (v : ℕ) : ({} : Desktop).windows v = none := Finmap.lookup_empty v

theorem owns_iff {thread : ℕ} :
    d.owns thread v = true ↔ ∃ w, d.windows v = some w ∧ w.owner = thread := by
  rw [owns, Option.any_eq_true]
  exact exists_congr fun w => and_congr_right fun _ => beq_iff_eq

theorem mem_entries : (⟨v, w⟩ : Sigma fun _ : ℕ => Window) ∈ d.table.entries ↔ d.windows v = some w :=
  Finmap.lookup_eq_some_iff.symm

theorem ne_owner {thread : ℕ} (h : d.hasNoWindows thread) (hw : d.windows v = some w) :
    w.owner ≠ thread := h _ (mem_entries.mpr hw)

/-! ## What a window is after each of them -/

theorem windows_eq (h : d' = d) (v : ℕ) : d'.windows v = d.windows v := congrArg (Desktop.windows · v) h

theorem mem_posted (h : d' = d) (hin : a ∈ d.posted) : a ∈ d'.posted := h ▸ hin

theorem put_self (v : ℕ) (w : Window) : (d.put v w).windows v = some w := Finmap.lookup_insert _

theorem put_other (h : v' ≠ v) : (d.put v w).windows v' = d.windows v' := Finmap.lookup_insert_of_ne _ h

theorem put_cases (h : (d.put v w).windows v' = some w') :
    v' = v ∧ w' = w ∨ d.windows v' = some w' := by
  by_cases he : v' = v
  · subst he
    rw [put_self, Option.some.injEq] at h
    exact .inl ⟨rfl, h.symm⟩
  · exact .inr ((put_other he).symm.trans h)

theorem destroy_self : (d.destroy v).windows v = none := Finmap.lookup_erase ..

theorem destroy_other (h : v' ≠ v) : (d.destroy v).windows v' = d.windows v' := Finmap.lookup_erase_ne h

theorem destroy_cases (h : (d.destroy v).windows v' = some w) : v' ≠ v ∧ d.windows v' = some w := by
  have hne : v' ≠ v := by
    rintro rfl
    rw [destroy_self] at h
    cases h
  exact ⟨hne, (destroy_other hne).symm.trans h⟩

theorem mem_destroy (h : a ∈ d.posted) (hne : a.window ≠ v) : a ∈ (d.destroy v).posted :=
  Multiset.mem_filter.mpr ⟨h, hne⟩

theorem mem_take (h : b ∈ d.posted) : b = a ∨ b ∈ (d.take a).posted := by
  by_cases he : b = a
  · exact .inl he
  · exact .inr ((Multiset.mem_erase_of_ne he).mpr h)

/-! ## How often a pointer is kept -/

variable (d) in
/-- How many windows keep the pointer. -/
def stores (p : ℕ) : ℕ := d.table.entries.countP fun e => e.2.userData = some p

@[simp] theorem stores_post : (d.post a).stores p = d.stores p := rfl

@[simp] theorem stores_take : (d.take a).stores p = d.stores p := rfl

/-- A table is one of its windows and the others. -/
theorem insert_erase {t : Finmap fun _ : ℕ => Window} (h : t.lookup v = some w) :
    (t.erase v).insert v w = t := by
  refine Finmap.ext_lookup fun i => ?_
  by_cases he : i = v
  · subst he
    rw [Finmap.lookup_insert, h]
  · rw [Finmap.lookup_insert_of_ne _ he, Finmap.lookup_erase_ne he]

theorem stores_put (h : v ∉ d.table) :
    (d.put v w).stores p = d.stores p + if w.userData = some p then 1 else 0 := by
  unfold stores
  rw [put, Finmap.entries_insert_of_notMem h, Multiset.countP_cons]

theorem stores_create (h : d.windows v = none) (owner : ℕ) :
    (d.put v { owner := owner }).stores p = d.stores p :=
  stores_put (Finmap.lookup_eq_none.mp h)

theorem stores_destroy (h : d.windows v = some w) :
    (d.destroy v).stores p + (if w.userData = some p then 1 else 0) = d.stores p := by
  have hput := stores_put (d := d.destroy v) (w := w) (p := p) Finmap.notMem_erase_self
  rw [← hput, put, destroy, insert_erase h]
  rfl

theorem stores_set (h : d.windows v = some w) (w' : Window) :
    (d.put v w').stores p + (if w.userData = some p then 1 else 0) =
      d.stores p + if w'.userData = some p then 1 else 0 := by
  have hput := stores_put (d := d.destroy v) (w := w') (p := p) Finmap.notMem_erase_self
  have hdestroy := stores_destroy (p := p) h
  have heq : ((d.destroy v).put v w').stores p = (d.put v w').stores p := by
    have htable : ((d.table.erase v).insert v w).insert v w' = (d.table.erase v).insert v w' :=
      Finmap.insert_insert _
    rw [insert_erase h] at htable
    unfold stores put destroy
    rw [htable]
  omega

theorem stores_pos : 0 < d.stores p ↔ ∃ v w, d.windows v = some w ∧ w.userData = some p := by
  rw [stores, Multiset.countP_pos]
  constructor
  · rintro ⟨⟨v, w⟩, hin, hp⟩
    exact ⟨v, w, mem_entries.mp hin, hp⟩
  · rintro ⟨v, w, hw, hp⟩
    exact ⟨⟨v, w⟩, mem_entries.mpr hw, hp⟩

end Desktop

/-! ## Who answers the calls -/

/-- What a call comes to may depend on more than the windows, on the memory that is left, say: that is
its `Chance`. -/
structure WindowManager where
  State : Type
  Chance : Type
  start : State
  desktop : State → Desktop
  createWindowEx : Chance → State → (thread : ℕ) → Option ℕ × State
  setWindowLongPtr : State → (window : ℕ) → Option ℕ → State
  getWindowLongPtr : State → (window : ℕ) → Option ℕ
  postMessage : Chance → State → Message → Bool × State
  /-- A thread takes the message, when it is there for it. -/
  peekMessage : State → (thread : ℕ) → Message → Option State
  defWindowProc : State → Message → State
  destroyWindow : State → (thread window : ℕ) → State

/-- What is documented of the calls. A window is created and destroyed by its own thread, and keeps what
has been put there; the default procedure may destroy it, as it does when told to close the window. -/
structure WindowManager.Documented (W : WindowManager) : Prop where
  start : W.desktop W.start = {}
  created : ∀ x s s' (t v : ℕ), W.createWindowEx x s t = (some v, s') →
    (W.desktop s).windows v = none ∧ W.desktop s' = (W.desktop s).put v { owner := t }
  refused : ∀ x s s' (t : ℕ), W.createWindowEx x s t = (none, s') → W.desktop s' = W.desktop s
  set : ∀ s v w data, (W.desktop s).windows v = some w →
    W.desktop (W.setWindowLongPtr s v data) = (W.desktop s).put v { w with userData := data }
  get : ∀ s v w, (W.desktop s).windows v = some w → W.getWindowLongPtr s v = w.userData
  posted : ∀ x s s' a, W.postMessage x s a = (true, s') → W.desktop s' = (W.desktop s).post a
  unposted : ∀ x s s' a, W.postMessage x s a = (false, s') → W.desktop s' = W.desktop s
  taken : ∀ s s' (t : ℕ) a, W.peekMessage s t a = some s' →
    (W.desktop s).owns t a.window ∧ W.desktop s' = (W.desktop s).take a
  found : ∀ s (t : ℕ) a, (W.desktop s).owns t a.window → a ∈ (W.desktop s).posted →
    ∃ s', W.peekMessage s t a = some s'
  defaulted : ∀ s (t : ℕ) a, (W.desktop s).owns t a.window →
    W.desktop (W.defWindowProc s a) = W.desktop s ∨
      W.desktop (W.defWindowProc s a) = (W.desktop s).destroy a.window
  destroyed : ∀ s (t v : ℕ), (W.desktop s).owns t v →
    W.desktop (W.destroyWindow s t v) = (W.desktop s).destroy v

/-! ## Windows that are nothing but what can be seen -/

def WM_CLOSE : ℕ := 0x0010

namespace Desktop
variable (d : Desktop)

/-- No window is null. -/
def unused : ℕ := d.table.keys.sup id + 1

theorem windows_unused : d.windows d.unused = none := by
  refine Finmap.lookup_eq_none.mpr fun hin => ?_
  have hle := Finset.le_sup (f := id) (Finmap.mem_keys.mpr hin)
  exact absurd hle (Nat.not_le.mpr (Nat.lt_succ_self _))

/-- A manager that runs out of memory whenever it is told so. -/
def manager : WindowManager where
  State := Desktop
  Chance := Bool
  start := {}
  desktop := id
  createWindowEx enough d thread :=
    if enough then (some d.unused, d.put d.unused { owner := thread }) else (none, d)
  setWindowLongPtr d v data :=
    match d.windows v with
    | some w => d.put v { w with userData := data }
    | none => d
  getWindowLongPtr := getUserData
  postMessage enough d a :=
    if enough && (d.windows a.window).isSome then (true, d.post a) else (false, d)
  peekMessage d thread a := if d.owns thread a.window ∧ a ∈ d.posted then some (d.take a) else none
  defWindowProc d a := if a.message = WM_CLOSE then d.destroy a.window else d
  destroyWindow d thread v := if d.owns thread v then d.destroy v else d

theorem documented : manager.Documented where
  start := rfl
  created enough d d' t v h := by
    cases enough with
    | true =>
      cases h
      exact ⟨windows_unused d, rfl⟩
    | false => cases h
  refused enough d d' t h := by
    cases enough with
    | true => cases h
    | false =>
      cases h
      rfl
  set d v w data hw := by
    show (match d.windows v with
      | some w => d.put v { w with userData := data }
      | none => d) = _
    rw [show d.windows v = some w from hw]
    rfl
  get d v w hw := by
    show (d.windows v).bind Window.userData = _
    rw [show d.windows v = some w from hw]
    rfl
  posted enough d d' a h := by
    have h : (if enough && (d.windows a.window).isSome then (true, d.post a) else (false, d)) =
        (true, d') := h
    split at h
    · cases h
      rfl
    · cases h
  unposted enough d d' a h := by
    have h : (if enough && (d.windows a.window).isSome then (true, d.post a) else (false, d)) =
        (false, d') := h
    split at h
    · cases h
    · cases h
      rfl
  taken d d' t a h := by
    obtain ⟨⟨howns, -⟩, htake⟩ := Option.ite_none_right_eq_some.mp h
    exact ⟨howns, (Option.some.inj htake).symm⟩
  found d t a howns hin := ⟨d.take a, if_pos ⟨howns, hin⟩⟩
  defaulted d t a _ := by
    by_cases hclose : a.message = WM_CLOSE
    · exact .inr (if_pos hclose)
    · exact .inl (if_neg hclose)
  destroyed d t v howns := if_pos howns

end Desktop

end XGameRuntime.Concurrency
