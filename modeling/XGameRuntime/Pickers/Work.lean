import XGameRuntime.Concurrency.Traces
import XGameRuntime.Pickers.Deferred

/-! # What becomes of deferred work

The pointer to a piece of work is counted wherever it is kept: by a thread, by a window, or no more. The
three add up to one for each piece that has been boxed, so nobody has a pointer to work that is gone.
-/

namespace XGameRuntime.Pickers.Deferred
open Concurrency
set_option autoImplicit false

/-! ## Who has the work -/

/-- The box is gone, or nobody has its pointer any more. -/
def Event.ends (work : ℕ) : Event → Bool
  | .ran p _ | .dropped p _ | .lost p => decide (p = work)
  | _ => false

def Event.tells (work : ℕ) : Event → Bool
  | .told p _ _ => decide (p = work)
  | _ => false

/-- The thread has the pointer, and no window has it. -/
def Code.holds (work : ℕ) : Code → ℕ
  | .create _ p | .store _ _ p | .drop _ p => if p = work then 1 else 0
  | .destroy _ _ stored | .run _ stored => if stored = some work then 1 else 0
  | _ => 0

/-- The thread is in `run_later` for the work. -/
def Code.calls (work : ℕ) : Code → ℕ
  | .create _ p | .store _ _ p | .post _ _ p | .abandon _ _ p | .drop _ p | .returning _ p _ =>
      if p = work then 1 else 0
  | _ => 0

def boxed (works work : ℕ) : ℕ := if work < works then 1 else 0

theorem boxed_succ (works work : ℕ) :
    boxed (works + 1) work = boxed works work + if works = work then 1 else 0 := by
  unfold boxed
  split_ifs <;> omega

section Counts
variable {W : WindowManager} {m : Memory W} {f : Code} {o : Outcome (Memory W) Code}
  {c : Config (Memory W) Code}

theorem lost_ends {v work : ℕ} {w : Window} (s : W.State) (h : m.desktop.windows v = some w) :
    (m.lose v s).log.countP (Event.ends work) =
      m.log.countP (Event.ends work) + if w.userData = some work then 1 else 0 := by
  rw [Memory.lose, List.countP_append, Desktop.getUserData, h, Nat.add_comm]
  obtain ⟨owner, data⟩ := w
  cases data with
  | none => rfl
  | some p => simp [Event.ends, List.countP_cons]

theorem lost_tells (v work : ℕ) (s : W.State) :
    (m.lose v s).log.countP (Event.tells work) = m.log.countP (Event.tells work) := by
  rw [Memory.lose, List.countP_append]
  cases m.desktop.getUserData v with
  | none => exact Nat.zero_add _
  | some p => exact Nat.zero_add _

/-- Where the pointers are, in a memory and a pool of threads. -/
def held (work : ℕ) (m : Memory W) (fs : Multiset Code) : ℕ :=
  weight (Code.holds work) fs + m.desktop.stores work + m.log.countP (Event.ends work)

/-- Work in a window that others destroy is lost, and nowhere else. -/
theorem lost_stores (work : ℕ) {t v : ℕ} {s : W.State} (h : m.desktop.owns t v)
    (hs : W.desktop s = m.desktop.destroy v) :
    (m.lose v s).desktop.stores work + (m.lose v s).log.countP (Event.ends work) =
      m.desktop.stores work + m.log.countP (Event.ends work) := by
  obtain ⟨w, hw, -⟩ := Desktop.owns_iff.mp h
  have hstores := Desktop.stores_destroy (p := work) hw
  rw [lost_ends s hw, show (m.lose v s).desktop = m.desktop.destroy v from hs]
  omega

theorem Step.held (h : Step m f o) (hf : f.Sees m.desktop) {R : Multiset Code} {work : ℕ}
    (hi : held work m (f ::ₘ R) = boxed m.works work) :
    held work o.shared (o.frames + R) = boxed o.shared.works work := by
  unfold Deferred.held at hi ⊢
  rw [weight_cons] at hi
  rw [weight_add, weight_frames]
  cases h with
  | runLater t =>
    simp [Code.holds, Memory.desktop, boxed_succ] at hi ⊢
    omega
  | posted t hs =>
    simp [Code.holds, Memory.desktop, hs] at hi ⊢
    omega
  | unposted t hs =>
    simp [Code.holds, Memory.desktop, hs] at hi ⊢
    omega
  | dispatched howns hs =>
    simp [Code.holds, Memory.desktop, hs] at hi ⊢
    omega
  | discarded t hs =>
    simp [Code.holds, Memory.desktop, Memory.record, Event.ends, hs] at hi ⊢
    omega
  | refused t p hs =>
    simp [Code.holds, Memory.desktop, hs] at hi ⊢
    omega
  | queued hs =>
    simp [Code.holds, Memory.desktop, hs] at hi ⊢
    omega
  | unqueued t v p hs =>
    simp [Code.holds, Memory.desktop, hs] at hi ⊢
    omega
  | ignored hother hs =>
    simp [Code.holds, Memory.desktop, hs hf] at hi ⊢
    omega
  | destroyed howns hs =>
    have hlost := lost_stores work howns hs
    simp [Code.holds, Memory.lose] at hi hlost ⊢
    omega
  | cleared howns hs =>
    have hlost := lost_stores work howns hs
    simp [Code.holds, Memory.lose] at hi hlost ⊢
    omega
  | closed hs =>
    have hlost := lost_stores work hf (hs hf)
    simp [Code.holds, Memory.lose] at hi hlost ⊢
    omega
  | created p hnew hs =>
    have hstores : (W.desktop _).stores work = m.desktop.stores work :=
      (congrArg (Desktop.stores · work) hs).trans (Desktop.stores_create hnew _)
    simp [Code.holds, Memory.desktop] at hi hstores ⊢
    omega
  | @stored t v p s hs =>
    have hstores := Desktop.stores_set (p := work) hf { owner := t, userData := some p }
    simp [Code.holds, Memory.desktop, hs _ hf] at hi hstores ⊢
    omega
  | @zeroed t v s stored hs =>
    have hstores := Desktop.stores_set (p := work) hf { owner := t, userData := none }
    simp [Code.holds, Memory.desktop, hs _ hf] at hi hstores ⊢
    omega
  | abandoned hs =>
    have hstores := Desktop.stores_destroy (p := work) hf
    simp [Code.holds, Memory.desktop, hs (owns_of_windows hf)] at hi hstores ⊢
    omega
  | gone stored hs =>
    have hstores := Desktop.stores_destroy (p := work) hf
    simp [Code.holds, Memory.desktop, hs (owns_of_windows hf)] at hi hstores ⊢
    omega
  | _ =>
    simp [Code.holds, Memory.desktop, Memory.record, Event.ends, List.countP_cons] at hi ⊢
    omega

/-- Work that has been boxed is in one place, or it has ended once. -/
theorem held_invariant (hW : W.Documented) (h : (machine W).Reaches anyStep (start W) c) (work : ℕ) :
    held work c.shared c.frames = boxed c.shared.works work := by
  refine h.invariant (I := fun m fs => held work m fs = boxed m.works work)
    (J := fun m fs => ∀ f ∈ fs, f.Sees m.desktop) (fun _ hc => sees_invariant hW hc) ?_ ?_
  · show 0 + (W.desktop W.start).stores work + 0 = _
    rw [hW.start]
    rfl
  · intro m f R x o _ hJ hi hs
    exact (step_inv hW hs).held (hJ f (Multiset.mem_cons_self f R)) hi

/-- `run_later` returns once for each piece of work. -/
theorem calls_invariant (hW : W.Documented) (h : (machine W).Reaches anyStep (start W) c) (work : ℕ) :
    weight (Code.calls work) c.frames + c.shared.log.countP (Event.tells work) =
      boxed c.shared.works work := by
  refine h.preserved (I := fun m fs => weight (Code.calls work) fs +
    m.log.countP (Event.tells work) = boxed m.works work) rfl ?_
  intro m f R x o _ hi hs
  rw [weight_cons] at hi
  rw [weight_add, weight_frames]
  cases step_inv hW hs with
  | runLater t =>
    simp [Code.calls, boxed_succ] at hi ⊢
    omega
  | destroyed howns hs =>
    rw [lost_tells]
    simp [Code.calls, Memory.lose] at hi ⊢
    omega
  | cleared howns hs =>
    rw [lost_tells]
    simp [Code.calls, Memory.lose] at hi ⊢
    omega
  | closed hs =>
    rw [lost_tells]
    simp [Code.calls, Memory.lose] at hi ⊢
    omega
  | _ =>
    simp [Code.calls, Memory.record, Event.tells, List.countP_cons] at hi ⊢
    omega

end Counts

/-! ## A window's work is known to be queued -/

/-- The pointer that the window's procedure carries. -/
def Code.carried : Code → Option ℕ
  | .zero _ _ stored | .destroy _ _ stored | .run _ stored => stored
  | _ => none

/-- The thread is in `run_later`, which has put the work into the window. -/
def Code.Queues (t v work : ℕ) : Code → Prop
  | .post t' v' p | .abandon t' v' p => t' = t ∧ v' = v ∧ p = work
  | .returning t' p true => t' = t ∧ p = work
  | _ => False

/-- Whoever finds work in a window, other than the `run_later` that has put it there, finds it after that
has returned. -/
structure Known {W : WindowManager} (m : Memory W) (fs : Multiset Code) : Prop where
  carried : ∀ f ∈ fs, ∀ work, f.carried = some work → .told work f.thread true ∈ m.log
  kept : ∀ (v t work : ℕ), m.desktop.windows v = some ⟨t, some work⟩ →
    .told work t true ∈ m.log ∨ ∃ f ∈ fs, f.Queues t v work

section Known
variable {W : WindowManager} {m : Memory W} {f : Code} {o : Outcome (Memory W) Code}
  {c : Config (Memory W) Code}

theorem Step.log (h : Step m f o) : m.log ⊆ o.shared.log := by
  cases h with
  | destroyed howns hs => exact List.subset_append_right _ _
  | cleared howns hs => exact List.subset_append_right _ _
  | closed hs => exact List.subset_append_right _ _
  | discarded t hs => exact List.subset_cons_self _ _
  | dropped t work => exact List.subset_cons_self _ _
  | returned t work posted => exact List.subset_cons_self _ _
  | ran t work => exact List.subset_cons_self _ _
  | _ => exact List.Subset.refl _

/-- A window that keeps work kept it before the step, or has just been given it. -/
theorem Step.kept (h : Step m f o) (hf : f.Sees m.desktop) {v t work : ℕ}
    (hw : o.shared.desktop.windows v = some ⟨t, some work⟩) :
    f = .store t v work ∧ .post t v work ∈ o.frames ∨
      m.desktop.windows v = some ⟨t, some work⟩ ∧ f ≠ .abandon t v work := by
  cases h with
  | posted t' hs => exact .inr ⟨(Desktop.windows_eq hs v).symm.trans hw, by simp⟩
  | queued hs => exact .inr ⟨(Desktop.windows_eq hs v).symm.trans hw, by simp⟩
  | dispatched howns hs => exact .inr ⟨(Desktop.windows_eq hs v).symm.trans hw, by simp⟩
  | discarded t' hs => exact .inr ⟨(Desktop.windows_eq hs v).symm.trans hw, by simp⟩
  | unposted t' hs => exact .inr ⟨(Desktop.windows_eq hs v).symm.trans hw, by simp⟩
  | refused t' p hs => exact .inr ⟨(Desktop.windows_eq hs v).symm.trans hw, by simp⟩
  | unqueued t' v' p hs => exact .inr ⟨(Desktop.windows_eq hs v).symm.trans hw, by simp⟩
  | ignored hother hs => exact .inr ⟨(Desktop.windows_eq (hs hf) v).symm.trans hw, by simp⟩
  | destroyed howns hs =>
    have hold := Desktop.destroy_cases ((Desktop.windows_eq hs v).symm.trans hw)
    exact .inr ⟨hold.2, by simp⟩
  | cleared howns hs =>
    have hold := Desktop.destroy_cases ((Desktop.windows_eq hs v).symm.trans hw)
    exact .inr ⟨hold.2, by simp⟩
  | closed hs =>
    have hold := Desktop.destroy_cases ((Desktop.windows_eq (hs hf) v).symm.trans hw)
    exact .inr ⟨hold.2, by simp⟩
  | gone stored hs =>
    have howns := owns_of_windows hf
    have hold := Desktop.destroy_cases ((Desktop.windows_eq (hs howns) v).symm.trans hw)
    exact .inr ⟨hold.2, by simp⟩
  | abandoned hs =>
    have howns := owns_of_windows hf
    have hold := Desktop.destroy_cases ((Desktop.windows_eq (hs howns) v).symm.trans hw)
    refine .inr ⟨hold.2, fun he => ?_⟩
    exact hold.1 (Code.abandon.inj he).2.1.symm
  | created p hnew hs =>
    rcases Desktop.put_cases ((Desktop.windows_eq hs v).symm.trans hw) with ⟨-, he⟩ | hold
    · cases he
    · exact .inr ⟨hold, by simp⟩
  | stored hs =>
    rcases Desktop.put_cases ((Desktop.windows_eq (hs _ hf) v).symm.trans hw) with ⟨rfl, he⟩ | hold
    · cases he
      exact .inl ⟨rfl, Multiset.mem_singleton_self _⟩
    · exact .inr ⟨hold, by simp⟩
  | zeroed stored hs =>
    rcases Desktop.put_cases ((Desktop.windows_eq (hs _ hf) v).symm.trans hw) with ⟨-, he⟩ | hold
    · cases he
    · exact .inr ⟨hold, by simp⟩
  | _ => exact .inr ⟨hw, by simp⟩

/-- `run_later` goes on with what it has put into the window, until it returns. -/
theorem Step.queues (h : Step m f o) {v t work : ℕ} (hq : f.Queues t v work)
    (hne : f ≠ .abandon t v work) :
    .told work t true ∈ o.shared.log ∨ ∃ g ∈ o.frames, g.Queues t v work := by
  cases h with
  | queued hd =>
    obtain ⟨rfl, rfl, rfl⟩ := hq
    exact .inr ⟨_, Multiset.mem_singleton_self _, rfl, rfl⟩
  | unqueued t' v' p hs => exact .inr ⟨_, Multiset.mem_singleton_self _, hq⟩
  | abandoned hs =>
    obtain ⟨rfl, rfl, rfl⟩ := hq
    exact absurd rfl hne
  | returned t' p posted =>
    cases posted with
    | true =>
      obtain ⟨rfl, rfl⟩ := hq
      exact .inl List.mem_cons_self
    | false => exact hq.elim
  | _ => exact hq.elim

theorem Code.Queues.busy {t v work : ℕ} (h : f.Queues t v work) : ¬f.IsOuter ∧ f.thread = t := by
  cases f with
  | post | abandon => exact ⟨id, h.1⟩
  | returning t' p posted =>
    cases posted with
    | true => exact ⟨id, h.1⟩
    | false => exact h.elim
  | _ => exact h.elim

/-- What the procedure reads out of its window is known to be queued. -/
theorem Known.read {R : Multiset Code} {t v message work : ℕ}
    (h : Known m (.deferredWndProc t v message ::ₘ R)) (hapart : ∀ g ∈ R, ¬g.IsOuter → g.thread ≠ t)
    (hw : m.desktop.windows v = some ⟨t, some work⟩) : .told work t true ∈ m.log := by
  refine (h.kept v t work hw).resolve_right ?_
  rintro ⟨g, hg, hq⟩
  rcases Multiset.mem_cons.mp hg with rfl | hg
  · exact hq
  · exact hapart g hg hq.busy.1 hq.busy.2

theorem Step.carried (h : Step m f o) {R : Multiset Code} (hf : f.Sees m.desktop)
    (hapart : ∀ g ∈ R, ¬g.IsOuter → g.thread ≠ f.thread) (hk : Known m (f ::ₘ R)) :
    ∀ g ∈ o.frames, ∀ work, g.carried = some work → .told work g.thread true ∈ m.log := by
  cases h with
  | read hd =>
    intro g hg work hwork
    obtain rfl := Multiset.mem_singleton.mp hg
    obtain ⟨⟨owner, data⟩, hw, ho⟩ := Desktop.owns_iff.mp hf
    obtain rfl : owner = _ := ho
    obtain rfl : data = some work := (hd _ hw).symm.trans hwork
    exact hk.read hapart hw
  | zeroed stored hs =>
    intro g hg work hwork
    obtain rfl := Multiset.mem_singleton.mp hg
    exact hk.carried _ (Multiset.mem_cons_self _ R) work hwork
  | gone stored hs =>
    intro g hg work hwork
    obtain rfl := Multiset.mem_singleton.mp hg
    exact hk.carried _ (Multiset.mem_cons_self _ R) work hwork
  | _ => simp [forall_frames, Code.carried]

theorem no_windows (hW : W.Documented) {v : ℕ} {w : Window} :
    (start W).shared.desktop.windows v ≠ some w := by
  intro hw
  cases (Desktop.windows_empty v).symm.trans ((Desktop.windows_eq hW.start v).symm.trans hw)

/-- What is known of a frame before it runs. -/
theorem known_top (hW : W.Documented) (h : (machine W).Reaches anyStep (start W) c)
    {i : ℕ} (ht : c.top i = some f) :
    f.Sees c.shared.desktop ∧ ∀ g ∈ c.others i, ¬g.IsOuter → g.thread ≠ f.thread := by
  refine ⟨sees_invariant hW h f ?_, apart_invariant hW h ht⟩
  rw [frames_eq ht]
  exact Multiset.mem_cons_self f _

theorem known_invariant (hW : W.Documented) (h : (machine W).Reaches anyStep (start W) c) :
    Known c.shared c.frames := by
  refine h.invariant_top (I := Known) (J := fun m f R => f.Sees m.desktop ∧
    ∀ g ∈ R, ¬g.IsOuter → g.thread ≠ f.thread) (fun c i f hc ht => known_top hW hc ht) ?_ ?_
  · refine ⟨fun f hf work hwork => ?_, fun v t work hw => ?_⟩
    · rcases List.mem_pair.mp hf with rfl | rfl <;> cases hwork
    · exact absurd hw (no_windows hW)
  · rintro m f R x o - ⟨hf, hapart⟩ hi hs
    have hstep := step_inv hW hs
    refine ⟨fun g hg work hwork => ?_, fun v t work hw => ?_⟩
    · rcases Multiset.mem_add.mp hg with hg | hg
      · exact hstep.log (hstep.carried hf hapart hi g hg work hwork)
      · exact hstep.log (hi.carried g (Multiset.mem_cons_of_mem hg) work hwork)
    · rcases hstep.kept hf hw with ⟨-, hin⟩ | ⟨hold, hne⟩
      · exact .inr ⟨_, Multiset.mem_add.mpr (.inl hin), rfl, rfl, rfl⟩
      · rcases hi.kept v t work hold with htold | ⟨g, hg, hq⟩
        · exact .inl (hstep.log htold)
        · rcases Multiset.mem_cons.mp hg with rfl | hg
          · refine (hstep.queues hq hne).imp_right ?_
            rintro ⟨g, hg, hq⟩
            exact ⟨g, Multiset.mem_add.mpr (.inl hg), hq⟩
          · exact .inr ⟨g, Multiset.mem_add.mpr (.inr hg), hq⟩

end Known

/-! ## In order -/

/-- Work is run after the thread has been told that it is queued, and a thread is told that it is not
after the work has been dropped. -/
def Orderly : List Event → Prop
  | [] => True
  | .ran work t :: log => .told work t true ∈ log ∧ Orderly log
  | .told work t false :: log => .dropped work t ∈ log ∧ Orderly log
  | _ :: log => Orderly log

/-- What has been dropped is being reported, and what is reported has been dropped. -/
structure Reported {W : WindowManager} (m : Memory W) (fs : Multiset Code) : Prop where
  orderly : Orderly m.log
  returning : ∀ t work, .returning t work false ∈ fs → .dropped work t ∈ m.log
  dropped : ∀ work t, .dropped work t ∈ m.log →
    .told work t false ∈ m.log ∨ .returning t work false ∈ fs

section Reported
variable {W : WindowManager} {m : Memory W} {f : Code} {o : Outcome (Memory W) Code}
  {c : Config (Memory W) Code}

theorem Orderly.suffix {later log : List Event} (h : Orderly (later ++ log)) : Orderly log := by
  induction later with
  | nil => exact h
  | cons e later ih =>
    cases e with
    | ran work t => exact ih h.2
    | told work t queued =>
      cases queued with
      | true => exact ih h
      | false => exact ih h.2
    | dropped work t => exact ih h
    | lost work => exact ih h
    | discarded v => exact ih h

theorem Orderly.told {log : List Event} {work t : ℕ} (h : Orderly log)
    (hin : .told work t false ∈ log) : .dropped work t ∈ log := by
  obtain ⟨later, earlier, rfl⟩ := List.append_of_mem hin
  exact List.mem_append_right _ (List.mem_cons_of_mem _ h.suffix.1)

theorem Orderly.lost {log : List Event} (h : Orderly log) (stored : Option ℕ) :
    Orderly (stored.toList.map .lost ++ log) := by
  cases stored with
  | none => exact h
  | some work => exact h

/-- A step by which nothing is dropped or reported. -/
theorem Reported.quiet {R : Multiset Code} (h : Reported m (f ::ₘ R))
    (ho : Orderly o.shared.log) (hlog : m.log ⊆ o.shared.log)
    (hdropped : ∀ work t, .dropped work t ∈ o.shared.log → .dropped work t ∈ m.log)
    (hf : ∀ t work, f ≠ .returning t work false)
    (hnew : ∀ t work, .returning t work false ∉ o.frames) : Reported o.shared (o.frames + R) := by
  refine ⟨ho, fun t work hin => ?_, fun work t hin => ?_⟩
  · rcases Multiset.mem_add.mp hin with hin | hin
    · exact absurd hin (hnew t work)
    · exact hlog (h.returning t work (Multiset.mem_cons_of_mem hin))
  · refine (h.dropped work t (hdropped work t hin)).imp (fun ht => hlog ht) fun hr => ?_
    rcases Multiset.mem_cons.mp hr with he | hr
    · exact absurd he.symm (hf t work)
    · exact Multiset.mem_add.mpr (.inr hr)

theorem Step.reported (h : Step m f o) {R : Multiset Code} (hk : Known m (f ::ₘ R))
    (hi : Reported m (f ::ₘ R)) : Reported o.shared (o.frames + R) := by
  have hlog := h.log
  cases h with
  | dropped t work =>
    refine ⟨hi.orderly, fun t' work' hin => ?_, fun work' t' hin => ?_⟩
    · rcases Multiset.mem_add.mp hin with hin | hin
      · cases Multiset.mem_singleton.mp hin
        exact List.mem_cons_self
      · exact hlog (hi.returning t' work' (Multiset.mem_cons_of_mem hin))
    · rcases List.mem_cons.mp hin with he | hin
      · cases he
        exact .inr (Multiset.mem_add.mpr (.inl (Multiset.mem_singleton_self _)))
      · refine (hi.dropped work' t' hin).imp (fun ht => hlog ht) fun hr => ?_
        rcases Multiset.mem_cons.mp hr with he | hr
        · cases he
        · exact Multiset.mem_add.mpr (.inr hr)
  | returned t work posted =>
    cases posted with
    | true =>
      refine hi.quiet hi.orderly hlog (fun work' t' hin => ?_) (by simp) fun t' work' hin => ?_
      · rcases List.mem_cons.mp hin with he | hin
        · cases he
        · exact hin
      · exact absurd hin (Multiset.notMem_zero _)
    | false =>
      have hdropped := hi.returning t work (Multiset.mem_cons_self _ R)
      refine ⟨⟨hdropped, hi.orderly⟩, fun t' work' hin => ?_, fun work' t' hin => ?_⟩
      · rcases Multiset.mem_add.mp hin with hin | hin
        · exact absurd hin (Multiset.notMem_zero _)
        · exact hlog (hi.returning t' work' (Multiset.mem_cons_of_mem hin))
      · rcases List.mem_cons.mp hin with he | hin
        · cases he
        · rcases hi.dropped work' t' hin with ht | hr
          · exact .inl (hlog ht)
          · rcases Multiset.mem_cons.mp hr with he | hr
            · cases he
              exact .inl List.mem_cons_self
            · exact .inr (Multiset.mem_add.mpr (.inr hr))
  | ran t work =>
    have htold := hk.carried _ (Multiset.mem_cons_self _ R) work rfl
    exact hi.quiet ⟨htold, hi.orderly⟩ hlog (by simp [Memory.record]) (by simp)
      (by simp [Outcome.frames])
  | destroyed howns hs =>
    exact hi.quiet (hi.orderly.lost _) hlog (by simp [Memory.lose]) (by simp)
      (by simp [Outcome.frames])
  | cleared howns hs =>
    exact hi.quiet (hi.orderly.lost _) hlog (by simp [Memory.lose]) (by simp)
      (by simp [Outcome.frames])
  | closed hs =>
    exact hi.quiet (hi.orderly.lost _) hlog (by simp [Memory.lose]) (by simp)
      (by simp [Outcome.frames])
  | discarded hd =>
    exact hi.quiet hi.orderly hlog (by simp [Memory.record]) (by simp) (by simp [Outcome.frames])
  | _ => exact hi.quiet hi.orderly hlog (fun _ _ h => h) (by simp) (by simp [Outcome.frames])

theorem reported_invariant (hW : W.Documented) (h : (machine W).Reaches anyStep (start W) c) :
    Reported c.shared c.frames := by
  refine h.invariant (I := Reported) (J := Known) (fun _ hc => known_invariant hW hc) ?_ ?_
  · refine ⟨trivial, fun t work hin => ?_, fun work t hin => ?_⟩
    · rcases List.mem_pair.mp hin with he | he <;> cases he
    · cases hin
  · intro m f R x o _ hk hi hs
    exact (step_inv hW hs).reported hk hi

end Reported

/-! ## Work in a window has its message -/

/-- The thread is going to post the message for the window, or to act on it. -/
def Code.Tends (t v : ℕ) : Code → Prop
  | .post t' v' _ | .abandon t' v' _ | .zero t' v' _ => t' = t ∧ v' = v
  | .deferredWndProc t' v' message => t' = t ∧ v' = v ∧ message = WM_RUN_DEFERRED
  | _ => False

/-- The message for the window is on its way, unless the title has thrown it away. -/
def Comes {W : WindowManager} (m : Memory W) (fs : Multiset Code) (t v : ℕ) : Prop :=
  (⟨v, WM_RUN_DEFERRED⟩ : Message) ∈ m.desktop.posted ∨ .discarded v ∈ m.log ∨ ∃ f ∈ fs, f.Tends t v

def Awaited {W : WindowManager} (m : Memory W) (fs : Multiset Code) : Prop :=
  ∀ v t work, m.desktop.windows v = some ⟨t, some work⟩ → Comes m fs t v

section Awaited
variable {W : WindowManager} {m : Memory W} {f : Code} {o : Outcome (Memory W) Code}
  {c : Config (Memory W) Code} {t v work : ℕ}

/-- A message that is posted stays until its thread takes it. -/
theorem Step.comes (h : Step m f o) (hf : f.Sees m.desktop)
    (hw : o.shared.desktop.windows v = some ⟨t, some work⟩)
    (hin : (⟨v, WM_RUN_DEFERRED⟩ : Message) ∈ m.desktop.posted) : Comes o.shared o.frames t v := by
  cases h with
  | posted t' hs => exact .inl (Desktop.mem_posted hs (Multiset.mem_cons_of_mem hin))
  | queued hs => exact .inl (Desktop.mem_posted hs (Multiset.mem_cons_of_mem hin))
  | unposted t' hs => exact .inl (Desktop.mem_posted hs hin)
  | refused t' p hs => exact .inl (Desktop.mem_posted hs hin)
  | unqueued t' v' p hs => exact .inl (Desktop.mem_posted hs hin)
  | ignored hother hs => exact .inl (Desktop.mem_posted (hs hf) hin)
  | created p hnew hs => exact .inl (Desktop.mem_posted hs hin)
  | stored hs => exact .inl (Desktop.mem_posted (hs _ hf) hin)
  | zeroed stored hs => exact .inl (Desktop.mem_posted (hs _ hf) hin)
  | @dispatched t' a s howns hs =>
    rcases Desktop.mem_take (a := a) hin with rfl | hin
    · obtain ⟨w, howner, rfl⟩ := Desktop.owns_iff.mp howns
      have hsame := howner.symm.trans ((Desktop.windows_eq hs v).symm.trans hw)
      obtain rfl := Option.some.inj hsame
      exact .inr (.inr ⟨_, Multiset.mem_coe.mpr List.mem_cons_self, rfl, rfl, rfl⟩)
    · exact .inl (Desktop.mem_posted hs hin)
  | @discarded a s t' hs =>
    rcases Desktop.mem_take (a := a) hin with rfl | hin
    · exact .inr (.inl List.mem_cons_self)
    · exact .inl (Desktop.mem_posted hs hin)
  | destroyed howns hs =>
    have hold := Desktop.destroy_cases ((Desktop.windows_eq hs v).symm.trans hw)
    exact .inl (Desktop.mem_posted hs (Desktop.mem_destroy hin hold.1))
  | cleared howns hs =>
    have hold := Desktop.destroy_cases ((Desktop.windows_eq hs v).symm.trans hw)
    exact .inl (Desktop.mem_posted hs (Desktop.mem_destroy hin hold.1))
  | closed hs =>
    have hold := Desktop.destroy_cases ((Desktop.windows_eq (hs hf) v).symm.trans hw)
    exact .inl (Desktop.mem_posted (hs hf) (Desktop.mem_destroy hin hold.1))
  | abandoned hs =>
    have hs := hs (owns_of_windows hf)
    have hold := Desktop.destroy_cases ((Desktop.windows_eq hs v).symm.trans hw)
    exact .inl (Desktop.mem_posted hs (Desktop.mem_destroy hin hold.1))
  | gone stored hs =>
    have hs := hs (owns_of_windows hf)
    have hold := Desktop.destroy_cases ((Desktop.windows_eq hs v).symm.trans hw)
    exact .inl (Desktop.mem_posted hs (Desktop.mem_destroy hin hold.1))
  | _ => exact .inl hin

/-- Who tends to the window goes on with it, until the window has no work. -/
theorem Step.tends (h : Step m f o) (hf : f.Sees m.desktop)
    (hw : o.shared.desktop.windows v = some ⟨t, some work⟩) (ht : f.Tends t v) :
    Comes o.shared o.frames t v := by
  cases h with
  | queued hs =>
    obtain ⟨rfl, rfl⟩ := ht
    exact .inl (Desktop.mem_posted hs (Multiset.mem_cons_self _ _))
  | unqueued t' v' p hs => exact .inr (.inr ⟨_, Multiset.mem_singleton_self _, ht⟩)
  | abandoned hs =>
    have hs := hs (owns_of_windows hf)
    have hold := Desktop.destroy_cases ((Desktop.windows_eq hs v).symm.trans hw)
    exact absurd ht.2.symm hold.1
  | read hd => exact .inr (.inr ⟨_, Multiset.mem_singleton_self _, ht.1, ht.2.1⟩)
  | ignored hother hs => exact absurd ht.2.2 hother
  | closed hs =>
    have hold := Desktop.destroy_cases ((Desktop.windows_eq (hs hf) v).symm.trans hw)
    exact absurd ht.2.1.symm hold.1
  | zeroed stored hs =>
    obtain ⟨rfl, rfl⟩ := ht
    have hset := (Desktop.windows_eq (hs _ hf) _).trans (Desktop.put_self _ _)
    cases hset.symm.trans hw
  | _ => exact ht.elim

theorem Comes.add {fs R : Multiset Code} (h : Comes m fs t v) : Comes m (fs + R) t v := by
  rcases h with hposted | hgone | ⟨f, hf, ht⟩
  · exact .inl hposted
  · exact .inr (.inl hgone)
  · exact .inr (.inr ⟨f, Multiset.mem_add.mpr (.inl hf), ht⟩)

theorem awaited_invariant (hW : W.Documented) (h : (machine W).Reaches anyStep (start W) c) :
    Awaited c.shared c.frames := by
  refine h.invariant (I := Awaited) (J := fun m fs => ∀ f ∈ fs, f.Sees m.desktop)
    (fun _ hc => sees_invariant hW hc) ?_ ?_
  · intro v t work hw
    exact absurd hw (no_windows hW)
  · intro m f R x o _ hJ hi hs v t work hw
    have hstep := step_inv hW hs
    have hf := hJ f (Multiset.mem_cons_self f R)
    rcases hstep.kept hf hw with ⟨-, hin⟩ | ⟨hold, -⟩
    · exact .inr (.inr ⟨_, Multiset.mem_add.mpr (.inl hin), rfl, rfl⟩)
    · rcases hi v t work hold with hposted | hgone | ⟨g, hg, ht⟩
      · exact (hstep.comes hf hw hposted).add
      · exact .inr (.inl (hstep.log hgone))
      · rcases Multiset.mem_cons.mp hg with rfl | hg
        · exact (hstep.tends hf hw ht).add
        · exact .inr (.inr ⟨g, Multiset.mem_add.mpr (.inr hg), ht⟩)

/-- The thread's own message loop runs the work. -/
theorem runs (hW : W.Documented) {k : List Code}
    (hw : c.shared.desktop.windows v = some ⟨t, some work⟩)
    (hin : (⟨v, WM_RUN_DEFERRED⟩ : Message) ∈ c.shared.desktop.posted)
    (hk : c.threads[t]? = some (.title t :: k)) :
    ∃ d, (machine W).Reaches anyStep c d ∧ .ran work t ∈ d.shared.log := by
  obtain ⟨s, htake⟩ := hW.found c.shared.user32 t ⟨v, WM_RUN_DEFERRED⟩ (owns_of_windows hw) hin
  have hdispatch : (machine W).step c.shared (.title t) (.dispatch ⟨v, WM_RUN_DEFERRED⟩) = some
      ⟨{ c.shared with user32 := s }, [.deferredWndProc t v WM_RUN_DEFERRED, .title t], []⟩ :=
    Option.map_eq_some_iff.mpr ⟨_, htake, rfl⟩
  obtain ⟨c₁, h₁, hs₁, hk₁⟩ := Machine.Reaches.next (M := machine W) .refl hk hdispatch
  have hread : W.getWindowLongPtr c₁.shared.user32 v = some work := by
    rw [hs₁]
    exact hW.get _ _ _ ((Desktop.windows_eq (hW.taken _ _ _ _ htake).2 v).trans hw)
  have hproc : (machine W).step c₁.shared (.deferredWndProc t v WM_RUN_DEFERRED) .go =
      some ⟨c₁.shared, [.zero t v (some work)], []⟩ := by
    simp [machine, Memory.step, hread]
  obtain ⟨c₂, h₂, -, hk₂⟩ := Machine.Reaches.next (M := machine W) h₁ hk₁ hproc
  obtain ⟨c₃, h₃, -, hk₃⟩ := Machine.Reaches.next (M := machine W) (x := .go) h₂ hk₂ rfl
  obtain ⟨c₄, h₄, -, hk₄⟩ := Machine.Reaches.next (M := machine W) (x := .go) h₃ hk₃ rfl
  obtain ⟨c₅, h₅, hs₅, -⟩ := Machine.Reaches.next (M := machine W) (x := .go) h₄ hk₄ rfl
  refine ⟨c₅, h₅, ?_⟩
  rw [hs₅]
  exact List.mem_cons_self

end Awaited

/-! ## Exactly once -/

section Exact
variable {W : WindowManager} {c : Config (Memory W) Code}

/-- The work is still to come: a window of the thread keeps it and its message is on its way, or the
window's procedure is about to run it. -/
def Waits (c : Config (Memory W) Code) (work t : ℕ) : Prop :=
  (∃ v, c.shared.desktop.windows v = some ⟨t, some work⟩ ∧ Comes c.shared c.frames t v) ∨
    ∃ f ∈ c.frames, f.thread = t ∧ f.carried = some work ∧ 0 < f.holds work

/-- The thread has the pointer, and goes on to use it. -/
def Code.has (work : ℕ) : Code → Prop
  | .create _ p | .store _ _ p | .post _ _ p | .abandon _ _ p | .drop _ p => p = work
  | .zero _ _ stored | .destroy _ _ stored | .run _ stored => stored = some work
  | _ => False

/-- No thread and no window has the pointer. -/
def NoPointer (c : Config (Memory W) Code) (work : ℕ) : Prop :=
  (∀ f ∈ c.frames, ¬f.has work) ∧
    ∀ v w, c.shared.desktop.windows v = some w → w.userData ≠ some work

theorem exists_of_weight {w : Code → ℕ} {fs : Multiset Code} (h : 0 < weight w fs) :
    ∃ f ∈ fs, 0 < w f := by
  by_contra hnone
  push Not at hnone
  exact absurd (weight_eq_zero w fun f hf => Nat.le_zero.mp (hnone f hf)) (Nat.ne_of_gt h)

section Told
variable {work t t' : ℕ} {queued queued' : Bool}

theorem boxed_le (works work : ℕ) : boxed works work ≤ 1 := by
  unfold boxed
  split_ifs <;> decide

theorem tells_pos (h : .told work t queued ∈ c.shared.log) :
    0 < c.shared.log.countP (Event.tells work) :=
  List.countP_pos_iff.mpr ⟨_, h, decide_eq_true rfl⟩

theorem told_unique (hW : W.Documented) (h : (machine W).Reaches anyStep (start W) c)
    (h₁ : .told work t queued ∈ c.shared.log)
    (h₂ : .told work t' queued' ∈ c.shared.log) : t = t' ∧ queued = queued' := by
  have hcalls := calls_invariant hW h work
  have hle := boxed_le c.shared.works work
  have hone : c.shared.log.countP (Event.tells work) ≤ 1 := by omega
  have heq := eq_of_countP hone h₁ h₂ (decide_eq_true rfl) (decide_eq_true rfl)
  exact ⟨(Event.told.inj heq).2.1, (Event.told.inj heq).2.2⟩

/-- Once `run_later` has returned, no thread is in it for the work. -/
theorem told_calls (hW : W.Documented) (h : (machine W).Reaches anyStep (start W) c)
    (htold : .told work t queued ∈ c.shared.log)
    {f : Code} (hf : f ∈ c.frames) : f.calls work = 0 := by
  have hcalls := calls_invariant hW h work
  have hle := boxed_le c.shared.works work
  have hpos := tells_pos htold
  have hweight := le_weight (w := Code.calls work) hf
  omega

theorem Code.Queues.calls {f : Code} {v : ℕ} (h : f.Queues t v work) : 0 < f.calls work := by
  cases f with
  | post t' v' p =>
    obtain ⟨rfl, rfl, rfl⟩ := h
    simp [Code.calls]
  | abandon t' v' p =>
    obtain ⟨rfl, rfl, rfl⟩ := h
    simp [Code.calls]
  | returning t' p posted =>
    cases posted with
    | true =>
      obtain ⟨rfl, rfl⟩ := h
      simp [Code.calls]
    | false => exact h.elim
  | _ => exact h.elim

/-- A pointer that a thread has is one of `run_later`, or one that the window's procedure carries. -/
theorem Code.carried_of_holds {f : Code} (h : 0 < f.holds work) (hcalls : f.calls work = 0) :
    f.carried = some work := by
  cases f with
  | create t p => exact absurd hcalls (Nat.ne_of_gt h)
  | store t v p => exact absurd hcalls (Nat.ne_of_gt h)
  | drop t p => exact absurd hcalls (Nat.ne_of_gt h)
  | destroy t v stored =>
    by_contra hne
    exact absurd h (by simp [Code.holds, show stored ≠ some work from hne])
  | run t stored =>
    by_contra hne
    exact absurd h (by simp [Code.holds, show stored ≠ some work from hne])
  | _ => exact absurd h (Nat.lt_irrefl 0)

theorem waits_held (h : Waits c work t) :
    0 < weight (Code.holds work) c.frames + c.shared.desktop.stores work := by
  rcases h with ⟨v, hw, -⟩ | ⟨f, hf, -, -, hpos⟩
  · have hstores := Desktop.stores_pos.mpr ⟨v, _, hw, rfl⟩
    omega
  · have hweight := le_weight (w := Code.holds work) hf
    omega

/-- The thread has the pointer for `run_later`, or instead of the window, or it is about to take it. -/
theorem Code.has_cases {f : Code} (h : f.has work) : 0 < f.calls work ∨ 0 < f.holds work ∨
    ∃ t v, f = .zero t v (some work) := by
  cases f with
  | create t p =>
    obtain rfl : p = work := h
    exact .inl (by simp [Code.calls])
  | store t v p =>
    obtain rfl : p = work := h
    exact .inl (by simp [Code.calls])
  | post t v p =>
    obtain rfl : p = work := h
    exact .inl (by simp [Code.calls])
  | abandon t v p =>
    obtain rfl : p = work := h
    exact .inl (by simp [Code.calls])
  | drop t p =>
    obtain rfl : p = work := h
    exact .inl (by simp [Code.calls])
  | zero t v stored =>
    obtain rfl : stored = some work := h
    exact .inr (.inr ⟨t, v, rfl⟩)
  | destroy t v stored =>
    obtain rfl : stored = some work := h
    exact .inr (.inl (by simp [Code.holds]))
  | run t stored =>
    obtain rfl : stored = some work := h
    exact .inr (.inl (by simp [Code.holds]))
  | _ => exact h.elim

theorem no_pointer (hW : W.Documented) (h : (machine W).Reaches anyStep (start W) c)
    (htold : .told work t queued ∈ c.shared.log)
    (hends : 0 < c.shared.log.countP (Event.ends work)) : NoPointer c work := by
  have hheld := held_invariant hW h work
  have hle := boxed_le c.shared.works work
  unfold held at hheld
  have hnone : ∀ v w, c.shared.desktop.windows v = some w → w.userData ≠ some work := by
    intro v w hw hdata
    have hstores := Desktop.stores_pos.mpr ⟨v, w, hw, hdata⟩
    omega
  refine ⟨fun f hf hhas => ?_, hnone⟩
  rcases Code.has_cases hhas with hcalls | hholds | ⟨t', v, rfl⟩
  · exact absurd (told_calls hW h htold hf) (Nat.ne_of_gt hcalls)
  · have hweight := le_weight (w := Code.holds work) hf
    omega
  · exact hnone v _ (sees_invariant hW h _ hf) rfl

/-- Where the pointer is, the work is still to come. -/
theorem waits_of_held (hW : W.Documented) (h : (machine W).Reaches anyStep (start W) c)
    (htold : .told work t true ∈ c.shared.log)
    (hpos : 0 < weight (Code.holds work) c.frames + c.shared.desktop.stores work) :
    Waits c work t := by
  rcases Nat.eq_zero_or_pos (c.shared.desktop.stores work) with hzero | hstores
  · have hweight : 0 < weight (Code.holds work) c.frames := by omega
    obtain ⟨f, hf, hholds⟩ := exists_of_weight hweight
    have hcarried := Code.carried_of_holds hholds (told_calls hW h htold hf)
    have hthread := told_unique hW h ((known_invariant hW h).carried f hf work hcarried) htold
    exact .inr ⟨f, hf, hthread.1, hcarried, hholds⟩
  · obtain ⟨v, ⟨owner, data⟩, hw, hdata⟩ := Desktop.stores_pos.mp hstores
    obtain rfl : data = some work := hdata
    rcases (known_invariant hW h).kept v owner work hw with hknown | ⟨f, hf, hq⟩
    · obtain ⟨rfl, -⟩ := told_unique hW h hknown htold
      exact .inl ⟨v, hw, awaited_invariant hW h v owner work hw⟩
    · exact absurd (told_calls hW h htold hf) (Nat.ne_of_gt hq.calls)

theorem not_dropped (hW : W.Documented) (h : (machine W).Reaches anyStep (start W) c)
    (htold : .told work t true ∈ c.shared.log) :
    .dropped work t' ∉ c.shared.log := by
  intro hdropped
  rcases (reported_invariant hW h).dropped work t' hdropped with hfalse | hret
  · cases (told_unique hW h htold hfalse).2
  · have hcalls := told_calls hW h htold hret
    simp [Code.calls] at hcalls

/-- Work that has ended was run by the thread that was told so, or is lost. -/
theorem ended (hW : W.Documented) (h : (machine W).Reaches anyStep (start W) c)
    (htold : .told work t true ∈ c.shared.log) :
    0 < c.shared.log.countP (Event.ends work) ↔
      .ran work t ∈ c.shared.log ∨ .lost work ∈ c.shared.log := by
  constructor
  · intro hpos
    obtain ⟨e, he, hends⟩ := List.countP_pos_iff.mp hpos
    cases e with
    | ran p t' =>
      obtain rfl := of_decide_eq_true hends
      obtain ⟨later, earlier, hlog⟩ := List.append_of_mem he
      have horderly := (reported_invariant hW h).orderly
      rw [hlog] at horderly
      have hbefore : .told p t' true ∈ earlier := horderly.suffix.1
      have hknown : .told p t' true ∈ c.shared.log := by
        rw [hlog]
        exact List.mem_append_right _ (List.mem_cons_of_mem _ hbefore)
      obtain ⟨rfl, -⟩ := told_unique hW h hknown htold
      exact .inl he
    | dropped p t' =>
      obtain rfl := of_decide_eq_true hends
      exact absurd he (not_dropped hW h htold)
    | lost p =>
      obtain rfl := of_decide_eq_true hends
      exact .inr he
    | _ => cases hends
  · rintro (hin | hin)
    · exact List.countP_pos_iff.mpr ⟨_, hin, decide_eq_true rfl⟩
    · exact List.countP_pos_iff.mpr ⟨_, hin, decide_eq_true rfl⟩

/-- Work that waits waits for a thread that has still to end. -/
theorem waits_thread (hW : W.Documented) (h : (machine W).Reaches anyStep (start W) c)
    (hwaits : Waits c work t) : c.threads[t]? ≠ some [] := by
  intro hover
  rcases hwaits with ⟨v, hw, -⟩ | ⟨f, hf, hthread, -, -⟩
  · exact no_windows_left hW h hover hw rfl
  · obtain ⟨k, hk, hin⟩ := List.mem_flatten.mp (Multiset.mem_coe.mp hf)
    obtain ⟨i, hi⟩ := List.mem_iff_getElem?.mp hk
    have hown := (named_invariant hW h).own i k hi f hin
    obtain rfl : i = t := hown.symm.trans hthread
    obtain rfl := Option.some.inj (hi.symm.trans hover)
    exact absurd hin List.not_mem_nil

end Told

/-- Whatever is posted to its window, sent there, taken away or closed, and whoever does it: a piece of
deferred work is run at most once, by the thread that has deferred it and after that was told so. When
`run_later` fails, the work has been dropped and no pointer to it is left; when it succeeds, the work
stays to come until it is run or its window is destroyed, at the latest by the end of its thread. The
thread's own message loop can run it for as long as its message is there. -/
theorem deferred_exact (hW : W.Documented) (h : (machine W).Reaches anyStep (start W) c) (work : ℕ) :
    (∀ (t : ℕ) (k : List Code), c.threads[t]? = some k → ∀ f ∈ k, f.thread = t) ∧
    c.shared.log.countP (Event.ends work) ≤ 1 ∧
    (∀ t, .told work t false ∈ c.shared.log →
      .dropped work t ∈ c.shared.log ∧ NoPointer c work) ∧
    (∀ t, .told work t true ∈ c.shared.log → (∀ t', .dropped work t' ∉ c.shared.log) ∧
      (¬Waits c work t ↔ .ran work t ∈ c.shared.log ∨ .lost work ∈ c.shared.log) ∧
      (¬Waits c work t → NoPointer c work) ∧
      (c.threads[t]? = some [] → ¬Waits c work t)) ∧
    (∀ t later earlier, c.shared.log = later ++ .ran work t :: earlier →
      .told work t true ∈ earlier) ∧
    ∀ v t k, c.shared.desktop.windows v = some ⟨t, some work⟩ →
      (⟨v, WM_RUN_DEFERRED⟩ : Message) ∈ c.shared.desktop.posted →
      c.threads[t]? = some (.title t :: k) →
      ∃ d, (machine W).Reaches anyStep c d ∧ .ran work t ∈ d.shared.log := by
  have hheld := held_invariant hW h work
  have hle := boxed_le c.shared.works work
  unfold held at hheld
  refine ⟨(named_invariant hW h).own, by omega, fun t htold => ?_, fun t htold => ?_,
    fun t later earlier hlog => ?_, fun v t k hw hin hk => runs hW hw hin hk⟩
  · have hdropped := (reported_invariant hW h).orderly.told htold
    have hends : 0 < c.shared.log.countP (Event.ends work) :=
      List.countP_pos_iff.mpr ⟨_, hdropped, decide_eq_true rfl⟩
    exact ⟨hdropped, no_pointer hW h htold hends⟩
  · have hends : ¬Waits c work t ↔ 0 < c.shared.log.countP (Event.ends work) := by
      constructor
      · intro hnot
        by_contra hzero
        have hcalls := calls_invariant hW h work
        have hpos := tells_pos htold
        exact hnot (waits_of_held hW h htold (by omega))
      · intro hends hwaits
        have hpos := waits_held hwaits
        omega
    refine ⟨fun t' => not_dropped hW h htold, hends.trans (ended hW h htold),
      fun hnot => no_pointer hW h htold (hends.mp hnot), fun hover hwaits => ?_⟩
    exact waits_thread hW h hwaits hover
  · have horderly := (reported_invariant hW h).orderly
    rw [hlog] at horderly
    exact horderly.suffix.1

/-- A second message to the window comes to nothing, and what is left in a window is lost when its
thread ends. -/
theorem deferred_exact_twice :
    ∃ c, (machine Desktop.manager).Reaches anyStep (start Desktop.manager) c ∧
    c.shared.log = [.lost 1, .told 1 0 true, .ran 0 0, .told 0 0 true] ∧
    c.shared.desktop.posted = 0 ∧ c.threads[0]? = some [] ∧
    c.shared.log.countP (Event.ends 0) ≤ 1 := by
  have hrun : ((machine Desktop.manager).run anyStep [(0, .thread), (0, .runLater),
      (0, .outcome true), (0, .go), (1, .post true ⟨1, WM_RUN_DEFERRED⟩), (0, .outcome true), (0, .go),
      (1, .post true ⟨1, WM_RUN_DEFERRED⟩), (0, .dispatch ⟨1, WM_RUN_DEFERRED⟩), (0, .go), (0, .go),
      (0, .go), (0, .go), (0, .runLater), (0, .outcome true), (0, .go), (0, .outcome true), (0, .go),
      (0, .done), (0, .done), (0, .destroy 1), (0, .done)] (start Desktop.manager)).any (fun c =>
        decide (c.shared.log = [.lost 1, .told 1 0 true, .ran 0 0, .told 0 0 true] ∧
          c.shared.desktop.posted = 0 ∧ c.threads[0]? = some [])) = true := by
    decide +kernel
  obtain ⟨c, hc, hcheck⟩ := Machine.Reaches.of_run_any hrun
  obtain ⟨hlog, hposted, hover⟩ := of_decide_eq_true hcheck
  exact ⟨c, hc, hlog, hposted, hover, (deferred_exact Desktop.documented hc 0).2.1⟩

end Exact

end XGameRuntime.Pickers.Deferred
