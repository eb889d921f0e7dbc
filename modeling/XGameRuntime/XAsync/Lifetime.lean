import XGameRuntime.XAsync.Contexts

/-! # The lifetime of a `run_sync` context

A context is freed by the `Cleanup` of its call, or by `run_sync` itself where `XAsyncBegin` has not
taken it. Every run in which the cleanup of a call comes after everything that holds its context.
-/

namespace XGameRuntime.XAsync
open Concurrency TaskQueue
set_option autoImplicit false

/-! ## Histories of one context -/

theorem count_le_one {α : Type} [DecidableEq α] {a : α} {l : List α}
    (h : l.Pairwise fun later earlier => earlier = a → later ≠ a) : l.count a ≤ 1 := by
  induction l with
  | nil => simp
  | cons b l ih =>
    obtain ⟨hhead, htail⟩ := List.pairwise_cons.mp h
    by_cases hb : b = a
    · subst hb
      have hnot : b ∉ l := fun hm => hhead b hm rfl rfl
      simp [List.count_eq_zero.mpr hnot]
    · rw [List.count_cons_of_ne hb]
      exact ih htail

/-- The context that an event uses or frees. -/
def Event.context : Event → Option ℕ
  | .touched h | .future h _ | .released h => some h
  | _ => none

/-- In a history, newest first, nothing uses context `h` after its release, and it is not released
again. -/
def ReleasedLast (h : ℕ) (log : List Event) : Prop :=
  log.Pairwise fun later earlier => earlier = .released h → later.context ≠ some h

instance (h : ℕ) (log : List Event) : Decidable (ReleasedLast h log) :=
  inferInstanceAs (Decidable (List.Pairwise _ _))

theorem ReleasedLast.append {h : ℕ} {fresh log : List Event} (hI : ReleasedLast h log)
    (hf : ∀ e ∈ fresh, e ≠ .released h)
    (hc : .released h ∈ log → ∀ e ∈ fresh, e.context ≠ some h) : ReleasedLast h (fresh ++ log) := by
  refine List.pairwise_append.mpr ⟨?_, hI, fun later hl earlier he hr => ?_⟩
  · exact List.pairwise_of_forall_mem_list fun later _ earlier he hr => absurd hr (hf earlier he)
  · subst hr
    exact hc he later hl

/-- The release itself, with the event that comes before it. -/
theorem ReleasedLast.release {h : ℕ} {e : Event} {log : List Event} (hI : ReleasedLast h log)
    (he : e.context = none) (hn : .released h ∉ log) : ReleasedLast h (.released h :: e :: log) := by
  have hne : e ≠ .released h := by
    rintro rfl
    simp [Event.context] at he
  have htail : ReleasedLast h ([e] ++ log) :=
    hI.append (by simpa using hne) fun hr => absurd hr hn
  refine List.pairwise_cons.mpr ⟨fun earlier hm hr => ?_, htail⟩
  subst hr
  rcases List.mem_cons.mp hm with hm | hm
  · exact absurd hm.symm hne
  · exact absurd hm hn

theorem ReleasedLast.count_le {h : ℕ} {log : List Event} (hI : ReleasedLast h log) :
    log.count (.released h) ≤ 1 := by
  refine count_le_one (hI.imp fun hne he hl => ?_)
  subst hl
  exact hne he rfl

/-! ## What a step does to contexts -/

/-- What a step adds to the history, by the context that it is about. -/
inductive Uses (m : Memory) (code : Code) (r : EngineStep) : List Event → Prop where
  | nothing {fresh : List Event} (hl : r.mem.helpers.length = m.helpers.length)
      (hf : ∀ e ∈ fresh, e.context = none) : Uses m code r fresh
  | worker {h : ℕ} {fresh : List Event} (hw : (working h).code code = 1)
      (hf : ∀ e ∈ fresh, e.context = some h ∧ e ≠ .released h ∨ e.context = none) : Uses m code r fresh
  | operation {i h : ℕ} {k : Pending} {fresh : List Event} (hr : m.Runs i h)
      (hk : k ≠ .cleanup) (hp : (pendingLoad k i).code code = 1)
      (hf : ∀ e ∈ fresh, e.context = some h ∧ e ≠ .released h ∨ e.context = none) : Uses m code r fresh
  | makes {i h : ℕ} {fresh : List Event} (hr : r.mem.Runs i h) (hn : h = m.helpers.length)
      (hf : ∀ e ∈ fresh, e.context = none) : Uses m code r fresh
  | begins {i h : ℕ} {fresh : List Event} (hr : m.Runs i h) (hc : code = .invoke i .begin)
      (hf : ∀ e ∈ fresh, e.context = some h ∧ e ≠ .released h ∨ e.context = none) : Uses m code r fresh
  | cleanup {i h : ℕ} (hr : m.Runs i h) (hc : code = .invoke i .cleanup) :
      Uses m code r [.released h, .invoked i .cleanup]
  | rejects {h : ℕ} {e : Event} (he : e.context = none) (hn : h = m.helpers.length)
      (hl : r.mem.helpers.length = m.helpers.length + 1) (hs : r.mem.states = m.states) :
      Uses m code r [.released h, e]
  | beginReturns {i h : ℕ} {fresh : List Event} (hr : m.Runs i h)
      (hc : 0 < (failing i).code code) : Uses m code r fresh

section Steps
variable {m : Memory} {s : TaskQueues Callback} {code : Code} {x : Choice} {r : EngineStep}

theorem Begins.uses {b identity : ℕ} {provider : Provider}
    (h : Begins m s b identity provider r) : ∃ fresh, r.mem.log = fresh ++ m.log ∧
      ((∀ k, provider ≠ .runSync k) ∧ (∀ e ∈ fresh, e.context = none) ∨
        ∃ k, provider = .runSync k ∧
          ((∃ i, r.mem.Runs i k) ∧ (∀ e ∈ fresh, e.context = none) ∨
            ∃ e, e.context = none ∧ fresh = [.released k, e] ∧ r.mem.states = m.states)) := by
  cases h with
  | rejected | unrouted =>
    cases provider with
    | runSync k => exact ⟨[.released k, _], rfl, .inr ⟨k, rfl, .inr ⟨_, rfl, rfl, rfl⟩⟩⟩
    | _ => exact ⟨[_], rfl, .inl (by simp [Event.context])⟩
  | @parked route q routed state hb hn hroute hq hm hstate =>
    have hlog : (routed.park state).log = [.began m.states.length b] ++ m.log := by
      subst hm hstate
      simp
    have hp : state.provider = provider := by rw [hstate]
    have hs : (routed.park state).states[m.states.length]? = some state := by
      rw [hm]
      simp
    refine ⟨_, hlog, ?_⟩
    by_cases hk : ∀ k, provider ≠ .runSync k
    · exact .inl ⟨hk, by simp [Event.context]⟩
    · simp only [not_forall, not_not] at hk
      obtain ⟨k, hk⟩ := hk
      exact .inr ⟨k, hk, .inl ⟨⟨m.states.length, state, hs, hp.trans hk⟩, by simp [Event.context]⟩⟩

theorem Invokes.uses {i : ℕ} {state : AsyncState} {op : XAsyncOp} (hs : m.states[i]? = some state)
    (h : Invokes m i state op r) :
    ∃ fresh, r.mem.log = fresh ++ m.log ∧ Uses m (.invoke i op) r fresh := by
  cases h with
  | game | runLost | runBegin | runDoWork | runOther =>
    exact ⟨[_], rfl, .nothing rfl (by simp [Event.context])⟩
  | @runSyncBegin k q helper admin hp hh =>
    refine ⟨[.touched k, _], rfl, .begins ⟨state, hs, hp⟩ rfl ?_⟩
    simp [Event.context]
  | @runSyncDoWork k helper hp hh =>
    refine ⟨[.touched k, _], rfl, .operation (k := .doWork) ⟨state, hs, hp⟩ (by simp) ?_ ?_⟩
    · simp [pendingLoad]
    · simp [Event.context]
  | @runSyncGetResult k helper hp hh =>
    refine ⟨[.touched k, _], rfl, .operation (k := .getResult) ⟨state, hs, hp⟩ (by simp) ?_ ?_⟩
    · simp [pendingLoad]
    · simp [Event.context]
  | @runSyncCancel k helper hp hh =>
    refine ⟨[.touched k, _], rfl, .operation (k := .cancel) ⟨state, hs, hp⟩ (by simp) ?_ ?_⟩
    · simp [pendingLoad]
    · simp [Event.context]
  | @runSyncCleanup k helper hp hh =>
    exact ⟨[.released k, _], rfl, .cleanup ⟨state, hs, hp⟩ rfl⟩

theorem Steps.uses (h : Steps m s code x r) :
    ∃ fresh, r.mem.log = fresh ++ m.log ∧ Uses m code r fresh := by
  cases h with
  | begin h | run h =>
    obtain ⟨fresh, hl, hu⟩ := h.uses
    rcases hu with ⟨-, hf⟩ | ⟨k, hk, -⟩
    · exact ⟨fresh, hl, .nothing h.helpers hf⟩
    · simp at hk
  | @runSync b size r hb h =>
    obtain ⟨fresh, hl, hu⟩ := h.uses
    have hlen : (resume r).mem.helpers.length = m.helpers.length + 1 := by
      change r.mem.helpers.length = _
      rw [h.helpers]
      simp [Memory.newHelper]
    rcases hu with ⟨hk, -⟩ | ⟨k, hk, ⟨⟨i, hr⟩, hf⟩ | ⟨e, he, rfl, hs⟩⟩
    · exact absurd rfl (hk _)
    · exact ⟨fresh, hl, .makes hr (Provider.runSync.inj hk).symm hf⟩
    · exact ⟨_, hl, .rejects he (Provider.runSync.inj hk).symm hlen hs⟩
  | invoke hs hi => exact hi.uses hs
  | @beginReturn i hr state x hs =>
    cases hp : state.provider with
    | runSync k =>
      refine ⟨[.released k, .returned _], by simp [Memory.beginReturned]; rfl,
        .beginReturns (i := i) ⟨state, hs, hp⟩ ?_⟩
      simp [XAsync.failing]
    | game | run =>
      exact ⟨[.returned _], by simp [Memory.beginReturned]; rfl, .nothing rfl (by simp [Event.context])⟩
  | @workCanceled k b helper x hh | @work k b helper x hh =>
    refine ⟨[.touched k], rfl, .worker (h := k) (by simp [XAsync.working]) ?_⟩
    simp [Event.context]
  | @futureOk k b value helper hh | @futureErr k b hr helper hh =>
    refine ⟨[.touched k, _], rfl, .worker (h := k) (by simp [XAsync.working]) ?_⟩
    simp [Event.context]
  | @completeBlock k b i helper x hh hb | @completeNothing k b helper x hh hb =>
    refine ⟨[_, .touched k], rfl, .worker (h := k) (by simp [XAsync.working]) ?_⟩
    simp [Event.context]
  | cleanedUp => exact ⟨[], by simp, .nothing (by simp) (by simp)⟩
  | nullProvider | ret | begun | announce | completionCallback =>
    exact ⟨[_], rfl, .nothing rfl (by simp [Event.context])⟩
  | _ => exact ⟨[], rfl, .nothing rfl (by simp)⟩

/-- Only `cleanup`, which sets the flag, makes `Cleanup` pending. -/
theorem Steps.pendingCleanup (h : Steps m s code x r) (i : ℕ) :
    (pendingLoad .cleanup i).asked r ≤ (pendingLoad .cleanup i).code code ∨
      ∃ state, m.states[i]? = some state ∧ state.cleanedUp = false := by
  have hbegin : ∀ {b identity : ℕ} {provider : Provider} {r : EngineStep} {n : Memory},
      Begins n s b identity provider r → (pendingLoad .cleanup i).asked (resume r) = 0 := by
    intro b identity provider r n hb
    rw [asked_resume _ (pendingLoad_sees .cleanup i), hb.asked _ fun _ => rfl]
  cases h with
  | queue hr =>
    subst hr
    left
    rw [asked_queue _ (pendingLoad_sees .cleanup i)]
    exact Nat.zero_le _
  | begin h | run h | runSync _ h => exact .inl (hbegin h ▸ Nat.zero_le _)
  | @invoke j op state r x hs hi =>
    left
    have hp := hi.pending .cleanup i
    simp only [reduceCtorEq, false_and, and_false, if_false] at hp
    exact hp.trans (Nat.zero_le _)
  | unresolved =>
    left
    simp [Load.asked, Load.instr, pendingLoad, Function.comp_def]
  | @cleanup j state x hs hc =>
    by_cases hj : j = i
    · subst hj
      exact .inr ⟨state, hs, hc⟩
    · left
      simp [Load.asked, Load.instr, pendingLoad, hj]
  | _ =>
    left
    simp [Load.asked, Load.instr, Load.submission, pendingLoad]

/-- A context is released with the `Cleanup` of its call, and a context whose call was not accepted
at once. -/
structure Released (m : Memory) (closing : ℕ → ℕ) : Prop where
  last : ∀ h, ReleasedLast h m.log
  made : ∀ h, .released h ∈ m.log → h < m.helpers.length
  lost : ∀ h, h < m.helpers.length → (∀ i, ¬ m.Runs i h) → .released h ∈ m.log
  closed : ∀ i h state, m.states[i]? = some state → state.provider = .runSync h →
    .released h ∈ m.log → state.cleanedUp = true ∧ closing i = 0

theorem Released.mono {L L' : ℕ → ℕ} (hI : Released m L) (hL : ∀ i, L' i ≤ L i) :
    Released m L' := by
  refine ⟨hI.last, hI.made, hI.lost, fun i h state hi hp hr => ?_⟩
  obtain ⟨hc, hz⟩ := hI.closed i h state hi hp hr
  exact ⟨hc, Nat.le_zero.mp (hz ▸ hL i)⟩

/-- The flag of a call is not taken back. -/
theorem Steps.stays_clean (h : Steps m s code x r) {i : ℕ} {old new : AsyncState}
    (ho : m.states[i]? = some old) (hc : old.cleanedUp = true)
    (hn : r.mem.states[i]? = some new) : new.cleanedUp = true := by
  rcases h.state hn with ⟨old', ho', -, hflag | ⟨-, hopen, -⟩⟩ | ⟨hlast, -⟩
  · rw [ho, Option.some.injEq] at ho'
    rw [hflag, ← ho', hc]
  · rw [ho, Option.some.injEq] at ho'
    simp [← ho', hc] at hopen
  · have hlt := (List.getElem?_eq_some_iff.mp ho).1
    omega

/-- A call whose context is released stays cleaned up, with nothing pending. -/
theorem Released.stays {L L' : ℕ → ℕ} (h : Steps m s code x r) (hI : Released m L)
    (hL : ∀ i, L' i ≤ L i ∨ ∃ state, m.states[i]? = some state ∧ state.cleanedUp = false)
    {i k : ℕ} {new : AsyncState} (hi : r.mem.states[i]? = some new)
    (hp : new.provider = .runSync k) (hk : .released k ∈ m.log) :
    new.cleanedUp = true ∧ L' i = 0 := by
  have hlt := hI.made k hk
  rcases h.runs ⟨new, hi, hp⟩ with ⟨old, ho, hpo⟩ | ⟨-, rfl, -⟩
  · obtain ⟨hc, hz⟩ := hI.closed i k old ho hpo hk
    refine ⟨h.stays_clean ho hc hi, ?_⟩
    rcases hL i with hle | ⟨state, hs, hopen⟩
    · omega
    · rw [ho, Option.some.injEq] at hs
      simp [← hs, hc] at hopen
  · omega

/-- The rule for a step that releases nothing and uses at most one context, a held one. -/
theorem Released.used {L L' : ℕ → ℕ} {fresh : List Event} (used : Option ℕ)
    (h : Steps m s code x r) (hI : Released m L) (hl : r.mem.log = fresh ++ m.log)
    (hf : ∀ e ∈ fresh, (∃ k ∈ used, e.context = some k ∧ e ≠ .released k) ∨ e.context = none)
    (hu : ∀ k ∈ used, .released k ∉ m.log)
    (hn : ∀ k, m.helpers.length ≤ k → k < r.mem.helpers.length → ∃ i, r.mem.Runs i k)
    (hL : ∀ i, L' i ≤ L i ∨ ∃ state, m.states[i]? = some state ∧ state.cleanedUp = false) :
    Released r.mem L' := by
  have hnot : ∀ k, .released k ∉ fresh := by
    intro k hk
    rcases hf _ hk with ⟨j, -, hj, he⟩ | he
    · simp only [Event.context, Option.some.injEq] at hj
      exact he (hj ▸ rfl)
    · simp [Event.context] at he
  have hmem : ∀ k, .released k ∈ r.mem.log ↔ .released k ∈ m.log := by
    intro k
    rw [hl, List.mem_append]
    exact ⟨fun hk => hk.resolve_left (hnot k), .inr⟩
  refine ⟨fun k => ?_, fun k hk => ?_, fun k hk hr => ?_, fun i k new hi hp hk => ?_⟩
  · rw [hl]
    refine (hI.last k).append (fun e he hek => hnot k (hek ▸ he)) fun hk e he hec => ?_
    rcases hf e he with ⟨j, hj, hej, -⟩ | hnone
    · rw [hec, Option.some.injEq] at hej
      exact hu j hj (hej ▸ hk)
    · simp [hnone] at hec
  · have hlt := hI.made k ((hmem k).mp hk)
    rcases h.helpers with he | ⟨-, he⟩ <;> omega
  · refine (hmem k).mpr (hI.lost k ?_ fun i hi => hr i (h.keeps_runs hi))
    by_contra hge
    obtain ⟨i, hi⟩ := hn k (by omega) hk
    exact hr i hi
  · exact hI.stays h hL hi hp ((hmem k).mp hk)

/-- `Cleanup` frees the context of its call. -/
theorem Released.cleanup {L L' : ℕ → ℕ} {i k : ℕ} (h : Steps m s (.invoke i .cleanup) x r)
    (howners : Owners m) (hI : Released m L) (hr : m.Runs i k) (hpend : L i ≠ 0) (hdone : L' i = 0)
    (hflag : ∀ state, m.states[i]? = some state → state.cleanedUp = true)
    (hl : r.mem.log = [.released k, .invoked i .cleanup] ++ m.log) (hL : ∀ j, j ≠ i → L' j ≤ L j) :
    Released r.mem L' := by
  obtain ⟨state, hs, hp⟩ := hr
  have hlen : r.mem.helpers.length = m.helpers.length := by
    rcases h.helpers with he | ⟨hg, -⟩
    · exact he
    · simp at hg
  have hfree : .released k ∉ m.log := by
    intro hk
    exact hpend (hI.closed i k state hs hp hk).2
  have hmem : ∀ j, .released j ∈ r.mem.log → j = k ∨ .released j ∈ m.log := by
    intro j hj
    simpa [hl] using hj
  refine ⟨fun j => ?_, fun j hj => ?_, fun j hj hn => ?_, fun j j' new hj hp' hk => ?_⟩
  · rw [hl]
    by_cases hjk : j = k
    · subst hjk
      exact (hI.last j).release rfl hfree
    · refine (hI.last j).append ?_ fun _ e he => ?_
      · simp [Ne.symm hjk]
      · simp only [List.mem_cons, List.not_mem_nil, or_false] at he
        rcases he with rfl | rfl <;> simp [Event.context, Ne.symm hjk]
  · rw [hlen]
    rcases hmem j hj with rfl | hj
    · exact howners.made i j ⟨state, hs, hp⟩
    · exact hI.made j hj
  · rw [hl]
    refine List.mem_append_right _ (hI.lost j (hlen ▸ hj) fun i' hi' => ?_)
    exact hn i' (h.keeps_runs hi')
  · rcases h.runs ⟨new, hj, hp'⟩ with hold | ⟨-, -, hne⟩
    · obtain ⟨old, ho, hpo⟩ := hold
      by_cases hji : j = i
      · subst hji
        exact ⟨h.stays_clean ho (hflag old ho) hj, hdone⟩
      · rcases hmem j' hk with rfl | hk
        · exact absurd (howners.unique j i j' ⟨old, ho, hpo⟩ ⟨state, hs, hp⟩) hji
        · obtain ⟨hc, hz⟩ := hI.closed j j' old ho hpo hk
          exact ⟨h.stays_clean ho hc hj, Nat.le_zero.mp (hz ▸ hL j hji)⟩
    · omega

/-- A context whose call is not accepted goes the way it came. -/
theorem Released.rejected {L L' : ℕ → ℕ} {e : Event} (h : Steps m s code x r) (hI : Released m L)
    (he : e.context = none) (hlen : r.mem.helpers.length = m.helpers.length + 1)
    (hl : r.mem.log = [.released m.helpers.length, e] ++ m.log)
    (hnew : ∀ i, ¬ r.mem.Runs i m.helpers.length)
    (hL : ∀ i, L' i ≤ L i ∨ ∃ state, m.states[i]? = some state ∧ state.cleanedUp = false) :
    Released r.mem L' := by
  have hfree : .released m.helpers.length ∉ m.log := by
    intro hk
    have hlt := hI.made _ hk
    omega
  have hmem : ∀ j, .released j ∈ r.mem.log → j = m.helpers.length ∨ .released j ∈ m.log := by
    intro j hj
    rw [hl] at hj
    simp only [List.cons_append, List.nil_append, List.mem_cons, Event.released.injEq] at hj
    rcases hj with hj | hj | hj
    · exact .inl hj
    · subst hj
      simp [Event.context] at he
    · exact .inr hj
  refine ⟨fun j => ?_, fun j hj => ?_, fun j hj hn => ?_, fun j j' new hj hp hk => ?_⟩
  · rw [hl]
    by_cases hjk : j = m.helpers.length
    · subst hjk
      exact (hI.last _).release he hfree
    · refine (hI.last j).append ?_ fun _ e' he' => ?_
      · simp only [List.mem_cons, List.not_mem_nil, or_false]
        rintro e' (rfl | rfl)
        · simp [Ne.symm hjk]
        · rintro rfl
          simp [Event.context] at he
      · simp only [List.mem_cons, List.not_mem_nil, or_false] at he'
        rcases he' with rfl | rfl
        · simp [Event.context, Ne.symm hjk]
        · simp [he]
  · rcases hmem j hj with rfl | hj
    · omega
    · have hlt := hI.made j hj
      omega
  · rw [hl]
    by_cases hjk : j = m.helpers.length
    · subst hjk
      exact List.mem_cons_self
    · refine List.mem_append_right _ (hI.lost j (by omega) fun i hi => ?_)
      exact hn i (h.keeps_runs hi)
  · rcases hmem j' hk with rfl | hk
    · exact absurd ⟨new, hj, hp⟩ (hnew j)
    · exact hI.stays h hL hj hp hk

/-- `Cleanup` while it is pending takes part in the cleanup. -/
theorem pendingCleanup_le_closing (i : ℕ) (s : Core Callback)
    (fs : Multiset (Frame Callback Code)) :
    (pendingLoad .cleanup i).total s fs ≤ (closing i).total s fs := by
  refine Load.total_le (fun callback => ?_) (fun code => ?_) s fs
  · cases callback <;> simp [pendingLoad, closing]
  · cases code with
    | invoke j op => cases op <;> simp [pendingLoad, closing]
    | _ => simp [pendingLoad]

theorem released_step {s : World Engine} {R : Multiset (Frame Callback Code)}
    (h : Steps s.mem s.toTaskQueues code x r) (howners : Owners s.mem)
    (hfail : ∀ i k, s.mem.Runs i k → (failing i).code code = 0)
    (hparked : Parked s.mem fun i => (closing i).total s.toCore R + (closing i).code code)
    (hunheld : Unheld s.mem fun k => k.load.total s.toCore R + k.load.code code)
    (hI : Released s.mem fun i =>
      (pendingLoad .cleanup i).total s.toCore R + (pendingLoad .cleanup i).code code) :
    Released r.mem fun i =>
      (pendingLoad .cleanup i).total s.toCore R + (pendingLoad .cleanup i).asked r := by
  obtain ⟨fresh, hl, hu⟩ := h.uses
  have hL : ∀ i, (pendingLoad .cleanup i).total s.toCore R + (pendingLoad .cleanup i).asked r ≤
      (pendingLoad .cleanup i).total s.toCore R + (pendingLoad .cleanup i).code code ∨
        ∃ state, s.mem.states[i]? = some state ∧ state.cleanedUp = false :=
    fun i => (h.pendingCleanup i).imp_left (Nat.add_le_add_left · _)
  have hold : code ≠ .game → ∀ k, s.mem.helpers.length ≤ k → k < r.mem.helpers.length →
      ∃ i, r.mem.Runs i k := by
    intro hg k hk hk'
    rcases h.helpers with he | ⟨hgame, -⟩
    · omega
    · exact absurd hgame hg
  cases hu with
  | nothing hlen hf =>
    exact Released.used none h hI hl (fun e he => .inr (hf e he)) (by simp)
      (fun k hk hk' => by omega) hL
  | @worker k _ hw hf =>
    -- its call is not cleaned up, or nobody would hold the context
    refine Released.used (some k) h hI hl ?_ ?_ (hold ?_) hL
    · exact fun e he => (hf e he).imp_left fun he => ⟨k, rfl, he⟩
    · rintro _ ⟨⟩ hk
      have hzero : (working k).total s.toCore R + (working k).code code = 0 := by
        by_cases hr : ∃ i, s.mem.Runs i k
        · obtain ⟨i, state, hs, hp⟩ := hr
          obtain ⟨hc, -⟩ := hI.closed i k state hs hp hk
          exact (hunheld.closed i k state hs hp hc).1
        · exact hunheld.lost k (not_exists.mp hr)
      omega
    · rintro rfl
      simp [working] at hw
  | @operation i k p _ hr hne hp hf =>
    refine Released.used (some k) h hI hl ?_ ?_ (hold ?_) hL
    · exact fun e he => (hf e he).imp_left fun he => ⟨k, rfl, he⟩
    · rintro _ ⟨⟩ hk
      obtain ⟨state, hs, hprov⟩ := hr
      obtain ⟨hc, -⟩ := hI.closed i k state hs hprov hk
      have hzero := (hunheld.closed i k state hs hprov hc).2.2 p hne
      change (pendingLoad p i).total s.toCore R + (pendingLoad p i).code code = 0 at hzero
      omega
    · rintro rfl
      simp [pendingLoad] at hp
  | @makes i k _ hr hn hf =>
    refine Released.used none h hI hl (fun e he => .inr (hf e he)) (by simp) ?_ hL
    intro j hj hj'
    have hjk : j = k := by
      rcases h.helpers with he | ⟨-, he⟩ <;> omega
    exact ⟨i, hjk ▸ hr⟩
  | @begins i k _ hr hc hf =>
    subst hc
    refine Released.used (some k) h hI hl ?_ ?_ (hold (by simp)) hL
    · exact fun e he => (hf e he).imp_left fun he => ⟨k, rfl, he⟩
    · rintro _ ⟨⟩ hk
      obtain ⟨state, hs, hprov⟩ := hr
      obtain ⟨hc, -⟩ := hI.closed i k state hs hprov hk
      have hzero := (hunheld.closed i k state hs hprov hc).2.1
      simp [Holder.load, toBegin] at hzero
  | @cleanup i k hr hc =>
    subst hc
    have hone : (closing i).code (.invoke i .cleanup) = 1 := by simp [closing]
    have hrest : (pendingLoad .cleanup i).total s.toCore R = 0 := by
      have honce := hparked.once i
      have hle := pendingCleanup_le_closing i s.toCore R
      omega
    have hcode : ∀ j, j ≠ i → (pendingLoad .cleanup j).asked r = 0 := by
      intro j hj
      rcases h.pendingCleanup j with hle | ⟨state, hs, hopen⟩
      · simpa [pendingLoad, Ne.symm hj] using hle
      · cases h with
        | invoke _ hi =>
          have hp := hi.pending .cleanup j
          simpa using hp
    have hdone : (pendingLoad .cleanup i).asked r = 0 := by
      cases h with
      | invoke _ hi =>
        have hp := hi.pending .cleanup i
        simpa using hp
    refine Released.cleanup h howners hI hr ?_ ?_ ?_ hl fun j hj => ?_
    · simp [pendingLoad]
    · omega
    · intro state hs
      obtain ⟨old, ho, hc, -⟩ := hparked.closing i (by omega)
      rw [hs, Option.some.injEq] at ho
      exact ho ▸ hc
    · have hz := hcode j hj
      omega
  | @rejects k e he hn hlen hs =>
    subst hn
    refine Released.rejected h hI he hlen hl (fun i hr => ?_) hL
    have hr' : s.mem.Runs i s.mem.helpers.length := by
      obtain ⟨state, hst, hp⟩ := hr
      exact ⟨state, hs ▸ hst, hp⟩
    have hlt := howners.made i _ hr'
    omega
  | @beginReturns i k _ hr hc =>
    have hz := hfail i k hr
    omega

/-- Only the invocation sends `Cleanup`. -/
theorem Steps.sends_cleanup (h : Steps m s code x r) {i : ℕ} (hop : .cleanup ∈ r.mem.ops i) :
    .cleanup ∈ m.ops i ∨ code = .invoke i .cleanup ∧ ∃ state, m.states[i]? = some state := by
  have hbegin : ∀ {b identity : ℕ} {provider : Provider} {r : EngineStep} {n : Memory},
      n.log = m.log → Begins n s b identity provider r → .cleanup ∈ r.mem.ops i →
        .cleanup ∈ m.ops i := by
    intro b identity provider r n hn hb hop
    have hsame : n.ops i = m.ops i := by rw [Memory.ops, hn, Memory.ops]
    rw [← hsame]
    cases hb with
    | rejected => simpa [Memory.beginReturned_ops] using hop
    | unrouted =>
      rw [Memory.beginReturned_ops] at hop
      exact hop
    | @parked route q routed state hb hn hroute hq hm hstate =>
      change .cleanup ∈ (routed.park state).ops i at hop
      rw [park_ops, hm] at hop
      exact hop
  cases h with
  | begin h | run h => exact .inl (hbegin rfl h hop)
  | runSync _ h => exact .inl (hbegin (n := m.newHelper _) rfl h hop)
  | @invoke j op state r x hs hi =>
    rw [hi.ops] at hop
    split at hop
    · rename_i hj
      subst hj
      rcases List.mem_cons.mp hop with rfl | hop
      · exact .inr ⟨rfl, state, hs⟩
      · exact .inl hop
    · exact .inl hop
  | beginReturn => exact .inl (by simpa [Memory.beginReturned_ops] using hop)
  | cleanedUp => exact .inl (by simpa [Memory.ops] using hop)
  | _ => exact .inl (by simpa [Memory.ops, Event.operation] using hop)

end Steps

/-! ## Runs -/

section Runs
variable {c : Config (World Engine) (Frame Callback Code)} {pool n : ℕ}
  {G : Guard (World Engine) (Frame Callback Code) (Option Choice)}

theorem reaches_owners (h : (machine Engine).Reaches G (Engine.start pool n) c) :
    Owners c.shared.mem := by
  refine memory_invariant (J := fun _ _ => True) h (fun _ _ => trivial) ?_ ?_
  · refine ⟨fun i k hr => ?_, fun i j k hr => ?_⟩ <;>
      (obtain ⟨state, hs, -⟩ := hr; simp [Engine.start] at hs)
  · exact fun s R code choice r _ _ hs hI => owners_step hs hI

/-- `XAsyncBegin` does not fail a call of `run_sync` that it has taken. -/
theorem reaches_failing (h : (machine Engine).Reaches G (Engine.start pool n) c) :
    ∀ i, (∀ state, c.shared.mem.states[i]? = some state → ∃ k, state.provider = .runSync k) →
      (failing i).total c.shared.toCore c.frames = 0 := by
  refine engine_invariant (J := fun _ _ => True) (I := fun m L => ∀ i,
    (∀ state, m.states[i]? = some state → ∃ k, state.provider = .runSync k) → L i = 0)
    h failing_sees (fun _ _ => trivial) ?_ ?_ ?_
  · exact fun i _ => start_total (failing_sees i) pool n
  · exact fun m L L' hL hI i hi => Nat.le_zero.mp (hI i hi ▸ hL i)
  · intro s R code choice r _ _ hs hI i hi
    have hz := hI i fun state hst => by
      obtain ⟨new, hn, hsame⟩ := hs.keeps hst
      obtain ⟨k, hk⟩ := hi new hn
      exact ⟨k, hsame.provider.symm.trans hk⟩
    rcases hs.failing i with hle | ⟨state, hst, hne⟩
    · exact Nat.le_zero.mp (hz ▸ Nat.add_le_add_left hle _)
    · obtain ⟨k, hk⟩ := hi state hst
      exact absurd hk (hne k)

theorem reaches_settled (h : (machine Engine).Reaches G (Engine.start pool n) c) :
    Settled c.shared.mem fun i => (taking i).total c.shared.toCore c.frames := by
  refine engine_invariant (J := fun s fs => Owners s.mem ∧ ∀ i k, s.mem.Runs i k →
    (failing i).total s.toCore fs = 0) h taking_sees ?_ ?_ ?_ ?_
  · intro d hd
    refine ⟨reaches_owners hd, fun i k hr => reaches_failing hd i fun state hs => ?_⟩
    obtain ⟨state', hs', hp⟩ := hr
    rw [hs, Option.some.injEq] at hs'
    exact ⟨k, hs' ▸ hp⟩
  · refine ⟨fun i _ => start_total (taking_sees i) pool n, fun i k state hs => ?_⟩
    simp [Engine.start] at hs
  · exact fun m L L' hL hI => hI.of_eq rfl hL
  · intro s R code choice r _ hJ hs hI
    refine settled_step hs (fun i k hr => ?_) hI
    have hz := hJ.2 i k hr
    rw [total_client] at hz
    omega

theorem reaches_unheld (h : (machine Engine).Reaches contextsOutlive (Engine.start pool n) c) :
    Unheld c.shared.mem fun k => k.load.total c.shared.toCore c.frames := by
  refine engine_invariant (J := fun s _ => Owners s.mem ∧ ∀ (i h : ℕ) (state : AsyncState),
      s.mem.states[i]? = some state → state.provider = .runSync h → state.cleanedUp = true →
        state.status ≠ E_PENDING)
    h Holder.load_sees ?_ ?_ ?_ ?_
  · intro d hd
    refine ⟨reaches_owners hd, fun i k state hs hp hc => ?_⟩
    exact (reaches_settled hd).settled i k state hs hp (.inl hc)
  · refine ⟨fun i k state hs => ?_, fun k _ => start_total (working_sees k) pool n⟩
    simp [Engine.start] at hs
  · intro m L L' hL hI
    refine ⟨fun i k state hs hp hc => ?_, fun k hk => Nat.le_zero.mp (hI.lost k hk ▸ hL _)⟩
    obtain ⟨hw, hsent, hpend⟩ := hI.closed i k state hs hp hc
    exact ⟨Nat.le_zero.mp (hw ▸ hL _), Nat.le_zero.mp (hsent ▸ hL _),
      fun p hne => Nat.le_zero.mp (hpend p hne ▸ hL _)⟩
  · exact fun s R code choice r hg hJ hs hI => unheld_step hs hg hJ.1 hJ.2 hI

theorem reaches_released (h : (machine Engine).Reaches contextsOutlive (Engine.start pool n) c) :
    Released c.shared.mem fun i =>
      (pendingLoad .cleanup i).total c.shared.toCore c.frames := by
  refine engine_invariant (J := fun s fs => Owners s.mem ∧ (∀ i k, s.mem.Runs i k →
      (failing i).total s.toCore fs = 0) ∧ (Parked s.mem fun i => (closing i).total s.toCore fs) ∧
      Unheld s.mem fun k => k.load.total s.toCore fs)
    h (fun i => pendingLoad_sees .cleanup i) ?_ ?_ ?_ ?_
  · intro d hd
    refine ⟨reaches_owners hd, fun i k hr => reaches_failing hd i fun state hs => ?_, parked hd,
      reaches_unheld hd⟩
    obtain ⟨state', hs', hp⟩ := hr
    rw [hs, Option.some.injEq] at hs'
    exact ⟨k, hs' ▸ hp⟩
  · refine ⟨fun k => List.Pairwise.nil, fun k hk => ?_, fun k hk => ?_, fun i k state hs => ?_⟩
    · simp [Engine.start] at hk
    · simp [Engine.start] at hk
    · simp [Engine.start] at hs
  · exact fun m L L' hL hI => hI.mono hL
  · rintro s R code choice r _ ⟨howners, hfail, hparked, hunheld⟩ hs hI
    refine released_step hs howners (fun i k hr => ?_) ?_ ?_ hI
    · have hz := hfail i k hr
      rw [total_client] at hz
      omega
    · simpa only [total_client] using hparked
    · simpa only [total_client] using hunheld

/-- `Cleanup` is sent and the context freed in one. -/
theorem sent_released (h : (machine Engine).Reaches G (Engine.start pool n) c) :
    (∀ i, c.shared.mem.states.length ≤ i → .cleanup ∉ c.shared.mem.ops i) ∧
    ∀ i k, c.shared.mem.Runs i k → .cleanup ∈ c.shared.mem.ops i →
      .released k ∈ c.shared.mem.log := by
  refine memory_invariant (J := fun _ _ => True)
    (I := fun m => (∀ i, m.states.length ≤ i → .cleanup ∉ m.ops i) ∧
      ∀ i k, m.Runs i k → .cleanup ∈ m.ops i → .released k ∈ m.log)
    h (fun _ _ => trivial) ?_ ?_
  · exact ⟨fun i _ => by simp [Engine.start, Memory.ops],
      fun i k _ hop => by simp [Engine.start, Memory.ops] at hop⟩
  · rintro s R code choice r _ _ hs ⟨hunborn, hI⟩
    refine ⟨fun i hi hop => ?_, fun i k hr hop => ?_⟩
    · rcases hs.sends_cleanup hop with hop | ⟨-, state, hst⟩
      · exact hunborn i (hs.length_le.trans hi) hop
      · have hlt := (List.getElem?_eq_some_iff.mp hst).1
        have hlen := hs.length_le
        omega
    · rcases hs.runs hr with hold | ⟨rfl, -, -⟩
      · rcases hs.sends_cleanup hop with hop | ⟨rfl, -⟩
        · exact hs.log.subset (hI i k hold hop)
        · obtain ⟨state, hst, hp⟩ := hold
          cases hs with
          | invoke hs' hi =>
            rw [hst, Option.some.injEq] at hs'
            subst hs'
            cases hi with
            | runSyncCleanup hp' hh =>
              rw [hp, Provider.runSync.injEq] at hp'
              subst hp'
              exact List.mem_cons_self
            | _ => simp_all
      · rcases hs.sends_cleanup hop with hop | ⟨-, state, hst⟩
        · exact absurd hop (hunborn _ le_rfl)
        · simp at hst

theorem count_released {k : ℕ} (h : (machine Engine).Reaches contextsOutlive (Engine.start pool n) c)
    (hr : .released k ∈ c.shared.mem.log) : c.shared.mem.log.count (.released k) = 1 := by
  have hle := ((reaches_released h).last k).count_le
  have hpos := List.count_pos_iff.mpr hr
  omega

/-- A block that has let a call go has sent its `Cleanup`. -/
theorem let_go_sent (h : (machine Engine).Reaches G (Engine.start pool n) c) {i : ℕ}
    {state : AsyncState} (hs : c.shared.mem.states[i]? = some state)
    (hgone : c.shared.mem.stateOf state.block ≠ some i) : .cleanup ∈ c.shared.mem.ops i := by
  have hpark := parked h
  have hin : (c.shared.mem.blocks state.block).internal ≠ some i := by
    intro hin
    have hb := (hpark.parked _ i hin).1
    exact hgone (by simp [Memory.stateOf, hb, hin])
  have hc : state.cleanedUp = true := by
    by_contra hopen
    exact hin (hpark.alive i state hs (by simpa using hopen))
  refine (cleanup_sent h i state hs hc).resolve_right fun hmem => ?_
  have hle := le_weight (w := (closing i).frame) hmem
  have hpos : 0 < (closing i).total c.shared.toCore c.frames := by
    simp only [Load.frame, closing, Load.total, if_true] at hle ⊢
    omega
  obtain ⟨old, ho, -, hold⟩ := hpark.closing i hpos
  rw [hs, Option.some.injEq] at ho
  exact hin (ho ▸ hold)

/-- Nothing uses a context after its release and it is released once: at once when `XAsyncBegin` has
not taken the call, and with the cleanup otherwise, not before it starts and by the time the block
lets the call go. -/
theorem context_released_once (h : (machine Engine).Reaches contextsOutlive (Engine.start pool n) c)
    {k : ℕ} (hk : k < c.shared.mem.helpers.length) :
    ReleasedLast k c.shared.mem.log ∧
    ((∀ i, ¬ c.shared.mem.Runs i k) → c.shared.mem.log.count (.released k) = 1) ∧
    ∀ i state, c.shared.mem.states[i]? = some state → state.provider = .runSync k →
      (state.cleanedUp = false → c.shared.mem.log.count (.released k) = 0) ∧
      (c.shared.mem.stateOf state.block ≠ some i →
        c.shared.mem.log.count (.released k) = 1) := by
  have hI := reaches_released h
  refine ⟨hI.last k, fun hn => count_released h (hI.lost k hk hn), fun i state hs hp => ⟨?_, ?_⟩⟩
  · intro hopen
    refine List.count_eq_zero.mpr fun hr => ?_
    have hc := (hI.closed i k state hs hp hr).1
    simp [hopen] at hc
  · intro hgone
    exact count_released h ((sent_released h).2 i k ⟨state, hs, hp⟩ (let_go_sent h hs hgone))

end Runs

/-- A call of `run_sync` whose result is taken. -/
theorem context_released_once_taken :
    ∃ c, (machine Engine).Reaches contextsOutlive (Engine.start 2 1) c ∧
      ReleasedLast 0 c.shared.mem.log ∧ c.shared.mem.log.count (.released 0) = 1 := by
  have h : ((machine Engine).run contextsOutlive
      ([Engine.does (.runSync 1 8)] ++ Engine.steps 1 6 ++ Engine.steps 2 4 ++
        [(2, some (.produces 7))] ++ Engine.steps 2 3 ++
        [Engine.does (.xasync 1 (.getResult 0 8))] ++ Engine.steps 1 7)
      (Engine.start 2 1)).any (fun c => decide (0 < c.shared.mem.helpers.length ∧
        ∃ state ∈ c.shared.mem.states[0]?, state.provider = .runSync 0 ∧
          c.shared.mem.stateOf state.block ≠ some 0)) = true := by
    decide +kernel
  obtain ⟨c, hr, hc⟩ := Machine.Reaches.of_run_any h
  obtain ⟨hlen, state, hs, hp, hgone⟩ := of_decide_eq_true hc
  have hreleased := context_released_once hr hlen
  exact ⟨c, hr, hreleased.1, (hreleased.2.2 0 state hs hp).2 hgone⟩

/-- The pass that `XAsyncCancel` queues completes the call before its worker has come to the
future; a poll then frees the context, and the worker uses it. -/
theorem worker_uses_released_context :
    ∃ c, (machine Engine).Reaches anyStep (Engine.start 2 1) c ∧
      ¬ ReleasedLast 0 c.shared.mem.log := by
  have h : ((machine Engine).run anyStep
      ([Engine.does (.runSync 1 8)] ++ Engine.steps 1 6 ++ [Engine.does (.xasync 1 .cancel)] ++
        Engine.steps 1 7 ++ Engine.steps 4 5 ++ [Engine.does (.xasync 1 (.getStatus false))] ++
        Engine.steps 1 3 ++ Engine.steps 2 3)
      (Engine.start 2 1)).any (fun c => decide (¬ ReleasedLast 0 c.shared.mem.log)) = true := by
    decide +kernel
  obtain ⟨c, hr, hc⟩ := Machine.Reaches.of_run_any h
  exact ⟨c, hr, of_decide_eq_true hc⟩

end XGameRuntime.XAsync
