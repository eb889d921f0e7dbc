import XGameRuntime.XStore.Enumeration

/-! # What an enumeration visits

In any run, the callback of an enumeration is called with just what the plain loop over the service's
answer gives for the verdicts it returns, and can read its product for as long as it runs.
-/

namespace XGameRuntime.XStore
open Concurrency Counted
set_option autoImplicit false

variable {F R : Type}

/-! ## Frames -/

def Code.query : Code → Option ℕ
  | .callback _ query _ => some query
  | _ => none

/-- The references to a query that a frame holds. -/
def Code.holds (query : ℕ) : Code → ℕ
  | .callback _ q _ => one q query
  | _ => 0

def Code.inCall (call : ℕ) : Code → ℕ
  | .callback c _ _ => one c call
  | _ => 0

theorem inCall_pos {call query i : ℕ} {F' : Multiset Code} (h : .callback call query i ∈ F') :
    0 < weight (Code.inCall call) F' := by
  have hle := le_weight (w := Code.inCall call) h
  rw [Code.inCall, one_self] at hle
  exact hle

/-! ## The invariant -/

/-- What is known of the log, of the table and of the enumerations that are going; `x` is a call that is
being worked on. -/
structure Told (m : Memory F) (F' : Multiset Code) (x : Option ℕ) : Prop where
  tables : ∀ handle q, m.table.queries.handles.get handle = some q →
    ∃ l, .queried handle l ∈ m.log ∧ m.table.Lists q l
  given : ∀ handle l, .queried handle l ∈ m.log → handle < m.table.queries.handles.next
  unique : ∀ handle l l', .queried handle l ∈ m.log → .queried handle l' ∈ m.log → l = l'
  readable : ∀ handle l, .queried handle l ∈ m.log → ∀ p ∈ l, .freed ∉ p.pointers
  fresh : ∀ e ∈ m.log, ∀ call, e.call = some call → call < m.calls
  entered : ∀ call handle handle', .entered call handle ∈ m.log →
    .entered call handle' ∈ m.log → handle = handle'
  told : ∀ call handle, x ≠ some call → .entered call handle ∈ m.log →
    ∃ l, .queried handle l ∈ m.log ∧ visited call m.log = visits l (verdicts call m.log) ∧
      (.returned call ∈ m.log ↔ ended l (verdicts call m.log) = true)
  running : ∀ call q i, .callback call q i ∈ F' → ∃ handle l, .entered call handle ∈ m.log ∧
    .queried handle l ∈ m.log ∧ m.table.Lists q l ∧ i < l.length ∧
      verdicts call m.log = List.replicate i true
  single : ∀ call, weight (Code.inCall call) F' ≤ 1
  looked : ∀ call p earlier, (.looked call p :: earlier) <:+ m.log →
    (visited call earlier).getLast? = some p

/-- The loop of a call is about to go on to entry `i`. -/
structure Ready (m : Memory F) (call q i handle : ℕ) (l : List (Listing F)) : Prop where
  entered : .entered call handle ∈ m.log
  queried : .queried handle l ∈ m.log
  lists : m.table.Lists q l
  bound : i ≤ l.length
  visited : visited call m.log = l.take i
  verdicts : verdicts call m.log = List.replicate i true
  going : .returned call ∉ m.log

section Entries
variable {t : ProductQueryHandleTable F} {q i : ℕ} {l : List (Listing F)}

theorem Lists_entry (h : t.Lists q l) {e : ProductQueryEntry F} (he : t.entry q i = some e) :
    l[i]? = some (e.product.map t.strings.read) := by
  obtain ⟨query, hq, hall⟩ := h
  rw [ProductQueryHandleTable.entry, hq, Option.bind_some] at he
  obtain ⟨hi, rfl⟩ := List.getElem?_eq_some_iff.mp he
  have hlen := hall.length_eq
  have hreads := (hall.get hi (hlen ▸ hi)).reads
  rw [List.getElem?_eq_getElem (hlen ▸ hi)]
  exact congrArg some hreads.symm

theorem Lists_done (h : t.Lists q l) (he : t.entry q i = none) : l.length ≤ i := by
  obtain ⟨query, hq, hall⟩ := h
  rw [ProductQueryHandleTable.entry, hq, Option.bind_some, List.getElem?_eq_none_iff] at he
  exact hall.length_eq ▸ he

end Entries

section Rules
variable {m m' : Memory F} {F' G : Multiset Code} {x : Option ℕ} {call q i handle : ℕ}
  {l : List (Listing F)}

/-- An event that says nothing about the calls that are told of. -/
theorem Told.event (h : Told m F' x) (e : Event F) (htable : m'.table = m.table)
    (hcalls : m'.calls = m.calls) (hlog : m'.log = e :: m.log)
    (hq : ∀ handle l, e ≠ .queried handle l) (hentered : ∀ call handle, e ≠ .entered call handle)
    (hcall : ∀ call, e.call = some call → call < m.calls)
    (hlook : ∀ call p, e = .looked call p → (visited call m.log).getLast? = some p)
    (hkeep : ∀ call, x ≠ some call ∨ 0 < weight (Code.inCall call) F' →
      e.visit call = none ∧ e.keepGoing call = none ∧ e ≠ .returned call) : Told m' F' x := by
  have hold : ∀ e' : Event F, e ≠ e' → (e' ∈ m'.log ↔ e' ∈ m.log) := by
    intro e' hne
    rw [hlog, List.mem_cons]
    exact ⟨fun hm => hm.resolve_left (Ne.symm hne), .inr⟩
  constructor
  · intro handle q hget
    rw [htable] at hget ⊢
    obtain ⟨l, hl, hlists⟩ := h.tables handle q hget
    exact ⟨l, (hold _ (hq handle l)).mpr hl, hlists⟩
  · intro handle l hl
    rw [htable]
    exact h.given handle l ((hold _ (hq handle l)).mp hl)
  · intro handle l l' hl hl'
    exact h.unique handle l l' ((hold _ (hq handle l)).mp hl) ((hold _ (hq handle l')).mp hl')
  · intro handle l hl
    exact h.readable handle l ((hold _ (hq handle l)).mp hl)
  · intro e' he' call hc
    rw [hcalls]
    rw [hlog, List.mem_cons] at he'
    rcases he' with rfl | he'
    · exact hcall call hc
    · exact h.fresh e' he' call hc
  · intro call handle handle' he he'
    exact h.entered call handle handle' ((hold _ (hentered call handle)).mp he)
      ((hold _ (hentered call handle')).mp he')
  · intro call handle hx he
    obtain ⟨hvisit, hgoing, hret⟩ := hkeep call (.inl hx)
    obtain ⟨l, hl, hvisited, hreturned⟩ :=
      h.told call handle hx ((hold _ (hentered call handle)).mp he)
    refine ⟨l, (hold _ (hq handle l)).mpr hl, ?_⟩
    rw [hold _ hret, hlog, visited_cons, verdicts_cons, hvisit, hgoing]
    simpa using ⟨hvisited, hreturned⟩
  · intro call q i hf
    obtain ⟨-, hgoing, -⟩ := hkeep call (.inr (inCall_pos hf))
    obtain ⟨handle, l, he, hl, hlists, hi, hverdicts⟩ := h.running call q i hf
    refine ⟨handle, l, (hold _ (hentered call handle)).mpr he, (hold _ (hq handle l)).mpr hl,
      htable ▸ hlists, hi, ?_⟩
    rw [hlog, verdicts_cons, hgoing]
    simpa using hverdicts
  · exact h.single
  · intro call p earlier hs
    rw [hlog] at hs
    rcases List.suffix_cons_iff.mp hs with heq | hs
    · obtain ⟨rfl, rfl⟩ := List.cons.inj heq
      exact hlook call p rfl
    · exact h.looked call p earlier hs

/-- The table changes, and keeps what is still in use. -/
theorem Told.table (h : Told m F' x) {t : ProductQueryHandleTable F}
    (hget : ∀ handle q, t.queries.handles.get handle = some q →
      m.table.queries.handles.get handle = some q)
    (hnext : t.queries.handles.next = m.table.queries.handles.next)
    (hlists : ∀ q l, (∃ handle, t.queries.handles.get handle = some q) ∨
      (∃ f ∈ F', Code.query f = some q) → m.table.Lists q l → t.Lists q l) :
    Told { m with table := t } F' x where
  tables handle q hq := by
    obtain ⟨l, hl, hlist⟩ := h.tables handle q (hget handle q hq)
    exact ⟨l, hl, hlists q l (.inl ⟨handle, hq⟩) hlist⟩
  given handle l hl := Nat.lt_of_lt_of_eq (h.given handle l hl) hnext.symm
  unique := h.unique
  readable := h.readable
  fresh := h.fresh
  entered := h.entered
  told := h.told
  running call q i hf := by
    obtain ⟨handle, l, he, hl, hlist, hrest⟩ := h.running call q i hf
    exact ⟨handle, l, he, hl, hlists q l (.inr ⟨_, hf, rfl⟩) hlist, hrest⟩
  single := h.single
  looked := h.looked

theorem Told.frames (h : Told m F' x) (hsub : ∀ f ∈ G, ∀ q, Code.query f = some q → f ∈ F')
    (hsingle : ∀ call, weight (Code.inCall call) G ≤ weight (Code.inCall call) F') : Told m G x :=
  { h with
    running := fun call q i hf => h.running call q i (hsub _ hf q rfl)
    single := fun call => (hsingle call).trans (h.single call) }

/-- The frame of a call is taken off, and the call worked on. -/
theorem Told.focus (h : Told m (.callback call q i ::ₘ F') none) : Told m F' (some call) ∧
    weight (Code.inCall call) F' = 0 := by
  refine ⟨?_, ?_⟩
  · have hless := h.frames (G := F') (fun f hf _ _ => Multiset.mem_cons_of_mem hf) fun c => by
      rw [weight_cons]
      exact Nat.le_add_left _ _
    exact { hless with told := fun c handle _ he => hless.told c handle (Option.some_ne_none c).symm he }
  · have hone := h.single call
    rw [weight_cons, Code.inCall, one_self] at hone
    omega

/-- The work on a call is done: it is told of, and it runs in the frames that have come. -/
theorem Told.unfocus (h : Told m F' (some call)) (hzero : weight (Code.inCall call) F' = 0)
    (hr : .entered call handle ∈ m.log) (hl : .queried handle l ∈ m.log)
    (hvisited : visited call m.log = visits l (verdicts call m.log))
    (hreturned : .returned call ∈ m.log ↔ ended l (verdicts call m.log) = true)
    {push : List Code} (hpush : push = [] ∨ push = [.callback call q i] ∧ m.table.Lists q l ∧
      i < l.length ∧ verdicts call m.log = List.replicate i true) : Told m (push + F') none := by
  constructor
  · exact h.tables
  · exact h.given
  · exact h.unique
  · exact h.readable
  · exact h.fresh
  · exact h.entered
  · intro c handle' _ he
    by_cases hc : call = c
    · subst hc
      obtain rfl := h.entered call handle handle' hr he
      exact ⟨l, hl, hvisited, hreturned⟩
    · exact h.told c handle' (fun hx => hc (Option.some.inj hx)) he
  · intro c q' i' hf
    rcases Multiset.mem_add.mp hf with hf | hf
    · rcases hpush with rfl | ⟨rfl, hlists, hi, hverdicts⟩
      · exact absurd hf (Multiset.notMem_zero _)
      · cases List.mem_singleton.mp hf
        exact ⟨handle, l, hr, hl, hlists, hi, hverdicts⟩
    · exact h.running c q' i' hf
  · intro c
    have hc := h.single c
    rw [weight_add]
    rcases hpush with rfl | ⟨rfl, -⟩
    · simpa using hc
    · show weight (Code.inCall c) (Code.callback call q i ::ₘ 0) + _ ≤ 1
      rw [weight_cons, weight_zero, Code.inCall, one]
      split
      · rename_i he
        rw [← he, hzero]
        exact Nat.le_refl 1
      · simpa using hc
  · exact h.looked

end Rules

/-! ## Steps -/

/-- The strings are owned, each reference being that of a frame, and the calls are told of. -/
structure Sound (m : Memory F) (F' : Multiset Code) : Prop where
  owned : m.table.Owned fun query => weight (Code.holds query) F'
  told : Told m F' none

section Steps
variable {m : Memory F} {F' : Multiset Code} {call q i handle : ℕ} {l : List (Listing F)}

theorem holds_callback (query : ℕ) : Code.holds query (.callback call q i) = one q query := rfl

/-- A reference that a frame gives up leaves what the handles and the other frames need. -/
theorem told_drop {x : Option ℕ} (h : Told m F' x)
    (ho : m.table.Owned fun query => weight (Code.holds query) F' + one q query) :
    Told { m with table := m.table.drop q } F' x := by
  have hafter := ProductQueryHandleTable.drop_owned ho
  have hhandles : (m.table.drop q).queries.handles = m.table.queries.handles := by
    unfold ProductQueryHandleTable.drop
    dsimp only
    split <;> rfl
  refine h.table (fun handle q' hq => hhandles ▸ hq) (congrArg HandleTable.next hhandles)
    fun q' l hused hl => ProductQueryHandleTable.drop_lists ho hl ?_
  refine hafter.held.live_iff.mpr (hused.imp_right ?_)
  rintro ⟨f, hf, hquery⟩
  refine Nat.lt_of_lt_of_le ?_ (le_weight (w := Code.holds q') hf)
  cases f with
  | callback c q'' i' =>
    obtain rfl := Option.some.inj hquery
    rw [holds_callback, one_self]
    exact Nat.one_pos
  | _ => cases hquery

/-- An event of the call that is worked on. -/
theorem Told.own {x : Option ℕ} (h : Told m F' x) (hx : x = some call) (hlt : call < m.calls)
    (hzero : weight (Code.inCall call) F' = 0) (e : Event F) (he : e.call = some call)
    (hentered : ∀ handle, e ≠ .entered call handle) (hlook : ∀ p, e ≠ .looked call p) :
    Told (m.record e) F' x := by
  have hother : ∀ c, x ≠ some c ∨ 0 < weight (Code.inCall c) F' → e.call ≠ some c := by
    intro c hc hec
    rw [he, Option.some.injEq] at hec
    subst hec
    rcases hc with hc | hc
    · exact hc hx
    · rw [hzero] at hc
      exact Nat.lt_irrefl 0 hc
  refine h.event e rfl rfl rfl (fun handle l hq => ?_) (fun c handle hc => ?_) (fun c hc => ?_)
    (fun c p hc => ?_) fun c hc => ?_
  · rw [hq] at he
    cases he
  · rw [hc] at he
    cases he
    exact hentered handle hc
  · rw [he, Option.some.injEq] at hc
    exact hc ▸ hlt
  · rw [hc] at he
    cases he
    exact absurd hc (hlook p)
  · have hne := hother c hc
    refine ⟨?_, ?_, fun hr => hne (by rw [hr]; rfl)⟩
    · cases e with
      | visited c' product => exact if_neg fun hcc => hne (congrArg some hcc)
      | _ => rfl
    · cases e with
      | verdict c' keepGoing => exact if_neg fun hcc => hne (congrArg some hcc)
      | _ => rfl

/-- The end of an enumeration. -/
theorem return_sound (ho : m.table.Owned fun query => weight (Code.holds query) F' + one q query)
    (h : Told m F' (some call)) (hlt : call < m.calls) (hzero : weight (Code.inCall call) F' = 0)
    (hr : .entered call handle ∈ m.log) (hl : .queried handle l ∈ m.log)
    (hvisited : visited call m.log = visits l (verdicts call m.log))
    (hover : ended l (verdicts call m.log) = true) :
    Sound ({ m with table := m.table.drop q }.record (.returned call)) F' := by
  refine ⟨ProductQueryHandleTable.drop_owned ho, ?_⟩
  have hdone := ((told_drop h ho).own rfl hlt hzero (.returned call) rfl (by simp) (by simp)).unfocus
    (i := 0) (q := 0) hzero (List.mem_cons_of_mem _ hr) (List.mem_cons_of_mem _ hl)
    ?_ ?_ (.inl rfl)
  · exact (Multiset.zero_add F').symm ▸ hdone
  · show visited call (.returned call :: m.log) = visits l (verdicts call (.returned call :: m.log))
    rw [visited_cons, verdicts_cons]
    simpa [Event.visit, Event.keepGoing] using hvisited
  · show .returned call ∈ .returned call :: m.log ↔
      ended l (verdicts call (.returned call :: m.log)) = true
    rw [verdicts_cons]
    simpa [Event.keepGoing] using hover

/-- The loop goes on. -/
theorem visit_sound (handle : ℕ) (l : List (Listing F))
    (ho : m.table.Owned fun query => weight (Code.holds query) F' + one q query)
    (h : Told m F' (some call)) (hlt : call < m.calls) (hzero : weight (Code.inCall call) F' = 0)
    (hr : Ready m call q i handle l) :
    Sound (m.visit call q i).1 ((m.visit call q i).2 + F') := by
  unfold Memory.visit
  cases he : m.table.entry q i with
  | none =>
    have hdone := Lists_done hr.lists he
    have heq : i = l.length := Nat.le_antisymm hr.bound hdone
    refine (Multiset.zero_add F').symm ▸ return_sound ho h hlt hzero hr.entered hr.queried ?_ ?_
    · rw [hr.visited, hr.verdicts, visits_going, List.take_of_length_le hdone,
        List.take_of_length_le (Nat.le_succ_of_le hdone)]
    · rw [hr.verdicts, ended_going]
      exact decide_eq_true hdone
  | some e =>
    have hi := Lists_entry hr.lists he
    have hlen : i < l.length := (List.getElem?_eq_some_iff.mp hi).1
    have hvisited : visited call
        (m.record (.visited call (e.product.map m.table.strings.read))).log = l.take (i + 1) := by
      rw [Memory.record, visited_cons, hr.visited, List.take_add_one, hi]
      simp [Event.visit]
    have hverdicts : verdicts call
        (m.record (.visited call (e.product.map m.table.strings.read))).log =
          List.replicate i true := by
      rw [Memory.record, verdicts_cons, hr.verdicts]
      exact List.append_nil _
    refine ⟨?_, ?_⟩
    · have hweight : (fun query => weight (Code.holds query) (↑[Code.callback call q i] + F')) =
          fun query => weight (Code.holds query) F' + one q query := by
        funext query
        rw [weight_add, Nat.add_comm]
        rfl
      show m.table.Owned fun query => weight (Code.holds query) (↑[Code.callback call q i] + F')
      rw [hweight]
      exact ho
    · refine (h.own rfl hlt hzero (.visited call _) rfl (by simp) (by simp)).unfocus hzero
        (List.mem_cons_of_mem _ hr.entered) (List.mem_cons_of_mem _ hr.queried) ?_ ?_
        (.inr ⟨rfl, hr.lists, hlen, hverdicts⟩)
      · rw [hvisited, hverdicts, visits_going]
      · refine iff_of_false (fun hret => ?_) ?_
        · exact hr.going (List.mem_of_ne_of_mem (by simp) hret)
        · rw [hverdicts, ended_going]
          simpa using hlen

theorem Told.grow {x : Option ℕ} (h : Told m F' x) {new : Multiset Code}
    (hnew : ∀ f ∈ new, Code.query f = none) : Told m (new + F') x := by
  have hzero : ∀ call, weight (Code.inCall call) new = 0 := by
    intro call
    refine weight_eq_zero _ fun f hf => ?_
    have hf := hnew f hf
    cases f with
    | callback c q i => cases hf
    | _ => rfl
  refine h.frames (fun f hf q hq => ?_) fun call => ?_
  · refine (Multiset.mem_add.mp hf).resolve_left fun hf => ?_
    rw [hnew f hf] at hq
    cases hq
  · rw [weight_add, hzero, Nat.zero_add]

theorem weight_grow (new : Multiset Code) (hnew : ∀ f ∈ new, Code.query f = none) (query : ℕ) :
    weight (Code.holds query) (new + F') = weight (Code.holds query) F' := by
  rw [weight_add, weight_eq_zero _ fun f hf => ?_, Nat.zero_add]
  have hf := hnew f hf
  cases f with
  | callback c q i => cases hf
  | _ => rfl

/-- Frames that hold no reference come. -/
theorem Sound.grow (h : Sound m F') {new : Multiset Code} (hnew : ∀ f ∈ new, Code.query f = none) :
    Sound m (new + F') := by
  refine ⟨?_, h.told.grow hnew⟩
  simp only [weight_grow new hnew]
  exact h.owned

/-- An event of no call. -/
theorem Sound.note (h : Sound m F') {m' : Memory F} (e : Event F) (htable : m'.table = m.table)
    (hcalls : m'.calls = m.calls) (hlog : m'.log = e :: m.log)
    (hq : ∀ handle l, e ≠ .queried handle l) (hcall : e.call = none) : Sound m' F' := by
  refine ⟨htable ▸ h.owned, h.told.event e htable hcalls hlog hq (fun call handle he => ?_)
    (fun call hc => ?_) (fun call p hc => ?_) fun call _ => ⟨?_, ?_, fun hr => ?_⟩⟩
  · rw [he] at hcall
    cases hcall
  · rw [hcall] at hc
    cases hc
  · rw [hc] at hcall
    cases hcall
  · cases e with
    | visited => cases hcall
    | _ => rfl
  · cases e with
    | verdict => cases hcall
    | _ => rfl
  · rw [hr] at hcall
    cases hcall

theorem remove_owned {t : ProductQueryHandleTable F} {w : ℕ → ℕ} (h : t.Owned w)
    {queries : Counted (ProductQuery F)} (hr : t.queries.remove handle = some (q, queries)) :
    ProductQueryHandleTable.Owned { t with queries := queries } fun query => w query + one q query := by
  have hheld := h.held.remove hr
  obtain ⟨j, hj, hjq⟩ := Option.map_eq_some_iff.mp hr
  rw [Prod.mk.injEq] at hjq
  obtain ⟨rfl, rfl⟩ := hjq
  exact ⟨hheld, h.living, h.dead, h.apart, h.covered⟩

theorem close_sound (h : Sound m F') (handle : ℕ) :
    Sound { m with table := m.table.close handle } F' := by
  unfold ProductQueryHandleTable.close
  cases hr : m.table.queries.remove handle with
  | none => exact h
  | some r =>
    have ho := remove_owned h.owned hr
    obtain ⟨j, hj, hjq⟩ := Option.map_eq_some_iff.mp hr
    subst hjq
    have hnext : (m.table.queries.handles.close handle).next = m.table.queries.handles.next := by
      unfold HandleTable.close
      split <;> rfl
    have hopen : Told { m with table := { m.table with queries := { m.table.queries with
        handles := m.table.queries.handles.close handle } } } F' none :=
      h.told.table (fun other q' hq => HandleTable.get_of_close hq) hnext fun q' l _ hl => hl
    exact ⟨ProductQueryHandleTable.drop_owned ho, told_drop hopen ho⟩

/-- The service has answered. -/
theorem query_sound {R : Type} (h : Sound m F')
    {entry : Strings → R → ProductQueryEntry F × Strings} {listing : R → Listing F}
    (hb : Builds entry listing) (hreads : ∀ product, .freed ∉ (listing product).pointers)
    (products : List R) : Sound (m.query entry listing products) F' := by
  have hnext := h.owned.held.fresh.pos
  have hgiven := h.told.given
  have hkeep : ∀ e : Event F, e ∈ m.log → e ∈ (m.query entry listing products).log :=
    fun e he => List.mem_cons_of_mem _ he
  have hold : ∀ e : Event F, e ∈ (m.query entry listing products).log →
      e = .queried m.table.queries.handles.next (products.map listing) ∨ e ∈ m.log :=
    fun e he => List.mem_cons.mp he
  refine ⟨ProductQueryHandleTable.create_owned h.owned hb products, ?_⟩
  constructor
  · intro handle q hget
    have hget : (m.table.queries.handles.create m.table.queries.values.length).2.get handle =
      some q := hget
    by_cases he : handle = m.table.queries.handles.next
    · subst he
      have hnew := HandleTable.get_create m.table.queries.handles m.table.queries.values.length
        (Nat.pos_iff_ne_zero.mp hnext)
      obtain rfl := Option.some.inj (hget.symm.trans hnew)
      exact ⟨_, List.mem_cons_self, ProductQueryHandleTable.create_lists_new hb products⟩
    · rw [HandleTable.get_create_of_ne _ _ _ he] at hget
      obtain ⟨l, hl, hlists⟩ := h.told.tables handle q hget
      exact ⟨l, hkeep _ hl, ProductQueryHandleTable.create_lists h.owned hb products hlists⟩
  · intro handle l hl
    show handle < m.table.queries.handles.next + 1
    rcases hold _ hl with heq | hl
    · cases heq
      exact Nat.lt_succ_self _
    · exact Nat.lt_succ_of_lt (hgiven handle l hl)
  · intro handle l l' hl hl'
    rcases hold _ hl with heq | hl <;> rcases hold _ hl' with heq' | hl'
    · cases heq
      cases heq'
      rfl
    · cases heq
      exact absurd (hgiven _ _ hl') (Nat.lt_irrefl _)
    · cases heq'
      exact absurd (hgiven _ _ hl) (Nat.lt_irrefl _)
    · exact h.told.unique handle l l' hl hl'
  · intro handle l hl
    rcases hold _ hl with heq | hl
    · cases heq
      intro p hp
      obtain ⟨product, -, rfl⟩ := List.mem_map.mp hp
      exact hreads product
    · exact h.told.readable handle l hl
  · intro e he call hc
    rcases hold _ he with rfl | he
    · cases hc
    · exact h.told.fresh e he call hc
  · intro call handle handle' he he'
    exact h.told.entered call handle handle' ((hold _ he).resolve_left (by simp))
      ((hold _ he').resolve_left (by simp))
  · intro call handle hx he
    obtain ⟨l, hl, hvisited, hreturned⟩ :=
      h.told.told call handle hx ((hold _ he).resolve_left (by simp))
    refine ⟨l, hkeep _ hl, ?_, ?_⟩
    · rw [Memory.query, Memory.record, visited_other (by simp [Event.call]),
        verdicts_other (by simp [Event.call])]
      exact hvisited
    · rw [Memory.query, Memory.record, verdicts_other (by simp [Event.call]), ← hreturned]
      simp
  · intro call q i hf
    obtain ⟨handle, l, he, hl, hlists, hi, hverdicts⟩ := h.told.running call q i hf
    refine ⟨handle, l, hkeep _ he, hkeep _ hl,
      ProductQueryHandleTable.create_lists h.owned hb products hlists, hi, ?_⟩
    rw [Memory.query, Memory.record, verdicts_other (by simp [Event.call])]
    exact hverdicts
  · exact h.told.single
  · intro call p earlier hs
    rcases List.suffix_cons_iff.mp hs with heq | hs
    · cases (List.cons.inj heq).1
    · exact h.told.looked call p earlier hs

theorem Told.enter (h : Told m F' none) (handle : ℕ) :
    Told ({ m with calls := m.calls + 1 }.record (.entered m.calls handle)) F' (some m.calls) := by
  have hold : ∀ e : Event F, e ≠ .entered m.calls handle →
      e ∈ .entered m.calls handle :: m.log → e ∈ m.log :=
    fun e hne he => (List.mem_cons.mp he).resolve_left hne
  have hfresh : ∀ handle', .entered m.calls handle' ∉ m.log :=
    fun handle' he => Nat.lt_irrefl _ (h.fresh _ he m.calls rfl)
  constructor
  · intro handle' q hget
    obtain ⟨l, hl, hlists⟩ := h.tables handle' q hget
    exact ⟨l, List.mem_cons_of_mem _ hl, hlists⟩
  · exact fun handle' l hl => h.given handle' l (hold _ (by simp) hl)
  · exact fun handle' l l' hl hl' =>
      h.unique handle' l l' (hold _ (by simp) hl) (hold _ (by simp) hl')
  · exact fun handle' l hl => h.readable handle' l (hold _ (by simp) hl)
  · intro e he call hc
    rcases List.mem_cons.mp he with rfl | he
    · cases hc
      exact Nat.lt_succ_self _
    · exact Nat.lt_succ_of_lt (h.fresh e he call hc)
  · intro call handle' handle'' he he'
    rcases List.mem_cons.mp he with heq | he <;> rcases List.mem_cons.mp he' with heq' | he'
    · cases heq
      cases heq'
      rfl
    · cases heq
      exact absurd he' (hfresh _)
    · cases heq'
      exact absurd he (hfresh _)
    · exact h.entered call handle' handle'' he he'
  · intro call handle' hx he
    have hne : Event.call (.entered m.calls handle : Event F) ≠ some call := hx
    rcases List.mem_cons.mp he with heq | he
    · cases heq
      exact absurd rfl hx
    · obtain ⟨l, hl, hvisited, hreturned⟩ := h.told call handle' (Option.some_ne_none call).symm he
      refine ⟨l, List.mem_cons_of_mem _ hl, ?_, ?_⟩
      · rw [Memory.record, visited_other hne, verdicts_other hne]
        exact hvisited
      · rw [Memory.record, verdicts_other hne, ← hreturned]
        simp
  · intro call q i hf
    obtain ⟨handle', l, he, hl, hlists, hi, hverdicts⟩ := h.running call q i hf
    have hne : Event.call (.entered m.calls handle : Event F) ≠ some call := by
      intro heq
      obtain rfl := Option.some.inj heq
      exact hfresh _ he
    refine ⟨handle', l, List.mem_cons_of_mem _ he, List.mem_cons_of_mem _ hl, hlists, hi, ?_⟩
    rw [Memory.record, verdicts_other hne]
    exact hverdicts
  · exact h.single
  · intro call p earlier hs
    rcases List.suffix_cons_iff.mp hs with heq | hs
    · cases (List.cons.inj heq).1
    · exact h.looked call p earlier hs

theorem enumerate_sound (h : Sound m F') {table : ProductQueryHandleTable F}
    (hget : m.table.get handle = some (q, table)) :
    let r := ({ m with table := table, calls := m.calls + 1 }.record
      (.entered m.calls handle)).visit m.calls q 0
    Sound r.1 (r.2 + F') := by
  have ho := ProductQueryHandleTable.get_owned h.owned hget
  obtain ⟨⟨k, queries⟩, hk, hkt⟩ := Option.map_eq_some_iff.mp hget
  cases hkt
  obtain ⟨j, hj, hjq⟩ := Option.map_eq_some_iff.mp hk
  rw [Prod.mk.injEq] at hjq
  obtain ⟨rfl, rfl⟩ := hjq
  obtain ⟨l, hl, hlists⟩ := h.told.tables handle j hj
  have hlog : ∀ e ∈ m.log, e.call ≠ some m.calls :=
    fun e he hc => Nat.lt_irrefl _ (h.told.fresh e he _ hc)
  have htold : Told { m with table := { m.table with queries := m.table.queries.retain j } } F'
      none := h.told.table (fun _ _ hq => hq) rfl fun _ _ _ hlist => hlist
  have hnone : m.log.filterMap (Event.visit m.calls) = [] ∧
      m.log.filterMap (Event.keepGoing m.calls) = [] := by
    refine ⟨List.filterMap_eq_nil_iff.mpr fun e he => ?_,
      List.filterMap_eq_nil_iff.mpr fun e he => ?_⟩
    · cases e with
      | visited c product => exact if_neg fun hc => hlog _ he (congrArg some hc)
      | _ => rfl
    · cases e with
      | verdict c keepGoing => exact if_neg fun hc => hlog _ he (congrArg some hc)
      | _ => rfl
  refine visit_sound handle l ho (htold.enter handle) (Nat.lt_succ_self _) ?_ ?_
  · refine weight_eq_zero _ fun f hf => ?_
    cases f with
    | callback c q' i =>
      obtain ⟨handle', l', he, -⟩ := h.told.running c q' i hf
      exact if_neg fun hc => hlog _ he (congrArg some hc)
    | _ => rfl
  · refine ⟨List.mem_cons_self, List.mem_cons_of_mem _ hl, hlists, Nat.zero_le _, ?_, ?_, ?_⟩
    · rw [Memory.record, visited_cons, visited, hnone.1]
      rfl
    · rw [Memory.record, verdicts_cons, verdicts, hnone.2]
      rfl
    · intro hret
      rcases List.mem_cons.mp hret with heq | hret
      · cases heq
      · exact hlog _ hret rfl

theorem gameStep_sound (h : Sound m F') {choice : Choice F} {o : Outcome (Memory F) Code}
    (ho : m.gameStep choice = some o) : Sound o.shared (o.frames + F') := by
  have hquiet : ∀ {m' : Memory F}, Sound m' F' → Sound m' (Outcome.frames ⟨m', [], []⟩ + F') :=
    fun hm => by rwa [Outcome.frames, List.flatten_nil, List.append_nil, Multiset.coe_nil,
      Multiset.zero_add]
  cases choice with
  | query source storeContextHandle =>
    simp only [Memory.gameStep] at ho
    split at ho
    · cases ho
      exact hquiet (h.note (.refused E_POINTER) rfl rfl rfl (by simp) rfl)
    · cases ho
      refine h.grow fun f hf => ?_
      obtain rfl : f = .fetch source := by simpa [Outcome.frames] using hf
      rfl
  | enumerate handle callback =>
    simp only [Memory.gameStep] at ho
    split at ho
    · cases ho
      exact hquiet (h.note (.refused E_POINTER) rfl rfl rfl (by simp) rfl)
    · split at ho
      · cases ho
        exact hquiet (h.note (.refused E_INVALIDARG) rfl rfl rfl (by simp) rfl)
      · rename_i hget
        cases ho
        have hvisit := enumerate_sound h hget
        simpa [Outcome.frames] using hvisit
  | close handle =>
    cases ho
    exact hquiet (close_sound h handle)
  | registerGameLicenseChanged storeContextHandle callback token =>
    simp only [Memory.gameStep] at ho
    split at ho
    · cases ho
      exact hquiet (h.note (.refused E_POINTER) rfl rfl rfl (by simp) rfl)
    · cases ho
      exact hquiet (h.note (.registered m.licenseChangeTokens) rfl rfl rfl (by simp) rfl)
  | unregisterGameLicenseChanged token =>
    cases ho
    exact hquiet (h.note (.unregistered token _) rfl rfl rfl (by simp) rfl)
  | thread =>
    cases ho
    refine h.grow fun f hf => ?_
    obtain rfl : f = .game := by simpa [Outcome.frames] using hf
    rfl
  | finish | entitled | catalog | look | verdict => cases ho

/-- A frame that holds no reference is done. -/
theorem Sound.shrink {f : Code} (h : Sound m (f ::ₘ F')) (hf : Code.query f = none) : Sound m F' := by
  refine ⟨?_, h.told.frames (fun g hg _ _ => Multiset.mem_cons_of_mem hg) fun call => ?_⟩
  · have hweight : ∀ query, weight (Code.holds query) (f ::ₘ F') = weight (Code.holds query) F' :=
      weight_grow {f} fun g hg => Multiset.mem_singleton.mp hg ▸ hf
    simp only [← hweight]
    exact h.owned
  · rw [weight_cons]
    exact Nat.le_add_left _ _

theorem look_sound (h : Sound m (.callback call q i ::ₘ F')) {e : ProductQueryEntry F}
    (he : m.table.entry q i = some e) :
    Sound (m.record (.looked call (e.product.map m.table.strings.read)))
      (.callback call q i ::ₘ F') := by
  obtain ⟨handle, l, hentered, hl, hlists, hi, hverdicts⟩ :=
    h.told.running call q i (Multiset.mem_cons_self _ _)
  obtain ⟨l', hl', hvisited, -⟩ := h.told.told call handle (Option.some_ne_none call).symm hentered
  obtain rfl := h.told.unique handle l l' hl hl'
  have hlast : (visited call m.log).getLast? = some (e.product.map m.table.strings.read) := by
    rw [hvisited, hverdicts, visits_going, List.take_add_one, Lists_entry hlists he]
    simp
  refine ⟨h.owned, h.told.event _ rfl rfl rfl (by simp) (by simp) (fun c hc => ?_)
    (fun c p hc => ?_) fun c _ => ⟨rfl, rfl, by simp⟩⟩
  · cases hc
    exact h.told.fresh _ hentered call rfl
  · cases hc
    exact hlast

theorem verdict_sound (h : Sound m (.callback call q i ::ₘ F')) (keepGoing : Bool) :
    let m' := m.record (.verdict call keepGoing)
    (keepGoing = true →
      Sound (m'.visit call q (i + 1)).1 ((m'.visit call q (i + 1)).2 + F')) ∧
    (keepGoing = false →
      Sound ({ m' with table := m.table.drop q }.record (.returned call)) F') := by
  obtain ⟨handle, l, hentered, hl, hlists, hi, hverdicts⟩ :=
    h.told.running call q i (Multiset.mem_cons_self _ _)
  obtain ⟨l', hl', hvisited, hreturned⟩ :=
    h.told.told call handle (Option.some_ne_none call).symm hentered
  obtain rfl := h.told.unique handle l l' hl hl'
  have hgoing : .returned call ∉ m.log := by
    rw [hreturned, hverdicts, ended_going]
    simpa using hi
  rw [hverdicts, visits_going] at hvisited
  have hlt := h.told.fresh _ hentered call rfl
  obtain ⟨hfocus, hzero⟩ := h.told.focus
  have howned : m.table.Owned fun query => weight (Code.holds query) F' + one q query := by
    have hweight : (fun query => weight (Code.holds query) (.callback call q i ::ₘ F')) =
        fun query => weight (Code.holds query) F' + one q query := by
      funext query
      rw [weight_cons, Nat.add_comm]
      rfl
    rw [← hweight]
    exact h.owned
  have htold := hfocus.own rfl hlt hzero (.verdict call keepGoing) rfl (by simp) (by simp)
  have hvisited' : visited call (m.record (.verdict call keepGoing)).log = l.take (i + 1) := by
    rw [Memory.record, visited_cons, hvisited]
    exact List.append_nil _
  have hverdicts' : verdicts call (m.record (.verdict call keepGoing)).log =
      List.replicate i true ++ [keepGoing] := by
    rw [Memory.record, verdicts_cons, hverdicts]
    simp [Event.keepGoing]
  refine ⟨fun hgo => ?_, fun hstop => ?_⟩
  · subst hgo
    refine visit_sound handle l howned htold hlt hzero
      ⟨List.mem_cons_of_mem _ hentered, List.mem_cons_of_mem _ hl, hlists, hi, hvisited', ?_, ?_⟩
    · rw [hverdicts', List.replicate_succ']
    · exact fun hret => hgoing (List.mem_of_ne_of_mem (by simp) hret)
  · subst hstop
    have hvisits : visited call (m.record (.verdict call false)).log =
        visits l (verdicts call (m.record (.verdict call false)).log) := by
      rw [hvisited', hverdicts', visits_stopped hi]
    have hover : ended l (verdicts call (m.record (.verdict call false)).log) = true := by
      rw [hverdicts', ended_stopped hi]
    exact return_sound (m := m.record (.verdict call false)) howned htold hlt hzero
      (List.mem_cons_of_mem _ hentered) (List.mem_cons_of_mem _ hl) hvisits hover

variable {A : Amounts F}

theorem entitled_readable (product : EntitledProduct) :
    .freed ∉ (product.listing A).pointers := by
  simp [EntitledProduct.listing, XStoreProduct.pointers, xStoreProduct, defaultPrice]

theorem catalog_readable (product : CatalogProductEntry F) :
    .freed ∉ (product.listing A).pointers := by
  simp [CatalogProductEntry.listing, XStoreProduct.pointers, xStoreProduct, storePrice]

theorem step_sound {f : Code} {choice : Choice F} {o : Outcome (Memory F) Code}
    (h : Sound m (f ::ₘ F')) (ho : m.step A f choice = some o) : Sound o.shared (o.frames + F') := by
  have hinside : ∀ {o : Outcome (Memory F) Code}, m.inside f choice = some o →
      Sound o.shared (o.frames + F') := by
    intro o ho
    obtain ⟨o', ho', rfl⟩ := Option.map_eq_some_iff.mp ho
    have hframes : Outcome.frames { o' with push := o'.push ++ [f] } + F' =
        o'.frames + f ::ₘ F' := by
      show ↑(o'.push ++ [f] ++ o'.spawn.flatten) + F' = ↑(o'.push ++ o'.spawn.flatten) + f ::ₘ F'
      rw [← Multiset.singleton_add, ← Multiset.coe_singleton, ← Multiset.coe_add,
        ← Multiset.coe_add, ← Multiset.coe_add]
      exact (congrArg (· + F') (add_right_comm _ _ _)).trans (add_assoc _ _ _)
    rw [hframes]
    exact gameStep_sound h ho'
  have hdone : ∀ {m' : Memory F}, Sound m' F' → Sound m' (Outcome.frames ⟨m', [], []⟩ + F') :=
    fun hm => by rwa [Outcome.frames, List.flatten_nil, List.append_nil, Multiset.coe_nil,
      Multiset.zero_add]
  unfold Memory.step at ho
  split at ho
  · cases ho
    exact hdone (h.shrink rfl)
  · exact hinside ho
  · cases ho
    exact hdone (query_sound (h.shrink rfl) (entitledEntry_builds A) entitled_readable _)
  · cases ho
    exact hdone (query_sound (h.shrink rfl) (catalogEntry_builds A) catalog_readable _)
  · cases ho
    exact hdone (query_sound (h.shrink rfl) (catalogEntry_builds A) catalog_readable _)
  · obtain ⟨e, he, rfl⟩ := Option.map_eq_some_iff.mp ho
    exact look_sound h he
  · rename_i keepGoing
    obtain ⟨hgo, hstop⟩ := verdict_sound h keepGoing
    dsimp only at ho
    split at ho
    · rename_i hk
      cases ho
      simpa [Outcome.frames] using hgo hk
    · rename_i hk
      cases ho
      exact hdone (hstop (Bool.eq_false_of_not_eq_true hk))
  · exact hinside ho
  · cases ho

end Steps

/-! ## Runs -/

section Runs
variable {A : Amounts F} {n : ℕ} {c : Config (Memory F) Code}

theorem sound_start (F : Type) (n : ℕ) : Sound (start F n).shared (start F n).frames := by
  have hgame : ∀ f ∈ (start F n).frames, f = .game := by
    intro f hf
    obtain ⟨k, hk, hfk⟩ := List.mem_flatten.mp (Multiset.mem_coe.mp hf)
    rw [List.eq_of_mem_replicate hk] at hfk
    exact List.mem_singleton.mp hfk
  have hnone : ∀ e : Event F, e ∉ (start F n).shared.log := fun e => List.not_mem_nil
  refine ⟨?_, ?_⟩
  · have hweight : (fun query => weight (Code.holds query) (start F n).frames) = fun _ => 0 :=
      funext fun query => weight_eq_zero _ fun f hf => by rw [hgame f hf]; rfl
    rw [hweight]
    exact ProductQueryHandleTable.owned_empty
  · constructor
    · intro handle q hget
      have hempty : HandleTable.get ({} : HandleTable ℕ) handle = none := by
        unfold HandleTable.get
        split <;> rfl
      cases hempty.symm.trans hget
    · exact fun handle l hl => absurd hl (hnone _)
    · exact fun handle l l' hl => absurd hl (hnone _)
    · exact fun handle l hl => absurd hl (hnone _)
    · exact fun e he => absurd he (hnone e)
    · exact fun call handle handle' he => absurd he (hnone _)
    · exact fun call handle _ he => absurd he (hnone _)
    · intro call q i hf
      cases hgame _ hf
    · intro call
      rw [weight_eq_zero _ fun f hf => by rw [hgame f hf]; rfl]
      exact Nat.zero_le 1
    · exact fun call p earlier hs => absurd (hs.subset List.mem_cons_self) (hnone _)

theorem reaches_sound {G : Guard (Memory F) Code (Choice F)}
    (h : (machine A).Reaches G (start F n) c) : Sound c.shared c.frames :=
  h.preserved (sound_start F n) fun _ _ _ _ _ _ hI hs => step_sound hI hs

theorem exists_holder {query : ℕ} {F' : Multiset Code} :
    0 < weight (Code.holds query) F' ↔ ∃ f ∈ F', Code.query f = some query := by
  constructor
  · intro hpos
    by_contra hnone
    refine absurd hpos (Nat.not_lt.mpr (Nat.le_of_eq (weight_eq_zero _ fun f hf => ?_)))
    cases f with
    | callback call q i => exact if_neg fun hq => hnone ⟨_, hf, congrArg some hq⟩
    | _ => rfl
  · rintro ⟨f, hf, hquery⟩
    refine Nat.lt_of_lt_of_le ?_ (le_weight (w := Code.holds query) hf)
    cases f with
    | callback call q i =>
      obtain rfl := Option.some.inj hquery
      rw [holds_callback, one_self]
      exact Nat.one_pos
    | _ => cases hquery

/-- Whatever else goes on, closing the handle included, the callback of an enumeration is called with just
the products that the service has listed, in order, until it says no or there are no more, and then the
enumeration returns. All the strings of a product can be read for as long as its callback runs; they are
freed just when the handle is closed and no enumeration of the query is left. -/
theorem enumeration_exact (h : (machine A).Reaches anyStep (start F n) c) :
    (∀ call handle, .entered call handle ∈ c.shared.log → ∃ l, .queried handle l ∈ c.shared.log ∧
      (∀ l', .queried handle l' ∈ c.shared.log → l' = l) ∧ (∀ p ∈ l, .freed ∉ p.pointers) ∧
      visited call c.shared.log = visits l (verdicts call c.shared.log) ∧
      (.returned call ∈ c.shared.log ↔ ended l (verdicts call c.shared.log) = true)) ∧
    (∀ call p earlier, (.looked call p :: earlier) <:+ c.shared.log →
      (visited call earlier).getLast? = some p) ∧
    ∀ a, (∃ s, c.shared.table.strings[a]? = some (some s)) ↔
      ∃ q, ∃ query : ProductQuery F, c.shared.table.queries.values[q]? = some query ∧
        a ∈ query.owned ∧ ((∃ handle, c.shared.table.queries.handles.get handle = some q) ∨
          ∃ f ∈ c.frames, Code.query f = some q) := by
  obtain ⟨howned, htold⟩ := reaches_sound h
  refine ⟨fun call handle he => ?_, htold.looked, fun a => ⟨?_, ?_⟩⟩
  · obtain ⟨l, hl, hvisited, hreturned⟩ :=
      htold.told call handle (Option.some_ne_none call).symm he
    exact ⟨l, hl, fun l' hl' => htold.unique handle l' l hl' hl, htold.readable handle l hl, hvisited,
      hreturned⟩
  · rintro ⟨s, hs⟩
    obtain ⟨q, query, hq, ha⟩ := howned.covered a (List.getElem?_eq_some_iff.mp hs).1
    refine ⟨q, query, hq, ha, ?_⟩
    rcases Nat.eq_zero_or_pos (c.shared.table.queries.strong q) with hzero | hpos
    · rw [howned.dead q query hq hzero a ha] at hs
      cases hs
    · exact (howned.held.live_iff.mp hpos).imp_right exists_holder.mp
  · rintro ⟨q, query, hq, ha, hused⟩
    exact howned.living q query hq (howned.held.live_iff.mpr (hused.imp_right exists_holder.mpr)) a ha

end Runs

/-- Amounts in cents. -/
def cents : Amounts ℕ where
  zero := 0
  lt a b := decide (a < b)
  render n := Bytes.utf8Bytes (toString (n / 100)) ++
    [46, UInt8.ofNat (48 + n % 100 / 10), UInt8.ofNat (48 + n % 10)]

def realms (storeId : String) (price : ℕ) : CatalogProductEntry ℕ where
  storeId := storeId
  title := "Realms"
  productKind := "Durable"
  currencyCode := "USD"
  basePrice := 799
  price := price
  recurrencePrice := price
  saleEndDate := 0

/-- The callback of the first product closes the handle; it is called with the second one all the same, and
reads both. -/
theorem enumeration_exact_closed : ∃ c : Config (Memory ℕ) Code,
    verdicts 0 c.shared.log = [true, true] ∧ c.shared.table.strings = List.replicate 6 none ∧
    ∃ l, .queried 1 l ∈ c.shared.log ∧ visited 0 c.shared.log = visits l [true, true] ∧
      .returned 0 ∈ c.shared.log := by
  have hrun : ((machine cents).run anyStep
      [(0, .query .products 1), (1, .catalog (.ok [realms "A" 799, realms "B" 399])),
        (0, .enumerate 1 true), (0, .close 1), (0, .look), (0, .verdict true), (0, .look),
        (0, .verdict true)] (start ℕ 1)).any (fun c => decide (.entered 0 1 ∈ c.shared.log ∧
          verdicts 0 c.shared.log = [true, true] ∧
          c.shared.table.strings = List.replicate 6 none ∧ .returned 0 ∈ c.shared.log)) = true := by
    decide +kernel
  obtain ⟨c, hc, hcheck⟩ := Machine.Reaches.of_run_any hrun
  obtain ⟨hentered, hverdicts, hstrings, hreturned⟩ := of_decide_eq_true hcheck
  obtain ⟨l, hl, -, -, hvisited, -⟩ := (enumeration_exact hc).1 0 1 hentered
  exact ⟨c, hverdicts, hstrings, l, hl, hverdicts ▸ hvisited, hreturned⟩

end XGameRuntime.XStore
