import Mathlib.Data.List.Forall2
import XGameRuntime.Concurrency.Arena
import XGameRuntime.XStore.Products

/-! # Who owns the strings

Every C string belongs to one query and lives as long as that query does, so that the pointers of a
product can be read while anybody holds the query it is in.
-/

namespace XGameRuntime.XStore
open Counted
set_option autoImplicit false

variable {P Q F R : Type}

/-! ## Strings -/

theorem free_length (addresses : List ℕ) (strings : Strings) :
    (strings.free addresses).length = strings.length := by
  induction addresses generalizing strings with
  | nil => rfl
  | cons a addresses ih => exact (ih (strings.set a none)).trans (List.length_set ..)

theorem free_of_notMem {addresses : List ℕ} {a : ℕ} (strings : Strings) (h : a ∉ addresses) :
    (strings.free addresses)[a]? = strings[a]? := by
  induction addresses generalizing strings with
  | nil => rfl
  | cons b addresses ih =>
    have hne := List.ne_of_not_mem_cons h
    have hrest := List.not_mem_of_not_mem_cons h
    rw [← List.getElem?_set_ne (Ne.symm hne) (a := none) (l := strings)]
    exact ih (strings.set b none) hrest

theorem free_of_mem {addresses : List ℕ} {a : ℕ} (strings : Strings) (h : a ∈ addresses)
    (ha : a < strings.length) : (strings.free addresses)[a]? = some none := by
  induction addresses generalizing strings with
  | nil => cases h
  | cons b addresses ih =>
    by_cases hrest : a ∈ addresses
    · exact ih (strings.set b none) hrest (by rwa [List.length_set])
    · obtain rfl := (List.mem_cons.mp h).resolve_right hrest
      have hkeep := free_of_notMem (strings.set a none) hrest
      rw [List.getElem?_set_self ha] at hkeep
      exact hkeep

/-! ## Products -/

def XStoreProduct.pointers (p : XStoreProduct P F) : List P :=
  [p.storeId, p.title, p.description, p.language, p.inAppOfferToken, p.linkUri,
    p.price.currencyCode, p.keywords, p.skus, p.images, p.videos]

theorem XStoreProduct.map_congr {f g : P → Q} {p : XStoreProduct P F}
    (h : ∀ x ∈ p.pointers, f x = g x) : p.map f = p.map g := by
  simp only [XStoreProduct.pointers, List.forall_mem_cons] at h
  obtain ⟨h1, h2, h3, h4, h5, h6, h7, h8, h9, h10, h11, -⟩ := h
  simp only [XStoreProduct.map, h1, h2, h3, h4, h5, h6, h7, h8, h9, h10, h11]

/-- An entry whose product reads as the listing, through pointers into its own strings. -/
structure Represents (strings : Strings) (e : ProductQueryEntry F) (l : Listing F) : Prop where
  reads : e.product.map strings.read = l
  own : ∀ a, some a ∈ e.product.pointers → a ∈ e.owned

theorem Represents.transfer {strings strings' : Strings} {e : ProductQueryEntry F} {l : Listing F}
    (h : Represents strings e l) (hs : ∀ a ∈ e.owned, strings'[a]? = strings[a]?) :
    Represents strings' e l := by
  refine ⟨?_, h.own⟩
  rw [← h.reads]
  refine XStoreProduct.map_congr fun x hx => ?_
  cases x with
  | none => rfl
  | some a => rw [Strings.read, Strings.read, hs a (h.own a hx)]

/-- An entry takes new strings, which it owns and which read as the listing. -/
structure Builds (entry : Strings → R → ProductQueryEntry F × Strings) (listing : R → Listing F) :
    Prop where
  old : ∀ strings product, strings <+: (entry strings product).2
  owned : ∀ strings product a, a ∈ (entry strings product).1.owned ↔
    strings.length ≤ a ∧ a < (entry strings product).2.length
  living : ∀ strings product a, a ∈ (entry strings product).1.owned →
    ∃ s, (entry strings product).2[a]? = some (some s)
  represents : ∀ strings product,
    Represents (entry strings product).2 (entry strings product).1 (listing product)

theorem read_new (strings : Strings) (new : List (Option String)) {i : ℕ} {s : String}
    (h : new[i]? = some (some s)) :
    Strings.read (strings ++ new) (some (strings.length + i)) = .text s := by
  rw [Strings.read, List.getElem?_append_right (Nat.le_add_right _ _), Nat.add_sub_cancel_left, h]
  rfl

theorem entitledEntry_builds (A : Amounts F) :
    Builds (entitledEntry A) (EntitledProduct.listing A) := by
  refine ⟨fun strings product => List.prefix_append _ _, fun strings product a => ?_,
    fun strings product a ha => ?_, fun strings product => ⟨?_, fun a ha => ?_⟩⟩
  · simp only [entitledEntry, ProductQueryEntry.owned, List.mem_cons, List.not_mem_nil, or_false,
      List.length_append, List.length_cons, List.length_nil]
    omega
  · simp only [entitledEntry, ProductQueryEntry.owned, List.mem_cons, List.not_mem_nil,
      or_false] at ha
    rcases ha with rfl | rfl | rfl <;> simp [entitledEntry]
  · have h0 := read_new strings
      [some (cString product.storeId), some (cString product.title), some ""] (i := 0) rfl
    have h1 := read_new strings
      [some (cString product.storeId), some (cString product.title), some ""] (i := 1) rfl
    have h2 := read_new strings
      [some (cString product.storeId), some (cString product.title), some ""] (i := 2) rfl
    rw [Nat.add_zero] at h0
    simp only [entitledEntry, XStoreProduct.map, xStoreProduct, defaultPrice, h0, h1, h2]
    rfl
  · simp only [entitledEntry, XStoreProduct.pointers, xStoreProduct, defaultPrice, List.mem_cons,
      Option.some.injEq, reduceCtorEq, false_or, or_false, List.not_mem_nil] at ha
    simp only [entitledEntry, ProductQueryEntry.owned, List.mem_cons, List.not_mem_nil, or_false]
    omega

theorem catalogEntry_builds (A : Amounts F) :
    Builds (catalogEntry A) (CatalogProductEntry.listing A) := by
  refine ⟨fun strings product => List.prefix_append _ _, fun strings product a => ?_,
    fun strings product a ha => ?_, fun strings product => ⟨?_, fun a ha => ?_⟩⟩
  · simp only [catalogEntry, ProductQueryEntry.owned, List.mem_cons, List.not_mem_nil, or_false,
      List.length_append, List.length_cons, List.length_nil]
    omega
  · simp only [catalogEntry, ProductQueryEntry.owned, List.mem_cons, List.not_mem_nil,
      or_false] at ha
    rcases ha with rfl | rfl | rfl <;> simp [catalogEntry]
  · have h0 := read_new strings [some (cString product.currencyCode),
      some (cString product.storeId), some (cString product.title)] (i := 0) rfl
    have h1 := read_new strings [some (cString product.currencyCode),
      some (cString product.storeId), some (cString product.title)] (i := 1) rfl
    have h2 := read_new strings [some (cString product.currencyCode),
      some (cString product.storeId), some (cString product.title)] (i := 2) rfl
    rw [Nat.add_zero] at h0
    simp only [catalogEntry, XStoreProduct.map, xStoreProduct, storePrice, h0, h1, h2]
    rfl
  · simp only [catalogEntry, XStoreProduct.pointers, xStoreProduct, storePrice, List.mem_cons,
      Option.some.injEq, reduceCtorEq, false_or, or_false, List.not_mem_nil] at ha
    simp only [catalogEntry, ProductQueryEntry.owned, List.mem_cons, List.not_mem_nil, or_false]
    omega

theorem getElem?_extended {α : Type} {l l' : List α} (h : l <+: l') {i : ℕ} (hi : i < l.length) :
    l'[i]? = l[i]? := by
  obtain ⟨new, rfl⟩ := h
  exact List.getElem?_append_left hi

/-- All the entries of a query. -/
theorem buildEntries_builds {entry : Strings → R → ProductQueryEntry F × Strings}
    {listing : R → Listing F} (h : Builds entry listing) (strings : Strings) (products : List R) :
    strings <+: (buildEntries entry strings products).2 ∧
    (∀ a, a ∈ (buildEntries entry strings products).1.flatMap ProductQueryEntry.owned ↔
      strings.length ≤ a ∧ a < (buildEntries entry strings products).2.length) ∧
    (∀ a ∈ (buildEntries entry strings products).1.flatMap ProductQueryEntry.owned,
      ∃ s, (buildEntries entry strings products).2[a]? = some (some s)) ∧
    List.Forall₂ (Represents (buildEntries entry strings products).2)
      (buildEntries entry strings products).1 (products.map listing) := by
  induction products generalizing strings with
  | nil =>
    refine ⟨List.prefix_refl _, fun a => ?_, fun a ha => absurd ha List.not_mem_nil, .nil⟩
    simp only [buildEntries, List.flatMap_nil, List.not_mem_nil, false_iff]
    omega
  | cons product products ih =>
    obtain ⟨hold, howned, hliving, hall⟩ := ih (entry strings product).2
    have hfirst := (h.old strings product).length_le
    have hrest := hold.length_le
    have hkeep : ∀ a ∈ (entry strings product).1.owned,
        (buildEntries entry strings (product :: products)).2[a]? =
          (entry strings product).2[a]? :=
      fun a ha => getElem?_extended hold ((h.owned strings product a).mp ha).2
    refine ⟨(h.old strings product).trans hold, fun a => ?_, fun a ha => ?_, .cons ?_ hall⟩
    · simp only [buildEntries, List.flatMap_cons, List.mem_append, howned, h.owned]
      omega
    · rcases List.mem_append.mp ha with ha | ha
      · rw [hkeep a ha]
        exact h.living strings product a ha
      · exact hliving a ha
    · exact (h.represents strings product).transfer hkeep

/-! ## The table -/

namespace ProductQueryHandleTable
variable {t t' : ProductQueryHandleTable F} {w : ℕ → ℕ} {q q' handle : ℕ} {l : List (Listing F)}

/-- The query stands for what the service has listed. -/
def Lists (t : ProductQueryHandleTable F) (q : ℕ) (l : List (Listing F)) : Prop :=
  ∃ query : ProductQuery F, t.queries.values[q]? = some query ∧
    List.Forall₂ (Represents t.strings) query.entries l

/-- Each string belongs to one query, and lives as long as that does. -/
structure Owned (t : ProductQueryHandleTable F) (w : ℕ → ℕ) : Prop where
  held : t.queries.Held w
  living : ∀ (q : ℕ) (query : ProductQuery F), t.queries.values[q]? = some query →
    0 < t.queries.strong q → ∀ a ∈ query.owned, ∃ s, t.strings[a]? = some (some s)
  dead : ∀ (q : ℕ) (query : ProductQuery F), t.queries.values[q]? = some query →
    t.queries.strong q = 0 → ∀ a ∈ query.owned, t.strings[a]? = some none
  apart : ∀ (q q' : ℕ) (query query' : ProductQuery F), t.queries.values[q]? = some query →
    t.queries.values[q']? = some query' → q ≠ q' → ∀ a ∈ query.owned, a ∉ query'.owned
  covered : ∀ a < t.strings.length, ∃ (q : ℕ) (query : ProductQuery F),
    t.queries.values[q]? = some query ∧ a ∈ query.owned

theorem owned_empty : Owned ({} : ProductQueryHandleTable F) fun _ => 0 where
  held := held_empty
  living q query hq := by cases hq
  dead q query hq := by cases hq
  apart q q' query query' hq := by cases hq
  covered a ha := absurd ha (Nat.not_lt_zero a)

theorem Owned.lt (h : t.Owned w) {query : ProductQuery F} (hq : t.queries.values[q]? = some query)
    {a : ℕ} (ha : a ∈ query.owned) : a < t.strings.length := by
  by_contra hge
  have hnone := List.getElem?_eq_none (Nat.not_lt.mp hge)
  rcases Nat.eq_zero_or_pos (t.queries.strong q) with hzero | hpos
  · have hdead := h.dead q query hq hzero a ha
    rw [hnone] at hdead
    cases hdead
  · obtain ⟨s, hs⟩ := h.living q query hq hpos a ha
    rw [hnone] at hs
    cases hs

section Create
variable {entry : Strings → R → ProductQueryEntry F × Strings} {listing : R → Listing F}

theorem create_owned (h : t.Owned w) (hb : Builds entry listing) (products : List R) :
    (t.create entry products).2.Owned w := by
  obtain ⟨hold, howned, hliving, -⟩ := buildEntries_builds hb t.strings products
  have hheld := h.held.create { entries := (buildEntries entry t.strings products).1 }
  have hstrong : ∀ q, q < t.queries.values.length →
      (t.create entry products).2.queries.strong q = t.queries.strong q :=
    fun q hq => Function.update_of_ne (Nat.ne_of_lt hq) _ _
  have hcases : ∀ {q : ℕ} {query : ProductQuery F},
      (t.create entry products).2.queries.values[q]? = some query →
        t.queries.values[q]? = some query ∨ q = t.queries.values.length ∧
          query = { entries := (buildEntries entry t.strings products).1 } :=
    fun hq => Concurrency.getElem?_push_cases hq
  have hlt : ∀ {q : ℕ} {query : ProductQuery F}, t.queries.values[q]? = some query →
      q < t.queries.values.length := fun hq => (List.getElem?_eq_some_iff.mp hq).1
  have hnew : (t.create entry products).2.queries.strong t.queries.values.length = 1 :=
    Function.update_self ..
  refine ⟨hheld, fun q query hq hpos a ha => ?_, fun q query hq hzero a ha => ?_,
    fun q q' query query' hq hq' hne a ha ha' => ?_, fun a ha => ?_⟩
  · rcases hcases hq with hq | ⟨rfl, rfl⟩
    · rw [hstrong q (hlt hq)] at hpos
      show ∃ s, (buildEntries entry t.strings products).2[a]? = some (some s)
      rw [getElem?_extended hold (h.lt hq ha)]
      exact h.living q query hq hpos a ha
    · exact hliving a ha
  · rcases hcases hq with hq | ⟨rfl, rfl⟩
    · rw [hstrong q (hlt hq)] at hzero
      show (buildEntries entry t.strings products).2[a]? = some none
      rw [getElem?_extended hold (h.lt hq ha)]
      exact h.dead q query hq hzero a ha
    · rw [hnew] at hzero
      cases hzero
  · rcases hcases hq with hq | ⟨rfl, rfl⟩ <;> rcases hcases hq' with hq' | ⟨rfl, rfl⟩
    · exact h.apart q q' query query' hq hq' hne a ha ha'
    · exact absurd ((howned a).mp ha').1 (Nat.not_le.mpr (h.lt hq ha))
    · exact absurd ((howned a).mp ha).1 (Nat.not_le.mpr (h.lt hq' ha'))
    · exact hne rfl
  · by_cases hin : a < t.strings.length
    · obtain ⟨q, query, hq, ha⟩ := h.covered a hin
      exact ⟨q, query, Concurrency.getElem?_push_of hq, ha⟩
    · refine ⟨t.queries.values.length, _, List.getElem?_concat_length, ?_⟩
      exact (howned a).mpr ⟨Nat.not_lt.mp hin, ha⟩

theorem create_lists (h : t.Owned w) (hb : Builds entry listing) (products : List R)
    (hl : t.Lists q l) : (t.create entry products).2.Lists q l := by
  obtain ⟨query, hq, hall⟩ := hl
  obtain ⟨hold, -⟩ := buildEntries_builds hb t.strings products
  refine ⟨query, Concurrency.getElem?_push_of hq, ?_⟩
  refine (List.forall₂_iff_get.mp hall).elim fun hlen hget => List.forall₂_iff_get.mpr ⟨hlen, ?_⟩
  intro i hi hi'
  refine (hget i hi hi').transfer fun a ha => getElem?_extended hold (h.lt hq ?_)
  exact List.mem_flatMap.mpr ⟨_, List.get_mem _ _, ha⟩

theorem create_lists_new (hb : Builds entry listing) (products : List R) :
    (t.create entry products).2.Lists t.queries.values.length (products.map listing) :=
  ⟨_, List.getElem?_concat_length, (buildEntries_builds hb t.strings products).2.2.2⟩

end Create

theorem get_owned (h : t.Owned w) (hget : t.get handle = some (q, t')) :
    t'.Owned fun j => w j + one q j := by
  obtain ⟨⟨k, queries⟩, hk, hkt⟩ := Option.map_eq_some_iff.mp hget
  cases hkt
  have hheld := h.held.get hk
  obtain ⟨j, hj, hjq⟩ := Option.map_eq_some_iff.mp hk
  rw [Prod.mk.injEq] at hjq
  obtain ⟨rfl, rfl⟩ := hjq
  have hlive := h.held.live_of_get hj
  have hstrong : ∀ i, (t.queries.retain j).strong i = t.queries.strong i + one j i :=
    update_add_one t.queries.strong j
  refine ⟨hheld, fun i query hq hpos => h.living i query hq ?_,
    fun i query hq hz => h.dead i query hq ?_, h.apart, h.covered⟩
  · rw [hstrong] at hpos
    by_cases he : j = i
    · exact he ▸ hlive
    · rwa [one, if_neg he, Nat.add_zero] at hpos
  · rw [hstrong] at hz
    omega

/-- A reference that is dropped: the last one takes the strings of its query with it, and no others. -/
theorem drop_owned (h : t.Owned fun j => w j + one q j) : (t.drop q).Owned w := by
  have hheld := h.held.release
  have hstrong : ∀ i, (t.queries.release q).strong i = t.queries.strong i - one q i :=
    update_sub_one t.queries.strong q
  have hpos : 0 < t.queries.strong q := by
    rw [h.held.strong q, one_self]
    omega
  have hother : ∀ i, i ≠ q → (t.queries.release q).strong i = t.queries.strong i := by
    intro i hi
    rw [hstrong, one, if_neg (Ne.symm hi), Nat.sub_zero]
  unfold ProductQueryHandleTable.drop
  dsimp only
  split
  · rename_i hlast
    obtain ⟨dropped, hdropped⟩ : ∃ query, t.queries.values[q]? = some query :=
      ⟨_, List.getElem?_eq_getElem (h.held.made q hpos)⟩
    have hvalue : (t.queries.release q).values[q]? = some dropped := hdropped
    rw [hvalue]
    refine ⟨hheld, fun i query hi hlive a ha => ?_, fun i query hi hzero a ha => ?_, h.apart, ?_⟩
    · have hne : i ≠ q := fun he => absurd hlive (by rw [he, hlast]; exact Nat.lt_irrefl 0)
      rw [hother i hne] at hlive
      show ∃ s, (t.strings.free dropped.owned)[a]? = some (some s)
      rw [free_of_notMem _ (h.apart i q query dropped hi hdropped hne a ha)]
      exact h.living i query hi hlive a ha
    · show (t.strings.free dropped.owned)[a]? = some none
      by_cases he : i = q
      · subst he
        rw [hvalue, Option.some.injEq] at hi
        subst hi
        exact free_of_mem _ ha (h.lt hdropped ha)
      · rw [hother i he] at hzero
        rw [free_of_notMem _ (h.apart i q query dropped hi hdropped he a ha)]
        exact h.dead i query hi hzero a ha
    · intro a ha
      exact h.covered a (by rwa [Option.map_some, Option.getD_some, free_length] at ha)
  · rename_i hmore
    refine ⟨hheld, fun i query hi hlive => h.living i query hi ?_,
      fun i query hi hzero => h.dead i query hi ?_, h.apart, h.covered⟩
    · rw [hstrong] at hlive
      omega
    · by_cases he : i = q
      · exact absurd (he ▸ hzero) hmore
      · rwa [hother i he] at hzero

theorem drop_lists (h : t.Owned fun j => w j + one q j) (hl : t.Lists q' l)
    (hlive : 0 < (t.drop q).queries.strong q') : (t.drop q).Lists q' l := by
  obtain ⟨query, hq, hall⟩ := hl
  have hpos : 0 < t.queries.strong q := by
    rw [h.held.strong q, one_self]
    omega
  obtain ⟨dropped, hdropped⟩ : ∃ query, t.queries.values[q]? = some query :=
    ⟨_, List.getElem?_eq_getElem (h.held.made q hpos)⟩
  unfold ProductQueryHandleTable.drop at hlive ⊢
  dsimp only at hlive ⊢
  split
  · rename_i hlast
    rw [if_pos hlast] at hlive
    have hne : q' ≠ q := fun he => absurd hlive (by rw [he]; exact Nat.not_lt.mpr (Nat.le_of_eq hlast))
    have hvalue : (t.queries.release q).values[q]? = some dropped := hdropped
    refine ⟨query, hq, ?_⟩
    rw [hvalue]
    refine (List.forall₂_iff_get.mp hall).elim fun hlen hget => List.forall₂_iff_get.mpr ⟨hlen, ?_⟩
    intro i hi hi'
    refine (hget i hi hi').transfer fun a ha => free_of_notMem _ ?_
    refine h.apart q' q query dropped hq hdropped hne a ?_
    exact List.mem_flatMap.mpr ⟨_, List.get_mem _ _, ha⟩
  · exact ⟨query, hq, hall⟩

end ProductQueryHandleTable
end XGameRuntime.XStore
