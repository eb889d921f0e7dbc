import Mathlib.Data.Nat.Notation
import Mathlib.Data.List.Basic

/-! # Paths

The paths of a host with volumes and two separators: how a string is read as a path, what `join`
makes of two of them, and which place in the tree a path denotes. Joining a name moves one step
down the tree when the name is plain, and only then does the name come out as it went in.
-/

namespace XGameRuntime.FileSystem
set_option autoImplicit false

/-! ## Reading a path -/

def isSeparator (c : Char) : Bool := c == '/' || c == '\\'

/-- A path as it is written. The parts may be empty, `.` or `..`. -/
@[ext] structure Path where
  volume : Option String := none
  rooted : Bool := false
  parts : List String := []
  deriving DecidableEq, Repr

def startsWithDrive : List Char → Bool
  | letter :: ':' :: _ => letter.isAlpha
  | _ => false

/-- The prefix of a path: a drive, or `\\server\share`, after which the path is rooted. -/
def splitVolume (s : List Char) : Option String × Bool × List Char :=
  if startsWithDrive s then (some (String.ofList ((s.take 2).map Char.toUpper)), false, s.drop 2)
  else
    match s with
    | a :: b :: rest =>
        let server := rest.takeWhile fun c => !isSeparator c
        let tail := (rest.dropWhile fun c => !isSeparator c).drop 1
        let share := tail.takeWhile fun c => !isSeparator c
        if isSeparator a && isSeparator b && !server.isEmpty && !share.isEmpty then
          (some (String.ofList ('\\' :: '\\' :: server ++ '\\' :: share)), true,
            tail.dropWhile fun c => !isSeparator c)
        else (none, false, s)
    | _ => (none, false, s)

def Path.parse (s : String) : Path :=
  let (volume, implicit, rest) := splitVolume s.toList
  { volume := volume
    rooted := implicit || rest.head?.any isSeparator
    parts := (rest.splitOnP isSeparator).map String.ofList }

/-- What is joined replaces the path if it names a volume, and everything but the volume if it is
rooted. -/
def Path.join (p q : Path) : Path :=
  if q.volume.isSome then q
  else if q.rooted then { p with rooted := true, parts := q.parts }
  else { p with parts := p.parts ++ q.parts }

/-- A name that stands for one entry of a directory wherever it is joined. -/
def Plain (name : String) : Prop :=
  name ≠ "" ∧ name ≠ "." ∧ name ≠ ".." ∧ (∀ c ∈ name.toList, isSeparator c = false) ∧
    startsWithDrive name.toList = false

instance (name : String) : Decidable (Plain name) :=
  -- by the list, not over all characters
  letI : Decidable (∀ c ∈ name.toList, isSeparator c = false) := List.decidableBAll _ _
  inferInstanceAs (Decidable (_ ∧ _ ∧ _ ∧ _ ∧ _))

/-! ## Places in the tree -/

@[ext] structure Location where
  volume : String
  names : List String
  deriving DecidableEq, Repr

namespace Location

def child (l : Location) (name : String) : Location := { l with names := l.names ++ [name] }

def parent (l : Location) : Location := { l with names := l.names.dropLast }

/-- `l` is `dir` or lies below it. -/
def under (l dir : Location) : Bool := l.volume == dir.volume && dir.names.isPrefixOf l.names

theorem child_injective {l l' : Location} {name name' : String}
    (h : l.child name = l'.child name') : l = l' ∧ name = name' := by
  obtain ⟨hv, hn⟩ := Location.mk.injEq .. ▸ h
  obtain ⟨h1, h2⟩ := List.append_inj' hn rfl
  refine ⟨?_, List.singleton_inj.mp h2⟩
  cases l
  cases l'
  simp_all

theorem under_iff {l dir : Location} :
    l.under dir = true ↔ l.volume = dir.volume ∧ dir.names <+: l.names := by
  simp [under]

theorem under_refl (l : Location) : l.under l = true :=
  under_iff.mpr ⟨rfl, List.prefix_rfl⟩

theorem under_child {l dir : Location} (name : String) (h : l.under dir = true) :
    (l.child name).under dir = true := by
  obtain ⟨hv, hp⟩ := under_iff.mp h
  exact under_iff.mpr ⟨hv, hp.trans (List.prefix_append _ _)⟩

theorem under_of_parent {l dir : Location} (h : l.parent.under dir = true) :
    l.under dir = true := by
  obtain ⟨hv, hp⟩ := under_iff.mp h
  exact under_iff.mpr ⟨hv, hp.trans (List.dropLast_prefix _)⟩

theorem under_parent {l dir : Location} (h : l.under dir = true) : l.under dir.parent = true := by
  obtain ⟨hv, hp⟩ := under_iff.mp h
  exact under_iff.mpr ⟨hv, (List.dropLast_prefix _).trans hp⟩

theorem under_trans {l m dir : Location} (h1 : l.under m = true) (h2 : m.under dir = true) :
    l.under dir = true := by
  obtain ⟨hv1, hp1⟩ := under_iff.mp h1
  obtain ⟨hv2, hp2⟩ := under_iff.mp h2
  exact under_iff.mpr ⟨hv1.trans hv2, hp2.trans hp1⟩

@[simp] theorem parent_child (l : Location) (name : String) : (l.child name).parent = l := by
  simp [child, parent]

theorem eq_child {k l : Location} {name : String} (hp : k.parent = l)
    (hn : k.names.getLast? = some name) : k = l.child name := by
  subst hp
  obtain ⟨names, hnames⟩ := List.getLast?_eq_some_iff.mp hn
  obtain ⟨volume, all⟩ := k
  subst hnames
  simp [child, parent]

/-- The place has a name that a file or a directory can have. -/
def Named (l : Location) : Prop := ∃ name ∈ l.names.getLast?, Plain name

instance (l : Location) : Decidable l.Named :=
  match h : l.names.getLast? with
  | none => isFalse fun ⟨_, hn, _⟩ => by simp [h] at hn
  | some name =>
      decidable_of_iff (Plain name) ⟨fun hp => ⟨name, h, hp⟩, fun ⟨_, hn, hp⟩ => by
        obtain rfl := Option.some.inj (h.symm.trans hn)
        exact hp⟩

theorem Named.ne_nil {l : Location} (h : l.Named) : l.names ≠ [] := by
  rintro hnil
  obtain ⟨name, hn, -⟩ := h
  rw [hnil] at hn
  cases hn

theorem Named.parent_ne {l : Location} (h : l.Named) : l.parent ≠ l := by
  intro he
  have hlen := congrArg (fun l => l.names.length) he
  simp only [parent, List.length_dropLast] at hlen
  have hpos := List.length_pos_of_ne_nil h.ne_nil
  omega

@[simp] theorem named_child {l : Location} {name : String} : (l.child name).Named ↔ Plain name := by
  simp [Named, child]

end Location

/-- The current volume, and the current directory on each. -/
structure WorkingDirs where
  volume : String
  names : String → List String
  plain : ∀ v, ∀ name ∈ names v, Plain name

/-- One part on the way down: `.` and nothing stay, `..` goes up, and stays at the root. -/
def walk (names : List String) (part : String) : List String :=
  if part = "" ∨ part = "." then names
  else if part = ".." then names.dropLast
  else names ++ [part]

/-- The place that a path denotes. -/
def Path.resolve (dirs : WorkingDirs) (p : Path) : Location :=
  let volume := p.volume.getD dirs.volume
  { volume := volume
    names := p.parts.foldl walk (if p.rooted then [] else dirs.names volume) }

/-! ## Joining names -/

section Join
variable {dirs : WorkingDirs} {p : Path} {name : String}

theorem splitVolume_plain (h : Plain name) :
    splitVolume name.toList = (none, false, name.toList) := by
  obtain ⟨-, -, -, hsep, hdrive⟩ := h
  unfold splitVolume
  rw [hdrive]
  simp only [Bool.false_eq_true, if_false]
  split
  · rename_i a b rest hl
    have ha : isSeparator a = false := hsep a (by rw [hl]; exact List.mem_cons_self)
    simp [ha]
  · rfl

theorem parse_plain (h : Plain name) : Path.parse name = ⟨none, false, [name]⟩ := by
  have hsep := h.2.2.2.1
  have hhead : name.toList.head?.any isSeparator = false := by
    cases hl : name.toList with
    | nil => rfl
    | cons c rest =>
      have hc := hsep c (by rw [hl]; exact List.mem_cons_self)
      simpa using hc
  have hsplit : name.toList.splitOnP isSeparator = [name.toList] :=
    List.splitOnP_eq_singleton hsep
  rw [Path.parse, splitVolume_plain h]
  simp [hhead, hsplit, String.ofList_toList]

theorem walk_plain (names : List String) (h : Plain name) : walk names name = names ++ [name] := by
  simp [walk, h.1, h.2.1, h.2.2.1]

theorem resolve_join_plain (h : Plain name) :
    (p.join (Path.parse name)).resolve dirs = (p.resolve dirs).child name := by
  rw [parse_plain h]
  simp only [Path.join, Path.resolve, Location.child, Option.isSome_none, Bool.false_eq_true,
    if_false, List.foldl_append, List.foldl_cons, List.foldl_nil]
  rw [walk_plain _ h]

end Join

/-! ## What a place says about the names -/

theorem splitOnP_pieces {α : Type} {p : α → Bool} {xs piece : List α}
    (h : piece ∈ xs.splitOnP p) : (∀ x ∈ piece, p x = false) ∧ piece.length ≤ xs.length := by
  induction xs generalizing piece with
  | nil =>
    rw [List.splitOnP_nil, List.mem_singleton] at h
    subst h
    exact ⟨List.forall_mem_nil _, Nat.le_refl _⟩
  | cons x xs ih =>
    rw [List.splitOnP_cons_eq_if_modifyHead] at h
    by_cases hx : p x = true
    · rw [if_pos hx] at h
      rcases List.mem_cons.mp h with rfl | h
      · exact ⟨List.forall_mem_nil _, Nat.zero_le _⟩
      · exact ⟨(ih h).1, Nat.le_trans (ih h).2 (Nat.le_succ _)⟩
    · rw [if_neg hx] at h
      obtain ⟨first, rest, hl⟩ := List.exists_cons_of_ne_nil (List.splitOnP_ne_nil p xs)
      rw [hl, List.modifyHead_cons] at h
      rcases List.mem_cons.mp h with rfl | h
      · have hmem : first ∈ xs.splitOnP p := by
          rw [hl]
          exact List.mem_cons_self
        have hfirst := ih hmem
        exact ⟨List.forall_mem_cons.mpr ⟨by simpa using hx, hfirst.1⟩,
          Nat.succ_le_succ hfirst.2⟩
      · have hmem : piece ∈ xs.splitOnP p := by
          rw [hl]
          exact List.mem_cons_of_mem _ h
        have hrest := ih hmem
        exact ⟨hrest.1, Nat.le_trans hrest.2 (Nat.le_succ _)⟩

/-- No part has a separator in it. -/
def Path.Clean (p : Path) : Prop := ∀ part ∈ p.parts, ∀ c ∈ part.toList, isSeparator c = false

theorem parse_part {s part : String} (h : part ∈ (Path.parse s).parts) :
    (∀ c ∈ part.toList, isSeparator c = false) ∧
      part.length ≤ (splitVolume s.toList).2.2.length := by
  obtain ⟨piece, hp, rfl⟩ := List.mem_map.mp h
  obtain ⟨hsep, hlen⟩ := splitOnP_pieces hp
  rw [String.toList_ofList]
  refine ⟨hsep, ?_⟩
  rw [← String.length_toList, String.toList_ofList]
  exact hlen

theorem parse_clean (s : String) : (Path.parse s).Clean := fun _ h => (parse_part h).1

theorem join_clean {p q : Path} (hp : p.Clean) (hq : q.Clean) : (p.join q).Clean := by
  unfold Path.join
  split
  · exact hq
  · split
    · exact hq
    · exact List.forall_mem_append.mpr ⟨hp, hq⟩

/-- The names of a place come from the working directory or are parts of the path. -/
theorem mem_walk {parts start : List String} {name : String}
    (h : name ∈ parts.foldl walk start) :
    name ∈ start ∨ name ∈ parts ∧ name ≠ "" ∧ name ≠ "." ∧ name ≠ ".." := by
  induction parts generalizing start with
  | nil => exact .inl h
  | cons part parts ih =>
    rw [List.foldl_cons] at h
    rcases ih h with hw | ⟨hm, hne⟩
    · unfold walk at hw
      split at hw
      · exact .inl hw
      · rename_i hdot
        split at hw
        · exact .inl (List.dropLast_subset _ hw)
        · rename_i hdots
          rcases List.mem_append.mp hw with hw | hw
          · exact .inl hw
          · obtain rfl := List.mem_singleton.mp hw
            exact .inr ⟨List.mem_cons_self, fun he => hdot (.inl he), fun he => hdot (.inr he),
              hdots⟩
    · exact .inr ⟨List.mem_cons_of_mem _ hm, hne⟩

theorem mem_resolve {dirs : WorkingDirs} {p : Path} {name : String}
    (h : name ∈ (p.resolve dirs).names) :
    Plain name ∨ name ∈ p.parts ∧ name ≠ "" ∧ name ≠ "." ∧ name ≠ ".." := by
  rcases mem_walk h with hs | hp
  · left
    split at hs
    · cases hs
    · exact dirs.plain _ name hs
  · exact .inr hp

theorem splitVolume_drive {s : List Char} (h : startsWithDrive s = true) :
    (splitVolume s).1.isSome = true ∧ (splitVolume s).2.2 = s.drop 2 ∧ 2 ≤ s.length := by
  have hlen : 2 ≤ s.length := by
    match s, h with
    | a :: b :: rest, _ => exact Nat.le_add_left 2 _
  unfold splitVolume
  rw [h]
  exact ⟨rfl, rfl, hlen⟩

/-- A name that comes out of a joined path as it went in is plain. -/
theorem plain_of_mem_resolve {dirs : WorkingDirs} {p : Path} {name : String} (hp : p.Clean)
    (h : name ∈ ((p.join (Path.parse name)).resolve dirs).names) : Plain name := by
  rcases mem_resolve h with hplain | ⟨hpart, h1, h2, h3⟩
  · exact hplain
  · have hsep := join_clean hp (parse_clean name) name hpart
    refine ⟨h1, h2, h3, hsep, ?_⟩
    cases hd : startsWithDrive name.toList with
    | false => rfl
    | true =>
      obtain ⟨hvolume, hrest, hlen⟩ := splitVolume_drive hd
      have hjoin : p.join (Path.parse name) = Path.parse name := by
        unfold Path.join
        exact if_pos hvolume
      rw [hjoin] at hpart
      have hle := (parse_part hpart).2
      rw [hrest, List.length_drop, ← String.length_toList] at hle
      omega

end XGameRuntime.FileSystem
