import Mathlib.Data.List.Induction
import XGameRuntime.FileSystem.Path

/-! # A tree of files

Files and directories by their place, and the calls that read and change them. A call may fail of
its own accord: the argument `fault` says whether it does, and how far it has got by then.
-/

namespace XGameRuntime.FileSystem
set_option autoImplicit false

inductive Node where
  | dir
  | file (content : List UInt8)
  deriving DecidableEq, Repr

def find (nodes : List (Location × Node)) (l : Location) : Option Node :=
  (nodes.find? fun e => decide (e.1 = l)).map Prod.snd

def isDirIn (nodes : List (Location × Node)) (l : Location) : Prop :=
  l.names = [] ∨ find nodes l = some .dir

instance (nodes : List (Location × Node)) (l : Location) : Decidable (isDirIn nodes l) :=
  inferInstanceAs (Decidable (_ ∨ _))

/-- What exists has a name and lies in a directory; the root of a volume always exists. -/
structure Disk where
  nodes : List (Location × Node) := []
  tree : ∀ e ∈ nodes, e.1.Named ∧ isDirIn nodes e.1.parent := by decide

/-! ## Looking up what has been written -/

section Find
variable {nodes : List (Location × Node)} {l l' : Location}

def put (nodes : List (Location × Node)) (l : Location) (node : Node) : List (Location × Node) :=
  (l, node) :: nodes.filter fun e => decide (e.1 ≠ l)

theorem find_some {node : Node} (h : find nodes l = some node) : (l, node) ∈ nodes := by
  obtain ⟨e, he, rfl⟩ := Option.map_eq_some_iff.mp h
  have hl := List.find?_some he
  obtain rfl := of_decide_eq_true hl
  exact List.mem_of_find?_eq_some he

theorem find_filter (keep : Location → Bool) :
    find (nodes.filter fun e => keep e.1) l = if keep l then find nodes l else none := by
  induction nodes with
  | nil => simp [find]
  | cons e nodes ih =>
    rw [List.filter_cons]
    by_cases he : e.1 = l
    · subst he
      cases hk : keep e.1 with
      | true => simp [find]
      | false =>
        simp only [hk, Bool.false_eq_true, if_false] at ih ⊢
        exact ih
    · have hrest : find (e :: nodes) l = find nodes l := by simp [find, he]
      rw [hrest, ← ih]
      cases keep e.1 with
      | true => simp [find, he]
      | false => rfl

theorem find_put (node : Node) :
    find (put nodes l node) l' = if l' = l then some node else find nodes l' := by
  unfold put
  by_cases h : l' = l
  · subst h
    simp [find]
  · rw [if_neg h]
    have hrest : find ((l, node) :: nodes.filter fun e => decide (e.1 ≠ l)) l' =
        find (nodes.filter fun e => decide (e.1 ≠ l)) l' := by
      simp [find, Ne.symm h]
    rw [hrest, find_filter fun l' => decide (l' ≠ l)]
    simp [h]

theorem isDirIn_put {node : Node} (hd : isDirIn nodes l') (hn : l' = l → node = .dir) :
    isDirIn (put nodes l node) l' := by
  rcases hd with hroot | hdir
  · exact .inl hroot
  · right
    rw [find_put]
    split
    · rename_i he
      rw [hn he]
    · exact hdir

end Find

namespace Disk
variable {d : Disk} {l l' : Location}

def lookup (d : Disk) (l : Location) : Option Node := find d.nodes l

def isDir (d : Disk) (l : Location) : Prop := isDirIn d.nodes l

instance (d : Disk) (l : Location) : Decidable (d.isDir l) :=
  inferInstanceAs (Decidable (isDirIn _ _))

/-- A node can be put at `l`: its directory is there, and no directory is in the way. -/
def Writable (d : Disk) (l : Location) : Prop := l.Named ∧ d.isDir l.parent ∧ ¬ d.isDir l

instance (d : Disk) (l : Location) : Decidable (d.Writable l) :=
  inferInstanceAs (Decidable (_ ∧ _ ∧ _))

def set (d : Disk) (l : Location) (node : Node) (h : d.Writable l) : Disk where
  nodes := put d.nodes l node
  tree := by
    obtain ⟨hname, hparent, hdir⟩ := h
    refine List.forall_mem_cons.mpr
      ⟨⟨hname, isDirIn_put hparent fun he => absurd he hname.parent_ne⟩, ?_⟩
    intro e he
    obtain ⟨hname, hd⟩ := d.tree e (List.mem_filter.mp he).1
    refine ⟨hname, isDirIn_put hd fun hl => ?_⟩
    rw [hl] at hd
    exact absurd hd hdir

@[simp] theorem lookup_set (node : Node) (h : d.Writable l) :
    (d.set l node h).lookup l' = if l' = l then some node else d.lookup l' :=
  find_put node

/-- The part of the tree that `keep` keeps, which is closed upwards. -/
def restrict (d : Disk) (keep : Location → Bool)
    (h : ∀ l, keep l = true → d.lookup l ≠ none → keep l.parent = true) : Disk where
  nodes := d.nodes.filter fun e => keep e.1
  tree := by
    intro e he
    obtain ⟨hm, hk⟩ := List.mem_filter.mp he
    obtain ⟨hname, hd⟩ := d.tree e hm
    refine ⟨hname, ?_⟩
    rcases hd with hroot | hdir
    · exact .inl hroot
    · right
      have hex : d.lookup e.1 ≠ none := by
        have hsome : (d.nodes.find? fun x => decide (x.1 = e.1)).isSome = true :=
          List.find?_isSome.mpr ⟨e, hm, decide_eq_true rfl⟩
        intro hnone
        rw [lookup, find, Option.map_eq_none_iff] at hnone
        rw [hnone] at hsome
        cases hsome
      rw [find_filter, h e.1 hk hex]
      exact hdir

theorem lookup_restrict {keep : Location → Bool}
    {h : ∀ l, keep l = true → d.lookup l ≠ none → keep l.parent = true} :
    (d.restrict keep h).lookup l = if keep l then d.lookup l else none :=
  find_filter keep

/-- The directory of what exists. -/
theorem isDir_parent (h : d.lookup l ≠ none) : d.isDir l.parent := by
  obtain ⟨node, hn⟩ := Option.ne_none_iff_exists'.mp h
  exact (d.tree _ (find_some hn)).2

theorem named (h : d.lookup l ≠ none) : l.Named := by
  obtain ⟨node, hn⟩ := Option.ne_none_iff_exists'.mp h
  exact (d.tree _ (find_some hn)).1

/-! ## The calls -/

/-- How a write fails: before the file is opened, which empties it, or after so many bytes. -/
inductive WriteFault where
  | open
  | after (written : ℕ)
  deriving DecidableEq, Repr

/-- What a write leaves in the file, `none` when it does not get to open it. -/
def stored (content : List UInt8) : Option WriteFault → Option (List UInt8)
  | none => some content
  | some .open => none
  | some (.after written) => some (content.take written)

/-- `fs::write`. -/
def write (d : Disk) (l : Location) (content : List UInt8) (fault : Option WriteFault) :
    Bool × Disk :=
  if h : d.Writable l then
    match stored content fault with
    | none => (false, d)
    | some bytes => (fault.isNone, d.set l (.file bytes) h)
  else (false, d)

/-- `fs::remove_file`. -/
def remove (d : Disk) (l : Location) (fault : Bool) : Bool × Disk :=
  if h : ¬ d.isDir l then
    if d.lookup l = none ∨ fault = true then (false, d)
    else
      (true, d.restrict (fun l' => decide (l' ≠ l)) (by
        intro l' _ hex
        refine decide_eq_true fun hp => ?_
        exact h (hp ▸ isDir_parent hex)))
  else (false, d)

/-- One step of `fs::create_dir_all`; it fails when `fault` is used up. -/
def createDir (d : Disk) (l : Location) (fault : Option ℕ) : Bool × Disk × Option ℕ :=
  if d.isDir l then (true, d, fault)
  else
    if h : d.Writable l ∧ d.lookup l = none then
      match fault with
      | some 0 => (false, d, fault)
      | some (n + 1) => (true, d.set l .dir h.1, some n)
      | none => (true, d.set l .dir h.1, none)
    else (false, d, fault)

def createDirsFrom (d : Disk) (l : Location) (fault : Option ℕ) : List String → Bool × Disk
  | [] => (true, d)
  | name :: names =>
      match d.createDir (l.child name) fault with
      | (true, d', fault') => createDirsFrom d' (l.child name) fault' names
      | (false, d', _) => (false, d')

/-- `fs::create_dir_all`; `fault` is the number of directories it makes before it fails. -/
def createDirs (d : Disk) (l : Location) (fault : Option ℕ) : Bool × Disk :=
  d.createDirsFrom { l with names := [] } fault l.names

inductive Removal where
  | removed
  | notFound
  | failed
  deriving DecidableEq, Repr

/-- What the removal of `l` leaves when it gets no further than the places in `left`. -/
def survives (l : Location) (left : List Location) (l' : Location) : Bool :=
  !l'.under l || left.any (·.under l')

theorem survives_parent {left : List Location} (h : survives l left l' = true) :
    survives l left l'.parent = true := by
  simp only [survives, Bool.or_eq_true, Bool.not_eq_true', List.any_eq_true] at h ⊢
  rcases h with h | ⟨k, hk, hu⟩
  · left
    cases hp : l'.parent.under l with
    | false => rfl
    | true =>
      rw [Location.under_of_parent hp] at h
      cases h
  · exact .inr ⟨k, hk, Location.under_parent hu⟩

/-- `fs::remove_dir_all`; where it fails, the places in `left` and what they lie in are left. -/
def removeTree (d : Disk) (l : Location) (left : List Location) : Removal × Disk :=
  if d.isDir l then
    let d' := d.restrict (survives l left) fun _ h _ => survives_parent h
    (if d'.isDir l then .failed else .removed, d')
  else if d.lookup l = none then (.notFound, d) else (.failed, d)

/-- `fs::read`. -/
def read (d : Disk) (l : Location) : Option (List UInt8) :=
  match d.lookup l with
  | some (.file content) => some content
  | _ => none

/-- `fs::read_dir`: the names in a directory. -/
def list (d : Disk) (l : Location) : List String :=
  d.nodes.filterMap fun e => if e.1.parent = l then e.1.names.getLast? else none

/-! ## What the calls change -/

theorem isDir_iff : d.isDir l ↔ l.names = [] ∨ d.lookup l = some .dir := Iff.rfl

/-- A write changes no place but its own. -/
theorem lookup_write {content : List UInt8} {fault : Option WriteFault} :
    (d.write l content fault).2.lookup l' =
      if l' = l ∧ d.Writable l then
        ((stored content fault).map Node.file).or (d.lookup l')
      else d.lookup l' := by
  unfold write
  by_cases hw : d.Writable l
  · rw [dif_pos hw]
    cases stored content fault with
    | none => simp
    | some bytes =>
      rw [lookup_set]
      by_cases hl : l' = l <;> simp [hl, hw]
  · rw [dif_neg hw]
    simp [hw]

theorem write_true {content : List UInt8} {fault : Option WriteFault} :
    (d.write l content fault).1 = true ↔ d.Writable l ∧ fault = none := by
  unfold write
  by_cases hw : d.Writable l
  · rw [dif_pos hw]
    cases fault with
    | none => simp [stored, hw]
    | some f => cases f <;> simp [stored]
  · rw [dif_neg hw]
    simp [hw]

theorem isDir_write {content : List UInt8} {fault : Option WriteFault} :
    (d.write l content fault).2.isDir l' ↔ d.isDir l' := by
  rw [isDir_iff, isDir_iff, lookup_write]
  refine or_congr_right ?_
  split
  · rename_i h
    obtain ⟨rfl, hw⟩ := h
    have hdir : d.lookup l' ≠ some .dir := fun hd => hw.2.2 (.inr hd)
    cases stored content fault <;> simp [hdir]
  · exact Iff.rfl

theorem writable_write (d : Disk) (l l' : Location) (content : List UInt8)
    (fault : Option WriteFault) :
    (d.write l content fault).2.Writable l' ↔ d.Writable l' := by
  simp only [Writable, isDir_write]

theorem lookup_remove {fault : Bool} :
    (d.remove l fault).2.lookup l' =
      if l' = l ∧ ¬ d.isDir l ∧ fault = false then none else d.lookup l' := by
  unfold remove
  by_cases hd : d.isDir l
  · rw [dif_neg (not_not.mpr hd)]
    simp [hd]
  · rw [dif_pos hd]
    by_cases hn : d.lookup l = none ∨ fault = true
    · rw [if_pos hn]
      rcases hn with hn | hn
      · split
        · rename_i h
          rw [h.1]
          exact hn
        · rfl
      · simp [hn]
    · rw [if_neg hn, lookup_restrict]
      have hf : fault = false := by
        cases fault with
        | false => rfl
        | true => exact absurd (.inr rfl) hn
      by_cases hl : l' = l <;> simp [hl, hd, hf]

theorem createDir_lookup (d : Disk) (l l' : Location) (fault : Option ℕ) :
    (d.createDir l fault).2.1.lookup l' = d.lookup l' ∨
    (l' = l ∧ d.lookup l = none ∧ (d.createDir l fault).2.1.lookup l' = some .dir) := by
  unfold createDir
  split
  · exact .inl rfl
  · split
    · rename_i h
      have hset : (d.set l .dir h.1).lookup l' = d.lookup l' ∨
          (l' = l ∧ d.lookup l = none ∧ (d.set l .dir h.1).lookup l' = some .dir) := by
        rw [lookup_set]
        by_cases hl : l' = l
        · exact .inr ⟨hl, h.2, if_pos hl⟩
        · exact .inl (if_neg hl)
      match fault with
      | some 0 => exact .inl rfl
      | some (n + 1) => exact hset
      | none => exact hset
    · exact .inl rfl

theorem createDir_true {d : Disk} {l : Location} {fault : Option ℕ} (h : (d.createDir l fault).1 = true) :
    (d.createDir l fault).2.1.isDir l := by
  unfold createDir at h ⊢
  split at h
  · rename_i hd
    rw [if_pos hd]
    exact hd
  · rename_i hd
    rw [if_neg hd]
    split at h
    · rename_i hw
      rw [dif_pos hw]
      match fault with
      | some 0 => cases h
      | some (n + 1) => exact isDir_iff.mpr (.inr (by simp))
      | none => exact isDir_iff.mpr (.inr (by simp))
    · cases h

/-- Making directories puts them where nothing was, on the way down. -/
theorem lookup_createDirsFrom (names : List String) (d : Disk) (l l' : Location)
    (fault : Option ℕ) :
    (d.createDirsFrom l fault names).2.lookup l' = d.lookup l' ∨
      (d.lookup l' = none ∧ (d.createDirsFrom l fault names).2.lookup l' = some .dir ∧
        ({ l with names := l.names ++ names } : Location).under l' = true) := by
  induction names generalizing d l fault with
  | nil => exact .inl rfl
  | cons name names ih =>
    have hstep := createDir_lookup d (l.child name) l' fault
    have hunder : ({ l with names := l.names ++ name :: names } : Location).under
        (l.child name) = true :=
      Location.under_iff.mpr ⟨rfl, names, by simp [Location.child]⟩
    unfold createDirsFrom
    rcases hc : d.createDir (l.child name) fault with ⟨ok, d1, fault1⟩
    rw [hc] at hstep
    cases ok with
    | false =>
      rcases hstep with hsame | ⟨rfl, hnone, hdir⟩
      · exact .inl hsame
      · exact .inr ⟨hnone, hdir, hunder⟩
    | true =>
      have hrest := ih d1 (l.child name) fault1
      have happ : (l.child name).names ++ names = l.names ++ name :: names := by
        simp [Location.child]
      rw [happ] at hrest
      rcases hstep with hsame | ⟨rfl, hnone, hdir⟩
      · dsimp only at hsame hrest ⊢
        rw [hsame] at hrest
        exact hrest
      · right
        rcases hrest with hkeep | ⟨hgone, -⟩
        · exact ⟨hnone, hkeep.trans hdir, hunder⟩
        · exact absurd (hdir.symm.trans hgone) (by simp)

theorem lookup_createDirs (d : Disk) (l l' : Location) (fault : Option ℕ) :
    (d.createDirs l fault).2.lookup l' = d.lookup l' ∨
      (d.lookup l' = none ∧ (d.createDirs l fault).2.lookup l' = some .dir ∧
        l.under l' = true) :=
  lookup_createDirsFrom l.names d { l with names := [] } l' fault

theorem createDirsFrom_true {names : List String} {fault : Option ℕ} (hd : d.isDir l)
    (h : (d.createDirsFrom l fault names).1 = true) :
    (d.createDirsFrom l fault names).2.isDir { l with names := l.names ++ names } := by
  induction names generalizing d l fault with
  | nil =>
    rw [List.append_nil]
    exact hd
  | cons name names ih =>
    unfold createDirsFrom at h ⊢
    have hmade : (d.createDir (l.child name) fault).1 = true →
        (d.createDir (l.child name) fault).2.1.isDir (l.child name) := createDir_true
    rcases hc : d.createDir (l.child name) fault with ⟨ok, d1, fault1⟩
    rw [hc] at h hmade
    cases ok with
    | false => cases h
    | true =>
      have hrest := ih (hmade rfl) h
      have happ : (l.child name).names ++ names = l.names ++ name :: names := by
        simp [Location.child]
      rw [happ] at hrest
      exact hrest

/-- When it succeeds, the directory is there. -/
theorem createDirs_true {fault : Option ℕ} (h : (d.createDirs l fault).1 = true) :
    (d.createDirs l fault).2.isDir l :=
  createDirsFrom_true (.inl rfl) h

/-- Above what exists there are directories. -/
theorem isDir_above {names : List String} (hne : names ≠ [])
    (h : d.lookup { l with names := l.names ++ names } ≠ none) : d.isDir l := by
  induction names using List.reverseRecOn with
  | nil => exact absurd rfl hne
  | append_singleton names name ih =>
    have hparent := isDir_parent h
    have hp : ({ l with names := l.names ++ (names ++ [name]) } : Location).parent =
        { l with names := l.names ++ names } := by
      simp [Location.parent, ← List.append_assoc]
    rw [hp] at hparent
    by_cases hnil : names = []
    · subst hnil
      simpa using hparent
    · rcases hparent with hroot | hdir
      · exact absurd (List.append_eq_nil_iff.mp hroot).2 hnil
      · refine ih hnil ?_
        rw [lookup, hdir]
        simp

/-- A removal changes nothing outside the subtree. -/
theorem lookup_removeTree {left : List Location} (h : l'.under l = false) :
    (d.removeTree l left).2.lookup l' = d.lookup l' := by
  unfold removeTree
  split
  · rw [lookup_restrict, survives, h]
    rfl
  · split <;> rfl

/-- Unless it fails, the subtree is gone. -/
theorem removeTree_gone {left : List Location} (hroot : l.names ≠ [])
    (h : (d.removeTree l left).1 ≠ .failed) (hu : l'.under l = true) :
    (d.removeTree l left).2.lookup l' = none := by
  have hnot : ¬ (d.removeTree l left).2.isDir l ∧ (d.removeTree l left).2.lookup l = none := by
    unfold removeTree at h ⊢
    by_cases hd : d.isDir l
    · rw [if_pos hd] at h ⊢
      dsimp only at h ⊢
      split at h
      · exact absurd rfl h
      · rename_i hgone
        refine ⟨hgone, ?_⟩
        rw [lookup_restrict]
        split
        · rename_i hs
          rcases hd with hnil | hdir
          · exact absurd hnil hroot
          · refine absurd (isDir_iff.mpr (.inr ?_)) hgone
            rw [lookup_restrict, if_pos hs]
            exact hdir
        · rfl
    · rw [if_neg hd] at h ⊢
      by_cases hn : d.lookup l = none
      · rw [if_pos hn]
        exact ⟨hd, hn⟩
      · rw [if_neg hn] at h
        exact absurd rfl h
  obtain ⟨hv, rest, hrest⟩ := Location.under_iff.mp hu
  have hl : l' = { l with names := l.names ++ rest } := Location.ext hv hrest.symm
  by_contra hex
  by_cases hnil : rest = []
  · subst hnil
    rw [List.append_nil] at hl
    rw [hl] at hex
    exact hex hnot.2
  · rw [hl] at hex
    exact hnot.1 (isDir_above hnil hex)

/-! ## What can be read -/

theorem read_congr {d' : Disk} (h : d'.lookup l = d.lookup l) : d'.read l = d.read l := by
  rw [read, h, read]

theorem read_eq_none (h : d.isDir l) : d.read l = none := by
  unfold read
  rcases h with hroot | hdir
  · cases hl : d.lookup l with
    | none => rfl
    | some node => exact absurd hroot (named (by rw [hl]; simp)).ne_nil
  · rw [lookup, hdir]

theorem read_write (d : Disk) (l l' : Location) (content : List UInt8)
    (fault : Option WriteFault) :
    (d.write l content fault).2.read l' =
      if l' = l ∧ d.Writable l then (stored content fault).or (d.read l') else d.read l' := by
  by_cases h : l' = l ∧ d.Writable l
  · rw [if_pos h, read, lookup_write, if_pos h]
    cases stored content fault <;> rfl
  · rw [if_neg h]
    exact read_congr (by rw [lookup_write, if_neg h])

/-- Directories are made where there is no file. -/
theorem read_createDirs {fault : Option ℕ} : (d.createDirs l fault).2.read l' = d.read l' := by
  rcases lookup_createDirs d l l' fault with
    hsame | ⟨hnone, hdir, -⟩
  · exact read_congr hsame
  · rw [read, hdir, read, hnone]

theorem read_remove : (d.remove l false).2.read l = none := by
  by_cases hd : d.isDir l
  · have hsame : (d.remove l false).2.lookup l = d.lookup l := by
      rw [lookup_remove, if_neg fun h => h.2.1 hd]
    rw [read_congr hsame]
    exact read_eq_none hd
  · rw [read, lookup_remove, if_pos ⟨rfl, hd, rfl⟩]

theorem read_remove_of_none {fault : Bool} (h : d.read l' = none) :
    (d.remove l fault).2.read l' = none := by
  by_cases hc : l' = l ∧ ¬ d.isDir l ∧ fault = false
  · rw [read, lookup_remove, if_pos hc]
  · have hsame : (d.remove l fault).2.lookup l' = d.lookup l' := by
      rw [lookup_remove, if_neg hc]
    rw [read_congr hsame, h]

theorem isDir_remove {fault : Bool} : (d.remove l fault).2.isDir l' ↔ d.isDir l' := by
  rw [isDir_iff, isDir_iff, lookup_remove]
  refine or_congr_right ?_
  split
  · rename_i h
    obtain ⟨rfl, hd, -⟩ := h
    have hdir : d.lookup l' ≠ some .dir := fun he => hd (.inr he)
    simp [hdir]
  · exact Iff.rfl

theorem writable_remove (d : Disk) (l l' : Location) (fault : Bool) : (d.remove l fault).2.Writable l' ↔ d.Writable l' := by
  simp only [Writable, isDir_remove]

/-- What a directory lists can be a name. -/
theorem plain_of_mem_list {name : String} (h : name ∈ d.list l) : Plain name := by
  obtain ⟨e, he, hname⟩ := List.mem_filterMap.mp h
  split at hname
  · obtain ⟨name', hn, hp⟩ := (d.tree e he).1
    obtain rfl := Option.some.inj (hname.symm.trans hn)
    exact hp
  · cases hname

theorem list_eq_nil (h : ¬ d.isDir l) : d.list l = [] := by
  refine List.filterMap_eq_nil_iff.mpr fun e he => if_neg ?_
  rintro rfl
  exact h (d.tree e he).2

theorem mem_list {name : String} : name ∈ d.list l ↔ d.lookup (l.child name) ≠ none := by
  constructor
  · intro h
    obtain ⟨e, he, hname⟩ := List.mem_filterMap.mp h
    split at hname
    · rename_i hl
      have hchild : e.1 = l.child name := Location.eq_child hl hname
      have hsome : (d.nodes.find? fun x => decide (x.1 = l.child name)).isSome = true :=
        List.find?_isSome.mpr ⟨e, he, decide_eq_true hchild⟩
      rw [lookup, find, ne_eq, Option.map_eq_none_iff]
      exact Option.isSome_iff_ne_none.mp hsome
    · cases hname
  · intro h
    obtain ⟨node, hn⟩ := Option.ne_none_iff_exists'.mp h
    refine List.mem_filterMap.mpr ⟨_, find_some hn, ?_⟩
    rw [if_pos (Location.parent_child l name), Location.child]
    exact List.getLast?_concat

/-- Each place has one entry. -/
def Distinct (d : Disk) : Prop := (d.nodes.map Prod.fst).Nodup

theorem Distinct.restrict (h : d.Distinct) {keep : Location → Bool}
    (hk : ∀ l, keep l = true → d.lookup l ≠ none → keep l.parent = true) :
    (d.restrict keep hk).Distinct :=
  (List.filter_sublist.map _).nodup h

theorem Distinct.set (h : d.Distinct) {node : Node} (hw : d.Writable l) :
    (d.set l node hw).Distinct := by
  refine List.nodup_cons.mpr ⟨fun hmem => ?_, (List.filter_sublist.map _).nodup h⟩
  obtain ⟨e, he, hl⟩ := List.mem_map.mp hmem
  exact of_decide_eq_true (List.mem_filter.mp he).2 hl

theorem Distinct.write (h : d.Distinct) {content : List UInt8} {fault : Option WriteFault} :
    (d.write l content fault).2.Distinct := by
  unfold Disk.write
  split
  · rename_i hw
    split
    · exact h
    · exact h.set hw
  · exact h

theorem Distinct.remove (h : d.Distinct) {fault : Bool} : (d.remove l fault).2.Distinct := by
  unfold Disk.remove
  split
  · split
    · exact h
    · exact h.restrict _
  · exact h

theorem Distinct.createDirs (h : d.Distinct) {fault : Option ℕ} :
    (d.createDirs l fault).2.Distinct := by
  have hone : ∀ {d : Disk} (l : Location) (fault : Option ℕ), d.Distinct →
      (d.createDir l fault).2.1.Distinct := by
    intro d l fault h
    unfold createDir
    split
    · exact h
    · split
      · rename_i hw
        cases fault with
        | none => exact h.set hw.1
        | some n => cases n <;> first | exact h | exact h.set hw.1
      · exact h
  have hall : ∀ (names : List String) {d : Disk} {l : Location} {fault : Option ℕ}, d.Distinct →
      (d.createDirsFrom l fault names).2.Distinct := by
    intro names
    induction names with
    | nil => exact fun h => h
    | cons name names ih =>
      intro d l fault h
      have hstep := hone (l.child name) fault h
      unfold createDirsFrom
      split <;> rename_i hc <;> rw [hc] at hstep
      · exact ih hstep
      · exact hstep
  exact hall _ h

theorem Distinct.removeTree (h : d.Distinct) {left : List Location} :
    (d.removeTree l left).2.Distinct := by
  unfold Disk.removeTree
  split
  · exact h.restrict fun _ hs _ => survives_parent hs
  · split <;> exact h

theorem nodup_list (h : d.Distinct) : (d.list l).Nodup := by
  have hpairs := (List.pairwise_map.mp h)
  refine List.Pairwise.filterMap _ (fun e e' hne name hname name' hname' => ?_) hpairs
  rintro rfl
  split at hname
  · rename_i hl
    split at hname'
    · rename_i hl'
      exact hne ((Location.eq_child hl hname).trans (Location.eq_child hl' hname').symm)
    · cases hname'
  · cases hname

end Disk
end XGameRuntime.FileSystem
