import XGameRuntime.GameSave.Storage

/-! # Submitting an update

What each part of `XGameSaveSubmitUpdate` leaves on the disk, and from it when the whole is all or
nothing: whether every blob is as before where it fails, and as the update says where it does not.
-/

namespace XGameRuntime.GameSave
open FileSystem
set_option autoImplicit false

/-! ## The writes -/

section Writes
variable {host : Host} {d d' : Disk} {root : Path} {l : Location}
  {writes : List (String × List UInt8)} {faults : ℕ → Option Disk.WriteFault}

/-- What the writes leave, up to and with the first that fails. -/
def landed (host : Host) (d : Disk) (root : Path) :
    List (String × List UInt8) → (ℕ → Option Disk.WriteFault) → List (Location × List UInt8)
  | [], _ => []
  | (name, data) :: writes, faults =>
      let l := host.place (blobPath root name)
      if d.Writable l then
        match Disk.stored data (faults 0) with
        | none => []
        | some bytes =>
            (l, bytes) ::
              if faults 0 = none then landed host d root writes fun n => faults (n + 1) else []
      else []

/-- The last that has been left in a place. -/
def lastAt (l : Location) : List (Location × List UInt8) → Option (List UInt8)
  | [] => none
  | (k, bytes) :: rest => (lastAt l rest).or (if l = k then some bytes else none)

/-- Every write gets through. -/
def AllWritten (host : Host) (d : Disk) (root : Path) (writes : List (String × List UInt8))
    (faults : ℕ → Option Disk.WriteFault) : Prop :=
  ∀ i w, writes[i]? = some w → d.Writable (host.place (blobPath root w.1)) ∧ faults i = none

theorem landed_congr (h : ∀ l, d'.Writable l ↔ d.Writable l) :
    landed host d' root writes faults = landed host d root writes faults := by
  induction writes generalizing faults with
  | nil => rfl
  | cons w writes ih =>
    simp only [landed, h, ih]

theorem allWritten_congr (h : ∀ l, d'.Writable l ↔ d.Writable l) :
    AllWritten host d' root writes faults ↔ AllWritten host d root writes faults := by
  simp only [AllWritten, h]

theorem allWritten_cons {name : String} {data : List UInt8} :
    AllWritten host d root ((name, data) :: writes) faults ↔
      (d.Writable (host.place (blobPath root name)) ∧ faults 0 = none) ∧
        AllWritten host d root writes fun n => faults (n + 1) := by
  constructor
  · intro h
    exact ⟨h 0 (name, data) rfl, fun i w hw => h (i + 1) w hw⟩
  · rintro ⟨hfirst, hrest⟩ i w hw
    cases i with
    | zero =>
      obtain rfl := Option.some.inj hw
      exact hfirst
    | succ i => exact hrest i w hw

/-- The first write, and the rest if it gets through. -/
theorem applyWrites_cons {name : String} {data : List UInt8} :
    applyWrites host d root ((name, data) :: writes) faults =
      if (d.write (host.place (blobPath root name)) data (faults 0)).1 = true then
        let rest := applyWrites host
          (d.write (host.place (blobPath root name)) data (faults 0)).2 root writes
          fun n => faults (n + 1)
        (rest.1, rest.2.1, .write (host.place (blobPath root name)) :: rest.2.2)
      else
        (false, (d.write (host.place (blobPath root name)) data (faults 0)).2,
          [.write (host.place (blobPath root name))]) :=
  rfl

theorem writable_applyWrites :
    (applyWrites host d root writes faults).2.1.Writable l ↔ d.Writable l := by
  induction writes generalizing d faults with
  | nil => exact Iff.rfl
  | cons w writes ih =>
    obtain ⟨name, data⟩ := w
    have hfirst := Disk.writable_write d (host.place (blobPath root name)) l data (faults 0)
    rewrite [applyWrites_cons]
    split
    · exact ih.trans hfirst
    · exact hfirst

theorem applyWrites_true :
    (applyWrites host d root writes faults).1 = true ↔ AllWritten host d root writes faults := by
  induction writes generalizing d faults with
  | nil => exact ⟨fun _ i w hw => absurd hw (by simp), fun _ => rfl⟩
  | cons w writes ih =>
    obtain ⟨name, data⟩ := w
    have hwritable : ∀ l, (d.write (host.place (blobPath root name)) data (faults 0)).2.Writable l ↔
        d.Writable l := fun l => Disk.writable_write _ _ l _ _
    rewrite [allWritten_cons, ← @Disk.write_true _ _ data, applyWrites_cons]
    split
    · rename_i hok
      rewrite [← allWritten_congr hwritable]
      exact ih.trans ⟨fun h => ⟨hok, h⟩, And.right⟩
    · rename_i hfail
      exact ⟨fun h => absurd h Bool.false_ne_true, fun h => absurd h.1 hfail⟩

/-- What a blob holds after the writes. -/
theorem read_applyWrites :
    (applyWrites host d root writes faults).2.1.read l =
      (lastAt l (landed host d root writes faults)).or (d.read l) := by
  induction writes generalizing d faults with
  | nil => rfl
  | cons w writes ih =>
    obtain ⟨name, data⟩ := w
    have hread := Disk.read_write d (host.place (blobPath root name)) l data (faults 0)
    have hwritable : ∀ l, (d.write (host.place (blobPath root name)) data (faults 0)).2.Writable l ↔
        d.Writable l := fun l => Disk.writable_write _ _ l _ _
    rewrite [applyWrites_cons]
    split
    · rename_i hok
      obtain ⟨hk, hf⟩ := Disk.write_true.mp hok
      dsimp only
      rewrite [ih, landed_congr hwritable, hread, landed]
      rewrite [if_pos hk, hf]
      simp only [Disk.stored, if_true, lastAt]
      by_cases hl : l = host.place (blobPath root name)
      · simp [hl, hk]
      · simp [hl]
    · rename_i hfail
      dsimp only
      rewrite [hread, landed]
      by_cases hk : d.Writable (host.place (blobPath root name))
      · have hf : faults 0 ≠ none := fun hf => hfail (Disk.write_true.mpr ⟨hk, hf⟩)
        rewrite [if_pos hk]
        cases hs : Disk.stored data (faults 0) with
        | none => simp [lastAt]
        | some bytes =>
          simp only [hf, if_false, lastAt]
          by_cases hl : l = host.place (blobPath root name)
          · simp [hl, hk]
          · simp [hl]
      · simp [hk, lastAt]

theorem landed_of_allWritten (h : AllWritten host d root writes faults) :
    landed host d root writes faults =
      writes.map fun w => (host.place (blobPath root w.1), w.2) := by
  induction writes generalizing faults with
  | nil => rfl
  | cons w writes ih =>
    obtain ⟨name, data⟩ := w
    obtain ⟨⟨hk, hf⟩, hrest⟩ := allWritten_cons.mp h
    simp only [landed]
    rw [if_pos hk, hf]
    simp [Disk.stored, ih hrest]

theorem mem_of_lastAt {entries : List (Location × List UInt8)} {bytes : List UInt8}
    (h : lastAt l entries = some bytes) : (l, bytes) ∈ entries := by
  induction entries with
  | nil => cases h
  | cons e entries ih =>
    obtain ⟨k, content⟩ := e
    rw [lastAt] at h
    cases hrest : lastAt l entries with
    | some last =>
      rw [hrest] at h
      obtain rfl := Option.some.inj h
      exact List.mem_cons_of_mem _ (ih hrest)
    | none =>
      rw [hrest] at h
      by_cases hl : l = k
      · rw [if_pos hl] at h
        obtain rfl := Option.some.inj h
        rw [hl]
        exact List.mem_cons_self
      · rw [if_neg hl] at h
        cases h

theorem lastAt_ne_none {entries : List (Location × List UInt8)} {bytes : List UInt8}
    (h : (l, bytes) ∈ entries) : lastAt l entries ≠ none := by
  induction entries with
  | nil => cases h
  | cons e entries ih =>
    rw [lastAt]
    rcases List.mem_cons.mp h with rfl | h
    · cases lastAt l entries <;> simp
    · obtain ⟨last, hlast⟩ := Option.ne_none_iff_exists'.mp (ih h)
      rw [hlast]
      simp

/-- After writes that all get through a blob holds what one of them has written, or what it held
before. -/
theorem read_of_allWritten (h : AllWritten host d root writes faults) :
    (∀ w ∈ writes, ∃ w' ∈ writes,
      host.place (blobPath root w'.1) = host.place (blobPath root w.1) ∧
      (applyWrites host d root writes faults).2.1.read (host.place (blobPath root w.1)) =
        some w'.2) ∧
    ∀ l, (∀ w ∈ writes, host.place (blobPath root w.1) ≠ l) →
      (applyWrites host d root writes faults).2.1.read l = d.read l := by
  have hmap := landed_of_allWritten h
  constructor
  · intro w hw
    have hmem : (host.place (blobPath root w.1), w.2) ∈ landed host d root writes faults := by
      rw [hmap]
      exact List.mem_map.mpr ⟨w, hw, rfl⟩
    obtain ⟨last, hlast⟩ := Option.ne_none_iff_exists'.mp (lastAt_ne_none hmem)
    have hin := mem_of_lastAt hlast
    rw [hmap] at hin
    obtain ⟨w', hw', he⟩ := List.mem_map.mp hin
    obtain ⟨hl, rfl⟩ := Prod.mk.inj he
    exact ⟨w', hw', hl, by rw [read_applyWrites, hlast]; rfl⟩
  · intro l hl
    have hnone : lastAt l (landed host d root writes faults) = none := by
      by_contra hne
      obtain ⟨last, hlast⟩ := Option.ne_none_iff_exists'.mp hne
      have hin := mem_of_lastAt hlast
      rw [hmap] at hin
      obtain ⟨w', hw', he⟩ := List.mem_map.mp hin
      exact hl w' hw' (Prod.mk.inj he).1
    rw [read_applyWrites, hnone]
    rfl

end Writes

/-! ## The deletes and the sidecar -/

section Deletes
variable {host : Host} {d : Disk} {root : Path} {l : Location} {names : List String}
  {faults : ℕ → Bool}

/-- One of the deletes takes this place away. -/
def Removed (host : Host) (root : Path) (names : List String) (faults : ℕ → Bool) (l : Location) :
    Prop :=
  ∃ i name, names[i]? = some name ∧ host.place (blobPath root name) = l ∧ faults i = false

theorem removed_cons {name : String} : Removed host root (name :: names) faults l ↔
    (host.place (blobPath root name) = l ∧ faults 0 = false) ∨
      Removed host root names (fun n => faults (n + 1)) l := by
  constructor
  · rintro ⟨i, n, hn, hl, hf⟩
    cases i with
    | zero =>
      obtain rfl := Option.some.inj hn
      exact .inl ⟨hl, hf⟩
    | succ i => exact .inr ⟨i, n, hn, hl, hf⟩
  · rintro (⟨hl, hf⟩ | ⟨i, n, hn, hl, hf⟩)
    · exact ⟨0, name, rfl, hl, hf⟩
    · exact ⟨i + 1, n, hn, hl, hf⟩

theorem writable_applyDeletes :
    (applyDeletes host d root names faults).1.Writable l ↔ d.Writable l := by
  induction names generalizing d faults with
  | nil => exact Iff.rfl
  | cons name names ih =>
    have hfirst := Disk.writable_remove d (host.place (blobPath root name)) l (faults 0)
    rewrite [applyDeletes]
    exact ih.trans hfirst

theorem read_applyDeletes_of_none (h : d.read l = none) :
    (applyDeletes host d root names faults).1.read l = none := by
  induction names generalizing d faults with
  | nil => exact h
  | cons name names ih => exact ih (Disk.read_remove_of_none h)

theorem read_applyDeletes_removed (h : Removed host root names faults l) :
    (applyDeletes host d root names faults).1.read l = none := by
  induction names generalizing d faults with
  | nil =>
    obtain ⟨i, name, hn, -⟩ := h
    simp at hn
  | cons name names ih =>
    rcases removed_cons.mp h with ⟨rfl, hf⟩ | hrest
    · have hfirst : (d.remove (host.place (blobPath root name)) (faults 0)).2.read
          (host.place (blobPath root name)) = none := by
        rw [hf]
        exact Disk.read_remove
      rewrite [applyDeletes]
      exact read_applyDeletes_of_none hfirst
    · exact ih hrest

theorem read_applyDeletes_kept (h : ¬ Removed host root names faults l) :
    (applyDeletes host d root names faults).1.read l = d.read l := by
  induction names generalizing d faults with
  | nil => rfl
  | cons name names ih =>
    rw [removed_cons, not_or] at h
    have hfirst : (d.remove (host.place (blobPath root name)) (faults 0)).2.lookup l =
        d.lookup l := by
      rw [Disk.lookup_remove, if_neg]
      rintro ⟨rfl, -, hf⟩
      exact h.1 ⟨rfl, hf⟩
    exact (ih h.2).trans (Disk.read_congr hfirst)

/-- What becomes of the sidecar: `none` when it is not written. -/
def sidecarStored (host : Host) (d : Disk) (root : Path) (displayName : String)
    (fault : Option Disk.WriteFault) : Option (List UInt8) :=
  if displayName ≠ "" ∧ d.Writable (host.place (blobPath root META_FILE)) then
    Disk.stored (bytesOf displayName) fault
  else none

theorem sidecarStored_congr {d' : Disk} {displayName : String} {fault : Option Disk.WriteFault}
    (h : ∀ l, d'.Writable l ↔ d.Writable l) :
    sidecarStored host d' root displayName fault = sidecarStored host d root displayName fault := by
  simp only [sidecarStored, h]

theorem read_writeDisplayName {displayName : String} {fault : Option Disk.WriteFault} :
    (writeDisplayName host d root displayName fault).1.read l =
      if l = host.place (blobPath root META_FILE) then
        (sidecarStored host d root displayName fault).or (d.read l)
      else d.read l := by
  unfold writeDisplayName sidecarStored
  by_cases hn : displayName = ""
  · have hnot : ¬ (displayName ≠ "" ∧ d.Writable (host.place (blobPath root META_FILE))) :=
      fun h => h.1 hn
    rw [if_pos hn, if_neg hnot]
    simp
  · rw [if_neg hn]
    dsimp only
    rw [Disk.read_write]
    by_cases hl : l = host.place (blobPath root META_FILE)
    · by_cases hw : d.Writable (host.place (blobPath root META_FILE))
      · rw [if_pos ⟨hl, hw⟩, if_pos hl, if_pos ⟨hn, hw⟩]
      · rw [if_neg fun h => hw h.2, if_pos hl, if_neg fun h => hw h.2]
        rfl
    · rw [if_neg fun h => hl h.1, if_neg hl]

end Deletes

/-! ## All or nothing -/

section Transaction
variable {host : Host}

/-- Every write and every delete of the update shows. -/
def Update.AppliedTo (u : Update host) (d : Disk) : Prop :=
  (∀ w ∈ u.writes, d.read (host.place (blobPath u.containerRoot w.1)) = some w.2) ∧
    ∀ name ∈ u.deletes, d.read (host.place (blobPath u.containerRoot name)) = none

/-- Every blob in the container of the update holds what it held. -/
def Update.Untouched (u : Update host) (d d' : Disk) : Prop :=
  ∀ name, name ≠ META_FILE →
    d'.read ((host.place u.containerRoot).child name) =
      d.read ((host.place u.containerRoot).child name)

/-- `S_OK` with everything done, or a failure with nothing done and everything still pending. -/
def Transactional (s : Saves host) (updateContext : ℕ) (o : Outcome host) : Prop :=
  (o.answer.result = S_OK ∧
    ∀ u, s.updates.get updateContext = some u → u.AppliedTo o.saves.disk) ∨
  (o.answer.result ≠ S_OK ∧
    (∀ u, s.updates.get updateContext = some u → u.Untouched s.disk o.saves.disk) ∧
    o.saves.updates = s.updates)

/-- The writes and deletes of an update, and the display name, do not get in each other's way:
`d` is the disk with the directory of the container, `d0` the disk before. -/
structure Update.Compatible (u : Update host) (f : Faults) (d0 d : Disk) : Prop where
  writes : ∀ w ∈ u.writes, ∀ w' ∈ u.writes,
    host.place (blobPath u.containerRoot w.1) = host.place (blobPath u.containerRoot w'.1) →
    w.2 = w'.2
  apart : ∀ w ∈ u.writes, ∀ name ∈ u.deletes,
    host.place (blobPath u.containerRoot w.1) ≠ host.place (blobPath u.containerRoot name)
  deletes : ∀ name ∈ u.deletes, d0.read (host.place (blobPath u.containerRoot name)) = none ∨
    Removed host u.containerRoot u.deletes f.removes (host.place (blobPath u.containerRoot name))
  sidecar : ∀ content, sidecarStored host d u.containerRoot u.displayName f.sidecar = some content →
    (∀ name ∈ u.deletes, host.place (blobPath u.containerRoot name) ≠
      host.place (blobPath u.containerRoot META_FILE)) ∧
    ∀ w ∈ u.writes, host.place (blobPath u.containerRoot w.1) =
      host.place (blobPath u.containerRoot META_FILE) → w.2 = content

/-- The first write that fails and those before it leave in every blob what it held. -/
def Update.Harmless (u : Update host) (f : Faults) (d0 d : Disk) : Prop :=
  ∀ name, name ≠ META_FILE → ∀ bytes,
    lastAt ((host.place u.containerRoot).child name)
      (landed host d u.containerRoot u.writes f.writes) = some bytes →
    d0.read ((host.place u.containerRoot).child name) = some bytes

/-- The directory cannot be made; or a write fails, harmlessly; or none fails, and the parts of the
update are compatible. -/
def Update.Commits (u : Update host) (f : Faults) (d : Disk) : Prop :=
  let made := d.createDirs (host.place u.containerRoot) f.dirs
  made.1 = false ∨
    (¬ AllWritten host made.2 u.containerRoot u.writes f.writes ∧ u.Harmless f d made.2) ∨
    (AllWritten host made.2 u.containerRoot u.writes f.writes ∧ u.Compatible f d made.2)

section Committed
variable {u : Update host} {f : Faults} {d0 d : Disk}

/-- The disk when every write has got through, the deletes have been tried and the display name has
been written. -/
def committed (u : Update host) (f : Faults) (d : Disk) : Disk :=
  (writeDisplayName host
    (applyDeletes host (applyWrites host d u.containerRoot u.writes f.writes).2.1 u.containerRoot
      u.deletes f.removes).1
    u.containerRoot u.displayName f.sidecar).1

theorem read_committed (l : Location) :
    (committed u f d).read l =
      if l = host.place (blobPath u.containerRoot META_FILE) then
        (sidecarStored host d u.containerRoot u.displayName f.sidecar).or
          ((applyDeletes host (applyWrites host d u.containerRoot u.writes f.writes).2.1
            u.containerRoot u.deletes f.removes).1.read l)
      else
        (applyDeletes host (applyWrites host d u.containerRoot u.writes f.writes).2.1
          u.containerRoot u.deletes f.removes).1.read l := by
  have hside : sidecarStored host (applyDeletes host
      (applyWrites host d u.containerRoot u.writes f.writes).2.1 u.containerRoot u.deletes
      f.removes).1 u.containerRoot u.displayName f.sidecar =
      sidecarStored host d u.containerRoot u.displayName f.sidecar :=
    sidecarStored_congr fun l => writable_applyDeletes.trans writable_applyWrites
  rw [← hside]
  exact read_writeDisplayName

/-- Where the sidecar is not written a place is as the deletes leave it. -/
theorem read_committed_of_none {l : Location}
    (h : l = host.place (blobPath u.containerRoot META_FILE) →
      sidecarStored host d u.containerRoot u.displayName f.sidecar = none) :
    (committed u f d).read l =
      (applyDeletes host (applyWrites host d u.containerRoot u.writes f.writes).2.1
        u.containerRoot u.deletes f.removes).1.read l := by
  rw [read_committed]
  split
  · rename_i hl
    rw [h hl]
    rfl
  · rfl

theorem mem_deletes_of_removed {l : Location}
    (h : Removed host u.containerRoot u.deletes f.removes l) :
    ∃ name ∈ u.deletes, host.place (blobPath u.containerRoot name) = l := by
  obtain ⟨i, name, hn, hl, -⟩ := h
  exact ⟨name, List.mem_of_getElem? hn, hl⟩

theorem compatible_of_applied (hread : ∀ l, d.read l = d0.read l)
    (hall : AllWritten host d u.containerRoot u.writes f.writes)
    (h : u.AppliedTo (committed u f d)) : u.Compatible f d0 d := by
  obtain ⟨hwrites, hdeletes⟩ := h
  have hapart : ∀ w ∈ u.writes, ∀ name ∈ u.deletes,
      host.place (blobPath u.containerRoot w.1) ≠ host.place (blobPath u.containerRoot name) := by
    intro w hw name hn he
    have hsome := hwrites w hw
    rw [he, hdeletes name hn] at hsome
    cases hsome
  have hsidecar : ∀ content,
      sidecarStored host d u.containerRoot u.displayName f.sidecar = some content →
      (committed u f d).read (host.place (blobPath u.containerRoot META_FILE)) = some content := by
    intro content hc
    rw [read_committed, if_pos rfl, hc]
    rfl
  refine ⟨?_, hapart, ?_, ?_⟩
  · intro w hw w' hw' he
    have hsome := hwrites w hw
    rw [he, hwrites w' hw'] at hsome
    exact (Option.some.inj hsome).symm
  · intro name hn
    by_cases hr : Removed host u.containerRoot u.deletes f.removes
        (host.place (blobPath u.containerRoot name))
    · exact .inr hr
    · left
      have hnone : sidecarStored host d u.containerRoot u.displayName f.sidecar = none ∨
          host.place (blobPath u.containerRoot name) ≠
            host.place (blobPath u.containerRoot META_FILE) := by
        cases hs : sidecarStored host d u.containerRoot u.displayName f.sidecar with
        | none => exact .inl rfl
        | some content =>
          right
          intro he
          have hsome := hsidecar content hs
          rw [← he, hdeletes name hn] at hsome
          cases hsome
      have hkept := hdeletes name hn
      rw [read_committed_of_none fun he => hnone.resolve_right (not_not.mpr he),
        read_applyDeletes_kept hr, (read_of_allWritten hall).2 _ fun w hw => hapart w hw name hn,
        hread] at hkept
      exact hkept
  · intro content hc
    have hsome := hsidecar content hc
    refine ⟨fun name hn he => ?_, fun w hw he => ?_⟩
    · rw [← he, hdeletes name hn] at hsome
      cases hsome
    · rw [← he, hwrites w hw] at hsome
      exact Option.some.inj hsome

theorem applied_of_compatible (hread : ∀ l, d.read l = d0.read l)
    (hall : AllWritten host d u.containerRoot u.writes f.writes)
    (h : u.Compatible f d0 d) : u.AppliedTo (committed u f d) := by
  constructor
  · intro w hw
    have hkept : ¬ Removed host u.containerRoot u.deletes f.removes
        (host.place (blobPath u.containerRoot w.1)) := by
      intro hr
      obtain ⟨name, hn, hl⟩ := mem_deletes_of_removed hr
      exact h.apart w hw name hn hl.symm
    obtain ⟨w', hw', hl, hlast⟩ := (read_of_allWritten hall).1 w hw
    have hdata := h.writes w' hw' w hw hl
    rw [read_committed, read_applyDeletes_kept hkept, hlast, hdata]
    split
    · rename_i he
      cases hs : sidecarStored host d u.containerRoot u.displayName f.sidecar with
      | none => rfl
      | some content =>
        rw [(h.sidecar content hs).2 w hw he]
        rfl
    · rfl
  · intro name hn
    have hside : host.place (blobPath u.containerRoot name) =
        host.place (blobPath u.containerRoot META_FILE) →
        sidecarStored host d u.containerRoot u.displayName f.sidecar = none := by
      intro he
      cases hs : sidecarStored host d u.containerRoot u.displayName f.sidecar with
      | none => rfl
      | some content => exact absurd he ((h.sidecar content hs).1 name hn)
    rw [read_committed_of_none hside]
    rcases h.deletes name hn with hnone | hr
    · refine read_applyDeletes_of_none ?_
      rw [(read_of_allWritten hall).2 _ fun w hw => h.apart w hw name hn, hread]
      exact hnone
    · exact read_applyDeletes_removed hr

theorem untouched_iff_harmless (hread : ∀ l, d.read l = d0.read l) :
    u.Untouched d0 (applyWrites host d u.containerRoot u.writes f.writes).2.1 ↔
      u.Harmless f d0 d := by
  unfold Update.Untouched Update.Harmless
  refine forall_congr' fun name => forall_congr' fun _ => ?_
  rw [read_applyWrites, hread]
  cases lastAt ((host.place u.containerRoot).child name)
      (landed host d u.containerRoot u.writes f.writes) with
  | none => simp
  | some last => simp [eq_comm]

end Committed

end Transaction

section Outcome
variable {host : Host} {s : Saves host} {f : Faults} {updateContext : ℕ}

theorem transactional_of_get {u : Update host} {o : Outcome host}
    (hu : s.updates.get updateContext = some u) :
    Transactional s updateContext o ↔
      (o.answer.result = S_OK ∧ u.AppliedTo o.saves.disk) ∨
        (o.answer.result ≠ S_OK ∧ u.Untouched s.disk o.saves.disk ∧
          o.saves.updates = s.updates) := by
  simp only [Transactional, hu, Option.some.injEq, forall_eq']

/-- A failure is all or nothing when it has left the blobs alone. -/
theorem transactional_failure {u : Update host} {disk : Disk} {accesses : List Access}
    (hu : s.updates.get updateContext = some u) :
    Transactional s updateContext
        { saves := { s with disk := disk }, answer := { result := E_FAIL }, accesses := accesses } ↔
      u.Untouched s.disk disk := by
  rw [transactional_of_get hu]
  constructor
  · rintro (⟨hok, -⟩ | ⟨-, huntouched, -⟩)
    · cases hok
    · exact huntouched
  · intro h
    have hfail : E_FAIL ≠ S_OK := by decide
    exact .inr ⟨hfail, h, rfl⟩

theorem transactional_success {u : Update host} {saves : Saves host} {accesses : List Access}
    (hu : s.updates.get updateContext = some u) :
    Transactional s updateContext
        { saves := saves, answer := { result := S_OK }, accesses := accesses } ↔
      u.AppliedTo saves.disk := by
  rw [transactional_of_get hu]
  constructor
  · rintro (⟨-, happlied⟩ | ⟨hfail, -⟩)
    · exact happlied
    · exact absurd rfl hfail
  · intro h
    exact .inl ⟨rfl, h⟩

theorem submitUpdate_commits {u : Update host} (hu : s.updates.get updateContext = some u) :
    Transactional s updateContext (submitUpdate s f updateContext) ↔ u.Commits f s.disk := by
  have hread : ∀ l, (s.disk.createDirs (host.place u.containerRoot) f.dirs).2.read l =
      s.disk.read l := fun l => Disk.read_createDirs
  unfold submitUpdate Update.Commits
  rw [hu]
  dsimp only
  generalize s.disk.createDirs (host.place u.containerRoot) f.dirs = made at hread ⊢
  by_cases hmade : made.1 = false
  · rw [if_pos hmade, transactional_failure hu]
    exact ⟨fun _ => .inl hmade, fun _ name _ => hread _⟩
  · rw [if_neg hmade]
    by_cases hall : AllWritten host made.2 u.containerRoot u.writes f.writes
    · have hok : ¬ (applyWrites host made.2 u.containerRoot u.writes f.writes).1 = false := by
        rw [applyWrites_true.mpr hall]
        exact fun hf => Bool.false_ne_true hf.symm
      rw [if_neg hok, transactional_success hu]
      constructor
      · intro happlied
        exact .inr (.inr ⟨hall, compatible_of_applied hread hall happlied⟩)
      · rintro (hfalse | ⟨hnot, -⟩ | ⟨-, hcompatible⟩)
        · exact absurd hfalse hmade
        · exact absurd hall hnot
        · exact applied_of_compatible hread hall hcompatible
    · have hfail : (applyWrites host made.2 u.containerRoot u.writes f.writes).1 = false :=
        Bool.eq_false_iff.mpr fun h => hall (applyWrites_true.mp h)
      rw [if_pos hfail, transactional_failure hu, untouched_iff_harmless hread]
      constructor
      · intro hharmless
        exact .inr (.inl ⟨hall, hharmless⟩)
      · rintro (hfalse | ⟨-, hharmless⟩ | ⟨htrue, -⟩)
        · exact absurd hfalse hmade
        · exact hharmless
        · exact absurd htrue hall

end Outcome

/-- A submitted update is all or nothing exactly when it commits. -/
theorem update_all_or_nothing {host : Host} (s : Saves host) (f : Faults) (updateContext : ℕ) :
    Transactional s updateContext (submitUpdate s f updateContext) ↔
      ∀ u, s.updates.get updateContext = some u → u.Commits f s.disk := by
  cases hu : s.updates.get updateContext with
  | none =>
    have hout : submitUpdate s f updateContext = s.refuse E_INVALIDARG := by
      rw [submitUpdate, hu]
    rw [hout]
    constructor
    · intro _ u h
      cases h
    · intro _
      have hrefused : E_INVALIDARG ≠ S_OK := by decide
      refine .inr ⟨hrefused, fun u h => ?_, rfl⟩
      rw [hu] at h
      cases h
  | some u =>
    rw [submitUpdate_commits hu]
    constructor
    · intro h u' hu'
      obtain rfl := Option.some.inj hu'
      exact h
    · intro h
      exact h u rfl

/-- A blob is saved, and an update is pending that writes it again, and then another. -/
def savedTwice : List (Call × Faults) :=
  [(.initializeProvider (some 1) (some "config") true, {}), (.createContainer 1 (some "slot") true, {}),
    (.createUpdate 1 none true, {}), (.submitBlobWrite 1 (some "a") (some [1]), {}),
    (.submitUpdate 1, {}), (.submitBlobWrite 1 (some "a") (some [2]), {}),
    (.submitBlobWrite 1 (some "b") (some [3]), {})]

/-- The second of two writes fails, and the first has overwritten its blob. -/
theorem failed_update_overwrites :
    ¬ ∀ (host : Host) (s : Saves host) (f : Faults) (updateContext : ℕ),
      Transactional s updateContext (submitUpdate s f updateContext) := by
  intro h
  let s : Saves driveHost := run { disk := {} } savedTwice
  let f : Faults := { writes := fun n => if n = 1 then some .open else none }
  have hplace : (s.updates.get 1).map (fun u => driveHost.place u.containerRoot) =
      some ⟨"C:", ["saves", "1", "config", "containers", "slot"]⟩ := by decide +kernel
  obtain ⟨u, hu, hdir⟩ := Option.map_eq_some_iff.mp hplace
  rcases h driveHost s f 1 with ⟨hok, -⟩ | ⟨-, huntouched, -⟩
  · revert hok
    decide +kernel
  · have hsame := huntouched u hu "a" (by decide)
    rw [hdir] at hsame
    revert hsame
    decide +kernel

end XGameRuntime.GameSave
