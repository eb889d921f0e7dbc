import Mathlib.Data.List.Nodup
import XGameRuntime.GameSave.Batch
import XGameRuntime.GameSave.Places

/-! # What is reported about a store

`XGameSaveEnumerateBlobInfo`, `container_info`, `XGameSaveEnumerateContainerInfo` and
`remaining_quota` of `src/com/xgamesave/storage.rs` walk the same directories, each with its own
integer widths.
-/

namespace XGameRuntime.GameSave
open FileSystem
set_option autoImplicit false

/-! ## Stores -/

/-- What a file system can hold: a place has one entry, and no name has a null character in it, for
which every call that would make one fails. -/
structure Store where
  disk : Disk
  distinct : disk.Distinct
  unnulled : ∀ e ∈ disk.nodes, ∀ name ∈ e.1.names, '\x00' ∉ name.toList

/-- The blobs of the container at `l`. -/
def blobsAt (d : Disk) (l : Location) : BlobMap :=
  fun blob => if blob = META_FILE then none else d.read (l.child blob)

section Views
variable (host : Host) (d : Disk) (root : Path)

/-- `XGameSaveEnumerateBlobInfo` with a callback that never stops, while the store is at rest. -/
def reportedBlobs (name : String) : List BlobInfo :=
  enumerateBlobsFrom none (fun _ => true) (blobFiles host d {} (containerDir root name))

/-- `XGameSaveEnumerateContainerInfo`, likewise. -/
def reportedContainers : List ContainerInfo :=
  (enumerateContainers host d {} root none fun _ => true).1

/-- What is reported about one container agrees with its blobs. -/
structure ContainerAgrees (name : String) : Prop where
  blobs : ∀ blob size, ⟨blob, size⟩ ∈ reportedBlobs host d root name ↔
    ∃ content, blobsAt d (host.place (containerDir root name)) blob = some content ∧
      size = content.length
  once : ((reportedBlobs host d root name).map BlobInfo.name).Nodup
  info : ∃ info, (containerInfo host d {} root name).1 = some info ∧
    info.blobCount = (reportedBlobs host d root name).length ∧
    info.totalSize = ((reportedBlobs host d root name).map BlobInfo.size).sum

structure ViewsAgree : Prop where
  containers : ∀ name, d.isDir (host.place (containerDir root name)) →
    ContainerAgrees host d root name
  quota : (remainingQuota host d {} root).1 =
    max 0 (PLACEHOLDER_QUOTA_BYTES -
      ((reportedContainers host d root).map ContainerInfo.totalSize).sum)

/-- The bytes of all blobs. -/
def storedBytes : ℕ :=
  ((readDir host d {} (containersDir root)).map fun name =>
    ((blobFiles host d {} (containerDir root name)).map fun blob => blob.2.length).sum).sum

/-- A blob's size and the number of blobs of a container fit `u32`, and what is stored fits `i64`,
or wraps to something else that is over the quota. -/
structure WidthsFit : Prop where
  sizes : ∀ name blob content, d.isDir (host.place (containerDir root name)) →
    blobsAt d (host.place (containerDir root name)) blob = some content → content.length < 2 ^ 32
  counts : ∀ name, d.isDir (host.place (containerDir root name)) →
    (blobFiles host d {} (containerDir root name)).length < 2 ^ 32
  stored : storedBytes host d root < 2 ^ 63 ∨
    (2 ^ 30 ≤ storedBytes host d root % 2 ^ 64 ∧ storedBytes host d root % 2 ^ 64 < 2 ^ 63)

end Views

/-! ## The walks -/

section Walks
variable {host : Host} {d : Disk} {root : Path} {name : String}

theorem enumerateBlobsFrom_all (blobs : List (String × List UInt8)) :
    enumerateBlobsFrom none (fun _ => true) blobs =
      blobs.map fun blob => ⟨cstring blob.1, blob.2.length % 2 ^ 32⟩ := by
  induction blobs with
  | nil => rfl
  | cons blob blobs ih =>
    obtain ⟨blob, content⟩ := blob
    rw [List.map_cons, ← ih]
    rfl

theorem mem_blobFiles {dir : Path} {blob : String} {content : List UInt8} :
    (blob, content) ∈ blobFiles host d {} dir ↔
      blobsAt d (host.place dir) blob = some content := by
  have hdir : readDir host d {} dir = d.list (host.place dir) := if_neg List.not_mem_nil
  rw [blobFiles, hdir, List.mem_filterMap, blobsAt]
  constructor
  · rintro ⟨name, -, hname⟩
    split at hname
    · cases hname
    · rename_i hmeta
      obtain ⟨content', hread, he⟩ := Option.map_eq_some_iff.mp hname
      cases he
      rw [if_neg hmeta, hread]
  · intro h
    split at h
    · cases h
    · rename_i hmeta
      refine ⟨blob, Disk.mem_list.mpr fun hnone => ?_, ?_⟩
      · rw [Disk.read, hnone] at h
        cases h
      · rw [if_neg hmeta, h]
        rfl

theorem blobFiles_nodup {dir : Path} (h : d.Distinct) :
    ((blobFiles host d {} dir).map Prod.fst).Nodup := by
  have hdir : readDir host d {} dir = d.list (host.place dir) := if_neg List.not_mem_nil
  rw [blobFiles, hdir, List.map_filterMap]
  refine List.Nodup.filterMap (fun name name' blob hn hn' => ?_) (Disk.nodup_list h)
  have hfst : ∀ {x : String}, blob ∈ Option.map Prod.fst (if x = META_FILE then none
      else (d.read ((host.place dir).child x)).map fun content => (x, content)) → x = blob := by
    intro x hx
    split at hx
    · cases hx
    · simp only [Option.map_map, Option.mem_def, Option.map_eq_some_iff, Function.comp] at hx
      obtain ⟨-, -, rfl⟩ := hx
      rfl
  exact (hfst hn).trans (hfst hn').symm

theorem blobFiles_eq_nil {dir : Path} (h : ¬ d.isDir (host.place dir)) :
    blobFiles host d {} dir = [] := by
  have hdir : readDir host d {} dir = d.list (host.place dir) := if_neg List.not_mem_nil
  rw [blobFiles, hdir, Disk.list_eq_nil h]
  rfl

theorem containerInfo_sizes (h : d.isDir (host.place (containerDir root name))) :
    ∃ info, (containerInfo host d {} root name).1 = some info ∧
      info.blobCount = (blobFiles host d {} (containerDir root name)).length % 2 ^ 32 ∧
      info.totalSize = containerTotalSize host d {} (containerDir root name) := by
  rw [containerInfo, if_pos h]
  exact ⟨_, rfl, rfl, rfl⟩

/-- What is no directory is not reported, and has nothing in it that counts. -/
theorem reported_totalSize (names : List String) :
    ((enumerateContainersFrom host d {} root none (fun _ => true) names).1.map
        ContainerInfo.totalSize).sum =
      (names.map fun name => containerTotalSize host d {} (containerDir root name)).sum := by
  induction names with
  | nil => rfl
  | cons name names ih =>
    rw [List.map_cons, List.sum_cons, ← ih]
    simp only [enumerateContainersFrom, startsWith, and_true]
    by_cases hdir : d.isDir (host.place (containerDir root name))
    · obtain ⟨info, hinfo, -, htotal⟩ := containerInfo_sizes hdir
      rw [if_pos hdir]
      rcases hc : containerInfo host d {} root name with ⟨found, accesses⟩
      rw [hc] at hinfo
      obtain rfl : found = some info := hinfo
      rw [← htotal]
      rfl
    · rw [if_neg hdir, containerTotalSize, blobFiles_eq_nil hdir]
      exact (Nat.zero_add _).symm

end Walks

/-! ## The calls -/

section Calls
variable {host : Host} {s : Saves host} {f : Faults}

theorem container_calls_report {k : ℕ} {c : Container host} (h : s.containers.get k = some c) :
    (enumerateBlobInfo s {} k none (some fun _ => true)).answer.blobs =
      reportedBlobs host s.disk c.provider.root c.name := by
  simp only [enumerateBlobInfo, h, reportedBlobs, c.made]

theorem provider_calls_report {k : ℕ} {p : Provider host} (h : s.providers.get k = some p)
    (name : String) :
    (enumerateContainerInfo s {} k none (some fun _ => true)).answer.containers =
        reportedContainers host s.disk p.root ∧
      (getContainerInfo s {} k (some name) true).answer.containers =
        (containerInfo host s.disk {} p.root name).1.toList ∧
      (getRemainingQuota s {} k true).answer.quota =
        some (remainingQuota host s.disk {} p.root).1 := by
  simp only [enumerateContainerInfo, getContainerInfo, getRemainingQuota, h]
  exact ⟨rfl, rfl, rfl⟩

theorem submitUpdate_distinct (h : s.disk.Distinct) (k : ℕ) :
    (submitUpdate s f k).saves.disk.Distinct := by
  have hwrites : ∀ (root : Path) (writes : List (String × List UInt8)) (d : Disk)
      (faults : ℕ → Option Disk.WriteFault), d.Distinct →
      (applyWrites host d root writes faults).2.1.Distinct := by
    intro root writes
    induction writes with
    | nil => exact fun _ _ h => h
    | cons w writes ih =>
      intro d faults h
      rw [applyWrites]
      dsimp only
      split
      · exact ih _ _ h.write
      · exact h.write
  have hdeletes : ∀ (root : Path) (names : List String) (d : Disk) (faults : ℕ → Bool),
      d.Distinct → (applyDeletes host d root names faults).1.Distinct := by
    intro root names
    induction names with
    | nil => exact fun _ _ h => h
    | cons name names ih => exact fun d faults h => ih _ _ h.remove
  unfold submitUpdate
  split
  · exact h
  · dsimp only
    split
    · exact h.createDirs
    · split
      · exact hwrites _ _ _ _ h.createDirs
      · unfold writeDisplayName
        split
        · exact hdeletes _ _ _ _ (hwrites _ _ _ _ h.createDirs)
        · exact (hdeletes _ _ _ _ (hwrites _ _ _ _ h.createDirs)).write

/-- The calls keep to stores. -/
theorem step_distinct (h : s.disk.Distinct) (call : Call) :
    (step s f call).saves.disk.Distinct := by
  cases call with
  | submitUpdate k => exact submitUpdate_distinct h k
  | _ =>
    simp only [step, initializeProvider, closeProvider, getRemainingQuota, deleteContainer,
      getContainerInfo, enumerateContainerInfo, createContainer, closeContainer,
      enumerateBlobInfo, readBlobData, createUpdate, closeUpdate, submitBlobWrite,
      submitBlobDelete, filesGetFolder, filesGetRemainingQuota, Saves.refuse]
    repeat' split
    all_goals first | exact h | exact h.createDirs | exact h.removeTree

theorem run_distinct {calls : List (Call × Faults)} (h : s.disk.Distinct) :
    (run s calls).disk.Distinct := by
  induction calls generalizing s with
  | nil => exact h
  | cons c calls ih => exact ih (step_distinct h c.1)

end Calls

/-! ## Agreement and widths -/

/-- The quota is that of the sum unless the `i64` has another sign. -/
theorem quota_eq_iff (used : ℕ) :
    max 0 (min (PLACEHOLDER_QUOTA_BYTES - Int.bmod used (2 ^ 64)) (2 ^ 63 - 1)) =
        max 0 (PLACEHOLDER_QUOTA_BYTES - used) ↔
      used < 2 ^ 63 ∨ (2 ^ 30 ≤ used % 2 ^ 64 ∧ used % 2 ^ 64 < 2 ^ 63) := by
  have hquota : PLACEHOLDER_QUOTA_BYTES = 2 ^ 30 := rfl
  rw [hquota, Int.bmod_def]
  split <;> omega

section Agreement
variable {host : Host} {d : Disk} {root : Path} {name : String}

theorem reportedBlobs_eq (hd : ∀ e ∈ d.nodes, ∀ name ∈ e.1.names, '\x00' ∉ name.toList) :
    reportedBlobs host d root name = (blobFiles host d {} (containerDir root name)).map
      fun blob => ⟨blob.1, blob.2.length % 2 ^ 32⟩ := by
  rw [reportedBlobs, enumerateBlobsFrom_all]
  refine List.map_congr_left fun blob hblob => ?_
  obtain ⟨blob, content⟩ := blob
  have hread := mem_blobFiles.mp hblob
  have hnul : '\x00' ∉ blob.toList := by
    rw [blobsAt] at hread
    split at hread
    · cases hread
    · rw [Disk.read] at hread
      split at hread
      · rename_i hfile
        refine hd _ (find_some hfile) blob ?_
        exact List.mem_append_right _ List.mem_cons_self
      · cases hread
  simp [cstring, hnul]

theorem sizes_fit (h : ContainerAgrees host d root name)
    (hd : ∀ e ∈ d.nodes, ∀ name ∈ e.1.names, '\x00' ∉ name.toList) (blob : String)
    (content : List UInt8)
    (hblob : blobsAt d (host.place (containerDir root name)) blob = some content) :
    content.length < 2 ^ 32 := by
  have hmem : (⟨blob, content.length % 2 ^ 32⟩ : BlobInfo) ∈ reportedBlobs host d root name := by
    rw [reportedBlobs_eq hd]
    exact List.mem_map_of_mem (mem_blobFiles.mpr hblob)
  obtain ⟨content', hblob', hsize⟩ := (h.blobs _ _).mp hmem
  rw [hblob, Option.some.injEq] at hblob'
  subst hblob'
  omega

theorem counts_fit (h : ContainerAgrees host d root name)
    (hdir : d.isDir (host.place (containerDir root name))) :
    (blobFiles host d {} (containerDir root name)).length < 2 ^ 32 := by
  obtain ⟨info, hinfo, hcount, -⟩ := h.info
  obtain ⟨info', hinfo', hcount', -⟩ := containerInfo_sizes hdir
  rw [hinfo, Option.some.injEq] at hinfo'
  subst hinfo'
  rw [reportedBlobs, enumerateBlobsFrom_all, List.length_map] at hcount
  omega

theorem sum_le_mul {blobs : List (String × List UInt8)} {k : ℕ}
    (h : ∀ blob ∈ blobs, blob.2.length ≤ k) :
    (blobs.map fun blob => blob.2.length).sum ≤ blobs.length * k := by
  induction blobs with
  | nil => exact Nat.zero_le _
  | cons blob blobs ih =>
    have hhead := h blob List.mem_cons_self
    have htail := ih fun b hb => h b (List.mem_cons_of_mem _ hb)
    rw [List.map_cons, List.sum_cons, List.length_cons, Nat.succ_mul]
    omega

/-- With sizes and counts that fit, a total is the sum of the lengths. -/
theorem containerTotalSize_eq {dir : Path}
    (hs : ∀ blob ∈ blobFiles host d {} dir, blob.2.length < 2 ^ 32)
    (hc : (blobFiles host d {} dir).length < 2 ^ 32) :
    containerTotalSize host d {} dir =
      ((blobFiles host d {} dir).map fun blob => blob.2.length).sum := by
  have hle := sum_le_mul (k := 2 ^ 32) fun blob hb => Nat.le_of_lt (hs blob hb)
  have hmul := Nat.mul_lt_mul_of_pos_right hc (Nat.two_pow_pos 32)
  exact Nat.mod_eq_of_lt (Nat.lt_of_le_of_lt hle hmul)

theorem total_reported
    (hs : ∀ name blob content, d.isDir (host.place (containerDir root name)) →
      blobsAt d (host.place (containerDir root name)) blob = some content →
      content.length < 2 ^ 32)
    (hc : ∀ name, d.isDir (host.place (containerDir root name)) →
      (blobFiles host d {} (containerDir root name)).length < 2 ^ 32) :
    ((reportedContainers host d root).map ContainerInfo.totalSize).sum =
      storedBytes host d root := by
  rw [reportedContainers, enumerateContainers, reported_totalSize, storedBytes]
  congr 1
  refine List.map_congr_left fun name _ => ?_
  by_cases hdir : d.isDir (host.place (containerDir root name))
  · exact containerTotalSize_eq (fun blob hb => hs name _ _ hdir (mem_blobFiles.mp hb)) (hc name hdir)
  · rw [containerTotalSize, blobFiles_eq_nil hdir]
    rfl

end Agreement

theorem views_agree_iff (host : Host) (store : Store) (root : Path) :
    ViewsAgree host store.disk root ↔ WidthsFit host store.disk root := by
  obtain ⟨d, hdistinct, hd⟩ := store
  have hquota : (remainingQuota host d {} root).1 = max 0 (min (PLACEHOLDER_QUOTA_BYTES -
      Int.bmod ((reportedContainers host d root).map ContainerInfo.totalSize).sum (2 ^ 64))
        (2 ^ 63 - 1)) := by
    rw [reportedContainers, enumerateContainers, reported_totalSize]
    rfl
  constructor
  · intro h
    have hs := fun name blob content hdir => sizes_fit (h.containers name hdir) hd blob content
    have hc := fun name hdir => counts_fit (h.containers name hdir) hdir
    have hused := h.quota
    rw [hquota, total_reported hs hc, quota_eq_iff] at hused
    exact ⟨hs, hc, hused⟩
  · intro h
    have hused := (quota_eq_iff _).mpr h.stored
    rw [← total_reported h.sizes h.counts, ← hquota] at hused
    refine ⟨fun name hdir => ?_, hused⟩
    have hlen : ∀ blob ∈ blobFiles host d {} (containerDir root name), blob.2.length < 2 ^ 32 :=
      fun blob hb => h.sizes name _ _ hdir (mem_blobFiles.mp hb)
    have hreported : reportedBlobs host d root name =
        (blobFiles host d {} (containerDir root name)).map
          fun blob => ⟨blob.1, blob.2.length⟩ := by
      rw [reportedBlobs_eq hd]
      exact List.map_congr_left fun blob hb => by rw [Nat.mod_eq_of_lt (hlen blob hb)]
    obtain ⟨info, hinfo, hcount, htotal⟩ := containerInfo_sizes hdir
    refine ⟨fun blob size => ?_, ?_, info, hinfo, ?_, ?_⟩
    · rw [hreported, List.mem_map]
      constructor
      · rintro ⟨⟨blob, content⟩, hb, he⟩
        cases he
        exact ⟨content, mem_blobFiles.mp hb, rfl⟩
      · rintro ⟨content, hblob, rfl⟩
        exact ⟨(blob, content), mem_blobFiles.mpr hblob, rfl⟩
    · rw [hreported, List.map_map]
      exact blobFiles_nodup hdistinct
    · rw [hcount, hreported, List.length_map]
      exact Nat.mod_eq_of_lt (h.counts name hdir)
    · rw [htotal, containerTotalSize_eq hlen (h.counts name hdir), hreported, List.map_map]
      rfl

/-- The places from the volume down to the blob "a" of the container "slot". -/
def onePath : List Location :=
  [⟨"C:", ["saves"]⟩, ⟨"C:", ["saves", "1"]⟩, ⟨"C:", ["saves", "1", "config"]⟩,
    ⟨"C:", ["saves", "1", "config", "containers"]⟩,
    ⟨"C:", ["saves", "1", "config", "containers", "slot"]⟩,
    ⟨"C:", ["saves", "1", "config", "containers", "slot", "a"]⟩]

/-- A store with this one blob. -/
def oneBlob (content : List UInt8) : Store where
  disk :=
    { nodes := onePath.zip [.dir, .dir, .dir, .dir, .dir, .file content]
      tree := by
        simp only [onePath, List.zip_cons_cons, List.zip_nil_right, List.forall_mem_cons]
        refine ⟨⟨?_, .inl rfl⟩, ⟨?_, .inr rfl⟩, ⟨?_, .inr rfl⟩, ⟨?_, .inr rfl⟩, ⟨?_, .inr rfl⟩,
          ⟨?_, .inr rfl⟩, List.forall_mem_nil _⟩
        all_goals decide }
  distinct := by
    have hplaces : onePath.Nodup := by decide
    exact hplaces
  unnulled := by
    have hplaces : ∀ l ∈ onePath, ∀ name ∈ l.names, '\x00' ∉ name.toList := by decide
    exact fun e he => hplaces e.1 (List.of_mem_zip he).1

/-- A blob of 4 GiB is reported with the size 0. -/
theorem large_blob_is_reported_empty :
    ¬ ViewsAgree driveHost (oneBlob (List.replicate (2 ^ 32) 0)).disk
      (providerRoot driveHost 1 "config") := by
  intro h
  have hplace : driveHost.place (containerDir (providerRoot driveHost 1 "config") "slot") =
      ⟨"C:", ["saves", "1", "config", "containers", "slot"]⟩ := by decide +kernel
  have hdir : ∀ content, (oneBlob content).disk.isDir
      (driveHost.place (containerDir (providerRoot driveHost 1 "config") "slot")) := by
    intro content
    rw [hplace]
    exact .inr rfl
  have hblob : ∀ content, blobsAt (oneBlob content).disk
      (driveHost.place (containerDir (providerRoot driveHost 1 "config") "slot")) "a" =
        some content := by
    intro content
    rw [hplace]
    rfl
  have hsize := sizes_fit (h.containers "slot" (hdir _)) (oneBlob _).unnulled "a" _ (hblob _)
  rw [List.length_replicate] at hsize
  exact absurd hsize (Nat.lt_irrefl _)

end XGameRuntime.GameSave
