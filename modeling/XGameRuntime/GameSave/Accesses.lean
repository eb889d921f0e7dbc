import XGameRuntime.GameSave.Places

/-! # Where the calls go

Every call is about a configuration or about one container in it. What it changes is explained by
the accesses it reports, and as long as a title uses plain names only, these keep to what the call
is about.
-/

namespace XGameRuntime.GameSave
open FileSystem
set_option autoImplicit false

/-! ## What a call is about -/

/-- A configuration of a user, and in it one container or all of them. -/
structure Scope where
  userId : ℕ
  configurationId : String
  container : Option String := none
  deriving DecidableEq, Repr

def Container.scope {host : Host} (c : Container host) : Scope :=
  ⟨c.provider.userId, c.provider.configurationId, some c.name⟩

/-- The names that a call gives, or that its handle was made with. -/
def Call.scope {host : Host} (s : Saves host) : Call → Option Scope
  | .initializeProvider (some userId) (some configurationId) _
  | .filesGetFolder (some userId) (some configurationId)
  | .filesGetRemainingQuota (some userId) (some configurationId) _ =>
      some ⟨userId, configurationId, none⟩
  | .getRemainingQuota provider _ | .enumerateContainerInfo provider _ _ =>
      (s.providers.get provider).map fun p => ⟨p.userId, p.configurationId, none⟩
  | .deleteContainer provider (some name) | .getContainerInfo provider (some name) _
  | .createContainer provider (some name) _ =>
      (s.providers.get provider).map fun p => ⟨p.userId, p.configurationId, some name⟩
  | .enumerateBlobInfo container _ _ | .readBlobData container _ _ _ _ =>
      (s.containers.get container).map Container.scope
  | .submitUpdate updateContext => (s.updates.get updateContext).map fun u => u.container.scope
  | _ => none

/-- The names that a call gives are plain, and no blob has the name of the sidecar. -/
def Call.Named : Call → Prop
  | .initializeProvider _ name _ | .filesGetFolder _ name | .filesGetRemainingQuota _ name _
  | .deleteContainer _ name | .getContainerInfo _ name _ | .createContainer _ name _ =>
      ∀ n ∈ name, Plain n
  | .readBlobData _ names _ _ _ => ∀ ns ∈ names, ∀ name ∈ ns, ∀ n ∈ name, BlobName n
  | .submitBlobWrite _ name _ | .submitBlobDelete _ name => ∀ n ∈ name, BlobName n
  | _ => True

/-- A file is one of the container of the scope, or of any one where the scope has none; it is
changed, and directories are made or removed, only where the scope has one. -/
def Access.Within (host : Host) (scope : Scope) : Access → Prop
  | .read l =>
      ∃ container blob, (∀ name ∈ scope.container, name = container) ∧ Plain blob ∧
        l = blobPlace host scope.userId scope.configurationId container blob
  | .write l | .remove l =>
      ∃ container blob, scope.container = some container ∧ Plain blob ∧
        l = blobPlace host scope.userId scope.configurationId container blob
  | .removeTree l =>
      ∃ container, scope.container = some container ∧
        l = containerPlace host scope.userId scope.configurationId container
  | .makeDirs l =>
      l = configurationPlace host scope.userId scope.configurationId ∨
        l = containersPlace host scope.userId scope.configurationId ∨
        ∃ container, scope.container = some container ∧
          l = containerPlace host scope.userId scope.configurationId container
  | .inspect l | .list l =>
      l = containersPlace host scope.userId scope.configurationId ∨
        ∃ container, (∀ name ∈ scope.container, name = container) ∧
          l = containerPlace host scope.userId scope.configurationId container

/-- How an access can be why a place is not what it was. -/
def Access.Explains (d d' : Disk) (l : Location) : Access → Prop
  | .write k | .remove k => l = k
  | .removeTree k => l.under k = true
  | .makeDirs k => k.under l = true ∧ d.lookup l = none ∧ d'.lookup l = some .dir
  | _ => False

/-! ## The accesses say what has changed -/

section Recorded
variable {host : Host} {d : Disk} {l : Location} {root : Path}

theorem makeDirs_recorded {d : Disk} {l dir : Location} {fault : Option ℕ}
    (h : (d.createDirs dir fault).2.lookup l ≠ d.lookup l) :
    (Access.makeDirs dir).Explains d (d.createDirs dir fault).2 l := by
  obtain hsame | ⟨hnone, hdir, hu⟩ := Disk.lookup_createDirs d dir l fault
  · exact absurd hsame h
  · exact ⟨hu, hnone, hdir⟩

theorem removeTree_recorded {dir : Location} {left : List Location}
    (h : (d.removeTree dir left).2.lookup l ≠ d.lookup l) : l.under dir = true := by
  cases hu : l.under dir with
  | true => rfl
  | false => exact absurd (Disk.lookup_removeTree hu) h

theorem write_recorded {k : Location} {content : List UInt8} {fault : Option Disk.WriteFault}
    (h : (d.write k content fault).2.lookup l ≠ d.lookup l) : l = k := by
  by_contra hne
  exact h (by rw [Disk.lookup_write, if_neg fun hc => hne hc.1])

theorem remove_recorded {k : Location} {fault : Bool}
    (h : (d.remove k fault).2.lookup l ≠ d.lookup l) : l = k := by
  by_contra hne
  exact h (by rw [Disk.lookup_remove, if_neg fun hc => hne hc.1])

theorem applyWrites_recorded {writes : List (String × List UInt8)}
    {faults : ℕ → Option Disk.WriteFault}
    (h : (applyWrites host d root writes faults).2.1.lookup l ≠ d.lookup l) :
    .write l ∈ (applyWrites host d root writes faults).2.2 := by
  induction writes generalizing d faults with
  | nil => exact absurd rfl h
  | cons w writes ih =>
    obtain ⟨name, data⟩ := w
    rw [applyWrites] at h ⊢
    dsimp only at h ⊢
    by_cases hsame : (d.write (host.place (blobPath root name)) data (faults 0)).2.lookup l =
        d.lookup l
    · split at h
      · rename_i hok
        rw [if_pos hok]
        dsimp only at h ⊢
        rw [← hsame] at h
        exact List.mem_cons_of_mem _ (ih h)
      · exact absurd hsame h
    · obtain rfl := write_recorded hsame
      split <;> exact List.mem_cons_self

theorem applyDeletes_recorded {names : List String} {faults : ℕ → Bool}
    (h : (applyDeletes host d root names faults).1.lookup l ≠ d.lookup l) :
    .remove l ∈ (applyDeletes host d root names faults).2 := by
  induction names generalizing d faults with
  | nil => exact absurd rfl h
  | cons name names ih =>
    unfold applyDeletes at h ⊢
    by_cases hsame : (d.remove (host.place (blobPath root name)) (faults 0)).2.lookup l =
        d.lookup l
    · dsimp only at h ⊢
      rw [← hsame] at h
      exact List.mem_cons_of_mem _ (ih h)
    · obtain rfl := remove_recorded hsame
      exact List.mem_cons_self

theorem writeDisplayName_recorded {displayName : String} {fault : Option Disk.WriteFault}
    (h : (writeDisplayName host d root displayName fault).1.lookup l ≠ d.lookup l) :
    .write l ∈ (writeDisplayName host d root displayName fault).2 := by
  unfold writeDisplayName at h ⊢
  split at h
  · exact absurd rfl h
  · rename_i hne
    rw [if_neg hne]
    obtain rfl := write_recorded h
    exact List.mem_cons_self

end Recorded

section Step
variable {host : Host} {s : Saves host} {f : Faults} {l : Location}

theorem initializeProvider_recorded {userId : Option ℕ} {configurationId : Option String}
    {out : Bool} (h : (initializeProvider s f userId configurationId out).saves.disk.lookup l ≠
      s.disk.lookup l) :
    ∃ a ∈ (initializeProvider s f userId configurationId out).accesses,
      a.Explains s.disk (initializeProvider s f userId configurationId out).saves.disk l := by
  unfold initializeProvider at h ⊢
  split at h
  · exact absurd rfl h
  · rename_i hout
    rw [if_neg hout]
    cases configurationId with
    | none => exact absurd rfl h
    | some configurationId =>
      cases userId with
      | none => exact absurd rfl h
      | some userId =>
        dsimp only at h ⊢
        split at h
        · rename_i hmade
          rw [if_pos hmade]
          exact ⟨_, List.mem_cons_self, makeDirs_recorded h⟩
        · rename_i hmade
          rw [if_neg hmade]
          exact ⟨_, List.mem_cons_self, makeDirs_recorded h⟩

theorem createContainer_recorded {provider : ℕ} {containerName : Option String}
    {out : Bool} (h : (createContainer s f provider containerName out).saves.disk.lookup l ≠
      s.disk.lookup l) :
    ∃ a ∈ (createContainer s f provider containerName out).accesses,
      a.Explains s.disk (createContainer s f provider containerName out).saves.disk l := by
  unfold createContainer at h ⊢
  split at h
  · exact absurd rfl h
  · rename_i hout
    rw [if_neg hout]
    cases hp : s.providers.get provider with
    | none =>
      rw [hp] at h
      exact absurd rfl h
    | some p =>
      rw [hp] at h
      cases containerName with
      | none => exact absurd rfl h
      | some name =>
        dsimp only at h ⊢
        split at h
        · rename_i hmade
          rw [if_pos hmade]
          exact ⟨_, List.mem_cons_self, makeDirs_recorded h⟩
        · rename_i hmade
          rw [if_neg hmade]
          exact ⟨_, List.mem_cons_self, makeDirs_recorded h⟩

theorem deleteContainer_recorded {provider : ℕ} {containerName : Option String}
    (h : (deleteContainer s f provider containerName).saves.disk.lookup l ≠ s.disk.lookup l) :
    ∃ a ∈ (deleteContainer s f provider containerName).accesses,
      a.Explains s.disk (deleteContainer s f provider containerName).saves.disk l := by
  unfold deleteContainer at h ⊢
  cases hp : s.providers.get provider with
  | none =>
    rw [hp] at h
    exact absurd rfl h
  | some p =>
    rw [hp] at h
    cases containerName with
    | none => exact absurd rfl h
    | some name => exact ⟨_, List.mem_cons_self, removeTree_recorded h⟩

theorem filesGetFolder_recorded {userId : Option ℕ} {configurationId : Option String}
    (h : (filesGetFolder s f userId configurationId).saves.disk.lookup l ≠ s.disk.lookup l) :
    ∃ a ∈ (filesGetFolder s f userId configurationId).accesses,
      a.Explains s.disk (filesGetFolder s f userId configurationId).saves.disk l := by
  unfold filesGetFolder at h ⊢
  cases configurationId with
  | none => exact absurd rfl h
  | some configurationId =>
    cases userId with
    | none => exact absurd rfl h
    | some userId => exact ⟨_, List.mem_cons_self, makeDirs_recorded h⟩

theorem submitUpdate_recorded {updateContext : ℕ}
    (h : (submitUpdate s f updateContext).saves.disk.lookup l ≠ s.disk.lookup l) :
    ∃ a ∈ (submitUpdate s f updateContext).accesses,
      a.Explains s.disk (submitUpdate s f updateContext).saves.disk l := by
  unfold submitUpdate at h ⊢
  cases hu : s.updates.get updateContext with
  | none =>
    rw [hu] at h
    exact absurd rfl h
  | some u =>
    rw [hu] at h
    dsimp only at h ⊢
    split at h
    · rename_i hmade
      rw [if_pos hmade]
      exact ⟨_, List.mem_cons_self, makeDirs_recorded h⟩
    · rename_i hmade
      rw [if_neg hmade]
      generalize hm : s.disk.createDirs (host.place u.containerRoot) f.dirs = made at h ⊢
      have hdirs : made.2.lookup l ≠ s.disk.lookup l →
          (Access.makeDirs (host.place u.containerRoot)).Explains s.disk made.2 l := by
        rw [← hm]
        exact makeDirs_recorded
      generalize hw : applyWrites host made.2 u.containerRoot u.writes f.writes = written at h ⊢
      have hwrites : written.2.1.lookup l ≠ made.2.lookup l → .write l ∈ written.2.2 := by
        rw [← hw]
        exact applyWrites_recorded
      split at h
      · rename_i hfail
        rw [if_pos hfail]
        dsimp only at h ⊢
        by_cases hsame : written.2.1.lookup l = made.2.lookup l
        · refine ⟨_, List.mem_cons_self, ?_⟩
          rw [hsame] at h
          obtain ⟨hunder, hnone, hdir⟩ := hdirs h
          exact ⟨hunder, hnone, hsame.trans hdir⟩
        · exact ⟨_, List.mem_cons_of_mem _ (hwrites hsame), rfl⟩
      · rename_i hok
        rw [if_neg hok]
        dsimp only at h ⊢
        generalize hd : applyDeletes host written.2.1 u.containerRoot u.deletes f.removes = deleted
          at h ⊢
        have hdeletes : deleted.1.lookup l ≠ written.2.1.lookup l → .remove l ∈ deleted.2 := by
          rw [← hd]
          exact applyDeletes_recorded
        -- the last of the four parts that changes the place explains it
        by_cases h1 : (writeDisplayName host deleted.1 u.containerRoot u.displayName
            f.sidecar).1.lookup l = deleted.1.lookup l
        · by_cases h2 : deleted.1.lookup l = written.2.1.lookup l
          · by_cases h3 : written.2.1.lookup l = made.2.lookup l
            · have hsame := h1.trans (h2.trans h3)
              refine ⟨.makeDirs (host.place u.containerRoot), by simp, ?_⟩
              rw [hsame] at h
              obtain ⟨hunder, hnone, hdir⟩ := hdirs h
              exact ⟨hunder, hnone, hsame.trans hdir⟩
            · exact ⟨.write l, by simp [hwrites h3], rfl⟩
          · exact ⟨.remove l, by simp [hdeletes h2], rfl⟩
        · exact ⟨.write l, by simp [writeDisplayName_recorded h1], rfl⟩

/-- Whatever a call changes on the disk, one of its accesses explains. -/
theorem step_recorded {call : Call} (h : (step s f call).saves.disk.lookup l ≠ s.disk.lookup l) :
    ∃ a ∈ (step s f call).accesses, a.Explains s.disk (step s f call).saves.disk l := by
  cases call with
  | initializeProvider userId configurationId out => exact initializeProvider_recorded h
  | createContainer provider containerName out => exact createContainer_recorded h
  | deleteContainer provider containerName => exact deleteContainer_recorded h
  | filesGetFolder userId configurationId => exact filesGetFolder_recorded h
  | submitUpdate updateContext => exact submitUpdate_recorded h
  | _ =>
    refine absurd ?_ h
    simp only [step, closeProvider, closeContainer, closeUpdate, getRemainingQuota,
      getContainerInfo, enumerateContainerInfo, enumerateBlobInfo, readBlobData, createUpdate,
      submitBlobWrite, submitBlobDelete, filesGetRemainingQuota]
    repeat' split
    all_goals rfl

end Step

/-! ## The names behind the handles -/

/-- Every handle was made with plain names, and every update is about blobs. -/
structure Saves.Named {host : Host} (s : Saves host) : Prop where
  providers : ∀ handle p, s.providers.get handle = some p → Plain p.configurationId
  containers : ∀ handle c, s.containers.get handle = some c →
    Plain c.provider.configurationId ∧ Plain c.name
  updates : ∀ handle u, s.updates.get handle = some u →
    (Plain u.container.provider.configurationId ∧ Plain u.container.name) ∧
      (∀ w ∈ u.writes, BlobName w.1) ∧ ∀ name ∈ u.deletes, BlobName name

section Named
variable {host : Host} {s : Saves host} {f : Faults}

theorem named_start (disk : Disk) : ({ disk := disk } : Saves host).Named where
  providers handle p h := by simp [HandleTable.get] at h
  containers handle c h := by simp [HandleTable.get] at h
  updates handle u h := by simp [HandleTable.get] at h

theorem Saves.Named.set_disk (h : s.Named) (disk : Disk) : ({ s with disk := disk } : Saves host).Named :=
  ⟨h.providers, h.containers, h.updates⟩

theorem Saves.Named.put_update (h : s.Named) (handle : ℕ) {u : Update host}
    (hu : (Plain u.container.provider.configurationId ∧ Plain u.container.name) ∧
      (∀ w ∈ u.writes, BlobName w.1) ∧ ∀ name ∈ u.deletes, BlobName name) :
    ({ s with updates := s.updates.put handle u } : Saves host).Named where
  providers := h.providers
  containers := h.containers
  updates handle' u' hg := by
    rcases HandleTable.get_of_put hg with rfl | hold
    · exact hu
    · exact h.updates handle' u' hold

theorem step_named {call : Call} (h : s.Named) (hcall : call.Named) :
    (step s f call).saves.Named := by
  cases call with
  | initializeProvider userId configurationId out =>
    change (initializeProvider s f userId configurationId out).saves.Named
    unfold initializeProvider
    split
    · exact h
    · split
      · exact h
      · exact h
      · rename_i configurationId userId
        dsimp only
        split
        · refine ⟨fun handle p hg => ?_, h.containers, h.updates⟩
          rcases HandleTable.get_of_create hg with rfl | hold
          · exact hcall _ rfl
          · exact h.providers handle p hold
        · exact h.set_disk _
  | createContainer provider containerName out =>
    change (createContainer s f provider containerName out).saves.Named
    unfold createContainer
    split
    · exact h
    · split
      · exact h
      · exact h
      · rename_i p name hp
        dsimp only
        split
        · refine ⟨h.providers, fun handle c hg => ?_, h.updates⟩
          rcases HandleTable.get_of_create hg with rfl | hold
          · exact ⟨h.providers _ p hp, hcall _ rfl⟩
          · exact h.containers handle c hold
        · exact h.set_disk _
  | createUpdate container containerDisplayName out =>
    change (createUpdate s container containerDisplayName out).saves.Named
    unfold createUpdate
    split
    · exact h
    · split
      · exact h
      · rename_i c hc
        refine ⟨h.providers, h.containers, fun handle u hg => ?_⟩
        rcases HandleTable.get_of_create hg with rfl | hold
        · exact ⟨h.containers _ c hc, List.forall_mem_nil _, List.forall_mem_nil _⟩
        · exact h.updates handle u hold
  | submitBlobWrite updateContext blobName data =>
    change (submitBlobWrite s updateContext blobName data).saves.Named
    unfold submitBlobWrite
    split
    · exact h
    · exact h
    · exact h
    · rename_i u name bytes hu
      obtain ⟨hplain, hwrites, hdeletes⟩ := h.updates _ u hu
      refine h.put_update updateContext ⟨hplain, ?_, ?_⟩
      · refine List.forall_mem_append.mpr ⟨fun w hw => hwrites w (List.mem_filter.mp hw).1, ?_⟩
        exact List.forall_mem_singleton.mpr (hcall name rfl)
      · exact fun n hn => hdeletes n (List.mem_filter.mp hn).1
  | submitBlobDelete updateContext blobName =>
    change (submitBlobDelete s updateContext blobName).saves.Named
    unfold submitBlobDelete
    split
    · exact h
    · exact h
    · rename_i u name hu
      obtain ⟨hplain, hwrites, hdeletes⟩ := h.updates _ u hu
      refine h.put_update updateContext ⟨hplain, ?_, ?_⟩
      · exact fun w hw => hwrites w (List.mem_filter.mp hw).1
      · exact List.forall_mem_append.mpr
          ⟨hdeletes, List.forall_mem_singleton.mpr (hcall name rfl)⟩
  | submitUpdate updateContext =>
    change (submitUpdate s f updateContext).saves.Named
    unfold submitUpdate
    split
    · exact h
    · rename_i u hu
      dsimp only
      split
      · exact h.set_disk _
      · split
        · exact h.set_disk _
        · have hdone := h.put_update updateContext (u := { u with writes := [], deletes := [] })
            ⟨(h.updates _ u hu).1, List.forall_mem_nil _, List.forall_mem_nil _⟩
          exact hdone.set_disk _
  | closeProvider provider =>
    exact ⟨fun handle p hg => h.providers handle p (HandleTable.get_of_close hg), h.containers,
      h.updates⟩
  | closeContainer container =>
    exact ⟨h.providers, fun handle c hg => h.containers handle c (HandleTable.get_of_close hg),
      h.updates⟩
  | closeUpdate updateContext =>
    exact ⟨h.providers, h.containers, fun handle u hg =>
      h.updates handle u (HandleTable.get_of_close hg)⟩
  | deleteContainer provider containerName =>
    change (deleteContainer s f provider containerName).saves.Named
    unfold deleteContainer
    split
    · exact h
    · exact h
    · exact h.set_disk _
  | filesGetFolder userId configurationId =>
    change (filesGetFolder s f userId configurationId).saves.Named
    unfold filesGetFolder
    split
    · exact h
    · exact h
    · exact h.set_disk _
  | _ =>
    simp only [step, getRemainingQuota, getContainerInfo, enumerateContainerInfo,
      enumerateBlobInfo, readBlobData, filesGetRemainingQuota]
    repeat' split
    all_goals exact h

theorem run_named {calls : List (Call × Faults)} (h : s.Named) (hcalls : ∀ c ∈ calls, c.1.Named) :
    (run s calls).Named := by
  induction calls generalizing s with
  | nil => exact h
  | cons c calls ih =>
    exact ih (step_named h (hcalls c List.mem_cons_self))
      fun c' hc => hcalls c' (List.mem_cons_of_mem _ hc)

end Named

/-! ## The accesses keep to the scope -/

section Within
variable {host : Host} {d : Disk} {f : Faults} {root : Path} {scope : Scope} {a : Access}

/-- The root of a provider lies where the scope says. -/
def Scope.Rooted (host : Host) (scope : Scope) (root : Path) : Prop :=
  host.place root = configurationPlace host scope.userId scope.configurationId

theorem Scope.Rooted.containers (h : scope.Rooted host root) :
    host.place (containersDir root) = containersPlace host scope.userId scope.configurationId :=
  place_containersDir.trans (congrArg (Location.child · "containers") h)

theorem Scope.Rooted.container (h : scope.Rooted host root) {name : String} (hname : Plain name) :
    host.place (containerDir root name) =
      containerPlace host scope.userId scope.configurationId name :=
  (resolve_join_plain hname).trans (congrArg (Location.child · name) h.containers)

theorem plain_of_mem_readDir {p : Path} {name : String} (h : name ∈ readDir host d f p) :
    Plain name := by
  unfold readDir at h
  split at h
  · cases h
  · exact Disk.plain_of_mem_list h

theorem containerInfo_within (hroot : scope.Rooted host root) {name : String} (hname : Plain name)
    (hcov : ∀ n ∈ scope.container, n = name) (ha : a ∈ (containerInfo host d f root name).2) :
    a.Within host scope := by
  have hdir := hroot.container hname
  have hsidecar : host.place (blobPath (containerDir root name) META_FILE) =
      blobPlace host scope.userId scope.configurationId name META_FILE := by
    rw [place_blobPath plain_meta, hdir]
    rfl
  have hinspect : (Access.inspect (host.place (containerDir root name))).Within host scope :=
    .inr ⟨name, hcov, hdir⟩
  unfold containerInfo at ha
  dsimp only at ha
  split at ha
  · simp only [List.mem_cons, List.not_mem_nil, or_false] at ha
    obtain rfl | rfl | rfl := ha
    · exact hinspect
    · exact ⟨name, META_FILE, hcov, plain_meta, hsidecar⟩
    · exact .inr ⟨name, hcov, hdir⟩
  · obtain rfl := List.mem_singleton.mp ha
    exact hinspect

theorem enumerateContainersFrom_within (hroot : scope.Rooted host root)
    (hall : scope.container = none) {start : Option String} {keepGoing : ContainerInfo → Bool}
    {names : List String} (hnames : ∀ name ∈ names, Plain name)
    (ha : a ∈ (enumerateContainersFrom host d f root start keepGoing names).2) :
    a.Within host scope := by
  have hcov : ∀ name, ∀ n ∈ scope.container, n = name := by
    intro name n hn
    rw [hall] at hn
    cases hn
  induction names with
  | nil => cases ha
  | cons name names ih =>
    have hname := hnames name List.mem_cons_self
    have hrest := ih fun n hn => hnames n (List.mem_cons_of_mem _ hn)
    have hinspect : (Access.inspect (host.place (containerDir root name))).Within host scope :=
      .inr ⟨name, hcov name, hroot.container hname⟩
    have hinfo := containerInfo_within (d := d) (f := f) (a := a) hroot hname (hcov name)
    simp only [enumerateContainersFrom] at ha
    split at ha
    · rcases hi : containerInfo host d f root name with ⟨info, accesses⟩
      rw [hi] at ha hinfo
      cases info with
      | none =>
        rcases List.mem_cons.mp ha with rfl | ha
        · exact hinspect
        · rcases List.mem_append.mp ha with ha | ha
          · exact hinfo ha
          · exact hrest ha
      | some info =>
        dsimp only at ha
        split at ha
        · rcases List.mem_cons.mp ha with rfl | ha
          · exact hinspect
          · rcases List.mem_append.mp ha with ha | ha
            · exact hinfo ha
            · exact hrest ha
        · rcases List.mem_cons.mp ha with rfl | ha
          · exact hinspect
          · exact hinfo ha
    · rcases List.mem_cons.mp ha with rfl | ha
      · exact hinspect
      · exact hrest ha

theorem enumerateContainers_within (hroot : scope.Rooted host root)
    (hall : scope.container = none) {start : Option String} {keepGoing : ContainerInfo → Bool}
    (ha : a ∈ (enumerateContainers host d f root start keepGoing).2) : a.Within host scope := by
  rcases List.mem_cons.mp ha with rfl | ha
  · exact .inl hroot.containers
  · exact enumerateContainersFrom_within hroot hall (fun _ => plain_of_mem_readDir) ha

theorem remainingQuota_within (hroot : scope.Rooted host root) (hall : scope.container = none)
    (ha : a ∈ (remainingQuota host d f root).2) : a.Within host scope := by
  rcases List.mem_cons.mp ha with rfl | ha
  · exact .inl hroot.containers
  · obtain ⟨name, hname, rfl⟩ := List.mem_map.mp ha
    refine .inr ⟨name, fun n hn => ?_, hroot.container (plain_of_mem_readDir hname)⟩
    rw [hall] at hn
    cases hn

theorem readBlobs_accesses {names : List (Option String)}
    (ha : a ∈ (readBlobs host d f root names).2.2) :
    ∃ name, some name ∈ names ∧ a = .read (host.place (blobPath root name)) := by
  induction names with
  | nil => cases ha
  | cons name names ih =>
    cases name with
    | none => cases ha
    | some name =>
      simp only [readBlobs] at ha
      split at ha
      · obtain rfl := List.mem_singleton.mp ha
        exact ⟨name, List.mem_cons_self, rfl⟩
      · rcases List.mem_cons.mp ha with rfl | ha
        · exact ⟨name, List.mem_cons_self, rfl⟩
        · obtain ⟨n, hn, rfl⟩ := ih ha
          exact ⟨n, List.mem_cons_of_mem _ hn, rfl⟩

theorem applyWrites_accesses {writes : List (String × List UInt8)}
    {faults : ℕ → Option Disk.WriteFault} (ha : a ∈ (applyWrites host d root writes faults).2.2) :
    ∃ w ∈ writes, a = .write (host.place (blobPath root w.1)) := by
  induction writes generalizing d faults with
  | nil => cases ha
  | cons w writes ih =>
    obtain ⟨name, data⟩ := w
    simp only [applyWrites] at ha
    split at ha
    · rcases List.mem_cons.mp ha with rfl | ha
      · exact ⟨_, List.mem_cons_self, rfl⟩
      · obtain ⟨w, hw, rfl⟩ := ih ha
        exact ⟨w, List.mem_cons_of_mem _ hw, rfl⟩
    · obtain rfl := List.mem_singleton.mp ha
      exact ⟨_, List.mem_cons_self, rfl⟩

theorem applyDeletes_accesses {names : List String} {faults : ℕ → Bool}
    (ha : a ∈ (applyDeletes host d root names faults).2) :
    ∃ name ∈ names, a = .remove (host.place (blobPath root name)) := by
  induction names generalizing d faults with
  | nil => cases ha
  | cons name names ih =>
    rcases List.mem_cons.mp ha with rfl | ha
    · exact ⟨name, List.mem_cons_self, rfl⟩
    · obtain ⟨n, hn, rfl⟩ := ih ha
      exact ⟨n, List.mem_cons_of_mem _ hn, rfl⟩

theorem writeDisplayName_accesses {displayName : String} {fault : Option Disk.WriteFault}
    (ha : a ∈ (writeDisplayName host d root displayName fault).2) :
    a = .write (host.place (blobPath root META_FILE)) := by
  unfold writeDisplayName at ha
  split at ha
  · cases ha
  · exact List.mem_singleton.mp ha

end Within

section Step
variable {host : Host} {s : Saves host} {f : Faults} {a : Access}

theorem Provider.rooted (p : Provider host) (h : Plain p.configurationId) (name : Option String) :
    (⟨p.userId, p.configurationId, name⟩ : Scope).Rooted host p.root := by
  have hroot := p.made
  rw [Scope.Rooted, hroot]
  exact place_providerRoot h

theorem Container.place (c : Container host) (hconf : Plain c.provider.configurationId)
    (hname : Plain c.name) :
    host.place c.root =
      containerPlace host c.provider.userId c.provider.configurationId c.name := by
  have hroot := c.made
  rw [hroot]
  exact (c.provider.rooted hconf none).container hname

theorem Container.place_blob (c : Container host) (hconf : Plain c.provider.configurationId)
    (hname : Plain c.name) {blob : String} (hblob : Plain blob) :
    host.place (blobPath c.root blob) =
      blobPlace host c.provider.userId c.provider.configurationId c.name blob := by
  rw [place_blobPath hblob, c.place hconf hname]
  rfl

theorem submitUpdate_within (h : s.Named) {updateContext : ℕ}
    (ha : a ∈ (submitUpdate s f updateContext).accesses) :
    ∃ u, s.updates.get updateContext = some u ∧ a.Within host u.container.scope := by
  unfold submitUpdate at ha
  cases hu : s.updates.get updateContext with
  | none =>
    rw [hu] at ha
    cases ha
  | some u =>
    refine ⟨u, rfl, ?_⟩
    obtain ⟨⟨hconf, hname⟩, hwrites, hdeletes⟩ := h.updates _ u hu
    have hroot := u.made
    have hdirs : (Access.makeDirs (host.place u.containerRoot)).Within host u.container.scope := by
      rw [hroot]
      exact .inr (.inr ⟨u.container.name, rfl, u.container.place hconf hname⟩)
    have hblob : ∀ blob, Plain blob →
        (Access.write (host.place (blobPath u.containerRoot blob))).Within host u.container.scope ∧
          (Access.remove (host.place (blobPath u.containerRoot blob))).Within host
            u.container.scope := by
      intro blob hb
      rw [hroot]
      have hplace := u.container.place_blob hconf hname hb
      exact ⟨⟨u.container.name, blob, rfl, hb, hplace⟩, ⟨u.container.name, blob, rfl, hb, hplace⟩⟩
    have hwritten : ∀ d, a ∈ (applyWrites host d u.containerRoot u.writes f.writes).2.2 →
        a.Within host u.container.scope := by
      intro d ha
      obtain ⟨w, hw, rfl⟩ := applyWrites_accesses ha
      exact (hblob w.1 (hwrites w hw).1).1
    rw [hu] at ha
    dsimp only at ha
    split at ha
    · obtain rfl := List.mem_singleton.mp ha
      exact hdirs
    · split at ha
      · rcases List.mem_cons.mp ha with rfl | ha
        · exact hdirs
        · exact hwritten _ ha
      · simp only [List.cons_append, List.mem_cons, List.mem_append] at ha
        rcases ha with rfl | (ha | ha) | ha
        · exact hdirs
        · exact hwritten _ ha
        · obtain ⟨name, hn, rfl⟩ := applyDeletes_accesses ha
          exact (hblob name (hdeletes name hn).1).2
        · obtain rfl := writeDisplayName_accesses ha
          exact (hblob META_FILE plain_meta).1

/-- What a call does stays in its scope. -/
theorem step_within (h : s.Named) {call : Call} (hcall : call.Named)
    (ha : a ∈ (step s f call).accesses) :
    ∃ scope, call.scope s = some scope ∧ a.Within host scope := by
  cases call with
  | initializeProvider userId configurationId out =>
    change a ∈ (initializeProvider s f userId configurationId out).accesses at ha
    unfold initializeProvider at ha
    split at ha
    · cases ha
    · split at ha
      · cases ha
      · cases ha
      · rename_i configurationId userId
        refine ⟨⟨userId, configurationId, none⟩, rfl, ?_⟩
        have hroot : (⟨userId, configurationId, none⟩ : Scope).Rooted host
            (providerRoot host userId configurationId) := place_providerRoot (hcall _ rfl)
        dsimp only at ha
        split at ha
        · obtain rfl := List.mem_singleton.mp ha
          exact .inr (.inl hroot.containers)
        · obtain rfl := List.mem_singleton.mp ha
          exact .inr (.inl hroot.containers)
  | getRemainingQuota provider out =>
    change a ∈ (getRemainingQuota s f provider out).accesses at ha
    unfold getRemainingQuota at ha
    split at ha
    · cases ha
    · split at ha
      · cases ha
      · rename_i p hp
        refine ⟨_, Option.map_eq_some_iff.mpr ⟨_, hp, rfl⟩, ?_⟩
        exact remainingQuota_within (p.rooted (h.providers _ p hp) none) rfl ha
  | deleteContainer provider containerName =>
    change a ∈ (deleteContainer s f provider containerName).accesses at ha
    unfold deleteContainer at ha
    split at ha
    · cases ha
    · cases ha
    · rename_i p name hp
      refine ⟨_, Option.map_eq_some_iff.mpr ⟨_, hp, rfl⟩, ?_⟩
      obtain rfl := List.mem_singleton.mp ha
      exact ⟨name, rfl, (p.rooted (h.providers _ p hp) (some name)).container (hcall _ rfl)⟩
  | getContainerInfo provider containerName callback =>
    change a ∈ (getContainerInfo s f provider containerName callback).accesses at ha
    unfold getContainerInfo at ha
    split at ha
    · cases ha
    · rename_i p hp
      split at ha
      · cases ha
      · split at ha
        · cases ha
        · rename_i name
          refine ⟨_, Option.map_eq_some_iff.mpr ⟨_, hp, rfl⟩, ?_⟩
          exact containerInfo_within (p.rooted (h.providers _ p hp) (some name)) (hcall _ rfl)
            (fun n hn => Option.some.inj hn.symm) ha
  | enumerateContainerInfo provider start callback =>
    change a ∈ (enumerateContainerInfo s f provider start callback).accesses at ha
    unfold enumerateContainerInfo at ha
    split at ha
    · cases ha
    · cases ha
    · rename_i p keepGoing hp
      refine ⟨_, Option.map_eq_some_iff.mpr ⟨_, hp, rfl⟩, ?_⟩
      exact enumerateContainers_within (p.rooted (h.providers _ p hp) none) rfl ha
  | createContainer provider containerName out =>
    change a ∈ (createContainer s f provider containerName out).accesses at ha
    unfold createContainer at ha
    split at ha
    · cases ha
    · split at ha
      · cases ha
      · cases ha
      · rename_i p name hp
        refine ⟨_, Option.map_eq_some_iff.mpr ⟨_, hp, rfl⟩, ?_⟩
        have hdir := (p.rooted (h.providers _ p hp) (some name)).container (hcall name rfl)
        dsimp only at ha
        split at ha
        · obtain rfl := List.mem_singleton.mp ha
          exact .inr (.inr ⟨name, rfl, hdir⟩)
        · obtain rfl := List.mem_singleton.mp ha
          exact .inr (.inr ⟨name, rfl, hdir⟩)
  | enumerateBlobInfo container start callback =>
    change a ∈ (enumerateBlobInfo s f container start callback).accesses at ha
    unfold enumerateBlobInfo at ha
    split at ha
    · cases ha
    · cases ha
    · rename_i c keepGoing hc
      refine ⟨_, Option.map_eq_some_iff.mpr ⟨_, hc, rfl⟩, ?_⟩
      obtain ⟨hconf, hname⟩ := h.containers _ c hc
      obtain rfl := List.mem_singleton.mp ha
      exact .inr ⟨c.name, fun n hn => Option.some.inj hn.symm, c.place hconf hname⟩
  | readBlobData container blobNames counted room out =>
    change a ∈ (readBlobData s f container blobNames counted room out).accesses at ha
    unfold readBlobData at ha
    split at ha
    · cases ha
    · split at ha
      · cases ha
      · cases ha
      · rename_i c names hc
        split at ha
        · cases ha
        · split at ha
          · cases ha
          · refine ⟨_, Option.map_eq_some_iff.mpr ⟨_, hc, rfl⟩, ?_⟩
            obtain ⟨hconf, hname⟩ := h.containers _ c hc
            obtain ⟨blob, hblob, rfl⟩ := readBlobs_accesses ha
            have hplain := (hcall names rfl _ hblob blob rfl).1
            exact ⟨c.name, blob, fun n hn => Option.some.inj hn.symm, hplain,
              c.place_blob hconf hname hplain⟩
  | submitUpdate updateContext =>
    obtain ⟨u, hu, hwithin⟩ := submitUpdate_within h ha
    exact ⟨_, Option.map_eq_some_iff.mpr ⟨_, hu, rfl⟩, hwithin⟩
  | filesGetFolder userId configurationId =>
    change a ∈ (filesGetFolder s f userId configurationId).accesses at ha
    unfold filesGetFolder at ha
    split at ha
    · cases ha
    · cases ha
    · rename_i configurationId userId
      refine ⟨⟨userId, configurationId, none⟩, rfl, ?_⟩
      obtain rfl := List.mem_singleton.mp ha
      exact .inl (place_providerRoot (hcall _ rfl))
  | filesGetRemainingQuota userId configurationId out =>
    change a ∈ (filesGetRemainingQuota s f userId configurationId out).accesses at ha
    unfold filesGetRemainingQuota at ha
    split at ha
    · cases ha
    · split at ha
      · cases ha
      · cases ha
      · rename_i configurationId userId
        refine ⟨⟨userId, configurationId, none⟩, rfl, ?_⟩
        exact remainingQuota_within (place_providerRoot (hcall _ rfl)) rfl ha
  | _ =>
    simp only [step, closeProvider, closeContainer, closeUpdate, createUpdate, submitBlobWrite,
      submitBlobDelete] at ha
    repeat' split at ha
    all_goals cases ha

end Step

end XGameRuntime.GameSave
