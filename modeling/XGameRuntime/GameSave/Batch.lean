import XGameRuntime.GameSave.Places
import XGameRuntime.GameSave.Update

/-! # What an update means

An update keeps its writes and its deletes in two lists and forgets in which order they came. It
still leaves every blob as the last operation on it says.
-/

namespace XGameRuntime.GameSave
open FileSystem
set_option autoImplicit false

/-! ## Operations on a map of blobs -/

abbrev BlobMap := String → Option (List UInt8)

inductive Operation where
  | write (name : String) (data : List UInt8)
  | delete (name : String)
  deriving DecidableEq, Repr

namespace Operation

def name : Operation → String
  | write name _ => name
  | delete name => name

def apply (m : BlobMap) : Operation → BlobMap
  | write name data => Function.update m name (some data)
  | delete name => Function.update m name none

theorem apply_of_ne {m : BlobMap} {op : Operation} {name : String} (h : name ≠ op.name) :
    op.apply m name = m name := by
  cases op with
  | write => exact Function.update_of_ne h _ _
  | delete => exact Function.update_of_ne h _ _

end Operation

/-- The accepted operations on one update. -/
def Call.operation (updateContext : ℕ) : Call → Option Operation
  | .submitBlobWrite k (some name) (some data) =>
      if k = updateContext then some (.write name data) else none
  | .submitBlobDelete k (some name) => if k = updateContext then some (.delete name) else none
  | _ => none

/-- The call neither submits nor closes the update. -/
def Call.leaves (updateContext : ℕ) : Call → Bool
  | .submitUpdate k | .closeUpdate k => decide (k ≠ updateContext)
  | _ => true

def operations (updateContext : ℕ) (calls : List (Call × Faults)) : List Operation :=
  calls.filterMap fun c => c.1.operation updateContext

section Buffer
variable {host : Host}

def Update.blobMap (u : Update host) (d : Disk) : BlobMap :=
  fun name => d.read ((host.place u.containerRoot).child name)

/-- What `XGameSaveSubmitBlobWrite` and `XGameSaveSubmitBlobDelete` do to the two lists. -/
def Update.push (u : Update host) : Operation → Update host
  | .write name data =>
      { u with
        deletes := u.deletes.filter fun deleted => decide (deleted ≠ name)
        writes := (u.writes.filter fun w => decide (w.1 ≠ name)) ++ [(name, data)] }
  | .delete name =>
      { u with
        writes := u.writes.filter fun w => decide (w.1 ≠ name)
        deletes := u.deletes ++ [name] }

/-- No name is written twice, and none is both written and deleted. -/
structure Update.Sound (u : Update host) : Prop where
  nodup : (u.writes.map Prod.fst).Nodup
  apart : ∀ w ∈ u.writes, w.1 ∉ u.deletes

/-- The lists take the map `before` to the map `after`. -/
structure Update.Takes (u : Update host) (before after : BlobMap) : Prop where
  written : ∀ w ∈ u.writes, after w.1 = some w.2
  deleted : ∀ name ∈ u.deletes, after name = none
  other : ∀ name, (∀ w ∈ u.writes, w.1 ≠ name) → name ∉ u.deletes → after name = before name

theorem mem_writes_push {u : Update host} {op : Operation} {w : String × List UInt8}
    (h : w ∈ (u.push op).writes) : op = .write w.1 w.2 ∨ (w ∈ u.writes ∧ w.1 ≠ op.name) := by
  cases op with
  | write name data =>
    rcases List.mem_append.mp h with h | h
    · obtain ⟨hw, hne⟩ := List.mem_filter.mp h
      exact .inr ⟨hw, of_decide_eq_true hne⟩
    · rw [List.mem_singleton.mp h]
      exact .inl rfl
  | delete name =>
    obtain ⟨hw, hne⟩ := List.mem_filter.mp h
    exact .inr ⟨hw, of_decide_eq_true hne⟩

theorem mem_deletes_push {u : Update host} {op : Operation} {name : String}
    (h : name ∈ (u.push op).deletes) :
    op = .delete name ∨ (name ∈ u.deletes ∧ ∀ data, op ≠ .write name data) := by
  cases op with
  | write other data =>
    obtain ⟨hd, hne⟩ := List.mem_filter.mp h
    refine .inr ⟨hd, ?_⟩
    rintro _ ⟨⟩
    exact of_decide_eq_true hne rfl
  | delete other =>
    rcases List.mem_append.mp h with h | h
    · exact .inr ⟨h, fun _ => by simp⟩
    · rw [List.mem_singleton.mp h]
      exact .inl rfl

theorem Update.Sound.push {u : Update host} (h : u.Sound) (op : Operation) : (u.push op).Sound := by
  constructor
  · have hkept : ∀ name, ((u.writes.filter fun w => decide (w.1 ≠ name)).map Prod.fst).Nodup :=
      fun name => h.nodup.sublist (List.filter_sublist.map _)
    cases op with
    | delete name => exact hkept name
    | write name data =>
      change ((u.writes.filter fun w => decide (w.1 ≠ name)) ++ [(name, data)]).map Prod.fst |>.Nodup
      rw [List.map_append, List.nodup_append]
      refine ⟨hkept name, by simp, ?_⟩
      intro a ha b hb he
      obtain ⟨w, hw, rfl⟩ := List.mem_map.mp ha
      rw [List.mem_singleton.mp hb] at he
      exact of_decide_eq_true (List.mem_filter.mp hw).2 he
  · intro w hw hd
    rcases mem_writes_push hw with rfl | ⟨hold, hne⟩
    · rcases mem_deletes_push hd with he | ⟨-, hnot⟩
      · cases he
      · exact hnot w.2 rfl
    · rcases mem_deletes_push hd with rfl | ⟨hdold, -⟩
      · exact hne rfl
      · exact h.apart w hold hdold

theorem Update.Takes.push {u : Update host} {before after : BlobMap} (h : u.Takes before after)
    (op : Operation) : (u.push op).Takes before (op.apply after) := by
  refine ⟨fun w hw => ?_, fun name hn => ?_, fun name hw hd => ?_⟩
  · rcases mem_writes_push hw with rfl | ⟨hold, hne⟩
    · exact Function.update_self ..
    · rw [Operation.apply_of_ne hne]
      exact h.written w hold
  · rcases mem_deletes_push hn with rfl | ⟨hold, hnot⟩
    · exact Function.update_self ..
    · by_cases he : name = op.name
      · subst he
        cases op with
        | write other data => exact absurd rfl (hnot data)
        | delete other => exact Function.update_self ..
      · rw [Operation.apply_of_ne he]
        exact h.deleted name hold
  · by_cases he : name = op.name
    · subst he
      cases op with
      | write other data =>
        exact absurd rfl (hw (other, data) (List.mem_append_right _ (List.mem_singleton_self _)))
      | delete other => exact absurd (List.mem_append_right _ (List.mem_singleton_self _)) hd
    · rw [Operation.apply_of_ne he]
      refine h.other name (fun w hold heq => ?_) fun hold => ?_
      · have hfilter : w ∈ u.writes.filter fun w => decide (w.1 ≠ op.name) :=
          List.mem_filter.mpr ⟨hold, decide_eq_true (heq ▸ he)⟩
        cases op with
        | write other data => exact hw w (List.mem_append_left _ hfilter) heq
        | delete other => exact hw w hfilter heq
      · cases op with
        | write other data =>
          exact hd (List.mem_filter.mpr ⟨hold, decide_eq_true he⟩)
        | delete other => exact hd (List.mem_append_left _ hold)

theorem takes_of_empty {u : Update host} (h : u.writes = [] ∧ u.deletes = []) (m : BlobMap) :
    u.Takes m m := by
  refine ⟨?_, ?_, fun _ _ _ => rfl⟩
  · rw [h.1]
    simp
  · rw [h.2]
    simp

end Buffer

/-! ## The calls on an update -/

section Calls
variable {host : Host} {s : Saves host} {f : Faults} {k : ℕ} {u : Update host}

/-- What a call can do to the table of updates. -/
inductive Updates (s : Saves host) (call : Call) : HandleTable (Update host) → Prop where
  | same (h : ∀ k, call.operation k = none ∨ s.updates.get k = none) : Updates s call s.updates
  | create {u : Update host} (hu : u.writes = [] ∧ u.deletes = [])
      (h : ∀ k, call.operation k = none) : Updates s call (s.updates.create u).2
  | close {k : ℕ} (h : call = .closeUpdate k) : Updates s call (s.updates.close k)
  | push {k : ℕ} {u : Update host} {op : Operation} (hu : s.updates.get k = some u)
      (h : ∀ k', call.operation k' = if k = k' then some op else none) :
      Updates s call (s.updates.put k (u.push op))
  | submit {k : ℕ} {u : Update host} (hu : s.updates.get k = some u) (h : call = .submitUpdate k) :
      Updates s call (s.updates.put k { u with writes := [], deletes := [] })

theorem step_updates (s : Saves host) (f : Faults) (call : Call) :
    Updates s call (step s f call).saves.updates := by
  have hsame : ∀ {call : Call}, (step s f call).saves.updates = s.updates →
      (∀ k, call.operation k = none ∨ s.updates.get k = none) →
      Updates s call (step s f call).saves.updates := by
    intro call he h
    rw [he]
    exact .same h
  cases call with
  | createUpdate container containerDisplayName out =>
    cases out with
    | false => exact hsame rfl fun _ => .inl rfl
    | true =>
      cases hc : s.containers.get container with
      | none => exact hsame (by simp [step, createUpdate, hc, Saves.refuse]) fun _ => .inl rfl
      | some c =>
        have he : (step s f (.createUpdate container containerDisplayName true)).saves.updates =
            (s.updates.create ⟨c.root, containerDisplayName.getD "", [], [], c, rfl⟩).2 := by
          simp [step, createUpdate, hc]
        rw [he]
        exact .create ⟨rfl, rfl⟩ fun _ => rfl
  | closeUpdate k => exact .close rfl
  | submitBlobWrite k blobName data =>
    cases hu : s.updates.get k with
    | none =>
      refine hsame (by simp [step, submitBlobWrite, hu, Saves.refuse]) fun k' => ?_
      by_cases hk : k = k'
      · exact .inr (hk ▸ hu)
      · left
        cases blobName <;> cases data <;> simp [Call.operation, hk]
    | some u =>
      cases blobName with
      | none => exact hsame (by simp [step, submitBlobWrite, hu, Saves.refuse]) fun _ => .inl rfl
      | some name =>
        cases data with
        | none => exact hsame (by simp [step, submitBlobWrite, hu, Saves.refuse]) fun _ => .inl rfl
        | some data =>
          have he : (step s f (.submitBlobWrite k (some name) (some data))).saves.updates =
              s.updates.put k (u.push (.write name data)) := by
            simp only [step, submitBlobWrite, hu, Update.push]
          rw [he]
          exact .push hu fun _ => rfl
  | submitBlobDelete k blobName =>
    cases hu : s.updates.get k with
    | none =>
      refine hsame (by simp [step, submitBlobDelete, hu, Saves.refuse]) fun k' => ?_
      by_cases hk : k = k'
      · exact .inr (hk ▸ hu)
      · left
        cases blobName <;> simp [Call.operation, hk]
    | some u =>
      cases blobName with
      | none => exact hsame (by simp [step, submitBlobDelete, hu, Saves.refuse]) fun _ => .inl rfl
      | some name =>
        have he : (step s f (.submitBlobDelete k (some name))).saves.updates =
            s.updates.put k (u.push (.delete name)) := by
          simp only [step, submitBlobDelete, hu, Update.push]
        rw [he]
        exact .push hu fun _ => rfl
  | submitUpdate k =>
    cases hu : s.updates.get k with
    | none => exact hsame (by simp [step, submitUpdate, hu, Saves.refuse]) fun _ => .inl rfl
    | some u =>
      have he : (step s f (.submitUpdate k)).saves.updates = s.updates ∨
          (step s f (.submitUpdate k)).saves.updates =
            s.updates.put k { u with writes := [], deletes := [] } := by
        simp only [step, submitUpdate, hu]
        split
        · exact .inl rfl
        · split
          · exact .inl rfl
          · exact .inr rfl
      rcases he with he | he
      · exact hsame he fun _ => .inl rfl
      · rw [he]
        exact .submit hu rfl
  | _ =>
    refine hsame ?_ fun _ => .inl rfl
    simp only [step, initializeProvider, closeProvider, getRemainingQuota, deleteContainer,
      getContainerInfo, enumerateContainerInfo, createContainer, closeContainer, enumerateBlobInfo,
      readBlobData, filesGetFolder, filesGetRemainingQuota]
    repeat' split
    all_goals rfl

theorem step_fresh {call : Call} (h : s.updates.Fresh) : (step s f call).saves.updates.Fresh := by
  have hupdates := step_updates s f call
  generalize (step s f call).saves.updates = t at hupdates ⊢
  cases hupdates with
  | same => exact h
  | create => exact h.create _
  | close => exact h.close _
  | push hu | submit hu => exact h.put hu _

theorem step_sound {call : Call} (h : ∀ k u, s.updates.get k = some u → u.Sound) :
    ∀ k u, (step s f call).saves.updates.get k = some u → u.Sound := by
  have hupdates := step_updates s f call
  generalize (step s f call).saves.updates = t at hupdates ⊢
  intro k u hu
  cases hupdates with
  | same => exact h k u hu
  | create hempty =>
    rcases HandleTable.get_of_create hu with rfl | hold
    · exact ⟨by simp [hempty.1], by simp [hempty.1]⟩
    · exact h k u hold
  | close => exact h k u (HandleTable.get_of_close hu)
  | push hold =>
    rcases HandleTable.get_of_put hu with rfl | hold'
    · exact (h _ _ hold).push _
    · exact h k u hold'
  | submit hold =>
    rcases HandleTable.get_of_put hu with rfl | hold'
    · exact ⟨by simp, by simp⟩
    · exact h k u hold'

/-- A call that leaves an update alone pushes its operation on it, if it is one. -/
theorem step_get {call : Call} (h : s.updates.Fresh) (hu : s.updates.get k = some u)
    (hleaves : call.leaves k = true) :
    (step s f call).saves.updates.get k = some ((call.operation k).elim u u.push) := by
  have hk := HandleTable.ne_zero_of_get hu
  have hupdates := step_updates s f call
  generalize (step s f call).saves.updates = t at hupdates ⊢
  cases hupdates with
  | same hsame =>
    rcases hsame k with hnone | hnone
    · rw [hnone, hu]
      rfl
    · rw [hu] at hnone
      cases hnone
  | create _ hnone =>
    rw [hnone, HandleTable.get_create_of_ne _ _ _ (Nat.ne_of_lt (h.lt hu)), hu]
    rfl
  | @close k' he =>
    subst he
    have hne : k' ≠ k := of_decide_eq_true hleaves
    rw [HandleTable.get_close_of_ne _ _ _ hne.symm, hu]
    rfl
  | @push k' u' op hu' hop =>
    rw [hop]
    by_cases hkk : k' = k
    · subst hkk
      rw [hu, Option.some.injEq] at hu'
      subst hu'
      rw [HandleTable.get_put _ _ hk, if_pos rfl]
      rfl
    · rw [HandleTable.get_put_of_ne _ _ (Ne.symm hkk), hu, if_neg hkk]
      rfl
  | @submit k' u' hu' he =>
    subst he
    have hne : k' ≠ k := of_decide_eq_true hleaves
    rw [HandleTable.get_put_of_ne _ _ hne.symm, hu]
    rfl

/-- The names of the pending writes and deletes. -/
def Update.NamesIn (u : Update host) (P : String → Prop) : Prop :=
  (∀ w ∈ u.writes, P w.1) ∧ ∀ name ∈ u.deletes, P name

theorem Update.NamesIn.push {P : String → Prop} (h : u.NamesIn P) {op : Operation} (hop : P op.name) :
    (u.push op).NamesIn P := by
  constructor
  · intro w hw
    rcases mem_writes_push hw with rfl | ⟨hold, -⟩
    · exact hop
    · exact h.1 w hold
  · intro name hn
    rcases mem_deletes_push hn with rfl | ⟨hold, -⟩
    · exact hop
    · exact h.2 name hold

theorem run_fresh {calls : List (Call × Faults)} (h : s.updates.Fresh) :
    (run s calls).updates.Fresh := by
  induction calls generalizing s with
  | nil => exact h
  | cons c calls ih => exact ih (step_fresh h)

theorem run_sound {calls : List (Call × Faults)}
    (h : ∀ k u, s.updates.get k = some u → u.Sound) :
    ∀ k u, (run s calls).updates.get k = some u → u.Sound := by
  induction calls generalizing s with
  | nil => exact h
  | cons c calls ih => exact ih (step_sound h)

/-- What an update holds after some calls is what the operations among them say. -/
theorem run_takes {calls : List (Call × Faults)} {before m : BlobMap} {P : String → Prop}
    (h : s.updates.Fresh) (hu : s.updates.get k = some u)
    (hleaves : ∀ c ∈ calls, c.1.leaves k = true) (hnames : ∀ op ∈ operations k calls, P op.name)
    (ht : u.Takes before m) (hP : u.NamesIn P) :
    ∃ u', (run s calls).updates.get k = some u' ∧ u'.containerRoot = u.containerRoot ∧
      u'.Takes before ((operations k calls).foldl Operation.apply m) ∧ u'.NamesIn P := by
  induction calls generalizing s u m with
  | nil => exact ⟨u, hu, rfl, ht, hP⟩
  | cons c calls ih =>
    obtain ⟨hc, hrest⟩ := List.forall_mem_cons.mp hleaves
    have hget := step_get (f := c.2) h hu hc
    cases hop : c.1.operation k with
    | none =>
      have hops : operations k (c :: calls) = operations k calls := by
        simp [operations, hop]
      rw [hop] at hget
      rw [hops] at hnames ⊢
      exact ih (step_fresh h) hget hrest hnames ht hP
    | some op =>
      have hops : operations k (c :: calls) = op :: operations k calls := by
        simp [operations, hop]
      rw [hop] at hget
      rw [hops] at hnames ⊢
      obtain ⟨hname, hnames⟩ := List.forall_mem_cons.mp hnames
      obtain ⟨u', hu', hroot, ht', hP'⟩ := ih (step_fresh h) hget hrest hnames (ht.push op)
        (hP.push hname)
      refine ⟨u', hu', hroot.trans ?_, ht', hP'⟩
      cases op <;> rfl

end Calls

/-! ## What a submitted update leaves -/

section Submit
variable {host : Host} {s : Saves host} {f : Faults} {k : ℕ} {u : Update host} {d : Disk}

/-- The file system does what `XGameSaveSubmitUpdate` asks of it. -/
structure Update.Unfailing (u : Update host) (f : Faults) (d : Disk) : Prop where
  dirs : (d.createDirs (host.place u.containerRoot) f.dirs).1 = true
  writes : AllWritten host (d.createDirs (host.place u.containerRoot) f.dirs).2 u.containerRoot
    u.writes f.writes
  removes : ∀ i, f.removes i = false

theorem submitUpdate_unfailing (hu : s.updates.get k = some u) (h : u.Unfailing f s.disk) :
    (submitUpdate s f k).answer.result = S_OK ∧
      (submitUpdate s f k).saves.disk =
        committed u f (s.disk.createDirs (host.place u.containerRoot) f.dirs).2 ∧
      (submitUpdate s f k).saves.updates =
        s.updates.put k { u with writes := [], deletes := [] } := by
  have hwritten := applyWrites_true.mpr h.writes
  unfold submitUpdate
  rw [hu]
  dsimp only
  rw [if_neg (by simp [h.dirs]), if_neg (by simp [hwritten])]
  exact ⟨rfl, rfl, rfl⟩

/-- The disk with the update on it, read blob by blob. -/
theorem blobMap_committed {before after : BlobMap} (ht : u.Takes before after)
    (hnames : u.NamesIn BlobName) (hall : AllWritten host d u.containerRoot u.writes f.writes)
    (hremoves : ∀ i, f.removes i = false)
    (hbefore : ∀ name, name ≠ META_FILE → u.blobMap d name = before name) {name : String}
    (hname : name ≠ META_FILE) : u.blobMap (committed u f d) name = after name := by
  have hplace : ∀ {blob}, Plain blob → host.place (blobPath u.containerRoot blob) =
      (host.place u.containerRoot).child blob := fun h => place_blobPath h
  have hmeta : (host.place u.containerRoot).child name ≠
      host.place (blobPath u.containerRoot META_FILE) := by
    rw [hplace plain_meta]
    exact fun he => hname (Location.child_injective he).2
  have hdelete : Removed host u.containerRoot u.deletes f.removes
      ((host.place u.containerRoot).child name) ↔ name ∈ u.deletes := by
    constructor
    · rintro ⟨j, other, hj, he, -⟩
      have hm := List.mem_of_getElem? hj
      rw [hplace (hnames.2 other hm).1] at he
      exact (Location.child_injective he).2 ▸ hm
    · intro hm
      obtain ⟨j, hj⟩ := List.mem_iff_getElem?.mp hm
      exact ⟨j, name, hj, hplace (hnames.2 name hm).1, hremoves j⟩
  unfold Update.blobMap
  rw [read_committed_of_none fun he => absurd he hmeta]
  by_cases hd : name ∈ u.deletes
  · rw [read_applyDeletes_removed (hdelete.mpr hd), ht.deleted name hd]
  · rw [read_applyDeletes_kept fun hr => hd (hdelete.mp hr)]
    obtain ⟨hlast, hother⟩ := read_of_allWritten hall
    by_cases hw : ∃ w ∈ u.writes, w.1 = name
    · obtain ⟨w, hw, rfl⟩ := hw
      obtain ⟨w', hw', he, hread⟩ := hlast w hw
      rw [hplace (hnames.1 w hw).1] at he hread
      rw [hplace (hnames.1 w' hw').1] at he
      rw [hread, ← ht.written w' hw', (Location.child_injective he).2]
    · have hnone : ∀ w ∈ u.writes, w.1 ≠ name := fun w hm he => hw ⟨w, hm, he⟩
      rw [ht.other name hnone hd, ← hbefore name hname]
      refine hother _ fun w hm he => hnone w hm ?_
      rw [hplace (hnames.1 w hm).1] at he
      exact (Location.child_injective he).2

/-- With nothing pending a submit changes no blob, whatever fails. -/
theorem submitUpdate_empty (hu : s.updates.get k = some u) (hempty : u.writes = [] ∧ u.deletes = [])
    {name : String} (hname : name ≠ META_FILE) :
    u.blobMap (submitUpdate s f k).saves.disk name = u.blobMap s.disk name := by
  have hdirs : u.blobMap (s.disk.createDirs (host.place u.containerRoot) f.dirs).2 name =
      u.blobMap s.disk name := Disk.read_createDirs
  have hmeta : (host.place u.containerRoot).child name ≠
      host.place (blobPath u.containerRoot META_FILE) := by
    rw [place_blobPath plain_meta]
    exact fun he => hname (Location.child_injective he).2
  unfold submitUpdate
  rw [hu]
  dsimp only
  split
  · exact hdirs
  · split
    · rename_i hwritten
      simp [hempty.1, applyWrites] at hwritten
    · rw [← hdirs, hempty.1, hempty.2]
      exact read_writeDisplayName.trans (if_neg hmeta)

end Submit

/-- In every run the lists of an update are sound; and the operations on an update with nothing
pending, submitted with no failure, leave every blob as they say, once and for all. -/
theorem update_means_operations {host : Host} (disk : Disk) (before calls : List (Call × Faults))
    (k : ℕ) (u : Update host)
    (hu : (run ({ disk := disk } : Saves host) before).updates.get k = some u)
    (hempty : u.writes = [] ∧ u.deletes = []) (hleaves : ∀ c ∈ calls, c.1.leaves k = true)
    (hnames : ∀ op ∈ operations k calls, BlobName op.name) :
    let s := run (run ({ disk := disk } : Saves host) before) calls
    (∀ k' u', s.updates.get k' = some u' → u'.Sound) ∧
    ∃ u', s.updates.get k = some u' ∧ ∀ f : Faults, u'.Unfailing f s.disk →
      (submitUpdate s f k).answer.result = S_OK ∧
      (∀ name, name ≠ META_FILE → u.blobMap (submitUpdate s f k).saves.disk name =
        (operations k calls).foldl Operation.apply (u.blobMap s.disk) name) ∧
      ∀ f' name, name ≠ META_FILE →
        u.blobMap (submitUpdate (submitUpdate s f k).saves f' k).saves.disk name =
          u.blobMap (submitUpdate s f k).saves.disk name := by
  have hfresh : (run ({ disk := disk } : Saves host) before).updates.Fresh :=
    run_fresh HandleTable.fresh_empty
  have hsound : ∀ k' u', (run ({ disk := disk } : Saves host) before).updates.get k' = some u' →
      u'.Sound := run_sound fun k' u' h => by simp [HandleTable.get] at h
  have hP : u.NamesIn BlobName := by
    rw [Update.NamesIn, hempty.1, hempty.2]
    simp
  intro s
  obtain ⟨u', hu', hroot, ht, hP'⟩ := run_takes hfresh hu hleaves hnames
    (takes_of_empty hempty (u.blobMap s.disk)) hP
  have hmap : ∀ d, u.blobMap d = u'.blobMap d := by
    intro d
    unfold Update.blobMap
    rw [hroot]
  refine ⟨run_sound hsound, u', hu', fun f hf => ?_⟩
  obtain ⟨hresult, hdisk, hupdates⟩ := submitUpdate_unfailing hu' hf
  refine ⟨hresult, fun name hname => ?_, fun f' name hname => ?_⟩
  · rw [hmap, hdisk]
    refine blobMap_committed ht hP' hf.writes hf.removes (fun other _ => ?_) hname
    rw [hmap]
    exact Disk.read_createDirs
  · have hemptied : (submitUpdate s f k).saves.updates.get k =
        some { u' with writes := [], deletes := [] } := by
      rw [hupdates]
      exact HandleTable.get_put _ _ (HandleTable.ne_zero_of_get hu')
    rw [hmap, hmap]
    exact submitUpdate_empty hemptied ⟨rfl, rfl⟩ hname

/-- One blob written twice, and deleted in between. -/
def rewritten : List (Call × Faults) :=
  [(.submitBlobWrite 1 (some "a") (some [1]), {}), (.submitBlobDelete 1 (some "a"), {}),
    (.submitBlobWrite 1 (some "a") (some [2]), {})]

theorem update_means_operations_rewritten :
    let s := run ({ disk := {} } : Saves driveHost) (savedTwice.take 3)
    ∃ u, s.updates.get 1 = some u ∧
      u.blobMap (submitUpdate (run s rewritten) {} 1).saves.disk "a" = some [2] := by
  intro s
  have hopen : (s.updates.get 1).map (fun u => (u.writes, u.deletes)) = some ([], []) := by
    decide +kernel
  have hmade : ∀ u' ∈ (run s rewritten).updates.get 1,
      ((run s rewritten).disk.createDirs (driveHost.place u'.containerRoot) none).1 = true ∧
        (applyWrites driveHost
          ((run s rewritten).disk.createDirs (driveHost.place u'.containerRoot) none).2
          u'.containerRoot u'.writes fun _ => none).1 = true := by
    decide +kernel
  obtain ⟨u, hu, hempty⟩ := Option.map_eq_some_iff.mp hopen
  obtain ⟨-, u', hu', hsubmit⟩ := update_means_operations {} (savedTwice.take 3) rewritten 1 u hu
    (Prod.mk.injEq .. ▸ hempty) (by decide) (by
      intro op hop
      have hname : op.name = "a" := by
        revert op
        decide
      rw [hname]
      exact ⟨by decide, by decide⟩)
  obtain ⟨hdirs, hwrites⟩ := hmade u' hu'
  obtain ⟨-, hblobs, -⟩ := hsubmit {} ⟨hdirs, applyWrites_true.mp hwrites, fun _ => rfl⟩
  exact ⟨u, hu, hblobs "a" (by decide)⟩

end XGameRuntime.GameSave
