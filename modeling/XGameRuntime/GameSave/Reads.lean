import XGameRuntime.GameSave.Update

/-! # Reading blobs

`XGameSaveReadBlobData` and the pair of `XGameSaveReadBlobDataAsync` and
`XGameSaveReadBlobDataResult` in `src/com/xgamesave/object.rs`: two copies of one loop, with their
checks in different places.
-/

namespace XGameRuntime.GameSave
open FileSystem
set_option autoImplicit false

structure XGameSaveBlob where
  name : String
  size : ℕ
  data : List UInt8
  deriving DecidableEq, Repr

def XGameSaveBlob.of (name : String) (content : List UInt8) : XGameSaveBlob :=
  ⟨cstring name, content.length % 2 ^ 32, content⟩

/-- What a read leaves with its caller; `countOfBlobs` is what the variable behind the pointer
holds in the end. -/
structure BlobRead where
  result : HRESULT
  blobs : List XGameSaveBlob := []
  countOfBlobs : ℕ
  deriving DecidableEq, Repr

/-- The loop of `XGameSaveReadBlobDataResult` from one index on. -/
def readStashed (host : Host) (f : Faults) (d : Disk) (root : Path) (index count : ℕ) :
    List (Option String) → BlobRead
  | [] => { result := S_OK, countOfBlobs := count }
  | none :: _ => { result := E_INVALIDARG, countOfBlobs := count }
  | some name :: names =>
      match readFile host d f (blobPath root name) with
      | none => { result := E_FAIL, countOfBlobs := count }
      | some content =>
          let rest := readStashed host f d root (index + 1) ((index + 1) % 2 ^ 32) names
          { rest with blobs := .of name content :: rest.blobs }

section Reads
variable {host : Host} (s : Saves host) (f : Faults)

/-- `XGameSaveReadBlobData`. The number of names comes in `countOfBlobs`, and no path changes it:
the last one writes what it has read there. -/
def xgameSaveReadBlobData (container : ℕ) (names : List (Option String)) (counted : Bool)
    (room : ℕ) (out : Bool) : BlobRead :=
  let answer := (readBlobData s f container (some names) counted room out).answer
  { result := answer.result
    blobs := answer.data.map fun blob => .of blob.1 blob.2
    countOfBlobs := names.length }

/-- The closure of `XGameSaveReadBlobDataAsync`: it stashes its arguments. -/
def xgameSaveReadBlobDataAsync (container : ℕ) (names : List (Option String)) :
    Except HRESULT (ℕ × List (Option String)) :=
  if names.any Option.isNone then .error E_INVALIDARG else .ok (container, names)

/-- `XGameSaveReadBlobDataResult`. `count` is what `countOfBlobs` points to, and `fetched` what
`get_result` gives back. -/
def xgameSaveReadBlobDataResult (fetched : Except HRESULT (ℕ × List (Option String))) (count : ℕ)
    (counted : Bool) (room : ℕ) (out : Bool) : BlobRead :=
  if counted = false then { result := E_POINTER, countOfBlobs := count }
  else
    match fetched with
    | .error hr => { result := hr, countOfBlobs := count }
    | .ok (container, names) =>
        match s.containers.get container with
        | none => { result := E_INVALIDARG, countOfBlobs := count }
        | some c =>
            if room < names.length ∨ out = false then
              { result := E_NOT_SUFFICIENT_BUFFER, countOfBlobs := count }
            else readStashed host f s.disk c.root 0 count names

end Reads

/-! ## The two loops -/

section Loops
variable (host : Host) (d : Disk) (f : Faults) (root : Path)

def Readable (host : Host) (d : Disk) (f : Faults) (root : Path) (name : Option String) : Prop :=
  (name.bind fun blob => readFile host d f (blobPath root blob)).isSome = true

theorem readStashed_blobs (index count : ℕ) (names : List (Option String)) :
    (readStashed host f d root index count names).blobs =
      (readBlobs host d f root names).2.1.map fun blob => .of blob.1 blob.2 := by
  induction names generalizing index count with
  | nil => rfl
  | cons name names ih =>
    cases name with
    | none => rfl
    | some name =>
      simp only [readStashed, readBlobs]
      cases readFile host d f (blobPath root name) with
      | none => rfl
      | some content => exact congrArg _ (ih _ _)

theorem readStashed_result (index count : ℕ) (names : List (Option String)) :
    (readStashed host f d root index count names).result =
      (readBlobs host d f root names).1 := by
  induction names generalizing index count with
  | nil => rfl
  | cons name names ih =>
    cases name with
    | none => rfl
    | some name =>
      simp only [readStashed, readBlobs]
      cases readFile host d f (blobPath root name) with
      | none => rfl
      | some content => exact ih _ _

/-- The count is that of the last blob read; with none read it stays. -/
theorem readStashed_count (index count : ℕ) (names : List (Option String)) :
    (readStashed host f d root index count names).countOfBlobs =
      if (readBlobs host d f root names).2.1 = [] then count
      else (index + (readBlobs host d f root names).2.1.length) % 2 ^ 32 := by
  induction names generalizing index count with
  | nil => rfl
  | cons name names ih =>
    cases name with
    | none => rfl
    | some name =>
      cases hread : readFile host d f (blobPath root name) with
      | none => simp [readStashed, readBlobs, hread]
      | some content =>
        simp only [readStashed, readBlobs, hread]
        rw [ih, if_neg (List.cons_ne_nil _ _), List.length_cons]
        by_cases hrest : (readBlobs host d f root names).2.1 = []
        · rw [if_pos hrest, hrest]
          rfl
        · rw [if_neg hrest]
          congr 1
          omega

theorem readBlobs_length_le (names : List (Option String)) :
    (readBlobs host d f root names).2.1.length ≤ names.length := by
  induction names with
  | nil => exact Nat.le_refl _
  | cons name names ih =>
    cases name with
    | none => exact Nat.zero_le _
    | some name =>
      simp only [readBlobs]
      cases readFile host d f (blobPath root name) with
      | none => exact Nat.zero_le _
      | some content => exact Nat.succ_le_succ ih

/-- Every blob is read just when each of them can be. -/
theorem readBlobs_length_eq {names : List (Option String)} :
    (readBlobs host d f root names).2.1.length = names.length ↔
      ∀ name ∈ names, Readable host d f root name := by
  induction names with
  | nil => simp [readBlobs]
  | cons name names ih =>
    rw [List.forall_mem_cons, ← ih]
    cases name with
    | none => simp [readBlobs, Readable]
    | some name =>
      cases hread : readFile host d f (blobPath root name) with
      | none => simp [readBlobs, Readable, hread]
      | some content => simp [readBlobs, Readable, hread]

/-- No blob is read just when the first cannot be. -/
theorem readBlobs_eq_nil {names : List (Option String)} :
    (readBlobs host d f root names).2.1 = [] ↔
      ∀ name ∈ names.head?, ¬ Readable host d f root name := by
  cases names with
  | nil => simp [readBlobs]
  | cons name names =>
    cases name with
    | none => simp [readBlobs, Readable]
    | some name =>
      cases hread : readFile host d f (blobPath root name) with
      | none => simp [readBlobs, Readable, hread]
      | some content => simp [readBlobs, Readable, hread]

/-- Started at the number of names, the second loop ends as the first when it fails at once or
not at all. -/
theorem readStashed_eq_iff {names : List (Option String)} (hcount : names.length < 2 ^ 32) :
    readStashed host f d root 0 names.length names =
      { result := (readBlobs host d f root names).1
        blobs := (readBlobs host d f root names).2.1.map fun blob => .of blob.1 blob.2
        countOfBlobs := names.length } ↔
    (∀ name ∈ names.head?, ¬ Readable host d f root name) ∨
      ∀ name ∈ names, Readable host d f root name := by
  rw [← readBlobs_eq_nil, ← readBlobs_length_eq]
  have hcounts := readStashed_count host d f root 0 names.length names
  rw [Nat.zero_add] at hcounts
  constructor
  · intro h
    rw [h] at hcounts
    by_cases hnil : (readBlobs host d f root names).2.1 = []
    · exact .inl hnil
    · rw [if_neg hnil] at hcounts
      have hle := readBlobs_length_le host d f root names
      rw [Nat.mod_eq_of_lt (Nat.lt_of_le_of_lt hle hcount)] at hcounts
      exact .inr hcounts.symm
  · intro h
    have hcountOf : (readStashed host f d root 0 names.length names).countOfBlobs =
        names.length := by
      rw [hcounts]
      split
      · rfl
      · rename_i hnil
        rw [h.resolve_left hnil, Nat.mod_eq_of_lt hcount]
    rw [← readStashed_result host d f root 0 names.length,
      ← readStashed_blobs host d f root 0 names.length]
    cases hread : readStashed host f d root 0 names.length names
    rw [hread] at hcountOf
    subst hcountOf
    rfl

/-- The first loop stops before any blob with `E_INVALIDARG` just when the first name is null. -/
theorem readBlobs_null {names : List (Option String)} :
    ((readBlobs host d f root names).1 = E_INVALIDARG ∧
      (readBlobs host d f root names).2.1 = []) ↔ names.head? = some none := by
  cases names with
  | nil =>
    simp only [readBlobs]
    exact ⟨fun h => absurd h.1 (by decide), fun h => by cases h⟩
  | cons name names =>
    cases name with
    | none => simp [readBlobs]
    | some name =>
      cases hread : readFile host d f (blobPath root name) with
      | none =>
        simp only [readBlobs, hread]
        exact ⟨fun h => absurd h.1 (by decide), fun h => by cases h⟩
      | some content => simp [readBlobs, hread]

end Loops

/-! ## The two reads -/

section Agreement
variable {host : Host} (s : Saves host) (f : Faults)

/-- On what both reads come to the same: no check but the common ones stops them, and neither
leaves the loop with some of the blobs. -/
def ReadsAgree (container : ℕ) (names : List (Option String)) (counted : Bool) (room : ℕ)
    (out : Bool) : Prop :=
  counted = false ∨ s.containers.get container = none ∨
    ∃ c, s.containers.get container = some c ∧ names ≠ [] ∧
      ((names.length ≤ room ∧ out = true ∧ names.head? = some none) ∨
        (none ∉ names ∧ (room < names.length ∨ out = false ∨
          (∀ name ∈ names.head?, ¬ Readable host s.disk f c.root name) ∨
          ∀ name ∈ names, Readable host s.disk f c.root name)))

theorem async_of_null {container : ℕ} {names : List (Option String)} (h : none ∈ names) :
    xgameSaveReadBlobDataAsync container names = .error E_INVALIDARG := by
  unfold xgameSaveReadBlobDataAsync
  rw [if_pos (List.any_eq_true.mpr ⟨none, h, rfl⟩)]

theorem async_of_not_null {container : ℕ} {names : List (Option String)} (h : none ∉ names) :
    xgameSaveReadBlobDataAsync container names = .ok (container, names) := by
  unfold xgameSaveReadBlobDataAsync
  rw [if_neg]
  intro hany
  obtain ⟨name, hmem, hnone⟩ := List.any_eq_true.mp hany
  rw [Option.isNone_iff_eq_none.mp hnone] at hmem
  exact h hmem

theorem sync_of_get {container : ℕ} {c : Container host} (hget : s.containers.get container = some c)
    (names : List (Option String)) (room : ℕ) (out : Bool) :
    xgameSaveReadBlobData s f container names true room out =
      if names = [] then { result := E_INVALIDARG, countOfBlobs := names.length }
      else if room < names.length ∨ out = false then
        { result := E_NOT_SUFFICIENT_BUFFER, countOfBlobs := names.length }
      else
        { result := (readBlobs host s.disk f c.root names).1
          blobs := (readBlobs host s.disk f c.root names).2.1.map fun blob => .of blob.1 blob.2
          countOfBlobs := names.length } := by
  unfold xgameSaveReadBlobData readBlobData
  rw [if_neg (by simp), hget]
  dsimp only
  split
  · rfl
  · split <;> rfl

theorem reads_agree_iff (container : ℕ) (names : List (Option String)) (counted : Bool) (room : ℕ)
    (out : Bool) (hcount : names.length < 2 ^ 32) :
    xgameSaveReadBlobDataResult s f (xgameSaveReadBlobDataAsync container names) names.length
        counted room out =
      xgameSaveReadBlobData s f container names counted room out ↔
    ReadsAgree s f container names counted room out := by
  unfold ReadsAgree
  cases counted with
  | false => simp [xgameSaveReadBlobDataResult, xgameSaveReadBlobData, readBlobData, Saves.refuse]
  | true =>
    rw [or_iff_right (by simp)]
    cases hget : s.containers.get container with
    | none =>
      refine iff_of_true ?_ (.inl rfl)
      by_cases hnull : none ∈ names
      · simp [async_of_null hnull, xgameSaveReadBlobDataResult, xgameSaveReadBlobData, readBlobData,
          hget, Saves.refuse]
      · simp [async_of_not_null hnull, xgameSaveReadBlobDataResult, xgameSaveReadBlobData,
          readBlobData, hget, Saves.refuse]
    | some c =>
      rw [or_iff_right (by simp), sync_of_get s f hget]
      simp only [Option.some.injEq, exists_eq_left']
      unfold xgameSaveReadBlobDataResult
      rw [if_neg (by simp)]
      by_cases hnull : none ∈ names
      · have hne : names ≠ [] := List.ne_nil_of_mem hnull
        rw [async_of_null hnull, if_neg hne]
        by_cases hroom : room < names.length ∨ out = false
        · rw [if_pos hroom]
          refine iff_of_false (fun h => ?_) ?_
          · have hresult : E_INVALIDARG = E_NOT_SUFFICIENT_BUFFER := congrArg BlobRead.result h
            exact absurd hresult (by decide)
          · rintro ⟨-, ⟨hle, hout, -⟩ | ⟨hnot, -⟩⟩
            · rcases hroom with hlt | hfalse
              · exact absurd hle (Nat.not_le_of_lt hlt)
              · rw [hfalse] at hout
                cases hout
            · exact hnot hnull
        · rw [if_neg hroom]
          rw [not_or, Nat.not_lt, Bool.not_eq_false] at hroom
          simp only [hne, hnull, hroom, BlobRead.mk.injEq, ne_eq, not_true, not_false_eq_true,
            true_and, false_and, or_false, and_true]
          rw [← readBlobs_null host s.disk f c.root]
          exact ⟨fun ⟨hr, hb⟩ => ⟨hr.symm, List.map_eq_nil_iff.mp hb.symm⟩,
            fun ⟨hr, hb⟩ => ⟨hr.symm, by rw [hb]; rfl⟩⟩
      · rw [async_of_not_null hnull]
        dsimp only
        rw [hget]
        by_cases hne : names = []
        · rw [if_pos hne]
          refine iff_of_false (fun h => ?_) (fun h => h.1 hne)
          have hresult := congrArg BlobRead.result h
          subst hne
          dsimp only at hresult
          split at hresult
          · exact absurd hresult (by decide)
          · have hresult : S_OK = E_INVALIDARG := hresult
            exact absurd hresult (by decide)
        · rw [if_neg hne]
          have hhead : names.head? ≠ some none := fun h => hnull (List.mem_of_head? h)
          by_cases hroom : room < names.length ∨ out = false
          · dsimp only
            rw [if_pos hroom, if_pos hroom]
            exact iff_of_true rfl ⟨hne, .inr ⟨hnull, hroom.elim .inl fun h => .inr (.inl h)⟩⟩
          · dsimp only
            rw [if_neg hroom, if_neg hroom, readStashed_eq_iff host s.disk f c.root hcount]
            rw [not_or, Bool.not_eq_false] at hroom
            simp only [hne, hnull, hroom, hhead, ne_eq, not_false_eq_true, true_and, and_false,
              false_or, Bool.true_eq_false]

end Agreement

/-- A container with the blob "a" and no blob "b", opened under the handle 1. -/
def savedOnce : List (Call × Faults) := savedTwice.take 5

theorem reads_agree_iff_saved :
    xgameSaveReadBlobDataResult (run { disk := {} } savedOnce : Saves driveHost) {}
        (xgameSaveReadBlobDataAsync 1 [some "a", some "a"]) [some "a", some "a"].length true 2 true =
      xgameSaveReadBlobData (run { disk := {} } savedOnce : Saves driveHost) {} 1
        [some "a", some "a"] true 2 true := by
  have hagree : ∀ s : Saves driveHost, (∀ c ∈ s.containers.get 1, ∀ name ∈ [some "a", some "a"],
      Readable driveHost s.disk {} c.root name) →
      ReadsAgree s {} 1 [some "a", some "a"] true 2 true := by
    intro s h
    cases hget : s.containers.get 1 with
    | none => exact .inr (.inl hget)
    | some c =>
      exact .inr (.inr ⟨c, hget, by simp, .inr ⟨by simp, .inr (.inr (.inr (h c hget)))⟩⟩)
  exact (reads_agree_iff _ {} 1 _ true 2 true (by decide)).mpr
    (hagree _ (by unfold Readable; decide +kernel))

/-- With the second of two blobs missing both reads stop at it, and only one says so in the
count. -/
theorem reads_disagree_midway :
    ¬ ∀ (host : Host) (s : Saves host) (f : Faults) (container : ℕ) (names : List (Option String))
      (room : ℕ) (out : Bool), names.length < 2 ^ 32 →
      xgameSaveReadBlobDataResult s f (xgameSaveReadBlobDataAsync container names) names.length
          true room out =
        xgameSaveReadBlobData s f container names true room out := by
  intro h
  have hread := h driveHost (run { disk := {} } savedOnce) {} 1 [some "a", some "b"] 2 true (by decide)
  revert hread
  decide +kernel

/-! ## What a failed read leaves -/

/-- Allocations behind an entry: its name, and its data unless the file is empty. -/
def XGameSaveBlob.allocations (blob : XGameSaveBlob) : ℕ :=
  if blob.data = [] then 1 else 2

/-- Allocations of the call that nobody has freed when it returns: those given away. -/
def BlobRead.outstanding (read : BlobRead) : ℕ :=
  (read.blobs.map XGameSaveBlob.allocations).sum

/-- An error leaves the caller's array, its count and the heap as they were. -/
def BlobRead.AllOrNothing (read : BlobRead) (count : ℕ) : Prop :=
  read.result ≠ S_OK → read.blobs = [] ∧ read.countOfBlobs = count ∧ read.outstanding = 0

/-- The first blob can be read, and some later one cannot. -/
def StopsMidway (host : Host) (d : Disk) (f : Faults) (root : Path)
    (names : List (Option String)) : Prop :=
  (∃ name ∈ names.head?, Readable host d f root name) ∧
    ∃ name ∈ names, ¬ Readable host d f root name

/-- The checks before the loop pass, and it stops midway. -/
def FailsMidway {host : Host} (s : Saves host) (f : Faults) (container : ℕ)
    (names : List (Option String)) (counted : Bool) (room : ℕ) (out : Bool) : Prop :=
  counted = true ∧ names.length ≤ room ∧ out = true ∧
    ∃ c, s.containers.get container = some c ∧ StopsMidway host s.disk f c.root names

section AllOrNothing
variable {host : Host} {d : Disk} {f : Faults} {root : Path} {names : List (Option String)}

theorem readBlobs_ok :
    (readBlobs host d f root names).1 = S_OK ↔ ∀ name ∈ names, Readable host d f root name := by
  induction names with
  | nil => simp [readBlobs]
  | cons name names ih =>
    rw [List.forall_mem_cons, ← ih]
    cases name with
    | none =>
      have hne : E_INVALIDARG ≠ S_OK := by decide
      exact iff_of_false hne fun h => absurd h.1 (by simp [Readable])
    | some name =>
      cases hread : readFile host d f (blobPath root name) with
      | none =>
        simp only [readBlobs, hread, Readable, Option.bind_some, Option.isSome_none,
          Bool.false_eq_true, false_and]
        exact iff_of_false (by decide) id
      | some content => simp [readBlobs, Readable, hread]

theorem stopsMidway_iff :
    StopsMidway host d f root names ↔
      (readBlobs host d f root names).1 ≠ S_OK ∧ (readBlobs host d f root names).2.1 ≠ [] := by
  rw [ne_eq, ne_eq, readBlobs_ok, readBlobs_eq_nil, StopsMidway, and_comm]
  push Not
  rfl

/-- What the loop leaves, whether or not it has counted what it gave away. -/
theorem allOrNothing_loop {read : BlobRead} {count : ℕ}
    (hresult : read.result = (readBlobs host d f root names).1)
    (hblobs : read.blobs = (readBlobs host d f root names).2.1.map fun b => .of b.1 b.2)
    (hcount : read.blobs = [] → read.countOfBlobs = count) :
    read.AllOrNothing count ↔ ¬ StopsMidway host d f root names := by
  have hnil : read.blobs = [] ↔ (readBlobs host d f root names).2.1 = [] := by
    rw [hblobs]
    exact List.map_eq_nil_iff
  rw [stopsMidway_iff, ← hresult, ne_eq (readBlobs host d f root names).2.1, ← hnil, not_and,
    not_not]
  refine forall_congr' fun _ => ⟨And.left, fun h => ⟨h, hcount h, ?_⟩⟩
  rw [BlobRead.outstanding, h]
  rfl

theorem allOrNothing_early {read : BlobRead} {count : ℕ} (hblobs : read.blobs = [])
    (hcount : read.countOfBlobs = count) : read.AllOrNothing count := by
  refine fun _ => ⟨hblobs, hcount, ?_⟩
  rw [BlobRead.outstanding, hblobs]
  rfl

end AllOrNothing

section AllOrNothing
variable {host : Host} (s : Saves host) (f : Faults)

variable {s f}

theorem not_failsMidway_room {container : ℕ} {names : List (Option String)} {counted : Bool}
    {room : ℕ} {out : Bool} (h : room < names.length ∨ out = false) :
    ¬ FailsMidway s f container names counted room out := by
  rintro ⟨-, hle, hout, -⟩
  rcases h with hlt | hfalse
  · exact absurd hle (Nat.not_le_of_lt hlt)
  · rw [hfalse] at hout
    cases hout

theorem failsMidway_iff {container : ℕ} {c : Container host} {names : List (Option String)}
    {room : ℕ} {out : Bool} (hget : s.containers.get container = some c)
    (hroom : ¬ (room < names.length ∨ out = false)) :
    FailsMidway s f container names true room out ↔ StopsMidway host s.disk f c.root names := by
  rw [not_or, Nat.not_lt, Bool.not_eq_false] at hroom
  simp [FailsMidway, hget, hroom]

variable (s f)

theorem read_all_or_nothing (container : ℕ) (names : List (Option String)) (counted : Bool)
    (room : ℕ) (out : Bool) :
    (xgameSaveReadBlobData s f container names counted room out).AllOrNothing names.length ↔
      ¬ FailsMidway s f container names counted room out := by
  cases counted with
  | false =>
    refine iff_of_true (allOrNothing_early ?_ rfl) (by simp [FailsMidway])
    simp [xgameSaveReadBlobData, readBlobData, Saves.refuse]
  | true =>
    cases hget : s.containers.get container with
    | none =>
      refine iff_of_true (allOrNothing_early ?_ rfl) (by simp [FailsMidway, hget])
      simp [xgameSaveReadBlobData, readBlobData, hget, Saves.refuse]
    | some c =>
      rw [sync_of_get s f hget]
      by_cases hne : names = []
      · subst hne
        refine iff_of_true (allOrNothing_early rfl rfl) ?_
        simp [FailsMidway, StopsMidway]
      · rw [if_neg hne]
        by_cases hroom : room < names.length ∨ out = false
        · rw [if_pos hroom]
          exact iff_of_true (allOrNothing_early rfl rfl) (not_failsMidway_room hroom)
        · rw [if_neg hroom, failsMidway_iff hget hroom]
          exact allOrNothing_loop rfl rfl fun _ => rfl

theorem stashed_read_all_or_nothing (fetched : Except HRESULT (ℕ × List (Option String)))
    (count : ℕ) (counted : Bool) (room : ℕ) (out : Bool) :
    (xgameSaveReadBlobDataResult s f fetched count counted room out).AllOrNothing count ↔
      ∀ stashed, fetched = .ok stashed →
        ¬ FailsMidway s f stashed.1 stashed.2 counted room out := by
  unfold xgameSaveReadBlobDataResult
  cases counted with
  | false => exact iff_of_true (allOrNothing_early rfl rfl) (by simp [FailsMidway])
  | true =>
    rw [if_neg (by simp)]
    cases fetched with
    | error hr => exact iff_of_true (allOrNothing_early rfl rfl) (by simp)
    | ok stashed =>
      simp only [Except.ok.injEq, forall_eq']
      cases hget : s.containers.get stashed.1 with
      | none =>
        exact iff_of_true (allOrNothing_early rfl rfl) (by simp [FailsMidway, hget])
      | some c =>
        dsimp only
        by_cases hroom : room < stashed.2.length ∨ out = false
        · rw [if_pos hroom]
          exact iff_of_true (allOrNothing_early rfl rfl) (not_failsMidway_room hroom)
        · rw [if_neg hroom, failsMidway_iff hget hroom]
          have hblobs := readStashed_blobs host s.disk f c.root 0 count stashed.2
          refine allOrNothing_loop (readStashed_result host s.disk f c.root 0 count _) hblobs ?_
          intro hnil
          rw [hblobs, List.map_eq_nil_iff] at hnil
          rw [readStashed_count, if_pos hnil]

theorem reads_all_or_nothing_iff (container : ℕ) (names : List (Option String))
    (fetched : Except HRESULT (ℕ × List (Option String))) (count : ℕ) (counted : Bool) (room : ℕ)
    (out : Bool) :
    ((xgameSaveReadBlobData s f container names counted room out).AllOrNothing names.length ↔
        ¬ FailsMidway s f container names counted room out) ∧
      ((xgameSaveReadBlobDataResult s f fetched count counted room out).AllOrNothing count ↔
        ∀ stashed, fetched = .ok stashed →
          ¬ FailsMidway s f stashed.1 stashed.2 counted room out) :=
  ⟨read_all_or_nothing s f container names counted room out,
    stashed_read_all_or_nothing s f fetched count counted room out⟩

end AllOrNothing

/-- With the second of two blobs missing the first is given away under `E_FAIL`. -/
theorem failed_read_gives_away :
    ¬ (xgameSaveReadBlobData (run { disk := {} } savedOnce : Saves driveHost) {} 1
        [some "a", some "b"] true 2 true).AllOrNothing 2 ∧
      ¬ (xgameSaveReadBlobDataResult (run { disk := {} } savedOnce : Saves driveHost) {}
        (xgameSaveReadBlobDataAsync 1 [some "a", some "b"]) 2 true 2 true).AllOrNothing 2 := by
  unfold BlobRead.AllOrNothing
  decide +kernel

end XGameRuntime.GameSave
