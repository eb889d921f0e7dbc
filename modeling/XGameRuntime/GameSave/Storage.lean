import Mathlib.Algebra.GroupWithZero.Nat
import Mathlib.Algebra.Group.Int.Defs
import Mathlib.Data.Int.Notation
import XGameRuntime.FileSystem.Disk
import XGameRuntime.HandleTable
import XGameRuntime.Results

/-! # Game saves

`src/com/xgamesave`: the directory layout under the game-save root, the provider, container and
update handles, and the calls on them. A call says which places of the tree it has gone to.
-/

namespace XGameRuntime.GameSave
open FileSystem
set_option autoImplicit false

/-! ## The layout on the disk -/

/-- The sidecar with the display name of a container. -/
def META_FILE : String := ".xgamesave_display_name"

/-- What the process has been given: the published root, and where there is none, the directory
for temporary files. -/
structure Host where
  gameSaveRoot : Option String
  tempDir : String
  dirs : WorkingDirs

def Host.base (host : Host) : Path :=
  match host.gameSaveRoot with
  | some root => Path.parse root
  | none => (Path.parse host.tempDir).join (Path.parse "xodus_gamesaves")

def Host.place (host : Host) (p : Path) : Location := p.resolve host.dirs

def providerRoot (host : Host) (userId : ℕ) (configurationId : String) : Path :=
  (host.base.join (Path.parse (toString userId))).join (Path.parse configurationId)

def containersDir (root : Path) : Path := root.join (Path.parse "containers")

def containerDir (root : Path) (name : String) : Path := (containersDir root).join (Path.parse name)

def blobPath (containerRoot : Path) (name : String) : Path := containerRoot.join (Path.parse name)

/-- What the file system does to one call of its own accord. -/
structure Faults where
  unreadable : List Location := []
  dirs : Option ℕ := none
  writes : ℕ → Option Disk.WriteFault := fun _ => none
  removes : ℕ → Bool := fun _ => false
  sidecar : Option Disk.WriteFault := none
  left : List Location := []

/-- Where a call goes, and what for. Listing a directory gives the sizes of its files, too. -/
inductive Access where
  | read (l : Location)
  | write (l : Location)
  | remove (l : Location)
  | makeDirs (l : Location)
  | removeTree (l : Location)
  | inspect (l : Location)
  | list (l : Location)
  deriving DecidableEq, Repr

section Layout
variable (host : Host) (d : Disk) (f : Faults)

def readFile (p : Path) : Option (List UInt8) :=
  if host.place p ∈ f.unreadable then none else d.read (host.place p)

def readDir (p : Path) : List String :=
  if host.place p ∈ f.unreadable then [] else d.list (host.place p)

/-- `fs::read_to_string`, or nothing. -/
def readDisplayName (containerRoot : Path) : String :=
  ((readFile host d f (blobPath containerRoot META_FILE)).bind fun bytes =>
    String.fromUTF8? ⟨bytes.toArray⟩).getD ""

def bytesOf (text : String) : List UInt8 := text.toUTF8.data.toList

/-- The blobs of a container: every file of its directory but the sidecar. -/
def blobFiles (containerRoot : Path) : List (String × List UInt8) :=
  (readDir host d f containerRoot).filterMap fun name =>
    if name = META_FILE then none
    else (d.read ((host.place containerRoot).child name)).map fun content => (name, content)

def containerTotalSize (containerRoot : Path) : ℕ :=
  ((blobFiles host d f containerRoot).map fun blob => blob.2.length).sum % 2 ^ 64

structure ContainerInfo where
  name : String
  displayName : String
  blobCount : ℕ
  totalSize : ℕ
  deriving DecidableEq, Repr

/-- `CString::new`, or nothing. -/
def cstring (s : String) : String := if s.toList.contains (Char.ofNat 0) then "" else s

def containerInfo (root : Path) (name : String) : Option ContainerInfo × List Access :=
  let dir := containerDir root name
  if d.isDir (host.place dir) then
    (some
      { name := cstring name
        displayName := cstring (readDisplayName host d f dir)
        blobCount := (blobFiles host d f dir).length % 2 ^ 32
        totalSize := containerTotalSize host d f dir },
      [.inspect (host.place dir), .read (host.place (blobPath dir META_FILE)),
        .list (host.place dir)])
  else (none, [.inspect (host.place dir)])

def startsWith (name : String) : Option String → Bool
  | none => true
  | some start => start.toList.isPrefixOf name.toList

/-- `enumerate_containers` from one entry of the directory on; `keepGoing` is the answer of the
callback. -/
def enumerateContainersFrom (root : Path) (start : Option String)
    (keepGoing : ContainerInfo → Bool) : List String → List ContainerInfo × List Access
  | [] => ([], [])
  | name :: names =>
      let rest := enumerateContainersFrom root start keepGoing names
      let dir := host.place (containerDir root name)
      if d.isDir dir ∧ startsWith name start = true then
        match containerInfo host d f root name with
        | (some info, accesses) =>
            if keepGoing info then (info :: rest.1, .inspect dir :: accesses ++ rest.2)
            else ([info], .inspect dir :: accesses)
        | (none, accesses) => (rest.1, .inspect dir :: accesses ++ rest.2)
      else (rest.1, .inspect dir :: rest.2)

def enumerateContainers (root : Path) (start : Option String)
    (keepGoing : ContainerInfo → Bool) : List ContainerInfo × List Access :=
  let found := enumerateContainersFrom host d f root start keepGoing
    (readDir host d f (containersDir root))
  (found.1, .list (host.place (containersDir root)) :: found.2)

structure BlobInfo where
  name : String
  size : ℕ
  deriving DecidableEq, Repr

def enumerateBlobsFrom (start : Option String) (keepGoing : BlobInfo → Bool) :
    List (String × List UInt8) → List BlobInfo
  | [] => []
  | (name, content) :: blobs =>
      let rest := enumerateBlobsFrom start keepGoing blobs
      if startsWith name start then
        let info : BlobInfo := ⟨cstring name, content.length % 2 ^ 32⟩
        if keepGoing info then info :: rest else [info]
      else rest

def PLACEHOLDER_QUOTA_BYTES : ℤ := 1024 * 1024 * 1024

/-- What is left of the quota; the sum of the sizes is read as an `i64`. -/
def remainingQuota (root : Path) : ℤ × List Access :=
  let entries := readDir host d f (containersDir root)
  let used := (entries.map fun name => containerTotalSize host d f (containerDir root name)).sum
  (max 0 (min (PLACEHOLDER_QUOTA_BYTES - Int.bmod used (2 ^ 64)) (2 ^ 63 - 1)),
    .list (host.place (containersDir root)) ::
      entries.map fun name => .list (host.place (containerDir root name)))

/-- The loop of `XGameSaveReadBlobData`; it leaves what it has read when it stops at an error. -/
def readBlobs (root : Path) :
    List (Option String) → HRESULT × List (String × List UInt8) × List Access
  | [] => (S_OK, [], [])
  | none :: _ => (E_INVALIDARG, [], [])
  | some name :: names =>
      let l := host.place (blobPath root name)
      match readFile host d f (blobPath root name) with
      | none => (E_FAIL, [], [.read l])
      | some content =>
          let rest := readBlobs root names
          (rest.1, (name, content) :: rest.2.1, .read l :: rest.2.2)

end Layout

section Batch
variable (host : Host)

/-- The writes of an update in turn, up to the first that fails. -/
def applyWrites (d : Disk) (root : Path) :
    List (String × List UInt8) → (ℕ → Option Disk.WriteFault) → Bool × Disk × List Access
  | [], _ => (true, d, [])
  | (name, data) :: writes, faults =>
      let l := host.place (blobPath root name)
      let written := d.write l data (faults 0)
      if written.1 = true then
        let rest := applyWrites written.2 root writes fun n => faults (n + 1)
        (rest.1, rest.2.1, .write l :: rest.2.2)
      else (false, written.2, [.write l])

/-- The deletes of an update; those that fail are passed over. -/
def applyDeletes (d : Disk) (root : Path) :
    List String → (ℕ → Bool) → Disk × List Access
  | [], _ => (d, [])
  | name :: names, faults =>
      let l := host.place (blobPath root name)
      let rest := applyDeletes (d.remove l (faults 0)).2 root names fun n => faults (n + 1)
      (rest.1, .remove l :: rest.2)

def writeDisplayName (d : Disk) (root : Path) (displayName : String)
    (fault : Option Disk.WriteFault) : Disk × List Access :=
  if displayName = "" then (d, [])
  else
    let l := host.place (blobPath root META_FILE)
    ((d.write l (bytesOf displayName) fault).2, [.write l])

end Batch

/-! ## The handles -/

/-- `userId` and `configurationId` are what the provider was asked for. -/
structure Provider (host : Host) where
  root : Path
  userId : ℕ
  configurationId : String
  made : root = providerRoot host userId configurationId

/-- `provider` and `name` are what the container was asked for. -/
structure Container (host : Host) where
  root : Path
  provider : Provider host
  name : String
  made : root = containerDir provider.root name

/-- `UpdateState`: the writes and deletes that have not been submitted. -/
structure Update (host : Host) where
  containerRoot : Path
  displayName : String
  writes : List (String × List UInt8) := []
  deletes : List String := []
  container : Container host
  made : containerRoot = container.root

structure Saves (host : Host) where
  disk : Disk
  providers : HandleTable (Provider host) := {}
  containers : HandleTable (Container host) := {}
  updates : HandleTable (Update host) := {}

/-! ## The calls -/

structure Answer where
  result : HRESULT
  handle : Option ℕ := none
  quota : Option ℤ := none
  containers : List ContainerInfo := []
  blobs : List BlobInfo := []
  data : List (String × List UInt8) := []

/-- What comes back from a call: its answer, and where it has gone. -/
structure Outcome (host : Host) where
  saves : Saves host
  answer : Answer
  accesses : List Access := []

section Calls
variable {host : Host} (s : Saves host) (f : Faults)

def Saves.refuse (hr : HRESULT) : Outcome host := { saves := s, answer := { result := hr } }

/-- `out` is whether the pointer for the answer is there, as in every call below. -/
def initializeProvider (userId : Option ℕ) (configurationId : Option String) (out : Bool) :
    Outcome host :=
  if out = false then s.refuse E_POINTER
  else
    match configurationId, userId with
    | none, _ => s.refuse E_INVALIDARG
    | some _, none => s.refuse E_INVALIDARG
    | some configurationId, some userId =>
        let root := providerRoot host userId configurationId
        let dir := host.place (containersDir root)
        let made := s.disk.createDirs dir f.dirs
        if made.1 then
          let entry := s.providers.create ⟨root, userId, configurationId, rfl⟩
          { saves := { s with disk := made.2, providers := entry.2 }
            answer := { result := S_OK, handle := some entry.1 }
            accesses := [.makeDirs dir] }
        else
          { saves := { s with disk := made.2 }
            answer := { result := E_FAIL }
            accesses := [.makeDirs dir] }

def closeProvider (provider : ℕ) : Outcome host :=
  { saves := { s with providers := s.providers.close provider }, answer := { result := S_OK } }

def getRemainingQuota (provider : ℕ) (out : Bool) : Outcome host :=
  if out = false then s.refuse E_POINTER
  else
    match s.providers.get provider with
    | none => s.refuse E_INVALIDARG
    | some p =>
        let left := remainingQuota host s.disk f p.root
        { saves := s, answer := { result := S_OK, quota := some left.1 }, accesses := left.2 }

def deleteContainer (provider : ℕ) (containerName : Option String) : Outcome host :=
  match s.providers.get provider, containerName with
  | none, _ => s.refuse E_INVALIDARG
  | some _, none => s.refuse E_INVALIDARG
  | some p, some name =>
      let dir := host.place (containerDir p.root name)
      let removed := s.disk.removeTree dir f.left
      { saves := { s with disk := removed.2 }
        answer := { result := if removed.1 = .failed then E_FAIL else S_OK }
        accesses := [.removeTree dir] }

def getContainerInfo (provider : ℕ) (containerName : Option String) (callback : Bool) :
    Outcome host :=
  match s.providers.get provider with
  | none => s.refuse E_INVALIDARG
  | some p =>
      if callback = false then s.refuse E_POINTER
      else
        match containerName with
        | none => s.refuse E_INVALIDARG
        | some name =>
            let found := containerInfo host s.disk f p.root name
            { saves := s, answer := { result := S_OK, containers := found.1.toList }
              accesses := found.2 }

/-- `XGameSaveEnumerateContainerInfo`, and the same by the start of the name. -/
def enumerateContainerInfo (provider : ℕ) (start : Option String)
    (callback : Option (ContainerInfo → Bool)) : Outcome host :=
  match s.providers.get provider, callback with
  | none, _ => s.refuse E_INVALIDARG
  | some _, none => s.refuse E_POINTER
  | some p, some keepGoing =>
      let found := enumerateContainers host s.disk f p.root start keepGoing
      { saves := s, answer := { result := S_OK, containers := found.1 }, accesses := found.2 }

def createContainer (provider : ℕ) (containerName : Option String) (out : Bool) : Outcome host :=
  if out = false then s.refuse E_POINTER
  else
    match s.providers.get provider, containerName with
    | none, _ => s.refuse E_INVALIDARG
    | some _, none => s.refuse E_INVALIDARG
    | some p, some name =>
        let root := containerDir p.root name
        let made := s.disk.createDirs (host.place root) f.dirs
        if made.1 then
          let entry := s.containers.create ⟨root, p, name, rfl⟩
          { saves := { s with disk := made.2, containers := entry.2 }
            answer := { result := S_OK, handle := some entry.1 }
            accesses := [.makeDirs (host.place root)] }
        else
          { saves := { s with disk := made.2 }
            answer := { result := E_FAIL }
            accesses := [.makeDirs (host.place root)] }

def closeContainer (container : ℕ) : Outcome host :=
  { saves := { s with containers := s.containers.close container }, answer := { result := S_OK } }

/-- `XGameSaveEnumerateBlobInfo`, and the same by the start of the name. -/
def enumerateBlobInfo (container : ℕ) (start : Option String)
    (callback : Option (BlobInfo → Bool)) : Outcome host :=
  match s.containers.get container, callback with
  | none, _ => s.refuse E_INVALIDARG
  | some _, none => s.refuse E_POINTER
  | some c, some keepGoing =>
      { saves := s
        answer :=
          { result := S_OK
            blobs := enumerateBlobsFrom start keepGoing (blobFiles host s.disk f c.root) }
        accesses := [.list (host.place c.root)] }

/-- `counted` is whether the pointer for the count is there, `room` the size of the array for the
blobs, `out` whether that is there. -/
def readBlobData (container : ℕ) (blobNames : Option (List (Option String))) (counted : Bool)
    (room : ℕ) (out : Bool) : Outcome host :=
  if counted = false then s.refuse E_POINTER
  else
    match s.containers.get container, blobNames with
    | none, _ => s.refuse E_INVALIDARG
    | some _, none => s.refuse E_INVALIDARG
    | some c, some names =>
        if names = [] then s.refuse E_INVALIDARG
        else if room < names.length ∨ out = false then s.refuse E_NOT_SUFFICIENT_BUFFER
        else
          let found := readBlobs host s.disk f c.root names
          { saves := s, answer := { result := found.1, data := found.2.1 }
            accesses := found.2.2 }

def createUpdate (container : ℕ) (containerDisplayName : Option String) (out : Bool) :
    Outcome host :=
  if out = false then s.refuse E_POINTER
  else
    match s.containers.get container with
    | none => s.refuse E_INVALIDARG
    | some c =>
        let entry := s.updates.create
          { containerRoot := c.root
            displayName := containerDisplayName.getD ""
            container := c
            made := rfl }
        { saves := { s with updates := entry.2 }
          answer := { result := S_OK, handle := some entry.1 } }

def closeUpdate (updateContext : ℕ) : Outcome host :=
  { saves := { s with updates := s.updates.close updateContext }, answer := { result := S_OK } }

/-- `data` is `none` when the pointer is null and the count is not zero. -/
def submitBlobWrite (updateContext : ℕ) (blobName : Option String) (data : Option (List UInt8)) :
    Outcome host :=
  match s.updates.get updateContext, blobName, data with
  | none, _, _ => s.refuse E_INVALIDARG
  | some _, none, _ => s.refuse E_INVALIDARG
  | some _, some _, none => s.refuse E_POINTER
  | some u, some name, some bytes =>
      { saves :=
          { s with
            updates := s.updates.put updateContext
              { u with
                deletes := u.deletes.filter fun deleted => decide (deleted ≠ name)
                writes := (u.writes.filter fun w => decide (w.1 ≠ name)) ++ [(name, bytes)] } }
        answer := { result := S_OK } }

def submitBlobDelete (updateContext : ℕ) (blobName : Option String) : Outcome host :=
  match s.updates.get updateContext, blobName with
  | none, _ => s.refuse E_INVALIDARG
  | some _, none => s.refuse E_INVALIDARG
  | some u, some name =>
      { saves :=
          { s with
            updates := s.updates.put updateContext
              { u with
                writes := u.writes.filter fun w => decide (w.1 ≠ name)
                deletes := u.deletes ++ [name] } }
        answer := { result := S_OK } }

def submitUpdate (updateContext : ℕ) : Outcome host :=
  match s.updates.get updateContext with
  | none => s.refuse E_INVALIDARG
  | some u =>
      let dir := host.place u.containerRoot
      let made := s.disk.createDirs dir f.dirs
      if made.1 = false then
        { saves := { s with disk := made.2 }
          answer := { result := E_FAIL }
          accesses := [.makeDirs dir] }
      else
        let written := applyWrites host made.2 u.containerRoot u.writes f.writes
        if written.1 = false then
          { saves := { s with disk := written.2.1 }
            answer := { result := E_FAIL }
            accesses := .makeDirs dir :: written.2.2 }
        else
          let deleted := applyDeletes host written.2.1 u.containerRoot u.deletes f.removes
          let named :=
            writeDisplayName host deleted.1 u.containerRoot u.displayName f.sidecar
          { saves :=
              { s with
                disk := named.1
                updates := s.updates.put updateContext { u with writes := [], deletes := [] } }
            answer := { result := S_OK }
            accesses := .makeDirs dir :: written.2.2 ++ deleted.2 ++ named.2 }

/-- `XGameSaveFilesGetFolderWithUiAsync`; the text of the folder is left out. -/
def filesGetFolder (userId : Option ℕ) (configurationId : Option String) : Outcome host :=
  match configurationId, userId with
  | none, _ => s.refuse E_INVALIDARG
  | some _, none => s.refuse E_INVALIDARG
  | some configurationId, some userId =>
      let dir := host.place (providerRoot host userId configurationId)
      let made := s.disk.createDirs dir f.dirs
      { saves := { s with disk := made.2 }
        answer := { result := if made.1 then S_OK else E_FAIL }
        accesses := [.makeDirs dir] }

def filesGetRemainingQuota (userId : Option ℕ) (configurationId : Option String) (out : Bool) :
    Outcome host :=
  if out = false then s.refuse E_POINTER
  else
    match configurationId, userId with
    | none, _ => s.refuse E_INVALIDARG
    | some _, none => s.refuse E_INVALIDARG
    | some configurationId, some userId =>
        let left := remainingQuota host s.disk f (providerRoot host userId configurationId)
        { saves := s, answer := { result := S_OK, quota := some left.1 }, accesses := left.2 }

end Calls

/-! ## Runs -/

inductive Call where
  | initializeProvider (userId : Option ℕ) (configurationId : Option String) (out : Bool)
  | closeProvider (provider : ℕ)
  | getRemainingQuota (provider : ℕ) (out : Bool)
  | deleteContainer (provider : ℕ) (containerName : Option String)
  | getContainerInfo (provider : ℕ) (containerName : Option String) (callback : Bool)
  | enumerateContainerInfo (provider : ℕ) (start : Option String)
      (callback : Option (ContainerInfo → Bool))
  | createContainer (provider : ℕ) (containerName : Option String) (out : Bool)
  | closeContainer (container : ℕ)
  | enumerateBlobInfo (container : ℕ) (start : Option String)
      (callback : Option (BlobInfo → Bool))
  | readBlobData (container : ℕ) (blobNames : Option (List (Option String))) (counted : Bool)
      (room : ℕ) (out : Bool)
  | createUpdate (container : ℕ) (containerDisplayName : Option String) (out : Bool)
  | closeUpdate (updateContext : ℕ)
  | submitBlobWrite (updateContext : ℕ) (blobName : Option String) (data : Option (List UInt8))
  | submitBlobDelete (updateContext : ℕ) (blobName : Option String)
  | submitUpdate (updateContext : ℕ)
  | filesGetFolder (userId : Option ℕ) (configurationId : Option String)
  | filesGetRemainingQuota (userId : Option ℕ) (configurationId : Option String) (out : Bool)

def step {host : Host} (s : Saves host) (f : Faults) : Call → Outcome host
  | .initializeProvider userId configurationId out =>
      initializeProvider s f userId configurationId out
  | .closeProvider provider => closeProvider s provider
  | .getRemainingQuota provider out => getRemainingQuota s f provider out
  | .deleteContainer provider containerName => deleteContainer s f provider containerName
  | .getContainerInfo provider containerName callback =>
      getContainerInfo s f provider containerName callback
  | .enumerateContainerInfo provider start callback =>
      enumerateContainerInfo s f provider start callback
  | .createContainer provider containerName out => createContainer s f provider containerName out
  | .closeContainer container => closeContainer s container
  | .enumerateBlobInfo container start callback => enumerateBlobInfo s f container start callback
  | .readBlobData container blobNames counted room out =>
      readBlobData s f container blobNames counted room out
  | .createUpdate container containerDisplayName out =>
      createUpdate s container containerDisplayName out
  | .closeUpdate updateContext => closeUpdate s updateContext
  | .submitBlobWrite updateContext blobName data => submitBlobWrite s updateContext blobName data
  | .submitBlobDelete updateContext blobName => submitBlobDelete s updateContext blobName
  | .submitUpdate updateContext => submitUpdate s f updateContext
  | .filesGetFolder userId configurationId => filesGetFolder s f userId configurationId
  | .filesGetRemainingQuota userId configurationId out =>
      filesGetRemainingQuota s f userId configurationId out

/-- The state after some calls, each with what the file system does to it. -/
def run {host : Host} (s : Saves host) (calls : List (Call × Faults)) : Saves host :=
  calls.foldl (fun s c => (step s c.2 c.1).saves) s

/-- A host with one drive. -/
def driveHost : Host where
  gameSaveRoot := some "C:/saves"
  tempDir := "C:/temp"
  dirs := ⟨"C:", fun _ => [], fun _ _ h => absurd h List.not_mem_nil⟩

end XGameRuntime.GameSave
