import XGameRuntime.GameSave.Storage

/-! # The places of game saves

A provider, a container and a blob have one place in the tree each, and the joined paths lead there
exactly when the names are plain.
-/

namespace XGameRuntime.GameSave
open FileSystem
set_option autoImplicit false

/-! ## The places -/

section Places
variable (host : Host) (userId : ℕ) (configurationId container blob : String)

def configurationPlace : Location :=
  ((host.place host.base).child (toString userId)).child configurationId

def containersPlace : Location := (configurationPlace host userId configurationId).child "containers"

def containerPlace : Location := (containersPlace host userId configurationId).child container

def blobPlace : Location := (containerPlace host userId configurationId container).child blob

/-- A name for a blob: plain, and not the name of the sidecar. -/
def BlobName : Prop := Plain blob ∧ blob ≠ META_FILE

/-- The paths that the names are joined to lead to the place of the blob. -/
def Denoted : Prop :=
  host.place (blobPath (containerDir (providerRoot host userId configurationId) container) blob) =
    blobPlace host userId configurationId container blob ∧ blob ≠ META_FILE

end Places

section Digits

theorem plain_toString (n : ℕ) : Plain (toString n) := by
  have hlist : (toString n).toList = Nat.toDigits 10 n := Nat.toList_repr
  have hdigit : ∀ c ∈ (toString n).toList, c.isDigit = true := by
    intro c hc
    rw [hlist] at hc
    exact Nat.isDigit_of_mem_toDigits (by decide) (by decide) hc
  have hne : (toString n).toList ≠ [] := by
    rw [hlist]
    exact Nat.toDigits_ne_nil
  refine ⟨?_, ?_, ?_, ?_, ?_⟩
  · intro he
    rw [he] at hne
    exact hne rfl
  · intro he
    exact absurd (hdigit '.' (by rw [he]; decide)) (by decide)
  · intro he
    exact absurd (hdigit '.' (by rw [he]; decide)) (by decide)
  · intro c hc
    cases hs : isSeparator c with
    | false => rfl
    | true =>
      have hsep : c = '/' ∨ c = '\\' := by simpa [isSeparator] using hs
      rcases hsep with rfl | rfl
      · exact absurd (hdigit _ hc) (by decide)
      · exact absurd (hdigit _ hc) (by decide)
  · unfold startsWithDrive
    split
    · rename_i heq
      exact absurd (hdigit ':' (by rw [heq]; simp)) (by decide)
    · rfl

theorem toString_injective {m n : ℕ} (h : toString m = toString n) : m = n := by
  have hdigits : Nat.toDigits 10 m = Nat.toDigits 10 n := by
    rw [← Nat.toList_repr, ← Nat.toList_repr]
    exact congrArg String.toList h
  have hn : Nat.ofDigitChars 10 (Nat.toDigits 10 n) 0 = n := Nat.ofDigitChars_ten_toDigits
  rw [← hdigits, Nat.ofDigitChars_ten_toDigits] at hn
  exact hn

end Digits

/-! ## What the joined paths denote -/

section Denotation
variable {host : Host} {userId : ℕ} {configurationId container blob : String}

theorem base_clean (host : Host) : host.base.Clean := by
  unfold Host.base
  split
  · exact parse_clean _
  · exact join_clean (parse_clean _) (parse_clean _)

theorem providerRoot_clean : (providerRoot host userId configurationId).Clean :=
  join_clean (join_clean (base_clean host) (parse_clean _)) (parse_clean _)

theorem containerDir_clean {root : Path} (h : root.Clean) : (containerDir root container).Clean :=
  join_clean (join_clean h (parse_clean _)) (parse_clean _)

theorem plain_containers : Plain "containers" := by decide

theorem plain_meta : Plain META_FILE := by decide

theorem place_blobPath {root : Path} (h : Plain blob) :
    host.place (blobPath root blob) = (host.place root).child blob :=
  resolve_join_plain h

theorem place_containersDir {root : Path} :
    host.place (containersDir root) = (host.place root).child "containers" :=
  resolve_join_plain plain_containers

theorem place_containerDir {root : Path} (h : Plain container) :
    host.place (containerDir root container) =
      ((host.place root).child "containers").child container :=
  (resolve_join_plain h).trans (congrArg (Location.child · container) place_containersDir)

theorem place_providerRoot (h : Plain configurationId) :
    host.place (providerRoot host userId configurationId) =
      configurationPlace host userId configurationId :=
  (resolve_join_plain h).trans
    (congrArg (Location.child · configurationId) (resolve_join_plain (plain_toString userId)))

theorem place_container (hconf : Plain configurationId) (hcont : Plain container) :
    host.place (containerDir (providerRoot host userId configurationId) container) =
      containerPlace host userId configurationId container := by
  rw [place_containerDir hcont, place_providerRoot hconf]
  rfl

/-- A joined name is where it should be only if it is plain, and then so is what it is joined
to. -/
theorem place_join {p : Path} {l : Location} {name : String} (hp : p.Clean)
    (h : host.place (p.join (Path.parse name)) = l.child name) : Plain name ∧ host.place p = l := by
  have hplain : Plain name := by
    have hnames : ((p.join (Path.parse name)).resolve host.dirs).names = l.names ++ [name] :=
      congrArg Location.names h
    have hmem : name ∈ ((p.join (Path.parse name)).resolve host.dirs).names := by
      rw [hnames]
      exact List.mem_append_right _ List.mem_cons_self
    exact plain_of_mem_resolve hp hmem
  refine ⟨hplain, ?_⟩
  rw [Host.place, resolve_join_plain hplain] at h
  exact (Location.child_injective h).1

theorem denoted_iff : Denoted host userId configurationId container blob ↔
    Plain configurationId ∧ Plain container ∧ BlobName blob := by
  constructor
  · rintro ⟨hl, hmeta⟩
    obtain ⟨hblob, hcontainer⟩ := place_join (containerDir_clean providerRoot_clean) hl
    obtain ⟨hcont, hcontainers⟩ :=
      place_join (join_clean providerRoot_clean (parse_clean _)) hcontainer
    obtain ⟨-, hroot⟩ := place_join providerRoot_clean hcontainers
    obtain ⟨hconf, -⟩ := place_join (join_clean (base_clean host) (parse_clean _)) hroot
    exact ⟨hconf, hcont, hblob, hmeta⟩
  · rintro ⟨hconf, hcont, hblob, hmeta⟩
    refine ⟨?_, hmeta⟩
    rw [place_blobPath hblob, place_container hconf hcont]
    rfl

theorem containerPlace_injective {host : Host} {userId userId' : ℕ}
    {configurationId configurationId' container container' : String}
    (h : containerPlace host userId configurationId container =
      containerPlace host userId' configurationId' container') :
    userId = userId' ∧ configurationId = configurationId' ∧ container = container' := by
  obtain ⟨hl, hcont⟩ := Location.child_injective h
  obtain ⟨hl, -⟩ := Location.child_injective hl
  obtain ⟨hl, hconf⟩ := Location.child_injective hl
  obtain ⟨-, huser⟩ := Location.child_injective hl
  exact ⟨toString_injective huser, hconf, hcont⟩

end Denotation

end XGameRuntime.GameSave
