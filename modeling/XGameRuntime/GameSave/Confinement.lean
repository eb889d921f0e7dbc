import XGameRuntime.GameSave.Accesses

/-! # Confinement

Two containers have no place in common. So a call that keeps to its scope leaves every other
container, configuration and user alone, and so does a run of calls with plain names.
-/

namespace XGameRuntime.GameSave
open FileSystem
set_option autoImplicit false

/-! ## Calls that keep to their scope -/

/-- A call keeps to its scope. -/
structure Confined {host : Host} (s : Saves host) (call : Call) (o : Outcome host) : Prop where
  within : ∀ a ∈ o.accesses, ∃ scope, call.scope s = some scope ∧ a.Within host scope
  recorded : ∀ l, o.saves.disk.lookup l ≠ s.disk.lookup l →
    ∃ a ∈ o.accesses, a.Explains s.disk o.saves.disk l
  others : ∀ userId configurationId container,
    call.scope s ≠ some ⟨userId, configurationId, some container⟩ →
    ∀ l, l.under (containerPlace host userId configurationId container) = true →
      o.saves.disk.lookup l = s.disk.lookup l
  deleted : ∀ provider name p, call = .deleteContainer provider (some name) →
    s.providers.get provider = some p → o.answer.result = S_OK →
    ∀ l, l.under (containerPlace host p.userId p.configurationId name) = true →
      o.saves.disk.lookup l = none

section Confined
variable {host : Host} {s : Saves host} {f : Faults} {l : Location}

theorem length_containerPlace (userId : ℕ) (configurationId container : String) :
    (containerPlace host userId configurationId container).names.length =
      (host.place host.base).names.length + 4 := by
  simp [containerPlace, containersPlace, configurationPlace, Location.child]

/-- Two containers have no place in common. -/
theorem containerPlace_disjoint {userId userId' : ℕ}
    {configurationId configurationId' container container' : String}
    (h : l.under (containerPlace host userId configurationId container) = true)
    (h' : l.under (containerPlace host userId' configurationId' container') = true) :
    userId = userId' ∧ configurationId = configurationId' ∧ container = container' := by
  obtain ⟨hv, hp⟩ := Location.under_iff.mp h
  obtain ⟨hv', hp'⟩ := Location.under_iff.mp h'
  have hlen : (containerPlace host userId configurationId container).names.length =
      (containerPlace host userId' configurationId' container').names.length := by
    rw [length_containerPlace, length_containerPlace]
  have hnames := (List.prefix_of_prefix_length_le hp hp' (Nat.le_of_eq hlen)).eq_of_length hlen
  have hplace : containerPlace host userId configurationId container =
      containerPlace host userId' configurationId' container' :=
    Location.ext (hv.symm.trans hv') hnames
  exact containerPlace_injective hplace

/-- No directory above the containers lies in one. -/
theorem not_above_container {userId : ℕ} {configurationId container : String} {dir : Location}
    (hlen : dir.names.length < (host.place host.base).names.length + 4)
    (h : l.under (containerPlace host userId configurationId container) = true)
    (hdir : dir.under l = true) : False := by
  obtain ⟨-, hp⟩ := Location.under_iff.mp (Location.under_trans hdir h)
  have hle := hp.length_le
  rw [length_containerPlace] at hle
  omega

/-- What explains a change in a container has that container in its scope. -/
theorem scope_of_explains {scope : Scope} {a : Access} {d d' : Disk} {userId : ℕ}
    {configurationId container : String} (hw : a.Within host scope) (he : a.Explains d d' l)
    (hu : l.under (containerPlace host userId configurationId container) = true) :
    scope = ⟨userId, configurationId, some container⟩ := by
  have hscope : ∀ name, scope.container = some name →
      l.under (containerPlace host scope.userId scope.configurationId name) = true →
      scope = ⟨userId, configurationId, some container⟩ := by
    intro name hname hin
    obtain ⟨h1, h2, h3⟩ := containerPlace_disjoint hin hu
    cases scope
    simp_all
  cases a with
  | write k =>
    obtain ⟨name, blob, hname, -, rfl⟩ := hw
    obtain rfl := he
    exact hscope name hname (Location.under_child blob (Location.under_refl _))
  | remove k =>
    obtain ⟨name, blob, hname, -, rfl⟩ := hw
    obtain rfl := he
    exact hscope name hname (Location.under_child blob (Location.under_refl _))
  | removeTree k =>
    obtain ⟨name, hname, rfl⟩ := hw
    exact hscope name hname he
  | makeDirs k =>
    obtain ⟨hk, -, -⟩ := he
    obtain rfl | rfl | ⟨name, hname, rfl⟩ := hw
    · refine (not_above_container ?_ hu hk).elim
      simp [configurationPlace, Location.child]
    · refine (not_above_container ?_ hu hk).elim
      simp [containersPlace, configurationPlace, Location.child]
    · have hboth := Location.under_trans hk hu
      obtain ⟨h1, h2, h3⟩ := containerPlace_disjoint (Location.under_refl _) hboth
      cases scope
      simp_all
  | read k => cases he
  | inspect k => cases he
  | list k => cases he

theorem deleteContainer_gone {provider : ℕ} {name : String} {p : Provider host}
    (hp : s.providers.get provider = some p) (hconf : Plain p.configurationId)
    (hname : Plain name) (hok : (deleteContainer s f provider (some name)).answer.result = S_OK)
    (hu : l.under (containerPlace host p.userId p.configurationId name) = true) :
    (deleteContainer s f provider (some name)).saves.disk.lookup l = none := by
  have hdir := (p.rooted hconf (some name)).container hname
  unfold deleteContainer at hok ⊢
  rw [hp] at hok ⊢
  dsimp only at hok ⊢
  rw [hdir] at hok ⊢
  refine Disk.removeTree_gone ?_ ?_ hu
  · simp [containerPlace, Location.child]
  · intro hfail
    rw [if_pos hfail] at hok
    cases hok

theorem step_confined (h : s.Named) {call : Call} (hcall : call.Named) :
    Confined s call (step s f call) where
  within _ ha := step_within h hcall ha
  recorded _ hl := step_recorded hl
  others userId configurationId container hscope l hu := by
    by_contra hne
    obtain ⟨a, ha, he⟩ := step_recorded hne
    obtain ⟨scope, hs, hw⟩ := step_within h hcall ha
    exact hscope (hs.trans (congrArg some (scope_of_explains hw he hu)))
  deleted provider name p hc hp hok l hu := by
    subst hc
    exact deleteContainer_gone hp (h.providers _ p hp) (hcall _ rfl) hok hu

end Confined

/-! ## The confinement of every run -/

/-- The names of the tuples denote one file each when they are plain; two such tuples denote two
files; and in every run of calls with plain names, every call keeps to its scope. -/
theorem game_saves_confined (host : Host) :
    (∀ (userId : ℕ) (configurationId container blob : String),
      Denoted host userId configurationId container blob ↔
        Plain configurationId ∧ Plain container ∧ BlobName blob) ∧
    (∀ (userId userId' : ℕ)
      (configurationId configurationId' container container' blob blob' : String),
      Denoted host userId configurationId container blob →
      Denoted host userId' configurationId' container' blob' →
      host.place (blobPath (containerDir (providerRoot host userId configurationId) container)
        blob) =
      host.place (blobPath (containerDir (providerRoot host userId' configurationId') container')
        blob') →
      userId = userId' ∧ configurationId = configurationId' ∧ container = container' ∧
        blob = blob') ∧
    ∀ (disk : Disk) (calls : List (Call × Faults)) (call : Call) (f : Faults),
      (∀ c ∈ calls, c.1.Named) → call.Named →
      Confined (run ({ disk := disk } : Saves host) calls) call
        (step (run ({ disk := disk } : Saves host) calls) f call) := by
  refine ⟨fun _ _ _ _ => denoted_iff, ?_, ?_⟩
  · intro userId userId' configurationId configurationId' container container' blob blob'
      h h' heq
    rw [h.1, h'.1] at heq
    obtain ⟨hcontainer, hblob⟩ := Location.child_injective heq
    obtain ⟨huser, hconf, hcont⟩ := containerPlace_injective hcontainer
    exact ⟨huser, hconf, hcont, hblob⟩
  · intro disk calls call f hcalls hcall
    exact step_confined (run_named (named_start disk) hcalls) hcall

/-- A title saves one blob in the container `slot`. -/
def saveOnce : List (Call × Faults) :=
  [(.initializeProvider (some 1) (some "config") true, {}), (.createContainer 1 (some "slot") true, {}),
    (.createUpdate 1 none true, {}), (.submitBlobWrite 1 (some "blob") (some [7]), {}),
    (.submitUpdate 1, {})]

theorem game_saves_confined_slot :
    Confined (run ({ disk := {} } : Saves driveHost) saveOnce) (.deleteContainer 1 (some "slot"))
      (step (run ({ disk := {} } : Saves driveHost) saveOnce) {}
        (.deleteContainer 1 (some "slot"))) ∧
    (step (run ({ disk := {} } : Saves driveHost) saveOnce) {}
      (.deleteContainer 1 (some "slot"))).answer.result = S_OK := by
  refine ⟨(game_saves_confined driveHost).2.2 {} saveOnce _ {} ?_ ?_, by decide +kernel⟩
  · refine List.forall_mem_cons.mpr ⟨?_, List.forall_mem_cons.mpr ⟨?_, ?_⟩⟩
    · rintro name ⟨rfl⟩
      decide
    · rintro name ⟨rfl⟩
      decide
    · refine List.forall_mem_cons.mpr ⟨trivial, List.forall_mem_cons.mpr ⟨?_, ?_⟩⟩
      · rintro name ⟨rfl⟩
        exact ⟨by decide, by decide⟩
      · exact List.forall_mem_singleton.mpr trivial
  · rintro name ⟨rfl⟩
    decide

/-- The empty name of a container removes them all. -/
theorem empty_name_deletes_all :
    ¬ ∀ (host : Host) (disk : Disk) (calls : List (Call × Faults)) (call : Call) (f : Faults),
      Confined (run ({ disk := disk } : Saves host) calls) call
        (step (run ({ disk := disk } : Saves host) calls) f call) := by
  intro h
  have hothers := (h driveHost {} saveOnce (.deleteContainer 1 (some "")) {}).others 1 "config"
    "slot" (by decide +kernel) (blobPlace driveHost 1 "config" "slot" "blob") (by decide +kernel)
  revert hothers
  decide +kernel

end XGameRuntime.GameSave
