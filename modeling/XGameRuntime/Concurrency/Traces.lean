import XGameRuntime.Concurrency.Pool

/-! # Machines that note down what they do

A traced machine runs like the machine it is made from. It keeps a trace, and a note with every
frame: each step says what it adds to the trace and which notes go with the frames it pushes.
-/

namespace XGameRuntime.Concurrency
set_option autoImplicit false

variable {σ φ χ α β : Type}

/-- What is noted down with a step, by the memory before it, the frame with its note and what the
step leaves behind; frames of a new thread get the note `blank`. -/
structure Notes (σ φ α β : Type) where
  entries : σ → φ → β → Outcome σ φ → List α
  pass : σ → φ → β → Outcome σ φ → φ → β
  blank : β

def Notes.push (N : Notes σ φ α β) (s : σ) (f : φ) (b : β) (o : Outcome σ φ) : List (φ × β) :=
  o.push.map fun g => (g, N.pass s f b o g)

def Notes.spawn (N : Notes σ φ α β) (o : Outcome σ φ) : List (List (φ × β)) :=
  o.spawn.map fun k => k.map fun g => (g, N.blank)

def Notes.frames (N : Notes σ φ α β) (s : σ) (f : φ) (b : β) (o : Outcome σ φ) :
    Multiset (φ × β) :=
  ↑(N.push s f b o ++ (N.spawn o).flatten)

theorem Notes.frames_fst (N : Notes σ φ α β) (s : σ) (f : φ) (b : β) (o : Outcome σ φ) :
    (N.frames s f b o).map Prod.fst = o.frames := by
  unfold Notes.frames Notes.push Notes.spawn Outcome.frames
  simp [List.map_flatten, Function.comp_def]

def Machine.traced (M : Machine σ φ χ) (N : Notes σ φ α β) : Machine (σ × List α) (φ × β) χ where
  step s f x := (M.step s.1 f.1 x).map fun o =>
    ⟨(o.shared, N.entries s.1 f.1 f.2 o ++ s.2), N.push s.1 f.1 f.2 o, N.spawn o⟩

/-- A configuration with an empty trace and blank notes. -/
def Config.traced (N : Notes σ φ α β) (c : Config σ φ) : Config (σ × List α) (φ × β) where
  shared := (c.shared, [])
  threads := c.threads.map fun k => k.map fun g => (g, N.blank)

def Config.untraced (c : Config (σ × List α) (φ × β)) : Config σ φ where
  shared := c.shared.1
  threads := c.threads.map fun k => k.map Prod.fst

theorem untraced_frames (c : Config (σ × List α) (φ × β)) :
    c.untraced.frames = c.frames.map Prod.fst := by
  unfold Config.frames Config.untraced
  rw [Multiset.map_coe, List.map_flatten]

theorem untraced_traced (N : Notes σ φ α β) (c : Config σ φ) : (c.traced N).untraced = c := by
  unfold Config.traced Config.untraced
  simp [Function.comp_def]

variable {M : Machine σ φ χ} {N : Notes σ φ α β}

theorem Machine.traced_fire {c c' : Config (σ × List α) (φ × β)} {i : ℕ} {x : χ}
    (h : (M.traced N).fire c i x = some c') : M.fire c.untraced i x = some c'.untraced := by
  obtain ⟨f, k, o, hk, hs, rfl⟩ := fire_cases h
  obtain ⟨o', ho', rfl⟩ := Option.map_eq_some_iff.mp hs
  have hk' : c.untraced.threads[i]? = some (f.1 :: k.map Prod.fst) := by
    unfold Config.untraced
    rw [List.getElem?_map, hk]
    rfl
  unfold Machine.fire
  rw [hk']
  refine Option.map_eq_some_iff.mpr ⟨o', ho', ?_⟩
  unfold Config.untraced
  simp [List.map_set, Notes.push, Notes.spawn, Function.comp_def]

/-- A run of the traced machine is one of the machine. -/
theorem Machine.Reaches.untraced {c₀ c : Config (σ × List α) (φ × β)}
    (h : (M.traced N).Reaches anyStep c₀ c) : M.Reaches anyStep c₀.untraced c.untraced := by
  induction h with
  | refl => exact .refl
  | tail _ hf ih =>
    obtain ⟨i, x, -, hf⟩ := hf
    exact .tail ih ⟨i, x, fun _ _ => trivial, Machine.traced_fire hf⟩

/-- The invariant rule for what the notes say, where a step may use what holds of the machine. -/
theorem Machine.Reaches.traced_invariant {I : σ → List α → Multiset (φ × β) → Prop}
    {J : σ → Multiset φ → Prop} {c₀ : Config σ φ} {c : Config (σ × List α) (φ × β)}
    (h : (M.traced N).Reaches anyStep (c₀.traced N) c)
    (hJ : ∀ c, M.Reaches anyStep c₀ c → J c.shared c.frames)
    (h0 : I c₀.shared [] (c₀.traced N).frames)
    (hstep : ∀ s trace f b R x o, J s (f ::ₘ Multiset.map Prod.fst R) → I s trace ((f, b) ::ₘ R) →
      M.step s f x = some o → I o.shared (N.entries s f b o ++ trace)
        (N.frames s f b o + R)) :
    I c.shared.1 c.shared.2 c.frames := by
  refine h.invariant (I := fun s fs => I s.1 s.2 fs) (J := fun s fs => J s.1 (fs.map Prod.fst))
    (fun c hc => ?_) h0 ?_
  · have hreaches := hc.untraced
    rw [untraced_traced] at hreaches
    have hj := hJ c.untraced hreaches
    rwa [untraced_frames] at hj
  · intro s f R x o _ hj hi hs
    obtain ⟨o', ho', rfl⟩ := Option.map_eq_some_iff.mp hs
    rw [Multiset.map_cons] at hj
    exact hstep s.1 s.2 f.1 f.2 R x o' hj hi ho'

/-! ## What is noted down once -/

theorem eq_of_countP {α : Type} {p : α → Bool} {l : List α} {a b : α} (h : l.countP p ≤ 1)
    (ha : a ∈ l) (hb : b ∈ l) (hpa : p a = true) (hpb : p b = true) : a = b := by
  rw [List.countP_eq_length_filter] at h
  have hfa : a ∈ l.filter p := List.mem_filter.mpr ⟨ha, hpa⟩
  have hfb : b ∈ l.filter p := List.mem_filter.mpr ⟨hb, hpb⟩
  obtain ⟨e, he⟩ := List.length_eq_one_iff.mp (Nat.le_antisymm h (List.length_pos_of_mem hfa))
  rw [he, List.mem_singleton] at hfa hfb
  rw [hfa, hfb]

end XGameRuntime.Concurrency
