import XGameRuntime.TaskQueue.Callbacks

/-! # What has been submitted

A callback that a client submits is with its submitter until its port gets it, and from then on in
the ledger. The queue keeps all of them: only a client adds to what has been submitted.
-/

namespace XGameRuntime.TaskQueue
open Concurrency
set_option autoImplicit false

variable {κ γ : Type}

/-- The callback of a call that has not come to its port. -/
def Frame.offers : Frame κ γ → Multiset κ
  | .notify a | .notifying a _ _ | .submitContext a _ | .submitDue a _ _ => {a.callback}
  | _ => 0

namespace Core

/-- The callbacks that a port has been offered and has neither refused nor started. -/
def pending (s : Core κ) (fs : Multiset (Frame κ γ)) : Multiset (Task κ) :=
  itemsAt Place.stage Stage.isPending (s.ledger fs).places

/-- What has been submitted and is neither refused nor started. -/
def outstanding (s : Core κ) (fs : Multiset (Frame κ γ)) : Multiset κ :=
  weight Frame.offers fs + (s.pending fs).map Task.callback

def submitted (s : Core κ) (fs : Multiset (Frame κ γ)) : Multiset κ :=
  weight Frame.offers fs + ((s.ledger fs).places.map Prod.fst).map Task.callback

end Core

section Step
variable {body : κ → Bool → List γ} {s t : Core κ} {f : Frame κ γ}
  {o : Outcome (Core κ) (Frame κ γ)}

theorem offers_clients (fs : List γ) :
    (fs.map (Frame.offers ∘ Frame.client (κ := κ))).sum = 0 := by
  refine List.sum_eq_zero fun x hx => ?_
  obtain ⟨g, -, rfl⟩ := List.mem_map.mp hx
  rfl

/-- A move that offers nothing keeps the items. -/
theorem places_kept {l l' : Ledger (Task κ) Place} (h : Ledger.Move Task.id Place.stage l l')
    (hn : l'.next = l.next) : l'.places.map Prod.fst = l.places.map Prod.fst := by
  cases h with
  | stay h => rw [h]
  | offer hp hk h =>
    subst h
    exact absurd hn (Nat.succ_ne_self _)
  | refuse hp hq hl h | accept hp hq hl h | start hp hq hl h | finish hp hq hl h =>
    subst h
    rw [hl, Multiset.map_cons, Multiset.map_cons]
  | relocate items hp hq hl h =>
    subst h
    simp only [hl, Multiset.map_add, Multiset.map_map]
    rfl

theorem coreStep_submitted (h : CoreStep body s f o) (R : Multiset (Frame κ γ)) :
    o.shared.submitted (o.frames + R) = s.submitted (f ::ₘ R) := by
  have hkept : o.shared.nextTask = s.nextTask → weight Frame.offers o.frames = f.offers →
      o.shared.submitted (o.frames + R) = s.submitted (f ::ₘ R) := by
    intro hn ho
    rw [Core.submitted, Core.submitted, places_kept (coreStep_move h R) hn, weight_add,
      weight_cons, ho]
  cases h with
  | @submitDue a owner ownerTerminated due hd =>
    simp [Core.submitted, Core.ledger, Core.holds, Core.queued, weight_frames, Frame.offers,
      Frame.holds]
  | refuse | acceptInline | acceptDelayed | invoke | dispatchExit | batchEnd =>
    refine hkept rfl ?_
    simp [weight_frames, Frame.offers, offers_clients]
  | acceptQueued =>
    refine hkept rfl ?_
    simp [weight_frames, Frame.offers, offers_clients]
  | _ =>
    refine hkept rfl ?_
    simp [weight_frames, Frame.offers]

end Step

section Machine
variable {C : Client κ} {s : World C} {f : Frame κ C.Frame} {x : Option C.Choice}
  {o : Outcome (World C) (Frame κ C.Frame)}

theorem registryStep_offers {s : TaskQueues κ} {o : Outcome (TaskQueues κ) (Frame κ C.Frame)}
    (h : RegistryStep C s f o) : weight Frame.offers o.frames = f.offers := by
  cases h with
  | notifyNext | terminated => simp [weight_frames, Frame.offers, offers_clients]
  | _ => simp [weight_frames, Frame.offers]

/-- Outside the core nothing moves. -/
theorem outer_places {s t : Core κ} {fs R : Multiset (Frame κ γ)} {f : Frame κ γ}
    (hg : s.Grows t) (hf : f.isOuter = true) (hfs : ∀ g ∈ fs, g.isOuter = true) :
    (t.ledger (fs + R)).places = (s.ledger (f ::ₘ R)).places := by
  rw [hg.ledger]
  simp only [Core.ledger, weight_cons, weight_add, holds_outer hf]
  rw [weight_eq_zero _ fun g hg => holds_outer (hfs g hg)]

/-- The queue neither loses nor doubles what it is given. -/
theorem queue_submitted (h : (machine C).step s f x = some o) (hf : ∀ g, f ≠ .client g)
    (R : Multiset (Frame κ C.Frame)) :
    o.shared.submitted (o.frames + R) = s.submitted (f ::ₘ R) := by
  cases step_inv h with
  | client => exact absurd rfl (hf _)
  | @registry _ o' hreg =>
    obtain ⟨hg, hfo, ho, hs⟩ := registryStep_outer hreg
    have hplaces := outer_places (R := R) hg hfo (forall_frames.mpr ⟨ho, by rw [hs]; exact nofun⟩)
    have hoffers : weight Frame.offers (o'.frames + R) = weight Frame.offers (f ::ₘ R) := by
      rw [weight_add, weight_cons, registryStep_offers hreg]
    exact congrArg₂ (fun offers places => offers + (places.map Prod.fst).map Task.callback)
      hoffers hplaces
  | core hcore => exact coreStep_submitted hcore R

/-- A client adds what it submits. -/
theorem client_submitted {g : C.Frame} (h : (machine C).step s (.client g) x = some o)
    (R : Multiset (Frame κ C.Frame)) :
    o.shared.submitted (o.frames + R) =
      s.submitted (.client g ::ₘ R) + weight Frame.offers o.frames := by
  cases step_inv h with
  | client hr ht =>
    obtain ⟨hg, hf, ho⟩ | ⟨o', hcore, -⟩ := (Step.client hr ht).outer_or_core
    · rw [Core.submitted, Core.submitted, outer_places hg hf ho, weight_add, weight_cons]
      simp only [Frame.offers, zero_add]
      rw [add_assoc, add_comm]
    · cases hcore
  | registry hreg => cases hreg
  | core hcore => cases hcore

variable {c₀ c : Config (World C) (Frame κ C.Frame)}

/-- What has been submitted is outstanding, or was refused, or was started. -/
theorem Initial.submitted (h0 : Initial C c₀) (h : (machine C).Reaches anyStep c₀ c) :
    c.shared.submitted c.frames = c.shared.outstanding c.frames +
      (c.shared.refused.map Task.callback : Multiset κ) +
      (c.shared.started.map fun call => call.1.callback : Multiset κ) := by
  have hitems := (h0.sound h).items
  rw [Core.submitted, Core.outstanding, hitems, Multiset.map_add, Multiset.map_add]
  simp only [Core.ledger, Multiset.map_coe, List.map_map]
  rw [← add_assoc, ← add_assoc]
  rfl

/-- No callback is pending twice, or refused and started, or started twice. -/
theorem Initial.nodup_ids (h0 : Initial C c₀) (h : (machine C).Reaches anyStep c₀ c) :
    ((c.shared.pending c.frames).map Task.id + (c.shared.refused.map Task.id : Multiset ℕ) +
      (c.shared.started.map fun call => call.1.id : Multiset ℕ)).Nodup := by
  have hsound := h0.sound h
  have hkeys : ((c.shared.ledger c.frames).places.map Prod.fst).map Task.id =
      Multiset.range c.shared.nextTask := by
    rw [Multiset.map_map]
    exact hsound.keys
  rw [hsound.items, Multiset.map_add, Multiset.map_add] at hkeys
  simp only [Core.ledger, Multiset.map_coe, List.map_map] at hkeys
  have hnodup := Multiset.nodup_range c.shared.nextTask
  rw [← hkeys] at hnodup
  exact hnodup

end Machine
end XGameRuntime.TaskQueue
