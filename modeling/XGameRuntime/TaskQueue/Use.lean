import XGameRuntime.TaskQueue.Names
import XGameRuntime.TaskQueue.Callbacks

/-! # What can still use a port

The references through which the code comes to a port: the two handle tables, the process queue,
and what the threads go on to look up. A port that nothing refers to any more stays as it is,
whatever the game goes on to call.
-/

namespace XGameRuntime.TaskQueue
open Concurrency
set_option autoImplicit false

/-! ## References -/

section References
variable {κ γ : Type}

/-- The ports whose `Arc` a frame holds by itself. -/
def Frame.ports : Frame κ γ → List ℕ
  | .finishOne p | .worker p | .delayed p _ => [p]
  | .dispatch d | .dispatchWait d _ | .drainReady d | .dispatchBatch d _ _ => [d.port]
  | _ => []

/-- The contexts that a frame goes on to look up. -/
def Frame.contexts : Frame κ γ → List ℕ
  | .submitContext _ owner | .submitDue _ owner _ => [owner]
  | .submitPort _ task _ => [task.owner]
  | .terminate owners _ => owners
  | .terminateContext owner owners _ | .cancel owner _ _ owners _ | .awaitDrained owner owners _ =>
      owner :: owners
  | _ => []

/-- The queues that a frame goes on to look up. -/
def Frame.queues : Frame κ γ → List ℕ
  | .notify a | .notifying a _ _ => [a.queue]
  | .terminateQueue a => [a.queue]
  | _ => []

/-- One of the two contexts of a queue is on the port. -/
def TaskQueues.Serves (s : TaskQueues κ) (q p : ℕ) : Prop :=
  ∃ (queue : Queue) (kind : PortKind), s.queues[q]? = some queue ∧ s.On (queue.context kind) p

inductive Frame.Uses (s : TaskQueues κ) (p : ℕ) (f : Frame κ γ) : Prop where
  | port (h : p ∈ f.ports)
  | context {owner : ℕ} (h : owner ∈ f.contexts) (ho : s.On owner p)
  | queue {q : ℕ} (h : q ∈ f.queues) (hq : s.Serves q p)

/-- What the tables refer to. -/
inductive TaskQueues.Refers (s : TaskQueues κ) (p : ℕ) : Prop where
  | portHandle {handle : ℕ} (h : s.portHandles.get handle = some p)
  | queueHandle {handle q : ℕ} (h : s.queueHandles.get handle = some q) (hq : s.Serves q p)
  | processQueue {q : ℕ} (h : s.processQueue = some q) (hq : s.Serves q p)

def Used (s : TaskQueues κ) (fs : Multiset (Frame κ γ)) (p : ℕ) : Prop :=
  s.Refers p ∨ ∃ f ∈ fs, f.Uses s p

/-- A frame looks up only what exists. -/
structure Frame.Known (s : TaskQueues κ) (f : Frame κ γ) : Prop where
  contexts : ∀ owner ∈ f.contexts, owner < s.contexts.length
  queues : ∀ q ∈ f.queues, q < s.queues.length

structure Resolved (s : TaskQueues κ) (fs : Multiset (Frame κ γ)) : Prop where
  named : s.Named
  frames : ∀ f ∈ fs, f.Known s

theorem portOf_serves {s : TaskQueues κ} {q p : ℕ} {kind : PortKind}
    (h : s.portOf q kind = some p) : s.Serves q p := by
  simp only [TaskQueues.portOf, Option.bind_eq_bind, Option.bind_eq_some_iff] at h
  obtain ⟨queue, hq, context, hc, h⟩ := h
  exact ⟨queue, kind, hq, context, hc, Option.some.inj h⟩

end References

/-! ## References to what exists already -/

section Back
variable {κ γ : Type} {s t : TaskQueues κ} {p q owner : ℕ}

theorem Core.Later.on_back {s t : Core κ} (h : s.Later t) (ho : owner < s.contexts.length)
    (hp : t.On owner p) : s.On owner p := by
  obtain ⟨context', hc', hp⟩ := hp
  obtain ⟨b, hb, hl⟩ := h.contexts owner _ (List.getElem?_eq_getElem ho)
  rw [hc', Option.some.injEq] at hb
  subst hb
  exact ⟨_, List.getElem?_eq_getElem ho, hl.port.symm.trans hp⟩

theorem Core.Later.contexts_le {s t : Core κ} (h : s.Later t) :
    s.contexts.length ≤ t.contexts.length := by
  by_contra hlt
  obtain ⟨b, hb, -⟩ := h.contexts _ _ (List.getElem?_eq_getElem (Nat.not_le.mp hlt))
  rw [List.getElem?_eq_none le_rfl] at hb
  cases hb

/-- Queues that existed serve the ports that they served. -/
theorem TaskQueues.Serves.back (hl : s.toCore.Later t.toCore) (hs : SameContexts s.queues t.queues)
    (hn : s.Named) (hq : q < s.queues.length) (h : t.Serves q p) : s.Serves q p := by
  obtain ⟨queue', kind, hq', ho⟩ := h
  obtain ⟨r, hr, hw, hc⟩ := hs q _ (List.getElem?_eq_getElem hq)
  rw [hq', Option.some.injEq] at hr
  subst hr
  have hctx : queue'.context kind = s.queues[q].context kind := by
    cases kind with
    | work => exact hw
    | completion => exact hc
  rw [hctx] at ho
  exact ⟨_, kind, List.getElem?_eq_getElem hq,
    hl.on_back (hn.contexts _ (List.getElem_mem hq) kind) ho⟩

theorem Frame.Uses.back (hl : s.toCore.Later t.toCore) (hs : SameContexts s.queues t.queues)
    (hn : s.Named) {f : Frame κ γ} (hk : f.Known s) (h : f.Uses t p) : f.Uses s p := by
  cases h with
  | port h => exact .port h
  | context h ho => exact .context h (hl.on_back (hk.contexts _ h) ho)
  | queue h hq => exact .queue h (hq.back hl hs hn (hk.queues _ h))

theorem Frame.Known.mono (hl : s.toCore.Later t.toCore) (hs : SameContexts s.queues t.queues)
    {f : Frame κ γ} (hk : f.Known s) : f.Known t where
  contexts o ho := (hk.contexts o ho).trans_le hl.contexts_le
  queues q hq := (hk.queues q hq).trans_le hs.length_le

/-- What tables that have gained no entry but for `X` refer to, they referred to before. -/
theorem TaskQueues.Refers.back {X : Prop} (hl : s.toCore.Later t.toCore)
    (hs : SameContexts s.queues t.queues) (hn : s.Named)
    (hports : ∀ handle, t.portHandles.get handle = some p →
      s.portHandles.get handle = some p ∨ X)
    (hqueues : ∀ handle q, t.queueHandles.get handle = some q →
      s.queueHandles.get handle = some q ∨ (t.Serves q p → X))
    (hprocess : ∀ q, t.processQueue = some q → s.processQueue = some q ∨ (t.Serves q p → X))
    (h : t.Refers p) : s.Refers p ∨ X := by
  cases h with
  | portHandle h => exact (hports _ h).imp_left .portHandle
  | queueHandle h hq =>
    rcases hqueues _ _ h with h | hx
    · exact .inl (.queueHandle h (hq.back hl hs hn (hn.handles _ _ h)))
    · exact .inr (hx hq)
  | processQueue h hq =>
    rcases hprocess _ h with h | hx
    · exact .inl (.processQueue h (hq.back hl hs hn (hn.process _ h)))
    · exact .inr (hx hq)

end Back

/-! ## What follows a frame -/

/-- What `g` looks up, `f` was to look up, or it is what a queue or a context of `f` leads to. -/
structure Frame.Follows {κ γ : Type} (s : TaskQueues κ) (f g : Frame κ γ) : Prop where
  queues : ∀ q ∈ g.queues, q ∈ f.queues
  contexts : ∀ owner ∈ g.contexts, owner ∈ f.contexts ∨ ∃ q ∈ f.queues,
    ∃ (queue : Queue) (kind : PortKind), s.queues[q]? = some queue ∧ owner = queue.context kind
  ports : ∀ p ∈ g.ports, p ∈ f.ports ∨ ∃ owner ∈ f.contexts, s.On owner p

section Follows
variable {κ : Type} {C : Client κ} {s : TaskQueues κ} {p : ℕ}

theorem Frame.Follows.uses {γ : Type} {f g : Frame κ γ} (h : f.Follows s g) (hg : g.Uses s p) :
    f.Uses s p := by
  cases hg with
  | port hp =>
    rcases h.ports p hp with hp | ⟨owner, ho, hon⟩
    · exact .port hp
    · exact .context ho hon
  | context hc ho =>
    rcases h.contexts _ hc with hc | ⟨q, hq, queue, kind, hqueue, rfl⟩
    · exact .context hc ho
    · exact .queue hq ⟨queue, kind, hqueue, ho⟩
  | queue hq hs => exact .queue (h.queues _ hq) hs

theorem Frame.Follows.known {γ : Type} {f g : Frame κ γ} (h : f.Follows s g) (hn : s.Named)
    (hf : f.Known s) : g.Known s where
  contexts owner ho := by
    rcases h.contexts owner ho with ho | ⟨q, hq, queue, kind, hqueue, rfl⟩
    · exact hf.contexts owner ho
    · exact hn.contexts queue (List.mem_of_getElem? hqueue) kind
  queues q hq := hf.queues q (h.queues q hq)

theorem Frame.Follows.of_subset {γ : Type} {f g : Frame κ γ} (hq : g.queues ⊆ f.queues)
    (hc : g.contexts ⊆ f.contexts) (hp : g.ports ⊆ f.ports) : f.Follows s g :=
  ⟨fun _ h => hq h, fun _ h => .inl (hc h), fun _ h => .inl (hp h)⟩

/-- Code above the queue looks nothing up. -/
theorem Frame.follows_client {γ : Type} (f : Frame κ γ) (g : γ) : f.Follows s (.client g) :=
  .of_subset (List.nil_subset _) (List.nil_subset _) (List.nil_subset _)

theorem Frame.follows_invoke {γ : Type} (f : Frame κ γ) (task : Task κ) (canceled : Bool) :
    f.Follows s (.invoke task canceled) :=
  .of_subset (List.nil_subset _) (List.nil_subset _) (List.nil_subset _)

/-- The frame of a port that one of the contexts is on. -/
theorem Frame.follows_port {γ : Type} {f g : Frame κ γ} {owner q : ℕ} (ho : owner ∈ f.contexts)
    (hon : s.On owner q) (hq : g.queues = []) (hc : g.contexts = []) (hp : g.ports = [q]) :
    f.Follows s g where
  queues _ h := by rw [hq] at h; cases h
  contexts _ h := by rw [hc] at h; cases h
  ports p h := by
    rw [hp, List.mem_singleton] at h
    subst h
    exact .inr ⟨owner, ho, hon⟩

theorem CoreStep.follows {γ : Type} {body : κ → Bool → List γ} {f : Frame κ γ}
    {o : Outcome (Core κ) (Frame κ γ)} (h : CoreStep body s.toCore f o) :
    ∀ g ∈ o.frames, f.Follows s g := by
  rw [forall_frames]
  cases h with
  | @acceptInline a task context port hc =>
    simp only [List.forall_mem_cons, List.forall_mem_map]
    refine ⟨⟨Frame.follows_invoke _ _ _, ?_, fun _ _ => Frame.follows_client _ _⟩,
      List.forall_mem_nil _⟩
    exact Frame.follows_port (List.mem_singleton_self _) ⟨context, hc, rfl⟩ rfl rfl rfl
  | @acceptDelayed a task context port hc =>
    simp only [List.forall_mem_singleton, List.forall_mem_map]
    refine ⟨fun _ _ => Frame.follows_client _ _, ?_⟩
    exact Frame.follows_port (List.mem_singleton_self _) ⟨context, hc, rfl⟩ rfl rfl rfl
  | @acceptQueued a task context port hc =>
    simp only [List.forall_mem_map]
    refine ⟨fun _ _ => Frame.follows_client _ _, fun k hk g hg => ?_⟩
    rw [List.eq_of_mem_replicate hk, List.mem_singleton] at hg
    subst hg
    exact Frame.follows_port (List.mem_singleton_self _) ⟨context, hc, rfl⟩ rfl rfl rfl
  | refuse | dispatchExit | batchEnd =>
    simp only [List.forall_mem_map]
    exact ⟨fun _ _ => Frame.follows_client _ _, List.forall_mem_nil _⟩
  | invoke =>
    simp only [List.forall_mem_append, List.forall_mem_map, List.forall_mem_singleton]
    refine ⟨⟨fun _ _ => Frame.follows_client _ _, ?_⟩, List.forall_mem_nil _⟩
    exact .of_subset (List.nil_subset _) (List.nil_subset _) (List.nil_subset _)
  | running | finishOne | workerExit => exact ⟨List.forall_mem_nil _, List.forall_mem_nil _⟩
  | _ =>
    refine ⟨?_, List.forall_mem_nil _⟩
    simp only [List.forall_mem_cons, List.not_mem_nil, false_implies, implies_true, and_true]
    and_intros
    all_goals
      refine Frame.Follows.of_subset ?_ ?_ ?_ <;>
        simp [Frame.queues, Frame.contexts, Frame.ports]

theorem RegistryStep.follows {f : Frame κ C.Frame} {o : Outcome (TaskQueues κ) (Frame κ C.Frame)}
    (h : RegistryStep C s f o) : ∀ g ∈ o.frames, f.Follows s g := by
  rw [forall_frames]
  cases h with
  | notifyNone hq | notifyEnd hq =>
    refine ⟨List.forall_mem_singleton.mpr ?_, List.forall_mem_nil _⟩
    refine ⟨fun _ h => (by cases h), fun owner ho => .inr ?_, fun _ h => (by cases h)⟩
    rw [List.mem_singleton.mp ho]
    exact ⟨_, List.mem_singleton_self _, _, _, hq, rfl⟩
  | notify hq ht =>
    refine ⟨List.forall_mem_singleton.mpr ?_, List.forall_mem_nil _⟩
    exact .of_subset (List.Subset.refl _) (List.nil_subset _) (List.nil_subset _)
  | notifyNext =>
    simp only [List.forall_mem_append, List.forall_mem_map, List.forall_mem_singleton]
    refine ⟨⟨fun _ _ => Frame.follows_client _ _, ?_⟩, List.forall_mem_nil _⟩
    exact .of_subset (List.Subset.refl _) (List.nil_subset _) (List.nil_subset _)
  | @terminateQueue a q hq =>
    refine ⟨List.forall_mem_singleton.mpr ?_, List.forall_mem_nil _⟩
    refine ⟨fun _ h => (by cases h), fun owner ho => .inr ?_, fun _ h => (by cases h)⟩
    rcases List.mem_pair.mp ho with rfl | rfl
    · exact ⟨_, List.mem_singleton_self _, q, .work, hq, rfl⟩
    · exact ⟨_, List.mem_singleton_self _, q, .completion, hq, rfl⟩
  | terminated =>
    simp only [List.forall_mem_append, List.forall_mem_map, List.forall_mem_singleton]
    refine ⟨⟨fun _ _ => Frame.follows_client _ _, ?_⟩, List.forall_mem_nil _⟩
    exact .of_subset (List.nil_subset _) (List.nil_subset _) (List.nil_subset _)
  | terminateReturn => exact ⟨List.forall_mem_nil _, List.forall_mem_nil _⟩

/-- A section of the core changes only a port that its frame uses. -/
theorem CoreStep.ports_same {γ : Type} {body : κ → Bool → List γ} {f : Frame κ γ}
    {o : Outcome (Core κ) (Frame κ γ)} (h : CoreStep body s.toCore f o) (hu : ¬ f.Uses s p) :
    o.shared.ports[p]? = s.ports[p]? := by
  have hport : ∀ q ∈ f.ports, q ≠ p := fun q hq he => hu (.port (he ▸ hq))
  have hcontext : ∀ owner ∈ f.contexts, ∀ context : PortContext,
      s.contexts[owner]? = some context → context.port ≠ p :=
    fun owner ho context hc he => hu (.context ho ⟨context, hc, he⟩)
  cases h with
  | finishOne | workerTake | dispatchTake | drainReady | batchEnd =>
    exact List.getElem?_set_ne (hport _ (List.mem_singleton_self _))
  | acceptInline hc | acceptQueued hc =>
    exact List.getElem?_set_ne (hcontext _ (List.mem_singleton_self _) _ hc)
  | terminateContext hc | cancelDrain hc =>
    exact List.getElem?_set_ne (hcontext _ List.mem_cons_self _ hc)
  | _ => rfl

/-- A section of the registry leaves the core as it is, and makes handles only of the queue that
its frame holds. -/
theorem registryStep_tables {f : Frame κ C.Frame} {o : Outcome (TaskQueues κ) (Frame κ C.Frame)}
    (h : registryStep C s f = some o) : o.shared.toCore = s.toCore ∧
      o.shared.portHandles = s.portHandles ∧ o.shared.processQueue = s.processQueue ∧
      (o.shared.queueHandles = s.queueHandles ∨
        ∃ q ∈ f.queues, o.shared.queueHandles = (s.queueHandles.create q).2) := by
  unfold registryStep at h
  split at h <;>
    simp only [Option.bind_eq_bind, Option.bind_eq_some_iff, Option.some.injEq,
      reduceCtorEq] at h
  · obtain ⟨q, hq, h⟩ := h
    split at h
    · cases h
    · split at h
      · cases h
        exact ⟨rfl, rfl, rfl, .inl rfl⟩
      · split at h
        · cases h
          exact ⟨rfl, rfl, rfl, .inl rfl⟩
        · cases h
          exact ⟨rfl, rfl, rfl, .inr ⟨_, List.mem_singleton_self _, rfl⟩⟩
  · subst h
    exact ⟨rfl, rfl, rfl, .inl rfl⟩
  · obtain ⟨q, hq, rfl⟩ := h
    exact ⟨rfl, rfl, rfl, .inl rfl⟩
  · obtain ⟨q, hq, rfl⟩ := h
    exact ⟨rfl, rfl, rfl, .inl rfl⟩
  · subst h
    exact ⟨rfl, rfl, rfl, .inl rfl⟩
  · subst h
    exact ⟨rfl, rfl, rfl, .inl rfl⟩

theorem RegistryStep.sameContexts {f : Frame κ C.Frame}
    {o : Outcome (TaskQueues κ) (Frame κ C.Frame)} (h : RegistryStep C s f o) :
    SameContexts s.queues o.shared.queues := by
  cases h with
  | notify hq ht => exact ht.2.1
  | notifyEnd hq => exact .set hq rfl rfl
  | _ => exact .refl _

/-- What the tables refer to after a section of the queue, they referred to before or its frame
has used. -/
theorem queueStep_refers {f : Frame κ C.Frame} {o : Outcome (TaskQueues κ) (Frame κ C.Frame)}
    (h : queueStep C s f = some o) (hn : s.Named) (hk : f.Known s) (ht : o.shared.Refers p) :
    s.Refers p ∨ f.Uses s p := by
  unfold queueStep at h
  split at h
  · rename_i hreg
    cases h
    obtain ⟨hcore, hports, hprocess, hqueues⟩ := registryStep_tables hreg
    have hl : s.toCore.Later o.shared.toCore := hcore ▸ .refl _
    have hs := (registryStep_inv hreg).sameContexts
    refine ht.back hl hs hn (fun handle hh => .inl (hports ▸ hh)) (fun handle q hh => ?_)
      (fun q hh => .inl (hprocess ▸ hh))
    rcases hqueues with hqueues | ⟨r, hr, hqueues⟩
    · exact .inl (hqueues ▸ hh)
    · rw [hqueues] at hh
      rcases get_create_cases hh with rfl | hh
      · exact .inr fun hq => .queue hr (hq.back hl hs hn (hk.queues _ hr))
      · exact .inl hh
  · obtain ⟨b, hb, rfl⟩ := Option.map_eq_some_iff.mp h
    exact TaskQueues.Refers.back (t := { s with toCore := b.shared }) (coreStep_inv hb).later
      (.refl _) hn (fun _ hh => .inl hh) (fun _ _ hh => .inl hh) (fun _ hh => .inl hh) ht

theorem queueStep_ports {f : Frame κ C.Frame} {o : Outcome (TaskQueues κ) (Frame κ C.Frame)}
    (h : queueStep C s f = some o) (hu : ¬ f.Uses s p) : o.shared.ports[p]? = s.ports[p]? := by
  unfold queueStep at h
  split at h
  · rename_i hreg
    cases h
    rw [(registryStep_tables hreg).1]
  · obtain ⟨b, hb, rfl⟩ := Option.map_eq_some_iff.mp h
    exact (coreStep_inv hb).ports_same hu

theorem queueStep_follows {f : Frame κ C.Frame} {o : Outcome (TaskQueues κ) (Frame κ C.Frame)}
    (h : queueStep C s f = some o) : ∀ g ∈ o.frames, f.Follows s g := by
  unfold queueStep at h
  split at h
  · rename_i hreg
    cases h
    exact (registryStep_inv hreg).follows
  · obtain ⟨b, hb, rfl⟩ := Option.map_eq_some_iff.mp h
    exact (coreStep_inv hb).follows

end Follows

/-! ## What the operations of the game refer to -/

section Operations
variable {κ : Type} {s t : TaskQueues κ} {p : ℕ}

/-- The operation is given the port, or a queue on it. -/
def Admin.Uses (s : TaskQueues κ) (p : ℕ) : Admin → Prop
  | .composite work completion => p = work ∨ p = completion
  | .createQueueHandle q => s.Serves q p
  | .createPortHandle q => p = q
  | .setProcessQueue queue => ∃ q, queue = some q ∧ s.Serves q p
  | _ => False

theorem composite_serves {work completion : ℕ} (h : s.composite work completion = some t)
    (hq : t.Serves s.queues.length p) : p = work ∨ p = completion := by
  simp only [TaskQueues.composite, Option.bind_eq_bind, Option.bind_eq_some_iff] at h
  obtain ⟨wp, hw, cp, hc, h⟩ := h
  cases h
  obtain ⟨queue, kind, hqueue, context, hcontext, rfl⟩ := hq
  simp only [List.getElem?_concat_length, Option.some.injEq] at hqueue
  subst hqueue
  cases kind <;> simp [Core.newContext, Core.setState, Core.setPort, Queue.context] at hcontext
  · exact .inl (by rw [← hcontext])
  · exact .inr (by rw [← hcontext])

theorem newQueue_serves {work completion : DispatchMode} (h : s.newQueue work completion = some t)
    (hq : t.Serves s.queues.length p) : s.ports.length ≤ p := by
  have hserves := composite_serves (s := { s with
    toCore := (s.toCore.newPort work).newPort completion }) h hq
  omega

theorem composite_tables {work completion : ℕ} (h : s.composite work completion = some t) :
    t.portHandles = s.portHandles ∧ t.queueHandles = s.queueHandles ∧
      t.processQueue = s.processQueue := by
  simp only [TaskQueues.composite, Option.bind_eq_bind, Option.bind_eq_some_iff] at h
  obtain ⟨wp, hw, cp, hc, h⟩ := h
  cases h
  exact ⟨rfl, rfl, rfl⟩

theorem newQueue_tables {work completion : DispatchMode} (h : s.newQueue work completion = some t) :
    t.portHandles = s.portHandles ∧ t.queueHandles = s.queueHandles ∧
      t.processQueue = s.processQueue := by
  have htables := composite_tables h
  exact htables

theorem composite_ports {work completion : ℕ} (h : s.composite work completion = some t)
    (hw : p ≠ work) (hc : p ≠ completion) : t.ports[p]? = s.ports[p]? := by
  simp only [TaskQueues.composite, Option.bind_eq_bind, Option.bind_eq_some_iff] at h
  obtain ⟨wp, hwp, cp, hcp, h⟩ := h
  cases h
  exact (List.getElem?_set_ne hc.symm).trans (List.getElem?_set_ne hw.symm)

theorem newQueue_ports {work completion : DispatchMode} (h : s.newQueue work completion = some t)
    (hp : p < s.ports.length) : t.ports[p]? = s.ports[p]? := by
  refine (composite_ports h (by omega) (by omega)).trans ?_
  show ((s.ports ++ [_]) ++ [_])[p]? = _
  rw [List.getElem?_append_left (by simp; omega), List.getElem?_append_left hp]

theorem defaultProcessQueue_sets {q : ℕ} (h : s.defaultProcessQueue = some (q, t)) :
    t.processQueue = some q := by
  unfold TaskQueues.defaultProcessQueue at h
  split at h
  · rename_i r hr
    cases h
    exact hr
  · simp only [Option.bind_eq_bind, Option.bind_eq_some_iff] at h
    obtain ⟨u, hu, h⟩ := h
    cases h
    rfl

/-- A process queue made on first use is on ports of its own. -/
theorem defaultProcessQueue_refers {q : ℕ} (h : s.defaultProcessQueue = some (q, t)) (hn : s.Named)
    (hp : p < s.ports.length) (ht : t.Refers p) : s.Refers p := by
  have hx := defaultProcessQueue_extends h
  unfold TaskQueues.defaultProcessQueue at h
  split at h
  · cases h
    exact ht
  · simp only [Option.bind_eq_bind, Option.bind_eq_some_iff] at h
    obtain ⟨u, hu, h⟩ := h
    cases h
    obtain ⟨hports, hqueues, -⟩ := newQueue_tables hu
    refine (ht.back (X := False) hx.1.later hx.2.1 hn (fun _ hh => .inl (hports ▸ hh))
      (fun _ _ hh => .inl (hqueues ▸ hh)) fun q hh => ?_).resolve_right id
    cases hh
    exact .inr fun hs => absurd (newQueue_serves hu hs) (Nat.not_le.mpr hp)

theorem getProcessQueueHandle_refers {handle : ℕ} (h : s.getProcessQueueHandle = some (handle, t))
    (hn : s.Named) (hp : p < s.ports.length) (ht : t.Refers p) : s.Refers p := by
  unfold TaskQueues.getProcessQueueHandle at h
  split at h
  · cases h
    exact ht
  · simp only [Option.bind_eq_bind, Option.bind_eq_some_iff] at h
    obtain ⟨⟨q, u⟩, hu, h⟩ := h
    cases h
    refine defaultProcessQueue_refers hu hn hp ?_
    cases ht with
    | portHandle hh => exact .portHandle hh
    | queueHandle hh hq =>
      rcases get_create_cases hh with rfl | hh
      · exact .processQueue (defaultProcessQueue_sets hu) hq
      · exact .queueHandle hh hq
    | processQueue hh hq => exact .processQueue hh hq

theorem admin_refers {a : Admin} (h : a.apply s = some t) (hn : s.Named) (hp : p < s.ports.length)
    (ht : t.Refers p) : s.Refers p ∨ a.Uses s p := by
  have hx := admin_extends h
  cases a with
  | newQueue work completion =>
    obtain ⟨hports, hqueues, hprocess⟩ := newQueue_tables h
    exact ht.back hx.1.later hx.2.1 hn (fun _ hh => .inl (hports ▸ hh))
      (fun _ _ hh => .inl (hqueues ▸ hh)) fun _ hh => .inl (hprocess ▸ hh)
  | composite work completion =>
    obtain ⟨hports, hqueues, hprocess⟩ := composite_tables h
    exact ht.back hx.1.later hx.2.1 hn (fun _ hh => .inl (hports ▸ hh))
      (fun _ _ hh => .inl (hqueues ▸ hh)) fun _ hh => .inl (hprocess ▸ hh)
  | createQueueHandle q =>
    cases h
    refine ht.back hx.1.later hx.2.1 hn (fun _ hh => .inl hh) (fun handle r hh => ?_)
      fun _ hh => .inl hh
    rcases get_create_cases hh with rfl | hh
    · exact .inr id
    · exact .inl hh
  | closeQueueHandle handle =>
    cases h
    refine ht.back hx.1.later hx.2.1 hn (fun _ hh => .inl hh) (fun other r hh => .inl ?_)
      fun _ hh => .inl hh
    change (s.queueHandles.close handle).get other = some r at hh
    by_cases ho : other = handle
    · subst ho
      rw [HandleTable.get_close] at hh
      cases hh
    · rwa [HandleTable.get_close_of_ne _ _ _ ho] at hh
  | createPortHandle q =>
    cases h
    refine ht.back hx.1.later hx.2.1 hn (fun handle hh => ?_) (fun _ _ hh => .inl hh)
      fun _ hh => .inl hh
    exact (get_create_cases hh).symm
  | registerMonitor i context =>
    simp only [Admin.apply, TaskQueues.registerMonitor, Option.bind_eq_bind,
      Option.bind_eq_some_iff] at h
    obtain ⟨q, hq, h⟩ := h
    split at h
    · cases h
    · cases h
      exact ht.back hx.1.later hx.2.1 hn (fun _ hh => .inl hh) (fun _ _ hh => .inl hh)
        fun _ hh => .inl hh
  | unregisterMonitor i token =>
    simp only [Admin.apply, TaskQueues.unregisterMonitor, Option.bind_eq_bind,
      Option.bind_eq_some_iff] at h
    obtain ⟨q, hq, h⟩ := h
    split at h
    · cases h
    · cases h
      exact ht.back hx.1.later hx.2.1 hn (fun _ hh => .inl hh) (fun _ _ hh => .inl hh)
        fun _ hh => .inl hh
  | setProcessQueue queue =>
    cases h
    cases queue with
    | none =>
      exact ht.back hx.1.later hx.2.1 hn (fun _ hh => .inl hh) (fun _ _ hh => .inl hh)
        fun _ hh => (by cases hh)
    | some q =>
      refine ht.back hx.1.later hx.2.1 hn (fun _ hh => .inl hh) (fun _ _ hh => .inl hh)
        fun r hh => .inr fun hs => ?_
      cases hh
      exact ⟨q, rfl, hs⟩
  | defaultProcessQueue =>
    obtain ⟨⟨q, u⟩, hu, rfl⟩ := Option.map_eq_some_iff.mp h
    exact .inl (defaultProcessQueue_refers hu hn hp ht)
  | processQueueHandle =>
    obtain ⟨⟨handle, u⟩, hu, rfl⟩ := Option.map_eq_some_iff.mp h
    exact .inl (getProcessQueueHandle_refers hu hn hp ht)

theorem defaultProcessQueue_ports {q : ℕ} (h : s.defaultProcessQueue = some (q, t))
    (hp : p < s.ports.length) : t.ports[p]? = s.ports[p]? := by
  unfold TaskQueues.defaultProcessQueue at h
  split at h
  · cases h
    rfl
  · simp only [Option.bind_eq_bind, Option.bind_eq_some_iff] at h
    obtain ⟨u, hu, h⟩ := h
    cases h
    have hports := newQueue_ports hu hp
    exact hports

theorem admin_ports {a : Admin} (h : a.apply s = some t) (hp : p < s.ports.length)
    (hu : ¬ a.Uses s p) : t.ports[p]? = s.ports[p]? := by
  cases a with
  | newQueue work completion => exact newQueue_ports h hp
  | composite work completion =>
    exact composite_ports h (fun he => hu (.inl he)) fun he => hu (.inr he)
  | createQueueHandle | closeQueueHandle | createPortHandle => cases h; rfl
  | registerMonitor i context =>
    simp only [Admin.apply, TaskQueues.registerMonitor, Option.bind_eq_bind,
      Option.bind_eq_some_iff] at h
    obtain ⟨q, hq, h⟩ := h
    split at h
    · cases h
    · cases h
      rfl
  | unregisterMonitor i token =>
    simp only [Admin.apply, TaskQueues.unregisterMonitor, Option.bind_eq_bind,
      Option.bind_eq_some_iff] at h
    obtain ⟨q, hq, h⟩ := h
    split at h
    · cases h
    · cases h
      rfl
  | setProcessQueue queue =>
    cases h
    cases queue <;> rfl
  | defaultProcessQueue =>
    obtain ⟨⟨q, u⟩, hu, rfl⟩ := Option.map_eq_some_iff.mp h
    exact defaultProcessQueue_ports hu hp
  | processQueueHandle =>
    obtain ⟨⟨handle, u⟩, hu, rfl⟩ := Option.map_eq_some_iff.mp h
    unfold TaskQueues.getProcessQueueHandle at hu
    split at hu
    · cases hu
      rfl
    · simp only [Option.bind_eq_bind, Option.bind_eq_some_iff] at hu
      obtain ⟨⟨q, v⟩, hv, hu⟩ := hu
      cases hu
      have hports := defaultProcessQueue_ports hv hp
      exact hports

/-- What is asked for next is given only what the tables refer to, and leaves any other port as it
is. -/
structure Grounded {γ : Type} (s t : TaskQueues κ) (calls : List (Instr κ γ)) : Prop where
  named : t.Named
  known : ∀ i ∈ calls, i.toFrame.Known t
  uses : ∀ i ∈ calls, ∀ p, i.toFrame.Uses t p → t.Refers p
  refers : ∀ p < s.ports.length, t.Refers p → s.Refers p
  ports : ∀ p < s.ports.length, ¬ s.Refers p → t.ports[p]? = s.ports[p]?

/-- What the caller runs with a value returned asks for nothing. -/
theorem grounded_rets {γ : Type} (gs : List γ) {i : Instr κ γ} (hi : i ∈ gs.map .frame) :
    i.toFrame.queues = [] ∧ i.toFrame.contexts = [] ∧ i.toFrame.ports = [] := by
  obtain ⟨g, -, rfl⟩ := List.mem_map.mp hi
  exact ⟨rfl, rfl, rfl⟩

theorem Grounded.of_quiet {γ : Type} {calls : List (Instr κ γ)} (hn : t.Named)
    (hc : ∀ i ∈ calls, i.toFrame.queues = [] ∧ i.toFrame.contexts = [] ∧ i.toFrame.ports = [])
    (hr : ∀ p < s.ports.length, t.Refers p → s.Refers p)
    (hp : ∀ p < s.ports.length, ¬ s.Refers p → t.ports[p]? = s.ports[p]?) :
    Grounded s t calls where
  named := hn
  known i hi := by
    obtain ⟨hqueues, hcontexts, -⟩ := hc i hi
    exact ⟨by simp [hcontexts], by simp [hqueues]⟩
  uses i hi p h := by
    obtain ⟨hqueues, hcontexts, hports⟩ := hc i hi
    cases h with
    | port h => simp [hports] at h
    | context h => simp [hcontexts] at h
    | queue h => simp [hqueues] at h
  refers := hr
  ports := hp

/-- A call that changes nothing and goes on with a queue that a handle names. -/
theorem Grounded.of_queue {γ : Type} {i : Instr κ γ} {q handle : ℕ} (hn : s.Named)
    (hq : s.queueHandles.get handle = some q)
    (hi : i.toFrame.queues = [q] ∧ i.toFrame.contexts = [] ∧ i.toFrame.ports = [] ∨
      i.toFrame.queues = [] ∧ i.toFrame.contexts = [] ∧ ∃ p, i.toFrame.ports = [p] ∧ s.Serves q p) :
    Grounded s s [i] where
  named := hn
  known j hj := by
    rw [List.mem_singleton.mp hj]
    rcases hi with ⟨hqueues, hcontexts, -⟩ | ⟨hqueues, hcontexts, -⟩
    · refine ⟨by simp [hcontexts], fun r hr => ?_⟩
      rw [hqueues, List.mem_singleton] at hr
      subst hr
      exact hn.handles handle r hq
    · exact ⟨by simp [hcontexts], by simp [hqueues]⟩
  uses j hj p h := by
    rw [List.mem_singleton.mp hj] at h
    rcases hi with ⟨hqueues, hcontexts, hports⟩ | ⟨hqueues, hcontexts, r, hports, hs⟩
    · cases h with
      | port h => simp [hports] at h
      | context h => simp [hcontexts] at h
      | queue h hs =>
        rw [hqueues, List.mem_singleton] at h
        subst h
        exact .queueHandle hq hs
    · cases h with
      | port h =>
        rw [hports, List.mem_singleton] at h
        subst h
        exact .queueHandle hq hs
      | context h => simp [hcontexts] at h
      | queue h => simp [hqueues] at h
  refers _ _ h := h
  ports _ _ _ := rfl

theorem Grounded.append {γ : Type} {xs ys : List (Instr κ γ)} (h1 : Grounded s t xs)
    (h2 : Grounded s t ys) : Grounded s t (xs ++ ys) where
  named := h1.named
  known i hi := (List.mem_append.mp hi).elim (h1.known i) (h2.known i)
  uses i hi := (List.mem_append.mp hi).elim (h1.uses i) (h2.uses i)
  refers := h1.refers
  ports := h1.ports

theorem Grounded.mono {γ : Type} {xs ys : List (Instr κ γ)} (h : Grounded s t xs) (hs : ys ⊆ xs) :
    Grounded s t ys where
  named := h.named
  known i hi := h.known i (hs hi)
  uses i hi := h.uses i (hs hi)
  refers := h.refers
  ports := h.ports

/-- A call after which the caller's own code goes on. -/
theorem Grounded.with_code {γ : Type} {xs ys : List (Instr κ γ)} (h : Grounded s t (xs ++ ys))
    (g : γ) : Grounded s t (xs ++ [.frame g] ++ ys) := by
  have hcode : Grounded s t [Instr.frame (κ := κ) g] :=
    .of_quiet h.named (fun i hi => grounded_rets [g] hi) h.refers h.ports
  refine (h.append hcode).mono fun i hi => ?_
  rcases List.mem_append.mp hi with hi | hi
  · rcases List.mem_append.mp hi with hi | hi
    · exact List.mem_append_left _ (List.mem_append_left _ hi)
    · exact List.mem_append_right _ hi
  · exact List.mem_append_left _ (List.mem_append_right _ hi)

theorem Grounded.rets {γ : Type} (hn : s.Named) (gs : List γ) :
    Grounded s s (gs.map (Instr.frame (κ := κ))) :=
  .of_quiet hn (fun _ hi => grounded_rets gs hi) (fun _ _ h => h) fun _ _ _ => rfl

/-- A call that runs one operation, on what the tables refer to. -/
theorem Grounded.of_admin {γ : Type} {a : Admin} (gs : List γ)
    (h : Admin.applyAll s [a] = some t) (hn : s.Named) (hnt : t.Named)
    (ha : ∀ p, a.Uses s p → s.Refers p) : Grounded s t (gs.map (Instr.frame (κ := κ))) := by
  obtain ⟨u, hu, hr⟩ := Option.bind_eq_some_iff.mp h
  cases hr
  refine .of_quiet hnt (fun _ hi => grounded_rets gs hi) (fun p hp ht => ?_) fun p hp hr => ?_
  · exact (admin_refers hu hn hp ht).elim id (ha p)
  · exact admin_ports hu hp fun he => hr (ha p he)

/-- A call that makes a queue and a handle on it. -/
theorem Grounded.of_created {γ : Type} {a : Admin} (gs : List γ)
    (h : Admin.applyAll s [a, .createQueueHandle s.queues.length] = some t) (hn : s.Named)
    (hnt : t.Named) (ha : ∀ p, a.Uses s p → s.Refers p)
    (hs : ∀ u, a.apply s = some u → ∀ p < s.ports.length, u.Serves s.queues.length p →
      s.Refers p) : Grounded s t (gs.map (Instr.frame (κ := κ))) := by
  obtain ⟨u, hu, hr⟩ := Option.bind_eq_some_iff.mp h
  cases hr
  refine .of_quiet hnt (fun _ hi => grounded_rets gs hi) (fun p hp ht => ?_) fun p hp hr => ?_
  · have hback : u.Refers p → s.Refers p := fun hr => (admin_refers hu hn hp hr).elim id (ha p)
    cases ht with
    | portHandle hh => exact hback (.portHandle hh)
    | queueHandle hh hq =>
      rcases get_create_cases hh with rfl | hh
      · exact hs u hu p hp hq
      · exact hback (.queueHandle hh hq)
    | processQueue hh hq => exact hback (.processQueue hh hq)
  · have hports := admin_ports hu hp fun he => hr (ha p he)
    exact hports

theorem Core.Later.ports_le {s t : Core κ} (h : s.Later t) : s.ports.length ≤ t.ports.length := by
  by_contra hlt
  obtain ⟨b, hb, -⟩ := h.ports _ _ (List.getElem?_eq_getElem (Nat.not_le.mp hlt))
  rw [List.getElem?_eq_none le_rfl] at hb
  cases hb

/-- One operation after the other. -/
theorem Grounded.after {γ : Type} {u : TaskQueues κ} {calls : List (Instr κ γ)}
    (h : Grounded s u ([] : List (Instr κ γ))) (h' : Grounded u t calls)
    (hports : s.ports.length ≤ u.ports.length) : Grounded s t calls where
  named := h'.named
  known := h'.known
  uses := h'.uses
  refers p hp hr := h.refers p hp (h'.refers p (hp.trans_le hports) hr)
  ports p hp hr := (h'.ports p (hp.trans_le hports) fun hu => hr (h.refers p hp hu)).trans
    (h.ports p hp hr)

theorem perform_grounded {γ : Type} {ret : ℕ → List γ} {seen : List γ} (c : QueueCall κ γ)
    (hn : s.Named) (h : Admin.applyAll s (c.perform s ret seen).admin = some t) :
    Grounded s t ((c.perform s ret seen).run ++ (c.perform s ret seen).spawn.flatten) := by
  have hnt := perform_named c h hn
  revert h
  have hrets : ∀ gs : List γ, Admin.applyAll s [] = some t →
      Grounded s t (gs.map (Instr.frame (κ := κ)) ++ [].flatten) := by
    intro gs h
    cases h
    rw [List.flatten_nil, List.append_nil]
    exact .rets hn gs
  have hnone : Admin.applyAll s [] = some t → Grounded s t ([] ++ [].flatten : List (Instr κ γ)) :=
    hrets []
  cases c with
  | create work completion out =>
    simp only [QueueCall.perform]
    split
    · split
      · intro h
        rw [List.flatten_nil, List.append_nil]
        exact .of_created _ h hn hnt (fun p hp => hp.elim) fun u hu p hp hs =>
          absurd (newQueue_serves hu hs) (Nat.not_le.mpr hp)
      · exact hrets _
    · exact hrets _
  | createComposite work completion out =>
    simp only [QueueCall.perform]
    split
    · split
      · rename_i w k hw hk
        intro h
        have hrefers : ∀ p, p = w ∨ p = k → s.Refers p := by
          rintro p (rfl | rfl)
          · exact .portHandle hw
          · exact .portHandle hk
        rw [List.flatten_nil, List.append_nil]
        exact .of_created _ h hn hnt hrefers fun u hu p hp hs => hrefers p (composite_serves hu hs)
      · exact hrets _
    · exact hrets _
  | getPort queue port out =>
    simp only [QueueCall.perform]
    split
    · split
      · rename_i q kind hq hk
        split
        · rename_i r hr
          intro h
          rw [List.flatten_nil, List.append_nil]
          refine .of_admin _ h hn hnt fun p hp => ?_
          have he : p = r := hp
          rw [he]
          exact .queueHandle hq (portOf_serves hr)
        · exact hnone
      · exact hrets _
    · exact hrets _
  | duplicateHandle queueHandle out =>
    simp only [QueueCall.perform]
    split
    · split
      · rename_i q hq
        intro h
        rw [List.flatten_nil, List.append_nil]
        exact .of_admin _ h hn hnt fun p hp => .queueHandle hq hp
      · exact hrets _
    · exact hrets _
  | closeHandle queue =>
    intro h
    exact .of_admin [] h hn hnt fun p hp => hp.elim
  | dispatch queue port timeoutInMs =>
    simp only [QueueCall.perform]
    split
    · rename_i q kind hq hk
      split
      · rename_i r hr
        intro h
        cases h
        exact .of_queue hn hq (.inr ⟨rfl, rfl, r, rfl, portOf_serves hr⟩)
      · exact hnone
    · exact hrets _
  | submitDelayedCallback queue port delayMs callback =>
    simp only [QueueCall.perform]
    split
    · exact hrets _
    · split
      · rename_i q kind hq hk
        intro h
        cases h
        exact .of_queue hn hq (.inl ⟨rfl, rfl, rfl⟩)
      · exact hrets _
  | terminate queue wait terminated =>
    simp only [QueueCall.perform]
    split
    · exact hrets _
    · rename_i q hq
      split
      · intro h
        cases h
        exact .of_queue hn hq (.inl ⟨rfl, rfl, rfl⟩)
      · intro h
        cases h
        exact (Grounded.rets hn _).append (.of_queue hn hq (.inl ⟨rfl, rfl, rfl⟩))
  | registerMonitor queue callbackContext callback out =>
    simp only [QueueCall.perform]
    split
    · split
      · intro h
        rw [List.flatten_nil, List.append_nil]
        exact .of_admin _ h hn hnt fun p hp => hp.elim
      · exact hrets _
    · exact hrets _
  | unregisterMonitor queue token =>
    simp only [QueueCall.perform]
    split
    · intro h
      exact .of_admin [] h hn hnt fun p hp => hp.elim
    · exact hnone
  | getCurrentProcessTaskQueue out =>
    simp only [QueueCall.perform]
    split
    · exact hrets _
    · exact hrets _
  | setCurrentProcessTaskQueue queue =>
    intro h
    refine .of_admin [] h hn hnt fun p hp => ?_
    obtain ⟨q, hq, hs⟩ := hp
    exact .queueHandle hq hs

theorem createProcessQueueHandle_grounded {γ : Type} (gs : List γ) (hn : s.Named)
    (h : Admin.applyAll s
      [.defaultProcessQueue, .createQueueHandle (s.processQueue.getD s.queues.length)] = some t) :
    Grounded s t (gs.map (Instr.frame (κ := κ))) := by
  have hnt := createProcessQueueHandle_named h hn
  obtain ⟨u, hu, hr⟩ := Option.bind_eq_some_iff.mp h
  obtain ⟨⟨q, v⟩, hv, rfl⟩ := Option.map_eq_some_iff.mp hu
  have hmade : Grounded s v ([] : List (Instr κ γ)) :=
    .of_admin [] (Option.bind_eq_some_iff.mpr ⟨v, hu, rfl⟩) hn (hn.defaultProcessQueue hv).1
      fun p hp => hp.elim
  refine hmade.after (.of_admin gs hr hmade.named hnt fun p hp => ?_)
    (defaultProcessQueue_extends hv).1.later.ports_le
  have hs : v.Serves (s.processQueue.getD s.queues.length) p := hp
  rw [defaultProcessQueue_queue hv] at hs
  exact .processQueue (defaultProcessQueue_sets hv) hs

end Operations
end XGameRuntime.TaskQueue
