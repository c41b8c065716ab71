import MeteredArrays.Proofs.Energy.Cost
import MeteredArrays.Proofs.Invocation.Outcome

namespace MeteredArrays.Invocation

open Heap

variable {σ α : Type}

/-- References and roots stay on the heap, and the index is the inverse of the slots. -/
structure WellFormed (invocation : Invocation σ) : Prop where
  heap : invocation.heap.WellFormed
  roots : ∀ root ∈ invocation.roots, root < invocation.heap.size

variable [Storage σ] {allowed : Link → Prop}

/-- What the operations of a run do to an invocation, apart from halting it. -/
structure Advances (allowed : Link → Prop) (before after : Invocation σ) : Prop where
  workspace : before.workspace.Advances allowed after.workspace
  roots : ∀ root ∈ after.roots, root ∈ before.roots ∨ root < after.heap.size

namespace Advances

theorem refl (invocation : Invocation σ) : Advances allowed invocation invocation :=
  ⟨.refl _, fun _ member => Or.inl member⟩

theorem trans {first second third : Invocation σ} (one : Advances allowed first second)
    (two : Advances allowed second third) : Advances allowed first third := by
  refine ⟨one.workspace.trans two.workspace, fun root member => ?_⟩
  rcases two.roots root member with member | inside
  · rcases one.roots root member with member | inside
    · exact Or.inl member
    · exact Or.inr (Nat.lt_of_lt_of_le inside two.workspace.changes.size_le)
  · exact Or.inr inside

theorem of_workspace {invocation : Invocation σ} {workspace : Workspace σ}
    (advances : invocation.workspace.Advances allowed workspace) :
    Advances allowed invocation { invocation with workspace } :=
  ⟨advances, fun _ member => Or.inl member⟩

theorem wellFormed {before after : Invocation σ} (advances : Advances allowed before after)
    (wf : before.WellFormed) : after.WellFormed := by
  refine ⟨advances.workspace.changes.wellFormed wf.heap, fun root member => ?_⟩
  rcases advances.roots root member with member | inside
  · exact Nat.lt_of_lt_of_le (wf.roots root member) advances.workspace.changes.size_le
  · exact inside

end Advances

def Explained (allowed : Link → Prop) (invocation : Invocation σ) (fault : Fault) : Prop :=
  ∀ why, fault = .storageCorruption why →
    (∃ id, invocation.heap.Unreadable (Storage.read invocation.workspace.storage) allowed id fault) ∨
      ∃ link, allowed link ∧ Clash allowed [link] fault

theorem explained_of_other {fault : Fault} (other : ∀ why, fault ≠ .storageCorruption why) (invocation : Invocation σ) :
    Explained allowed invocation fault :=
  fun why same => absurd same (other why)

structure Ready (allowed : Link → Prop) (invocation : Invocation σ) : Prop where
  wellFormed : invocation.WellFormed
  allows : invocation.heap.Allows allowed

variable {before after last : Invocation σ} {call : Call} {answer : Answer} {fault : Fault}

theorem Advances.of_peers (peers : Peers before after) : Advances allowed before after := by
  have same : before.workspace.heap = after.workspace.heap := peers.heap
  exact ⟨⟨peers.storage.symm, same ▸ .refl⟩, fun root member => Or.inl (peers.roots ▸ member)⟩

theorem advances_announce (event : Event) (invocation : Invocation σ) :
    Advances allowed invocation (invocation.announce event) :=
  .of_peers ⟨rfl, rfl, rfl, rfl⟩

theorem advances_halt (fault : Fault) (invocation : Invocation σ) :
    Advances allowed invocation (invocation.halt fault) :=
  ⟨⟨rfl, .refl⟩, fun _ member => Or.inl member⟩

theorem advances_withHeap {heap : Heap}
    (changes : Changes (Storage.read before.workspace.storage) allowed before.heap heap) :
    Advances allowed before (before.withHeap heap) :=
  .of_workspace ⟨rfl, changes⟩

theorem advances_withArray {contents : Contents ArrayId} (within : contents.Within before.heap.size)
    (event : ArrayId → Event) : Advances allowed before (before.withArray contents event) :=
  (advances_withHeap (.single (.fresh contents within))).trans (advances_announce _ _)

theorem advances_withTouched (id : ArrayId) (invocation : Invocation σ) :
    Advances allowed invocation (invocation.withTouched id) :=
  advances_withHeap (.single (.touched id))

theorem update_touched_congr {heap : Heap} {id : ArrayId} {current : Contents ArrayId}
    (held : heap.held? id = some current) (change : Contents ArrayId → Contents ArrayId) :
    (heap.update id .touch).update id (.mapContents change) =
      (heap.update id .touch).update id (.mapContents fun _ => change current) := by
  obtain ⟨array, here, inMemory⟩ := held?_eq_some.mp held
  apply update_congr
  intro touched there
  cases (arrays_update_self here).symm.trans there
  cases array <;> cases inMemory <;> rfl

theorem advances_withRewritten {id : ArrayId} {current : Contents ArrayId}
    {change : Contents ArrayId → Contents ArrayId} (held : before.heap.held? id = some current)
    (kind : (change current).kind = current.kind) (within : (change current).Within before.heap.size) :
    Advances allowed before (before.withRewritten id change) := by
  obtain ⟨array, here, inMemory⟩ := held?_eq_some.mp held
  have touched : (before.heap.update id .touch).arrays[id]? = some array.touch := arrays_update_self here
  have now : array.touch.contents? = some current := (LiveArray.contents?_touch array).trans inMemory
  rw [withRewritten, update_touched_congr held]
  refine advances_withHeap (.tail (.single (.touched id)) (.replaced id _ current _ touched ?_ now kind ?_))
  · rw [LiveArray.isDirty_touch, LiveArray.isMaterialized, inMemory]
    rfl
  · rw [size_update]
    exact within

theorem within_new (length : Int32) (kind : Kind) (size : Nat) :
    (Contents.new kind length.toNatClampNeg).Within size := by
  refine ⟨?_, fun target member => by rw [Contents.targets_new] at member; cases member⟩
  rw [Contents.length_new]
  have bound := length.toInt_lt
  have same : length.toNatClampNeg = length.toInt.toNat := rfl
  simp only [Record.maxLength]
  omega

theorem advances_of_opens (ready : Ready allowed before) {id : ArrayId} {contents : Contents ArrayId}
    {opened : Workspace σ}
    (discloses : before.heap.Discloses (Storage.read before.workspace.storage) allowed id)
    (opens : before.workspace.Opens id contents opened) : Advances allowed before (before.withWorkspace opened) :=
  .of_workspace ((Workspace.materialize_ends ready.wellFormed.heap ready.allows discloses).ok opens.read).1

theorem Succeeds.advances (succeeds : Succeeds before call answer after) (ready : Ready allowed before)
    (discloses : ∀ id, before.heap.Discloses (Storage.read before.workspace.storage) allowed id)
    (permitted : ∀ slot kind, call = .load slot kind → allowed ⟨kind, slot⟩) :
    Advances allowed before after := by
  have wf := ready.wellFormed
  cases succeeds with
  | create pays nonneg =>
    exact (Advances.of_peers ((peers_pay _ _).ok pays)).trans (advances_withArray (within_new _ _ _) _)
  | load resolves =>
    have resolved := resolve_ends (Storage.read before.workspace.storage) @wf.heap.indexed ready.allows
      (permitted _ _ rfl)
    exact (advances_withHeap (resolved.ok resolves).1.changes).trans (advances_announce _ _)
  | look opens shown => exact advances_of_opens ready (discloses _) opens
  | @set id index value contents opened checked opens fits =>
    have advances := advances_of_opens ready (discloses _) opens
    have within := (advances.wellFormed wf).heap.within_held? opens.held
    refine advances.trans (advances_withRewritten opens.held (Contents.kind_put _ _ _) ⟨?_, ?_⟩)
    · rw [Contents.length_put]
      exact within.short
    · intro target member
      rcases Contents.targets_put _ _ _ member with old | new
      · exact within.inside target old
      · refine Nat.lt_of_lt_of_le (checked.inside target ?_) advances.workspace.changes.size_le
        rw [Call.required, new]
        exact List.mem_singleton_self target
  | replace checked held kind length =>
    have short := (wf.heap.within_held? held).short
    rw [length] at short
    exact advances_withRewritten held kind.symm
      ⟨short, fun target member => checked.inside target (List.mem_cons_of_mem _ member)⟩
  | clone opens short pays =>
    have advances := advances_of_opens ready (discloses _) opens
    have paid := (peers_pay _ _).ok pays
    have within := (advances.wellFormed wf).heap.within_held? opens.held
    rw [paid.heap] at within
    exact advances.trans ((Advances.of_peers paid).trans (advances_withArray within _))
  | addRoot checked =>
    refine ⟨.refl _, fun root member => ?_⟩
    rcases Array.mem_push.mp member with member | rfl
    · exact Or.inl member
    · exact Or.inr (checked.inside _ (List.mem_singleton_self _))

omit [Storage σ] in
theorem pay_fault (operation : Metered) (invocation : Invocation σ) :
    Ends (pay operation invocation) (fun _ _ => True)
      (fun fault _ => fault = .outOfEnergy ∨
        fault = .arithmeticOverflow ∧ UInt64.size ≤ operation.exact invocation.meter.schedule) := by
  simp only [pay]
  cases charged : invocation.meter.record operation with
  | ok after => trivial
  | error fault => exact Meter.of_record_error charged

theorem pay_explained {operation : Metered} {paying : Invocation σ}
    (refused : pay operation paying = .error fault last) (invocation : Invocation σ) :
    Explained allowed invocation fault := by
  rcases (pay_fault operation paying).error refused with rfl | ⟨rfl, _⟩ <;>
    exact explained_of_other (by simp) invocation

theorem Rejects.explained (rejects : Rejects before call fault) (ready : Ready allowed before)
    (permitted : ∀ slot kind, call = .load slot kind → allowed ⟨kind, slot⟩) : Explained allowed before fault := by
  cases rejects with
  | clash clashes =>
    have allowed := permitted _ _ rfl
    have resolved := resolve_ends (Storage.read before.workspace.storage) @ready.wellFormed.heap.indexed ready.allows
      allowed
    exact fun _ _ => Or.inr ⟨_, allowed, (resolved.error clashes).2⟩
  | absent | negativeIndex | unmaterialized | differs => exact explained_of_other (by simp) before

theorem Fails.advances (fails : Fails before call fault last) (ready : Ready allowed before)
    (discloses : ∀ id, before.heap.Discloses (Storage.read before.workspace.storage) allowed id)
    (permitted : ∀ slot kind, call = .load slot kind → allowed ⟨kind, slot⟩) :
    Advances allowed before last ∧ Explained allowed before fault := by
  cases fails with
  | early rejects => exact ⟨.refl _, rejects.explained ready permitted⟩
  | @unread _ id _ _ subject checked failed =>
    have reads := Workspace.materialize_ends ready.wellFormed.heap ready.allows (discloses id)
    obtain ⟨advances, unreadable⟩ := reads.error failed
    exact ⟨.of_workspace advances, fun _ _ => Or.inl ⟨id, unreadable⟩⟩
  | look opens balks =>
    refine ⟨advances_of_opens ready (discloses _) opens, ?_⟩
    cases balks <;> exact explained_of_other (by simp) before
  | refused checked opens refused =>
    refine ⟨(advances_of_opens ready (discloses _) opens).trans (advances_withTouched _ _), ?_⟩
    rcases Contents.fault_of_refusal? refused with rfl | rfl <;> exact explained_of_other (by simp) before
  | unpaidCreation refused =>
    exact ⟨.of_peers ((peers_pay _ _).error refused), pay_explained refused before⟩
  | negativeLength pays negative =>
    exact ⟨.of_peers ((peers_pay _ _).ok pays), explained_of_other (by simp) before⟩
  | unpaidCopy opens short refused =>
    refine ⟨(advances_of_opens ready (discloses _) opens).trans ?_, pay_explained refused before⟩
    exact .of_peers ((peers_pay _ _).error refused)

end MeteredArrays.Invocation
