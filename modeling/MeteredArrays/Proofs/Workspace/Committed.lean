import MeteredArrays.Proofs.Workspace.Commit
import MeteredArrays.Storage.Memory

namespace MeteredArrays

namespace Heap

variable {heap : Heap} {roots : List ArrayId}

/-- All arrays that contents in memory lead to from `roots` have slots, and none was changed since it was read or
    written. -/
def Committed (heap : Heap) (roots : List ArrayId) : Prop :=
  ∀ id, heap.Reaches roots id →
    ∃ array, heap.arrays[id]? = some array ∧ array.isBound = true ∧ array.isDirty = false

namespace Committed

theorem inside (committed : heap.Committed roots) {id : ArrayId} (reaches : heap.Reaches roots id) :
    id < heap.size := by
  obtain ⟨array, here, _⟩ := committed id reaches
  exact lt_size here

theorem tour (committed : heap.Committed roots) : (heap.walk roots).Complete heap roots :=
  walk_complete_of_fault? (walk_fault?_eq_none_iff.mpr committed.inside)

theorem unbound (committed : heap.Committed roots) : heap.unbound roots = [] := by
  apply List.filter_eq_nil_iff.mpr
  intro id toured fresh
  obtain ⟨array, here, bound, _⟩ := committed id ((committed.tour.mem_iff id).mp toured).1
  obtain ⟨array', there, unbound⟩ := isFresh_iff_isBound.mp fresh
  cases here.symm.trans there
  cases bound.symm.trans unbound

theorem pending (committed : heap.Committed roots) : heap.pending roots = [] := by
  apply List.filter_eq_nil_iff.mpr
  intro id toured needs
  obtain ⟨array, here, bound, clean⟩ := committed id ((committed.tour.mem_iff id).mp toured).1
  obtain ⟨array', there, unsaved⟩ := needsWriting_iff.mp needs
  cases here.symm.trans there
  rcases unsaved with unbound | dirty
  · cases bound.symm.trans unbound
  · cases clean.symm.trans dirty

end Committed

end Heap

namespace Workspace

open Heap

variable {σ : Type} [Storage σ] {before after : Workspace σ} {roots : List ArrayId} {persisted : Persisted}

omit [Storage σ] in
theorem query_eq_ok {α : Type} {question : Heap → Except Fault α} {answer : α} :
    query question before = .ok answer after ↔ question before.heap = .ok answer ∧ before = after := by
  unfold query
  cases question before.heap <;> simp

theorem persist_committed (committed : before.heap.Committed roots) {slots : List Slot}
    (named : roots.mapM (fun root => Link.slot <$> before.heap.link root) = .ok slots) :
    persist roots before = .ok ⟨slots, 0⟩ before := by
  obtain ⟨heap, storage, journal⟩ := before
  have tour : (heap.walk roots).Complete heap roots := committed.tour
  have unbound : (heap.walk roots).order.filter heap.isFresh = [] := committed.unbound
  have pending : (heap.walk roots).order.filter heap.needsWriting = [] := committed.pending
  have assigned : (heap.walk roots).order.forM assignSlot (⟨heap, storage, journal⟩ : Workspace σ) =
      .ok () ⟨heap, storage, journal⟩ := by
    have inside : ∀ id ∈ (heap.walk roots).order, id < heap.size :=
      fun id toured => committed.inside ((tour.mem_iff id).mp toured).1
    rw [assignSlots_eq _ tour.nodup heap inside, unbound]
    rfl
  have answered : query (fun heap => roots.mapM fun root => Link.slot <$> heap.link root)
      (⟨heap, storage, journal⟩ : Workspace σ) = .ok slots ⟨heap, storage, journal⟩ := query_eq_ok.mpr ⟨named, rfl⟩
  rw [persist_eq_walk]
  refine estate_bind_eq_ok.mpr ⟨(), _, assigned, ?_⟩
  simp only [tour.fault, pending]
  exact estate_bind_eq_ok.mpr ⟨(), _, rfl, estate_bind_eq_ok.mpr ⟨slots, _, answered, rfl⟩⟩

theorem save_heap {id : ArrayId} (saved : save id before = .ok () after) :
    after.heap = before.heap.update id .clean := by
  have opened := saved
  obtain ⟨write, _, found, _⟩ := estate_bind_eq_ok.mp opened
  obtain ⟨heap, storage, journal⟩ := before
  rw [save_eq (query_eq_ok.mp found).1] at saved
  cases written : Storage.write write.1 write.2 storage with
  | error fault storage =>
    rw [written] at saved
    cases saved
  | ok _ storage =>
    rw [written] at saved
    cases saved
    rfl

theorem saves_heap {ids : List ArrayId} (saved : ids.forM save before = .ok () after) :
    after.heap = cleanAll ids before.heap := by
  induction ids generalizing before with
  | nil =>
    cases saved
    rfl
  | cons id ids ih =>
    obtain ⟨_, middle, here, rest⟩ := estate_bind_eq_ok.mp saved
    rw [ih rest, save_heap here, cleanAll]

theorem persist_ok (done : persist roots before = .ok persisted after) :
    (before.heap.walk roots).Complete before.heap roots ∧
      after.heap = cleanAll (before.heap.pending roots) (before.assigned roots) ∧
      roots.mapM (fun root => Link.slot <$> after.heap.link root) = .ok persisted.roots := by
  rw [persist_eq_walk] at done
  obtain ⟨_, middle, assigned, done⟩ := estate_bind_eq_ok.mp done
  obtain ⟨heap, storage, journal⟩ := before
  -- A fault of the walk shows only after the slots are given, but then the commit fails.
  cases ending : (heap.walk roots).fault? with
  | some fault =>
    rw [ending] at done
    cases done
  | none =>
    rw [ending] at done
    have tour := walk_complete_of_fault? ending
    have inside : ∀ id ∈ (heap.walk roots).order, id < heap.size :=
      fun id toured => by
        obtain ⟨array, _, here, _⟩ := ((tour.mem_iff id).mp toured).2
        exact lt_size here
    rw [assignSlots_eq _ tour.nodup heap inside] at assigned
    cases assigned
    obtain ⟨_, middle, saved, done⟩ := estate_bind_eq_ok.mp done
    obtain ⟨slots, _, answered, done⟩ := estate_bind_eq_ok.mp done
    obtain ⟨named, rfl⟩ := query_eq_ok.mp answered
    cases done
    exact ⟨tour, saves_heap saved, named⟩

theorem committed_of_persist (done : persist roots before = .ok persisted after) : after.heap.Committed roots := by
  obtain ⟨tour, cleaned, _⟩ := persist_ok done
  have targets : after.heap.targets = before.heap.targets := by
    funext id
    rw [Heap.targets, cleaned, contents?_cleanAll, assigned, contents?_bindAll, Heap.targets]
  intro id reaches
  rw [reaches_congr targets] at reaches
  obtain ⟨array, here⟩ := exists_of_lt (walk_fault?_eq_none_iff.mp tour.fault reaches)
  cases held : array.contents? with
  | none =>
    -- An array that is only named has a slot, gets no other, and cannot have been changed.
    obtain ⟨kind, slot, rfl⟩ := LiveArray.eq_named_of_contents? held
    have ungranted : id ∉ (before.grants roots).map Prod.fst := by
      intro listed
      obtain ⟨⟨_, slot'⟩, granted, rfl⟩ := List.mem_map.mp listed
      obtain ⟨contents, dirty, fresh⟩ := fresh_of_granted granted
      cases here.symm.trans fresh
    refine ⟨.named kind slot, ?_, rfl, rfl⟩
    rw [cleaned, arrays_cleanAll, assigned, arrays_bindAll_of_not_mem ungranted, here]
    split <;> rfl
  | some contents =>
    obtain ⟨slot, now, _⟩ := assigned_visited tour reaches here held
    refine ⟨_, by rw [cleaned]; exact cleanAll_loaded now _, rfl, ?_⟩
    by_cases written : id ∈ before.heap.pending roots
    · exact if_pos written
    · by_contra changed
      rw [if_neg written] at changed
      have needs := needsWriting_iff.mpr ⟨array, here, Or.inr (eq_true_of_ne_false changed)⟩
      have toured : id ∈ before.heap.toured roots := (tour.mem_iff id).mpr ⟨reaches, array, contents, here, held⟩
      exact written (List.mem_filter.mpr ⟨toured, needs⟩)

/-- A second commit of the same roots finds nothing to do. It answers with the same slots and writes nothing, and all is
    as it was, the journal too: storage was asked for no slot and for no write. -/
theorem persist_again_idle (done : persist roots before = .ok persisted after) :
    after.heap.Committed roots ∧ persist roots after = .ok ⟨persisted.roots, 0⟩ after := by
  have committed := committed_of_persist done
  obtain ⟨_, _, named⟩ := persist_ok done
  exact ⟨committed, persist_committed committed named⟩

def mixed : Workspace Memory where
  heap := ((((empty.insert (.fresh (.references #[some 1, none, some 0, some 2]) false)).2.insert
    (.loaded ⟨5⟩ (.references #[some 0, some 3]) true)).2.insert
    (.loaded ⟨6⟩ (.scalars .int #[5]) false)).2.insert (.named (.primitive .int) ⟨7⟩)).2
  storage := ((Memory.empty.insert ⟨5⟩ (.ofContents (.references #[none, none]))).insert
    ⟨6⟩ (.ofContents (.scalars .int #[5]))).insert ⟨7⟩ (.ofContents (.scalars .int #[9]))
  journal := #[]

theorem mixed_again_idle : ∃ after, persist [0, 2, 0] mixed = .ok ⟨[⟨0⟩, ⟨6⟩, ⟨0⟩], 2⟩ after ∧
    after.heap.Committed [0, 2, 0] ∧ persist [0, 2, 0] after = .ok ⟨[⟨0⟩, ⟨6⟩, ⟨0⟩], 0⟩ after := by
  have ran : Ends (persist [0, 2, 0] mixed) (fun persisted _ => persisted = ⟨[⟨0⟩, ⟨6⟩, ⟨0⟩], 2⟩)
      fun _ _ => False := by decide +kernel
  obtain ⟨_, after, done, rfl⟩ := ran.exists_ok fun _ _ => not_false
  exact ⟨after, done, persist_again_idle done⟩

end Workspace

end MeteredArrays
