import MeteredArrays.Proofs.Heap.Change
import MeteredArrays.Proofs.Workspace.Commit

namespace MeteredArrays

namespace Heap

variable {heap heap' : Heap} {ids : List ArrayId} {writes : List (Slot × Record)} {read read' : Slot → Option Record}
  {id : ArrayId} {slot : Slot} {contents : Contents ArrayId} {dirty : Bool}

structure Unshared (heap : Heap) : Prop where
  distinct : ∀ {id id' : ArrayId} {slot : Slot} {contents contents' : Contents ArrayId} {dirty dirty' : Bool},
    heap.arrays[id]? = some (.loaded slot contents dirty) →
    heap.arrays[id']? = some (.loaded slot contents' dirty') → id = id'

theorem WellFormed.unshared (wf : heap.WellFormed) : heap.Unshared where
  distinct here there := wf.slot_unique here rfl there rfl

theorem Unshared.nodup_slots (unshared : heap.Unshared) (nodup : ids.Nodup)
    (all : List.Forall₂ (fun id write => heap.record id = .ok write) ids writes) :
    (writes.map Prod.fst).Nodup := by
  apply forall₂_nodup_map all nodup
  rintro id id' ⟨slot, record⟩ ⟨slot', record'⟩ found found' same
  obtain ⟨contents, dirty, links, here, _⟩ := record_eq_ok.mp found
  obtain ⟨contents', dirty', links', there, _⟩ := record_eq_ok.mp found'
  cases same
  exact unshared.distinct here there

theorem saved_of_written (slots : (writes.map Prod.fst).Nodup)
    (all : List.Forall₂ (fun id write => heap.record id = .ok write) ids writes) (member : id ∈ ids)
    (here : heap.arrays[id]? = some (.loaded slot contents dirty)) (short : contents.length ≤ Record.maxLength) :
    heap.Saved (overwrite writes read) slot contents := by
  obtain ⟨⟨slot', record⟩, listed, found⟩ := forall₂_exists_of_mem all member
  obtain ⟨contents', dirty', links, there, resolved, rfl⟩ := record_eq_ok.mp found
  cases here.symm.trans there
  have rel := Contents.traverse_eq_ok.mp resolved
  refine ⟨Record.ofContents links, links, overwrite_of_mem slots listed, ?_, resolved⟩
  rw [← rel.kind_eq]
  exact Record.decode_ofContents links (by rw [rel.length_eq]; exact short)

theorem Unshared.read_of_unwritten (unshared : heap.Unshared)
    (all : List.Forall₂ (fun id write => heap.record id = .ok write) ids writes) (absent : id ∉ ids)
    (here : heap.arrays[id]? = some (.loaded slot contents dirty)) : overwrite writes read slot = read slot := by
  apply overwrite_of_not_mem
  intro member
  obtain ⟨⟨_, record⟩, listed, rfl⟩ := List.mem_map.mp member
  obtain ⟨other, written, found⟩ := forall₂_exists_of_mem (List.Forall₂.flip (R := flip _) all) listed
  obtain ⟨_, _, _, there, _⟩ := record_eq_ok.mp found
  exact absent (unshared.distinct there here ▸ written)

theorem saved_congr (links : heap'.link = heap.link) (same : read' slot = read slot) :
    heap'.Saved read' slot contents ↔ heap.Saved read slot contents := by
  rw [Saved, Saved, links, same]

end Heap

namespace Workspace

open Heap

variable {σ : Type} [Storage σ] {before after : Workspace σ} {roots : List ArrayId} {persisted : Persisted}
  {id : ArrayId} {slot : Slot} {contents : Contents ArrayId} {dirty : Bool}

theorem granted_slot (member : (id, slot) ∈ before.grants roots) :
    slot ∈ Storage.handouts (before.heap.unbound roots).length before.storage := by
  rw [← grants_snd]
  exact List.mem_map.mpr ⟨_, member, rfl⟩

theorem granted_unique (nodup : (Storage.handouts (before.heap.unbound roots).length before.storage).Nodup)
    {id' : ArrayId} (member : (id, slot) ∈ before.grants roots) (member' : (id', slot) ∈ before.grants roots) :
    id = id' := by
  rw [← grants_snd] at nodup
  exact congrArg Prod.fst (List.inj_on_of_nodup_map nodup member member' rfl)

/-- What a commit of `roots` relies on: the state of the heap, and slots for the arrays without one. -/
structure Committable (before : Workspace σ) (roots : List ArrayId) : Prop where
  wellFormed : before.heap.WellFormed
  inside : ∀ root ∈ roots, root < before.heap.size
  backed : before.heap.Backed (Storage.read before.storage)
  supplies : Storage.Supplies (before.heap.unbound roots).length before.storage

theorem Committable.granted_unrecorded (ready : before.Committable roots)
    (member : (id, slot) ∈ before.grants roots) : Storage.read before.storage slot = none :=
  ready.supplies.unrecorded slot (granted_slot member)

theorem assigned_distinct (ready : before.Committable roots) {id' : ArrayId} {contents' : Contents ArrayId}
    {dirty' : Bool}
    (here : (before.assigned roots).arrays[id]? = some (.loaded slot contents dirty))
    (there : (before.assigned roots).arrays[id']? = some (.loaded slot contents' dirty')) : id = id' := by
  have wf := ready.wellFormed
  have inside := ready.inside
  have unread : ∀ {id : ArrayId} {contents : Contents ArrayId} {dirty : Bool} {id' : ArrayId},
      before.heap.arrays[id]? = some (.loaded slot contents dirty) → (id', slot) ∉ before.grants roots := by
    intro id contents dirty id' old granted
    have recorded := ready.backed.recorded old
    rw [ready.granted_unrecorded granted] at recorded
    cases recorded
  rcases assigned_cases wf inside id with ⟨same, _⟩ | ⟨_, _, _, granted, _, now⟩
  · rw [same] at here
    rcases assigned_cases wf inside id' with ⟨same', _⟩ | ⟨_, _, _, granted', _, now'⟩
    · rw [same'] at there
      exact wf.slot_unique here rfl there rfl
    · rw [there] at now'
      cases now'
      exact absurd granted' (unread here)
  · rw [here] at now
    cases now
    rcases assigned_cases wf inside id' with ⟨same', _⟩ | ⟨_, _, _, granted', _, now'⟩
    · rw [same'] at there
      exact absurd granted (unread there)
    · rw [there] at now'
      cases now'
      exact granted_unique ready.supplies.nodup granted granted'

/-- What a commit of `roots` needs to keep records apart: the state of the heap, and no slot that it shares
    among the arrays that it can write. -/
structure Separable (before : Workspace σ) (roots : List ArrayId) : Prop where
  wellFormed : before.heap.WellFormed
  inside : ∀ root ∈ roots, root < before.heap.size
  backed : before.heap.Backed (Storage.read before.storage)
  distinct : ∀ {id id' : ArrayId} {slot : Slot} {contents contents' : Contents ArrayId} {dirty dirty' : Bool},
    (before.assigned roots).arrays[id]? = some (.loaded slot contents dirty) →
    (before.assigned roots).arrays[id']? = some (.loaded slot contents' dirty') → id = id'

theorem Committable.separable (ready : before.Committable roots) : before.Separable roots where
  wellFormed := ready.wellFormed
  inside := ready.inside
  backed := ready.backed
  distinct := assigned_distinct ready

theorem Separable.unshared (apart : before.Separable roots) : (before.assigned roots).Unshared where
  distinct := apart.distinct

theorem Separable.nodup_slots (apart : before.Separable roots) {writes : List (Slot × Record)}
    (all : List.Forall₂ (fun id write => (before.assigned roots).record id = .ok write)
      (before.heap.pending roots) writes) : (writes.map Prod.fst).Nodup :=
  apart.unshared.nodup_slots ((walk_complete apart.wellFormed apart.inside).nodup.filter _) all

theorem assigned_contents?_eq (wf : before.heap.WellFormed) (inside : ∀ root ∈ roots, root < before.heap.size)
    (ids : List ArrayId) (id : ArrayId) :
    (cleanAll ids (before.assigned roots)).arrays[id]?.bind LiveArray.contents? =
      before.heap.arrays[id]?.bind LiveArray.contents? := by
  rw [contents?_cleanAll]
  rcases assigned_cases wf inside id with ⟨same, _⟩ | ⟨_, _, _, _, fresh, now⟩
  · rw [same]
  · rw [fresh, now]
    rfl

theorem assigned_reaches_iff (wf : before.heap.WellFormed) (inside : ∀ root ∈ roots, root < before.heap.size)
    (ids : List ArrayId) (id : ArrayId) :
    (cleanAll ids (before.assigned roots)).Reaches roots id ↔ before.heap.Reaches roots id := by
  have targets : (cleanAll ids (before.assigned roots)).targets = before.heap.targets := by
    funext id
    rw [Heap.targets, assigned_contents?_eq wf inside, Heap.targets]
  exact reaches_congr targets

namespace Commits

theorem link_eq (commits : Commits roots before after persisted) :
    after.heap.link = (before.assigned roots).link := by
  rw [commits.heap, link_cleanAll]

theorem contents?_eq (wf : before.heap.WellFormed) (inside : ∀ root ∈ roots, root < before.heap.size)
    (commits : Commits roots before after persisted) (id : ArrayId) :
    after.heap.arrays[id]?.bind LiveArray.contents? = before.heap.arrays[id]?.bind LiveArray.contents? := by
  rw [commits.heap]
  exact assigned_contents?_eq wf inside _ id

theorem reaches_iff (wf : before.heap.WellFormed) (inside : ∀ root ∈ roots, root < before.heap.size)
    (commits : Commits roots before after persisted) (id : ArrayId) :
    after.heap.Reaches roots id ↔ before.heap.Reaches roots id := by
  rw [commits.heap]
  exact assigned_reaches_iff wf inside _ id

theorem read_eq [FaithfulStorage σ] (commits : Commits roots before after persisted) :
    ∃ writes, List.Forall₂ (fun id write => (before.assigned roots).record id = .ok write)
        (before.heap.pending roots) writes ∧
      Storage.read after.storage = overwrite writes (Storage.read before.storage) := by
  obtain ⟨writes, all, wrote⟩ := commits.writes
  refine ⟨writes, all, wrote.read.trans (congrArg _ (funext fun slot => ?_))⟩
  exact Storage.read_reserve _ _ slot

theorem pending_loaded (commits : Commits roots before after persisted)
    (pending : id ∈ before.heap.pending roots)
    (now : (before.assigned roots).arrays[id]? = some (.loaded slot contents dirty)) :
    after.heap.arrays[id]? = some (.loaded slot contents false) := by
  rw [commits.heap, arrays_cleanAll, if_pos pending, now]
  rfl

theorem saved_pending [FaithfulStorage σ] (apart : before.Separable roots)
    (commits : Commits roots before after persisted) (pending : id ∈ before.heap.pending roots)
    (now : (before.assigned roots).arrays[id]? = some (.loaded slot contents dirty))
    (short : contents.length ≤ Record.maxLength) :
    after.heap.Saved (Storage.read after.storage) slot contents := by
  obtain ⟨writes, all, stored⟩ := commits.read_eq
  rw [saved_congr commits.link_eq rfl, stored]
  exact saved_of_written (apart.nodup_slots all) all pending now short

theorem saved_clean [FaithfulStorage σ] (apart : before.Separable roots)
    (commits : Commits roots before after persisted)
    (here : before.heap.arrays[id]? = some (.loaded slot contents false)) :
    after.heap.arrays[id]? = some (.loaded slot contents false) ∧
      after.heap.Saved (Storage.read after.storage) slot contents := by
  have clean : id ∉ before.heap.pending roots := by
    intro pending
    have needs := List.of_mem_filter pending
    rw [needsWriting, here] at needs
    cases needs
  have now : (before.assigned roots).arrays[id]? = some (.loaded slot contents false) := by
    rcases assigned_cases apart.wellFormed apart.inside id with ⟨same, _⟩ | ⟨_, _, _, _, fresh, _⟩
    · exact same.trans here
    · rw [here] at fresh
      cases fresh
  obtain ⟨writes, all, stored⟩ := commits.read_eq
  have unwritten : Storage.read after.storage slot = Storage.read before.storage slot := by
    rw [stored]
    exact apart.unshared.read_of_unwritten all clean now
  constructor
  · rw [commits.heap, arrays_cleanAll, if_neg clean, now]
  · obtain ⟨record, links, recorded, decoded, resolved⟩ := (apart.backed.clean here).mono after.heap
      fun _ _ named => by
        rw [commits.link_eq]
        exact link_assigned apart.wellFormed apart.inside named
    exact ⟨record, links, unwritten.trans recorded, decoded, resolved⟩

theorem saved [FaithfulStorage σ] (apart : before.Separable roots)
    (commits : Commits roots before after persisted) {array : LiveArray}
    (reaches : before.heap.Reaches roots id) (here : before.heap.arrays[id]? = some array)
    (held : array.contents? = some contents) :
    ∃ slot, after.heap.arrays[id]? = some (.loaded slot contents false) ∧
      after.heap.Saved (Storage.read after.storage) slot contents := by
  have toured := (mem_toured apart.wellFormed apart.inside id).mpr ⟨reaches, array, contents, here, held⟩
  have short := (apart.wellFormed.within here held).short
  by_cases pending : id ∈ before.heap.pending roots
  · obtain ⟨slot, contents', dirty, now⟩ := assigned_toured apart.wellFormed apart.inside toured
    obtain ⟨old, was, _, held'⟩ := assigned_contents apart.wellFormed apart.inside now
    rw [here] at was
    cases was
    cases held.symm.trans held'
    exact ⟨slot, commits.pending_loaded pending now, saved_pending apart commits pending now short⟩
  · have clean : array.needsWriting = false := by
      have unneeded := fun needs => pending (List.mem_filter.mpr ⟨toured, needs⟩)
      rw [needsWriting, here] at unneeded
      exact Bool.eq_false_iff.mpr unneeded
    cases array with
    | fresh => cases clean
    | named => cases held
    | loaded slot contents' dirty =>
      cases held
      rw [LiveArray.needsWriting] at clean
      subst dirty
      obtain ⟨now, saved⟩ := saved_clean apart commits here
      exact ⟨slot, now, saved⟩

end Commits

end Workspace

end MeteredArrays
