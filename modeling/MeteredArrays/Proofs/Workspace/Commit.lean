import Mathlib.Data.List.Perm.Subperm
import MeteredArrays.Proofs.Heap.Assigning
import MeteredArrays.Proofs.Heap.Walk
import MeteredArrays.Proofs.Storage.Laws
import MeteredArrays.Workspace.Commit

namespace MeteredArrays

namespace Heap

def toured (heap : Heap) (roots : List ArrayId) : List ArrayId :=
  (heap.walk roots).order

def unbound (heap : Heap) (roots : List ArrayId) : List ArrayId :=
  (heap.toured roots).filter heap.isFresh

def pending (heap : Heap) (roots : List ArrayId) : List ArrayId :=
  (heap.toured roots).filter heap.needsWriting

variable {heap : Heap} {roots : List ArrayId}

theorem mem_toured (wf : heap.WellFormed) (inside : ∀ root ∈ roots, root < heap.size)
    (id : ArrayId) :
    id ∈ heap.toured roots ↔ heap.Reaches roots id ∧ heap.InMemory id :=
  (walk_complete wf inside).mem_iff id

theorem mem_unbound (wf : heap.WellFormed) (inside : ∀ root ∈ roots, root < heap.size) (id : ArrayId) :
    id ∈ heap.unbound roots ↔ heap.Reaches roots id ∧ heap.isFresh id = true := by
  rw [unbound, List.mem_filter, mem_toured wf inside, and_assoc]
  refine and_congr_right fun _ => and_iff_right_of_imp fun fresh => ?_
  obtain ⟨contents, dirty, here⟩ := isFresh_iff.mp fresh
  exact ⟨_, contents, here, rfl⟩

theorem mem_pending (wf : heap.WellFormed) (inside : ∀ root ∈ roots, root < heap.size) (id : ArrayId) :
    id ∈ heap.pending roots ↔ heap.Reaches roots id ∧ heap.needsWriting id = true := by
  rw [pending, List.mem_filter, mem_toured wf inside, and_assoc]
  refine and_congr_right fun _ => and_iff_right_of_imp fun needs => ?_
  obtain ⟨array, here, needs⟩ := (Option.any_eq_true _ _).mp needs
  cases array with
  | named => cases needs
  | fresh contents | loaded _ contents => exact ⟨_, contents, here, rfl⟩

theorem nodup_unbound (wf : heap.WellFormed) (inside : ∀ root ∈ roots, root < heap.size) :
    (heap.unbound roots).Nodup :=
  (walk_complete wf inside).nodup.filter _

end Heap

namespace Workspace

open Heap

variable {σ : Type} [Storage σ]

def grants (workspace : Workspace σ) (roots : List ArrayId) : List (ArrayId × Slot) :=
  (workspace.heap.unbound roots).zip
    (Storage.handouts (workspace.heap.unbound roots).length workspace.storage)

/-- The heap once a commit of `roots` gave every array that it visits a slot. -/
def assigned (workspace : Workspace σ) (roots : List ArrayId) : Heap :=
  bindAll (workspace.grants roots) workspace.heap

def grantEvents (grants : List (ArrayId × Slot)) : List Event :=
  grants.map fun grant => .allocated grant.2

def writeEvents (id : ArrayId) (write : Slot × Record) : List Event :=
  [.persisting id write.1 write.2.length, .stored write.1 write.2]

def saveEvents (saves : List (ArrayId × Slot × Record)) : List Event :=
  saves.flatMap fun save => writeEvents save.1 save.2

theorem journal_append (journal : Journal) (events later : List Event) :
    journal ++ events ++ later = journal ++ (events ++ later) :=
  Array.toList_inj.mp (by simp)

theorem assignSlots_eq (ids : List ArrayId) (nodup : ids.Nodup) (heap : Heap)
    (inside : ∀ id ∈ ids, id < heap.size) (storage : σ) (journal : Journal) :
    ids.forM assignSlot (⟨heap, storage, journal⟩ : Workspace σ) =
      .ok () ⟨bindAll ((ids.filter heap.isFresh).zip
          (Storage.handouts (ids.filter heap.isFresh).length storage)) heap,
        Storage.reserve (ids.filter heap.isFresh).length storage,
        journal ++ (Storage.handouts (ids.filter heap.isFresh).length storage).map Event.allocated⟩ := by
  induction ids generalizing heap storage journal with
  | nil => rfl
  | cons id ids ih =>
    rw [List.nodup_cons] at nodup
    obtain ⟨array, here⟩ := exists_of_lt (inside id List.mem_cons_self)
    have others := fun other member => inside other (List.mem_cons_of_mem id member)
    rw [forM_cons_apply]
    simp only [EStateM.bind, assignSlot, Bind.bind, query, find_eq_ok.mpr here]
    cases array with
    | named kind slot | loaded slot contents dirty =>
      have bound : heap.isFresh id = false := by
        unfold isFresh
        rw [here]
        rfl
      rw [List.filter_cons_of_neg (by rw [bound]; exact Bool.false_ne_true)]
      exact ih nodup.2 heap others storage journal
    | fresh contents dirty =>
      have fresh : heap.isFresh id = true := isFresh_iff.mpr ⟨contents, dirty, here⟩
      rw [List.filter_cons_of_pos fresh]
      have rest := ih nodup.2 (heap.bind id (Storage.allocate storage).1)
        (fun other member => by rw [size_bind]; exact others other member) (Storage.allocate storage).2
        (journal.push (.allocated (Storage.allocate storage).1))
      -- The array that got its slot is not met again.
      rw [filter_isFresh_bind nodup.1, ← Array.appendList_cons] at rest
      exact rest

theorem save_eq {heap : Heap} {id : ArrayId} {write : Slot × Record} (found : heap.record id = .ok write)
    (storage : σ) (journal : Journal) :
    save id (⟨heap, storage, journal⟩ : Workspace σ) =
      match Storage.write write.1 write.2 storage with
      | .ok _ storage => .ok () ⟨heap.update id .clean, storage, journal ++ writeEvents id write⟩
      | .error fault storage => .error fault ⟨heap, storage, journal ++ writeEvents id write⟩ := by
  obtain ⟨slot, record⟩ := write
  have told : tell (.persisting id slot record.length) (⟨heap, storage, journal⟩ : Workspace σ) =
      .ok () ⟨heap, storage, journal.push (.persisting id slot record.length)⟩ := rfl
  simp only [save, Bind.bind, EStateM.bind, query, found]
  simp only [told, store]
  cases Storage.write slot record storage <;> rfl

theorem saveAll_ends {pending : List ArrayId} {writes : List (Slot × Record)} {heap : Heap}
    (all : List.Forall₂ (fun id write => heap.record id = .ok write) pending writes) (storage : σ)
    (journal : Journal) :
    Ends (pending.forM save (⟨heap, storage, journal⟩ : Workspace σ))
      (fun _ after => after.heap = cleanAll pending heap ∧ Storage.Wrote writes storage after.storage ∧
        after.journal = journal ++ saveEvents (pending.zip writes))
      (fun fault after => ∃ accepted, Storage.Refused accepted writes storage fault after.storage ∧
        after.heap = cleanAll (pending.take accepted) heap ∧
        after.journal = journal ++ saveEvents ((pending.zip writes).take (accepted + 1))) := by
  induction pending generalizing writes heap storage journal with
  | nil =>
    cases all
    exact ⟨rfl, .nil storage, rfl⟩
  | cons id pending ih =>
    obtain ⟨write, others, found, rest, rfl⟩ := List.forall₂_cons_left_iff.mp all
    rw [forM_cons_apply]
    simp only [EStateM.bind, save_eq found]
    cases written : Storage.write write.1 write.2 storage with
    | error fault refusing =>
      refine ⟨0, .here written, rfl, ?_⟩
      simp [saveEvents]
    | ok _ middle =>
      rw [← record_update_clean heap id] at rest
      refine (ih rest middle (journal ++ writeEvents id write)).imp ?_ ?_
      · rintro _ after ⟨cleaned, wrote, told⟩
        refine ⟨cleaned, .cons written wrote, ?_⟩
        rw [told, journal_append]
        rfl
      · rintro fault after ⟨accepted, refused, cleaned, told⟩
        refine ⟨accepted + 1, .later written refused, cleaned, ?_⟩
        rw [told, journal_append]
        rfl

/-- What a commit of `roots` did, once it succeeded. -/
structure Commits (roots : List ArrayId) (before after : Workspace σ) (persisted : Persisted) : Prop where
  heap : after.heap = cleanAll (before.heap.pending roots) (before.assigned roots)
  writes : ∃ writes, List.Forall₂ (fun id write => (before.assigned roots).record id = .ok write)
      (before.heap.pending roots) writes ∧
    Storage.Wrote writes (Storage.reserve (before.heap.unbound roots).length before.storage) after.storage
  roots : roots.mapM (fun root => Link.slot <$> (before.assigned roots).link root) = .ok persisted.roots

variable {workspace : Workspace σ} {roots : List ArrayId}

theorem grants_fst (workspace : Workspace σ) (roots : List ArrayId) :
    (workspace.grants roots).map Prod.fst = workspace.heap.unbound roots :=
  List.map_fst_zip (Nat.le_of_eq (Storage.length_handouts _ _).symm)

theorem grants_snd (workspace : Workspace σ) (roots : List ArrayId) :
    (workspace.grants roots).map Prod.snd =
      Storage.handouts (workspace.heap.unbound roots).length workspace.storage :=
  List.map_snd_zip (Nat.le_of_eq (Storage.length_handouts _ _))

theorem length_grants (workspace : Workspace σ) (roots : List ArrayId) :
    (workspace.grants roots).length = (workspace.heap.unbound roots).length := by
  rw [← grants_fst, List.length_map]

theorem grantEvents_grants (workspace : Workspace σ) (roots : List ArrayId) :
    grantEvents (workspace.grants roots) =
      (Storage.handouts (workspace.heap.unbound roots).length workspace.storage).map .allocated := by
  rw [← grants_snd, List.map_map]
  rfl

theorem fresh_of_granted {id : ArrayId} {slot : Slot} (granted : (id, slot) ∈ workspace.grants roots) :
    ∃ contents dirty, workspace.heap.arrays[id]? = some (.fresh contents dirty) := by
  have unbound : id ∈ workspace.heap.unbound roots := by
    rw [← grants_fst]
    exact List.mem_map.mpr ⟨_, granted, rfl⟩
  exact isFresh_iff.mp (List.of_mem_filter unbound)

theorem assigned_cases (wf : workspace.heap.WellFormed) (inside : ∀ root ∈ roots, root < workspace.heap.size)
    (id : ArrayId) :
    ((workspace.assigned roots).arrays[id]? = workspace.heap.arrays[id]? ∧
        id ∉ workspace.heap.unbound roots) ∨
      ∃ slot contents dirty, (id, slot) ∈ workspace.grants roots ∧
        workspace.heap.arrays[id]? = some (.fresh contents dirty) ∧
        (workspace.assigned roots).arrays[id]? = some (.loaded slot contents dirty) := by
  have nodup : ((workspace.grants roots).map Prod.fst).Nodup := by
    rw [grants_fst]
    exact nodup_unbound wf inside
  rcases bindAll_cases nodup id with ⟨ungranted, same⟩ | ⟨slot, granted, bound⟩
  · rw [grants_fst] at ungranted
    exact Or.inl ⟨same, ungranted⟩
  · obtain ⟨contents, dirty, here⟩ := fresh_of_granted granted
    rw [here] at bound
    exact Or.inr ⟨slot, contents, dirty, granted, here, bound⟩

theorem link_assigned (wf : workspace.heap.WellFormed) (inside : ∀ root ∈ roots, root < workspace.heap.size)
    {id : ArrayId} {link : Link} (named : workspace.heap.link id = .ok link) :
    (workspace.assigned roots).link id = .ok link := by
  obtain ⟨array, here, kind, slot⟩ := link_eq_ok.mp named
  rcases assigned_cases wf inside id with ⟨same, _⟩ | ⟨_, contents, dirty, _, fresh, _⟩
  · exact link_eq_ok.mpr ⟨array, same.trans here, kind, slot⟩
  · rw [fresh] at here
    cases here
    cases slot

theorem assigned_contents (wf : workspace.heap.WellFormed) (inside : ∀ root ∈ roots, root < workspace.heap.size)
    {id : ArrayId} {array : LiveArray} (now : (workspace.assigned roots).arrays[id]? = some array) :
    ∃ old, workspace.heap.arrays[id]? = some old ∧ old.kind = array.kind ∧ old.contents? = array.contents? := by
  rcases assigned_cases wf inside id with ⟨same, _⟩ | ⟨_, _, _, _, fresh, now'⟩
  · exact ⟨array, same.symm.trans now, rfl, rfl⟩
  · rw [now] at now'
    cases now'
    exact ⟨_, fresh, rfl, rfl⟩

theorem assigned_visited (tour : (workspace.heap.walk roots).Complete workspace.heap roots) {id : ArrayId}
    (reaches : workspace.heap.Reaches roots id) {array : LiveArray} {contents : Contents ArrayId}
    (here : workspace.heap.arrays[id]? = some array) (held : array.contents? = some contents) :
    ∃ slot, (workspace.assigned roots).arrays[id]? = some (.loaded slot contents array.isDirty) ∧
      (array.isBound = false → (id, slot) ∈ workspace.grants roots) := by
  have nodup : ((workspace.grants roots).map Prod.fst).Nodup := by
    rw [grants_fst]
    exact tour.nodup.filter _
  rcases bindAll_cases nodup id with ⟨ungranted, same⟩ | ⟨slot, granted, bound⟩
  · cases array with
    | fresh contents' dirty =>
      have toured := (tour.mem_iff id).mpr ⟨reaches, _, contents, here, held⟩
      rw [grants_fst] at ungranted
      exact absurd (List.mem_filter.mpr ⟨toured, isFresh_iff.mpr ⟨_, _, here⟩⟩) ungranted
    | named => cases held
    | loaded slot contents' dirty =>
      cases held
      exact ⟨slot, same.trans here, fun unbound => nomatch unbound⟩
  · obtain ⟨contents', dirty, fresh⟩ := fresh_of_granted granted
    cases here.symm.trans fresh
    cases held
    rw [here] at bound
    exact ⟨slot, bound, fun _ => granted⟩

theorem assigned_toured (wf : workspace.heap.WellFormed) (inside : ∀ root ∈ roots, root < workspace.heap.size)
    {id : ArrayId} (toured : id ∈ workspace.heap.toured roots) :
    ∃ slot contents dirty, (workspace.assigned roots).arrays[id]? = some (.loaded slot contents dirty) := by
  obtain ⟨reaches, array, contents, here, held⟩ := (mem_toured wf inside id).mp toured
  obtain ⟨slot, now, _⟩ := assigned_visited (walk_complete wf inside) reaches here held
  exact ⟨slot, contents, array.isDirty, now⟩

theorem link_reached (wf : workspace.heap.WellFormed) (inside : ∀ root ∈ roots, root < workspace.heap.size)
    {id : ArrayId} (reaches : workspace.heap.Reaches roots id) :
    ∃ link, (workspace.assigned roots).link id = .ok link := by
  obtain ⟨array, here⟩ := exists_of_lt (reaches.inside wf inside)
  cases held : array.contents? with
  | none =>
    cases array with
    | fresh | loaded => cases held
    | named kind slot => exact ⟨_, link_assigned wf inside (link_of_slot here rfl)⟩
  | some contents =>
    obtain ⟨slot, contents, dirty, now⟩ :=
      assigned_toured wf inside ((mem_toured wf inside id).mpr ⟨reaches, array, contents, here, held⟩)
    exact ⟨_, link_of_slot now rfl⟩

theorem assigned_targets (wf : workspace.heap.WellFormed)
    (inside : ∀ root ∈ roots, root < workspace.heap.size) {id : ArrayId} {slot : Slot}
    {contents : Contents ArrayId} {dirty : Bool}
    (now : (workspace.assigned roots).arrays[id]? = some (.loaded slot contents dirty)) {target : ArrayId}
    (member : target ∈ contents.targets) : target ∈ workspace.heap.targets id := by
  obtain ⟨old, here, _, held⟩ := assigned_contents wf inside now
  exact mem_targets.mpr ⟨old, contents, here, held, member⟩

theorem record_toured (wf : workspace.heap.WellFormed) (inside : ∀ root ∈ roots, root < workspace.heap.size)
    {id : ArrayId} (toured : id ∈ workspace.heap.toured roots) :
    ∃ write, (workspace.assigned roots).record id = .ok write := by
  obtain ⟨slot, contents, dirty, now⟩ := assigned_toured wf inside toured
  have reaches := ((mem_toured wf inside id).mp toured).1
  obtain ⟨links, resolved⟩ : ∃ links, contents.traverse (workspace.assigned roots).link = .ok links :=
    Contents.traverse_succeeds fun target member =>
      link_reached wf inside (.target reaches (assigned_targets wf inside now member))
  exact ⟨_, record_eq_ok.mpr ⟨contents, dirty, links, now, resolved, rfl⟩⟩

def writes (workspace : Workspace σ) (roots : List ArrayId) : List (Slot × Record) :=
  (workspace.heap.pending roots).filterMap fun id => ((workspace.assigned roots).record id).toOption

theorem records_writes (wf : workspace.heap.WellFormed) (inside : ∀ root ∈ roots, root < workspace.heap.size) :
    List.Forall₂ (fun id write => (workspace.assigned roots).record id = .ok write)
      (workspace.heap.pending roots) (workspace.writes roots) :=
  forall₂_filterMap_toOption fun _ member => record_toured wf inside (List.mem_of_mem_filter member)

def saves (workspace : Workspace σ) (roots : List ArrayId) : List (ArrayId × Slot × Record) :=
  (workspace.heap.pending roots).zip (workspace.writes roots)

theorem saves_fst (wf : workspace.heap.WellFormed) (inside : ∀ root ∈ roots, root < workspace.heap.size) :
    (workspace.saves roots).map Prod.fst = workspace.heap.pending roots :=
  List.map_fst_zip (Nat.le_of_eq (records_writes wf inside).length_eq)

theorem length_saves (wf : workspace.heap.WellFormed) (inside : ∀ root ∈ roots, root < workspace.heap.size) :
    (workspace.saves roots).length = (workspace.heap.pending roots).length := by
  rw [← saves_fst wf inside, List.length_map]

theorem saves_snd (wf : workspace.heap.WellFormed) (inside : ∀ root ∈ roots, root < workspace.heap.size) :
    (workspace.saves roots).map Prod.snd = workspace.writes roots :=
  List.map_snd_zip (Nat.le_of_eq (records_writes wf inside).length_eq.symm)

theorem persist_eq_walk (roots : List ArrayId) (workspace : Workspace σ) :
    persist roots workspace = (do
      (workspace.heap.walk roots).order.forM assignSlot
      if let some fault := (workspace.heap.walk roots).fault? then throw fault
      ((workspace.heap.walk roots).order.filter workspace.heap.needsWriting).forM save
      let slots ← query fun heap => roots.mapM fun root => Link.slot <$> heap.link root
      return ⟨slots, ((workspace.heap.walk roots).order.filter workspace.heap.needsWriting).length⟩ :
        Work σ Persisted) workspace :=
  rfl

theorem persist_eq (wf : workspace.heap.WellFormed) (inside : ∀ root ∈ roots, root < workspace.heap.size) :
    persist roots workspace =
      ((workspace.heap.pending roots).forM save >>= fun _ => do
        let slots ← query fun heap => roots.mapM fun root => Link.slot <$> heap.link root
        return ⟨slots, (workspace.heap.pending roots).length⟩)
      ⟨workspace.assigned roots, Storage.reserve (workspace.heap.unbound roots).length workspace.storage,
        workspace.journal ++ grantEvents (workspace.grants roots)⟩ := by
  rw [grantEvents_grants, persist_eq_walk]
  obtain ⟨heap, storage, journal⟩ := workspace
  have tour := walk_complete wf inside
  have assigned := assignSlots_eq (heap.walk roots).order tour.nodup heap
    (fun id member => ((tour.mem_iff id).mp member).1.inside wf inside) storage journal
  simp only [Bind.bind, EStateM.bind]
  rw [assigned]
  simp only [tour.fault]
  rfl

/-- A commit fails only where the storage refuses a write, and then it has made the writes before. -/
theorem persist_ends (wf : workspace.heap.WellFormed) (inside : ∀ root ∈ roots, root < workspace.heap.size) :
    Ends (persist roots workspace)
      (fun persisted after => Commits roots workspace after persisted ∧
        Storage.Wrote (workspace.writes roots)
          (Storage.reserve (workspace.heap.unbound roots).length workspace.storage) after.storage ∧
        persisted.written = (workspace.heap.pending roots).length ∧
        after.journal = workspace.journal ++
          (grantEvents (workspace.grants roots) ++ saveEvents (workspace.saves roots)))
      (fun fault after => ∃ accepted, Storage.Refused accepted (workspace.writes roots)
          (Storage.reserve (workspace.heap.unbound roots).length workspace.storage) fault after.storage ∧
        after.heap = cleanAll ((workspace.heap.pending roots).take accepted) (workspace.assigned roots) ∧
        after.journal = workspace.journal ++
          (grantEvents (workspace.grants roots) ++ saveEvents ((workspace.saves roots).take (accepted + 1)))) := by
  have all := records_writes wf inside
  rw [persist_eq wf inside]
  refine Ends.bind ((saveAll_ends all _ _).imp_fail ?_) ?_
  · rintro fault after ⟨accepted, refused, cleaned, told⟩
    rw [journal_append] at told
    exact ⟨accepted, refused, cleaned, told⟩
  · rintro _ ⟨heap, storage, journal⟩ ⟨rfl, wrote, rfl⟩
    obtain ⟨slots, named⟩ := except_mapM_succeeds
      (fun root => Link.slot <$> (workspace.assigned roots).link root) roots fun root member => by
        obtain ⟨link, named⟩ := link_reached wf inside (.root member)
        exact ⟨link.slot, by rw [named]; rfl⟩
    simp only [Bind.bind, EStateM.bind, query, link_cleanAll, named]
    exact ⟨⟨rfl, ⟨_, all, wrote⟩, named⟩, wrote, rfl, journal_append _ _ _⟩

end Workspace

end MeteredArrays
