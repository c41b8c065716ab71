import MeteredArrays.Proofs.Invocation.Run
import MeteredArrays.Proofs.Workspace.Saved

namespace MeteredArrays

def Recorded (read : Slot → Option Record) (link : Link) : Prop :=
  ∃ record, read link.slot = some record ∧ record.tagKind? = some link.kind

/-- Every record reads back under the kind of its own tag, and refers to records of the kinds that it
    names only. -/
def Consistent (read : Slot → Option Record) : Prop :=
  ∀ slot record, read slot = some record →
    ∃ kind contents, record.tagKind? = some kind ∧ Record.decode kind record = .ok contents ∧
      ∀ link ∈ contents.targets, Recorded read link

theorem recorded_iff {read : Slot → Option Record} {link : Link} :
    Recorded read link ↔ (read link.slot).map Record.tagKind? = some (some link.kind) :=
  Option.map_eq_some_iff.symm

theorem Recorded.kind_unique {read : Slot → Option Record} {kind kind' : Kind} {slot : Slot}
    (recorded : Recorded read ⟨kind, slot⟩) (recorded' : Recorded read ⟨kind', slot⟩) : kind = kind' := by
  obtain ⟨record, stored, tagged⟩ := recorded
  obtain ⟨record', stored', tagged'⟩ := recorded'
  rw [stored] at stored'
  cases stored'
  exact Option.some.inj (tagged.symm.trans tagged')

theorem Consistent.trusted {read : Slot → Option Record} (consistent : Consistent read) :
    Trusted read (Recorded read) := by
  constructor
  · rintro link ⟨record, stored, tagged⟩
    obtain ⟨kind, contents, tagged', decoded, _⟩ := consistent _ _ stored
    rw [tagged] at tagged'
    cases tagged'
    exact ⟨record, contents, stored, decoded⟩
  · intro link record contents _ stored decoded
    obtain ⟨kind, contents', tagged, decoded', closed⟩ := consistent _ _ stored
    rw [(Record.of_decode decoded).1] at tagged
    cases tagged
    rw [decoded] at decoded'
    cases decoded'
    exact closed

namespace Workspace

open Heap

variable {σ : Type} [Storage σ] {before after : Workspace σ} {roots : List ArrayId} {persisted : Persisted}

theorem written {writes : List (Slot × Record)}
    (all : List.Forall₂ (fun id write => (before.assigned roots).record id = .ok write)
      (before.heap.pending roots) writes) {slot : Slot} {record : Record} (member : (slot, record) ∈ writes) :
    ∃ id contents dirty links, id ∈ before.heap.pending roots ∧
      (before.assigned roots).arrays[id]? = some (.loaded slot contents dirty) ∧
      contents.traverse (before.assigned roots).link = .ok links ∧ record = Record.ofContents links := by
  obtain ⟨id, pending, found⟩ := forall₂_exists_of_mem (List.Forall₂.flip (R := flip _) all) member
  obtain ⟨contents, dirty, links, now, resolved, rfl⟩ := record_eq_ok.mp found
  exact ⟨id, contents, dirty, links, pending, now, resolved, rfl⟩

theorem unhanded {count : Nat} (wf : before.heap.WellFormed) (inside : ∀ root ∈ roots, root < before.heap.size)
    (backed : before.heap.Backed (Storage.read before.storage))
    (supplies : Storage.Supplies ((before.heap.unbound roots).length + count) before.storage)
    {writes : List (Slot × Record)}
    (all : List.Forall₂ (fun id write => (before.assigned roots).record id = .ok write)
      (before.heap.pending roots) writes) :
    ∀ slot ∈ writes.map Prod.fst,
      slot ∉ Storage.handouts count (Storage.reserve (before.heap.unbound roots).length before.storage) := by
  intro slot member handed
  have split := Storage.handouts_add (before.heap.unbound roots).length count before.storage
  obtain ⟨⟨_, record⟩, listed, rfl⟩ := List.mem_map.mp member
  obtain ⟨id, contents, dirty, links, _, now, _⟩ := written all listed
  rcases assigned_cases wf inside id with ⟨same, _⟩ | ⟨_, _, _, granted, _, now'⟩
  · have recorded := backed.recorded (same.symm.trans now)
    rw [supplies.unrecorded _ (by rw [split]; exact List.mem_append_right _ handed)] at recorded
    cases recorded
  · rw [now] at now'
    cases now'
    have nodup := supplies.nodup
    rw [split, List.nodup_append] at nodup
    exact nodup.2.2 _ (granted_slot granted) _ handed rfl

theorem written_decodes (ready : before.Committable roots) {id : ArrayId} {slot : Slot}
    {contents : Contents ArrayId} {dirty : Bool} {links : Contents Link}
    (now : (before.assigned roots).arrays[id]? = some (.loaded slot contents dirty))
    (resolved : contents.traverse (before.assigned roots).link = .ok links) :
    (Record.ofContents links).tagKind? = some contents.kind ∧
      Record.decode contents.kind (Record.ofContents links) = .ok links := by
  have rel := Contents.traverse_eq_ok.mp resolved
  obtain ⟨old, here, _, held⟩ := assigned_contents ready.wellFormed ready.inside now
  have short : links.length ≤ Record.maxLength := by
    rw [rel.length_eq]
    exact (ready.wellFormed.within here held).short
  rw [← rel.kind_eq]
  exact ⟨Record.tagKind?_ofContents links short, Record.decode_ofContents links short⟩

namespace Commits

variable [FaithfulStorage σ]

theorem recorded_of_recorded (ready : before.Committable roots)
    (allows : before.heap.Allows (Recorded (Storage.read before.storage)))
    (commits : Commits roots before after persisted) {link : Link}
    (recorded : Recorded (Storage.read before.storage) link) : Recorded (Storage.read after.storage) link := by
  obtain ⟨writes, all, stored⟩ := commits.read_eq
  rw [stored]
  by_cases member : link.slot ∈ writes.map Prod.fst
  · obtain ⟨⟨slot, record⟩, listed, same⟩ := List.mem_map.mp member
    obtain ⟨kind, _⟩ := link
    cases same
    obtain ⟨id, contents, dirty, links, pending, now, resolved, rfl⟩ := written all listed
    have tagged := (written_decodes ready now resolved).1
    have same : contents.kind = kind := by
      rcases assigned_cases ready.wellFormed ready.inside id with ⟨same, _⟩ | ⟨_, _, _, granted, _, now'⟩
      · have old := allows (link_of_slot (same.symm.trans now) rfl)
        exact old.kind_unique recorded
      · rw [now] at now'
        cases now'
        obtain ⟨_, present, _⟩ := recorded
        rw [ready.granted_unrecorded granted] at present
        cases present
    exact ⟨_, overwrite_of_mem (ready.separable.nodup_slots all) listed, same ▸ tagged⟩
  · obtain ⟨record, present, tagged⟩ := recorded
    exact ⟨record, (overwrite_of_not_mem member).trans present, tagged⟩

theorem recorded_of_reached (ready : before.Committable roots)
    (allows : before.heap.Allows (Recorded (Storage.read before.storage)))
    (commits : Commits roots before after persisted) {id : ArrayId} (reaches : before.heap.Reaches roots id)
    {link : Link} (named : (before.assigned roots).link id = .ok link) :
    Recorded (Storage.read after.storage) link := by
  obtain ⟨array, here, kind, bound⟩ := link_eq_ok.mp named
  rcases assigned_cases ready.wellFormed ready.inside id with ⟨same, _⟩ | ⟨slot, contents, dirty, _, fresh, now⟩
  · exact commits.recorded_of_recorded ready allows
      (allows (link_eq_ok.mpr ⟨array, same.symm.trans here, kind, bound⟩))
  · rw [now] at here
    cases here
    obtain ⟨kind', slot'⟩ := link
    cases kind
    cases bound
    have toured := (mem_toured ready.wellFormed ready.inside id).mpr ⟨reaches, _, contents, fresh, rfl⟩
    have pending : id ∈ before.heap.pending roots := by
      refine List.mem_filter.mpr ⟨toured, ?_⟩
      rw [needsWriting, fresh]
      rfl
    obtain ⟨writes, all, stored⟩ := commits.read_eq
    obtain ⟨⟨slot', record⟩, listed, found⟩ := forall₂_exists_of_mem all pending
    obtain ⟨contents', dirty', links, now', resolved, rfl⟩ := record_eq_ok.mp found
    rw [now] at now'
    cases now'
    refine ⟨_, ?_, (written_decodes ready now resolved).1⟩
    rw [stored]
    exact overwrite_of_mem (ready.separable.nodup_slots all) listed

theorem consistent (ready : before.Committable roots)
    (allows : before.heap.Allows (Recorded (Storage.read before.storage)))
    (consistent : Consistent (Storage.read before.storage))
    (commits : Commits roots before after persisted) : Consistent (Storage.read after.storage) := by
  intro slot record present
  obtain ⟨writes, all, stored⟩ := commits.read_eq
  by_cases member : slot ∈ writes.map Prod.fst
  · obtain ⟨⟨slot, record'⟩, listed, rfl⟩ := List.mem_map.mp member
    rw [stored, overwrite_of_mem (ready.separable.nodup_slots all) listed] at present
    cases present
    obtain ⟨id, contents, dirty, links, pending, now, resolved, rfl⟩ := written all listed
    obtain ⟨tagged, decoded⟩ := written_decodes ready now resolved
    refine ⟨contents.kind, links, tagged, decoded, fun link target => ?_⟩
    have reaches := ((mem_toured ready.wellFormed ready.inside id).mp (List.mem_of_mem_filter pending)).1
    have rel := (Contents.traverse_eq_ok.mp resolved).targets
    obtain ⟨child, member, named⟩ := forall₂_exists_of_mem (List.Forall₂.flip (R := flip _) rel) target
    exact commits.recorded_of_reached ready allows
      (.target reaches (assigned_targets ready.wellFormed ready.inside now member)) named
  · rw [stored, overwrite_of_not_mem member] at present
    obtain ⟨kind, contents, tagged, decoded, closed⟩ := consistent _ _ present
    exact ⟨kind, contents, tagged, decoded,
      fun link target => commits.recorded_of_recorded ready allows (closed link target)⟩

end Commits

end Workspace

end MeteredArrays
