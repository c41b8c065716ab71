import MeteredArrays.Proofs.Heap.Walk
import MeteredArrays.Proofs.Invocation.Run

namespace MeteredArrays

namespace Heap

/-- What a commit keeps of the arrays that its roots lead to: those in memory have their contents in
    storage, and those that were only named are named as before. -/
structure Preserved (origin kept : Heap) (roots : List ArrayId) (read : Slot → Option Record) : Prop where
  wellFormed : kept.WellFormed
  saved : ∀ {id : ArrayId} {array : LiveArray} {contents : Contents ArrayId}, origin.Reaches roots id →
    origin.arrays[id]? = some array → array.contents? = some contents →
      ∃ slot, kept.arrays[id]? = some (.loaded slot contents false) ∧ kept.Saved read slot contents
  named : ∀ {id : ArrayId} {kind : Kind} {slot : Slot}, origin.arrays[id]? = some (.named kind slot) →
    kept.link id = .ok ⟨kind, slot⟩

def Matches (kept copy : Heap) (id id' : ArrayId) : Prop :=
  ∃ link, kept.link id = .ok link ∧ copy.link id' = .ok link

def LinksKept (before after : Heap) : Prop :=
  ∀ {id : ArrayId} {link : Link}, before.link id = .ok link → after.link id = .ok link

theorem Matches.mono {kept copy after : Heap} {id id' : ArrayId} (same : Matches kept copy id id')
    (later : LinksKept copy after) : Matches kept after id id' := by
  obtain ⟨link, named, named'⟩ := same
  exact ⟨link, named, later named'⟩

theorem link_unique {heap : Heap} (wf : heap.WellFormed) {id id' : ArrayId} {link : Link}
    (named : heap.link id = .ok link) (named' : heap.link id' = .ok link) : id = id' := by
  obtain ⟨array, here, _, bound⟩ := link_eq_ok.mp named
  obtain ⟨array', there, _, bound'⟩ := link_eq_ok.mp named'
  exact wf.slot_unique here bound there bound'

end Heap

namespace Invocation

open Heap

variable {σ : Type} [Storage σ] {origin kept : Heap} {roots : List ArrayId} {storage : σ}

def linksOf (kept : Heap) (link : Link) : Prop :=
  ∃ id, kept.link id = .ok link

/-- An invocation that names arrays of `kept` only, and that read only those whose contents were in
    memory when the commit began. -/
structure Mirror (origin kept : Heap) (roots : List ArrayId) (storage : σ) (copy : Invocation σ) : Prop where
  ready : Ready (linksOf kept) copy
  running : copy.exit? = none
  storage_eq : copy.workspace.storage = storage
  backed : copy.heap.Backed (Storage.read storage)
  opened : ∀ {id : ArrayId} {array : LiveArray} {contents : Contents ArrayId},
    copy.heap.arrays[id]? = some array → array.contents? = some contents →
      (∃ slot, array = .loaded slot contents false) ∧
        ∃ old, origin.Reaches roots old ∧ origin.InMemory old ∧ Matches kept copy.heap old id

variable {copy : Invocation σ}

theorem mirror_start (limit : UInt64) (schedule : Schedule) (storage : σ) :
    Mirror origin kept roots storage (start limit schedule storage) where
  ready := ready_start _ limit schedule storage
  running := rfl
  storage_eq := rfl
  backed := backed_empty _
  opened {id} _ _ here _ := absurd (lt_size here) (Nat.not_lt_zero id)

theorem linksOf_no_clash (wf : kept.WellFormed) {links : List Link} (known : ∀ link ∈ links, linksOf kept link)
    (fault : Fault) : ¬ Clash (linksOf kept) links fault := by
  rintro ⟨_, link, member, kind, other, id, named⟩
  obtain ⟨id', named'⟩ := known link member
  obtain ⟨array, here, rfl, bound⟩ := link_eq_ok.mp named
  obtain ⟨array', there, same, bound'⟩ := link_eq_ok.mp named'
  have id_eq := wf.slot_unique here bound there bound'
  subst id'
  rw [here] at there
  cases there
  exact other same

theorem Mirror.load (preserved : Preserved origin kept roots (Storage.read storage))
    (mirror : Mirror origin kept roots storage copy) {old : ArrayId} {slot : Slot} {kind : Kind}
    (named : kept.link old = .ok ⟨kind, slot⟩) :
    Ends (Invocation.load slot kind copy)
      (fun id after => Mirror origin kept roots storage after ∧ LinksKept copy.heap after.heap ∧
        Matches kept after.heap old id)
      (fun _ _ => False) := by
  have resolved := resolve_ends (Storage.read storage) @mirror.ready.wellFormed.heap.indexed mirror.ready.allows
    ⟨old, named⟩
  cases resolves : resolve ⟨kind, slot⟩ copy.heap with
  | error fault heap =>
    refine absurd (resolved.error resolves).2 (linksOf_no_clash preserved.wellFormed (fun link member => ?_) fault)
    rw [List.mem_singleton.mp member]
    exact ⟨old, named⟩
  | ok id heap =>
    obtain ⟨_, done, same⟩ := estate_map_eq_ok.mp ((Succeeds.load resolves).run mirror.running)
    cases same
    obtain ⟨ext, here⟩ := resolved.ok resolves
    have advances : Advances (linksOf kept) copy (copy.withHeap heap) :=
      advances_withHeap (mirror.storage_eq ▸ ext.changes)
    have linksKept : LinksKept copy.heap heap := fun named => ext.changes.link named
    rw [done]
    refine ⟨⟨(advances.trans (advances_announce _ _)).ready mirror.ready, mirror.running, mirror.storage_eq,
      ext.changes.backed mirror.backed, ?_⟩, linksKept, _, named, here⟩
    intro id' array contents there held
    have there : heap.arrays[id']? = some array := there
    by_cases before : id' < copy.heap.size
    · obtain ⟨array', was⟩ := exists_of_lt before
      cases (ext.same was).symm.trans there
      obtain ⟨loaded, source, reaches, inMemory, same⟩ := mirror.opened was held
      exact ⟨loaded, source, reaches, inMemory, same.mono linksKept⟩
    · rw [ext.added (Nat.not_lt.mp before) there] at held
      cases held

variable {old id : ArrayId} {array : LiveArray} {contents : Contents ArrayId}

theorem Mirror.stored (preserved : Preserved origin kept roots (Storage.read storage))
    (reaches : origin.Reaches roots old) (here : origin.arrays[old]? = some array)
    (held : array.contents? = some contents) (same : Matches kept copy.heap old id) :
    ∃ slot record links, copy.heap.link id = .ok ⟨contents.kind, slot⟩ ∧
      Storage.read storage slot = some record ∧
      Record.decode contents.kind record = .ok links ∧ contents.traverse kept.link = .ok links := by
  obtain ⟨slot, now, record, links, stored, decoded, resolved⟩ := preserved.saved reaches here held
  obtain ⟨link, named, named'⟩ := same
  have known := link_of_slot now rfl
  rw [named] at known
  cases known
  exact ⟨slot, record, links, named', stored, decoded, resolved⟩

theorem targets_linksOf {links : Contents Link} (resolved : contents.traverse kept.link = .ok links) :
    ∀ link ∈ links.targets, linksOf kept link := by
  intro link member
  have rel := (Contents.traverse_eq_ok.mp resolved).targets
  obtain ⟨target, _, named⟩ := forall₂_exists_of_mem (List.Forall₂.flip (R := flip _) rel) member
  exact ⟨target, named⟩

theorem Mirror.discloses (preserved : Preserved origin kept roots (Storage.read storage))
    (mirror : Mirror origin kept roots storage copy) (reaches : origin.Reaches roots old)
    (here : origin.arrays[old]? = some array) (held : array.contents? = some contents)
    (same : Matches kept copy.heap old id) :
    copy.heap.Discloses (Storage.read copy.workspace.storage) (linksOf kept) id ∧
      ∀ fault, ¬ copy.heap.Unreadable (Storage.read copy.workspace.storage) (linksOf kept) id fault := by
  obtain ⟨slot, record, links, named, stored, decoded, resolved⟩ :=
    Mirror.stored preserved reaches here held same
  rw [mirror.storage_eq]
  have agree : ∀ {kind slot'}, copy.heap.arrays[id]? = some (.named kind slot') →
      kind = contents.kind ∧ Storage.read storage slot' = some record := by
    intro kind slot' there
    have known := link_of_slot there rfl
    rw [named] at known
    cases known
    exact ⟨rfl, stored⟩
  constructor
  · intro kind slot' record' links' there stored' decoded'
    obtain ⟨rfl, stored⟩ := agree there
    cases stored.symm.trans stored'
    cases decoded.symm.trans decoded'
    exact targets_linksOf resolved
  · intro fault unreadable
    cases unreadable with
    | dangling absent =>
      obtain ⟨array', there, _⟩ := link_eq_ok.mp named
      cases absent.symm.trans there
    | missing there absent => cases (agree there).2.symm.trans absent
    | rejected there stored' refused =>
      obtain ⟨rfl, stored⟩ := agree there
      cases stored.symm.trans stored'
      cases decoded.symm.trans refused
    | clash there stored' decoded' clash =>
      obtain ⟨rfl, stored⟩ := agree there
      cases stored.symm.trans stored'
      cases decoded.symm.trans decoded'
      exact linksOf_no_clash preserved.wellFormed (targets_linksOf resolved) _ clash

theorem Mirror.read (preserved : Preserved origin kept roots (Storage.read storage))
    (mirror : Mirror origin kept roots storage copy) (reaches : origin.Reaches roots old)
    (here : origin.arrays[old]? = some array) (held : array.contents? = some contents)
    (same : Matches kept copy.heap old id) :
    ∃ again opened, copy.workspace.Opens id again opened ∧
      Mirror origin kept roots storage (copy.withWorkspace opened) ∧ LinksKept copy.heap opened.heap ∧
      contents.Rel (Matches kept opened.heap) again := by
  obtain ⟨discloses, readable⟩ := mirror.discloses preserved reaches here held same
  have reads := Workspace.materialize_ends mirror.ready.wellFormed.heap mirror.ready.allows discloses
  rcases Workspace.opens_or_fails id copy.workspace with ⟨again, opened, opens⟩ | ⟨fault, after, failed⟩
  · obtain ⟨advances, opensOnly, _⟩ := reads.ok opens.read
    obtain ⟨array', there, held'⟩ := held?_eq_some.mp opens.held
    have linksKept : LinksKept copy.heap opened.heap := fun named => advances.changes.link named
    have changes := advances.changes
    rw [mirror.storage_eq] at changes
    have mirror' : Mirror origin kept roots storage (copy.withWorkspace opened) := by
      refine ⟨(Advances.of_workspace advances).ready mirror.ready, mirror.running,
        advances.storage.trans mirror.storage_eq, changes.backed mirror.backed, ?_⟩
      intro other array'' found now inMemory
      rcases opensOnly now inMemory with ⟨rfl, loaded⟩ | was
      · exact ⟨loaded, old, reaches, ⟨array, contents, here, held⟩, same.mono linksKept⟩
      · obtain ⟨loaded, source, reaches, inMemory, same⟩ := mirror.opened was inMemory
        exact ⟨loaded, source, reaches, inMemory, same.mono linksKept⟩
    refine ⟨again, opened, opens, mirror', linksKept, ?_⟩
    -- What was read is not changed since, so the same record tells both contents.
    obtain ⟨⟨slot', rfl⟩, _⟩ := mirror'.opened there held'
    cases held'
    have same' : Matches kept (copy.withWorkspace opened).heap old id := same.mono linksKept
    obtain ⟨slot, record, links, named, stored, decoded, resolved⟩ := Mirror.stored preserved reaches here held same'
    obtain ⟨record', links', stored', decoded', resolved'⟩ := mirror'.backed.clean there
    have known : (copy.withWorkspace opened).heap.link id = _ := link_of_slot there rfl
    rw [named] at known
    simp only [Except.ok.injEq, Link.mk.injEq, LiveArray.kind] at known
    obtain ⟨kind, rfl⟩ := known
    rw [stored] at stored'
    cases stored'
    rw [← kind, decoded] at decoded'
    cases decoded'
    exact (Contents.traverse_eq_ok.mp resolved).comp (Contents.traverse_eq_ok.mp resolved').flip
  · exact absurd (reads.error failed).2 (readable fault)

theorem Mirror.named (preserved : Preserved origin kept roots (Storage.read storage))
    (mirror : Mirror origin kept roots storage copy) {kind : Kind} {slot : Slot}
    (here : origin.arrays[old]? = some (.named kind slot)) (same : Matches kept copy.heap old id) :
    copy.heap.arrays[id]? = some (.named kind slot) := by
  obtain ⟨link, named, named'⟩ := same
  have known := preserved.named here
  rw [named] at known
  cases known
  obtain ⟨array, there, kind', bound⟩ := link_eq_ok.mp named'
  cases held : array.contents? with
  | none =>
    cases array with
    | fresh | loaded => cases held
    | named kind'' slot' =>
      cases kind'
      cases bound
      exact there
  | some contents =>
    obtain ⟨_, source, _, ⟨array', contents', was, inMemory⟩, link, known, known'⟩ := mirror.opened there held
    rw [named'] at known'
    cases known'
    have id_eq := link_unique preserved.wellFormed named known
    subst id_eq
    rw [here] at was
    cases was
    cases inMemory

end Invocation

end MeteredArrays
