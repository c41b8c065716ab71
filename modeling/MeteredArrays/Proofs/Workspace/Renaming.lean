import MeteredArrays.Proofs.Heap.Renaming
import MeteredArrays.Proofs.Workspace.Commit
import MeteredArrays.Storage.Memory
import MeteredArrays.Storage.Rationed

namespace MeteredArrays.Workspace

open Heap

variable {σ : Type} [Storage σ] {rename : ArrayId → ArrayId} {among : Set ArrayId}
  {workspace workspace' : Workspace σ} {id : ArrayId}

structure Alike (rename : ArrayId → ArrayId) (among : Set ArrayId) (workspace workspace' : Workspace σ) : Prop where
  heap : Heap.Alike rename among workspace.heap workspace'.heap
  storage : workspace'.storage = workspace.storage

theorem assignSlot_agrees (member : id ∈ among) (alike : Alike rename among workspace workspace') :
    Agrees (Alike rename among) (assignSlot id workspace) (assignSlot (rename id) workspace') := by
  obtain ⟨heap, storage, journal⟩ := workspace
  obtain ⟨heap', storage', journal'⟩ := workspace'
  obtain ⟨alike, same⟩ := alike
  cases same
  have there : heap'.find (rename id) = LiveArray.map rename <$> heap.find id := alike.find member
  simp only [assignSlot, Bind.bind, EStateM.bind, query, there]
  cases heap.find id with
  | error fault => exact ⟨rfl, alike, rfl⟩
  | ok array =>
    cases array with
    | fresh contents dirty =>
      have next := alike.change member (LiveArray.contents?_bind (Storage.allocate storage).1)
        (fun array => LiveArray.bind_map rename array (Storage.allocate storage).1)
        (fun other => arrays_bind heap id other (Storage.allocate storage).1)
        (fun other => arrays_bind heap' (rename id) other (Storage.allocate storage).1)
      exact ⟨rfl, next, rfl⟩
    | named | loaded => exact ⟨rfl, alike, rfl⟩

theorem save_agrees (member : id ∈ among) (alike : Alike rename among workspace workspace') :
    Agrees (Alike rename among) (save id workspace) (save (rename id) workspace') := by
  obtain ⟨heap, storage, journal⟩ := workspace
  obtain ⟨heap', storage', journal'⟩ := workspace'
  obtain ⟨alike, same⟩ := alike
  cases same
  have there : heap'.record (rename id) = heap.record id := alike.record member
  cases found : heap.record id with
  | error fault =>
    rw [found] at there
    simp only [save, Bind.bind, EStateM.bind, query, found, there]
    exact ⟨rfl, alike, rfl⟩
  | ok write =>
    rw [save_eq found, save_eq (there.trans found)]
    cases Storage.write write.1 write.2 storage with
    | error fault refusing => exact ⟨rfl, alike, rfl⟩
    | ok _ next =>
      have cleaned := alike.change member LiveArray.contents?_clean (LiveArray.clean_map rename)
        (fun other => arrays_update heap id other .clean) fun other => arrays_update heap' (rename id) other .clean
      exact ⟨rfl, cleaned, rfl⟩

omit [Storage σ] in
theorem rootSlots_agrees {roots : List ArrayId} (known : ∀ root ∈ roots, root ∈ among)
    (alike : Alike rename among workspace workspace') :
    Agrees (Alike rename among)
      (query (fun heap => roots.mapM fun root => Link.slot <$> heap.link root) workspace)
      (query (fun heap => (roots.map rename).mapM fun root => Link.slot <$> heap.link root) workspace') := by
  have same : (roots.map rename).mapM (fun root => Link.slot <$> workspace'.heap.link root) =
      roots.mapM fun root => Link.slot <$> workspace.heap.link root := by
    induction roots with
    | nil => rfl
    | cons root roots ih =>
      rw [List.map_cons, List.mapM_cons, List.mapM_cons, alike.heap.link (known root List.mem_cons_self),
        ih fun other member => known other (List.mem_cons_of_mem _ member)]
  simp only [query, same]
  cases roots.mapM fun root => Link.slot <$> workspace.heap.link root <;> exact ⟨rfl, alike⟩

theorem persist_agrees {roots : List ArrayId} (known : ∀ root ∈ roots, root ∈ among)
    (alike : Alike rename among workspace workspace') :
    Agrees (Alike rename among) (persist roots workspace) (persist (roots.map rename) workspace') := by
  have entered : ∀ id ∈ (workspace.heap.walk roots).order, id ∈ among :=
    walkOn_order alike.heap.closed Marks.none [] 0 roots (fun _ member => by cases member) known
  have pending : (workspace'.heap.walk (roots.map rename)).order.filter workspace'.heap.needsWriting =
      ((workspace.heap.walk roots).order.filter workspace.heap.needsWriting).map rename := by
    rw [walk_map alike.heap known, Tour.map, List.filter_map]
    exact congrArg _ (List.filter_congr fun id member => alike.heap.needsWriting (entered id member))
  rw [persist_eq_walk, persist_eq_walk, pending, walk_map alike.heap known, List.length_map, Tour.map]
  refine Agrees.bind (Agrees.forM_map _ (fun id member _ _ kept => assignSlot_agrees (entered id member) kept) alike) ?_
  intro _ assigned assigned' kept
  cases (workspace.heap.walk roots).fault? with
  | some fault => exact ⟨rfl, kept⟩
  | none =>
    refine Agrees.bind (Agrees.forM_map _ (fun id member _ _ kept =>
      save_agrees (entered id (List.mem_of_mem_filter member)) kept) kept) ?_
    intro _ saved saved' kept
    refine Agrees.bind (rootSlots_agrees known kept) ?_
    intro slots last last' kept
    exact ⟨rfl, kept⟩

/-- What a commit writes and answers depends on the shape of the graph that the roots lead to, and not on
    which ids its arrays have, on arrays around it, or on what is indexed. -/
theorem persist_renamed {roots : List ArrayId} {heap heap' : Heap}
    (injective : Set.InjOn rename {id | heap.Reaches roots id})
    (same : ∀ id, heap.Reaches roots id → heap'.arrays[rename id]? = heap.arrays[id]?.map (LiveArray.map rename))
    (storage : σ) (journal journal' : Journal) :
    Agrees (fun after after' => after.storage = after'.storage)
      (persist roots ⟨heap, storage, journal⟩) (persist (roots.map rename) ⟨heap', storage, journal'⟩) := by
  have alike : Alike rename {id | heap.Reaches roots id} ⟨heap, storage, journal⟩ ⟨heap', storage, journal'⟩ :=
    ⟨⟨injective, fun _ reaches _ member => .target reaches member, same⟩, rfl⟩
  exact (persist_agrees (fun _ => .root) alike).imp fun _ _ kept => kept.storage.symm

def ring : Heap :=
  ⟨#[.fresh (.references #[some 1, none, some 0]) true, .fresh (.scalars .int #[5]) false], ∅⟩

def ringScattered : Heap :=
  ⟨#[.fresh (.references #[some 3, some 9]) true, .fresh (.scalars .int #[5]) false, .named .reference ⟨4⟩,
    .fresh (.references #[some 1, none, some 3]) true], ∅⟩

def scatter (id : ArrayId) : ArrayId :=
  if id = 0 then 3 else id

def rationed (heap : Heap) : Workspace (Rationed Memory) :=
  ⟨heap, ⟨Memory.empty, some ⟨1, .outOfEnergy⟩⟩, #[]⟩

theorem ring_renamed : ∃ fault after after', persist [0] (rationed ring) = .error fault after ∧
    persist [3] (rationed ringScattered) = .error fault after' ∧ after.storage = after'.storage := by
  have reached : ∀ {id}, ring.Reaches [0] id → id ∈ [0, 1] :=
    fun reaches => reaches.mem (by decide) (by decide)
  have injective : Set.InjOn scatter {id | ring.Reaches [0] id} := by
    have distinct : ∀ id ∈ [0, 1], ∀ id' ∈ [0, 1], scatter id = scatter id' → id = id' := by decide
    exact fun id reaches id' reaches' => distinct id (reached reaches) id' (reached reaches')
  have each : ∀ id ∈ [0, 1],
      ringScattered.arrays[scatter id]? = ring.arrays[id]?.map (LiveArray.map scatter) := by
    decide +kernel
  have agrees : Agrees _ (persist [0] (rationed ring)) (persist [3] (rationed ringScattered)) :=
    persist_renamed injective (fun id reaches => each id (reached reaches)) _ #[] #[]
  have ran : Ends (persist [0] (rationed ring)) (fun _ _ => False) fun _ _ => True := by decide +kernel
  obtain ⟨fault, after, failed, _⟩ := ran.exists_error fun _ _ => not_false
  obtain ⟨after', failed', storage⟩ := agrees.error failed
  exact ⟨fault, after, after', failed, failed', storage⟩

end MeteredArrays.Workspace
