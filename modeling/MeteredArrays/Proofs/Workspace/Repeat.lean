import MeteredArrays.Proofs.Invocation.SlotIdentity
import MeteredArrays.Proofs.Storage.Atomicity

namespace MeteredArrays

namespace Workspace

open Heap

variable {σ τ : Type} [Storage σ] [Storage τ] {before middle : Workspace σ} {again : Workspace τ}
  {roots : List ArrayId} {fault : Fault}

theorem assigned_of_unbound_nil (none : again.heap.unbound roots = []) : again.assigned roots = again.heap := by
  rw [assigned, grants, none]
  rfl

theorem assigned_loaded (wf : before.heap.WellFormed) (inside : ∀ root ∈ roots, root < before.heap.size)
    {id : ArrayId} (reaches : before.heap.Reaches roots id) {array : LiveArray} {contents : Contents ArrayId}
    (here : before.heap.arrays[id]? = some array) (held : array.contents? = some contents) :
    ∃ slot, (before.assigned roots).arrays[id]? = some (.loaded slot contents array.isDirty) ∧
      (array.isBound = false → (id, slot) ∈ before.grants roots) := by
  exact assigned_visited (walk_complete wf inside) reaches here held

theorem unbound_assigned (wf : before.heap.WellFormed) (inside : ∀ root ∈ roots, root < before.heap.size)
    (wf' : (before.assigned roots).WellFormed) (ids : List ArrayId) :
    (cleanAll ids (before.assigned roots)).unbound roots = [] := by
  have inside' : ∀ root ∈ roots, root < (cleanAll ids (before.assigned roots)).size := by
    rw [size_cleanAll, assigned, size_bindAll]
    exact inside
  apply List.eq_nil_iff_forall_not_mem.mpr
  intro id member
  obtain ⟨reaches, fresh⟩ := (mem_unbound (wf'.cleanAll ids) inside' id).mp member
  obtain ⟨contents, dirty, there⟩ := isFresh_iff.mp fresh
  have same := assigned_contents?_eq wf inside ids id
  rw [there] at same
  obtain ⟨array, here, held⟩ := Option.bind_eq_some_iff.mp same.symm
  obtain ⟨slot, now, _⟩ := assigned_loaded wf inside ((assigned_reaches_iff wf inside ids id).mp reaches) here held
  cases there.symm.trans (cleanAll_loaded now ids)

/-- A commit to arrays that all have slots writes those that are changed, and leaves the records of the others. -/
theorem persist_settled [FaithfulStorage τ] (wf : again.heap.WellFormed)
    (inside : ∀ root ∈ roots, root < again.heap.size) (settled : again.heap.unbound roots = [])
    (accepting : Storage.Accepting again.storage) :
    ∃ persisted after, persist roots again = .ok persisted after ∧ after.heap.link = again.heap.link ∧
      ∀ {id : ArrayId} {slot : Slot} {contents : Contents ArrayId} {dirty : Bool}, again.heap.Reaches roots id →
        again.heap.arrays[id]? = some (.loaded slot contents dirty) →
        after.heap.arrays[id]? = some (.loaded slot contents false) ∧
          (dirty = true → after.heap.Saved (Storage.read after.storage) slot contents) ∧
          (dirty = false → Storage.read after.storage slot = Storage.read again.storage slot) := by
  obtain ⟨persisted, after, done, commits, _⟩ := (persist_ends wf inside).exists_ok fun _ _ failed => by
    obtain ⟨_, refused, _⟩ := failed
    exact (accepting.reserve _).not_refused refused
  obtain ⟨writes, all, stored⟩ := commits.read_eq
  have links := commits.link_eq
  have cleaned := commits.heap
  rw [assigned_of_unbound_nil settled] at links cleaned all
  refine ⟨persisted, after, done, links, ?_⟩
  intro id slot contents dirty reaches here
  have pending : id ∈ again.heap.pending roots ↔ dirty = true := by
    rw [mem_pending wf inside, and_iff_right reaches, needsWriting, here]
    rfl
  have last := cleanAll_loaded here (again.heap.pending roots)
  rw [← cleaned] at last
  rw [stored]
  cases dirty with
  | true =>
    have member := pending.mpr rfl
    rw [if_pos member] at last
    have nodup : (again.heap.pending roots).Nodup := (walk_complete wf inside).nodup.filter _
    have saved : after.heap.Saved (overwrite writes (Storage.read again.storage)) slot contents := by
      rw [saved_congr links rfl]
      exact saved_of_written (wf.unshared.nodup_slots nodup all) all member here (wf.within here rfl).short
    exact ⟨last, fun _ => saved, fun clean => absurd clean.symm Bool.false_ne_true⟩
  | false =>
    have absent : id ∉ again.heap.pending roots := fun member => absurd (pending.mp member) Bool.false_ne_true
    rw [if_neg absent] at last
    exact ⟨last, fun changed => absurd changed Bool.false_ne_true,
      fun _ => wf.unshared.read_of_unwritten all absent here⟩

theorem read_refused [AtomicStorage σ] (wf : before.heap.WellFormed)
    (inside : ∀ root ∈ roots, root < before.heap.size) (wf' : (before.assigned roots).WellFormed) {accepted : Nat}
    (refused : Storage.Refused accepted (before.writes roots)
      (Storage.reserve (before.heap.unbound roots).length before.storage) fault middle.storage)
    {id : ArrayId} {slot : Slot} {contents : Contents ArrayId} {dirty : Bool}
    (here : (before.assigned roots).arrays[id]? = some (.loaded slot contents dirty)) :
    (id ∈ (before.heap.pending roots).take accepted →
      (before.assigned roots).Saved (Storage.read middle.storage) slot contents) ∧
    (id ∉ (before.heap.pending roots).take accepted →
      Storage.read middle.storage slot = Storage.read before.storage slot) := by
  have left : Storage.read middle.storage =
      overwrite ((before.writes roots).take accepted) (Storage.read before.storage) := by
    rw [refused.read, funext (Storage.read_reserve _ before.storage)]
  have all := List.forall₂_take accepted (records_writes wf inside)
  rw [left]
  constructor
  · intro taken
    have nodup : ((before.heap.pending roots).take accepted).Nodup :=
      ((walk_complete wf inside).nodup.filter _).sublist (List.take_sublist _ _)
    exact saved_of_written (wf'.unshared.nodup_slots nodup all) all taken here (wf'.within here rfl).short
  · intro absent
    exact wf'.unshared.read_of_unwritten all absent here

/-- A commit that failed can be repeated, but that does not make up for all that was missed. An array that was
    changed counts as changed until its record is written. A fresh one counts as saved once it has its slot: it has
    a record in the end only if the first commit came to write it, or if its elements were changed since it was
    made. -/
theorem persist_again_saved_iff [AtomicStorage σ] [FaithfulStorage τ] (wf : before.heap.WellFormed)
    (inside : ∀ root ∈ roots, root < before.heap.size)
    (supplies : Storage.Supplies (before.heap.unbound roots).length before.storage)
    (unknown : ∀ slot ∈ Storage.handouts (before.heap.unbound roots).length before.storage,
      before.heap.bound? slot = none)
    (failed : persist roots before = .error fault middle) (heap : again.heap = middle.heap)
    (reads : ∀ slot, Storage.read again.storage slot = Storage.read middle.storage slot)
    (accepting : Storage.Accepting again.storage) :
    ∃ accepted persisted after,
      Storage.Refused accepted (before.writes roots)
        (Storage.reserve (before.heap.unbound roots).length before.storage) fault middle.storage ∧
      persist roots again = .ok persisted after ∧
      ∀ {id : ArrayId} {array : LiveArray} {contents : Contents ArrayId}, before.heap.Reaches roots id →
        before.heap.arrays[id]? = some array → array.contents? = some contents → array.needsWriting = true →
        ∃ slot, after.heap.arrays[id]? = some (.loaded slot contents false) ∧
          (after.heap.Saved (Storage.read after.storage) slot contents ↔
            array.isDirty = true ∨ id ∈ (before.heap.pending roots).take accepted) := by
  have wf' := assigned_wellFormed wf inside ⟨supplies.nodup, unknown⟩
  obtain ⟨accepted, refused, left, _⟩ := (persist_ends wf inside).error failed
  have same : again.heap = cleanAll ((before.heap.pending roots).take accepted) (before.assigned roots) :=
    heap.trans left
  obtain ⟨persisted, after, done, links, ended⟩ : ∃ persisted after, persist roots again = .ok persisted after ∧ _ := by
    apply persist_settled _ _ _ accepting <;> rw [same]
    · exact wf'.cleanAll _
    · rw [size_cleanAll, assigned, size_bindAll]
      exact inside
    · exact unbound_assigned wf inside wf' _
  refine ⟨accepted, persisted, after, refused, done, ?_⟩
  intro id array contents reaches here held needs
  obtain ⟨slot, now, granted⟩ := assigned_loaded wf inside reaches here held
  obtain ⟨accepted_saved, refused_read⟩ := read_refused wf inside wf' refused now
  have there := cleanAll_loaded now ((before.heap.pending roots).take accepted)
  rw [← same] at there
  have reaches' : again.heap.Reaches roots id := by
    rw [same]
    exact (assigned_reaches_iff wf inside _ id).mpr reaches
  obtain ⟨last, rewritten, unwritten⟩ := ended reaches' there
  refine ⟨slot, last, ?_⟩
  by_cases taken : id ∈ (before.heap.pending roots).take accepted
  · have read := (unwritten (if_pos taken)).trans (reads slot)
    have linked : after.heap.link = (before.assigned roots).link := by rw [links, same, link_cleanAll]
    exact iff_of_true ((saved_congr linked read).mpr (accepted_saved taken)) (Or.inr taken)
  · rw [if_neg taken] at rewritten unwritten
    cases dirty : array.isDirty with
    | true => exact iff_of_true (rewritten dirty) (Or.inl rfl)
    | false =>
      have unbound : array.isBound = false := by
        cases array with
        | fresh => rfl
        | named => cases held
        | loaded => cases needs.symm.trans dirty
      have absent : Storage.read after.storage slot = none := by
        rw [unwritten dirty, reads, refused_read taken]
        exact supplies.unrecorded slot (granted_slot (granted unbound))
      apply iff_of_false
      · intro saved
        obtain ⟨record, _, recorded, _⟩ := saved
        cases absent.symm.trans recorded
      · exact not_or.mpr ⟨Bool.false_ne_true, taken⟩

def scarce : Workspace (Rationed Memory) where
  heap := ((empty.insert (.fresh (.scalars .int #[5]) false)).2.insert (.fresh (.references #[some 0]) true)).2
  storage := ⟨Memory.empty, some ⟨1, .outOfEnergy⟩⟩
  journal := #[]

theorem wellFormed_scarce : scarce.heap.WellFormed := by
  have first : (empty.insert (.fresh (.scalars .int #[5]) false)).2.WellFormed :=
    wellFormed_empty.insert_fresh ⟨by decide, by decide⟩
  exact first.insert_fresh ⟨by decide, by decide⟩

def unrationed (workspace : Workspace (Rationed Memory)) : Workspace Memory :=
  ⟨workspace.heap, workspace.storage.backend, workspace.journal⟩

theorem scarce_again_lost : ∃ fault middle persisted after, persist [1] scarce = .error fault middle ∧
    persist [1] (unrationed middle) = .ok persisted after ∧
    ∃ slot, after.heap.arrays[0]? = some (.loaded slot (.scalars .int #[5]) false) ∧
      ¬ after.heap.Saved (Storage.read after.storage) slot (.scalars .int #[5]) := by
  have ran : Ends (persist [1] scarce) (fun _ _ => False) fun _ _ => True := by decide +kernel
  obtain ⟨fault, middle, failed, _⟩ := ran.exists_error fun _ _ => not_false
  have supplies : Storage.Supplies (scarce.heap.unbound [1]).length scarce.storage := by
    constructor <;> decide +kernel
  have same : (unrationed middle).heap = middle.heap := rfl
  obtain ⟨accepted, persisted, after, refused, done, ended⟩ :=
    persist_again_saved_iff wellFormed_scarce (by decide) supplies (by decide +kernel) failed same (fun _ => rfl)
      (Storage.accepting_of_reliable _)
  refine ⟨fault, middle, persisted, after, failed, done, ?_⟩
  have reaches : scarce.heap.Reaches [1] 0 := .target (.root List.mem_cons_self) (by decide)
  obtain ⟨slot, last, saved_iff⟩ := ended reaches rfl rfl rfl
  refine ⟨slot, last, fun saved => ?_⟩
  have writes : (scarce.writes [1]).length = 2 := by decide +kernel
  have few : accepted ≤ 1 := Nat.le_of_lt_succ (refused.take.1.trans_eq writes)
  have pending : scarce.heap.pending [1] = [1, 0] := by decide +kernel
  rw [pending] at saved_iff
  rcases saved_iff.mp saved with changed | taken
  · cases changed
  · cases List.mem_singleton.mp ((List.take_subset_take_left [1, 0] few) taken)

def stranded : Workspace (Rationed Memory) where
  heap := (empty.insert (.fresh (.scalars .int #[0]) false)).2
  storage := ⟨Memory.empty, some ⟨0, .outOfEnergy⟩⟩
  journal := #[]

/-- The commit that is repeated writes nothing and ends well, and the slot that it answers has no record. -/
theorem persist_again_strands : stranded.heap.WellFormed ∧ (∀ root ∈ [0], root < stranded.heap.size) ∧
    Storage.Supplies (stranded.heap.unbound [0]).length stranded.storage ∧
    (∀ slot ∈ Storage.handouts (stranded.heap.unbound [0]).length stranded.storage, stranded.heap.bound? slot = none) ∧
    stranded.heap.Reaches [0] 0 ∧ stranded.heap.arrays[0]? = some (.fresh (.scalars .int #[0]) false) ∧
    ∃ middle after, persist [0] stranded = .error .outOfEnergy middle ∧
      Storage.Accepting (unrationed middle).storage ∧ persist [0] (unrationed middle) = .ok ⟨[⟨0⟩], 0⟩ after ∧
      after.heap.arrays[0]? = some (.loaded ⟨0⟩ (.scalars .int #[0]) false) ∧
      Storage.read after.storage ⟨0⟩ = none := by
  have wf : stranded.heap.WellFormed := wellFormed_empty.insert_fresh ⟨by decide, by decide⟩
  have supplies : Storage.Supplies (stranded.heap.unbound [0]).length stranded.storage := by
    constructor <;> decide +kernel
  have reaches : stranded.heap.Reaches [0] 0 := .root List.mem_cons_self
  refine ⟨wf, by decide, supplies, by decide +kernel, reaches, rfl, ?_⟩
  have ran : Ends (persist [0] stranded) (fun _ _ => False) fun fault middle => fault = .outOfEnergy ∧
      Ends (persist [0] (unrationed middle)) (fun persisted after => persisted = ⟨[⟨0⟩], 0⟩ ∧
        after.heap.arrays[0]? = some (.loaded ⟨0⟩ (.scalars .int #[0]) false) ∧
        Storage.read after.storage ⟨0⟩ = none) fun _ _ => False := by
    decide +kernel
  obtain ⟨_, middle, failed, rfl, repeated⟩ := ran.exists_error fun _ _ => not_false
  obtain ⟨_, after, done, rfl, bound, unrecorded⟩ := repeated.exists_ok fun _ _ => not_false
  exact ⟨middle, after, failed, Storage.accepting_of_reliable _, done, bound, unrecorded⟩

end Workspace

end MeteredArrays
