import MeteredArrays.Proofs.Workspace.Loading
import MeteredArrays.Workspace.Commit

namespace MeteredArrays.Workspace

open Heap

variable {σ α β : Type}

/-- A computation that fails with `none` where one of its checks does. -/
abbrev CheckedWork (σ : Type) := EStateM (Option Fault) (Workspace σ)

def checked (body : Work σ α) : CheckedWork σ α := fun workspace =>
  match body workspace with
  | .ok answer workspace => .ok answer workspace
  | .error fault workspace => .error (some fault) workspace

def check (id : ArrayId) (expected : LiveArray → Bool) : CheckedWork σ Unit := fun workspace =>
  if workspace.heap.arrays[id]?.any expected then .ok () workspace else .error none workspace

theorem checked_bind {first : Work σ α} {next : α → Work σ β} {next' : α → CheckedWork σ β}
    {workspace : Workspace σ}
    (passes : ∀ answer after, first workspace = .ok answer after → next' answer after = checked (next answer) after) :
    (checked first >>= next') workspace = checked (first >>= next) workspace := by
  simp only [checked, Bind.bind, EStateM.bind]
  cases ran : first workspace with
  | ok answer after => exact passes answer after ran
  | error fault after => rfl

theorem checked_forM {step : α → Work σ PUnit} {step' : α → CheckedWork σ PUnit}
    (steps : ∀ elem, step' elem = checked (step elem)) (list : List α) :
    list.forM step' = checked (list.forM step) := by
  induction list with
  | nil => rfl
  | cons elem list ih =>
    funext workspace
    have rest : (checked (step elem) >>= fun _ => list.forM step') workspace =
        checked (step elem >>= fun _ => list.forM step) workspace := by
      apply checked_bind
      intro _ after _
      rw [ih]
    rw [← steps elem] at rest
    exact rest

theorem check_bind {id : ArrayId} {expected : LiveArray → Bool} {next : Unit → CheckedWork σ α}
    {workspace : Workspace σ} {array : LiveArray} (here : workspace.heap.arrays[id]? = some array)
    (passes : expected array = true) : (check id expected >>= next) workspace = next () workspace := by
  have passed : check id expected workspace = .ok () workspace := by
    rw [check, here]
    exact if_pos passes
  simp only [Bind.bind, EStateM.bind, passed]

variable [Storage σ]

def loadChecked (id : ArrayId) (kind : Kind) (slot : Slot) : CheckedWork σ Unit := do
  let some record ← checked (fetch slot) | throw (some (.storageCorruption .notFound))
  match Record.decode kind record with
  | .error why => throw (some (.storageCorruption why))
  | .ok links =>
    let contents ← checked (onHeap (links.traverse Heap.resolve))
    checked (tell (.materialized id slot contents.length))
    check id fun array => !array.isMaterialized
    checked (update id (.load contents))

def materializeChecked (id : ArrayId) : CheckedWork σ Unit := do
  match ← checked (query (·.find id)) with
  | .named kind slot => loadChecked id kind slot
  | _ => return

def assignSlotChecked (id : ArrayId) : CheckedWork σ Unit := do
  match ← checked (query (·.find id)) with
  | .fresh .. =>
    let slot ← checked allocate
    check id fun array => !array.isBound
    checked (onHeap (modify (Heap.bind id slot)))
  | _ => return

def persistChecked (roots : List ArrayId) : CheckedWork σ Persisted := do
  let heap := (← get).heap
  let tour := heap.walk roots
  let pending := tour.order.filter heap.needsWriting
  tour.order.forM assignSlotChecked
  if let some fault := tour.fault? then throw (some fault)
  checked (pending.forM save)
  let slots ← checked (query fun heap => roots.mapM fun root => Link.slot <$> heap.link root)
  return ⟨slots, pending.length⟩

variable {workspace : Workspace σ} {id : ArrayId}

theorem resolved_named {heap after : Heap} (wf : heap.WellFormed) {links : Contents Link}
    {contents : Contents ArrayId} {array : LiveArray} (here : heap.arrays[id]? = some array)
    (resolved : links.traverse resolve heap = .ok contents after) : after.arrays[id]? = some array := by
  have allows : heap.Allows fun _ => True := fun _ => trivial
  have permitted : ∀ link ∈ links.targets, (fun _ : Link => True) link := fun _ _ => trivial
  have ends := resolve_all (fun _ => none) @wf.indexed allows permitted
  rw [resolved] at ends
  exact ends.1.same here

theorem loadChecked_eq (wf : workspace.heap.WellFormed) {kind : Kind} {slot : Slot}
    (here : workspace.heap.arrays[id]? = some (.named kind slot)) :
    loadChecked id kind slot workspace = checked (load id kind slot) workspace := by
  unfold loadChecked load
  apply checked_bind
  intro found middle fetched
  cases fetched
  cases Storage.read workspace.storage slot with
  | none => rfl
  | some record =>
    cases decoded : Record.decode kind record with
    | error why =>
      simp only [decoded]
      rfl
    | ok links =>
      simp only [decoded]
      apply checked_bind
      intro contents opened resolved
      have still : opened.heap.arrays[id]? = some (.named kind slot) := by
        simp only [onHeap] at resolved
        cases result : links.traverse resolve workspace.heap with
        | error fault heap =>
          rw [result] at resolved
          cases resolved
        | ok contents heap =>
          rw [result] at resolved
          cases resolved
          exact resolved_named wf here result
      apply checked_bind
      intro _ told ran
      cases ran
      exact check_bind still rfl

theorem materializeChecked_eq (wf : workspace.heap.WellFormed) (id : ArrayId) :
    materializeChecked id workspace = checked (materialize id) workspace := by
  apply checked_bind
  intro array after found
  simp only [query] at found
  cases here : workspace.heap.find id with
  | error fault =>
    rw [here] at found
    cases found
  | ok array =>
    rw [here] at found
    cases found
    cases array with
    | named kind slot => exact loadChecked_eq wf (find_eq_ok.mp here)
    | fresh | loaded => rfl

theorem assignSlotChecked_eq (id : ArrayId) :
    (assignSlotChecked id : CheckedWork σ Unit) = checked (assignSlot id) := by
  funext workspace
  apply checked_bind
  intro array after found
  simp only [query] at found
  cases here : workspace.heap.find id with
  | error fault =>
    rw [here] at found
    cases found
  | ok array =>
    rw [here] at found
    cases found
    cases array with
    | named | loaded => rfl
    | fresh contents dirty =>
      apply checked_bind
      intro slot granted allocated
      cases allocated
      exact check_bind (find_eq_ok.mp here) rfl

/-- Whatever the graph, a commit gives no array a slot that has one. -/
theorem persistChecked_eq (roots : List ArrayId) :
    (persistChecked roots : CheckedWork σ Persisted) = checked (persist roots) := by
  funext workspace
  have looked : (checked (MonadState.get : Work σ (Workspace σ)) : CheckedWork σ (Workspace σ)) = MonadState.get := rfl
  unfold persistChecked persist
  rw [← looked]
  apply checked_bind
  intro before after same
  cases same
  have granted := checked_forM (assignSlotChecked_eq (σ := σ)) (workspace.heap.walk roots).order
  change ((workspace.heap.walk roots).order.forM assignSlotChecked >>= _) workspace = _
  rw [granted]
  apply checked_bind
  intro _ assigned _
  cases (workspace.heap.walk roots).fault? with
  | some fault => rfl
  | none =>
    apply checked_bind
    intro _ saved _
    apply checked_bind
    intro slots last _
    rfl

end MeteredArrays.Workspace
