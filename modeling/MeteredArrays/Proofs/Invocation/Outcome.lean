import MeteredArrays.Invocation.Call
import MeteredArrays.Proofs.Workspace.Loading

namespace MeteredArrays

namespace Call

def subject? : Call → Option ArrayId
  | .length id | .get id _ | .set id _ _ | .contents id | .clone id => some id
  | .create .. | .load .. | .replace .. | .addRoot _ | .abort => none

def required : Call → List ArrayId
  | .set _ _ value => value.target?.toList
  | .replace id new => id :: new.targets
  | .addRoot id => [id]
  | .create .. | .load .. | .length _ | .get .. | .contents _ | .clone _ | .abort => []

structure Checked (call : Call) (heap : Heap) : Prop where
  inside : ∀ id ∈ call.required, id < heap.size
  nonneg : ∀ id index value, call = .set id index value → ¬ index < 0

theorem checked_of_nil {call : Call} {heap : Heap} (nothing : call.required = [])
    (other : ∀ id index value, call ≠ .set id index value) : call.Checked heap := by
  refine ⟨fun id member => ?_, fun id index value same => absurd same (other id index value)⟩
  rw [nothing] at member
  cases member

inductive Shows (id : ArrayId) (contents : Contents ArrayId) : Call → Answer → Prop
  | length : Shows id contents (.length id) (.length contents.length)
  | get {index : Int32} {value : Value ArrayId} (nonneg : ¬ index < 0)
      (found : contents.get? index.toNatClampNeg = some value) : Shows id contents (.get id index) (.value value)
  | contents : Shows id contents (.contents id) (.contents contents)

inductive Balks (id : ArrayId) (contents : Contents ArrayId) : Call → Fault → Prop
  | outside {index : Int32} (outside : index < 0 ∨ contents.get? index.toNatClampNeg = none) :
      Balks id contents (.get id index) .invalidIndex
  | overlong (long : Record.maxLength < contents.length) : Balks id contents (.clone id) .arithmeticOverflow

theorem Shows.subject? {id : ArrayId} {contents : Contents ArrayId} {call : Call} {answer : Answer}
    (shown : Shows id contents call answer) : call.subject? = some id := by
  cases shown <;> rfl

theorem Balks.subject? {id : ArrayId} {contents : Contents ArrayId} {call : Call} {fault : Fault}
    (balks : Balks id contents call fault) : call.subject? = some id := by
  cases balks <;> rfl

end Call

namespace Invocation

open Heap

variable {σ α : Type}

def withWorkspace (invocation : Invocation σ) (workspace : Workspace σ) : Invocation σ :=
  { invocation with workspace }

def withHeap (invocation : Invocation σ) (heap : Heap) : Invocation σ :=
  invocation.withWorkspace { invocation.workspace with heap }

def withArray (invocation : Invocation σ) (contents : Contents ArrayId) (event : ArrayId → Event) : Invocation σ :=
  (invocation.withHeap (invocation.heap.insert (.fresh contents false)).2).announce (event invocation.heap.size)

def withTouched (invocation : Invocation σ) (id : ArrayId) : Invocation σ :=
  invocation.withHeap (invocation.heap.update id .touch)

def withRewritten (invocation : Invocation σ) (id : ArrayId) (change : Contents ArrayId → Contents ArrayId) :
    Invocation σ :=
  invocation.withHeap ((invocation.heap.update id .touch).update id (.mapContents change))

def withRoot (invocation : Invocation σ) (id : ArrayId) : Invocation σ :=
  { invocation with roots := invocation.roots.push id }

structure Peers (left right : Invocation σ) : Prop where
  heap : left.heap = right.heap
  storage : left.workspace.storage = right.workspace.storage
  roots : left.roots = right.roots
  exit : left.exit? = right.exit?

theorem peers_pay (operation : Metered) (invocation : Invocation σ) :
    Ends (pay operation invocation) (fun _ after => Peers invocation after) fun _ after => Peers invocation after := by
  simp only [pay]
  cases invocation.meter.record operation with
  | ok meter => exact ⟨rfl, rfl, rfl, rfl⟩
  | error fault => exact ⟨rfl, rfl, rfl, rfl⟩

inductive Rejects (before : Invocation σ) : Call → Fault → Prop
  | absent {call : Call} {id : ArrayId} (required : id ∈ call.required) (absent : before.heap.arrays[id]? = none) :
      Rejects before call .danglingReference
  | negativeIndex {id : ArrayId} {index : Int32} {value : Value ArrayId}
      (inside : ∀ target ∈ value.target?.toList, target < before.heap.size) (negative : index < 0) :
      Rejects before (.set id index value) .invalidIndex
  | clash {slot : Slot} {kind : Kind} {fault : Fault}
      (clashes : resolve ⟨kind, slot⟩ before.heap = .error fault before.heap) :
      Rejects before (.load slot kind) fault
  | unmaterialized {id : ArrayId} {new : Contents ArrayId} {kind : Kind} {slot : Slot}
      (checked : (Call.replace id new).Checked before.heap)
      (here : before.heap.arrays[id]? = some (.named kind slot)) : Rejects before (.replace id new) .notMaterialized
  | differs {id : ArrayId} {new current : Contents ArrayId} (checked : (Call.replace id new).Checked before.heap)
      (held : before.heap.held? id = some current)
      (differs : current.kind ≠ new.kind ∨ current.length ≠ new.length) :
      Rejects before (.replace id new) .invalidBackingStore

section

variable [Storage σ]

/-- Everything that a call can do if it succeeds, unless it calls the invocation off. -/
inductive Succeeds (before : Invocation σ) : Call → Answer → Invocation σ → Prop
  | create {length : Int32} {kind : Kind} {paid : Invocation σ}
      (pays : pay (.creation kind length) before = .ok () paid) (nonneg : ¬ length < 0) :
      Succeeds before (.create length kind) (.array paid.heap.size)
        (paid.withArray (.new kind length.toNatClampNeg) (.created · kind length))
  | load {slot : Slot} {kind : Kind} {id : ArrayId} {heap : Heap}
      (resolves : resolve ⟨kind, slot⟩ before.heap = .ok id heap) :
      Succeeds before (.load slot kind) (.array id) ((before.withHeap heap).announce (.named id slot kind))
  | look {call : Call} {answer : Answer} {id : ArrayId} {contents : Contents ArrayId} {opened : Workspace σ}
      (opens : before.workspace.Opens id contents opened) (shown : call.Shows id contents answer) :
      Succeeds before call answer (before.withWorkspace opened)
  | set {id : ArrayId} {index : Int32} {value : Value ArrayId} {contents : Contents ArrayId} {opened : Workspace σ}
      (checked : (Call.set id index value).Checked before.heap)
      (opens : before.workspace.Opens id contents opened)
      (fits : contents.refusal? index.toNatClampNeg value = none) :
      Succeeds before (.set id index value) .done
        ((before.withWorkspace opened).withRewritten id (.put index.toNatClampNeg value))
  | replace {id : ArrayId} {new current : Contents ArrayId} (checked : (Call.replace id new).Checked before.heap)
      (held : before.heap.held? id = some current) (kind : current.kind = new.kind)
      (length : current.length = new.length) :
      Succeeds before (.replace id new) .done (before.withRewritten id fun _ => new)
  | clone {id : ArrayId} {contents : Contents ArrayId} {opened : Workspace σ} {paid : Invocation σ}
      (opens : before.workspace.Opens id contents opened) (short : contents.length ≤ Record.maxLength)
      (pays : pay (.cloning (Int32.ofNat contents.length)) (before.withWorkspace opened) = .ok () paid) :
      Succeeds before (.clone id) (.array paid.heap.size) (paid.withArray contents (.cloned id))
  | addRoot {id : ArrayId} (checked : (Call.addRoot id).Checked before.heap) :
      Succeeds before (.addRoot id) .done (before.withRoot id)

/-- All the ways in which a call can fail in a running invocation, each with what it has done by then. -/
inductive Fails (before : Invocation σ) : Call → Fault → Invocation σ → Prop
  | early {call : Call} {fault : Fault} (rejects : Rejects before call fault) : Fails before call fault before
  | unread {call : Call} {id : ArrayId} {fault : Fault} {after : Workspace σ} (subject : call.subject? = some id)
      (checked : call.Checked before.heap)
      (failed : Workspace.materialize id before.workspace = .error fault after) :
      Fails before call fault (before.withWorkspace after)
  | look {call : Call} {fault : Fault} {id : ArrayId} {contents : Contents ArrayId} {opened : Workspace σ}
      (opens : before.workspace.Opens id contents opened) (balks : call.Balks id contents fault) :
      Fails before call fault (before.withWorkspace opened)
  | refused {id : ArrayId} {index : Int32} {value : Value ArrayId} {contents : Contents ArrayId} {fault : Fault}
      {opened : Workspace σ} (checked : (Call.set id index value).Checked before.heap)
      (opens : before.workspace.Opens id contents opened)
      (refused : contents.refusal? index.toNatClampNeg value = some fault) :
      Fails before (.set id index value) fault ((before.withWorkspace opened).withTouched id)
  | unpaidCreation {length : Int32} {kind : Kind} {fault : Fault} {after : Invocation σ}
      (refused : pay (.creation kind length) before = .error fault after) :
      Fails before (.create length kind) fault after
  | negativeLength {length : Int32} {kind : Kind} {paid : Invocation σ}
      (pays : pay (.creation kind length) before = .ok () paid) (negative : length < 0) :
      Fails before (.create length kind) .negativeLength paid
  | unpaidCopy {id : ArrayId} {contents : Contents ArrayId} {fault : Fault} {opened : Workspace σ}
      {after : Invocation σ} (opens : before.workspace.Opens id contents opened)
      (short : contents.length ≤ Record.maxLength)
      (refused : pay (.cloning (Int32.ofNat contents.length)) (before.withWorkspace opened) = .error fault after) :
      Fails before (.clone id) fault after

def HasOutcome (before : Invocation σ) (call : Call) : Prop :=
  (∃ answer after, Succeeds before call answer after) ∨ ∃ fault last, Fails before call fault last

end

variable {before after last : Invocation σ} {answer : α} {fault : Fault}

theorem perform_of_ok {body : Action σ α} (running : before.exit? = none) (ran : body before = .ok answer after) :
    perform body before = .ok answer after := by
  simp only [perform, running, ran]

theorem perform_of_error {body : Action σ α} (running : before.exit? = none)
    (failed : body before = .error fault last) : perform body before = .error fault (last.halt fault) := by
  simp only [perform, running, failed]

theorem perform_of_halted {body : Action σ α} (halted : before.exit? = some fault) :
    perform body before = .error fault before := by
  simp only [perform, halted]

section

-- The operations that are performed as a whole.
variable {β : Type} {body : Action σ α} {answered : α → β}

theorem answered_of_ok (running : before.exit? = none) (answer : α) (ran : body before = .ok answer after) :
    (answered <$> perform body) before = .ok (answered answer) after :=
  estate_map_eq_ok.mpr ⟨answer, perform_of_ok running ran, rfl⟩

theorem answered_of_error (running : before.exit? = none) (failed : body before = .error fault last) :
    (answered <$> perform body) before = .error fault (last.halt fault) :=
  estate_map_eq_error.mpr (perform_of_error running failed)

end

theorem work_of_ok {body : Work σ α} {workspace : Workspace σ} (ran : body before.workspace = .ok answer workspace) :
    work body before = .ok answer (before.withWorkspace workspace) := by
  simp only [work, ran, withWorkspace]

theorem work_of_error {body : Work σ α} {workspace : Workspace σ}
    (failed : body before.workspace = .error fault workspace) :
    work body before = .error fault (before.withWorkspace workspace) := by
  simp only [work, failed, withWorkspace]

theorem require_cons (id : ArrayId) (ids : List ArrayId) (before : Invocation σ) :
    require (id :: ids) before =
      match before.heap.arrays[id]? with
      | some _ => require ids before
      | none => .error .danglingReference before := by
  cases here : before.heap.arrays[id]? with
  | some array =>
    have found : Workspace.query (·.find id) before.workspace = .ok array before.workspace := by
      have found : before.workspace.heap.find id = .ok array := find_eq_ok.mpr here
      simp only [Workspace.query, found]
    exact estate_bind_of_ok (estate_map_eq_ok.mpr ⟨array, work_of_ok found, rfl⟩)
  | none =>
    have missing : Workspace.query (·.find id) before.workspace = .error .danglingReference before.workspace := by
      have missing : before.workspace.heap.find id = .error .danglingReference := find_of_none here
      simp only [Workspace.query, missing]
    exact estate_bind_of_error (estate_map_eq_error.mpr (work_of_error missing))

theorem require_of_inside {ids : List ArrayId} (inside : ∀ id ∈ ids, id < before.heap.size) :
    require ids before = .ok () before := by
  induction ids with
  | nil => rfl
  | cons id ids ih =>
    obtain ⟨array, here⟩ := exists_of_lt (inside id List.mem_cons_self)
    rw [require_cons, here]
    exact ih fun other member => inside other (List.mem_cons_of_mem _ member)

theorem require_of_absent {ids : List ArrayId} {id : ArrayId} (member : id ∈ ids)
    (absent : before.heap.arrays[id]? = none) : require ids before = .error .danglingReference before := by
  induction ids with
  | nil => cases member
  | cons other ids ih =>
    rw [require_cons]
    cases here : before.heap.arrays[other]? with
    | none => rfl
    | some array =>
      rcases List.mem_cons.mp member with rfl | member
      · cases here.symm.trans absent
      · exact ih member

theorem required_cases (heap : Heap) (ids : List ArrayId) :
    (∀ id ∈ ids, id < heap.size) ∨ ∃ id ∈ ids, heap.arrays[id]? = none := by
  by_cases inside : ∀ id ∈ ids, id < heap.size
  · exact Or.inl inside
  · obtain ⟨id, member, outside⟩ := not_forall₂.mp inside
    exact Or.inr ⟨id, member, Array.getElem?_eq_none_iff.mpr (Nat.not_lt.mp outside)⟩

theorem position_of_nonneg {index : Int32} (nonneg : ¬ index < 0) (before : Invocation σ) :
    position index before = .ok index.toNatClampNeg before := by
  rw [position, if_neg nonneg]
  rfl

theorem position_of_negative {index : Int32} (negative : index < 0) (before : Invocation σ) :
    position index before = .error .invalidIndex before := by
  rw [position, if_pos negative]
  rfl

section

variable [Storage σ] {call : Call} {answer : Answer}

theorem held?_touched {heap : Heap} {id : ArrayId} {contents : Contents ArrayId}
    (held : heap.held? id = some contents) : (heap.update id .touch).held? id = some contents := by
  obtain ⟨array, here, inMemory⟩ := held?_eq_some.mp held
  exact held?_eq_some.mpr ⟨_, arrays_update_self here, (LiveArray.contents?_touch array).trans inMemory⟩

theorem held?_rewritten {heap : Heap} {id : ArrayId} {current : Contents ArrayId}
    (held : heap.held? id = some current) (change : Contents ArrayId → Contents ArrayId) :
    ((heap.update id .touch).update id (.mapContents change)).held? id = some (change current) := by
  obtain ⟨array, here, inMemory⟩ := held?_eq_some.mp (held?_touched held)
  refine held?_eq_some.mpr ⟨_, arrays_update_self here, ?_⟩
  rw [LiveArray.contents?_mapContents, inMemory]
  rfl

theorem Succeeds.run (running : before.exit? = none) (succeeds : Succeeds before call answer after) :
    call.run before = .ok answer after := by
  cases succeeds with
  | create pays nonneg =>
    refine answered_of_ok running _ ?_
    refine (estate_bind_of_ok pays).trans ?_
    rw [if_neg nonneg]
    rfl
  | load resolves =>
    refine answered_of_ok running _ (work_of_ok ?_)
    exact estate_bind_of_ok (Workspace.onHeap_of_ok resolves)
  | look opens shown =>
    cases shown with
    | length =>
      refine answered_of_ok running _ (work_of_ok ?_)
      exact estate_map_eq_ok.mpr ⟨_, opens.access, rfl⟩
    | get nonneg found =>
      refine answered_of_ok running _ ?_
      refine (estate_bind_of_ok (work_of_ok opens.access)).trans ?_
      refine (estate_bind_of_ok (position_of_nonneg nonneg _)).trans ?_
      simp only [found]
      rfl
    | contents =>
      refine estate_map_eq_ok.mpr ⟨_, ?_, rfl⟩
      have read : discard (Workspace.access _) before.workspace = .ok () _ :=
        estate_map_eq_ok.mpr ⟨_, opens.access, rfl⟩
      refine (estate_bind_of_ok (perform_of_ok running (work_of_ok read))).trans ?_
      exact work_of_ok (Workspace.contents_of_held? opens.held)
  | set checked opens fits =>
    refine answered_of_ok running () ?_
    refine (estate_bind_of_ok (require_of_inside checked.inside)).trans ?_
    refine (estate_bind_of_ok (position_of_nonneg (checked.nonneg _ _ _ rfl) _)).trans (work_of_ok ?_)
    refine (estate_bind_of_ok opens.read).trans ((estate_bind_of_ok (Workspace.update_eq _ _ _)).trans ?_)
    refine (estate_bind_of_ok (Workspace.contents_of_held? (held?_touched opens.held))).trans ?_
    simp only [fits]
    rfl
  | replace checked held kind length =>
    refine answered_of_ok running () ?_
    have targets := fun target member => checked.inside target (List.mem_cons_of_mem _ member)
    refine (estate_bind_of_ok (require_of_inside targets)).trans (work_of_ok ?_)
    refine (estate_bind_of_ok (Workspace.contents_of_held? held)).trans ?_
    rw [if_neg (not_or.mpr ⟨not_not.mpr kind, not_not.mpr length⟩)]
    rfl
  | clone opens short pays =>
    refine answered_of_ok running _ ?_
    refine (estate_bind_of_ok (work_of_ok opens.access)).trans ?_
    rw [if_neg (Nat.not_lt.mpr short)]
    exact estate_bind_of_ok pays
  | addRoot checked =>
    refine answered_of_ok running () ?_
    exact estate_bind_of_ok (require_of_inside checked.inside)

theorem Succeeds.exit (succeeds : Succeeds before call answer after) : after.exit? = before.exit? := by
  cases succeeds with
  | create pays => exact ((peers_pay _ _).ok pays).exit.symm
  | clone opens short pays => exact ((peers_pay _ _).ok pays).exit.symm
  | load | look | set | replace | addRoot => rfl

theorem Succeeds.inMemory (succeeds : Succeeds before call answer after) {id : ArrayId}
    (subject : call.subject? = some id) : after.heap.InMemory id := by
  cases succeeds with
  | create | load | replace | addRoot => cases subject
  | look opens shown =>
    cases shown.subject?.symm.trans subject
    exact inMemory_iff.mpr ⟨_, opens.held⟩
  | set checked opens fits =>
    cases subject
    exact inMemory_iff.mpr ⟨_, held?_rewritten opens.held _⟩
  | @clone _ contents opened paid opens short pays =>
    cases subject
    have same : opened.heap = paid.heap := ((peers_pay _ _).ok pays).heap
    obtain ⟨array, here, inMemory⟩ := held?_eq_some.mp (same ▸ opens.held)
    exact ⟨array, contents, arrays_insert_of_some here _, inMemory⟩

theorem Rejects.run (running : before.exit? = none) (rejects : Rejects before call fault) :
    call.run before = .error fault (before.halt fault) := by
  cases rejects with
  | absent required absent =>
    cases call with
    | create | load | length | get | contents | clone | abort => cases required
    | set id index value =>
      refine answered_of_error running ?_
      exact estate_bind_of_error (require_of_absent required absent)
    | addRoot id =>
      refine answered_of_error running ?_
      exact estate_bind_of_error (require_of_absent required absent)
    | replace id new =>
      refine answered_of_error running ?_
      -- The array itself is looked for after those that its new contents refer to.
      rcases required_cases before.heap new.targets with inside | ⟨other, member, missing⟩
      · rcases List.mem_cons.mp required with rfl | member
        · refine (estate_bind_of_ok (require_of_inside inside)).trans (work_of_error ?_)
          exact estate_bind_of_error (Workspace.contents_of_absent absent)
        · obtain ⟨array, here⟩ := exists_of_lt (inside _ member)
          cases here.symm.trans absent
      · exact estate_bind_of_error (require_of_absent member missing)
  | negativeIndex inside negative =>
    refine answered_of_error running ?_
    refine (estate_bind_of_ok (require_of_inside inside)).trans ?_
    exact estate_bind_of_error (position_of_negative negative _)
  | clash clashes =>
    refine answered_of_error running ?_
    exact work_of_error (estate_bind_of_error (Workspace.onHeap_of_error clashes))
  | unmaterialized checked here =>
    refine answered_of_error running ?_
    have targets := fun target member => checked.inside target (List.mem_cons_of_mem _ member)
    refine (estate_bind_of_ok (require_of_inside targets)).trans (work_of_error ?_)
    exact estate_bind_of_error (Workspace.contents_of_named here)
  | differs checked held differs =>
    refine answered_of_error running ?_
    have targets := fun target member => checked.inside target (List.mem_cons_of_mem _ member)
    refine (estate_bind_of_ok (require_of_inside targets)).trans (work_of_error ?_)
    refine (estate_bind_of_ok (Workspace.contents_of_held? held)).trans ?_
    rw [if_pos differs]
    rfl

theorem Fails.run (running : before.exit? = none) (fails : Fails before call fault last) :
    call.run before = .error fault (last.halt fault) := by
  cases fails with
  | early rejects => exact rejects.run running
  | @unread _ id _ _ subject checked failed =>
    have unread : Workspace.access id before.workspace = .error fault _ := estate_bind_of_error failed
    cases call with
    | create | load | replace | addRoot | abort => cases subject
    | length =>
      cases subject
      refine answered_of_error running (work_of_error ?_)
      exact estate_map_eq_error.mpr unread
    | get =>
      cases subject
      refine answered_of_error running ?_
      exact estate_bind_of_error (work_of_error unread)
    | contents =>
      cases subject
      have unread : discard (Workspace.access id) before.workspace = .error fault _ := estate_map_eq_error.mpr unread
      exact estate_map_eq_error.mpr (estate_bind_of_error (perform_of_error running (work_of_error unread)))
    | set =>
      cases subject
      refine answered_of_error running ?_
      refine (estate_bind_of_ok (require_of_inside checked.inside)).trans ?_
      refine (estate_bind_of_ok (position_of_nonneg (checked.nonneg _ _ _ rfl) _)).trans (work_of_error ?_)
      exact estate_bind_of_error failed
    | clone =>
      cases subject
      refine answered_of_error running ?_
      exact estate_bind_of_error (work_of_error unread)
  | look opens balks =>
    cases balks with
    | @outside index outside =>
      refine answered_of_error running ?_
      refine (estate_bind_of_ok (work_of_ok opens.access)).trans ?_
      by_cases negative : index < 0
      · exact estate_bind_of_error (position_of_negative negative _)
      · refine (estate_bind_of_ok (position_of_nonneg negative _)).trans ?_
        simp only [outside.resolve_left negative]
        rfl
    | overlong long =>
      refine answered_of_error running ?_
      refine (estate_bind_of_ok (work_of_ok opens.access)).trans ?_
      rw [if_pos long]
      rfl
  | refused checked opens refused =>
    refine answered_of_error running ?_
    refine (estate_bind_of_ok (require_of_inside checked.inside)).trans ?_
    refine (estate_bind_of_ok (position_of_nonneg (checked.nonneg _ _ _ rfl) _)).trans (work_of_error ?_)
    refine (estate_bind_of_ok opens.read).trans ((estate_bind_of_ok (Workspace.update_eq _ _ _)).trans ?_)
    refine (estate_bind_of_ok (Workspace.contents_of_held? (held?_touched opens.held))).trans ?_
    simp only [refused]
    rfl
  | unpaidCreation refused =>
    refine answered_of_error running ?_
    exact estate_bind_of_error refused
  | negativeLength pays negative =>
    refine answered_of_error running ?_
    refine (estate_bind_of_ok pays).trans ?_
    rw [if_pos negative]
    rfl
  | unpaidCopy opens short refused =>
    refine answered_of_error running ?_
    refine (estate_bind_of_ok (work_of_ok opens.access)).trans ?_
    rw [if_neg (Nat.not_lt.mpr short)]
    exact estate_bind_of_error refused

theorem hasOutcome_of_inside
    (onInside : (∀ id ∈ call.required, id < before.heap.size) → HasOutcome before call) : HasOutcome before call := by
  rcases required_cases before.heap call.required with inside | ⟨id, required, absent⟩
  · exact onInside inside
  · exact Or.inr ⟨_, _, .early (.absent required absent)⟩

theorem hasOutcome_of_opens {id : ArrayId} (subject : call.subject? = some id) (checked : call.Checked before.heap)
    (onOpens : ∀ contents opened, before.workspace.Opens id contents opened → HasOutcome before call) :
    HasOutcome before call := by
  rcases Workspace.opens_or_fails id before.workspace with ⟨contents, opened, opens⟩ | ⟨fault, after, failed⟩
  · exact onOpens contents opened opens
  · exact Or.inr ⟨fault, _, .unread subject checked failed⟩

theorem hasOutcome (before : Invocation σ) {call : Call} (other : call ≠ .abort) : HasOutcome before call := by
  cases call with
  | abort => exact absurd rfl other
  | create length kind =>
    cases pays : pay (.creation kind length) before with
    | error fault after => exact Or.inr ⟨_, _, .unpaidCreation pays⟩
    | ok _ paid =>
      by_cases negative : length < 0
      · exact Or.inr ⟨_, _, .negativeLength pays negative⟩
      · exact Or.inl ⟨_, _, .create pays negative⟩
  | load slot kind =>
    cases resolves : resolve ⟨kind, slot⟩ before.heap with
    | ok id heap => exact Or.inl ⟨_, _, .load resolves⟩
    | error fault heap =>
      cases resolve_error resolves
      exact Or.inr ⟨_, _, .early (.clash resolves)⟩
  | length id =>
    refine hasOutcome_of_opens rfl (Call.checked_of_nil rfl nofun) ?_
    intro contents opened opens
    exact Or.inl ⟨_, _, .look opens .length⟩
  | contents id =>
    refine hasOutcome_of_opens rfl (Call.checked_of_nil rfl nofun) ?_
    intro contents opened opens
    exact Or.inl ⟨_, _, .look opens .contents⟩
  | get id index =>
    refine hasOutcome_of_opens rfl (Call.checked_of_nil rfl nofun) ?_
    intro contents opened opens
    by_cases negative : index < 0
    · exact Or.inr ⟨_, _, .look opens (.outside (Or.inl negative))⟩
    · cases found : contents.get? index.toNatClampNeg with
      | none => exact Or.inr ⟨_, _, .look opens (.outside (Or.inr found))⟩
      | some value => exact Or.inl ⟨_, _, .look opens (.get negative found)⟩
  | clone id =>
    refine hasOutcome_of_opens rfl (Call.checked_of_nil rfl nofun) ?_
    intro contents opened opens
    by_cases short : contents.length ≤ Record.maxLength
    · cases pays : pay (.cloning (Int32.ofNat contents.length)) (before.withWorkspace opened) with
      | error fault after => exact Or.inr ⟨_, _, .unpaidCopy opens short pays⟩
      | ok _ paid => exact Or.inl ⟨_, _, .clone opens short pays⟩
    · exact Or.inr ⟨_, _, .look opens (.overlong (Nat.not_le.mp short))⟩
  | set id index value =>
    apply hasOutcome_of_inside
    intro inside
    by_cases negative : index < 0
    · exact Or.inr ⟨_, _, .early (.negativeIndex inside negative)⟩
    · have checked : (Call.set id index value).Checked before.heap := by
        refine ⟨inside, fun _ _ _ same => ?_⟩
        cases same
        exact negative
      apply hasOutcome_of_opens rfl checked
      intro contents opened opens
      cases refused : contents.refusal? index.toNatClampNeg value with
      | some fault => exact Or.inr ⟨_, _, .refused checked opens refused⟩
      | none => exact Or.inl ⟨_, _, .set checked opens refused⟩
  | replace id new =>
    apply hasOutcome_of_inside
    intro inside
    have checked : (Call.replace id new).Checked before.heap := ⟨inside, nofun⟩
    obtain ⟨array, here⟩ := exists_of_lt (inside id List.mem_cons_self)
    cases inMemory : array.contents? with
    | none =>
      obtain ⟨kind, slot, rfl⟩ := LiveArray.eq_named_of_contents? inMemory
      exact Or.inr ⟨_, _, .early (.unmaterialized checked here)⟩
    | some current =>
      have held : before.heap.held? id = some current := held?_eq_some.mpr ⟨array, here, inMemory⟩
      by_cases differs : current.kind ≠ new.kind ∨ current.length ≠ new.length
      · exact Or.inr ⟨_, _, .early (.differs checked held differs)⟩
      · obtain ⟨kind, length⟩ := not_or.mp differs
        exact Or.inl ⟨_, _, .replace checked held (not_not.mp kind) (not_not.mp length)⟩
  | addRoot id =>
    apply hasOutcome_of_inside
    intro inside
    exact Or.inl ⟨_, _, .addRoot ⟨inside, nofun⟩⟩

theorem run_of_halted (halted : before.exit? = some fault) (other : call ≠ .abort) :
    call.run before = .error fault before := by
  cases call with
  | abort => exact absurd rfl other
  | contents id => exact estate_map_eq_error.mpr (estate_bind_of_error (perform_of_halted halted))
  | create | load | length | get | set | replace | clone | addRoot =>
    exact estate_map_eq_error.mpr (perform_of_halted halted)

theorem succeeds_of_run (other : call ≠ .abort) (ran : call.run before = .ok answer after) :
    before.exit? = none ∧ Succeeds before call answer after := by
  cases exit : before.exit? with
  | some fault => cases (run_of_halted exit other).symm.trans ran
  | none =>
    rcases hasOutcome before other with ⟨answer', after', succeeds⟩ | ⟨fault, last, fails⟩
    · cases (succeeds.run exit).symm.trans ran
      exact ⟨rfl, succeeds⟩
    · cases (fails.run exit).symm.trans ran

/-- What holds of every outcome of a call holds after it. -/
theorem run_cases {post : Answer → Invocation σ → Prop} {fail : Fault → Invocation σ → Prop}
    (halted : ∀ fault, before.exit? = some fault → call ≠ .abort → fail fault before)
    (aborts : call = .abort → post .done before.abort)
    (succeeds : ∀ answer after, before.exit? = none → Succeeds before call answer after → post answer after)
    (fails : ∀ fault last, before.exit? = none → Fails before call fault last → fail fault (last.halt fault)) :
    Ends (call.run before) post fail := by
  by_cases other : call = .abort
  · subst other
    exact aborts rfl
  cases exit : before.exit? with
  | some fault =>
    rw [run_of_halted exit other]
    exact halted fault exit other
  | none =>
    rcases hasOutcome before other with ⟨answer, after, outcome⟩ | ⟨fault, last, outcome⟩
    · rw [outcome.run exit]
      exact succeeds answer after exit outcome
    · rw [outcome.run exit]
      exact fails fault last exit outcome

end

end Invocation

end MeteredArrays
