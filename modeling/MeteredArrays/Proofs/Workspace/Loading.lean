import MeteredArrays.Proofs.Heap.Change
import MeteredArrays.Workspace.Loading

namespace MeteredArrays

namespace Heap

variable {read : Slot → Option Record} {allowed : Link → Prop}

structure Extends (read : Slot → Option Record) (allowed : Link → Prop) (heap after : Heap) : Prop where
  changes : Changes read allowed heap after
  same : ∀ {id : ArrayId} {array : LiveArray}, heap.arrays[id]? = some array → after.arrays[id]? = some array
  added : ∀ {id : ArrayId} {array : LiveArray}, heap.size ≤ id → after.arrays[id]? = some array →
    array.contents? = none

theorem Extends.refl (heap : Heap) : Extends read allowed heap heap where
  changes := .refl
  same := id
  added outside here := absurd (lt_size here) (Nat.not_lt.mpr outside)

theorem Extends.trans {first second third : Heap} (one : Extends read allowed first second)
    (two : Extends read allowed second third) : Extends read allowed first third where
  changes := one.changes.trans two.changes
  same here := two.same (one.same here)
  added {id array} outside here := by
    by_cases old : id < second.size
    · obtain ⟨before, was⟩ := exists_of_lt old
      rw [two.same was] at here
      cases here
      exact one.added outside was
    · exact two.added (Nat.not_lt.mp old) here

def OpensOnly (id : ArrayId) (heap after : Heap) : Prop :=
  ∀ {other : ArrayId} {array : LiveArray} {contents : Contents ArrayId}, after.arrays[other]? = some array →
    array.contents? = some contents →
      (other = id ∧ ∃ slot, array = .loaded slot contents false) ∨ heap.arrays[other]? = some array

theorem Extends.opensOnly_load {heap after : Heap} (ext : Extends read allowed heap after) {id : ArrayId}
    {kind : Kind} {slot : Slot} (still : after.arrays[id]? = some (.named kind slot))
    (contents : Contents ArrayId) : OpensOnly id heap (after.update id (.load contents)) := by
  intro other array held here inMemory
  by_cases same : other = id
  · subst other
    left
    rw [arrays_update_self still] at here
    cases here
    cases inMemory
    exact ⟨rfl, slot, rfl⟩
  · right
    rw [arrays_update, if_neg (Ne.symm same)] at here
    by_cases old : other < heap.size
    · obtain ⟨before, was⟩ := exists_of_lt old
      rw [ext.same was] at here
      rw [was, here]
    · rw [ext.added (Nat.not_lt.mp old) here] at inMemory
      cases inMemory

def Clash (allowed : Link → Prop) (links : List Link) (fault : Fault) : Prop :=
  fault = .storageCorruption .kindMismatch ∧
    ∃ link ∈ links, ∃ kind, kind ≠ link.kind ∧ allowed ⟨kind, link.slot⟩

theorem resolve_ends (read : Slot → Option Record) {heap : Heap} (indexed : heap.Indexed)
    (allows : heap.Allows allowed) {link : Link} (permitted : allowed link) :
    Ends (resolve link heap)
      (fun id after => Extends read allowed heap after ∧ after.link id = .ok link)
      (fun fault after => after = heap ∧ Clash allowed [link] fault) := by
  unfold resolve
  cases known : heap.bound? link.slot with
  | none =>
    have change : Change read allowed heap _ := .named link permitted known
    refine ⟨⟨.single change, fun here => arrays_insert_of_some here _, fun {id array} outside here => ?_⟩,
      link_eq_ok.mpr ⟨.named link.kind link.slot, ?_, rfl, rfl⟩⟩
    · have here := (arrays_insert heap _ id).symm.trans here
      split at here
      · cases here
        rfl
      · exact absurd (lt_size here) (Nat.not_lt.mpr outside)
    · exact (arrays_insert _ _ _).trans (if_pos rfl)
  | some id =>
    obtain ⟨array, here, slot⟩ := indexed.mp known
    simp only [find_eq_ok.mpr here]
    by_cases same : array.kind = link.kind
    · rw [if_pos same]
      exact ⟨.refl heap, link_eq_ok.mpr ⟨array, here, same, slot⟩⟩
    · rw [if_neg same]
      exact ⟨rfl, rfl, link, List.mem_singleton_self _, array.kind, same, allows (link_of_slot here slot)⟩

theorem extends_of_resolve (read : Slot → Option Record) {heap after : Heap} {link : Link} {id : ArrayId}
    (indexed : heap.Indexed) (resolves : resolve link heap = .ok id after) :
    Extends read (fun _ => True) heap after ∧ after.link id = .ok link := by
  have allows : heap.Allows fun _ => True := fun _ => trivial
  have permitted : (fun _ : Link => True) link := trivial
  exact (resolve_ends read indexed allows permitted).ok resolves

theorem fault_of_resolve {heap after : Heap} {link : Link} {fault : Fault} (indexed : heap.Indexed)
    (failed : resolve link heap = .error fault after) : fault = .storageCorruption .kindMismatch := by
  have allows : heap.Allows fun _ => True := fun _ => trivial
  have permitted : (fun _ : Link => True) link := trivial
  exact ((resolve_ends (fun _ => none) indexed allows permitted).error failed).2.1

theorem resolve_entry {heap : Heap} (indexed : heap.Indexed) (allows : heap.Allows allowed)
    {links : List Link} (permitted : ∀ link ∈ links, allowed link) {target : Option Link}
    (member : ∀ link, target = some link → link ∈ links) :
    Ends (target.mapM resolve heap)
      (fun answer after => (after.Indexed ∧ after.Allows allowed) ∧ Extends read allowed heap after ∧
        Option.Rel (fun link id => after.link id = .ok link) target answer)
      (fun fault after => (after.Indexed ∧ after.Allows allowed) ∧ Extends read allowed heap after ∧
        Clash allowed links fault) := by
  cases target with
  | none => exact ⟨⟨@indexed, @allows⟩, .refl heap, .none⟩
  | some link =>
    have inside := member link rfl
    refine Ends.map ((resolve_ends read indexed allows (permitted link inside)).imp ?_ ?_)
    · rintro id after ⟨ext, named⟩
      exact ⟨⟨ext.changes.indexed indexed, ext.changes.allows allows⟩, ext, .some named⟩
    · rintro fault heap ⟨rfl, mismatch, found, single, kind, other, clash⟩
      rw [List.mem_singleton] at single
      subst found
      exact ⟨⟨@indexed, @allows⟩, .refl heap, mismatch, link, inside, kind, other, clash⟩

theorem resolve_all (read : Slot → Option Record) {heap : Heap} (indexed : heap.Indexed)
    (allows : heap.Allows allowed) {links : Contents Link} (permitted : ∀ link ∈ links.targets, allowed link) :
    Ends (links.traverse resolve heap)
      (fun contents after => Extends read allowed heap after ∧ contents.traverse after.link = .ok links)
      (fun fault after => Extends read allowed heap after ∧ Clash allowed links.targets fault) := by
  cases links with
  | scalars p elems => exact ⟨.refl heap, rfl⟩
  | references targets =>
    have all := Ends.mapM (fun heap => heap.Indexed ∧ heap.Allows allowed) (Extends read allowed)
      (fun after => Option.Rel fun link id => after.link id = .ok link)
      (fun fault _ => Clash allowed (Contents.references targets).targets fault) .refl .trans
      (fun _ ext related => by
        cases related with
        | none => exact .none
        | some named => exact .some (ext.changes.link named))
      targets.toList heap
      (fun target member heap ⟨indexed, allows⟩ => resolve_entry @indexed @allows permitted fun link same => by
        subst same
        simpa [Contents.targets] using member)
      ⟨@indexed, @allows⟩
    rw [Contents.traverse_references]
    refine Ends.map (all.imp ?_ ?_)
    · rintro answers after ⟨_, ext, related⟩
      refine ⟨ext, Contents.traverse_eq_ok.mpr ?_⟩
      exact Contents.Rel.flip (.references related)
    · rintro fault after ⟨_, ext, clash⟩
      exact ⟨ext, clash⟩

theorem resolve_error {heap after : Heap} {link : Link} {fault : Fault}
    (failed : resolve link heap = .error fault after) : after = heap := by
  unfold resolve at failed
  split at failed
  · cases failed
  · split at failed
    · cases failed
      rfl
    · split at failed <;> cases failed
      rfl

theorem resolve_keeps (link : Link) {heap : Heap} {id : ArrayId} {array : LiveArray}
    (here : heap.arrays[id]? = some array) :
    Ends (resolve link heap) (fun _ after => after.arrays[id]? = some array)
      fun _ after => after.arrays[id]? = some array := by
  cases result : resolve link heap with
  | error fault after =>
    rw [resolve_error result]
    exact here
  | ok found after =>
    unfold resolve at result
    split at result
    · cases result
      exact arrays_insert_of_some here _
    · split at result
      · cases result
      · split at result <;> cases result
        exact here

theorem traverse_resolve_keeps (links : Contents Link) {heap : Heap} {id : ArrayId} {array : LiveArray}
    (here : heap.arrays[id]? = some array) :
    Ends (links.traverse resolve heap) (fun _ after => after.arrays[id]? = some array)
      fun _ after => after.arrays[id]? = some array := by
  cases links with
  | scalars p elems => exact here
  | references targets =>
    have step : ∀ (target : Option Link) (heap : Heap), heap.arrays[id]? = some array →
        Ends (target.mapM resolve heap) (fun _ after => after.arrays[id]? = some array)
          fun _ after => after.arrays[id]? = some array := by
      intro target heap here
      cases target with
      | none => exact here
      | some link => exact Ends.map (resolve_keeps link here)
    have all := Ends.mapM (fun heap => heap.arrays[id]? = some array) (fun _ _ => True) (fun _ _ _ => True)
      (fun _ _ => True) (fun _ => trivial) (fun _ _ => trivial) (fun _ _ _ => trivial) targets.toList heap
      (fun target _ heap here => (step target heap here).imp (fun _ _ kept => ⟨kept, trivial, trivial⟩)
        fun _ _ kept => ⟨kept, trivial, trivial⟩) here
    rw [Contents.traverse_references]
    exact Ends.map (all.imp (fun _ _ ended => ended.1) fun _ _ failed => failed.1)

/-- Why the contents of the array `id` cannot be brought into memory. -/
inductive Unreadable (heap : Heap) (read : Slot → Option Record) (allowed : Link → Prop) (id : ArrayId) :
    Fault → Prop
  | dangling (absent : heap.arrays[id]? = none) : Unreadable heap read allowed id .danglingReference
  | missing {kind : Kind} {slot : Slot} (here : heap.arrays[id]? = some (.named kind slot))
      (absent : read slot = none) : Unreadable heap read allowed id (.storageCorruption .notFound)
  | rejected {kind : Kind} {slot : Slot} {record : Record} {why : Corruption}
      (here : heap.arrays[id]? = some (.named kind slot)) (stored : read slot = some record)
      (refused : Record.decode kind record = .error why) :
      Unreadable heap read allowed id (.storageCorruption why)
  | clash {kind : Kind} {slot : Slot} {record : Record} {links : Contents Link} {fault : Fault}
      (here : heap.arrays[id]? = some (.named kind slot)) (stored : read slot = some record)
      (decoded : Record.decode kind record = .ok links) (clash : Clash allowed links.targets fault) :
      Unreadable heap read allowed id fault

def Discloses (heap : Heap) (read : Slot → Option Record) (allowed : Link → Prop) (id : ArrayId) : Prop :=
  ∀ kind slot record links, heap.arrays[id]? = some (.named kind slot) → read slot = some record →
    Record.decode kind record = .ok links → ∀ link ∈ links.targets, allowed link

theorem discloses_true (heap : Heap) (read : Slot → Option Record) (id : ArrayId) :
    heap.Discloses read (fun _ => True) id :=
  fun _ _ _ _ _ _ _ _ _ => trivial

end Heap

namespace Workspace

open Heap

variable {σ : Type}

theorem onHeap_ends {α : Type} {change : EStateM Fault Heap α} {workspace : Workspace σ}
    {post : α → Workspace σ → Prop} {fail : Fault → Workspace σ → Prop}
    (ends : Ends (change workspace.heap)
      (fun answer heap => post answer ⟨heap, workspace.storage, workspace.journal⟩)
      (fun fault heap => fail fault ⟨heap, workspace.storage, workspace.journal⟩)) :
    Ends (onHeap change workspace) post fail := by
  obtain ⟨heap, storage, journal⟩ := workspace
  simp only [onHeap]
  cases result : change heap with
  | ok answer after =>
    rw [result] at ends
    exact ends
  | error fault after =>
    rw [result] at ends
    exact ends

theorem onHeap_of_ok {α : Type} {change : EStateM Fault Heap α} {workspace : Workspace σ} {answer : α} {heap : Heap}
    (ran : change workspace.heap = .ok answer heap) :
    onHeap change workspace = .ok answer { workspace with heap } := by
  simp only [onHeap, ran]

theorem onHeap_of_error {α : Type} {change : EStateM Fault Heap α} {workspace : Workspace σ} {fault : Fault}
    {heap : Heap} (failed : change workspace.heap = .error fault heap) :
    onHeap change workspace = .error fault { workspace with heap } := by
  simp only [onHeap, failed]

theorem update_eq (id : ArrayId) (change : LiveArray → LiveArray) (workspace : Workspace σ) :
    update id change workspace = .ok () { workspace with heap := workspace.heap.update id change } := rfl

theorem contents_eq {workspace : Workspace σ} {id : ArrayId} {array : LiveArray} {held : Contents ArrayId}
    (here : workspace.heap.arrays[id]? = some array) (inMemory : array.contents? = some held) :
    contents id workspace = .ok held workspace := by
  simp only [contents, Bind.bind, EStateM.bind, query, find_eq_ok.mpr here]
  rw [inMemory]
  rfl

theorem contents_of_held? {workspace : Workspace σ} {id : ArrayId} {held : Contents ArrayId}
    (inMemory : workspace.heap.held? id = some held) : contents id workspace = .ok held workspace := by
  obtain ⟨array, here, inMemory⟩ := held?_eq_some.mp inMemory
  exact contents_eq here inMemory

theorem contents_of_absent {workspace : Workspace σ} {id : ArrayId} (absent : workspace.heap.arrays[id]? = none) :
    contents id workspace = .error .danglingReference workspace := by
  simp only [contents, Bind.bind, EStateM.bind, query, find_of_none absent]

theorem contents_of_named {workspace : Workspace σ} {id : ArrayId} {kind : Kind} {slot : Slot}
    (here : workspace.heap.arrays[id]? = some (.named kind slot)) :
    contents id workspace = .error .notMaterialized workspace := by
  simp only [contents, Bind.bind, EStateM.bind, query, find_eq_ok.mpr here]
  rfl

variable [Storage σ]

structure Advances (allowed : Link → Prop) (before after : Workspace σ) : Prop where
  storage : after.storage = before.storage
  changes : Changes (Storage.read before.storage) allowed before.heap after.heap

variable {allowed : Link → Prop}

theorem Advances.refl (workspace : Workspace σ) : Advances allowed workspace workspace := ⟨rfl, .refl⟩

theorem Advances.trans {first second third : Workspace σ} (one : Advances allowed first second)
    (two : Advances allowed second third) : Advances allowed first third :=
  ⟨two.storage.trans one.storage, one.changes.trans (one.storage ▸ two.changes)⟩

/-- Reading a record adds the arrays that it names, and then the contents if all of them could be named. Only
    then is it told that the array was brought into memory. -/
theorem load_opens {workspace : Workspace σ} {id : ArrayId} {kind : Kind} {slot : Slot}
    (indexed : workspace.heap.Indexed) (allows : workspace.heap.Allows allowed)
    (here : workspace.heap.arrays[id]? = some (.named kind slot))
    (discloses : workspace.heap.Discloses (Storage.read workspace.storage) allowed id) :
    Ends (load id kind slot workspace)
      (fun _ after => after.storage = workspace.storage ∧ ∃ opened contents,
        Extends (Storage.read workspace.storage) allowed workspace.heap opened ∧ contents.kind = kind ∧
        opened.Saved (Storage.read workspace.storage) slot contents ∧
        after.heap = opened.update id (.load contents) ∧
        after.journal = workspace.journal ++ [Event.fetched slot, Event.materialized id slot contents.length])
      (fun fault after => after.storage = workspace.storage ∧
        Extends (Storage.read workspace.storage) allowed workspace.heap after.heap ∧
        workspace.heap.Unreadable (Storage.read workspace.storage) allowed id fault ∧
        after.journal = workspace.journal ++ [Event.fetched slot]) := by
  unfold load
  refine Ends.bind (show Ends _ (fun found (after : Workspace σ) =>
      found = Storage.read workspace.storage slot ∧ after.heap = workspace.heap ∧
      after.storage = workspace.storage ∧ after.journal = workspace.journal.push (.fetched slot)) _ from
    ⟨rfl, rfl, rfl, rfl⟩) ?_
  rintro found ⟨heap, storage, journal⟩ ⟨stored, rfl, rfl, rfl⟩
  cases found with
  | none => exact ⟨rfl, .refl _, .missing here stored.symm, rfl⟩
  | some record =>
    cases decoded : Record.decode kind record with
    | error why =>
      simp only [decoded]
      exact ⟨rfl, .refl _, .rejected here stored.symm decoded, rfl⟩
    | ok links =>
      simp only [decoded]
      have all := resolve_all (Storage.read workspace.storage) indexed allows
        (discloses kind slot record links here stored.symm decoded)
      refine Ends.bind (show Ends _ (fun contents (after : Workspace σ) => after.storage = workspace.storage ∧
          Extends (Storage.read workspace.storage) allowed workspace.heap after.heap ∧
          contents.traverse after.heap.link = .ok links ∧
          after.journal = workspace.journal.push (.fetched slot)) _ from
        onHeap_ends (all.imp (fun contents heap h => ?_) fun fault heap h => ?_)) ?_
      · exact ⟨rfl, h.1, h.2, rfl⟩
      · exact ⟨rfl, h.1, .clash here stored.symm decoded h.2, rfl⟩
      · rintro contents ⟨heap, storage, journal⟩ ⟨rfl, ext, resolved, rfl⟩
        have kind_eq : contents.kind = kind := by
          rw [← (Record.of_decode decoded).2.1]
          exact (Contents.traverse_eq_ok.mp resolved).kind_eq.symm
        refine ⟨rfl, heap, contents, ext, kind_eq, ⟨record, links, stored.symm, ?_, resolved⟩, rfl, rfl⟩
        rw [kind_eq, decoded]

theorem load_ends {workspace : Workspace σ} {id : ArrayId} {kind : Kind} {slot : Slot}
    (wf : workspace.heap.WellFormed) (allows : workspace.heap.Allows allowed)
    (here : workspace.heap.arrays[id]? = some (.named kind slot))
    (discloses : workspace.heap.Discloses (Storage.read workspace.storage) allowed id) :
    Ends (load id kind slot workspace)
      (fun _ after => Advances allowed workspace after ∧ OpensOnly id workspace.heap after.heap ∧
        ∃ contents, after.heap.arrays[id]? = some (.loaded slot contents false))
      (fun fault after => Advances allowed workspace after ∧
        workspace.heap.Unreadable (Storage.read workspace.storage) allowed id fault) := by
  refine (load_opens @wf.indexed allows here discloses).imp ?_ ?_
  · rintro _ ⟨heap, storage, journal⟩ ⟨rfl, opened, contents, ext, rfl, saved, rfl, _⟩
    have still := ext.same here
    exact ⟨⟨rfl, ext.changes.tail (.loaded id slot contents still saved)⟩, ext.opensOnly_load still contents,
      contents, arrays_update_self still⟩
  · rintro fault after ⟨storage, ext, unreadable, _⟩
    exact ⟨⟨storage, ext.changes⟩, unreadable⟩

theorem materialize_cases {workspace : Workspace σ} {id : ArrayId} {post : Unit → Workspace σ → Prop}
    {fail : Fault → Workspace σ → Prop}
    (dangling : workspace.heap.arrays[id]? = none → fail .danglingReference workspace)
    (unread : ∀ kind slot, workspace.heap.arrays[id]? = some (.named kind slot) →
      Ends (load id kind slot workspace) post fail)
    (inMemory : ∀ array contents, workspace.heap.arrays[id]? = some array →
      array.contents? = some contents → post ⟨⟩ workspace) :
    Ends (materialize id workspace) post fail := by
  cases here : workspace.heap.arrays[id]? with
  | none =>
    simp only [materialize, query, Bind.bind, EStateM.bind, find_of_none here]
    exact dangling here
  | some array =>
    simp only [materialize, query, Bind.bind, EStateM.bind, find_eq_ok.mpr here]
    cases array with
    | named kind slot => exact unread kind slot here
    | fresh contents dirty | loaded slot contents dirty => exact inMemory _ contents here rfl

theorem materialize_ends {workspace : Workspace σ} {id : ArrayId}
    (wf : workspace.heap.WellFormed) (allows : workspace.heap.Allows allowed)
    (discloses : workspace.heap.Discloses (Storage.read workspace.storage) allowed id) :
    Ends (materialize id workspace)
      (fun _ after => Advances allowed workspace after ∧ OpensOnly id workspace.heap after.heap ∧
        ∃ array contents, after.heap.arrays[id]? = some array ∧ array.contents? = some contents)
      (fun fault after => Advances allowed workspace after ∧
        workspace.heap.Unreadable (Storage.read workspace.storage) allowed id fault) := by
  refine materialize_cases (fun absent => ⟨.refl workspace, .dangling absent⟩) ?_ ?_
  · intro kind slot here
    refine (load_ends wf allows here discloses).imp ?_ fun _ _ h => h
    rintro _ after ⟨advances, opens, contents, now⟩
    exact ⟨advances, opens, _, contents, now, rfl⟩
  · intro array contents here held
    exact ⟨.refl workspace, fun there _ => Or.inr there, array, contents, here, held⟩

theorem held?_of_load {before after : Workspace σ} {id : ArrayId} {kind : Kind} {slot : Slot}
    (here : before.heap.arrays[id]? = some (.named kind slot)) (loaded : load id kind slot before = .ok () after) :
    ∃ contents, after.heap.held? id = some contents := by
  obtain ⟨heap, storage, journal⟩ := before
  obtain ⟨_, _, fetches, loaded⟩ := estate_bind_eq_ok.mp loaded
  cases fetches
  cases stored : Storage.read storage slot with
  | none =>
    simp only [stored] at loaded
    cases loaded
  | some record =>
    simp only [stored] at loaded
    cases decoded : Record.decode kind record with
    | error why =>
      simp only [decoded] at loaded
      cases loaded
    | ok links =>
      simp only [decoded] at loaded
      obtain ⟨contents, _, resolves, loaded⟩ := estate_bind_eq_ok.mp loaded
      simp only [onHeap] at resolves
      cases result : links.traverse resolve heap with
      | error fault named =>
        simp only [result] at resolves
        cases resolves
      | ok answer named =>
        have still := (traverse_resolve_keeps links here).ok result
        simp only [result] at resolves
        cases resolves
        cases loaded
        exact ⟨contents, held?_eq_some.mpr ⟨_, arrays_update_self still, rfl⟩⟩

/-- The contents of the array `id` are brought into memory, unless they are there already. -/
structure Opens (id : ArrayId) (contents : Contents ArrayId) (before after : Workspace σ) : Prop where
  read : materialize id before = .ok () after
  held : after.heap.held? id = some contents

theorem Opens.access {before after : Workspace σ} {id : ArrayId} {contents : Contents ArrayId}
    (opens : Opens id contents before after) : access id before = .ok contents after :=
  (estate_bind_of_ok opens.read).trans (contents_of_held? opens.held)

theorem opens_of_held? {workspace : Workspace σ} {id : ArrayId} {contents : Contents ArrayId}
    (held : workspace.heap.held? id = some contents) : Opens id contents workspace workspace := by
  obtain ⟨array, here, inMemory⟩ := held?_eq_some.mp held
  refine ⟨?_, held⟩
  simp only [materialize, query, Bind.bind, EStateM.bind, find_eq_ok.mpr here]
  cases array with
  | named kind slot => cases inMemory
  | fresh | loaded => rfl

theorem opens_or_fails (id : ArrayId) (before : Workspace σ) :
    (∃ contents after, Opens id contents before after) ∨
      ∃ fault after, materialize id before = .error fault after := by
  cases read : materialize id before with
  | error fault after => exact Or.inr ⟨fault, after, rfl⟩
  | ok _ after =>
    have held : Ends (materialize id before) (fun _ after => ∃ contents, after.heap.held? id = some contents)
        fun _ _ => True := by
      apply materialize_cases
      · intro _
        trivial
      · intro kind slot here
        cases loaded : load id kind slot before with
        | ok _ after => exact held?_of_load here loaded
        | error fault after => trivial
      · intro array contents here inMemory
        exact ⟨contents, held?_eq_some.mpr ⟨array, here, inMemory⟩⟩
    obtain ⟨contents, held⟩ := held.ok read
    exact Or.inl ⟨contents, after, read, held⟩

end Workspace

end MeteredArrays
