import MeteredArrays.Proofs.Invocation.Mirror
import MeteredArrays.Proofs.Invocation.SlotIdentity
import MeteredArrays.Proofs.Storage.Memory

namespace MeteredArrays

def Heap.follow (heap : Heap) (id : ArrayId) : (path : List Int32) → Option ArrayId
  | [] => some id
  | index :: path => do
    let array ← heap.arrays[id]?
    let contents ← array.contents?
    if index < 0 then none
    else match contents.get? index.toNatClampNeg with
      | some (.reference (some target)) => heap.follow target path
      | _ => none

theorem Heap.follow_cons {heap : Heap} {id last : ArrayId} {index : Int32} {path : List Int32}
    (leads : heap.follow id (index :: path) = some last) :
    ∃ array contents target, heap.arrays[id]? = some array ∧ array.contents? = some contents ∧ ¬ index < 0 ∧
      contents.get? index.toNatClampNeg = some (.reference (some target)) ∧
      heap.follow target path = some last := by
  obtain ⟨array, here, leads⟩ := Option.bind_eq_some_iff.mp leads
  obtain ⟨contents, held, leads⟩ := Option.bind_eq_some_iff.mp leads
  split at leads
  · cases leads
  · rename_i positive
    split at leads
    · rename_i target found
      exact ⟨array, contents, target, here, held, positive, found, leads⟩
    · cases leads

/-- A way to an array: a root by its position, and the elements to follow from there. -/
structure Visit where
  root : Nat
  path : List Int32
  look : Bool

structure Sighting where
  id : ArrayId
  contents? : Option (Contents ArrayId)
  deriving DecidableEq

def Heap.visited (heap : Heap) (roots : List ArrayId) (visit : Visit) : Option ArrayId := do
  let root ← roots[visit.root]?
  heap.follow root visit.path

namespace Invocation

variable {σ : Type} [Storage σ]

def travel (id : ArrayId) : (path : List Int32) → Action σ ArrayId
  | [] => return id
  | index :: path => do
    match ← get id index with
    | .reference (some target) => travel target path
    | _ => throw .danglingReference

def visit (opened : List ArrayId) (visit : Visit) : Action σ Sighting := do
  match opened[visit.root]? with
  | none => throw .danglingReference
  | some root =>
    let id ← travel root visit.path
    if visit.look then return ⟨id, some (← contents id)⟩
    else return ⟨id, none⟩

/-- Loads the arrays at `slots`, each with its kind, and makes visits from them. -/
def reload (slots : List Slot) (kinds : List Kind) (visits : List Visit) : Action σ (List Sighting) := do
  let opened ← (slots.zip kinds).mapM fun (slot, kind) => load slot kind
  visits.mapM (visit opened)

def rootKinds (invocation : Invocation σ) : List Kind :=
  invocation.roots.toList.filterMap fun root => invocation.heap.arrays[root]?.map LiveArray.kind

open Heap

variable {origin kept : Heap} {roots : List ArrayId} {storage : σ} {copy : Invocation σ}

structure Seen (origin kept : Heap) (copy : Heap) (old : ArrayId) (look : Bool) (sighting : Sighting) :
    Prop where
  same : Matches kept copy old sighting.id
  contents : ∀ {array : LiveArray} {contents : Contents ArrayId}, look = true →
    origin.arrays[old]? = some array → array.contents? = some contents →
      ∃ again, sighting.contents? = some again ∧ contents.Rel (Matches kept copy) again

theorem Seen.mono {copy after : Heap} {old : ArrayId} {look : Bool} {sighting : Sighting}
    (seen : Seen origin kept copy old look sighting) (later : LinksKept copy after) :
    Seen origin kept after old look sighting := by
  refine ⟨seen.same.mono later, fun looks here held => ?_⟩
  obtain ⟨again, answered, rel⟩ := seen.contents looks here held
  exact ⟨again, answered, rel.imp fun _ _ _ same => same.mono later⟩

theorem Mirror.step (preserved : Preserved origin kept roots (Storage.read storage))
    (mirror : Mirror origin kept roots storage copy) {old id target : ArrayId} {index : Int32}
    {array : LiveArray} {contents : Contents ArrayId} (reaches : origin.Reaches roots old)
    (here : origin.arrays[old]? = some array) (held : array.contents? = some contents) (positive : ¬ index < 0)
    (found : contents.get? index.toNatClampNeg = some (.reference (some target)))
    (same : Matches kept copy.heap old id) :
    Ends (get id index copy)
      (fun value after => Mirror origin kept roots storage after ∧ LinksKept copy.heap after.heap ∧
        ∃ target', value = .reference (some target') ∧ Matches kept after.heap target target')
      (fun _ _ => False) := by
  obtain ⟨again, opened, opens, mirror', linksKept, rel⟩ := mirror.read preserved reaches here held same
  obtain ⟨target', found', same'⟩ := rel.get?_reference found
  obtain ⟨_, done, answered⟩ :=
    estate_map_eq_ok.mp ((Succeeds.look opens (.get positive found')).run mirror.running)
  cases answered
  rw [done]
  exact ⟨mirror', linksKept, target', rfl, same'⟩

theorem Mirror.travel (preserved : Preserved origin kept roots (Storage.read storage)) (path : List Int32)
    {old id last : ArrayId} (mirror : Mirror origin kept roots storage copy)
    (reaches : origin.Reaches roots old) (leads : origin.follow old path = some last)
    (same : Matches kept copy.heap old id) :
    Ends (Invocation.travel id path copy)
      (fun id' after => Mirror origin kept roots storage after ∧ LinksKept copy.heap after.heap ∧
        origin.Reaches roots last ∧ Matches kept after.heap last id')
      (fun _ _ => False) := by
  induction path generalizing copy old id with
  | nil =>
    cases leads
    exact ⟨mirror, fun named => named, reaches, same⟩
  | cons index path ih =>
    obtain ⟨array, contents, target, here, held, positive, found, leads⟩ := follow_cons leads
    refine Ends.bind (mirror.step preserved reaches here held positive found same) ?_
    rintro _ after ⟨mirror', linksKept, target', rfl, same'⟩
    have further : origin.Reaches roots target :=
      .target reaches (mem_targets.mpr ⟨array, contents, here, held, Contents.mem_targets_of_get? found⟩)
    refine (ih mirror' further leads same').imp ?_ fun _ _ h => h
    rintro id' last ⟨mirror'', later, reaches', same''⟩
    exact ⟨mirror'', fun named => later (linksKept named), reaches', same''⟩

theorem Mirror.look (preserved : Preserved origin kept roots (Storage.read storage))
    (mirror : Mirror origin kept roots storage copy) {old id : ArrayId} {array : LiveArray}
    {contents : Contents ArrayId} (reaches : origin.Reaches roots old)
    (here : origin.arrays[old]? = some array) (held : array.contents? = some contents)
    (same : Matches kept copy.heap old id) :
    Ends (Invocation.contents id copy)
      (fun again after => Mirror origin kept roots storage after ∧ LinksKept copy.heap after.heap ∧
        contents.Rel (Matches kept after.heap) again)
      (fun _ _ => False) := by
  obtain ⟨again, opened, opens, mirror', linksKept, rel⟩ := mirror.read preserved reaches here held same
  obtain ⟨_, done, answered⟩ := estate_map_eq_ok.mp ((Succeeds.look opens .contents).run mirror.running)
  cases answered
  rw [done]
  exact ⟨mirror', linksKept, rel⟩

theorem visited_eq_some {heap : Heap} {visit : Visit} {old : ArrayId}
    (leads : heap.visited roots visit = some old) :
    ∃ root, roots[visit.root]? = some root ∧ heap.follow root visit.path = some old :=
  Option.bind_eq_some_iff.mp leads

theorem Mirror.visit (preserved : Preserved origin kept roots (Storage.read storage))
    (mirror : Mirror origin kept roots storage copy) {opened : List ArrayId}
    (loaded : List.Forall₂ (Matches kept copy.heap) roots opened) {visit : Visit} {old : ArrayId}
    (leads : origin.visited roots visit = some old) (looks : visit.look = true → origin.InMemory old) :
    Ends (Invocation.visit opened visit copy)
      (fun sighting after => Mirror origin kept roots storage after ∧ LinksKept copy.heap after.heap ∧
        Seen origin kept after.heap old visit.look sighting)
      (fun _ _ => False) := by
  obtain ⟨root, placed, path⟩ := visited_eq_some leads
  obtain ⟨inside, here⟩ := List.getElem?_eq_some_iff.mp placed
  have inside' : visit.root < opened.length := by
    rw [← loaded.length_eq]
    exact inside
  have same := List.Forall₂.get loaded inside inside'
  simp only [List.get_eq_getElem, here] at same
  have reaches : origin.Reaches roots root := .root (List.mem_of_getElem? placed)
  unfold Invocation.visit
  rw [List.getElem?_eq_getElem inside']
  refine Ends.bind (mirror.travel preserved visit.path reaches path same) ?_
  rintro id middle ⟨mirror', linksKept, reaches', same'⟩
  cases look : visit.look with
  | false =>
    refine ⟨mirror', linksKept, same', fun looks => ?_⟩
    cases looks
  | true =>
    obtain ⟨array, contents, there, held⟩ := looks look
    refine Ends.bind (mirror'.look preserved reaches' there held same') ?_
    rintro again after ⟨mirror'', later, rel⟩
    refine ⟨mirror'', fun named => later (linksKept named), same'.mono later, fun _ there' held' => ?_⟩
    rw [there] at there'
    cases there'
    rw [held] at held'
    cases held'
    exact ⟨again, rfl, rel⟩

theorem Mirror.mapM {α β : Type} {step : α → Action σ β} (related : Invocation σ → α → β → Prop)
    (stable : ∀ {before after : Invocation σ} {elem : α} {answer : β}, LinksKept before.heap after.heap →
      related before elem answer → related after elem answer)
    (list : List α) (mirror : Mirror origin kept roots storage copy)
    (steps : ∀ elem ∈ list, ∀ {before : Invocation σ}, Mirror origin kept roots storage before →
      LinksKept copy.heap before.heap →
      Ends (step elem before)
        (fun answer after => Mirror origin kept roots storage after ∧ LinksKept before.heap after.heap ∧
          related after elem answer)
        (fun _ _ => False)) :
    Ends (list.mapM step copy)
      (fun answers after => Mirror origin kept roots storage after ∧ List.Forall₂ (related after) list answers)
      (fun _ _ => False) := by
  refine (Ends.mapM (fun after => Mirror origin kept roots storage after ∧ LinksKept copy.heap after.heap)
    (fun before after => LinksKept before.heap after.heap) related (fun _ _ => False)
    (fun _ _ _ named => named) (fun one two _ _ named => two (one named))
    (fun _ later here => stable later here) list copy ?_ ⟨mirror, fun named => named⟩).imp
    (fun _ _ h => ⟨h.1.1, h.2.2⟩) fun _ _ h => h.2.2
  rintro elem member before ⟨mirror, since⟩
  refine (steps elem member mirror since).imp ?_ fun _ _ h => h.elim
  rintro answer after ⟨mirror', later, here⟩
  exact ⟨⟨mirror', fun named => later (since named)⟩, later, here⟩

theorem Mirror.loadAll (preserved : Preserved origin kept roots (Storage.read storage))
    (mirror : Mirror origin kept roots storage copy) {slots : List Slot} {kinds : List Kind}
    (named : List.Forall₂ (fun root pair => kept.link root = .ok ⟨pair.2, pair.1⟩) roots (slots.zip kinds)) :
    Ends (((slots.zip kinds).mapM fun pair => Invocation.load pair.1 pair.2 : Action σ (List ArrayId)) copy)
      (fun opened after => Mirror origin kept roots storage after ∧
        List.Forall₂ (Matches kept after.heap) roots opened)
      (fun _ _ => False) := by
  refine (mirror.mapM (fun after (pair : Slot × Kind) id => after.heap.link id = .ok ⟨pair.2, pair.1⟩)
    (fun later named => later named) (slots.zip kinds) ?_).imp ?_ fun _ _ h => h
  · rintro ⟨slot, kind⟩ member before mirror _
    obtain ⟨root, _, known⟩ := forall₂_exists_of_mem (List.Forall₂.flip (R := flip _) named) member
    refine (mirror.load preserved known).imp ?_ fun _ _ h => h.elim
    rintro id after ⟨mirror', linksKept, link, known', there⟩
    rw [known] at known'
    cases known'
    exact ⟨mirror', linksKept, there⟩
  · rintro opened after ⟨mirror', loaded⟩
    exact ⟨mirror', (forall₂_comp named loaded).imp fun _ _ ⟨_, known, there⟩ => ⟨_, known, there⟩⟩

theorem Mirror.visitAll (preserved : Preserved origin kept roots (Storage.read storage))
    (mirror : Mirror origin kept roots storage copy) {opened : List ArrayId}
    (loaded : List.Forall₂ (Matches kept copy.heap) roots opened) {visits : List Visit}
    (valid : ∀ visit ∈ visits, ∃ old, origin.visited roots visit = some old ∧
      (visit.look = true → origin.InMemory old)) :
    Ends (visits.mapM (Invocation.visit opened) copy)
      (fun sightings last => Mirror origin kept roots storage last ∧
        List.Forall₂ (fun visit sighting => ∃ old, origin.visited roots visit = some old ∧
          Seen origin kept last.heap old visit.look sighting) visits sightings)
      (fun _ _ => False) := by
  refine mirror.mapM (fun after visit sighting => ∃ old, origin.visited roots visit = some old ∧
    Seen origin kept after.heap old visit.look sighting) (fun later ⟨old, leads, seen⟩ =>
      ⟨old, leads, seen.mono later⟩) visits ?_
  intro visit member before mirror since
  obtain ⟨old, leads, looks⟩ := valid visit member
  have loaded := loaded.imp fun _ _ same => same.mono since
  refine (mirror.visit preserved loaded leads looks).imp ?_ fun _ _ h => h
  rintro sighting after ⟨mirror', later, seen⟩
  exact ⟨mirror', later, old, leads, seen⟩

theorem reload_ends (preserved : Preserved origin kept roots (Storage.read storage)) {slots : List Slot}
    {kinds : List Kind}
    (named : List.Forall₂ (fun root pair => kept.link root = .ok ⟨pair.2, pair.1⟩) roots (slots.zip kinds))
    {visits : List Visit} (valid : ∀ visit ∈ visits, ∃ old, origin.visited roots visit = some old ∧
      (visit.look = true → origin.InMemory old)) (limit : UInt64) (schedule : Schedule) :
    Ends (reload slots kinds visits (start limit schedule storage))
      (fun sightings last => Mirror origin kept roots storage last ∧
        List.Forall₂ (fun visit sighting => ∃ old, origin.visited roots visit = some old ∧
          Seen origin kept last.heap old visit.look sighting) visits sightings)
      (fun _ _ => False) := by
  refine Ends.bind ((mirror_start limit schedule storage).loadAll preserved named) ?_
  rintro opened middle ⟨mirror, loaded⟩
  exact mirror.visitAll preserved loaded valid

theorem preserved_of_finalize [FaithfulStorage σ] {before after : Invocation σ} {persisted : Persisted}
    (sound : Sound storage before) (supplies : Storage.Supplies before.demand storage)
    (recorded : ∀ {id : ArrayId} {array : LiveArray} {slot : Slot}, before.heap.arrays[id]? = some array →
      array.slot? = some slot → Storage.read storage slot ≠ none)
    (commits : Workspace.Commits before.roots.toList before.workspace after.workspace persisted) :
    Preserved before.heap after.heap before.roots.toList (Storage.read after.workspace.storage) := by
  obtain ⟨rfl, wf, backed⟩ := sound
  have inside := roots_inside wf
  have ready : before.workspace.Committable before.roots.toList := ⟨wf.heap, inside, backed, supplies⟩
  refine ⟨commits.wellFormed wf.heap inside (Workspace.untaken_of_recorded wf.heap supplies recorded),
    fun reaches here held => commits.saved ready.separable reaches here held, fun here => ?_⟩
  exact (congrFun commits.link_eq _).trans (Workspace.link_assigned wf.heap inside (link_of_slot here rfl))

theorem kind_of_link {before after : Invocation σ} {persisted : Persisted} (wf : before.WellFormed)
    (commits : Workspace.Commits before.roots.toList before.workspace after.workspace persisted) {id : ArrayId}
    {link : Link} (named : after.heap.link id = .ok link) :
    before.heap.arrays[id]?.map LiveArray.kind = some link.kind := by
  have named : after.workspace.heap.link id = .ok link := named
  rw [commits.link_eq] at named
  obtain ⟨array, here, kind, _⟩ := link_eq_ok.mp named
  obtain ⟨old, was, kind', _⟩ := Workspace.assigned_contents wf.heap (roots_inside wf) here
  exact (congrArg (Option.map LiveArray.kind) was).trans (congrArg some (kind'.trans kind))

theorem named_rootKinds (heap : Heap) {slots : List Slot} (kinds : ∀ {id : ArrayId} {link : Link},
      kept.link id = .ok link → heap.arrays[id]?.map LiveArray.kind = some link.kind)
    (placed : List.Forall₂ (fun root slot => Link.slot <$> kept.link root = .ok slot) roots slots) :
    List.Forall₂ (fun root pair => kept.link root = .ok ⟨pair.2, pair.1⟩) roots
      (slots.zip (roots.filterMap fun root => heap.arrays[root]?.map LiveArray.kind)) := by
  induction placed with
  | nil => exact .nil
  | @cons root slot others _ here _ ih =>
    cases named : kept.link root with
    | error fault =>
      rw [named] at here
      cases here
    | ok link =>
      rw [named] at here
      cases here
      have first := List.filterMap_cons_some (f := fun root => heap.arrays[root]?.map LiveArray.kind)
        (l := others) (kinds named)
      rw [first]
      exact .cons named ih

theorem exists_rename {copy : Heap} (wf : kept.WellFormed) (wf' : copy.WellFormed) :
    ∃ rename : ArrayId → ArrayId, Function.Injective rename ∧
      ∀ old id, Matches kept copy old id → rename old = id := by
  classical
  have functional : ∀ {old id id'}, Matches kept copy old id → Matches kept copy old id' → id = id' := by
    rintro old id id' ⟨link, known, named⟩ ⟨link', known', named'⟩
    rw [known] at known'
    cases known'
    exact link_unique wf' named named'
  have injective : ∀ {old old' id}, Matches kept copy old id → Matches kept copy old' id → old = old' := by
    rintro old old' id ⟨link, known, named⟩ ⟨link', known', named'⟩
    rw [named] at named'
    cases named'
    exact link_unique wf known known'
  have inside : ∀ {old id}, Matches kept copy old id → id < copy.size := by
    rintro old id ⟨link, _, named⟩
    obtain ⟨array, here, _⟩ := link_eq_ok.mp named
    exact lt_size here
  -- Arrays without a match are sent behind those of the copy.
  refine ⟨fun old => if found : ∃ id, Matches kept copy old id then found.choose else copy.size + old, ?_, ?_⟩
  · intro old old' same
    simp only at same
    split at same <;> split at same
    · rename_i found found'
      exact injective found.choose_spec (same ▸ found'.choose_spec)
    · rename_i found _
      have below := inside found.choose_spec
      exact absurd same (Nat.ne_of_lt (Nat.lt_of_lt_of_le below (Nat.le_add_right _ _)))
    · rename_i _ found'
      have below := inside found'.choose_spec
      exact absurd same.symm (Nat.ne_of_lt (Nat.lt_of_lt_of_le below (Nat.le_add_right _ _)))
    · exact Nat.add_left_cancel same
  · intro old id found
    simp only [dif_pos (⟨id, found⟩ : ∃ id, Matches kept copy old id)]
    exact functional (Exists.choose_spec (⟨id, found⟩ : ∃ id, Matches kept copy old id)) found

/-- What a visit of a new invocation found in place of the array `old`: the array that stands for it,
    with its contents, or with its kind and slot if the contents were not in memory. -/
structure Shown (origin copy : Heap) (rename : ArrayId → ArrayId) (old : ArrayId) (look : Bool)
    (sighting : Sighting) : Prop where
  id_eq : sighting.id = rename old
  contents : ∀ {array : LiveArray} {contents : Contents ArrayId}, look = true →
    origin.arrays[old]? = some array → array.contents? = some contents →
      ∃ again, sighting.contents? = some again ∧
        contents.Rel (fun target target' => rename target = target') again
  named : ∀ {kind : Kind} {slot : Slot}, origin.arrays[old]? = some (.named kind slot) →
    copy.arrays[sighting.id]? = some (.named kind slot)

/-- A graph of arrays survives a commit. Any invocation over the storage that the commit left can load the
    roots and follow the paths that were in memory; it finds the same elements there, and it finds one
    array twice exactly where the old paths met. There has to be a 64-bit slot for each record and each
    array that gets one, which is so if all of them fit in memory. -/
theorem finalize_reload {memory : Memory} {before after : Invocation Memory} {finalized : Finalized}
    (reached : Reached memory before)
    (recorded : ∀ {id : ArrayId} {array : LiveArray} {slot : Slot}, before.heap.arrays[id]? = some array →
      array.slot? = some slot → slot ∈ memory.records)
    (room : memory.records.size + before.demand ≤ UInt64.size)
    (done : finalize before = .ok finalized after) (limit : UInt64) (schedule : Schedule) {visits : List Visit}
    (valid : ∀ visit ∈ visits, ∃ old, before.heap.visited before.roots.toList visit = some old ∧
      (visit.look = true → before.heap.InMemory old)) :
    ∃ sightings last rename, reload finalized.roots before.rootKinds visits
        (start limit schedule after.workspace.storage) = .ok sightings last ∧
      Function.Injective rename ∧
      List.Forall₂ (fun visit sighting => ∃ old, before.heap.visited before.roots.toList visit = some old ∧
        Shown before.heap last.heap rename old visit.look sighting) visits sightings := by
  have sound := reached.sound
  obtain ⟨_, persisted, commits, slots⟩ := finalize_ok sound.wellFormed done
  have preserved := preserved_of_finalize sound (Memory.supplies memory room)
    (fun here bound absent => by
      have present := recorded here bound
      rw [← Std.ExtTreeMap.isSome_getElem?_iff_mem] at present
      rw [show memory.records[_]? = none from absent] at present
      cases present) commits
  have placed := except_mapM_eq_ok.mp commits.roots
  rw [← commits.link_eq, ← slots] at placed
  have ends := reload_ends preserved
    (named_rootKinds before.heap (fun named => kind_of_link sound.wellFormed commits named) placed)
    valid limit schedule
  cases result : reload finalized.roots before.rootKinds visits
      (start limit schedule after.workspace.storage) with
  | error fault last =>
    exact (ends.error result).elim
  | ok sightings last =>
    obtain ⟨mirror, all⟩ := ends.ok result
    obtain ⟨rename, injective, renamed⟩ := exists_rename preserved.wellFormed mirror.ready.wellFormed.heap
    refine ⟨sightings, last, rename, rfl, injective, all.imp ?_⟩
    rintro visit sighting ⟨old, leads, seen⟩
    refine ⟨old, leads, (renamed _ _ seen.same).symm, fun looks here held => ?_, fun here => ?_⟩
    · obtain ⟨again, answered, rel⟩ := seen.contents looks here held
      exact ⟨again, answered, rel.imp fun target _ target' same => renamed target target' same⟩
    · exact mirror.named preserved here seen.same

def selfReferring : Invocation Memory :=
  (Call.runAll [.load ⟨0⟩ .reference, .create 3 .reference, .set 1 0 (.reference (some 1)),
      .set 1 1 (.reference (some 0)), .addRoot 1]
    (start 0 .free (Memory.empty.insert ⟨0⟩ (Record.ofContents (.references #[none]))))).2

theorem selfReferring_reloads : ∃ finalized after, finalize selfReferring = .ok finalized after ∧
    ∃ sightings last rename, reload finalized.roots selfReferring.rootKinds
        [⟨0, [], true⟩, ⟨0, [0, 0], true⟩, ⟨0, [0, 1], false⟩] (start 0 .mainnet after.workspace.storage) =
          .ok sightings last ∧
      Function.Injective rename ∧
      List.Forall₂ (fun visit sighting => ∃ old,
          selfReferring.heap.visited selfReferring.roots.toList visit = some old ∧
          Shown selfReferring.heap last.heap rename old visit.look sighting)
        [⟨0, [], true⟩, ⟨0, [0, 0], true⟩, ⟨0, [0, 1], false⟩] sightings := by
  have arrays : selfReferring.heap.arrays =
      #[.named .reference ⟨0⟩, .fresh (.references #[some 1, some 0, none]) true] := by decide +kernel
  have ran : Ends (finalize selfReferring) (fun _ _ => True) fun _ _ => False := by decide +kernel
  obtain ⟨finalized, after, done, _⟩ := ran.exists_ok fun _ _ => not_false
  have reached : Reached (Memory.empty.insert ⟨0⟩ (Record.ofContents (.references #[none]))) selfReferring :=
    ⟨0, .free, _, rfl⟩
  have inMemory : selfReferring.heap.InMemory 1 :=
    ⟨_, _, show selfReferring.heap.arrays[1]? = _ from by rw [arrays]; rfl, rfl⟩
  refine ⟨finalized, after, done, finalize_reload reached ?_ (by decide +kernel) done 0 .mainnet ?_⟩
  · intro id array slot here bound
    rw [arrays] at here
    match id with
    | 0 =>
      cases here
      cases bound
      decide +kernel
    | 1 =>
      cases here
      cases bound
    | id + 2 => cases here
  · intro visit member
    rcases List.mem_cons.mp member with rfl | member
    · exact ⟨1, by decide +kernel, fun _ => inMemory⟩
    · rcases List.mem_cons.mp member with rfl | member
      · exact ⟨1, by decide +kernel, fun _ => inMemory⟩
      · rw [List.mem_singleton.mp member]
        exact ⟨0, by decide +kernel, fun looks => by cases looks⟩

end Invocation

end MeteredArrays
