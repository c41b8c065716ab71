import Mathlib.Data.List.Induction
import Mathlib.Data.Nat.Find
import MeteredArrays.Proofs.Storage.Layers
import MeteredArrays.Proofs.Storage.Memory

namespace MeteredArrays.Layers

inductive Step where
  | write (slot : Slot) (record : Record)
  | allocate
  | push
  | commit
  | discard
  deriving DecidableEq

def Step.rise (height : Nat) : Step → Nat
  | write .. | allocate => height
  | push => height + 1
  | commit | discard => height - 1

def levels (steps : List Step) : Nat :=
  steps.foldl Step.rise 0

/-- The layer on top after some steps is the one that the step at `place` pushed. -/
structure PushedAt (steps : List Step) (place : Nat) : Prop where
  push : steps[place]? = some .push
  level : levels steps = levels (steps.take place) + 1
  since : ∀ count, place < count → count ≤ steps.length → levels steps ≤ levels (steps.take count)

/-- What the step at `place` wrote went with a layer that was discarded later. -/
def Dropped (steps : List Step) (place : Nat) : Prop :=
  ∃ pushed last, pushed < place ∧ place < last ∧ steps[last]? = some .discard ∧ PushedAt (steps.take last) pushed

def Kept (steps : List Step) (place : Nat) (slot : Slot) (record : Record) : Prop :=
  steps[place]? = some (.write slot record) ∧ ¬ Dropped steps place

/-- The latest record written to a slot, apart from those that were dropped. -/
def Latest (steps : List Step) (slot : Slot) (record : Record) : Prop :=
  ∃ place, Kept steps place slot record ∧ ∀ later other, place < later → ¬ Kept steps later slot other

section Levels

variable {steps : List Step}

theorem levels_append (step : Step) : levels (steps ++ [step]) = step.rise (levels steps) := by
  simp [levels]

theorem levels_take_succ {place : Nat} {step : Step} (here : steps[place]? = some step) :
    levels (steps.take (place + 1)) = step.rise (levels (steps.take place)) := by
  rw [List.take_add_one, here]
  exact levels_append step

theorem PushedAt.lt {place : Nat} (pushed : PushedAt steps place) : place < steps.length :=
  (List.getElem?_eq_some_iff.mp pushed.push).1

theorem PushedAt.unique {place other : Nat} (pushed : PushedAt steps place) (pushed' : PushedAt steps other) :
    place = other := by
  have level := pushed.level
  have level' := pushed'.level
  have inside := pushed.lt
  have inside' := pushed'.lt
  rcases Nat.lt_trichotomy place other with before | same | behind
  · have since := pushed.since other before (by omega)
    omega
  · exact same
  · have since := pushed'.since place behind (by omega)
    omega

theorem exists_pushedAt (layered : 0 < levels steps) : ∃ place, PushedAt steps place := by
  let below := fun count => levels (steps.take count) < levels steps
  have start : below 0 := layered
  have place_lt : Nat.findGreatest below steps.length < steps.length := by
    apply Nat.lt_of_le_of_ne (Nat.findGreatest_le _)
    intro whole
    have here : below (Nat.findGreatest below steps.length) := Nat.findGreatest_spec (Nat.zero_le _) start
    rw [whole] at here
    simp only [below, List.take_length] at here
    omega
  have here : below (Nat.findGreatest below steps.length) := Nat.findGreatest_spec (Nat.zero_le _) start
  have behind : ∀ count, Nat.findGreatest below steps.length < count → count ≤ steps.length →
      levels steps ≤ levels (steps.take count) := by
    intro count after inside
    have above := Nat.findGreatest_is_greatest after inside
    simp only [below] at above
    omega
  generalize Nat.findGreatest below steps.length = place at here behind place_lt
  have next := behind (place + 1) (by omega) (by omega)
  have step := List.getElem?_eq_getElem place_lt
  rw [levels_take_succ step] at next
  simp only [below] at here
  -- Only a push makes the stack higher.
  cases found : steps[place] with
  | push =>
    rw [found, Step.rise] at next
    exact ⟨place, step.trans (congrArg some found), by omega, behind⟩
  | write | allocate | commit | discard =>
    rw [found] at next
    simp only [Step.rise] at next
    omega

theorem Dropped.lt {place : Nat} (dropped : Dropped steps place) : place < steps.length := by
  obtain ⟨_, last, _, before, discarded, _⟩ := dropped
  exact Nat.lt_trans before (List.getElem?_eq_some_iff.mp discarded).1

theorem dropped_append {step : Step} {place : Nat} :
    Dropped (steps ++ [step]) place ↔ Dropped steps place ∨
      step = .discard ∧ place < steps.length ∧ ∃ pushed, pushed < place ∧ PushedAt steps pushed := by
  constructor
  · intro ⟨pushed, last, before, behind, discarded, top⟩
    have inside := (List.getElem?_eq_some_iff.mp discarded).1
    rw [List.length_append, List.length_singleton] at inside
    by_cases final : last = steps.length
    · subst last
      rw [List.getElem?_concat_length] at discarded
      rw [List.take_left] at top
      exact Or.inr ⟨Option.some.inj discarded, behind, pushed, before, top⟩
    · have earlier : last < steps.length := by omega
      rw [List.getElem?_append_left earlier] at discarded
      rw [List.take_append_of_le_length (Nat.le_of_lt earlier)] at top
      exact Or.inl ⟨pushed, last, before, behind, discarded, top⟩
  · intro dropped
    rcases dropped with ⟨pushed, last, before, behind, discarded, top⟩ | ⟨rfl, behind, pushed, before, top⟩
    · have earlier := (List.getElem?_eq_some_iff.mp discarded).1
      refine ⟨pushed, last, before, behind, ?_, ?_⟩
      · rw [List.getElem?_append_left earlier]
        exact discarded
      · rw [List.take_append_of_le_length (Nat.le_of_lt earlier)]
        exact top
    · refine ⟨pushed, steps.length, before, behind, List.getElem?_concat_length, ?_⟩
      rw [List.take_left]
      exact top

theorem kept_append {step : Step} {place : Nat} {slot : Slot} {record : Record} :
    Kept (steps ++ [step]) place slot record ↔
      place = steps.length ∧ step = .write slot record ∨
      Kept steps place slot record ∧
        ¬ (step = .discard ∧ ∃ pushed, pushed < place ∧ PushedAt steps pushed) := by
  simp only [Kept, dropped_append]
  by_cases final : place = steps.length
  · subst place
    have absent : steps[steps.length]? = none := List.getElem?_eq_none (Nat.le_refl _)
    have never : ¬ Dropped steps steps.length := fun dropped => Nat.lt_irrefl _ dropped.lt
    rw [List.getElem?_concat_length, absent]
    simp [never]
  · by_cases inside : place < steps.length
    · rw [List.getElem?_append_left inside]
      simp only [final, inside, false_and, true_and, false_or, not_or, and_assoc]
    · have beyond : steps.length + 1 ≤ place := by omega
      have none' : (steps ++ [step])[place]? = none := by simpa using beyond
      have none : steps[place]? = none := List.getElem?_eq_none (by omega)
      simp [none, none', final]

theorem dropped_take {pushed place : Nat} (top : PushedAt steps pushed) (early : place < pushed) :
    Dropped (steps.take pushed) place ↔ Dropped steps place := by
  have within := top.lt
  constructor
  · intro ⟨pushed', last, before, behind, discarded, top'⟩
    have short := (List.getElem?_eq_some_iff.mp discarded).1
    rw [List.length_take] at short
    rw [List.getElem?_take_of_lt (by omega)] at discarded
    rw [List.take_take, Nat.min_eq_left (by omega)] at top'
    exact ⟨pushed', last, before, behind, discarded, top'⟩
  · intro ⟨pushed', last, before, behind, discarded, top'⟩
    have inside := (List.getElem?_eq_some_iff.mp discarded).1
    rcases Nat.lt_trichotomy last pushed with earlier | same | later
    · refine ⟨pushed', last, before, behind, ?_, ?_⟩
      · rw [List.getElem?_take_of_lt earlier]
        exact discarded
      · rw [List.take_take, Nat.min_eq_left (Nat.le_of_lt earlier)]
        exact top'
    · rw [same, top.push] at discarded
      cases discarded
    · -- The layer discarded at `last` lies above the one pushed at `pushed`, which came after the write.
      have level := top.level
      have since := top.since last later (Nat.le_of_lt inside)
      have since' := top'.since pushed (by omega) (by rw [List.length_take]; omega)
      rw [List.take_take, Nat.min_eq_left (Nat.le_of_lt later)] at since'
      omega

theorem kept_discard {pushed place : Nat} {slot : Slot} {record : Record} (top : PushedAt steps pushed) :
    Kept (steps ++ [.discard]) place slot record ↔ Kept (steps.take pushed) place slot record := by
  rw [kept_append]
  constructor
  · intro kept
    rcases kept with ⟨_, impossible⟩ | ⟨⟨written, stays⟩, outside⟩
    · cases impossible
    · have before : place < pushed := by
        apply Nat.lt_of_le_of_ne
        · exact Nat.not_lt.mp fun after => outside ⟨rfl, pushed, after, top⟩
        · intro same
          rw [same, top.push] at written
          cases written
      exact ⟨(List.getElem?_take_of_lt before).trans written, (dropped_take top before).not.mpr stays⟩
  · intro ⟨written, stays⟩
    have inside := (List.getElem?_eq_some_iff.mp written).1
    rw [List.length_take] at inside
    have before : place < pushed := by omega
    rw [List.getElem?_take_of_lt before] at written
    refine Or.inr ⟨⟨written, (dropped_take top before).not.mp stays⟩, ?_⟩
    intro ⟨_, other, after, top'⟩
    rw [top'.unique top] at after
    omega

theorem kept_step {step : Step} (stays : ¬ (step = .discard ∧ 0 < levels steps)) {place : Nat} {slot : Slot}
    {record : Record} :
    Kept (steps ++ [step]) place slot record ↔
      place = steps.length ∧ step = .write slot record ∨ Kept steps place slot record := by
  have outside : ¬ (step = .discard ∧ ∃ pushed, pushed < place ∧ PushedAt steps pushed) := by
    intro ⟨discards, pushed, _, top⟩
    have level := top.level
    exact stays ⟨discards, by omega⟩
  rw [kept_append, and_iff_left outside]

theorem latest_write (steps : List Step) (slot : Slot) (record : Record) :
    Latest (steps ++ [.write slot record]) slot record := by
  refine ⟨steps.length, kept_append.mpr (Or.inl ⟨rfl, rfl⟩), ?_⟩
  intro later other after kept
  have inside := (List.getElem?_eq_some_iff.mp kept.1).1
  rw [List.length_append, List.length_singleton] at inside
  omega

theorem Latest.unique {slot : Slot} {record record' : Record} (latest : Latest steps slot record)
    (latest' : Latest steps slot record') : record = record' := by
  obtain ⟨place, kept, last⟩ := latest
  obtain ⟨place', kept', last'⟩ := latest'
  rcases Nat.lt_trichotomy place place' with before | rfl | behind
  · exact absurd kept' (last place' record' before)
  · have same := kept.1.symm.trans kept'.1
    cases same
    rfl
  · exact absurd kept (last' place record behind)

inductive Answered (read : Slot → Option Record) (steps : List Step) (slot : Slot) : Option Record → Prop
  | written {record : Record} (latest : Latest steps slot record) : Answered read steps slot (some record)
  | untouched (unwritten : ∀ place record, ¬ Kept steps place slot record) :
    Answered read steps slot (read slot)

theorem Answered.congr {read : Slot → Option Record} {others : List Step} {slot : Slot} {answer : Option Record}
    (answered : Answered read steps slot answer)
    (same : ∀ place record, Kept others place slot record ↔ Kept steps place slot record) :
    Answered read others slot answer := by
  cases answered with
  | written latest =>
    obtain ⟨place, kept, last⟩ := latest
    apply Answered.written
    refine ⟨place, (same place _).mpr kept, ?_⟩
    intro later record after kept'
    exact last later record after ((same later record).mp kept')
  | untouched unwritten =>
    exact .untouched fun place record kept => unwritten place record ((same place record).mp kept)

end Levels

section Run

variable {β : Type} [Storage β]

def step (layers : Layers β) : Step → Layers β
  | .write slot record =>
    match Storage.write slot record layers with
    | .ok _ after | .error _ after => after
  | .allocate => (Storage.allocate layers).2
  | .push => layers.push
  | .commit => (layers.commit?.map Closing.below).getD layers
  | .discard => (layers.discard?.map Closing.below).getD layers

def run (layers : Layers β) (steps : List Step) : Layers β :=
  steps.foldl step layers

theorem run_append (layers : Layers β) (steps : List Step) (next : Step) :
    run layers (steps ++ [next]) = (run layers steps).step next := by
  simp [run]

theorem run_take_succ {layers : Layers β} {steps : List Step} {place : Nat} {next : Step}
    (here : steps[place]? = some next) :
    run layers (steps.take (place + 1)) = (run layers (steps.take place)).step next := by
  rw [List.take_add_one, here]
  exact run_append _ _ _

def depth : Layers β → Nat
  | base _ => 0
  | layer below _ => below.depth + 1

inductive Above (below : Layers β) : (above : Layers β) → Prop
  | refl : Above below below
  | push {above : Layers β} (writes : Records) (rest : Above below above) : Above below (layer above writes)

omit [Storage β] in
theorem Above.exists_layer {below above : Layers β} (stands : Above below above) (higher : below.depth < above.depth) :
    ∃ rest writes, above = layer rest writes ∧ Above below rest := by
  cases stands with
  | refl => exact absurd higher (Nat.lt_irrefl _)
  | push writes rest => exact ⟨_, writes, rfl, rest⟩

omit [Storage β] in
theorem Above.depth_le {below above : Layers β} (stands : Above below above) : below.depth ≤ above.depth := by
  induction stands with
  | refl => exact Nat.le_refl _
  | push writes _ ih => exact Nat.le_succ_of_le ih

omit [Storage β] in
theorem Above.eq_of_depth {below above : Layers β} (stands : Above below above) (level : above.depth = below.depth) :
    above = below := by
  cases stands with
  | refl => rfl
  | push writes rest =>
    have lower := rest.depth_le
    simp only [depth] at level
    omega

theorem Above.reserve {below above : Layers β} (stands : Above below above) (count : Nat) :
    Above (Storage.reserve count below) (Storage.reserve count above) := by
  induction stands with
  | refl => exact .refl
  | push writes _ ih =>
    rw [reserve_layer]
    exact .push writes ih

theorem depth_reserve (count : Nat) (layers : Layers β) : (Storage.reserve count layers).depth = layers.depth := by
  induction layers with
  | base backend =>
    rw [reserve_base]
    rfl
  | layer below writes ih =>
    rw [reserve_layer]
    exact congrArg Nat.succ ih

theorem depth_wrote {writes : List (Slot × Record)} {before after : Layers β}
    (wrote : Storage.Wrote writes before after) : after.depth = before.depth := by
  have unseen : ∀ slot record, Leaves (Layers.depth (β := β)) (Storage.write slot record) := by
    intro slot record layers
    cases layers with
    | base backend =>
      simp only [Storage.write, write]
      cases Storage.write slot record backend <;> rfl
    | layer below buffered => rfl
  exact wrote.view_eq unseen

theorem exists_layer_of_wrote {writes : List (Slot × Record)} {below after : Layers β} {buffered : Records}
    (wrote : Storage.Wrote writes (layer below buffered) after) : ∃ buffered', after = layer below buffered' := by
  generalize start : layer below buffered = before at wrote
  induction wrote generalizing buffered with
  | nil => exact ⟨buffered, start.symm⟩
  | cons written _ ih =>
    subst start
    cases written
    exact ih rfl

variable [ReliableStorage β]

theorem step_commit (below : Layers β) (writes : Records) :
    ∃ after, (layer below writes).step .commit = after ∧ Storage.Wrote writes.toList below after := by
  obtain ⟨after, applied, wrote⟩ := apply_wrote (Storage.accepting_of_reliable below) writes
  refine ⟨after, ?_, wrote⟩
  simp only [step, commit?, applied]
  rfl

theorem depth_step (layers : Layers β) (next : Step) : (layers.step next).depth = next.rise layers.depth := by
  cases next with
  | write slot record =>
    obtain ⟨after, written⟩ := ReliableStorage.accepts slot record layers
    simp only [step, written]
    have wrote : Storage.Wrote [(slot, record)] layers after := .cons written (.nil after)
    exact depth_wrote wrote
  | allocate => exact depth_reserve 1 layers
  | push => rfl
  | commit =>
    cases layers with
    | base backend => rfl
    | layer below writes =>
      obtain ⟨after, closed, wrote⟩ := step_commit below writes
      rw [closed, depth_wrote wrote]
      rfl
  | discard => cases layers <;> rfl

theorem depth_run (backend : β) (steps : List Step) : (run (base backend) steps).depth = levels steps := by
  induction steps using List.reverseRecOn with
  | nil => rfl
  | append_singleton steps next ih => rw [run_append, depth_step, ih, levels_append]

theorem Above.step {below layers : Layers β} (stands : Above below layers) (next : Step)
    (open' : below.depth < layers.depth) (open'' : below.depth < (layers.step next).depth) :
    ∃ count, Above (Storage.reserve count below) (layers.step next) := by
  obtain ⟨rest, writes, rfl, stands'⟩ := stands.exists_layer open'
  cases next with
  | write slot record => exact ⟨0, .push _ stands'⟩
  | allocate => exact ⟨1, stands.reserve 1⟩
  | push => exact ⟨0, .push ∅ stands⟩
  | discard => exact ⟨0, stands'⟩
  | commit =>
    obtain ⟨after, closed, wrote⟩ := step_commit rest writes
    rw [closed] at open'' ⊢
    rw [depth_wrote wrote] at open''
    obtain ⟨lower, buffered, rfl, stands''⟩ := stands'.exists_layer open''
    obtain ⟨buffered', rfl⟩ := exists_layer_of_wrote wrote
    exact ⟨0, .push buffered' stands''⟩

theorem run_pushedAt {steps : List Step} {pushed : Nat} (top : PushedAt steps pushed) (backend : β) :
    ∃ count writes, run (base backend) steps =
      layer (Storage.reserve count (run (base backend) (steps.take pushed))) writes := by
  have level := top.level
  have inside := top.lt
  have stands : ∀ place, pushed + 1 ≤ place → place ≤ steps.length → ∃ count,
      Above (Storage.reserve count (run (base backend) (steps.take pushed)))
        (run (base backend) (steps.take place)) := by
    intro place after
    induction place, after using Nat.le_induction with
    | base =>
      intro _
      rw [run_take_succ top.push]
      exact ⟨0, .push ∅ .refl⟩
    | succ place after ih =>
      intro within
      obtain ⟨count, stands⟩ := ih (by omega)
      have now := top.since place (by omega) (by omega)
      have next := top.since (place + 1) (by omega) within
      rw [run_take_succ (List.getElem?_eq_getElem within)]
      obtain ⟨more, stands'⟩ := stands.step steps[place]
        (by rw [depth_reserve, depth_run, depth_run]; omega)
        (by
          rw [← run_take_succ (List.getElem?_eq_getElem within), depth_reserve, depth_run, depth_run]
          omega)
      rw [← Storage.reserve_add] at stands'
      exact ⟨count + more, stands'⟩
  obtain ⟨count, stands⟩ := stands steps.length (by omega) (Nat.le_refl _)
  rw [List.take_length] at stands
  obtain ⟨rest, writes, same, lower⟩ := stands.exists_layer (by rw [depth_reserve, depth_run, depth_run]; omega)
  have height : (run (base backend) steps).depth = levels steps := depth_run backend steps
  rw [same, depth] at height
  rw [lower.eq_of_depth (by rw [depth_reserve, depth_run]; omega)] at same
  exact ⟨count, writes, same⟩

theorem run_discard {steps : List Step} {pushed : Nat} (top : PushedAt steps pushed) (backend : β) :
    ∃ count, run (base backend) (steps ++ [.discard]) =
      Storage.reserve count (run (base backend) (steps.take pushed)) := by
  obtain ⟨count, writes, same⟩ := run_pushedAt top backend
  rw [run_append, same]
  exact ⟨count, rfl⟩

theorem read_step_write (layers : Layers β) (slot : Slot) (record : Record) (other : Slot) :
    Storage.read (layers.step (.write slot record)) other =
      if slot = other then some record else Storage.read layers other := by
  obtain ⟨after, written⟩ := ReliableStorage.accepts slot record layers
  simp only [step, written]
  exact FaithfulStorage.read_write written other

theorem read_step (layers : Layers β) {next : Step} (keeps : next = .discard → layers.depth = 0)
    (other : ∀ slot record, next ≠ .write slot record) (slot : Slot) :
    Storage.read (layers.step next) slot = Storage.read layers slot := by
  cases next with
  | write slot record => exact absurd rfl (other slot record)
  | allocate => exact FaithfulStorage.read_allocate layers slot
  | push => exact read_push layers slot
  | commit =>
    cases layers with
    | base backend => rfl
    | layer below writes =>
      obtain ⟨after, closed, wrote⟩ := step_commit below writes
      rw [closed, read_apply wrote]
  | discard =>
    cases layers with
    | base backend => rfl
    | layer below writes => cases keeps rfl

theorem answered_step {backend : β} {steps : List Step} {next : Step}
    (stays : ¬ (next = .discard ∧ 0 < levels steps)) {slot : Slot}
    (answered : Answered (Storage.read backend) steps slot (Storage.read (run (base backend) steps) slot)) :
    Answered (Storage.read backend) (steps ++ [next]) slot
      (Storage.read (run (base backend) (steps ++ [next])) slot) := by
  rw [run_append]
  by_cases writes : ∃ record, next = .write slot record
  · obtain ⟨record, rfl⟩ := writes
    rw [read_step_write, if_pos rfl]
    exact .written (latest_write steps slot record)
  · have reads : Storage.read ((run (base backend) steps).step next) slot =
        Storage.read (run (base backend) steps) slot := by
      cases next with
      | write other record =>
        rw [read_step_write, if_neg]
        intro same
        exact writes ⟨record, by rw [same]⟩
      | _ =>
        apply read_step
        · intro discards
          have level := depth_run backend steps
          have low : ¬ 0 < levels steps := fun layered => stays ⟨discards, layered⟩
          omega
        · intro _ _ impossible
          cases impossible
    rw [reads]
    apply answered.congr
    intro place record
    rw [kept_step stays]
    apply or_iff_right
    intro written
    exact writes ⟨record, written.2⟩

theorem answered_run (backend : β) (steps : List Step) (slot : Slot) :
    Answered (Storage.read backend) steps slot (Storage.read (run (base backend) steps) slot) := by
  induction count : steps.length using Nat.strong_induction_on generalizing steps with
  | _ count ih =>
  rcases List.eq_nil_or_concat steps with rfl | ⟨init, next, rfl⟩
  · exact .untouched fun place record kept => by cases kept.1
  · rw [List.concat_eq_append] at count ⊢
    rw [List.length_append, List.length_singleton] at count
    by_cases dropping : next = .discard ∧ 0 < levels init
    · -- The slot reads as it did when the layer that goes was pushed.
      obtain ⟨rfl, layered⟩ := dropping
      obtain ⟨pushed, top⟩ := exists_pushedAt layered
      obtain ⟨granted, restored⟩ := run_discard top backend
      have inside := top.lt
      have earlier := ih (init.take pushed).length (by rw [List.length_take]; omega) (init.take pushed) rfl
      rw [restored, Storage.read_reserve]
      exact earlier.congr fun place record => kept_discard top
    · exact answered_step dropping (ih init.length (by omega) init rfl)

theorem read_run_iff {backend : β} {steps : List Step} {slot : Slot} {record : Record} :
    Storage.read (run (base backend) steps) slot = some record ↔
      Latest steps slot record ∨
        (∀ place other, ¬ Kept steps place slot other) ∧ Storage.read backend slot = some record := by
  have answered := answered_run backend steps slot
  generalize Storage.read (run (base backend) steps) slot = answer at answered ⊢
  cases answered with
  | @written record' latest =>
    constructor
    · intro same
      cases same
      exact Or.inl latest
    · intro either
      rcases either with latest' | ⟨unwritten, _⟩
      · rw [latest.unique latest']
      · obtain ⟨place, kept, _⟩ := latest
        exact absurd kept (unwritten place record')
  | untouched unwritten =>
    constructor
    · intro same
      exact Or.inr ⟨unwritten, same⟩
    · intro either
      rcases either with ⟨place, kept, _⟩ | ⟨_, same⟩
      · exact absurd kept (unwritten place record)
      · exact same

theorem read_run_eq_none_iff {backend : β} {steps : List Step} {slot : Slot} :
    Storage.read (run (base backend) steps) slot = none ↔
      (∀ place record, ¬ Kept steps place slot record) ∧ Storage.read backend slot = none := by
  have answered := answered_run backend steps slot
  generalize Storage.read (run (base backend) steps) slot = answer at answered ⊢
  cases answered with
  | @written record latest =>
    obtain ⟨place, kept, _⟩ := latest
    constructor
    · intro impossible
      cases impossible
    · intro ⟨unwritten, _⟩
      exact absurd kept (unwritten place record)
  | untouched unwritten =>
    constructor
    · intro absent
      exact ⟨unwritten, absent⟩
    · intro ⟨_, absent⟩
      exact absent

theorem commit?_run {layers : Layers β} {closing : Closing β} (closed : layers.commit? = some closing) :
    closing.outcome = .ok () ∧ ∀ slot, Storage.read closing.below slot = Storage.read layers slot := by
  cases layers with
  | base backend => cases closed
  | layer below writes =>
    obtain ⟨after, applied, wrote⟩ := apply_wrote (Storage.accepting_of_reliable below) writes
    simp only [commit?, applied] at closed
    cases closed
    exact ⟨rfl, congrFun (read_apply wrote)⟩

theorem discard?_run {backend : β} {steps : List Step} {closing : Closing β}
    (closed : (run (base backend) steps).discard? = some closing) :
    ∃ pushed count, PushedAt steps pushed ∧
      closing.below = Storage.reserve count (run (base backend) (steps.take pushed)) := by
  have level := depth_run backend steps
  cases same : run (base backend) steps with
  | base backend' =>
    rw [same] at closed
    cases closed
  | layer below writes =>
    rw [same] at closed level
    cases closed
    have layered : 0 < levels steps := level ▸ Nat.succ_pos _
    obtain ⟨pushed, top⟩ := exists_pushedAt layered
    obtain ⟨count, writes', same'⟩ := run_pushedAt top backend
    rw [same] at same'
    cases same'
    exact ⟨pushed, count, top, rfl⟩

end Run

/-- Nested transactions over memory. A slot reads as the latest record that was written to it and not
    dropped with a discarded layer, or else as it did at first. A commit changes nothing that is read. A
    discard brings back the storage on which the layer was pushed, apart from the slots handed out since. -/
theorem run_transactional (memory : Memory) (steps : List Step) :
    (∀ slot record, Storage.read (run (base memory) steps) slot = some record ↔
      Latest steps slot record ∨
        (∀ place other, ¬ Kept steps place slot other) ∧ Storage.read memory slot = some record) ∧
    (∀ closing, (run (base memory) steps).commit? = some closing →
      closing.outcome = .ok () ∧
        ∀ slot, Storage.read closing.below slot = Storage.read (run (base memory) steps) slot) ∧
    (∀ closing, (run (base memory) steps).discard? = some closing →
      ∃ pushed, PushedAt steps pushed ∧
        (∀ slot, Storage.read closing.below slot = Storage.read (run (base memory) (steps.take pushed)) slot) ∧
        ∃ next, closing.below =
          (run (base memory) (steps.take pushed)).mapBottom fun bottom => { bottom with next }) := by
  refine ⟨fun _ _ => read_run_iff, fun _ closed => commit?_run closed, ?_⟩
  intro closing closed
  obtain ⟨pushed, count, top, restored⟩ := discard?_run closed
  refine ⟨pushed, top, ?_, ?_⟩
  · intro slot
    rw [restored]
    exact Storage.read_reserve count _ slot
  · refine ⟨(Storage.reserve count (run (base memory) (steps.take pushed)).bottom).next, ?_⟩
    rw [restored, reserve_eq_mapBottom]
    apply mapBottom_congr
    generalize (run (base memory) (steps.take pushed)).bottom = bottom
    have records := Memory.records_reserve count bottom
    cases reserved : Storage.reserve count bottom with
    | mk records' next =>
      rw [reserved] at records
      cases records
      rfl

def overwritten : List Step :=
  [.write ⟨0⟩ [1], .push, .write ⟨0⟩ [2], .push, .write ⟨0⟩ [3], .allocate, .discard]

theorem overwritten_latest :
    Latest overwritten ⟨0⟩ [2] ∧
      ∃ closing, (run (base Memory.empty) overwritten).commit? = some closing ∧ closing.outcome = .ok () ∧
        Storage.read closing.below ⟨0⟩ = some [2] := by
  obtain ⟨reads, commits, _⟩ := run_transactional Memory.empty overwritten
  have here : Storage.read (run (base Memory.empty) overwritten) ⟨0⟩ = some [2] := by decide +kernel
  constructor
  · rcases (reads ⟨0⟩ [2]).mp here with latest | ⟨_, original⟩
    · exact latest
    · exact absurd original (by decide +kernel)
  · have layered : ((run (base Memory.empty) overwritten).commit?.map Closing.outcome).isSome = true := by
      decide +kernel
    cases closed : (run (base Memory.empty) overwritten).commit? with
    | none =>
      rw [closed] at layered
      cases layered
    | some closing =>
      obtain ⟨outcome, same⟩ := commits closing closed
      exact ⟨closing, rfl, outcome, (same _).trans here⟩

end MeteredArrays.Layers
