import MeteredArrays.Proofs.Invocation.Transparency
import MeteredArrays.Proofs.Storage.Layers
import MeteredArrays.Storage.Rationed

namespace MeteredArrays

def Call.mentioned : Call → List ArrayId
  | .create .. | .load .. | .abort => []
  | .length id | .get id _ | .contents id | .clone id | .addRoot id => [id]
  | .set id _ value => id :: value.target?.toList
  | .replace id new => id :: new.targets

namespace Invocation

open Heap

variable {σ : Type} [Storage σ]

def price? (before : Invocation σ) : Call → Option Nat
  | .create length kind => some ((Metered.creation kind length).exact before.meter.schedule)
  | .clone id => (before.content? id).map fun contents =>
      before.meter.schedule.cloneBase.toNat + contents.length * before.meter.schedule.cloneElement.toNat
  | _ => none

/-- Whether a call gives reason for a fault: it replaces contents that are not in memory, it mentions an array
    that does not exist, or it costs more than 64 bits can hold. The other faults need no reason here. -/
def Provoked (before : Invocation σ) (call : Call) : Fault → Prop
  | .notMaterialized => ∃ id contents kind slot, call = .replace id contents ∧
      before.heap.arrays[id]? = some (.named kind slot)
  | .danglingReference => ∃ id ∈ call.mentioned, before.heap.arrays[id]? = none
  | .arithmeticOverflow => ∃ price ∈ before.price? call, UInt64.size ≤ price
  | _ => True

variable {invocation : Invocation σ} {call : Call} {id : ArrayId} {fault : Fault}

theorem provoked_of_unreadable {read : Slot → Option Record} {allowed : Link → Prop}
    (mentioned : id ∈ call.mentioned) (unreadable : invocation.heap.Unreadable read allowed id fault) :
    invocation.Provoked call fault := by
  cases unreadable with
  | dangling absent => exact ⟨id, mentioned, absent⟩
  | missing | rejected => trivial
  | clash _ _ _ clash =>
    obtain ⟨same, _⟩ := clash
    rw [same]
    trivial

theorem Rejects.provoked (rejects : Rejects invocation call fault) (wf : invocation.WellFormed) :
    invocation.Provoked call fault := by
  cases rejects with
  | @absent _ id required absent =>
    refine ⟨id, ?_, absent⟩
    cases call with
    | create | load | length | get | contents | clone | abort => cases required
    | set => exact List.mem_cons_of_mem _ required
    | replace | addRoot => exact required
  | clash clashes =>
    rw [fault_of_resolve @wf.heap.indexed clashes]
    trivial
  | unmaterialized checked here => exact ⟨_, _, _, _, rfl, here⟩
  | negativeIndex | differs => trivial

theorem subject_mentioned (subject : call.subject? = some id) : id ∈ call.mentioned := by
  cases call with
  | create | load | replace | addRoot | abort => cases subject
  | length | get | set | contents | clone =>
    cases subject
    exact List.mem_cons_self

theorem pay_provoked {paying last : Invocation σ} {operation : Metered}
    (refused : pay operation paying = .error fault last) (same : paying.meter = invocation.meter)
    (price : operation.exact invocation.meter.schedule ∈ invocation.price? call) : invocation.Provoked call fault := by
  rcases (pay_fault operation paying).error refused with rfl | ⟨rfl, large⟩
  · trivial
  · rw [same] at large
    exact ⟨_, price, large⟩

theorem price_cloning {contents : Contents ArrayId} {opened : Workspace σ} (wf : invocation.WellFormed)
    (opens : invocation.workspace.Opens id contents opened) :
    contents.length ≤ Record.maxLength ∧ invocation.price? (.clone id) =
      some ((Metered.cloning (Int32.ofNat contents.length)).exact invocation.meter.schedule) := by
  obtain ⟨_, wf', told⟩ := opens.undisturbed wf.heap
  have told : invocation.content? id = some (contents.map opened.heap.name) := told
  have short := (wf'.within_held? opens.held).short
  refine ⟨short, ?_⟩
  rw [Metered.exact_cloning _ short, price?, told, ← Contents.length_map opened.heap.name]
  rfl

theorem Fails.provoked {last : Invocation σ} (fails : Fails invocation call fault last) (wf : invocation.WellFormed) :
    invocation.Provoked call fault := by
  cases fails with
  | early rejects => exact rejects.provoked wf
  | @unread _ id _ _ subject checked failed =>
    have allows : invocation.heap.Allows fun _ => True := fun _ => trivial
    have reads := Workspace.materialize_ends wf.heap allows (discloses_true _ _ id)
    exact provoked_of_unreadable (subject_mentioned subject) (reads.error failed).2
  | look opens balks =>
    cases balks with
    | outside => trivial
    | overlong long =>
      -- Contents that come from a record are never too long to be paid for.
      exact absurd (price_cloning wf opens).1 (Nat.not_le.mpr long)
  | refused checked opens refused =>
    rcases Contents.fault_of_refusal? refused with rfl | rfl <;> trivial
  | unpaidCreation refused => exact pay_provoked refused rfl rfl
  | negativeLength pays negative => trivial
  | unpaidCopy opens short refused => exact pay_provoked refused rfl (price_cloning wf opens).2

theorem run_provoked (wf : invocation.WellFormed) (running : invocation.exit? = none) (call : Call) :
    Ends (call.run invocation) (fun _ _ => True) (fun fault _ => invocation.Provoked call fault) := by
  apply run_cases
  · intro fault halted _
    cases halted.symm.trans running
  · intro _
    trivial
  · intro _ _ _ _
    trivial
  · intro fault last _ fails
    exact fails.provoked wf

/-- A fault has its reason outside: before its end an invocation that has not halted fails because of what a
    call asks for or because of a record, and at its end because of a write that the storage refuses. So it
    ends well if its storage refuses none. -/
theorem faults_provoked :
    (∀ {σ : Type} [Storage σ] {storage : σ} {before : Invocation σ}, Reached storage before →
      before.exit? = none →
      (∀ call : Call, Ends (call.run before) (fun _ _ => True) fun fault _ => before.Provoked call fault) ∧
      Ends (finalize before) (fun _ _ => True) fun fault after => ∃ accepted,
        Storage.Refused accepted (before.workspace.writes before.roots.toList)
          (Storage.reserve before.demand storage) fault after.workspace.storage) ∧
    (∀ {memory : Memory} {before : Invocation Memory}, Reached memory before → before.exit? = none →
      ∃ finalized after, finalize before = .ok finalized after) ∧
    ∀ {β : Type} [Storage β] {below : Layers β} {writes : Records} {before : Invocation (Layers β)},
      Reached (.layer below writes) before → before.exit? = none →
      ∃ finalized after, finalize before = .ok finalized after := by
  refine ⟨?_, ?_, ?_⟩
  · intro σ _ storage before reached running
    obtain ⟨rfl, wf, _⟩ := reached.sound
    exact ⟨run_provoked wf running, (finalize_ends wf running).imp (fun _ _ _ => trivial) fun _ _ h => h⟩
  · intro memory before reached running
    exact finalize_succeeds reached.sound.wellFormed running (Storage.accepting_of_reliable _)
  · intro β _ below writes before reached running
    obtain ⟨same, wf, _⟩ := reached.sound
    exact finalize_succeeds wf running (same ▸ Layers.accepting_layer below writes)

def cycleRationed : Invocation (Rationed Memory) :=
  (Call.runAll [.create 1 .reference, .create 1 .reference, .set 0 0 (.reference (some 1)),
    .set 1 0 (.reference (some 0)), .addRoot 0] (start 0 .free ⟨Memory.empty, some ⟨1, .outOfEnergy⟩⟩)).2

theorem cycleRationed_refused : ∃ fault after, finalize cycleRationed = .error fault after ∧
    ∃ accepted, Storage.Refused accepted (cycleRationed.workspace.writes cycleRationed.roots.toList)
      (Storage.reserve cycleRationed.demand ⟨Memory.empty, some ⟨1, .outOfEnergy⟩⟩) fault
      after.workspace.storage := by
  have reached : Reached ⟨Memory.empty, some ⟨1, .outOfEnergy⟩⟩ cycleRationed := ⟨0, .free, _, rfl⟩
  have ran : Ends (finalize cycleRationed) (fun _ _ => False) fun _ _ => True := by decide +kernel
  obtain ⟨fault, after, failed, _⟩ := ran.exists_error fun _ _ => not_false
  have refused := (faults_provoked.1 reached (by decide +kernel)).2.error failed
  exact ⟨fault, after, failed, refused⟩

end Invocation

end MeteredArrays
