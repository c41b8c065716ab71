import MeteredArrays.Storage.Basic

namespace MeteredArrays

structure Ration where
  left : Nat
  refusal : Fault

/-- A storage and the ration of its writes; without one, every write is passed on. -/
structure Rationed (β : Type) where
  backend : β
  ration : Option Ration

namespace Rationed

variable {β : Type} [Storage β]

/-- Writes to the backend if the ration allows it. A refused write changes nothing. -/
def write (slot : Slot) (record : Record) : EStateM Fault (Rationed β) Unit := fun rationed =>
  let pass (ration : Option Ration) : EStateM.Result Fault (Rationed β) Unit :=
    match Storage.write slot record rationed.backend with
    | .ok _ backend => .ok () ⟨backend, ration⟩
    | .error fault backend => .error fault ⟨backend, ration⟩
  match rationed.ration with
  | none => pass none
  | some ⟨0, refusal⟩ => .error refusal rationed
  | some ⟨left + 1, refusal⟩ => pass (some ⟨left, refusal⟩)

instance : Storage (Rationed β) where
  read rationed slot := Storage.read rationed.backend slot
  allocate rationed :=
    let (slot, backend) := Storage.allocate rationed.backend
    (slot, { rationed with backend })
  write := write

end Rationed

end MeteredArrays
