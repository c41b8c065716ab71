import MeteredArrays.Storage.Basic

namespace MeteredArrays

/-- A storage with any number of buffering layers on it. Slots always come from the bottom, so a layer that is
dropped still uses up the slots it reserved. -/
inductive Layers (β : Type) where
  | base (backend : β)
  | layer (below : Layers β) (writes : Records)

namespace Layers

variable {β : Type}

def bottom : Layers β → β
  | base backend => backend
  | layer below _ => below.bottom

def mapBottom (change : β → β) : Layers β → Layers β
  | base backend => base (change backend)
  | layer below writes => layer (below.mapBottom change) writes

def push (layers : Layers β) : Layers β :=
  layer layers ∅

def writes? : Layers β → Option Records
  | base _ => none
  | layer _ writes => some writes

structure Closing (β : Type) where
  notice : Event
  /-- The first write that failed, if one did. The writes before it remain applied. -/
  outcome : Except Fault Unit
  below : Layers β

def discard? : Layers β → Option (Closing β)
  | base _ => none
  | layer below writes => some ⟨.discarding writes.size, .ok (), below⟩

variable [Storage β]

def read (slot : Slot) : Layers β → Option Record
  | base backend => Storage.read backend slot
  | layer below writes =>
    match writes[slot]? with
    | some record => some record
    | none => below.read slot

def allocate : Layers β → Slot × Layers β
  | base backend =>
    let (slot, backend) := Storage.allocate backend
    (slot, base backend)
  | layer below writes =>
    let (slot, below) := below.allocate
    (slot, layer below writes)

def write (slot : Slot) (record : Record) : EStateM Fault (Layers β) Unit
  | base backend =>
    match Storage.write slot record backend with
    | .ok _ backend => .ok () (base backend)
    | .error fault backend => .error fault (base backend)
  | layer below writes => .ok () (layer below (writes.insert slot record))

instance : Storage (Layers β) where
  read layers slot := layers.read slot
  allocate := allocate
  write := write

/-- Writes all of `writes`, in the order of their slots, up to the first write that fails. -/
def apply (writes : Records) : EStateM Fault (Layers β) Unit :=
  writes.toList.forM fun (slot, record) => write slot record

def commit? : Layers β → Option (Closing β)
  | base _ => none
  | layer below writes =>
    some <| match apply writes below with
      | .ok _ below => ⟨.committing writes.size, .ok (), below⟩
      | .error fault below => ⟨.committing writes.size, .error fault, below⟩

end Layers

end MeteredArrays
