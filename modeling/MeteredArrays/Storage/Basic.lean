import MeteredArrays.Event

namespace MeteredArrays

/-- Storage of records. A write that fails may still have changed the storage. -/
class Storage (σ : Type) where
  read : σ → Slot → Option Record
  allocate : σ → Slot × σ
  write : Slot → Record → EStateM Fault σ Unit

abbrev Records := Std.ExtTreeMap Slot Record

end MeteredArrays
