import MeteredArrays.Storage.Basic

namespace MeteredArrays

structure Memory where
  records : Records
  /-- The slots from here on are not handed out yet. -/
  next : Slot

namespace Memory

def empty : Memory := ⟨∅, ⟨0⟩⟩

def insert (memory : Memory) (slot : Slot) (record : Record) : Memory :=
  { memory with records := memory.records.insert slot record }

def after (slot : Slot) : Slot :=
  ⟨slot.number + 1⟩

def firstFree (records : Records) : (tries : Nat) → (slot : Slot) → Slot
  | 0, slot => slot
  | tries + 1, slot => if slot ∈ records then firstFree records tries (after slot) else slot

/-- Reserves the first slot from the counter on that holds no record. One of `size + 1` slots is
free, so the search ends there. -/
def allocate (memory : Memory) : Slot × Memory :=
  let slot := firstFree memory.records (memory.records.size + 1) memory.next
  (slot, { memory with next := after slot })

instance : Storage Memory where
  read memory slot := memory.records[slot]?
  allocate := allocate
  write slot record := modify (·.insert slot record)

end Memory

end MeteredArrays
