import MeteredArrays.Contents
import MeteredArrays.Slot

namespace MeteredArrays

/-- An array is made with contents and without a slot, or named with a slot and without contents. Reading its
record or a commit leads to the loaded state, which is final. -/
inductive LiveArray where
  | fresh (contents : Contents ArrayId) (dirty : Bool)
  | named (kind : Kind) (slot : Slot)
  | loaded (slot : Slot) (contents : Contents ArrayId) (dirty : Bool)
  deriving DecidableEq

namespace LiveArray

def kind : LiveArray → Kind
  | fresh contents _ | loaded _ contents _ => contents.kind
  | named kind _ => kind

def slot? : LiveArray → Option Slot
  | fresh .. => none
  | named _ slot | loaded slot .. => some slot

def contents? : LiveArray → Option (Contents ArrayId)
  | fresh contents _ | loaded _ contents _ => some contents
  | named .. => none

def isBound (array : LiveArray) : Bool :=
  array.slot?.isSome

def isMaterialized (array : LiveArray) : Bool :=
  array.contents?.isSome

def isDirty : LiveArray → Bool
  | fresh _ dirty | loaded _ _ dirty => dirty
  | named .. => false

def length? (array : LiveArray) : Option Nat :=
  array.contents?.map Contents.length

def needsWriting : LiveArray → Bool
  | fresh .. => true
  | named .. => false
  | loaded _ _ dirty => dirty

def load (contents : Contents ArrayId) : LiveArray → LiveArray
  | named _ slot => loaded slot contents false
  | array => array

def touch : LiveArray → LiveArray
  | fresh contents _ => fresh contents true
  | loaded slot contents _ => loaded slot contents true
  | array => array

def mapContents (change : Contents ArrayId → Contents ArrayId) : LiveArray → LiveArray
  | fresh contents dirty => fresh (change contents) dirty
  | loaded slot contents dirty => loaded slot (change contents) dirty
  | array => array

def bind (slot : Slot) : LiveArray → LiveArray
  | fresh contents dirty => loaded slot contents dirty
  | array => array

def clean : LiveArray → LiveArray
  | fresh contents _ => fresh contents false
  | loaded slot contents _ => loaded slot contents false
  | array => array

end LiveArray

end MeteredArrays
