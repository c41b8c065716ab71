import MeteredArrays.Fault
import MeteredArrays.Kind

namespace MeteredArrays

inductive Value (ρ : Type) where
  | scalar (p : Primitive) (elem : p.Elem)
  | reference (target : Option ρ)
  deriving DecidableEq

namespace Value

variable {ρ : Type}

def kind : Value ρ → Kind
  | scalar p _ => .primitive p
  | reference _ => .reference

def default : Kind → Value ρ
  | .primitive p => scalar p p.zero
  | .reference => reference none

def target? : Value ρ → Option ρ
  | scalar _ _ => none
  | reference target => target

end Value

/-- The elements of an array. References name their targets by identity in memory, and by kind and slot in
records. -/
inductive Contents (ρ : Type) where
  | scalars (p : Primitive) (elems : Array p.Elem)
  | references (targets : Array (Option ρ))
  deriving DecidableEq

namespace Contents

variable {ρ τ : Type}

def new (kind : Kind) (length : Nat) : Contents ρ :=
  match kind with
  | .primitive p => scalars p (Array.replicate length p.zero)
  | .reference => references (Array.replicate length none)

def kind : Contents ρ → Kind
  | scalars p _ => .primitive p
  | references _ => .reference

def length : Contents ρ → Nat
  | scalars _ elems => elems.size
  | references targets => targets.size

def get? (index : Nat) : Contents ρ → Option (Value ρ)
  | scalars p elems => elems[index]?.map (.scalar p)
  | references targets => targets[index]?.map .reference

def put (index : Nat) (value : Value ρ) : Contents ρ → Contents ρ
  | scalars p elems =>
    match value with
    | .scalar q elem =>
      if same : q = p then scalars p (elems.setIfInBounds index (same ▸ elem))
      else scalars p elems
    | .reference _ => scalars p elems
  | references targets =>
    match value with
    | .reference target => references (targets.setIfInBounds index target)
    | .scalar _ _ => references targets

/-- Why putting `value` at `index` is refused, if it is. The index is checked before the kind. -/
def refusal? (contents : Contents ρ) (index : Nat) (value : Value ρ) : Option Fault :=
  if contents.length ≤ index then some .invalidIndex
  else if value.kind ≠ contents.kind then some .typeMismatch
  else none

def set (contents : Contents ρ) (index : Nat) (value : Value ρ) : Except Fault (Contents ρ) :=
  match contents.refusal? index value with
  | some fault => .error fault
  | none => .ok (contents.put index value)

def targets : Contents ρ → List ρ
  | scalars _ _ => []
  | references targets => targets.toList.filterMap id

def traverse {m : Type → Type} [Monad m] (rename : ρ → m τ) : Contents ρ → m (Contents τ)
  | scalars p elems => pure (scalars p elems)
  | references targets => references <$> targets.mapM fun
      | none => pure none
      | some target => some <$> rename target

end Contents

end MeteredArrays
