import MeteredArrays.Invocation.Arrays

namespace MeteredArrays.Invocation

variable {σ : Type} [Storage σ]

/-- Makes `count` more arrays of one reference each. The first one refers to `last?`, every other
one to the one before it. Answers the array made last. -/
def chain (last? : Option ArrayId) : (count : Nat) → Action σ (Option ArrayId)
  | 0 => return last?
  | count + 1 => do
    let id ← create 1 .reference
    set id 0 (.reference last?)
    chain (some id) count

def follow (id : ArrayId) (hops : Nat) : (count : Nat) → Action σ (ArrayId × Nat)
  | 0 => return (id, hops)
  | count + 1 => do
    match ← get id 0 with
    | .reference (some target) => follow target (hops + 1) count
    | _ => return (id, hops)

end MeteredArrays.Invocation
