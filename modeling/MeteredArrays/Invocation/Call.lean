import MeteredArrays.Invocation.Arrays

namespace MeteredArrays

inductive Call where
  | create (length : Int32) (kind : Kind)
  | load (slot : Slot) (kind : Kind)
  | length (id : ArrayId)
  | get (id : ArrayId) (index : Int32)
  | set (id : ArrayId) (index : Int32) (value : Value ArrayId)
  | contents (id : ArrayId)
  | replace (id : ArrayId) (contents : Contents ArrayId)
  | clone (id : ArrayId)
  | addRoot (id : ArrayId)
  | abort
  deriving DecidableEq

inductive Answer where
  | done
  | array (id : ArrayId)
  | length (length : Nat)
  | value (value : Value ArrayId)
  | contents (contents : Contents ArrayId)
  deriving DecidableEq

namespace Call

variable {σ : Type} [Storage σ]

def run : Call → Action σ Answer
  | .create size kind => .array <$> Invocation.create size kind
  | .load slot kind => .array <$> Invocation.load slot kind
  | .length id => .length <$> Invocation.length id
  | .get id index => .value <$> Invocation.get id index
  | .set id index value => (fun _ => .done) <$> Invocation.set id index value
  | .contents id => .contents <$> Invocation.contents id
  | .replace id new => (fun _ => .done) <$> Invocation.replace id new
  | .clone id => .array <$> Invocation.clone id
  | .addRoot id => (fun _ => .done) <$> Invocation.addRoot id
  | .abort => modifyGet fun invocation => (.done, invocation.abort)

/-- Makes calls one after the other, whether they succeed or fail, and collects their answers. -/
def runAll : List Call → Invocation σ → List (Except Fault Answer) × Invocation σ
  | [], invocation => ([], invocation)
  | call :: calls, invocation =>
    let (answer, invocation) : Except Fault Answer × Invocation σ :=
      match call.run invocation with
      | .ok answer invocation => (.ok answer, invocation)
      | .error fault invocation => (.error fault, invocation)
    let (answers, invocation) := runAll calls invocation
    (answer :: answers, invocation)

end Call

end MeteredArrays
