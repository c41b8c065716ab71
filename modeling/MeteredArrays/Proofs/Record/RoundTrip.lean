import MeteredArrays.Proofs.Contents
import MeteredArrays.Proofs.Record

namespace MeteredArrays

namespace Contents

variable {ρ τ ε σ : Type}

theorem mapM_targets {resolve : ρ → EStateM ε σ τ} {targets : List (Option ρ)} {answers : List τ}
    {before after : σ} (answered : (targets.filterMap id).mapM resolve before = .ok answers after) :
    ∃ others, targets.mapM (Option.mapM resolve) before = .ok others after ∧
      List.Forall₂ (Option.Rel fun _ _ => True) targets others ∧ others.filterMap id = answers := by
  induction targets generalizing before answers with
  | nil =>
    cases answered
    exact ⟨[], rfl, .nil, rfl⟩
  | cons target targets ih =>
    rw [List.mapM_cons]
    cases target with
    | none =>
      obtain ⟨others, rest, same, kept⟩ := ih answered
      refine ⟨none :: others, ?_, .cons .none same, kept⟩
      simp only [Option.mapM_none, Bind.bind, EStateM.bind, Pure.pure, EStateM.pure, rest]
    | some target =>
      simp only [List.filterMap_cons, id_eq, List.mapM_cons] at answered
      obtain ⟨answer, middle, here, answered⟩ := estate_bind_eq_ok.mp answered
      obtain ⟨answers', last, there, answered⟩ := estate_bind_eq_ok.mp answered
      cases answered
      obtain ⟨others, rest, same, kept⟩ := ih there
      refine ⟨some answer :: others, ?_, .cons (.some trivial) same, congrArg (answer :: ·) kept⟩
      simp only [Option.mapM_some, Functor.map, EStateM.map, Bind.bind, EStateM.bind, Pure.pure, EStateM.pure,
        here, rest]

theorem traverse_targets {resolve : ρ → EStateM ε σ τ} {contents : Contents ρ} {answers : List τ}
    {before after : σ} (answered : contents.targets.mapM resolve before = .ok answers after) :
    ∃ other, contents.traverse resolve before = .ok other after ∧ Rel (fun _ _ => True) contents other ∧
      other.targets = answers := by
  cases contents with
  | scalars p elems =>
    cases answered
    exact ⟨.scalars p elems, rfl, .scalars p elems, rfl⟩
  | references targets =>
    obtain ⟨others, mapped, same, kept⟩ := mapM_targets answered
    refine ⟨.references others.toArray, ?_, .references same, kept⟩
    rw [traverse_references]
    simp only [Functor.map, EStateM.map, mapped]

end Contents

namespace Record

open Rlp

theorem decode_other_kind {contents : Contents Link} (short : contents.length ≤ maxLength) {kind : Kind}
    (other : kind ≠ contents.kind) : decode kind (ofContents contents) = .error .kindMismatch := by
  simp [decode, fields?_ofContents contents short, orReject, kind?_tag, Ne.symm other, Bind.bind, Except.bind,
    throw, throwThe, MonadExceptOf.throw]

/-- Reading undoes writing. If a resolver that is asked for the targets one after the other answers each of
    them, there is a record, and it reads back as the same elements with the answers in place of the targets;
    under any other kind it is rejected for its kind. -/
theorem decode_encode {ρ ε σ : Type} {resolve : ρ → EStateM ε σ Link} {contents : Contents ρ}
    (short : contents.length ≤ maxLength) {before after : σ} {answers : List Link}
    (answered : contents.targets.mapM resolve before = .ok answers after) :
    ∃ record links, encode resolve contents before = .ok record after ∧
      contents.Rel (fun _ _ => True) links ∧ links.targets = answers ∧
      decode contents.kind record = .ok links ∧
      ∀ kind, kind ≠ contents.kind → decode kind record = .error .kindMismatch := by
  obtain ⟨links, named, same, kept⟩ := Contents.traverse_targets answered
  have written : encode resolve contents before = .ok (ofContents links) after := by
    simp only [encode, Functor.map, EStateM.map, named]
  have short' : links.length ≤ maxLength := same.length_eq.trans_le short
  refine ⟨ofContents links, links, written, same, kept, ?_, fun kind other => ?_⟩
  · rw [← same.kind_eq]
    exact decode_ofContents links short'
  · exact decode_other_kind short' (same.kind_eq.symm ▸ other)

def noted (id : ArrayId) : EStateM Fault (List ArrayId) Link :=
  fun asked => .ok ⟨.primitive .int, ⟨UInt64.ofNat (64 * id)⟩⟩ (asked ++ [id])

theorem decode_encode_noted : ∃ record links,
    encode noted (.references #[some 4, none, some 2]) [] = .ok record [4, 2] ∧
      (Contents.references #[some 4, none, some 2]).Rel (fun _ _ => True) links ∧
      links.targets = [⟨.primitive .int, ⟨256⟩⟩, ⟨.primitive .int, ⟨128⟩⟩] ∧
      decode .reference record = .ok links ∧
      ∀ kind, kind ≠ .reference → decode kind record = .error .kindMismatch :=
  decode_encode (by decide) rfl

end Record

end MeteredArrays
