import MeteredArrays.Proofs.Record.RoundTrip
import MeteredArrays.Proofs.Rlp.Grammar

namespace MeteredArrays

theorem Contents.length_of_traverse {ρ τ ε σ : Type} {resolve : ρ → EStateM ε σ τ} {contents : Contents ρ}
    {other : Contents τ} {before after : σ} (named : contents.traverse resolve before = .ok other after) :
    other.length = contents.length := by
  cases contents with
  | scalars p elems =>
    cases named
    rfl
  | references targets =>
    rw [traverse_references, estate_map_eq_ok] at named
    obtain ⟨answers, mapped, same⟩ := named
    subst other
    exact estate_length_of_mapM mapped

namespace Record

open Rlp

theorem ofContents_of_encode {ρ ε σ : Type} {resolve : ρ → EStateM ε σ Link} {contents : Contents ρ}
    {before after : σ} {record : Record} (encoded : encode resolve contents before = .ok record after) :
    ∃ links, record = ofContents links ∧ links.length = contents.length := by
  obtain ⟨links, named, same⟩ := estate_map_eq_ok.mp encoded
  exact ⟨links, same.symm, Contents.length_of_traverse named⟩

theorem decode_of_fields? {record : Record} (broken : fields? record = none) (kind : Kind) :
    decode kind record = .error .malformed := by
  simp [decode, broken, orReject, Bind.bind, Except.bind]

/-- The header of a record tells where the record ends. -/
theorem decode_reframed {ρ ε σ : Type} {resolve : ρ → EStateM ε σ Link} {contents : Contents ρ}
    (short : contents.length ≤ maxLength) {before after : σ} {record : Record}
    (encoded : encode resolve contents before = .ok record after) (kind : Kind) :
    (∀ front, front <+: record → front ≠ record → decode kind front = .error .malformed) ∧
    ∀ more, more ≠ [] → decode kind (record ++ more) = .error .malformed := by
  obtain ⟨links, same, count⟩ := ofContents_of_encode encoded
  subst same
  rw [← count] at short
  constructor
  · intro front within proper
    obtain ⟨more, whole⟩ := within
    have parsed := parse?_ofContents links short []
    rw [List.append_nil, ← whole] at parsed
    have cut : more ≠ [] := by
      intro none
      subst none
      exact proper (by rw [← whole, List.append_nil])
    have stopped := parse?_of_cut parsed cut
    exact decode_of_fields? (by simp only [fields?, stopped]) kind
  · intro more extended
    have parsed := parse?_ofContents links short more
    cases more with
    | nil => exact absurd rfl extended
    | cons => exact decode_of_fields? (by simp only [fields?, parsed]) kind

theorem decode_reframed_noted : ∃ record, encode noted (.references #[some 4, none, some 2]) [] = .ok record [4, 2] ∧
    ∀ kind, (∀ front, front <+: record → front ≠ record → decode kind front = .error .malformed) ∧
      ∀ more, more ≠ [] → decode kind (record ++ more) = .error .malformed := by
  have short : (Contents.references #[some 4, none, some 2]).length ≤ maxLength := by decide
  have answered : (Contents.references #[some 4, none, some 2]).targets.mapM noted [] =
    .ok [⟨.primitive .int, ⟨256⟩⟩, ⟨.primitive .int, ⟨128⟩⟩] [4, 2] := rfl
  obtain ⟨links, named, _, _⟩ := Contents.traverse_targets answered
  have encoded : encode noted (.references #[some 4, none, some 2]) [] = .ok (ofContents links) [4, 2] :=
    estate_map_eq_ok.mpr ⟨links, named, rfl⟩
  exact ⟨_, encoded, decode_reframed short encoded⟩

end Record

end MeteredArrays
