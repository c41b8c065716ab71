import MeteredArrays.Contents
import MeteredArrays.Proofs.Effects

namespace MeteredArrays

def Value.map {ρ τ : Type} (rename : ρ → τ) : Value ρ → Value τ
  | scalar p elem => scalar p elem
  | reference target => reference (target.map rename)

theorem Value.map_congr {ρ τ : Type} {rename rename' : ρ → τ} {value : Value ρ}
    (same : ∀ target, value.target? = some target → rename target = rename' target) :
    value.map rename = value.map rename' := by
  cases value with
  | scalar p elem => rfl
  | reference target =>
    cases target with
    | none => rfl
    | some target => rw [map, map, Option.map_some, Option.map_some, same target rfl]

namespace Contents

variable {ρ τ υ : Type}

def map (rename : ρ → τ) : Contents ρ → Contents τ
  | scalars p elems => scalars p elems
  | references targets => references (targets.map (Option.map rename))

@[simp]
theorem kind_map (rename : ρ → τ) (contents : Contents ρ) : (contents.map rename).kind = contents.kind := by
  cases contents <;> rfl

@[simp]
theorem length_map (rename : ρ → τ) (contents : Contents ρ) :
    (contents.map rename).length = contents.length := by
  cases contents with
  | scalars p elems => rfl
  | references targets => exact Array.size_map

theorem get?_map (rename : ρ → τ) (contents : Contents ρ) (index : Nat) :
    (contents.map rename).get? index = (contents.get? index).map (Value.map rename) := by
  cases contents with
  | scalars p elems => simp [map, get?, Value.map, Function.comp_def]
  | references targets => simp [map, get?, Value.map, Function.comp_def]

theorem targets_map (rename : ρ → τ) (contents : Contents ρ) :
    (contents.map rename).targets = contents.targets.map rename := by
  cases contents with
  | scalars p elems => rfl
  | references targets =>
    simp [map, Contents.targets, List.filterMap_map, List.map_filterMap]

theorem map_congr {rename rename' : ρ → τ} {contents : Contents ρ}
    (same : ∀ target ∈ contents.targets, rename target = rename' target) :
    contents.map rename = contents.map rename' := by
  cases contents with
  | scalars p elems => rfl
  | references targets =>
    refine congrArg references (Array.map_congr_left fun target member => ?_)
    cases target with
    | none => rfl
    | some target =>
      rw [Option.map_some, Option.map_some, same target]
      simpa [Contents.targets] using member

theorem list_eq_of_map_eq {rename : ρ → τ} {list other : List (Option ρ)}
    (same : list.map (Option.map rename) = other.map (Option.map rename))
    (distinct : ∀ target, some target ∈ list → ∀ target', some target' ∈ other →
      rename target = rename target' → target = target') : list = other := by
  induction list generalizing other with
  | nil => exact (List.map_eq_nil_iff.mp same.symm).symm
  | cons entry list ih =>
    cases other with
    | nil => cases same
    | cons entry' other =>
      rw [List.map_cons, List.map_cons, List.cons.injEq] at same
      obtain ⟨here, rest⟩ := same
      rw [ih rest fun target member target' member' =>
        distinct target (List.mem_cons_of_mem _ member) target' (List.mem_cons_of_mem _ member')]
      congr 1
      cases entry with
      | none =>
        cases entry' with
        | none => rfl
        | some target' => cases here
      | some target =>
        cases entry' with
        | none => cases here
        | some target' =>
          rw [distinct target List.mem_cons_self target' List.mem_cons_self (Option.some.inj here)]

theorem eq_of_map_eq {rename : ρ → τ} {contents other : Contents ρ}
    (same : contents.map rename = other.map rename)
    (distinct : ∀ target ∈ contents.targets, ∀ target' ∈ other.targets, rename target = rename target' →
      target = target') : contents = other := by
  cases contents with
  | scalars p elems =>
    cases other with
    | references => cases same
    | scalars p' elems' =>
      cases same
      rfl
  | references targets =>
    cases other with
    | scalars => cases same
    | references targets' =>
      have lists := congrArg Array.toList (references.inj same)
      rw [Array.toList_map, Array.toList_map] at lists
      apply congrArg references
      apply Array.toList_inj.mp
      apply list_eq_of_map_eq lists
      intro target member target' member'
      exact distinct target (by simpa [Contents.targets] using member) target'
        (by simpa [Contents.targets] using member')

theorem map_new (rename : ρ → τ) (kind : Kind) (count : Nat) :
    (new kind count : Contents ρ).map rename = new kind count := by
  cases kind with
  | primitive p => rfl
  | reference => simp [new, map]

@[simp]
theorem kind_put (index : Nat) (value : Value ρ) (contents : Contents ρ) :
    (contents.put index value).kind = contents.kind := by
  cases contents <;> cases value
  · simp only [put]
    split <;> rfl
  all_goals rfl

@[simp]
theorem length_put (index : Nat) (value : Value ρ) (contents : Contents ρ) :
    (contents.put index value).length = contents.length := by
  cases contents <;> cases value
  · simp only [put]
    split
    · simp [length]
    · rfl
  · rfl
  · rfl
  · simp [put, length]

theorem targets_put (index : Nat) (value : Value ρ) (contents : Contents ρ) {target : ρ}
    (member : target ∈ (contents.put index value).targets) :
    target ∈ contents.targets ∨ value.target? = some target := by
  cases contents with
  | scalars p elems =>
    cases value with
    | scalar q elem =>
      simp only [put] at member
      split at member <;> cases member
    | reference => cases member
  | references sources =>
    cases value with
    | scalar => exact Or.inl member
    | reference new =>
      simp only [put, targets, Array.toList_setIfInBounds, List.mem_filterMap, id_eq, exists_eq_right] at member ⊢
      rcases List.mem_or_eq_of_mem_set member with old | same
      · exact Or.inl old
      · exact Or.inr same.symm

theorem refusal?_eq_none {contents : Contents ρ} {index : Nat} {value : Value ρ} :
    contents.refusal? index value = none ↔ index < contents.length ∧ value.kind = contents.kind := by
  unfold refusal?
  split
  · rename_i outside
    simp [Nat.not_lt.mpr outside]
  · rename_i inside
    simp [Nat.lt_of_not_le inside]

theorem fault_of_refusal? {contents : Contents ρ} {index : Nat} {value : Value ρ} {fault : Fault}
    (refused : contents.refusal? index value = some fault) : fault = .invalidIndex ∨ fault = .typeMismatch := by
  unfold refusal? at refused
  split at refused
  · cases refused
    exact Or.inl rfl
  · split at refused <;> cases refused
    exact Or.inr rfl

theorem get?_put {contents : Contents ρ} {index : Nat} {value : Value ρ}
    (accepted : contents.refusal? index value = none) (other : Nat) :
    (contents.put index value).get? other = if other = index then some value else contents.get? other := by
  obtain ⟨inside, same⟩ := refusal?_eq_none.mp accepted
  cases contents with
  | scalars p elems =>
    cases value with
    | reference => cases same
    | scalar q elem =>
      cases same
      have inside : index < elems.size := inside
      by_cases here : other = index
      · subst other
        simp [put, get?, inside]
      · simp [put, get?, here, Ne.symm here]
  | references targets =>
    cases value with
    | scalar => cases same
    | reference target =>
      have inside : index < targets.size := inside
      by_cases here : other = index
      · subst other
        simp [put, get?, inside]
      · simp [put, get?, here, Ne.symm here]

/-- `after` has `value` at `index` and is otherwise as `before`. -/
structure Puts (index : Nat) (value : Value ρ) (before after : Contents ρ) : Prop where
  kind : after.kind = before.kind
  length : after.length = before.length
  get? : ∀ other, after.get? other = if other = index then some value else before.get? other

theorem puts_put {contents : Contents ρ} {index : Nat} {value : Value ρ}
    (accepted : contents.refusal? index value = none) : Puts index value contents (contents.put index value) :=
  ⟨kind_put index value contents, length_put index value contents, get?_put accepted⟩

theorem Puts.map {index : Nat} {value : Value ρ} {before after : Contents ρ} (puts : Puts index value before after)
    (rename : ρ → τ) : Puts index (value.map rename) (before.map rename) (after.map rename) := by
  refine ⟨by simp [puts.kind], by simp [puts.length], fun other => ?_⟩
  rw [get?_map, get?_map, puts.get?]
  split <;> rfl

theorem lt_length_of_get? {contents : Contents ρ} {index : Nat} {value : Value ρ}
    (found : contents.get? index = some value) : index < contents.length := by
  cases contents with
  | scalars p elems =>
    obtain ⟨elem, here, _⟩ := Option.map_eq_some_iff.mp found
    exact (Array.getElem?_eq_some_iff.mp here).1
  | references targets =>
    obtain ⟨target, here, _⟩ := Option.map_eq_some_iff.mp found
    exact (Array.getElem?_eq_some_iff.mp here).1

theorem mem_targets_of_get? {contents : Contents ρ} {index : Nat} {target : ρ}
    (found : contents.get? index = some (.reference (some target))) : target ∈ contents.targets := by
  cases contents with
  | scalars p elems =>
    obtain ⟨elem, _, same⟩ := Option.map_eq_some_iff.mp found
    cases same
  | references targets =>
    obtain ⟨entry, here, same⟩ := Option.map_eq_some_iff.mp found
    cases same
    have member := Array.mem_toList_iff.mpr (Array.mem_of_getElem? here)
    simpa [Contents.targets] using member

theorem targets_new (kind : Kind) (count : Nat) : (new kind count : Contents ρ).targets = [] := by
  cases kind with
  | primitive p => rfl
  | reference => simp [new, targets]

theorem length_new (kind : Kind) (count : Nat) : (new kind count : Contents ρ).length = count := by
  cases kind <;> simp [new, length]

inductive Rel (related : ρ → τ → Prop) : Contents ρ → Contents τ → Prop
  | scalars (p : Primitive) (elems : Array p.Elem) : Rel related (.scalars p elems) (.scalars p elems)
  | references {targets : Array (Option ρ)} {others : Array (Option τ)}
      (same : List.Forall₂ (Option.Rel related) targets.toList others.toList) :
      Rel related (.references targets) (.references others)

namespace Rel

variable {related : ρ → τ → Prop} {contents : Contents ρ} {other : Contents τ}

theorem kind_eq (rel : Rel related contents other) : other.kind = contents.kind := by
  cases rel <;> rfl

theorem length_eq (rel : Rel related contents other) : other.length = contents.length := by
  cases rel with
  | scalars => rfl
  | references same => simpa [Contents.length] using same.length_eq.symm

theorem map_eq {rename : ρ → υ} {rename' : τ → υ} (rel : Rel related contents other)
    (same : ∀ a b, related a b → rename a = rename' b) : contents.map rename = other.map rename' := by
  cases rel with
  | scalars p elems => rfl
  | @references sources others all =>
    refine congrArg Contents.references (Array.toList_inj.mp ?_)
    rw [Array.toList_map, Array.toList_map]
    generalize sources.toList = list at all
    generalize others.toList = list' at all
    induction all with
    | nil => rfl
    | cons here _ ih =>
      cases here with
      | none => rw [List.map_cons, List.map_cons, ih, Option.map_none, Option.map_none]
      | some here => rw [List.map_cons, List.map_cons, ih, Option.map_some, Option.map_some, same _ _ here]

theorem targets (rel : Rel related contents other) : List.Forall₂ related contents.targets other.targets := by
  cases rel with
  | scalars => exact .nil
  | @references sources others same =>
    simp only [Contents.targets]
    generalize sources.toList = list at same ⊢
    generalize others.toList = list' at same ⊢
    induction same with
    | nil => exact .nil
    | cons here _ ih =>
      cases here with
      | none => simpa using ih
      | some here => simpa using ⟨here, ih⟩

theorem imp {related' : ρ → τ → Prop} (rel : Rel related contents other)
    (weaker : ∀ a ∈ contents.targets, ∀ b, related a b → related' a b) : Rel related' contents other := by
  cases rel with
  | scalars p elems => exact .scalars p elems
  | @references sources others same =>
    constructor
    simp only [Contents.targets] at weaker
    generalize sources.toList = list at same weaker
    generalize others.toList = list' at same
    induction same with
    | nil => exact .nil
    | @cons target other _ _ here _ ih =>
      cases here with
      | none => exact .cons .none (ih fun a member => weaker a (by simpa using member))
      | @some a b here =>
        refine .cons (.some (weaker a (by simp) b here)) (ih fun a member => weaker a ?_)
        simp only [List.filterMap_cons, id_eq, List.mem_cons]
        exact Or.inr member

theorem get?_reference (rel : Rel related contents other) {index : Nat} {target : ρ}
    (found : contents.get? index = some (.reference (some target))) :
    ∃ target', other.get? index = some (.reference (some target')) ∧ related target target' := by
  cases rel with
  | scalars p elems =>
    obtain ⟨elem, _, same⟩ := Option.map_eq_some_iff.mp found
    cases same
  | @references sources others same =>
    obtain ⟨entry, here, same'⟩ := Option.map_eq_some_iff.mp found
    cases same'
    obtain ⟨inside, here⟩ := Array.getElem?_eq_some_iff.mp here
    have inside' : index < others.size := by
      have sizes := same.length_eq
      simp only [Array.length_toList] at sizes
      omega
    have entry := List.Forall₂.get same (by simpa using inside) (by simpa using inside')
    simp only [List.get_eq_getElem, Array.getElem_toList, here] at entry
    cases there : others[index] with
    | none =>
      rw [there] at entry
      cases entry
    | some target' =>
      rw [there] at entry
      cases entry with
      | some related =>
        refine ⟨target', ?_, related⟩
        rw [Contents.get?, Array.getElem?_eq_getElem inside', there]
        rfl

theorem flip (rel : Rel related contents other) : Rel (fun b a => related a b) other contents := by
  cases rel with
  | scalars p elems => exact .scalars p elems
  | references same =>
    refine .references (List.Forall₂.flip (same.imp ?_))
    intro a b here
    cases here with
    | none => exact .none
    | some here => exact .some here

theorem comp {related' : τ → υ → Prop} {third : Contents υ} (first : Rel related contents other)
    (second : Rel related' other third) : Rel (fun a c => ∃ b, related a b ∧ related' b c) contents third := by
  cases first with
  | scalars p elems =>
    cases second
    exact .scalars p elems
  | @references sources middles one =>
    cases second with
    | @references _ lasts two =>
      refine .references ((forall₂_comp one two).imp ?_)
      rintro target last ⟨middle, here, there⟩
      cases here with
      | none =>
        cases there
        exact .none
      | some here =>
        cases there with
        | some there => exact .some ⟨_, here, there⟩

end Rel

theorem traverse_references {m : Type → Type} [Monad m] [LawfulMonad m] (rename : ρ → m τ)
    (targets : Array (Option ρ)) : (references targets).traverse rename =
      (fun list => references list.toArray) <$> targets.toList.mapM (Option.mapM rename) := by
  rw [traverse, Array.mapM_eq_mapM_toList]
  refine (Functor.map_map _ _ _).trans (congrArg _ (congrArg targets.toList.mapM (funext fun target => ?_)))
  cases target <;> rfl

theorem traverse_map {m : Type → Type} [Monad m] [LawfulMonad m] {rename : ρ → τ} {resolve : ρ → m υ}
    {resolve' : τ → m υ} {contents : Contents ρ}
    (same : ∀ target ∈ contents.targets, resolve' (rename target) = resolve target) :
    (contents.map rename).traverse resolve' = contents.traverse resolve := by
  cases contents with
  | scalars p elems => rfl
  | references targets =>
    rw [map, traverse_references, traverse_references, Array.toList_map]
    refine congrArg _ ?_
    simp only [Contents.targets] at same
    generalize targets.toList = list at same ⊢
    induction list with
    | nil => rfl
    | cons target list ih =>
      have here : (target.map rename).mapM resolve' = target.mapM resolve := by
        cases target with
        | none => rfl
        | some target => rw [Option.map_some, Option.mapM_some, Option.mapM_some, same target (by simp)]
      rw [List.map_cons, List.mapM_cons, List.mapM_cons, here, ih fun target member => same target ?_]
      simp only [List.filterMap_cons]
      split
      · exact member
      · exact List.mem_cons_of_mem _ member

theorem option_mapM_eq_ok {ε : Type} {rename : ρ → Except ε τ} {target : Option ρ} {answer : Option τ} :
    target.mapM rename = .ok answer ↔ Option.Rel (fun a b => rename a = .ok b) target answer := by
  constructor
  · intro h
    cases target with
    | none =>
      cases h
      exact .none
    | some a =>
      obtain ⟨b, renamed, h⟩ := except_bind_eq_ok.mp ((map_eq_pure_bind _ _).symm.trans h)
      cases h
      exact .some renamed
  · intro rel
    cases rel with
    | none => rfl
    | some renamed =>
      rw [Option.mapM_some, renamed]
      rfl

theorem traverse_eq_ok {ε : Type} {rename : ρ → Except ε τ} {contents : Contents ρ} {other : Contents τ} :
    contents.traverse rename = .ok other ↔ Rel (fun a b => rename a = .ok b) contents other := by
  cases contents with
  | scalars p elems =>
    constructor
    · intro h
      cases h
      exact .scalars p elems
    · intro rel
      cases rel
      rfl
  | references targets =>
    rw [traverse_references, map_eq_pure_bind, except_bind_eq_ok]
    constructor
    · rintro ⟨answers, mapped, h⟩
      cases h
      exact .references ((except_mapM_eq_ok.mp mapped).imp fun _ _ => option_mapM_eq_ok.mp)
    · intro rel
      cases rel with
      | references same =>
        exact ⟨_, except_mapM_eq_ok.mpr (same.imp fun _ _ => option_mapM_eq_ok.mpr), rfl⟩

theorem option_mapM_succeeds {ε : Type} {rename : ρ → Except ε τ} {target : Option ρ}
    (each : ∀ a, target = some a → ∃ b, rename a = .ok b) : ∃ answer, target.mapM rename = .ok answer := by
  cases target with
  | none => exact ⟨none, rfl⟩
  | some a =>
    obtain ⟨b, renamed⟩ := each a rfl
    exact ⟨some b, option_mapM_eq_ok.mpr (.some renamed)⟩

theorem traverse_succeeds {ε : Type} {rename : ρ → Except ε τ} {contents : Contents ρ}
    (each : ∀ target ∈ contents.targets, ∃ other, rename target = .ok other) :
    ∃ other, contents.traverse rename = .ok other := by
  cases contents with
  | scalars p elems => exact ⟨.scalars p elems, rfl⟩
  | references targets =>
    obtain ⟨answers, mapped⟩ := except_mapM_succeeds (Option.mapM rename) targets.toList
      fun target member => option_mapM_succeeds fun a same => each a (by
        subst same
        simpa [Contents.targets] using member)
    refine ⟨references answers.toArray, ?_⟩
    rw [traverse_references, mapped]
    rfl

end Contents

end MeteredArrays
