import Mathlib.Data.List.Forall2

namespace MeteredArrays

variable {ε σ α β : Type}

theorem forall₂_exists_of_mem {related : α → β → Prop} {list : List α} {others : List β}
    (all : List.Forall₂ related list others) {elem : α} (member : elem ∈ list) :
    ∃ other ∈ others, related elem other := by
  induction all with
  | nil => cases member
  | cons here _ ih =>
    rcases List.mem_cons.mp member with rfl | member
    · exact ⟨_, List.mem_cons_self, here⟩
    · obtain ⟨other, there, found⟩ := ih member
      exact ⟨other, List.mem_cons_of_mem _ there, found⟩

theorem exists_forall₂ {related : α → β → Prop} {list : List α}
    (each : ∀ elem ∈ list, ∃ other, related elem other) : ∃ others, List.Forall₂ related list others := by
  induction list with
  | nil => exact ⟨[], .nil⟩
  | cons elem list ih =>
    obtain ⟨other, here⟩ := each elem List.mem_cons_self
    obtain ⟨others, rest⟩ := ih fun elem' member => each elem' (List.mem_cons_of_mem _ member)
    exact ⟨other :: others, .cons here rest⟩

theorem forall₂_comp {γ : Type} {related : α → β → Prop} {related' : β → γ → Prop} {list : List α}
    {middles : List β} {others : List γ} (first : List.Forall₂ related list middles)
    (second : List.Forall₂ related' middles others) :
    List.Forall₂ (fun a c => ∃ b, related a b ∧ related' b c) list others := by
  induction first generalizing others with
  | nil =>
    cases second
    exact .nil
  | cons here _ ih =>
    cases second with
    | cons there rest => exact .cons ⟨_, here, there⟩ (ih rest)

theorem forall₂_nodup_map {γ : Type} {related : α → β → Prop} {list : List α} {others : List β} {key : β → γ}
    (all : List.Forall₂ related list others) (nodup : list.Nodup)
    (distinct : ∀ {elem elem' other other'}, related elem other → related elem' other' →
      key other = key other' → elem = elem') : (others.map key).Nodup := by
  induction all with
  | nil => exact .nil
  | cons here rest ih =>
    rw [List.nodup_cons] at nodup
    refine List.nodup_cons.mpr ⟨fun member => ?_, ih nodup.2⟩
    obtain ⟨other, there, same⟩ := List.mem_map.mp member
    obtain ⟨elem, inside, found⟩ := forall₂_exists_of_mem (List.Forall₂.flip (R := flip related) rest) there
    exact nodup.1 (distinct found here same ▸ inside)

theorem filter_concat (holds : α → Bool) (list : List α) (elem : α) :
    (list ++ [elem]).filter holds = if holds elem then list.filter holds ++ [elem] else list.filter holds := by
  rw [List.filter_append, List.filter_singleton]
  cases holds elem with
  | false => exact List.append_nil _
  | true => rfl

theorem filterMap_concat (f : α → Option β) (list : List α) (elem : α) :
    (list ++ [elem]).filterMap f = list.filterMap f ++ (f elem).toList := by
  rw [List.filterMap_append, List.filterMap_cons]
  cases f elem <;> rfl

theorem except_bind_eq_ok {first : Except ε α} {next : α → Except ε β} {answer : β} :
    first >>= next = .ok answer ↔ ∃ middle, first = .ok middle ∧ next middle = .ok answer := by
  cases first <;> simp [Bind.bind, Except.bind]

theorem estate_bind_eq_ok {first : EStateM ε σ α} {next : α → EStateM ε σ β} {before after : σ} {answer : β} :
    (first >>= next) before = .ok answer after ↔
      ∃ middle state, first before = .ok middle state ∧ next middle state = .ok answer after := by
  simp only [Bind.bind, EStateM.bind]
  cases first before <;> simp

theorem estate_map_eq_ok {first : EStateM ε σ α} {change : α → β} {before after : σ} {answer : β} :
    (change <$> first) before = .ok answer after ↔
      ∃ middle, first before = .ok middle after ∧ change middle = answer := by
  simp only [Functor.map, EStateM.map]
  cases first before with
  | ok middle state => simp [and_comm]
  | error fault state => simp

theorem estate_bind_of_ok {first : EStateM ε σ α} {next : α → EStateM ε σ β} {before after : σ} {answer : α}
    (ran : first before = .ok answer after) : (first >>= next) before = next answer after := by
  simp only [Bind.bind, EStateM.bind, ran]

theorem estate_bind_of_error {first : EStateM ε σ α} {next : α → EStateM ε σ β} {before after : σ} {fault : ε}
    (failed : first before = .error fault after) : (first >>= next) before = .error fault after := by
  simp only [Bind.bind, EStateM.bind, failed]

theorem estate_map_eq_error {first : EStateM ε σ α} {change : α → β} {before after : σ} {fault : ε} :
    (change <$> first) before = .error fault after ↔ first before = .error fault after := by
  simp only [Functor.map, EStateM.map]
  cases first before <;> simp

theorem estate_length_of_mapM {step : α → EStateM ε σ β} {list : List α} {answers : List β} {before after : σ}
    (mapped : list.mapM step before = .ok answers after) : answers.length = list.length := by
  induction list generalizing answers before with
  | nil =>
    cases mapped
    rfl
  | cons elem list ih =>
    rw [List.mapM_cons] at mapped
    obtain ⟨answer, middle, _, mapped⟩ := estate_bind_eq_ok.mp mapped
    obtain ⟨others, last, rest, mapped⟩ := estate_bind_eq_ok.mp mapped
    cases mapped
    rw [List.length_cons, List.length_cons, ih rest]

theorem except_mapM_eq_ok {step : α → Except ε β} {list : List α} {answers : List β} :
    list.mapM step = .ok answers ↔ List.Forall₂ (fun elem answer => step elem = .ok answer) list answers := by
  induction list generalizing answers with
  | nil =>
    rw [List.mapM_nil, List.forall₂_nil_left_iff]
    exact ⟨fun h => (Except.ok.inj h).symm, fun h => congrArg _ h.symm⟩
  | cons elem list ih =>
    rw [List.mapM_cons, List.forall₂_cons_left_iff, except_bind_eq_ok]
    constructor
    · rintro ⟨answer, here, rest⟩
      obtain ⟨others, there, rest⟩ := except_bind_eq_ok.mp rest
      cases rest
      exact ⟨answer, others, here, ih.mp there, rfl⟩
    · rintro ⟨answer, others, here, there, rfl⟩
      exact ⟨answer, here, except_bind_eq_ok.mpr ⟨others, ih.mpr there, rfl⟩⟩

theorem except_mapM_succeeds (step : α → Except ε β) (list : List α)
    (each : ∀ elem ∈ list, ∃ answer, step elem = .ok answer) : ∃ answers, list.mapM step = .ok answers := by
  obtain ⟨answers, all⟩ := exists_forall₂ each
  exact ⟨answers, except_mapM_eq_ok.mpr all⟩

theorem forall₂_filterMap_toOption {step : α → Except ε β} {list : List α}
    (each : ∀ elem ∈ list, ∃ answer, step elem = .ok answer) :
    List.Forall₂ (fun elem answer => step elem = .ok answer) list
      (list.filterMap fun elem => (step elem).toOption) := by
  induction list with
  | nil => exact .nil
  | cons elem list ih =>
    obtain ⟨answer, here⟩ := each elem List.mem_cons_self
    rw [List.filterMap_cons, here]
    exact .cons here (ih fun other member => each other (List.mem_cons_of_mem _ member))

theorem option_mapM_eq_some {step : α → Option β} {list : List α} {answers : List β} :
    list.mapM step = some answers ↔ List.Forall₂ (fun elem answer => step elem = some answer) list answers := by
  induction list generalizing answers with
  | nil =>
    rw [List.mapM_nil, List.forall₂_nil_left_iff]
    exact ⟨fun h => (Option.some.inj h).symm, fun h => congrArg _ h.symm⟩
  | cons elem list ih =>
    rw [List.mapM_cons, List.forall₂_cons_left_iff]
    constructor
    · intro h
      obtain ⟨answer, here, h⟩ := Option.bind_eq_some_iff.mp h
      obtain ⟨others, there, h⟩ := Option.bind_eq_some_iff.mp h
      cases h
      exact ⟨answer, others, here, ih.mp there, rfl⟩
    · intro h
      obtain ⟨answer, others, here, there, rfl⟩ := h
      rw [here, ih.mpr there]
      rfl

theorem forM_cons_apply (step : α → EStateM ε σ PUnit) (elem : α) (list : List α) (state : σ) :
    (elem :: list).forM step state = EStateM.bind (step elem) (fun _ => list.forM step) state := rfl

/-- `post` holds if the computation ended well, `fail` if it ended in a fault. -/
def Ends (result : EStateM.Result ε σ α) (post : α → σ → Prop) (fail : ε → σ → Prop) : Prop :=
  match result with
  | .ok answer state => post answer state
  | .error fault state => fail fault state

namespace Ends

variable {post : α → σ → Prop} {fail : ε → σ → Prop}

instance {result : EStateM.Result ε σ α} [∀ answer state, Decidable (post answer state)]
    [∀ fault state, Decidable (fail fault state)] : Decidable (Ends result post fail) :=
  match result with
  | .ok answer state => inferInstanceAs (Decidable (post answer state))
  | .error fault state => inferInstanceAs (Decidable (fail fault state))

theorem ok {result : EStateM.Result ε σ α} {answer : α} {state : σ} (ends : Ends result post fail)
    (done : result = .ok answer state) : post answer state := by
  rw [done] at ends
  exact ends

theorem error {result : EStateM.Result ε σ α} {fault : ε} {state : σ} (ends : Ends result post fail)
    (failed : result = .error fault state) : fail fault state := by
  rw [failed] at ends
  exact ends

theorem exists_ok {result : EStateM.Result ε σ α} (ends : Ends result post fail)
    (never : ∀ fault state, ¬ fail fault state) : ∃ answer state, result = .ok answer state ∧ post answer state := by
  cases result with
  | ok answer state => exact ⟨answer, state, rfl, ends⟩
  | error fault state => exact absurd ends (never fault state)

theorem exists_error {result : EStateM.Result ε σ α} (ends : Ends result post fail)
    (never : ∀ answer state, ¬ post answer state) : ∃ fault state, result = .error fault state ∧ fail fault state := by
  cases result with
  | ok answer state => exact absurd ends (never answer state)
  | error fault state => exact ⟨fault, state, rfl, ends⟩

theorem imp {result : EStateM.Result ε σ α} {post' : α → σ → Prop} {fail' : ε → σ → Prop}
    (ends : Ends result post fail) (onPost : ∀ answer state, post answer state → post' answer state)
    (onFail : ∀ fault state, fail fault state → fail' fault state) : Ends result post' fail' := by
  cases result with
  | ok answer state => exact onPost _ _ ends
  | error fault state => exact onFail _ _ ends

theorem imp_fail {result : EStateM.Result ε σ α} {fail' : ε → σ → Prop} (ends : Ends result post fail)
    (onFail : ∀ fault state, fail fault state → fail' fault state) : Ends result post fail' :=
  ends.imp (fun _ _ h => h) onFail

theorem and {result : EStateM.Result ε σ α} {post' : α → σ → Prop} {fail' : ε → σ → Prop}
    (ends : Ends result post fail) (ends' : Ends result post' fail') :
    Ends result (fun answer state => post answer state ∧ post' answer state)
      (fun fault state => fail fault state ∧ fail' fault state) := by
  cases result with
  | ok answer state => exact ⟨ends, ends'⟩
  | error fault state => exact ⟨ends, ends'⟩

theorem bind {first : EStateM ε σ α} {next : α → EStateM ε σ β} {state : σ}
    {middle : α → σ → Prop} {post : β → σ → Prop} (begins : Ends (first state) middle fail)
    (continues : ∀ answer after, middle answer after → Ends (next answer after) post fail) :
    Ends ((first >>= next) state) post fail := by
  simp only [Bind.bind, EStateM.bind]
  cases result : first state with
  | ok answer after =>
    rw [result] at begins
    exact continues answer after begins
  | error fault after =>
    rw [result] at begins
    exact begins

theorem map {first : EStateM ε σ α} {change : α → β} {state : σ} {post : β → σ → Prop}
    (ends : Ends (first state) (fun answer => post (change answer)) fail) :
    Ends ((change <$> first) state) post fail := by
  simp only [Functor.map, EStateM.map]
  cases result : first state with
  | ok answer after =>
    rw [result] at ends
    exact ends
  | error fault after =>
    rw [result] at ends
    exact ends

theorem mapM {step : α → EStateM ε σ β} (keeps : σ → Prop) (before : σ → σ → Prop)
    (related : σ → α → β → Prop) (fail : ε → σ → Prop) (refl : ∀ state, before state state)
    (trans : ∀ {first second third}, before first second → before second third → before first third)
    (stable : ∀ {state after elem answer}, keeps state → before state after → related state elem answer →
      related after elem answer)
    (list : List α) (state : σ)
    (steps : ∀ elem ∈ list, ∀ state, keeps state → Ends (step elem state)
      (fun answer after => keeps after ∧ before state after ∧ related after elem answer)
      (fun fault after => keeps after ∧ before state after ∧ fail fault after))
    (start : keeps state) :
    Ends (list.mapM step state)
      (fun answers after => keeps after ∧ before state after ∧ List.Forall₂ (related after) list answers)
      (fun fault after => keeps after ∧ before state after ∧ fail fault after) := by
  induction list generalizing state with
  | nil => exact ⟨start, refl state, .nil⟩
  | cons elem list ih =>
    rw [List.mapM_cons]
    have first := steps elem (by simp) state start
    refine bind first fun answer middle one => ?_
    obtain ⟨kept, earlier, here⟩ := one
    have rest := ih middle (fun other member => steps other (List.mem_cons_of_mem _ member)) kept
    refine bind (rest.imp_fail ?_) fun answers after others => ?_
    · rintro fault after ⟨keptAfter, later, failed⟩
      exact ⟨keptAfter, trans earlier later, failed⟩
    · obtain ⟨keptAfter, later, there⟩ := others
      exact ⟨keptAfter, trans earlier later, .cons (stable kept later here) there⟩

end Ends

def Leaves {τ : Type} (view : σ → τ) (body : EStateM ε σ α) : Prop :=
  ∀ state, Ends (body state) (fun _ after => view after = view state) fun _ after => view after = view state

namespace Leaves

variable {τ : Type} {view : σ → τ}

theorem pure (answer : α) : Leaves view (Pure.pure answer : EStateM ε σ α) := fun _ => rfl

theorem throw (fault : ε) : Leaves view (MonadExcept.throw fault : EStateM ε σ α) := fun _ => rfl

theorem bind {first : EStateM ε σ α} {next : α → EStateM ε σ β} (begins : Leaves view first)
    (continues : ∀ answer, Leaves view (next answer)) : Leaves view (first >>= next) := by
  intro state
  apply Ends.bind (begins state)
  intro answer after same
  rw [← same]
  exact continues answer after

theorem forM {step : α → EStateM ε σ PUnit} (list : List α) (steps : ∀ elem, Leaves view (step elem)) :
    Leaves view (list.forM step) := by
  induction list with
  | nil => exact Leaves.pure _
  | cons elem list ih => exact Leaves.bind (steps elem) fun _ => ih

end Leaves

/-- Two computations that both end well with the same answer or both end in the same fault, in related states. -/
def Agrees {τ : Type} (related : σ → τ → Prop) : EStateM.Result ε σ α → EStateM.Result ε τ α → Prop
  | .ok answer state, .ok answer' state' => answer = answer' ∧ related state state'
  | .error fault state, .error fault' state' => fault = fault' ∧ related state state'
  | _, _ => False

namespace Agrees

variable {τ : Type} {related : σ → τ → Prop}

theorem ok {result : EStateM.Result ε σ α} {result' : EStateM.Result ε τ α} {answer : α} {state : σ}
    (agrees : Agrees related result result') (done : result = .ok answer state) :
    ∃ state', result' = .ok answer state' ∧ related state state' := by
  subst done
  cases result' with
  | ok answer' state' =>
    obtain ⟨rfl, kept⟩ := agrees
    exact ⟨state', rfl, kept⟩
  | error fault state' => exact agrees.elim

theorem error {result : EStateM.Result ε σ α} {result' : EStateM.Result ε τ α} {fault : ε} {state : σ}
    (agrees : Agrees related result result') (failed : result = .error fault state) :
    ∃ state', result' = .error fault state' ∧ related state state' := by
  subst failed
  cases result' with
  | ok answer' state' => exact agrees.elim
  | error fault' state' =>
    obtain ⟨rfl, kept⟩ := agrees
    exact ⟨state', rfl, kept⟩

theorem imp {related' : σ → τ → Prop} {result : EStateM.Result ε σ α} {result' : EStateM.Result ε τ α}
    (agrees : Agrees related result result')
    (weaker : ∀ state state', related state state' → related' state state') :
    Agrees related' result result' := by
  cases result <;> cases result' <;> first | exact agrees.elim | exact ⟨agrees.1, weaker _ _ agrees.2⟩

theorem bind {first : EStateM ε σ α} {first' : EStateM ε τ α} {next : α → EStateM ε σ β}
    {next' : α → EStateM ε τ β} {state : σ} {state' : τ} (begins : Agrees related (first state) (first' state'))
    (continues : ∀ answer after after', related after after' →
      Agrees related (next answer after) (next' answer after')) :
    Agrees related ((first >>= next) state) ((first' >>= next') state') := by
  cases result : first state with
  | ok answer after =>
    obtain ⟨after', result', kept⟩ := begins.ok result
    rw [estate_bind_of_ok result, estate_bind_of_ok result']
    exact continues answer after after' kept
  | error fault after =>
    obtain ⟨after', result', kept⟩ := begins.error result
    rw [estate_bind_of_error result, estate_bind_of_error result']
    exact ⟨rfl, kept⟩

theorem forM_map {step : α → EStateM ε σ PUnit} {step' : β → EStateM ε τ PUnit} {rename : α → β}
    (list : List α) {state : σ} {state' : τ}
    (steps : ∀ elem ∈ list, ∀ state state', related state state' →
      Agrees related (step elem state) (step' (rename elem) state'))
    (start : related state state') : Agrees related (list.forM step state) ((list.map rename).forM step' state') := by
  induction list generalizing state state' with
  | nil => exact ⟨rfl, start⟩
  | cons elem list ih =>
    rw [List.map_cons, forM_cons_apply, forM_cons_apply]
    refine bind (steps elem List.mem_cons_self state state' start) fun _ after after' kept => ?_
    exact ih (fun other member => steps other (List.mem_cons_of_mem _ member)) kept

end Agrees

def InStep {τ : Type} (related : σ → τ → Prop) (body : EStateM ε σ α) (body' : EStateM ε τ α) : Prop :=
  ∀ state state', related state state' → Agrees related (body state) (body' state')

namespace InStep

variable {τ : Type} {related : σ → τ → Prop}

theorem pure (answer : α) :
    InStep related (Pure.pure answer : EStateM ε σ α) (Pure.pure answer : EStateM ε τ α) :=
  fun _ _ kept => ⟨rfl, kept⟩

theorem throw (fault : ε) :
    InStep related (MonadExcept.throw fault : EStateM ε σ α) (MonadExcept.throw fault : EStateM ε τ α) :=
  fun _ _ kept => ⟨rfl, kept⟩

theorem bind {first : EStateM ε σ α} {first' : EStateM ε τ α} {next : α → EStateM ε σ β}
    {next' : α → EStateM ε τ β} (begins : InStep related first first')
    (continues : ∀ answer, InStep related (next answer) (next' answer)) :
    InStep related (first >>= next) (first' >>= next') :=
  fun state state' kept => (begins state state' kept).bind continues

theorem forM {step : α → EStateM ε σ PUnit} {step' : α → EStateM ε τ PUnit} (list : List α)
    (steps : ∀ elem, InStep related (step elem) (step' elem)) : InStep related (list.forM step) (list.forM step') := by
  intro state state' kept
  have agrees := Agrees.forM_map list (fun elem _ => steps elem) kept
  rw [List.map_id'] at agrees
  exact agrees

end InStep

end MeteredArrays
