import MeteredArrays.Heap.Basic

namespace MeteredArrays.Heap

def targets (heap : Heap) (id : ArrayId) : List ArrayId :=
  ((heap.arrays[id]?.bind LiveArray.contents?).map Contents.targets).getD []

structure Tour where
  order : List ArrayId
  /-- How many ids were taken off the agenda. -/
  steps : Nat
  fault? : Option Fault

abbrev Marks (heap : Heap) := Vector Bool heap.arrays.size

namespace Marks

variable {heap : Heap}

def none : Marks heap := Vector.replicate heap.arrays.size false

def has (marks : Marks heap) (id : ArrayId) : Bool :=
  marks[id]?.getD false

def unfollowedBelow (marks : Marks heap) : (bound : Nat) → Nat
  | 0 => 0
  | id + 1 => unfollowedBelow marks id + if has marks id then 0 else (heap.targets id).length

def unfollowed (marks : Marks heap) : Nat :=
  unfollowedBelow marks heap.arrays.size

theorem has_set_of_ne (marks : Marks heap) {id other : ArrayId} (inside : id < heap.arrays.size)
    (h : other ≠ id) : has (marks.set id true) other = has marks other := by
  simp only [has, Vector.getElem?_set, if_neg (Ne.symm h)]

theorem has_set_self (marks : Marks heap) {id : ArrayId} (inside : id < heap.arrays.size) :
    has (marks.set id true) id = true := by
  simp [has, inside]

theorem unfollowedBelow_set (marks : Marks heap) {id : ArrayId} (inside : id < heap.arrays.size)
    (fresh : marks[id] = false) (bound : Nat) :
    unfollowedBelow (marks.set id true) bound +
      (if id < bound then (heap.targets id).length else 0) = unfollowedBelow marks bound := by
  have before : has marks id = false := by simp [has, inside, fresh]
  induction bound with
  | zero => rfl
  | succ n ih =>
    simp only [unfollowedBelow]
    by_cases last : n = id
    · subst last
      rw [if_neg (Nat.lt_irrefl n)] at ih
      simp only [has_set_self marks inside, before, Nat.lt_succ_self, if_true, Bool.false_eq_true,
        if_false]
      omega
    · rw [has_set_of_ne marks inside last]
      by_cases below : id < n
      · rw [if_pos below] at ih
        rw [if_pos (Nat.lt_succ_of_lt below)]
        omega
      · rw [if_neg below] at ih
        rw [if_neg (fun h => below (Nat.lt_of_le_of_ne (Nat.le_of_lt_succ h) (Ne.symm last)))]
        omega

theorem unfollowed_set (marks : Marks heap) {id : ArrayId} (inside : id < heap.arrays.size)
    (fresh : marks[id] = false) :
    unfollowed (marks.set id true) + (heap.targets id).length = unfollowed marks := by
  have total := unfollowedBelow_set marks inside fresh heap.arrays.size
  rw [if_pos inside] at total
  exact total

end Marks

/-- Walks on from a state in which the ids of `agenda` are still to be taken, the first one next,
and the arrays in `entered` were entered, the latest one first. -/
def walkOn (heap : Heap) (marks : Marks heap) (entered : List ArrayId) (steps : Nat) :
    (agenda : List ArrayId) → Tour
  | [] => ⟨entered.reverse, steps, none⟩
  | id :: agenda =>
    if inside : id < heap.arrays.size then
      if fresh : marks[id] = false then
        let marks := marks.set id true
        if heap.arrays[id].isMaterialized then
          let children := (heap.targets id).filter fun target => !Marks.has marks target
          walkOn heap marks (id :: entered) (steps + 1) (children ++ agenda)
        else walkOn heap marks entered (steps + 1) agenda
      else walkOn heap marks entered (steps + 1) agenda
    else ⟨entered.reverse, steps + 1, some .danglingReference⟩
-- An array is entered once, and only then do its references go onto the agenda: what they add there, they take
-- off the references still to be followed.
termination_by agenda => Marks.unfollowed marks + agenda.length
decreasing_by
  · have met := Marks.unfollowed_set _ inside fresh
    simp only [List.length_append, List.length_cons]
    refine Nat.lt_of_le_of_lt
      (Nat.add_le_add_left (Nat.add_le_add_right (List.length_filter_le _ _) _) _) ?_
    omega
  · have met := Marks.unfollowed_set _ inside fresh
    simp only [List.length_cons]
    omega
  · simp only [List.length_cons]
    omega

def walk (heap : Heap) (roots : List ArrayId) : Tour :=
  walkOn heap Marks.none [] 0 roots

end MeteredArrays.Heap
