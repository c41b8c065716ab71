import Mathlib.Data.List.Induction
import Mathlib.Data.Nat.Basic
import Mathlib.Tactic.Ring
import MeteredArrays.BigEndian

namespace MeteredArrays

@[simp]
theorem length_bigEndian (width n : Nat) : (bigEndian width n).length = width := by
  induction width generalizing n with
  | zero => rfl
  | succ width ih => simp [bigEndian, ih]

theorem ofBigEndian_append_singleton (digits : List UInt8) (digit : UInt8) :
    ofBigEndian (digits ++ [digit]) = 256 * ofBigEndian digits + digit.toNat := by
  simp [ofBigEndian]

theorem ofBigEndian_bigEndian (width n : Nat) (bound : n < 256 ^ width) :
    ofBigEndian (bigEndian width n) = n := by
  induction width generalizing n with
  | zero =>
    have : n = 0 := by simpa using bound
    subst n
    rfl
  | succ width ih =>
    have quotient : n / 256 < 256 ^ width := by
      rw [Nat.pow_succ] at bound
      exact Nat.div_lt_of_lt_mul (by rwa [Nat.mul_comm])
    rw [bigEndian, ofBigEndian_append_singleton, ih _ quotient]
    simp only [UInt8.toNat_ofNat']
    omega

theorem ofBigEndian_dropWhile_zero (digits : List UInt8) :
    ofBigEndian (digits.dropWhile (· = 0)) = ofBigEndian digits := by
  induction digits with
  | nil => rfl
  | cons digit digits ih =>
    by_cases zero : digit = 0
    · subst digit
      simpa [ofBigEndian] using ih
    · simp [zero]

theorem head?_dropWhile_zero (digits : List UInt8) :
    (digits.dropWhile (· = 0)).head? ≠ some 0 := by
  induction digits with
  | nil => simp
  | cons digit digits ih =>
    by_cases zero : digit = 0
    · simpa [zero] using ih
    · simp [zero]

theorem ofBigEndian_shortest (n : Nat) (bound : n < UInt64.size) :
    ofBigEndian (shortestBigEndian n) = n := by
  rw [shortestBigEndian, ofBigEndian_dropWhile_zero]
  exact ofBigEndian_bigEndian 8 n bound

theorem head?_shortest (n : Nat) : (shortestBigEndian n).head? ≠ some 0 :=
  head?_dropWhile_zero _

theorem length_shortest_le (n : Nat) : (shortestBigEndian n).length ≤ 8 := by
  have bound := (List.dropWhile_sublist (· = 0) (l := bigEndian 8 n)).length_le
  rwa [length_bigEndian] at bound

theorem bigEndian_zero (width : Nat) : bigEndian width 0 = List.replicate width 0 := by
  induction width with
  | zero => rfl
  | succ width ih =>
    rw [bigEndian, Nat.zero_div, ih, List.replicate_succ']
    rfl

theorem bigEndian_ofBigEndian (extra : Nat) (digits : List UInt8) :
    bigEndian (extra + digits.length) (ofBigEndian digits) = List.replicate extra 0 ++ digits := by
  induction digits using List.reverseRecOn with
  | nil => exact (bigEndian_zero extra).trans (List.append_nil _).symm
  | append_singleton digits digit ih =>
    have bound := digit.toNat_lt
    have quotient : (256 * ofBigEndian digits + digit.toNat) / 256 = ofBigEndian digits := by omega
    have last : UInt8.ofNat (256 * ofBigEndian digits + digit.toNat) = digit := by
      apply UInt8.toNat_inj.mp
      rw [UInt8.toNat_ofNat']
      omega
    rw [ofBigEndian_append_singleton, List.length_append, List.length_singleton, ← Nat.add_assoc, bigEndian,
      quotient, ih, last, List.append_assoc]

theorem shortest_ofBigEndian {digits : List UInt8} (short : digits.length ≤ 8)
    (lead : digits.head? ≠ some 0) : shortestBigEndian (ofBigEndian digits) = digits := by
  have width : 8 - digits.length + digits.length = 8 := Nat.sub_add_cancel short
  rw [shortestBigEndian, ← width, bigEndian_ofBigEndian, List.dropWhile_append_of_pos (by simp)]
  cases digits with
  | nil => rfl
  | cons digit digits =>
    have nonzero : digit ≠ 0 := by simpa using lead
    simp [nonzero]

theorem length_shortest_le_of_lt {width n : Nat} (narrow : width ≤ 8) (bound : n < 256 ^ width) :
    (shortestBigEndian n).length ≤ width := by
  have whole := bigEndian_ofBigEndian (8 - width) (bigEndian width n)
  rw [length_bigEndian, Nat.sub_add_cancel narrow, ofBigEndian_bigEndian width n bound] at whole
  rw [shortestBigEndian, whole, List.dropWhile_append_of_pos (by simp)]
  have digits := (List.dropWhile_sublist (· = 0) (l := bigEndian width n)).length_le
  rwa [length_bigEndian] at digits

theorem ofBigEndian_lt (digits : List UInt8) : ofBigEndian digits < 256 ^ digits.length := by
  induction digits using List.reverseRecOn with
  | nil => decide
  | append_singleton digits digit ih =>
    have bound := digit.toNat_lt
    rw [ofBigEndian_append_singleton, List.length_append, List.length_singleton, Nat.pow_succ]
    omega

end MeteredArrays
