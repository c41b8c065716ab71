import MeteredArrays.Proofs.BigEndian
import MeteredArrays.Rlp.Item
import MeteredArrays.Rlp.Writer

namespace MeteredArrays.Rlp

theorem split?_append (front back : List UInt8) :
    split? front.length (front ++ back) = some (front, back) := by
  simp [split?]

theorem length?_shortest (n : Nat) (long : 55 < n) (bound : n < UInt64.size) (rest : List UInt8) :
    length? (shortestBigEndian n).length (shortestBigEndian n ++ rest) = some (n, rest) := by
  simp [length?, split?_append, ofBigEndian_shortest n bound, head?_shortest, Nat.not_le.mpr long]

theorem length_shortest_pos (n : Nat) (positive : 0 < n) (bound : n < UInt64.size) :
    0 < (shortestBigEndian n).length := by
  apply List.length_pos_iff.mpr
  intro empty
  have value := ofBigEndian_shortest n bound
  rw [empty] at value
  exact Nat.ne_of_lt positive value

theorem toNat_code {code : Nat} (small : code < 256) : (UInt8.ofNat code).toNat = code := by
  rw [UInt8.toNat_ofNat']
  exact Nat.mod_eq_of_lt small

theorem parse?_string (payload rest : List UInt8) (bound : payload.length < UInt64.size) :
    parse? (withHeader 0x80 payload ++ rest) = some (.string payload, rest) := by
  by_cases short : payload.length ≤ 55
  · have code : (UInt8.ofNat (0x80 + payload.length)).toNat = 0x80 + payload.length := toNat_code (by omega)
    rw [withHeader, if_pos short, List.cons_append, parse?]
    simp only [code]
    rw [if_neg (by omega), if_pos (by omega), Nat.add_sub_cancel_left, split?_append]
    rfl
  · have long : 55 < payload.length := Nat.lt_of_not_le short
    have atMost := length_shortest_le payload.length
    have atLeast := length_shortest_pos payload.length (by omega) bound
    have code : (UInt8.ofNat (0x80 + 55 + (shortestBigEndian payload.length).length)).toNat =
        0xb7 + (shortestBigEndian payload.length).length := toNat_code (by omega)
    rw [withHeader, if_neg short]
    simp only [List.cons_append, parse?, code, List.append_assoc]
    rw [if_neg (by omega), if_neg (by omega), if_pos (by omega), Nat.add_sub_cancel_left,
      length?_shortest _ long bound]
    simp [split?_append]

theorem parse?_list (payload rest : List UInt8) (bound : payload.length < UInt64.size) :
    parse? (ofItems payload ++ rest) = some (.list payload, rest) := by
  by_cases short : payload.length ≤ 55
  · have code : (UInt8.ofNat (0xc0 + payload.length)).toNat = 0xc0 + payload.length := toNat_code (by omega)
    rw [ofItems, withHeader, if_pos short, List.cons_append, parse?]
    simp only [code]
    rw [if_neg (by omega), if_neg (by omega), if_neg (by omega), if_pos (by omega),
      Nat.add_sub_cancel_left, split?_append]
    rfl
  · have long : 55 < payload.length := Nat.lt_of_not_le short
    have atMost := length_shortest_le payload.length
    have atLeast := length_shortest_pos payload.length (by omega) bound
    have code : (UInt8.ofNat (0xc0 + 55 + (shortestBigEndian payload.length).length)).toNat =
        0xf7 + (shortestBigEndian payload.length).length := toNat_code (by omega)
    rw [ofItems, withHeader, if_neg short]
    simp only [List.cons_append, parse?, code, List.append_assoc]
    rw [if_neg (by omega), if_neg (by omega), if_neg (by omega), if_neg (by omega),
      Nat.add_sub_cancel_left, length?_shortest _ long bound]
    simp [split?_append]

def Item.ofBytes : List UInt8 → Item
  | [value] => if value < 0x80 then .byte value else .string [value]
  | bytes => .string bytes

theorem Item.bytes?_ofBytes (bytes : List UInt8) : (Item.ofBytes bytes).bytes? = some bytes := by
  match bytes with
  | [] => rfl
  | [value] =>
    simp only [Item.ofBytes]
    split <;> rfl
  | _ :: _ :: _ => rfl

theorem parse?_ofBytes (bytes rest : List UInt8) (bound : bytes.length < UInt64.size) :
    parse? (ofBytes bytes ++ rest) = some (Item.ofBytes bytes, rest) := by
  match bytes, bound with
  | [], bound => exact parse?_string [] rest bound
  | [value], bound =>
    by_cases small : value < 0x80
    · have code : value.toNat < 0x80 := small
      simp [ofBytes, Item.ofBytes, small, parse?, code]
    · rw [ofBytes, Item.ofBytes, if_neg small, if_neg small]
      exact parse?_string [value] rest bound
  | first :: second :: bytes, bound => exact parse?_string (first :: second :: bytes) rest bound

theorem parse?_ofNat (n : Nat) (rest : List UInt8) :
    parse? (ofNat n ++ rest) = some (Item.ofBytes (shortestBigEndian n), rest) :=
  parse?_ofBytes _ _ (Nat.lt_of_le_of_lt (length_shortest_le n) (by decide))

theorem nat?_ofBytes_shortest (n width : Nat) (bound : n < UInt64.size)
    (fits : (shortestBigEndian n).length ≤ width) :
    (Item.ofBytes (shortestBigEndian n)).nat? width = some n := by
  have value := ofBigEndian_shortest n bound
  have head := head?_shortest n
  match digits : shortestBigEndian n with
  | [] =>
    rw [digits] at value
    subst value
    rfl
  | [digit] =>
    rw [digits] at value head
    have same : digit.toNat = n := by simpa [ofBigEndian] using value
    have nonzero : digit ≠ 0 := by simpa using head
    by_cases small : digit < 0x80
    · simp [Item.ofBytes, small, Item.nat?, nonzero, same]
    · simp [Item.ofBytes, small, Item.nat?, same]
  | first :: second :: digits' =>
    rw [digits] at value head fits
    have nonzero : first ≠ 0 := by simpa using head
    have narrow : ¬ width < digits'.length + 1 + 1 := Nat.not_lt.mpr fits
    simp [Item.ofBytes, Item.nat?, nonzero, narrow, value]

theorem itemsAfter_eq (found : Array Item) (bytes : List UInt8) :
    (itemsAfter found bytes).toList = found.toList ++ items bytes := by
  have general : ∀ (before found : Array Item),
      (itemsAfter (before ++ found) bytes).toList = before.toList ++ (itemsAfter found bytes).toList := by
    intro before found
    fun_induction itemsAfter found bytes with
    | case1 found bytes broken =>
      rw [itemsAfter]
      split
      · simp
      · rename_i parsed
        rw [broken] at parsed
        cases parsed
    | case2 found bytes item rest parsed ih =>
      rw [itemsAfter]
      split
      · rename_i broken
        rw [parsed] at broken
        cases broken
      · rename_i item' rest' parsed'
        rw [parsed] at parsed'
        cases parsed'
        rw [← Array.append_push, ih]
  simpa [items] using general found #[]

theorem items_nil : items [] = [] := by
  rw [items, itemsAfter]
  rfl

theorem items_cons {bytes rest : List UInt8} {item : Item} (parsed : parse? bytes = some (item, rest)) :
    items bytes = item :: items rest := by
  rw [items, itemsAfter]
  split
  · rename_i broken
    rw [parsed] at broken
    cases broken
  · rename_i item' rest' parsed'
    rw [parsed] at parsed'
    cases parsed'
    simp [itemsAfter_eq]

theorem items_flatMap {α : Type} (write : α → List UInt8) (read : α → Item) (elems : List α)
    (parsed : ∀ elem ∈ elems, ∀ rest, parse? (write elem ++ rest) = some (read elem, rest)) :
    items (elems.flatMap write) = elems.map read := by
  induction elems with
  | nil => exact items_nil
  | cons elem elems ih =>
    rw [List.flatMap_cons, items_cons (parsed elem (by simp) _), List.map_cons,
      ih fun other member => parsed other (List.mem_cons_of_mem _ member)]

theorem length_withHeader_le (base : Nat) (payload : List UInt8) :
    (withHeader base payload).length ≤ payload.length + 9 := by
  have atMost := length_shortest_le payload.length
  simp only [withHeader]
  split
  · simp only [List.length_cons]
    omega
  · simp only [List.length_cons, List.length_append]
    omega

theorem length_ofBytes_le (bytes : List UInt8) : (ofBytes bytes).length ≤ bytes.length + 9 := by
  unfold ofBytes
  split
  · split
    · simp
    · exact length_withHeader_le _ _
  · exact length_withHeader_le _ _

theorem length_ofNat_le (n : Nat) : (ofNat n).length ≤ 17 :=
  Nat.le_trans (length_ofBytes_le _) (Nat.add_le_add_right (length_shortest_le n) 9)

end MeteredArrays.Rlp
