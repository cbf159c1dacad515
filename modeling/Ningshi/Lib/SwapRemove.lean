import Mathlib.Data.List.Perm.Basic

/-!
# Removal by swapping

`Vec::swap_remove` takes an element out of a vector and puts the last one in its
place.  Up to the order, that is the vector without the element.
-/

namespace SwapRemove

universe u

variable {α : Type u}

/-- Put the last element in the place of the one at index `i`. -/
def swapRemove (l : List α) (i : Nat) : List α :=
  match l.getLast? with
  | some last => (l.set i last).dropLast
  | none => []

@[simp] theorem swapRemove_nil (i : Nat) : swapRemove ([] : List α) i = [] := rfl

theorem swapRemove_concat (l : List α) (last : α) (i : Nat) :
    swapRemove (l ++ [last]) i = if i < l.length then l.set i last else l := by
  rw [swapRemove, List.getLast?_concat]
  split_ifs with hi
  · simp only [List.set_append_left i last hi, List.dropLast_concat]
  · obtain ⟨k, hk⟩ := Nat.exists_eq_add_of_le (Nat.le_of_not_lt hi)
    cases k with
    | zero => simp [hk]
    | succ k => simp [hk, List.set_append_right]

/-- What is left is the list without the element at `i`. -/
theorem swapRemove_perm {l : List α} {i : Nat} (hi : i < l.length) :
    (swapRemove l i).Perm (l.eraseIdx i) := by
  obtain rfl | ⟨init, last, rfl⟩ := List.eq_nil_or_concat l
  · exact absurd hi (Nat.not_lt_zero i)
  rw [List.concat_eq_append, swapRemove_concat] at *
  split_ifs with hinit
  · rw [List.eraseIdx_append_of_lt_length hinit]
    exact (List.set_perm_cons_eraseIdx hinit last).trans (List.perm_append_singleton _ _).symm
  · obtain rfl : i = init.length := by
      rw [List.length_append, List.length_singleton] at hi
      omega
    rw [List.eraseIdx_append_of_length_le (Nat.le_refl _), Nat.sub_self, List.eraseIdx_cons_zero,
      List.append_nil]

theorem length_swapRemove {l : List α} {i : Nat} (hi : i < l.length) :
    (swapRemove l i).length + 1 = l.length := by
  rw [(swapRemove_perm hi).length_eq, List.length_eraseIdx_add_one hi]

/-- What a walk has ahead of it at `i` is the list behind the element. -/
theorem drop_swapRemove_perm {l : List α} {i : Nat} (hi : i < l.length) :
    ((swapRemove l i).drop i).Perm (l.drop (i + 1)) := by
  obtain rfl | ⟨init, last, rfl⟩ := List.eq_nil_or_concat l
  · exact absurd hi (Nat.not_lt_zero i)
  rw [List.concat_eq_append, swapRemove_concat] at *
  rw [List.length_append, List.length_singleton] at hi
  split_ifs with hinit
  · rw [List.drop_append_of_le_length hinit, List.drop_set, if_neg (Nat.lt_irrefl i),
      Nat.sub_self, List.drop_eq_getElem_cons hinit, List.set_cons_zero]
    exact (List.perm_append_singleton last _).symm
  · rw [List.drop_eq_nil_of_le (Nat.le_of_not_lt hinit), List.drop_eq_nil_of_le]
    rw [List.length_append, List.length_singleton]
    omega

/-- What a walk has behind it at `i` stays. -/
theorem take_swapRemove {l : List α} {i : Nat} (hi : i < l.length) :
    (swapRemove l i).take i = l.take i := by
  obtain rfl | ⟨init, last, rfl⟩ := List.eq_nil_or_concat l
  · exact absurd hi (Nat.not_lt_zero i)
  rw [List.concat_eq_append, swapRemove_concat] at *
  rw [List.length_append, List.length_singleton] at hi
  rw [List.take_append_of_le_length (Nat.le_of_lt_succ hi)]
  split_ifs
  · exact List.take_set_of_le (Nat.le_refl i)
  · rfl

theorem mem_of_mem_swapRemove {l : List α} {i : Nat} {a : α} (h : a ∈ swapRemove l i) :
    a ∈ l := by
  obtain rfl | ⟨init, last, rfl⟩ := List.eq_nil_or_concat l
  · exact h
  rw [List.concat_eq_append, swapRemove_concat] at *
  rw [List.mem_append, List.mem_singleton]
  split_ifs at h with hinit
  · exact (List.mem_or_eq_of_mem_set h)
  · exact .inl h

end SwapRemove
