import Mathlib.Tactic

/-!
# Maps of bounded size

A hash map of the kernel has room for a fixed number of keys.  A full one
refuses a new key and drops nothing by itself; a key it holds can always be
overwritten.
-/

open Std

/-- A map with at most `cap` keys. -/
structure BoundedMap (α β : Type) (cmp : α → α → Ordering) [TransCmp cmp] (cap : Nat) where
  toMap : ExtTreeMap α β cmp
  size_le : toMap.size ≤ cap

namespace BoundedMap

variable {α β : Type} {cmp : α → α → Ordering} [TransCmp cmp] {cap : Nat}

def empty : BoundedMap α β cmp cap := ⟨∅, by simp⟩

def lookup (m : BoundedMap α β cmp cap) (k : α) : Option β := m.toMap[k]?

/-- Is there room for this key? -/
def HasRoom (m : BoundedMap α β cmp cap) (k : α) : Prop := k ∈ m.toMap ∨ m.toMap.size < cap

instance (m : BoundedMap α β cmp cap) (k : α) : Decidable (m.HasRoom k) :=
  inferInstanceAs (Decidable (_ ∨ _))

theorem size_insert_le {m : BoundedMap α β cmp cap} {k : α} (h : m.HasRoom k) (v : β) :
    (m.toMap.insert k v).size ≤ cap := by
  rw [ExtTreeMap.size_insert]
  split_ifs with hmem
  · exact m.size_le
  · exact h.resolve_left hmem

/-- Insert or overwrite; without room the map stays as it is. -/
def update (m : BoundedMap α β cmp cap) (k : α) (v : β) : BoundedMap α β cmp cap :=
  if h : m.HasRoom k then ⟨m.toMap.insert k v, size_insert_le h v⟩ else m

def delete (m : BoundedMap α β cmp cap) (k : α) : BoundedMap α β cmp cap :=
  ⟨m.toMap.erase k, ExtTreeMap.size_erase_le.trans m.size_le⟩

@[simp] theorem lookup_empty (k : α) : (empty : BoundedMap α β cmp cap).lookup k = none := by
  simp [empty, lookup]

theorem hasRoom_of_lookup {m : BoundedMap α β cmp cap} {k : α} {v : β}
    (h : m.lookup k = some v) : m.HasRoom k :=
  .inl (ExtTreeMap.mem_iff_isSome_getElem?.mpr (Option.isSome_of_eq_some h))

theorem update_of_not_hasRoom {m : BoundedMap α β cmp cap} {k : α} (h : ¬ m.HasRoom k) (v : β) :
    m.update k v = m := dif_neg h

variable [LawfulEqCmp cmp] [DecidableEq α]

theorem lookup_update (m : BoundedMap α β cmp cap) (k a : α) (v : β) :
    (m.update k v).lookup a = if k = a ∧ m.HasRoom k then some v else m.lookup a := by
  by_cases hroom : m.HasRoom k
  · rw [update, dif_pos hroom, lookup, ExtTreeMap.getElem?_insert]
    simp only [hroom, and_true, LawfulEqCmp.compare_eq_iff_eq, lookup]
  · rw [update_of_not_hasRoom hroom, if_neg fun h => hroom h.2]

theorem lookup_delete (m : BoundedMap α β cmp cap) (k a : α) :
    (m.delete k).lookup a = if k = a then none else m.lookup a := by
  simp only [delete, lookup, ExtTreeMap.getElem?_erase, LawfulEqCmp.compare_eq_iff_eq]

end BoundedMap
