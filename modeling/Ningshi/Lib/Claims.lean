import Mathlib.Data.Finset.Card

/-!
# Counters backed by distinct items

Every item belongs to a key, and every key has a counter.  A claim is a count
that is still to be made.  The counters are backed as long as every count and
every claim has an item of its own: then a counter never exceeds the number of
distinct items of its key, whatever number of threads add to it.
-/

namespace Claims

variable {α β : Type*} [DecidableEq α]

/-- How many items belong to a key? -/
def items (hit : Finset (α × β)) (a : α) : Nat := (hit.filter fun h => h.1 = a).card

theorem items_mono {hit hit' : Finset (α × β)} (h : hit ⊆ hit') (a : α) :
    items hit a ≤ items hit' a :=
  Finset.card_le_card (Finset.filter_subset_filter _ h)

/-- A new item counts for its key. -/
theorem items_insert [DecidableEq β] {hit : Finset (α × β)} {x : α × β} (hx : x ∉ hit) (a : α) :
    items (insert x hit) a = items hit a + if x.1 = a then 1 else 0 := by
  unfold items
  rw [Finset.filter_insert]
  split_ifs with ha
  · exact Finset.card_insert_of_notMem fun hmem => hx (Finset.mem_of_mem_filter x hmem)
  · rfl

/-- What was counted and what is claimed has an item of its own. -/
def Backed (counts : α → Nat) (claims : List α) (hit : Finset (α × β)) : Prop :=
  ∀ a, counts a + claims.count a ≤ items hit a

variable {counts counts' : α → Nat} {claims claims' : List α} {hit hit' : Finset (α × β)} {a : α}

theorem backed_of_counts_eq_zero (h : ∀ a, counts a = 0) : Backed counts [] hit := by
  intro a
  rw [h, List.count_nil]
  exact Nat.zero_le _

/-- Lower counters, fewer claims and more items. -/
theorem Backed.mono (h : Backed counts claims hit) (hcounts : ∀ a, counts' a ≤ counts a)
    (hclaims : ∀ a, claims'.count a ≤ claims.count a) (hhit : hit ⊆ hit') :
    Backed counts' claims' hit' := by
  intro a
  calc
    counts' a + claims'.count a ≤ counts a + claims.count a :=
      Nat.add_le_add (hcounts a) (hclaims a)
    _ ≤ items hit a := h a
    _ ≤ items hit' a := items_mono hhit a

theorem Backed.perm (h : Backed counts claims hit) (hperm : claims.Perm claims') :
    Backed counts claims' hit :=
  h.mono (fun _ => Nat.le_refl _) (fun a => (hperm.count_eq a).ge) (Finset.Subset.refl _)

/-- A new item can be claimed. -/
theorem Backed.claim [DecidableEq β] (h : Backed counts claims hit) {x : α × β} (hx : x ∉ hit) :
    Backed counts (x.1 :: claims) (insert x hit) := by
  intro a
  have hbefore := h a
  rw [items_insert hx, List.count_cons]
  simp only [beq_iff_eq]
  omega

/-- A claim can be counted. -/
theorem Backed.count (h : Backed counts (a :: claims) hit)
    (hcounts : ∀ b, counts' b = counts b + if a = b then 1 else 0) :
    Backed counts' claims hit := by
  intro b
  have hbefore := h b
  rw [List.count_cons] at hbefore
  simp only [beq_iff_eq] at hbefore
  rw [hcounts]
  omega

/-- **A counter is at most the number of items.** -/
theorem Backed.le (h : Backed counts claims hit) (a : α) : counts a ≤ items hit a :=
  (Nat.le_add_right _ _).trans (h a)

end Claims
