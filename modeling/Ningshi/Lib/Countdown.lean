import Mathlib.Data.List.Chain
import Mathlib.Tactic

/-!
# A quantity that grows with the clock

Something is looked at again and again, and between two looks at which nothing
has happened an amount grows by at least the time that has passed.  If it
happens wherever the amount has reached a limit, then it happens before the
clock is more than one pace over the limit (`exists_hit_of_paced`).
-/

namespace Countdown

variable {α : Type*}

/-- One look after the other: the clock moves by at most a pace, and the amount
keeps up with it as long as it has not happened. -/
structure Paced (now : α → Nat) (amount : α → Int) (hit : α → Prop) (pace : Nat) (a b : α) :
    Prop where
  forward : now a ≤ now b
  soon : now b ≤ now a + pace
  grows : ¬ hit a → ¬ hit b → amount a + (now b - now a) ≤ amount b

variable {now : α → Nat} {amount : α → Int} {hit : α → Prop} {pace limit start : Nat}

/-- The same from any look before the limit at which the amount has kept up. -/
theorem exists_hit_from {a : α} {l : List α}
    (hchain : (a :: l).IsChain (Paced now amount hit pace))
    (hlimit : ∀ b ∈ a :: l, (limit : Int) ≤ amount b → hit b)
    (hkept : (now a : Int) - start ≤ amount a) (hearly : now a < start + limit)
    (hlong : start + limit ≤ now ((a :: l).getLast (List.cons_ne_nil a l))) :
    ∃ b ∈ a :: l, hit b ∧ now b < start + limit + pace := by
  induction l generalizing a with
  | nil =>
      rw [List.getLast_singleton] at hlong
      omega
  | cons b l ih =>
      obtain ⟨hpaced, hrest⟩ := List.isChain_cons_cons.mp hchain
      have hsoon := hpaced.soon
      by_cases ha : hit a
      · exact ⟨a, List.mem_cons_self, ha, by omega⟩
      by_cases hb : hit b
      · exact ⟨b, List.mem_cons_of_mem _ List.mem_cons_self, hb, by omega⟩
      have hgrows := hpaced.grows ha hb
      -- nothing has happened, so the second look is before the limit as well
      have hbelow : ¬ (limit : Int) ≤ amount b := fun hreached =>
        hb (hlimit b (List.mem_cons_of_mem _ List.mem_cons_self) hreached)
      rw [List.getLast_cons (List.cons_ne_nil b l)] at hlong
      obtain ⟨c, hc, hhit⟩ := ih hrest (fun c hc => hlimit c (List.mem_cons_of_mem _ hc))
        (by omega) (by omega) hlong
      exact ⟨c, List.mem_cons_of_mem _ hc, hhit⟩

/-- **It happens in time.** -/
theorem exists_hit_of_paced {a : α} {l : List α} (hpos : 0 < limit)
    (hchain : (a :: l).IsChain (Paced now amount hit pace))
    (hlimit : ∀ b ∈ a :: l, (limit : Int) ≤ amount b → hit b) (hstart : 0 ≤ amount a)
    (hlong : now a + limit ≤ now ((a :: l).getLast (List.cons_ne_nil a l))) :
    ∃ b ∈ a :: l, hit b ∧ now b < now a + limit + pace :=
  exists_hit_from hchain hlimit (by omega) (by omega) hlong

end Countdown
