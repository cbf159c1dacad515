import Mathlib.Tactic

/-!
# A cycle of use and rest

Something is used until a limit is reached; then it rests until a deadline, and
after that it starts again from nothing.  Rounds happen at arbitrary times, and
each looks at the deadline that is stored and at what has been used until then.

`Round.Follows` says what one round does, in its four cases.  `Exact` says what
this means for a whole sequence of rounds that hand the deadline on
(`exact_of_follows`): a rest starts exactly at the first round that finds the
limit reached, lasts for the period, and is never prolonged.
-/

namespace Cycle

/-- One round, with what it finds and what it leaves. -/
structure Round where
  now : Nat
  /-- the deadline that is stored when the round begins -/
  stored : Option Nat
  /-- what has been used when the round begins -/
  used : Nat
  /-- the deadline that is stored when the round ends -/
  deadline : Option Nat
  /-- what counts as used when the round ends -/
  left : Nat

variable {limit period : Nat}

/-- The four cases of a round. -/
inductive Round.Follows (limit period : Nat) (r : Round) : Prop
  | rests {t : Nat} (hstored : r.stored = some t) (hahead : r.now < t)
      (hdeadline : r.deadline = some t) (hleft : r.left = r.used)
  | ends {t : Nat} (hstored : r.stored = some t) (hpassed : t ≤ r.now)
      (hdeadline : r.deadline = none) (hleft : r.left = 0)
  | starts (hstored : r.stored = none) (hover : limit ≤ r.used)
      (hdeadline : r.deadline = some (r.now + period)) (hleft : r.left = r.used)
  | counts (hstored : r.stored = none) (hbelow : r.used < limit)
      (hdeadline : r.deadline = none) (hleft : r.left = r.used)

/-- Every round finds the deadline that the one before has left. -/
def Linked (l : List Round) : Prop := l.IsChain fun a b => b.stored = a.deadline

/-- The cycle is exact over a sequence of rounds. -/
structure Exact (limit period : Nat) (l : List Round) : Prop where
  /-- After a round there is a rest, or the limit is not reached. -/
  rests_or_below : ∀ r ∈ l,
    (∃ t, r.deadline = some t ∧ r.now < t) ∨ r.deadline = none ∧ r.left < limit
  /-- Where nothing rests, a rest starts at the first round that finds the limit
  reached, and at no other. -/
  starts_iff_first : ∀ before seg r after, l = before ++ (seg ++ r :: after) →
    (seg ++ [r]).head?.bind Round.stored = none →
      ((∀ q ∈ seg, q.deadline = none) ∧ r.deadline ≠ none ↔
        (∀ q ∈ seg, q.used < limit) ∧ limit ≤ r.used)
  /-- A rest lasts for the period. -/
  lasts : ∀ r ∈ l, r.stored = none → ∀ t, r.deadline = some t → t = r.now + period
  /-- Its deadline is never moved. -/
  kept : ∀ before r seg after, l = before ++ r :: (seg ++ after) → ∀ t, r.deadline = some t →
    (∀ q ∈ seg, q.now < t) → ∀ q ∈ seg, q.deadline = some t
  /-- At the first round from the deadline on everything starts again. -/
  restarts : ∀ before r seg q after, l = before ++ r :: (seg ++ q :: after) → ∀ t,
    r.deadline = some t → (∀ p ∈ seg, p.now < t) → t ≤ q.now →
      q.stored = some t ∧ q.deadline = none ∧ q.left = 0

section Rounds

variable {r : Round}

/-- After a round nothing is left over the limit without a rest. -/
theorem Round.Follows.rests_or_below (h : r.Follows limit period) (hlimit : 0 < limit)
    (hperiod : 0 < period) :
    (∃ t, r.deadline = some t ∧ r.now < t) ∨ r.deadline = none ∧ r.left < limit := by
  cases h with
  | rests hstored hahead hdeadline hleft => exact .inl ⟨_, hdeadline, hahead⟩
  | ends hstored hpassed hdeadline hleft =>
      rw [hleft]
      exact .inr ⟨hdeadline, hlimit⟩
  | starts hstored hover hdeadline hleft => exact .inl ⟨_, hdeadline, by omega⟩
  | counts hstored hbelow hdeadline hleft =>
      rw [hleft]
      exact .inr ⟨hdeadline, hbelow⟩

/-- A round that finds no rest starts one exactly when the limit is reached. -/
theorem Round.Follows.deadline_ne_none_iff (h : r.Follows limit period)
    (hstored : r.stored = none) : r.deadline ≠ none ↔ limit ≤ r.used := by
  cases h with
  | rests hstored' => exact absurd (hstored.symm.trans hstored') (by simp)
  | ends hstored' => exact absurd (hstored.symm.trans hstored') (by simp)
  | starts _ hover hdeadline => simp [hdeadline, hover]
  | counts _ hbelow hdeadline => simp [hdeadline, hbelow]

theorem Round.Follows.lasts (h : r.Follows limit period) (hstored : r.stored = none) {t : Nat}
    (hdeadline : r.deadline = some t) : t = r.now + period := by
  cases h with
  | rests hstored' => exact absurd (hstored.symm.trans hstored') (by simp)
  | ends hstored' => exact absurd (hstored.symm.trans hstored') (by simp)
  | starts _ _ hdeadline' => exact Option.some.inj (hdeadline.symm.trans hdeadline')
  | counts _ _ hdeadline' => exact absurd (hdeadline.symm.trans hdeadline') (by simp)

theorem Round.Follows.kept (h : r.Follows limit period) {t : Nat} (hstored : r.stored = some t)
    (hahead : r.now < t) : r.deadline = some t := by
  cases h with
  | rests hstored' _ hdeadline => rw [hdeadline, ← hstored', hstored]
  | ends hstored' hpassed =>
      obtain rfl := Option.some.inj (hstored.symm.trans hstored')
      omega
  | starts hstored' => exact absurd (hstored.symm.trans hstored') (by simp)
  | counts hstored' => exact absurd (hstored.symm.trans hstored') (by simp)

theorem Round.Follows.restarts (h : r.Follows limit period) {t : Nat} (hstored : r.stored = some t)
    (hpassed : t ≤ r.now) : r.deadline = none ∧ r.left = 0 := by
  cases h with
  | rests hstored' hahead =>
      obtain rfl := Option.some.inj (hstored.symm.trans hstored')
      omega
  | ends _ _ hdeadline hleft => exact ⟨hdeadline, hleft⟩
  | starts hstored' => exact absurd (hstored.symm.trans hstored') (by simp)
  | counts hstored' => exact absurd (hstored.symm.trans hstored') (by simp)

end Rounds

section Sequences

variable {l seg : List Round} {r : Round}

/-- The next round finds what a round has left. -/
theorem Linked.head_stored (h : Linked (r :: l)) (hne : l ≠ []) :
    l.head?.bind Round.stored = r.deadline := by
  cases l with
  | nil => exact absurd rfl hne
  | cons q l => exact (List.isChain_cons_cons.mp h).1

/-- The rest starts at the first round of a sequence that finds the limit reached. -/
theorem starts_iff_first (hfollows : ∀ q ∈ seg ++ [r], q.Follows limit period)
    (hlinked : Linked (seg ++ [r])) (hstored : (seg ++ [r]).head?.bind Round.stored = none) :
    (∀ q ∈ seg, q.deadline = none) ∧ r.deadline ≠ none ↔
      (∀ q ∈ seg, q.used < limit) ∧ limit ≤ r.used := by
  induction seg with
  | nil => simpa using (hfollows r (by simp)).deadline_ne_none_iff hstored
  | cons q seg ih =>
      have hq := (hfollows q (by simp)).deadline_ne_none_iff hstored
      rw [not_iff_comm, Nat.not_le] at hq
      rw [List.forall_mem_cons, List.forall_mem_cons, and_assoc, and_assoc, hq]
      refine and_congr_right fun hnone => ih ?_ hlinked.tail ?_
      · exact fun p hp => hfollows p (List.mem_cons_of_mem q hp)
      · exact (hlinked.head_stored (by simp)).trans hnone

/-- Before its deadline a rest is not moved, and the deadline is what the next
round finds. -/
theorem kept_of_linked {t : Nat} (hfollows : ∀ q ∈ seg, q.Follows limit period)
    (hlinked : Linked (r :: (seg ++ l))) (hdeadline : r.deadline = some t)
    (hahead : ∀ q ∈ seg, q.now < t) :
    (∀ q ∈ seg, q.deadline = some t) ∧ (l ≠ [] → l.head?.bind Round.stored = some t) := by
  induction seg generalizing r with
  | nil => exact ⟨fun q hq => absurd hq List.not_mem_nil,
      fun hne => (hlinked.head_stored hne).trans hdeadline⟩
  | cons q seg ih =>
      obtain ⟨hhead, htail⟩ := List.forall_mem_cons.mp hfollows
      obtain ⟨hnow, hlater⟩ := List.forall_mem_cons.mp hahead
      have hstored : q.stored = some t := (List.isChain_cons_cons.mp hlinked).1.trans hdeadline
      have hq : q.deadline = some t := hhead.kept hstored hnow
      obtain ⟨hkept, hnext⟩ := ih htail hlinked.tail hq hlater
      exact ⟨List.forall_mem_cons.mpr ⟨hq, hkept⟩, hnext⟩

/-- **Rounds that follow the cycle and hand the deadline on are exact.** -/
theorem exact_of_follows (hlimit : 0 < limit) (hperiod : 0 < period)
    (hfollows : ∀ r ∈ l, r.Follows limit period) (hlinked : Linked l) :
    Exact limit period l := by
  refine ⟨fun r hr => (hfollows r hr).rests_or_below hlimit hperiod, ?_,
    fun r hr hstored t hdeadline => (hfollows r hr).lasts hstored hdeadline, ?_, ?_⟩
  · rintro before seg r after rfl hstored
    have hsplit : before ++ (seg ++ r :: after) = before ++ ((seg ++ [r]) ++ after) := by simp
    rw [hsplit] at hfollows hlinked
    refine starts_iff_first (fun q hq => hfollows q ?_) ?_ hstored
    · exact List.mem_append_right before (List.mem_append_left after hq)
    · exact hlinked.right_of_append.left_of_append
  · rintro before r seg after rfl t hdeadline hahead
    refine (kept_of_linked (fun q hq => hfollows q ?_) hlinked.right_of_append hdeadline hahead).1
    exact List.mem_append_right before (List.mem_cons_of_mem r (List.mem_append_left after hq))
  · rintro before r seg q after rfl t hdeadline hahead hpassed
    have hkept := kept_of_linked (fun p hp => hfollows p (by simp [hp])) hlinked.right_of_append
      hdeadline hahead
    have hstored : q.stored = some t := hkept.2 (by simp)
    exact ⟨hstored, (hfollows q (by simp)).restarts hstored hpassed⟩

end Sequences

end Cycle
