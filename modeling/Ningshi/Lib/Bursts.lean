import Ningshi.Lib.Trace

/-!
# Bursts of events

Every event has a key and a time.  The events of a key come in bursts: a burst
is an event and the later ones of its key that are less than `gap` after it, and
the next one begins a new burst.  Histories list the newest event first.

A reporter lets only the beginnings of the bursts through.  It need not keep
the history: a memo of one time for each key is enough, and an entry that is
`gap` old can be dropped (`Remembers`).
-/

namespace Bursts

open Trace

universe u v

variable {ε : Type u} {κ : Type v} [DecidableEq κ]

/-- What an event is keyed by, when it was, and how long a burst lasts. -/
structure Clocked (ε : Type u) (κ : Type v) where
  key : ε → κ
  time : ε → Nat
  gap : Nat

variable (c : Clocked ε κ)

/-- The beginning of the last burst of a key. -/
def head (k : κ) : List ε → Option ε
  | [] => none
  | e :: past =>
      if c.key e = k ∧ (head k past).all (fun h => c.time h + c.gap ≤ c.time e) then some e
      else head k past

/-- Does an event begin a burst? -/
def Begins (e : ε) (past : List ε) : Prop :=
  ∀ h, head c (c.key e) past = some h → c.time h + c.gap ≤ c.time e

theorem all_head_iff (e : ε) (past : List ε) :
    (head c (c.key e) past).all (fun h => c.time h + c.gap ≤ c.time e) = true ↔
      Begins c e past := by
  unfold Begins
  cases head c (c.key e) past <;> simp

instance (e : ε) (past : List ε) : Decidable (Begins c e past) :=
  decidable_of_iff _ (all_head_iff c e past)

/-- The beginnings of all bursts. -/
def heads : List ε → List ε
  | [] => []
  | e :: past => if Begins c e past then e :: heads past else heads past

/-- The events of a burst agree on `label`. -/
def Uniform {α : Type*} (label : ε → α) : List ε → Prop :=
  Always fun e past => ∀ h, head c (c.key e) past = some h → c.time e < c.time h + c.gap →
    label h = label e

/-- A memo of times knows the last burst of every key, except for bursts that
were over at `now`. -/
structure Remembers (memo : κ → Option Nat) (past : List ε) (now : Nat) : Prop where
  sound : ∀ k t, memo k = some t → ∃ h, head c k past = some h ∧ c.time h = t
  complete : ∀ k h, head c k past = some h → memo k = some (c.time h) ∨ c.time h + c.gap ≤ now

section Heads

variable {c} {e h q : ε} {k : κ} {past : List ε}

theorem head_cons_of_ne (hk : c.key e ≠ k) : head c k (e :: past) = head c k past :=
  if_neg fun hcond => hk hcond.1

theorem head_cons_of_begins (hbegins : Begins c e past) :
    head c (c.key e) (e :: past) = some e :=
  if_pos ⟨rfl, (all_head_iff c e past).mpr hbegins⟩

/-- A further event of a burst does not begin one. -/
theorem head_cons_of_not_begins (hbegins : ¬ Begins c e past) :
    head c k (e :: past) = head c k past := by
  refine if_neg fun hcond => hbegins ?_
  obtain ⟨rfl, hall⟩ := hcond
  exact (all_head_iff c e past).mp hall

/-- The beginning of a burst has its key and has been let through. -/
theorem mem_heads_of_head (hhead : head c k past = some h) :
    c.key h = k ∧ h ∈ heads c past := by
  induction past with
  | nil => cases hhead
  | cons e past ih =>
      by_cases hbegins : Begins c e past
      · rw [heads, if_pos hbegins]
        by_cases hk : c.key e = k
        · rw [← hk, head_cons_of_begins hbegins] at hhead
          obtain rfl := Option.some.inj hhead
          exact ⟨hk, List.mem_cons_self⟩
        · rw [head_cons_of_ne hk] at hhead
          exact ⟨(ih hhead).1, List.mem_cons_of_mem _ (ih hhead).2⟩
      · rw [heads, if_neg hbegins]
        rw [head_cons_of_not_begins hbegins] at hhead
        exact ih hhead

theorem heads_sublist (past : List ε) : (heads c past).Sublist past := by
  induction past with
  | nil => exact .slnil
  | cons e past ih =>
      rw [heads]
      split_ifs
      · exact ih.cons_cons e
      · exact ih.cons e

theorem mem_of_mem_heads (hq : q ∈ heads c past) : q ∈ past := by
  induction past with
  | nil => cases hq
  | cons e past ih =>
      rw [heads] at hq
      split_ifs at hq
      · rcases List.mem_cons.mp hq with rfl | hq
        · exact List.mem_cons_self
        · exact List.mem_cons_of_mem _ (ih hq)
      · exact List.mem_cons_of_mem _ (ih hq)

/-- The bursts of a key before its last one. -/
theorem eq_head_or_le (hq : q ∈ heads c past) :
    ∃ h, head c (c.key q) past = some h ∧ (q = h ∨ c.time q + c.gap ≤ c.time h) := by
  induction past with
  | nil => cases hq
  | cons e past ih =>
      by_cases hbegins : Begins c e past
      · rw [heads, if_pos hbegins] at hq
        rcases List.mem_cons.mp hq with rfl | hq
        · exact ⟨q, head_cons_of_begins hbegins, .inl rfl⟩
        · obtain ⟨h, hhead, hle⟩ := ih hq
          by_cases hk : c.key e = c.key q
          · rw [← hk] at hhead ⊢
            have hlast := hbegins h hhead
            refine ⟨e, head_cons_of_begins hbegins, .inr ?_⟩
            rcases hle with rfl | hle
            · exact hlast
            · omega
          · exact ⟨h, (head_cons_of_ne hk).trans hhead, hle⟩
      · rw [heads, if_neg hbegins] at hq
        obtain ⟨h, hhead, hle⟩ := ih hq
        exact ⟨h, (head_cons_of_not_begins hbegins).trans hhead, hle⟩

/-- **The beginnings of the bursts of a key are `gap` apart.** -/
theorem pairwise_heads (past : List ε) :
    (heads c past).Pairwise fun later earlier => c.key later = c.key earlier →
      c.time earlier + c.gap ≤ c.time later := by
  induction past with
  | nil => exact .nil
  | cons e past ih =>
      rw [heads]
      split_ifs with hbegins
      · refine List.pairwise_cons.mpr ⟨fun q hq hk => ?_, ih⟩
        obtain ⟨h, hhead, hle⟩ := eq_head_or_le hq
        rw [← hk] at hhead
        have hlast := hbegins h hhead
        rcases hle with rfl | hle
        · exact hlast
        · omega
      · exact ih

end Heads

/-! ## Memos -/

section Remembers

variable {c} {memo memo' : κ → Option Nat} {e : ε} {past : List ε} {now : Nat}

theorem remembers_nil (hmemo : ∀ k, memo k = none) : Remembers c memo [] now := by
  refine ⟨fun k t ht => ?_, fun k h hhead => ?_⟩
  · rw [hmemo] at ht
    cases ht
  · cases hhead

/-- **The memo tells whether an event begins a burst.** -/
theorem Remembers.begins_iff (h : Remembers c memo past now) (hnow : now ≤ c.time e) :
    Begins c e past ↔ ∀ t, memo (c.key e) = some t → t + c.gap ≤ c.time e := by
  constructor
  · intro hbegins t ht
    obtain ⟨first, hhead, rfl⟩ := h.sound _ t ht
    exact hbegins first hhead
  · intro hmemo first hhead
    rcases h.complete _ first hhead with ht | hold
    · exact hmemo _ ht
    · omega

/-- A new burst is noted. -/
theorem Remembers.begin (h : Remembers c memo past now) (hnow : now ≤ c.time e)
    (hbegins : Begins c e past) :
    Remembers c (Function.update memo (c.key e) (some (c.time e))) (e :: past) (c.time e) := by
  refine ⟨fun k t ht => ?_, fun k first hhead => ?_⟩
  · by_cases hk : c.key e = k
    · rw [← hk, Function.update_self] at ht
      exact ⟨e, hk ▸ head_cons_of_begins hbegins, Option.some.inj ht⟩
    · rw [Function.update_of_ne (Ne.symm hk)] at ht
      rw [head_cons_of_ne hk]
      exact h.sound k t ht
  · by_cases hk : c.key e = k
    · rw [← hk, head_cons_of_begins hbegins] at hhead
      obtain rfl := Option.some.inj hhead
      rw [← hk, Function.update_self]
      exact .inl rfl
    · rw [head_cons_of_ne hk] at hhead
      rw [Function.update_of_ne (Ne.symm hk)]
      exact (h.complete k first hhead).imp_right fun hold => Nat.le_trans hold hnow

/-- A further event of a burst leaves the memo as it is. -/
theorem Remembers.goOn (h : Remembers c memo past now) (hnow : now ≤ c.time e)
    (hbegins : ¬ Begins c e past) : Remembers c memo (e :: past) (c.time e) := by
  refine ⟨fun k t ht => ?_, fun k first hhead => ?_⟩
  · rw [head_cons_of_not_begins hbegins]
    exact h.sound k t ht
  · rw [head_cons_of_not_begins hbegins] at hhead
    exact (h.complete k first hhead).imp_right fun hold => Nat.le_trans hold hnow

/-- Entries of bursts that are over can be dropped. -/
theorem Remembers.forget (h : Remembers c memo past now)
    (hkept : ∀ k t, memo' k = some t → memo k = some t)
    (hdropped : ∀ k t, memo k = some t → memo' k = some t ∨ t + c.gap ≤ now) :
    Remembers c memo' past now := by
  refine ⟨fun k t ht => h.sound k t (hkept k t ht), fun k first hhead => ?_⟩
  rcases h.complete k first hhead with ht | hold
  · exact hdropped k _ ht
  · exact .inr hold

end Remembers

end Bursts
