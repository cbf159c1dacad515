import Mathlib.Algebra.Order.BigOperators.Group.Finset
import Ningshi.Engine.Usage

/-!
# A shared pool counts each app once

Usage is stored by uid, and a tick counts it once for each uid with a limit.
A pool is compared with its limit as a sum over the member keys, so a uid that
several keys resolve to is added several times.

The code adds up `u64`s, which wrap around in a release build (`pooledSum`).  For
counters of any size `pooledSum_eq_distinct_iff` says exactly when the sum is the
usage of the distinct uids, and that it then depends on these uids only and grows by
no more than the time that is counted.  Where it does not wrap it is the sum the
engine's other results are about (`pooledSum_of_fits`).
-/

namespace Ningshi

open Std FiniteMap Finset

/-! ## Sums that wrap and sums that repeat -/

/-- A sum of `u64`s is the sum modulo `2 ^ 64`. -/
theorem toNat_foldl_add (l : List Nat) (start : UInt64) :
    (l.foldl (fun sum n => sum + UInt64.ofNat n) start).toNat =
      (start.toNat + l.sum) % 2 ^ 64 := by
  induction l generalizing start with
  | nil => exact (Nat.mod_eq_of_lt start.toNat_lt).symm
  | cons n l ih =>
      rw [List.foldl_cons, ih, UInt64.toNat_add, UInt64.toNat_ofNat', List.sum_cons]
      omega

/-- What the repetitions add to a sum over a list. -/
theorem sum_map_eq_distinct_add {α : Type} [DecidableEq α] (l : List α) (f : α → Nat) :
    (l.map f).sum = ∑ a ∈ l.toFinset, f a + ∑ a ∈ l.toFinset, (l.count a - 1) * f a := by
  have hsum : (l.map f).sum = ∑ a ∈ l.toFinset, l.count a * f a := by
    simpa only [smul_eq_mul] using sum_list_map_count l f
  rw [hsum, ← sum_add_distrib]
  refine sum_congr rfl fun a ha => ?_
  have hpos := List.count_pos_iff.mpr (List.mem_toFinset.mp ha)
  calc l.count a * f a = (1 + (l.count a - 1)) * f a := by rw [Nat.add_sub_cancel' hpos]
    _ = f a + (l.count a - 1) * f a := by rw [Nat.add_mul, one_mul]

/-- A sum that wraps is its first part just when that part fits and the rest is lost
in the wrap. -/
theorem add_mod_eq_left_iff {a b m : Nat} (hm : 0 < m) : (a + b) % m = a ↔ a < m ∧ m ∣ b := by
  constructor
  · intro h
    have ha : a < m := h ▸ Nat.mod_lt _ hm
    have hb : a + b ≡ a + 0 [MOD m] := by rw [Nat.ModEq, h, add_zero, Nat.mod_eq_of_lt ha]
    exact ⟨ha, (Nat.modEq_zero_iff_dvd).mp (Nat.ModEq.add_left_cancel' a hb)⟩
  · rintro ⟨ha, k, rfl⟩
    rw [Nat.add_mul_mod_self_left, Nat.mod_eq_of_lt ha]

/-! ## The code's sum -/

/-- The pooled usage as `over_duration` and `maintain_group_cooldown` add it up. -/
def Engine.pooledSum (g : GroupRule) (scope : String) (eng : Engine) : UInt64 :=
  (eng.uidsOf g.members).foldl (fun sum uid => sum + UInt64.ofNat (eng.scopedUsage uid scope)) 0

/-- `over_duration`, with the code's sum. -/
def Engine.overDurationU64 (d : DurationRule) (uid : Uid) (group : Option GroupRule)
    (eng : Engine) : Bool :=
  if d.limitMinutes = 0 then false
  else
    let secs := match group.filter GroupRule.sharedPool with
      | some g => (eng.pooledSum g d.scope).toNat
      | none => eng.scopedUsage uid d.scope
    d.limitMinutes.toNat * 60 ≤ secs

/-- The second half of `maintain_group_cooldown`, with the code's sum. -/
def Engine.startGroupCooldownU64 (now : Nat) (gid : String) (g : GroupRule) (eng : Engine) :
    Engine :=
  if g.rules.duration.limitMinutes.toNat * 60 ≤
      (eng.pooledSum g g.rules.duration.scope).toNat then
    { eng with groupCooldownUntil :=
        eng.groupCooldownUntil.insert gid (now + g.rules.duration.freezeMinutes.toNat * 60) }
  else eng

theorem pooledSum_toNat (g : GroupRule) (scope : String) (eng : Engine) :
    (eng.pooledSum g scope).toNat = eng.pooledUsage g scope % 2 ^ 64 := by
  have hfold := toNat_foldl_add
    ((eng.uidsOf g.members).map fun uid => eng.scopedUsage uid scope) 0
  rw [List.foldl_map, UInt64.toNat_zero, Nat.zero_add] at hfold
  exact hfold

/-- A sum that does not wrap is the sum over natural numbers. -/
theorem pooledSum_of_fits {g : GroupRule} {scope : String} {eng : Engine}
    (hfits : eng.pooledUsage g scope < 2 ^ 64) :
    (eng.pooledSum g scope).toNat = eng.pooledUsage g scope := by
  rw [pooledSum_toNat, Nat.mod_eq_of_lt hfits]

/-- What is not shared is not added up. -/
theorem overDurationU64_of_unshared {group : Option GroupRule} {eng : Engine}
    (h : group.filter GroupRule.sharedPool = none) (d : DurationRule) (uid : Uid) :
    eng.overDurationU64 d uid group = eng.overDuration d uid group := by
  simp only [Engine.overDurationU64, Engine.overDuration, h]

/-- Then the verdict and the cooldown step are those of the engine. -/
theorem overDurationU64_of_fits {d : DurationRule} {g : GroupRule} {eng : Engine}
    (hfits : eng.pooledUsage g d.scope < 2 ^ 64) (uid : Uid) :
    eng.overDurationU64 d uid (some g) = eng.overDuration d uid (some g) := by
  unfold Engine.overDurationU64 Engine.overDuration
  cases hshared : g.sharedPool with
  | true => simp only [Option.filter_some, hshared, if_true, pooledSum_of_fits hfits]
  | false => simp only [Option.filter_some, hshared, Bool.false_eq_true, if_false]

theorem startGroupCooldownU64_of_fits {g : GroupRule} {eng : Engine}
    (hfits : eng.pooledUsage g g.rules.duration.scope < 2 ^ 64) (now : Nat) (gid : String) :
    eng.startGroupCooldownU64 now gid g = eng.startGroupCooldown now gid g := by
  rw [Engine.startGroupCooldownU64, Engine.startGroupCooldown, pooledSum_of_fits hfits]

/-! ## What counting once means -/

/-- The usage of a group with each of its uids counted once. -/
def Engine.distinctUsage (g : GroupRule) (scope : String) (eng : Engine) : Nat :=
  ∑ uid ∈ (eng.uidsOf g.members).toFinset, eng.scopedUsage uid scope

/-- What the entries add whose uid an earlier entry has already. -/
def Engine.repeatedUsage (g : GroupRule) (scope : String) (eng : Engine) : Nat :=
  ∑ uid ∈ (eng.uidsOf g.members).toFinset,
    ((eng.uidsOf g.members).count uid - 1) * eng.scopedUsage uid scope

/-- The distinct uids have less than `2 ^ 64` seconds of usage, and the repetitions add
nothing modulo `2 ^ 64`. -/
def Engine.PoolFits (g : GroupRule) (eng : Engine) : Prop :=
  eng.distinctUsage g g.rules.duration.scope < 2 ^ 64 ∧
    2 ^ 64 ∣ eng.repeatedUsage g g.rules.duration.scope

instance (g : GroupRule) (eng : Engine) : Decidable (eng.PoolFits g) :=
  inferInstanceAs (Decidable (_ ∧ _))

/-- No counter is beyond the end of its type. -/
def Engine.CountersFit (eng : Engine) : Prop :=
  ∀ uid, eng.usageOf uid < 2 ^ 64 ∧ eng.fgOf uid < 2 ^ 64

/-- Repetitions of less than `2 ^ 64` seconds add nothing just when what is repeated
has no usage. -/
theorem dvd_repeatedUsage_iff {g : GroupRule} {scope : String} {eng : Engine}
    (hsmall : eng.repeatedUsage g scope < 2 ^ 64) :
    2 ^ 64 ∣ eng.repeatedUsage g scope ↔
      ∀ uid, 2 ≤ (eng.uidsOf g.members).count uid → eng.scopedUsage uid scope = 0 := by
  have hzero : 2 ^ 64 ∣ eng.repeatedUsage g scope ↔ eng.repeatedUsage g scope = 0 :=
    ⟨fun h => Nat.eq_zero_of_dvd_of_lt h hsmall, fun h => h ▸ dvd_zero _⟩
  rw [hzero, Engine.repeatedUsage, sum_eq_zero_iff]
  constructor
  · intro h uid htwice
    have hmem : uid ∈ (eng.uidsOf g.members).toFinset :=
      List.mem_toFinset.mpr (List.count_pos_iff.mp (by omega))
    rcases Nat.mul_eq_zero.mp (h uid hmem) with hcount | husage
    · omega
    · exact husage
  · intro h uid _
    by_cases htwice : 2 ≤ (eng.uidsOf g.members).count uid
    · rw [h uid htwice, Nat.mul_zero]
    · rw [Nat.sub_eq_zero_of_le (by omega), Nat.zero_mul]

/-- Neither the order of the members nor a repetition matters, only which uids
they resolve to. -/
theorem distinctUsage_congr {g g' : GroupRule} {eng : Engine}
    (h : ∀ uid, uid ∈ eng.uidsOf g.members ↔ uid ∈ eng.uidsOf g'.members) (scope : String) :
    eng.distinctUsage g scope = eng.distinctUsage g' scope := by
  have huids : (eng.uidsOf g.members).toFinset = (eng.uidsOf g'.members).toFinset := by
    ext uid
    simpa using h uid
  rw [Engine.distinctUsage, Engine.distinctUsage, huids]

/-- The counters after counting time for one uid. -/
theorem usageOf_addUsage (elapsed : Nat) (live fg : UidSet) (eng : Engine) (uid u : Uid) :
    (eng.addUsage elapsed live fg uid).usageOf u =
      eng.usageOf u + if u = uid ∧ uid ∈ live then elapsed else 0 := by
  by_cases heq : u = uid
  · subst heq
    by_cases hlive : u ∈ live <;> simp [Engine.addUsage, Engine.usageOf, hlive]
  · by_cases hlive : uid ∈ live <;>
      simp [Engine.addUsage, Engine.usageOf, hlive, heq, Ne.symm heq]

theorem fgOf_addUsage (elapsed : Nat) (live fg : UidSet) (eng : Engine) (uid u : Uid) :
    (eng.addUsage elapsed live fg uid).fgOf u =
      eng.fgOf u + if u = uid ∧ uid ∈ fg then elapsed else 0 := by
  by_cases heq : u = uid
  · subst heq
    by_cases hfg : u ∈ fg <;> simp [Engine.addUsage, Engine.fgOf, hfg]
  · by_cases hfg : uid ∈ fg <;> simp [Engine.addUsage, Engine.fgOf, hfg, heq, Ne.symm heq]

/-- Whatever the scope, at most that time is added, and nothing to others. -/
theorem scopedUsage_addUsage_le (elapsed : Nat) (live fg : UidSet) (eng : Engine) (uid u : Uid)
    (scope : String) :
    (eng.addUsage elapsed live fg uid).scopedUsage u scope ≤
      eng.scopedUsage u scope + if u = uid then elapsed else 0 := by
  simp only [Engine.scopedUsage, usageOf_addUsage, fgOf_addUsage]
  by_cases heq : u = uid
  · subst heq
    simp only [true_and, if_true]
    split_ifs <;> omega
  · simp [heq]

/-- A pool that counts each app once grows by at most the time counted for one
of its apps. -/
theorem distinctUsage_addUsage_le (g : GroupRule) (scope : String) (elapsed : Nat)
    (live fg : UidSet) (eng : Engine) (uid : Uid) :
    (eng.addUsage elapsed live fg uid).distinctUsage g scope ≤
      eng.distinctUsage g scope + elapsed := by
  have huids : (eng.addUsage elapsed live fg uid).uidsOf g.members = eng.uidsOf g.members := rfl
  have hone :
      ∑ u ∈ (eng.uidsOf g.members).toFinset, (if u = uid then elapsed else 0) ≤ elapsed := by
    rw [sum_ite_eq']
    split_ifs
    · exact le_rfl
    · exact Nat.zero_le _
  calc (eng.addUsage elapsed live fg uid).distinctUsage g scope
      ≤ ∑ u ∈ (eng.uidsOf g.members).toFinset,
          (eng.scopedUsage u scope + if u = uid then elapsed else 0) := by
        rw [Engine.distinctUsage, huids]
        exact sum_le_sum fun u _ => scopedUsage_addUsage_le elapsed live fg eng uid u scope
    _ ≤ eng.distinctUsage g scope + elapsed := by
        rw [sum_add_distrib]
        exact Nat.add_le_add_left hone _

/-! ## What the code compares -/

/-- The verdict of a member compares the sum over the keys. -/
theorem overDurationU64_shared {g : GroupRule} (hshared : g.sharedPool = true) (d : DurationRule)
    (uid : Uid) (eng : Engine) :
    eng.overDurationU64 d uid (some g) =
      (d.limitMinutes != 0 &&
        decide (d.limitMinutes.toNat * 60 ≤ (eng.pooledSum g d.scope).toNat)) := by
  by_cases hlimit : d.limitMinutes = 0 <;>
    simp [Engine.overDurationU64, Option.filter, hshared, hlimit]

theorem pooledSum_eq_distinct {g : GroupRule} {eng : Engine} :
    (eng.pooledSum g g.rules.duration.scope).toNat =
      eng.distinctUsage g g.rules.duration.scope ↔ eng.PoolFits g := by
  rw [pooledSum_toNat, Engine.pooledUsage, sum_map_eq_distinct_add]
  exact add_mod_eq_left_iff (by decide)

/-- A pool of two keys of one uid. -/
def GroupRule.twoKeys : GroupRule where
  name := "pair"
  enabled := true
  sharedPool := true
  members := ["0:com.one", "0:com.two"]
  rules := { RuleSet.default with duration := ⟨1, 5, "foreground"⟩ }

/-- Both packages run under uid 10001, which was in front for 30 seconds. -/
def Engine.sharedUid : Engine :=
  { Engine.blank .start with
    uidOf := FiniteMap.insertAll [("0:com.one", 10001), ("0:com.two", 10001)] ∅
    usageFg := FiniteMap.insertAll [(10001, 30)] ∅ }

/-- Each package runs under a uid of its own. -/
def Engine.ownUids : Engine :=
  { Engine.blank .start with
    uidOf := FiniteMap.insertAll [("0:com.one", 10001), ("0:com.two", 10002)] ∅
    usageFg := FiniteMap.insertAll [(10001, 30), (10002, 20)] ∅ }

end Ningshi
