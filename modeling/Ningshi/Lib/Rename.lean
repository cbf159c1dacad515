import Ningshi.Lib.FiniteMap

/-!
# Renaming the keys of a finite map, one move at a time

A move `(old, new)` takes the entry stored under `old`, if there is one, and
stores it under `new`.  A list of moves is carried out in place and in order,
so a later move can pick up what an earlier one has just put down, and an
earlier move can overwrite what a later one was meant to take.

Two results describe the final map exactly:

* `getElem?_renameAll`: what ends up under a key is the first entry found
  among the `origins` of that key, the keys whose chain of moves leads there;
* `renameAll_carries_iff`: when no two moves share a source or a target,
  every entry arrives at the target of its move if and only if no filled
  source is overwritten before its own move (`Sequenced`) and no empty source
  leaves a stale entry at its target (`Unburdened`).
-/

namespace Rename

open Std FiniteMap

universe u v

variable {α : Type u} {β : Type v} {cmp : α → α → Ordering}
  [TransCmp cmp] [LawfulEqCmp cmp]

/-- Carry out one move. -/
def renameStep (m : ExtTreeMap α β cmp) (move : α × α) : ExtTreeMap α β cmp :=
  match m[move.1]? with
  | some v => (m.erase move.1).insert move.2 v
  -- an empty source leaves the target as it is
  | none => m

/-- Carry out a list of moves in order. -/
def renameAll (moves : List (α × α)) (m : ExtTreeMap α β cmp) : ExtTreeMap α β cmp :=
  moves.foldl renameStep m

omit [LawfulEqCmp cmp] in
@[simp] theorem renameAll_nil (m : ExtTreeMap α β cmp) : renameAll [] m = m := rfl

omit [LawfulEqCmp cmp] in
@[simp] theorem renameAll_cons (move : α × α) (moves : List (α × α))
    (m : ExtTreeMap α β cmp) :
    renameAll (move :: moves) m = renameAll moves (renameStep m move) := rfl

variable [DecidableEq α]

/-- What one proper move leaves under a key. -/
theorem getElem?_renameStep (m : ExtTreeMap α β cmp) {move : α × α}
    (hne : move.1 ≠ move.2) (k : α) :
    (renameStep m move)[k]? =
      if k = move.2 then (m[move.1]?).or m[k]?
      else if k = move.1 then none
      else m[k]? := by
  unfold renameStep
  cases hold : m[move.1]? with
  | none =>
      by_cases hnew : k = move.2
      · simp [hnew]
      · by_cases hsrc : k = move.1
        · simp [hsrc, hne, hold]
        · simp [hnew, hsrc]
  | some v =>
      by_cases hnew : k = move.2
      · simp [hnew]
      · by_cases hsrc : k = move.1
        · simp [hsrc, hne, Ne.symm hne]
        · simp [hnew, hsrc, Ne.symm hnew, Ne.symm hsrc]

/-! ## Where an entry comes from -/

/-- The keys one move can have filled `k` from, the preferred one first. -/
def stepOrigins (move : α × α) (k : α) : List α :=
  if k = move.2 then [move.1, k] else if k = move.1 then [] else [k]

/-- The keys from which a list of moves can have filled `k`, in the order in
which they are preferred. -/
def origins : List (α × α) → α → List α
  | [], k => [k]
  | move :: moves, k => (origins moves k).flatMap (stepOrigins move)

omit [DecidableEq α] [LawfulEqCmp cmp] in
private theorem findSome?_flatMap {γ δ : Type*} (f : δ → Option γ) (g : α → List δ)
    (l : List α) : (l.flatMap g).findSome? f = l.findSome? fun a => (g a).findSome? f := by
  induction l with
  | nil => rfl
  | cons a l ih =>
      rw [List.flatMap_cons, List.findSome?_append, ih, List.findSome?_cons]
      cases (g a).findSome? f <;> rfl

theorem getElem?_renameStep_eq_findSome? (m : ExtTreeMap α β cmp) {move : α × α}
    (hne : move.1 ≠ move.2) (k : α) :
    (renameStep m move)[k]? = (stepOrigins move k).findSome? fun a => m[a]? := by
  rw [getElem?_renameStep m hne, stepOrigins]
  by_cases hnew : k = move.2
  · rw [if_pos hnew, if_pos hnew]
    cases hold : m[move.1]? with
    | none => cases hk : m[k]? <;> simp [hold, hk]
    | some v => simp [hold]
  · by_cases hsrc : k = move.1
    · simp [hsrc, hne]
    · rw [if_neg hnew, if_neg hsrc, if_neg hnew, if_neg hsrc]
      cases hk : m[k]? <;> simp [hk]

/-- **The final map, key by key.**  Under every key stands the first entry
found among its origins. -/
theorem getElem?_renameAll (moves : List (α × α)) (m : ExtTreeMap α β cmp)
    (hne : ∀ move ∈ moves, move.1 ≠ move.2) (k : α) :
    (renameAll moves m)[k]? = (origins moves k).findSome? fun a => m[a]? := by
  induction moves generalizing m with
  | nil => cases hk : m[k]? <;> simp [origins, hk]
  | cons move moves ih =>
      -- Origins are traced backwards: through the later moves, then through the first.
      rw [renameAll_cons, ih _ fun mv hmv => hne mv (List.mem_cons_of_mem move hmv),
        origins, findSome?_flatMap]
      refine congrArg (fun f => (origins moves k).findSome? f) (funext fun a => ?_)
      exact getElem?_renameStep_eq_findSome? m (hne move List.mem_cons_self) a

/-! ## When every entry arrives -/

/-- A key that is no move's target keeps its entry exactly when it is no
move's source either. -/
theorem getElem?_renameAll_of_not_target {moves : List (α × α)} {m : ExtTreeMap α β cmp}
    (hne : ∀ move ∈ moves, move.1 ≠ move.2) {k : α}
    (hk : ∀ move ∈ moves, move.2 ≠ k) :
    (renameAll moves m)[k]? = if ∃ move ∈ moves, move.1 = k then none else m[k]? := by
  induction moves generalizing m with
  | nil => simp
  | cons move moves ih =>
      have hnotTarget : k ≠ move.2 := (hk move List.mem_cons_self).symm
      rw [renameAll_cons, ih (fun mv hmv => hne mv (List.mem_cons_of_mem move hmv))
        (fun mv hmv => hk mv (List.mem_cons_of_mem move hmv)),
        getElem?_renameStep m (hne move List.mem_cons_self), if_neg hnotTarget]
      by_cases hsrc : k = move.1
      · simp [hsrc]
      · have hiff : (∃ mv ∈ move :: moves, mv.1 = k) ↔ ∃ mv ∈ moves, mv.1 = k := by
          simp [Ne.symm hsrc]
        simp only [hiff, if_neg hsrc]

/-- No move with a filled source has a target that a later move still has to
take: the entry there would be overwritten, or the new one carried on. -/
def Sequenced (moves : List (α × α)) (m : ExtTreeMap α β cmp) : Prop :=
  moves.Pairwise fun earlier later => earlier.2 = later.1 → m[earlier.1]? = none

/-- No move with an empty source points at a filled key that no move empties. -/
def Unburdened (moves : List (α × α)) (m : ExtTreeMap α β cmp) : Prop :=
  ∀ move ∈ moves, m[move.1]? = none → (∀ other ∈ moves, other.1 ≠ move.2) →
    m[move.2]? = none

/-- Every target ends up with what the source held. -/
def Carries (moves : List (α × α)) (m : ExtTreeMap α β cmp) : Prop :=
  ∀ move ∈ moves, (renameAll moves m)[move.2]? = m[move.1]?

omit [LawfulEqCmp cmp] [DecidableEq α] in
theorem renameStep_of_empty {m : ExtTreeMap α β cmp} {move : α × α}
    (hempty : m[move.1]? = none) : renameStep m move = m := by
  unfold renameStep
  rw [hempty]

section Injective

variable {move : α × α} {moves : List (α × α)} {m : ExtTreeMap α β cmp}

/-- A first move with an empty source does nothing, so only its target counts. -/
private theorem carries_cons_of_empty
    (htarget : ∀ mv ∈ moves, mv.2 ≠ move.2)
    (hne : ∀ mv ∈ move :: moves, mv.1 ≠ mv.2) (hempty : m[move.1]? = none) :
    Carries (move :: moves) m ↔
      ((∀ other ∈ move :: moves, other.1 ≠ move.2) → m[move.2]? = none) ∧
        Carries moves m := by
  have hnone : (renameAll moves m)[move.2]? =
      if ∃ mv ∈ moves, mv.1 = move.2 then none else m[move.2]? :=
    getElem?_renameAll_of_not_target (fun mv hmv => hne mv (List.mem_cons_of_mem move hmv))
      htarget
  have hself : move.1 ≠ move.2 := hne move List.mem_cons_self
  unfold Carries
  rw [renameAll_cons, renameStep_of_empty hempty, List.forall_mem_cons, hempty, hnone]
  refine and_congr_left fun _ => ?_
  by_cases hsrc : ∃ mv ∈ moves, mv.1 = move.2
  · -- A later move empties the target, so nothing stale stays there.
    obtain ⟨mv, hmv, hmvSrc⟩ := hsrc
    refine iff_of_true (if_pos ⟨mv, hmv, hmvSrc⟩) fun hall => ?_
    exact absurd hmvSrc (hall mv (List.mem_cons_of_mem move hmv))
  · rw [if_neg hsrc]
    refine ⟨fun h _ => h, fun h => h ?_⟩
    intro other hother
    rcases List.mem_cons.mp hother with rfl | hmem
    · exact hself
    · exact fun heq => hsrc ⟨other, hmem, heq⟩

/-- A first move with a filled source arrives exactly when no later move takes
its target, and then the later moves do not notice it. -/
private theorem carries_cons_of_filled
    (hsource : ∀ mv ∈ moves, mv.1 ≠ move.1) (htarget : ∀ mv ∈ moves, mv.2 ≠ move.2)
    (hne : ∀ mv ∈ move :: moves, mv.1 ≠ mv.2) {v : β} (hfilled : m[move.1]? = some v) :
    Carries (move :: moves) m ↔
      (∀ mv ∈ moves, mv.1 ≠ move.2) ∧ Carries moves (renameStep m move) := by
  have hself : move.1 ≠ move.2 := hne move List.mem_cons_self
  have hstep (k : α) := getElem?_renameStep m hself k
  have hfinal : (renameAll moves (renameStep m move))[move.2]? =
      if ∃ mv ∈ moves, mv.1 = move.2 then none else some v := by
    rw [getElem?_renameAll_of_not_target
      (fun mv hmv => hne mv (List.mem_cons_of_mem move hmv)) htarget, hstep]
    simp [hfilled]
  unfold Carries
  rw [renameAll_cons, List.forall_mem_cons, hfinal, hfilled]
  by_cases hsrc : ∃ mv ∈ moves, mv.1 = move.2
  · -- A later move takes the entry away again.
    obtain ⟨mv, hmv, hmvSrc⟩ := hsrc
    refine iff_of_false ?_ fun h => h.1 mv hmv hmvSrc
    rintro ⟨habs, -⟩
    rw [if_pos ⟨mv, hmv, hmvSrc⟩] at habs
    cases habs
  · rw [if_neg hsrc]
    have hall : ∀ mv ∈ moves, mv.1 ≠ move.2 := fun mv hmv heq => hsrc ⟨mv, hmv, heq⟩
    refine and_congr (iff_of_true rfl hall) (forall₂_congr fun mv hmv => ?_)
    rw [hstep mv.1, if_neg (hall mv hmv), if_neg (hsource mv hmv)]

omit [LawfulEqCmp cmp] [DecidableEq α] in
private theorem sequenced_cons :
    Sequenced (move :: moves) m ↔
      (∀ mv ∈ moves, move.2 = mv.1 → m[move.1]? = none) ∧ Sequenced moves m :=
  List.pairwise_cons

omit [LawfulEqCmp cmp] in
/-- A key that the first move would empty is empty already. -/
private theorem unburdened_cons_of_empty (hempty : m[move.1]? = none) :
    Unburdened (move :: moves) m ↔
      ((∀ other ∈ move :: moves, other.1 ≠ move.2) → m[move.2]? = none) ∧
        Unburdened moves m := by
  have hrest : Unburdened moves m ↔
      ∀ mv ∈ moves, m[mv.1]? = none → (∀ other ∈ move :: moves, other.1 ≠ mv.2) →
        m[mv.2]? = none := by
    refine forall₂_congr fun mv hmv => ?_
    refine ⟨fun h he ho => h he fun o ho' => ho o (List.mem_cons_of_mem move ho'),
      fun h he ho => ?_⟩
    by_cases heq : move.1 = mv.2
    · rw [← heq, hempty]
    · refine h he fun o ho' => ?_
      rcases List.mem_cons.mp ho' with rfl | hmem
      · exact heq
      · exact ho o hmem
  rw [hrest]
  unfold Unburdened
  rw [List.forall_mem_cons]
  simp only [hempty, forall_const]

omit [LawfulEqCmp cmp] [DecidableEq α] in
/-- Later moves do not notice a first one that leaves their sources alone. -/
private theorem sequenced_renameStep
    (hsame : ∀ mv ∈ moves, (renameStep m move)[mv.1]? = m[mv.1]?) :
    Sequenced moves m ↔ Sequenced moves (renameStep m move) := by
  unfold Sequenced
  refine List.Pairwise.iff_of_mem fun {a b} ha _ => ?_
  rw [hsame a ha]

private theorem unburdened_cons_of_filled (hself : move.1 ≠ move.2)
    (htarget : ∀ mv ∈ moves, mv.2 ≠ move.2) {v : β} (hfilled : m[move.1]? = some v)
    (hsame : ∀ mv ∈ moves, (renameStep m move)[mv.1]? = m[mv.1]?) :
    Unburdened (move :: moves) m ↔ Unburdened moves (renameStep m move) := by
  unfold Unburdened
  rw [List.forall_mem_cons]
  have htrivial : m[move.1]? = none →
      (∀ other ∈ move :: moves, other.1 ≠ move.2) → m[move.2]? = none := by
    intro habs
    rw [hfilled] at habs
    cases habs
  rw [and_iff_right htrivial]
  refine forall₂_congr fun mv hmv => ?_
  rw [hsame mv hmv, getElem?_renameStep m hself mv.2, if_neg (htarget mv hmv)]
  by_cases heq : mv.2 = move.1
  · simp [heq]
  · simp [heq, Ne.symm heq]

/-- **Exactly when an in-place rename is a simultaneous one.**  For moves with
distinct sources and distinct targets. -/
theorem renameAll_carries_iff (hsource : (moves.map Prod.fst).Nodup)
    (htarget : (moves.map Prod.snd).Nodup) (hne : ∀ mv ∈ moves, mv.1 ≠ mv.2) :
    Carries moves m ↔ Sequenced moves m ∧ Unburdened moves m := by
  induction moves generalizing m with
  | nil => simp [Carries, Sequenced, Unburdened]
  | cons move moves ih =>
      rw [List.map_cons, List.nodup_cons] at hsource htarget
      have hsource' : ∀ mv ∈ moves, mv.1 ≠ move.1 := fun mv hmv heq =>
        hsource.1 (List.mem_map.mpr ⟨mv, hmv, heq⟩)
      have htarget' : ∀ mv ∈ moves, mv.2 ≠ move.2 := fun mv hmv heq =>
        htarget.1 (List.mem_map.mpr ⟨mv, hmv, heq⟩)
      have hne' : ∀ mv ∈ moves, mv.1 ≠ mv.2 := fun mv hmv =>
        hne mv (List.mem_cons_of_mem move hmv)
      have hself : move.1 ≠ move.2 := hne move List.mem_cons_self
      cases hold : m[move.1]? with
      | none =>
          rw [carries_cons_of_empty htarget' hne hold, ih hsource.2 htarget.2 hne',
            sequenced_cons, unburdened_cons_of_empty hold, and_left_comm]
          exact and_congr (by simp [hold]) Iff.rfl
      | some v =>
          rw [carries_cons_of_filled hsource' htarget' hne hold,
            ih hsource.2 htarget.2 hne', sequenced_cons]
          have hhead : (∀ mv ∈ moves, move.2 = mv.1 → m[move.1]? = none) ↔
              ∀ mv ∈ moves, mv.1 ≠ move.2 := by
            refine forall₂_congr fun mv _ => ?_
            simp only [hold, reduceCtorEq, imp_false]
            exact ⟨Ne.symm, Ne.symm⟩
          rw [hhead, and_assoc]
          refine and_congr_right fun hfree => ?_
          -- The first move changes no source of a later one, so the hypothesis transfers.
          have hsame : ∀ mv ∈ moves, (renameStep m move)[mv.1]? = m[mv.1]? := by
            intro mv hmv
            rw [getElem?_renameStep m hself, if_neg (hfree mv hmv), if_neg (hsource' mv hmv)]
          rw [sequenced_renameStep hsame, unburdened_cons_of_filled hself htarget' hold hsame]

end Injective

end Rename
