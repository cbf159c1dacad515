import Ningshi.Lib.Trace

/-!
# Handles that are acquired and released

A history of uses, newest first.  The handle may be a number that the system
gives away again after its release.  A history is proper when only a free handle
is acquired, and only a held one used or released; then every handle that was
acquired and is not held any more has been released exactly once, and was not
touched after that before it was acquired anew (`acquired_cases`).
-/

namespace Handles

open Trace

universe u

inductive Use (η : Type u) where
  | acquire (h : η)
  | use (h : η)
  | release (h : η)

variable {η : Type u}

/-- The handle a use is about. -/
def Use.handle : Use η → η
  | .acquire h => h
  | .use h => h
  | .release h => h

variable [DecidableEq η]

/-- The handles held after a history. -/
def held : List (Use η) → List η
  | [] => []
  | .acquire h :: past => h :: held past
  | .use _ :: past => held past
  | .release h :: past => (held past).erase h

/-- A use is proper with what came before it. -/
def Proper : Use η → List (Use η) → Prop
  | .acquire h, past => h ∉ held past
  | .use h, past => h ∈ held past
  | .release h, past => h ∈ held past

/-- Nothing is done with the handle but to acquire it anew. -/
def Untouched (h : η) (history : List (Use η)) : Prop :=
  Always (fun u past => u.handle = h → u = .acquire h ∨ .acquire h ∈ past) history

/-- Held once. -/
theorem nodup_held {history : List (Use η)} (hproper : Always Proper history) :
    (held history).Nodup := by
  induction history with
  | nil => exact List.nodup_nil
  | cons u past ih =>
      rw [always_cons] at hproper
      have hpast := ih hproper.2
      cases u with
      | acquire h => exact List.nodup_cons.mpr ⟨hproper.1, hpast⟩
      | use h => exact hpast
      | release h => exact hpast.erase h

omit [DecidableEq η] in
theorem exists_use_of_mem_cons {p : η → Prop} {u : Use η} {uses : List (Use η)}
    (h : ∀ v ∈ u :: uses, ∃ k, p k ∧ v = .use k) :
    (∃ k, p k ∧ u = .use k) ∧ ∀ v ∈ uses, ∃ k, p k ∧ v = .use k :=
  ⟨h u List.mem_cons_self, fun v hv => h v (List.mem_cons_of_mem u hv)⟩

/-- Uses of held handles. -/
theorem proper_uses {uses past : List (Use η)}
    (huses : ∀ u ∈ uses, ∃ h, h ∈ held past ∧ u = .use h) (hpast : Always Proper past) :
    Always Proper (uses ++ past) ∧ held (uses ++ past) = held past := by
  induction uses with
  | nil => exact ⟨hpast, rfl⟩
  | cons u uses ih =>
      obtain ⟨⟨h, hheld, rfl⟩, hrest⟩ := exists_use_of_mem_cons huses
      obtain ⟨hproper, heq⟩ := ih hrest
      refine ⟨always_cons.mpr ⟨?_, hproper⟩, heq⟩
      show h ∈ held (uses ++ past)
      rwa [heq]

/-- What is done with other handles does not matter. -/
theorem mem_held_cons_of_ne {u : Use η} {h : η} (hne : u.handle ≠ h) (past : List (Use η)) :
    h ∈ held (u :: past) ↔ h ∈ held past := by
  cases u with
  | acquire k => simp [held, Ne.symm (show k ≠ h from hne)]
  | use k => rfl
  | release k => exact List.mem_erase_of_ne (Ne.symm hne)

/-- A handle that was free and is held has been acquired in between. -/
theorem acquire_mem_of_held {h : η} {past : List (Use η)} (hfree : h ∉ held past)
    {later : List (Use η)} (hheld : h ∈ held (later ++ past)) : .acquire h ∈ later := by
  induction later with
  | nil => exact absurd hheld hfree
  | cons u later ih =>
      by_cases hu : u.handle = h
      · cases u with
        | acquire k =>
            obtain rfl : k = h := hu
            exact List.mem_cons_self
        | use k => exact List.mem_cons_of_mem _ (ih hheld)
        | release k => exact List.mem_cons_of_mem _ (ih (List.mem_of_mem_erase hheld))
      · exact List.mem_cons_of_mem _ (ih ((mem_held_cons_of_ne hu _).mp hheld))

/-- **What becomes of an acquired handle.**  It is still held and has been used
only, or it has been released once, and used before that only. -/
theorem acquired_cases {h : η} {earlier later : List (Use η)}
    (hproper : Always Proper (later ++ .acquire h :: earlier)) :
    (h ∈ held (later ++ .acquire h :: earlier) ∧ ∀ u ∈ later, u.handle = h → u = .use h) ∨
      ∃ after before, later = after ++ .release h :: before ∧
        (∀ u ∈ before, u.handle = h → u = .use h) ∧ Untouched h after := by
  induction later with
  | nil => exact .inl ⟨List.mem_cons_self, by simp⟩
  | cons u later ih =>
      rw [List.cons_append, always_cons] at hproper
      obtain ⟨hnow, hpast⟩ := hproper
      obtain ⟨hheld, hused⟩ | ⟨after, before, rfl, hbefore, hafter⟩ := ih hpast
      · by_cases hu : u.handle = h
        · cases u with
          | acquire k =>
              obtain rfl : k = h := hu
              exact absurd hheld hnow
          | use k =>
              obtain rfl : k = h := hu
              refine .inl ⟨hheld, fun v hv hvh => ?_⟩
              obtain rfl | hv := List.mem_cons.mp hv
              · rfl
              · exact hused v hv hvh
          | release k =>
              obtain rfl : k = h := hu
              exact .inr ⟨[], later, rfl, hused, always_nil⟩
        · refine .inl ⟨(mem_held_cons_of_ne hu _).mpr hheld, fun v hv hvh => ?_⟩
          obtain rfl | hv := List.mem_cons.mp hv
          · exact absurd hvh hu
          · exact hused v hv hvh
      · refine .inr ⟨u :: after, before, rfl, hbefore, always_cons.mpr ⟨fun hu => ?_, hafter⟩⟩
        rw [List.append_assoc] at hnow hpast
        -- right after the release the handle was free
        have hreleased : Always Proper (.release h :: (before ++ .acquire h :: earlier)) := by
          intro v past hsuffix
          exact hpast v past (hsuffix.trans (List.suffix_append _ _))
        have hfree : h ∉ held (.release h :: (before ++ .acquire h :: earlier)) :=
          (nodup_held (always_cons.mp hreleased).2).not_mem_erase
        cases u with
        | acquire k =>
            obtain rfl : k = h := hu
            exact .inl rfl
        | use k =>
            obtain rfl : k = h := hu
            exact .inr (acquire_mem_of_held hfree hnow)
        | release k =>
            obtain rfl : k = h := hu
            exact .inr (acquire_mem_of_held hfree hnow)

end Handles
