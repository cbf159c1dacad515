import Mathlib.Data.List.Basic

/-!
# Traces

A trace lists what has happened, newest first, so that what came before an entry
is the rest of the list behind it.  `Always p` says that `p` holds of every
entry together with what came before it, and is extended one entry at a time;
`After a b` that `a` has happened after `b`.
-/

namespace Trace

universe u

variable {α : Type u} {p : α → List α → Prop} {a b c : α} {t : List α}

/-- Every entry meets `p` with what came before it. -/
def Always (p : α → List α → Prop) (t : List α) : Prop :=
  ∀ a earlier, a :: earlier <:+ t → p a earlier

@[simp] theorem always_nil : Always p [] := by
  intro a earlier h
  rw [List.suffix_nil] at h
  cases h

@[simp] theorem always_cons : Always p (a :: t) ↔ p a t ∧ Always p t := by
  constructor
  · intro h
    exact ⟨h a t (List.suffix_refl _), fun b earlier hb =>
      h b earlier (hb.trans (List.suffix_cons a t))⟩
  · rintro ⟨hnow, hbefore⟩ b earlier hb
    rcases List.suffix_cons_iff.mp hb with heq | hb
    · obtain ⟨rfl, rfl⟩ := List.cons.inj heq
      exact hnow
    · exact hbefore b earlier hb

theorem always_congr {p' : α → List α → Prop}
    (h : ∀ a earlier, a :: earlier <:+ t → (p a earlier ↔ p' a earlier)) :
    Always p t ↔ Always p' t :=
  forall_congr' fun a => forall_congr' fun earlier => forall_congr' fun hsuffix =>
    h a earlier hsuffix

/-- `a` has happened, and `b` before it. -/
def After (a b : α) (t : List α) : Prop := ∃ earlier, a :: earlier <:+ t ∧ b ∈ earlier

theorem After.cons (h : After a b t) (c : α) : After a b (c :: t) := by
  obtain ⟨earlier, hsuffix, hmem⟩ := h
  exact ⟨earlier, hsuffix.trans (List.suffix_cons c t), hmem⟩

theorem after_cons_self (h : b ∈ t) : After a b (a :: t) := ⟨t, List.suffix_refl _, h⟩

theorem After.mem (h : After a b t) : a ∈ t := by
  obtain ⟨earlier, hsuffix, -⟩ := h
  exact hsuffix.subset List.mem_cons_self

end Trace
