import Mathlib.Data.List.Basic

/-!
# Logs of edits

A document is edited again and again, while older copies of it are still about.
Field by field, `Shows` says that a copy is not behind edit `i` of the log: it has
every field as that edit left it, unless a later one has changed the field.

A copy that is not behind an edit stays so when the log grows, and an edit that
starts from such a copy gives another one.
-/

namespace EditLog

/-- A document before and after an edit. -/
structure Edit (D : Type*) where
  before : D
  after : D

section

variable {D P V : Type*} {view : D → P → V} {log : List (Edit D)} {i : Nat} {shown : P → V}

/-- The edit has left a field as it was. -/
def Edit.Keeps (view : D → P → V) (e : Edit D) (p : P) : Prop := view e.after p = view e.before p

/-- Every field is shown as edit `i` left it, unless a later edit has changed it. -/
def Shows (view : D → P → V) (log : List (Edit D)) (i : Nat) (shown : P → V) : Prop :=
  ∀ e, log[i]? = some e → ∀ p,
    (∀ (j : Nat) (later : Edit D), i < j → log[j]? = some later → later.Keeps view p) →
      shown p = view e.after p

/-- The newest edit is shown by what it has made. -/
theorem shows_newest (log : List (Edit D)) (e : Edit D) :
    Shows view (log ++ [e]) log.length (view e.after) := by
  intro e' he' p _
  rw [List.getElem?_concat_length] at he'
  rw [Option.some.inj he']

/-- An edit is shown as before when others follow it. -/
theorem Shows.append (h : Shows view log i shown) (hi : i < log.length) (e : Edit D) :
    Shows view (log ++ [e]) i shown := by
  intro e' he' p hlater
  rw [List.getElem?_append_left hi] at he'
  refine h e' he' p fun j later hj hlog => hlater j later hj ?_
  have hlt : j < log.length := (List.getElem?_eq_some_iff.mp hlog).1
  rw [List.getElem?_append_left hlt]
  exact hlog

/-- **An edit keeps what the document showed before.** -/
theorem Shows.edited {e : Edit D} (h : Shows view log i (view e.before)) (hi : i < log.length) :
    Shows view (log ++ [e]) i (view e.after) := by
  intro e' he' p hlater
  have hkeeps : e.Keeps view p := hlater log.length e hi List.getElem?_concat_length
  rw [hkeeps]
  exact h.append hi e e' he' p hlater

end

end EditLog
