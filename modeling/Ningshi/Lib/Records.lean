import Mathlib.Data.List.Basic
import Mathlib.Data.List.TakeDrop
import Mathlib.Data.List.Infix

/-!
# Records that carry their length

A record begins with a header of fixed length, and the header says how much
follows it.  `Format.parse` cuts a buffer into the records that are there whole
and stops at the first that is not.

`parse_flatten` says that records put one behind the other are found again.
-/

namespace Records

universe u

variable {α : Type u}

structure Format (α : Type u) where
  header : Nat
  header_pos : 0 < header
  /-- what a header says about the length of the rest -/
  payload : List α → Nat

namespace Format

variable (F : Format α)

/-- The length of the record a buffer begins with. -/
def size (bytes : List α) : Nat := F.header + F.payload (bytes.take F.header)

theorem size_pos (bytes : List α) : 0 < F.size bytes :=
  Nat.lt_of_lt_of_le F.header_pos (Nat.le_add_right _ _)

/-- The records of a buffer. -/
def parse (bytes : List α) : List (List α) :=
  if F.size bytes ≤ bytes.length then
    bytes.take (F.size bytes) :: parse (bytes.drop (F.size bytes))
  else []
termination_by bytes.length
decreasing_by
  have hpos := F.size_pos bytes
  rw [List.length_drop]
  omega

/-- These bytes are one record. -/
def IsRecord (bytes : List α) : Prop := bytes.length = F.size bytes

variable {F}

theorem parse_of_torn {bytes : List α} (h : bytes.length < F.size bytes) : F.parse bytes = [] := by
  rw [parse, if_neg (by omega)]

@[simp] theorem parse_nil : F.parse [] = [] :=
  parse_of_torn (by simpa using F.size_pos [])

/-- Only the header decides about the length. -/
theorem IsRecord.size_append {bytes rest : List α} (h : F.IsRecord bytes) :
    F.size (bytes ++ rest) = bytes.length := by
  have hheader : F.header ≤ bytes.length := by
    rw [h]
    exact Nat.le_add_right _ _
  rw [h, size, size, List.take_append_of_le_length hheader]

/-- **A record in front is cut off.** -/
theorem parse_append {bytes rest : List α} (h : F.IsRecord bytes) :
    F.parse (bytes ++ rest) = bytes :: F.parse rest := by
  rw [parse, h.size_append, if_pos (by simp), List.take_left, List.drop_left]

/-- **Records one behind the other are found again.** -/
theorem parse_flatten {records : List (List α)} (h : ∀ bytes ∈ records, F.IsRecord bytes) :
    F.parse records.flatten = records := by
  induction records with
  | nil => exact parse_nil
  | cons bytes records ih =>
      rw [List.flatten_cons, parse_append (h bytes List.mem_cons_self),
        ih fun other hother => h other (List.mem_cons_of_mem bytes hother)]

end Format

end Records
