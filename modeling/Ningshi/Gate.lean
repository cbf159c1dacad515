import Ningshi.Lib.Transition
import Ningshi.Packages

/-!
# `gate.rs`: the block map, its mirror and the identity index

The gate holds three structures keyed by uid: the kernel block map the BPF
programs read, a mirror of it for the killer thread, and the index of the
package names that are blocked for a uid.  `setBlocked` updates the first two
in this order and stops between them when the kernel refuses.
-/

namespace Ningshi

open Std FiniteMap Transition

structure Gate where
  /-- kernel map `blocked_uids`: uid to 1 -/
  kernel : UidMap UInt8
  /-- `blocked_set`, the killer's mirror of the kernel map -/
  mirror : UidMap UInt8
  /-- blocked package names per uid -/
  identity : UidMap (List String)
  deriving DecidableEq

/-- A gate that has just been started. -/
def Gate.start : Gate := ⟨∅, ∅, ∅⟩

def Gate.setBlockIndex (g : Gate) (index : UidMap (List String)) : Gate :=
  { g with identity := index }

/-- Add a uid to the block map or remove it.  `accepted` is the kernel's
answer; removing a key the kernel map does not hold is refused. -/
def Gate.setBlocked (accepted : Bool) (uid : Uid) (blocked : Bool) (g : Gate) : Outcome Gate :=
  if blocked then
    if accepted then
      .ok { g with kernel := g.kernel.insert uid 1, mirror := g.mirror.insert uid 1 }
    else .err g
  else
    -- `remove` fails for a key that is not in the kernel map
    if accepted && g.kernel.contains uid then
      .ok { g with kernel := g.kernel.erase uid, mirror := g.mirror.erase uid }
    else .err g

/-- A refused update changes nothing. -/
theorem Gate.setBlocked_eq_err {accepted blocked : Bool} {uid : Uid} {g g' : Gate}
    (h : g.setBlocked accepted uid blocked = .err g') : g' = g := by
  unfold Gate.setBlocked at h
  split_ifs at h <;> simpa [eq_comm] using h

/-- The index is not touched by an update of the block map. -/
@[simp] theorem Gate.setBlocked_identity (accepted blocked : Bool) (uid : Uid) (g : Gate) :
    (g.setBlocked accepted uid blocked).state.identity = g.identity := by
  unfold Gate.setBlocked
  split_ifs <;> rfl

/-- An update that went through changed the kernel map at this uid. -/
theorem Gate.mem_setBlocked_kernel {accepted blocked : Bool} {uid u : Uid} {g g' : Gate}
    (h : g.setBlocked accepted uid blocked = .ok g') :
    u ∈ g'.kernel ↔ if uid = u then blocked = true else u ∈ g.kernel := by
  unfold Gate.setBlocked at h
  split_ifs at h with hblocked
  · obtain rfl := Outcome.ok.inj h
    by_cases hu : uid = u
    · simp [hu, hblocked]
    · simp [ExtTreeMap.mem_insert, hu]
  · obtain rfl := Outcome.ok.inj h
    by_cases hu : uid = u
    · simp [hu, hblocked]
    · simp [ExtTreeMap.mem_erase, hu]

/-- An update of the block map, in the kernel map or in the mirror. -/
def applyBlock (uid : Uid) (blocked : Bool) (m : UidMap UInt8) : UidMap UInt8 :=
  if blocked then m.insert uid 1 else m.erase uid

/-- **The two halves of an update**, with nothing in between, are `setBlocked`. -/
theorem Gate.setBlocked_eq_halves {uid : Uid} {blocked : Bool} {g : Gate}
    (h : blocked = true ∨ uid ∈ g.kernel) :
    g.setBlocked true uid blocked =
      .ok { g with
        kernel := applyBlock uid blocked g.kernel
        mirror := applyBlock uid blocked g.mirror } := by
  cases blocked with
  | true => rfl
  | false =>
      have hkernel : g.kernel.contains uid = true := h.resolve_left Bool.false_ne_true
      simp [Gate.setBlocked, applyBlock, hkernel]

/-- The BPF side of the check: only uids from 10000 on can be blocked. -/
def bpfBlocked (kernel : UidMap UInt8) (uid : Uid) : Bool :=
  if uid < 10000 then false else (kernel[uid]?).any fun b => b != 0

/-- What the BPF side finds blocked is in the block map. -/
theorem mem_of_bpfBlocked {kernel : UidMap UInt8} {uid : Uid}
    (h : bpfBlocked kernel uid = true) : uid ∈ kernel := by
  unfold bpfBlocked at h
  split_ifs at h
  cases hkernel : kernel[uid]? with
  | none =>
      rw [hkernel] at h
      cases h
  | some b => exact ExtTreeMap.mem_iff_isSome_getElem?.mpr (by rw [hkernel]; rfl)

end Ningshi
