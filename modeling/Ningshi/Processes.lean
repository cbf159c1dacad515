import Ningshi.Packages

/-!
# `fg.rs` and `clear.rs`: what a tick reads of the process table

`ProcView` is what the kernel files show during one daemon operation: the
names listed in `/proc`, the owner of each pid, the top-app cpuset files, the
per-uid cgroup files, the DRM connectors, and which of the kills asked for
delivered a signal.
-/

namespace Ningshi

open Std FiniteMap

structure ProcView where
  /-- the numeric names in `/proc`, `none` when it cannot be read -/
  pids : Option (List Int)
  /-- owner of `/proc/<pid>` -/
  pidUid : Int → Option Uid
  /-- the top-app candidate files, in the order they are tried -/
  topApp : List (Option (List Int))
  /-- `apps/uid_<uid>/cgroup.procs` -/
  cgroupProcs : Uid → Option (List Int)
  /-- name and `dpms` text of the DRM connectors -/
  drm : Option (List (String × Option String))
  /-- did `kill_pid_if_uid(pid, uid)` deliver a signal? -/
  signalled : Int → Uid → Bool

/-- Nothing is running and nothing can be read. -/
def ProcView.quiet : ProcView where
  pids := none
  pidUid := fun _ => none
  topApp := []
  cgroupProcs := fun _ => none
  drm := none
  signalled := fun _ _ => false

/-- Pids of the first top-app file that lists any. -/
def topAppPids : List (Option (List Int)) → List Int
  | [] => []
  | some content :: rest =>
      let pids := content.filter fun pid => 1 < pid
      if pids = [] then topAppPids rest else pids
  | none :: rest => topAppPids rest

/-- The live and the foreground uids among `targets`.  Without `needLive` only
the top-app pids are looked at and no uid counts as live. -/
def uidsSnapshot (view : ProcView) (topPids : List Int) (needLive : Bool) (targets : UidSet) :
    UidSet × UidSet :=
  let owner (pid : Int) : Option Uid := (view.pidUid pid).filter fun uid => uid ∈ targets
  if !needLive then (∅, .ofList (topPids.filterMap owner))
  else
    let pids := (view.pids.getD []).filter fun pid => 1 < pid
    (.ofList (pids.filterMap owner),
      .ofList ((pids.filter fun pid => pid ∈ topPids).filterMap owner))

def contains (text part : List Char) : Bool :=
  text.tails.any fun t => part.isPrefixOf t

/-- Is every readable physical connector off?  No connector counts as on. -/
def screenOffFrom : List (String × Option String) → Bool → Bool
  | [], found => found
  | (name, dpms) :: rest, found =>
      -- not the name of a physical connector
      if !('-' ∈ name.toList) || contains name.toList "Virtual".toList then
        screenOffFrom rest found
      else
        match dpms with
        | none => screenOffFrom rest found
        | some text =>
            if RustStr.trim text.toList = ['O', 'n'] then false else screenOffFrom rest true

def screenOff (view : ProcView) : Bool :=
  match view.drm with
  | none => false
  | some entries => screenOffFrom entries false

/-- The pids to kill for the given uids, each with the uid it is expected to
have: from the cgroup file where the uid has one, else from `/proc`. -/
def killTargets (view : ProcView) (uids : UidSet) : ExtTreeMap Int Uid compare :=
  let listed := uids.toList.flatMap fun uid =>
    (((view.cgroupProcs uid).getD []).filter fun pid => 1 < pid).map fun pid => (pid, uid)
  let missing := uids.toList.filter fun uid => (view.cgroupProcs uid).isNone
  -- one pass over `/proc` for all uids without a cgroup file
  let scanned :=
    if missing = [] then []
    else ((view.pids.getD []).filter fun pid => 1 < pid).filterMap fun pid =>
      ((view.pidUid pid).filter fun uid => uid ∈ missing).map fun uid => (pid, uid)
  insertAll (listed ++ scanned) ∅

/-- Kill every process of the given uids; the number of signals delivered. -/
def killUids (view : ProcView) (uids : UidSet) : Nat :=
  if uids.isEmpty then 0
  else ((killTargets view uids).toList.filter fun p => view.signalled p.1 p.2).length

def killUid (view : ProcView) (uid : Uid) : Nat :=
  killUids view (.ofList [uid])

end Ningshi
