import Ningshi.Gate

/-!
# `proc.rs`, `gate.rs`: who a process is

The name of an Android app process is in its own command line.  The check
before a kill reads the command line up to twenty times, until one of the names
blocked for the uid shows up, and compares the last name it has seen.  A
command line without a name is taken for that of a process that has gone, and
counts as confirmed; `sound_iff` says exactly when that goes wrong for a process
that stays alive.
-/

namespace Ningshi

open Std FiniteMap

/-- Package name carried by a command line. -/
def pkgFromCmdline (raw : List UInt8) : Option String :=
  let argv0 := raw.takeWhile fun b => b ≠ 0
  if argv0 = [] then none
  else
    -- "com.foo:remote" is a process of "com.foo"
    let pkg := RustStr.trim ((RustStr.fromUtf8Lossy argv0).takeWhile fun c => c ≠ ':')
    if pkg = [] then none else some (String.ofList pkg)

/-- The tries left of `pkg_of_pid_wait`, from try `i` on.  `cmdline` is what
reading `/proc/<pid>/cmdline` returns at each of them. -/
def pkgOfPidFrom (cmdline : Nat → Option (List UInt8)) (expected : List String) :
    Nat → Nat → Option String → Option String
  | 0, _, seen => seen
  | tries + 1, i, seen =>
      match (cmdline i).bind pkgFromCmdline with
      | some pkg =>
          if pkg ∈ expected then some pkg
          else pkgOfPidFrom cmdline expected tries (i + 1) (some pkg)
      | none => pkgOfPidFrom cmdline expected tries (i + 1) seen

/-- `pkg_of_pid_wait`: one of the expected names, else the last name seen. -/
def pkgOfPidWait (cmdline : Nat → Option (List UInt8)) (expected : List String)
    (attempts : Nat) : Option String :=
  pkgOfPidFrom cmdline expected (max attempts 1) 0 none

def identityTries : Nat := 20

/-- Is this pid one of the packages blocked for the uid?  The second part is
what goes to the log. -/
def identityOk (identity : UidMap (List String)) (cmdline : Nat → Option (List UInt8))
    (uid : Uid) : Bool × String :=
  match identity[uid]? with
  | none => (false, "no blocked package for this uid")
  | some names =>
      if names = [] then (false, "empty block list")
      else
        match pkgOfPidWait cmdline names identityTries with
        | some pkg => (pkg ∈ names, pkg)
        | none => (true, "unreadable")

/-! ## Names -/

/-- The process's argv[0], cut at the first colon and trimmed. -/
def argvPackage (raw : List UInt8) : String :=
  String.ofList (RustStr.trim
    ((RustStr.fromUtf8Lossy (raw.takeWhile fun b => b ≠ 0)).takeWhile fun c => c ≠ ':'))

/-- A command line carries its argv[0], unless nothing is left of it. -/
theorem pkgFromCmdline_eq (raw : List UInt8) :
    pkgFromCmdline raw = if argvPackage raw = "" then none else some (argvPackage raw) := by
  have hempty (l : List Char) : String.ofList l = "" ↔ l = [] := by
    rw [← String.toList_inj]
    simp
  unfold pkgFromCmdline argvPackage
  generalize raw.takeWhile (fun b => b ≠ 0) = argv0
  by_cases hargv0 : argv0 = []
  · subst hargv0
    rfl
  · simp only [if_neg hargv0, hempty]

/-- What is returned by the remaining tries was seen at one of them, or before. -/
theorem exists_of_pkgOfPidFrom {cmdline : Nat → Option (List UInt8)} {expected : List String}
    {tries i : Nat} {seen : Option String} {pkg : String}
    (h : pkgOfPidFrom cmdline expected tries i seen = some pkg) :
    (∃ j, i ≤ j ∧ j < i + tries ∧ (cmdline j).bind pkgFromCmdline = some pkg) ∨
      seen = some pkg := by
  induction tries generalizing i seen with
  | zero => exact .inr h
  | succ tries ih =>
      rw [pkgOfPidFrom] at h
      split at h
      next found hfound =>
        have hhere : found = pkg → ∃ j, i ≤ j ∧ j < i + (tries + 1) ∧
            (cmdline j).bind pkgFromCmdline = some pkg := by
          rintro rfl
          exact ⟨i, Nat.le_refl i, by omega, hfound⟩
        split_ifs at h with hexpected
        · exact .inl (hhere (Option.some.inj h))
        · rcases ih h with ⟨j, hij, hj, hpkg⟩ | hseen
          · exact .inl ⟨j, by omega, by omega, hpkg⟩
          · exact .inl (hhere (Option.some.inj hseen))
      next =>
        rcases ih h with ⟨j, hij, hj, hpkg⟩ | hseen
        · exact .inl ⟨j, by omega, by omega, hpkg⟩
        · exact .inr hseen

/-- Nothing is returned when no try has seen a name. -/
theorem pkgOfPidFrom_eq_none_iff {cmdline : Nat → Option (List UInt8)}
    {expected : List String} {tries i : Nat} {seen : Option String} :
    pkgOfPidFrom cmdline expected tries i seen = none ↔
      seen = none ∧ ∀ j, i ≤ j → j < i + tries → (cmdline j).bind pkgFromCmdline = none := by
  induction tries generalizing i seen with
  | zero => simp [pkgOfPidFrom]; omega
  | succ tries ih =>
      rw [pkgOfPidFrom]
      split
      next found hfound =>
        refine iff_of_false ?_ fun h => ?_
        · split_ifs
          · simp
          · simp [ih]
        · rw [h.2 i (Nat.le_refl i) (by omega)] at hfound
          cases hfound
      next hnone =>
        rw [ih]
        refine and_congr_right fun _ => ⟨fun h j hij hj => ?_, fun h j hij hj => ?_⟩
        · by_cases heq : j = i
          · rw [heq]
            exact hnone
          · exact h j (by omega) (by omega)
        · exact h j (by omega) (by omega)

/-! ## The check -/

/-- The check confirms a live process only if one of its names is indexed: at
try `i` its command line is `reads i`. -/
def Sound (identity : UidMap (List String)) (uid : Uid) (reads : Nat → List UInt8) : Prop :=
  (identityOk identity (fun i => some (reads i)) uid).1 = true →
    ∃ names, identity[uid]? = some names ∧ ∃ i < identityTries, argvPackage (reads i) ∈ names

/-- The uid has no names, or the process shows one at some try. -/
def ShowsName (identity : UidMap (List String)) (uid : Uid) (reads : Nat → List UInt8) : Prop :=
  ∀ names, identity[uid]? = some names → names ≠ [] →
    "" ∈ names ∨ ∃ i < identityTries, argvPackage (reads i) ≠ ""

/-- No name is seen exactly when there is none at any try. -/
theorem pkgOfPidWait_eq_none_iff {expected : List String} {reads : Nat → List UInt8} :
    pkgOfPidWait (fun i => some (reads i)) expected identityTries = none ↔
      ∀ i < identityTries, argvPackage (reads i) = "" := by
  rw [pkgOfPidWait, pkgOfPidFrom_eq_none_iff, show max identityTries 1 = identityTries from rfl]
  simp only [Option.bind_some, pkgFromCmdline_eq, true_and, Nat.zero_le, true_implies, zero_add,
    ite_eq_left_iff, reduceCtorEq, imp_false, not_not]

theorem argvPackage_of_pkgOfPidWait {expected : List String} {reads : Nat → List UInt8}
    {pkg : String}
    (h : pkgOfPidWait (fun i => some (reads i)) expected identityTries = some pkg) :
    ∃ i < identityTries, argvPackage (reads i) = pkg := by
  rcases exists_of_pkgOfPidFrom h with ⟨i, -, hi, hpkg⟩ | hnone
  · rw [Option.bind_some, pkgFromCmdline_eq] at hpkg
    split_ifs at hpkg
    exact ⟨i, by rwa [zero_add] at hi, Option.some.inj hpkg⟩
  · cases hnone

/-- **Exactly when the identity check is sound for a live process.** -/
theorem sound_iff (identity : UidMap (List String)) (uid : Uid) (reads : Nat → List UInt8) :
    Sound identity uid reads ↔ ShowsName identity uid reads := by
  unfold Sound ShowsName identityOk
  cases identity[uid]? with
  | none => simp
  | some names =>
      by_cases hempty : names = []
      · simp [hempty]
      simp only [if_neg hempty, Option.some.injEq, exists_eq_left', forall_eq']
      cases hseen : pkgOfPidWait (fun i => some (reads i)) names identityTries with
      | some pkg =>
          -- a name was seen, and it decides
          obtain ⟨i, hi, rfl⟩ := argvPackage_of_pkgOfPidWait hseen
          refine iff_of_true (fun hmem => ⟨i, hi, of_decide_eq_true hmem⟩) fun _ => .inr ?_
          by_contra hnone
          push Not at hnone
          rw [pkgOfPidWait_eq_none_iff.mpr hnone] at hseen
          cases hseen
      | none =>
          have hblank := pkgOfPidWait_eq_none_iff.mp hseen
          constructor
          · intro h _
            obtain ⟨i, hi, hmem⟩ := h rfl
            rw [hblank i hi] at hmem
            exact .inl hmem
          · intro h _
            rcases h hempty with hmem | ⟨i, hi, hname⟩
            · exact ⟨0, by decide, by rw [hblank 0 (by decide)]; exact hmem⟩
            · exact absurd (hblank i hi) hname

/-- **A process that shows one name throughout** is confirmed exactly when the
name is indexed. -/
theorem identityOk_of_readable {identity : UidMap (List String)} {uid : Uid} {raw : List UInt8}
    {pkg : String} (h : pkgFromCmdline raw = some pkg) :
    (identityOk identity (fun _ => some raw) uid).1 = true ↔ pkg ∈ identity[uid]?.getD [] := by
  unfold identityOk
  cases identity[uid]? with
  | none => simp
  | some names =>
      by_cases hempty : names = []
      · simp [hempty]
      have hseen : pkgOfPidWait (fun _ => some raw) names identityTries = some pkg := by
        cases hwait : pkgOfPidWait (fun _ => some raw) names identityTries with
        | none =>
            have hblank := (pkgOfPidFrom_eq_none_iff.mp hwait).2 0 (Nat.le_refl 0) (by decide)
            rw [Option.bind_some, h] at hblank
            cases hblank
        | some found =>
            rcases exists_of_pkgOfPidFrom hwait with ⟨_, -, -, hfound⟩ | hnone
            · rw [← hfound, Option.bind_some, h]
            · cases hnone
      simp only [if_neg hempty, hseen, Option.getD_some, decide_eq_true_eq]

/-- A live process with an empty argv[0] is confirmed as any package. -/
theorem not_sound : ¬ ∀ identity uid reads, Sound identity uid reads := by
  intro h
  obtain ⟨names, hnames, i, -, hmem⟩ :=
    h (insertAll [(10001, ["com.game"])] ∅) 10001 (fun _ => [0, 45, 45]) (by decide +kernel)
  have hgame : (insertAll [(10001, ["com.game"])] ∅ : UidMap (List String))[(10001 : Uid)]? =
      some ["com.game"] := by decide +kernel
  obtain rfl := Option.some.inj (hgame.symm.trans hnames)
  exact absurd hmem (by decide +kernel : argvPackage [0, 45, 45] ∉ ["com.game"])

end Ningshi
