import Ningshi.Lib.FiniteMap
import Ningshi.Lib.RustStr

/-!
# `pm.rs`: package keys and uids

A rule key is `<user>:<package>`.  `resolveUids` builds the map from keys to
uids out of the package list and the users of the device: an appId gets one
key per user with the uid `user * 100000 + appId`, computed in `u32`.  A
number from 100000 on already names its user.
-/

namespace Ningshi

open Std FiniteMap

/-- A kernel user id. -/
abbrev Uid := UInt32

/-- A map keyed by uid (`HashMap<u32, _>`). -/
abbrev UidMap (β : Type) := ExtTreeMap Uid β compare

/-- A set of uids. -/
abbrev UidSet := ExtTreeSet Uid compare

/-- The map from rule keys to uids. -/
abbrev UidOf := ExtTreeMap String Uid compare

/-- `"{user}:{pkg}"`. -/
def userKey (user : UInt32) (pkg : String) : String :=
  String.ofList (Nat.toDigits 10 user.toNat ++ ':' :: pkg.toList)

/-- The pairs a package gets for one raw column value. -/
def keysFor (raw : UInt32) (pkg : String) (users : List UInt32) : List (String × Uid) :=
  -- such a number is a full uid already
  if 100000 ≤ raw then [(userKey (raw / 100000) pkg, raw)]
  else users.map fun user => (userKey user pkg, user * 100000 + raw)

/-- The users of the device: user 0 and every directory that is named by a number. -/
def users (dirs : List String) : List UInt32 :=
  (dirs.foldl (fun found name =>
    match RustStr.parseUnsigned (2 ^ 32) name.toList with
    | some n => if UInt32.ofNat n ∈ found then found else found ++ [UInt32.ofNat n]
    | none => found) [0]).insertionSort (· ≤ ·)

/-- The pairs of one line of the package list: `<pkg> <appId> ...`. -/
def lineKeys (users : List UInt32) (line : List Char) : List (String × Uid) :=
  match RustStr.splitWhitespace line with
  | pkg :: raw :: _ =>
      match RustStr.parseUnsigned (2 ^ 32) raw with
      | some n => keysFor (UInt32.ofNat n) (String.ofList pkg) users
      | none => []
  | _ => []

/-- The full map; `none` when the package list cannot be read. -/
def resolveUids (content : Option String) (dirs : List String) : Option UidOf :=
  content.map fun text =>
    insertAll ((RustStr.lines text.toList).flatMap (lineKeys (users dirs))) ∅

/-- `"user:pkg"` to `"pkg"`, when there is one. -/
def packageOf (key : String) : Option String :=
  ((RustStr.splitOnce ':' key.toList).filter fun p => p.2 ≠ []).map fun p => String.ofList p.2

/-- The package a protection check looks up: a key without a colon is looked
up as it stands. -/
def protectedName (key : String) : String :=
  match RustStr.splitOnce ':' key.toList with
  | some p => String.ofList p.2
  | none => key

/-! ## Every resolved key carries a package -/

theorem colon_not_mem_toDigits (n : Nat) : ':' ∉ Nat.toDigits 10 n := by
  intro h
  have hdigit := Nat.isDigit_of_mem_toDigits (by decide) (by decide) h
  revert hdigit
  decide

/-- A key built for a user is cut back into its package. -/
theorem packageOf_userKey (user : UInt32) {pkg : String} (hpkg : pkg.toList ≠ []) :
    packageOf (userKey user pkg) = some pkg := by
  rw [packageOf, userKey, String.toList_ofList,
    RustStr.splitOnce_append (colon_not_mem_toDigits _),
    Option.filter_some_pos (by simpa using hpkg)]
  simp

theorem exists_userKey_of_mem_keysFor {raw : UInt32} {pkg : String} {users : List UInt32}
    {p : String × Uid} (h : p ∈ keysFor raw pkg users) : ∃ user, p.1 = userKey user pkg := by
  unfold keysFor at h
  split_ifs at h
  · rw [List.mem_singleton] at h
    exact ⟨raw / 100000, by rw [h]⟩
  · obtain ⟨user, -, rfl⟩ := List.mem_map.mp h
    exact ⟨user, rfl⟩

/-- The package and the number of a line of the package list. -/
def lineApp (line : List Char) : Option (String × UInt32) :=
  match RustStr.splitWhitespace line with
  | pkg :: raw :: _ =>
      (RustStr.parseUnsigned (2 ^ 32) raw).map fun n => (String.ofList pkg, UInt32.ofNat n)
  | _ => none

theorem lineKeys_eq (users : List UInt32) (line : List Char) :
    lineKeys users line = (lineApp line).elim [] fun app => keysFor app.2 app.1 users := by
  unfold lineKeys lineApp
  match RustStr.splitWhitespace line with
  | [] => rfl
  | [_] => rfl
  | pkg :: raw :: rest =>
      dsimp only
      cases RustStr.parseUnsigned (2 ^ 32) raw <;> rfl

/-- What a pair of a line is. -/
theorem exists_app_of_mem_lineKeys {users : List UInt32} {line : List Char} {p : String × Uid}
    (h : p ∈ lineKeys users line) :
    ∃ pkg raw, lineApp line = some (pkg, raw) ∧ p ∈ keysFor raw pkg users := by
  rw [lineKeys_eq] at h
  cases happ : lineApp line with
  | none =>
      rw [happ] at h
      cases h
  | some app =>
      rw [happ] at h
      exact ⟨app.1, app.2, rfl, h⟩

theorem ne_nil_of_lineApp {line : List Char} {pkg : String} {raw : UInt32}
    (h : lineApp line = some (pkg, raw)) : pkg.toList ≠ [] := by
  unfold lineApp at h
  split at h
  next word number rest hwords =>
    obtain ⟨n, -, heq⟩ := Option.map_eq_some_iff.mp h
    have hne : word ≠ [] := RustStr.ne_nil_of_mem_splitWhitespace
      (hwords ▸ List.mem_cons_self : word ∈ RustStr.splitWhitespace line)
    obtain rfl := (Prod.mk.inj heq).1
    simpa using hne
  next => cases h

theorem packageOf_of_mem_lineKeys {users : List UInt32} {line : List Char}
    {p : String × Uid} (h : p ∈ lineKeys users line) : (packageOf p.1).isSome := by
  obtain ⟨pkg, raw, happ, hmem⟩ := exists_app_of_mem_lineKeys h
  obtain ⟨user, hkey⟩ := exists_userKey_of_mem_keysFor hmem
  rw [hkey, packageOf_userKey user (ne_nil_of_lineApp happ)]
  rfl

/-- **Every key of a resolved map names a package.** -/
theorem packageOf_of_resolveUids {content : Option String} {dirs : List String} {m : UidOf}
    (hm : resolveUids content dirs = some m) {key : String} {uid : Uid}
    (hkey : m[key]? = some uid) : (packageOf key).isSome := by
  obtain ⟨text, -, rfl⟩ := Option.map_eq_some_iff.mp hm
  rw [getElem?_insertAll, ExtTreeMap.getElem?_empty, Option.or_none] at hkey
  obtain ⟨line, -, hline⟩ := List.mem_flatMap.mp (mem_of_lastValue_eq_some hkey)
  have hpackage := packageOf_of_mem_lineKeys hline
  exact hpackage

end Ningshi
