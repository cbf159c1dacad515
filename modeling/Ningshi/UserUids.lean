import Ningshi.Packages

/-!
# The uid map and the users

A uid is `user * 100000 + appId`.  The map is built in `u32`, with user ids that
come from the names of directories.  `uidsFaithful_iff` says when every entry of
the map has the uid of its user and of its app, so that two users, or two apps
of a user, never share one.
-/

namespace Ningshi

open Std FiniteMap RustStr

/-- The line that an entry of the map comes from: the last one with its key. -/
def keyLine (text : String) (dirs : List String) (key : String) : Option (List Char) :=
  (lines text.toList).reverse.find? fun line =>
    key ∈ (lineKeys (users dirs) line).map Prod.fst

/-- The appId of a key, by that line. -/
def appIdOf (text : String) (dirs : List String) (key : String) : Option Nat :=
  ((keyLine text dirs key).bind lineApp).map fun app => app.2.toNat % 100000

/-- The map of a package list is faithful to users and appIds. -/
structure UidsFaithful (text : String) (dirs : List String) : Prop where
  /-- user and appId of an entry are those of its uid -/
  entry : ∀ m, resolveUids (some text) dirs = some m →
    ∀ (key : String) (uid : Uid), m[key]? = some uid →
      ∃ line pkg raw, keyLine text dirs key = some line ∧ line ∈ lines text.toList ∧
        lineApp line = some (pkg, raw) ∧ key = userKey (uid / 100000) pkg ∧
        uid.toNat % 100000 = raw.toNat % 100000
  /-- keys with one uid are of one user and of one appId -/
  unshared : ∀ m, resolveUids (some text) dirs = some m →
    ∀ (user user' : UInt32) (pkg pkg' : String) (uid : Uid),
      m[userKey user pkg]? = some uid → m[userKey user' pkg']? = some uid →
        user = user' ∧ appIdOf text dirs (userKey user pkg) = appIdOf text dirs (userKey user' pkg')
  /-- every uid that is computed is the number it stands for -/
  exact : ∀ line ∈ lines text.toList, ∀ pkg raw, lineApp line = some (pkg, raw) →
    raw < 100000 → ∀ user ∈ users dirs,
      (user * 100000 + raw).toNat = user.toNat * 100000 + raw.toNat

/-- The uid of every app fits for every user. -/
def UidsFit (text : String) (dirs : List String) : Prop :=
  ∀ line ∈ lines text.toList, ∀ pkg raw, lineApp line = some (pkg, raw) → raw < 100000 →
    ∀ user ∈ users dirs, user.toNat * 100000 + raw.toNat < 2 ^ 32

/-! ## Keys -/

/-- A key names one user and one package. -/
theorem userKey_inj {user user' : UInt32} {pkg pkg' : String}
    (h : userKey user pkg = userKey user' pkg') : user = user' ∧ pkg = pkg' := by
  have hcut := congrArg (fun key : String => splitOnce ':' key.toList) h
  simp only [userKey, String.toList_ofList, splitOnce_append (colon_not_mem_toDigits _),
    Option.some.injEq, Prod.mk.injEq, String.toList_inj] at hcut
  have hvalue := congrArg digitsValue hcut.1
  rw [digitsValue_toDigits, digitsValue_toDigits] at hvalue
  exact ⟨UInt32.toNat_inj.mp (Option.some.inj hvalue), hcut.2⟩

/-! ## Uids -/

/-- The machine arithmetic is exact as long as the uid fits. -/
theorem toNat_uid_eq_iff (user raw : UInt32) :
    (user * 100000 + raw).toNat = user.toNat * 100000 + raw.toNat ↔
      user.toNat * 100000 + raw.toNat < 2 ^ 32 := by
  have hwrap : (user * 100000 + raw).toNat = (user.toNat * 100000 + raw.toNat) % 2 ^ 32 := by
    rw [UInt32.toNat_add, UInt32.toNat_mul, Nat.mod_add_mod]
    rfl
  rw [hwrap]
  exact Nat.mod_eq_iff_lt (by decide)

/-- **A pair has the uid of its user and its appId.** -/
theorem userKey_of_mem_keysFor {raw : UInt32} {pkg : String} {users : List UInt32}
    {p : String × Uid} (h : p ∈ keysFor raw pkg users)
    (hexact : raw < 100000 → ∀ user ∈ users,
      (user * 100000 + raw).toNat = user.toNat * 100000 + raw.toNat) :
    p.1 = userKey (p.2 / 100000) pkg ∧ p.2.toNat % 100000 = raw.toNat % 100000 := by
  unfold keysFor at h
  split_ifs at h with hfull
  · obtain rfl := List.mem_singleton.mp h
    exact ⟨rfl, rfl⟩
  · obtain ⟨user, huser, rfl⟩ := List.mem_map.mp h
    have hlt : raw < 100000 := UInt32.not_le.mp hfull
    have huid := hexact hlt user huser
    have hraw : raw.toNat < 100000 := UInt32.lt_iff_toNat_lt.mp hlt
    have huserof : (user * 100000 + raw) / 100000 = user := by
      apply UInt32.toNat_inj.mp
      rw [UInt32.toNat_div, huid]
      show _ / 100000 = _
      omega
    refine ⟨by rw [huserof], ?_⟩
    show (user * 100000 + raw).toNat % 100000 = _
    rw [huid]
    omega

/-! ## The map -/

section Map

variable {text : String} {dirs : List String} {m : UidOf}

/-- Where an entry of the map comes from. -/
theorem keyLine_of_resolveUids (hm : resolveUids (some text) dirs = some m) {key : String}
    {uid : Uid} (hkey : m[key]? = some uid) :
    ∃ line, keyLine text dirs key = some line ∧ line ∈ lines text.toList ∧
      (key, uid) ∈ lineKeys (users dirs) line := by
  obtain rfl := Option.some.inj hm
  rw [getElem?_insertAll, ExtTreeMap.getElem?_empty, Option.or_none] at hkey
  obtain ⟨line, hline, hlast⟩ := exists_of_lastValue_flatMap hkey
  exact ⟨line, hline, List.mem_reverse.mp (List.mem_of_find?_eq_some hline),
    mem_of_lastValue_eq_some hlast⟩

/-- An entry whose line has a fitting uid. -/
theorem entry_of_resolveUids (hfit : UidsFit text dirs)
    (hm : resolveUids (some text) dirs = some m) {key : String} {uid : Uid}
    (hkey : m[key]? = some uid) :
    ∃ line pkg raw, keyLine text dirs key = some line ∧ line ∈ lines text.toList ∧
      lineApp line = some (pkg, raw) ∧ key = userKey (uid / 100000) pkg ∧
      uid.toNat % 100000 = raw.toNat % 100000 := by
  obtain ⟨line, hline, hmem, hpair⟩ := keyLine_of_resolveUids hm hkey
  obtain ⟨pkg, raw, happ, hpair⟩ := exists_app_of_mem_lineKeys hpair
  obtain ⟨huser, hid⟩ := userKey_of_mem_keysFor hpair fun hlt user huser =>
    (toNat_uid_eq_iff user raw).mpr (hfit line hmem pkg raw happ hlt user huser)
  exact ⟨line, pkg, raw, hline, hmem, happ, huser, hid⟩

/-- The user and the appId of a key can be read off its uid. -/
theorem uid_of_resolveUids (hfit : UidsFit text dirs)
    (hm : resolveUids (some text) dirs = some m) {user : UInt32} {pkg : String} {uid : Uid}
    (hkey : m[userKey user pkg]? = some uid) :
    user = uid / 100000 ∧ appIdOf text dirs (userKey user pkg) = some (uid.toNat % 100000) := by
  obtain ⟨line, pkg', raw, hline, -, happ, huser, hid⟩ := entry_of_resolveUids hfit hm hkey
  refine ⟨(userKey_inj huser).1, ?_⟩
  rw [appIdOf, hline, Option.bind_some, happ, Option.map_some, hid]

/-- **The map is faithful to users and appIds** exactly when every uid fits. -/
theorem uidsFaithful_iff (text : String) (dirs : List String) :
    UidsFaithful text dirs ↔ UidsFit text dirs := by
  constructor
  · intro h line hline pkg raw happ hlt user huser
    exact (toNat_uid_eq_iff user raw).mp (h.exact line hline pkg raw happ hlt user huser)
  · intro hfit
    refine ⟨fun m hm key uid hkey => entry_of_resolveUids hfit hm hkey,
      fun m hm user user' pkg pkg' uid hkey hkey' => ?_,
      fun line hline pkg raw happ hlt user huser =>
        (toNat_uid_eq_iff user raw).mpr (hfit line hline pkg raw happ hlt user huser)⟩
    obtain ⟨huser, hid⟩ := uid_of_resolveUids hfit hm hkey
    obtain ⟨huser', hid'⟩ := uid_of_resolveUids hfit hm hkey'
    exact ⟨huser.trans huser'.symm, hid.trans hid'.symm⟩

end Map

/-- A user directory with a large number gives an app the uid of one of user 0. -/
theorem not_uidsFaithful : ¬ ∀ text dirs, UidsFaithful text dirs := by
  intro h
  have hshared := (h "com.game 10235\ncom.bank 42939" ["42950"]).unshared _ rfl
    42950 0 "com.game" "com.bank" 42939 (by decide +kernel) (by decide +kernel)
  exact absurd hshared.1 (by decide)

end Ningshi
