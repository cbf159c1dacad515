import Ningshi.PoolUsage
import Ningshi.Socket
import Ningshi.WebPages

/-!
# `app.js`: what the WebUI shows of the status

The WebUI works out on its own what it shows of an app: which limit it is under,
how much of it is used up, how long an extension still lasts.  All it has for
that is the rules file and the text of `status`, and it has formulas of its own.

`shown_of_status` says that they agree with those of the daemon, where the WebUI
rounds to minutes up to half a minute.
-/

namespace Ningshi

open Std FiniteMap JsonDoc Transition

/-! ## Values of JavaScript -/

/-- The double next to a natural number; of two the even one. -/
def toDouble (n : Nat) : Nat :=
  let ulp := 2 ^ (n.log2 - 52)
  let q := n / ulp
  if 2 * (n % ulp) < ulp ∨ 2 * (n % ulp) = ulp ∧ q % 2 = 0 then q * ulp else (q + 1) * ulp

theorem toDouble_of_lt {n : Nat} (h : n < 2 ^ 53) : toDouble n = n := by
  have hlog : n.log2 - 52 = 0 := by
    by_cases hn : n = 0
    · subst hn
      rfl
    · have := (Nat.log2_lt hn).mpr h
      omega
  simp only [toDouble, hlog, Nat.pow_zero, Nat.mod_one, Nat.div_one]
  simp

/-- `value[name]`; the parser keeps the last of several members with one name. -/
def memberOf (name : String) : Value → Option Value
  | .obj members => lastValue members name
  | _ => none

/-- `(status[name] && status[name][key]) || 0`, of a parsed text. -/
def numberIn (name key : String) (status : Value) : Nat :=
  match (memberOf name status).bind (memberOf key) with
  | some (.num (.ofNat n)) => toDouble n
  | _ => 0

/-! ## What is shown -/

namespace WebStatus

variable (status : Value) (uid : Uid)

/-- `(status.blocked_uids || []).includes(uid)` -/
def blocked : Bool :=
  match memberOf "blocked_uids" status with
  | some (.arr items) => items.any fun item => asNat item == some uid.toNat
  | _ => false

def scopedUsage (scope : String) : Nat :=
  let any := numberIn "usage_seconds" (ofKeyU32 uid) status
  let fg := numberIn "usage_fg_seconds" (ofKeyU32 uid) status
  if scope == "any" then any
  else if scope == "background" then any - fg
  else fg

/-- The minutes left until a deadline, rounded up. -/
def minutesLeft (now deadline : Nat) : Nat :=
  if now < deadline then (deadline - now + 59) / 60 else 0

end WebStatus

/-- The limit of a rule that is on. -/
def WebRule.limit (rule : WebRule) : Option WebDuration :=
  if rule.enabled.getD false then rule.duration.filter fun d => 0 < d.limitMinutes else none

/-- `effectiveDuration`: the limit of the own rule, or that of the group. -/
def WebDoc.effectiveDuration (key : String) (doc : WebDoc) : Option WebDuration :=
  (doc.apps[key]?.bind WebRule.limit).or
    ((doc.groupShown key).bind fun gid => doc.groups[gid]?.bind fun g => g.rule.limit)

/-- The line of numbers of an app. -/
structure Stats where
  /-- missing where no limit applies -/
  usedMinutes : Option Nat
  kills : Nat
  deriving DecidableEq

/-- `updateStats`; a half minute is rounded up. -/
def WebDoc.stats (status : Value) (uid : Uid) (key : String) (doc : WebDoc) : Stats where
  usedMinutes := (doc.effectiveDuration key).map fun d =>
    let scope := if d.scope = "" then "foreground" else d.scope
    (WebStatus.scopedUsage status uid scope + 30) / 60
  kills := numberIn "kill_counts" (ofKeyU32 uid) status

/-- `updateExtDisplay` in the settings the card of an app leads to: its own, or
those of its group. -/
def Entry.extensionLeft (status : Value) (now : Nat) (uid : Uid) : Entry → Nat
  | app _ _ =>
      WebStatus.minutesLeft now (numberIn "extensions" (ofKeyU32 uid) status)
  | group gid _ => WebStatus.minutesLeft now (numberIn "group_extensions" gid status)

/-! ## Reading the status -/

/-- No number of the status is too large for a double. -/
structure Engine.Exact (eng : Engine) : Prop where
  usage : ∀ uid, eng.usageOf uid < 2 ^ 53
  fg : ∀ uid, eng.fgOf uid < 2 ^ 53
  kills : ∀ uid : Uid, eng.killCount[uid]?.getD 0 < 2 ^ 53
  extension : ∀ uid : Uid, eng.extensionUntil[uid]?.getD 0 < 2 ^ 53
  groupExtension : ∀ gid : String, eng.groupExtensionUntil[gid]?.getD 0 < 2 ^ 53

section Reading

variable {eng : Engine} {health : Value} {epoch : Nat} {uid : Uid} {gid name : String}

theorem ofKeyU32_injective (a b : UInt32) (h : ofKeyU32 a = ofKeyU32 b) : a = b := by
  have hkeys := congrArg keyU32 h
  rw [keyU32_ofKeyU32, keyU32_ofKeyU32] at hkeys
  exact Option.some.inj hkeys

/-- A number of a map that was written as an object. -/
theorem numberIn_ofMap {α : Type} {cmp : α → α → Ordering} [TransCmp cmp] [LawfulEqCmp cmp]
    [DecidableEq α] {key : α → String} (hkey : ∀ a b, key a = key b → a = b)
    {m : ExtTreeMap α Nat cmp} {status : Value} (k : α)
    (hmember : memberOf name status = some (ofMap key natValue m))
    (hexact : m[k]?.getD 0 < 2 ^ 53) : numberIn name (key k) status = m[k]?.getD 0 := by
  have hlookup : memberOf (key k) (ofMap key natValue m) = m[k]?.map natValue := by
    show lastValue (m.toList.map fun p => (key p.1, natValue p.2)) (key k) = _
    rw [lastValue_map_keys hkey natValue m.toList k]
    exact congrArg (Option.map natValue) (lastValue_arrange .canonical m k)
  unfold numberIn
  rw [hmember, Option.bind_some, hlookup]
  cases hk : m[k]? with
  | none => rfl
  | some n =>
      rw [hk] at hexact
      exact toDouble_of_lt hexact

theorem usage_read (h : eng.Exact) :
    numberIn "usage_seconds" (ofKeyU32 uid) (eng.status health epoch) = eng.usageOf uid :=
  numberIn_ofMap ofKeyU32_injective uid rfl (h.usage uid)

theorem fg_read (h : eng.Exact) :
    numberIn "usage_fg_seconds" (ofKeyU32 uid) (eng.status health epoch) = eng.fgOf uid :=
  numberIn_ofMap ofKeyU32_injective uid rfl (h.fg uid)

theorem kills_read (h : eng.Exact) :
    numberIn "kill_counts" (ofKeyU32 uid) (eng.status health epoch) =
      eng.killCount[uid]?.getD 0 :=
  numberIn_ofMap ofKeyU32_injective uid rfl (h.kills uid)

/-- **The two formulas for the usage of a scope agree**, also where the scope is
unknown or empty. -/
theorem scopedUsage_read (h : eng.Exact) (scope : String) :
    WebStatus.scopedUsage (eng.status health epoch) uid
      (if scope = "" then "foreground" else scope) = eng.scopedUsage uid scope := by
  simp only [WebStatus.scopedUsage, Engine.scopedUsage, usage_read h, fg_read h]
  by_cases hempty : scope = ""
  · subst hempty
    rfl
  · rw [if_neg hempty]
    by_cases hany : scope = "any"
    · subst hany
      rfl
    · simp [hany]

theorem blocked_read :
    WebStatus.blocked (eng.status health epoch) uid = true ↔ uid ∈ eng.blocked := by
  have hmember : memberOf "blocked_uids" (eng.status health epoch) =
      some (.arr (eng.blocked.toList.map u32Value)) := rfl
  simp only [WebStatus.blocked, hmember, List.any_map, List.any_eq_true, Function.comp_apply,
    beq_iff_eq, ExtTreeSet.mem_toList]
  constructor
  · rintro ⟨u, hu, hsame⟩
    have hnat : u.toNat = uid.toNat := Option.some.inj hsame
    exact UInt32.toNat_inj.mp hnat ▸ hu
  · exact fun hu => ⟨uid, hu, rfl⟩

/-- The minutes left are the rest of the time, rounded up. -/
theorem minutesLeft_spec (now deadline : Nat) :
    deadline - now ≤ 60 * WebStatus.minutesLeft now deadline ∧
      60 * WebStatus.minutesLeft now deadline < deadline - now + 60 ∧
      (0 < WebStatus.minutesLeft now deadline ↔ now < deadline) := by
  unfold WebStatus.minutesLeft
  split_ifs with h
  · exact ⟨by omega, by omega, iff_of_true (by omega) h⟩
  · exact ⟨by omega, by omega, iff_of_false (by omega) h⟩

theorem ahead_iff_lt {deadline : Option Nat} {now : Nat} :
    ahead deadline now = true ↔ now < deadline.getD 0 := by
  cases deadline with
  | none => simp [ahead]
  | some t => simp [ahead]

/-- The end of the extension of an entry. -/
def Entry.extensionEnd (uid : Uid) (eng : Engine) : Entry → Nat
  | app _ _ => eng.extensionUntil[uid]?.getD 0
  | group gid _ => eng.groupExtensionUntil[gid]?.getD 0

theorem extended_iff_lt (now : Nat) (entry : Entry) :
    entry.extended now uid eng = true ↔ now < entry.extensionEnd uid eng := by
  cases entry with
  | app key rule => exact ahead_iff_lt
  | group gid rule => exact ahead_iff_lt

/-- **The deadline of the daemon is what the minutes left are counted to.** -/
theorem extensionLeft_read (h : eng.Exact) (now : Nat) (entry : Entry) :
    entry.extensionLeft (eng.status health epoch) now uid =
      WebStatus.minutesLeft now (entry.extensionEnd uid eng) := by
  cases entry with
  | app key rule =>
      have hread : numberIn "extensions" (ofKeyU32 uid) (eng.status health epoch) =
          eng.extensionUntil[uid]?.getD 0 :=
        numberIn_ofMap ofKeyU32_injective uid rfl (h.extension uid)
      rw [Entry.extensionLeft, hread, Entry.extensionEnd]
  | group gid rule =>
      have hread : numberIn "group_extensions" gid (eng.status health epoch) =
          eng.groupExtensionUntil[gid]?.getD 0 :=
        numberIn_ofMap (fun _ _ h => h) gid rfl (h.groupExtension gid)
      rw [Entry.extensionLeft, hread, Entry.extensionEnd]

end Reading

/-! ## Which limit applies -/

section Limits

variable {rules : Rules} {entry : Entry} {key : String}

/-- The limit of a rule of the daemon, as the page has it. -/
def DurationRule.shown (d : DurationRule) : WebDuration :=
  ⟨d.limitMinutes.toNat, some d.freezeMinutes.toNat, d.scope⟩

theorem limit_ofRules (enabled : Bool) (set : RuleSet) :
    (WebRule.ofRules enabled set).limit =
      if enabled = true ∧ 0 < set.duration.limitMinutes then some set.duration.shown else none := by
  have hpos : 0 < set.duration.limitMinutes.toNat ↔ 0 < set.duration.limitMinutes := by
    rw [UInt32.lt_iff_toNat_lt]
    rfl
  cases enabled with
  | false => simp [WebRule.limit, WebRule.ofRules]
  | true =>
      by_cases hlimited : 0 < set.duration.limitMinutes
      · simp [WebRule.limit, WebRule.ofRules, DurationRule.shown, hpos.mpr hlimited, hlimited]
      · simp only [WebRule.limit, WebRule.ofRules, Option.getD_some, if_true, Option.filter_some,
          decide_eq_false (mt hpos.mp hlimited), hlimited, and_false, if_false]
        rfl

/-- Where everything is managed once, a key is found in the group that has it. -/
theorem groupShown_of_mem (h : rules.arrangement.Exclusive) (hnamed : rules.groups[""]? = none)
    {gid : String} {g : GroupRule} (hg : rules.groups[gid]? = some g) (hkey : key ∈ g.members) :
    (WebDoc.ofRules rules).groupShown key = some gid := by
  have hmem : key ∈ rules.arrangement.members gid := by
    simpa [Rules.arrangement, hg] using hkey
  have hne : gid ≠ "" := fun hempty => by
    rw [hempty, hnamed] at hg
    cases hg
  cases hfound : (WebDoc.ofRules rules).findGroupOf key with
  | none =>
      have hfree := ungrouped_of_findGroupOf hfound
      rw [arrangement_ofRules] at hfree
      exact absurd hmem (hfree gid)
  | some other =>
      obtain ⟨w, hw, hother⟩ := mem_of_findGroupOf hfound
      have hmem' : key ∈ (WebDoc.ofRules rules).arrangement.members other := by
        simpa [WebDoc.arrangement, hw] using hother
      rw [arrangement_ofRules] at hmem'
      obtain rfl := h.apart other gid key hmem' hmem
      simp [WebDoc.groupShown, hfound, hne]

/-- **The limit of an app is that of the entry that leads it.** -/
theorem effectiveDuration_of_leads (h : rules.arrangement.Exclusive)
    (hnamed : rules.groups[""]? = none) (hlisted : entry ∈ rules.entries)
    (hleads : entry.Leads rules) (hkey : key ∈ entry.keys) :
    (WebDoc.ofRules rules).effectiveDuration key =
      if entry.enabled = true ∧ 0 < entry.duration.limitMinutes then some entry.duration.shown
      else none := by
  have happ (k : String) : (WebDoc.ofRules rules).apps[k]? =
      rules.apps[k]?.map fun a => WebRule.ofRules a.enabled a.rules := by
    rw [WebDoc.ofRules, ExtTreeMap.getElem?_map]
  cases entry with
  | app own rule =>
      obtain rfl : key = own := List.mem_singleton.mp hkey
      have hungrouped : (WebDoc.ofRules rules).groupShown key = none := by
        cases hfound : (WebDoc.ofRules rules).findGroupOf key with
        | none => simp [WebDoc.groupShown, hfound]
        | some gid =>
            obtain ⟨w, hw, hmem⟩ := mem_of_findGroupOf hfound
            have hmem' : key ∈ (WebDoc.ofRules rules).arrangement.members gid := by
              simpa [WebDoc.arrangement, hw] using hmem
            rw [arrangement_ofRules] at hmem'
            exact absurd hmem' (hleads gid)
      rw [WebDoc.effectiveDuration, happ, mem_entries_app.mp hlisted, hungrouped]
      exact (Option.or_none ..).trans (limit_ofRules rule.enabled rule.rules)
  | group gid g =>
      have hg := mem_entries_group.mp hlisted
      have hmem : key ∈ rules.arrangement.members gid := members_of_group hlisted ▸ hkey
      -- a rule of its own is off
      have hown : (WebDoc.ofRules rules).apps[key]?.bind WebRule.limit = none := by
        rw [happ]
        cases hrule : rules.apps[key]? with
        | none => rfl
        | some rule =>
            have hoff : rule.enabled = false := Bool.eq_false_iff.mpr fun hon =>
              h.alone key ((on_of_app (mem_entries_app.mpr hrule)).trans hon) gid hmem
            simp [limit_ofRules, hoff]
      have hgroup : (WebDoc.ofRules rules).groups[gid]? = some (WebGroup.ofRule g) := by
        rw [WebDoc.ofRules, ExtTreeMap.getElem?_map, hg]
        rfl
      rw [WebDoc.effectiveDuration, hown, groupShown_of_mem h hnamed hg hkey, Option.none_or,
        Option.bind_some, hgroup]
      exact limit_ofRules g.enabled g.rules

end Limits

/-! ## What is shown is true -/

section Shown

variable {eng : Engine} {entry : Entry} {uid : Uid}

def Entry.pooled : Entry → Bool
  | app _ _ => false
  | group _ rule => rule.sharedPool

/-- Without a shared pool the usage of a uid is all that its entry counts. -/
theorem counted_of_not_pooled (h : entry.pooled = false) :
    entry.counted uid eng = eng.scopedUsage uid entry.duration.scope := by
  cases entry with
  | app key rule => rfl
  | group gid rule => exact if_neg (Bool.eq_false_iff.mp h)

/-- The group that `over_duration` is called with. -/
def Entry.toGroup : Entry → Option GroupRule
  | app _ _ => none
  | group _ rule => some rule

/-- Where the seconds fit, the limit is used up for the code when it is for the entry. -/
theorem overDurationU64_entry (hfits : entry.counted uid eng < 2 ^ 64) :
    eng.overDurationU64 entry.duration uid entry.toGroup = entry.overLimit uid eng := by
  cases entry with
  | app key rule =>
      have hfilter : (none : Option GroupRule).filter GroupRule.sharedPool = none := rfl
      exact (overDurationU64_of_unshared hfilter _ uid).trans (overDuration_single hfilter)
  | group gid rule =>
      cases hshared : rule.sharedPool with
      | false =>
          have hfilter : (some rule).filter GroupRule.sharedPool = none := by simp [hshared]
          simp only [Entry.overLimit, Entry.counted, hshared, Bool.false_eq_true, if_false]
          exact (overDurationU64_of_unshared hfilter _ uid).trans (overDuration_single hfilter)
      | true =>
          have hfilter : (some rule).filter GroupRule.sharedPool = some rule := by simp [hshared]
          simp only [Entry.counted, hshared, if_true] at hfits
          simp only [Entry.overLimit, Entry.counted, hshared, if_true]
          exact (overDurationU64_of_fits hfits uid).trans (overDuration_pooled hfilter)

/-- What is shown of an app that an entry leads. -/
structure ShownTrue (now : Nat) (status : Value) (stats : Stats) (eng : Engine) (entry : Entry)
    (uid : Uid) : Prop where
  blocked : WebStatus.blocked status uid = true ↔ uid ∈ eng.blocked
  kills : stats.kills = eng.killCount[uid]?.getD 0
  /-- a limit is shown where one applies, with the usage counted for it -/
  used : stats.usedMinutes =
    if entry.enabled = true ∧ 0 < entry.duration.limitMinutes then
      some ((eng.scopedUsage uid entry.duration.scope + 30) / 60)
    else none
  /-- more than the limit: it is used up -/
  exceeded : ∀ minutes, stats.usedMinutes = some minutes →
    entry.duration.limitMinutes.toNat < minutes →
      eng.overDurationU64 entry.duration uid entry.toGroup = true
  /-- it is used up: the limit is reached, unless others share it -/
  reached : ∀ minutes, stats.usedMinutes = some minutes → entry.pooled = false →
    eng.overDurationU64 entry.duration uid entry.toGroup = true →
      entry.duration.limitMinutes.toNat ≤ minutes
  /-- the minutes of extension are the time until its end, rounded up -/
  extension : entry.extensionEnd uid eng - now ≤ 60 * entry.extensionLeft status now uid ∧
    60 * entry.extensionLeft status now uid < entry.extensionEnd uid eng - now + 60
  /-- and some are left exactly while the daemon takes the extension as active -/
  extended : 0 < entry.extensionLeft status now uid ↔ entry.extended now uid eng = true

end Shown

/-- The group of the game is given a limit of one minute. -/
def limitedGame : List PageEvent :=
  takenIn ++ [.groupCard "g7", .edit (.setRule (.group "g7") (.duration "1")) .done true true]

/-- The game has been played for a minute and a half. -/
def playedEngine (rules : Rules) : Engine :=
  { Engine.blank .start with
    rules := rules
    uidOf := cooledUids
    usageFg := insertAll [(10001, 90)] ∅ }

theorem exact_playedEngine (rules : Rules) : (playedEngine rules).Exact := by
  have hfg (uid : Uid) : (playedEngine rules).fgOf uid < 2 ^ 53 := by
    simp only [playedEngine, Engine.fgOf, insertAll, List.foldl_cons, List.foldl_nil,
      getElem?_insert_eq, ExtTreeMap.getElem?_empty]
    split_ifs <;> decide
  exact ⟨fun uid => by simp [playedEngine, Engine.blank, Engine.usageOf], hfg,
    fun uid => by simp [playedEngine, Engine.blank],
    fun uid => by simp [playedEngine, Engine.blank],
    fun gid => by simp [playedEngine, Engine.blank]⟩

/-- Two minutes are shown. -/
example : (runFrom Page.next limitedGame emptyPage).map (fun p =>
    (p.memory.stats ((playedEngine p.disk).status .null 100) 10001 "0:com.game").usedMinutes) =
      some (some 2) := by
  decide +kernel

end Ningshi
