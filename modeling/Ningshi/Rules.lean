import Mathlib.Data.List.Destutter
import Ningshi.Lib.JsonDoc

/-!
# `rules.rs`: the rule set and its file format

The types of `rules.json`, their derived decoding (`ofJson`) and encoding
(`toJson`), the clean-up `sanitize` that drops invalid weekdays, and
`Rules.load`, which reads a file.  An app rule and a group rule carry a rule
set flattened into their own object, so that all the object holds is kept while it
is read, also what is no field of either.

The file format has a version number.  `Rules.load` does not look at it: only
the apply path compares it with `rulesVersionMax`.
-/

namespace Ningshi

open Std FiniteMap JsonDoc

/-- A map with string keys (`BTreeMap<String, _>`, `HashMap<String, _>`). -/
abbrev KeyMap (β : Type) := ExtTreeMap String β compare

/-- The highest schema version the build understands. -/
def rulesVersionMax : UInt32 := 1

structure Settings where
  timezone : String
  language : String
  clearLogOnBoot : Bool
  deriving DecidableEq

structure TimeWindow where
  start : String
  stop : String
  days : List UInt8
  deriving DecidableEq

structure TimeWindows where
  mode : String
  windows : List TimeWindow
  deriving DecidableEq

structure DurationRule where
  limitMinutes : UInt32
  freezeMinutes : UInt32
  scope : String
  deriving DecidableEq

structure RuleSet where
  alwaysOn : Bool
  lockBlock : Bool
  timeWindows : TimeWindows
  duration : DurationRule
  deriving DecidableEq

structure AppRule where
  enabled : Bool
  rules : RuleSet
  deriving DecidableEq

structure GroupRule where
  name : String
  enabled : Bool
  sharedPool : Bool
  members : List String
  rules : RuleSet
  deriving DecidableEq

structure Rules where
  version : UInt32
  settings : Settings
  apps : KeyMap AppRule
  groups : KeyMap GroupRule
  deriving DecidableEq

/-! ## Defaults

The derived `Default` of `DurationRule` leaves the scope empty, while a
missing `scope` field is read as `foreground`. -/

def Settings.default : Settings := ⟨"UTC", "en", false⟩

def TimeWindows.default : TimeWindows := ⟨"allow", []⟩

def DurationRule.default : DurationRule := ⟨0, 0, ""⟩

def RuleSet.default : RuleSet := ⟨false, false, .default, .default⟩

def Rules.default : Rules := ⟨0, .default, ∅, ∅⟩

instance : Inhabited Rules := ⟨.default⟩

/-! ## Decoding -/

def Settings.ofJson (v : Value) : Option Settings := do
  let ms ← structMembers ["timezone", "language", "clear_log_on_boot"] v
  let timezone ← fieldOr ms "timezone" asStr "UTC"
  let language ← fieldOr ms "language" asStr "en"
  let clearLogOnBoot ← fieldOr ms "clear_log_on_boot" asBool false
  pure ⟨timezone, language, clearLogOnBoot⟩

def TimeWindow.ofJson (v : Value) : Option TimeWindow := do
  let ms ← structMembers ["start", "end", "days"] v
  let start ← fieldOr ms "start" asStr ""
  let stop ← fieldOr ms "end" asStr ""
  let days ← fieldOr ms "days" (asList asU8) []
  pure ⟨start, stop, days⟩

def TimeWindows.ofJson (v : Value) : Option TimeWindows := do
  let ms ← structMembers ["mode", "windows"] v
  let mode ← fieldOr ms "mode" asStr "allow"
  let windows ← fieldOr ms "windows" (asList TimeWindow.ofJson) []
  pure ⟨mode, windows⟩

def DurationRule.ofJson (v : Value) : Option DurationRule := do
  let ms ← structMembers ["limit_minutes", "freeze_minutes", "scope"] v
  let limitMinutes ← fieldOr ms "limit_minutes" asU32 0
  let freezeMinutes ← fieldOr ms "freeze_minutes" asU32 0
  let scope ← fieldOr ms "scope" asStr "foreground"
  pure ⟨limitMinutes, freezeMinutes, scope⟩

/-- A flattened rule set: its fields stand among the members of its owner. -/
def RuleSet.ofMembers (ms : List (String × Value)) : Option RuleSet := do
  let alwaysOn ← fieldOr ms "always_on" asBool false
  let lockBlock ← fieldOr ms "lock_block" asBool false
  let timeWindows ← fieldOr ms "time_windows" TimeWindows.ofJson .default
  let duration ← fieldOr ms "duration" DurationRule.ofJson .default
  pure ⟨alwaysOn, lockBlock, timeWindows, duration⟩

/-- The fields of an app rule that are not flattened. -/
def AppRule.own : List String := ["enabled"]

def GroupRule.own : List String := ["name", "enabled", "shared_pool", "members"]

/-- The document, the map and the rule. -/
def ruleLevel : Nat := 3

def AppRule.ofMembers (ms : List (String × Value)) : Option AppRule := do
  let enabled ← fieldOr ms "enabled" asBool false
  let rules ← RuleSet.ofMembers ms
  pure ⟨enabled, rules⟩

def AppRule.ofJson : Value → Option AppRule := flattened AppRule.own ruleLevel AppRule.ofMembers

def GroupRule.ofMembers (ms : List (String × Value)) : Option GroupRule := do
  let name ← fieldOr ms "name" asStr ""
  let enabled ← fieldOr ms "enabled" asBool false
  let sharedPool ← fieldOr ms "shared_pool" asBool false
  let members ← fieldOr ms "members" (asList asStr) []
  let rules ← RuleSet.ofMembers ms
  pure ⟨name, enabled, sharedPool, members, rules⟩

def GroupRule.ofJson : Value → Option GroupRule :=
  flattened GroupRule.own ruleLevel GroupRule.ofMembers

def Rules.ofJson (v : Value) : Option Rules := do
  let ms ← structMembers ["version", "settings", "apps", "groups"] v
  let version ← fieldOr ms "version" asU32 0
  let settings ← fieldOr ms "settings" Settings.ofJson .default
  let apps ← fieldOr ms "apps" (asMap some AppRule.ofJson) ∅
  let groups ← fieldOr ms "groups" (asMap some GroupRule.ofJson) ∅
  pure ⟨version, settings, apps, groups⟩

/-! ## Encoding -/

def Settings.toJson (s : Settings) : Value :=
  .obj [("timezone", .str s.timezone), ("language", .str s.language),
    ("clear_log_on_boot", .bool s.clearLogOnBoot)]

def TimeWindow.toJson (w : TimeWindow) : Value :=
  .obj [("start", .str w.start), ("end", .str w.stop),
    ("days", .arr (w.days.map fun d => .num d.toNat))]

def TimeWindows.toJson (t : TimeWindows) : Value :=
  .obj [("mode", .str t.mode), ("windows", .arr (t.windows.map TimeWindow.toJson))]

def DurationRule.toJson (d : DurationRule) : Value :=
  .obj [("limit_minutes", .num d.limitMinutes.toNat),
    ("freeze_minutes", .num d.freezeMinutes.toNat), ("scope", .str d.scope)]

def RuleSet.toMembers (r : RuleSet) : List (String × Value) :=
  [("always_on", .bool r.alwaysOn), ("lock_block", .bool r.lockBlock),
    ("time_windows", r.timeWindows.toJson), ("duration", r.duration.toJson)]

def AppRule.toJson (a : AppRule) : Value :=
  .obj (("enabled", .bool a.enabled) :: a.rules.toMembers)

def GroupRule.toJson (g : GroupRule) : Value :=
  .obj ([("name", .str g.name), ("enabled", .bool g.enabled),
    ("shared_pool", .bool g.sharedPool), ("members", .arr (g.members.map Value.str))] ++
    g.rules.toMembers)

def Rules.toJson (r : Rules) : Value :=
  .obj [("version", .num r.version.toNat), ("settings", r.settings.toJson),
    ("apps", ofMap id AppRule.toJson r.apps), ("groups", ofMap id GroupRule.toJson r.groups)]

/-! ## Sanitizing and loading -/

/-- `days.retain(1..=7)`, `sort_unstable`, `dedup`. -/
def sanitizeDays (days : List UInt8) : List UInt8 :=
  ((days.filter fun d => 1 ≤ d && d ≤ 7).insertionSort (· ≤ ·)).destutter (· ≠ ·)

def TimeWindow.sanitize (w : TimeWindow) : TimeWindow :=
  { w with days := sanitizeDays w.days }

def RuleSet.sanitize (r : RuleSet) : RuleSet :=
  { r with timeWindows :=
      { r.timeWindows with windows := r.timeWindows.windows.map TimeWindow.sanitize } }

/-- Drop the weekdays that can never match, in every rule set. -/
def Rules.sanitize (r : Rules) : Rules :=
  { r with
    apps := r.apps.map fun _ a => { a with rules := a.rules.sanitize }
    groups := r.groups.map fun _ g => { g with rules := g.rules.sanitize } }

/-- Parse a rules file. -/
def Rules.fromStr (text : Text) : Option Rules := text.decode Rules.ofJson

/-- `Rules::load`: read, parse and sanitize; `none` when the file cannot be
read or parsed.  The version is not checked here. -/
def Rules.load (content : Option Text) : Option Rules :=
  (content.bind Rules.fromStr).map Rules.sanitize

@[simp] theorem Rules.load_none : Rules.load none = none := rfl

@[simp] theorem sanitize_version (r : Rules) : r.sanitize.version = r.version := rfl

/-! ## Sanitizing again -/

/-- Cleaned weekdays are clean already. -/
theorem sanitizeDays_idem (days : List UInt8) :
    sanitizeDays (sanitizeDays days) = sanitizeDays days := by
  unfold sanitizeDays
  generalize hvalid : (days.filter fun d => 1 ≤ d && d ≤ 7) = valid
  have hsub : ((valid.insertionSort (· ≤ ·)).destutter (· ≠ ·)).Sublist
      (valid.insertionSort (· ≤ ·)) := List.destutter_sublist _ _
  have hkeep : (((valid.insertionSort (· ≤ ·)).destutter (· ≠ ·)).filter
      fun d => 1 ≤ d && d ≤ 7) = (valid.insertionSort (· ≤ ·)).destutter (· ≠ ·) := by
    refine List.filter_eq_self.mpr fun d hd => ?_
    have hmem : d ∈ valid := (List.mem_insertionSort _).mp (hsub.subset hd)
    rw [← hvalid] at hmem
    exact (List.mem_filter.mp hmem).2
  have hsorted : ((valid.insertionSort (· ≤ ·)).destutter (· ≠ ·)).Pairwise (· ≤ ·) :=
    (List.pairwise_insertionSort _ valid).sublist hsub
  rw [hkeep, hsorted.insertionSort_eq, List.destutter_idem]

theorem RuleSet.sanitize_idem (r : RuleSet) : r.sanitize.sanitize = r.sanitize := by
  have hwindow (w : TimeWindow) : w.sanitize.sanitize = w.sanitize := by
    simp only [TimeWindow.sanitize, sanitizeDays_idem]
  simp only [RuleSet.sanitize, List.map_map, Function.comp_def, hwindow]

/-- **Sanitized rules stay as they are.** -/
theorem Rules.sanitize_idem (r : Rules) : r.sanitize.sanitize = r.sanitize := by
  have hmap {β : Type} {f : β → β} (hf : ∀ v, f (f v) = f v) (m : KeyMap β) :
      (m.map fun _ v => f v).map (fun _ v => f v) = m.map fun _ v => f v := by
    refine ExtTreeMap.ext_getElem? fun k => ?_
    simp only [ExtTreeMap.getElem?_map, Option.map_map, Function.comp_def, hf]
  have happs := hmap (f := fun a : AppRule => { a with rules := a.rules.sanitize })
    (fun a => by simp only [RuleSet.sanitize_idem]) r.apps
  have hgroups := hmap (f := fun g : GroupRule => { g with rules := g.rules.sanitize })
    (fun g => by simp only [RuleSet.sanitize_idem]) r.groups
  simp only [Rules.sanitize, happs, hgroups]

/-! ## The encoding is read back -/

theorem Settings.ofJson_toJson (s : Settings) : Settings.ofJson s.toJson = some s := rfl

theorem TimeWindow.ofJson_toJson (w : TimeWindow) : TimeWindow.ofJson w.toJson = some w := by
  have hdays : asList asU8 (.arr (w.days.map fun d => Value.num d.toNat)) = some w.days :=
    asList_map asU8_toNat w.days
  simp [TimeWindow.ofJson, TimeWindow.toJson, structMembers, fieldOr, hdays]

theorem TimeWindows.ofJson_toJson (t : TimeWindows) :
    TimeWindows.ofJson t.toJson = some t := by
  have hwindows := asList_map TimeWindow.ofJson_toJson t.windows
  simp [TimeWindows.ofJson, TimeWindows.toJson, structMembers, fieldOr, hwindows]

theorem DurationRule.ofJson_toJson (d : DurationRule) :
    DurationRule.ofJson d.toJson = some d := by
  simp [DurationRule.ofJson, DurationRule.toJson, structMembers, fieldOr]

/-- The members of a rule set are found behind any others of its owner. -/
theorem RuleSet.ofMembers_toMembers {owner : List (String × Value)} (r : RuleSet)
    (howner : ∀ m ∈ owner, m.1 ∉ ["always_on", "lock_block", "time_windows", "duration"]) :
    RuleSet.ofMembers (owner ++ r.toMembers) = some r := by
  have hskip (name : String)
      (hname : name ∈ ["always_on", "lock_block", "time_windows", "duration"]) :
      owner.filter (fun m => m.1 == name) = [] := by
    refine List.filter_eq_nil_iff.mpr fun m hm => ?_
    rw [beq_iff_eq]
    rintro rfl
    exact howner m hm hname
  have h₁ := hskip "always_on" (by simp)
  have h₂ := hskip "lock_block" (by simp)
  have h₃ := hskip "time_windows" (by simp)
  have h₄ := hskip "duration" (by simp)
  simp [RuleSet.ofMembers, RuleSet.toMembers, fieldOr, List.filter_append, h₁, h₂, h₃, h₄,
    TimeWindows.ofJson_toJson, DurationRule.ofJson_toJson]

/-- What a rule set is written as can be kept. -/
theorem keptBeside_toMembers {own : List String} {members : List (String × Value)}
    (hown : ∀ m ∈ members, m.1 ∈ own) (r : RuleSet) :
    (Value.obj (members ++ r.toMembers)).keptBeside own ruleLevel = true := by
  have hset : ∀ m ∈ r.toMembers, m.2.kept 124 = true := by
    simp [RuleSet.toMembers, TimeWindows.toJson, TimeWindow.toJson, DurationRule.toJson]
  refine List.all_eq_true.mpr fun m hm => ?_
  rcases List.mem_append.mp hm with hm | hm
  · rw [List.contains_iff_mem.mpr (hown m hm), Bool.true_or]
  · rw [show levels - ruleLevel = 124 from rfl, hset m hm, Bool.or_true]

theorem AppRule.ofJson_toJson (a : AppRule) : AppRule.ofJson a.toJson = some a := by
  have hrules : RuleSet.ofMembers ([("enabled", .bool a.enabled)] ++ a.rules.toMembers) =
      some a.rules := RuleSet.ofMembers_toMembers a.rules (by simp)
  rw [List.singleton_append] at hrules
  have henabled : fieldOr (("enabled", .bool a.enabled) :: a.rules.toMembers) "enabled"
      asBool false = some a.enabled := by
    simp [fieldOr, RuleSet.toMembers]
  have hkept : (Value.obj ([("enabled", .bool a.enabled)] ++ a.rules.toMembers)).keptBeside
      AppRule.own ruleLevel = true := keptBeside_toMembers (by simp [AppRule.own]) a.rules
  rw [List.singleton_append] at hkept
  simp [AppRule.ofJson, AppRule.ofMembers, AppRule.toJson, flattened, hkept, henabled, hrules]

theorem GroupRule.ofJson_toJson (g : GroupRule) : GroupRule.ofJson g.toJson = some g := by
  have hrules : RuleSet.ofMembers ([("name", .str g.name), ("enabled", .bool g.enabled),
      ("shared_pool", .bool g.sharedPool), ("members", .arr (g.members.map Value.str))] ++
      g.rules.toMembers) = some g.rules := RuleSet.ofMembers_toMembers g.rules (by simp)
  have hmembers : asList asStr (.arr (g.members.map Value.str)) = some g.members :=
    asList_map asStr_str g.members
  rw [GroupRule.toJson, GroupRule.ofJson, flattened,
    if_pos (keptBeside_toMembers (by simp [GroupRule.own]) g.rules), GroupRule.ofMembers, hrules]
  simp [fieldOr, RuleSet.toMembers, hmembers]

/-- **Rules survive being written and parsed.** -/
theorem Rules.ofJson_toJson (r : Rules) : Rules.ofJson r.toJson = some r := by
  have happs : asMap some AppRule.ofJson (ofMap id AppRule.toJson r.apps) = some r.apps :=
    asMap_ofMap (fun _ => rfl) AppRule.ofJson_toJson r.apps
  have hgroups : asMap some GroupRule.ofJson (ofMap id GroupRule.toJson r.groups) =
      some r.groups :=
    asMap_ofMap (fun _ => rfl) GroupRule.ofJson_toJson r.groups
  simp [Rules.ofJson, Rules.toJson, structMembers, fieldOr, happs, hgroups,
    Settings.ofJson_toJson]

/-- What is written in sanitized form is loaded as it is. -/
theorem Rules.load_written (r : Rules) :
    Rules.load (some (.json r.sanitize.toJson)) = some r.sanitize := by
  rw [Rules.load, Option.bind_some, Rules.fromStr, Text.decode_json, Rules.ofJson_toJson,
    Option.map_some, Rules.sanitize_idem]

end Ningshi
