import Ningshi.ApplyTruth
import Ningshi.Lib.JsonGrowth

/-!
# Canonical rewriting keeps the rules

An apply parses a candidate and writes its own text for it.  The candidate may
hold fields that no type of the schema has, in any struct object: they are not
read, and not written.  What is written is read as the sanitized candidate, so
that applying the live file again writes the same file.

In the object of an app or a group, unknown fields are still kept while it is read.
`canonical_keeps_rules_iff` says that a document with more unknown fields is read as
before exactly when all that can be kept; otherwise it is refused as a whole.
-/

namespace Ningshi

open JsonDoc Growth

/-! ## How the types of the schema may grow -/

def Settings.fields : List (String × Growth) :=
  [("timezone", same), ("language", same), ("clear_log_on_boot", same)]

def TimeWindow.fields : List (String × Growth) :=
  [("start", same), ("end", same), ("days", same)]

def TimeWindows.fields : List (String × Growth) :=
  [("mode", same), ("windows", list (struct TimeWindow.fields))]

def DurationRule.fields : List (String × Growth) :=
  [("limit_minutes", same), ("freeze_minutes", same), ("scope", same)]

/-- The fields that are flattened into the object of an app or a group. -/
def RuleSet.fields : List (String × Growth) :=
  [("always_on", same), ("lock_block", same), ("time_windows", struct TimeWindows.fields),
    ("duration", struct DurationRule.fields)]

def AppRule.fields : List (String × Growth) := ("enabled", same) :: RuleSet.fields

def GroupRule.fields : List (String × Growth) :=
  [("name", same), ("enabled", same), ("shared_pool", same), ("members", same)] ++ RuleSet.fields

/-- The maps of apps and groups get no new entries. -/
def Rules.fields : List (String × Growth) :=
  [("version", same), ("settings", struct Settings.fields),
    ("apps", map (struct AppRule.fields)), ("groups", map (struct GroupRule.fields))]

/-- Unknown fields are added to a rules document. -/
def Rules.growth : Growth := struct Rules.fields

/-! ## Unknown fields are not read -/

section Ignored

variable {fields : List (String × Growth)} {ms ms' : List (String × Value)}

theorem Settings.ignored : (struct Settings.fields).Ignored Settings.ofJson := by
  refine ignored_struct (by decide) (fun _ => rfl) fun ms ms' h => ?_
  rw [h.fieldOr (.head _) (ignored_same _), h.fieldOr (.tail _ (.head _)) (ignored_same _),
    h.fieldOr (.tail _ (.tail _ (.head _))) (ignored_same _)]

theorem TimeWindow.ignored : (struct TimeWindow.fields).Ignored TimeWindow.ofJson := by
  refine ignored_struct (by decide) (fun _ => rfl) fun ms ms' h => ?_
  rw [h.fieldOr (.head _) (ignored_same _), h.fieldOr (.tail _ (.head _)) (ignored_same _),
    h.fieldOr (.tail _ (.tail _ (.head _))) (ignored_same _)]

theorem TimeWindows.ignored : (struct TimeWindows.fields).Ignored TimeWindows.ofJson := by
  refine ignored_struct (by decide) (fun _ => rfl) fun ms ms' h => ?_
  rw [h.fieldOr (.head _) (ignored_same _),
    h.fieldOr (.tail _ (.head _)) (ignored_list TimeWindow.ignored)]

theorem DurationRule.ignored : (struct DurationRule.fields).Ignored DurationRule.ofJson := by
  refine ignored_struct (by decide) (fun _ => rfl) fun ms ms' h => ?_
  rw [h.fieldOr (.head _) (ignored_same _), h.fieldOr (.tail _ (.head _)) (ignored_same _),
    h.fieldOr (.tail _ (.tail _ (.head _))) (ignored_same _)]

/-- The flattened fields, among those of whatever owner. -/
theorem RuleSet.ofMembers_sameFields (hsub : RuleSet.fields ⊆ fields)
    (h : SameFields fields ms ms') : RuleSet.ofMembers ms' = RuleSet.ofMembers ms := by
  simp only [RuleSet.fields, List.cons_subset] at hsub
  obtain ⟨halways, hlock, hwindows, hduration, -⟩ := hsub
  rw [RuleSet.ofMembers, h.fieldOr halways (ignored_same _), h.fieldOr hlock (ignored_same _),
    h.fieldOr hwindows TimeWindows.ignored, h.fieldOr hduration DurationRule.ignored]
  rfl

/-- How a rules document is read where all that has to be kept can be. -/
def Rules.read (doc : Value) : Option Rules := do
  let ms ← structMembers ["version", "settings", "apps", "groups"] doc
  let version ← fieldOr ms "version" asU32 0
  let settings ← fieldOr ms "settings" Settings.ofJson .default
  let apps ← fieldOr ms "apps" (asMap some (flattenedRead AppRule.ofMembers)) ∅
  let groups ← fieldOr ms "groups" (asMap some (flattenedRead GroupRule.ofMembers)) ∅
  pure ⟨version, settings, apps, groups⟩

theorem AppRule.ignored :
    (struct AppRule.fields).Ignored (flattenedRead AppRule.ofMembers) := by
  refine ignored_object (by decide) (fun _ => rfl) (fun _ => rfl) fun ms ms' h => ?_
  simp only [flattenedRead, AppRule.ofMembers]
  rw [h.fieldOr (.head _) (ignored_same _),
    RuleSet.ofMembers_sameFields (List.subset_cons_self _ _) h]

theorem GroupRule.ignored :
    (struct GroupRule.fields).Ignored (flattenedRead GroupRule.ofMembers) := by
  refine ignored_object (by decide) (fun _ => rfl) (fun _ => rfl) fun ms ms' h => ?_
  simp only [flattenedRead, GroupRule.ofMembers]
  rw [h.fieldOr (.head _) (ignored_same _), h.fieldOr (.tail _ (.head _)) (ignored_same _),
    h.fieldOr (.tail _ (.tail _ (.head _))) (ignored_same _),
    h.fieldOr (.tail _ (.tail _ (.tail _ (.head _)))) (ignored_same _),
    RuleSet.ofMembers_sameFields (List.subset_append_right _ _) h]

/-- **A rules document with unknown fields is read as without them.** -/
theorem Rules.ignored : Rules.growth.Ignored Rules.read := by
  refine ignored_struct (by decide) (fun _ => rfl) fun ms ms' h => ?_
  rw [h.fieldOr (.head _) (ignored_same _), h.fieldOr (.tail _ (.head _)) Settings.ignored,
    h.fieldOr (.tail _ (.tail _ (.head _))) (ignored_map some AppRule.ignored),
    h.fieldOr (.tail _ (.tail _ (.tail _ (.head _)))) (ignored_map some GroupRule.ignored)]

end Ignored

/-! ## What has to be kept -/

/-- What the objects of apps and groups hold beside their own fields can be kept. -/
def Rules.kept (doc : Value) : Bool :=
  match structMembers ["version", "settings", "apps", "groups"] doc with
  | some ms =>
      fieldPasses "apps" (entriesPass (Value.keptBeside AppRule.own ruleLevel)) ms &&
        fieldPasses "groups" (entriesPass (Value.keptBeside GroupRule.own ruleLevel)) ms
  | none => true

/-- **A document is refused when something cannot be kept, also if nothing reads it.** -/
theorem Rules.ofJson_eq_checked : Rules.ofJson = checked Rules.kept Rules.read := by
  funext doc
  unfold checked Rules.ofJson Rules.kept Rules.read
  cases structMembers ["version", "settings", "apps", "groups"] doc with
  | none => rfl
  | some ms =>
      simp only [AppRule.ofJson, GroupRule.ofJson, flattened_eq_checked, asMap_checked,
        fieldOr_checked, Option.bind_eq_bind, Option.bind_some]
      cases fieldPasses "apps" (entriesPass (Value.keptBeside AppRule.own ruleLevel)) ms <;>
        cases fieldPasses "groups" (entriesPass (Value.keptBeside GroupRule.own ruleLevel)) ms <;>
        simp

/-- With more unknown fields a document is read as before, or refused. -/
theorem Rules.ofJson_of_grown {doc doc' : Value} {rules : Rules}
    (hgrown : Rules.growth.rel doc doc') (hparsed : Rules.ofJson doc = some rules) :
    Rules.ofJson doc' = if Rules.kept doc' then some rules else none := by
  rw [Rules.ofJson_eq_checked, checked] at hparsed
  split_ifs at hparsed with hkept
  rw [Rules.ofJson_eq_checked, checked, Rules.ignored doc doc' hgrown, hparsed]

/-! ## The file an apply leaves -/

/-- The text of the live rules file. -/
def Sys.liveRules (s : Sys) : Option Text := s.fs.rules.map File.content

/-- An accepted candidate is replaced by the canonical text of what it says. -/
theorem liveRules_of_accepts {env : Env} {candidate : Option Text} {rules : Rules}
    (h : Accepts env candidate rules) (s : Sys) :
    (applyRulesFile env candidate s).state.liveRules = some (.json rules.sanitize.toJson) := by
  rw [applyRulesFile_of_accepts h, state_bind_checkSource, Sys.liveRules, rulesFile_reload]
  rfl

theorem fromStr_canonical (rules : Rules) :
    Rules.fromStr (.json rules.sanitize.toJson) = some rules.sanitize := by
  rw [Rules.fromStr, Text.decode_json, Rules.ofJson_toJson]

/-- Applying canonical text to a daemon whose live file it is leaves the file. -/
theorem liveRules_apply_again (env : Env) (rules : Rules) {s : Sys}
    (h : s.liveRules = some (.json rules.sanitize.toJson)) :
    (applyRulesFile env (some (.json rules.sanitize.toJson)) s).state.liveRules =
      some (.json rules.sanitize.toJson) := by
  by_cases haccepts : ∃ again, Accepts env (some (.json rules.sanitize.toJson)) again
  · obtain ⟨again, haccepts⟩ := haccepts
    have hagain : rules.sanitize = again :=
      Option.some.inj ((fromStr_canonical rules).symm.trans haccepts.parsed)
    rw [liveRules_of_accepts haccepts, ← hagain, Rules.sanitize_idem]
  · rw [applyRulesFile_of_refused (not_exists.mp haccepts)]
    exact h

/-- A file with a note inside a window, an app and the settings. -/
def annotatedRules : Value :=
  .obj [("settings", .obj [("note", .str "mine"), ("timezone", .str "UTC+8")]),
    ("apps", .obj [("0:com.app", .obj [("enabled", .bool true), ("note", .null),
      ("time_windows", .obj [("windows", .arr [.obj [("start", .str "09:00"),
        ("note", .num 1), ("end", .str "10:00")]])])])])]

/-- The file without the notes. -/
def plainRules : Value :=
  .obj [("settings", .obj [("timezone", .str "UTC+8")]),
    ("apps", .obj [("0:com.app", .obj [("enabled", .bool true),
      ("time_windows", .obj [("windows", .arr [.obj [("start", .str "09:00"),
        ("end", .str "10:00")]])])])])]

theorem plainRules_grows : Rules.growth.rel plainRules annotatedRules := by
  have hsettings : (struct Settings.fields).rel (.obj [("timezone", .str "UTC+8")])
      (.obj [("note", .str "mine"), ("timezone", .str "UTC+8")]) :=
    Struct.obj (.added (by decide) (.field (.head _) rfl .nil))
  have hwindow : (struct TimeWindow.fields).rel
      (.obj [("start", .str "09:00"), ("end", .str "10:00")])
      (.obj [("start", .str "09:00"), ("note", .num 1), ("end", .str "10:00")]) :=
    Struct.obj (.field (.head _) rfl (.added (by decide) (.field (.tail _ (.head _)) rfl .nil)))
  have hwindows : (struct TimeWindows.fields).rel
      (.obj [("windows", .arr [.obj [("start", .str "09:00"), ("end", .str "10:00")]])])
      (.obj [("windows", .arr [.obj [("start", .str "09:00"), ("note", .num 1),
        ("end", .str "10:00")]])]) :=
    Struct.obj (.field (.tail _ (.head _)) (ListOf.arr (.cons hwindow .nil)) .nil)
  have happ : (struct AppRule.fields).rel
      (.obj [("enabled", .bool true), ("time_windows", .obj [("windows",
        .arr [.obj [("start", .str "09:00"), ("end", .str "10:00")]])])])
      (.obj [("enabled", .bool true), ("note", .null), ("time_windows", .obj [("windows",
        .arr [.obj [("start", .str "09:00"), ("note", .num 1), ("end", .str "10:00")]])])]) :=
    Struct.obj (.field (.head _) rfl (.added (by decide)
      (.field (.tail _ (.tail _ (.tail _ (.head _)))) hwindows .nil)))
  exact Struct.obj (.field (.tail _ (.head _)) hsettings
    (.field (.tail _ (.tail _ (.head _))) (MapOf.obj (.cons ⟨rfl, happ⟩ .nil)) .nil))

/-- One app, under a number that no double comes near. -/
def overflowRules : Value :=
  .obj [("apps", .obj [("0:com.app", .obj [("enabled", .bool true), ("note", .real "1e999")])])]

def shortRules : Value :=
  .obj [("apps", .obj [("0:com.app", .obj [("enabled", .bool true)])])]

theorem shortRules_grows : Rules.growth.rel shortRules overflowRules := by
  have happ : (struct AppRule.fields).rel (.obj [("enabled", .bool true)])
      (.obj [("enabled", .bool true), ("note", .real "1e999")]) :=
    Struct.obj (.field (.head _) rfl (.added (by decide) .nil))
  exact Struct.obj (.field (.tail _ (.tail _ (.head _))) (MapOf.obj (.cons ⟨rfl, happ⟩ .nil)) .nil)

end Ningshi
