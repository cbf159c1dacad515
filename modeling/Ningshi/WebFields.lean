import Ningshi.WebContract

/-!
# The fields of a rules document

What an edit of the WebUI changes is a field of an app rule, of a group or of the
settings.  A field that has never been assigned has the value the daemon gives it;
an app without a rule has no fields, nor has a group that does not exist.

Weekdays count as the daemon keeps them, so that a document has the same fields
as the rules it is read as (`fields_eq_of_readAs`), and as what these are written
back as.
-/

namespace Ningshi

open Std FiniteMap JsonDoc

inductive RuleField where
  | enabled
  | alwaysOn
  | lockBlock
  | windowMode
  | windows
  | limitMinutes
  | freezeMinutes
  | scope

inductive GroupField where
  | name
  | sharedPool
  /-- is this app a member? -/
  | member (key : String)
  | rule (field : RuleField)

inductive DocField where
  | app (key : String) (field : RuleField)
  | group (gid : String) (field : GroupField)
  | timezone
  | language
  | clearLogOnBoot

/-! ## In the WebUI -/

/-- The windows of a rule, with the weekdays as the daemon keeps them. -/
def TimeWindows.listed (tw : TimeWindows) : Value :=
  .arr (tw.windows.map fun w => w.sanitize.toJson)

def WebRule.field (rule : WebRule) : RuleField → Value
  | .enabled => .bool (rule.enabled.getD false)
  | .alwaysOn => .bool (rule.alwaysOn.getD false)
  | .lockBlock => .bool (rule.lockBlock.getD false)
  | .windowMode => .str rule.windowsOf.mode
  | .windows => rule.windowsOf.listed
  | .limitMinutes => .num (rule.duration.elim 0 WebDuration.limitMinutes : Nat)
  | .freezeMinutes => .num (rule.duration.elim 0 fun d => d.freezeMinutes.getD 0 : Nat)
  -- a rule without a duration has the empty scope in the daemon
  | .scope => .str (rule.duration.elim "" WebDuration.scope)

def WebGroup.field (g : WebGroup) : GroupField → Value
  | .name => .str g.name
  | .sharedPool => .bool g.sharedPool
  | .member key => .bool (key ∈ g.members)
  | .rule field => g.rule.field field

def WebDoc.field (doc : WebDoc) : DocField → Option Value
  | .app key field => doc.apps[key]?.map fun rule => rule.field field
  | .group gid field => doc.groups[gid]?.map fun g => g.field field
  | .timezone => some (.str (doc.settings.timezone.getD "UTC"))
  | .language => some (.str (doc.settings.language.getD "en"))
  | .clearLogOnBoot => some (.bool (doc.settings.clearLogOnBoot.getD false))

/-! ## In the daemon -/

def RuleSet.field (enabled : Bool) (set : RuleSet) : RuleField → Value
  | .enabled => .bool enabled
  | .alwaysOn => .bool set.alwaysOn
  | .lockBlock => .bool set.lockBlock
  | .windowMode => .str set.timeWindows.mode
  | .windows => set.timeWindows.listed
  | .limitMinutes => .num set.duration.limitMinutes.toNat
  | .freezeMinutes => .num set.duration.freezeMinutes.toNat
  | .scope => .str set.duration.scope

def GroupRule.field (g : GroupRule) : GroupField → Value
  | .name => .str g.name
  | .sharedPool => .bool g.sharedPool
  | .member key => .bool (key ∈ g.members)
  | .rule field => g.rules.field g.enabled field

def Rules.field (rules : Rules) : DocField → Option Value
  | .app key field => rules.apps[key]?.map fun a => a.rules.field a.enabled field
  | .group gid field => rules.groups[gid]?.map fun g => g.field field
  | .timezone => some (.str rules.settings.timezone)
  | .language => some (.str rules.settings.language)
  | .clearLogOnBoot => some (.bool rules.settings.clearLogOnBoot)

/-! ## They are the same -/

theorem field_rule {rule : WebRule} {enabled : Bool} {set : RuleSet}
    (h : rule.ReadAs enabled set) (field : RuleField) :
    set.field enabled field = rule.field field := by
  have hduration : set.duration.limitMinutes.toNat =
        rule.duration.elim 0 WebDuration.limitMinutes ∧
      set.duration.freezeMinutes.toNat =
        rule.duration.elim 0 (fun d => d.freezeMinutes.getD 0) ∧
      set.duration.scope = rule.duration.elim "" WebDuration.scope := by
    have hread := h.duration
    cases hd : rule.duration with
    | none =>
        rw [hd] at hread
        rw [show set.duration = .default from hread]
        exact ⟨rfl, rfl, rfl⟩
    | some d =>
        rw [hd] at hread
        have hread : d.ReadAs set.duration := hread
        exact ⟨hread.limitMinutes, hread.freezeMinutes, hread.scope⟩
  cases field with
  | enabled => rw [RuleSet.field, WebRule.field, h.enabled]
  | alwaysOn => rw [RuleSet.field, WebRule.field, h.alwaysOn]
  | lockBlock => rw [RuleSet.field, WebRule.field, h.lockBlock]
  | windowMode => rw [RuleSet.field, WebRule.field, h.timeWindows]
  | windows => rw [RuleSet.field, WebRule.field, h.timeWindows]
  | limitMinutes => rw [RuleSet.field, WebRule.field, hduration.1]
  | freezeMinutes => rw [RuleSet.field, WebRule.field, hduration.2.1]
  | scope => rw [RuleSet.field, WebRule.field, hduration.2.2]

theorem field_group {w : WebGroup} {g : GroupRule} (h : w.ReadAs g) (field : GroupField) :
    g.field field = w.field field := by
  cases field with
  | name => rw [GroupRule.field, WebGroup.field, h.name]
  | sharedPool => rw [GroupRule.field, WebGroup.field, h.sharedPool]
  | member key => rw [GroupRule.field, WebGroup.field, h.members]
  | rule field => exact field_rule h.rule field

/-- The values of related entries. -/
theorem map_eq_of_rel {α β γ : Type} {rel : α → β → Prop} {o : Option α} {o' : Option β}
    {f : α → γ} {f' : β → γ} (h : Option.Rel rel o o') (hf : ∀ a b, rel a b → f' b = f a) :
    o'.map f' = o.map f := by
  cases h with
  | none => rfl
  | some hrel => rw [Option.map_some, Option.map_some, hf _ _ hrel]

/-- **A document has the fields of the rules it is read as.** -/
theorem fields_eq_of_readAs {doc : WebDoc} {rules : Rules} (h : doc.ReadAs rules) :
    rules.field = doc.field := by
  funext field
  cases field with
  | app key field => exact map_eq_of_rel (h.apps key) fun _ _ hread => field_rule hread field
  | group gid field => exact map_eq_of_rel (h.groups gid) fun _ _ hread => field_group hread field
  | timezone => rw [Rules.field, WebDoc.field, h.settings, WebSettings.filled]
  | language => rw [Rules.field, WebDoc.field, h.settings, WebSettings.filled]
  | clearLogOnBoot => rw [Rules.field, WebDoc.field, h.settings, WebSettings.filled]

theorem TimeWindow.sanitize_idem (w : TimeWindow) : w.sanitize.sanitize = w.sanitize := by
  simp only [TimeWindow.sanitize, sanitizeDays_idem]

/-- The clean-up of a rule set changes no field. -/
theorem field_sanitize_rule (enabled : Bool) (set : RuleSet) (field : RuleField) :
    set.sanitize.field enabled field = set.field enabled field := by
  cases field with
  | windows =>
      simp only [RuleSet.field, RuleSet.sanitize, TimeWindows.listed, List.map_map,
        Function.comp_def, TimeWindow.sanitize_idem]
  | enabled => rfl
  | alwaysOn => rfl
  | lockBlock => rfl
  | windowMode => rfl
  | limitMinutes => rfl
  | freezeMinutes => rfl
  | scope => rfl

theorem fields_sanitize (rules : Rules) : rules.sanitize.field = rules.field := by
  funext field
  cases field with
  | app key field =>
      simp only [Rules.field, Rules.sanitize, ExtTreeMap.getElem?_map, Option.map_map,
        Function.comp_def, field_sanitize_rule]
  | group gid field =>
      have hgroup (g : GroupRule) :
          GroupRule.field { g with rules := g.rules.sanitize } field = g.field field := by
        cases field with
        | rule field => exact field_sanitize_rule g.enabled g.rules field
        | name => rfl
        | sharedPool => rfl
        | member key => rfl
      simp only [Rules.field, Rules.sanitize, ExtTreeMap.getElem?_map, Option.map_map,
        Function.comp_def, hgroup]
  | timezone => rfl
  | language => rfl
  | clearLogOnBoot => rfl

end Ningshi
