import Ningshi.Rules

/-!
# `app.js`: the rules document of the WebUI and its edits

The WebUI keeps the rules as a plain object, and every handler assigns members
of it; what has not been assigned is missing.  `WebDoc` is that object with the
members the handlers ever assign, and `WebOp` are the edits.  An edit may end
without a save (`WebOp.run`).

The weekdays of a window are sorted and distinct in every document the handlers
can produce (`clean_perform`), so the clean-up of the daemon leaves them alone.
-/

namespace Ningshi

open Std FiniteMap

/-! ## The document -/

/-- `rules.settings` -/
structure WebSettings where
  timezone : Option String
  language : Option String
  clearLogOnBoot : Option Bool
  deriving DecidableEq

/-- The minutes are plain numbers here; the daemon takes those below 2^32. -/
structure WebDuration where
  limitMinutes : Nat
  freezeMinutes : Option Nat
  scope : String
  deriving DecidableEq

/-- An app rule, and what a group has besides its own members. -/
structure WebRule where
  enabled : Option Bool
  alwaysOn : Option Bool
  lockBlock : Option Bool
  timeWindows : Option TimeWindows
  duration : Option WebDuration
  deriving DecidableEq

structure WebGroup where
  name : String
  sharedPool : Bool
  members : List String
  rule : WebRule
  deriving DecidableEq

/-- The object `rules`. -/
structure WebDoc where
  version : Nat
  settings : WebSettings
  apps : KeyMap WebRule
  groups : KeyMap WebGroup
  /-- number of the last group that was created -/
  groupSeq : Option Nat
  deriving DecidableEq

/-- `{}` -/
def WebRule.blank : WebRule := ⟨none, none, none, none, none⟩

/-- `{ limit_minutes: 0, scope: 'foreground' }` -/
def WebDuration.fresh : WebDuration := ⟨0, none, "foreground"⟩

/-- The document the page starts with, and has again when a read fails. -/
def WebDoc.fresh : WebDoc := ⟨1, ⟨none, none, none⟩, ∅, ∅, none⟩

/-! ## Rules -/

/-- Whose rule an edit is about. -/
inductive RuleOwner where
  | app (key : String)
  | group (gid : String)
  deriving DecidableEq

/-- Editing a rule of an app turns it on; a group keeps its own switch. -/
def RuleOwner.enables : RuleOwner → Bool
  | app _ => true
  | group _ => false

/-- `ruleOwner`: a missing app rule is created, a missing group is not. -/
def WebDoc.owned (doc : WebDoc) : RuleOwner → Option WebRule
  | .app key => some (doc.apps[key]?.getD .blank)
  | .group gid => doc.groups[gid]?.map WebGroup.rule

def WebDoc.setOwned (doc : WebDoc) (owner : RuleOwner) (rule : WebRule) : WebDoc :=
  match owner with
  | .app key => { doc with apps := doc.apps.insert key rule }
  | .group gid =>
      { doc with groups := doc.groups.modify gid fun g => { g with rule := rule } }

def WebRule.turnOn (on : Bool) (rule : WebRule) : WebRule :=
  if on then { rule with enabled := some true } else rule

/-- The windows, created when they are missing. -/
def WebRule.windowsOf (rule : WebRule) : TimeWindows := rule.timeWindows.getD .default

def WebRule.durationOf (rule : WebRule) : WebDuration := rule.duration.getD .fresh

/-- What `parseInt` skips: the white space and the line ends of JavaScript, which has
U+FEFF for U+0085. -/
def isStrWhiteSpace (c : Char) : Bool :=
  (RustStr.isWhitespace c && c.toNat != 0x85) || c.toNat == 0xFEFF

/-- `Math.max(0, parseInt(val, 10) || 0)`.  A number from 2^53 on would be
rounded; it is beyond what the daemon takes either way. -/
def minutesOf (val : String) : Nat :=
  let digits (cs : List Char) : Nat := (RustStr.digitsValue (cs.takeWhile Char.isDigit)).getD 0
  match val.toList.dropWhile isStrWhiteSpace with
  | '-' :: _ => 0
  | '+' :: cs => digits cs
  | cs => digits cs

/-- The fields of a rule in the settings views, with the value of their element. -/
inductive RuleSetting where
  | alwaysOn (val : Bool)
  | lockBlock (val : Bool)
  | windowMode (val : String)
  | duration (val : String)
  | cooldown (val : String)
  | scope (val : String)

/-- The cases of `applySetting` that apps and groups share. -/
def RuleSetting.assign (enable : Bool) (rule : WebRule) : RuleSetting → WebRule
  | alwaysOn val => { rule.turnOn val with alwaysOn := some val }
  | lockBlock val => { rule.turnOn enable with lockBlock := some val }
  | windowMode val =>
      { rule.turnOn enable with timeWindows := some { rule.windowsOf with mode := val } }
  | duration val =>
      { rule.turnOn enable with
        duration := some { rule.durationOf with limitMinutes := minutesOf val } }
  | cooldown val =>
      { rule.turnOn enable with
        duration := some { rule.durationOf with freezeMinutes := some (minutesOf val) } }
  | scope val =>
      { rule.turnOn enable with duration := some { rule.durationOf with scope := val } }

/-! ## Windows -/

inductive WindowEdge where
  | start
  | stop

def TimeWindow.setEdge (val : String) (w : TimeWindow) : WindowEdge → TimeWindow
  | .start => { w with start := val }
  | .stop => { w with stop := val }

/-- The hour of `HH:MM`, with one digit or two. -/
def isHour : List Char → Bool
  | [d] => d.isDigit
  | ['2', d] => '0' ≤ d && d ≤ '3'
  | [t, d] => (t == '0' || t == '1') && d.isDigit
  | _ => false

def isMinute : List Char → Bool
  | [t, d] => '0' ≤ t && t ≤ '5' && d.isDigit
  | _ => false

def hhmm (val : String) : Bool :=
  (RustStr.splitOnce ':' val.toList).elim false fun p => isHour p.1 && isMinute p.2

def allDays : List UInt8 := [1, 2, 3, 4, 5, 6, 7]

/-- The days after one of them was tapped; `none` when it is the last one left. -/
def toggledDays (day : UInt8) (days : List UInt8) : Option (List UInt8) :=
  let days := if days = [] then allDays else days
  let changed :=
    if day ∈ days then if days.length = 1 then none else some (days.erase day)
    else some (days ++ [day])
  -- all seven days are stored as none
  changed.map fun days =>
    let days := days.insertionSort (· ≤ ·)
    if days.length = 7 then [] else days

/-- Change one window, when there is one of this number. -/
def TimeWindows.changeAt (idx : Nat) (f : TimeWindow → Option TimeWindow) (tw : TimeWindows) :
    Option TimeWindows :=
  (tw.windows[idx]?.bind f).map fun w => { tw with windows := tw.windows.set idx w }

/-- The edits of the windows of a rule. -/
inductive WindowEdit where
  | add
  | remove (idx : Nat)
  | setTime (idx : Nat) (edge : WindowEdge) (val : String)
  | toggleDay (idx : Nat) (day : UInt8) (hday : 1 ≤ day ∧ day ≤ 7)

def WebRule.withWindows (rule : WebRule) (tw : TimeWindows) : WebRule :=
  { rule with timeWindows := some tw }

/-- `addWindow`, `removeWindow`, `setWindowTime` and `toggleDay` on the rule they
have found, and whether they save. -/
def WindowEdit.assign (enable : Bool) (rule : WebRule) : WindowEdit → WebRule × Bool
  | add =>
      let tw := rule.windowsOf
      ((rule.turnOn enable).withWindows
        { tw with windows := tw.windows ++ [⟨"00:00", "01:00", []⟩] }, true)
  | remove idx =>
      rule.timeWindows.elim (rule, false) fun tw =>
        (rule.withWindows { tw with windows := tw.windows.eraseIdx idx }, true)
  | setTime idx edge val =>
      let changed := rule.timeWindows.bind fun tw =>
        tw.changeAt idx fun w => some (w.setEdge val edge)
      if hhmm val then changed.elim (rule, false) fun tw => (rule.withWindows tw, true)
      else (rule, false)
  | toggleDay idx day _ =>
      let changed := rule.windowsOf.changeAt idx fun w =>
        (toggledDays day w.days).map fun days => { w with days := days }
      -- missing windows are created before the one of this number is looked up
      changed.elim (rule.withWindows rule.windowsOf, false) fun tw => (rule.withWindows tw, true)

/-! ## Edits -/

inductive WebOp where
  /-- `now` is `Date.now()` -/
  | createGroup (now : Nat)
  | toggleApp (key : String) (on : Bool)
  | toggleGroup (gid : String) (on : Bool)
  | toggleMember (gid key : String) (on : Bool)
  | deleteGroup (gid : String)
  | setRule (owner : RuleOwner) (setting : RuleSetting)
  | setSharedPool (gid : String) (val : Bool)
  | setGroupName (gid : String) (val : String)
  | editWindows (owner : RuleOwner) (edit : WindowEdit)
  | setLanguage (val : String)
  | setTimezone (val : String)
  | setClearLogOnBoot (val : Bool)

/-- The rule an app gets when its switch is turned on for the first time. -/
def WebRule.switchedOn : WebRule := ⟨some true, some false, none, some .default, some .fresh⟩

/-- A group that has just been created. -/
def WebGroup.numbered (seq : Nat) : WebGroup :=
  ⟨"Group " ++ toString seq, false, [], ⟨some false, some false, none, some .default, some .fresh⟩⟩

namespace WebDoc

def createGroup (now : Nat) (doc : WebDoc) : WebDoc :=
  let seq := doc.groupSeq.getD 0 + 1
  { doc with
    groupSeq := some seq
    groups := doc.groups.insert ("g" ++ toString now) (.numbered seq) }

def toggleApp (key : String) (on : Bool) (doc : WebDoc) : WebDoc :=
  if on then
    -- an app is managed alone or by a group, never both
    { doc with
      groups := doc.groups.map fun _ g => { g with members := g.members.erase key }
      apps := doc.apps.insert key
        (doc.apps[key]?.elim .switchedOn fun rule => { rule with enabled := some true }) }
  else { doc with apps := doc.apps.modify key fun rule => { rule with enabled := some false } }

/-- A group that is not there is left alone, and nothing is saved. -/
def changeGroup (gid : String) (f : WebGroup → WebGroup) (doc : WebDoc) : WebDoc × Bool :=
  ({ doc with groups := doc.groups.modify gid f }, doc.groups.contains gid)

def setMember (key : String) (on : Bool) (g : WebGroup) : WebGroup :=
  if on then if key ∈ g.members then g else { g with members := g.members ++ [key] }
  else { g with members := g.members.erase key }

def toggleMember (gid key : String) (on : Bool) (doc : WebDoc) : WebDoc × Bool :=
  let joins := on && doc.groups[gid]?.any fun g => key ∉ g.members
  let parked (rule : WebRule) : WebRule := { rule with enabled := some false }
  -- the rule of an app that joins a group is parked
  ({ doc with
      apps := if joins then doc.apps.modify key parked else doc.apps
      groups := doc.groups.modify gid (setMember key on) }, doc.groups.contains gid)

/-- Edit the rule of an owner; a rule of an app is there afterwards in any case. -/
def changeRule (owner : RuleOwner) (f : WebRule → WebRule × Bool) (doc : WebDoc) :
    WebDoc × Bool :=
  match doc.owned owner with
  | none => (doc, false)
  | some rule => (doc.setOwned owner (f rule).1, (f rule).2)

end WebDoc

/-- Carry out an edit; does it end with a save? -/
def WebOp.run (doc : WebDoc) : WebOp → WebDoc × Bool
  | createGroup now => (doc.createGroup now, true)
  | toggleApp key on => (doc.toggleApp key on, true)
  | toggleGroup gid on =>
      doc.changeGroup gid fun g => { g with rule := { g.rule with enabled := some on } }
  | toggleMember gid key on => doc.toggleMember gid key on
  | deleteGroup gid => ({ doc with groups := doc.groups.erase gid }, true)
  | setRule owner setting =>
      doc.changeRule owner fun rule => (setting.assign owner.enables rule, true)
  | setSharedPool gid val => doc.changeGroup gid fun g => { g with sharedPool := val }
  | setGroupName gid val => doc.changeGroup gid fun g => { g with name := val }
  | editWindows owner edit => doc.changeRule owner fun rule => edit.assign owner.enables rule
  | setLanguage val =>
      ({ doc with settings := { doc.settings with language := some val } }, true)
  | setTimezone val =>
      ({ doc with settings := { doc.settings with timezone := some val } }, true)
  | setClearLogOnBoot val =>
      ({ doc with settings := { doc.settings with clearLogOnBoot := some val } }, true)

/-- The document after an edit. -/
def WebOp.perform (op : WebOp) (doc : WebDoc) : WebDoc := (op.run doc).1

/-- The document after several edits. -/
def WebDoc.edited (doc : WebDoc) (ops : List WebOp) : WebDoc :=
  ops.foldl (fun doc op => op.perform doc) doc

/-! ## The number of the last group -/

theorem groupSeq_changeRule (owner : RuleOwner) (f : WebRule → WebRule × Bool) (doc : WebDoc) :
    (doc.changeRule owner f).1.groupSeq = doc.groupSeq := by
  unfold WebDoc.changeRule
  cases owner with
  | app key => rfl
  | group gid => cases doc.owned (.group gid) <;> rfl

theorem groupSeq_toggleApp (key : String) (on : Bool) (doc : WebDoc) :
    (doc.toggleApp key on).groupSeq = doc.groupSeq := by
  unfold WebDoc.toggleApp
  split_ifs
  · rfl
  · rfl

/-- Only the creation of a group numbers it. -/
theorem groupSeq_perform (op : WebOp) (hop : ∀ now, op ≠ .createGroup now) (doc : WebDoc) :
    (op.perform doc).groupSeq = doc.groupSeq := by
  cases op with
  | createGroup now => exact absurd rfl (hop now)
  | toggleApp key on => exact groupSeq_toggleApp key on doc
  | setRule owner setting => exact groupSeq_changeRule owner _ doc
  | editWindows owner edit => exact groupSeq_changeRule owner _ doc
  | toggleGroup gid on => rfl
  | toggleMember gid key on => rfl
  | deleteGroup gid => rfl
  | setSharedPool gid val => rfl
  | setGroupName gid val => rfl
  | setLanguage val => rfl
  | setTimezone val => rfl
  | setClearLogOnBoot val => rfl

/-- Once there is such a number, it stays. -/
theorem groupSeq_edited (ops : List WebOp) (doc : WebDoc) :
    (doc.edited ops).groupSeq = none ↔
      doc.groupSeq = none ∧ ∀ now, WebOp.createGroup now ∉ ops := by
  induction ops generalizing doc with
  | nil => simp [WebDoc.edited]
  | cons op ops ih =>
      rw [WebDoc.edited, List.foldl_cons, ← WebDoc.edited, ih]
      by_cases hop : ∃ now, op = .createGroup now
      · obtain ⟨now, rfl⟩ := hop
        exact iff_of_false (fun h => nomatch h.1) fun h => h.2 now List.mem_cons_self
      · have hother (now : Nat) : op ≠ .createGroup now := fun h => hop ⟨now, h⟩
        rw [groupSeq_perform op hother]
        simp only [List.mem_cons, not_or, (hother _).symm, not_false_eq_true, true_and]

/-! ## Clean weekdays -/

/-- Weekdays in order, each once. -/
structure CleanDays (days : List UInt8) : Prop where
  sorted : days.Pairwise (· < ·)
  valid : ∀ d ∈ days, 1 ≤ d ∧ d ≤ 7

def TimeWindows.Clean (tw : TimeWindows) : Prop := ∀ w ∈ tw.windows, CleanDays w.days

def WebRule.Clean (rule : WebRule) : Prop := ∀ tw, rule.timeWindows = some tw → tw.Clean

/-- All windows of a document have clean weekdays. -/
structure WebDoc.Clean (doc : WebDoc) : Prop where
  apps : ∀ (key : String) (rule : WebRule), doc.apps[key]? = some rule → rule.Clean
  groups : ∀ (gid : String) (g : WebGroup), doc.groups[gid]? = some g → g.rule.Clean

section Clean

variable {days days' : List UInt8} {tw tw' : TimeWindows} {rule : WebRule} {doc : WebDoc}
  {owner : RuleOwner}

theorem cleanDays_nil : CleanDays [] := ⟨.nil, fun _ h => absurd h List.not_mem_nil⟩

/-- Sorting distinct weekdays gives clean ones. -/
theorem cleanDays_insertionSort (hnodup : days.Nodup) (hvalid : ∀ d ∈ days, 1 ≤ d ∧ d ≤ 7) :
    CleanDays (days.insertionSort (· ≤ ·)) := by
  have hperm := List.perm_insertionSort (· ≤ ·) days
  have hsorted := List.pairwise_insertionSort (· ≤ ·) days
  have hnodup' : (days.insertionSort (· ≤ ·)).Nodup := hperm.nodup_iff.mpr hnodup
  refine ⟨?_, fun d hd => hvalid d (hperm.mem_iff.mp hd)⟩
  exact (hsorted.and hnodup').imp fun h => UInt8.lt_of_le_of_ne h.1 h.2

theorem nodup_of_cleanDays (h : CleanDays days) : days.Nodup := h.sorted.imp UInt8.ne_of_lt

/-- **Tapping a day keeps the weekdays clean.** -/
theorem cleanDays_toggledDays {day : UInt8} (hday : 1 ≤ day ∧ day ≤ 7) (h : CleanDays days)
    (htoggled : toggledDays day days = some days') : CleanDays days' := by
  have hshown : CleanDays (if days = [] then allDays else days) := by
    split_ifs
    · have hvalid : allDays.all (fun d => decide (1 ≤ d ∧ d ≤ 7)) = true := by decide
      exact ⟨by decide, fun d hd => of_decide_eq_true (List.all_eq_true.mp hvalid d hd)⟩
    · exact h
  simp only [toggledDays] at htoggled
  generalize (if days = [] then allDays else days) = shown at hshown htoggled
  obtain ⟨changed, hchanged, rfl⟩ := Option.map_eq_some_iff.mp htoggled
  have hclean : CleanDays (changed.insertionSort (· ≤ ·)) := by
    split_ifs at hchanged with hmem hlast
    · obtain rfl := Option.some.inj hchanged
      exact cleanDays_insertionSort ((nodup_of_cleanDays hshown).erase day)
        fun d hd => hshown.valid d (List.mem_of_mem_erase hd)
    · obtain rfl := Option.some.inj hchanged
      refine cleanDays_insertionSort ?_ fun d hd => ?_
      · exact List.nodup_append.mpr ⟨nodup_of_cleanDays hshown, List.nodup_singleton day,
          fun d hd d' hd' heq => hmem (List.mem_singleton.mp hd' ▸ heq ▸ hd)⟩
      · rcases List.mem_append.mp hd with hd | hd
        · exact hshown.valid d hd
        · exact List.mem_singleton.mp hd ▸ hday
  split_ifs
  · exact cleanDays_nil
  · exact hclean

theorem clean_default : TimeWindows.default.Clean := fun _ h => absurd h List.not_mem_nil

theorem clean_windowsOf (h : rule.Clean) : rule.windowsOf.Clean := by
  unfold WebRule.windowsOf
  cases htw : rule.timeWindows with
  | none => exact clean_default
  | some tw => exact h tw htw

theorem clean_withWindows (rule : WebRule) (h : tw.Clean) : (rule.withWindows tw).Clean :=
  fun _ heq => Option.some.inj heq ▸ h

theorem clean_turnOn (on : Bool) (h : rule.Clean) : (rule.turnOn on).Clean := by
  unfold WebRule.turnOn
  split_ifs
  · exact h
  · exact h

/-- Changing one window by a function that keeps weekdays clean. -/
theorem clean_changeAt {idx : Nat} {f : TimeWindow → Option TimeWindow} (h : tw.Clean)
    (hf : ∀ w w', CleanDays w.days → f w = some w' → CleanDays w'.days)
    (hchanged : tw.changeAt idx f = some tw') : tw'.Clean := by
  obtain ⟨w', hw', rfl⟩ := Option.map_eq_some_iff.mp hchanged
  obtain ⟨w, hw, hfw⟩ := Option.bind_eq_some_iff.mp hw'
  have hclean := hf w w' (h w (List.mem_of_getElem? hw)) hfw
  intro v hv
  rcases List.mem_or_eq_of_mem_set hv with hold | rfl
  · exact h v hold
  · exact hclean

theorem clean_setting (enable : Bool) (setting : RuleSetting) (h : rule.Clean) :
    (setting.assign enable rule).Clean := by
  cases setting with
  | windowMode val => exact clean_withWindows _ fun w hw => clean_windowsOf h w hw
  | alwaysOn val => exact clean_turnOn val h
  | lockBlock val => exact clean_turnOn enable h
  | duration val => exact clean_turnOn enable h
  | cooldown val => exact clean_turnOn enable h
  | scope val => exact clean_turnOn enable h

/-- **The edits of windows keep them clean.** -/
theorem clean_windowEdit (enable : Bool) (edit : WindowEdit) (h : rule.Clean) :
    (edit.assign enable rule).1.Clean := by
  cases edit with
  | add =>
      refine clean_withWindows _ fun w hw => ?_
      rcases List.mem_append.mp hw with hold | hnew
      · exact clean_windowsOf h w hold
      · exact List.mem_singleton.mp hnew ▸ cleanDays_nil
  | remove idx =>
      simp only [WindowEdit.assign]
      cases htw : rule.timeWindows with
      | none => exact h
      | some tw =>
          exact clean_withWindows _ fun w hw => h tw htw w (List.mem_of_mem_eraseIdx hw)
  | setTime idx edge val =>
      simp only [WindowEdit.assign]
      split_ifs
      · cases hchanged : rule.timeWindows.bind _ with
        | none => exact h
        | some tw' =>
            obtain ⟨tw, htw, hset⟩ := Option.bind_eq_some_iff.mp hchanged
            refine clean_withWindows _ (clean_changeAt (h tw htw) (fun w w' hw heq => ?_) hset)
            rw [← Option.some.inj heq]
            cases edge <;> exact hw
      · exact h
  | toggleDay idx day hday =>
      simp only [WindowEdit.assign]
      cases hchanged : rule.windowsOf.changeAt idx _ with
      | none => exact clean_withWindows _ (clean_windowsOf h)
      | some tw' =>
          refine clean_withWindows _ (clean_changeAt (clean_windowsOf h) (fun w w' hw heq => ?_)
            hchanged)
          obtain ⟨days', hdays', rfl⟩ := Option.map_eq_some_iff.mp heq
          exact cleanDays_toggledDays hday hw hdays'

theorem clean_fresh : WebDoc.fresh.Clean :=
  ⟨fun _ _ h => by simp [WebDoc.fresh] at h, fun _ _ h => by simp [WebDoc.fresh] at h⟩

/-- Clean entries stay clean under an insertion or a change of one of them. -/
theorem forall_insert {β : Type} {P : β → Prop} {m : KeyMap β} {k : String} {b : β}
    (h : ∀ (key : String) (v : β), m[key]? = some v → P v) (hb : P b) :
    ∀ (key : String) (v : β), (m.insert k b)[key]? = some v → P v := by
  intro key v hv
  rw [getElem?_insert_eq] at hv
  split_ifs at hv
  · exact Option.some.inj hv ▸ hb
  · exact h key v hv

theorem forall_modify {β : Type} {P : β → Prop} {m : KeyMap β} {k : String} {f : β → β}
    (h : ∀ (key : String) (v : β), m[key]? = some v → P v) (hf : ∀ v, P v → P (f v)) :
    ∀ (key : String) (v : β), (m.modify k f)[key]? = some v → P v := by
  intro key v hv
  rw [getElem?_modify_eq] at hv
  split_ifs at hv
  · obtain ⟨w, hw, rfl⟩ := Option.map_eq_some_iff.mp hv
    exact hf w (h key w hw)
  · exact h key v hv

theorem clean_changeRule {f : WebRule → WebRule × Bool} (h : doc.Clean)
    (hf : ∀ rule : WebRule, rule.Clean → (f rule).1.Clean) :
    (doc.changeRule owner f).1.Clean := by
  have hblank : WebRule.blank.Clean := fun tw htw => by cases htw
  unfold WebDoc.changeRule
  cases owner with
  | app key =>
      refine ⟨forall_insert h.apps (hf _ ?_), h.groups⟩
      cases hrule : doc.apps[key]? with
      | none => exact hblank
      | some rule => exact h.apps key rule hrule
  | group gid =>
      simp only [WebDoc.owned]
      cases hg : doc.groups[gid]? with
      | none => exact h
      | some g => exact ⟨h.apps, forall_modify h.groups fun _ _ => hf _ (h.groups gid g hg)⟩

theorem clean_changeGroup {gid : String} {f : WebGroup → WebGroup} (h : doc.Clean)
    (hf : ∀ g, (f g).rule.timeWindows = g.rule.timeWindows) :
    (doc.changeGroup gid f).1.Clean := by
  refine ⟨h.apps, forall_modify h.groups fun g hg tw htw => hg tw ?_⟩
  rw [← hf]
  exact htw

theorem clean_toggleApp (key : String) (on : Bool) (h : doc.Clean) :
    (doc.toggleApp key on).Clean := by
  unfold WebDoc.toggleApp
  split_ifs
  · refine ⟨forall_insert h.apps ?_, fun gid g hg => ?_⟩
    · cases hrule : doc.apps[key]? with
      | none => exact fun tw htw => Option.some.inj htw ▸ clean_default
      | some rule => exact h.apps key rule hrule
    · dsimp only at hg
      rw [ExtTreeMap.getElem?_map] at hg
      obtain ⟨g', hg', rfl⟩ := Option.map_eq_some_iff.mp hg
      exact h.groups gid g' hg'
  · exact ⟨forall_modify h.apps fun _ hrule => hrule, h.groups⟩

theorem clean_toggleMember (gid key : String) (on : Bool) (h : doc.Clean) :
    (doc.toggleMember gid key on).1.Clean := by
  simp only [WebDoc.toggleMember]
  refine ⟨?_, forall_modify h.groups fun g hg => ?_⟩
  · split_ifs
    · exact forall_modify h.apps fun _ hrule => hrule
    · exact h.apps
  · unfold WebDoc.setMember
    split_ifs
    · exact hg
    · exact hg
    · exact hg

/-- **Every edit keeps a document clean.** -/
theorem clean_perform (op : WebOp) (h : doc.Clean) : (op.perform doc).Clean := by
  cases op with
  | createGroup now =>
      exact ⟨h.apps, forall_insert h.groups fun tw htw => Option.some.inj htw ▸ clean_default⟩
  | toggleApp key on => exact clean_toggleApp key on h
  | toggleGroup gid on => exact clean_changeGroup h fun _ => rfl
  | toggleMember gid key on => exact clean_toggleMember gid key on h
  | deleteGroup gid =>
      refine ⟨h.apps, fun key g hg => ?_⟩
      have herased : (doc.groups.erase gid)[key]? = some g := hg
      rw [getElem?_erase_eq] at herased
      split_ifs at herased
      exact h.groups key g herased
  | setRule owner setting =>
      exact clean_changeRule h fun _ hrule => clean_setting owner.enables setting hrule
  | setSharedPool gid val => exact clean_changeGroup h fun _ => rfl
  | setGroupName gid val => exact clean_changeGroup h fun _ => rfl
  | editWindows owner edit =>
      exact clean_changeRule h fun _ hrule => clean_windowEdit owner.enables edit hrule
  | setLanguage val => exact ⟨h.apps, h.groups⟩
  | setTimezone val => exact ⟨h.apps, h.groups⟩
  | setClearLogOnBoot val => exact ⟨h.apps, h.groups⟩

theorem clean_edited (ops : List WebOp) (h : doc.Clean) : (doc.edited ops).Clean := by
  induction ops generalizing doc with
  | nil => exact h
  | cons op ops ih => exact ih (clean_perform op h)

end Clean

end Ningshi
