import Ningshi.WebRules

/-!
# The switches of the groups

Editing a rule of an app turns the app on; a group is meant to keep its own
switch.  What an edit does to the rule of a group is `WebOp.onRuleOf`, and
`keepsGroups_iff` says which edits leave all switches as they are.
-/

namespace Ningshi

open Std FiniteMap

/-- The rule of a group, if there is such a group. -/
def WebDoc.groupRule (doc : WebDoc) (gid : String) : Option WebRule :=
  doc.groups[gid]?.map WebGroup.rule

/-- The switch of a group. -/
def WebDoc.switch (doc : WebDoc) (gid : String) : Option (Option Bool) :=
  (doc.groupRule gid).map WebRule.enabled

/-- The group that an edit is about. -/
def WebOp.group : WebOp → Option String
  | setRule (.group gid) _ => some gid
  | editWindows (.group gid) _ => some gid
  | setSharedPool gid _ => some gid
  | setGroupName gid _ => some gid
  | toggleMember gid _ _ => some gid
  | toggleGroup gid _ => some gid
  | deleteGroup gid => some gid
  | _ => none

/-- Every edit but the creation, the deletion and the switch of a group. -/
def WebOp.Edits : WebOp → Prop
  | createGroup _ => False
  | deleteGroup _ => False
  | toggleGroup _ _ => False
  | _ => True

/-- Is a rule set to be always on? -/
def RuleSetting.setsAlwaysOn : RuleSetting → Bool
  | alwaysOn val => val
  | _ => false

def WebOp.setsAlwaysOn (gid : String) : WebOp → Bool
  | setRule (.group gid') setting => gid' = gid && setting.setsAlwaysOn
  | _ => false

/-- The groups under a sequence of edits. -/
structure KeepsGroups (doc : WebDoc) (ops : List WebOp) : Prop where
  /-- at no time is a switch another than in the beginning -/
  switches : ∀ before, before <+: ops → ∀ gid, (doc.edited before).switch gid = doc.switch gid
  /-- an edit leaves the rules of all other groups alone -/
  others : ∀ before op, before ++ [op] <+: ops → ∀ gid, op.group ≠ some gid →
    (doc.edited (before ++ [op])).groupRule gid = (doc.edited before).groupRule gid

/-! ## What an edit does to the rule of a group -/

/-- The rule of the group `gid` after an edit. -/
def WebOp.onRuleOf (gid : String) (rule : WebRule) : WebOp → WebRule
  | setRule (.group gid') setting => if gid' = gid then setting.assign false rule else rule
  | editWindows (.group gid') edit => if gid' = gid then (edit.assign false rule).1 else rule
  | _ => rule

section Edit

variable {doc : WebDoc} {gid gid' : String} {op : WebOp} {rule : WebRule}

theorem groupRule_modify (f : WebGroup → WebGroup) (g : WebRule → WebRule)
    (hf : ∀ group, (f group).rule = g group.rule) :
    ({ doc with groups := doc.groups.modify gid' f } : WebDoc).groupRule gid =
      (doc.groupRule gid).map fun rule => if gid' = gid then g rule else rule := by
  unfold WebDoc.groupRule
  rw [getElem?_modify_eq, Option.map_map]
  split_ifs
  · simp only [Option.map_map, Function.comp_def, hf]
  · rfl

/-- Editing the rule of an owner. -/
theorem groupRule_changeRule (f : WebRule → WebRule × Bool) :
    (doc.changeRule (.group gid') f).1.groupRule gid =
      (doc.groupRule gid).map fun rule => if gid' = gid then (f rule).1 else rule := by
  have howned : doc.owned (.group gid') = doc.groupRule gid' := rfl
  cases hrule : doc.groupRule gid' with
  | none =>
      have hsame : (doc.changeRule (.group gid') f).1 = doc := by
        rw [WebDoc.changeRule, howned, hrule]
      rw [hsame]
      by_cases hgid : gid' = gid
      · rw [← hgid, hrule]
        rfl
      · simp only [if_neg hgid, Option.map_id']
  | some rule =>
      have hset : (doc.changeRule (.group gid') f).1 = doc.setOwned (.group gid') (f rule).1 := by
        rw [WebDoc.changeRule, howned, hrule]
      rw [hset, WebDoc.setOwned, groupRule_modify _ (fun _ => (f rule).1) fun _ => rfl]
      by_cases hgid : gid' = gid
      · rw [← hgid, hrule]
        rfl
      · simp only [if_neg hgid]

theorem rule_setMember (key : String) (on : Bool) (g : WebGroup) :
    (WebDoc.setMember key on g).rule = g.rule := by
  unfold WebDoc.setMember
  split_ifs <;> rfl

theorem groupRule_toggleApp (key : String) (on : Bool) :
    (doc.toggleApp key on).groupRule gid = doc.groupRule gid := by
  unfold WebDoc.toggleApp
  split_ifs
  · simp only [WebDoc.groupRule, ExtTreeMap.getElem?_map, Option.map_map, Function.comp_def]
  · rfl

/-- **What an edit does to the rule of a group.** -/
theorem groupRule_perform (hop : op.Edits) :
    (op.perform doc).groupRule gid =
      (doc.groupRule gid).map fun rule => op.onRuleOf gid rule := by
  have hkept (gid' : String) {f : WebGroup → WebGroup} (hf : ∀ g, (f g).rule = g.rule) :
      ({ doc with groups := doc.groups.modify gid' f } : WebDoc).groupRule gid =
        (doc.groupRule gid).map fun rule => rule := by
    rw [groupRule_modify f id hf]
    simp only [id_eq, ite_self]
  cases op with
  | setRule owner setting =>
      cases owner with
      | app key => exact Option.map_id'.symm
      | group gid' => exact groupRule_changeRule _
  | editWindows owner edit =>
      cases owner with
      | app key => exact Option.map_id'.symm
      | group gid' => exact groupRule_changeRule _
  | toggleApp key on => exact (groupRule_toggleApp key on).trans Option.map_id'.symm
  | toggleMember gid' key on => exact hkept gid' (rule_setMember key on)
  | setSharedPool gid' val => exact hkept gid' fun _ => rfl
  | setGroupName gid' val => exact hkept gid' fun _ => rfl
  | setLanguage val => exact Option.map_id'.symm
  | setTimezone val => exact Option.map_id'.symm
  | setClearLogOnBoot val => exact Option.map_id'.symm
  | createGroup now => exact hop.elim
  | toggleGroup gid' on => exact hop.elim
  | deleteGroup gid' => exact hop.elim

/-! ## The switch -/

theorem enabled_turnOn (on : Bool) :
    (rule.turnOn on).enabled = if on then some true else rule.enabled := by
  cases on <;> rfl

/-- A setting of a group turns it on in one case. -/
theorem enabled_setting (setting : RuleSetting) :
    (setting.assign false rule).enabled =
      if setting.setsAlwaysOn then some true else rule.enabled := by
  cases setting with
  | alwaysOn val => exact enabled_turnOn val
  | lockBlock val => rfl
  | windowMode val => rfl
  | duration val => rfl
  | cooldown val => rfl
  | scope val => rfl

/-- No edit of its windows does. -/
theorem enabled_windowEdit (edit : WindowEdit) :
    (edit.assign false rule).1.enabled = rule.enabled := by
  cases edit with
  | add => rfl
  | remove idx =>
      simp only [WindowEdit.assign]
      cases rule.timeWindows <;> rfl
  | setTime idx edge val =>
      simp only [WindowEdit.assign]
      split_ifs
      · cases rule.timeWindows.bind _ <;> rfl
      · rfl
  | toggleDay idx day hday =>
      simp only [WindowEdit.assign]
      cases rule.windowsOf.changeAt idx _ <;> rfl

theorem enabled_onRuleOf :
    (op.onRuleOf gid rule).enabled =
      if op.setsAlwaysOn gid then some true else rule.enabled := by
  cases op with
  | setRule owner setting =>
      cases owner with
      | app key => rfl
      | group gid' =>
          by_cases hgid : gid' = gid
          · simp only [WebOp.onRuleOf, WebOp.setsAlwaysOn, hgid, if_true, decide_true,
              Bool.true_and, enabled_setting]
          · simp [WebOp.onRuleOf, WebOp.setsAlwaysOn, hgid]
  | editWindows owner edit =>
      cases owner with
      | app key => rfl
      | group gid' =>
          have hkept : (if gid' = gid then (edit.assign false rule).1 else rule).enabled =
              rule.enabled := by
            split_ifs
            · exact enabled_windowEdit edit
            · rfl
          exact hkept
  | _ => rfl

/-- **What an edit does to the switch of a group.** -/
theorem switch_perform (hop : op.Edits) :
    (op.perform doc).switch gid =
      if op.setsAlwaysOn gid then (doc.switch gid).map fun _ => some true else doc.switch gid := by
  unfold WebDoc.switch
  rw [groupRule_perform hop, Option.map_map]
  simp only [Function.comp_def, enabled_onRuleOf]
  split_ifs
  · rw [Option.map_map]
    rfl
  · rfl

/-- An edit leaves the rules of the groups alone that it is not about. -/
theorem groupRule_perform_of_ne (hop : op.Edits) (hgid : op.group ≠ some gid) :
    (op.perform doc).groupRule gid = doc.groupRule gid := by
  have hrule (rule : WebRule) : op.onRuleOf gid rule = rule := by
    cases op with
    | setRule owner setting =>
        cases owner with
        | app key => rfl
        | group gid' => exact if_neg fun heq => hgid (congrArg some heq)
    | editWindows owner edit =>
        cases owner with
        | app key => rfl
        | group gid' => exact if_neg fun heq => hgid (congrArg some heq)
    | _ => rfl
  rw [groupRule_perform hop]
  simp only [hrule, Option.map_id']

end Edit

/-! ## Sequences of edits -/

section Edited

variable {doc : WebDoc} {ops : List WebOp} {gid : String}

theorem edited_concat (doc : WebDoc) (before : List WebOp) (op : WebOp) :
    doc.edited (before ++ [op]) = op.perform (doc.edited before) := by
  rw [WebDoc.edited, List.foldl_append]
  rfl

/-- The switch stays as it is if a group that is set to be always on is on already. -/
theorem switch_edited (hops : ∀ op ∈ ops, op.Edits)
    (hon : ∀ op ∈ ops, op.setsAlwaysOn gid = true →
      ∀ on, doc.switch gid = some on → on = some true) :
    (doc.edited ops).switch gid = doc.switch gid := by
  induction ops using List.reverseRecOn with
  | nil => rfl
  | append_singleton ops op ih =>
      have hop := hops op (by simp)
      rw [edited_concat, switch_perform hop,
        ih (fun op hop => hops op (by simp [hop])) fun op hop => hon op (by simp [hop])]
      split_ifs with halways
      · cases hswitch : doc.switch gid with
        | none => rfl
        | some on =>
            rw [hon op (by simp) halways on hswitch]
            rfl
      · rfl

end Edited

/-- Every group that is set to be always on was switched on in the beginning. -/
def AlwaysOnIsOn (doc : WebDoc) (ops : List WebOp) : Prop :=
  ∀ op ∈ ops, ∀ gid, op.setsAlwaysOn gid = true → ∀ on, doc.switch gid = some on → on = some true

/-- **Editing the rules of groups keeps their switches** exactly when no group
that is off is set to be always on. -/
theorem keepsGroups_iff (doc : WebDoc) (ops : List WebOp) (hops : ∀ op ∈ ops, op.Edits) :
    KeepsGroups doc ops ↔ AlwaysOnIsOn doc ops := by
  constructor
  · intro h op hop gid halways on hswitch
    obtain ⟨before, after, rfl⟩ := List.append_of_mem hop
    have hprefix : before ++ [op] <+: before ++ op :: after := ⟨after, by simp⟩
    -- the switch is on right after this edit
    have hbefore := h.switches before (List.prefix_append _ _) gid
    have hafter := h.switches (before ++ [op]) hprefix gid
    rw [edited_concat, switch_perform (hops op hop), if_pos halways, hbefore, hswitch] at hafter
    exact (Option.some.inj hafter).symm
  · intro hon
    refine ⟨fun before hbefore gid => ?_, fun before op hbefore gid hgid => ?_⟩
    · exact switch_edited (fun op hop => hops op (hbefore.subset hop))
        fun op hop halways => hon op (hbefore.subset hop) gid halways
    · rw [edited_concat]
      exact groupRule_perform_of_ne (hops op (hbefore.subset (by simp))) hgid

/-- A document with one group, which is off. -/
def WebDoc.oneGroup : WebDoc := WebDoc.fresh.createGroup 1

def harmlessEdits : List WebOp :=
  [.setRule (.group "g1") (.lockBlock true), .editWindows (.group "g1") .add,
    .toggleMember "g1" "0:com.game" true]

theorem keepsGroups_harmlessEdits : KeepsGroups .oneGroup harmlessEdits := by
  refine (keepsGroups_iff _ _ ?_).mpr ?_
  · simp [harmlessEdits, WebOp.Edits]
  · simp [AlwaysOnIsOn, harmlessEdits, WebOp.setsAlwaysOn, RuleSetting.setsAlwaysOn]

/-- Setting a group to be always on switches it on. -/
theorem not_keepsGroups :
    ¬ ∀ doc ops, (∀ op ∈ ops, WebOp.Edits op) → KeepsGroups doc ops := by
  intro h
  have hkept := h .oneGroup [.setRule (.group "g1") (.alwaysOn true)] (by simp [WebOp.Edits])
  have hswitch := hkept.switches _ (List.prefix_refl _) "g1"
  revert hswitch
  decide +kernel

end Ningshi
