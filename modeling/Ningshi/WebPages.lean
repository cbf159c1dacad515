import Ningshi.LimitReached
import Ningshi.WebFields

/-!
# `app.js`: the pages of the WebUI

An app is either managed alone or by a group, never both.  No single check of
the WebUI enforces this.  The switch of an app takes it out of all groups, a
group that takes an app in parks its rule; but the settings of an app turn its
rule on without a look at the groups, and are safe only because the list of
apps opens them for apps in no group.  Saves that fail and files that cannot be
read replace the document under an open page.

Handlers are taken one after the other here, each with its save and the re-read
behind it, although the program may start the next one while these are under way
(`toggleDay` does not even wait for its save).  `exclusive_of_reachable` says that
it holds after every one of them, of the document and of the rules file, when no
group has the empty id, which the conditions of the page take for no group.
`want_of_page` says what it is for: the verdict of the entry that manages an app
is what a tick wants.
-/

namespace Ningshi

open Std FiniteMap Transition

/-! ## Who manages an app -/

/-- The members of the groups, and the apps whose own rule is on. -/
structure Arrangement where
  members : String → List String
  on : String → Bool

namespace Arrangement

/-- No group has this key. -/
def Ungrouped (key : String) (a : Arrangement) : Prop := ∀ gid, key ∉ a.members gid

/-- A key is managed alone or by one group, never both. -/
structure Exclusive (a : Arrangement) : Prop where
  once : ∀ gid, (a.members gid).Nodup
  apart : ∀ gid gid' key, key ∈ a.members gid → key ∈ a.members gid' → gid = gid'
  alone : ∀ key, a.on key = true → a.Ungrouped key

variable {a b : Arrangement} {gid key : String}

/-- Taking keys out of groups and switching rules off keeps it. -/
theorem Exclusive.shrink (h : a.Exclusive)
    (hmembers : ∀ gid, (b.members gid).Sublist (a.members gid))
    (hon : ∀ key, b.on key = true → a.on key = true) : b.Exclusive where
  once gid := (hmembers gid).nodup (h.once gid)
  apart gid gid' key hkey hkey' :=
    h.apart gid gid' key ((hmembers gid).subset hkey) ((hmembers gid').subset hkey')
  alone key hkey gid hmem := h.alone key (hon key hkey) gid ((hmembers gid).subset hmem)

/-- So does switching on a rule whose key is taken out of all groups. -/
theorem Exclusive.switchOn (h : a.Exclusive)
    (hmembers : ∀ gid, b.members gid = (a.members gid).erase key)
    (hon : ∀ k, b.on k = true → k = key ∨ a.on k = true) : b.Exclusive where
  once gid := hmembers gid ▸ (h.once gid).erase key
  apart gid gid' k hk hk' := by
    rw [hmembers] at hk hk'
    exact h.apart gid gid' k (List.mem_of_mem_erase hk) (List.mem_of_mem_erase hk')
  alone k hk gid hmem := by
    rw [hmembers] at hmem
    rcases hon k hk with rfl | hold
    · exact (h.once gid).not_mem_erase hmem
    · exact h.alone k hold gid (List.mem_of_mem_erase hmem)

/-- So does taking a key into a group that is in none, its rule switched off. -/
theorem Exclusive.join (h : a.Exclusive) (hkey : a.Ungrouped key)
    (hmembers : ∀ g, b.members g = if g = gid then a.members gid ++ [key] else a.members g)
    (hoff : b.on key = false) (hon : ∀ k, b.on k = true → a.on k = true) : b.Exclusive := by
  have hmem {g k : String} (hk : k ∈ b.members g) : k ∈ a.members g ∨ k = key ∧ g = gid := by
    rw [hmembers] at hk
    split_ifs at hk with hg
    · subst hg
      rcases List.mem_append.mp hk with hold | hnew
      · exact .inl hold
      · exact .inr ⟨List.mem_singleton.mp hnew, rfl⟩
    · exact .inl hk
  refine ⟨fun g => ?_, fun g g' k hk hk' => ?_, fun k hk g hmem' => ?_⟩
  · rw [hmembers]
    split_ifs
    · refine List.nodup_append.mpr ⟨h.once gid, List.nodup_singleton key, ?_⟩
      rintro k hk k' hk' rfl
      exact hkey gid (List.mem_singleton.mp hk' ▸ hk)
    · exact h.once g
  · rcases hmem hk with hold | ⟨rfl, rfl⟩ <;> rcases hmem hk' with hold' | ⟨hsame, rfl⟩
    · exact h.apart g g' k hold hold'
    · exact absurd hold (hsame ▸ hkey g)
    · exact absurd hold' (hkey g')
    · rfl
  · rcases hmem hmem' with hold | ⟨rfl, -⟩
    · exact h.alone k (hon k hk) g hold
    · rw [hoff] at hk
      cases hk

end Arrangement

/-- Who manages what in a document. -/
def WebDoc.arrangement (doc : WebDoc) : Arrangement where
  members gid := doc.groups[gid]?.elim [] WebGroup.members
  on key := doc.apps[key]?.elim false fun rule => rule.enabled.getD false

/-- Who manages what in the rules of the daemon. -/
def Rules.arrangement (rules : Rules) : Arrangement where
  members gid := rules.groups[gid]?.elim [] GroupRule.members
  on key := rules.apps[key]?.elim false AppRule.enabled

/-- The daemon reads the arrangement of the document. -/
theorem arrangement_of_readAs {doc : WebDoc} {rules : Rules} (h : doc.ReadAs rules) :
    rules.arrangement = doc.arrangement := by
  have hmembers (gid : String) : rules.arrangement.members gid = doc.arrangement.members gid := by
    simp only [Rules.arrangement, WebDoc.arrangement]
    have hrel := h.groups gid
    generalize doc.groups[gid]? = o, rules.groups[gid]? = o' at hrel
    cases hrel with
    | none => rfl
    | some hread => exact hread.members
  have hon (key : String) : rules.arrangement.on key = doc.arrangement.on key := by
    simp only [Rules.arrangement, WebDoc.arrangement]
    have hrel := h.apps key
    generalize doc.apps[key]? = o, rules.apps[key]? = o' at hrel
    cases hrel with
    | none => rfl
    | some hread => exact hread.enabled
  exact congrArg₂ Arrangement.mk (funext hmembers) (funext hon)

@[simp] theorem arrangement_sanitize (rules : Rules) :
    rules.sanitize.arrangement = rules.arrangement := by
  refine congrArg₂ Arrangement.mk (funext fun gid => ?_) (funext fun key => ?_)
  · rw [Rules.sanitize, ExtTreeMap.getElem?_map]
    cases rules.groups[gid]? <;> rfl
  · rw [Rules.sanitize, ExtTreeMap.getElem?_map]
    cases rules.apps[key]? <;> rfl

@[simp] theorem arrangement_ofRules (rules : Rules) :
    (WebDoc.ofRules rules).arrangement = rules.arrangement := by
  refine congrArg₂ Arrangement.mk (funext fun gid => ?_) (funext fun key => ?_)
  · rw [WebDoc.ofRules, ExtTreeMap.getElem?_map]
    cases rules.groups[gid]? <;> rfl
  · rw [WebDoc.ofRules, ExtTreeMap.getElem?_map]
    cases rules.apps[key]? <;> rfl

/-! ## What an edit does to it -/

section Edits

variable {doc : WebDoc} {gid key : String}

/-- Edits of a group that are not about its members. -/
theorem arrangement_changeGroup {f : WebGroup → WebGroup} (hf : ∀ g, (f g).members = g.members) :
    (doc.changeGroup gid f).1.arrangement = doc.arrangement := by
  refine congrArg₂ Arrangement.mk (funext fun g => ?_) rfl
  simp only [WebDoc.changeGroup, getElem?_modify_eq]
  split_ifs
  · cases doc.groups[g]? with
    | none => rfl
    | some w => exact hf w
  · rfl

/-- Edits of the rule of a group. -/
theorem arrangement_changeRule_group (gid : String) (f : WebRule → WebRule × Bool) :
    (doc.changeRule (.group gid) f).1.arrangement = doc.arrangement := by
  unfold WebDoc.changeRule
  cases doc.owned (.group gid) with
  | none => rfl
  | some rule =>
      have hchange := @arrangement_changeGroup doc gid (fun g => { g with rule := (f rule).1 })
      exact hchange fun _ => rfl

/-- Edits of the rule of an app leave the groups alone, and the other apps. -/
theorem arrangement_changeRule_app (key : String) (f : WebRule → WebRule × Bool) :
    (doc.changeRule (.app key) f).1.arrangement.members = doc.arrangement.members ∧
      ∀ k, (doc.changeRule (.app key) f).1.arrangement.on k = true →
        k = key ∨ doc.arrangement.on k = true := by
  refine ⟨rfl, fun k hk => ?_⟩
  by_cases hsame : k = key
  · exact .inl hsame
  · refine .inr ?_
    simp only [WebDoc.arrangement, WebDoc.changeRule, WebDoc.owned, WebDoc.setOwned,
      getElem?_insert_eq, if_neg (Ne.symm hsame)] at hk ⊢
    exact hk

theorem members_toggleApp_on (key gid : String) : (doc.toggleApp key true).arrangement.members gid =
    (doc.arrangement.members gid).erase key := by
  simp only [WebDoc.arrangement, WebDoc.toggleApp, if_true, ExtTreeMap.getElem?_map]
  cases doc.groups[gid]? <;> rfl

theorem on_toggleApp {on : Bool} {k : String}
    (h : (doc.toggleApp key on).arrangement.on k = true) :
    k = key ∧ on = true ∨ doc.arrangement.on k = true := by
  cases on with
  | true =>
      by_cases hsame : k = key
      · exact .inl ⟨hsame, rfl⟩
      · simp only [WebDoc.arrangement, WebDoc.toggleApp, if_true, getElem?_insert_eq,
          if_neg (Ne.symm hsame)] at h
        exact .inr h
  | false =>
      refine .inr ?_
      simp only [WebDoc.arrangement, WebDoc.toggleApp, Bool.false_eq_true, if_false,
        getElem?_modify_eq] at h ⊢
      split_ifs at h
      · cases hrule : doc.apps[k]? <;> simp [hrule] at h
      · exact h

/-- Does this edit take an app into a group it is not in? -/
theorem joins_iff {on : Bool} : (on && doc.groups[gid]?.any fun g => key ∉ g.members) = true ↔
    on = true ∧ ∃ w, doc.groups[gid]? = some w ∧ key ∉ w.members := by
  cases doc.groups[gid]? <;> simp

/-- Taking an app out of a group, or into one it is already in. -/
theorem arrangement_toggleMember {on : Bool}
    (h : ¬ (on = true ∧ ∃ w, doc.groups[gid]? = some w ∧ key ∉ w.members)) :
    (∀ g, ((doc.toggleMember gid key on).1.arrangement.members g).Sublist
        (doc.arrangement.members g)) ∧
      (doc.toggleMember gid key on).1.arrangement.on = doc.arrangement.on := by
  have hjoins := Bool.eq_false_iff.mpr fun hjoins => h (joins_iff.mp hjoins)
  refine ⟨fun g => ?_, ?_⟩
  · simp only [WebDoc.arrangement, WebDoc.toggleMember, getElem?_modify_eq]
    split_ifs with hg
    · subst hg
      cases hw : doc.groups[gid]? with
      | none => exact List.Sublist.refl _
      | some w =>
          simp only [Option.map_some, Option.elim_some, WebDoc.setMember]
          split_ifs with hon hmem
          · exact List.Sublist.refl _
          · exact absurd ⟨hon, w, hw, hmem⟩ h
          · exact List.erase_sublist
    · exact List.Sublist.refl _
  · simp only [WebDoc.arrangement, WebDoc.toggleMember, hjoins, Bool.false_eq_true, if_false]

/-- Taking an app into a group it is not in yet. -/
theorem arrangement_join {w : WebGroup} (hw : doc.groups[gid]? = some w) (hkey : key ∉ w.members) :
    (∀ g, (doc.toggleMember gid key true).1.arrangement.members g =
        if g = gid then doc.arrangement.members gid ++ [key] else doc.arrangement.members g) ∧
      (doc.toggleMember gid key true).1.arrangement.on key = false ∧
      ∀ k, (doc.toggleMember gid key true).1.arrangement.on k = true →
        doc.arrangement.on k = true := by
  have hjoins : (true && doc.groups[gid]?.any fun g => key ∉ g.members) = true :=
    joins_iff.mpr ⟨rfl, w, hw, hkey⟩
  refine ⟨fun g => ?_, ?_, fun k hk => ?_⟩
  · simp only [WebDoc.arrangement, WebDoc.toggleMember, getElem?_modify_eq]
    by_cases hg : g = gid
    · subst hg
      simp [hw, WebDoc.setMember, hkey]
    · rw [if_neg (Ne.symm hg), if_neg hg]
  · simp only [WebDoc.arrangement, WebDoc.toggleMember, hjoins, if_true, getElem?_modify_eq]
    cases doc.apps[key]? <;> rfl
  · simp only [WebDoc.arrangement, WebDoc.toggleMember, hjoins, if_true, getElem?_modify_eq]
      at hk ⊢
    split_ifs at hk
    · cases hrule : doc.apps[k]? <;> simp [hrule] at hk
    · exact hk

/-- What the arrangement needs to stay exclusive: the app whose settings are
edited is in no group, and neither is one that is taken into a group. -/
def WebOp.Fits (doc : WebDoc) : WebOp → Prop
  | setRule (.app key) _ => doc.arrangement.Ungrouped key
  | editWindows (.app key) _ => doc.arrangement.Ungrouped key
  | toggleMember gid key true =>
      ∀ w, doc.groups[gid]? = some w → key ∉ w.members → doc.arrangement.Ungrouped key
  | _ => True

/-- **Such an edit keeps the arrangement exclusive.** -/
theorem exclusive_perform {op : WebOp} (h : doc.arrangement.Exclusive) (hop : op.Fits doc) :
    (op.perform doc).arrangement.Exclusive := by
  have hsame {a : Arrangement} (ha : a = doc.arrangement) : a.Exclusive := ha ▸ h
  have hrule {key : String} (f : WebRule → WebRule × Bool) (hkey : doc.arrangement.Ungrouped key) :
      (doc.changeRule (.app key) f).1.arrangement.Exclusive := by
    obtain ⟨hmembers, hon⟩ := @arrangement_changeRule_app doc key f
    refine h.switchOn (fun gid => ?_) hon
    rw [hmembers, List.erase_of_not_mem (hkey gid)]
  cases op with
  | createGroup now =>
      refine h.shrink (fun g => ?_) fun _ hk => hk
      show ((doc.groups.insert _ _)[g]?.elim [] WebGroup.members).Sublist _
      rw [getElem?_insert_eq]
      split_ifs
      · exact List.nil_sublist _
      · exact List.Sublist.refl _
  | toggleApp key on =>
      cases on with
      | true =>
          refine h.switchOn (fun gid => members_toggleApp_on key gid) fun k hk => ?_
          exact (on_toggleApp hk).imp_left And.left
      | false =>
          refine h.shrink (fun g => List.Sublist.refl _) fun k hk => ?_
          exact (on_toggleApp hk).resolve_left fun hon => nomatch hon.2
  | toggleGroup gid on => exact hsame (arrangement_changeGroup fun _ => rfl)
  | toggleMember gid key on =>
      by_cases hjoins : on = true ∧ ∃ w, doc.groups[gid]? = some w ∧ key ∉ w.members
      · obtain ⟨rfl, w, hw, hkey⟩ := hjoins
        obtain ⟨hmembers, hoff, hon⟩ := arrangement_join hw hkey
        exact h.join (hop w hw hkey) hmembers hoff hon
      · obtain ⟨hmembers, hon⟩ := arrangement_toggleMember hjoins
        exact h.shrink hmembers fun k hk => hon ▸ hk
  | deleteGroup gid =>
      refine h.shrink (fun g => ?_) fun _ hk => hk
      show ((doc.groups.erase gid)[g]?.elim [] WebGroup.members).Sublist _
      rw [getElem?_erase_eq]
      split_ifs
      · exact List.nil_sublist _
      · exact List.Sublist.refl _
  | setRule owner setting =>
      cases owner with
      | app key => exact hrule _ hop
      | group gid => exact hsame (arrangement_changeRule_group gid _)
  | setSharedPool gid val => exact hsame (arrangement_changeGroup fun _ => rfl)
  | setGroupName gid val => exact hsame (arrangement_changeGroup fun _ => rfl)
  | editWindows owner edit =>
      cases owner with
      | app key => exact hrule _ hop
      | group gid => exact hsame (arrangement_changeRule_group gid _)
  | setLanguage val => exact h
  | setTimezone val => exact h
  | setClearLogOnBoot val => exact h

end Edits

/-! ## The pages -/

/-- `currentView`, with `currentAppKey` and `currentGroupGid`. -/
inductive View where
  | apps
  | groups
  | module
  | appSet (key : String)
  | groupSet (gid : String)
  deriving DecidableEq

/-- The tabs of the navigation, and where `back` leads. -/
inductive Tab where
  | apps
  | groups
  | module

/-- `findGroupOf`.  A key is looked for in one group after the other; in which
order matters only where several have it. -/
def WebDoc.findGroupOf (key : String) (doc : WebDoc) : Option String :=
  (doc.groups.toList.find? fun p => key ∈ p.2.members).map Prod.fst

/-- The group of a key as a condition takes it: the empty id does not count. -/
def WebDoc.groupShown (key : String) (doc : WebDoc) : Option String :=
  (doc.findGroupOf key).filter (· ≠ "")

/-- The edits a view offers.  In the list of members an app of another group
cannot be selected. -/
def View.offers (doc : WebDoc) : View → WebOp → Bool
  | apps, .toggleApp _ _ => true
  | groups, .createGroup _ => true
  | groups, .toggleGroup _ _ => true
  | module, .setLanguage _ => true
  | module, .setTimezone _ => true
  | module, .setClearLogOnBoot _ => true
  | appSet key, .setRule (.app k) _ => k == key
  | appSet key, .editWindows (.app k) _ => k == key
  | groupSet gid, .setRule (.group g) _ => g == gid
  | groupSet gid, .editWindows (.group g) _ => g == gid
  | groupSet gid, .setSharedPool g _ => g == gid
  | groupSet gid, .setGroupName g _ => g == gid
  | groupSet gid, .deleteGroup g => g == gid
  | groupSet gid, .toggleMember g key _ =>
      g == gid && (doc.groupShown key).all fun other => other == gid
  | _, _ => false

/-- The page, and the rules file as the daemon has written it. -/
structure Page where
  memory : WebDoc
  disk : Rules
  view : View

/-- How `apply` ends: it may have replaced the file and fail to say so. -/
inductive SaveEnd where
  | done
  | unreported
  | failed

namespace Page

variable (p : Page)

/-- `loadRules`: a file that cannot be read leaves a fresh document.  Reading and
assigning are one step. -/
def load (readable : Bool) : Page :=
  { p with memory := if readable then .ofRules p.disk else .fresh }

/-- `saveRules`: whatever goes wrong, the document is read again. -/
def save (how : SaveEnd) (readable : Bool) : Page :=
  match Rules.ofJson p.memory.toJson, how with
  | some rules, .done => { p with disk := rules.sanitize }
  | some rules, .unreported => { p with disk := rules.sanitize }.load readable
  | _, _ => p.load readable

/-- `showView` for a tab. -/
def nav (readable : Bool) : Tab → Page
  | .apps => { p with view := .apps }.load readable
  | .groups => { p with view := .groups }.load readable
  | .module => { p with view := .module }

/-- `onAppCard`: an app in a group leads to the group, a missing rule nowhere. -/
def appCard (key : String) : Page :=
  match p.memory.groupShown key with
  | some gid => { p with view := .groupSet gid }
  | none => if p.memory.apps.contains key then { p with view := .appSet key } else p

/-- An edit and what its handler does after it.  The save ends within the handler. -/
def edit (op : WebOp) (how : SaveEnd) (reread readable : Bool) : Page :=
  let changed := { p with memory := op.perform p.memory }
  let saved := if (op.run p.memory).2 then changed.save how reread else changed
  match op with
  | .createGroup _ => saved.load readable
  | .deleteGroup _ => saved.nav readable .groups
  | _ => saved

end Page

/-- What happens on the page.  Reading the rules again is not bound to a view: a
list that was left may still be loading. -/
inductive PageEvent where
  | nav (tab : Tab) (readable : Bool)
  | reload (readable : Bool)
  | appCard (key : String)
  | groupCard (gid : String)
  | edit (op : WebOp) (how : SaveEnd) (reread readable : Bool)

def Page.next (p : Page) : PageEvent → Option Page
  | .nav tab readable => some (p.nav readable tab)
  | .reload readable => some (p.load readable)
  | .appCard key => if p.view = .apps then some (p.appCard key) else none
  | .groupCard gid => if p.view = .groups then some { p with view := .groupSet gid } else none
  | .edit op how reread readable =>
      if p.view.offers p.memory op then some (p.edit op how reread readable) else none

/-- The page opens over a rules file in which everything is managed once, and no
group has the empty id. -/
def webPages : System Page PageEvent :=
  .ofNext (fun p => p.disk.arrangement.Exclusive ∧ p.disk.groups[""]? = none ∧ p.view = .apps ∧
    ∃ readable : Bool, p.memory = if readable then .ofRules p.disk else .fresh) Page.next

/-! ## What the pages keep -/

/-- Everything is managed once, and the settings of an app are open only while
no group has it, in the document and in the file. -/
structure Page.Guarded (p : Page) : Prop where
  memory : p.memory.arrangement.Exclusive
  disk : p.disk.arrangement.Exclusive
  /-- no group has the empty id -/
  named : p.memory.groups[""]? = none ∧ p.disk.groups[""]? = none
  appSet : ∀ key, p.view = .appSet key →
    p.memory.arrangement.Ungrouped key ∧ p.disk.arrangement.Ungrouped key

/-- And the list of apps is opened over what the file has, or over nothing. -/
structure Page.Sound (p : Page) : Prop extends Page.Guarded p where
  apps : p.view = .apps → p.memory.arrangement = p.disk.arrangement ∨ p.memory.apps = ∅

section Pages

variable {p : Page} {key : String}

theorem exclusive_fresh : WebDoc.fresh.arrangement.Exclusive where
  once gid := by simp [WebDoc.arrangement, WebDoc.fresh]
  apart gid gid' key hkey := by simp [WebDoc.arrangement, WebDoc.fresh] at hkey
  alone key hkey := by simp [WebDoc.arrangement, WebDoc.fresh] at hkey

theorem ungrouped_fresh (key : String) : WebDoc.fresh.arrangement.Ungrouped key := by
  simp [Arrangement.Ungrouped, WebDoc.arrangement, WebDoc.fresh]

/-- A key that is found in no group is in none. -/
theorem ungrouped_of_findGroupOf {doc : WebDoc} (h : doc.findGroupOf key = none) :
    doc.arrangement.Ungrouped key := by
  intro gid hmem
  have hnone := List.find?_eq_none.mp (Option.map_eq_none_iff.mp h)
  simp only [WebDoc.arrangement] at hmem
  cases hg : doc.groups[gid]? with
  | none =>
      rw [hg] at hmem
      exact List.not_mem_nil hmem
  | some g =>
      rw [hg] at hmem
      have hlisted := ExtTreeMap.mem_toList_iff_getElem?_eq_some.mpr hg
      exact hnone _ hlisted (decide_eq_true hmem)

/-- What is found has the key. -/
theorem mem_of_findGroupOf {doc : WebDoc} {gid : String} (h : doc.findGroupOf key = some gid) :
    ∃ g, doc.groups[gid]? = some g ∧ key ∈ g.members := by
  obtain ⟨q, hq, rfl⟩ := Option.map_eq_some_iff.mp h
  have hmem : decide (key ∈ q.2.members) = true :=
    @List.find?_some _ (fun p : String × WebGroup => decide (key ∈ p.2.members)) _ _ hq
  exact ⟨q.2, ExtTreeMap.mem_toList_iff_getElem?_eq_some.mp (List.mem_of_find?_eq_some hq),
    of_decide_eq_true hmem⟩

/-- Where no group has the empty id, a key that no group is shown for is in none. -/
theorem ungrouped_of_groupShown {doc : WebDoc} (hnamed : doc.groups[""]? = none)
    (h : doc.groupShown key = none) : doc.arrangement.Ungrouped key := by
  refine ungrouped_of_findGroupOf (Option.eq_none_iff_forall_ne_some.mpr fun gid hfound => ?_)
  obtain ⟨g, hg, -⟩ := mem_of_findGroupOf hfound
  have hempty : gid = "" := by simpa [WebDoc.groupShown, hfound] using h
  rw [hempty, hnamed] at hg
  cases hg

/-- No edit makes a group with the empty id. -/
theorem named_perform (op : WebOp) {doc : WebDoc} (h : doc.groups[""]? = none) :
    (op.perform doc).groups[""]? = none := by
  have hmodify (gid : String) (f : WebGroup → WebGroup) :
      (doc.groups.modify gid f)[""]? = none := by
    rw [getElem?_modify_eq, h]
    exact ite_self _
  have hrule (owner : RuleOwner) (f : WebRule → WebRule × Bool) :
      (doc.changeRule owner f).1.groups[""]? = none := by
    unfold WebDoc.changeRule
    cases doc.owned owner with
    | none => exact h
    | some rule =>
        cases owner with
        | app key => exact h
        | group gid => exact hmodify gid _
  cases op with
  | createGroup now =>
      show (doc.groups.insert ("g" ++ toString now) _)[""]? = none
      rw [getElem?_insert_eq, if_neg, h]
      intro heq
      have hchars := congrArg String.toList heq
      simp at hchars
  | toggleApp key on =>
      cases on with
      | true => simp [WebOp.perform, WebOp.run, WebDoc.toggleApp, h]
      | false => exact h
  | deleteGroup gid =>
      show (doc.groups.erase gid)[""]? = none
      rw [getElem?_erase_eq, h]
      exact ite_self _
  | toggleGroup gid on => exact hmodify gid _
  | toggleMember gid key on => exact hmodify gid _
  | setRule owner setting => exact hrule owner _
  | setSharedPool gid val => exact hmodify gid _
  | setGroupName gid val => exact hmodify gid _
  | editWindows owner edit => exact hrule owner _
  | setLanguage val => exact h
  | setTimezone val => exact h
  | setClearLogOnBoot val => exact h

/-- **What a view offers fits** what the pages keep. -/
theorem fits_of_offers (h : p.Guarded) {op : WebOp} (hoffers : p.view.offers p.memory op = true) :
    op.Fits p.memory := by
  cases hview : p.view with
  | appSet own =>
      have hfree := (h.appSet own hview).1
      rw [hview] at hoffers
      cases op with
      | setRule owner setting =>
          cases owner with
          | app k => exact eq_of_beq hoffers ▸ hfree
          | group g => trivial
      | editWindows owner edit =>
          cases owner with
          | app k => exact eq_of_beq hoffers ▸ hfree
          | group g => trivial
      | toggleMember g k on => cases hoffers
      | _ => trivial
  | groupSet gid =>
      rw [hview] at hoffers
      cases op with
      | setRule owner setting => cases owner <;> trivial
      | editWindows owner edit => cases owner <;> trivial
      | toggleMember g k on =>
          cases on with
          | false => trivial
          | true =>
              obtain ⟨hg, hother⟩ := Bool.and_eq_true_iff.mp hoffers
              obtain rfl := eq_of_beq hg
              intro w hw hkey
              refine ungrouped_of_groupShown h.named.1 ?_
              cases hshown : p.memory.groupShown k with
              | none => rfl
              | some other =>
                  rw [hshown] at hother
                  obtain rfl : other = g := eq_of_beq hother
                  obtain ⟨w', hw', hmem⟩ :=
                    mem_of_findGroupOf (Option.filter_eq_some_iff.mp hshown).1
                  rw [hw] at hw'
                  exact absurd (Option.some.inj hw' ▸ hmem) hkey
      | _ => trivial
  | apps =>
      rw [hview] at hoffers
      cases op <;> trivial
  | groups =>
      rw [hview] at hoffers
      cases op <;> trivial
  | module =>
      rw [hview] at hoffers
      cases op <;> trivial

/-- An app whose own settings are open stays in no group. -/
theorem ungrouped_perform {doc : WebDoc} {op : WebOp} (h : doc.arrangement.Ungrouped key)
    (hoffers : (View.appSet key).offers doc op = true) :
    (op.perform doc).arrangement.Ungrouped key := by
  cases op with
  | setRule owner setting =>
      cases owner with
      | app k => exact fun gid => h gid
      | group g => cases hoffers
  | editWindows owner edit =>
      cases owner with
      | app k => exact fun gid => h gid
      | group g => cases hoffers
  | _ => cases hoffers

theorem sound_load (h : p.Guarded) (readable : Bool) : (p.load readable).Sound := by
  cases readable with
  | true =>
      refine ⟨⟨?_, h.disk, ⟨?_, h.named.2⟩, fun key hview => ⟨?_, (h.appSet key hview).2⟩⟩,
        fun _ => .inl ?_⟩
      · simpa [Page.load] using h.disk
      · simpa [Page.load, WebDoc.ofRules] using h.named.2
      · simpa [Page.load] using (h.appSet key hview).2
      · simp [Page.load]
  | false =>
      exact ⟨⟨exclusive_fresh, h.disk, ⟨by simp [Page.load, WebDoc.fresh], h.named.2⟩,
        fun key hview => ⟨ungrouped_fresh key, (h.appSet key hview).2⟩⟩, fun _ => .inr rfl⟩

/-- **However a save ends**, the page is sound after it. -/
theorem sound_save (h : p.Guarded) (how : SaveEnd) (readable : Bool) :
    (p.save how readable).Sound := by
  unfold Page.save
  cases hread : Rules.ofJson p.memory.toJson with
  | none => exact sound_load h readable
  | some rules =>
      have hwritten : rules.sanitize.arrangement = p.memory.arrangement := by
        rw [arrangement_sanitize, arrangement_of_readAs (readAs_of_ofJson hread)]
      have hnamed : rules.sanitize.groups[""]? = none := by
        have hrel := (readAs_of_ofJson hread).groups ""
        rw [h.named.1] at hrel
        rw [Rules.sanitize, ExtTreeMap.getElem?_map]
        generalize rules.groups[""]? = o at hrel
        cases hrel
        rfl
      have hguarded : Page.Guarded { p with disk := rules.sanitize } := by
        refine ⟨h.memory, ?_, ⟨h.named.1, hnamed⟩,
          fun key hview => ⟨(h.appSet key hview).1, ?_⟩⟩
        · rw [hwritten]
          exact h.memory
        · rw [hwritten]
          exact (h.appSet key hview).1
      cases how with
      | done => exact ⟨hguarded, fun _ => .inl hwritten.symm⟩
      | unreported => exact sound_load hguarded readable
      | failed => exact sound_load h readable

/-- In another view than the settings of an app less is needed. -/
theorem Page.Guarded.toView (h : p.Guarded) {view : View} (hview : ∀ key, view ≠ .appSet key) :
    Page.Guarded { p with view := view } :=
  ⟨h.memory, h.disk, h.named, fun key heq => absurd heq (hview key)⟩

theorem sound_nav (h : p.Guarded) (readable : Bool) (tab : Tab) : (p.nav readable tab).Sound := by
  cases tab with
  | apps => exact sound_load (h.toView (by simp)) readable
  | groups => exact sound_load (h.toView (by simp)) readable
  | module => exact ⟨h.toView (by simp), nofun⟩

/-- The settings of an app open for an app that is in no group. -/
theorem sound_appCard (h : p.Sound) (hview : p.view = .apps) (key : String) :
    (p.appCard key).Sound := by
  unfold Page.appCard
  cases hshown : p.memory.groupShown key with
  | some gid => exact ⟨h.toGuarded.toView (by simp), nofun⟩
  | none =>
      by_cases hrule : p.memory.apps.contains key = true
      · have hfree := ungrouped_of_groupShown h.named.1 hshown
        rw [if_pos hrule]
        refine ⟨⟨h.memory, h.disk, h.named, fun k hk => ?_⟩, nofun⟩
        obtain rfl := View.appSet.inj hk
        rcases h.apps hview with hsame | hnone
        · exact ⟨hfree, hsame ▸ hfree⟩
        · -- over an empty document there is no rule to open
          rw [hnone] at hrule
          simp at hrule
      · rw [if_neg hrule]
        exact h

/-- **Every edit a view offers keeps the page sound.** -/
theorem sound_edit (h : p.Sound) {op : WebOp} (hoffers : p.view.offers p.memory op = true)
    (how : SaveEnd) (reread readable : Bool) : (p.edit op how reread readable).Sound := by
  have hchanged : Page.Guarded { p with memory := op.perform p.memory } := by
    refine ⟨exclusive_perform h.memory (fits_of_offers h.toGuarded hoffers), h.disk,
      ⟨named_perform op h.named.1, h.named.2⟩,
      fun key hview => ⟨ungrouped_perform (h.appSet key hview).1 ?_, (h.appSet key hview).2⟩⟩
    rw [← show p.view = .appSet key from hview]
    exact hoffers
  have hsaved : Page.Sound (if (op.run p.memory).2 then
      { p with memory := op.perform p.memory }.save how reread
      else { p with memory := op.perform p.memory }) := by
    split_ifs with hsaves
    · exact sound_save hchanged how reread
    · -- the list of apps offers nothing that is not saved
      refine ⟨hchanged, fun hview => ?_⟩
      rw [show p.view = .apps from hview] at hoffers
      cases op with
      | toggleApp key on => exact absurd rfl hsaves
      | _ => cases hoffers
  unfold Page.edit
  cases op with
  | createGroup now => exact sound_load hsaved.toGuarded readable
  | deleteGroup gid => exact sound_nav hsaved.toGuarded readable .groups
  | _ => exact hsaved

theorem sound_next {p' : Page} (h : p.Sound) {event : PageEvent} (hnext : p.next event = some p') :
    p'.Sound := by
  cases event with
  | nav tab readable => exact Option.some.inj hnext ▸ sound_nav h.toGuarded readable tab
  | reload readable => exact Option.some.inj hnext ▸ sound_load h.toGuarded readable
  | appCard key =>
      simp only [Page.next] at hnext
      split_ifs at hnext with hview
      exact Option.some.inj hnext ▸ sound_appCard h hview key
  | groupCard gid =>
      simp only [Page.next] at hnext
      split_ifs at hnext
      exact Option.some.inj hnext ▸ ⟨h.toGuarded.toView (by simp), nofun⟩
  | edit op how reread readable =>
      simp only [Page.next] at hnext
      split_ifs at hnext with hoffers
      exact Option.some.inj hnext ▸ sound_edit h hoffers how reread readable

theorem sound_of_reachable (hp : webPages.Reachable p) : p.Sound := by
  refine System.ReachableWhen.invariant (?_ : ∀ s, webPages.init s → s.Sound)
    (fun s event s' hs _ hnext => sound_next hs hnext) hp
  rintro s ⟨hdisk, hnamed, hview, readable, hmemory⟩
  have hopened : Page.Guarded { s with memory := .fresh } := by
    refine ⟨exclusive_fresh, hdisk, ⟨by simp [WebDoc.fresh], hnamed⟩, fun key hkey => ?_⟩
    rw [show s.view = .appSet key from hkey] at hview
    cases hview
  have hload : s = Page.load { s with memory := .fresh } readable := by
    rw [Page.load, ← hmemory]
  rw [hload]
  exact sound_load hopened readable

/-- **An app is managed alone or by one group, never both**: in the document of the
page and in the rules file, whatever is tapped and however saves and reads end. -/
theorem exclusive_of_reachable (hp : webPages.Reachable p) :
    p.memory.arrangement.Exclusive ∧ p.disk.arrangement.Exclusive :=
  ⟨(sound_of_reachable hp).memory, (sound_of_reachable hp).disk⟩

end Pages

/-- A group is made, an app is taken into it, and the group is switched on. -/
def takenIn : List PageEvent :=
  [.nav .groups true, .edit (.createGroup 7) .done true true, .groupCard "g7",
    .edit (.toggleMember "g7" "0:com.game" true) .done true true, .nav .groups true,
    .edit (.toggleGroup "g7" true) .done true true]

def emptyPage : Page := ⟨.fresh, .default, .apps⟩

theorem reachable_emptyPage : webPages.Reachable emptyPage := by
  have hempty : Rules.default.arrangement = WebDoc.fresh.arrangement :=
    congrArg₂ Arrangement.mk (funext fun gid => by simp [Rules.default, WebDoc.fresh])
      (funext fun key => by simp [Rules.default, WebDoc.fresh])
  exact .init ⟨hempty ▸ exclusive_fresh, by simp [emptyPage, Rules.default], rfl, false, rfl⟩

theorem exclusive_of_reachable_takenIn : ∃ p, runFrom Page.next takenIn emptyPage = some p ∧
    p.disk.arrangement.members "g7" = ["0:com.game"] ∧ p.memory.arrangement.Exclusive ∧
      p.disk.arrangement.Exclusive := by
  have hrun : (runFrom Page.next takenIn emptyPage).map
      (fun p => p.disk.arrangement.members "g7") = some ["0:com.game"] := by decide +kernel
  obtain ⟨p, hp, hmembers⟩ := Option.map_eq_some_iff.mp hrun
  exact ⟨p, hp, hmembers,
    exclusive_of_reachable (System.reachable_runFrom reachable_emptyPage hp)⟩

/-- A group with the empty id does not keep the settings of its apps from opening. -/
example : (runFrom Page.next [.nav .apps true, .appCard "0:com.game",
    .edit (.setRule (.app "0:com.game") (.lockBlock true)) .done true true]
      ⟨.fresh, { Rules.default with
        apps := insertAll [("0:com.game", ⟨false, .default⟩)] ∅
        groups := insertAll [("", ⟨"", true, false, ["0:com.game"], .default⟩)] ∅ },
        .apps⟩).map (fun p => (p.disk.arrangement.members "", p.disk.arrangement.on "0:com.game")) =
    some (["0:com.game"], true) := by
  decide +kernel

/-! ## What the daemon makes of it -/

/-- The entry that decides about its keys: a group, or the rule of an app in none. -/
def Entry.Leads (rules : Rules) : Entry → Prop
  | app key _ => rules.arrangement.Ungrouped key
  | group _ _ => True

section Daemon

variable {eng : Engine} {entry : Entry} {uid : Uid} {now : NowParts} {screenOff : Bool}

theorem members_of_group {rules : Rules} {gid : String} {g : GroupRule}
    (h : Entry.group gid g ∈ rules.entries) : rules.arrangement.members gid = g.members := by
  simp [Rules.arrangement, mem_entries_group.mp h]

theorem on_of_app {rules : Rules} {key : String} {rule : AppRule}
    (h : Entry.app key rule ∈ rules.entries) : rules.arrangement.on key = rule.enabled := by
  simp [Rules.arrangement, mem_entries_app.mp h]

/-- **Where every app is managed once, one entry manages it**, as far as no two
apps share a uid. -/
theorem manages_of_exclusive (h : eng.rules.arrangement.Exclusive)
    (hshared : ∀ (k k' : String) (u : Uid), eng.uidOf[k]? = some u → eng.uidOf[k']? = some u →
      k = k') (hlisted : entry ∈ eng.rules.entries) (hleads : entry.Leads eng.rules)
    (hgoverns : entry.Governs eng.uidOf uid) : Manages eng.rules eng.uidOf entry uid := by
  refine ⟨hlisted, hgoverns, fun other hother hgoverns' => ?_⟩
  obtain ⟨key, hkey, huid⟩ := hgoverns
  obtain ⟨key', hkey', huid'⟩ := hgoverns'
  obtain rfl := hshared key' key uid huid' huid
  cases entry with
  | app own rule =>
      obtain rfl : key' = own := List.mem_singleton.mp hkey
      cases other with
      | app own' rule' =>
          obtain rfl : key' = own' := List.mem_singleton.mp hkey'
          rw [mem_entries_app] at hlisted hother
          rw [Option.some.inj (hlisted.symm.trans hother)]
          exact .inl rfl
      | group gid g => exact absurd (members_of_group hother ▸ hkey') (hleads gid)
  | group gid g =>
      have hmem : key' ∈ eng.rules.arrangement.members gid := members_of_group hlisted ▸ hkey
      cases other with
      | app own rule =>
          obtain rfl : key' = own := List.mem_singleton.mp hkey'
          -- the rule of an app in a group is off
          refine .inr (Bool.eq_false_iff.mpr fun hon => ?_)
          exact h.alone key' ((on_of_app hother).trans hon) gid hmem
      | group gid' g' =>
          obtain rfl := h.apart gid gid' key' hmem (members_of_group hother ▸ hkey')
          rw [mem_entries_group] at hlisted hother
          rw [Option.some.inj (hlisted.symm.trans hother)]
          exact .inl rfl

/-- **What a tick wants of an app** is the verdict of the one entry that manages
it, when the rules are those the pages have written. -/
theorem want_of_page {p : Page} (hp : webPages.Reachable p) (hrules : eng.rules = p.disk)
    (hshared : ∀ (k k' : String) (u : Uid), eng.uidOf[k]? = some u → eng.uidOf[k']? = some u →
      k = k') (hlisted : entry ∈ eng.rules.entries) (hleads : entry.Leads eng.rules)
    (hblockable : ∃ key ∈ entry.keys, eng.target key = some uid) :
    (want (eng.verdicts now screenOff))[uid]? = some (entry.blocks now screenOff uid eng) := by
  have hgoverns : entry.Governs eng.uidOf uid := by
    obtain ⟨key, hkey, htarget⟩ := hblockable
    exact ⟨key, hkey, (Option.filter_eq_some_iff.mp htarget).1⟩
  have hexclusive : eng.rules.arrangement.Exclusive := hrules ▸ (sound_of_reachable hp).disk
  exact want_of_manages (manages_of_exclusive hexclusive hshared hlisted hleads hgoverns)
    hblockable rfl

theorem sole_cooledUids (k k' : String) (u : Uid) (hk : cooledUids[k]? = some u)
    (hk' : cooledUids[k']? = some u) : k = k' := by
  have hkey {k : String} {u : Uid} (h : cooledUids[k]? = some u) : "0:com.game" = k := by
    simp only [cooledUids, insertAll, List.foldl_cons, List.foldl_nil, getElem?_insert_eq,
      ExtTreeMap.getElem?_empty] at h
    split_ifs at h with heq
    exact heq
  exact (hkey hk).symm.trans (hkey hk')

theorem want_of_page_takenIn : ∃ p g, runFrom Page.next takenIn emptyPage = some p ∧
    Entry.group "g7" g ∈ p.disk.entries ∧
      ∀ now screenOff, (want ({ Engine.blank .start with
          rules := p.disk, uidOf := cooledUids }.verdicts now screenOff))[(10001 : Uid)]? =
        some ((Entry.group "g7" g).blocks now screenOff 10001
          { Engine.blank .start with rules := p.disk, uidOf := cooledUids }) := by
  have hrun : (runFrom Page.next takenIn emptyPage).map
      (fun p => p.disk.groups["g7"]?.map GroupRule.members) = some (some ["0:com.game"]) := by
    decide +kernel
  obtain ⟨p, hp, hgroup⟩ := Option.map_eq_some_iff.mp hrun
  obtain ⟨g, hg, hmembers⟩ := Option.map_eq_some_iff.mp hgroup
  have htarget : Engine.target "0:com.game" { Engine.blank .start with uidOf := cooledUids } =
      some 10001 := by decide +kernel
  have hlisted := mem_entries_group.mpr hg
  refine ⟨p, g, hp, hlisted, fun now screenOff => ?_⟩
  refine want_of_page (System.reachable_runFrom reachable_emptyPage hp) rfl sole_cooledUids
    hlisted trivial ⟨"0:com.game", ?_, htarget⟩
  show "0:com.game" ∈ g.members
  rw [hmembers]
  exact List.mem_singleton_self _

end Daemon

end Ningshi
