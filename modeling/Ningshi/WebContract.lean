import Ningshi.ApplyTruth
import Ningshi.Lib.JsonCarry
import Ningshi.WebRules

/-!
# The rules document between WebUI and daemon

The WebUI writes its document as it is; the daemon reads it into its own types
and writes these back.  `ReadAs` relates a document to the rules it is read as:
missing members become defaults and nothing else changes, but the number of the
last group has no place in the daemon's rules.

`contract_iff` says that a document is read back with everything the WebUI wrote
exactly if it has no such number.
-/

namespace Ningshi

open Std FiniteMap JsonDoc Transition

/-! ## What the WebUI writes -/

def WebSettings.members (s : WebSettings) : List (String × Option Value) :=
  [("timezone", s.timezone.map .str), ("language", s.language.map .str),
    ("clear_log_on_boot", s.clearLogOnBoot.map .bool)]

def WebDuration.members (d : WebDuration) : List (String × Option Value) :=
  [("limit_minutes", some (.num d.limitMinutes)),
    ("freeze_minutes", d.freezeMinutes.map fun n : Nat => .num n), ("scope", some (.str d.scope))]

def WebDuration.toJson (d : WebDuration) : Value := .obj (present d.members)

/-- The members of a rule, without the switch of its owner. -/
def WebRule.ruleMembers (rule : WebRule) : List (String × Option Value) :=
  [("always_on", rule.alwaysOn.map .bool), ("lock_block", rule.lockBlock.map .bool),
    ("time_windows", rule.timeWindows.map TimeWindows.toJson),
    ("duration", rule.duration.map WebDuration.toJson)]

def WebRule.appMembers (rule : WebRule) : List (String × Option Value) :=
  ("enabled", rule.enabled.map .bool) :: rule.ruleMembers

def WebRule.toJson (rule : WebRule) : Value := .obj (present rule.appMembers)

def WebGroup.groupMembers (g : WebGroup) : List (String × Option Value) :=
  [("name", some (.str g.name)), ("enabled", g.rule.enabled.map .bool),
    ("shared_pool", some (.bool g.sharedPool)),
    ("members", some (.arr (g.members.map Value.str)))] ++ g.rule.ruleMembers

def WebGroup.toJson (g : WebGroup) : Value := .obj (present g.groupMembers)

def WebDoc.members (doc : WebDoc) : List (String × Option Value) :=
  [("version", some (.num doc.version)), ("settings", some (.obj (present doc.settings.members))),
    ("apps", some (ofMap id WebRule.toJson doc.apps)),
    ("groups", some (ofMap id WebGroup.toJson doc.groups)),
    ("group_seq", doc.groupSeq.map fun n : Nat => .num n)]

/-- `JSON.stringify(rules)` -/
def WebDoc.toJson (doc : WebDoc) : Value := .obj (present doc.members)

/-! ## What the daemon reads -/

def WebSettings.filled (s : WebSettings) : Settings :=
  ⟨s.timezone.getD "UTC", s.language.getD "en", s.clearLogOnBoot.getD false⟩

structure WebDuration.ReadAs (d : WebDuration) (r : DurationRule) : Prop where
  limitMinutes : r.limitMinutes.toNat = d.limitMinutes
  freezeMinutes : r.freezeMinutes.toNat = d.freezeMinutes.getD 0
  scope : r.scope = d.scope

/-- A rule and the switch of its owner. -/
structure WebRule.ReadAs (rule : WebRule) (enabled : Bool) (set : RuleSet) : Prop where
  enabled : enabled = rule.enabled.getD false
  alwaysOn : set.alwaysOn = rule.alwaysOn.getD false
  lockBlock : set.lockBlock = rule.lockBlock.getD false
  timeWindows : set.timeWindows = rule.windowsOf
  duration : rule.duration.elim (set.duration = .default) fun d => d.ReadAs set.duration

structure WebGroup.ReadAs (w : WebGroup) (g : GroupRule) : Prop where
  name : g.name = w.name
  sharedPool : g.sharedPool = w.sharedPool
  members : g.members = w.members
  rule : w.rule.ReadAs g.enabled g.rules

structure WebDoc.ReadAs (doc : WebDoc) (rules : Rules) : Prop where
  version : rules.version.toNat = doc.version
  settings : rules.settings = doc.settings.filled
  apps : ∀ key : String, Option.Rel (fun w a => WebRule.ReadAs w a.enabled a.rules)
    doc.apps[key]? rules.apps[key]?
  groups : ∀ gid : String, Option.Rel WebGroup.ReadAs doc.groups[gid]? rules.groups[gid]?

section Reading

theorem toNat_of_asU32 {n : Nat} {a : UInt32} (h : asU32 (.num n) = some a) : a.toNat = n := by
  obtain ⟨m, hm, rfl⟩ := Option.map_eq_some_iff.mp h
  obtain ⟨hnat, hlt⟩ := Option.filter_eq_some_iff.mp hm
  obtain rfl := Option.some.inj hnat
  exact UInt32.toNat_ofNat_of_lt (of_decide_eq_true hlt)

theorem readAs_duration {d : WebDuration} {r : DurationRule}
    (h : DurationRule.ofJson d.toJson = some r) : d.ReadAs r := by
  have hnames : (d.members.map Prod.fst).Nodup :=
    show ["limit_minutes", "freeze_minutes", "scope"].Nodup by decide
  have hlimit : fieldOr (present d.members) "limit_minutes" asU32 0 =
      asU32 (.num d.limitMinutes) := fieldOr_given hnames rfl 0
  have hfreeze : fieldOr (present d.members) "freeze_minutes" asU32 0 =
      (d.freezeMinutes.map fun n : Nat => Value.num n).elim (some 0) asU32 :=
    fieldOr_present hnames rfl 0
  have hscope : fieldOr (present d.members) "scope" asStr "foreground" = some d.scope :=
    (fieldOr_given hnames rfl "foreground").trans (asStr_str d.scope)
  simp only [DurationRule.ofJson, WebDuration.toJson, structMembers, hlimit, hfreeze, hscope,
    Option.bind_eq_bind, Option.bind_some] at h
  obtain ⟨limit, hlimit', h⟩ := Option.bind_eq_some_iff.mp h
  obtain ⟨freeze, hfreeze', h⟩ := Option.bind_eq_some_iff.mp h
  obtain rfl := Option.some.inj h
  refine ⟨toNat_of_asU32 hlimit', ?_, rfl⟩
  cases hd : d.freezeMinutes with
  | none =>
      rw [hd] at hfreeze'
      obtain rfl := Option.some.inj hfreeze'
      rfl
  | some n =>
      rw [hd] at hfreeze'
      exact toNat_of_asU32 hfreeze'

/-- A rule set is read from the members of its owner, which may have others. -/
theorem readAs_rule {rule : WebRule} {set : RuleSet} {enabled : Bool}
    (own : List (String × Option Value))
    (hown : ∀ f ∈ own, f.1 ∉ rule.ruleMembers.map Prod.fst)
    (hnames : ((own ++ rule.ruleMembers).map Prod.fst).Nodup)
    (hset : RuleSet.ofMembers (present (own ++ rule.ruleMembers)) = some set)
    (henabled : enabled = rule.enabled.getD false) : rule.ReadAs enabled set := by
  have hlookup {name : String} (hname : name ∈ rule.ruleMembers.map Prod.fst) :
      (own ++ rule.ruleMembers).lookup name = rule.ruleMembers.lookup name := by
    rw [List.lookup_append, List.lookup_eq_none_iff.mpr, Option.none_or]
    intro f hf
    rw [bne_iff_ne]
    rintro rfl
    exact hown f hf hname
  have hswitch (name : String) (a : Option Bool)
      (hfield : rule.ruleMembers.lookup name = some (a.map .bool))
      (hname : name ∈ rule.ruleMembers.map Prod.fst) :
      fieldOr (present (own ++ rule.ruleMembers)) name asBool false = some (a.getD false) :=
    fieldOr_encoded asBool_bool hnames ((hlookup hname).trans hfield) false
  have halwaysOn := hswitch "always_on" rule.alwaysOn rfl (by simp [WebRule.ruleMembers])
  have hlockBlock := hswitch "lock_block" rule.lockBlock rfl (by simp [WebRule.ruleMembers])
  have hwindows : fieldOr (present (own ++ rule.ruleMembers)) "time_windows" TimeWindows.ofJson
      .default = some rule.windowsOf :=
    fieldOr_encoded TimeWindows.ofJson_toJson hnames
      ((hlookup (by simp [WebRule.ruleMembers])).trans rfl) _
  have hduration : fieldOr (present (own ++ rule.ruleMembers)) "duration" DurationRule.ofJson
      .default = (rule.duration.map WebDuration.toJson).elim (some .default)
        DurationRule.ofJson :=
    fieldOr_present hnames ((hlookup (by simp [WebRule.ruleMembers])).trans rfl) _
  simp only [RuleSet.ofMembers, halwaysOn, hlockBlock, hwindows, hduration,
    Option.bind_eq_bind, Option.bind_some] at hset
  obtain ⟨duration, hread, hset⟩ := Option.bind_eq_some_iff.mp hset
  obtain rfl := Option.some.inj hset
  refine ⟨henabled, rfl, rfl, rfl, ?_⟩
  cases hd : rule.duration with
  | none =>
      rw [hd] at hread
      exact (Option.some.inj hread).symm
  | some d =>
      rw [hd] at hread
      exact readAs_duration hread

theorem readAs_app {rule : WebRule} {a : AppRule} (h : AppRule.ofJson rule.toJson = some a) :
    rule.ReadAs a.enabled a.rules := by
  have hnames : (rule.appMembers.map Prod.fst).Nodup :=
    show ["enabled", "always_on", "lock_block", "time_windows", "duration"].Nodup by decide
  have henabled : fieldOr (present rule.appMembers) "enabled" asBool false =
      some (rule.enabled.getD false) := fieldOr_encoded asBool_bool hnames rfl false
  replace h : AppRule.ofMembers (present rule.appMembers) = some a := read_of_flattened h
  simp only [AppRule.ofMembers, henabled, Option.bind_eq_bind, Option.bind_some] at h
  obtain ⟨set, hset, h⟩ := Option.bind_eq_some_iff.mp h
  obtain rfl := Option.some.inj h
  refine readAs_rule [("enabled", rule.enabled.map .bool)] ?_ hnames hset rfl
  simp [WebRule.ruleMembers]

theorem readAs_group {w : WebGroup} {g : GroupRule} (h : GroupRule.ofJson w.toJson = some g) :
    w.ReadAs g := by
  have hnames : (w.groupMembers.map Prod.fst).Nodup :=
    show ["name", "enabled", "shared_pool", "members", "always_on", "lock_block",
      "time_windows", "duration"].Nodup by decide
  have hname : fieldOr (present w.groupMembers) "name" asStr "" = some w.name :=
    (fieldOr_given hnames rfl "").trans (asStr_str w.name)
  have henabled : fieldOr (present w.groupMembers) "enabled" asBool false =
      some (w.rule.enabled.getD false) := fieldOr_encoded asBool_bool hnames rfl false
  have hshared : fieldOr (present w.groupMembers) "shared_pool" asBool false =
      some w.sharedPool := (fieldOr_given hnames rfl false).trans (asBool_bool w.sharedPool)
  have hmembers : fieldOr (present w.groupMembers) "members" (asList asStr) [] =
      some w.members := (fieldOr_given hnames rfl []).trans (asList_map asStr_str w.members)
  replace h : GroupRule.ofMembers (present w.groupMembers) = some g := read_of_flattened h
  simp only [GroupRule.ofMembers, hname, henabled, hshared, hmembers, Option.bind_eq_bind,
    Option.bind_some] at h
  obtain ⟨set, hset, h⟩ := Option.bind_eq_some_iff.mp h
  obtain rfl := Option.some.inj h
  refine ⟨rfl, rfl, rfl, ?_⟩
  refine readAs_rule [("name", some (.str w.name)), ("enabled", w.rule.enabled.map .bool),
    ("shared_pool", some (.bool w.sharedPool)),
    ("members", some (.arr (w.members.map Value.str)))] ?_ hnames hset rfl
  simp [WebRule.ruleMembers]

theorem readAs_settings {s : WebSettings} {settings : Settings}
    (h : Settings.ofJson (.obj (present s.members)) = some settings) :
    settings = s.filled := by
  have hnames : (s.members.map Prod.fst).Nodup :=
    show ["timezone", "language", "clear_log_on_boot"].Nodup by decide
  have htimezone : fieldOr (present s.members) "timezone" asStr "UTC" =
      some (s.timezone.getD "UTC") := fieldOr_encoded asStr_str hnames rfl "UTC"
  have hlanguage : fieldOr (present s.members) "language" asStr "en" =
      some (s.language.getD "en") := fieldOr_encoded asStr_str hnames rfl "en"
  have hclear : fieldOr (present s.members) "clear_log_on_boot" asBool false =
      some (s.clearLogOnBoot.getD false) := fieldOr_encoded asBool_bool hnames rfl false
  simp only [Settings.ofJson, structMembers, htimezone, hlanguage, hclear, Option.bind_eq_bind,
    Option.bind_some] at h
  exact (Option.some.inj h).symm

/-- A map of rules is read rule by rule. -/
theorem readAs_map {α β : Type} {enc : α → Value} {dec : Value → Option β} {rel : α → β → Prop}
    {m : KeyMap α} {m' : KeyMap β} (h : asMap some dec (ofMap id enc m) = some m')
    (hread : ∀ a b, dec (enc a) = some b → rel a b) (k : String) :
    Option.Rel rel m[k]? m'[k]? := by
  obtain ⟨hlookup, hdecoded⟩ := asMap_ofMap_eq_some h k
  cases ha : m[k]? with
  | none =>
      rw [hlookup, ha]
      exact .none
  | some a =>
      obtain ⟨b, hb, hk⟩ := hdecoded a ha
      rw [hk]
      exact .some (hread a b hb)

/-- **What a document is read as.** -/
theorem readAs_of_ofJson {doc : WebDoc} {rules : Rules}
    (h : Rules.ofJson doc.toJson = some rules) : doc.ReadAs rules := by
  have hnames : (doc.members.map Prod.fst).Nodup :=
    show ["version", "settings", "apps", "groups", "group_seq"].Nodup by decide
  have hversion : fieldOr (present doc.members) "version" asU32 0 = asU32 (.num doc.version) :=
    fieldOr_given hnames rfl 0
  have hsettings : fieldOr (present doc.members) "settings" Settings.ofJson .default =
      Settings.ofJson (.obj (present doc.settings.members)) := fieldOr_given hnames rfl _
  have happs : fieldOr (present doc.members) "apps" (asMap some AppRule.ofJson)
      (∅ : KeyMap AppRule) = asMap some AppRule.ofJson (ofMap id WebRule.toJson doc.apps) :=
    fieldOr_given hnames rfl ∅
  have hgroups : fieldOr (present doc.members) "groups" (asMap some GroupRule.ofJson)
      (∅ : KeyMap GroupRule) =
        asMap some GroupRule.ofJson (ofMap id WebGroup.toJson doc.groups) :=
    fieldOr_given hnames rfl ∅
  simp only [Rules.ofJson, WebDoc.toJson, structMembers, hversion, hsettings, happs, hgroups,
    Option.bind_eq_bind, Option.bind_some] at h
  obtain ⟨version, hversion', h⟩ := Option.bind_eq_some_iff.mp h
  obtain ⟨settings, hsettings', h⟩ := Option.bind_eq_some_iff.mp h
  obtain ⟨apps, happs', h⟩ := Option.bind_eq_some_iff.mp h
  obtain ⟨groups, hgroups', h⟩ := Option.bind_eq_some_iff.mp h
  obtain rfl := Option.some.inj h
  obtain rfl := readAs_settings hsettings'
  exact ⟨toNat_of_asU32 hversion', rfl, readAs_map happs' fun _ _ => readAs_app,
    readAs_map hgroups' fun _ _ => readAs_group⟩

end Reading

/-! ## What is written back -/

section Writing

/-- Clean weekdays are left alone. -/
theorem sanitizeDays_of_clean {days : List UInt8} (h : CleanDays days) :
    sanitizeDays days = days := by
  have hkeep : (days.filter fun d => 1 ≤ d && d ≤ 7) = days :=
    List.filter_eq_self.mpr fun d hd => by
      obtain ⟨hlow, hhigh⟩ := h.valid d hd
      rw [decide_eq_true hlow, decide_eq_true hhigh]
      rfl
  have hsorted : days.Pairwise (· ≤ ·) := h.sorted.imp UInt8.le_of_lt
  have hdistinct : days.destutter (· ≠ ·) = days :=
    List.destutter_of_isChain _ days (List.Pairwise.isChain (h.sorted.imp UInt8.ne_of_lt))
  rw [sanitizeDays, hkeep, hsorted.insertionSort_eq, hdistinct]

theorem sanitize_of_clean {set : RuleSet} (h : set.timeWindows.Clean) : set.sanitize = set := by
  have hwindow : ∀ w ∈ set.timeWindows.windows, w.sanitize = w := fun w hw => by
    rw [TimeWindow.sanitize, sanitizeDays_of_clean (h w hw)]
  have hwindows : set.timeWindows.windows.map TimeWindow.sanitize = set.timeWindows.windows := by
    rw [List.map_congr_left hwindow, List.map_id']
  rw [RuleSet.sanitize, hwindows]

theorem carries_duration {d : WebDuration} {r : DurationRule} (h : d.ReadAs r) :
    Carries d.toJson r.toJson := by
  refine carries_present_iff.mpr fun field hfield => ?_
  simp only [WebDuration.members, List.mem_cons, List.not_mem_nil, or_false] at hfield
  rcases hfield with rfl | rfl | rfl
  · refine fieldCarried_given (List.mem_cons_self) ?_
    rw [h.limitMinutes]
    exact .num _
  · refine fieldCarried_map (List.mem_cons_of_mem _ List.mem_cons_self) fun n hn => ?_
    rw [h.freezeMinutes, hn]
    exact .num _
  · refine fieldCarried_given (List.mem_cons_of_mem _ (List.mem_cons_of_mem _
      List.mem_cons_self)) ?_
    rw [h.scope]
    exact .str _

/-- The fields of a rule are carried by the members of its rule set, which may be
behind others. -/
theorem carries_rule {rule : WebRule} {enabled : Bool} {set : RuleSet}
    (own : List (String × Value)) (h : rule.ReadAs enabled set) :
    ∀ field ∈ rule.ruleMembers, FieldCarried (own ++ set.toMembers) field := by
  intro field hfield
  have hset {m : String × Value} (hm : m ∈ set.toMembers) : m ∈ own ++ set.toMembers :=
    List.mem_append_right own hm
  simp only [WebRule.ruleMembers, List.mem_cons, List.not_mem_nil, or_false] at hfield
  rcases hfield with rfl | rfl | rfl | rfl
  · exact fieldCarried_getD (hset (by simp [RuleSet.toMembers])) h.alwaysOn
  · exact fieldCarried_getD (hset (by simp [RuleSet.toMembers])) h.lockBlock
  · exact fieldCarried_getD (hset (by simp [RuleSet.toMembers])) h.timeWindows
  · have hmem : ("duration", set.duration.toJson) ∈ own ++ set.toMembers :=
      hset (by simp [RuleSet.toMembers])
    refine fieldCarried_map hmem fun d hd => ?_
    have hduration := h.duration
    rw [hd] at hduration
    exact carries_duration hduration

theorem carries_app {rule : WebRule} {a : AppRule} (h : rule.ReadAs a.enabled a.rules) :
    Carries rule.toJson a.toJson := by
  refine carries_present_iff.mpr fun field hfield => ?_
  rcases List.mem_cons.mp hfield with rfl | hrule
  · exact fieldCarried_getD List.mem_cons_self h.enabled
  · exact carries_rule [("enabled", .bool a.enabled)] h field hrule

theorem carries_group {w : WebGroup} {g : GroupRule} (h : w.ReadAs g) :
    Carries w.toJson g.toJson := by
  have hjson : g.toJson = .obj ([("name", .str w.name), ("enabled", .bool g.enabled),
      ("shared_pool", .bool w.sharedPool), ("members", .arr (w.members.map Value.str))] ++
        g.rules.toMembers) := by
    rw [GroupRule.toJson, h.name, h.sharedPool, h.members]
  rw [hjson]
  refine carries_present_iff.mpr fun field hfield => ?_
  rcases List.mem_append.mp hfield with hown | hrule
  · simp only [List.mem_cons, List.not_mem_nil, or_false] at hown
    rcases hown with rfl | rfl | rfl | rfl
    · exact fieldCarried_same (by simp)
    · exact fieldCarried_getD (by simp) h.rule.enabled
    · exact fieldCarried_same (by simp)
    · exact fieldCarried_same (by simp)
  · exact carries_rule _ h.rule field hrule

/-- An entry that is there is read as an entry. -/
theorem exists_of_rel {α β : Type} {rel : α → β → Prop} {o : Option α} {o' : Option β} {a : α}
    (h : Option.Rel rel o o') (ha : o = some a) : ∃ b, o' = some b ∧ rel a b := by
  subst ha
  cases h with
  | some hrel => exact ⟨_, rfl, hrel⟩

/-- An entry that is read was there. -/
theorem exists_source_of_rel {α β : Type} {rel : α → β → Prop} {o : Option α} {o' : Option β}
    {b : β} (h : Option.Rel rel o o') (hb : o' = some b) : ∃ a, o = some a ∧ rel a b := by
  subst hb
  cases h with
  | some hrel => exact ⟨_, rfl, hrel⟩

/-- The rules of a clean document need no clean-up. -/
theorem sanitize_of_readAs {doc : WebDoc} {rules : Rules} (hclean : doc.Clean)
    (h : doc.ReadAs rules) : rules.sanitize = rules := by
  have hwindows {rule : WebRule} {enabled : Bool} {set : RuleSet} (hrule : rule.Clean)
      (hread : rule.ReadAs enabled set) : set.sanitize = set :=
    sanitize_of_clean (hread.timeWindows ▸ clean_windowsOf hrule)
  have happs : (rules.apps.map fun _ a => { a with rules := a.rules.sanitize }) = rules.apps := by
    refine map_eq_self (f := fun a : AppRule => { a with rules := a.rules.sanitize })
      fun key a ha => ?_
    obtain ⟨w, hw, hread⟩ := exists_source_of_rel (h.apps key) ha
    rw [hwindows (hclean.apps key w hw) hread]
  have hgroups : (rules.groups.map fun _ g => { g with rules := g.rules.sanitize }) =
      rules.groups := by
    refine map_eq_self (f := fun g : GroupRule => { g with rules := g.rules.sanitize })
      fun gid g hg => ?_
    obtain ⟨w, hw, hread⟩ := exists_source_of_rel (h.groups gid) hg
    rw [hwindows (hclean.groups gid w hw) hread.rule]
  rw [Rules.sanitize, happs, hgroups]

theorem carries_settings (s : WebSettings) :
    Carries (.obj (present s.members)) s.filled.toJson := by
  refine carries_present_iff.mpr fun field hfield => ?_
  simp only [WebSettings.members, List.mem_cons, List.not_mem_nil, or_false] at hfield
  rcases hfield with rfl | rfl | rfl
  · exact fieldCarried_getD (List.mem_cons_self) rfl
  · exact fieldCarried_getD (List.mem_cons_of_mem _ List.mem_cons_self) rfl
  · exact fieldCarried_getD (List.mem_cons_of_mem _ (List.mem_cons_of_mem _
      List.mem_cons_self)) rfl

/-- **What the daemon writes back** carries the document, if this has no number
of the last group. -/
theorem carries_doc_iff {doc : WebDoc} {rules : Rules} (h : doc.ReadAs rules) :
    Carries doc.toJson rules.toJson ↔ doc.groupSeq = none := by
  rw [WebDoc.toJson, Rules.toJson, carries_present_iff]
  constructor
  · intro hcarried
    by_contra hseq
    obtain ⟨n, hn⟩ := Option.ne_none_iff_exists'.mp hseq
    have hfield := hcarried ("group_seq", some (.num n)) (by simp [WebDoc.members, hn])
    obtain ⟨v', hmem, -⟩ := hfield _ rfl
    simp at hmem
  · intro hseq field hfield
    simp only [WebDoc.members, List.mem_cons, List.not_mem_nil, or_false] at hfield
    rcases hfield with rfl | rfl | rfl | rfl | rfl
    · exact fieldCarried_given List.mem_cons_self (by rw [h.version]; exact .num _)
    · exact fieldCarried_given (List.mem_cons_of_mem _ List.mem_cons_self)
        (h.settings ▸ carries_settings doc.settings)
    · refine fieldCarried_given (List.mem_cons_of_mem _ (List.mem_cons_of_mem _
        List.mem_cons_self)) (carries_ofMap fun key w hw => ?_)
      obtain ⟨a, ha, hread⟩ := exists_of_rel (h.apps key) hw
      exact ⟨a, ha, carries_app hread⟩
    · refine fieldCarried_given (List.mem_cons_of_mem _ (List.mem_cons_of_mem _
        (List.mem_cons_of_mem _ List.mem_cons_self))) (carries_ofMap fun gid w hw => ?_)
      obtain ⟨g, hg, hread⟩ := exists_of_rel (h.groups gid) hw
      exact ⟨g, hg, carries_group hread⟩
    · rw [hseq]
      exact fun v hv => by cases hv

end Writing

/-! ## The round trip -/

def WebRule.ofRules (enabled : Bool) (set : RuleSet) : WebRule :=
  ⟨some enabled, some set.alwaysOn, some set.lockBlock, some set.timeWindows,
    some ⟨set.duration.limitMinutes.toNat, some set.duration.freezeMinutes.toNat,
      set.duration.scope⟩⟩

def WebGroup.ofRule (g : GroupRule) : WebGroup :=
  ⟨g.name, g.sharedPool, g.members, .ofRules g.enabled g.rules⟩

/-- The object a file of the daemon is parsed to. -/
def WebDoc.ofRules (rules : Rules) : WebDoc where
  version := rules.version.toNat
  settings := ⟨some rules.settings.timezone, some rules.settings.language,
    some rules.settings.clearLogOnBoot⟩
  apps := rules.apps.map fun _ a => .ofRules a.enabled a.rules
  groups := rules.groups.map fun _ g => .ofRule g
  groupSeq := none

/-- It is the object of that file. -/
theorem toJson_ofRules (rules : Rules) : (WebDoc.ofRules rules).toJson = rules.toJson := by
  have happs : ofMap id WebRule.toJson (WebDoc.ofRules rules).apps =
      ofMap id AppRule.toJson rules.apps := by
    simp only [ofMap, WebDoc.ofRules, ExtTreeMap.toList_map, List.map_map]
    rfl
  have hgroups : ofMap id WebGroup.toJson (WebDoc.ofRules rules).groups =
      ofMap id GroupRule.toJson rules.groups := by
    simp only [ofMap, WebDoc.ofRules, ExtTreeMap.toList_map, List.map_map]
    rfl
  rw [WebDoc.toJson, WebDoc.members, happs, hgroups]
  rfl

/-- The documents the WebUI starts to edit: a fresh one, and what the daemon has
made of an edited one. -/
inductive Loaded : WebDoc → Prop
  | fresh : Loaded .fresh
  | readBack {doc : WebDoc} {ops : List WebOp} {rules : Rules} (h : Loaded doc)
      (hread : Rules.ofJson (doc.edited ops).toJson = some rules) :
      Loaded (.ofRules rules.sanitize)

theorem Loaded.groupSeq_eq_none {doc : WebDoc} (h : Loaded doc) : doc.groupSeq = none := by
  cases h with
  | fresh => rfl
  | readBack _ _ => rfl

/-- What a clean document is read as is clean. -/
theorem clean_ofRules {doc : WebDoc} {rules : Rules} (hclean : doc.Clean)
    (h : doc.ReadAs rules) : (WebDoc.ofRules rules).Clean := by
  have hrule {rule : WebRule} {enabled : Bool} {set : RuleSet} (hclean : rule.Clean)
      (hread : rule.ReadAs enabled set) : (WebRule.ofRules enabled set).Clean := by
    intro tw htw
    obtain rfl : set.timeWindows = tw := Option.some.inj htw
    rw [hread.timeWindows]
    exact clean_windowsOf hclean
  constructor
  · intro key rule hr
    rw [WebDoc.ofRules, ExtTreeMap.getElem?_map] at hr
    obtain ⟨a, ha, rfl⟩ := Option.map_eq_some_iff.mp hr
    obtain ⟨w, hw, hread⟩ := exists_source_of_rel (h.apps key) ha
    exact hrule (hclean.apps key w hw) hread
  · intro gid g hg
    rw [WebDoc.ofRules, ExtTreeMap.getElem?_map] at hg
    obtain ⟨b, hb, rfl⟩ := Option.map_eq_some_iff.mp hg
    obtain ⟨w, hw, hread⟩ := exists_source_of_rel (h.groups gid) hb
    exact hrule (hclean.groups gid w hw) hread.rule

theorem Loaded.clean {doc : WebDoc} (h : Loaded doc) : doc.Clean := by
  induction h with
  | fresh => exact clean_fresh
  | @readBack _ ops _ _ hread ih =>
      have hreadAs := readAs_of_ofJson hread
      have hedited := clean_edited ops ih
      rw [sanitize_of_readAs hedited hreadAs]
      exact clean_ofRules hedited hreadAs

/-- What the rules file has now carries the document. -/
def WebDoc.InFile (doc : WebDoc) (s : Sys) : Prop :=
  ∃ v, s.fs.rules.map File.content = some (.json v) ∧ Carries doc.toJson v

section RoundTrip

variable {env : Env} {doc : WebDoc} {s s' : Sys}

/-- The file after a successful apply of a clean document. -/
theorem inFile_iff (hclean : doc.Clean)
    (happly : applyRulesFile env (some (.json doc.toJson)) s = .ok s') :
    doc.InFile s' ↔ doc.groupSeq = none := by
  rcases applyRulesFile_cases env (some (.json doc.toJson)) s with herr | ⟨rules, haccepts, hstate⟩
  · rw [herr] at happly
    cases happly
  have hread : doc.ReadAs rules := readAs_of_ofJson haccepts.parsed
  have hfile : s'.fs.rules.map File.content = some (.json rules.toJson) := by
    rw [happly] at hstate
    rw [show s' = _ from hstate, rulesFile_reload, Sys.writeRules, sanitize_of_readAs hclean hread]
    rfl
  rw [← carries_doc_iff hread]
  constructor
  · rintro ⟨v, hv, hcarries⟩
    rw [hfile] at hv
    obtain ⟨rfl⟩ := Option.some.inj hv
    exact hcarries
  · exact fun hcarries => ⟨_, hfile, hcarries⟩

/-- **A document comes back with everything in it exactly if no group has been
created since it was read.** -/
theorem contract_iff (hdoc : Loaded doc) {ops : List WebOp}
    (happly : applyRulesFile env (some (.json (doc.edited ops).toJson)) s = .ok s') :
    (doc.edited ops).InFile s' ↔ ∀ now, WebOp.createGroup now ∉ ops := by
  rw [inFile_iff (clean_edited ops hdoc.clean) happly, groupSeq_edited]
  exact and_iff_right hdoc.groupSeq_eq_none

end RoundTrip

/-- One app is switched on. -/
theorem contract_switchedOn : (WebDoc.fresh.edited [.toggleApp "0:com.a" true]).InFile
      (applyRulesFile (.quiet 200)
        (some (.json (WebDoc.fresh.edited [.toggleApp "0:com.a" true]).toJson))
        runningOnFile).state ↔
    ∀ now, WebOp.createGroup now ∉ [WebOp.toggleApp "0:com.a" true] :=
  contract_iff .fresh (Outcome.eq_ok_of_isOk (by decide +kernel))

/-- The number of the first group is gone when the document is read back. -/
theorem not_inFile_created : ¬ ∀ (doc : WebDoc) (ops : List WebOp) (env : Env) (s s' : Sys),
    Loaded doc → applyRulesFile env (some (.json (doc.edited ops).toJson)) s = .ok s' →
      (doc.edited ops).InFile s' := by
  intro h
  have hok : (applyRulesFile (.quiet 200)
      (some (.json (WebDoc.fresh.edited [.createGroup 5]).toJson)) runningOnFile).isOk = true := by
    decide +kernel
  have hfile := h .fresh [.createGroup 5] _ _ _ .fresh (Outcome.eq_ok_of_isOk hok)
  have hseq := (inFile_iff (clean_edited _ clean_fresh) (Outcome.eq_ok_of_isOk hok)).mp hfile
  cases hseq

end Ningshi
