import Ningshi.CooldownCycle
import Ningshi.LiveScan
import Ningshi.Lib.Countdown

/-!
# A limit takes effect in time

An app whose only rule has a duration limit is used without a pause.  Its
counter is brought up to date by each tick, by at most a minute, and nothing
else moves it: a cooldown that starts it again has blocked the app before.

`blocked_within_limit` says that the app is blocked before it has been used for
more than a minute over the limit, whatever the scope of the limit is, whether
its members share a pool or not, and whether a cooldown follows or not.
-/

namespace Ningshi

open Std FiniteMap Transition Countdown

/-! ## What has to hold -/

/-- The rule of an app that is managed by a group, switched off. -/
def Entry.ParkedFor : Entry → Entry → Prop
  | app _ rule, group _ _ => rule.enabled = false
  | _, _ => False

/-- But for parked rules the entry is the only one about the uid, whether the others
are enabled or not: a verdict of theirs could come last. -/
structure Manages (rules : Rules) (uidOf : UidOf) (entry : Entry) (uid : Uid) : Prop where
  listed : entry ∈ rules.entries
  governs : entry.Governs uidOf uid
  alone : ∀ other ∈ rules.entries, other.Governs uidOf uid →
    other = entry ∨ other.ParkedFor entry

/-- It is enabled and has a limit. -/
structure Limits (rules : Rules) (uidOf : UidOf) (entry : Entry) (uid : Uid) : Prop
    extends Manages rules uidOf entry uid where
  enabled : entry.enabled = true
  limited : 0 < entry.duration.limitMinutes

/-- A process of the uid is in the foreground. -/
def ProcView.Shows (view : ProcView) (uid : Uid) : Prop :=
  ∃ pid ∈ topAppPids view.topApp, pid ∈ view.pids.getD [] ∧ view.pidUid pid = some uid

/-- The uid is in use in the sense of a scope. -/
def ProcView.InUse (view : ProcView) (uid : Uid) (scope : String) : Prop :=
  if scope == "background" then
    view.Lists uid ∧ ∀ pid ∈ topAppPids view.topApp, view.pidUid pid ≠ some uid
  else if scope == "any" then view.Lists uid
  else view.Shows uid

/-- An app or group that is used without a pause during a run, and could be blocked. -/
structure InUseThroughout (entry : Entry) (uid : Uid) (run : List TickStep) : Prop where
  inUse : ∀ step ∈ run, step.env.procs.InUse uid entry.duration.scope
  /-- Its uid is no system uid and its package not protected. -/
  blockable : ∀ step ∈ run, ∃ key ∈ entry.keys, step.mid.eng.target key = some uid
  /-- The ticks are at most a minute apart. -/
  paced : run.IsChain fun a b => a.now ≤ b.now ∧ b.now ≤ a.now + maxTickSecs

/-- Usage under a scope, before it is cut off at zero. -/
def Engine.netUsage (uid : Uid) (scope : String) (eng : Engine) : Int :=
  if scope == "background" then (eng.usageOf uid : Int) - eng.fgOf uid
  else if scope == "any" then eng.usageOf uid
  else eng.fgOf uid

/-! ## What a tick counts -/

section Counting

variable {rules : Rules} {uidOf : UidOf} {env : Env} {eng eng' : Engine} {entry : Entry}
  {uid : Uid} {scope : String}

theorem toNat_netUsage (uid : Uid) (scope : String) (eng : Engine) :
    (eng.netUsage uid scope).toNat = eng.scopedUsage uid scope := by
  unfold Engine.netUsage Engine.scopedUsage
  split_ifs <;> omega

theorem netUsage_congr (h : eng'.usageOf uid = eng.usageOf uid ∧ eng'.fgOf uid = eng.fgOf uid) :
    eng'.netUsage uid scope = eng.netUsage uid scope := by
  unfold Engine.netUsage
  rw [h.1, h.2]

theorem netUsage_of_reset (h : eng.usageOf uid = 0 ∧ eng.fgOf uid = 0) :
    eng.netUsage uid scope = 0 := by
  unfold Engine.netUsage
  rw [h.1, h.2]
  split_ifs <;> rfl

/-- The rule set of an enabled entry is looked at. -/
theorem ruleSet_mem_enabledSets (hlisted : entry ∈ rules.entries)
    (henabled : entry.enabled = true) : entry.ruleSet ∈ rules.enabledSets := by
  rcases List.mem_append.mp hlisted with happ | hgroup
  · obtain ⟨p, hp, rfl⟩ := List.mem_map.mp happ
    refine List.mem_append_left _ (List.mem_map_of_mem (List.mem_filter.mpr ⟨?_, henabled⟩))
    exact List.mem_map_of_mem hp
  · obtain ⟨p, hp, rfl⟩ := List.mem_map.mp hgroup
    refine List.mem_append_right _ (List.mem_map_of_mem (List.mem_filter.mpr ⟨?_, henabled⟩))
    exact List.mem_map_of_mem hp

theorem needsUsage_of_limited (hlisted : entry ∈ rules.entries) (henabled : entry.enabled = true)
    (hlimited : 0 < entry.duration.limitMinutes) : rules.needsUsage = true :=
  List.any_eq_true.mpr
    ⟨_, ruleSet_mem_enabledSets hlisted henabled, decide_eq_true hlimited⟩

/-- A limit on anything but foreground time asks for the live scan. -/
theorem needsLiveScan_of_scope (hlisted : entry ∈ rules.entries)
    (henabled : entry.enabled = true) (hlimited : 0 < entry.duration.limitMinutes)
    (hscope : entry.duration.scope ≠ "foreground") : rules.needsLiveScan = true :=
  List.any_eq_true.mpr ⟨_, ruleSet_mem_enabledSets hlisted henabled,
    Bool.and_eq_true_iff.mpr ⟨decide_eq_true hlimited, bne_iff_ne.mpr hscope⟩⟩

/-- The uids of an enabled entry with a limit are counted. -/
theorem mem_durationTargets (hlisted : entry ∈ eng.rules.entries)
    (henabled : entry.enabled = true) (hlimited : 0 < entry.duration.limitMinutes)
    (hgoverns : entry.Governs eng.uidOf uid) : uid ∈ eng.durationTargets := by
  have hlimited' := decide_eq_true hlimited
  rw [Engine.durationTargets, ExtTreeSet.mem_ofList, List.contains_iff_mem]
  rcases List.mem_append.mp hlisted with happ | hgroup
  · obtain ⟨p, hp, rfl⟩ := List.mem_map.mp happ
    obtain ⟨key, hkey, huid⟩ := hgoverns
    obtain rfl := List.mem_singleton.mp hkey
    refine List.mem_append_left _ (List.mem_filterMap.mpr ⟨p.1, List.mem_map_of_mem ?_, huid⟩)
    exact List.mem_filter.mpr ⟨hp, Bool.and_eq_true_iff.mpr ⟨henabled, hlimited'⟩⟩
  · obtain ⟨p, hp, rfl⟩ := List.mem_map.mp hgroup
    refine List.mem_append_right _ (List.mem_flatMap.mpr ⟨p.2, List.mem_filter.mpr ⟨?_, ?_⟩,
      List.mem_filterMap.mpr hgoverns⟩)
    · exact List.mem_map_of_mem hp
    · exact Bool.and_eq_true_iff.mpr ⟨henabled, hlimited'⟩

/-- A target with a process in the foreground is seen there, with and without the scan. -/
theorem mem_fg_of_shows {needLive : Bool} (h : env.procs.Shows uid)
    (htarget : uid ∈ eng.durationTargets) : uid ∈ (eng.seenUids needLive env).2 := by
  obtain ⟨pid, htop, hlisted, huid⟩ := h
  cases needLive with
  | false => exact mem_fg_of_skip_iff.mpr ⟨htarget, pid, htop, huid⟩
  | true =>
      exact mem_fg_of_scan_iff.mpr
        ⟨htarget, pid, hlisted, htop, one_lt_of_mem_topAppPids htop, huid⟩

/-- **Use is counted**: the usage under the scope grows by the time that has passed. -/
theorem netUsage_accrue (hlisted : entry ∈ eng.rules.entries) (henabled : entry.enabled = true)
    (hlimited : 0 < entry.duration.limitMinutes) (hgoverns : entry.Governs eng.uidOf uid)
    (huse : env.procs.InUse uid entry.duration.scope) :
    (eng.accrue env).netUsage uid entry.duration.scope =
      eng.netUsage uid entry.duration.scope + eng.elapsedAt env := by
  have htarget := mem_durationTargets hlisted henabled hlimited hgoverns
  have hcounted : eng.countedTime env = eng.elapsedAt env :=
    if_pos (needsUsage_of_limited hlisted henabled hlimited)
  have hscan := needsLiveScan_of_scope hlisted henabled hlimited
  obtain ⟨husage, hfg⟩ := counters_accrueWith eng.rules.needsLiveScan env eng uid
  rw [← accrue_eq_accrueWith, hcounted] at husage hfg
  unfold ProcView.InUse at huse
  unfold Engine.netUsage
  split_ifs at huse ⊢ with hback hany
  · -- the live scan sees the uid, and not in the foreground
    rw [hscan (by rw [eq_of_beq hback]; decide)] at husage hfg
    have hunseen : uid ∉ (eng.seenUids true env).2 := fun hmem => by
      obtain ⟨-, pid, -, htop, -, huid⟩ := mem_fg_of_scan_iff.mp hmem
      exact huse.2 pid htop huid
    rw [husage, hfg, if_pos ⟨htarget, mem_live_iff.mpr ⟨htarget, huse.1⟩⟩,
      if_neg fun h => hunseen h.2]
    push_cast
    omega
  · rw [hscan (by rw [eq_of_beq hany]; decide)] at husage
    rw [husage, if_pos ⟨htarget, mem_live_iff.mpr ⟨htarget, huse⟩⟩]
    push_cast
    rfl
  · rw [hfg, if_pos ⟨htarget, mem_fg_of_shows huse htarget⟩]
    push_cast
    rfl

end Counting

/-! ## One tick -/

section Steps

variable {rules : Rules} {uidOf : UidOf} {entry : Entry} {uid : Uid} {scope : String}
  {step a b : TickStep}

theorem not_parkedFor_of_enabled {other : Entry} (h : other.enabled = true) :
    ¬ other.ParkedFor entry := by
  intro hparked
  cases other with
  | group gid rule => cases hparked
  | app key rule =>
      cases entry with
      | app key' rule' => cases hparked
      | group gid rule' =>
          have hoff : rule.enabled = false := hparked
          have hon : rule.enabled = true := h
          rw [hoff] at hon
          cases hon

/-- No other enabled entry is about the uid. -/
theorem Manages.eq_of_enabled (h : Manages rules uidOf entry uid) {other : Entry}
    (hlisted : other ∈ rules.entries) (henabled : other.enabled = true)
    (hgoverns : other.Governs uidOf uid) : other = entry :=
  (h.alone other hlisted hgoverns).resolve_right (not_parkedFor_of_enabled henabled)

/-- A uid counts with itself. -/
theorem mem_pool_self (h : entry.Governs uidOf uid) : uid ∈ entry.pool uidOf uid := by
  cases entry with
  | app key rule => exact List.mem_singleton_self uid
  | group gid rule =>
      simp only [Entry.pool]
      split_ifs
      · exact List.mem_filterMap.mpr h
      · exact List.mem_singleton_self uid

/-- The usage of a uid is part of what the limit of its entry is compared with. -/
theorem scopedUsage_le_counted {eng : Engine} (h : entry.Governs eng.uidOf uid) :
    eng.scopedUsage uid entry.duration.scope ≤ entry.counted uid eng := by
  cases entry with
  | app key rule => exact le_rfl
  | group gid rule =>
      simp only [Entry.counted]
      split_ifs
      · exact List.le_sum_of_mem (List.mem_map_of_mem (List.mem_filterMap.mpr h))
      · exact le_rfl

/-- **A timer that does not rest long enough resets nothing**: where only `own` is
about the uid or keeps its deadline, and has no deadline that is over, the timers
leave the counters of the uid alone. -/
theorem counts_foldl {own : Timer} {now : Nat} {l : List Timer} {eng : Engine}
    (hpositive : ∀ t ∈ l, 0 < t.limit ∧ 0 < t.period)
    (habout : ∀ t ∈ l, uid ∈ t.uids eng → t = own) (hkey : ∀ t ∈ l, t.key = own.key → t = own)
    (hahead : own ∈ l → ∀ t, own.deadline eng = some t → now < t) :
    (l.foldl (Timer.maintain now) eng).usageOf uid = eng.usageOf uid ∧
      (l.foldl (Timer.maintain now) eng).fgOf uid = eng.fgOf uid := by
  induction l generalizing eng with
  | nil => exact ⟨rfl, rfl⟩
  | cons t l ih =>
      obtain ⟨⟨hlimit, hperiod⟩, hpositive⟩ := List.forall_mem_cons.mp hpositive
      have hmaintained := maintained now eng hlimit
      have huids (timer : Timer) : timer.uids (t.maintain now eng) = timer.uids eng :=
        uids_congr (uidOf_maintain now eng t)
      have hcounts : (t.maintain now eng).usageOf uid = eng.usageOf uid ∧
          (t.maintain now eng).fgOf uid = eng.fgOf uid := by
        cases hmaintained with
        | settled _ hsame =>
            rw [hsame]
            exact ⟨rfl, rfl⟩
        | started _ _ _ hcounts => exact hcounts.outside uid List.not_mem_nil
        | @ended deadline hsome hpassed _ hcounts =>
            refine hcounts.outside uid fun hmem => ?_
            obtain rfl := habout t List.mem_cons_self hmem
            have := hahead List.mem_cons_self deadline hsome
            omega
      have hahead' : own ∈ l → ∀ d, own.deadline (t.maintain now eng) = some d → now < d := by
        intro hown d hd
        have hbefore := hahead (List.mem_cons_of_mem t hown)
        by_cases hsame : t.key = own.key
        · obtain rfl := hkey t List.mem_cons_self hsame
          rcases settled_maintain hlimit hperiod with ⟨d', hd', hlt⟩ | ⟨hnone, -⟩
          · obtain rfl := Option.some.inj (hd.symm.trans hd')
            exact hlt
          · rw [hd] at hnone
            cases hnone
        · -- the deadline of another timer
          refine hbefore d ?_
          cases hmaintained with
          | settled _ hsettled => rw [hsettled] at hd; exact hd
          | started _ _ hdeadline =>
              rw [Timer.deadline, hdeadline, if_neg (Ne.symm hsame)] at hd
              exact hd
          | ended _ _ hdeadline =>
              rw [Timer.deadline, hdeadline, if_neg (Ne.symm hsame)] at hd
              exact hd
      obtain ⟨husage, hfg⟩ := ih hpositive
        (fun timer htimer hmem => habout timer (List.mem_cons_of_mem t htimer) (huids timer ▸ hmem))
        (fun timer htimer => hkey timer (List.mem_cons_of_mem t htimer)) hahead'
      exact ⟨husage.trans hcounts.1, hfg.trans hcounts.2⟩

/-- The timers about the uid are those of the entry. -/
theorem timer_of_manages {eng : Engine} (h : Manages eng.rules eng.uidOf entry uid) {t : Timer}
    (ht : t ∈ eng.timers) (hmem : uid ∈ t.uids eng) :
    t = entry.timer uid ∧ entry.duration.cools = true := by
  cases t with
  | uid v d =>
      obtain rfl := List.mem_singleton.mp hmem
      obtain ⟨other, hlisted, henabled, hcools, hgoverns, htimer⟩ := entry_of_mem_timers_uid ht
      obtain rfl := h.eq_of_enabled hlisted henabled hgoverns
      exact ⟨htimer.symm, hcools⟩
  | pool gid g =>
      obtain ⟨hlisted, henabled, hcools, hshared⟩ := entry_of_mem_timers_pool ht
      obtain rfl := h.eq_of_enabled hlisted henabled (List.mem_filterMap.mp hmem)
      exact ⟨by simp only [Entry.timer, hshared, if_true], hcools⟩

/-- So is one that keeps its deadline. -/
theorem timer_of_key {eng : Engine} (h : Manages eng.rules eng.uidOf entry uid) {t : Timer}
    (ht : t ∈ eng.timers) (hkey : t.key = (entry.timer uid).key) : t = entry.timer uid := by
  refine (timer_of_manages h ht ?_).1
  cases htimer : entry.timer uid with
  | uid v d =>
      have hself : (entry.timer uid).uids eng = [uid] := by
        rw [uids_timer, pool_of_timer_uid htimer]
      rw [htimer] at hkey hself
      obtain rfl : v = uid := List.cons.inj hself |>.1
      cases t with
      | uid v' d' => exact TimerKey.uid.inj hkey ▸ List.mem_singleton_self _
      | pool gid g => cases hkey
  | pool gid g =>
      rw [htimer] at hkey
      cases t with
      | uid v d => cases hkey
      | pool gid' g' =>
          obtain rfl := TimerKey.pool.inj hkey
          have hlisted := h.listed
          have hgoverns := h.governs
          rw [timer_eq_pool htimer] at hlisted hgoverns
          have hsame := (mem_entries_group.mp (entry_of_mem_timers_pool ht).1).symm.trans
            (mem_entries_group.mp hlisted)
          exact Option.some.inj hsame ▸ List.mem_filterMap.mpr hgoverns

/-- **Without a cooldown the cooldown step leaves the counters of the uid alone.** -/
theorem TickStep.keepsCounts (h : Limits step.mid.eng.rules step.mid.eng.uidOf entry uid)
    (hnone : entry.duration.cools = true → entry.cooldown uid step.counted = none) :
    step.prepared.usageOf uid = step.counted.usageOf uid ∧
      step.prepared.fgOf uid = step.counted.fgOf uid := by
  have hsetup : KeepsSetup step.mid.eng step.counted :=
    (keepsSetup_dailyReset _ _).trans (keepsSetup_accrue step.env _)
  have hmanages : Manages step.counted.rules step.counted.uidOf entry uid := by
    rw [hsetup.rules, hsetup.uidOf]
    exact h.toManages
  obtain ⟨screenOff, hprepare⟩ := prepare_eq step.env step.mid.eng
  rw [TickStep.prepared, hprepare, maintainCooldowns_eq]
  refine @counts_foldl uid (entry.timer uid) step.now _ _ (fun t ht => cools_of_mem_timers ht)
    (fun t ht hmem => (timer_of_manages hmanages ht hmem).1)
    (fun t ht hkey => timer_of_key hmanages ht hkey) fun hown t hstored => ?_
  have hmem : uid ∈ (entry.timer uid).uids step.counted := by
    rw [uids_timer]
    exact mem_pool_self hmanages.governs
  have hcooldown := hnone (timer_of_manages hmanages hown hmem).2
  have hdeadline : entry.cooldown uid step.counted = some t :=
    (deadline_timer step.counted entry uid).symm.trans hstored
  rw [hcooldown] at hdeadline
  cases hdeadline

/-- The cooldown step leaves the entry no deadline that is over. -/
theorem TickStep.deadline_ahead (step : TickStep)
    (h : Limits step.mid.eng.rules step.mid.eng.uidOf entry uid)
    (hcools : entry.duration.cools = true) {t : Nat}
    (hstored : entry.cooldown uid step.prepared = some t) : step.now < t := by
  have hsetup : KeepsSetup step.mid.eng step.counted :=
    (keepsSetup_dailyReset _ _).trans (keepsSetup_accrue step.env _)
  have htimer : entry.timer uid ∈ step.counted.timers := by
    refine timer_mem_timers ?_ h.enabled hcools ?_
    · rw [hsetup.rules]
      exact h.listed
    · rw [hsetup.uidOf]
      exact h.governs
  obtain ⟨screenOff, hprepare⟩ := prepare_eq step.env step.mid.eng
  rw [TickStep.prepared, hprepare] at hstored
  have hdeadline :
      (entry.timer uid).deadline (step.counted.maintainCooldowns step.now) = some t :=
    (deadline_timer _ entry uid).trans hstored
  rcases settled_maintainCooldowns htimer with ⟨t', ht', hahead⟩ | ⟨hnone, -⟩
  · obtain rfl := Option.some.inj (hdeadline.symm.trans ht')
    exact hahead
  · rw [hdeadline] at hnone
    cases hnone

/-- Where all verdicts about a uid agree, that is what is wanted. -/
theorem lastValue_verdicts {vs : List Verdict} {block : Bool}
    (hall : ∀ v ∈ vs, v.uid = uid → v.block = block) (hsome : ∃ v ∈ vs, v.uid = uid) :
    lastValue (vs.map fun v => (v.uid, v.block)) uid = some block := by
  rw [lastValue_eq_some_iff]
  · obtain ⟨v, hv, rfl⟩ := hsome
    exact List.mem_map.mpr ⟨v, hv, by rw [hall v hv rfl]⟩
  · intro a b ha hb
    obtain ⟨v, hv, hpair⟩ := List.mem_map.mp ha
    obtain ⟨w, hw, hpair'⟩ := List.mem_map.mp hb
    obtain ⟨huid, rfl⟩ := Prod.mk.inj hpair
    obtain ⟨huid', rfl⟩ := Prod.mk.inj hpair'
    rw [hall v hv huid, hall w hw huid']

/-- **The verdict of the managing entry is what is wanted**, whatever rules are
parked for it. -/
theorem want_of_manages {eng : Engine} {now : NowParts} {screenOff block : Bool}
    (h : Manages eng.rules eng.uidOf entry uid)
    (hblockable : ∃ key ∈ entry.keys, eng.target key = some uid)
    (hblocks : entry.blocks now screenOff uid eng = block) :
    (want (eng.verdicts now screenOff))[uid]? = some block := by
  have hgoverns {other : Entry} {key : String} (hkey : key ∈ other.keys)
      (htarget : eng.target key = some uid) : other.Governs eng.uidOf uid :=
    ⟨key, hkey, (Option.filter_eq_some_iff.mp htarget).1⟩
  have halone := h.alone
  obtain ⟨key, hkey, htarget⟩ := hblockable
  rw [getElem?_want]
  cases entry with
  | app ownKey rule =>
      refine lastValue_verdicts ?_ ⟨⟨key, uid, block⟩, mem_verdicts_iff.mpr
        ⟨_, h.listed, hkey, htarget, hblocks.symm⟩, rfl⟩
      rintro v hv rfl
      obtain ⟨other, hlisted, hkey', htarget', hblock⟩ := mem_verdicts_iff.mp hv
      rcases halone other hlisted (hgoverns hkey' htarget') with rfl | hparked
      · rw [hblock, hblocks]
      · cases other <;> cases hparked
  | group gid rule =>
      -- the verdicts of groups come last
      have hlast : lastValue ((eng.groupVerdicts now screenOff).map fun v => (v.uid, v.block))
          uid = some block := by
        refine lastValue_verdicts ?_ ⟨⟨key, uid, _⟩, List.mem_flatMap.mpr ⟨(gid, rule),
          ?_, List.mem_filterMap.mpr ⟨key, hkey, by rw [htarget]; rfl⟩⟩, rfl⟩
        · rintro v hv rfl
          obtain ⟨p, hp, hverdict⟩ := List.mem_flatMap.mp hv
          obtain ⟨member, hmember, hsome⟩ := List.mem_filterMap.mp hverdict
          obtain ⟨u, htarget', rfl⟩ := Option.map_eq_some_iff.mp hsome
          have hlisted : Entry.group p.1 p.2 ∈ eng.rules.entries :=
            List.mem_append_right _ (List.mem_map_of_mem hp)
          rcases halone _ hlisted (hgoverns hmember htarget') with hsame | hparked
          · rw [← hsame] at hblocks
            exact hblocks
          · cases hparked
        · exact ExtTreeMap.mem_toList_iff_getElem?_eq_some.mpr (mem_entries_group.mp h.listed)
      rw [Engine.verdicts, List.map_append, lastValue_append, hlast, Option.some_or]

/-- A limit that is reached, or a cooldown that runs, blocks the uid. -/
theorem TickStep.mem_blocked (h : Limits step.mid.eng.rules step.mid.eng.uidOf entry uid)
    (hblockable : ∃ key ∈ entry.keys, step.mid.eng.target key = some uid)
    (hext : entry.extended step.now uid step.prepared = false)
    (hused : entry.overLimit uid step.prepared = true ∨
      entry.cooling step.now uid step.prepared = true) : uid ∈ step.after.eng.blocked := by
  obtain ⟨mid, eng, hrefresh, henforce, hafter⟩ := tick_eq_ok_iff.mp step.ticked
  obtain rfl := Outcome.ok.inj (step.refreshed.symm.trans hrefresh)
  have hsetup := keepsSetup_prepare step.env step.mid.eng
  have hblocks (now : NowParts) (screenOff : Bool) (hnow : now.epoch = step.now) :
      entry.blocks now screenOff uid step.prepared = true := by
    rw [Entry.blocks_eq, h.enabled, hnow, hext]
    rcases hused with hover | hcooling
    · simp [eval, hover]
    · rw [hcooling, eval_of_cooldown]
      rfl
  have hwant : (want (step.prepared.judge step.env))[uid]? = some true := by
    refine want_of_manages ?_ (hblockable.imp fun key hkey => ⟨hkey.1, ?_⟩) (hblocks _ _ rfl)
    · rw [TickStep.prepared, hsetup.rules, hsetup.uidOf]
      exact h.toManages
    · rw [Engine.target, Engine.isProtected, TickStep.prepared, hsetup.uidOf, hsetup.protectedPkgs]
      exact hkey.2
  obtain ⟨_, _, _, hfinish⟩ := finishTick_frame step.env { step.mid with eng := eng }
  rw [hafter, hfinish]
  exact (mem_blocked_of_enforce henforce uid).mpr hwant

/-- A tick that follows another one on the same day, at most a minute later. -/
structure Continues (entry : Entry) (uid : Uid) (a b : TickStep) : Prop where
  alone : Limits b.mid.eng.rules b.mid.eng.uidOf entry uid
  inUse : b.env.procs.InUse uid entry.duration.scope
  counters : KeepsCounters a.prepared b.mid.eng
  cooldowns : KeepsCooldowns a.prepared b.mid.eng
  date : (b.mid.eng.nowParts b.now).date = (a.mid.eng.nowParts a.now).date
  forward : a.now ≤ b.now
  soon : b.now ≤ a.now + maxTickSecs

theorem Continues.live (h : Continues entry uid a b) : Live b.mid.eng.uidOf uid := by
  obtain ⟨key, -, hkey⟩ := h.alone.governs
  exact ⟨key, hkey⟩

/-- It finds the day and the clock reading of the tick before. -/
theorem Continues.seen (h : Continues entry uid a b) :
    b.mid.eng.lastDay = some (b.mid.eng.nowParts b.now).date ∧
      b.mid.eng.lastTick = some a.now := by
  obtain ⟨screenOff, hprepare⟩ := prepare_eq a.env a.mid.eng
  obtain ⟨_, _, _, _, hmaintained⟩ :=
    sameButUsage_maintainCooldowns a.env.epoch (a.mid.eng.count a.env)
  obtain ⟨hday, htick⟩ := seen_count a.env a.mid.eng
  rw [h.counters.lastDay, h.counters.lastTick, h.date, TickStep.prepared, hprepare, hmaintained]
  exact ⟨hday, htick⟩

theorem Continues.counted_eq (h : Continues entry uid a b) :
    b.counted = b.mid.eng.accrue b.env := by
  have hreset : b.mid.eng.dailyReset (b.mid.eng.nowParts b.env.epoch).date = b.mid.eng :=
    if_pos h.seen.1
  rw [TickStep.counted, Engine.count, hreset]

/-- **It counts on** from the counters the tick before has left. -/
theorem Continues.netUsage_counted (h : Continues entry uid a b) :
    b.counted.netUsage uid entry.duration.scope =
      a.prepared.netUsage uid entry.duration.scope + (b.now - a.now) := by
  have hforward := h.forward
  have hsoon := h.soon
  have helapsed : b.mid.eng.elapsedAt b.env = b.now - a.now := by
    rw [Engine.elapsedAt, h.seen.2, Option.elim_some]
    exact min_eq_left (by simp only [TickStep.now] at hsoon ⊢; omega)
  have hkept : b.mid.eng.netUsage uid entry.duration.scope =
      a.prepared.netUsage uid entry.duration.scope :=
    netUsage_congr ⟨congrArg (fun n => n.getD 0) (h.counters.usageSeconds.getElem? h.live),
      congrArg (fun n => n.getD 0) (h.counters.usageFg.getElem? h.live)⟩
  have hcounted := netUsage_accrue h.alone.listed h.alone.enabled h.alone.limited h.alone.governs
    h.inUse
  rw [h.counted_eq, hcounted, helapsed, hkept]
  omega

/-- An extension that is in force then was in force at the tick before. -/
theorem Continues.extended_before (h : Continues entry uid a b)
    (hext : entry.extended b.now uid b.prepared = true) :
    entry.extended a.now uid a.prepared = true := by
  obtain ⟨_, hprepare⟩ := prepare_eq b.env b.mid.eng
  obtain ⟨_, _, _, _, hmaintained⟩ :=
    sameButUsage_maintainCooldowns b.env.epoch (b.mid.eng.count b.env)
  obtain ⟨_, _, haccrue⟩ := accrue_eq b.env b.mid.eng
  have hcount : b.mid.eng.count b.env = b.mid.eng.accrue b.env := h.counted_eq
  have hearlier {deadline : Option Nat} (hahead : ahead deadline b.now = true) :
      ahead deadline a.now = true := by
    cases deadline with
    | none => cases hahead
    | some t => exact decide_eq_true (h.forward.trans_lt (of_decide_eq_true hahead))
  rw [TickStep.prepared, hprepare, hmaintained, hcount, haccrue] at hext
  cases entry with
  | app key rule =>
      have hkept := h.counters.extensionUntil.getElem? h.live
      exact hearlier (hkept ▸ hext)
  | group gid rule =>
      have hkept := h.counters.groupExtensionUntil
      exact hearlier (hkept ▸ hext)

/-- **What one tick adds**: unless the tick before has blocked the uid, its usage
is kept, and grows by the time that has passed. -/
theorem Continues.netUsage_prepared (h : Continues entry uid a b)
    (ha : Limits a.mid.eng.rules a.mid.eng.uidOf entry uid)
    (hresting : entry.cooling a.now uid a.prepared = false) :
    b.prepared.netUsage uid entry.duration.scope =
      a.prepared.netUsage uid entry.duration.scope + (b.now - a.now) := by
  have hnone : entry.duration.cools = true → entry.cooldown uid b.counted = none := by
    intro hcools
    rw [TickStep.finds_deadline h.counters h.cooldowns h.live h.date]
    cases hstored : entry.cooldown uid a.prepared with
    | none => rfl
    | some t =>
        -- after the cooldown step a deadline is ahead, and would cool the entry
        have hahead := a.deadline_ahead ha hcools hstored
        have hcooling : entry.cooling a.now uid a.prepared = true := by
          rw [Entry.cooling, hstored]
          exact decide_eq_true hahead
        rw [hresting] at hcooling
        cases hcooling
  rw [netUsage_congr (TickStep.keepsCounts h.alone hnone), h.netUsage_counted]

end Steps

/-! ## A run -/

section Runs

variable {rules : Rules} {uidOf : UidOf} {date : Int} {entry : Entry} {uid : Uid}
  {first : TickStep} {rest : List TickStep}

/-- The first tick leaves no less than nothing. -/
theorem netUsage_prepared_nonneg {step : TickStep}
    (h : Limits step.mid.eng.rules step.mid.eng.uidOf entry uid)
    (huse : step.env.procs.InUse uid entry.duration.scope)
    (hnet : 0 ≤ step.mid.eng.netUsage uid entry.duration.scope) :
    0 ≤ step.prepared.netUsage uid entry.duration.scope := by
  have hsetup := keepsSetup_dailyReset (step.mid.eng.nowParts step.env.epoch).date step.mid.eng
  have hreset : 0 ≤ (step.mid.eng.dailyReset (step.mid.eng.nowParts step.env.epoch).date).netUsage
      uid entry.duration.scope := by
    unfold Engine.dailyReset
    split_ifs
    · exact hnet
    · rw [netUsage_of_reset ⟨by simp [Engine.usageOf], by simp [Engine.fgOf]⟩]
  rw [← hsetup.rules, ← hsetup.uidOf] at h
  have hcounted : 0 ≤ step.counted.netUsage uid entry.duration.scope := by
    rw [TickStep.counted, Engine.count,
      netUsage_accrue h.listed h.enabled h.limited h.governs huse]
    omega
  obtain ⟨screenOff, hprepare⟩ := prepare_eq step.env step.mid.eng
  rw [TickStep.prepared, hprepare]
  refine maintainCooldowns_of_resets
    (p := fun eng => 0 ≤ eng.netUsage uid entry.duration.scope) step.env.epoch ?_ hcounted
  intro uids eng eng' hresets heng
  by_cases hu : uid ∈ uids
  · rw [netUsage_of_reset (hresets.inside uid hu)]
  · rw [netUsage_congr (hresets.outside uid hu)]
    exact heng

/-- The ticks of such a run continue one another. -/
theorem continues_of_steadyRun {run : List TickStep} (hrun : SteadyRun rules uidOf date run)
    (h : Limits rules uidOf entry uid) (huse : InUseThroughout entry uid run) :
    run.IsChain (Continues entry uid) := by
  have hchain : run.IsChain fun a b =>
      b.before.eng = a.after.eng ∧ a.now ≤ b.now ∧ b.now ≤ a.now + maxTickSecs :=
    List.isChain_iff_getElem.mpr fun n hn =>
      ⟨List.isChain_iff_getElem.mp hrun.consecutive n hn,
        List.isChain_iff_getElem.mp huse.paced n hn⟩
  refine List.IsChain.imp_of_mem_imp ?_ hchain
  rintro a b ha hb ⟨hnext, hforward, hsoon⟩
  obtain ⟨hcounters, hcooldowns⟩ := TickStep.handsOn hnext
    ((hrun.rules b hb).trans (hrun.rules a ha).symm)
    ((hrun.uidOf b hb).trans (hrun.uidOf a ha).symm)
  have halone : Limits b.mid.eng.rules b.mid.eng.uidOf entry uid := by
    rw [hrun.rules b hb, hrun.uidOf b hb]
    exact h
  exact ⟨halone, huse.inUse b hb, hcounters, hcooldowns,
    (hrun.date b hb).trans (hrun.date a ha).symm, hforward, hsoon⟩

/-- **A limit takes effect in time**: an app that is used without a pause is
blocked before it has been used for a minute more than its limit. -/
theorem blocked_within_limit (hrun : SteadyRun rules uidOf date (first :: rest))
    (h : Limits rules uidOf entry uid) (huse : InUseThroughout entry uid (first :: rest))
    (hext : entry.extended first.now uid first.prepared = false)
    (hnet : 0 ≤ first.mid.eng.netUsage uid entry.duration.scope)
    (hlong : first.now + entry.duration.limitMinutes.toNat * 60 ≤
      ((first :: rest).getLast (List.cons_ne_nil first rest)).now) :
    ∃ step ∈ first :: rest, uid ∈ step.after.eng.blocked ∧
      step.now < first.now + entry.duration.limitMinutes.toNat * 60 + maxTickSecs := by
  have halone : ∀ step ∈ first :: rest,
      Limits step.mid.eng.rules step.mid.eng.uidOf entry uid := by
    intro step hstep
    rw [hrun.rules step hstep, hrun.uidOf step hstep]
    exact h
  have hcontinues := continues_of_steadyRun hrun h huse
  have hunextended : ∀ step ∈ first :: rest,
      entry.extended step.now uid step.prepared = false := by
    refine List.IsChain.induction _ _ hcontinues (fun a b hab ha => ?_) fun _ => hext
    by_contra hb
    rw [hab.extended_before (by simpa using hb)] at ha
    cases ha
  have hblocked : ∀ step ∈ first :: rest, (entry.overLimit uid step.prepared = true ∨
      entry.cooling step.now uid step.prepared = true) → uid ∈ step.after.eng.blocked :=
    fun step hstep hused => TickStep.mem_blocked (halone step hstep) (huse.blockable step hstep)
      (hunextended step hstep) hused
  have hminutes : 0 < entry.duration.limitMinutes.toNat := UInt32.lt_iff_toNat_lt.mp h.limited
  have hpaced : (first :: rest).IsChain (Paced TickStep.now
      (fun step => step.prepared.netUsage uid entry.duration.scope)
      (fun step => uid ∈ step.after.eng.blocked) maxTickSecs) := by
    refine List.IsChain.imp_of_mem_imp ?_ hcontinues
    intro a b ha _ hab
    refine ⟨hab.forward, hab.soon, fun hfree _ => (hab.netUsage_prepared (halone a ha) ?_).ge⟩
    by_contra hcooling
    exact hfree (hblocked a ha (.inr (by simpa using hcooling)))
  refine exists_hit_of_paced (by omega) hpaced ?_ ?_ hlong
  · intro step hstep hreached
    refine hblocked step hstep (.inl (Bool.and_eq_true_iff.mpr ⟨decide_eq_true h.limited, ?_⟩))
    have hused := toNat_netUsage uid entry.duration.scope step.prepared
    have hcounted : step.prepared.scopedUsage uid entry.duration.scope ≤
        entry.counted uid step.prepared := by
      refine scopedUsage_le_counted ?_
      rw [TickStep.prepared, (keepsSetup_prepare step.env step.mid.eng).uidOf]
      exact (halone step hstep).governs
    exact decide_eq_true (by omega)
  · exact netUsage_prepared_nonneg (halone first List.mem_cons_self)
      (huse.inUse first List.mem_cons_self) hnet

end Runs

/-! ## A game with a limit of a minute -/

/-- The game stays in the foreground for three ticks. -/
def playedFirst : TickStep :=
  .of (listedEnv 100) cooledStart (by decide +kernel) (by decide +kernel)

def playedSecond : TickStep :=
  .of (listedEnv 150) playedFirst.after (by decide +kernel) (by decide +kernel)

def playedThird : TickStep :=
  .of (listedEnv 200) playedSecond.after (by decide +kernel) (by decide +kernel)

theorem steady_played : SteadyRun (timedRules cooledRule) cooledUids 0
    [playedFirst, playedSecond, playedThird] where
  rules := by decide +kernel
  uidOf := by decide +kernel
  date := by decide +kernel
  consecutive := .cons_cons rfl (.cons_cons rfl (.singleton _))

theorem limits_cooledEntry :
    Limits (timedRules cooledRule) cooledUids cooledEntry 10001 where
  listed := governsAlone_cooledEntry.listed
  enabled := rfl
  limited := by decide
  governs := governsAlone_cooledEntry.governs
  alone := by
    intro other hother _
    have hentries : (timedRules cooledRule).entries = [cooledEntry] := rfl
    rw [hentries] at hother
    exact .inl (List.mem_singleton.mp hother)

theorem shows_listedEnv (epoch : Nat) : (listedEnv epoch).procs.Shows 10001 :=
  ⟨4000, by simp [listedEnv, foregroundEnv, topAppPids], List.mem_singleton_self _, rfl⟩

theorem inUse_played :
    InUseThroughout cooledEntry 10001 [playedFirst, playedSecond, playedThird] where
  inUse step hstep := by
    simp only [List.mem_cons, List.not_mem_nil, or_false] at hstep
    rcases hstep with rfl | rfl | rfl <;> exact shows_listedEnv _
  blockable step hstep := by
    refine ⟨"0:com.game", List.mem_singleton_self _, ?_⟩
    simp only [List.mem_cons, List.not_mem_nil, or_false] at hstep
    rcases hstep with rfl | rfl | rfl <;> decide +kernel
  paced := .cons_cons (by decide) (.cons_cons (by decide) (.singleton _))

theorem blocked_within_limit_played : ∃ step ∈ [playedFirst, playedSecond, playedThird],
    (10001 : Uid) ∈ step.after.eng.blocked ∧ step.now < 100 + 1 * 60 + 60 :=
  blocked_within_limit steady_played limits_cooledEntry inUse_played (by decide +kernel)
    (by decide +kernel) (by decide)

end Ningshi
