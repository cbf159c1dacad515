import Ningshi.GateBpf

/-!
# `gate.bpf.c`: what a recent report stands for

A transaction is ignored when its process was reported less than five seconds
ago, as far as the programs know: the time they go by is noted when a process is
let through to be marked, before there is a report.

`losesNothing_of_reachable` says that an ignored transaction comes with an event
less than five seconds old or with a mark pending, in every run in which the
processes let through are marked and the marked ones reported; `exists_loss`
that any other step can lead to one that comes with neither.
-/

namespace Ningshi

open Std Transition

namespace GateBpf

variable {g g' : GateBpf} {tgid t : Tgid} {last : UInt64}

/-- An event of this process was submitted at this time or later. -/
def ReportedSince (tgid : Tgid) (since : UInt64) (g : GateBpf) : Prop :=
  ∃ e ∈ g.events, e.tgid = tgid ∧ since ≤ e.time

/-- The entry of a transaction is ignored because of a recent report. -/
def Ignores (uid : Uid) (tgid : Tgid) (handle : UInt32) (g : GateBpf) : Prop :=
  g.Watched uid handle ∧ g.limited tgid = true

instance (g : GateBpf) (uid : Uid) (tgid : Tgid) (handle : UInt32) :
    Decidable (g.Ignores uid tgid handle) :=
  inferInstanceAs (Decidable (_ ∧ _))

/-- Where an entry is ignored, an event was submitted in the last five seconds,
or a mark is pending. -/
def LosesNothing (g : GateBpf) : Prop :=
  ∀ uid tgid handle, g.Ignores uid tgid handle →
    g.marked tgid = true ∨
      ∃ e ∈ g.events, e.tgid = tgid ∧ g.clock.toNat < e.time.toNat + reportCooldownNs.toNat

/-- The noted time of this process does not count, or there was an event since. -/
def Settled (tgid : Tgid) (g : GateBpf) : Prop :=
  ∀ last ∈ g.reported.lookup tgid, g.limited tgid = true → g.ReportedSince tgid last

/-- A process whose time is noted is also marked, or has been reported at this
very time; and a mark is not cleared without a report, unless the process is
settled. -/
def KeepsReports (g : GateBpf) : BpfStep → Prop
  | .binderEntry uid tgid (some handle) =>
      g.Watched uid handle → g.limited tgid = false → g.reported.HasRoom tgid →
        g.spawned.HasRoom tgid ∨ g.ReportedSince tgid g.clock
  | .binderExit uid tgid reserved =>
      g.marked tgid = true → g.Submits uid reserved ∨ g.Settled tgid
  | _ => True

instance (g : GateBpf) (tgid : Tgid) (since : UInt64) : Decidable (g.ReportedSince tgid since) :=
  inferInstanceAs (Decidable (∃ e ∈ g.events, _))

instance (g : GateBpf) (tgid : Tgid) : Decidable (g.Settled tgid) :=
  Option.decidableForallMem (g.reported.lookup tgid)

instance (g : GateBpf) : (step : BpfStep) → Decidable (g.KeepsReports step)
  | .binderEntry _ _ none => .isTrue trivial
  | .binderEntry _ _ (some _) => inferInstanceAs (Decidable (_ → _ → _ → _ ∨ _))
  | .binderExit _ _ _ => inferInstanceAs (Decidable (_ → _ ∨ _))
  | .uidSwitch _ _ _ => .isTrue trivial
  | .setBlocked _ _ => .isTrue trivial
  | .clock _ => .isTrue trivial

/-- The noted times lie in the past. -/
def NotedBefore (g : GateBpf) : Prop :=
  ∀ tgid last, g.reported.lookup tgid = some last → last ≤ g.clock

/-- What such a run keeps: as long as a noted time counts, there is a mark or
there was an event since. -/
def Covered (g : GateBpf) : Prop :=
  ∀ tgid last, g.reported.lookup tgid = some last → g.limited tgid = true →
    g.marked tgid = true ∨ g.ReportedSince tgid last

theorem limited_iff (hlast : g.reported.lookup tgid = some last) (hpast : last ≤ g.clock) :
    g.limited tgid = true ↔ g.clock.toNat < last.toNat + reportCooldownNs.toNat := by
  rw [limited, hlast, Option.any_some, decide_eq_true_eq, UInt64.lt_iff_toNat_lt,
    UInt64.toNat_sub_of_le _ _ hpast]
  have hle := UInt64.le_iff_toNat_le.mp hpast
  omega

theorem ReportedSince.submit (h : g.ReportedSince t last) (tgid : Tgid) (uid : Uid)
    (anchor : Anchor) : (g.submit tgid uid anchor).ReportedSince t last := by
  obtain ⟨e, he, htgid, hlast⟩ := h
  exact ⟨e, List.mem_cons_of_mem _ he, htgid, hlast⟩

theorem reportedSince_submit (hlast : last ≤ g.clock) (tgid : Tgid) (uid : Uid)
    (anchor : Anchor) : (g.submit tgid uid anchor).ReportedSince tgid last :=
  ⟨_, List.mem_cons_self, rfl, hlast⟩

theorem lookup_letThrough (tgid t : Tgid) (g : GateBpf) :
    (g.letThrough tgid).reported.lookup t =
      if tgid = t ∧ g.reported.HasRoom tgid then some g.clock else g.reported.lookup t :=
  BoundedMap.lookup_update g.reported tgid t g.clock

/-- In every run, the noted times lie in the past. -/
theorem notedBefore_next {step : BpfStep} (hg : g.NotedBefore) (hstep : g.next step = some g') :
    g'.NotedBefore := by
  obtain ⟨mid, hmoved, blockedUids, stats, rfl⟩ := next_cases hstep
  show mid.NotedBefore
  cases hmoved with
  | quiet => exact hg
  | @letThrough uid tgid handle _ _ =>
      intro t last hlast
      rw [lookup_letThrough] at hlast
      split_ifs at hlast
      · exact Option.some.inj hlast ▸ UInt64.le_refl _
      · exact hg t last hlast
  | lose => exact hg
  | report => exact hg
  | switch => exact hg
  | clock hnow => exact fun t last hlast => UInt64.le_trans (hg t last hlast) hnow

theorem notedBefore_of_reachable {cond : GateBpf → BpfStep → Prop}
    (hg : gateBpf.ReachableWhen cond g) : g.NotedBefore := by
  induction hg with
  | init hinit =>
      intro t last hlast
      rw [hinit.reported, BoundedMap.lookup_empty] at hlast
      cases hlast
  | step _ _ hstep ih => exact notedBefore_next ih hstep

/-! ## What a run keeps -/

theorem Covered.letThrough (hg : g.Covered)
    (hmarks : g.reported.HasRoom tgid → g.spawned.HasRoom tgid ∨ g.ReportedSince tgid g.clock) :
    (g.letThrough tgid).Covered := by
  intro t last hlast hlimited
  rw [lookup_letThrough] at hlast
  split_ifs at hlast with hstamped
  · obtain ⟨rfl, hroom⟩ := hstamped
    obtain rfl := Option.some.inj hlast
    exact (hmarks hroom).imp_left fun hspace => marked_letThrough.mpr (.inl ⟨rfl, hspace⟩)
  · have hbefore : g.limited t = true := by
      rw [limited, lookup_letThrough, if_neg hstamped] at hlimited
      exact hlimited
    exact (hg t last hlast hbefore).imp_left fun hmarked => marked_letThrough.mpr (.inr hmarked)

theorem Covered.unmark (hg : g.Covered) (hsettled : g.Settled tgid) :
    (g.unmark tgid).Covered := by
  intro t last hlast hlimited
  by_cases ht : t = tgid
  · subst ht
    exact .inr (hsettled last hlast hlimited)
  · exact (hg t last hlast hlimited).imp_left fun hmarked => marked_unmark.mpr ⟨ht, hmarked⟩

theorem Covered.submit (hg : g.Covered) (tgid : Tgid) (uid : Uid) (anchor : Anchor) :
    (g.submit tgid uid anchor).Covered := fun t last hlast hlimited =>
  (hg t last hlast hlimited).imp_right fun h => h.submit tgid uid anchor

/-- A mark may go when its event comes. -/
theorem Covered.report (hg : g.Covered) (hpast : g.NotedBefore) (tgid : Tgid) (uid : Uid)
    (anchor : Anchor) : ((g.unmark tgid).submit tgid uid anchor).Covered := by
  intro t last hlast hlimited
  by_cases ht : t = tgid
  · subst ht
    exact .inr (reportedSince_submit (g := g.unmark t) (hpast t last hlast) t uid anchor)
  · rcases hg t last hlast hlimited with hmarked | hreported
    · exact .inl (marked_unmark.mpr ⟨ht, hmarked⟩)
    · exact .inr (ReportedSince.submit (g := g.unmark tgid) hreported tgid uid anchor)

theorem Covered.clock (hg : g.Covered) (hpast : g.NotedBefore) {now : UInt64}
    (hnow : g.clock ≤ now) : Covered { g with clock := now } := by
  intro t last hlast hlimited
  -- What counts later has counted before.
  have hlater := (limited_iff (g := { g with clock := now }) hlast
    (UInt64.le_trans (hpast t last hlast) hnow)).mp hlimited
  have hle := UInt64.le_iff_toNat_le.mp hnow
  have hbefore : g.limited t = true :=
    (limited_iff (g := g) hlast (hpast t last hlast)).mpr (Nat.lt_of_le_of_lt hle hlater)
  exact hg t last hlast hbefore

/-- **A step that meets the condition** keeps the noted times covered. -/
theorem covered_next {step : BpfStep} (hg : g.Covered) (hpast : g.NotedBefore)
    (hkeeps : g.KeepsReports step) (hstep : g.next step = some g') : g'.Covered := by
  obtain ⟨mid, hmoved, blockedUids, stats, rfl⟩ := next_cases hstep
  show mid.Covered
  cases hmoved with
  | quiet => exact hg
  | letThrough hwatched hlimited => exact hg.letThrough (hkeeps hwatched hlimited)
  | lose hmarked hlost => exact hg.unmark ((hkeeps hmarked).resolve_left hlost)
  | @report uid tgid reserved _ _ => exact hg.report hpast tgid uid .binder
  | @switch uid tgid reserved _ => exact hg.submit tgid uid .uidSwitch
  | clock hnow => exact hg.clock hpast hnow

/-- An ignored entry has a time that counts, and what covers it is recent. -/
theorem losesNothing_of_covered (hg : g.Covered) (hpast : g.NotedBefore) : g.LosesNothing := by
  rintro uid tgid handle ⟨-, hlimited⟩
  obtain ⟨last, hlast, -⟩ := (Option.any_eq_true _ _).mp hlimited
  refine (hg tgid last hlast hlimited).imp_right ?_
  rintro ⟨e, he, htgid, hle⟩
  have hcounts := (limited_iff hlast (hpast tgid last hlast)).mp hlimited
  have hsince := UInt64.le_iff_toNat_le.mp hle
  exact ⟨e, he, htgid, by omega⟩

end GateBpf

/-- **Rate limiting loses no launch**, in every such run. -/
theorem losesNothing_of_reachable {g : GateBpf}
    (hg : gateBpf.ReachableWhen GateBpf.KeepsReports g) : g.LosesNothing := by
  have hcovered : g.Covered := by
    induction hg with
    | init hinit =>
        intro t last hlast
        rw [hinit.reported, BoundedMap.lookup_empty] at hlast
        cases hlast
    | step hrun hkeeps hstep ih =>
        exact GateBpf.covered_next ih (GateBpf.notedBefore_of_reachable hrun) hkeeps hstep
  exact GateBpf.losesNothing_of_covered hcovered (GateBpf.notedBefore_of_reachable hg)

/-! ## Where the condition fails -/

namespace GateBpf

variable {g : GateBpf} {tgid : Tgid} {last : UInt64}

/-- Only the binder anchor is attached. -/
def BinderOnly : GateBpf → BpfStep → Prop
  | _, .uidSwitch _ _ _ => False
  | _, _ => True

/-- A noted time that counts, with neither a mark nor an event since: the last
moment at which it counts is five seconds after it. -/
theorem exists_loss_of_uncovered (hg : gateBpf.ReachableWhen BinderOnly g)
    (hlast : g.reported.lookup tgid = some last) (hlimited : g.limited tgid = true)
    (hend : last.toNat + reportCooldownNs.toNat < UInt64.size) (hunmarked : g.marked tgid = false)
    (hnot : ¬ g.ReportedSince tgid last) :
    ∃ g', gateBpf.ReachableWhen BinderOnly g' ∧ ¬ g'.LosesNothing := by
  have hpast := notedBefore_of_reachable hg tgid last hlast
  have hcounts := (limited_iff hlast hpast).mp hlimited
  have hpos : 0 < reportCooldownNs.toNat := by decide
  obtain ⟨now, hnow⟩ : ∃ now : UInt64, now.toNat + 1 = last.toNat + reportCooldownNs.toNat :=
    ⟨.ofNat (last.toNat + reportCooldownNs.toNat - 1), by
      rw [UInt64.toNat_ofNat_of_lt' (Nat.lt_of_le_of_lt (Nat.sub_le _ _) hend)]
      omega⟩
  have hle : g.clock ≤ now := UInt64.le_iff_toNat_le.mpr (by omega)
  let blocked : GateBpf := { g with blockedUids := applyBlock 10000 true g.blockedUids }
  let later : GateBpf := { blocked with clock := now }
  have hblocked : gateBpf.ReachableWhen BinderOnly blocked :=
    .step hg (show g.BinderOnly (.setBlocked 10000 true) from trivial) rfl
  have hlater : gateBpf.ReachableWhen BinderOnly later :=
    .step hblocked (show blocked.BinderOnly (.clock now) from trivial)
      (show blocked.next (.clock now) = some later from if_pos hle)
  refine ⟨later, hlater, fun hloses => ?_⟩
  have hignores : later.Ignores 10000 tgid 1 := by
    refine ⟨⟨?_, by decide⟩, ?_⟩
    · simp [later, blocked, bpfBlocked, applyBlock]
    · exact (limited_iff (g := later) hlast (UInt64.le_trans hpast hle)).mpr (by
        show now.toNat < _
        omega)
  rcases hloses 10000 tgid 1 hignores with hmarked | ⟨e, he, htgid, hrecent⟩
  · exact Bool.false_ne_true (hunmarked.symm.trans hmarked)
  · refine hnot ⟨e, he, htgid, UInt64.le_iff_toNat_le.mpr ?_⟩
    have hclock : now.toNat < e.time.toNat + reportCooldownNs.toNat := hrecent
    omega

/-- **Any step that does not meet the condition** can lead to an entry that is
ignored for nothing. -/
theorem exists_loss {step : BpfStep} (hg : gateBpf.ReachableWhen BinderOnly g)
    (hend : g.clock.toNat + reportCooldownNs.toNat < UInt64.size) (h : ¬ g.KeepsReports step) :
    ∃ g', gateBpf.ReachableWhen BinderOnly g' ∧ ¬ g'.LosesNothing := by
  cases step with
  | binderEntry uid tgid handle =>
      cases handle with
      | none => exact absurd trivial h
      | some handle =>
          simp only [KeepsReports, Classical.not_imp, not_or] at h
          obtain ⟨hwatched, hlimited, hroom, hspace, hnot⟩ := h
          have hreached : gateBpf.ReachableWhen BinderOnly (g.binderEntry uid tgid (some handle)) :=
            .step hg (show g.BinderOnly (.binderEntry uid tgid (some handle)) from trivial) rfl
          rcases binderEntry_some uid tgid handle g with ⟨hignored, -⟩ | ⟨-, -, stats, hsame⟩
          · exact absurd ⟨hwatched, hlimited⟩ hignored
          · rw [hsame] at hreached
            have hlast : (g.letThrough tgid).reported.lookup tgid = some g.clock := by
              rw [lookup_letThrough, if_pos ⟨rfl, hroom⟩]
            have hnow : (g.letThrough tgid).limited tgid = true := by
              rw [limited_iff hlast (UInt64.le_refl _)]
              show g.clock.toNat < g.clock.toNat + reportCooldownNs.toNat
              have hpos : 0 < reportCooldownNs.toNat := by decide
              omega
            have hunmarked : (g.letThrough tgid).marked tgid = false := by
              rw [Bool.eq_false_iff, ne_eq, marked_letThrough]
              rintro (⟨-, hroom'⟩ | hmarked)
              · exact hspace hroom'
              · obtain ⟨mark, hlookup, -⟩ := marked_iff.mp hmarked
                exact hspace (BoundedMap.hasRoom_of_lookup hlookup)
            exact exists_loss_of_uncovered hreached hlast hnow hend hunmarked hnot
  | binderExit uid tgid reserved =>
      simp only [KeepsReports, Settled, Classical.not_imp, not_or, not_forall] at h
      obtain ⟨hmarked, hlost, last, hlast, hlimited, hnot⟩ := h
      have hreached : gateBpf.ReachableWhen BinderOnly (g.binderExit uid tgid reserved) :=
        .step hg (show g.BinderOnly (.binderExit uid tgid reserved) from trivial) rfl
      rcases binderExit_marked hmarked with ⟨-, stats, hsame⟩ | ⟨hsubmits, -⟩
      · rw [hsame] at hreached
        have hpast := UInt64.le_iff_toNat_le.mp (notedBefore_of_reachable hg tgid last hlast)
        exact exists_loss_of_uncovered hreached hlast hlimited (by omega)
          (marked_unmark_self tgid g) hnot
      · exact absurd hsubmits hlost
  | uidSwitch uid tgid reserved => exact absurd trivial h
  | setBlocked uid blocked => exact absurd trivial h
  | clock now => exact absurd trivial h

end GateBpf

/-- One second after a report the process makes another transaction. -/
theorem losesNothing_of_reachable_transaction :
    ∃ g, runWhen GateBpf.next GateBpf.KeepsReports
        [.binderEntry 10001 4000 (some 1), .clock 10, .binderExit 10001 4000 true,
          .clock 1000000000] GateBpf.oneBlocked = some g ∧
      g.Ignores 10001 4000 1 ∧ g.LosesNothing := by
  have hrun : ((runWhen GateBpf.next GateBpf.KeepsReports
      [.binderEntry 10001 4000 (some 1), .clock 10, .binderExit 10001 4000 true,
        .clock 1000000000] GateBpf.oneBlocked).any fun g => g.Ignores 10001 4000 1) = true := by
    decide +kernel
  obtain ⟨g, hg, hignores⟩ := (Option.any_eq_true _ _).mp hrun
  exact ⟨g, hg, of_decide_eq_true hignores,
    losesNothing_of_reachable (System.reachableWhen_runWhen (.init GateBpf.oneBlocked_init) hg)⟩

/-- The ring buffer is full when a marked process leaves its transaction. -/
theorem not_losesNothing_of_reachable :
    ¬ ∀ g, gateBpf.ReachableWhen GateBpf.BinderOnly g → g.LosesNothing := by
  intro h
  have hentered : gateBpf.ReachableWhen GateBpf.BinderOnly
      (GateBpf.oneBlocked.binderEntry 10001 4000 (some 1)) :=
    .step (.init GateBpf.oneBlocked_init) (show GateBpf.oneBlocked.BinderOnly
      (.binderEntry 10001 4000 (some 1)) from trivial) rfl
  have hend : (GateBpf.oneBlocked.binderEntry 10001 4000 (some 1)).clock.toNat +
      reportCooldownNs.toNat < UInt64.size := by decide +kernel
  have hnot : ¬ GateBpf.KeepsReports (GateBpf.oneBlocked.binderEntry 10001 4000 (some 1))
      (.binderExit 10001 4000 false) := by decide +kernel
  obtain ⟨g, hg, hloss⟩ := GateBpf.exists_loss hentered hend hnot
  exact hloss (h g hg)

end Ningshi
