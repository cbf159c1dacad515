import Ningshi.Lib.Bursts
import Ningshi.Packages

/-!
# `gate.rs`: the thread that drains the ring buffer

A process that is being blocked can be reported several times.  The thread
queues it once: it notes by pid when a process was queued, and discards the
events of that pid for five seconds.  The notes are tidied up when there are
more than 64 of them.

Tidying up loses nothing that matters, so the events that are queued are the
beginnings of the bursts of each pid (`queued_drain`).  `dedupExact_iff` says
when no event is discarded for the sake of another app.
-/

namespace Ningshi

open Std Bursts Trace

/-- An event that is taken out of the ring buffer. -/
structure SpawnEvent where
  pid : UInt32
  uid : Uid
  /-- when it is taken out, in ns -/
  time : Nat
  deriving DecidableEq

/-- `u32::from_ne_bytes` on a little-endian machine. -/
def u32OfBytes (b₀ b₁ b₂ b₃ : UInt8) : UInt32 :=
  .ofNat (b₀.toNat + b₁.toNat * 2 ^ 8 + b₂.toNat * 2 ^ 16 + b₃.toNat * 2 ^ 24)

/-- The event in an item of the ring buffer; shorter items are skipped. -/
def SpawnEvent.ofItem (time : Nat) : List UInt8 → Option SpawnEvent
  | b₀ :: b₁ :: b₂ :: b₃ :: b₄ :: b₅ :: b₆ :: b₇ :: _ =>
      some ⟨u32OfBytes b₀ b₁ b₂ b₃, u32OfBytes b₄ b₅ b₆ b₇, time⟩
  | _ => none

/-- The two things the thread works with. -/
structure Drain where
  /-- when a pid was last queued -/
  recent : ExtTreeMap UInt32 Nat compare
  /-- the events sent to the killer, newest first -/
  queued : List SpawnEvent

/-- `elapsed().as_secs()` -/
def elapsedSecs (since now : Nat) : Nat := (now - since) / 1000000000

namespace Drain

/-- Has the pid been queued in the last five seconds? -/
def repeats (d : Drain) (e : SpawnEvent) : Bool :=
  d.recent[e.pid]?.any fun t => elapsedSecs t e.time < 5

/-- Drop old notes, when there are many. -/
def tidy (now : Nat) (recent : ExtTreeMap UInt32 Nat compare) : ExtTreeMap UInt32 Nat compare :=
  if 64 < recent.size then recent.filter fun _ t => elapsedSecs t now < 10 else recent

/-- What is done with an event. -/
def handle (e : SpawnEvent) (d : Drain) : Drain :=
  if d.repeats e then d
  else ⟨tidy e.time (d.recent.insert e.pid e.time), e :: d.queued⟩

/-- What is done with an item that is taken out at some time. -/
def handleItem (d : Drain) (item : List UInt8 × Nat) : Drain :=
  (SpawnEvent.ofItem item.2 item.1).elim d fun e => d.handle e

end Drain

/-- The thread after a history of events, newest first. -/
def drain : List SpawnEvent → Drain
  | [] => ⟨∅, []⟩
  | e :: past => (drain past).handle e

/-- A history in the order of its times, newest first. -/
def InOrder (events : List SpawnEvent) : Prop :=
  events.Pairwise fun later earlier => earlier.time ≤ later.time

/-- Items that are no events change nothing. -/
theorem foldl_handleItem (items : List (List UInt8 × Nat)) :
    items.foldl Drain.handleItem ⟨∅, []⟩ =
      drain (items.filterMap fun item => SpawnEvent.ofItem item.2 item.1).reverse := by
  induction items using List.reverseRecOn with
  | nil => rfl
  | append_singleton items item ih =>
      rw [List.foldl_append, List.foldl_cons, List.foldl_nil, ih, List.filterMap_append,
        List.reverse_append, Drain.handleItem]
      cases hevent : SpawnEvent.ofItem item.2 item.1 with
      | none => simp [hevent]
      | some e => simp [hevent, drain]

/-! ## What the thread remembers -/

/-- Events by pid, in bursts of five seconds. -/
def spawnBursts : Clocked SpawnEvent UInt32 := ⟨SpawnEvent.pid, SpawnEvent.time, 5000000000⟩

section Memo

variable {d : Drain} {e : SpawnEvent} {past : List SpawnEvent} {now : Nat}

theorem elapsedSecs_lt_iff {since now secs : Nat} (hsecs : 0 < secs) :
    elapsedSecs since now < secs ↔ now < since + secs * 1000000000 := by
  unfold elapsedSecs
  rw [Nat.div_lt_iff_lt_mul (by decide)]
  omega

theorem repeats_iff : d.repeats e = true ↔
    ∃ t, d.recent[e.pid]? = some t ∧ e.time < t + 5000000000 := by
  simp [Drain.repeats, Option.any_eq_true, elapsedSecs_lt_iff]

/-- An event that is not discarded begins a burst. -/
theorem repeats_eq_false_iff (h : Remembers spawnBursts (fun pid => d.recent[pid]?) past now)
    (hnow : now ≤ e.time) : d.repeats e = false ↔ Begins spawnBursts e past := by
  rw [h.begins_iff hnow, ← Bool.not_eq_true, repeats_iff]
  push Not
  rfl

/-- Tidying up drops no note that is less than ten seconds old. -/
theorem remembers_tidy {recent : ExtTreeMap UInt32 Nat compare}
    (h : Remembers spawnBursts (fun pid => recent[pid]?) past now) :
    Remembers spawnBursts (fun pid => (Drain.tidy now recent)[pid]?) past now := by
  unfold Drain.tidy
  split_ifs
  · refine h.forget (fun k t ht => ?_) fun k t ht => ?_
    · rw [ExtTreeMap.getElem?_filter'] at ht
      exact (Option.filter_eq_some_iff.mp ht).1
    · by_cases hold : elapsedSecs t now < 10
      · rw [ExtTreeMap.getElem?_filter', ht]
        exact .inl (Option.filter_some_pos (decide_eq_true hold))
      · rw [elapsedSecs_lt_iff (by decide)] at hold
        refine .inr ?_
        show t + 5000000000 ≤ now
        omega
  · exact h

/-- A step of the thread. -/
theorem remembers_handle (h : Remembers spawnBursts (fun pid => d.recent[pid]?) past now)
    (hnow : now ≤ e.time) :
    Remembers spawnBursts (fun pid => (d.handle e).recent[pid]?) (e :: past) e.time := by
  unfold Drain.handle
  split_ifs with hrepeats
  · refine h.goOn hnow fun hbegins => ?_
    rw [(repeats_eq_false_iff h hnow).mpr hbegins] at hrepeats
    cases hrepeats
  · have hbegins := (repeats_eq_false_iff h hnow).mp (Bool.not_eq_true _ ▸ hrepeats)
    have hnoted := h.begin hnow hbegins
    refine remembers_tidy ?_
    have hmemo : (fun pid => (d.recent.insert e.pid e.time)[pid]?) =
        Function.update (fun pid => d.recent[pid]?) e.pid (some e.time) := by
      funext pid
      rw [FiniteMap.getElem?_insert_eq, Function.update_apply]
      simp only [eq_comm]
    rw [hmemo]
    exact hnoted

/-- The time of the newest event. -/
def newest (past : List SpawnEvent) : Nat := (past.head?.map SpawnEvent.time).getD 0

theorem newest_le (horder : InOrder (e :: past)) : newest past ≤ e.time := by
  cases past with
  | nil => exact Nat.zero_le _
  | cons e' past => exact (List.pairwise_cons.mp horder).1 e' List.mem_cons_self

/-- **What the thread has noted**, in every history. -/
theorem remembers_drain {events : List SpawnEvent} (horder : InOrder events) :
    Remembers spawnBursts (fun pid => (drain events).recent[pid]?) events (newest events) := by
  induction events with
  | nil => exact remembers_nil fun pid => ExtTreeMap.getElem?_empty
  | cons e past ih =>
      exact remembers_handle (ih (List.pairwise_cons.mp horder).2) (newest_le horder)

end Memo

/-! ## What is queued and what is discarded -/

/-- Every pid and uid is queued once in five seconds, and no event is discarded
for another one. -/
structure DedupExact (events : List SpawnEvent) : Prop where
  spaced : (drain events).queued.Pairwise fun later earlier =>
    later.pid = earlier.pid → later.uid = earlier.uid → earlier.time + 5000000000 ≤ later.time
  discarded : Always (fun e past => (drain past).repeats e = true →
    ∃ q ∈ (drain past).queued, q.pid = e.pid ∧ q.uid = e.uid ∧ e.time < q.time + 5000000000) events

/-- All events of a burst of a pid are of one app. -/
def OneAppPerBurst (events : List SpawnEvent) : Prop := Uniform spawnBursts SpawnEvent.uid events

section Queued

variable {e q : SpawnEvent} {events past : List SpawnEvent}

theorem repeats_drain_iff (horder : InOrder (e :: past)) :
    (drain past).repeats e = false ↔ Begins spawnBursts e past :=
  repeats_eq_false_iff (remembers_drain (List.pairwise_cons.mp horder).2) (newest_le horder)

/-- **The thread queues the beginnings of the bursts.** -/
theorem queued_drain (horder : InOrder events) : (drain events).queued = heads spawnBursts events := by
  induction events with
  | nil => rfl
  | cons e past ih =>
      have hqueued := ih (List.pairwise_cons.mp horder).2
      rw [drain, Drain.handle, heads]
      by_cases hbegins : Begins spawnBursts e past
      · rw [if_neg (by simp [(repeats_drain_iff horder).mpr hbegins]), if_pos hbegins, hqueued]
      · have hrepeats : (drain past).repeats e = true := by
          rw [← Bool.not_eq_false, repeats_drain_iff horder]
          exact hbegins
        rw [if_pos hrepeats, if_neg hbegins, hqueued]

/-- What is queued less than five seconds before an event of its pid began the burst. -/
theorem head_of_within (horder : InOrder (e :: past)) (hq : q ∈ heads spawnBursts past)
    (hpid : q.pid = e.pid) (hwithin : e.time < q.time + 5000000000) :
    head spawnBursts (spawnBursts.key e) past = some q := by
  obtain ⟨first, hhead, hq⟩ := eq_head_or_le hq
  have hkey : spawnBursts.key q = spawnBursts.key e := hpid
  rw [hkey] at hhead
  rcases hq with rfl | hearlier
  · exact hhead
  · have hlast : first.time ≤ e.time :=
      (List.pairwise_cons.mp horder).1 first (mem_of_mem_heads (mem_heads_of_head hhead).2)
    have hearlier : q.time + 5000000000 ≤ first.time := hearlier
    omega

/-- **An event is discarded for an event of its app** exactly when its burst was
begun by that app. -/
theorem discarded_iff (horder : InOrder (e :: past)) :
    ((drain past).repeats e = true → ∃ q ∈ (drain past).queued,
        q.pid = e.pid ∧ q.uid = e.uid ∧ e.time < q.time + 5000000000) ↔
      ∀ first, head spawnBursts (spawnBursts.key e) past = some first →
        spawnBursts.time e < spawnBursts.time first + spawnBursts.gap → first.uid = e.uid := by
  have hrepeats : (drain past).repeats e = true ↔ ¬ Begins spawnBursts e past := by
    rw [← repeats_drain_iff horder, Bool.not_eq_false]
  rw [hrepeats, queued_drain (List.pairwise_cons.mp horder).2]
  constructor
  · intro h first hhead hwithin
    obtain ⟨q, hq, hpid, huid, hq'⟩ := h fun hbegins =>
      Nat.not_le.mpr hwithin (hbegins first hhead)
    rw [head_of_within horder hq hpid hq'] at hhead
    rw [← Option.some.inj hhead]
    exact huid
  · intro h hbegins
    unfold Begins at hbegins
    push Not at hbegins
    obtain ⟨first, hhead, hwithin⟩ := hbegins
    obtain ⟨hpid, hq⟩ := mem_heads_of_head hhead
    exact ⟨first, hq, hpid, h first hhead hwithin, hwithin⟩

end Queued

/-- **De-duplication is exact** exactly when no pid changes hands within a burst. -/
theorem dedupExact_iff (events : List SpawnEvent) (horder : InOrder events) :
    DedupExact events ↔ OneAppPerBurst events := by
  have hdiscarded := always_congr (t := events) fun e past hsuffix =>
    discarded_iff (horder.sublist hsuffix.sublist)
  constructor
  · intro h
    exact hdiscarded.mp h.discarded
  · intro h
    refine ⟨?_, hdiscarded.mpr h⟩
    rw [queued_drain horder]
    exact (pairwise_heads events).imp fun hspaced hpid _ => hspaced hpid

/-- A pid is given to a process of another app, six seconds later. -/
def laterReuse : List SpawnEvent := [⟨4000, 10002, 6000000000⟩, ⟨4000, 10001, 0⟩]

theorem dedupExact_laterReuse : DedupExact laterReuse := by
  refine (dedupExact_iff laterReuse ?_).mpr ?_
  · simp [InOrder, laterReuse]
  · rw [OneAppPerBurst, Uniform, laterReuse, always_cons, always_cons]
    refine ⟨fun first hhead hwithin => ?_, fun first hhead => ?_, always_nil⟩
    · obtain rfl : ⟨4000, 10001, 0⟩ = first := by simpa [head, spawnBursts] using hhead
      exact absurd hwithin (by decide)
    · cases hhead

/-- A second later the event of the other app is discarded. -/
theorem not_dedupExact : ¬ ∀ events, InOrder events → DedupExact events := by
  intro h
  have hexact := h [⟨4000, 10002, 1000000000⟩, ⟨4000, 10001, 0⟩] (by simp [InOrder])
  obtain ⟨q, hq, -, huid, -⟩ := (always_cons.mp hexact.discarded).1 (by decide +kernel)
  have hqueued : (drain [⟨4000, 10001, 0⟩]).queued = [⟨4000, 10001, 0⟩] := by decide +kernel
  rw [hqueued, List.mem_singleton] at hq
  rw [hq] at huid
  exact absurd huid (by decide)

end Ningshi
