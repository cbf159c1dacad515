import Ningshi.Inotify
import Ningshi.PackageRace
import Ningshi.Socket
import Ningshi.WakeUp

/-!
# `run_daemon`: the main loop

One round of the loop sleeps in `poll` until the next tick is due, a client
connects or the watch reports something; it answers the client, reads the
watch, and ticks when the next tick is due or something has changed.  Instants
are nanoseconds.

`lastTick_recent` says that ticks are never further apart than the longest
sleep, however many clients there are, and `list_of_report` that a report on
`packages.list` brings the uid map up to date in the same round.
-/

namespace Ningshi

open JsonDoc Transition

/-- What one round of the loop meets. -/
structure Round where
  /-- the reading before `poll` -/
  now : Nat
  /-- a client is waiting -/
  conn : Option Conn
  /-- what the reads of the watch return, when something waits there -/
  reads : Option (List (List UInt8))
  /-- the reading that decides about the tick -/
  decided : Nat
  /-- what the tick meets -/
  env : Env
  /-- the end of the round, and the reading for the next tick -/
  ended : Nat

structure MainLoop where
  sys : Sys
  nextTick : Nat
  /-- the last round ended then -/
  clock : Nat
  /-- the last tick was over then -/
  lastTick : Nat
  /-- the times the package list has had -/
  listTimes : List Nat

/-- The timeout of `poll`, in milliseconds. -/
def waitMs (now nextTick : Nat) : Nat :=
  if now < nextTick then min ((nextTick - now) / 1000000) 2147483647 else 0

/-- The client is answered. -/
def Round.served (r : Round) (s : Sys) : Sys := (r.conn.map fun c => (handle c s).sys).getD s

/-- Answering a client is the operation it asks for, or nothing. -/
theorem Round.served_cases (r : Round) (s : Sys) :
    r.served s = s ∨ ∃ c req op, r.conn = some c ∧ Request.asks c req = some op ∧
      r.served s = op.perform s := by
  unfold Round.served
  cases hconn : r.conn with
  | none => exact .inl rfl
  | some c =>
      obtain ⟨hnone, hsome⟩ := handle_request c s
      show (handle c s).sys = s ∨ ∃ c' req op, some c = some c' ∧ Request.asks c' req = some op ∧
        (handle c s).sys = op.perform s
      cases hreq : c.received.bind (Text.decode Request.ofJson) with
      | none => exact .inl (hnone hreq).1
      | some req =>
          obtain ⟨hrefused, hcarries, hleaves⟩ := hsome req hreq
          by_cases hspoken : req.Spoken
          · cases hop : req.asks c with
            | none => exact .inl (hleaves hspoken hop).sys
            | some op => exact .inr ⟨c, req, op, rfl, hop, (hcarries hspoken op hop).sys⟩
          · exact .inl (hrefused hspoken).sys

/-- Does the round find a reason to tick at once? -/
def Round.changed (r : Round) (s : Sys) : Bool :=
  (r.conn.map fun c => (handle c s).changed).getD false || (r.reads.map drainInotify).getD false

namespace MainLoop

/-- Does the round tick? -/
def ticks (l : MainLoop) (r : Round) : Prop := l.nextTick ≤ r.decided ∨ r.changed l.sys = true

instance (l : MainLoop) (r : Round) : Decidable (l.ticks r) := inferInstanceAs (Decidable (_ ∨ _))

/-- One round. -/
def round (r : Round) (l : MainLoop) : MainLoop :=
  let s := r.served l.sys
  if l.ticks r then
    -- a tick that fails counts as well
    let s := (tick r.env s).state
    { l with
      sys := s
      nextTick := r.ended + s.eng.tickIntervalSecs r.env.sleepEpoch * nanos
      clock := r.ended
      lastTick := r.ended }
  else { l with sys := s, clock := r.ended }

end MainLoop

inductive LoopEvent where
  | round (r : Round)
  /-- between two rounds other programs change the files -/
  | files (fs : Fs)

def MainLoop.next (l : MainLoop) : LoopEvent → Option MainLoop
  | .round r => some (l.round r)
  | .files fs =>
      some { l with
        sys := { l.sys with fs := fs }
        listTimes := (fs.packages.map File.mtime).toList ++ l.listTimes }

/-- The loop begins after a first tick, with the next one due at once. -/
def MainLoop.begin (start first : Env) (fs : Fs) (now : Nat) : MainLoop where
  sys := (tick first (Engine.new start fs)).state
  nextTick := now
  clock := now
  lastTick := now
  listTimes := (fs.packages.map File.mtime).toList

/-- The loop, for starts that meet a condition. -/
def mainLoop (begins : Env → Prop) : System MainLoop LoopEvent :=
  .ofNext (fun l => ∃ start first fs now, begins first ∧ l = .begin start first fs now)
    MainLoop.next

/-! ## Ticks come in time -/

/-- The instants of a round: besides the sleep it takes no longer than `overhead`. -/
structure Round.Timed (overhead : Nat) (l : MainLoop) (r : Round) : Prop where
  begins : l.clock ≤ r.now
  decides : r.now ≤ r.decided
  ends : r.decided ≤ r.ended
  short : r.ended ≤ l.clock + waitMs r.now l.nextTick * 1000000 + overhead

def TakesTime (overhead : Nat) (l : MainLoop) : LoopEvent → Prop
  | .round r => r.Timed overhead l
  | .files _ => True

/-- A sleep ends before the next tick is due. -/
theorem waitMs_le {now nextTick : Nat} (h : now < nextTick) :
    now + waitMs now nextTick * 1000000 ≤ nextTick := by
  rw [waitMs, if_pos h]
  have hmin : min ((nextTick - now) / 1000000) 2147483647 ≤ (nextTick - now) / 1000000 :=
    min_le_left _ _
  have hdiv : (nextTick - now) / 1000000 * 1000000 ≤ nextTick - now := Nat.div_mul_le_self _ _
  have hmul := Nat.mul_le_mul_right 1000000 hmin
  omega

theorem tickIntervalSecs_le (epoch : Nat) (eng : Engine) :
    eng.tickIntervalSecs epoch ≤ idleTickSecs :=
  (nextWakeSecs_isLeast _).2 .idle

/-- What a run keeps about time. -/
structure MainLoop.Punctual (overhead : Nat) (l : MainLoop) : Prop where
  due : l.clock ≤ l.nextTick + overhead
  soon : l.nextTick ≤ l.lastTick + idleTickSecs * nanos

theorem MainLoop.Punctual.round {overhead : Nat} {l : MainLoop} {r : Round}
    (hl : l.Punctual overhead) (hr : r.Timed overhead l) : (l.round r).Punctual overhead := by
  unfold MainLoop.round
  split_ifs with hticks
  · have hinterval := Nat.mul_le_mul_right nanos (tickIntervalSecs_le r.env.sleepEpoch
      (tick r.env (r.served l.sys)).state.eng)
    exact ⟨(Nat.le_add_right _ _).trans (Nat.le_add_right _ _), Nat.add_le_add_left hinterval _⟩
  · refine ⟨?_, hl.soon⟩
    -- the next tick is still ahead, so the round has slept no longer than until then
    have hahead : r.decided < l.nextTick := not_le.mp fun h => hticks (.inl h)
    have hsleep := waitMs_le (hr.decides.trans_lt hahead)
    have hbegins := hr.begins
    have hshort := hr.short
    show r.ended ≤ l.nextTick + overhead
    omega

/-- A round does not go on for long after the next tick is due. -/
theorem MainLoop.Punctual.ended_le {overhead : Nat} {l : MainLoop} {r : Round}
    (hl : l.Punctual overhead) (hr : r.Timed overhead l) :
    r.ended ≤ l.nextTick + 2 * overhead := by
  have hdue := hl.due
  have hbegins := hr.begins
  have hshort := hr.short
  by_cases hahead : r.now < l.nextTick
  · have hsleep := waitMs_le hahead
    omega
  · rw [waitMs, if_neg hahead] at hshort
    omega

/-- **Ticks are never further apart than the longest sleep.**  Whatever clients
and reports arrive, and whether or not ticks fail: at the end of a round the last
tick is at most 300 seconds and one overhead ago; and the round that ticks next is
over 300 seconds and two overheads after it. -/
theorem lastTick_recent {overhead : Nat} {begins : Env → Prop} {l : MainLoop}
    (hl : (mainLoop begins).ReachableWhen (TakesTime overhead) l) :
    l.clock ≤ l.lastTick + 300 * nanos + overhead ∧
      ∀ r : Round, r.Timed overhead l → r.ended ≤ l.lastTick + 300 * nanos + 2 * overhead := by
  have hpunctual : l.Punctual overhead := by
    refine System.ReachableWhen.invariant
      (?_ : ∀ l, (mainLoop begins).init l → l.Punctual overhead) ?_ hl
    · rintro l ⟨start, first, fs, now, -, rfl⟩
      exact ⟨Nat.le_add_right _ _, Nat.le_add_right _ _⟩
    · intro l event l' hl hcond hnext
      cases event with
      | round r =>
          obtain rfl := Option.some.inj hnext
          exact hl.round hcond
      | files fs =>
          obtain rfl := Option.some.inj hnext
          exact ⟨hl.due, hl.soon⟩
  have hsoon : l.nextTick ≤ l.lastTick + 300 * nanos := hpunctual.soon
  have hdue := hpunctual.due
  refine ⟨by omega, fun r hr => ?_⟩
  have hended := hpunctual.ended_le hr
  omega

/-- A loop that has just begun, on a device with one app. -/
def MainLoop.begun : MainLoop :=
  .begin (.quiet 100) (.quiet 100) ⟨none, none, none, some ⟨"com.game 10001", 1⟩⟩ 0

/-- Its first round, in which the watch reports on the package list. -/
def Round.first : Round where
  now := 0
  conn := none
  reads := some ([[statsWritten], [listMoved]].map readBytes)
  decided := 500
  env := .quiet 100
  ended := 1000

theorem lastTick_recent_begun :
    (MainLoop.begun.round .first).clock ≤
        (MainLoop.begun.round .first).lastTick + 300 * nanos + nanos ∧
      ∀ r : Round, r.Timed nanos (MainLoop.begun.round .first) →
        r.ended ≤ (MainLoop.begun.round .first).lastTick + 300 * nanos + 2 * nanos := by
  have htimed : Round.first.Timed nanos MainLoop.begun := by
    refine ⟨Nat.le_refl 0, ?_, ?_, ?_⟩ <;> decide +kernel
  have hbegun : (mainLoop fun _ => True).ReachableWhen (TakesTime nanos) MainLoop.begun :=
    .init ⟨_, _, _, _, trivial, rfl⟩
  have htakes : TakesTime nanos MainLoop.begun (.round .first) := htimed
  exact lastTick_recent (.step hbegun htakes rfl)

/-! ## A report on the package list -/

/-- The user directories are always the same, the list is found where a tick looks
for it, and a new list gets a time it has not had before. -/
def KeepsLists (dirs : List String) (l : MainLoop) : LoopEvent → Prop
  | .round r => r.env.userDirs = dirs ∧ r.env.fails .statPackages = false ∧
      ∀ c, r.conn = some c → c.env.userDirs = dirs
  | .files fs => fs.packages = l.sys.fs.packages ∨
      ∃ file, fs.packages = some file ∧ file.mtime ∉ l.listTimes

/-- The loop between two rounds, as far as the package list goes. -/
def MainLoop.race (l : MainLoop) : ListRace := ⟨l.sys, .idle, false, 0, l.listTimes⟩

theorem Tracked.takes {dirs : List String} {s s' : Sys} {times : List Nat}
    (h : Tracked dirs ⟨s, .idle, false, 0, times⟩) (htakes : TakesUids dirs s s') :
    Tracked dirs ⟨s', .idle, false, 0, times⟩ :=
  h.goto htakes rfl (fun _ _ h => by cases h) fun h => by cases h

theorem takesUids_served {dirs : List String} {r : Round}
    (hconn : ∀ c, r.conn = some c → c.env.userDirs = dirs) (s : Sys) :
    TakesUids dirs s (r.served s) := by
  rcases r.served_cases s with hsame | ⟨c, req, op, hc, hop, hserved⟩
  · rw [hsame]
    exact .refl dirs s
  · have hdirs := hconn c hc
    have hsees : op.isTick = false ∧ SeesList dirs (.fresh c.env s.fs) (.request op) := by
      unfold Request.asks at hop
      split_ifs at hop
      · exact Option.some.inj hop ▸ ⟨rfl, hdirs⟩
      · exact Option.some.inj hop ▸ ⟨rfl, trivial⟩
      · exact Option.some.inj hop ▸ ⟨rfl, hdirs⟩
    rw [hserved]
    exact takesUids_request hsees.1 hsees.2 s

theorem tracked_round {dirs : List String} {l : MainLoop} {r : Round} (hl : Tracked dirs l.race)
    (hr : KeepsLists dirs l (.round r)) : Tracked dirs (l.round r).race := by
  obtain ⟨rfl, -, hconn⟩ := hr
  have hserved := takesUids_served hconn l.sys
  unfold MainLoop.round
  split_ifs
  · exact hl.takes (hserved.trans (takesUids_tick r.env _))
  · exact hl.takes hserved

theorem tracked_files {dirs : List String} {l : MainLoop} {fs : Fs} (hl : Tracked dirs l.race)
    (hfs : KeepsLists dirs l (.files fs)) :
    Tracked dirs ⟨{ l.sys with fs := fs }, .idle, false, 0,
      (fs.packages.map File.mtime).toList ++ l.listTimes⟩ where
  listTime file hfile := by
    have hlist : fs.packages = some file := hfile
    rw [hlist]
    simp
  recordTime mtime h := List.mem_append_right _ (hl.recordTime mtime h)
  seenTime env mtime h := by cases h
  sees env h := by cases h
  recorded := by
    rintro ⟨file, hfile, hmtime⟩
    rcases hfs with hsame | ⟨file', hfile', hnew⟩
    · have hmapped := hl.recorded ⟨file, hsame ▸ hfile, hmtime⟩
      exact fun file' hfile' => hmapped file' (hsame ▸ hfile')
    · -- the time of the new list is not on record
      obtain rfl := Option.some.inj (hfile.symm.trans hfile')
      exact absurd (hl.recordTime _ hmtime) hnew
  seen h := by cases h
  caught h := by
    rcases h with h | ⟨h, -⟩
    · exact absurd h (Nat.not_succ_le_zero 0)
    · cases h
  ongoing h := absurd h (Nat.not_succ_le_zero 0)

theorem listTracked_of_reachable {dirs : List String} {l : MainLoop}
    (hl : (mainLoop fun env => env.userDirs = dirs).ReachableWhen (KeepsLists dirs) l) :
    Tracked dirs l.race := by
  refine System.ReachableWhen.invariant
    (?_ : ∀ l, (mainLoop fun env => env.userDirs = dirs).init l → Tracked dirs l.race) ?_ hl
  · rintro l ⟨start, first, fs, now, rfl, rfl⟩
    have hnew : Tracked first.userDirs
        ⟨Engine.new start fs, .idle, false, 0, (fs.packages.map File.mtime).toList⟩ := by
      refine tracked_new fun file hfile => ?_
      rw [hfile]
      simp
    exact hnew.takes (takesUids_tick first _)
  · intro l event l' hl hcond hnext
    cases event with
    | round r =>
        obtain rfl := Option.some.inj hnext
        exact tracked_round hl hcond
    | files fs =>
        obtain rfl := Option.some.inj hnext
        exact tracked_files hl hcond

/-- **A report on `packages.list` is acted upon in the same round.**  However the
reads split it off from the reports on other files, and whatever is still to wait
for: the round ticks, and when the tick succeeds, the uid map is that of the list
as it is then. -/
theorem list_of_report {dirs : List String} {l : MainLoop} {r : Round}
    {reads : List (List FileReport)}
    (hl : (mainLoop fun env => env.userDirs = dirs).ReachableWhen (KeepsLists dirs) l)
    (hr : KeepsLists dirs l (.round r)) (hreads : r.reads = some (reads.map readBytes))
    (hwhole : ∀ batch ∈ reads, batch ≠ [])
    (hreport : ∃ batch ∈ reads, ∃ report ∈ batch, report.name = packagesListName) :
    l.ticks r ∧ ((tick r.env (r.served l.sys)).isOk = true →
      ∀ file, (l.round r).sys.fs.packages = some file →
        resolveUids (some file.content) dirs = some (l.round r).sys.eng.uidOf) := by
  have hdrained : drainInotify (reads.map readBytes) = true := by
    rw [drainInotify, drainReads_reports reads hwhole]
    simpa only [List.any_eq_true, decide_eq_true_eq] using hreport
  have hticks : l.ticks r := .inr (by
    rw [Round.changed, hreads, Option.map_some, Option.getD_some, hdrained, Bool.or_true])
  refine ⟨hticks, fun hok file hfile => ?_⟩
  have hsys : (l.round r).sys = (tick r.env (r.served l.sys)).state := by
    rw [MainLoop.round, if_pos hticks]
  have hrecord : OnRecord (l.round r).sys := by
    rw [hsys]
    exact onRecord_of_tick hr.2.1 hok
  exact (tracked_round (listTracked_of_reachable hl) hr).recorded ⟨file, hfile, hrecord file hfile⟩
    file hfile

theorem list_of_report_begun :
    MainLoop.begun.ticks .first ∧
      ((tick (.quiet 100) (Round.first.served MainLoop.begun.sys)).isOk = true →
        ∀ file, (MainLoop.begun.round .first).sys.fs.packages = some file →
          resolveUids (some file.content) [] =
            some (MainLoop.begun.round .first).sys.eng.uidOf) :=
  list_of_report (.init ⟨_, _, _, _, rfl, rfl⟩) ⟨rfl, rfl, fun _ h => by cases h⟩ rfl (by simp)
    ⟨[listMoved], by simp, listMoved, by simp, rfl⟩

end Ningshi
