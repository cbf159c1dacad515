import Ningshi.Lib.Records
import Mathlib.Tactic

/-!
# The watch on `/data/system`

The kernel reports a changed file in `/data/system` with a record: three words,
the length of the name field, and the name with zero bytes behind it.  One read
returns some of the records that wait, and `drainInotify` reads until nothing
is left, into the same buffer every time.

`drainInotify_iff` says that it answers yes exactly when one of the reports is
about `packages.list`, whatever the buffer held before.
-/

namespace Ningshi

open Records

/-- `size_of::<inotify_event>()` -/
def eventHeader : Nat := 16

def packagesListName : List UInt8 := "packages.list".toUTF8.toList

/-- The word that says how long the name field is. -/
def nameLen (event : List UInt8) : Nat :=
  match event.drop 12 with
  | a :: b :: c :: d :: _ => a.toNat + 256 * b.toNat + 65536 * c.toNat + 16777216 * d.toNat
  | _ => 0

/-- Does a name field hold this name?  It ends at the first zero byte. -/
def namesPackagesList (raw : List UInt8) : Bool := raw.takeWhile (· ≠ 0) = packagesListName

/-- The loop over the first `n` bytes of the buffer. -/
def scanEvents (buf : List UInt8) (n off : Nat) (changed : Bool) : Bool :=
  if off + eventHeader ≤ n then
    let len := nameLen (buf.drop off)
    if n < off + eventHeader + len then changed
    else
      let raw := (buf.drop (off + eventHeader)).take len
      scanEvents buf n (off + eventHeader + len)
        (changed || (0 < len && namesPackagesList raw))
  else changed
termination_by n - off
decreasing_by
  simp only [eventHeader] at *
  omega

/-- `drain_inotify`, for what the reads return in turn.  Nothing more waits at an
empty read or at the end of the list. -/
def drainReads : List (List UInt8) → List UInt8 → Bool → Bool
  | [], _, changed => changed
  | bytes :: reads, buf, changed =>
      if bytes = [] then changed
      else
        -- the buffer keeps what the read does not overwrite
        let buf := bytes ++ buf.drop bytes.length
        drainReads reads buf (scanEvents buf bytes.length 0 changed)

def drainInotify (reads : List (List UInt8)) : Bool :=
  drainReads reads (List.replicate 4096 0) false

/-! ## The reports of the kernel -/

/-- Four bytes, the lowest first. -/
def wordBytes (w : UInt32) : List UInt8 :=
  [w.toUInt8, (w >>> 8).toUInt8, (w >>> 16).toUInt8, (w >>> 24).toUInt8]

/-- A report: a name without zero bytes, and so many zero bytes behind it. -/
structure FileReport where
  wd : UInt32
  mask : UInt32
  cookie : UInt32
  name : List UInt8
  padding : Nat
  noZero : 0 ∉ name
  fits : name.length + padding < 2 ^ 32

def FileReport.encode (report : FileReport) : List UInt8 :=
  wordBytes report.wd ++ wordBytes report.mask ++ wordBytes report.cookie ++
    wordBytes (.ofNat (report.name.length + report.padding)) ++ report.name ++
    List.replicate report.padding 0

/-! ## The loop and the records -/

/-- The format of the reports. -/
def reportFormat : Format UInt8 where
  header := eventHeader
  header_pos := by decide
  payload := nameLen

def isPackagesList (record : List UInt8) : Bool := namesPackagesList (record.drop eventHeader)

theorem nameLen_take {bytes : List UInt8} (h : eventHeader ≤ bytes.length) (k : Nat) :
    nameLen (bytes.take (k + eventHeader)) = nameLen bytes := by
  have htake : (bytes.take (k + eventHeader)).drop 12 = (bytes.drop 12).take (k + 4) := by
    rw [List.drop_take]
    rfl
  have hlen : 4 ≤ (bytes.drop 12).length := by
    rw [List.length_drop]
    simp only [eventHeader] at h
    omega
  rw [nameLen, nameLen, htake]
  match bytes.drop 12, hlen with
  | a :: b :: c :: d :: rest, _ => rfl

theorem namesPackagesList_nil : namesPackagesList [] = false := by decide +kernel

/-- What the loop takes for the length of the record at `off`. -/
theorem size_window {buf : List UInt8} {n off : Nat} (hn : n ≤ buf.length)
    (hoff : off + eventHeader ≤ n) :
    reportFormat.size ((buf.take n).drop off) = eventHeader + nameLen (buf.drop off) := by
  have hwindow : (buf.take n).drop off = (buf.drop off).take (n - off) := List.drop_take
  have hlen : eventHeader ≤ (buf.drop off).length := by
    rw [List.length_drop]
    omega
  obtain ⟨k, hk⟩ := Nat.exists_eq_add_of_le' (by omega : eventHeader ≤ n - off)
  have hheader : ((buf.drop off).take (n - off)).take eventHeader =
      (buf.drop off).take (0 + eventHeader) := by
    rw [List.take_take, hk, Nat.zero_add, Nat.min_eq_left (Nat.le_add_left _ _)]
  rw [hwindow, Format.size]
  show eventHeader + nameLen (((buf.drop off).take (n - off)).take eventHeader) = _
  rw [hheader, nameLen_take hlen]

/-- **The loop looks at the records of the first `n` bytes**, and at nothing else. -/
theorem scanEvents_eq (buf : List UInt8) {n : Nat} (hn : n ≤ buf.length) (off : Nat)
    (changed : Bool) :
    scanEvents buf n off changed =
      (changed || (reportFormat.parse ((buf.take n).drop off)).any isPackagesList) := by
  have hlength (off : Nat) : ((buf.take n).drop off).length = n - off := by
    rw [List.length_drop, List.length_take]
    omega
  induction off, changed using scanEvents.induct buf n with
  | case1 off changed hoff len htorn =>
      have hparse : reportFormat.parse ((buf.take n).drop off) = [] := by
        refine Format.parse_of_torn ?_
        rw [size_window hn hoff, hlength]
        omega
      rw [scanEvents, if_pos hoff, if_pos htorn, hparse, List.any_nil, Bool.or_false]
  | case2 off changed hoff len hwhole raw ih =>
      have hsize := size_window hn hoff
      have hfits : reportFormat.size ((buf.take n).drop off) ≤ ((buf.take n).drop off).length := by
        rw [hsize, hlength]
        omega
      have hrest : ((buf.take n).drop off).drop (reportFormat.size ((buf.take n).drop off)) =
          (buf.take n).drop (off + eventHeader + len) := by
        rw [hsize, List.drop_drop, Nat.add_assoc]
      have hraw : (((buf.take n).drop off).take
          (reportFormat.size ((buf.take n).drop off))).drop eventHeader = raw := by
        rw [hsize, List.drop_take, Nat.add_sub_cancel_left, List.drop_drop, List.drop_take,
          List.take_take, Nat.min_eq_left (by omega)]
      have hname : (decide (0 < len) && namesPackagesList raw) = namesPackagesList raw := by
        by_cases hlen : 0 < len
        · rw [decide_eq_true hlen, Bool.true_and]
        · have hnil : raw = [] := by
            show List.take len _ = []
            rw [Nat.eq_zero_of_not_pos hlen, List.take_zero]
          rw [hnil, namesPackagesList_nil, Bool.and_false]
      have hparse : reportFormat.parse ((buf.take n).drop off) =
          ((buf.take n).drop off).take (reportFormat.size ((buf.take n).drop off)) ::
            reportFormat.parse ((buf.take n).drop (off + eventHeader + len)) := by
        rw [Format.parse, if_pos hfits, hrest]
      rw [scanEvents, if_pos hoff, if_neg hwhole, ih, hparse, List.any_cons, isPackagesList, hraw,
        hname, Bool.or_assoc]
  | case3 off changed hoff =>
      have hparse : reportFormat.parse ((buf.take n).drop off) = [] := by
        refine Format.parse_of_torn ?_
        have hheader : eventHeader ≤ reportFormat.size ((buf.take n).drop off) :=
          Nat.le_add_right _ _
        have hpos : 0 < eventHeader := by decide
        rw [hlength]
        omega
      rw [scanEvents, if_neg hoff, hparse, List.any_nil, Bool.or_false]

/-! ## Reports are understood -/

theorem wordBytes_value (w : UInt32) :
    w.toUInt8.toNat + 256 * (w >>> 8).toUInt8.toNat + 65536 * (w >>> 16).toUInt8.toNat +
      16777216 * (w >>> 24).toUInt8.toNat = w.toNat := by
  have hlt := w.toNat_lt
  simp only [UInt32.toNat_toUInt8, UInt32.toNat_shiftRight, UInt32.reduceToNat, Nat.reduceMod,
    Nat.shiftRight_eq_div_pow, Nat.reducePow]
  omega

namespace FileReport

variable (report : FileReport)

theorem length_encode :
    report.encode.length = eventHeader + (report.name.length + report.padding) := by
  simp only [encode, wordBytes, List.length_append, List.length_cons, List.length_nil,
    List.length_replicate, eventHeader]
  omega

theorem nameLen_encode : nameLen report.encode = report.name.length + report.padding := by
  have hvalue := wordBytes_value (.ofNat (report.name.length + report.padding))
  rw [UInt32.toNat_ofNat_of_lt' report.fits] at hvalue
  exact hvalue

/-- A report is one record. -/
theorem isRecord_encode : reportFormat.IsRecord report.encode := by
  have hlen : eventHeader ≤ report.encode.length := by
    rw [length_encode]
    exact Nat.le_add_right _ _
  have hheader := nameLen_take hlen 0
  rw [Nat.zero_add] at hheader
  show report.encode.length = eventHeader + nameLen (report.encode.take eventHeader)
  rw [hheader, nameLen_encode, length_encode]

theorem isPackagesList_encode :
    isPackagesList report.encode = decide (report.name = packagesListName) := by
  have hfield : report.encode.drop eventHeader = report.name ++ List.replicate report.padding 0 :=
    rfl
  have hname : (report.name ++ List.replicate report.padding (0 : UInt8)).takeWhile (· ≠ 0) =
      report.name := by
    rw [List.takeWhile_append_of_pos fun b hb => by
      simpa using fun hzero : b = 0 => report.noZero (hzero ▸ hb)]
    cases report.padding <;> simp
  rw [isPackagesList, namesPackagesList, hfield, hname]

end FileReport

/-- The reads look at their own records only. -/
theorem drainReads_eq (reads : List (List UInt8)) (hreads : ∀ bytes ∈ reads, bytes ≠ [])
    (buf : List UInt8) (changed : Bool) :
    drainReads reads buf changed =
      (changed || reads.any fun bytes => (reportFormat.parse bytes).any isPackagesList) := by
  induction reads generalizing buf changed with
  | nil => simp [drainReads]
  | cons bytes reads ih =>
      have hne := hreads bytes List.mem_cons_self
      have hrest (other : List UInt8) (h : other ∈ reads) : other ≠ [] :=
        hreads other (List.mem_cons_of_mem bytes h)
      have hlen : bytes.length ≤ (bytes ++ buf.drop bytes.length).length := by
        rw [List.length_append]
        exact Nat.le_add_right _ _
      rw [drainReads, if_neg hne, ih hrest, scanEvents_eq _ hlen, List.drop_zero, List.take_left,
        List.any_cons, Bool.or_assoc]

/-- The bytes of a read that returns these reports. -/
def readBytes (batch : List FileReport) : List UInt8 := (batch.map FileReport.encode).flatten

theorem readBytes_ne_nil {batch : List FileReport} (h : batch ≠ []) : readBytes batch ≠ [] := by
  intro hnil
  obtain ⟨report, hreport⟩ := List.exists_mem_of_ne_nil batch h
  have hempty := List.flatten_eq_nil_iff.mp hnil _ (List.mem_map_of_mem hreport)
  have hlen := report.length_encode
  rw [hempty, List.length_nil] at hlen
  have hpos : 0 < eventHeader := by decide
  omega

theorem parse_readBytes (batch : List FileReport) :
    reportFormat.parse (readBytes batch) = batch.map FileReport.encode := by
  refine Format.parse_flatten fun bytes hbytes => ?_
  obtain ⟨report, -, rfl⟩ := List.mem_map.mp hbytes
  exact report.isRecord_encode

/-- Reports are looked through, from any buffer. -/
theorem drainReads_reports (reads : List (List FileReport)) (hreads : ∀ batch ∈ reads, batch ≠ [])
    (buf : List UInt8) :
    drainReads (reads.map readBytes) buf false =
      reads.any fun batch => batch.any fun report => report.name = packagesListName := by
  have hnonempty : ∀ bytes ∈ reads.map readBytes, bytes ≠ [] := by
    intro bytes hbytes
    obtain ⟨batch, hbatch, rfl⟩ := List.mem_map.mp hbytes
    exact readBytes_ne_nil (hreads batch hbatch)
  rw [drainReads_eq _ hnonempty, Bool.false_or, List.any_map]
  simp only [Function.comp_def, parse_readBytes, List.any_map, FileReport.isPackagesList_encode]

/-- **A drained report is understood.**  However many reports wait, and however the
reads split them, the answer is yes exactly when one of them is about
`packages.list`. -/
theorem drainInotify_iff (reads : List (List FileReport)) (hreads : ∀ batch ∈ reads, batch ≠ []) :
    drainInotify (reads.map readBytes) = true ↔
      ∃ batch ∈ reads, ∃ report ∈ batch, report.name = packagesListName := by
  rw [drainInotify, drainReads_reports reads hreads]
  simp only [List.any_eq_true, decide_eq_true_eq]

/-- The report that a new list has been moved into place, and that of another file. -/
def listMoved : FileReport where
  wd := 1
  mask := 128
  cookie := 7
  name := packagesListName
  padding := 3
  noZero := by decide +kernel
  fits := by decide +kernel

def statsWritten : FileReport where
  wd := 1
  mask := 8
  cookie := 0
  name := "batterystats".toUTF8.toList
  padding := 4
  noZero := by decide +kernel
  fits := by decide +kernel

theorem drainInotify_iff_listMoved :
    drainInotify ([[statsWritten], [statsWritten, listMoved]].map readBytes) = true ↔
      ∃ batch ∈ [[statsWritten], [statsWritten, listMoved]], ∃ report ∈ batch,
        report.name = packagesListName :=
  drainInotify_iff _ (by simp)

end Ningshi
