import Mathlib.Logic.Function.Basic
import Mathlib.Data.List.Infix

/-!
# File actions that can be cut short

A program changes its files by a list of actions.  Writing and copying fill the
target piece by piece; moving a file into place happens at once.  When the
program is stopped, the action it was at leaves its target with any content
whatever, unless it is a move.

`CutShort.atomic` says that a file which one action moves into place is found
as it was or as it will be, whenever the program is stopped.
-/

namespace FileActs

universe u v

variable {ι : Type u} {α : Type v}

/-- What the files hold. -/
abbrev Disk (ι : Type u) (α : Type v) := ι → Option α

inductive FileAct (ι : Type u) (α : Type v) where
  | write (file : ι) (content : α)
  | rename (src dst : ι)
  | copy (src dst : ι)
  /-- an attempt to fill a file that fails and leaves this behind -/
  | spoil (file : ι) (left : Option α)

/-- The file an action fills piece by piece. -/
def FileAct.fills : FileAct ι α → Option ι
  | write file _ => some file
  | rename _ _ => none
  | copy _ dst => some dst
  | spoil file _ => some file

/-- The action changes at most these files. -/
def FileAct.touches : FileAct ι α → List ι
  | write file _ => [file]
  | rename src dst => [src, dst]
  | copy _ dst => [dst]
  | spoil file _ => [file]

/-- Write a new content to the side, then move it into place. -/
def replace (tmp file : ι) (content : α) : List (FileAct ι α) :=
  [.write tmp content, .rename tmp file]

/-! ## Files moved into place -/

/-- No action touches the file. -/
def Untouched (file : ι) (acts : List (FileAct ι α)) : Prop := ∀ act ∈ acts, file ∉ act.touches

/-- At most one action touches the file, and it does not fill it piece by piece. -/
inductive Atomic (file : ι) : List (FileAct ι α) → Prop
  | untouched {acts : List (FileAct ι α)} (h : Untouched file acts) : Atomic file acts
  | once {before after : List (FileAct ι α)} {act : FileAct ι α} (hbefore : Untouched file before)
      (hact : act.fills ≠ some file) (hafter : Untouched file after) :
      Atomic file (before ++ act :: after)

variable {acts : List (FileAct ι α)} {file : ι}

theorem FileAct.fills_ne_of_not_touches {act : FileAct ι α} (h : file ∉ act.touches) :
    act.fills ≠ some file := by
  rintro hfills
  cases act <;> simp_all [fills, touches]

theorem Untouched.append {before after : List (FileAct ι α)} (hbefore : Untouched file before)
    (hafter : Untouched file after) : Untouched file (before ++ after) := fun act hact =>
  (List.mem_append.mp hact).elim (hbefore act) (hafter act)

theorem Atomic.after_untouched {before : List (FileAct ι α)} (hbefore : Untouched file before)
    (h : Atomic file acts) : Atomic file (before ++ acts) := by
  cases h with
  | untouched h => exact .untouched (hbefore.append h)
  | once hmid hact hafter =>
      rw [← List.append_assoc]
      exact .once (hbefore.append hmid) hact hafter

theorem Atomic.before_untouched {after : List (FileAct ι α)} (h : Atomic file acts)
    (hafter : Untouched file after) : Atomic file (acts ++ after) := by
  cases h with
  | untouched h => exact .untouched (h.append hafter)
  | once hbefore hact hmid =>
      rw [List.append_assoc, List.cons_append]
      exact .once hbefore hact (hmid.append hafter)

theorem Atomic.not_fills (h : Atomic file acts) : ∀ act ∈ acts, act.fills ≠ some file := by
  intro act hact
  cases h with
  | untouched h => exact FileAct.fills_ne_of_not_touches (h act hact)
  | once hbefore hact' hafter =>
      rcases List.mem_append.mp hact with hmem | hmem
      · exact FileAct.fills_ne_of_not_touches (hbefore act hmem)
      · rcases List.mem_cons.mp hmem with rfl | hmem
        · exact hact'
        · exact FileAct.fills_ne_of_not_touches (hafter act hmem)

/-- The file is moved into place. -/
theorem atomic_replace {tmp : ι} (h : file ≠ tmp) (content : α) :
    Atomic file (replace tmp file content) := by
  have hwrite : Untouched file [FileAct.write tmp content] := by
    simpa [Untouched, FileAct.touches] using h
  exact .once hwrite (by simp [FileAct.fills]) (by simp [Untouched])

/-- Other files are left alone. -/
theorem untouched_replace {tmp target : ι} (htmp : file ≠ tmp) (htarget : file ≠ target)
    (content : α) : Untouched file (replace tmp target content) := by
  simp [Untouched, replace, FileAct.touches, htmp, htarget]

/-! ## Running, and being stopped -/

variable [DecidableEq ι]

/-- What an action leaves when nothing goes wrong; without its source it does nothing. -/
def FileAct.run : FileAct ι α → Disk ι α → Disk ι α
  | write file content, d => Function.update d file (some content)
  | rename src dst, d =>
      (d src).elim d fun content =>
        Function.update (Function.update d src none) dst (some content)
  | copy src dst, d => (d src).elim d fun content => Function.update d dst (some content)
  | spoil file left, d => Function.update d file left

def runAll (acts : List (FileAct ι α)) (d : Disk ι α) : Disk ι α :=
  acts.foldl (fun d act => act.run d) d

/-- What can be found when the program is stopped on its way through the actions. -/
inductive CutShort (acts : List (FileAct ι α)) (d : Disk ι α) : Disk ι α → Prop
  /-- between two actions, or after the last one -/
  | between {before : List (FileAct ι α)} (hearlier : before <+: acts) :
      CutShort acts d (runAll before d)
  /-- within an action that fills a file -/
  | within {before : List (FileAct ι α)} {act : FileAct ι α} {file : ι}
      (hearlier : before ++ [act] <+: acts) (hfills : act.fills = some file) (left : Option α) :
      CutShort acts d (Function.update (runAll before d) file left)

variable {d d' : Disk ι α}

@[simp] theorem runAll_nil (d : Disk ι α) : runAll [] d = d := rfl

theorem runAll_append (before after : List (FileAct ι α)) (d : Disk ι α) :
    runAll (before ++ after) d = runAll after (runAll before d) :=
  List.foldl_append

theorem FileAct.run_of_not_touches {act : FileAct ι α} (h : file ∉ act.touches) (d : Disk ι α) :
    act.run d file = d file := by
  cases act with
  | write f content => exact Function.update_of_ne (by simpa [touches] using h) _ _
  | spoil f left => exact Function.update_of_ne (by simpa [touches] using h) _ _
  | copy src dst =>
      simp only [run]
      cases d src with
      | none => rfl
      | some content => exact Function.update_of_ne (by simpa [touches] using h) _ _
  | rename src dst =>
      obtain ⟨hsrc, hdst⟩ : file ≠ src ∧ file ≠ dst := by simpa [touches] using h
      simp only [run]
      cases d src with
      | none => rfl
      | some content =>
          exact (Function.update_of_ne hdst _ _).trans (Function.update_of_ne hsrc _ _)

/-- A file no action touches stays. -/
theorem runAll_of_untouched (h : Untouched file acts) (d : Disk ι α) :
    runAll acts d file = d file := by
  induction acts generalizing d with
  | nil => rfl
  | cons act acts ih =>
      have hrest := ih (fun a ha => h a (List.mem_cons_of_mem act ha)) (act.run d)
      exact hrest.trans (FileAct.run_of_not_touches (h act List.mem_cons_self) d)

/-- **A file that is not filled piece by piece** holds at every moment what it
held after some of the actions. -/
theorem CutShort.exists_prefix (h : CutShort acts d d')
    (hfile : ∀ act ∈ acts, act.fills ≠ some file) :
    ∃ before, before <+: acts ∧ d' file = runAll before d file := by
  cases h with
  | between hearlier => exact ⟨_, hearlier, rfl⟩
  | @within before act filled hearlier hfills left =>
      have hact : act ∈ acts := hearlier.subset (by simp)
      have hne : file ≠ filled := by
        rintro rfl
        exact hfile act hact hfills
      exact ⟨before, (List.prefix_append _ _).trans hearlier, Function.update_of_ne hne _ _⟩

/-- After some of the actions such a file is as it was or as it will be. -/
theorem Atomic.runAll_prefix (h : Atomic file acts) {before : List (FileAct ι α)}
    (hearlier : before <+: acts) (d : Disk ι α) :
    runAll before d file = d file ∨ runAll before d file = runAll acts d file := by
  cases h with
  | untouched h =>
      exact .inl (runAll_of_untouched (fun act hact => h act (hearlier.subset hact)) d)
  | @once first last act hfirst _ hlast =>
      rcases List.prefix_or_prefix_of_prefix hearlier (List.prefix_append first (act :: last)) with
        hfew | ⟨rest, rfl⟩
      · exact .inl (runAll_of_untouched (fun a ha => hfirst a (hfew.subset ha)) d)
      · have hrest := (List.prefix_append_right_inj first).mp hearlier
        cases rest with
        | nil =>
            rw [List.append_nil]
            exact .inl (runAll_of_untouched hfirst d)
        | cons act' rest =>
            -- the action is done, and the others leave the file alone
            obtain ⟨rfl, hothers⟩ := List.cons_prefix_cons.mp hrest
            have hsofar : Untouched file rest := fun a ha => hlast a (hothers.subset ha)
            refine .inr ?_
            rw [List.append_cons first act' rest, List.append_cons first act' last, runAll_append,
              runAll_append _ last, runAll_of_untouched hsofar, runAll_of_untouched hlast]

/-- **A file that is moved into place** is seen as it was or as it will be. -/
theorem CutShort.atomic (h : CutShort acts d d') (hfile : Atomic file acts) :
    d' file = d file ∨ d' file = runAll acts d file := by
  obtain ⟨before, hearlier, heq⟩ := h.exists_prefix hfile.not_fills
  rw [heq]
  exact hfile.runAll_prefix hearlier d

theorem runAll_replace {tmp : ι} (content : α) (d : Disk ι α) :
    runAll (replace tmp file content) d =
      Function.update (Function.update d tmp none) file (some content) := by
  simp [runAll, replace, FileAct.run]

end FileActs
