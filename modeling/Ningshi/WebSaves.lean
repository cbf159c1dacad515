import Ningshi.ApplyTruth
import Ningshi.Engine.Refresh
import Ningshi.LastGood
import Ningshi.Lib.EditLog
import Ningshi.WebFields

/-!
# `app.js`: saves and re-reads of the WebUI

All handlers share the object `rules` and the file `rules.json.tmp`.  An edit
changes the object and saves its text: the text is written to the file, and the
daemon is asked to apply it.  `loadRules` reads `rules.json` and replaces the
object with what it has read.  Between these steps other handlers run, also while a
text is being written: the shell empties the file and then writes part after part, at
an offset of its own.

An acknowledged edit can get lost in three ways: a re-read replaces the object with
one that lacks the edit, and a later save writes this back; an older text is written
over a newer one before this is applied; or two saves write to the file at once, and
what they leave is applied.  `edits_kept` says that there is no other way.
-/

namespace Ningshi

open Std FiniteMap JsonDoc Transition EditLog

/-! ## Sessions -/

/-- How far the save of an edit has come. -/
inductive Stage where
  /-- `writeFile` is under way -/
  | writing
  /-- the last part has been written, the daemon has not been asked yet -/
  | written
  /-- the daemon has answered that it applied a file -/
  | applied
  /-- `saveRules` has returned true -/
  | acked
  /-- the save has failed, or the edit ended without one -/
  | dropped
  deriving DecidableEq

/-- The text has been written to the temp file, and the save has not failed. -/
def Stage.sent : Stage → Bool
  | .written | .applied | .acked => true
  | .writing | .dropped => false

/-- A re-read between its two steps. -/
structure WebRead where
  /-- what `readFile` returns; `none` when it throws -/
  content : Option Text
  /-- the edits that were in the file (not in the program) -/
  seen : Nat → Bool

/-- The page and the daemon behind it. -/
structure Session where
  /-- `rules` -/
  doc : WebDoc
  sys : Sys
  /-- `rules.json.tmp` -/
  temp : Option Text
  /-- the saves that have the temp file open -/
  writers : List Nat
  /-- were several open at once since the file was last opened alone?
  (not in the program) -/
  torn : Bool
  reads : List WebRead
  /-- all edits, each with the object before and after it -/
  edits : List (Edit WebDoc)
  /-- the stage of the save of an edit, by its number -/
  stage : Nat → Stage
  /-- has the daemon applied a file since the text of this edit was written?
  (not in the program) -/
  onDisk : Nat → Bool

inductive WebEvent where
  /-- a handler edits the object; its save, if it has one, begins -/
  | edit (op : WebOp)
  /-- the shell opens the temp file, which empties it -/
  | opened (i : Nat)
  /-- a part of the text is written, and this is in the file now -/
  | wrote (i : Nat) (left : Text)
  /-- the last part is written; `left` is in the file now, if it is not the text -/
  | written (i : Nat) (left : Text)
  /-- the save fails before the daemon has applied anything -/
  | failed (i : Nat)
  /-- the daemon applies the temp file; `answered`: does its answer arrive? -/
  | apply (i : Nat) (env : Env) (answered : Bool)
  | acked (i : Nat)
  /-- the first step of `loadRules` -/
  | read (ok : Bool)
  /-- the second step, with the object that is read -/
  | assign (k : Nat) (doc : WebDoc)
  /-- the daemon does something else -/
  | daemon (op : Op)
  | restart (env : Env)
  /-- other files of the daemon are changed -/
  | files (backup state : Option Text) (packages : Option (File String))

/-- What `loadRules` makes of what it has read.  An object stands for a file that
the daemon can read if it is read as the same rules; any other JSON file may give
any object. -/
def LoadRules (content : Option Text) (doc : WebDoc) : Prop :=
  match content with
  | some (.json v) => Rules.ofJson v = none ∨ Rules.ofJson doc.toJson = Rules.ofJson v
  | _ => doc = .fresh

instance (content : Option Text) (doc : WebDoc) : Decidable (LoadRules content doc) :=
  match content with
  | some (.json v) =>
      inferInstanceAs (Decidable (Rules.ofJson v = none ∨ Rules.ofJson doc.toJson = Rules.ofJson v))
  | some (.other _) => inferInstanceAs (Decidable (doc = .fresh))
  | none => inferInstanceAs (Decidable (doc = .fresh))

/-- The requests that replace `rules.json`. -/
def Op.applies : Op → Bool
  | .apply _ _ => true
  | _ => false

/-- The first parts of an object's text are no JSON yet. -/
def isPart : Text → Bool
  | .json _ => false
  | .other _ => true

namespace Session

/-- The content of `rules.json`. -/
def rulesText (s : Session) : Option Text := s.sys.fs.rules.map File.content

def setStage (s : Session) (i : Nat) (stage : Stage) : Session :=
  { s with stage := Function.update s.stage i stage }

@[simp] theorem setStage_self (s : Session) (i : Nat) (stage : Stage) :
    (s.setStage i stage).stage i = stage := Function.update_self _ _ _

theorem setStage_of_ne (s : Session) {i k : Nat} (h : k ≠ i) (stage : Stage) :
    (s.setStage i stage).stage k = s.stage k := Function.update_of_ne h _ _

def edit (s : Session) (op : WebOp) : Session :=
  let (doc, saves) := op.run s.doc
  { s with
    doc := doc
    edits := s.edits ++ [⟨s.doc, doc⟩]
    stage := Function.update s.stage s.edits.length (if saves then .writing else .dropped) }

def apply (s : Session) (i : Nat) (env : Env) (answered : Bool) : Session :=
  let outcome := applyRulesFile env s.temp s.sys
  let replaced := (writtenByApply env s.temp).isSome
  { s with
    sys := outcome.state
    stage := Function.update s.stage i
      (if outcome.isOk && answered then .applied else .dropped)
    onDisk := fun j => s.onDisk j || (replaced && (s.stage j).sent) }

def read (s : Session) (ok : Bool) : Session :=
  let found : WebRead := if ok then ⟨s.rulesText, s.onDisk⟩ else ⟨none, fun _ => false⟩
  { s with reads := s.reads ++ [found] }

/-- The temp file after the last part of a text: whoever was not alone may find
anything. -/
def finished (s : Session) (text left : Text) : Text := if s.torn then left else text

def next (s : Session) : WebEvent → Option Session
  | .edit op => some (s.edit op)
  | .opened i =>
      if s.stage i = .writing ∧ i ∉ s.writers then
        some { s with
          temp := some (.other "")
          writers := i :: s.writers
          torn := !s.writers.isEmpty }
      else none
  | .wrote i left =>
      -- who is alone has written some of its own text
      if i ∈ s.writers ∧ (s.torn || isPart left) = true then some { s with temp := some left }
      else none
  | .written i left =>
      if s.stage i = .writing ∧ i ∈ s.writers then
        s.edits[i]?.map fun e =>
          { s.setStage i .written with
            temp := some (s.finished (.json e.after.toJson) left)
            writers := s.writers.erase i }
      else none
  | .failed i =>
      if s.stage i = .writing ∨ s.stage i = .written then
        some { s.setStage i .dropped with writers := s.writers.erase i }
      else none
  | .apply i env answered => if s.stage i = .written then some (s.apply i env answered) else none
  | .acked i => if s.stage i = .applied then some (s.setStage i .acked) else none
  | .read ok => some (s.read ok)
  | .assign k doc =>
      s.reads[k]?.bind fun r =>
        if LoadRules r.content doc then some { s with doc := doc, reads := s.reads.eraseIdx k }
        else none
  | .daemon op => if op.applies then none else some { s with sys := op.perform s.sys }
  | .restart env => some { s with sys := Engine.new env s.sys.fs }
  | .files backup state packages =>
      some { s with sys.fs := ⟨s.sys.fs.rules, backup, state, packages⟩ }

/-- The page has just been opened; nothing is known of the files. -/
def start (sys : Sys) (temp : Option Text) : Session :=
  ⟨.fresh, sys, temp, [], false, [], [], fun _ => .dropped, fun _ => false⟩

/-! ## Acknowledged edits -/

/-- Rules text with every field as edit `i` left it, but for later edits. -/
def InRules (edits : List (Edit WebDoc)) (i : Nat) (content : Option Text) : Prop :=
  ∃ rules : Rules, content = some (.json rules.toJson) ∧
    Shows WebDoc.field edits i rules.field

/-- The edit is in `rules.json`. -/
def Present (s : Session) (i : Nat) : Prop := InRules s.edits i s.rulesText

/-- A text that is written alone is written before all later ones, what several saves
have left is not applied if it is read as rules, and a re-read is assigned only if all
edits were in the file when it was read; edits whose save has failed do not count. -/
def Undisturbed (s : Session) : WebEvent → Prop
  | .written i _ =>
      s.torn = true ∨
        ∀ j < s.edits.length, i < j → s.stage j = .writing ∨ s.stage j = .dropped
  | .apply _ _ _ => s.torn = true → s.temp.bind Rules.fromStr = none
  | .assign k _ => ∀ r ∈ s.reads[k]?, ∀ i < s.edits.length, s.stage i = .dropped ∨ r.seen i = true
  | _ => True

instance (s : Session) (event : WebEvent) : Decidable (s.Undisturbed event) := by
  unfold Undisturbed
  split <;> infer_instance

end Session

/-- Sessions from any state of the files. -/
def webSession : System Session WebEvent :=
  .ofNext (fun s => ∃ sys temp, s = .start sys temp) Session.next

/-! ## No copy is behind an edit -/

/-- What holds of a session whose steps have been undisturbed: the object, every
text, the temp file (unless several saves have written to it), the rules file and every
re-read show the edits they were made after, as far as these have not failed. -/
structure Session.Sound (s : Session) : Prop where
  unborn : ∀ i, s.edits.length ≤ i → s.stage i = .dropped
  taken : ∀ i, s.onDisk i = true → i < s.edits.length ∧ s.stage i ≠ .writing
  answered : ∀ i, s.stage i = .applied ∨ s.stage i = .acked → s.onDisk i = true
  doc : ∀ i, s.stage i ≠ .dropped → Shows WebDoc.field s.edits i s.doc.field
  texts : ∀ (i : Nat) (e : Edit WebDoc), s.edits[i]? = some e →
    ∀ k ≤ i, s.stage k ≠ .dropped → Shows WebDoc.field s.edits k e.after.field
  temp : s.torn = false → ∀ i, (s.stage i).sent = true → ∀ v, s.temp = some (.json v) →
    ∃ doc : WebDoc, v = doc.toJson ∧
      ∀ j, (s.stage j).sent = true → Shows WebDoc.field s.edits j doc.field
  disk : ∀ i, s.onDisk i = true → s.stage i ≠ .dropped → s.Present i
  reads : ∀ r ∈ s.reads, ∀ i, r.seen i = true →
    i < s.edits.length ∧ (s.stage i ≠ .dropped → Session.InRules s.edits i r.content)

section Sound

variable {s : Session} {i : Nat} {content : Option Text}

/-- What has been sent is neither being written nor dropped. -/
theorem Stage.live_of_sent {stage : Stage} (h : stage.sent = true) :
    stage ≠ .writing ∧ stage ≠ .dropped := by
  cases stage with
  | writing => cases h
  | dropped => cases h
  | written => exact ⟨nofun, nofun⟩
  | applied => exact ⟨nofun, nofun⟩
  | acked => exact ⟨nofun, nofun⟩

theorem Stage.sent_of_live {stage : Stage} (hwriting : stage ≠ .writing)
    (hdropped : stage ≠ .dropped) : stage.sent = true := by
  cases stage with
  | writing => exact absurd rfl hwriting
  | dropped => exact absurd rfl hdropped
  | written => rfl
  | applied => rfl
  | acked => rfl

theorem Session.InRules.append {edits : List (Edit WebDoc)} (h : Session.InRules edits i content)
    (hi : i < edits.length) (e : Edit WebDoc) : Session.InRules (edits ++ [e]) i content := by
  obtain ⟨rules, hcontent, hshows⟩ := h
  exact ⟨rules, hcontent, hshows.append hi e⟩

/-- An edit that is not dropped has been made. -/
theorem Session.Sound.lt_length (h : s.Sound) (hi : s.stage i ≠ .dropped) :
    i < s.edits.length := by
  by_contra hlt
  exact hi (h.unborn i (Nat.not_lt.mp hlt))

theorem sound_start (sys : Sys) (temp : Option Text) : (Session.start sys temp).Sound where
  unborn _ _ := rfl
  taken _ h := by cases h
  answered _ h := by rcases h with h | h <;> cases h
  doc _ h := absurd rfl h
  texts _ _ _ _ _ h := absurd rfl h
  temp _ _ h := by cases h
  disk _ h := by cases h
  reads _ h := absurd h List.not_mem_nil

/-- An edit gets the next number; the stages of the others stay. -/
theorem edit_stage_of_ne (s : Session) (op : WebOp) {k : Nat} (hk : k ≠ s.edits.length) :
    (s.edit op).stage k = s.stage k := Function.update_of_ne hk _ _

theorem edit_stage_new (s : Session) (op : WebOp) :
    (s.edit op).stage s.edits.length = .writing ∨
      (s.edit op).stage s.edits.length = .dropped := by
  have hnew : (s.edit op).stage s.edits.length =
      if (op.run s.doc).2 then .writing else .dropped := Function.update_self _ _ _
  rw [hnew]
  split_ifs
  · exact .inl rfl
  · exact .inr rfl

theorem edit_length (s : Session) (op : WebOp) :
    (s.edit op).edits.length = s.edits.length + 1 := List.length_append

/-- A new edit has not been sent yet. -/
theorem sent_of_edit {op : WebOp} {k : Nat} (hk : ((s.edit op).stage k).sent = true) :
    k ≠ s.edits.length ∧ (s.stage k).sent = true := by
  have hne : k ≠ s.edits.length := by
    rintro rfl
    obtain ⟨hwriting, hdropped⟩ := Stage.live_of_sent hk
    rcases edit_stage_new s op with hnew | hnew
    · exact hwriting hnew
    · exact hdropped hnew
  rw [edit_stage_of_ne s op hne] at hk
  exact ⟨hne, hk⟩

/-- The object after an edit shows this edit and all others. -/
theorem Session.Sound.doc_edit (h : s.Sound) (op : WebOp) {k : Nat}
    (hk : (s.edit op).stage k ≠ .dropped) :
    Shows WebDoc.field (s.edit op).edits k (s.edit op).doc.field := by
  rcases eq_or_ne k s.edits.length with rfl | hne
  · exact shows_newest s.edits ⟨s.doc, (op.run s.doc).1⟩
  · rw [edit_stage_of_ne s op hne] at hk
    exact (h.doc k hk).edited (e := ⟨s.doc, (op.run s.doc).1⟩) (h.lt_length hk)

/-- **An edit.** -/
theorem Session.Sound.edit (h : s.Sound) (op : WebOp) : (s.edit op).Sound := by
  have hlength := edit_length s op
  have hold {k : Nat} (hk : k < s.edits.length) := edit_stage_of_ne s op (Nat.ne_of_lt hk)
  constructor
  case unborn =>
    intro k hk
    rw [hlength] at hk
    rw [edit_stage_of_ne s op (Nat.ne_of_gt hk)]
    exact h.unborn k (Nat.le_of_succ_le hk)
  case taken =>
    intro k hk
    obtain ⟨hlt, hstage⟩ := h.taken k hk
    rw [hold hlt, hlength]
    exact ⟨Nat.lt_succ_of_lt hlt, hstage⟩
  case answered =>
    intro k hk
    have hsent : ((s.edit op).stage k).sent = true := by
      rcases hk with hk | hk <;> simp [hk, Stage.sent]
    rw [edit_stage_of_ne s op (sent_of_edit hsent).1] at hk
    exact h.answered k hk
  case doc => exact fun k hk => h.doc_edit op hk
  case texts =>
    intro j e hj k hkj hk
    rcases Nat.lt_or_ge j s.edits.length with hlt | hge
    · have hj' : s.edits[j]? = some e := (List.getElem?_append_left hlt).symm.trans hj
      have hk' : k < s.edits.length := Nat.lt_of_le_of_lt hkj hlt
      rw [hold hk'] at hk
      exact (h.texts j e hj' k hkj hk).append hk' _
    · -- the text of the new edit is the object itself
      obtain rfl : j = s.edits.length := by
        have := (List.getElem?_eq_some_iff.mp hj).1
        omega
      rw [show (s.edit op).edits = s.edits ++ [⟨s.doc, (op.run s.doc).1⟩] from rfl,
        List.getElem?_concat_length] at hj
      obtain rfl := Option.some.inj hj
      exact h.doc_edit op hk
  case temp =>
    intro htorn k hk v hv
    obtain ⟨doc, htext, hshows⟩ := h.temp htorn k (sent_of_edit hk).2 v hv
    refine ⟨doc, htext, fun j hj => ?_⟩
    have hj' := (sent_of_edit hj).2
    exact (hshows j hj').append (h.lt_length (Stage.live_of_sent hj').2) _
  case disk =>
    intro k hk hlive
    have hlt := (h.taken k hk).1
    rw [hold hlt] at hlive
    exact (h.disk k hk hlive).append hlt _
  case reads =>
    intro r hr k hk
    obtain ⟨hlt, hin⟩ := h.reads r hr k hk
    rw [hlength, hold hlt]
    exact ⟨Nat.lt_succ_of_lt hlt, fun hlive => (hin hlive).append hlt _⟩

/-- A save goes on.  The temp file may change with it. -/
theorem Session.Sound.setStage (h : s.Sound) {stage : Stage} (temp : Option Text)
    (writers : List Nat) (hlive : s.stage i ≠ .dropped) (hwriting : stage ≠ .writing)
    (hanswered : stage = .applied ∨ stage = .acked → s.onDisk i = true)
    (htemp : s.torn = false → ∀ k, ((s.setStage i stage).stage k).sent = true →
      ∀ v, temp = some (.json v) → ∃ doc : WebDoc, v = doc.toJson ∧
        ∀ j, ((s.setStage i stage).stage j).sent = true →
          Shows WebDoc.field s.edits j doc.field) :
    ({ s.setStage i stage with temp := temp, writers := writers } : Session).Sound := by
  have hself := s.setStage_self i stage
  have hother {k : Nat} (hk : k ≠ i) := s.setStage_of_ne hk stage
  have hlive' {k : Nat} (hk : (s.setStage i stage).stage k ≠ .dropped) : s.stage k ≠ .dropped := by
    rcases eq_or_ne k i with rfl | hne
    · exact hlive
    · rwa [hother hne] at hk
  constructor
  case unborn =>
    intro k hk
    have hne : k ≠ i := fun heq => hlive (h.unborn i (heq ▸ hk))
    exact (hother hne).trans (h.unborn k hk)
  case taken =>
    intro k hk
    refine ⟨(h.taken k hk).1, ?_⟩
    rcases eq_or_ne k i with rfl | hne
    · exact hself.trans_ne hwriting
    · exact (hother hne).trans_ne (h.taken k hk).2
  case answered =>
    intro k hk
    rcases eq_or_ne k i with rfl | hne
    · exact hanswered (hself ▸ hk)
    · exact h.answered k (hother hne ▸ hk)
  case doc => exact fun k hk => h.doc k (hlive' hk)
  case texts => exact fun j e hj k hkj hk => h.texts j e hj k hkj (hlive' hk)
  case temp => exact htemp
  case disk => exact fun k hk hdropped => h.disk k hk (hlive' hdropped)
  case reads =>
    intro r hr k hk
    obtain ⟨hlt, hin⟩ := h.reads r hr k hk
    exact ⟨hlt, fun hdropped => hin (hlive' hdropped)⟩

/-- The temp file stays as it is when nothing new is sent. -/
theorem Session.Sound.setStage_same (h : s.Sound) {stage : Stage} (writers : List Nat)
    (hlive : s.stage i ≠ .dropped) (hwriting : stage ≠ .writing)
    (hanswered : stage = .applied ∨ stage = .acked → s.onDisk i = true)
    (hsent : stage.sent = true → (s.stage i).sent = true) :
    ({ s.setStage i stage with writers := writers } : Session).Sound := by
  have hsent' {k : Nat} (hk : ((s.setStage i stage).stage k).sent = true) :
      (s.stage k).sent = true := by
    rcases eq_or_ne k i with rfl | hne
    · rw [Session.setStage_self] at hk
      exact hsent hk
    · rwa [s.setStage_of_ne hne] at hk
  refine h.setStage s.temp writers hlive hwriting hanswered fun htorn k hk v hv => ?_
  obtain ⟨doc, htext, hshows⟩ := h.temp htorn k (hsent' hk) v hv
  exact ⟨doc, htext, fun j hj => hshows j (hsent' hj)⟩

/-- **A text is written**: alone, and no later one has been, or at once with others. -/
theorem Session.Sound.written (h : s.Sound) {e : Edit WebDoc} (he : s.edits[i]? = some e)
    (hstage : s.stage i = .writing) (left : Text) (writers : List Nat)
    (hcond : s.torn = true ∨
      ∀ j < s.edits.length, i < j → s.stage j = .writing ∨ s.stage j = .dropped) :
    ({ s.setStage i .written with
      temp := some (s.finished (.json e.after.toJson) left)
      writers := writers } : Session).Sound := by
  refine h.setStage _ writers (by simp [hstage]) nofun nofun
    fun htorn k _ v hv => ⟨e.after, ?_, fun j hj => ?_⟩
  · simp only [Session.finished, htorn] at hv
    obtain ⟨rfl⟩ := Option.some.inj hv
    rfl
  have horder := hcond.resolve_left (by simp [htorn])
  rcases Nat.lt_or_ge i j with hlater | hle
  · -- a later text would have been written already
    rw [s.setStage_of_ne (Nat.ne_of_gt hlater)] at hj
    obtain ⟨hwriting, hdropped⟩ := Stage.live_of_sent hj
    rcases horder j (h.lt_length hdropped) hlater with hj' | hj'
    · exact absurd hj' hwriting
    · exact absurd hj' hdropped
  · have hdropped : s.stage j ≠ .dropped := by
      rcases eq_or_ne j i with rfl | hne
      · simp [hstage]
      · rw [s.setStage_of_ne hne] at hj
        exact (Stage.live_of_sent hj).2
    exact h.texts i e he j hle hdropped

/-- Whatever leaves the rules file alone changes nothing. -/
theorem Session.Sound.sys (h : s.Sound) {sys : Sys} (hrules : sys.fs.rules = s.sys.fs.rules) :
    ({ s with sys := sys } : Session).Sound :=
  { h with
    disk := fun k hk hlive => by
      rw [Session.Present, Session.rulesText, hrules]
      exact h.disk k hk hlive }

/-- The rules file is replaced by one that shows all edits that have been sent. -/
theorem Session.Sound.replaced (h : s.Sound) (sys : Sys)
    (hrules : ∀ k, (s.stage k).sent = true →
      Session.InRules s.edits k (sys.fs.rules.map File.content)) :
    ({ s with sys := sys, onDisk := fun k => s.onDisk k || (s.stage k).sent } : Session).Sound := by
  have hdisk {k : Nat} (hk : (s.onDisk k || (s.stage k).sent) = true) :
      k < s.edits.length ∧ s.stage k ≠ .writing := by
    rcases Bool.or_eq_true_iff.mp hk with hk | hk
    · exact h.taken k hk
    · obtain ⟨hwriting, hdropped⟩ := Stage.live_of_sent hk
      exact ⟨h.lt_length hdropped, hwriting⟩
  exact
    { h with
      taken := fun k hk => hdisk hk
      answered := fun k hk => Bool.or_eq_true_iff.mpr (.inl (h.answered k hk))
      disk := fun k hk hlive => hrules k (Stage.sent_of_live (hdisk hk).2 hlive) }

/-- **The daemon applies the temp file**, or fails to. -/
theorem Session.Sound.apply (h : s.Sound) (hstage : s.stage i = .written)
    (hcond : s.torn = true → s.temp.bind Rules.fromStr = none) (env : Env)
    (answered : Bool) : (s.apply i env answered).Sound := by
  have hlive : s.stage i ≠ .dropped := by simp [hstage]
  have hsent : (s.stage i).sent = true := by simp [hstage, Stage.sent]
  cases hwritten : writtenByApply env s.temp with
  | none =>
      have hrefused (rules : Rules) : ¬ Accepts env s.temp rules := fun haccepts => by
        rw [writtenByApply_eq_some_iff.mpr haccepts] at hwritten
        cases hwritten
      have heq : s.apply i env answered = s.setStage i .dropped := by
        simp [Session.apply, Session.setStage, applyRulesFile_of_refused hrefused, hwritten]
      rw [heq]
      exact h.setStage_same s.writers hlive nofun nofun nofun
  | some rules =>
      have haccepts := writtenByApply_eq_some_iff.mp hwritten
      have htorn : s.torn = false := Bool.eq_false_iff.mpr fun htorn => by
        have hparsed := haccepts.parsed
        rw [hcond htorn] at hparsed
        cases hparsed
      -- the temp file is a text of the WebUI, and read as the rules that are written
      obtain ⟨text, htext, hparse⟩ := Option.bind_eq_some_iff.mp haccepts.parsed
      obtain ⟨v, rfl⟩ : ∃ v, text = .json v := by
        cases text with
        | json v => exact ⟨v, rfl⟩
        | other bytes => cases hparse
      obtain ⟨doc, rfl, hshows⟩ := h.temp htorn i hsent v htext
      have hfields : rules.sanitize.field = doc.field :=
        (fields_sanitize rules).trans (fields_eq_of_readAs (readAs_of_ofJson hparse))
      have hcontent : (applyRulesFile env s.temp s.sys).state.fs.rules.map File.content =
          some (.json rules.sanitize.toJson) := by
        rw [applyRulesFile_of_accepts haccepts, state_bind_checkSource, rulesFile_reload]
        rfl
      have hreplaced := h.replaced (applyRulesFile env s.temp s.sys).state
        fun k hk => ⟨rules.sanitize, hcontent, hfields ▸ hshows k hk⟩
      have hdisk : (s.onDisk i || (s.stage i).sent) = true := Bool.or_eq_true_iff.mpr (.inr hsent)
      have heq : s.apply i env answered =
          ({ s with
            sys := (applyRulesFile env s.temp s.sys).state
            onDisk := fun k => s.onDisk k || (s.stage k).sent } : Session).setStage i
            (if (applyRulesFile env s.temp s.sys).isOk && answered then .applied
              else .dropped) := by
        simp [Session.apply, Session.setStage, hwritten]
      rw [heq]
      refine hreplaced.setStage_same s.writers hlive ?_ (fun _ => hdisk) fun _ => hsent
      split_ifs <;> nofun

/-- **A re-read begins.** -/
theorem Session.Sound.read (h : s.Sound) (ok : Bool) : (s.read ok).Sound := by
  refine { h with reads := fun r hr k hk => ?_ }
  rcases List.mem_append.mp hr with hold | hnew
  · exact h.reads r hold k hk
  · obtain rfl := List.mem_singleton.mp hnew
    cases ok with
    | false => cases hk
    | true => exact ⟨(h.taken k hk).1, h.disk k hk⟩

/-- **The object is replaced**, by one that shows all edits. -/
theorem Session.Sound.assign (h : s.Sound) {k : Nat} {r : WebRead} {doc : WebDoc}
    (hr : s.reads[k]? = some r) (hload : LoadRules r.content doc)
    (hseen : ∀ i < s.edits.length, s.stage i = .dropped ∨ r.seen i = true) :
    ({ s with doc := doc, reads := s.reads.eraseIdx k } : Session).Sound := by
  have hmem : r ∈ s.reads := List.mem_of_getElem? hr
  refine { h with doc := fun i hlive => ?_, reads := fun r' hr' => ?_ }
  · have hi := (hseen i (h.lt_length hlive)).resolve_left hlive
    obtain ⟨rules, hcontent, hshows⟩ := (h.reads r hmem i hi).2 hlive
    rw [hcontent] at hload
    have hread : Rules.ofJson doc.toJson = some rules := by
      rcases hload with hnone | hsame
      · rw [Rules.ofJson_toJson] at hnone
        cases hnone
      · rw [hsame, Rules.ofJson_toJson]
    rw [← fields_eq_of_readAs (readAs_of_ofJson hread)]
    exact hshows
  · exact h.reads r' (List.mem_of_mem_eraseIdx hr')

/-- Only an apply writes the rules file. -/
theorem perform_rulesFile {op : Op} (hop : op.applies = false) (s : Sys) :
    (op.perform s).fs.rules = s.fs.rules := by
  have hrefresh (env : Env) : (refresh env s).state.fs.rules = s.fs.rules := by
    refine Outcome.bind_state (p := fun mid : Sys => mid.fs.rules = s.fs.rules) ?_
      fun mid _ hmid => ?_
    · rcases reloadIfChanged_cases env s with ⟨hquiet, -⟩ | ⟨-, -, -, hreload⟩
      · rw [hquiet, Outcome.state_ok]
      · rw [hreload]
        exact rulesFile_reload env s
    · rw [(keepsRules_syncPackages env mid).fs]
      exact hmid
  cases op with
  | tick env =>
      refine Outcome.bind_state (p := fun s' : Sys => s'.fs.rules = s.fs.rules) (hrefresh env)
        fun mid _ hmid => ?_
      obtain ⟨state, hfs⟩ := tickVerdicts_fs env mid
      rw [hfs]
      exact hmid
  | reload env => exact rulesFile_reload env s
  | apply env candidate => cases hop
  | extension env key minutes =>
      obtain ⟨eng, h, -⟩ := perform_extension env key minutes s
      rw [h]
  | sync env => exact congrArg Fs.rules (keepsRules_syncPackages env s).fs
  | killed uid => rfl

/-- **The step lemma.** -/
theorem Session.Sound.next {s' : Session} {event : WebEvent} (h : s.Sound)
    (hcond : s.Undisturbed event) (hnext : s.next event = some s') : s'.Sound := by
  cases event with
  | edit op =>
      obtain rfl := Option.some.inj hnext
      exact h.edit op
  | opened i =>
      simp only [Session.next] at hnext
      split_ifs at hnext
      obtain rfl := Option.some.inj hnext
      exact { h with temp := fun _ _ _ v hv => by cases hv }
  | wrote i left =>
      simp only [Session.next] at hnext
      split_ifs at hnext with hwrote
      obtain rfl := Option.some.inj hnext
      refine { h with temp := fun htorn _ _ v hv => ?_ }
      -- alone, it has not written a whole text yet
      obtain rfl := Option.some.inj hv
      have hpart := hwrote.2
      rw [show s.torn = false from htorn] at hpart
      cases hpart
  | written i left =>
      simp only [Session.next] at hnext
      split_ifs at hnext with hstage
      obtain ⟨e, he, rfl⟩ := Option.map_eq_some_iff.mp hnext
      exact h.written he hstage.1 left _ hcond
  | failed i =>
      simp only [Session.next] at hnext
      split_ifs at hnext with hstage
      obtain rfl := Option.some.inj hnext
      exact h.setStage_same _ (by rcases hstage with hi | hi <;> simp [hi]) nofun nofun nofun
  | apply i env answered =>
      simp only [Session.next] at hnext
      split_ifs at hnext with hstage
      obtain rfl := Option.some.inj hnext
      exact h.apply hstage hcond env answered
  | acked i =>
      simp only [Session.next] at hnext
      split_ifs at hnext with hstage
      obtain rfl := Option.some.inj hnext
      exact h.setStage_same s.writers (by simp [hstage]) nofun
        (fun _ => h.answered i (.inl hstage)) fun _ => by simp [hstage, Stage.sent]
  | read ok =>
      obtain rfl := Option.some.inj hnext
      exact h.read ok
  | assign k doc =>
      obtain ⟨r, hr, hload⟩ := Option.bind_eq_some_iff.mp hnext
      split_ifs at hload with hload'
      obtain rfl := Option.some.inj hload
      exact h.assign hr hload' (hcond r hr)
  | daemon op =>
      simp only [Session.next] at hnext
      split_ifs at hnext with hop
      obtain rfl := Option.some.inj hnext
      exact h.sys (perform_rulesFile (Bool.eq_false_iff.mpr hop) s.sys)
  | restart env =>
      obtain rfl := Option.some.inj hnext
      exact h.sys (new_rulesFile env s.sys.fs)
  | files backup state packages =>
      obtain rfl := Option.some.inj hnext
      exact h.sys rfl

theorem sound_reachable (hs : webSession.ReachableWhen Session.Undisturbed s) : s.Sound := by
  refine System.ReachableWhen.invariant (?_ : ∀ s, webSession.init s → s.Sound) ?_ hs
  · rintro s ⟨sys, temp, rfl⟩
    exact sound_start sys temp
  · exact fun s event s' h hcond hnext => h.next hcond hnext

/-- **No acknowledged edit is lost** in a session whose steps are all undisturbed. -/
theorem edits_kept (hs : webSession.ReachableWhen Session.Undisturbed s)
    (hacked : s.stage i = .acked) : s.Present i := by
  have h := sound_reachable hs
  exact h.disk i (h.answered i (.inr hacked)) (by simp [hacked])

end Sound

/-- The page has read the rules of a running daemon. -/
def openedPage : List WebEvent :=
  [.read true, .assign 0 (.ofRules (.blocking "0:com.old"))]

/-- A text is written by the shell alone. -/
def writes (i : Nat) : List WebEvent :=
  [.opened i, .wrote i (.other "\x7b\n"), .written i (.other "")]

/-- An app is switched on, and its save runs through. -/
def savedEdit (i : Nat) (key : String) (epoch : Nat) : List WebEvent :=
  [.edit (.toggleApp key true)] ++ writes i ++ [.apply i (.quiet epoch) true, .acked i]

/-- One app is switched on, the rules are read again, another one is switched on. -/
theorem edits_kept_savedTwice : ∃ s, runWhen Session.next Session.Undisturbed
    (openedPage ++ savedEdit 0 "0:com.a" 200 ++ [.read true] ++ savedEdit 1 "0:com.b" 300)
    (.start runningOnFile none) = some s ∧ s.Present 0 := by
  have hrun : (runWhen Session.next Session.Undisturbed
      (openedPage ++ savedEdit 0 "0:com.a" 200 ++ [.read true] ++ savedEdit 1 "0:com.b" 300)
      (.start runningOnFile none)).map (fun s => s.stage 0) = some .acked := by decide +kernel
  obtain ⟨s, hs, hacked⟩ := Option.map_eq_some_iff.mp hrun
  exact ⟨s, hs, edits_kept (System.reachableWhen_runWhen (.init ⟨_, _, rfl⟩) hs) hacked⟩

/-- A re-read that began before an app is switched on replaces the object while
the save is under way; then another app is switched on. -/
def staleReadRun : List WebEvent :=
  openedPage ++ [.read true, .edit (.toggleApp "0:com.a" true),
    .assign 0 (.ofRules (.blocking "0:com.old"))] ++ writes 0 ++
    [.apply 0 (.quiet 200) true, .acked 0] ++ savedEdit 1 "0:com.b" 300

/-- Is there a rule of the first app, before and after each edit and in the file? -/
def Session.tracesOfA (s : Session) : List (Bool × Bool) × Option Bool :=
  let p : DocField := .app "0:com.a" .enabled
  (s.edits.map fun e => ((e.before.field p).isSome, (e.after.field p).isSome),
    (s.rulesText.bind Rules.fromStr).map fun rules => (rules.field p).isSome)

/-- The switch of the first app is acknowledged, no other edit touches it, and it
is not in the rules file. -/
theorem not_kept_staleReadRun : ∃ s, webSession.Reachable s ∧ s.stage 0 = .acked ∧
    ∃ first second, s.edits = [first, second] ∧
      ¬ first.Keeps WebDoc.field (.app "0:com.a" .enabled) ∧
      second.Keeps WebDoc.field (.app "0:com.a" .enabled) ∧
      ∃ rules, s.rulesText.bind Rules.fromStr = some rules ∧
        rules.field (.app "0:com.a" .enabled) ≠
          first.after.field (.app "0:com.a" .enabled) := by
  have hrun : (runFrom Session.next staleReadRun (.start runningOnFile none)).map
      (fun s => (s.stage 0, s.tracesOfA)) =
        some (.acked, [(false, true), (false, false)], some false) := by decide +kernel
  obtain ⟨s, hs, htraces⟩ := Option.map_eq_some_iff.mp hrun
  obtain ⟨hacked, htraces⟩ := Prod.mk.inj htraces
  obtain ⟨hedits, hrules⟩ := Prod.mk.inj htraces
  obtain ⟨first, rest, hlist, hfirst, hrest⟩ := List.map_eq_cons_iff.mp hedits
  obtain ⟨second, rest, rfl, hsecond, hnil⟩ := List.map_eq_cons_iff.mp hrest
  obtain rfl := List.map_eq_nil_iff.mp hnil
  obtain ⟨hbefore, hafter⟩ := Prod.mk.inj hfirst
  obtain ⟨hbefore', hafter'⟩ := Prod.mk.inj hsecond
  obtain ⟨rules, hread, hfile⟩ := Option.map_eq_some_iff.mp hrules
  refine ⟨s, System.reachable_runFrom (.init ⟨_, _, rfl⟩) hs, hacked, first, second, hlist,
    fun hkeeps => ?_, ?_, rules, hread, fun heq => ?_⟩
  · have := congrArg Option.isSome hkeeps
    rw [hbefore, hafter] at this
    cases this
  · have hnone := Option.isNone_iff_eq_none.mp (Option.isSome_eq_false_iff.mp hbefore')
    have hnone' := Option.isNone_iff_eq_none.mp (Option.isSome_eq_false_iff.mp hafter')
    exact hnone'.trans hnone.symm
  · have := congrArg Option.isSome heq
    rw [hfile, hafter] at this
    cases this

end Ningshi
