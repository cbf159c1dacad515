import Ningshi.Lib.Transition

/-!
# `gate.rs`: probing for kernel anchors

At its start the gate attaches two programs to `binder_transaction` and one to
the first of several symbols that can be used.  `Aya` is the loader library: it
loads a program once, and a program that could not be attached stays loaded.

Every attempt loads its program again, so only the first attempt with a program
can succeed (`probeUidSwitch_eq`).  `anchored_iff` says exactly when the start
falls back as it is meant to and does not go on without an anchor that reports.
-/

namespace Ningshi

open Transition

/-- The loader library, over the states of the loaded object file. -/
structure Aya (σ : Type) where
  /-- the object file right after it was opened -/
  fresh : σ
  load : String → σ → Outcome σ
  attach : String → String → σ → Outcome σ
  loaded : String → σ → Bool
  /-- the object file has this program -/
  contains : String → Bool
  /-- the kernel takes this program -/
  accepts : String → Bool
  /-- the kernel can attach this program to this symbol -/
  knows : String → String → Bool
  loaded_fresh : ∀ program, loaded program fresh = false
  /-- loading a loaded program is an error -/
  load_isOk : ∀ program s, (load program s).isOk = (!loaded program s && accepts program)
  loaded_load : ∀ program q s, loaded q (load program s).state =
    (loaded q s || q == program && (load program s).isOk)
  attach_isOk : ∀ program symbol s,
    (attach program symbol s).isOk = (loaded program s && knows program symbol)
  /-- attaching leaves what is loaded as it is, also when it fails -/
  loaded_attach : ∀ program symbol q s, loaded q (attach program symbol s).state = loaded q s

/-- What the gate knows about its anchors; the counters are kept elsewhere. -/
structure GateHealth where
  binderEntry : Bool
  binderExit : Bool
  uidSwitch : Bool
  /-- the symbol the uid-switch anchor is attached to -/
  uidSwitchSymbol : String
  deriving DecidableEq

/-- `UID_SWITCH_SYMBOLS`, most durable first. -/
def uidSwitchSymbols : List String := ["commit_creds", "__arm64_sys_setresuid"]

namespace Aya

variable {σ : Type} (aya : Aya σ)

/-- Load and attach one program. -/
def attachProbe (program symbol : String) (s : σ) : Outcome σ :=
  if aya.contains program then (aya.load program s).bind (aya.attach program symbol) else .err s

/-- The loop over the symbols. -/
def probeUidSwitch : List String → GateHealth → σ → GateHealth × σ
  | [], attached, s => (attached, s)
  | symbol :: rest, attached, s =>
      match aya.attachProbe "gate_uid_switch" symbol s with
      | .ok s => ({ attached with uidSwitch := true, uidSwitchSymbol := symbol }, s)
      | .err s => probeUidSwitch rest attached s

/-- The anchors after all attempts. -/
def probeAnchors (symbols : List String) : GateHealth × σ :=
  let entry := aya.attachProbe "gate_binder_entry" "binder_transaction" aya.fresh
  let exit := aya.attachProbe "gate_binder_exit" "binder_transaction" entry.state
  aya.probeUidSwitch symbols ⟨entry.isOk, exit.isOk, false, ""⟩ exit.state

/-- `Gate::start`.  `setup` is how what follows the probing ends: the maps, the
pipe and the thread. -/
def start (symbols : List String) (setup : Except String Unit) : Except String GateHealth :=
  let attached := (aya.probeAnchors symbols).1
  if !attached.binderEntry && !attached.uidSwitch then
    .error ("no usable kernel anchor: neither the binder probe nor the " ++
      "uid-switch probe could be attached")
  else setup.map fun _ => attached

/-- A first attempt to attach this program to this symbol succeeds. -/
def attachable (program symbol : String) : Bool :=
  aya.contains program && aya.accepts program && aya.knows program symbol

/-! ## One attempt -/

/-- Only a program that is not loaded yet can be attached. -/
theorem attachProbe_isOk (program symbol : String) (s : σ) :
    (aya.attachProbe program symbol s).isOk =
      (!aya.loaded program s && aya.attachable program symbol) := by
  unfold attachProbe attachable
  cases hcontains : aya.contains program with
  | false => simp
  | true =>
      have hload := aya.load_isOk program s
      have hloaded := aya.loaded_load program program s
      cases hres : aya.load program s with
      | err s' =>
          rw [hres, Outcome.isOk_err] at hload
          rw [if_pos rfl, Outcome.bind_err, Outcome.isOk_err, Bool.true_and, ← Bool.and_assoc,
            ← hload, Bool.false_and]
      | ok s' =>
          rw [hres, Outcome.isOk_ok] at hload
          rw [hres, Outcome.isOk_ok, Outcome.state_ok, beq_self_eq_true, Bool.and_true,
            Bool.or_true] at hloaded
          rw [if_pos rfl, Outcome.bind_ok, aya.attach_isOk, hloaded, Bool.true_and, Bool.true_and,
            ← Bool.and_assoc, ← hload, Bool.true_and]

/-- An attempt leaves the program loaded, unless it cannot be loaded at all. -/
theorem loaded_attachProbe (program symbol q : String) (s : σ) :
    aya.loaded q (aya.attachProbe program symbol s).state =
      (aya.loaded q s || q == program && aya.contains program && aya.accepts program) := by
  unfold attachProbe
  cases hcontains : aya.contains program with
  | false => simp
  | true =>
      have hloaded := aya.loaded_load program q s
      have hstate : aya.loaded q ((aya.load program s).bind (aya.attach program symbol)).state =
          aya.loaded q (aya.load program s).state := by
        cases aya.load program s with
        | err s' => rfl
        | ok s' => exact aya.loaded_attach program symbol q s'
      rw [if_pos rfl, hstate, hloaded, aya.load_isOk]
      by_cases hq : q = program
      · subst hq
        cases aya.loaded q s <;> simp
      · simp only [beq_eq_false_iff_ne.mpr hq, Bool.false_and]

/-! ## The loop over the symbols -/

/-- The uid-switch anchor, attached to this symbol or to none. -/
def withUidSwitch (attached : GateHealth) : Option String → GateHealth
  | none => attached
  | some symbol => { attached with uidSwitch := true, uidSwitchSymbol := symbol }

/-- A program that is loaded, or cannot be, is attached to nothing. -/
theorem probeUidSwitch_of_stuck (symbols : List String) (attached : GateHealth) {s : σ}
    (h : aya.loaded "gate_uid_switch" s = true ∨
      (aya.contains "gate_uid_switch" && aya.accepts "gate_uid_switch") = false) :
    (aya.probeUidSwitch symbols attached s).1 = attached := by
  induction symbols generalizing s with
  | nil => rfl
  | cons symbol rest ih =>
      have hok := aya.attachProbe_isOk "gate_uid_switch" symbol s
      have hloaded := aya.loaded_attachProbe "gate_uid_switch" symbol "gate_uid_switch" s
      have hfails : (aya.attachProbe "gate_uid_switch" symbol s).isOk = false := by
        rw [hok, attachable]
        rcases h with hloaded | hnever
        · rw [hloaded, Bool.not_true, Bool.false_and]
        · rw [hnever, Bool.false_and, Bool.and_false]
      rw [probeUidSwitch]
      cases hres : aya.attachProbe "gate_uid_switch" symbol s with
      | ok s' =>
          rw [hres] at hfails
          cases hfails
      | err s' =>
          rw [hres, Outcome.state_err] at hloaded
          refine ih (h.imp_left fun h => ?_)
          rw [hloaded, h, Bool.true_or]

/-- **Only the first symbol counts**: whatever comes after a failed attempt
finds the program loaded. -/
theorem probeUidSwitch_eq (symbols : List String) (attached : GateHealth) {s : σ}
    (hs : aya.loaded "gate_uid_switch" s = false) :
    (aya.probeUidSwitch symbols attached s).1 =
      withUidSwitch attached (symbols.head?.filter (aya.attachable "gate_uid_switch")) := by
  cases symbols with
  | nil => rfl
  | cons symbol rest =>
      have hok := aya.attachProbe_isOk "gate_uid_switch" symbol s
      have hloaded := aya.loaded_attachProbe "gate_uid_switch" symbol "gate_uid_switch" s
      rw [hs, Bool.not_false, Bool.true_and] at hok
      rw [probeUidSwitch, List.head?_cons]
      cases hres : aya.attachProbe "gate_uid_switch" symbol s with
      | ok s' =>
          rw [hres, Outcome.isOk_ok] at hok
          rw [Option.filter_some_pos hok.symm]
          rfl
      | err s' =>
          rw [hres, Outcome.isOk_err] at hok
          rw [Option.filter_some_neg (by rw [← hok])]
          refine aya.probeUidSwitch_of_stuck rest attached ?_
          rw [hres, Outcome.state_err, hs, Bool.false_or, beq_self_eq_true, Bool.true_and]
            at hloaded
          rw [hloaded]
          exact Bool.eq_false_or_eq_true _

/-- **What is attached in the end.** -/
theorem probeAnchors_eq (symbols : List String) :
    (aya.probeAnchors symbols).1 =
      withUidSwitch
        ⟨aya.attachable "gate_binder_entry" "binder_transaction",
          aya.attachable "gate_binder_exit" "binder_transaction", false, ""⟩
        (symbols.head?.filter (aya.attachable "gate_uid_switch")) := by
  have hentry := aya.loaded_attachProbe "gate_binder_entry" "binder_transaction"
  have hexit := aya.loaded_attachProbe "gate_binder_exit" "binder_transaction"
  have hfresh := aya.loaded_fresh
  simp only [probeAnchors]
  rw [probeUidSwitch_eq]
  · rw [attachProbe_isOk, attachProbe_isOk, hentry, hfresh, hfresh]
    rfl
  · rw [hexit, hentry, hfresh]
    rfl

end Aya

/-! ## Exactly when the probing falls back -/

def GateHealth.attachedSymbol (attached : GateHealth) : Option String :=
  if attached.uidSwitch then some attached.uidSwitchSymbol else none

/-- Some anchor can emit events; the binder programs can only together. -/
def GateHealth.Reports (attached : GateHealth) : Prop :=
  attached.uidSwitch = true ∨ attached.binderEntry = true ∧ attached.binderExit = true

/-- What the start of the gate is meant to do. -/
structure Anchored {σ : Type} (aya : Aya σ) (symbols : List String)
    (setup : Except String Unit) : Prop where
  /-- the uid-switch program is attached to the first symbol it can be attached to -/
  fallsBack : (aya.probeAnchors symbols).1.attachedSymbol =
    symbols.find? (aya.attachable "gate_uid_switch")
  reports : ∀ attached, aya.start symbols setup = .ok attached → attached.Reports

/-- The first symbol will do. -/
def FirstAttachable {σ : Type} (aya : Aya σ) (symbols : List String) : Prop :=
  ∃ symbol ∈ symbols.head?, aya.attachable "gate_uid_switch" symbol = true

section Exactly

variable {σ : Type} {aya : Aya σ} {symbols : List String} {setup : Except String Unit}

/-- The first symbol that will do, when no other is tried than the first one. -/
theorem filter_head?_eq_find?_iff {p : String → Bool} :
    symbols.head?.filter p = symbols.find? p ↔
      ((∃ symbol ∈ symbols, p symbol = true) → ∃ symbol ∈ symbols.head?, p symbol = true) := by
  cases symbols with
  | nil => simp
  | cons symbol rest =>
      rw [List.head?_cons]
      cases hsymbol : p symbol with
      | true => simp [hsymbol]
      | false =>
          have hneg : ¬ p symbol = true := ne_true_of_eq_false hsymbol
          rw [Option.filter_some_neg hsymbol, List.find?_cons_of_neg hneg, eq_comm,
            List.find?_eq_none]
          simp [hsymbol]

theorem attachedSymbol_probeAnchors :
    (aya.probeAnchors symbols).1.attachedSymbol =
      symbols.head?.filter (aya.attachable "gate_uid_switch") := by
  rw [aya.probeAnchors_eq]
  cases symbols.head?.filter (aya.attachable "gate_uid_switch") with
  | none => rfl
  | some symbol => rfl

theorem uidSwitch_probeAnchors :
    (aya.probeAnchors symbols).1.uidSwitch = true ↔ FirstAttachable aya symbols := by
  rw [aya.probeAnchors_eq, FirstAttachable]
  cases symbols.head? with
  | none => simp [Aya.withUidSwitch]
  | some symbol =>
      cases hsymbol : aya.attachable "gate_uid_switch" symbol with
      | true => simp [hsymbol, Option.filter, Aya.withUidSwitch]
      | false => simp [hsymbol, Option.filter, Aya.withUidSwitch]

theorem binder_probeAnchors :
    (aya.probeAnchors symbols).1.binderEntry =
        aya.attachable "gate_binder_entry" "binder_transaction" ∧
      (aya.probeAnchors symbols).1.binderExit =
        aya.attachable "gate_binder_exit" "binder_transaction" := by
  rw [aya.probeAnchors_eq]
  cases symbols.head?.filter (aya.attachable "gate_uid_switch") with
  | none => exact ⟨rfl, rfl⟩
  | some symbol => exact ⟨rfl, rfl⟩

/-- When the gate starts, and with what. -/
theorem start_eq_ok_iff {attached : GateHealth} :
    aya.start symbols setup = .ok attached ↔
      setup.isOk = true ∧ attached = (aya.probeAnchors symbols).1 ∧
        (attached.binderEntry = true ∨ attached.uidSwitch = true) := by
  have hanchors (h : GateHealth) : (!h.binderEntry && !h.uidSwitch) = false ↔
      h.binderEntry = true ∨ h.uidSwitch = true := by
    cases h.binderEntry <;> cases h.uidSwitch <;> decide
  simp only [Aya.start]
  generalize (aya.probeAnchors symbols).1 = anchors
  constructor
  · intro h
    split_ifs at h with hnone
    cases setup with
    | error message => cases h
    | ok =>
        obtain rfl := Except.ok.inj h
        exact ⟨rfl, rfl, (hanchors _).mp (Bool.eq_false_iff.mpr hnone)⟩
  · rintro ⟨hsetup, rfl, hsome⟩
    rw [(hanchors _).mpr hsome]
    cases setup with
    | error message => cases hsetup
    | ok => rfl

/-- **Exactly when the probing does what it is meant to**: the first symbol will
do or none would, and the binder entry probe is not left alone. -/
theorem anchored_iff :
    Anchored aya symbols setup ↔
      ((∃ symbol ∈ symbols, aya.attachable "gate_uid_switch" symbol = true) →
          FirstAttachable aya symbols) ∧
        (setup.isOk = true → aya.attachable "gate_binder_entry" "binder_transaction" = true →
          aya.attachable "gate_binder_exit" "binder_transaction" = true ∨
            FirstAttachable aya symbols) := by
  obtain ⟨hentry, hexit⟩ := @binder_probeAnchors σ aya symbols
  have hfalls : (aya.probeAnchors symbols).1.attachedSymbol =
      symbols.find? (aya.attachable "gate_uid_switch") ↔
      ((∃ symbol ∈ symbols, aya.attachable "gate_uid_switch" symbol = true) →
        FirstAttachable aya symbols) := by
    rw [attachedSymbol_probeAnchors]
    exact filter_head?_eq_find?_iff
  constructor
  · rintro ⟨hfallsBack, hreports⟩
    refine ⟨hfalls.mp hfallsBack, fun hsetup hattachable => ?_⟩
    rw [← hentry] at hattachable
    rcases hreports _ (start_eq_ok_iff.mpr ⟨hsetup, rfl, .inl hattachable⟩) with huid | hpair
    · exact .inr (uidSwitch_probeAnchors.mp huid)
    · exact .inl (hexit ▸ hpair.2)
  · rintro ⟨hfirst, hpair⟩
    refine ⟨hfalls.mpr hfirst, fun attached hstart => ?_⟩
    obtain ⟨hsetup, rfl, hanchor⟩ := start_eq_ok_iff.mp hstart
    rcases hanchor with hbinder | huid
    · rcases hpair hsetup (hentry ▸ hbinder) with hexit' | hfirst
      · exact .inr ⟨hbinder, hexit.trans hexit'⟩
      · exact .inl (uidSwitch_probeAnchors.mpr hfirst)
    · exact .inl huid

end Exactly

/-! ## Kernels without some of the symbols -/

/-- A loader that keeps the names of the loaded programs and takes every program,
on a kernel that knows these symbols. -/
def Aya.ofKernel (knows : String → String → Bool) : Aya (List String) where
  fresh := []
  load program s := if s.contains program then .err s else .ok (program :: s)
  attach program symbol s := if s.contains program && knows program symbol then .ok s else .err s
  loaded program s := s.contains program
  contains _ := true
  accepts _ := true
  knows := knows
  loaded_fresh _ := rfl
  load_isOk program s := by
    cases s.contains program <;> rfl
  loaded_load program q s := by
    cases s.contains program with
    | true => simp
    | false =>
        rw [if_neg Bool.false_ne_true, Outcome.state_ok, Outcome.isOk_ok, Bool.and_true,
          List.contains_cons, Bool.or_comm]
  attach_isOk program symbol s := by
    cases s.contains program <;> cases knows program symbol <;> rfl
  loaded_attach program symbol q s := by
    split_ifs <;> rfl

/-- A kernel without the first symbol. -/
def withoutCommitCreds : Aya (List String) := .ofKernel fun _ symbol => symbol != "commit_creds"

/-- A kernel with the entry probe only. -/
def entryOnly : Aya (List String) := .ofKernel fun program _ => program == "gate_binder_entry"

/-- On the first kernel the uid-switch program is not attached at all although
the second symbol is there; on the other one the gate starts and never reports. -/
theorem not_anchored :
    (¬ Anchored withoutCommitCreds uidSwitchSymbols (.ok ())) ∧
      ¬ Anchored entryOnly uidSwitchSymbols (.ok ()) := by
  refine ⟨fun h => ?_, fun h => ?_⟩
  · have hfalls := h.fallsBack
    revert hfalls
    decide +kernel
  · have hreports := h.reports ⟨true, false, false, ""⟩ (by decide +kernel)
    revert hreports
    unfold GateHealth.Reports
    decide +kernel

end Ningshi
