import Mathlib.Tactic

/-!
# Labelled transition systems and guarded runs

A transition system is a set of initial states and a labelled step relation.
`ReachableWhen cond` collects the states of those runs in which every step
that is taken meets `cond` at the state it starts from.  An invariant of such
runs is proved from two facts only: it holds initially, and a step that meets
the condition preserves it.

The second half is about steps that can fail.  An `Outcome` is the state a
computation ended in together with the information whether it succeeded; a
failed computation keeps the state it had reached, as a method that mutates
its receiver and then returns an error does.
-/

namespace Transition

/-- A labelled transition system over states `σ` and labels `ι`. -/
structure System (σ ι : Type*) where
  init : σ → Prop
  step : σ → ι → σ → Prop

namespace System

variable {σ ι : Type*} {T : System σ ι}

/-- The states of the runs all of whose steps meet `cond`. -/
inductive ReachableWhen (T : System σ ι) (cond : σ → ι → Prop) : σ → Prop
  | init {s : σ} (hinit : T.init s) : ReachableWhen T cond s
  | step {s s' : σ} {label : ι} (hrun : ReachableWhen T cond s)
      (hcond : cond s label) (hstep : T.step s label s') :
      ReachableWhen T cond s'

/-- The states of all runs. -/
abbrev Reachable (T : System σ ι) : σ → Prop :=
  T.ReachableWhen fun _ _ => True

/-- The invariant rule for guarded runs. -/
theorem ReachableWhen.invariant {cond : σ → ι → Prop} {inv : σ → Prop}
    (hinit : ∀ s, T.init s → inv s)
    (hstep : ∀ s label s', inv s → cond s label → T.step s label s' → inv s')
    {s : σ} (hs : T.ReachableWhen cond s) : inv s := by
  induction hs with
  | init h => exact hinit _ h
  | step _ hcond hs ih => exact hstep _ _ _ ih hcond hs

/-- A guarded run is a run. -/
theorem ReachableWhen.reachable {cond : σ → ι → Prop} {s : σ} (hs : T.ReachableWhen cond s) :
    T.Reachable s := by
  induction hs with
  | init h => exact .init h
  | step _ _ hstep ih => exact .step ih trivial hstep

/-- The rule for a predicate that a run can only lose: it holds initially, and is
lost exactly at a step that goes against `cond`.  Then it tells the guarded runs from
the others. -/
theorem reachableWhen_iff_kept {cond : σ → ι → Prop} {kept : σ → Prop}
    (hinit : ∀ s, T.init s → kept s)
    (hstep : ∀ s label s', T.Reachable s → T.step s label s' →
      (kept s' ↔ cond s label ∧ kept s))
    {s : σ} : T.ReachableWhen cond s ↔ T.Reachable s ∧ kept s := by
  constructor
  · intro hs
    refine ⟨hs.reachable, ?_⟩
    induction hs with
    | init h => exact hinit _ h
    | step hrun hcond hs ih => exact (hstep _ _ _ hrun.reachable hs).mpr ⟨hcond, ih⟩
  · rintro ⟨hs, hkept⟩
    induction hs with
    | init h => exact .init h
    | step hrun _ hs ih =>
        obtain ⟨hcond, hbefore⟩ := (hstep _ _ _ hrun hs).mp hkept
        exact .step (ih hbefore) hcond hs

/-- The rule for runs that write down what goes against a condition: every step
adds to `log`, and adds nothing exactly when it meets `cond`.  Then the guarded
runs are those whose log stays empty. -/
theorem reachableWhen_iff_log_eq_nil {α : Type*} {cond : σ → ι → Prop} {log : σ → List α}
    (hinit : ∀ s, T.init s → log s = [])
    (hstep : ∀ s label s', T.Reachable s → T.step s label s' →
      ∃ added, log s' = added ++ log s ∧ (added = [] ↔ cond s label))
    {s : σ} : T.ReachableWhen cond s ↔ T.Reachable s ∧ log s = [] := by
  refine reachableWhen_iff_kept hinit fun s label s' hs hnext => ?_
  obtain ⟨added, hlog, hadded⟩ := hstep s label s' hs hnext
  rw [hlog, List.append_eq_nil_iff, hadded]

/-- The runs from one state to another all of whose steps meet `cond`. -/
inductive RunWhen (T : System σ ι) (cond : σ → ι → Prop) : σ → List ι → σ → Prop
  | nil (s : σ) : RunWhen T cond s [] s
  | cons {s mid s' : σ} {label : ι} {labels : List ι} (hcond : cond s label)
      (hstep : T.step s label mid) (hrest : RunWhen T cond mid labels s') :
      RunWhen T cond s (label :: labels) s'

/-- The rule for what happens unless an invariant is kept: it happens at some step
of a run, the invariant kept so far, or the run ends with the invariant. -/
theorem RunWhen.exists_hit_or {cond hit : σ → ι → Prop} {inv : σ → Prop}
    (hstep : ∀ s label s', inv s → cond s label → T.step s label s' → hit s label ∨ inv s')
    {s s' : σ} {labels : List ι} (hs : inv s) (hrun : T.RunWhen cond s labels s') :
    (∃ before label after mid, labels = before ++ label :: after ∧
        T.RunWhen cond s before mid ∧ inv mid ∧ cond mid label ∧ hit mid label) ∨ inv s' := by
  induction hrun with
  | nil => exact .inr hs
  | @cons s mid s' label labels hcond hnext hrest ih =>
      rcases hstep s label mid hs hcond hnext with hhit | hmid
      · exact .inl ⟨[], label, labels, s, rfl, .nil s, hs, hcond, hhit⟩
      · rcases ih hmid with ⟨before, next, after, last, rfl, hbefore, hlast⟩ | hend
        · exact .inl ⟨label :: before, next, after, last, rfl, .cons hcond hnext hbefore, hlast⟩
        · exact .inr hend

/-- The system of a partial step function. -/
def ofNext (init : σ → Prop) (next : σ → ι → Option σ) : System σ ι where
  init := init
  step s label s' := next s label = some s'

end System

/-- Take the steps of a list; `none` when one of them cannot be taken. -/
def runFrom {σ ι : Type*} (next : σ → ι → Option σ) : List ι → σ → Option σ
  | [], s => some s
  | label :: labels, s => (next s label).bind (runFrom next labels)

/-- What a list of steps leads to is reachable. -/
theorem System.reachable_runFrom {σ ι : Type*} {init : σ → Prop} {next : σ → ι → Option σ}
    {labels : List ι} {s s' : σ} (hs : (System.ofNext init next).Reachable s)
    (hrun : runFrom next labels s = some s') : (System.ofNext init next).Reachable s' := by
  induction labels generalizing s with
  | nil => exact Option.some.inj hrun ▸ hs
  | cons label labels ih =>
      obtain ⟨mid, hmid, hrest⟩ := Option.bind_eq_some_iff.mp hrun
      exact ih (.step hs trivial hmid) hrest

/-- Take the steps of a list as long as they meet `cond`; `none` when one of them
does not, or cannot be taken. -/
def runWhen {σ ι : Type*} (next : σ → ι → Option σ) (cond : σ → ι → Prop)
    [∀ s label, Decidable (cond s label)] : List ι → σ → Option σ
  | [], s => some s
  | label :: labels, s =>
      if cond s label then (next s label).bind (runWhen next cond labels) else none

/-- What a list of steps that meet the condition leads to. -/
theorem System.reachableWhen_runWhen {σ ι : Type*} {init : σ → Prop}
    {next : σ → ι → Option σ} {cond : σ → ι → Prop} [∀ s label, Decidable (cond s label)]
    {labels : List ι} {s s' : σ} (hs : (System.ofNext init next).ReachableWhen cond s)
    (hrun : runWhen next cond labels s = some s') :
    (System.ofNext init next).ReachableWhen cond s' := by
  induction labels generalizing s with
  | nil => exact Option.some.inj hrun ▸ hs
  | cons label labels ih =>
      rw [runWhen] at hrun
      split_ifs at hrun with hcond
      obtain ⟨mid, hmid, hrest⟩ := Option.bind_eq_some_iff.mp hrun
      exact ih (.step hs hcond hmid) hrest

/-- The invariant rule for such a list of steps. -/
theorem runWhen_invariant {σ ι : Type*} {next : σ → ι → Option σ} {cond : σ → ι → Prop}
    [∀ s label, Decidable (cond s label)] {inv : σ → Prop}
    (hstep : ∀ s label s', inv s → cond s label → next s label = some s' → inv s')
    {labels : List ι} {s s' : σ} (hs : inv s) (hrun : runWhen next cond labels s = some s') :
    inv s' := by
  induction labels generalizing s with
  | nil => exact Option.some.inj hrun ▸ hs
  | cons label labels ih =>
      rw [runWhen] at hrun
      split_ifs at hrun with hcond
      obtain ⟨mid, hmid, hrest⟩ := Option.bind_eq_some_iff.mp hrun
      exact ih (hstep s label mid hs hcond hmid) hrest

/-- The condition only leaves steps out. -/
theorem runFrom_of_runWhen {σ ι : Type*} {next : σ → ι → Option σ} {cond : σ → ι → Prop}
    [∀ s label, Decidable (cond s label)] {labels : List ι} {s s' : σ}
    (hrun : runWhen next cond labels s = some s') : runFrom next labels s = some s' := by
  induction labels generalizing s with
  | nil => exact hrun
  | cons label labels ih =>
      rw [runWhen] at hrun
      split_ifs at hrun
      obtain ⟨mid, hmid, hrest⟩ := Option.bind_eq_some_iff.mp hrun
      exact Option.bind_eq_some_iff.mpr ⟨mid, hmid, ih hrest⟩

/-- The measure rule: where no step raises a measure and the steps of one kind
lower it, a run takes no more of these than the measure says. -/
theorem runFrom_measure {σ ι : Type*} {next : σ → ι → Option σ} {inv : σ → Prop} {kind : ι → Bool}
    {measure : σ → Nat}
    (hstep : ∀ s label s', inv s → next s label = some s' →
      inv s' ∧ measure s' + (if kind label then 1 else 0) ≤ measure s)
    {labels : List ι} {s s' : σ} (hs : inv s) (hrun : runFrom next labels s = some s') :
    inv s' ∧ measure s' + labels.countP kind ≤ measure s := by
  induction labels generalizing s with
  | nil =>
      obtain rfl := Option.some.inj hrun
      exact ⟨hs, le_rfl⟩
  | cons label labels ih =>
      obtain ⟨mid, hmid, hrest⟩ := Option.bind_eq_some_iff.mp hrun
      obtain ⟨hinv, hlower⟩ := hstep s label mid hs hmid
      obtain ⟨hinv', hlower'⟩ := ih hinv hrest
      refine ⟨hinv', ?_⟩
      rw [List.countP_cons]
      omega

/-- The result of a computation that may fail: the state it ended in, and
whether it succeeded. -/
inductive Outcome (σ : Type*) where
  | ok (s : σ)
  | err (s : σ)
  deriving DecidableEq

namespace Outcome

variable {σ τ : Type*}

/-- The state reached, whether or not the computation succeeded. -/
def state : Outcome σ → σ
  | ok s => s
  | err s => s

def isOk : Outcome σ → Bool
  | ok _ => true
  | err _ => false

/-- Continue a successful computation; a failed one stops where it is. -/
def bind : Outcome σ → (σ → Outcome σ) → Outcome σ
  | ok s, next => next s
  | err s, _ => err s

/-- Change the type of the state in both cases. -/
def map (f : σ → τ) : Outcome σ → Outcome τ
  | ok s => ok (f s)
  | err s => err (f s)

@[simp] theorem state_ok (s : σ) : (ok s).state = s := rfl

@[simp] theorem state_err (s : σ) : (err s).state = s := rfl

@[simp] theorem isOk_ok (s : σ) : (ok s).isOk = true := rfl

@[simp] theorem isOk_err (s : σ) : (err s).isOk = false := rfl

@[simp] theorem bind_ok (s : σ) (next : σ → Outcome σ) : (ok s).bind next = next s := rfl

@[simp] theorem bind_err (s : σ) (next : σ → Outcome σ) : (err s).bind next = err s := rfl

@[simp] theorem map_ok (f : σ → τ) (s : σ) : (ok s).map f = ok (f s) := rfl

@[simp] theorem map_err (f : σ → τ) (s : σ) : (err s).map f = err (f s) := rfl

@[simp] theorem state_map (f : σ → τ) (o : Outcome σ) : (o.map f).state = f o.state := by
  cases o <;> rfl

theorem eq_ok_of_isOk {o : Outcome σ} (h : o.isOk = true) : o = ok o.state := by
  cases o with
  | ok s => rfl
  | err s => cases h

theorem bind_assoc (o : Outcome σ) (f g : σ → Outcome σ) :
    (o.bind f).bind g = o.bind fun s => (f s).bind g := by
  cases o <;> rfl

/-- A sequence of two computations succeeds exactly when both do. -/
theorem bind_eq_ok_iff {o : Outcome σ} {next : σ → Outcome σ} {s' : σ} :
    o.bind next = ok s' ↔ ∃ s, o = ok s ∧ next s = ok s' := by
  cases o with
  | ok s => simp
  | err s => simp

/-- The rule for what holds however a sequence ends: `p` survives the first
computation, and every successful continuation keeps it. -/
theorem bind_state {o : Outcome σ} {next : σ → Outcome σ} {p : σ → Prop}
    (hfirst : p o.state) (hnext : ∀ s, o = ok s → p s → p (next s).state) :
    p (o.bind next).state := by
  cases o with
  | ok s => exact hnext s rfl hfirst
  | err s => exact hfirst

/-- Run a fallible step for every element of a list, stopping at the first
failure. -/
def forEach {α : Type*} (step : α → σ → Outcome σ) : List α → σ → Outcome σ
  | [], s => ok s
  | a :: rest, s => (step a s).bind (forEach step rest)

@[simp] theorem forEach_nil {α : Type*} (step : α → σ → Outcome σ) (s : σ) :
    forEach step [] s = ok s := rfl

@[simp] theorem forEach_cons {α : Type*} (step : α → σ → Outcome σ) (a : α)
    (rest : List α) (s : σ) :
    forEach step (a :: rest) s = (step a s).bind (forEach step rest) := rfl

/-- What every step keeps, however it ends, the whole loop keeps. -/
theorem forEach_state {α : Type*} {step : α → σ → Outcome σ} {p : σ → Prop}
    {l : List α} (hstep : ∀ a ∈ l, ∀ s, p s → p (step a s).state) {s : σ}
    (hs : p s) : p (forEach step l s).state := by
  induction l generalizing s with
  | nil => exact hs
  | cons a rest ih =>
      refine bind_state (hstep a List.mem_cons_self s hs) fun t _ ht => ?_
      exact ih (fun b hb => hstep b (List.mem_cons_of_mem a hb)) ht

/-- The state of a computation that succeeded. -/
def result : Outcome σ → Option σ
  | ok s => some s
  | err _ => none

@[simp] theorem result_ok (s : σ) : (ok s).result = some s := rfl

@[simp] theorem result_err (s : σ) : (err s).result = none := rfl

theorem isSome_result (o : Outcome σ) : o.result.isSome = o.isOk := by
  cases o <;> rfl

theorem result_bind (o : Outcome σ) (next : σ → Outcome σ) :
    (o.bind next).result = o.result.bind fun s => (next s).result := by
  cases o <;> rfl

theorem result_map (f : σ → τ) (o : Outcome σ) : (o.map f).result = o.result.map f := by
  cases o <;> rfl

/-- **The order of steps that commute does not matter** to whether a loop succeeds,
nor to what it then leaves. -/
theorem forEach_perm {α : Type*} {step : α → σ → Outcome σ} {l l' : List α} (hperm : l.Perm l')
    (hcomm : ∀ a ∈ l, ∀ b ∈ l, a ≠ b → ∀ s,
      ((step a s).bind (step b)).result = ((step b s).bind (step a)).result) (s : σ) :
    (forEach step l s).result = (forEach step l' s).result := by
  induction hperm generalizing s with
  | nil => rfl
  | cons a _ ih =>
      rw [forEach_cons, forEach_cons, result_bind, result_bind]
      exact congrArg _ (funext fun s => ih (fun a ha b hb =>
        hcomm a (List.mem_cons_of_mem _ ha) b (List.mem_cons_of_mem _ hb)) s)
  | swap a b l =>
      have hswap : ((step b s).bind (step a)).result = ((step a s).bind (step b)).result := by
        by_cases hab : b = a
        · rw [hab]
        · exact hcomm b (by simp) a (by simp) hab s
      have hassoc (c d : α) :
          forEach step (c :: d :: l) s = ((step c s).bind (step d)).bind (forEach step l) :=
        (bind_assoc _ _ _).symm
      rw [hassoc, hassoc, result_bind ((step b s).bind _), result_bind ((step a s).bind _), hswap]
  | trans hperm _ ih ih' =>
      exact (ih hcomm s).trans (ih' (fun a ha b hb =>
        hcomm a (hperm.mem_iff.mpr ha) b (hperm.mem_iff.mpr hb)) s)

end Outcome

end Transition
