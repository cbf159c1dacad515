import Mathlib.Data.List.Forall2
import Ningshi.Lib.JsonDoc

/-!
# Documents with unknown fields added

`Growth` says how a document of some shape may grow: a struct object may get
members with names that are none of its fields, at any position, and what
stands in its fields may grow in turn; a list and a map grow in their items.  A
decoder that follows the shape takes no notice (`Growth.Ignored`).

Only a struct with a flattened part can tell: it reads the same, if what it holds can
be kept (`flattened_eq_checked`).  A check in one place of a document is a check of the
document (`fieldOr_checked`, `asMap_checked`).
-/

namespace JsonDoc

open Std FiniteMap

/-- A relation between a value and the values it may grow to. -/
structure Growth where
  rel : Value → Value → Prop
  refl : ∀ v, rel v v

namespace Growth

/-- The value may not grow. -/
def same : Growth := ⟨Eq, fun _ => rfl⟩

/-- Members of an object whose struct has these fields. -/
inductive Members (fields : List (String × Growth)) :
    List (String × Value) → List (String × Value) → Prop
  | nil : Members fields [] []
  | field {name : String} {g : Growth} {v v' : Value} {ms ms' : List (String × Value)}
      (hfield : (name, g) ∈ fields) (hv : g.rel v v') (h : Members fields ms ms') :
      Members fields ((name, v) :: ms) ((name, v') :: ms')
  | unknown {name : String} {v : Value} {ms ms' : List (String × Value)}
      (hname : name ∉ fields.map Prod.fst) (h : Members fields ms ms') :
      Members fields ((name, v) :: ms) ((name, v) :: ms')
  | added {name : String} {v : Value} {ms ms' : List (String × Value)}
      (hname : name ∉ fields.map Prod.fst) (h : Members fields ms ms') :
      Members fields ms ((name, v) :: ms')

/-- Items of an array that stands for a struct: the fields in order. -/
inductive Items : List (String × Growth) → List Value → List Value → Prop
  | nil (fields : List (String × Growth)) : Items fields [] []
  | cons {name : String} {g : Growth} {fields : List (String × Growth)} {v v' : Value}
      {items items' : List Value} (hv : g.rel v v') (h : Items fields items items') :
      Items ((name, g) :: fields) (v :: items) (v' :: items')

inductive Struct (fields : List (String × Growth)) : Value → Value → Prop
  | obj {ms ms' : List (String × Value)} (h : Members fields ms ms') :
      Struct fields (.obj ms) (.obj ms')
  | arr {items items' : List Value} (h : Items fields items items') :
      Struct fields (.arr items) (.arr items')
  | same (v : Value) : Struct fields v v

def struct (fields : List (String × Growth)) : Growth := ⟨Struct fields, .same⟩

inductive ListOf (g : Growth) : Value → Value → Prop
  | arr {items items' : List Value} (h : List.Forall₂ g.rel items items') :
      ListOf g (.arr items) (.arr items')
  | same (v : Value) : ListOf g v v

def list (g : Growth) : Growth := ⟨ListOf g, .same⟩

/-- The entries of a map keep their keys; none is added. -/
inductive MapOf (g : Growth) : Value → Value → Prop
  | obj {ms ms' : List (String × Value)}
      (h : List.Forall₂ (fun m m' => m.1 = m'.1 ∧ g.rel m.2 m'.2) ms ms') :
      MapOf g (.obj ms) (.obj ms')
  | same (v : Value) : MapOf g v v

def map (g : Growth) : Growth := ⟨MapOf g, .same⟩

/-- The decoder reads the same out of what a value grows to. -/
def Ignored {α : Type*} (g : Growth) (dec : Value → Option α) : Prop :=
  ∀ v v', g.rel v v' → dec v' = dec v

section Decoders

variable {α β : Type*} {cmp : α → α → Ordering} [TransCmp cmp] {g : Growth}

theorem ignored_same (dec : Value → Option β) : same.Ignored dec := by
  rintro v _ rfl
  rfl

theorem ignored_list {dec : Value → Option β} (hdec : g.Ignored dec) :
    g.list.Ignored (asList dec) := by
  rintro _ _ (h | _)
  · show List.mapM dec _ = List.mapM dec _
    induction h with
    | nil => rfl
    | cons hv _ ih => rw [List.mapM_cons, List.mapM_cons, hdec _ _ hv, ih]
  · rfl

theorem ignored_map {dec : Value → Option β} (key : String → Option α) (hdec : g.Ignored dec) :
    g.map.Ignored (asMap key dec : Value → Option (ExtTreeMap α β cmp)) := by
  rintro _ _ (h | _)
  · show mapMembers key dec _ ∅ = mapMembers key dec _ ∅
    generalize (∅ : ExtTreeMap α β cmp) = m
    induction h generalizing m with
    | nil => rfl
    | @cons a b _ _ hv _ ih =>
        obtain ⟨name, v⟩ := a
        obtain ⟨name', v'⟩ := b
        obtain ⟨rfl, hv⟩ := hv
        simp only [mapMembers, hdec _ _ hv]
        split
        · exact ih _
        · rfl
  · rfl

end Decoders

/-! ## Structs -/

section Structs

variable {fields : List (String × Growth)} {ms ms' : List (String × Value)}

/-- Field by field the members of one name have grown, and no others. -/
def SameFields (fields : List (String × Growth)) (ms ms' : List (String × Value)) : Prop :=
  ∀ name g, (name, g) ∈ fields →
    List.Forall₂ (fun m m' => g.rel m.2 m'.2) (ms.filter fun m => m.1 == name)
      (ms'.filter fun m => m.1 == name)

theorem SameFields.refl (fields : List (String × Growth)) (ms : List (String × Value)) :
    SameFields fields ms ms := fun _ g _ => List.forall₂_same.mpr fun m _ => g.refl m.2

/-- Where each name has one field, the growth of a member is that of its field. -/
theorem eq_of_field (hnodup : (fields.map Prod.fst).Nodup) {name : String} {g g' : Growth}
    (h : (name, g) ∈ fields) (h' : (name, g') ∈ fields) : g = g' := by
  have hinj := List.inj_on_of_nodup_map hnodup h h' rfl
  exact (Prod.mk.inj hinj).2

theorem Members.sameFields (hnodup : (fields.map Prod.fst).Nodup) (h : Members fields ms ms') :
    SameFields fields ms ms' := by
  intro name g hg
  have hskip {n : String} (hn : n ∉ fields.map Prod.fst) : (n == name) = false := by
    rw [beq_eq_false_iff_ne]
    rintro rfl
    exact hn (List.mem_map_of_mem hg)
  induction h with
  | nil => exact .nil
  | @field n _ _ _ _ _ hfield hv _ ih =>
      by_cases hname : n = name
      · subst hname
        obtain rfl := eq_of_field hnodup hfield hg
        simpa using ⟨hv, ih⟩
      · simpa [hname] using ih
  | unknown hn _ ih => simpa [hskip hn] using ih
  | added hn _ ih => simpa [hskip hn] using ih

/-- The items of an array are the members of an object with these fields. -/
theorem Items.members {all : List (String × Growth)} {items items' : List Value}
    (hsub : fields ⊆ all) (h : Items fields items items') :
    Members all ((fields.map Prod.fst).zip items) ((fields.map Prod.fst).zip items') := by
  induction h with
  | nil fields =>
      rw [List.zip_nil_right]
      exact .nil
  | cons hv _ ih =>
      rw [List.cons_subset] at hsub
      exact .field hsub.1 hv (ih hsub.2)

theorem Items.length_eq {items items' : List Value} (h : Items fields items items') :
    items.length = items'.length := by
  induction h with
  | nil => rfl
  | cons _ _ ih => rw [List.length_cons, List.length_cons, ih]

/-- The members found for a struct have grown field by field. -/
theorem structMembers_struct (hnodup : (fields.map Prod.fst).Nodup) {v v' : Value}
    (h : Struct fields v v') :
    Option.Rel (SameFields fields) (structMembers (fields.map Prod.fst) v)
      (structMembers (fields.map Prod.fst) v') := by
  cases h with
  | obj h => exact .some (h.sameFields hnodup)
  | arr h =>
      simp only [structMembers, ← h.length_eq]
      split_ifs
      · exact .some ((h.members (List.Subset.refl _)).sameFields hnodup)
      · exact .none
  | same v =>
      cases structMembers (fields.map Prod.fst) v with
      | none => exact .none
      | some ms => exact .some (.refl fields ms)

/-- **A field is read as before.** -/
theorem SameFields.fieldOr {α : Type*} (h : SameFields fields ms ms') {name : String} {g : Growth}
    {dec : Value → Option α} (hfield : (name, g) ∈ fields) (hdec : g.Ignored dec) (default : α) :
    fieldOr ms' name dec default = fieldOr ms name dec default := by
  have hfound := h name g hfield
  unfold JsonDoc.fieldOr
  generalize (ms.filter fun m => m.1 == name) = found at hfound ⊢
  generalize (ms'.filter fun m => m.1 == name) = found' at hfound ⊢
  cases hfound with
  | nil => rfl
  | cons hv hrest =>
      cases hrest with
      | nil => exact hdec _ _ hv
      | cons _ _ => rfl

/-- **A struct is read as before** when what is read of its members is. -/
theorem ignored_struct {α : Type*} {dec : Value → Option α}
    {read : List (String × Value) → Option α} (hnodup : (fields.map Prod.fst).Nodup)
    (hdec : ∀ v, dec v = (structMembers (fields.map Prod.fst) v).bind read)
    (hread : ∀ ms ms', SameFields fields ms ms' → read ms' = read ms) :
    (struct fields).Ignored dec := by
  intro v v' h
  have hmembers := structMembers_struct hnodup h
  rw [hdec, hdec]
  generalize structMembers (fields.map Prod.fst) v = ms at hmembers ⊢
  generalize structMembers (fields.map Prod.fst) v' = ms' at hmembers ⊢
  cases hmembers with
  | some hsame => exact hread _ _ hsame
  | none => rfl

/-- A struct that is read from an object only. -/
theorem ignored_object {α : Type*} {dec : Value → Option α}
    {read : List (String × Value) → Option α} (hnodup : (fields.map Prod.fst).Nodup)
    (hobj : ∀ ms, dec (.obj ms) = read ms) (harr : ∀ items, dec (.arr items) = none)
    (hread : ∀ ms ms', SameFields fields ms ms' → read ms' = read ms) :
    (struct fields).Ignored dec := by
  rintro _ _ (h | _ | _)
  · rw [hobj, hobj]
    exact hread _ _ (h.sameFields hnodup)
  · rw [harr, harr]
  · rfl

end Structs

end Growth

/-! ## Decoders with a check -/

section Checks

variable {α β : Type*} {ok : Value → Bool} {dec : Value → Option β}

/-- A decoder that refuses what does not pass a check. -/
def checked (ok : Value → Bool) (dec : Value → Option β) (v : Value) : Option β :=
  if ok v then dec v else none

/-- A struct with a flattened part, had all it holds been kept. -/
def flattenedRead (read : List (String × Value) → Option β) : Value → Option β
  | .obj members => read members
  | _ => none

theorem flattened_eq_checked (own : List String) (level : Nat)
    (read : List (String × Value) → Option β) :
    flattened own level read = checked (Value.keptBeside own level) (flattenedRead read) := by
  funext v
  cases v <;> rfl

/-- All members of one name pass. -/
def fieldPasses (name : String) (ok : Value → Bool) (members : List (String × Value)) : Bool :=
  members.all fun m => m.1 != name || ok m.2

/-- All entries of a map pass. -/
def entriesPass (ok : Value → Bool) : Value → Bool
  | .obj members => members.all fun m => ok m.2
  | _ => true

theorem fieldOr_checked (members : List (String × Value)) (name : String) (default : β) :
    fieldOr members name (checked ok dec) default =
      if fieldPasses name ok members then fieldOr members name dec default else none := by
  have hpasses : fieldPasses name ok members =
      (members.filter fun m => m.1 == name).all fun m => ok m.2 := by
    rw [fieldPasses, List.all_filter]
    refine congrArg (List.all members) (funext fun m => ?_)
    rw [bne]
  unfold fieldOr
  rw [hpasses]
  generalize (members.filter fun m => m.1 == name) = found
  match found with
  | [] => rfl
  | [m] => rw [List.all_cons, List.all_nil, Bool.and_true]; rfl
  | _ :: _ :: _ => exact (ite_self _).symm

variable {cmp : α → α → Ordering} [TransCmp cmp]

theorem asMap_checked (key : String → Option α) :
    (asMap key (checked ok dec) : Value → Option (ExtTreeMap α β cmp)) =
      checked (entriesPass ok) (asMap key dec) := by
  have hmembers (members : List (String × Value)) (m : ExtTreeMap α β cmp) :
      mapMembers key (checked ok dec) members m =
        if members.all fun m => ok m.2 then mapMembers key dec members m else none := by
    induction members generalizing m with
    | nil => rfl
    | cons entry members ih =>
        obtain ⟨name, v⟩ := entry
        simp only [mapMembers, checked, List.all_cons]
        by_cases hok : ok v = true
        · simp only [hok, if_true, Bool.true_and]
          split
          · exact ih _
          · rw [ite_self]
        · simp only [hok, Bool.false_eq_true, if_false, Bool.false_and]
          split
          · next hnone => cases hnone
          · rfl
  funext v
  cases v with
  | obj members => exact hmembers members ∅
  | _ => rfl

end Checks

end JsonDoc
