import Mathlib.Data.List.Forall2
import Ningshi.Lib.JsonDoc

/-!
# What one JSON document carries of another

`Carries v v'` says that `v'` has every member of `v` with the same value, at
every level; it may have more.  Objects are built from members that may be
missing (`present`), as a script does that assigns some of them only.

A struct decoder reads such an object field by field (`fieldOr_present`), and a
map decoder entry by entry (`asMap_ofMap_eq_some`).
-/

namespace JsonDoc

open Std FiniteMap

/-- Every member of the first value is a member of the second one, at every level. -/
inductive Carries : Value → Value → Prop
  | null : Carries .null .null
  | bool (b : Bool) : Carries (.bool b) (.bool b)
  | num (n : Int) : Carries (.num n) (.num n)
  | real (text : String) : Carries (.real text) (.real text)
  | str (s : String) : Carries (.str s) (.str s)
  | broken (text : String) : Carries (.broken text) (.broken text)
  | arr {items items' : List Value} (h : List.Forall₂ Carries items items') :
      Carries (.arr items) (.arr items')
  | obj {members members' : List (String × Value)} (w : String × Value → Value)
      (hmem : ∀ m ∈ members, (m.1, w m) ∈ members') (h : ∀ m ∈ members, Carries m.2 (w m)) :
      Carries (.obj members) (.obj members')

/-- A document carries itself. -/
theorem Carries.refl (v : Value) : Carries v v := by
  match v with
  | .null => exact .null
  | .bool b => exact .bool b
  | .num n => exact .num n
  | .real text => exact .real text
  | .str s => exact .str s
  | .broken text => exact .broken text
  | .arr items =>
      exact .arr (List.forall₂_same.mpr fun item _ => Carries.refl item)
  | .obj members =>
      exact .obj Prod.snd (fun m hm => hm) fun m _ => Carries.refl m.2
termination_by sizeOf v
decreasing_by
  · rename_i hitem
    have := List.sizeOf_lt_of_mem hitem
    simp only [Value.arr.sizeOf_spec]
    omega
  · rename_i hm
    have := List.sizeOf_lt_of_mem hm
    have hpair : sizeOf m.2 < sizeOf m := by
      cases m
      simp only [Prod.mk.sizeOf_spec]
      omega
    simp only [Value.obj.sizeOf_spec]
    omega

theorem carries_obj_iff {members members' : List (String × Value)} :
    Carries (.obj members) (.obj members') ↔
      ∀ m ∈ members, ∃ v', (m.1, v') ∈ members' ∧ Carries m.2 v' := by
  constructor
  · intro h m hm
    cases h with
    | obj w hmem hcarries => exact ⟨w m, hmem m hm, hcarries m hm⟩
  · intro h
    have : Nonempty Value := ⟨.null⟩
    choose! w hw using h
    exact .obj w (fun m hm => (hw m hm).1) fun m hm => (hw m hm).2

/-! ## Members that may be missing -/

/-- The members that are present, in order. -/
def present (fields : List (String × Option Value)) : List (String × Value) :=
  fields.filterMap fun f => f.2.map fun v => (f.1, v)

theorem mem_present_iff {fields : List (String × Option Value)} {m : String × Value} :
    m ∈ present fields ↔ (m.1, some m.2) ∈ fields := by
  rw [present, List.mem_filterMap]
  constructor
  · rintro ⟨f, hf, hm⟩
    obtain ⟨v, hv, rfl⟩ := Option.map_eq_some_iff.mp hm
    rw [← hv]
    exact hf
  · intro hm
    exact ⟨_, hm, rfl⟩

/-- The members of one name. -/
theorem filter_present {fields : List (String × Option Value)}
    (hnodup : (fields.map Prod.fst).Nodup) (name : String) :
    (present fields).filter (fun m => m.1 == name) =
      ((fields.lookup name).join.map fun v => (name, v)).toList := by
  induction fields with
  | nil => rfl
  | cons f fields ih =>
      obtain ⟨first, value⟩ := f
      rw [List.map_cons, List.nodup_cons] at hnodup
      have hpresent : present ((first, value) :: fields) =
          (value.map fun v => (first, v)).toList ++ present fields := by
        cases value <;> rfl
      rw [hpresent, List.filter_append]
      by_cases hname : name = first
      · subst hname
        -- no later member has this name
        have hnone : (present fields).filter (fun m => m.1 == name) = [] := by
          refine List.filter_eq_nil_iff.mpr fun m hm => ?_
          rw [beq_iff_eq]
          rintro rfl
          exact hnodup.1 (List.mem_map.mpr ⟨_, mem_present_iff.mp hm, rfl⟩)
        rw [hnone, List.append_nil, List.lookup_cons_self]
        cases value with
        | none => rfl
        | some v => simp
      · have hskip : (value.map fun v => (first, v)).toList.filter (fun m => m.1 == name) = [] := by
          cases value with
          | none => rfl
          | some v => simp [Ne.symm hname]
        rw [hskip, List.nil_append, ih hnodup.2, List.lookup_cons, beq_false_of_ne hname]

section Fields

variable {α : Type*} {fields : List (String × Option Value)} {name : String}
  {dec : Value → Option α}

/-- **A decoder finds a field as it was assigned**, or not at all. -/
theorem fieldOr_present (hnodup : (fields.map Prod.fst).Nodup) {value : Option Value}
    (hlookup : fields.lookup name = some value) (default : α) :
    fieldOr (present fields) name dec default = value.elim (some default) dec := by
  unfold fieldOr
  rw [filter_present hnodup, hlookup]
  cases value with
  | none => rfl
  | some v => rfl

theorem fieldOr_given (hnodup : (fields.map Prod.fst).Nodup) {v : Value}
    (hlookup : fields.lookup name = some (some v)) (default : α) :
    fieldOr (present fields) name dec default = dec v :=
  fieldOr_present hnodup hlookup default

/-- A field whose encoding the decoder inverts. -/
theorem fieldOr_encoded {enc : α → Value} (hdec : ∀ a, dec (enc a) = some a)
    (hnodup : (fields.map Prod.fst).Nodup) {a : Option α}
    (hlookup : fields.lookup name = some (a.map enc)) (default : α) :
    fieldOr (present fields) name dec default = some (a.getD default) := by
  rw [fieldOr_present hnodup hlookup]
  cases a with
  | none => rfl
  | some a => exact hdec a

end Fields

/-- A field that is present is carried by a member of its name. -/
def FieldCarried (members' : List (String × Value)) (field : String × Option Value) : Prop :=
  ∀ v, field.2 = some v → ∃ v', (field.1, v') ∈ members' ∧ Carries v v'

/-- An object with missing members is carried when each of its fields is. -/
theorem carries_present_iff {fields : List (String × Option Value)}
    {members' : List (String × Value)} :
    Carries (.obj (present fields)) (.obj members') ↔
      ∀ field ∈ fields, FieldCarried members' field := by
  rw [carries_obj_iff]
  constructor
  · rintro h ⟨name, value⟩ hfield v rfl
    exact h (name, v) (mem_present_iff.mpr hfield)
  · intro h m hm
    exact h _ (mem_present_iff.mp hm) m.2 rfl

section Fields

variable {α : Type*} {members' : List (String × Value)} {name : String} {v v' : Value}

theorem fieldCarried_given (hmem : (name, v') ∈ members') (h : Carries v v') :
    FieldCarried members' (name, some v) :=
  fun _ heq => ⟨v', hmem, Option.some.inj heq ▸ h⟩

theorem fieldCarried_same (hmem : (name, v) ∈ members') : FieldCarried members' (name, some v) :=
  fieldCarried_given hmem (.refl v)

theorem fieldCarried_map {enc : α → Value} {a : Option α} (hmem : (name, v') ∈ members')
    (h : ∀ b, a = some b → Carries (enc b) v') : FieldCarried members' (name, a.map enc) := by
  intro v hv
  obtain ⟨b, hb, rfl⟩ := Option.map_eq_some_iff.mp hv
  exact ⟨v', hmem, h b hb⟩

/-- A field that was assigned, written back with a default for the case that it
was not. -/
theorem fieldCarried_getD {enc : α → Value} {a : Option α} {b default : α}
    (hmem : (name, enc b) ∈ members') (hb : b = a.getD default) :
    FieldCarried members' (name, a.map enc) :=
  fieldCarried_map hmem fun c hc => by
    rw [hb, hc]
    exact .refl (enc c)

end Fields

/-! ## Maps -/

section Maps

variable {α β : Type*} {dec : Value → Option β} {enc : α → Value}

theorem mapMembers_eq_some {l : List (String × α)} {acc m' : ExtTreeMap String β compare}
    (h : mapMembers some dec (l.map fun p => (p.1, enc p.2)) acc = some m') (k : String) :
    m'[k]? = (lastValue l k).elim acc[k]? fun a => dec (enc a) := by
  induction l generalizing acc with
  | nil =>
      obtain rfl := Option.some.inj h
      rfl
  | cons p l ih =>
      rw [List.map_cons, mapMembers] at h
      cases hdec : dec (enc p.2) with
      | none =>
          rw [hdec] at h
          cases h
      | some b =>
          rw [hdec] at h
          rw [ih h, lastValue_cons]
          cases lastValue l k with
          | some a => rfl
          | none =>
              rw [Option.none_or, Option.elim_none, getElem?_insert_eq]
              split_ifs
              · exact hdec.symm
              · rfl

theorem decoded_of_mapMembers {l : List (String × α)} {acc m' : ExtTreeMap String β compare}
    (h : mapMembers some dec (l.map fun p => (p.1, enc p.2)) acc = some m') :
    ∀ p ∈ l, ∃ b, dec (enc p.2) = some b := by
  induction l generalizing acc with
  | nil => exact fun p hp => absurd hp List.not_mem_nil
  | cons p l ih =>
      rw [List.map_cons, mapMembers] at h
      cases hdec : dec (enc p.2) with
      | none =>
          rw [hdec] at h
          cases h
      | some b =>
          rw [hdec] at h
          exact List.forall_mem_cons.mpr ⟨⟨b, hdec⟩, ih h⟩

/-- **A map is decoded entry by entry**: it has the same keys, and every value
is what decoding gives. -/
theorem asMap_ofMap_eq_some {m : ExtTreeMap String α compare} {m' : ExtTreeMap String β compare}
    (h : asMap some dec (ofMap id enc m) = some m') (k : String) :
    m'[k]? = m[k]?.bind (fun a => dec (enc a)) ∧
      ∀ a, m[k]? = some a → ∃ b, dec (enc a) = some b ∧ m'[k]? = some b := by
  have hlookup : m'[k]? = m[k]?.bind fun a => dec (enc a) := by
    have hlast := mapMembers_eq_some h k
    rw [ExtTreeMap.getElem?_empty] at hlast
    have hsame : lastValue m.toList k = m[k]? := lastValue_arrange .canonical m k
    rw [hlast, hsame]
    cases m[k]? with
    | none => rfl
    | some a => rfl
  refine ⟨hlookup, fun a ha => ?_⟩
  obtain ⟨b, hb⟩ := decoded_of_mapMembers h (k, a)
    (ExtTreeMap.mem_toList_iff_getElem?_eq_some.mpr ha)
  exact ⟨b, hb, by rw [hlookup, ha, Option.bind_some, hb]⟩

/-- A map is carried when each of its entries is. -/
theorem carries_ofMap {enc' : β → Value} {m : ExtTreeMap String α compare}
    {m' : ExtTreeMap String β compare}
    (h : ∀ (k : String) (a : α), m[k]? = some a → ∃ b, m'[k]? = some b ∧ Carries (enc a) (enc' b)) :
    Carries (ofMap id enc m) (ofMap id enc' m') := by
  refine carries_obj_iff.mpr fun member hmember => ?_
  obtain ⟨p, hp, rfl⟩ := List.mem_map.mp hmember
  obtain ⟨b, hb, hcarries⟩ := h p.1 p.2 (ExtTreeMap.mem_toList_iff_getElem?_eq_some.mp hp)
  exact ⟨enc' b, List.mem_map.mpr ⟨(p.1, b),
    ExtTreeMap.mem_toList_iff_getElem?_eq_some.mpr hb, rfl⟩, hcarries⟩

end Maps

end JsonDoc
