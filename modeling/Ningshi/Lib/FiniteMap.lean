import Mathlib.Tactic

/-!
# Finite maps: key filters, hash iteration orders and lists of writes

Finite maps are `Std.ExtTreeMap`s: two of them are equal as soon as they agree
on every key, and their canonical listing is sorted by key.  A program that
iterates a hash map sees its entries in some other order; `IterOrder` is such
an order, a rearrangement of the canonical listing.

`insertAll` writes a list of key/value pairs one after the other.  What it
leaves under a key is the last pair written for it (`lastValue`).
-/

namespace FiniteMap

open Std

universe u v

/-- An order in which a hash table may list its entries. -/
structure IterOrder (α : Type u) where
  arrange : List α → List α
  perm : ∀ l, (arrange l).Perm l

namespace IterOrder

variable {α : Type u}

/-- The canonical listing itself. -/
def canonical : IterOrder α := ⟨id, fun l => .refl l⟩

instance : Inhabited (IterOrder α) := ⟨canonical⟩

@[simp] theorem mem_arrange (order : IterOrder α) {a : α} {l : List α} :
    a ∈ order.arrange l ↔ a ∈ l :=
  (order.perm l).mem_iff

end IterOrder

variable {α : Type u} {β : Type v} {cmp : α → α → Ordering}
  [TransCmp cmp] [LawfulEqCmp cmp]

@[simp] theorem getElem?_insert_eq [DecidableEq α] (m : ExtTreeMap α β cmp) (k a : α) (v : β) :
    (m.insert k v)[a]? = if k = a then some v else m[a]? := by
  rw [ExtTreeMap.getElem?_insert]
  simp only [LawfulEqCmp.compare_eq_iff_eq]

@[simp] theorem getElem?_erase_eq [DecidableEq α] (m : ExtTreeMap α β cmp) (k a : α) :
    (m.erase k)[a]? = if k = a then none else m[a]? := by
  rw [ExtTreeMap.getElem?_erase]
  simp only [LawfulEqCmp.compare_eq_iff_eq]

@[simp] theorem getElem?_modify_eq [DecidableEq α] (m : ExtTreeMap α β cmp) (k a : α)
    (f : β → β) : (m.modify k f)[a]? = if k = a then m[a]?.map f else m[a]? := by
  rw [ExtTreeMap.getElem?_modify]
  simp only [LawfulEqCmp.compare_eq_iff_eq]
  split_ifs with h
  · rw [h]
  · rfl

/-- A function that changes no value of a map does not change the map. -/
theorem map_eq_self {m : ExtTreeMap α β cmp} {f : β → β}
    (h : ∀ (k : α) (v : β), m[k]? = some v → f v = v) : (m.map fun _ v => f v) = m := by
  refine ExtTreeMap.ext_getElem? fun k => ?_
  rw [ExtTreeMap.getElem?_map]
  cases hv : m[k]? with
  | none => rfl
  | some v => exact congrArg some (h k v hv)

/-- Keep the entries whose key satisfies `keep`, as `retain` does. -/
def retainKeys (keep : α → Bool) (m : ExtTreeMap α β cmp) : ExtTreeMap α β cmp :=
  m.filter fun k _ => keep k

@[simp] theorem getElem?_retainKeys (keep : α → Bool) (m : ExtTreeMap α β cmp) (k : α) :
    (retainKeys keep m)[k]? = if keep k then m[k]? else none := by
  rw [retainKeys, ExtTreeMap.getElem?_filter']
  cases m[k]? with
  | none => simp
  | some v => cases keep k <;> simp [Option.filter]

@[simp] theorem retainKeys_empty (keep : α → Bool) :
    retainKeys keep (∅ : ExtTreeMap α β cmp) = ∅ := by
  refine ExtTreeMap.ext_getElem? fun k => ?_
  simp

omit [LawfulEqCmp cmp] in
/-- The keys of the canonical listing are distinct. -/
theorem nodup_map_fst_toList (m : ExtTreeMap α β cmp) :
    (m.toList.map Prod.fst).Nodup := by
  rw [ExtTreeMap.map_fst_toList_eq_keys]
  exact ExtTreeMap.nodup_keys

omit [LawfulEqCmp cmp] in
/-- So are the keys in any iteration order. -/
theorem nodup_map_fst_arrange (order : IterOrder (α × β)) (m : ExtTreeMap α β cmp) :
    ((order.arrange m.toList).map Prod.fst).Nodup :=
  ((order.perm m.toList).map Prod.fst).nodup_iff.mpr (nodup_map_fst_toList m)

theorem mem_arrange_toList_iff (order : IterOrder (α × β)) (m : ExtTreeMap α β cmp)
    (p : α × β) : p ∈ order.arrange m.toList ↔ m[p.1]? = some p.2 := by
  rw [IterOrder.mem_arrange]
  exact ExtTreeMap.mem_toList_iff_getElem?_eq_some

/-! ## Lists of writes -/

/-- Write the pairs of a list one after the other. -/
def insertAll (l : List (α × β)) (m : ExtTreeMap α β cmp) : ExtTreeMap α β cmp :=
  l.foldl (fun m p => m.insert p.1 p.2) m

/-- The value of the last pair of the list that has this key. -/
def lastValue [DecidableEq α] (l : List (α × β)) (k : α) : Option β :=
  (l.reverse.find? fun p => p.1 = k).map Prod.snd

variable [DecidableEq α]

omit [TransCmp cmp] [LawfulEqCmp cmp] in
theorem lastValue_cons (p : α × β) (l : List (α × β)) (k : α) :
    lastValue (p :: l) k = (lastValue l k).or (if p.1 = k then some p.2 else none) := by
  unfold lastValue
  rw [List.reverse_cons, List.find?_append]
  cases l.reverse.find? fun p => p.1 = k with
  | some q => simp
  | none => by_cases hk : p.1 = k <;> simp [hk]

omit [TransCmp cmp] [LawfulEqCmp cmp] in
theorem lastValue_eq_none_iff (l : List (α × β)) (k : α) :
    lastValue l k = none ↔ ∀ p ∈ l, p.1 ≠ k := by
  simp [lastValue]

omit [TransCmp cmp] [LawfulEqCmp cmp] in
theorem mem_of_lastValue_eq_some {l : List (α × β)} {k : α} {v : β}
    (h : lastValue l k = some v) : (k, v) ∈ l := by
  obtain ⟨p, hfind, rfl⟩ := Option.map_eq_some_iff.mp h
  have hkey : p.1 = k := by simpa using List.find?_some hfind
  have hmem : p ∈ l := List.mem_reverse.mp (List.mem_of_find?_eq_some hfind)
  rw [← hkey]
  exact hmem

omit [TransCmp cmp] [LawfulEqCmp cmp] in
/-- Where all writes of a key agree, the last one is any of them. -/
theorem lastValue_eq_some_iff {l : List (α × β)} {k : α}
    (h : ∀ v v', (k, v) ∈ l → (k, v') ∈ l → v = v') (v : β) :
    lastValue l k = some v ↔ (k, v) ∈ l := by
  constructor
  · exact mem_of_lastValue_eq_some
  · intro hmem
    cases hlast : lastValue l k with
    | none => exact absurd rfl ((lastValue_eq_none_iff l k).mp hlast _ hmem)
    | some v' => rw [h v' v (mem_of_lastValue_eq_some hlast) hmem]

omit [TransCmp cmp] [LawfulEqCmp cmp] in
theorem lastValue_append (l l' : List (α × β)) (k : α) :
    lastValue (l ++ l') k = (lastValue l' k).or (lastValue l k) := by
  unfold lastValue
  rw [List.reverse_append, List.find?_append]
  cases l'.reverse.find? fun p => p.1 = k <;> rfl

omit [TransCmp cmp] [LawfulEqCmp cmp] in
/-- The last value comes from the last part of the list that has the key. -/
theorem exists_of_lastValue_flatMap {γ : Type*} {f : γ → List (α × β)} {l : List γ} {k : α}
    {v : β} (h : lastValue (l.flatMap f) k = some v) :
    ∃ c, l.reverse.find? (fun c => k ∈ (f c).map Prod.fst) = some c ∧
      lastValue (f c) k = some v := by
  induction l with
  | nil => cases h
  | cons c l ih =>
      rw [List.flatMap_cons, lastValue_append] at h
      rw [List.reverse_cons, List.find?_append]
      cases hlast : lastValue (l.flatMap f) k with
      | some w =>
          rw [hlast, Option.some_or] at h
          obtain ⟨d, hfind, hd⟩ := ih (hlast.trans h)
          exact ⟨d, by rw [hfind, Option.some_or], hd⟩
      | none =>
          rw [hlast, Option.none_or] at h
          have hlater : l.reverse.find? (fun c => k ∈ (f c).map Prod.fst) = none := by
            rw [List.find?_eq_none]
            intro d hd hk
            obtain ⟨p, hp, hkey⟩ := List.mem_map.mp (of_decide_eq_true hk)
            have hmem := List.mem_flatMap.mpr ⟨d, List.mem_reverse.mp hd, hp⟩
            exact (lastValue_eq_none_iff _ _).mp hlast p hmem hkey
          have hkey : k ∈ (f c).map Prod.fst :=
            List.mem_map.mpr ⟨(k, v), mem_of_lastValue_eq_some h, rfl⟩
          refine ⟨c, ?_, h⟩
          rw [hlater, Option.none_or]
          exact List.find?_cons_of_pos (decide_eq_true hkey)

omit [TransCmp cmp] [LawfulEqCmp cmp] in
/-- Where each part of an ordered list writes itself under its keys, a key is left with
the last part that has it. -/
theorem lastValue_flatMap_iff {γ : Type*} {r : γ → γ → Prop} (hasymm : ∀ a b, r a b → ¬ r b a)
    {l : List γ} (hl : l.Pairwise r) (f : γ → List α) (k : α) (c : γ) :
    lastValue (l.flatMap fun d => (f d).map fun a => (a, d)) k = some c ↔
      c ∈ l ∧ k ∈ f c ∧ ∀ d ∈ l, k ∈ f d → d = c ∨ r d c := by
  induction l with
  | nil => simp [lastValue]
  | cons d l ih =>
      obtain ⟨hd, hrest⟩ := List.pairwise_cons.mp hl
      have hpart : lastValue ((f d).map fun a => (a, d)) k = some c ↔ k ∈ f d ∧ d = c := by
        rw [lastValue_eq_some_iff fun v v' hv hv' => ?_]
        · simp
        · simp only [List.mem_map, Prod.mk.injEq] at hv hv'
          obtain ⟨_, _, _, rfl⟩ := hv
          obtain ⟨_, _, _, rfl⟩ := hv'
          rfl
      rw [List.flatMap_cons, lastValue_append, Option.or_eq_some_iff, ih hrest, hpart]
      have hnone : lastValue (l.flatMap fun d => (f d).map fun a => (a, d)) k = none ↔
          ∀ e ∈ l, k ∉ f e := by
        rw [lastValue_eq_none_iff]
        constructor
        · exact fun h e he hk =>
            h (k, e) (List.mem_flatMap.mpr ⟨e, he, List.mem_map_of_mem hk⟩) rfl
        · rintro h _ hp rfl
          obtain ⟨e, he, hp⟩ := List.mem_flatMap.mp hp
          obtain ⟨a, ha, rfl⟩ := List.mem_map.mp hp
          exact h e he ha
      rw [hnone]
      constructor
      · rintro (⟨hc, hk, hlast⟩ | ⟨hnot, hk, rfl⟩)
        · refine ⟨.tail _ hc, hk, fun e he hke => ?_⟩
          rcases List.mem_cons.mp he with rfl | he
          · exact .inr (hd c hc)
          · exact hlast e he hke
        · refine ⟨.head _, hk, fun e he hke => ?_⟩
          rcases List.mem_cons.mp he with rfl | he
          · exact .inl rfl
          · exact absurd hke (hnot e he)
      · rintro ⟨hc, hk, hlast⟩
        rcases List.mem_cons.mp hc with rfl | hc
        · refine .inr ⟨fun e he hke => ?_, hk, rfl⟩
          rcases hlast e (.tail _ he) hke with rfl | hbefore
          · exact hasymm e e (hd e he) (hd e he)
          · exact hasymm _ _ (hd e he) hbefore
        · exact .inl ⟨hc, hk, fun e he => hlast e (.tail _ he)⟩

/-- **What a list of writes leaves behind.** -/
theorem getElem?_insertAll (l : List (α × β)) (m : ExtTreeMap α β cmp) (k : α) :
    (insertAll l m)[k]? = (lastValue l k).or m[k]? := by
  induction l generalizing m with
  | nil => simp [insertAll, lastValue]
  | cons p l ih =>
      show (insertAll l (m.insert p.1 p.2))[k]? = _
      rw [ih, lastValue_cons, getElem?_insert_eq]
      -- The later pairs are written last, so theirs counts first.
      cases lastValue l k with
      | some v => simp
      | none => by_cases hk : p.1 = k <;> simp [hk]

omit [TransCmp cmp] [LawfulEqCmp cmp] in
/-- Keys may be written in another syntax. -/
theorem lastValue_map_keys {γ δ : Type*} [DecidableEq γ] {key : α → γ}
    (hkey : ∀ a b, key a = key b → a = b) (enc : β → δ) (l : List (α × β)) (k : α) :
    lastValue (l.map fun p => (key p.1, enc p.2)) (key k) = (lastValue l k).map enc := by
  induction l with
  | nil => rfl
  | cons p l ih =>
      rw [List.map_cons, lastValue_cons, lastValue_cons, ih]
      by_cases hk : p.1 = k
      · subst hk
        cases lastValue l p.1 <;> simp
      · have hne : key p.1 ≠ key k := fun heq => hk (hkey _ _ heq)
        cases lastValue l k <;> simp [hk, hne]

/-- In any listing of a map the last value of a key is its only one. -/
theorem lastValue_arrange (order : IterOrder (α × β)) (m : ExtTreeMap α β cmp) (k : α) :
    lastValue (order.arrange m.toList) k = m[k]? := by
  cases hlast : lastValue (order.arrange m.toList) k with
  | some v =>
      exact ((mem_arrange_toList_iff order m (k, v)).mp (mem_of_lastValue_eq_some hlast)).symm
  | none =>
      cases hk : m[k]? with
      | none => rfl
      | some v =>
          -- A key of the map is in the listing, so it has a last value.
          have hmem := (mem_arrange_toList_iff order m (k, v)).mpr hk
          exact absurd rfl ((lastValue_eq_none_iff _ _).mp hlast _ hmem)

/-- Writing the canonical listing of a map into an empty one rebuilds it. -/
theorem insertAll_toList (m : ExtTreeMap α β cmp) :
    insertAll m.toList (∅ : ExtTreeMap α β cmp) = m := by
  refine ExtTreeMap.ext_getElem? fun k => ?_
  rw [getElem?_insertAll, ExtTreeMap.getElem?_empty, Option.or_none]
  exact lastValue_arrange .canonical m k

/-! ## Lists of removals -/

/-- Remove the keys of a list one after the other. -/
def eraseAll (keys : List α) (m : ExtTreeMap α β cmp) : ExtTreeMap α β cmp :=
  keys.foldl (fun m k => m.erase k) m

omit [LawfulEqCmp cmp] [DecidableEq α] in
@[simp] theorem eraseAll_nil (m : ExtTreeMap α β cmp) : eraseAll [] m = m := rfl

omit [LawfulEqCmp cmp] [DecidableEq α] in
theorem eraseAll_append (keys keys' : List α) (m : ExtTreeMap α β cmp) :
    eraseAll (keys ++ keys') m = eraseAll keys' (eraseAll keys m) :=
  List.foldl_append

/-- **What a list of removals leaves behind.** -/
theorem getElem?_eraseAll (keys : List α) (m : ExtTreeMap α β cmp) (k : α) :
    (eraseAll keys m)[k]? = if k ∈ keys then none else m[k]? := by
  induction keys generalizing m with
  | nil => simp
  | cons key keys ih =>
      show (eraseAll keys (m.erase key))[k]? = _
      rw [ih, getElem?_erase_eq]
      by_cases hk : key = k
      · simp [hk]
      · simp [hk, Ne.symm hk]

/-- Nothing is removed exactly when none of the keys was there. -/
theorem eraseAll_eq_self_iff {keys : List α} {m : ExtTreeMap α β cmp} :
    eraseAll keys m = m ↔ ∀ k ∈ keys, m[k]? = none := by
  constructor
  · intro h k hk
    rw [← h, getElem?_eraseAll, if_pos hk]
  · intro h
    refine ExtTreeMap.ext_getElem? fun k => ?_
    rw [getElem?_eraseAll]
    split_ifs with hk
    · exact (h k hk).symm
    · rfl

/-! ## Collecting values -/

/-- Collect the values of a list of pairs under their keys, in order. -/
def groupAll (l : List (α × β)) : ExtTreeMap α (List β) cmp :=
  l.foldl (fun m p => m.insert p.1 (m[p.1]?.getD [] ++ [p.2])) ∅

private theorem getD_foldl_groupAll (l : List (α × β)) (m : ExtTreeMap α (List β) cmp) (k : α) :
    (l.foldl (fun m p => m.insert p.1 (m[p.1]?.getD [] ++ [p.2])) m)[k]?.getD [] =
      m[k]?.getD [] ++ (l.filter fun p => p.1 = k).map Prod.snd := by
  induction l generalizing m with
  | nil => simp
  | cons p l ih =>
      rw [List.foldl_cons, ih, getElem?_insert_eq]
      by_cases hk : p.1 = k
      · simp [hk]
      · simp [hk]

/-- What is collected under a key. -/
theorem getD_groupAll (l : List (α × β)) (k : α) :
    (groupAll l : ExtTreeMap α (List β) cmp)[k]?.getD [] =
      (l.filter fun p => p.1 = k).map Prod.snd := by
  rw [groupAll, getD_foldl_groupAll]
  simp

end FiniteMap
