import Ningshi.Lib.FiniteMap
import Ningshi.Lib.RustStr

/-!
# JSON documents and field-by-field decoding

`Value` is the syntax tree of a JSON text and `Text` the content of a file
that may or may not be JSON.  The decoders follow the encoding a derived
deserializer uses: a struct is an object (or an array of its fields in
order), unknown members are skipped, a member given twice is an error, and a
missing member is an error unless the field has a default.  Integers are
accepted only inside the bounds of their machine type.

Where the fields of one struct are flattened into the object of another, the
unknown members are not skipped but kept until it is known which of them are
fields (`flattened`).  That can fail where skipping does not (`Value.kept`).
-/

namespace JsonDoc

open Std FiniteMap

/-- A JSON value.  A number that is not a plain integer keeps its text, and so does
a string, or an object with a name, that is no sequence of characters: an escape in it
is half of a surrogate pair. -/
inductive Value where
  | null
  | bool (b : Bool)
  | num (n : Int)
  | real (text : String)
  | str (s : String)
  | broken (text : String)
  | arr (items : List Value)
  | obj (members : List (String × Value))

/-- The content of a file: a JSON document, or bytes that are not one. -/
inductive Text where
  | json (value : Value)
  | other (bytes : String)

/-- Read a file as JSON and decode it. -/
def Text.decode {α : Type*} (dec : Value → Option α) : Text → Option α
  | .json value => dec value
  | .other _ => none

@[simp] theorem Text.decode_json {α : Type*} (dec : Value → Option α) (value : Value) :
    (Text.json value).decode dec = dec value := rfl

/-! ## Scalars and lists -/

def asBool : Value → Option Bool
  | .bool b => some b
  | _ => none

def asStr : Value → Option String
  | .str s => some s
  | _ => none

/-- A non-negative integer. -/
def asNat : Value → Option Nat
  | .num (.ofNat n) => some n
  | _ => none

def asU32 (v : Value) : Option UInt32 :=
  ((asNat v).filter fun n => n < 2 ^ 32).map UInt32.ofNat

def asU8 (v : Value) : Option UInt8 :=
  ((asNat v).filter fun n => n < 2 ^ 8).map UInt8.ofNat

/-- A value that may be `null`. -/
def asOption {α : Type*} (dec : Value → Option α) : Value → Option (Option α)
  | .null => some none
  | value => (dec value).map some

def ofOption {α : Type*} (enc : α → Value) : Option α → Value
  | none => .null
  | some a => enc a

def asList {α : Type*} (dec : Value → Option α) : Value → Option (List α)
  | .arr items => items.mapM dec
  | _ => none

/-! ## Structs -/

/-- The members of a struct with these fields, from an object or from the
array of its fields in order. -/
def structMembers (fields : List String) : Value → Option (List (String × Value))
  | .obj members => some members
  -- fields at the end may be missing, surplus items are refused
  | .arr items => if items.length ≤ fields.length then some (fields.zip items) else none
  | _ => none

/-- A field that may be missing. -/
def fieldOr {α : Type*} (members : List (String × Value)) (name : String)
    (dec : Value → Option α) (default : α) : Option α :=
  match members.filter fun m => m.1 == name with
  | [] => some default
  | [m] => dec m.2
  -- a member that is given twice
  | _ => none

/-- A field that must be present. -/
def field {α : Type*} (members : List (String × Value)) (name : String)
    (dec : Value → Option α) : Option α :=
  match members.filter fun m => m.1 == name with
  | [m] => dec m.2
  | _ => none

/-! ## Flattened structs -/

/-- The levels of arrays and objects a document may have where it is not skipped. -/
def levels : Nat := 127

/-- `2 ^ 1024 - 2 ^ 970`, the least natural number that is not rounded to a finite double. -/
def doubleEnd : Nat := (2 ^ 54 - 1) * (2 ^ 194) ^ 5

def exponentValue : List Char → Int
  | '-' :: digits => -(Nat.ofDigitChars 10 digits 0 : Int)
  | '+' :: digits => Nat.ofDigitChars 10 digits 0
  | digits => Nat.ofDigitChars 10 digits 0

/-- The double next to a numeral with a fraction or an exponent is finite. -/
def finiteReal (text : String) : Bool :=
  let isE (c : Char) : Bool := c == 'e' || c == 'E'
  let mantissa := text.toList.takeWhile fun c => !isE c
  let exponent := exponentValue ((text.toList.dropWhile fun c => !isE c).drop 1)
  let fraction := (mantissa.dropWhile (· != '.')).drop 1
  let digits := Nat.ofDigitChars 10 (mantissa.filter Char.isDigit) 0
  let scale := exponent - fraction.length
  digits * 10 ^ scale.toNat < doubleEnd * 10 ^ (-scale).toNat

/-- A value whose type is not known yet can be kept: every number has a finite double,
every string its characters, and there are no more than `depth` levels. -/
def Value.kept : Nat → Value → Bool
  | _, .null | _, .bool _ | _, .str _ => true
  | _, .num n => n.natAbs < doubleEnd
  | _, .real text => finiteReal text
  | _, .broken _ => false
  | 0, .arr _ | 0, .obj _ => false
  | depth + 1, .arr items => items.all (Value.kept depth)
  | depth + 1, .obj members => members.all fun m => Value.kept depth m.2

/-- Everything in an object beside these fields of its own can be kept.  The object is
on the level `level` of its document. -/
def Value.keptBeside (own : List String) (level : Nat) : Value → Bool
  | .obj members => members.all fun m => own.contains m.1 || m.2.kept (levels - level)
  | _ => true

/-- A struct with a flattened part beside these fields is read from an object only. -/
def flattened {α : Type*} (own : List String) (level : Nat)
    (read : List (String × Value) → Option α) (v : Value) : Option α :=
  match v with
  | .obj members => if v.keptBeside own level then read members else none
  | _ => none

/-! ## Maps -/

/-- Decode the members of a map one after the other; a repeated key keeps the
last value. -/
def mapMembers {α β : Type*} {cmp : α → α → Ordering} [TransCmp cmp] (key : String → Option α)
    (dec : Value → Option β) :
    List (String × Value) → ExtTreeMap α β cmp → Option (ExtTreeMap α β cmp)
  | [], m => some m
  | (name, value) :: rest, m =>
      match key name, dec value with
      | some k, some v => mapMembers key dec rest (m.insert k v)
      | _, _ => none

/-- A map with the given key syntax. -/
def asMap {α β : Type*} {cmp : α → α → Ordering} [TransCmp cmp] (key : String → Option α)
    (dec : Value → Option β) : Value → Option (ExtTreeMap α β cmp)
  | .obj members => mapMembers key dec members ∅
  | _ => none

/-- An integer key: a decimal numeral without sign or leading zeroes. -/
def keyU32 (s : String) : Option UInt32 :=
  ((RustStr.digitsValue s.toList).filter
    fun n => n < 2 ^ 32 && Nat.toDigits 10 n == s.toList).map UInt32.ofNat

/-- The text of an integer key. -/
def ofKeyU32 (k : UInt32) : String := String.ofList (Nat.toDigits 10 k.toNat)

/-- The object a map is written as, in key order. -/
def ofMap {α β : Type*} {cmp : α → α → Ordering} [TransCmp cmp] (key : α → String)
    (enc : β → Value) (m : ExtTreeMap α β cmp) : Value :=
  .obj (m.toList.map fun p => (key p.1, enc p.2))

/-! ## What is written is read back -/

@[simp] theorem asBool_bool (b : Bool) : asBool (.bool b) = some b := rfl

@[simp] theorem asStr_str (s : String) : asStr (.str s) = some s := rfl

@[simp] theorem asNat_natCast (n : Nat) : asNat (.num n) = some n := rfl

@[simp] theorem asU32_toNat (n : UInt32) : asU32 (.num n.toNat) = some n := by
  have h : n.toNat < 2 ^ 32 := n.toNat_lt
  rw [asU32, asNat_natCast, Option.filter_some_pos (by simpa using h)]
  simp

@[simp] theorem asU8_toNat (n : UInt8) : asU8 (.num n.toNat) = some n := by
  have h : n.toNat < 2 ^ 8 := n.toNat_lt
  rw [asU8, asNat_natCast, Option.filter_some_pos (by simpa using h)]
  simp

section Kept

variable (depth : Nat)

@[simp] theorem kept_bool (b : Bool) : Value.kept depth (.bool b) = true := by
  cases depth <;> rfl

@[simp] theorem kept_str (s : String) : Value.kept depth (.str s) = true := by
  cases depth <;> rfl

theorem kept_natCast {n : Nat} (h : n < 2 ^ 64) : Value.kept depth (.num n) = true := by
  have hend : 2 ^ 64 ≤ doubleEnd := by decide +kernel
  cases depth <;> exact decide_eq_true (Nat.lt_of_lt_of_le h hend)

@[simp] theorem kept_u32 (n : UInt32) : Value.kept depth (.num n.toNat) = true :=
  kept_natCast depth (Nat.lt_trans n.toNat_lt (by omega))

@[simp] theorem kept_u8 (n : UInt8) : Value.kept depth (.num n.toNat) = true :=
  kept_natCast depth (Nat.lt_trans n.toNat_lt (by omega))

@[simp] theorem kept_arr (items : List Value) :
    Value.kept (depth + 1) (.arr items) = items.all (Value.kept depth) := rfl

@[simp] theorem kept_obj (members : List (String × Value)) :
    Value.kept (depth + 1) (.obj members) = members.all fun m => m.2.kept depth := rfl

end Kept

/-- What a struct with a flattened part is read as, it was read as from its members. -/
theorem read_of_flattened {α : Type*} {own : List String} {level : Nat}
    {read : List (String × Value) → Option α} {members : List (String × Value)} {a : α}
    (h : flattened own level read (.obj members) = some a) : read members = some a := by
  unfold flattened at h
  split_ifs at h
  exact h

/-- An optional value is read back, when no value is written as `null`. -/
theorem asOption_ofOption {α : Type*} {dec : Value → Option α} {enc : α → Value}
    (hdec : ∀ a, dec (enc a) = some a) (hnull : ∀ a, enc a ≠ .null) (o : Option α) :
    asOption dec (ofOption enc o) = some o := by
  cases o with
  | none => rfl
  | some a =>
      have hsome := congrArg (Option.map some) (hdec a)
      have hne := hnull a
      rw [ofOption]
      generalize enc a = value at hne hsome
      cases value with
      | null => exact absurd rfl hne
      | _ => exact hsome

@[simp] theorem keyU32_ofKeyU32 (k : UInt32) : keyU32 (ofKeyU32 k) = some k := by
  have h : k.toNat < 2 ^ 32 := k.toNat_lt
  rw [keyU32, ofKeyU32, String.toList_ofList, RustStr.digitsValue_toDigits,
    Option.filter_some_pos (by simpa using h)]
  simp

variable {α β : Type*} {cmp : α → α → Ordering} [TransCmp cmp]

theorem mapMembers_map {key : String → Option α} {ofKey : α → String}
    {dec : Value → Option β} {enc : β → Value} (hkey : ∀ k, key (ofKey k) = some k)
    (hdec : ∀ v, dec (enc v) = some v) (l : List (α × β)) (m : ExtTreeMap α β cmp) :
    mapMembers key dec (l.map fun p => (ofKey p.1, enc p.2)) m = some (insertAll l m) := by
  induction l generalizing m with
  | nil => rfl
  | cons p l ih =>
      rw [List.map_cons, mapMembers, hkey, hdec]
      exact ih _

/-- A map survives being written and read. -/
theorem asMap_ofMap [LawfulEqCmp cmp] [DecidableEq α] {key : String → Option α}
    {ofKey : α → String} {dec : Value → Option β} {enc : β → Value}
    (hkey : ∀ k, key (ofKey k) = some k) (hdec : ∀ v, dec (enc v) = some v)
    (m : ExtTreeMap α β cmp) : asMap key dec (ofMap ofKey enc m) = some m := by
  show mapMembers key dec (m.toList.map fun p => (ofKey p.1, enc p.2)) ∅ = some m
  rw [mapMembers_map hkey hdec, insertAll_toList]

/-- A list survives being written and read. -/
theorem asList_map {dec : Value → Option α} {enc : α → Value}
    (hdec : ∀ a, dec (enc a) = some a) (l : List α) :
    asList dec (.arr (l.map enc)) = some l := by
  show (l.map enc).mapM dec = some l
  induction l with
  | nil => rfl
  | cons a l ih =>
      rw [List.map_cons, List.mapM_cons, hdec]
      simp [ih]

end JsonDoc
