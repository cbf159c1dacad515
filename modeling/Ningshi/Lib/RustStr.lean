import Mathlib.Tactic

/-!
# The string operations of the Rust standard library

The functions below work on the list of Unicode scalar values of a string, as
`str::parse`, `split_once`, `trim`, `split_whitespace` and `lines` do.
Machine integers are parsed with their bound: a numeral that does not fit is
an error, not a wrapped value.
-/

namespace RustStr

/-- `char::is_whitespace`: the Unicode property `White_Space`. -/
def isWhitespace (c : Char) : Bool :=
  let n := c.toNat
  (9 ≤ n && n ≤ 13) || n == 0x20 || n == 0x85 || n == 0xA0 || n == 0x1680 ||
    (0x2000 ≤ n && n ≤ 0x200A) || n == 0x2028 || n == 0x2029 || n == 0x202F ||
    n == 0x205F || n == 0x3000

/-- `str::trim`. -/
def trim (s : List Char) : List Char :=
  ((s.dropWhile isWhitespace).reverse.dropWhile isWhitespace).reverse

/-- `str::split_once` for a single character: cut at its first occurrence. -/
def splitOnce (sep : Char) : List Char → Option (List Char × List Char)
  | [] => none
  | c :: rest =>
      if c = sep then some ([], rest)
      else (splitOnce sep rest).map fun p => (c :: p.1, p.2)

/-- `str::strip_prefix`. -/
def stripPrefix : List Char → List Char → Option (List Char)
  | [], s => some s
  | _ :: _, [] => none
  | p :: ps, c :: cs => if p = c then stripPrefix ps cs else none

/-- The word accumulated so far (in reverse), unless it is empty. -/
def finish (word : List Char) : List (List Char) :=
  if word = [] then [] else [word.reverse]

/-- The words of a text, with the current word accumulated in reverse. -/
def wordsFrom : List Char → List Char → List (List Char)
  | [], word => finish word
  | c :: cs, word =>
      if isWhitespace c then finish word ++ wordsFrom cs [] else wordsFrom cs (c :: word)

/-- `str::split_whitespace`. -/
def splitWhitespace (s : List Char) : List (List Char) := wordsFrom s []

/-- The lines of a text, with the current line accumulated in reverse. -/
def linesFrom : List Char → List Char → List (List Char)
  -- a line break at the end of the text begins no further line
  | [], line => finish line
  | c :: cs, line =>
      if c = '\n' then line.reverse :: linesFrom cs [] else linesFrom cs (c :: line)

/-- `str::lines`, keeping the carriage return of a CRLF line end: callers that
split a line into words do not see it. -/
def lines (s : List Char) : List (List Char) := linesFrom s []

/-- The value of a non-empty string of ASCII digits. -/
def digitsValue (s : List Char) : Option Nat :=
  if s ≠ [] ∧ s.all Char.isDigit then some (Nat.ofDigitChars 10 s 0) else none

/-- `str::parse` for an unsigned integer type with values below `bound`. -/
def parseUnsigned (bound : Nat) (s : List Char) : Option Nat :=
  let digits := match s with
    | '+' :: rest => rest
    | _ => s
  (digitsValue digits).filter fun n => n < bound

/-- `str::parse` for a signed integer type with values in `[-half, half)`. -/
def parseSigned (half : Nat) (s : List Char) : Option Int :=
  match s with
  | '-' :: rest => ((digitsValue rest).filter fun n => n ≤ half).map fun n => -(n : Int)
  | '+' :: rest => ((digitsValue rest).filter fun n => n < half).map Int.ofNat
  | _ => ((digitsValue s).filter fun n => n < half).map Int.ofNat

/-! ## Bytes -/

/-- A UTF-8 sequence that is not complete: the bits read so far, the range the
next byte has to be in, and how many bytes are to follow after it. -/
structure Utf8Prefix where
  bits : Nat
  low : Nat
  high : Nat
  more : Nat

/-- What a byte makes of a sequence. -/
inductive Utf8Step where
  | char (c : Char)
  | part (p : Utf8Prefix)

/-- A byte at the beginning of a sequence; `none` when no sequence begins with it. -/
def utf8First (b : Nat) : Option Utf8Step :=
  if b ≤ 0x7F then some (.char (Char.ofNat b))
  else if 0xC2 ≤ b ∧ b ≤ 0xDF then some (.part ⟨b - 0xC0, 0x80, 0xBF, 0⟩)
  else if b = 0xE0 then some (.part ⟨0, 0xA0, 0xBF, 1⟩)
  else if b = 0xED then some (.part ⟨0xD, 0x80, 0x9F, 1⟩)
  else if 0xE1 ≤ b ∧ b ≤ 0xEF then some (.part ⟨b - 0xE0, 0x80, 0xBF, 1⟩)
  else if b = 0xF0 then some (.part ⟨0, 0x90, 0xBF, 2⟩)
  else if 0xF1 ≤ b ∧ b ≤ 0xF3 then some (.part ⟨b - 0xF0, 0x80, 0xBF, 2⟩)
  else if b = 0xF4 then some (.part ⟨4, 0x80, 0x8F, 2⟩)
  else none

/-- A further byte; `none` when the sequence cannot go on with it. -/
def Utf8Prefix.push (b : Nat) (p : Utf8Prefix) : Option Utf8Step :=
  if p.low ≤ b ∧ b ≤ p.high then
    let bits := p.bits * 64 + (b - 0x80)
    match p.more with
    | 0 => some (.char (Char.ofNat bits))
    | more + 1 => some (.part ⟨bits, 0x80, 0xBF, more⟩)
  else none

/-- What stands for an ill-formed sequence. -/
def replacement : Char := Char.ofNat 0xFFFD

/-- Decode from inside a sequence, or between two of them. -/
def lossyFrom : Option Utf8Prefix → List UInt8 → List Char
  | none, [] => []
  | some _, [] => [replacement]
  | pending, b :: rest =>
      match pending.bind (Utf8Prefix.push b.toNat) with
      | some (.char c) => c :: lossyFrom none rest
      | some (.part p) => lossyFrom (some p) rest
      | none =>
          -- the longest ill-formed part becomes one replacement character
          let broken := if pending.isSome then [replacement] else []
          match utf8First b.toNat with
          | some (.char c) => broken ++ c :: lossyFrom none rest
          | some (.part p) => broken ++ lossyFrom (some p) rest
          | none => broken ++ replacement :: lossyFrom none rest

/-- `String::from_utf8_lossy`. -/
def fromUtf8Lossy (bytes : List UInt8) : List Char := lossyFrom none bytes

/-! ## Numerals and words -/

/-- A decimal numeral without sign or leading zeroes is read as its value. -/
theorem digitsValue_toDigits (n : Nat) : digitsValue (Nat.toDigits 10 n) = some n := by
  have hdigits : (Nat.toDigits 10 n).all Char.isDigit = true :=
    List.all_eq_true.mpr fun c hc => Nat.isDigit_of_mem_toDigits (by decide) (by decide) hc
  rw [digitsValue, if_pos ⟨Nat.toDigits_ne_nil, hdigits⟩, Nat.ofDigitChars_ten_toDigits]

/-- A numeral begins with a digit. -/
theorem isDigit_of_digitsValue {c : Char} {s : List Char} {n : Nat}
    (h : digitsValue (c :: s) = some n) : c.isDigit = true := by
  unfold digitsValue at h
  split_ifs at h with hdigits
  have hall := List.all_eq_true.mp hdigits.2
  exact hall c List.mem_cons_self

theorem parseSigned_minus (half : Nat) (digits : List Char) :
    parseSigned half ('-' :: digits) =
      ((digitsValue digits).filter fun n => n ≤ half).map fun n => -Int.ofNat n := by
  show Option.map _ (_ : Option Int) = _
  cases (digitsValue digits).filter fun n => n ≤ half <;> rfl

/-- **What `str::parse` reads as a signed number**: a numeral with a sign, or
one without. -/
theorem parseSigned_eq_some_iff {half : Nat} {s : List Char} {n : Int} :
    parseSigned half s = some n ↔
      (∃ digits k, s = '-' :: digits ∧ digitsValue digits = some k ∧ k ≤ half ∧ n = -(k : Int)) ∨
      (∃ digits k, s = '+' :: digits ∧ digitsValue digits = some k ∧ k < half ∧ n = k) ∨
      ∃ k, digitsValue s = some k ∧ k < half ∧ n = k := by
  have hsign {c : Char} (hc : c.isDigit = false) (rest : List Char) :
      digitsValue (c :: rest) = none := by
    cases hvalue : digitsValue (c :: rest) with
    | none => rfl
    | some k => exact absurd (isDigit_of_digitsValue hvalue) (by simp [hc])
  unfold parseSigned
  split
  next rest =>
    show parseSigned half ('-' :: rest) = some n ↔ _
    rw [parseSigned_minus]
    simp only [Option.map_eq_some_iff, Option.filter_eq_some_iff, decide_eq_true_eq,
      hsign (by decide : '-'.isDigit = false)]
    constructor
    · rintro ⟨k, ⟨hk, hle⟩, rfl⟩
      exact .inl ⟨rest, k, rfl, hk, hle, rfl⟩
    · rintro (⟨digits, k, heq, hk, hle, rfl⟩ | ⟨_, _, heq, _⟩ | ⟨_, hk, _⟩)
      · obtain rfl := (List.cons.inj heq).2
        exact ⟨k, ⟨hk, hle⟩, rfl⟩
      · exact absurd (List.cons.inj heq).1 (by decide)
      · cases hk
  next rest =>
    simp only [Option.map_eq_some_iff, Option.filter_eq_some_iff, decide_eq_true_eq,
      hsign (by decide : '+'.isDigit = false)]
    constructor
    · rintro ⟨k, ⟨hk, hlt⟩, rfl⟩
      exact .inr (.inl ⟨rest, k, rfl, hk, hlt, rfl⟩)
    · rintro (⟨_, _, heq, _⟩ | ⟨digits, k, heq, hk, hlt, rfl⟩ | ⟨_, hk, _⟩)
      · exact absurd (List.cons.inj heq).1 (by decide)
      · obtain rfl := (List.cons.inj heq).2
        exact ⟨k, ⟨hk, hlt⟩, rfl⟩
      · cases hk
  next hminus hplus =>
    simp only [Option.map_eq_some_iff, Option.filter_eq_some_iff, decide_eq_true_eq]
    constructor
    · rintro ⟨k, ⟨hk, hlt⟩, rfl⟩
      exact .inr (.inr ⟨k, hk, hlt, rfl⟩)
    · rintro (⟨digits, _, rfl, _⟩ | ⟨digits, _, rfl, _⟩ | ⟨k, hk, hlt, rfl⟩)
      · exact absurd rfl (hminus digits)
      · exact absurd rfl (hplus digits)
      · exact ⟨k, ⟨hk, hlt⟩, rfl⟩

theorem stripPrefix_eq_some_iff {p s rest : List Char} :
    stripPrefix p s = some rest ↔ s = p ++ rest := by
  induction p generalizing s with
  | nil => simp [stripPrefix, eq_comm]
  | cons c p ih =>
      cases s with
      | nil => simp [stripPrefix]
      | cons d s =>
          rw [stripPrefix, List.cons_append, List.cons.injEq, @eq_comm _ d c]
          split_ifs with h
          · simp [ih, h]
          · simp [h]

/-- Cutting at a separator gives back the two sides of it. -/
theorem splitOnce_append {sep : Char} {a b : List Char} (h : sep ∉ a) :
    splitOnce sep (a ++ sep :: b) = some (a, b) := by
  induction a with
  | nil => simp [splitOnce]
  | cons c a ih =>
      have hc : c ≠ sep := fun heq => h (heq ▸ List.mem_cons_self)
      have hrest : sep ∉ a := fun hm => h (List.mem_cons_of_mem c hm)
      simp [splitOnce, hc, ih hrest]

theorem ne_nil_of_mem_finish {word w : List Char} (h : w ∈ finish word) : w ≠ [] := by
  unfold finish at h
  split_ifs at h with hempty
  · cases h
  · rw [List.mem_singleton] at h
    simpa [h] using hempty

/-- The words of a text are never empty. -/
theorem ne_nil_of_mem_wordsFrom {s word w : List Char} (h : w ∈ wordsFrom s word) : w ≠ [] := by
  induction s generalizing word with
  | nil => exact ne_nil_of_mem_finish h
  | cons c s ih =>
      rw [wordsFrom] at h
      split_ifs at h
      · rcases List.mem_append.mp h with hword | hrest
        · exact ne_nil_of_mem_finish hword
        · exact ih hrest
      · exact ih h

theorem ne_nil_of_mem_splitWhitespace {s w : List Char} (h : w ∈ splitWhitespace s) : w ≠ [] :=
  ne_nil_of_mem_wordsFrom h

end RustStr
