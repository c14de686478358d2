import Onix.Kernel.Vsprintf

/-! The scanning loop of vsprintf.c over a format that lies in memory. `fmt` is the number of a character there; the
arguments are words, and a word taken by `%s` is the address of a string. -/

set_option autoImplicit false

namespace Onix

open Lib

namespace Printf

inductive Fault
  | read
  | argument
  /-- The rounds given to a loop are used up. -/
  | rounds
  deriving DecidableEq, Repr

/-- `*fmt`. Behind the terminator nothing may be read. -/
def loadFmt (s : List Char) (fmt : ℕ) : Except Fault Char :=
  match (s ++ ['\x00'])[fmt]? with
  | some c => .ok c
  | none => .error .read

/-- The text so far, the words that `va_arg` has not taken, and what `%n` has stored where. -/
structure Scan where
  text : List Char
  words : List UInt32
  stored : List (UInt32 × ℕ)

def vaNext : List UInt32 → Except Fault (UInt32 × List UInt32)
  | w :: words => .ok (w, words)
  | [] => .error .argument

/-- From `repeat` on, as long as there are flags. -/
def scanFlags (s : List Char) : ℕ → ℕ → Flags → Except Fault (Flags × ℕ)
  | 0, _, _ => .error .rounds
  | rounds + 1, fmt, flags => do
    let c ← loadFmt s (fmt + 1)
    match setFlag flags c with
    | some flags => scanFlags s rounds (fmt + 1) flags
    | none => .ok (flags, fmt + 1)

def scanAtoi (s : List Char) : ℕ → ℕ → ℤ → Except Fault (ℤ × ℕ)
  | 0, _, _ => .error .rounds
  | rounds + 1, fmt, i => do
    let c ← loadFmt s fmt
    if c.isDigit then scanAtoi s rounds (fmt + 1) (i * 10 + (c.toNat - 48 : ℕ)) else .ok (i, fmt)

def scanWidth (s : List Char) (fmt : ℕ) (flags : Flags) (words : List UInt32) :
    Except Fault (ℤ × Flags × ℕ × List UInt32) := do
  let c ← loadFmt s fmt
  if c.isDigit then
    let (width, fmt) ← scanAtoi s (s.length + 1) fmt 0
    .ok (width, flags, fmt, words)
  else if c = '*' then
    let (w, words) ← vaNext words
    if w.toInt32.toInt < 0 then .ok (-w.toInt32.toInt, { flags with left := true }, fmt + 1, words)
    else .ok (w.toInt32.toInt, flags, fmt + 1, words)
  else .ok (-1, flags, fmt, words)

/-- The precision behind the point. -/
def scanPoint (s : List Char) (fmt : ℕ) (words : List UInt32) : Except Fault (ℤ × ℕ × List UInt32) := do
  let c ← loadFmt s fmt
  if c.isDigit then
    let (precision, fmt) ← scanAtoi s (s.length + 1) fmt 0
    .ok (precision, fmt, words)
  else if c = '*' then
    -- without a step over the asterisk
    let (w, words) ← vaNext words
    .ok (w.toInt32.toInt, fmt, words)
  else .ok (-1, fmt, words)

def scanPrecision (s : List Char) (fmt : ℕ) (words : List UInt32) : Except Fault (ℤ × ℕ × List UInt32) := do
  let c ← loadFmt s fmt
  if c = '.' then
    let (precision, fmt, words) ← scanPoint s (fmt + 1) words
    .ok (if precision < 0 then 0 else precision, fmt, words)
  else .ok (-1, fmt, words)

def scanQualifier (s : List Char) (fmt : ℕ) : Except Fault ℕ := do
  let c ← loadFmt s fmt
  .ok (if c = 'h' ∨ c = 'l' ∨ c = 'L' then fmt + 1 else fmt)

/-- The conversions that take an argument. -/
def takesArg (c : Char) : Bool := c ∈ ['c', 's', 'o', 'p', 'x', 'X', 'd', 'i', 'u', 'n']

/-- The argument of a conversion, and the words left. -/
def convArg (mem : UInt32 → List Char) (c : Char) (words : List UInt32) : Except Fault (List Arg × List UInt32) :=
  if takesArg c then do
    let (w, words) ← vaNext words
    .ok ([if c = 's' then .str (mem w) else .word w], words)
  else .ok ([], words)

/-- The switch over the conversion: where `fmt` is left, and what has become of the rest. -/
def scanConvert (s : List Char) (mem : UInt32 → List Char) (flags : Flags) (width precision : ℤ) (fmt : ℕ)
    (o : Scan) : Except Fault (ℕ × Scan) := do
  let c ← loadFmt s fmt
  if c = '\x00' then .ok (fmt - 1, { o with text := o.text ++ ['%'] })
  else
    let (args, words) ← convArg mem c o.words
    match convert flags width precision [c] ⟨o.text, args, o.stored⟩ with
    | some (_, out) => .ok (fmt, ⟨out.text, words, out.stored⟩)
    | none => .error .argument

/-- One round of the loop, with its step at the end. -/
def scanRound (s : List Char) (mem : UInt32 → List Char) (fmt : ℕ) (o : Scan) : Except Fault (ℕ × Scan) := do
  let c ← loadFmt s fmt
  if c ≠ '%' then .ok (fmt + 1, { o with text := o.text ++ [c] })
  else
    let (flags, fmt) ← scanFlags s (s.length + 1) fmt {}
    let (width, flags, fmt, words) ← scanWidth s fmt flags o.words
    let (precision, fmt, words) ← scanPrecision s fmt words
    let fmt ← scanQualifier s fmt
    let (fmt, o) ← scanConvert s mem flags width precision fmt { o with words := words }
    .ok (fmt + 1, o)

def scanLoop (s : List Char) (mem : UInt32 → List Char) : ℕ → ℕ → Scan → Except Fault Scan
  | 0, _, _ => .error .rounds
  | rounds + 1, fmt, o => do
    let c ← loadFmt s fmt
    if c = '\x00' then .ok o
    else
      let (fmt, o) ← scanRound s mem fmt o
      scanLoop s mem rounds fmt o

/-! ### Conversions in a format -/

def isFlag (c : Char) : Bool := c ∈ ['-', '+', ' ', '#', '0']

/-- What stands behind a width. -/
def afterWidth : List Char → List Char
  | '*' :: rest => rest
  | fmt => fmt.dropWhile Char.isDigit

/-- What stands behind a precision; an asterisk is not part of it. -/
def afterPrecision : List Char → List Char
  | '.' :: rest => rest.dropWhile Char.isDigit
  | fmt => fmt

def widthArgs : List Char → ℕ
  | '*' :: _ => 1
  | _ => 0

def precisionArgs : List Char → ℕ
  | '.' :: '*' :: _ => 1
  | _ => 0

def conversionArgs : List Char → ℕ
  | c :: _ => if takesArg c then 1 else 0
  | [] => 0

/-- What stands behind the conversion that goes on as `body` behind its `%`. -/
def behindConversion (body : List Char) : List Char :=
  (skipQualifier (afterPrecision (afterWidth (body.dropWhile isFlag)))).tail

/-- The words that this conversion takes. -/
def bodyArgs (body : List Char) : ℕ :=
  widthArgs (body.dropWhile isFlag) + precisionArgs (afterWidth (body.dropWhile isFlag)) +
    conversionArgs (skipQualifier (afterPrecision (afterWidth (body.dropWhile isFlag))))

theorem afterWidth_suffix (fmt : List Char) : afterWidth fmt <:+ fmt := by
  unfold afterWidth
  split
  · exact List.suffix_cons _ _
  · exact List.dropWhile_suffix _

theorem afterPrecision_suffix (fmt : List Char) : afterPrecision fmt <:+ fmt := by
  unfold afterPrecision
  split
  · exact (List.dropWhile_suffix _).trans (List.suffix_cons _ _)
  · exact List.suffix_rfl

theorem skipQualifier_suffix (fmt : List Char) : skipQualifier fmt <:+ fmt := by
  cases fmt with
  | nil => exact List.suffix_rfl
  | cons c rest =>
    rw [skipQualifier]
    split_ifs
    · exact List.suffix_cons _ _
    · exact List.suffix_rfl

theorem behindConversion_suffix (body : List Char) : behindConversion body <:+ body :=
  (List.tail_suffix _).trans <| (skipQualifier_suffix _).trans <| (afterPrecision_suffix _).trans <|
    (afterWidth_suffix _).trans (List.dropWhile_suffix _)

/-- The words that all conversions of a format take. -/
def formatArgs : List Char → ℕ
  | [] => 0
  | c :: rest => if c = '%' then bodyArgs rest + formatArgs (behindConversion rest) else formatArgs rest
termination_by fmt => fmt.length
decreasing_by
  · have := (behindConversion_suffix rest).length_le
    simp only [List.length_cons]
    omega
  · simp

/-- `text` holds the stretches of `fmt` outside of its conversions, unchanged and in order, with a text in place of
every conversion between them. -/
inductive Copied : List Char → List Char → Prop
  | last {stretch : List Char} : '%' ∉ stretch → Copied stretch stretch
  | next {stretch body text : List Char} (converted : List Char) : '%' ∉ stretch →
      Copied (behindConversion body) text → Copied (stretch ++ '%' :: body) (stretch ++ converted ++ text)

theorem Copied.cons {c : Char} {fmt text : List Char} (hc : c ≠ '%') (h : Copied fmt text) :
    Copied (c :: fmt) (c :: text) := by
  have hnot : ∀ {stretch : List Char}, '%' ∉ stretch → '%' ∉ c :: stretch := fun hs => by simp [Ne.symm hc, hs]
  cases h with
  | last hs => exact .last (hnot hs)
  | next converted hs h => exact .next converted (hnot hs) h

/-! ### Where the scanner is -/

/-- `rest` lies from `fmt` on, up to the terminator. -/
def Lies (s : List Char) (fmt : ℕ) (rest : List Char) : Prop := s.drop fmt = rest ∧ fmt ≤ s.length

variable {s rest : List Char} {fmt : ℕ} {c : Char} {flags : Flags} {words : List UInt32}

theorem Lies.load (h : Lies s fmt (c :: rest)) : loadFmt s fmt = .ok c := by
  have hget : s[fmt]? = some c := by
    rw [← List.head?_drop, h.1, List.head?_cons]
  obtain ⟨hlt, -⟩ := List.getElem?_eq_some_iff.mp hget
  rw [loadFmt, List.getElem?_append_left hlt, hget]

theorem Lies.next (h : Lies s fmt (c :: rest)) : Lies s (fmt + 1) rest := by
  have hlt : fmt < s.length := by
    by_contra hge
    have hnil := List.drop_eq_nil_of_le (not_lt.mp hge)
    rw [h.1] at hnil
    cases hnil
  refine ⟨?_, hlt⟩
  rw [← List.tail_drop, h.1, List.tail_cons]

theorem Lies.length (h : Lies s fmt rest) : fmt + rest.length = s.length := by
  have hlen := congrArg List.length h.1
  rw [List.length_drop] at hlen
  have := h.2
  omega

theorem Lies.load_end (h : Lies s fmt []) : loadFmt s fmt = .ok '\x00' := by
  have hlen := h.length
  rw [List.length_nil, Nat.add_zero] at hlen
  rw [loadFmt, hlen, List.getElem?_concat_length]

/-- At the place of `rest` its first character is read, at its end the terminator. -/
theorem Lies.load_head (h : Lies s fmt rest) : loadFmt s fmt = .ok (rest.head?.getD '\x00') := by
  cases rest with
  | nil => exact h.load_end
  | cons c rest => exact h.load

theorem setFlag_isFlag (flags : Flags) (c : Char) : (setFlag flags c).isSome = isFlag c := by
  unfold setFlag
  split <;> first | rfl | skip
  simp_all [isFlag]

theorem scanFlags_spec {rounds : ℕ} (h : Lies s (fmt + 1) rest) (hr : rest.length < rounds) :
    ∃ flags' fmt', scanFlags s rounds fmt flags = .ok (flags', fmt') ∧ Lies s fmt' (rest.dropWhile isFlag) := by
  induction rest generalizing fmt flags rounds with
  | nil =>
    obtain ⟨rounds, rfl⟩ := Nat.exists_eq_succ_of_ne_zero (by omega : rounds ≠ 0)
    exact ⟨flags, fmt + 1, by rw [scanFlags, h.load_end]; rfl, h⟩
  | cons c rest ih =>
    obtain ⟨rounds, rfl⟩ := Nat.exists_eq_succ_of_ne_zero (by omega : rounds ≠ 0)
    have hflag := setFlag_isFlag flags c
    cases hset : setFlag flags c with
    | some flags₁ =>
      rw [hset] at hflag
      obtain ⟨flags', fmt', hrun, hlies⟩ := @ih (fmt + 1) flags₁ rounds h.next (by simpa using hr)
      refine ⟨flags', fmt', ?_, ?_⟩
      · rw [scanFlags, h.load, ok_bind, hset]
        exact hrun
      · rwa [List.dropWhile_cons_of_pos hflag.symm]
    | none =>
      rw [hset] at hflag
      refine ⟨flags, fmt + 1, ?_, ?_⟩
      · rw [scanFlags, h.load, ok_bind, hset]
      · rwa [List.dropWhile_cons_of_neg (by simp [← hflag])]

theorem scanAtoi_spec {rounds : ℕ} {i : ℤ} (h : Lies s fmt rest) (hr : rest.length < rounds) :
    ∃ i' fmt', scanAtoi s rounds fmt i = .ok (i', fmt') ∧ Lies s fmt' (rest.dropWhile Char.isDigit) := by
  induction rest generalizing fmt i rounds with
  | nil =>
    obtain ⟨rounds, rfl⟩ := Nat.exists_eq_succ_of_ne_zero (by omega : rounds ≠ 0)
    exact ⟨i, fmt, by rw [scanAtoi, h.load_end]; rfl, h⟩
  | cons c rest ih =>
    obtain ⟨rounds, rfl⟩ := Nat.exists_eq_succ_of_ne_zero (by omega : rounds ≠ 0)
    rw [scanAtoi, h.load, ok_bind]
    by_cases hc : c.isDigit
    · rw [if_pos hc, List.dropWhile_cons_of_pos hc]
      exact ih h.next (by simpa using hr)
    · rw [if_neg hc, List.dropWhile_cons_of_neg hc]
      exact ⟨i, fmt, rfl, h⟩

theorem Lies.rounds (h : Lies s fmt rest) : rest.length < s.length + 1 := by
  have := h.length
  omega

theorem vaNext_spec (hw : 0 < words.length) : ∃ w, vaNext words = .ok (w, words.drop 1) := by
  cases words with
  | nil => cases hw
  | cons w words => exact ⟨w, rfl⟩

theorem widthArgs_of_ne (h : rest.head? ≠ some '*') : widthArgs rest = 0 := by
  unfold widthArgs
  split
  · exact absurd rfl h
  · rfl

/-- Digits, or no width at all, and the words are as they were. -/
theorem scanWidth_digits (h : Lies s fmt rest) (hstar : rest.head? ≠ some '*') :
    ∃ width fmt', scanWidth s fmt flags words = .ok (width, flags, fmt', words) ∧
      Lies s fmt' (rest.dropWhile Char.isDigit) := by
  rw [scanWidth, h.load_head, ok_bind]
  cases rest with
  | nil => exact ⟨-1, fmt, rfl, h⟩
  | cons c rest =>
    rw [List.head?_cons, Option.getD_some]
    by_cases hc : c.isDigit
    · obtain ⟨i, fmt', hrun, hlies⟩ := @scanAtoi_spec s _ fmt _ 0 h h.rounds
      exact ⟨i, fmt', by rw [if_pos hc, hrun]; rfl, hlies⟩
    · rw [if_neg hc, if_neg (by simpa using hstar), List.dropWhile_cons_of_neg hc]
      exact ⟨-1, fmt, rfl, h⟩

theorem scanWidth_spec (h : Lies s fmt rest) (hw : widthArgs rest ≤ words.length) :
    ∃ width flags' fmt', scanWidth s fmt flags words = .ok (width, flags', fmt', words.drop (widthArgs rest)) ∧
      Lies s fmt' (afterWidth rest) := by
  by_cases hstar : rest.head? = some '*'
  · obtain ⟨rest, rfl⟩ := List.head?_eq_some_iff.mp hstar
    obtain ⟨w, hva⟩ := vaNext_spec hw
    rw [scanWidth, h.load, ok_bind, if_neg (by decide), if_pos rfl, hva, ok_bind]
    dsimp only
    split_ifs
    · exact ⟨_, _, _, rfl, h.next⟩
    · exact ⟨_, _, _, rfl, h.next⟩
  · obtain ⟨width, fmt', hrun, hlies⟩ := @scanWidth_digits s rest fmt flags words h hstar
    have hafter : afterWidth rest = rest.dropWhile Char.isDigit := by
      unfold afterWidth
      split
      · exact absurd rfl hstar
      · rfl
    rw [widthArgs_of_ne hstar, hafter]
    exact ⟨width, flags, fmt', hrun, hlies⟩

theorem scanPoint_spec (h : Lies s fmt rest) (hw : widthArgs rest ≤ words.length) :
    ∃ precision fmt', scanPoint s fmt words = .ok (precision, fmt', words.drop (widthArgs rest)) ∧
      Lies s fmt' (rest.dropWhile Char.isDigit) := by
  rw [scanPoint, h.load_head, ok_bind]
  cases rest with
  | nil => exact ⟨-1, fmt, rfl, h⟩
  | cons c rest =>
    rw [List.head?_cons, Option.getD_some]
    by_cases hc : c.isDigit
    · have hstar : c ≠ '*' := fun he => absurd (he ▸ hc) (by decide)
      obtain ⟨i, fmt', hrun, hlies⟩ := @scanAtoi_spec s _ fmt _ 0 h h.rounds
      have hnone : widthArgs (c :: rest) = 0 := widthArgs_of_ne (by simpa using hstar)
      exact ⟨i, fmt', by rw [if_pos hc, hrun, hnone]; rfl, hlies⟩
    · rw [if_neg hc, List.dropWhile_cons_of_neg hc]
      by_cases hstar : c = '*'
      · subst hstar
        obtain ⟨w, hva⟩ := vaNext_spec hw
        exact ⟨w.toInt32.toInt, fmt, by rw [if_pos rfl, hva]; rfl, h⟩
      · have hnone : widthArgs (c :: rest) = 0 := widthArgs_of_ne (by simpa using hstar)
        exact ⟨-1, fmt, by rw [if_neg hstar, hnone]; rfl, h⟩

theorem scanPrecision_spec (h : Lies s fmt rest) (hw : precisionArgs rest ≤ words.length) :
    ∃ precision fmt', scanPrecision s fmt words = .ok (precision, fmt', words.drop (precisionArgs rest)) ∧
      Lies s fmt' (afterPrecision rest) := by
  by_cases hpoint : rest.head? = some '.'
  · obtain ⟨rest, rfl⟩ := List.head?_eq_some_iff.mp hpoint
    have hargs : precisionArgs ('.' :: rest) = widthArgs rest := by
      unfold precisionArgs widthArgs
      split <;> split <;> simp_all
    rw [hargs] at hw ⊢
    obtain ⟨precision, fmt', hrun, hlies⟩ := @scanPoint_spec s rest (fmt + 1) words h.next hw
    exact ⟨_, fmt', by rw [scanPrecision, h.load, ok_bind, if_pos rfl, hrun]; rfl, hlies⟩
  · have hnone : precisionArgs rest = 0 ∧ afterPrecision rest = rest := by
      unfold precisionArgs afterPrecision
      constructor
      · split
        · exact absurd rfl hpoint
        · rfl
      · split
        · exact absurd rfl hpoint
        · rfl
    have hc : rest.head?.getD '\x00' ≠ '.' := by
      cases rest with
      | nil => decide
      | cons c rest => simpa using hpoint
    rw [hnone.1, hnone.2]
    exact ⟨-1, fmt, by rw [scanPrecision, h.load_head, ok_bind, if_neg hc]; rfl, h⟩

theorem scanQualifier_spec (h : Lies s fmt rest) :
    ∃ fmt', scanQualifier s fmt = .ok fmt' ∧ Lies s fmt' (skipQualifier rest) := by
  rw [scanQualifier, h.load_head, ok_bind]
  cases rest with
  | nil => exact ⟨fmt, rfl, h⟩
  | cons c rest =>
    rw [List.head?_cons, Option.getD_some, skipQualifier]
    split_ifs
    · exact ⟨fmt + 1, rfl, h.next⟩
    · exact ⟨fmt, rfl, h⟩

/-- The bases that `vsprintf` asks for are those that `number` knows. -/
theorem number_some (num : UInt32) {base : UInt32} (size precision : ℤ) (flags : Flags)
    (hbase : ¬(base < 2 ∨ base > 36)) : ∃ text, number num base size precision flags = some text := by
  unfold number
  simp only [if_neg hbase]
  exact ⟨_, rfl⟩

theorem convertNumber_some (w : UInt32) {base : UInt32} (width precision : ℤ) (flags : Flags) (rest text : List Char)
    (stored : List (UInt32 × ℕ)) (hbase : ¬(base < 2 ∨ base > 36)) :
    ∃ converted, convertNumber base width precision flags rest ⟨text, [.word w], stored⟩ =
      some (rest, ⟨text ++ converted, [], stored⟩) := by
  obtain ⟨converted, hnumber⟩ := number_some w width precision flags hbase
  exact ⟨converted, by simp [convertNumber, vaWord, hnumber, Out.put]⟩

/-- With its argument at hand a conversion goes through, and adds to the text. -/
theorem convert_some (mem : UInt32 → List Char) (w : UInt32) (flags : Flags) (width precision : ℤ) (c : Char)
    (text : List Char) (stored : List (UInt32 × ℕ)) :
    ∃ converted stored', convert flags width precision [c]
      ⟨text, if takesArg c then [if c = 's' then .str (mem w) else .word w] else [], stored⟩ =
        some ([], ⟨text ++ converted, [], stored'⟩) := by
  have hnum : ∀ (base : UInt32) (width precision : ℤ) (flags : Flags), ¬(base < 2 ∨ base > 36) →
      ∃ converted stored', convertNumber base width precision flags [] ⟨text, [.word w], stored⟩ =
        some ([], ⟨text ++ converted, [], stored'⟩) := fun base width precision flags hbase => by
    obtain ⟨converted, hrun⟩ := convertNumber_some w width precision flags [] text stored hbase
    exact ⟨converted, stored, hrun⟩
  by_cases hc : takesArg c
  · rw [if_pos hc]
    simp only [takesArg, List.mem_cons, List.not_mem_nil, or_false, decide_eq_true_eq] at hc
    obtain rfl | rfl | rfl | rfl | rfl | rfl | rfl | rfl | rfl | rfl := hc
    · exact ⟨_, stored, by simp [convert, vaWord, Out.put]; rfl⟩
    · exact ⟨_, stored, by simp [convert, Out.put]; rfl⟩
    · exact hnum 8 width precision flags (by decide)
    · by_cases hwidth : width = -1
      · simpa [convert, hwidth] using hnum 16 8 precision { flags with zeropad := true } (by decide)
      · simpa [convert, hwidth] using hnum 16 width precision flags (by decide)
    · exact hnum 16 width precision { flags with small := true } (by decide)
    · exact hnum 16 width precision flags (by decide)
    · exact hnum 10 width precision { flags with sign := true } (by decide)
    · exact hnum 10 width precision { flags with sign := true } (by decide)
    · exact hnum 10 width precision flags (by decide)
    · exact ⟨[], _, by simp [convert, vaWord]; rfl⟩
  · rw [if_neg hc]
    unfold convert
    split
    case h_12 | h_13 =>
      rename_i heq
      cases heq
      exact ⟨_, stored, rfl⟩
    all_goals simp_all [takesArg]

theorem convArg_spec (mem : UInt32 → List Char) (c : Char) (hw : (if takesArg c then 1 else 0) ≤ words.length) :
    ∃ w, convArg mem c words = .ok (if takesArg c then [if c = 's' then .str (mem w) else .word w] else [],
      words.drop (if takesArg c then 1 else 0)) := by
  unfold convArg
  split_ifs at hw ⊢ with hc
  · obtain ⟨w, hva⟩ := vaNext_spec hw
    exact ⟨w, by rw [hva]; rfl⟩
  · obtain ⟨w, hva⟩ := vaNext_spec hw
    exact ⟨w, by rw [hva]; rfl⟩
  · exact ⟨0, rfl⟩

/-- The switch adds to the text. The step of the loop then goes behind the conversion, or to the terminator again. -/
theorem scanConvert_spec (mem : UInt32 → List Char) (width precision : ℤ) {o : Scan} (h : Lies s fmt rest)
    (hfmt : 0 < fmt) (hnul : '\x00' ∉ rest) (hw : conversionArgs rest ≤ o.words.length) :
    ∃ fmt' converted stored', scanConvert s mem flags width precision fmt o =
        .ok (fmt', ⟨o.text ++ converted, o.words.drop (conversionArgs rest), stored'⟩) ∧
      Lies s (fmt' + 1) rest.tail := by
  rw [scanConvert, h.load_head, ok_bind]
  cases rest with
  | nil =>
    refine ⟨fmt - 1, ['%'], o.stored, rfl, ?_⟩
    rwa [Nat.sub_add_cancel hfmt]
  | cons c rest =>
    have hc : c ≠ '\x00' := fun he => hnul (by simp [he])
    obtain ⟨w, harg⟩ := convArg_spec mem c hw
    obtain ⟨converted, stored', hrun⟩ := convert_some mem w flags width precision c o.text o.stored
    refine ⟨fmt, converted, stored', ?_, h.next⟩
    rw [List.head?_cons, Option.getD_some, if_neg hc, harg, ok_bind]
    simp only [hrun]
    rfl

/-- A round at a character that starts no conversion. -/
theorem scanRound_char (mem : UInt32 → List Char) (o : Scan) (h : Lies s fmt (c :: rest)) (hc : c ≠ '%') :
    scanRound s mem fmt o = .ok (fmt + 1, { o with text := o.text ++ [c] }) := by
  rw [scanRound, h.load, ok_bind, if_pos hc]

/-- A round at a conversion. -/
theorem scanRound_conversion (mem : UInt32 → List Char) {o : Scan} (h : Lies s fmt ('%' :: rest))
    (hnul : '\x00' ∉ rest) (hw : bodyArgs rest ≤ o.words.length) :
    ∃ fmt' converted stored', scanRound s mem fmt o =
        .ok (fmt', ⟨o.text ++ converted, o.words.drop (bodyArgs rest), stored'⟩) ∧
      Lies s fmt' (behindConversion rest) := by
  rw [bodyArgs] at hw ⊢
  obtain ⟨flags, fmt₁, hflags, h₁⟩ := @scanFlags_spec s rest fmt {} (s.length + 1) h.next h.next.rounds
  obtain ⟨width, flags', fmt₂, hwidth, h₂⟩ :=
    @scanWidth_spec s _ fmt₁ flags o.words h₁ (by omega)
  obtain ⟨precision, fmt₃, hprecision, h₃⟩ :=
    @scanPrecision_spec s _ fmt₂ (o.words.drop (widthArgs (rest.dropWhile isFlag))) h₂
      (by rw [List.length_drop]; omega)
  obtain ⟨fmt₄, hqualifier, h₄⟩ := scanQualifier_spec h₃
  have hfmt₄ : 0 < fmt₄ := by
    have hsuffix := (skipQualifier_suffix _).trans <| (afterPrecision_suffix _).trans <|
      (afterWidth_suffix (rest.dropWhile isFlag)).trans (List.dropWhile_suffix _)
    have hle := hsuffix.length_le
    have hlen₄ := h₄.length
    have hlen := h.length
    rw [List.length_cons] at hlen
    omega
  have hnul₄ : '\x00' ∉ skipQualifier (afterPrecision (afterWidth (rest.dropWhile isFlag))) := fun hmem =>
    hnul (((skipQualifier_suffix _).trans <| (afterPrecision_suffix _).trans <|
      (afterWidth_suffix _).trans (List.dropWhile_suffix _)).subset hmem)
  obtain ⟨fmt₅, converted, stored', hconvert, h₅⟩ := @scanConvert_spec s _ fmt₄ flags' mem width precision
    ⟨o.text, (o.words.drop (widthArgs (rest.dropWhile isFlag))).drop
      (precisionArgs (afterWidth (rest.dropWhile isFlag))), o.stored⟩ h₄ hfmt₄ hnul₄
    (by rw [List.length_drop, List.length_drop]; omega)
  refine ⟨fmt₅ + 1, converted, stored', ?_, h₅⟩
  rw [scanRound, h.load, ok_bind, if_neg (by simp), hflags, ok_bind]
  simp only [hwidth, ok_bind, hprecision, hqualifier, hconvert]
  rw [List.drop_drop, List.drop_drop, Nat.add_assoc]

/-- The loop, from any place of the format on. -/
theorem scanLoop_spec (mem : UInt32 → List Char) {rounds : ℕ} {o : Scan} (h : Lies s fmt rest)
    (hnul : '\x00' ∉ rest) (hw : formatArgs rest ≤ o.words.length) (hr : rest.length < rounds) :
    ∃ text stored', scanLoop s mem rounds fmt o =
        .ok ⟨o.text ++ text, o.words.drop (formatArgs rest), stored'⟩ ∧ Copied rest text := by
  induction rounds generalizing fmt rest o with
  | zero => omega
  | succ rounds ih =>
    rw [scanLoop, h.load_head, ok_bind]
    cases rest with
    | nil => exact ⟨[], o.stored, by simp [formatArgs], .last (by simp)⟩
    | cons c rest =>
      rw [List.mem_cons, not_or] at hnul
      rw [List.length_cons] at hr
      rw [List.head?_cons, Option.getD_some, if_neg (Ne.symm hnul.1)]
      by_cases hc : c = '%'
      · subst hc
        rw [formatArgs, if_pos rfl] at hw ⊢
        obtain ⟨fmt', converted, stored', hround, hlies⟩ :=
          @scanRound_conversion s rest fmt mem o h hnul.2 (by omega)
        have hsuffix := behindConversion_suffix rest
        have hle := hsuffix.length_le
        obtain ⟨text, stored'', hloop, hcopied⟩ :=
          @ih _ fmt' ⟨o.text ++ converted, o.words.drop (bodyArgs rest), stored'⟩ hlies
            (fun hmem => hnul.2 (hsuffix.subset hmem)) (by rw [List.length_drop]; omega) (by omega)
        refine ⟨converted ++ text, stored'', ?_, @Copied.next [] rest text converted (by simp) hcopied⟩
        rw [hround, ok_bind]
        dsimp only at hloop ⊢
        rw [hloop, List.append_assoc, List.drop_drop]
      · rw [formatArgs, if_neg hc] at hw ⊢
        obtain ⟨text, stored', hloop, hcopied⟩ := @ih _ (fmt + 1) { o with text := o.text ++ [c] } h.next hnul.2 hw
          (by omega)
        refine ⟨c :: text, stored', ?_, hcopied.cons hc⟩
        rw [scanRound_char mem o h hc, ok_bind]
        dsimp only at hloop ⊢
        rw [hloop, List.append_assoc, List.singleton_append]

/-- A round goes on in the format, not further than to the terminator. -/
theorem scanRound_advances (mem : UInt32 → List Char) {o : Scan} (hnul : '\x00' ∉ s) (hfmt : fmt < s.length)
    (hw : formatArgs (s.drop fmt) ≤ o.words.length) :
    ∃ fmt' o', scanRound s mem fmt o = .ok (fmt', o') ∧ fmt < fmt' ∧ fmt' ≤ s.length := by
  have h : Lies s fmt (s[fmt] :: s.drop (fmt + 1)) := ⟨List.drop_eq_getElem_cons hfmt, hfmt.le⟩
  rw [h.1, formatArgs] at hw
  by_cases hc : s[fmt] = '%'
  · rw [hc] at h
    rw [if_pos hc] at hw
    obtain ⟨fmt', converted, stored', hround, hlies⟩ :=
      @scanRound_conversion s _ fmt mem o h (fun hmem => hnul (List.mem_of_mem_drop hmem)) (by omega)
    refine ⟨fmt', _, hround, ?_, hlies.2⟩
    have hle := (behindConversion_suffix (s.drop (fmt + 1))).length_le
    have hlen := hlies.length
    have hlen' := h.next.length
    omega
  · exact ⟨fmt + 1, _, scanRound_char mem o h hc, Nat.lt_succ_self _, hfmt⟩

/-- The scan of `vsprintf` ends, for every format and enough arguments: no round faults, every round goes on in the
format, as many rounds as the format has characters are enough, and what is outside of the conversions is copied. -/
theorem format_scan_ends (s : List Char) (mem : UInt32 → List Char) (words : List UInt32) (hnul : '\x00' ∉ s)
    (hw : formatArgs s ≤ words.length) :
    (∀ fmt o, fmt < s.length → formatArgs (s.drop fmt) ≤ o.words.length →
      ∃ fmt' o', scanRound s mem fmt o = .ok (fmt', o') ∧ fmt < fmt' ∧ fmt' ≤ s.length) ∧
    ∃ text stored, scanLoop s mem (s.length + 1) 0 ⟨[], words, []⟩ = .ok ⟨text, words.drop (formatArgs s), stored⟩ ∧
      Copied s text :=
  ⟨fun _ _ hfmt hargs => scanRound_advances mem hnul hfmt hargs,
    scanLoop_spec mem ⟨List.drop_zero, Nat.zero_le _⟩ hnul hw (Nat.lt_succ_self _)⟩

/-- A format that ends behind the precision of its second conversion. -/
theorem format_scan_ends_inside :
    ∃ text stored, scanLoop "a%-3db%.*".toList (fun _ => []) 10 0 ⟨[], [7, 2], []⟩ = .ok ⟨text, [], stored⟩ ∧
      Copied "a%-3db%.*".toList text := by
  have hargs : formatArgs "a%-3db%.*".toList = 2 := by
    simp [formatArgs, bodyArgs, behindConversion, isFlag, List.dropWhile, widthArgs, afterWidth, precisionArgs,
      afterPrecision, skipQualifier, conversionArgs, takesArg]
  have h := (format_scan_ends "a%-3db%.*".toList (fun _ => []) [7, 2] (by decide) (by rw [hargs]; rfl)).2
  rw [hargs] at h
  exact h

end Printf
end Onix
