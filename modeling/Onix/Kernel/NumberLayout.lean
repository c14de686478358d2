import Mathlib.Data.Nat.Digits.Defs
import Onix.Kernel.Vsprintf

/-! What `number` writes of an unsigned number in every base: the digits, and the parts
that the flags, the size and the precision put around them. -/

set_option autoImplicit false

namespace Onix

namespace Printf

/-- The characters of the digits of `n`, the highest first. -/
def digitText (small : Bool) (base n : ℕ) : List Char :=
  if n = 0 then ['0'] else ((Nat.digits base n).map fun d => (digitChars small).getD d ' ').reverse

/-- The number that a text of digits says. -/
def readBack (small : Bool) (base : ℕ) (text : List Char) : ℕ :=
  Nat.ofDigits base (text.reverse.map (digitChars small).idxOf)

/-- What `SPECIAL` puts before the digits. -/
def prefixText (special small : Bool) (base : UInt32) : List Char :=
  if special then
    (if base = 8 then ['0'] else if base = 16 then ['0', if small then 'x' else 'X'] else [])
  else []

/-- The parts of a number with `k` characters of padding, in their order. -/
def layout (left zeropad : Bool) (sign special zeros digits : List Char) (k : ℕ) : List Char :=
  (if !left && !zeropad then List.replicate k ' ' else []) ++ sign ++ special ++
    (if !left && zeropad then List.replicate k '0' else []) ++ zeros ++ digits ++
    (if left then List.replicate k ' ' else [])

theorem layout_length (left zeropad : Bool) (sign special zeros digits : List Char) (k : ℕ) :
    (layout left zeropad sign special zeros digits k).length =
      sign.length + special.length + (zeros.length + digits.length) + k := by
  unfold layout
  cases left <;> cases zeropad <;>
    simp only [List.length_append, List.length_replicate, List.length_nil, Bool.not_true, Bool.not_false,
      Bool.and_true, Bool.and_false, if_true, if_false, Bool.false_eq_true] <;> omega

/-! ### The digits -/

theorem idxOf_digitChar (small : Bool) : ∀ d < 36, (digitChars small).idxOf ((digitChars small).getD d ' ') = d := by
  cases small <;> decide

theorem digitLoop_digits (digits : List Char) {base : UInt32} (hbase : 2 ≤ base.toNat) (rounds : ℕ) (num : UInt32)
    (h : num.toNat < base.toNat ^ rounds) :
    digitLoop digits base rounds num = (Nat.digits base.toNat num.toNat).map fun d => digits.getD d ' ' := by
  induction rounds generalizing num with
  | zero =>
    have hzero : num.toNat = 0 := by simpa using h
    simp [digitLoop, hzero]
  | succ rounds ih =>
    rw [digitLoop]
    split_ifs with hnum
    · have hpos : 0 < num.toNat := Nat.pos_of_ne_zero fun h0 => hnum (UInt32.toNat_inj.mp h0)
      have hlt : (num / base).toNat < base.toNat ^ rounds := by
        rw [UInt32.toNat_div, Nat.div_lt_iff_lt_mul (by omega), ← pow_succ]
        exact h
      rw [ih _ hlt, Nat.digits_def' (by omega) hpos, List.map_cons, UInt32.toNat_mod, UInt32.toNat_div]
    · obtain rfl : num = 0 := by simpa using hnum
      simp

/-- The digits that `number` keeps in `tmp`, turned around. -/
theorem tmp_digits (small : Bool) {base : UInt32} (hbase : 2 ≤ base.toNat) (num : UInt32) :
    (if num = 0 then ['0'] else digitLoop (digitChars small) base 32 num).reverse =
      digitText small base.toNat num.toNat := by
  unfold digitText
  by_cases h : num = 0
  · rw [if_pos h, if_pos (by rw [h]; rfl)]
    rfl
  · have hne : num.toNat ≠ 0 := fun h0 => h (UInt32.toNat_inj.mp h0)
    have hlt : num.toNat < base.toNat ^ 32 :=
      num.toNat_lt.trans_le (Nat.pow_le_pow_left hbase 32)
    rw [if_neg h, if_neg hne, digitLoop_digits _ hbase 32 num hlt]

theorem readBack_digitText (small : Bool) {base : ℕ} (hbase : 2 ≤ base) (hmax : base ≤ 36) (n : ℕ) :
    readBack small base (digitText small base n) = n := by
  unfold readBack digitText
  split_ifs with h
  · subst h
    cases small <;> rfl
  · rw [List.reverse_reverse, List.map_map]
    have hid : (Nat.digits base n).map ((digitChars small).idxOf ∘ fun d => (digitChars small).getD d ' ') =
        Nat.digits base n := by
      conv_rhs => rw [← List.map_id (Nat.digits base n)]
      refine List.map_congr_left fun d hd => ?_
      have hlt := Nat.digits_lt_base (by omega) hd
      exact idxOf_digitChar small d (by omega)
    rw [hid, Nat.ofDigits_digits]

/-! ### The layout -/

theorem digitChars_x (small : Bool) : (digitChars small).getD 33 ' ' = if small then 'x' else 'X' := by
  cases small <;> rfl

/-- What the sign, the prefix and the digits leave of the size. -/
def padding (num base : UInt32) (size precision : ℤ) (f : Flags) : ℤ :=
  size - (flagSign f.plus f.space).length - (prefixText f.special f.small base).length -
    max precision (digitText f.small base.toNat num.toNat).length

/-- What the size pays for the prefix, in the order of `number`. -/
theorem prefix_size (special small : Bool) (base : UInt32) (size : ℤ) :
    (if special then (if base = 16 then size - 2 else if base = 8 then size - 1 else size) else size) =
      size - (prefixText special small base).length := by
  unfold prefixText
  cases special
  · simp
  · by_cases h8 : base = 8
    · subst h8
      simp
    · by_cases h16 : base = 16
      · subst h16
        simp
      · simp [h8, h16]

theorem sign_size (plus space : Bool) (size : ℤ) :
    (if flagSign plus space ≠ [] then size - 1 else size) = size - (flagSign plus space).length := by
  cases plus <;> cases space <;> simp [flagSign]

theorem base_range {base : UInt32} (h : 2 ≤ base.toNat ∧ base.toNat ≤ 36) : ¬ (base < 2 ∨ base > 36) := by
  rw [UInt32.lt_iff_toNat_lt, gt_iff_lt, UInt32.lt_iff_toNat_lt]
  have h2 : (2 : UInt32).toNat = 2 := rfl
  have h36 : (36 : UInt32).toNat = 36 := rfl
  omega

/-- With sizes that do not overflow, `number` writes the layout. -/
theorem number_unsigned (num base : UInt32) (size precision : ℤ) (f : Flags) (hsign : f.sign = false)
    (hbase : 2 ≤ base.toNat ∧ base.toNat ≤ 36) :
    number num base size precision f = some (layout f.left f.zeropad (flagSign f.plus f.space)
      (prefixText f.special f.small base)
      (List.replicate (precision.toNat - (digitText f.small base.toNat num.toNat).length) '0')
      (digitText f.small base.toNat num.toNat) (padding num base size precision f).toNat) := by
  obtain ⟨zeropad, sign, plus, space, left, special, small⟩ := f
  obtain rfl : sign = false := hsign
  have htmp := tmp_digits small hbase.1 num
  have hsg : (if plus = true then ['+'] else if space = true then [' '] else []) = flagSign plus space := rfl
  unfold padding
  dsimp only
  generalize hds : digitText small base.toNat num.toNat = ds at htmp ⊢
  generalize htmp_def : (if num = 0 then ['0'] else digitLoop (digitChars small) base 32 num) = tmp at htmp
  have hlen : ds.length = tmp.length := by rw [← htmp, List.length_reverse]
  have hprec : (if precision < (tmp.length : ℤ) then (tmp.length : ℤ) else precision) = max precision ds.length := by
    split_ifs <;> omega
  have hzeros : (max precision (ds.length : ℤ) - (tmp.length : ℤ)).toNat = precision.toNat - ds.length := by
    omega
  have hover : ∀ t : ℤ, (min t 0 - 1).toNat = 0 := fun t => by omega
  cases left <;> cases zeropad <;>
    simp only [number, base_range hbase, hsg, htmp_def, sign_size, prefix_size _ small, hprec, fill, hzeros, htmp, hover,
      layout, digitChars_x, prefixText, Bool.false_eq_true, false_and, if_true, if_false, Bool.not_true,
      Bool.not_false, Bool.and_true, Bool.and_false, Bool.and_self, List.replicate_zero, List.append_nil,
      List.nil_append]

/-! ### The sizes of the machine -/

/-- `while (size-- > 0) *str++ = c` of an `int`. -/
def fill32 (c : Char) (size : Int32) : List Char × Int32 :=
  (List.replicate size.toInt.toNat c, if 0 < size then -1 else size - 1)

/-- `number` with the `int`s that the compiler makes of its size and its precision, which wrap. -/
def number32 (num base : UInt32) (size precision : Int32) (flags : Flags) : Option (List Char) :=
  let digits := digitChars flags.small
  let flags := if flags.left then { flags with zeropad := false } else flags
  if base < 2 ∨ base > 36 then none
  else
    let c := if flags.zeropad then '0' else ' '
    let (sign, num) : List Char × UInt32 :=
      if flags.sign ∧ num < 0 then (['-'], -num)
      else (if flags.plus then ['+'] else if flags.space then [' '] else [], num)
    let size := if sign ≠ [] then size - 1 else size
    let size := if flags.special then (if base = 16 then size - 2 else if base = 8 then size - 1 else size) else size
    let tmp := if num = 0 then ['0'] else digitLoop digits base 32 num
    let precision := if Int32.ofNat tmp.length > precision then Int32.ofNat tmp.length else precision
    let size := size - precision
    let (spaces, size) := if !flags.zeropad && !flags.left then fill32 ' ' size else ([], size)
    let special := if flags.special then
        (if base = 8 then ['0'] else if base = 16 then ['0', digits.getD 33 ' '] else [])
      else []
    let (pad, size) := if !flags.left then fill32 c size else ([], size)
    let zeros := List.replicate (precision - Int32.ofNat tmp.length).toInt.toNat '0'
    let (trail, _) := fill32 ' ' size
    some (spaces ++ sign ++ special ++ pad ++ zeros ++ tmp.reverse ++ trail)

/-- What the three loops write of a size: before the sign, behind the prefix, and at the end. -/
def fills (left zeropad : Bool) (size : Int32) : ℕ × ℕ × ℕ :=
  let (spaces, size) := if !zeropad && !left then fill32 ' ' size else ([], size)
  let (pad, size) := if !left then fill32 '0' size else ([], size)
  (spaces.length, pad.length, (fill32 ' ' size).1.length)

/-- The size that is left when the first of the loops begins. -/
def sizeLeft (num base : UInt32) (size precision : Int32) (f : Flags) : Int32 :=
  let digits := Int32.ofNat (digitText f.small base.toNat num.toNat).length
  size - Int32.ofNat (flagSign f.plus f.space).length - Int32.ofNat (prefixText f.special f.small base).length -
    if digits > precision then digits else precision

theorem digitText_length (small : Bool) {base : ℕ} (hbase : 2 ≤ base) (num : UInt32) :
    0 < (digitText small base num.toNat).length ∧ (digitText small base num.toNat).length ≤ 32 := by
  unfold digitText
  split_ifs with h
  · simp
  · rw [List.length_reverse, List.length_map]
    refine ⟨List.length_pos_iff.mpr (Nat.digits_ne_nil_iff_ne_zero.mpr h), ?_⟩
    rw [Nat.digits_length_le_iff (by omega)]
    exact num.toNat_lt.trans_le (Nat.pow_le_pow_left hbase 32)

theorem prefix_size32 (special small : Bool) (base : UInt32) (size : Int32) :
    (if special then (if base = 16 then size - 2 else if base = 8 then size - 1 else size) else size) =
      size - Int32.ofNat (prefixText special small base).length := by
  unfold prefixText
  cases special
  · simp
  · by_cases h8 : base = 8
    · subst h8
      rfl
    · by_cases h16 : base = 16
      · subst h16
        rfl
      · simp [h8, h16]

theorem sign_size32 (plus space : Bool) (size : Int32) :
    (if flagSign plus space ≠ [] then size - 1 else size) = size - Int32.ofNat (flagSign plus space).length := by
  cases plus <;> cases space <;> simp [flagSign]

theorem toInt_ofNat_digits {n : ℕ} (h : n ≤ 32) : (Int32.ofNat n).toInt = n :=
  Int32.toInt_ofNat_of_lt (by omega)

/-- The zeros that fill the digits up to the precision. -/
theorem zeros32 {n : ℕ} (h : n ≤ 32) (precision : Int32) :
    ((if Int32.ofNat n > precision then Int32.ofNat n else precision) - Int32.ofNat n).toInt.toNat =
      precision.toInt.toNat - n := by
  have hn := toInt_ofNat_digits h
  have hmax := precision.toInt_lt
  have hmin := precision.le_toInt
  split_ifs with hp <;> rw [gt_iff_lt, Int32.lt_iff_toInt_lt, hn] at hp
  · rw [Int32.toInt_sub, sub_self, Int.bmod_eq_of_le (by omega) (by omega)]
    omega
  · rw [Int32.toInt_sub, hn, Int.bmod_eq_of_le (by omega) (by omega)]
    omega

/-- The text of `number`, with the counts of its three loops. -/
theorem number32_text (num base : UInt32) (size precision : Int32) (f : Flags) (hsign : f.sign = false)
    (hbase : 2 ≤ base.toNat ∧ base.toNat ≤ 36) :
    number32 num base size precision f =
      (let p := fills f.left f.zeropad (sizeLeft num base size precision f)
       some (List.replicate p.1 ' ' ++ flagSign f.plus f.space ++ prefixText f.special f.small base ++
        List.replicate p.2.1 (if f.zeropad then '0' else ' ') ++
        List.replicate (precision.toInt.toNat - (digitText f.small base.toNat num.toNat).length) '0' ++
        digitText f.small base.toNat num.toNat ++ List.replicate p.2.2 ' ')) := by
  obtain ⟨zeropad, sign, plus, space, left, special, small⟩ := f
  obtain rfl : sign = false := hsign
  have htmp := tmp_digits small hbase.1 num
  have hds := digitText_length small hbase.1 num
  have hsg : (if plus = true then ['+'] else if space = true then [' '] else []) = flagSign plus space := rfl
  unfold sizeLeft
  dsimp only
  generalize digitText small base.toNat num.toNat = ds at htmp hds ⊢
  generalize htmp_def : (if num = 0 then ['0'] else digitLoop (digitChars small) base 32 num) = tmp at htmp
  have hlen : tmp.length = ds.length := by rw [← htmp, List.length_reverse]
  have hzeros := zeros32 hds.2 precision
  have hpre : (if special = true then
      if base = 8 then ['0'] else if base = 16 then ['0', (digitChars small).getD 33 ' '] else [] else []) =
      prefixText special small base := by rw [digitChars_x]; rfl
  cases left <;> cases zeropad <;>
    simp only [number32, base_range hbase, hsg, htmp_def, sign_size32, prefix_size32 _ small, fill32, fills, hzeros, htmp,
      hlen, hpre, Bool.false_eq_true, false_and, if_true, if_false, Bool.not_true, Bool.not_false,
      Bool.and_true, Bool.and_false, Bool.and_self, List.replicate_zero, List.append_nil, List.nil_append,
      List.length_replicate, List.length_nil]

/-- The counts of the loops for `k` characters of padding. -/
def counts (left zeropad : Bool) (k : ℕ) : ℕ × ℕ × ℕ :=
  (if !zeropad && !left then k else 0, if zeropad && !left then k else 0, if left then k else 0)

/-- How often the size goes down by one more than there is to write. -/
def loops (left zeropad : Bool) : ℤ := if left then 1 else if zeropad then 2 else 3

theorem fill32_fst (c : Char) (size : Int32) : (fill32 c size).1.length = size.toInt.toNat := by
  simp [fill32]

theorem fill32_snd (c : Char) (size : Int32) : (fill32 c size).2.toInt =
    if 0 < size.toInt then -1 else if size.toInt = -2147483648 then 2147483647 else size.toInt - 1 := by
  have hmax := size.toInt_lt
  have hmin := size.le_toInt
  have hone : (1 : Int32).toInt = 1 := rfl
  unfold fill32
  dsimp only
  split_ifs with h h₁ h₂ h₁ h₂ <;> rw [Int32.lt_iff_toInt_lt, Int32.toInt_zero] at h
  · rfl
  · omega
  · omega
  · omega
  · rw [Int32.toInt_sub, hone, h₂]
    rfl
  · rw [Int32.toInt_sub, hone, Int.bmod_eq_of_le (by omega) (by omega)]

/-- The loops write the padding unless the size wraps below the least `int`; where it wraps by more than
the padding of any text, nothing is written either. -/
theorem fills_padding (left zeropad : Bool) (w : Int32) (t : ℤ) (hlow : -4294967298 ≤ t) (hhigh : t < 2147483648)
    (hw : w.toInt = t.bmod 4294967296) :
    (loops left zeropad - 2147483649 ≤ t ∨ t ≤ -4294967296 →
      fills left zeropad w = counts left zeropad t.toNat) ∧
    ((fills left zeropad w).1 + (fills left zeropad w).2.1 + (fills left zeropad w).2.2 = t.toNat →
      loops left zeropad - 2147483649 ≤ t ∨ t ≤ -4294967296) := by
  have hmax := w.toInt_lt
  have hmin := w.le_toInt
  have hwrap : w.toInt = t ∨ w.toInt = t + 4294967296 := by
    rw [Int.bmod_def] at hw
    split_ifs at hw <;> omega
  cases left <;> cases zeropad <;>
    simp only [fills, counts, loops, fill32_fst, fill32_snd, Bool.not_true, Bool.not_false, Bool.and_true, Bool.and_false,
      Bool.and_self, if_true, if_false, Bool.false_eq_true, Prod.mk.injEq, List.length_nil, true_and] <;>
    refine ⟨fun h => ?_, fun h => ?_⟩ <;> (try split_ifs at h ⊢) <;> omega

/-! ### Every size -/

/-- `text` is the layout of the number, as long as its size asks for, and says the number. -/
structure Laid (num base : UInt32) (size precision : Int32) (f : Flags) (text : List Char) : Prop where
  parts : text = layout f.left f.zeropad (flagSign f.plus f.space) (prefixText f.special f.small base)
    (List.replicate (precision.toInt.toNat - (digitText f.small base.toNat num.toNat).length) '0')
    (digitText f.small base.toNat num.toNat) (padding num base size.toInt precision.toInt f).toNat
  length : (text.length : ℤ) = max size.toInt ((flagSign f.plus f.space).length +
    (prefixText f.special f.small base).length + max precision.toInt (digitText f.small base.toNat num.toNat).length)
  value : readBack f.small base.toNat (digitText f.small base.toNat num.toNat) = num.toNat

theorem laid_iff {num base : UInt32} {size precision : Int32} {f : Flags} {text : List Char}
    (hbase : 2 ≤ base.toNat ∧ base.toNat ≤ 36) : Laid num base size precision f text ↔
      text = layout f.left f.zeropad (flagSign f.plus f.space) (prefixText f.special f.small base)
        (List.replicate (precision.toInt.toNat - (digitText f.small base.toNat num.toNat).length) '0')
        (digitText f.small base.toNat num.toNat) (padding num base size.toInt precision.toInt f).toNat := by
  refine ⟨Laid.parts, fun h => ⟨h, ?_, readBack_digitText _ hbase.1 hbase.2 _⟩⟩
  rw [h, layout_length, List.length_replicate, padding]
  omega

theorem prefixText_length (special small : Bool) (base : UInt32) : (prefixText special small base).length ≤ 2 := by
  unfold prefixText
  split_ifs <;> simp

theorem flagSign_length (plus space : Bool) : (flagSign plus space).length ≤ 1 := by
  unfold flagSign
  split_ifs <;> simp

/-- The size before the loops is the padding, up to the width of an `int`. -/
theorem sizeLeft_toInt (num base : UInt32) (size precision : Int32) (f : Flags) (hbase : 2 ≤ base.toNat) :
    (sizeLeft num base size precision f).toInt = (padding num base size.toInt precision.toInt f).bmod 4294967296 := by
  have hds := digitText_length f.small hbase num
  have hsign := flagSign_length f.plus f.space
  have hpre := prefixText_length f.special f.small base
  unfold sizeLeft padding
  generalize (digitText f.small base.toNat num.toNat).length = n at hds ⊢
  have hmax : (if Int32.ofNat n > precision then Int32.ofNat n else precision).toInt = max precision.toInt n := by
    have hn := toInt_ofNat_digits hds.2
    split_ifs with h <;> rw [gt_iff_lt, Int32.lt_iff_toInt_lt, hn] at h <;> omega
  simp only [Int32.toInt_sub, hmax, toInt_ofNat_digits (hsign.trans (by norm_num)),
    toInt_ofNat_digits (hpre.trans (by norm_num))]
  norm_num

variable {num base : UInt32} {size precision : Int32} {f : Flags}

theorem fills_sizeLeft (hbase : 2 ≤ base.toNat) :
    (loops f.left f.zeropad - 2147483649 ≤ padding num base size.toInt precision.toInt f ∨
        padding num base size.toInt precision.toInt f ≤ -4294967296 →
      fills f.left f.zeropad (sizeLeft num base size precision f) =
        counts f.left f.zeropad (padding num base size.toInt precision.toInt f).toNat) ∧
    (let p := fills f.left f.zeropad (sizeLeft num base size precision f)
     p.1 + p.2.1 + p.2.2 = (padding num base size.toInt precision.toInt f).toNat →
      loops f.left f.zeropad - 2147483649 ≤ padding num base size.toInt precision.toInt f ∨
        padding num base size.toInt precision.toInt f ≤ -4294967296) := by
  have hds := digitText_length f.small hbase num
  have hsgn := flagSign_length f.plus f.space
  have hpre := prefixText_length f.special f.small base
  have hsize := size.toInt_lt
  have hsize' := size.le_toInt
  have hprec := precision.toInt_lt
  exact fills_padding f.left f.zeropad (sizeLeft num base size precision f)
    (padding num base size.toInt precision.toInt f) (by unfold padding; omega) (by unfold padding; omega)
    (sizeLeft_toInt num base size precision f hbase)

theorem number32_layout (hsign : f.sign = false) (hbase : 2 ≤ base.toNat ∧ base.toNat ≤ 36)
    (h : loops f.left f.zeropad - 2147483649 ≤ padding num base size.toInt precision.toInt f ∨
      padding num base size.toInt precision.toInt f ≤ -4294967296) :
    number32 num base size precision f = some (layout f.left f.zeropad (flagSign f.plus f.space)
      (prefixText f.special f.small base)
      (List.replicate (precision.toInt.toNat - (digitText f.small base.toNat num.toNat).length) '0')
      (digitText f.small base.toNat num.toNat) (padding num base size.toInt precision.toInt f).toNat) := by
  rw [number32_text num base size precision f hsign hbase]
  dsimp only
  rw [(fills_sizeLeft hbase.1).1 h]
  cases f.left <;> cases f.zeropad <;> simp [counts, layout]

/-- A text of the right length has the right padding in its loops. -/
theorem number32_only (hsign : f.sign = false) (hbase : 2 ≤ base.toNat ∧ base.toNat ≤ 36) {text : List Char}
    (hrun : number32 num base size precision f = some text) (h : Laid num base size precision f text) :
    loops f.left f.zeropad - 2147483649 ≤ padding num base size.toInt precision.toInt f ∨
      padding num base size.toInt precision.toInt f ≤ -4294967296 := by
  refine (fills_sizeLeft hbase.1).2 ?_
  rw [number32_text num base size precision f hsign hbase] at hrun
  have hlen := congrArg List.length ((Option.some.inj hrun).trans h.parts)
  rw [layout_length] at hlen
  simp only [List.length_append, List.length_replicate] at hlen
  omega

/-- Where no size wraps, the `int`s of the machine are integers. -/
theorem number32_number (hsign : f.sign = false) (hbase : 2 ≤ base.toNat ∧ base.toNat ≤ 36)
    (h : loops f.left f.zeropad - 2147483649 ≤ padding num base size.toInt precision.toInt f) :
    number32 num base size precision f = number num base size.toInt precision.toInt f := by
  rw [number32_layout hsign hbase (.inl h), number_unsigned _ _ _ _ f hsign hbase]

/-- `number` writes the layout exactly where its size does not wrap below the least `int`, or wraps by
so much that there is nothing to write again. -/
theorem number32_laid_iff (num base : UInt32) (size precision : Int32) (f : Flags) (hsign : f.sign = false)
    (hbase : 2 ≤ base.toNat ∧ base.toNat ≤ 36) :
    (∃ text, number32 num base size precision f = some text ∧ Laid num base size precision f text) ↔
      loops f.left f.zeropad - 2147483649 ≤ padding num base size.toInt precision.toInt f ∨
        padding num base size.toInt precision.toInt f ≤ -4294967296 := by
  constructor
  · rintro ⟨text, hrun, h⟩
    exact number32_only hsign hbase hrun h
  · intro h
    exact ⟨_, number32_layout hsign hbase h, (laid_iff hbase).mpr rfl⟩

theorem number32_laid_hex : ∃ text, number32 255 16 6 0 { special := true, zeropad := true } = some text ∧
    Laid 255 16 6 0 { special := true, zeropad := true } text :=
  (number32_laid_iff 255 16 6 0 { special := true, zeropad := true } rfl (by decide)).mpr (.inl (by decide))

example : number32 255 16 6 0 { special := true, zeropad := true } = some "0X00FF".toList := by decide

/-- The least size wraps at the sign: `+5` stands behind 2147483646 spaces. -/
theorem number32_wraps : ¬ ∀ (num base : UInt32) (size precision : Int32) (f : Flags), f.sign = false →
    2 ≤ base.toNat ∧ base.toNat ≤ 36 →
    ∃ text, number32 num base size precision f = some text ∧ Laid num base size precision f text := by
  intro h
  obtain ⟨text, hrun, hlaid⟩ := h 5 10 (-2147483648) 0 { plus := true } rfl (by decide)
  have hwrap := number32_only rfl (by decide) hrun hlaid
  exact absurd hwrap (by decide)

end Printf
end Onix
