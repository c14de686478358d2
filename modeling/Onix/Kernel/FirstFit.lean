import Mathlib.Data.Nat.Bitwise
import Onix.Kernel.Bitmap
import Onix.Kernel.Buffer

/-! bitmap.c on its bytes: `bitmap_test` and `bitmap_set` pick a bit of a byte, and
`bitmap_scan` calls them with 32-bit indices. On the bits it is the first fit of `Bitmap`. -/

set_option autoImplicit false

namespace Onix

open Lib

/-- `bitmap_t` with the memory from `bits` on. -/
structure BitBuffer where
  bits : ℕ → UInt8
  length : UInt32
  offset : UInt32

namespace BitBuffer

def bitmapTest (map : BitBuffer) (index : UInt32) : Except Halt Bool := do
  assert "index >= map->offset" (index ≥ map.offset)
  let idx := index - map.offset
  let bytes := idx / 8
  let bits := idx % 8
  assert "bytes < map->length" (bytes < map.length)
  .ok (map.bits bytes.toNat &&& 1 <<< bits.toUInt8 ≠ 0)

def bitmapSet (map : BitBuffer) (index : UInt32) (value : Bool) : Except Halt BitBuffer := do
  assert "index >= map->offset" (index ≥ map.offset)
  let idx := index - map.offset
  let bytes := idx / 8
  let bits := idx % 8
  assert "bytes < map->length" (bytes < map.length)
  let byte := map.bits bytes.toNat
  let byte := if value then byte ||| 1 <<< bits.toUInt8 else byte &&& ~~~(1 <<< bits.toUInt8)
  .ok { map with bits := Function.update map.bits bytes.toNat byte }

/-- The first loop of `bitmap_scan`, with as many rounds to go; the result is `start`. -/
def scanLoop (map : BitBuffer) (count : UInt32) : ℕ → UInt32 → UInt32 → Except Halt Int32
  | 0, _, _ => .ok EOF
  | rounds + 1, nextBit, counter => do
    let set ← map.bitmapTest (map.offset + nextBit)
    let counter := if !set then counter + 1 else 0
    if counter = count then .ok (nextBit - count + 1).toInt32
    else map.scanLoop count rounds (nextBit + 1) counter

/-- The second loop, which sets the bits it found. -/
def setLoop (start : Int32) : ℕ → UInt32 → BitBuffer → Except Halt BitBuffer
  | 0, _, map => .ok map
  | rounds + 1, nextBit, map => do
    let map ← map.bitmapSet (map.offset + start.toUInt32 + nextBit) true
    setLoop start rounds (nextBit + 1) map

def bitmapScan (map : BitBuffer) (count : UInt32) : Except Halt (Int32 × BitBuffer) := do
  let bitsLeft := map.length * 8
  let start ← map.scanLoop count bitsLeft.toNat 0 0
  if start ≠ EOF then
    let map ← setLoop start count.toNat 0 map
    .ok ((start.toUInt32 + map.offset).toInt32, map)
  else .ok (start, map)

/-! ### The bits -/

/-- Bit `i` of the buffer. -/
def bit (map : BitBuffer) (i : ℕ) : Bool := (map.bits (i / 8)).toNat.testBit (i % 8)

/-- The buffer as a bitmap of `Bitmap`. -/
def toBitmap (map : BitBuffer) : Bitmap := ⟨map.bit, map.length.toNat, map.offset.toNat⟩

/-- The indices of the bits are below 2^31. -/
def Fits (map : BitBuffer) : Prop := map.offset.toNat + 8 * map.length.toNat < 2 ^ 31

theorem mask_toNat {k : UInt32} (hk : k.toNat < 8) : ((1 : UInt8) <<< k.toUInt8).toNat = 2 ^ k.toNat := by
  have h8 : k.toUInt8.toNat = k.toNat := by
    rw [UInt32.toNat_toUInt8]
    omega
  rw [UInt8.toNat_shiftLeft, h8, Nat.mod_eq_of_lt hk, Nat.shiftLeft_eq, show (1 : UInt8).toNat = 1 from rfl,
    Nat.one_mul]
  exact Nat.mod_eq_of_lt (Nat.pow_lt_pow_right (by decide) hk)

theorem and_mask_ne_zero {b : UInt8} {k : UInt32} (hk : k.toNat < 8) :
    (b &&& 1 <<< k.toUInt8 ≠ 0) = (b.toNat.testBit k.toNat = true) := by
  rw [ne_eq, ← UInt8.toNat_inj, UInt8.toNat_and, mask_toNat hk, Nat.and_two_pow]
  cases h : b.toNat.testBit k.toNat with
  | true => simp
  | false => simp

/-- Where bit `i` lies. -/
theorem index_split {map : BitBuffer} {i : UInt32} (h : map.Fits) (hi : i.toNat < map.length.toNat * 8) :
    map.offset + i ≥ map.offset ∧ map.offset + i - map.offset = i ∧ i / 8 < map.length := by
  unfold Fits at h
  refine ⟨?_, ?_, ?_⟩
  · rw [ge_iff_le, UInt32.le_iff_toNat_le, UInt32.toNat_add]
    omega
  · rw [UInt32.add_comm]
    exact UInt32.add_sub_cancel i map.offset
  · rw [UInt32.lt_iff_toNat_lt, UInt32.toNat_div]
    simp only [UInt32.reduceToNat]
    omega

theorem bitmapTest_spec {map : BitBuffer} {i : UInt32} (h : map.Fits) (hi : i.toNat < map.length.toNat * 8) :
    map.bitmapTest (map.offset + i) = .ok (map.bit i.toNat) := by
  obtain ⟨hge, hsub, hlt⟩ := index_split h hi
  have hmod : (i % 8).toNat = i.toNat % 8 := UInt32.toNat_mod i 8
  have hdiv : (i / 8).toNat = i.toNat / 8 := UInt32.toNat_div i 8
  simp only [bitmapTest, hsub, hge, hlt, decide_true, assert_true, ok_bind]
  simp only [and_mask_ne_zero (show (i % 8).toNat < 8 by omega), hmod, hdiv, bit, Bool.decide_eq_true]

theorem bitmapSet_spec {map : BitBuffer} {i : UInt32} (h : map.Fits) (hi : i.toNat < map.length.toNat * 8) :
    ∃ map', map.bitmapSet (map.offset + i) true = .ok map' ∧ map'.length = map.length ∧ map'.offset = map.offset ∧
      map'.bit = Function.update map.bit i.toNat true := by
  obtain ⟨hge, hsub, hlt⟩ := index_split h hi
  have hmod : (i % 8).toNat = i.toNat % 8 := UInt32.toNat_mod i 8
  have hdiv : (i / 8).toNat = i.toNat / 8 := UInt32.toNat_div i 8
  simp only [bitmapSet, hsub, hge, hlt, decide_true, assert_true, ok_bind]
  refine ⟨_, rfl, rfl, rfl, ?_⟩
  funext j
  simp only [bit, if_true, hdiv, Function.update_apply]
  by_cases hj : j / 8 = i.toNat / 8
  · rw [if_pos hj, UInt8.toNat_or, mask_toNat (show (i % 8).toNat < 8 by omega), Nat.testBit_or, Nat.testBit_two_pow,
      hmod, ← hj]
    split_ifs with hji
    · simp [hji]
    · have : ¬ i.toNat % 8 = j % 8 := by omega
      simp [this]
  · rw [if_neg hj, if_neg (fun he => hj (by rw [he]))]

/-! ### The loops -/

/-- The first loop finds what `scanFrom` finds. -/
theorem scanLoop_spec {map : BitBuffer} (h : map.Fits) (count : UInt32) :
    ∀ (rounds : ℕ) (nextBit counter : UInt32), nextBit.toNat + rounds = map.length.toNat * 8 →
      counter.toNat ≤ nextBit.toNat → counter.toNat < count.toNat →
      map.scanLoop count rounds nextBit counter =
        .ok ((Bitmap.scanFrom map.bit count.toNat (List.range' nextBit.toNat rounds) counter.toNat).elim EOF
          fun start => (UInt32.ofNat start).toInt32)
  | 0, _, _, _, _, _ => rfl
  | rounds + 1, nextBit, counter, hn, hle, hlt => by
    have hfits : map.offset.toNat + 8 * map.length.toNat < 2 ^ 31 := h
    have hnext : (nextBit + 1).toNat = nextBit.toNat + 1 := by
      rw [UInt32.toNat_add]
      simp only [UInt32.reduceToNat]
      omega
    rw [scanLoop, bitmapTest_spec h (by omega), ok_bind, List.range'_succ, Bitmap.scanFrom]
    have ih := scanLoop_spec h count rounds (nextBit + 1)
    rw [hnext] at ih
    cases hb : map.bit nextBit.toNat with
    | true =>
      have hc : ¬ (0 : UInt32) = count := by
        rintro rfl
        exact absurd hlt (Nat.not_lt_zero _)
      have hc' : ¬ 0 = count.toNat := by omega
      simp only [Bool.not_true, Bool.false_eq_true, if_false, if_true, if_neg hc, if_neg hc']
      exact ih 0 (by omega) (Nat.zero_le _) (by show 0 < count.toNat; omega)
    | false =>
      have hcounter : (counter + 1).toNat = counter.toNat + 1 := by
        rw [UInt32.toNat_add]
        simp only [UInt32.reduceToNat]
        omega
      simp only [Bool.not_false, if_true, Bool.false_eq_true, if_false, ← hcounter, UInt32.toNat_inj]
      split_ifs with hc
      · have hend := congrArg UInt32.toNat hc
        have hstart : nextBit - count + 1 = UInt32.ofNat (nextBit.toNat + 1 - count.toNat) := by
          rw [← UInt32.toNat_inj, UInt32.toNat_add, UInt32.toNat_sub, UInt32.toNat_ofNat']
          simp only [UInt32.reduceToNat]
          omega
        rw [hstart]
        rfl
      · have hne : (counter + 1).toNat ≠ count.toNat := fun he => hc (UInt32.toNat_inj.mp he)
        exact ih (counter + 1) (by omega) (by omega) (by omega)

/-- The second loop sets the bits behind the start, and no other. -/
theorem setLoop_spec (start : Int32) : ∀ (rounds : ℕ) (nextBit : UInt32) (map : BitBuffer), map.Fits →
    start.toUInt32.toNat + nextBit.toNat + rounds ≤ map.length.toNat * 8 →
    ∃ map', setLoop start rounds nextBit map = .ok map' ∧ map'.length = map.length ∧ map'.offset = map.offset ∧
      map'.bit = fun i => if start.toUInt32.toNat + nextBit.toNat ≤ i ∧
        i < start.toUInt32.toNat + nextBit.toNat + rounds then true else map.bit i
  | 0, _, map, _, _ => by
    refine ⟨map, rfl, rfl, rfl, ?_⟩
    funext i
    rw [if_neg (by omega)]
  | rounds + 1, nextBit, map, h, hle => by
    have hfits : map.offset.toNat + 8 * map.length.toNat < 2 ^ 31 := h
    have hindex : (start.toUInt32 + nextBit).toNat = start.toUInt32.toNat + nextBit.toNat := by
      rw [UInt32.toNat_add]
      omega
    have hnext : (nextBit + 1).toNat = nextBit.toNat + 1 := by
      rw [UInt32.toNat_add]
      simp only [UInt32.reduceToNat]
      omega
    obtain ⟨map₁, hset, hlen, hoff, hbit⟩ := bitmapSet_spec (i := start.toUInt32 + nextBit) h (by omega)
    have h₁ : map₁.Fits := by
      unfold Fits
      rw [hlen, hoff]
      exact h
    obtain ⟨map₂, hloop, hlen₂, hoff₂, hbit₂⟩ := setLoop_spec start rounds (nextBit + 1) map₁ h₁ (by rw [hlen]; omega)
    refine ⟨map₂, ?_, hlen₂.trans hlen, hoff₂.trans hoff, ?_⟩
    · rw [setLoop, UInt32.add_assoc, hset, ok_bind]
      exact hloop
    · rw [hbit₂, hbit]
      funext i
      rw [hnext, Function.update_apply, hindex]
      by_cases hi : i = start.toUInt32.toNat + nextBit.toNat
      · simp [hi]
      · rw [if_neg hi]
        congr 1
        apply propext
        omega

/-- `bitmap_scan` is the scan of `Bitmap`. -/
theorem bitmapScan_spec {map : BitBuffer} (h : map.Fits) {count : UInt32} (hc : 1 ≤ count.toNat) :
    match map.toBitmap.bitmapScan count.toNat with
    | none => map.bitmapScan count = .ok (EOF, map)
    | some (index, map') => ∃ buffer, map.bitmapScan count = .ok ((UInt32.ofNat index).toInt32, buffer) ∧
        buffer.toBitmap = map' := by
  have hfits : map.offset.toNat + 8 * map.length.toNat < 2 ^ 31 := h
  have hleft : (map.length * 8).toNat = map.length.toNat * 8 := by
    rw [UInt32.toNat_mul]
    simp only [UInt32.reduceToNat]
    omega
  have hloop := scanLoop_spec h count (map.length * 8).toNat 0 0 (by rw [hleft]; exact Nat.zero_add _) le_rfl hc
  rw [hleft, UInt32.toNat_zero, ← List.range_eq_range'] at hloop
  unfold Bitmap.bitmapScan
  simp only [toBitmap]
  cases hs : Bitmap.scanFrom map.bit count.toNat (List.range (map.length.toNat * 8)) 0 with
  | none =>
    rw [hs] at hloop
    simp [bitmapScan, hleft, hloop]
  | some start =>
    rw [hs] at hloop
    rw [List.range_eq_range'] at hs
    have hend := (Bitmap.scanFrom_some hc 0 _ 0 le_rfl hc (fun i _ _ => by omega) hs).1
    have hstart : (UInt32.ofNat start).toInt32.toUInt32.toNat = start := by
      rw [UInt32.toUInt32_toInt32, UInt32.toNat_ofNat']
      omega
    have hne : (UInt32.ofNat start).toInt32 ≠ EOF := by
      intro he
      rw [he] at hstart
      change 2 ^ 32 - 1 = start at hstart
      omega
    obtain ⟨buffer, hset, hlen, hoff, hbit⟩ := setLoop_spec (UInt32.ofNat start).toInt32 count.toNat 0 map h
      (by rw [hstart]; show start + 0 + count.toNat ≤ _; omega)
    refine ⟨buffer, ?_, ?_⟩
    · have hsum : UInt32.ofNat start + map.offset = UInt32.ofNat (start + map.offset.toNat) := by
        rw [UInt32.ofNat_add, UInt32.ofNat_toNat]
      simp only [bitmapScan, hleft, hloop, Option.elim, ok_bind, ne_eq, hne, not_false_eq_true, if_true, hset,
        UInt32.toUInt32_toInt32, hoff, hsum]
    · rw [hbit, hlen, hoff, hstart]
      rfl

/-! ### First fit -/

/-- `count` clear bits in a row from `start` on. -/
def Clear (map : BitBuffer) (count start : ℕ) : Prop :=
  start + count ≤ 8 * map.length.toNat ∧ ∀ i, start ≤ i → i < start + count → map.bit i = false

/-- A clear run of the buffer is one of the bitmap. -/
theorem clear_iff {map : BitBuffer} {count start : ℕ} (hc : 1 ≤ count) : map.Clear count start ↔
    ∀ i, start + map.offset.toNat ≤ i → i < start + map.offset.toNat + count →
      map.toBitmap.covers i ∧ map.toBitmap.marked i = false := by
  simp only [Clear, Bitmap.covers, Bitmap.marked, toBitmap]
  constructor
  · rintro ⟨hle, hclear⟩ i hlo hhi
    exact ⟨by omega, hclear _ (by omega) (by omega)⟩
  · intro hall
    have hlast := (hall (start + map.offset.toNat + count - 1) (by omega) (by omega)).1.2
    refine ⟨by omega, fun i hlo hhi => ?_⟩
    have hbit := (hall (i + map.offset.toNat) (by omega) (by omega)).2
    rwa [Nat.add_sub_cancel] at hbit

/-- `bitmap_scan` finds the lowest run that is long enough and sets it; without one it returns EOF and
leaves the bitmap as it is. No assertion fires, since it always returns. -/
theorem bitmap_scan_first_fit (map : BitBuffer) (count : UInt32) (h : map.offset.toNat + 8 * map.length.toNat < 2 ^ 31)
    (hc : 1 ≤ count.toNat) :
    (∃ start map' r, IsLeast {i | map.Clear count.toNat i} start ∧ map.bitmapScan count = .ok (r, map') ∧
      r.toInt = map.offset.toNat + start ∧ map'.length = map.length ∧ map'.offset = map.offset ∧
      ∀ i, map'.bit i = (decide (start ≤ i ∧ i < start + count.toNat) || map.bit i)) ∨
    (¬∃ start, map.Clear count.toNat start) ∧ map.bitmapScan count = .ok (EOF, map) := by
  have hspec := bitmapScan_spec h hc
  cases hs : map.toBitmap.bitmapScan count.toNat with
  | none =>
    rw [hs] at hspec
    refine Or.inr ⟨?_, hspec⟩
    rintro ⟨start, hclear⟩
    obtain ⟨index, map', hsome, -⟩ := Bitmap.bitmapScan_le hc ((clear_iff hc).mp hclear)
    rw [hs] at hsome
    cases hsome
  | some found =>
    obtain ⟨index, map'⟩ := found
    rw [hs] at hspec
    obtain ⟨buffer, hscan, rfl⟩ := hspec
    obtain ⟨hclear, hlen, hoff, hmarked⟩ := Bitmap.bitmapScan_some hc hs
    have hlo : map.offset.toNat ≤ index := (hclear index le_rfl (by omega)).1.1
    have hhi : index < map.offset.toNat + map.length.toNat * 8 := (hclear index le_rfl (by omega)).1.2
    have hoff' : buffer.offset = map.offset := UInt32.toNat_inj.mp hoff
    obtain ⟨start, rfl⟩ := Nat.exists_eq_add_of_le' hlo
    refine Or.inl ⟨start, buffer, _, ⟨(clear_iff hc).mpr hclear, ?_⟩, hscan, ?_, UInt32.toNat_inj.mp hlen, hoff', ?_⟩
    · intro other hother
      obtain ⟨index', map'', hsome, hle⟩ := Bitmap.bitmapScan_le hc ((clear_iff hc).mp hother)
      rw [hs] at hsome
      cases hsome
      omega
    · change (UInt32.ofNat (start + map.offset.toNat)).toBitVec.toInt = _
      rw [BitVec.toInt_eq_toNat_of_lt (by simp; omega)]
      simp
      omega
    · intro i
      have hi := hmarked (i + map.offset.toNat) (Nat.le_add_left _ _)
      have hsame : buffer.toBitmap.offset = map.offset.toNat := hoff
      have hsame' : map.toBitmap.offset = map.offset.toNat := rfl
      simp only [Bitmap.marked, hsame, hsame', Nat.add_sub_cancel] at hi
      have hin : (start + map.offset.toNat ≤ i + map.offset.toNat ∧
          i + map.offset.toNat < start + map.offset.toNat + count.toNat) ↔ start ≤ i ∧ i < start + count.toNat := by
        omega
      rw [decide_eq_decide.mpr hin] at hi
      exact hi

/-- One byte with its three lowest bits set. -/
def lowBits : BitBuffer := ⟨fun i => if i = 0 then 0b00000111 else 0, 1, 5⟩

theorem bitmap_scan_first_fit_low :
    (∃ start map' r, IsLeast {i | lowBits.Clear 2 i} start ∧ lowBits.bitmapScan 2 = .ok (r, map') ∧
      r.toInt = lowBits.offset.toNat + start ∧ map'.length = lowBits.length ∧ map'.offset = lowBits.offset ∧
      ∀ i, map'.bit i = (decide (start ≤ i ∧ i < start + 2) || lowBits.bit i)) ∨
    (¬∃ start, lowBits.Clear 2 start) ∧ lowBits.bitmapScan 2 = .ok (EOF, lowBits) :=
  bitmap_scan_first_fit lowBits 2 (by decide) (by decide)

end BitBuffer
end Onix
