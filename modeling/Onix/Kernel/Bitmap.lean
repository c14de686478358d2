import Onix.Kernel.Task

/-! The bitmaps of bitmap.c: kernel pages, the mmap area of a task, and the inodes
and zones of a file system are all handed out from one. -/

set_option autoImplicit false

namespace Onix

/-- `bitmap_t`: `bits` is read at the distance from `offset`, `length` counts bytes. -/
structure Bitmap where
  bits : ℕ → Bool
  length : ℕ
  offset : ℕ

namespace Bitmap

def bitmapTest (map : Bitmap) (index : ℕ) : Except Halt Bool := do
  assert "index >= map->offset" (index ≥ map.offset)
  let idx := index - map.offset
  assert "bytes < map->length" (idx / 8 < map.length)
  .ok (map.bits idx)

def bitmapSet (map : Bitmap) (index : ℕ) (value : Bool) : Except Halt Bitmap := do
  assert "index >= map->offset" (index ≥ map.offset)
  let idx := index - map.offset
  assert "bytes < map->length" (idx / 8 < map.length)
  .ok { map with bits := Function.update map.bits idx value }

/-- The search of `bitmap_scan`: `counter` clear bits lie right before the rest. -/
def scanFrom (bits : ℕ → Bool) (count : ℕ) : List ℕ → ℕ → Option ℕ
  | [], _ => none
  | nextBit :: rest, counter =>
    let counter := if bits nextBit then 0 else counter + 1
    if counter = count then some (nextBit + 1 - count) else scanFrom bits count rest counter

/-- `bitmap_scan`: the first `count` clear bits in a row, which it sets. -/
def bitmapScan (map : Bitmap) (count : ℕ) : Option (ℕ × Bitmap) :=
  match scanFrom map.bits count (List.range (map.length * 8)) 0 with
  | none => none
  | some start => some (start + map.offset,
      { map with bits := fun i => if start ≤ i ∧ i < start + count then true else map.bits i })

/-- The bit of `index`, for an index the bitmap covers. -/
def marked (map : Bitmap) (index : ℕ) : Bool := map.bits (index - map.offset)

def covers (map : Bitmap) (index : ℕ) : Prop := map.offset ≤ index ∧ index < map.offset + map.length * 8

theorem covers_iff {map : Bitmap} {index : ℕ} :
    map.covers index ↔ index ≥ map.offset ∧ (index - map.offset) / 8 < map.length := by
  unfold covers
  omega

theorem bitmapTest_eq {map : Bitmap} {index : ℕ} (h : map.covers index) :
    map.bitmapTest index = .ok (map.marked index) := by
  obtain ⟨h1, h2⟩ := covers_iff.mp h
  simp [bitmapTest, marked, h1, h2]

theorem bitmapSet_eq {map : Bitmap} {index : ℕ} (value : Bool) (h : map.covers index) :
    map.bitmapSet index value =
      .ok { map with bits := Function.update map.bits (index - map.offset) value } := by
  obtain ⟨h1, h2⟩ := covers_iff.mp h
  simp [bitmapSet, h1, h2]

theorem scanFrom_some {bits : ℕ → Bool} {count start : ℕ} (hc : 0 < count) (n : ℕ) :
    ∀ (len counter : ℕ), counter ≤ n → counter < count →
      (∀ i, n - counter ≤ i → i < n → bits i = false) →
      scanFrom bits count (List.range' n len) counter = some start →
      start + count ≤ n + len ∧ ∀ i, start ≤ i → i < start + count → bits i = false := by
  intro len
  induction len generalizing n with
  | zero =>
    intro counter _ _ _ h
    cases h
  | succ len ih =>
    intro counter hn hlt hclear h
    rw [List.range'_succ, scanFrom] at h
    cases hb : bits n with
    | true =>
      simp only [hb, if_true] at h
      split_ifs at h with h0
      · omega
      · obtain ⟨h1, h2⟩ := ih (n + 1) 0 (by omega) hc (fun i _ _ => by omega) h
        exact ⟨by omega, h2⟩
    | false =>
      have hclear' : ∀ i, n + 1 - (counter + 1) ≤ i → i < n + 1 → bits i = false := by
        intro i h1 h2
        by_cases hi : i = n
        · rw [hi, hb]
        · exact hclear i (by omega) (by omega)
      simp only [hb, Bool.false_eq_true, if_false] at h
      split_ifs at h with h0
      · cases h
        exact ⟨by omega, fun i h1 h2 => hclear' i (by omega) (by omega)⟩
      · obtain ⟨h1, h2⟩ := ih (n + 1) (counter + 1) (by omega) (by omega) hclear' h
        exact ⟨by omega, h2⟩

/-- The indices that `bitmap_scan` hands out were all clear. -/
theorem bitmapScan_some {map map' : Bitmap} {count index : ℕ} (hc : 0 < count)
    (h : map.bitmapScan count = some (index, map')) :
    (∀ i, index ≤ i → i < index + count → map.covers i ∧ map.marked i = false) ∧
      map'.length = map.length ∧ map'.offset = map.offset ∧
      ∀ i, map.offset ≤ i → map'.marked i = (decide (index ≤ i ∧ i < index + count) || map.marked i) := by
  unfold bitmapScan at h
  split at h
  · cases h
  · rename_i start hs
    cases h
    rw [List.range_eq_range'] at hs
    obtain ⟨h1, h2⟩ := scanFrom_some hc 0 _ 0 le_rfl hc (fun i _ _ => by omega) hs
    refine ⟨fun i hi hi' => ⟨?_, h2 _ (by omega) (by omega)⟩, rfl, rfl, fun i hi => ?_⟩
    · unfold covers
      omega
    · simp only [marked]
      split_ifs with hin
      · have : start + map.offset ≤ i ∧ i < start + map.offset + count := by omega
        simp [this]
      · have : ¬ (start + map.offset ≤ i ∧ i < start + map.offset + count) := by omega
        simp [this]

/-- The search is first fit: it stops at or before any run of clear bits. -/
theorem scanFrom_le {bits : ℕ → Bool} {count run : ℕ} (n : ℕ) :
    ∀ (len counter : ℕ), counter < count → n - counter ≤ run → run + count ≤ n + len →
      (∀ i, run ≤ i → i < run + count → bits i = false) →
      ∃ start, scanFrom bits count (List.range' n len) counter = some start ∧ start ≤ run := by
  intro len
  induction len generalizing n with
  | zero =>
    intro counter _ _ _ _
    omega
  | succ len ih =>
    intro counter hlt hrun hend hclear
    rw [List.range'_succ, scanFrom]
    cases hb : bits n with
    | true =>
      -- the run cannot contain `n`, and it is too long to end before it
      have hn : n < run := by
        by_contra hle
        rw [hclear n (by omega) (by omega)] at hb
        cases hb
      have h0 : ¬ 0 = count := by omega
      simp only [if_true, if_neg h0]
      exact ih (n + 1) 0 (by omega) (by omega) (by omega) hclear
    | false =>
      simp only [Bool.false_eq_true, if_false]
      split_ifs with h0
      · exact ⟨_, rfl, by omega⟩
      · exact ih (n + 1) (counter + 1) (by omega) (by omega) (by omega) hclear

theorem bitmapScan_le {map : Bitmap} {count run : ℕ} (hc : 0 < count)
    (h : ∀ i, run ≤ i → i < run + count → map.covers i ∧ map.marked i = false) :
    ∃ index map', map.bitmapScan count = some (index, map') ∧ index ≤ run := by
  have hlo := (h run le_rfl (by omega)).1.1
  have hhi := (h (run + count - 1) (by omega) (by omega)).1.2
  have hclear : ∀ i, run - map.offset ≤ i → i < run - map.offset + count → map.bits i = false := by
    intro i hi hi'
    have := (h (i + map.offset) (by omega) (by omega)).2
    rwa [marked, Nat.add_sub_cancel] at this
  obtain ⟨start, hs, hle⟩ := scanFrom_le 0 (map.length * 8) 0 hc (by omega) (by omega) hclear
  unfold bitmapScan
  rw [List.range_eq_range', hs]
  exact ⟨_, _, rfl, by omega⟩

/-- There are `count` clear bits in a row below `limit`. -/
def RoomBelow (map : Bitmap) (limit count : ℕ) : Prop :=
  ∃ run, run + count ≤ limit ∧ ∀ i, run ≤ i → i < run + count → map.covers i ∧ map.marked i = false

/-- First fit: what the scan finds reaches over a limit only when there is no room below it. -/
theorem roomBelow_iff {map map' : Bitmap} {count index limit : ℕ} (hc : 0 < count)
    (h : map.bitmapScan count = some (index, map')) : map.RoomBelow limit count ↔ index + count ≤ limit := by
  constructor
  · rintro ⟨run, hhi, hclear⟩
    obtain ⟨index', map'', hs, hle⟩ := bitmapScan_le hc hclear
    rw [h] at hs
    cases hs
    omega
  · intro hle
    exact ⟨index, hle, (bitmapScan_some hc h).1⟩

end Bitmap
end Onix
