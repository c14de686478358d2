import Onix.Fs.Space
import Onix.Kernel.Bitmap

/-! The numbers of zones and inodes as bmap.c hands them out and takes them back. A number is made of the bitmap block,
the bit in it and a base, in 32 bits, and from the number alone the block is found again. -/

set_option autoImplicit false

namespace Onix

open Lib

/-- `EOF` in 32 bits. -/
def EOF_BIT : ℕ := 2 ^ 32 - 1

/-- The buffers of the inode or of the zone bitmap. -/
structure BitmapBlocks where
  /-- How many there are; the others are null. -/
  count : ℕ
  bits : ℕ → ℕ → Bool
  /-- `read_super` asserts `i < IMAP_NR` and `i < ZMAP_NR`. -/
  le : count ≤ 8

namespace BitmapBlocks

/-- `i * BLOCK_BITS + base` -/
def window (base i : ℕ) : ℕ := (i * BLOCK_BITS + base) % 2 ^ 32

/-- `bitmap_make` for the `i`-th buffer. -/
def mapOf (m : BitmapBlocks) (base i : ℕ) : Bitmap := ⟨m.bits i, BLOCK_SIZE, window base i⟩

def setBits (m : BitmapBlocks) (i : ℕ) (bits : ℕ → Bool) : BitmapBlocks :=
  { m with bits := Function.update m.bits i bits }

/-- The search of `bitmap_scan` for one clear bit, over `n` bits from `nextBit` on. -/
def scanOne (map : Bitmap) : ℕ → ℕ → Except Halt (Option ℕ)
  | 0, _ => .ok none
  | n + 1, nextBit => do
    let used ← map.bitmapTest ((map.offset + nextBit) % 2 ^ 32)
    if used then scanOne map n (nextBit + 1) else .ok (some nextBit)

/-- `bitmap_scan(&map, 1)` -/
def bitmapScanOne (map : Bitmap) : Except Halt (ℕ × Bitmap) := do
  match ← scanOne map (map.length * 8) 0 with
  | none => .ok (EOF_BIT, map)
  | some start => do
    let index := (map.offset + start) % 2 ^ 32
    let map ← map.bitmapSet index true
    .ok (index, map)

/-- The loop of `balloc` and `ialloc`, over `n` buffers from the `i`-th on. -/
def allocBit (base : ℕ) : ℕ → ℕ → BitmapBlocks → Except Halt (ℕ × BitmapBlocks)
  | 0, _, m => .ok (EOF_BIT, m)
  | n + 1, i, m => do
    assert "buf" (i < m.count)
    let (bit, map) ← bitmapScanOne (m.mapOf base i)
    let m := m.setBits i map.bits
    if bit ≠ EOF_BIT then .ok (bit, m) else allocBit base n (i + 1) m

/-- The loop of `bfree` and `ifree`. -/
def freeBit (base idx : ℕ) : ℕ → ℕ → BitmapBlocks → Except Halt BitmapBlocks
  | 0, _, m => .ok m
  | n + 1, i, m =>
    if window base i ≤ idx ∧ idx < window base (i + 1) then do
      assert "buf" (i < m.count)
      let used ← (m.mapOf base i).bitmapTest idx
      assert "bitmap_test(&map, idx)" used
      let map ← (m.mapOf base i).bitmapSet idx false
      .ok (m.setBits i map.bits)
    else freeBit base idx n (i + 1) m

/-- The number that a bit stands for. -/
def number (base i k : ℕ) : ℕ := (i * BLOCK_BITS + base + k) % 2 ^ 32

/-- A clear bit in a buffer. -/
def Free (m : BitmapBlocks) (i k : ℕ) : Prop := i < m.count ∧ k < BLOCK_BITS ∧ m.bits i k = false

/-- The outstanding numbers stand for different bits that were clear at first, and these bits are all that is set
since. -/
structure Tracks (base : ℕ) (m₀ m : BitmapBlocks) (out : List ℕ) : Prop where
  count : m.count = m₀.count
  nodup : out.Nodup
  own : ∀ x ∈ out, ∃ i k, m₀.Free i k ∧ x = number base i k
  bits : ∀ i k, i < m₀.count → k < BLOCK_BITS → m.bits i k = (m₀.bits i k || decide (number base i k ∈ out))

end BitmapBlocks

/-- The bitmaps of `super_block_t`, with what it reads of the descriptor. -/
structure SuperMaps where
  firstdatazone : UInt16
  imaps : BitmapBlocks
  zmaps : BitmapBlocks

namespace SuperMaps

open BitmapBlocks

/-- `sb->desc->firstdatazone - 1` -/
def zoneBase (sb : SuperMaps) : ℕ := (sb.firstdatazone.toNat + (2 ^ 32 - 1)) % 2 ^ 32

def balloc (sb : SuperMaps) : Except Halt (ℕ × SuperMaps) := do
  let (bit, m) ← allocBit sb.zoneBase ZMAP_NR 0 sb.zmaps
  .ok (bit, { sb with zmaps := m })

def bfree (sb : SuperMaps) (idx : ℕ) : Except Halt SuperMaps := do
  let m ← freeBit sb.zoneBase idx ZMAP_NR 0 sb.zmaps
  .ok { sb with zmaps := m }

def ialloc (sb : SuperMaps) : Except Halt (ℕ × SuperMaps) := do
  let (bit, m) ← allocBit 0 IMAP_NR 0 sb.imaps
  .ok (bit, { sb with imaps := m })

def ifree (sb : SuperMaps) (idx : ℕ) : Except Halt SuperMaps := do
  let m ← freeBit 0 idx IMAP_NR 0 sb.imaps
  .ok { sb with imaps := m }

end SuperMaps

/-- A super block in use, with the numbers that are outstanding. `initial` is a record: the super block before all
calls. -/
structure Numbers where
  sb : SuperMaps
  zones : List ℕ
  inodes : List ℕ
  initial : SuperMaps

inductive NumberEvent
  | balloc
  | bfree (idx : ℕ)
  | ialloc
  | ifree (idx : ℕ)
  deriving DecidableEq

namespace Numbers

open BitmapBlocks

def exec (s : Numbers) : NumberEvent → Except Halt Numbers
  | .balloc => do
    let (bit, sb) ← s.sb.balloc
    .ok { s with sb := sb, zones := bit :: s.zones }
  | .bfree idx => do
    let sb ← s.sb.bfree idx
    .ok { s with sb := sb, zones := s.zones.erase idx }
  | .ialloc => do
    let (bit, sb) ← s.sb.ialloc
    .ok { s with sb := sb, inodes := bit :: s.inodes }
  | .ifree idx => do
    let sb ← s.sb.ifree idx
    .ok { s with sb := sb, inodes := s.inodes.erase idx }

/-- Numbers are asked for while a bit is clear, and only outstanding ones are given back. -/
def Enabled (s : Numbers) : NumberEvent → Prop
  | .balloc => ∃ i k, s.sb.zmaps.Free i k
  | .bfree idx => idx ∈ s.zones
  | .ialloc => ∃ i k, s.sb.imaps.Free i k
  | .ifree idx => idx ∈ s.inodes

def Step (s : Numbers) (e : NumberEvent) (s' : Numbers) : Prop := s.Enabled e ∧ s.exec e = .ok s'

structure Init (s : Numbers) : Prop where
  zones : s.zones = []
  inodes : s.inodes = []
  initial : s.initial = s.sb

structure Right (s : Numbers) : Prop where
  zmaps : Tracks s.initial.zoneBase s.initial.zmaps s.sb.zmaps s.zones
  imaps : Tracks 0 s.initial.imaps s.sb.imaps s.inodes
  data : s.initial.zmaps.bits 0 0 = true → ∀ z ∈ s.zones, s.initial.firstdatazone.toNat ≤ z
  /-- No assertion fails. -/
  returns : ∀ e, s.Enabled e → ∃ s', s.exec e = .ok s'

end Numbers

/-! ### One bitmap -/

namespace BitmapBlocks

variable {m m₀ : BitmapBlocks} {base i k n : ℕ} {out : List ℕ}

/-- Bases for which no number leaves the 32 bits: those of the zones, and 0. -/
def Narrow (base : ℕ) : Prop := base < 65536

theorem window_eq (hb : Narrow base) (hi : i ≤ 8) : window base i = i * BLOCK_BITS + base := by
  apply Nat.mod_eq_of_lt
  unfold Narrow BLOCK_BITS at *
  omega

theorem number_eq (hb : Narrow base) (hi : i < 8) (hk : k < BLOCK_BITS) :
    number base i k = i * BLOCK_BITS + base + k := by
  apply Nat.mod_eq_of_lt
  unfold Narrow BLOCK_BITS at *
  omega

/-- Block and bit can be told from the number. -/
theorem number_inj {i' k' : ℕ} (hb : Narrow base) (hi : i < 8) (hk : k < BLOCK_BITS) (hi' : i' < 8)
    (hk' : k' < BLOCK_BITS) (h : number base i k = number base i' k') : i = i' ∧ k = k' := by
  rw [number_eq hb hi hk, number_eq hb hi' hk'] at h
  unfold BLOCK_BITS at *
  omega

theorem mapOf_covers (hb : Narrow base) (hi : i < 8) (hk : k < BLOCK_BITS) :
    (m.mapOf base i).covers (number base i k) := by
  rw [number_eq hb hi hk]
  have hw := window_eq hb hi.le
  have hle : k < BLOCK_SIZE * 8 := hk
  exact ⟨by change window base i ≤ _; omega, by change _ < window base i + BLOCK_SIZE * 8; omega⟩

theorem mapOf_test (hb : Narrow base) (hi : i < 8) (hk : k < BLOCK_BITS) :
    (m.mapOf base i).bitmapTest (number base i k) = .ok (m.bits i k) := by
  rw [Bitmap.bitmapTest_eq (mapOf_covers hb hi hk)]
  apply congrArg Except.ok
  change m.bits i (number base i k - window base i) = _
  rw [number_eq hb hi hk, window_eq hb hi.le, Nat.add_sub_cancel_left]

theorem mapOf_set (hb : Narrow base) (hi : i < 8) (hk : k < BLOCK_BITS) (value : Bool) :
    (m.mapOf base i).bitmapSet (number base i k) value =
      .ok { m.mapOf base i with bits := Function.update (m.bits i) k value } := by
  rw [Bitmap.bitmapSet_eq value (mapOf_covers hb hi hk)]
  have hidx : number base i k - (m.mapOf base i).offset = k := by
    change number base i k - window base i = k
    rw [number_eq hb hi hk, window_eq hb hi.le, Nat.add_sub_cancel_left]
  rw [hidx]
  rfl

theorem mapOf_index (hb : Narrow base) (hi : i < 8) : ((m.mapOf base i).offset + k) % 2 ^ 32 = number base i k := by
  change (window base i + k) % 2 ^ 32 = _
  rw [window_eq hb hi.le, number]

/-- The search ends at a clear bit, or all bits are set. -/
theorem scanOne_cases (hb : Narrow base) (hi : i < 8) (n j : ℕ) (h : j + n ≤ BLOCK_BITS) :
    (∃ k < j + n, m.bits i k = false ∧ scanOne (m.mapOf base i) n j = .ok (some k)) ∨
      (scanOne (m.mapOf base i) n j = .ok none ∧ ∀ k, j ≤ k → k < j + n → m.bits i k = true) := by
  induction n generalizing j with
  | zero => exact .inr ⟨rfl, fun k h1 h2 => absurd h1 (by omega)⟩
  | succ n ih =>
    rw [scanOne, mapOf_index hb hi, mapOf_test hb hi (by omega), ok_bind]
    cases hbit : m.bits i j with
    | false => exact .inl ⟨j, by omega, hbit, rfl⟩
    | true =>
      rcases ih (j + 1) (by omega) with ⟨k, hk, hfree, hr⟩ | ⟨hr, hall⟩
      · exact .inl ⟨k, by omega, hfree, hr⟩
      · refine .inr ⟨hr, fun k h1 h2 => ?_⟩
        by_cases hkj : k = j
        · rw [hkj, hbit]
        · exact hall k (by omega) (by omega)

theorem bitmapScanOne_cases (hb : Narrow base) (hi : i < 8) :
    (∃ k < BLOCK_BITS, m.bits i k = false ∧ bitmapScanOne (m.mapOf base i) =
      .ok (number base i k, { m.mapOf base i with bits := Function.update (m.bits i) k true })) ∨
      (bitmapScanOne (m.mapOf base i) = .ok (EOF_BIT, m.mapOf base i) ∧ ∀ k < BLOCK_BITS, m.bits i k = true) := by
  have hlen : (m.mapOf base i).length * 8 = BLOCK_BITS := by
    change BLOCK_SIZE * 8 = BLOCK_BITS
    unfold BLOCK_SIZE BLOCK_BITS
    omega
  unfold bitmapScanOne
  rw [hlen]
  rcases scanOne_cases (m := m) hb hi BLOCK_BITS 0 (by omega) with ⟨k, hk, hfree, hr⟩ | ⟨hr, hall⟩
  · have hk : k < BLOCK_BITS := by omega
    refine .inl ⟨k, hk, hfree, ?_⟩
    rw [hr, ok_bind]
    dsimp only
    rw [mapOf_index hb hi, mapOf_set hb hi hk, ok_bind]
  · refine .inr ⟨?_, fun k hk => hall k (Nat.zero_le k) (by omega)⟩
    rw [hr, ok_bind]

/-- While a bit is clear, one is found and set. -/
theorem allocBit_eq (hb : Narrow base) (h : i + n = 8) (hfree : ∃ i' k, i ≤ i' ∧ m.Free i' k) :
    ∃ i' k, m.Free i' k ∧ allocBit base n i m =
      .ok (number base i' k, m.setBits i' (Function.update (m.bits i') k true)) := by
  obtain ⟨i₀, k₀, hle, hlt, hk₀, hbit⟩ := hfree
  have hcount := m.le
  induction n generalizing i with
  | zero => omega
  | succ n ih =>
    have hi : i < 8 := by omega
    rw [allocBit, decide_eq_true (show i < m.count by omega), assert_true, ok_bind]
    rcases bitmapScanOne_cases (m := m) hb hi with ⟨k, hk, hclear, hr⟩ | ⟨hr, hall⟩
    · refine ⟨i, k, ⟨by omega, hk, hclear⟩, ?_⟩
      have hne : number base i k ≠ EOF_BIT := by
        rw [number_eq hb hi hk]
        unfold Narrow EOF_BIT BLOCK_BITS at *
        omega
      rw [hr, ok_bind]
      dsimp only
      rw [if_pos hne]
    · have hne : i ≠ i₀ := by
        rintro rfl
        rw [hall k₀ hk₀] at hbit
        cases hbit
      have hsame : m.setBits i (m.mapOf base i).bits = m := by
        unfold setBits mapOf
        rw [Function.update_eq_self]
      rw [hr, ok_bind]
      dsimp only
      rw [if_neg (not_not_intro rfl), hsame]
      exact ih (by omega) (by omega)

/-- The window of a number is that of its block. -/
theorem freeBit_eq {j : ℕ} (hb : Narrow base) (hi : i < m.count) (hk : k < BLOCK_BITS) (hbit : m.bits i k = true)
    (hj : j ≤ i) (hn : i < j + n) (hn' : j + n ≤ 8) : freeBit base (number base i k) n j m =
      .ok (m.setBits i (Function.update (m.bits i) k false)) := by
  have hcount := m.le
  induction n generalizing j with
  | zero => omega
  | succ n ih =>
    have hw := window_eq hb (show j ≤ 8 by omega)
    have hw' := window_eq hb (show j + 1 ≤ 8 by omega)
    have hnumber := number_eq hb (show i < 8 by omega) hk
    rw [freeBit]
    by_cases hji : j = i
    · subst hji
      have hin : window base j ≤ number base j k ∧ number base j k < window base (j + 1) := by
        rw [hw, hw', hnumber]
        unfold BLOCK_BITS at *
        omega
      rw [if_pos hin, decide_eq_true hi, assert_true, ok_bind, mapOf_test hb (by omega) hk, ok_bind, hbit, assert_true,
        ok_bind, mapOf_set hb (by omega) hk, ok_bind]
    · rw [if_neg (by rw [hw', hnumber]; unfold BLOCK_BITS at *; omega)]
      exact ih (by omega) (by omega) (by omega)

theorem setBits_bits (m : BitmapBlocks) (i k : ℕ) (value : Bool) (i' k' : ℕ) :
    (m.setBits i (Function.update (m.bits i) k value)).bits i' k' =
      if i' = i ∧ k' = k then value else m.bits i' k' := by
  by_cases hi : i' = i
  · subst hi
    by_cases hk : k' = k
    · subst hk
      simp [setBits]
    · simp [setBits, hk]
  · simp [setBits, hi]

theorem tracks_start (m : BitmapBlocks) : Tracks base m m [] where
  count := rfl
  nodup := List.nodup_nil
  own := nofun
  bits i k _ _ := by simp

/-- A number that is handed out is a new one, and its bit is all that changes. -/
theorem Tracks.alloc (h : Tracks base m₀ m out) (hb : Narrow base) (hfree : ∃ i k, m.Free i k) :
    ∃ x m', allocBit base 8 0 m = .ok (x, m') ∧ Tracks base m₀ m' (x :: out) := by
  obtain ⟨i₀, k₀, h₀⟩ := hfree
  obtain ⟨i, k, ⟨hi, hk, hclear⟩, hr⟩ := allocBit_eq hb (Nat.zero_add 8) ⟨i₀, k₀, Nat.zero_le _, h₀⟩
  have hi₀ : i < m₀.count := h.count ▸ hi
  have hlt := m₀.le
  have hold := h.bits i k hi₀ hk
  rw [hclear] at hold
  obtain ⟨hbit, hnew⟩ := Bool.or_eq_false_iff.mp hold.symm
  have hnew : number base i k ∉ out := by simpa using hnew
  refine ⟨_, _, hr, h.count, List.nodup_cons.mpr ⟨hnew, h.nodup⟩, fun x hx => ?_, fun i' k' hi' hk' => ?_⟩
  · rcases List.mem_cons.mp hx with rfl | hx
    · exact ⟨i, k, ⟨hi₀, hk, hbit⟩, rfl⟩
    · exact h.own x hx
  · rw [setBits_bits]
    by_cases hik : i' = i ∧ k' = k
    · rw [if_pos hik, hik.1, hik.2]
      simp
    · have hne : number base i' k' ≠ number base i k :=
        fun he => hik (number_inj hb (by omega) hk' (by omega) hk he)
      rw [if_neg hik, h.bits i' k' hi' hk']
      simp [hne]

/-- A number that is given back clears the bit that was set for it. -/
theorem Tracks.free {x : ℕ} (h : Tracks base m₀ m out) (hb : Narrow base) (hx : x ∈ out) :
    ∃ m', freeBit base x 8 0 m = .ok m' ∧ Tracks base m₀ m' (out.erase x) := by
  obtain ⟨i, k, ⟨hi, hk, hclear⟩, rfl⟩ := h.own x hx
  have hlt := m₀.le
  have hbit : m.bits i k = true := by
    rw [h.bits i k hi hk]
    simp [hx]
  have hr := freeBit_eq (m := m) (n := 8) hb (h.count ▸ hi) hk hbit (Nat.zero_le i) (by omega) le_rfl
  refine ⟨_, hr, h.count, h.nodup.erase _, fun y hy => h.own y (List.mem_of_mem_erase hy), fun i' k' hi' hk' => ?_⟩
  rw [setBits_bits]
  by_cases hik : i' = i ∧ k' = k
  · rw [if_pos hik, hik.1, hik.2, hclear]
    simp [h.nodup.mem_erase_iff]
  · have hne : number base i' k' ≠ number base i k := fun he => hik (number_inj hb (by omega) hk' (by omega) hk he)
    rw [if_neg hik, h.bits i' k' hi' hk']
    simp [h.nodup.mem_erase_iff, hne]

end BitmapBlocks

/-! ### Zones and inodes -/

namespace Numbers

open BitmapBlocks

variable {s s' : Numbers}

/-- Of the numbers that are outstanding, each belongs to a bit. -/
structure Inv (s : Numbers) : Prop where
  first : s.sb.firstdatazone = s.initial.firstdatazone
  pos : 1 ≤ s.initial.firstdatazone.toNat
  zmaps : Tracks s.initial.zoneBase s.initial.zmaps s.sb.zmaps s.zones
  imaps : Tracks 0 s.initial.imaps s.sb.imaps s.inodes

theorem zoneBase_eq {sb : SuperMaps} (h : 1 ≤ sb.firstdatazone.toNat) :
    sb.zoneBase = sb.firstdatazone.toNat - 1 := by
  have := sb.firstdatazone.toNat_lt
  unfold SuperMaps.zoneBase
  omega

theorem Inv.narrow (h : s.Inv) : Narrow s.sb.zoneBase := by
  have := s.sb.firstdatazone.toNat_lt
  rw [zoneBase_eq (h.first ▸ h.pos)]
  unfold Narrow
  omega

theorem Inv.base (h : s.Inv) : s.sb.zoneBase = s.initial.zoneBase := by
  unfold SuperMaps.zoneBase
  rw [h.first]

/-- Every call that is made returns, and keeps the numbers apart. -/
theorem exec_inv (h : s.Inv) (e : NumberEvent) (he : s.Enabled e) : ∃ s', s.exec e = .ok s' ∧ s'.Inv := by
  have hz := h.zmaps
  rw [← h.base] at hz
  cases e with
  | balloc =>
    obtain ⟨x, m, hr, ht⟩ := hz.alloc h.narrow he
    rw [h.base] at ht
    refine ⟨{ s with sb := { s.sb with zmaps := m }, zones := x :: s.zones }, ?_, h.first, h.pos, ht, h.imaps⟩
    rw [exec, SuperMaps.balloc, show ZMAP_NR = 8 from rfl, hr]
    rfl
  | bfree idx =>
    obtain ⟨m, hr, ht⟩ := hz.free h.narrow he
    rw [h.base] at ht
    refine ⟨{ s with sb := { s.sb with zmaps := m }, zones := s.zones.erase idx }, ?_, h.first, h.pos, ht, h.imaps⟩
    rw [exec, SuperMaps.bfree, show ZMAP_NR = 8 from rfl, hr]
    rfl
  | ialloc =>
    obtain ⟨x, m, hr, ht⟩ := h.imaps.alloc (by unfold Narrow; omega) he
    refine ⟨{ s with sb := { s.sb with imaps := m }, inodes := x :: s.inodes }, ?_, h.first, h.pos, h.zmaps, ht⟩
    rw [exec, SuperMaps.ialloc, show IMAP_NR = 8 from rfl, hr]
    rfl
  | ifree idx =>
    obtain ⟨m, hr, ht⟩ := h.imaps.free (by unfold Narrow; omega) he
    refine ⟨{ s with sb := { s.sb with imaps := m }, inodes := s.inodes.erase idx }, ?_, h.first, h.pos, h.zmaps, ht⟩
    rw [exec, SuperMaps.ifree, show IMAP_NR = 8 from rfl, hr]
    rfl

theorem step_inv {e : NumberEvent} (h : s.Inv) (hs : Step s e s') : s'.Inv := by
  obtain ⟨t, ht, hinv⟩ := exec_inv h e hs.1
  rw [hs.2] at ht
  cases ht
  exact hinv

/-- Bit 0 stands for the number before the first data zone. -/
theorem Inv.data (h : s.Inv) (hbit : s.initial.zmaps.bits 0 0 = true) (z : ℕ) (hz : z ∈ s.zones) :
    s.initial.firstdatazone.toNat ≤ z := by
  obtain ⟨i, k, ⟨hi, hk, hclear⟩, rfl⟩ := h.zmaps.own z hz
  have hle := s.initial.zmaps.le
  have hbase := h.base ▸ zoneBase_eq (h.first ▸ h.pos)
  have hpos := h.pos
  have hik : i ≠ 0 ∨ k ≠ 0 := by
    by_contra hzero
    obtain ⟨rfl, rfl⟩ : i = 0 ∧ k = 0 := by omega
    rw [hbit] at hclear
    cases hclear
  have hnarrow := h.narrow
  rw [h.base] at hnarrow
  rw [number_eq hnarrow (by omega) hk, hbase, h.first]
  unfold BLOCK_BITS at *
  omega

/-- In every run the numbers are apart, their bits are the ones set, and no call halts. -/
theorem numbers_right {es : List NumberEvent}
    (h : Run (fun s => Init s ∧ 1 ≤ s.initial.firstdatazone.toNat) Step es s) :
    s.Right := by
  have hinv : s.Inv := by
    refine Run.invariant (I := Inv) ?_ (fun _ _ _ => step_inv) es s h
    rintro s ⟨⟨hz, hi, hinit⟩, hpos⟩
    refine ⟨by rw [hinit], hpos, ?_, ?_⟩
    · rw [hinit, hz]
      exact tracks_start _
    · rw [hinit, hi]
      exact tracks_start _
  refine ⟨hinv.zmaps, hinv.imaps, hinv.data, fun e he => ?_⟩
  obtain ⟨t, ht, -⟩ := exec_inv hinv e he
  exact ⟨t, ht⟩

/-- Two bitmap blocks with nothing set, and the given first data zone. -/
def clearMaps (firstdatazone : UInt16) : Numbers :=
  let sb := { firstdatazone, imaps := ⟨1, fun _ _ => false, by decide⟩, zmaps := ⟨2, fun _ _ => false, by decide⟩ }
  ⟨sb, [], [], sb⟩

theorem clearMaps_enabled (firstdatazone : UInt16) : (clearMaps firstdatazone).Enabled .balloc :=
  ⟨0, 0, Nat.zero_lt_two, by decide, rfl⟩

theorem numbers_right_first : ∃ s, (clearMaps 10).exec .balloc = .ok s ∧ s.zones = [9] ∧ s.Right := by
  obtain ⟨s, hs, hzones⟩ : ∃ s, (clearMaps 10).exec .balloc = .ok s ∧ s.zones = [9] := ⟨_, rfl, rfl⟩
  have hstart : Run (fun s => Init s ∧ 1 ≤ s.initial.firstdatazone.toNat) Step [] (clearMaps 10) :=
    .nil ⟨⟨rfl, rfl, rfl⟩, by decide⟩
  exact ⟨s, hs, hzones, numbers_right (hstart.snoc ⟨clearMaps_enabled 10, hs⟩)⟩

/-- With the base -1 the first bit is set, but its number is taken for `EOF`. -/
theorem numbers_lost : ¬ ∀ (es : List NumberEvent) (s : Numbers), Run Init Step es s → s.Right := by
  intro h
  obtain ⟨s, hs, hzones, hbit, hinit⟩ : ∃ s, (clearMaps 0).exec .balloc = .ok s ∧ s.zones = [8191] ∧
      s.sb.zmaps.bits 0 0 = true ∧ s.initial = (clearMaps 0).sb := ⟨_, rfl, rfl, rfl, rfl⟩
  have hstart : Run Init Step [] (clearMaps 0) := .nil ⟨rfl, rfl, rfl⟩
  have hr := h _ s (hstart.snoc ⟨clearMaps_enabled 0, hs⟩)
  have hb := hr.zmaps.bits 0 0 (by rw [hinit]; decide) (by decide)
  rw [hbit, hinit, hzones] at hb
  revert hb
  decide

end Numbers

end Onix
