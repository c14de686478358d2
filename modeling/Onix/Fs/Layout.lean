import Mathlib.Order.Interval.Finset.Nat
import Onix.Fs.Inode
import Onix.Kernel.Memory

/-! Where `devmkfs` of super.c puts the parts of a file system, and where `iget` looks
for an inode in it. -/

set_option autoImplicit false

namespace Onix

open Lib

namespace Layout

def BLOCK_SIZE : UInt32 := 1024
def BLOCK_BITS : UInt32 := 8192
def MAP_NR : ℕ := 8
/-- `sizeof(inode_desc_t)` -/
def INODE_SIZE : UInt32 := 32

/-- The numbers of `super_desc_t`, and the blocks that the bitmaps of the super block are read from. -/
structure SuperBlock extends SuperDesc where
  inodes : UInt16
  zones : UInt16
  firstdatazone : UInt16
  imaps : List ℕ
  zmaps : List ℕ

/-- The loops that read the bitmaps: `count` blocks from `idx` on, and the index behind them. -/
def readMaps : ℕ → ℕ → List ℕ × ℕ
  | 0, idx => ([], idx)
  | count + 1, idx =>
    let (maps, idx') := readMaps count (idx + 1)
    (idx :: maps, idx')

/-- The inodes that `devmkfs` makes: a third of the blocks if the caller names no number. -/
def inodeCount (totalBlock icount : UInt32) : UInt32 := if icount = 0 then totalBlock / 3 else icount

/-- `devmkfs` up to the bitmaps. The sizes are kept in the 16 bits of the super block. -/
def devmkfs (totalBlock icount : UInt32) : Except Halt SuperBlock := do
  assert "total_block" (totalBlock != 0)
  assert "icount < total_block" (icount < totalBlock)
  let icount := inodeCount totalBlock icount
  let inodeBlocks := divRoundUp (icount * INODE_SIZE) BLOCK_SIZE
  let imapBlocks := (divRoundUp icount BLOCK_BITS).toUInt16
  let zcount := totalBlock - imapBlocks.toUInt32 - inodeBlocks - 2
  let zmapBlocks := (divRoundUp zcount BLOCK_BITS).toUInt16
  let firstdatazone := (2 + imapBlocks.toUInt32 + zmapBlocks.toUInt32 + inodeBlocks).toUInt16
  let (imaps, idx) := readMaps imapBlocks.toNat 2
  let (zmaps, _) := readMaps zmapBlocks.toNat idx
  .ok { imapBlocks, zmapBlocks, inodes := icount.toUInt16, zones := totalBlock.toUInt16, firstdatazone, imaps, zmaps }

/-- Where `iget` finds an inode: its block, and the index in that block. -/
def place (sb : SuperDesc) (nr : UInt32) : UInt32 × UInt32 := (inodeBlock sb nr, (nr - 1) % BLOCK_INODES)

/-- The parts of a device: super block, inode bitmap, zone bitmap, inode table and data zones. -/
def SuperBlock.regions (sb : SuperBlock) : List (Finset ℕ) :=
  let zmap := 2 + sb.imapBlocks.toNat
  let table := zmap + sb.zmapBlocks.toNat
  [{1}, Finset.Ico 2 zmap, Finset.Ico zmap table, Finset.Ico table sb.firstdatazone.toNat,
    Finset.Ico sb.firstdatazone.toNat sb.zones.toNat]

theorem readMaps_eq (count idx : ℕ) : readMaps count idx = (List.range' idx count, idx + count) := by
  induction count generalizing idx with
  | zero => rfl
  | succ count ih =>
    rw [readMaps, ih, List.range'_succ]
    simp only [Prod.mk.injEq, true_and]
    omega

theorem toNat_sub_cases (a b : UInt32) : b.toNat ≤ a.toNat ∧ (a - b).toNat = a.toNat - b.toNat ∨
    a.toNat < b.toNat ∧ (a - b).toNat = a.toNat + 4294967296 - b.toNat := by
  have ha := a.toNat_lt
  have hb := b.toNat_lt
  rw [UInt32.toNat_sub]
  omega

/-- Rounding up does not wrap, or the number was negative and small. -/
theorem divRoundUp_bits (num : UInt32) :
    (divRoundUp num BLOCK_BITS).toNat = (num.toNat + 8191) % 4294967296 / 8192 := by
  have hone : (1 : UInt32).toNat = 1 := rfl
  have hbits : BLOCK_BITS.toNat = 8192 := rfl
  rw [divRoundUp, UInt32.toNat_div, UInt32.toNat_sub, UInt32.toNat_add, hone, hbits]
  omega

theorem divRoundUp_inodes {n : UInt32} (h : n.toNat ≤ 65535) :
    (divRoundUp (n * INODE_SIZE) BLOCK_SIZE).toNat = (n.toNat + 31) / 32 := by
  have hone : (1 : UInt32).toNat = 1 := rfl
  have hsize : INODE_SIZE.toNat = 32 := rfl
  have hblock : BLOCK_SIZE.toNat = 1024 := rfl
  rw [divRoundUp, UInt32.toNat_div, UInt32.toNat_sub, UInt32.toNat_add, UInt32.toNat_mul, hone, hsize, hblock]
  omega

theorem inodeCount_le {totalBlock icount : UInt32} (h : icount < totalBlock) :
    (inodeCount totalBlock icount).toNat ≤ totalBlock.toNat := by
  have hthree : (3 : UInt32).toNat = 3 := rfl
  rw [UInt32.lt_iff_toNat_lt] at h
  unfold inodeCount
  split_ifs
  · rw [UInt32.toNat_div, hthree]
    omega
  · omega

/-- The numbers that `devmkfs` writes for `n` inodes; none of them loses a bit. -/
structure Sized (sb : SuperBlock) (n : ℕ) : Prop where
  imap : sb.imapBlocks.toNat = (n + 8191) / 8192
  zmap : sb.zmapBlocks.toNat ≤ MAP_NR
  first : sb.firstdatazone.toNat = 2 + sb.imapBlocks.toNat + sb.zmapBlocks.toNat + (n + 31) / 32
  imaps : sb.imaps = List.range' 2 sb.imapBlocks.toNat
  zmaps : sb.zmaps = List.range' (2 + sb.imapBlocks.toNat) sb.zmapBlocks.toNat

theorem devmkfs_sized {totalBlock icount : UInt32} {sb : SuperBlock} (ht : totalBlock.toNat ≤ 65535)
    (h : devmkfs totalBlock icount = .ok sb) :
    Sized sb (inodeCount totalBlock icount).toNat ∧ (inodeCount totalBlock icount).toNat ≤ 65535 := by
  unfold devmkfs at h
  obtain ⟨_, -, h⟩ := bind_ok.mp h
  obtain ⟨_, hlt, h⟩ := bind_ok.mp h
  have hn := (inodeCount_le (by simpa using hlt)).trans ht
  generalize inodeCount totalBlock icount = n at h hn ⊢
  simp only [readMaps_eq, Except.ok.injEq] at h
  subst h
  have htable := divRoundUp_inodes hn
  have himap : (divRoundUp n BLOCK_BITS).toUInt16.toNat = (n.toNat + 8191) / 8192 := by
    rw [UInt32.toNat_toUInt16, divRoundUp_bits]
    omega
  have htwo : (2 : UInt32).toNat = 2 := rfl
  generalize divRoundUp (n * INODE_SIZE) BLOCK_SIZE = inodeBlocks at htable ⊢
  generalize (divRoundUp n BLOCK_BITS).toUInt16 = imapBlocks at himap ⊢
  -- a negative rest of the blocks is one of at most 2058
  have hzmap : (divRoundUp (totalBlock - imapBlocks.toUInt32 - inodeBlocks - 2) BLOCK_BITS).toNat ≤ 8 := by
    have hsub := toNat_sub_cases totalBlock imapBlocks.toUInt32
    have hsub' := toNat_sub_cases (totalBlock - imapBlocks.toUInt32) inodeBlocks
    have hsub'' := toNat_sub_cases (totalBlock - imapBlocks.toUInt32 - inodeBlocks) 2
    rw [UInt16.toNat_toUInt32, himap] at hsub
    rw [htable] at hsub'
    rw [htwo] at hsub''
    rw [divRoundUp_bits]
    omega
  generalize divRoundUp (totalBlock - imapBlocks.toUInt32 - inodeBlocks - 2) BLOCK_BITS = zmapBlocks at hzmap ⊢
  have hz : zmapBlocks.toUInt16.toNat = zmapBlocks.toNat := by
    rw [UInt32.toNat_toUInt16]
    omega
  refine ⟨⟨himap, hz.le.trans hzmap, ?_, rfl, rfl⟩, hn⟩
  dsimp only
  rw [UInt32.toNat_toUInt16]
  simp only [UInt32.toNat_add, UInt16.toNat_toUInt32, himap, htable, htwo, hz]
  omega

/-- The block of an inode lies in the table, and its index in the block. -/
theorem place_toNat {sb : SuperBlock} {n : ℕ} (hs : Sized sb n) (hmax : n ≤ 65535) {nr : UInt32} (hlow : 1 ≤ nr.toNat)
    (hhigh : nr.toNat ≤ n) :
    (place sb.toSuperDesc nr).1.toNat = 2 + sb.imapBlocks.toNat + sb.zmapBlocks.toNat + (nr.toNat - 1) / 32 ∧
      (place sb.toSuperDesc nr).2.toNat = (nr.toNat - 1) % 32 := by
  have himap := hs.imap
  have hzmap : sb.zmapBlocks.toNat ≤ 8 := hs.zmap
  have hone : (1 : UInt32).toNat = 1 := rfl
  have htwo : (2 : UInt32).toNat = 2 := rfl
  have hinodes : BLOCK_INODES.toNat = 32 := rfl
  have hpred : (nr - 1).toNat = nr.toNat - 1 := by
    rw [UInt32.toNat_sub, hone]
    have := nr.toNat_lt
    omega
  constructor
  · rw [place, inodeBlock]
    simp only [UInt32.toNat_add, UInt32.toNat_div, UInt16.toNat_toUInt32, hpred, htwo, hinodes]
    omega
  · rw [place, UInt32.toNat_mod, hpred, hinodes]

/-- The parts that `devmkfs` lays out follow each other without an overlap, and `iget` finds every inode in the
table, each in a place of its own. -/
theorem devmkfs_layout {totalBlock icount : UInt32} {sb : SuperBlock} (ht : totalBlock.toNat ≤ 65535)
    (h : devmkfs totalBlock icount = .ok sb) :
    sb.regions.Pairwise (fun r r' => ∀ x ∈ r, ∀ y ∈ r', x < y) ∧
    (sb.imaps.toFinset = Finset.Ico 2 (2 + sb.imapBlocks.toNat) ∧
      sb.zmaps.toFinset = Finset.Ico (2 + sb.imapBlocks.toNat) (2 + sb.imapBlocks.toNat + sb.zmapBlocks.toNat)) ∧
    (∀ nr : UInt32, 1 ≤ nr → nr ≤ inodeCount totalBlock icount →
      2 + sb.imapBlocks.toNat + sb.zmapBlocks.toNat ≤ (place sb.toSuperDesc nr).1.toNat ∧
      (place sb.toSuperDesc nr).1.toNat < sb.firstdatazone.toNat ∧ (place sb.toSuperDesc nr).2 < BLOCK_INODES) ∧
    (∀ nr nr' : UInt32, 1 ≤ nr → nr ≤ inodeCount totalBlock icount → 1 ≤ nr' → nr' ≤ inodeCount totalBlock icount →
      place sb.toSuperDesc nr = place sb.toSuperDesc nr' → nr = nr') := by
  obtain ⟨hs, hn⟩ := devmkfs_sized ht h
  have hplace : ∀ nr : UInt32, 1 ≤ nr → nr ≤ inodeCount totalBlock icount → 1 ≤ nr.toNat ∧
      nr.toNat ≤ (inodeCount totalBlock icount).toNat := fun nr hlow hhigh =>
    ⟨UInt32.le_iff_toNat_le.mp hlow, UInt32.le_iff_toNat_le.mp hhigh⟩
  have hfirst := hs.first
  refine ⟨?_, ⟨?_, ?_⟩, ?_, ?_⟩
  · simp only [SuperBlock.regions, List.pairwise_cons, List.mem_cons, List.not_mem_nil, or_false, forall_eq_or_imp,
      forall_eq, Finset.mem_singleton, Finset.mem_Ico, List.Pairwise.nil, and_true, false_imp_iff, implies_true]
    constructorm* _ ∧ _ <;> intros <;> omega
  · rw [hs.imaps]
    ext x
    simp [List.mem_range'_1]
  · rw [hs.zmaps]
    ext x
    simp [List.mem_range'_1]
  · intro nr hlow hhigh
    obtain ⟨hlow, hhigh⟩ := hplace nr hlow hhigh
    obtain ⟨hblock, hslot⟩ := place_toNat hs hn hlow hhigh
    have hinodes : BLOCK_INODES.toNat = 32 := rfl
    rw [UInt32.lt_iff_toNat_lt, hblock, hslot, hinodes]
    omega
  · intro nr nr' hlow hhigh hlow' hhigh' heq
    obtain ⟨hlow, hhigh⟩ := hplace nr hlow hhigh
    obtain ⟨hlow', hhigh'⟩ := hplace nr' hlow' hhigh'
    obtain ⟨hblock, hslot⟩ := place_toNat hs hn hlow hhigh
    obtain ⟨hblock', hslot'⟩ := place_toNat hs hn hlow' hhigh'
    rw [heq] at hblock hslot
    exact UInt32.toNat_inj.mp (by omega)

/-- What `devmkfs` makes of 10000 blocks if the caller names no number of inodes. -/
def third : SuperBlock where
  imapBlocks := 1
  zmapBlocks := 2
  inodes := 3333
  zones := 10000
  firstdatazone := 110
  imaps := [2]
  zmaps := [3, 4]

theorem devmkfs_layout_third : 5 ≤ (place third.toSuperDesc 3333).1.toNat ∧
    (place third.toSuperDesc 3333).1.toNat < third.firstdatazone.toNat ∧
    (place third.toSuperDesc 3333).2 < BLOCK_INODES :=
  (@devmkfs_layout 10000 0 third (by decide) rfl).2.2.1 3333 (by decide) (by decide)

end Layout
end Onix
