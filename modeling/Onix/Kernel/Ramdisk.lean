import Onix.Kernel.KernelPages
import Onix.Lib.Bytes
import Onix.Lib.Transition

/-! The RAM disks of ramdisk.c. The drivers compare the end of a request with the end of the memory of
all the disks, and are handed the count as a byte. -/

set_option autoImplicit false

namespace Onix

open Lib

/-- `ramdisk_t` -/
structure Ramdisk where
  start : UInt32
  size : UInt32

namespace Ramdisk

abbrev RAMDISK_NR : ℕ := 4

def SECTOR_SIZE : UInt32 := 512

def DEV_CMD_SECTOR_START : ℤ := 1
def DEV_CMD_SECTOR_COUNT : ℤ := 2

/-- `size` of `ramdisk_init`. -/
def diskSize : UInt32 := .ofNat (KERNEL_RAMDISK_SIZE / RAMDISK_NR)

def ramdisks (i : Fin RAMDISK_NR) : Ramdisk :=
  ⟨.ofNat KERNEL_RAMDISK_MEM + diskSize * .ofNat i.val, diskSize⟩

def ramdiskInit : Except Halt (Fin RAMDISK_NR → Ramdisk) := do
  assert "size % SECTOR_SIZE == 0" (diskSize % SECTOR_SIZE = 0)
  .ok ramdisks

def ramdiskIoctl (disk : Ramdisk) (cmd : ℤ) : Except Halt UInt32 :=
  if cmd = DEV_CMD_SECTOR_START then .ok 0
  else if cmd = DEV_CMD_SECTOR_COUNT then .ok (disk.size / SECTOR_SIZE)
  else .error (.panic "device command %d can't recognize !!!")

/-- `addr` and `len` of a request, and the assertion on them. -/
def request (disk : Ramdisk) (count : UInt8) (lba : UInt32) : Except Halt (UInt32 × UInt32) := do
  let addr := disk.start + lba * SECTOR_SIZE
  let len := count.toUInt32 * SECTOR_SIZE
  assert "((uint32)addr + len) < (KERNEL_RAMDISK_MEM + KERNEL_RAMDISK_SIZE)"
    (addr + len < .ofNat (KERNEL_RAMDISK_MEM + KERNEL_RAMDISK_SIZE))
  .ok (addr, len)

def ramdiskRead (mem : ByteMem) (disk : Ramdisk) (buf : UInt32) (count : UInt8) (lba : UInt32) :
    Except Halt (ℕ × ByteMem) := do
  let (addr, len) ← disk.request count lba
  .ok (count.toNat, mem.copy buf.toNat addr.toNat len.toNat)

def ramdiskWrite (mem : ByteMem) (disk : Ramdisk) (buf : UInt32) (count : UInt8) (lba : UInt32) :
    Except Halt (ℕ × ByteMem) := do
  let (addr, len) ← disk.request count lba
  .ok (count.toNat, mem.copy addr.toNat buf.toNat len.toNat)

/-- `device_read` of a RAM disk, which takes the low byte of the `size_t`. -/
def deviceRead (mem : ByteMem) (disk : Ramdisk) (buf count idx : UInt32) : Except Halt (ℕ × ByteMem) :=
  ramdiskRead mem disk buf count.toUInt8 idx

def deviceWrite (mem : ByteMem) (disk : Ramdisk) (buf count idx : UInt32) : Except Halt (ℕ × ByteMem) :=
  ramdiskWrite mem disk buf count.toUInt8 idx

/-! ### What a disk is for -/

/-- The sectors of the disk, as its ioctl says. -/
def sectors (disk : Ramdisk) : ℕ := (disk.size / SECTOR_SIZE).toNat

/-- An address in the memory of the disk. -/
def Owns (disk : Ramdisk) (a : ℕ) : Prop := disk.start.toNat ≤ a ∧ a < disk.start.toNat + disk.size.toNat

/-- Where a sector of the disk lies. -/
def sectorAt (disk : Ramdisk) (lba : ℕ) : ℕ := disk.start.toNat + 512 * lba

/-- The request moves its sectors from the buffer to the disk, and changes nothing outside of the disk. -/
structure Written (mem mem' : ByteMem) (disk : Ramdisk) (buf n lba : ℕ) : Prop where
  sectors : mem' = mem.copy (disk.sectorAt lba) buf (512 * n)
  frame : ∀ a, ¬ disk.Owns a → mem' a = mem a

/-- The request moves its sectors, which the disk owns, from the disk to the buffer. -/
structure Delivered (mem mem' : ByteMem) (disk : Ramdisk) (buf n lba : ℕ) : Prop where
  sectors : mem' = mem.copy buf (disk.sectorAt lba) (512 * n)
  owned : ∀ a, disk.sectorAt lba ≤ a → a < disk.sectorAt lba + 512 * n → disk.Owns a

/-- A request for sectors of the disk is served, and every other one is refused. -/
structure Complete (disk : Ramdisk) (n lba : UInt32) : Prop where
  served : lba.toNat + n.toNat ≤ disk.sectors → ∀ mem (buf : UInt32),
    (∃ mem', deviceWrite mem disk buf n lba = .ok (n.toNat, mem') ∧ Written mem mem' disk buf.toNat n.toNat lba.toNat) ∧
      ∃ mem', deviceRead mem disk buf n lba = .ok (n.toNat, mem') ∧
        Delivered mem mem' disk buf.toNat n.toNat lba.toNat
  refused : disk.sectors < lba.toNat + n.toNat → ∀ mem (buf : UInt32),
    (∃ e, deviceWrite mem disk buf n lba = .error e) ∧ ∃ e, deviceRead mem disk buf n lba = .error e

/-- Where a request seems to end: the count modulo 256, and the address modulo 2^32. -/
def endAddress (i : Fin RAMDISK_NR) (n lba : UInt32) : ℕ :=
  ((ramdisks i).start.toNat + 512 * lba.toNat + 512 * (n.toNat % 256)) % 2 ^ 32

/-- The requests that are handled as they should be: those for fewer than 256 sectors of the disk that do not reach
the end of the last disk, and those beyond the disk that seem to end behind all disks. -/
def Handled (i : Fin RAMDISK_NR) (n lba : UInt32) : Prop :=
  if lba.toNat + n.toNat ≤ (ramdisks i).sectors then
    n.toNat < 256 ∧ ¬(i.val = 3 ∧ lba.toNat + n.toNat = (ramdisks i).sectors)
  else KERNEL_RAMDISK_MEM + KERNEL_RAMDISK_SIZE ≤ endAddress i n lba

theorem ramdiskInit_eq : ramdiskInit = .ok ramdisks := rfl

theorem ramdiskIoctl_count (disk : Ramdisk) : ∃ count, ramdiskIoctl disk DEV_CMD_SECTOR_COUNT = .ok count ∧
    disk.sectors = count.toNat :=
  ⟨_, rfl, rfl⟩

theorem ramdisks_start (i : Fin RAMDISK_NR) : (ramdisks i).start.toNat = 0xc00000 + 0x100000 * i.val := by
  have h : ∀ i : Fin RAMDISK_NR, (ramdisks i).start.toNat = 0xc00000 + 0x100000 * i.val := by decide
  exact h i

theorem ramdisks_sectors (i : Fin RAMDISK_NR) : (ramdisks i).sectors = 2048 := by
  change (diskSize / SECTOR_SIZE).toNat = 2048
  decide

theorem ramdisks_size (i : Fin RAMDISK_NR) : (ramdisks i).size.toNat = 0x100000 := by
  change diskSize.toNat = 0x100000
  decide

theorem region_end : KERNEL_RAMDISK_MEM + KERNEL_RAMDISK_SIZE = 0x1000000 := by decide

theorem request_toNat (i : Fin RAMDISK_NR) (n lba : UInt32) :
    ((ramdisks i).start + lba * SECTOR_SIZE).toNat = ((ramdisks i).start.toNat + 512 * lba.toNat) % 2 ^ 32 ∧
      (n.toUInt8.toUInt32 * SECTOR_SIZE).toNat = 512 * (n.toNat % 256) := by
  rw [UInt32.toNat_add, UInt32.toNat_mul, UInt32.toNat_mul, UInt8.toNat_toUInt32, UInt32.toNat_toUInt8]
  simp only [SECTOR_SIZE, UInt32.reduceToNat]
  omega

/-- The assertion looks at `endAddress`. -/
theorem request_eq (i : Fin RAMDISK_NR) (n lba : UInt32) :
    (ramdisks i).request n.toUInt8 lba = if endAddress i n lba < 0x1000000 then
      .ok ((ramdisks i).start + lba * SECTOR_SIZE, n.toUInt8.toUInt32 * SECTOR_SIZE)
    else .error (.assertion "((uint32)addr + len) < (KERNEL_RAMDISK_MEM + KERNEL_RAMDISK_SIZE)") := by
  obtain ⟨haddr, hlen⟩ := request_toNat i n lba
  have hcheck : ((ramdisks i).start + lba * SECTOR_SIZE + n.toUInt8.toUInt32 * SECTOR_SIZE <
      .ofNat (KERNEL_RAMDISK_MEM + KERNEL_RAMDISK_SIZE)) ↔ endAddress i n lba < 0x1000000 := by
    rw [UInt32.lt_iff_toNat_lt, UInt32.toNat_add, haddr, hlen, region_end, endAddress, Nat.mod_add_mod]
    rfl
  simp only [request, assert, hcheck]
  by_cases hlt : endAddress i n lba < 0x1000000
  · simp only [hlt, decide_true, if_true, ok_bind]
  · simp only [hlt, decide_false, Bool.false_eq_true, if_false, error_bind]

/-- A copy changes nothing but what it writes. -/
theorem copy_outside {mem : ByteMem} {dst src n a : ℕ} (h : a < dst ∨ dst + n ≤ a) : mem.copy dst src n a = mem a :=
  ByteMem.put_of_outside (by rwa [ByteMem.length_get])

theorem copy_inside {mem : ByteMem} {dst src n k : ℕ} (h : k < n) : mem.copy dst src n (dst + k) = mem (src + k) := by
  have hlt : k < (mem.get src n).length := by rwa [ByteMem.length_get]
  rw [ByteMem.copy, ByteMem.holds_put k hlt]
  simp [ByteMem.get]

/-- The memory and the buffer of the request do not matter: one write shows whether it is handled. -/
theorem handled_of_complete {i : Fin RAMDISK_NR} {n lba : UInt32} (h : Complete (ramdisks i) n lba) :
    Handled i n lba := by
  have hstart := ramdisks_start i
  have hi : i.val < 4 := i.isLt
  unfold Handled
  rw [ramdisks_sectors, region_end]
  split_ifs with hfit
  · obtain ⟨⟨mem', hw, -⟩, -⟩ := h.served (by rwa [ramdisks_sectors]) (fun _ => 0) 0
    unfold deviceWrite ramdiskWrite at hw
    rw [request_eq] at hw
    split_ifs at hw with hend
    · rw [ok_bind, Except.ok.injEq, Prod.mk.injEq, UInt32.toNat_toUInt8] at hw
      have hcount := hw.1
      refine ⟨by omega, ?_⟩
      rintro ⟨h3, hlast⟩
      unfold endAddress at hend
      omega
    · cases hw
  · obtain ⟨⟨e, hw⟩, -⟩ := h.refused (by rw [ramdisks_sectors]; omega) (fun _ => 0) 0
    unfold deviceWrite ramdiskWrite at hw
    rw [request_eq] at hw
    split_ifs at hw with hend
    · cases hw
    · omega

theorem complete_of_handled {i : Fin RAMDISK_NR} {n lba : UInt32} (h : Handled i n lba) :
    Complete (ramdisks i) n lba := by
  obtain ⟨haddr, hlen⟩ := request_toNat i n lba
  have hstart := ramdisks_start i
  have hi : i.val < 4 := i.isLt
  unfold Handled at h
  rw [ramdisks_sectors, region_end] at h
  split_ifs at h with hfit
  · refine ⟨fun _ mem buf => ?_, fun hover => absurd hfit (by rw [ramdisks_sectors] at hover; omega)⟩
    have hend : endAddress i n lba < 0x1000000 := by
      unfold endAddress
      omega
    have hcount : n.toUInt8.toNat = n.toNat := by
      rw [UInt32.toNat_toUInt8]
      omega
    have haddr' : ((ramdisks i).start + lba * SECTOR_SIZE).toNat = (ramdisks i).sectorAt lba.toNat := by
      rw [haddr, sectorAt]
      omega
    have hlen' : (n.toUInt8.toUInt32 * SECTOR_SIZE).toNat = 512 * n.toNat := by omega
    have howned : ∀ a, (ramdisks i).sectorAt lba.toNat ≤ a → a < (ramdisks i).sectorAt lba.toNat + 512 * n.toNat →
        (ramdisks i).Owns a := by
      intro a hlo hhi
      unfold sectorAt at hlo hhi
      unfold Owns
      rw [ramdisks_size]
      omega
    refine ⟨⟨mem.copy ((ramdisks i).sectorAt lba.toNat) buf.toNat (512 * n.toNat), ?_, rfl, fun a ha => ?_⟩,
      mem.copy buf.toNat ((ramdisks i).sectorAt lba.toNat) (512 * n.toNat), ?_, rfl, howned⟩
    · unfold deviceWrite ramdiskWrite
      rw [request_eq, if_pos hend, ok_bind, hcount]
      dsimp only
      rw [haddr', hlen']
    · refine copy_outside ?_
      by_contra hc
      exact ha (howned a (by omega) (by omega))
    · unfold deviceRead ramdiskRead
      rw [request_eq, if_pos hend, ok_bind, hcount]
      dsimp only
      rw [haddr', hlen']
  · refine ⟨fun hfit' => absurd (by rwa [ramdisks_sectors] at hfit') hfit, fun _ mem buf => ?_⟩
    have hend : ¬ endAddress i n lba < 0x1000000 := by omega
    unfold deviceWrite ramdiskWrite deviceRead ramdiskRead
    rw [request_eq, if_neg hend]
    exact ⟨⟨_, rfl⟩, _, rfl⟩

/-- The RAM disks serve the requests that fit and refuse the others exactly for the handled requests. -/
theorem ramdisk_complete_iff (i : Fin RAMDISK_NR) (n lba : UInt32) :
    Complete (ramdisks i) n lba ↔ Handled i n lba :=
  ⟨handled_of_complete, complete_of_handled⟩

/-- The last two sectors of the last disk cannot be read. -/
theorem ramdisk_incomplete : ¬∀ (i : Fin RAMDISK_NR) (n lba : UInt32), Complete (ramdisks i) n lba := by
  intro hall
  have hserved := (hall 3 2 2046).served (by rw [ramdisks_sectors]; decide) (fun _ => 0) 0
  obtain ⟨⟨mem', hw, -⟩, -⟩ := hserved
  unfold deviceWrite ramdiskWrite at hw
  rw [request_eq, if_neg (by decide)] at hw
  cases hw

/-! ### Runs -/

/-- The memory, and what was last written to every byte of every disk. -/
structure Disks where
  mem : ByteMem
  last : Fin RAMDISK_NR → ℕ → UInt8

inductive Use
  | write (i : Fin RAMDISK_NR) (buf n lba : UInt32)
  | read (i : Fin RAMDISK_NR) (buf n lba : UInt32)
  /-- The rest of the kernel. -/
  | other

/-- The memory of the RAM disks. -/
def Region (a : ℕ) : Prop := KERNEL_RAMDISK_MEM ≤ a ∧ a < KERNEL_RAMDISK_MEM + KERNEL_RAMDISK_SIZE

def Disks.Step (s : Disks) : Use → Disks → Prop
  | .write i buf n lba, s' => (∃ r, deviceWrite s.mem (ramdisks i) buf n lba = .ok (r, s'.mem)) ∧
      s'.last = Function.update s.last i fun k =>
        if 512 * lba.toNat ≤ k ∧ k < 512 * (lba.toNat + n.toNat) then s.mem (buf.toNat + (k - 512 * lba.toNat))
        else s.last i k
  | .read i buf n lba, s' => (∃ r, deviceRead s.mem (ramdisks i) buf n lba = .ok (r, s'.mem)) ∧ s'.last = s.last
  | .other, s' => (∀ a, Region a → s'.mem a = s.mem a) ∧ s'.last = s.last

/-- A handled request for sectors of the disk, with a buffer outside of the RAM disks. -/
def Proper (_ : Disks) : Use → Prop
  | .write i buf n lba | .read i buf n lba => lba.toNat + n.toNat ≤ (ramdisks i).sectors ∧ Handled i n lba ∧
      ∀ a, buf.toNat ≤ a → a < buf.toNat + 512 * n.toNat → ¬ Region a
  | .other => True

/-- The memory of every disk holds what was last written to it. -/
def Disks.Kept (s : Disks) : Prop :=
  ∀ i k, k < 0x100000 → s.mem ((ramdisks i).start.toNat + k) = s.last i k

theorem region_of_disk (i : Fin RAMDISK_NR) {k : ℕ} (hk : k < 0x100000) : Region ((ramdisks i).start.toNat + k) := by
  have hi : i.val < 4 := i.isLt
  have hmem : KERNEL_RAMDISK_MEM = 0xc00000 := by decide
  unfold Region
  rw [region_end, ramdisks_start, hmem]
  omega

/-- Two disks have no address in common. -/
theorem owns_unique {i j : Fin RAMDISK_NR} {a : ℕ} (hi : (ramdisks i).Owns a) (hj : (ramdisks j).Owns a) : i = j := by
  unfold Owns at hi hj
  rw [ramdisks_start, ramdisks_size] at hi hj
  ext
  omega

theorem kept_step {s s' : Disks} {u : Use} (h : s.Kept) (hs : Restrict Proper Disks.Step s u s') : s'.Kept := by
  obtain ⟨hok, hstep⟩ := hs
  cases u with
  | write i buf n lba =>
    obtain ⟨hfit, hhandled, -⟩ := hok
    obtain ⟨⟨r, hw⟩, hlast⟩ := hstep
    obtain ⟨⟨mem', hw', hwritten⟩, -⟩ := (complete_of_handled hhandled).served hfit s.mem buf
    rw [hw, Except.ok.injEq, Prod.mk.injEq] at hw'
    rw [← hw'.2] at hwritten
    rw [ramdisks_sectors] at hfit
    intro j k hk
    rw [hlast]
    by_cases hji : j = i
    · subst hji
      rw [Function.update_self, hwritten.sectors]
      split_ifs with hin
      · have hsplit : (ramdisks j).start.toNat + k =
            (ramdisks j).sectorAt lba.toNat + (k - 512 * lba.toNat) := by
          unfold sectorAt
          omega
        rw [hsplit, copy_inside (by omega)]
      · rw [copy_outside (by unfold sectorAt; omega)]
        exact h j k hk
    · rw [Function.update_of_ne hji, hwritten.frame _ fun howns => hji ?_]
      · exact h j k hk
      · refine owns_unique (a := (ramdisks j).start.toNat + k) ?_ howns
        unfold Owns
        rw [ramdisks_size]
        omega
  | read i buf n lba =>
    obtain ⟨hfit, hhandled, hbuf⟩ := hok
    obtain ⟨⟨r, hr⟩, hlast⟩ := hstep
    obtain ⟨-, mem', hr', hread⟩ := (complete_of_handled hhandled).served hfit s.mem buf
    rw [hr, Except.ok.injEq, Prod.mk.injEq] at hr'
    rw [← hr'.2] at hread
    intro j k hk
    rw [hlast, hread.sectors, copy_outside]
    · exact h j k hk
    · by_contra hc
      exact hbuf _ (by omega) (by omega) (region_of_disk j hk)
  | other =>
    intro j k hk
    rw [hstep.2, hstep.1 _ (region_of_disk j hk)]
    exact h j k hk

/-- In a run of handled requests every read delivers what was last written to its sectors of its disk. -/
theorem ramdisk_reads_back {init : Disks → Prop} (h₀ : ∀ s, init s → s.Kept) {us : List Use} {s : Disks}
    (hrun : Run init (Restrict Proper Disks.Step) us s) {i : Fin RAMDISK_NR} {buf n lba : UInt32} {s' : Disks}
    (hread : Restrict Proper Disks.Step s (.read i buf n lba) s') {k : ℕ} (hk : k < 512 * n.toNat) :
    s'.mem (buf.toNat + k) = s.last i (512 * lba.toNat + k) := by
  have hkept := Run.invariant h₀ (fun _ _ _ => kept_step) us s hrun
  obtain ⟨⟨hfit, hhandled, -⟩, ⟨r, hr⟩, -⟩ := hread
  obtain ⟨-, mem', hr', hdelivered⟩ := (complete_of_handled hhandled).served hfit s.mem buf
  rw [hr, Except.ok.injEq, Prod.mk.injEq] at hr'
  rw [ramdisks_sectors] at hfit
  rw [hr'.2, hdelivered.sectors, copy_inside hk, ← hkept i _ (by omega), sectorAt, Nat.add_assoc]

end Ramdisk
end Onix
