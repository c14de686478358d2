import Onix.Fs.Holes
import Onix.Kernel.Buffer

/-! The offset of an open file at its limits. `off_t` has no sign and 32 bits, `sys_lseek` adds to it without a check,
and a write looks at the size of the largest file only when `bmap` is given a block behind it. -/

set_option autoImplicit false

namespace Onix

open Lib SharedWrite

/-- The size of the largest file. -/
def MAX_SIZE : ℕ := TOTAL_BLOCK * BLOCK_SIZE

/-- The assertion of `bmap`. -/
def badBlock : Halt := .assertion "block >= 0 && block < TOTAL_BLOCK"

/-- A regular file that is open. `want` is a record: the offset in the integers. -/
structure Seeker where
  file : Sparse
  want : ℤ

/-- A displacement is a number with a sign. -/
inductive SeekCall
  | lseek (offset : Int32) (whence : Whence)
  | read (len : ℕ)
  | write (bytes : List UInt8)

namespace Sparse

/-- `sys_lseek`, with the offset that it returns. -/
def sysLseekCall (s : Sparse) (offset : Int32) (whence : Whence) : Except Halt (Int32 × Sparse) :=
  .ok ((s.sysLseek offset.toUInt32 whence).offset.toInt32, s.sysLseek offset.toUInt32 whence)

def sysRead (inode : Ino) (flags : UInt32) (s : Sparse) (len : ℕ) : Except Halt (Int32 × Sparse) := do
  assert "len > 0" (0 < len)
  if flags &&& O_ACCMODE = O_WRONLY then .ok (EOF, s)
  else match ← s.inodeRead inode len s.offset.toNat with
    | none => .ok (EOF, s)
    | some bytes => .ok (.ofNat bytes.length, { s with offset := s.offset + UInt32.ofNat bytes.length })

/-- `sys_write`, with the number that it returns. -/
def sysWriteCall (inode : Ino) (flags : UInt32) (s : Sparse) (bytes : List UInt8) : Except Halt (Int32 × Sparse) := do
  assert "len > 0" (0 < bytes.length)
  if flags &&& O_ACCMODE = O_RDONLY then .ok (EOF, s)
  else
    let s ← s.sysWrite inode bytes
    .ok (.ofNat bytes.length, s)

def call (inode : Ino) (flags : UInt32) (s : Sparse) : SeekCall → Except Halt (Int32 × Sparse)
  | .lseek offset whence => s.sysLseekCall offset whence
  | .read len => s.sysRead inode flags len
  | .write bytes => s.sysWriteCall inode flags bytes

/-- Where a displacement starts. -/
def origin (s : Sparse) : Whence → ℤ
  | .seekSet => 0
  | .seekCur => s.offset.toNat
  | .seekEnd => s.size

/-- The target of a seek has 32 bits, and a write ends in the largest file. -/
def InRange (flags : UInt32) (s : Sparse) : SeekCall → Prop
  | .lseek offset whence => 0 ≤ s.origin whence + offset.toInt ∧ s.origin whence + offset.toInt < 2 ^ 32
  | .read _ => True
  | .write bytes => flags &&& O_ACCMODE = O_RDONLY ∨ s.offset.toNat + bytes.length ≤ MAX_SIZE

end Sparse

namespace Seeker

/-- Where a seek is to go. -/
def target (m : Seeker) (offset : Int32) : Whence → ℤ
  | .seekSet => offset.toInt
  | .seekCur => m.want + offset.toInt
  | .seekEnd => m.file.size + offset.toInt

/-- The offset after a call: what is to be refused leaves it. -/
def next (flags : UInt32) (m : Seeker) : SeekCall → ℤ
  | .lseek offset whence => if m.target offset whence < 0 then m.want else m.target offset whence
  | .read len =>
    if flags &&& O_ACCMODE = O_WRONLY ∨ m.file.size ≤ m.want then m.want else m.want + min (len : ℤ) (m.file.size - m.want)
  | .write bytes =>
    if flags &&& O_ACCMODE = O_RDONLY ∨ m.want + bytes.length > MAX_SIZE then m.want else m.want + bytes.length

/-- A call, with the offset in the integers kept along. A length is an `int`. -/
structure Step (inode : Ino) (flags : UInt32) (m : Seeker) (c : SeekCall) (m' : Seeker) : Prop where
  length : match c with
    | .lseek _ _ => True
    | .read len => len < 2 ^ 31
    | .write bytes => bytes.length < 2 ^ 31
  call : ∃ ret, m.file.call inode flags c = .ok (ret, m'.file)
  want : m'.want = m.next flags c

/-- Any file, of a size in 32 bits, at any offset. -/
def Init (m : Seeker) : Prop := m.file.size < 2 ^ 32 ∧ m.want = m.file.offset.toNat

/-- What the calls are to do: refuse a negative target, move the offset by what was moved, refuse to write behind the
largest file, and come to no block that `bmap` does not know. -/
def Lawful (inode : Ino) (flags : UInt32) (m : Seeker) : SeekCall → Prop
  | .lseek offset whence => ∃ ret s', m.file.call inode flags (.lseek offset whence) = .ok (ret, s') ∧
      if m.target offset whence < 0 then ret = EOF ∧ s' = m.file
      else (s'.offset.toNat : ℤ) = m.target offset whence ∧ s' = { m.file with offset := s'.offset }
  | .read len => ∀ ret s', m.file.call inode flags (.read len) = .ok (ret, s') →
      (s'.offset.toNat : ℤ) = m.next flags (.read len)
  | .write bytes =>
    if flags &&& O_ACCMODE ≠ O_RDONLY ∧ m.want + bytes.length > MAX_SIZE then
      m.file.call inode flags (.write bytes) = .ok (EOF, m.file)
    else m.file.call inode flags (.write bytes) ≠ .error badBlock ∧
      ∀ ret s', m.file.call inode flags (.write bytes) = .ok (ret, s') →
        (s'.offset.toNat : ℤ) = m.next flags (.write bytes)

end Seeker

/-! ### The numbers -/

/-- The offset after a seek, in 32 bits. -/
theorem add_displacement (a : UInt32) (d : Int32) :
    ((a + d.toUInt32).toNat : ℤ) = (a.toNat + d.toInt) % 2 ^ 32 := by
  have hd : d.toInt = if 2 * d.toUInt32.toNat < 2 ^ 32 then (d.toUInt32.toNat : ℤ)
      else (d.toUInt32.toNat : ℤ) - (2 ^ 32 : ℕ) := BitVec.toInt_eq_toNat_cond _
  have hlt := d.toUInt32.toNat_lt
  rw [UInt32.toNat_add, hd]
  split_ifs <;> push_cast <;> omega

theorem add_length (a : UInt32) {n : ℕ} (h : a.toNat + n < 2 ^ 32) : (a + UInt32.ofNat n).toNat = a.toNat + n := by
  rw [UInt32.toNat_add, UInt32.toNat_ofNat']
  omega

namespace ZoneStore

variable {inode : Ino} {z z' : ZoneStore}

/-- What is read is as long as it was to be. -/
theorem readFrom_length {rounds offset left : ℕ} {bytes : List UInt8} (hle : left ≤ rounds)
    (h : z.readFrom inode rounds offset left = .ok bytes) : bytes.length = left := by
  induction rounds generalizing offset left bytes with
  | zero =>
    cases h
    simp only [List.length_nil]
    omega
  | succ rounds ih =>
    rw [readFrom] at h
    split_ifs at h with hleft
    · cases h
      exact hleft.symm
    · obtain ⟨⟨idx, z₁⟩, -, h⟩ := bind_ok.mp h
      obtain ⟨_, -, h⟩ := bind_ok.mp h
      obtain ⟨rest, hrest, h⟩ := bind_ok.mp h
      cases h
      have hmod : offset % BLOCK_SIZE < BLOCK_SIZE := Nat.mod_lt _ (by decide)
      have := ih (by omega) hrest
      rw [List.length_append, List.length_map, List.length_range, this]
      omega

theorem allocFrom_block (bits : ℕ → Bool) (blocks n i : ℕ) :
    Meets (· = badBlock) (allocFrom bits blocks n i) fun _ => True := by
  induction n generalizing i with
  | zero => exact meets_ok.mpr trivial
  | succ n ih =>
    refine Meets.assert_bind (fun _ => by decide) fun _ => ?_
    split
    · exact meets_ok.mpr trivial
    · exact ih (i + 1)

theorem touch_block (z : ZoneStore) (dev : ℕ) (create : Bool) (slot : ZoneSlot) :
    Meets (· = badBlock) (z.touch dev create slot) fun _ => True := by
  unfold touch
  split_ifs
  · exact meets_ok.mpr trivial
  · exact meets_ok.mpr trivial
  · refine Meets.bind (Q := fun _ => True) (Meets.bind (Q := fun _ => True) ?_ fun _ _ => meets_ok.mpr trivial)
      fun _ _ => meets_ok.mpr trivial
    refine (allocFrom_block ..).bind fun r _ => ?_
    split <;> exact meets_ok.mpr trivial

/-- `reckon` does not fail the assertion of `bmap`. -/
theorem reckon_block (dev : ℕ) (create : Bool) (indexes : List ℕ) (z : ZoneStore) (slot : ZoneSlot) :
    Meets (· = badBlock) (z.reckon dev create indexes slot) fun _ => True := by
  induction indexes generalizing z slot with
  | nil =>
    refine (touch_block z dev create slot).bind fun r _ => ?_
    split <;> exact meets_ok.mpr trivial
  | cons index indexes ih =>
    refine (touch_block z dev create slot).bind fun r _ => ?_
    split
    · exact meets_ok.mpr trivial
    · exact ih _ _

theorem writeFrom_block {rounds : ℕ} {p : Progress} (hstart : p.start ≤ p.offset)
    (hend : p.start + p.bytes.length ≤ MAX_SIZE) : Meets (· = badBlock) (writeFrom inode rounds p z) fun _ => True := by
  induction rounds generalizing p z with
  | zero => exact meets_ok.mpr trivial
  | succ rounds ih =>
    rw [writeFrom]
    split_ifs with hp
    · have hblock : p.offset / BLOCK_SIZE < TOTAL_BLOCK := by
        rw [Nat.div_lt_iff_lt_mul (by decide)]
        exact hp.trans_le hend
      refine Meets.bind (Q := fun _ => True) ?_ fun r _ => ?_
      · exact Meets.assert_bind (fun hb => absurd hblock (of_decide_eq_false hb)) fun _ => reckon_block ..
      · exact Meets.assert_bind (fun _ => by decide) fun _ => ih (hstart.trans (Nat.le_add_right ..)) hend
    · exact meets_ok.mpr trivial

end ZoneStore

namespace Sparse

variable {inode : Ino} {flags : UInt32} {s s' : Sparse} {ret : Int32}

/-- A seek goes to its target, as far as 32 bits reach. -/
theorem sysLseek_offset (hsize : s.size < 2 ^ 32) (offset : Int32) (whence : Whence) :
    ((s.sysLseek offset.toUInt32 whence).offset.toNat : ℤ) = (s.origin whence + offset.toInt) % 2 ^ 32 := by
  cases whence with
  | seekSet =>
    have := add_displacement 0 offset
    rwa [UInt32.zero_add] at this
  | seekCur => exact add_displacement s.offset offset
  | seekEnd =>
    have := add_displacement (UInt32.ofNat s.size) offset
    rwa [UInt32.toNat_ofNat', Nat.mod_eq_of_lt hsize] at this

theorem sysLseek_same (offset : UInt32) (whence : Whence) :
    s.sysLseek offset whence = { s with offset := (s.sysLseek offset whence).offset } := by
  cases whence <;> rfl

/-- A read that returns: nothing behind the end, else what is left of the file. -/
theorem sysRead_offset {len : ℕ} (hsize : s.size < 2 ^ 32) (h : s.sysRead inode flags len = .ok (ret, s')) :
    s'.size = s.size ∧ s'.offset.toNat = if flags &&& O_ACCMODE = O_WRONLY ∨ s.size ≤ s.offset.toNat then s.offset.toNat
      else s.offset.toNat + min len (s.size - s.offset.toNat) := by
  obtain ⟨_, -, h⟩ := bind_ok.mp h
  split_ifs at h with hflags
  · cases h
    exact ⟨rfl, (if_pos (Or.inl hflags)).symm⟩
  · obtain ⟨r, hr, h⟩ := bind_ok.mp h
    unfold inodeRead at hr
    split_ifs at hr with hend
    · cases hr
      cases h
      exact ⟨rfl, (if_pos (Or.inr hend)).symm⟩
    · obtain ⟨bytes, hbytes, hr⟩ := bind_ok.mp hr
      cases hr
      cases h
      have hlen := ZoneStore.readFrom_length (Nat.min_le_left ..) hbytes
      refine ⟨rfl, ?_⟩
      rw [if_neg (not_or.mpr ⟨hflags, hend⟩)]
      dsimp only
      rw [hlen, add_length _ (by omega)]

/-- A write that returns. -/
theorem sysWriteCall_offset {bytes : List UInt8} (hin : s.InRange flags (.write bytes))
    (h : s.sysWriteCall inode flags bytes = .ok (ret, s')) :
    s'.size ≤ max MAX_SIZE s.size ∧
      s'.offset.toNat = if flags &&& O_ACCMODE = O_RDONLY then s.offset.toNat else s.offset.toNat + bytes.length := by
  obtain ⟨_, -, h⟩ := bind_ok.mp h
  split_ifs at h with hflags
  · cases h
    exact ⟨le_max_right .., (if_pos hflags).symm⟩
  · have hend : s.offset.toNat + bytes.length ≤ MAX_SIZE := hin.resolve_left hflags
    have hmax : MAX_SIZE = 268966912 := rfl
    obtain ⟨s₁, hs₁, h⟩ := bind_ok.mp h
    cases h
    obtain ⟨_, -, hs₁⟩ := bind_ok.mp hs₁
    obtain ⟨z, -, hs₁⟩ := bind_ok.mp hs₁
    cases hs₁
    refine ⟨max_le_max hend le_rfl, ?_⟩
    rw [if_neg hflags]
    exact add_length _ (by omega)

theorem sysWriteCall_block {bytes : List UInt8} (hin : s.InRange flags (.write bytes)) :
    s.sysWriteCall inode flags bytes ≠ .error badBlock := by
  have hmeets : Meets (· = badBlock) (s.sysWriteCall inode flags bytes) fun _ => True := by
    refine Meets.assert_bind (fun _ => by decide) fun _ => ?_
    split_ifs with hflags
    · exact meets_ok.mpr trivial
    · have hend : s.offset.toNat + bytes.length ≤ MAX_SIZE := hin.resolve_left hflags
      refine Meets.bind (Q := fun _ => True) ?_ fun _ _ => meets_ok.mpr trivial
      refine Meets.assert_bind (fun _ => by decide) fun _ => ?_
      exact (ZoneStore.writeFrom_block le_rfl hend).bind fun _ _ => meets_ok.mpr trivial
  exact fun h => hmeets.halt _ h rfl

end Sparse

namespace Seeker

variable {inode : Ino} {flags : UInt32} {m m' : Seeker} {c : SeekCall}

/-- The two offsets agree, and the size has 32 bits. -/
structure Exact (m : Seeker) : Prop where
  size : m.file.size < 2 ^ 32
  want : (m.file.offset.toNat : ℤ) = m.want

theorem Exact.target (h : m.Exact) (offset : Int32) (whence : Whence) :
    m.target offset whence = m.file.origin whence + offset.toInt := by
  cases whence with
  | seekSet => exact (zero_add _).symm
  | seekCur => exact congrArg (· + offset.toInt) h.want.symm
  | seekEnd => rfl

/-- A call in range does what it is to do. -/
theorem Exact.lawful (h : m.Exact) (hin : m.file.InRange flags c) : m.Lawful inode flags c := by
  have hwant := h.want
  have hsize := h.size
  cases c with
  | lseek offset whence =>
    obtain ⟨hlo, hhi⟩ := hin
    refine ⟨_, _, rfl, ?_⟩
    rw [h.target, if_neg (not_lt.mpr hlo), Sparse.sysLseek_offset h.size, Int.emod_eq_of_lt hlo hhi]
    exact ⟨rfl, Sparse.sysLseek_same _ _⟩
  | read len =>
    intro ret s' hcall
    rw [(Sparse.sysRead_offset h.size hcall).2, next, ← hwant]
    by_cases hwo : flags &&& O_ACCMODE = O_WRONLY
    · rw [if_pos (Or.inl hwo), if_pos (Or.inl hwo)]
    · by_cases hend : m.file.size ≤ m.file.offset.toNat
      · rw [if_pos (Or.inr hend), if_pos (Or.inr (by omega))]
      · rw [if_neg (not_or.mpr ⟨hwo, hend⟩), if_neg (not_or.mpr ⟨hwo, by omega⟩)]
        omega
  | write bytes =>
    have hshort : ¬ (flags &&& O_ACCMODE ≠ O_RDONLY ∧ m.want + bytes.length > MAX_SIZE) := fun hlong => by
      rcases hin with hro | hend
      · exact hlong.1 hro
      · omega
    simp only [Lawful, if_neg hshort]
    refine ⟨Sparse.sysWriteCall_block hin, fun ret s' hcall => ?_⟩
    rw [(Sparse.sysWriteCall_offset hin hcall).2, next, ← hwant]
    by_cases hro : flags &&& O_ACCMODE = O_RDONLY
    · rw [if_pos hro, if_pos (Or.inl hro)]
    · have hend : m.file.offset.toNat + bytes.length ≤ MAX_SIZE := hin.resolve_left hro
      rw [if_neg hro, if_neg (not_or.mpr ⟨hro, by omega⟩)]
      omega

theorem Exact.step (h : m.Exact) (hs : Restrict (fun m c => m.file.InRange flags c) (Step inode flags) m c m') :
    m'.Exact := by
  obtain ⟨hin, hstep⟩ := hs
  have hlaw : m.Lawful inode flags c := h.lawful hin
  obtain ⟨ret, hcall⟩ := hstep.call
  have hmax : MAX_SIZE = 268966912 := rfl
  have hsize := h.size
  cases c with
  | lseek offset whence =>
    obtain ⟨r, s', hs', hlaw⟩ := hlaw
    rw [hcall] at hs'
    cases hs'
    rw [h.target, if_neg (not_lt.mpr hin.1)] at hlaw
    refine ⟨?_, ?_⟩
    · rw [hlaw.2]
      exact hsize
    · rw [hlaw.1, hstep.want, next, h.target, if_neg (not_lt.mpr hin.1)]
  | read len =>
    refine ⟨?_, (hlaw ret _ hcall).trans hstep.want.symm⟩
    rw [(Sparse.sysRead_offset h.size hcall).1]
    exact hsize
  | write bytes =>
    have hwrite := Sparse.sysWriteCall_offset hin hcall
    refine ⟨by omega, ?_⟩
    have hshort : ¬ (flags &&& O_ACCMODE ≠ O_RDONLY ∧ m.want + bytes.length > MAX_SIZE) := fun hlong => by
      have := h.want
      rcases hin with hro | hend
      · exact hlong.1 hro
      · omega
    simp only [Lawful, if_neg hshort] at hlaw
    exact (hlaw.2 ret _ hcall).trans hstep.want.symm

/-- As long as no seek leaves the 32 bits and no write the largest file, the offset is the one in the integers, and
the calls do what they are to do. -/
theorem offsets_exact {es : List SeekCall}
    (h : Run Init (Restrict (fun m c => m.file.InRange flags c) (Step inode flags)) es m) :
    (m.file.offset.toNat : ℤ) = m.want ∧ ∀ c, m.file.InRange flags c → m.Lawful inode flags c := by
  have hexact : m.Exact :=
    Run.invariant (I := Exact) (fun m hm => ⟨hm.1, hm.2.symm⟩) (fun _ _ _ k hs => k.step hs) es m h
  exact ⟨hexact.want, fun c => hexact.lawful⟩

/-- An empty file that was just opened. -/
def opened : Seeker := ⟨Sparse.emptyFile, 0⟩

theorem opened_init : opened.Init := ⟨by decide, rfl⟩

/-- After a seek to 5 both offsets are 5. -/
theorem offsets_exact_five :
    ((Sparse.emptyFile.sysLseek (5 : Int32).toUInt32 .seekSet).offset.toNat : ℤ) = 5 := by
  have hin : Sparse.emptyFile.InRange Vol.O_RDWR (.lseek 5 .seekSet) := by
    constructor <;> decide
  have hrun : Run Init (Restrict (fun m c => m.file.InRange Vol.O_RDWR c) (Step ⟨1, 2⟩ Vol.O_RDWR))
      ([] ++ [.lseek 5 .seekSet]) ⟨Sparse.emptyFile.sysLseek (5 : Int32).toUInt32 .seekSet, 5⟩ :=
    .snoc (.nil opened_init) ⟨hin, trivial, ⟨_, rfl⟩, rfl⟩
  exact (offsets_exact hrun).1

/-- A seek to -2 in a file of no bytes goes to 2^32 - 2. -/
theorem seek_wraps : ¬ ∀ es m, Run Init (Step ⟨1, 2⟩ Vol.O_RDWR) es m →
    (m.file.offset.toNat : ℤ) = m.want ∧ ∀ c, m.Lawful ⟨1, 2⟩ Vol.O_RDWR c := by
  intro hall
  obtain ⟨ret, s', hcall, hlaw⟩ := (hall [] opened (.nil opened_init)).2 (.lseek (-2) .seekSet)
  cases hcall
  rw [if_pos (by decide)] at hlaw
  have hoffset : (Sparse.emptyFile.sysLseek (-2 : Int32).toUInt32 .seekSet).offset = Sparse.emptyFile.offset :=
    congrArg Sparse.offset hlaw.2
  revert hoffset
  decide

end Seeker
end Onix
