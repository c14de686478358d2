import Onix.Fs.Descriptors
import Onix.Fs.Namespace
import Onix.Kernel.Buffer

/-! The nine calls that take or give descriptors, up to the routines that move the bytes: which arguments and which
fill of the tables they answer with EOF, and which with an assertion, a panic or an index behind the slots. -/

set_option autoImplicit false

namespace Onix

open Lib

/-- Where `sys_read` and `sys_write` turn to. -/
inductive InodeKind
  | pipe
  | chr
  | blk
  | other
  deriving DecidableEq

/-- What the calls ask of the inodes, and the routines behind their tests. -/
structure FdInodes (I : Type) where
  kind : I → InodeKind
  /-- `desc->zone[0]`, of a device its number. -/
  zone : I → ℕ
  size : I → UInt32
  /-- `pipe_read`, `device_read` and `inode_read`, with the length they are given. -/
  read : FileId → ℤ → Except Halt Int32
  /-- `pipe_write`, `device_write` and `inode_write`. -/
  write : FileId → ℤ → Except Halt Int32

/-- The open files with their offsets. -/
structure OpenFiles (I : Type) where
  files : Files I
  offset : FileId → UInt32

/-- `open` comes with the inode `inode_open` found, `pipe` with the free inode, if there is one. -/
inductive FdCall (I : Type)
  | read (fd : UInt32) (len : Int32)
  | write (fd : UInt32) (len : Int32)
  | close (fd : UInt32)
  | lseek (fd offset : UInt32) (whence : Int32)
  | dup (oldfd : UInt32)
  | dup2 (oldfd newfd : UInt32)
  | fstat (fd : UInt32)
  | open (inode : Option I) (flags : UInt32)
  | pipe (inode : Option I)

namespace OpenFiles

variable {I : Type} (inodes : FdInodes I)

/-- `task->files[fd]` -/
def fileAt (s : Files I) (t : Fin NR_TASKS) (fd : ℕ) : Except Trap (Option FileId) :=
  if h : fd < TASK_FILE_NR then .ok (s.files t ⟨fd, h⟩) else .error (.outside fd)

def failed {α : Type} (exp : String) : Except Trap α := .error (.halt (.assertion exp))

/-- `sys_read` and `sys_write`: `refused` is the access mode that is sent back, `move` the routines that are called. -/
def transfer (refused : UInt32) (move : FileId → ℤ → Except Halt Int32) (k : OpenFiles I) (t : Fin NR_TASKS)
    (fd : UInt32) (len : Int32) : Except Trap (Int32 × OpenFiles I) := do
  match ← fileAt k.files t fd.toNat with
  | none => failed "file"
  | some f =>
    Files.within (assert "len > 0" (0 < len.toInt))
    if k.files.flags f &&& O_ACCMODE = refused then .ok (EOF, k)
    else match k.files.inode f with
      | none => .error (.halt .nullPointer)
      | some inode =>
        match inodes.kind inode with
        | .pipe =>
          let ret ← Files.within (move f len.toInt)
          .ok (ret, k)
        | .chr =>
          Files.within (assert "inode->desc->zone[0]" (inodes.zone inode ≠ 0))
          let ret ← Files.within (move f len.toInt)
          .ok (ret, k)
        | .blk =>
          Files.within (assert "inode->desc->zone[0]" (inodes.zone inode ≠ 0))
          Files.within (assert "file->offset % BLOCK_SIZE == 0" ((k.offset f).toNat % BLOCK_SIZE = 0))
          Files.within (assert "len % BLOCK_SIZE == 0" (len.toInt % BLOCK_SIZE = 0))
          let ret ← Files.within (move f (len.toInt / BLOCK_SIZE))
          .ok (ret, k)
        | .other =>
          let ret ← Files.within (move f len.toInt)
          .ok (ret, if ret ≠ EOF then { k with offset := Function.update k.offset f (k.offset f + ret.toUInt32) } else k)

def sysRead (k : OpenFiles I) (t : Fin NR_TASKS) (fd : UInt32) (len : Int32) : Except Trap (Int32 × OpenFiles I) :=
  transfer inodes O_WRONLY inodes.read k t fd len

def sysWrite (k : OpenFiles I) (t : Fin NR_TASKS) (fd : UInt32) (len : Int32) : Except Trap (Int32 × OpenFiles I) :=
  transfer inodes O_RDONLY inodes.write k t fd len

/-- `sys_lseek`; an `off_t` is never negative, so its assertions hold. -/
def sysLseek (k : OpenFiles I) (t : Fin NR_TASKS) (fd offset : UInt32) (whence : Int32) :
    Except Trap (Int32 × OpenFiles I) :=
  if h : fd.toNat < TASK_FILE_NR then
    match k.files.files t ⟨fd.toNat, h⟩ with
    | none => failed "file"
    | some f =>
      match k.files.inode f with
      | none => failed "file->inode"
      | some inode =>
        let seek (offset : UInt32) := .ok (offset.toInt32, { k with offset := Function.update k.offset f offset })
        if whence = 1 then seek offset
        else if whence = 2 then seek (k.offset f + offset)
        else if whence = 3 then seek (inodes.size inode + offset)
        else .error (.halt (.panic "whence not defined !!!"))
  else failed "fd < TASK_FILE_NR"

/-- `sys_fstat`, up to `copy_stat`. -/
def sysFstat (k : OpenFiles I) (t : Fin NR_TASKS) (fd : UInt32) : Except Trap (Int32 × OpenFiles I) :=
  if fd.toNat > TASK_FILE_NR then .ok (EOF, k)
  else do
    match ← fileAt k.files t fd.toNat with
    | none => .ok (EOF, k)
    | some f =>
      Files.within (assert "inode" (k.files.inode f).isSome)
      .ok (0, k)

def sysOpen (k : OpenFiles I) (t : Fin NR_TASKS) (inode : Option I) (flags : UInt32) :
    Except Trap (Int32 × OpenFiles I) :=
  match inode with
  | none => .ok (EOF, k)
  | some inode => do
    let fd ← Files.within (k.files.taskGetFd t)
    let (f, s) ← Files.within k.files.getFile
    let s := (s.setFd t fd (some f)).setInode f inode flags
    .ok (.ofNat fd.val, {
      files := { s with count := Function.update s.count f 1 }
      offset := Function.update k.offset f (if flags &&& Vol.O_APPEND ≠ 0 then inodes.size inode else 0) })

def sysPipe (k : OpenFiles I) (t : Fin NR_TASKS) (inode : Option I) : Except Trap (Int32 × OpenFiles I) :=
  match inode with
  | none => .error (.halt (.panic "no more inode!!!"))
  | some inode => do
    let s ← Files.within (k.files.sysPipe t inode)
    .ok (0, { k with files := s })

/-- What `dupfd` returns, as an `fd_t`. -/
def dupped (k : OpenFiles I) (r : Option Fd × Files I) : Int32 × OpenFiles I :=
  (match r.1 with
    | some i => .ofNat i.val
    | none => EOF, { k with files := r.2 })

/-- The call `c` of task `t`, with what it returns; `sys_close` returns nothing. -/
def exec (k : OpenFiles I) (t : Fin NR_TASKS) : FdCall I → Except Trap (Int32 × OpenFiles I)
  | .read fd len => k.sysRead inodes t fd len
  | .write fd len => k.sysWrite inodes t fd len
  | .close fd => do
    let s ← k.files.sysCloseCall t fd.toNat
    .ok (0, { k with files := s })
  | .lseek fd offset whence => k.sysLseek inodes t fd offset whence
  | .dup oldfd => do .ok (k.dupped (← k.files.sysDup t oldfd.toNat))
  | .dup2 oldfd newfd => do .ok (k.dupped (← k.files.sysDup2 t oldfd.toNat newfd.toNat))
  | .fstat fd => k.sysFstat t fd
  | .open inode flags => k.sysOpen inodes t inode flags
  | .pipe inode => k.sysPipe t inode

/-! ### What is asked of them -/

/-- The descriptor is in range and open. -/
def Opened (k : OpenFiles I) (t : Fin NR_TASKS) (fd : UInt32) (f : FileId) : Prop :=
  ∃ i : Fd, i.val = fd.toNat ∧ k.files.files t i = some f

/-- The descriptors that `task_get_fd` can give. -/
def spareFds (s : Files I) (t : Fin NR_TASKS) : Finset Fd :=
  Finset.univ.filter fun i => 3 ≤ i.val ∧ s.files t i = none

/-- The entries that `get_file` can give. -/
def spareFiles (s : Files I) : Finset FileId := Finset.univ.filter fun f => 3 ≤ f.val ∧ s.count f = 0

/-- Room for `n` more descriptors with an entry each. -/
def Room (k : OpenFiles I) (t : Fin NR_TASKS) (n : ℕ) : Prop :=
  n ≤ (spareFds k.files t).card ∧ n ≤ (spareFiles k.files).card

/-- A descriptor out of range or not open, or no room for a new one. -/
def Bad (k : OpenFiles I) (t : Fin NR_TASKS) : FdCall I → Prop
  | .read fd _ | .write fd _ | .close fd | .lseek fd _ _ | .fstat fd => ∀ f, ¬ k.Opened t fd f
  | .dup oldfd => (∀ f, ¬ k.Opened t oldfd f) ∨ ∀ i, k.files.files t i ≠ none
  | .dup2 oldfd newfd => (∀ f, ¬ k.Opened t oldfd f) ∨ TASK_FILE_NR ≤ newfd.toNat
  | .open inode _ => inode = none ∨ ¬ k.Room t 1
  | .pipe inode => inode = none ∨ ¬ k.Room t 2

/-- The call returns, and a bad one returns EOF and changes nothing. -/
def Answered (k : OpenFiles I) (t : Fin NR_TASKS) (c : FdCall I) : Prop :=
  ∃ r k', k.exec inodes t c = .ok (r, k') ∧
    (k.Bad t c → k' = k ∧ match c with | .close _ => True | _ => r = EOF)

/-- The routine behind a read or write is reached and returns. -/
def Moves (k : OpenFiles I) (move : FileId → ℤ → Except Halt Int32) (f : FileId) (len : Int32) : Prop :=
  ∃ inode, k.files.inode f = some inode ∧
    match inodes.kind inode with
    | .pipe | .other => ∃ r, move f len.toInt = .ok r
    | .chr => inodes.zone inode ≠ 0 ∧ ∃ r, move f len.toInt = .ok r
    | .blk => inodes.zone inode ≠ 0 ∧ (k.offset f).toNat % BLOCK_SIZE = 0 ∧ len.toInt % BLOCK_SIZE = 0 ∧
        ∃ r, move f (len.toInt / BLOCK_SIZE) = .ok r

/-- When a call is answered. -/
def Fit (k : OpenFiles I) (t : Fin NR_TASKS) : FdCall I → Prop
  | .read fd len => ∃ f, k.Opened t fd f ∧ 0 < len.toInt ∧
      (k.files.flags f &&& O_ACCMODE = O_WRONLY ∨ k.Moves inodes inodes.read f len)
  | .write fd len => ∃ f, k.Opened t fd f ∧ 0 < len.toInt ∧
      (k.files.flags f &&& O_ACCMODE = O_RDONLY ∨ k.Moves inodes inodes.write f len)
  | .close fd => fd.toNat < TASK_FILE_NR
  | .lseek fd _ whence => (∃ f, k.Opened t fd f) ∧ (whence = 1 ∨ whence = 2 ∨ whence = 3)
  | .dup oldfd => (∀ f, ¬ k.Opened t oldfd f) ∨ ∃ i, k.files.files t i = none
  | .dup2 oldfd newfd => newfd.toNat < TASK_FILE_NR ∧
      ((∃ f, k.Opened t oldfd f) ∨ ∀ f, ¬ k.Opened t newfd f)
  | .fstat fd => fd.toNat ≠ TASK_FILE_NR
  | .open inode _ => inode = none ∨ k.Room t 1
  | .pipe inode => inode ≠ none ∧ k.Room t 2

variable {inodes} {k : OpenFiles I} {s : Files I} {t : Fin NR_TASKS} {fd : UInt32} {f : FileId} {len : Int32}

/-! ### Looking up a descriptor -/

theorem opened_iff {i : Fd} (hi : i.val = fd.toNat) : k.Opened t fd f ↔ k.files.files t i = some f := by
  constructor
  · rintro ⟨j, hj, hf⟩
    rwa [show i = j from Fin.ext (hi.trans hj.symm)]
  · exact fun hf => ⟨i, hi, hf⟩

/-- A descriptor is out of range, or one of the slots. -/
theorem fd_cases (fd : UInt32) : TASK_FILE_NR ≤ fd.toNat ∨ ∃ i : Fd, i.val = fd.toNat := by
  by_cases h : fd.toNat < TASK_FILE_NR
  · exact Or.inr ⟨⟨fd.toNat, h⟩, rfl⟩
  · exact Or.inl (not_lt.mp h)

theorem not_opened (h : TASK_FILE_NR ≤ fd.toNat) (f : FileId) : ¬ k.Opened t fd f := by
  rintro ⟨i, hi, -⟩
  have := i.isLt
  omega

@[simp] theorem within_ok {α : Type} (a : α) : Files.within (.ok a : Except Halt α) = .ok a := rfl

theorem within_eq_ok {α : Type} {x : Except Halt α} {a : α} : Files.within x = .ok a ↔ x = .ok a := by
  cases x <;> simp [Files.within]

theorem within_assert {exp : String} {b : Bool} {u : Unit} : Files.within (assert exp b) = .ok u ↔ b = true := by
  rw [within_eq_ok, assert_ok]

/-- Reads and writes return exactly when they are given a descriptor that is open and a length that is not 0, and the
routine behind them returns. -/
theorem transfer_returns (refused : UInt32) (move : FileId → ℤ → Except Halt Int32) :
    (∃ p, transfer inodes refused move k t fd len = .ok p) ↔ ∃ f, k.Opened t fd f ∧ 0 < len.toInt ∧
      (k.files.flags f &&& O_ACCMODE = refused ∨ k.Moves inodes move f len) := by
  rcases fd_cases fd with hout | ⟨i, hi⟩
  · refine iff_of_false ?_ fun ⟨f, hf, _⟩ => not_opened hout f hf
    rintro ⟨p, hp⟩
    simp only [transfer, fileAt, not_lt.mpr hout, dite_false, error_bind] at hp
    cases hp
  · have hat : fileAt k.files t fd.toNat = .ok (k.files.files t i) := by
      simp only [fileAt, ← hi, i.isLt, dite_true]
    simp only [transfer, hat, ok_bind, opened_iff hi]
    cases hf : k.files.files t i with
    | none => simp [failed]
    | some f =>
      simp only [Option.some.injEq, exists_eq_left']
      by_cases hlen : 0 < len.toInt
      · simp only [hlen, decide_true, assert_true, within_ok, ok_bind, true_and]
        split_ifs with hflags
        · exact iff_of_true ⟨_, rfl⟩ (Or.inl hflags)
        · rw [or_iff_right hflags, Moves]
          cases hinode : k.files.inode f with
          | none => simp
          | some inode =>
            simp only [Option.some.injEq, exists_eq_left']
            cases inodes.kind inode with
            | pipe => simp [bind_ok, within_eq_ok]
            | chr => simp [bind_ok, within_eq_ok]
            | blk => simp [bind_ok, within_eq_ok]
            | other => simp [bind_ok, within_eq_ok]
      · refine iff_of_false ?_ fun h => hlen h.1
        rintro ⟨p, hp⟩
        obtain ⟨u, hu, -⟩ := bind_ok.mp hp
        exact hlen (of_decide_eq_true (within_assert.mp hu))

theorem taskGetFd_cases (s : Files I) (t : Fin NR_TASKS) :
    (∃ fd ∈ spareFds s t, s.taskGetFd t = .ok fd) ∨ spareFds s t = ∅ ∧ ∃ h, s.taskGetFd t = .error h := by
  unfold Files.taskGetFd
  split
  · rename_i i hfind
    have := List.find?_some hfind
    simp only [Bool.and_eq_true, decide_eq_true_eq, Option.isNone_iff_eq_none] at this
    exact Or.inl ⟨i, by simpa [spareFds] using this, rfl⟩
  · rename_i hnone
    refine Or.inr ⟨Finset.eq_empty_of_forall_notMem fun i hi => ?_, _, rfl⟩
    have := List.find?_eq_none.mp hnone i (List.mem_finRange i)
    simp_all [spareFds]

theorem getFile_cases (s : Files I) : (∃ f ∈ spareFiles s, s.getFile =
      .ok (f, { s with count := Function.update s.count f (s.count f + 1) })) ∨
    spareFiles s = ∅ ∧ ∃ h, s.getFile = .error h := by
  unfold Files.getFile
  split
  · rename_i f hfind
    have := List.find?_some hfind
    simp only [Bool.and_eq_true, decide_eq_true_eq] at this
    exact Or.inl ⟨f, by simpa [spareFiles] using this, rfl⟩
  · rename_i hnone
    refine Or.inr ⟨Finset.eq_empty_of_forall_notMem fun f hf => ?_, _, rfl⟩
    have := List.find?_eq_none.mp hnone f (List.mem_finRange f)
    simp_all [spareFiles]

theorem spareFds_setFd (s : Files I) (t : Fin NR_TASKS) (i : Fd) (f : FileId) :
    spareFds (s.setFd t i (some f)) t = (spareFds s t).erase i := by
  ext j
  simp only [spareFds, Files.setFd, Function.update_self, Function.update_apply, Finset.mem_filter, Finset.mem_univ,
    true_and, Finset.mem_erase]
  split_ifs with hj <;> simp [hj]

theorem spareFiles_count (s : Files I) (f : FileId) :
    spareFiles { s with count := Function.update s.count f (s.count f + 1) } = (spareFiles s).erase f := by
  ext g
  simp only [spareFiles, Function.update_apply, Finset.mem_filter, Finset.mem_univ, true_and, Finset.mem_erase]
  split_ifs with hg <;> simp [hg]

theorem sysOpen_returns (inode : I) (flags : UInt32) :
    (∃ p, k.sysOpen inodes t (some inode) flags = .ok p) ↔ k.Room t 1 := by
  simp only [Room, Finset.one_le_card]
  rcases taskGetFd_cases k.files t with ⟨fd, hfd, hget⟩ | ⟨hnone, h, hget⟩
  · rcases getFile_cases k.files with ⟨f, hf, hfile⟩ | ⟨hnone, h, hfile⟩
    · refine iff_of_true ?_ ⟨⟨fd, hfd⟩, f, hf⟩
      simp only [sysOpen, hget, hfile, within_ok, ok_bind]
      exact ⟨_, rfl⟩
    · refine iff_of_false ?_ fun hroom => by simp [hnone] at hroom
      rintro ⟨p, hp⟩
      simp only [sysOpen, hget, hfile, ok_bind, Files.within, error_bind] at hp
      cases hp
  · refine iff_of_false ?_ fun hroom => by simp [hnone] at hroom
    rintro ⟨p, hp⟩
    simp only [sysOpen, hget, Files.within, error_bind] at hp
    cases hp

/-- A pipe takes its descriptors and its entries one after the other. -/
theorem sysPipe_returns (inode : I) : (∃ p, k.sysPipe t (some inode) = .ok p) ↔ k.Room t 2 := by
  have hhalts : (∃ p, k.sysPipe t (some inode) = .ok p) ↔ ∃ s, k.files.sysPipe t inode = .ok s := by
    simp [sysPipe, bind_ok, within_eq_ok]
  rw [hhalts, Room]
  rcases taskGetFd_cases k.files t with ⟨fd₀, hfd₀, hget₀⟩ | ⟨hnone, h, hget₀⟩
  · rcases getFile_cases k.files with ⟨f₀, hf₀, hfile₀⟩ | ⟨hnone, h, hfile₀⟩
    · set s₁ := Files.setFd { k.files with count := Function.update k.files.count f₀ (k.files.count f₀ + 1) } t fd₀
        (some f₀) with hs₁
      have hfds : (spareFds s₁ t).card + 1 = (spareFds k.files t).card := by
        rw [hs₁, spareFds_setFd]
        exact Finset.card_erase_add_one hfd₀
      have hfiles : (spareFiles s₁).card + 1 = (spareFiles k.files).card := by
        have : spareFiles s₁ = (spareFiles k.files).erase f₀ := spareFiles_count k.files f₀
        rw [this]
        exact Finset.card_erase_add_one hf₀
      rcases taskGetFd_cases s₁ t with ⟨fd₁, hfd₁, hget₁⟩ | ⟨hnone, h, hget₁⟩
      · have hpos := Finset.card_pos.mpr ⟨fd₁, hfd₁⟩
        rcases getFile_cases s₁ with ⟨f₁, hf₁, hfile₁⟩ | ⟨hnone, h, hfile₁⟩
        · have hpos' := Finset.card_pos.mpr ⟨f₁, hf₁⟩
          refine iff_of_true ?_ ⟨by omega, by omega⟩
          simp only [Files.sysPipe, hget₀, hfile₀, ok_bind, ← hs₁, hget₁, hfile₁]
          exact ⟨_, rfl⟩
        · rw [hnone, Finset.card_empty] at hfiles
          refine iff_of_false ?_ fun hroom => by omega
          rintro ⟨p, hp⟩
          simp only [Files.sysPipe, hget₀, hfile₀, ok_bind, ← hs₁, hget₁, hfile₁, error_bind] at hp
          cases hp
      · rw [hnone, Finset.card_empty] at hfds
        refine iff_of_false ?_ fun hroom => by omega
        rintro ⟨p, hp⟩
        simp only [Files.sysPipe, hget₀, hfile₀, ok_bind, ← hs₁, hget₁, error_bind] at hp
        cases hp
    · refine iff_of_false ?_ fun hroom => by simp [hnone] at hroom
      rintro ⟨p, hp⟩
      simp only [Files.sysPipe, hget₀, hfile₀, ok_bind, error_bind] at hp
      cases hp
  · refine iff_of_false ?_ fun hroom => by simp [hnone] at hroom
    rintro ⟨p, hp⟩
    simp only [Files.sysPipe, hget₀, error_bind] at hp
    cases hp

theorem sysCloseCall_out (h : TASK_FILE_NR ≤ fd.toNat) :
    s.sysCloseCall t fd.toNat = .error (.halt (.assertion "fd < TASK_FILE_NR")) := by
  simp only [Files.sysCloseCall, not_lt.mpr h, dite_false]

theorem dupfdCall_out (h : TASK_FILE_NR ≤ fd.toNat) (arg : ℕ) : s.dupfdCall t fd.toNat arg = .ok (none, s) := by
  simp only [Files.dupfdCall, not_lt.mpr h, dite_false]

theorem close_answered (hc : k.files.Counts) (ht : k.files.Open t) :
    k.Answered inodes t (.close fd) ↔ k.Fit inodes t (.close fd) := by
  simp only [Answered, Fit, Bad, exec, and_true]
  rcases fd_cases fd with hout | ⟨i, hi⟩
  · simp [sysCloseCall_out hout, not_lt.mpr hout]
  · refine iff_of_true ?_ (hi ▸ i.isLt)
    rw [← hi]
    cases hf : k.files.files t i with
    | none =>
      rw [Files.sysCloseCall_free hf]
      exact ⟨0, _, rfl, fun _ => rfl⟩
    | some f =>
      rw [Files.sysCloseCall_open hc ht hf]
      exact ⟨0, _, rfl, fun hbad => absurd ((opened_iff hi).mpr hf) (hbad f)⟩

theorem lseek_answered (hc : k.files.Counts) (ht : k.files.Open t) (offset : UInt32) (whence : Int32) :
    k.Answered inodes t (.lseek fd offset whence) ↔ k.Fit inodes t (.lseek fd offset whence) := by
  simp only [Answered, Fit, Bad, exec]
  rcases fd_cases fd with hout | ⟨i, hi⟩
  · refine iff_of_false ?_ fun ⟨⟨f, hf⟩, _⟩ => not_opened hout f hf
    rintro ⟨r, k', hk, -⟩
    simp only [sysLseek, not_lt.mpr hout, dite_false, failed] at hk
    cases hk
  · have hlt : fd.toNat < TASK_FILE_NR := hi ▸ i.isLt
    have hslot : k.files.files t ⟨fd.toNat, hlt⟩ = k.files.files t i := by
      rw [show (⟨fd.toNat, hlt⟩ : Fd) = i from Fin.ext hi.symm]
    cases hf : k.files.files t i with
    | none =>
      refine iff_of_false ?_ fun ⟨⟨f, hopen⟩, _⟩ => by
        rw [opened_iff hi, hf] at hopen
        cases hopen
      rintro ⟨r, k', hk, -⟩
      simp only [sysLseek, hlt, dite_true, hslot, hf, failed] at hk
      cases hk
    | some f =>
      obtain ⟨inode, hinode⟩ := Option.isSome_iff_exists.mp (hc.used ht hf).2
      have hopen : k.Opened t fd f := (opened_iff hi).mpr hf
      simp only [sysLseek, hlt, dite_true, hslot, hf, hinode]
      by_cases h1 : whence = 1
      · exact iff_of_true ⟨_, _, if_pos h1, fun hbad => absurd hopen (hbad f)⟩ ⟨⟨f, hopen⟩, Or.inl h1⟩
      · by_cases h2 : whence = 2
        · rw [if_neg h1]
          exact iff_of_true ⟨_, _, if_pos h2, fun hbad => absurd hopen (hbad f)⟩ ⟨⟨f, hopen⟩, Or.inr (Or.inl h2)⟩
        · rw [if_neg h1, if_neg h2]
          by_cases h3 : whence = 3
          · exact iff_of_true ⟨_, _, if_pos h3, fun hbad => absurd hopen (hbad f)⟩ ⟨⟨f, hopen⟩, Or.inr (Or.inr h3)⟩
          · simp [h1, h2, h3]

theorem dup_answered : k.Answered inodes t (.dup fd) ↔ k.Fit inodes t (.dup fd) := by
  simp only [Answered, Fit, Bad, exec, Files.sysDup]
  rcases fd_cases fd with hout | ⟨i, hi⟩
  · rw [dupfdCall_out hout]
    exact iff_of_true ⟨_, _, rfl, fun _ => ⟨rfl, rfl⟩⟩ (Or.inl (not_opened hout))
  · simp only [opened_iff hi]
    rw [← hi]
    cases hf : k.files.files t i with
    | none =>
      rw [Files.dupfdCall_shut hf]
      exact iff_of_true ⟨_, _, rfl, fun _ => ⟨rfl, rfl⟩⟩ (Or.inl (by simp))
    | some f =>
      rw [Files.dupfdCall_open hf]
      by_cases hfull : ∃ j, k.files.files t j = none
      · obtain ⟨j, hj, hleast⟩ := Files.exists_lowest hfull
        rw [Files.freeFrom_free hj (Nat.zero_le _) fun j _ hlt => hleast j hlt]
        refine iff_of_true ⟨_, _, rfl, fun hbad => ?_⟩ (Or.inr hfull)
        rcases hbad with hbad | hbad
        · exact absurd rfl (hbad f)
        · exact absurd hj (hbad j)
      · have hall : ∀ j, k.files.files t j ≠ none := fun j hj => hfull ⟨j, hj⟩
        rw [Files.freeFrom_full fun j _ => hall j]
        refine iff_of_false ?_ (not_or.mpr ⟨fun h => h f rfl, hfull⟩)
        rintro ⟨r, k', hk, -⟩
        cases hk

theorem dup2_answered (hc : k.files.Counts) (ht : k.files.Open t) (newfd : UInt32) :
    k.Answered inodes t (.dup2 fd newfd) ↔ k.Fit inodes t (.dup2 fd newfd) := by
  simp only [Answered, Fit, Bad, exec, Files.sysDup2]
  rcases fd_cases newfd with hout | ⟨j, hj⟩
  · refine iff_of_false ?_ fun h => by omega
    rintro ⟨r, k', hk, -⟩
    rw [sysCloseCall_out hout] at hk
    cases hk
  · have hlt : newfd.toNat < TASK_FILE_NR := hj ▸ j.isLt
    -- the state behind the close
    obtain ⟨s₁, hclose, hsame, hother, hfree⟩ : ∃ s₁, k.files.sysCloseCall t newfd.toNat = .ok s₁ ∧
        (s₁ = k.files ↔ ∀ f, ¬ k.Opened t newfd f) ∧
        (∀ i, i ≠ j → s₁.files t i = k.files.files t i) ∧ s₁.files t j = none := by
      simp only [opened_iff hj]
      rw [← hj]
      cases hnew : k.files.files t j with
      | none => exact ⟨k.files, Files.sysCloseCall_free hnew, by simp, fun _ _ => rfl, hnew⟩
      | some e =>
        have hshut : (k.files.shut t j e).files t j = none := by
          simp only [Files.shut, Files.setFd, Function.update_self]
        refine ⟨_, Files.sysCloseCall_open hc ht hnew, iff_of_false (fun he => ?_) (by simp), fun i hi => ?_, hshut⟩
        · rw [he, hnew] at hshut
          cases hshut
        · simp only [Files.shut, Files.setFd, Function.update_self, Function.update_of_ne hi]
    simp only [hclose, ok_bind, hlt, true_and, not_le.mpr hlt, or_false]
    rcases fd_cases fd with hout | ⟨i, hi⟩
    · rw [dupfdCall_out hout, ← hsame]
      constructor
      · rintro ⟨r, k', hk, hbad⟩
        cases hk
        exact Or.inr (congrArg files (hbad (not_opened hout)).1)
      · intro h
        have hnone : ¬ ∃ f, k.Opened t fd f := by
          rintro ⟨f, hf⟩
          exact not_opened hout f hf
        have hs₁ : s₁ = k.files := h.resolve_left hnone
        refine ⟨_, _, rfl, fun _ => ⟨?_, rfl⟩⟩
        rw [hs₁]
    · simp only [opened_iff hi]
      rw [← hi, ← hsame]
      cases hf : k.files.files t i with
      | none =>
        have hshut : s₁.files t i = none := by
          by_cases hij : i = j
          · rw [hij, hfree]
          · rw [hother i hij, hf]
        rw [Files.dupfdCall_shut hshut]
        constructor
        · rintro ⟨r, k', hk, hbad⟩
          cases hk
          exact Or.inr (congrArg files (hbad (by simp)).1)
        · intro h
          have hs₁ : s₁ = k.files := h.resolve_left (by simp)
          refine ⟨_, _, rfl, fun _ => ⟨?_, rfl⟩⟩
          rw [hs₁]
      | some f =>
        refine iff_of_true ?_ (Or.inl ⟨f, rfl⟩)
        by_cases hij : i = j
        · rw [hij, Files.dupfdCall_shut hfree]
          exact ⟨_, _, rfl, fun hbad => absurd rfl (hbad f)⟩
        · rw [Files.dupfdCall_open ((hother i hij).trans hf), ← hj,
            Files.freeFrom_free hfree le_rfl fun a hle hlt => absurd hle (not_le.mpr hlt)]
          exact ⟨_, _, rfl, fun hbad => absurd rfl (hbad f)⟩

theorem fstat_answered (hc : k.files.Counts) (ht : k.files.Open t) :
    k.Answered inodes t (.fstat fd) ↔ k.Fit inodes t (.fstat fd) := by
  simp only [Answered, Fit, Bad, exec, sysFstat]
  rcases fd_cases fd with hout | ⟨i, hi⟩
  · by_cases hbehind : fd.toNat > TASK_FILE_NR
    · rw [if_pos hbehind]
      exact iff_of_true ⟨_, _, rfl, fun _ => ⟨rfl, rfl⟩⟩ (by omega)
    · -- the comparison lets 16 through
      refine iff_of_false ?_ (by omega)
      rintro ⟨r, k', hk, -⟩
      simp only [hbehind, if_false, fileAt, not_lt.mpr hout, dite_false, error_bind] at hk
      cases hk
  · have hlt : fd.toNat < TASK_FILE_NR := hi ▸ i.isLt
    have hat : fileAt k.files t fd.toNat = .ok (k.files.files t i) := by
      simp only [fileAt, ← hi, i.isLt, dite_true]
    simp only [not_lt.mpr hlt.le, if_false, hat, ok_bind, opened_iff hi]
    refine iff_of_true ?_ hlt.ne
    cases hf : k.files.files t i with
    | none => exact ⟨_, _, rfl, fun _ => ⟨rfl, rfl⟩⟩
    | some f =>
      simp only [(hc.used ht hf).2, assert_true, within_ok, ok_bind]
      exact ⟨_, _, rfl, fun hbad => absurd rfl (hbad f)⟩

/-- Which calls answer bad descriptors and full tables as they should: each test is another one. -/
theorem bad_descriptors (hc : k.files.Counts) (hpresent : k.files.present t = true) (huser : k.files.phase t = .user)
    (c : FdCall I) : k.Answered inodes t c ↔ k.Fit inodes t c := by
  have ht : k.files.Open t := ⟨hpresent, Or.inl huser⟩
  -- where the answer is an assertion or a panic on what is bad, there is no EOF to ask for
  have returns : ∀ c, (k.Bad t c → ¬ k.Fit inodes t c) →
      ((∃ p, k.exec inodes t c = .ok p) ↔ k.Fit inodes t c) → (k.Answered inodes t c ↔ k.Fit inodes t c) := by
    intro c hbad hreturns
    constructor
    · rintro ⟨r, k', hk, -⟩
      exact hreturns.mp ⟨_, hk⟩
    · intro hfit
      obtain ⟨⟨r, k'⟩, hk⟩ := hreturns.mpr hfit
      exact ⟨r, k', hk, fun hb => absurd hfit (hbad hb)⟩
  cases c with
  | read fd len =>
    exact returns _ (fun hbad ⟨f, hf, _⟩ => hbad f hf) (transfer_returns O_WRONLY inodes.read)
  | write fd len =>
    exact returns _ (fun hbad ⟨f, hf, _⟩ => hbad f hf) (transfer_returns O_RDONLY inodes.write)
  | close fd => exact close_answered hc ht
  | lseek fd offset whence => exact lseek_answered hc ht offset whence
  | dup oldfd => exact dup_answered
  | dup2 oldfd newfd => exact dup2_answered hc ht newfd
  | fstat fd => exact fstat_answered hc ht
  | «open» inode flags =>
    cases inode with
    | none => exact iff_of_true ⟨EOF, k, rfl, fun _ => ⟨rfl, rfl⟩⟩ (Or.inl rfl)
    | some inode =>
      refine returns _ (fun hbad hfit => ?_) ?_
      · simp_all [Bad, Fit]
      · simpa [Fit, exec] using sysOpen_returns inode flags
  | pipe inode =>
    cases inode with
    | none =>
      refine iff_of_false ?_ fun h => h.1 rfl
      rintro ⟨r, k', hk, -⟩
      cases hk
    | some inode =>
      refine returns _ (fun hbad hfit => ?_) ?_
      · simp_all [Bad, Fit]
      · simpa [Fit, exec] using sysPipe_returns inode

/-- After booting: the first three descriptors are the console, and nothing else is open. -/
def bootFiles : OpenFiles Unit := ⟨Files.booted (), fun _ => 0⟩

def consoleInodes : FdInodes Unit where
  kind _ := .chr
  zone _ := 1
  size _ := 0
  read _ len := .ok (.ofInt len)
  write _ len := .ok (.ofInt len)

/-- A close of a descriptor that is not open does nothing. -/
theorem bad_descriptors_close : bootFiles.Answered consoleInodes Files.firstTask (.close 5) :=
  (bad_descriptors (Files.init_counts (Files.booted_init ())) rfl rfl (.close 5)).mpr (by decide : (5 : ℕ) < 16)

/-- A read from a descriptor that is not open fails an assertion. -/
theorem read_asserts : ¬ bootFiles.Answered consoleInodes Files.firstTask (.read 5 1) := by
  rintro ⟨r, k', hk, -⟩
  have hfails : bootFiles.exec consoleInodes Files.firstTask (.read 5 1) = .error (.halt (.assertion "file")) := rfl
  rw [hfails] at hk
  cases hk

end OpenFiles
end Onix
