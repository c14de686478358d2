import Onix.Kernel.Task
import Onix.Lib.RefCount
import Onix.Lib.Transition

/-! Open files, from file.c, pipe.c and tasks.c: the table of open files and the descriptors
of the tasks that point into it. A close can sleep in `iput` before the descriptor is
cleared, so it is cut there, for `sys_close` itself, for `sys_dup2` and for `task_exit`. -/

set_option autoImplicit false

namespace Onix

open Lib

abbrev FILE_NR : ℕ := 128
abbrev TASK_FILE_NR : ℕ := 16

def O_RDONLY : UInt32 := 0
def O_WRONLY : UInt32 := 1
def O_ACCMODE : UInt32 := 3

abbrev FileId := Fin FILE_NR
abbrev Fd := Fin TASK_FILE_NR

/-- What a task does after a close. -/
inductive AfterClose
  | close
  | dup2 (oldfd newfd : Fd)
  | exit (i : ℕ)
  deriving DecidableEq, Repr

/-- Where a task stands: outside, between `put_file` and `task_put_fd`, or in round `i` of the loop of `task_exit`. -/
inductive FilePhase
  | user
  | closing (fd : Fd) (next : AfterClose)
  | exiting (i : ℕ)
  | dead
  deriving DecidableEq, Repr

/-- The table of open files and the tasks, with the inodes of type `I`. `opens` and `iputs` count
how often an entry was given a reference on an inode, and how often `iput` was called for it. -/
structure Files (I : Type) where
  count : FileId → ℕ
  inode : FileId → Option I
  flags : FileId → UInt32
  present : Fin NR_TASKS → Bool
  phase : Fin NR_TASKS → FilePhase
  files : Fin NR_TASKS → Fd → Option FileId
  opens : FileId → ℕ
  iputs : FileId → ℕ

namespace Files

variable {I : Type}

def setPhase (s : Files I) (t : Fin NR_TASKS) (phase : FilePhase) : Files I :=
  { s with phase := Function.update s.phase t phase }

def setFd (s : Files I) (t : Fin NR_TASKS) (fd : Fd) (file : Option FileId) : Files I :=
  { s with files := Function.update s.files t (Function.update (s.files t) fd file) }

def getFile (s : Files I) : Except Halt (FileId × Files I) :=
  match (List.finRange FILE_NR).find? fun i => 3 ≤ i.val && s.count i = 0 with
  | some i => .ok (i, { s with count := Function.update s.count i (s.count i + 1) })
  | none => .error (.panic "Exceed max open files!!!")

/-- `put_file`, with the call of `iput` for the last reference. -/
def putFile (s : Files I) (f : FileId) : Except Halt (Files I) := do
  assert "file->count > 0" (0 < s.count f)
  let s := { s with count := Function.update s.count f (s.count f - 1) }
  if s.count f = 0 then .ok { s with iputs := Function.update s.iputs f (s.iputs f + 1) } else .ok s

def taskGetFd (s : Files I) (t : Fin NR_TASKS) : Except Halt Fd :=
  match (List.finRange TASK_FILE_NR).find? fun i => 3 ≤ i.val && (s.files t i).isNone with
  | some i => .ok i
  | none => .error (.panic "Exceed task max open files.")

/-- The entry is given an inode with a reference. -/
def setInode (s : Files I) (f : FileId) (inode : I) (flags : UInt32) : Files I :=
  { s with
    inode := Function.update s.inode f (some inode)
    flags := Function.update s.flags f flags
    opens := Function.update s.opens f (s.opens f + 1) }

/-- `sys_open` after `inode_open` found an inode. -/
def sysOpen (s : Files I) (t : Fin NR_TASKS) (inode : I) (flags : UInt32) : Except Halt (Files I) := do
  let fd ← s.taskGetFd t
  let (f, s) ← s.getFile
  let s := s.setFd t fd (some f)
  let s := s.setInode f inode flags
  .ok { s with count := Function.update s.count f 1 }

/-- `sys_pipe`, with the inode of `get_pipe_inode`, whose count is 2. -/
def sysPipe (s : Files I) (t : Fin NR_TASKS) (inode : I) : Except Halt (Files I) := do
  let fd₀ ← s.taskGetFd t
  let (f₀, s) ← s.getFile
  let s := s.setFd t fd₀ (some f₀)
  let fd₁ ← s.taskGetFd t
  let (f₁, s) ← s.getFile
  let s := s.setFd t fd₁ (some f₁)
  let s := s.setInode f₀ inode O_RDONLY
  .ok (s.setInode f₁ inode O_WRONLY)

/-- The descriptors of the child are counted one by one. -/
def countFiles (files : Fd → Option FileId) (count : FileId → ℕ) : FileId → ℕ :=
  (List.finRange TASK_FILE_NR).foldl (fun count i =>
    match files i with
    | some f => Function.update count f (count f + 1)
    | none => count) count

/-- `task_fork` into the free task `c`. -/
def taskFork (s : Files I) (t c : Fin NR_TASKS) : Files I :=
  { s with
    count := countFiles (s.files t) s.count
    present := Function.update s.present c true
    phase := Function.update s.phase c .user
    files := Function.update s.files c (s.files t) }

/-- `dupfd`; the loop looks for a free descriptor from `arg` on. -/
def dupfd (s : Files I) (t : Fin NR_TASKS) (fd arg : Fd) : Files I :=
  match s.files t fd with
  | none => s
  | some f =>
    match (List.finRange TASK_FILE_NR).find? fun i => arg ≤ i && (s.files t i).isNone with
    | some i => { s.setFd t i (some f) with count := Function.update s.count f (s.count f + 1) }
    | none => s

def afterClose (s : Files I) (t : Fin NR_TASKS) : AfterClose → Files I
  | .close => s.setPhase t .user
  | .dup2 oldfd newfd => (s.setPhase t .user).dupfd t oldfd newfd
  | .exit i => s.setPhase t (.exiting (i + 1))

/-- `sys_close` up to `put_file`. -/
def sysClose (s : Files I) (t : Fin NR_TASKS) (fd : Fd) (next : AfterClose) : Except Halt (Files I) :=
  match s.files t fd with
  | none => .ok (s.afterClose t next)
  | some f => do
    assert "file->inode" (s.inode f).isSome
    let s ← s.putFile f
    .ok (s.setPhase t (.closing fd next))

/-- `task_put_fd`, and on from there. -/
def taskPutFd (s : Files I) (t : Fin NR_TASKS) (fd : Fd) (next : AfterClose) : Files I :=
  (s.setFd t fd none).afterClose t next

/-- A round of the loop of `task_exit` over the descriptors. -/
def taskExitRound (s : Files I) (t : Fin NR_TASKS) (i : ℕ) : Except Halt (Files I) :=
  if h : i < TASK_FILE_NR then s.sysClose t ⟨i, h⟩ (.exit i) else .ok (s.setPhase t .dead)

inductive Event (I : Type)
  | open (t : Fin NR_TASKS) (inode : I) (flags : UInt32)
  | pipe (t : Fin NR_TASKS) (inode : I)
  | fork (t c : Fin NR_TASKS)
  | dup (t : Fin NR_TASKS) (oldfd : Fd)
  | dup2 (t : Fin NR_TASKS) (oldfd newfd : Fd)
  | close (t : Fin NR_TASKS) (fd : Fd)
  | exit (t : Fin NR_TASKS)
  /-- The task goes on with a close or with `task_exit`. -/
  | resume (t : Fin NR_TASKS)
  /-- The task is waited for. -/
  | reap (t : Fin NR_TASKS)

def Enabled (s : Files I) : Event I → Prop
  | .open t _ _ | .pipe t _ | .dup t _ | .dup2 t _ _ | .close t _ | .exit t => s.present t = true ∧ s.phase t = .user
  | .fork t c => s.present t = true ∧ s.phase t = .user ∧ s.present c = false
  | .resume t => s.present t = true ∧ s.phase t ≠ .user ∧ s.phase t ≠ .dead
  | .reap t => s.present t = true ∧ s.phase t = .dead

def exec (s : Files I) : Event I → Except Halt (Files I)
  | .open t inode flags => s.sysOpen t inode flags
  | .pipe t inode => s.sysPipe t inode
  | .fork t c => .ok (s.taskFork t c)
  | .dup t oldfd => .ok (s.dupfd t oldfd 0)
  | .dup2 t oldfd newfd => s.sysClose t newfd (.dup2 oldfd newfd)
  | .close t fd => s.sysClose t fd .close
  | .exit t => .ok (s.setPhase t (.exiting 0))
  | .resume t =>
    match s.phase t with
    | .closing fd next => .ok (s.taskPutFd t fd next)
    | .exiting i => s.taskExitRound t i
    | _ => .ok s
  | .reap t => .ok { s with present := Function.update s.present t false }

def Step (s : Files I) (e : Event I) (s' : Files I) : Prop := s.Enabled e ∧ s.exec e = .ok s'

/-- After `dev_init`: every task has the first three entries as its first three descriptors. -/
structure Init (s : Files I) : Prop where
  someone : ∃ t, s.present t = true
  phase : ∀ t, s.phase t = .user
  files : ∀ t fd, s.files t fd = if h : s.present t = true ∧ fd.val < 3 then some ⟨fd.val, h.2.trans (by decide)⟩ else none
  count : ∀ f, s.count f = if f.val < 3 then (Finset.univ.filter fun t => s.present t = true).card else 0
  inode : ∀ f, f.val < 3 → (s.inode f).isSome = true
  opens : ∀ f, s.opens f = if f.val < 3 then 1 else 0
  iputs : ∀ f, s.iputs f = 0

/-- The entry a descriptor of a live task refers to; one that is being closed counts as closed. -/
def slot (s : Files I) (k : Fin NR_TASKS × Fd) : Option FileId :=
  if s.present k.1 = false ∨ s.phase k.1 = .dead then none
  else match s.phase k.1 with
    | .closing fd _ => if fd = k.2 then none else s.files k.1 k.2
    | _ => s.files k.1 k.2

/-! ### What every call keeps -/

/-- The counts of the entries, against the descriptors and against the inodes. -/
structure Counts (s : Files I) : Prop where
  count : ∀ f, s.count f = refCount s.slot f
  holds : ∀ f, s.opens f = s.iputs f + if 0 < s.count f then 1 else 0
  inode : ∀ f, 0 < s.count f → (s.inode f).isSome = true

/-- A task that exits has closed the descriptors of the rounds it is through with. -/
structure Exits (s : Files I) : Prop where
  exiting : ∀ t i, s.phase t = .exiting i → ∀ j : Fd, j.val < i → s.files t j = none
  closing : ∀ t fd i, s.phase t = .closing fd (.exit i) → fd.val = i ∧ ∀ j : Fd, j.val < i → s.files t j = none

variable {s s' : Files I} {t : Fin NR_TASKS} {fd : Fd} {f : FileId}

/-- Neither in the middle of a close nor gone. -/
def Open (s : Files I) (t : Fin NR_TASKS) : Prop :=
  s.present t = true ∧ (s.phase t = .user ∨ ∃ i, s.phase t = .exiting i)

theorem Open.slot (h : s.Open t) (fd : Fd) : s.slot (t, fd) = s.files t fd := by
  obtain ⟨hp, h | ⟨i, h⟩⟩ := h <;> simp [Files.slot, hp, h]

/-- The slots of a task depend on that task alone. -/
theorem slot_congr (s s' : Files I) {t : Fin NR_TASKS} (hpresent : s'.present t = s.present t) (hphase : s'.phase t = s.phase t)
    (hfiles : s'.files t = s.files t) (fd : Fd) : s'.slot (t, fd) = s.slot (t, fd) := by
  simp [slot, hpresent, hphase, hfiles]

theorem slot_setFd (ht : s.Open t) (file : Option FileId) :
    (s.setFd t fd file).slot = Function.update s.slot (t, fd) file := by
  have ht' : (s.setFd t fd file).Open t := ht
  funext ⟨u, g⟩
  rw [Function.update_apply]
  by_cases hu : u = t
  · subst hu
    rw [ht'.slot, ht.slot]
    simp only [setFd, Function.update_self, Function.update_apply, Prod.mk.injEq, true_and]
  · rw [if_neg fun he => hu (congrArg Prod.fst he)]
    have hfiles : (s.setFd t fd file).files u = s.files u := Function.update_of_ne hu _ _
    exact slot_congr s (s.setFd t fd file) rfl rfl hfiles g

theorem Counts.same (h : s.Counts) (hcount : s'.count = s.count) (hinode : s'.inode = s.inode) (hopens : s'.opens = s.opens)
    (hiputs : s'.iputs = s.iputs) (hslot : s'.slot = s.slot) : s'.Counts := by
  refine ⟨fun f => ?_, fun f => ?_, fun f => ?_⟩
  · rw [hcount, hslot]
    exact h.count f
  · rw [hopens, hiputs, hcount]
    exact h.holds f
  · rw [hcount, hinode]
    exact h.inode f

/-- One more descriptor for an entry in use. -/
theorem Counts.share (h : s.Counts) (ht : s.Open t) (hfree : s.files t fd = none) (hf : 0 < s.count f) :
    ({ s.setFd t fd (some f) with count := Function.update s.count f (s.count f + 1) } : Files I).Counts := by
  have hslot : s.slot (t, fd) = none := (ht.slot fd).trans hfree
  refine ⟨fun g => ?_, fun g => ?_, fun g hg => ?_⟩
  · have hrefs := refCount_update s.slot (t, fd) (some f) g
    rw [← slot_setFd ht (some f), hslot] at hrefs
    change Function.update s.count f _ g = refCount (s.setFd t fd (some f)).slot g
    rw [Function.update_apply]
    split_ifs with hgf
    · simp only [hgf, reduceCtorEq, if_false, if_true] at hrefs ⊢
      rw [h.count f]
      omega
    · simp only [reduceCtorEq, if_false, Option.some.injEq, Ne.symm hgf] at hrefs
      rw [h.count g]
      omega
  · change s.opens g = s.iputs g + if 0 < Function.update s.count f _ g then 1 else 0
    rw [h.holds g, Function.update_apply]
    split_ifs <;> simp_all
  · change (s.inode g).isSome = true
    apply h.inode g
    change 0 < Function.update s.count f _ g at hg
    rw [Function.update_apply] at hg
    split_ifs at hg with hgf
    · exact hgf ▸ hf
    · exact hg

/-- An entry that nobody uses is put in a descriptor, with an inode. -/
def attach (s : Files I) (t : Fin NR_TASKS) (fd : Fd) (f : FileId) (inode : I) (flags : UInt32) : Files I :=
  ({ s with count := Function.update s.count f (s.count f + 1) }.setFd t fd (some f)).setInode f inode flags

theorem Counts.attach (h : s.Counts) (ht : s.Open t) (hfree : s.files t fd = none) (hf : s.count f = 0) (inode : I)
    (flags : UInt32) : (s.attach t fd f inode flags).Counts := by
  have hslot : s.slot (t, fd) = none := (ht.slot fd).trans hfree
  refine ⟨fun g => ?_, fun g => ?_, fun g hg => ?_⟩
  · have hrefs := refCount_update s.slot (t, fd) (some f) g
    rw [← slot_setFd ht (some f), hslot] at hrefs
    change Function.update s.count f _ g = refCount (s.setFd t fd (some f)).slot g
    rw [Function.update_apply]
    split_ifs with hgf
    · simp only [hgf, reduceCtorEq, if_false, if_true] at hrefs ⊢
      rw [h.count f]
      omega
    · simp only [reduceCtorEq, if_false, Option.some.injEq, Ne.symm hgf] at hrefs
      rw [h.count g]
      omega
  · have hg := h.holds g
    change Function.update s.opens f (s.opens f + 1) g =
      s.iputs g + if 0 < Function.update s.count f (s.count f + 1) g then 1 else 0
    simp only [Function.update_apply]
    split_ifs at hg ⊢ with hgf <;> subst_vars <;> omega
  · change (Function.update s.inode f (some inode) g).isSome = true
    change 0 < Function.update s.count f _ g at hg
    rw [Function.update_apply] at hg ⊢
    split_ifs at hg ⊢
    · rfl
    · exact h.inode g hg

/-- `put_file` for a descriptor that from now on counts as closed. -/
theorem Counts.putFile (h : s.Counts) (ht : s.Open t) (hfd : s.files t fd = some f) (next : AfterClose) :
    ∃ s', s.putFile f = .ok s' ∧ (s'.setPhase t (.closing fd next)).Counts ∧ s'.files = s.files ∧ s'.phase = s.phase ∧
      s'.present = s.present ∧ s'.inode = s.inode ∧ s'.flags = s.flags ∧ s'.opens = s.opens ∧
      s'.count = Function.update s.count f (s.count f - 1) ∧
      s'.iputs = if s.count f = 1 then Function.update s.iputs f (s.iputs f + 1) else s.iputs := by
  have hslot : s.slot (t, fd) = some f := (ht.slot fd).trans hfd
  have hpos : 0 < s.count f := by
    rw [h.count f]
    exact refCount_pos hslot
  have hupdate : ∀ s' : Files I, s'.files = s.files → s'.phase = s.phase → s'.present = s.present →
      (s'.setPhase t (.closing fd next)).slot = Function.update s.slot (t, fd) none := by
    intro s' hfiles hphase hpresent
    funext ⟨u, g⟩
    rw [Function.update_apply]
    by_cases hu : u = t
    · subst hu
      rw [ht.slot g]
      simp only [slot, setPhase, Function.update_self, hpresent, ht.1, hfiles, Prod.mk.injEq, true_and,
        reduceCtorEq, Bool.true_eq_false, or_self, if_false, eq_comm (a := fd)]
    · rw [if_neg fun he => hu (congrArg Prod.fst he)]
      have hphase' : (s'.setPhase t (.closing fd next)).phase u = s.phase u :=
        (Function.update_of_ne hu _ _).trans (congrFun hphase u)
      exact slot_congr s (s'.setPhase t (.closing fd next)) (congrFun hpresent u) hphase' (congrFun hfiles u) g
  have hcount : ∀ g, Function.update s.count f (s.count f - 1) g = refCount (Function.update s.slot (t, fd) none) g := by
    intro g
    have hrefs := refCount_update s.slot (t, fd) none g
    rw [hslot] at hrefs
    rw [Function.update_apply]
    split_ifs with hgf
    · subst hgf
      have := h.count g
      simp only [reduceCtorEq, if_false, if_true] at hrefs
      omega
    · simp only [reduceCtorEq, if_false, Option.some.injEq, Ne.symm hgf] at hrefs
      rw [h.count g]
      omega
  have hinode : ∀ g, 0 < Function.update s.count f (s.count f - 1) g → (s.inode g).isSome = true := by
    intro g hg
    rw [Function.update_apply] at hg
    split_ifs at hg with hgf
    · exact h.inode g (hgf ▸ hpos)
    · exact h.inode g hg
  unfold Files.putFile
  simp only [hpos, decide_true, assert_true, ok_bind, Function.update_self]
  by_cases hlast : s.count f - 1 = 0
  · rw [if_pos hlast]
    refine ⟨_, rfl, ⟨fun g => ?_, fun g => ?_, hinode⟩, rfl, rfl, rfl, rfl, rfl, rfl, rfl, ?_⟩
    · exact (hcount g).trans (congrArg (fun h => refCount h g) (hupdate _ rfl rfl rfl).symm)
    · have hg := h.holds g
      change s.opens g = Function.update s.iputs f (s.iputs f + 1) g +
        if 0 < Function.update s.count f (s.count f - 1) g then 1 else 0
      simp only [Function.update_apply]
      split_ifs at hg ⊢ with hgf <;> subst_vars <;> omega
    · rw [if_pos (by omega)]
  · rw [if_neg hlast]
    refine ⟨_, rfl, ⟨fun g => ?_, fun g => ?_, hinode⟩, rfl, rfl, rfl, rfl, rfl, rfl, rfl, ?_⟩
    · exact (hcount g).trans (congrArg (fun h => refCount h g) (hupdate _ rfl rfl rfl).symm)
    · have hg := h.holds g
      change s.opens g = s.iputs g + if 0 < Function.update s.count f (s.count f - 1) g then 1 else 0
      simp only [Function.update_apply]
      split_ifs at hg ⊢ with hgf <;> subst_vars <;> omega
    · rw [if_neg (by omega)]

/-! ### Phases -/

/-- A task that does not exit, or for which nothing changed, has nothing to show. -/
theorem Exits.of_others (h : s.Exits) (hother : ∀ u, s'.phase u = s.phase u ∧ s'.files u = s.files u ∨
    s'.phase u = .user ∨ s'.phase u = .dead) : s'.Exits := by
  refine ⟨fun u i hu => ?_, fun u fd i hu => ?_⟩
  · rcases hother u with ⟨h1, h2⟩ | h1 | h1
    · rw [h2]
      exact h.exiting u i (h1 ▸ hu)
    · rw [h1] at hu
      cases hu
    · rw [h1] at hu
      cases hu
  · rcases hother u with ⟨h1, h2⟩ | h1 | h1
    · rw [h2]
      exact h.closing u fd i (h1 ▸ hu)
    · rw [h1] at hu
      cases hu
    · rw [h1] at hu
      cases hu

theorem setPhase_other (s : Files I) {t u : Fin NR_TASKS} (hu : u ≠ t) (phase : FilePhase) :
    (s.setPhase t phase).phase u = s.phase u := Function.update_of_ne hu _ _

theorem setPhase_self (s : Files I) (t : Fin NR_TASKS) (phase : FilePhase) : (s.setPhase t phase).phase t = phase :=
  Function.update_self ..

/-- Between two calls, or two rounds of `task_exit`, the phase does not hide a descriptor. -/
theorem slot_setPhase (ht : s.Open t) {phase : FilePhase} (hphase : phase = .user ∨ ∃ i, phase = .exiting i) :
    (s.setPhase t phase).slot = s.slot := by
  have ht' : (s.setPhase t phase).Open t := ⟨ht.1, by rwa [setPhase_self]⟩
  funext ⟨u, g⟩
  by_cases hu : u = t
  · subst hu
    rw [ht.slot, ht'.slot]
    rfl
  · exact slot_congr s (s.setPhase t phase) rfl (setPhase_other s hu phase) rfl g

/-- `task_put_fd` clears a descriptor that did not count any more. -/
theorem slot_putFd {next : AfterClose} (hpresent : s.present t = true) (hclosing : s.phase t = .closing fd next)
    {phase : FilePhase} (hphase : phase = .user ∨ ∃ i, phase = .exiting i) :
    ((s.setFd t fd none).setPhase t phase).slot = s.slot := by
  have ht' : ((s.setFd t fd none).setPhase t phase).Open t := ⟨hpresent, by rwa [setPhase_self]⟩
  funext ⟨u, g⟩
  by_cases hu : u = t
  · subst hu
    rw [ht'.slot]
    change Function.update s.files u (Function.update (s.files u) fd none) u g = _
    simp only [Function.update_self, Function.update_apply, slot, hpresent, hclosing, reduceCtorEq, Bool.true_eq_false,
      or_self, if_false, eq_comm (a := fd)]
  · have hfiles : ((s.setFd t fd none).setPhase t phase).files u = s.files u := Function.update_of_ne hu _ _
    exact slot_congr s ((s.setFd t fd none).setPhase t phase) rfl (setPhase_other _ hu phase) hfiles g

/-! ### The calls -/

theorem getFile_ok (h : s.getFile = .ok (f, s')) :
    s.count f = 0 ∧ s' = { s with count := Function.update s.count f (s.count f + 1) } := by
  unfold getFile at h
  split at h
  · rename_i i hfind
    cases h
    have := List.find?_some hfind
    simp only [Bool.and_eq_true, decide_eq_true_eq] at this
    exact ⟨this.2, rfl⟩
  · cases h

theorem taskGetFd_ok (h : s.taskGetFd t = .ok fd) : s.files t fd = none := by
  unfold taskGetFd at h
  split at h
  · rename_i i hfind
    cases h
    have := List.find?_some hfind
    simp only [Bool.and_eq_true, Option.isNone_iff_eq_none] at this
    exact this.2
  · cases h

theorem dupfd_spec (hc : s.Counts) (he : s.Exits) (hpresent : s.present t = true) (hphase : s.phase t = .user)
    (fd arg : Fd) : (s.dupfd t fd arg).Counts ∧ (s.dupfd t fd arg).Exits := by
  have ht : s.Open t := ⟨hpresent, Or.inl hphase⟩
  unfold dupfd
  split
  · exact ⟨hc, he⟩
  · rename_i f hf
    have hpos : 0 < s.count f := by
      rw [hc.count f]
      exact refCount_pos ((ht.slot fd).trans hf)
    split
    · rename_i i hfind
      have hfree := List.find?_some hfind
      simp only [Bool.and_eq_true, Option.isNone_iff_eq_none] at hfree
      refine ⟨hc.share ht hfree.2 hpos, he.of_others fun u => ?_⟩
      by_cases hu : u = t
      · exact Or.inr (Or.inl (hu ▸ hphase))
      · exact Or.inl ⟨rfl, Function.update_of_ne hu _ _⟩
    · exact ⟨hc, he⟩

theorem afterClose_spec {next : AfterClose} (hpresent : s.present t = true)
    (hc : ∀ phase, (phase = .user ∨ ∃ i, phase = .exiting i) → (s.setPhase t phase).Counts)
    (he : s.Exits ∨ ∀ u, u ≠ t → (∀ i, s.phase u = .exiting i → ∀ j : Fd, j.val < i → s.files u j = none) ∧
      ∀ fd i, s.phase u = .closing fd (.exit i) → fd.val = i ∧ ∀ j : Fd, j.val < i → s.files u j = none)
    (hexit : ∀ i, next = .exit i → ∀ j : Fd, j.val < i + 1 → s.files t j = none) :
    (s.afterClose t next).Counts ∧ (s.afterClose t next).Exits := by
  have hothers : ∀ phase, (phase = .user ∨ ∃ i, phase = .exiting i ∧ ∀ j : Fd, j.val < i → s.files t j = none) →
      (s.setPhase t phase).Exits := by
    intro phase hphase
    have hrest : ∀ u, u ≠ t → (∀ i, s.phase u = .exiting i → ∀ j : Fd, j.val < i → s.files u j = none) ∧
        ∀ fd i, s.phase u = .closing fd (.exit i) → fd.val = i ∧ ∀ j : Fd, j.val < i → s.files u j = none := by
      rcases he with he | he
      · exact fun u _ => ⟨he.exiting u, he.closing u⟩
      · exact he
    refine ⟨fun u i hu => ?_, fun u fd i hu => ?_⟩
    · by_cases hut : u = t
      · subst hut
        rw [setPhase_self] at hu
        rcases hphase with rfl | ⟨i', rfl, hnone⟩
        · cases hu
        · cases hu
          exact hnone
      · rw [setPhase_other s hut] at hu
        exact (hrest u hut).1 i hu
    · by_cases hut : u = t
      · subst hut
        rw [setPhase_self] at hu
        rcases hphase with rfl | ⟨i', rfl, -⟩ <;> cases hu
      · rw [setPhase_other s hut] at hu
        exact (hrest u hut).2 fd i hu
  cases next with
  | close => exact ⟨hc _ (Or.inl rfl), hothers _ (Or.inl rfl)⟩
  | dup2 oldfd newfd =>
    exact dupfd_spec (hc _ (Or.inl rfl)) (hothers _ (Or.inl rfl)) hpresent (setPhase_self s t .user) oldfd newfd
  | exit i => exact ⟨hc _ (Or.inr ⟨_, rfl⟩), hothers _ (Or.inr ⟨_, rfl, hexit i rfl⟩)⟩

theorem sysClose_spec (hc : s.Counts) (he : s.Exits) (ht : s.Open t) (fd : Fd) {next : AfterClose}
    (hnext : ∀ i, next = .exit i → fd.val = i ∧ s.phase t = .exiting i) :
    ∃ s', s.sysClose t fd next = .ok s' ∧ s'.Counts ∧ s'.Exits := by
  unfold sysClose
  cases hfd : s.files t fd with
  | none =>
    refine ⟨_, rfl, afterClose_spec ht.1 (fun phase hphase => hc.same rfl rfl rfl rfl (slot_setPhase ht hphase))
      (Or.inl he) fun i hi j hj => ?_⟩
    obtain ⟨hfi, hphase⟩ := hnext i hi
    by_cases hji : j.val < i
    · exact he.exiting t i hphase j hji
    · rw [show j = fd from Fin.ext (by omega), hfd]
  | some f =>
    have hpos : 0 < s.count f := by
      rw [hc.count f]
      exact refCount_pos ((ht.slot fd).trans hfd)
    obtain ⟨s₁, hput, hcounts, hfiles, hphase, -⟩ := hc.putFile ht hfd next
    refine ⟨s₁.setPhase t (.closing fd next), ?_, hcounts, fun u i hu => ?_, fun u g i hu => ?_⟩
    · simp only [hc.inode f hpos, assert_true, ok_bind, hput]
    · change ∀ j : Fd, j.val < i → s₁.files u j = none
      by_cases hut : u = t
      · subst hut
        rw [setPhase_self] at hu
        cases hu
      · rw [setPhase_other s₁ hut, hphase] at hu
        rw [hfiles]
        exact he.exiting u i hu
    · change g.val = i ∧ ∀ j : Fd, j.val < i → s₁.files u j = none
      by_cases hut : u = t
      · subst hut
        rw [setPhase_self] at hu
        cases hu
        obtain ⟨hfi, hexiting⟩ := hnext i rfl
        rw [hfiles]
        exact ⟨hfi, he.exiting u i hexiting⟩
      · rw [setPhase_other s₁ hut, hphase] at hu
        rw [hfiles]
        exact he.closing u g i hu

theorem taskPutFd_spec (hc : s.Counts) (he : s.Exits) (hpresent : s.present t = true) {next : AfterClose}
    (hclosing : s.phase t = .closing fd next) : (s.taskPutFd t fd next).Counts ∧ (s.taskPutFd t fd next).Exits := by
  have hself : (s.setFd t fd none).files t = Function.update (s.files t) fd none := Function.update_self ..
  refine afterClose_spec hpresent (fun phase hphase => hc.same rfl rfl rfl rfl (slot_putFd hpresent hclosing hphase))
    (Or.inr fun u hu => ?_) fun i hi j hj => ?_
  · rw [show (s.setFd t fd none).files u = s.files u from Function.update_of_ne hu _ _]
    exact ⟨he.exiting u, he.closing u⟩
  · rw [hi] at hclosing
    obtain ⟨hfi, hbelow⟩ := he.closing t fd i hclosing
    rw [hself, Function.update_apply]
    split_ifs with hjf
    · rfl
    · have hne : j.val ≠ fd.val := fun h => hjf (Fin.ext h)
      exact hbelow j (by omega)

theorem countFiles_eq (files : Fd → Option FileId) (count : FileId → ℕ) (f : FileId) :
    countFiles files count f = count f + refCount files f := by
  have main : ∀ (l : List Fd) (count : FileId → ℕ), l.foldl (fun count i =>
      match files i with
      | some f => Function.update count f (count f + 1)
      | none => count) count f = count f + (l.map fun i => if files i = some f then 1 else 0).sum := by
    intro l
    induction l with
    | nil => exact fun _ => rfl
    | cons i l ih =>
      intro count
      rw [List.foldl_cons, ih, List.map_cons, List.sum_cons]
      cases hi : files i with
      | none => simp
      | some g =>
        dsimp only
        rw [Function.update_apply]
        by_cases hfg : f = g
        · rw [if_pos hfg, if_pos (by rw [hfg]), hfg]
          omega
        · rw [if_neg hfg, if_neg fun he => hfg (Option.some.inj he).symm]
          omega
  rw [countFiles, main, refCount, Fin.sum_univ_def]

theorem taskFork_spec (hc : s.Counts) (he : s.Exits) {c : Fin NR_TASKS} (ht : s.Open t) (hcfree : s.present c = false) :
    (s.taskFork t c).Counts ∧ (s.taskFork t c).Exits := by
  have hchild : (s.taskFork t c).Open c := ⟨Function.update_self .., Or.inl (Function.update_self ..)⟩
  have hfiles : (s.taskFork t c).files c = s.files t := Function.update_self ..
  have hother : ∀ u, u ≠ c → (s.taskFork t c).phase u = s.phase u ∧ (s.taskFork t c).files u = s.files u ∧
      (s.taskFork t c).present u = s.present u := fun u hu =>
    ⟨Function.update_of_ne hu _ _, Function.update_of_ne hu _ _, Function.update_of_ne hu _ _⟩
  have hrefs : ∀ f, refCount (s.taskFork t c).slot f = refCount s.slot f + refCount (s.files t) f := by
    intro f
    have hsame : (fun d => (s.taskFork t c).slot (c, d)) = s.files t :=
      funext fun d => (hchild.slot d).trans (congrFun hfiles d)
    rw [← hsame]
    refine refCount_fill ⟨fun fd : Fd => (c, fd), Prod.mk_right_injective c⟩ (fun k hk => ?_) (fun d => ?_) f
    · obtain ⟨u, g⟩ := k
      have hu : u ≠ c := by
        rintro rfl
        exact hk ⟨g, rfl⟩
      obtain ⟨h1, h2, h3⟩ := hother u hu
      exact slot_congr s (s.taskFork t c) h3 h1 h2 g
    · exact if_pos (Or.inl hcfree)
  have hpos : ∀ f, 0 < refCount (s.files t) f → 0 < s.count f := by
    intro f hf
    obtain ⟨d, -, hd⟩ := Finset.exists_ne_zero_of_sum_ne_zero (Nat.pos_iff_ne_zero.mp hf)
    have hd' : s.files t d = some f := by
      by_contra hne
      exact hd (if_neg hne)
    rw [hc.count f]
    exact refCount_pos ((ht.slot d).trans hd')
  refine ⟨⟨fun f => ?_, fun f => ?_, fun f hf => ?_⟩, he.of_others fun u => ?_⟩
  · rw [hrefs, ← hc.count]
    exact countFiles_eq _ _ f
  · have h1 := hc.holds f
    have h2 := countFiles_eq (s.files t) s.count f
    have h3 := hpos f
    change s.opens f = s.iputs f + if 0 < countFiles (s.files t) s.count f then 1 else 0
    split_ifs at h1 ⊢ <;> omega
  · have h2 := countFiles_eq (s.files t) s.count f
    have h3 := hpos f
    change 0 < countFiles (s.files t) s.count f at hf
    apply hc.inode f
    by_contra h0
    omega
  · by_cases hu : u = c
    · exact Or.inr (Or.inl (hu ▸ Function.update_self ..))
    · exact Or.inl ⟨(hother u hu).1, (hother u hu).2.1⟩

theorem attach_exits (he : s.Exits) (ht : s.phase t = .user) (inode : I) (flags : UInt32) :
    (s.attach t fd f inode flags).Exits := by
  refine he.of_others fun u => ?_
  by_cases hu : u = t
  · exact Or.inr (Or.inl (hu ▸ ht))
  · exact Or.inl ⟨rfl, Function.update_of_ne hu _ _⟩

/-- `sys_open` puts a fresh entry in a free descriptor. -/
theorem sysOpen_ok {inode : I} {flags : UInt32} (h : s.sysOpen t inode flags = .ok s') :
    ∃ fd f, s.files t fd = none ∧ s.count f = 0 ∧ s' = s.attach t fd f inode flags := by
  obtain ⟨fd, hfd, h⟩ := bind_ok.mp h
  obtain ⟨⟨f, s₁⟩, hget, h⟩ := bind_ok.mp h
  obtain ⟨hcount, rfl⟩ := getFile_ok hget
  refine ⟨fd, f, taskGetFd_ok hfd, hcount, ?_⟩
  cases h
  simp only [attach, setInode, setFd, Function.update_idem, hcount]

/-- `sys_pipe` does so twice. -/
theorem sysPipe_ok {inode : I} (h : s.sysPipe t inode = .ok s') :
    ∃ fd₀ f₀ fd₁ f₁, s.files t fd₀ = none ∧ s.count f₀ = 0 ∧ (s.attach t fd₀ f₀ inode O_RDONLY).files t fd₁ = none ∧
      (s.attach t fd₀ f₀ inode O_RDONLY).count f₁ = 0 ∧
      s' = (s.attach t fd₀ f₀ inode O_RDONLY).attach t fd₁ f₁ inode O_WRONLY := by
  obtain ⟨fd₀, hfd₀, h⟩ := bind_ok.mp h
  obtain ⟨⟨f₀, s₀⟩, hget₀, h⟩ := bind_ok.mp h
  obtain ⟨hcount₀, rfl⟩ := getFile_ok hget₀
  obtain ⟨fd₁, hfd₁, h⟩ := bind_ok.mp h
  obtain ⟨⟨f₁, s₁⟩, hget₁, h⟩ := bind_ok.mp h
  obtain ⟨hcount₁, rfl⟩ := getFile_ok hget₁
  refine ⟨fd₀, f₀, fd₁, f₁, taskGetFd_ok hfd₀, hcount₀, taskGetFd_ok hfd₁, hcount₁, ?_⟩
  cases h
  rfl

/-! ### Runs -/

/-- `iput` is called for the entries whose last descriptor was closed, once each. -/
def Puts (s s' : Files I) : Prop :=
  ∀ f, s'.iputs f = s.iputs f + if 0 < s.count f ∧ s'.count f = 0 then 1 else 0

/-- No entry loses a reference. -/
structure Grows (s s' : Files I) : Prop where
  iputs : s'.iputs = s.iputs
  count : ∀ f, s.count f ≤ s'.count f

theorem Grows.puts (h : Grows s s') : Puts s s' := by
  intro f
  have := h.count f
  rw [h.iputs, if_neg (by omega)]
  rfl

theorem grows_update (s s' : Files I) (f : FileId) (hiputs : s'.iputs = s.iputs)
    (hcount : s'.count = Function.update s.count f (s.count f + 1)) : Grows s s' := by
  refine ⟨hiputs, fun g => ?_⟩
  rw [hcount, Function.update_apply]
  split_ifs with hg
  · rw [hg]
    omega
  · exact le_rfl

theorem dupfd_grows (s : Files I) (t : Fin NR_TASKS) (fd arg : Fd) : Grows s (s.dupfd t fd arg) := by
  unfold dupfd
  split
  · exact ⟨rfl, fun _ => le_rfl⟩
  · split
    · exact grows_update s _ _ rfl rfl
    · exact ⟨rfl, fun _ => le_rfl⟩

theorem afterClose_grows (s : Files I) (t : Fin NR_TASKS) (next : AfterClose) : Grows s (s.afterClose t next) := by
  cases next with
  | close => exact ⟨rfl, fun _ => le_rfl⟩
  | dup2 oldfd newfd =>
    have h := dupfd_grows (s.setPhase t .user) t oldfd newfd
    exact ⟨h.iputs, h.count⟩
  | exit i => exact ⟨rfl, fun _ => le_rfl⟩

theorem sysClose_puts {next : AfterClose} (hc : s.Counts) (ht : s.Open t) (h : s.sysClose t fd next = .ok s') : Puts s s' := by
  unfold sysClose at h
  cases hfd : s.files t fd with
  | none =>
    rw [hfd] at h
    cases h
    exact (afterClose_grows s t next).puts
  | some f =>
    obtain ⟨s₁, hput, -, -, -, -, -, -, -, hcount, hiputs⟩ := hc.putFile ht hfd next
    rw [hfd] at h
    simp only [hput] at h
    obtain ⟨_, -, h⟩ := bind_ok.mp h
    cases h
    have hpos : 0 < s.count f := by
      rw [hc.count f]
      exact refCount_pos ((ht.slot fd).trans hfd)
    intro g
    change s₁.iputs g = s.iputs g + if 0 < s.count g ∧ s₁.count g = 0 then 1 else 0
    rw [hiputs, hcount, Function.update_apply]
    by_cases hg : g = f
    · subst hg
      rw [if_pos rfl]
      by_cases h1 : s.count g = 1
      · rw [if_pos h1, if_pos ⟨hpos, by omega⟩, Function.update_self]
      · rw [if_neg h1, if_neg (by omega)]
        rfl
    · have hno : ¬ (0 < s.count g ∧ s.count g = 0) := by omega
      have hsame : (if s.count f = 1 then Function.update s.iputs f (s.iputs f + 1) else s.iputs) g = s.iputs g := by
        split_ifs
        · exact Function.update_of_ne hg _ _
        · rfl
      rw [hsame, if_neg hg, if_neg hno]
      rfl

theorem step_inv {e : Event I} (hc : s.Counts) (he : s.Exits) (h : Step s e s') : s'.Counts ∧ s'.Exits ∧ Puts s s' := by
  obtain ⟨henabled, hexec⟩ := h
  have close : ∀ {t fd next}, s.Open t → (∀ i, next = .exit i → fd.val = i ∧ s.phase t = .exiting i) →
      s.sysClose t fd next = .ok s' → s'.Counts ∧ s'.Exits ∧ Puts s s' := by
    intro t fd next ht hnext hclose
    obtain ⟨s₁, hok, h1, h2⟩ := sysClose_spec hc he ht fd hnext
    have hputs := sysClose_puts hc ht hclose
    rw [hclose] at hok
    cases hok
    exact ⟨h1, h2, hputs⟩
  cases e with
  | «open» t inode flags =>
    obtain ⟨hpresent, huser⟩ := henabled
    obtain ⟨fd, f, hfree, hcount, rfl⟩ := sysOpen_ok hexec
    exact ⟨hc.attach ⟨hpresent, Or.inl huser⟩ hfree hcount inode flags, attach_exits he huser inode flags,
      (grows_update s (s.attach t fd f inode flags) f rfl rfl).puts⟩
  | pipe t inode =>
    obtain ⟨hpresent, huser⟩ := henabled
    obtain ⟨fd₀, f₀, fd₁, f₁, hfree₀, hcount₀, hfree₁, hcount₁, rfl⟩ := sysPipe_ok hexec
    have hc₀ := hc.attach ⟨hpresent, Or.inl huser⟩ hfree₀ hcount₀ inode O_RDONLY
    have he₀ : (s.attach t fd₀ f₀ inode O_RDONLY).Exits := attach_exits he huser inode O_RDONLY
    have hg₀ : Grows s (s.attach t fd₀ f₀ inode O_RDONLY) := grows_update s (s.attach t fd₀ f₀ inode O_RDONLY) f₀ rfl rfl
    have hg₁ : Grows (s.attach t fd₀ f₀ inode O_RDONLY) ((s.attach t fd₀ f₀ inode O_RDONLY).attach t fd₁ f₁ inode O_WRONLY) :=
      grows_update (s.attach t fd₀ f₀ inode O_RDONLY) _ f₁ rfl rfl
    have hg : Grows s ((s.attach t fd₀ f₀ inode O_RDONLY).attach t fd₁ f₁ inode O_WRONLY) :=
      ⟨hg₁.iputs.trans hg₀.iputs, fun f => (hg₀.count f).trans (hg₁.count f)⟩
    exact ⟨hc₀.attach ⟨hpresent, Or.inl huser⟩ hfree₁ hcount₁ inode O_WRONLY, attach_exits he₀ huser inode O_WRONLY, hg.puts⟩
  | fork t c =>
    obtain ⟨hpresent, huser, hfree⟩ := henabled
    cases hexec
    obtain ⟨h1, h2⟩ := taskFork_spec hc he ⟨hpresent, Or.inl huser⟩ hfree
    refine ⟨h1, h2, Grows.puts ⟨rfl, fun f => ?_⟩⟩
    have := countFiles_eq (s.files t) s.count f
    change s.count f ≤ countFiles (s.files t) s.count f
    omega
  | dup t oldfd =>
    obtain ⟨hpresent, huser⟩ := henabled
    cases hexec
    obtain ⟨h1, h2⟩ := dupfd_spec hc he hpresent huser oldfd 0
    exact ⟨h1, h2, (dupfd_grows s t oldfd 0).puts⟩
  | dup2 t oldfd newfd => exact close ⟨henabled.1, Or.inl henabled.2⟩ (fun i hi => by cases hi) hexec
  | close t fd => exact close ⟨henabled.1, Or.inl henabled.2⟩ (fun i hi => by cases hi) hexec
  | exit t =>
    obtain ⟨hpresent, huser⟩ := henabled
    cases hexec
    have hslot := slot_setPhase (s := s) ⟨hpresent, Or.inl huser⟩ (Or.inr ⟨0, rfl⟩)
    refine ⟨hc.same rfl rfl rfl rfl hslot, ⟨fun u i hu j hj => ?_, fun u fd i hu => ?_⟩, Grows.puts ⟨rfl, fun _ => le_rfl⟩⟩
    · by_cases hut : u = t
      · subst hut
        rw [setPhase_self] at hu
        cases hu
        omega
      · rw [setPhase_other s hut] at hu
        exact he.exiting u i hu j hj
    · by_cases hut : u = t
      · subst hut
        rw [setPhase_self] at hu
        cases hu
      · rw [setPhase_other s hut] at hu
        exact he.closing u fd i hu
  | resume t =>
    obtain ⟨hpresent, hnuser, hndead⟩ := henabled
    unfold exec at hexec
    cases hphase : s.phase t with
    | user => exact absurd hphase hnuser
    | dead => exact absurd hphase hndead
    | closing fd next =>
      simp only [hphase] at hexec
      cases hexec
      obtain ⟨h1, h2⟩ := taskPutFd_spec hc he hpresent hphase
      exact ⟨h1, h2, (afterClose_grows (s.setFd t fd none) t next).puts⟩
    | exiting i =>
      simp only [hphase, taskExitRound] at hexec
      split_ifs at hexec with hi
      · refine close ⟨hpresent, Or.inr ⟨i, hphase⟩⟩ (fun j hj => ?_) hexec
        cases hj
        exact ⟨rfl, hphase⟩
      · -- every descriptor is closed by now
        cases hexec
        have hnone : ∀ fd, s.files t fd = none := fun fd => he.exiting t i hphase fd (by have := fd.isLt; omega)
        refine ⟨hc.same rfl rfl rfl rfl ?_, he.of_others fun u => ?_, Grows.puts ⟨rfl, fun _ => le_rfl⟩⟩
        · funext ⟨u, g⟩
          by_cases hu : u = t
          · subst hu
            have ht : s.Open u := ⟨hpresent, Or.inr ⟨i, hphase⟩⟩
            rw [ht.slot, hnone]
            exact if_pos (Or.inr (setPhase_self s u .dead))
          · exact slot_congr s (s.setPhase t .dead) rfl (setPhase_other s hu .dead) rfl g
        · by_cases hu : u = t
          · exact Or.inr (Or.inr (hu ▸ setPhase_self s t .dead))
          · exact Or.inl ⟨setPhase_other s hu .dead, rfl⟩
  | reap t =>
    obtain ⟨hpresent, hdead⟩ := henabled
    cases hexec
    refine ⟨hc.same rfl rfl rfl rfl ?_, he.of_others fun u => Or.inl ⟨rfl, rfl⟩, Grows.puts ⟨rfl, fun _ => le_rfl⟩⟩
    funext ⟨u, g⟩
    by_cases hu : u = t
    · subst hu
      unfold slot
      rw [if_pos (Or.inr hdead), if_pos (Or.inr hdead)]
    · unfold slot
      simp only [Function.update_of_ne hu]

theorem init_counts (h : Init s) : s.Counts := by
  have hslot : ∀ t fd, s.slot (t, fd) = s.files t fd := by
    intro t fd
    unfold slot
    by_cases hp : s.present t = true
    · simp [hp, h.phase t]
    · rw [if_pos (Or.inl (by simpa using hp)), h.files t fd, dif_neg fun hc => hp hc.1]
  have hinner : ∀ f t, (∑ fd, if s.slot (t, fd) = some f then 1 else 0) =
      if f.val < 3 ∧ s.present t = true then 1 else 0 := by
    intro f t
    by_cases hf : f.val < 3 ∧ s.present t = true
    · have hlt : f.val < TASK_FILE_NR := hf.1.trans (by decide)
      rw [if_pos hf, Finset.sum_eq_single (⟨f.val, hlt⟩ : Fd)]
      · rw [if_pos]
        rw [hslot, h.files, dif_pos ⟨hf.2, hf.1⟩]
      · intro fd _ hne
        rw [if_neg]
        rw [hslot, h.files]
        split_ifs
        · intro he
          have hval : fd.val = f.val := congrArg Fin.val (Option.some.inj he)
          exact hne (Fin.ext hval)
        · nofun
      · exact fun hno => absurd (Finset.mem_univ _) hno
    · rw [if_neg hf]
      refine Finset.sum_eq_zero fun fd _ => if_neg ?_
      rw [hslot, h.files]
      split_ifs with hp
      · intro he
        have hval : fd.val = f.val := congrArg Fin.val (Option.some.inj he)
        exact hf ⟨by omega, hp.1⟩
      · nofun
  refine ⟨fun f => ?_, fun f => ?_, fun f hf => ?_⟩
  · rw [h.count f, refCount, Fintype.sum_prod_type]
    simp only [hinner]
    split_ifs with hf
    · simp [hf]
    · simp [hf]
  · rw [h.opens, h.iputs, h.count]
    obtain ⟨t, ht⟩ := h.someone
    have hcard : 0 < (Finset.univ.filter fun t => s.present t = true).card :=
      Finset.card_pos.mpr ⟨t, Finset.mem_filter.mpr ⟨Finset.mem_univ t, ht⟩⟩
    split_ifs <;> omega
  · apply h.inode f
    rw [h.count] at hf
    split_ifs at hf with h3
    · exact h3
    · exact absurd hf (lt_irrefl 0)

theorem init_exits (h : Init s) : s.Exits := by
  refine ⟨fun t i ht => ?_, fun t fd i ht => ?_⟩ <;>
    · rw [h.phase t] at ht
      cases ht

/-- In any interleaving of the calls of any tasks, the count of an entry is the number of descriptors
that refer to it, `get_file` hands out an entry nobody refers to, and an entry holds one reference on
its inode until the last descriptor is closed, when `iput` is called for it. -/
theorem open_file_counts {es : List (Event I)} (h : Run Init Step es s) :
    (∀ f, s.count f = refCount s.slot f) ∧ (∀ f s', s.getFile = .ok (f, s') → ∀ k, s.slot k ≠ some f) ∧
      (∀ f, s.opens f = s.iputs f + if 0 < s.count f then 1 else 0) ∧ ∀ e s', Step s e s' → Puts s s' := by
  have hinv : s.Counts ∧ s.Exits := Run.invariant (I := fun s : Files I => s.Counts ∧ s.Exits)
    (fun _ h => ⟨init_counts h, init_exits h⟩)
    (fun _ _ _ h hs => ⟨(step_inv h.1 h.2 hs).1, (step_inv h.1 h.2 hs).2.1⟩) es s h
  refine ⟨hinv.1.count, fun f s' hget k hk => ?_, hinv.1.holds, fun e s' hs => (step_inv hinv.1 hinv.2 hs).2.2⟩
  have hpos := refCount_pos hk
  rw [← hinv.1.count f, (getFile_ok hget).1] at hpos
  omega

theorem firstTask_lt : 0 < NR_TASKS := by
  decide

def firstTask : Fin NR_TASKS := ⟨0, firstTask_lt⟩

/-- One task, right after `dev_init`, with `i` for the inodes of the devices. -/
def booted (i : I) : Files I :=
  { count := fun f => if f.val < 3 then 1 else 0
    inode := fun f => if f.val < 3 then some i else none
    flags := fun _ => O_RDONLY
    present := fun t => t.val = 0
    phase := fun _ => .user
    files := fun t fd => if h : t.val = 0 ∧ fd.val < 3 then some ⟨fd.val, h.2.trans (by decide)⟩ else none
    opens := fun f => if f.val < 3 then 1 else 0
    iputs := fun _ => 0 }

theorem booted_init (i : I) : Init (booted i) where
  someone := ⟨firstTask, rfl⟩
  phase := fun _ => rfl
  files := fun t fd => by simp [booted]
  count := fun f => by
    have hcard : (Finset.univ.filter fun t : Fin NR_TASKS => decide (t.val = 0) = true).card = 1 := by decide
    change _ = if f.val < 3 then (Finset.univ.filter fun t : Fin NR_TASKS => decide (t.val = 0) = true).card else 0
    rw [hcard]
    rfl
  inode := fun f hf => by simp [booted, hf]
  opens := fun _ => rfl
  iputs := fun _ => rfl

/-- A descriptor is duplicated: two references on the standard input. -/
theorem open_file_counts_dup : refCount ((booted ()).dupfd firstTask 0 0).slot 0 = 2 := by
  have hrun : Run Init Step ([] ++ [Event.dup firstTask 0]) ((booted ()).dupfd firstTask 0 0) :=
    .snoc (.nil (booted_init ())) ⟨⟨rfl, rfl⟩, rfl⟩
  rw [← (open_file_counts hrun).1 0]
  decide

end Files
end Onix
