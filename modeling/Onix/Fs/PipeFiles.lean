import Onix.Fs.Files
import Onix.Fs.PipeRuns

/-! Tasks that read and write pipes through their descriptors. Nothing tells a task that
sleeps in `pipe_read` or `pipe_write` that the other end is closed, and nothing looks
for the other end before the task sleeps. -/

set_option autoImplicit false

namespace Onix

open Lib

/-! ### A pipe, whoever uses it -/

namespace Pipe

variable {T : Type} [DecidableEq T] {s s' : Pipe T}

/-- A ring that is full drops a byte for the new one. -/
theorem fifoPut_any {f f' : Fifo} (h : f.Ok) {byte : UInt8} (hput : f.fifoPut byte = .ok f') :
    f'.Ok ∧ f'.length = f.length ∧ f'.size ≤ f.size + 1 := by
  have hlt := h.size_lt
  by_cases hfull : f.size + 1 = f.length
  · obtain ⟨g, hg, hok, hlen, hsize⟩ := Fifo.fifoPut_full h hfull byte
    rw [hput] at hg
    cases hg
    exact ⟨hok, hlen, by omega⟩
  · obtain ⟨g, hg, hok, hlen, hbytes⟩ := Fifo.fifoPut_spec h (by omega) byte
    rw [hput] at hg
    cases hg
    have := congrArg List.length hbytes
    simp only [Fifo.length_bytes, List.length_append, List.length_singleton] at this
    exact ⟨hok, hlen, by omega⟩

/-- What any use of the ring keeps: it wakes tasks, and leaves their calls alone. -/
structure Stirs (s s' : Pipe T) : Prop where
  ok : s'.fifo.Ok
  length : s'.fifo.length = s.fifo.length
  call : s'.call = s.call
  blocked : ∀ u, s'.blocked u = true → s.blocked u = true

theorem unblock_stirs {w : T} {s₁ : Pipe T} (h : s.taskUnblock w = .ok s₁) :
    s₁.fifo = s.fifo ∧ s₁.call = s.call ∧ ∀ u, s₁.blocked u = true → s.blocked u = true := by
  obtain ⟨_, -, h⟩ := bind_ok.mp h
  cases h
  refine ⟨rfl, rfl, fun u hu => ?_⟩
  change Function.update s.blocked w false u = true at hu
  rw [Function.update_apply] at hu
  split_ifs at hu
  exact hu

theorem readByte_stirs (hok : s.fifo.Ok) {byte : UInt8} (h : s.readByte = .ok (byte, s')) :
    Stirs s s' ∧ s.fifo.size = s'.fifo.size + 1 := by
  obtain ⟨⟨b, fifo⟩, hget, h⟩ := bind_ok.mp h
  obtain ⟨n, hn⟩ : ∃ n, s.fifo.size = n + 1 := by
    refine Nat.exists_eq_succ_of_ne_zero fun h0 => ?_
    rw [Fifo.fifoGet, (Fifo.fifoEmpty_iff hok).mpr h0] at hget
    cases hget
  obtain ⟨b', fifo', hget', hok', hlen, hbytes⟩ := Fifo.fifoGet_spec hok hn
  rw [hget] at hget'
  cases hget'
  have hsize := congrArg List.length hbytes
  simp only [Fifo.length_bytes, List.length_cons] at hsize
  dsimp only at h
  cases htx : s.txwaiter with
  | none =>
    rw [htx] at h
    cases h
    exact ⟨⟨hok', hlen, rfl, fun _ hu => hu⟩, hsize⟩
  | some w =>
    rw [htx] at h
    obtain ⟨s₁, hun, h⟩ := bind_ok.mp h
    cases h
    obtain ⟨hf, hcall, hblocked⟩ := unblock_stirs hun
    exact ⟨⟨hf ▸ hok', hf ▸ hlen, hcall, hblocked⟩, hf ▸ hsize⟩

theorem writeByte_stirs (hok : s.fifo.Ok) {byte : UInt8} (h : s.writeByte byte = .ok s') :
    Stirs s s' ∧ s'.fifo.size ≤ s.fifo.size + 1 := by
  obtain ⟨fifo, hput, h⟩ := bind_ok.mp h
  obtain ⟨hok', hlen, hsize⟩ := fifoPut_any hok hput
  dsimp only at h
  cases hrx : s.rxwaiter with
  | none =>
    rw [hrx] at h
    cases h
    exact ⟨⟨hok', hlen, rfl, fun _ hu => hu⟩, hsize⟩
  | some w =>
    rw [hrx] at h
    obtain ⟨s₁, hun, h⟩ := bind_ok.mp h
    cases h
    obtain ⟨hf, hcall, hblocked⟩ := unblock_stirs hun
    exact ⟨⟨hf ▸ hok', hf ▸ hlen, hcall, hblocked⟩, hf ▸ hsize⟩

/-- After a stretch of a call of `t`: nobody else was put to sleep, and `t` sleeps only if `dry`, in a call
that `kind` describes. -/
structure Leaves (s s' : Pipe T) (t : T) (dry : Prop) (kind : PipeCall → Prop) : Prop where
  ok : s'.fifo.Ok
  others : ∀ u, u ≠ t → s'.call u = s.call u
  blocked : ∀ u, u ≠ t → s'.blocked u = true → s.blocked u = true
  self : s'.blocked t = true → dry ∧ kind (s'.call t)

omit [DecidableEq T] in
theorem Leaves.after {s₁ : Pipe T} {t : T} {dry dry' : Prop} {kind : PipeCall → Prop} (h : Leaves s₁ s' t dry kind)
    (hs : Stirs s s₁) (hdry : dry → dry') : Leaves s s' t dry' kind :=
  ⟨h.ok, fun u hu => (h.others u hu).trans (congrFun hs.call u), fun u hu hb => hs.blocked u (h.blocked u hu hb),
    fun hb => ⟨hdry (h.self hb).1, (h.self hb).2⟩⟩

theorem setCall_leaves {t : T} (hok : s.fifo.Ok) (ht : s.blocked t = false) (call : PipeCall) (dry : Prop)
    (kind : PipeCall → Prop) : Leaves s (s.setCall t call) t dry kind := by
  refine ⟨hok, fun u hu => Function.update_of_ne hu _ _, fun _ _ hb => hb, fun hb => ?_⟩
  rw [show (s.setCall t call).blocked t = false from ht] at hb
  cases hb

/-- The task is recorded as a waiter and goes to sleep. -/
theorem block_leaves {t : T} {s₀ s₁ : Pipe T} (hok : s.fifo.Ok) (h : s₀.taskBlock t = .ok s₁)
    (hfifo : s₀.fifo = s.fifo) (hcall : s₀.call = s.call) (hblocked : s₀.blocked = s.blocked) {call : PipeCall} {dry : Prop}
    {kind : PipeCall → Prop} (hdry : dry) (hkind : kind call) : Leaves s (s₁.setCall t call) t dry kind := by
  obtain ⟨_, -, h⟩ := bind_ok.mp h
  cases h
  refine ⟨hfifo ▸ hok, fun u hu => ?_, fun u hu hb => ?_, fun _ => ⟨hdry, ?_⟩⟩
  · rw [← hcall]
    exact Function.update_of_ne hu _ _
  · rw [← hblocked]
    rwa [show (({ s₀ with blocked := Function.update s₀.blocked t true } : Pipe T).setCall t call).blocked u = s₀.blocked u from
      Function.update_of_ne hu _ _] at hb
  · rw [show (({ s₀ with blocked := Function.update s₀.blocked t true } : Pipe T).setCall t call).call t = call from
      Function.update_self ..]
    exact hkind

def IsReading (call : PipeCall) : Prop := ∃ buf left, call = .reading buf left

def IsWriting (call : PipeCall) : Prop := ∃ nr rest, call = .writing nr rest

omit [DecidableEq T] in
theorem Stirs.awake {t : T} (h : Stirs s s') (ht : s.blocked t = false) : s'.blocked t = false := by
  cases hb : s'.blocked t with
  | false => rfl
  | true =>
    rw [h.blocked t hb] at ht
    cases ht

theorem readLoop_leaves {t : T} {left : ℕ} {buf : List UInt8} {ret : Option (List UInt8)} (hok : s.fifo.Ok)
    (ht : s.blocked t = false) (h : readLoop t left buf s = .ok (ret, s')) :
    Leaves s s' t (s.fifo.size < left) IsReading := by
  induction left generalizing buf s with
  | zero =>
    cases h
    exact setCall_leaves hok ht _ _ _
  | succ left ih =>
    unfold readLoop at h
    split_ifs at h with hempty
    · obtain ⟨_, -, h⟩ := bind_ok.mp h
      obtain ⟨s₁, hblock, h⟩ := bind_ok.mp h
      cases h
      have hdry : s.fifo.size < left + 1 := by
        rw [(Fifo.fifoEmpty_iff hok).mp hempty]
        omega
      exact block_leaves hok hblock rfl rfl rfl hdry ⟨buf, left + 1, rfl⟩
    · obtain ⟨⟨byte, s₁⟩, hread, h⟩ := bind_ok.mp h
      obtain ⟨hstirs, hsize⟩ := readByte_stirs hok hread
      exact (ih hstirs.ok (hstirs.awake ht) h).after hstirs fun hlt => by omega

theorem writeLoop_leaves {t : T} {buf : List UInt8} {nr : ℕ} {ret : Option ℕ} (hok : s.fifo.Ok)
    (ht : s.blocked t = false) (h : writeLoop t buf nr s = .ok (ret, s')) :
    Leaves s s' t (s.room < buf.length) IsWriting := by
  induction buf generalizing nr s with
  | nil =>
    cases h
    exact setCall_leaves hok ht _ _ _
  | cons byte rest ih =>
    unfold writeLoop at h
    split_ifs at h with hfull
    · obtain ⟨_, -, h⟩ := bind_ok.mp h
      obtain ⟨s₁, hblock, h⟩ := bind_ok.mp h
      cases h
      have hdry : s.room < (byte :: rest).length := by
        have := (Fifo.fifoFull_iff hok).mp hfull
        unfold room
        rw [List.length_cons]
        omega
      exact block_leaves hok hblock rfl rfl rfl hdry ⟨nr, byte :: rest, rfl⟩
    · obtain ⟨s₁, hwrite, h⟩ := bind_ok.mp h
      obtain ⟨hstirs, hsize⟩ := writeByte_stirs hok hwrite
      refine (ih hstirs.ok (hstirs.awake ht) h).after hstirs fun hlt => ?_
      have := hstirs.length
      unfold room at hlt ⊢
      rw [List.length_cons]
      omega

/-- What a call, or the rest of one, needs so as not to sleep. -/
def Dry (s : Pipe T) : PipeCall → Prop
  | .reading _ left => s.fifo.size < left
  | .writing _ rest => s.room < rest.length
  | .outside => False

theorem resume_leaves {t : T} {obs : Option Obs} (hok : s.fifo.Ok) (ht : s.blocked t = false)
    (h : s.exec (.resume t) = .ok (obs, s')) :
    Leaves s s' t (s.Dry (s.call t)) fun call => IsReading call ∧ IsReading (s.call t) ∨ IsWriting call ∧ IsWriting (s.call t) := by
  unfold exec at h
  cases hin : s.call t with
  | outside =>
    simp only [hin] at h
    cases h
  | reading buf left =>
    cases left with
    | zero =>
      simp only [hin] at h
      cases h
    | succ left =>
      simp only [hin] at h
      obtain ⟨⟨byte, s₁⟩, hread, h⟩ := bind_ok.mp h
      obtain ⟨⟨ret, s₂⟩, hloop, h⟩ := bind_ok.mp h
      cases h
      obtain ⟨hstirs, hsize⟩ := readByte_stirs hok hread
      have hdry : s₁.fifo.size < left → s.Dry (.reading buf (left + 1)) := by
        intro hlt
        change s.fifo.size < left + 1
        omega
      have hl := (readLoop_leaves hstirs.ok (hstirs.awake ht) hloop).after hstirs hdry
      exact ⟨hl.ok, hl.others, hl.blocked, fun hb => ⟨(hl.self hb).1, Or.inl ⟨(hl.self hb).2, buf, left + 1, rfl⟩⟩⟩
  | writing nr rest =>
    cases rest with
    | nil =>
      simp only [hin] at h
      cases h
    | cons byte rest =>
      simp only [hin] at h
      obtain ⟨s₁, hwrite, h⟩ := bind_ok.mp h
      obtain ⟨⟨ret, s₂⟩, hloop, h⟩ := bind_ok.mp h
      cases h
      obtain ⟨hstirs, hsize⟩ := writeByte_stirs hok hwrite
      have hdry : s₁.room < rest.length → s.Dry (.writing nr (byte :: rest)) := by
        intro hlt
        have := hstirs.length
        change s.room < (byte :: rest).length
        unfold room at hlt ⊢
        rw [List.length_cons]
        omega
      have hl := (writeLoop_leaves hstirs.ok (hstirs.awake ht) hloop).after hstirs hdry
      exact ⟨hl.ok, hl.others, hl.blocked, fun hb => ⟨(hl.self hb).1, Or.inr ⟨(hl.self hb).2, nr, byte :: rest, rfl⟩⟩⟩

end Pipe

/-! ### What a call on descriptors leaves of an open file -/

namespace Files

variable {I : Type} {s s' : Files I} {t : Fin NR_TASKS} {g : FileId}

/-- The entry whose descriptor a call is about to close. -/
def closed (s : Files I) : Event I → Option FileId
  | .close t fd => s.files t fd
  | .dup2 t _ newfd => s.files t newfd
  | .resume t =>
    match s.phase t with
    | .exiting i => if h : i < TASK_FILE_NR then s.files t ⟨i, h⟩ else none
    | _ => none
  | _ => none

/-- The entry is still in use, for the same file. -/
structure Keeps (s s' : Files I) (g : FileId) : Prop where
  count : 0 < s'.count g
  inode : s'.inode g = s.inode g
  flags : s'.flags g = s.flags g

theorem attach_keeps {fd : Fd} {f : FileId} {inode : I} {flags : UInt32} (hf : s.count f = 0) (hg : 0 < s.count g) :
    Keeps s (s.attach t fd f inode flags) g := by
  have hne : g ≠ f := by
    rintro rfl
    omega
  refine ⟨?_, Function.update_of_ne hne _ _, Function.update_of_ne hne _ _⟩
  rw [show (s.attach t fd f inode flags).count g = s.count g from Function.update_of_ne hne _ _]
  exact hg

theorem Grows.keeps (h : Grows s s') (hg : 0 < s.count g) (hinode : s'.inode = s.inode) (hflags : s'.flags = s.flags) :
    Keeps s s' g :=
  ⟨hg.trans_le (h.count g), congrFun hinode g, congrFun hflags g⟩

theorem dupfd_same (s : Files I) (t : Fin NR_TASKS) (fd arg : Fd) :
    (s.dupfd t fd arg).inode = s.inode ∧ (s.dupfd t fd arg).flags = s.flags := by
  unfold dupfd
  split
  · exact ⟨rfl, rfl⟩
  · split <;> exact ⟨rfl, rfl⟩

theorem afterClose_keeps (s : Files I) (t : Fin NR_TASKS) (next : AfterClose) (hg : 0 < s.count g) :
    Keeps s (s.afterClose t next) g := by
  have hgrows := afterClose_grows s t next
  cases next with
  | close => exact hgrows.keeps hg rfl rfl
  | dup2 oldfd newfd =>
    obtain ⟨h1, h2⟩ := dupfd_same (s.setPhase t .user) t oldfd newfd
    exact hgrows.keeps hg h1 h2
  | exit i => exact hgrows.keeps hg rfl rfl

theorem sysClose_keeps {fd : Fd} {next : AfterClose} (h : s.sysClose t fd next = .ok s') (hg : 0 < s.count g)
    (hlast : s.files t fd = some g → s.count g ≠ 1) : Keeps s s' g := by
  unfold sysClose at h
  cases hfd : s.files t fd with
  | none =>
    rw [hfd] at h
    cases h
    exact afterClose_keeps s t next hg
  | some f =>
    rw [hfd] at h
    obtain ⟨_, -, h⟩ := bind_ok.mp h
    obtain ⟨s₁, hput, h⟩ := bind_ok.mp h
    cases h
    obtain ⟨_, -, hput⟩ := bind_ok.mp hput
    have hcount : 0 < Function.update s.count f (s.count f - 1) g := by
      rw [Function.update_apply]
      split_ifs with hgf
      · have := hlast (hfd.trans (congrArg some hgf.symm))
        rw [← hgf]
        omega
      · exact hg
    dsimp only at hput
    split_ifs at hput <;> cases hput <;> exact ⟨hcount, rfl, rfl⟩

/-- An entry goes out of use only with its last descriptor. -/
theorem exec_keeps {e : Event I} (h : s.exec e = .ok s') (hg : 0 < s.count g) (hlast : s.closed e = some g → s.count g ≠ 1) :
    Keeps s s' g := by
  cases e with
  | «open» t inode flags =>
    obtain ⟨fd, f, -, hcount, rfl⟩ := sysOpen_ok h
    exact attach_keeps hcount hg
  | pipe t inode =>
    obtain ⟨fd₀, f₀, fd₁, f₁, -, hcount₀, -, hcount₁, rfl⟩ := sysPipe_ok h
    have h₀ : Keeps s (s.attach t fd₀ f₀ inode O_RDONLY) g := attach_keeps hcount₀ hg
    have h₁ : Keeps (s.attach t fd₀ f₀ inode O_RDONLY) ((s.attach t fd₀ f₀ inode O_RDONLY).attach t fd₁ f₁ inode O_WRONLY) g :=
      attach_keeps hcount₁ h₀.count
    exact ⟨h₁.count, h₁.inode.trans h₀.inode, h₁.flags.trans h₀.flags⟩
  | fork t c =>
    cases h
    refine ⟨?_, rfl, rfl⟩
    have := countFiles_eq (s.files t) s.count g
    change 0 < countFiles (s.files t) s.count g
    omega
  | dup t oldfd =>
    cases h
    obtain ⟨h1, h2⟩ := dupfd_same s t oldfd 0
    exact (dupfd_grows s t oldfd 0).keeps hg h1 h2
  | dup2 t oldfd newfd => exact sysClose_keeps h hg hlast
  | close t fd => exact sysClose_keeps h hg hlast
  | exit t =>
    cases h
    exact ⟨hg, rfl, rfl⟩
  | resume t =>
    unfold exec at h
    cases hphase : s.phase t with
    | user =>
      simp only [hphase] at h
      cases h
      exact ⟨hg, rfl, rfl⟩
    | dead =>
      simp only [hphase] at h
      cases h
      exact ⟨hg, rfl, rfl⟩
    | closing fd next =>
      simp only [hphase] at h
      cases h
      have hk := afterClose_keeps (g := g) (s.setFd t fd none) t next hg
      exact ⟨hk.count, hk.inode, hk.flags⟩
    | exiting i =>
      simp only [hphase, taskExitRound] at h
      split_ifs at h with hi
      · refine sysClose_keeps h hg fun hfd => hlast ?_
        unfold closed
        simp only [hphase, dif_pos hi, hfd]
      · cases h
        exact ⟨hg, rfl, rfl⟩
  | reap t =>
    cases h
    exact ⟨hg, rfl, rfl⟩

/-- Some open file on the inode has an access mode other than `mode`, and is not `f`. -/
def OtherEnd (s : Files I) (mode : UInt32) (f : Option FileId) (i : I) : Prop :=
  ∃ g, f ≠ some g ∧ 0 < s.count g ∧ s.inode g = some i ∧ s.flags g &&& O_ACCMODE ≠ mode

/-- An open file with write access. -/
def HasWriter (s : Files I) (i : I) : Prop := s.OtherEnd O_RDONLY none i

/-- An open file with read access. -/
def HasReader (s : Files I) (i : I) : Prop := s.OtherEnd O_WRONLY none i

theorem OtherEnd.kept {e : Event I} {mode : UInt32} {i : I} (h : s.OtherEnd mode none i) (hexec : s.exec e = .ok s')
    (hcare : ∀ f, s.closed e = some f → s.count f = 1 → s.inode f = some i → s.OtherEnd mode (some f) i) :
    s'.OtherEnd mode none i := by
  have main : ∃ g, 0 < s.count g ∧ s.inode g = some i ∧ s.flags g &&& O_ACCMODE ≠ mode ∧
      (s.closed e = some g → s.count g ≠ 1) := by
    obtain ⟨g, -, hcount, hinode, hflags⟩ := h
    by_cases hlast : s.closed e = some g ∧ s.count g = 1
    · obtain ⟨g', hne, hcount', hinode', hflags'⟩ := hcare g hlast.1 hlast.2 hinode
      exact ⟨g', hcount', hinode', hflags', fun hc => absurd (hlast.1.symm.trans hc) hne⟩
    · exact ⟨g, hcount, hinode, hflags, fun hc h1 => hlast ⟨hc, h1⟩⟩
  obtain ⟨g, hcount, hinode, hflags, hlast⟩ := main
  have hk := exec_keeps hexec hcount hlast
  exact ⟨g, nofun, hk.count, hk.inode.trans hinode, by rwa [hk.flags]⟩

end Files

/-! ### Descriptors and pipes together -/

/-- The open files, and what lies behind the inodes that are pipes. -/
structure PipeFiles (I : Type) where
  files : Files I
  isPipe : I → Bool
  pipes : I → Pipe (Fin NR_TASKS)

namespace PipeFiles

variable {I : Type} [DecidableEq I]

/-- `get_pipe_inode` on an inode of the table: it makes a new ring, and leaves the rest. -/
def getPipeInode (s : PipeFiles I) (i : I) (buf : ℕ → UInt8) : PipeFiles I :=
  { s with
    isPipe := Function.update s.isPipe i true
    pipes := Function.update s.pipes i { s.pipes i with fifo := .fifoInit buf PAGE_SIZE.toNat, took := [], gave := [] } }

/-- The result of a read or a write: `EOF`, or what the call of the pipe returned if it did not sleep. -/
inductive Ret
  | eof
  | returns (obs : Pipe.Obs)
  | sleeps
  /-- What is no pipe has nothing to do with pipes. -/
  | noPipe

def ofPipe (s : PipeFiles I) (i : I) (r : Option Pipe.Obs × Pipe (Fin NR_TASKS)) : Ret × PipeFiles I :=
  (match r.1 with | some obs => .returns obs | none => .sleeps, { s with pipes := Function.update s.pipes i r.2 })

/-- The file of a descriptor and its inode. -/
def lookup (s : PipeFiles I) (t : Fin NR_TASKS) (fd : Fd) : Except Halt (FileId × I) :=
  match s.files.files t fd with
  | none => .error (.assertion "file")
  | some f =>
    match s.files.inode f with
    | none => .error .nullPointer
    | some i => .ok (f, i)

def sysRead (s : PipeFiles I) (t : Fin NR_TASKS) (fd : Fd) (len : ℕ) : Except Halt (Ret × PipeFiles I) := do
  let (f, i) ← s.lookup t fd
  assert "len > 0" (0 < len)
  if s.files.flags f &&& O_ACCMODE = O_WRONLY then .ok (.eof, s)
  else if s.isPipe i then do
    let r ← (s.pipes i).exec (.read t len)
    .ok (s.ofPipe i r)
  else .ok (.noPipe, s)

def sysWrite (s : PipeFiles I) (t : Fin NR_TASKS) (fd : Fd) (buf : List UInt8) : Except Halt (Ret × PipeFiles I) := do
  let (f, i) ← s.lookup t fd
  assert "len > 0" (0 < buf.length)
  if s.files.flags f &&& O_ACCMODE = O_RDONLY then .ok (.eof, s)
  else if s.isPipe i then do
    let r ← (s.pipes i).exec (.write t buf)
    .ok (s.ofPipe i r)
  else .ok (.noPipe, s)

/-- A call of a task on descriptors (`ring` is the page of a new pipe), a read or a write, or a task that
goes on in the pipe where it was woken. -/
inductive Event (I : Type)
  | file (e : Files.Event I) (ring : ℕ → UInt8)
  | read (t : Fin NR_TASKS) (fd : Fd) (len : ℕ)
  | write (t : Fin NR_TASKS) (fd : Fd) (buf : List UInt8)
  | resume (t : Fin NR_TASKS) (i : I)

/-- The task that performs the call. -/
def actor : Files.Event I → Option (Fin NR_TASKS)
  | .open t _ _ | .pipe t _ | .fork t _ | .dup t _ | .dup2 t _ _ | .close t _ | .exit t | .resume t => some t
  | .reap _ => none

/-- The task runs, and not in a pipe. -/
def Free (s : PipeFiles I) (t : Fin NR_TASKS) : Prop := ∀ i, (s.pipes i).call t = .outside ∧ (s.pipes i).blocked t = false

def Enabled (s : PipeFiles I) : Event I → Prop
  | .file e _ => s.files.Enabled e ∧ ∀ t, actor e = some t → s.Free t
  | .read t _ _ | .write t _ _ => s.files.present t = true ∧ s.files.phase t = .user ∧ s.Free t
  | .resume t i => (s.pipes i).Enabled (.resume t)

def exec (s : PipeFiles I) : Event I → Except Halt (Ret × PipeFiles I)
  | .file e ring => do
    let files ← s.files.exec e
    match e with
    | .pipe _ i => .ok (.eof, { s.getPipeInode i ring with files := files })
    | .open _ i _ => .ok (.eof, { s with files := files, isPipe := Function.update s.isPipe i false })
    | _ => .ok (.eof, { s with files := files })
  | .read t fd len => s.sysRead t fd len
  | .write t fd buf => s.sysWrite t fd buf
  | .resume t i => do
    let r ← (s.pipes i).exec (.resume t)
    .ok (s.ofPipe i r)

def Step (s : PipeFiles I) (e : Event I) (s' : PipeFiles I) : Prop := s.Enabled e ∧ ∃ ret, s.exec e = .ok (ret, s')

structure Init (s : PipeFiles I) : Prop where
  files : s.files.Init
  pipes : ∀ i, (s.pipes i).Init

/-! ### Runs -/

/-- A task that sleeps in a pipe has the other end open. -/
def Served (s : PipeFiles I) : Prop :=
  ∀ i t, (s.pipes i).blocked t = true → (Pipe.IsReading ((s.pipes i).call t) → s.files.HasWriter i) ∧
    (Pipe.IsWriting ((s.pipes i).call t) → s.files.HasReader i)

/-- A task that reads or writes does not have to wait for an end that is closed, and the last file
of an end is not closed while a task sleeps at the other. -/
def Careful (s : PipeFiles I) : Event I → Prop
  | .file e _ => ∀ f i, s.files.closed e = some f → s.files.count f = 1 → s.files.inode f = some i →
    ∀ t, (s.pipes i).blocked t = true →
      (Pipe.IsReading ((s.pipes i).call t) → s.files.OtherEnd O_RDONLY (some f) i) ∧
      (Pipe.IsWriting ((s.pipes i).call t) → s.files.OtherEnd O_WRONLY (some f) i)
  | .read t fd len => ∀ f i, s.lookup t fd = .ok (f, i) → s.isPipe i = true → s.files.flags f &&& O_ACCMODE ≠ O_WRONLY →
    s.files.HasWriter i ∨ len ≤ (s.pipes i).fifo.size
  | .write t fd buf => ∀ f i, s.lookup t fd = .ok (f, i) → s.isPipe i = true → s.files.flags f &&& O_ACCMODE ≠ O_RDONLY →
    s.files.HasReader i ∨ buf.length ≤ (s.pipes i).room
  | .resume t i => (s.pipes i).Dry ((s.pipes i).call t) →
    (Pipe.IsReading ((s.pipes i).call t) → s.files.HasWriter i) ∧ (Pipe.IsWriting ((s.pipes i).call t) → s.files.HasReader i)

variable {s s' : PipeFiles I}

/-- The rings are never broken, whoever shares them. -/
def RingsOk (s : PipeFiles I) : Prop := ∀ i, (s.pipes i).fifo.Ok

theorem getPipeInode_ok (hok : s.RingsOk) (i : I) (ring : ℕ → UInt8) : (s.getPipeInode i ring).RingsOk := by
  intro j
  change (Function.update s.pipes i _ j).fifo.Ok
  rw [Function.update_apply]
  split_ifs
  · exact Fifo.fifoInit_ok ring (by decide)
  · exact hok j

theorem getPipeInode_tasks (s : PipeFiles I) (i : I) (ring : ℕ → UInt8) (j : I) :
    ((s.getPipeInode i ring).pipes j).call = (s.pipes j).call ∧
      ((s.getPipeInode i ring).pipes j).blocked = (s.pipes j).blocked := by
  change (Function.update s.pipes i _ j).call = _ ∧ (Function.update s.pipes i _ j).blocked = _
  rw [Function.update_apply]
  split_ifs with hj
  · subst hj
    exact ⟨rfl, rfl⟩
  · exact ⟨rfl, rfl⟩

/-- A call on descriptors touches no task in a pipe. -/
theorem exec_file {e : Files.Event I} {ring : ℕ → UInt8} {ret : Ret} (hok : s.RingsOk)
    (h : s.exec (.file e ring) = .ok (ret, s')) : s.files.exec e = .ok s'.files ∧ s'.RingsOk ∧
      ∀ i, (s'.pipes i).call = (s.pipes i).call ∧ (s'.pipes i).blocked = (s.pipes i).blocked := by
  obtain ⟨files, hfiles, h⟩ := bind_ok.mp h
  cases e with
  | pipe t i =>
    cases h
    exact ⟨hfiles, getPipeInode_ok hok i ring, getPipeInode_tasks s i ring⟩
  | _ =>
    cases h
    exact ⟨hfiles, hok, fun _ => ⟨rfl, rfl⟩⟩

/-- A stretch of a call in one pipe. -/
theorem served_of_leaves (hs : s.Served) (hok : s.RingsOk) {i : I} {t : Fin NR_TASKS} {p : Pipe (Fin NR_TASKS)} {dry : Prop}
    {kind : PipeCall → Prop} (hl : Pipe.Leaves (s.pipes i) p t dry kind)
    (hcare : dry → ∀ call, kind call → (Pipe.IsReading call → s.files.HasWriter i) ∧ (Pipe.IsWriting call → s.files.HasReader i)) :
    ({ s with pipes := Function.update s.pipes i p } : PipeFiles I).Served ∧
      ({ s with pipes := Function.update s.pipes i p } : PipeFiles I).RingsOk := by
  refine ⟨fun j u hb => ?_, fun j => ?_⟩
  · dsimp only at hb ⊢
    rw [Function.update_apply] at hb ⊢
    split_ifs at hb ⊢ with hj
    · subst hj
      by_cases hu : u = t
      · subst hu
        obtain ⟨hdry, hkind⟩ := hl.self hb
        exact hcare hdry _ hkind
      · rw [hl.others u hu]
        exact hs j u (hl.blocked u hu hb)
    · exact hs j u hb
  · dsimp only
    rw [Function.update_apply]
    split_ifs
    · exact hl.ok
    · exact hok j

theorem not_both {call : PipeCall} (hr : Pipe.IsReading call) (hw : Pipe.IsWriting call) : False := by
  obtain ⟨buf, left, rfl⟩ := hr
  obtain ⟨nr, rest, h⟩ := hw
  cases h

theorem step_served {e : Event I} (hs : s.Served) (hok : s.RingsOk) (h : Restrict Careful Step s e s') :
    s'.Served ∧ s'.RingsOk := by
  obtain ⟨hcare, henabled, ret, hexec⟩ := h
  cases e with
  | file e ring =>
    obtain ⟨hfiles, hok', htasks⟩ := exec_file hok hexec
    refine ⟨fun i t hb => ?_, hok'⟩
    obtain ⟨hcall, hblocked⟩ := htasks i
    rw [hblocked] at hb
    rw [hcall]
    exact ⟨fun hr => ((hs i t hb).1 hr).kept hfiles fun f hc h1 hi => (hcare f i hc h1 hi t hb).1 hr,
      fun hw => ((hs i t hb).2 hw).kept hfiles fun f hc h1 hi => (hcare f i hc h1 hi t hb).2 hw⟩
  | read t fd len =>
    obtain ⟨-, -, hfree⟩ := henabled
    obtain ⟨⟨f, i⟩, hlookup, hexec⟩ := bind_ok.mp hexec
    obtain ⟨_, -, hexec⟩ := bind_ok.mp hexec
    split_ifs at hexec with hflags hpipe
    · cases hexec
      exact ⟨hs, hok⟩
    · obtain ⟨⟨obs, p⟩, hpexec, hexec⟩ := bind_ok.mp hexec
      cases hexec
      obtain ⟨⟨r, p'⟩, hloop, hret⟩ := bind_ok.mp hpexec
      cases hret
      refine served_of_leaves hs hok (Pipe.readLoop_leaves (hok i) (hfree i).2 hloop) fun hdry call hkind => ⟨fun _ => ?_, fun hw => ?_⟩
      · exact (hcare f i hlookup hpipe hflags).resolve_right (by omega)
      · exact (not_both hkind hw).elim
    · cases hexec
      exact ⟨hs, hok⟩
  | write t fd buf =>
    obtain ⟨-, -, hfree⟩ := henabled
    obtain ⟨⟨f, i⟩, hlookup, hexec⟩ := bind_ok.mp hexec
    obtain ⟨_, -, hexec⟩ := bind_ok.mp hexec
    split_ifs at hexec with hflags hpipe
    · cases hexec
      exact ⟨hs, hok⟩
    · obtain ⟨⟨obs, p⟩, hpexec, hexec⟩ := bind_ok.mp hexec
      cases hexec
      obtain ⟨⟨r, p'⟩, hloop, hret⟩ := bind_ok.mp hpexec
      cases hret
      refine served_of_leaves hs hok (Pipe.writeLoop_leaves (hok i) (hfree i).2 hloop) fun hdry call hkind => ⟨fun hr => ?_, fun _ => ?_⟩
      · exact (not_both hr hkind).elim
      · exact (hcare f i hlookup hpipe hflags).resolve_right (by omega)
    · cases hexec
      exact ⟨hs, hok⟩
  | resume t i =>
    obtain ⟨-, hawake⟩ := henabled
    obtain ⟨⟨obs, p⟩, hpexec, hexec⟩ := bind_ok.mp hexec
    cases hexec
    refine served_of_leaves hs hok (Pipe.resume_leaves (hok i) hawake hpexec) fun hdry call hkind => ?_
    have hends := hcare hdry
    rcases hkind with ⟨hr, hr'⟩ | ⟨hw, hw'⟩
    · exact ⟨fun _ => hends.1 hr', fun hw => (not_both hr hw).elim⟩
    · exact ⟨fun hr => (not_both hr hw).elim, fun _ => hends.2 hw'⟩

omit [DecidableEq I] in
theorem init_served (h : s.Init) : s.Served ∧ s.RingsOk := by
  refine ⟨fun i t hb => ?_, fun i => ?_⟩
  · obtain ⟨buf, hi⟩ := h.pipes i
    rw [hi] at hb
    cases hb
  · exact (Pipe.init_inv (h.pipes i)).ok

/-- As long as nobody has to wait for an end that is closed, nor closes the last file of an end somebody
waits for, no task sleeps on a dead pipe. -/
theorem no_dead_pipe {es : List (Event I)} (h : Run Init (Restrict Careful Step) es s) : s.Served :=
  (Run.invariant (I := fun s : PipeFiles I => s.Served ∧ s.RingsOk) (fun _ => init_served)
    (fun _ _ _ h hs => step_served h.1 h.2 hs) es s h).1

/-- One task, with no pipe yet; inode `true` is free. -/
def fresh : PipeFiles Bool :=
  ⟨.booted false, fun _ => false, fun _ => ⟨.fifoInit (fun _ => 0) PAGE_SIZE.toNat, none, none, fun _ => .outside, fun _ => false, [], []⟩⟩

theorem fresh_init : fresh.Init := ⟨Files.booted_init false, fun _ => ⟨fun _ => 0, rfl⟩⟩

/-- The state after a call, or the state before if it halts. -/
def after (s : PipeFiles Bool) (e : Event Bool) : PipeFiles Bool :=
  match s.exec e with
  | .ok r => r.2
  | .error _ => s

theorem step_after {s : PipeFiles Bool} {e : Event Bool} (h : s.Enabled e) (hok : (s.exec e).toBool = true) :
    Step s e (s.after e) := by
  refine ⟨h, ?_⟩
  unfold after
  cases hexec : s.exec e with
  | ok r => exact ⟨r.1, rfl⟩
  | error e =>
    rw [hexec] at hok
    cases hok

def piped : PipeFiles Bool := fresh.after (.file (.pipe Files.firstTask true) fun _ => 0)

theorem readEnd_lt : 3 < TASK_FILE_NR := by
  decide

theorem writeEnd_lt : 4 < TASK_FILE_NR := by
  decide

/-- The task closes the write end, and reads. -/
def closing : PipeFiles Bool := piped.after (.file (.close Files.firstTask ⟨4, writeEnd_lt⟩) fun _ => 0)

def closed : PipeFiles Bool := closing.after (.file (.resume Files.firstTask) fun _ => 0)

def asleep : PipeFiles Bool := closed.after (.read Files.firstTask ⟨3, readEnd_lt⟩ 1)

/-- The task reads right away. -/
def waiting : PipeFiles Bool := piped.after (.read Files.firstTask ⟨3, readEnd_lt⟩ 1)

theorem piped_step : Step fresh (.file (.pipe Files.firstTask true) fun _ => 0) piped :=
  step_after ⟨⟨rfl, rfl⟩, fun _ h => by cases h; exact fun _ => ⟨rfl, rfl⟩⟩ (by decide +kernel)

theorem asleep_run : ∃ es, Run Init Step es asleep := by
  have h1 := Run.snoc (Run.nil fresh_init) piped_step
  have h2 := h1.snoc (step_after (e := .file (.close Files.firstTask 4) fun _ => 0) (s := piped)
    ⟨⟨by decide +kernel, by decide +kernel⟩, fun t h => by cases h; exact fun i => by cases i <;> decide +kernel⟩ (by decide +kernel))
  have h3 := h2.snoc (step_after (e := .file (.resume Files.firstTask) fun _ => 0) (s := closing)
    ⟨⟨by decide +kernel, by decide +kernel, by decide +kernel⟩, fun t h => by cases h; exact fun i => by cases i <;> decide +kernel⟩
    (by decide +kernel))
  exact ⟨_, h3.snoc (step_after (e := .read Files.firstTask 3 1) (s := closed)
    ⟨by decide +kernel, by decide +kernel, fun i => by cases i <;> decide +kernel⟩ (by decide +kernel))⟩

/-- The reader sleeps for ever. -/
theorem reader_waits_for_ever : ¬ ∀ (es : List (Event Bool)) (s : PipeFiles Bool), Run Init Step es s → s.Served := by
  intro h
  obtain ⟨es, hrun⟩ := asleep_run
  have hcall : (asleep.pipes true).call Files.firstTask = .reading [] 1 := by decide +kernel
  have hwriter := (h es asleep hrun true Files.firstTask (by decide +kernel)).1 ⟨[], 1, hcall⟩
  have hnone : ¬ ∃ g : FileId, none ≠ some g ∧ 0 < asleep.files.count g ∧ asleep.files.inode g = some true ∧
      asleep.files.flags g &&& O_ACCMODE ≠ O_RDONLY := by decide +kernel
  exact hnone hwriter

/-- A reader that sleeps while the write end is open. -/
theorem no_dead_pipe_waiting : waiting.files.HasWriter true := by
  have h1 : Run Init (Restrict Careful Step) ([] ++ [.file (.pipe Files.firstTask true) fun _ => 0]) piped :=
    .snoc (.nil fresh_init) ⟨fun _ _ h => (nomatch h), piped_step⟩
  have hcare : piped.Careful (.read Files.firstTask 3 1) := by
    intro f i hlookup _ _
    have h3 : piped.lookup Files.firstTask 3 = .ok (3, true) := rfl
    rw [h3] at hlookup
    cases hlookup
    exact Or.inl ⟨4, nofun, by decide +kernel, by decide +kernel, by decide +kernel⟩
  have hstep : Step piped (.read Files.firstTask 3 1) waiting :=
    step_after ⟨by decide +kernel, by decide +kernel, fun i => by cases i <;> decide +kernel⟩ (by decide +kernel)
  have hcall : (waiting.pipes true).call Files.firstTask = .reading [] 1 := by decide +kernel
  exact (no_dead_pipe (h1.snoc ⟨hcare, hstep⟩) true Files.firstTask (by decide +kernel)).1 ⟨[], 1, hcall⟩

end PipeFiles
end Onix
