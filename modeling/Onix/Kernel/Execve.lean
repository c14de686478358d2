import Onix.Kernel.Argv
import Onix.Kernel.Elf

/-! `sys_execve`. It looks at the file before it touches the caller, but at what is in the file only after the stack has
been overwritten and the pages of the old program are gone. -/

set_option autoImplicit false

namespace Onix

open Lib

namespace ExecTask

/-- `sys_brk`; both callers ignore the result. -/
def sysBrk (s : ExecTask) (free addr : ℕ) : Except Halt ExecTask := do
  assert ASSERT_PAGE (addr % 4096 == 0)
  assert "task->end <= brk && brk < USER_MMAP_ADDR" (s.finish ≤ addr ∧ addr < USER_MMAP_ADDR.toNat)
  if s.brk > addr then
    .ok { s with pages := fun p => if addr ≤ p * 4096 ∧ p * 4096 < s.brk then none else s.pages p, brk := addr }
  else if (addr - s.brk) / 4096 > free then .ok s
  else .ok { s with brk := addr }

end ExecTask

/-- What `sys_execve` asks of the inode that `namei` found. -/
structure ExecFile where
  ino : ℕ
  /-- `ISFILE(inode->desc->mode)` -/
  regular : Bool
  /-- `permission(inode, P_EXEC)` -/
  executable : Bool
  bytes : List UInt8

/-- The task that calls `sys_execve`; `iexec` names an inode. -/
structure ExecCaller where
  task : ExecTask
  iexec : Option ℕ

inductive ExecResult
  | eof
  | started (entry : UInt32) (top : ℕ)

/-- The arguments of a call and what the kernel has for it: the pages that `alloc_kpage` chooses from, `free_pages`
when the heap is set up, and the inode of the name. -/
structure ExecCall where
  kernel : Memory
  free : ℕ
  found : Option ExecFile
  filename : CString
  argv : Option (List CString)
  envp : Option (List CString)

/-- `sys_execve` from the first step that cannot be undone. -/
def replaceImage (call : ExecCall) (inode : ExecFile) (c : ExecCaller) : Except Halt (ExecResult × ExecCaller) := do
  let (top, _, mem) ← copyArgvEnvp call.kernel c.task.mem call.filename call.argv call.envp
  let s ← (ExecTask.pagesOf top (USER_STACK_TOP.toNat - top)).foldlM ExecTask.access c.task
  let s ← ExecTask.sysBrk { s.withMem mem with finish := USER_EXEC_ADDR.toNat } call.free USER_EXEC_ADDR.toNat
  let (entry, s) ← loadElf inode.bytes s
  if entry = EOF_ENTRY then .ok (.eof, { c with task := s })
  else do
    let s ← s.sysBrk call.free s.finish
    .ok (.started entry top, ⟨s, some inode.ino⟩)

def sysExecve (call : ExecCall) (c : ExecCaller) : Except Halt (ExecResult × ExecCaller) :=
  match call.found with
  | none => .ok (.eof, c)
  | some inode =>
    if !inode.regular then .ok (.eof, c)
    else if !inode.executable then .ok (.eof, c)
    else replaceImage call inode c

/-- The call starts the new image. -/
def Starts (call : ExecCall) (c : ExecCaller) : Prop :=
  ∃ entry top c', sysExecve call c = .ok (.started entry top, c')

/-- The mapped pages with their contents and the fields are those of before. -/
structure ExecCaller.Same (c c' : ExecCaller) : Prop where
  pages : ∀ page, USER_EXEC_ADDR.toNat ≤ page * 4096 → c'.task.pages page = c.task.pages page
  mem : ∀ addr, USER_EXEC_ADDR.toNat ≤ addr → c.task.pages (addr / 4096) ≠ none → c'.task.mem addr = c.task.mem addr
  brk : c'.task.brk = c.task.brk
  finish : c'.task.finish = c.task.finish
  text : c'.task.text = c.task.text
  data : c'.task.data = c.task.data
  iexec : c'.iexec = c.iexec

/-- The call returns `EOF`, no assertion fails, and the caller can run on. -/
def RunsOn (call : ExecCall) (c : ExecCaller) : Prop := ∃ c', sysExecve call c = .ok (.eof, c') ∧ c.Same c'

/-- There is no such file, it is not a regular file, or it may not be executed. -/
def Refused (call : ExecCall) : Prop :=
  ∀ inode, call.found = some inode → inode.regular = false ∨ inode.executable = false

/-- The pages that a task has in the program range lie below its break. -/
structure ExecCaller.Settled (c : ExecCaller) : Prop where
  brk : USER_EXEC_ADDR.toNat ≤ c.task.brk
  below : ∀ page, USER_EXEC_ADDR.toNat ≤ page * 4096 → page * 4096 < USER_MMAP_ADDR.toNat →
    c.task.pages page ≠ none → page * 4096 < c.task.brk

/-! ### What the loader leaves alone -/

/-- The break stays, and what is mapped stays mapped. -/
structure ExecTask.Grows (s s' : ExecTask) : Prop where
  brk : s'.brk = s.brk
  pages : ∀ page, s.pages page ≠ none → s'.pages page ≠ none

namespace ExecTask

variable {s s' s₁ : ExecTask}

theorem Grows.refl (s : ExecTask) : s.Grows s := ⟨rfl, fun _ h => h⟩

theorem Grows.trans (h : s.Grows s₁) (h' : s₁.Grows s') : s.Grows s' :=
  ⟨h'.brk.trans h.brk, fun page hp => h'.pages page (h.pages page hp)⟩

theorem grows_linkPages (s : ExecTask) (first count : ℕ) : s.Grows (s.linkPages first count) := by
  refine ⟨rfl, fun page hp => ?_⟩
  rw [linkPages]
  simp only
  rw [if_neg fun h => hp h.2.2]
  exact hp

theorem grows_protectPages (s : ExecTask) (first count : ℕ) : s.Grows (s.protectPages first count) := by
  refine ⟨rfl, fun page hp => ?_⟩
  rw [protectPages]
  simp only
  split_ifs
  · simpa using hp
  · exact hp

theorem grows_access {page : ℕ} (h : s.access page = .ok s') : s.Grows s' := by
  unfold access at h
  split_ifs at h
  · cases h
    exact Grows.refl s
  · cases h
    exact grows_linkPages s page 1

theorem grows_foldlM {l : List ℕ} : ∀ {s : ExecTask}, l.foldlM access s = .ok s' → s.Grows s' := by
  induction l with
  | nil =>
    intro s h
    cases h
    exact Grows.refl _
  | cons page l ih =>
    intro s h
    rw [List.foldlM_cons] at h
    obtain ⟨s₁, h₁, h₂⟩ := bind_ok.mp h
    exact (grows_access h₁).trans (ih h₂)

theorem grows_store {addr : ℕ} {bytes : List UInt8} (h : s.store addr bytes = .ok s') : s.Grows s' := by
  obtain ⟨s₁, h₁, h₂⟩ := bind_ok.mp h
  cases h₂
  have hg := grows_foldlM h₁
  exact ⟨hg.brk, hg.pages⟩

end ExecTask

open ExecTask

variable {file : List UInt8} {s s' : ExecTask}

theorem grows_inodeReadTo {buf len offset : ℕ} {n : Option ℕ} (h : inodeReadTo file s buf len offset = .ok (n, s')) :
    s.Grows s' := by
  unfold inodeReadTo at h
  split_ifs at h
  · cases h
    exact Grows.refl s
  · obtain ⟨s₁, h₁, h₂⟩ := bind_ok.mp h
    cases h₂
    exact grows_store h₁

theorem grows_loadSegment {ph : Phdr} (h : ExecTask.loadSegment file s ph = .ok s') : s.Grows s' := by
  unfold ExecTask.loadSegment at h
  obtain ⟨-, -, h⟩ := bind_ok.mp h
  obtain ⟨-, -, h⟩ := bind_ok.mp h
  obtain ⟨-, -, h⟩ := bind_ok.mp h
  obtain ⟨⟨n, s₁⟩, h₁, h⟩ := bind_ok.mp h
  obtain ⟨s₂, h₂, h⟩ := bind_ok.mp h
  have hread := (grows_linkPages s ph.first ph.count).trans (grows_inodeReadTo h₁)
  have hclear : s₁.Grows s₂ := by
    unfold clearTail at h₂
    split_ifs at h₂
    · exact grows_store h₂
    · cases h₂
      exact Grows.refl s₁
  have hnote : ∀ t : ExecTask, t.Grows (t.note ph) := fun t =>
    ⟨t.note_brk ph, by rw [t.note_pages ph]; exact fun _ h => h⟩
  have hprotect : s₂.Grows (if ph.flags &&& PF_W = 0 then s₂.protectPages ph.first ph.count else s₂) := by
    split_ifs
    · exact grows_protectPages _ _ _
    · exact Grows.refl s₂
  cases h
  have hg := (hread.trans hclear).trans (hprotect.trans (hnote _))
  exact ⟨hg.brk, hg.pages⟩

theorem grows_loadSegments {fuel : ℕ} : ∀ {i ptr : ℕ} {s : ExecTask},
    loadSegments file fuel i ptr s = .ok s' → s.Grows s' := by
  induction fuel with
  | zero =>
    intro i ptr s h
    cases h
    exact Grows.refl _
  | succ fuel ih =>
    intro i ptr s h
    rw [loadSegments] at h
    split_ifs at h
    · exact ih h
    · obtain ⟨s₁, h₁, h₂⟩ := bind_ok.mp h
      exact (grows_loadSegment h₁).trans (ih h₂)
    · cases h
      exact Grows.refl _

/-- Whatever the file is, the page of the headers is mapped in the end. -/
theorem grows_loadElf {entry : UInt32} (h : loadElf file s = .ok (entry, s')) :
    (s.linkPages (USER_EXEC_ADDR.toNat / 4096) 1).Grows s' := by
  unfold loadElf at h
  obtain ⟨⟨n, s₁⟩, h₁, h⟩ := bind_ok.mp h
  obtain ⟨-, -, h⟩ := bind_ok.mp h
  have hheader := grows_inodeReadTo h₁
  split_ifs at h
  · cases h
    exact hheader
  · obtain ⟨⟨n₂, s₂⟩, h₂, h⟩ := bind_ok.mp h
    obtain ⟨s₃, h₃, h⟩ := bind_ok.mp h
    cases h
    exact hheader.trans ((grows_inodeReadTo h₂).trans (grows_loadSegments h₃))

/-! ### A call that fails -/

theorem sysBrk_exec {free : ℕ} (hbrk : USER_EXEC_ADDR.toNat ≤ s.brk)
    (h : s.sysBrk free USER_EXEC_ADDR.toNat = .ok s') : s'.brk = USER_EXEC_ADDR.toNat := by
  unfold sysBrk at h
  obtain ⟨-, -, h⟩ := bind_ok.mp h
  obtain ⟨-, -, h⟩ := bind_ok.mp h
  split_ifs at h with hgt hfree
  · cases h
    rfl
  · rw [Nat.sub_eq_zero_of_le hbrk] at hfree
    exact absurd hfree (by simp)
  · cases h
    rfl

/-- Once the replacement has begun, a return of `EOF` shows: the break is gone, or a page of headers is left. -/
theorem replaceImage_shows {call : ExecCall} {inode : ExecFile} {c c' : ExecCaller} (hs : c.Settled)
    (h : replaceImage call inode c = .ok (.eof, c')) : ¬ c.Same c' := by
  have hexec : USER_EXEC_ADDR.toNat = 0x1000000 := rfl
  have hmmap : USER_MMAP_ADDR.toNat = 0x8000000 := rfl
  unfold replaceImage at h
  obtain ⟨⟨top, kernel, mem⟩, -, h⟩ := bind_ok.mp h
  obtain ⟨s₁, h₁, h⟩ := bind_ok.mp h
  obtain ⟨s₂, h₂, h⟩ := bind_ok.mp h
  obtain ⟨⟨entry, s₃⟩, h₃, h⟩ := bind_ok.mp h
  have hbrk₂ : s₂.brk = USER_EXEC_ADDR.toNat := sysBrk_exec (by
    show USER_EXEC_ADDR.toNat ≤ s₁.brk
    rw [(grows_foldlM h₁).brk]
    exact hs.brk) h₂
  have hgrows := grows_loadElf h₃
  simp only at h
  split_ifs at h
  · cases h
    intro hsame
    have hbrk : c.task.brk = USER_EXEC_ADDR.toNat := by
      rw [← hsame.brk]
      exact hgrows.brk.trans hbrk₂
    have hmapped := hgrows.pages _ (s₂.linkPages_mapped (USER_EXEC_ADDR.toNat / 4096))
    have hpage := hsame.pages (USER_EXEC_ADDR.toNat / 4096) (by omega)
    simp only at hpage
    rw [hpage] at hmapped
    have := hs.below _ (by omega) (by omega) hmapped
    omega
  · obtain ⟨s₄, -, h⟩ := bind_ok.mp h
    cases h

theorem not_refused {call : ExecCall} (h : ¬ Refused call) :
    ∃ inode, ∀ c, sysExecve call c = replaceImage call inode c := by
  unfold Refused at h
  simp only [not_forall, not_or] at h
  obtain ⟨inode, hfound, hregular, hexec⟩ := h
  refine ⟨inode, fun c => ?_⟩
  rw [sysExecve, hfound]
  simp [hregular, hexec]

/-- A call that does not start the new image leaves the caller as it was when the file is refused, and for a
task whose pages lie below its break only then. -/
theorem failing_execve (call : ExecCall) (c : ExecCaller) :
    (Refused call → RunsOn call c) ∧ (c.Settled → ¬ Starts call c → RunsOn call c → Refused call) := by
  constructor
  · intro h
    refine ⟨c, ?_, ⟨fun _ _ => rfl, fun _ _ _ => rfl, rfl, rfl, rfl, rfl, rfl⟩⟩
    unfold sysExecve
    split
    · rfl
    · rename_i inode hfound
      rcases h inode hfound with hregular | hexec
      · simp [hregular]
      · simp [hexec]
  · rintro hs - ⟨c', hok, hsame⟩
    by_contra hr
    obtain ⟨inode, hreplace⟩ := not_refused hr
    rw [hreplace] at hok
    exact replaceImage_shows hs hok hsame

/-- A task with one page. -/
def onePage : ExecCaller where
  task := ⟨fun page => if page = 0x1000 then some ⟨true, false⟩ else none, fun _ => 0, 0x1001000, 0x1001000, 0, 0⟩
  iexec := none

def missingFile : ExecCall := ⟨KernelPages.smallPages.mem, 0, none, echoPath, none, none⟩

theorem failing_execve_missing : RunsOn missingFile onePage := (failing_execve missingFile onePage).1 nofun

/-- A file shorter than an ELF header fails an assertion of `load_elf`. -/
theorem loadElf_short (h : file.length < EHDR_SIZE) {r : UInt32 × ExecTask} : loadElf file s ≠ .ok r := by
  intro hok
  unfold loadElf at hok
  obtain ⟨⟨n, s₁⟩, h₁, hok⟩ := bind_ok.mp hok
  obtain ⟨u, hn, -⟩ := bind_ok.mp hok
  have hn : n = some EHDR_SIZE := by simpa using hn
  unfold inodeReadTo at h₁
  split_ifs at h₁
  · cases h₁
    cases hn
  · obtain ⟨s₂, -, h₁⟩ := bind_ok.mp h₁
    cases h₁
    have hlen := Option.some.inj hn
    simp only [List.length_take, List.length_drop] at hlen
    omega

/-- A file that is no image, but may be executed. -/
def textFile : ExecCall :=
  ⟨KernelPages.smallPages.mem, 0, some ⟨7, true, true, helloArg.bytes⟩, echoPath, none, none⟩

theorem execve_asserts : ¬ ∀ call c, ¬ Starts call c → RunsOn call c := by
  intro h
  have hnever : ∀ r, sysExecve textFile onePage ≠ .ok r := by
    intro r hok
    change replaceImage textFile _ onePage = .ok r at hok
    unfold replaceImage at hok
    obtain ⟨copied, -, hok⟩ := bind_ok.mp hok
    obtain ⟨s₁, -, hok⟩ := bind_ok.mp hok
    obtain ⟨s₂, -, hok⟩ := bind_ok.mp hok
    obtain ⟨s₃, hload, -⟩ := bind_ok.mp hok
    exact loadElf_short (by decide) hload
  obtain ⟨c', hok, -⟩ := h textFile onePage fun ⟨entry, top, c', hok⟩ => hnever _ hok
  exact hnever _ hok

end Onix
