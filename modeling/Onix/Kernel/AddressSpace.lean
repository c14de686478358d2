import Onix.Kernel.PageCalls
import Onix.Lib.Transition

/-! All the address spaces of the machine. A step is one call of one task, and the
kernel is not left before a call is done, so the calls of different tasks
interleave. `KERNEL_PAGE_DIR` is the space of the tasks that have none of their own. -/

set_option autoImplicit false

namespace Onix

open Memory Lib Finset

structure Machine where
  mem : Memory
  /-- The page directories in use. -/
  live : Finset ℕ
  /-- What is known of the task that runs in a directory. -/
  space : ℕ → Space

def USER_MMAP_SIZE : UInt32 := 0x8000000

namespace Machine

/-- The entry the processor finds for an address. -/
def walk (s : Machine) (pde : ℕ) (vaddr : UInt32) : PageEntry := s.mem.entryAt (pde, didx vaddr) (tidx vaddr)

/-- An access from user mode that raises no page fault. -/
def permits (s : Machine) (pde : ℕ) (vaddr : UInt32) (write : Bool) : Bool :=
  let dentry := s.mem.dentry (pde, didx vaddr)
  let entry := s.walk pde vaddr
  entry.present && entry.user && dentry.user && (!write || entry.write && dentry.write)

/-- The byte a task finds at an address. -/
def byteAt (s : Machine) (pde : ℕ) (vaddr : UInt32) : Option UInt8 :=
  if (s.walk pde vaddr).present then some (s.mem.bytes (s.walk pde vaddr).index (vaddr.toNat % 4096)) else none

def setByte (s : Machine) (pde : ℕ) (vaddr : UInt32) (value : UInt8) : Machine :=
  let frame := (s.walk pde vaddr).index
  let bytes := Function.update s.mem.bytes frame
    (Function.update (s.mem.bytes frame) (vaddr.toNat % 4096) value)
  { s with mem := { s.mem with bytes := bytes } }

inductive Call
  /-- `task_to_user_mode` of a kernel task -/
  | userMode
  | fork (pde : ℕ)
  | exit (pde : ℕ)
  | linkPage (pde : ℕ) (vaddr : UInt32)
  | unlinkPage (pde : ℕ) (vaddr : UInt32)
  /-- A read from user mode, or the page fault it raises. -/
  | load (pde : ℕ) (vaddr : UInt32)
  /-- A write from user mode, or the page fault it raises. -/
  | store (pde : ℕ) (vaddr : UInt32) (value : UInt8)
  /-- A write by the kernel, which the write bit does not stop. -/
  | kernelStore (pde : ℕ) (vaddr : UInt32) (value : UInt8)
  | brk (pde : ℕ) (addr : UInt32)
  | mmap (pde : ℕ) (addr length prot flags : UInt32)
  | munmap (pde : ℕ) (addr length : UInt32)
  /-- `sys_execve` up to the first segment: it gives back the heap. -/
  | execve (pde : ℕ)
  | loadSegment (pde : ℕ) (vaddr align filesz memsz : UInt32) (writable : Bool)
  | allocKpage (count : ℕ)
  | freeKpage (index count : ℕ)

/-- The space of the task in `pde` after one of its calls. -/
def setTask (s : Machine) (mem : Memory) (task : Space) : Machine :=
  { s with mem := mem, space := Function.update s.space task.pde task }

def exit (s : Machine) (pde : ℕ) : Except Halt Machine := do
  let mem ← s.mem.freePde pde (s.space pde).user
  .ok { s with mem := mem, live := s.live.erase pde }

def fault (s : Machine) (pde : ℕ) (vaddr : UInt32) (write : Bool) : Except Halt Machine := do
  match ← s.mem.pageFault (s.space pde) vaddr ⟨(s.walk pde vaddr).present, write⟩ with
  | some mem => .ok { s with mem := mem }
  | none => s.exit pde

/-- A directory for a task; `task` is the space it has but for the directory. -/
def enter (s : Machine) (pde : ℕ) (task : Space) : Except Halt (ℕ × Machine) := do
  let (child, mem) ← s.mem.copyPde pde
  .ok (child, { mem := mem, live := insert child s.live
                space := Function.update s.space child { task with pde := child } })

/-- The space of a task that goes to user mode. -/
def userSpace : Space where
  pde := KERNEL_PAGE_DIR
  brk := USER_EXEC_ADDR
  finish := USER_EXEC_ADDR
  user := true
  vmap := ⟨fun _ => false, (USER_MMAP_SIZE / PAGE_SIZE / 8).toNat, pageIdx USER_MMAP_ADDR⟩

def exec (s : Machine) : Call → Except Halt Machine
  | .userMode => do
    let (_, s) ← s.enter KERNEL_PAGE_DIR userSpace
    .ok s
  | .fork pde => do
    let (_, s) ← s.enter pde (s.space pde)
    .ok s
  | .exit pde => s.exit pde
  | .linkPage pde vaddr => do
    let mem ← s.mem.linkPage pde vaddr
    .ok { s with mem := mem }
  | .unlinkPage pde vaddr => do
    let mem ← s.mem.unlinkPage pde vaddr
    .ok { s with mem := mem }
  | .load pde vaddr => if s.permits pde vaddr false then .ok s else s.fault pde vaddr false
  | .store pde vaddr value =>
    if s.permits pde vaddr true then .ok (s.setByte pde vaddr value) else s.fault pde vaddr true
  | .kernelStore pde vaddr value =>
    if (s.walk pde vaddr).present then .ok (s.setByte pde vaddr value)
    else s.fault pde vaddr true
  | .brk pde addr => do
    let (_, mem, task) ← s.mem.sysBrk (s.space pde) addr
    .ok (s.setTask mem task)
  | .mmap pde addr length prot flags => do
    let (_, mem, task) ← s.mem.sysMmap (s.space pde) addr length prot flags
    .ok (s.setTask mem task)
  | .munmap pde addr length => do
    let (mem, task) ← s.mem.sysMunmap (s.space pde) addr length
    .ok (s.setTask mem task)
  | .execve pde => do
    let (_, mem, task) ← s.mem.sysBrk { s.space pde with finish := USER_EXEC_ADDR } USER_EXEC_ADDR
    .ok (s.setTask mem task)
  | .loadSegment pde vaddr align filesz memsz writable => do
    let (mem, task) ← s.mem.loadSegment (s.space pde) vaddr align filesz memsz writable
    .ok (s.setTask mem task)
  | .allocKpage count => do
    let (_, mem) ← s.mem.allocKpage count
    .ok { s with mem := mem }
  | .freeKpage index count => do
    let mem ← s.mem.freeKpage index count
    .ok { s with mem := mem }

/-- The directory of a task that has gone to user mode. -/
def UserDir (s : Machine) (pde : ℕ) : Prop := pde ∈ s.live ∧ (s.space pde).user

instance (s : Machine) (pde : ℕ) : Decidable (s.UserDir pde) :=
  inferInstanceAs (Decidable (pde ∈ s.live ∧ (s.space pde).user = true))

/-- Who makes which call: `link_page` and `unlink_page` are called for the addresses of a
task, the kernel frees pages it does not use as directories, all else is done by user tasks.
The last 4M, the window on the page tables, are accessed by memory.c only. -/
def Enabled (s : Machine) : Call → Prop
  | .userMode | .allocKpage _ => True
  | .linkPage pde vaddr | .unlinkPage pde vaddr => pde ∈ s.live ∧ UserAddr vaddr
  | .freeKpage index count => ∀ pde ∈ s.live, ¬ (index ≤ pde ∧ pde < index + count)
  | .load pde vaddr | .store pde vaddr _ | .kernelStore pde vaddr _ => s.UserDir pde ∧ didx vaddr < 1023
  | .fork pde | .exit pde | .brk pde _ | .mmap pde _ _ _ _ | .munmap pde _ _ | .execve pde
  | .loadSegment pde _ _ _ _ _ => s.UserDir pde

instance (s : Machine) : (c : Call) → Decidable (s.Enabled c)
  | .userMode | .allocKpage _ => .isTrue trivial
  | .linkPage pde vaddr | .unlinkPage pde vaddr => inferInstanceAs (Decidable (pde ∈ s.live ∧ UserAddr vaddr))
  | .freeKpage index count => inferInstanceAs (Decidable (∀ pde ∈ s.live, ¬ (index ≤ pde ∧ pde < index + count)))
  | .load pde vaddr | .store pde vaddr _ | .kernelStore pde vaddr _ =>
    inferInstanceAs (Decidable (s.UserDir pde ∧ didx vaddr < 1023))
  | .fork pde | .exit pde | .brk pde _ | .mmap pde _ _ _ _ | .munmap pde _ _ | .execve pde
  | .loadSegment pde _ _ _ _ _ => inferInstanceAs (Decidable (s.UserDir pde))

def Step (s : Machine) (c : Call) (s' : Machine) : Prop := s.Enabled c ∧ s.exec c = .ok s'

/-- The machine after `memory_map_init` and `mapping_init`. -/
def boot (size : MemorySize) (bytes : ℕ → ℕ → UInt8) : Machine :=
  let mem := mappingInit (memoryMapInit size bytes)
  { mem := mem
    live := {KERNEL_PAGE_DIR}
    space := fun _ => ⟨KERNEL_PAGE_DIR, USER_EXEC_ADDR, USER_EXEC_ADDR, false, mem.kernelMap⟩ }

def Booted (s : Machine) : Prop := ∃ size bytes, s = boot size bytes

/-! ### The account of the whole machine -/

structure Ok (s : Machine) : Prop where
  acct : Acct s.mem (slots s.live) 0
  kernel : KERNEL_PAGE_DIR ∈ s.live ∧ (s.space KERNEL_PAGE_DIR).user = false
  /-- No directory in use is handed out as a kernel page. -/
  marked : ∀ pde ∈ s.live, pde ≠ KERNEL_PAGE_DIR →
    s.mem.kernelMap.covers pde ∧ s.mem.kernelMap.marked pde = true
  offset : s.mem.kernelMap.offset = 256
  space : ∀ pde ∈ s.live, (s.space pde).pde = pde ∧ SpaceOk (s.space pde)

/-- What a step keeps: copy-on-write is kept when `sys_mmap` finds its pages alone. -/
structure Next (s s' : Machine) (alone : Prop) : Prop where
  ok : s'.Ok
  cow : alone → Cow s.mem (slots s.live) → Cow s'.mem (slots s'.live)

variable {s s' : Machine} {alone : Prop}

theorem Ok.slot (h : s.Ok) {pde : ℕ} (hp : pde ∈ s.live) (vaddr : UInt32) (hu : UserAddr vaddr) :
    ((s.space pde).pde, didx vaddr) ∈ slots s.live := by
  rw [(h.space pde hp).1]
  exact mem_slots.mpr ⟨hp, hu⟩

/-- A user task has a directory of its own. -/
theorem Ok.user_ne (h : s.Ok) {pde : ℕ} (hp : s.UserDir pde) : KERNEL_PAGE_DIR ≠ pde := by
  rintro rfl
  have := h.kernel.2
  rw [hp.2] at this
  cases this

/-- A call that changes the memory only. -/
theorem Ok.withMem (h : s.Ok) {mem : Memory} (hk : Keeps s.mem mem (slots s.live) 0) :
    Next s { s with mem := mem } alone := by
  refine ⟨⟨hk.acct, h.kernel, ?_, ?_, h.space⟩, fun _ => hk.cow⟩
  · rw [hk.kernelMap]
    exact h.marked
  · rw [hk.kernelMap]
    exact h.offset

/-- A system call of the task in `pde`. -/
theorem Ok.setTask (h : s.Ok) {pde : ℕ} (hp : s.UserDir pde) {mem : Memory} {task : Space}
    (hacct : Acct mem (slots s.live) 0) (hcow : alone → Cow s.mem (slots s.live) → Cow mem (slots s.live))
    (hkmap : mem.kernelMap = s.mem.kernelMap) (htask : task.pde = pde) (hok : SpaceOk task) :
    Next s (s.setTask mem task) alone := by
  have hne := h.user_ne hp
  subst htask
  refine ⟨⟨hacct, ⟨h.kernel.1, ?_⟩, ?_, ?_, fun pde hpde => ?_⟩, hcow⟩
  · simp only [Machine.setTask, Function.update_of_ne hne]
    exact h.kernel.2
  · change ∀ pde ∈ s.live, pde ≠ KERNEL_PAGE_DIR → mem.kernelMap.covers pde ∧ mem.kernelMap.marked pde = true
    rw [hkmap]
    exact h.marked
  · exact (congrArg Bitmap.offset hkmap).trans h.offset
  · simp only [Machine.setTask, Function.update_apply]
    split_ifs with he
    · exact ⟨he.symm, hok⟩
    · exact h.space pde hpde

/-- The pages of the directories in use are taken, as far as `kernel_map` knows of them. -/
theorem Ok.dirs_marked (h : s.Ok) : ∀ d ∈ s.live, s.mem.kernelMap.covers d → s.mem.kernelMap.marked d = true := by
  intro d hd hc
  by_cases hk : d = KERNEL_PAGE_DIR
  · have := hc.1
    rw [hk, h.offset] at this
    simp [KERNEL_PAGE_DIR] at this
  · exact (h.marked d hd hk).2

theorem enter_spec (h : s.Ok) {pde : ℕ} (hp : pde ∈ s.live) {task : Space} (ht : SpaceOk task) :
    Meets BadCount (s.enter pde task) fun r => Next s r.2 alone := by
  apply (copyPde_spec h.acct hp h.dirs_marked).bind
  rintro ⟨child, mem⟩ ⟨hnew, hacct, hcow, hfork, -⟩
  dsimp only at *
  have hal := hfork.kernelMap
  have hne : KERNEL_PAGE_DIR ≠ child := fun he => hnew (he ▸ h.kernel.1)
  have hcov : ∀ d, s.mem.kernelMap.covers d → mem.kernelMap.covers d := by
    intro d hd
    unfold Bitmap.covers at *
    rw [hal.length, hal.offset]
    exact hd
  refine meets_ok.mpr ⟨⟨hacct, ⟨mem_insert_of_mem h.kernel.1, ?_⟩, ?_, hal.offset.trans h.offset, ?_⟩, fun _ => hcow⟩
  · simp only [Function.update_of_ne hne]
    exact h.kernel.2
  · intro d hd hk
    rcases mem_insert.mp hd with rfl | hd
    · have hc := (hal.clear d le_rfl (Nat.lt_succ_self _)).1
      refine ⟨hcov d hc, ?_⟩
      rw [hal.marked d hc.1, decide_eq_true ⟨le_rfl, Nat.lt_succ_self _⟩]
      rfl
    · obtain ⟨h1, h2⟩ := h.marked d hd hk
      refine ⟨hcov d h1, ?_⟩
      rw [hal.marked d h1.1, h2, Bool.or_true]
  · intro d hd
    by_cases he : d = child
    · subst he
      simp only [Function.update_self, true_and]
      exact ⟨ht.finish, ht.brk, ht.vmap⟩
    · simp only [Function.update_of_ne he]
      exact h.space d (mem_of_mem_insert_of_ne hd he)

theorem exit_spec (h : s.Ok) {pde : ℕ} (hp : s.UserDir pde) :
    Meets BadCount (s.exit pde) fun s' => Next s s' alone := by
  have hne := h.user_ne hp
  unfold exit
  rw [hp.2]
  apply (freePde_spec h.acct hp.1 (h.marked pde hp.1 hne.symm) BadCount).bind
  rintro mem ⟨hacct, hcow, -, -, -, hrel⟩
  refine meets_ok.mpr ⟨⟨hacct, ⟨mem_erase.mpr ⟨hne, h.kernel.1⟩, h.kernel.2⟩, ?_, hrel.offset.trans h.offset,
    fun d hd => h.space d (mem_of_mem_erase hd)⟩, fun _ => hcow⟩
  intro d hd hk
  obtain ⟨hdp, hd⟩ := mem_erase.mp hd
  obtain ⟨h1, h2⟩ := h.marked d hd hk
  refine ⟨?_, ?_⟩
  · unfold Bitmap.covers at *
    rw [hrel.length, hrel.offset]
    exact h1
  · rw [hrel.marked d h1.1, h2, decide_eq_false (by omega)]
    rfl

theorem fault_spec (h : s.Ok) {pde : ℕ} (hp : s.UserDir pde) (vaddr : UInt32) (write : Bool) :
    Meets BadCount (s.fault pde vaddr write) fun s' => Next s s' alone := by
  apply (pageFault_spec h.acct (h.slot hp.1) vaddr ⟨(s.walk pde vaddr).present, write⟩).bind
  intro r hr
  cases r with
  | none => exact exit_spec h hp
  | some mem => exact meets_ok.mpr (h.withMem (hr mem rfl))

/-- Kernel pages that are not directories may be taken and given back. -/
theorem Ok.withMarks (h : s.Ok) {mem : Memory} (hmem : mem = { s.mem with kernelMap := mem.kernelMap })
    (hlen : mem.kernelMap.length = s.mem.kernelMap.length) (hoff : mem.kernelMap.offset = s.mem.kernelMap.offset)
    (hmark : ∀ pde ∈ s.live, s.mem.kernelMap.offset ≤ pde → s.mem.kernelMap.marked pde = true →
      mem.kernelMap.marked pde = true) : Next s { s with mem := mem } alone := by
  have hdirs : mem.dirs = s.mem.dirs := by rw [hmem]
  have htables : mem.tables = s.mem.tables := by rw [hmem]
  have hmap : mem.memoryMap = s.mem.memoryMap := by rw [hmem]
  have hconst : mem.startPage = s.mem.startPage ∧ mem.totalPages = s.mem.totalPages ∧
      mem.freePages = s.mem.freePages := by
    rw [hmem]
    exact ⟨rfl, rfl, rfl⟩
  obtain ⟨hacct, hcow, -⟩ := h.acct.reframe (fun x _ => congrFun hdirs x.1) htables hmap hconst
  refine ⟨⟨hacct, h.kernel, fun pde hp hk => ?_, hoff.trans h.offset, h.space⟩, fun _ => hcow⟩
  obtain ⟨h1, h2⟩ := h.marked pde hp hk
  refine ⟨?_, hmark pde hp h1.1 h2⟩
  unfold Bitmap.covers at *
  rw [hlen, hoff]
  exact h1

/-- A write of a byte of a frame changes no entry. -/
theorem setByte_spec (h : s.Ok) (pde : ℕ) (vaddr : UInt32) (value : UInt8) :
    Next s (s.setByte pde vaddr value) alone := by
  have hsame : Acct (s.setByte pde vaddr value).mem (slots s.live) 0 ∧
      (Cow s.mem (slots s.live) → Cow (s.setByte pde vaddr value).mem (slots s.live)) ∧
      ∀ x ∈ slots s.live, ∀ t, (s.setByte pde vaddr value).mem.entryAt x t = s.mem.entryAt x t :=
    h.acct.reframe (fun _ _ => rfl) rfl rfl ⟨rfl, rfl, rfl⟩
  exact h.withMem ⟨hsame.1, hsame.2.1, rfl⟩

/-- What the call must meet for copy-on-write to be kept. -/
def Alone (s : Machine) : Call → Prop
  | .mmap pde addr length prot flags => s.mem.MmapAlone (s.space pde) addr length prot flags
  | _ => True

theorem exec_spec (h : s.Ok) (c : Call) (hc : s.Enabled c) :
    Meets BadCount (s.exec c) fun s' => Next s s' (s.Alone c) := by
  cases c with
  | userMode =>
    have hok : SpaceOk userSpace := ⟨by decide, by decide, by decide⟩
    exact (enter_spec h h.kernel.1 hok).bind fun r hr => meets_ok.mpr hr
  | fork pde => exact (enter_spec h hc.1 (h.space pde hc.1).2).bind fun r hr => meets_ok.mpr hr
  | exit pde => exact exit_spec h hc
  | linkPage pde vaddr =>
    apply (linkPage_spec h.acct (mem_slots.mpr hc)).bind
    rintro mem ⟨hacct, hcow, hlink⟩
    exact meets_ok.mpr (h.withMem ⟨hacct, hcow, hlink.grows.kernelMap⟩)
  | unlinkPage pde vaddr =>
    apply (unlinkPage_spec h.acct (mem_slots.mpr hc)).bind
    rintro mem ⟨hacct, hcow, hun⟩
    exact meets_ok.mpr (h.withMem ⟨hacct, hcow, hun.kernelMap⟩)
  | load pde vaddr =>
    simp only [exec]
    split_ifs
    · exact meets_ok.mpr ⟨h, fun _ => id⟩
    · exact fault_spec h hc.1 vaddr false
  | store pde vaddr value =>
    simp only [exec]
    split_ifs
    · exact meets_ok.mpr (setByte_spec h pde vaddr value)
    · exact fault_spec h hc.1 vaddr true
  | kernelStore pde vaddr value =>
    simp only [exec]
    split_ifs
    · exact meets_ok.mpr (setByte_spec h pde vaddr value)
    · exact fault_spec h hc.1 vaddr true
  | brk pde addr =>
    obtain ⟨hpde, hok⟩ := h.space pde hc.1
    apply (sysBrk_spec h.acct (h.slot hc.1) hok addr).bind
    rintro ⟨_, mem, task⟩ ⟨hk, htask, hok'⟩
    exact meets_ok.mpr (h.setTask hc hk.acct (fun _ => hk.cow) hk.kernelMap (htask.trans hpde) hok')
  | mmap pde addr length prot flags =>
    obtain ⟨hpde, hok⟩ := h.space pde hc.1
    apply (sysMmap_spec h.acct (h.slot hc.1) hok addr length prot flags).bind
    rintro ⟨_, mem, task⟩ ⟨hacct, hcow, hkmap, htask, hok'⟩
    exact meets_ok.mpr (h.setTask hc hacct hcow hkmap (htask.trans hpde) hok')
  | munmap pde addr length =>
    obtain ⟨hpde, hok⟩ := h.space pde hc.1
    apply (sysMunmap_spec h.acct (h.slot hc.1) hok addr length).bind
    rintro ⟨mem, task⟩ ⟨hk, htask, hok'⟩
    exact meets_ok.mpr (h.setTask hc hk.acct (fun _ => hk.cow) hk.kernelMap (htask.trans hpde) hok')
  | execve pde =>
    obtain ⟨hpde, hok⟩ := h.space pde hc.1
    have hstart : SpaceOk { s.space pde with finish := USER_EXEC_ADDR } := ⟨UInt32.le_refl _, hok.brk, hok.vmap⟩
    have hslot : ∀ vaddr, UserAddr vaddr →
        (({ s.space pde with finish := USER_EXEC_ADDR } : Space).pde, didx vaddr) ∈ slots s.live := h.slot hc.1
    apply (sysBrk_spec h.acct hslot hstart USER_EXEC_ADDR).bind
    rintro ⟨_, mem, task⟩ ⟨hk, htask, hok'⟩
    exact meets_ok.mpr (h.setTask hc hk.acct (fun _ => hk.cow) hk.kernelMap (htask.trans hpde) hok')
  | loadSegment pde vaddr align filesz memsz writable =>
    obtain ⟨hpde, hok⟩ := h.space pde hc.1
    apply (loadSegment_spec h.acct (h.slot hc.1) hok vaddr align filesz memsz writable).bind
    rintro ⟨mem, task⟩ ⟨hk, htask, hok'⟩
    exact meets_ok.mpr (h.setTask hc hk.acct (fun _ => hk.cow) hk.kernelMap (htask.trans hpde) hok')
  | allocKpage count =>
    apply (allocKpage_spec s.mem count).bind
    rintro ⟨index, mem⟩ ⟨-, hal, hmem⟩
    refine meets_ok.mpr (h.withMarks hmem hal.length hal.offset fun pde _ hoff hm => ?_)
    rw [hal.marked pde hoff, hm, Bool.or_true]
  | freeKpage index count =>
    apply (freeKpage_others s.mem index count).bind
    rintro mem ⟨hmem, hlen, hoff, hmark⟩
    refine meets_ok.mpr (h.withMarks hmem hlen hoff fun pde hp ho hm => ?_)
    rw [hmark pde ho (hc pde hp), hm]

/-! ### From boot on -/

/-- The kernel's directory maps no user page at boot. -/
theorem mappingInit_absent (m : Memory) {x : ℕ × ℕ} (hx : x ∈ slots {KERNEL_PAGE_DIR}) :
    (mappingInit m).dentry x = .zero := by
  obtain ⟨h1, h2, h3⟩ := mem_slots.mp hx
  simp only [dentry, mappingInit, mem_singleton.mp h1, Function.update_self]
  rw [if_neg (by omega), if_neg (by omega)]

theorem boot_acct {m : Memory} (hs : m.startPage ≤ KERNEL_PAGES) (ht : KERNEL_PAGES ≤ m.totalPages)
    (hb : m.totalPages ≤ 2 ^ 20) (hmap : ∀ p, m.memoryMap p = if p < m.startPage then 1 else 0)
    (h0 : 0 < m.startPage) (hf : m.freePages + m.startPage = m.totalPages) :
    Acct (mappingInit m) (slots {KERNEL_PAGE_DIR}) 0 := by
  have habsent := fun x hx => mappingInit_absent m (x := x) hx
  have hentry : ∀ x ∈ slots {KERNEL_PAGE_DIR}, ∀ t, (mappingInit m).entryAt x t = .zero := by
    intro x hx t
    exact entryAt_absent (by rw [habsent x hx]; rfl) t
  have hzero : ∀ p, (mappingInit m).memoryMap p = 0 ↔ KERNEL_PAGES ≤ p := by
    intro p
    change (if 0 < p ∧ p < KERNEL_PAGES then 1 else m.memoryMap p) = 0 ↔ _
    rw [hmap]
    by_cases hp : KERNEL_PAGES ≤ p
    · rw [if_neg (by omega), if_neg (by omega)]
      exact iff_of_true rfl hp
    · refine iff_of_false ?_ hp
      split_ifs with h1 h2
      · exact not_false
      · exact not_false
      · omega
  refine ⟨fun x hx => (mem_slots.mp hx).2, fun p hp => ?_, fun x hx hp => ?_, fun x hx t _ hp => ?_, fun p hp => ?_,
    fun x hx => ?_, ?_, hs, ht, hb⟩
  · rw [(hzero p).mpr hp]
    have hnone : ∀ x ∈ slots {KERNEL_PAGE_DIR}, (mappingInit m).refs x p = 0 := by
      intro x hx
      unfold refs
      rw [habsent x hx, refOf_zero, sum_eq_zero fun t _ => by rw [hentry x hx t, refOf_zero], add_zero]
    have htotal : (mappingInit m).total (slots {KERNEL_PAGE_DIR}) p = 0 := sum_eq_zero hnone
    rw [htotal]
    rfl
  · rw [habsent x hx] at hp
    cases hp
  · rw [hentry x hx] at hp
    cases hp
  · change (if 0 < p ∧ p < KERNEL_PAGES then 1 else m.memoryMap p) = 1
    rw [hmap]
    split_ifs with h1 h2
    · rfl
    · rfl
    · omega
  · obtain ⟨h1, -, -⟩ := mem_slots.mp hx
    have hself : (mappingInit m).dirs x.1 0 = { entryInit 2 with user := false } := by
      rw [mem_singleton.mp h1]
      change Function.update m.dirs KERNEL_PAGE_DIR _ KERNEL_PAGE_DIR 0 = _
      rw [Function.update_self]
      rfl
    rw [hself]
    exact ⟨rfl, by decide⟩
  · unfold FreeOk
    have hset : (Ico m.startPage m.totalPages).filter (fun p => (mappingInit m).memoryMap p = 0) =
        Ico KERNEL_PAGES m.totalPages := by
      ext p
      rw [mem_filter, hzero, mem_Ico, mem_Ico]
      omega
    change m.freePages - (KERNEL_PAGES - m.startPage) = ((Ico m.startPage m.totalPages).filter _).card
    rw [hset, Nat.card_Ico]
    omega

theorem kernelMapInit_size {mapPages : ℕ} (h : 0 < mapPages) :
    (kernelMapInit mapPages).offset = 256 ∧ (kernelMapInit mapPages).length = (KERNEL_PAGES - 256) / 8 := by
  unfold kernelMapInit
  dsimp only
  split
  · rename_i r hr
    obtain ⟨-, h1, h2, -⟩ := Bitmap.bitmapScan_some h hr
    exact ⟨h2, h1⟩
  · exact ⟨rfl, rfl⟩

theorem booted_ok (h : s.Booted) : s.Ok ∧ Cow s.mem (slots s.live) := by
  obtain ⟨size, bytes, rfl⟩ := h
  have henough := size.enough
  have haddr := size.addressable
  set count := (size.pages + 256 + 4095) / 4096 with hcount
  have hsize := kernelMapInit_size (show 0 < count by omega)
  have hstart : (memoryMapInit size bytes).startPage = 256 + count := rfl
  have htotal : (memoryMapInit size bytes).totalPages = size.pages + 256 := rfl
  have hfree : (memoryMapInit size bytes).freePages = size.pages - count := rfl
  have hpages : KERNEL_PAGES = 4096 := rfl
  have hacct : Acct (boot size bytes).mem (slots {KERNEL_PAGE_DIR}) 0 :=
    boot_acct (by omega) (by omega) (by omega) (fun _ => rfl) (by omega) (by omega)
  refine ⟨⟨hacct, ⟨mem_singleton_self _, rfl⟩, fun d hd hk => absurd (mem_singleton.mp hd) hk, hsize.1,
    fun d hd => ⟨(mem_singleton.mp hd).symm, UInt32.le_refl _, ?_, ?_⟩⟩, fun x hx t _ hp => ?_⟩
  · change USER_EXEC_ADDR ≤ USER_MMAP_ADDR
    decide
  · change (kernelMapInit count).offset + (kernelMapInit count).length * 8 ≤ _
    rw [hsize.1, hsize.2]
    decide
  · have habsent : (boot size bytes).mem.dentry x = .zero := mappingInit_absent _ hx
    rw [entryAt_absent (by rw [habsent]; rfl)] at hp
    cases hp

theorem run_ok (h : Reachable Booted Step s) : s.Ok := by
  refine h.invariant (I := Ok) (fun s hs => (booted_ok hs).1) ?_
  rintro s c s' hs ⟨hc, he⟩
  exact ((exec_spec hs c hc).result s' he).ok

/-- The page table entries that map frame `p`, over all address spaces. -/
def mappings (s : Machine) (p : ℕ) : ℕ :=
  ((slots s.live ×ˢ range 1024).filter fun x => (s.mem.entryAt x.1 x.2).present ∧ (s.mem.entryAt x.1 x.2).index = p).card

/-- The page directories that use frame `p` as a page table. -/
def tableUsers (s : Machine) (p : ℕ) : ℕ :=
  (s.live.filter fun d => ∃ i ∈ Ico KERNEL_DIRS 1023, (s.mem.dirs d i).present ∧ (s.mem.dirs d i).index = p).card

theorem Ok.total_eq (h : s.Ok) (p : ℕ) : s.mem.total (slots s.live) p = s.mappings p + s.tableUsers p := by
  have hentries : ∑ x ∈ slots s.live, ∑ t ∈ range 1024, refOf (s.mem.entryAt x t) p = s.mappings p := by
    rw [← sum_product']
    exact (card_filter _ _).symm
  -- one directory has at most one entry for the frame, so entries and directories are as many
  have htables : ∑ x ∈ slots s.live, refOf (s.mem.dentry x) p = s.tableUsers p := by
    have himage : s.live.filter (fun d => ∃ i ∈ Ico KERNEL_DIRS 1023, (s.mem.dirs d i).present ∧
        (s.mem.dirs d i).index = p) = ((slots s.live).filter fun x => (s.mem.dentry x).present ∧
          (s.mem.dentry x).index = p).image Prod.fst := by
      ext d
      rw [mem_filter, mem_image]
      constructor
      · rintro ⟨hd, i, hi, hp⟩
        exact ⟨(d, i), mem_filter.mpr ⟨mem_slots.mpr ⟨hd, mem_Ico.mp hi⟩, hp⟩, rfl⟩
      · rintro ⟨⟨d', i⟩, hx, rfl⟩
        obtain ⟨hs, hp⟩ := mem_filter.mp hx
        obtain ⟨hd, hi⟩ := mem_slots.mp hs
        exact ⟨hd, i, mem_Ico.mpr hi, hp⟩
    unfold tableUsers
    rw [himage, card_image_of_injOn]
    · exact (card_filter _ _).symm
    · intro x hx y hy _
      obtain ⟨hx, hpx, hix⟩ := mem_filter.mp hx
      obtain ⟨hy, hpy, hiy⟩ := mem_filter.mp hy
      exact h.acct.apart hx hy hpx hpy (hix.trans hiy.symm)
  rw [← hentries, ← htables, add_comm]
  exact sum_add_distrib

/-- `memory_map` counts what uses a frame and `free_pages` the free frames, so that
`get_page` hands out no frame in use and no check of a count fails. -/
theorem page_accounting (h : Reachable Booted Step s) :
    (∀ p, KERNEL_PAGES ≤ p → s.mem.memoryMap p = s.mappings p + s.tableUsers p) ∧
      s.mem.freePages = ((Ico s.mem.startPage s.mem.totalPages).filter fun p => s.mem.memoryMap p = 0).card ∧
      (∀ q mem, s.mem.getPage = .ok (q, mem) →
        KERNEL_PAGES ≤ q ∧ q < s.mem.totalPages ∧ s.mappings q = 0 ∧ s.tableUsers q = 0) ∧
      ∀ c e, s.Enabled c → s.exec c = .error e → e ∉ countChecks := by
  have hok := run_ok h
  refine ⟨fun p hp => ?_, hok.acct.free, fun q mem hq => ?_, fun c e hc he => (exec_spec hok c hc).halt e he⟩
  · rw [hok.acct.count p hp, hok.total_eq]
    rfl
  · have hno : ¬ BadCount (.panic "Out of Memory!!!") := by decide
    obtain ⟨-, -, hu, htot, -⟩ := (getPage_spec hok.acct hno).result _ hq
    change s.mem.total (slots s.live) q = 0 at htot
    rw [hok.total_eq] at htot
    exact ⟨hu.1, hu.2, by omega, by omega⟩

instance (s : Machine) : (c : Call) → Decidable (s.Alone c)
  | .mmap pde addr length prot flags =>
    inferInstanceAs (Decidable (s.mem.MmapAlone (s.space pde) addr length prot flags))
  | .userMode | .fork _ | .exit _ | .linkPage _ _ | .unlinkPage _ _ | .load _ _ | .store _ _ _ | .kernelStore _ _ _
  | .brk _ _ | .munmap _ _ _ | .execve _ | .loadSegment _ _ _ _ _ _ | .allocKpage _ | .freeKpage _ _ => .isTrue trivial

/-- A call that is made, as `Step` has it; with `alone` only if it meets `Alone`. -/
def attempt (alone : Bool) (s : Machine) (c : Call) : Option (Call × Machine) :=
  if s.Enabled c ∧ (alone → s.Alone c) then
    match s.exec c with
    | .ok s' => some (c, s')
    | .error _ => none
  else none

theorem attempt_step {alone : Bool} {c c' : Call} (h : s.attempt alone c = some (c', s')) :
    Step s c' s' ∧ (alone → s.Alone c') := by
  unfold attempt at h
  split_ifs at h with hc
  split at h
  · rename_i s₁ hx
    cases h
    exact ⟨⟨hc.1, hx⟩, hc.2⟩
  · cases h

/-- 16M of memory, all bytes clear. -/
def smallMachine : Machine := boot ⟨4096, le_rfl, by decide⟩ fun _ _ => 0

theorem smallMachine_run {calls es : List Call} (h : replay (attempt false) smallMachine calls = some (es, s)) :
    Run Booted Step es s := by
  have hstep : ∀ s c c' s', attempt false s c = some (c', s') → Step s c' s' :=
    fun _ _ _ _ h => (attempt_step h).1
  simpa using Run.replay hstep calls smallMachine [] es s (.nil ⟨_, _, rfl⟩) h

/-- A page that a fork shares is counted twice. -/
theorem page_accounting_fork : ∃ s, Reachable Booted Step s ∧ s.mem.memoryMap 4097 = 2 ∧
    s.mem.memoryMap 4097 = s.mappings 4097 + s.tableUsers 4097 := by
  have hsome : ((replay (attempt false) smallMachine [.userMode, .linkPage 258 USER_EXEC_ADDR, .fork 258]).map
      fun r => r.2.mem.memoryMap 4097) = some 2 := by
    decide +kernel
  obtain ⟨⟨es, s⟩, hes, h2⟩ := Option.map_eq_some_iff.mp hsome
  have hr := smallMachine_run hes
  exact ⟨s, ⟨es, hr⟩, h2, (page_accounting ⟨es, hr⟩).1 4097 (by decide)⟩

end Machine
end Onix
