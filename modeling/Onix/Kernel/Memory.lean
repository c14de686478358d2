import Onix.Kernel.Bitmap

/-! Physical pages, page tables and address spaces, from memory.c. A page
directory is a kernel page and its page tables are user frames; a frame is named
by its index. What is in a frame is kept twice, as the entries of a page table and
as bytes: no frame is both at once, and every write that makes a frame a page table
or copies one sets the whole of it. Pages are mapped by the directory `pde` of
the task, which is the one in cr3, and reached through its last entry. -/

set_option autoImplicit false

namespace Onix

def PAGE_SIZE : UInt32 := 0x1000
def KERNEL_PAGE_DIR : ℕ := 1
/-- The directory entries of `KERNEL_PAGE_TABLE`, the first 16M. -/
def KERNEL_DIRS : ℕ := 4
/-- The frames the kernel maps at their own address. -/
def KERNEL_PAGES : ℕ := 4096
def USER_EXEC_ADDR : UInt32 := 0x1000000
def USER_MMAP_ADDR : UInt32 := 0x8000000
def USER_STACK_TOP : UInt32 := 0x10000000
def USER_STACK_BOTTOM : UInt32 := 0xfe00000

def pageIdx (addr : UInt32) : ℕ := addr.toNat / 0x1000
def didx (addr : UInt32) : ℕ := addr.toNat / 0x400000 % 1024
def tidx (addr : UInt32) : ℕ := addr.toNat / 0x1000 % 1024
/-- `PAGE(IDX(addr))` -/
def pageOf (addr : UInt32) : UInt32 := addr / PAGE_SIZE * PAGE_SIZE
def aligned (addr : UInt32) : Bool := addr % PAGE_SIZE == 0

def divRoundUp (num size : UInt32) : UInt32 := (num + size - 1) / size

def ASSERT_PAGE : String := "(addr & 0xfff) == 0"

/-- `page_entry_t`, less the bits that only the processor uses. -/
structure PageEntry where
  present : Bool
  write : Bool
  user : Bool
  shared : Bool
  priv : Bool
  readonly : Bool
  index : ℕ
  deriving DecidableEq, Repr

/-- An entry of a page that `memset` has cleared. -/
def PageEntry.zero : PageEntry := ⟨false, false, false, false, false, false, 0⟩

def entryInit (index : ℕ) : PageEntry := ⟨true, true, true, false, false, false, index⟩

structure Memory where
  startPage : ℕ
  totalPages : ℕ
  freePages : ℕ
  memoryMap : ℕ → ℕ
  dirs : ℕ → ℕ → PageEntry
  tables : ℕ → ℕ → PageEntry
  bytes : ℕ → ℕ → UInt8
  kernelMap : Bitmap

namespace Memory

def setEntry (m : Memory) (table tidx : ℕ) (entry : PageEntry) : Memory :=
  { m with tables := Function.update m.tables table (Function.update (m.tables table) tidx entry) }

def setDentry (m : Memory) (pde didx : ℕ) (entry : PageEntry) : Memory :=
  { m with dirs := Function.update m.dirs pde (Function.update (m.dirs pde) didx entry) }

def setCount (m : Memory) (idx count : ℕ) : Memory :=
  { m with memoryMap := Function.update m.memoryMap idx count }

/-- `get_page`; the frame is returned by its index. -/
def getPage (m : Memory) : Except Halt (ℕ × Memory) :=
  match (List.range' m.startPage (m.totalPages - m.startPage)).find? fun i => m.memoryMap i = 0 with
  | some i => .ok (i, { m.setCount i 1 with freePages := m.freePages - 1 })
  | none => .error (.panic "Out of Memory!!!")

def putPage (m : Memory) (idx : ℕ) : Except Halt Memory := do
  assert "idx >= start_page && idx < total_pages" (idx ≥ m.startPage ∧ idx < m.totalPages)
  assert "memory_map[idx] >= 1" (m.memoryMap idx ≥ 1)
  let m := m.setCount idx (m.memoryMap idx - 1)
  let m := if m.memoryMap idx = 0 then { m with freePages := m.freePages + 1 } else m
  assert "free_pages >= 0 && free_pages < total_pages" (m.freePages < m.totalPages)
  .ok m

/-- `get_pte`; the page table is returned by its frame. -/
def getPte (m : Memory) (pde : ℕ) (vaddr : UInt32) (create : Bool) : Except Halt (ℕ × Memory) := do
  let entry := m.dirs pde (didx vaddr)
  assert "create || (!create && entry->present)" (create || entry.present)
  if !entry.present then
    let (page, m) ← m.getPage
    let m := m.setDentry pde (didx vaddr) (entryInit page)
    .ok (page, { m with tables := Function.update m.tables page fun _ => .zero })
  else .ok (entry.index, m)

def linkPage (m : Memory) (pde : ℕ) (vaddr : UInt32) : Except Halt Memory := do
  assert ASSERT_PAGE (aligned vaddr)
  let (pte, m) ← m.getPte pde vaddr true
  if (m.tables pte (tidx vaddr)).present then .ok m
  else
    let (paddr, m) ← m.getPage
    .ok (m.setEntry pte (tidx vaddr) (entryInit paddr))

def unlinkPage (m : Memory) (pde : ℕ) (vaddr : UInt32) : Except Halt Memory := do
  assert ASSERT_PAGE (aligned vaddr)
  if !(m.dirs pde (didx vaddr)).present then .ok m
  else
    let (pte, m) ← m.getPte pde vaddr false
    let entry := m.tables pte (tidx vaddr)
    if !entry.present then .ok m
    else (m.setEntry pte (tidx vaddr) { entry with present := false }).putPage entry.index

/-- `copy_page` of the page in frame `page`. The new frame is mapped at address 0
for the copy, and that entry of the first kernel page table stays behind, not present. -/
def copyPage (m : Memory) (pde page : ℕ) : Except Halt (ℕ × Memory) := do
  let (paddr, m) ← m.getPage
  let (pte, m) ← m.getPte pde 0 false
  let m := m.setEntry pte 0 { entryInit paddr with present := false }
  .ok (paddr, { m with
    tables := Function.update m.tables paddr (m.tables page)
    bytes := Function.update m.bytes paddr (m.bytes page) })

def scanPage (map : Bitmap) (count : ℕ) : Except Halt (ℕ × Bitmap) := do
  assert "count > 0" (count > 0)
  match map.bitmapScan count with
  | some r => .ok r
  | none => .error (.panic "Scan page fail!!!")

def resetPage (map : Bitmap) (index count : ℕ) : Except Halt Bitmap := do
  assert "count > 0" (count > 0)
  (List.range count).foldlM (fun map i => do
    let b ← map.bitmapTest (index + i)
    assert "bitmap_test(kernel_map, index + i)" b
    map.bitmapSet (index + i) false) map

def allocKpage (m : Memory) (count : ℕ) : Except Halt (ℕ × Memory) := do
  assert "count > 0" (count > 0)
  let (index, map) ← scanPage m.kernelMap count
  .ok (index, { m with kernelMap := map })

def freeKpage (m : Memory) (index count : ℕ) : Except Halt Memory := do
  assert "count > 0" (count > 0)
  let map ← resetPage m.kernelMap index count
  .ok { m with kernelMap := map }

/-- One round of the inner loop of `copy_pde`. -/
def copyEntry (m : Memory) (pte tidx : ℕ) : Except Halt Memory := do
  let entry := m.tables pte tidx
  if !entry.present then .ok m
  else
    assert "memory_map[entry->index] > 0" (m.memoryMap entry.index > 0)
    let m := if !entry.shared then m.setEntry pte tidx { entry with write := false } else m
    let m := m.setCount entry.index (m.memoryMap entry.index + 1)
    assert "memory_map[entry->index] < 255" (m.memoryMap entry.index < 255)
    .ok m

/-- One round of the outer loop, which fills entry `didx` of the new directory `child`. -/
def copyTable (m : Memory) (pde child didx : ℕ) : Except Halt Memory := do
  let dentry := m.dirs child didx
  if !dentry.present then .ok m
  else
    let pte := (m.dirs pde didx).index
    let m ← (List.range 1024).foldlM (fun m tidx => m.copyEntry pte tidx) m
    let (paddr, m) ← m.copyPage pde pte
    .ok (m.setDentry child didx { dentry with index := paddr })

/-- The directory entries of user space. -/
def userDirs : List ℕ := List.range' KERNEL_DIRS 1019

def copyPde (m : Memory) (pde : ℕ) : Except Halt (ℕ × Memory) := do
  let (child, m) ← m.allocKpage 1
  let m := { m with dirs := Function.update m.dirs child (m.dirs pde) }
  let m := m.setDentry child 1023 (entryInit child)
  let m ← userDirs.foldlM (fun m didx => m.copyTable pde child didx) m
  .ok (child, m)

/-- One round of the inner loop of `free_pde`. -/
def freeEntry (m : Memory) (pte tidx : ℕ) : Except Halt Memory := do
  let entry := m.tables pte tidx
  if !entry.present then .ok m
  else
    assert "memory_map[entry->index] > 0" (m.memoryMap entry.index > 0)
    m.putPage entry.index

def freeTable (m : Memory) (pde didx : ℕ) : Except Halt Memory := do
  let dentry := m.dirs pde didx
  if !dentry.present then .ok m
  else
    let m ← (List.range 1024).foldlM (fun m tidx => m.freeEntry dentry.index tidx) m
    m.putPage dentry.index

def freePde (m : Memory) (pde : ℕ) (user : Bool) : Except Halt Memory := do
  assert "task->uid != KERNEL_USER" user
  let m ← userDirs.foldlM (fun m didx => m.freeTable pde didx) m
  m.freeKpage pde 1

end Memory

/-! ### The calls of a task -/

/-- What `task_t` says of the address space of a task; `finish` is its `end`. -/
structure Space where
  pde : ℕ
  brk : UInt32
  finish : UInt32
  /-- `uid` is not `KERNEL_USER`. -/
  user : Bool
  vmap : Bitmap

/-- The bits of the error code that `page_fault` reads. -/
structure FaultCode where
  present : Bool
  write : Bool
  deriving DecidableEq, Repr

def PROT_WRITE : UInt32 := 2
def MAP_SHARED : UInt32 := 1
def MAP_PRIVATE : UInt32 := 2

namespace Memory

/-- `page_fault`; `none` is a segmentation fault, which ends in `task_exit(-1)`. -/
def pageFault (m : Memory) (task : Space) (vaddr : UInt32) (code : FaultCode) :
    Except Halt (Option Memory) := do
  if vaddr < USER_EXEC_ADDR ∨ vaddr ≥ USER_STACK_TOP then
    assert "task->uid" task.user
    .ok none
  else if code.present then
    assert "code->write" code.write
    let (pte, m) ← m.getPte task.pde vaddr false
    let entry := m.tables pte (tidx vaddr)
    assert "entry->present" entry.present
    assert "memory_map[entry->index] > 0" (m.memoryMap entry.index > 0)
    assert "!entry->shared" !entry.shared
    assert "!entry->readonly" !entry.readonly
    if m.memoryMap entry.index = 1 then
      .ok (some (m.setEntry pte (tidx vaddr) { entry with write := true }))
    else
      -- the page at `vaddr` lies in the frame the entry maps
      let (paddr, m) ← m.copyPage task.pde entry.index
      let m := m.setCount entry.index (m.memoryMap entry.index - 1)
      .ok (some (m.setEntry pte (tidx vaddr) (entryInit paddr)))
  else if vaddr < task.brk ∨ vaddr ≥ USER_STACK_BOTTOM then
    let m ← m.linkPage task.pde (pageOf vaddr)
    .ok (some m)
  else .error (.panic "page fault")

/-- `sys_brk`; the result is whether it returned 0. -/
def sysBrk (m : Memory) (task : Space) (addr : UInt32) : Except Halt (Bool × Memory × Space) := do
  assert ASSERT_PAGE (aligned addr)
  assert "task->uid != KERNEL_USER" task.user
  assert "task->end <= brk && brk < USER_MMAP_ADDR" (task.finish ≤ addr ∧ addr < USER_MMAP_ADDR)
  if task.brk > addr then
    let pages := (List.range (divRoundUp (task.brk - addr) PAGE_SIZE).toNat).map
      fun i => addr + PAGE_SIZE * UInt32.ofNat i
    let m ← pages.foldlM (fun m page => m.unlinkPage task.pde page) m
    .ok (true, m, { task with brk := addr })
  else if pageIdx (addr - task.brk) > m.freePages then .ok (false, m, task)
  else .ok (true, m, { task with brk := addr })

/-- The flags `sys_mmap` gives the entry of a page. -/
def mmapEntry (entry : PageEntry) (prot flags : UInt32) : PageEntry :=
  let entry := { entry with user := true, write := false, readonly := true }
  let entry := if prot &&& PROT_WRITE ≠ 0 then { entry with write := true, readonly := false } else entry
  let entry := if flags &&& MAP_SHARED ≠ 0 then { entry with shared := true } else entry
  if flags &&& MAP_PRIVATE ≠ 0 then { entry with priv := true } else entry

/-- One round of the loop of `sys_mmap`. -/
def mmapPage (pde : ℕ) (prot flags : UInt32) (s : Memory × Bitmap) (page : UInt32) :
    Except Halt (Memory × Bitmap) := do
  let m ← s.1.linkPage pde page
  let vmap ← s.2.bitmapSet (pageIdx page) true
  let (pte, m) ← m.getPte pde page false
  .ok (m.setEntry pte (tidx page) (mmapEntry (m.tables pte (tidx page)) prot flags), vmap)

/-- The pages a call of `sys_mmap` or `sys_munmap` walks over. -/
def pagesFrom (vaddr : UInt32) (count : ℕ) : List UInt32 :=
  (List.range count).map fun i => vaddr + PAGE_SIZE * UInt32.ofNat i

/-- Where `sys_mmap` maps: at the address it is given, or in the first free run of the area. -/
def mmapArea (task : Space) (addr : UInt32) (count : ℕ) : Except Halt (UInt32 × Bitmap) :=
  if addr = 0 then do
    let (index, vmap) ← scanPage task.vmap count
    .ok (UInt32.ofNat index * PAGE_SIZE, vmap)
  else .ok (addr, task.vmap)

/-- `sys_mmap` up to the read of the file, which stores to the pages mapped here. -/
def sysMmap (m : Memory) (task : Space) (addr length prot flags : UInt32) :
    Except Halt (UInt32 × Memory × Space) := do
  assert ASSERT_PAGE (aligned addr)
  let count := (divRoundUp length PAGE_SIZE).toNat
  let (vaddr, vmap) ← mmapArea task addr count
  assert "vaddr >= USER_MMAP_ADDR && vaddr < USER_STACK_BOTTOM"
    (vaddr ≥ USER_MMAP_ADDR ∧ vaddr < USER_STACK_BOTTOM)
  let (m, vmap) ← (pagesFrom vaddr count).foldlM (mmapPage task.pde prot flags) (m, vmap)
  .ok (vaddr, m, { task with vmap := vmap })

/-- One round of the loop of `sys_munmap`. -/
def munmapPage (pde : ℕ) (s : Memory × Bitmap) (page : UInt32) : Except Halt (Memory × Bitmap) := do
  let m ← s.1.unlinkPage pde page
  let b ← s.2.bitmapTest (pageIdx page)
  assert "bitmap_test(task->vmap, IDX(page))" b
  let vmap ← s.2.bitmapSet (pageIdx page) false
  .ok (m, vmap)

def sysMunmap (m : Memory) (task : Space) (addr length : UInt32) : Except Halt (Memory × Space) := do
  assert "vaddr >= USER_MMAP_ADDR && vaddr < USER_STACK_BOTTOM"
    (addr ≥ USER_MMAP_ADDR ∧ addr < USER_STACK_BOTTOM)
  assert ASSERT_PAGE (aligned addr)
  let (m, vmap) ← (pagesFrom addr (divRoundUp length PAGE_SIZE).toNat).foldlM
    (munmapPage task.pde) (m, task.vmap)
  .ok (m, { task with vmap := vmap })

/-- `load_segment` of execve.c but for the stores to the pages it maps. -/
def loadSegment (m : Memory) (task : Space) (vaddr align filesz memsz : UInt32) (writable : Bool) :
    Except Halt (Memory × Space) := do
  assert "phdr->p_align == 0x1000" (align == 0x1000)
  assert "(phdr->p_vaddr & 0xfff) == 0" (aligned vaddr)
  let count := divRoundUp (max memsz filesz) PAGE_SIZE
  let pages := pagesFrom vaddr count.toNat
  let m ← pages.foldlM (fun m addr => do
    assert "addr >= USER_EXEC_ADDR && addr < USER_MMAP_ADDR" (addr ≥ USER_EXEC_ADDR ∧ addr < USER_MMAP_ADDR)
    m.linkPage task.pde addr) m
  let m ← if writable then .ok m else pages.foldlM (fun m addr => do
    let (pte, m) ← m.getPte task.pde addr false
    .ok (m.setEntry pte (tidx addr) { m.tables pte (tidx addr) with write := false, readonly := true })) m
  .ok (m, { task with finish := max task.finish (vaddr + count * PAGE_SIZE) })

/-! ### Boot -/

/-- What the multiboot map reports: whole pages from 1M on, at least 16M of them,
within the addresses of a 32-bit machine. -/
structure MemorySize where
  pages : ℕ
  enough : 4096 ≤ pages
  addressable : pages + 256 ≤ 2 ^ 20

/-- The kernel pages with those of `memory_map` taken; the result of the scan is not looked at. -/
def kernelMapInit (mapPages : ℕ) : Bitmap :=
  let map : Bitmap := ⟨fun _ => false, (KERNEL_PAGES - 256) / 8, 256⟩
  match map.bitmapScan mapPages with
  | some (_, map) => map
  | none => map

/-- `memory_map_init`; it would panic for less memory than a `MemorySize` has. -/
def memoryMapInit (size : MemorySize) (bytes : ℕ → ℕ → UInt8) : Memory :=
  let total := size.pages + 256
  let mapPages := (total + 4095) / 4096
  let start := 256 + mapPages
  { startPage := start
    totalPages := total
    freePages := size.pages - mapPages
    memoryMap := fun i => if i < start then 1 else 0
    dirs := fun _ _ => .zero
    tables := fun _ _ => .zero
    bytes := bytes
    kernelMap := kernelMapInit mapPages }

/-- `mapping_init` -/
def mappingInit (m : Memory) : Memory where
  startPage := m.startPage
  totalPages := m.totalPages
  freePages := m.freePages - (KERNEL_PAGES - m.startPage)
  memoryMap := fun i => if 0 < i ∧ i < KERNEL_PAGES then 1 else m.memoryMap i
  dirs := Function.update m.dirs KERNEL_PAGE_DIR fun i =>
    if i < KERNEL_DIRS then { entryInit (i + 2) with user := false }
    else if i = 1023 then entryInit KERNEL_PAGE_DIR
    else .zero
  tables := fun f t =>
    if 2 ≤ f ∧ f < KERNEL_DIRS + 2 ∧ t < 1024 then
      (if f = 2 ∧ t = 0 then .zero else { entryInit ((f - 2) * 1024 + t) with user := false })
    else m.tables f t
  bytes := m.bytes
  kernelMap := m.kernelMap

end Memory
end Onix
