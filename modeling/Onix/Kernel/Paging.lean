import Onix.Kernel.AddressSpace
import Onix.Lib.Bytes
import Onix.Lib.Follow

/-! The paging of memory.c on the words of the physical memory. The processor finds a page
through `cr3`, a page directory and a page table; memory.c finds the directory and its
tables through the same walk, since the last entry of every directory is the directory
itself. The functions here read and write linear addresses only. -/

set_option autoImplicit false

namespace Onix

open Memory Lib

/-! ### The word of an entry -/

/-- `page_entry_t`, its lowest bit first. -/
def PageEntry.ofWord (w : UInt32) : PageEntry where
  present := w.toNat.testBit 0
  write := w.toNat.testBit 1
  user := w.toNat.testBit 2
  shared := w.toNat.testBit 9
  priv := w.toNat.testBit 10
  readonly := w.toNat.testBit 11
  index := w.toNat / 4096

namespace Phys

/-- `entry_init` -/
def entryInit (index : ℕ) : UInt32 := .ofNat (4096 * index + 7)
/-- `entry->present = false` -/
def clearPresent (w : UInt32) : UInt32 := w &&& 0xfffffffe
/-- `entry->write = false` -/
def clearWrite (w : UInt32) : UInt32 := w &&& 0xfffffffd
/-- `entry->write = true` -/
def setWrite (w : UInt32) : UInt32 := w ||| 2
/-- `entry->user = 0` -/
def clearUser (w : UInt32) : UInt32 := w &&& 0xfffffffb
/-- `entry->index = index` -/
def setIndex (w : UInt32) (index : ℕ) : UInt32 := .ofNat (4096 * index + w.toNat % 4096)

end Phys

open PageEntry (ofWord)

theorem ofWord_entryInit {index : ℕ} (h : index < 2 ^ 20) : ofWord (Phys.entryInit index) = entryInit index := by
  have hw : (Phys.entryInit index).toNat = 2 ^ 12 * index + 7 := by
    rw [Phys.entryInit, UInt32.toNat_ofNat']
    omega
  unfold ofWord entryInit
  rw [hw]
  simp only [Nat.testBit_two_pow_mul_add index (show 7 < 2 ^ 12 by decide)]
  congr 1
  omega

theorem ofWord_setIndex {w : UInt32} {index : ℕ} (h : index < 2 ^ 20) :
    ofWord (Phys.setIndex w index) = { ofWord w with index := index } := by
  have hlow : w.toNat % 4096 < 2 ^ 12 := Nat.mod_lt _ (by decide)
  have hw : (Phys.setIndex w index).toNat = 2 ^ 12 * index + w.toNat % 4096 := by
    rw [Phys.setIndex, UInt32.toNat_ofNat']
    omega
  have hbit : ∀ i < 12, (w.toNat % 4096).testBit i = w.toNat.testBit i := by
    intro i hi
    rw [show 4096 = 2 ^ 12 from rfl, Nat.testBit_mod_two_pow]
    simp [hi]
  unfold ofWord
  rw [hw]
  simp only [Nat.testBit_two_pow_mul_add index hlow]
  simp only [show (0 : ℕ) < 12 by decide, show (1 : ℕ) < 12 by decide, show (2 : ℕ) < 12 by decide,
    show (9 : ℕ) < 12 by decide, show (10 : ℕ) < 12 by decide, show (11 : ℕ) < 12 by decide, if_true, hbit]
  congr 1
  omega

/-- A mask of the flags leaves the index. -/
theorem and_div (w mask : UInt32) (h : mask.toNat / 4096 = 2 ^ 20 - 1) : (w &&& mask).toNat / 4096 = w.toNat / 4096 := by
  have hw := w.toNat_lt
  rw [UInt32.toNat_and, show 4096 = 2 ^ 12 from rfl, ← Nat.shiftRight_eq_div_pow, Nat.shiftRight_and_distrib,
    Nat.shiftRight_eq_div_pow, Nat.shiftRight_eq_div_pow, show mask.toNat / 2 ^ 12 = 2 ^ 20 - 1 from h,
    Nat.and_two_pow_sub_one_eq_mod]
  omega

theorem ofWord_and (w mask : UInt32) (h : mask.toNat / 4096 = 2 ^ 20 - 1) : ofWord (w &&& mask) =
    { present := (ofWord w).present && (ofWord mask).present
      write := (ofWord w).write && (ofWord mask).write
      user := (ofWord w).user && (ofWord mask).user
      shared := (ofWord w).shared && (ofWord mask).shared
      priv := (ofWord w).priv && (ofWord mask).priv
      readonly := (ofWord w).readonly && (ofWord mask).readonly
      index := (ofWord w).index } := by
  unfold ofWord
  rw [and_div w mask h, UInt32.toNat_and]
  simp only [Nat.testBit_and]

theorem ofWord_clearPresent (w : UInt32) : ofWord (Phys.clearPresent w) = { ofWord w with present := false } := by
  have hmask : ofWord 0xfffffffe = ⟨false, true, true, true, true, true, 2 ^ 20 - 1⟩ := by decide
  rw [Phys.clearPresent, ofWord_and w _ (by decide), hmask]
  simp only [Bool.and_true, Bool.and_false]

theorem ofWord_clearWrite (w : UInt32) : ofWord (Phys.clearWrite w) = { ofWord w with write := false } := by
  have hmask : ofWord 0xfffffffd = ⟨true, false, true, true, true, true, 2 ^ 20 - 1⟩ := by decide
  rw [Phys.clearWrite, ofWord_and w _ (by decide), hmask]
  simp only [Bool.and_true, Bool.and_false]

theorem ofWord_clearUser (w : UInt32) : ofWord (Phys.clearUser w) = { ofWord w with user := false } := by
  have hmask : ofWord 0xfffffffb = ⟨true, true, false, true, true, true, 2 ^ 20 - 1⟩ := by decide
  rw [Phys.clearUser, ofWord_and w _ (by decide), hmask]
  simp only [Bool.and_true, Bool.and_false]

theorem ofWord_setWrite (w : UInt32) : ofWord (Phys.setWrite w) = { ofWord w with write := true } := by
  have hdiv : (w ||| 2).toNat / 4096 = w.toNat / 4096 := by
    rw [UInt32.toNat_or, show 4096 = 2 ^ 12 from rfl, ← Nat.shiftRight_eq_div_pow, Nat.shiftRight_or_distrib,
      Nat.shiftRight_eq_div_pow, Nat.shiftRight_eq_div_pow, show (2 : UInt32).toNat / 2 ^ 12 = 0 by decide, Nat.or_zero]
  unfold ofWord Phys.setWrite
  rw [hdiv, UInt32.toNat_or]
  simp only [Nat.testBit_or, show (2 : UInt32).toNat.testBit 0 = false by decide,
    show (2 : UInt32).toNat.testBit 1 = true by decide, show (2 : UInt32).toNat.testBit 2 = false by decide,
    show (2 : UInt32).toNat.testBit 9 = false by decide, show (2 : UInt32).toNat.testBit 10 = false by decide,
    show (2 : UInt32).toNat.testBit 11 = false by decide, Bool.or_true, Bool.or_false]

@[simp] theorem ofWord_zero : ofWord 0 = .zero := by decide

/-! ### The memory and the walk -/

inductive PageTrap
  | halt (h : Halt)
  /-- An access of memory.c that finds no page. -/
  | unmapped (addr : UInt32)
  /-- A segmentation fault, which ends the task. -/
  | segmentation
  deriving DecidableEq, Repr

/-- The physical memory by its frames, `cr3`, and the variables of memory.c. -/
structure Phys where
  byte : ℕ → ByteMem
  cr3 : ℕ
  startPage : ℕ
  totalPages : ℕ
  freePages : ℕ
  memoryMap : ℕ → ℕ
  kernelMap : Bitmap

namespace Phys

def word (k : Phys) (frame i : ℕ) : UInt32 := (k.byte frame).load32 (4 * i)

def setWord (k : Phys) (frame i : ℕ) (w : UInt32) : Phys :=
  { k with byte := Function.update k.byte frame ((k.byte frame).put (4 * i) (ByteMem.wordBytes w)) }

/-- The whole of a frame is written. -/
def setFrame (k : Phys) (frame : ℕ) (bytes : ByteMem) : Phys :=
  { k with byte := Function.update k.byte frame fun o => if o < 4096 then bytes o else k.byte frame o }

/-- The frame that the processor finds for a linear address; the kernel is stopped by no flag but `present`. -/
def walk (k : Phys) (addr : UInt32) : Option ℕ :=
  let dentry := ofWord (k.word k.cr3 (didx addr))
  let entry := ofWord (k.word dentry.index (tidx addr))
  if dentry.present && entry.present then some entry.index else none

def access (k : Phys) (addr : UInt32) : Except PageTrap ℕ := (k.walk addr).elim (.error (.unmapped addr)) .ok

def load (k : Phys) (addr : UInt32) : Except PageTrap UInt32 := do
  let frame ← k.access addr
  .ok (k.word frame (addr.toNat % 4096 / 4))

def store (k : Phys) (addr w : UInt32) : Except PageTrap Phys := do
  let frame ← k.access addr
  .ok (k.setWord frame (addr.toNat % 4096 / 4) w)

/-- `memset((void *)page, 0, PAGE_SIZE)` -/
def memset (k : Phys) (page : UInt32) : Except PageTrap Phys := do
  let frame ← k.access page
  .ok (k.setFrame frame fun _ => 0)

/-- `memcpy((void *)dst, (void *)src, PAGE_SIZE)` from page to page. -/
def memcpy (k : Phys) (dst src : UInt32) : Except PageTrap Phys := do
  let frame ← k.access dst
  let page ← k.access src
  .ok (k.setFrame frame (k.byte page))

/-! ### memory.c -/

def raise {α : Type} (x : Except Halt α) : Except PageTrap α := x.mapError .halt

def setCount (k : Phys) (idx count : ℕ) : Phys := { k with memoryMap := Function.update k.memoryMap idx count }

/-- `get_page`; the frame is returned by its index. -/
def getPage (k : Phys) : Except PageTrap (ℕ × Phys) :=
  match (List.range' k.startPage (k.totalPages - k.startPage)).find? fun i => k.memoryMap i = 0 with
  | some i => .ok (i, { k.setCount i 1 with freePages := k.freePages - 1 })
  | none => .error (.halt (.panic "Out of Memory!!!"))

def putPage (k : Phys) (idx : ℕ) : Except PageTrap Phys := do
  raise (assert "idx >= start_page && idx < total_pages" (idx ≥ k.startPage ∧ idx < k.totalPages))
  raise (assert "memory_map[idx] >= 1" (k.memoryMap idx ≥ 1))
  let k := k.setCount idx (k.memoryMap idx - 1)
  let k := if k.memoryMap idx = 0 then { k with freePages := k.freePages + 1 } else k
  raise (assert "free_pages >= 0 && free_pages < total_pages" (k.freePages < k.totalPages))
  .ok k

def PDE_MASK : UInt32 := 0xFFC00000

/-- `(page_entry_t *)(PDE_MASK | (idx << 12))` -/
def tableAddr (idx : ℕ) : UInt32 := PDE_MASK ||| (UInt32.ofNat idx <<< 12)

/-- `&table[idx]` -/
def element (table : UInt32) (idx : ℕ) : UInt32 := table + 4 * UInt32.ofNat idx

def getPde : UInt32 := 0xfffff000

def getPte (k : Phys) (vaddr : UInt32) (create : Bool) : Except PageTrap (UInt32 × Phys) := do
  let entry := element getPde (didx vaddr)
  let e ← k.load entry
  raise (assert "create || (!create && entry->present)" (create || (ofWord e).present))
  let table := tableAddr (didx vaddr)
  if !(ofWord e).present then
    let (page, k) ← k.getPage
    let k ← k.store entry (entryInit page)
    let k ← k.memset table
    .ok (table, k)
  else .ok (table, k)

def linkPage (k : Phys) (vaddr : UInt32) : Except PageTrap Phys := do
  raise (assert ASSERT_PAGE (aligned vaddr))
  let (pte, k) ← k.getPte vaddr true
  let entry := element pte (tidx vaddr)
  let e ← k.load entry
  if (ofWord e).present then .ok k
  else
    let (paddr, k) ← k.getPage
    k.store entry (entryInit paddr)

def unlinkPage (k : Phys) (vaddr : UInt32) : Except PageTrap Phys := do
  raise (assert ASSERT_PAGE (aligned vaddr))
  let e ← k.load (element getPde (didx vaddr))
  if !(ofWord e).present then .ok k
  else
    let (pte, k) ← k.getPte vaddr false
    let entry := element pte (tidx vaddr)
    let e ← k.load entry
    if !(ofWord e).present then .ok k
    else
      let k ← k.store entry (clearPresent e)
      k.putPage (ofWord e).index

/-- `copy_page` of the page at `page`. -/
def copyPage (k : Phys) (page : UInt32) : Except PageTrap (ℕ × Phys) := do
  let (paddr, k) ← k.getPage
  let (entry, k) ← k.getPte 0 false
  let k ← k.store entry (entryInit paddr)
  let k ← k.memcpy 0 page
  let e ← k.load entry
  let k ← k.store entry (clearPresent e)
  .ok (paddr, k)

def allocKpage (k : Phys) (count : ℕ) : Except PageTrap (ℕ × Phys) := do
  raise (assert "count > 0" (count > 0))
  let (index, map) ← raise (scanPage k.kernelMap count)
  .ok (index, { k with kernelMap := map })

/-- One round of the inner loop of `copy_pde`. -/
def copyEntry (k : Phys) (pte : UInt32) (tidx : ℕ) : Except PageTrap Phys := do
  let entry := element pte tidx
  let e ← k.load entry
  if !(ofWord e).present then .ok k
  else
    raise (assert "memory_map[entry->index] > 0" (k.memoryMap (ofWord e).index > 0))
    let k ← if !(ofWord e).shared then k.store entry (clearWrite e) else .ok k
    let k := k.setCount (ofWord e).index (k.memoryMap (ofWord e).index + 1)
    raise (assert "memory_map[entry->index] < 255" (k.memoryMap (ofWord e).index < 255))
    .ok k

/-- One round of the outer loop; the new directory is at `child`. -/
def copyTable (k : Phys) (child : UInt32) (didx : ℕ) : Except PageTrap Phys := do
  let dentry := element child didx
  let e ← k.load dentry
  if !(ofWord e).present then .ok k
  else
    let pte := tableAddr didx
    let k ← (List.range 1024).foldlM (fun k tidx => k.copyEntry pte tidx) k
    let (paddr, k) ← k.copyPage pte
    let e ← k.load dentry
    k.store dentry (setIndex e paddr)

/-- `PAGE(idx)` -/
def page (idx : ℕ) : UInt32 := .ofNat (4096 * idx)

/-- `copy_pde` for a task with its directory in `pde`; the new directory is returned by its index. -/
def copyPde (k : Phys) (pde : ℕ) : Except PageTrap (ℕ × Phys) := do
  let (child, k) ← k.allocKpage 1
  let k ← k.memcpy (page child) (page pde)
  let k ← k.store (element (page child) 1023) (entryInit child)
  let k ← userDirs.foldlM (fun k didx => k.copyTable (page child) didx) k
  .ok (child, { k with cr3 := pde })

/-- `page_fault`; `none` is a segmentation fault. -/
def pageFault (k : Phys) (task : Space) (vaddr : UInt32) (code : FaultCode) : Except PageTrap (Option Phys) := do
  if vaddr < USER_EXEC_ADDR ∨ vaddr ≥ USER_STACK_TOP then
    raise (assert "task->uid" task.user)
    .ok none
  else if code.present then
    raise (assert "code->write" code.write)
    let (pte, k) ← k.getPte vaddr false
    let entry := element pte (tidx vaddr)
    let e ← k.load entry
    raise (assert "entry->present" (ofWord e).present)
    raise (assert "memory_map[entry->index] > 0" (k.memoryMap (ofWord e).index > 0))
    raise (assert "!entry->shared" !(ofWord e).shared)
    raise (assert "!entry->readonly" !(ofWord e).readonly)
    if k.memoryMap (ofWord e).index = 1 then
      let k ← k.store entry (setWrite e)
      .ok (some k)
    else
      let (paddr, k) ← k.copyPage (pageOf vaddr)
      let k := k.setCount (ofWord e).index (k.memoryMap (ofWord e).index - 1)
      let k ← k.store entry (entryInit paddr)
      .ok (some k)
  else if vaddr < task.brk ∨ vaddr ≥ USER_STACK_BOTTOM then
    let k ← k.linkPage (pageOf vaddr)
    .ok (some k)
  else .error (.halt (.panic "page fault"))


/-! ### Words of a frame -/

variable {k k' : Phys} {m m' : Memory} {D : Finset ℕ} {X : Set ℕ} {pde : ℕ}

theorem word_setWord {f i : ℕ} (w : UInt32) (g j : ℕ) :
    (k.setWord f i w).word g j = if g = f ∧ j = i then w else k.word g j := by
  unfold word setWord
  dsimp only
  by_cases hg : g = f
  · subst hg
    rw [Function.update_self]
    by_cases hj : j = i
    · subst hj
      rw [if_pos ⟨rfl, rfl⟩]
      exact (ByteMem.holds_put).load
    · rw [if_neg fun h => hj h.2]
      unfold ByteMem.load32
      rw [ByteMem.put_of_outside (by rw [ByteMem.length_wordBytes]; omega),
        ByteMem.put_of_outside (by rw [ByteMem.length_wordBytes]; omega),
        ByteMem.put_of_outside (by rw [ByteMem.length_wordBytes]; omega),
        ByteMem.put_of_outside (by rw [ByteMem.length_wordBytes]; omega)]
  · rw [Function.update_of_ne hg, if_neg fun h => hg h.1]

theorem byte_setWord {f i g : ℕ} {w : UInt32} (hg : g ≠ f) : (k.setWord f i w).byte g = k.byte g :=
  Function.update_of_ne hg _ _

theorem byte_setFrame {f g : ℕ} {b : ByteMem} (hg : g ≠ f) : (k.setFrame f b).byte g = k.byte g :=
  Function.update_of_ne hg _ _

theorem word_setFrame_ne {f g j : ℕ} {b : ByteMem} (hg : g ≠ f) : (k.setFrame f b).word g j = k.word g j := by
  unfold word
  rw [byte_setFrame hg]

theorem word_setFrame {f j : ℕ} {b : ByteMem} (hj : j < 1024) : (k.setFrame f b).word f j = b.load32 (4 * j) := by
  unfold word setFrame
  dsimp only
  rw [Function.update_self]
  unfold ByteMem.load32
  dsimp only
  rw [if_pos (by omega), if_pos (by omega), if_pos (by omega), if_pos (by omega)]

theorem setWord_setFrame {f g i : ℕ} {w : UInt32} {b : ByteMem} (hg : f ≠ g) :
    (k.setWord f i w).setFrame g b = (k.setFrame g b).setWord f i w := by
  unfold setFrame setWord
  dsimp only
  rw [Function.update_of_ne hg.symm, Function.update_of_ne hg, Function.update_comm hg]

/-! ### The window on the page tables -/

theorem tableAddr_toNat {i : ℕ} (hi : i < 1024) : (tableAddr i).toNat = 0xFFC00000 + 4096 * i := by
  unfold tableAddr PDE_MASK
  have hs : (UInt32.ofNat i <<< 12).toNat = 4096 * i := by
    rw [UInt32.toNat_shiftLeft, UInt32.toNat_ofNat', Nat.shiftLeft_eq]
    have : (12 : UInt32).toNat % 32 = 12 := by decide
    rw [this]
    omega
  rw [UInt32.toNat_or, hs, show (0xFFC00000 : UInt32).toNat = 2 ^ 22 * 1023 by decide,
    ← Nat.two_pow_add_eq_or_of_lt (show 4096 * i < 2 ^ 22 by omega)]

theorem element_toNat {a : UInt32} {t : ℕ} (ha : a.toNat % 4096 = 0) (ht : t < 1024) :
    (element a t).toNat = a.toNat + 4 * t := by
  have hlt := a.toNat_lt
  unfold element
  rw [UInt32.toNat_add, UInt32.toNat_mul, UInt32.toNat_ofNat', show (4 : UInt32).toNat = 4 by decide]
  omega

theorem getPde_eq : getPde = tableAddr 1023 := by decide

/-- Where entry `t` of table `i` is seen. -/
theorem element_tableAddr {i t : ℕ} (hi : i < 1024) (ht : t < 1024) : didx (element (tableAddr i) t) = 1023 ∧
    tidx (element (tableAddr i) t) = i ∧ (element (tableAddr i) t).toNat % 4096 / 4 = t := by
  have ha := tableAddr_toNat hi
  have he := element_toNat (a := tableAddr i) (by omega) ht
  unfold didx tidx
  rw [he, ha]
  omega

theorem tableAddr_element (i : ℕ) : element (tableAddr i) 0 = tableAddr i := by
  unfold element
  simp

/-! ### What the words stand for -/

/-- A frame that is the page table of a directory in `D`. -/
def IsTable (D : Finset ℕ) (m : Memory) (f : ℕ) : Prop :=
  ∃ d ∈ D, ∃ i < 1023, (m.dirs d i).present ∧ (m.dirs d i).index = f

/-- Where directories and tables lie. -/
structure Shape (D : Finset ℕ) (m : Memory) : Prop where
  low : ∀ d ∈ D, d < KERNEL_PAGES ∧ (d = KERNEL_PAGE_DIR ∨ 6 ≤ d)
  self : ∀ d ∈ D, (m.dirs d 1023).present ∧ (m.dirs d 1023).index = d
  kernel : ∀ d ∈ D, ∀ i < KERNEL_DIRS, (m.dirs d i).present ∧ (m.dirs d i).index = i + 2
  user : ∀ d ∈ D, ∀ i, KERNEL_DIRS ≤ i → i < 1023 → (m.dirs d i).present →
    KERNEL_PAGES ≤ (m.dirs d i).index ∧ 1 ≤ m.memoryMap (m.dirs d i).index
  /-- The kernel finds its frames at their own addresses. -/
  identity : ∀ n < KERNEL_PAGES, 0 < n → (m.tables (n / 1024 + 2) (n % 1024)).present ∧
    (m.tables (n / 1024 + 2) (n % 1024)).index = n
  used : ∀ p < KERNEL_PAGES, 1 ≤ m.memoryMap p
  total : m.totalPages ≤ 2 ^ 20
  /-- What `kernel_map` hands out is below `KERNEL_PAGES`. -/
  room : m.kernelMap.offset = 256 ∧ m.kernelMap.length = (KERNEL_PAGES - 256) / 8

/-- The words of the frames say what the memory says: the directories in `D` and their tables by entries, the other
frames by bytes, but for the frames in `X`, that are not filled yet. `pde` is in `cr3`. -/
structure Rep (D : Finset ℕ) (X : Set ℕ) (pde : ℕ) (k : Phys) (m : Memory) : Prop where
  cr3 : k.cr3 = pde
  live : pde ∈ D
  start : k.startPage = m.startPage
  total : k.totalPages = m.totalPages
  free : k.freePages = m.freePages
  count : k.memoryMap = m.memoryMap
  kmap : k.kernelMap = m.kernelMap
  dir : ∀ d ∈ D, ∀ i < 1024, ofWord (k.word d i) = m.dirs d i
  table : ∀ f, IsTable D m f → ∀ t < 1024, ofWord (k.word f t) = m.tables f t
  data : ∀ f, f ∉ D → f ∉ X → ¬ IsTable D m f → ∀ o < 4096, k.byte f o = m.bytes f o
  shape : Shape D m

theorem Shape.table_cases (h : Shape D m) {f : ℕ} (hf : IsTable D m f) :
    1 ≤ m.memoryMap f ∧ (2 ≤ f ∧ f < 6 ∨ KERNEL_PAGES ≤ f) := by
  obtain ⟨d, hd, i, hi, hp, rfl⟩ := hf
  by_cases hk : i < KERNEL_DIRS
  · have := (h.kernel d hd i hk).2
    simp only [KERNEL_DIRS] at hk
    refine ⟨h.used _ ?_, .inl (by omega)⟩
    simp only [KERNEL_PAGES]
    omega
  · obtain ⟨h1, h2⟩ := h.user d hd i (by omega) hi hp
    exact ⟨h2, .inr h1⟩

/-- A directory is no page table. -/
theorem Shape.dir_ne (h : Shape D m) {d f : ℕ} (hd : d ∈ D) (hf : IsTable D m f) : d ≠ f := by
  rintro rfl
  have h1 := h.low d hd
  have h2 := (h.table_cases hf).2
  simp only [KERNEL_PAGE_DIR] at h1
  omega

theorem Rep.present (h : Rep D X pde k m) {i : ℕ} (hi : i < 1023) (hp : (m.dirs pde i).present) :
    IsTable D m (m.dirs pde i).index := ⟨pde, h.live, i, hi, hp, rfl⟩

/-- A directory that is its own last table shows table `i` in the window. -/
theorem walk_window {i t : ℕ} (hself : (ofWord (k.word k.cr3 1023)).present ∧ (ofWord (k.word k.cr3 1023)).index = k.cr3)
    (hi : i < 1024) (ht : t < 1024) : k.walk (element (tableAddr i) t) =
      if (ofWord (k.word k.cr3 i)).present then some (ofWord (k.word k.cr3 i)).index else none := by
  obtain ⟨h1, h2, -⟩ := element_tableAddr hi ht
  unfold walk
  rw [h1, h2]
  dsimp only
  rw [hself.2, hself.1]
  simp

theorem Rep.walk_window (h : Rep D X pde k m) {i t : ℕ} (hi : i < 1024) (ht : t < 1024) :
    k.walk (element (tableAddr i) t) = if (m.dirs pde i).present then some (m.dirs pde i).index else none := by
  have hself := h.shape.self pde h.live
  rw [← h.dir pde h.live 1023 (by decide), ← h.cr3] at hself
  rw [Phys.walk_window hself hi ht, h.cr3, h.dir pde h.live i hi]

/-- The walk of any other address. -/
theorem Rep.walk (h : Rep D X pde k m) {addr : UInt32} (hi : didx addr < 1023) :
    k.walk addr = if (m.dirs pde (didx addr)).present && (m.tables (m.dirs pde (didx addr)).index (tidx addr)).present
      then some (m.tables (m.dirs pde (didx addr)).index (tidx addr)).index else none := by
  unfold Phys.walk
  rw [h.cr3, h.dir pde h.live _ (by omega)]
  dsimp only
  cases hp : (m.dirs pde (didx addr)).present with
  | false => simp
  | true => rw [h.table _ (h.present hi hp) _ (tidx_lt addr)]

theorem Rep.access_window (h : Rep D X pde k m) {i t : ℕ} (hi : i < 1024) (ht : t < 1024)
    (hp : (m.dirs pde i).present) : k.access (element (tableAddr i) t) = .ok (m.dirs pde i).index := by
  unfold access
  rw [h.walk_window hi ht, if_pos hp]
  rfl

theorem Rep.load_window (h : Rep D X pde k m) {i t : ℕ} (hi : i < 1024) (ht : t < 1024) (hp : (m.dirs pde i).present) :
    k.load (element (tableAddr i) t) = .ok (k.word (m.dirs pde i).index t) := by
  unfold load
  rw [h.access_window hi ht hp, ok_bind, (element_tableAddr hi ht).2.2]

theorem Rep.store_window (h : Rep D X pde k m) {i t : ℕ} (hi : i < 1024) (ht : t < 1024) (hp : (m.dirs pde i).present)
    (w : UInt32) : k.store (element (tableAddr i) t) w = .ok (k.setWord (m.dirs pde i).index t w) := by
  unfold store
  rw [h.access_window hi ht hp, ok_bind, (element_tableAddr hi ht).2.2]

/-- The entries of the directory of the running task. -/
theorem Rep.load_pde (h : Rep D X pde k m) {i : ℕ} (hi : i < 1024) : k.load (element getPde i) = .ok (k.word pde i) := by
  obtain ⟨hp, hx⟩ := h.shape.self pde h.live
  rw [getPde_eq, h.load_window (by decide) hi hp, hx]

theorem Rep.store_pde (h : Rep D X pde k m) {i : ℕ} (hi : i < 1024) (w : UInt32) :
    k.store (element getPde i) w = .ok (k.setWord pde i w) := by
  obtain ⟨hp, hx⟩ := h.shape.self pde h.live
  rw [getPde_eq, h.store_window (by decide) hi hp, hx]

/-! ### Writes -/

/-- A word of a page table; of the kernel's tables only the first entry is written. -/
theorem Rep.setEntry (h : Rep D X pde k m) {f t : ℕ} (w : UInt32) (hf : IsTable D m f)
    (hlow : f < KERNEL_PAGES → f = 2 ∧ t = 0) : Rep D X pde (k.setWord f t w) (m.setEntry f t (ofWord w)) where
  cr3 := h.cr3
  live := h.live
  start := h.start
  total := h.total
  free := h.free
  count := h.count
  kmap := h.kmap
  dir d hd i hi := by
    rw [word_setWord, if_neg fun he => h.shape.dir_ne hd hf he.1]
    exact h.dir d hd i hi
  table g hg u hu := by
    rw [word_setWord]
    simp only [Memory.setEntry, Function.update_apply]
    by_cases hgf : g = f
    · subst hgf
      by_cases hut : u = t
      · simp [hut]
      · simpa [hut] using h.table g hg u hu
    · simpa [hgf] using h.table g hg u hu
  data g hg hX hng o ho := by
    have hgf : g ≠ f := fun he => hng (he ▸ hf)
    rw [byte_setWord hgf]
    exact h.data g hg hX hng o ho
  shape :=
    { h.shape with
      identity := fun n hn hpos => by
        have hne : ¬ (n / 1024 + 2 = f ∧ n % 1024 = t) := by
          rintro ⟨hnf, hnt⟩
          simp only [KERNEL_PAGES] at hlow hn
          have := hlow (by omega)
          omega
        simp only [Memory.setEntry, Function.update_apply]
        by_cases hnf : n / 1024 + 2 = f
        · rw [if_pos hnf, Function.update_of_ne fun hnt => hne ⟨hnf, hnt⟩, ← hnf]
          exact h.shape.identity n hn hpos
        · rw [if_neg hnf]
          exact h.shape.identity n hn hpos }

/-- A frame that is nothing yet is written as a whole. -/
theorem Rep.setFrame (h : Rep D ∅ pde k m) {q : ℕ} (hq : q ∉ D) (hnq : ¬ IsTable D m q) (hk : 6 ≤ q)
    (b : ByteMem) (entries : ℕ → PageEntry) (bytes : ℕ → UInt8) :
    Rep D {q} pde (k.setFrame q b) { m with
      tables := Function.update m.tables q entries
      bytes := Function.update m.bytes q bytes } where
  cr3 := h.cr3
  live := h.live
  start := h.start
  total := h.total
  free := h.free
  count := h.count
  kmap := h.kmap
  dir d hd i hi := by
    have hdq : d ≠ q := fun he => hq (he ▸ hd)
    rw [word_setFrame_ne hdq]
    exact h.dir d hd i hi
  table g hg u hu := by
    have hgq : g ≠ q := fun he => hnq (he ▸ hg)
    rw [word_setFrame_ne hgq]
    dsimp only
    rw [Function.update_of_ne hgq]
    exact h.table g hg u hu
  data g hg hX hng o ho := by
    have hgq : g ≠ q := fun he => hX (he ▸ rfl)
    rw [byte_setFrame hgq]
    dsimp only
    rw [Function.update_of_ne hgq]
    exact h.data g hg (fun hmem => hmem) hng o ho
  shape :=
    { h.shape with
      identity := fun n hn hpos => by
        have hne : n / 1024 + 2 ≠ q := by
          simp only [KERNEL_PAGES] at hn
          omega
        dsimp only
        rw [Function.update_of_ne hne]
        exact h.shape.identity n hn hpos }

/-- A frame that was filled as a page. -/
theorem Rep.filled {q : ℕ} (h : Rep D {q} pde k m) (hb : ∀ o < 4096, k.byte q o = m.bytes q o) : Rep D ∅ pde k m :=
  { h with
    data := fun g hg _ hng o ho => by
      by_cases hgq : g = q
      · rw [hgq]
        exact hb o ho
      · exact h.data g hg hgq hng o ho }

/-- A directory gets a table that was filled. -/
theorem Rep.setDentry (h : Rep D X pde k m) {d i : ℕ} {w : UInt32} (hd : d ∈ D) (hi : KERNEL_DIRS ≤ i) (hi' : i < 1023)
    (hp : (ofWord w).present) (hlow : KERNEL_PAGES ≤ (ofWord w).index) (hcount : 1 ≤ m.memoryMap (ofWord w).index)
    (htable : ∀ t < 1024, ofWord (k.word (ofWord w).index t) = m.tables (ofWord w).index t)
    (hX : ∀ q ∈ X, q = (ofWord w).index) (hold : ∀ f, IsTable D m f → IsTable D (m.setDentry d i (ofWord w)) f) :
    Rep D ∅ pde (k.setWord d i w) (m.setDentry d i (ofWord w)) := by
  have hdirs : ∀ c j, (m.setDentry d i (ofWord w)).dirs c j = if c = d ∧ j = i then ofWord w else m.dirs c j := by
    intro c j
    exact dirs_setDentry m d i c j _
  have hnew : IsTable D (m.setDentry d i (ofWord w)) (ofWord w).index :=
    ⟨d, hd, i, hi', by rw [hdirs, if_pos ⟨rfl, rfl⟩]; exact hp, by rw [hdirs, if_pos ⟨rfl, rfl⟩]⟩
  have hdlow := h.shape.low d hd
  have hother : ∀ c j, j ≠ i → (m.setDentry d i (ofWord w)).dirs c j = m.dirs c j := by
    intro c j hj
    rw [hdirs, if_neg fun he => hj he.2]
  have hcases : ∀ f, IsTable D (m.setDentry d i (ofWord w)) f → IsTable D m f ∨ f = (ofWord w).index := by
    rintro f ⟨c, hc, j, hj, hpj, hfj⟩
    rw [hdirs] at hpj hfj
    split_ifs at hpj hfj with he
    · exact .inr hfj.symm
    · exact .inl ⟨c, hc, j, hj, hpj, hfj⟩
  refine ⟨h.cr3, h.live, h.start, h.total, h.free, h.count, h.kmap, ?_, ?_, ?_, h.shape.low, ?_, ?_, ?_,
    h.shape.identity, h.shape.used, h.shape.total, h.shape.room⟩
  · intro c hc j hj
    rw [word_setWord, hdirs]
    split_ifs with he
    · rfl
    · exact h.dir c hc j hj
  · intro f hf t ht
    have hfd : f ≠ d := by
      rcases hcases f hf with hf' | rfl
      · exact (h.shape.dir_ne hd hf').symm
      · omega
    rw [word_setWord, if_neg fun he => hfd he.1]
    rcases hcases f hf with hf' | rfl
    · exact h.table f hf' t ht
    · exact htable t ht
  · intro f hf _ hnf o ho
    have hfd : f ≠ d := fun he => hf (he ▸ hd)
    rw [byte_setWord hfd]
    exact h.data f hf (fun hx => hnf (hX f hx ▸ hnew)) (fun hf' => hnf (hold f hf')) o ho
  · intro c hc
    rw [hother c 1023 (by omega)]
    exact h.shape.self c hc
  · intro c hc j hj
    rw [hother c j (by omega)]
    exact h.shape.kernel c hc j hj
  · intro c hc j hj hj'
    rw [hdirs]
    split_ifs with he
    · exact fun _ => ⟨hlow, hcount⟩
    · exact h.shape.user c hc j hj hj'

/-- Other counts, that still count the tables and the frames of the kernel. -/
theorem Rep.counted (h : Rep D X pde k m) {c : ℕ → ℕ} (n : ℕ) (hused : ∀ p < KERNEL_PAGES, 1 ≤ c p)
    (htable : ∀ f, IsTable D m f → KERNEL_PAGES ≤ f → 1 ≤ c f) :
    Rep D X pde { k with memoryMap := c, freePages := n } { m with memoryMap := c, freePages := n } where
  cr3 := h.cr3
  live := h.live
  start := h.start
  total := h.total
  free := rfl
  count := rfl
  kmap := h.kmap
  dir := h.dir
  table := h.table
  data := h.data
  shape :=
    { h.shape with
      user := fun d hd i hi hi' hp =>
        have hlow := (h.shape.user d hd i hi hi' hp).1
        ⟨hlow, htable _ ⟨d, hd, i, hi', hp, rfl⟩ hlow⟩
      used := hused }

/-- Another count for a frame that is not used up, or that is neither the kernel's nor a table. -/
theorem Rep.setCount (h : Rep D X pde k m) {f c : ℕ} (hc : 1 ≤ c ∨ KERNEL_PAGES ≤ f ∧ ¬ IsTable D m f) :
    Rep D X pde (k.setCount f c) (m.setCount f c) := by
  have hpos : ∀ p, 1 ≤ m.memoryMap p → p < KERNEL_PAGES ∨ IsTable D m p → 1 ≤ Function.update m.memoryMap f c p := by
    intro p hp hkind
    rw [Function.update_apply]
    split_ifs with he
    · rcases hc with hc | ⟨hlow, hnt⟩
      · exact hc
      · subst he
        rcases hkind with hlt | ht
        · omega
        · exact absurd ht hnt
    · exact hp
  have hrep := h.counted m.freePages (fun p hp => hpos p (h.shape.used p hp) (.inl hp))
    (fun p hp _ => hpos p (h.shape.table_cases hp).1 (.inr hp))
  unfold Phys.setCount Memory.setCount
  rw [h.count]
  rw [← h.free] at hrep
  exact h.free ▸ hrep

/-! ### memory.c follows the model -/

/-- A frame that was just taken. -/
structure Fresh (D : Finset ℕ) (m : Memory) (q : ℕ) : Prop where
  notDir : q ∉ D
  notTable : ¬ IsTable D m q
  low : KERNEL_PAGES ≤ q
  high : q < 2 ^ 20
  count : m.memoryMap q = 1

theorem Fresh.six_le {q : ℕ} (h : Fresh D m q) : 6 ≤ q := le_trans (by decide) h.low

theorem assert_follows {exp : String} {b b' : Bool} (h : b = b') :
    Follows PageTrap.halt (fun _ _ => b' = true) (raise (assert exp b)) (assert exp b') := by
  subst h
  unfold assert raise
  cases b with
  | false => rfl
  | true => exact rfl

theorem getPage_follows (h : Rep D X pde k m) : Follows PageTrap.halt
    (fun a b => a.1 = b.1 ∧ Rep D X pde a.2 b.2 ∧ Fresh D b.2 b.1 ∧ b.2 = m.taken b.1 ∧ m.memoryMap b.1 = 0)
    k.getPage m.getPage := by
  unfold Phys.getPage Memory.getPage
  rw [h.start, h.total, h.count]
  cases hf : (List.range' m.startPage (m.totalPages - m.startPage)).find? fun i => m.memoryMap i = 0 with
  | none => exact rfl
  | some q =>
    have h0 : m.memoryMap q = 0 := by simpa using List.find?_some hf
    have hmem := List.mem_of_find?_eq_some hf
    rw [List.mem_range'_1] at hmem
    have htotal := h.shape.total
    have hlow : KERNEL_PAGES ≤ q := by
      by_contra hlt
      have := h.shape.used q (by omega)
      omega
    have hnt : ¬ IsTable D m q := fun ht => by
      have := (h.shape.table_cases ht).1
      omega
    have hpos : ∀ p, 1 ≤ m.memoryMap p → 1 ≤ Function.update m.memoryMap q 1 p := by
      intro p hp
      rw [Function.update_apply]
      split_ifs <;> omega
    have hrep := h.counted (c := Function.update m.memoryMap q 1) (m.freePages - 1)
      (fun p hp => hpos p (h.shape.used p hp)) (fun f hf _ => hpos f (h.shape.table_cases hf).1)
    refine ⟨rfl, ?_, ⟨fun hd => ?_, hnt, hlow, by omega, ?_⟩, rfl, h0⟩
    · unfold Phys.setCount
      rw [h.free, h.count]
      exact hrep
    · have := h.shape.low q hd
      omega
    · exact Function.update_self ..

theorem putPage_follows (h : Rep D X pde k m) {p : ℕ} (hp : KERNEL_PAGES ≤ p) (hnt : ¬ IsTable D m p) :
    Follows PageTrap.halt (Rep D X pde) (k.putPage p) (m.putPage p) := by
  unfold Phys.putPage Memory.putPage
  refine (assert_follows (by rw [h.start, h.total])).bind fun _ _ _ _ => ?_
  refine (assert_follows (by rw [h.count])).bind fun _ _ _ _ => ?_
  have hkeep : ∀ f, f ≠ p → Function.update m.memoryMap p (m.memoryMap p - 1) f = m.memoryMap f :=
    fun f hf => Function.update_of_ne hf _ _
  have hrep := fun n => h.counted (c := Function.update m.memoryMap p (m.memoryMap p - 1)) n
    (fun q hq => by rw [hkeep q (by omega)]; exact h.shape.used q hq)
    (fun f hf _ => by rw [hkeep f fun he => hnt (he ▸ hf)]; exact (h.shape.table_cases hf).1)
  by_cases h1 : m.memoryMap p - 1 = 0
  · simp only [Phys.setCount, Memory.setCount, h.count, h.free, Function.update_self, if_pos h1]
    refine (assert_follows (by rw [h.total])).bind fun _ _ _ _ => ?_
    exact hrep (m.freePages + 1)
  · simp only [Phys.setCount, Memory.setCount, h.count, Function.update_self, if_neg h1]
    refine (assert_follows (by rw [h.free, h.total])).bind fun _ _ _ _ => ?_
    have hsame := hrep m.freePages
    rw [← h.free] at hsame
    exact h.free ▸ hsame

/-- An entry of a task maps a page that is no page table. -/
theorem Shape.mapped (h : Shape D m) {extra : ℕ → ℕ} (ha : Acct m (slots D) extra) {i t : ℕ} (hd : pde ∈ D)
    (hi : KERNEL_DIRS ≤ i) (hi' : i < 1023) (ht : t < 1024) (hp : (m.dirs pde i).present)
    (he : (m.tables (m.dirs pde i).index t).present) :
    KERNEL_PAGES ≤ (m.tables (m.dirs pde i).index t).index ∧ ¬ IsTable D m (m.tables (m.dirs pde i).index t).index := by
  have hx : (pde, i) ∈ slots D := mem_slots.mpr ⟨hd, hi, hi'⟩
  have hentry : m.entryAt (pde, i) t = m.tables (m.dirs pde i).index t := entryAt_of_present (x := (pde, i)) hp t
  have hpe : (m.entryAt (pde, i) t).present := hentry ▸ he
  have hlow := (ha.mapped (pde, i) hx t ht hpe).1
  rw [hentry] at hlow
  refine ⟨hlow, ?_⟩
  rintro ⟨d, hdD, j, hj, hpj, hij⟩
  by_cases hk : j < KERNEL_DIRS
  · have := (h.kernel d hdD j hk).2
    simp only [KERNEL_PAGES, KERNEL_DIRS] at hlow hk
    omega
  · refine ha.mapped_ne hx (mem_slots.mpr ⟨hdD, Nat.le_of_not_lt hk, hj⟩ : (d, j) ∈ slots D) ht hpe hpj ?_
    rw [hentry]
    exact hij.symm

theorem load32_zero (a : ℕ) : ByteMem.load32 (fun _ => 0) a = 0 := by simp [ByteMem.load32]

theorem Rep.getPte_present (h : Rep D X pde k m) {vaddr : UInt32} {create : Bool} (hi : didx vaddr < 1023)
    (hp : (m.dirs pde (didx vaddr)).present) : k.getPte vaddr create = .ok (tableAddr (didx vaddr), k) := by
  unfold Phys.getPte
  dsimp only
  rw [h.load_pde (by omega), ok_bind, h.dir pde h.live _ (by omega), hp]
  simp [raise, assert, Except.mapError]

/-- The frame of a new table is cleared through the window. -/
theorem Rep.memset_new (h : Rep D X pde k m) {i q : ℕ} (hi : i < 1023) (hq : q < 2 ^ 20) :
    (k.setWord pde i (entryInit q)).memset (tableAddr i) = .ok ((k.setWord pde i (entryInit q)).setFrame q fun _ => 0) := by
  have hself := h.shape.self pde h.live
  have hword : (k.setWord pde i (entryInit q)).word pde 1023 = k.word pde 1023 := by
    rw [word_setWord, if_neg (by omega)]
  have hnew : (k.setWord pde i (entryInit q)).word pde i = entryInit q := by rw [word_setWord, if_pos ⟨rfl, rfl⟩]
  have hcr3 : (k.setWord pde i (entryInit q)).cr3 = pde := h.cr3
  have hwalk := Phys.walk_window (k := k.setWord pde i (entryInit q)) (i := i) (t := 0)
    (by rw [hcr3, hword, h.dir pde h.live 1023 (by decide)]; exact hself) (by omega) (by decide)
  have hpresent : (Onix.entryInit q).present = true := rfl
  rw [tableAddr_element, hcr3, hnew, ofWord_entryInit hq, if_pos hpresent] at hwalk
  unfold memset access
  rw [hwalk]
  rfl

theorem isTable_setDentry {d i f : ℕ} {e : PageEntry} (hp : (m.dirs d i).present = false) (hf : IsTable D m f) :
    IsTable D (m.setDentry d i e) f := by
  obtain ⟨c, hc, j, hj, hpj, hfj⟩ := hf
  have hne : ¬ (c = d ∧ j = i) := by
    rintro ⟨rfl, rfl⟩
    rw [hp] at hpj
    cases hpj
  refine ⟨c, hc, j, hj, ?_, ?_⟩
  all_goals rwa [dirs_setDentry, if_neg hne]

theorem getPte_follows (h : Rep D ∅ pde k m) {vaddr : UInt32} {create : Bool} (hi : didx vaddr < 1023)
    (hv : (m.dirs pde (didx vaddr)).present = false → KERNEL_DIRS ≤ didx vaddr) : Follows PageTrap.halt
      (fun a b => a.1 = tableAddr (didx vaddr) ∧ (b.2.dirs pde (didx vaddr)).present ∧
        b.1 = (b.2.dirs pde (didx vaddr)).index ∧ Rep D ∅ pde a.2 b.2)
      (k.getPte vaddr create) (m.getPte pde vaddr create) := by
  cases hp : (m.dirs pde (didx vaddr)).present with
  | true =>
    rw [h.getPte_present hi hp, getPte_eq hp]
    exact ⟨rfl, hp, rfl, h⟩
  | false =>
    unfold Phys.getPte Memory.getPte
    dsimp only
    rw [h.load_pde (by omega), ok_bind, h.dir pde h.live _ (by omega), hp]
    refine (assert_follows rfl).bind fun _ _ _ _ => ?_
    simp only [Bool.not_false, if_true]
    refine (getPage_follows h).bind ?_
    rintro ⟨page, k₁⟩ ⟨page', m₁⟩ - ⟨he, h₁, hfresh, hm₁, -⟩
    dsimp only at he h₁ hfresh hm₁ ⊢
    subst he
    have hdirs : m₁.dirs = m.dirs := by rw [hm₁]; rfl
    have hne : pde ≠ page := fun he => hfresh.notDir (he ▸ h₁.live)
    rw [h₁.store_pde (by omega), ok_bind, h₁.memset_new hi hfresh.high, ok_bind, setWord_setFrame hne]
    have h₂ := h₁.setFrame hfresh.notDir hfresh.notTable hfresh.six_le (fun _ => 0) (fun _ => .zero) (m₁.bytes page)
    rw [Function.update_eq_self] at h₂
    have hw := ofWord_entryInit hfresh.high
    have h₃ := h₂.setDentry (w := entryInit page) h₁.live (hv hp) hi (by rw [hw]; rfl) (by rw [hw]; exact hfresh.low)
      (by rw [hw]; exact le_of_eq hfresh.count.symm)
      (fun t ht => by
        rw [hw]
        change ofWord ((k₁.setFrame page fun _ => 0).word page t) = Function.update m₁.tables page _ page t
        rw [word_setFrame ht, load32_zero, Function.update_self, ofWord_zero])
      (fun q hq => by rw [hw]; exact hq)
      (fun f hf => isTable_setDentry (by rw [← hp, ← hdirs]) hf)
    rw [hw] at h₃
    refine ⟨rfl, ?_, ?_, h₃⟩
    · change ((m₁.setDentry pde (didx vaddr) (Onix.entryInit page)).dirs pde (didx vaddr)).present
      rw [dirs_setDentry, if_pos ⟨rfl, rfl⟩]
      rfl
    · change page = ((m₁.setDentry pde (didx vaddr) (Onix.entryInit page)).dirs pde (didx vaddr)).index
      rw [dirs_setDentry, if_pos ⟨rfl, rfl⟩]
      rfl

/-- An entry of the running task and the word it is kept in. -/
theorem Rep.entry (h : Rep D X pde k m) {vaddr : UInt32} (hi : didx vaddr < 1023)
    (hp : (m.dirs pde (didx vaddr)).present) :
    k.load (element (tableAddr (didx vaddr)) (tidx vaddr)) = .ok (k.word (m.dirs pde (didx vaddr)).index (tidx vaddr)) ∧
    ofWord (k.word (m.dirs pde (didx vaddr)).index (tidx vaddr)) = m.tables (m.dirs pde (didx vaddr)).index (tidx vaddr) ∧
    ∀ w, k.store (element (tableAddr (didx vaddr)) (tidx vaddr)) w =
      .ok (k.setWord (m.dirs pde (didx vaddr)).index (tidx vaddr) w) :=
  ⟨h.load_window (by omega) (tidx_lt vaddr) hp, h.table _ (h.present hi hp) _ (tidx_lt vaddr),
    h.store_window (by omega) (tidx_lt vaddr) hp⟩

theorem Shape.user_table (h : Shape D m) {i f : ℕ} (hd : pde ∈ D) (hi : KERNEL_DIRS ≤ i) (hi' : i < 1023)
    (hp : (m.dirs pde i).present) (hf : f = (m.dirs pde i).index) {t : ℕ} : f < KERNEL_PAGES → f = 2 ∧ t = 0 := by
  intro hlt
  have := (h.user pde hd i hi hi' hp).1
  omega

theorem linkPage_follows (h : Rep D ∅ pde k m) {vaddr : UInt32} (hv : UserAddr vaddr) :
    Follows PageTrap.halt (Rep D ∅ pde) (k.linkPage vaddr) (m.linkPage pde vaddr) := by
  unfold Phys.linkPage Memory.linkPage
  refine (assert_follows rfl).bind fun _ _ _ _ => ?_
  refine (getPte_follows h hv.2 fun _ => hv.1).bind ?_
  rintro ⟨pte, k₁⟩ ⟨pte', m₁⟩ - ⟨he, hp, hpte, h₁⟩
  dsimp only at he hp hpte h₁ ⊢
  subst he hpte
  obtain ⟨hload, hword, -⟩ := h₁.entry hv.2 hp
  rw [hload, ok_bind, hword]
  split_ifs with hpe
  · exact h₁
  refine (getPage_follows h₁).bind ?_
  rintro ⟨paddr, k₂⟩ ⟨paddr', m₂⟩ - ⟨he, h₂, hfresh, hm₂, -⟩
  dsimp only at he h₂ hfresh hm₂ ⊢
  subst he
  have hdirs : m₂.dirs = m₁.dirs := by rw [hm₂]; rfl
  rw [← hdirs] at hp ⊢
  obtain ⟨-, -, hstore⟩ := h₂.entry hv.2 hp
  rw [hstore]
  have h₃ := h₂.setEntry (t := tidx vaddr) (entryInit paddr) (h₂.present hv.2 hp)
    (h₂.shape.user_table h₂.live hv.1 hv.2 hp rfl)
  rw [ofWord_entryInit hfresh.high] at h₃
  exact h₃

theorem unlinkPage_follows (h : Rep D ∅ pde k m) {extra : ℕ → ℕ} (ha : Acct m (slots D) extra) {vaddr : UInt32}
    (hv : UserAddr vaddr) : Follows PageTrap.halt (Rep D ∅ pde) (k.unlinkPage vaddr) (m.unlinkPage pde vaddr) := by
  have hlt := hv.2
  unfold Phys.unlinkPage Memory.unlinkPage
  refine (assert_follows rfl).bind fun _ _ _ _ => ?_
  rw [h.load_pde (by omega), ok_bind, h.dir pde h.live _ (by omega)]
  cases hp : (m.dirs pde (didx vaddr)).present with
  | false => exact h
  | true =>
    simp only [Bool.not_true, Bool.false_eq_true, if_false]
    rw [h.getPte_present hv.2 hp, ok_bind, getPte_eq hp, ok_bind]
    dsimp only [dentry]
    obtain ⟨hload, hword, hstore⟩ := h.entry hv.2 hp
    rw [hload, ok_bind, hword]
    by_cases hpe : (m.tables (m.dirs pde (didx vaddr)).index (tidx vaddr)).present
    · simp only [hpe, Bool.not_true, Bool.false_eq_true, if_false]
      rw [hstore, ok_bind]
      obtain ⟨hlow, hnt⟩ := h.shape.mapped ha h.live hv.1 hv.2 (tidx_lt vaddr) hp hpe
      have h₁ := h.setEntry (t := tidx vaddr) (clearPresent (k.word (m.dirs pde (didx vaddr)).index (tidx vaddr)))
        (h.present hv.2 hp) (h.shape.user_table h.live hv.1 hv.2 hp rfl)
      rw [ofWord_clearPresent, hword] at h₁
      exact putPage_follows h₁ hlow hnt
    · simp only [Bool.not_eq_true] at hpe
      simp only [hpe, Bool.not_false, if_true]
      exact h

/-! ### copy_page and page_fault -/

theorem walk_zero (h : Rep D X pde k m) {q : ℕ} (hq : m.tables (m.dirs pde 0).index 0 = Onix.entryInit q) :
    k.walk 0 = some q := by
  have h0 : didx 0 = 0 ∧ tidx 0 = 0 := by decide
  rw [h.walk (by rw [h0.1]; decide), h0.1, h0.2, (h.shape.kernel pde h.live 0 (by decide)).1, hq]
  rfl

/-- What `copy_page` leaves in the new frame, which is not in use yet. -/
structure CopiedFrame (D : Finset ℕ) (pde f : ℕ) (m : Memory) (q : ℕ) (k' : Phys) (m' : Memory) : Prop where
  rep : Rep D {q} pde k' m'
  fresh : Fresh D m' q
  dirs : m'.dirs = m.dirs
  count : m'.memoryMap = Function.update m.memoryMap q 1
  tables : ∀ g, KERNEL_PAGES ≤ g → g ≠ q → m'.tables g = m.tables g
  entries : IsTable D m f → ∀ t < 1024, ofWord (k'.word q t) = m'.tables q t
  bytes : f ∉ D → ¬ IsTable D m f → ∀ o < 4096, k'.byte q o = m'.bytes q o

/-- The entry at 0 is written twice, and the copy of another table between. -/
theorem update_around {T : ℕ → ℕ → PageEntry} {f q g : ℕ} (hq : q ≠ g) (hf : f ≠ g) (a b : PageEntry) :
    Function.update (Function.update T g (Function.update (T g) 0 b)) q
        (Function.update T g (Function.update (T g) 0 b) f) =
      Function.update (Function.update (Function.update T g (Function.update (T g) 0 a)) q (T f)) g
        (Function.update (Function.update (Function.update T g (Function.update (T g) 0 a)) q (T f) g) 0 b) := by
  rw [Function.update_of_ne hf, Function.update_of_ne hq.symm, Function.update_self, Function.update_idem]
  funext x
  by_cases hx : x = g
  · rw [hx, Function.update_of_ne hq.symm, Function.update_self, Function.update_self]
  · rw [Function.update_of_ne hx]
    by_cases hxq : x = q
    · rw [hxq, Function.update_self, Function.update_self]
    · rw [Function.update_of_ne hxq, Function.update_of_ne hxq, Function.update_of_ne hx, Function.update_of_ne hx]

theorem copyPage_follows (h : Rep D ∅ pde k m) {a : UInt32} {f : ℕ} (hf : KERNEL_PAGES ≤ f) (hfq : 1 ≤ m.memoryMap f)
    (hsrc : ∀ k' m', Rep D ∅ pde k' m' → m'.dirs = m.dirs → (∀ g, KERNEL_PAGES ≤ g → m'.tables g = m.tables g) →
      k'.walk a = some f) :
    Follows PageTrap.halt (fun x y => x.1 = y.1 ∧ CopiedFrame D pde f m y.1 x.2 y.2) (k.copyPage a) (m.copyPage pde f) := by
  unfold Phys.copyPage Memory.copyPage
  refine (getPage_follows h).bind ?_
  rintro ⟨q, k₁⟩ ⟨q', m₁⟩ - ⟨he, h₁, hfresh, hm₁, hfree⟩
  dsimp only at he h₁ hfresh hm₁ hfree ⊢
  subst he
  have hdirs : m₁.dirs = m.dirs := by rw [hm₁]; rfl
  have htables : m₁.tables = m.tables := by rw [hm₁]; rfl
  have hbytes : m₁.bytes = m.bytes := by rw [hm₁]; rfl
  have hcount : m₁.memoryMap = Function.update m.memoryMap q 1 := by rw [hm₁]; rfl
  have h0 : didx 0 = 0 := by decide
  obtain ⟨hp, hidx⟩ := h₁.shape.kernel pde h.live 0 (by decide)
  have hp0 : (m₁.dirs pde (didx 0)).present := by rw [h0]; exact hp
  have htab := h₁.present (by decide) hp
  rw [h₁.getPte_present (by rw [h0]; decide) hp0, ok_bind, getPte_eq hp0, ok_bind, h0]
  dsimp only [dentry]
  rw [← tableAddr_element 0]
  have hf0 : f ≠ (m₁.dirs pde 0).index := by
    simp only [KERNEL_PAGES] at hf
    omega
  have hq0 : q ≠ (m₁.dirs pde 0).index := fun he => hfresh.notTable (he ▸ htab)
  have hfne : f ≠ q := by
    rintro rfl
    omega
  -- the new frame lies at address 0
  rw [h₁.store_window (by decide) (by decide) hp, ok_bind]
  have h₂ := h₁.setEntry (t := 0) (entryInit q) htab fun _ => ⟨hidx, rfl⟩
  rw [ofWord_entryInit hfresh.high] at h₂
  generalize hk₂ : k₁.setWord (m₁.dirs pde 0).index 0 (entryInit q) = k₂ at h₂ ⊢
  have hw0 : k₂.walk 0 = some q := walk_zero h₂ (by simp [Memory.setEntry])
  have hwp : k₂.walk a = some f := by
    refine hsrc k₂ _ h₂ hdirs fun g hg => ?_
    have hg0 : g ≠ (m₁.dirs pde 0).index := by
      simp only [KERNEL_PAGES] at hg
      omega
    simp only [Memory.setEntry, Function.update_of_ne hg0]
    rw [htables]
  have hcopy : k₂.memcpy 0 a = .ok (k₂.setFrame q (k₂.byte f)) := by
    unfold memcpy access
    rw [hw0, hwp]
    rfl
  rw [hcopy, ok_bind]
  have h₃ := h₂.setFrame hfresh.notDir hfresh.notTable hfresh.six_le (k₂.byte f) (m₁.tables f) (m₁.bytes f)
  generalize hk₃ : k₂.setFrame q (k₂.byte f) = k₃ at h₃ ⊢
  -- and leaves it again
  have hload : k₃.load (element (tableAddr 0) 0) = .ok (k₃.word (m₁.dirs pde 0).index 0) :=
    h₃.load_window (by decide) (by decide) hp
  have hstore : ∀ w, k₃.store (element (tableAddr 0) 0) w = .ok (k₃.setWord (m₁.dirs pde 0).index 0 w) :=
    h₃.store_window (by decide) (by decide) hp
  rw [hload, ok_bind, hstore, ok_bind]
  have hentry : ofWord (k₃.word (m₁.dirs pde 0).index 0) = Onix.entryInit q := by
    rw [h₃.table _ htab 0 (by decide)]
    simp only [Memory.setEntry, Function.update_of_ne hq0.symm, Function.update_self]
  have h₄ := h₃.setEntry (t := 0) (clearPresent (k₃.word (m₁.dirs pde 0).index 0)) htab fun _ => ⟨hidx, rfl⟩
  rw [ofWord_clearPresent, hentry] at h₄
  have hsame := update_around (T := m₁.tables) hq0 hf0 (Onix.entryInit q) { Onix.entryInit q with present := false }
  have hq₃ : ∀ t, (k₃.setWord (m₁.dirs pde 0).index 0 (clearPresent (k₃.word (m₁.dirs pde 0).index 0))).word q t =
      k₃.word q t := fun t => by rw [word_setWord, if_neg fun he => hq0 he.1]
  refine ⟨rfl, ?_, ⟨hfresh.notDir, hfresh.notTable, hfresh.low, hfresh.high, hfresh.count⟩, hdirs, hcount, ?_, ?_, ?_⟩
  · have hmem := congrArg (fun T => ({ m₁ with tables := T, bytes := Function.update m₁.bytes q (m₁.bytes f) } : Memory)) hsame
    exact Eq.mpr (congrArg (Rep D {q} pde _) hmem) h₄
  · intro g hg hgq
    have hg0 : g ≠ (m₁.dirs pde 0).index := by
      simp only [KERNEL_PAGES] at hg
      omega
    simp only [Memory.setEntry, Function.update_of_ne hg0, Function.update_of_ne hgq]
    rw [htables]
  · intro hft t ht
    have htable := h₂.table f (by unfold IsTable; rwa [show (m₁.setEntry _ _ _).dirs = m.dirs from hdirs]) t ht
    dsimp only
    rw [hq₃, ← hk₃, word_setFrame ht]
    simp only [Memory.setEntry, Function.update_self, Function.update_of_ne hf0] at htable ⊢
    exact htable
  · intro hfd hft o ho
    have hdata := h₂.data f hfd (fun hx => hx) (by unfold IsTable; rwa [show (m₁.setEntry _ _ _).dirs = m.dirs from hdirs]) o ho
    dsimp only
    rw [byte_setWord hq0, ← hk₃]
    simp only [setFrame, Memory.setEntry, Function.update_self, if_pos ho] at hdata ⊢
    exact hdata

theorem pageFault_follows (h : Rep D ∅ pde k m) {extra : ℕ → ℕ} (ha : Acct m (slots D) extra) {task : Space}
    (htask : task.pde = pde) {vaddr : UInt32} {code : FaultCode} (hc : code.present = true → UserAddr vaddr →
      (m.dirs pde (didx vaddr)).present) :
    Follows PageTrap.halt (Option.Rel (Rep D ∅ pde)) (k.pageFault task vaddr code)
      (m.pageFault task vaddr code) := by
  unfold Phys.pageFault Memory.pageFault
  by_cases hr : vaddr < USER_EXEC_ADDR ∨ vaddr ≥ USER_STACK_TOP
  · rw [if_pos hr, if_pos hr]
    refine (assert_follows rfl).bind fun _ _ _ _ => ?_
    exact Option.Rel.none
  rw [if_neg hr, if_neg hr]
  rw [not_or, UInt32.not_lt, UInt32.not_le] at hr
  have hv : UserAddr vaddr := .of_le hr.1 (UInt32.le_of_lt hr.2)
  cases hcode : code.present with
  | false =>
    simp only [Bool.false_eq_true, if_false]
    split_ifs with hin
    · have hv' : UserAddr (pageOf vaddr) := by
        unfold UserAddr
        rw [pageOf_slot.1]
        exact hv
      rw [htask]
      exact (linkPage_follows h hv').bind fun _ _ _ hrep => Option.Rel.some hrep
    · rfl
  | true =>
    have hp := hc hcode hv
    simp only [if_true]
    refine (assert_follows rfl).bind fun _ _ _ _ => ?_
    rw [htask, h.getPte_present hv.2 hp, ok_bind, getPte_eq hp, ok_bind]
    dsimp only [dentry]
    obtain ⟨hload, hword, hstore⟩ := h.entry hv.2 hp
    rw [hload, ok_bind, hword, h.count]
    refine (assert_follows rfl).bind fun _ _ _ hpe => ?_
    refine (assert_follows rfl).bind fun _ _ _ hcount => ?_
    refine (assert_follows rfl).bind fun _ _ _ _ => ?_
    refine (assert_follows rfl).bind fun _ _ _ _ => ?_
    have hlowt := h.shape.user_table (t := tidx vaddr) h.live hv.1 hv.2 hp rfl
    change Follows PageTrap.halt _ (ite (m.memoryMap (m.tables (m.dirs pde (didx vaddr)).index (tidx vaddr)).index = 1) _ _)
      (ite (m.memoryMap (m.tables (m.dirs pde (didx vaddr)).index (tidx vaddr)).index = 1) _ _)
    by_cases hone : m.memoryMap (m.tables (m.dirs pde (didx vaddr)).index (tidx vaddr)).index = 1
    · rw [if_pos hone, if_pos hone, hstore, ok_bind]
      have h₁ := h.setEntry (t := tidx vaddr) (setWrite (k.word (m.dirs pde (didx vaddr)).index (tidx vaddr)))
        (h.present hv.2 hp) hlowt
      rw [ofWord_setWrite, hword] at h₁
      exact Option.Rel.some h₁
    · rw [if_neg hone, if_neg hone]
      obtain ⟨hlow, hnt⟩ := h.shape.mapped ha h.live hv.1 hv.2 (tidx_lt vaddr) hp hpe
      have htlow := (h.shape.user pde h.live _ hv.1 hv.2 hp).1
      obtain ⟨f, hidx⟩ : ∃ f, (m.tables (m.dirs pde (didx vaddr)).index (tidx vaddr)).index = f := ⟨_, rfl⟩
      rw [hidx] at hlow hnt hcount ⊢
      have hnd : f ∉ D := fun hd => by
        have := (h.shape.low f hd).1
        omega
      have hcopy := copyPage_follows h (a := pageOf vaddr) hlow (of_decide_eq_true hcount) fun k' m' hrep hdirs htables => by
        rw [hrep.walk (by rw [pageOf_slot.1]; exact hv.2), pageOf_slot.1, pageOf_slot.2, hdirs, hp, htables _ htlow, hpe, hidx]
        rfl
      refine hcopy.bind ?_
      rintro ⟨q, k₁⟩ ⟨q', m₁⟩ - ⟨he, hc₁⟩
      dsimp only at he hc₁ ⊢
      subst he
      have h₁ := hc₁.rep.filled (hc₁.bytes hnd hnt)
      have hp₁ : (m₁.dirs pde (didx vaddr)).present := by rw [hc₁.dirs]; exact hp
      have hnt₁ : ¬ IsTable D m₁ f := by
        unfold IsTable at hnt ⊢
        rwa [hc₁.dirs]
      have h₂ : Rep D ∅ pde (k₁.setCount f (k₁.memoryMap f - 1)) (m₁.setCount f (m₁.memoryMap f - 1)) := by
        rw [h₁.count]
        exact h₁.setCount (.inr ⟨hlow, hnt₁⟩)
      obtain ⟨-, -, hstore₂⟩ := h₂.entry hv.2 hp₁
      rw [← hc₁.dirs]
      have h₃ := h₂.setEntry (t := tidx vaddr) (entryInit q) (h₂.present hv.2 hp₁)
        (h₂.shape.user_table h₂.live hv.1 hv.2 hp₁ rfl)
      rw [ofWord_entryInit hc₁.fresh.high] at h₃
      rw [hstore₂, ok_bind]
      exact Option.Rel.some h₃

end Phys
end Onix
