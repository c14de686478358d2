import Onix.Kernel.Memory
import Onix.Lib.Bytes
import Mathlib.Data.List.TakeWhile

/-! The loader of programs, on the linear memory of the running task. A page is mapped by `link_page` or by the fault
handler, which gives a page below the break and panics above it. The walk over the program headers
counts the headers, but moves on only after a header that it loads. -/

set_option autoImplicit false

namespace Onix

open Lib

/-- The bits of the entry of a mapped page that the loader sets. -/
structure UserPage where
  write : Bool
  readonly : Bool
  deriving DecidableEq

/-- What the running task has: its mapped pages, its memory, and fields of `task_t`. What `mem` says of a page that
is not mapped is what will be found in it when it is, the frames are not cleared. -/
structure ExecTask where
  pages : ℕ → Option UserPage
  mem : ByteMem
  brk : ℕ
  /-- `end` -/
  finish : ℕ
  text : ℕ
  data : ℕ

namespace ExecTask

def withMem (s : ExecTask) (m : ByteMem) : ExecTask := { s with mem := m }

/-- `link_page` of `count` pages from `first` on; a page that is mapped stays as it is. -/
def linkPages (s : ExecTask) (first count : ℕ) : ExecTask :=
  { s with pages := fun p =>
      if first ≤ p ∧ p < first + count ∧ s.pages p = none then some ⟨true, false⟩ else s.pages p }

/-- The loop of `load_segment` for a segment without `PF_W`. -/
def protectPages (s : ExecTask) (first count : ℕ) : ExecTask :=
  { s with pages := fun p =>
      if first ≤ p ∧ p < first + count then (s.pages p).map fun _ => ⟨false, true⟩ else s.pages p }

/-- A store of the kernel to the page; outside of the user's addresses the fault ends in `task_exit`. -/
def access (s : ExecTask) (page : ℕ) : Except Halt ExecTask :=
  if s.pages page ≠ none then .ok s
  else if page * 4096 < USER_EXEC_ADDR.toNat ∨ page * 4096 ≥ USER_STACK_TOP.toNat then
    .error (.panic "segmentation fault")
  else if page * 4096 < s.brk ∨ page * 4096 ≥ USER_STACK_BOTTOM.toNat then .ok (s.linkPages page 1)
  else .error (.panic "page fault")

/-- The pages that `len` bytes from `addr` on lie in. -/
def pagesOf (addr len : ℕ) : List ℕ :=
  List.range' (addr / 4096) (if len = 0 then 0 else (addr + len - 1) / 4096 + 1 - addr / 4096)

def store (s : ExecTask) (addr : ℕ) (bytes : List UInt8) : Except Halt ExecTask := do
  let s ← (pagesOf addr bytes.length).foldlM access s
  .ok (s.withMem (s.mem.put addr bytes))

end ExecTask

/-- `inode_read` of a file that has all its blocks; the result is `EOF` or the number of bytes. -/
def inodeReadTo (file : List UInt8) (s : ExecTask) (buf len offset : ℕ) : Except Halt (Option ℕ × ExecTask) :=
  if file.length ≤ offset then .ok (none, s)
  else do
    let bytes := (file.drop offset).take len
    let s ← s.store buf bytes
    .ok (some bytes.length, s)

/-! ### ELF -/

/-- What is read of an `Elf32_Phdr`. -/
structure Phdr where
  type : ℕ
  offset : ℕ
  vaddr : ℕ
  filesz : ℕ
  memsz : ℕ
  flags : UInt32
  align : ℕ
  deriving DecidableEq

def PT_LOAD : ℕ := 1
def PF_X : UInt32 := 1
def PF_W : UInt32 := 2
def PF_R : UInt32 := 4
def EHDR_SIZE : ℕ := 52
def PHDR_SIZE : ℕ := 32
/-- `EOF` as an entry point. -/
def EOF_ENTRY : UInt32 := 0xffffffff

/-- The `Elf32_Phdr` at an address. -/
def phdrAt (m : ByteMem) (ptr : ℕ) : Phdr where
  type := (m.load32 ptr).toNat
  offset := (m.load32 (ptr + 4)).toNat
  vaddr := (m.load32 (ptr + 8)).toNat
  filesz := (m.load32 (ptr + 16)).toNat
  memsz := (m.load32 (ptr + 20)).toNat
  flags := m.load32 (ptr + 24)
  align := (m.load32 (ptr + 28)).toNat

/-- The fields of the `Elf32_Ehdr` at an address. -/
def eEntry (m : ByteMem) (ehdr : ℕ) : UInt32 := m.load32 (ehdr + 24)
def ePhoff (m : ByteMem) (ehdr : ℕ) : ℕ := (m.load32 (ehdr + 28)).toNat
def ePhnum (m : ByteMem) (ehdr : ℕ) : ℕ := m.load16 (ehdr + 44)

/-- `elf_validate` -/
def elfValidate (m : ByteMem) (ehdr : ℕ) : Bool :=
  m.load16 (ehdr + 16) == 2 && m.load16 (ehdr + 18) == 3 && m.load32 (ehdr + 20) == 1 &&
    m.load16 (ehdr + 42) == PHDR_SIZE

namespace Phdr

def size (ph : Phdr) : ℕ := max ph.memsz ph.filesz

/-- `div_round_up(MAX(phdr->p_memsz, phdr->p_filesz), PAGE_SIZE)` -/
def count (ph : Phdr) : ℕ := (ph.size + 4095) % 2 ^ 32 / 4096

def first (ph : Phdr) : ℕ := ph.vaddr / 4096

/-- Where the last page of the segment ends. -/
def finish (ph : Phdr) : ℕ := ph.vaddr + ph.count * 4096

end Phdr

/-- `task->text` and `task->data` -/
def ExecTask.note (s : ExecTask) (ph : Phdr) : ExecTask :=
  if ph.flags = PF_R ||| PF_X then { s with text := ph.vaddr }
  else if ph.flags = PF_R ||| PF_W then { s with data := ph.vaddr }
  else s

/-- The `memset` of `load_segment`. -/
def ExecTask.clearTail (s : ExecTask) (ph : Phdr) : Except Halt ExecTask :=
  if ph.filesz < ph.memsz then s.store (ph.vaddr + ph.filesz) (List.replicate (ph.memsz - ph.filesz) 0) else .ok s

/-- `load_segment` -/
def ExecTask.loadSegment (file : List UInt8) (s : ExecTask) (ph : Phdr) : Except Halt ExecTask := do
  assert "phdr->p_align == 0x1000" (ph.align == 0x1000)
  assert "(phdr->p_vaddr & 0xfff) == 0" (ph.vaddr % 4096 == 0)
  assert "addr >= USER_EXEC_ADDR && addr < USER_MMAP_ADDR" (decide (∀ i < ph.count,
    USER_EXEC_ADDR.toNat ≤ ph.vaddr + i * 4096 ∧ ph.vaddr + i * 4096 < USER_MMAP_ADDR.toNat))
  let s := s.linkPages ph.first ph.count
  let (_, s) ← inodeReadTo file s ph.vaddr ph.filesz ph.offset
  let s ← s.clearTail ph
  let s := if ph.flags &&& PF_W = 0 then s.protectPages ph.first ph.count else s
  let s := s.note ph
  .ok { s with finish := max s.finish ph.finish }

/-- The loop of `load_elf`, `ptr` apart from the count of the headers; `fuel` bounds the rounds left. -/
def loadSegments (file : List UInt8) : ℕ → ℕ → ℕ → ExecTask → Except Halt ExecTask
  | 0, _, _, s => .ok s
  | fuel + 1, i, ptr, s =>
    if i < ePhnum s.mem USER_EXEC_ADDR.toNat then
      if (phdrAt s.mem ptr).type ≠ PT_LOAD then loadSegments file fuel (i + 1) ptr s
      else do
        let s ← ExecTask.loadSegment file s (phdrAt s.mem ptr)
        loadSegments file fuel (i + 1) (ptr + PHDR_SIZE) s
    else .ok s

/-- `load_elf`; `e_phnum` is a half word, which bounds the loop. -/
def loadElf (file : List UInt8) (s : ExecTask) : Except Halt (UInt32 × ExecTask) := do
  let ehdr := USER_EXEC_ADDR.toNat
  let s := s.linkPages (ehdr / 4096) 1
  let (n, s) ← inodeReadTo file s ehdr EHDR_SIZE 0
  assert "n == sizeof(Elf32_Ehdr)" (n == some EHDR_SIZE)
  if !elfValidate s.mem ehdr then .ok (EOF_ENTRY, s)
  else
    let phdr := ehdr + EHDR_SIZE
    let (_, s) ← inodeReadTo file s phdr (ePhnum s.mem ehdr * PHDR_SIZE) (ePhoff s.mem ehdr)
    let s ← loadSegments file 65536 0 phdr s
    .ok (eEntry s.mem ehdr, s)

/-! ### What is to be loaded -/

/-- The bytes of the file, where it has any. -/
def fileMem (file : List UInt8) : ByteMem := fun i => file.getD i 0

/-- The program headers in the file. -/
def phdrs (file : List UInt8) : List Phdr :=
  (List.range (ePhnum (fileMem file) 0)).map fun i => phdrAt (fileMem file) (ePhoff (fileMem file) 0 + PHDR_SIZE * i)

namespace Phdr

def loads (ph : Phdr) : Bool := ph.type == PT_LOAD

/-- The page is one of the segment. -/
def Has (ph : Phdr) (page : ℕ) : Prop := ph.first ≤ page ∧ page < ph.first + ph.count

/-- Page aligned, in the file, inside the user program range and not in the page of the headers. -/
structure Valid (ph : Phdr) (file : List UInt8) : Prop where
  align : ph.align = 0x1000
  page : ph.vaddr % 4096 = 0
  above : USER_EXEC_ADDR.toNat ≤ ph.vaddr
  below : ph.vaddr + ph.size ≤ USER_MMAP_ADDR.toNat
  inFile : ph.offset + ph.filesz ≤ file.length
  header : ¬ ph.Has (USER_EXEC_ADDR.toNat / 4096)

/-- The bytes of the file, and zeros. -/
def content (ph : Phdr) (file : List UInt8) : List UInt8 :=
  (file.drop ph.offset).take ph.filesz ++ List.replicate (ph.memsz - ph.filesz) 0

structure Loaded (ph : Phdr) (file : List UInt8) (s : ExecTask) : Prop where
  mapped : ∀ page, ph.Has page → ∃ e, s.pages page = some e ∧ (ph.flags &&& PF_W = 0 → e.write = false)
  holds : s.mem.Holds ph.vaddr (ph.content file)

/-- What the loader leaves of the pages of the segment. -/
def entry (ph : Phdr) : UserPage := if ph.flags &&& PF_W = 0 then ⟨false, true⟩ else ⟨true, false⟩

end Phdr

/-- A valid image: the headers are in the file, and no two loadable segments share a page. -/
structure ValidImage (file : List UInt8) : Prop where
  header : EHDR_SIZE ≤ file.length
  valid : elfValidate (fileMem file) 0 = true
  table : ePhoff (fileMem file) 0 + ePhnum (fileMem file) 0 * PHDR_SIZE ≤ file.length
  segments : ∀ ph ∈ phdrs file, ph.loads = true → ph.Valid file
  apart : ((phdrs file).filter Phdr.loads).Pairwise fun a b => ∀ page, a.Has page → ¬ b.Has page

/-- The highest end of the segments. -/
def endOf (start : ℕ) (segments : List Phdr) : ℕ := (segments.map Phdr.finish).foldl max start

/-- All that `load_elf` is for. -/
structure ImageLoaded (file : List UInt8) (entry : UInt32) (s : ExecTask) : Prop where
  entry : entry = eEntry (fileMem file) 0
  segments : ∀ ph ∈ phdrs file, ph.loads = true → ph.Loaded file s
  finish : s.finish = endOf USER_EXEC_ADDR.toNat ((phdrs file).filter Phdr.loads)

/-- The task as `sys_execve` hands it to `load_elf`: nothing is mapped where programs go. -/
structure Released (s : ExecTask) : Prop where
  brk : s.brk = USER_EXEC_ADDR.toNat
  finish : s.finish = USER_EXEC_ADDR.toNat
  unmapped : ∀ page, USER_EXEC_ADDR.toNat ≤ page * 4096 → page * 4096 < USER_MMAP_ADDR.toNat → s.pages page = none

/-! ### A store -/

namespace ExecTask

theorem linkPages_mapped (s : ExecTask) (page : ℕ) : (s.linkPages page 1).pages page ≠ none := by
  rw [linkPages]
  simp only
  split_ifs with hun
  · exact Option.some_ne_none _
  · exact fun hnone => hun ⟨le_rfl, Nat.lt_succ_self _, hnone⟩

theorem access_mapped {s : ExecTask} {page : ℕ} (h : s.pages page ≠ none) : s.access page = .ok s := by
  rw [access, if_pos h]

theorem foldlM_access {s : ExecTask} {l : List ℕ} (h : ∀ page ∈ l, s.pages page ≠ none) :
    l.foldlM access s = .ok s := by
  induction l with
  | nil => rfl
  | cons page l ih =>
    rw [List.forall_mem_cons] at h
    rw [List.foldlM_cons, access_mapped h.1, ok_bind, ih h.2]

theorem mem_pagesOf {addr len page : ℕ} : page ∈ pagesOf addr len ↔
    0 < len ∧ addr / 4096 ≤ page ∧ page ≤ (addr + len - 1) / 4096 := by
  unfold pagesOf
  rw [List.mem_range'_1]
  split_ifs with h
  · simp [h]
  · have : addr / 4096 ≤ (addr + len - 1) / 4096 := Nat.div_le_div_right (by omega)
    omega

theorem store_mapped {s : ExecTask} {addr : ℕ} {bytes : List UInt8}
    (h : ∀ page, addr / 4096 ≤ page → page * 4096 < addr + bytes.length → s.pages page ≠ none) :
    s.store addr bytes = .ok (s.withMem (s.mem.put addr bytes)) := by
  rw [store, foldlM_access fun page hp => ?_]
  · rfl
  · obtain ⟨hpos, hlo, hhi⟩ := mem_pagesOf.mp hp
    exact h page hlo (by omega)

end ExecTask

/-! ### A segment -/

/-- The segments have been loaded, and the rest of the memory is as it was. -/
structure LoadedAll (file : List UInt8) (s s' : ExecTask) (segments : List Phdr) : Prop where
  others : ∀ page, (∀ ph ∈ segments, ¬ ph.Has page) → s'.pages page = s.pages page
  mem : ∀ addr, (∀ ph ∈ segments, ¬ ph.Has (addr / 4096)) → s'.mem addr = s.mem addr
  entries : ∀ ph ∈ segments, ∀ page, ph.Has page → s'.pages page = some ph.entry
  holds : ∀ ph ∈ segments, s'.mem.Holds ph.vaddr (ph.content file)
  finish : s'.finish = endOf s.finish segments

namespace Phdr

variable {ph : Phdr} {file : List UInt8}

theorem Valid.count_eq (h : ph.Valid file) : ph.count = (ph.size + 4095) / 4096 := by
  have hmmap : USER_MMAP_ADDR.toNat = 0x8000000 := rfl
  have := h.below
  unfold count
  rw [Nat.mod_eq_of_lt (by omega)]

/-- The addresses of the segment are in its pages. -/
theorem Valid.has (h : ph.Valid file) {addr : ℕ} (hlo : ph.vaddr ≤ addr) (hhi : addr < ph.vaddr + ph.size) :
    ph.Has (addr / 4096) := by
  have hc := h.count_eq
  have hp := h.page
  unfold Has first
  omega

theorem Valid.length_content (h : ph.Valid file) : (ph.content file).length = ph.size := by
  have := h.inFile
  simp only [content, List.length_append, List.length_take, List.length_drop, List.length_replicate, size]
  omega

theorem Valid.length_bytes (h : ph.Valid file) : ((file.drop ph.offset).take ph.filesz).length = ph.filesz := by
  have := h.inFile
  simp only [List.length_take, List.length_drop]
  omega

end Phdr

namespace ExecTask

@[simp] theorem withMem_pages (s : ExecTask) (m : ByteMem) : (s.withMem m).pages = s.pages := rfl
@[simp] theorem withMem_mem (s : ExecTask) (m : ByteMem) : (s.withMem m).mem = m := rfl
@[simp] theorem note_pages (s : ExecTask) (ph : Phdr) : (s.note ph).pages = s.pages := by
  unfold note
  split_ifs <;> rfl

@[simp] theorem note_mem (s : ExecTask) (ph : Phdr) : (s.note ph).mem = s.mem := by
  unfold note
  split_ifs <;> rfl

@[simp] theorem note_brk (s : ExecTask) (ph : Phdr) : (s.note ph).brk = s.brk := by
  unfold note
  split_ifs <;> rfl

@[simp] theorem note_finish (s : ExecTask) (ph : Phdr) : (s.note ph).finish = s.finish := by
  unfold note
  split_ifs <;> rfl


end ExecTask

/-- Bytes that the file has are read to pages that are mapped. -/
theorem inodeReadTo_mapped {file : List UInt8} {s : ExecTask} (buf : ℕ) {len offset : ℕ}
    (hlen : offset + len ≤ file.length)
    (h : ∀ page, buf / 4096 ≤ page → page * 4096 < buf + len → s.pages page ≠ none) :
    ∃ n m, inodeReadTo file s buf len offset = .ok (n, s.withMem m) ∧ (0 < len → n = some len) ∧
      m.Holds buf ((file.drop offset).take len) ∧ ∀ a, (a < buf ∨ buf + len ≤ a) → m a = s.mem a := by
  have hbytes : ((file.drop offset).take len).length = len := by
    simp only [List.length_take, List.length_drop]
    omega
  unfold inodeReadTo
  by_cases hend : file.length ≤ offset
  · obtain rfl : len = 0 := by omega
    refine ⟨none, s.mem, if_pos hend, fun h0 => absurd h0 (Nat.lt_irrefl 0), ?_, fun _ _ => rfl⟩
    rw [List.take_zero]
    exact ByteMem.holds_nil
  · refine ⟨some len, s.mem.put buf ((file.drop offset).take len), ?_, fun _ => rfl, ByteMem.holds_put, fun a ha => ?_⟩
    · rw [if_neg hend]
      simp only [ExecTask.store_mapped (by rwa [hbytes]), ok_bind, hbytes]
    · exact ByteMem.put_of_outside (by rwa [hbytes])

/-- The rest of the segment is cleared. -/
theorem clear_mapped {file : List UInt8} {s : ExecTask} {ph : Phdr} (hin : ph.Valid file)
    (hbytes : s.mem.Holds ph.vaddr ((file.drop ph.offset).take ph.filesz))
    (h : ∀ page, ph.Has page → s.pages page ≠ none) :
    ∃ m, s.clearTail ph = .ok (s.withMem m) ∧ m.Holds ph.vaddr (ph.content file) ∧
      ∀ a, (a < ph.vaddr ∨ ph.vaddr + ph.size ≤ a) → m a = s.mem a := by
  have hlen := hin.length_bytes
  have hpage := hin.page
  have hcount := hin.count_eq
  unfold Phdr.content ExecTask.clearTail
  split_ifs with hlt
  · refine ⟨_, ExecTask.store_mapped fun page hlo hhi => h page ?_, ?_, fun a ha => ?_⟩
    · rw [List.length_replicate] at hhi
      unfold Phdr.Has Phdr.first
      rw [hcount]
      unfold Phdr.size
      omega
    · rw [ByteMem.holds_append, hlen]
      exact ⟨hbytes.put_frame (by rw [hlen]; omega), ByteMem.holds_put⟩
    · unfold Phdr.size at ha
      exact ByteMem.put_of_outside (by rw [List.length_replicate]; omega)
  · refine ⟨s.mem, rfl, ?_, fun _ _ => rfl⟩
    rw [show ph.memsz - ph.filesz = 0 by omega, List.replicate_zero, List.append_nil]
    exact hbytes

/-- `load_segment` of pages that are not mapped yet. -/
theorem loadSegment_loads {file : List UInt8} {s : ExecTask} {ph : Phdr} (h : ph.Valid file)
    (hp : ∀ page, ph.Has page → s.pages page = none) :
    ∃ s', ExecTask.loadSegment file s ph = .ok s' ∧ LoadedAll file s s' [ph] ∧ s'.brk = s.brk := by
  have hexec : USER_EXEC_ADDR.toNat = 0x1000000 := rfl
  have hmmap : USER_MMAP_ADDR.toNat = 0x8000000 := rfl
  have hpage := h.page
  have hcount := h.count_eq
  have habove := h.above
  have hbelow := h.below
  have hrange : ∀ i < ph.count,
      USER_EXEC_ADDR.toNat ≤ ph.vaddr + i * 4096 ∧ ph.vaddr + i * 4096 < USER_MMAP_ADDR.toNat := by
    intro i hi
    omega
  have hlinked : ∀ page, ph.Has page → (s.linkPages ph.first ph.count).pages page = some ⟨true, false⟩ := by
    intro page hh
    unfold ExecTask.linkPages
    exact if_pos ⟨hh.1, hh.2, hp page hh⟩
  -- the pages are mapped while the bytes are stored, so no store faults
  generalize hs₁ : s.linkPages ph.first ph.count = s₁ at hlinked
  have hne : ∀ page, ph.Has page → s₁.pages page ≠ none := fun page hh => by
    rw [hlinked page hh]
    exact Option.some_ne_none _
  have hsize : ph.filesz ≤ ph.size := le_max_right _ _
  obtain ⟨n, m₁, hread, -, hholds₁, hout₁⟩ := inodeReadTo_mapped ph.vaddr h.inFile fun page hlo hhi => hne page (by
    unfold Phdr.Has Phdr.first
    omega)
  obtain ⟨m₂, hclear, hholds₂, hout₂⟩ := clear_mapped (s := s₁.withMem m₁) h hholds₁ hne
  have hout : ∀ a, ¬ ph.Has (a / 4096) → m₂ a = s.mem a := by
    intro a ha
    have ha' : a < ph.vaddr ∨ ph.vaddr + ph.size ≤ a := by
      by_contra hin
      exact ha (h.has (by omega) (by omega))
    rw [hout₂ a ha', ExecTask.withMem_mem, hout₁ a (by omega), ← hs₁]
    rfl
  have hothers : ∀ page, ¬ ph.Has page → s₁.pages page = s.pages page := by
    intro page hn
    rw [← hs₁]
    exact if_neg fun hh => hn ⟨hh.1, hh.2.1⟩
  have hfinish : s₁.finish = s.finish := by rw [← hs₁]; rfl
  have hbrk : s₁.brk = s.brk := by rw [← hs₁]; rfl
  have hok : ∃ s', ExecTask.loadSegment file s ph = .ok s' ∧ s'.mem = m₂ ∧ s'.brk = s₁.brk ∧
      s'.finish = max s₁.finish ph.finish ∧
      s'.pages = if ph.flags &&& PF_W = 0 then (s₁.protectPages ph.first ph.count).pages else s₁.pages := by
    unfold ExecTask.loadSegment
    rw [h.align, hpage, decide_eq_true hrange, hs₁]
    simp only [beq_self_eq_true, assert_true, ok_bind, hread, hclear]
    refine ⟨_, rfl, ?_⟩
    split_ifs <;> simp [ExecTask.protectPages, ExecTask.withMem]
  obtain ⟨s', hload, hmem', hbrk', hfinish', hpages'⟩ := hok
  refine ⟨s', hload, ⟨fun page hn => ?_, fun a hn => ?_, ?_, ?_, ?_⟩, hbrk'.trans hbrk⟩
  · have hn := hn ph (List.mem_singleton_self ph)
    rw [hpages', ← hothers page hn]
    split_ifs
    · exact if_neg hn
    · rfl
  · rw [hmem', hout a (hn ph (List.mem_singleton_self ph))]
  · rw [List.forall_mem_singleton]
    intro page hh
    rw [hpages', Phdr.entry]
    split_ifs
    · rw [ExecTask.protectPages]
      simp only [if_pos (show ph.first ≤ page ∧ page < ph.first + ph.count from hh), hlinked page hh, Option.map_some]
    · exact hlinked page hh
  · rw [List.forall_mem_singleton, hmem']
    exact hholds₂
  · rw [hfinish', hfinish]
    rfl

theorem LoadedAll.nil (file : List UInt8) (s : ExecTask) : LoadedAll file s s [] :=
  ⟨fun _ _ => rfl, fun _ _ => rfl, nofun, nofun, rfl⟩

theorem LoadedAll.cons {file : List UInt8} {s s₁ s₂ : ExecTask} {ph : Phdr} {segments : List Phdr}
    (h : LoadedAll file s s₁ [ph]) (hl : LoadedAll file s₁ s₂ segments) (hv : ph.Valid file)
    (hd : ∀ b ∈ segments, ∀ page, ph.Has page → ¬ b.Has page) : LoadedAll file s s₂ (ph :: segments) := by
  refine ⟨fun page hn => ?_, fun a hn => ?_, ?_, ?_, ?_⟩
  · rw [List.forall_mem_cons] at hn
    rw [hl.others page hn.2, h.others page (List.forall_mem_singleton.mpr hn.1)]
  · rw [List.forall_mem_cons] at hn
    rw [hl.mem a hn.2, h.mem a (List.forall_mem_singleton.mpr hn.1)]
  · refine List.forall_mem_cons.mpr ⟨fun page hh => ?_, hl.entries⟩
    rw [hl.others page fun b hb => hd b hb page hh]
    exact h.entries ph (List.mem_singleton_self ph) page hh
  · refine List.forall_mem_cons.mpr ⟨(h.holds ph (List.mem_singleton_self ph)).congr fun a hlo hhi => ?_, hl.holds⟩
    rw [hv.length_content] at hhi
    exact hl.mem a fun b hb => hd b hb _ (hv.has hlo hhi)
  · rw [hl.finish, h.finish]
    rfl

/-! ### The headers in memory -/

theorem load32_congr {m m' : ByteMem} {a b : ℕ} (h : ∀ i < 4, m (a + i) = m' (b + i)) : m.load32 a = m'.load32 b := by
  have h0 := h 0 (by decide)
  have h1 := h 1 (by decide)
  have h2 := h 2 (by decide)
  have h3 := h 3 (by decide)
  rw [Nat.add_zero, Nat.add_zero] at h0
  rw [ByteMem.load32, ByteMem.load32, h0, h1, h2, h3]

theorem load16_congr {m m' : ByteMem} {a b : ℕ} (h : ∀ i < 2, m (a + i) = m' (b + i)) : m.load16 a = m'.load16 b := by
  have h0 := h 0 (by decide)
  have h1 := h 1 (by decide)
  rw [Nat.add_zero, Nat.add_zero] at h0
  rw [ByteMem.load16, ByteMem.load16, h0, h1]

/-- `n` bytes are the same, so are the fields in them. -/
theorem field32_congr {m m' : ByteMem} {a b n : ℕ} (h : ∀ i < n, m (a + i) = m' (b + i)) {k : ℕ} (hk : k + 4 ≤ n) :
    m.load32 (a + k) = m'.load32 (b + k) :=
  load32_congr fun i hi => by rw [Nat.add_assoc, Nat.add_assoc]; exact h (k + i) (by omega)

theorem field16_congr {m m' : ByteMem} {a b n : ℕ} (h : ∀ i < n, m (a + i) = m' (b + i)) {k : ℕ} (hk : k + 2 ≤ n) :
    m.load16 (a + k) = m'.load16 (b + k) :=
  load16_congr fun i hi => by rw [Nat.add_assoc, Nat.add_assoc]; exact h (k + i) (by omega)

theorem phdrAt_congr {m m' : ByteMem} {a b : ℕ} (h : ∀ i < PHDR_SIZE, m (a + i) = m' (b + i)) :
    phdrAt m a = phdrAt m' b := by
  have h0 : m.load32 a = m'.load32 b := load32_congr fun i hi => h i (hi.trans (by decide))
  unfold phdrAt
  rw [h0, field32_congr h (k := 4) (by decide), field32_congr h (k := 8) (by decide),
    field32_congr h (k := 16) (by decide), field32_congr h (k := 20) (by decide),
    field32_congr h (k := 24) (by decide), field32_congr h (k := 28) (by decide)]

theorem elfValidate_congr {m m' : ByteMem} {a b : ℕ} (h : ∀ i < EHDR_SIZE, m (a + i) = m' (b + i)) :
    elfValidate m a = elfValidate m' b := by
  unfold elfValidate
  rw [field16_congr h (k := 16) (by decide), field16_congr h (k := 18) (by decide),
    field32_congr h (k := 20) (by decide), field16_congr h (k := 42) (by decide)]

/-- The header page has the header and the table of the file. -/
structure HeaderAt (file : List UInt8) (m : ByteMem) : Prop where
  ehdr : ∀ i < EHDR_SIZE, m (USER_EXEC_ADDR.toNat + i) = fileMem file (0 + i)
  table : ∀ i < ePhnum (fileMem file) 0 * PHDR_SIZE,
    m (USER_EXEC_ADDR.toNat + EHDR_SIZE + i) = fileMem file (ePhoff (fileMem file) 0 + i)

namespace HeaderAt

variable {file : List UInt8} {m m' : ByteMem}

theorem phnum (h : HeaderAt file m) : ePhnum m USER_EXEC_ADDR.toNat = ePhnum (fileMem file) 0 :=
  field16_congr h.ehdr (k := 44) (by decide)

theorem entry (h : HeaderAt file m) : eEntry m USER_EXEC_ADDR.toNat = eEntry (fileMem file) 0 :=
  field32_congr h.ehdr (k := 24) (by decide)

theorem phdr (h : HeaderAt file m) {i : ℕ} (hi : i < ePhnum (fileMem file) 0) :
    phdrAt m (USER_EXEC_ADDR.toNat + EHDR_SIZE + PHDR_SIZE * i) =
      phdrAt (fileMem file) (ePhoff (fileMem file) 0 + PHDR_SIZE * i) := by
  refine phdrAt_congr fun k hk => ?_
  rw [Nat.add_assoc _ (PHDR_SIZE * i), Nat.add_assoc _ (PHDR_SIZE * i)]
  refine h.table _ ?_
  have hsize : PHDR_SIZE = 32 := rfl
  rw [hsize] at hk ⊢
  omega

theorem congr (h : HeaderAt file m) (hn : ePhnum (fileMem file) 0 ≤ 126)
    (hm : ∀ a, a / 4096 = USER_EXEC_ADDR.toNat / 4096 → m' a = m a) : HeaderAt file m' := by
  have hexec : USER_EXEC_ADDR.toNat = 0x1000000 := rfl
  have hsize : PHDR_SIZE = 32 := rfl
  have hsize' : EHDR_SIZE = 52 := rfl
  refine ⟨fun i hi => ?_, fun i hi => ?_⟩
  · rw [hm _ (by omega), h.ehdr i hi]
  · rw [hm _ (by rw [hsize] at hi; omega), h.table i hi]

end HeaderAt

/-! ### The walk -/

/-- A header that is not loaded is looked at until the count runs out. -/
theorem loadSegments_stuck {file : List UInt8} {s : ExecTask} {ptr : ℕ} (h : (phdrAt s.mem ptr).type ≠ PT_LOAD)
    (fuel : ℕ) : ∀ i, loadSegments file fuel i ptr s = .ok s := by
  induction fuel with
  | zero => exact fun _ => rfl
  | succ fuel ih =>
    intro i
    rw [loadSegments, if_pos h, ih (i + 1)]
    split_ifs <;> rfl

/-- The walk loads the segments up to the first header of another type. -/
theorem loadSegments_spec {file : List UInt8} (hn : ePhnum (fileMem file) 0 ≤ 126) (phs : List Phdr) :
    ∀ (i fuel : ℕ) (s : ExecTask), (phdrs file).drop i = phs → phs.length ≤ fuel → HeaderAt file s.mem →
      (∀ ph ∈ phs, ph.loads = true → ph.Valid file) →
      (phs.filter Phdr.loads).Pairwise (fun a b => ∀ page, a.Has page → ¬ b.Has page) →
      (∀ ph ∈ phs, ph.loads = true → ∀ page, ph.Has page → s.pages page = none) →
      ∃ s', loadSegments file fuel i (USER_EXEC_ADDR.toNat + EHDR_SIZE + PHDR_SIZE * i) s = .ok s' ∧
        LoadedAll file s s' (phs.takeWhile Phdr.loads) ∧ HeaderAt file s'.mem := by
  have hlen : (phdrs file).length = ePhnum (fileMem file) 0 := by simp [phdrs]
  induction phs with
  | nil =>
    intro i fuel s hdrop _ hh _ _ _
    have hi : ePhnum (fileMem file) 0 ≤ i := by rw [← hlen]; exact List.drop_eq_nil_iff.mp hdrop
    refine ⟨s, ?_, LoadedAll.nil file s, hh⟩
    cases fuel with
    | zero => rfl
    | succ fuel => rw [loadSegments, hh.phnum, if_neg (by omega)]
  | cons ph phs ih =>
    intro i fuel s hdrop hfuel hh hv hap hun
    have hi : i < (phdrs file).length := by
      by_contra hle
      rw [List.drop_eq_nil_of_le (by omega)] at hdrop
      cases hdrop
    rw [List.drop_eq_getElem_cons hi, List.cons.injEq] at hdrop
    have hph : phdrAt s.mem (USER_EXEC_ADDR.toNat + EHDR_SIZE + PHDR_SIZE * i) = ph := by
      rw [hh.phdr (by omega), ← hdrop.1]
      simp [phdrs]
    obtain ⟨fuel, rfl⟩ : ∃ k, fuel = k + 1 := ⟨fuel - 1, by rw [List.length_cons] at hfuel; omega⟩
    rw [List.length_cons] at hfuel
    rw [List.forall_mem_cons] at hv hun
    by_cases hl : ph.loads = true
    · have htype : ph.type = PT_LOAD := by simpa [Phdr.loads] using hl
      rw [List.filter_cons_of_pos hl, List.pairwise_cons] at hap
      obtain ⟨s₁, hload, hone, hbrk⟩ := loadSegment_loads (hv.1 hl) (hun.1 hl)
      have hd : ∀ b ∈ phs, b.loads = true → ∀ page, ph.Has page → ¬ b.Has page := fun b hb hbl =>
        hap.1 b (List.mem_filter.mpr ⟨hb, hbl⟩)
      have hh₁ : HeaderAt file s₁.mem := hh.congr hn fun a ha => hone.mem a (by
        rw [List.forall_mem_singleton, ha]
        exact (hv.1 hl).header)
      have hun₁ : ∀ b ∈ phs, b.loads = true → ∀ page, b.Has page → s₁.pages page = none := fun b hb hbl page hbp => by
        rw [hone.others page (List.forall_mem_singleton.mpr fun hp => hd b hb hbl page hp hbp)]
        exact hun.2 b hb hbl page hbp
      obtain ⟨s', hrest, hall, hh'⟩ := ih (i + 1) fuel s₁ hdrop.2 (by omega) hh₁ hv.2 hap.2 hun₁
      refine ⟨s', ?_, ?_, hh'⟩
      · rw [loadSegments, hh.phnum, if_pos (by omega), hph, if_neg (by simpa using htype), hload, ok_bind, ← hrest]
        rfl
      · rw [List.takeWhile_cons_of_pos hl]
        refine hone.cons hall (hv.1 hl) fun b hb => hd b ?_ ?_
        · exact (List.takeWhile_sublist _).subset hb
        · exact List.mem_takeWhile_imp hb
    · have htype : ph.type ≠ PT_LOAD := by simpa [Phdr.loads] using hl
      refine ⟨s, loadSegments_stuck (by rw [hph]; exact htype) _ _, ?_, hh⟩
      rw [List.takeWhile_cons_of_neg hl]
      exact LoadedAll.nil file s

/-! ### The image -/

/-- The segments up to the first header of another type. -/
def reached (file : List UInt8) : List Phdr := (phdrs file).takeWhile Phdr.loads

/-- The loadable segments after it. -/
def missed (file : List UInt8) : List Phdr := ((phdrs file).dropWhile Phdr.loads).filter Phdr.loads

/-- The table fits the page of the headers, and nothing is to be done for a segment after a header of another type. -/
def Walkable (file : List UInt8) : Prop := ePhnum (fileMem file) 0 ≤ 126 ∧
  ∀ ph ∈ missed file, ph.count = 0 ∧ ph.finish ≤ endOf USER_EXEC_ADDR.toNat (reached file)

theorem filter_loads (file : List UInt8) : (phdrs file).filter Phdr.loads = reached file ++ missed file := by
  have hall : (reached file).filter Phdr.loads = reached file :=
    List.filter_eq_self.mpr fun _ h => List.mem_takeWhile_imp h
  have happ := congrArg (List.filter Phdr.loads) (List.takeWhile_append_dropWhile (p := Phdr.loads) (l := phdrs file))
  rw [List.filter_append] at happ
  rw [← happ, missed, ← hall]
  rfl

theorem endOf_append (start : ℕ) (l l' : List Phdr) : endOf start (l ++ l') = endOf (endOf start l) l' := by
  simp [endOf]

theorem endOf_eq_iff {start : ℕ} {l : List Phdr} : endOf start l = start ↔ ∀ ph ∈ l, ph.finish ≤ start := by
  have hle : ∀ (l : List Phdr) (a : ℕ), a ≤ endOf a l := by
    intro l
    induction l with
    | nil => exact fun a => le_rfl
    | cons ph l ih => exact fun a => (le_max_left a ph.finish).trans (ih _)
  induction l with
  | nil => exact ⟨nofun, fun _ => rfl⟩
  | cons ph l ih =>
    rw [List.forall_mem_cons]
    have hstep : endOf start (ph :: l) = endOf (max start ph.finish) l := rfl
    constructor
    · intro h
      have hph : ph.finish ≤ start := by
        have := hle l (max start ph.finish)
        omega
      rw [hstep, max_eq_left hph] at h
      exact ⟨hph, ih.mp h⟩
    · rintro ⟨hph, hl⟩
      rw [hstep, max_eq_left hph]
      exact ih.mpr hl

theorem fileMem_of_holds {file : List UInt8} {m : ByteMem} {a offset len : ℕ} (hlen : offset + len ≤ file.length)
    (h : m.Holds a ((file.drop offset).take len)) : ∀ i < len, m (a + i) = fileMem file (offset + i) := by
  intro i hi
  rw [h i (by simp only [List.length_take, List.length_drop]; omega)]
  simp [fileMem, show offset + i < file.length by omega]

/-- A table that does not fit is stored up to the end of its page. -/
theorem table_faults {file : List UInt8} {s : ExecTask} {len offset : ℕ} (hlen : offset + len ≤ file.length)
    (hlong : 4096 < EHDR_SIZE + len) (hmapped : s.pages (USER_EXEC_ADDR.toNat / 4096) ≠ none)
    (hnext : s.pages (USER_EXEC_ADDR.toNat / 4096 + 1) = none) (hbrk : s.brk = USER_EXEC_ADDR.toNat) :
    inodeReadTo file s (USER_EXEC_ADDR.toNat + EHDR_SIZE) len offset = .error (.panic "page fault") := by
  have hexec : USER_EXEC_ADDR.toNat = 0x1000000 := rfl
  have hbottom : USER_STACK_BOTTOM.toNat = 0xfe00000 := rfl
  have htop : USER_STACK_TOP.toNat = 0x10000000 := rfl
  have hsize : EHDR_SIZE = 52 := rfl
  have hbytes : ((file.drop offset).take len).length = len := by
    simp only [List.length_take, List.length_drop]
    omega
  obtain ⟨k, hk⟩ : ∃ k, ExecTask.pagesOf (USER_EXEC_ADDR.toNat + EHDR_SIZE) len =
      List.range' (USER_EXEC_ADDR.toNat / 4096) (k + 2) := by
    have hfirst : (USER_EXEC_ADDR.toNat + EHDR_SIZE) / 4096 = USER_EXEC_ADDR.toNat / 4096 := by omega
    obtain ⟨k, hk⟩ : ∃ k,
        (USER_EXEC_ADDR.toNat + EHDR_SIZE + len - 1) / 4096 + 1 - USER_EXEC_ADDR.toNat / 4096 = k + 2 :=
      ⟨_, (Nat.sub_add_cancel (by omega)).symm⟩
    exact ⟨k, by rw [ExecTask.pagesOf, if_neg (by omega), hfirst, hk]⟩
  have hfault : s.access (USER_EXEC_ADDR.toNat / 4096 + 1) = .error (.panic "page fault") := by
    rw [ExecTask.access, if_neg (by simp [hnext]), if_neg (by omega), if_neg (by omega)]
  unfold inodeReadTo ExecTask.store
  rw [if_neg (by omega)]
  simp only [hbytes, hk]
  rw [List.range'_succ, List.range'_succ, List.foldlM_cons, ExecTask.access_mapped hmapped, ok_bind,
    List.foldlM_cons, hfault]
  rfl

/-- `load_elf` from the table of program headers on. -/
def loadTable (file : List UInt8) (s : ExecTask) : Except Halt (UInt32 × ExecTask) := do
  let (_, s) ← inodeReadTo file s (USER_EXEC_ADDR.toNat + EHDR_SIZE)
    (ePhnum s.mem USER_EXEC_ADDR.toNat * PHDR_SIZE) (ePhoff s.mem USER_EXEC_ADDR.toNat)
  let s ← loadSegments file 65536 0 (USER_EXEC_ADDR.toNat + EHDR_SIZE) s
  .ok (eEntry s.mem USER_EXEC_ADDR.toNat, s)

/-- The page of the headers has been mapped, and the header is in it. -/
structure HeaderRead (file : List UInt8) (s s₁ : ExecTask) : Prop where
  mapped : s₁.pages (USER_EXEC_ADDR.toNat / 4096) ≠ none
  others : ∀ page, page ≠ USER_EXEC_ADDR.toNat / 4096 → s₁.pages page = s.pages page
  finish : s₁.finish = s.finish
  brk : s₁.brk = s.brk
  ehdr : ∀ i < EHDR_SIZE, s₁.mem (USER_EXEC_ADDR.toNat + i) = fileMem file (0 + i)

namespace HeaderRead

variable {file : List UInt8} {s s₁ : ExecTask}

theorem phnum (h : HeaderRead file s s₁) : ePhnum s₁.mem USER_EXEC_ADDR.toNat = ePhnum (fileMem file) 0 :=
  field16_congr h.ehdr (k := 44) (by decide)

theorem phoff (h : HeaderRead file s s₁) : ePhoff s₁.mem USER_EXEC_ADDR.toNat = ePhoff (fileMem file) 0 :=
  congrArg UInt32.toNat (field32_congr h.ehdr (k := 28) (by decide))

end HeaderRead

theorem loadElf_header {file : List UInt8} (hv : ValidImage file) (s : ExecTask) :
    ∃ s₁, HeaderRead file s s₁ ∧ loadElf file s = loadTable file s₁ := by
  have hexec : USER_EXEC_ADDR.toNat = 0x1000000 := rfl
  have hsize : EHDR_SIZE = 52 := rfl
  generalize hs₁ : s.linkPages (USER_EXEC_ADDR.toNat / 4096) 1 = s₁
  have hpage : s₁.pages (USER_EXEC_ADDR.toNat / 4096) ≠ none := by
    rw [← hs₁]
    exact s.linkPages_mapped _
  have hheader : 0 + EHDR_SIZE ≤ file.length := by rw [Nat.zero_add]; exact hv.header
  obtain ⟨n, m, hread, hn, hholds, -⟩ := inodeReadTo_mapped (s := s₁) USER_EXEC_ADDR.toNat hheader
    fun page hlo hhi => by rwa [show page = USER_EXEC_ADDR.toNat / 4096 by omega]
  have hehdr := fileMem_of_holds hheader hholds
  have hvalid : elfValidate m USER_EXEC_ADDR.toNat = true := (elfValidate_congr hehdr).trans hv.valid
  refine ⟨s₁.withMem m, ⟨hpage, fun page hne => ?_, ?_, ?_, hehdr⟩, ?_⟩
  · rw [ExecTask.withMem_pages, ← hs₁]
    exact if_neg fun hh => hne (by omega)
  · rw [← hs₁]
    rfl
  · rw [← hs₁]
    rfl
  · unfold loadElf
    simp only [hs₁, hread, ok_bind, hn (by decide), beq_self_eq_true, assert_true, ExecTask.withMem_mem, hvalid,
      Bool.not_true, Bool.false_eq_true, if_false]
    rfl

/-- A table that does not fit its page: the store faults. -/
theorem loadElf_faults {file : List UInt8} (hv : ValidImage file) {s : ExecTask} (hs : Released s)
    (hlong : 126 < ePhnum (fileMem file) 0) : loadElf file s = .error (.panic "page fault") := by
  have hexec : USER_EXEC_ADDR.toNat = 0x1000000 := rfl
  have hmmap : USER_MMAP_ADDR.toNat = 0x8000000 := rfl
  have hsize : EHDR_SIZE = 52 := rfl
  have hsize' : PHDR_SIZE = 32 := rfl
  obtain ⟨s₁, h, hload⟩ := loadElf_header hv s
  have hnext : s₁.pages (USER_EXEC_ADDR.toNat / 4096 + 1) = none := by
    rw [h.others _ (by omega)]
    rw [show USER_EXEC_ADDR.toNat / 4096 = 4096 from rfl]
    exact hs.unmapped 4097 (by omega) (by omega)
  rw [hload, loadTable, h.phnum, h.phoff,
    table_faults hv.table (by rw [hsize']; omega) h.mapped hnext (h.brk.trans hs.brk)]
  rfl

/-- What `load_elf` does with a valid image whose table fits: it loads the segments that the walk reaches. -/
theorem loadElf_spec {file : List UInt8} (hv : ValidImage file) {s : ExecTask} (hs : Released s)
    (hfit : ePhnum (fileMem file) 0 ≤ 126) : ∃ s', loadElf file s = .ok (eEntry (fileMem file) 0, s') ∧
      (∀ ph ∈ missed file, ∀ page, ph.Has page → s'.pages page = none) ∧ (∀ ph ∈ reached file, ph.Loaded file s') ∧
      s'.finish = endOf USER_EXEC_ADDR.toNat (reached file) := by
  have hexec : USER_EXEC_ADDR.toNat = 0x1000000 := rfl
  have hmmap : USER_MMAP_ADDR.toNat = 0x8000000 := rfl
  have hsize : EHDR_SIZE = 52 := rfl
  have hsize' : PHDR_SIZE = 32 := rfl
  obtain ⟨s₁, h, hload⟩ := loadElf_header hv s
  obtain ⟨n, m, hread, -, hholds, hout⟩ := inodeReadTo_mapped (s := s₁) (USER_EXEC_ADDR.toNat + EHDR_SIZE)
    hv.table fun page hlo hhi => by
      rw [hsize'] at hhi
      rw [show page = USER_EXEC_ADDR.toNat / 4096 by omega]
      exact h.mapped
  have hh : HeaderAt file m := by
    refine ⟨fun i hi => ?_, fileMem_of_holds hv.table hholds⟩
    rw [hout _ (by omega)]
    exact h.ehdr i hi
  have hun : ∀ ph ∈ phdrs file, ph.loads = true → ∀ page, ph.Has page → (s₁.withMem m).pages page = none := by
    intro ph hph hl page hp
    have hvp := hv.segments ph hph hl
    have hcount := hvp.count_eq
    have habove := hvp.above
    have hbelow := hvp.below
    have haligned := hvp.page
    have hne : page ≠ USER_EXEC_ADDR.toNat / 4096 := fun heq => hvp.header (heq ▸ hp)
    unfold Phdr.Has Phdr.first at hp
    exact (h.others page hne).trans (hs.unmapped page (by omega) (by omega))
  have hlen : (phdrs file).length ≤ 65536 := by
    simp only [phdrs, List.length_map, List.length_range]
    omega
  obtain ⟨s', hwalk, hall, hh'⟩ := loadSegments_spec hfit (phdrs file) 0 65536 (s₁.withMem m) rfl hlen hh hv.segments
    hv.apart hun
  rw [Nat.mul_zero, Nat.add_zero] at hwalk
  have hapart := hv.apart
  rw [filter_loads, List.pairwise_append] at hapart
  refine ⟨s', ?_, fun ph hph page hp => ?_,
    fun ph hph => ⟨fun page hp => ⟨_, hall.entries ph hph page hp, fun hw => ?_⟩, hall.holds ph hph⟩, ?_⟩
  · rw [hload, loadTable, h.phnum, h.phoff]
    simp only [hread, ok_bind, hwalk, hh'.entry]
  · obtain ⟨hmem, hl⟩ := List.mem_filter.mp hph
    rw [hall.others page fun b hb hbp => hapart.2.2 b hb ph hph page hbp hp]
    exact hun ph ((List.dropWhile_sublist _).subset hmem) hl page hp
  · rw [Phdr.entry, if_pos hw]
  · rw [hall.finish]
    exact congrArg (endOf · _) (h.finish.trans hs.finish)

theorem mem_loads {file : List UInt8} {ph : Phdr} :
    ph ∈ phdrs file ∧ ph.loads = true ↔ ph ∈ reached file ∨ ph ∈ missed file := by
  rw [← List.mem_append, ← filter_loads, List.mem_filter]

/-- `load_elf` loads the whole of a valid image exactly when the walk can reach all of it. -/
theorem elf_loaded {file : List UInt8} (hv : ValidImage file) {s : ExecTask} (hs : Released s) :
    (∃ entry s', loadElf file s = .ok (entry, s') ∧ ImageLoaded file entry s') ↔ Walkable file := by
  by_cases hfit : ePhnum (fileMem file) 0 ≤ 126
  swap
  · rw [loadElf_faults hv hs (by omega)]
    constructor
    · rintro ⟨entry, s', h, -⟩
      cases h
    · exact fun h => absurd h.1 hfit
  obtain ⟨s', hload, hmissed, hreached, hend⟩ := loadElf_spec hv hs hfit
  constructor
  · rintro ⟨entry, s'', hok, himage⟩
    rw [hload] at hok
    cases hok
    refine ⟨hfit, fun ph hph => ⟨?_, ?_⟩⟩
    · -- a page of the segment would be mapped
      by_contra hne
      have hhas : ph.Has ph.first := ⟨le_rfl, by omega⟩
      obtain ⟨hmem, hl⟩ := mem_loads.mpr (.inr hph)
      obtain ⟨e, he, -⟩ := (himage.segments ph hmem hl).mapped _ hhas
      rw [hmissed ph hph _ hhas] at he
      cases he
    · have hfin := himage.finish
      rw [filter_loads, endOf_append, hend] at hfin
      exact endOf_eq_iff.mp hfin.symm ph hph
  · rintro ⟨-, hidle⟩
    refine ⟨_, s', hload, rfl, fun ph hph hl => ?_, ?_⟩
    · rcases mem_loads.mp ⟨hph, hl⟩ with hr | hm
      · exact hreached ph hr
      · have hvp := hv.segments ph hph hl
        have hzero := (hidle ph hm).1
        have hcount := hvp.count_eq
        refine ⟨fun page hp => ?_, fun i hi => ?_⟩
        · unfold Phdr.Has at hp
          omega
        · rw [hvp.length_content] at hi
          omega
    · rw [hend, filter_loads, endOf_append]
      exact (endOf_eq_iff.mpr fun ph hph => (hidle ph hph).2).symm

/-! ### Small images -/

/-- The header of an image whose table of `phnum` headers comes next. -/
def smallEhdr (phnum : UInt8) : List UInt8 :=
  List.replicate 16 0 ++ [2, 0, 3, 0, 1, 0, 0, 0] ++ ByteMem.wordBytes 0x1001000 ++ ByteMem.wordBytes 52 ++
    List.replicate 8 0 ++ [52, 0, 32, 0, phnum, 0, 0, 0, 0, 0, 0, 0]

/-- A read-only segment of 8 bytes, 4 of them in the file. -/
def smallPhdr (type vaddr : UInt32) : List UInt8 :=
  ByteMem.wordBytes type ++ ByteMem.wordBytes 0 ++ ByteMem.wordBytes vaddr ++ ByteMem.wordBytes 0 ++
    ByteMem.wordBytes 4 ++ ByteMem.wordBytes 8 ++ ByteMem.wordBytes 5 ++ ByteMem.wordBytes 0x1000

def smallSegment (type vaddr : ℕ) : Phdr := ⟨type, 0, vaddr, 4, 8, 5, 0x1000⟩

def textImage : List UInt8 := smallEhdr 1 ++ smallPhdr 1 0x1001000

/-- A `PT_NOTE` header stands before the segment. -/
def noteImage : List UInt8 := smallEhdr 2 ++ smallPhdr 4 0 ++ smallPhdr 1 0x1001000

theorem phdrs_textImage : phdrs textImage = [smallSegment 1 0x1001000] := by decide

theorem phdrs_noteImage : phdrs noteImage = [smallSegment 4 0, smallSegment 1 0x1001000] := by decide

theorem smallSegment_valid {file : List UInt8} (h : 4 ≤ file.length) : (smallSegment 1 0x1001000).Valid file :=
  ⟨rfl, rfl, by decide, by decide, h, by unfold Phdr.Has; decide⟩

theorem textImage_valid : ValidImage textImage := by
  refine ⟨by decide, by decide, by decide, ?_, ?_⟩
  · rw [phdrs_textImage, List.forall_mem_singleton]
    exact fun _ => smallSegment_valid (by decide)
  · rw [phdrs_textImage]
    exact List.pairwise_singleton _ _

theorem noteImage_valid : ValidImage noteImage := by
  refine ⟨by decide, by decide, by decide, ?_, ?_⟩
  · rw [phdrs_noteImage]
    refine List.forall_mem_cons.mpr ⟨fun h => absurd h (by decide), ?_⟩
    exact List.forall_mem_singleton.mpr fun _ => smallSegment_valid (by decide)
  · rw [phdrs_noteImage]
    exact List.pairwise_singleton _ (smallSegment 1 0x1001000)

def emptyTask : ExecTask := ⟨fun _ => none, fun _ => 0, USER_EXEC_ADDR.toNat, USER_EXEC_ADDR.toNat, 0, 0⟩

theorem emptyTask_released : Released emptyTask := ⟨rfl, rfl, fun _ _ _ => rfl⟩

theorem elf_loaded_text : ∃ entry s', loadElf textImage emptyTask = .ok (entry, s') ∧
    ImageLoaded textImage entry s' := by
  have hmissed : missed textImage = [] := by rw [missed, phdrs_textImage]; rfl
  exact (elf_loaded textImage_valid emptyTask_released).mpr ⟨by decide, by rw [hmissed]; nofun⟩

theorem elf_skips_segment : ¬ ∀ file, ValidImage file → ∀ s, Released s →
    ∃ entry s', loadElf file s = .ok (entry, s') ∧ ImageLoaded file entry s' := by
  intro h
  obtain ⟨entry, s'', hok, himage⟩ := h noteImage noteImage_valid emptyTask emptyTask_released
  obtain ⟨s', hload, hmissed, -⟩ := loadElf_spec noteImage_valid emptyTask_released (by decide)
  rw [hload, Except.ok.injEq, Prod.mk.injEq] at hok
  obtain ⟨-, rfl⟩ := hok
  have hm : smallSegment 1 0x1001000 ∈ missed noteImage := by
    rw [missed, phdrs_noteImage]
    exact List.mem_singleton_self _
  have hhas : (smallSegment 1 0x1001000).Has 0x1001 := by unfold Phdr.Has; decide
  obtain ⟨hmem, hl⟩ := mem_loads.mpr (.inr hm)
  obtain ⟨e, he, -⟩ := (himage.segments _ hmem hl).mapped _ hhas
  rw [hmissed _ hm _ hhas] at he
  cases he

end Onix
