import Onix.Kernel.PageOps

/-! The calls a task makes of memory.c: page faults, the heap, mmap, and the segments
of execve.c. All but `sys_mmap` keep copy-on-write whatever the arguments, and
`sys_mmap` does when the pages it makes writable are not shared by a fork. -/

set_option autoImplicit false

namespace Onix
namespace Memory

open Lib Finset

variable {m m' : Memory} {S : Finset (ℕ × ℕ)} {extra extra' : ℕ → ℕ}

/-- What a call keeps. -/
structure Keeps (m m' : Memory) (S : Finset (ℕ × ℕ)) (extra : ℕ → ℕ) : Prop where
  acct : Acct m' S extra
  cow : Cow m S → Cow m' S
  kernelMap : m'.kernelMap = m.kernelMap

theorem Keeps.refl (h : Acct m S extra) : Keeps m m S extra := ⟨h, id, rfl⟩

theorem Keeps.trans {m'' : Memory} (h : Keeps m m' S extra) (h' : Keeps m' m'' S extra) : Keeps m m'' S extra :=
  ⟨h'.acct, fun hc => h'.cow (h.cow hc), h'.kernelMap.trans h.kernelMap⟩

/-! ### Addresses -/

/-- An address whose page table belongs to the task: not of the first 16M, and not
of the window on the page tables. -/
def UserAddr (vaddr : UInt32) : Prop := KERNEL_DIRS ≤ didx vaddr ∧ didx vaddr < 1023

instance (vaddr : UInt32) : Decidable (UserAddr vaddr) :=
  inferInstanceAs (Decidable (KERNEL_DIRS ≤ didx vaddr ∧ didx vaddr < 1023))

theorem UserAddr.of_toNat {vaddr : UInt32} (h1 : 0x1000000 ≤ vaddr.toNat) (h2 : vaddr.toNat < 0xffc00000) :
    UserAddr vaddr := by
  unfold UserAddr didx
  simp only [KERNEL_DIRS]
  omega

theorem UserAddr.of_le {vaddr : UInt32} (h1 : USER_EXEC_ADDR ≤ vaddr) (h2 : vaddr ≤ USER_STACK_TOP) :
    UserAddr vaddr := by
  have h2 : vaddr.toNat ≤ 0x10000000 := UInt32.le_iff_toNat_le.mp h2
  exact .of_toNat (UInt32.le_iff_toNat_le.mp h1) (by omega)

theorem toNat_page {vaddr : UInt32} {i : ℕ} (h : vaddr.toNat + 4096 * i < 2 ^ 32) :
    (vaddr + PAGE_SIZE * UInt32.ofNat i).toNat = vaddr.toNat + 4096 * i := by
  have hp : PAGE_SIZE.toNat = 4096 := rfl
  rw [UInt32.toNat_add, UInt32.toNat_mul, UInt32.toNat_ofNat', hp, Nat.mod_eq_of_lt (show i < 2 ^ 32 by omega),
    Nat.mod_eq_of_lt (show 4096 * i < 2 ^ 32 by omega), Nat.mod_eq_of_lt h]

theorem mem_pagesFrom {vaddr page : UInt32} {count : ℕ} :
    page ∈ pagesFrom vaddr count ↔ ∃ i < count, vaddr + PAGE_SIZE * UInt32.ofNat i = page := by
  unfold pagesFrom
  simp only [List.mem_map, List.mem_range]

/-- The page of a walk that comes after the pages `before`. -/
theorem pagesFrom_split {vaddr page : UInt32} {count : ℕ} {before after : List UInt32}
    (h : pagesFrom vaddr count = before ++ page :: after) :
    page = vaddr + PAGE_SIZE * UInt32.ofNat before.length := by
  have hlen : before.length < count := by
    have := congrArg List.length h
    simp [pagesFrom] at this
    omega
  have hget := congrArg (fun l => l[before.length]?) h
  simp only [List.getElem?_append_right le_rfl, Nat.sub_self, List.getElem?_cons_zero, pagesFrom,
    List.getElem?_map, List.getElem?_range hlen, Option.map_some, Option.some.injEq] at hget
  exact hget.symm

/-- What is known of a task at a system call; every call leaves it so. -/
structure SpaceOk (task : Space) : Prop where
  finish : USER_EXEC_ADDR ≤ task.finish
  brk : task.brk ≤ USER_MMAP_ADDR
  vmap : task.vmap.offset + task.vmap.length * 8 ≤ pageIdx USER_STACK_TOP

theorem covers_page {task : Space} (h : SpaceOk task) {page : UInt32} (hc : task.vmap.covers (pageIdx page)) :
    page.toNat < 0x10000000 := by
  have h1 := h.vmap
  have h2 : pageIdx USER_STACK_TOP = 0x10000 := by decide
  rw [h2] at h1
  obtain ⟨-, h3⟩ := hc
  unfold pageIdx at h3
  omega

/-! ### Entries that keep their frame -/

theorem Writes.flags (h : Acct m S extra) {x : ℕ × ℕ} {t : ℕ} {e : PageEntry} (hx : x ∈ S) (ht : t < 1024)
    (hd : (m.dentry x).present) (hp : e.present = (m.entryAt x t).present)
    (hi : e.index = (m.entryAt x t).index) :
    Writes m (m.setEntry (m.dentry x).index t e) S extra extra x t e := by
  have href : ∀ p, refOf e p = refOf (m.entryAt x t) p := fun p => by unfold refOf; rw [hp, hi]
  refine ⟨hx, hd, ht, rfl, rfl, rfl, rfl, h.free, fun hpe => ?_, fun _ _ _ => rfl, fun p _ => ?_, h.kernel⟩
  · rw [hp] at hpe
    rw [hi]
    exact ⟨h.mapped x hx t ht hpe, Or.inr ⟨hpe, rfl⟩⟩
  · rw [href]
    rfl

/-! ### page_fault -/

/-- `get_pte(vaddr, false)` returns the page table that is there. -/
theorem getTable_spec (m : Memory) (pde : ℕ) (vaddr : UInt32) :
    Meets BadCount (m.getPte pde vaddr false) fun r =>
      r = ((m.dentry (pde, didx vaddr)).index, m) ∧ (m.dentry (pde, didx vaddr)).present := by
  by_cases hd : (m.dentry (pde, didx vaddr)).present
  · rw [getPte_eq hd]
    exact meets_ok.mpr ⟨rfl, hd⟩
  · have hd : (m.dirs pde (didx vaddr)).present = false := by simpa [dentry] using hd
    have hnone : m.getPte pde vaddr false =
        .error (.assertion "create || (!create && entry->present)") := by simp [getPte, hd, assert]
    rw [hnone]
    exact meets_error.mpr (by decide)

/-- A write to a page that a fork shares: the task gets the copy in frame `q`. -/
theorem cowFault_writes (h : Acct m S extra) {x : ℕ × ℕ} {t q : ℕ} (hx : x ∈ S) (ht : t < 1024)
    (hd : (m.dentry x).present) (hp : (m.entryAt x t).present) (h1 : m.memoryMap (m.entryAt x t).index ≠ 1)
    (hc : Copied m m' S (m.entryAt x t).index q) (hacct : Acct m' S (extra + one q)) :
    Writes m' ((m'.setCount (m.entryAt x t).index (m'.memoryMap (m.entryAt x t).index - 1)).setEntry
      (m.dentry x).index t (entryInit q)) S (extra + one q) extra x t (entryInit q) := by
  set p := (m.entryAt x t).index with hpdef
  have hpos : 1 ≤ m.memoryMap p := h.mapped_pos hx ht hp
  have hpq : p ≠ q := by
    intro he
    have := hc.frame.2.1
    rw [← he] at this
    omega
  have hcount : m'.memoryMap p = m.memoryMap p := by rw [hc.count, if_neg hpq]
  have hdirs : ∀ y, m'.dentry y = m.dentry y := fun y => by unfold dentry; rw [hc.dirs]
  have hk : KERNEL_PAGES ≤ p := (h.mapped x hx t ht hp).1
  refine ⟨hx, by rw [hdirs]; exact hd, ht, rfl, by rw [hdirs]; rfl, rfl, rfl,
    hacct.free.setCount (by omega) (by omega), fun _ => ⟨?_, Or.inl ?_⟩, ?_, ?_, ?_⟩
  · refine ⟨hc.frame.1.1, ?_⟩
    rw [hc.bounds.2]
    exact hc.frame.1.2
  · change m'.total S q = 0
    rw [total_congr (fun y _ => hdirs y) hc.entry]
    exact hc.frame.2.2
  · intro r _ hz
    rw [refOf_entryInit] at hz
    simp [hz]
  · intro r _
    rw [hc.entry x hx, refOf_entryInit]
    change Function.update m'.memoryMap p (m'.memoryMap p - 1) r + _ + _ = _
    simp only [Pi.add_apply, Function.update_apply, refOf, hp, true_and, ← hpdef]
    split_ifs with h2 h3 h3
    · rw [h2]
      omega
    · exact absurd h2.symm h3
    · exact absurd h3.symm h2
    · omega
  · intro r hr
    change Function.update m'.memoryMap p (m'.memoryMap p - 1) r = 1
    rw [Function.update_of_ne (by omega)]
    exact hacct.kernel r hr

/-- What a fault at the entry `t` below `x` leaves: that entry maps a page, which may be written
if the error code tells what the entry was, and no other entry has changed. -/
structure Serves (m m' : Memory) (S : Finset (ℕ × ℕ)) (x : ℕ × ℕ) (t : ℕ) (present : Bool) : Prop where
  others : ∀ y ∈ S, ∀ u, ¬ (y = x ∧ u = t) → m'.entryAt y u = m.entryAt y u
  mapped : (m'.entryAt x t).present
  write : (m.entryAt x t).present = present → (m'.entryAt x t).write

theorem Links.serves {x : ℕ × ℕ} {t : ℕ} (h : Links m m' S x t) : Serves m m' S x t false := by
  refine ⟨h.others, ?_, fun hp => ?_⟩
  · rcases h.entry with ⟨hp, he⟩ | ⟨-, q, he, -⟩
    · rw [he]
      exact hp
    · rw [he]
      rfl
  · rcases h.entry with ⟨hp', -⟩ | ⟨-, q, he, -⟩
    · rw [hp] at hp'
      cases hp'
    · rw [he]
      rfl

/-- The addresses whose faults are not segmentation faults. -/
def InRange (vaddr : UInt32) : Prop := USER_EXEC_ADDR ≤ vaddr ∧ vaddr < USER_STACK_TOP

theorem toNat_pageOf (vaddr : UInt32) : (pageOf vaddr).toNat = vaddr.toNat / 4096 * 4096 := by
  have := UInt32.toNat_lt vaddr
  have hp : PAGE_SIZE.toNat = 4096 := rfl
  rw [pageOf, UInt32.toNat_mul, UInt32.toNat_div, hp, Nat.mod_eq_of_lt (by omega)]

theorem pageOf_slot {vaddr : UInt32} : didx (pageOf vaddr) = didx vaddr ∧ tidx (pageOf vaddr) = tidx vaddr := by
  unfold didx tidx
  rw [toNat_pageOf]
  omega

theorem pageFault_serves (h : Acct m S extra) {task : Space} (hS : ∀ vaddr, UserAddr vaddr → (task.pde, didx vaddr) ∈ S)
    (vaddr : UInt32) (code : FaultCode) : Meets BadCount (m.pageFault task vaddr code) fun r =>
      (r = none → ¬ InRange vaddr) ∧ ∀ m', r = some m' → Keeps m m' S extra ∧
        InRange vaddr ∧ (code.present = false → vaddr < task.brk ∨ vaddr ≥ USER_STACK_BOTTOM) ∧
        (code.present → (m.entryAt (task.pde, didx vaddr) (tidx vaddr)).present) ∧
        Serves m m' S (task.pde, didx vaddr) (tidx vaddr) code.present := by
  unfold pageFault
  by_cases hr : vaddr < USER_EXEC_ADDR ∨ vaddr ≥ USER_STACK_TOP
  · rw [if_pos hr]
    refine Meets.assert_bind (fun _ => by decide) fun _ => meets_ok.mpr ⟨fun _ hin => ?_, nofun⟩
    exact hr.elim (UInt32.not_lt.mpr hin.1) (UInt32.not_le.mpr hin.2)
  rw [not_or, UInt32.not_lt, UInt32.not_le] at hr
  have hx := hS vaddr (.of_le hr.1 (UInt32.le_of_lt hr.2))
  rw [if_neg (by rw [not_or, UInt32.not_lt, UInt32.not_le]; exact hr)]
  set x := (task.pde, didx vaddr)
  set t := tidx vaddr
  have ht : t < 1024 := tidx_lt vaddr
  split_ifs with hcode hgrow
  · refine Meets.assert_bind (fun _ => by decide) fun _ => ?_
    apply (getTable_spec m task.pde vaddr).bind
    rintro ⟨_, _⟩ ⟨hr, hd⟩
    cases hr
    dsimp only
    rw [← entryAt_of_present hd]
    refine Meets.assert_bind (fun _ => by decide) fun hp => ?_
    have hpos := h.mapped_pos hx ht hp
    refine Meets.assert_bind (fun hb => absurd (show m.memoryMap (m.entryAt x t).index > 0 from hpos)
      (by simpa using hb)) fun _ => ?_
    refine Meets.assert_bind (fun _ => by decide) fun _ => Meets.assert_bind (fun _ => by decide) fun _ => ?_
    split_ifs with h1
    · have w := Writes.flags h (e := { m.entryAt x t with write := true }) hx ht hd rfl rfl
      refine meets_ok.mpr ⟨nofun, fun m' he => ?_⟩
      cases he
      refine ⟨⟨w.acct h, fun hc => w.cow h hc fun _ _ _ => h1, rfl⟩, hr, fun hc => ?_, fun _ => hp, ?_⟩
      · rw [hcode] at hc
        cases hc
      · refine ⟨fun y hy u hne => by rw [w.entryAt h hy, if_neg hne], ?_, fun _ => ?_⟩
        · rw [w.entryAt h hx, if_pos ⟨rfl, rfl⟩]
          exact hp
        · rw [w.entryAt h hx, if_pos ⟨rfl, rfl⟩]
    · apply (copyPage_spec h hx (h.mapped x hx t ht hp).1).bind
      rintro ⟨q, m₁⟩ ⟨hacct, hcow, hcopy⟩
      dsimp only at *
      have w := cowFault_writes h hx ht hd hp h1 hcopy hacct
      refine meets_ok.mpr ⟨nofun, fun m' he => ?_⟩
      cases he
      refine ⟨⟨w.acct hacct, fun hc => w.cow hacct (hcow hc) fun _ _ _ => ?_, hcopy.kernelMap⟩, hr, fun hc => ?_,
        fun _ => hp, fun y hy u hne => ?_, ?_, fun _ => ?_⟩
      rotate_left
      · rw [hcode] at hc
        cases hc
      · rw [w.entryAt hacct hy, if_neg hne, hcopy.entry y hy]
      · rw [w.entryAt hacct hx, if_pos ⟨rfl, rfl⟩]
        rfl
      · rw [w.entryAt hacct hx, if_pos ⟨rfl, rfl⟩]
        rfl
      have hne : q ≠ (m.entryAt x t).index := by
        intro he
        have := hcopy.frame.2.1
        rw [he] at this
        omega
      change Function.update m₁.memoryMap _ _ q = 1
      rw [Function.update_of_ne hne, hcopy.count, if_pos rfl]
  · refine (linkPage_spec h (hS (pageOf vaddr) ?_)).bind ?_
    · have hu : UserAddr vaddr := .of_le hr.1 (UInt32.le_of_lt hr.2)
      unfold UserAddr at hu ⊢
      rwa [pageOf_slot.1]
    · rw [pageOf_slot.1, pageOf_slot.2]
      rintro m₁ ⟨hacct, hcow, hlink⟩
      refine meets_ok.mpr ⟨nofun, fun m' he => ?_⟩
      cases he
      have hcode : code.present = false := by simpa using hcode
      rw [hcode]
      exact ⟨⟨hacct, hcow, hlink.grows.kernelMap⟩, hr, fun _ => hgrow, nofun, hlink.serves⟩
  · exact meets_error.mpr (by decide)

theorem pageFault_spec (h : Acct m S extra) {task : Space} (hS : ∀ vaddr, UserAddr vaddr → (task.pde, didx vaddr) ∈ S)
    (vaddr : UInt32) (code : FaultCode) : Meets BadCount (m.pageFault task vaddr code) fun r =>
      ∀ m', r = some m' → Keeps m m' S extra :=
  (pageFault_serves h hS vaddr code).imp fun _ hr m' he => (hr.2 m' he).1

/-! ### sys_brk and load_segment -/

theorem le_max (a b : UInt32) : a ≤ max a b := by
  change a ≤ if a ≤ b then b else a
  split_ifs with hab
  · exact hab
  · exact UInt32.le_refl a

/-- A walk that unlinks pages of the task. -/
theorem unlinkPages_spec (h : Acct m S extra) {pde : ℕ} {pages : List UInt32}
    (hS : ∀ page ∈ pages, (pde, didx page) ∈ S) :
    Meets BadCount (pages.foldlM (fun m page => m.unlinkPage pde page) m) fun m' => Keeps m m' S extra := by
  refine Meets.foldlM (I := fun _ m' => Keeps m m' S extra) (.refl h) ?_
  intro before page after hl m₁ hm₁
  apply (unlinkPage_spec hm₁.acct (hS page (by rw [hl]; simp))).imp
  rintro m₂ ⟨hacct, hcow, hun⟩
  exact hm₁.trans ⟨hacct, hcow, hun.kernelMap⟩

/-- The pages that a smaller heap gives back lie in the heap. -/
theorem brk_page {task : Space} (ht : SpaceOk task) {addr page : UInt32} (hlo : task.finish ≤ addr) (hbrk : task.brk > addr)
    (hp : page ∈ pagesFrom addr (divRoundUp (task.brk - addr) PAGE_SIZE).toNat) :
    USER_EXEC_ADDR ≤ page ∧ page < USER_MMAP_ADDR := by
  obtain ⟨i, hi, rfl⟩ := mem_pagesFrom.mp hp
  have h1 : 0x1000000 ≤ addr.toNat := UInt32.le_iff_toNat_le.mp (UInt32.le_trans ht.finish hlo)
  have h2 : task.brk.toNat ≤ 0x8000000 := UInt32.le_iff_toNat_le.mp ht.brk
  have h3 : addr.toNat < task.brk.toNat := UInt32.lt_iff_toNat_lt.mp hbrk
  have hsub : (task.brk - addr).toNat = task.brk.toNat - addr.toNat :=
    UInt32.toNat_sub_of_le _ _ (UInt32.le_of_lt hbrk)
  have hdiv : (divRoundUp (task.brk - addr) PAGE_SIZE).toNat = (task.brk.toNat - addr.toNat + 4095) / 4096 := by
    have hp : PAGE_SIZE.toNat = 4096 := rfl
    have hone : (1 : UInt32).toNat = 1 := rfl
    rw [divRoundUp, UInt32.toNat_div, UInt32.toNat_sub, UInt32.toNat_add, hsub, hp, hone]
    omega
  have hpage : (addr + PAGE_SIZE * UInt32.ofNat i).toNat = addr.toNat + 4096 * i := toNat_page (by omega)
  have hexec : USER_EXEC_ADDR.toNat = 0x1000000 := rfl
  have hmmap : USER_MMAP_ADDR.toNat = 0x8000000 := rfl
  exact ⟨UInt32.le_iff_toNat_le.mpr (by omega), UInt32.lt_iff_toNat_lt.mpr (by omega)⟩

theorem sysBrk_spec (h : Acct m S extra) {task : Space} (hS : ∀ vaddr, UserAddr vaddr → (task.pde, didx vaddr) ∈ S)
    (ht : SpaceOk task) (addr : UInt32) : Meets BadCount (m.sysBrk task addr) fun r =>
      Keeps m r.2.1 S extra ∧ r.2.2.pde = task.pde ∧ SpaceOk r.2.2 := by
  unfold sysBrk
  refine Meets.assert_bind (fun _ => by decide) fun _ => Meets.assert_bind (fun _ => by decide) fun _ =>
    Meets.assert_bind (fun _ => by decide) fun hr => ?_
  obtain ⟨hlo, hhi⟩ := of_decide_eq_true hr
  have hok : SpaceOk { task with brk := addr } := ⟨ht.finish, UInt32.le_of_lt hhi, ht.vmap⟩
  split_ifs with hbrk hfree
  · refine (unlinkPages_spec h fun page hp => hS page ?_).bind fun m' hm' =>
      meets_ok.mpr ⟨hm', rfl, hok⟩
    obtain ⟨h1, h2⟩ := brk_page ht hlo hbrk hp
    exact .of_le h1 (UInt32.le_of_lt (UInt32.lt_trans h2 (by decide)))
  · exact meets_ok.mpr ⟨.refl h, rfl, ht⟩
  · exact meets_ok.mpr ⟨.refl h, rfl, hok⟩

theorem loadSegment_spec (h : Acct m S extra) {task : Space}
    (hS : ∀ vaddr, UserAddr vaddr → (task.pde, didx vaddr) ∈ S) (ht : SpaceOk task)
    (vaddr align filesz memsz : UInt32) (writable : Bool) :
    Meets BadCount (m.loadSegment task vaddr align filesz memsz writable) fun r =>
      Keeps m r.1 S extra ∧ r.2.pde = task.pde ∧ SpaceOk r.2 := by
  unfold loadSegment
  refine Meets.assert_bind (fun _ => by decide) fun _ => Meets.assert_bind (fun _ => by decide) fun _ => ?_
  set count := divRoundUp (max memsz filesz) PAGE_SIZE
  set pages := pagesFrom vaddr count.toNat
  refine Meets.bind (Q := fun m' => Keeps m m' S extra ∧ ∀ page ∈ pages, UserAddr page) ?_ ?_
  · refine (Meets.foldlM (I := fun done m' => Keeps m m' S extra ∧ ∀ page ∈ done, UserAddr page) ?_ ?_)
    · exact ⟨.refl h, nofun⟩
    · rintro before page after - m₁ ⟨hm₁, hbefore⟩
      refine Meets.assert_bind (fun _ => by decide) fun hr => ?_
      obtain ⟨h1, h2⟩ := of_decide_eq_true hr
      have hpage : UserAddr page := .of_le h1 (UInt32.le_of_lt (UInt32.lt_trans h2 (by decide)))
      apply (linkPage_spec hm₁.acct (hS page hpage)).imp
      rintro m₂ ⟨hacct, hcow, hlink⟩
      refine ⟨hm₁.trans ⟨hacct, hcow, hlink.grows.kernelMap⟩, fun q hq => ?_⟩
      rcases List.mem_append.mp hq with hq | hq
      · exact hbefore q hq
      · rwa [List.mem_singleton.mp hq]
  · rintro m₁ ⟨hm₁, huser⟩
    have hok : SpaceOk { task with finish := max task.finish (vaddr + count * PAGE_SIZE) } :=
      ⟨UInt32.le_trans ht.finish (le_max _ _), ht.brk, ht.vmap⟩
    cases writable with
    | true => exact meets_ok.mpr ⟨hm₁, rfl, hok⟩
    | false =>
      refine Meets.bind (Q := fun m' => Keeps m m' S extra) ?_ fun m' hm' => meets_ok.mpr ⟨hm', rfl, hok⟩
      refine Meets.foldlM (I := fun _ m' => Keeps m m' S extra) hm₁ ?_
      intro before page after hl m₂ hm₂
      have hmem : page ∈ pages := by
        change page ∈ pagesFrom vaddr count.toNat
        rw [hl]
        simp
      apply (getTable_spec m₂ task.pde page).bind
      rintro ⟨_, _⟩ ⟨hr, hd⟩
      cases hr
      dsimp only
      rw [← entryAt_of_present hd]
      have w := Writes.flags hm₂.acct (e := { m₂.entryAt (task.pde, didx page) (tidx page) with
        write := false, readonly := true }) (hS page (huser page hmem)) (tidx_lt page) hd rfl rfl
      exact meets_ok.mpr
        (hm₂.trans ⟨w.acct hm₂.acct, fun hc => w.cow hm₂.acct hc (fun _ hw => nomatch hw), rfl⟩)

/-! ### sys_mmap and sys_munmap -/

/-- The page is not mapped, or no fork shares it, or it is to be shared. -/
def Alone (m : Memory) (pde : ℕ) (page : UInt32) : Prop :=
  (m.entryAt (pde, didx page) (tidx page)).present → (m.entryAt (pde, didx page) (tidx page)).shared = false →
    m.memoryMap (m.entryAt (pde, didx page) (tidx page)).index = 1

/-- What `sys_mmap` does not check: pages it makes writable, and not shared, are `Alone`. -/
def MmapAlone (m : Memory) (task : Space) (addr length prot flags : UInt32) : Prop :=
  prot &&& PROT_WRITE ≠ 0 → flags &&& MAP_SHARED = 0 →
    ∀ r, mmapArea task addr (divRoundUp length PAGE_SIZE).toNat = .ok r →
      ∀ page ∈ pagesFrom r.1 (divRoundUp length PAGE_SIZE).toNat, m.Alone task.pde page

instance (m : Memory) (pde : ℕ) (page : UInt32) : Decidable (m.Alone pde page) :=
  inferInstanceAs (Decidable (_ → _ → _))

instance (m : Memory) (task : Space) (addr length prot flags : UInt32) :
    Decidable (m.MmapAlone task addr length prot flags) :=
  decidable_of_iff (prot &&& PROT_WRITE ≠ 0 → flags &&& MAP_SHARED = 0 →
      (mmapArea task addr (divRoundUp length PAGE_SIZE).toNat).toOption.all (fun r =>
        (pagesFrom r.1 (divRoundUp length PAGE_SIZE).toNat).all fun page => m.Alone task.pde page) = true) <| by
    unfold MmapAlone
    cases mmapArea task addr (divRoundUp length PAGE_SIZE).toNat <;> simp [Except.toOption]

theorem mmapEntry_fields (e : PageEntry) (prot flags : UInt32) :
    (mmapEntry e prot flags).present = e.present ∧ (mmapEntry e prot flags).index = e.index ∧
      ((mmapEntry e prot flags).write = true ↔ prot &&& PROT_WRITE ≠ 0) ∧
      ((mmapEntry e prot flags).shared = (e.shared || decide (flags &&& MAP_SHARED ≠ 0))) := by
  unfold mmapEntry
  split_ifs <;> simp_all

/-- `link_page` leaves the pages that are `Alone` so. -/
theorem Links.alone {pde : ℕ} {page : UInt32} (h : Links m m' S (pde, didx page) (tidx page))
    {q : UInt32} (hq : (pde, didx q) ∈ S) (ha : m.Alone pde q) : m'.Alone pde q := by
  intro hp hs
  have hold : m'.entryAt (pde, didx q) (tidx q) = m.entryAt (pde, didx q) (tidx q) →
      m'.memoryMap (m'.entryAt (pde, didx q) (tidx q)).index = 1 := by
    intro he
    rw [he] at hp hs ⊢
    have h1 := ha hp hs
    rw [h.grows.count _ (by omega), h1]
  by_cases hsame : (pde, didx q) = (pde, didx page) ∧ tidx q = tidx page
  · rw [hsame.1, hsame.2] at hold ⊢
    rcases h.entry with ⟨-, he⟩ | ⟨-, f, he, h1, -⟩
    · exact hold he
    · rw [he]
      exact h1
  · exact hold (h.others _ hq _ hsame)

theorem bitmapSet_spec (map : Bitmap) (index : ℕ) (value : Bool) :
    Meets BadCount (map.bitmapSet index value) fun map' =>
      map.covers index ∧ map'.offset = map.offset ∧ map'.length = map.length := by
  refine Meets.assert_bind (fun _ => by decide) fun h1 => Meets.assert_bind (fun _ => by decide) fun h2 => ?_
  exact meets_ok.mpr ⟨Bitmap.covers_iff.mpr ⟨of_decide_eq_true h1, of_decide_eq_true h2⟩, rfl, rfl⟩

/-- One round of the loop of `sys_mmap`. -/
theorem mmapPage_spec (h : Acct m S extra) {pde : ℕ} {page : UInt32} (hx : (pde, didx page) ∈ S) (vmap : Bitmap)
    (prot flags : UInt32) : Meets BadCount (mmapPage pde prot flags (m, vmap) page) fun r =>
      Acct r.1 S extra ∧ r.1.kernelMap = m.kernelMap ∧
      (vmap.covers (pageIdx page) ∧ r.2.offset = vmap.offset ∧ r.2.length = vmap.length) ∧
      ((prot &&& PROT_WRITE ≠ 0 → flags &&& MAP_SHARED = 0 → m.Alone pde page) →
        (Cow m S → Cow r.1 S) ∧ ∀ q, (pde, didx q) ∈ S → m.Alone pde q → r.1.Alone pde q) := by
  apply (linkPage_spec h hx).bind
  rintro m₁ ⟨hacct, hcow, hlink⟩
  apply (bitmapSet_spec vmap (pageIdx page) true).bind
  intro vmap' hv
  apply (getTable_spec m₁ pde page).bind
  rintro ⟨_, _⟩ ⟨hr, hd⟩
  cases hr
  dsimp only
  rw [← entryAt_of_present hd]
  set x := (pde, didx page)
  set e := m₁.entryAt x (tidx page) with hedef
  obtain ⟨hpres, hidx, hwrite, hshared⟩ := mmapEntry_fields e prot flags
  have w := Writes.flags hacct (e := mmapEntry e prot flags) hx (tidx_lt page) hd hpres hidx
  refine meets_ok.mpr ⟨w.acct hacct, hlink.grows.kernelMap, hv, fun halone => ⟨fun hc => ?_, fun q hq ha => ?_⟩⟩
  · refine w.cow hacct (hcow hc) fun hp hw hs => ?_
    rw [hshared, Bool.or_eq_false_iff, decide_eq_false_iff_not, not_not] at hs
    have ha := hlink.alone hx (halone (hwrite.mp hw) hs.2)
    rw [hidx]
    exact ha (by rw [← hedef, ← hpres]; exact hp) hs.1
  · have ha₁ := hlink.alone hq ha
    intro hp hs
    rw [w.entryAt hacct hq] at hp hs ⊢
    split_ifs at hp hs ⊢ with hsame
    · rw [hshared, Bool.or_eq_false_iff] at hs
      rw [hidx]
      unfold Alone at ha₁
      rw [hsame.1, hsame.2] at ha₁
      exact ha₁ (by rw [← hedef, ← hpres]; exact hp) hs.1
    · exact ha₁ hp hs

/-- A walk over the mmap area stops at the first page that the area does not cover. -/
theorem walk_page {task : Space} (ht : SpaceOk task) {vmap : Bitmap} (hv : vmap.offset = task.vmap.offset ∧
    vmap.length = task.vmap.length) {vaddr page : UInt32} {count : ℕ} {before after : List UInt32}
    (hl : pagesFrom vaddr count = before ++ page :: after) (h1 : USER_MMAP_ADDR ≤ vaddr)
    (h2 : vaddr.toNat + 4096 * before.length < 0x10001000) : UserAddr page ∧
      (vmap.covers (pageIdx page) → vaddr.toNat + 4096 * (before ++ [page]).length < 0x10001000) := by
  have hpage : page.toNat = vaddr.toNat + 4096 * before.length := by
    rw [pagesFrom_split hl, toNat_page (by omega)]
  have h1 : 0x8000000 ≤ vaddr.toNat := UInt32.le_iff_toNat_le.mp h1
  refine ⟨.of_toNat (by omega) (by omega), fun hc => ?_⟩
  have hc : task.vmap.covers (pageIdx page) := by
    unfold Bitmap.covers at hc ⊢
    rwa [← hv.1, ← hv.2]
  have := covers_page ht hc
  rw [List.length_append, List.length_singleton]
  omega

theorem start_page {vaddr : UInt32} (h : vaddr < USER_STACK_BOTTOM) (before : List UInt32) (hb : before = []) :
    vaddr.toNat + 4096 * before.length < 0x10001000 := by
  have h : vaddr.toNat < 0xfe00000 := UInt32.lt_iff_toNat_lt.mp h
  simp only [hb, List.length_nil]
  omega

theorem mmapArea_spec (task : Space) (addr : UInt32) (count : ℕ) :
    Meets BadCount (mmapArea task addr count) fun r => mmapArea task addr count = .ok r ∧
      r.2.offset = task.vmap.offset ∧ r.2.length = task.vmap.length := by
  suffices H : Meets BadCount (mmapArea task addr count) fun r => r.2.offset = task.vmap.offset ∧
      r.2.length = task.vmap.length from ⟨fun r hr => ⟨hr, H.result r hr⟩, H.halt⟩
  unfold mmapArea
  split_ifs with h0
  · apply (scanPage_spec task.vmap count).bind
    rintro ⟨index, vmap⟩ ⟨-, hal⟩
    exact meets_ok.mpr ⟨hal.offset, hal.length⟩
  · exact meets_ok.mpr ⟨rfl, rfl⟩

theorem sysMmap_spec (h : Acct m S extra) {task : Space} (hS : ∀ vaddr, UserAddr vaddr → (task.pde, didx vaddr) ∈ S)
    (ht : SpaceOk task) (addr length prot flags : UInt32) :
    Meets BadCount (m.sysMmap task addr length prot flags) fun r => Acct r.2.1 S extra ∧
      (m.MmapAlone task addr length prot flags → Cow m S → Cow r.2.1 S) ∧ r.2.1.kernelMap = m.kernelMap ∧
      r.2.2.pde = task.pde ∧ SpaceOk r.2.2 := by
  unfold sysMmap MmapAlone
  refine Meets.assert_bind (fun _ => by decide) fun _ => ?_
  set count := (divRoundUp length PAGE_SIZE).toNat
  apply (mmapArea_spec task addr count).bind
  rintro ⟨vaddr, vmap⟩ ⟨harea, hvmap⟩
  dsimp only at *
  refine Meets.assert_bind (fun _ => by decide) fun hr => ?_
  obtain ⟨hlo, hhi⟩ := of_decide_eq_true hr
  set P := prot &&& PROT_WRITE ≠ 0 → flags &&& MAP_SHARED = 0 → ∀ r, mmapArea task addr count = .ok r →
    ∀ page ∈ pagesFrom r.1 count, m.Alone task.pde page
  refine Meets.bind (Q := fun r => Acct r.1 S extra ∧ r.1.kernelMap = m.kernelMap ∧
    (r.2.offset = task.vmap.offset ∧ r.2.length = task.vmap.length) ∧ (P → Cow m S → Cow r.1 S)) ?_ ?_
  · refine (Meets.foldlM (I := fun done r => (Acct r.1 S extra ∧ r.1.kernelMap = m.kernelMap ∧
      (r.2.offset = task.vmap.offset ∧ r.2.length = task.vmap.length) ∧
      vaddr.toNat + 4096 * done.length < 0x10001000) ∧ (P → (Cow m S → Cow r.1 S) ∧
        (prot &&& PROT_WRITE ≠ 0 → flags &&& MAP_SHARED = 0 → ∀ page ∈ pagesFrom vaddr count,
          (task.pde, didx page) ∈ S → r.1.Alone task.pde page))) ?_ ?_).imp ?_
    · exact ⟨⟨h, rfl, hvmap, start_page hhi [] rfl⟩, fun hP => ⟨id, fun h1 h2 page hp _ => hP h1 h2 _ harea page hp⟩⟩
    · rintro before page after hl ⟨m₁, vmap₁⟩ ⟨⟨hacct, hkmap, hv, hlen⟩, halone⟩
      dsimp only at *
      obtain ⟨huser, hnext⟩ := walk_page ht hv hl hlo hlen
      have hmem : page ∈ pagesFrom vaddr count := by rw [hl]; simp
      apply (mmapPage_spec hacct (hS page huser) vmap₁ prot flags).imp
      rintro ⟨m₂, vmap₂⟩ ⟨hacct₂, hkmap₂, ⟨hcov, hoff, hlen₂⟩, hcow⟩
      refine ⟨⟨hacct₂, hkmap₂.trans hkmap, ⟨hoff.trans hv.1, hlen₂.trans hv.2⟩, hnext hcov⟩, fun hP => ?_⟩
      obtain ⟨hc₁, ha₁⟩ := halone hP
      obtain ⟨hc₂, ha₂⟩ := hcow fun h1 h2 => ha₁ h1 h2 page hmem (hS page huser)
      exact ⟨fun hc => hc₂ (hc₁ hc), fun h1 h2 q hq hqS => ha₂ q hqS (ha₁ h1 h2 q hq hqS)⟩
    · rintro ⟨m', vmap'⟩ ⟨⟨hacct, hkmap, hv, -⟩, hcow⟩
      exact ⟨hacct, hkmap, hv, fun hP => (hcow hP).1⟩
  · rintro ⟨m', vmap'⟩ ⟨hacct, hkmap, hv, hcow⟩
    refine meets_ok.mpr ⟨hacct, hcow, hkmap, rfl, ht.finish, ht.brk, ?_⟩
    have := ht.vmap
    rwa [← hv.1, ← hv.2] at this

theorem sysMunmap_spec (h : Acct m S extra) {task : Space} (hS : ∀ vaddr, UserAddr vaddr → (task.pde, didx vaddr) ∈ S)
    (ht : SpaceOk task) (addr length : UInt32) : Meets BadCount (m.sysMunmap task addr length) fun r =>
      Keeps m r.1 S extra ∧ r.2.pde = task.pde ∧ SpaceOk r.2 := by
  unfold sysMunmap
  refine Meets.assert_bind (fun _ => by decide) fun hr => Meets.assert_bind (fun _ => by decide) fun _ => ?_
  obtain ⟨hlo, hhi⟩ := of_decide_eq_true hr
  refine Meets.bind (Q := fun r => Keeps m r.1 S extra ∧
    (r.2.offset = task.vmap.offset ∧ r.2.length = task.vmap.length)) ?_ ?_
  · refine (Meets.foldlM (I := fun done r => Keeps m r.1 S extra ∧
      (r.2.offset = task.vmap.offset ∧ r.2.length = task.vmap.length) ∧
      addr.toNat + 4096 * done.length < 0x10001000) ?_ ?_).imp fun r hr => ⟨hr.1, hr.2.1⟩
    · exact ⟨.refl h, ⟨rfl, rfl⟩, start_page hhi [] rfl⟩
    · rintro before page after hl ⟨m₁, vmap₁⟩ ⟨hm₁, hv, hlen⟩
      dsimp only at *
      obtain ⟨huser, hnext⟩ := walk_page ht hv hl hlo hlen
      apply (unlinkPage_spec hm₁.acct (hS page huser)).bind
      rintro m₂ ⟨hacct, hcow, hun⟩
      refine Meets.bind (Q := fun _ => True) ?_ fun b _ => Meets.assert_bind (fun _ => by decide) fun _ => ?_
      · exact Meets.assert_bind (fun _ => by decide) fun _ =>
          Meets.assert_bind (fun _ => by decide) fun _ => meets_ok.mpr trivial
      · apply (bitmapSet_spec vmap₁ (pageIdx page) false).bind
        rintro vmap₂ ⟨hcov, hoff, hlen₂⟩
        exact meets_ok.mpr ⟨hm₁.trans ⟨hacct, hcow, hun.kernelMap⟩, ⟨hoff.trans hv.1, hlen₂.trans hv.2⟩,
          hnext hcov⟩
  · rintro ⟨m', vmap'⟩ ⟨hm', hv⟩
    refine meets_ok.mpr ⟨hm', rfl, ht.finish, ht.brk, ?_⟩
    have := ht.vmap
    rwa [← hv.1, ← hv.2] at this

end Memory
end Onix
