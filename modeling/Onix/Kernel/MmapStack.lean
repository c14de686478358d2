import Onix.Kernel.MmapArea

/-! What a mapping of `sys_mmap` takes, against the pages that are left to the stack. -/

set_option autoImplicit false

namespace Onix

open Memory Lib Finset

namespace Memory

variable {m m' : Memory} {S : Finset (ℕ × ℕ)} {extra : ℕ → ℕ}

/-- Off the pages the entries are as before. -/
def KeptOff (m m' : Memory) (S : Finset (ℕ × ℕ)) (pde : ℕ) (pages : List UInt32) : Prop :=
  ∀ y ∈ S, ∀ u, AtPages pde pages y u = false → m'.entryAt y u = m.entryAt y u

theorem KeptOff.snoc {m₁ : Memory} {pde : ℕ} {pages : List UInt32} {page : UInt32} (h : KeptOff m m₁ S pde pages)
    (hl : ∀ y ∈ S, ∀ u, ¬ AtPage pde page y u → m'.entryAt y u = m₁.entryAt y u) :
    KeptOff m m' S pde (pages ++ [page]) := by
  intro y hy u hoff
  rw [atPages_append, Bool.or_eq_false_iff, decide_eq_false_iff_not] at hoff
  rw [hl y hy u hoff.2, h y hy u hoff.1]

theorem length_pagesFrom (vaddr : UInt32) (count : ℕ) : (pagesFrom vaddr count).length = count := by
  simp [pagesFrom]

/-- The loop of `sys_mmap` writes the entries of its pages, and ends below the end of the bitmap. -/
theorem mmapPages_kept (h : Acct m S extra) {task : Space} (hS : ∀ vaddr, UserAddr vaddr → (task.pde, didx vaddr) ∈ S)
    (ht : SpaceOk task) {vmap : Bitmap} (hv : vmap.offset = task.vmap.offset ∧ vmap.length = task.vmap.length)
    {vaddr : UInt32} (hlo : USER_MMAP_ADDR ≤ vaddr) (hhi : vaddr < USER_STACK_BOTTOM) (count : ℕ)
    (prot flags : UInt32) :
    Meets BadCount ((pagesFrom vaddr count).foldlM (mmapPage task.pde prot flags) (m, vmap)) fun r =>
      vaddr.toNat + 4096 * count < 0x10001000 ∧ KeptOff m r.1 S task.pde (pagesFrom vaddr count) := by
  refine (Meets.foldlM (I := fun done r => Acct r.1 S extra ∧ vaddr.toNat + 4096 * done.length < 0x10001000 ∧
    KeptOff m r.1 S task.pde done ∧ r.2.offset = vmap.offset ∧ r.2.length = vmap.length) ?_ ?_).imp
    fun r hr => ⟨by simpa [length_pagesFrom] using hr.2.1, hr.2.2.1⟩
  · exact ⟨h, start_page hhi [] rfl, fun _ _ _ _ => rfl, rfl, rfl⟩
  · rintro before page after hl ⟨m₁, vmap₁⟩ ⟨hacct, hlen, hkept, hoff, hlength⟩
    dsimp only at *
    obtain ⟨huser, hnext⟩ := walk_page ht ⟨hoff.trans hv.1, hlength.trans hv.2⟩ hl hlo hlen
    apply (linkPage_spec hacct (hS page huser)).bind
    rintro m₂ ⟨hacct₂, -, hlink⟩
    apply (bitmapSet_marked vmap₁ (pageIdx page) true).bind
    rintro vmap₂ ⟨hcov, hoff₂, hlength₂, -⟩
    apply (getTable_spec m₂ task.pde page).bind
    rintro ⟨_, _⟩ ⟨hr, hd⟩
    cases hr
    dsimp only
    rw [← entryAt_of_present hd]
    set e := m₂.entryAt (task.pde, didx page) (tidx page) with hedef
    obtain ⟨hpres, hidx, -⟩ := mmapEntry_fields e prot flags
    have w := Writes.flags hacct₂ (e := mmapEntry e prot flags) (hS page huser) (tidx_lt page) hd hpres hidx
    refine meets_ok.mpr ⟨w.acct hacct₂, hnext hcov, hkept.snoc fun y hy u hat => ?_, hoff₂.trans hoff,
      hlength₂.trans hlength⟩
    rw [w.entryAt hacct₂ hy]
    exact (if_neg hat).trans (hlink.others y hy u hat)

/-- A call that returns: it was given a page, stays in the bitmap, and writes the entries of its pages. -/
theorem sysMmap_kept (h : Acct m S extra) {task : Space} (hS : ∀ vaddr, UserAddr vaddr → (task.pde, didx vaddr) ∈ S)
    (ht : SpaceOk task) (addr length prot flags : UInt32) :
    Meets BadCount (m.sysMmap task addr length prot flags) fun r => aligned addr = true ∧
      (USER_MMAP_ADDR ≤ r.1 ∧ r.1 < USER_STACK_BOTTOM) ∧
      r.1.toNat + 4096 * (divRoundUp length PAGE_SIZE).toNat < 0x10001000 ∧
      KeptOff m r.2.1 S task.pde (pagesFrom r.1 (divRoundUp length PAGE_SIZE).toNat) := by
  unfold sysMmap
  refine Meets.assert_bind (fun _ => by decide) fun haligned => ?_
  set count := (divRoundUp length PAGE_SIZE).toNat
  apply (mmapArea_sets ht addr count).bind
  rintro ⟨vaddr, vmap⟩ ⟨hv, -⟩
  dsimp only at *
  refine Meets.assert_bind (fun _ => by decide) fun hr => ?_
  obtain ⟨hlo, hhi⟩ := of_decide_eq_true hr
  apply (mmapPages_kept h hS ht hv hlo hhi count prot flags).bind
  rintro ⟨m', vmap'⟩ ⟨hend, hkept⟩
  exact meets_ok.mpr ⟨haligned, ⟨hlo, hhi⟩, hend, hkept⟩

end Memory

namespace Machine

variable {s : Machine} {pde : ℕ} {addr length prot flags : UInt32} {r : UInt32 × Memory × Space}

/-- The pages that are left to the stack. -/
def InStack (page : ℕ) : Prop := pageIdx USER_STACK_BOTTOM ≤ page ∧ page < pageIdx USER_STACK_TOP

/-- The number of pages of a mapping. -/
def pageCount (length : UInt32) : ℕ := (divRoundUp length PAGE_SIZE).toNat

/-- What a mapping is to keep to. -/
structure Contained (s : Machine) (pde : ℕ) (addr length : UInt32) (r : UInt32 × Memory × Space) : Prop where
  area : ∀ page ∈ pagesFrom r.1 (pageCount length), InArea (pageIdx page)
  fresh : addr = 0 → ∀ page ∈ pagesFrom r.1 (pageCount length), (s.walk pde page).present = false
  bits : ∀ i, InStack i → r.2.2.vmap.marked i = (s.space pde).vmap.marked i
  entries : ∀ i t, t < 1024 → InStack (i * 1024 + t) → r.2.1.entryAt (pde, i) t = s.mem.entryAt (pde, i) t

/-- For NULL there is room below the stack, else the range ends below it. -/
def EndsBelow (task : Space) (addr length : UInt32) : Prop :=
  if addr = 0 then task.vmap.RoomBelow (pageIdx USER_STACK_BOTTOM) (pageCount length)
  else addr.toNat + 4096 * pageCount length ≤ USER_STACK_BOTTOM.toNat

/-- The pages of a range that ends below the end of the bitmap. -/
theorem pageIdx_from {vaddr : UInt32} {count i : ℕ} (hend : vaddr.toNat + 4096 * count < 0x10001000) (hi : i < count) :
    pageIdx (vaddr + PAGE_SIZE * UInt32.ofNat i) = vaddr.toNat / 4096 + i := by
  unfold pageIdx
  rw [toNat_page (by omega)]
  omega

/-- A mapping in the area leaves the stack alone. -/
theorem contained_of_area {es : List Call} (h : Run Booted (Restrict Listed Step) es s) (hp : s.UserDir pde)
    (hr : s.mem.sysMmap (s.space pde) addr length prot flags = .ok r)
    (harea : ∀ page ∈ pagesFrom r.1 (pageCount length), InArea (pageIdx page))
    (hfresh : addr = 0 → ∀ page ∈ pagesFrom r.1 (pageCount length), (s.walk pde page).present = false) :
    Contained s pde addr length r := by
  obtain ⟨hok, hag⟩ := run_agrees h
  obtain ⟨hpde, hspace⟩ := hok.space pde hp.1
  obtain ⟨-, -, -, hkept⟩ := (sysMmap_kept hok.acct (hok.slot hp.1) hspace addr length prot flags).result r hr
  obtain ⟨-, hsets, -, -⟩ := (sysMmap_area hok.acct (hok.slot hp.1) hspace addr length prot flags).result r hr
  have hlo : pageIdx USER_MMAP_ADDR = 0x8000 := by decide
  have hbottom : pageIdx USER_STACK_BOTTOM = 0xfe00 := by decide
  have htop : pageIdx USER_STACK_TOP = 0x10000 := by decide
  have hoff : ∀ i, InStack i → OnPages (pagesFrom r.1 (pageCount length)) i = false := fun i hi =>
    List.any_eq_false.mpr fun page hpage he => by
      have := (harea page hpage).2
      rw [of_decide_eq_true he] at this
      exact absurd hi.1 (not_le.mpr this)
  refine ⟨harea, hfresh, fun i hi => ?_, fun i t ht hi => ?_⟩
  · have hlow : (s.space pde).vmap.offset ≤ i := by
      rw [(hag pde hp.1).offset hp.2]
      have := hi.1
      omega
    rw [hsets.marked i hlow]
    change (_ || OnPages (pagesFrom r.1 (pageCount length)) i) = _
    rw [hoff i hi, Bool.or_false]
  · have hslot : (pde, i) ∈ slots s.live := by
      rw [mem_slots]
      obtain ⟨h1, h2⟩ := hi
      have hdirs : KERNEL_DIRS = 4 := rfl
      exact ⟨hp.1, by dsimp only; omega⟩
    refine hkept (pde, i) hslot t ?_
    rw [hpde, atPages_iff ht]
    exact hoff _ hi

/-- `sys_mmap` checks where a mapping starts and not where it ends. -/
theorem mmap_contained {es : List Call} (h : Run Booted (Restrict Listed Step) es s) (hp : s.UserDir pde)
    (hr : s.mem.sysMmap (s.space pde) addr length prot flags = .ok r) :
    Contained s pde addr length r ↔ EndsBelow (s.space pde) addr length := by
  obtain ⟨hok, hag⟩ := run_agrees h
  obtain ⟨haligned, ⟨hlo, hhi⟩, hend, -⟩ :=
    (sysMmap_kept hok.acct (hok.slot hp.1) (hok.space pde hp.1).2 addr length prot flags).result r hr
  unfold EndsBelow
  by_cases h0 : addr = 0
  · subst h0
    obtain ⟨hroom, hfree⟩ := sysMmap_room hok hag hp hr
    rw [if_pos rfl]
    exact ⟨fun c => hroom.mpr c.area, fun hb => contained_of_area h hp hr (hroom.mp hb) fun _ => hfree hb⟩
  · obtain ⟨vmap, hstart⟩ := sysMmap_start hr
    rw [mmapArea, if_neg h0] at hstart
    have haddr : r.1 = addr := congrArg Prod.fst (Except.ok.inj hstart).symm
    have haligned : addr.toNat % 4096 = 0 := by
      have := congrArg UInt32.toNat (beq_iff_eq.mp haligned)
      rwa [UInt32.toNat_mod] at this
    have hlo : 0x8000000 ≤ r.1.toNat := UInt32.le_iff_toNat_le.mp hlo
    have hhi : r.1.toNat < 0xfe00000 := UInt32.lt_iff_toNat_lt.mp hhi
    have hbottom : USER_STACK_BOTTOM.toNat = 0xfe00000 := rfl
    have hends : pageIdx USER_MMAP_ADDR = 0x8000 ∧ pageIdx USER_STACK_BOTTOM = 0xfe00 := by decide
    change r.1.toNat + 4096 * pageCount length < _ at hend
    rw [haddr] at hlo hhi hend
    rw [if_neg h0, hbottom]
    constructor
    · intro c
      by_cases hcount : pageCount length = 0
      · rw [hcount]
        omega
      -- the last page is in the area
      have hlast := (c.area _ (mem_pagesFrom.mpr ⟨pageCount length - 1, by omega, rfl⟩)).2
      rw [haddr, pageIdx_from hend (by omega), hends.2] at hlast
      omega
    · intro hb
      refine contained_of_area h hp hr (fun page hpage => ?_) fun hz => absurd hz h0
      obtain ⟨i, hi, rfl⟩ := mem_pagesFrom.mp hpage
      rw [haddr, pageIdx_from hend hi, InArea, hends.1, hends.2]
      omega

/-- One page at the start of the area. -/
theorem mmap_contained_page : ∃ es s r, Run Booted (Restrict Listed Step) es s ∧ s.UserDir 258 ∧
    s.mem.sysMmap (s.space 258) USER_MMAP_ADDR 1 PROT_WRITE MAP_PRIVATE = .ok r ∧
    Contained s 258 USER_MMAP_ADDR 1 r := by
  have hsome : ((replay attemptListed smallMachine [.userMode]).map fun r => decide (r.2.UserDir 258) &&
      (r.2.mem.sysMmap (r.2.space 258) USER_MMAP_ADDR 1 PROT_WRITE MAP_PRIVATE).isOk) = some true := by
    decide +kernel
  obtain ⟨⟨es, s⟩, hes, hd⟩ := Option.map_eq_some_iff.mp hsome
  obtain ⟨hdir, hok⟩ := Bool.and_eq_true_iff.mp hd
  have hr := run_listed ⟨_, _, rfl⟩ hes
  cases hmap : s.mem.sysMmap (s.space 258) USER_MMAP_ADDR 1 PROT_WRITE MAP_PRIVATE with
  | error e =>
    rw [hmap] at hok
    cases hok
  | ok r =>
    refine ⟨es, s, r, hr, of_decide_eq_true hdir, hmap, (mmap_contained hr (of_decide_eq_true hdir) hmap).mpr ?_⟩
    rw [EndsBelow, if_neg (by decide)]
    decide

/-- Two pages from the last one below the stack: the second belongs to the stack. -/
theorem mmap_takes_stack : ¬ ∀ es s, Run Booted (Restrict Listed Step) es s → ∀ pde, s.UserDir pde →
    ∀ addr length prot flags r, 0 < length → s.mem.sysMmap (s.space pde) addr length prot flags = .ok r →
      Contained s pde addr length r := by
  intro hall
  have hsome : ((replay attemptListed smallMachine [.userMode]).map fun r => decide (r.2.UserDir 258) &&
      (r.2.mem.sysMmap (r.2.space 258) (USER_STACK_BOTTOM - 4096) 8192 PROT_WRITE MAP_PRIVATE).isOk) = some true := by
    decide +kernel
  obtain ⟨⟨es, s⟩, hes, hd⟩ := Option.map_eq_some_iff.mp hsome
  obtain ⟨hdir, hok⟩ := Bool.and_eq_true_iff.mp hd
  have hr := run_listed ⟨_, _, rfl⟩ hes
  cases hmap : s.mem.sysMmap (s.space 258) (USER_STACK_BOTTOM - 4096) 8192 PROT_WRITE MAP_PRIVATE with
  | error e =>
    rw [hmap] at hok
    cases hok
  | ok r =>
    have hcontained := hall es s hr 258 (of_decide_eq_true hdir) _ _ _ _ r (by decide) hmap
    obtain ⟨vmap, hstart⟩ := sysMmap_start hmap
    have haddr : r.1 = USER_STACK_BOTTOM - 4096 := congrArg Prod.fst (Except.ok.inj hstart).symm
    have := (hcontained.area USER_STACK_BOTTOM (by
      rw [haddr]
      exact mem_pagesFrom.mpr ⟨1, by decide, by decide⟩)).2
    exact absurd this (lt_irrefl _)

end Machine
end Onix
