import Onix.Kernel.Faults
import Onix.Kernel.Fork

/-! The two records of what is mapped in the area of `sys_mmap`: the bitmap `vmap` of the task and the
page tables. Each call is described by the pages that it maps or unmaps, and the calls that
move bits and entries move the same ones. The bitmap reaches to the top of the stack,
though, and the pages of the stack are mapped without it. -/

set_option autoImplicit false

namespace Onix

open Memory Lib Finset

namespace Memory

variable {m m' : Memory} {S : Finset (ℕ × ℕ)} {extra : ℕ → ℕ}

/-- The entry `u` below `y` is the one of the page in the directory `pde`. -/
def AtPage (pde : ℕ) (page : UInt32) (y : ℕ × ℕ) (u : ℕ) : Prop := y = (pde, didx page) ∧ u = tidx page

instance (pde : ℕ) (page : UInt32) (y : ℕ × ℕ) (u : ℕ) : Decidable (AtPage pde page y u) :=
  inferInstanceAs (Decidable (_ ∧ _))

theorem pageIdx_eq (page : UInt32) : pageIdx page = didx page * 1024 + tidx page := by
  have := UInt32.toNat_lt page
  unfold pageIdx didx tidx
  omega

theorem atPage_iff {pde i u : ℕ} {page : UInt32} (hu : u < 1024) :
    AtPage pde page (pde, i) u ↔ pageIdx page = i * 1024 + u := by
  have := tidx_lt page
  rw [AtPage, pageIdx_eq, Prod.mk.injEq]
  omega

/-- One of the pages has its entry `u` below `y`. -/
def AtPages (pde : ℕ) (pages : List UInt32) (y : ℕ × ℕ) (u : ℕ) : Bool := pages.any fun page => AtPage pde page y u

/-- One of the pages has the index `index`. -/
def OnPages (pages : List UInt32) (index : ℕ) : Bool := pages.any fun page => pageIdx page = index

theorem atPages_iff {pde i u : ℕ} {pages : List UInt32} (hu : u < 1024) :
    AtPages pde pages (pde, i) u = OnPages pages (i * 1024 + u) := by
  unfold AtPages OnPages
  congr 1
  funext page
  exact decide_eq_decide.mpr (atPage_iff hu)

theorem atPages_ne {pde : ℕ} {pages : List UInt32} {y : ℕ × ℕ} (hy : y.1 ≠ pde) (u : ℕ) :
    AtPages pde pages y u = false := by
  simp only [AtPages, List.any_eq_false, decide_eq_true_eq]
  rintro page - ⟨rfl, -⟩
  exact hy rfl

theorem atPages_append (pde : ℕ) (pages : List UInt32) (page : UInt32) (y : ℕ × ℕ) (u : ℕ) :
    AtPages pde (pages ++ [page]) y u = (AtPages pde pages y u || decide (AtPage pde page y u)) := by
  simp [AtPages]

/-- `m'` maps what `m` maps and the pages. -/
def Mapped (m m' : Memory) (S : Finset (ℕ × ℕ)) (pde : ℕ) (pages : List UInt32) : Prop :=
  ∀ y ∈ S, ∀ u, (m'.entryAt y u).present = ((m.entryAt y u).present || AtPages pde pages y u)

/-- `m'` maps what `m` maps, less the pages. -/
def Unmapped (m m' : Memory) (S : Finset (ℕ × ℕ)) (pde : ℕ) (pages : List UInt32) : Prop :=
  ∀ y ∈ S, ∀ u, (m'.entryAt y u).present = ((m.entryAt y u).present && !AtPages pde pages y u)

theorem Mapped.nil (pde : ℕ) : Mapped m m S pde [] := fun _ _ _ => (Bool.or_false _).symm

theorem Unmapped.nil (pde : ℕ) : Unmapped m m S pde [] := fun _ _ _ => (Bool.and_true _).symm

theorem Mapped.snoc {m₁ : Memory} {pde : ℕ} {pages : List UInt32} {page : UInt32} (h : Mapped m m₁ S pde pages)
    (hl : Links m₁ m' S (pde, didx page) (tidx page)) : Mapped m m' S pde (pages ++ [page]) := by
  intro y hy u
  rw [atPages_append]
  by_cases hat : AtPage pde page y u
  · have hpres := hl.serves.mapped
    rw [decide_eq_true hat, Bool.or_true, Bool.or_true, hat.1, hat.2]
    exact hpres
  · rw [hl.others y hy u hat, h y hy u, decide_eq_false hat, Bool.or_false]

theorem Unmapped.snoc {m₁ : Memory} {pde : ℕ} {pages : List UInt32} {page : UInt32} (h : Unmapped m m₁ S pde pages)
    (hl : Unlinks m₁ m' S (pde, didx page) (tidx page)) : Unmapped m m' S pde (pages ++ [page]) := by
  intro y hy u
  rw [atPages_append]
  by_cases hat : AtPage pde page y u
  · rw [decide_eq_true hat, Bool.or_true, hat.1, hat.2, hl.entry]
    exact (Bool.and_false _).symm
  · rw [hl.others y hy u hat, h y hy u, decide_eq_false hat, Bool.or_false]

/-- A write of flags maps what was mapped. -/
theorem Mapped.flags {m₁ : Memory} {pde : ℕ} {pages : List UInt32} {x : ℕ × ℕ} {t : ℕ} {e : PageEntry}
    (h : Mapped m m₁ S pde pages) (hacct : Acct m₁ S extra) (w : Writes m₁ m' S extra extra x t e)
    (he : e.present = (m₁.entryAt x t).present) : Mapped m m' S pde pages := by
  intro y hy u
  rw [w.entryAt hacct hy, ← h y hy u]
  split_ifs with hat
  · rw [hat.1, hat.2, he]
  · rfl

/-! ### sys_brk and load_segment -/

/-- Below the area of `sys_mmap` the pages of the task in `pde` may come and go, all else is as mapped as before. -/
def SameAbove (m m' : Memory) (S : Finset (ℕ × ℕ)) (pde : ℕ) : Prop :=
  ∀ y ∈ S, ∀ u, u < 1024 → (y.1 = pde → pageIdx USER_MMAP_ADDR ≤ y.2 * 1024 + u) →
    (m'.entryAt y u).present = (m.entryAt y u).present

theorem atPages_low {pde : ℕ} {pages : List UInt32} (hlow : ∀ page ∈ pages, page < USER_MMAP_ADDR) {y : ℕ × ℕ} {u : ℕ}
    (hu : u < 1024) (hy : y.1 = pde → pageIdx USER_MMAP_ADDR ≤ y.2 * 1024 + u) : AtPages pde pages y u = false := by
  by_cases hne : y.1 = pde
  · obtain ⟨_, i⟩ := y
    cases hne
    have hy := hy rfl
    rw [atPages_iff hu]
    simp only [OnPages, List.any_eq_false, decide_eq_true_eq]
    intro page hp heq
    have hlt : page.toNat < 0x8000000 := UInt32.lt_iff_toNat_lt.mp (hlow page hp)
    have harea : pageIdx USER_MMAP_ADDR = 0x8000 := by decide
    unfold pageIdx at heq
    dsimp only at hy
    omega
  · exact atPages_ne hne u

theorem Mapped.sameAbove {pde : ℕ} {pages : List UInt32} (h : Mapped m m' S pde pages)
    (hlow : ∀ page ∈ pages, page < USER_MMAP_ADDR) : SameAbove m m' S pde := by
  intro y hy u hu hpde
  rw [h y hy u, atPages_low hlow hu hpde, Bool.or_false]

theorem Unmapped.sameAbove {pde : ℕ} {pages : List UInt32} (h : Unmapped m m' S pde pages)
    (hlow : ∀ page ∈ pages, page < USER_MMAP_ADDR) : SameAbove m m' S pde := by
  intro y hy u hu hpde
  rw [h y hy u, atPages_low hlow hu hpde]
  exact Bool.and_true _

theorem unlinkPages_unmapped (h : Acct m S extra) {pde : ℕ} {pages : List UInt32}
    (hS : ∀ page ∈ pages, (pde, didx page) ∈ S) :
    Meets BadCount (pages.foldlM (fun m page => m.unlinkPage pde page) m) fun m' => Unmapped m m' S pde pages := by
  refine (Meets.foldlM (I := fun done m' => Acct m' S extra ∧ Unmapped m m' S pde done) ⟨h, .nil pde⟩ ?_).imp
    fun _ hm => hm.2
  intro before page after hl m₁ ⟨hacct, hun⟩
  apply (unlinkPage_spec hacct (hS page (by rw [hl]; simp))).imp
  exact fun m₂ ⟨hacct₂, _, hun₂⟩ => ⟨hacct₂, hun.snoc hun₂⟩

/-- What a call that does not use the area leaves of the task and its pages. -/
structure OffArea (m m' : Memory) (S : Finset (ℕ × ℕ)) (task task' : Space) : Prop where
  pages : SameAbove m m' S task.pde
  vmap : task'.vmap = task.vmap
  user : task'.user = task.user

theorem sysBrk_area (h : Acct m S extra) {task : Space} (hS : ∀ vaddr, UserAddr vaddr → (task.pde, didx vaddr) ∈ S)
    (ht : SpaceOk task) (addr : UInt32) : Meets BadCount (m.sysBrk task addr) fun r => OffArea m r.2.1 S task r.2.2 := by
  unfold sysBrk
  refine Meets.assert_bind (fun _ => by decide) fun _ => Meets.assert_bind (fun _ => by decide) fun _ =>
    Meets.assert_bind (fun _ => by decide) fun hr => ?_
  obtain ⟨hlo, -⟩ := of_decide_eq_true hr
  split_ifs with hbrk hfree
  · have hpages : ∀ page ∈ pagesFrom addr (divRoundUp (task.brk - addr) PAGE_SIZE).toNat,
        USER_EXEC_ADDR ≤ page ∧ page < USER_MMAP_ADDR := fun page hp => brk_page ht hlo hbrk hp
    refine (unlinkPages_unmapped h fun page hp => hS page ?_).bind fun m' hm' =>
      meets_ok.mpr ⟨hm'.sameAbove fun page hp => (hpages page hp).2, rfl, rfl⟩
    obtain ⟨h1, h2⟩ := hpages page hp
    exact .of_le h1 (UInt32.le_of_lt (UInt32.lt_trans h2 (by decide)))
  · exact meets_ok.mpr ⟨fun _ _ _ _ _ => rfl, rfl, rfl⟩
  · exact meets_ok.mpr ⟨fun _ _ _ _ _ => rfl, rfl, rfl⟩

theorem loadSegment_area (h : Acct m S extra) {task : Space}
    (hS : ∀ vaddr, UserAddr vaddr → (task.pde, didx vaddr) ∈ S) (vaddr align filesz memsz : UInt32) (writable : Bool) :
    Meets BadCount (m.loadSegment task vaddr align filesz memsz writable) fun r => OffArea m r.1 S task r.2 := by
  unfold loadSegment
  refine Meets.assert_bind (fun _ => by decide) fun _ => Meets.assert_bind (fun _ => by decide) fun _ => ?_
  set pages := pagesFrom vaddr (divRoundUp (max memsz filesz) PAGE_SIZE).toNat
  refine Meets.bind (Q := fun m' => Acct m' S extra ∧ Mapped m m' S task.pde pages ∧
    ∀ page ∈ pages, UserAddr page ∧ page < USER_MMAP_ADDR) ?_ ?_
  · refine Meets.foldlM (I := fun done m' => Acct m' S extra ∧ Mapped m m' S task.pde done ∧
      ∀ page ∈ done, UserAddr page ∧ page < USER_MMAP_ADDR) ⟨h, .nil _, nofun⟩ ?_
    rintro before page after - m₁ ⟨hacct, hmapped, hbefore⟩
    refine Meets.assert_bind (fun _ => by decide) fun hr => ?_
    obtain ⟨h1, h2⟩ := of_decide_eq_true hr
    have hpage : UserAddr page := .of_le h1 (UInt32.le_of_lt (UInt32.lt_trans h2 (by decide)))
    apply (linkPage_spec hacct (hS page hpage)).imp
    rintro m₂ ⟨hacct₂, -, hlink⟩
    refine ⟨hacct₂, hmapped.snoc hlink, fun q hq => ?_⟩
    rcases List.mem_append.mp hq with hq | hq
    · exact hbefore q hq
    · rw [List.mem_singleton.mp hq]
      exact ⟨hpage, h2⟩
  · rintro m₁ ⟨hacct, hmapped, hpages⟩
    have hlow : ∀ page ∈ pages, page < USER_MMAP_ADDR := fun page hp => (hpages page hp).2
    cases writable with
    | true => exact meets_ok.mpr ⟨hmapped.sameAbove hlow, rfl, rfl⟩
    | false =>
      refine Meets.bind (Q := fun m' => Acct m' S extra ∧ Mapped m m' S task.pde pages) ?_ fun m' hm' =>
        meets_ok.mpr ⟨hm'.2.sameAbove hlow, rfl, rfl⟩
      refine Meets.foldlM (I := fun _ m' => Acct m' S extra ∧ Mapped m m' S task.pde pages) ⟨hacct, hmapped⟩ ?_
      intro before page after hl m₂ ⟨hacct₂, hmapped₂⟩
      have hmem : page ∈ pages := by
        change page ∈ pagesFrom vaddr _
        rw [hl]
        simp
      apply (getTable_spec m₂ task.pde page).bind
      rintro ⟨_, _⟩ ⟨hr, hd⟩
      cases hr
      dsimp only
      rw [← entryAt_of_present hd]
      have w := Writes.flags hacct₂ (e := { m₂.entryAt (task.pde, didx page) (tidx page) with
        write := false, readonly := true }) (hS page (hpages page hmem).1) (tidx_lt page) hd rfl rfl
      exact meets_ok.mpr ⟨w.acct hacct₂, hmapped₂.flags hacct₂ w rfl⟩

/-! ### sys_mmap and sys_munmap -/

/-- `vmap'` is `vmap` with the bits of the pages set. -/
structure Sets (vmap vmap' : Bitmap) (pages : List UInt32) : Prop where
  offset : vmap'.offset = vmap.offset
  length : vmap'.length = vmap.length
  marked : ∀ i, vmap.offset ≤ i → vmap'.marked i = (vmap.marked i || OnPages pages i)

/-- `vmap'` is `vmap` with the bits of the pages clear. -/
structure Clears (vmap vmap' : Bitmap) (pages : List UInt32) : Prop where
  offset : vmap'.offset = vmap.offset
  length : vmap'.length = vmap.length
  marked : ∀ i, vmap.offset ≤ i → vmap'.marked i = (vmap.marked i && !OnPages pages i)

theorem onPages_append (pages : List UInt32) (page : UInt32) (i : ℕ) :
    OnPages (pages ++ [page]) i = (OnPages pages i || decide (pageIdx page = i)) := by
  simp [OnPages]

theorem bitmapSet_marked (map : Bitmap) (index : ℕ) (value : Bool) :
    Meets BadCount (map.bitmapSet index value) fun map' => map.covers index ∧ map'.offset = map.offset ∧
      map'.length = map.length ∧ ∀ i, map.offset ≤ i → map'.marked i = if i = index then value else map.marked i := by
  refine Meets.assert_bind (fun _ => by decide) fun h1 => Meets.assert_bind (fun _ => by decide) fun h2 => ?_
  have h1 : index ≥ map.offset := of_decide_eq_true h1
  refine meets_ok.mpr ⟨Bitmap.covers_iff.mpr ⟨h1, of_decide_eq_true h2⟩, rfl, rfl, fun i hi => ?_⟩
  simp only [Bitmap.marked, Function.update_apply]
  refine if_congr ?_ rfl rfl
  omega

theorem Sets.snoc {vmap vmap₁ vmap₂ : Bitmap} {pages : List UInt32} {page : UInt32} (h : Sets vmap vmap₁ pages)
    (h₂ : vmap₂.offset = vmap₁.offset ∧ vmap₂.length = vmap₁.length ∧
      ∀ i, vmap₁.offset ≤ i → vmap₂.marked i = if i = pageIdx page then true else vmap₁.marked i) :
    Sets vmap vmap₂ (pages ++ [page]) := by
  refine ⟨h₂.1.trans h.offset, h₂.2.1.trans h.length, fun i hi => ?_⟩
  rw [h₂.2.2 i (h.offset ▸ hi), h.marked i hi, onPages_append]
  by_cases he : i = pageIdx page
  · rw [if_pos he, decide_eq_true he.symm, Bool.or_true, Bool.or_true]
  · rw [if_neg he, decide_eq_false (Ne.symm he), Bool.or_false]

theorem Clears.snoc {vmap vmap₁ vmap₂ : Bitmap} {pages : List UInt32} {page : UInt32} (h : Clears vmap vmap₁ pages)
    (h₂ : vmap₂.offset = vmap₁.offset ∧ vmap₂.length = vmap₁.length ∧
      ∀ i, vmap₁.offset ≤ i → vmap₂.marked i = if i = pageIdx page then false else vmap₁.marked i) :
    Clears vmap vmap₂ (pages ++ [page]) := by
  refine ⟨h₂.1.trans h.offset, h₂.2.1.trans h.length, fun i hi => ?_⟩
  rw [h₂.2.2 i (h.offset ▸ hi), h.marked i hi, onPages_append]
  by_cases he : i = pageIdx page
  · rw [if_pos he, decide_eq_true he.symm, Bool.or_true]
    exact (Bool.and_false _).symm
  · rw [if_neg he, decide_eq_false (Ne.symm he), Bool.or_false]

/-- The loop of `sys_mmap` moves the bits and the entries of the same pages. -/
theorem mmapPages_spec (h : Acct m S extra) {task : Space} (hS : ∀ vaddr, UserAddr vaddr → (task.pde, didx vaddr) ∈ S)
    (ht : SpaceOk task) {vmap : Bitmap} (hv : vmap.offset = task.vmap.offset ∧ vmap.length = task.vmap.length)
    {vaddr : UInt32} (hlo : USER_MMAP_ADDR ≤ vaddr) (hhi : vaddr < USER_STACK_BOTTOM) (count : ℕ) (prot flags : UInt32) :
    Meets BadCount ((pagesFrom vaddr count).foldlM (mmapPage task.pde prot flags) (m, vmap)) fun r =>
      Mapped m r.1 S task.pde (pagesFrom vaddr count) ∧ Sets vmap r.2 (pagesFrom vaddr count) := by
  refine (Meets.foldlM (I := fun done r => Acct r.1 S extra ∧ vaddr.toNat + 4096 * done.length < 0x10001000 ∧
    Mapped m r.1 S task.pde done ∧ Sets vmap r.2 done) ?_ ?_).imp fun r hr => hr.2.2
  · exact ⟨h, start_page hhi [] rfl, .nil _, ⟨rfl, rfl, fun _ _ => (Bool.or_false _).symm⟩⟩
  · rintro before page after hl ⟨m₁, vmap₁⟩ ⟨hacct, hlen, hmapped, hsets⟩
    dsimp only at *
    obtain ⟨huser, hnext⟩ := walk_page ht ⟨hsets.offset.trans hv.1, hsets.length.trans hv.2⟩ hl hlo hlen
    apply (linkPage_spec hacct (hS page huser)).bind
    rintro m₂ ⟨hacct₂, -, hlink⟩
    apply (bitmapSet_marked vmap₁ (pageIdx page) true).bind
    rintro vmap₂ ⟨hcov, hset⟩
    apply (getTable_spec m₂ task.pde page).bind
    rintro ⟨_, _⟩ ⟨hr, hd⟩
    cases hr
    dsimp only
    rw [← entryAt_of_present hd]
    set e := m₂.entryAt (task.pde, didx page) (tidx page) with hedef
    obtain ⟨hpres, hidx, -⟩ := mmapEntry_fields e prot flags
    have w := Writes.flags hacct₂ (e := mmapEntry e prot flags) (hS page huser) (tidx_lt page) hd hpres hidx
    exact meets_ok.mpr ⟨w.acct hacct₂, hnext hcov, (hmapped.snoc hlink).flags hacct₂ w hpres, hsets.snoc hset⟩

/-- So does the loop of `sys_munmap`, and it stops at a page that the bitmap does not cover. -/
theorem munmapPages_spec (h : Acct m S extra) {task : Space} (hS : ∀ vaddr, UserAddr vaddr → (task.pde, didx vaddr) ∈ S)
    (ht : SpaceOk task) {vaddr : UInt32} (hlo : USER_MMAP_ADDR ≤ vaddr) (hhi : vaddr < USER_STACK_BOTTOM) (count : ℕ) :
    Meets BadCount ((pagesFrom vaddr count).foldlM (munmapPage task.pde) (m, task.vmap)) fun r =>
      Unmapped m r.1 S task.pde (pagesFrom vaddr count) ∧ Clears task.vmap r.2 (pagesFrom vaddr count) ∧
      ∀ page ∈ pagesFrom vaddr count, UserAddr page ∧ task.vmap.covers (pageIdx page) := by
  refine (Meets.foldlM (I := fun done r => Acct r.1 S extra ∧ vaddr.toNat + 4096 * done.length < 0x10001000 ∧
    Unmapped m r.1 S task.pde done ∧ Clears task.vmap r.2 done ∧
    ∀ page ∈ done, UserAddr page ∧ task.vmap.covers (pageIdx page)) ?_ ?_).imp fun r hr => hr.2.2
  · exact ⟨h, start_page hhi [] rfl, .nil _, ⟨rfl, rfl, fun _ _ => (Bool.and_true _).symm⟩, nofun⟩
  · rintro before page after hl ⟨m₁, vmap₁⟩ ⟨hacct, hlen, hun, hclears, hbefore⟩
    dsimp only at *
    obtain ⟨huser, hnext⟩ := walk_page ht ⟨hclears.offset, hclears.length⟩ hl hlo hlen
    apply (unlinkPage_spec hacct (hS page huser)).bind
    rintro m₂ ⟨hacct₂, -, hunlink⟩
    refine Meets.bind (Q := fun _ => True) ?_ fun b _ => Meets.assert_bind (fun _ => by decide) fun _ => ?_
    · exact Meets.assert_bind (fun _ => by decide) fun _ =>
        Meets.assert_bind (fun _ => by decide) fun _ => meets_ok.mpr trivial
    · apply (bitmapSet_marked vmap₁ (pageIdx page) false).bind
      rintro vmap₂ ⟨hcov, hset⟩
      refine meets_ok.mpr ⟨hacct₂, hnext hcov, hun.snoc hunlink, hclears.snoc hset, fun q hq => ?_⟩
      rcases List.mem_append.mp hq with hq | hq
      · exact hbefore q hq
      · rw [List.mem_singleton.mp hq]
        refine ⟨huser, ?_⟩
        unfold Bitmap.covers at hcov ⊢
        rwa [← hclears.offset, ← hclears.length]

/-- The pages of a range that the scan has found are those of the bits it has found. -/
theorem scanned_page {index count i : ℕ} (hi : i < count) (hend : index + count ≤ 0x10000) :
    pageIdx (UInt32.ofNat index * PAGE_SIZE + PAGE_SIZE * UInt32.ofNat i) = index + i := by
  have hp : PAGE_SIZE.toNat = 4096 := rfl
  have hstart : (UInt32.ofNat index * PAGE_SIZE).toNat = 4096 * index := by
    rw [UInt32.toNat_mul, UInt32.toNat_ofNat', hp]
    omega
  unfold pageIdx
  rw [toNat_page (by omega), hstart]
  omega

/-- What `scan_page` marks for `sys_mmap` are bits of pages that it is going to map. -/
theorem mmapArea_sets {task : Space} (ht : SpaceOk task) (addr : UInt32) (count : ℕ) :
    Meets BadCount (mmapArea task addr count) fun r => (r.2.offset = task.vmap.offset ∧ r.2.length = task.vmap.length) ∧
      (∀ i, task.vmap.offset ≤ i → (r.2.marked i || OnPages (pagesFrom r.1 count) i) =
        (task.vmap.marked i || OnPages (pagesFrom r.1 count) i)) ∧
      (addr = 0 → ∀ page ∈ pagesFrom r.1 count, task.vmap.covers (pageIdx page) ∧
        task.vmap.marked (pageIdx page) = false) := by
  unfold mmapArea
  split_ifs with h0
  · apply (scanPage_spec task.vmap count).bind
    rintro ⟨index, vmap⟩ ⟨hc, hal⟩
    dsimp only at hal
    have hend : index + count ≤ 0x10000 := by
      have h1 := (hal.clear (index + count - 1) (by omega) (by omega)).1.2
      have h2 := ht.vmap
      have h3 : pageIdx USER_STACK_TOP = 0x10000 := by decide
      omega
    refine meets_ok.mpr ⟨⟨hal.offset, hal.length⟩, fun i hi => ?_, fun _ page hp => ?_⟩
    · dsimp only
      by_cases hin : index ≤ i ∧ i < index + count
      · have hon : OnPages (pagesFrom (UInt32.ofNat index * PAGE_SIZE) count) i = true := by
          refine List.any_eq_true.mpr ⟨_, mem_pagesFrom.mpr ⟨i - index, by omega, rfl⟩, decide_eq_true ?_⟩
          rw [scanned_page (by omega) hend]
          omega
        rw [hon, Bool.or_true, Bool.or_true]
      · rw [hal.marked i hi, decide_eq_false hin, Bool.false_or]
    · obtain ⟨i, hi, rfl⟩ := mem_pagesFrom.mp hp
      rw [scanned_page hi hend]
      exact hal.clear _ (by omega) (by omega)
  · exact meets_ok.mpr ⟨⟨rfl, rfl⟩, fun _ _ => rfl, fun hc => absurd hc h0⟩

/-- The range of the scan stays below a limit exactly when there is room for it there. -/
theorem mmapArea_room {task : Space} (ht : SpaceOk task) {count : ℕ} {r : UInt32 × Bitmap} (h : mmapArea task 0 count = .ok r)
    (limit : ℕ) : task.vmap.RoomBelow limit count ↔ ∀ page ∈ pagesFrom r.1 count, pageIdx page < limit := by
  unfold mmapArea scanPage at h
  rw [if_pos rfl] at h
  obtain ⟨⟨index, vmap⟩, hs, h⟩ := bind_ok.mp h
  obtain ⟨_, hc, hs⟩ := bind_ok.mp hs
  have hc : 0 < count := by simpa using hc
  cases h
  split at hs
  · rename_i r hr
    cases hs
    have hend : index + count ≤ 0x10000 := by
      have h1 := ((Bitmap.bitmapScan_some hc hr).1 (index + count - 1) (by omega) (by omega)).1.2
      have h2 := ht.vmap
      have h3 : pageIdx USER_STACK_TOP = 0x10000 := by decide
      omega
    rw [Bitmap.roomBelow_iff hc hr]
    constructor
    · intro hle page hp
      obtain ⟨i, hi, rfl⟩ := mem_pagesFrom.mp hp
      rw [scanned_page hi hend]
      omega
    · intro hall
      have := hall _ (mem_pagesFrom.mpr ⟨count - 1, by omega, rfl⟩)
      rw [scanned_page (by omega) hend] at this
      omega
  · cases hs

theorem sysMmap_start {task : Space} {addr length prot flags : UInt32} {r : UInt32 × Memory × Space}
    (h : m.sysMmap task addr length prot flags = .ok r) :
    ∃ vmap, mmapArea task addr (divRoundUp length PAGE_SIZE).toNat = .ok (r.1, vmap) := by
  unfold sysMmap at h
  obtain ⟨_, -, h⟩ := bind_ok.mp h
  obtain ⟨⟨vaddr, vmap⟩, harea, h⟩ := bind_ok.mp h
  obtain ⟨_, -, h⟩ := bind_ok.mp h
  obtain ⟨_, -, h⟩ := bind_ok.mp h
  cases h
  exact ⟨vmap, harea⟩

theorem sysMmap_area (h : Acct m S extra) {task : Space} (hS : ∀ vaddr, UserAddr vaddr → (task.pde, didx vaddr) ∈ S)
    (ht : SpaceOk task) (addr length prot flags : UInt32) :
    Meets BadCount (m.sysMmap task addr length prot flags) fun r =>
      Mapped m r.2.1 S task.pde (pagesFrom r.1 (divRoundUp length PAGE_SIZE).toNat) ∧
      Sets task.vmap r.2.2.vmap (pagesFrom r.1 (divRoundUp length PAGE_SIZE).toNat) ∧
      (addr = 0 → ∀ page ∈ pagesFrom r.1 (divRoundUp length PAGE_SIZE).toNat, task.vmap.covers (pageIdx page) ∧
        task.vmap.marked (pageIdx page) = false) ∧ r.2.2 = { task with vmap := r.2.2.vmap } := by
  unfold sysMmap
  refine Meets.assert_bind (fun _ => by decide) fun _ => ?_
  set count := (divRoundUp length PAGE_SIZE).toNat
  apply (mmapArea_sets ht addr count).bind
  rintro ⟨vaddr, vmap⟩ ⟨hv, hmarks, hclear⟩
  dsimp only at *
  refine Meets.assert_bind (fun _ => by decide) fun hr => ?_
  obtain ⟨hlo, hhi⟩ := of_decide_eq_true hr
  apply (mmapPages_spec h hS ht hv hlo hhi count prot flags).bind
  rintro ⟨m', vmap'⟩ ⟨hmapped, hsets⟩
  refine meets_ok.mpr ⟨hmapped, ⟨hsets.offset.trans hv.1, hsets.length.trans hv.2, fun i hi => ?_⟩, hclear, rfl⟩
  rw [hsets.marked i (hv.1 ▸ hi), hmarks i hi]

theorem sysMunmap_area (h : Acct m S extra) {task : Space} (hS : ∀ vaddr, UserAddr vaddr → (task.pde, didx vaddr) ∈ S)
    (ht : SpaceOk task) (addr length : UInt32) : Meets BadCount (m.sysMunmap task addr length) fun r =>
      Unmapped m r.1 S task.pde (pagesFrom addr (divRoundUp length PAGE_SIZE).toNat) ∧
      Clears task.vmap r.2.vmap (pagesFrom addr (divRoundUp length PAGE_SIZE).toNat) ∧
      (∀ page ∈ pagesFrom addr (divRoundUp length PAGE_SIZE).toNat, UserAddr page ∧ task.vmap.covers (pageIdx page)) ∧
      r.2 = { task with vmap := r.2.vmap } := by
  unfold sysMunmap
  refine Meets.assert_bind (fun _ => by decide) fun hr => Meets.assert_bind (fun _ => by decide) fun _ => ?_
  obtain ⟨hlo, hhi⟩ := of_decide_eq_true hr
  exact (munmapPages_spec h hS ht hlo hhi _).bind fun r hr => meets_ok.mpr ⟨hr.1, hr.2.1, hr.2.2, rfl⟩

end Memory
namespace Machine

variable {s s' : Machine}

/-- The pages of the area of `sys_mmap` that are not for the stack. -/
def InArea (page : ℕ) : Prop := pageIdx USER_MMAP_ADDR ≤ page ∧ page < pageIdx USER_STACK_BOTTOM

/-- The bits of the task are those of its page tables; a task that has not gone to user mode
has no pages in the area. -/
structure Agrees (m : Memory) (task : Space) : Prop where
  offset : task.user → task.vmap.offset = pageIdx USER_MMAP_ADDR
  bits : ∀ i t, t < 1024 → InArea (i * 1024 + t) →
    (task.user && task.vmap.marked (i * 1024 + t)) = (m.entryAt (task.pde, i) t).present

def MmapAgrees (s : Machine) : Prop := ∀ pde ∈ s.live, Agrees s.mem (s.space pde)

/-- The calls that map and unmap pages by an address do so outside of the area: `load_elf`
maps a page at `USER_EXEC_ADDR`. -/
def Listed (_ : Machine) : Call → Prop
  | .linkPage _ vaddr | .unlinkPage _ vaddr => ¬ InArea (pageIdx vaddr)
  | _ => True

instance (page : ℕ) : Decidable (InArea page) := inferInstanceAs (Decidable (_ ∧ _))

instance (s : Machine) : (c : Call) → Decidable (s.Listed c)
  | .linkPage _ vaddr | .unlinkPage _ vaddr => inferInstanceAs (Decidable (¬ InArea (pageIdx vaddr)))
  | .userMode | .fork _ | .exit _ | .load _ _ | .store _ _ _ | .kernelStore _ _ _ | .brk _ _ | .mmap _ _ _ _ _
  | .munmap _ _ _ | .execve _ | .loadSegment _ _ _ _ _ _ | .allocKpage _ | .freeKpage _ _ => .isTrue trivial

theorem area_slot {D : Finset ℕ} {pde i t : ℕ} (hp : pde ∈ D) (ht : t < 1024) (h : InArea (i * 1024 + t)) :
    (pde, i) ∈ slots D := by
  rw [mem_slots]
  obtain ⟨h1, h2⟩ := h
  have hlo : pageIdx USER_MMAP_ADDR = 0x8000 := by decide
  have hhi : pageIdx USER_STACK_BOTTOM = 0xfe00 := by decide
  have hdirs : KERNEL_DIRS = 4 := rfl
  exact ⟨hp, by dsimp only; omega⟩

/-- A task agrees as before when the entries of the area are as present as before. -/
theorem Agrees.same {m m' : Memory} {task task' : Space} (h : Agrees m task) (hu : task'.user = task.user)
    (hv : task'.vmap = task.vmap) (hsame : ∀ i t, t < 1024 → InArea (i * 1024 + t) →
      (m'.entryAt (task'.pde, i) t).present = (m.entryAt (task.pde, i) t).present) : Agrees m' task' := by
  refine ⟨by rw [hv, hu]; exact h.offset, fun i t ht ha => ?_⟩
  rw [hv, hu, hsame i t ht ha]
  exact h.bits i t ht ha

/-- A call that leaves the bits of all tasks. -/
theorem MmapAgrees.same (h : s.MmapAgrees) (hok : s.Ok) {mem : Memory} (hsame : ∀ pde ∈ s.live, ∀ i t, t < 1024 →
    InArea (i * 1024 + t) → (mem.entryAt (pde, i) t).present = (s.mem.entryAt (pde, i) t).present) :
    MmapAgrees { s with mem := mem } := by
  intro pde hp
  apply (h pde hp).same rfl rfl
  rw [(hok.space pde hp).1]
  exact hsame pde hp

/-- A system call of the task in `pde`: the tasks of other directories keep theirs. -/
theorem MmapAgrees.setTask (h : s.MmapAgrees) (hok : s.Ok) {pde : ℕ} {mem : Memory} {task : Space} (htask : task.pde = pde)
    (hothers : ∀ y ∈ slots s.live, y.1 ≠ pde → ∀ u, u < 1024 → (mem.entryAt y u).present = (s.mem.entryAt y u).present)
    (hself : Agrees mem task) : (s.setTask mem task).MmapAgrees := by
  intro d hd
  simp only [Machine.setTask, htask, Function.update_apply]
  split_ifs with he
  · exact hself
  · have hpde := (hok.space d hd).1
    refine (h d hd).same rfl rfl fun i t ht ha => hothers _ (area_slot ?_ ht ha) ?_ t ht
    · rw [hpde]
      exact hd
    · rw [hpde]
      exact he

theorem MmapAgrees.offArea (h : s.MmapAgrees) (hok : s.Ok) {pde : ℕ} (hp : s.UserDir pde) {mem : Memory} {task task' : Space}
    (htask : task.pde = pde) (htask' : task'.pde = pde) (hvmap : task.vmap = (s.space pde).vmap)
    (huser : task.user = (s.space pde).user) (hoff : OffArea s.mem mem (slots s.live) task task') :
    (s.setTask mem task').MmapAgrees := by
  refine h.setTask hok htask' (fun y hy hne u hu => hoff.pages y hy u hu fun he => absurd (he.trans htask) hne) ?_
  refine (h pde hp.1).same (hoff.user.trans huser) (hoff.vmap.trans hvmap) fun i t ht ha => ?_
  rw [(hok.space pde hp.1).1, htask']
  exact hoff.pages _ (area_slot hp.1 ht ha) t ht fun _ => ha.1

/-- A call that maps or unmaps a page outside of the area. -/
theorem MmapAgrees.atPage (h : s.MmapAgrees) (hok : s.Ok) {mem : Memory} {pde : ℕ} {vaddr : UInt32}
    (hout : ¬ InArea (pageIdx vaddr)) (hothers : ∀ y ∈ slots s.live, ∀ u, ¬ (y = (pde, didx vaddr) ∧ u = tidx vaddr) →
      mem.entryAt y u = s.mem.entryAt y u) : MmapAgrees { s with mem := mem } := by
  refine h.same hok fun d hd i t ht ha => ?_
  rw [hothers _ (area_slot hd ht ha) t fun hat => hout ?_]
  rw [(atPage_iff ht).mp (show AtPage pde vaddr (pde, i) t from ⟨by rw [(Prod.mk.inj hat.1).2], hat.2⟩)]
  exact ha

/-- A new directory has the entries of the parent in tables of its own. -/
theorem enter_agrees (h : s.MmapAgrees) (hok : s.Ok) {pde : ℕ} (hp : pde ∈ s.live) {task : Space}
    (htask : Agrees s.mem { task with pde := pde }) : Meets BadCount (s.enter pde task) fun r => r.2.MmapAgrees := by
  apply (copyPde_spec hok.acct hp hok.dirs_marked).bind
  rintro ⟨child, mem⟩ ⟨hnew, -, -, hfork, hmirror⟩
  dsimp only at *
  refine meets_ok.mpr fun d hd => ?_
  by_cases he : d = child
  · subst he
    simp only [Function.update_self]
    refine htask.same rfl rfl fun i t ht ha => ?_
    have hi : i ∈ userDirs := mem_userDirs.mpr (mem_slots.mp (area_slot hp ht ha)).2
    rw [hmirror.entry i hi t ht, protect_present]
  · have hd : d ∈ s.live := mem_of_mem_insert_of_ne hd he
    simp only [Function.update_of_ne he]
    refine (h d hd).same rfl rfl fun i t ht ha => ?_
    rw [(hok.space d hd).1, hfork.entry _ (area_slot hd ht ha) t ht]
    split_ifs
    · rw [protect_present]
    · rfl

theorem exit_agrees (h : s.MmapAgrees) (hok : s.Ok) {pde : ℕ} (hp : s.UserDir pde) :
    Meets BadCount (s.exit pde) fun s' => s'.MmapAgrees := by
  have hne := hok.user_ne hp
  unfold exit
  rw [hp.2]
  apply (freePde_spec hok.acct hp.1 (hok.marked pde hp.1 hne.symm) BadCount).bind
  rintro mem ⟨-, -, hdirs, htables, -⟩
  refine meets_ok.mpr fun d hd => (h d (mem_of_mem_erase hd)).same rfl rfl fun i t _ _ => ?_
  rw [entryAt_congr hdirs htables]

theorem fault_agrees (h : s.MmapAgrees) (hok : s.Ok) {pde : ℕ} (hp : s.UserDir pde) (vaddr : UInt32) (write : Bool) :
    Meets BadCount (s.fault pde vaddr write) fun s' => s'.MmapAgrees := by
  obtain ⟨hpde, hspace⟩ := hok.space pde hp.1
  apply (pageFault_serves hok.acct (hok.slot hp.1) vaddr ⟨(s.walk pde vaddr).present, write⟩).bind
  intro r hr
  cases r with
  | none => exact exit_agrees h hok hp
  | some mem =>
    obtain ⟨-, hin, habsent, hpresent, hserve⟩ := hr.2 mem rfl
    rw [hpde] at hpresent hserve
    apply meets_ok.mpr
    cases hw : (s.walk pde vaddr).present with
    | true =>
      -- a page that was there still is
      refine h.same hok fun d hd i t ht ha => ?_
      by_cases hat : AtPage pde vaddr (d, i) t
      · rw [hat.1, hat.2, hserve.mapped]
        exact hw.symm
      · rw [hserve.others _ (area_slot hd ht ha) t hat]
    | false =>
      refine MmapAgrees.atPage h hok (fun ha : InArea (pageIdx vaddr) => ?_) hserve.others
      have hlo : pageIdx USER_MMAP_ADDR = 0x8000 := by decide
      have hhi : pageIdx USER_STACK_BOTTOM = 0xfe00 := by decide
      obtain ⟨h1, h2⟩ := ha
      unfold pageIdx at h1 h2 hlo hhi
      rcases habsent hw with hb | hb
      · have h3 : vaddr.toNat < (s.space pde).brk.toNat := UInt32.lt_iff_toNat_lt.mp hb
        have h4 : (s.space pde).brk.toNat ≤ 0x8000000 := UInt32.le_iff_toNat_le.mp hspace.brk
        omega
      · have h3 : 0xfe00000 ≤ vaddr.toNat := UInt32.le_iff_toNat_le.mp hb
        omega

theorem setByte_agrees (h : s.MmapAgrees) (hok : s.Ok) (pde : ℕ) (vaddr : UInt32) (value : UInt8) :
    (s.setByte pde vaddr value).MmapAgrees :=
  h.same hok fun _ _ _ _ _ _ => rfl

theorem kernelMap_agrees (h : s.MmapAgrees) (hok : s.Ok) {mem : Memory}
    (hmem : mem = { s.mem with kernelMap := mem.kernelMap }) : MmapAgrees { s with mem := mem } := by
  refine h.same hok fun pde _ i t _ _ => ?_
  rw [hmem]
  rfl

theorem exec_agrees (h : s.MmapAgrees) (hok : s.Ok) (c : Call) (hc : s.Enabled c) (hl : s.Listed c) :
    Meets BadCount (s.exec c) fun s' => s'.MmapAgrees := by
  cases c with
  | userMode =>
    refine (enter_agrees h hok hok.kernel.1 ⟨fun _ => rfl, fun i t ht ha => ?_⟩).bind fun r hr => meets_ok.mpr hr
    have := (h _ hok.kernel.1).bits i t ht ha
    rw [hok.kernel.2, (hok.space _ hok.kernel.1).1] at this
    exact this
  | fork pde =>
    refine (enter_agrees h hok hc.1 ?_).bind fun r hr => meets_ok.mpr hr
    refine (h pde hc.1).same rfl rfl fun i t _ _ => ?_
    rw [(hok.space pde hc.1).1]
  | exit pde => exact exit_agrees h hok hc
  | linkPage pde vaddr =>
    apply (linkPage_spec hok.acct (mem_slots.mpr hc)).bind
    rintro mem ⟨-, -, hlink⟩
    exact meets_ok.mpr (h.atPage hok hl hlink.others)
  | unlinkPage pde vaddr =>
    apply (unlinkPage_spec hok.acct (mem_slots.mpr hc)).bind
    rintro mem ⟨-, -, hun⟩
    exact meets_ok.mpr (h.atPage hok hl hun.others)
  | load pde vaddr =>
    simp only [exec]
    split_ifs
    · exact meets_ok.mpr h
    · exact fault_agrees h hok hc.1 vaddr false
  | store pde vaddr value =>
    simp only [exec]
    split_ifs
    · exact meets_ok.mpr (setByte_agrees h hok pde vaddr value)
    · exact fault_agrees h hok hc.1 vaddr true
  | kernelStore pde vaddr value =>
    simp only [exec]
    split_ifs
    · exact meets_ok.mpr (setByte_agrees h hok pde vaddr value)
    · exact fault_agrees h hok hc.1 vaddr true
  | brk pde addr =>
    obtain ⟨hpde, hspace⟩ := hok.space pde hc.1
    apply ((sysBrk_area hok.acct (hok.slot hc.1) hspace addr).and (sysBrk_spec hok.acct (hok.slot hc.1) hspace addr)).bind
    rintro ⟨_, mem, task⟩ ⟨hoff, -, htask, -⟩
    exact meets_ok.mpr (h.offArea hok hc hpde (htask.trans hpde) rfl rfl hoff)
  | mmap pde addr length prot flags =>
    obtain ⟨hpde, hspace⟩ := hok.space pde hc.1
    apply (sysMmap_area hok.acct (hok.slot hc.1) hspace addr length prot flags).bind
    rintro ⟨vaddr, mem, task⟩ ⟨hmapped, hsets, -, htask⟩
    dsimp only at *
    have htask' : task.pde = pde := (congrArg Space.pde htask).trans hpde
    have huser : task.user = true := (congrArg Space.user htask).trans hc.2
    have hoff := (h pde hc.1).offset hc.2
    refine meets_ok.mpr (h.setTask hok htask' (fun y hy hne u _ => ?_) ⟨fun _ => hsets.offset.trans hoff, fun i t ht ha => ?_⟩)
    · rw [hmapped y hy u, atPages_ne (by rw [hpde]; exact hne), Bool.or_false]
    · have hold := (h pde hc.1).bits i t ht ha
      rw [hc.2, Bool.true_and, hpde] at hold
      rw [huser, Bool.true_and, htask', hsets.marked _ (hoff ▸ ha.1), hmapped _ (area_slot hc.1 ht ha), hold, hpde,
        atPages_iff ht]
  | munmap pde addr length =>
    obtain ⟨hpde, hspace⟩ := hok.space pde hc.1
    apply (sysMunmap_area hok.acct (hok.slot hc.1) hspace addr length).bind
    rintro ⟨mem, task⟩ ⟨hun, hclears, -, htask⟩
    dsimp only at *
    have htask' : task.pde = pde := (congrArg Space.pde htask).trans hpde
    have huser : task.user = true := (congrArg Space.user htask).trans hc.2
    have hoff := (h pde hc.1).offset hc.2
    refine meets_ok.mpr (h.setTask hok htask' (fun y hy hne u _ => ?_) ⟨fun _ => hclears.offset.trans hoff, fun i t ht ha => ?_⟩)
    · rw [hun y hy u, atPages_ne (by rw [hpde]; exact hne)]
      exact Bool.and_true _
    · have hold := (h pde hc.1).bits i t ht ha
      rw [hc.2, Bool.true_and, hpde] at hold
      rw [huser, Bool.true_and, htask', hclears.marked _ (hoff ▸ ha.1), hun _ (area_slot hc.1 ht ha), hold, hpde,
        atPages_iff ht]
  | execve pde =>
    obtain ⟨hpde, hspace⟩ := hok.space pde hc.1
    have hstart : SpaceOk { s.space pde with finish := USER_EXEC_ADDR } := ⟨UInt32.le_refl _, hspace.brk, hspace.vmap⟩
    have hslot : ∀ vaddr, UserAddr vaddr →
        (({ s.space pde with finish := USER_EXEC_ADDR } : Space).pde, didx vaddr) ∈ slots s.live := hok.slot hc.1
    apply ((sysBrk_area hok.acct hslot hstart USER_EXEC_ADDR).and (sysBrk_spec hok.acct hslot hstart USER_EXEC_ADDR)).bind
    rintro ⟨_, mem, task⟩ ⟨hoff, -, htask, -⟩
    refine meets_ok.mpr (h.offArea hok hc ?_ (htask.trans hpde) ?_ ?_ hoff)
    exacts [hpde, rfl, rfl]
  | loadSegment pde vaddr align filesz memsz writable =>
    obtain ⟨hpde, hspace⟩ := hok.space pde hc.1
    refine ((loadSegment_area hok.acct (hok.slot hc.1) vaddr align filesz memsz writable).and
      (loadSegment_spec hok.acct (hok.slot hc.1) hspace vaddr align filesz memsz writable)).bind ?_
    rintro ⟨mem, task⟩ ⟨hoff, -, htask, -⟩
    exact meets_ok.mpr (h.offArea hok hc hpde (htask.trans hpde) rfl rfl hoff)
  | allocKpage count =>
    apply (allocKpage_spec s.mem count).bind
    rintro ⟨index, mem⟩ ⟨-, -, hmem⟩
    exact meets_ok.mpr (kernelMap_agrees h hok hmem)
  | freeKpage index count =>
    apply (freeKpage_others s.mem index count).bind
    rintro mem ⟨hmem, -⟩
    exact meets_ok.mpr (kernelMap_agrees h hok hmem)

theorem booted_agrees (h : s.Booted) : s.MmapAgrees := by
  obtain ⟨size, bytes, rfl⟩ := h
  intro pde hp
  obtain rfl := mem_singleton.mp hp
  refine ⟨nofun, fun i t ht ha => ?_⟩
  have habsent : (boot size bytes).mem.dentry (KERNEL_PAGE_DIR, i) = .zero :=
    mappingInit_absent _ (area_slot (mem_singleton_self _) ht ha)
  have hzero : (boot size bytes).mem.entryAt (KERNEL_PAGE_DIR, i) t = .zero :=
    entryAt_absent (by rw [habsent]; rfl) t
  change (false && _) = ((boot size bytes).mem.entryAt (KERNEL_PAGE_DIR, i) t).present
  rw [hzero]
  rfl

theorem run_agrees {es : List Call} (h : Run Booted (Restrict Listed Step) es s) : s.Ok ∧ s.MmapAgrees := by
  refine Run.invariant (I := fun s => s.Ok ∧ s.MmapAgrees) (fun s hs => ⟨(booted_ok hs).1, booted_agrees hs⟩) ?_ es s h
  rintro s c s' ⟨hok, hag⟩ ⟨hl, hc, hx⟩
  exact ⟨((exec_spec hok c hc).result s' hx).ok, (exec_agrees hag hok c hc hl).result s' hx⟩

theorem MmapAgrees.walk (hag : s.MmapAgrees) (hok : s.Ok) {pde : ℕ} (hp : s.UserDir pde) {i t : ℕ} (ht : t < 1024)
    (ha : InArea (i * 1024 + t)) : (s.space pde).vmap.marked (i * 1024 + t) = (s.mem.entryAt (pde, i) t).present := by
  have := (hag pde hp.1).bits i t ht ha
  rwa [hp.2, Bool.true_and, (hok.space pde hp.1).1] at this

/-- The range that is picked for NULL stays below the stack if there is room for it there, and is free then. -/
theorem sysMmap_room (hok : s.Ok) (hag : s.MmapAgrees) {pde : ℕ} (hp : s.UserDir pde) {length prot flags : UInt32}
    {r : UInt32 × Memory × Space} (hr : s.mem.sysMmap (s.space pde) 0 length prot flags = .ok r) :
    ((s.space pde).vmap.RoomBelow (pageIdx USER_STACK_BOTTOM) (divRoundUp length PAGE_SIZE).toNat ↔
        ∀ page ∈ pagesFrom r.1 (divRoundUp length PAGE_SIZE).toNat, InArea (pageIdx page)) ∧
      ((s.space pde).vmap.RoomBelow (pageIdx USER_STACK_BOTTOM) (divRoundUp length PAGE_SIZE).toNat →
        ∀ page ∈ pagesFrom r.1 (divRoundUp length PAGE_SIZE).toNat, (s.walk pde page).present = false) := by
  have hspace := (hok.space pde hp.1).2
  have hoff := (hag pde hp.1).offset hp.2
  obtain ⟨vmap, harea⟩ := sysMmap_start hr
  obtain ⟨-, -, hclear, -⟩ := (sysMmap_area hok.acct (hok.slot hp.1) hspace 0 length prot flags).result r hr
  have hroom := mmapArea_room hspace harea (pageIdx USER_STACK_BOTTOM)
  dsimp only at hroom
  have harea : ∀ page ∈ pagesFrom r.1 (divRoundUp length PAGE_SIZE).toNat, pageIdx page < pageIdx USER_STACK_BOTTOM →
      InArea (pageIdx page) := fun page hpage hlt => ⟨hoff ▸ (hclear rfl page hpage).1.1, hlt⟩
  refine ⟨hroom.trans ⟨fun hall page hpage => harea page hpage (hall page hpage), fun hall page hpage => (hall page hpage).2⟩,
    fun hr page hpage => ?_⟩
  have ha := harea page hpage (hroom.mp hr page hpage)
  have hmark := (hclear rfl page hpage).2
  rw [pageIdx_eq] at ha hmark
  rw [hag.walk hok hp (tidx_lt page) ha] at hmark
  exact hmark

/-- Bits and entries agree in every state; a range that `sys_mmap` picks by itself holds no live mapping
if there is room for it below the stack, which is when it stays below the stack; and the pages that
`sys_munmap` gives back are free in both records. -/
theorem mmap_area {es : List Call} (h : Run Booted (Restrict Listed Step) es s) {pde : ℕ} (hp : s.UserDir pde) :
    (∀ i t, t < 1024 → InArea (i * 1024 + t) →
      (s.space pde).vmap.marked (i * 1024 + t) = (s.mem.entryAt (pde, i) t).present) ∧
    (∀ length prot flags r, s.mem.sysMmap (s.space pde) 0 length prot flags = .ok r →
      ((s.space pde).vmap.RoomBelow (pageIdx USER_STACK_BOTTOM) (divRoundUp length PAGE_SIZE).toNat ↔
        ∀ page ∈ pagesFrom r.1 (divRoundUp length PAGE_SIZE).toNat, InArea (pageIdx page)) ∧
      ((s.space pde).vmap.RoomBelow (pageIdx USER_STACK_BOTTOM) (divRoundUp length PAGE_SIZE).toNat →
        ∀ page ∈ pagesFrom r.1 (divRoundUp length PAGE_SIZE).toNat, (s.walk pde page).present = false)) ∧
    ∀ addr length r, s.mem.sysMunmap (s.space pde) addr length = .ok r →
      ∀ page ∈ pagesFrom addr (divRoundUp length PAGE_SIZE).toNat, r.2.vmap.marked (pageIdx page) = false ∧
        (r.1.entryAt (pde, didx page) (tidx page)).present = false := by
  obtain ⟨hok, hag⟩ := run_agrees h
  obtain ⟨hpde, hspace⟩ := hok.space pde hp.1
  refine ⟨fun i t ht ha => hag.walk hok hp ht ha, fun length prot flags r hr => sysMmap_room hok hag hp hr,
    fun addr length r hr page hpage => ?_⟩
  · obtain ⟨hun, hclears, hcov, -⟩ := (sysMunmap_area hok.acct (hok.slot hp.1) hspace addr length).result r hr
    have hon : OnPages (pagesFrom addr (divRoundUp length PAGE_SIZE).toNat) (pageIdx page) = true :=
      List.any_eq_true.mpr ⟨page, hpage, decide_eq_true rfl⟩
    have hat : AtPages pde (pagesFrom addr (divRoundUp length PAGE_SIZE).toNat) (pde, didx page) (tidx page) = true := by
      rw [atPages_iff (tidx_lt page), ← pageIdx_eq, hon]
    obtain ⟨hu, hc⟩ := hcov page hpage
    have hslot : (pde, didx page) ∈ slots s.live := mem_slots.mpr ⟨hp.1, hu⟩
    refine ⟨?_, ?_⟩
    · rw [hclears.marked _ hc.1, hon]
      exact Bool.and_false _
    · rw [hun _ hslot, hpde, hat]
      exact Bool.and_false _

/-! ### Runs -/

theorem attempt_call {alone : Bool} {c c' : Call} (h : s.attempt alone c = some (c', s')) : c' = c := by
  unfold attempt at h
  split_ifs at h
  split at h
  · cases h
    rfl
  · cases h

/-- A listed call that is made. -/
def attemptListed (s : Machine) (c : Call) : Option (Call × Machine) := if s.Listed c then attempt false s c else none

theorem run_listed {cs es : List Call} {s₀ s : Machine} (h₀ : s₀.Booted) (h : replay attemptListed s₀ cs = some (es, s)) :
    Run Booted (Restrict Listed Step) es s := by
  have hstep : ∀ (s : Machine) c c' s', attemptListed s c = some (c', s') → Restrict Listed Step s c' s' := by
    intro s c c' s' h
    unfold attemptListed at h
    split_ifs at h with hl
    obtain rfl := attempt_call h
    exact ⟨hl, (attempt_step h).1⟩
  simpa using Run.replay hstep _ s₀ [] es s (.nil h₀) h

/-- A page mapped by `sys_mmap`: its bit is set, and its entry maps a page. -/
theorem mmap_area_small : ∃ es s, Run Booted (Restrict Listed Step) es s ∧ s.UserDir 258 ∧
    (s.space 258).vmap.marked (32 * 1024 + 0) = true ∧ (s.mem.entryAt (258, 32) 0).present = true := by
  have hsome : ((replay attemptListed smallMachine [.userMode, .mmap 258 USER_MMAP_ADDR 1 PROT_WRITE MAP_PRIVATE]).map
      fun r => decide (r.2.UserDir 258 ∧ (r.2.space 258).vmap.marked (32 * 1024 + 0) = true)) = some true := by
    decide +kernel
  obtain ⟨⟨es, s⟩, hes, hd⟩ := Option.map_eq_some_iff.mp hsome
  obtain ⟨hdir, hmark⟩ := of_decide_eq_true hd
  have hr := run_listed ⟨_, _, rfl⟩ hes
  exact ⟨es, s, hr, hdir, hmark, ((mmap_area hr hdir).1 32 0 (by decide) (by decide)).symm.trans hmark⟩

/-! ### A range that runs into the stack -/

theorem getPte_free {m m' : Memory} {pde f : ℕ} {vaddr : UInt32} {create : Bool}
    (h : m.getPte pde vaddr create = .ok (f, m')) : m.freePages ≤ m'.freePages + 1 := by
  unfold getPte at h
  obtain ⟨_, -, h⟩ := bind_ok.mp h
  split_ifs at h
  · obtain ⟨⟨q, m₁⟩, hq, h⟩ := bind_ok.mp h
    obtain ⟨hm₁, -⟩ := getPage_taken hq
    cases h
    change m.freePages ≤ m₁.freePages + 1
    rw [hm₁]
    change m.freePages ≤ m.freePages - 1 + 1
    omega
  · cases h
    exact Nat.le_succ _

theorem linkPage_free {m m' : Memory} {pde : ℕ} {vaddr : UInt32} (h : m.linkPage pde vaddr = .ok m') :
    m.freePages ≤ m'.freePages + 2 := by
  unfold linkPage at h
  obtain ⟨_, -, h⟩ := bind_ok.mp h
  obtain ⟨⟨f, m₁⟩, hpte, h⟩ := bind_ok.mp h
  have h₁ := getPte_free hpte
  dsimp only at h
  split_ifs at h
  · cases h
    omega
  · obtain ⟨⟨q, m₂⟩, hq, h⟩ := bind_ok.mp h
    obtain ⟨hm₂, -⟩ := getPage_taken hq
    cases h
    change m.freePages ≤ m₂.freePages + 2
    rw [hm₂]
    change m.freePages ≤ m₁.freePages - 1 + 2
    omega

/-- With two frames left `link_page` returns. -/
theorem linkPage_ok {m : Memory} {S : Finset (ℕ × ℕ)} {extra : ℕ → ℕ} (h : Acct m S extra) {pde : ℕ} {vaddr : UInt32}
    (hx : (pde, didx vaddr) ∈ S) (ha : aligned vaddr) (hfree : 2 ≤ m.freePages) : ∃ m', m.linkPage pde vaddr = .ok m' := by
  by_cases hp : (m.entryAt (pde, didx vaddr) (tidx vaddr)).present
  · have hd : (m.dentry (pde, didx vaddr)).present := by
      by_contra hd
      rw [entryAt_absent (by simpa using hd)] at hp
      cases hp
    refine ⟨m, ?_⟩
    unfold linkPage
    rw [ha, assert_true, ok_bind, getPte_eq hd, ok_bind]
    dsimp only
    rw [← entryAt_of_present hd, if_pos hp]
  · apply (linkPage_returns h hx ha (by simpa using hp)).mpr
    unfold linkCost
    split_ifs <;> omega

/-- The loop of `sys_mmap` runs to its end when there are two frames for each page. -/
theorem mmapPages_ok {S : Finset (ℕ × ℕ)} {extra : ℕ → ℕ} {pde : ℕ} {area : Bitmap} (prot flags : UInt32) :
    ∀ (pages : List UInt32) (m : Memory) (vmap : Bitmap), Acct m S extra → vmap.offset = area.offset →
      vmap.length = area.length → (∀ page ∈ pages, aligned page ∧ (pde, didx page) ∈ S ∧ area.covers (pageIdx page)) →
      2 * pages.length ≤ m.freePages → ∃ r, pages.foldlM (mmapPage pde prot flags) (m, vmap) = .ok r
  | [], m, vmap, _, _, _, _, _ => ⟨_, rfl⟩
  | page :: pages, m, vmap, h, hoff, hlen, hpages, hfree => by
    obtain ⟨ha, hx, hcov⟩ := hpages page (List.mem_cons_self ..)
    rw [List.length_cons] at hfree
    obtain ⟨m₁, hlink⟩ := linkPage_ok h hx ha (by omega)
    have hfree₁ := linkPage_free hlink
    obtain ⟨hacct₁, -, hl⟩ := (linkPage_spec h hx).result _ hlink
    have hcov : vmap.covers (pageIdx page) := by
      unfold Bitmap.covers at hcov ⊢
      rwa [hoff, hlen]
    have hround : ∃ r, mmapPage pde prot flags (m, vmap) page = .ok r ∧ r.1.freePages = m₁.freePages := by
      unfold mmapPage
      rw [hlink, ok_bind, Bitmap.bitmapSet_eq true hcov, ok_bind, getPte_eq hl.dentry, ok_bind]
      exact ⟨_, rfl, rfl⟩
    obtain ⟨⟨m₂, vmap₂⟩, hr, hf⟩ := hround
    obtain ⟨hacct₂, -, ⟨-, hoff₂, hlen₂⟩, -⟩ := (mmapPage_spec h hx vmap prot flags).result _ hr
    dsimp only at hf hacct₂ hoff₂ hlen₂
    obtain ⟨r, hrest⟩ := mmapPages_ok prot flags pages m₂ vmap₂ hacct₂ (hoff₂.trans hoff) (hlen₂.trans hlen)
      (fun q hq => hpages q (List.mem_cons_of_mem _ hq)) (by omega)
    exact ⟨r, by rw [List.foldlM_cons, hr, ok_bind, hrest]⟩

/-- 512M of memory, all bytes clear. -/
def largeMachine : Machine := boot ⟨2 ^ 17, by decide, by decide⟩ fun _ _ => 0

/-- A task with an empty area gets all of it, from `USER_MMAP_ADDR` to the top of the stack. -/
theorem mmap_whole {S : Finset (ℕ × ℕ)} {m : Memory} {task : Space} (h : Acct m S 0)
    (hS : ∀ vaddr, UserAddr vaddr → (task.pde, didx vaddr) ∈ S) (hoff : task.vmap.offset = 0x8000)
    (hlen : task.vmap.length = 4096) (hclear : ∀ i < 0x8000, task.vmap.bits i = false) (hfree : 0x10000 ≤ m.freePages) :
    ∃ r, m.sysMmap task 0 USER_MMAP_SIZE PROT_WRITE MAP_PRIVATE = .ok r ∧ r.1 = USER_MMAP_ADDR := by
  have hcount : (divRoundUp USER_MMAP_SIZE PAGE_SIZE).toNat = 0x8000 := by decide
  obtain ⟨index, vmap, hs, hle⟩ := (show ∃ index map', task.vmap.bitmapScan 0x8000 = some (index, map') ∧ index ≤ 0x8000 from Bitmap.bitmapScan_le (by decide)
    fun i h1 h2 => by
      refine ⟨⟨by omega, by omega⟩, ?_⟩
      rw [Bitmap.marked, hoff]
      exact hclear _ (by omega))
  obtain ⟨hrun, hlen', hoff', -⟩ := Bitmap.bitmapScan_some (by decide) hs
  have hindex : index = 0x8000 := by
    have := (hrun index le_rfl (by omega)).1.1
    omega
  subst hindex
  have harea : mmapArea task 0 0x8000 = .ok (USER_MMAP_ADDR, vmap) := by
    unfold mmapArea scanPage
    rw [if_pos rfl, hs]
    rfl
  have hcover : ∀ page ∈ pagesFrom USER_MMAP_ADDR 0x8000,
      aligned page ∧ (task.pde, didx page) ∈ S ∧ task.vmap.covers (pageIdx page) := by
    intro page hp
    obtain ⟨i, hi, rfl⟩ := mem_pagesFrom.mp hp
    have hstart : USER_MMAP_ADDR.toNat = 0x8000000 := rfl
    have hpage : (USER_MMAP_ADDR + PAGE_SIZE * UInt32.ofNat i).toNat = 0x8000000 + 4096 * i := toNat_page (by omega)
    refine ⟨?_, hS _ (.of_toNat (by omega) (by omega)), ?_⟩
    · refine beq_iff_eq.mpr (UInt32.toNat_inj.mp ?_)
      rw [UInt32.toNat_mod, hpage]
      change (0x8000000 + 4096 * i) % 4096 = 0
      omega
    · unfold Bitmap.covers pageIdx
      rw [hpage, hoff, hlen]
      omega
  obtain ⟨⟨m', vmap'⟩, hloop⟩ := mmapPages_ok PROT_WRITE MAP_PRIVATE _ m vmap h hoff' hlen' hcover
    (by rw [pagesFrom, List.length_map, List.length_range]; exact hfree)
  refine ⟨(USER_MMAP_ADDR, m', { task with vmap := vmap' }), ?_, rfl⟩
  unfold sysMmap
  rw [hcount]
  simp only [harea, ok_bind, hloop]
  rfl

/-- A task that has used its stack asks for all of the area, and gets the page of its stack. -/
theorem mmap_over_stack : ¬ ∀ es s, Run Booted (Restrict Listed Step) es s → ∀ pde, s.UserDir pde →
    ∀ length prot flags r, s.mem.sysMmap (s.space pde) 0 length prot flags = .ok r →
      ∀ page ∈ pagesFrom r.1 (divRoundUp length PAGE_SIZE).toNat, (s.walk pde page).present = false := by
  intro hall
  have hsome : ((replay attemptListed largeMachine [.userMode, .load 289 USER_STACK_BOTTOM]).map fun r => decide
      (r.2.UserDir 289 ∧ (r.2.walk 289 USER_STACK_BOTTOM).present ∧ 0x10000 ≤ r.2.mem.freePages ∧
        (r.2.space 289).vmap.offset = 0x8000 ∧ (r.2.space 289).vmap.length = 4096 ∧
        ((List.range' 0 0x8000).all fun i => !(r.2.space 289).vmap.bits i))) = some true := by
    decide +kernel
  obtain ⟨⟨es, s⟩, hes, hd⟩ := Option.map_eq_some_iff.mp hsome
  obtain ⟨hdir, hstack, hfree, hoff, hlen, hbits⟩ := of_decide_eq_true hd
  have hr := run_listed ⟨_, _, rfl⟩ hes
  have hok := (run_agrees hr).1
  have hclear : ∀ i < 0x8000, (s.space 289).vmap.bits i = false := fun i hi => by
    simpa using List.all_eq_true.mp hbits i (List.mem_range'_1.mpr ⟨Nat.zero_le _, by omega⟩)
  obtain ⟨r, hmmap, hstart⟩ := mmap_whole hok.acct (hok.slot hdir.1) hoff hlen hclear hfree
  have hcount : (divRoundUp USER_MMAP_SIZE PAGE_SIZE).toNat = 0x8000 := by decide
  have hmem : USER_STACK_BOTTOM ∈ pagesFrom r.1 (divRoundUp USER_MMAP_SIZE PAGE_SIZE).toNat := by
    rw [hstart, hcount]
    exact mem_pagesFrom.mpr ⟨0x7e00, by decide, by decide⟩
  have := hall es s hr 289 hdir _ _ _ r hmmap _ hmem
  rw [hstack] at this
  cases this

end Machine
end Onix
