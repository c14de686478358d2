import Onix.Kernel.AddressSpace
import Onix.Kernel.Buffer

/-! The territory of the kernel page allocator. `kernel_map` covers all of the 16M
of the kernel, and so the 8M at the end of it which the buffer cache and the RAM
disk use without a call of `alloc_kpage`. The search is first fit, so the pages
below are handed out first, and a range meets a region exactly when no run of
enough pages is left below both. -/

set_option autoImplicit false

namespace Onix

open Lib

def KERNEL_RAMDISK_MEM : ℕ := KERNEL_BUFFER_MEM + KERNEL_BUFFER_SIZE
def KERNEL_RAMDISK_SIZE : ℕ := 0x400000

/-- The page has an address in the `size` bytes from `base` on. -/
def Inside (base size page : ℕ) : Prop := base ≤ page * 0x1000 ∧ page * 0x1000 < base + size

/-- The ranges handed out by `alloc_kpage` and not yet freed, with their lengths. -/
structure KernelPages where
  mem : Memory
  live : List (ℕ × ℕ)

namespace KernelPages

inductive Call
  | alloc (count index : ℕ)
  | free (index count : ℕ)

def Step (s : KernelPages) : Call → KernelPages → Prop
  | .alloc count index, s' => s.mem.allocKpage count = .ok (index, s'.mem) ∧ s'.live = (index, count) :: s.live
  | .free index count, s' => (index, count) ∈ s.live ∧ s.mem.freeKpage index count = .ok s'.mem ∧
      s'.live = s.live.erase (index, count)

def Booted (s : KernelPages) : Prop := ∃ size bytes, s = ⟨Memory.memoryMapInit size bytes, []⟩

/-- No page is in both ranges. -/
def Apart (r r' : ℕ × ℕ) : Prop := r.1 + r.2 ≤ r'.1 ∨ r'.1 + r'.2 ≤ r.1

instance : Std.Symm Apart := ⟨fun _ _ => Or.symm⟩

/-- No page of the range belongs to the buffer cache or to the RAM disk. -/
def Avoids (r : ℕ × ℕ) : Prop := ∀ page, r.1 ≤ page → page < r.1 + r.2 →
  ¬ Inside KERNEL_BUFFER_MEM KERNEL_BUFFER_SIZE page ∧ ¬ Inside KERNEL_RAMDISK_MEM KERNEL_RAMDISK_SIZE page

/-- The live ranges share no page, with each other, with `memory_map` or with the
regions that other modules use. -/
structure Territory (s : KernelPages) : Prop where
  apart : s.live.Pairwise Apart
  above : ∀ r ∈ s.live, s.mem.startPage ≤ r.1
  avoids : ∀ r ∈ s.live, Avoids r

/-- A run of `count` free pages is left below the buffer cache. -/
def RoomBelow (map : Bitmap) (count : ℕ) : Prop := map.RoomBelow (KERNEL_BUFFER_MEM / 0x1000) count

/-- The condition on a call: an allocation finds room below the buffer cache. -/
def Roomy (s : KernelPages) : Call → Prop
  | .alloc count _ => RoomBelow s.mem.kernelMap count
  | .free _ _ => True

variable {s s' : KernelPages}

/-- The marks are those of the pages of `memory_map` and of the live ranges. -/
structure Inv (s : KernelPages) : Prop where
  offset : s.mem.kernelMap.offset = 256
  length : s.mem.kernelMap.length = (KERNEL_PAGES - 256) / 8
  marked : ∀ i, s.mem.kernelMap.covers i → (s.mem.kernelMap.marked i = true ↔
    i < s.mem.startPage ∨ ∃ r ∈ s.live, r.1 ≤ i ∧ i < r.1 + r.2)
  pos : ∀ r ∈ s.live, 0 < r.2
  apart : s.live.Pairwise Apart
  above : ∀ r ∈ s.live, s.mem.startPage ≤ r.1
  start : 256 ≤ s.mem.startPage
  inside : ∀ r ∈ s.live, r.1 + r.2 ≤ KERNEL_PAGES

theorem Inv.covers_iff (h : s.Inv) {i : ℕ} : s.mem.kernelMap.covers i ↔ 256 ≤ i ∧ i < KERNEL_PAGES := by
  unfold Bitmap.covers
  rw [h.offset, h.length]
  exact Iff.rfl

/-! ### Boot -/

/-- The scan of `memory_map_init` takes the first pages of the bitmap. -/
theorem kernelMapInit_marked {mapPages : ℕ} (h : 0 < mapPages) (hle : 256 + mapPages ≤ KERNEL_PAGES) {i : ℕ} (hi : 256 ≤ i) :
    (Memory.kernelMapInit mapPages).marked i = decide (i < 256 + mapPages) := by
  have hpages : KERNEL_PAGES = 4096 := rfl
  have hclear : ∀ j, 256 ≤ j → j < 256 + mapPages →
      (⟨fun _ => false, (KERNEL_PAGES - 256) / 8, 256⟩ : Bitmap).covers j ∧
        (⟨fun _ => false, (KERNEL_PAGES - 256) / 8, 256⟩ : Bitmap).marked j = false := by
    intro j h1 h2
    exact ⟨⟨h1, by change j < 256 + (KERNEL_PAGES - 256) / 8 * 8; omega⟩, rfl⟩
  obtain ⟨index, map', hs, hindex⟩ := Bitmap.bitmapScan_le h hclear
  obtain ⟨h1, -, -, h4⟩ := Bitmap.bitmapScan_some h hs
  have h256 : index = 256 := le_antisymm hindex (h1 index le_rfl (by omega)).1.1
  unfold Memory.kernelMapInit
  simp only [hs]
  rw [h4 i hi, h256]
  simp [Bitmap.marked, hi]

theorem booted_inv (h : s.Booted) : s.Inv := by
  obtain ⟨size, bytes, rfl⟩ := h
  have hpages : KERNEL_PAGES = 4096 := rfl
  have haddr := size.addressable
  have hpos : 0 < (size.pages + 256 + 4095) / 4096 := by omega
  have hle : 256 + (size.pages + 256 + 4095) / 4096 ≤ KERNEL_PAGES := by omega
  have hmap : (Memory.memoryMapInit size bytes).kernelMap =
      Memory.kernelMapInit ((size.pages + 256 + 4095) / 4096) := by simp only [Memory.memoryMapInit]
  have hstart : (Memory.memoryMapInit size bytes).startPage = 256 + (size.pages + 256 + 4095) / 4096 := rfl
  have hsize := Machine.kernelMapInit_size hpos
  refine ⟨by rw [hmap]; exact hsize.1, by rw [hmap]; exact hsize.2, fun i hi => ?_, nofun, .nil, nofun,
    by rw [hstart]; omega, nofun⟩
  have hi : 256 ≤ i := by
    have := hi.1
    rwa [hmap, hsize.1] at this
  rw [hmap, hstart, kernelMapInit_marked hpos hle hi, decide_eq_true_iff]
  simp

/-! ### The calls -/

/-- What a successful `alloc_kpage` returns: pages that were free. -/
theorem Inv.fresh (h : s.Inv) {count index : ℕ} {mem' : Memory} (ha : s.mem.allocKpage count = .ok (index, mem')) :
    0 < count ∧ s.mem.startPage ≤ index ∧ index + count ≤ KERNEL_PAGES ∧ ∀ r ∈ s.live, Apart (index, count) r := by
  obtain ⟨hc, hal, -⟩ := (Memory.allocKpage_spec s.mem count).result _ ha
  have hclear := hal.clear
  refine ⟨hc, ?_, ?_, fun r hr => ?_⟩
  · obtain ⟨hcov, hm⟩ := hclear index le_rfl (by omega)
    by_contra hlt
    rw [(h.marked index hcov).mpr (.inl (by omega))] at hm
    cases hm
  · have := (h.covers_iff.mp (hclear (index + count - 1) (by omega) (by omega)).1).2
    omega
  · -- a page in both ranges would be marked
    by_contra hne
    simp only [Apart, not_or, not_le] at hne
    have hpos := h.pos r hr
    obtain ⟨hcov, hm⟩ := hclear (max index r.1) (le_max_left _ _) (by omega)
    rw [(h.marked _ hcov).mpr (.inr ⟨r, hr, le_max_right _ _, by omega⟩)] at hm
    cases hm

theorem Inv.alloc (h : s.Inv) {count index : ℕ} (ha : s.mem.allocKpage count = .ok (index, s'.mem))
    (hl : s'.live = (index, count) :: s.live) : s'.Inv := by
  obtain ⟨hc, habove, hin, hapart⟩ := h.fresh ha
  obtain ⟨-, hal, hmem⟩ := (Memory.allocKpage_spec s.mem count).result _ ha
  have hstart : s'.mem.startPage = s.mem.startPage := by
    dsimp only at hmem
    rw [hmem]
  refine ⟨hal.offset.trans h.offset, hal.length.trans h.length, fun i hi => ?_, ?_, ?_, ?_, hstart ▸ h.start, ?_⟩
  · have hi' : s.mem.kernelMap.covers i := by
      unfold Bitmap.covers at hi ⊢
      rwa [hal.offset, hal.length] at hi
    rw [hal.marked i hi'.1, Bool.or_eq_true, decide_eq_true_iff, h.marked i hi', hl, hstart]
    simp only [List.exists_mem_cons_iff]
    tauto
  · rw [hl]
    exact List.forall_mem_cons.mpr ⟨hc, h.pos⟩
  · rw [hl]
    exact List.pairwise_cons.mpr ⟨hapart, h.apart⟩
  · rw [hl, hstart]
    exact List.forall_mem_cons.mpr ⟨habove, h.above⟩
  · rw [hl]
    exact List.forall_mem_cons.mpr ⟨hin, h.inside⟩

/-- Live ranges of at least one page that share none are listed once each. -/
theorem Inv.nodup (h : s.Inv) : s.live.Nodup := by
  refine h.apart.imp_of_mem fun {r r'} hr _ hap heq => ?_
  have := h.pos r hr
  subst heq
  rcases hap with hap | hap <;> omega

theorem Inv.free (h : s.Inv) {index count : ℕ} (hr : (index, count) ∈ s.live)
    (hf : s.mem.freeKpage index count = .ok s'.mem) (hl : s'.live = s.live.erase (index, count)) : s'.Inv := by
  have hc := h.pos _ hr
  have hcov : ∀ i, index ≤ i → i < index + count → s.mem.kernelMap.covers i := fun i h1 h2 => by
    have := h.above _ hr
    have := h.inside _ hr
    have := h.start
    exact h.covers_iff.mpr (by dsimp only at *; omega)
  obtain ⟨hrel, hmem⟩ := (Memory.freeKpage_spec hc (fun i h1 h2 =>
    ⟨hcov i h1 h2, (h.marked i (hcov i h1 h2)).mpr (.inr ⟨_, hr, h1, h2⟩)⟩) fun _ => True).result _ hf
  have hstart : s'.mem.startPage = s.mem.startPage := by rw [hmem]
  have hsub : s'.live ⊆ s.live := hl ▸ List.erase_subset
  refine ⟨hrel.offset.trans h.offset, hrel.length.trans h.length, fun i hi => ?_, fun r hr' => h.pos r (hsub hr'),
    ?_, fun r hr' => hstart ▸ h.above r (hsub hr'), hstart ▸ h.start, fun r hr' => h.inside r (hsub hr')⟩
  · have hi' : s.mem.kernelMap.covers i := by
      unfold Bitmap.covers at hi ⊢
      rwa [hrel.offset, hrel.length] at hi
    rw [hrel.marked i hi'.1, Bool.and_eq_true, Bool.not_eq_true', decide_eq_false_iff_not, h.marked i hi', hstart, hl]
    simp only [h.nodup.mem_erase_iff]
    constructor
    · rintro ⟨hout, hlow | ⟨r, hr', hin⟩⟩
      · exact .inl hlow
      · exact .inr ⟨r, ⟨fun heq => hout (by rw [heq] at hin; exact hin), hr'⟩, hin⟩
    · rintro (hlow | ⟨r, ⟨hne, hr'⟩, hin⟩)
      · have := h.above _ hr
        exact ⟨by dsimp only at this; omega, .inl hlow⟩
      · -- the other range shares no page with the one that goes
        have hap := h.apart.forall hr' hr hne
        dsimp only [Apart] at hap
        exact ⟨by omega, .inr ⟨r, hr', hin⟩⟩
  · rw [hl]
    exact h.apart.sublist (List.erase_sublist)

/-- First fit: room below the buffer cache is used before any page of it. -/
theorem Inv.avoids_iff (h : s.Inv) {count index : ℕ} {mem' : Memory} (ha : s.mem.allocKpage count = .ok (index, mem')) :
    Avoids (index, count) ↔ RoomBelow s.mem.kernelMap count := by
  obtain ⟨hc, -, hin, -⟩ := h.fresh ha
  obtain ⟨map', hs⟩ : ∃ map', s.mem.kernelMap.bitmapScan count = some (index, map') := by
    unfold Memory.allocKpage Memory.scanPage at ha
    simp only [hc, decide_true, assert_true, ok_bind] at ha
    split at ha
    · rename_i r hr
      cases ha
      exact ⟨_, hr⟩
    · cases ha
  have hregions : KERNEL_BUFFER_MEM / 0x1000 = 0x800 := rfl
  have hpages : KERNEL_PAGES = 4096 := rfl
  rw [RoomBelow, Bitmap.roomBelow_iff hc hs, hregions]
  simp only [Avoids, Inside, KERNEL_BUFFER_MEM, KERNEL_BUFFER_SIZE, KERNEL_RAMDISK_MEM, KERNEL_RAMDISK_SIZE]
  constructor
  · intro hav
    have := hav (index + count - 1) (by omega) (by omega)
    omega
  · intro hle page h1 h2
    omega

theorem step_inv (h : s.Inv) {c : Call} (hs : s.Step c s') : s'.Inv := by
  cases c with
  | alloc count index => exact h.alloc hs.1 hs.2
  | free index count => exact h.free hs.1 hs.2.1 hs.2.2

theorem step_avoids (h : s.Inv) (hav : ∀ r ∈ s.live, Avoids r) {c : Call} (hc : s.Roomy c) (hs : s.Step c s') :
    ∀ r ∈ s'.live, Avoids r := by
  cases c with
  | alloc count index =>
    rw [hs.2]
    exact List.forall_mem_cons.mpr ⟨(h.avoids_iff hs.1).mpr hc, hav⟩
  | free index count =>
    rw [hs.2.2]
    exact fun r hr => hav r (List.erase_subset hr)

/-- As long as every allocation finds room below the buffer cache, the live ranges keep to
their territory; and at any time an allocation returns fresh pages above `memory_map`,
none of which belongs to another module exactly when there is such room. -/
theorem kpage_territory {es : List Call} (h : Run Booted Step es s) :
    (Run Booted (Restrict Roomy Step) es s → s.Territory) ∧
      ∀ count index mem', s.mem.allocKpage count = .ok (index, mem') →
        s.mem.startPage ≤ index ∧ (∀ r ∈ s.live, Apart (index, count) r) ∧
          (Avoids (index, count) ↔ RoomBelow s.mem.kernelMap count) := by
  have hinv : s.Inv := Run.invariant (I := Inv) (fun _ => booted_inv) (fun _ _ _ h => step_inv h) es s h
  constructor
  · intro hr
    have hav : s.Inv ∧ ∀ r ∈ s.live, Avoids r := by
      refine Run.invariant (I := fun s => s.Inv ∧ ∀ r ∈ s.live, Avoids r) ?_ ?_ es s hr
      · intro s h
        obtain ⟨size, bytes, rfl⟩ := id h
        exact ⟨booted_inv h, nofun⟩
      · exact fun s c s' hs hstep => ⟨step_inv hs.1 hstep.2, step_avoids hs.1 hs.2 hstep.1 hstep.2⟩
    exact ⟨hinv.apart, hinv.above, hav.2⟩
  · intro count index mem' ha
    obtain ⟨-, h1, -, h2⟩ := hinv.fresh ha
    exact ⟨h1, h2, hinv.avoids_iff ha⟩

/-! ### Runs -/

theorem least_enough : 4096 ≤ 4096 := le_rfl

theorem least_addressable : 4096 + 256 ≤ 2 ^ 20 := by
  decide

/-- 16M of memory; `memory_map` takes two pages. -/
def smallPages : KernelPages := ⟨Memory.memoryMapInit ⟨4096, least_enough, least_addressable⟩ fun _ _ => 0, []⟩

theorem smallPages_booted : smallPages.Booted := ⟨_, _, rfl⟩

theorem smallPages_clear {i : ℕ} (h1 : 258 ≤ i) (h2 : i < KERNEL_PAGES) :
    smallPages.mem.kernelMap.covers i ∧ smallPages.mem.kernelMap.marked i = false := by
  have hinv := booted_inv smallPages_booted
  have hstart : smallPages.mem.startPage = 258 := rfl
  have hcov := hinv.covers_iff.mpr (show 256 ≤ i ∧ i < KERNEL_PAGES from ⟨by omega, h2⟩)
  refine ⟨hcov, Bool.eq_false_iff.mpr fun hm => ?_⟩
  rcases (hinv.marked i hcov).mp hm with hlt | ⟨r, hr, -⟩
  · omega
  · cases hr

/-- The first call may ask for any number of pages there are. -/
theorem smallPages_alloc {count : ℕ} (hc : 0 < count) (hle : 258 + count ≤ KERNEL_PAGES) :
    ∃ index mem, smallPages.mem.allocKpage count = .ok (index, mem) := by
  obtain ⟨index, map, hs, -⟩ := Bitmap.bitmapScan_le hc fun i h1 h2 => smallPages_clear h1 (by omega)
  refine ⟨index, { smallPages.mem with kernelMap := map }, ?_⟩
  unfold Memory.allocKpage Memory.scanPage
  simp only [hc, decide_true, assert_true, ok_bind, hs]

theorem kpage_territory_small : ∃ es s, Run Booted Step es s ∧ (∃ index, s.live = [(index, 16)]) ∧ s.Territory := by
  obtain ⟨index, mem, ha⟩ := smallPages_alloc (show 0 < 16 by decide) (by decide)
  have hstep : Step smallPages (.alloc 16 index) ⟨mem, [(index, 16)]⟩ := ⟨ha, rfl⟩
  have hroom : RoomBelow smallPages.mem.kernelMap 16 :=
    ⟨258, by decide, fun i h1 h2 => smallPages_clear h1 (h2.trans (by decide))⟩
  have hrestrict : Restrict Roomy Step smallPages (.alloc 16 index) ⟨mem, [(index, 16)]⟩ := ⟨hroom, hstep⟩
  have hr := Run.snoc (.nil smallPages_booted) hstep
  exact ⟨_, _, hr, ⟨index, rfl⟩, (kpage_territory hr).1 (.snoc (.nil smallPages_booted) hrestrict)⟩

/-- 2048 pages do not fit below the buffer cache, and the first search goes past it. -/
theorem kpage_in_buffers : ¬ ∀ es s, Run Booted Step es s → s.Territory := by
  intro h
  obtain ⟨index, mem, ha⟩ := smallPages_alloc (show 0 < 2048 by decide) (by decide)
  have hstep : Step smallPages (.alloc 2048 index) ⟨mem, [(index, 2048)]⟩ := ⟨ha, rfl⟩
  have hinv := booted_inv smallPages_booted
  have hav := (h _ _ (.snoc (.nil smallPages_booted) hstep)).avoids (index, 2048) (List.mem_singleton_self _)
  obtain ⟨run, hhi, hclear⟩ := (hinv.avoids_iff ha).mp hav
  have hregion : KERNEL_BUFFER_MEM / 0x1000 = 0x800 := rfl
  have hlo := (hinv.covers_iff.mp (hclear run le_rfl (by omega)).1).1
  omega

end KernelPages
end Onix
