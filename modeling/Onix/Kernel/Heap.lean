import Onix.Kernel.PageOps
import Onix.Lib.Transition

/-! kmalloc and kfree of arena.c. A page is named by its index, a block by its address;
a free list holds the addresses of its nodes, the first node first. -/

set_option autoImplicit false

namespace Onix

open Lib

def DESC_COUNT : ℕ := 7
/-- `sizeof(arena_t)` -/
def ARENA_SIZE : ℕ := 16

/-- `arena_t`; of `desc` the index of the descriptor. -/
structure Arena where
  desc : Option (Fin DESC_COUNT)
  count : ℕ
  large : Bool
  magic : UInt32

/-- The free lists of the descriptors, and what the first bytes of each page are as an `arena_t`. -/
structure Heap where
  arenas : ℕ → Arena
  freeList : Fin DESC_COUNT → List ℕ

namespace Heap

/-- `block_size` and `total_block`, as `arena_init` computes them. -/
def blockSize (c : Fin DESC_COUNT) : ℕ := 16 * 2 ^ c.val
def totalBlock (c : Fin DESC_COUNT) : ℕ := (4096 - ARENA_SIZE) / blockSize c

def blockAddr (c : Fin DESC_COUNT) (page idx : ℕ) : ℕ := page * 4096 + ARENA_SIZE + idx * blockSize c

def getArenaBlock (c : Fin DESC_COUNT) (page idx : ℕ) : Except Halt ℕ := do
  assert "arena->desc->total_block > idx" (totalBlock c > idx)
  .ok (blockAddr c page idx)

def getBlockArena (block : ℕ) : ℕ := block / 4096

def listPush (l : List ℕ) (node : ℕ) : Except Halt (List ℕ) := do
  assert "!list_search(list, node)" (node ∉ l)
  .ok (node :: l)

/-- The loop of `kmalloc` over the blocks of a new page. -/
def pushBlocks (c : Fin DESC_COUNT) (page : ℕ) (l : List ℕ) : Except Halt (List ℕ) :=
  (List.range (totalBlock c)).foldlM (fun l idx => do
    let block ← getArenaBlock c page idx
    assert "!list_search(&arena->desc->free_list, block)" (block ∉ l)
    let l ← listPush l block
    assert "list_search(&arena->desc->free_list, block)" (block ∈ l)
    .ok l) l

/-- The loop of `kfree` over the blocks of a page none of whose blocks is in use. -/
def unlinkBlocks (c : Fin DESC_COUNT) (page : ℕ) (l : List ℕ) : Except Halt (List ℕ) :=
  (List.range (totalBlock c)).foldlM (fun l idx => do
    let block ← getArenaBlock c page idx
    assert "list_search(&arena->desc->free_list, block)" (block ∈ l)
    let l := l.erase block
    assert "!list_search(&arena->desc->free_list, block)" (block ∉ l)
    .ok l) l

/-- The descriptor the loop over `descriptors` ends at. -/
def descFor (size : UInt32) : Fin DESC_COUNT :=
  ((List.finRange DESC_COUNT).find? fun c => blockSize c ≥ size.toNat).getD ⟨6, by decide⟩

/-- The page that `kmalloc` takes when the list of the descriptor is empty. -/
def refill (h : Heap) (m : Memory) (c : Fin DESC_COUNT) : Except Halt (Heap × Memory) :=
  if h.freeList c = [] then do
    let (page, m) ← m.allocKpage 1
    let l ← pushBlocks c page (h.freeList c)
    .ok (⟨Function.update h.arenas page ⟨some c, totalBlock c, false, ONIX_MAGIC⟩,
      Function.update h.freeList c l⟩, m)
  else .ok (h, m)

/-- The part of `kmalloc` for more than 1024 bytes; `memset` clears all pages of the region. -/
def kmallocLarge (h : Heap) (m : Memory) (size : UInt32) : Except Halt (ℕ × Heap × Memory) := do
  let count := (divRoundUp (size + 16) PAGE_SIZE).toNat
  let (page, m) ← m.allocKpage count
  let cleared := fun p => if page ≤ p ∧ p < page + count then ⟨none, 0, false, 0⟩ else h.arenas p
  .ok (page * 4096 + ARENA_SIZE,
    ⟨Function.update cleared page ⟨none, count, true, ONIX_MAGIC⟩, h.freeList⟩, m)

def kmalloc (h : Heap) (m : Memory) (size : UInt32) : Except Halt (ℕ × Heap × Memory) :=
  if size > 1024 then h.kmallocLarge m size
  else do
    let c := descFor size
    let (h, m) ← h.refill m c
    match h.freeList c with
    | [] => .error (.assertion "!list_empty(list)")
    | block :: rest =>
      let page := getBlockArena block
      let arena := h.arenas page
      assert "arena->large == false && arena->magic == ONIX_MAGIC" (!arena.large && arena.magic == ONIX_MAGIC)
      .ok (block, ⟨Function.update h.arenas page { arena with count := arena.count - 1 },
        Function.update h.freeList c rest⟩, m)

def kfree (h : Heap) (m : Memory) (ptr : ℕ) : Except Halt (Heap × Memory) := do
  assert "ptr" (ptr ≠ 0)
  let page := getBlockArena ptr
  let arena := h.arenas page
  assert "arena->magic == ONIX_MAGIC" (arena.magic = ONIX_MAGIC)
  if arena.large then
    let m ← m.freeKpage page arena.count
    .ok (h, m)
  else
    match arena.desc with
    | none => .error .nullPointer
    | some c =>
      let l ← listPush (h.freeList c) ptr
      let h := Heap.mk (Function.update h.arenas page { arena with count := arena.count + 1 })
        (Function.update h.freeList c l)
      if arena.count + 1 = totalBlock c then
        let l ← unlinkBlocks c page l
        let m ← m.freeKpage page 1
        .ok (⟨h.arenas, Function.update h.freeList c l⟩, m)
      else .ok (h, m)

/-! ### Blocks -/

variable {c c' : Fin DESC_COUNT} {page idx : ℕ}

theorem blockSize_pos (c : Fin DESC_COUNT) : 16 ≤ blockSize c :=
  Nat.le_mul_of_pos_right _ (Nat.two_pow_pos _)

theorem block_end (h : idx < totalBlock c) : (idx + 1) * blockSize c ≤ 4080 := by
  have h1 : idx + 1 ≤ 4080 / blockSize c := h
  exact (Nat.le_div_iff_mul_le (by have := blockSize_pos c; omega)).mp h1

theorem block_in_page (page : ℕ) (h : idx < totalBlock c) :
    page * 4096 + 16 ≤ blockAddr c page idx ∧ blockAddr c page idx + blockSize c ≤ (page + 1) * 4096 := by
  have h1 := block_end h
  rw [Nat.succ_mul] at h1
  unfold blockAddr ARENA_SIZE
  omega

theorem blockAddr_page (h : idx < totalBlock c) : blockAddr c page idx / 4096 = page := by
  have h1 := block_in_page page h
  have h2 := blockSize_pos c
  omega

theorem blockAddr_inj {i j : ℕ} (h : blockAddr c page i = blockAddr c page j) : i = j := by
  unfold blockAddr at h
  have h1 := blockSize_pos c
  exact Nat.eq_of_mul_eq_mul_right (by omega : 0 < blockSize c) (by omega)

/-- Two blocks of a page are the same or do not overlap. -/
theorem blockAddr_apart {i j : ℕ} (h : i < j) : blockAddr c page i + blockSize c ≤ blockAddr c page j := by
  have h1 : (i + 1) * blockSize c ≤ j * blockSize c := Nat.mul_le_mul_right _ h
  rw [Nat.succ_mul] at h1
  unfold blockAddr
  omega

/-- The list that `pushBlocks` builds. -/
def blocks (c : Fin DESC_COUNT) (page : ℕ) : List ℕ := ((List.range (totalBlock c)).map (blockAddr c page)).reverse

theorem mem_blocks {b : ℕ} : b ∈ blocks c page ↔ ∃ idx < totalBlock c, b = blockAddr c page idx := by
  simp only [blocks, List.mem_reverse, List.mem_map, List.mem_range, eq_comm]

theorem nodup_blocks : (blocks c page).Nodup :=
  List.nodup_reverse.mpr (List.nodup_range.map fun _ _ h => blockAddr_inj h)

theorem length_blocks (c : Fin DESC_COUNT) (page : ℕ) : (blocks c page).length = totalBlock c := by simp [blocks]

theorem page_of_mem_blocks {b : ℕ} (h : b ∈ blocks c page) : b / 4096 = page := by
  obtain ⟨idx, hi, rfl⟩ := mem_blocks.mp h
  exact blockAddr_page hi

theorem totalBlock_pos (c : Fin DESC_COUNT) : 0 < totalBlock c := by
  revert c
  decide

theorem notMem_of_range {n i : ℕ} {done after : List ℕ} (hl : List.range n = done ++ i :: after) :
    i < n ∧ i ∉ done := by
  have hnd := hl ▸ List.nodup_range (n := n)
  refine ⟨List.mem_range.mp (by rw [hl]; simp), fun hm => ?_⟩
  exact (List.nodup_append.mp hnd).2.2 i hm i (List.mem_cons_self ..) rfl

theorem pushBlocks_spec (c : Fin DESC_COUNT) (page : ℕ) (bad : Halt → Prop) :
    Meets bad (pushBlocks c page []) fun l => l = blocks c page := by
  refine Meets.foldlM (I := fun done l => l = (done.map (blockAddr c page)).reverse) rfl ?_
  rintro done idx after hs l rfl
  obtain ⟨hidx, hnot⟩ := notMem_of_range hs
  have hfresh : blockAddr c page idx ∉ (done.map (blockAddr c page)).reverse := by
    intro hm
    obtain ⟨j, hj, he⟩ := List.mem_map.mp (List.mem_reverse.mp hm)
    exact hnot (blockAddr_inj he ▸ hj)
  simp only [getArenaBlock, listPush, gt_iff_lt, hidx, decide_true, assert_true, ok_bind, hfresh,
    not_false_eq_true, List.mem_cons_self]
  exact meets_ok.mpr (by simp)

/-- The blocks of a page can be taken off a list that holds each of them once. -/
theorem unlinkBlocks_spec {l : List ℕ} (hl : l.Nodup) (hall : ∀ idx < totalBlock c, blockAddr c page idx ∈ l)
    (honly : ∀ b ∈ l, b / 4096 = page → b ∈ blocks c page) (bad : Halt → Prop) :
    Meets bad (unlinkBlocks c page l) fun l' => l' = l.filter fun b => b / 4096 ≠ page := by
  refine (Meets.foldlM (I := fun done l' => l' = l.filter fun b => b ∉ done.map (blockAddr c page)) ?_ ?_).imp ?_
  · simp
  · rintro done idx after hs l' rfl
    obtain ⟨hidx, hnot⟩ := notMem_of_range hs
    have hkept : blockAddr c page idx ∈ l.filter fun b => b ∉ done.map (blockAddr c page) := by
      refine List.mem_filter.mpr ⟨hall idx hidx, decide_eq_true fun hm => ?_⟩
      obtain ⟨j, hj, he⟩ := List.mem_map.mp hm
      exact hnot (blockAddr_inj he ▸ hj)
    have hgone := (hl.filter fun b => b ∉ done.map (blockAddr c page)).not_mem_erase (a := blockAddr c page idx)
    simp only [getArenaBlock, gt_iff_lt, hidx, decide_true, assert_true, ok_bind, hkept, hgone, not_false_eq_true]
    apply meets_ok.mpr
    rw [(hl.filter _).erase_eq_filter, List.filter_filter]
    refine List.filter_congr fun b _ => ?_
    simp only [List.map_append, List.map_cons, List.map_nil, List.mem_append, List.mem_singleton, not_or, bne,
      Bool.decide_and, decide_not, Bool.and_comm, beq_eq_decide]
  · rintro l' rfl
    refine List.filter_congr fun b hb => ?_
    refine decide_eq_decide.mpr (not_congr ⟨fun hm => ?_, fun hp => ?_⟩)
    · obtain ⟨i, hi, rfl⟩ := List.mem_map.mp hm
      exact blockAddr_page (List.mem_range.mp hi)
    · exact List.mem_reverse.mp (honly b hb hp)

/-! ### The invariant -/

/-- `q` is a page of blocks of the class `c`. -/
def Small (h : Heap) (c : Fin DESC_COUNT) (q : ℕ) : Prop :=
  (h.arenas q).desc = some c ∧ (h.arenas q).large = false ∧ (h.arenas q).magic = ONIX_MAGIC

/-- The pages the region `r` has bytes in, from its header on. -/
def Spans (r : ℕ × ℕ) (q : ℕ) : Prop := r.1 / 4096 ≤ q ∧ q * 4096 < r.1 + r.2

/-- What the header of a region says. -/
inductive Held (h : Heap) (r : ℕ × ℕ) : Prop
  | small (c : Fin DESC_COUNT) : Small h c (r.1 / 4096) → r.1 ∈ blocks c (r.1 / 4096) → r.2 ≤ blockSize c → Held h r
  | large : (h.arenas (r.1 / 4096)).large = true → (h.arenas (r.1 / 4096)).magic = ONIX_MAGIC →
      r.1 = r.1 / 4096 * 4096 + ARENA_SIZE → (h.arenas (r.1 / 4096)).count = (r.2 + ARENA_SIZE + 4095) / 4096 → Held h r

/-- The page of an arena: one that a live region starts in, or the spare one, none of whose blocks is live. -/
def InUse (live : List (ℕ × ℕ)) (spare : Option ℕ) (q : ℕ) : Prop := spare = some q ∨ ∃ r ∈ live, r.1 / 4096 = q

def Owns (live : List (ℕ × ℕ)) (spare : Option ℕ) (q : ℕ) : Prop := spare = some q ∨ ∃ r ∈ live, Spans r q

def freeIn (h : Heap) (c : Fin DESC_COUNT) (q : ℕ) : ℕ := (h.freeList c).countP fun b => b / 4096 = q
def liveIn (live : List (ℕ × ℕ)) (q : ℕ) : ℕ := live.countP fun r => r.1 / 4096 = q

/-- A block of a free list: it lies in a page of its class that is in use, and is not live. -/
structure Free (h : Heap) (live : List (ℕ × ℕ)) (spare : Option ℕ) (c : Fin DESC_COUNT) (b : ℕ) : Prop where
  small : Small h c (b / 4096)
  block : b ∈ blocks c (b / 4096)
  inUse : InUse live spare (b / 4096)
  notLive : ∀ r ∈ live, r.1 ≠ b

/-- The heap, the pages that are marked, and the live regions; `map₀` is the bitmap the heap started with. -/
structure HeapInv (map₀ : Bitmap) (h : Heap) (map : Bitmap) (live : List (ℕ × ℕ)) (spare : Option ℕ) : Prop where
  held : ∀ r ∈ live, Held h r
  nodup : (live.map Prod.fst).Nodup
  apart : ∀ r ∈ live, ∀ r' ∈ live, ∀ q, Spans r q → Spans r' q → r.1 / 4096 = r'.1 / 4096
  spareOk : ∀ q, spare = some q → (∃ c, Small h c q) ∧ ∀ r ∈ live, ¬ Spans r q
  free : ∀ c, ∀ b ∈ h.freeList c, Free h live spare c b
  freeNodup : ∀ c, (h.freeList c).Nodup
  balance : ∀ c q, Small h c q → InUse live spare q →
    (h.arenas q).count = freeIn h c q ∧ freeIn h c q + liveIn live q = totalBlock c
  length : map.length = map₀.length
  offset : map.offset = map₀.offset
  pages : ∀ q, map₀.offset ≤ q → (map.marked q = true ↔ map₀.marked q = true ∨ Owns live spare q)
  own : ∀ q, Owns live spare q → map₀.covers q ∧ map₀.marked q = false

theorem Small.unique {h : Heap} {q : ℕ} (h1 : Small h c q) (h2 : Small h c' q) : c = c' :=
  Option.some.inj (h1.1.symm.trans h2.1)

theorem Held.spans_self {h : Heap} {r : ℕ × ℕ} (hr : Held h r) : Spans r (r.1 / 4096) := by
  refine ⟨le_rfl, ?_⟩
  cases hr with
  | small c _ hb _ =>
    obtain ⟨idx, hi, he⟩ := mem_blocks.mp hb
    have := (block_in_page (r.1 / 4096) hi).1
    omega
  | large _ _ hp _ =>
    unfold ARENA_SIZE at hp
    omega

theorem spans_small {r : ℕ × ℕ} {q : ℕ} (hb : r.1 ∈ blocks c (r.1 / 4096)) (hn : r.2 ≤ blockSize c) :
    Spans r q ↔ q = r.1 / 4096 := by
  obtain ⟨idx, hi, he⟩ := mem_blocks.mp hb
  have h1 := block_in_page (r.1 / 4096) hi
  rw [← he] at h1
  unfold Spans
  constructor
  · rintro ⟨h2, h3⟩
    have h4 : r.1 + r.2 ≤ (r.1 / 4096 + 1) * 4096 := by omega
    omega
  · rintro rfl
    exact ⟨le_rfl, by omega⟩

theorem spans_large {r : ℕ × ℕ} {q n : ℕ} (hp : r.1 = r.1 / 4096 * 4096 + ARENA_SIZE)
    (hn : n = (r.2 + ARENA_SIZE + 4095) / 4096) : Spans r q ↔ r.1 / 4096 ≤ q ∧ q < r.1 / 4096 + n := by
  unfold Spans
  unfold ARENA_SIZE at *
  constructor <;> rintro ⟨h1, h2⟩ <;> exact ⟨h1, by omega⟩

variable {map₀ map map' : Bitmap} {h : Heap} {live : List (ℕ × ℕ)} {spare : Option ℕ}

theorem HeapInv.inUse_owns (hi : HeapInv map₀ h map live spare) {q : ℕ} (hq : InUse live spare q) : Owns live spare q := by
  rcases hq with hs | ⟨r, hr, rfl⟩
  · exact Or.inl hs
  · exact Or.inr ⟨r, hr, (hi.held r hr).spans_self⟩

theorem HeapInv.marked (hi : HeapInv map₀ h map live spare) {q : ℕ} (hq : Owns live spare q) :
    map.covers q ∧ map.marked q = true := by
  obtain ⟨hc, -⟩ := hi.own q hq
  refine ⟨?_, (hi.pages q hc.1).mpr (Or.inr hq)⟩
  unfold Bitmap.covers at hc ⊢
  rw [hi.length, hi.offset]
  exact hc

/-- The pages that `alloc_kpage` finds are not those of the heap. -/
theorem HeapInv.fresh (hi : HeapInv map₀ h map live spare) {page count q : ℕ} (hal : Memory.Allocates map map' page count)
    (h1 : page ≤ q) (h2 : q < page + count) : ¬ Owns live spare q ∧ map₀.covers q ∧ map₀.marked q = false := by
  obtain ⟨hc, hclear⟩ := hal.clear q h1 h2
  have hc' : map₀.covers q := by
    unfold Bitmap.covers at hc ⊢
    rw [← hi.length, ← hi.offset]
    exact hc
  have hn : ¬ (map₀.marked q = true ∨ Owns live spare q) := by
    rw [← hi.pages q hc'.1, hclear]
    exact nofun
  exact ⟨fun ho => hn (Or.inr ho), hc', by simpa using fun hm => hn (Or.inl hm)⟩

theorem liveIn_eq_zero {q : ℕ} (hq : ∀ r ∈ live, r.1 / 4096 ≠ q) : liveIn live q = 0 :=
  List.countP_eq_zero.mpr fun r hr => by simpa using hq r hr

theorem liveIn_cons {r : ℕ × ℕ} {q : ℕ} : liveIn (r :: live) q = liveIn live q + if r.1 / 4096 = q then 1 else 0 := by
  simp [liveIn, List.countP_cons]

theorem liveIn_erase {r : ℕ × ℕ} {q : ℕ} (hr : r ∈ live) :
    liveIn live q = liveIn (live.erase r) q + if r.1 / 4096 = q then 1 else 0 := by
  rw [← liveIn_cons]
  exact (List.perm_cons_erase hr).countP_eq _

/-! ### What the operations do to the invariant -/

theorem freeIn_of_update {h h' : Heap} {l : List ℕ} (hl : h'.freeList = Function.update h.freeList c l) {q : ℕ} :
    freeIn h' c' q = if c' = c then l.countP fun b => b / 4096 = q else freeIn h c' q := by
  unfold freeIn
  rw [hl, Function.update_apply]
  split_ifs <;> rfl

theorem small_congr {h h' : Heap} {q : ℕ} (he : h'.arenas q = h.arenas q) : Small h' c q ↔ Small h c q := by
  unfold Small
  rw [he]

theorem small_update {h : Heap} {a : Arena} {l : Fin DESC_COUNT → List ℕ} {q : ℕ} (hq : q ≠ page) :
    Small ⟨Function.update h.arenas page a, l⟩ c q ↔ Small h c q :=
  small_congr (Function.update_of_ne hq _ _)

theorem Held.congr {h h' : Heap} {r : ℕ × ℕ} (hr : Held h r) (he : h'.arenas (r.1 / 4096) = h.arenas (r.1 / 4096)) :
    Held h' r := by
  cases hr with
  | small c hs hb hn => exact .small c ((small_congr he).mpr hs) hb hn
  | large hl hm hp hc => exact .large (he ▸ hl) (he ▸ hm) hp (he ▸ hc)

theorem Held.update {h : Heap} {a : Arena} {l : Fin DESC_COUNT → List ℕ} {r : ℕ × ℕ} (hr : Held h r)
    (hq : r.1 / 4096 ≠ page) : Held ⟨Function.update h.arenas page a, l⟩ r :=
  hr.congr (Function.update_of_ne hq _ _)

/-- A new page of blocks. -/
theorem HeapInv.refill (hi : HeapInv map₀ h map live none) (hnil : h.freeList c = [])
    (hal : Memory.Allocates map map' page 1) :
    HeapInv map₀ ⟨Function.update h.arenas page ⟨some c, totalBlock c, false, ONIX_MAGIC⟩,
      Function.update h.freeList c (blocks c page)⟩ map' live (some page) := by
  obtain ⟨hnot, hcov, hclear⟩ := hi.fresh hal le_rfl (Nat.lt_succ_self _)
  have hspan : ∀ r ∈ live, ¬ Spans r page := fun r hr hs => hnot (Or.inr ⟨r, hr, hs⟩)
  have hne : ∀ r ∈ live, r.1 / 4096 ≠ page := fun r hr he => hspan r hr (he ▸ (hi.held r hr).spans_self)
  have hself : Small ⟨Function.update h.arenas page ⟨some c, totalBlock c, false, ONIX_MAGIC⟩,
      Function.update h.freeList c (blocks c page)⟩ c page := by simp [Small]
  have hold : ∀ {q}, InUse live none q → q ≠ page := by
    rintro q (hq | ⟨r, hr, rfl⟩)
    · cases hq
    · exact hne r hr
  refine ⟨fun r hr => (hi.held r hr).update (hne r hr), hi.nodup, hi.apart, ?_, ?_, ?_, ?_,
    hal.length.trans hi.length, hal.offset.trans hi.offset, ?_, ?_⟩
  · rintro q hq
    cases hq
    exact ⟨⟨c, hself⟩, hspan⟩
  · intro c' b hb
    dsimp only at hb
    rw [Function.update_apply] at hb
    split_ifs at hb with hc
    · subst hc
      have hp := page_of_mem_blocks hb
      refine ⟨hp ▸ hself, hp.symm ▸ hb, Or.inl (by rw [hp]), fun r hr he => hne r hr (by rw [he, hp])⟩
    · have hf := hi.free c' b hb
      refine ⟨(small_update (hold hf.inUse)).mpr hf.small, hf.block, ?_, hf.notLive⟩
      exact Or.inr (hf.inUse.resolve_left nofun)
  · intro c'
    dsimp only
    rw [Function.update_apply]
    split_ifs
    · exact nodup_blocks
    · exact hi.freeNodup c'
  · intro c' q hs hq
    rw [freeIn_of_update rfl]
    by_cases hp : q = page
    · subst hp
      obtain rfl := hs.unique hself
      have hall : (blocks c' q).countP (fun b => b / 4096 = q) = totalBlock c' := by
        rw [List.countP_eq_length.mpr fun b hb => by simpa using page_of_mem_blocks hb, length_blocks]
      rw [if_pos rfl, hall, liveIn_eq_zero hne]
      simp
    · have hq' : InUse live none q := Or.inr (hq.resolve_left fun he => hp (Option.some.inj he).symm)
      obtain ⟨h1, h2⟩ := hi.balance c' q ((small_update hp).mp hs) hq'
      have hzero : freeIn h c' q = if c' = c then (blocks c page).countP (fun b => b / 4096 = q) else freeIn h c' q := by
        split_ifs with hc
        · rw [hc, freeIn, hnil]
          exact (List.countP_eq_zero.mpr fun b hb => by simpa [page_of_mem_blocks hb] using Ne.symm hp).symm
        · rfl
      dsimp only
      rw [Function.update_of_ne hp, ← hzero]
      exact ⟨h1, h2⟩
  · intro q hq
    rw [hal.marked q (by rw [hi.offset]; exact hq), Bool.or_eq_true, hi.pages q hq, decide_eq_true_eq]
    unfold Owns
    constructor
    · rintro (h1 | h1 | h1)
      · exact Or.inr (Or.inl (congrArg some (by omega)))
      · exact Or.inl h1
      · exact Or.inr (Or.inr (h1.resolve_left nofun))
    · rintro (h1 | h1 | h1)
      · exact Or.inr (Or.inl h1)
      · cases h1
        exact Or.inl ⟨le_rfl, Nat.lt_succ_self _⟩
      · exact Or.inr (Or.inr (Or.inr h1))
  · rintro q (hq | hq)
    · cases hq
      exact ⟨hcov, hclear⟩
    · exact hi.own q (Or.inr hq)

/-- A block leaves its free list. -/
theorem HeapInv.take (hi : HeapInv map₀ h map live spare) {b size : ℕ} {rest : List ℕ}
    (hl : h.freeList c = b :: rest) (hspare : spare = none ∨ spare = some (b / 4096)) (hsize : size ≤ blockSize c) :
    HeapInv map₀ ⟨Function.update h.arenas (b / 4096) { h.arenas (b / 4096) with
        count := (h.arenas (b / 4096)).count - 1 }, Function.update h.freeList c rest⟩ map ((b, size) :: live) none := by
  have hf := hi.free c b (by rw [hl]; exact List.mem_cons_self ..)
  set a : Arena := { h.arenas (b / 4096) with count := (h.arenas (b / 4096)).count - 1 }
  have hsmall : ∀ {c' q}, Small ⟨Function.update h.arenas (b / 4096) a, Function.update h.freeList c rest⟩ c' q ↔
      Small h c' q := by
    intro c' q
    by_cases hq : q = b / 4096
    · subst hq
      simp [Small, a]
    · exact small_update hq
  have hspan : ∀ q, Spans (b, size) q ↔ q = b / 4096 := fun q => spans_small hf.block hsize
  have hinUse : ∀ q, InUse ((b, size) :: live) none q ↔ InUse live spare q := by
    intro q
    unfold InUse
    simp only [List.mem_cons, exists_eq_or_imp, reduceCtorEq, false_or]
    constructor
    · rintro (rfl | h1)
      · exact hf.inUse
      · exact Or.inr h1
    · rintro (h1 | h1)
      · rcases hspare with h2 | h2 <;> rw [h2] at h1
        · cases h1
        · exact Or.inl (Option.some.inj h1)
      · exact Or.inr h1
  have howns : ∀ q, Owns ((b, size) :: live) none q ↔ Owns live spare q := by
    intro q
    unfold Owns
    simp only [List.mem_cons, exists_eq_or_imp, reduceCtorEq, false_or, hspan]
    constructor
    · rintro (rfl | h1)
      · exact hi.inUse_owns hf.inUse
      · exact Or.inr h1
    · rintro (h1 | h1)
      · rcases hspare with h2 | h2 <;> rw [h2] at h1
        · cases h1
        · exact Or.inl (Option.some.inj h1).symm
      · exact Or.inr h1
  -- a region with bytes in the page of the block starts there
  have hshare : ∀ r ∈ live, Spans r (b / 4096) → r.1 / 4096 = b / 4096 := by
    intro r hr hs
    rcases hf.inUse with h1 | ⟨r', hr', he⟩
    · exact absurd hs ((hi.spareOk _ h1).2 r hr)
    · rw [← he] at hs ⊢
      exact hi.apart r hr r' hr' _ hs (hi.held r' hr').spans_self
  refine ⟨?_, ?_, ?_, nofun, ?_, ?_, ?_, hi.length, hi.offset, fun q hq => by rw [howns]; exact hi.pages q hq,
    fun q hq => hi.own q ((howns q).mp hq)⟩
  · rintro r (_ | ⟨_, hr⟩)
    · exact .small c (hsmall.mpr hf.small) hf.block hsize
    · by_cases hq : r.1 / 4096 = b / 4096
      · cases hi.held r hr with
        | small c' hs hb hn => exact .small c' (hsmall.mpr hs) hb hn
        | large hlarge _ _ _ =>
          rw [hq, hf.small.2.1] at hlarge
          cases hlarge
      · exact (hi.held r hr).update hq
  · refine List.nodup_cons.mpr ⟨fun hm => ?_, hi.nodup⟩
    obtain ⟨r, hr, he⟩ := List.mem_map.mp hm
    exact hf.notLive r hr he
  · rintro r (_ | ⟨_, hr⟩) r' (_ | ⟨_, hr'⟩) q h1 h2
    · rfl
    · rw [hspan] at h1
      exact (hshare r' hr' (h1 ▸ h2)).symm
    · rw [hspan] at h2
      exact hshare r hr (h2 ▸ h1)
    · exact hi.apart r hr r' hr' q h1 h2
  · intro c' b' hb'
    have hnd := hi.freeNodup c
    rw [hl] at hnd
    have hmem : b' ∈ h.freeList c' ∧ b ≠ b' := by
      dsimp only at hb'
      rw [Function.update_apply] at hb'
      split_ifs at hb' with hc
      · subst hc
        exact ⟨by rw [hl]; exact List.mem_cons_of_mem _ hb', fun he => (List.nodup_cons.mp hnd).1 (he ▸ hb')⟩
      · refine ⟨hb', ?_⟩
        rintro rfl
        exact hc ((hi.free c' b hb').small.unique hf.small)
    have hf' := hi.free c' b' hmem.1
    refine ⟨hsmall.mpr hf'.small, hf'.block, (hinUse _).mpr hf'.inUse, ?_⟩
    rintro r (_ | ⟨_, hr⟩)
    · exact hmem.2
    · exact hf'.notLive r hr
  · intro c'
    have hnd := hi.freeNodup c
    rw [hl] at hnd
    dsimp only
    rw [Function.update_apply]
    split_ifs
    · exact (List.nodup_cons.mp hnd).2
    · exact hi.freeNodup c'
  · intro c' q hs hq
    rw [hsmall] at hs
    obtain ⟨h1, h2⟩ := hi.balance c' q hs ((hinUse q).mp hq)
    rw [freeIn_of_update rfl, liveIn_cons]
    dsimp only
    by_cases hp : q = b / 4096
    · subst hp
      obtain rfl := hs.unique hf.small
      have h3 : freeIn h c' (b / 4096) = rest.countP (fun b' => b' / 4096 = b / 4096) + 1 := by
        rw [freeIn, hl, List.countP_cons_of_pos (by simp)]
      rw [Function.update_self, if_pos rfl, if_pos rfl]
      dsimp only [a]
      omega
    · have h3 : freeIn h c' q = if c' = c then rest.countP (fun b' => b' / 4096 = q) else freeIn h c' q := by
        split_ifs with hc
        · rw [hc, freeIn, hl, List.countP_cons_of_neg (by simpa using Ne.symm hp)]
        · rfl
      rw [Function.update_of_ne hp, if_neg (Ne.symm hp), ← h3]
      exact ⟨h1, h2⟩

/-- A live region in a page of blocks is one of its blocks. -/
theorem HeapInv.block (hi : HeapInv map₀ h map live spare) {r : ℕ × ℕ} (hr : r ∈ live) (hs : Small h c (r.1 / 4096)) :
    r.1 ∈ blocks c (r.1 / 4096) ∧ r.2 ≤ blockSize c := by
  cases hi.held r hr with
  | small c' hs' hb hn =>
    obtain rfl := hs.unique hs'
    exact ⟨hb, hn⟩
  | large hl _ _ _ =>
    rw [hs.2.1] at hl
    cases hl

/-- Every block of a page is free or live: as many are as there are blocks. -/
theorem HeapInv.cover (hi : HeapInv map₀ h map live spare) {q b : ℕ} (hs : Small h c q) (hq : InUse live spare q)
    (hb : b ∈ blocks c q) : b ∈ h.freeList c ∨ ∃ r ∈ live, r.1 = b := by
  set free := (h.freeList c).filter fun b => b / 4096 = q with hfree
  set held := (live.filter fun r => r.1 / 4096 = q).map Prod.fst with hheld
  have hnd : (free ++ held).Nodup := by
    refine List.nodup_append.mpr ⟨(hi.freeNodup c).filter _, hi.nodup.sublist ((List.filter_sublist).map _), ?_⟩
    rintro x hx y hy rfl
    obtain ⟨r, hr, he⟩ := List.mem_map.mp hy
    exact (hi.free c x (List.mem_filter.mp hx).1).notLive r (List.mem_filter.mp hr).1 he
  have hsub : free ++ held ⊆ blocks c q := by
    intro x hx
    rcases List.mem_append.mp hx with hx | hx
    · obtain ⟨h1, h2⟩ := List.mem_filter.mp hx
      have h2 : x / 4096 = q := by simpa using h2
      exact h2 ▸ (hi.free c x h1).block
    · obtain ⟨r, hr, rfl⟩ := List.mem_map.mp hx
      obtain ⟨h1, h2⟩ := List.mem_filter.mp hr
      have h2 : r.1 / 4096 = q := by simpa using h2
      have h3 := (hi.block h1 (h2.symm ▸ hs)).1
      rwa [h2] at h3
  have hlen : (blocks c q).length ≤ (free ++ held).length := by
    have h1 := (hi.balance c q hs hq).2
    unfold freeIn liveIn at h1
    rw [length_blocks, List.length_append, hfree, hheld, List.length_map, ← List.countP_eq_length_filter,
      ← List.countP_eq_length_filter]
    omega
  have hperm := (List.subperm_of_subset hnd hsub).perm_of_length_le hlen
  rcases List.mem_append.mp (hperm.symm.subset hb) with hx | hx
  · exact Or.inl (List.mem_filter.mp hx).1
  · obtain ⟨r, hr, he⟩ := List.mem_map.mp hx
    exact Or.inr ⟨r, (List.mem_filter.mp hr).1, he⟩

/-- The block of a live region goes back on its free list. -/
theorem HeapInv.put (hi : HeapInv map₀ h map live none) {r : ℕ × ℕ} (hr : r ∈ live) (hs : Small h c (r.1 / 4096)) :
    HeapInv map₀ ⟨Function.update h.arenas (r.1 / 4096) { h.arenas (r.1 / 4096) with
        count := (h.arenas (r.1 / 4096)).count + 1 }, Function.update h.freeList c (r.1 :: h.freeList c)⟩ map
      (live.erase r) (if (h.arenas (r.1 / 4096)).count + 1 = totalBlock c then some (r.1 / 4096) else none) := by
  set a : Arena := { h.arenas (r.1 / 4096) with count := (h.arenas (r.1 / 4096)).count + 1 }
  set spare' := if (h.arenas (r.1 / 4096)).count + 1 = totalBlock c then some (r.1 / 4096) else none with hspare'
  obtain ⟨hblock, hsize⟩ := hi.block hr hs
  have hinUse₀ : InUse live none (r.1 / 4096) := Or.inr ⟨r, hr, rfl⟩
  obtain ⟨hcount, hbal⟩ := hi.balance c _ hs hinUse₀
  have hlive := liveIn_erase (q := r.1 / 4096) hr
  rw [if_pos rfl] at hlive
  have hnd : live.Nodup := hi.nodup.of_map _
  have hmem : ∀ r', r' ∈ live.erase r ↔ r' ≠ r ∧ r' ∈ live := fun r' => hnd.mem_erase_iff
  have hsmall : ∀ {c' q}, Small ⟨Function.update h.arenas (r.1 / 4096) a,
      Function.update h.freeList c (r.1 :: h.freeList c)⟩ c' q ↔ Small h c' q := by
    intro c' q
    by_cases hq : q = r.1 / 4096
    · subst hq
      simp [Small, a]
    · exact small_update hq
  have hsome : ∀ q, spare' = some q → q = r.1 / 4096 ∧ liveIn (live.erase r) q = 0 := by
    intro q hq
    rw [hspare'] at hq
    split_ifs at hq with hfull
    cases hq
    exact ⟨rfl, by omega⟩
  -- the page stays in use: there is another live block in it, or it is the spare one
  have hstays : InUse (live.erase r) spare' (r.1 / 4096) := by
    by_cases hfull : (h.arenas (r.1 / 4096)).count + 1 = totalBlock c
    · exact Or.inl (if_pos hfull)
    · have hpos : 0 < liveIn (live.erase r) (r.1 / 4096) := by omega
      obtain ⟨r', hr', he⟩ := List.countP_pos_iff.mp hpos
      exact Or.inr ⟨r', hr', by simpa using he⟩
  have hinUse : ∀ q, InUse (live.erase r) spare' q ↔ InUse live none q := by
    intro q
    constructor
    · rintro (h1 | ⟨r', hr', rfl⟩)
      · rw [(hsome q h1).1]
        exact hinUse₀
      · exact Or.inr ⟨r', ((hmem r').mp hr').2, rfl⟩
    · rintro (h1 | ⟨r', hr', rfl⟩)
      · cases h1
      · by_cases he : r' = r
        · rw [he]
          exact hstays
        · exact Or.inr ⟨r', (hmem r').mpr ⟨he, hr'⟩, rfl⟩
  have howns : ∀ q, Owns (live.erase r) spare' q ↔ Owns live none q := by
    intro q
    constructor
    · rintro (h1 | ⟨r', hr', h1⟩)
      · rw [(hsome q h1).1]
        exact hi.inUse_owns hinUse₀
      · exact Or.inr ⟨r', ((hmem r').mp hr').2, h1⟩
    · rintro (h1 | ⟨r', hr', h1⟩)
      · cases h1
      · by_cases he : r' = r
        · rw [he, spans_small hblock hsize] at h1
          rw [h1]
          rcases hstays with h2 | ⟨r'', hr'', h2⟩
          · exact Or.inl h2
          · exact Or.inr ⟨r'', hr'', h2 ▸ (hi.held r'' ((hmem r'').mp hr'').2).spans_self⟩
        · exact Or.inr ⟨r', (hmem r').mpr ⟨he, hr'⟩, h1⟩
  refine ⟨fun r' hr' => ?_, hi.nodup.sublist ((List.erase_sublist).map _), fun r₁ h1 r₂ h2 =>
    hi.apart r₁ ((hmem r₁).mp h1).2 r₂ ((hmem r₂).mp h2).2, ?_, ?_, ?_, ?_, hi.length, hi.offset,
    fun q hq => by rw [howns]; exact hi.pages q hq, fun q hq => hi.own q ((howns q).mp hq)⟩
  · have hr' := ((hmem r').mp hr').2
    by_cases hq : r'.1 / 4096 = r.1 / 4096
    · obtain ⟨h1, h2⟩ := hi.block hr' (hq.symm ▸ hs)
      exact .small c (hsmall.mpr (hq.symm ▸ hs)) h1 h2
    · exact (hi.held r' hr').update hq
  · intro q hq
    obtain ⟨rfl, hzero⟩ := hsome q hq
    refine ⟨⟨c, hsmall.mpr hs⟩, fun r' hr' hsp => ?_⟩
    have he := hi.apart r' ((hmem r').mp hr').2 r hr _ hsp (hi.held r hr).spans_self
    exact List.countP_eq_zero.mp hzero r' hr' (by simpa using he)
  · intro c' b hb
    dsimp only at hb
    rw [Function.update_apply] at hb
    split_ifs at hb with hc
    · subst hc
      rcases List.mem_cons.mp hb with rfl | hb
      · refine ⟨hsmall.mpr hs, hblock, hstays, fun r' hr' he => ?_⟩
        obtain ⟨hne, hr'⟩ := (hmem r').mp hr'
        exact hne (List.inj_on_of_nodup_map hi.nodup hr' hr he)
      · have hf := hi.free c' b hb
        exact ⟨hsmall.mpr hf.small, hf.block, (hinUse _).mpr hf.inUse, fun r' hr' =>
          hf.notLive r' ((hmem r').mp hr').2⟩
    · have hf := hi.free c' b hb
      exact ⟨hsmall.mpr hf.small, hf.block, (hinUse _).mpr hf.inUse, fun r' hr' =>
        hf.notLive r' ((hmem r').mp hr').2⟩
  · intro c'
    dsimp only
    rw [Function.update_apply]
    split_ifs
    · exact List.nodup_cons.mpr ⟨fun hm => (hi.free c _ hm).notLive r hr rfl, hi.freeNodup c⟩
    · exact hi.freeNodup c'
  · intro c' q hsq hq
    rw [hsmall] at hsq
    obtain ⟨h1, h2⟩ := hi.balance c' q hsq ((hinUse q).mp hq)
    rw [freeIn_of_update rfl]
    dsimp only
    by_cases hp : q = r.1 / 4096
    · subst hp
      obtain rfl := hsq.unique hs
      have h3 : (r.1 :: h.freeList c').countP (fun b => b / 4096 = r.1 / 4096) = freeIn h c' (r.1 / 4096) + 1 := by
        rw [freeIn, List.countP_cons_of_pos (by simp)]
      rw [Function.update_self, if_pos rfl, h3]
      dsimp only [a]
      omega
    · have h3 : (if c' = c then (r.1 :: h.freeList c).countP (fun b => b / 4096 = q) else freeIn h c' q) =
          freeIn h c' q := by
        split_ifs with hc
        · rw [hc, freeIn, List.countP_cons_of_neg (by simpa using Ne.symm hp)]
        · rfl
      have h4 := liveIn_erase (q := q) hr
      rw [if_neg (Ne.symm hp), Nat.add_zero] at h4
      rw [Function.update_of_ne hp, h3, ← h4]
      exact ⟨h1, h2⟩

/-- A page none of whose blocks is live goes back, with its blocks. -/
theorem HeapInv.giveBack (hi : HeapInv map₀ h map live (some page)) (hs : Small h c page)
    (hrel : Memory.Releases map map' page 1) :
    HeapInv map₀ ⟨h.arenas, Function.update h.freeList c ((h.freeList c).filter fun b => b / 4096 ≠ page)⟩ map'
      live none := by
  obtain ⟨-, hspan⟩ := hi.spareOk page rfl
  have hinUse : ∀ q, InUse live none q ↔ q ≠ page ∧ InUse live (some page) q := by
    intro q
    constructor
    · rintro (h1 | ⟨r, hr, rfl⟩)
      · cases h1
      · exact ⟨fun he => hspan r hr (he ▸ (hi.held r hr).spans_self), Or.inr ⟨r, hr, rfl⟩⟩
    · rintro ⟨h1, h2 | h2⟩
      · exact absurd (Option.some.inj h2).symm h1
      · exact Or.inr h2
  have howns : ∀ q, Owns live none q ↔ q ≠ page ∧ Owns live (some page) q := by
    intro q
    constructor
    · rintro (h1 | ⟨r, hr, h1⟩)
      · cases h1
      · exact ⟨fun he => hspan r hr (he ▸ h1), Or.inr ⟨r, hr, h1⟩⟩
    · rintro ⟨h1, h2 | h2⟩
      · exact absurd (Option.some.inj h2).symm h1
      · exact Or.inr h2
  refine ⟨fun r hr => (hi.held r hr).congr rfl, hi.nodup, hi.apart, nofun, ?_, ?_, ?_,
    hrel.length.trans hi.length, hrel.offset.trans hi.offset, ?_, fun q hq => hi.own q ((howns q).mp hq).2⟩
  · intro c' b hb
    have hmem : b ∈ h.freeList c' ∧ b / 4096 ≠ page := by
      dsimp only at hb
      rw [Function.update_apply] at hb
      split_ifs at hb with hc
      · subst hc
        obtain ⟨h1, h2⟩ := List.mem_filter.mp hb
        exact ⟨h1, of_decide_eq_true h2⟩
      · exact ⟨hb, fun he => hc ((hi.free c' b hb).small.unique (he.symm ▸ hs))⟩
    have hf := hi.free c' b hmem.1
    exact ⟨hf.small, hf.block, (hinUse _).mpr ⟨hmem.2, hf.inUse⟩, hf.notLive⟩
  · intro c'
    dsimp only
    rw [Function.update_apply]
    split_ifs
    · exact (hi.freeNodup c).filter _
    · exact hi.freeNodup c'
  · intro c' q hsq hq
    obtain ⟨hne, hq⟩ := (hinUse q).mp hq
    obtain ⟨h1, h2⟩ := hi.balance c' q hsq hq
    have h3 : freeIn ⟨h.arenas, Function.update h.freeList c ((h.freeList c).filter fun b => b / 4096 ≠ page)⟩ c' q =
        freeIn h c' q := by
      rw [freeIn_of_update rfl]
      split_ifs with hc
      · rw [hc, freeIn, List.countP_filter]
        refine List.countP_congr fun b _ => ?_
        simp only [Bool.and_eq_true, decide_eq_true_eq, and_iff_left_iff_imp]
        rintro rfl
        exact hne
      · rfl
    rw [h3]
    exact ⟨h1, h2⟩
  · intro q hq
    rw [hrel.marked q (by rw [hi.offset]; exact hq), howns, Bool.and_eq_true, hi.pages q hq]
    by_cases hp : q = page
    · have h1 := (hi.own page (Or.inl rfl)).2
      subst hp
      simp [h1]
    · have h1 : ¬ (page ≤ q ∧ q < page + 1) := by omega
      rw [decide_eq_false h1]
      simp [hp]

/-- A region of more than 1024 bytes, and the pages cleared for it. -/
theorem HeapInv.allocLarge (hi : HeapInv map₀ h map live none) {h' : Heap} {count size : ℕ}
    (hal : Memory.Allocates map map' page count) (hcount : count = (size + ARENA_SIZE + 4095) / 4096)
    (hself : h'.arenas page = ⟨none, count, true, ONIX_MAGIC⟩)
    (hout : ∀ q, ¬ (page ≤ q ∧ q < page + count) → h'.arenas q = h.arenas q) (hlist : h'.freeList = h.freeList) :
    HeapInv map₀ h' map' ((page * 4096 + ARENA_SIZE, size) :: live) none := by
  have hhead : (page * 4096 + ARENA_SIZE) / 4096 = page := by
    unfold ARENA_SIZE
    omega
  have hspan : ∀ q, Spans (page * 4096 + ARENA_SIZE, size) q ↔ page ≤ q ∧ q < page + count := by
    intro q
    have h1 := spans_large (r := (page * 4096 + ARENA_SIZE, size)) (q := q) (by rw [hhead]) hcount
    rwa [hhead] at h1
  have hold : ∀ q, Owns live none q → ¬ (page ≤ q ∧ q < page + count) :=
    fun q hq hr => (hi.fresh hal hr.1 hr.2).1 hq
  have hin : page ≤ page ∧ page < page + count := ⟨le_rfl, by unfold ARENA_SIZE at hcount; omega⟩
  have hne : ∀ r ∈ live, r.1 / 4096 ≠ page := fun r hr he =>
    hold page (Or.inr ⟨r, hr, he ▸ (hi.held r hr).spans_self⟩) hin
  have hkeep : ∀ q, InUse live none q → h'.arenas q = h.arenas q := fun q hq => hout q (hold q (hi.inUse_owns hq))
  refine ⟨?_, ?_, ?_, nofun, ?_, fun c' => by rw [hlist]; exact hi.freeNodup c', ?_,
    hal.length.trans hi.length, hal.offset.trans hi.offset, ?_, ?_⟩
  · rintro r (_ | ⟨_, hr⟩)
    · exact .large (by simp only [hhead, hself]) (by simp only [hhead, hself]) (by simp only [hhead])
        (by simpa only [hhead, hself] using hcount)
    · exact (hi.held r hr).congr (hkeep _ (Or.inr ⟨r, hr, rfl⟩))
  · refine List.nodup_cons.mpr ⟨fun hm => ?_, hi.nodup⟩
    obtain ⟨r, hr, he⟩ := List.mem_map.mp hm
    exact hne r hr (by rw [he]; exact hhead)
  · rintro r (_ | ⟨_, hr⟩) r' (_ | ⟨_, hr'⟩) q h1 h2
    · rfl
    · exact absurd ((hspan q).mp h1) (hold q (Or.inr ⟨r', hr', h2⟩))
    · exact absurd ((hspan q).mp h2) (hold q (Or.inr ⟨r, hr, h1⟩))
    · exact hi.apart r hr r' hr' q h1 h2
  · intro c' b hb
    rw [hlist] at hb
    have hf := hi.free c' b hb
    obtain ⟨r₀, hr₀, he₀⟩ := hf.inUse.resolve_left nofun
    refine ⟨(small_congr (hkeep _ hf.inUse)).mpr hf.small, hf.block,
      Or.inr ⟨r₀, List.mem_cons_of_mem _ hr₀, he₀⟩, ?_⟩
    rintro r (_ | ⟨_, hr⟩)
    · rintro rfl
      exact hne r₀ hr₀ (he₀.trans hhead)
    · exact hf.notLive r hr
  · rintro c' q hsq (hq | ⟨r, _ | ⟨_, hr⟩, rfl⟩)
    · cases hq
    · have h1 := hsq.1
      simp only [hhead, hself] at h1
      cases h1
    · have hq : InUse live none (r.1 / 4096) := Or.inr ⟨r, hr, rfl⟩
      rw [small_congr (hkeep _ hq)] at hsq
      obtain ⟨h1, h2⟩ := hi.balance c' _ hsq hq
      rw [liveIn_cons, if_neg (by rw [hhead]; exact (hne r hr).symm), hkeep _ hq, freeIn, hlist]
      exact ⟨h1, h2⟩
  · intro q hq
    rw [hal.marked q (by rw [hi.offset]; exact hq), Bool.or_eq_true, hi.pages q hq, decide_eq_true_eq, ← hspan]
    unfold Owns
    simp only [reduceCtorEq, false_or, List.mem_cons, exists_eq_or_imp]
    exact or_left_comm
  · rintro q (hq | ⟨r, _ | ⟨_, hr⟩, hq⟩)
    · cases hq
    · obtain ⟨h1, h2⟩ := (hspan q).mp hq
      exact (hi.fresh hal h1 h2).2
    · exact hi.own q (Or.inr ⟨r, hr, hq⟩)

/-- The pages of a large region go back. -/
theorem HeapInv.freeLarge (hi : HeapInv map₀ h map live none) {r : ℕ × ℕ} (hr : r ∈ live)
    (hlarge : (h.arenas (r.1 / 4096)).large = true)
    (hrel : Memory.Releases map map' (r.1 / 4096) (h.arenas (r.1 / 4096)).count)
    (hspan : ∀ q, Spans r q ↔ r.1 / 4096 ≤ q ∧ q < r.1 / 4096 + (h.arenas (r.1 / 4096)).count) :
    HeapInv map₀ h map' (live.erase r) none := by
  have hnd : live.Nodup := hi.nodup.of_map _
  have hmem : ∀ r', r' ∈ live.erase r ↔ r' ≠ r ∧ r' ∈ live := fun r' => hnd.mem_erase_iff
  -- the header at the head of the pages is that of no other region
  have halone : ∀ r' ∈ live.erase r, r'.1 / 4096 ≠ r.1 / 4096 := by
    intro r' hr' he
    obtain ⟨hne, hr'⟩ := (hmem r').mp hr'
    refine hne (List.inj_on_of_nodup_map hi.nodup hr' hr ?_)
    have hp : ∀ r'' ∈ live, r''.1 / 4096 = r.1 / 4096 → r''.1 = r.1 / 4096 * 4096 + ARENA_SIZE := by
      intro r'' hr'' he
      cases hi.held r'' hr'' with
      | small c hs _ _ =>
        rw [he] at hs
        rw [hs.2.1] at hlarge
        cases hlarge
      | large _ _ hp _ => rwa [he] at hp
    exact (hp r' hr' he).trans (hp r hr rfl).symm
  have hnot : ∀ r' ∈ live.erase r, ∀ q, Spans r' q → ¬ Spans r q := fun r' hr' q h1 h2 =>
    halone r' hr' (hi.apart r' ((hmem r').mp hr').2 r hr q h1 h2)
  have hinUse : ∀ c' q, Small h c' q → InUse live none q → InUse (live.erase r) none q := by
    rintro c' q hs (hq | ⟨r', hr', rfl⟩)
    · cases hq
    · refine Or.inr ⟨r', (hmem r').mpr ⟨?_, hr'⟩, rfl⟩
      rintro rfl
      rw [hs.2.1] at hlarge
      cases hlarge
  refine ⟨fun r' hr' => hi.held r' ((hmem r').mp hr').2, hi.nodup.sublist ((List.erase_sublist).map _),
    fun r₁ h1 r₂ h2 => hi.apart r₁ ((hmem r₁).mp h1).2 r₂ ((hmem r₂).mp h2).2, nofun, ?_, hi.freeNodup, ?_,
    hrel.length.trans hi.length, hrel.offset.trans hi.offset, ?_, ?_⟩
  · intro c' b hb
    have hf := hi.free c' b hb
    exact ⟨hf.small, hf.block, hinUse c' _ hf.small hf.inUse, fun r' hr' => hf.notLive r' ((hmem r').mp hr').2⟩
  · rintro c' q hsq (hq | ⟨r', hr', rfl⟩)
    · cases hq
    · obtain ⟨h1, h2⟩ := hi.balance c' _ hsq (Or.inr ⟨r', ((hmem r').mp hr').2, rfl⟩)
      have h3 := liveIn_erase (q := r'.1 / 4096) hr
      rw [if_neg (halone r' hr').symm, Nat.add_zero] at h3
      rw [← h3]
      exact ⟨h1, h2⟩
  · intro q hq
    rw [hrel.marked q (by rw [hi.offset]; exact hq), Bool.and_eq_true, hi.pages q hq, Bool.not_eq_true',
      decide_eq_false_iff_not, ← hspan]
    constructor
    · rintro ⟨h1, h2 | h2 | ⟨r', hr', h2⟩⟩
      · exact Or.inl h2
      · cases h2
      · exact Or.inr (Or.inr ⟨r', (hmem r').mpr ⟨fun he => h1 (he ▸ h2), hr'⟩, h2⟩)
    · rintro (h1 | h1 | ⟨r', hr', h1⟩)
      · refine ⟨fun h2 => ?_, Or.inl h1⟩
        rw [(hi.own q (Or.inr ⟨r, hr, h2⟩)).2] at h1
        cases h1
      · cases h1
      · exact ⟨hnot r' hr' q h1, Or.inr (Or.inr ⟨r', ((hmem r').mp hr').2, h1⟩)⟩
  · rintro q (hq | ⟨r', hr', hq⟩)
    · cases hq
    · exact hi.own q (Or.inr ⟨r', ((hmem r').mp hr').2, hq⟩)

end Heap
end Onix
