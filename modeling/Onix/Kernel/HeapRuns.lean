import Onix.Kernel.Heap

/-! Runs of calls of kmalloc and kfree, in any order and of any sizes. -/

set_option autoImplicit false

namespace Onix

open Lib

namespace Heap

variable {map₀ map map' : Bitmap} {h : Heap} {m : Memory} {live : List (ℕ × ℕ)} {c : Fin DESC_COUNT}

/-- Every halt but that of `scan_page` when there are no pages left. -/
abbrev OtherHalt (x : Halt) : Prop := x ≠ .panic "Scan page fail!!!"

theorem allocKpage_finds (m : Memory) (count : ℕ) (hc : 0 < count) : Meets OtherHalt (m.allocKpage count) fun r =>
    Memory.Allocates m.kernelMap r.2.kernelMap r.1 count := by
  refine Meets.assert_bind (fun hb => absurd hc (by simpa using hb)) fun _ => ?_
  refine Meets.bind (Q := fun r => Memory.Allocates m.kernelMap r.2 r.1 count) ?_ fun r hr => meets_ok.mpr hr
  refine Meets.assert_bind (fun hb => absurd hc (by simpa using hb)) fun _ => ?_
  split
  · rename_i r hr
    obtain ⟨h1, h2, h3, h4⟩ := Bitmap.bitmapScan_some hc hr
    exact meets_ok.mpr ⟨h1, h2, h3, h4⟩
  · exact meets_error.mpr fun hb => hb rfl

theorem blockSize_descFor {size : UInt32} (hs : ¬ size > 1024) : size.toNat ≤ blockSize (descFor size) := by
  have hle : size.toNat ≤ 1024 := by
    have := UInt32.not_lt.mp hs
    exact UInt32.le_iff_toNat_le.mp this
  unfold descFor
  cases hf : (List.finRange DESC_COUNT).find? fun c => blockSize c ≥ size.toNat with
  | none => exact hle
  | some c => simpa using List.find?_some hf

theorem pages_of_size {size : UInt32} (hs : size.toNat + 16 + 4095 < 2 ^ 32) :
    (divRoundUp (size + 16) PAGE_SIZE).toNat = (size.toNat + ARENA_SIZE + 4095) / 4096 := by
  simp only [divRoundUp, PAGE_SIZE, ARENA_SIZE, UInt32.toNat_div, UInt32.toNat_sub, UInt32.toNat_add, UInt32.toNat_ofNat,
    Nat.reducePow, Nat.reduceMod] at hs ⊢
  omega

theorem refill_spec (hi : HeapInv map₀ h m.kernelMap live none) : Meets OtherHalt (h.refill m c) fun r =>
    ∃ spare b rest, HeapInv map₀ r.1 r.2.kernelMap live spare ∧ r.1.freeList c = b :: rest ∧
      (spare = none ∨ spare = some (b / 4096)) := by
  unfold refill
  split_ifs with hnil
  · apply (allocKpage_finds m 1 Nat.one_pos).bind
    rintro ⟨page, m₁⟩ hal
    dsimp only at *
    rw [hnil]
    apply (pushBlocks_spec c page OtherHalt).bind
    rintro l rfl
    cases hb : blocks c page with
    | nil =>
      have h1 := length_blocks c page
      have h2 := totalBlock_pos c
      rw [hb, List.length_nil] at h1
      omega
    | cons b rest =>
      have hnew := hi.refill hnil hal
      rw [hb] at hnew
      have hmem : b ∈ blocks c page := by
        rw [hb]
        exact List.mem_cons_self ..
      exact meets_ok.mpr ⟨some page, b, rest, hnew, Function.update_self .., Or.inr (by rw [page_of_mem_blocks hmem])⟩
  · cases hl : h.freeList c with
    | nil => exact absurd hl hnil
    | cons b rest => exact meets_ok.mpr ⟨none, b, rest, hi, hl, Or.inl rfl⟩

theorem kmalloc_spec (hi : HeapInv map₀ h m.kernelMap live none) {size : UInt32} (hs : size.toNat + 16 + 4095 < 2 ^ 32) :
    Meets OtherHalt (h.kmalloc m size) fun r => HeapInv map₀ r.2.1 r.2.2.kernelMap ((r.1, size.toNat) :: live) none := by
  unfold kmalloc
  split_ifs with hlarge
  · have hcount := pages_of_size hs
    refine (allocKpage_finds m (divRoundUp (size + 16) PAGE_SIZE).toNat ?_).bind ?_
    · rw [hcount]
      unfold ARENA_SIZE
      omega
    · rintro ⟨page, m₁⟩ hal
      refine meets_ok.mpr (hi.allocLarge hal hcount (by simp only [Function.update_self]) (fun q hq => ?_) rfl)
      dsimp only at hq ⊢
      rw [Function.update_of_ne, if_neg hq]
      rintro rfl
      refine hq ⟨le_rfl, ?_⟩
      rw [hcount]
      unfold ARENA_SIZE
      omega
  · apply (refill_spec (c := descFor size) hi).bind
    rintro ⟨h₁, m₁⟩ ⟨spare, b, rest, hi₁, hl, hspare⟩
    dsimp only at *
    have hsmall := (hi₁.free _ b (by rw [hl]; exact List.mem_cons_self ..)).small
    rw [hl]
    dsimp only [getBlockArena]
    refine Meets.assert_bind (fun hb => ?_) fun _ => meets_ok.mpr (hi₁.take hl hspare (blockSize_descFor hlarge))
    simp [hsmall.2.1, hsmall.2.2] at hb

theorem kfree_spec (hi : HeapInv map₀ h m.kernelMap live none) {r : ℕ × ℕ} (hr : r ∈ live) (bad : Halt → Prop) :
    Meets bad (h.kfree m r.1) fun x => HeapInv map₀ x.1 x.2.kernelMap (live.erase r) none := by
  have hown : ∀ q, Spans r q → m.kernelMap.covers q ∧ m.kernelMap.marked q = true :=
    fun q hq => hi.marked (Or.inr ⟨r, hr, hq⟩)
  unfold kfree getBlockArena
  cases hi.held r hr with
  | large hl hm hp hcount =>
    have hne : r.1 ≠ 0 := by
      unfold ARENA_SIZE at hp
      omega
    have hspan := fun q => spans_large (q := q) hp hcount
    simp only [hne, hm, hl, ne_eq, not_false_eq_true, decide_true, assert_true, ok_bind, if_true]
    refine (Memory.freeKpage_spec (by rw [hcount]; unfold ARENA_SIZE; omega)
      (fun q h1 h2 => hown q ((hspan q).mpr ⟨h1, h2⟩)) bad).bind ?_
    rintro m₁ ⟨hrel, -⟩
    exact meets_ok.mpr (hi.freeLarge hr hl hrel hspan)
  | small c hs hb hn =>
    have hne : r.1 ≠ 0 := by
      obtain ⟨idx, hidx, he⟩ := mem_blocks.mp hb
      have := (block_in_page (r.1 / 4096) hidx).1
      omega
    have hnot : r.1 ∉ h.freeList c := fun hm => (hi.free c _ hm).notLive r hr rfl
    have hput := hi.put hr hs
    dsimp only at hput
    rw [hs.1] at hput
    set h₁ : Heap := ⟨Function.update h.arenas (r.1 / 4096) ⟨some c, (h.arenas (r.1 / 4096)).count + 1,
      (h.arenas (r.1 / 4096)).large, (h.arenas (r.1 / 4096)).magic⟩, Function.update h.freeList c (r.1 :: h.freeList c)⟩
    have hl₁ : h₁.freeList c = r.1 :: h.freeList c := Function.update_self ..
    refine Meets.assert_bind (fun hb => absurd hne (by simpa using hb)) fun _ =>
      Meets.assert_bind (fun hb => absurd hs.2.2 (by simpa using hb)) fun _ => ?_
    rw [if_neg (by rw [hs.2.1]; exact nofun), hs.1]
    have hpush : listPush (h.freeList c) r.1 = .ok (r.1 :: h.freeList c) := by
      simp only [listPush, hnot, not_false_eq_true, decide_true, assert_true, ok_bind]
    dsimp only
    rw [hpush, ok_bind]
    split_ifs with hfull
    · rw [if_pos hfull] at hput
      have hs' : Small h₁ c (r.1 / 4096) := by
        obtain ⟨h1, h2, h3⟩ := hs
        simp [Small, h₁, h2, h3]
      have hnone := (hput.spareOk _ rfl).2
      have hall : ∀ idx < totalBlock c, blockAddr c (r.1 / 4096) idx ∈ r.1 :: h.freeList c := by
        intro idx hidx
        rcases hput.cover hs' (Or.inl rfl) (mem_blocks.mpr ⟨idx, hidx, rfl⟩) with h1 | ⟨r', hr', he⟩
        · rwa [hl₁] at h1
        · have h1 := (hput.held r' hr').spans_self
          rw [he, blockAddr_page hidx] at h1
          exact absurd h1 (hnone r' hr')
      refine (unlinkBlocks_spec (hl₁ ▸ hput.freeNodup c) hall (fun b hb' he => ?_) bad).bind ?_
      · exact he ▸ (hput.free c b (hl₁.symm ▸ hb')).block
      · rintro l rfl
        refine (Memory.freeKpage_spec Nat.one_pos (fun q h1 h2 => hown q ?_) bad).bind ?_
        · rw [show q = r.1 / 4096 by omega]
          exact (hi.held r hr).spans_self
        · rintro m₁ ⟨hrel, -⟩
          have hdone := hput.giveBack hs' hrel
          rw [hl₁] at hdone
          exact meets_ok.mpr hdone
    · rw [if_neg hfull] at hput
      exact meets_ok.mpr hput

/-! ### Layout -/

theorem Held.above {r : ℕ × ℕ} (hr : Held h r) : r.1 / 4096 * 4096 + ARENA_SIZE ≤ r.1 := by
  cases hr with
  | small c _ hb _ =>
    obtain ⟨idx, hidx, he⟩ := mem_blocks.mp hb
    have := (block_in_page (r.1 / 4096) hidx).1
    unfold ARENA_SIZE
    omega
  | large _ _ hp _ => exact hp.ge

/-- A region has no bytes in a page of another arena. -/
theorem HeapInv.away (hi : HeapInv map₀ h map live none) {r : ℕ × ℕ} {q : ℕ} (hr : r ∈ live) (hq : InUse live none q)
    (hne : r.1 / 4096 ≠ q) : (q + 1) * 4096 ≤ r.1 ∨ r.1 + r.2 ≤ q * 4096 := by
  obtain ⟨r', hr', he⟩ := hq.resolve_left nofun
  by_contra hc
  have hs : Spans r q := ⟨by omega, by omega⟩
  exact hne ((hi.apart r hr r' hr' q hs (he ▸ (hi.held r' hr').spans_self)).trans he)

/-- Blocks of one page at different addresses do not overlap. -/
theorem blocks_apart {q b b' : ℕ} (hb : b ∈ blocks c q) (hb' : b' ∈ blocks c q) (hne : b ≠ b') :
    b + blockSize c ≤ b' ∨ b' + blockSize c ≤ b := by
  obtain ⟨i, -, rfl⟩ := mem_blocks.mp hb
  obtain ⟨j, -, rfl⟩ := mem_blocks.mp hb'
  rcases Nat.lt_trichotomy i j with h1 | rfl | h1
  · exact Or.inl (blockAddr_apart h1)
  · exact absurd rfl hne
  · exact Or.inr (blockAddr_apart h1)

theorem HeapInv.disjoint (hi : HeapInv map₀ h map live none) {r r' : ℕ × ℕ} (hr : r ∈ live) (hr' : r' ∈ live)
    (hne : r.1 ≠ r'.1) : r.1 + r.2 ≤ r'.1 ∨ r'.1 + r'.2 ≤ r.1 := by
  by_cases hp : r.1 / 4096 = r'.1 / 4096
  · cases hi.held r hr with
    | small c hs hb hn =>
      obtain ⟨hb', hn'⟩ := hi.block hr' (hp ▸ hs)
      have := blocks_apart hb (hp ▸ hb') hne
      omega
    | large hl _ hr₁ _ =>
      cases hi.held r' hr' with
      | small c hs _ _ =>
        rw [hp, hs.2.1] at hl
        cases hl
      | large _ _ hr₂ _ => exact absurd (by rw [hr₁, hp, ← hr₂]) hne
  · have h1 := hi.away hr (Or.inr ⟨r', hr', rfl⟩) hp
    have h2 := hi.away hr' (Or.inr ⟨r, hr, rfl⟩) (Ne.symm hp)
    omega

theorem HeapInv.header (hi : HeapInv map₀ h map live none) {r : ℕ × ℕ} {q : ℕ} (hr : r ∈ live)
    (hq : InUse live none q) : q * 4096 + ARENA_SIZE ≤ r.1 ∨ r.1 + r.2 ≤ q * 4096 := by
  by_cases hp : r.1 / 4096 = q
  · exact Or.inl (hp ▸ (hi.held r hr).above)
  · have := hi.away hr hq hp
    unfold ARENA_SIZE
    omega

theorem HeapInv.freeBlock (hi : HeapInv map₀ h map live none) {r : ℕ × ℕ} {b : ℕ} (hr : r ∈ live)
    (hb : b ∈ h.freeList c) : b + blockSize c ≤ r.1 ∨ r.1 + r.2 ≤ b := by
  have hf := hi.free c b hb
  by_cases hp : r.1 / 4096 = b / 4096
  · obtain ⟨hb', hn'⟩ := hi.block hr (hp.symm ▸ hf.small)
    have := blocks_apart hf.block (hp ▸ hb') (hf.notLive r hr).symm
    omega
  · obtain ⟨idx, hidx, he⟩ := mem_blocks.mp hf.block
    have h1 := (block_in_page (b / 4096) hidx).2
    rw [← he] at h1
    have h2 := hi.away hr hf.inUse hp
    omega

/-! ### Runs -/

/-- The heap, the memory its pages come from, and the regions that are live, with the sizes asked for. -/
structure Allocator where
  heap : Heap
  memory : Memory
  live : List (ℕ × ℕ)

inductive Call
  | kmalloc (size : UInt32)
  | kfree (r : ℕ × ℕ)

namespace Allocator

def call (s : Allocator) : Call → Except Halt Allocator
  | .kmalloc size => do
    let (p, h, m) ← s.heap.kmalloc s.memory size
    .ok ⟨h, m, (p, size.toNat) :: s.live⟩
  | .kfree r => do
    let (h, m) ← s.heap.kfree s.memory r.1
    .ok ⟨h, m, s.live.erase r⟩

/-- Sizes that can be rounded to pages, and pointers that are live. -/
def Permitted (s : Allocator) : Call → Prop
  | .kmalloc size => size.toNat + 16 + 4095 < 2 ^ 32
  | .kfree r => r ∈ s.live

/-- After `arena_init`, with any contents of the pages. -/
def Init (m₀ : Memory) (s : Allocator) : Prop :=
  (∀ c, s.heap.freeList c = []) ∧ s.memory = m₀ ∧ s.live = []

def Step (s : Allocator) (e : Call) (s' : Allocator) : Prop := s.Permitted e ∧ s.call e = .ok s'

def Inv (m₀ : Memory) (s : Allocator) : Prop := HeapInv m₀.kernelMap s.heap s.memory.kernelMap s.live none

theorem inv_init {m₀ : Memory} {s : Allocator} (h : Init m₀ s) : Inv m₀ s := by
  obtain ⟨hl, hm, hlive⟩ := h
  unfold Inv
  rw [hm, hlive]
  have hnone : ∀ q, ¬ Owns [] none q := by simp [Owns]
  have hnone' : ∀ q, ¬ InUse [] none q := by simp [InUse]
  refine ⟨nofun, List.nodup_nil, nofun, nofun, fun c b hb => ?_, fun c => ?_, fun _ q _ hq => absurd hq (hnone' q),
    rfl, rfl, fun q _ => (or_iff_left (hnone q)).symm, fun q hq => absurd hq (hnone q)⟩
  · rw [hl c] at hb
    cases hb
  · rw [hl c]
    exact List.nodup_nil

/-- A permitted call keeps the invariant, and halts at most because `scan_page` finds no pages. -/
theorem call_spec {m₀ : Memory} {s : Allocator} (hi : Inv m₀ s) {e : Call} (he : s.Permitted e) :
    Meets OtherHalt (s.call e) fun s' => Inv m₀ s' := by
  cases e with
  | kmalloc size => exact (kmalloc_spec hi he).bind fun r hr => meets_ok.mpr hr
  | kfree r => exact (kfree_spec hi he OtherHalt).bind fun x hx => meets_ok.mpr hx

theorem inv_reachable {m₀ : Memory} {s : Allocator} (h : Reachable (Init m₀) Step s) : Inv m₀ s :=
  Reachable.invariant (I := Inv m₀) (fun _ => inv_init) (fun _ _ _ hi hs => (call_spec hi hs.1).result _ hs.2) h

/-- The state of the heap as its users see it. -/
structure Ok (map₀ : Bitmap) (s : Allocator) : Prop where
  inside : ∀ r ∈ s.live, ∀ q, Spans r q →
    map₀.covers q ∧ map₀.marked q = false ∧ s.memory.kernelMap.marked q = true
  nodup : s.live.Nodup
  disjoint : ∀ r ∈ s.live, ∀ r' ∈ s.live, r ≠ r' → r.1 ≠ r'.1 ∧ (r.1 + r.2 ≤ r'.1 ∨ r'.1 + r'.2 ≤ r.1)
  header : ∀ r ∈ s.live, ∀ q, InUse s.live none q → q * 4096 + ARENA_SIZE ≤ r.1 ∨ r.1 + r.2 ≤ q * 4096
  count : ∀ q, InUse s.live none q → (s.heap.arenas q).large = false →
    ∃ c, (s.heap.arenas q).desc = some c ∧ (s.heap.arenas q).count = freeIn s.heap c q
  listed : ∀ c q idx, InUse s.live none q → Small s.heap c q → idx < totalBlock c →
    (∀ r ∈ s.live, r.1 ≠ blockAddr c q idx) → blockAddr c q idx ∈ s.heap.freeList c
  once : ∀ c, (s.heap.freeList c).Nodup ∧ ∀ b ∈ s.heap.freeList c, ∀ c' ≠ c, b ∉ s.heap.freeList c'
  free : ∀ c, ∀ b ∈ s.heap.freeList c, InUse s.live none (b / 4096) ∧ Small s.heap c (b / 4096) ∧
    b ∈ blocks c (b / 4096) ∧ ∀ r ∈ s.live, b + blockSize c ≤ r.1 ∨ r.1 + r.2 ≤ b
  pages : ∀ q, map₀.offset ≤ q →
    (s.memory.kernelMap.marked q = true ↔ map₀.marked q = true ∨ ∃ r ∈ s.live, Spans r q)

theorem Inv.ok {m₀ : Memory} {s : Allocator} (hi : Inv m₀ s) : Ok m₀.kernelMap s := by
  refine ⟨fun r hr q hq => ?_, hi.nodup.of_map _, fun r hr r' hr' hne => ?_, fun r hr q hq => hi.header hr hq, ?_, ?_,
    fun c => ⟨hi.freeNodup c, fun b hb c' hc hb' => hc ((hi.free c' b hb').small.unique (hi.free c b hb).small)⟩,
    fun c b hb => ⟨(hi.free c b hb).inUse, (hi.free c b hb).small, (hi.free c b hb).block,
      fun r hr => hi.freeBlock hr hb⟩, ?_⟩
  · have ho : Owns s.live none q := Or.inr ⟨r, hr, hq⟩
    obtain ⟨h1, h2⟩ := hi.own q ho
    exact ⟨h1, h2, (hi.marked ho).2⟩
  · have hp : r.1 ≠ r'.1 := fun he => hne (List.inj_on_of_nodup_map hi.nodup hr hr' he)
    exact ⟨hp, hi.disjoint hr hr' hp⟩
  · intro q hq hl
    obtain ⟨r, hr, rfl⟩ := hq.resolve_left nofun
    cases hi.held r hr with
    | small c hs _ _ => exact ⟨c, hs.1, (hi.balance c _ hs hq).1⟩
    | large hlarge _ _ _ =>
      rw [hl] at hlarge
      cases hlarge
  · intro c q idx hq hs hidx hlive
    rcases hi.cover hs hq (mem_blocks.mpr ⟨idx, hidx, rfl⟩) with h1 | ⟨r, hr, he⟩
    · exact h1
    · exact absurd he (hlive r hr)
  · intro q hq
    rw [hi.pages q hq]
    simp [Owns]

/-- In every state of a run the heap is well formed, no check of a permitted call fails, and `kfree`
gives back the pages that had bytes of the region it frees and of no other. -/
theorem heap_invariant {m₀ : Memory} {s : Allocator} (h : Reachable (Init m₀) Step s) :
    Ok m₀.kernelMap s ∧
      (∀ e, s.Permitted e → ∀ x, s.call e = .error x → x = .panic "Scan page fail!!!") ∧
      ∀ r ∈ s.live, ∃ s', s.call (.kfree r) = .ok s' ∧ ∀ q, m₀.kernelMap.offset ≤ q →
        ((s.memory.kernelMap.marked q = true ∧ s'.memory.kernelMap.marked q = false) ↔
          Spans r q ∧ ∀ r' ∈ s.live.erase r, ¬ Spans r' q) := by
  have hi := inv_reachable h
  refine ⟨hi.ok, fun e he x hx => not_not.mp ((call_spec hi he).halt x hx), fun r hr => ?_⟩
  obtain ⟨x, hx, hi'⟩ := (kfree_spec hi hr fun _ => True).returns
  refine ⟨⟨x.1, x.2, s.live.erase r⟩, by simp only [call, hx, ok_bind], fun q hq => ?_⟩
  have hnd : s.live.Nodup := hi.nodup.of_map _
  have h1 := hi.pages q hq
  have h2 := hi'.pages q hq
  have h3 := hi.own q
  dsimp only
  rw [← Bool.not_eq_true, h1, h2]
  simp only [Owns, reduceCtorEq, false_or, not_or, not_exists, not_and] at h3 ⊢
  constructor
  · rintro ⟨h4 | ⟨r', hr', h4⟩, h5, h6⟩
    · exact absurd h4 h5
    · by_cases he : r' = r
      · exact ⟨he ▸ h4, h6⟩
      · exact absurd h4 (h6 r' (hnd.mem_erase_iff.mpr ⟨he, hr'⟩))
  · rintro ⟨h4, h5⟩
    refine ⟨Or.inr ⟨r, hr, h4⟩, ?_, h5⟩
    rw [(h3 ⟨r, hr, h4⟩).2]
    exact nofun

theorem smallMemory_enough : 4096 ≤ 4096 := le_rfl

theorem smallMemory_addressable : 4096 + 256 ≤ 2 ^ 20 := by
  decide

/-- Pages 256 to 263 are free. -/
def smallMemory : Memory :=
  { Memory.memoryMapInit ⟨4096, smallMemory_enough, smallMemory_addressable⟩ fun _ _ => 0 with
    kernelMap := ⟨fun _ => false, 1, 256⟩ }

def smallHeap : Allocator := ⟨⟨fun _ => ⟨none, 0, false, 0⟩, fun _ => []⟩, smallMemory, []⟩

/-- Two pages for 5000 bytes, a page of blocks of 1024 bytes behind them, and the two pages given back. -/
theorem heap_invariant_mixed : ∃ s s' s'' r, smallHeap.call (.kmalloc 5000) = .ok s ∧
    s.call (.kmalloc 600) = .ok s' ∧ s.live = [r] ∧ s'.call (.kfree r) = .ok s'' ∧
    Ok smallMemory.kernelMap s' ∧ Ok smallMemory.kernelMap s'' := by
  have hsize : ∀ (s : Allocator) (size : UInt32), size.toNat + 16 + 4095 < 2 ^ 32 → s.Permitted (.kmalloc size) :=
    fun _ _ h => h
  have hfree : ∀ s' r, Reachable (Init smallMemory) Step s' → r ∈ s'.live → ∃ s'', s'.call (.kfree r) = .ok s'' ∧
      Ok smallMemory.kernelMap s' ∧ Ok smallMemory.kernelMap s'' := by
    rintro s' r ⟨es, hs'⟩ hr
    obtain ⟨hok, -, hk⟩ := heap_invariant ⟨es, hs'⟩
    obtain ⟨s'', h3, -⟩ := hk r hr
    have hstep : Step s' (.kfree r) s'' := ⟨hr, h3⟩
    exact ⟨s'', h3, hok, (heap_invariant ⟨_, hs'.snoc hstep⟩).1⟩
  have h0 : Run (Init smallMemory) Step [] smallHeap := .nil ⟨fun _ => rfl, rfl, rfl⟩
  have h1 := Run.snoc (e := .kmalloc 5000) h0 ⟨hsize _ _ (by decide), rfl⟩
  have h2 := Run.snoc (e := .kmalloc 600) h1 ⟨hsize _ _ (by decide), rfl⟩
  obtain ⟨s'', h3, hok, hok'⟩ := hfree _ _ ⟨_, h2⟩ (List.mem_cons_of_mem _ (List.mem_cons_self ..))
  exact ⟨_, _, s'', _, rfl, rfl, rfl, h3, hok, hok'⟩

end Allocator
end Heap
end Onix
