import Onix.Fs.Bitmaps

/-! `inode_bfree` over the blocks of a device: the tables are read through the cache, and the zone bitmap is changed in
its buffers. A buffer is named by the number of its block. -/

set_option autoImplicit false

namespace Onix

open Lib SharedWrite

/-! ### Bits of bytes -/

/-- `1 << bits` -/
def mask (bits : ℕ) : UInt8 := ⟨BitVec.twoPow 8 bits⟩

/-- `bitmap_test` over the bytes of a bitmap. -/
def testByte (bytes : ℕ → UInt8) (length offset index : ℕ) : Except Halt Bool := do
  assert "index >= map->offset" (index ≥ offset)
  let idx := index - offset
  assert "bytes < map->length" (idx / 8 < length)
  .ok (bytes (idx / 8) &&& mask (idx % 8) ≠ 0)

/-- `bitmap_set` to false. -/
def clearByte (bytes : ℕ → UInt8) (length offset index : ℕ) : Except Halt (ℕ → UInt8) := do
  assert "index >= map->offset" (index ≥ offset)
  let idx := index - offset
  assert "bytes < map->length" (idx / 8 < length)
  .ok (Function.update bytes (idx / 8) (bytes (idx / 8) &&& ~~~mask (idx % 8)))

def bitAt (bytes : ℕ → UInt8) (k : ℕ) : Bool := (bytes (k / 8)).toBitVec.getLsbD (k % 8)

theorem mask_and (x : UInt8) {b : ℕ} (hb : b < 8) : decide (x &&& mask b ≠ 0) = x.toBitVec.getLsbD b := by
  have h : x &&& mask b = ⟨x.toBitVec &&& BitVec.twoPow 8 b⟩ := rfl
  rw [h, BitVec.and_twoPow]
  cases hbit : x.toBitVec.getLsbD b with
  | false => rfl
  | true =>
    rw [if_pos rfl, decide_eq_true_iff]
    intro h0
    have h1 := congrArg (fun y : UInt8 => y.toBitVec.getLsbD b) h0
    simp [hb] at h1

theorem and_not_mask (x : UInt8) {b c : ℕ} (hc : c < 8) :
    (x &&& ~~~mask b).toBitVec.getLsbD c = (x.toBitVec.getLsbD c && decide (c ≠ b)) := by
  simp [mask, hc, eq_comm]

theorem bitAt_clear (bytes : ℕ → UInt8) (k j : ℕ) :
    bitAt (Function.update bytes (k / 8) (bytes (k / 8) &&& ~~~mask (k % 8))) j = (bitAt bytes j && decide (j ≠ k)) := by
  unfold bitAt
  by_cases hbyte : j / 8 = k / 8
  · rw [hbyte, Function.update_self, and_not_mask _ (Nat.mod_lt j (by norm_num))]
    congr 2
    rw [eq_iff_iff]
    omega
  · have hne : j ≠ k := fun he => hbyte (by rw [he])
    rw [Function.update_of_ne hbyte, decide_eq_true hne, Bool.and_true]

/-- The blocks of a device, those of them that are cached, and what its super block says of the zones. -/
structure ZoneDev where
  disk : ℕ → ℕ → UInt8
  data : ℕ → ℕ → UInt8
  /-- The references to the buffer of a block; without one it is not cached. -/
  count : ℕ → ℕ
  dirty : ℕ → Bool
  /-- `sb->zmaps`, by the blocks that they hold. -/
  zmaps : ℕ → Option ℕ
  firstdatazone : UInt16

namespace ZoneDev

open BitmapBlocks

def bread (d : ZoneDev) (block : ℕ) : Except Halt ZoneDev :=
  if d.count block ≠ 0 then .ok { d with count := Function.update d.count block (d.count block + 1) }
  else do
    assert "bf->count == 0 && bf->dirty == false && bf->valid == false" !d.dirty block
    .ok { d with
      count := Function.update d.count block 1
      data := Function.update d.data block (d.disk block) }

def bwrite (d : ZoneDev) (block : ℕ) : ZoneDev :=
  { d with disk := Function.update d.disk block (d.data block) }

def brelease (d : ZoneDev) (block : ℕ) : Except Halt ZoneDev := do
  assert "bf->count >= 0" (1 ≤ d.count block)
  let d := { d with count := Function.update d.count block (d.count block - 1) }
  if d.count block ≠ 0 then .ok d
  else if d.dirty block then .ok ({ d with dirty := Function.update d.dirty block false }.bwrite block)
  else .ok d

/-- `sb->desc->firstdatazone - 1`, in 32 bits. -/
def base (d : ZoneDev) : ℕ := if d.firstdatazone = 0 then 2 ^ 32 - 1 else d.firstdatazone.toNat - 1

/-- `i * BLOCK_BITS + sb->desc->firstdatazone - 1`, the number of the first bit of a bitmap. -/
def first (d : ZoneDev) (i : ℕ) : ℕ := window d.base i

/-- The bitmap that the number of a zone falls in. -/
def mapOf (d : ZoneDev) (idx : ℕ) : Option ℕ :=
  (List.range ZMAP_NR).find? fun i => d.first i ≤ idx && idx < d.first (i + 1)

def bfree (d : ZoneDev) (idx : ℕ) : Except Halt ZoneDev :=
  match d.mapOf idx with
  | none => .ok d
  | some i =>
    match d.zmaps i with
    | none => .error (.assertion "buf")
    | some buf => do
      let used ← testByte (d.data buf) BLOCK_SIZE (d.first i) idx
      assert "bitmap_test(&map, idx)" used
      let bits ← clearByte (d.data buf) BLOCK_SIZE (d.first i) idx
      .ok ({ d with data := Function.update d.data buf bits }.bwrite buf)

/-- The `index`-th number of an array of `uint16` in a block. -/
def entry (bytes : ℕ → UInt8) (array index : ℕ) : UInt16 :=
  (bytes (array + 2 * index)).toUInt16 ||| (bytes (array + 2 * index + 1)).toUInt16 <<< 8

/-- `inode_bfree` of an array that lies at `array` in the buffer of `block`. -/
def inodeBfree : ℕ → ℕ → ℕ → ℕ → ZoneDev → Except Halt ZoneDev
  | level, block, array, index, d =>
    if entry (d.data block) array index = 0 then .ok d
    else match level with
      | 0 => d.bfree (entry (d.data block) array index).toNat
      | level + 1 => do
        let buf := (entry (d.data block) array index).toNat
        let d ← d.bread buf
        let d ← (List.range BLOCK_INDEXES).foldlM (fun d i => inodeBfree level buf 0 i d) d
        let d ← d.brelease buf
        d.bfree (entry (d.data block) array index).toNat

/-! ### What it is for -/

/-- What a block holds, cached or not. -/
def content (d : ZoneDev) (block : ℕ) : ℕ → UInt8 := if d.count block = 0 then d.disk block else d.data block

/-- The zones of a tree over `level` tables, each table after the zones below it. -/
def zonesAt (blocks : ℕ → ℕ → UInt8) : ℕ → UInt16 → List ℕ
  | 0, nr => if nr = 0 then [] else [nr.toNat]
  | level + 1, nr =>
    if nr = 0 then []
    else (List.range BLOCK_INDEXES).flatMap (fun i => zonesAt blocks level (entry (blocks nr.toNat) 0 i)) ++ [nr.toNat]

/-- The bitmap block and the bit of a zone. -/
def bitOf (d : ZoneDev) (zone : ℕ) : Option (ℕ × ℕ) := do
  let i ← d.mapOf zone
  let buf ← d.zmaps i
  some (buf, zone - d.first i)

/-- The zone is marked used. -/
def Used (d : ZoneDev) (zone : ℕ) : Prop := ∃ buf k, d.bitOf zone = some (buf, k) ∧ bitAt (d.content buf) k = true

/-- As `read_super` leaves it: the bitmap blocks are held, each once, and lie in front of the inode blocks. -/
structure Mounted (d : ZoneDev) : Prop where
  held : ∀ i buf, d.zmaps i = some buf → d.count buf ≠ 0
  apart : ∀ i j buf, d.zmaps i = some buf → d.zmaps j = some buf → i = j
  front : ∀ i buf, d.zmaps i = some buf → buf + 1 < d.firstdatazone.toNat
  /-- A buffer that goes back is written before. -/
  clean : ∀ block, d.count block = 0 → d.dirty block = false

/-- A bitmap block. -/
def IsMap (d : ZoneDev) (block : ℕ) : Prop := ∃ i, d.zmaps i = some block

/-- The zones have been freed, and nothing else has happened. -/
structure Freed (d : ZoneDev) (zones : List ℕ) (d' : ZoneDev) : Prop where
  super : d'.zmaps = d.zmaps ∧ d'.firstdatazone = d.firstdatazone
  /-- Every buffer that was read has been released. -/
  count : d'.count = d.count
  dirty : d'.dirty = d.dirty
  blocks : ∀ block, ¬ d.IsMap block → d'.disk block = d.disk block ∧ d'.content block = d.content block
  bits : ∀ block, d.IsMap block → ∀ k, bitAt (d'.content block) k =
    (bitAt (d.content block) k && decide (∀ zone ∈ zones, d.bitOf zone ≠ some (block, k)))

variable {d d₁ d' d'' : ZoneDev} {zone zone' block array index : ℕ} {zones zones' : List ℕ}

theorem mapOf_some {i : ℕ} (h : d.mapOf zone = some i) :
    i < 8 ∧ d.first i ≤ zone ∧ zone - d.first i < BLOCK_BITS := by
  have hrange := List.mem_range.mp (List.mem_of_find?_eq_some h)
  have hwindow := List.find?_some h
  rw [Bool.and_eq_true, decide_eq_true_iff, decide_eq_true_iff] at hwindow
  refine ⟨hrange, hwindow.1, ?_⟩
  unfold first window BLOCK_BITS at *
  omega

theorem bitOf_some {buf k : ℕ} (h : d.bitOf zone = some (buf, k)) :
    ∃ i, d.mapOf zone = some i ∧ d.zmaps i = some buf ∧ k = zone - d.first i := by
  simp only [bitOf, Option.bind_eq_bind, Option.bind_eq_some_iff, Option.some.injEq, Prod.mk.injEq] at h
  obtain ⟨i, hi, buf', hbuf, rfl, rfl⟩ := h
  exact ⟨i, hi, hbuf, rfl⟩

/-- A bit belongs to one zone. -/
theorem Mounted.bitOf_inj (h : d.Mounted) {bit : ℕ × ℕ} (hz : d.bitOf zone = some bit) (hz' : d.bitOf zone' = some bit) :
    zone = zone' := by
  obtain ⟨buf, k⟩ := bit
  obtain ⟨i, hi, hbuf, hk⟩ := bitOf_some hz
  obtain ⟨j, hj, hbuf', hk'⟩ := bitOf_some hz'
  obtain rfl := h.apart i j buf hbuf hbuf'
  have hle := (mapOf_some hi).2.1
  have hle' := (mapOf_some hj).2.1
  omega

/-- A zone that is marked used is no bitmap block. -/
theorem Mounted.used_not_map (h : d.Mounted) (hu : d.Used zone) : ¬ d.IsMap zone := by
  rintro ⟨j, hj⟩
  obtain ⟨buf, k, hbit, -⟩ := hu
  obtain ⟨i, hi, -, -⟩ := bitOf_some hbit
  obtain ⟨hlt, hle, -⟩ := mapOf_some hi
  have hfront := h.front j zone hj
  have hnarrow := d.firstdatazone.toNat_lt
  unfold first window base BLOCK_BITS at hle
  rw [if_neg fun h0 => by rw [h0] at hfront; cases hfront] at hle
  omega

theorem Freed.bitOf (h : Freed d zones d') : d'.bitOf = d.bitOf := by
  funext zone
  unfold ZoneDev.bitOf mapOf first base
  rw [h.super.1, h.super.2]

theorem Freed.isMap (h : Freed d zones d') : d'.IsMap block ↔ d.IsMap block := by
  rw [IsMap, IsMap, h.super.1]

theorem Freed.mounted (h : Freed d zones d') (hd : d.Mounted) : d'.Mounted := by
  refine ⟨fun i buf hi => ?_, fun i j buf hi hj => ?_, fun i buf hi => ?_, fun b hb => ?_⟩
  · rw [h.count]
    exact hd.held i buf (h.super.1 ▸ hi)
  · exact hd.apart i j buf (h.super.1 ▸ hi) (h.super.1 ▸ hj)
  · rw [h.super.2]
    exact hd.front i buf (h.super.1 ▸ hi)
  · rw [h.dirty]
    exact hd.clean b (h.count ▸ hb)

theorem freed_nil (d : ZoneDev) : Freed d [] d where
  super := ⟨rfl, rfl⟩
  count := rfl
  dirty := rfl
  blocks _ _ := ⟨rfl, rfl⟩
  bits _ _ _ := by simp

theorem Freed.trans (h : Freed d zones d') (h' : Freed d' zones' d'') : Freed d (zones ++ zones') d'' where
  super := ⟨h'.super.1.trans h.super.1, h'.super.2.trans h.super.2⟩
  count := h'.count.trans h.count
  dirty := h'.dirty.trans h.dirty
  blocks block hb := by
    obtain ⟨hdisk, hcontent⟩ := h.blocks block hb
    obtain ⟨hdisk', hcontent'⟩ := h'.blocks block (fun hmap => hb (h.isMap.mp hmap))
    exact ⟨hdisk'.trans hdisk, hcontent'.trans hcontent⟩
  bits block hb k := by
    rw [h'.bits block (h.isMap.mpr hb) k, h.bits block hb k, h.bitOf, Bool.and_assoc, ← Bool.decide_and]
    simp only [List.forall_mem_append]

/-- Zones that are not freed stay marked. -/
theorem Used.freed (hu : d.Used zone) (hd : d.Mounted) (h : Freed d zones d') (hz : zone ∉ zones) : d'.Used zone := by
  obtain ⟨buf, k, hbit, hset⟩ := hu
  obtain ⟨i, -, hi, -⟩ := bitOf_some hbit
  refine ⟨buf, k, by rw [h.bitOf, hbit], ?_⟩
  rw [h.bits buf ⟨i, hi⟩ k, hset, Bool.true_and, decide_eq_true_iff]
  intro zone' hz' hbit'
  exact hz (hd.bitOf_inj hbit' hbit ▸ hz')

theorem content_held (h : d.count block ≠ 0) : d.content block = d.data block := if_neg h

theorem testByte_eq (bytes : ℕ → UInt8) {offset : ℕ} (hle : offset ≤ index) (hlt : index - offset < BLOCK_BITS) :
    testByte bytes BLOCK_SIZE offset index = .ok (bitAt bytes (index - offset)) := by
  have hbyte : (index - offset) / 8 < BLOCK_SIZE := by
    unfold BLOCK_BITS BLOCK_SIZE at *
    omega
  simp only [testByte, ge_iff_le, hle, decide_true, assert_true, ok_bind, hbyte,
    mask_and _ (Nat.mod_lt _ (by norm_num : 0 < 8))]
  rfl

theorem clearByte_eq (bytes : ℕ → UInt8) {offset : ℕ} (hle : offset ≤ index) (hlt : index - offset < BLOCK_BITS) :
    ∃ bytes', clearByte bytes BLOCK_SIZE offset index = .ok bytes' ∧
      ∀ k, bitAt bytes' k = (bitAt bytes k && decide (k ≠ index - offset)) := by
  have hbyte : (index - offset) / 8 < BLOCK_SIZE := by
    unfold BLOCK_BITS BLOCK_SIZE at *
    omega
  refine ⟨_, ?_, bitAt_clear bytes (index - offset)⟩
  simp only [clearByte, ge_iff_le, hle, decide_true, assert_true, ok_bind, hbyte]

theorem bfree_eq {i buf : ℕ} {bytes : ℕ → UInt8} (hi : d.mapOf zone = some i) (hbuf : d.zmaps i = some buf)
    (htest : testByte (d.data buf) BLOCK_SIZE (d.first i) zone = .ok true)
    (hclear : clearByte (d.data buf) BLOCK_SIZE (d.first i) zone = .ok bytes) :
    d.bfree zone = .ok (({ d with data := Function.update d.data buf bytes } : ZoneDev).bwrite buf) := by
  simp only [bfree, hi, hbuf, htest, ok_bind, assert_true, hclear]

theorem bfree_spec (hd : d.Mounted) (hu : d.Used zone) : ∃ d', d.bfree zone = .ok d' ∧ Freed d [zone] d' := by
  obtain ⟨buf, k, hbit, hset⟩ := hu
  obtain ⟨i, hi, hbuf, hk⟩ := bitOf_some hbit
  obtain ⟨-, hle, hlt⟩ := mapOf_some hi
  obtain ⟨bytes, hclear, hbits⟩ := clearByte_eq (d.data buf) hle hlt
  have hheld := hd.held i buf hbuf
  rw [content_held hheld, hk] at hset
  let bytes' := Function.update d.data buf bytes
  refine ⟨{ d with data := bytes', disk := Function.update d.disk buf (bytes' buf) }, ?_, ⟨rfl, rfl⟩, rfl, rfl,
    fun b hb => ?_, fun b hb j => ?_⟩
  · exact bfree_eq hi hbuf (by rw [testByte_eq _ hle hlt, hset]) hclear
  · have hne : b ≠ buf := fun he => hb ⟨i, he ▸ hbuf⟩
    simp only [content, bytes', Function.update_of_ne hne, and_self]
  · simp only [List.mem_singleton, forall_eq, hbit]
    by_cases hne : b = buf
    · subst hne
      simp only [content, if_neg hheld, bytes', Function.update_self, hbits j]
      congr 2
      rw [eq_iff_iff, Ne, Ne, Option.some.injEq, Prod.mk.injEq, hk]
      exact ⟨fun h he => h he.2.symm, fun h he => h ⟨rfl, he.symm⟩⟩
    · have hother : some (buf, k) ≠ some (b, j) := fun he => hne (by cases he; rfl)
      rw [decide_eq_true hother, Bool.and_true]
      simp only [content, bytes', Function.update_of_ne hne]

/-! ### The walk -/

/-- The tree of a slot depends on its own blocks only. -/
theorem zonesAt_congr {blocks blocks' : ℕ → ℕ → UInt8} (level : ℕ) (nr : UInt16)
    (h : ∀ zone ∈ zonesAt blocks level nr, blocks' zone = blocks zone) :
    zonesAt blocks' level nr = zonesAt blocks level nr := by
  induction level generalizing nr with
  | zero => rfl
  | succ level ih =>
    rw [zonesAt, zonesAt]
    split_ifs with h0
    · rfl
    · have hmem : ∀ zone, zone ∈ zonesAt blocks (level + 1) nr ↔
          (∃ i ∈ List.range BLOCK_INDEXES, zone ∈ zonesAt blocks level (entry (blocks nr.toNat) 0 i)) ∨
            zone = nr.toNat := fun zone => by
        rw [zonesAt, if_neg h0, List.mem_append, List.mem_flatMap, List.mem_singleton]
      rw [h nr.toNat ((hmem _).mpr (.inr rfl))]
      have hbelow : ∀ i ∈ List.range BLOCK_INDEXES,
          zonesAt blocks' level (entry (blocks nr.toNat) 0 i) = zonesAt blocks level (entry (blocks nr.toNat) 0 i) :=
        fun i hi => ih _ fun zone hz => h zone ((hmem zone).mpr (.inl ⟨i, hi, hz⟩))
      rw [List.flatMap_congr hbelow]

/-- `block` has one reference more. -/
structure Read (d : ZoneDev) (block : ℕ) (d' : ZoneDev) : Prop where
  super : d'.zmaps = d.zmaps ∧ d'.firstdatazone = d.firstdatazone
  count : d'.count = Function.update d.count block (d.count block + 1)
  dirty : d'.dirty = d.dirty
  disk : d'.disk = d.disk
  content : d'.content = d.content

theorem bread_spec (hd : d.Mounted) (block : ℕ) : ∃ d', d.bread block = .ok d' ∧ Read d block d' := by
  by_cases h0 : d.count block = 0
  · have hclean := hd.clean block h0
    refine ⟨{ d with
      count := Function.update d.count block 1
      data := Function.update d.data block (d.disk block) }, ?_, ⟨rfl, rfl⟩, by rw [h0], rfl, rfl, ?_⟩
    · simp [bread, h0, hclean]
    · funext b
      by_cases hb : b = block
      · subst hb
        simp [content, h0]
      · simp [content, Function.update_of_ne hb]
  · refine ⟨{ d with count := Function.update d.count block (d.count block + 1) }, ?_, ⟨rfl, rfl⟩, rfl, rfl, rfl, ?_⟩
    · simp [bread, h0]
    · funext b
      by_cases hb : b = block
      · subst hb
        simp [content, h0]
      · simp [content, Function.update_of_ne hb]

theorem Read.bitOf (h : Read d block d') : d'.bitOf = d.bitOf := by
  funext zone
  unfold ZoneDev.bitOf mapOf first base
  rw [h.super.1, h.super.2]

theorem Read.mounted (h : Read d block d') (hd : d.Mounted) : d'.Mounted := by
  have hcount : ∀ b, d.count b ≠ 0 → d'.count b ≠ 0 := fun b hb => by
    rw [h.count, Function.update_apply]
    split_ifs
    · exact Nat.succ_ne_zero _
    · exact hb
  refine ⟨fun i buf hi => hcount buf (hd.held i buf (h.super.1 ▸ hi)),
    fun i j buf hi hj => hd.apart i j buf (h.super.1 ▸ hi) (h.super.1 ▸ hj), fun i buf hi => ?_, fun b hb => ?_⟩
  · rw [h.super.2]
    exact hd.front i buf (h.super.1 ▸ hi)
  · rw [h.dirty]
    exact hd.clean b (by_contra fun hne => hcount b hne hb)

/-- Zones are freed while a table is held, and then it is released. -/
theorem brelease_spec (hd : d.Mounted) (hblock : ¬ d.IsMap block) (hr : Read d block d₁) (h : Freed d₁ zones d') :
    ∃ d'', d'.brelease block = .ok d'' ∧ Freed d zones d'' := by
  have hcount : d'.count block = d.count block + 1 := by rw [h.count, hr.count, Function.update_self]
  have hback : Function.update d'.count block (d'.count block - 1) = d.count := by
    rw [hcount, h.count, hr.count, Function.update_idem, Nat.add_sub_cancel, Function.update_eq_self]
  have hmap : ∀ b, d₁.IsMap b ↔ d.IsMap b := fun b => by rw [IsMap, IsMap, hr.super.1]
  have hcontent : ∀ b, b ≠ block → ({ d' with count := d.count } : ZoneDev).content b = d'.content b := fun b hb => by
    have hsame : d'.count b = d.count b := by rw [h.count, hr.count, Function.update_of_ne hb]
    simp only [content, hsame]
  have hhere : ({ d' with count := d.count } : ZoneDev).content block = d.content block := by
    obtain ⟨hdisk, hsame⟩ := h.blocks block (fun hm => hblock ((hmap block).mp hm))
    rw [hr.disk] at hdisk
    rw [hr.content, content_held (by rw [hcount]; exact Nat.succ_ne_zero _)] at hsame
    by_cases h0 : d.count block = 0
    · simp only [content, h0, if_true, hdisk]
    · simp only [content, if_neg h0] at hsame ⊢
      exact hsame
  refine ⟨{ d' with count := d.count }, ?_, ⟨h.super.1.trans hr.super.1, h.super.2.trans hr.super.2⟩, rfl,
    h.dirty.trans hr.dirty, fun b hb => ?_, fun b hb k => ?_⟩
  · have hclean : d.count block = 0 → d'.dirty block = false := fun h0 => by
      rw [h.dirty, hr.dirty]
      exact hd.clean block h0
    unfold brelease
    rw [hback, hcount]
    by_cases h0 : d.count block = 0
    · simp [h0, hclean h0]
    · simp [h0]
  · obtain ⟨hdisk, hsame⟩ := h.blocks b (fun hm => hb ((hmap b).mp hm))
    refine ⟨hdisk.trans (by rw [hr.disk]), ?_⟩
    by_cases hne : b = block
    · rw [hne, hhere]
    · rw [hcontent b hne, hsame, hr.content]
  · have hne : b ≠ block := fun he => hblock (he ▸ hb)
    rw [hcontent b hne, h.bits b ((hmap b).mpr hb) k, hr.content, hr.bitOf]

/-- What `inode_bfree` does at a slot. -/
def Frees (level block array index : ℕ) : Prop :=
  ∀ d : ZoneDev, d.Mounted → d.count block ≠ 0 → ¬ d.IsMap block →
    (zonesAt d.content level (entry (d.content block) array index)).Nodup →
    (∀ zone ∈ zonesAt d.content level (entry (d.content block) array index), d.Used zone) →
    ∃ d', inodeBfree level block array index d = .ok d' ∧
      Freed d (zonesAt d.content level (entry (d.content block) array index)) d'

/-- The trees below a table are freed one after the other. -/
theorem freesEach {level : ℕ} (hslot : ∀ i, Frees level block 0 i) (is : List ℕ) (hd : d.Mounted)
    (hheld : d.count block ≠ 0) (hblock : ¬ d.IsMap block)
    (hnodup : (is.flatMap fun i => zonesAt d.content level (entry (d.content block) 0 i)).Nodup)
    (hused : ∀ zone ∈ is.flatMap fun i => zonesAt d.content level (entry (d.content block) 0 i), d.Used zone) :
    ∃ d', is.foldlM (fun d i => inodeBfree level block 0 i d) d = .ok d' ∧
      Freed d (is.flatMap fun i => zonesAt d.content level (entry (d.content block) 0 i)) d' := by
  induction is generalizing d with
  | nil => exact ⟨d, rfl, freed_nil d⟩
  | cons i is ih =>
    rw [List.flatMap_cons] at hnodup hused ⊢
    obtain ⟨hnd, hnds, hdisjoint⟩ := List.nodup_append.mp hnodup
    obtain ⟨d₁, hrun, hf⟩ := hslot i d hd hheld hblock hnd fun zone hz => hused zone (List.mem_append_left _ hz)
    have htable : d₁.content block = d.content block := (hf.blocks block hblock).2
    -- the other trees are as they were
    have hsame : (is.flatMap fun i => zonesAt d₁.content level (entry (d₁.content block) 0 i)) =
        is.flatMap fun i => zonesAt d.content level (entry (d.content block) 0 i) := by
      rw [htable]
      refine List.flatMap_congr fun j hj => zonesAt_congr level _ fun zone hz => ?_
      have hmem : zone ∈ is.flatMap fun i => zonesAt d.content level (entry (d.content block) 0 i) :=
        List.mem_flatMap.mpr ⟨j, hj, hz⟩
      exact (hf.blocks zone (hd.used_not_map (hused zone (List.mem_append_right _ hmem)))).2
    obtain ⟨d', hrun', hf'⟩ := ih (hf.mounted hd) (by rw [hf.count]; exact hheld) (fun hm => hblock (hf.isMap.mp hm))
      (by rw [hsame]; exact hnds) (by
        rw [hsame]
        intro zone hz
        exact (hused zone (List.mem_append_right _ hz)).freed hd hf fun hz' => hdisjoint zone hz' zone hz rfl)
    rw [hsame] at hf'
    exact ⟨d', by rw [List.foldlM_cons, hrun, ok_bind, hrun'], hf.trans hf'⟩

/-- By induction on the levels: a table is read, the trees below it are freed, and then it is freed itself. -/
theorem frees_all (level block array index : ℕ) : Frees level block array index := by
  induction level generalizing block array index with
  | zero =>
    intro d hd hheld hblock hnodup hused
    rw [zonesAt, content_held hheld] at hused ⊢
    unfold inodeBfree
    split_ifs at hused ⊢ with h0
    · exact ⟨d, rfl, freed_nil d⟩
    · exact bfree_spec hd (hused _ (by simp))
  | succ level ih =>
    intro d hd hheld hblock hnodup hused
    rw [zonesAt, content_held hheld] at hnodup hused ⊢
    unfold inodeBfree
    split_ifs at hnodup hused ⊢ with h0
    · exact ⟨d, rfl, freed_nil d⟩
    · generalize hnr : entry (d.data block) array index = nr at *
      have hself : d.Used nr.toNat := hused _ (by simp)
      have hmap := hd.used_not_map hself
      obtain ⟨hnds, -, hlast⟩ := List.nodup_append.mp hnodup
      obtain ⟨d₁, hread, hr⟩ := bread_spec hd nr.toNat
      have hheld₁ : d₁.count nr.toNat ≠ 0 := by
        rw [hr.count, Function.update_self]
        exact Nat.succ_ne_zero _
      have hmap₁ : ¬ d₁.IsMap nr.toNat := by
        rw [IsMap, hr.super.1]
        exact hmap
      rw [← hr.content] at hnds hlast hused ⊢
      obtain ⟨d₂, hloop, hf⟩ := freesEach (fun i => ih nr.toNat 0 i) (List.range BLOCK_INDEXES) (hr.mounted hd)
        hheld₁ hmap₁ hnds fun zone hz => by
          obtain ⟨buf, k, hbit, hset⟩ := hused zone (List.mem_append_left _ hz)
          exact ⟨buf, k, by rw [hr.bitOf, hbit], by rw [hr.content, hset]⟩
      obtain ⟨d₃, hrelease, hf₃⟩ := brelease_spec hd hmap hr hf
      -- the table is still named by the slot, and still marked
      have hslot : entry (d₃.data block) array index = nr := by
        rw [← content_held (by rw [hf₃.count]; exact hheld), (hf₃.blocks block hblock).2, content_held hheld, hnr]
      have hself₃ : d₃.Used nr.toNat := hself.freed hd hf₃ fun hz => hlast _ hz _ (by simp) rfl
      obtain ⟨d', hfree, hf'⟩ := bfree_spec (hf₃.mounted hd) hself₃
      refine ⟨d', ?_, hf₃.trans hf'⟩
      simp only [hread, ok_bind, hloop, hrelease, hslot, hfree]

/-- `inode_bfree` frees the zones of a tree, each once. No assertion fires; in the bitmap the bits of these zones are
cleared and no others, no other block is changed, and every buffer is released. -/
theorem inode_bfree_frees (d : ZoneDev) (level block array index : ℕ) (hd : d.Mounted) (hheld : d.count block ≠ 0)
    (hblock : ¬ d.IsMap block)
    (hnodup : (zonesAt d.content level (entry (d.content block) array index)).Nodup)
    (hused : ∀ zone ∈ zonesAt d.content level (entry (d.content block) array index), d.Used zone) :
    ∃ d', inodeBfree level block array index d = .ok d' ∧
      Freed d (zonesAt d.content level (entry (d.content block) array index)) d' :=
  frees_all level block array index d hd hheld hblock hnodup hused

/-- A slot with a table that names one zone. -/
def oneTable : ZoneDev where
  disk b j := if b = 12 ∧ j = 0 then 11 else 0
  data b j := if b = 3 ∧ j = 0 then 15 else if b = 5 ∧ j = 0 then 12 else 0
  count b := if b = 3 ∨ b = 5 then 1 else 0
  dirty _ := false
  zmaps i := if i = 0 then some 3 else none
  firstdatazone := 10

theorem oneTable_zmaps {i buf : ℕ} (h : oneTable.zmaps i = some buf) : i = 0 ∧ buf = 3 := by
  simp only [oneTable] at h
  split_ifs at h with h0
  cases h
  exact ⟨h0, rfl⟩

theorem oneTable_mounted : oneTable.Mounted := by
  refine ⟨fun i buf h => ?_, fun i j buf h h' => ?_, fun i buf h => ?_, fun _ _ => rfl⟩
  · rw [(oneTable_zmaps h).2]
    decide
  · rw [(oneTable_zmaps h).1, (oneTable_zmaps h').1]
  · rw [(oneTable_zmaps h).2]
    decide

theorem inode_bfree_frees_table : ∃ d', inodeBfree 1 5 0 0 oneTable = .ok d' ∧ Freed oneTable [11, 12] d' := by
  have hzones : zonesAt oneTable.content 1 (entry (oneTable.content 5) 0 0) = [11, 12] := by decide +kernel
  have h := inode_bfree_frees oneTable 1 5 0 0 oneTable_mounted (by decide)
    (fun ⟨i, hi⟩ => absurd (oneTable_zmaps hi).2 (by decide)) (by rw [hzones]; decide) (by
      rw [hzones]
      simp only [List.mem_cons, List.not_mem_nil, or_false, forall_eq_or_imp, forall_eq]
      exact ⟨⟨3, 2, by decide +kernel, by decide +kernel⟩, ⟨3, 3, by decide +kernel, by decide +kernel⟩⟩)
  rwa [hzones] at h

end ZoneDev
end Onix
