import Onix.Fs.BlockMap

/-! The zones of a file as a tree: which zone stands at which place of which inode, and what `bmap` puts there. -/

set_option autoImplicit false

namespace Onix

open Lib SharedWrite

namespace ZoneStore

variable {z z' : ZoneStore} {dev b : ℕ} {slot : ZoneSlot}

/-! ### Slots -/

/-- A number is put together again from its two bytes. -/
theorem bytes_join (nr : UInt16) : nr.toUInt8.toUInt16 ||| (nr >>> 8).toUInt8.toUInt16 <<< 8 = nr := by
  have hlt := nr.toNat_lt
  have hlow : nr.toNat % 256 < 2 ^ 8 := Nat.mod_lt _ (by decide)
  have hor := Nat.shiftLeft_add_eq_or_of_lt hlow (nr.toNat / 256)
  apply UInt16.toNat_inj.mp
  simp only [UInt16.toNat_or, UInt8.toNat_toUInt16, UInt16.toNat_toUInt8, UInt16.toNat_shiftLeft,
    UInt16.toNat_shiftRight, UInt16.reduceToNat, Nat.shiftRight_eq_div_pow]
  norm_num [Nat.shiftLeft_eq] at hor ⊢
  rw [Nat.or_comm, Nat.mod_eq_of_lt (show nr.toNat / 256 < 256 by omega), Nat.mod_eq_of_lt (by omega), ← hor]
  omega

@[simp] theorem read_store (z : ZoneStore) (nr : UInt16) (slot : ZoneSlot) : (z.store nr slot).read slot = nr := by
  cases slot with
  | inode inode i => simp [store, read]
  | table dev zone i =>
    have hne : 2 * i ≠ 2 * i + 1 := by omega
    simp only [store, read, setBlock, Function.update_self, Function.update_of_ne hne]
    exact bytes_join nr

theorem read_store_ne {nr : UInt16} {slot' : ZoneSlot} (h : slot' ≠ slot) :
    (z.store nr slot).read slot' = z.read slot' := by
  cases slot with
  | inode inode i =>
    cases slot' with
    | inode inode' i' =>
      by_cases hi : inode' = inode
      · subst hi
        have hne : i' ≠ i := fun he => h (he ▸ rfl)
        simp [store, read, hne]
      · simp [store, read, hi]
    | table dev zone i' => rfl
  | table dev zone i =>
    cases slot' with
    | inode inode' i' => rfl
    | table dev' zone' i' =>
      by_cases hd : dev' = dev
      · by_cases hz : zone' = zone
        · subst hd hz
          have hne : i' ≠ i := fun he => h (he ▸ rfl)
          have h1 : 2 * i' ≠ 2 * i := by omega
          have h2 : 2 * i' ≠ 2 * i + 1 := by omega
          have h3 : 2 * i' + 1 ≠ 2 * i := by omega
          simp [store, read, setBlock, h1, h2, h3]
        · subst hd
          simp [store, read, setBlock, hz]
      · simp [store, read, setBlock, hd]

/-- An empty slot has been given the zone of a bit that was clear. -/
structure Filled (z : ZoneStore) (dev : ℕ) (slot : ZoneSlot) (b : ℕ) (z' : ZoneStore) : Prop where
  first : FirstFree (z.zmap dev) (z.zmapBlocks dev) b
  small : b + z.firstdatazone dev - 1 < 65536
  zmap : ∀ d c, z'.zmap d c = (z.zmap d c || decide (d = dev ∧ c = b))
  new : (z'.read slot).toNat = b + z.firstdatazone dev - 1
  old : ∀ s, s ≠ slot → z'.read s = z.read s
  base : z'.firstdatazone = z.firstdatazone
  blocks : z'.zmapBlocks = z.zmapBlocks
  data : ∀ d m, (∀ i, slot ≠ .table d m i) → z'.data d m = z.data d m

/-- What `fill` makes of a slot, with the bit that `balloc` finds. -/
def put (z : ZoneStore) (dev : ℕ) (slot : ZoneSlot) (b : ℕ) : ZoneStore :=
  let nr := b + z.firstdatazone dev - 1
  let marked : ZoneStore := { z with zmap := Function.update z.zmap dev (Function.update (z.zmap dev) b true) }
  { marked.store (UInt16.ofNat nr) slot with filled := z.filled ++ [(some nr, UInt16.ofNat nr)] }

theorem fill_filled (slot : ZoneSlot) (h : z.Room dev) : ∃ b z', z.fill dev slot = .ok z' ∧ Filled z dev slot b z' := by
  obtain ⟨b, hfirst, hlt⟩ := h
  have hr : allocFrom (z.zmap dev) (z.zmapBlocks dev) ZMAP_NR 0 = .ok (some b) := alloc_eq_some.mpr hfirst
  refine ⟨b, z.put dev slot b, ?_, hfirst, hlt, fun d c => ?_, ?_, fun s hs => ?_, ?_, ?_, fun d m hm => ?_⟩
  · rw [fill, balloc, hr]
    cases slot <;> rfl
  · have hz : (z.put dev slot b).zmap = Function.update z.zmap dev (Function.update (z.zmap dev) b true) := by
      cases slot <;> rfl
    rw [hz]
    by_cases hd : d = dev
    · subst hd
      by_cases hc : c = b <;> simp [hc]
    · simp [hd]
  · change ((store _ _ slot).read slot).toNat = _
    rw [read_store, UInt16.toNat_ofNat']
    exact Nat.mod_eq_of_lt hlt
  · exact read_store_ne hs
  · cases slot <;> rfl
  · cases slot <;> rfl
  · cases slot with
    | inode inode i => rfl
    | table d' m' i =>
      change Function.update z.data d' _ d m = z.data d m
      by_cases hd : d = d'
      · subst hd
        have hmm : m ≠ m' := fun he => hm i (he ▸ rfl)
        rw [Function.update_self]
        exact Function.update_of_ne hmm _ _
      · rw [Function.update_of_ne hd]

/-- The head of the loop with `create`: nothing, or an empty slot is filled. -/
theorem touch_filled (h : z.read slot = 0 → z.Room dev) :
    (z.read slot ≠ 0 ∧ z.touch dev true slot = .ok (some z)) ∨
      (z.read slot = 0 ∧ ∃ b z', z.touch dev true slot = .ok (some z') ∧ Filled z dev slot b z') := by
  by_cases hz : z.read slot = 0
  · obtain ⟨b, z', hf, hfilled⟩ := fill_filled slot (h hz)
    refine .inr ⟨hz, b, z', ?_, hfilled⟩
    rw [touch, if_neg (not_not_intro hz), if_neg (by decide), hf, ok_bind]
  · exact .inl ⟨hz, if_pos hz⟩

theorem firstFree_unique {bits : ℕ → Bool} {blocks c : ℕ} (h : FirstFree bits blocks b) (h' : FirstFree bits blocks c) :
    c = b := by
  have he := alloc_eq_some.mpr h
  rw [alloc_eq_some.mpr h'] at he
  cases he
  rfl

/-! ### Places -/

/-- The places of an inode: the indexes on the way from it, the last one first. -/
def Valid : List ℕ → Prop
  | [r] => r < 9
  | [i, r] => i < BLOCK_INDEXES ∧ (r = DIRECT_BLOCK ∨ r = DIRECT_BLOCK + 1)
  | [i, j, r] => i < BLOCK_INDEXES ∧ j < BLOCK_INDEXES ∧ r = DIRECT_BLOCK + 1
  | _ => False

/-- The places of data zones; at the others there are tables. -/
def Leaf : List ℕ → Prop
  | [r] => r < DIRECT_BLOCK
  | [_, r] => r = DIRECT_BLOCK
  | _ => True

/-- The place of a block. -/
def placeOf (block : ℕ) : List ℕ := (levels block).2.reverse ++ [(levels block).1]

/-- The zone at a place, or 0. -/
def zoneAt (z : ZoneStore) (inode : Ino) : List ℕ → ℕ
  | [] => 0
  | [r] => (z.read (.inode inode r)).toNat
  | i :: up => if z.zoneAt inode up = 0 then 0 else (z.read (.table inode.dev (z.zoneAt inode up) i)).toNat

/-- The slot of a place, if there is a table for it. -/
def slotAt (z : ZoneStore) (inode : Ino) : List ℕ → ZoneSlot
  | [] => .inode inode 0
  | [r] => .inode inode r
  | i :: up => .table inode.dev (z.zoneAt inode up) i

/-- There is a table for the place. -/
def Open (z : ZoneStore) (inode : Ino) : List ℕ → Prop
  | [] => False
  | [_] => True
  | _ :: up => z.zoneAt inode up ≠ 0

/-- A data zone that is marked used. -/
def Used (z : ZoneStore) (dev n : ℕ) : Prop :=
  z.firstdatazone dev ≤ n ∧ z.zmap dev (n + 1 - z.firstdatazone dev) = true

/-- The zone trees of some inodes: each zone is marked used and stands at one place only. Bit 0 is reserved. -/
structure WellFormed (z : ZoneStore) (S : Set Ino) : Prop where
  base : ∀ inode ∈ S, 1 ≤ z.firstdatazone inode.dev ∧ z.zmap inode.dev 0 = true
  used : ∀ inode ∈ S, ∀ p, Valid p → z.zoneAt inode p ≠ 0 → z.Used inode.dev (z.zoneAt inode p)
  own : ∀ inode ∈ S, ∀ other ∈ S, ∀ p q, Valid p → Valid q → inode.dev = other.dev → z.zoneAt inode p ≠ 0 →
    z.zoneAt other q = z.zoneAt inode p → other = inode ∧ q = p

variable {S : Set Ino} {inode other : Ino} {p q : List ℕ} {i : ℕ}

theorem Valid.ne_nil (h : Valid p) : p ≠ [] := by
  rintro rfl
  exact h

theorem Valid.tail {j : ℕ} {up : List ℕ} (h : Valid (i :: j :: up)) : Valid (j :: up) := by
  match up with
  | [] => exact show j < 9 by rcases h.2 with h | h <;> rw [h] <;> decide
  | [r] => exact ⟨h.2.1, .inr h.2.2⟩
  | _ :: _ :: _ => exact False.elim h

theorem Valid.of_append {t : List ℕ} (h : Valid (t ++ p)) (hp : p ≠ []) : Valid p := by
  induction t with
  | nil => exact h
  | cons k t ih =>
    obtain ⟨a, l, hal⟩ := List.exists_cons_of_ne_nil (show t ++ p ≠ [] by simp [hp])
    rw [List.cons_append, hal] at h
    exact ih (hal ▸ h.tail)

/-- Nothing is below the place of a data zone. -/
theorem Leaf.not_valid (hl : Leaf p) (hp : p ≠ []) : ¬ Valid (i :: p) := by
  match p with
  | [] => exact absurd rfl hp
  | [r] =>
    rintro ⟨-, h | h⟩ <;>
    · have hl : r < DIRECT_BLOCK := hl
      omega
  | [j, r] =>
    have hl : r = DIRECT_BLOCK := hl
    rintro ⟨-, -, h⟩
    omega
  | _ :: _ :: _ :: _ => exact id

theorem Valid.below (hv : Valid p) (hl : ¬ Leaf p) (hi : i < BLOCK_INDEXES) : Valid (i :: p) := by
  match p with
  | [r] =>
    have hr : r < 9 := hv
    have hl : ¬ r < DIRECT_BLOCK := hl
    refine ⟨hi, ?_⟩
    unfold DIRECT_BLOCK at *
    omega
  | [j, r] =>
    have hl : ¬ r = DIRECT_BLOCK := hl
    exact ⟨hi, hv.1, hv.2.resolve_left hl⟩
  | _ :: _ :: _ :: _ => exact absurd trivial hl

theorem zoneAt_cons (z : ZoneStore) (inode : Ino) (i : ℕ) (hp : p ≠ []) : z.zoneAt inode (i :: p) =
    if z.zoneAt inode p = 0 then 0 else (z.read (.table inode.dev (z.zoneAt inode p) i)).toNat := by
  match p with
  | [] => exact absurd rfl hp
  | _ :: _ => rfl

theorem slotAt_cons (z : ZoneStore) (inode : Ino) (i : ℕ) (hp : p ≠ []) :
    z.slotAt inode (i :: p) = .table inode.dev (z.zoneAt inode p) i := by
  match p with
  | [] => exact absurd rfl hp
  | _ :: _ => rfl

theorem open_cons (z : ZoneStore) (inode : Ino) (i : ℕ) (hp : p ≠ []) :
    z.Open inode (i :: p) ↔ z.zoneAt inode p ≠ 0 := by
  match p with
  | [] => exact absurd rfl hp
  | _ :: _ => rfl

theorem zoneAt_slot (h : z.Open inode p) : z.zoneAt inode p = (z.read (z.slotAt inode p)).toNat := by
  match p with
  | [] => exact absurd h id
  | [r] => rfl
  | i :: j :: up => rw [zoneAt_cons _ _ _ (List.cons_ne_nil _ _), if_neg h, slotAt_cons _ _ _ (List.cons_ne_nil _ _)]

/-- Below a place without a zone there is none. -/
theorem zoneAt_below (h : z.zoneAt inode p = 0) (hp : p ≠ []) (t : List ℕ) : z.zoneAt inode (t ++ p) = 0 := by
  induction t with
  | nil => exact h
  | cons i t ih =>
    rw [List.cons_append, zoneAt_cons _ _ _ (by simp [hp]), if_pos ih]

/-! ### What stays -/

theorem read_ne_zero (ho : z.Open inode p) : z.read (z.slotAt inode p) ≠ 0 ↔ z.zoneAt inode p ≠ 0 := by
  rw [zoneAt_slot ho]
  exact not_congr UInt16.toNat_inj.symm

/-- A slot that is not empty stays as it is. -/
def Keeps (z z' : ZoneStore) : Prop := ∀ slot, z.read slot ≠ 0 → z'.read slot = z.read slot

theorem Keeps.trans {z₁ : ZoneStore} (h : z.Keeps z₁) (h' : z₁.Keeps z') : z.Keeps z' := by
  intro slot hz
  have h1 := h slot hz
  rw [h' slot (h1 ▸ hz), h1]

theorem Filled.keeps (h : Filled z dev slot b z') (hz : z.read slot = 0) : z.Keeps z' := by
  intro s hs
  apply h.old s
  rintro rfl
  exact hs hz

theorem Keeps.zoneAt (h : z.Keeps z') (hne : z.zoneAt inode p ≠ 0) : z'.zoneAt inode p = z.zoneAt inode p := by
  have hread : ∀ s, (z.read s).toNat ≠ 0 → z'.read s = z.read s := fun s hs => h s fun he => hs (by rw [he]; rfl)
  induction p with
  | nil => exact absurd rfl hne
  | cons i up ih =>
    by_cases hup : up = []
    · subst hup
      exact congrArg UInt16.toNat (hread (.inode inode i) hne)
    · rw [zoneAt_cons _ _ _ hup] at hne ⊢
      rw [zoneAt_cons _ _ _ hup]
      split_ifs at hne with hzero
      · exact absurd rfl hne
      · rw [ih hzero, if_neg hzero, if_neg hzero, hread _ hne]

theorem Keeps.slotAt (h : z.Keeps z') (ho : z.Open inode p) :
    z'.slotAt inode p = z.slotAt inode p ∧ z'.Open inode p := by
  match p with
  | [_] => exact ⟨rfl, trivial⟩
  | i :: j :: up =>
    have hup := h.zoneAt ((open_cons z inode i (List.cons_ne_nil j up)).mp ho)
    rw [slotAt_cons _ _ _ (List.cons_ne_nil _ _), slotAt_cons _ _ _ (List.cons_ne_nil _ _),
      open_cons _ _ _ (List.cons_ne_nil _ _), hup]
    exact ⟨rfl, ho⟩

/-- The zone that is put into an empty slot stands at its place. -/
theorem Filled.zoneAt_place (h : Filled z inode.dev (z.slotAt inode p) b z') (ho : z.Open inode p)
    (hz : z.read (z.slotAt inode p) = 0) : z'.zoneAt inode p = b + z.firstdatazone inode.dev - 1 := by
  obtain ⟨hslot, hopen⟩ := (h.keeps hz).slotAt ho
  rw [zoneAt_slot hopen, hslot, h.new]

/-! ### What a new zone changes -/

/-- The place that is filled, in an inode of the set. -/
structure Filling (z : ZoneStore) (S : Set Ino) (inode : Ino) (p : List ℕ) (b : ℕ) (z' : ZoneStore) : Prop where
  wf : z.WellFormed S
  mem : inode ∈ S
  valid : Valid p
  opened : z.Open inode p
  empty : z.zoneAt inode p = 0
  filled : Filled z inode.dev (z.slotAt inode p) b z'

namespace Filling

/-- The number of the new zone. -/
theorem number (h : Filling z S inode p b z') : z.firstdatazone inode.dev ≤ b + z.firstdatazone inode.dev - 1 ∧
    b + z.firstdatazone inode.dev - 1 ≠ 0 ∧ b + z.firstdatazone inode.dev - 1 + 1 - z.firstdatazone inode.dev = b := by
  obtain ⟨hbase, hzero⟩ := h.wf.base inode h.mem
  have hb : b ≠ 0 := by
    rintro rfl
    have := h.filled.first.free
    rw [hzero] at this
    cases this
  omega

/-- No place has the new zone yet. -/
theorem fresh (h : Filling z S inode p b z') (ho : other ∈ S) (hq : Valid q) (hd : other.dev = inode.dev) :
    z.zoneAt other q ≠ b + z.firstdatazone inode.dev - 1 := by
  intro he
  obtain ⟨-, hne, hbit⟩ := h.number
  have hused := (h.wf.used other ho q hq (he ▸ hne)).2
  rw [he, hd, hbit, h.filled.first.free] at hused
  cases hused

/-- Only what is at the place or below it changes. -/
theorem frame (h : Filling z S inode p b z') (ho : other ∈ S) (hq : Valid q) (hne : ¬ (other = inode ∧ p <:+ q)) :
    z'.zoneAt other q = z.zoneAt other q := by
  induction q with
  | nil => exact absurd hq id
  | cons i up ih =>
    by_cases hup : up = []
    · subst hup
      change (z'.read (.inode other i)).toNat = (z.read (.inode other i)).toNat
      rw [h.filled.old]
      intro he
      apply hne
      match p, h.valid with
      | [r], _ =>
        obtain ⟨rfl, rfl⟩ := ZoneSlot.inode.inj he
        exact ⟨rfl, List.suffix_rfl⟩
      | _ :: _ :: _, _ => cases he
    · obtain ⟨j, up, rfl⟩ := List.exists_cons_of_ne_nil hup
      have hsame := ih hq.tail fun hs => hne ⟨hs.1, hs.2.trans (List.suffix_cons ..)⟩
      rw [zoneAt_cons _ _ _ hup, zoneAt_cons _ _ _ hup, hsame]
      split_ifs with hzero
      · rfl
      · rw [h.filled.old]
        intro he
        apply hne
        match p, h.valid, h.opened, he with
        | [r], _, _, he => cases he
        | i' :: j' :: up', hv, hopen, he =>
          rw [slotAt_cons _ _ _ (List.cons_ne_nil _ _)] at he
          obtain ⟨hdev, hzone, rfl⟩ := ZoneSlot.table.inj he
          -- the table of the place stands nowhere else
          obtain ⟨rfl, hpath⟩ := h.wf.own inode h.mem other ho (j' :: up')
            (j :: up) hv.tail hq.tail hdev.symm hopen hzone
          rw [hpath]
          exact ⟨rfl, List.suffix_rfl⟩

theorem read_zero (h : Filling z S inode p b z') : z.read (z.slotAt inode p) = 0 := by
  by_contra hne
  exact (read_ne_zero h.opened).mp hne h.empty

theorem zoneAt_self (h : Filling z S inode p b z') : z'.zoneAt inode p = b + z.firstdatazone inode.dev - 1 :=
  h.filled.zoneAt_place h.opened h.read_zero

/-- A table is read as the zone was before. -/
theorem zoneAt_table (h : Filling z S inode p b z') (i : ℕ) : z'.zoneAt inode (i :: p) =
    (z.read (.table inode.dev (b + z.firstdatazone inode.dev - 1) i)).toNat := by
  rw [zoneAt_cons _ _ _ h.valid.ne_nil, h.zoneAt_self, if_neg h.number.2.1, h.filled.old]
  intro he
  match p, h, he with
  | i' :: j' :: up', h, he =>
    rw [slotAt_cons _ _ _ (List.cons_ne_nil _ _)] at he
    exact h.fresh h.mem h.valid.tail rfl (ZoneSlot.table.inj he).2.1.symm

/-- The zone reads as zero, or is not a table. -/
def Blank (z : ZoneStore) (inode : Ino) (p : List ℕ) (b : ℕ) : Prop :=
  Leaf p ∨ ∀ i < BLOCK_INDEXES, z.read (.table inode.dev (b + z.firstdatazone inode.dev - 1) i) = 0

/-- A blank zone adds itself and nothing else. -/
theorem zoneAt_eq (h : Filling z S inode p b z') (hblank : Blank z inode p b) (ho : other ∈ S) (hq : Valid q) :
    z'.zoneAt other q = if other = inode ∧ q = p then b + z.firstdatazone inode.dev - 1 else z.zoneAt other q := by
  by_cases hself : other = inode ∧ q = p
  · rw [if_pos hself, hself.1, hself.2, h.zoneAt_self]
  · rw [if_neg hself]
    by_cases hs : other = inode ∧ p <:+ q
    · obtain ⟨rfl, t, rfl⟩ := hs
      rw [zoneAt_below h.empty h.valid.ne_nil]
      rcases List.eq_nil_or_concat' t with rfl | ⟨t, i, rfl⟩
      · exact absurd ⟨rfl, rfl⟩ hself
      · rw [List.append_assoc, List.singleton_append] at hq ⊢
        have hi : Valid (i :: p) := hq.of_append (List.cons_ne_nil _ _)
        refine zoneAt_below ?_ (List.cons_ne_nil _ _) t
        rw [h.zoneAt_table]
        rcases hblank with hl | hblank
        · exact absurd hi (hl.not_valid h.valid.ne_nil)
        · have hlt : i < BLOCK_INDEXES := by
            match p, hi with
            | [_], hi => exact hi.1
            | [_, _], hi => exact hi.1
          rw [hblank i hlt]
          rfl
    · exact h.frame ho hq hs

theorem used_of (h : Filling z S inode p b z') {d n : ℕ} (hu : z.Used d n) : z'.Used d n := by
  unfold Used
  rw [h.filled.base, h.filled.zmap]
  exact ⟨hu.1, by rw [hu.2, Bool.true_or]⟩

/-- The new zone is marked used. -/
theorem used_new (h : Filling z S inode p b z') : z'.Used inode.dev (b + z.firstdatazone inode.dev - 1) := by
  obtain ⟨hle, -, hbit⟩ := h.number
  unfold Used
  rw [h.filled.base, h.filled.zmap, hbit]
  exact ⟨hle, by simp⟩

theorem wellFormed (h : Filling z S inode p b z') (hblank : Blank z inode p b) : z'.WellFormed S := by
  have heq := fun {x : Ino} {r : List ℕ} (hx : x ∈ S) (hr : Valid r) => h.zoneAt_eq hblank hx hr
  refine ⟨fun x hx => ?_, fun x hx q hq hne => ?_, fun x hx y hy q r hq hr hd hne hxy => ?_⟩
  · rw [h.filled.base, h.filled.zmap]
    obtain ⟨h1, h2⟩ := h.wf.base x hx
    exact ⟨h1, by rw [h2, Bool.true_or]⟩
  · rw [heq hx hq] at hne ⊢
    split_ifs at hne ⊢ with hself
    · rw [hself.1]
      exact h.used_new
    · exact h.used_of (h.wf.used x hx q hq hne)
  · rw [heq hx hq] at hne hxy
    rw [heq hy hr] at hxy
    by_cases hself : x = inode ∧ q = p
    · obtain ⟨rfl, rfl⟩ := hself
      by_cases hself' : y = x ∧ r = q
      · exact hself'
      · rw [if_neg hself', if_pos ⟨rfl, rfl⟩] at hxy
        exact absurd hxy (h.fresh hy hr hd.symm)
    · rw [if_neg hself] at hne hxy
      by_cases hself' : y = inode ∧ r = p
      · rw [if_pos hself'] at hxy
        exact absurd hxy.symm (h.fresh hx hq (hd.trans (by rw [hself'.1])))
      · rw [if_neg hself'] at hxy
        exact h.wf.own x hx y hy q r hq hr hd hne hxy

end Filling

/-! ### Lookup -/

theorem reckon_lookup (indexes : List ℕ) (h : z.Open inode p) :
    reckon inode.dev false indexes z (z.slotAt inode p) = .ok (z.zoneAt inode (indexes.reverse ++ p), z) := by
  have hp : p ≠ [] := by
    rintro rfl
    exact h
  induction indexes generalizing p with
  | nil =>
    rw [List.reverse_nil, List.nil_append, zoneAt_slot h, reckon, touch]
    by_cases hz : z.read (z.slotAt inode p) = 0
    · simp [hz]
    · simp [hz]
  | cons index indexes ih =>
    rw [List.reverse_cons, List.append_assoc, List.singleton_append, reckon, touch]
    by_cases hz : z.read (z.slotAt inode p) = 0
    · have hzero : z.zoneAt inode p = 0 := by rw [zoneAt_slot h, hz]; rfl
      have hbelow := zoneAt_below hzero hp (indexes.reverse ++ [index])
      rw [List.append_assoc, List.singleton_append] at hbelow
      rw [hbelow]
      simp [hz]
    · have hne : z.zoneAt inode p ≠ 0 := by
        rw [zoneAt_slot h]
        exact fun he => hz (UInt16.toNat_inj.mp he)
      have hnext := ih ((open_cons z inode index hp).mpr hne) (List.cons_ne_nil _ _)
      rw [slotAt_cons _ _ _ hp, zoneAt_slot h] at hnext
      rw [if_pos hz, ok_bind]
      exact hnext

theorem bmap_lookup (z : ZoneStore) (inode : Ino) {block : ℕ} (h : block < TOTAL_BLOCK) :
    z.bmap inode block false = .ok (z.zoneAt inode (placeOf block), z) := by
  rw [bmap, decide_eq_true h, assert_true, ok_bind]
  exact reckon_lookup (levels block).2 (p := [(levels block).1]) trivial

/-- The blocks whose indexes lie in the tables have places of data zones, each another. -/
theorem placeOf_valid {block : ℕ} (h : block < BLOCK_INDEXES + BLOCK_INDEXES * BLOCK_INDEXES) :
    Valid (placeOf block) ∧ Leaf (placeOf block) := by
  unfold placeOf
  by_cases h1 : block < DIRECT_BLOCK
  · rw [levels_direct h1]
    have hlt : block < 7 := h1
    exact ⟨show block < 9 by omega, h1⟩
  · by_cases h2 : block < DIRECT_BLOCK + BLOCK_INDEXES
    · rw [levels_single (by omega) h2]
      exact ⟨⟨by omega, .inl rfl⟩, rfl⟩
    · rw [levels_double (by omega)]
      refine ⟨⟨Nat.mod_lt _ (by decide), ?_, rfl⟩, trivial⟩
      rw [Nat.div_lt_iff_lt_mul (by decide)]
      omega

theorem placeOf_injective {block other : ℕ} (h : placeOf other = placeOf block) : other = block := by
  obtain ⟨hl, hr⟩ := List.append_inj' h rfl
  exact levels_injective (Prod.ext (by simpa using hr) (List.reverse_injective hl))

end ZoneStore

end Onix
