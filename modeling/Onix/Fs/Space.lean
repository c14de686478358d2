import Onix.Fs.Namespace
import Onix.Fs.SharedWrite

/-! The zones of the files as bmap.c hands them out: the zone bitmaps, the zones that an inode
names, and the tables in the index blocks. `balloc` returns `EOF` only if all eight bitmap blocks
are there, and `EOF` is stored like any number. -/

set_option autoImplicit false

namespace Onix

open Lib SharedWrite

def ZMAP_NR : ℕ := 8
def DIRECT_BLOCK : ℕ := 7

/-- The loop that `balloc` and `ialloc` share, over `n` bitmap blocks from the `i`-th on. -/
def allocFrom (bits : ℕ → Bool) (blocks : ℕ) : ℕ → ℕ → Except Halt (Option ℕ)
  | 0, _ => .ok none
  | n + 1, i => do
    assert "buf" (i < blocks)
    match Vol.scanMap bits BLOCK_BITS (i * BLOCK_BITS) with
    | some b => .ok (some b)
    | none => allocFrom bits blocks n (i + 1)

/-- Where a zone number is kept: in an inode, or in the table of an index block. -/
inductive ZoneSlot
  | inode (inode : Ino) (i : ℕ)
  | table (dev zone i : ℕ)

/-- The zones of all devices. `filled` is a record: what `balloc` returned, and the number that was stored. -/
structure ZoneStore where
  zmap : ℕ → ℕ → Bool
  zmapBlocks : ℕ → ℕ
  firstdatazone : ℕ → ℕ
  /-- `desc->zone` -/
  zone : Ino → ℕ → UInt16
  data : ℕ → ℕ → ℕ → UInt8
  past : Ino → ℕ → ℕ
  filled : List (Option ℕ × UInt16)

namespace ZoneStore

def read (z : ZoneStore) : ZoneSlot → UInt16
  | .inode inode i => z.zone inode i
  | .table dev zone i => (z.data dev zone (2 * i)).toUInt16 ||| (z.data dev zone (2 * i + 1)).toUInt16 <<< 8

def setBlock (z : ZoneStore) (dev zone : ℕ) (block : ℕ → UInt8) : ZoneStore :=
  { z with data := Function.update z.data dev (Function.update (z.data dev) zone block) }

def store (z : ZoneStore) (nr : UInt16) : ZoneSlot → ZoneStore
  | .inode inode i => { z with zone := Function.update z.zone inode (Function.update (z.zone inode) i nr) }
  | .table dev zone i =>
    let block := Function.update (z.data dev zone) (2 * i) nr.toUInt8
    z.setBlock dev zone (Function.update block (2 * i + 1) (nr >>> 8).toUInt8)

/-- `balloc`; `none` is `EOF`. -/
def balloc (z : ZoneStore) (dev : ℕ) : Except Halt (Option ℕ × ZoneStore) := do
  match ← allocFrom (z.zmap dev) (z.zmapBlocks dev) ZMAP_NR 0 with
  | some b => .ok (some (b + z.firstdatazone dev - 1),
      { z with zmap := Function.update z.zmap dev (Function.update (z.zmap dev) b true) })
  | none => .ok (none, z)

/-- `array[index] = balloc(inode->dev)`, in 16 bits. -/
def fill (z : ZoneStore) (dev : ℕ) (slot : ZoneSlot) : Except Halt ZoneStore := do
  let (bit, z) ← z.balloc dev
  let nr := UInt16.ofNat (bit.getD 0xFFFFFFFF)
  .ok { z.store nr slot with filled := z.filled ++ [(bit, nr)] }

/-- The head of the loop of `reckon`; `none` where it returns 0. -/
def touch (z : ZoneStore) (dev : ℕ) (create : Bool) (slot : ZoneSlot) : Except Halt (Option ZoneStore) :=
  if z.read slot ≠ 0 then .ok (some z)
  else if !create then .ok none
  else do
    let z ← z.fill dev slot
    .ok (some z)

/-- The loop of `reckon`, with the indexes in the tables still to come. An index that leaves its table reads what
lies there. -/
def reckon (dev : ℕ) (create : Bool) : List ℕ → ZoneStore → ZoneSlot → Except Halt (ℕ × ZoneStore)
  | [], z, slot => do
    match ← z.touch dev create slot with
    | none => .ok (0, z)
    | some z => .ok ((z.read slot).toNat, z)
  | index :: indexes, z, slot => do
    match ← z.touch dev create slot with
    | none => .ok (0, z)
    | some z => reckon dev create indexes z (.table dev (z.read slot).toNat index)

/-- The levels of `bmap`: the index in the inode, and those in the tables. -/
def levels (block : ℕ) : ℕ × List ℕ :=
  if block < DIRECT_BLOCK then (block, [])
  else if block < DIRECT_BLOCK + BLOCK_INDEXES then (DIRECT_BLOCK, [block - DIRECT_BLOCK])
  else
    let block := block - BLOCK_INDEXES
    (DIRECT_BLOCK + 1, [block / BLOCK_INDEXES, block % BLOCK_INDEXES])

def bmap (z : ZoneStore) (inode : Ino) (block : ℕ) (create : Bool) : Except Halt (ℕ × ZoneStore) := do
  assert "block >= 0 && block < TOTAL_BLOCK" (block < TOTAL_BLOCK)
  reckon inode.dev create (levels block).2 z (.inode inode (levels block).1)

instance : Zones ZoneStore where
  bmap := bmap
  zone0 z inode := z.zone inode 0
  setZone0 z inode dev := z.store dev (.inode inode 0)
  past := past

/-- The loop of `inode_write`; every round writes a byte. -/
def writeFrom (inode : Ino) : ℕ → Progress → ZoneStore → Except Halt ZoneStore
  | 0, _, z => .ok z
  | rounds + 1, p, z =>
    if p.offset < p.start + p.bytes.length then do
      let (idx, z) ← z.bmap inode (p.offset / BLOCK_SIZE) true
      assert "idx" (idx ≠ 0)
      let z := z.setBlock inode.dev idx (Shared.copy p (z.data inode.dev idx))
      writeFrom inode rounds { p with offset := p.offset + Shared.chars p } z
    else .ok z

end ZoneStore

/-! ### The bitmaps -/

/-- The first free bit, in the bitmap blocks that are there. -/
structure FirstFree (bits : ℕ → Bool) (blocks b : ℕ) : Prop where
  lt : b < blocks * BLOCK_BITS
  scanned : b < 8 * BLOCK_BITS
  free : bits b = false
  first : ∀ c < b, bits c = true

section

variable {bits : ℕ → Bool} {blocks : ℕ}

theorem scanMap_some {n i b : ℕ} (h : Vol.scanMap bits n i = some b) :
    i ≤ b ∧ b < i + n ∧ bits b = false ∧ ∀ c, i ≤ c → c < b → bits c = true := by
  induction n generalizing i with
  | zero => cases h
  | succ n ih =>
    rw [Vol.scanMap] at h
    split_ifs at h with hb
    · obtain ⟨h1, h2, h3, h4⟩ := ih h
      refine ⟨by omega, by omega, h3, fun c hic hcb => ?_⟩
      by_cases hc : c = i
      · exact hc ▸ hb
      · exact h4 c (by omega) hcb
    · cases h
      exact ⟨le_rfl, by omega, by simpa using hb, fun c h1 h2 => absurd h1 (by omega)⟩

theorem scanMap_none {n i : ℕ} (h : Vol.scanMap bits n i = none) (c : ℕ) (hi : i ≤ c) (hn : c < i + n) :
    bits c = true := by
  induction n generalizing i with
  | zero => omega
  | succ n ih =>
    rw [Vol.scanMap] at h
    split_ifs at h with hb
    by_cases hc : c = i
    · exact hc ▸ hb
    · exact ih h (by omega) (by omega)

theorem allocFrom_some {n i b : ℕ} (h : allocFrom bits blocks n i = .ok (some b))
    (hbefore : ∀ c < i * BLOCK_BITS, bits c = true) :
    b < blocks * BLOCK_BITS ∧ b < (i + n) * BLOCK_BITS ∧ bits b = false ∧ ∀ c < b, bits c = true := by
  induction n generalizing i with
  | zero => cases h
  | succ n ih =>
    obtain ⟨_, hi, h⟩ := bind_ok.mp h
    have hi : i < blocks := by simpa using hi
    have hblocks : (i + 1) * BLOCK_BITS ≤ blocks * BLOCK_BITS := Nat.mul_le_mul_right _ hi
    have hsum : (i + 1) * BLOCK_BITS ≤ (i + (n + 1)) * BLOCK_BITS := Nat.mul_le_mul_right _ (by omega)
    rw [Nat.add_mul, Nat.one_mul] at hblocks hsum
    cases hscan : Vol.scanMap bits BLOCK_BITS (i * BLOCK_BITS) with
    | some c =>
      rw [hscan] at h
      cases h
      obtain ⟨-, h2, h3, h4⟩ := scanMap_some hscan
      refine ⟨by omega, by omega, h3, fun c hc => ?_⟩
      by_cases hci : c < i * BLOCK_BITS
      · exact hbefore c hci
      · exact h4 c (by omega) hc
    | none =>
      rw [hscan] at h
      have hnext := ih h fun c hc => by
        rw [Nat.add_mul, Nat.one_mul] at hc
        by_cases hci : c < i * BLOCK_BITS
        · exact hbefore c hci
        · exact scanMap_none hscan c (by omega) hc
      rwa [Nat.add_right_comm, Nat.add_assoc] at hnext

theorem allocFrom_none {n i : ℕ} (h : allocFrom bits blocks n i = .ok none) (c : ℕ) (hi : i * BLOCK_BITS ≤ c)
    (hc : c < (i + n) * BLOCK_BITS) : bits c = true := by
  induction n generalizing i with
  | zero =>
    rw [Nat.add_zero] at hc
    omega
  | succ n ih =>
    obtain ⟨_, -, h⟩ := bind_ok.mp h
    cases hscan : Vol.scanMap bits BLOCK_BITS (i * BLOCK_BITS) with
    | some c =>
      rw [hscan] at h
      cases h
    | none =>
      rw [hscan] at h
      have hnext : (i + 1) * BLOCK_BITS = i * BLOCK_BITS + BLOCK_BITS := by rw [Nat.add_mul, Nat.one_mul]
      by_cases hci : c < i * BLOCK_BITS + BLOCK_BITS
      · exact scanMap_none hscan c hi hci
      · exact ih h (by omega) (by rwa [Nat.add_right_comm, Nat.add_assoc])

/-- It halts at the first bitmap block that is not there, with all bits before used. -/
theorem allocFrom_error {n i : ℕ} {e : Halt} (h : allocFrom bits blocks n i = .error e) :
    e = .assertion "buf" ∧ blocks < i + n ∧ ∀ c, i * BLOCK_BITS ≤ c → c < blocks * BLOCK_BITS → bits c = true := by
  induction n generalizing i with
  | zero => cases h
  | succ n ih =>
    rw [allocFrom] at h
    by_cases hi : i < blocks
    · have hassert : assert "buf" (decide (i < blocks)) = .ok () := assert_ok.mpr (decide_eq_true hi)
      rw [hassert, ok_bind] at h
      cases hscan : Vol.scanMap bits BLOCK_BITS (i * BLOCK_BITS) with
      | some c =>
        rw [hscan] at h
        cases h
      | none =>
        rw [hscan] at h
        obtain ⟨he, hn, hused⟩ := ih h
        refine ⟨he, by omega, fun c hic hcb => ?_⟩
        by_cases hci : c < i * BLOCK_BITS + BLOCK_BITS
        · exact scanMap_none hscan c hic hci
        · exact hused c (by rw [Nat.add_mul, Nat.one_mul]; omega) hcb
    · have hassert : assert "buf" (decide (i < blocks)) = .error (.assertion "buf") := by
        rw [decide_eq_false hi]
        rfl
      rw [hassert] at h
      cases h
      refine ⟨rfl, by omega, fun c hic hcb => ?_⟩
      have := Nat.mul_le_mul_right BLOCK_BITS (Nat.le_of_not_lt hi)
      omega

theorem alloc_eq_some {b : ℕ} : allocFrom bits blocks 8 0 = .ok (some b) ↔ FirstFree bits blocks b := by
  constructor
  · intro h
    obtain ⟨h1, h2, h3, h4⟩ := allocFrom_some h fun c hc => absurd hc (by omega)
    rw [Nat.zero_add] at h2
    exact ⟨h1, h2, h3, h4⟩
  · rintro ⟨hlt, hscanned, hfree, hfirst⟩
    cases hr : allocFrom bits blocks 8 0 with
    | error e =>
      have hused := (allocFrom_error hr).2.2 b (by omega) hlt
      rw [hfree] at hused
      cases hused
    | ok r =>
      cases r with
      | none =>
        have hused := allocFrom_none hr b (by omega) (by rwa [Nat.zero_add])
        rw [hfree] at hused
        cases hused
      | some c =>
        obtain ⟨-, -, h3, h4⟩ := allocFrom_some hr fun c hc => absurd hc (by omega)
        rcases lt_trichotomy b c with hbc | rfl | hbc
        · rw [h4 b hbc] at hfree
          cases hfree
        · rfl
        · rw [hfirst c hbc] at h3
          cases h3

end

/-! ### Running out of zones -/

namespace ZoneStore

variable {z z' : ZoneStore} {dev : ℕ} {inode : Ino}

/-- Every number that was stored is the one that `balloc` returned. -/
def Honest (z : ZoneStore) : Prop := ∀ r ∈ z.filled, r.1 = some r.2.toNat

/-- `balloc` finds a zone whose number fits in 16 bits. -/
def Room (z : ZoneStore) (dev : ℕ) : Prop :=
  ∃ b, FirstFree (z.zmap dev) (z.zmapBlocks dev) b ∧ b + z.firstdatazone dev - 1 < 65536

/-- There is room for each slot that `reckon` finds empty. -/
def Reckons (dev : ℕ) : List ℕ → ZoneStore → ZoneSlot → Prop
  | [], z, slot => z.read slot = 0 → z.Room dev
  | index :: indexes, z, slot => (z.read slot = 0 → z.Room dev) ∧
      ∀ z', z.touch dev true slot = .ok (some z') → Reckons dev indexes z' (.table dev (z'.read slot).toNat index)

/-- There is room for what `bmap` adds to the file. -/
def Maps (z : ZoneStore) (inode : Ino) (block : ℕ) : Prop :=
  block < TOTAL_BLOCK → Reckons inode.dev (levels block).2 z (.inode inode (levels block).1)

/-- There is room for the blocks that `inode_write` writes. -/
def Writes (inode : Ino) : ℕ → Progress → ZoneStore → Prop
  | 0, _, _ => True
  | rounds + 1, p, z => p.offset < p.start + p.bytes.length → z.Maps inode (p.offset / BLOCK_SIZE) ∧
      ∀ idx z', z.bmap inode (p.offset / BLOCK_SIZE) true = .ok (idx, z') →
        Writes inode rounds { p with offset := p.offset + Shared.chars p }
          (z'.setBlock inode.dev idx (Shared.copy p (z'.data inode.dev idx)))

@[simp] theorem store_filled (z : ZoneStore) (nr : UInt16) (slot : ZoneSlot) : (z.store nr slot).filled = z.filled := by
  cases slot <;> rfl

end ZoneStore

end Onix
