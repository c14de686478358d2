import Onix.Fs.Space

/-! How `bmap` and `reckon` get from a block of a file to the slot with its zone: the indexes they
use, and the references to buffers they take on the way. -/

set_option autoImplicit false

namespace Onix

open Lib SharedWrite

/-! ### The indexes -/

namespace ZoneStore

/-- The level that `bmap` passes to `reckon`, with the block. -/
def bmapLevel (block : ℕ) : ℕ × ℕ :=
  if block < DIRECT_BLOCK then (0, block)
  else if block < DIRECT_BLOCK + BLOCK_INDEXES then (1, block - DIRECT_BLOCK)
  else (2, block - BLOCK_INDEXES)

/-- The index and the divider that `reckon` starts with; level 0 divides nothing. -/
def reckonStart : ℕ → ℕ → ℕ × ℕ
  | 0, block => (block, 0)
  | 1, _ => (DIRECT_BLOCK, 1)
  | _, _ => (DIRECT_BLOCK + 1, BLOCK_INDEXES)

/-- The indexes that the loop of `reckon` goes on with, one for each table. -/
def reckonIndexes : ℕ → ℕ → ℕ → List ℕ
  | 0, _, _ => []
  | level + 1, block, divider =>
    block / divider :: reckonIndexes level (block % divider) (divider / BLOCK_INDEXES)

/-- The index in the inode and those in the tables. -/
def indexes (block : ℕ) : ℕ × List ℕ :=
  let (level, block) := bmapLevel block
  let (index, divider) := reckonStart level block
  (index, reckonIndexes level block divider)

theorem indexes_eq (block : ℕ) : indexes block = levels block := by
  unfold indexes bmapLevel levels
  split_ifs
  · rfl
  · simp [reckonStart, reckonIndexes]
  · simp [reckonStart, reckonIndexes, show BLOCK_INDEXES / BLOCK_INDEXES = 1 from rfl]

/-- How many tables there are above the slot of a block. -/
def depth (block : ℕ) : ℕ := if block < DIRECT_BLOCK then 0 else if block < DIRECT_BLOCK + BLOCK_INDEXES then 1 else 2

/-- The slots that stand for a region: the direct ones, or the one above a table. -/
def rootOf : ℕ → ℕ → Prop
  | 0, index => index < DIRECT_BLOCK
  | 1, index => index = DIRECT_BLOCK
  | _, index => index = DIRECT_BLOCK + 1

/-- A block is found through tables of its own level, with indexes that lie in them, and through a slot of its own. -/
structure Reached (block : ℕ) : Prop where
  inode : (indexes block).1 < 9
  table : ∀ index ∈ (indexes block).2, index < BLOCK_INDEXES
  level : (indexes block).2.length = depth block ∧ rootOf (depth block) (indexes block).1
  own : ∀ other, other < TOTAL_BLOCK → indexes other = indexes block → other = block

theorem levels_direct {block : ℕ} (h : block < DIRECT_BLOCK) : levels block = (block, []) := if_pos h

theorem levels_single {block : ℕ} (h : DIRECT_BLOCK ≤ block) (h' : block < DIRECT_BLOCK + BLOCK_INDEXES) :
    levels block = (DIRECT_BLOCK, [block - DIRECT_BLOCK]) := by
  rw [levels, if_neg (by omega), if_pos h']

theorem levels_double {block : ℕ} (h : DIRECT_BLOCK + BLOCK_INDEXES ≤ block) :
    levels block = (DIRECT_BLOCK + 1,
      [(block - BLOCK_INDEXES) / BLOCK_INDEXES, (block - BLOCK_INDEXES) % BLOCK_INDEXES]) := by
  rw [levels, if_neg (by omega), if_neg (by omega)]

/-- The indexes tell the blocks apart. -/
theorem levels_injective {block other : ℕ} (h : levels other = levels block) : other = block := by
  have hcases : ∀ b, (b < DIRECT_BLOCK ∧ levels b = (b, [])) ∨
      (DIRECT_BLOCK ≤ b ∧ levels b = (DIRECT_BLOCK, [b - DIRECT_BLOCK])) ∨
      (DIRECT_BLOCK + BLOCK_INDEXES ≤ b ∧ levels b =
        (DIRECT_BLOCK + 1, [(b - BLOCK_INDEXES) / BLOCK_INDEXES, (b - BLOCK_INDEXES) % BLOCK_INDEXES])) := by
    intro b
    by_cases h1 : b < DIRECT_BLOCK
    · exact .inl ⟨h1, levels_direct h1⟩
    · by_cases h2 : b < DIRECT_BLOCK + BLOCK_INDEXES
      · exact .inr (.inl ⟨by omega, levels_single (by omega) h2⟩)
      · exact .inr (.inr ⟨by omega, levels_double (by omega)⟩)
  rcases hcases other with ⟨ho, eo⟩ | ⟨ho, eo⟩ | ⟨ho, eo⟩ <;> rcases hcases block with ⟨hb, eb⟩ | ⟨hb, eb⟩ | ⟨hb, eb⟩
  all_goals
    rw [eo, eb] at h
    simp only [Prod.mk.injEq, List.cons.injEq, reduceCtorEq, and_true, and_false] at h
  · exact h
  · omega
  · obtain ⟨-, hdiv, hmod⟩ := h
    have ho' := Nat.div_add_mod (other - BLOCK_INDEXES) BLOCK_INDEXES
    have hb' := Nat.div_add_mod (block - BLOCK_INDEXES) BLOCK_INDEXES
    rw [hdiv, hmod] at ho'
    omega

/-- `bmap` subtracts one region too few in the last one, and runs out of the table with the last seven blocks. -/
theorem block_reached_iff (block : ℕ) (h : block < TOTAL_BLOCK) :
    Reached block ↔ block < BLOCK_INDEXES + BLOCK_INDEXES * BLOCK_INDEXES := by
  have htotal : TOTAL_BLOCK = 262663 := rfl
  have hindexes : BLOCK_INDEXES = 512 := rfl
  have hsquare : BLOCK_INDEXES * BLOCK_INDEXES = 262144 := rfl
  have hdirect : DIRECT_BLOCK = 7 := rfl
  have hown : ∀ other, other < TOTAL_BLOCK → indexes other = indexes block → other = block := by
    intro other _ he
    rw [indexes_eq, indexes_eq] at he
    exact levels_injective he
  by_cases h1 : block < DIRECT_BLOCK
  · refine iff_of_true ?_ (by omega)
    have he := (indexes_eq block).trans (levels_direct h1)
    refine ⟨by rw [he]; dsimp only; omega, by rw [he]; nofun, ?_, hown⟩
    rw [he, depth, if_pos h1]
    exact ⟨rfl, h1⟩
  by_cases h2 : block < DIRECT_BLOCK + BLOCK_INDEXES
  · refine iff_of_true ?_ (by omega)
    have he := (indexes_eq block).trans (levels_single (by omega) h2)
    refine ⟨by rw [he]; dsimp only; omega, fun index hi => ?_, ?_, hown⟩
    · rw [he, List.mem_singleton] at hi
      omega
    · rw [he, depth, if_neg h1, if_pos h2]
      exact ⟨rfl, rfl⟩
  · have he := (indexes_eq block).trans (levels_double (by omega))
    constructor
    · intro hr
      have hlt := hr.table ((block - BLOCK_INDEXES) / BLOCK_INDEXES) (by rw [he]; exact List.mem_cons_self ..)
      have := (Nat.div_lt_iff_lt_mul (by decide : 0 < BLOCK_INDEXES)).mp hlt
      omega
    · intro hb
      refine ⟨by rw [he]; dsimp only; omega, fun index hi => ?_, ?_, hown⟩
      · rw [he] at hi
        simp only [List.mem_cons, List.not_mem_nil, or_false] at hi
        rcases hi with hi | hi <;> rw [hi]
        · exact (Nat.div_lt_iff_lt_mul (by decide : 0 < BLOCK_INDEXES)).mpr (by omega)
        · exact Nat.mod_lt _ (by decide)
      · rw [he, depth, if_neg h1, if_neg h2]
        exact ⟨rfl, rfl⟩

theorem block_reached_last : 262655 < BLOCK_INDEXES + BLOCK_INDEXES * BLOCK_INDEXES ∧ Reached 262655 :=
  ⟨by decide, (block_reached_iff 262655 (by decide)).mpr (by decide)⟩

theorem block_unreached : ¬ ∀ block, block < TOTAL_BLOCK → Reached block := by
  intro h
  have hlt := (h 262656 (by decide)).table 512 (by decide)
  exact absurd hlt (by decide)

end ZoneStore

/-! ### The references on the way -/

/-- The zones with the references to the buffer of each block. `late` is a record: the slots that `reckon` read after
it had released the buffer they lie in. -/
structure BlockRefs where
  store : ZoneStore
  count : ℕ → ℕ → ℕ
  late : List ZoneSlot

namespace BlockRefs

/-- One reference more. -/
def add (count : ℕ → ℕ → ℕ) (dev block : ℕ) : ℕ → ℕ → ℕ :=
  Function.update count dev (Function.update (count dev) block (count dev block + 1))

/-- `buf->count++`, and `bread` of a block. -/
def take (s : BlockRefs) (dev block : ℕ) : BlockRefs := { s with count := add s.count dev block }

/-- `brelease` -/
def brelease (s : BlockRefs) (dev block : ℕ) : Except Halt BlockRefs := do
  assert "bf->count >= 0" (0 < s.count dev block)
  .ok { s with
    count := Function.update s.count dev (Function.update (s.count dev) block (s.count dev block - 1)) }

/-- The block whose buffer a slot lies in; `home` is that of the inode. -/
def blockOf (home : ℕ) : ZoneSlot → ℕ
  | .inode _ _ => home
  | .table _ zone _ => zone

/-- The loop of `reckon` from where it holds the buffer of the slot. -/
def reckon (home dev : ℕ) (create : Bool) : List ℕ → BlockRefs → ZoneSlot → Except Halt (ℕ × BlockRefs)
  | [], s, slot => do
    match ← s.store.touch dev create slot with
    | none => .ok (0, s)
    | some z =>
      let s ← { s with store := z }.brelease dev (blockOf home slot)
      .ok ((s.store.read slot).toNat, { s with late := s.late ++ [slot] })
  | index :: indexes, s, slot => do
    match ← s.store.touch dev create slot with
    | none => .ok (0, s)
    | some z =>
      let s ← { s with store := z }.brelease dev (blockOf home slot)
      let zone := (s.store.read slot).toNat
      let s := { s with late := s.late ++ [slot] }
      reckon home dev create indexes (s.take dev zone) (.table dev zone index)

/-- `bmap` of an inode that lies in the block `home`, whose buffer the inode holds. -/
def bmap (s : BlockRefs) (home : ℕ) (inode : Ino) (block : ℕ) (create : Bool) : Except Halt (ℕ × BlockRefs) := do
  assert "block >= 0 && block < TOTAL_BLOCK" (block < TOTAL_BLOCK)
  let (index, indexes) := ZoneStore.indexes block
  reckon home inode.dev create indexes (s.take inode.dev home) (.inode inode index)

/-- The references are those before the call, and no table was read without one. -/
structure Balanced (s s' : BlockRefs) : Prop where
  count : s'.count = s.count
  late : ∀ slot ∈ s'.late, slot ∈ s.late ∨ ∃ inode i, slot = .inode inode i

variable {s s' : BlockRefs} {home dev : ℕ} {create : Bool}

theorem add_self (count : ℕ → ℕ → ℕ) (dev block : ℕ) : add count dev block dev block = count dev block + 1 := by
  rw [add, Function.update_self, Function.update_self]

theorem add_ne (count : ℕ → ℕ → ℕ) (dev block : ℕ) : add count dev block ≠ count := by
  intro h
  have := add_self count dev block
  rw [h] at this
  omega

/-- What was taken can be released. -/
theorem brelease_add (count : ℕ → ℕ → ℕ) {block : ℕ} (h : s.count = add count dev block) :
    s.brelease dev block = .ok { s with count := count } := by
  have hself := add_self count dev block
  rw [brelease, h, hself, decide_eq_true (Nat.succ_pos _), assert_true, ok_bind]
  congr 2
  rw [Nat.add_sub_cancel, add]
  simp

/-- The walk ends with all references given back, after a read without one, or returns 0 with the last one it took. -/
theorem reckon_exit {indexes : List ℕ} {slot : ZoneSlot} {idx : ℕ} {count : ℕ → ℕ → ℕ}
    (h : reckon home dev create indexes s slot = .ok (idx, s')) (hc : s.count = add count dev (blockOf home slot)) :
    (∃ block, s'.count = add count dev block) ∨
      (s'.count = count ∧ ∃ slot' ∈ s'.late, slot' = slot ∨ ∃ zone i, slot' = .table dev zone i) := by
  induction indexes generalizing s slot with
  | nil =>
    obtain ⟨r, hr, h⟩ := bind_ok.mp h
    cases r with
    | none =>
      cases h
      exact .inl ⟨_, hc⟩
    | some z =>
      dsimp only at h
      rw [brelease_add (s := { s with store := z }) _ hc, ok_bind] at h
      cases h
      exact .inr ⟨rfl, slot, by simp, .inl rfl⟩
  | cons index indexes ih =>
    obtain ⟨r, hr, h⟩ := bind_ok.mp h
    cases r with
    | none =>
      cases h
      exact .inl ⟨_, hc⟩
    | some z =>
      dsimp only at h
      rw [brelease_add (s := { s with store := z }) _ hc, ok_bind] at h
      rcases ih h rfl with hleft | ⟨hcount, slot', hmem, hslot⟩
      · exact .inl hleft
      · refine .inr ⟨hcount, slot', hmem, .inr ?_⟩
        rcases hslot with rfl | hslot
        · exact ⟨_, _, rfl⟩
        · exact hslot

/-- The references change nothing of what `bmap` does to the zones. -/
theorem reckon_store {indexes : List ℕ} {slot : ZoneSlot} {count : ℕ → ℕ → ℕ}
    (hc : s.count = add count dev (blockOf home slot)) :
    (reckon home dev create indexes s slot).map (fun r => (r.1, r.2.store)) =
      ZoneStore.reckon dev create indexes s.store slot := by
  induction indexes generalizing s slot with
  | nil =>
    rw [reckon, ZoneStore.reckon]
    cases s.store.touch dev create slot with
    | error e => rfl
    | ok r =>
      cases r with
      | none => rfl
      | some z =>
        rw [ok_bind, ok_bind]
        dsimp only
        rw [brelease_add (s := { s with store := z }) _ hc]
        rfl
  | cons index indexes ih =>
    rw [reckon, ZoneStore.reckon]
    cases s.store.touch dev create slot with
    | error e => rfl
    | ok r =>
      cases r with
      | none => rfl
      | some z =>
        rw [ok_bind, ok_bind]
        dsimp only
        rw [brelease_add (s := { s with store := z }) _ hc, ok_bind]
        exact ih rfl

theorem bmap_store (s : BlockRefs) (home : ℕ) (inode : Ino) (block : ℕ) (create : Bool) :
    (s.bmap home inode block create).map (fun r => (r.1, r.2.store)) = s.store.bmap inode block create := by
  rw [bmap, ZoneStore.bmap]
  cases assert "block >= 0 && block < TOTAL_BLOCK" (block < TOTAL_BLOCK) with
  | error e => rfl
  | ok u =>
    rw [ok_bind, ok_bind, ZoneStore.indexes_eq]
    exact reckon_store (s := s.take inode.dev home) rfl

/-- Only a direct block is found without a table, and a missing one is left with the reference that `buf->count++`
took. -/
theorem bmap_balanced_iff {inode : Ino} {block idx : ℕ} (h : s.bmap home inode block create = .ok (idx, s'))
    (hlate : s.late = []) :
    Balanced s s' ↔ block < DIRECT_BLOCK ∧ (create = true ∨ s.store.zone inode block ≠ 0) := by
  obtain ⟨_, -, h⟩ := bind_ok.mp h
  rw [ZoneStore.indexes_eq] at h
  by_cases hdirect : block < DIRECT_BLOCK
  · rw [ZoneStore.levels_direct hdirect] at h
    rw [and_iff_right hdirect]
    obtain ⟨r, hr, h⟩ := bind_ok.mp h
    change s.store.touch inode.dev create (.inode inode block) = .ok r at hr
    unfold ZoneStore.touch at hr
    split_ifs at hr with hz hcreate
    · cases hr
      dsimp only at h
      rw [brelease_add s.count rfl, ok_bind] at h
      cases h
      refine iff_of_true ⟨rfl, fun slot hs => ?_⟩ (.inr hz)
      simp only [take, hlate, List.nil_append, List.mem_singleton] at hs
      exact .inr ⟨_, _, hs⟩
    · cases hr
      cases h
      refine iff_of_false (fun hb => add_ne _ _ _ hb.count) ?_
      rintro (hc | hc)
      · simp [hc] at hcreate
      · exact hz hc
    · have hcreate : create = true := by simpa using hcreate
      obtain ⟨z, -, hr⟩ := bind_ok.mp hr
      cases hr
      dsimp only at h
      rw [brelease_add s.count rfl, ok_bind] at h
      cases h
      refine iff_of_true ⟨rfl, fun slot hs => ?_⟩ (.inl hcreate)
      simp only [take, hlate, List.nil_append, List.mem_singleton] at hs
      exact .inr ⟨_, _, hs⟩
  · refine iff_of_false (fun hb => ?_) fun hc => hdirect hc.1
    -- the slot of the block lies in a table, which is released before it is read
    obtain ⟨root, index, indexes, hlevels⟩ :
      ∃ root index indexes, ZoneStore.levels block = (root, index :: indexes) := by
      unfold ZoneStore.levels
      rw [if_neg hdirect]
      split_ifs
      · exact ⟨_, _, _, rfl⟩
      · exact ⟨_, _, _, rfl⟩
    rw [hlevels] at h
    obtain ⟨r, hr, h⟩ := bind_ok.mp h
    cases r with
    | none =>
      cases h
      exact add_ne _ _ _ hb.count
    | some z =>
      dsimp only at h
      rw [brelease_add s.count rfl, ok_bind] at h
      rcases reckon_exit h rfl with ⟨b, hleft⟩ | ⟨-, slot', hmem, hslot⟩
      · exact add_ne _ _ _ (hleft.symm.trans hb.count)
      · rcases hb.late slot' hmem with hold | ⟨i, n, rfl⟩
        · rw [hlate] at hold
          cases hold
        · rcases hslot with hslot | ⟨_, _, hslot⟩ <;> cases hslot

/-- An inode in block 5 with the zone 20 as its first block, and no other one. -/
def oneBlock : BlockRefs where
  store :=
    { zmap := fun _ _ => true
      zmapBlocks := fun _ => 1
      firstdatazone := fun _ => 10
      zone := fun _ i => if i = 0 then 20 else 0
      data := fun _ _ _ => 0
      past := fun _ _ => 0
      filled := [] }
  count _ block := if block = 5 then 1 else 0
  late := []

/-- What the lookup of the first block leaves. -/
def oneBlockFound : BlockRefs :=
  { oneBlock with
    count := Function.update (add oneBlock.count 1 5) 1 (Function.update (add oneBlock.count 1 5 1) 5 1)
    late := [.inode ⟨1, 2⟩ 0] }

theorem bmap_balanced_first :
    oneBlock.bmap 5 ⟨1, 2⟩ 0 false = .ok (20, oneBlockFound) ∧ Balanced oneBlock oneBlockFound := by
  have hrun : oneBlock.bmap 5 ⟨1, 2⟩ 0 false = .ok (20, oneBlockFound) := rfl
  exact ⟨hrun, (bmap_balanced_iff hrun rfl).mpr ⟨by decide, .inr (by decide)⟩⟩

theorem bmap_unbalanced : ¬ ∀ (s s' : BlockRefs) (home : ℕ) (inode : Ino) (block idx : ℕ) (create : Bool),
    s.bmap home inode block create = .ok (idx, s') → s.late = [] → Balanced s s' := by
  intro h
  have hcount := (h oneBlock _ 5 ⟨1, 2⟩ 1 0 false rfl rfl).count
  have : (2 : ℕ) = 1 := congrFun (congrFun hcount 1) 5
  cases this

end BlockRefs

end Onix
