import Onix.Fs.Space

/-! `inode_truncate` and the walk of `inode_bfree` over the zones of a file. -/

set_option autoImplicit false

namespace Onix

open Lib SharedWrite

def isFileMode (mode : UInt16) : Bool := mode &&& IFMT == IFREG

namespace ZoneStore

/-- `bfree`; the bit of a zone lies in the one of the eight windows that its number falls in. -/
def bfree (z : ZoneStore) (dev idx : ℕ) : Except Halt ZoneStore :=
  match (List.range ZMAP_NR).find? fun i =>
    i * BLOCK_BITS + z.firstdatazone dev - 1 ≤ idx && idx < (i + 1) * BLOCK_BITS + z.firstdatazone dev - 1 with
  | none => .ok z
  | some i => do
    assert "buf" (i < z.zmapBlocks dev)
    let bit := idx + 1 - z.firstdatazone dev
    assert "bitmap_test(&map, idx)" (z.zmap dev bit)
    .ok { z with zmap := Function.update z.zmap dev (Function.update (z.zmap dev) bit false) }

/-- The zones below a slot that stands over `level` tables, each table after the zones in it. -/
def zonesAt (z : ZoneStore) (dev : ℕ) : ℕ → ZoneSlot → List ℕ
  | 0, slot => if z.read slot = 0 then [] else [(z.read slot).toNat]
  | level + 1, slot =>
    if z.read slot = 0 then []
    else (List.range BLOCK_INDEXES).flatMap (fun i => zonesAt z dev level (.table dev (z.read slot).toNat i)) ++
      [(z.read slot).toNat]

/-- The zones of a file, data and tables. -/
def zonesOf (z : ZoneStore) (inode : Ino) : List ℕ :=
  (List.range DIRECT_BLOCK).flatMap (fun i => z.zonesAt inode.dev 0 (.inode inode i)) ++
    z.zonesAt inode.dev 1 (.inode inode DIRECT_BLOCK) ++ z.zonesAt inode.dev 2 (.inode inode (DIRECT_BLOCK + 1))

/-- No zone is in the file twice, and each is a data zone that is marked used. -/
structure TreeSound (z : ZoneStore) (inode : Ino) : Prop where
  nodup : (z.zonesOf inode).Nodup
  used : ∀ zone ∈ z.zonesOf inode,
    z.firstdatazone inode.dev ≤ zone ∧ z.zmap inode.dev (zone + 1 - z.firstdatazone inode.dev) = true

end ZoneStore

/-- The zones with the modes and the sizes of the inodes. `freed` is a record: the calls of `bfree`. -/
structure FileStore where
  zones : ZoneStore
  mode : Ino → UInt16
  size : Ino → ℕ
  freed : List (ℕ × ℕ)

namespace FileStore

def bfree (s : FileStore) (dev idx : ℕ) : Except Halt FileStore := do
  let z ← s.zones.bfree dev idx
  .ok { s with zones := z, freed := s.freed ++ [(dev, idx)] }

/-- `inode_bfree` -/
def inodeBfree (dev : ℕ) : ℕ → ZoneSlot → FileStore → Except Halt FileStore
  | 0, slot, s =>
    if s.zones.read slot = 0 then .ok s
    else s.bfree dev (s.zones.read slot).toNat
  | level + 1, slot, s =>
    if s.zones.read slot = 0 then .ok s
    else do
      let zone := (s.zones.read slot).toNat
      let s ← (List.range BLOCK_INDEXES).foldlM (fun s i => inodeBfree dev level (.table dev zone i) s) s
      s.bfree dev zone

/-- `inode_bfree` of what an inode names, which is zero then. -/
def dropZone (s : FileStore) (inode : Ino) (i level : ℕ) : Except Halt FileStore := do
  let s ← inodeBfree inode.dev level (.inode inode i) s
  .ok { s with zones := s.zones.store 0 (.inode inode i) }

def inodeTruncate (s : FileStore) (inode : Ino) : Except Halt FileStore :=
  if !isFileMode (s.mode inode) || !isDirMode (s.mode inode) then .ok s
  else do
    let s ← (List.range DIRECT_BLOCK).foldlM (fun s i => s.dropZone inode i 0) s
    let s ← s.dropZone inode DIRECT_BLOCK 1
    let s ← s.dropZone inode (DIRECT_BLOCK + 1) 2
    .ok { s with size := Function.update s.size inode 0 }

/-- What truncating an inode is for. -/
structure Truncated (s : FileStore) (inode : Ino) (s' : FileStore) : Prop where
  /-- The bits of the zones of the file are clear, and no other bit has changed. -/
  bits : ∀ dev b, s'.zones.zmap dev b = (s.zones.zmap dev b &&
    !decide (dev = inode.dev ∧ b + s.zones.firstdatazone dev - 1 ∈ s.zones.zonesOf inode))
  /-- Each zone has been given back once. -/
  freed : ∃ l, s'.freed = s.freed ++ l ∧ l.Perm ((s.zones.zonesOf inode).map fun zone => (inode.dev, zone))
  zone : ∀ i < 9, s'.zones.zone inode i = 0
  size : s'.size inode = 0
  others : ∀ other, other ≠ inode → s'.zones.zone other = s.zones.zone other ∧ s'.size other = s.size other ∧
    s'.mode other = s.mode other

variable {s s' : FileStore} {inode : Ino}

/-- The guard lets nothing pass: no mode is that of a file and of a directory. -/
theorem inodeTruncate_eq (s : FileStore) (inode : Ino) : s.inodeTruncate inode = .ok s := by
  apply if_pos
  by_cases hfile : isFileMode (s.mode inode) = true
  · have hmode : s.mode inode &&& IFMT = IFREG := by simpa [isFileMode] using hfile
    have hdir : isDirMode (s.mode inode) = false := by
      rw [isDirMode, hmode]
      decide
    simp [hdir]
  · simp [hfile]

theorem zonesOf_empty {z : ZoneStore} (h : ∀ i < 9, z.zone inode i = 0) : z.zonesOf inode = [] := by
  have hread : ∀ i < 9, z.read (.inode inode i) = 0 := h
  have hdirect : ∀ i ∈ List.range DIRECT_BLOCK, z.zonesAt inode.dev 0 (.inode inode i) = [] := by
    intro i hi
    have hlt : i < 7 := List.mem_range.mp hi
    rw [ZoneStore.zonesAt, if_pos (hread i (by omega))]
  rw [ZoneStore.zonesOf, List.flatMap_eq_nil_iff.mpr hdirect, ZoneStore.zonesAt, ZoneStore.zonesAt,
    if_pos (hread DIRECT_BLOCK (by decide)), if_pos (hread (DIRECT_BLOCK + 1) (by decide))]
  rfl

/-- Nothing is given back, so a file is truncated only if it was empty before. -/
theorem inodeTruncate_truncated_iff (s : FileStore) (inode : Ino) :
    (∃ s', s.inodeTruncate inode = .ok s' ∧ Truncated s inode s') ↔
      (∀ i < 9, s.zones.zone inode i = 0) ∧ s.size inode = 0 := by
  rw [inodeTruncate_eq]
  constructor
  · rintro ⟨s', hs, h⟩
    cases hs
    exact ⟨h.zone, h.size⟩
  · rintro ⟨hzone, hsize⟩
    have hnone := zonesOf_empty hzone
    refine ⟨s, rfl, fun dev b => ?_, ⟨[], by simp, by simp [hnone]⟩, hzone, hsize, fun other _ => ⟨rfl, rfl, rfl⟩⟩
    simp [hnone]

/-- A regular file with one zone. -/
def oneZone : FileStore where
  zones :=
    { zmap := fun _ b => b ≤ 1
      zmapBlocks := fun _ => 1
      firstdatazone := fun _ => 10
      zone := fun _ i => if i = 0 then 10 else 0
      data := fun _ _ _ => 0
      past := fun _ _ => 0
      filled := [] }
  mode _ := IFREG
  size _ := 5
  freed := []

theorem inodeTruncate_leaks : ¬ ∀ (s : FileStore) (inode : Ino),
    isFileMode (s.mode inode) = true ∨ isDirMode (s.mode inode) = true → s.zones.TreeSound inode →
      ∃ s', s.inodeTruncate inode = .ok s' ∧ Truncated s inode s' := by
  intro h
  have hzones : oneZone.zones.zonesOf ⟨1, 2⟩ = [10] := rfl
  have hsound : oneZone.zones.TreeSound ⟨1, 2⟩ := by
    refine ⟨by rw [hzones]; exact List.nodup_singleton 10, fun zone hz => ?_⟩
    rw [hzones, List.mem_singleton] at hz
    subst hz
    decide
  obtain ⟨s', hs, ht⟩ := h oneZone ⟨1, 2⟩ (.inl rfl) hsound
  rw [inodeTruncate_eq] at hs
  cases hs
  exact absurd ht.size (by decide)

end FileStore

end Onix
