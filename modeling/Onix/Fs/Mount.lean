import Onix.Fs.Inode
import Onix.Fs.Path
import Onix.Lib.RefCount
import Onix.Lib.Transition

/-! The super table, the inodes that are mounted and mounted on, and sys_mount and sys_umount
of super.c. The walk over a pathname gives back every inode and buffer it takes, so `namei`
is the lookup of Path.lean and one `iget`. `get_super` takes no reference, yet every refusal of
sys_umount gives one back by `put_super`. Pipes are no inodes of a device and are left out. -/

set_option autoImplicit false

namespace Onix

open Lib

def SUPER_NR : ℕ := 16

/-- What the disks hold. -/
structure Content where
  isDir : Ino → Bool
  isBlk : Ino → Bool
  /-- `desc->zone[0]`, the device of a device file. -/
  zone0 : Ino → ℕ
  exec : Ino → Bool
  entries : Ino → List (Name × ℕ)
  /-- `imap_blocks` and `zmap_blocks` of the super block of a device. -/
  maps : ℕ → ℕ × ℕ
  /-- `magic == MINIX1_MAGIC` -/
  minix : ℕ → Bool

/-- `super_block_t`; no device is `EOF`. Of its buffers the devices and blocks. -/
structure SuperBlock where
  dev : Option ℕ
  count : ℕ
  imount : Option ℕ
  iroot : Option ℕ
  bufs : List (ℕ × ℕ)

/-- `inode_t`; `node` is the super block in whose list it is linked. -/
structure INode where
  dev : Option ℕ
  nr : ℕ
  count : ℕ
  mount : Option ℕ
  node : Option (Fin SUPER_NR)
  buf : ℕ × ℕ

/-- `super_table` with `root`, `inode_table`, and the counts of the buffers by device and block. -/
structure Mounts where
  supers : Fin SUPER_NR → SuperBlock
  root : Fin SUPER_NR
  inodes : ℕ → INode
  bufs : ℕ × ℕ → ℕ

namespace Mounts

def updSuper (m : Mounts) (k : Fin SUPER_NR) (f : SuperBlock → SuperBlock) : Mounts :=
  { m with supers := Function.update m.supers k (f (m.supers k)) }

def updInode (m : Mounts) (i : ℕ) (f : INode → INode) : Mounts :=
  { m with inodes := Function.update m.inodes i (f (m.inodes i)) }

def getFreeSuper (m : Mounts) : Option (Fin SUPER_NR) :=
  (List.finRange SUPER_NR).find? fun k => (m.supers k).dev = none

def getSuper (m : Mounts) (dev : ℕ) : Option (Fin SUPER_NR) :=
  (List.finRange SUPER_NR).find? fun k => (m.supers k).dev = some dev

/-- `bread` of a block, as far as it counts. -/
def bread (m : Mounts) (block : ℕ × ℕ) : Mounts :=
  { m with bufs := Function.update m.bufs block (m.bufs block + 1) }

def brelease (m : Mounts) (block : ℕ × ℕ) : Except Halt Mounts := do
  assert "bf->count >= 0" (0 < m.bufs block)
  .ok { m with bufs := Function.update m.bufs block (m.bufs block - 1) }

def findInode (m : Mounts) (k : Fin SUPER_NR) (nr : ℕ) : Option ℕ :=
  (List.range INODE_NR).find? fun i => (m.inodes i).node = some k ∧ (m.inodes i).nr = nr

def getFreeInode (m : Mounts) : Option ℕ := (List.range INODE_NR).find? fun i => (m.inodes i).dev = none

/-- `count--` of a `uint32` -/
def down (count : ℕ) : ℕ := if count = 0 then 2 ^ 32 - 1 else count - 1

/-- `iput`, with `put_free_inode`. -/
def iput (m : Mounts) (i : ℕ) : Except Halt Mounts := do
  let m := m.updInode i fun n => { n with count := down n.count }
  if (m.inodes i).count ≠ 0 then .ok m
  else
    assert "node->prev != NULL" (m.inodes i).node.isSome
    let m := m.updInode i fun n => { n with node := none }
    let m ← m.brelease (m.inodes i).buf
    assert "inode != inode_table" (i ≠ 0)
    .ok (m.updInode i fun n => { n with dev := none })

/-- `iput` of a pointer that may be `NULL`. -/
def iputOpt (m : Mounts) : Option ℕ → Except Halt Mounts
  | none => .ok m
  | some i => m.iput i

def take (m : Mounts) (i : ℕ) : Mounts := m.updInode i fun n => { n with count := n.count + 1 }

/-- What `iget` makes of a free inode. -/
def load (m : Mounts) (i : ℕ) (k : Fin SUPER_NR) (dev nr block : ℕ) : Mounts :=
  (m.updInode i fun n =>
    { n with dev := some dev, nr := nr, count := n.count + 1, node := some k, buf := (dev, block) }).bread (dev, block)

def fitInode (m : Mounts) (i : ℕ) : Except Halt (ℕ × Mounts) :=
  match (m.inodes i).mount with
  | none => .ok (i, m)
  | some dev =>
    match m.getSuper dev with
    | none => .error (.assertion "sb")
    | some k => do
      let m ← m.iput i
      match (m.supers k).iroot with
      | none => .error .nullPointer
      | some r => .ok (r, m.take r)

def iget (c : Content) (m : Mounts) (dev nr : ℕ) : Except Halt (ℕ × Mounts) :=
  match m.getSuper dev with
  | none => .error (.assertion "sb")
  | some k =>
    match m.findInode k nr with
    | some i => (m.take i).fitInode i
    | none =>
      match m.getFreeInode with
      | none => .error (.panic "no more inode!!!")
      | some i => do
        assert "!list_search(list, node)" ((m.inodes i).node ≠ some k)
        .ok (i, m.load i k dev nr (2 + (c.maps dev).1 + (c.maps dev).2 + (nr - 1) / 32))

/-- What an inode in use is on disk. -/
def ino (m : Mounts) (i : ℕ) : Ino := ⟨(m.inodes i).dev.getD 0, (m.inodes i).nr⟩

/-- The directories as the walk sees them. -/
def disk (c : Content) (m : Mounts) : Disk where
  isDir := c.isDir
  exec := c.exec
  entries := c.entries
  mount inode := do
    let k ← m.getSuper inode.dev
    let i ← m.findInode k inode.nr
    (m.inodes i).mount
  imount dev := do
    let k ← m.getSuper dev
    (m.supers k).imount.map m.ino

def namei (c : Content) (m : Mounts) (task : TaskDirs) (pathname : Name) : Except Halt (Option ℕ × Mounts) := do
  match ← (m.disk c).named task pathname with
  | none => .ok (none, m)
  | some (dir, name) =>
    if name.isEmpty then .ok (none, m)
    else match ← (m.disk c).findEntry dir name with
      | none => .ok (none, m)
      | some (dir, nr, _) => do
        let (i, m) ← m.iget c dir.dev nr
        .ok (some i, m)

def putSuper (m : Mounts) : Option (Fin SUPER_NR) → Except Halt Mounts
  | none => .ok m
  | some k => do
    assert "sb->count > 0" (0 < (m.supers k).count)
    let m := m.updSuper k fun sb => { sb with count := sb.count - 1 }
    if (m.supers k).count ≠ 0 then .ok m
    else
      let m := m.updSuper k fun sb => { sb with dev := none }
      let m ← m.iputOpt (m.supers k).imount
      let m ← m.iputOpt (m.supers k).iroot
      (m.supers k).bufs.foldlM (fun m block => m.brelease block) m

/-- `read_super`; it leaves `iroot` and `imount` as they are. -/
def readSuper (c : Content) (m : Mounts) (dev : ℕ) : Except Halt (Fin SUPER_NR × Mounts) :=
  match m.getSuper dev with
  | some k => .ok (k, m.updSuper k fun sb => { sb with count := sb.count + 1 })
  | none =>
    match m.getFreeSuper with
    | none => .error (.panic "no more super blocks!!!")
    | some k => do
      let blocks := (List.range (1 + (c.maps dev).1 + (c.maps dev).2)).map fun b => (dev, b + 1)
      let m := m.updSuper k fun sb => { sb with dev := some dev, count := 1, bufs := blocks }
      assert "sb->desc->magic == MINIX1_MAGIC" (c.minix dev)
      assert "i < IMAP_NR" ((c.maps dev).1 ≤ 8)
      assert "i < ZMAP_NR" ((c.maps dev).2 ≤ 8)
      .ok (k, blocks.foldl bread m)

/-- `mount_root`, with the device of the first partition. -/
def mountRoot (c : Content) (m : Mounts) (dev : ℕ) : Except Halt Mounts := do
  let (k, m) ← m.readSuper c dev
  let m := { m with root := k }
  let (i, m) ← m.iget c dev 1
  let m := m.updSuper k fun sb => { sb with iroot := some i }
  let (i, m) ← m.iget c dev 1
  .ok (m.updSuper k fun sb => { sb with imount := some i })

/-- `sys_mount`; the result is whether it returned 0. -/
def sysMount (c : Content) (m : Mounts) (task : TaskDirs) (devname dirname : Name) : Except Halt (Bool × Mounts) := do
  let (devinode, m) ← m.namei c task devname
  match devinode with
  | none => .ok (false, m)
  | some devinode =>
    if !c.isBlk (m.ino devinode) then do
      let m ← m.iput devinode
      .ok (false, m)
    else
      let dev := c.zone0 (m.ino devinode)
      let (dirinode, m) ← m.namei c task dirname
      match dirinode with
      | none => do
        let m ← m.iput devinode
        .ok (false, m)
      | some dirinode =>
        if !c.isDir (m.ino dirinode) || (m.inodes dirinode).count ≠ 1 || (m.inodes dirinode).mount.isSome then do
          let m ← m.iput devinode
          let m ← m.iput dirinode
          .ok (false, m)
        else do
          let (k, m) ← m.readSuper c dev
          if (m.supers k).imount.isSome then do
            let m ← m.putSuper (some k)
            let m ← m.iput devinode
            let m ← m.iput dirinode
            .ok (false, m)
          else do
            let (iroot, m) ← m.iget c dev 1
            let m := m.updSuper k fun sb => { sb with iroot := some iroot, imount := some dirinode }
            let m := m.updInode dirinode fun n => { n with mount := some dev }
            let m ← m.iput devinode
            .ok (true, m)

/-- `list_size(&sb->inode_list)` -/
def listSize (m : Mounts) (k : Fin SUPER_NR) : ℕ := (List.range INODE_NR).countP fun i => (m.inodes i).node = some k

/-- The device that `sys_umount` finds for the inode of its target. -/
def target (c : Content) (m : Mounts) (i : ℕ) : ℕ :=
  if c.isBlk (m.ino i) then c.zone0 (m.ino i) else (m.ino i).dev

/-- The inode is neither a block device nor the root of a device, or the root of them all. -/
def noTarget (c : Content) (m : Mounts) (i : ℕ) : Bool :=
  (!c.isBlk (m.ino i) && (m.inodes i).nr ≠ 1) || some i = (m.supers m.root).imount

def sysUmount (c : Content) (m : Mounts) (task : TaskDirs) (pathname : Name) : Except Halt (Bool × Mounts) := do
  let (inode, m) ← m.namei c task pathname
  match inode with
  | none => .ok (false, m)
  | some i =>
    if m.noTarget c i then do
      let m ← m.iput i
      .ok (false, m)
    else
      match m.getSuper (m.target c i) with
      | none => .error .nullPointer
      | some k =>
        match (m.supers k).imount with
        | none => do
          let m ← m.putSuper (some k)
          let m ← m.iput i
          .ok (false, m)
        | some imount =>
          if m.listSize k > 1 then do
            let m ← m.putSuper (some k)
            let m ← m.iput i
            .ok (false, m)
          else do
            let m ← m.iputOpt (m.supers k).iroot
            let m := m.updSuper k fun sb => { sb with iroot := none }
            let m := m.updInode imount fun n => { n with mount := none }
            let m ← m.iput imount
            let m := m.updSuper k fun sb => { sb with imount := none }
            let m ← m.putSuper (some k)
            let m ← m.iput i
            .ok (true, m)

/-! ### The references on inodes -/

/-- The count of an inode covers the references to it: from the super blocks by `imount` and
`iroot`, and those that tasks hold. -/
structure Counts (m : Mounts) (imount iroot : Fin SUPER_NR → Option ℕ) (held : List ℕ) : Prop where
  refs : ∀ i, refCount imount i + refCount iroot i + held.count i ≤ (m.inodes i).count
  used : ∀ i, (m.inodes i).dev ≠ none → 0 < (m.inodes i).count
  free : ∀ i, (m.inodes i).dev = none → (m.inodes i).count = 0 ∧ (m.inodes i).node = none

variable {c : Content} {m m' m₁ : Mounts} {imount iroot : Fin SUPER_NR → Option ℕ} {held : List ℕ} {i : ℕ}
  {k : Fin SUPER_NR}

theorem Counts.in_use (h : m.Counts imount iroot held) (hi : 0 < refCount imount i + refCount iroot i + held.count i) :
    (m.inodes i).dev ≠ none := by
  intro hnone
  have := h.refs i
  have := (h.free i hnone).1
  omega

theorem down_pos {count : ℕ} (h : 0 < count) : down count = count - 1 := if_neg (by omega)

@[simp] theorem updInode_self (f : INode → INode) : (m.updInode i f).inodes i = f (m.inodes i) :=
  Function.update_self ..

theorem updInode_ne {j : ℕ} (hj : j ≠ i) (f : INode → INode) : (m.updInode i f).inodes j = m.inodes j :=
  Function.update_of_ne hj ..

@[simp] theorem updInode_updInode (f g : INode → INode) : (m.updInode i f).updInode i g = m.updInode i (g ∘ f) := by
  simp [updInode]

theorem updInode_id (f : INode → INode) (h : f (m.inodes i) = m.inodes i) : m.updInode i f = m := by
  unfold updInode
  rw [h, Function.update_eq_self]

/-- An `iput` that is not the last. -/
theorem iput_more (hc : 1 < (m.inodes i).count) :
    m.iput i = .ok (m.updInode i fun n => { n with count := n.count - 1 }) := by
  have hdown : down (m.inodes i).count = (m.inodes i).count - 1 := down_pos (by omega)
  have heq : (m.updInode i fun n => { n with count := down n.count }) =
      m.updInode i fun n => { n with count := n.count - 1 } := by
    simp only [updInode, hdown]
  unfold iput
  rw [heq]
  dsimp only
  rw [if_pos (by rw [updInode_self]; exact (by omega : (m.inodes i).count - 1 ≠ 0))]

/-- The last `iput`. -/
theorem iput_last (hc : (m.inodes i).count = 1) (h : m.iput i = .ok m') : 0 < m.bufs (m.inodes i).buf ∧
    m' = { m.updInode i fun n => { n with count := 0, node := none, dev := none } with
      bufs := Function.update m.bufs (m.inodes i).buf (m.bufs (m.inodes i).buf - 1) } := by
  have hdown : down (m.inodes i).count = 0 := by rw [hc]; rfl
  unfold iput at h
  dsimp only at h
  rw [if_neg (by rw [updInode_self]; exact not_not_intro hdown)] at h
  obtain ⟨_, -, h⟩ := bind_ok.mp h
  obtain ⟨m₁, hb, h⟩ := bind_ok.mp h
  obtain ⟨_, -, h⟩ := bind_ok.mp h
  unfold brelease at hb
  obtain ⟨_, hpos, hb⟩ := bind_ok.mp hb
  have hpos := assert_ok.mp hpos
  cases hb
  cases h
  simp only [updInode, Function.update_self, Function.update_idem] at hpos ⊢
  refine ⟨by simpa using hpos, ?_⟩
  rw [hdown]

/-- What `iput` keeps. -/
structure Drops (m m' : Mounts) (i : ℕ) : Prop where
  supers : m'.supers = m.supers
  root : m'.root = m.root
  others : ∀ j, j ≠ i → m'.inodes j = m.inodes j
  count : (m'.inodes i).count = (m.inodes i).count - 1
  mount : (m'.inodes i).mount = (m.inodes i).mount
  free : (m'.inodes i).count = 0 → (m'.inodes i).dev = none ∧ (m'.inodes i).node = none
  used : (m'.inodes i).dev = none → (m.inodes i).dev ≠ none → (m'.inodes i).count = 0

theorem iput_drops (hc : 0 < (m.inodes i).count) (h : m.iput i = .ok m') : Drops m m' i := by
  by_cases h1 : (m.inodes i).count = 1
  · obtain ⟨-, rfl⟩ := iput_last h1 h
    refine ⟨rfl, rfl, fun j hj => Function.update_of_ne hj .., ?_, ?_, fun _ => ?_, fun _ _ => ?_⟩ <;>
      simp [updInode, h1]
  · rw [iput_more (by omega)] at h
    cases h
    refine ⟨rfl, rfl, fun j hj => updInode_ne hj _, ?_, ?_, fun h0 => ?_, fun h0 h0' => ?_⟩
    · simp [updInode]
    · simp [updInode]
    · simp only [updInode_self] at h0
      omega
    · simp only [updInode_self] at h0
      exact absurd h0 h0'

theorem Counts.iput (h : m.Counts imount iroot (i :: held)) (hi : m.iput i = .ok m') : m'.Counts imount iroot held := by
  have hrefs := h.refs i
  rw [List.count_cons_self] at hrefs
  have hd := iput_drops (by omega) hi
  have hdev := h.in_use (i := i) (by rw [List.count_cons_self]; omega)
  refine ⟨fun j => ?_, fun j hj => ?_, fun j hj => ?_⟩
  · by_cases he : j = i
    · subst he
      rw [hd.count]
      omega
    · have := h.refs j
      rw [List.count_cons_of_ne (Ne.symm he)] at this
      rwa [hd.others j he]
  · by_cases he : j = i
    · subst he
      by_contra h0
      exact hj (hd.free (by omega)).1
    · rw [hd.others j he] at hj ⊢
      exact h.used j hj
  · by_cases he : j = i
    · subst he
      have h0 := hd.used hj hdev
      exact ⟨h0, (hd.free h0).2⟩
    · rw [hd.others j he] at hj ⊢
      exact h.free j hj

theorem Counts.take (h : m.Counts imount iroot held) (hi : (m.inodes i).dev ≠ none) :
    (m.take i).Counts imount iroot (i :: held) := by
  refine ⟨fun j => ?_, fun j hj => ?_, fun j hj => ?_⟩
  · have := h.refs j
    by_cases he : j = i
    · subst he
      rw [List.count_cons_self, Mounts.take, updInode_self]
      dsimp only
      omega
    · rwa [List.count_cons_of_ne (Ne.symm he), Mounts.take, updInode_ne he]
  · by_cases he : j = i
    · subst he
      rw [Mounts.take, updInode_self]
      exact Nat.succ_pos _
    · rw [Mounts.take, updInode_ne he] at hj ⊢
      exact h.used j hj
  · by_cases he : j = i
    · subst he
      rw [Mounts.take, updInode_self] at hj
      exact absurd hj hi
    · rw [Mounts.take, updInode_ne he] at hj ⊢
      exact h.free j hj

theorem Counts.load (h : m.Counts imount iroot held) (hi : (m.inodes i).dev = none) (dev nr block : ℕ) :
    (m.load i k dev nr block).Counts imount iroot (i :: held) := by
  have hinodes : (m.load i k dev nr block).inodes = Function.update m.inodes i
      { m.inodes i with
        dev := some dev, nr := nr, count := (m.inodes i).count + 1, node := some k, buf := (dev, block) } := rfl
  refine ⟨fun j => ?_, fun j hj => ?_, fun j hj => ?_⟩
  · have := h.refs j
    rw [hinodes]
    by_cases he : j = i
    · subst he
      rw [List.count_cons_self, Function.update_self]
      dsimp only
      omega
    · rwa [List.count_cons_of_ne (Ne.symm he), Function.update_of_ne he]
  · rw [hinodes] at hj ⊢
    by_cases he : j = i
    · subst he
      rw [Function.update_self]
      exact Nat.succ_pos _
    · rw [Function.update_of_ne he] at hj ⊢
      exact h.used j hj
  · rw [hinodes] at hj ⊢
    by_cases he : j = i
    · subst he
      rw [Function.update_self] at hj
      cases hj
    · rw [Function.update_of_ne he] at hj ⊢
      exact h.free j hj

/-- What `iget` does to the state: a reference more on an inode in use, or an inode loaded. -/
def Taken (m : Mounts) (i : ℕ) (m' : Mounts) : Prop :=
  (m.inodes i).dev ≠ none ∧ m' = m.take i ∨
    (m.inodes i).dev = none ∧ ∃ k dev nr block, m' = m.load i k dev nr block

theorem take_iput (hc : 0 < (m.inodes i).count) : (m.take i).iput i = .ok m := by
  have h1 : 1 < ((m.take i).inodes i).count := by
    rw [take, updInode_self]
    exact Nat.succ_lt_succ hc
  rw [iput_more h1, take, updInode_updInode]
  exact congrArg Except.ok (updInode_id _ rfl)

/-- The super blocks, the counts of inodes and buffers, and the mount links are the same. -/
structure Unchanged (m m' : Mounts) : Prop where
  supers : m'.supers = m.supers
  counts : ∀ i, (m'.inodes i).count = (m.inodes i).count
  mounts : ∀ i, (m'.inodes i).mount = (m.inodes i).mount
  bufs : m'.bufs = m.bufs

theorem Taken.undo (ht : m.Taken i m₁) (h : m.Counts imount iroot held) (hi : m₁.iput i = .ok m') : m.Unchanged m' := by
  rcases ht with ⟨hdev, rfl⟩ | ⟨hdev, k, dev, nr, block, rfl⟩
  · rw [take_iput (h.used i hdev)] at hi
    cases hi
    exact ⟨rfl, fun _ => rfl, fun _ => rfl, rfl⟩
  · have h0 := (h.free i hdev).1
    have h1 : ((m.load i k dev nr block).inodes i).count = 1 := by simp [Mounts.load, bread, updInode, h0]
    obtain ⟨-, rfl⟩ := iput_last h1 hi
    have hbuf : ((m.load i k dev nr block).inodes i).buf = (dev, block) := by simp [Mounts.load, bread, updInode]
    refine ⟨rfl, fun j => ?_, fun j => ?_, ?_⟩
    · by_cases he : j = i
      · subst he
        simp [Mounts.load, updInode, bread, h0]
      · simp [Mounts.load, updInode, bread, he]
    · by_cases he : j = i
      · subst he
        simp [Mounts.load, updInode, bread]
      · simp [Mounts.load, updInode, bread, he]
    · rw [hbuf]
      simp [Mounts.load, bread, updInode]

theorem Taken.counts (ht : m.Taken i m₁) (h : m.Counts imount iroot held) : m₁.Counts imount iroot (i :: held) := by
  rcases ht with ⟨hdev, rfl⟩ | ⟨hdev, k, dev, nr, block, rfl⟩
  · exact h.take hdev
  · exact h.load hdev dev nr block

theorem Taken.supers (ht : m.Taken i m₁) : m₁.supers = m.supers ∧ m₁.root = m.root := by
  rcases ht with ⟨-, rfl⟩ | ⟨-, k, dev, nr, block, rfl⟩
  · exact ⟨rfl, rfl⟩
  · exact ⟨rfl, rfl⟩

theorem findInode_node {nr : ℕ} (h : m.findInode k nr = some i) : (m.inodes i).node = some k := by
  have := List.find?_some h
  exact (of_decide_eq_true this).1

theorem getFreeInode_dev (h : m.getFreeInode = some i) : (m.inodes i).dev = none := by
  have := List.find?_some h
  simpa using this

theorem iget_taken (h : m.Counts imount iroot held) (hroot : ∀ k r, (m.supers k).iroot = some r → iroot k = some r)
    {dev nr : ℕ} (hi : m.iget c dev nr = .ok (i, m')) : m.Taken i m' := by
  unfold iget at hi
  split at hi
  · cases hi
  · rename_i k _
    split at hi
    · rename_i j hj
      have hdev : (m.inodes j).dev ≠ none := fun hnone => by
        have hnode := (h.free j hnone).2
        rw [findInode_node hj] at hnode
        cases hnode
      unfold fitInode at hi
      split at hi
      · cases hi
        exact .inl ⟨hdev, rfl⟩
      · split at hi
        · cases hi
        · rename_i k' _
          rw [take_iput (h.used j hdev), ok_bind] at hi
          split at hi
          · cases hi
          · rename_i r hr
            cases hi
            refine .inl ⟨h.in_use ?_, rfl⟩
            have := refCount_pos (hroot k' i hr)
            omega
    · split at hi
      · cases hi
      · rename_i j hj
        obtain ⟨_, -, hi⟩ := bind_ok.mp hi
        cases hi
        exact .inr ⟨getFreeInode_dev hj, _, _, _, _, rfl⟩

/-! ### The super table -/

def imounts (m : Mounts) (k : Fin SUPER_NR) : Option ℕ := (m.supers k).imount
def iroots (m : Mounts) (k : Fin SUPER_NR) : Option ℕ := (m.supers k).iroot

/-- What holds of the super table and the inodes between two calls, with the references that tasks hold. -/
structure Inv (m : Mounts) (held : List ℕ) : Prop where
  counts : m.Counts m.imounts m.iroots held
  live : ∀ k, (m.supers k).dev ≠ none → 0 < (m.supers k).count
  dead : ∀ k, (m.supers k).dev = none → (m.supers k).imount = none ∧ (m.supers k).iroot = none

/-- The super table is not touched. -/
theorem Inv.of_supers (h : m.Inv held) {held' : List ℕ} (hs : m'.supers = m.supers)
    (hc : m'.Counts m.imounts m.iroots held') : m'.Inv held' := by
  have himount : m'.imounts = m.imounts := by
    funext k
    unfold imounts
    rw [hs]
  have hiroot : m'.iroots = m.iroots := by
    funext k
    unfold iroots
    rw [hs]
  refine ⟨by rw [himount, hiroot]; exact hc, ?_, ?_⟩
  · rw [hs]
    exact h.live
  · rw [hs]
    exact h.dead

theorem Inv.iput (h : m.Inv (i :: held)) (hi : m.iput i = .ok m') : m'.Inv held := by
  have hc := h.counts.iput hi
  have hpos : 0 < (m.inodes i).count := by
    have := h.counts.refs i
    rw [List.count_cons_self] at this
    omega
  exact h.of_supers (iput_drops hpos hi).supers hc

theorem Inv.iget (h : m.Inv held) {dev nr : ℕ} (hi : m.iget c dev nr = .ok (i, m')) :
    m.Taken i m' ∧ m'.Inv (i :: held) := by
  have ht := iget_taken h.counts (fun _ _ hr => hr) hi
  exact ⟨ht, h.of_supers ht.supers.1 (ht.counts h.counts)⟩

/-- A lookup changes nothing but for the reference it returns. -/
theorem Inv.namei (h : m.Inv held) {task : TaskDirs} {pathname : Name} {r : Option ℕ}
    (hn : m.namei c task pathname = .ok (r, m')) :
    r = none ∧ m' = m ∨ ∃ i, r = some i ∧ m.Taken i m' ∧ m'.Inv (i :: held) := by
  unfold Mounts.namei at hn
  obtain ⟨r, -, hn⟩ := bind_ok.mp hn
  cases r with
  | none =>
    cases hn
    exact .inl ⟨rfl, rfl⟩
  | some r =>
    obtain ⟨dir, name⟩ := r
    dsimp only at hn
    split_ifs at hn
    · cases hn
      exact .inl ⟨rfl, rfl⟩
    · obtain ⟨r, -, hn⟩ := bind_ok.mp hn
      cases r with
      | none =>
        cases hn
        exact .inl ⟨rfl, rfl⟩
      | some r =>
        obtain ⟨dir', nr, _⟩ := r
        obtain ⟨⟨i, m₁⟩, hi, hn⟩ := bind_ok.mp hn
        cases hn
        exact .inr ⟨i, rfl, h.iget hi⟩

theorem iput_supers (h : m.iput i = .ok m') : m'.supers = m.supers := by
  unfold Mounts.iput at h
  dsimp only at h
  split_ifs at h
  · cases h
    rfl
  · obtain ⟨_, -, h⟩ := bind_ok.mp h
    obtain ⟨m₁, hb, h⟩ := bind_ok.mp h
    obtain ⟨_, -, h⟩ := bind_ok.mp h
    obtain ⟨_, -, hb⟩ := bind_ok.mp hb
    cases hb
    cases h
    rfl

theorem iputOpt_supers {r : Option ℕ} (h : m.iputOpt r = .ok m') : m'.supers = m.supers := by
  cases r with
  | none =>
    cases h
    rfl
  | some i => exact iput_supers h

theorem brelease_all {blocks : List (ℕ × ℕ)} (h : blocks.foldlM (fun m block => brelease m block) m = .ok m') :
    m'.supers = m.supers ∧ m'.inodes = m.inodes := by
  induction blocks generalizing m with
  | nil =>
    cases h
    exact ⟨rfl, rfl⟩
  | cons block blocks ih =>
    obtain ⟨m₁, hb, h⟩ := bind_ok.mp h
    obtain ⟨_, -, hb⟩ := bind_ok.mp hb
    cases hb
    obtain ⟨hsupers, hinodes⟩ := ih h
    exact ⟨hsupers, hinodes⟩

@[simp] theorem updSuper_self (f : SuperBlock → SuperBlock) : (m.updSuper k f).supers k = f (m.supers k) :=
  Function.update_self ..

theorem updSuper_ne {k' : Fin SUPER_NR} (hk : k' ≠ k) (f : SuperBlock → SuperBlock) :
    (m.updSuper k f).supers k' = m.supers k' := Function.update_of_ne hk ..

/-- `put_super` takes one from the count of the super block. -/
theorem putSuper_count (h : m.putSuper (some k) = .ok m') : (m'.supers k).count < (m.supers k).count := by
  unfold Mounts.putSuper at h
  obtain ⟨_, hpos, h⟩ := bind_ok.mp h
  have hpos : 0 < (m.supers k).count := of_decide_eq_true (assert_ok.mp hpos)
  dsimp only at h
  split_ifs at h
  · cases h
    rw [updSuper_self]
    exact Nat.sub_lt hpos Nat.one_pos
  · obtain ⟨m₁, h₁, h⟩ := bind_ok.mp h
    obtain ⟨m₂, h₂, h⟩ := bind_ok.mp h
    rw [(brelease_all h).1, iputOpt_supers h₂, iputOpt_supers h₁, updSuper_self, updSuper_self]
    exact Nat.sub_lt hpos Nat.one_pos

/-! ### sys_umount -/

/-- The refusals of `sys_umount` that come after `get_super`: the super block is not mounted, or
more of its inodes are in use than the root. -/
def Late (c : Content) (m : Mounts) (task : TaskDirs) (pathname : Name) : Prop :=
  ∃ i m₁ k, m.namei c task pathname = .ok (some i, m₁) ∧ m₁.noTarget c i = false ∧
    m₁.getSuper (m₁.target c i) = some k ∧ ((m₁.supers k).imount = none ∨ 1 < m₁.listSize k)

/-- A refused `sys_umount` changes nothing exactly when it is refused before `get_super`. -/
theorem Inv.refused (h : m.Inv held) {task : TaskDirs} {pathname : Name}
    (hu : m.sysUmount c task pathname = .ok (false, m')) : m.Unchanged m' ↔ ¬ m.Late c task pathname := by
  unfold sysUmount at hu
  rw [bind_ok] at hu
  obtain ⟨⟨r, m₁⟩, hn, hu⟩ := hu
  rcases h.namei hn with ⟨rfl, hm⟩ | ⟨i, rfl, ht, hinv⟩
  · rw [hm] at hu hn
    cases hu
    refine ⟨fun _ => ?_, fun _ => ⟨rfl, fun _ => rfl, fun _ => rfl, rfl⟩⟩
    rintro ⟨i, m₂, k, hn', -⟩
    rw [hn] at hn'
    cases hn'
  · dsimp only at hu
    split_ifs at hu with htarget
    · obtain ⟨m₂, hi, hu⟩ := bind_ok.mp hu
      cases hu
      refine ⟨fun _ => ?_, fun _ => ht.undo h.counts hi⟩
      rintro ⟨i', m₂, k, hn', hno, -⟩
      rw [hn] at hn'
      cases hn'
      rw [htarget] at hno
      cases hno
    · have htarget : m₁.noTarget c i = false := by simpa using htarget
      -- `put_super` gives back a reference that `get_super` has not taken
      have hlate : ∀ k m₂ m₃, m₁.putSuper (some k) = .ok m₂ → m₂.iput i = .ok m₃ → ¬ m.Unchanged m₃ := by
        intro k m₂ m₃ hput hi hun
        have hlt := putSuper_count hput
        rw [← iput_supers hi, hun.supers, ht.supers.1] at hlt
        exact lt_irrefl _ hlt
      split at hu
      · cases hu
      · rename_i k hk
        split at hu
        · rename_i himount
          obtain ⟨m₂, hput, hu⟩ := bind_ok.mp hu
          obtain ⟨m₃, hi, hu⟩ := bind_ok.mp hu
          cases hu
          exact iff_of_false (hlate k m₂ _ hput hi) (not_not_intro ⟨i, m₁, k, hn, htarget, hk, .inl himount⟩)
        · split_ifs at hu with hsize
          · obtain ⟨m₂, hput, hu⟩ := bind_ok.mp hu
            obtain ⟨m₃, hi, hu⟩ := bind_ok.mp hu
            cases hu
            exact iff_of_false (hlate k m₂ _ hput hi) (not_not_intro ⟨i, m₁, k, hn, htarget, hk, .inr hsize⟩)
          · obtain ⟨_, -, hu⟩ := bind_ok.mp hu
            obtain ⟨_, -, hu⟩ := bind_ok.mp hu
            obtain ⟨_, -, hu⟩ := bind_ok.mp hu
            obtain ⟨_, -, hu⟩ := bind_ok.mp hu
            cases hu

end Mounts
end Onix
