import Onix.Fs.Files
import Onix.Fs.Path

/-! The calls of namei.c that change directories, and `sys_open` of file.c, over the walk
of `named`. The zones of the files are left open: what `bmap` does with them
is a parameter, and nothing here depends on it. -/

set_option autoImplicit false

namespace Onix

open Lib

def IFMT : UInt16 := 0o170000
def IFREG : UInt16 := 0o100000
def IFBLK : UInt16 := 0o060000
def IFDIR : UInt16 := 0o040000
def IFCHR : UInt16 := 0o020000
def ISVTX : UInt16 := 0o1000

def isDirMode (mode : UInt16) : Bool := mode &&& IFMT == IFDIR

def P_EXEC : UInt16 := 1
def P_WRITE : UInt16 := 2
def P_READ : UInt16 := 4

def KERNEL_USER : UInt32 := 0
def IMAP_NR : ℕ := 8
def BLOCK_BITS : ℕ := 8192
def BLOCK_DENTRIES : ℕ := 64
def NAME_LEN : ℕ := 14

/-- `EOF` in the 16 bits of `dentry_t`. -/
def EOF_NR : ℕ := 65535

/-- `inode_desc_t` without its times and zones. The size of a directory is that of its entries. -/
structure InodeDesc where
  mode : UInt16
  uid : UInt16
  size : UInt32
  gid : UInt8
  nlinks : UInt8
  deriving DecidableEq

/-- What the calls read of the running task. -/
structure Caller where
  uid : UInt32
  gid : UInt32
  umask : UInt16
  dirs : TaskDirs

/-- The zones of the files of all devices. -/
class Zones (Z : Type) where
  /-- `bmap(inode, block, create)` -/
  bmap : Z → Ino → ℕ → Bool → Except Halt (ℕ × Z)
  /-- `desc->zone[0]` -/
  zone0 : Z → Ino → UInt16
  setZone0 : Z → Ino → UInt16 → Z
  /-- The number that `is_empty` finds behind the buffer of a block of a directory. -/
  past : Z → Ino → ℕ → ℕ

/-- The mounted file systems. -/
structure Vol (Z : Type) where
  desc : Ino → InodeDesc
  /-- The `dentry_t`s of a directory; number 0 marks a free one. -/
  entries : Ino → List (Name × ℕ)
  /-- The inode bitmap of each device, and the number of its blocks. -/
  imap : ℕ → ℕ → Bool
  imapBlocks : ℕ → ℕ
  mount : Ino → Option ℕ
  imount : ℕ → Option Ino
  /-- No device is mounted on the root of one: its super block holds that inode, and `sys_mount` refuses one in use. -/
  imount_nr : ∀ dev inode, imount dev = some inode → inode.nr ≠ 1
  /-- The references to each inode that other calls, open files, tasks and mounts hold. -/
  count : Ino → ℕ
  zones : Z

namespace Vol

variable {Z : Type}

/-- The class of the mode bits that is valid for the task. -/
def classBits (t : Caller) (desc : InodeDesc) : UInt16 :=
  if t.uid = desc.uid.toUInt32 then desc.mode >>> 6
  else if t.gid = desc.gid.toUInt32 then desc.mode >>> 3
  else desc.mode

/-- `permission` on the descriptor of an inode. -/
def allows (t : Caller) (desc : InodeDesc) (mask : UInt16) : Bool :=
  if desc.nlinks = 0 then false
  else if t.uid = KERNEL_USER then true
  else classBits t desc &&& mask &&& 7 == mask

def permission (s : Vol Z) (t : Caller) (inode : Ino) (mask : UInt16) : Bool := allows t (s.desc inode) mask

/-- What the walk reads. -/
def disk (s : Vol Z) (t : Caller) : Disk where
  isDir inode := isDirMode (s.desc inode).mode
  exec inode := s.permission t inode P_EXEC
  entries := s.entries
  mount := s.mount
  imount := s.imount

def setDesc (s : Vol Z) (inode : Ino) (desc : InodeDesc) : Vol Z := { s with desc := Function.update s.desc inode desc }

/-- `iget`, as `Disk.iget` has it. -/
def iget (s : Vol Z) (dev nr : ℕ) : Ino :=
  match s.mount ⟨dev, nr⟩ with
  | none => ⟨dev, nr⟩
  | some mounted => ⟨mounted, 1⟩

/-- The entry that `find_entry` returns a pointer to. -/
def entryIndex (s : Vol Z) (dir : Ino) (name : Name) : ℕ :=
  (s.entries dir).findIdx fun e => (matchName name e.1).isSome && e.2 != 0

/-- `entry->nr = nr` -/
def setNr (s : Vol Z) (dir : Ino) (i nr : ℕ) : Vol Z :=
  { s with entries := Function.update s.entries dir ((s.entries dir).modify i fun e => (e.1, nr)) }

/-- The first free bit of `n` bits from `b` on. -/
def scanMap (bits : ℕ → Bool) : ℕ → ℕ → Option ℕ
  | 0, _ => none
  | n + 1, b => if bits b then scanMap bits n (b + 1) else some b

/-- The loop of `ialloc` over `n` bitmap blocks from the `i`-th on. -/
def iallocFrom (s : Vol Z) (dev : ℕ) : ℕ → ℕ → Except Halt (Option ℕ)
  | 0, _ => .ok none
  | n + 1, i => do
    assert "buf" (i < s.imapBlocks dev)
    match scanMap (s.imap dev) BLOCK_BITS (i * BLOCK_BITS) with
    | some b => .ok (some b)
    | none => s.iallocFrom dev n (i + 1)

def setImap (s : Vol Z) (dev nr : ℕ) (bit : Bool) : Vol Z :=
  { s with imap := Function.update s.imap dev (Function.update (s.imap dev) nr bit) }

def ialloc (s : Vol Z) (dev : ℕ) : Except Halt (ℕ × Vol Z) := do
  match ← s.iallocFrom dev IMAP_NR 0 with
  | some b => .ok (b, s.setImap dev b true)
  | none => .ok (EOF_NR, s)

def ifree (s : Vol Z) (dev nr : ℕ) : Except Halt (Vol Z) :=
  if nr < IMAP_NR * BLOCK_BITS then do
    assert "buf" (nr / BLOCK_BITS < s.imapBlocks dev)
    assert "bitmap_test(&map, idx)" (s.imap dev nr)
    .ok (s.setImap dev nr false)
  else .ok s

/-- `new_inode`; without a size a directory has no entries. -/
def newInode (s : Vol Z) (t : Caller) (dev nr : ℕ) : Ino × Vol Z :=
  let inode := s.iget dev nr
  let desc := ⟨0o777 &&& ~~~t.umask, t.uid.toUInt16, 0, t.gid.toUInt8, 1⟩
  (inode, { s.setDesc inode desc with entries := Function.update s.entries inode [] })

def setMode (s : Vol Z) (inode : Ino) (mode : UInt16) : Vol Z := s.setDesc inode { s.desc inode with mode := mode }

def setNlinks (s : Vol Z) (inode : Ino) (nlinks : UInt8) :
    Vol Z := s.setDesc inode { s.desc inode with nlinks := nlinks }

variable [Zones Z]

/-- The blocks that `add_entry` goes through, creating the last if it must. -/
def eachBlock (dir : Ino) : ℕ → ℕ → Z → Except Halt Z
  | 0, _, zones => .ok zones
  | n + 1, i, zones => do
    let (block, zones) ← Zones.bmap zones dir i true
    assert "block" (block != 0)
    eachBlock dir n (i + 1) zones

/-- `add_entry`: the directory and the index of the entry. It looks for the name once more. -/
def addEntry (s : Vol Z) (t : Caller) (dir : Ino) (name : Name) : Except Halt (Ino × ℕ × Vol Z) := do
  match ← (s.disk t).findEntry dir name with
  | some (dir, _, _) => .ok (dir, s.entryIndex dir name, s)
  | none =>
    let dir ← (s.disk t).searched dir name
    assert "!IS_SEPARATOR(name[i])" (name.all fun c => !isSeparator c)
    let len := (s.entries dir).length
    let zones ← eachBlock dir (len / BLOCK_DENTRIES + 1) 0 s.zones
    .ok (dir, len, { s with
      entries := Function.update s.entries dir (s.entries dir ++ [(name.take (NAME_LEN - 1), 0)]), zones := zones })

/-- The entry and the inode of a new name, as `sys_mkdir`, `sys_mknod` and `inode_open` make them. -/
def create (s : Vol Z) (t : Caller) (dir : Ino) (name : Name) : Except Halt (Ino × Vol Z) := do
  let (at_, i, s) ← s.addEntry t dir name
  let (nr, s) ← s.ialloc dir.dev
  .ok ((s.setNr at_ i nr).newInode t dir.dev nr)

/-- The directory and the name that a call is about, if `named` finds them and there is a name. -/
def target (s : Vol Z) (t : Caller) (pathname : Name) : Except Halt (Option (Ino × Name)) := do
  match ← (s.disk t).named t.dirs pathname with
  | none => .ok none
  | some (dir, name) => .ok (if name.isEmpty then none else some (dir, name))

/-- The checks of `sys_mkdir`, `sys_mknod` and `sys_link` before they add an entry; the directory is the one that
`find_entry` ends in. -/
def forNew (s : Vol Z) (t : Caller) (pathname : Name) (add : Ino → Name → Except Halt (Bool × Vol Z)) :
    Except Halt (Bool × Vol Z) := do
  match ← s.target t pathname with
  | none => .ok (false, s)
  | some (dir, name) =>
    if !s.permission t dir P_WRITE then .ok (false, s)
    else match ← (s.disk t).findEntry dir name with
    | some _ => .ok (false, s)
    | none =>
      let dir ← (s.disk t).searched dir name
      add dir name

/-- `sys_mkdir`; the result is whether it returned 0. -/
def sysMkdir (s : Vol Z) (t : Caller) (pathname : Name) (mode : UInt16) : Except Halt (Bool × Vol Z) :=
  s.forNew t pathname fun dir name => do
    let (inode, s) ← s.create t dir name
    let s := s.setDesc inode { s.desc inode with mode := mode &&& 0o777 &&& ~~~t.umask ||| IFDIR, nlinks := 2 }
    let (_, zones) ← Zones.bmap s.zones inode 0 true
    let s := { s with zones := zones, entries := Function.update s.entries inode [(DOT, inode.nr), (DOTDOT, dir.nr)] }
    .ok (true, s.setNlinks dir ((s.desc dir).nlinks + 1))

/-- The number that the loop of `is_empty` reads in round `i`: after the 64 entries of a block it reads one more
before it goes on to the block of the round it has come to. -/
def emptyRead (s : Vol Z) (inode : Ino) (i : ℕ) : ℕ :=
  let block := i / 65 * 65 / BLOCK_DENTRIES
  if i % 65 = BLOCK_DENTRIES then Zones.past s.zones inode block
  else ((s.entries inode)[block * BLOCK_DENTRIES + i % 65]?.map Prod.snd).getD 0

/-- The loop of `is_empty`, from round `i` on. -/
def emptyFrom (s : Vol Z) (inode : Ino) : ℕ → ℕ → ℕ → Except Halt ℕ
  | 0, _, count => .ok count
  | n + 1, i, count => do
    if i % 65 = 0 then
      let (block, _) ← Zones.bmap s.zones inode (i / BLOCK_DENTRIES) false
      assert "block" (block != 0)
    s.emptyFrom inode n (i + 1) (if s.emptyRead inode i ≠ 0 then count + 1 else count)

def isEmpty (s : Vol Z) (inode : Ino) : Except Halt Bool := do
  assert "ISDIR(inode->desc->mode)" (isDirMode (s.desc inode).mode)
  let entries := (s.entries inode).length
  if entries < 2 || Zones.zone0 s.zones inode == 0 then .ok false
  else
    let count ← s.emptyFrom inode entries 0 0
    .ok (count == 2)

/-- The references that `sys_rmdir` itself holds on the inode, which may be that of the directory. -/
def ownRefs (inode dir : Ino) : ℕ := if inode = dir then 2 else 1

/-- `sys_rmdir`; `inode_truncate` does nothing, since no inode is a file and a directory. -/
def sysRmdir (s : Vol Z) (t : Caller) (pathname : Name) : Except Halt (Bool × Vol Z) := do
  match ← s.target t pathname with
  | none => .ok (false, s)
  | some (dir, name) =>
    if !s.permission t dir P_WRITE then .ok (false, s)
    else match ← (s.disk t).findEntry dir name with
    | none => .ok (false, s)
    | some (dir, nr, _) =>
      let inode := s.iget dir.dev nr
      let s := s.setNr dir (s.entryIndex dir name) 0
      if !isDirMode (s.desc inode).mode ||
          (s.desc dir).mode &&& ISVTX != 0 && t.uid != (s.desc inode).uid.toUInt32 then .ok (false, s)
      else
        let empty ← s.isEmpty inode
        if !empty || 1 < s.count inode + ownRefs inode dir then .ok (false, s)
        else do
          assert "inode->desc->nlinks == 2" ((s.desc inode).nlinks == 2)
          let s ← s.ifree inode.dev inode.nr
          .ok (true, s.setNlinks dir ((s.desc dir).nlinks - 1))

def sysLink (s : Vol Z) (t : Caller) (oldname newname : Name) : Except Halt (Bool × Vol Z) := do
  match ← (s.disk t).namei t.dirs oldname with
  | none => .ok (false, s)
  | some inode =>
    if isDirMode (s.desc inode).mode then .ok (false, s)
    else s.forNew t newname fun dir name => do
      let (at_, i, s) ← s.addEntry t dir name
      let s := s.setNr at_ i inode.nr
      .ok (true, s.setNlinks inode ((s.desc inode).nlinks + 1))

def sysUnlink (s : Vol Z) (t : Caller) (filename : Name) : Except Halt (Bool × Vol Z) := do
  match ← s.target t filename with
  | none => .ok (false, s)
  | some (dir, name) =>
    match ← (s.disk t).findEntry dir name with
    | none => .ok (false, s)
    | some (dir, nr, _) =>
      let inode := s.iget dir.dev nr
      if isDirMode (s.desc inode).mode then .ok (false, s)
      else if (s.desc inode).mode &&& ISVTX != 0 && t.uid != (s.desc inode).uid.toUInt32 then .ok (false, s)
      else
        let s := s.setNr dir (s.entryIndex dir name) 0
        let s := s.setNlinks inode ((s.desc inode).nlinks - 1)
        if (s.desc inode).nlinks = 0 then do
          let s ← s.ifree inode.dev inode.nr
          .ok (true, s)
        else .ok (true, s)

def sysMknod (s : Vol Z) (t : Caller) (filename : Name) (mode dev : UInt16) : Except Halt (Bool × Vol Z) :=
  s.forNew t filename fun dir name => do
    let (inode, s) ← s.create t dir name
    let s := s.setMode inode mode
    if mode &&& IFMT == IFBLK || mode &&& IFMT == IFCHR then
      .ok (true, { s with zones := Zones.setZone0 s.zones inode dev })
    else .ok (true, s)

/-! ### Opening -/

def O_RDWR : UInt32 := 2
def O_CREAT : UInt32 := 0o100
def O_TRUNC : UInt32 := 0o1000
def O_APPEND : UInt32 := 0o2000

/-- `ACC_MODE`, a table indexed by the access mode. -/
def ACC_MODE (x : UInt32) : UInt16 := ([0o4, 0o2, 0o6, 0o377] : List UInt16).getD (x &&& O_ACCMODE).toNat 0

/-- The flags of `inode_open` once it knows that there is a name: a read-only request to truncate becomes one to
write. -/
def upgrade (flag : UInt32) : UInt32 :=
  if flag &&& O_TRUNC ≠ 0 ∧ flag &&& O_ACCMODE = O_RDONLY then flag ||| O_RDWR else flag

/-- The `flag && O_ACCMODE` that `inode_open` passes to `ACC_MODE`. -/
def flagBool (flag : UInt32) : UInt32 := if flag ≠ 0 ∧ O_ACCMODE ≠ 0 then 1 else 0

/-- `makeup` in `inode_open`. -/
def makeup (s : Vol Z) (t : Caller) (inode : Ino) (flag : UInt32) : Option Ino :=
  if !s.permission t inode (ACC_MODE (flagBool flag)) then none
  else if isDirMode (s.desc inode).mode && flag &&& O_ACCMODE != O_RDONLY then none
  else some inode

def inodeOpen (s : Vol Z) (t : Caller) (pathname : Name) (flag : UInt32) (mode : UInt16) :
    Except Halt (Option Ino × Vol Z) := do
  match ← (s.disk t).named t.dirs pathname with
  | none => .ok (none, s)
  | some (dir, name) =>
    if name.isEmpty then .ok (some dir, s)
    else
      let flag := upgrade flag
      match ← (s.disk t).findEntry dir name with
      | some (dir, nr, _) => .ok (s.makeup t (s.iget dir.dev nr) flag, s)
      | none =>
        let dir ← (s.disk t).searched dir name
        if flag &&& O_CREAT = 0 || !s.permission t dir P_WRITE then .ok (none, s)
        else
          let (inode, s) ← s.create t dir name
          let s := s.setMode inode (mode &&& (0o777 &&& ~~~t.umask) ||| IFREG)
          .ok (s.makeup t inode flag, s)

/-- `desc->size` -/
def size (s : Vol Z) (inode : Ino) : UInt32 :=
  if isDirMode (s.desc inode).mode then UInt32.ofNat (16 * (s.entries inode).length) else (s.desc inode).size

/-- A `file_t`, as `sys_open` fills it in. -/
structure OpenFile where
  inode : Ino
  flags : UInt32
  mode : UInt16
  offset : UInt32

/-- `sys_open`; the descriptor and the entry of `file_table` are taken to be there. -/
def sysOpen (s : Vol Z) (t : Caller) (filename : Name) (flags : UInt32) (mode : UInt16) :
    Except Halt (Option OpenFile × Vol Z) := do
  match ← s.inodeOpen t filename flags mode with
  | (none, s) => .ok (none, s)
  | (some inode, s) =>
    .ok (some ⟨inode, flags, (s.desc inode).mode, if flags &&& O_APPEND ≠ 0 then s.size inode else 0⟩, s)

def sysCreat (s : Vol Z) (t : Caller) (filename : Name) (mode : UInt16) : Except Halt (Option OpenFile × Vol Z) :=
  s.sysOpen t filename (O_CREAT ||| O_TRUNC) mode

/-- `sys_read` returns `EOF` at once. -/
def OpenFile.readRefused (file : OpenFile) : Bool := file.flags &&& O_ACCMODE == O_WRONLY

/-- `sys_write` returns `EOF` at once. -/
def OpenFile.writeRefused (file : OpenFile) : Bool := file.flags &&& O_ACCMODE == O_RDONLY

/-! ### What the pieces do -/

section

variable {s s' s₁ : Vol Z} {t : Caller} {dir dir' inode : Ino} {name pathname : Name}

omit [Zones Z] in
theorem findEntry_eq (h : (s.disk t).searched dir name = .ok dir') {r : Option (Ino × ℕ × Name)}
    (hr : (s.disk t).findEntry dir name = .ok r) :
    r = (s.entries dir').findSome? fun entry =>
      if entry.2 = 0 then none else (matchName name entry.1).map fun next => (dir', entry.2, next) := by
  obtain ⟨_, -, hr⟩ := bind_ok.mp hr
  rw [h] at hr
  cases hr
  rfl

omit [Zones Z] in
theorem findEntry_searched {r : Option (Ino × ℕ × Name)} (h : (s.disk t).findEntry dir name = .ok r) :
    ∃ dir', (s.disk t).searched dir name = .ok dir' := by
  obtain ⟨_, -, h⟩ := bind_ok.mp h
  obtain ⟨dir', h', -⟩ := bind_ok.mp h
  exact ⟨dir', h'⟩

/-- The number of the inode that `ialloc` hands out, or `EOF`. -/
def allocNr (s : Vol Z) (dev : ℕ) : Except Halt ℕ := do
  match ← s.iallocFrom dev IMAP_NR 0 with
  | some b => .ok b
  | none => .ok EOF_NR

/-- The descriptor of a new inode. -/
def newDesc (t : Caller) : InodeDesc := ⟨0o777 &&& ~~~t.umask, t.uid.toUInt16, 0, t.gid.toUInt8, 1⟩

/-- What `create` does: it appends an entry with the number of a new inode. -/
structure Created (s : Vol Z) (t : Caller) (dir' : Ino) (name : Name) (inode : Ino) (s' : Vol Z) : Prop where
  dir : isDirMode (s.desc dir').mode = true
  entry : ∃ nr, s.allocNr dir'.dev = .ok nr ∧ inode = s.iget dir'.dev nr ∧
    s'.entries = Function.update (Function.update s.entries dir'
      (s.entries dir' ++ [(name.take (NAME_LEN - 1), nr)])) inode []
  desc : s'.desc = Function.update s.desc inode (newDesc t)
  mount : s'.mount = s.mount
  imount : s'.imount = s.imount

end

/-! ### A small disk -/

/-- Files without index blocks, whose zones are handed out in order. -/
structure DirectZones where
  zone : Ino → ℕ → ℕ
  next : ℕ

instance : Zones DirectZones where
  bmap z inode block create :=
    if z.zone inode block ≠ 0 then .ok (z.zone inode block, z)
    else if create then
      .ok (z.next, ⟨Function.update z.zone inode (Function.update (z.zone inode) block z.next), z.next + 1⟩)
    else .ok (0, z)
  zone0 z inode := UInt16.ofNat (z.zone inode 0)
  setZone0 z inode dev := { z with zone := Function.update z.zone inode (Function.update (z.zone inode) 0 dev.toNat) }
  past _ _ _ := 0

/-- Device 1 with the files `/f`, which others may only write, and `/d/g` in a directory of the kernel, and with
device 2 mounted on `/m`. -/
def smallVol : Vol DirectZones where
  desc inode :=
    match inode.dev, inode.nr with
    | 1, 1 => ⟨IFDIR ||| 0o777, 0, 0, 0, 4⟩
    | 1, 2 => ⟨IFREG ||| 0o602, 0, 0, 0, 1⟩
    | 1, 3 => ⟨IFDIR ||| 0o755, 0, 0, 0, 2⟩
    | 1, 4 => ⟨IFREG ||| 0o644, 0, 0, 0, 1⟩
    | 1, 5 => ⟨IFDIR ||| 0o755, 0, 0, 0, 2⟩
    | 2, 1 => ⟨IFDIR ||| 0o777, 0, 0, 0, 2⟩
    | _, _ => ⟨0, 0, 0, 0, 0⟩
  entries inode :=
    match inode.dev, inode.nr with
    | 1, 1 => [(DOT, 1), (DOTDOT, 1), (['f'], 2), (['d'], 3), (['m'], 5)]
    | 1, 3 => [(DOT, 3), (DOTDOT, 1), (['g'], 4)]
    | 1, 5 => [(DOT, 5), (DOTDOT, 1)]
    | 2, 1 => [(DOT, 1), (DOTDOT, 1)]
    | _, _ => []
  imap dev nr := if dev = 1 then nr ≤ 5 else nr ≤ 1
  imapBlocks _ := 1
  mount inode := if inode = ⟨1, 5⟩ then some 2 else none
  imount dev := if dev = 2 then some ⟨1, 5⟩ else none
  imount_nr dev inode h := by
    split_ifs at h
    cases h
    decide
  count _ := 0
  zones := ⟨fun inode block => if block = 0 then 100 * inode.dev + inode.nr else 0, 300⟩

/-- A user at the root. -/
def guest : Caller := ⟨1000, 1000, 0o022, ⟨⟨1, 1⟩, ⟨1, 1⟩, ['/']⟩⟩

end Vol

end Onix
