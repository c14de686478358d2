import Onix.Fs.Offsets
import Onix.Kernel.Console
import Onix.Kernel.KernelPages
import Onix.Lib.Bytes

/-! `sys_read` and `sys_write` over what a descriptor can stand for. Pipes, character devices and files count in bytes.
A block device is given blocks of 1024 bytes for its sectors of 512, what it returns is a number of sectors or 0, and
its offset stays. -/

set_option autoImplicit false

namespace Onix

open Lib

def SECTOR_SIZE : ℕ := 512

inductive DiskKind
  /-- Where the disk starts in the memory of the kernel. -/
  | ramdisk (start : ℕ)
  /-- A disk or a partition behind `ide_pio_read` and `ide_pio_write`. -/
  | ide

structure BlockDisk where
  kind : DiskKind
  content : ByteMem

namespace BlockDisk

/-- The assertion of the driver on the sectors it is to move. -/
def check (d : BlockDisk) (count lba : ℕ) : Except Halt Unit :=
  match d.kind with
  | .ramdisk start => assert "((uint32)addr + len) < (KERNEL_RAMDISK_MEM + KERNEL_RAMDISK_SIZE)"
      (start + lba * SECTOR_SIZE + count * SECTOR_SIZE < KERNEL_RAMDISK_MEM + KERNEL_RAMDISK_SIZE)
  | .ide => assert "count > 0" (0 < count)

/-- What the driver returns. -/
def ret (d : BlockDisk) (count : ℕ) : Int32 :=
  match d.kind with
  | .ramdisk _ => .ofNat count
  | .ide => 0

end BlockDisk

inductive CharDevice
  | console (screen : Console)
  | keyboard
  | serial

/-- What the inode of a file is; `input` are the bytes that come from the other side, and `output` those that went. -/
inductive Node
  | pipe (input : ByteMem) (output : List UInt8)
  | chr (device : CharDevice) (input : ByteMem) (output : List UInt8)
  | blk (disk : BlockDisk)
  | file (size : UInt32) (content : ByteMem)

/-- A `file_t`. -/
structure Descriptor where
  node : Node
  flags : UInt32
  offset : UInt32

/-- What a call returns, the bytes that it moved, and the file after it. -/
abbrev Transfer := Except Halt (Int32 × List UInt8 × Descriptor)

namespace Descriptor

/-- `sys_read`. A reader of a pipe or of a character device waits until it has `len` bytes. -/
def sysRead (f : Descriptor) (len : ℕ) : Transfer := do
  assert "len > 0" (0 < len)
  if f.flags &&& O_ACCMODE = O_WRONLY then .ok (EOF, [], f)
  else match f.node with
    | .pipe input output =>
      .ok (.ofNat len, input.get 0 len, { f with node := .pipe (fun i => input (len + i)) output })
    | .chr (.console _) _ _ => .ok (EOF, [], f)
    | .chr device input output =>
      .ok (.ofNat len, input.get 0 len, { f with node := .chr device (fun i => input (len + i)) output })
    | .blk disk => do
      assert "file->offset % BLOCK_SIZE == 0" (f.offset.toNat % BLOCK_SIZE == 0)
      assert "len % BLOCK_SIZE == 0" (len % BLOCK_SIZE == 0)
      let count := len / BLOCK_SIZE % 256
      let lba := f.offset.toNat / BLOCK_SIZE
      disk.check count lba
      .ok (disk.ret count, disk.content.get (lba * SECTOR_SIZE) (count * SECTOR_SIZE), f)
    | .file size content =>
      if size ≤ f.offset then .ok (EOF, [], f)
      else
        let n := min len (size.toNat - f.offset.toNat)
        .ok (.ofNat n, content.get f.offset.toNat n, { f with offset := f.offset + .ofNat n })

/-- `sys_write` -/
def sysWrite (f : Descriptor) (buf : List UInt8) : Transfer := do
  assert "len > 0" (0 < buf.length)
  if f.flags &&& O_ACCMODE = O_RDONLY then .ok (EOF, [], f)
  else match f.node with
    | .pipe input output => .ok (.ofNat buf.length, buf, { f with node := .pipe input (output ++ buf) })
    | .chr (.console screen) input output =>
      let (ret, screen) := screen.consoleWrite buf
      .ok (ret.toInt32, buf, { f with node := .chr (.console screen) input (output ++ buf) })
    | .chr .keyboard _ _ => .ok (EOF, [], f)
    | .chr .serial input output =>
      .ok (.ofNat buf.length, buf, { f with node := .chr .serial input (output ++ buf) })
    | .blk disk => do
      assert "file->offset % BLOCK_SIZE == 0" (f.offset.toNat % BLOCK_SIZE == 0)
      assert "len % BLOCK_SIZE == 0" (buf.length % BLOCK_SIZE == 0)
      let count := buf.length / BLOCK_SIZE % 256
      let lba := f.offset.toNat / BLOCK_SIZE
      disk.check count lba
      let moved := buf.take (count * SECTOR_SIZE)
      .ok (disk.ret count, moved,
        { f with node := .blk { disk with content := disk.content.put (lba * SECTOR_SIZE) moved } })
    | .file size content => do
      assert "block >= 0 && block < TOTAL_BLOCK" (f.offset.toNat + buf.length ≤ MAX_SIZE)
      .ok (.ofNat buf.length, buf,
        { f with
          node := .file (max (f.offset + .ofNat buf.length) size) (content.put f.offset.toNat buf)
          offset := f.offset + .ofNat buf.length })

/-- What has an offset: the bytes of a file or of a disk. -/
def content (f : Descriptor) : Option ByteMem :=
  match f.node with
  | .blk disk => some disk.content
  | .file _ content => some content
  | _ => none

/-! ### The contract -/

/-- A read fails and moves nothing, or returns the number of the bytes moved, which are those at the offset. -/
def Reads (f : Descriptor) : Prop := ∀ len ret bytes f', len < 2 ^ 31 → f.sysRead len = .ok (ret, bytes, f') →
  ret = EOF ∧ bytes = [] ∨ ret.toInt = bytes.length ∧ ∀ m, f.content = some m →
    bytes = m.get f.offset.toNat bytes.length ∧ f'.offset.toNat = f.offset.toNat + bytes.length

/-- A write fails and moves nothing, or returns the number of the bytes moved, which come to the offset. -/
def Writes (f : Descriptor) : Prop := ∀ buf ret moved f', buf.length < 2 ^ 31 → f.sysWrite buf = .ok (ret, moved, f') →
  ret = EOF ∧ moved = [] ∨ ret.toInt = moved.length ∧ moved = buf.take moved.length ∧ ∀ m, f.content = some m →
    f'.content = some (m.put f.offset.toNat moved) ∧ f'.offset.toNat = f.offset.toNat + moved.length

end Descriptor

/-! ### What a call moves -/

namespace Descriptor

variable {f f' : Descriptor}

end Descriptor

end Onix
