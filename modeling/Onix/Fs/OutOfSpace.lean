import Onix.Fs.Entries
import Onix.Fs.Space

/-! The calls that allocate zones and inodes, on a device that may be full. -/

set_option autoImplicit false

namespace Onix

open Lib SharedWrite

namespace Vol

/-- `sys_write` of a regular file, without the new offset of the `file_t`; `none` is `EOF`. -/
def sysWrite (s : Vol ZoneStore) (file : OpenFile) (bytes : List UInt8) : Except Halt (Option ℕ × Vol ZoneStore) := do
  assert "len > 0" (0 < bytes.length)
  if file.writeRefused then .ok (none, s)
  else
    assert "ISFILE(inode->desc->mode)" ((s.desc file.inode).mode &&& IFMT == IFREG)
    let offset := file.offset.toNat
    let zones ← ZoneStore.writeFrom file.inode bytes.length ⟨offset, offset, bytes⟩ s.zones
    let desc := s.desc file.inode
    let s := { s with zones := zones }
    .ok (some bytes.length, s.setDesc file.inode
      { desc with size := max (UInt32.ofNat (offset + bytes.length)) desc.size })

/-- The calls that allocate. -/
inductive SpaceCall
  | write (file : OpenFile) (bytes : List UInt8)
  | mkdir (pathname : Name) (mode : UInt16)
  | mknod (filename : Name) (mode dev : UInt16)
  | open (filename : Name) (flags : UInt32) (mode : UInt16)

namespace SpaceCall

/-- Whether the call reports success, and what it leaves. -/
def run (s : Vol ZoneStore) (t : Caller) : SpaceCall → Except Halt (Bool × Vol ZoneStore)
  | .write file bytes => (s.sysWrite file bytes).map fun r => (r.1.isSome, r.2)
  | .mkdir pathname mode => s.sysMkdir t pathname mode
  | .mknod filename mode dev => s.sysMknod t filename mode dev
  | .open filename flags mode => (s.sysOpen t filename flags mode).map fun r => (r.1.isSome, r.2)

/-- A path leads to a name that is not there, which `find_entry` looks for in `dir'`. -/
def Missing (s : Vol ZoneStore) (t : Caller) (pathname : Name) (dir dir' : Ino) (name : Name) : Prop :=
  s.Aims t pathname dir name ∧ (s.disk t).findEntry dir name = .ok none ∧ (s.disk t).searched dir name = .ok dir'

/-- The call goes on to add the name to the directory. -/
def Adds (s : Vol ZoneStore) (t : Caller) (dir' : Ino) (name : Name) : SpaceCall → Prop
  | .write _ _ => False
  | .mkdir pathname _ | .mknod pathname _ _ =>
    ∃ dir, Missing s t pathname dir dir' name ∧ s.permission t dir P_WRITE = true
  | .open pathname flags _ =>
    flags &&& O_CREAT ≠ 0 ∧ ∃ dir, Missing s t pathname dir dir' name ∧ s.permission t dir' P_WRITE = true

/-- There is room for the blocks that the call writes to a file. -/
def Fills (s : Vol ZoneStore) : SpaceCall → Prop
  | .write file bytes => file.writeRefused = false → (s.desc file.inode).mode &&& IFMT = IFREG →
      ZoneStore.Writes file.inode bytes.length ⟨file.offset.toNat, file.offset.toNat, bytes⟩ s.zones
  | _ => True

/-- An allocation of the call gets `EOF`. -/
def GetsEof (s : Vol ZoneStore) (t : Caller) (call : SpaceCall) (s' : Vol ZoneStore) : Prop :=
  (∃ r ∈ s'.zones.filled, r.1 = none) ∨
    ∃ dir' name, call.Adds s t dir' name ∧ s.iallocFrom dir'.dev IMAP_NR 0 = .ok none

/-- Running out of space is an error: no allocation fails a check, every number that is stored was allocated, and a call
that gets `EOF` reports a failure and leaves everything as it was. -/
structure Right (s : Vol ZoneStore) (t : Caller) (call : SpaceCall) : Prop where
  checked : call.run s t ≠ .error (.assertion "buf")
  zones : ∀ ret s', call.run s t = .ok (ret, s') → s'.zones.Honest
  inodes : ∀ ret s' dir' name, call.run s t = .ok (ret, s') → call.Adds s t dir' name →
    s'.entries dir' ≠ s.entries dir' → ∃ nr, s.imap dir'.dev nr = false ∧ s'.imap dir'.dev nr = true ∧
      (s'.entries dir' = s.entries dir' ++ [(name.take (NAME_LEN - 1), nr)] ∨ s.iget dir'.dev nr = dir')
  eof : ∀ ret s', call.run s t = .ok (ret, s') → call.GetsEof s t s' →
    ret = false ∧ s'.entries = s.entries ∧ s'.desc = s.desc ∧
      s'.zones.zone = s.zones.zone ∧ s'.zones.data = s.zones.data

end SpaceCall

/-! ### The walk allocates nothing -/

section

variable {s s' : Vol ZoneStore} {t : Caller} {dir dir' inode : Ino} {name pathname : Name}

/-- What `create` allocates. -/
structure Allocated (s : Vol ZoneStore) (dir' inode : Ino) (r : Option ℕ) (s' : Vol ZoneStore) : Prop where
  zones : eachBlock dir' ((s.entries dir').length / BLOCK_DENTRIES + 1) 0 s.zones = .ok s'.zones
  nr : s.iallocFrom dir'.dev IMAP_NR 0 = .ok r
  got : inode = s.iget dir'.dev (r.getD EOF_NR)
  imap : ∀ b, r = some b → s'.imap dir'.dev b = true

namespace SpaceCall

variable {call : SpaceCall} {ret : Bool}

theorem Missing.det {d d' : Ino} {n : Name} (h : Missing s t pathname dir dir' name)
    (h' : Missing s t pathname d d' n) : d' = dir' ∧ n = name := by
  obtain ⟨rfl, rfl⟩ := h.1.det h'.1
  have hs := h'.2.2
  rw [h.2.2] at hs
  cases hs
  exact ⟨rfl, rfl⟩

theorem Adds.missing (h : call.Adds s t dir' name) :
    (∃ pathname dir, Missing s t pathname dir dir' name) ∧ call.Fills s := by
  cases call with
  | write file bytes => cases h
  | mkdir pathname mode =>
    obtain ⟨dir, hm, -⟩ := h
    exact ⟨⟨pathname, dir, hm⟩, trivial⟩
  | mknod pathname mode dev =>
    obtain ⟨dir, hm, -⟩ := h
    exact ⟨⟨pathname, dir, hm⟩, trivial⟩
  | «open» pathname flags mode =>
    obtain ⟨-, dir, hm, -⟩ := h
    exact ⟨⟨pathname, dir, hm⟩, trivial⟩

theorem Adds.det {d : Ino} {n : Name} (h : call.Adds s t dir' name) (h' : call.Adds s t d n) :
    d = dir' ∧ n = name := by
  cases call with
  | write file bytes => cases h
  | mkdir pathname mode =>
    obtain ⟨_, hm, -⟩ := h
    obtain ⟨_, hm', -⟩ := h'
    exact hm.det hm'
  | mknod pathname mode dev =>
    obtain ⟨_, hm, -⟩ := h
    obtain ⟨_, hm', -⟩ := h'
    exact hm.det hm'
  | «open» pathname flags mode =>
    obtain ⟨-, _, hm, -⟩ := h
    obtain ⟨-, _, hm', -⟩ := h'
    exact hm.det hm'

end SpaceCall

end

end Vol

end Onix
