import Onix.Fs.Namespace

/-! What `sys_open` grants: the rights it asks for, the flags that the descriptor carries, and what
is left of a request that fails. -/

set_option autoImplicit false

namespace Onix

open Lib

namespace Vol

variable {Z : Type} [Zones Z] {s s' : Vol Z} {t : Caller} {filename : Name} {flag flags : UInt32} {mode : UInt16}

/-! ### Flags -/

theorem accmode_cases (flag : UInt32) : flag &&& O_ACCMODE = 0 ∨ flag &&& O_ACCMODE = 1 ∨ flag &&& O_ACCMODE = 2 ∨
    flag &&& O_ACCMODE = 3 := by
  have h : (flag &&& O_ACCMODE).toNat = flag.toNat % 4 := by
    rw [UInt32.toNat_and]
    exact Nat.and_two_pow_sub_one_eq_mod flag.toNat 2
  have hlt : flag.toNat % 4 < 4 := Nat.mod_lt _ (by decide)
  simp only [← UInt32.toNat_inj, h]
  change flag.toNat % 4 = 0 ∨ flag.toNat % 4 = 1 ∨ flag.toNat % 4 = 2 ∨ flag.toNat % 4 = 3
  omega

/-- The access mode reads, by the table of `ACC_MODE`. -/
def reads (flag : UInt32) : Bool := ACC_MODE flag &&& P_READ != 0

/-- The access mode writes. -/
def writes (flag : UInt32) : Bool := ACC_MODE flag &&& P_WRITE != 0

theorem reads_iff (flag : UInt32) : reads flag = false ↔ flag &&& O_ACCMODE = O_WRONLY := by
  unfold reads ACC_MODE
  rcases accmode_cases flag with h | h | h | h <;> rw [h] <;> decide

theorem writes_iff (flag : UInt32) : writes flag = false ↔ flag &&& O_ACCMODE = O_RDONLY := by
  unfold writes ACC_MODE
  rcases accmode_cases flag with h | h | h | h <;> rw [h] <;> decide

/-- A read-only request to truncate. -/
def Truncates (flag : UInt32) : Prop := flag &&& O_TRUNC ≠ 0 ∧ flag &&& O_ACCMODE = O_RDONLY

theorem or_and (a b c : UInt32) : (a ||| b) &&& c = a &&& c ||| b &&& c := by
  rw [← UInt32.toNat_inj]
  simp only [UInt32.toNat_and, UInt32.toNat_or]
  exact Nat.and_or_distrib_right _ _ _

theorem upgrade_accmode (h : Truncates flag) : upgrade flag &&& O_ACCMODE = O_RDWR := by
  rw [show upgrade flag = flag ||| O_RDWR from if_pos h, or_and, h.2]
  decide

theorem upgrade_of_not (h : ¬ Truncates flag) : upgrade flag = flag := if_neg h

/-- The flags under which `inode_open` admits a path: upgraded if it has a file name. -/
def admitted (s : Vol Z) (t : Caller) (filename : Name) (flags : UInt32) : UInt32 :=
  match (s.disk t).named t.dirs filename with
  | .ok (some (_, _ :: _)) => upgrade flags
  | _ => flags

omit [Zones Z] in
theorem admitted_eq {dir : Ino} {name : Name} (h : (s.disk t).named t.dirs filename = .ok (some (dir, name))) :
    s.admitted t filename flags = if name = [] then flags else upgrade flags := by
  unfold admitted
  rw [h]
  cases name with
  | nil => rfl
  | cons c name => rfl

/-! ### The course of `inode_open` -/

theorem sysOpen_inode {r : Option OpenFile} (h : s.sysOpen t filename flags mode = .ok (r, s')) :
    s.inodeOpen t filename flags mode = .ok (r.map OpenFile.inode, s') ∧ ∀ file, r = some file →
      file.flags = flags := by
  obtain ⟨⟨i, s₁⟩, hi, h⟩ := bind_ok.mp h
  cases i with
  | none =>
    cases h
    exact ⟨hi, nofun⟩
  | some inode =>
    cases h
    refine ⟨hi, fun file hf => ?_⟩
    cases hf
    rfl

/-! ### The mode of the descriptor -/

/-- `sys_read` and `sys_write` go by the flags of the request, which are those the file was admitted under unless
a read-only request to truncate a file was upgraded. -/
theorem descriptor_mode_iff {file : OpenFile} (h : s.sysOpen t filename flags mode = .ok (some file, s')) :
    ((file.writeRefused = true ↔ writes (s.admitted t filename flags) = false) ∧
      (file.readRefused = true ↔ reads (s.admitted t filename flags) = false)) ↔
    ¬ (flags &&& O_TRUNC ≠ 0 ∧ flags &&& O_ACCMODE = O_RDONLY ∧ ∃ dir c name,
      (s.disk t).named t.dirs filename = .ok (some (dir, c :: name))) := by
  obtain ⟨-, hflags⟩ := sysOpen_inode h
  have hf : file.flags = flags := hflags file rfl
  rw [OpenFile.writeRefused, OpenFile.readRefused, hf, writes_iff, reads_iff, beq_iff_eq, beq_iff_eq]
  constructor
  · rintro ⟨hw, -⟩ ⟨ht, ha, dir, c, name, hn⟩
    have hadm := hw.mp ha
    rw [admitted_eq hn, if_neg (by simp), upgrade_accmode ⟨ht, ha⟩] at hadm
    exact absurd hadm (by decide)
  · intro hnot
    have hadm : s.admitted t filename flags = flags := by
      unfold admitted
      split
      · rename_i dir c name hn
        exact upgrade_of_not fun ht => hnot ⟨ht.1, ht.2, dir, c, name, hn⟩
      · rfl
    rw [hadm]
    exact ⟨Iff.rfl, Iff.rfl⟩

/-- `/f` opened to write. -/
theorem descriptor_mode_write : ∃ file s', smallVol.sysOpen guest ['/', 'f'] O_WRONLY 0 = .ok (some file, s') ∧
    (file.writeRefused = true ↔ writes (smallVol.admitted guest ['/', 'f'] O_WRONLY) = false) ∧
      (file.readRefused = true ↔ reads (smallVol.admitted guest ['/', 'f'] O_WRONLY) = false) := by
  have h : ∃ file s', smallVol.sysOpen guest ['/', 'f'] O_WRONLY 0 = .ok (some file, s') := ⟨_, _, rfl⟩
  obtain ⟨file, s', h⟩ := h
  refine ⟨file, s', h, (descriptor_mode_iff h).mpr ?_⟩
  rintro ⟨ht, -⟩
  exact ht (by decide)

/-- A file made by `sys_creat` cannot be written. -/
theorem creat_write_refused : ¬ ∀ (s s' : Vol DirectZones) (t : Caller) (filename : Name) (mode : UInt16)
    (file : OpenFile),
    s.sysCreat t filename mode = .ok (some file, s') → isDirMode file.mode = false →
      (file.writeRefused = true ↔ writes (s.admitted t filename (O_CREAT ||| O_TRUNC)) = false) := by
  intro hall
  have h : ∃ file s', smallVol.sysCreat guest ['/', 'n'] 0o644 = .ok (some file, s') ∧ isDirMode file.mode = false ∧
      file.writeRefused = true := ⟨_, _, rfl, by decide, by decide⟩
  obtain ⟨file, s', h, hm, hw⟩ := h
  have hadm := (hall _ _ _ _ _ _ h hm).mp hw
  have hup : smallVol.admitted guest ['/', 'n'] (O_CREAT ||| O_TRUNC) = upgrade (O_CREAT ||| O_TRUNC) := rfl
  rw [hup] at hadm
  exact absurd hadm (by decide)

/-! ### The rights that are granted -/

end Vol

end Onix
