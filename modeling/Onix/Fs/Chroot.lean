import Onix.Fs.Pwd

/-! How far a changed root confines a task. `named` walks from the new root, but
`find_entry` knows only the root of a device: in any other directory, the new root
included, `..` is a name like every other one. And the walk reads all its inodes from
the device on which it started. A pathname that meets neither of the two cannot leave
the subtree. -/

set_option autoImplicit false

namespace Onix

open Lib

namespace Disk

/-- What the names lead to from a directory, without `.` and `..`. -/
inductive Sub (fs : Disk) (d : Ino) : Ino → Prop
  | refl : Sub fs d d
  | child {p p' : Ino} {c : Name} {nr : ℕ} : Sub fs d p → fs.Finds p c p' nr → c ≠ DOT → c ≠ DOTDOT →
      Sub fs d (fs.iget p'.dev nr)

/-- The directories of every device have `.` and `..`, and nothing is mounted on the root of a
mounted device. -/
structure Forest (fs : Disk) : Prop where
  plain : fs.PlainNames
  mounted : ∀ {inode : Ino} {dev : ℕ}, fs.mount inode = some dev → fs.mount ⟨dev, 1⟩ = none
  dot : ∀ {dir dir' : Ino} {nr : ℕ}, fs.mount dir = none → fs.Finds dir DOT dir' nr → fs.iget dir'.dev nr = dir
  dotdot : ∀ {dir dir' child child' : Ino} {c : Name} {nr nr' : ℕ}, fs.mount dir = none → fs.Finds dir c dir' nr →
    c ≠ DOT → c ≠ DOTDOT → child = fs.iget dir'.dev nr → fs.Finds child DOTDOT child' nr' → fs.iget child'.dev nr' = dir

/-- The walk over `path` looks up no `..` in `d`, and looks up all components but the last on
the device where it starts. -/
def Stays (fs : Disk) (d start : Ino) (path : List Name) : Prop :=
  ∀ (cs : List Name) (c : Name) (inode : Ino), cs ++ [c] <+: path → fs.Walks start.dev start cs inode →
    (c = DOTDOT → inode ≠ d) ∧ (cs ++ [c] ≠ path → ∀ dir nr, fs.Finds inode c dir nr → dir.dev = start.dev)

variable {fs : Disk} {d : Ino}

theorem Forest.iget_mount (hf : fs.Forest) (dev nr : ℕ) : fs.mount (fs.iget dev nr) = none := by
  unfold iget
  split
  · assumption
  · exact hf.mounted ‹_›

theorem Forest.sub_mount (hf : fs.Forest) (hd : fs.mount d = none) {inode : Ino} (h : fs.Sub d inode) :
    fs.mount inode = none := by
  cases h with
  | refl => exact hd
  | child => exact hf.iget_mount _ _

/-- A name other than `..` in `d` leads from the subtree to the subtree. -/
theorem Forest.sub_finds (hf : fs.Forest) (hd : fs.mount d = none) {inode dir : Ino} {c : Name} {nr : ℕ}
    (h : fs.Sub d inode) (hc : c = DOTDOT → inode ≠ d) (hfinds : fs.Finds inode c dir nr) :
    fs.Sub d (fs.iget dir.dev nr) := by
  by_cases hdot : c = DOT
  · subst hdot
    rwa [hf.dot (hf.sub_mount hd h) hfinds]
  · by_cases hdotdot : c = DOTDOT
    · subst hdotdot
      generalize hchild : inode = child at h hfinds hc
      cases h with
      | refl => exact absurd rfl (hc rfl)
      | child hp hfinds' hk hk' => rwa [hf.dotdot (hf.sub_mount hd hp) hfinds' hk hk' rfl hfinds]
    · exact h.child hfinds hdot hdotdot

/-- The walk over all components but the last stays in the subtree. -/
theorem Forest.sub_walks (hf : fs.Forest) (hd : fs.mount d = none) {start inode : Ino} {cs path : List Name}
    (hstart : fs.Sub d start) (hstays : fs.Stays d start path) (hwalk : fs.Walks start.dev start cs inode)
    (hpre : cs <+: path) (hne : cs ≠ path) : fs.Sub d inode := by
  induction hwalk with
  | nil => exact hstart
  | @snoc cs c x x' nr hwalk hfinds _ ih =>
    have hshort : cs ≠ path := by
      rintro rfl
      have := hpre.length_le
      simp at this
    obtain ⟨hc, hdev⟩ := hstays cs c x hpre hwalk
    have hx := ih ((List.prefix_append cs [c]).trans hpre) hshort
    have := hf.sub_finds hd hx hc hfinds
    rwa [hdev hne x' nr hfinds] at this

theorem Forest.sub_named (hf : fs.Forest) (hd : fs.mount d = none) {task : TaskDirs} {pathname name : Name} {dir : Ino}
    (hstart : fs.Sub d (start task pathname))
    (hstays : fs.Stays d (start task pathname) (components (relative pathname)))
    (h : fs.named task pathname = .ok (some (dir, name))) : fs.Sub d dir := by
  obtain ⟨cs, hcs, hwalk⟩ := named_walks hf.plain h
  rw [hcs] at hstays
  exact hf.sub_walks hd hstart hstays hwalk (List.prefix_append cs [name]) (by simp)

theorem Forest.sub_namei (hf : fs.Forest) (hd : fs.mount d = none) {task : TaskDirs} {pathname : Name} {inode : Ino}
    (hstart : fs.Sub d (start task pathname))
    (hstays : fs.Stays d (start task pathname) (components (relative pathname)))
    (h : fs.namei task pathname = .ok (some inode)) : fs.Sub d inode := by
  obtain ⟨cs, name, dir, dir', nr, hcs, hwalk, hfinds, rfl⟩ := namei_walks hf.plain h
  rw [hcs] at hstays
  have hdir := hf.sub_walks hd hstart hstays hwalk (List.prefix_append cs [name]) (by simp)
  exact hf.sub_finds hd hdir (hstays cs name dir List.prefix_rfl hwalk).1 hfinds

theorem Forest.namei_mount (hf : fs.Forest) {task : TaskDirs} {pathname : Name} {inode : Ino}
    (h : fs.namei task pathname = .ok (some inode)) : fs.mount inode = none := by
  obtain ⟨_, _, _, _, _, _, _, _, rfl⟩ := namei_walks hf.plain h
  exact hf.iget_mount _ _

/-- A pathname of one component stays, unless it is `..` in `d`. -/
theorem stays_single {start : Ino} {c : Name} (h : c = DOTDOT → start ≠ d) : fs.Stays d start [c] := by
  intro cs k inode hpre hwalk
  have hlen := hpre.length_le
  rw [List.length_append, List.length_singleton, List.length_singleton] at hlen
  obtain rfl : cs = [] := List.eq_nil_of_length_eq_zero (by omega)
  obtain ⟨rfl, -⟩ := List.cons_prefix_cons.mp hpre
  obtain rfl := hwalk.det .nil
  exact ⟨h, fun hne => absurd rfl hne⟩

/-- A file system of one device is such a forest. -/
theorem Tree.forest {root : Ino} (ht : fs.Tree root) : fs.Forest where
  plain := ht.plain
  mounted _ := ht.unmounted _
  dot _ hfinds := by rw [ht.iget, ht.dot hfinds]
  dotdot _ hfinds hc hc' hchild hfinds' := by
    rw [ht.iget] at hchild ⊢
    exact ht.dotdot hfinds hc hc' hchild hfinds'

end Disk

/-! ### Runs after `sys_chroot` -/

/-- The state after a `sys_chroot` to `d`, which the current directory lies below. -/
def Chrooted (fs : Disk) (d : Ino) (task : TaskDirs) : Prop :=
  ∃ before pathname, fs.sysChroot before pathname = .ok (true, task) ∧ task.iroot = d ∧ fs.Sub d task.ipwd

/-- The calls of `sys_chdir`, with their pathnames and results. -/
def ChdirStep (fs : Disk) (task : TaskDirs) (e : Name × Bool) (task' : TaskDirs) : Prop :=
  fs.sysChdir task e.1 = .ok (e.2, task')

/-- The pathname does not leave the subtree of `d`. -/
def StaysIn (fs : Disk) (d : Ino) (task : TaskDirs) (pathname : Name) : Prop :=
  fs.Stays d (Disk.start task pathname) (components (relative pathname))

/-- Root and current directory of a task in the subtree of `d`. -/
structure Confined (fs : Disk) (d : Ino) (task : TaskDirs) : Prop where
  mount : fs.mount d = none
  iroot : task.iroot = d
  ipwd : fs.Sub d task.ipwd

namespace Confined

variable {fs : Disk} {d : Ino} {task : TaskDirs}

theorem start (hi : Confined fs d task) (pathname : Name) : fs.Sub d (Disk.start task pathname) := by
  unfold Disk.start
  split_ifs
  · rw [hi.iroot]
    exact .refl
  · exact hi.ipwd

theorem chdir (hf : fs.Forest) (hi : Confined fs d task) {e : Name × Bool} {task' : TaskDirs} (hstays : StaysIn fs d task e.1)
    (h : ChdirStep fs task e task') : Confined fs d task' := by
  obtain ⟨pathname, ret⟩ := e
  unfold ChdirStep Disk.sysChdir at h
  obtain ⟨r, hr, h⟩ := bind_ok.mp h
  cases r with
  | none =>
    cases h
    exact hi
  | some inode =>
    dsimp only at h
    split_ifs at h
    · cases h
      exact hi
    · obtain ⟨pwd, -, h⟩ := bind_ok.mp h
      cases h
      exact ⟨hi.mount, hi.iroot, hf.sub_namei hi.mount (hi.start pathname) hstays hr⟩

theorem chroot (hf : fs.Forest) (h : Chrooted fs d task) : Confined fs d task := by
  obtain ⟨before, pathname, hcall, hd, hsub⟩ := h
  refine ⟨?_, hd, hsub⟩
  unfold Disk.sysChroot at hcall
  obtain ⟨r, hr, hcall⟩ := bind_ok.mp hcall
  cases r with
  | none => cases hcall
  | some inode =>
    dsimp only at hcall
    split_ifs at hcall
    · cases hcall
    · cases hcall
      exact hd ▸ hf.namei_mount hr

end Confined

/-- As long as no pathname leaves the subtree, every pathname that does not leave it leads to
an inode in it. -/
theorem chroot_confines {fs : Disk} {d : Ino} (hf : fs.Forest) {es : List (Name × Bool)} {task : TaskDirs}
    (h : Run (Chrooted fs d) (Restrict (fun task e => StaysIn fs d task e.1) (ChdirStep fs)) es task) :
    task.iroot = d ∧ fs.Sub d task.ipwd ∧ ∀ pathname, StaysIn fs d task pathname →
      (∀ dir name, fs.named task pathname = .ok (some (dir, name)) → fs.Sub d dir) ∧
      ∀ inode, fs.namei task pathname = .ok (some inode) → fs.Sub d inode := by
  have hi : Confined fs d task :=
    Run.invariant (fun _ h => .chroot hf h) (fun _ _ _ hi hs => hi.chdir hf hs.1 hs.2) es task h
  refine ⟨hi.iroot, hi.ipwd, fun pathname hstays => ⟨fun dir name hn => ?_, fun inode hn => ?_⟩⟩
  · exact hf.sub_named hi.mount (hi.start pathname) hstays hn
  · exact hf.sub_namei hi.mount (hi.start pathname) hstays hn

/-- Root and current directory of a task are the directory in the root, it calls `chroot("..")`
and `chdir("..")`: `d` leads to the directory in the new root. -/
theorem chroot_confines_small : ∃ task : TaskDirs, smallDisk.namei task ['d'] = .ok (some ⟨1, 2⟩) ∧
    smallDisk.Sub ⟨1, 1⟩ ⟨1, 2⟩ := by
  have hf := smallDisk_tree.forest
  have hroot : smallDisk.sysChroot ⟨⟨1, 2⟩, ⟨1, 2⟩, ['/']⟩ DOTDOT = .ok (true, ⟨⟨1, 1⟩, ⟨1, 2⟩, ['/']⟩) := by rfl
  have hchdir : smallDisk.sysChdir ⟨⟨1, 1⟩, ⟨1, 2⟩, ['/']⟩ DOTDOT = .ok (true, ⟨⟨1, 1⟩, ⟨1, 1⟩, ['/']⟩) := by rfl
  have hd : smallDisk.namei ⟨⟨1, 1⟩, ⟨1, 1⟩, ['/']⟩ ['d'] = .ok (some ⟨1, 2⟩) := by rfl
  have hfinds : smallDisk.Finds ⟨1, 1⟩ ['d'] ⟨1, 1⟩ 2 := ⟨rfl, rfl, rfl⟩
  have hsub : smallDisk.Sub ⟨1, 1⟩ ⟨1, 2⟩ := Disk.Sub.refl.child hfinds (by decide) (by decide)
  have hstart : Chrooted smallDisk ⟨1, 1⟩ ⟨⟨1, 1⟩, ⟨1, 2⟩, ['/']⟩ := ⟨_, _, hroot, rfl, hsub⟩
  have hup : StaysIn smallDisk ⟨1, 1⟩ ⟨⟨1, 1⟩, ⟨1, 2⟩, ['/']⟩ DOTDOT := Disk.stays_single fun _ => by decide
  have hdown : StaysIn smallDisk ⟨1, 1⟩ ⟨⟨1, 1⟩, ⟨1, 1⟩, ['/']⟩ ['d'] := Disk.stays_single fun h => absurd h (by decide)
  have hrun : Run (Chrooted smallDisk ⟨1, 1⟩) (Restrict (fun task e => StaysIn smallDisk ⟨1, 1⟩ task e.1)
      (ChdirStep smallDisk)) [(DOTDOT, true)] ⟨⟨1, 1⟩, ⟨1, 1⟩, ['/']⟩ := (Run.nil hstart).snoc ⟨hup, hchdir⟩
  exact ⟨_, hd, ((chroot_confines hf hrun).2.2 _ hdown).2 _ hd⟩

/-- In the new root `/..` leads to the directory above it. -/
theorem chroot_escape : ∃ (task : TaskDirs) (inode : Ino), Run (Chrooted smallDisk ⟨1, 2⟩) (ChdirStep smallDisk) [] task ∧
    smallDisk.namei task ['/', '.', '.'] = .ok (some inode) ∧ ¬ smallDisk.Sub ⟨1, 2⟩ inode := by
  have hroot : smallDisk.sysChroot ⟨⟨1, 1⟩, ⟨1, 2⟩, ['/', 'd', '/']⟩ DOT =
    .ok (true, ⟨⟨1, 2⟩, ⟨1, 2⟩, ['/', 'd', '/']⟩) := by rfl
  refine ⟨⟨⟨1, 2⟩, ⟨1, 2⟩, ['/', 'd', '/']⟩, ⟨1, 1⟩, .nil ⟨_, _, hroot, rfl, .refl⟩, by rfl, fun hsub => ?_⟩
  -- every name in the new root but `.` and `..` is free
  have hleaf : ∀ inode, smallDisk.Sub ⟨1, 2⟩ inode → inode = ⟨1, 2⟩ := by
    intro inode h
    induction h with
    | refl => rfl
    | @child p p' c nr _ hfinds hdot hdotdot ih =>
      subst ih
      have hs := hfinds.searched
      rw [if_neg fun h => hdotdot h.1] at hs
      subst hs
      have hmem : (c, nr) ∈ [(DOT, 2), (DOTDOT, 1)] := hfinds.mem.1
      simp only [List.mem_cons, List.not_mem_nil, or_false, Prod.mk.injEq] at hmem
      tauto
  exact absurd (hleaf _ hsub) (by decide)

end Onix
