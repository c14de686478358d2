import Onix.Fs.Open

/-! The calls that add and remove directory entries: which directories they change and whether the
task may, and what a refused `sys_rmdir` leaves. -/

set_option autoImplicit false

namespace Onix

open Lib

namespace Vol

variable {Z : Type} [Zones Z] {s s' : Vol Z} {t : Caller} {pathname oldname filename : Name} {mode dev : UInt16}
    {ret : Bool}

/-- The directory that `named` returns for a path with a file name, with that name. -/
def Aims (s : Vol Z) (t : Caller) (pathname : Name) (dir : Ino) (name : Name) : Prop :=
  (s.disk t).named t.dirs pathname = .ok (some (dir, name)) ∧ name ≠ []

omit [Zones Z] in
theorem Aims.det {dir dir' : Ino} {name name' : Name} (h : s.Aims t pathname dir name)
    (h' : s.Aims t pathname dir' name') :
    dir' = dir ∧ name' = name := by
  have := h'.1
  rw [h.1] at this
  cases this
  exact ⟨rfl, rfl⟩

omit [Zones Z] in
/-- A task that may not write the directory of a path finds no other one for it. -/
theorem Aims.refused {dir dir' : Ino} {name name' : Name} (h : s.Aims t pathname dir name)
    (hp : (!s.permission t dir P_WRITE) = true) (h' : s.Aims t pathname dir' name') :
    s.permission t dir' P_WRITE ≠ true := by
  obtain ⟨rfl, rfl⟩ := h.det h'
  simpa using hp

/-! ### Removing a directory -/

/-- `inode` is the one that a call makes for a new name. -/
def Makes (s : Vol Z) (t : Caller) (pathname : Name) (inode : Ino) : Prop :=
  ∃ dir dir' name nr, s.Aims t pathname dir name ∧ (s.disk t).searched dir name = .ok dir' ∧
    s.allocNr dir'.dev = .ok nr ∧ inode = s.iget dir'.dev nr

/-- The entries of no directory but `dir'` and `inode` are changed, and those of `dir'` are unless it is `inode`. -/
structure Changes (s s' : Vol Z) (dir' : Ino) (inode : Option Ino) : Prop where
  here : some dir' ≠ inode → s'.entries dir' ≠ s.entries dir'
  elsewhere : ∀ d, d ≠ dir' → some d ≠ inode → s'.entries d = s.entries d

omit [Zones Z] in
theorem append_ne {d : Ino} {l : List (Name × ℕ)} {e : Name × ℕ} {f : Ino → List (Name × ℕ)} (h : f d = l ++ [e]) :
    f d ≠ l := by
  rw [h]
  intro hc
  simpa using congrArg List.length hc

omit [Zones Z] in
theorem Created.entries {dir' inode : Ino} {name : Name} {s₁ : Vol Z} (h : Created s t dir' name inode s₁)
    (he : ∀ d, d ≠ inode → s'.entries d = s₁.entries d) : Changes s s' dir' (some inode) := by
  obtain ⟨nr, -, -, hs₁⟩ := h.entry
  constructor
  · intro hne
    have hne : dir' ≠ inode := fun h => hne (congrArg some h)
    apply append_ne (f := s'.entries) (e := (name.take (NAME_LEN - 1), nr))
    rw [he dir' hne, hs₁, Function.update_of_ne hne, Function.update_self]
  · intro d hd hi
    have hi : d ≠ inode := fun h => hi (congrArg some h)
    rw [he d hi, hs₁, Function.update_of_ne hi, Function.update_of_ne hd]

/-- The calls that add an entry to a directory or remove one. -/
inductive DirOp
  | mkdir (pathname : Name) (mode : UInt16)
  | rmdir (pathname : Name)
  | link (oldname newname : Name)
  | unlink (filename : Name)
  | mknod (filename : Name) (mode dev : UInt16)
  | open (filename : Name) (flags : UInt32) (mode : UInt16)

def DirOp.run (s : Vol Z) (t : Caller) : DirOp → Except Halt (Vol Z)
  | .mkdir pathname mode => (s.sysMkdir t pathname mode).map Prod.snd
  | .rmdir pathname => (s.sysRmdir t pathname).map Prod.snd
  | .link oldname newname => (s.sysLink t oldname newname).map Prod.snd
  | .unlink filename => (s.sysUnlink t filename).map Prod.snd
  | .mknod filename mode dev => (s.sysMknod t filename mode dev).map Prod.snd
  | .open filename flags mode => (s.sysOpen t filename flags mode).map Prod.snd

/-- A call that adds a name looks at the directory of the path, and adds to the one its search ends in. -/
def AddsWithin (s : Vol Z) (t : Caller) (pathname : Name) (made : Ino → Prop) : Prop :=
  ∀ dir dir' name, s.Aims t pathname dir name → s.permission t dir P_WRITE = true →
    (s.disk t).findEntry dir name = .ok none → (s.disk t).searched dir name = .ok dir' →
    s.permission t dir' P_WRITE = true ∨ made dir'

/-- When no call changes a directory that the task may not write. -/
def DirOp.Within (s : Vol Z) (t : Caller) : DirOp → Prop
  | .mkdir pathname _ | .mknod pathname _ _ => s.AddsWithin t pathname (s.Makes t pathname)
  | .link oldname newname => (∃ inode, (s.disk t).namei t.dirs oldname = .ok (some inode) ∧
      isDirMode (s.desc inode).mode = false) → s.AddsWithin t newname fun _ => False
  | .rmdir pathname => ∀ dir dir' name nr next, s.Aims t pathname dir name → s.permission t dir P_WRITE = true →
      (s.disk t).findEntry dir name = .ok (some (dir', nr, next)) → s.permission t dir' P_WRITE = true
  | .unlink filename => ∀ dir dir' name nr next, s.Aims t filename dir name →
      (s.disk t).findEntry dir name = .ok (some (dir', nr, next)) → isDirMode
        (s.desc (s.iget dir'.dev nr)).mode = false →
      ((s.desc (s.iget dir'.dev nr)).mode &&& ISVTX = 0 ∨ t.uid = (s.desc (s.iget dir'.dev nr)).uid.toUInt32) →
      s.permission t dir' P_WRITE = true
  | .open _ _ _ => True

omit [Zones Z] in
theorem Aims.one {dir : Ino} {name : Name} {P : Ino → Name → Prop} (h : s.Aims t pathname dir name) :
    (∀ dir name, s.Aims t pathname dir name → P dir name) ↔ P dir name := by
  refine ⟨fun hall => hall _ _ h, fun hp d n ha => ?_⟩
  obtain ⟨rfl, rfl⟩ := h.det ha
  exact hp

/-- What `sys_link` does once it has found the file and the place for the new name. -/
structure Linked (s : Vol Z) (dir' inode : Ino) (name : Name) (s' : Vol Z) : Prop where
  plain : Plain name
  entries : s'.entries = Function.update s.entries dir' (s.entries dir' ++ [(name.take (NAME_LEN - 1), inode.nr)])
  desc : s'.desc = Function.update s.desc inode { s.desc inode with nlinks := (s.desc inode).nlinks + 1 }
  mount : s'.mount = s.mount
  imount : s'.imount = s.imount

omit [Zones Z] in
theorem Linked.isDir {dir' inode : Ino} {name : Name} (h : Linked s dir' inode name s') (i : Ino) :
    isDirMode (s'.desc i).mode = isDirMode (s.desc i).mode := by
  rw [h.desc]
  by_cases hi : i = inode
  · rw [hi, Function.update_self]
  · rw [Function.update_of_ne hi]

omit [Zones Z] in
theorem Linked.iget {dir' inode : Ino} {name : Name} (h : Linked s dir' inode name s') (dev nr : ℕ) :
    s'.iget dev nr = s.iget dev nr := by
  unfold Vol.iget
  rw [h.mount]

omit [Zones Z] in
/-- `find_entry` in the new state, by the entries of the directory it ends in. -/
theorem Linked.findEntry {dir' inode : Ino} {name : Name} (h : Linked s dir' inode name s') {d d' : Ino} {left : Name}
    (hs : (s.disk t).searched d left = .ok d') {r : Option (Ino × ℕ × Name)}
      (hf : (s.disk t).findEntry d left = .ok r) :
    (s'.disk t).findEntry d left = .ok ((s'.entries d').findSome? fun entry =>
      if entry.2 = 0 then none else (matchName left entry.1).map fun next => (d', entry.2, next)) := by
  obtain ⟨_, hdir, -⟩ := bind_ok.mp hf
  have hs' : (s'.disk t).searched d left = .ok d' := by
    rw [← hs]
    simp only [Disk.searched, disk, h.imount]
  have hdir' : assert "ISDIR(((*dir)->desc->mode))" ((s'.disk t).isDir d) = .ok () := by
    rw [assert_ok]
    exact (h.isDir d).trans (assert_ok.mp hdir)
  rw [Disk.findEntry, hdir', hs']
  rfl

omit [Zones Z] in
/-- An entry that was found is found. -/
theorem Linked.finds {dir' inode : Ino} {name : Name} (h : Linked s dir' inode name s') {d : Ino} {left : Name}
    {r : Ino × ℕ × Name} (hf : (s.disk t).findEntry d left = .ok (some r)) :
    (s'.disk t).findEntry d left = .ok (some r) := by
  obtain ⟨d', hs⟩ := findEntry_searched hf
  have hfound := findEntry_eq hs hf
  rw [h.findEntry hs hf, h.entries]
  by_cases hd : d' = dir'
  · subst hd
    rw [Function.update_self, List.findSome?_append, ← hfound]
    rfl
  · rw [Function.update_of_ne hd, ← hfound]

omit [Zones Z] in
/-- A directory that may be entered still may. -/
theorem Linked.enters {dir' inode : Ino} {name : Name} (h : Linked s dir' inode name s')
    (hreg : isDirMode (s.desc inode).mode = false) {i : Ino} (hi : ((s.disk t).isDir i && (s.disk t).exec i) = true) :
    ((s'.disk t).isDir i && (s'.disk t).exec i) = true := by
  have hne : i ≠ inode := by
    rintro rfl
    rw [show (s.disk t).isDir i = false from hreg] at hi
    cases hi
  have hdesc : s'.desc i = s.desc i := by rw [h.desc, Function.update_of_ne hne]
  rw [← hi]
  simp only [disk, permission, hdesc]

omit [Zones Z] in
theorem Linked.namedFrom {dir' inode : Ino} {name : Name} (h : Linked s dir' inode name s')
    (hreg : isDirMode (s.desc inode).mode = false) {dev : ℕ} {right : Name} {r : Ino × Name} :
    ∀ (rounds : ℕ) (i : Ino) (left : Name), (s.disk t).namedFrom dev right rounds i left = .ok (some r) →
      (s'.disk t).namedFrom dev right rounds i left = .ok (some r) := by
  intro rounds
  induction rounds with
  | zero => exact fun _ _ hn => nomatch hn
  | succ rounds ih =>
    intro i left hn
    obtain ⟨e, hf, hn⟩ := bind_ok.mp hn
    cases e with
    | none => cases hn
    | some e =>
      obtain ⟨d, nr, next⟩ := e
      dsimp only at hn
      have higet : (s'.disk t).iget dev nr = (s.disk t).iget dev nr := h.iget dev nr
      rw [Disk.namedFrom, h.finds hf]
      change (if (!(s'.disk t).isDir ((s'.disk t).iget dev nr) || !(s'.disk t).exec
        ((s'.disk t).iget dev nr)) = true then _ else _) = _
      rw [higet]
      by_cases hent : ((s.disk t).isDir ((s.disk t).iget dev nr) && (s.disk t).exec ((s.disk t).iget dev nr)) = true
      · have hent' := h.enters hreg hent
        rw [if_neg (by simpa using hent)] at hn
        rw [if_neg (by simpa using hent')]
        split_ifs at hn ⊢ with hend
        · exact hn
        · exact ih _ _ hn
      · rw [Bool.and_eq_true, not_and_or, Bool.not_eq_true, Bool.not_eq_true] at hent
        rw [if_pos (by simpa using hent)] at hn
        cases hn

omit [Zones Z] in
theorem Linked.named {dir' inode : Ino} {name : Name} (h : Linked s dir' inode name s')
    (hreg : isDirMode (s.desc inode).mode = false) {dirs : TaskDirs} {path : Name} {r : Ino × Name}
    (hn : (s.disk t).named dirs path = .ok (some r)) : (s'.disk t).named dirs path = .ok (some r) := by
  cases path with
  | nil => cases hn
  | cons c rest =>
    unfold Disk.named at hn ⊢
    dsimp only at hn ⊢
    split_ifs at hn ⊢
    · exact hn
    · split at hn
      · exact hn
      · exact h.namedFrom hreg _ _ _ hn
    · exact hn
    · split at hn
      · exact hn
      · exact h.namedFrom hreg _ _ _ hn

omit [Zones Z] in
theorem Linked.namei {dir' inode : Ino} {name : Name} (h : Linked s dir' inode name s')
    (hreg : isDirMode (s.desc inode).mode = false) {dirs : TaskDirs} {path : Name} {i : Ino}
    (hn : (s.disk t).namei dirs path = .ok (some i)) : (s'.disk t).namei dirs path = .ok (some i) := by
  obtain ⟨r, hr, hn⟩ := bind_ok.mp hn
  cases r with
  | none => cases hn
  | some r =>
    obtain ⟨d, n⟩ := r
    rw [Disk.namei, h.named hreg hr]
    dsimp only at hn
    change (if n.isEmpty = true then _ else _) = _
    split_ifs at hn ⊢
    · cases hn
    · obtain ⟨e, hf, hn⟩ := bind_ok.mp hn
      cases e with
      | none => cases hn
      | some e =>
        rw [h.finds hf]
        refine Eq.trans ?_ hn
        exact congrArg (fun i => Except.ok (some i)) (h.iget _ _)

omit [Zones Z] in
/-- What the new name stands for: nothing if it was cut, and else the number of the file on the device of the
directory. -/
theorem Linked.newname {dir dir' inode : Ino} {name : Name} (h : Linked s dir' inode name s')
    (hreg : isDirMode (s.desc inode).mode = false) (hnr : inode.nr ≠ 0) (ha : s.Aims t pathname dir name)
    (hf : (s.disk t).findEntry dir name = .ok none) (hs : (s.disk t).searched dir name = .ok dir') :
    (s'.disk t).namei t.dirs pathname =
      .ok (if name.length < NAME_LEN then some (s.iget dir'.dev inode.nr) else none) := by
  have hold := findEntry_eq hs hf
  have htake : name.take (NAME_LEN - 1) = name ↔ name.length < NAME_LEN := by
    rw [List.take_eq_self_iff, NAME_LEN]
    omega
  have hnew : (s'.disk t).findEntry dir name =
      .ok (if name.length < NAME_LEN then some (dir', inode.nr, []) else none) := by
    rw [h.findEntry hs hf, h.entries, Function.update_self, List.findSome?_append, ← hold]
    simp only [List.findSome?_cons, List.findSome?_nil, hnr, if_false, matchName_plain h.plain, htake]
    split_ifs <;> rfl
  rw [Disk.namei, h.named hreg ha.1]
  change (if name.isEmpty = true then _ else _) = _
  rw [if_neg (by simpa using ha.2)]
  rw [hnew]
  split_ifs
  · exact congrArg (fun i => Except.ok (some i)) (h.iget _ _)
  · rfl

end Vol

end Onix
