import Onix.Fs.Path

/-! The ways to write the path of a directory, and which of them `namei` follows. -/

set_option autoImplicit false

namespace Onix

open Lib

/-- A pathname of components that single separators part, with one more at the end or not. -/
structure Spells (pathname : Name) (cs : List Name) (trailing : Bool) : Prop where
  ne : pathname ≠ []
  parts : components (relative pathname) = cs ++ if trailing then [[]] else []
  nonempty : ∀ c ∈ cs, c ≠ []

namespace Disk

/-- The walk of a pathname as it should go: each directory on the way may be searched, and the number in an entry is
one of the device that the entry is on. -/
inductive Reaches (fs : Disk) : Ino → List Name → Ino → Prop
  | nil (x : Ino) : Reaches fs x [] x
  | cons {x x' d : Ino} {c : Name} {cs : List Name} {nr : ℕ} : fs.exec x → fs.Finds x c x' nr →
      Reaches fs (fs.iget x'.dev nr) cs d → Reaches fs x (c :: cs) d

/-- Every component but the last is found on one device. -/
def OnDevice (fs : Disk) (dev : ℕ) (x : Ino) (cs : List Name) : Prop :=
  ∀ before c after y y' nr, cs = before ++ c :: after → after ≠ [] → fs.Reaches x before y → fs.Finds y c y' nr →
    y'.dev = dev

/-- `sys_stat`; the result is whether it returned 0. -/
def sysStat (fs : Disk) (task : TaskDirs) (pathname : Name) : Except Halt Bool := do
  match ← fs.namei task pathname with
  | none => .ok false
  | some _ => .ok true

/-- A pathname leads to a directory. `sys_chdir` refuses the one where the task is already. -/
structure Resolves (fs : Disk) (task : TaskDirs) (pathname : Name) (d : Ino) : Prop where
  namei : fs.namei task pathname = .ok (some d)
  stat : fs.sysStat task pathname = .ok true
  chdir : d ≠ task.ipwd → fs.sysChdir task pathname =
    (abspath task.pwd pathname).map fun pwd => (true, { task with ipwd := d, pwd := pwd })

variable {fs : Disk} {task : TaskDirs} {pathname : Name} {d : Ino}

theorem findSome_of_entry {entries : List (Name × ℕ)} {c left next : Name} {dir : Ino} {nr : ℕ}
    (hm : ∀ e ∈ entries, matchName left e.1 = if e.1 = c then some next else none)
    (h : entries.find? (fun e => decide (e.2 ≠ 0 ∧ e.1 = c)) = some (c, nr)) :
    (entries.findSome? fun entry => if entry.2 = 0 then none else
      (matchName left entry.1).map fun next => (dir, entry.2, next)) = some (dir, nr, next) := by
  induction entries with
  | nil => cases h
  | cons e entries ih =>
    have hrest := fun e he => hm e (List.mem_cons_of_mem _ he)
    rw [List.findSome?_cons, hm e (List.mem_cons_self ..)]
    rw [List.find?_cons] at h
    by_cases hlive : e.2 ≠ 0 ∧ e.1 = c
    · simp only [hlive.1, hlive.2, ne_eq, not_false_eq_true, and_self, decide_true] at h
      cases h
      simp [hlive.1]
    · rw [decide_eq_false hlive] at h
      rw [← ih hrest h]
      by_cases h0 : e.2 = 0
      · simp [h0]
      · have hc : e.1 ≠ c := fun hc => hlive ⟨h0, hc⟩
        simp [hc]

/-- What is in a directory is found by a string that begins with its name. -/
theorem Finds.findEntry {dir dir' : Ino} {left c next : Name} {nr : ℕ} (h : fs.Finds dir c dir' nr)
    (hm : ∀ n, Plain n → matchName left n = if n = c then some next else none) (hfs : fs.PlainNames) :
    fs.findEntry dir left = .ok (some (dir', nr, next)) := by
  have hs : fs.searched dir left = .ok dir' := by
    have hsearched := h.searched
    rw [Disk.searched, hm _ plain_dotdot]
    by_cases hroot : c = DOTDOT ∧ dir.nr = 1
    · rw [if_pos hroot] at hsearched
      simp [hroot.1, hroot.2, hsearched]
    · rw [if_neg hroot] at hsearched
      rw [if_neg, hsearched]
      intro hcond
      apply hroot
      by_cases hc : DOTDOT = c
      · exact ⟨hc.symm, by simpa [hc] using hcond⟩
      · simp [hc] at hcond
  rw [Disk.findEntry, h.isDir, assert_true, ok_bind, hs, ok_bind,
    findSome_of_entry (fun e he => hm e.1 (hfs dir' e he)) h.entry]

theorem components_ne_nil (path : Name) : components path ≠ [] := List.splitOnP_ne_nil _ _

theorem Reaches.dir {x : Ino} {cs : List Name} (h : fs.Reaches x cs d) (hd : fs.isDir d) : fs.isDir x := by
  cases h with
  | nil => exact hd
  | cons _ hf _ => exact hf.isDir

theorem Reaches.exec {x : Ino} {cs : List Name} (h : fs.Reaches x cs d) (hd : fs.exec d) : fs.exec x := by
  cases h with
  | nil => exact hd
  | cons he _ _ => exact he

/-- The walk to the directory of the last component, and from there on. -/
theorem Reaches.last {x : Ino} {cs : List Name} {c : Name} (h : fs.Reaches x (cs ++ [c]) d) :
    ∃ y y' nr, fs.Reaches x cs y ∧ fs.exec y ∧ fs.Finds y c y' nr ∧ d = fs.iget y'.dev nr := by
  induction cs generalizing x with
  | nil =>
    cases h with
    | cons he hf hr =>
      cases hr
      exact ⟨_, _, _, .nil _, he, hf, rfl⟩
  | cons c' cs ih =>
    cases h with
    | cons he hf hr =>
      obtain ⟨y, y', nr, hy, hlast⟩ := ih hr
      exact ⟨y, y', nr, .cons he hf hy, hlast⟩

/-- The loop of `named` follows a walk on its device to the directory of the last component. -/
theorem namedFrom_reaches (hfs : fs.PlainNames) {dev : ℕ} {dir : Ino} {name : Name} (hdir : fs.isDir dir)
    (hexec : fs.exec dir) : ∀ (rounds : ℕ) (x : Ino) (c rest : Name) (sep : Char) (cs : List Name), Plain c →
      isSeparator sep → components (c ++ sep :: rest) = c :: cs ++ [name] → fs.Reaches x (c :: cs) dir →
      fs.OnDevice dev x (c :: cs ++ [name]) → rest.length < rounds →
      fs.namedFrom dev ((strrsep rest).getD (sep :: rest)).tail rounds x (c ++ sep :: rest) = .ok
        (some (dir, name)) := by
  intro rounds
  induction rounds with
  | zero => exact fun _ _ _ _ _ _ _ _ _ _ h => absurd h (Nat.not_lt_zero _)
  | succ rounds ih =>
    intro x c rest sep cs hc hsep hparts hreach hdev hlen
    cases hreach with
    | @cons _ x' _ _ _ nr he hf hr =>
      have hx' : x'.dev = dev := hdev [] c (cs ++ [name]) x x' nr rfl (by simp) (.nil x) hf
      rw [hx'] at hr
      rw [components_split hc hsep, List.cons_append, List.cons.injEq] at hparts
      rw [namedFrom, hf.findEntry (fun n hn => matchName_split hc hn hsep) hfs, ok_bind]
      dsimp only
      rw [if_neg (by simp [hr.dir hdir, hr.exec hexec])]
      rcases plain_or_split rest with hplain | ⟨c', sep', rest', hc', hsep', rfl⟩
      · -- only a name is left
        rw [components_plain hplain] at hparts
        obtain rfl : cs = [] := by
          have := congrArg List.length hparts.2
          simpa using this
        have hname : rest = name := by simpa using hparts.2
        cases hr
        rw [strrsep_plain hplain, Option.getD_none, List.tail_cons, if_pos rfl, hname]
      · have hshort := strrsep_length rest' sep'
        rw [strrsep_split hc' hsep', Option.getD_some, if_neg (by
          rw [List.length_tail, List.length_append, List.length_cons]
          omega)]
        rw [components_split hc' hsep'] at hparts
        obtain _ | ⟨c₂, cs'⟩ := cs
        · have := congrArg List.length hparts.2
          simp [components_ne_nil] at this
        · have hc₂ : c' = c₂ := (List.cons.inj hparts.2).1
          subst hc₂
          refine ih _ c' rest' sep' cs' hc' hsep' (by rw [components_split hc' hsep', hparts.2]) hr ?_ ?_
          · intro before c₁ after y y' nr' heq hne hy hfy
            refine hdev (c :: before) c₁ after y y' nr' (by rw [List.cons_append, heq]; rfl) hne ?_ hfy
            exact .cons he hf (hx'.symm ▸ hy)
          · rw [List.length_append, List.length_cons] at hlen
            omega

/-- `named` follows the walk to the directory of the last component. -/
theorem named_reaches (hfs : fs.PlainNames) {cs : List Name} {name : Name} {dir : Ino} (hne : pathname ≠ [])
    (hname : name ≠ []) (hparts : components (relative pathname) = cs ++ [name])
    (hreach : fs.Reaches (start task pathname) cs dir) (hdir : fs.isDir dir) (hexec : fs.exec dir)
    (hdev : fs.OnDevice (start task pathname).dev (start task pathname) (cs ++ [name])) :
    fs.named task pathname = .ok (some (dir, name)) := by
  obtain _ | ⟨a, rest⟩ := pathname
  · exact absurd rfl hne
  · have hstart : start task (a :: rest) = if isSeparator a then task.iroot else task.ipwd := rfl
    have hrel : relative (a :: rest) = if isSeparator a then rest else a :: rest := rfl
    rw [hstart] at hreach hdev
    rw [hrel] at hparts
    unfold named
    dsimp only
    generalize (if isSeparator a then task.iroot else task.ipwd) = x at hreach hdev ⊢
    have hleft : (if isSeparator a then rest else a :: rest) ≠ [] := by
      intro hnil
      rw [hnil, components_plain (c := []) nofun] at hparts
      have hlast := congrArg List.getLast? hparts
      simp only [List.getLast?_singleton, List.getLast?_append, Option.some_or, Option.some.injEq] at hlast
      exact hname hlast.symm
    generalize (if isSeparator a then rest else a :: rest) = left at hparts hleft ⊢
    rw [if_neg (by simp [hleft])]
    rcases plain_or_split left with hplain | ⟨c, sep, rest', hc, hsep, rfl⟩
    · rw [components_plain hplain] at hparts
      obtain rfl : cs = [] := by
        have := congrArg List.length hparts
        simpa using this
      have hl : left = name := by simpa using hparts
      cases hreach
      rw [strrsep_plain hplain, hl]
    · rw [strrsep_split hc hsep]
      obtain _ | ⟨c₂, cs'⟩ := cs
      · rw [components_split hc hsep] at hparts
        have := congrArg List.length hparts
        simp [components_ne_nil] at this
      · have hc₂ : c = c₂ := by
          rw [components_split hc hsep, List.cons_append] at hparts
          exact (List.cons.inj hparts).1
        subst hc₂
        apply namedFrom_reaches hfs hdir hexec _ x c rest' sep cs' hc hsep hparts hreach hdev
        rw [List.length_append, List.length_cons]
        omega

/-- `namei` follows every spelling that ends in a name. -/
theorem namei_reaches (hfs : fs.PlainNames) {cs : List Name} (hs : Spells pathname cs false)
    (hreach : fs.Reaches (start task pathname) cs d)
    (hdev : fs.OnDevice (start task pathname).dev (start task pathname) cs) :
    fs.namei task pathname = .ok (some d) := by
  have hparts : components (relative pathname) = cs := by
    rw [hs.parts]
    exact List.append_nil cs
  rcases List.eq_nil_or_concat' cs with hnil | ⟨init, name, rfl⟩
  · exact absurd (hparts.trans hnil) (components_ne_nil _)
  · obtain ⟨dir, dir', nr, hdirs, hexec, hf, rfl⟩ := hreach.last
    have hname : name ≠ [] := hs.nonempty name (by simp)
    have hplain : Plain name := plain_of_mem_components (relative pathname) (by rw [hparts]; simp)
    rw [namei, named_reaches hfs hs.ne hname hparts hdirs hf.isDir hexec hdev, ok_bind]
    dsimp only
    rw [if_neg (by simpa using hname), hf.findEntry (fun n _ => matchName_plain hplain) hfs, ok_bind]

/-- It returns nothing for a spelling that ends in a separator. -/
theorem namei_trailing (hfs : fs.PlainNames) {cs : List Name} (hs : Spells pathname cs true) :
    fs.namei task pathname ≠ .ok (some d) := by
  intro h
  obtain ⟨r, hr, h⟩ := bind_ok.mp h
  cases r with
  | none => cases h
  | some r =>
    obtain ⟨dir, name⟩ := r
    obtain ⟨cs', hcs, -⟩ := named_walks hfs hr
    have hparts : components (relative pathname) = cs ++ [[]] := hs.parts
    rw [hparts] at hcs
    obtain ⟨-, hname⟩ := List.append_inj' hcs rfl
    have hname : name = [] := by simpa using hname.symm
    subst hname
    cases h

/-- A directory is found under its spellings without a separator at the end, if no device is mounted on the way. -/
theorem namei_resolves_iff (hfs : fs.PlainNames) {cs : List Name} {trailing : Bool} (hs : Spells pathname cs trailing)
    (hreach : fs.Reaches (start task pathname) cs d) (hdir : fs.isDir d) :
    (fs.Resolves task pathname d → trailing = false) ∧ (trailing = false →
      fs.OnDevice (start task pathname).dev (start task pathname) cs → fs.Resolves task pathname d) := by
  constructor
  · intro h
    by_contra ht
    have ht : trailing = true := by simpa using ht
    subst ht
    exact namei_trailing hfs hs h.namei
  · rintro rfl hdev
    have hn := namei_reaches hfs hs hreach hdev
    refine ⟨hn, by rw [sysStat, hn, ok_bind], fun hne => ?_⟩
    rw [sysChdir, hn, ok_bind]
    dsimp only
    rw [if_neg (by simp [hdir, hne])]
    cases abspath task.pwd pathname <;> rfl

/-- A root directory with one directory in it, in which there is nothing. -/
def oneDir : Disk where
  isDir _ := true
  exec _ := true
  entries inode := if inode = ⟨1, 1⟩ then [(['a'], 2)] else []
  mount _ := none
  imount _ := none

def atRoot : TaskDirs := ⟨⟨1, 1⟩, ⟨1, 1⟩, ['/']⟩

theorem oneDir_plain : oneDir.PlainNames := by
  intro dir e he
  unfold oneDir at he
  dsimp only at he
  split_ifs at he
  · rw [List.mem_singleton.mp he]
    simp [Plain, isSeparator]
  · cases he

theorem oneDir_finds : oneDir.Finds ⟨1, 1⟩ ['a'] ⟨1, 1⟩ 2 := ⟨rfl, by decide, by decide⟩

theorem namei_resolves_one : oneDir.Resolves atRoot ['/', 'a'] ⟨1, 2⟩ := by
  have hs : Spells ['/', 'a'] [['a']] false := ⟨by decide, by decide, by decide⟩
  have hreach : oneDir.Reaches (start atRoot ['/', 'a']) [['a']] ⟨1, 2⟩ := .cons rfl oneDir_finds (.nil _)
  apply (namei_resolves_iff oneDir_plain hs hreach rfl).2 rfl
  intro before c after y y' nr hcs hne
  obtain _ | ⟨b, before⟩ := before
  · rw [List.nil_append, List.cons.injEq] at hcs
    exact absurd hcs.2.symm hne
  · simp at hcs

theorem namei_unresolved : ¬ ∀ (fs : Disk) (task : TaskDirs) (pathname : Name) (cs : List Name) (trailing : Bool)
    (d : Ino), fs.PlainNames → Spells pathname cs trailing → fs.Reaches (start task pathname) cs d → fs.isDir d →
    fs.Resolves task pathname d := by
  intro h
  have hr := h oneDir atRoot ['/'] [] true ⟨1, 1⟩ oneDir_plain ⟨by decide, by decide, nofun⟩ (.nil _) rfl
  cases hr.namei

end Disk

end Onix
