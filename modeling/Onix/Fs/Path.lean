import Onix.Kernel.Task

/-! Pathnames and the walk over directories, from namei.c and the string functions it
uses. A C string is the list of its characters, and a pointer into it is the list
of those from there on. Reference counts are left out: nothing here depends on one. -/

set_option autoImplicit false

namespace Onix

open Lib

abbrev Name := List Char

/-- `IS_SEPARATOR` -/
def isSeparator (c : Char) : Bool := c = '/' || c = '\\'

/-- `strsep`: the string from its first separator on. -/
def strsep : Name → Option Name
  | [] => none
  | c :: str => if isSeparator c then some (c :: str) else strsep str

/-- `strrsep`: the string from its last separator on. -/
def strrsep : Name → Option Name
  | [] => none
  | c :: str => match strrsep str with
    | some last => some last
    | none => if isSeparator c then some (c :: str) else none

/-- `match_name`: what is left of `name` after the entry's name and a separator. -/
def matchName : Name → Name → Option Name
  | [], [] => some []
  | lhs :: next, [] => if isSeparator lhs then some next else none
  | [], _ :: _ => none
  | lhs :: name, rhs :: entryName => if lhs = rhs then matchName name entryName else none

def DOT : Name := ['.']
def DOTDOT : Name := ['.', '.']

/-- An inode by its device and number. -/
structure Ino where
  dev : ℕ
  nr : ℕ
  deriving DecidableEq, Repr

/-- What the walk reads of the inodes, the directories and the super blocks. -/
structure Disk where
  /-- `ISDIR(desc->mode)` -/
  isDir : Ino → Bool
  /-- `permission(inode, P_EXEC)` for the task -/
  exec : Ino → Bool
  /-- The `dentry_t`s of a directory; number 0 marks a free one. -/
  entries : Ino → List (Name × ℕ)
  /-- The device mounted on an inode. -/
  mount : Ino → Option ℕ
  /-- `get_super(dev)->imount` -/
  imount : ℕ → Option Ino

/-- The directories that `task_t` holds. -/
structure TaskDirs where
  iroot : Ino
  ipwd : Ino
  /-- The path of `ipwd`. -/
  pwd : Name

/-- `cur = strrsep(pwd) + 1; *cur = 0;` -/
def cutLast (pwd : Name) : Except Halt Name :=
  match strrsep pwd with
  | none => .error .nullPointer
  | some last => .ok (pwd.take (pwd.length - last.length + 1))

/-- What `abspath` does for `..`; `cur` points to the end of `pwd`. -/
def dropDir (pwd : Name) : Except Halt Name :=
  if pwd.length = 1 then .ok pwd else cutLast pwd.dropLast

/-- The loop of `abspath`, with `pwd` and what is left of the pathname; every round takes a
component with its separator. -/
def abspathFrom : ℕ → Name → Name → Except Halt (Name × Name)
  | 0, pwd, pathname => .ok (pwd, pathname)
  | rounds + 1, pwd, pathname =>
    match strsep pathname with
    | none => .ok (pwd, pathname)
    | some ptr =>
      let len := pathname.length - ptr.length + 1
      let pathname := pathname.take (len - 1) ++ '/' :: ptr.tail
      if pathname.take 2 = DOT ++ ['/'] then abspathFrom rounds pwd (pathname.drop len)
      else if pathname.take 3 = DOTDOT ++ ['/'] then do
        let pwd ← dropDir pwd
        abspathFrom rounds pwd (pathname.drop len)
      else abspathFrom rounds (pwd ++ pathname.take len) (pathname.drop len)

/-- A pathname without the separator that makes it absolute. -/
def relative (pathname : Name) : Name := if pathname.head?.any isSeparator then pathname.tail else pathname

/-- What `abspath` keeps of `pwd` before its loop. -/
def abspathBase (pwd pathname : Name) : Except Halt Name :=
  if pathname.head?.any isSeparator then .ok (pwd.take 1) else cutLast pwd

def abspath (pwd pathname : Name) : Except Halt Name := do
  let cur ← abspathBase pwd pathname
  let (pwd, pathname) ← abspathFrom (relative pathname).length cur (relative pathname)
  if pathname = [] then .ok pwd
  else if pathname = DOT then .ok pwd
  else if pathname ≠ DOTDOT then .ok (pwd ++ pathname ++ ['/'])
  else dropDir pwd

namespace Disk

/-- `iget` with its `fit_inode`, which goes on to the root of a device mounted there. -/
def iget (fs : Disk) (dev nr : ℕ) : Ino :=
  match fs.mount ⟨dev, nr⟩ with
  | none => ⟨dev, nr⟩
  | some mounted => ⟨mounted, 1⟩

/-- The directory `find_entry` searches: for `..` in the root of a device the one it is mounted on. -/
def searched (fs : Disk) (dir : Ino) (name : Name) : Except Halt Ino :=
  if (matchName name DOTDOT).isSome && dir.nr == 1 then
    match fs.imount dir.dev with
    | some inode => .ok inode
    | none => .error .nullPointer
  else .ok dir

/-- `find_entry`: the directory it ends in, the number in the entry, and the rest of the name. -/
def findEntry (fs : Disk) (dir : Ino) (name : Name) : Except Halt (Option (Ino × ℕ × Name)) := do
  assert "ISDIR(((*dir)->desc->mode))" (fs.isDir dir)
  let dir ← fs.searched dir name
  .ok ((fs.entries dir).findSome? fun entry =>
    if entry.2 = 0 then none else (matchName name entry.1).map fun next => (dir, entry.2, next))

/-- The loop of `named`; two pointers into the pathname are equal if as much follows. A round
that takes no character would repeat itself for ever. -/
def namedFrom (fs : Disk) (dev : ℕ) (right : Name) : ℕ → Ino → Name → Except Halt (Option (Ino × Name))
  | 0, _, _ => .error (.panic "named does not return")
  | rounds + 1, inode, left => do
    match ← fs.findEntry inode left with
    | none => .ok none
    | some (_, nr, next) =>
      let inode := fs.iget dev nr
      if !fs.isDir inode || !fs.exec inode then .ok none
      else if right.length = next.length then .ok (some (inode, next))
      else fs.namedFrom dev right rounds inode next

/-- `named`: the directory of the last component, and that component. -/
def named (fs : Disk) (task : TaskDirs) (pathname : Name) : Except Halt (Option (Ino × Name)) :=
  match pathname with
  | [] => .error .nullPointer
  | c :: rest =>
    let inode := if isSeparator c then task.iroot else task.ipwd
    let left := if isSeparator c then rest else c :: rest
    if isSeparator c && left.isEmpty then .ok (some (inode, left))
    else match strrsep left with
      | none => .ok (some (inode, left))
      | some right => fs.namedFrom inode.dev right.tail (left.length + 1) inode left

def namei (fs : Disk) (task : TaskDirs) (pathname : Name) : Except Halt (Option Ino) := do
  match ← fs.named task pathname with
  | none => .ok none
  | some (dir, name) =>
    if name.isEmpty then .ok none
    else match ← fs.findEntry dir name with
      | none => .ok none
      | some (dir, nr, _) => .ok (some (fs.iget dir.dev nr))

/-- `sys_chdir`; the result is whether it returned 0. -/
def sysChdir (fs : Disk) (task : TaskDirs) (pathname : Name) : Except Halt (Bool × TaskDirs) := do
  match ← fs.namei task pathname with
  | none => .ok (false, task)
  | some inode =>
    if !fs.isDir inode || inode = task.ipwd then .ok (false, task)
    else
      let pwd ← abspath task.pwd pathname
      .ok (true, { task with ipwd := inode, pwd := pwd })

def sysChroot (fs : Disk) (task : TaskDirs) (pathname : Name) : Except Halt (Bool × TaskDirs) := do
  match ← fs.namei task pathname with
  | none => .ok (false, task)
  | some inode =>
    if !fs.isDir inode || inode = task.iroot then .ok (false, task)
    else .ok (true, { task with iroot := inode })

end Disk

/-! ### Components -/

/-- A name without separators. -/
def Plain (name : Name) : Prop := ∀ c ∈ name, ¬ isSeparator c

theorem plain_dot : Plain DOT := by simp [Plain, DOT, isSeparator]

theorem plain_dotdot : Plain DOTDOT := by simp [Plain, DOTDOT, isSeparator]

/-- A string is one component, or a component with a separator and a string after it. -/
theorem plain_or_split (s : Name) : Plain s ∨ ∃ c sep rest, Plain c ∧ isSeparator sep ∧ s = c ++ sep :: rest := by
  induction s with
  | nil => exact .inl nofun
  | cons a s ih =>
    cases ha : isSeparator a with
    | true => exact .inr ⟨[], a, s, nofun, ha, rfl⟩
    | false =>
      have hcons : ∀ c, Plain c → Plain (a :: c) := fun c hc =>
        List.forall_mem_cons.mpr ⟨by simp [ha], hc⟩
      rcases ih with hs | ⟨c, sep, rest, hc, hsep, rfl⟩
      · exact .inl (hcons s hs)
      · exact .inr ⟨a :: c, sep, rest, hcons c hc, hsep, rfl⟩

theorem matchName_plain {c n : Name} (hc : Plain c) : matchName c n = if n = c then some [] else none := by
  induction c generalizing n with
  | nil =>
    cases n with
    | nil => rfl
    | cons b n => simp [matchName]
  | cons a c ih =>
    obtain ⟨ha, hc⟩ := List.forall_mem_cons.mp hc
    cases n with
    | nil => simp [matchName, ha]
    | cons b n =>
      rw [matchName, ih hc]
      by_cases hab : a = b
      · simp [hab]
      · simp [hab, Ne.symm hab]

theorem matchName_split {c n rest : Name} {sep : Char} (hc : Plain c) (hn : Plain n) (hsep : isSeparator sep) :
    matchName (c ++ sep :: rest) n = if n = c then some rest else none := by
  induction c generalizing n with
  | nil =>
    cases n with
    | nil => simp [matchName, hsep]
    | cons b n =>
      have hb : sep ≠ b := by
        rintro rfl
        exact hn _ (List.mem_cons_self ..) hsep
      simp [matchName, hb]
  | cons a c ih =>
    obtain ⟨ha, hc⟩ := List.forall_mem_cons.mp hc
    cases n with
    | nil => simp [matchName, ha]
    | cons b n =>
      rw [List.cons_append, matchName, ih hc (List.forall_mem_cons.mp hn).2]
      by_cases hab : a = b
      · simp [hab]
      · simp [hab, Ne.symm hab]

theorem strrsep_plain {c : Name} (hc : Plain c) : strrsep c = none := by
  induction c with
  | nil => rfl
  | cons a c ih =>
    obtain ⟨ha, hc⟩ := List.forall_mem_cons.mp hc
    simp [strrsep, ih hc, ha]

theorem strrsep_split {c rest : Name} {sep : Char} (hc : Plain c) (hsep : isSeparator sep) :
    strrsep (c ++ sep :: rest) = some ((strrsep rest).getD (sep :: rest)) := by
  induction c with
  | nil =>
    rw [List.nil_append, strrsep]
    cases strrsep rest <;> simp [hsep]
  | cons a c ih => simp [strrsep, ih (List.forall_mem_cons.mp hc).2]

theorem strrsep_length (s : Name) (sep : Char) : ((strrsep s).getD (sep :: s)).length ≤ s.length + 1 := by
  have hsome : ∀ (s last : Name), strrsep s = some last → last.length ≤ s.length := by
    intro s
    induction s with
    | nil => intro last h; cases h
    | cons a s ih =>
      intro last h
      rw [strrsep] at h
      split at h
      · rename_i l hl
        cases h
        exact (ih _ hl).trans (Nat.le_succ _)
      · split_ifs at h
        cases h
        exact le_rfl
  cases h : strrsep s with
  | none => exact le_rfl
  | some last => exact (hsome s last h).trans (Nat.le_succ _)

def components (path : Name) : List Name := path.splitOnP isSeparator

theorem components_plain {c : Name} (hc : Plain c) : components c = [c] :=
  List.splitOnP_eq_singleton fun x hx => by simpa using hc x hx

theorem components_split {c rest : Name} {sep : Char} (hc : Plain c) (hsep : isSeparator sep) :
    components (c ++ sep :: rest) = c :: components rest :=
  List.splitOnP_append_cons_of_forall_mem (fun x hx => by simpa using hc x hx) sep hsep rest

theorem plain_of_mem_components (path : Name) {c : Name} (h : c ∈ components path) : Plain c := by
  induction hn : path.length using Nat.strong_induction_on generalizing path with
  | _ n ih =>
    rcases plain_or_split path with hplain | ⟨c', sep, rest, hc', hsep, rfl⟩
    · rw [components_plain hplain, List.mem_singleton] at h
      rwa [h]
    · rw [components_split hc' hsep, List.mem_cons] at h
      rcases h with rfl | h
      · exact hc'
      · refine ih rest.length ?_ rest h rfl
        rw [← hn, List.length_append, List.length_cons]
        omega

namespace Disk

variable {fs : Disk}

/-- `find_entry` finds the name `c` in `dir`, by an entry of `dir'` with the number `nr`. -/
structure Finds (fs : Disk) (dir : Ino) (c : Name) (dir' : Ino) (nr : ℕ) : Prop where
  isDir : fs.isDir dir
  searched : if c = DOTDOT ∧ dir.nr = 1 then fs.imount dir.dev = some dir' else dir' = dir
  entry : (fs.entries dir').find? (fun e => decide (e.2 ≠ 0 ∧ e.1 = c)) = some (c, nr)

/-- No name in a directory has a separator in it: `add_entry` asserts that. -/
def PlainNames (fs : Disk) : Prop := ∀ dir, ∀ e ∈ fs.entries dir, Plain e.1

theorem findSome_entry {entries : List (Name × ℕ)} {c left next₀ : Name} {dir dir₁ : Ino} {nr : ℕ} {next : Name}
    (hm : ∀ e ∈ entries, matchName left e.1 = if e.1 = c then some next₀ else none)
    (h : (entries.findSome? fun entry => if entry.2 = 0 then none else
      (matchName left entry.1).map fun next => (dir, entry.2, next)) = some (dir₁, nr, next)) :
    dir₁ = dir ∧ next = next₀ ∧ entries.find? (fun e => decide (e.2 ≠ 0 ∧ e.1 = c)) = some (c, nr) := by
  induction entries with
  | nil => cases h
  | cons e entries ih =>
    have hrest := fun e he => hm e (List.mem_cons_of_mem _ he)
    rw [List.findSome?_cons, hm e (List.mem_cons_self ..)] at h
    rw [List.find?_cons]
    by_cases h0 : e.2 = 0
    · simp only [h0, if_true] at h
      simpa [h0] using ih hrest h
    · by_cases hc : e.1 = c
      · simp only [h0, hc, if_true, if_false, Option.map_some] at h
        cases h
        obtain ⟨n, k⟩ := e
        have hn : n = c := hc
        subst hn
        have h0 : k ≠ 0 := h0
        simp [h0]
      · simp only [h0, hc, if_false, Option.map_none] at h
        simpa [h0, hc] using ih hrest h

/-- The name that `find_entry` looks for is the first component of the string it is given. -/
theorem findEntry_finds {dir dir' : Ino} {left c next₀ next : Name} {nr : ℕ}
    (hm : ∀ n, Plain n → matchName left n = if n = c then some next₀ else none) (hfs : fs.PlainNames)
    (h : fs.findEntry dir left = .ok (some (dir', nr, next))) : fs.Finds dir c dir' nr ∧ next = next₀ := by
  unfold findEntry at h
  obtain ⟨_, hdir, h⟩ := bind_ok.mp h
  obtain ⟨dir₁, hs, h⟩ := bind_ok.mp h
  have hdir : fs.isDir dir := assert_ok.mp hdir
  obtain ⟨rfl, rfl, hentry⟩ := findSome_entry (fun e he => hm e.1 (hfs dir₁ e he)) (Except.ok.inj h)
  refine ⟨⟨hdir, ?_, hentry⟩, rfl⟩
  unfold searched at hs
  rw [hm _ plain_dotdot] at hs
  by_cases hc : c = DOTDOT
  · subst hc
    by_cases hnr : dir.nr = 1
    · simp only [if_true, hnr, Option.isSome_some, beq_self_eq_true, Bool.and_self] at hs
      rw [if_pos ⟨rfl, hnr⟩]
      split at hs
      · rename_i inode hi
        cases hs
        exact hi
      · cases hs
    · simp [hnr] at hs
      rw [if_neg fun hc => hnr hc.2, hs]
  · simp [Ne.symm hc] at hs
    rw [if_neg fun h => hc h.1, hs]

/-- The walk of `named` from `x` over some components to `y`; every inode is read from `dev`. -/
inductive Walks (fs : Disk) (dev : ℕ) (x : Ino) : List Name → Ino → Prop
  | nil : Walks fs dev x [] x
  | snoc {cs : List Name} {c : Name} {y y' : Ino} {nr : ℕ} : Walks fs dev x cs y → fs.Finds y c y' nr →
      fs.isDir (fs.iget dev nr) → Walks fs dev x (cs ++ [c]) (fs.iget dev nr)

theorem Walks.trans {dev : ℕ} {x y z : Ino} {cs cs' : List Name} (h : fs.Walks dev x cs y) (h' : fs.Walks dev y cs' z) :
    fs.Walks dev x (cs ++ cs') z := by
  induction h' with
  | nil => rwa [List.append_nil]
  | snoc _ hf hd ih =>
    rw [← List.append_assoc]
    exact ih.snoc hf hd

/-- What the loop of `named` returns: the end of a walk over all components but the last. -/
theorem namedFrom_walks (hfs : fs.PlainNames) {dev : ℕ} {dir : Ino} {name : Name} :
    ∀ (rounds : ℕ) (inode : Ino) (c rest : Name) (sep : Char), Plain c → isSeparator sep →
      fs.namedFrom dev ((strrsep rest).getD (sep :: rest)).tail rounds inode (c ++ sep :: rest) = .ok (some (dir, name)) →
      ∃ cs, components (c ++ sep :: rest) = cs ++ [name] ∧ cs ≠ [] ∧ fs.Walks dev inode cs dir := by
  intro rounds
  induction rounds with
  | zero =>
    intro inode c rest sep _ _ h
    cases h
  | succ rounds ih =>
    intro inode c rest sep hc hsep h
    rw [namedFrom] at h
    obtain ⟨r, hr, h⟩ := bind_ok.mp h
    cases r with
    | none => cases h
    | some r =>
      obtain ⟨dir₁, nr, next⟩ := r
      obtain ⟨hfinds, rfl⟩ := findEntry_finds (fun n hn => matchName_split hc hn hsep) hfs hr
      dsimp only at h
      split_ifs at h with hdir hend
      · cases h
      · -- `right` points to the character after the separator, so nothing but a name is left
        cases h
        have hdir : fs.isDir (fs.iget dev nr) := by simp_all
        rw [components_split hc hsep]
        rcases plain_or_split name with hplain | ⟨c', sep', rest', hc', hsep', rfl⟩
        · rw [components_plain hplain]
          exact ⟨[c], rfl, nofun, Walks.nil.snoc hfinds hdir⟩
        · have hlen := strrsep_length rest' sep'
          rw [strrsep_split hc' hsep', Option.getD_some, List.length_tail, List.length_append, List.length_cons] at hend
          omega
      · have hdir : fs.isDir (fs.iget dev nr) := by simp_all
        rw [components_split hc hsep]
        rcases plain_or_split next with hplain | ⟨c', sep', rest', hc', hsep', rfl⟩
        · rw [strrsep_plain hplain] at hend
          exact absurd rfl hend
        · rw [strrsep_split hc' hsep', Option.getD_some] at h
          obtain ⟨cs, hcs, -, hwalk⟩ := ih _ c' rest' sep' hc' hsep' h
          refine ⟨c :: cs, by rw [hcs, List.cons_append], nofun, ?_⟩
          exact (Walks.nil.snoc hfinds hdir).trans hwalk

/-- The directory from which `named` walks. -/
def start (task : TaskDirs) (pathname : Name) : Ino := if pathname.head?.any isSeparator then task.iroot else task.ipwd

theorem named_walks (hfs : fs.PlainNames) {task : TaskDirs} {pathname name : Name} {dir : Ino}
    (h : fs.named task pathname = .ok (some (dir, name))) :
    ∃ cs, components (relative pathname) = cs ++ [name] ∧
      fs.Walks (start task pathname).dev (start task pathname) cs dir := by
  cases pathname with
  | nil => cases h
  | cons c rest =>
    have hstart : start task (c :: rest) = if isSeparator c then task.iroot else task.ipwd := rfl
    have hrel : relative (c :: rest) = if isSeparator c then rest else c :: rest := rfl
    rw [hstart, hrel]
    unfold named at h
    dsimp only at h
    generalize (if isSeparator c then task.iroot else task.ipwd) = inode at h ⊢
    generalize (if isSeparator c then rest else c :: rest) = left at h ⊢
    split_ifs at h with hempty
    · cases h
      have hnil : name = [] := by simp_all
      subst hnil
      exact ⟨[], components_plain nofun, .nil⟩
    · rcases plain_or_split left with hplain | ⟨c', sep, rest', hc', hsep, rfl⟩
      · rw [strrsep_plain hplain] at h
        cases h
        exact ⟨[], components_plain hplain, .nil⟩
      · rw [strrsep_split hc' hsep] at h
        obtain ⟨cs, hcs, -, hwalk⟩ := namedFrom_walks hfs _ _ c' rest' sep hc' hsep h
        exact ⟨cs, hcs, hwalk⟩

theorem namei_walks (hfs : fs.PlainNames) {task : TaskDirs} {pathname : Name} {inode : Ino}
    (h : fs.namei task pathname = .ok (some inode)) :
    ∃ cs name dir dir' nr, components (relative pathname) = cs ++ [name] ∧
      fs.Walks (start task pathname).dev (start task pathname) cs dir ∧ fs.Finds dir name dir' nr ∧
      inode = fs.iget dir'.dev nr := by
  unfold namei at h
  obtain ⟨r, hr, h⟩ := bind_ok.mp h
  cases r with
  | none => cases h
  | some r =>
    obtain ⟨dir, name⟩ := r
    dsimp only at h
    split_ifs at h
    · cases h
    · obtain ⟨r, hfound, h⟩ := bind_ok.mp h
      cases r with
      | none => cases h
      | some r =>
        obtain ⟨dir', nr, next⟩ := r
        cases h
        obtain ⟨cs, hcs, hwalk⟩ := named_walks hfs hr
        have hplain : Plain name :=
          plain_of_mem_components _ (hcs ▸ List.mem_append_right cs (List.mem_singleton_self name))
        obtain ⟨hfinds, -⟩ := findEntry_finds (fun n _ => matchName_plain hplain) hfs hfound
        exact ⟨cs, name, dir, dir', nr, hcs, hwalk, hfinds, rfl⟩

/-- `get_super` finds a super block with its `imount` for the device of every directory. -/
def Supers (fs : Disk) : Prop := ∀ dir, fs.isDir dir → ∃ inode, fs.imount dir.dev = some inode

theorem findEntry_returns (hsup : fs.Supers) {dir : Ino} (hdir : fs.isDir dir) (left : Name) :
    ∃ r, fs.findEntry dir left = .ok r := by
  obtain ⟨inode, hinode⟩ := hsup dir hdir
  have hs : ∃ dir', fs.searched dir left = .ok dir' := by
    unfold searched
    split_ifs
    · exact ⟨inode, by rw [hinode]⟩
    · exact ⟨dir, rfl⟩
  obtain ⟨dir', hs⟩ := hs
  unfold findEntry
  rw [hdir, assert_true, ok_bind, hs]
  exact ⟨_, rfl⟩

/-- Every round of `named` takes a component, so it returns. -/
theorem namedFrom_returns (hfs : fs.PlainNames) (hsup : fs.Supers) {dev : ℕ} :
    ∀ (rounds : ℕ) (inode : Ino) (c rest : Name) (sep : Char), Plain c → isSeparator sep → fs.isDir inode →
      rest.length < rounds →
      ∃ r, fs.namedFrom dev ((strrsep rest).getD (sep :: rest)).tail rounds inode (c ++ sep :: rest) = .ok r := by
  intro rounds
  induction rounds with
  | zero => exact fun _ _ _ _ _ _ _ h => absurd h (Nat.not_lt_zero _)
  | succ rounds ih =>
    intro inode c rest sep hc hsep hdir hlen
    obtain ⟨r, hr⟩ := findEntry_returns hsup hdir (c ++ sep :: rest)
    rw [namedFrom, hr, ok_bind]
    cases r with
    | none => exact ⟨none, rfl⟩
    | some r =>
      obtain ⟨dir, nr, next⟩ := r
      obtain ⟨-, rfl⟩ := findEntry_finds (fun n hn => matchName_split hc hn hsep) hfs hr
      dsimp only
      split_ifs with hd hend
      · exact ⟨none, rfl⟩
      · exact ⟨_, rfl⟩
      · have hd : fs.isDir (fs.iget dev nr) := by simp_all
        rcases plain_or_split next with hplain | ⟨c', sep', rest', hc', hsep', rfl⟩
        · rw [strrsep_plain hplain] at hend
          exact absurd rfl hend
        · rw [strrsep_split hc' hsep', Option.getD_some]
          rw [List.length_append, List.length_cons] at hlen
          exact ih _ c' rest' sep' hc' hsep' hd (by omega)

theorem named_returns (hfs : fs.PlainNames) (hsup : fs.Supers) {task : TaskDirs} {pathname : Name} (hne : pathname ≠ [])
    (hstart : fs.isDir (start task pathname)) : ∃ r, fs.named task pathname = .ok r := by
  cases pathname with
  | nil => exact absurd rfl hne
  | cons c rest =>
    have heq : start task (c :: rest) = if isSeparator c then task.iroot else task.ipwd := rfl
    rw [heq] at hstart
    unfold named
    dsimp only
    generalize (if isSeparator c then task.iroot else task.ipwd) = inode at hstart ⊢
    generalize (if isSeparator c then rest else c :: rest) = left
    split_ifs
    · exact ⟨_, rfl⟩
    · rcases plain_or_split left with hplain | ⟨c', sep, rest', hc', hsep, rfl⟩
      · rw [strrsep_plain hplain]
        exact ⟨_, rfl⟩
      · rw [strrsep_split hc' hsep]
        apply namedFrom_returns hfs hsup _ _ c' rest' sep hc' hsep hstart
        rw [List.length_append, List.length_cons]
        omega

theorem Walks.isDir {dev : ℕ} {x y : Ino} {cs : List Name} (h : fs.Walks dev x cs y) (hx : fs.isDir x) : fs.isDir y := by
  cases h with
  | nil => exact hx
  | snoc _ _ hd => exact hd

theorem namei_returns (hfs : fs.PlainNames) (hsup : fs.Supers) {task : TaskDirs} {pathname : Name} (hne : pathname ≠ [])
    (hstart : fs.isDir (start task pathname)) : ∃ r, fs.namei task pathname = .ok r := by
  obtain ⟨r, hr⟩ := named_returns hfs hsup hne hstart
  unfold namei
  rw [hr, ok_bind]
  cases r with
  | none => exact ⟨none, rfl⟩
  | some r =>
    obtain ⟨dir, name⟩ := r
    obtain ⟨cs, -, hwalk⟩ := named_walks hfs hr
    dsimp only
    split_ifs
    · exact ⟨none, rfl⟩
    · obtain ⟨r', hr'⟩ := findEntry_returns hsup (hwalk.isDir hstart) name
      rw [hr', ok_bind]
      cases r' with
      | none => exact ⟨none, rfl⟩
      | some _ => exact ⟨_, rfl⟩

end Disk
end Onix
