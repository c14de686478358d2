import Onix.Fs.Path
import Onix.Lib.Transition

/-! The path that a task keeps of its current directory. `abspath` edits it by the text of
a pathname, while `namei` follows the `.` and `..` that the directories hold; both do the
same to the list of names that leads from the root to the current directory. The page
that holds the path has no end here, so the results are about paths that fit into it. -/

set_option autoImplicit false

namespace Onix

open Lib

/-- A name of a directory other than the two it has for itself and its parent. -/
structure Proper (c : Name) : Prop where
  ne : c ≠ []
  plain : Plain c
  dot : c ≠ DOT
  dotdot : c ≠ DOTDOT

/-- The path of the directory that the names lead to. -/
def render (cs : List Name) : Name := '/' :: cs.flatMap fun c => c ++ ['/']

/-- What a component of a pathname does to the names that lead to a directory. -/
def move (cs : List Name) (c : Name) : List Name :=
  if c = DOT then cs else if c = DOTDOT then cs.dropLast else cs ++ [c]

/-- The names in a path, which a separator begins, ends and parts. -/
def names (pwd : Name) : List Name := (components pwd).filter fun c => decide (c ≠ [])

/-! ### The text of a path -/

theorem render_snoc (cs : List Name) (c : Name) : render (cs ++ [c]) = render cs ++ (c ++ ['/']) := by
  simp [render]

/-- A path ends with a separator. -/
theorem render_eq (cs : List Name) : ∃ s, render cs = s ++ ['/'] := by
  induction cs using List.reverseRecOn with
  | nil => exact ⟨[], rfl⟩
  | append_singleton cs c _ => exact ⟨render cs ++ c, by rw [render_snoc, List.append_assoc]⟩

theorem strrsep_append {c : Name} (s : Name) {sep : Char} (hc : Plain c) (hsep : isSeparator sep) :
    strrsep (s ++ sep :: c) = some (sep :: c) := by
  induction s with
  | nil => simp [strrsep, strrsep_plain hc, hsep]
  | cons a s ih => rw [List.cons_append, strrsep, ih]

theorem strsep_plain {c : Name} (hc : Plain c) : strsep c = none := by
  induction c with
  | nil => rfl
  | cons a c ih =>
    obtain ⟨ha, hc⟩ := List.forall_mem_cons.mp hc
    simp [strsep, ih hc, ha]

theorem strsep_split {c rest : Name} {sep : Char} (hc : Plain c) (hsep : isSeparator sep) :
    strsep (c ++ sep :: rest) = some (sep :: rest) := by
  induction c with
  | nil => simp [strsep, hsep]
  | cons a c ih =>
    obtain ⟨ha, hc⟩ := List.forall_mem_cons.mp hc
    simp [strsep, ih hc, ha]

theorem cutLast_snoc {s c : Name} {sep : Char} (hc : Plain c) (hsep : isSeparator sep) :
    cutLast (s ++ sep :: c) = .ok (s ++ [sep]) := by
  unfold cutLast
  rw [strrsep_append s hc hsep]
  have hlen : (s ++ sep :: c).length - (sep :: c).length + 1 = s.length + 1 := by simp
  dsimp only
  rw [hlen, List.take_length_add_append]
  rfl

theorem cutLast_render (cs : List Name) : cutLast (render cs) = .ok (render cs) := by
  obtain ⟨s, hs⟩ := render_eq cs
  rw [hs]
  exact cutLast_snoc nofun (by decide)

/-- `..` takes the last name off a path, and leaves the path of the root as it is. -/
theorem dropDir_render {cs : List Name} (hcs : ∀ c ∈ cs, Plain c) : dropDir (render cs) = .ok (render cs.dropLast) := by
  induction cs using List.reverseRecOn with
  | nil => rfl
  | append_singleton cs c _ =>
    obtain ⟨s, hs⟩ := render_eq cs
    have hlong : (render (cs ++ [c])).length ≠ 1 := by
      rw [render_snoc, hs]
      simp only [List.length_append, List.length_singleton]
      omega
    have hlast : (render (cs ++ [c])).dropLast = s ++ '/' :: c := by
      rw [render_snoc, ← List.append_assoc, List.dropLast_concat, hs, List.append_assoc, List.singleton_append]
    unfold dropDir
    rw [if_neg hlong, hlast, List.dropLast_concat, hs]
    exact cutLast_snoc (hcs c (List.mem_append_right _ (List.mem_singleton_self c))) (by decide)

/-- The comparison of `abspath` with `./` and `../` is one of the next component. -/
theorem take_component {c d rest : Name} (hc : Plain c) (hd : Plain d) :
    (c ++ '/' :: rest).take (d.length + 1) = d ++ ['/'] ↔ c = d := by
  have hsep : isSeparator '/' := by decide
  induction c generalizing d with
  | nil =>
    cases d with
    | nil => simp
    | cons b d =>
      have hb : '/' ≠ b := by
        rintro rfl
        exact hd _ (List.mem_cons_self ..) hsep
      simp [hb]
  | cons a c ih =>
    obtain ⟨ha, hc⟩ := List.forall_mem_cons.mp hc
    cases d with
    | nil =>
      have ha' : a ≠ '/' := by
        rintro rfl
        exact ha hsep
      simp [ha']
    | cons b d =>
      simp only [List.cons_append, List.length_cons, List.take_succ_cons, List.cons.injEq]
      exact and_congr_right fun _ => ih hc (List.forall_mem_cons.mp hd).2

theorem move_plain {cs : List Name} {c : Name} (hcs : ∀ k ∈ cs, Plain k) (hc : Plain c) : ∀ k ∈ move cs c, Plain k := by
  unfold move
  split_ifs
  · exact hcs
  · exact fun k hk => hcs k (List.mem_of_mem_dropLast hk)
  · intro k hk
    rcases List.mem_append.mp hk with hk | hk
    · exact hcs k hk
    · exact List.mem_singleton.mp hk ▸ hc

/-- One round of the loop of `abspath`. -/
theorem abspathFrom_split {cs : List Name} {c rest : Name} {sep : Char} (rounds : ℕ) (hcs : ∀ k ∈ cs, Plain k)
    (hc : Plain c) (hsep : isSeparator sep) :
    abspathFrom (rounds + 1) (render cs) (c ++ sep :: rest) = abspathFrom rounds (render (move cs c)) rest := by
  have hlen : (c ++ sep :: rest).length - (sep :: rest).length + 1 = c.length + 1 := by simp
  have hname : (c ++ sep :: rest).take c.length = c := List.take_left
  have htake : (c ++ '/' :: rest).take (c.length + 1) = c ++ ['/'] := (take_component hc hc).mpr rfl
  have hdrop : (c ++ '/' :: rest).drop (c.length + 1) = rest := by simp [List.drop_append]
  have hdot : (c ++ '/' :: rest).take 2 = DOT ++ ['/'] ↔ c = DOT := take_component hc plain_dot
  have hdotdot : (c ++ '/' :: rest).take 3 = DOTDOT ++ ['/'] ↔ c = DOTDOT := take_component hc plain_dotdot
  rw [abspathFrom, strsep_split hc hsep]
  dsimp only
  rw [hlen, Nat.add_sub_cancel, hname, List.tail_cons, hdrop, htake]
  simp only [hdot, hdotdot]
  unfold move
  split_ifs with h h'
  · rfl
  · rw [dropDir_render hcs]
    rfl
  · rw [render_snoc]

/-- The loop of `abspath` makes the moves of all components but the last. -/
theorem abspathFrom_components (path : Name) : ∃ ks last, components path = ks ++ [last] ∧
    ∀ (rounds : ℕ) (cs : List Name), path.length ≤ rounds → (∀ k ∈ cs, Plain k) →
      abspathFrom rounds (render cs) path = .ok (render (ks.foldl move cs), last) := by
  induction hn : path.length using Nat.strong_induction_on generalizing path with
  | _ n ih =>
    subst hn
    rcases plain_or_split path with hplain | ⟨c, sep, rest, hc, hsep, rfl⟩
    · refine ⟨[], path, components_plain hplain, fun rounds cs _ _ => ?_⟩
      cases rounds with
      | zero => rfl
      | succ rounds =>
        rw [abspathFrom, strsep_plain hplain]
        rfl
    · have hlen : (c ++ sep :: rest).length = c.length + rest.length + 1 := by simp [Nat.add_assoc]
      obtain ⟨ks, last, hks, hrest⟩ := ih rest.length (by omega) rest rfl
      refine ⟨c :: ks, last, by rw [components_split hc hsep, hks, List.cons_append], fun rounds cs hr hcs => ?_⟩
      obtain ⟨rounds, rfl⟩ : ∃ r, rounds = r + 1 := ⟨rounds - 1, by omega⟩
      rw [abspathFrom_split rounds hcs hc hsep]
      exact hrest rounds _ (by omega) (move_plain hcs hc)

theorem foldl_move_plain {cs ks : List Name} (hcs : ∀ k ∈ cs, Plain k) (hks : ∀ k ∈ ks, Plain k) :
    ∀ k ∈ ks.foldl move cs, Plain k := by
  induction ks generalizing cs with
  | nil => exact hcs
  | cons c ks ih =>
    obtain ⟨hc, hks⟩ := List.forall_mem_cons.mp hks
    exact ih (move_plain hcs hc) hks

/-- `abspath` makes the moves of the components of a pathname, from the root if a separator
begins it. -/
theorem abspath_render {cs : List Name} {path : Name} (hcs : ∀ k ∈ cs, Plain k) (hpath : [] ∉ components (relative path)) :
    abspath (render cs) path =
      .ok (render ((components (relative path)).foldl move (if path.head?.any isSeparator then [] else cs))) := by
  obtain ⟨ks, last, hks, hloop⟩ := abspathFrom_components (relative path)
  have hplain : ∀ k ∈ ks ++ [last], Plain k := fun k hk => plain_of_mem_components _ (hks ▸ hk)
  have hlast : last ≠ [] := fun h => hpath (by rw [hks, h]; exact List.mem_append_right _ (List.mem_singleton_self _))
  have hbase : ∀ k ∈ (if path.head?.any isSeparator then [] else cs), Plain k := by
    split_ifs
    · nofun
    · exact hcs
  have hcur : abspathBase (render cs) path = .ok (render (if path.head?.any isSeparator then [] else cs)) := by
    unfold abspathBase
    split_ifs
    · rfl
    · exact cutLast_render cs
  have hmoved := foldl_move_plain hbase fun k hk => hplain k (List.mem_append_left _ hk)
  rw [hks, List.foldl_append, List.foldl_cons, List.foldl_nil]
  generalize (if path.head?.any isSeparator then ([] : List Name) else cs) = base at *
  unfold abspath
  rw [hcur]
  change (abspathFrom (relative path).length (render base) (relative path) >>= _) = _
  rw [hloop _ _ le_rfl hbase]
  change (if last = [] then _ else _) = _
  rw [if_neg hlast]
  generalize ks.foldl move base = moved at hmoved ⊢
  unfold move
  by_cases hdot : last = DOT
  · rw [if_pos hdot, if_pos hdot]
  · rw [if_neg hdot, if_neg hdot]
    by_cases hdotdot : last = DOTDOT
    · rw [if_neg (not_not_intro hdotdot), if_pos hdotdot]
      exact dropDir_render hmoved
    · rw [if_pos hdotdot, if_neg hdotdot, render_snoc, List.append_assoc]

theorem components_render {cs : List Name} (hcs : ∀ c ∈ cs, Plain c) : components (render cs) = [] :: cs ++ [[]] := by
  have hsep : isSeparator '/' := by decide
  have hrest : components (cs.flatMap fun c => c ++ ['/']) = cs ++ [[]] := by
    induction cs with
    | nil => exact components_plain nofun
    | cons c cs ih =>
      obtain ⟨hc, hcs⟩ := List.forall_mem_cons.mp hcs
      rw [List.flatMap_cons, List.append_assoc, List.singleton_append, components_split hc hsep, ih hcs, List.cons_append]
  have hrender : render cs = [] ++ '/' :: cs.flatMap fun c => c ++ ['/'] := rfl
  rw [hrender, components_split (List.forall_mem_nil _) hsep, hrest, List.cons_append]

theorem names_render {cs : List Name} (hcs : ∀ c ∈ cs, Proper c) : names (render cs) = cs := by
  have hfilter : cs.filter (fun c => decide (c ≠ [])) = cs :=
    List.filter_eq_self.mpr fun c hc => decide_eq_true (hcs c hc).ne
  unfold names
  rw [components_render fun c hc => (hcs c hc).plain, List.filter_append, List.filter_cons_of_neg (by simp), hfilter]
  simp

/-! ### The directories along a path -/

namespace Disk

/-- The directories of one file system make a tree with `.` and `..` in it, as `sys_mkdir` and
`devmkfs` write them. -/
structure Tree (fs : Disk) (root : Ino) : Prop where
  nr : root.nr = 1
  isDir : fs.isDir root
  one : ∀ dir, fs.isDir dir → dir.dev = root.dev
  unmounted : ∀ inode, fs.mount inode = none
  imount : fs.imount root.dev = some root
  plain : fs.PlainNames
  named : ∀ dir, ∀ e ∈ fs.entries dir, e.2 ≠ 0 → e.1 ≠ []
  dot : ∀ {dir dir' : Ino} {nr : ℕ}, fs.Finds dir DOT dir' nr → ⟨dir'.dev, nr⟩ = dir
  dotdot : ∀ {dir dir' child child' : Ino} {c : Name} {nr nr' : ℕ}, fs.Finds dir c dir' nr → c ≠ DOT → c ≠ DOTDOT →
    child = ⟨dir'.dev, nr⟩ → fs.Finds child DOTDOT child' nr' → ⟨child'.dev, nr'⟩ = dir
  rootdot : ∀ {dir' : Ino} {nr : ℕ}, fs.Finds root DOTDOT dir' nr → ⟨dir'.dev, nr⟩ = root

/-- Every directory that a name leads to in `fs` is still there by that name in `fs'`. -/
def Keeps (fs fs' : Disk) : Prop :=
  ∀ {dir dir' : Ino} {c : Name} {nr : ℕ}, fs.Finds dir c dir' nr → fs.isDir ⟨dir'.dev, nr⟩ →
    fs'.Finds dir c dir' nr ∧ fs'.isDir ⟨dir'.dev, nr⟩

variable {fs fs' : Disk} {root : Ino}

theorem Tree.iget (ht : fs.Tree root) (dev nr : ℕ) : fs.iget dev nr = ⟨dev, nr⟩ := by
  unfold Disk.iget
  rw [ht.unmounted]

theorem Finds.det {dir d₁ d₂ : Ino} {c : Name} {n₁ n₂ : ℕ} (h₁ : fs.Finds dir c d₁ n₁) (h₂ : fs.Finds dir c d₂ n₂) :
    d₁ = d₂ ∧ n₁ = n₂ := by
  have hd : d₁ = d₂ := by
    have hs₁ := h₁.searched
    have hs₂ := h₂.searched
    split_ifs at hs₁ hs₂
    · exact Option.some.inj (hs₁.symm.trans hs₂)
    · exact hs₁.trans hs₂.symm
  subst hd
  exact ⟨rfl, congrArg Prod.snd (Option.some.inj (h₁.entry.symm.trans h₂.entry))⟩

theorem Walks.det {dev : ℕ} {x y z : Ino} {cs : List Name} (h₁ : fs.Walks dev x cs y) (h₂ : fs.Walks dev x cs z) : y = z := by
  induction h₁ generalizing z with
  | nil =>
    generalize hcs : ([] : List Name) = cs at h₂
    cases h₂ with
    | nil => rfl
    | snoc _ _ _ => simp at hcs
  | @snoc cs c _ _ _ _ hf _ ih =>
    generalize hcs : cs ++ [c] = cs' at h₂
    cases h₂ with
    | nil => simp at hcs
    | snoc hw hf' _ =>
      obtain ⟨rfl, hc⟩ := List.append_inj' hcs rfl
      cases hc
      cases ih hw
      rw [(hf.det hf').2]

/-- A name found in a directory is one of its entries. -/
theorem Finds.mem {dir dir' : Ino} {c : Name} {nr : ℕ} (h : fs.Finds dir c dir' nr) : (c, nr) ∈ fs.entries dir' ∧ nr ≠ 0 := by
  have hp := List.find?_some h.entry
  exact ⟨List.mem_of_find?_eq_some h.entry, (of_decide_eq_true hp).1⟩

theorem Tree.finds_ne (ht : fs.Tree root) {dir dir' : Ino} {c : Name} {nr : ℕ} (h : fs.Finds dir c dir' nr) : c ≠ [] :=
  ht.named dir' _ h.mem.1 h.mem.2

theorem Tree.proper (ht : fs.Tree root) {dir dir' : Ino} {c : Name} {nr : ℕ} (h : fs.Finds dir c dir' nr) (hdot : c ≠ DOT)
    (hdotdot : c ≠ DOTDOT) : Proper c :=
  ⟨ht.finds_ne h, ht.plain dir' _ h.mem.1, hdot, hdotdot⟩

theorem Tree.named_ne (ht : fs.Tree root) {dev : ℕ} {x y : Ino} {cs : List Name} (h : fs.Walks dev x cs y) : [] ∉ cs := by
  induction h with
  | nil => exact List.not_mem_nil
  | snoc _ hf _ ih =>
    rw [List.mem_append, List.mem_singleton, not_or]
    exact ⟨ih, (ht.finds_ne hf).symm⟩

/-- `find_entry` stays on the device. -/
theorem Tree.dev (ht : fs.Tree root) {dir dir' : Ino} {c : Name} {nr : ℕ} (h : fs.Finds dir c dir' nr)
    (hdir : dir.dev = root.dev) : dir'.dev = root.dev := by
  have hs := h.searched
  split_ifs at hs
  · rw [hdir, ht.imount] at hs
    rw [← Option.some.inj hs]
  · rw [hs, hdir]

theorem Tree.walks_dev (ht : fs.Tree root) {x y : Ino} {cs : List Name} (h : fs.Walks root.dev x cs y)
    (hx : x.dev = root.dev) : y.dev = root.dev := by
  cases h with
  | nil => exact hx
  | snoc => rw [ht.iget]

theorem Walks.mono (ht : fs.Tree root) (ht' : fs'.Tree root) (hk : fs.Keeps fs') {x y : Ino} {cs : List Name}
    (hx : x.dev = root.dev) (h : fs.Walks root.dev x cs y) : fs'.Walks root.dev x cs y := by
  induction h with
  | nil => exact .nil
  | @snoc cs c y y' nr hw hf hd ih =>
    have hdev := ht.dev hf (ht.walks_dev hw hx)
    rw [ht.iget] at hd ⊢
    obtain ⟨hf', hd'⟩ := hk hf (hdev ▸ hd)
    rw [← ht'.iget]
    exact ih.snoc hf' (by rw [ht'.iget, ← hdev]; exact hd')

/-- A directory found from one that `cs` leads to is the one that the moved names lead to. -/
theorem Tree.walks_move (ht : fs.Tree root) {x x' : Ino} {cs : List Name} {c : Name} {nr : ℕ} (hcs : ∀ k ∈ cs, Proper k)
    (hw : fs.Walks root.dev root cs x) (hf : fs.Finds x c x' nr) (hd : fs.isDir (fs.iget root.dev nr)) :
    (∀ k ∈ move cs c, Proper k) ∧ fs.Walks root.dev root (move cs c) (fs.iget root.dev nr) := by
  have hdev := ht.dev hf (ht.walks_dev hw rfl)
  have hend : fs.iget root.dev nr = ⟨x'.dev, nr⟩ := by rw [ht.iget, hdev]
  unfold move
  split_ifs with hdot hdotdot
  · subst hdot
    refine ⟨hcs, ?_⟩
    rw [hend, ht.dot hf]
    exact hw
  · subst hdotdot
    refine ⟨fun k hk => hcs k (List.mem_of_mem_dropLast hk), ?_⟩
    cases hw with
    | nil =>
      rw [hend, ht.rootdot hf]
      exact .nil
    | @snoc cs k p p' m hw hf' hd' =>
      have hk := hcs k (List.mem_append_right _ (List.mem_singleton_self k))
      have hp := ht.dev hf' (ht.walks_dev hw rfl)
      have hchild : fs.iget root.dev m = ⟨p'.dev, m⟩ := by rw [ht.iget, hp]
      rw [List.dropLast_concat, hend, ht.dotdot hf' hk.dot hk.dotdot hchild hf]
      exact hw
  · refine ⟨fun k hk => ?_, hw.snoc hf hd⟩
    rcases List.mem_append.mp hk with hk | hk
    · exact hcs k hk
    · exact List.mem_singleton.mp hk ▸ ht.proper hf hdot hdotdot

theorem Tree.walks_moves (ht : fs.Tree root) {x y : Ino} {cs ks : List Name} (hcs : ∀ k ∈ cs, Proper k)
    (hx : fs.Walks root.dev root cs x) (h : fs.Walks root.dev x ks y) :
    (∀ k ∈ ks.foldl move cs, Proper k) ∧ fs.Walks root.dev root (ks.foldl move cs) y := by
  induction h with
  | nil => exact ⟨hcs, hx⟩
  | snoc _ hf hd ih =>
    rw [List.foldl_append, List.foldl_cons, List.foldl_nil]
    exact ht.walks_move ih.1 ih.2 hf hd

/-- `namei` reaches what the moved names lead to, if that is a directory. -/
theorem Tree.namei_moves (ht : fs.Tree root) {task : TaskDirs} {cs : List Name} {pathname : Name} {inode : Ino}
    (hroot : task.iroot = root) (hcs : ∀ k ∈ cs, Proper k) (hpwd : fs.Walks root.dev root cs task.ipwd)
    (h : fs.namei task pathname = .ok (some inode)) (hd : fs.isDir inode) :
    let moved := (components (relative pathname)).foldl move (if pathname.head?.any isSeparator then [] else cs)
    [] ∉ components (relative pathname) ∧ (∀ k ∈ moved, Proper k) ∧ fs.Walks root.dev root moved inode := by
  obtain ⟨ks, name, dir, dir', nr, hks, hwalk, hf, rfl⟩ := namei_walks ht.plain h
  have hbase : (∀ k ∈ (if pathname.head?.any isSeparator then [] else cs), Proper k) ∧
      fs.Walks root.dev root (if pathname.head?.any isSeparator then [] else cs) (start task pathname) := by
    unfold start
    split_ifs
    · exact ⟨List.forall_mem_nil _, hroot ▸ .nil⟩
    · exact ⟨hcs, hpwd⟩
  have hdev := ht.walks_dev hbase.2 rfl
  rw [hdev] at hwalk
  rw [ht.dev hf (ht.walks_dev hwalk hdev)] at hd ⊢
  have hall := hwalk.snoc hf hd
  rw [← hks] at hall
  exact ⟨ht.named_ne hall, ht.walks_moves hbase.1 hbase.2 hall⟩

theorem Tree.supers (ht : fs.Tree root) : fs.Supers := fun dir hd => ⟨root, by rw [ht.one dir hd, ht.imount]⟩

end Disk

/-! ### Runs of `sys_chdir` -/

/-- A file system and the directories of a task on it. -/
structure Session where
  fs : Disk
  task : TaskDirs

inductive PwdEvent
  | chdir (pathname : Name) (ret : Bool)
  | change

/-- The steps: a call of `sys_chdir`, and any change of the file system that removes no directory. -/
inductive PwdStep (root : Ino) : Session → PwdEvent → Session → Prop
  | chdir {fs : Disk} {task task' : TaskDirs} {pathname : Name} {ret : Bool} : pathname ≠ [] →
      fs.sysChdir task pathname = .ok (ret, task') → PwdStep root ⟨fs, task⟩ (.chdir pathname ret) ⟨fs, task'⟩
  | change {fs fs' : Disk} {task : TaskDirs} : fs.Keeps fs' → fs'.Tree root → PwdStep root ⟨fs, task⟩ .change ⟨fs', task⟩

/-- The first task starts in the root. -/
def PwdStart (root : Ino) (s : Session) : Prop := s.fs.Tree root ∧ s.task = ⟨root, root, ['/']⟩

/-- The path names the directories from the root to the current one. -/
structure PwdInv (root : Ino) (s : Session) : Prop where
  tree : s.fs.Tree root
  iroot : s.task.iroot = root
  walk : ∃ cs, (∀ k ∈ cs, Proper k) ∧ s.task.pwd = render cs ∧ s.fs.Walks root.dev root cs s.task.ipwd

namespace PwdInv

variable {root : Ino} {fs : Disk} {task : TaskDirs}

theorem chdir {task' : TaskDirs} {pathname : Name} {ret : Bool} (hi : PwdInv root ⟨fs, task⟩)
    (h : fs.sysChdir task pathname = .ok (ret, task')) : PwdInv root ⟨fs, task'⟩ := by
  obtain ⟨cs, hcs, hpwd, hwalk⟩ := hi.walk
  unfold Disk.sysChdir at h
  obtain ⟨r, hr, h⟩ := bind_ok.mp h
  cases r with
  | none =>
    cases h
    exact hi
  | some inode =>
    dsimp only at h
    split_ifs at h with hguard
    · cases h
      exact hi
    · have hd : fs.isDir inode := by simp_all
      obtain ⟨hpath, hproper, hmoved⟩ := hi.tree.namei_moves hi.iroot hcs hwalk hr hd
      obtain ⟨pwd, hp, h⟩ := bind_ok.mp h
      rw [hpwd, abspath_render (fun k hk => (hcs k hk).plain) hpath] at hp
      cases h
      exact ⟨hi.tree, hi.iroot, _, hproper, (Except.ok.inj hp).symm, hmoved⟩

/-- `sys_chdir` returns, and neither string function it relies on gets a string without a separator. -/
theorem chdir_returns (hi : PwdInv root ⟨fs, task⟩) {pathname : Name} (hne : pathname ≠ []) :
    ∃ r, fs.sysChdir task pathname = .ok r := by
  obtain ⟨cs, hcs, hpwd, hwalk⟩ := hi.walk
  have hstart : fs.isDir (Disk.start task pathname) := by
    unfold Disk.start
    split_ifs
    · exact hi.iroot ▸ hi.tree.isDir
    · exact hwalk.isDir hi.tree.isDir
  obtain ⟨r, hr⟩ := Disk.namei_returns hi.tree.plain hi.tree.supers hne hstart
  unfold Disk.sysChdir
  rw [hr, ok_bind]
  cases r with
  | none => exact ⟨_, rfl⟩
  | some inode =>
    dsimp only
    split_ifs with hguard
    · exact ⟨_, rfl⟩
    · have hd : fs.isDir inode := by simp_all
      obtain ⟨hpath, -, -⟩ := hi.tree.namei_moves hi.iroot hcs hwalk hr hd
      rw [hpwd, abspath_render (fun k hk => (hcs k hk).plain) hpath]
      exact ⟨_, rfl⟩

theorem change {fs' : Disk} (hi : PwdInv root ⟨fs, task⟩) (hk : fs.Keeps fs') (ht : fs'.Tree root) :
    PwdInv root ⟨fs', task⟩ := by
  obtain ⟨cs, hcs, hpwd, hwalk⟩ := hi.walk
  exact ⟨ht, hi.iroot, cs, hcs, hpwd, hwalk.mono hi.tree ht hk rfl⟩

theorem run {es : List PwdEvent} {s : Session} (h : Run (PwdStart root) (PwdStep root) es s) : PwdInv root s := by
  refine Run.invariant ?_ ?_ es s h
  · rintro ⟨fs, task⟩ ⟨ht, htask⟩
    have htask : task = ⟨root, root, ['/']⟩ := htask
    subst htask
    exact ⟨ht, rfl, [], List.forall_mem_nil _, rfl, .nil⟩
  · rintro s e s' hi (⟨-, hcall⟩ | ⟨hk, ht⟩)
    · exact hi.chdir hcall
    · exact hi.change hk ht

end PwdInv

/-- However often a task calls `sys_chdir`, its path starts and ends with a separator, the walk
from the root over its names ends in the current directory and nowhere else, and the next
call returns. -/
theorem pwd_agrees {root : Ino} {es : List PwdEvent} {s : Session} (h : Run (PwdStart root) (PwdStep root) es s) :
    s.task.pwd.head? = some '/' ∧ s.task.pwd.getLast? = some '/' ∧
      (∀ inode, s.fs.Walks root.dev root (names s.task.pwd) inode ↔ inode = s.task.ipwd) ∧
      ∀ pathname, pathname ≠ [] → ∃ r, s.fs.sysChdir s.task pathname = .ok r := by
  have hi := PwdInv.run h
  obtain ⟨cs, hcs, hpwd, hwalk⟩ := hi.walk
  rw [hpwd, names_render hcs]
  refine ⟨rfl, ?_, fun inode => ?_, fun pathname hne => hi.chdir_returns hne⟩
  · obtain ⟨text, htext⟩ := render_eq cs
    rw [htext, List.getLast?_concat]
  · constructor
    · exact fun hw => hw.det hwalk
    · rintro rfl
      exact hwalk

/-! A root with one directory in it. -/

def smallEntries (inode : Ino) : List (Name × ℕ) :=
  if inode = ⟨1, 1⟩ then [(DOT, 1), (DOTDOT, 1), (['d'], 2)]
  else if inode = ⟨1, 2⟩ then [(DOT, 2), (DOTDOT, 1)]
  else []

def smallDisk : Disk where
  isDir inode := decide (inode = ⟨1, 1⟩ ∨ inode = ⟨1, 2⟩)
  exec _ := true
  entries := smallEntries
  mount _ := none
  imount dev := if dev = 1 then some ⟨1, 1⟩ else none

theorem smallDisk_tree : smallDisk.Tree ⟨1, 1⟩ where
  nr := rfl
  isDir := by decide
  one := by
    intro dir hd
    rcases of_decide_eq_true hd with rfl | rfl <;> rfl
  unmounted _ := rfl
  imount := rfl
  plain := by
    intro dir e he
    change e ∈ smallEntries dir at he
    unfold smallEntries at he
    split_ifs at he <;> simp only [List.mem_cons, List.not_mem_nil, or_false] at he
    · rcases he with rfl | rfl | rfl
      · exact plain_dot
      · exact plain_dotdot
      · simp [Plain, isSeparator]
    · rcases he with rfl | rfl
      · exact plain_dot
      · exact plain_dotdot
  named := by
    intro dir e he _
    change e ∈ smallEntries dir at he
    unfold smallEntries at he
    split_ifs at he <;> simp only [List.mem_cons, List.not_mem_nil, or_false] at he
    · rcases he with rfl | rfl | rfl <;> decide
    · rcases he with rfl | rfl <;> decide
  dot := by
    intro dir dir' nr hf
    rcases of_decide_eq_true hf.isDir with rfl | rfl
    · obtain rfl : dir' = ⟨1, 1⟩ := hf.searched
      exact congrArg (Ino.mk 1) (congrArg Prod.snd (Option.some.inj hf.entry)).symm
    · obtain rfl : dir' = ⟨1, 2⟩ := hf.searched
      exact congrArg (Ino.mk 1) (congrArg Prod.snd (Option.some.inj hf.entry)).symm
  dotdot := by
    intro dir dir' child child' c nr nr' hf hdot hdotdot hc hf'
    have hs := hf.searched
    rw [if_neg fun h => hdotdot h.1] at hs
    subst hs hc
    have hmem : (c, nr) ∈ smallEntries dir' := hf.mem.1
    rcases of_decide_eq_true hf.isDir with rfl | rfl
    · have hmem : (c, nr) ∈ [(DOT, 1), (DOTDOT, 1), (['d'], 2)] := hmem
      simp only [List.mem_cons, List.not_mem_nil, or_false, Prod.mk.injEq] at hmem
      obtain ⟨rfl, rfl⟩ : c = ['d'] ∧ nr = 2 := by tauto
      obtain rfl : child' = ⟨1, 2⟩ := hf'.searched
      exact congrArg (Ino.mk 1) (congrArg Prod.snd (Option.some.inj hf'.entry)).symm
    · have hmem : (c, nr) ∈ [(DOT, 2), (DOTDOT, 1)] := hmem
      simp only [List.mem_cons, List.not_mem_nil, or_false, Prod.mk.injEq] at hmem
      tauto
  rootdot := by
    intro dir' nr hf
    obtain rfl : (⟨1, 1⟩ : Ino) = dir' := Option.some.inj hf.searched
    exact congrArg (Ino.mk 1) (congrArg Prod.snd (Option.some.inj hf.entry)).symm

/-- After `chdir("d")` and the failing `chdir("..\\x")` the path of a task in the root is `/d/`. -/
theorem pwd_agrees_small : ∃ s : Session, s.task.pwd = ['/', 'd', '/'] ∧ s.task.ipwd = ⟨1, 2⟩ ∧
    ∀ inode, s.fs.Walks 1 ⟨1, 1⟩ (names s.task.pwd) inode ↔ inode = s.task.ipwd := by
  have hstart : PwdStart ⟨1, 1⟩ ⟨smallDisk, ⟨1, 1⟩, ⟨1, 1⟩, ['/']⟩ := ⟨smallDisk_tree, rfl⟩
  have hinto : smallDisk.sysChdir ⟨⟨1, 1⟩, ⟨1, 1⟩, ['/']⟩ ['d'] = .ok (true, ⟨⟨1, 1⟩, ⟨1, 2⟩, ['/', 'd', '/']⟩) := by rfl
  have hfail : smallDisk.sysChdir ⟨⟨1, 1⟩, ⟨1, 2⟩, ['/', 'd', '/']⟩ ['.', '.', '\\', 'x'] =
      .ok (false, ⟨⟨1, 1⟩, ⟨1, 2⟩, ['/', 'd', '/']⟩) := by rfl
  have hrun : Run (PwdStart ⟨1, 1⟩) (PwdStep ⟨1, 1⟩) _ _ :=
    ((Run.nil hstart).snoc (.chdir (List.cons_ne_nil _ _) hinto)).snoc (.chdir (List.cons_ne_nil _ _) hfail)
  exact ⟨_, rfl, rfl, (pwd_agrees hrun).2.2.1⟩

end Onix
