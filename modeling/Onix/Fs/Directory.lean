import Onix.Fs.Namespace
import Onix.Kernel.Buffer
import Mathlib.Data.List.TakeWhile

/-! The blocks of a directory, as `find_entry`, `add_entry` and `is_empty` go through them. The pointer into the
buffer moves beside the index, and it decides when the next block is read. -/

set_option autoImplicit false

namespace Onix

open Lib

def EOS : Char := Char.ofNat 0

/-- `sizeof(dentry_t)` -/
def DENTRY_SIZE : ℕ := 16

/-- `dentry_t`; every name that is stored ends within its field. -/
structure Dentry where
  nr : UInt16
  name : List Char
  length : name.length = NAME_LEN
  terminated : EOS ∈ name

/-- The name as a string. -/
def Dentry.str (d : Dentry) : Name := d.name.takeWhile (· ≠ EOS)

theorem Dentry.str_length (d : Dentry) : d.str.length < NAME_LEN := by
  have hle : d.str.length ≤ d.name.length := (List.takeWhile_prefix _).length_le
  refine lt_of_le_of_ne (hle.trans d.length.le) fun h => ?_
  have hall := (List.takeWhile_prefix (l := d.name) (fun c => decide (c ≠ EOS))).eq_of_length (h.trans d.length.symm)
  have := List.takeWhile_eq_self_iff.mp hall EOS d.terminated
  simp at this

/-- The directories of all devices with their blocks. -/
structure DirStore where
  isDir : Ino → Bool
  /-- `desc->size` -/
  size : Ino → ℕ
  /-- What `bmap` returns for a block of a directory. -/
  block : Ino → ℕ → ℕ
  /-- The entries in a block of a device; the 64th stands for the memory behind the buffer. -/
  data : ℕ → ℕ → ℕ → Dentry
  imount : ℕ → Option Ino

namespace DirStore

def dentries (s : DirStore) (dir : Ino) : ℕ := s.size dir / DENTRY_SIZE

/-- An entry of a directory by its index. -/
def slot (s : DirStore) (dir : Ino) (j : ℕ) : Dentry :=
  s.data dir.dev (s.block dir (j / BLOCK_DENTRIES)) (j % BLOCK_DENTRIES)

/-- The entry is live and has the name. -/
def Live (s : DirStore) (dir : Ino) (name : Name) (j : ℕ) : Prop := (s.slot dir j).nr ≠ 0 ∧ (s.slot dir j).str = name

instance (s : DirStore) (dir : Ino) (name : Name) (j : ℕ) : Decidable (s.Live dir name j) :=
  inferInstanceAs (Decidable (_ ∧ _))

/-- The directory `find_entry` searches, as in `Disk.searched`. -/
def searched (s : DirStore) (dir : Ino) (name : Name) : Except Halt Ino :=
  if (matchName name DOTDOT).isSome && dir.nr == 1 then
    match s.imount dir.dev with
    | some inode => .ok inode
    | none => .error .nullPointer
  else .ok dir

/-- The buffer that the next round of `find_entry` looks into; `cur` has the block of `buf` with the distance of
`entry` from its data, once there is a buffer. -/
def findBuf (s : DirStore) (dir : Ino) (i : ℕ) : Option (ℕ × ℕ) → ℕ
  | none => s.block dir (i / BLOCK_DENTRIES)
  | some (buf, entry) => if entry ≥ BLOCK_SIZE then s.block dir (i / BLOCK_DENTRIES) else buf

/-- The loop of `find_entry`: the block and the index in it of the entry, and the rest of the name. -/
def findFrom (s : DirStore) (dir : Ino) (name : Name) : ℕ → ℕ → Option (ℕ × ℕ) → Option (ℕ × ℕ × Name)
  | 0, _, _ => none
  | rounds + 1, i, cur =>
    let buf := s.findBuf dir i cur
    let entry := s.data dir.dev buf (i % BLOCK_DENTRIES)
    match (matchName name entry.str).filter fun _ => entry.nr != 0 with
    | some next => some (buf, i % BLOCK_DENTRIES, next)
    | none => s.findFrom dir name rounds (i + 1) (some (buf, DENTRY_SIZE * (i % BLOCK_DENTRIES)))

/-- `find_entry`, with the directory it ends in. -/
def findEntry (s : DirStore) (dir : Ino) (name : Name) : Except Halt (Ino × Option (ℕ × ℕ × Name)) := do
  assert "ISDIR(((*dir)->desc->mode))" (s.isDir dir)
  let dir ← s.searched dir name
  .ok (dir, s.findFrom dir name (s.dentries dir) 0 none)

/-- A name is found if and only if an entry has it, in the block of such an entry. -/
structure Found (s : DirStore) (dir : Ino) (name : Name) (r : Option (ℕ × ℕ × Name)) : Prop where
  found : r.isSome ↔ ∃ j < s.dentries dir, s.Live dir name j
  buffer : ∀ buf k next, r = some (buf, k, next) → ∃ j < s.dentries dir, s.Live dir name j ∧
    buf = s.block dir (j / BLOCK_DENTRIES) ∧ k = j % BLOCK_DENTRIES

variable {s s' : DirStore} {dir dir' : Ino} {name : Name}

/-- No name of an entry fills its field. -/
theorem Live.length {j : ℕ} (h : s.Live dir name j) : name.length < NAME_LEN := by
  rw [← h.2]
  exact Dentry.str_length _

/-- The buffer never changes: the pointer is set anew in each round, to an entry inside the buffer. -/
def Held (s : DirStore) (dir : Ino) (i : ℕ) (cur : Option (ℕ × ℕ)) : Prop :=
  (cur = none ∧ i = 0) ∨ ∃ entry < BLOCK_SIZE, cur = some (s.block dir 0, entry)

theorem held_start : s.Held dir 0 none := .inl ⟨rfl, rfl⟩

theorem held_next (i j : ℕ) : s.Held dir i (some (s.block dir 0, DENTRY_SIZE * (j % BLOCK_DENTRIES))) := by
  refine .inr ⟨_, ?_, rfl⟩
  have : j % 64 < 64 := Nat.mod_lt _ (by decide)
  unfold DENTRY_SIZE BLOCK_DENTRIES BLOCK_SIZE
  omega

theorem findBuf_held {i : ℕ} {cur : Option (ℕ × ℕ)} (h : s.Held dir i cur) : s.findBuf dir i cur = s.block dir 0 := by
  rcases h with ⟨rfl, rfl⟩ | ⟨entry, hlt, rfl⟩
  · rfl
  · exact if_neg (Nat.not_le.mpr hlt)

/-- The entry that a round looks at: it is always in the first block. -/
def seen (s : DirStore) (dir : Ino) (i : ℕ) : Dentry := s.data dir.dev (s.block dir 0) (i % BLOCK_DENTRIES)

theorem seen_slot {j : ℕ} (h : j < BLOCK_DENTRIES) : s.seen dir j = s.slot dir j := by
  rw [seen, slot, Nat.div_eq_of_lt h]

theorem seen_mod (i : ℕ) : s.seen dir i = s.slot dir (i % BLOCK_DENTRIES) := by
  rw [← seen_slot (Nat.mod_lt _ (by decide)), seen, seen, Nat.mod_mod]

/-- One round on a component. -/
theorem findFrom_succ {rounds i : ℕ} {cur : Option (ℕ × ℕ)} (hname : Plain name) (h : s.Held dir i cur) :
    s.findFrom dir name (rounds + 1) i cur =
      if (s.seen dir i).nr ≠ 0 ∧ (s.seen dir i).str = name then some (s.block dir 0, i % BLOCK_DENTRIES, [])
      else s.findFrom dir name rounds (i + 1) (some (s.block dir 0, DENTRY_SIZE * (i % BLOCK_DENTRIES))) := by
  rw [findFrom, findBuf_held h, matchName_plain hname]
  change (match (if (s.seen dir i).str = name then some [] else none : Option Name).filter
    fun _ => (s.seen dir i).nr != 0 with | some next => _ | none => _) = _
  by_cases hstr : (s.seen dir i).str = name
  · by_cases hnr : (s.seen dir i).nr = 0 <;> simp [hstr, hnr, Option.filter]
  · simp [hstr]

theorem findFrom_some {rounds i buf k : ℕ} {next : Name} {cur : Option (ℕ × ℕ)} (hname : Plain name)
    (hc : s.Held dir i cur) (h : s.findFrom dir name rounds i cur = some (buf, k, next)) :
    buf = s.block dir 0 ∧ next = [] ∧ ∃ j, j < i + rounds ∧ k = j % BLOCK_DENTRIES ∧
      s.Live dir name (j % BLOCK_DENTRIES) := by
  induction rounds generalizing i cur with
  | zero => cases h
  | succ rounds ih =>
    rw [findFrom_succ hname hc] at h
    split_ifs at h with hlive
    · cases h
      refine ⟨rfl, rfl, i, by omega, rfl, ?_⟩
      rwa [seen_mod] at hlive
    · obtain ⟨hbuf, hnext, j, hj, hk⟩ := ih (held_next _ _) h
      exact ⟨hbuf, hnext, j, by omega, hk⟩

theorem findFrom_none {rounds i j : ℕ} {cur : Option (ℕ × ℕ)} (hname : Plain name) (hc : s.Held dir i cur)
    (h : s.findFrom dir name rounds i cur = none) (hij : i ≤ j) (hj : j < i + rounds) :
    ¬ s.Live dir name (j % BLOCK_DENTRIES) := by
  induction rounds generalizing i cur with
  | zero => omega
  | succ rounds ih =>
    rw [findFrom_succ hname hc] at h
    split_ifs at h with hlive
    by_cases hi : j = i
    · rwa [seen_mod, ← hi] at hlive
    · exact ih (held_next _ _) h (by omega) (by omega)

theorem findEntry_eq {r : Option (ℕ × ℕ × Name)} (h : s.findEntry dir name = .ok (dir', r)) :
    s.isDir dir = true ∧ s.searched dir name = .ok dir' ∧ r = s.findFrom dir' name (s.dentries dir') 0 none := by
  obtain ⟨_, hdir, h⟩ := bind_ok.mp h
  obtain ⟨d, hd, h⟩ := bind_ok.mp h
  cases h
  exact ⟨assert_ok.mp hdir, hd, rfl⟩

/-- `find_entry` sees the first block of a directory, over and over. -/
theorem findEntry_found_iff {r : Option (ℕ × ℕ × Name)} (hname : Plain name)
    (h : s.findEntry dir name = .ok (dir', r)) : s.Found dir' name r ↔
      ((∃ j < s.dentries dir', s.Live dir' name j) →
        ∃ j < s.dentries dir', j < BLOCK_DENTRIES ∧ s.Live dir' name j) := by
  obtain ⟨-, -, hr⟩ := findEntry_eq h
  have hsome : ∀ buf k next, r = some (buf, k, next) → ∃ j < s.dentries dir', j < BLOCK_DENTRIES ∧
      s.Live dir' name j ∧ buf = s.block dir' 0 ∧ k = j := by
    intro buf k next he
    obtain ⟨hbuf, -, j, hj, hk, hlive⟩ := findFrom_some hname held_start (hr.symm.trans he)
    have hmod : j % BLOCK_DENTRIES < BLOCK_DENTRIES := Nat.mod_lt _ (by decide)
    refine ⟨j % BLOCK_DENTRIES, ?_, hmod, hlive, hbuf, hk⟩
    have := Nat.mod_le j BLOCK_DENTRIES
    omega
  constructor
  · rintro hf hex
    obtain ⟨⟨buf, k, next⟩, he⟩ := Option.isSome_iff_exists.mp (hf.found.mpr hex)
    obtain ⟨j, hj, hlt, hlive, -, -⟩ := hsome buf k next he
    exact ⟨j, hj, hlt, hlive⟩
  · intro hfirst
    constructor
    · constructor
      · intro hs
        obtain ⟨⟨buf, k, next⟩, he⟩ := Option.isSome_iff_exists.mp hs
        obtain ⟨j, hj, -, hlive, -, -⟩ := hsome buf k next he
        exact ⟨j, hj, hlive⟩
      · intro hex
        obtain ⟨j, hj, hlt, hlive⟩ := hfirst hex
        by_contra hn
        have hnone := hr.symm.trans (Option.not_isSome_iff_eq_none.mp hn)
        apply findFrom_none hname held_start hnone (Nat.zero_le j) (by omega)
        rwa [Nat.mod_eq_of_lt hlt]
    · intro buf k next he
      obtain ⟨j, hj, hlt, hlive, hbuf, hk⟩ := hsome buf k next he
      exact ⟨j, hj, hlive, by rw [Nat.div_eq_of_lt hlt, hbuf], by rw [Nat.mod_eq_of_lt hlt, hk]⟩

/-- The directories as the walk over pathnames reads them: a list of entries for each. -/
def disk (s : DirStore) (exec : Ino → Bool) (mount : Ino → Option ℕ) : Disk where
  isDir := s.isDir
  exec := exec
  entries dir := (List.range (s.dentries dir)).map fun j => ((s.slot dir j).str, (s.slot dir j).nr.toNat)
  mount := mount
  imount := s.imount

theorem findFrom_disk {rounds i : ℕ} {cur : Option (ℕ × ℕ)} (hname : Plain name) (hc : s.Held dir i cur)
    (hle : i + rounds ≤ BLOCK_DENTRIES) :
    ((List.range' i rounds).map fun j => ((s.slot dir j).str, (s.slot dir j).nr.toNat)).findSome? (fun entry =>
      if entry.2 = 0 then none else (matchName name entry.1).map fun next => (dir, entry.2, next)) =
      (s.findFrom dir name rounds i cur).map fun r => (dir, (s.data dir.dev r.1 r.2.1).nr.toNat, r.2.2) := by
  induction rounds generalizing i cur with
  | zero => rfl
  | succ rounds ih =>
    have hlt : i < BLOCK_DENTRIES := by omega
    rw [findFrom_succ hname hc, List.range'_succ, List.map_cons, List.findSome?_cons, ih (held_next (i + 1) i)
      (by omega),
      matchName_plain hname, seen_slot hlt]
    have hdata : s.data dir.dev (s.block dir 0) (i % BLOCK_DENTRIES) = s.slot dir i := by
      rw [← seen_slot hlt, seen]
    by_cases hnr : (s.slot dir i).nr = 0
    · simp [hnr]
    · have hnr' : (s.slot dir i).nr.toNat ≠ 0 := fun h => hnr (UInt16.toNat_inj.mp h)
      by_cases hstr : (s.slot dir i).str = name
      · simp [hnr, hnr', hstr, hdata]
      · simp [hstr]

/-- In a directory of one block `find_entry` finds what a search through the list of entries does. -/
theorem findEntry_disk {r : Option (ℕ × ℕ × Name)} {exec : Ino → Bool} {mount : Ino → Option ℕ} (hname : Plain name)
    (hle : s.dentries dir' ≤ BLOCK_DENTRIES) (h : s.findEntry dir name = .ok (dir', r)) :
    (s.disk exec mount).findEntry dir name =
      .ok (r.map fun r => (dir', (s.data dir'.dev r.1 r.2.1).nr.toNat, r.2.2)) := by
  obtain ⟨hdir, hsearched, hr⟩ := findEntry_eq h
  have hdir' : (s.disk exec mount).isDir dir = true := hdir
  have hsearched' : (s.disk exec mount).searched dir name = .ok dir' := hsearched
  rw [Disk.findEntry, hdir', assert_true, ok_bind, hsearched', ok_bind, hr]
  apply congrArg Except.ok
  rw [← findFrom_disk hname held_start (by omega), ← List.range_eq_range']
  rfl

/-- A field that holds a name. -/
def field (name : List Char) : List Char := name ++ List.replicate (NAME_LEN - name.length) EOS

/-- An entry with the name `a`. -/
def entryA (nr : UInt16) : Dentry := ⟨nr, field ['a'], by decide, by decide⟩

/-- A directory with 65 entries, of which the last one only is live. -/
def twoBlocks : DirStore where
  isDir _ := true
  size _ := 65 * DENTRY_SIZE
  block _ i := 10 + i
  data _ block _ := entryA (if block = 11 then 7 else 0)
  imount _ := none

/-- The same with one entry, in the first block. -/
def oneEntry : DirStore := { twoBlocks with size := fun _ => DENTRY_SIZE, block := fun _ i => 11 + i }

theorem findEntry_found_first : oneEntry.findEntry ⟨1, 2⟩ ['a'] = .ok (⟨1, 2⟩, some (11, 0, [])) ∧
    oneEntry.Found ⟨1, 2⟩ ['a'] (some (11, 0, [])) := by
  have hplain : Plain ['a'] := by simp [Plain, isSeparator]
  have hrun : oneEntry.findEntry ⟨1, 2⟩ ['a'] = .ok (⟨1, 2⟩, some (11, 0, [])) := by decide
  exact ⟨hrun, (findEntry_found_iff hplain hrun).mpr fun _ => ⟨0, by decide, by decide, by decide, by decide⟩⟩

theorem findEntry_misses : ¬ ∀ (s : DirStore) (dir dir' : Ino) (name : Name) (r : Option (ℕ × ℕ × Name)),
    Plain name → s.findEntry dir name = .ok (dir', r) → s.Found dir' name r := by
  intro h
  have hplain : Plain ['a'] := by simp [Plain, isSeparator]
  have hnone : twoBlocks.findFrom ⟨1, 2⟩ ['a'] 65 0 none = none := by decide
  have hf := h twoBlocks ⟨1, 2⟩ ⟨1, 2⟩ ['a'] none hplain (by
    rw [← hnone]
    rfl)
  have := hf.found.mpr ⟨64, by decide, by decide, by decide⟩
  cases this

/-! ### Emptiness -/

/-- The buffer and the pointer that the next round of `is_empty` reads at. -/
def emptyBuf (s : DirStore) (dir : Ino) (i : ℕ) (cur : Option (ℕ × ℕ)) : Except Halt (ℕ × ℕ) :=
  match cur.filter fun c => c.2 ≤ BLOCK_SIZE with
  | some cur => .ok cur
  | none => do
    let block := s.block dir (i / BLOCK_DENTRIES)
    assert "block" (block ≠ 0)
    .ok (block, 0)

/-- The loop of `is_empty`. `reads` is a record: the block of each buffer that was read, and the index in it. -/
def emptyFrom (s : DirStore) (dir : Ino) : ℕ → ℕ → Option (ℕ × ℕ) → ℕ → List (ℕ × ℕ) → Except Halt (ℕ × List (ℕ × ℕ))
  | 0, _, _, count, reads => .ok (count, reads)
  | rounds + 1, i, cur, count, reads => do
    let (buf, entry) ← s.emptyBuf dir i cur
    let k := entry / DENTRY_SIZE
    let count := if (s.data dir.dev buf k).nr ≠ 0 then count + 1 else count
    s.emptyFrom dir rounds (i + 1) (some (buf, entry + DENTRY_SIZE)) count (reads ++ [(buf, k)])

def isEmpty (s : DirStore) (dir : Ino) : Except Halt (Bool × List (ℕ × ℕ)) := do
  assert "ISDIR(inode->desc->mode)" (s.isDir dir)
  if s.dentries dir < 2 || s.block dir 0 == 0 then .ok (false, [])
  else
    let (count, reads) ← s.emptyFrom dir (s.dentries dir) 0 none 0 []
    .ok (count == 2, reads)

/-- Each entry is read once and nothing else, and the directory is empty if only the first two are live. -/
structure Exact (s : DirStore) (dir : Ino) (r : Bool × List (ℕ × ℕ)) : Prop where
  reads : r.2.Perm ((List.range (s.dentries dir)).map fun j => (s.block dir (j / BLOCK_DENTRIES), j % BLOCK_DENTRIES))
  empty : r.1 = true ↔ ∀ j < s.dentries dir, (s.slot dir j).nr ≠ 0 ↔ j < 2

/-- How many entries are live, of those from `i` on. -/
def lives (s : DirStore) (dir : Ino) (i n : ℕ) : ℕ := (List.range' i n).countP fun j => (s.slot dir j).nr ≠ 0

/-- A round, while the pointer goes along with the index. -/
theorem emptyFrom_succ {rounds i count : ℕ} {reads : List (ℕ × ℕ)} (hi : i ≤ BLOCK_DENTRIES) :
    s.emptyFrom dir (rounds + 1) i (some (s.block dir 0, DENTRY_SIZE * i)) count reads =
      s.emptyFrom dir rounds (i + 1) (some (s.block dir 0, DENTRY_SIZE * (i + 1)))
        (if (s.data dir.dev (s.block dir 0) i).nr ≠ 0 then count + 1 else count)
        (reads ++ [(s.block dir 0, i)]) := by
  have hle : DENTRY_SIZE * i ≤ BLOCK_SIZE := Nat.mul_le_mul_left DENTRY_SIZE hi
  have hbuf : s.emptyBuf dir i (some (s.block dir 0, DENTRY_SIZE * i)) = .ok (s.block dir 0, DENTRY_SIZE * i) := by
    rw [emptyBuf, Option.filter_some, if_pos (by simpa using hle)]
  rw [emptyFrom, hbuf, ok_bind]
  dsimp only
  rw [Nat.mul_div_cancel_left i (by decide : 0 < DENTRY_SIZE), Nat.mul_succ]

/-- The first round reads the first block. -/
theorem emptyFrom_start {rounds : ℕ} (hblock : s.block dir 0 ≠ 0) :
    s.emptyFrom dir (rounds + 1) 0 none 0 [] =
      s.emptyFrom dir (rounds + 1) 0 (some (s.block dir 0, DENTRY_SIZE * 0)) 0 [] := by
  have hnone : s.emptyBuf dir 0 none = .ok (s.block dir 0, 0) := by
    change (do assert "block" (decide (s.block dir 0 ≠ 0)); _) = _
    rw [decide_eq_true hblock, assert_true, ok_bind, Nat.zero_div]
  have hsome : s.emptyBuf dir 0 (some (s.block dir 0, DENTRY_SIZE * 0)) = .ok (s.block dir 0, 0) := rfl
  rw [emptyFrom, emptyFrom, hnone, hsome]

/-- Within the first block the loop reads what it should. -/
theorem emptyFrom_eq {rounds i count : ℕ} {reads : List (ℕ × ℕ)} (h : i + rounds ≤ BLOCK_DENTRIES) :
    s.emptyFrom dir rounds i (some (s.block dir 0, DENTRY_SIZE * i)) count reads =
      .ok (count + s.lives dir i rounds, reads ++
        (List.range' i rounds).map fun j => (s.block dir (j / BLOCK_DENTRIES), j % BLOCK_DENTRIES)) := by
  induction rounds generalizing i count reads with
  | zero => simp [emptyFrom, lives]
  | succ rounds ih =>
    have hlt : i < BLOCK_DENTRIES := by omega
    rw [emptyFrom_succ hlt.le, ih (by omega), lives, lives, List.range'_succ, List.countP_cons, List.map_cons,
      Nat.div_eq_of_lt hlt, Nat.mod_eq_of_lt hlt, List.append_assoc, List.singleton_append]
    have hslot : s.slot dir i = s.data dir.dev (s.block dir 0) i := by
      rw [slot, Nat.div_eq_of_lt hlt, Nat.mod_eq_of_lt hlt]
    rw [← hslot]
    by_cases hnr : (s.slot dir i).nr = 0
    · simp [hnr]
    · simp [hnr]
      omega

theorem emptyFrom_reads {rounds i : ℕ} {cur : Option (ℕ × ℕ)} {count : ℕ} {reads : List (ℕ × ℕ)} {r : ℕ × List (ℕ × ℕ)}
    (h : s.emptyFrom dir rounds i cur count reads = .ok r) (x : ℕ × ℕ) (hx : x ∈ reads) : x ∈ r.2 := by
  induction rounds generalizing i cur count reads with
  | zero =>
    cases h
    exact hx
  | succ rounds ih =>
    obtain ⟨b, -, h⟩ := bind_ok.mp h
    exact ih h (List.mem_append_left _ hx)

/-- After the last entry of the block the pointer is not beyond it yet, and the next one is read behind it. -/
theorem emptyFrom_past {rounds i count : ℕ} {reads : List (ℕ × ℕ)} {r : ℕ × List (ℕ × ℕ)}
    (h : s.emptyFrom dir rounds i (some (s.block dir 0, DENTRY_SIZE * i)) count reads = .ok r)
    (hi : i ≤ BLOCK_DENTRIES) (hr : BLOCK_DENTRIES < i + rounds) : (s.block dir 0, BLOCK_DENTRIES) ∈ r.2 := by
  induction rounds generalizing i count reads with
  | zero => omega
  | succ rounds ih =>
    rw [emptyFrom_succ hi] at h
    by_cases hlast : i = BLOCK_DENTRIES
    · exact emptyFrom_reads h _ (by simp [hlast])
    · exact ih h (by omega) (by omega)

/-- Of a directory with its two own entries, only these are live if two are. -/
theorem lives_eq_two {n : ℕ} (h0 : (s.slot dir 0).nr ≠ 0) (h1 : (s.slot dir 1).nr ≠ 0) (hn : 2 ≤ n) :
    s.lives dir 0 n = 2 ↔ ∀ j < n, (s.slot dir j).nr ≠ 0 ↔ j < 2 := by
  obtain ⟨m, rfl⟩ := Nat.exists_eq_add_of_le hn
  have hsplit : s.lives dir 0 (2 + m) = 2 + s.lives dir 2 m := by
    rw [lives, lives, Nat.add_comm 2 m, List.range'_succ, List.range'_succ, List.countP_cons, List.countP_cons]
    simp [h0, h1]
    omega
  have hrest : s.lives dir 2 m = 0 ↔ ∀ j, 2 ≤ j → j < 2 + m → (s.slot dir j).nr = 0 := by
    rw [lives, List.countP_eq_zero]
    constructor
    · intro h j hj hlt
      simpa using h j (List.mem_range'_1.mpr ⟨hj, hlt⟩)
    · intro h j hj
      obtain ⟨h2, hlt⟩ := List.mem_range'_1.mp hj
      simp [h j h2 hlt]
  rw [hsplit, show 2 + s.lives dir 2 m = 2 ↔ s.lives dir 2 m = 0 by omega, hrest]
  constructor
  · intro h j hj
    by_cases hlt : j < 2
    · refine iff_of_true ?_ hlt
      obtain rfl | rfl : j = 0 ∨ j = 1 := by omega
      · exact h0
      · exact h1
    · exact iff_of_false (not_not_intro (h j (by omega) hj)) hlt
  · intro h j h2 hj
    by_contra hnr
    have := (h j hj).mp hnr
    omega

/-- `is_empty` is right about a directory of one block, and reads past the buffer of any other. -/
theorem isEmpty_exact_iff (hdir : s.isDir dir = true) (hlen : 2 ≤ s.dentries dir) (hblock : s.block dir 0 ≠ 0)
    (hdot : s.Live dir DOT 0) (hdotdot : s.Live dir DOTDOT 1) :
    (∃ r, s.isEmpty dir = .ok r ∧ s.Exact dir r) ↔ s.dentries dir ≤ BLOCK_DENTRIES := by
  obtain ⟨m, hm⟩ : ∃ m, s.dentries dir = m + 1 := ⟨s.dentries dir - 1, by omega⟩
  have hguard : (decide (s.dentries dir < 2) || s.block dir 0 == 0) = false := by
    simp [hblock]
    omega
  have hrun : s.isEmpty dir = (s.emptyFrom dir (s.dentries dir) 0 (some (s.block dir 0, DENTRY_SIZE * 0)) 0 [] >>=
      fun r => .ok (r.1 == 2, r.2)) := by
    rw [isEmpty, hdir, assert_true, ok_bind, hguard, hm, emptyFrom_start hblock]
    rfl
  rw [hrun]
  constructor
  · rintro ⟨r, h, hexact⟩
    by_contra hlt
    obtain ⟨⟨count, reads⟩, he, h⟩ := bind_ok.mp h
    cases h
    have hmem := hexact.reads.mem_iff.mp (emptyFrom_past he (Nat.zero_le _) (by omega))
    obtain ⟨j, -, hj⟩ := List.mem_map.mp hmem
    have hmod : j % BLOCK_DENTRIES < BLOCK_DENTRIES := Nat.mod_lt _ (by decide)
    rw [Prod.mk.injEq] at hj
    omega
  · intro hle
    refine ⟨(s.lives dir 0 (s.dentries dir) == 2,
      (List.range (s.dentries dir)).map fun j => (s.block dir (j / BLOCK_DENTRIES), j % BLOCK_DENTRIES)),
      ?_, List.Perm.refl _, ?_⟩
    · rw [emptyFrom_eq (by omega), ok_bind, Nat.zero_add, List.nil_append, List.range_eq_range']
    · rw [beq_iff_eq]
      exact lives_eq_two hdot.1 hdotdot.1 hlen

/-- A directory with its own two entries in each block, and the given size. -/
def ownEntries (n : ℕ) : DirStore where
  isDir _ := true
  size _ := n * DENTRY_SIZE
  block _ i := 10 + i
  data _ block k :=
    if block = 10 ∧ k = 0 then ⟨2, field DOT, by decide, by decide⟩
    else if block = 10 ∧ k = 1 then ⟨1, field DOTDOT, by decide, by decide⟩
    else entryA 0
  imount _ := none

theorem isEmpty_exact_two : ∃ r, (ownEntries 2).isEmpty ⟨1, 2⟩ = .ok r ∧ (ownEntries 2).Exact ⟨1, 2⟩ r :=
  (isEmpty_exact_iff rfl (by decide) (by decide) (by decide) (by decide)).mpr (by decide)

theorem isEmpty_reads_past : ¬ ∀ (s : DirStore) (dir : Ino), s.isDir dir = true → 2 ≤ s.dentries dir →
    s.block dir 0 ≠ 0 → s.Live dir DOT 0 → s.Live dir DOTDOT 1 → ∃ r, s.isEmpty dir = .ok r ∧ s.Exact dir r := by
  intro h
  obtain ⟨⟨empty, reads⟩, hr, hexact⟩ := h (ownEntries 65) ⟨1, 2⟩ rfl (by decide) (by decide) (by decide) (by decide)
  have hrun : (ownEntries 65).emptyFrom ⟨1, 2⟩ 65 0 none 0 [] = .ok
    (2, (List.range 65).map fun j => (10, j)) := by decide
  have hreads : reads = (List.range 65).map fun j => (10, j) := by
    change ((ownEntries 65).emptyFrom ⟨1, 2⟩ 65 0 none 0 [] >>= fun r => .ok (r.1 == 2, r.2)) = _ at hr
    rw [hrun] at hr
    cases hr
    rfl
  have hmem : (10, 64) ∈ reads := by
    rw [hreads]
    decide
  obtain ⟨j, -, hj⟩ := List.mem_map.mp (hexact.reads.mem_iff.mp hmem)
  have hmod : j % BLOCK_DENTRIES < BLOCK_DENTRIES := Nat.mod_lt _ (by decide)
  have hk : j % BLOCK_DENTRIES = 64 := (Prod.mk.inj hj).2
  unfold BLOCK_DENTRIES at *
  omega

/-! ### New entries -/

/-- The loop of `strncpy` over the bytes of `dest` that may still be written. -/
def strncpyFrom : List Char → Name → List Char
  | [], _ => []
  | _ :: dest, [] => EOS :: dest
  | _ :: dest, c :: src => c :: strncpyFrom dest src

/-- `strncpy`; a string that does not end in the field loses a character to the terminator. -/
def strncpy (dest : List Char) (src : Name) : List Char :=
  if src.length < dest.length then strncpyFrom dest src else (strncpyFrom dest src).set (dest.length - 1) EOS

theorem strncpyFrom_length (dest : List Char) (src : Name) : (strncpyFrom dest src).length = dest.length := by
  induction dest generalizing src with
  | nil => rfl
  | cons b dest ih =>
    cases src with
    | nil => rfl
    | cons c src => rw [strncpyFrom, List.length_cons, List.length_cons, ih]

theorem strncpyFrom_eq {dest : List Char} {src : Name} (h : src.length < dest.length) :
    ∃ rest, strncpyFrom dest src = src ++ EOS :: rest := by
  induction dest generalizing src with
  | nil => exact absurd h (Nat.not_lt_zero _)
  | cons b dest ih =>
    cases src with
    | nil => exact ⟨dest, rfl⟩
    | cons c src =>
      obtain ⟨rest, hrest⟩ := ih (Nat.lt_of_succ_lt_succ h)
      exact ⟨rest, by rw [strncpyFrom, hrest, List.cons_append]⟩

theorem strncpy_length (dest : List Char) (src : Name) : (strncpy dest src).length = dest.length := by
  unfold strncpy
  split_ifs
  · exact strncpyFrom_length dest src
  · rw [List.length_set, strncpyFrom_length]

/-- What is copied ends in the field. -/
theorem strncpy_terminated {dest : List Char} (src : Name) (h : dest ≠ []) : EOS ∈ strncpy dest src := by
  unfold strncpy
  split_ifs with hlt
  · obtain ⟨rest, hrest⟩ := strncpyFrom_eq hlt
    rw [hrest]
    exact List.mem_append_right _ (List.mem_cons_self ..)
  · have := List.length_pos_iff.mpr h
    exact List.mem_set (by rw [strncpyFrom_length]; omega) _

/-- The entry that `add_entry` makes of an old one. -/
def newEntry (old : Dentry) (name : Name) : Dentry where
  nr := 0
  name := strncpy old.name name
  length := (strncpy_length _ _).trans old.length
  terminated := strncpy_terminated _ fun h => by simpa [h, NAME_LEN] using old.length

theorem newEntry_str {old : Dentry} (hname : EOS ∉ name) (hlt : name.length < NAME_LEN) :
    (newEntry old name).str = name := by
  have hlt' : name.length < old.name.length := by rwa [old.length]
  obtain ⟨rest, hrest⟩ := strncpyFrom_eq hlt'
  change (strncpy old.name name).takeWhile _ = name
  rw [strncpy, if_pos hlt', hrest, List.takeWhile_append_of_pos, List.takeWhile_cons_of_neg,
    List.append_nil]
  · simp
  · intro c hc
    have hne : c ≠ EOS := fun he => hname (he ▸ hc)
    simpa using hne

def setEntry (s : DirStore) (dev block k : ℕ) (entry : Dentry) : DirStore :=
  let slots := Function.update (s.data dev block) k entry
  { s with data := Function.update s.data dev (Function.update (s.data dev) block slots) }

/-- `bmap` with `create`; `fresh` is what it finds for each block without a zone. -/
def bmapCreate (s : DirStore) (dir : Ino) (fresh : ℕ → ℕ) (i : ℕ) : DirStore :=
  let block := if s.block dir i = 0 then fresh i else s.block dir i
  { s with block := Function.update s.block dir (Function.update (s.block dir) i block) }

/-- The buffer of a round of `add_entry`, with the pointer into it. -/
def addBuf (s : DirStore) (dir : Ino) (fresh : ℕ → ℕ) (i : ℕ) (cur : Option (ℕ × ℕ)) :
    Except Halt ((ℕ × ℕ) × DirStore) :=
  match cur.filter fun c => c.2 < BLOCK_SIZE with
  | some cur => .ok (cur, s)
  | none => do
    let s := s.bmapCreate dir fresh (i / BLOCK_DENTRIES)
    let block := s.block dir (i / BLOCK_DENTRIES)
    assert "block" (block ≠ 0)
    .ok ((block, 0), s)

/-- The loop of `add_entry`: the block and the index in it of the new entry. -/
def addFrom (dir : Ino) (name : Name) (fresh : ℕ → ℕ) : ℕ → ℕ → Option (ℕ × ℕ) → DirStore →
    Except Halt ((ℕ × ℕ) × DirStore)
  | 0, _, _, _ => .error (.panic "add_entry does not return")
  | rounds + 1, i, cur, s => do
    let ((buf, entry), s) ← s.addBuf dir fresh i cur
    if s.size dir ≤ i * DENTRY_SIZE then
      let k := entry / DENTRY_SIZE
      let s := { s with size := Function.update s.size dir ((i + 1) * DENTRY_SIZE) }
      .ok ((buf, k), s.setEntry dir.dev buf k (newEntry (s.data dir.dev buf k) name))
    else addFrom dir name fresh rounds (i + 1) (some (buf, entry + DENTRY_SIZE)) s

/-- `add_entry`, with the directory that `find_entry` ends in; it goes once through the entries. -/
def addEntry (s : DirStore) (dir : Ino) (name : Name) (fresh : ℕ → ℕ) : Except Halt (Ino × (ℕ × ℕ) × DirStore) := do
  let (dir, r) ← s.findEntry dir name
  match r with
  | some (buf, k, _) => .ok (dir, (buf, k), s)
  | none => do
    assert "!IS_SEPARATOR(name[i])" (name.all fun c => !isSeparator c)
    let (at_, s) ← addFrom dir name fresh (s.size dir + 1) 0 none s
    .ok (dir, at_, s)

/-- An entry with another number. -/
def withNr (d : Dentry) (nr : UInt16) : Dentry := { d with nr := nr }

/-- `entry->nr = nr` -/
def setNr (s : DirStore) (dir : Ino) (at_ : ℕ × ℕ) (nr : UInt16) : DirStore :=
  s.setEntry dir.dev at_.1 at_.2 (withNr (s.data dir.dev at_.1 at_.2) nr)

/-- What the calls that make a name do: it must not be there. -/
def create (s : DirStore) (dir : Ino) (name : Name) (fresh : ℕ → ℕ) (nr : UInt16) : Except Halt (Option DirStore) := do
  let (dir, r) ← s.findEntry dir name
  match r with
  | some _ => .ok none
  | none => do
    let (dir, at_, s) ← s.addEntry dir name fresh
    .ok (some (s.setNr dir at_ nr))

/-- The new entry is found under its name, the others still are, and the name cannot be made again. -/
structure Created (s : DirStore) (dir dir' : Ino) (name : Name) (at_ : ℕ × ℕ) (nr : UInt16) (s' : DirStore) : Prop where
  found : s'.findEntry dir name = .ok (dir', some (at_.1, at_.2, [])) ∧ (s'.data dir'.dev at_.1 at_.2).nr = nr
  others : ∀ other r, Plain other → other ≠ name → s.findEntry dir' other = .ok (dir', some r) →
    s'.findEntry dir' other = .ok (dir', some r)
  refused : ∀ fresh nr, s'.create dir name fresh nr = .ok none

@[simp] theorem setEntry_same (s : DirStore) (dev block k : ℕ) (entry : Dentry) :
    (s.setEntry dev block k entry).data dev block k = entry := by
  simp [setEntry]

theorem setEntry_ne {s : DirStore} {dev block k k' : ℕ} {entry : Dentry} (h : k' ≠ k) :
    (s.setEntry dev block k entry).data dev block k' = s.data dev block k' := by
  simp [setEntry, h]

/-- While the pointer goes along with the index, the loop ends with the entry behind the last one. -/
theorem addFrom_eq {n rounds i : ℕ} {fresh : ℕ → ℕ} (hsize : s.size dir = n * DENTRY_SIZE) (hn : n < BLOCK_DENTRIES)
    (hi : i ≤ n) (hr : n < i + rounds) (buf : ℕ) :
    addFrom dir name fresh rounds i (some (buf, i * DENTRY_SIZE)) s = .ok ((buf, n),
      { s with size := Function.update s.size dir ((n + 1) * DENTRY_SIZE) }.setEntry dir.dev buf n
        (newEntry (s.data dir.dev buf n) name)) := by
  induction rounds generalizing i with
  | zero => omega
  | succ rounds ih =>
    have hlt : i * DENTRY_SIZE < BLOCK_SIZE :=
      (Nat.mul_lt_mul_right (by decide : 0 < DENTRY_SIZE)).mpr (lt_of_le_of_lt hi hn)
    have hbuf : s.addBuf dir fresh i (some (buf, i * DENTRY_SIZE)) = .ok ((buf, i * DENTRY_SIZE), s) := by
      rw [addBuf, Option.filter_some, if_pos (by simpa using hlt)]
    rw [addFrom, hbuf, ok_bind]
    dsimp only
    rw [hsize]
    by_cases hin : i = n
    · rw [if_pos (by rw [hin]), hin, Nat.mul_div_cancel n (by decide : 0 < DENTRY_SIZE)]
    · rw [if_neg (by unfold DENTRY_SIZE; omega), ← Nat.succ_mul]
      exact ih (by omega) (by omega)


/-- The first round reads the first block, which is created if it must be. -/
theorem addFrom_start {rounds : ℕ} {fresh : ℕ → ℕ} {r : (ℕ × ℕ) × DirStore}
    (h : addFrom dir name fresh (rounds + 1) 0 none s = .ok r) :
    addFrom dir name fresh (rounds + 1) 0 (some ((s.bmapCreate dir fresh 0).block dir 0, 0 * DENTRY_SIZE))
      (s.bmapCreate dir fresh 0) = .ok r := by
  rw [addFrom] at h ⊢
  obtain ⟨b, hb, h⟩ := bind_ok.mp h
  obtain ⟨_, -, hb⟩ := bind_ok.mp hb
  cases hb
  exact h

/-- Where the loops look at the same entries they find the same. -/
theorem findFrom_congr {rounds i : ℕ} {cur : Option (ℕ × ℕ)} (hname : Plain name)
    (hblock : s'.block dir 0 = s.block dir 0) (hseen : ∀ j, i ≤ j → j < i + rounds → s'.seen dir j = s.seen dir j)
    (hc : s.Held dir i cur) : s'.findFrom dir name rounds i cur = s.findFrom dir name rounds i cur := by
  have hc' : s'.Held dir i cur := by
    rw [Held, hblock]
    exact hc
  induction rounds generalizing i cur with
  | zero => rfl
  | succ rounds ih =>
    rw [findFrom_succ hname hc, findFrom_succ hname hc', hblock, hseen i le_rfl (by omega)]
    have hnext : s'.Held dir (i + 1) _ := held_next (i + 1) i
    rw [hblock] at hnext
    rw [ih (fun j h1 h2 => hseen j (by omega) (by omega)) (held_next (i + 1) i) hnext]

/-- A round more changes nothing once something is found. -/
theorem findFrom_extend {rounds i : ℕ} {cur : Option (ℕ × ℕ)} (hname : Plain name) (hc : s.Held dir i cur) :
    s.findFrom dir name (rounds + 1) i cur = match s.findFrom dir name rounds i cur with
      | some r => some r
      | none =>
        if (s.seen dir (i + rounds)).nr ≠ 0 ∧ (s.seen dir (i + rounds)).str = name then
          some (s.block dir 0, (i + rounds) % BLOCK_DENTRIES, [])
        else none := by
  induction rounds generalizing i cur with
  | zero =>
    rw [findFrom_succ hname hc]
    rfl
  | succ rounds ih =>
    rw [findFrom_succ hname hc, ih (held_next _ _), findFrom_succ hname hc, show i + 1 + rounds = i +
      (rounds + 1) by omega]
    split_ifs <;> rfl

/-- The state with a new entry behind the last one. -/
structure Extended (s : DirStore) (dir : Ino) (n : ℕ) (entry : Dentry) (s' : DirStore) : Prop where
  isDir : s'.isDir = s.isDir
  imount : s'.imount = s.imount
  dentries : s'.dentries dir = n + 1
  block : 0 < n → s'.block dir 0 = s.block dir 0
  old : 0 < n → ∀ j < n, s'.seen dir j = s.seen dir j
  new : s'.seen dir n = entry

theorem Extended.searched {n : ℕ} {entry : Dentry} (h : Extended s dir' n entry s') (d : Ino) (c : Name) :
    s'.searched d c = s.searched d c := by
  rw [DirStore.searched, DirStore.searched, h.imount]

theorem Extended.findFrom {n : ℕ} {entry : Dentry} {c : Name} (h : Extended s dir n entry s') (hc : Plain c)
    (hn : n < BLOCK_DENTRIES) : s'.findFrom dir c (n + 1) 0 none = match s.findFrom dir c n 0 none with
      | some r => some r
      | none => if entry.nr ≠ 0 ∧ entry.str = c then some (s'.block dir 0, n, []) else none := by
  rw [findFrom_extend hc held_start, Nat.zero_add, h.new, Nat.mod_eq_of_lt hn]
  cases n with
  | zero => rfl
  | succ n =>
    rw [findFrom_congr hc (h.block (Nat.succ_pos n)) (fun j _ hj => h.old (Nat.succ_pos n) j (by omega)) held_start]

/-- What `add_entry` leaves, once the number is there. -/
theorem addEntry_extended {n : ℕ} {fresh : ℕ → ℕ} {at_ : ℕ × ℕ} (nr : UInt16) (hsize : s.size dir' = n * DENTRY_SIZE)
    (hn : n < BLOCK_DENTRIES) (hblock : 0 < n → s.block dir' 0 ≠ 0) (hfind : s.findEntry dir name = .ok (dir', none))
    (h : s.addEntry dir name fresh = .ok (dir', at_, s')) :
    Plain name ∧ at_ = ((s'.setNr dir' at_ nr).block dir' 0, n) ∧
      ∃ old, Extended s dir' n (withNr (newEntry old name) nr) (s'.setNr dir' at_ nr) := by
  rw [addEntry, hfind, ok_bind] at h
  obtain ⟨_, hplain, h⟩ := bind_ok.mp h
  obtain ⟨⟨at', s₁⟩, hadd, h⟩ := bind_ok.mp h
  cases h
  have hrun := addFrom_start hadd
  rw [addFrom_eq (s := s.bmapCreate dir' fresh 0) (n := n) hsize hn (Nat.zero_le n)
    (by rw [hsize]; unfold DENTRY_SIZE; omega)] at hrun
  cases hrun
  have hplain : Plain name := by simpa [Plain] using assert_ok.mp hplain
  have hsame : 0 < n → (s.bmapCreate dir' fresh 0).block dir' 0 = s.block dir' 0 := fun h0 => by
    simp [bmapCreate, hblock h0]
  refine ⟨hplain, rfl, (s.bmapCreate dir' fresh 0).data dir'.dev ((s.bmapCreate dir' fresh 0).block dir' 0) n,
    rfl, rfl, ?_, hsame, fun h0 j hj => ?_, ?_⟩
  · change Function.update s.size dir' ((n + 1) * DENTRY_SIZE) dir' / DENTRY_SIZE = n + 1
    rw [Function.update_self, Nat.mul_div_cancel _ (by decide : 0 < DENTRY_SIZE)]
  · have hj' : j % BLOCK_DENTRIES ≠ n := by
      rw [Nat.mod_eq_of_lt (by omega)]
      omega
    rw [seen, seen, ← hsame h0, setNr]
    exact (setEntry_ne hj').trans (setEntry_ne hj')
  · rw [seen, Nat.mod_eq_of_lt hn, setNr]
    apply (setEntry_same _ _ _ _ _).trans
    exact congrArg (withNr · nr) (setEntry_same _ _ _ _ _)

/-- A name that does not end in its field is stored without its last characters, and nothing finds it again. -/
theorem addEntry_created_iff {n : ℕ} {fresh : ℕ → ℕ} {at_ : ℕ × ℕ} {nr : UInt16} (hsize : s.size dir' = n * DENTRY_SIZE)
    (hn : n < BLOCK_DENTRIES) (hblock : 0 < n → s.block dir' 0 ≠ 0) (hname : EOS ∉ name) (hnr : nr ≠ 0)
    (hfind : s.findEntry dir name = .ok (dir', none)) (h : s.addEntry dir name fresh = .ok (dir', at_, s')) :
    Created s dir dir' name at_ nr (s'.setNr dir' at_ nr) ↔ name.length < NAME_LEN := by
  obtain ⟨hplain, hat, old, hext⟩ := addEntry_extended nr hsize hn hblock hfind h
  obtain ⟨hdir, hsearched, hnone⟩ := findEntry_eq hfind
  have hlen : s.dentries dir' = n := by
    rw [dentries, hsize, Nat.mul_div_cancel _ (by decide : 0 < DENTRY_SIZE)]
  rw [hlen] at hnone
  generalize hs₂ : s'.setNr dir' at_ nr = s₂ at *
  constructor
  · intro hc
    obtain ⟨-, -, hr⟩ := findEntry_eq hc.found.1
    obtain ⟨-, -, j, -, -, hlive⟩ := findFrom_some hplain held_start hr.symm
    exact hlive.length
  · intro hlt
    have hstr : (withNr (newEntry old name) nr).str = name := newEntry_str hname hlt
    have hfound : s₂.findEntry dir name = .ok (dir', some (at_.1, at_.2, [])) := by
      rw [findEntry, hext.isDir, hdir, assert_true, ok_bind, hext.searched, hsearched, ok_bind, hext.dentries,
        hext.findFrom hplain hn, ← hnone, hat]
      have hnew : (withNr (newEntry old name) nr).nr ≠ 0 := hnr
      simp [hnew, hstr]
    refine ⟨⟨hfound, ?_⟩, fun other r ho hne hr => ?_, fun fresh nr => ?_⟩
    · have hnew := hext.new
      rw [seen, Nat.mod_eq_of_lt hn] at hnew
      rw [hat]
      exact congrArg Dentry.nr hnew
    · obtain ⟨hdir', hs', hr'⟩ := findEntry_eq hr
      rw [hlen] at hr'
      rw [findEntry, hext.isDir, hdir', assert_true, ok_bind, hext.searched, hs', ok_bind, hext.dentries,
        hext.findFrom ho hn, ← hr']
    · rw [create, hfound, ok_bind]

/-- The empty directory of the first block of a device. -/
def freshDir : DirStore := { ownEntries 2 with block := fun _ _ => 10 }

theorem addEntry_created_short : ∃ at_ s', freshDir.addEntry ⟨1, 2⟩ ['a'] (fun _ => 0) = .ok (⟨1, 2⟩, at_, s') ∧
    Created freshDir ⟨1, 2⟩ ⟨1, 2⟩ ['a'] at_ 7 (s'.setNr ⟨1, 2⟩ at_ 7) :=
  ⟨_, _, rfl, (addEntry_created_iff (n := 2) rfl (by decide) (by decide) (by decide) (by decide) rfl rfl).mpr
    (by decide)⟩

/-- A name of fourteen characters. -/
def longName : Name := List.replicate NAME_LEN 'a'

theorem addEntry_loses : ¬ ∀ (s s' : DirStore) (dir dir' : Ino) (name : Name) (n : ℕ) (fresh : ℕ → ℕ) (at_ : ℕ × ℕ)
    (nr : UInt16), s.size dir' = n * DENTRY_SIZE → n < BLOCK_DENTRIES → (0 < n → s.block dir' 0 ≠ 0) → EOS ∉ name →
    nr ≠ 0 → s.findEntry dir name = .ok (dir', none) → s.addEntry dir name fresh = .ok (dir', at_, s') →
    Created s dir dir' name at_ nr (s'.setNr dir' at_ nr) := by
  intro h
  have hc := h freshDir _ ⟨1, 2⟩ ⟨1, 2⟩ longName 2 (fun _ => 0) _ 7 rfl (by decide) (by decide) (by decide) (by decide)
    rfl rfl
  obtain ⟨-, -, hr⟩ := findEntry_eq hc.found.1
  have hplain : Plain longName := by
    intro c hc
    rw [List.eq_of_mem_replicate hc]
    decide
  obtain ⟨-, -, j, -, -, hlive⟩ := findFrom_some hplain held_start hr.symm
  exact absurd hlive.length (by decide)

end DirStore

end Onix
