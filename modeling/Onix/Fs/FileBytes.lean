import Onix.Fs.Offsets

/-! Files beside each other. Any number of open files write to any number of inodes of one
device, and a zone or a table that one of them is given is nobody else's, so each inode
reads back what was written to it. -/

set_option autoImplicit false

namespace Onix

open Lib SharedWrite

namespace ZoneStore

variable {z z' z₁ : ZoneStore} {S : Set Ino} {inode other : Ino} {block idx : ℕ}

/-! ### A write leaves the other files -/

theorem byteAt_congr {x : ℕ} (hz : ∀ b < MAX_BLOCK, z'.zoneAt other (placeOf b) = z.zoneAt other (placeOf b))
    (hd : ∀ b < MAX_BLOCK, z.zoneAt other (placeOf b) ≠ 0 →
      z'.data other.dev (z.zoneAt other (placeOf b)) = z.data other.dev (z.zoneAt other (placeOf b))) :
    z'.byteAt other x = z.byteAt other x := by
  have hzone : (z'.view other 0).zone (x / BLOCK_SIZE) = (z.view other 0).zone (x / BLOCK_SIZE) := by
    by_cases hb : x / BLOCK_SIZE < MAX_BLOCK
    · rw [view_zone 0 hb, view_zone 0 hb, hz _ hb]
    · exact (if_neg hb).trans (if_neg hb).symm
  unfold byteAt Shared.byteAt
  rw [hzone]
  by_cases h0 : (z.view other 0).zone (x / BLOCK_SIZE) = 0
  · rw [if_pos h0, if_pos h0]
  · have hb : x / BLOCK_SIZE < MAX_BLOCK := by
      by_contra hb
      exact h0 (if_neg hb)
    rw [if_neg h0, if_neg h0]
    rw [view_zone 0 hb] at h0 ⊢
    exact congrArg some (congrFun (hd _ hb h0) _)

/-- A block that is given to one file is no block of another. -/
theorem bmap_others (hwf : z.WellFormed S) (hin : inode ∈ S) (ho : other ∈ S) (hne : other ≠ inode) (hb : block < MAX_BLOCK)
    (hroom : z.Maps inode block) (hclean : CleanFrom inode.dev (levels block).2 z (.inode inode (levels block).1))
    (h : z.bmap inode block true = .ok (idx, z₁)) (x : ℕ) : z₁.byteAt other x = z.byteAt other x := by
  have hmarks := bmap_marks hwf hin hb hroom h
  obtain ⟨idx', z', h', ha⟩ := bmap_allocated hwf hin hb hroom hclean
  rw [h] at h'
  cases h'
  have hzone : ∀ b < MAX_BLOCK, z₁.zoneAt other (placeOf b) = z.zoneAt other (placeOf b) := by
    intro b hbm
    have htotal : b < TOTAL_BLOCK := Nat.lt_of_lt_of_le hbm (by decide)
    obtain ⟨r, h1, h2⟩ := ha.others other ho b hbm fun hc => hne hc.1
    rw [bmap_lookup _ _ htotal] at h1 h2
    exact (congrArg Prod.fst (Except.ok.inj h2)).trans (congrArg Prod.fst (Except.ok.inj h1)).symm
  refine byteAt_congr hzone fun b hbm h0 => ?_
  rcases hmarks.data other.dev (z.zoneAt other (placeOf b)) with he | ⟨hd, -, i, q, hv, hq, hq'⟩
  · exact he
  · -- a table of the other file
    have hvq : Valid q := Valid.of_append (t := [i]) hv hq
    rw [← hzone b hbm] at h0 hq'
    exact absurd (ha.wf.own other ho inode hin _ q (placeOf_valid hbm).1 hvq hd h0 hq').1 (Ne.symm hne)

theorem setBlock_others (hwf : z.WellFormed S) (hin : inode ∈ S) (ho : other ∈ S) (hne : other ≠ inode) {p : List ℕ}
    (hp : Valid p) (hl : Leaf p) (h0 : z.zoneAt inode p ≠ 0) (bytes : ℕ → UInt8) (x : ℕ) :
    (z.setBlock inode.dev (z.zoneAt inode p) bytes).byteAt other x = z.byteAt other x := by
  refine byteAt_congr (fun b hb => setBlock_zoneAt hwf hin hp hl h0 bytes ho (placeOf_valid hb).1) fun b hb hb0 => ?_
  change Function.update z.data inode.dev _ other.dev _ = _
  by_cases hd : other.dev = inode.dev
  · have hzone : z.zoneAt other (placeOf b) ≠ z.zoneAt inode p := fun he =>
      hne (hwf.own inode hin other ho p _ hp (placeOf_valid hb).1 hd.symm h0 he).1
    rw [hd, Function.update_self, Function.update_of_ne hzone]
  · rw [Function.update_of_ne hd]

/-- `inode_write` on one file changes no byte of another. -/
theorem writeFrom_others (hin : inode ∈ S) (ho : other ∈ S) (hne : other ≠ inode) {rounds : ℕ} {p : Progress}
    (hwf : z.WellFormed S) (hstart : p.start ≤ p.offset) (hend : p.start + p.bytes.length ≤ MAX_BLOCK * BLOCK_SIZE)
    (hplaces : p.offset < p.start + p.bytes.length →
      z.Enough inode (placesAt p.offset (p.start + p.bytes.length - p.offset)) ∧
        z.Clean inode (placesAt p.offset (p.start + p.bytes.length - p.offset)))
    (h : writeFrom inode rounds p z = .ok z') (x : ℕ) : z'.byteAt other x = z.byteAt other x := by
  induction rounds generalizing p z with
  | zero =>
    cases h
    rfl
  | succ rounds ih =>
    rw [writeFrom] at h
    by_cases hp : p.offset < p.start + p.bytes.length
    · rw [if_pos hp] at h
      obtain ⟨⟨idx, z₁⟩, hmap, h⟩ := bind_ok.mp h
      obtain ⟨_, -, h⟩ := bind_ok.mp h
      obtain ⟨_, -, hreckon⟩ := bind_ok.mp hmap
      have hb : p.offset / BLOCK_SIZE < MAX_BLOCK := by
        rw [Nat.div_lt_iff_lt_mul (by decide)]
        omega
      have hchars : Shared.chars p = min (BLOCK_SIZE - p.offset % BLOCK_SIZE) (p.start + p.bytes.length - p.offset) := by
        rw [Shared.chars, show p.bytes.length - (p.offset - p.start) = p.start + p.bytes.length - p.offset by omega]
      obtain ⟨rest, hsplit, hrest, hnext⟩ := placesAt_round hp hend hchars
      obtain ⟨henough, hclean⟩ := hplaces hp
      rw [hsplit] at henough hclean
      have hw := walk_bmap hwf hin hb
      obtain ⟨hvalid, hleaf⟩ := placeOf_valid hb
      have hroom := henough.walk hw hrest hclean
      have hblank := hclean.walk hw hroom hrest
      obtain ⟨hwf₁, hne0, hidx, -⟩ := bmap_bytes hwf hin hb (fun _ => hroom) hblank hmap
      have hfirst := bmap_others hwf hin ho hne hb (fun _ => hroom) hblank hmap x
      have hwf₂ := setBlock_wellFormed hwf₁ hin hvalid hleaf (hidx ▸ hne0) (Shared.copy p (z₁.data inode.dev idx))
      have hsecond := setBlock_others hwf₁ hin ho hne hvalid hleaf (hidx ▸ hne0) (Shared.copy p (z₁.data inode.dev idx)) x
      have hvisited := (reckon_visited hw hleaf hroom hblank hrest hreckon).trans
        (setBlock_visited hwf₁ hin hvalid hleaf (hidx ▸ hne0) (Shared.copy p (z₁.data inode.dev idx)) hrest)
      rw [hidx] at hwf₂ hvisited hsecond
      rw [ih (p := { p with offset := p.offset + Shared.chars p }) hwf₂ (by dsimp only; omega) hend
        (fun hlt => ?_) h, hsecond, hfirst]
      dsimp only at hlt ⊢
      rw [hnext hlt]
      exact ⟨hvisited.enough henough, hvisited.clean hclean⟩
    · rw [if_neg hp] at h
      cases h
      rfl

end ZoneStore

/-! ### Open files -/

/-- Regular files by their inodes, and the entries `F` of the file table that are open. `last` is a record: the byte that
was last written to an inode at each offset. -/
structure FileBytes (F : Type) where
  zones : ZoneStore
  size : Ino → ℕ
  last : Ino → ℕ → Option UInt8
  inode : F → Ino
  flags : F → UInt32
  offset : F → UInt32

inductive FileCall (F : Type)
  /-- `sys_open` gives the entry to an inode that is there. -/
  | openFile (f : F) (inode : Ino) (flags : UInt32)
  | call (f : F) (c : SeekCall)

namespace FileBytes

variable {F : Type} [DecidableEq F]

/-- What one entry sees. -/
def file (s : FileBytes F) (f : F) : Sparse := ⟨s.zones, s.size (s.inode f), s.offset f, s.last (s.inode f)⟩

def put (s : FileBytes F) (f : F) (file : Sparse) : FileBytes F :=
  { s with
    zones := file.zones
    size := Function.update s.size (s.inode f) file.size
    last := Function.update s.last (s.inode f) file.last
    offset := Function.update s.offset f file.offset }

def exec (s : FileBytes F) : FileCall F → Except Halt (FileBytes F)
  | .openFile f inode flags =>
    .ok { s with inode := Function.update s.inode f inode, flags := Function.update s.flags f flags,
                 offset := Function.update s.offset f 0 }
  | .call f c => do
    let (_, file) ← (s.file f).call (s.inode f) (s.flags f) c
    .ok (s.put f file)

def Step (s : FileBytes F) (e : FileCall F) (s' : FileBytes F) : Prop := s.exec e = .ok s'

/-- The bytes of an inode as they would be read from its start. -/
def contents (s : FileBytes F) (inode : Ino) : Sparse := ⟨s.zones, s.size inode, 0, s.last inode⟩

/-- The files in `S` hold what the record says, and the entries are open on some of them. -/
structure Init (S : Set Ino) (s : FileBytes F) : Prop where
  wf : s.zones.WellFormed S
  size : ∀ inode ∈ S, s.size inode ≤ ZoneStore.MAX_BLOCK * BLOCK_SIZE
  bytes : ∀ inode ∈ S, ∀ x < s.size inode, s.zones.byteAt inode x = some ((s.last inode x).getD 0)
  last : ∀ inode ∈ S, ∀ x, s.size inode ≤ x → s.last inode x = none
  entries : ∀ f, s.inode f ∈ S

/-- A write has blocks, zones and blank tables as for one file. -/
def Fits (S : Set Ino) (s : FileBytes F) : FileCall F → Prop
  | .openFile _ inode _ => inode ∈ S
  | .call f (.write bytes) => (s.file f).Fits (s.inode f) (.write bytes)
  | .call _ _ => True

structure Inv (S : Set Ino) (s : FileBytes F) : Prop where
  files : ∀ inode ∈ S, Sparse.Inv S inode (s.contents inode)
  entries : ∀ f, s.inode f ∈ S

variable {S : Set Ino} {s s' : FileBytes F} {f : F}

omit [DecidableEq F] in
theorem inv_init (h : Init S s) : Inv S s :=
  ⟨fun inode hin => ⟨h.wf, hin, h.size inode hin, h.bytes inode hin, h.last inode hin⟩, h.entries⟩

omit [DecidableEq F] in
theorem Inv.file (h : Inv S s) (f : F) : Sparse.Inv S (s.inode f) (s.file f) := by
  obtain ⟨hwf, hmem, hsize, hbytes, hlast⟩ := h.files _ (h.entries f)
  exact ⟨hwf, hmem, hsize, hbytes, hlast⟩

/-- The other files are as they were where no byte of them has changed. -/
theorem Inv.put (h : Inv S s) {file : Sparse} (hfile : Sparse.Inv S (s.inode f) file)
    (hothers : ∀ other ∈ S, other ≠ s.inode f → ∀ x, file.zones.byteAt other x = s.zones.byteAt other x) :
    Inv S (s.put f file) := by
  refine ⟨fun inode hin => ?_, h.entries⟩
  by_cases hi : inode = s.inode f
  · obtain ⟨hwf, hmem, hsize, hbytes, hlast⟩ := hfile
    have hs : (s.put f file).size inode = file.size := by rw [hi]; exact Function.update_self ..
    have hl : (s.put f file).last inode = file.last := by rw [hi]; exact Function.update_self ..
    unfold contents
    rw [hs, hl, hi]
    exact ⟨hwf, hmem, hsize, hbytes, hlast⟩
  · obtain ⟨-, hmem, hsize, hbytes, hlast⟩ := h.files inode hin
    have hs : (s.put f file).size inode = s.size inode := Function.update_of_ne hi _ _
    have hl : (s.put f file).last inode = s.last inode := Function.update_of_ne hi _ _
    unfold contents
    rw [hs, hl]
    refine ⟨hfile.wf, hmem, hsize, fun x hx => ?_, hlast⟩
    exact (hothers inode hin hi x).trans (hbytes x hx)

/-- A call that is no write moves the offset at most. -/
theorem call_quiet {file file' : Sparse} {inode : Ino} {flags : UInt32} {c : SeekCall} {ret : Int32}
    (hc : ∀ bytes, c ≠ .write bytes) (h : file.call inode flags c = .ok (ret, file')) :
    file'.zones = file.zones ∧ file'.size = file.size ∧ file'.last = file.last := by
  cases c with
  | lseek offset whence =>
    cases h
    cases whence <;> exact ⟨rfl, rfl, rfl⟩
  | read len =>
    obtain ⟨_, -, h⟩ := bind_ok.mp (show file.sysRead inode flags len = _ from h)
    split_ifs at h
    · cases h
      exact ⟨rfl, rfl, rfl⟩
    · obtain ⟨r, -, h⟩ := bind_ok.mp h
      cases r with
      | none =>
        cases h
        exact ⟨rfl, rfl, rfl⟩
      | some bytes =>
        cases h
        exact ⟨rfl, rfl, rfl⟩
  | write bytes => exact absurd rfl (hc bytes)

theorem write_call {file file' : Sparse} {inode : Ino} {flags : UInt32} {bytes : List UInt8} {ret : Int32}
    (h : file.call inode flags (.write bytes) = .ok (ret, file')) :
    file' = file ∨ file.sysWrite inode bytes = .ok file' := by
  obtain ⟨_, -, h⟩ := bind_ok.mp (show file.sysWriteCall inode flags bytes = _ from h)
  split_ifs at h
  · cases h
    exact .inl rfl
  · obtain ⟨file₁, hw, h⟩ := bind_ok.mp h
    cases h
    exact .inr hw

theorem step_inv (h : Inv S s) {e : FileCall F} (hfits : s.Fits S e) (hs : Step s e s') : Inv S s' := by
  cases e with
  | openFile f inode flags =>
    cases hs
    refine ⟨h.files, fun g => ?_⟩
    change Function.update s.inode f inode g ∈ S
    by_cases hg : g = f
    · rw [hg, Function.update_self]
      exact hfits
    · rw [Function.update_of_ne hg]
      exact h.entries g
  | call f c =>
    obtain ⟨⟨ret, file⟩, hcall, he⟩ := bind_ok.mp hs
    cases he
    have hmine := h.file f
    by_cases hc : ∃ bytes, c = .write bytes
    · obtain ⟨bytes, rfl⟩ := hc
      rcases write_call hcall with rfl | hw
      · exact h.put hmine fun _ _ _ _ => rfl
      · refine h.put (Sparse.write_inv hmine hfits hw) fun other ho hne x => ?_
        obtain ⟨hend, henough, hclean, -⟩ := hfits
        obtain ⟨_, -, hw⟩ := bind_ok.mp hw
        obtain ⟨z, hz, he⟩ := bind_ok.mp hw
        cases he
        refine ZoneStore.writeFrom_others (p := (s.file f).progress bytes) hmine.mem ho hne hmine.wf le_rfl hend (fun _ => ?_) hz x
        simp only [Sparse.progress, Nat.add_sub_cancel_left]
        exact ⟨henough, hclean⟩
    · obtain ⟨hz, hsize, hlast⟩ := call_quiet (fun bytes he => hc ⟨bytes, he⟩) hcall
      obtain ⟨hwf, hmem, hsz, hbytes, hl⟩ := hmine
      refine h.put ⟨hz ▸ hwf, hmem, hsize ▸ hsz, fun x hx => ?_, fun x hx => ?_⟩ fun _ _ _ x => by rw [hz]; rfl
      · rw [hz, hlast]
        exact hbytes x (hsize ▸ hx)
      · rw [hlast]
        exact hl x (hsize ▸ hx)

end FileBytes
end Onix
