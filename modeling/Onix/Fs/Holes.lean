import Onix.Fs.ZoneAlloc

/-! Reading a file that was written here and there. The blocks between two writes may have no zone, and what a zone
holds before its first write is what its last owner left. -/

set_option autoImplicit false

namespace Onix

open Lib SharedWrite

namespace ZoneStore

/-- The loop of `inode_read`, with `left` bytes to read. -/
def readFrom (inode : Ino) (z : ZoneStore) : ℕ → ℕ → ℕ → Except Halt (List UInt8)
  | 0, _, _ => .ok []
  | rounds + 1, offset, left =>
    if left = 0 then .ok []
    else do
      let (idx, _) ← z.bmap inode (offset / BLOCK_SIZE) false
      assert "idx" (idx ≠ 0)
      let chars := min (BLOCK_SIZE - offset % BLOCK_SIZE) left
      let rest ← readFrom inode z rounds (offset + chars) (left - chars)
      .ok ((List.range chars).map (fun i => z.data inode.dev idx (offset % BLOCK_SIZE + i)) ++ rest)

/-- The places that `inode_write` visits: those on the way to each block between the offset and the end. -/
def placesAt (offset len : ℕ) : List (List ℕ) :=
  (List.range' (offset / BLOCK_SIZE) ((offset + len - 1) / BLOCK_SIZE + 1 - offset / BLOCK_SIZE)).flatMap wayTo

/-- The blocks of a file with their zones, without the tables. -/
def view (z : ZoneStore) (inode : Ino) (size : ℕ) : Shared Unit where
  offset := 0
  size := size
  zone block := if block < MAX_BLOCK then z.zoneAt inode (placeOf block) else 0
  data := z.data inode.dev
  call _ := none
  initial := 0
  written := []

/-- The byte at an offset of a file, if its block has a zone. -/
def byteAt (z : ZoneStore) (inode : Ino) (x : ℕ) : Option UInt8 := (z.view inode 0).byteAt x

end ZoneStore

/-- `whence_t` -/
inductive Whence
  | seekSet
  | seekCur
  | seekEnd
  deriving DecidableEq

/-- A regular file that is open for writing. `last` is a record: the byte that was last written at each offset. -/
structure Sparse where
  zones : ZoneStore
  /-- `desc->size` -/
  size : ℕ
  /-- `file->offset` -/
  offset : UInt32
  last : ℕ → Option UInt8

inductive SparseEvent
  | lseek (offset : UInt32) (whence : Whence)
  | write (bytes : List UInt8)

namespace Sparse

/-- `sys_lseek`; its assertions hold, since `off_t` has no sign. -/
def sysLseek (s : Sparse) (offset : UInt32) : Whence → Sparse
  | .seekSet => { s with offset := offset }
  | .seekCur => { s with offset := s.offset + offset }
  | .seekEnd => { s with offset := UInt32.ofNat s.size + offset }

/-- What `inode_write` starts with. -/
def progress (s : Sparse) (bytes : List UInt8) : Progress := ⟨s.offset.toNat, s.offset.toNat, bytes⟩

def sysWrite (inode : Ino) (s : Sparse) (bytes : List UInt8) : Except Halt Sparse := do
  assert "len > 0" (0 < bytes.length)
  let start := s.offset.toNat
  let zones ← ZoneStore.writeFrom inode bytes.length (s.progress bytes) s.zones
  .ok
    { zones := zones
      size := max (start + bytes.length) s.size
      offset := s.offset + UInt32.ofNat bytes.length
      last := fun x => if start ≤ x ∧ x < start + bytes.length then bytes[x - start]? else s.last x }

def exec (inode : Ino) (s : Sparse) : SparseEvent → Except Halt Sparse
  | .lseek offset whence => .ok (s.sysLseek offset whence)
  | .write bytes => s.sysWrite inode bytes

def Step (inode : Ino) (s : Sparse) (e : SparseEvent) (s' : Sparse) : Prop := s.exec inode e = .ok s'

/-- The file is empty, among others in `S`. -/
structure Init (S : Set Ino) (inode : Ino) (s : Sparse) : Prop where
  wf : s.zones.WellFormed S
  mem : inode ∈ S
  size : s.size = 0
  last : s.last = fun _ => none

/-- `inode_read` -/
def inodeRead (inode : Ino) (s : Sparse) (len offset : ℕ) : Except Halt (Option (List UInt8)) :=
  if s.size ≤ offset then .ok none
  else do
    let bytes ← s.zones.readFrom inode len offset (min len (s.size - offset))
    .ok (some bytes)

/-- Every range of the file reads as what was last written to it, and as zero where nothing was. -/
def Right (inode : Ino) (s : Sparse) : Prop :=
  ∀ offset len, 0 < len → offset + len ≤ s.size →
    s.inodeRead inode len offset = .ok (some ((List.range len).map fun i => (s.last (offset + i)).getD 0))

/-- The bytes that a write leaves out behind the end of the file are there and zero, or come to lie in the zone that
the first block is given, which has zeros there. -/
def Gapless (inode : Ino) (s : Sparse) : Prop :=
  ∀ x, s.size ≤ x → x < s.offset.toNat → s.zones.byteAt inode x = some 0 ∨
    x / BLOCK_SIZE = s.offset.toNat / BLOCK_SIZE ∧
      ∃ zone, s.zones.Given inode (ZoneStore.wayTo (x / BLOCK_SIZE)) (ZoneStore.placeOf (x / BLOCK_SIZE)) zone ∧
        s.zones.data inode.dev zone (x % BLOCK_SIZE) = 0

/-- What a write needs: blocks in range of the tables, zones for them, blank ones for tables, and no gap. -/
def Fits (inode : Ino) (s : Sparse) : SparseEvent → Prop
  | .lseek _ _ => True
  | .write bytes =>
    s.offset.toNat + bytes.length ≤ ZoneStore.MAX_BLOCK * BLOCK_SIZE ∧
      s.zones.Enough inode (ZoneStore.placesAt s.offset.toNat bytes.length) ∧
      s.zones.Clean inode (ZoneStore.placesAt s.offset.toNat bytes.length) ∧ s.Gapless inode

end Sparse

/-! ### Reading -/

namespace ZoneStore

variable {z z' z₁ : ZoneStore} {S : Set Ino} {inode other : Ino} {block idx : ℕ}

theorem view_zone (size : ℕ) (h : block < MAX_BLOCK) :
    (z.view inode size).zone block = z.zoneAt inode (placeOf block) := if_pos h

/-- In the range of the tables a read sees the blocks only. -/
theorem readFrom_view (size rounds offset left : ℕ) (h : offset + left ≤ MAX_BLOCK * BLOCK_SIZE) :
    z.readFrom inode rounds offset left = (z.view inode size).readFrom rounds offset left := by
  induction rounds generalizing offset left with
  | zero => rfl
  | succ rounds ih =>
    rw [readFrom, Shared.readFrom]
    by_cases hl : left = 0
    · rw [if_pos hl, if_pos hl]
    · have hb : offset / BLOCK_SIZE < MAX_BLOCK := by
        rw [Nat.div_lt_iff_lt_mul (by decide)]
        omega
      have htotal : offset / BLOCK_SIZE < TOTAL_BLOCK := Nat.lt_of_lt_of_le hb (by decide)
      rw [if_neg hl, if_neg hl, bmap_lookup z inode htotal, ok_bind, view_zone size hb]
      dsimp only
      rw [ih _ _ (by omega)]
      rfl

/-- Different blocks have different zones. -/
theorem view_own (hwf : z.WellFormed S) (hin : inode ∈ S) (b c : ℕ) (hb : (z.view inode 0).zone b ≠ 0)
    (hbc : (z.view inode 0).zone b = (z.view inode 0).zone c) : b = c := by
  have hlt : ∀ d, (z.view inode 0).zone d ≠ 0 → d < MAX_BLOCK := by
    intro d hd
    by_contra hlt
    exact hd (if_neg hlt)
  have hb' := hlt b hb
  have hc' := hlt c (hbc ▸ hb)
  rw [view_zone 0 hb'] at hb hbc
  rw [view_zone 0 hc'] at hbc
  exact (placeOf_injective (hwf.own inode hin inode hin _ _ (placeOf_valid hb').1 (placeOf_valid hc').1 rfl hb
    hbc.symm).2).symm

/-! ### Writing -/

theorem bmap_marks (hwf : z.WellFormed S) (hin : inode ∈ S) (hb : block < MAX_BLOCK) (hroom : z.Maps inode block)
    (h : z.bmap inode block true = .ok (idx, z₁)) : z.Marks inode z₁ := by
  obtain ⟨_, hlt, h⟩ := bind_ok.mp h
  have hlt : block < TOTAL_BLOCK := by simpa using hlt
  exact reckon_marks (p := [(levels block).1]) (placeOf_valid hb).1 trivial (hwf.base inode hin) (hroom hlt) h

/-- The block has a zone then, and no byte of the file has changed. -/
theorem bmap_bytes (hwf : z.WellFormed S) (hin : inode ∈ S) (hb : block < MAX_BLOCK) (hroom : z.Maps inode block)
    (hclean : CleanFrom inode.dev (levels block).2 z (.inode inode (levels block).1))
    (h : z.bmap inode block true = .ok (idx, z₁)) :
    z₁.WellFormed S ∧ idx ≠ 0 ∧ z₁.zoneAt inode (placeOf block) = idx ∧
      ∀ x v, z.byteAt inode x = some v → z₁.byteAt inode x = some v := by
  have htotal : block < TOTAL_BLOCK := Nat.lt_of_lt_of_le hb (by decide)
  have hmarks := bmap_marks hwf hin hb hroom h
  obtain ⟨idx', z', h', ha⟩ := bmap_allocated hwf hin hb hroom hclean
  rw [h] at h'
  cases h'
  have hsame := ha.same
  rw [bmap_lookup z₁ inode htotal] at hsame
  refine ⟨ha.wf, ha.used.1, congrArg Prod.fst (Except.ok.inj hsame), fun x v hx => ?_⟩
  obtain ⟨hz, hv⟩ := Shared.byteAt_eq_some.mp hx
  have hxb : x / BLOCK_SIZE < MAX_BLOCK := by
    by_contra hlt
    exact hz (if_neg hlt)
  rw [view_zone 0 hxb] at hz hv
  have hzone := hmarks.keeps.zoneAt hz
  apply Shared.byteAt_eq_some.mpr
  rw [view_zone 0 hxb, hzone]
  refine ⟨hz, ?_⟩
  rcases hmarks.data inode.dev (z.zoneAt inode (placeOf (x / BLOCK_SIZE))) with he | ⟨-, -, i, q, hv', hq, hq'⟩
  · exact (congrFun he _).trans hv
  · -- a table stands nowhere else, and not where data do
    obtain ⟨hvalid, hleaf⟩ := placeOf_valid hxb
    have hvq : Valid q := Valid.of_append (t := [i]) hv' hq
    obtain ⟨-, rfl⟩ := ha.wf.own inode hin inode hin _ q hvalid hvq rfl (hzone ▸ hz) (hq'.trans hzone.symm)
    exact absurd hv' (hleaf.not_valid hq)

/-- What is written to a data zone is no table's entry. -/
theorem setBlock_zoneAt (hwf : z.WellFormed S) (hin : inode ∈ S) {p q : List ℕ} (hp : Valid p) (hl : Leaf p)
    (hne : z.zoneAt inode p ≠ 0) (bytes : ℕ → UInt8) (ho : other ∈ S) (hq : Valid q) :
    (z.setBlock inode.dev (z.zoneAt inode p) bytes).zoneAt other q = z.zoneAt other q := by
  induction q with
  | nil => rfl
  | cons i up ih =>
    by_cases hup : up = []
    · subst hup
      rfl
    · obtain ⟨j, up, rfl⟩ := List.exists_cons_of_ne_nil hup
      rw [zoneAt_cons _ _ _ hup, zoneAt_cons _ _ _ hup, ih hq.tail]
      split_ifs with hzero
      · rfl
      · have hdata : (z.setBlock inode.dev (z.zoneAt inode p) bytes).data other.dev (z.zoneAt other (j :: up)) =
            z.data other.dev (z.zoneAt other (j :: up)) := by
          change Function.update z.data inode.dev _ other.dev _ = _
          by_cases hd : other.dev = inode.dev
          · have hzone : z.zoneAt other (j :: up) ≠ z.zoneAt inode p := by
              intro he
              obtain ⟨-, hpath⟩ := hwf.own inode hin other ho p (j :: up) hp hq.tail hd.symm hne he
              exact hl.not_valid hp.ne_nil (hpath ▸ hq)
            rw [hd, Function.update_self, Function.update_of_ne hzone]
          · rw [Function.update_of_ne hd]
        rw [read, read, hdata]

theorem setBlock_wellFormed (hwf : z.WellFormed S) (hin : inode ∈ S) {p : List ℕ} (hp : Valid p) (hl : Leaf p)
    (hne : z.zoneAt inode p ≠ 0) (bytes : ℕ → UInt8) :
    (z.setBlock inode.dev (z.zoneAt inode p) bytes).WellFormed S := by
  have hsame := fun {x : Ino} {q : List ℕ} (hx : x ∈ S) (hq : Valid q) =>
    setBlock_zoneAt hwf hin hp hl hne bytes hx hq
  refine ⟨hwf.base, fun x hx q hq => ?_, fun x hx y hy q r hq hr => ?_⟩
  · rw [hsame hx hq]
    exact hwf.used x hx q hq
  · rw [hsame hx hq, hsame hy hr]
    exact hwf.own x hx y hy q r hq hr

/-- What is written to a data zone changes none of the zones that are still to be given. -/
theorem setBlock_visited (hwf : z.WellFormed S) (hin : inode ∈ S) {p : List ℕ} (hp : Valid p) (hl : Leaf p)
    (hne : z.zoneAt inode p ≠ 0) (bytes : ℕ → UInt8) {rest : List (List ℕ)} (hrest : ∀ q ∈ rest, Valid q) :
    Visited z inode rest (z.setBlock inode.dev (z.zoneAt inode p) bytes) rest := by
  have hmissing := missing_congr fun q hq => setBlock_zoneAt hwf hin hp hl hne bytes hin (hrest q hq)
  have hgiven : ∀ q zone, z.Given inode rest q zone ↔
      (z.setBlock inode.dev (z.zoneAt inode p) bytes).Given inode rest q zone := by
    intro q zone
    unfold Given
    rw [hmissing]
    rfl
  refine ⟨fun q hq => hmissing ▸ hq, fun q _ zone => hgiven q zone, fun q zone hg => ?_⟩
  have hzone : zone ≠ z.zoneAt inode p := by
    rintro rfl
    exact ((hgiven q _).mpr hg).unused (hwf.base inode hin).1 (hwf.used inode hin p hp hne)
  change Function.update z.data inode.dev _ inode.dev zone = _
  rw [Function.update_self, Function.update_of_ne hzone]

/-- The first round visits the places on the way to its block, and what comes after it the others. -/
theorem placesAt_round {offset stop chars : ℕ} (hlt : offset < stop) (hstop : stop ≤ MAX_BLOCK * BLOCK_SIZE)
    (hchars : chars = min (BLOCK_SIZE - offset % BLOCK_SIZE) (stop - offset)) :
    ∃ rest, placesAt offset (stop - offset) = wayTo (offset / BLOCK_SIZE) ++ rest ∧ (∀ q ∈ rest, Valid q) ∧
      (offset + chars < stop → placesAt (offset + chars) (stop - (offset + chars)) = rest) := by
  have hle : offset / BLOCK_SIZE ≤ (stop - 1) / BLOCK_SIZE := Nat.div_le_div_right (by omega)
  have hmax : (stop - 1) / BLOCK_SIZE < MAX_BLOCK := by
    rw [Nat.div_lt_iff_lt_mul (by decide)]
    omega
  refine ⟨(List.range' (offset / BLOCK_SIZE + 1) ((stop - 1) / BLOCK_SIZE - offset / BLOCK_SIZE)).flatMap wayTo,
    ?_, fun q hq => ?_, fun hnext => ?_⟩
  · rw [placesAt, show offset + (stop - offset) - 1 = stop - 1 by omega, Nat.succ_sub hle, List.range'_succ,
      List.flatMap_cons]
  · obtain ⟨block, hblock, hq⟩ := List.mem_flatMap.mp hq
    have hrange := List.mem_range'_1.mp hblock
    exact way_valid (placeOf_valid (show block < MAX_BLOCK by omega)).1 (List.cons_ne_nil _ _) q hq
  · have hdiv : (offset + chars) / BLOCK_SIZE = offset / BLOCK_SIZE + 1 := by
      unfold BLOCK_SIZE at *
      omega
    rw [placesAt, hdiv, show offset + chars + (stop - (offset + chars)) - 1 = stop - 1 by omega,
      show (stop - 1) / BLOCK_SIZE + 1 - (offset / BLOCK_SIZE + 1) = (stop - 1) / BLOCK_SIZE - offset / BLOCK_SIZE by
        omega]

/-- A round writes its bytes and no others. -/
theorem setBlock_bytes (hwf : z.WellFormed S) (hin : inode ∈ S) {p : Progress} (hb : p.offset / BLOCK_SIZE < MAX_BLOCK)
    (hidx : z.zoneAt inode (placeOf (p.offset / BLOCK_SIZE)) = idx) (hne : idx ≠ 0) (x : ℕ) :
    (z.setBlock inode.dev idx (Shared.copy p (z.data inode.dev idx))).byteAt inode x =
      if p.offset ≤ x ∧ x < p.offset + Shared.chars p then some (p.bytes.getD (p.offset - p.start + (x - p.offset)) 0)
      else z.byteAt inode x := by
  subst hidx
  obtain ⟨hvalid, hleaf⟩ := placeOf_valid hb
  have hzone : (z.view inode 0).zone (p.offset / BLOCK_SIZE) = z.zoneAt inode (placeOf (p.offset / BLOCK_SIZE)) :=
    view_zone 0 hb
  have hmem := Shared.memcpy_byteAt (t := ()) (p := p) (view_own hwf hin) (hzone ▸ hne) x
  rw [hzone] at hmem
  refine Eq.trans ?_ hmem
  generalize hn : z.zoneAt inode (placeOf (p.offset / BLOCK_SIZE)) = n at *
  have hz : ((z.view inode 0).memcpy () p n).zone = (z.view inode 0).zone := by
    unfold Shared.memcpy
    dsimp only
    split_ifs <;> rfl
  have hd : ((z.view inode 0).memcpy () p n).data =
      Function.update (z.data inode.dev) n (Shared.copy p (z.data inode.dev n)) := by
    unfold Shared.memcpy
    dsimp only
    split_ifs <;> rfl
  have hz' : ((z.setBlock inode.dev n (Shared.copy p (z.data inode.dev n))).view inode 0).zone =
      (z.view inode 0).zone := by
    funext b
    by_cases hbm : b < MAX_BLOCK
    · rw [view_zone 0 hbm, view_zone 0 hbm, ← hn]
      exact setBlock_zoneAt hwf hin hvalid hleaf (hn ▸ hne) _ hin (placeOf_valid hbm).1
    · exact (if_neg hbm).trans (if_neg hbm).symm
  have hd' : ((z.setBlock inode.dev n (Shared.copy p (z.data inode.dev n))).view inode 0).data =
      Function.update (z.data inode.dev) n (Shared.copy p (z.data inode.dev n)) :=
    Function.update_self ..
  rw [byteAt, Shared.byteAt, Shared.byteAt, hz, hd, hz', hd']

/-- What the loop of `inode_write` does to the bytes of the file. -/
structure Stored (z : ZoneStore) (inode : Ino) (p : Progress) (z' : ZoneStore) : Prop where
  new : ∀ x, p.offset ≤ x → x < p.start + p.bytes.length → z'.byteAt inode x = some (p.bytes.getD (x - p.start) 0)
  old : ∀ x v, ¬ (p.offset ≤ x ∧ x < p.start + p.bytes.length) → z.byteAt inode x = some v →
    z'.byteAt inode x = some v
  /-- Before the offset, a first block without a zone is as the zone that it is given. -/
  first : ∀ x zone, x < p.offset → p.offset < p.start + p.bytes.length → x / BLOCK_SIZE = p.offset / BLOCK_SIZE →
    z.Given inode (wayTo (x / BLOCK_SIZE)) (placeOf (x / BLOCK_SIZE)) zone →
      z'.byteAt inode x = some (z.data inode.dev zone (x % BLOCK_SIZE))

theorem writeFrom_stored (hin : inode ∈ S) {rounds : ℕ} {p : Progress} (hwf : z.WellFormed S)
    (hstart : p.start ≤ p.offset) (hend : p.start + p.bytes.length ≤ MAX_BLOCK * BLOCK_SIZE)
    (hr : p.start + p.bytes.length ≤ p.offset + rounds)
    (hplaces : p.offset < p.start + p.bytes.length →
      z.Enough inode (placesAt p.offset (p.start + p.bytes.length - p.offset)) ∧
        z.Clean inode (placesAt p.offset (p.start + p.bytes.length - p.offset)))
    (h : writeFrom inode rounds p z = .ok z') : z'.WellFormed S ∧ z.Stored inode p z' := by
  induction rounds generalizing p z with
  | zero =>
    cases h
    exact ⟨hwf, fun x h1 h2 => by omega, fun x v _ hx => hx, fun x _ _ h2 => by omega⟩
  | succ rounds ih =>
    rw [writeFrom] at h
    by_cases hp : p.offset < p.start + p.bytes.length
    · rw [if_pos hp] at h
      obtain ⟨⟨idx, z₁⟩, hmap, h⟩ := bind_ok.mp h
      obtain ⟨_, -, h⟩ := bind_ok.mp h
      obtain ⟨_, -, hreckon⟩ := bind_ok.mp hmap
      have hb : p.offset / BLOCK_SIZE < MAX_BLOCK := by
        rw [Nat.div_lt_iff_lt_mul (by decide)]
        omega
      have hmod : p.offset % BLOCK_SIZE < BLOCK_SIZE := Nat.mod_lt _ (by decide)
      have hchars : Shared.chars p = min (BLOCK_SIZE - p.offset % BLOCK_SIZE)
          (p.start + p.bytes.length - p.offset) := by
        rw [Shared.chars, show p.bytes.length - (p.offset - p.start) = p.start + p.bytes.length - p.offset by omega]
      -- the places of this round and those of the rounds after it
      obtain ⟨rest, hsplit, hrest, hnext⟩ := placesAt_round hp hend hchars
      obtain ⟨henough, hclean⟩ := hplaces hp
      rw [hsplit] at henough hclean
      have hw := walk_bmap hwf hin hb
      obtain ⟨hvalid, hleaf⟩ := placeOf_valid hb
      have hroom := henough.walk hw hrest hclean
      have hblank := hclean.walk hw hroom hrest
      obtain ⟨hwf₁, hne, hidx, hold⟩ := bmap_bytes hwf hin hb (fun _ => hroom) hblank hmap
      have hset := setBlock_bytes hwf₁ hin (p := p) hb hidx hne
      have hwf₂ := setBlock_wellFormed hwf₁ hin hvalid hleaf (hidx ▸ hne) (Shared.copy p (z₁.data inode.dev idx))
      have hvisited := (reckon_visited hw hleaf hroom hblank hrest hreckon).trans
        (setBlock_visited hwf₁ hin hvalid hleaf (hidx ▸ hne) (Shared.copy p (z₁.data inode.dev idx)) hrest)
      rw [hidx] at hwf₂ hvisited
      have hpos : 0 < Shared.chars p ∧ p.offset + Shared.chars p ≤ p.start + p.bytes.length := by omega
      obtain ⟨hwf', hnew, hkeep, -⟩ := ih (p := { p with offset := p.offset + Shared.chars p }) hwf₂
        (by dsimp only; omega) hend (by dsimp only; omega)
        (fun hlt => by
          dsimp only at hlt ⊢
          rw [hnext hlt]
          exact ⟨hvisited.enough henough, hvisited.clean hclean⟩) h
      dsimp only at hnew hkeep
      refine ⟨hwf', fun x h1 h2 => ?_, fun x v hx hv => ?_, fun x zone h1 _ hxb hg => ?_⟩
      · by_cases hlt : x < p.offset + Shared.chars p
        · apply hkeep x _ (by omega)
          rw [hset, if_pos ⟨h1, hlt⟩, show p.offset - p.start + (x - p.offset) = x - p.start by omega]
        · exact hnew x (by omega) h2
      · apply hkeep x v (by omega)
        rw [hset, if_neg (by omega)]
        exact hold x v hv
      · rw [hxb] at hg
        obtain ⟨rfl, hdata⟩ := reckon_given hw hleaf hroom hblank hg hreckon
        apply hkeep x _ (by omega)
        rw [hset, if_neg (by omega)]
        apply Shared.byteAt_eq_some.mpr
        rw [hxb, view_zone 0 hb, hidx, ← hdata]
        exact ⟨hne, rfl⟩
    · rw [if_neg hp] at h
      cases h
      exact ⟨hwf, fun x h1 h2 => by omega, fun x v _ hx => hx, fun x _ _ h2 => by omega⟩

end ZoneStore

/-! ### Runs -/

namespace Sparse

open ZoneStore

variable {S : Set Ino} {inode : Ino} {s s' : Sparse}

/-- All bytes of the file are there. -/
structure Inv (S : Set Ino) (inode : Ino) (s : Sparse) : Prop where
  wf : s.zones.WellFormed S
  mem : inode ∈ S
  size : s.size ≤ MAX_BLOCK * BLOCK_SIZE
  bytes : ∀ x < s.size, s.zones.byteAt inode x = some ((s.last x).getD 0)
  last : ∀ x, s.size ≤ x → s.last x = none

theorem inv_init (h : Init S inode s) : Inv S inode s := by
  refine ⟨h.wf, h.mem, by rw [h.size]; exact Nat.zero_le _, fun x hx => ?_, fun x _ => by rw [h.last]⟩
  rw [h.size] at hx
  exact absurd hx (Nat.not_lt_zero x)

theorem write_inv (h : Inv S inode s) {bytes : List UInt8} (hfits : s.Fits inode (.write bytes))
    (hs : s.sysWrite inode bytes = .ok s') : Inv S inode s' := by
  obtain ⟨_, hlen, hs⟩ := bind_ok.mp hs
  have hlen : 0 < bytes.length := by simpa using hlen
  obtain ⟨z, hz, hs⟩ := bind_ok.mp hs
  cases hs
  obtain ⟨hend, henough, hclean, hgap⟩ := hfits
  have hplaces : ∀ n, s.offset.toNat + n - s.offset.toNat = n := fun _ => Nat.add_sub_cancel_left ..
  obtain ⟨hwf, hnew, hold, hfirst⟩ := writeFrom_stored h.mem (p := s.progress bytes) h.wf le_rfl hend
    (Nat.le_refl _) (fun _ => by simp only [progress, hplaces]; exact ⟨henough, hclean⟩) hz
  simp only [progress] at hnew hold hfirst
  refine ⟨hwf, h.mem, max_le hend h.size, fun x hx => ?_, fun x hx => ?_⟩
  · dsimp only at hx ⊢
    by_cases hin : s.offset.toNat ≤ x ∧ x < s.offset.toNat + bytes.length
    · rw [if_pos hin, hnew x hin.1 hin.2, List.getD_eq_getElem?_getD]
    · rw [if_neg hin]
      by_cases hsize : x < s.size
      · exact hold x _ hin (h.bytes x hsize)
      · have hlt : x < s.offset.toNat := by
          rcases lt_max_iff.mp hx with hx | hx <;> omega
        rw [h.last x (by omega)]
        rcases hgap x (by omega) hlt with hzero | ⟨hblock, zone, hgiven, hzero⟩
        · exact hold x _ hin hzero
        · rw [hfirst x zone hlt (by omega) hblock hgiven, hzero]
          rfl
  · have hx : max (s.offset.toNat + bytes.length) s.size ≤ x := hx
    obtain ⟨h1, h2⟩ := max_le_iff.mp hx
    dsimp only
    rw [if_neg (by omega)]
    exact h.last x h2

theorem step_inv {e : SparseEvent} (h : Inv S inode s) (hfits : s.Fits inode e) (hs : Step inode s e s') :
    Inv S inode s' := by
  cases e with
  | lseek offset whence =>
    cases hs
    cases whence <;> exact ⟨h.wf, h.mem, h.size, h.bytes, h.last⟩
  | write bytes => exact write_inv h hfits hs

theorem Inv.right (h : Inv S inode s) : s.Right inode := by
  intro offset len hlen hle
  have hsize := h.size
  have hmin : min len (s.size - offset) = len := by omega
  rw [inodeRead, if_neg (by omega), hmin, readFrom_view s.size len offset len (by omega)]
  have hholds : (s.zones.view inode s.size).Holds offset
    ((List.range len).map fun i => (s.last (offset + i)).getD 0) := by
    intro i v hv
    obtain ⟨hi, rfl⟩ := List.getElem?_eq_some_iff.mp hv
    have hi : i < len := by simpa using hi
    rw [List.getElem_map, List.getElem_range]
    exact h.bytes (offset + i) (by omega)
  have hread := Shared.readFrom_eq hholds len 0 len le_rfl (by simp)
  rw [Nat.add_zero, List.drop_zero] at hread
  rw [hread, ok_bind]

/-- As long as no write leaves a gap and no zone brings bytes along, every byte reads as it should. -/
theorem reads_right {es : List SparseEvent}
    (h : Run (Init S inode) (Restrict (fun s e => s.Fits inode e) (Step inode)) es s) : s.Right inode := by
  have hinv : Inv S inode s :=
    Run.invariant (I := Inv S inode) (fun _ => inv_init) (fun _ _ _ hi hs => step_inv hi hs.1 hs.2) es s h
  exact hinv.right

/-- An empty file on a device of zeros. -/
def emptyFile : Sparse := ⟨oneFile 0, 0, 0, fun _ => none⟩

theorem emptyFile_init : Init {⟨1, 2⟩} ⟨1, 2⟩ emptyFile := ⟨oneFile_wellFormed 0, rfl, rfl, rfl⟩

theorem reads_right_one : ∃ s, emptyFile.sysWrite ⟨1, 2⟩ [7] = .ok s ∧ s.Right ⟨1, 2⟩ := by
  obtain ⟨s, hs⟩ : ∃ s, emptyFile.sysWrite ⟨1, 2⟩ [7] = .ok s := ⟨_, rfl⟩
  have hplaces : placesAt 0 1 = [[0]] := by decide
  have hfits : emptyFile.Fits ⟨1, 2⟩ (.write [7]) := by
    change _ ∧ (oneFile 0).Enough _ (placesAt 0 1) ∧ (oneFile 0).Clean _ (placesAt 0 1) ∧ _
    rw [hplaces]
    refine ⟨by decide, fun q hq => ?_, fun q zone hg hl => ?_, fun x _ hx => absurd hx (Nat.not_lt_zero x)⟩
    · obtain rfl := List.mem_singleton.mp (mem_missing hq).2
      obtain ⟨b, hfirst, hlt⟩ := oneFile_room 0
      exact ⟨_, (given_head rfl).mpr ⟨b, hfirst, rfl⟩, hlt⟩
    · obtain rfl := List.mem_singleton.mp (mem_missing hg.mem).2
      exact absurd (show Leaf [0] from (by decide : 0 < DIRECT_BLOCK)) hl
  have hstart : Run (Init {⟨1, 2⟩} ⟨1, 2⟩) (Restrict (fun s e => s.Fits ⟨1, 2⟩ e) (Step ⟨1, 2⟩)) [] emptyFile :=
    .nil emptyFile_init
  exact ⟨s, hs, reads_right (hstart.snoc ⟨hfits, hs⟩)⟩

/-- A byte in the second block leaves the first one without a zone. -/
theorem reads_hole : ¬ ∀ (S : Set Ino) (inode : Ino) (es : List SparseEvent) (s : Sparse),
    Run (Init S inode) (Step inode) es s → s.Right inode := by
  intro h
  obtain ⟨s, hs, hsize, hread⟩ : ∃ s, (emptyFile.sysLseek 1024 .seekSet).sysWrite ⟨1, 2⟩ [7] = .ok s ∧ s.size = 1025 ∧
      s.inodeRead ⟨1, 2⟩ 1 0 = .error (.assertion "idx") := ⟨_, rfl, rfl, rfl⟩
  have hstart : Run (Init {⟨1, 2⟩} ⟨1, 2⟩) (Step ⟨1, 2⟩) [] emptyFile := .nil emptyFile_init
  have hseek : Step ⟨1, 2⟩ emptyFile (.lseek 1024 .seekSet) (emptyFile.sysLseek 1024 .seekSet) := rfl
  have hwrite : Step ⟨1, 2⟩ (emptyFile.sysLseek 1024 .seekSet) (.write [7]) s := hs
  have hright := h _ _ _ s ((hstart.snoc hseek).snoc hwrite) 0 1 (by decide) (by omega)
  rw [hread] at hright
  cases hright

end Sparse

end Onix
