import Onix.Kernel.Buffer
import Onix.Lib.Transition

/-! Tasks that write a regular file through one `file_t`, which `task_fork` and `sys_dup` make them
share. A call may sleep in `bmap`, in `bread` and in the last `bwrite`, and the others run meanwhile.
Of `bmap` there is which zone each block has, and that a block without one is given what `balloc` finds. -/

set_option autoImplicit false

namespace Onix

open Lib

namespace SharedWrite

def BLOCK_INDEXES : ℕ := 512
/-- `DIRECT_BLOCK + INDIRECT1_BLOCK + INDIRECT2_BLOCK` -/
def TOTAL_BLOCK : ℕ := 7 + BLOCK_INDEXES + BLOCK_INDEXES * BLOCK_INDEXES

/-- The variables of `inode_write`; what is left to write are the bytes from `offset - start` on. -/
structure Progress where
  start : ℕ
  offset : ℕ
  bytes : List UInt8
  deriving DecidableEq

/-- Where a call of `sys_write` sleeps. -/
inductive Site
  | bmap
  | bread (idx : ℕ)
  | bwrite
  deriving DecidableEq

/-- A call that has returned, with its result. -/
structure Written where
  start : ℕ
  bytes : List UInt8
  ret : ℕ
  deriving DecidableEq

/-- The `file_t` and its inode, with the tasks. `written` is a record, and `initial` the offset before it. -/
structure Shared (T : Type) where
  offset : ℕ
  /-- `desc->size` -/
  size : ℕ
  /-- The zone of each block of the file, or 0. -/
  zone : ℕ → ℕ
  data : ℕ → ℕ → UInt8
  call : T → Option (Progress × Site)
  initial : ℕ
  written : List Written

inductive WriteEvent (T : Type)
  | write (t : T) (bytes : List UInt8)
  /-- What the call sleeps in returns; `bit` is what `balloc` returns where it is called. -/
  | resume (t : T) (bit : ℕ)
  deriving DecidableEq

namespace Shared

variable {T : Type} [DecidableEq T]

def setCall (s : Shared T) (t : T) (c : Option (Progress × Site)) : Shared T :=
  { s with call := Function.update s.call t c }

/-- `MIN(BLOCK_SIZE - start, left)` -/
def chars (p : Progress) : ℕ := min (BLOCK_SIZE - p.offset % BLOCK_SIZE) (p.bytes.length - (p.offset - p.start))

/-- `memcpy(ptr, buf, chars)` -/
def copy (p : Progress) (block : ℕ → UInt8) : ℕ → UInt8 := fun pos =>
  if p.offset % BLOCK_SIZE ≤ pos ∧ pos < p.offset % BLOCK_SIZE + chars p then
    p.bytes.getD (p.offset - p.start + (pos - p.offset % BLOCK_SIZE)) 0
  else block pos

/-- `bmap(inode, block, true)`, with the file it leaves. -/
def bmap (s : Shared T) (block bit : ℕ) : Except Halt (ℕ × Shared T) := do
  assert "block >= 0 && block < TOTAL_BLOCK" (block < TOTAL_BLOCK)
  let idx := if s.zone block = 0 then bit else s.zone block
  .ok (idx, { s with zone := Function.update s.zone block idx })

/-- The body of the loop from `bread` on, with what follows the loop. -/
def memcpy (s : Shared T) (t : T) (p : Progress) (idx : ℕ) : Shared T :=
  let s : Shared T := { s with data := Function.update s.data idx (copy p (s.data idx)) }
  let p' : Progress := { p with offset := p.offset + chars p }
  if p'.offset < p.start + p.bytes.length then s.setCall t (some (p', .bmap))
  else setCall { s with size := max p'.offset s.size } t (some (p', .bwrite))

/-- The end of `sys_write`. -/
def finish (s : Shared T) (t : T) (p : Progress) : Shared T :=
  let ret := p.offset - p.start
  setCall { s with offset := s.offset + ret, written := s.written ++ [⟨p.start, p.bytes, ret⟩] } t none

/-- `sys_write` from its entry, or from where it slept, to where it sleeps or returns. -/
def exec (s : Shared T) : WriteEvent T → Except Halt (Shared T)
  | .write t bytes => .ok (s.setCall t (some (⟨s.offset, s.offset, bytes⟩, .bmap)))
  | .resume t bit =>
    match s.call t with
    | none => .ok s
    | some (p, .bmap) => do
      let (idx, s) ← s.bmap (p.offset / BLOCK_SIZE) bit
      assert "idx" (idx ≠ 0)
      .ok (s.setCall t (some (p, .bread idx)))
    | some (p, .bread idx) => .ok (s.memcpy t p idx)
    | some (p, .bwrite) => .ok (s.finish t p)

/-- A task makes one call at a time, with `len > 0`. -/
def Enabled (s : Shared T) : WriteEvent T → Prop
  | .write t bytes => s.call t = none ∧ bytes ≠ []
  | .resume t _ => s.call t ≠ none

def Step (s : Shared T) (e : WriteEvent T) (s' : Shared T) : Prop := s.Enabled e ∧ s.exec e = .ok s'

/-- No block shares its zone, and no call is in progress. -/
structure Init (s : Shared T) : Prop where
  own : ∀ b c, s.zone b ≠ 0 → s.zone b = s.zone c → b = c
  call : ∀ t, s.call t = none
  initial : s.initial = s.offset
  written : s.written = []

/-- The loop of `inode_read`, with `left` bytes to read. -/
def readFrom (s : Shared T) : ℕ → ℕ → ℕ → Except Halt (List UInt8)
  | 0, _, _ => .ok []
  | rounds + 1, offset, left =>
    if left = 0 then .ok []
    else do
      let idx := s.zone (offset / BLOCK_SIZE)
      assert "idx" (idx ≠ 0)
      let chars := min (BLOCK_SIZE - offset % BLOCK_SIZE) left
      let rest ← s.readFrom rounds (offset + chars) (left - chars)
      .ok ((List.range chars).map (fun i => s.data idx (offset % BLOCK_SIZE + i)) ++ rest)

/-- `inode_read`; every round reads a byte. -/
def inodeRead (s : Shared T) (len offset : ℕ) : Except Halt (Option (List UInt8)) :=
  if s.size ≤ offset then .ok none
  else do
    let bytes ← s.readFrom len offset (min len (s.size - offset))
    .ok (some bytes)

/-- The ranges written are disjoint, the offset is the sum of the results, and what was written can be read. -/
structure Right (s : Shared T) : Prop where
  disjoint : s.written.Pairwise fun a b => a.start + a.bytes.length ≤ b.start ∨ b.start + b.bytes.length ≤ a.start
  offset : (∀ t, s.call t = none) → s.offset = s.initial + (s.written.map Written.ret).sum
  readable : ∀ w ∈ s.written, w.ret = w.bytes.length ∧ s.inodeRead w.bytes.length w.start = .ok (some w.bytes)

/-- No task enters `sys_write` while another is in it, and `bmap` finds each block a zone of its own: its index
lies in the tables, and `balloc` a zone that the file does not have. -/
def Alone (s : Shared T) : WriteEvent T → Prop
  | .write _ _ => ∀ u, s.call u = none
  | .resume t bit => ∀ p, s.call t = some (p, .bmap) →
      p.offset / BLOCK_SIZE < BLOCK_INDEXES + BLOCK_INDEXES * BLOCK_INDEXES ∧
        (s.zone (p.offset / BLOCK_SIZE) = 0 → ∀ b, s.zone b ≠ bit)

/-! ### The bytes of the file -/

/-- The byte at an offset, if its block has a zone. -/
def byteAt (s : Shared T) (x : ℕ) : Option UInt8 :=
  if s.zone (x / BLOCK_SIZE) = 0 then none else some (s.data (s.zone (x / BLOCK_SIZE)) (x % BLOCK_SIZE))

/-- The bytes lie in the file from an offset on. -/
def Holds (s : Shared T) (start : ℕ) (bytes : List UInt8) : Prop :=
  ∀ i v, bytes[i]? = some v → s.byteAt (start + i) = some v

variable {s s' : Shared T}

omit [DecidableEq T] in
theorem byteAt_eq_some {x : ℕ} {v : UInt8} :
    s.byteAt x = some v ↔ s.zone (x / BLOCK_SIZE) ≠ 0 ∧ s.data (s.zone (x / BLOCK_SIZE)) (x % BLOCK_SIZE) = v := by
  unfold byteAt
  split_ifs with h <;> simp [h]

omit [DecidableEq T] in
theorem readFrom_eq {bytes : List UInt8} {start : ℕ} (h : s.Holds start bytes) (rounds i left : ℕ) (hr : left ≤ rounds)
    (hlen : i + left = bytes.length) : s.readFrom rounds (start + i) left = .ok (bytes.drop i) := by
  induction rounds generalizing left i with
  | zero =>
    rw [readFrom, List.drop_eq_nil_of_le (by omega)]
  | succ rounds ih =>
    rw [readFrom]
    by_cases hl : left = 0
    · rw [if_pos hl, List.drop_eq_nil_of_le (by omega)]
    · have hmod : (start + i) % BLOCK_SIZE < BLOCK_SIZE := Nat.mod_lt _ (by decide)
      have hz := (byteAt_eq_some.mp (h i bytes[i] (List.getElem?_eq_getElem (by omega)))).1
      have hrest := ih (i + min (BLOCK_SIZE - (start + i) % BLOCK_SIZE) left)
        (left - min (BLOCK_SIZE - (start + i) % BLOCK_SIZE) left) (by omega) (by omega)
      rw [← Nat.add_assoc] at hrest
      have hidx : assert "idx" (s.zone ((start + i) / BLOCK_SIZE) ≠ 0) = .ok () := assert_ok.mpr (by simpa using hz)
      rw [if_neg hl]
      dsimp only
      rw [hidx]
      change (s.readFrom rounds _ _ >>= _) = _
      rw [hrest, ← List.drop_drop]
      apply congrArg Except.ok
      -- the round reads the next bytes of the block
      have hround : (List.range (min (BLOCK_SIZE - (start + i) % BLOCK_SIZE) left)).map
          (fun j => s.data (s.zone ((start + i) / BLOCK_SIZE)) ((start + i) % BLOCK_SIZE + j)) =
          (bytes.drop i).take (min (BLOCK_SIZE - (start + i) % BLOCK_SIZE) left) := by
        refine List.ext_getElem (by simp; omega) fun j h1 h2 => ?_
        have hj : j < min (BLOCK_SIZE - (start + i) % BLOCK_SIZE) left := by simpa using h1
        have hb := (byteAt_eq_some.mp (h (i + j) bytes[i + j] (List.getElem?_eq_getElem (by omega)))).2
        have hdiv : (start + (i + j)) / BLOCK_SIZE = (start + i) / BLOCK_SIZE := by
          unfold BLOCK_SIZE at *
          omega
        have hpos : (start + (i + j)) % BLOCK_SIZE = (start + i) % BLOCK_SIZE + j := by
          unfold BLOCK_SIZE at *
          omega
        rw [hdiv, hpos] at hb
        simp [hb]
      rw [hround, List.take_append_drop]

omit [DecidableEq T] in
theorem inodeRead_eq {bytes : List UInt8} {start : ℕ} (h : s.Holds start bytes) (hpos : 0 < bytes.length)
    (hsize : start + bytes.length ≤ s.size) : s.inodeRead bytes.length start = .ok (some bytes) := by
  have hleft : min bytes.length (s.size - start) = bytes.length := by omega
  have hread := readFrom_eq h bytes.length 0 bytes.length le_rfl (by omega)
  rw [Nat.add_zero, List.drop_zero] at hread
  rw [inodeRead, if_neg (by omega), hleft, hread]
  rfl

/-! ### One call at a time -/

/-- The call that is in progress. -/
structure Going (s : Shared T) (p : Progress) (site : Site) : Prop where
  start : p.start = s.offset
  pos : 0 < p.bytes.length
  offset : p.start ≤ p.offset ∧ p.offset ≤ p.start + p.bytes.length
  done : s.Holds p.start (p.bytes.take (p.offset - p.start))
  bmap : site = .bmap → p.offset < p.start + p.bytes.length
  bread : ∀ idx, site = .bread idx →
    p.offset < p.start + p.bytes.length ∧ s.zone (p.offset / BLOCK_SIZE) = idx ∧ idx ≠ 0
  bwrite : site = .bwrite → p.offset = p.start + p.bytes.length ∧ p.start + p.bytes.length ≤ s.size

/-- A call that has returned. -/
structure Kept (s : Shared T) (w : Written) : Prop where
  pos : 0 < w.bytes.length
  ret : w.ret = w.bytes.length
  offset : w.start + w.bytes.length ≤ s.offset
  size : w.start + w.bytes.length ≤ s.size
  holds : s.Holds w.start w.bytes

structure Inv (s : Shared T) : Prop where
  own : ∀ b c, s.zone b ≠ 0 → s.zone b = s.zone c → b = c
  alone : ∀ t u, s.call t ≠ none → s.call u ≠ none → t = u
  going : ∀ t p site, s.call t = some (p, site) → Going s p site
  kept : ∀ w ∈ s.written, Kept s w
  sorted : s.written.Pairwise fun a b => a.start + a.bytes.length ≤ b.start
  sum : s.offset = s.initial + (s.written.map Written.ret).sum

omit [DecidableEq T] in
theorem Inv.right (h : s.Inv) : Right s := by
  refine ⟨h.sorted.imp Or.inl, fun _ => h.sum, fun w hw => ?_⟩
  have hk := h.kept w hw
  exact ⟨hk.ret, inodeRead_eq hk.holds hk.pos hk.size⟩

omit [DecidableEq T] in
theorem inv_init (h : Init s) : Inv s := by
  have hnone : ∀ t c, s.call t ≠ some c := by
    intro t c hc
    rw [h.call t] at hc
    cases hc
  refine ⟨h.own, fun t _ ht => absurd (h.call t) ht, fun t p site hc => absurd hc (hnone t _), ?_, ?_, ?_⟩
  · simp [h.written]
  · simp [h.written]
  · simp [h.written, h.initial]

omit [DecidableEq T] in
theorem Holds.mono {start : ℕ} {bytes : List UInt8} (h : s.Holds start bytes)
    (hs : ∀ x v, x < start + bytes.length → s.byteAt x = some v → s'.byteAt x = some v) : s'.Holds start bytes := by
  intro i v hv
  have hi : i < bytes.length := (List.getElem?_eq_some_iff.mp hv).1
  exact hs _ _ (by omega) (h i v hv)

omit [DecidableEq T] in
/-- What the bytes below the offset, the offset and the size say of the calls that have returned. -/
theorem Kept.mono {w : Written} (h : Kept s w) (ho : s.offset ≤ s'.offset) (hz : s.size ≤ s'.size)
    (hs : ∀ x v, x < s.offset → s.byteAt x = some v → s'.byteAt x = some v) : Kept s' w := by
  have hoff := h.offset
  have hsize := h.size
  exact ⟨h.pos, h.ret, by omega, by omega, h.holds.mono fun x v hx => hs x v (by omega)⟩

/-- The call of one task goes on, and the record stays. -/
theorem Inv.advance (h : s.Inv) {t : T} {p p' : Progress} {site site' : Site} (hc : s.call t = some (p, site))
    (hcall : s'.call = Function.update s.call t (some (p', site')))
    (hown : ∀ b c, s'.zone b ≠ 0 → s'.zone b = s'.zone c → b = c)
    (ho : s'.offset = s.offset) (hz : s.size ≤ s'.size) (hi : s'.initial = s.initial) (hw : s'.written = s.written)
    (hs : ∀ x v, x < s.offset → s.byteAt x = some v → s'.byteAt x = some v) (hg : Going s' p' site') : Inv s' := by
  have halone : ∀ u, s'.call u ≠ none → u = t := by
    intro u hu
    by_contra hut
    rw [hcall, Function.update_of_ne hut] at hu
    exact hut (h.alone u t hu (by rw [hc]; simp))
  refine ⟨hown, fun u v hu hv => (halone u hu).trans (halone v hv).symm, ?_, ?_, ?_, ?_⟩
  · intro u q site₂ hq
    obtain rfl := halone u (by rw [hq]; simp)
    rw [hcall, Function.update_self] at hq
    cases hq
    exact hg
  · rw [hw]
    exact fun w hm => (h.kept w hm).mono (by omega) hz hs
  · rw [hw]
    exact h.sorted
  · rw [ho, hw, hi]
    exact h.sum

theorem write_inv (h : s.Inv) {t : T} {bytes : List UInt8} (hb : bytes ≠ []) (hnone : ∀ u, s.call u = none) :
    Inv (s.setCall t (some (⟨s.offset, s.offset, bytes⟩, .bmap))) := by
  have hpos : 0 < bytes.length := List.length_pos_iff.mpr hb
  have halone : ∀ u, (s.setCall t (some (⟨s.offset, s.offset, bytes⟩, .bmap))).call u ≠ none → u = t := by
    intro u hu
    by_contra hut
    exact hu ((Function.update_of_ne hut _ _).trans (hnone u))
  refine ⟨h.own, fun u v hu hv => (halone u hu).trans (halone v hv).symm, ?_, ?_, h.sorted, h.sum⟩
  · intro u p site hc
    obtain rfl := halone u (by rw [hc]; simp)
    change Function.update s.call u _ u = _ at hc
    rw [Function.update_self] at hc
    cases hc
    refine ⟨rfl, hpos, by simp, ?_, fun _ => by simpa using hpos, nofun, nofun⟩
    intro i v hv
    simp at hv
  · exact fun w hw => (h.kept w hw).mono le_rfl le_rfl fun _ _ _ hx => hx

omit [DecidableEq T] in
theorem bmap_ok {block bit idx : ℕ} (hs : s.bmap block bit = .ok (idx, s')) :
    idx = (if s.zone block = 0 then bit else s.zone block) ∧
      s' = { s with zone := Function.update s.zone block idx } := by
  obtain ⟨-, -, hs⟩ := bind_ok.mp hs
  cases hs
  exact ⟨rfl, rfl⟩

omit [DecidableEq T] in
/-- A block that has a zone keeps it. -/
theorem bmap_zone {block bit idx : ℕ} (hs : s.bmap block bit = .ok (idx, s')) {b : ℕ} (hb : s.zone b ≠ 0) :
    s'.zone b = s.zone b := by
  obtain ⟨hidx, rfl⟩ := bmap_ok hs
  by_cases hbb : b = block
  · subst hbb
    rw [if_neg hb] at hidx
    change Function.update s.zone b idx b = _
    rw [Function.update_self, hidx]
  · exact Function.update_of_ne hbb _ _

omit [DecidableEq T] in
theorem bmap_byteAt {block bit idx : ℕ} (hs : s.bmap block bit = .ok (idx, s')) {x : ℕ} {v : UInt8}
    (hx : s.byteAt x = some v) : s'.byteAt x = some v := by
  obtain ⟨hz, hv⟩ := byteAt_eq_some.mp hx
  have hzone := bmap_zone hs hz
  obtain ⟨-, rfl⟩ := bmap_ok hs
  rw [byteAt_eq_some, hzone]
  exact ⟨hz, hv⟩

omit [DecidableEq T] in
theorem bmap_own {block bit idx : ℕ} (hs : s.bmap block bit = .ok (idx, s'))
    (h : ∀ b c, s.zone b ≠ 0 → s.zone b = s.zone c → b = c) (hbit : s.zone block = 0 → ∀ b, s.zone b ≠ bit) :
    ∀ b c, s'.zone b ≠ 0 → s'.zone b = s'.zone c → b = c := by
  obtain ⟨hidx, rfl⟩ := bmap_ok hs
  by_cases hz : s.zone block = 0
  · rw [if_pos hz] at hidx
    subst hidx
    intro b c hb hbc
    change Function.update s.zone block idx b ≠ 0 at hb
    change Function.update s.zone block idx b = Function.update s.zone block idx c at hbc
    rw [Function.update_apply] at hb hbc
    rw [Function.update_apply] at hbc
    split_ifs at hb hbc with h1 h2 h2
    · exact h1.trans h2.symm
    · exact absurd hbc.symm (hbit hz c)
    · exact absurd hbc (hbit hz b)
    · exact h b c hb hbc
  · rw [if_neg hz] at hidx
    have hsame : Function.update s.zone block idx = s.zone := by
      rw [hidx, Function.update_eq_self]
    change ∀ b c, Function.update s.zone block idx b ≠ 0 → Function.update s.zone block idx b = _ → _
    rw [hsame]
    exact h

/-- `memcpy` writes the bytes from the offset on and no others. -/
theorem memcpy_byteAt {t : T} {p : Progress} (hown : ∀ b c, s.zone b ≠ 0 → s.zone b = s.zone c → b = c)
    (hz : s.zone (p.offset / BLOCK_SIZE) ≠ 0) (x : ℕ) :
    (s.memcpy t p (s.zone (p.offset / BLOCK_SIZE))).byteAt x =
      if p.offset ≤ x ∧ x < p.offset + chars p then some (p.bytes.getD (p.offset - p.start + (x - p.offset)) 0)
      else s.byteAt x := by
  have hzone : (s.memcpy t p (s.zone (p.offset / BLOCK_SIZE))).zone = s.zone := by
    unfold memcpy
    dsimp only
    split_ifs <;> rfl
  have hdata : (s.memcpy t p (s.zone (p.offset / BLOCK_SIZE))).data =
      Function.update s.data (s.zone (p.offset / BLOCK_SIZE)) (copy p (s.data (s.zone (p.offset / BLOCK_SIZE)))) := by
    unfold memcpy
    dsimp only
    split_ifs <;> rfl
  have hchars : chars p ≤ BLOCK_SIZE - p.offset % BLOCK_SIZE := Nat.min_le_left _ _
  unfold byteAt
  rw [hzone, hdata]
  by_cases hb : x / BLOCK_SIZE = p.offset / BLOCK_SIZE
  · rw [hb, if_neg hz, if_neg hz, Function.update_self, copy]
    have hxp : x = p.offset / BLOCK_SIZE * BLOCK_SIZE + x % BLOCK_SIZE := by
      rw [← hb, Nat.div_add_mod']
    have hop : p.offset = p.offset / BLOCK_SIZE * BLOCK_SIZE + p.offset % BLOCK_SIZE := by
      rw [Nat.div_add_mod']
    have hin : (p.offset % BLOCK_SIZE ≤ x % BLOCK_SIZE ∧ x % BLOCK_SIZE < p.offset % BLOCK_SIZE + chars p) ↔
        (p.offset ≤ x ∧ x < p.offset + chars p) := by omega
    have hsub : x % BLOCK_SIZE - p.offset % BLOCK_SIZE = x - p.offset := by omega
    simp only [hin, hsub]
    split_ifs <;> rfl
  · have hout : ¬ (p.offset ≤ x ∧ x < p.offset + chars p) := by
      rintro ⟨h1, h2⟩
      apply hb
      unfold BLOCK_SIZE at *
      omega
    rw [if_neg hout]
    by_cases hx : s.zone (x / BLOCK_SIZE) = 0
    · rw [if_pos hx, if_pos hx]
    · rw [if_neg hx, if_neg hx, Function.update_of_ne fun he => hb (hown _ _ hx he)]

/-! ### The steps -/

theorem bmap_inv (h : s.Inv) {t : T} {p : Progress} (hc : s.call t = some (p, .bmap)) {bit idx : ℕ} {s₁ : Shared T}
    (hs : s.bmap (p.offset / BLOCK_SIZE) bit = .ok (idx, s₁)) (hidx : idx ≠ 0)
    (hbit : s.zone (p.offset / BLOCK_SIZE) = 0 → ∀ b, s.zone b ≠ bit) :
    Inv (s₁.setCall t (some (p, .bread idx))) := by
  have hg := h.going t p _ hc
  have hown := bmap_own hs h.own hbit
  have hbyte : ∀ x v, s.byteAt x = some v → s₁.byteAt x = some v := fun x v => bmap_byteAt hs
  obtain ⟨-, rfl⟩ := bmap_ok hs
  refine h.advance hc rfl hown rfl le_rfl rfl rfl (fun x v _ => hbyte x v) ?_
  refine ⟨hg.start, hg.pos, hg.offset, hg.done.mono fun x v _ => hbyte x v, nofun, ?_, nofun⟩
  intro idx' hi
  cases hi
  exact ⟨hg.bmap rfl, Function.update_self .., hidx⟩

theorem memcpy_inv (h : s.Inv) {t : T} {p : Progress} {idx : ℕ} (hc : s.call t = some (p, .bread idx)) :
    Inv (s.memcpy t p idx) := by
  have hg := h.going t p _ hc
  obtain ⟨hlt, rfl, hz⟩ := hg.bread idx rfl
  have hoff := hg.offset
  have hstart := hg.start
  have hbyte := memcpy_byteAt (t := t) h.own hz
  have hpos : 0 < chars p := by
    have hmod : p.offset % BLOCK_SIZE < BLOCK_SIZE := Nat.mod_lt _ (by decide)
    unfold chars
    omega
  have hle : chars p ≤ p.bytes.length - (p.offset - p.start) := Nat.min_le_right _ _
  have hkeep : ∀ x v, x < p.offset → s.byteAt x = some v →
      (s.memcpy t p (s.zone (p.offset / BLOCK_SIZE))).byteAt x = some v := by
    intro x v hx hv
    rw [hbyte, if_neg (by omega), hv]
  have hdone : (s.memcpy t p (s.zone (p.offset / BLOCK_SIZE))).Holds p.start
      (p.bytes.take (p.offset + chars p - p.start)) := by
    intro i v hv
    rw [List.getElem?_take] at hv
    split_ifs at hv with hi
    · by_cases hio : p.start + i < p.offset
      · refine hkeep _ _ hio (hg.done i v ?_)
        rw [List.getElem?_take, if_pos (by omega), hv]
      · rw [hbyte, if_pos (by omega)]
        have hpos : p.offset - p.start + (p.start + i - p.offset) = i := by omega
        rw [hpos, List.getD_eq_getElem?_getD, hv]
        rfl
  generalize hs' : s.memcpy t p (s.zone (p.offset / BLOCK_SIZE)) = s' at hkeep hdone ⊢
  unfold memcpy at hs'
  dsimp only at hs'
  split_ifs at hs' with hmore
  · subst hs'
    refine h.advance hc rfl h.own rfl le_rfl rfl rfl (fun x v hx => hkeep x v (by omega)) ?_
    exact ⟨hstart, hg.pos, by dsimp only; omega, hdone, fun _ => hmore, nofun, nofun⟩
  · subst hs'
    refine h.advance hc rfl h.own rfl (le_max_right _ _) rfl rfl (fun x v hx => hkeep x v (by omega)) ?_
    refine ⟨hstart, hg.pos, by dsimp only; omega, hdone, nofun, nofun, fun _ => ?_⟩
    refine ⟨by dsimp only; omega, le_trans ?_ (le_max_left _ _)⟩
    dsimp only
    omega

theorem finish_inv (h : s.Inv) {t : T} {p : Progress} (hc : s.call t = some (p, .bwrite)) : Inv (s.finish t p) := by
  have hg := h.going t p _ hc
  obtain ⟨hoff, hsize⟩ := hg.bwrite rfl
  have hstart := hg.start
  have hret : p.offset - p.start = p.bytes.length := by omega
  have hdone := hg.done
  rw [hret, List.take_length] at hdone
  have hnone : ∀ u, (s.finish t p).call u = none := by
    intro u
    by_cases hut : u = t
    · rw [hut]
      exact Function.update_self ..
    · apply (Function.update_of_ne hut _ _).trans
      by_contra hu
      exact hut (h.alone u t hu (by rw [hc]; simp))
  have hfinish : (s.finish t p).offset = s.offset + p.bytes.length := by
    rw [← hret]
    rfl
  have hwritten : (s.finish t p).written = s.written ++ [⟨p.start, p.bytes, p.bytes.length⟩] := by
    rw [← hret]
    rfl
  refine ⟨h.own, fun u _ hu => absurd (hnone u) hu, fun u q site hq => ?_, ?_, ?_, ?_⟩
  · rw [hnone u] at hq
    cases hq
  · intro w hw
    rw [hwritten, List.mem_append, List.mem_singleton] at hw
    rcases hw with hw | rfl
    · exact (h.kept w hw).mono (by omega) le_rfl fun _ _ _ hx => hx
    · exact ⟨hg.pos, rfl, by dsimp only; omega, hsize, hdone⟩
  · rw [hwritten, List.pairwise_append]
    refine ⟨h.sorted, List.pairwise_singleton _ _, fun a ha b hb => ?_⟩
    rw [List.mem_singleton] at hb
    subst hb
    exact (h.kept a ha).offset.trans hstart.ge
  · rw [hfinish, hwritten, List.map_append, List.sum_append, h.sum]
    change _ = s.initial + (_ + [p.bytes.length].sum)
    rw [List.sum_singleton]
    omega

theorem step_inv {e : WriteEvent T} (h : s.Inv) (ha : s.Alone e) (hs : Step s e s') : Inv s' := by
  obtain ⟨he, hs⟩ := hs
  cases e with
  | write t bytes =>
    cases hs
    exact write_inv h he.2 ha
  | resume t bit =>
    cases hc : s.call t with
    | none => exact absurd hc he
    | some c =>
      obtain ⟨p, site⟩ := c
      unfold exec at hs
      dsimp only at hs
      rw [hc] at hs
      cases site with
      | bmap =>
        obtain ⟨⟨idx, s₁⟩, hb, hs⟩ := bind_ok.mp hs
        obtain ⟨_, hidx, hs⟩ := bind_ok.mp hs
        cases hs
        exact bmap_inv h hc hb (by simpa using hidx) (ha p hc).2
      | bread idx =>
        cases hs
        exact memcpy_inv h hc
      | bwrite =>
        cases hs
        exact finish_inv h hc

/-- The steps of `Enabled`, for two tasks. -/
def enabled (s : Shared Bool) : WriteEvent Bool → Bool
  | .write t bytes => s.call t = none ∧ bytes ≠ []
  | .resume t _ => s.call t ≠ none

/-- The steps of `Alone` in which `bmap` does not call `balloc`. -/
def alone (s : Shared Bool) : WriteEvent Bool → Bool
  | .write _ _ => s.call false = none ∧ s.call true = none
  | .resume t _ =>
    match s.call t with
    | some (p, .bmap) => p.offset / BLOCK_SIZE < BLOCK_INDEXES ∧ s.zone (p.offset / BLOCK_SIZE) ≠ 0
    | _ => true

def attempt (keep : Bool) (s : Shared Bool) (e : WriteEvent Bool) : Option (WriteEvent Bool × Shared Bool) :=
  if s.enabled e ∧ (keep = true → s.alone e) then
    match s.exec e with
    | .ok s' => some (e, s')
    | .error _ => none
  else none

theorem enabled_of {s : Shared Bool} {e : WriteEvent Bool} (h : s.enabled e = true) : s.Enabled e := by
  cases e with
  | write t bytes =>
    have h := of_decide_eq_true h
    exact h
  | resume t bit =>
    have h := of_decide_eq_true h
    exact h

theorem alone_of {s : Shared Bool} {e : WriteEvent Bool} (h : s.alone e = true) : s.Alone e := by
  cases e with
  | write t bytes =>
    have h := of_decide_eq_true h
    intro u
    cases u with
    | false => exact h.1
    | true => exact h.2
  | resume t bit =>
    intro p hp
    unfold alone at h
    dsimp only at h
    rw [hp] at h
    have h := of_decide_eq_true h
    exact ⟨h.1.trans_le (Nat.le_add_right _ _), fun hz => absurd hz h.2⟩

theorem attempt_step {keep : Bool} {s s' : Shared Bool} {e e' : WriteEvent Bool}
    (h : attempt keep s e = some (e', s')) :
    Step s e' s' ∧ (keep = true → s.Alone e') := by
  unfold attempt at h
  split_ifs at h with hc
  split at h
  · rename_i s₁ hs
    cases h
    exact ⟨⟨enabled_of hc.1, hs⟩, fun hk => alone_of (hc.2 hk)⟩
  · cases h

end Shared

end SharedWrite

end Onix
