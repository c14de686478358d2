import Onix.Kernel.Buffer

/-! What the block cache of buffer.c is for: a task that marks what it changed sees one
store of blocks, and the devices hold it as soon as nothing is held. Which buffer serves
a block, when one is written back and which one is used again cannot be seen. -/

set_option autoImplicit false

namespace Onix

open Lib

namespace Cache

variable {D C L : Type}

/-- A request for sector `idx` of `dev` reads or writes what the devices keep at `place dev idx`. -/
structure Stores [DecidableEq L] (io : BlockIo D C) (place : Int32 → UInt32 → L) (content : C → L → D) : Prop where
  read : ∀ c dev idx data, io.read c dev idx = .ok data → data = content c (place dev idx)
  write : ∀ c c' dev idx data, io.write c dev idx data = .ok c' →
    content c' = Function.update (content c) (place dev idx) data

/-- Where a block lies. -/
def home (place : Int32 → UInt32 → L) (b : Int32 × UInt32) : L := place b.1 (b.2 * BLOCK_SECS)

/-- What a task knows of its own calls: the contents it last gave each block, and of a buffer the block it
was returned for, how often it is held, and whether it was marked or changed since it was read or written. -/
structure Ledger (D : Type) where
  blocks : Int32 × UInt32 → D
  name : ℕ → Int32 × UInt32
  refs : ℕ → ℕ
  marked : ℕ → Bool
  changed : ℕ → Bool

/-- Nobody holds the buffer any more. -/
def Ledger.forget (l : Ledger D) (p : ℕ) : Ledger D :=
  ⟨l.blocks, l.name, Function.update l.refs p 0, Function.update l.marked p false, Function.update l.changed p false⟩

def Ledger.note (l : Ledger D) : Event D → Ledger D
  | .bread dev block p =>
    { l with name := Function.update l.name p (dev, block), refs := Function.update l.refs p (l.refs p + 1) }
  | .brelease none => l
  | .brelease (some p) =>
    if l.refs p = 1 then l.forget p
    else { l with refs := Function.update l.refs p (l.refs p - 1) }
  | .bwrite p => { l with changed := Function.update l.changed p false }
  | .store p data =>
    { l with blocks := Function.update l.blocks (l.name p) data, changed := Function.update l.changed p true }
  | .mark p => { l with marked := Function.update l.marked p true }

def ledger (l : Ledger D) (es : List (Event D)) : Ledger D := es.foldl Ledger.note l

/-- A task asks for blocks in `used`, and lets no buffer go that it changed and did not mark. -/
def Ledger.Allows (used : Set (Int32 × UInt32)) (l : Ledger D) : Event D → Prop
  | .bread dev block _ => (dev, block) ∈ used
  | .brelease (some p) => l.refs p = 1 → l.changed p = true → l.marked p = true
  | _ => True

def Careful (used : Set (Int32 × UInt32)) : Ledger D → List (Event D) → Prop
  | _, [] => True
  | l, e :: es => l.Allows used e ∧ Careful used (l.note e) es

/-- Before the first call a block is what the devices hold. -/
def opened (place : Int32 → UInt32 → L) (content : C → L → D) (c : C) : Ledger D :=
  ⟨fun b => content c (home place b), fun _ => (0, 0), fun _ => 0, fun _ => false, fun _ => false⟩

theorem ledger_snoc (l : Ledger D) (es : List (Event D)) (e : Event D) : ledger l (es ++ [e]) = (ledger l es).note e := by
  simp only [ledger, List.foldl_append, List.foldl_cons, List.foldl_nil]

theorem careful_snoc {used : Set (Int32 × UInt32)} {e : Event D} (es : List (Event D)) (l : Ledger D) :
    Careful used l (es ++ [e]) ↔ Careful used l es ∧ (ledger l es).Allows used e := by
  induction es generalizing l with
  | nil => simp only [List.nil_append, Careful, ledger, List.foldl_nil, and_true, true_and]
  | cons e' es ih => simp only [List.cons_append, Careful, ih, ledger, List.foldl_cons, and_assoc]

/-! ### What a call does -/

variable {s s' : Cache D C} {held : List ℕ} {p : ℕ}

theorem getFreeBuffer_contents (hget : s.getFreeBuffer = some (p, s')) :
    s'.bytes = s.bytes ∧ s'.devices = s.devices := by
  unfold getFreeBuffer getNewBuffer at hget
  split at hget
  · rename_i r hr
    split_ifs at hr
    cases hr
    cases hget
    exact ⟨rfl, rfl⟩
  · split at hget
    · cases hget
      exact ⟨rfl, rfl⟩
    · cases hget

/-- `bread` finds the block among the held buffers. -/
structure Found (s : Cache D C) (held : List ℕ) (dev : Int32) (block : UInt32) (p : ℕ) (s' : Cache D C) : Prop where
  held : p ∈ held
  name : ((s.bufs p).dev, (s.bufs p).block) = (dev, block)
  bytes : s'.bytes = s.bytes
  devices : s'.devices = s.devices
  bufs : ∀ q, (s'.bufs q).data = (s.bufs q).data ∧ (s'.bufs q).dev = (s.bufs q).dev ∧
    (s'.bufs q).block = (s.bufs q).block ∧ (s'.bufs q).dirty = (s.bufs q).dirty

/-- `bread` reads the block into a buffer nobody holds. -/
structure Filled (io : BlockIo D C) (s : Cache D C) (held : List ℕ) (dev : Int32) (block : UInt32) (p : ℕ)
    (s' : Cache D C) : Prop where
  free : p ∉ held
  miss : ∀ q ∈ held, ((s.bufs q).dev, (s.bufs q).block) ≠ (dev, block)
  name : ((s'.bufs p).dev, (s'.bufs p).block) = (dev, block)
  dirty : (s'.bufs p).dirty = false
  devices : s'.devices = s.devices
  bytes : ∃ data, io.read s.devices dev (block * BLOCK_SECS) = .ok data ∧
    s'.bytes = Function.update s.bytes (s'.bufs p).data data
  bufs : ∀ q ∈ held, s'.bufs q = s.bufs q

theorem breadAgain_filled {io : BlockIo D C} (h : s.Inv held none) {dev : Int32} {block : UInt32}
    (hmiss : ∀ q ∈ held, ((s.bufs q).dev, (s.bufs q).block) ≠ (dev, block))
    (hb : s.breadAgain io dev block = .ok (some (p, s'))) : Filled io s held dev block p s' := by
  unfold breadAgain at hb
  cases hget : s.getFreeBuffer with
  | none =>
    rw [hget] at hb
    cases hb
  | some r =>
    obtain ⟨p₁, s₁⟩ := r
    rw [hget] at hb
    obtain ⟨hinv, hcount, hdirty, hvalid, -, hbufs⟩ := getFreeBuffer_spec h hget
    obtain ⟨hbytes, hdevices⟩ := getFreeBuffer_contents hget
    obtain ⟨hcr, -, hnochain, hfree⟩ := hinv.between p₁ rfl
    have hlocate : p₁ ∉ s₁.hashTable (hash dev block) := hnochain _
    simp only [reentrantLock, upd, Function.update_self, hcount, hdirty, hvalid, hashLocate, hashOf, hlocate,
      reentrantUnlock, Function.update_idem, decide_true, Bool.not_false, Bool.and_self, assert_true, ok_bind,
      not_false_eq_true] at hb
    obtain ⟨data, hread, he⟩ := bind_ok.mp hb
    simp only [hinv.unlocked p₁ hcr, Nat.zero_add, Nat.zero_lt_one, decide_true, assert_true, ok_bind] at he
    cases he
    refine ⟨hfree, hmiss, ?_, ?_, hdevices, ⟨data, ?_, ?_⟩, fun q hq => ?_⟩
    · simp only [Function.update_self]
    · simp only [Function.update_self]
    · rw [← hdevices]
      exact hread
    · simp only [Function.update_self, hbytes]
    · have hqp : q ≠ p := fun he => hfree (he ▸ hq)
      simp only [Function.update_of_ne hqp]
      exact hbufs q hq

theorem bread_cases {io : BlockIo D C} (h : s.Inv held none) {dev : Int32} {block : UInt32}
    (hb : s.bread io dev block = .ok (some (p, s'))) : Found s held dev block p s' ∨ Filled io s held dev block p s' := by
  unfold bread at hb
  cases hfind : s.getFromHashTable dev block with
  | none =>
    rw [hfind] at hb
    refine Or.inr (breadAgain_filled h (fun q hq he => ?_) hb)
    cases he
    have hnone := List.find?_eq_none.mp hfind q (h.cached hq).1
    simp only [decide_true, Bool.and_self, not_true_eq_false] at hnone
  | some p₁ =>
    rw [hfind] at hb
    have hmem : p₁ ∈ s.hashTable (hash dev block) := List.mem_of_find?_eq_some hfind
    obtain ⟨hcr, -, hvalid, hheld⟩ := h.chain _ p₁ hmem
    have hname := List.find?_some hfind
    simp only [Bool.and_eq_true, decide_eq_true_eq] at hname
    have hpos : (s.bufs p₁).count ≠ 0 := by
      have := List.count_pos_iff.mpr hheld
      rw [h.count p₁ hcr]
      omega
    simp only [reentrantLock, Cache.upd, Function.update_self, hvalid, assert_true, ok_bind, if_neg hpos, reentrantUnlock,
      Function.update_idem, Nat.succ_pos, decide_true] at hb
    cases hb
    refine Or.inl ⟨hheld, Prod.ext hname.1 hname.2, rfl, rfl, fun q => ?_⟩
    by_cases hq : q = p
    · subst hq
      simp only [Function.update_self, and_self]
    · simp only [Function.update_of_ne hq, and_self]

/-- `brelease` of a buffer that stays held. -/
structure Kept (s s' : Cache D C) : Prop where
  bytes : s'.bytes = s.bytes
  devices : s'.devices = s.devices
  bufs : ∀ q, (s'.bufs q).data = (s.bufs q).data ∧ (s'.bufs q).dev = (s.bufs q).dev ∧
    (s'.bufs q).block = (s.bufs q).block ∧ (s'.bufs q).dirty = (s.bufs q).dirty

/-- `brelease` of a buffer that nobody holds any more: a dirty one is written. -/
structure Dropped (io : BlockIo D C) (s : Cache D C) (p : ℕ) (s' : Cache D C) : Prop where
  bytes : s'.bytes = s.bytes
  clean : (s.bufs p).dirty = false → s'.devices = s.devices
  dirty : (s.bufs p).dirty = true →
    io.write s.devices (s.bufs p).dev ((s.bufs p).block * BLOCK_SECS) (s.bytes (s.bufs p).data) = .ok s'.devices
  bufs : ∀ q, q ≠ p → s'.bufs q = s.bufs q

theorem brelease_cases {io : BlockIo D C} (h : s.Inv held none) (hp : p ∈ held)
    (hr : s.brelease io (some p) = .ok s') :
    held.count p ≠ 1 ∧ Kept s s' ∨ held.count p = 1 ∧ Dropped io s p s' := by
  have hcount := h.count p (h.held p hp)
  unfold brelease at hr
  simp only [Cache.upd] at hr
  obtain ⟨-, -, hr⟩ := bind_ok.mp hr
  simp only [Function.update_self] at hr
  by_cases hone : held.count p = 1
  · refine Or.inr ⟨hone, ?_⟩
    rw [if_neg (by rw [hcount, hone]; decide)] at hr
    obtain ⟨s₁, hremove, hr⟩ := bind_ok.mp hr
    obtain ⟨-, -, he⟩ := bind_ok.mp hremove
    cases he
    cases hdirty : (s.bufs p).dirty with
    | false =>
      simp only [Function.update_self, hdirty, Bool.false_eq_true, if_false, ok_bind] at hr
      obtain ⟨-, -, he⟩ := bind_ok.mp hr
      cases he
      refine ⟨rfl, fun _ => rfl, fun hd => ?_, fun q hq => ?_⟩
      · rw [hdirty] at hd
        cases hd
      · simp only [Function.update_of_ne hq]
    | true =>
      simp only [Function.update_self, Function.update_idem, hdirty, if_true, bwrite] at hr
      obtain ⟨s₂, hwrite, hr⟩ := bind_ok.mp hr
      obtain ⟨devices, hrequest, he⟩ := bind_ok.mp hwrite
      cases he
      obtain ⟨-, -, he⟩ := bind_ok.mp hr
      cases he
      refine ⟨rfl, fun hc => ?_, fun _ => hrequest, fun q hq => ?_⟩
      · rw [hdirty] at hc
        cases hc
      · simp only [Function.update_of_ne hq]
  · refine Or.inl ⟨hone, ?_⟩
    rw [if_pos] at hr
    · cases hr
      refine ⟨rfl, rfl, fun q => ?_⟩
      by_cases hq : q = p
      · subst hq
        simp only [Function.update_self, and_self]
      · simp only [Function.update_of_ne hq, and_self]
    · have := List.count_pos_iff.mpr hp
      rw [hcount]
      omega

/-- Two buffers hold their data in different places. -/
theorem Inv.data_ne (h : s.Inv held none) {q : ℕ} (hp : s.Created p) (hq : s.Created q) (hne : p ≠ q) :
    (s.bufs p).data ≠ (s.bufs q).data := by
  have hb := h.layout.apart.blocks
  unfold BLOCK_SIZE at hb
  rcases lt_or_gt_of_ne hne with hlt | hlt
  · have := hb p q hp hq hlt
    omega
  · have := hb q p hq hp hlt
    omega

/-! ### The store a task sees -/

/-- The cache and the devices together hold what the ledger says. A block that no held buffer stands for, and
one that no held buffer changed, is on the devices. -/
structure Agrees (place : Int32 → UInt32 → L) (content : C → L → D) (used : Set (Int32 × UInt32))
    (s : Cache D C) (held : List ℕ) (l : Ledger D) : Prop where
  inv : s.Inv held none
  refs : ∀ p, l.refs p = held.count p
  name : ∀ p ∈ held, ((s.bufs p).dev, (s.bufs p).block) = l.name p ∧ l.name p ∈ used
  marked : ∀ p ∈ held, (s.bufs p).dirty = l.marked p
  idle : ∀ p, p ∉ held → l.marked p = false ∧ l.changed p = false
  data : ∀ p ∈ held, s.bytes (s.bufs p).data = l.blocks (l.name p)
  saved : ∀ p ∈ held, l.changed p = false → content s.devices (home place (l.name p)) = l.blocks (l.name p)
  rest : ∀ b ∈ used, (∀ p ∈ held, l.name p ≠ b) → content s.devices (home place b) = l.blocks b

variable {io : BlockIo D C} {place : Int32 → UInt32 → L} {content : C → L → D} {used : Set (Int32 × UInt32)}
  {l : Ledger D}

/-- A block has one buffer. -/
theorem Agrees.name_ne (h : Agrees place content used s held l) {q : ℕ} (hp : p ∈ held) (hq : q ∈ held) (hne : p ≠ q) :
    l.name p ≠ l.name q := by
  intro he
  rw [← (h.name p hp).1, ← (h.name q hq).1] at he
  obtain ⟨hdev, hblock⟩ := Prod.mk.inj he
  have hp' := (h.inv.cached hp).1
  rw [hashOf, hdev, hblock] at hp'
  exact hne (h.inv.unique _ p q hp' (h.inv.cached hq).1 hdev hblock)

theorem Agrees.bread_found (h : Agrees place content used s held l) {dev : Int32} {block : UInt32}
    (hinv : s'.Inv (p :: held) none) (hf : Found s held dev block p s') :
    Agrees place content used s' (p :: held) (l.note (.bread dev block p)) := by
  have hmem : ∀ q, q ∈ p :: held ↔ q ∈ held := by
    intro q
    rw [List.mem_cons]
    exact or_iff_right_of_imp fun he => he ▸ hf.held
  have hname : (l.note (.bread dev block p)).name = l.name :=
    Function.update_eq_self_iff.mpr (hf.name.symm.trans (h.name p hf.held).1)
  refine ⟨hinv, fun q => ?_, fun q hq => ?_, fun q hq => ?_, fun q hq => ?_, fun q hq => ?_, fun q hq hc => ?_,
    fun b hb hno => ?_⟩
  · change Function.update l.refs p (l.refs p + 1) q = _
    by_cases hqp : q = p
    · rw [hqp, Function.update_self, h.refs, List.count_cons_self]
    · rw [Function.update_of_ne hqp, h.refs, List.count_cons_of_ne (Ne.symm hqp)]
  · obtain ⟨-, hdev, hblock, -⟩ := hf.bufs q
    rw [hname, hdev, hblock]
    exact h.name q ((hmem q).mp hq)
  · rw [(hf.bufs q).2.2.2]
    exact h.marked q ((hmem q).mp hq)
  · exact h.idle q fun hc => hq ((hmem q).mpr hc)
  · rw [hname, hf.bytes, (hf.bufs q).1]
    exact h.data q ((hmem q).mp hq)
  · rw [hname, hf.devices]
    exact h.saved q ((hmem q).mp hq) hc
  · rw [hf.devices]
    refine h.rest b hb fun q hq => ?_
    rw [← hname]
    exact hno q ((hmem q).mpr hq)

theorem Agrees.kept (h : Agrees place content used s held l) (hp : p ∈ held) (hinv : s'.Inv (held.erase p) none)
    (hone : held.count p ≠ 1) (hk : Kept s s') :
    Agrees place content used s' (held.erase p) (l.note (.brelease (some p))) := by
  have hcount := List.count_pos_iff.mpr hp
  have herase : (held.erase p).count p = held.count p - 1 := List.count_erase_self
  have hmem : ∀ q, q ∈ held.erase p ↔ q ∈ held := by
    intro q
    by_cases hqp : q = p
    · rw [hqp]
      exact iff_of_true (List.count_pos_iff.mp (by omega)) hp
    · exact List.mem_erase_of_ne hqp
  have hnote : l.note (.brelease (some p)) = { l with refs := Function.update l.refs p (l.refs p - 1) } :=
    if_neg (by rw [h.refs]; exact hone)
  rw [hnote]
  refine ⟨hinv, fun q => ?_, fun q hq => ?_, fun q hq => ?_, fun q hq => ?_, fun q hq => ?_, fun q hq hc => ?_,
    fun b hb hno => ?_⟩
  · change Function.update l.refs p (l.refs p - 1) q = _
    by_cases hqp : q = p
    · rw [hqp, Function.update_self, h.refs, herase]
    · rw [Function.update_of_ne hqp, h.refs, List.count_erase_of_ne hqp]
  · obtain ⟨-, hdev, hblock, -⟩ := hk.bufs q
    rw [hdev, hblock]
    exact h.name q ((hmem q).mp hq)
  · rw [(hk.bufs q).2.2.2]
    exact h.marked q ((hmem q).mp hq)
  · exact h.idle q fun hc => hq ((hmem q).mpr hc)
  · rw [hk.bytes, (hk.bufs q).1]
    exact h.data q ((hmem q).mp hq)
  · rw [hk.devices]
    exact h.saved q ((hmem q).mp hq) hc
  · rw [hk.devices]
    exact h.rest b hb fun q hq => hno q ((hmem q).mpr hq)

theorem Agrees.stored (h : Agrees place content used s held l) (hp : p ∈ held) (data : D) :
    Agrees place content used { s with bytes := Function.update s.bytes (s.bufs p).data data } held
      (l.note (.store p data)) := by
  refine ⟨h.inv.contents _ _, h.refs, h.name, h.marked, fun q hq => ?_, fun q hq => ?_, fun q hq hc => ?_, fun b hb hno => ?_⟩
  · obtain ⟨h1, h2⟩ := h.idle q hq
    have hqp : q ≠ p := fun he => hq (he ▸ hp)
    exact ⟨h1, (Function.update_of_ne hqp _ _).trans h2⟩
  · change Function.update s.bytes (s.bufs p).data data (s.bufs q).data = Function.update l.blocks (l.name p) data (l.name q)
    by_cases hqp : q = p
    · rw [hqp, Function.update_self, Function.update_self]
    · rw [Function.update_of_ne (h.inv.data_ne (h.inv.held q hq) (h.inv.held p hp) hqp),
        Function.update_of_ne (h.name_ne hq hp hqp)]
      exact h.data q hq
  · have hqp : q ≠ p := by
      rintro rfl
      have : Function.update l.changed q true q = false := hc
      rw [Function.update_self] at this
      cases this
    change _ = Function.update l.blocks (l.name p) data (l.name q)
    rw [Function.update_of_ne (h.name_ne hq hp hqp)]
    exact h.saved q hq ((Function.update_of_ne hqp _ _).symm.trans hc)
  · change _ = Function.update l.blocks (l.name p) data b
    rw [Function.update_of_ne (Ne.symm (show l.name p ≠ b from hno p hp))]
    exact h.rest b hb hno

theorem Agrees.mark (h : Agrees place content used s held l) (hp : p ∈ held)
    (hinv : (s.upd p fun b => { b with dirty := true }).Inv held none) :
    Agrees place content used (s.upd p fun b => { b with dirty := true }) held (l.note (.mark p)) := by
  have hbufs : ∀ q, ((s.upd p fun b => { b with dirty := true }).bufs q).data = (s.bufs q).data ∧
      ((s.upd p fun b => { b with dirty := true }).bufs q).dev = (s.bufs q).dev ∧
      ((s.upd p fun b => { b with dirty := true }).bufs q).block = (s.bufs q).block := by
    intro q
    by_cases hqp : q = p
    · subst hqp
      simp only [upd, Function.update_self, and_self]
    · simp only [upd, Function.update_of_ne hqp, and_self]
  refine ⟨hinv, h.refs, fun q hq => ?_, fun q hq => ?_, fun q hq => ?_, fun q hq => ?_, h.saved, h.rest⟩
  · obtain ⟨-, hdev, hblock⟩ := hbufs q
    rw [hdev, hblock]
    exact h.name q hq
  · change (Function.update s.bufs p _ q).dirty = Function.update l.marked p true q
    by_cases hqp : q = p
    · rw [hqp, Function.update_self, Function.update_self]
    · rw [Function.update_of_ne hqp, Function.update_of_ne hqp]
      exact h.marked q hq
  · obtain ⟨h1, h2⟩ := h.idle q hq
    have hqp : q ≠ p := fun he => hq (he ▸ hp)
    exact ⟨(Function.update_of_ne hqp _ _).trans h1, h2⟩
  · rw [(hbufs q).1]
    exact h.data q hq

theorem init_agrees {x : Cache D C × List ℕ} (h : Init x) :
    Agrees place content used x.1 x.2 (opened place content x.1.devices) := by
  have hheld := h.2.2.2.2
  have hnone : ∀ p, p ∉ x.2 := fun p hp => by
    rw [hheld] at hp
    cases hp
  refine ⟨init_inv h, fun p => ?_, fun p hp => absurd hp (hnone p), fun p hp => absurd hp (hnone p),
    fun _ _ => ⟨rfl, rfl⟩, fun p hp => absurd hp (hnone p), fun p hp => absurd hp (hnone p), fun _ _ _ => rfl⟩
  rw [hheld]
  rfl

variable [DecidableEq L]

theorem Agrees.bread_filled (hio : Stores io place content) (h : Agrees place content used s held l) {dev : Int32}
    {block : UInt32} (hu : (dev, block) ∈ used) (hinv : s'.Inv (p :: held) none) (hf : Filled io s held dev block p s') :
    Agrees place content used s' (p :: held) (l.note (.bread dev block p)) := by
  have hself : (l.note (.bread dev block p)).name p = (dev, block) := Function.update_self ..
  have hother : ∀ q ∈ held, q ≠ p ∧ (l.note (.bread dev block p)).name q = l.name q := by
    intro q hq
    have hqp : q ≠ p := fun he => hf.free (he ▸ hq)
    exact ⟨hqp, Function.update_of_ne hqp _ _⟩
  obtain ⟨data, hread, hbytes⟩ := hf.bytes
  have hold : content s.devices (home place (dev, block)) = l.blocks (dev, block) := by
    refine h.rest _ hu fun q hq he => hf.miss q hq ?_
    rw [(h.name q hq).1, he]
  have hdata : data = l.blocks (dev, block) := (hio.read _ _ _ _ hread).trans hold
  refine ⟨hinv, fun q => ?_, fun q hq => ?_, fun q hq => ?_, fun q hq => ?_, fun q hq => ?_, fun q hq hc => ?_,
    fun b hb hno => ?_⟩
  · change Function.update l.refs p (l.refs p + 1) q = _
    by_cases hqp : q = p
    · rw [hqp, Function.update_self, h.refs, List.count_cons_self]
    · rw [Function.update_of_ne hqp, h.refs, List.count_cons_of_ne (Ne.symm hqp)]
  · rcases List.mem_cons.mp hq with rfl | hq
    · rw [hself]
      exact ⟨hf.name, hu⟩
    · rw [(hother q hq).2, hf.bufs q hq]
      exact h.name q hq
  · rcases List.mem_cons.mp hq with rfl | hq
    · rw [hf.dirty]
      exact (h.idle q hf.free).1.symm
    · rw [hf.bufs q hq]
      exact h.marked q hq
  · exact h.idle q fun hc => hq (List.mem_cons_of_mem _ hc)
  · rw [hbytes]
    rcases List.mem_cons.mp hq with rfl | hq'
    · rw [Function.update_self, hself]
      exact hdata
    · obtain ⟨hqp, hname⟩ := hother q hq'
      rw [Function.update_of_ne (hinv.data_ne (hinv.held q hq) (hinv.held p List.mem_cons_self) hqp), hf.bufs q hq', hname]
      exact h.data q hq'
  · rw [hf.devices]
    rcases List.mem_cons.mp hq with rfl | hq'
    · rw [hself]
      exact hold
    · rw [(hother q hq').2]
      exact h.saved q hq' hc
  · rw [hf.devices]
    refine h.rest b hb fun q hq => ?_
    rw [← (hother q hq).2]
    exact hno q (List.mem_cons_of_mem _ hq)

/-- What the devices hold once the last reference to a buffer is gone. -/
theorem Agrees.dropped_content (hio : Stores io place content) (h : Agrees place content used s held l) (hp : p ∈ held)
    (hd : Dropped io s p s') (hsave : l.changed p = true → l.marked p = true) :
    content s'.devices = Function.update (content s.devices) (home place (l.name p)) (l.blocks (l.name p)) := by
  cases hdirty : (s.bufs p).dirty with
  | true =>
    obtain ⟨hdev, hblock⟩ := Prod.mk.inj (h.name p hp).1
    rw [hio.write _ _ _ _ _ (hd.dirty hdirty), hdev, hblock, h.data p hp]
    rfl
  | false =>
    have hchanged : l.changed p = false := by
      cases hc : l.changed p with
      | false => rfl
      | true =>
        have := hsave hc
        rw [← h.marked p hp, hdirty] at this
        cases this
    rw [hd.clean hdirty, ← h.saved p hp hchanged, Function.update_eq_self]

theorem Agrees.dropped (hio : Stores io place content) (hinj : Set.InjOn (home place) used)
    (h : Agrees place content used s held l) (hp : p ∈ held) (hinv : s'.Inv (held.erase p) none)
    (hone : held.count p = 1) (hd : Dropped io s p s') (hsave : l.changed p = true → l.marked p = true) :
    Agrees place content used s' (held.erase p) (l.note (.brelease (some p))) := by
  have hcontent := h.dropped_content hio hp hd hsave
  have hlast : p ∉ held.erase p := by
    refine List.count_eq_zero.mp ?_
    rw [List.count_erase_self, hone]
  have hother : ∀ q ∈ held.erase p, q ≠ p ∧ q ∈ held := fun q hq =>
    ⟨fun he => hlast (he ▸ hq), List.mem_of_mem_erase hq⟩
  have hnote : l.note (.brelease (some p)) = l.forget p := if_pos ((h.refs p).trans hone)
  rw [hnote]
  refine ⟨hinv, fun q => ?_, fun q hq => ?_, fun q hq => ?_, fun q hq => ?_, fun q hq => ?_, fun q hq hc => ?_,
    fun b hb hno => ?_⟩
  · change Function.update l.refs p 0 q = _
    by_cases hqp : q = p
    · rw [hqp, Function.update_self, List.count_eq_zero.mpr hlast]
    · rw [Function.update_of_ne hqp, h.refs, List.count_erase_of_ne hqp]
  · obtain ⟨hqp, hq⟩ := hother q hq
    rw [hd.bufs q hqp]
    exact h.name q hq
  · obtain ⟨hqp, hq⟩ := hother q hq
    rw [hd.bufs q hqp, h.marked q hq]
    exact (Function.update_of_ne hqp _ _).symm
  · change Function.update l.marked p false q = false ∧ Function.update l.changed p false q = false
    by_cases hqp : q = p
    · rw [hqp, Function.update_self, Function.update_self]
      exact ⟨rfl, rfl⟩
    · rw [Function.update_of_ne hqp, Function.update_of_ne hqp]
      exact h.idle q fun hc => hq ((List.mem_erase_of_ne hqp).mpr hc)
  · obtain ⟨hqp, hq⟩ := hother q hq
    rw [hd.bytes, hd.bufs q hqp]
    exact h.data q hq
  · obtain ⟨hqp, hq⟩ := hother q hq
    have hne : home place (l.name q) ≠ home place (l.name p) :=
      fun he => h.name_ne hq hp hqp (hinj (h.name q hq).2 (h.name p hp).2 he)
    have hc : l.changed q = false := by
      have : Function.update l.changed p false q = false := hc
      rwa [Function.update_of_ne hqp] at this
    change content s'.devices (home place (l.name q)) = l.blocks (l.name q)
    rw [hcontent, Function.update_of_ne hne]
    exact h.saved q hq hc
  · change content s'.devices (home place b) = l.blocks b
    rw [hcontent]
    by_cases hbp : b = l.name p
    · rw [hbp, Function.update_self]
    · rw [Function.update_of_ne fun he => hbp (hinj hb (h.name p hp).2 he)]
      refine h.rest b hb fun q hq => ?_
      by_cases hqp : q = p
      · rw [hqp]
        exact Ne.symm hbp
      · exact hno q ((List.mem_erase_of_ne hqp).mpr hq)

theorem Agrees.written (hio : Stores io place content) (hinj : Set.InjOn (home place) used)
    (h : Agrees place content used s held l) (hp : p ∈ held) (hw : s.bwrite io p = .ok s') :
    Agrees place content used s' held (l.note (.bwrite p)) := by
  obtain ⟨devices, hwrite, he⟩ := bind_ok.mp hw
  cases he
  obtain ⟨hdev, hblock⟩ := Prod.mk.inj (h.name p hp).1
  have hcontent : content devices = Function.update (content s.devices) (home place (l.name p)) (l.blocks (l.name p)) := by
    rw [hio.write _ _ _ _ _ hwrite, hdev, hblock, h.data p hp]
    rfl
  have hplace : ∀ b ∈ used, content devices (home place b) =
      if b = l.name p then l.blocks b else content s.devices (home place b) := by
    intro b hb
    rw [hcontent]
    split_ifs with hbp
    · rw [hbp, Function.update_self]
    · exact Function.update_of_ne (fun he => hbp (hinj hb (h.name p hp).2 he)) _ _
  refine ⟨h.inv.contents _ devices, h.refs, h.name, h.marked, fun q hq => ?_, h.data, fun q hq hc => ?_, fun b hb hno => ?_⟩
  · obtain ⟨h1, h2⟩ := h.idle q hq
    have hqp : q ≠ p := fun he => hq (he ▸ hp)
    exact ⟨h1, (Function.update_of_ne hqp _ _).trans h2⟩
  · change content devices (home place (l.name q)) = l.blocks (l.name q)
    rw [hplace _ (h.name q hq).2]
    split_ifs with hbp
    · rfl
    · have hqp : q ≠ p := fun he => hbp (he ▸ rfl)
      exact h.saved q hq ((Function.update_of_ne hqp _ _).symm.trans hc)
  · change content devices (home place b) = l.blocks b
    rw [hplace b hb, if_neg (Ne.symm (show l.name p ≠ b from hno p hp))]
    exact h.rest b hb hno

theorem step_agrees (hio : Stores io place content) (hinj : Set.InjOn (home place) used)
    {x x' : Cache D C × List ℕ} {e : Event D} (h : Agrees place content used x.1 x.2 l) (hs : Step io x e x')
    (hok : l.Allows used e) : Agrees place content used x'.1 x'.2 (l.note e) := by
  have hinv := step_inv h.inv hs
  cases hs with
  | bread hread =>
    rcases bread_cases h.inv hread with hf | hf
    · exact h.bread_found hinv hf
    · exact h.bread_filled hio hok hinv hf
  | breleaseNull => exact h
  | brelease hp hrel =>
    rcases brelease_cases h.inv hp hrel with ⟨hone, hk⟩ | ⟨hone, hd⟩
    · exact h.kept hp hinv hone hk
    · exact h.dropped hio hinj hp hinv hone hd (hok ((h.refs _).trans hone))
  | bwrite hp hwrite => exact h.written hio hinj hp hwrite
  | store hp => exact h.stored hp _
  | mark hp => exact h.mark hp hinv

theorem run_agrees (hio : Stores io place content) (hinj : Set.InjOn (home place) used)
    {x₀ x : Cache D C × List ℕ} {es : List (Event D)} (h0 : Init x₀) (h : Run (· = x₀) (Step io) es x)
    (hc : Careful used (opened place content x₀.1.devices) es) :
    Agrees place content used x.1 x.2 (ledger (opened place content x₀.1.devices) es) := by
  induction h with
  | nil he =>
    rw [he]
    exact init_agrees h0
  | snoc _ hs ih =>
    obtain ⟨hc, hok⟩ := (careful_snoc _ _).mp hc
    rw [ledger_snoc]
    exact step_agrees hio hinj (ih hc) hs hok

/-- A task that marks what it changed before it lets go reads in each block what it last stored there, however often
the buffer of the block was taken away and used for another one. -/
theorem bread_last_stored (hio : Stores io place content) (hinj : Set.InjOn (home place) used)
    {x₀ : Cache D C × List ℕ} {es : List (Event D)} (h0 : Init x₀) (h : Run (· = x₀) (Step io) es (s, held))
    (hc : Careful used (opened place content x₀.1.devices) es) :
    (∀ p ∈ held, s.bytes (s.bufs p).data = (ledger (opened place content x₀.1.devices) es).blocks
      ((s.bufs p).dev, (s.bufs p).block)) ∧
    ∀ dev block p s', (dev, block) ∈ used → s.bread io dev block = .ok (some (p, s')) →
      s'.bytes (s'.bufs p).data = (ledger (opened place content x₀.1.devices) es).blocks (dev, block) := by
  have hagrees := run_agrees hio hinj h0 h hc
  refine ⟨fun p hp => ?_, fun dev block p s' hu hread => ?_⟩
  · rw [(hagrees.name p hp).1]
    exact hagrees.data p hp
  · have hnext := step_agrees hio hinj hagrees (.bread hread) hu
    have hdata := hnext.data p List.mem_cons_self
    rwa [show ((ledger (opened place content x₀.1.devices) es).note (.bread dev block p)).name p = (dev, block) from
      Function.update_self ..] at hdata

/-- Nothing such a task stored is lost: a block that no buffer it holds stands for is on the devices as it was
last stored. -/
theorem released_on_device (hio : Stores io place content) (hinj : Set.InjOn (home place) used)
    {x₀ : Cache D C × List ℕ} {es : List (Event D)} (h0 : Init x₀) (h : Run (· = x₀) (Step io) es (s, held))
    (hc : Careful used (opened place content x₀.1.devices) es) :
    ∀ b ∈ used, (∀ p ∈ held, ((s.bufs p).dev, (s.bufs p).block) ≠ b) →
      content s.devices (home place b) = (ledger (opened place content x₀.1.devices) es).blocks b := by
  have hagrees := run_agrees hio hinj h0 h hc
  intro b hb hno
  refine hagrees.rest b hb fun p hp => ?_
  rw [← (hagrees.name p hp).1]
  exact hno p hp

/-- A device that keeps what was written last. -/
def plainIo : BlockIo ℕ (Int32 × UInt32 → ℕ) :=
  ⟨fun c dev idx => .ok (c (dev, idx)), fun c dev idx data => .ok (Function.update c (dev, idx) data)⟩

theorem plainIo_stores : Stores plainIo Prod.mk fun c => c := by
  refine ⟨fun c dev idx data h => ?_, fun c c' dev idx data h => ?_⟩
  · cases h
    rfl
  · cases h
    rfl

def plainCache : Cache ℕ (Int32 × UInt32 → ℕ) :=
  ⟨KERNEL_BUFFER_MEM, KERNEL_BUFFER_MEM + KERNEL_BUFFER_SIZE - BLOCK_SIZE, fun _ => ⟨0, 0, 0, 0, 0, false, false⟩, fun _ => 0, [],
    fun _ => [], fun _ => 0⟩

theorem plainCache_init : Init (plainCache, []) := ⟨rfl, rfl, rfl, fun _ => rfl, rfl⟩

/-- Block 5 is given the contents 7 and let go. -/
def storeSeven : List (Event ℕ) :=
  [.bread 3 5 KERNEL_BUFFER_MEM, .store KERNEL_BUFFER_MEM 7, .mark KERNEL_BUFFER_MEM, .brelease (some KERNEL_BUFFER_MEM)]

theorem storeSeven_run : ∃ s, Run (· = (plainCache, [])) (Step plainIo) storeSeven (s, []) ∧
    ∃ p s', s.bread plainIo 3 5 = .ok (some (p, s')) := by
  have hmem : KERNEL_BUFFER_MEM ∈ [KERNEL_BUFFER_MEM] := List.mem_singleton.mpr rfl
  have hbread : ∃ s, plainCache.bread plainIo 3 5 = .ok (some (KERNEL_BUFFER_MEM, s)) ∧
      ∃ s', (({ s with bytes := Function.update s.bytes (s.bufs KERNEL_BUFFER_MEM).data 7 } : Cache _ _).upd
        KERNEL_BUFFER_MEM fun b => { b with dirty := true }).brelease plainIo (some KERNEL_BUFFER_MEM) = .ok s' ∧
        ∃ p s'', s'.bread plainIo 3 5 = .ok (some (p, s'')) := ⟨_, rfl, _, rfl, _, _, rfl⟩
  obtain ⟨s, hs, s', hs', hlast⟩ := hbread
  have hrun : Run (· = (plainCache, [])) (Step plainIo)
      ([] ++ [.bread 3 5 KERNEL_BUFFER_MEM] ++ [.store KERNEL_BUFFER_MEM 7] ++ [.mark KERNEL_BUFFER_MEM] ++
        [.brelease (some KERNEL_BUFFER_MEM)]) (s', [KERNEL_BUFFER_MEM].erase KERNEL_BUFFER_MEM) :=
    .snoc (.snoc (.snoc (.snoc (.nil rfl) (.bread hs)) (.store hmem)) (.mark hmem)) (.brelease hmem hs')
  rw [List.erase_cons_head] at hrun
  exact ⟨s', hrun, hlast⟩

theorem storeSeven_careful : Careful {(3, 5)} (opened Prod.mk (fun c => c) plainCache.devices) storeSeven :=
  ⟨rfl, trivial, trivial, fun _ _ => rfl, trivial⟩

theorem home_injOn_singleton : Set.InjOn (home (Prod.mk : Int32 → UInt32 → Int32 × UInt32)) {(3, 5)} :=
  Set.injOn_singleton _ _

theorem bread_last_stored_seven : ∃ s : Cache ℕ (Int32 × UInt32 → ℕ), ∃ p s',
    s.bread plainIo 3 5 = .ok (some (p, s')) ∧ s'.bytes (s'.bufs p).data = 7 := by
  obtain ⟨s, hrun, p, s', hread⟩ := storeSeven_run
  have hstored := bread_last_stored plainIo_stores home_injOn_singleton plainCache_init hrun storeSeven_careful
  exact ⟨s, p, s', hread, hstored.2 3 5 p s' rfl hread⟩

theorem released_on_device_seven : ∃ s : Cache ℕ (Int32 × UInt32 → ℕ), s.devices (3, 10) = 7 := by
  obtain ⟨s, hrun, -⟩ := storeSeven_run
  exact ⟨s, released_on_device plainIo_stores home_injOn_singleton plainCache_init hrun storeSeven_careful (3, 5) rfl nofun⟩

end Cache
end Onix
