import Onix.Fs.Visits

/-! What `bmap` with `create` leaves. A zone that it takes for a table is not cleared, so it must read as zero. -/

set_option autoImplicit false

namespace Onix

open Lib SharedWrite

namespace ZoneStore

variable {z z' : ZoneStore} {dev b i : ℕ} {slot : ZoneSlot} {S : Set Ino} {inode other : Ino} {p q : List ℕ}

/-! ### Allocation -/

/-- Each zone that the walk adds as a table reads as zero. -/
def CleanFrom (dev : ℕ) : List ℕ → ZoneStore → ZoneSlot → Prop
  | [], _, _ => True
  | index :: indexes, z, slot =>
    (z.read slot = 0 → ∀ b, FirstFree (z.zmap dev) (z.zmapBlocks dev) b → ∀ i < BLOCK_INDEXES,
      z.read (.table dev (b + z.firstdatazone dev - 1) i) = 0) ∧
    ∀ z', z.touch dev true slot = .ok (some z') → CleanFrom dev indexes z' (.table dev (z'.read slot).toNat index)

/-- The blocks that the indexes can tell apart. -/
def MAX_BLOCK : ℕ := BLOCK_INDEXES + BLOCK_INDEXES * BLOCK_INDEXES

/-- What `bmap` with `create` is for. -/
structure Allocated (z : ZoneStore) (S : Set Ino) (inode : Ino) (block idx : ℕ) (z' : ZoneStore) : Prop where
  used : idx ≠ 0 ∧ z'.Used inode.dev idx
  own : ∀ other ∈ S, other.dev = inode.dev → ∀ q, Valid q → z'.zoneAt other q = idx → other = inode ∧ q = placeOf block
  wf : z'.WellFormed S
  others : ∀ other ∈ S, ∀ b < MAX_BLOCK, ¬ (other = inode ∧ b = block) →
    ∃ r, z.bmap other b false = .ok (r, z) ∧ z'.bmap other b false = .ok (r, z')
  same : z'.bmap inode block false = .ok (idx, z')

def Allocates (z : ZoneStore) (S : Set Ino) (inode : Ino) (block : ℕ) : Prop :=
  ∃ idx z', z.bmap inode block true = .ok (idx, z') ∧ z.Allocated S inode block idx z'

/-- What the walk of `reckon` to a place leaves. -/
structure Grown (z : ZoneStore) (S : Set Ino) (inode : Ino) (full : List ℕ) (z' : ZoneStore) : Prop where
  wf : z'.WellFormed S
  there : z'.zoneAt inode full ≠ 0
  others : ∀ other ∈ S, ∀ q, Valid q → Leaf q → ¬ (other = inode ∧ q = full) → z'.zoneAt other q = z.zoneAt other q

/-- The entry of a table that stands at a place is the slot below it. -/
theorem table_slot {slot : ZoneSlot} (hp : p ≠ []) (hread : (z.read slot).toNat = z.zoneAt inode p) (i : ℕ) :
    ZoneSlot.table inode.dev (z.read slot).toNat i = z.slotAt inode (i :: p) := by
  rw [slotAt_cons _ _ _ hp, hread]

section Level

variable {z₁ : ZoneStore} {indexes : List ℕ} (hp : p ≠ [])
  (ht : z.touch inode.dev true (z.slotAt inode p) = .ok (some z₁))
  (hread : (z₁.read (z.slotAt inode p)).toNat = z₁.zoneAt inode p)

include hp ht hread

/-- One level of the walk leads from the slot of a place to a slot below it. -/
theorem reckon_down : reckon inode.dev true (i :: indexes) z (z.slotAt inode p) =
    reckon inode.dev true indexes z₁ (z₁.slotAt inode (i :: p)) := by
  rw [reckon, ht, ok_bind]
  dsimp only
  rw [table_slot hp hread]

theorem Reckons.down (h : Reckons inode.dev (i :: indexes) z (z.slotAt inode p)) :
    Reckons inode.dev indexes z₁ (z₁.slotAt inode (i :: p)) := by
  have hrest := h.2 z₁ ht
  rwa [table_slot hp hread] at hrest

theorem Reckons.up (hroom : z.read (z.slotAt inode p) = 0 → z.Room inode.dev)
    (h : Reckons inode.dev indexes z₁ (z₁.slotAt inode (i :: p))) :
    Reckons inode.dev (i :: indexes) z (z.slotAt inode p) := by
  refine ⟨hroom, fun z₂ ht₂ => ?_⟩
  rw [ht] at ht₂
  cases ht₂
  rwa [table_slot hp hread]

theorem CleanFrom.down (h : CleanFrom inode.dev (i :: indexes) z (z.slotAt inode p)) :
    CleanFrom inode.dev indexes z₁ (z₁.slotAt inode (i :: p)) := by
  have hrest := h.2 z₁ ht
  rwa [table_slot hp hread] at hrest

theorem CleanFrom.up (hblank : z.read (z.slotAt inode p) = 0 → ∀ b,
    FirstFree (z.zmap inode.dev) (z.zmapBlocks inode.dev) b → ∀ j < BLOCK_INDEXES,
    z.read (.table inode.dev (b + z.firstdatazone inode.dev - 1) j) = 0)
    (h : CleanFrom inode.dev indexes z₁ (z₁.slotAt inode (i :: p))) :
    CleanFrom inode.dev (i :: indexes) z (z.slotAt inode p) := by
  refine ⟨hblank, fun z₂ ht₂ => ?_⟩
  rw [ht] at ht₂
  cases ht₂
  rwa [table_slot hp hread]

end Level

/-- Where a walk stands: at a place, with the indexes of the tables below it still to come. -/
structure Walk (z : ZoneStore) (S : Set Ino) (inode : Ino) (indexes : List ℕ) (p : List ℕ) : Prop where
  wf : z.WellFormed S
  mem : inode ∈ S
  valid : Valid (indexes.reverse ++ p)
  opened : z.Open inode p

namespace Walk

variable {indexes : List ℕ} {z₁ : ZoneStore}

theorem full (index : ℕ) (indexes p : List ℕ) : (index :: indexes).reverse ++ p = indexes.reverse ++ (index :: p) := by
  simp

theorem ne_nil (w : Walk z S inode indexes p) : p ≠ [] := by
  rintro rfl
  exact w.opened

theorem here (w : Walk z S inode indexes p) : Valid p := w.valid.of_append w.ne_nil

theorem below (w : Walk z S inode (i :: indexes) p) : Valid (indexes.reverse ++ (i :: p)) := full i indexes p ▸ w.valid

theorem not_leaf (w : Walk z S inode (i :: indexes) p) : ¬ Leaf p :=
  fun hl => hl.not_valid w.ne_nil (w.below.of_append (List.cons_ne_nil _ _))

/-- A place that is there is passed. -/
theorem pass (w : Walk z S inode (i :: indexes) p) (hne : z.zoneAt inode p ≠ 0) : Walk z S inode indexes (i :: p) :=
  ⟨w.wf, w.mem, w.below, (open_cons _ _ _ w.ne_nil).mpr hne⟩

/-- A table that is added blank is passed as well. -/
theorem add (w : Walk z S inode (i :: indexes) p) (h : Filling z S inode p b z₁)
    (hblank : Filling.Blank z inode p b) : Walk z₁ S inode indexes (i :: p) :=
  ⟨h.wellFormed hblank, w.mem, w.below, (open_cons _ _ _ w.ne_nil).mpr h.there⟩

theorem places (w : Walk z S inode (i :: indexes) p) : ∀ q ∈ way (i :: p) indexes, Valid q :=
  way_valid w.below (List.cons_ne_nil _ _)

theorem places_append (w : Walk z S inode (i :: indexes) p) {rest : List (List ℕ)} (hrest : ∀ q ∈ rest, Valid q) :
    ∀ q ∈ way (i :: p) indexes ++ rest, Valid q := way_append_valid w.below (List.cons_ne_nil _ _) hrest

theorem empty (w : Walk z S inode indexes p) (hz : z.read (z.slotAt inode p) = 0) : z.zoneAt inode p = 0 := by
  by_contra hne
  exact (read_ne_zero w.opened).mpr hne hz

/-- The zone of the place is there, or the first free one is put there. -/
theorem touch (w : Walk z S inode indexes p) (hroom : z.read (z.slotAt inode p) = 0 → z.Room inode.dev) :
    (z.zoneAt inode p ≠ 0 ∧ z.touch inode.dev true (z.slotAt inode p) = .ok (some z)) ∨
      ∃ b z₁, z.touch inode.dev true (z.slotAt inode p) = .ok (some z₁) ∧ Filling z S inode p b z₁ := by
  rcases touch_filled hroom with ⟨hne, ht⟩ | ⟨hzero, b, z₁, ht, hf⟩
  · exact .inl ⟨(read_ne_zero w.opened).mp hne, ht⟩
  · exact .inr ⟨b, z₁, ht, w.wf, w.mem, w.here, w.opened, w.empty hzero, hf⟩

end Walk

theorem CleanFrom.blank {indexes : List ℕ} (h : CleanFrom inode.dev (i :: indexes) z (z.slotAt inode p))
    (hf : Filling z S inode p b z') : Filling.Blank z inode p b := .inr (h.1 hf.read_zero b hf.filled.first)

section

variable {indexes : List ℕ} {rest : List (List ℕ)} {idx zone : ℕ}

/-- What is clean before the walk is clean where the walk comes by. -/
theorem Clean.walk (w : Walk z S inode indexes p) (hroom : Reckons inode.dev indexes z (z.slotAt inode p))
    (hrest : ∀ q ∈ rest, Valid q) (hc : z.Clean inode (way p indexes ++ rest)) :
    CleanFrom inode.dev indexes z (z.slotAt inode p) := by
  induction indexes generalizing z p with
  | nil => trivial
  | cons index indexes ih =>
    rcases w.touch hroom.1 with ⟨hne, ht⟩ | ⟨b, z₁, ht, hf⟩
    · have hread := (zoneAt_slot w.opened).symm
      have hnext := ih (w.pass hne) (hroom.down w.ne_nil ht hread) ((Visited.there hne).clean hc)
      exact .up w.ne_nil ht hread (fun hz => absurd (w.empty hz) hne) hnext
    · have hblank := hc.head hf.empty w.not_leaf hf.filled.first
      have hnext := ih (w.add hf hblank) (hroom.down w.ne_nil ht hf.read_slot)
        ((hf.visited hblank (w.places_append hrest)).clean hc)
      refine .up w.ne_nil ht hf.read_slot (fun _ c hc => ?_) hnext
      rw [firstFree_unique hf.filled.first hc]
      exact hblank.resolve_left w.not_leaf

/-- The walk finds room if there are zones enough. -/
theorem Enough.walk (w : Walk z S inode indexes p) (hrest : ∀ q ∈ rest, Valid q)
    (he : z.Enough inode (way p indexes ++ rest)) (hc : z.Clean inode (way p indexes ++ rest)) :
    Reckons inode.dev indexes z (z.slotAt inode p) := by
  induction indexes generalizing z p with
  | nil => exact fun hz => he.room (w.empty hz)
  | cons index indexes ih =>
    have hroom : z.read (z.slotAt inode p) = 0 → z.Room inode.dev := fun hz => he.room (w.empty hz)
    rcases w.touch hroom with ⟨hne, ht⟩ | ⟨b, z₁, ht, hf⟩
    · have hvisited : Visited z inode (p :: (way (index :: p) indexes ++ rest)) z (way (index :: p) indexes ++ rest) :=
        .there hne
      exact .up w.ne_nil ht (zoneAt_slot w.opened).symm hroom
        (ih (w.pass hne) (hvisited.enough he) (hvisited.clean hc))
    · have hblank := hc.head hf.empty w.not_leaf hf.filled.first
      have hvisited := hf.visited hblank (w.places_append hrest)
      exact .up w.ne_nil ht hf.read_slot hroom (ih (w.add hf hblank) (hvisited.enough he) (hvisited.clean hc))

variable (w : Walk z S inode indexes p) (hleaf : Leaf (indexes.reverse ++ p))
  (hroom : Reckons inode.dev indexes z (z.slotAt inode p)) (hclean : CleanFrom inode.dev indexes z (z.slotAt inode p))

include w hleaf hroom hclean

/-- Over blank tables the walk adds what is missing on the way, and nothing else. -/
theorem reckon_grown : ∃ z', reckon inode.dev true indexes z (z.slotAt inode p) =
    .ok (z'.zoneAt inode (indexes.reverse ++ p), z') ∧ z.Grown S inode (indexes.reverse ++ p) z' := by
  induction indexes generalizing z p with
  | nil =>
    rw [List.reverse_nil, List.nil_append] at *
    rcases w.touch hroom with ⟨hne, ht⟩ | ⟨b, z₁, ht, hf⟩
    · refine ⟨z, ?_, w.wf, hne, fun _ _ _ _ _ _ => rfl⟩
      rw [reckon, ht, ok_bind, zoneAt_slot w.opened]
    · refine ⟨z₁, ?_, hf.wellFormed (.inl hleaf), hf.there, fun other hother q hq _ hne => ?_⟩
      · rw [reckon, ht, ok_bind, ← hf.read_slot]
      · rw [hf.zoneAt_eq (.inl hleaf) hother hq, if_neg hne]
  | cons index indexes ih =>
    rw [Walk.full] at hleaf ⊢
    rcases w.touch hroom.1 with ⟨hne, ht⟩ | ⟨b, z₁, ht, hf⟩
    · have hread := (zoneAt_slot w.opened).symm
      rw [reckon_down w.ne_nil ht hread]
      exact ih (w.pass hne) hleaf (hroom.down w.ne_nil ht hread) (hclean.down w.ne_nil ht hread)
    · have hblank := hclean.blank hf
      rw [reckon_down w.ne_nil ht hf.read_slot]
      obtain ⟨z', hr, hg⟩ := ih (w.add hf hblank) hleaf (hroom.down w.ne_nil ht hf.read_slot)
        (hclean.down w.ne_nil ht hf.read_slot)
      refine ⟨z', hr, hg.wf, hg.there, fun other hother q hq hl hne => ?_⟩
      rw [hg.others other hother q hq hl hne, hf.zoneAt_eq hblank hother hq, if_neg]
      rintro ⟨-, rfl⟩
      exact w.not_leaf hl

/-- What the walk finds clean was clean before it. -/
theorem CleanFrom.clean : z.Clean inode (way p indexes) := by
  induction indexes generalizing z p with
  | nil =>
    intro q zone hg hl
    have hq := (mem_missing hg.mem).2
    rw [way, List.mem_singleton] at hq
    rw [hq] at hl
    exact absurd hleaf hl
  | cons index indexes ih =>
    rw [Walk.full] at hleaf
    rcases w.touch hroom.1 with ⟨hne, ht⟩ | ⟨b, z₁, ht, hf⟩
    · have hread := (zoneAt_slot w.opened).symm
      have hnext := ih (w.pass hne) hleaf (hroom.down w.ne_nil ht hread) (hclean.down w.ne_nil ht hread)
      exact fun q zone hg => hnext q zone ((given_there hne).mp hg)
    · have hblank := hclean.blank hf
      exact hf.clean_of_rest hblank w.places (ih (w.add hf hblank) hleaf (hroom.down w.ne_nil ht hf.read_slot)
        (hclean.down w.ne_nil ht hf.read_slot))

/-- The walk visits the places on its way. -/
theorem reckon_visited (hrest : ∀ q ∈ rest, Valid q)
    (h : reckon inode.dev true indexes z (z.slotAt inode p) = .ok (idx, z')) :
    Visited z inode (way p indexes ++ rest) z' rest := by
  induction indexes generalizing z p with
  | nil =>
    rcases w.touch hroom with ⟨hne, ht⟩ | ⟨b, z₁, ht, hf⟩
    · rw [reckon, ht, ok_bind] at h
      cases h
      exact .there hne
    · rw [reckon, ht, ok_bind] at h
      cases h
      exact hf.visited (.inl hleaf) hrest
  | cons index indexes ih =>
    rw [Walk.full] at hleaf
    rcases w.touch hroom.1 with ⟨hne, ht⟩ | ⟨b, z₁, ht, hf⟩
    · have hread := (zoneAt_slot w.opened).symm
      rw [reckon_down w.ne_nil ht hread] at h
      exact (Visited.there hne).trans (ih (w.pass hne) hleaf (hroom.down w.ne_nil ht hread)
        (hclean.down w.ne_nil ht hread) h)
    · have hblank := hclean.blank hf
      rw [reckon_down w.ne_nil ht hf.read_slot] at h
      exact (hf.visited hblank (w.places_append hrest)).trans (ih (w.add hf hblank) hleaf
        (hroom.down w.ne_nil ht hf.read_slot) (hclean.down w.ne_nil ht hf.read_slot) h)

/-- The walk to a missing place returns the zone that the place is given, with what it contains. -/
theorem reckon_given (hg : z.Given inode (way p indexes) (indexes.reverse ++ p) zone)
    (h : reckon inode.dev true indexes z (z.slotAt inode p) = .ok (idx, z')) :
    idx = zone ∧ z'.data inode.dev zone = z.data inode.dev zone := by
  have hunused := hg.unused (w.wf.base inode w.mem).1
  induction indexes generalizing z p with
  | nil =>
    have hempty := (mem_missing hg.mem).1
    rcases w.touch hroom with ⟨hne, -⟩ | ⟨b, z₁, ht, hf⟩
    · exact absurd hempty hne
    · rw [reckon, ht, ok_bind] at h
      cases h
      refine ⟨?_, hf.data_unused hunused⟩
      obtain ⟨c, hc, rfl⟩ := (given_head hempty).mp hg
      rw [hf.filled.new, firstFree_unique hf.filled.first hc]
  | cons index indexes ih =>
    rw [Walk.full] at hleaf hg
    rcases w.touch hroom.1 with ⟨hne, ht⟩ | ⟨b, z₁, ht, hf⟩
    · have hread := (zoneAt_slot w.opened).symm
      rw [reckon_down w.ne_nil ht hread] at h
      exact ih (w.pass hne) hleaf (hroom.down w.ne_nil ht hread) (hclean.down w.ne_nil ht hread)
        ((given_there hne).mp hg) h hunused
    · have hblank := hclean.blank hf
      have hbelow : indexes.reverse ++ (index :: p) ≠ p := by
        intro he
        have hlength := congrArg List.length he
        simp only [List.length_append, List.length_cons] at hlength
        omega
      have hg' := (hf.given_visit hblank w.places hbelow).mp hg
      rw [reckon_down w.ne_nil ht hf.read_slot] at h
      rw [← hf.data_unused hunused]
      exact ih (w.add hf hblank) hleaf (hroom.down w.ne_nil ht hf.read_slot) (hclean.down w.ne_nil ht hf.read_slot)
        hg' h (hg'.unused ((w.add hf hblank).wf.base inode w.mem).1)

end

/-- `bmap` starts a walk. -/
theorem walk_bmap {block : ℕ} (hwf : z.WellFormed S) (hin : inode ∈ S) (hblock : block < MAX_BLOCK) :
    Walk z S inode (levels block).2 [(levels block).1] := ⟨hwf, hin, (placeOf_valid hblock).1, trivial⟩

theorem bmap_allocated {block : ℕ} (hwf : z.WellFormed S) (hin : inode ∈ S) (hblock : block < MAX_BLOCK)
    (hroom : z.Maps inode block)
    (hclean : CleanFrom inode.dev (levels block).2 z (.inode inode (levels block).1)) :
    z.Allocates S inode block := by
  have htotal : ∀ {b : ℕ}, b < MAX_BLOCK → b < TOTAL_BLOCK := fun h => Nat.lt_of_lt_of_le h (by decide)
  obtain ⟨hv, hleaf⟩ := placeOf_valid hblock
  obtain ⟨z', hr, hg⟩ := reckon_grown (walk_bmap hwf hin hblock) hleaf (hroom (htotal hblock)) hclean
  refine ⟨_, z', ?_, ⟨hg.there, hg.wf.used inode hin _ hv hg.there⟩, fun other hother hd q hq he => ?_, hg.wf,
    fun other hother b hb hne => ⟨z.zoneAt other (placeOf b), bmap_lookup z other (htotal hb), ?_⟩,
    bmap_lookup z' inode (htotal hblock)⟩
  · rw [bmap, decide_eq_true (htotal hblock), assert_true, ok_bind]
    exact hr
  · exact hg.wf.own inode hin other hother _ q hv hq hd.symm hg.there he
  · obtain ⟨hvb, hlb⟩ := placeOf_valid hb
    rw [bmap_lookup z' other (htotal hb), hg.others other hother _ hvb hlb]
    exact fun hs => hne ⟨hs.1, placeOf_injective hs.2⟩

/-! ### What a stale table does -/

/-- Every zone that is marked used stands at some place. -/
def NoLeak (z : ZoneStore) (S : Set Ino) : Prop :=
  ∀ inode ∈ S, ∀ n, z.Used inode.dev n → ∃ other ∈ S, other.dev = inode.dev ∧ ∃ p, Valid p ∧ z.zoneAt other p = n

/-- The walk keeps what is there. Every bit that it sets is that of a place that was empty, and it writes to tables
only. -/
structure Marks (z : ZoneStore) (inode : Ino) (z' : ZoneStore) : Prop where
  keeps : z.Keeps z'
  base : z'.firstdatazone = z.firstdatazone
  bits : ∀ d c, z'.zmap d c = true → z.zmap d c = true ∨ d = inode.dev ∧ ∃ q, Valid q ∧ z.zoneAt inode q = 0 ∧
    z'.zoneAt inode q = c + z.firstdatazone d - 1
  data : ∀ d m, z'.data d m = z.data d m ∨ d = inode.dev ∧ m ≠ 0 ∧ ∃ i q, Valid (i :: q) ∧ q ≠ [] ∧
    z'.zoneAt inode q = m

theorem marks_refl (z : ZoneStore) (inode : Ino) : z.Marks inode z :=
  ⟨fun _ _ => rfl, rfl, fun _ _ h => .inl h, fun _ _ => .inl rfl⟩

theorem Marks.trans {z₁ : ZoneStore} (h : z.Marks inode z₁) (h' : z₁.Marks inode z')
    (hbase : ∀ c, z₁.zmap inode.dev c = true → z.zmap inode.dev c = false → c + z.firstdatazone inode.dev - 1 ≠ 0) :
    z.Marks inode z' := by
  refine ⟨h.keeps.trans h'.keeps, h'.base.trans h.base, fun d c hc => ?_, fun d m => ?_⟩
  · rcases h'.bits d c hc with hc₁ | ⟨hd, q, hq, hzero, hnew⟩
    · by_cases hold : z.zmap d c = true
      · exact .inl hold
      · rcases h.bits d c hc₁ with hold' | ⟨rfl, q, hq, hzero, hnew⟩
        · exact absurd hold' hold
        · have hne := hbase c hc₁ (by simpa using hold)
          exact .inr ⟨rfl, q, hq, hzero, by rw [h'.keeps.zoneAt (hnew ▸ hne), hnew]⟩
    · refine .inr ⟨hd, q, hq, ?_, by rw [hnew, h.base]⟩
      by_contra hne
      rw [h.keeps.zoneAt hne] at hzero
      exact hne hzero
  · rcases h'.data d m with he' | hq
    · rcases h.data d m with he | ⟨hd, hm, i, q, hv, hq, hzone⟩
      · exact .inl (he'.trans he)
      · exact .inr ⟨hd, hm, i, q, hv, hq, by rw [h'.keeps.zoneAt (hzone ▸ hm), hzone]⟩
    · exact .inr hq

theorem Filled.marks (h : Filled z inode.dev (z.slotAt inode p) b z') (hv : Valid p) (ho : z.Open inode p)
    (hz : z.read (z.slotAt inode p) = 0) : z.Marks inode z' := by
  refine ⟨h.keeps hz, h.base, fun d c hc => ?_, fun d m => ?_⟩
  · rw [h.zmap, Bool.or_eq_true, decide_eq_true_eq] at hc
    rcases hc with hc | ⟨rfl, rfl⟩
    · exact .inl hc
    · refine .inr ⟨rfl, p, hv, ?_, h.zoneAt_place ho hz⟩
      rw [zoneAt_slot ho, hz]
      rfl
  · by_cases hm : ∀ i, z.slotAt inode p ≠ .table d m i
    · exact .inl (h.data d m hm)
    · obtain ⟨i, he⟩ := not_forall_not.mp hm
      match p, hv, ho, he with
      | k :: j :: up, hv, ho, he =>
        rw [slotAt_cons _ _ _ (List.cons_ne_nil _ _)] at he
        obtain ⟨rfl, rfl, -⟩ := ZoneSlot.table.inj he
        exact .inr ⟨rfl, ho, k, j :: up, hv, List.cons_ne_nil _ _, (h.keeps hz).zoneAt ho⟩

/-- The device has a first data zone, and bit 0 is reserved. -/
def Reserved (z : ZoneStore) (dev : ℕ) : Prop := 1 ≤ z.firstdatazone dev ∧ z.zmap dev 0 = true

theorem Filled.number_ne (h : Filled z dev slot b z') (hres : z.Reserved dev) :
    b + z.firstdatazone dev - 1 ≠ 0 ∧ z'.Reserved dev := by
  have hb : b ≠ 0 := by
    rintro rfl
    have := h.first.free
    rw [hres.2] at this
    cases this
  have := hres.1
  refine ⟨by omega, ?_⟩
  unfold Reserved
  rw [h.base, h.zmap, hres.2]
  exact ⟨hres.1, rfl⟩

theorem reckon_marks {indexes : List ℕ} {idx : ℕ} (hv : Valid (indexes.reverse ++ p)) (ho : z.Open inode p)
    (hres : z.Reserved inode.dev) (hroom : Reckons inode.dev indexes z (z.slotAt inode p))
    (h : reckon inode.dev true indexes z (z.slotAt inode p) = .ok (idx, z')) : z.Marks inode z' := by
  have hp : p ≠ [] := by
    rintro rfl
    exact ho
  have hvp := hv.of_append hp
  induction indexes generalizing z p with
  | nil =>
    rcases touch_filled hroom with ⟨-, ht⟩ | ⟨hzero, b, z₁, ht, hf⟩
    · rw [reckon, ht, ok_bind] at h
      cases h
      exact marks_refl _ inode
    · rw [reckon, ht, ok_bind] at h
      cases h
      exact hf.marks hvp ho hzero
  | cons index indexes ih =>
    have hfull : (index :: indexes).reverse ++ p = indexes.reverse ++ (index :: p) := by simp
    rw [hfull] at hv
    have hvi : Valid (index :: p) := hv.of_append (List.cons_ne_nil _ _)
    rcases touch_filled hroom.1 with ⟨hne, ht⟩ | ⟨hzero, b, z₁, ht, hf⟩
    · have hread := (zoneAt_slot ho).symm
      rw [reckon_down hp ht hread] at h
      exact ih hv ((open_cons _ _ _ hp).mpr ((read_ne_zero ho).mp hne)) hres (hroom.down hp ht hread) h
        (List.cons_ne_nil _ _) hvi
    · obtain ⟨hnum, hres₁⟩ := hf.number_ne hres
      have hthere := hf.zoneAt_place ho hzero
      have hread : (z₁.read (z.slotAt inode p)).toNat = z₁.zoneAt inode p := by rw [hthere, hf.new]
      rw [reckon_down hp ht hread] at h
      have hrest := ih hv ((open_cons _ _ _ hp).mpr (hthere ▸ hnum)) hres₁ (hroom.down hp ht hread) h
        (List.cons_ne_nil _ _) hvi
      refine (hf.marks hvp ho hzero).trans hrest fun c hc hold => ?_
      rw [hf.zmap, hold, Bool.false_or, decide_eq_true_eq] at hc
      rwa [hc.2]

theorem Filling.noLeak (h : Filling z S inode p b z') (hblank : Filling.Blank z inode p b) (hleak : z.NoLeak S) :
    z'.NoLeak S := by
  intro x hx n hu
  unfold Used at hu
  rw [h.filled.base, h.filled.zmap, Bool.or_eq_true, decide_eq_true_eq] at hu
  obtain ⟨hle, hbit | ⟨hd, hb⟩⟩ := hu
  · obtain ⟨y, hy, hyd, q, hq, hn⟩ := hleak x hx n ⟨hle, hbit⟩
    have hbase := (h.wf.base x hx).1
    refine ⟨y, hy, hyd, q, hq, ?_⟩
    rw [h.zoneAt_eq hblank hy hq, if_neg, hn]
    rintro ⟨rfl, rfl⟩
    rw [h.empty] at hn
    omega
  · have hbase := (h.wf.base x hx).1
    refine ⟨inode, h.mem, hd.symm, p, h.valid, ?_⟩
    rw [h.zoneAt_self, ← hd]
    omega

/-- A table that is not blank refers to a zone that is not marked used, or stands elsewhere too. -/
theorem Filling.blank {z₁ : ZoneStore} (h : Filling z S inode p b z₁) (hleak : z.NoLeak S) (hnl : ¬ Leaf p)
    (hmarks : z₁.Marks inode z') (hwf' : z'.WellFormed S) : Filling.Blank z inode p b := by
  refine .inr fun i hi => ?_
  by_contra hstale
  have hvalid : Valid (i :: p) := h.valid.below hnl hi
  -- the entry makes a place of its own, which the rest of the walk keeps
  have hentry : z₁.zoneAt inode (i :: p) ≠ 0 := by
    rw [h.zoneAt_table]
    exact fun he => hstale (UInt16.toNat_inj.mp he)
  have hkept := hmarks.keeps.zoneAt hentry
  have hused := hwf'.used inode h.mem _ hvalid (hkept ▸ hentry)
  generalize hn : z'.zoneAt inode (i :: p) = n at hused
  have hne : n ≠ 0 := hn ▸ hkept ▸ hentry
  have hbase : z'.firstdatazone = z.firstdatazone := hmarks.base.trans h.filled.base
  obtain ⟨hle, hbit⟩ := hused
  rw [hbase] at hle hbit
  have hpos := (h.wf.base inode h.mem).1
  have hown := fun {other : Ino} {q : List ℕ} (hx : other ∈ S) (hq : Valid q) (hd : inode.dev = other.dev)
    (he : z'.zoneAt other q = n) => hwf'.own inode h.mem other hx _ q hvalid hq hd (hn ▸ hne) (he.trans hn.symm)
  rcases hmarks.bits _ _ hbit with hbit₁ | ⟨-, q, hq, hempty, hnew⟩
  · rw [h.filled.zmap, Bool.or_eq_true, decide_eq_true_eq] at hbit₁
    rcases hbit₁ with hbit₀ | ⟨-, hb⟩
    · -- it was used before, and stood at another place
      obtain ⟨y, hy, hyd, q, hq, hyn⟩ := hleak inode h.mem n ⟨hle, hbit₀⟩
      have hq' : z'.zoneAt y q = n := by
        rw [((h.filled.keeps h.read_zero).trans hmarks.keeps).zoneAt (hyn ▸ hne), hyn]
      obtain ⟨rfl, rfl⟩ := hown hy hq hyd.symm hq'
      have hbelow := zoneAt_below h.empty h.valid.ne_nil [i]
      rw [List.singleton_append] at hbelow
      omega
    · -- it is the table itself
      have hp' : z'.zoneAt inode p = n := by
        rw [hmarks.keeps.zoneAt h.there, h.zoneAt_self]
        omega
      have := congrArg List.length (hown h.mem h.valid rfl hp').2
      simp at this
  · -- it was handed out after the table
    rw [h.filled.base] at hnew
    obtain ⟨-, rfl⟩ := hown h.mem hq rfl (hnew.trans (by omega))
    exact hentry hempty

/-- Where the walk leaves well formed zone trees, its new tables were blank. -/
theorem reckon_clean {indexes : List ℕ} {idx : ℕ} (w : Walk z S inode indexes p) (hleak : z.NoLeak S)
    (hroom : Reckons inode.dev indexes z (z.slotAt inode p))
    (h : reckon inode.dev true indexes z (z.slotAt inode p) = .ok (idx, z')) (hwf' : z'.WellFormed S) :
    CleanFrom inode.dev indexes z (z.slotAt inode p) := by
  induction indexes generalizing z p with
  | nil => trivial
  | cons index indexes ih =>
    rcases w.touch hroom.1 with ⟨hne, ht⟩ | ⟨b, z₁, ht, hf⟩
    · have hread := (zoneAt_slot w.opened).symm
      rw [reckon_down w.ne_nil ht hread] at h
      exact .up w.ne_nil ht hread (fun hz => absurd (w.empty hz) hne)
        (ih (w.pass hne) hleak (hroom.down w.ne_nil ht hread) h)
    · have hroom₁ := hroom.down w.ne_nil ht hf.read_slot
      obtain ⟨-, hres₁⟩ := hf.filled.number_ne (w.wf.base inode w.mem)
      rw [reckon_down w.ne_nil ht hf.read_slot] at h
      have hmarks := reckon_marks w.below ((open_cons _ _ _ w.ne_nil).mpr hf.there) hres₁ hroom₁ h
      have hblank := hf.blank hleak w.not_leaf hmarks hwf'
      refine .up w.ne_nil ht hf.read_slot (fun _ c hc => ?_)
        (ih (w.add hf hblank) (hf.noLeak hblank hleak) hroom₁ h)
      rw [firstFree_unique hf.filled.first hc]
      exact hblank.resolve_left w.not_leaf

/-- `bmap` allocates as it should if the zones it takes for tables are blank; if no zone is lost, only then. -/
theorem bmap_allocates {block : ℕ} (hwf : z.WellFormed S) (hin : inode ∈ S) (hblock : block < MAX_BLOCK)
    (hroom : z.Maps inode block) : (z.Clean inode (wayTo block) → z.Allocates S inode block) ∧
      (z.NoLeak S → z.Allocates S inode block → z.Clean inode (wayTo block)) := by
  have hlt : block < TOTAL_BLOCK := Nat.lt_of_lt_of_le hblock (by decide)
  have hw := walk_bmap hwf hin hblock
  constructor
  · intro hclean
    rw [← List.append_nil (wayTo block)] at hclean
    exact bmap_allocated hwf hin hblock hroom (hclean.walk hw (hroom hlt) fun _ hq => absurd hq List.not_mem_nil)
  · rintro hleak ⟨idx, z', h, ha⟩
    obtain ⟨_, -, h⟩ := bind_ok.mp h
    exact (reckon_clean hw hleak (hroom hlt) h ha.wf).clean hw (placeOf_valid hblock).2 (hroom hlt)

/-- A device with its first data zone at 10, and one file without zones. In zone 10 there is the given byte. -/
def oneFile (stale : UInt8) : ZoneStore where
  zmap _ b := b = 0
  zmapBlocks _ := 1
  firstdatazone _ := 10
  zone _ _ := 0
  data _ zone i := if zone = 10 ∧ i = 0 then stale else 0
  past _ _ := 0
  filled := []

theorem oneFile_wellFormed (stale : UInt8) : (oneFile stale).WellFormed {⟨1, 2⟩} := by
  have hzero : ∀ inode p, (oneFile stale).zoneAt inode p = 0 := by
    intro inode p
    rcases List.eq_nil_or_concat' p with rfl | ⟨up, r, rfl⟩
    · rfl
    · exact zoneAt_below rfl (List.cons_ne_nil _ _) up
  exact ⟨fun _ _ => ⟨Nat.le_add_left 1 9, rfl⟩, fun _ _ p _ h => absurd (hzero _ p) h,
    fun _ _ _ _ p _ _ _ _ h => absurd (hzero _ p) h⟩

theorem oneFile_room (stale : UInt8) : (oneFile stale).Room 1 := by
  refine ⟨1, ⟨(by decide : 1 < 1 * BLOCK_BITS), by decide, rfl, fun c hc => ?_⟩, (by decide : 1 + 10 - 1 < 65536)⟩
  have hc : c = 0 := by omega
  simp [oneFile, hc]

theorem bmap_allocates_direct : (oneFile 0).Allocates {⟨1, 2⟩} ⟨1, 2⟩ 0 := by
  have hmaps : (oneFile 0).Maps ⟨1, 2⟩ 0 := fun _ _ => oneFile_room 0
  have hclean : (oneFile 0).Clean ⟨1, 2⟩ (wayTo 0) := fun _ _ _ _ _ _ => by simp [read, oneFile]
  exact (bmap_allocates (oneFile_wellFormed 0) rfl (by decide) hmaps).1 hclean

/-- The first entry of the table for block 7 is left from before, and is taken for its zone. -/
theorem bmap_takes_stale : ¬ ∀ (z : ZoneStore) (S : Set Ino) (inode : Ino) (block : ℕ), z.WellFormed S → inode ∈ S →
    block < 65536 → z.Maps inode block → z.Allocates S inode block := by
  intro h
  obtain ⟨z₁, hrun, hbase, hclear⟩ : ∃ z₁, (oneFile 20).bmap ⟨1, 2⟩ 7 true = .ok (20, z₁) ∧
      z₁.firstdatazone 1 = 10 ∧ z₁.zmap 1 11 = false := ⟨_, rfl, rfl, rfl⟩
  have hmaps : (oneFile 20).Maps ⟨1, 2⟩ 7 := by
    intro _
    refine ⟨fun _ => oneFile_room 20, fun z' ht hz => ?_⟩
    obtain ⟨z₂, htouch, hread⟩ : ∃ z₂, (oneFile 20).touch 1 true (.inode ⟨1, 2⟩ DIRECT_BLOCK) = .ok (some z₂) ∧
        z₂.read (.table 1 (z₂.read (.inode ⟨1, 2⟩ DIRECT_BLOCK)).toNat 0) = 20 := ⟨_, rfl, rfl⟩
    rw [show (oneFile 20).touch 1 true (.inode ⟨1, 2⟩ DIRECT_BLOCK) = .ok (some z') from ht] at htouch
    cases htouch
    rw [show z'.read (.table 1 (z'.read (.inode ⟨1, 2⟩ DIRECT_BLOCK)).toNat 0) = 0 from hz] at hread
    cases hread
  obtain ⟨idx, z', hr, ha⟩ := h (oneFile 20) {⟨1, 2⟩} ⟨1, 2⟩ 7 (oneFile_wellFormed 20) rfl (by decide) hmaps
  rw [hrun] at hr
  cases hr
  have hused := ha.used.2.2
  rw [hbase, show 20 + 1 - 10 = 11 from rfl, hclear] at hused
  cases hused

end ZoneStore

end Onix
