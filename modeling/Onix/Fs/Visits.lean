import Onix.Fs.ZoneTree

/-! Which free zones some places are given if they are visited one after the other. All of it can be told from the
state before the first visit. -/

set_option autoImplicit false

namespace Onix

open Lib SharedWrite

namespace ZoneStore

/-- The bit that is taken after `n` others. -/
def Taken (blocks : ℕ) : ℕ → (ℕ → Bool) → ℕ → Prop
  | 0, bits, b => FirstFree bits blocks b
  | n + 1, bits, b => ∃ c, FirstFree bits blocks c ∧ Taken blocks n (Function.update bits c true) b

/-- The places without a zone, each where it comes first. -/
def missing (z : ZoneStore) (inode : Ino) : List (List ℕ) → List (List ℕ)
  | [] => []
  | p :: places =>
    if z.zoneAt inode p = 0 then p :: (z.missing inode places).filter (· ≠ p) else z.missing inode places

/-- The zone that a place is given when the places are visited. -/
def Given (z : ZoneStore) (inode : Ino) (places : List (List ℕ)) (p : List ℕ) (zone : ℕ) : Prop :=
  ∃ n b, (z.missing inode places)[n]? = some p ∧ Taken (z.zmapBlocks inode.dev) n (z.zmap inode.dev) b ∧
    zone = b + z.firstdatazone inode.dev - 1

/-- There is a zone for each place, with a number that fits in 16 bits. -/
def Enough (z : ZoneStore) (inode : Ino) (places : List (List ℕ)) : Prop :=
  ∀ p ∈ z.missing inode places, ∃ zone, z.Given inode places p zone ∧ zone < 65536

/-- The zones that the tables are given read as zero. -/
def Clean (z : ZoneStore) (inode : Ino) (places : List (List ℕ)) : Prop :=
  ∀ p zone, z.Given inode places p zone → ¬ Leaf p → ∀ i < BLOCK_INDEXES, z.read (.table inode.dev zone i) = 0

/-- From a place on, with the indexes of the tables below it. -/
def way : List ℕ → List ℕ → List (List ℕ)
  | p, [] => [p]
  | p, index :: indexes => p :: way (index :: p) indexes

/-- The places on the way to a block, and its own. -/
def wayTo (block : ℕ) : List (List ℕ) := way [(levels block).1] (levels block).2

variable {z z' z₁ : ZoneStore} {S : Set Ino} {inode : Ino} {places rest : List (List ℕ)} {p q : List ℕ} {b zone : ℕ}

theorem way_valid {indexes : List ℕ} (hv : Valid (indexes.reverse ++ p)) (hp : p ≠ []) :
    ∀ q ∈ way p indexes, Valid q := by
  induction indexes generalizing p with
  | nil =>
    intro q hq
    rw [way, List.mem_singleton] at hq
    rwa [hq]
  | cons index indexes ih =>
    have hfull : (index :: indexes).reverse ++ p = indexes.reverse ++ (index :: p) := by simp
    intro q hq
    rcases List.mem_cons.mp hq with rfl | hq
    · exact hv.of_append hp
    · rw [hfull] at hv
      exact ih hv (List.cons_ne_nil _ _) q hq

theorem way_append_valid {indexes : List ℕ} (hv : Valid (indexes.reverse ++ p)) (hp : p ≠ [])
    (hrest : ∀ q ∈ rest, Valid q) : ∀ q ∈ way p indexes ++ rest, Valid q := by
  intro q hq
  rcases List.mem_append.mp hq with hq | hq
  · exact way_valid hv hp q hq
  · exact hrest q hq

/-! ### Missing places -/

theorem missing_there (hne : z.zoneAt inode p ≠ 0) : z.missing inode (p :: places) = z.missing inode places :=
  if_neg hne

theorem given_there (hne : z.zoneAt inode p ≠ 0) :
    z.Given inode (p :: places) q zone ↔ z.Given inode places q zone := by
  unfold Given
  rw [missing_there hne]

theorem missing_congr (h : ∀ q ∈ places, z'.zoneAt inode q = z.zoneAt inode q) :
    z'.missing inode places = z.missing inode places := by
  induction places with
  | nil => rfl
  | cons p places ih =>
    rw [missing, missing, h p List.mem_cons_self, ih fun q hq => h q (List.mem_cons_of_mem _ hq)]

theorem mem_missing (h : q ∈ z.missing inode places) : z.zoneAt inode q = 0 ∧ q ∈ places := by
  induction places with
  | nil => cases h
  | cons p places ih =>
    rw [missing] at h
    split_ifs at h with hzero
    · rcases List.mem_cons.mp h with rfl | h
      · exact ⟨hzero, List.mem_cons_self⟩
      · obtain ⟨hq, hmem⟩ := ih (List.mem_filter.mp h).1
        exact ⟨hq, List.mem_cons_of_mem _ hmem⟩
    · obtain ⟨hq, hmem⟩ := ih h
      exact ⟨hq, List.mem_cons_of_mem _ hmem⟩

theorem Given.mem (h : z.Given inode places p zone) : p ∈ z.missing inode places := by
  obtain ⟨n, b, hn, -⟩ := h
  exact List.mem_of_getElem? hn

theorem Taken.free {blocks n : ℕ} {bits : ℕ → Bool} (h : Taken blocks n bits b) : bits b = false := by
  induction n generalizing bits with
  | zero => exact FirstFree.free h
  | succ n ih =>
    obtain ⟨c, -, h⟩ := h
    have hfree := ih h
    by_cases hb : b = c
    · rw [hb, Function.update_self] at hfree
      cases hfree
    · rwa [Function.update_of_ne hb] at hfree

/-- A place is given a zone that is not used. -/
theorem Given.unused (h : z.Given inode places p zone) (hbase : 1 ≤ z.firstdatazone inode.dev) :
    ¬ z.Used inode.dev zone := by
  obtain ⟨n, b, -, hb, rfl⟩ := h
  rintro ⟨-, hbit⟩
  rw [show b + z.firstdatazone inode.dev - 1 + 1 - z.firstdatazone inode.dev = b by omega, hb.free] at hbit
  cases hbit

/-- The first place is given the first free zone. -/
theorem given_head (hz : z.zoneAt inode p = 0) : z.Given inode (p :: places) p zone ↔
    ∃ b, FirstFree (z.zmap inode.dev) (z.zmapBlocks inode.dev) b ∧ zone = b + z.firstdatazone inode.dev - 1 := by
  unfold Given
  rw [missing, if_pos hz]
  constructor
  · rintro ⟨n, b, hn, hb, hzone⟩
    cases n with
    | zero => exact ⟨b, hb, hzone⟩
    | succ n =>
      rw [List.getElem?_cons_succ] at hn
      have hmem := List.mem_of_getElem? hn
      simp at hmem
  · rintro ⟨b, hb, hzone⟩
    exact ⟨0, b, rfl, hb, hzone⟩

theorem Enough.room (h : z.Enough inode (p :: places)) (hz : z.zoneAt inode p = 0) : z.Room inode.dev := by
  have hmem : p ∈ z.missing inode (p :: places) := by
    rw [missing, if_pos hz]
    exact List.mem_cons_self
  obtain ⟨zone, hgiven, hlt⟩ := h p hmem
  obtain ⟨b, hfirst, rfl⟩ := (given_head hz).mp hgiven
  exact ⟨b, hfirst, hlt⟩

theorem Clean.head (h : z.Clean inode (p :: places)) (hz : z.zoneAt inode p = 0) (hl : ¬ Leaf p)
    (hfirst : FirstFree (z.zmap inode.dev) (z.zmapBlocks inode.dev) b) : Filling.Blank z inode p b :=
  .inr (h p _ ((given_head hz).mpr ⟨b, hfirst, rfl⟩) hl)

/-! ### Visits -/

/-- After some visits, the places that are left are given the same zones as before. -/
structure Visited (z : ZoneStore) (inode : Ino) (places : List (List ℕ)) (z' : ZoneStore) (rest : List (List ℕ)) :
    Prop where
  missing : ∀ q ∈ z'.missing inode rest, q ∈ z.missing inode places
  given : ∀ q ∈ z'.missing inode rest, ∀ zone, z.Given inode places q zone ↔ z'.Given inode rest q zone
  data : ∀ q zone, z'.Given inode rest q zone → z'.data inode.dev zone = z.data inode.dev zone

namespace Visited

theorem trans {mid : List (List ℕ)} (h : Visited z inode places z₁ mid) (h' : Visited z₁ inode mid z' rest) :
    Visited z inode places z' rest := by
  refine ⟨fun q hq => h.missing q (h'.missing q hq), fun q hq zone => ?_, fun q zone hg => ?_⟩
  · rw [h.given q (h'.missing q hq), h'.given q hq]
  · rw [h'.data q zone hg, h.data q zone ((h'.given q hg.mem zone).mpr hg)]

theorem enough (h : Visited z inode places z' rest) (he : z.Enough inode places) : z'.Enough inode rest := by
  intro q hq
  obtain ⟨zone, hgiven, hlt⟩ := he q (h.missing q hq)
  exact ⟨zone, (h.given q hq zone).mp hgiven, hlt⟩

theorem read_table (h : Visited z inode places z' rest) (hg : z'.Given inode rest q zone) (i : ℕ) :
    z'.read (.table inode.dev zone i) = z.read (.table inode.dev zone i) := by
  rw [read, read, h.data q zone hg]

theorem clean (h : Visited z inode places z' rest) (hc : z.Clean inode places) : z'.Clean inode rest := by
  intro q zone hg hl i hi
  rw [h.read_table hg]
  exact hc q zone ((h.given q hg.mem zone).mpr hg) hl i hi

theorem there (hne : z.zoneAt inode p ≠ 0) : Visited z inode (p :: places) z places := by
  refine ⟨fun q hq => ?_, fun q _ zone => given_there hne, fun _ _ _ => rfl⟩
  rwa [missing_there hne]

end Visited

namespace Filling

theorem there (h : Filling z S inode p b z') : z'.zoneAt inode p ≠ 0 := by
  rw [h.zoneAt_self]
  exact h.number.2.1

theorem read_slot (h : Filling z S inode p b z') : (z'.read (z.slotAt inode p)).toNat = z'.zoneAt inode p := by
  rw [h.zoneAt_self, h.filled.new]

/-- What no table has is not written. -/
theorem data_unused (h : Filling z S inode p b z') (hzone : ¬ z.Used inode.dev zone) :
    z'.data inode.dev zone = z.data inode.dev zone := by
  apply h.filled.data
  intro i he
  match p, h, he with
  | k :: j :: up, h, he =>
    rw [slotAt_cons _ _ _ (List.cons_ne_nil _ _)] at he
    obtain ⟨-, rfl, -⟩ := ZoneSlot.table.inj he
    exact hzone (h.wf.used inode h.mem (j :: up) h.valid.tail h.opened)

variable (h : Filling z S inode p b z') (hblank : Blank z inode p b) (hplaces : ∀ q ∈ places, Valid q)

include h hblank hplaces

theorem missing_eq : z'.missing inode places = (z.missing inode places).filter (· ≠ p) := by
  induction places with
  | nil => rfl
  | cons q places ih =>
    have hrest := ih fun r hr => hplaces r (List.mem_cons_of_mem _ hr)
    have hzone := h.zoneAt_eq hblank h.mem (hplaces q List.mem_cons_self)
    by_cases hq : q = p
    · subst hq
      rw [missing_there h.there, hrest, missing, if_pos h.empty]
      simp
    · rw [if_neg fun he => hq he.2] at hzone
      rw [missing, missing, hzone, hrest]
      split_ifs
      · rw [List.filter_cons_of_pos (by simpa using hq), List.filter_comm]
      · rfl

theorem missing_cons : z.missing inode (p :: places) = p :: z'.missing inode places := by
  rw [missing, if_pos h.empty, h.missing_eq hblank hplaces]

/-- The first visit takes the first free zone, and those that come later the next ones. -/
theorem given_visit (hq : q ≠ p) : z.Given inode (p :: places) q zone ↔ z'.Given inode places q zone := by
  have hbits : z'.zmap inode.dev = Function.update (z.zmap inode.dev) b true := by
    funext c
    rw [h.filled.zmap]
    by_cases hc : c = b <;> simp [hc]
  unfold Given
  rw [h.missing_cons hblank hplaces, h.filled.blocks, h.filled.base, hbits]
  constructor
  · rintro ⟨n, c, hn, hc, hzone⟩
    cases n with
    | zero =>
      rw [List.getElem?_cons_zero, Option.some.injEq] at hn
      exact absurd hn.symm hq
    | succ n =>
      obtain ⟨c', hc', hc⟩ := hc
      rw [firstFree_unique h.filled.first hc'] at hc
      exact ⟨n, c, hn, hc, hzone⟩
  · rintro ⟨n, c, hn, hc, hzone⟩
    exact ⟨n + 1, c, hn, ⟨b, h.filled.first, hc⟩, hzone⟩

theorem visited : Visited z inode (p :: places) z' places := by
  have hne : ∀ q ∈ z'.missing inode places, q ≠ p := by
    rintro q hq rfl
    exact h.there (mem_missing hq).1
  refine ⟨fun q hq => ?_, fun q hq zone => h.given_visit hblank hplaces (hne q hq), fun q zone hg => ?_⟩
  · rw [h.missing_cons hblank hplaces]
    exact List.mem_cons_of_mem _ hq
  · apply h.data_unused
    exact ((h.given_visit hblank hplaces (hne q hg.mem)).mpr hg).unused (h.wf.base inode h.mem).1

/-- If the tables that come after a blank one are clean, then all are. -/
theorem clean_of_rest (hc : z'.Clean inode places) : z.Clean inode (p :: places) := by
  intro q zone hg hl i hi
  by_cases hq : q = p
  · subst hq
    obtain ⟨c, hc, rfl⟩ := (given_head h.empty).mp hg
    rw [firstFree_unique h.filled.first hc]
    exact hblank.resolve_left hl i hi
  · have hg' := (h.given_visit hblank hplaces hq).mp hg
    rw [← (h.visited hblank hplaces).read_table hg']
    exact hc q zone hg' hl i hi

end Filling

end ZoneStore

end Onix
