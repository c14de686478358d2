import Onix.Kernel.Memory

/-! What `memory_map` counts. The slots of a set of live page directories hold page
tables, and each frame is referenced from slots and from page table entries; a
reference that a function has taken and not stored yet, or removed and not yet
given back, is accounted for by `extra`. Each update that the functions of
memory.c are made of has one lemma here. -/

set_option autoImplicit false

namespace Onix
namespace Memory

open Lib Finset

/-- The directory entry at `x`: entry `x.2` of the directory `x.1`. -/
def dentry (m : Memory) (x : ℕ × ℕ) : PageEntry := m.dirs x.1 x.2

/-- The page table entry `t` below the directory entry at `x`. -/
def entryAt (m : Memory) (x : ℕ × ℕ) (t : ℕ) : PageEntry :=
  if (m.dentry x).present then m.tables (m.dentry x).index t else .zero

/-- An entry that maps `p` is one reference to it. -/
def refOf (e : PageEntry) (p : ℕ) : ℕ := if e.present ∧ e.index = p then 1 else 0

def refs (m : Memory) (x : ℕ × ℕ) (p : ℕ) : ℕ :=
  refOf (m.dentry x) p + ∑ t ∈ range 1024, refOf (m.entryAt x t) p

def total (m : Memory) (S : Finset (ℕ × ℕ)) (p : ℕ) : ℕ := ∑ x ∈ S, m.refs x p

def UserFrame (m : Memory) (p : ℕ) : Prop := KERNEL_PAGES ≤ p ∧ p < m.totalPages

/-- `free_pages` counts the frames that are free. -/
def FreeOk (m : Memory) : Prop :=
  m.freePages = ((Ico m.startPage m.totalPages).filter fun p => m.memoryMap p = 0).card

structure Acct (m : Memory) (S : Finset (ℕ × ℕ)) (extra : ℕ → ℕ) : Prop where
  user : ∀ x ∈ S, KERNEL_DIRS ≤ x.2 ∧ x.2 < 1023
  count : ∀ p, KERNEL_PAGES ≤ p → m.memoryMap p = m.total S p + extra p
  table : ∀ x ∈ S, (m.dentry x).present → m.memoryMap (m.dentry x).index = 1 ∧ m.UserFrame (m.dentry x).index
  mapped : ∀ x ∈ S, ∀ t < 1024, (m.entryAt x t).present → m.UserFrame (m.entryAt x t).index
  kernel : ∀ p < KERNEL_PAGES, m.memoryMap p = 1
  kernelDir : ∀ x ∈ S, (m.dirs x.1 0).present ∧ (m.dirs x.1 0).index < KERNEL_PAGES
  free : m.FreeOk
  bounds : m.startPage ≤ KERNEL_PAGES ∧ KERNEL_PAGES ≤ m.totalPages ∧ m.totalPages ≤ 2 ^ 20

/-- An entry that can be written without a fault maps a frame of its own, or a shared one. -/
def Cow (m : Memory) (S : Finset (ℕ × ℕ)) : Prop :=
  ∀ x ∈ S, ∀ t < 1024, (m.entryAt x t).present → (m.entryAt x t).write → (m.entryAt x t).shared = false →
    m.memoryMap (m.entryAt x t).index = 1

/-- One reference, to `p`. -/
def one (p : ℕ) : ℕ → ℕ := fun q => if q = p then 1 else 0

/-! ### Sums that change at one point -/

theorem sum_point {ι : Type} [DecidableEq ι] {S : Finset ι} {f g : ι → ℕ} {x : ι} (hx : x ∈ S)
    (h : ∀ y ∈ S, y ≠ x → g y = f y) : ∑ y ∈ S, g y + f x = ∑ y ∈ S, f y + g x := by
  have hg := add_sum_erase S g hx
  have hf := add_sum_erase S f hx
  have hrest : ∑ y ∈ S.erase x, g y = ∑ y ∈ S.erase x, f y :=
    sum_congr rfl fun y hy => h y (mem_of_mem_erase hy) (ne_of_mem_erase hy)
  omega

theorem sum_range_point {n t : ℕ} {f g : ℕ → ℕ} (ht : t < n) (h : ∀ u, u ≠ t → g u = f u) :
    ∑ u ∈ range n, g u + f t = ∑ u ∈ range n, f u + g t :=
  sum_point (mem_range.mpr ht) fun u _ hu => h u hu

theorem le_sum_pair {ι : Type} [DecidableEq ι] {S : Finset ι} {f : ι → ℕ} {x y : ι} (hx : x ∈ S)
    (hy : y ∈ S) (hne : x ≠ y) : f x + f y ≤ ∑ z ∈ S, f z := by
  rw [← add_sum_erase S f hx]
  exact Nat.add_le_add_left (single_le_sum (fun _ _ => Nat.zero_le _) (mem_erase.mpr ⟨hne.symm, hy⟩)) _

/-! ### Consequences of the account -/

variable {m m' : Memory} {S : Finset (ℕ × ℕ)} {extra extra' : ℕ → ℕ}

@[simp] theorem refOf_zero (p : ℕ) : refOf .zero p = 0 := by simp [refOf, PageEntry.zero]

theorem refOf_self {e : PageEntry} (h : e.present) : refOf e e.index = 1 := by simp [refOf, h]

theorem refOf_eq_zero {e : PageEntry} {p : ℕ} (h : e.present → e.index ≠ p) : refOf e p = 0 := by
  unfold refOf
  rw [if_neg]
  rintro ⟨h1, h2⟩
  exact h h1 h2

theorem entryAt_of_present {x : ℕ × ℕ} (h : (m.dentry x).present) (t : ℕ) :
    m.entryAt x t = m.tables (m.dentry x).index t := by simp [entryAt, h]

theorem entryAt_congr (hd : m'.dirs = m.dirs) (ht : m'.tables = m.tables) (x : ℕ × ℕ) (t : ℕ) :
    m'.entryAt x t = m.entryAt x t := by
  unfold entryAt dentry
  rw [hd, ht]

theorem refs_entry_le {x : ℕ × ℕ} {t : ℕ} (ht : t < 1024) (p : ℕ) :
    refOf (m.dentry x) p + refOf (m.entryAt x t) p ≤ m.refs x p :=
  Nat.add_le_add_left
    (single_le_sum (f := fun t => refOf (m.entryAt x t) p) (fun _ _ => Nat.zero_le _) (mem_range.mpr ht)) _

theorem refs_le_total {x : ℕ × ℕ} (hx : x ∈ S) (p : ℕ) : m.refs x p ≤ m.total S p :=
  single_le_sum (f := fun x => m.refs x p) (fun _ _ => Nat.zero_le _) hx

/-- Two different slots do not use one page table. -/
theorem Acct.apart (h : Acct m S extra) {x y : ℕ × ℕ} (hx : x ∈ S) (hy : y ∈ S)
    (hpx : (m.dentry x).present) (hpy : (m.dentry y).present)
    (he : (m.dentry x).index = (m.dentry y).index) : x = y := by
  by_contra hne
  obtain ⟨h1, hk, -⟩ := h.table x hx hpx
  have hpair := le_sum_pair (f := fun z => m.refs z (m.dentry x).index) hx hy hne
  have hrx : 1 ≤ m.refs x (m.dentry x).index := by
    unfold refs
    rw [refOf_self hpx]
    omega
  have hry : 1 ≤ m.refs y (m.dentry x).index := by
    unfold refs
    rw [he, refOf_self hpy]
    omega
  have := h.count _ hk
  unfold total at this
  omega

/-- A frame that a page table entry maps is not used as a page table. -/
theorem Acct.mapped_ne (h : Acct m S extra) {x y : ℕ × ℕ} {t : ℕ} (hx : x ∈ S) (hy : y ∈ S) (ht : t < 1024)
    (hpx : (m.entryAt x t).present) (hpy : (m.dentry y).present) :
    (m.entryAt x t).index ≠ (m.dentry y).index := by
  intro he
  obtain ⟨h1, hk, -⟩ := h.table y hy hpy
  have hc := h.count _ hk
  have hry := refs_entry_le (m := m) (x := y) ht (m.dentry y).index
  have hrx := refs_entry_le (m := m) (x := x) ht (m.dentry y).index
  rw [refOf_self hpy] at hry
  rw [← he, refOf_self hpx, he] at hrx
  by_cases hxy : x = y
  · subst hxy
    rw [refOf_self hpy] at hrx
    have := refs_le_total (m := m) hx (m.dentry x).index
    omega
  · have := le_sum_pair (f := fun z => m.refs z (m.dentry y).index) hx hy hxy
    unfold total at hc
    omega

theorem Acct.mapped_pos (h : Acct m S extra) {x : ℕ × ℕ} {t : ℕ} (hx : x ∈ S) (ht : t < 1024)
    (hp : (m.entryAt x t).present) : 1 ≤ m.memoryMap (m.entryAt x t).index := by
  have hc := h.count _ (h.mapped x hx t ht hp).1
  have h1 := refs_entry_le (m := m) (x := x) ht (m.entryAt x t).index
  rw [refOf_self hp] at h1
  have := refs_le_total (m := m) hx (m.entryAt x t).index
  omega

/-- Two different entries that map `p` are two references to it. -/
theorem two_refs {x y : ℕ × ℕ} {t u : ℕ} (hx : x ∈ S) (hy : y ∈ S) (ht : t < 1024) (hu : u < 1024)
    (hne : ¬ (x = y ∧ t = u)) {p : ℕ} (h1 : refOf (m.entryAt x t) p = 1) (h2 : refOf (m.entryAt y u) p = 1) :
    2 ≤ m.total S p := by
  by_cases hxy : x = y
  · subst hxy
    have htu : t ≠ u := fun he => hne ⟨rfl, he⟩
    have := le_sum_pair (f := fun t => refOf (m.entryAt x t) p) (mem_range.mpr ht) (mem_range.mpr hu) htu
    have hr := refs_le_total (m := m) hx p
    unfold refs at hr
    omega
  · have h3 := refs_entry_le (m := m) (x := x) ht p
    have h4 := refs_entry_le (m := m) (x := y) hu p
    have := le_sum_pair (f := fun z => m.refs z p) hx hy hxy
    unfold total
    omega

/-! ### Taking and giving back a frame -/

theorem FreeOk.setCount (h : m.FreeOk) {p n : ℕ} (h1 : m.memoryMap p ≠ 0) (hn : n ≠ 0) : (m.setCount p n).FreeOk := by
  unfold FreeOk at *
  refine h.trans (congrArg card (filter_congr fun q _ => ?_))
  simp only [Memory.setCount, Function.update_apply]
  split_ifs with hq
  · rw [hq]
    exact iff_of_false h1 hn
  · exact Iff.rfl

theorem FreeOk.take (h : m.FreeOk) {p : ℕ} (hp : p ∈ Ico m.startPage m.totalPages)
    (h0 : m.memoryMap p = 0) : FreeOk { m.setCount p 1 with freePages := m.freePages - 1 } := by
  unfold FreeOk at *
  have hset : ((Ico m.startPage m.totalPages).filter fun q => Function.update m.memoryMap p 1 q = 0) =
      ((Ico m.startPage m.totalPages).filter fun q => m.memoryMap q = 0).erase p := by
    ext q
    simp only [mem_filter, mem_erase, Function.update_apply]
    by_cases hq : q = p <;> simp [hq]
  change m.freePages - 1 = _
  rw [h]
  exact (card_erase_of_mem (mem_filter.mpr ⟨hp, h0⟩)).symm.trans (congrArg card hset.symm)

theorem FreeOk.drop (h : m.FreeOk) {p : ℕ} (hp : p ∈ Ico m.startPage m.totalPages)
    (h1 : m.memoryMap p ≠ 0) : FreeOk { m.setCount p 0 with freePages := m.freePages + 1 } := by
  unfold FreeOk at *
  have hset : ((Ico m.startPage m.totalPages).filter fun q => Function.update m.memoryMap p 0 q = 0) =
      insert p ((Ico m.startPage m.totalPages).filter fun q => m.memoryMap q = 0) := by
    ext q
    simp only [mem_filter, mem_insert, Function.update_apply]
    by_cases hq : q = p
    · simp only [hq, if_true, and_true, true_or, iff_true]
      exact hp
    · simp [hq]
  change m.freePages + 1 = _
  rw [h]
  have hnot : p ∉ ((Ico m.startPage m.totalPages).filter fun q => m.memoryMap q = 0) := by
    simp [h1]
  exact (card_insert_of_notMem hnot).symm.trans (congrArg card hset.symm)

/-- A state with the same entries, when the counts fit the references held. -/
theorem Acct.recount (h : Acct m S extra) (hdirs : ∀ x ∈ S, m'.dentry x = m.dentry x)
    (hzero : ∀ x ∈ S, m'.dirs x.1 0 = m.dirs x.1 0)
    (hentry : ∀ x ∈ S, ∀ t, m'.entryAt x t = m.entryAt x t)
    (hcount : ∀ p, KERNEL_PAGES ≤ p → m'.memoryMap p + extra p = m.memoryMap p + extra' p)
    (htable : ∀ x ∈ S, (m.dentry x).present → m'.memoryMap (m.dentry x).index = 1)
    (hkernel : ∀ p < KERNEL_PAGES, m'.memoryMap p = 1) (hfree : m'.FreeOk)
    (hstart : m'.startPage = m.startPage) (htotal : m'.totalPages = m.totalPages) :
    Acct m' S extra' := by
  have hrefs : ∀ x ∈ S, ∀ p, m'.refs x p = m.refs x p := by
    intro x hx p
    unfold refs
    rw [hdirs x hx, sum_congr rfl fun t _ => by rw [hentry x hx t]]
  refine ⟨h.user, ?_, ?_, ?_, hkernel, ?_, hfree, ?_⟩
  · intro p hp
    have hsum : m'.total S p = m.total S p := sum_congr rfl fun x hx => hrefs x hx p
    have := hcount p hp
    have := h.count p hp
    omega
  · intro x hx hpres
    rw [hdirs x hx] at hpres ⊢
    refine ⟨htable x hx hpres, ?_⟩
    unfold UserFrame
    rw [htotal]
    exact (h.table x hx hpres).2
  · intro x hx t ht hp
    rw [hentry x hx] at hp ⊢
    unfold UserFrame
    rw [htotal]
    exact h.mapped x hx t ht hp
  · intro x hx
    rw [hzero x hx]
    exact h.kernelDir x hx
  · rw [hstart, htotal]
    exact h.bounds

theorem Cow.recount (hc : Cow m S) (hentry : ∀ x ∈ S, ∀ t, m'.entryAt x t = m.entryAt x t)
    (hcount : ∀ x ∈ S, ∀ t < 1024, (m.entryAt x t).present → m.memoryMap (m.entryAt x t).index = 1 →
      m'.memoryMap (m.entryAt x t).index = 1) : Cow m' S := by
  intro x hx t ht hp hw hs
  rw [hentry x hx] at hp hw hs ⊢
  exact hcount x hx t ht hp (hc x hx t ht hp hw hs)

/-- The state after `get_page` took frame `q`. -/
def taken (m : Memory) (q : ℕ) : Memory := { m.setCount q 1 with freePages := m.freePages - 1 }

theorem getPage_spec (h : Acct m S extra) {bad : Halt → Prop} (hb : ¬ bad (.panic "Out of Memory!!!")) :
    Meets bad m.getPage fun r => r.2 = m.taken r.1 ∧ m.memoryMap r.1 = 0 ∧ m.UserFrame r.1 ∧
      m.total S r.1 = 0 ∧ extra r.1 = 0 ∧ Acct r.2 S (extra + one r.1) ∧ (Cow m S → Cow r.2 S) := by
  unfold getPage
  cases hf : (List.range' m.startPage (m.totalPages - m.startPage)).find? fun i => m.memoryMap i = 0 with
  | none => exact meets_error.mpr hb
  | some q =>
    have h0 : m.memoryMap q = 0 := by simpa using List.find?_some hf
    have hm := List.mem_of_find?_eq_some hf
    rw [List.mem_range'_1] at hm
    have hq : KERNEL_PAGES ≤ q := by
      by_contra hlt
      have := h.kernel q (by omega)
      omega
    have hc := h.count q hq
    have htotal : m.total S q = 0 := by omega
    have hextra : extra q = 0 := by omega
    refine meets_ok.mpr ⟨rfl, h0, ⟨hq, by omega⟩, htotal, hextra, ?_, ?_⟩
    · refine h.recount (fun _ _ => rfl) (fun _ _ => rfl) (fun _ _ _ => rfl) ?_ ?_ ?_ ?_ rfl rfl
      · intro p hp
        simp only [setCount, one, Pi.add_apply, Function.update_apply]
        split_ifs with hpq
        · rw [hpq, h0]
          omega
        · omega
      · intro x hx hp
        have h1 := (h.table x hx hp).1
        have hne : (m.dentry x).index ≠ q := fun he => by rw [he] at h1; omega
        simp only [setCount, Function.update_of_ne hne]
        exact h1
      · intro p hp
        simp only [setCount, Function.update_of_ne (show p ≠ q by omega)]
        exact h.kernel p hp
      · exact h.free.take (mem_Ico.mpr ⟨hm.1, by omega⟩) h0
    · intro hcow
      refine hcow.recount (fun _ _ _ => rfl) fun x hx t ht hp h1 => ?_
      have hne : (m.entryAt x t).index ≠ q := fun he => by rw [he] at h1; omega
      simp only [setCount, Function.update_of_ne hne]
      exact h1

/-- Frame 0 is never free, so `free_pages` stays below the number of pages. -/
theorem FreeOk.lt_total (h : m.FreeOk) (h0 : 1 ≤ m.memoryMap 0) (ht : 0 < m.totalPages) :
    m.freePages < m.totalPages := by
  have hsub : ((Ico m.startPage m.totalPages).filter fun q => m.memoryMap q = 0) ⊆
      (range m.totalPages).erase 0 := by
    intro q hq
    obtain ⟨hq, hz⟩ := mem_filter.mp hq
    refine mem_erase.mpr ⟨?_, mem_range.mpr (mem_Ico.mp hq).2⟩
    rintro rfl
    omega
  have := card_le_card hsub
  rw [← h, card_erase_of_mem (mem_range.mpr ht), card_range] at this
  omega

/-- The state after `put_page` of frame `p`. -/
def dropped (m : Memory) (p : ℕ) : Memory :=
  if m.memoryMap p - 1 = 0 then { m.setCount p 0 with freePages := m.freePages + 1 }
  else m.setCount p (m.memoryMap p - 1)

theorem dropped_fields (m : Memory) (p : ℕ) :
    (m.dropped p).memoryMap = Function.update m.memoryMap p (m.memoryMap p - 1) ∧
      (m.dropped p).dirs = m.dirs ∧ (m.dropped p).tables = m.tables ∧ (m.dropped p).bytes = m.bytes ∧
      (m.dropped p).kernelMap = m.kernelMap ∧ (m.dropped p).startPage = m.startPage ∧
      (m.dropped p).totalPages = m.totalPages := by
  unfold dropped
  split_ifs with h
  · exact ⟨by rw [h]; rfl, rfl, rfl, rfl, rfl, rfl, rfl⟩
  · exact ⟨rfl, rfl, rfl, rfl, rfl, rfl, rfl⟩

theorem Acct.drop {p : ℕ} (h : Acct m S (extra + one p)) (hp : m.UserFrame p) :
    Acct (m.dropped p) S extra ∧ (Cow m S → Cow (m.dropped p) S) := by
  obtain ⟨hk, hlt⟩ := hp
  obtain ⟨hmap, hdirs, htables, -, -, hstart, htot⟩ := m.dropped_fields p
  have hc := h.count p hk
  simp only [Pi.add_apply, one, if_true] at hc
  have hmem : p ∈ Ico m.startPage m.totalPages := mem_Ico.mpr ⟨le_trans h.bounds.1 hk, hlt⟩
  have hself : (m.dropped p).memoryMap p = m.memoryMap p - 1 := by rw [hmap, Function.update_self]
  have hother : ∀ q, q ≠ p → (m.dropped p).memoryMap q = m.memoryMap q := fun q hq => by
    rw [hmap, Function.update_of_ne hq]
  have hfree : (m.dropped p).FreeOk := by
    unfold dropped
    split_ifs with h0
    · exact h.free.drop hmem (by omega)
    · exact h.free.setCount (by omega) h0
  refine ⟨?_, fun hcow => hcow.recount (fun x _ => entryAt_congr hdirs htables x) ?_⟩
  · refine h.recount (fun x _ => by simp only [dentry, hdirs]) (fun x _ => by rw [hdirs])
      (fun x _ => entryAt_congr hdirs htables x) ?_ ?_ ?_ hfree hstart htot
    · intro q _
      simp only [Pi.add_apply, one]
      split_ifs with hq
      · rw [hq, hself]
        omega
      · rw [hother q hq]
        rfl
    · intro x hx hpres
      obtain ⟨h1, -, -⟩ := h.table x hx hpres
      have hne : (m.dentry x).index ≠ p := by
        -- `p` has a reference outside the tables besides the one of the directory
        rintro he
        have hr := refs_le_total (m := m) hx p
        unfold refs at hr
        rw [← he, refOf_self hpres] at hr
        rw [he] at hr h1
        omega
      rw [hother _ hne]
      exact h1
    · intro q hq
      rw [hother q (by omega)]
      exact h.kernel q hq
  · intro x hx t ht hpres h1
    have hne : (m.entryAt x t).index ≠ p := by
      rintro he
      have hr := refs_entry_le (m := m) (x := x) ht p
      rw [← he, refOf_self hpres] at hr
      have := refs_le_total (m := m) hx (m.entryAt x t).index
      rw [he] at h1 hr this
      omega
    rw [hother _ hne]
    exact h1

/-- Giving back a reference that is in no table; the checks of `put_page` hold. -/
theorem putPage_eq {p : ℕ} (h : Acct m S (extra + one p)) (hp : m.UserFrame p) :
    m.putPage p = .ok (m.dropped p) := by
  obtain ⟨hacct, -⟩ := h.drop hp
  have hc := h.count p hp.1
  simp only [Pi.add_apply, one, if_true] at hc
  have hge : m.startPage ≤ p := le_trans h.bounds.1 hp.1
  have hlt := hp.2
  have hpos : 0 < (m.dropped p).totalPages := lt_of_lt_of_le (by decide) hacct.bounds.2.1
  have hbound := hacct.free.lt_total (hacct.kernel 0 (by decide)).ge hpos
  have hge1 : 1 ≤ m.memoryMap p := by omega
  unfold dropped at hbound ⊢
  by_cases h0 : m.memoryMap p - 1 = 0
  · simp only [h0, if_true] at hbound ⊢
    simp [putPage, hge, hlt, hge1, h0, setCount] at hbound ⊢
    simp [hbound]
  · simp only [h0, if_false] at hbound ⊢
    simp [putPage, hge, hlt, hge1, h0, setCount] at hbound ⊢
    simp [hbound]

/-! ### Writing one page table entry -/

theorem Acct.entryAt_setEntry (h : Acct m S extra) {x : ℕ × ℕ} {t : ℕ} {e : PageEntry} (hx : x ∈ S)
    (hp : (m.dentry x).present) (hdirs : m'.dirs = m.dirs)
    (htables : m'.tables = (m.setEntry (m.dentry x).index t e).tables) {y : ℕ × ℕ} (hy : y ∈ S) (u : ℕ) :
    m'.entryAt y u = if y = x ∧ u = t then e else m.entryAt y u := by
  have hd : m'.dentry y = m.dentry y := by unfold dentry; rw [hdirs]
  unfold entryAt
  rw [hd, htables]
  simp only [setEntry]
  by_cases hpy : (m.dentry y).present
  · simp only [hpy, if_true]
    by_cases hyx : y = x
    · subst hyx
      rw [Function.update_self]
      by_cases hut : u = t
      · simp [hut]
      · simp [hut]
    · have hne : (m.dentry y).index ≠ (m.dentry x).index := fun he => hyx (h.apart hy hx hpy hp he)
      rw [Function.update_of_ne hne, if_neg fun hc => hyx hc.1]
  · have hyx : y ≠ x := by rintro rfl; exact hpy hp
    simp [hpy, hyx]

theorem total_point {x : ℕ × ℕ} {t : ℕ} {e : PageEntry} (hx : x ∈ S) (ht : t < 1024)
    (hdirs : m'.dirs = m.dirs)
    (hentry : ∀ y ∈ S, ∀ u, m'.entryAt y u = if y = x ∧ u = t then e else m.entryAt y u) (p : ℕ) :
    m'.total S p + refOf (m.entryAt x t) p = m.total S p + refOf e p := by
  have hd : ∀ y, m'.dentry y = m.dentry y := fun y => by unfold dentry; rw [hdirs]
  have hsum := sum_range_point (f := fun u => refOf (m.entryAt x u) p)
    (g := fun u => refOf (m'.entryAt x u) p) ht fun u hu => by
      simp only [hentry x hx, hu, and_false, if_false]
  simp only [hentry x hx t, and_self, if_true] at hsum
  have htot := sum_point (f := fun y => m.refs y p) (g := fun y => m'.refs y p) hx fun y hy hyx => by
    have hsame : ∀ u, m'.entryAt y u = m.entryAt y u := fun u => by
      rw [hentry y hy, if_neg fun hc => hyx hc.1]
    simp only [refs, hd, hsame]
  have hrefs : m.refs x p = refOf (m.dentry x) p + ∑ u ∈ range 1024, refOf (m.entryAt x u) p := rfl
  have hrefs' : m'.refs x p = refOf (m.dentry x) p + ∑ u ∈ range 1024, refOf (m'.entryAt x u) p := by
    rw [← hd]
    rfl
  unfold total
  omega

/-- How a function may write the entry `t` below `x`, and move counts and references with it. -/
structure Writes (m m' : Memory) (S : Finset (ℕ × ℕ)) (extra extra' : ℕ → ℕ) (x : ℕ × ℕ) (t : ℕ)
    (e : PageEntry) : Prop where
  slot : x ∈ S
  present : (m.dentry x).present
  bound : t < 1024
  dirs : m'.dirs = m.dirs
  tables : m'.tables = (m.setEntry (m.dentry x).index t e).tables
  start : m'.startPage = m.startPage
  total : m'.totalPages = m.totalPages
  free : m'.FreeOk
  /-- The new entry maps what the old one mapped, or a frame that no table mentions. -/
  fresh : e.present → m.UserFrame e.index ∧
    (m.total S e.index = 0 ∨ (m.entryAt x t).present ∧ e.index = (m.entryAt x t).index)
  held : ∀ p, refOf (m.entryAt x t) p = 0 → refOf e p = 0 → extra' p = extra p
  count : ∀ p, KERNEL_PAGES ≤ p →
    m'.memoryMap p + refOf (m.entryAt x t) p + extra p = m.memoryMap p + refOf e p + extra' p
  kernel : ∀ p < KERNEL_PAGES, m'.memoryMap p = 1

theorem Writes.entryAt {x : ℕ × ℕ} {t : ℕ} {e : PageEntry} (h : Acct m S extra)
    (w : Writes m m' S extra extra' x t e) {y : ℕ × ℕ} (hy : y ∈ S) (u : ℕ) :
    m'.entryAt y u = if y = x ∧ u = t then e else m.entryAt y u :=
  h.entryAt_setEntry w.slot w.present w.dirs w.tables hy u

theorem Writes.acct {x : ℕ × ℕ} {t : ℕ} {e : PageEntry} (h : Acct m S extra)
    (w : Writes m m' S extra extra' x t e) : Acct m' S extra' := by
  have hentry : ∀ y ∈ S, ∀ u, m'.entryAt y u = if y = x ∧ u = t then e else m.entryAt y u :=
    fun y hy u => w.entryAt h hy u
  have hd : ∀ y, m'.dentry y = m.dentry y := fun y => by unfold dentry; rw [w.dirs]
  have huser : ∀ p, m'.UserFrame p ↔ m.UserFrame p := fun p => by unfold UserFrame; rw [w.total]
  refine ⟨h.user, ?_, ?_, ?_, w.kernel, ?_, w.free, ?_⟩
  · intro p hp
    have h1 := total_point w.slot w.bound w.dirs hentry p
    have h2 := w.count p hp
    have h3 := h.count p hp
    omega
  · intro y hy hpy
    rw [hd] at hpy ⊢
    obtain ⟨h1, hu⟩ := h.table y hy hpy
    refine ⟨?_, (huser _).mpr hu⟩
    have hr := refs_le_total (m := m) hy (m.dentry y).index
    unfold refs at hr
    rw [refOf_self hpy] at hr
    have hold : refOf (m.entryAt x t) (m.dentry y).index = 0 :=
      refOf_eq_zero fun he => h.mapped_ne w.slot hy w.bound he hpy
    have hnew : refOf e (m.dentry y).index = 0 := by
      refine refOf_eq_zero fun he heq => ?_
      rcases (w.fresh he).2 with h0 | ⟨hop, hoi⟩
      · rw [heq] at h0
        omega
      · exact h.mapped_ne w.slot hy w.bound hop hpy (hoi ▸ heq)
    have h2 := w.count _ hu.1
    have h3 := w.held _ hold hnew
    omega
  · intro y hy u hu hpy
    rw [hentry y hy] at hpy ⊢
    split_ifs at hpy ⊢ with hc
    · exact (huser _).mpr (w.fresh hpy).1
    · exact (huser _).mpr (h.mapped y hy u hu hpy)
  · intro y hy
    rw [w.dirs]
    exact h.kernelDir y hy
  · rw [w.start, w.total]
    exact h.bounds

theorem Writes.cow {x : ℕ × ℕ} {t : ℕ} {e : PageEntry} (h : Acct m S extra)
    (w : Writes m m' S extra extra' x t e) (hc : Cow m S)
    (hnew : e.present → e.write → e.shared = false → m'.memoryMap e.index = 1) : Cow m' S := by
  intro y hy u hu hpy hwy hsy
  rw [w.entryAt h hy] at hpy hwy hsy ⊢
  split_ifs at hpy hwy hsy ⊢ with hyx
  · exact hnew hpy hwy hsy
  · -- its frame is mapped nowhere else, so the write does not touch its count
    set p := (m.entryAt y u).index with hp
    have h1 : m.memoryMap p = 1 := hc y hy u hu hpy hwy hsy
    have hk := (h.mapped y hy u hu hpy).1
    have hself : refOf (m.entryAt y u) p = 1 := refOf_self hpy
    have hcount := h.count p hk
    have hle := refs_entry_le (m := m) (x := y) hu p
    have hle' := refs_le_total (m := m) hy p
    have hone : refOf (m.entryAt x t) p = 0 := by
      by_contra h0
      have hx1 : refOf (m.entryAt x t) p = 1 := by
        unfold refOf at h0 ⊢
        split_ifs at h0 ⊢ <;> simp_all
      have := two_refs hy w.slot hu w.bound hyx hself hx1
      omega
    have hnone : refOf e p = 0 := by
      refine refOf_eq_zero fun he heq => ?_
      rcases (w.fresh he).2 with h0 | ⟨hop, hoi⟩
      · rw [heq] at h0
        omega
      · rw [← heq, hoi, refOf_self hop] at hone
        omega
    have h2 := w.count p hk
    have h3 := w.held p hone hnone
    omega

/-! ### Page tables -/

theorem dirs_setDentry (m : Memory) (pde didx d i : ℕ) (e : PageEntry) :
    (m.setDentry pde didx e).dirs d i = if d = pde ∧ i = didx then e else m.dirs d i := by
  simp only [setDentry, Function.update_apply]
  by_cases hd : d = pde
  · subst hd
    simp only [if_true, Function.update_apply, true_and]
  · simp [hd]

/-- A new page table, all zero, in frame `q` for the directory entry at `x`. -/
def newTable (m : Memory) (x : ℕ × ℕ) (q : ℕ) : Memory :=
  { m.setDentry x.1 x.2 (entryInit q) with tables := Function.update m.tables q fun _ => .zero }

theorem newTable_dentry (m : Memory) (x y : ℕ × ℕ) (q : ℕ) :
    (m.newTable x q).dentry y = if y = x then entryInit q else m.dentry y := by
  change (m.setDentry x.1 x.2 (entryInit q)).dirs y.1 y.2 = _
  rw [dirs_setDentry]
  exact if_congr Prod.ext_iff.symm rfl rfl

/-- A frame no slot mentions becomes a page table: no entry changes. -/
theorem entryAt_newTable {x : ℕ × ℕ} {q : ℕ} (hp : (m.dentry x).present = false) (hq : m.total S q = 0)
    {y : ℕ × ℕ} (hy : y ∈ S) (u : ℕ) : (m.newTable x q).entryAt y u = m.entryAt y u := by
  unfold entryAt
  rw [newTable_dentry]
  by_cases hyx : y = x
  · rw [if_pos hyx, hyx, hp]
    simp [newTable, entryInit]
  · rw [if_neg hyx]
    split_ifs with hpy
    · have hne : (m.dentry y).index ≠ q := by
        intro he
        have hr := refs_le_total (m := m) hy q
        unfold refs at hr
        rw [← he, refOf_self hpy] at hr
        rw [← he] at hq
        omega
      simp only [newTable, Function.update_of_ne hne]
    · rfl

theorem Acct.newTable {x : ℕ × ℕ} {q : ℕ} (h : Acct m S (extra + one q)) (hx : x ∈ S)
    (hp : (m.dentry x).present = false) (hq : m.UserFrame q) (h1 : m.memoryMap q = 1)
    (h0 : m.total S q = 0) : Acct (m.newTable x q) S extra := by
  have hd := fun y => newTable_dentry m x y q
  have hentry : ∀ y ∈ S, ∀ u, (m.newTable x q).entryAt y u = m.entryAt y u :=
    fun y hy u => entryAt_newTable hp h0 hy u
  refine ⟨h.user, ?_, ?_, ?_, h.kernel, ?_, h.free, h.bounds⟩
  · intro p hpk
    have hpt := sum_point (f := fun y => m.refs y p) (g := fun y => (m.newTable x q).refs y p) hx
      fun y hy hyx => by
        have hsame : ∀ u, (m.newTable x q).entryAt y u = m.entryAt y u := hentry y hy
        simp only [refs, hd, hyx, if_false, hsame]
    have hr : m.refs x p = ∑ u ∈ range 1024, refOf (m.entryAt x u) p := by
      unfold refs
      rw [refOf_eq_zero (e := m.dentry x) fun hc => (by rw [hp] at hc; cases hc), zero_add]
    have hr' : (m.newTable x q).refs x p = one q p + ∑ u ∈ range 1024, refOf (m.entryAt x u) p := by
      have hsame : ∀ u, (m.newTable x q).entryAt x u = m.entryAt x u := hentry x hx
      simp only [refs, hd, if_true, hsame]
      simp only [refOf, entryInit, one, true_and, eq_comm]
    have hc := h.count p hpk
    simp only [Pi.add_apply] at hc
    change m.memoryMap p = _
    unfold total at hc ⊢
    omega
  · intro y hy hpy
    rw [hd] at hpy ⊢
    split_ifs at hpy ⊢ with hyx
    · exact ⟨h1, hq⟩
    · exact h.table y hy hpy
  · intro y hy u hu hpy
    rw [hentry y hy] at hpy ⊢
    exact h.mapped y hy u hu hpy
  · intro y hy
    have hne : ¬ (y.1 = x.1 ∧ 0 = x.2) := fun hc => by
      have := (h.user x hx).1
      rw [← hc.2] at this
      simp [KERNEL_DIRS] at this
    have hz : (m.newTable x q).dirs y.1 0 = m.dirs y.1 0 := (dirs_setDentry ..).trans (if_neg hne)
    rw [hz]
    exact h.kernelDir y hy

theorem total_congr (hdirs : ∀ x ∈ S, m'.dentry x = m.dentry x)
    (hentry : ∀ x ∈ S, ∀ t, m'.entryAt x t = m.entryAt x t) (p : ℕ) : m'.total S p = m.total S p := by
  refine sum_congr rfl fun x hx => ?_
  unfold refs
  rw [hdirs x hx, sum_congr rfl fun t _ => by rw [hentry x hx t]]

/-- A slot outside `S` is counted from now on; the references it holds were held before. -/
theorem Acct.insert {c : ℕ × ℕ} (h : Acct m S (extra + m.refs c)) (hc : c ∉ S)
    (huser : KERNEL_DIRS ≤ c.2 ∧ c.2 < 1023)
    (hkernel : (m.dirs c.1 0).present ∧ (m.dirs c.1 0).index < KERNEL_PAGES)
    (htable : (m.dentry c).present → m.memoryMap (m.dentry c).index = 1 ∧ m.UserFrame (m.dentry c).index)
    (hmapped : ∀ t < 1024, (m.entryAt c t).present → m.UserFrame (m.entryAt c t).index) :
    Acct m (insert c S) extra := by
  have each : ∀ {P : ℕ × ℕ → Prop}, P c → (∀ x ∈ S, P x) → ∀ x ∈ Insert.insert c S, P x := by
    intro P h1 h2 x hx
    rcases mem_insert.mp hx with rfl | hx
    · exact h1
    · exact h2 x hx
  refine ⟨each huser h.user, ?_, each htable h.table, each hmapped h.mapped, h.kernel,
    each hkernel h.kernelDir, h.free, h.bounds⟩
  intro p hp
  have h1 := h.count p hp
  have h2 : m.total (Insert.insert c S) p = m.refs c p + m.total S p := sum_insert hc
  simp only [Pi.add_apply] at h1
  omega

/-- The references of a slot are kept, the slot is no longer counted. -/
theorem Acct.erase {x : ℕ × ℕ} (h : Acct m S extra) (hx : x ∈ S) : Acct m (S.erase x) (extra + m.refs x) := by
  refine ⟨fun y hy => h.user y (mem_of_mem_erase hy), ?_, fun y hy => h.table y (mem_of_mem_erase hy),
    fun y hy => h.mapped y (mem_of_mem_erase hy), h.kernel, fun y hy => h.kernelDir y (mem_of_mem_erase hy),
    h.free, h.bounds⟩
  intro p hp
  have h1 := h.count p hp
  have h2 : m.refs x p + m.total (S.erase x) p = m.total S p := add_sum_erase S (fun x => m.refs x p) hx
  simp only [Pi.add_apply]
  omega

theorem Cow.mono {S' : Finset (ℕ × ℕ)} (h : Cow m S) (hs : S' ⊆ S) : Cow m S' :=
  fun x hx => h x (hs hx)

end Memory
end Onix
