import Onix.Kernel.PageAccount

/-! The functions of memory.c keep the account. Each has one lemma: what it leaves
of the entries and counts, and that it halts for no reason that has to do with
the account. -/

set_option autoImplicit false

namespace Onix
namespace Memory

open Lib Finset

/-- The checks that only a wrong count can fail: those of `put_page`, and the check
of the users of a count that it is not 0. -/
def countChecks : List Halt :=
  [.assertion "idx >= start_page && idx < total_pages", .assertion "memory_map[idx] >= 1",
    .assertion "free_pages >= 0 && free_pages < total_pages", .assertion "memory_map[entry->index] > 0"]

abbrev BadCount (h : Halt) : Prop := h ∈ countChecks

variable {m m' : Memory} {S : Finset (ℕ × ℕ)} {extra extra' : ℕ → ℕ}

/-- Nothing is taken away: what is in use keeps its count, what is mapped stays so. -/
structure Grows (m m' : Memory) (S : Finset (ℕ × ℕ)) : Prop where
  count : ∀ p, m.memoryMap p ≠ 0 → m'.memoryMap p = m.memoryMap p
  dentry : ∀ x ∈ S, (m.dentry x).present → m'.dentry x = m.dentry x
  kernelMap : m'.kernelMap = m.kernelMap
  kernelDirs : ∀ d i, i < KERNEL_DIRS → m'.dirs d i = m.dirs d i
  totalPages : m'.totalPages = m.totalPages

theorem Grows.refl : Grows m m S := ⟨fun _ _ => rfl, fun _ _ _ => rfl, rfl, fun _ _ _ => rfl, rfl⟩

theorem Grows.trans {m'' : Memory} (h : Grows m m' S) (h' : Grows m' m'' S) : Grows m m'' S := by
  refine ⟨fun p hp => ?_, fun x hx hp => ?_, h'.kernelMap.trans h.kernelMap,
    fun d i hi => (h'.kernelDirs d i hi).trans (h.kernelDirs d i hi), h'.totalPages.trans h.totalPages⟩
  · have h1 := h.count p hp
    rw [h'.count p (by omega), h1]
  · have h1 := h.dentry x hx hp
    rw [h'.dentry x hx (by rw [h1]; exact hp), h1]

theorem taken_count (q p : ℕ) : (m.taken q).memoryMap p = if p = q then 1 else m.memoryMap p := by
  simp only [taken, setCount, Function.update_apply]

theorem grows_taken {q : ℕ} (h0 : m.memoryMap q = 0) : Grows m (m.taken q) S := by
  refine ⟨fun p hp => ?_, fun _ _ _ => rfl, rfl, fun _ _ _ => rfl, rfl⟩
  rw [taken_count, if_neg]
  rintro rfl
  exact hp h0

/-! ### get_pte -/

theorem getPte_eq {pde : ℕ} {vaddr : UInt32} {create : Bool} (hp : (m.dentry (pde, didx vaddr)).present) :
    m.getPte pde vaddr create = .ok ((m.dentry (pde, didx vaddr)).index, m) := by
  unfold dentry at *
  simp [getPte, hp]

/-- The page table is there after `get_pte(vaddr, true)`, and no entry has changed. -/
theorem getPte_spec (h : Acct m S extra) {pde : ℕ} {vaddr : UInt32} (hx : (pde, didx vaddr) ∈ S) :
    Meets BadCount (m.getPte pde vaddr true) fun r => Acct r.2 S extra ∧ (Cow m S → Cow r.2 S) ∧
      (r.2.dentry (pde, didx vaddr)).present ∧ r.1 = (r.2.dentry (pde, didx vaddr)).index ∧
      (∀ y ∈ S, ∀ u, r.2.entryAt y u = m.entryAt y u) ∧ Grows m r.2 S := by
  set x := (pde, didx vaddr) with hxdef
  by_cases hp : (m.dentry x).present
  · rw [getPte_eq hp]
    exact meets_ok.mpr ⟨h, id, hp, rfl, fun _ _ _ => rfl, .refl⟩
  · have hp' : (m.dirs pde (didx vaddr)).present = false := by simpa [dentry, hxdef] using hp
    simp only [getPte, hp', Bool.true_or, assert_true, ok_bind, Bool.not_false, if_true]
    apply (getPage_spec h (by decide)).bind
    rintro ⟨q, m₁⟩ ⟨hm₁, h0, hq, htot, -, hacct, hcow⟩
    dsimp only at *
    have hp₁ : (m₁.dentry x).present = false := by rw [hm₁]; exact hp'
    have htot₁ : m₁.total S q = 0 := by rw [hm₁]; exact htot
    have hentry : ∀ y ∈ S, ∀ u, (m₁.newTable x q).entryAt y u = m₁.entryAt y u :=
      fun y hy u => entryAt_newTable hp₁ htot₁ hy u
    have hself : (m₁.newTable x q).dentry x = entryInit q := by rw [newTable_dentry, if_pos rfl]
    have hnew := hacct.newTable hx hp₁ (by rw [hm₁]; exact hq) (by rw [hm₁, taken_count, if_pos rfl]) htot₁
    apply meets_ok.mpr
    change Acct (m₁.newTable x q) S extra ∧ (Cow m S → Cow (m₁.newTable x q) S) ∧
      ((m₁.newTable x q).dentry x).present ∧ q = ((m₁.newTable x q).dentry x).index ∧
      (∀ y ∈ S, ∀ u, (m₁.newTable x q).entryAt y u = m.entryAt y u) ∧ Grows m (m₁.newTable x q) S
    refine ⟨hnew, fun hc => (hcow hc).recount hentry fun _ _ _ _ _ h1 => h1, by rw [hself]; rfl,
      by rw [hself]; rfl, fun y hy u => by rw [hentry y hy, hm₁]; rfl, ?_⟩
    apply (grows_taken (S := S) h0).trans
    rw [← hm₁]
    refine ⟨fun _ _ => rfl, fun y hy hpy => ?_, rfl, fun d i hi => ?_, rfl⟩
    · rw [newTable_dentry, if_neg]
      rintro rfl
      rw [hp₁] at hpy
      cases hpy
    · have hu : KERNEL_DIRS ≤ x.2 := (h.user x hx).1
      change (m₁.setDentry x.1 x.2 (entryInit q)).dirs d i = _
      rw [dirs_setDentry, if_neg fun hc => by omega]

/-! ### link_page and unlink_page -/

theorem tidx_lt (vaddr : UInt32) : tidx vaddr < 1024 := Nat.mod_lt _ (by decide)

/-- What `link_page` does to the entry `t` below `x`, and to no other. -/
structure Links (m m' : Memory) (S : Finset (ℕ × ℕ)) (x : ℕ × ℕ) (t : ℕ) : Prop where
  grows : Grows m m' S
  others : ∀ y ∈ S, ∀ u, ¬ (y = x ∧ u = t) → m'.entryAt y u = m.entryAt y u
  dentry : (m'.dentry x).present
  entry : (m.entryAt x t).present ∧ m'.entryAt x t = m.entryAt x t ∨
    (m.entryAt x t).present = false ∧ ∃ q, m'.entryAt x t = entryInit q ∧ m'.memoryMap q = 1 ∧
      m.memoryMap q = 0

theorem refOf_entryInit (q p : ℕ) : refOf (entryInit q) p = one q p := by
  simp only [refOf, entryInit, one, true_and, eq_comm]

/-- A fresh frame for an entry that maps none. -/
theorem Acct.link (h : Acct m S extra) {x : ℕ × ℕ} {t : ℕ} (hx : x ∈ S) (ht : t < 1024)
    (hd : (m.dentry x).present) (hp : (m.entryAt x t).present = false) {q : ℕ} (hq : m.UserFrame q)
    (h0 : m.memoryMap q = 0) (hacct : Acct (m.taken q) S (extra + one q)) :
    Writes (m.taken q) ((m.taken q).setEntry (m.dentry x).index t (entryInit q)) S (extra + one q) extra x t
      (entryInit q) := by
  have htot := h.count q hq.1
  refine ⟨hx, hd, ht, rfl, rfl, rfl, rfl, hacct.free, fun _ => ⟨hq, Or.inl ?_⟩, ?_, ?_, hacct.kernel⟩
  · change m.total S q = 0
    omega
  · intro p _ hz
    rw [refOf_entryInit] at hz
    simp [hz]
  · intro p _
    rw [refOf_eq_zero (e := (m.taken q).entryAt x t) fun hc => by
      change (m.entryAt x t).present at hc
      rw [hp] at hc
      cases hc]
    rw [refOf_entryInit]
    simp only [Pi.add_apply]
    change (m.taken q).memoryMap p + 0 + (extra p + one q p) = (m.taken q).memoryMap p + one q p + extra p
    omega

theorem linkPage_spec (h : Acct m S extra) {pde : ℕ} {vaddr : UInt32} (hx : (pde, didx vaddr) ∈ S) :
    Meets BadCount (m.linkPage pde vaddr) fun m' => Acct m' S extra ∧ (Cow m S → Cow m' S) ∧
      Links m m' S (pde, didx vaddr) (tidx vaddr) := by
  set x := (pde, didx vaddr)
  set t := tidx vaddr
  have ht : t < 1024 := tidx_lt vaddr
  refine Meets.assert_bind (fun _ => by decide) fun _ => (getPte_spec h hx).bind ?_
  rintro ⟨f, m₁⟩ ⟨hacct, hcow, hd, hf, hentry, hgrow⟩
  dsimp only at *
  subst hf
  rw [← entryAt_of_present hd]
  have hsame : m₁.entryAt x t = m.entryAt x t := hentry x hx t
  by_cases hp : (m₁.entryAt x t).present
  · rw [if_pos hp]
    exact meets_ok.mpr
      ⟨hacct, hcow, hgrow, fun y hy u _ => hentry y hy u, hd, Or.inl ⟨hsame ▸ hp, hsame⟩⟩
  · have hp : (m₁.entryAt x t).present = false := by simpa using hp
    rw [if_neg (show ¬ (m₁.entryAt x t).present = true by simp [hp])]
    apply (getPage_spec hacct (by decide)).bind
    rintro ⟨q, m₂⟩ ⟨hm₂, h0, hq, -, -, hacct₂, hcow₂⟩
    dsimp only at *
    subst hm₂
    have w := hacct.link hx ht hd hp hq h0 hacct₂
    have hone : (m₁.taken q).memoryMap q = 1 := by rw [taken_count, if_pos rfl]
    refine meets_ok.mpr ⟨w.acct hacct₂, fun hc => w.cow hacct₂ (hcow₂ (hcow hc)) fun _ _ _ => hone,
      ?_, ?_, hd, Or.inr ?_⟩
    · exact hgrow.trans ((grows_taken h0).trans
        ⟨fun _ _ => rfl, fun _ _ _ => rfl, rfl, fun _ _ _ => rfl, rfl⟩)
    · intro y hy u hne
      rw [w.entryAt hacct₂ hy, if_neg hne]
      exact hentry y hy u
    · refine ⟨hsame ▸ hp, q, by rw [w.entryAt hacct₂ hx, if_pos ⟨rfl, rfl⟩], hone, ?_⟩
      by_contra hne
      have := hgrow.count q hne
      omega

/-- What `unlink_page` leaves: every other entry, and the page tables. -/
structure Unlinks (m m' : Memory) (S : Finset (ℕ × ℕ)) (x : ℕ × ℕ) (t : ℕ) : Prop where
  others : ∀ y ∈ S, ∀ u, ¬ (y = x ∧ u = t) → m'.entryAt y u = m.entryAt y u
  entry : (m'.entryAt x t).present = false
  dirs : m'.dirs = m.dirs
  kernelMap : m'.kernelMap = m.kernelMap

theorem unlinkPage_spec (h : Acct m S extra) {pde : ℕ} {vaddr : UInt32} (hx : (pde, didx vaddr) ∈ S) :
    Meets BadCount (m.unlinkPage pde vaddr) fun m' => Acct m' S extra ∧ (Cow m S → Cow m' S) ∧
      Unlinks m m' S (pde, didx vaddr) (tidx vaddr) := by
  set x := (pde, didx vaddr)
  set t := tidx vaddr
  have ht : t < 1024 := tidx_lt vaddr
  refine Meets.assert_bind (fun _ => by decide) fun _ => ?_
  by_cases hd : (m.dentry x).present
  · have hd' : (m.dirs pde (didx vaddr)).present := hd
    simp only [hd', Bool.not_true, Bool.false_eq_true, if_false]
    rw [getPte_eq hd, ok_bind]
    dsimp only
    rw [← entryAt_of_present hd]
    by_cases hp : (m.entryAt x t).present
    · set p := (m.entryAt x t).index with hpdef
      set e : PageEntry := { m.entryAt x t with present := false } with he
      set m₁ := m.setEntry (m.dentry x).index t e with hm₁
      have w : Writes m m₁ S extra (extra + one p) x t e := by
        refine ⟨hx, hd, ht, rfl, rfl, rfl, rfl, h.free, fun hc => ?_, ?_, ?_, h.kernel⟩
        · cases hc
        · intro q hq _
          have : q ≠ p := by
            rintro rfl
            rw [refOf_self hp] at hq
            cases hq
          simp [one, this]
        · intro q _
          have h1 : refOf (m.entryAt x t) q = one p q := by
            unfold refOf one
            simp only [hp, true_and, hpdef, eq_comm]
          rw [h1, refOf_eq_zero (e := e) fun hc => by cases hc]
          simp only [Pi.add_apply]
          change m.memoryMap q + one p q + extra q = m.memoryMap q + 0 + (extra q + one p q)
          omega
      have hacct := w.acct h
      have hu : m₁.UserFrame p := h.mapped x hx t ht hp
      obtain ⟨hdrop, hcow⟩ := hacct.drop hu
      obtain ⟨-, hdirs, htables, -, hkmap, -, -⟩ := m₁.dropped_fields p
      rw [if_neg (show ¬ (!(m.entryAt x t).present) = true by simp [hp]), putPage_eq hacct hu]
      refine meets_ok.mpr ⟨hdrop, fun hc => hcow (w.cow h hc fun hc => by cases hc), ?_, ?_, hdirs, hkmap⟩
      · intro y hy u hne
        rw [entryAt_congr hdirs htables, w.entryAt h hy, if_neg hne]
      · rw [entryAt_congr hdirs htables, w.entryAt h hx, if_pos ⟨rfl, rfl⟩]
    · have hp : (m.entryAt x t).present = false := by simpa using hp
      rw [if_pos (show (!(m.entryAt x t).present) = true by simp [hp])]
      exact meets_ok.mpr ⟨h, id, fun _ _ _ _ => rfl, hp, rfl, rfl⟩
  · have hd' : (m.dirs pde (didx vaddr)).present = false := by simpa [dentry] using hd
    simp only [hd', Bool.not_false, if_true]
    refine meets_ok.mpr ⟨h, id, fun _ _ _ _ => rfl, ?_, rfl, rfl⟩
    unfold entryAt
    rw [if_neg hd]
    rfl

/-! ### copy_page and copy_pde -/

/-- The copy in frame `q`: a reference to it is held, and no entry has changed. -/
structure Copied (m m' : Memory) (S : Finset (ℕ × ℕ)) (page q : ℕ) : Prop where
  frame : m.UserFrame q ∧ m.memoryMap q = 0 ∧ m.total S q = 0
  count : ∀ p, m'.memoryMap p = if p = q then 1 else m.memoryMap p
  entry : ∀ y ∈ S, ∀ u, m'.entryAt y u = m.entryAt y u
  table : m'.tables q = m.tables page
  dirs : m'.dirs = m.dirs
  kernelMap : m'.kernelMap = m.kernelMap
  bounds : m'.startPage = m.startPage ∧ m'.totalPages = m.totalPages

theorem copyPage_spec (h : Acct m S extra) {x : ℕ × ℕ} (hx : x ∈ S) {page : ℕ} (hpage : KERNEL_PAGES ≤ page) :
    Meets BadCount (m.copyPage x.1 page) fun r => Acct r.2 S (extra + one r.1) ∧
      (Cow m S → Cow r.2 S) ∧ Copied m r.2 S page r.1 := by
  apply (getPage_spec h (by decide)).bind
  rintro ⟨q, m₁⟩ ⟨hm₁, h0, hq, htot, -, hacct, hcow⟩
  dsimp only at *
  obtain ⟨hk, hf⟩ := hacct.kernelDir x hx
  have hdi : didx 0 = 0 := by decide
  have hk' : (m₁.dentry (x.1, didx 0)).present := by rw [hdi]; exact hk
  rw [getPte_eq hk', ok_bind, hdi]
  set f := (m₁.dentry (x.1, 0)).index with hfdef
  have hf' : f < KERNEL_PAGES := hf
  set m₂ : Memory := { m₁.setEntry f 0 { entryInit q with present := false } with
    tables := Function.update (m₁.setEntry f 0 { entryInit q with present := false }).tables q
      ((m₁.setEntry f 0 { entryInit q with present := false }).tables page)
    bytes := Function.update m₁.bytes q (m₁.bytes page) } with hm₂
  have hother : ∀ g, g ≠ f → g ≠ q → m₂.tables g = m₁.tables g := by
    intro g h1 h2
    simp only [hm₂, Function.update_of_ne h2, setEntry, Function.update_of_ne h1]
  have hentry : ∀ y ∈ S, ∀ u, m₂.entryAt y u = m₁.entryAt y u := by
    intro y hy u
    unfold entryAt
    change (if (m₁.dentry y).present then m₂.tables (m₁.dentry y).index u else _) = _
    split_ifs with hpy
    · obtain ⟨h1, hu⟩ := hacct.table y hy hpy
      rw [hother]
      · have := hu.1
        omega
      · -- `q` is in no table yet
        rintro he
        have hr := refs_le_total (m := m₁) hy q
        unfold refs at hr
        rw [← he, refOf_self hpy] at hr
        rw [← he, ← show m₁.total S (m₁.dentry y).index = m.total S (m₁.dentry y).index by rw [hm₁]; rfl] at htot
        omega
    · rfl
  have hacct₂ : Acct m₂ S (extra + one q) := by
    refine hacct.recount (fun _ _ => rfl) (fun _ _ => rfl) hentry (fun _ _ => rfl) ?_ hacct.kernel hacct.free
      rfl rfl
    exact fun y hy hpy => (hacct.table y hy hpy).1
  apply meets_ok.mpr
  change Acct m₂ S (extra + one q) ∧ (Cow m S → Cow m₂ S) ∧ Copied m m₂ S page q
  refine ⟨hacct₂, fun hc => (hcow hc).recount hentry fun _ _ _ _ _ h1 => h1, ⟨hq, h0, htot⟩, ?_, ?_, ?_, ?_, ?_, ?_⟩
  · intro p
    change m₁.memoryMap p = _
    rw [hm₁, taken_count]
  · intro y hy u
    rw [hentry y hy, hm₁]
    rfl
  · have hne : page ≠ f := by omega
    simp only [hm₂, Function.update_self, setEntry, Function.update_of_ne hne, hm₁]
    rfl
  · change m₁.dirs = m.dirs
    rw [hm₁]
    rfl
  · change m₁.kernelMap = m.kernelMap
    rw [hm₁]
    rfl
  · change m₁.startPage = m.startPage ∧ m₁.totalPages = m.totalPages
    rw [hm₁]
    exact ⟨rfl, rfl⟩

/-- The entry that fork leaves behind: read-only unless it is shared. -/
def protect (e : PageEntry) : PageEntry :=
  if e.present = true ∧ e.shared = false then { e with write := false } else e

@[simp] theorem protect_present (e : PageEntry) : (protect e).present = e.present := by
  unfold protect
  split_ifs <;> rfl

@[simp] theorem protect_index (e : PageEntry) : (protect e).index = e.index := by
  unfold protect
  split_ifs <;> rfl

@[simp] theorem refOf_protect (e : PageEntry) (p : ℕ) : refOf (protect e) p = refOf e p := by
  unfold refOf
  rw [protect_present, protect_index]

theorem protect_write (e : PageEntry) (hp : (protect e).present) (hw : (protect e).write)
    (hs : (protect e).shared = false) : False := by
  rw [protect_present] at hp
  unfold protect at hw hs
  split_ifs at hw hs with hc
  exact hc ⟨hp, hs⟩

theorem setEntry_self (m : Memory) (f t : ℕ) : m.setEntry f t (m.tables f t) = m := by
  simp only [setEntry, Function.update_eq_self]

theorem copyEntry_eq {pte t : ℕ} (hp : (m.tables pte t).present) :
    m.copyEntry pte t = (do
      assert "memory_map[entry->index] > 0" (m.memoryMap (m.tables pte t).index > 0)
      assert "memory_map[entry->index] < 255" (m.memoryMap (m.tables pte t).index + 1 < 255)
      .ok ((m.setEntry pte t (protect (m.tables pte t))).setCount (m.tables pte t).index
        (m.memoryMap (m.tables pte t).index + 1))) := by
  unfold copyEntry
  rw [if_neg (by simp [hp])]
  cases hs : (m.tables pte t).shared with
  | false =>
    have hprot : protect (m.tables pte t) = { m.tables pte t with write := false } := if_pos ⟨hp, hs⟩
    simp only [hprot, hs, Bool.not_false, if_true, setCount, Function.update_self, setEntry]
  | true =>
    have hprot : protect (m.tables pte t) = m.tables pte t := if_neg (by simp [hs])
    simp only [hprot, Bool.not_true, Bool.false_eq_true, if_false, setEntry_self, setCount,
      Function.update_self]

theorem copyEntry_spec (h : Acct m S extra) {x : ℕ × ℕ} {t : ℕ} (hx : x ∈ S) (ht : t < 1024)
    (hd : (m.dentry x).present) :
    Meets BadCount (m.copyEntry (m.dentry x).index t) fun m' =>
      Acct m' S (extra + refOf (m.entryAt x t)) ∧ (Cow m S → Cow m' S) ∧
      (∀ y ∈ S, ∀ u, m'.entryAt y u = if y = x ∧ u = t then protect (m.entryAt x t) else m.entryAt y u) ∧
      m'.dirs = m.dirs ∧ m'.kernelMap = m.kernelMap ∧ m'.totalPages = m.totalPages := by
  by_cases hp : (m.entryAt x t).present
  · have hpos : 0 < m.memoryMap (m.entryAt x t).index := h.mapped_pos hx ht hp
    rw [copyEntry_eq (by rw [← entryAt_of_present hd]; exact hp), ← entryAt_of_present hd]
    set e := m.entryAt x t with he
    set m' := (m.setEntry (m.dentry x).index t (protect e)).setCount e.index (m.memoryMap e.index + 1)
    have hcount : ∀ p, m'.memoryMap p = m.memoryMap p + refOf e p := by
      intro p
      change Function.update m.memoryMap e.index (m.memoryMap e.index + 1) p = _
      simp only [Function.update_apply, refOf, hp, true_and]
      split_ifs with h1 h2 h2
      · rw [h1]
      · exact absurd h1.symm h2
      · exact absurd h2.symm h1
      · rfl
    have w : Writes m m' S extra (extra + refOf e) x t (protect e) := by
      refine ⟨hx, hd, ht, rfl, rfl, rfl, rfl, h.free.setCount (by omega) (by omega),
        fun _ => ⟨?_, Or.inr ⟨hp, protect_index e⟩⟩, ?_, ?_, ?_⟩
      · rw [protect_index]
        exact h.mapped x hx t ht hp
      · intro p h1 _
        rw [← he] at h1
        simp [h1]
      · intro p _
        rw [hcount, refOf_protect, ← he]
        simp only [Pi.add_apply]
        omega
      · intro p hpk
        have hout : refOf e p = 0 := refOf_eq_zero fun _ he => by
          have hk : KERNEL_PAGES ≤ e.index := (h.mapped x hx t ht hp).1
          omega
        rw [hcount, hout]
        exact h.kernel p hpk
    refine Meets.assert_bind (fun hb => absurd hpos (by simpa using hb)) fun _ => ?_
    refine Meets.assert_bind (fun _ => by decide) fun _ => ?_
    exact meets_ok.mpr ⟨w.acct h, fun hc => w.cow h hc fun h1 h2 h3 => absurd (protect_write e h1 h2 h3) id,
      fun y hy u => w.entryAt h hy u, rfl, rfl, rfl⟩
  · have hp : (m.entryAt x t).present = false := by simpa using hp
    have hz : refOf (m.entryAt x t) = fun _ => 0 := by
      funext p
      exact refOf_eq_zero fun hc => by rw [hp] at hc; cases hc
    unfold copyEntry
    rw [← entryAt_of_present hd, if_pos (show (!(m.entryAt x t).present) = true by simp [hp])]
    refine meets_ok.mpr ⟨by rw [hz]; exact h, id, fun y hy u => ?_, rfl, rfl, rfl⟩
    split_ifs with hc
    · rw [hc.1, hc.2]
      unfold protect
      rw [if_neg (by simp [hp])]
    · rfl

theorem sum_list_range (n : ℕ) (f : ℕ → ℕ) : ((List.range n).map f).sum = ∑ t ∈ range n, f t := by
  induction n with
  | zero => rfl
  | succ n ih => rw [List.range_succ, List.map_append, List.sum_append, ih, sum_range_succ]; simp

/-- The inner loop of `copy_pde`: the table below `x` is protected, and each of its
entries has been counted once more. -/
theorem copyEntries_spec (h : Acct m S extra) {x : ℕ × ℕ} (hx : x ∈ S) (hd : (m.dentry x).present)
    {n : ℕ} (hn : n ≤ 1024) :
    Meets BadCount ((List.range n).foldlM (fun m' t => m'.copyEntry (m.dentry x).index t) m) fun m' =>
      Acct m' S (extra + fun p => ∑ t ∈ range n, refOf (m.entryAt x t) p) ∧ (Cow m S → Cow m' S) ∧
      (∀ y ∈ S, ∀ u, m'.entryAt y u = if y = x ∧ u < n then protect (m.entryAt y u) else m.entryAt y u) ∧
      m'.dirs = m.dirs ∧ m'.kernelMap = m.kernelMap ∧ m'.totalPages = m.totalPages := by
  refine (Meets.foldlM (I := fun done m' =>
      Acct m' S (extra + fun p => (done.map fun t => refOf (m.entryAt x t) p).sum) ∧ (Cow m S → Cow m' S) ∧
      (∀ y ∈ S, ∀ u, m'.entryAt y u = if y = x ∧ u ∈ done then protect (m.entryAt y u) else m.entryAt y u) ∧
      m'.dirs = m.dirs ∧ m'.kernelMap = m.kernelMap ∧ m'.totalPages = m.totalPages) ?_ ?_).imp ?_
  · exact ⟨h, id, by simp, rfl, rfl, rfl⟩
  · intro done t after hl m₁ ⟨hacct, hcow, hentry, hdirs, hkmap, htot⟩
    have ht : t < n := List.mem_range.mp (by rw [hl]; simp)
    have hnot : t ∉ done := by
      have hnd := hl ▸ List.nodup_range (n := n)
      exact fun hm => (List.nodup_append.mp hnd).2.2 t hm t (List.mem_cons_self ..) rfl
    have hsame : m₁.dentry x = m.dentry x := by unfold dentry; rw [hdirs]
    rw [← hsame]
    apply (copyEntry_spec hacct hx (by omega) (by rw [hsame]; exact hd)).imp
    rintro m₂ ⟨hacct₂, hcow₂, hentry₂, hdirs₂, hkmap₂, htot₂⟩
    have hold : m₁.entryAt x t = m.entryAt x t := by
      rw [hentry x hx, if_neg fun hc => hnot hc.2]
    refine ⟨?_, fun hc => hcow₂ (hcow hc), ?_, hdirs₂.trans hdirs, hkmap₂.trans hkmap, htot₂.trans htot⟩
    · rw [hold] at hacct₂
      have hsum : (extra + (fun p => (done.map fun t => refOf (m.entryAt x t) p).sum) + refOf (m.entryAt x t)) =
          extra + fun p => ((done ++ [t]).map fun t => refOf (m.entryAt x t) p).sum := by
        funext p
        simp only [Pi.add_apply, List.map_append, List.sum_append, List.map_cons, List.map_nil, List.sum_cons,
          List.sum_nil]
        omega
      rw [← hsum]
      exact hacct₂
    · intro y hy u
      rw [hentry₂ y hy, hold, hentry y hy]
      by_cases hyx : y = x
      · subst hyx
        by_cases hut : u = t
        · subst hut
          simp
        · simp [hut]
      · simp [hyx]
  · rintro m' ⟨hacct, hcow, hentry, hdirs, hkmap, htot⟩
    refine ⟨?_, hcow, fun y hy u => ?_, hdirs, hkmap, htot⟩
    · simpa only [sum_list_range] using hacct
    · rw [hentry y hy]
      simp only [List.mem_range]

@[simp] theorem protect_zero : protect .zero = .zero := rfl

theorem entryAt_absent {x : ℕ × ℕ} (h : (m.dentry x).present = false) (t : ℕ) : m.entryAt x t = .zero := by
  simp [entryAt, h]

/-- After one round of the outer loop: the child has a copy of the table, and the parent's is protected. -/
structure CopiedTable (m : Memory) (S : Finset (ℕ × ℕ)) (extra : ℕ → ℕ) (pde child i : ℕ) (m' : Memory) : Prop where
  acct : Acct m' (insert (child, i) S) extra
  cow : Cow m S → Cow m' (insert (child, i) S)
  entry : ∀ y ∈ S, ∀ u, m'.entryAt y u = if y = (pde, i) ∧ u < 1024 then protect (m.entryAt y u) else m.entryAt y u
  dirs : ∀ d j, ¬ (d = child ∧ j = i) → m'.dirs d j = m.dirs d j
  kernelMap : m'.kernelMap = m.kernelMap
  totalPages : m'.totalPages = m.totalPages
  mirrored : ∀ u < 1024, m'.entryAt (child, i) u = protect (m.entryAt (pde, i) u)
  mirroredDir : ∃ q, m'.dirs child i = { m.dirs pde i with index := q }

section

variable {pde child i : ℕ}

/-- Without a table there is nothing to copy. -/
theorem copyTable_absent (h : Acct m S extra) (hx : (pde, i) ∈ S) (hc : (child, i) ∉ S)
    (hsame : m.dirs child i = m.dirs pde i)
    (hkernel : (m.dirs child 0).present ∧ (m.dirs child 0).index < KERNEL_PAGES)
    (hd : (m.dentry (pde, i)).present = false) :
    Meets BadCount (m.copyTable pde child i) (CopiedTable m S extra pde child i) := by
  set c := (child, i)
  have hdc : (m.dentry c).present = false := by
    change (m.dirs child i).present = false
    rw [hsame]
    exact hd
  have hd' : (m.dirs child i).present = false := hdc
  rw [copyTable, if_pos (by simp [hd'])]
  have hrefs : m.refs c = fun _ => 0 := by
    funext p
    unfold refs
    rw [refOf_eq_zero (e := m.dentry c) fun hcc => by rw [hdc] at hcc; cases hcc]
    simp [entryAt_absent hdc]
  refine meets_ok.mpr ⟨Acct.insert (by rw [hrefs]; exact h) hc (h.user (pde, i) hx) hkernel ?_ ?_, fun hcw => ?_, ?_,
    fun _ _ _ => rfl, rfl, rfl, fun u _ => ?_, (m.dirs pde i).index, hsame⟩
  · intro hcc
    rw [hdc] at hcc
    cases hcc
  · intro t _ hp
    rw [entryAt_absent hdc] at hp
    cases hp
  · intro y hy t ht hp hw hs
    rcases mem_insert.mp hy with rfl | hy
    · rw [entryAt_absent hdc] at hp
      cases hp
    · exact hcw y hy t ht hp hw hs
  · intro y hy u
    split_ifs with hyx
    · rw [hyx.1, entryAt_absent hd, protect_zero]
    · rfl
  · rw [entryAt_absent hdc, entryAt_absent hd, protect_zero]

/-- The copy in frame `q` of the protected table goes into the child's directory. -/
theorem CopiedTable.install (h : Acct m S extra) (hx : (pde, i) ∈ S) (hc : (child, i) ∉ S)
    (hsame : m.dirs child i = m.dirs pde i)
    (hkernel : (m.dirs child 0).present ∧ (m.dirs child 0).index < KERNEL_PAGES) (hd : (m.dentry (pde, i)).present)
    {m₁ m₂ : Memory} {q : ℕ}
    (hacct : Acct m₁ S (extra + fun p => ∑ t ∈ range 1024, refOf (m.entryAt (pde, i) t) p)) (hcow : Cow m S → Cow m₁ S)
    (hentry : ∀ y ∈ S, ∀ u, m₁.entryAt y u =
      if y = (pde, i) ∧ u < 1024 then protect (m.entryAt y u) else m.entryAt y u)
    (hdirs : m₁.dirs = m.dirs) (hkmap : m₁.kernelMap = m.kernelMap) (htot : m₁.totalPages = m.totalPages)
    (hacct₂ : Acct m₂ S (extra + (fun p => ∑ t ∈ range 1024, refOf (m.entryAt (pde, i) t) p) + one q))
    (hcow₂ : Cow m₁ S → Cow m₂ S) (hcopy : Copied m₁ m₂ S (m.dentry (pde, i)).index q) :
    CopiedTable m S extra pde child i (m₂.setDentry child i { m.dirs child i with index := q }) := by
  set x := (pde, i)
  set c := (child, i)
  have huser := h.user x hx
  have hd' : (m.dirs child i).present := by rw [hsame]; exact hd
  have hi0 : 0 ≠ i := by
    have : KERNEL_DIRS ≤ i := huser.1
    simp only [KERNEL_DIRS] at this
    omega
  have hd₁ : m₁.dentry x = m.dentry x := by unfold dentry; rw [hdirs]
  set e : PageEntry := { m.dirs child i with index := q } with he
  set m₃ := m₂.setDentry child i e with hm₃
  have hdir₃ : ∀ d j, m₃.dirs d j = if d = child ∧ j = i then e else m.dirs d j := by
    intro d j
    rw [hm₃, dirs_setDentry, hcopy.dirs, hdirs]
  have hdc : m₃.dentry c = e := by
    unfold dentry
    rw [hdir₃, if_pos ⟨rfl, rfl⟩]
  have hdS : ∀ y ∈ S, m₃.dentry y = m₂.dentry y := by
    rintro ⟨d, j⟩ hy
    unfold dentry
    rw [hdir₃, if_neg, hcopy.dirs, hdirs]
    rintro ⟨rfl, rfl⟩
    exact hc hy
  have hentry₃ : ∀ y ∈ S, ∀ u, m₃.entryAt y u = m₁.entryAt y u := by
    intro y hy u
    rw [← hcopy.entry y hy]
    unfold entryAt
    rw [hdS y hy]
    rfl
  -- the copy holds what the table below `x` holds
  have hchild : ∀ u, m₃.entryAt c u = m₁.entryAt x u := by
    intro u
    have hpc : (m₃.dentry c).present := by rw [hdc]; exact hd'
    rw [entryAt_of_present hpc, hdc, entryAt_of_present (by rw [hd₁]; exact hd), hd₁]
    change m₂.tables q u = _
    rw [hcopy.table]
  have hq₁ : m₁.totalPages = m₂.totalPages := hcopy.bounds.2.symm
  have hacct₃ : Acct m₃ S (extra + m₃.refs c) := by
    refine hacct₂.recount hdS ?_ (fun y hy u => (hentry₃ y hy u).trans (hcopy.entry y hy u).symm) ?_
      (fun y hy hpy => (hacct₂.table y hy hpy).1) hacct₂.kernel hacct₂.free rfl rfl
    · intro y hy
      rw [hdir₃, if_neg (fun hcc => hi0 hcc.2),
        hcopy.dirs, hdirs]
    · intro p _
      have hr : m₃.refs c p = one q p + ∑ t ∈ range 1024, refOf (m.entryAt x t) p := by
        have hsum : ∑ t ∈ range 1024, refOf (m₃.entryAt c t) p = ∑ t ∈ range 1024, refOf (m.entryAt x t) p := by
          refine sum_congr rfl fun t ht => ?_
          rw [hchild, hentry x hx, if_pos ⟨rfl, mem_range.mp ht⟩, refOf_protect]
        unfold refs
        rw [hsum, hdc]
        simp only [refOf, he, hd', true_and, one, eq_comm]
      change m₂.memoryMap p + _ = m₂.memoryMap p + _
      simp only [Pi.add_apply, hr]
      omega
  have hmap₃ : m₃.memoryMap q = 1 := by
    change m₂.memoryMap q = 1
    rw [hcopy.count, if_pos rfl]
  have hframe : ∀ p, m₁.UserFrame p → m₃.UserFrame p := by
    intro p hp
    refine ⟨hp.1, ?_⟩
    change p < m₂.totalPages
    rw [← hq₁]
    exact hp.2
  refine ⟨hacct₃.insert hc huser ?_ (fun _ => ?_) ?_, fun hcw => ?_, ?_, ?_, ?_, ?_, ?_, ?_⟩
  · rw [hdir₃, if_neg (fun hcc => hi0 hcc.2)]
    exact hkernel
  · rw [hdc]
    exact ⟨hmap₃, hframe q hcopy.frame.1⟩
  · intro t ht hp
    rw [hchild] at hp ⊢
    exact hframe _ (hacct.mapped x hx t ht hp)
  · intro y hy t ht hp hw hs
    rcases mem_insert.mp hy with rfl | hy
    · rw [hchild, hentry x hx, if_pos ⟨rfl, ht⟩] at hp hw hs
      exact absurd (protect_write _ hp hw hs) id
    · have := hcow₂ (hcow hcw) y hy t ht
      rw [hcopy.entry y hy, ← hentry₃ y hy] at this
      exact this hp hw hs
  · intro y hy u
    rw [hentry₃ y hy, hentry y hy]
  · intro d j hdj
    rw [hdir₃, if_neg hdj]
  · change m₂.kernelMap = m.kernelMap
    rw [hcopy.kernelMap, hkmap]
  · exact hq₁.symm.trans htot
  · intro u hu
    rw [hchild, hentry x hx, if_pos ⟨rfl, hu⟩]
  · exact ⟨q, by rw [hdir₃, if_pos ⟨rfl, rfl⟩, he, hsame]⟩

/-- One directory entry of the child: the table is copied, and the parent's is protected. -/
theorem copyTable_spec (h : Acct m S extra) (hx : (pde, i) ∈ S) (hc : (child, i) ∉ S)
    (hsame : m.dirs child i = m.dirs pde i)
    (hkernel : (m.dirs child 0).present ∧ (m.dirs child 0).index < KERNEL_PAGES) :
    Meets BadCount (m.copyTable pde child i) (CopiedTable m S extra pde child i) := by
  cases hd : (m.dentry (pde, i)).present with
  | false => exact copyTable_absent h hx hc hsame hkernel hd
  | true =>
    have hd' : (m.dirs child i).present := by rw [hsame]; exact hd
    have hidx : (m.dirs pde i).index = (m.dentry (pde, i)).index := rfl
    rw [copyTable, if_neg (by simp [hd']), hidx]
    apply (copyEntries_spec h hx hd (Nat.le_refl 1024)).bind
    rintro m₁ ⟨hacct, hcow, hentry, hdirs, hkmap, htot⟩
    apply (copyPage_spec hacct hx (h.table _ hx hd).2.1).bind
    rintro ⟨q, m₂⟩ ⟨hacct₂, hcow₂, hcopy⟩
    exact meets_ok.mpr (.install h hx hc hsame hkernel hd hacct hcow hentry hdirs hkmap htot hacct₂ hcow₂ hcopy)

end

/-- The slots of a set of page directories. -/
def slots (D : Finset ℕ) : Finset (ℕ × ℕ) := D ×ˢ Ico KERNEL_DIRS 1023

theorem mem_slots {D : Finset ℕ} {x : ℕ × ℕ} :
    x ∈ slots D ↔ x.1 ∈ D ∧ KERNEL_DIRS ≤ x.2 ∧ x.2 < 1023 := by
  rw [slots, mem_product, mem_Ico]

theorem mem_userDirs {i : ℕ} : i ∈ userDirs ↔ KERNEL_DIRS ≤ i ∧ i < 1023 := by
  unfold userDirs
  rw [List.mem_range'_1]
  simp only [KERNEL_DIRS]

theorem nodup_userDirs : userDirs.Nodup := List.nodup_range'

/-- The pages `[index, index + count)` were clear in `map` and are set in `map'`, which is
otherwise the same. -/
structure Allocates (map map' : Bitmap) (index count : ℕ) : Prop where
  clear : ∀ i, index ≤ i → i < index + count → map.covers i ∧ map.marked i = false
  length : map'.length = map.length
  offset : map'.offset = map.offset
  marked : ∀ i, map.offset ≤ i → map'.marked i = (decide (index ≤ i ∧ i < index + count) || map.marked i)

theorem scanPage_spec (map : Bitmap) (count : ℕ) : Meets BadCount (scanPage map count) fun r =>
    0 < count ∧ Allocates map r.2 r.1 count := by
  refine Meets.assert_bind (fun _ => by decide) fun hc => ?_
  have hc : 0 < count := by simpa using hc
  split
  · rename_i r hr
    obtain ⟨h1, h2, h3, h4⟩ := Bitmap.bitmapScan_some hc hr
    exact meets_ok.mpr ⟨hc, h1, h2, h3, h4⟩
  · exact meets_error.mpr (by decide)

theorem allocKpage_spec (m : Memory) (count : ℕ) : Meets BadCount (m.allocKpage count) fun r =>
    0 < count ∧ Allocates m.kernelMap r.2.kernelMap r.1 count ∧
      r.2 = { m with kernelMap := r.2.kernelMap } := by
  refine Meets.assert_bind (fun _ => by decide) fun _ => (scanPage_spec m.kernelMap count).bind ?_
  rintro ⟨index, map⟩ ⟨hc, hal⟩
  exact meets_ok.mpr ⟨hc, hal, rfl⟩

/-- The account does not look at anything but the directories in it. -/
theorem Acct.reframe (h : Acct m S extra) (hdirs : ∀ x ∈ S, m'.dirs x.1 = m.dirs x.1)
    (htables : m'.tables = m.tables) (hmap : m'.memoryMap = m.memoryMap)
    (hconst : m'.startPage = m.startPage ∧ m'.totalPages = m.totalPages ∧ m'.freePages = m.freePages) :
    Acct m' S extra ∧ (Cow m S → Cow m' S) ∧ ∀ x ∈ S, ∀ t, m'.entryAt x t = m.entryAt x t := by
  obtain ⟨hs, ht, hf⟩ := hconst
  have hd : ∀ x ∈ S, m'.dentry x = m.dentry x := fun x hx => by unfold dentry; rw [hdirs x hx]
  have he : ∀ x ∈ S, ∀ t, m'.entryAt x t = m.entryAt x t := by
    intro x hx t
    unfold entryAt
    rw [hd x hx, htables]
  refine ⟨?_, fun hc => hc.recount he fun _ _ _ _ _ h1 => by rw [hmap]; exact h1, he⟩
  refine h.recount hd (fun x hx => by rw [hdirs x hx]) he (fun p _ => by rw [hmap]) ?_ ?_ ?_ hs ht
  · exact fun x hx hp => by rw [hmap]; exact (h.table x hx hp).1
  · rw [hmap]
    exact h.kernel
  · unfold FreeOk
    rw [hf, hs, ht, hmap]
    exact h.free

/-- The state after the fork of the address space `pde` into `child`. -/
structure Forks (m m' : Memory) (D : Finset ℕ) (pde child : ℕ) : Prop where
  kernelMap : Allocates m.kernelMap m'.kernelMap child 1
  dirs : ∀ d ∈ D, m'.dirs d = m.dirs d
  entry : ∀ y ∈ slots D, ∀ t < 1024, m'.entryAt y t = if y.1 = pde then protect (m.entryAt y t) else m.entryAt y t
  totalPages : m'.totalPages = m.totalPages

/-- The directory `child` has page tables of its own, with the entries that the fork left behind
in those of `pde`. -/
structure Mirrors (m m' : Memory) (pde child : ℕ) : Prop where
  entry : ∀ i ∈ userDirs, ∀ t < 1024, m'.entryAt (child, i) t = protect (m.entryAt (pde, i) t)
  dentry : ∀ i ∈ userDirs, ∃ q, m'.dirs child i = { m.dirs pde i with index := q }

/-- Before the loop of `copy_pde`: the directory `child` is that of `pde` except for its last entry. -/
structure CopyStart (m m₁ : Memory) (D : Finset ℕ) (extra : ℕ → ℕ) (pde child : ℕ) : Prop where
  fresh : child ∉ D
  acct : Acct m₁ (slots D) extra
  cow : Cow m (slots D) → Cow m₁ (slots D)
  entry : ∀ x ∈ slots D, ∀ t, m₁.entryAt x t = m.entryAt x t
  others : ∀ d j, d ≠ child → m₁.dirs d j = m.dirs d j
  own : ∀ j, j ≠ 1023 → m₁.dirs child j = m.dirs pde j
  kernel : (m₁.dirs child 0).present ∧ (m₁.dirs child 0).index < KERNEL_PAGES

/-- In the loop: the tables `done` are copied, those of `pde` protected, and everything else is as in `m₁`. -/
structure CopyLoop (m m₁ : Memory) (D : Finset ℕ) (extra : ℕ → ℕ) (pde child : ℕ) (done : List ℕ) (m' : Memory) :
    Prop where
  acct : Acct m' (slots D ∪ {child} ×ˢ done.toFinset) extra
  cow : Cow m (slots D) → Cow m' (slots D ∪ {child} ×ˢ done.toFinset)
  entry : ∀ y ∈ slots D, ∀ u < 1024, m'.entryAt y u =
    if y.1 = pde ∧ y.2 ∈ done then protect (m.entryAt y u) else m.entryAt y u
  dirs : ∀ d j, ¬ (d = child ∧ j ∈ done) → m'.dirs d j = m₁.dirs d j
  kernelMap : m'.kernelMap = m₁.kernelMap
  totalPages : m'.totalPages = m₁.totalPages
  mirrored : ∀ j ∈ done, ∀ u < 1024, m'.entryAt (child, j) u = protect (m.entryAt (pde, j) u)
  mirroredDir : ∀ j ∈ done, ∃ q, m'.dirs child j = { m.dirs pde j with index := q }

theorem CopyStart.loop {D : Finset ℕ} {m₁ : Memory} {pde child : ℕ} (h : CopyStart m m₁ D extra pde child) :
    CopyLoop m m₁ D extra pde child [] m₁ where
  acct := by simpa using h.acct
  cow := by simpa using h.cow
  entry y hy u _ := by simpa using h.entry y hy u
  dirs _ _ _ := rfl
  kernelMap := rfl
  totalPages := rfl
  mirrored := nofun
  mirroredDir := nofun

/-- One directory entry more is a slot more. -/
theorem slots_snoc (D : Finset ℕ) (child i : ℕ) (done : List ℕ) :
    insert (child, i) (slots D ∪ {child} ×ˢ done.toFinset) = slots D ∪ {child} ×ˢ (done ++ [i]).toFinset := by
  rw [List.toFinset_append, product_union, ← union_assoc, union_comm, insert_eq]
  simp

theorem slots_insert (D : Finset ℕ) (child : ℕ) :
    slots D ∪ {child} ×ˢ userDirs.toFinset = slots (insert child D) := by
  have hdirs : userDirs.toFinset = Ico KERNEL_DIRS 1023 := by
    ext i
    rw [List.mem_toFinset, mem_userDirs, mem_Ico]
  rw [hdirs, slots, slots, insert_eq, union_product, union_comm]

theorem CopyLoop.step {D : Finset ℕ} {m₁ m₂ : Memory} {pde child i : ℕ} {done after : List ℕ}
    (hstart : CopyStart m m₁ D extra pde child) (h : CopyLoop m m₁ D extra pde child done m₂) (hpde : pde ∈ D)
    (hl : userDirs = done ++ i :: after) :
    Meets BadCount (m₂.copyTable pde child i) (CopyLoop m m₁ D extra pde child (done ++ [i])) := by
  have hi : KERNEL_DIRS ≤ i ∧ i < 1023 := mem_userDirs.mp (by rw [hl]; simp)
  have hnot : i ∉ done := by
    have hnd := hl ▸ nodup_userDirs
    exact fun hm => (List.nodup_append.mp hnd).2.2 i hm i (List.mem_cons_self ..) rfl
  have hxD : (pde, i) ∈ slots D := mem_slots.mpr ⟨hpde, hi⟩
  have hpc : pde ≠ child := fun he => hstart.fresh (he ▸ hpde)
  have hc : (child, i) ∉ slots D ∪ {child} ×ˢ done.toFinset := by
    rw [mem_union, mem_slots, mem_product]
    rintro (hc | hc)
    · exact hstart.fresh hc.1
    · exact hnot (by simpa using hc.2)
  have h0 : (0 : ℕ) ∉ done := by
    intro hm
    have := (mem_userDirs.mp (by rw [hl]; exact List.mem_append_left _ hm)).1
    simp [KERNEL_DIRS] at this
  have hpdeDir : m₂.dirs pde i = m.dirs pde i := by
    rw [h.dirs pde i fun hcc => hpc hcc.1, hstart.others pde i hpc]
  refine (copyTable_spec h.acct (mem_union_left _ hxD) hc ?_ ?_).imp ?_
  · rw [h.dirs child i fun hcc => hnot hcc.2, hpdeDir, hstart.own i (by omega)]
  · rw [h.dirs child 0 fun hcc => h0 hcc.2]
    exact hstart.kernel
  · rintro m₃ ⟨hacct, hcow, hentry, hdirs, hkmap, htot, hmir, q, hq⟩
    rw [slots_snoc] at hacct hcow
    refine ⟨hacct, fun hcw => hcow (h.cow hcw), fun y hy u hu => ?_, fun d j hdj => ?_, hkmap.trans h.kernelMap,
      htot.trans h.totalPages, fun j hj u hu => ?_, fun j hj => ?_⟩
    · rw [hentry y (mem_union_left _ hy), h.entry y hy u hu]
      obtain ⟨a, b⟩ := y
      by_cases ha : a = pde
      · by_cases hb : b = i
        · simp [ha, hb, hu, hnot]
        · simp [ha, hb]
      · simp [ha]
    · rw [hdirs d j fun hcc => hdj ⟨hcc.1, by simp [hcc.2]⟩, h.dirs d j fun hcc => hdj ⟨hcc.1, by simp [hcc.2]⟩]
    · rcases List.mem_append.mp hj with hj | hj
      · have hji : j ≠ i := fun he => hnot (he ▸ hj)
        rw [hentry _ (mem_union_right _ (mem_product.mpr ⟨mem_singleton_self _, List.mem_toFinset.mpr hj⟩)),
          if_neg fun hcc => hji (Prod.mk.inj hcc.1).2, h.mirrored j hj u hu]
      · rw [List.mem_singleton.mp hj, hmir u hu, h.entry _ hxD u hu, if_neg fun hcc => hnot hcc.2]
    · rcases List.mem_append.mp hj with hj | hj
      · rw [hdirs child j fun hcc => hnot (hcc.2 ▸ hj)]
        exact h.mirroredDir j hj
      · rw [List.mem_singleton.mp hj]
        exact ⟨q, by rw [hq, hpdeDir]⟩

/-- The page of the child's directory, and the directory with its own last entry. -/
theorem copyStart_spec {D : Finset ℕ} (h : Acct m (slots D) extra) {pde child : ℕ} {m₀ : Memory} (hpde : pde ∈ D)
    (hD : ∀ d ∈ D, m.kernelMap.covers d → m.kernelMap.marked d = true)
    (hal : Allocates m.kernelMap m₀.kernelMap child 1) (hm₀ : m₀ = { m with kernelMap := m₀.kernelMap }) :
    CopyStart m (Memory.setDentry { m₀ with dirs := Function.update m₀.dirs child (m₀.dirs pde) } child 1023
      (entryInit child)) D extra pde child := by
  have hchild : child ∉ D := by
    intro hm
    obtain ⟨h1, h2⟩ := hal.clear child le_rfl (Nat.lt_succ_self _)
    rw [hD child hm h1] at h2
    cases h2
  set m₁ : Memory := Memory.setDentry { m₀ with dirs := Function.update m₀.dirs child (m₀.dirs pde) } child 1023
    (entryInit child) with hm₁
  have hothers : ∀ d j, d ≠ child → m₁.dirs d j = m.dirs d j := by
    intro d j hd
    rw [hm₁, dirs_setDentry, if_neg fun hc => hd hc.1, hm₀]
    exact congrFun (Function.update_of_ne hd _ _) j
  have hown : ∀ j, j ≠ 1023 → m₁.dirs child j = m.dirs pde j := by
    intro j hj
    rw [hm₁, dirs_setDentry, if_neg fun hc => hj hc.2, hm₀]
    exact congrFun (Function.update_self ..) j
  have hne : ∀ y ∈ slots D, y.1 ≠ child := fun y hy he => hchild (he ▸ (mem_slots.mp hy).1)
  obtain ⟨hacct, hcow, hentry⟩ : Acct m₁ (slots D) extra ∧ (Cow m (slots D) → Cow m₁ (slots D)) ∧
      ∀ x ∈ slots D, ∀ t, m₁.entryAt x t = m.entryAt x t :=
    h.reframe (fun x hx => funext fun j => hothers x.1 j (hne x hx)) (by rw [hm₁, hm₀]; rfl)
      (by rw [hm₁, hm₀]; rfl) (by rw [hm₁, hm₀]; exact ⟨rfl, rfl, rfl⟩)
  refine ⟨hchild, hacct, hcow, hentry, hothers, hown, ?_⟩
  rw [hown 0 (by decide)]
  exact h.kernelDir (pde, KERNEL_DIRS) (mem_slots.mpr ⟨hpde, le_rfl, by simp [KERNEL_DIRS]⟩)

theorem copyPde_spec {D : Finset ℕ} (h : Acct m (slots D) extra) {pde : ℕ} (hpde : pde ∈ D)
    (hD : ∀ d ∈ D, m.kernelMap.covers d → m.kernelMap.marked d = true) :
    Meets BadCount (m.copyPde pde) fun r => r.1 ∉ D ∧ Acct r.2 (slots (insert r.1 D)) extra ∧
      (Cow m (slots D) → Cow r.2 (slots (insert r.1 D))) ∧ Forks m r.2 D pde r.1 ∧ Mirrors m r.2 pde r.1 := by
  apply (allocKpage_spec m 1).bind
  rintro ⟨child, m₀⟩ ⟨-, hal, hm₀⟩
  have hstart := copyStart_spec h hpde hD hal hm₀
  refine (Meets.foldlM (CopyLoop m _ D extra pde child) hstart.loop
    fun done i after hl m₂ hloop => hloop.step hstart hpde hl).bind ?_
  intro m' hend
  have hacct := hend.acct
  have hcow := hend.cow
  rw [slots_insert] at hacct hcow
  refine meets_ok.mpr ⟨hstart.fresh, hacct, hcow, ⟨?_, ?_, ?_, ?_⟩, hend.mirrored, hend.mirroredDir⟩
  · rw [hend.kernelMap]
    exact hal
  · intro d hd
    have hdc : d ≠ child := fun he => hstart.fresh (he ▸ hd)
    funext j
    rw [hend.dirs d j fun hcc => hdc hcc.1, hstart.others d j hdc]
  · intro y hy t ht
    rw [hend.entry y hy t ht]
    have := mem_userDirs.mpr (mem_slots.mp hy).2
    simp only [this, and_true]
  · rw [hend.totalPages, hm₀]
    rfl

/-! ### free_kpage and free_pde -/

/-- The pages `[index, index + count)` are clear in `map'`, which is otherwise `map`. -/
structure Releases (map map' : Bitmap) (index count : ℕ) : Prop where
  length : map'.length = map.length
  offset : map'.offset = map.offset
  marked : ∀ i, map.offset ≤ i → map'.marked i = (!decide (index ≤ i ∧ i < index + count) && map.marked i)

theorem resetPage_spec {map : Bitmap} {index count : ℕ} (hc : 0 < count)
    (h : ∀ i, index ≤ i → i < index + count → map.covers i ∧ map.marked i = true) (bad : Halt → Prop) :
    Meets bad (resetPage map index count) fun map' => Releases map map' index count := by
  refine Meets.assert_bind (fun hb => absurd hc (by simpa using hb)) fun _ => ?_
  refine (Meets.foldlM (I := fun done map' => Releases map map' index done.length) ?_ ?_).imp ?_
  · refine ⟨rfl, rfl, fun i _ => ?_⟩
    have : ¬ (index ≤ i ∧ i < index + 0) := by omega
    rw [List.length_nil, decide_eq_false this, Bool.not_false, Bool.true_and]
  · intro done i after hl map₁ ⟨hlen, hoff, hmark⟩
    have hi : i = done.length := by
      have := congrArg (fun l => l[done.length]?) hl
      simp only [List.getElem?_append_right le_rfl, Nat.sub_self, List.getElem?_cons_zero] at this
      rw [List.getElem?_range (by have := congrArg List.length hl; simp at this; omega)] at this
      exact (Option.some.inj this).symm
    have hlt : i < count := List.mem_range.mp (by rw [hl]; simp)
    obtain ⟨hcov, hm⟩ := h (index + i) (by omega) (by omega)
    have hcov₁ : map₁.covers (index + i) := by
      unfold Bitmap.covers at hcov ⊢
      rw [hlen, hoff]
      exact hcov
    have hm₁ : map₁.marked (index + i) = true := by
      have : ¬ (index ≤ index + i ∧ index + i < index + done.length) := by omega
      rw [hmark _ hcov.1, hm, decide_eq_false this]
      rfl
    simp only [Bitmap.bitmapTest_eq hcov₁, hm₁, ok_bind, assert_true, Bitmap.bitmapSet_eq false hcov₁]
    refine meets_ok.mpr ⟨hlen, hoff, fun j hj => ?_⟩
    have hstep : ({ map₁ with bits := Function.update map₁.bits (index + i - map₁.offset) false } : Bitmap).marked j =
        if j = index + i then false else map₁.marked j := by
      simp only [Bitmap.marked, Function.update_apply]
      refine if_congr ?_ rfl rfl
      have := hcov.1
      rw [hoff]
      omega
    rw [hstep, hmark j hj, List.length_append, List.length_singleton]
    by_cases hji : j = index + i
    · have : index ≤ j ∧ j < index + (done.length + 1) := by omega
      simp [hji, hi]
    · have : (index ≤ j ∧ j < index + (done.length + 1)) ↔ (index ≤ j ∧ j < index + done.length) := by omega
      simp [hji, this]
  · intro map' h'
    simpa using h'

theorem freeKpage_spec {index count : ℕ} (hc : 0 < count)
    (h : ∀ i, index ≤ i → i < index + count → m.kernelMap.covers i ∧ m.kernelMap.marked i = true)
    (bad : Halt → Prop) : Meets bad (m.freeKpage index count) fun m' =>
      Releases m.kernelMap m'.kernelMap index count ∧ m' = { m with kernelMap := m'.kernelMap } := by
  refine Meets.assert_bind (fun hb => absurd hc (by simpa using hb)) fun _ =>
    (resetPage_spec hc h bad).bind fun map' hrel => meets_ok.mpr ⟨hrel, rfl⟩

/-- A kernel page that its user did not own makes `free_kpage` halt, or leaves the marks of
all other pages. -/
theorem freeKpage_others (m : Memory) (index count : ℕ) : Meets BadCount (m.freeKpage index count) fun m' =>
    m' = { m with kernelMap := m'.kernelMap } ∧ m'.kernelMap.length = m.kernelMap.length ∧
      m'.kernelMap.offset = m.kernelMap.offset ∧ ∀ i, m.kernelMap.offset ≤ i → ¬ (index ≤ i ∧ i < index + count) →
        m'.kernelMap.marked i = m.kernelMap.marked i := by
  refine Meets.assert_bind (fun _ => by decide) fun _ => ?_
  refine Meets.bind (Q := fun (map : Bitmap) => map.length = m.kernelMap.length ∧ map.offset = m.kernelMap.offset ∧
    ∀ i, m.kernelMap.offset ≤ i → ¬ (index ≤ i ∧ i < index + count) → map.marked i = m.kernelMap.marked i) ?_
    fun map hmap => meets_ok.mpr ⟨rfl, hmap⟩
  refine Meets.assert_bind (fun _ => by decide) fun _ => Meets.foldlM (I := fun _ (map : Bitmap) =>
    map.length = m.kernelMap.length ∧
    map.offset = m.kernelMap.offset ∧ ∀ i, m.kernelMap.offset ≤ i → ¬ (index ≤ i ∧ i < index + count) →
      map.marked i = m.kernelMap.marked i) ⟨rfl, rfl, fun _ _ _ => rfl⟩ ?_
  intro done i after hl map ⟨hlen, hoff, hmark⟩
  have hi : i < count := List.mem_range.mp (by rw [hl]; simp)
  refine Meets.bind (Q := fun _ => True) ?_ fun b _ => Meets.assert_bind (fun _ => by decide) fun _ => ?_
  · exact Meets.assert_bind (fun _ => by decide) fun _ =>
      Meets.assert_bind (fun _ => by decide) fun _ => meets_ok.mpr trivial
  · refine Meets.assert_bind (fun _ => by decide) fun hc => Meets.assert_bind (fun _ => by decide) fun _ => ?_
    have hc : index + i ≥ map.offset := of_decide_eq_true hc
    refine meets_ok.mpr ⟨hlen, hoff, fun j hj hn => ?_⟩
    simp only [Bitmap.marked]
    rw [Function.update_of_ne (by omega)]
    exact hmark j hj hn

/-- What `put_page` leaves alone. -/
structure SameTables (m m' : Memory) : Prop where
  dirs : m'.dirs = m.dirs
  tables : m'.tables = m.tables
  kernelMap : m'.kernelMap = m.kernelMap
  totalPages : m'.totalPages = m.totalPages

theorem dropped_sameTables (m : Memory) (p : ℕ) : SameTables m (m.dropped p) := by
  obtain ⟨-, h1, h2, -, h3, -, h4⟩ := m.dropped_fields p
  exact ⟨h1, h2, h3, h4⟩

theorem freeEntry_spec {f t : ℕ} (h : Acct m S (extra + refOf (m.tables f t)))
    (hu : (m.tables f t).present → m.UserFrame (m.tables f t).index) (bad : Halt → Prop) :
    Meets bad (m.freeEntry f t) fun m' => Acct m' S extra ∧ (Cow m S → Cow m' S) ∧ SameTables m m' := by
  unfold freeEntry
  by_cases hp : (m.tables f t).present
  · have hone : refOf (m.tables f t) = one (m.tables f t).index := by
      funext p
      simp only [refOf, hp, true_and, one, eq_comm]
    rw [hone] at h
    have hpos := h.count _ (hu hp).1
    simp only [Pi.add_apply, one, if_true] at hpos
    rw [if_neg (by simp [hp])]
    refine Meets.assert_bind (fun hb => absurd (show m.memoryMap (m.tables f t).index > 0 by omega)
      (by simpa using hb)) fun _ => ?_
    rw [putPage_eq h (hu hp)]
    obtain ⟨h1, h2⟩ := h.drop (hu hp)
    exact meets_ok.mpr ⟨h1, h2, dropped_sameTables m _⟩
  · have hp : (m.tables f t).present = false := by simpa using hp
    have hz : refOf (m.tables f t) = 0 := by
      funext p
      exact refOf_eq_zero fun hc => by rw [hp] at hc; cases hc
    rw [if_pos (by simp [hp])]
    rw [hz, add_zero] at h
    exact meets_ok.mpr ⟨h, id, rfl, rfl, rfl, rfl⟩

/-- The inner loop of `free_pde` gives back what the entries of the table held. -/
theorem freeEntries_spec {f n : ℕ} (h : Acct m S (extra + fun p => ∑ t ∈ range n, refOf (m.tables f t) p))
    (hu : ∀ t < n, (m.tables f t).present → m.UserFrame (m.tables f t).index) (bad : Halt → Prop) :
    Meets bad ((List.range n).foldlM (fun m' t => m'.freeEntry f t) m) fun m' =>
      Acct m' S extra ∧ (Cow m S → Cow m' S) ∧ SameTables m m' := by
  refine (Meets.foldlM (I := fun done m' => (∃ rest, done ++ rest = List.range n ∧
      Acct m' S (extra + fun p => (rest.map fun t => refOf (m.tables f t) p).sum)) ∧
      (Cow m S → Cow m' S) ∧ SameTables m m') ?_ ?_).imp ?_
  · refine ⟨⟨List.range n, rfl, ?_⟩, id, rfl, rfl, rfl, rfl⟩
    simpa only [sum_list_range] using h
  · rintro done t after hl m₁ ⟨⟨rest, hr, hacct⟩, hcow, hsame⟩
    have ht : t < n := List.mem_range.mp (by rw [hl]; simp)
    obtain rfl : rest = t :: after := List.append_cancel_left (hr.trans hl)
    have hsum : (extra + fun p => ((t :: after).map fun t => refOf (m.tables f t) p).sum) =
        (extra + fun p => (after.map fun t => refOf (m.tables f t) p).sum) + refOf (m₁.tables f t) := by
      funext p
      simp only [Pi.add_apply, List.map_cons, List.sum_cons, hsame.tables]
      omega
    rw [hsum] at hacct
    refine (freeEntry_spec hacct ?_ bad).imp ?_
    · rw [hsame.tables]
      intro hp
      obtain ⟨h1, h2⟩ := hu t ht hp
      exact ⟨h1, by rw [hsame.totalPages]; exact h2⟩
    · rintro m₂ ⟨hacct₂, hcow₂, hsame₂⟩
      exact ⟨⟨after, by rw [List.append_assoc]; exact hl.symm, hacct₂⟩, fun hc => hcow₂ (hcow hc),
        hsame₂.dirs.trans hsame.dirs, hsame₂.tables.trans hsame.tables, hsame₂.kernelMap.trans hsame.kernelMap,
        hsame₂.totalPages.trans hsame.totalPages⟩
  · rintro m' ⟨⟨rest, hr, hacct⟩, hcow, hsame⟩
    obtain rfl : rest = [] := List.append_cancel_left (hr.trans (List.append_nil _).symm)
    have hnone : (extra + fun p => (([] : List ℕ).map fun t => refOf (m.tables f t) p).sum) = extra := by
      funext p
      simp
    exact ⟨hnone ▸ hacct, hcow, hsame⟩

theorem freeTable_spec (h : Acct m S extra) {x : ℕ × ℕ} (hx : x ∈ S) (bad : Halt → Prop) :
    Meets bad (m.freeTable x.1 x.2) fun m' => Acct m' (S.erase x) extra ∧
      (Cow m S → Cow m' (S.erase x)) ∧ SameTables m m' := by
  have herase := h.erase hx
  unfold freeTable
  by_cases hd : (m.dentry x).present
  · have hrefs : extra + m.refs x = (extra + one (m.dentry x).index) +
        fun p => ∑ t ∈ range 1024, refOf (m.tables (m.dentry x).index t) p := by
      funext p
      have hone : refOf (m.dentry x) p = one (m.dentry x).index p := by
        simp only [refOf, hd, true_and, one, eq_comm]
      have hent : ∀ t, m.entryAt x t = m.tables (m.dentry x).index t := entryAt_of_present hd
      simp only [Pi.add_apply, refs, hone, hent]
      omega
    rw [hrefs] at herase
    rw [if_neg (by simp only [dentry] at hd; simp [hd])]
    refine (freeEntries_spec herase (fun t ht hp => ?_) bad).bind ?_
    · have := h.mapped x hx t ht
      rw [entryAt_of_present hd] at this
      exact this hp
    · rintro m₁ ⟨hacct, hcow, hsame⟩
      obtain ⟨h1, h2⟩ := (h.table x hx hd).2
      have hu : m₁.UserFrame (m.dentry x).index := ⟨h1, by rw [hsame.totalPages]; exact h2⟩
      obtain ⟨hacct₂, hcow₂⟩ := hacct.drop hu
      have hsame₂ := dropped_sameTables m₁ (m.dentry x).index
      change Meets bad (m₁.putPage (m.dentry x).index) _
      rw [putPage_eq hacct hu]
      exact meets_ok.mpr ⟨hacct₂, fun hc => hcow₂ (hcow (hc.mono (erase_subset x S))),
        hsame₂.dirs.trans hsame.dirs, hsame₂.tables.trans hsame.tables, hsame₂.kernelMap.trans hsame.kernelMap,
        hsame₂.totalPages.trans hsame.totalPages⟩
  · have hd : (m.dentry x).present = false := by simpa using hd
    have hrefs : m.refs x = 0 := by
      funext p
      unfold refs
      rw [refOf_eq_zero (e := m.dentry x) fun hc => by rw [hd] at hc; cases hc]
      simp [entryAt_absent hd]
    rw [hrefs, add_zero] at herase
    rw [if_pos (by simp only [dentry] at hd; simp [hd])]
    exact meets_ok.mpr ⟨herase, fun hc => hc.mono (erase_subset x S), rfl, rfl, rfl, rfl⟩

/-- A user address space is given back whole, and `free_pde` does not halt. -/
theorem freePde_spec {D : Finset ℕ} (h : Acct m (slots D) extra) {pde : ℕ} (hpde : pde ∈ D)
    (hmark : m.kernelMap.covers pde ∧ m.kernelMap.marked pde = true) (bad : Halt → Prop) :
    Meets bad (m.freePde pde true) fun m' => Acct m' (slots (D.erase pde)) extra ∧
      (Cow m (slots D) → Cow m' (slots (D.erase pde))) ∧ m'.dirs = m.dirs ∧ m'.tables = m.tables ∧
      m'.totalPages = m.totalPages ∧ Releases m.kernelMap m'.kernelMap pde 1 := by
  refine Meets.assert_bind (fun hb => by cases hb) fun _ => ?_
  refine Meets.bind (Q := fun m' => Acct m' (slots D \ {pde} ×ˢ userDirs.toFinset) extra ∧
      (Cow m (slots D) → Cow m' (slots D \ {pde} ×ˢ userDirs.toFinset)) ∧ SameTables m m') ?_ ?_
  · refine Meets.foldlM (I := fun done m' => Acct m' (slots D \ {pde} ×ˢ done.toFinset) extra ∧
      (Cow m (slots D) → Cow m' (slots D \ {pde} ×ˢ done.toFinset)) ∧ SameTables m m') ?_ ?_
    · simp only [List.toFinset_nil, product_empty, sdiff_empty]
      exact ⟨h, id, rfl, rfl, rfl, rfl⟩
    · intro done i after hl m₁ ⟨hacct, hcow, hsame⟩
      have hi : KERNEL_DIRS ≤ i ∧ i < 1023 := mem_userDirs.mp (by rw [hl]; simp)
      have hnot : i ∉ done := by
        have hnd := hl ▸ nodup_userDirs
        exact fun hm => (List.nodup_append.mp hnd).2.2 i hm i (List.mem_cons_self ..) rfl
      have hx : (pde, i) ∈ slots D \ {pde} ×ˢ done.toFinset := by
        rw [mem_sdiff, mem_slots, mem_product]
        exact ⟨⟨hpde, hi⟩, fun hc => hnot (by simpa using hc.2)⟩
      have hins : (slots D \ {pde} ×ˢ done.toFinset).erase (pde, i) =
          slots D \ {pde} ×ˢ (done ++ [i]).toFinset := by
        ext ⟨a, b⟩
        simp only [mem_erase, mem_sdiff, mem_product, mem_singleton, List.mem_toFinset, List.mem_append,
          List.mem_singleton, Prod.mk.injEq, ne_eq]
        tauto
      apply (freeTable_spec hacct hx bad).imp
      rintro m₂ ⟨hacct₂, hcow₂, hsame₂⟩
      rw [hins] at hacct₂ hcow₂
      exact ⟨hacct₂, fun hc => hcow₂ (hcow hc), hsame₂.dirs.trans hsame.dirs, hsame₂.tables.trans hsame.tables,
        hsame₂.kernelMap.trans hsame.kernelMap, hsame₂.totalPages.trans hsame.totalPages⟩
  · rintro m₁ ⟨hacct, hcow, hsame⟩
    have hall : slots D \ {pde} ×ˢ userDirs.toFinset = slots (D.erase pde) := by
      ext ⟨a, b⟩
      simp only [mem_sdiff, mem_slots, mem_product, mem_singleton, List.mem_toFinset, mem_userDirs, mem_erase]
      tauto
    rw [hall] at hacct hcow
    refine (freeKpage_spec Nat.one_pos (fun i h1 h2 => ?_) bad).imp ?_
    · rw [hsame.kernelMap, show i = pde by omega]
      exact hmark
    · rintro m₂ ⟨hrel, hm₂⟩
      have hdirs : m₂.dirs = m₁.dirs := by rw [hm₂]
      have htables : m₂.tables = m₁.tables := by rw [hm₂]
      have hmap : m₂.memoryMap = m₁.memoryMap := by rw [hm₂]
      have hconst : m₂.startPage = m₁.startPage ∧ m₂.totalPages = m₁.totalPages ∧
          m₂.freePages = m₁.freePages := by rw [hm₂]; exact ⟨rfl, rfl, rfl⟩
      obtain ⟨h1, h2, -⟩ := hacct.reframe (fun x _ => congrFun hdirs x.1) htables hmap hconst
      rw [hsame.kernelMap] at hrel
      exact ⟨h1, fun hc => h2 (hcow hc), hdirs.trans hsame.dirs, htables.trans hsame.tables,
        hconst.2.1.trans hsame.totalPages, hrel⟩

end Memory
end Onix
