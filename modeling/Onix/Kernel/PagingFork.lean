import Onix.Kernel.Paging

/-! The copy of an address space, on the words: `copy_pde` reads the tables of the running task
through the window, and writes the new directory at its own address. -/

set_option autoImplicit false

namespace Onix

open Memory Lib
open PageEntry (ofWord)

namespace Phys

variable {k k' : Phys} {m m' : Memory} {D : Finset ℕ} {X : Set ℕ} {pde : ℕ}

theorem page_toNat {n : ℕ} (hn : n < KERNEL_PAGES) : (page n).toNat = 4096 * n := by
  simp only [KERNEL_PAGES] at hn
  rw [page, UInt32.toNat_ofNat']
  omega

/-- The frames of the kernel are found at their own addresses. -/
theorem Rep.walk_kernel (h : Rep D X pde k m) {n : ℕ} {addr : UInt32} (hn : n < KERNEL_PAGES) (hpos : 0 < n)
    (ha : addr.toNat / 4096 = n) : k.walk addr = some n := by
  have hpages : n < 4096 := hn
  have hd : didx addr = n / 1024 := by
    unfold didx
    omega
  have ht : tidx addr = n % 1024 := by
    unfold tidx
    omega
  obtain ⟨hp, hi⟩ := h.shape.kernel pde h.live (n / 1024) (by simp only [KERNEL_DIRS]; omega)
  obtain ⟨hpe, hie⟩ := h.shape.identity n hn hpos
  rw [h.walk (by omega), hd, ht, hp, hi, hpe, hie]
  rfl

theorem Rep.load_kernel (h : Rep D X pde k m) {n i : ℕ} (hn : n < KERNEL_PAGES) (hpos : 0 < n) (hi : i < 1024) :
    k.load (element (page n) i) = .ok (k.word n i) := by
  have ha := page_toNat hn
  have he := element_toNat (a := page n) (by omega) hi
  unfold load access
  rw [h.walk_kernel hn hpos (by omega), show (element (page n) i).toNat % 4096 / 4 = i by omega]
  rfl

theorem Rep.store_kernel (h : Rep D X pde k m) {n i : ℕ} (hn : n < KERNEL_PAGES) (hpos : 0 < n) (hi : i < 1024)
    (w : UInt32) : k.store (element (page n) i) w = .ok (k.setWord n i w) := by
  have ha := page_toNat hn
  have he := element_toNat (a := page n) (by omega) hi
  unfold store access
  rw [h.walk_kernel hn hpos (by omega), show (element (page n) i).toNat % 4096 / 4 = i by omega]
  rfl

theorem raise_follows {α : Type} (x : Except Halt α) : Follows PageTrap.halt Eq (raise x) x := by
  cases x with
  | ok a => exact rfl
  | error e => exact rfl

/-- The count of a frame goes up, whatever the frame is. -/
theorem countUp_follows (h : Rep D X pde k m) (f : ℕ) : Follows PageTrap.halt
    (fun k' m' => Rep D X pde k' m' ∧ m'.dirs = m.dirs)
    (do
      raise (assert "memory_map[entry->index] < 255" ((k.setCount f (k.memoryMap f + 1)).memoryMap f < 255))
      .ok (k.setCount f (k.memoryMap f + 1)))
    (do
      assert "memory_map[entry->index] < 255" ((m.setCount f (m.memoryMap f + 1)).memoryMap f < 255)
      .ok (m.setCount f (m.memoryMap f + 1))) := by
  have h₁ : Rep D X pde (k.setCount f (k.memoryMap f + 1)) (m.setCount f (m.memoryMap f + 1)) := by
    rw [h.count]
    exact h.setCount (.inl (Nat.le_add_left 1 _))
  refine (assert_follows (by rw [h₁.count])).bind fun _ _ _ _ => ?_
  exact ⟨h₁, rfl⟩

theorem copyEntry_follows (h : Rep D ∅ pde k m) {i t : ℕ} (hi : KERNEL_DIRS ≤ i) (hi' : i < 1023) (ht : t < 1024)
    (hp : (m.dirs pde i).present) : Follows PageTrap.halt (fun k' m' => Rep D ∅ pde k' m' ∧ m'.dirs = m.dirs)
      (k.copyEntry (tableAddr i) t) (m.copyEntry (m.dirs pde i).index t) := by
  unfold Phys.copyEntry Memory.copyEntry
  dsimp only
  have hword := h.table _ (h.present hi' hp) t ht
  rw [h.load_window (by omega) ht hp, ok_bind, hword]
  by_cases hpe : (m.tables (m.dirs pde i).index t).present
  swap
  · simp only [Bool.not_eq_true] at hpe
    simp only [hpe, Bool.not_false, if_true]
    exact ⟨h, rfl⟩
  simp only [hpe, Bool.not_true, Bool.false_eq_true, if_false]
  refine (assert_follows (by rw [h.count])).bind fun _ _ _ _ => ?_
  cases hs : (m.tables (m.dirs pde i).index t).shared with
  | true =>
    simp only [Bool.not_true, Bool.false_eq_true, if_false]
    exact countUp_follows h _
  | false =>
    simp only [Bool.not_false, if_true]
    have h₁ := h.setEntry (t := t) (clearWrite (k.word (m.dirs pde i).index t)) (h.present hi' hp)
      (h.shape.user_table h.live hi hi' hp rfl)
    rw [ofWord_clearWrite, hword] at h₁
    rw [h.store_window (by omega) ht hp, ok_bind]
    simp only [hpe, hs] at h₁
    exact countUp_follows h₁ _

theorem copyEntries_follows (h : Rep D ∅ pde k m) {i : ℕ} (hi : KERNEL_DIRS ≤ i) (hi' : i < 1023)
    (hp : (m.dirs pde i).present) (l : List ℕ) (hl : ∀ t ∈ l, t < 1024) :
    Follows PageTrap.halt (fun k' m' => Rep D ∅ pde k' m' ∧ m'.dirs = m.dirs)
      (l.foldlM (fun k t => k.copyEntry (tableAddr i) t) k) (l.foldlM (fun m' t => m'.copyEntry (m.dirs pde i).index t) m) := by
  refine Follows.foldlM (fun _ k₁ m₁ => Rep D ∅ pde k₁ m₁ ∧ m₁.dirs = m.dirs) ⟨h, rfl⟩ ?_
  rintro before t after hat k₁ m₁ ⟨h₁, hd₁⟩
  have ht : t < 1024 := hl t (by simp [hat])
  have hp₁ : (m₁.dirs pde i).present := by rw [hd₁]; exact hp
  rw [← hd₁]
  exact copyEntry_follows h₁ hi hi' ht hp₁

/-- The new directory has its own copy of what is done, and the tables of its parent for the rest. -/
structure Copying (D : Finset ℕ) (pde child : ℕ) (done : List ℕ) (k : Phys) (m : Memory) : Prop where
  rep : Rep D ∅ pde k m
  new : child ∈ D
  other : pde ≠ child
  rest : ∀ i, KERNEL_DIRS ≤ i → i < 1023 → i ∉ done → m.dirs child i = m.dirs pde i

theorem copyTable_follows {child : ℕ} {done : List ℕ} {i : ℕ} (h : Copying D pde child done k m) (hi : KERNEL_DIRS ≤ i)
    (hi' : i < 1023) (hdone : i ∉ done) : Follows PageTrap.halt (Copying D pde child (done ++ [i]))
      (k.copyTable (page child) i) (m.copyTable pde child i) := by
  obtain ⟨hlow, hpos⟩ := h.rep.shape.low child h.new
  have hchild : 0 < child := by
    simp only [KERNEL_PAGE_DIR] at hpos
    omega
  unfold Phys.copyTable Memory.copyTable
  dsimp only
  rw [h.rep.load_kernel hlow hchild (by omega), ok_bind, h.rep.dir child h.new i (by omega)]
  have hsame := h.rest i hi hi' hdone
  by_cases hp : (m.dirs child i).present
  swap
  · simp only [Bool.not_eq_true] at hp
    simp only [hp, Bool.not_false, if_true]
    refine ⟨h.rep, h.new, h.other, fun j hj hj' hn => h.rest j hj hj' fun hmem => hn ?_⟩
    exact List.mem_append_left _ hmem
  simp only [hp, Bool.not_true, Bool.false_eq_true, if_false]
  have hpp : (m.dirs pde i).present := hsame ▸ hp
  -- the entries of the table of the parent
  have hrange : ∀ t ∈ List.range 1024, t < 1024 := by
    intro t ht
    rwa [List.mem_range] at ht
  generalize List.range 1024 = tidxs at hrange ⊢
  have hloop := copyEntries_follows h.rep hi hi' hpp tidxs hrange
  refine hloop.bind ?_
  rintro k₁ m₁ - ⟨h₁, hd₁⟩
  have hp₁ : (m₁.dirs pde i).present := by rw [hd₁]; exact hpp
  have htab := h₁.present hi' hp₁
  have hidx : (m.dirs pde i).index = (m₁.dirs pde i).index := by rw [hd₁]
  rw [hidx]
  have hcopy := copyPage_follows h₁ (a := tableAddr i) (h₁.shape.user pde h₁.live i hi hi' hp₁).1
    (h₁.shape.table_cases htab).1 fun k' m' hrep hdirs _ => by
      rw [← tableAddr_element, hrep.walk_window (by omega) (by decide), hdirs, if_pos hp₁]
  refine hcopy.bind ?_
  rintro ⟨q, k₂⟩ ⟨q', m₂⟩ - ⟨he, hc⟩
  dsimp only at he hc ⊢
  subst he
  have hdirs : m₂.dirs = m.dirs := hc.dirs.trans hd₁
  -- the entry of the new directory
  rw [hc.rep.load_kernel hlow hchild (by omega), ok_bind, hc.rep.store_kernel hlow hchild (by omega)]
  have hword : ofWord (k₂.word child i) = m.dirs child i := by rw [hc.rep.dir child h.new i (by omega), hdirs]
  have hw : ofWord (setIndex (k₂.word child i) q) = { m.dirs child i with index := q } := by
    rw [ofWord_setIndex hc.fresh.high, hword]
  have h₃ := hc.rep.setDentry (w := setIndex (k₂.word child i) q) h.new hi hi' (by rw [hw]; exact hp)
    (by rw [hw]; exact hc.fresh.low) (by rw [hw]; exact le_of_eq hc.fresh.count.symm)
    (fun t ht => by rw [hw]; exact hc.entries htab t ht) (fun p hp' => by rw [hw]; exact hp')
    (fun f hf => by
      obtain ⟨c, hcD, j, hj, hpj, hfj⟩ := hf
      by_cases he : c = child ∧ j = i
      · obtain ⟨rfl, rfl⟩ := he
        refine ⟨pde, h.rep.live, j, hj, ?_, ?_⟩
        all_goals rw [dirs_setDentry, if_neg fun he => h.other he.1, hdirs, ← hsame, ← hdirs]
        · exact hpj
        · exact hfj
      · refine ⟨c, hcD, j, hj, ?_, ?_⟩
        all_goals rw [dirs_setDentry, if_neg he]
        · exact hpj
        · exact hfj)
  rw [hw] at h₃
  simp only [hp] at h₃
  refine ⟨h₃, h.new, h.other, fun j hj hj' hn => ?_⟩
  have hji : j ≠ i := by
    rintro rfl
    exact hn (List.mem_append_right _ (List.mem_singleton_self j))
  rw [dirs_setDentry, if_neg fun he => hji he.2, dirs_setDentry, if_neg fun he => hji he.2, hdirs]
  exact h.rest j hj hj' fun hmem => hn (List.mem_append_left _ hmem)

/-- The directory of a child, with the entries of its parent but for the last one. -/
theorem Rep.newDir (h : Rep D ∅ pde k m) {child : ℕ} (hc : child ∉ D) (hlow : 6 ≤ child) (hhigh : child < KERNEL_PAGES) :
    Rep (insert child D) ∅ pde ((k.setFrame child (k.byte pde)).setWord child 1023 (entryInit child))
      (Memory.setDentry { m with dirs := Function.update m.dirs child (m.dirs pde) } child 1023 (Onix.entryInit child)) := by
  set m' := Memory.setDentry { m with dirs := Function.update m.dirs child (m.dirs pde) } child 1023
    (Onix.entryInit child) with hm'
  have hold : ∀ c j, c ≠ child → m'.dirs c j = m.dirs c j := by
    intro c j hcc
    rw [hm', dirs_setDentry, if_neg fun he => hcc he.1]
    exact congrFun (Function.update_of_ne hcc _ _) j
  have hrow : ∀ j, j ≠ 1023 → m'.dirs child j = m.dirs pde j := by
    intro j hj
    rw [hm', dirs_setDentry, if_neg fun he => hj he.2]
    exact congrFun (Function.update_self ..) j
  have hlast : m'.dirs child 1023 = Onix.entryInit child := by rw [hm', dirs_setDentry, if_pos ⟨rfl, rfl⟩]
  have hne : ∀ d ∈ D, d ≠ child := fun d hd he => hc (he ▸ hd)
  -- the child has the tables of the parent
  have htable : ∀ f, IsTable (insert child D) m' f ↔ IsTable D m f := by
    intro f
    constructor
    · rintro ⟨d, hd, j, hj, hp, hf⟩
      rcases Finset.mem_insert.mp hd with rfl | hd
      · rw [hrow j (by omega)] at hp hf
        exact ⟨pde, h.live, j, hj, hp, hf⟩
      · rw [hold d j (hne d hd)] at hp hf
        exact ⟨d, hd, j, hj, hp, hf⟩
    · rintro ⟨d, hd, j, hj, hp, hf⟩
      refine ⟨d, Finset.mem_insert_of_mem hd, j, hj, ?_, ?_⟩
      · rwa [hold d j (hne d hd)]
      · rwa [hold d j (hne d hd)]
  have hentry : ∀ d ∈ insert child D, ∀ j, j ≠ 1023 → ∃ c ∈ D, m'.dirs d j = m.dirs c j := by
    intro d hd j hj
    rcases Finset.mem_insert.mp hd with rfl | hd
    · exact ⟨pde, h.live, hrow j hj⟩
    · exact ⟨d, hd, hold d j (hne d hd)⟩
  have hpages : KERNEL_PAGES = 4096 := rfl
  refine ⟨h.cr3, Finset.mem_insert_of_mem h.live, h.start, h.total, h.free, h.count, h.kmap, ?_, ?_, ?_, ?_, ?_, ?_, ?_,
    h.shape.identity, h.shape.used, h.shape.total, h.shape.room⟩
  · intro d hd i hi
    rw [word_setWord]
    rcases Finset.mem_insert.mp hd with rfl | hd
    · by_cases hi' : i = 1023
      · rw [if_pos ⟨rfl, hi'⟩, hi', hlast]
        exact ofWord_entryInit (by omega)
      · rw [if_neg fun he => hi' he.2, hrow i hi', word_setFrame hi]
        exact h.dir pde h.live i hi
    · rw [if_neg fun he => hne d hd he.1, hold d i (hne d hd), word_setFrame_ne (hne d hd)]
      exact h.dir d hd i hi
  · intro f hf t ht
    have hf' := (htable f).mp hf
    have hfc : f ≠ child := by
      rintro rfl
      have := (h.shape.table_cases hf').2
      omega
    rw [word_setWord, if_neg fun he => hfc he.1, word_setFrame_ne hfc]
    exact h.table f hf' t ht
  · intro f hf hX hnt o ho
    have hfc : f ≠ child := fun he => hf (he ▸ Finset.mem_insert_self child D)
    rw [byte_setWord hfc, byte_setFrame hfc]
    exact h.data f (fun hd => hf (Finset.mem_insert_of_mem hd)) hX (fun ht => hnt ((htable f).mpr ht)) o ho
  · intro d hd
    rcases Finset.mem_insert.mp hd with rfl | hd
    · exact ⟨hhigh, .inr hlow⟩
    · exact h.shape.low d hd
  · intro d hd
    rcases Finset.mem_insert.mp hd with rfl | hd
    · rw [hlast]
      exact ⟨rfl, rfl⟩
    · rw [hold d 1023 (hne d hd)]
      exact h.shape.self d hd
  · intro d hd i hi
    simp only [KERNEL_DIRS] at hi
    obtain ⟨c, hcD, he⟩ := hentry d hd i (by omega)
    rw [he]
    exact h.shape.kernel c hcD i hi
  · intro d hd i hi hi'
    obtain ⟨c, hcD, he⟩ := hentry d hd i (by omega)
    rw [he]
    exact h.shape.user c hcD i hi hi'

theorem copyPde_follows (h : Rep D ∅ pde k m) (hD : ∀ d ∈ D, m.kernelMap.covers d → m.kernelMap.marked d = true) :
    Follows PageTrap.halt (fun a b => a.1 = b.1 ∧ Rep (insert b.1 D) ∅ pde a.2 b.2) (k.copyPde pde) (m.copyPde pde) := by
  have halloc : Follows PageTrap.halt (fun a b => a.1 = b.1 ∧ Rep D ∅ pde a.2 b.2) (k.allocKpage 1) (m.allocKpage 1) := by
    unfold Phys.allocKpage Memory.allocKpage
    refine (assert_follows rfl).bind fun _ _ _ _ => ?_
    rw [h.kmap]
    refine (raise_follows _).bind ?_
    rintro ⟨index, map⟩ _ hy rfl
    have hal := ((scanPage_spec m.kernelMap 1).result _ hy).2
    have hroom : map.offset = 256 ∧ map.length = (KERNEL_PAGES - 256) / 8 := by
      rw [hal.offset, hal.length]
      exact h.shape.room
    exact ⟨rfl, h.cr3, h.live, h.start, h.total, h.free, h.count, rfl, h.dir, h.table, h.data, { h.shape with room := hroom }⟩
  unfold Phys.copyPde Memory.copyPde
  refine halloc.bind ?_
  rintro ⟨child, k₁⟩ ⟨child', m₁⟩ hy ⟨he, h₁⟩
  dsimp only at he h₁ ⊢
  subst he
  obtain ⟨-, hal, hm₁⟩ := (allocKpage_spec m 1).result _ hy
  obtain ⟨hcov, hclear⟩ := hal.clear child le_rfl (Nat.lt_succ_self _)
  have hnew : child ∉ D := fun hd => by
    rw [hD child hd hcov] at hclear
    cases hclear
  have hpages : KERNEL_PAGES = 4096 := rfl
  have hrange : 256 ≤ child ∧ child < KERNEL_PAGES := by
    have := h.shape.room
    unfold Bitmap.covers at hcov
    omega
  have hnt : ¬ IsTable D m₁ child := fun ht => by
    have := (h₁.shape.table_cases ht).2
    omega
  obtain ⟨hplow, hppos⟩ := h₁.shape.low pde h₁.live
  simp only [KERNEL_PAGE_DIR] at hppos
  have hcopy : k₁.memcpy (page child) (page pde) = .ok (k₁.setFrame child (k₁.byte pde)) := by
    have hcpage := page_toNat hrange.2
    have hppage := page_toNat hplow
    unfold memcpy access
    rw [h₁.walk_kernel hrange.2 (by omega) (by omega), h₁.walk_kernel hplow (by omega) (by omega)]
    rfl
  rw [hcopy, ok_bind]
  have h₂ := h₁.setFrame hnew hnt (by omega) (k₁.byte pde) (m₁.tables child) (m₁.bytes child)
  rw [Function.update_eq_self, Function.update_eq_self] at h₂
  rw [h₂.store_kernel hrange.2 (by omega) (by decide), ok_bind]
  have h₃ := h₁.newDir hnew (by omega) hrange.2
  have hne : pde ≠ child := fun he => hnew (he ▸ h₁.live)
  have hstart : Copying (insert child D) pde child [] _ _ := ⟨h₃, Finset.mem_insert_self child D, hne, fun i hi hi' _ => by
    rw [dirs_setDentry, dirs_setDentry, if_neg (by omega), if_neg (by omega)]
    dsimp only
    rw [Function.update_self, Function.update_of_ne hne]⟩
  have hloop := Follows.foldlM (l := userDirs) (fun done k m => Copying (insert child D) pde child done k m) hstart
    fun before i after hl k' m' hc => by
      have hi : i ∈ userDirs := by simp [hl]
      have hnd := nodup_userDirs
      rw [hl] at hnd
      obtain ⟨hi₁, hi₂⟩ := mem_userDirs.mp hi
      exact copyTable_follows hc hi₁ hi₂ fun hmem => (List.nodup_append.mp hnd).2.2 i hmem i List.mem_cons_self rfl
  refine hloop.bind ?_
  rintro k₂ m₂ - hc
  refine ⟨rfl, ?_⟩
  have hcr3 := hc.rep.cr3
  exact { hc.rep with cr3 := rfl }

end Phys
end Onix
