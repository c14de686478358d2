import Onix.Kernel.PagingFork

/-! The whole machine by its words, from boot. Every run of it is a run of the machine that
keeps directories, page tables and pages apart, and the tasks see the same memory. -/

set_option autoImplicit false

namespace Onix

open Memory Lib
open PageEntry (ofWord)

namespace Phys

variable {k k' : Phys} {m m' : Memory} {D : Finset ℕ} {X : Set ℕ} {pde : ℕ}

/-! ### Accesses of the tasks -/

/-- `task_activate` -/
def setCr3 (k : Phys) (pde : ℕ) : Phys := { k with cr3 := pde }

/-- An access from user mode that raises no page fault. -/
def permits (k : Phys) (vaddr : UInt32) (write : Bool) : Bool :=
  let dentry := ofWord (k.word k.cr3 (didx vaddr))
  let entry := ofWord (k.word dentry.index (tidx vaddr))
  dentry.present && entry.present && entry.user && dentry.user && (!write || entry.write && dentry.write)

def loadByte (k : Phys) (vaddr : UInt32) : Except PageTrap UInt8 := do
  let frame ← k.access vaddr
  .ok (k.byte frame (vaddr.toNat % 4096))

def storeByte (k : Phys) (vaddr : UInt32) (value : UInt8) : Except PageTrap Phys := do
  let frame ← k.access vaddr
  .ok { k with byte := Function.update k.byte frame (Function.update (k.byte frame) (vaddr.toNat % 4096) value) }

/-- An access that is not permitted, by the task with the address space `task`. -/
def fault (k : Phys) (task : Space) (vaddr : UInt32) (write : Bool) : Except PageTrap Phys := do
  let k ← k.pageFault task vaddr ⟨(k.walk vaddr).isSome, write⟩
  k.elim (.error .segmentation) .ok

/-- A byte is read from user mode, or the read faults. -/
def read (k : Phys) (task : Space) (vaddr : UInt32) : Except PageTrap Phys :=
  if k.permits vaddr false then .ok k else k.fault task vaddr false

def write (k : Phys) (task : Space) (vaddr : UInt32) (value : UInt8) : Except PageTrap Phys :=
  if k.permits vaddr true then k.storeByte vaddr value else k.fault task vaddr true

theorem Rep.setCr3 (h : Rep D X pde k m) {pde' : ℕ} (hp : pde' ∈ D) : Rep D X pde' (k.setCr3 pde') m :=
  { h with
    cr3 := rfl
    live := hp }

theorem Rep.walk_entry (h : Rep D X pde k m) {vaddr : UInt32} (hi : didx vaddr < 1023) : k.walk vaddr =
    if (m.entryAt (pde, didx vaddr) (tidx vaddr)).present then some (m.entryAt (pde, didx vaddr) (tidx vaddr)).index
    else none := by
  rw [h.walk hi]
  unfold entryAt dentry
  cases (m.dirs pde (didx vaddr)).present with
  | false => rfl
  | true => simp

theorem Rep.permits (h : Rep D X pde k m) {vaddr : UInt32} (hi : didx vaddr < 1023) (write : Bool) :
    k.permits vaddr write = ((m.entryAt (pde, didx vaddr) (tidx vaddr)).present &&
      (m.entryAt (pde, didx vaddr) (tidx vaddr)).user && (m.dentry (pde, didx vaddr)).user &&
      (!write || (m.entryAt (pde, didx vaddr) (tidx vaddr)).write && (m.dentry (pde, didx vaddr)).write)) := by
  unfold Phys.permits entryAt dentry
  dsimp only
  rw [h.cr3, h.dir pde h.live _ (by omega)]
  cases hp : (m.dirs pde (didx vaddr)).present with
  | false => simp [PageEntry.zero]
  | true =>
    rw [h.table _ (h.present hi hp) _ (tidx_lt vaddr)]
    simp

/-- A byte of a page of a task. -/
theorem Rep.setByte (h : Rep D X pde k m) {f : ℕ} (hf : f ∉ D) (hnt : ¬ IsTable D m f) (o : ℕ) (value : UInt8) :
    Rep D X pde { k with byte := Function.update k.byte f (Function.update (k.byte f) o value) }
      { m with bytes := Function.update m.bytes f (Function.update (m.bytes f) o value) } := by
  have hword : ∀ g, g ≠ f → ∀ i, ({ k with
      byte := Function.update k.byte f (Function.update (k.byte f) o value) } : Phys).word g i = k.word g i := by
    intro g hg i
    unfold word
    dsimp only
    rw [Function.update_of_ne hg]
  refine ⟨h.cr3, h.live, h.start, h.total, h.free, h.count, h.kmap, ?_, ?_, ?_, { h.shape with }⟩
  · intro d hd i hi
    rw [hword d fun he => hf (he ▸ hd)]
    exact h.dir d hd i hi
  · intro g hg t ht
    rw [hword g fun he => hnt (he ▸ hg)]
    exact h.table g hg t ht
  · intro g hg hX hng p hp
    dsimp only
    by_cases hgf : g = f
    · rw [hgf, Function.update_self, Function.update_self, Function.update_apply, Function.update_apply]
      split_ifs with hpo
      · rfl
      · exact h.data f hf (hgf ▸ hX) hnt p hp
    · rw [Function.update_of_ne hgf, Function.update_of_ne hgf]
      exact h.data g hg hX hng p hp

end Phys

/-! ### The machine by its words -/

structure Words where
  phys : Phys
  live : Finset ℕ
  space : ℕ → Space

/-- The calls that are followed here; no frame of a page table is given back in them. -/
inductive WordCall
  | userMode
  | fork (pde : ℕ)
  | linkPage (pde : ℕ) (vaddr : UInt32)
  | unlinkPage (pde : ℕ) (vaddr : UInt32)
  | load (pde : ℕ) (vaddr : UInt32)
  | store (pde : ℕ) (vaddr : UInt32) (value : UInt8)

def WordCall.call : WordCall → Machine.Call
  | .userMode => .userMode
  | .fork pde => .fork pde
  | .linkPage pde vaddr => .linkPage pde vaddr
  | .unlinkPage pde vaddr => .unlinkPage pde vaddr
  | .load pde vaddr => .load pde vaddr
  | .store pde vaddr value => .store pde vaddr value

namespace Words

def enter (w : Words) (pde : ℕ) (task : Space) : Except PageTrap Words := do
  let (child, phys) ← (w.phys.setCr3 pde).copyPde pde
  .ok { phys := phys, live := insert child w.live, space := Function.update w.space child { task with pde := child } }

def exec (w : Words) : WordCall → Except PageTrap Words
  | .userMode => w.enter KERNEL_PAGE_DIR Machine.userSpace
  | .fork pde => w.enter pde (w.space pde)
  | .linkPage pde vaddr => do
    let phys ← (w.phys.setCr3 pde).linkPage vaddr
    .ok { w with phys := phys }
  | .unlinkPage pde vaddr => do
    let phys ← (w.phys.setCr3 pde).unlinkPage vaddr
    .ok { w with phys := phys }
  | .load pde vaddr => do
    let phys ← (w.phys.setCr3 pde).read (w.space pde) vaddr
    .ok { w with phys := phys }
  | .store pde vaddr value => do
    let phys ← (w.phys.setCr3 pde).write (w.space pde) vaddr value
    .ok { w with phys := phys }

/-- As `Machine.Enabled`, for the addresses of user space. -/
def Enabled (w : Words) : WordCall → Prop
  | .userMode => True
  | .fork pde => pde ∈ w.live ∧ (w.space pde).user
  | .linkPage pde vaddr | .unlinkPage pde vaddr => pde ∈ w.live ∧ UserAddr vaddr
  | .load pde vaddr | .store pde vaddr _ => (pde ∈ w.live ∧ (w.space pde).user) ∧ InRange vaddr

def Step (w : Words) (c : WordCall) (w' : Words) : Prop := w.Enabled c ∧ w.exec c = .ok w'

/-- The words of all the directories in use say what the machine says. -/
structure Stand (w : Words) (s : Machine) : Prop where
  rep : ∃ pde, Phys.Rep s.live ∅ pde w.phys s.mem
  live : w.live = s.live
  space : w.space = s.space

variable {w w' : Words} {s s' : Machine}

theorem Stand.at (h : Stand w s) {pde : ℕ} (hp : pde ∈ s.live) : Phys.Rep s.live ∅ pde (w.phys.setCr3 pde) s.mem := by
  obtain ⟨_, hrep⟩ := h.rep
  exact hrep.setCr3 hp

/-- A call that changes the memory only. -/
theorem Stand.withMem (h : Stand w s) {pde : ℕ} {phys : Phys} {mem : Memory} (hrep : Phys.Rep s.live ∅ pde phys mem) :
    Stand { w with phys := phys } { s with mem := mem } :=
  ⟨⟨pde, hrep⟩, h.live, h.space⟩

theorem Stand.enabled (h : Stand w s) {c : WordCall} (hc : w.Enabled c) : s.Enabled c.call := by
  cases c with
  | userMode => trivial
  | fork pde => exact ⟨h.live ▸ hc.1, h.space ▸ hc.2⟩
  | linkPage pde vaddr => exact ⟨h.live ▸ hc.1, hc.2⟩
  | unlinkPage pde vaddr => exact ⟨h.live ▸ hc.1, hc.2⟩
  | load pde vaddr => exact ⟨⟨h.live ▸ hc.1.1, h.space ▸ hc.1.2⟩, (UserAddr.of_le hc.2.1 (UInt32.le_of_lt hc.2.2)).2⟩
  | store pde vaddr value =>
    exact ⟨⟨h.live ▸ hc.1.1, h.space ▸ hc.1.2⟩, (UserAddr.of_le hc.2.1 (UInt32.le_of_lt hc.2.2)).2⟩

/-- An entry of a task is that of a table. -/
theorem table_of_entry {m : Memory} {x : ℕ × ℕ} {t : ℕ} (hpe : (m.entryAt x t).present) : (m.dirs x.1 x.2).present := by
  by_contra hno
  have hno' : (m.dentry x).present = false := eq_false_of_ne_true hno
  rw [entryAt_absent hno'] at hpe
  cases hpe

theorem enter_follows (h : Stand w s) (ho : s.Ok) {pde : ℕ} (hp : pde ∈ s.live) (task : Space) :
    Follows PageTrap.halt Stand (w.enter pde task) (do
      let (_, s) ← s.enter pde task
      .ok s) := by
  unfold Words.enter Machine.enter
  rw [bind_assoc]
  refine (Phys.copyPde_follows (h.at hp) ho.dirs_marked).bind ?_
  rintro ⟨child, phys⟩ ⟨child', mem⟩ - ⟨he, hrep⟩
  dsimp only at he hrep ⊢
  subst he
  exact ⟨⟨pde, hrep⟩, by rw [h.live], by rw [h.space]⟩

theorem fault_follows (h : Stand w s) (ho : s.Ok) {pde : ℕ} (hp : s.UserDir pde) {vaddr : UInt32} (hin : InRange vaddr)
    (write : Bool) : Follows PageTrap.halt (fun phys s' => Stand { w with phys := phys } s')
      ((w.phys.setCr3 pde).fault (w.space pde) vaddr write) (s.fault pde vaddr write) := by
  have hv : UserAddr vaddr := .of_le hin.1 (UInt32.le_of_lt hin.2)
  have hrep := h.at hp.1
  have htask := (ho.space pde hp.1).1
  have hwalk : ((w.phys.setCr3 pde).walk vaddr).isSome = (s.walk pde vaddr).present := by
    rw [hrep.walk_entry hv.2]
    unfold Machine.walk
    cases (s.mem.entryAt (pde, didx vaddr) (tidx vaddr)).present with
    | false => rfl
    | true => rfl
  have hdir : (s.walk pde vaddr).present → (s.mem.dirs pde (didx vaddr)).present := by
    unfold Machine.walk
    exact table_of_entry
  unfold Phys.fault Machine.fault
  rw [congrFun h.space pde, hwalk]
  refine (Phys.pageFault_follows hrep ho.acct htask fun hpe _ => hdir hpe).bind ?_
  rintro phys mem hy hrel
  cases hrel with
  | none =>
    have hserves := (pageFault_serves ho.acct (ho.slot hp.1) vaddr ⟨(s.walk pde vaddr).present, write⟩).result _ hy
    exact absurd hin (hserves.1 rfl)
  | some hk => exact h.withMem hk

/-- An address of a task that is mapped lies in a frame that is kept by bytes. -/
theorem Stand.mapped (h : Stand w s) (ho : s.Ok) {pde : ℕ} (hp : pde ∈ s.live) {vaddr : UInt32} (hv : UserAddr vaddr)
    (hpe : (s.mem.entryAt (pde, didx vaddr) (tidx vaddr)).present) :
    (s.mem.entryAt (pde, didx vaddr) (tidx vaddr)).index ∉ s.live ∧
      ¬ Phys.IsTable s.live s.mem (s.mem.entryAt (pde, didx vaddr) (tidx vaddr)).index := by
  have hrep := h.at hp
  have hpd : (s.mem.dirs pde (didx vaddr)).present := table_of_entry hpe
  have hentry : s.mem.entryAt (pde, didx vaddr) (tidx vaddr) = s.mem.tables (s.mem.dirs pde (didx vaddr)).index (tidx vaddr) :=
    entryAt_of_present (x := (pde, didx vaddr)) hpd _
  obtain ⟨hlow, hnt⟩ := hrep.shape.mapped ho.acct hp hv.1 hv.2 (tidx_lt vaddr) hpd (hentry ▸ hpe)
  rw [← hentry] at hlow hnt
  refine ⟨fun hd => ?_, hnt⟩
  have := (hrep.shape.low _ hd).1
  omega

theorem setByte_follows (h : Stand w s) (ho : s.Ok) {pde : ℕ} (hp : pde ∈ s.live) {vaddr : UInt32} (hin : InRange vaddr)
    (hperm : s.permits pde vaddr true) (value : UInt8) : Follows PageTrap.halt (fun phys s' => Stand { w with phys := phys } s')
      ((w.phys.setCr3 pde).storeByte vaddr value) (.ok (s.setByte pde vaddr value) : Except Halt Machine) := by
  have hv : UserAddr vaddr := .of_le hin.1 (UInt32.le_of_lt hin.2)
  have hpe : (s.mem.entryAt (pde, didx vaddr) (tidx vaddr)).present := by
    unfold Machine.permits Machine.walk at hperm
    simp only [Bool.and_eq_true] at hperm
    exact hperm.1.1.1
  obtain ⟨hnd, hnt⟩ := h.mapped ho hp hv hpe
  unfold Phys.storeByte Phys.access
  rw [(h.at hp).walk_entry hv.2, if_pos hpe]
  exact h.withMem ((h.at hp).setByte hnd hnt _ value)

/-- What the memory becomes is put back into the machine. -/
theorem after {x : Except PageTrap Phys} {y : Except Halt Machine}
    (h : Follows PageTrap.halt (fun phys s' => Stand { w with phys := phys } s') x y) :
    Follows PageTrap.halt Stand (do
      let phys ← x
      .ok { w with phys := phys }) y := by
  cases x with
  | ok phys =>
    cases y with
    | ok s' => exact h
    | error e => exact h.elim
  | error t =>
    cases y with
    | ok s' => exact h.elim
    | error e => exact h

theorem exec_follows (h : Stand w s) (ho : s.Ok) {c : WordCall} (hc : w.Enabled c) :
    Follows PageTrap.halt Stand (w.exec c) (s.exec c.call) := by
  have hcall := h.enabled hc
  cases c with
  | userMode => exact enter_follows h ho ho.kernel.1 _
  | fork pde =>
    change Follows PageTrap.halt Stand (w.enter pde (w.space pde)) _
    rw [congrFun h.space pde]
    exact enter_follows h ho hcall.1 (s.space pde)
  | linkPage pde vaddr =>
    refine (Phys.linkPage_follows (h.at hcall.1) hcall.2).bind fun _ _ _ hrep => ?_
    exact h.withMem hrep
  | unlinkPage pde vaddr =>
    refine (Phys.unlinkPage_follows (h.at hcall.1) ho.acct hcall.2).bind fun _ _ _ hrep => ?_
    exact h.withMem hrep
  | load pde vaddr =>
    have hrep := h.at hcall.1.1
    have hperm : (w.phys.setCr3 pde).permits vaddr false = s.permits pde vaddr false := hrep.permits hcall.2 false
    have hread : Follows PageTrap.halt (fun phys s' => Stand { w with phys := phys } s')
        ((w.phys.setCr3 pde).read (w.space pde) vaddr)
        (if s.permits pde vaddr false then .ok s else s.fault pde vaddr false) := by
      unfold Phys.read
      rw [hperm]
      split_ifs
      · exact h.withMem hrep
      · exact fault_follows h ho hcall.1 hc.2 false
    exact after hread
  | store pde vaddr value =>
    have hrep := h.at hcall.1.1
    have hperm : (w.phys.setCr3 pde).permits vaddr true = s.permits pde vaddr true := hrep.permits hcall.2 true
    have hwrite : Follows PageTrap.halt (fun phys s' => Stand { w with phys := phys } s')
        ((w.phys.setCr3 pde).write (w.space pde) vaddr value)
        (if s.permits pde vaddr true then .ok (s.setByte pde vaddr value) else s.fault pde vaddr true) := by
      unfold Phys.write
      rw [hperm]
      split_ifs with hp
      · exact setByte_follows h ho hcall.1.1 hc.2 hp value
      · exact fault_follows h ho hcall.1 hc.2 true
    exact after hwrite

end Words

/-! ### Boot -/

namespace Phys

/-- One round of the inner loop of `mapping_init`. Paging is off, so frames are written directly. -/
def mapEntry (k : Phys) (didx tidx : ℕ) : Phys :=
  let index := 1024 * didx + tidx
  if index = 0 then k
  else { k.setWord (didx + 2) tidx (clearUser (entryInit index)) with
    memoryMap := Function.update k.memoryMap index 1 }

/-- One round of the outer loop, for the page table `KERNEL_PAGE_TABLE[didx]`. -/
def mapTable (k : Phys) (didx : ℕ) : Phys :=
  let k := k.setFrame (didx + 2) fun _ => 0
  let k := k.setWord KERNEL_PAGE_DIR didx (clearUser (entryInit (didx + 2)))
  (List.range 1024).foldl (fun k tidx => k.mapEntry didx tidx) k

def mappingInit (k : Phys) : Phys :=
  let k := k.setFrame KERNEL_PAGE_DIR fun _ => 0
  let k := (List.range KERNEL_DIRS).foldl mapTable k
  let k := { k with freePages := k.freePages - (KERNEL_PAGES - k.startPage) }
  let k := k.setWord KERNEL_PAGE_DIR 1023 (entryInit KERNEL_PAGE_DIR)
  k.setCr3 KERNEL_PAGE_DIR

/-- The word for the kernel page `index`. -/
def kernelWord (index : ℕ) : UInt32 := if index = 0 then 0 else clearUser (entryInit index)

/-- After `n` rounds of the inner loop, from a state where the table is clear. -/
structure MapRow (k₀ : Phys) (d n : ℕ) (k : Phys) : Prop where
  row : ∀ t < 1024, k.word (d + 2) t = if t < n then kernelWord (1024 * d + t) else 0
  byte : ∀ g, g ≠ d + 2 → k.byte g = k₀.byte g
  count : ∀ p, k.memoryMap p = if 0 < p ∧ 1024 * d ≤ p ∧ p < 1024 * d + n then 1 else k₀.memoryMap p
  consts : k.startPage = k₀.startPage ∧ k.totalPages = k₀.totalPages ∧ k.freePages = k₀.freePages ∧
    k.kernelMap = k₀.kernelMap

theorem mapRow {k₀ : Phys} {d : ℕ} (h0 : ∀ t < 1024, k₀.word (d + 2) t = 0) (n : ℕ) :
    MapRow k₀ d n ((List.range n).foldl (fun k t => k.mapEntry d t) k₀) := by
  induction n with
  | zero => exact ⟨fun t ht => h0 t ht, fun _ _ => rfl, fun p => by rw [if_neg (by omega)]; rfl, rfl, rfl, rfl, rfl⟩
  | succ n ih =>
    rw [List.range_succ, List.foldl_append]
    generalize (List.range n).foldl (fun k t => k.mapEntry d t) k₀ = k at ih ⊢
    simp only [List.foldl_cons, List.foldl_nil, mapEntry]
    by_cases hz : 1024 * d + n = 0
    · rw [if_pos hz]
      refine ⟨fun t ht => ?_, ih.byte, fun p => ?_, ih.consts⟩
      · rw [ih.row t ht]
        by_cases htn : t < n + 1
        · rw [if_neg (by omega), if_pos htn, kernelWord, if_pos (by omega)]
        · rw [if_neg (by omega), if_neg htn]
      · rw [ih.count, if_neg (by omega), if_neg (by omega)]
    · rw [if_neg hz]
      refine ⟨fun t ht => ?_, fun g hg => ?_, fun p => ?_, ih.consts⟩
      · change (k.setWord (d + 2) n _).word (d + 2) t = _
        rw [word_setWord, ih.row t ht]
        by_cases htn : t = n
        · rw [if_pos ⟨rfl, htn⟩, if_pos (by omega), htn, kernelWord, if_neg hz]
        · rw [if_neg fun he => htn he.2]
          by_cases hlt : t < n
          · rw [if_pos hlt, if_pos (by omega)]
          · rw [if_neg hlt, if_neg (by omega)]
      · exact (byte_setWord hg).trans (ih.byte g hg)
      · change Function.update k.memoryMap (1024 * d + n) 1 p = _
        rw [Function.update_apply, ih.count]
        split_ifs <;> omega

/-- After `n` rounds of the outer loop, from a state where the directory is clear. -/
structure MapTables (k₀ : Phys) (n : ℕ) (k : Phys) : Prop where
  dir : ∀ i < 1024, k.word KERNEL_PAGE_DIR i = if i < n then clearUser (entryInit (i + 2)) else 0
  rows : ∀ d < n, ∀ t < 1024, k.word (d + 2) t = kernelWord (1024 * d + t)
  byte : ∀ g, g = 0 ∨ n + 2 ≤ g → k.byte g = k₀.byte g
  count : ∀ p, k.memoryMap p = if 0 < p ∧ p < 1024 * n then 1 else k₀.memoryMap p
  consts : k.startPage = k₀.startPage ∧ k.totalPages = k₀.totalPages ∧ k.freePages = k₀.freePages ∧
    k.kernelMap = k₀.kernelMap

theorem word_of_byte {k k' : Phys} {g : ℕ} (h : k'.byte g = k.byte g) (i : ℕ) : k'.word g i = k.word g i := by
  unfold word
  rw [h]

theorem word_setCr3 (k : Phys) (pde g i : ℕ) : (k.setCr3 pde).word g i = k.word g i :=
  word_of_byte (show (k.setCr3 pde).byte g = k.byte g from rfl) i

theorem mapTables {k₀ : Phys} (h0 : ∀ i < 1024, k₀.word KERNEL_PAGE_DIR i = 0) (n : ℕ) :
    MapTables k₀ n ((List.range n).foldl mapTable k₀) := by
  have hdir : KERNEL_PAGE_DIR = 1 := rfl
  induction n with
  | zero =>
    refine ⟨fun i hi => h0 i hi, fun d hd => absurd hd (Nat.not_lt_zero d), fun _ _ => rfl, fun p => ?_, rfl, rfl, rfl, rfl⟩
    rw [if_neg (by omega)]
    rfl
  | succ n ih =>
    rw [List.range_succ, List.foldl_append]
    generalize (List.range n).foldl mapTable k₀ = k at ih ⊢
    simp only [List.foldl_cons, List.foldl_nil, mapTable]
    set k₁ := (k.setFrame (n + 2) fun _ => 0).setWord KERNEL_PAGE_DIR n (clearUser (entryInit (n + 2))) with hk₁
    have hclear : ∀ t < 1024, k₁.word (n + 2) t = 0 := by
      intro t ht
      rw [hk₁, word_setWord, if_neg (by omega), word_setFrame ht, load32_zero]
    have hbyte : ∀ g, g ≠ KERNEL_PAGE_DIR → g ≠ n + 2 → k₁.byte g = k.byte g := by
      intro g hg hg'
      rw [hk₁, byte_setWord hg, byte_setFrame hg']
    have hrow := mapRow hclear 1024
    generalize (List.range 1024).foldl (fun k t => k.mapEntry n t) k₁ = k₂ at hrow ⊢
    refine ⟨fun i hi => ?_, fun d hd t ht => ?_, fun g hg => ?_, fun p => ?_, ?_⟩
    · rw [word_of_byte (hrow.byte KERNEL_PAGE_DIR (by omega)), hk₁, word_setWord, word_setFrame_ne (by omega), ih.dir i hi]
      by_cases hin : i = n
      · rw [if_pos ⟨rfl, hin⟩, if_pos (by omega), hin]
      · rw [if_neg fun he => hin he.2]
        by_cases hlt : i < n
        · rw [if_pos hlt, if_pos (by omega)]
        · rw [if_neg hlt, if_neg (by omega)]
    · by_cases hdn : d = n
      · rw [hdn, hrow.row t ht, if_pos ht]
      · rw [word_of_byte (hrow.byte (d + 2) (by omega)), word_of_byte (hbyte (d + 2) (by omega) (by omega))]
        exact ih.rows d (by omega) t ht
    · rw [hrow.byte g (by omega), hbyte g (by omega) (by omega)]
      exact ih.byte g (by omega)
    · rw [hrow.count]
      change (if _ then 1 else k.memoryMap p) = _
      rw [ih.count]
      split_ifs <;> omega
    · obtain ⟨h1, h2, h3, h4⟩ := hrow.consts
      obtain ⟨i1, i2, i3, i4⟩ := ih.consts
      exact ⟨h1.trans i1, h2.trans i2, h3.trans i3, h4.trans i4⟩

theorem ofWord_kernelWord {index : ℕ} (h : index < 2 ^ 20) : ofWord (kernelWord index) =
    if index = 0 then .zero else { Onix.entryInit index with user := false } := by
  unfold kernelWord
  split_ifs
  · exact ofWord_zero
  · rw [ofWord_clearUser, ofWord_entryInit h]

theorem zero_present : PageEntry.zero.present = false := rfl

/-- The directory of the kernel, in the model. -/
theorem mappingInit_dirs (m : Memory) (i : ℕ) : (Memory.mappingInit m).dirs KERNEL_PAGE_DIR i =
    if i < KERNEL_DIRS then { Onix.entryInit (i + 2) with user := false }
    else if i = 1023 then Onix.entryInit KERNEL_PAGE_DIR else .zero := by
  simp only [Memory.mappingInit, Function.update_self]

/-- The tables are the four of the kernel. -/
theorem isTable_mappingInit {m : Memory} {f : ℕ} :
    IsTable {KERNEL_PAGE_DIR} (Memory.mappingInit m) f ↔ 2 ≤ f ∧ f < 6 := by
  have hdirs : KERNEL_DIRS = 4 := rfl
  constructor
  · rintro ⟨d, hd, i, hi, hp, hfi⟩
    rw [Finset.mem_singleton.mp hd, mappingInit_dirs] at hp hfi
    split_ifs at hp hfi with h1 h2
    · have : i + 2 = f := hfi
      omega
    · omega
    · rw [zero_present] at hp
      cases hp
  · rintro ⟨h2, h6⟩
    refine ⟨KERNEL_PAGE_DIR, Finset.mem_singleton_self _, f - 2, by omega, ?_, ?_⟩
    · rw [mappingInit_dirs, if_pos (by omega)]
      rfl
    · rw [mappingInit_dirs, if_pos (by omega)]
      exact Nat.sub_add_cancel h2

theorem mappingInit_tables {m : Memory} {f t : ℕ} (h2 : 2 ≤ f) (h6 : f < 6) (ht : t < 1024) :
    (Memory.mappingInit m).tables f t =
      if (f - 2) * 1024 + t = 0 then .zero else { Onix.entryInit ((f - 2) * 1024 + t) with user := false } := by
  have hdirs : KERNEL_DIRS = 4 := rfl
  change (if 2 ≤ f ∧ f < KERNEL_DIRS + 2 ∧ t < 1024 then _ else _) = _
  rw [if_pos (by omega)]
  by_cases hz : f = 2 ∧ t = 0
  · rw [if_pos hz, if_pos (by omega)]
  · rw [if_neg hz, if_neg (by omega)]

/-- What `mapping_init` leaves in the memory. -/
theorem mappingInit_rep {k : Phys} {m : Memory} (hstart : k.startPage = m.startPage) (htotal : k.totalPages = m.totalPages)
    (hfree : k.freePages = m.freePages) (hcount : k.memoryMap = m.memoryMap) (hkmap : k.kernelMap = m.kernelMap)
    (hbyte : k.byte = m.bytes) (hzero : 1 ≤ m.memoryMap 0) (hpages : m.totalPages ≤ 2 ^ 20)
    (hroom : m.kernelMap.offset = 256 ∧ m.kernelMap.length = (KERNEL_PAGES - 256) / 8) :
    Rep {KERNEL_PAGE_DIR} ∅ KERNEL_PAGE_DIR k.mappingInit (Memory.mappingInit m) := by
  have hdir : KERNEL_PAGE_DIR = 1 := rfl
  have hdirs : KERNEL_DIRS = 4 := rfl
  have hkp : KERNEL_PAGES = 4096 := rfl
  set k₀ := k.setFrame KERNEL_PAGE_DIR fun _ => 0 with hk₀
  have h0 : ∀ i < 1024, k₀.word KERNEL_PAGE_DIR i = 0 := fun i hi => by rw [hk₀, word_setFrame hi, load32_zero]
  have hmap := mapTables h0 KERNEL_DIRS
  unfold Phys.mappingInit
  dsimp only
  rw [← hk₀]
  generalize (List.range KERNEL_DIRS).foldl mapTable k₀ = k₁ at hmap ⊢
  obtain ⟨hs, ht, hf, hkm⟩ := hmap.consts
  obtain ⟨k₂, hk₂⟩ : ∃ k₂ : Phys, k₂ = { k₁ with freePages := k₁.freePages - (KERNEL_PAGES - k₁.startPage) } := ⟨_, rfl⟩
  have hbyte₂ : k₂.byte = k₁.byte := by rw [hk₂]
  have hfree₂ : k₂.freePages = k₁.freePages - (KERNEL_PAGES - k₁.startPage) := by rw [hk₂]
  have hconsts₂ : k₂.startPage = k₁.startPage ∧ k₂.totalPages = k₁.totalPages ∧ k₂.memoryMap = k₁.memoryMap ∧
      k₂.kernelMap = k₁.kernelMap := by
    rw [hk₂]
    exact ⟨rfl, rfl, rfl, rfl⟩
  rw [← hk₂]
  have hword₂ : ∀ g i, k₂.word g i = k₁.word g i := fun g i => word_of_byte (congrFun hbyte₂ g) i
  obtain ⟨hs₂, ht₂, hm₂, hkm₂⟩ := hconsts₂
  refine ⟨rfl, Finset.mem_singleton_self _, hs₂.trans (hs.trans hstart), ht₂.trans (ht.trans htotal), ?_, ?_,
    hkm₂.trans (hkm.trans hkmap), ?_, ?_, ?_, ?_⟩
  · have hf₀ : k₁.freePages = m.freePages := hf.trans hfree
    have hs₀ : k₁.startPage = m.startPage := hs.trans hstart
    rw [hf₀, hs₀] at hfree₂
    exact hfree₂
  · refine hm₂.trans (funext fun p => ?_)
    change k₁.memoryMap p = if 0 < p ∧ p < KERNEL_PAGES then 1 else m.memoryMap p
    have hsame : k₀.memoryMap p = m.memoryMap p := congrFun hcount p
    rw [hmap.count, hsame]
    split_ifs <;> omega
  · intro d hd i hi
    rw [Finset.mem_singleton.mp hd, mappingInit_dirs]
    rw [word_setCr3, word_setWord, hword₂, hmap.dir i hi]
    by_cases hi' : i = 1023
    · rw [if_pos ⟨rfl, hi'⟩, if_neg (by omega), if_pos hi']
      exact ofWord_entryInit (by decide)
    · rw [if_neg fun he => hi' he.2]
      by_cases hlt : i < KERNEL_DIRS
      · rw [if_pos hlt, if_pos hlt, ofWord_clearUser, ofWord_entryInit (by omega)]
      · rw [if_neg hlt, if_neg hlt, if_neg hi', ofWord_zero]
  · intro f hf' t ht'
    obtain ⟨h2, h6⟩ := isTable_mappingInit.mp hf'
    rw [word_setCr3, word_setWord, if_neg fun he => by omega, hword₂, mappingInit_tables h2 h6 ht']
    have hrows := hmap.rows (f - 2) (by omega) t ht'
    rw [show f - 2 + 2 = f by omega, show 1024 * (f - 2) + t = (f - 2) * 1024 + t by omega] at hrows
    rw [hrows, ofWord_kernelWord (by omega)]
  · intro f hfd _ hnt o ho
    have hf1 : f ≠ KERNEL_PAGE_DIR := fun he => hfd (Finset.mem_singleton.mpr he)
    have hf2 : f = 0 ∨ KERNEL_DIRS + 2 ≤ f := by
      by_contra hno
      exact hnt (isTable_mappingInit.mpr (by omega))
    change (k₂.setWord KERNEL_PAGE_DIR 1023 _).byte f o = m.bytes f o
    rw [byte_setWord hf1, hbyte₂, hmap.byte f hf2, hk₀, byte_setFrame hf1, hbyte]
  · refine ⟨?_, ?_, ?_, ?_, ?_, ?_, hpages, hroom⟩
    · intro d hd
      rw [Finset.mem_singleton.mp hd]
      exact ⟨by decide, .inl rfl⟩
    · intro d hd
      rw [Finset.mem_singleton.mp hd, mappingInit_dirs]
      exact ⟨rfl, rfl⟩
    · intro d hd i hi
      rw [Finset.mem_singleton.mp hd, mappingInit_dirs, if_pos hi]
      exact ⟨rfl, rfl⟩
    · intro d hd i hi hi' hp
      rw [Finset.mem_singleton.mp hd, mappingInit_dirs, if_neg (by omega), if_neg (by omega), zero_present] at hp
      cases hp
    · intro n hn hpos
      rw [mappingInit_tables (by omega) (by omega) (Nat.mod_lt _ (by decide)), if_neg (by omega)]
      refine ⟨rfl, ?_⟩
      change (n / 1024 + 2 - 2) * 1024 + n % 1024 = n
      omega
    · intro p hp
      change 1 ≤ if 0 < p ∧ p < KERNEL_PAGES then 1 else m.memoryMap p
      split_ifs with h1
      · exact le_rfl
      · have : p = 0 := by omega
        rw [this]
        exact hzero

end Phys

namespace Words

variable {w w' : Words} {s s' : Machine} {size : MemorySize} {bytes : ℕ → ℕ → UInt8}

/-- The machine after `memory_map_init` and `mapping_init`. -/
def boot (size : MemorySize) (bytes : ℕ → ℕ → UInt8) : Words :=
  let m := memoryMapInit size bytes
  let phys : Phys := ⟨bytes, 0, m.startPage, m.totalPages, m.freePages, m.memoryMap, m.kernelMap⟩
  ⟨phys.mappingInit, {KERNEL_PAGE_DIR}, (Machine.boot size bytes).space⟩

theorem boot_stand (size : MemorySize) (bytes : ℕ → ℕ → UInt8) : Stand (boot size bytes) (Machine.boot size bytes) := by
  have hsize := size.addressable
  have hpos : 0 < (size.pages + 256 + 4095) / 4096 := by omega
  have hzero : 1 ≤ (memoryMapInit size bytes).memoryMap 0 := by
    change 1 ≤ if 0 < 256 + (size.pages + 256 + 4095) / 4096 then 1 else 0
    rw [if_pos (by omega)]
  have htotal : (memoryMapInit size bytes).totalPages = size.pages + 256 := rfl
  have hbytes : (memoryMapInit size bytes).bytes = bytes := rfl
  have hroom : (memoryMapInit size bytes).kernelMap = kernelMapInit ((size.pages + 256 + 4095) / 4096) := by
    simp only [memoryMapInit]
  have hfits : (memoryMapInit size bytes).totalPages ≤ 2 ^ 20 := htotal ▸ hsize
  have hkmap := Machine.kernelMapInit_size hpos
  rw [← hroom] at hkmap
  unfold boot Machine.boot
  dsimp only
  generalize memoryMapInit size bytes = m at *
  have hrep := Phys.mappingInit_rep (k := ⟨bytes, 0, m.startPage, m.totalPages, m.freePages, m.memoryMap, m.kernelMap⟩)
    (m := m) rfl rfl rfl rfl rfl hbytes.symm hzero hfits hkmap
  refine ⟨⟨KERNEL_PAGE_DIR, hrep⟩, rfl, rfl⟩

theorem run_stand {cs : List WordCall} (h : Run (· = boot size bytes) Step cs w) :
    ∃ s, Run (· = Machine.boot size bytes) Machine.Step (cs.map WordCall.call) s ∧ Stand w s ∧ s.Ok := by
  have hok := (Machine.booted_ok ⟨size, bytes, rfl⟩).1
  refine Run.follow (ρ := fun w s => Stand w s ∧ s.Ok) WordCall.call ⟨boot_stand size bytes, hok⟩ ?_ h
  rintro w s c w' ⟨hst, ho⟩ ⟨hen, hex⟩
  obtain ⟨s', hs', hst'⟩ := (exec_follows hst ho hen).ok_iff.1 w' hex
  exact ⟨s', ⟨hst.enabled hen, hs'⟩, hst', ((Machine.exec_spec ho c.call (hst.enabled hen)).result s' hs').ok⟩

theorem Stand.step (h : Stand w s) (ho : s.Ok) {c : WordCall} (hc : w.Enabled c) (hs : s.exec c.call = .ok s') :
    ∃ w', Step w c w' ∧ Stand w' s' ∧ s'.Ok := by
  obtain ⟨w', hw', hst⟩ := (exec_follows h ho hc).ok_iff.2 s' hs
  exact ⟨w', ⟨hc, hw'⟩, hst, ((Machine.exec_spec ho c.call (h.enabled hc)).result s' hs).ok⟩

/-- A task with a page and its fork, with 16M of memory. -/
theorem small_run : ∃ w, Run (· = boot ⟨4096, le_rfl, by decide⟩ fun _ _ => 0) Step
    [.userMode, .linkPage 258 USER_EXEC_ADDR, .fork 258] w ∧ 258 ∈ w.live := by
  have hall : (Machine.smallMachine.exec .userMode).toOption.any fun s₁ =>
      (s₁.exec (.linkPage 258 USER_EXEC_ADDR)).toOption.any fun s₂ =>
        (s₂.exec (.fork 258)).toOption.any fun s₃ =>
          decide (258 ∈ s₁.live) && decide (258 ∈ s₂.live) && (s₂.space 258).user && decide (258 ∈ s₃.live) := by
    decide +kernel
  cases h₁ : Machine.smallMachine.exec .userMode with
  | error e => simp [h₁, Except.toOption] at hall
  | ok s₁ =>
    cases h₂ : s₁.exec (.linkPage 258 USER_EXEC_ADDR) with
    | error e => simp [h₁, h₂, Except.toOption] at hall
    | ok s₂ =>
      cases h₃ : s₂.exec (.fork 258) with
      | error e => simp [h₁, h₂, h₃, Except.toOption] at hall
      | ok s₃ =>
        simp only [h₁, h₂, h₃, Except.toOption, Option.any_some, Bool.and_eq_true, decide_eq_true_eq] at hall
        obtain ⟨⟨⟨hl₁, hl₂⟩, huser⟩, hl₃⟩ := hall
        have hok := (Machine.booted_ok ⟨⟨4096, le_rfl, by decide⟩, fun _ _ => 0, rfl⟩).1
        obtain ⟨w₁, hw₁, hst₁, ho₁⟩ := (boot_stand ⟨4096, le_rfl, by decide⟩ fun _ _ => 0).step hok
          (c := .userMode) trivial h₁
        obtain ⟨w₂, hw₂, hst₂, ho₂⟩ := hst₁.step ho₁ (c := .linkPage 258 USER_EXEC_ADDR)
          ⟨hst₁.live ▸ hl₁, by decide⟩ h₂
        obtain ⟨w₃, hw₃, hst₃, -⟩ := hst₂.step ho₂ (c := .fork 258) ⟨hst₂.live ▸ hl₂, hst₂.space ▸ huser⟩ h₃
        have hrun : Run (· = boot ⟨4096, le_rfl, by decide⟩ fun _ _ => 0) Step [] _ := .nil rfl
        exact ⟨w₃, ((hrun.snoc hw₁).snoc hw₂).snoc hw₃, hst₃.live ▸ hl₃⟩

/-- In every run from boot, the words of the memory and the walk of the processor are what the machine of the model has:
the same run is one of the machine, and each task finds there what it finds here. -/
theorem paging_refines {cs : List WordCall} (h : Run (· = boot size bytes) Step cs w) :
    ∃ s, Run (· = Machine.boot size bytes) Machine.Step (cs.map WordCall.call) s ∧ w.live = s.live ∧
      (∀ pde ∈ w.live, ∀ vaddr, UserAddr vaddr →
        (w.phys.setCr3 pde).loadByte vaddr = ((s.byteAt pde vaddr).elim (.error (.unmapped vaddr)) .ok : Except PageTrap UInt8) ∧
        ∀ write, (w.phys.setCr3 pde).permits vaddr write = s.permits pde vaddr write) ∧
      ∀ c, w.Enabled c → ∀ t, w.exec c = .error t → ∃ e, t = .halt e ∧ s.exec c.call = .error e := by
  obtain ⟨s, hrun, hst, ho⟩ := run_stand h
  refine ⟨s, hrun, hst.live, fun pde hp vaddr hv => ?_, fun c hc t ht => ?_⟩
  · rw [hst.live] at hp
    have hrep := hst.at hp
    refine ⟨?_, fun write => hrep.permits hv.2 write⟩
    unfold Phys.loadByte Phys.access Machine.byteAt Machine.walk
    rw [hrep.walk_entry hv.2]
    split_ifs with hpe
    · obtain ⟨hnd, hnt⟩ := hst.mapped ho hp hv hpe
      exact congrArg Except.ok (hrep.data _ hnd (fun hx => hx) hnt _ (Nat.mod_lt _ (by decide)))
    · rfl
  · have hf := exec_follows hst ho hc
    rw [ht] at hf
    cases hs : s.exec c.call with
    | ok s' =>
      rw [hs] at hf
      exact hf.elim
    | error e =>
      rw [hs] at hf
      exact ⟨e, hf, rfl⟩

theorem paging_refines_fork : ∃ (w : Words) (s : Machine), Run (· = Machine.boot ⟨4096, le_rfl, by decide⟩ fun _ _ => 0) Machine.Step
      [.userMode, .linkPage 258 USER_EXEC_ADDR, .fork 258] s ∧ 258 ∈ w.live ∧ w.live = s.live ∧
    ∀ pde ∈ w.live, ∀ write, (w.phys.setCr3 pde).permits USER_EXEC_ADDR write = s.permits pde USER_EXEC_ADDR write := by
  obtain ⟨w, hw, hl⟩ := small_run
  obtain ⟨s, hs, hlive, hsame, -⟩ := paging_refines hw
  exact ⟨w, s, hs, hl, hlive, fun pde hp => (hsame pde hp USER_EXEC_ADDR (by decide)).2⟩

/-- In every run from boot the window shows the page tables: the linear address that `get_entry` computes for an address is
that of the word the processor walks through, and it is not mapped where there is no page table. -/
theorem window_shows_tables {cs : List WordCall} (h : Run (· = boot size bytes) Step cs w) {pde : ℕ} (hp : pde ∈ w.live)
    (vaddr : UInt32) : (w.phys.setCr3 pde).walk (Phys.element (Phys.tableAddr (didx vaddr)) (tidx vaddr)) =
      (if (PageEntry.ofWord (w.phys.word pde (didx vaddr))).present
        then some (PageEntry.ofWord (w.phys.word pde (didx vaddr))).index else none) ∧
      (Phys.element (Phys.tableAddr (didx vaddr)) (tidx vaddr)).toNat % 4096 / 4 = tidx vaddr := by
  obtain ⟨s, -, hst, -⟩ := run_stand h
  have hrep := hst.at (hst.live ▸ hp)
  have hi : didx vaddr < 1024 := Nat.mod_lt _ (by decide)
  refine ⟨?_, (Phys.element_tableAddr hi (tidx_lt vaddr)).2.2⟩
  rw [hrep.walk_window hi (tidx_lt vaddr), ← hrep.dir pde hrep.live _ hi, Phys.word_setCr3]

theorem window_shows_tables_fork : ∃ w : Words, 258 ∈ w.live ∧
    (w.phys.setCr3 258).walk (Phys.element (Phys.tableAddr 4) 0) =
      if (PageEntry.ofWord (w.phys.word 258 4)).present then some (PageEntry.ofWord (w.phys.word 258 4)).index
      else none := by
  obtain ⟨w, hw, hl⟩ := small_run
  exact ⟨w, hl, (window_shows_tables hw hl USER_EXEC_ADDR).1⟩

end Words
end Onix
