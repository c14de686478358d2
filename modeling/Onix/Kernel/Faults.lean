import Onix.Kernel.AddressSpace

/-! Which page faults of a user task the kernel survives. A fault outside of user
space ends the task; every other one must find a page to make writable or a frame
to map, and the checks on the way are assertions and panics, which stop the kernel. -/

set_option autoImplicit false

namespace Onix

open Memory Lib Finset

namespace Memory

variable {m m' : Memory} {S : Finset (ℕ × ℕ)} {extra : ℕ → ℕ}

/-- `get_page` finds a frame exactly when `free_pages` counts one. -/
theorem FreeOk.getPage_iff (h : m.FreeOk) : (∃ q, m.getPage = .ok (q, m.taken q) ∧ m.memoryMap q = 0 ∧
    q ∈ Ico m.startPage m.totalPages) ∧ 0 < m.freePages ∨
      m.getPage = .error (.panic "Out of Memory!!!") ∧ m.freePages = 0 := by
  unfold getPage
  cases hf : (List.range' m.startPage (m.totalPages - m.startPage)).find? fun i => m.memoryMap i = 0 with
  | none =>
    refine .inr ⟨rfl, ?_⟩
    rw [h, card_eq_zero, filter_eq_empty_iff]
    intro q hq
    obtain ⟨h1, h2⟩ := mem_Ico.mp hq
    simpa using List.find?_eq_none.mp hf q (List.mem_range'_1.mpr ⟨h1, by omega⟩)
  | some q =>
    have h0 : m.memoryMap q = 0 := by simpa using List.find?_some hf
    have hm := List.mem_range'_1.mp (List.mem_of_find?_eq_some hf)
    have hq : q ∈ Ico m.startPage m.totalPages := mem_Ico.mpr ⟨hm.1, by omega⟩
    refine .inl ⟨⟨q, rfl, h0, hq⟩, ?_⟩
    rw [h, card_pos]
    exact ⟨q, mem_filter.mpr ⟨hq, h0⟩⟩

/-- The frames that `link_page` takes for an entry that maps none. -/
def linkCost (m : Memory) (x : ℕ × ℕ) : ℕ := if (m.dentry x).present then 1 else 2

theorem linkPage_returns (h : Acct m S extra) {pde : ℕ} {vaddr : UInt32} (hx : (pde, didx vaddr) ∈ S)
    (ha : aligned vaddr) (hp : (m.entryAt (pde, didx vaddr) (tidx vaddr)).present = false) :
    (∃ m', m.linkPage pde vaddr = .ok m') ↔ m.linkCost (pde, didx vaddr) ≤ m.freePages := by
  unfold linkPage linkCost
  rw [ha, assert_true, ok_bind]
  by_cases hd : (m.dentry (pde, didx vaddr)).present
  · rw [if_pos hd, getPte_eq hd, ok_bind]
    dsimp only
    rw [← entryAt_of_present hd, if_neg (by simp [hp])]
    rcases h.free.getPage_iff with ⟨⟨q, hq, -⟩, hpos⟩ | ⟨hq, hzero⟩
    · rw [hq]
      exact ⟨fun _ => hpos, fun _ => ⟨_, rfl⟩⟩
    · rw [hq, hzero]
      refine ⟨?_, fun hc => absurd hc (by decide)⟩
      rintro ⟨m', h'⟩
      cases h'
  · rw [if_neg hd]
    have hd' : (m.dirs pde (didx vaddr)).present = false := by simpa [dentry] using hd
    have hspec := getPte_spec h hx
    simp only [getPte, hd', Bool.true_or, assert_true, ok_bind, Bool.not_false, if_true] at hspec ⊢
    rcases h.free.getPage_iff with ⟨⟨q, hq, h0, hin⟩, hpos⟩ | ⟨hq, hzero⟩
    · rw [hq] at hspec ⊢
      simp only [ok_bind] at hspec ⊢
      obtain ⟨hacct, -⟩ := meets_ok.mp hspec
      dsimp only at *
      set m₁ := { (m.taken q).setDentry pde (didx vaddr) (entryInit q) with
        tables := Function.update ((m.taken q).setDentry pde (didx vaddr) (entryInit q)).tables q fun _ => .zero } with hm₁
      have hfree : m₁.freePages = m.freePages - 1 := rfl
      rw [if_neg (by simp [PageEntry.zero])]
      rcases hacct.free.getPage_iff with ⟨⟨q', hq', -⟩, hpos'⟩ | ⟨hq', hzero'⟩
      · rw [hq']
        exact ⟨fun _ => by omega, fun _ => ⟨_, rfl⟩⟩
      · rw [hq']
        refine ⟨?_, fun hc => absurd hc (by omega)⟩
        rintro ⟨m', h'⟩
        cases h'
    · rw [hq, hzero]
      refine ⟨?_, fun hc => absurd hc (by decide)⟩
      rintro ⟨m', h'⟩
      cases h'

theorem copyPage_returns (h : Acct m S extra) {x : ℕ × ℕ} (hx : x ∈ S) (page : ℕ) :
    (∃ r, m.copyPage x.1 page = .ok r) ↔ 0 < m.freePages := by
  unfold copyPage
  rcases h.free.getPage_iff with ⟨⟨q, hq, -⟩, hpos⟩ | ⟨hq, hzero⟩
  · have hk : ((m.taken q).dentry (x.1, didx 0)).present := (h.kernelDir x hx).1
    rw [hq, ok_bind]
    dsimp only
    rw [getPte_eq hk]
    exact ⟨fun _ => hpos, fun _ => ⟨_, rfl⟩⟩
  · rw [hq, hzero]
    exact ⟨nofun, nofun⟩

/-- When a fault stops nothing: the address is one no task may have, or a write meets a page of the
task that may become writable and, if others use it, a frame for a copy, or the address is one of
the heap or of the stack and there are the frames to map it. -/
def Served (m : Memory) (task : Space) (vaddr : UInt32) (code : FaultCode) : Prop :=
  let entry := m.entryAt (task.pde, didx vaddr) (tidx vaddr)
  ¬ InRange vaddr ∨
  code.present = true ∧ code.write = true ∧ entry.present = true ∧ entry.shared = false ∧ entry.readonly = false ∧
    (m.memoryMap entry.index = 1 ∨ 0 < m.freePages) ∨
  code.present = false ∧ (vaddr < task.brk ∨ vaddr ≥ USER_STACK_BOTTOM) ∧
    m.linkCost (task.pde, didx vaddr) ≤ m.freePages

theorem aligned_pageOf (vaddr : UInt32) : aligned (pageOf vaddr) := by
  have hmod : (pageOf vaddr % PAGE_SIZE).toNat = 0 := by
    rw [UInt32.toNat_mod, toNat_pageOf]
    exact Nat.mul_mod_left _ _
  unfold aligned
  exact beq_iff_eq.mpr (UInt32.toNat_inj.mp hmod)

theorem pageFault_returns (h : Acct m S extra) {task : Space} (hS : ∀ vaddr, UserAddr vaddr → (task.pde, didx vaddr) ∈ S)
    (hu : task.user) (vaddr : UInt32) (code : FaultCode)
    (hcode : code.present = (m.entryAt (task.pde, didx vaddr) (tidx vaddr)).present) :
    (∃ r, m.pageFault task vaddr code = .ok r) ↔ m.Served task vaddr code := by
  unfold pageFault Served
  by_cases hr : vaddr < USER_EXEC_ADDR ∨ vaddr ≥ USER_STACK_TOP
  · have hout : ¬ InRange vaddr := fun hin => hr.elim (UInt32.not_lt.mpr hin.1) (UInt32.not_le.mpr hin.2)
    rw [if_pos hr, hu]
    exact ⟨fun _ => .inl hout, fun _ => ⟨none, rfl⟩⟩
  rw [if_neg hr]
  rw [not_or, UInt32.not_lt, UInt32.not_le] at hr
  have hx := hS vaddr (.of_le hr.1 (UInt32.le_of_lt hr.2))
  have hin : InRange vaddr := hr
  set x := (task.pde, didx vaddr) with hxdef
  set t := tidx vaddr
  have ht : t < 1024 := tidx_lt vaddr
  cases hpc : code.present with
  | true =>
    have hp : (m.entryAt x t).present := by rw [← hcode, hpc]
    have hd : (m.dentry x).present := by
      by_contra hd
      rw [entryAt_absent (by simpa using hd)] at hp
      cases hp
    have hpos : m.memoryMap (m.entryAt x t).index > 0 := h.mapped_pos hx ht hp
    rw [if_pos rfl, getPte_eq hd]
    simp only [ok_bind]
    rw [← entryAt_of_present hd, hp, decide_eq_true hpos]
    simp only [assert_true, ok_bind, not_not.mpr hin, false_or, true_and, Bool.true_eq_false, false_and, or_false]
    cases hw : code.write with
    | false => simp [assert]
    | true =>
      cases hs : (m.entryAt x t).shared with
      | true => simp [assert]
      | false =>
        cases hro : (m.entryAt x t).readonly with
        | true => simp [assert]
        | false =>
          simp only [Bool.not_false, assert_true, ok_bind, true_and]
          split_ifs with h1
          · simp [h1]
          · rw [← copyPage_returns h hx (m.entryAt x t).index, or_iff_right h1]
            constructor
            · rintro ⟨r, hr⟩
              obtain ⟨a, ha, -⟩ := bind_ok.mp hr
              exact ⟨a, ha⟩
            · rintro ⟨a, ha⟩
              rw [ha]
              exact ⟨_, rfl⟩
  | false =>
    have hp : (m.entryAt x t).present = false := by rw [← hcode, hpc]
    have hslot : (task.pde, didx (pageOf vaddr)) = x := by rw [pageOf_slot.1]
    have hlink : (∃ m', m.linkPage task.pde (pageOf vaddr) = .ok m') ↔ m.linkCost x ≤ m.freePages := by
      rw [← hslot]
      exact linkPage_returns h (by rw [hslot]; exact hx) (aligned_pageOf vaddr) (by rw [hslot, pageOf_slot.2]; exact hp)
    simp only [Bool.false_eq_true, if_false, not_not.mpr hin, false_and, false_or, true_and]
    split_ifs with hgrow
    · rw [and_iff_right hgrow, ← hlink]
      constructor
      · rintro ⟨r, hr⟩
        obtain ⟨a, ha, -⟩ := bind_ok.mp hr
        exact ⟨a, ha⟩
      · rintro ⟨a, ha⟩
        rw [ha]
        exact ⟨_, rfl⟩
    · refine ⟨?_, fun hc => absurd hc.1 hgrow⟩
      rintro ⟨r, hr⟩
      exact hr.elim

end Memory

namespace Machine

variable {s s' : Machine}

/-- The kernel goes on after the fault: either the task is gone, or the address is mapped, writable if
that was what the task asked for. -/
def Survives (s : Machine) (pde : ℕ) (vaddr : UInt32) (write : Bool) : Prop :=
  ∃ s', s.fault pde vaddr write = .ok s' ∧
    (pde ∉ s'.live ∨ (s'.walk pde vaddr).present = true ∧ (write = true → (s'.walk pde vaddr).write = true))

theorem exit_returns (h : s.Ok) {pde : ℕ} (hp : s.UserDir pde) : ∃ s', s.exit pde = .ok s' ∧ pde ∉ s'.live := by
  have hne := (h.user_ne hp).symm
  obtain ⟨mem, hmem, -⟩ := (freePde_spec h.acct hp.1 (h.marked pde hp.1 hne) fun _ => True).returns
  refine ⟨{ s with mem := mem, live := s.live.erase pde }, ?_, notMem_erase pde _⟩
  unfold exit
  rw [hp.2, hmem]
  rfl

/-- A fault of a user task ends the task, or serves it, exactly when `Served` says so; else it is a
panic or a failed assertion. -/
theorem page_fault_survives (h : Reachable Booted Step s) (pde : ℕ) (hp : s.UserDir pde) (vaddr : UInt32) (write : Bool) :
    s.Survives pde vaddr write ↔ s.mem.Served (s.space pde) vaddr ⟨(s.walk pde vaddr).present, write⟩ := by
  have hok := run_ok h
  have hpde : (s.space pde).pde = pde := (hok.space pde hp.1).1
  have hcode : (s.walk pde vaddr).present = (s.mem.entryAt ((s.space pde).pde, didx vaddr) (tidx vaddr)).present := by
    rw [hpde]
    rfl
  rw [← pageFault_returns hok.acct (hok.slot hp.1) hp.2 vaddr ⟨_, write⟩ hcode]
  constructor
  · rintro ⟨s', hs', -⟩
    obtain ⟨r, hr, -⟩ := bind_ok.mp hs'
    exact ⟨r, hr⟩
  · rintro ⟨r, hr⟩
    have hserves := (pageFault_serves hok.acct (hok.slot hp.1) vaddr ⟨_, write⟩).result r hr
    unfold Survives fault
    rw [hr, ok_bind]
    cases r with
    | none =>
      obtain ⟨s', hs', hgone⟩ := exit_returns hok hp
      exact ⟨s', hs', .inl hgone⟩
    | some mem =>
      obtain ⟨-, -, -, -, hserve⟩ := hserves.2 mem rfl
      rw [hpde] at hserve
      exact ⟨_, rfl, .inr ⟨hserve.mapped, fun _ => hserve.write rfl⟩⟩

/-- A task reads from an address between its heap and the area of `sys_mmap`. -/
theorem page_fault_panics : ¬ ∀ s, Reachable Booted Step s → ∀ pde, s.UserDir pde → ∀ vaddr write,
    s.permits pde vaddr write = false → s.Survives pde vaddr write := by
  intro hall
  have hsome : ((replay (attempt false) smallMachine [.userMode]).map fun r => decide
      (r.2.UserDir 258 ∧ r.2.permits 258 USER_MMAP_ADDR false = false ∧
        (r.2.fault 258 USER_MMAP_ADDR false).toOption.isNone)) = some true := by
    decide +kernel
  obtain ⟨⟨es, s⟩, hes, hd⟩ := Option.map_eq_some_iff.mp hsome
  obtain ⟨hdir, hperm, hnone⟩ := of_decide_eq_true hd
  have hr := smallMachine_run hes
  obtain ⟨s', hs', -⟩ := hall s ⟨es, hr⟩ 258 hdir _ _ hperm
  rw [hs'] at hnone
  cases hnone

/-- The same task reads from its stack, which is served; `page_fault` maps the page. -/
theorem page_fault_stack : ∃ s, Reachable Booted Step s ∧ s.UserDir 258 ∧ s.Survives 258 USER_STACK_BOTTOM false := by
  have hsome : ((replay (attempt false) smallMachine [.userMode]).map fun r => decide
      (r.2.UserDir 258 ∧ (r.2.walk 258 USER_STACK_BOTTOM).present = false ∧
        r.2.mem.linkCost ((r.2.space 258).pde, didx USER_STACK_BOTTOM) ≤ r.2.mem.freePages)) = some true := by
    decide +kernel
  obtain ⟨⟨es, s⟩, hes, hd⟩ := Option.map_eq_some_iff.mp hsome
  obtain ⟨hdir, habsent, hcost⟩ := of_decide_eq_true hd
  have hr := smallMachine_run hes
  exact ⟨s, ⟨es, hr⟩, hdir, (page_fault_survives ⟨es, hr⟩ 258 hdir USER_STACK_BOTTOM false).mpr
    (.inr (.inr ⟨habsent, .inr (UInt32.le_refl _), hcost⟩))⟩

end Machine
end Onix
