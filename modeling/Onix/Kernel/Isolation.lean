import Onix.Kernel.AddressSpace

/-! Copy-on-write isolation. It holds as long as `sys_mmap` is not asked to make a page
writable that a fork shares: unlike `page_fault`, it does not look at the count. -/

set_option autoImplicit false

namespace Onix
namespace Machine

open Memory Lib Finset

/-- A page of two address spaces is read-only where it is not marked shared. -/
def Isolated (s : Machine) : Prop :=
  ∀ d ∈ s.live, ∀ d' ∈ s.live, d ≠ d' → ∀ vaddr vaddr', UserAddr vaddr → UserAddr vaddr' →
    (s.walk d vaddr).present → (s.walk d' vaddr').present → (s.walk d vaddr).index = (s.walk d' vaddr').index →
    (s.walk d vaddr).shared = false → (s.walk d vaddr).write = false

/-- A write from user mode to a page that is not shared is seen in no other address space. -/
def Unseen (s : Machine) : Prop :=
  ∀ pde vaddr value s', Step s (.store pde vaddr value) s' → UserAddr vaddr → s.permits pde vaddr true →
    (s.walk pde vaddr).shared = false → ∀ d ∈ s.live, d ≠ pde → ∀ vaddr', UserAddr vaddr' →
      s'.byteAt d vaddr' = s.byteAt d vaddr'

variable {s s' : Machine}

theorem run_cow {es : List Call} (h : Run Booted (Restrict Alone Step) es s) : s.Ok ∧ Cow s.mem (slots s.live) := by
  refine Run.invariant (I := fun s => s.Ok ∧ Cow s.mem (slots s.live)) (fun s hs => booted_ok hs) ?_ es s h
  rintro s c s' ⟨hs, hcow⟩ ⟨halone, hc, he⟩
  obtain ⟨hok, hnext⟩ := (exec_spec hs c hc).result s' he
  exact ⟨hok, hnext halone hcow⟩

theorem mem_slots_of_user {d : ℕ} {vaddr : UInt32} (hd : d ∈ s.live) (hu : UserAddr vaddr) :
    (d, didx vaddr) ∈ slots s.live := mem_slots.mpr ⟨hd, hu⟩

/-- A frame with count 1 is mapped by one address space. -/
theorem Ok.mapped_once (h : s.Ok) {d d' : ℕ} (hd : d ∈ s.live) (hd' : d' ∈ s.live) (hne : d ≠ d')
    {vaddr vaddr' : UInt32} (hu : UserAddr vaddr) (hu' : UserAddr vaddr') (hp : (s.walk d vaddr).present)
    (hp' : (s.walk d' vaddr').present) (h1 : s.mem.memoryMap (s.walk d vaddr).index = 1) :
    (s.walk d vaddr).index ≠ (s.walk d' vaddr').index := by
  intro he
  have hx := mem_slots_of_user hd hu
  have hy := mem_slots_of_user hd' hu'
  have hk := (h.acct.mapped _ hx _ (tidx_lt vaddr) hp).1
  have htwo := two_refs hx hy (tidx_lt vaddr) (tidx_lt vaddr') (fun hc => hne (congrArg Prod.fst hc.1)) (refOf_self hp)
    (by rw [show (s.mem.entryAt (d, didx vaddr) (tidx vaddr)).index = _ from he]; exact refOf_self hp')
  have hcount := h.acct.count _ hk
  change s.mem.memoryMap (s.walk d vaddr).index = _ at hcount
  rw [h1] at hcount
  change 1 = s.mem.total (slots s.live) (s.walk d vaddr).index + 0 at hcount
  change 2 ≤ s.mem.total (slots s.live) (s.walk d vaddr).index at htwo
  omega

theorem isolated_of_cow (h : s.Ok) (hcow : Cow s.mem (slots s.live)) : s.Isolated := by
  intro d hd d' hd' hne vaddr vaddr' hu hu' hp hp' he hs
  by_contra hw
  have hw : (s.walk d vaddr).write = true := by simpa using hw
  have h1 := hcow _ (mem_slots_of_user hd hu) _ (tidx_lt vaddr) hp hw hs
  exact h.mapped_once hd hd' hne hu hu' hp hp' h1 he

theorem unseen_of_cow (h : s.Ok) (hcow : Cow s.mem (slots s.live)) : s.Unseen := by
  rintro pde vaddr value s' ⟨⟨hdir, -⟩, he⟩ hu hperm hs d hd hne vaddr' hu'
  simp only [exec, hperm, if_true, Except.ok.injEq] at he
  subst he
  have hwalk : (s.setByte pde vaddr value).walk d vaddr' = s.walk d vaddr' := rfl
  simp only [permits, Bool.and_eq_true, Bool.not_true, Bool.false_or] at hperm
  obtain ⟨⟨⟨hp, -⟩, -⟩, hw, -⟩ := hperm
  have h1 := hcow _ (mem_slots_of_user hdir.1 hu) _ (tidx_lt vaddr) hp hw hs
  unfold byteAt
  rw [hwalk]
  split_ifs with hp'
  · have hframe := h.mapped_once hdir.1 hd hne.symm hu hu' hp hp' h1
    simp only [setByte, Function.update_of_ne hframe.symm]
  · rfl

/-- Over every run in which `sys_mmap` makes only pages writable that no fork shares. -/
theorem cow_isolation {es : List Call} (h : Run Booted (Restrict Alone Step) es s) : s.Isolated ∧ s.Unseen :=
  have ⟨hok, hcow⟩ := run_cow h
  ⟨isolated_of_cow hok hcow, unseen_of_cow hok hcow⟩

/-! ### Runs -/

/-- The task in directory 258 maps a page, forks 259, and maps the page again. -/
def mapTwice : List Call :=
  [.userMode, .mmap 258 USER_MMAP_ADDR 1 PROT_WRITE MAP_PRIVATE, .fork 258,
    .mmap 258 USER_MMAP_ADDR 1 PROT_WRITE MAP_PRIVATE]

theorem mmap_breaks_isolation : ¬ ∀ es s, Run Booted Step es s → s.Isolated ∧ s.Unseen := by
  intro hall
  have hsome : ((replay (attempt false) smallMachine mapTwice).map fun r => decide
      (259 ∈ r.2.live ∧ r.2.UserDir 258 ∧ r.2.permits 258 USER_MMAP_ADDR true ∧
        (r.2.walk 258 USER_MMAP_ADDR).shared = false ∧ r.2.byteAt 259 USER_MMAP_ADDR = some 0 ∧
        (r.2.setByte 258 USER_MMAP_ADDR 7).byteAt 259 USER_MMAP_ADDR = some 7)) = some true := by
    decide +kernel
  obtain ⟨⟨es, s⟩, hes, hd⟩ := Option.map_eq_some_iff.mp hsome
  obtain ⟨hlive, hdir, hperm, hs, h0, h7⟩ := of_decide_eq_true hd
  have hr := smallMachine_run hes
  have hstore : Step s (.store 258 USER_MMAP_ADDR 7) (s.setByte 258 USER_MMAP_ADDR 7) :=
    ⟨⟨hdir, by decide⟩, if_pos hperm⟩
  have := (hall es s hr).2 258 _ 7 _ hstore (by decide) hperm hs 259 hlive (by decide) USER_MMAP_ADDR (by decide)
  rw [h0, h7] at this
  cases this

/-- After the fork the child writes to the page, twice: a fault, and a write to its copy. -/
theorem cow_isolation_fork : ∃ es s, Run Booted (Restrict Alone Step) es s ∧
    s.byteAt 258 USER_MMAP_ADDR = some 0 ∧ s.byteAt 259 USER_MMAP_ADDR = some 7 ∧ s.Isolated ∧ s.Unseen := by
  have hsome : ((replay (attempt true) smallMachine (mapTwice.take 3 ++
      [.store 259 USER_MMAP_ADDR 7, .store 259 USER_MMAP_ADDR 7])).map fun r =>
        (r.2.byteAt 258 USER_MMAP_ADDR, r.2.byteAt 259 USER_MMAP_ADDR)) = some (some 0, some 7) := by
    decide +kernel
  obtain ⟨⟨es, s⟩, hes, hb⟩ := Option.map_eq_some_iff.mp hsome
  obtain ⟨h0, h7⟩ := Prod.mk.inj hb
  have hr : Run Booted (Restrict Alone Step) es s := by
    have hstep : ∀ s c c' s', attempt true s c = some (c', s') → Restrict Alone Step s c' s' :=
      fun _ _ _ _ h => ⟨(attempt_step h).2 rfl, (attempt_step h).1⟩
    simpa using Run.replay hstep _ smallMachine [] es s (.nil ⟨_, _, rfl⟩) hes
  exact ⟨es, s, hr, h0, h7, cow_isolation hr⟩

end Machine
end Onix
