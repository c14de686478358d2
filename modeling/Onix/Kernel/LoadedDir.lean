import Onix.Kernel.AddressSpace

/-! The page directory in `cr3`. `task_activate` loads the one of the task it switches
to, and `task_exit` gives it back by `free_pde` while it is still loaded: until the next
`schedule` the kernel runs in a directory whose page `kernel_map` calls free. -/

set_option autoImplicit false

namespace Onix

open Memory Lib Finset

namespace Machine

/-- The directory that is loaded when the call is made. -/
def Call.dir : Call → Option ℕ
  | .userMode => some KERNEL_PAGE_DIR
  | .fork pde | .exit pde | .linkPage pde _ | .unlinkPage pde _ | .load pde _ | .store pde _ _ | .kernelStore pde _ _
  | .brk pde _ | .mmap pde _ _ _ _ | .munmap pde _ _ | .execve pde | .loadSegment pde _ _ _ _ _ => some pde
  | .allocKpage _ | .freeKpage _ _ => none

/-- An address for which `page_fault` ends the task. -/
def Segfault (vaddr : UInt32) : Prop := vaddr < USER_EXEC_ADDR ∨ vaddr ≥ USER_STACK_TOP

instance (vaddr : UInt32) : Decidable (Segfault vaddr) :=
  inferInstanceAs (Decidable (vaddr < USER_EXEC_ADDR ∨ vaddr ≥ USER_STACK_TOP))

/-- The call gets to `free_pde`: it is `task_exit`, or an access that makes `page_fault` call it. -/
def Ends (s : Machine) : Call → Prop
  | .exit _ => True
  | .load pde vaddr => s.permits pde vaddr false = false ∧ Segfault vaddr
  | .store pde vaddr _ => s.permits pde vaddr true = false ∧ Segfault vaddr
  | .kernelStore pde vaddr _ => (s.walk pde vaddr).present = false ∧ Segfault vaddr
  | _ => False

variable {s s' : Machine}

theorem fault_live {pde : ℕ} {vaddr : UInt32} {write : Bool} (h : s.fault pde vaddr write = .ok s')
    (hv : ¬ Segfault vaddr) : s'.live = s.live := by
  unfold fault at h
  obtain ⟨r, hr, h⟩ := bind_ok.mp h
  cases r with
  | none =>
    unfold pageFault at hr
    unfold Segfault at hv
    rw [if_neg hv] at hr
    split_ifs at hr
    · obtain ⟨_, -, hr⟩ := bind_ok.mp hr
      obtain ⟨_, -, hr⟩ := bind_ok.mp hr
      obtain ⟨_, -, hr⟩ := bind_ok.mp hr
      obtain ⟨_, -, hr⟩ := bind_ok.mp hr
      obtain ⟨_, -, hr⟩ := bind_ok.mp hr
      obtain ⟨_, -, hr⟩ := bind_ok.mp hr
      split_ifs at hr
      · cases hr
      · obtain ⟨_, -, hr⟩ := bind_ok.mp hr
        cases hr
    · obtain ⟨_, -, hr⟩ := bind_ok.mp hr
      cases hr
  | some mem =>
    cases h
    rfl

theorem fault_segfault {pde : ℕ} {vaddr : UInt32} {write : Bool} (h : s.fault pde vaddr write = .ok s')
    (hv : Segfault vaddr) : s.exit pde = .ok s' := by
  unfold fault pageFault at h
  unfold Segfault at hv
  rw [if_pos hv] at h
  obtain ⟨r, hr, h⟩ := bind_ok.mp h
  obtain ⟨_, -, hr⟩ := bind_ok.mp hr
  cases hr
  exact h

theorem enter_live {pde child : ℕ} {task : Space} (h : s.enter pde task = .ok (child, s')) :
    s'.live = insert child s.live := by
  unfold enter at h
  obtain ⟨_, -, h⟩ := bind_ok.mp h
  cases h
  rfl

/-- A call that does not end its task takes no directory away. -/
theorem exec_live {c : Call} (h : s.exec c = .ok s') (hc : ¬ s.Ends c) : s.live ⊆ s'.live := by
  cases c with
  | userMode | fork _ =>
    obtain ⟨⟨child, m⟩, he, h⟩ := bind_ok.mp h
    cases h
    rw [enter_live he]
    exact subset_insert _ _
  | exit _ => exact absurd trivial hc
  | load pde vaddr =>
    simp only [exec] at h
    split_ifs at h with hp
    · cases h
      exact Subset.rfl
    · exact (fault_live h fun hv => hc ⟨by simpa using hp, hv⟩).ge
  | store pde vaddr value =>
    simp only [exec] at h
    split_ifs at h with hp
    · cases h
      exact Subset.rfl
    · exact (fault_live h fun hv => hc ⟨by simpa using hp, hv⟩).ge
  | kernelStore pde vaddr value =>
    simp only [exec] at h
    split_ifs at h with hp
    · cases h
      exact Subset.rfl
    · exact (fault_live h fun hv => hc ⟨by simpa using hp, hv⟩).ge
  | linkPage _ _ | unlinkPage _ _ | brk _ _ | mmap _ _ _ _ _ | munmap _ _ _ | execve _ | loadSegment _ _ _ _ _ _
  | allocKpage _ | freeKpage _ _ =>
    obtain ⟨_, -, h⟩ := bind_ok.mp h
    cases h
    exact Subset.rfl

/-- A call that ends its task frees the directory and does nothing else in `kernel_map`. -/
theorem exec_ends {c : Call} {pde : ℕ} (h : s.exec c = .ok s') (hc : s.Ends c) (hpde : c.dir = some pde) :
    s.exit pde = .ok s' := by
  cases c with
  | exit _ =>
    cases hpde
    exact h
  | load _ vaddr =>
    cases hpde
    simp only [exec] at h
    rw [if_neg (by rw [hc.1]; exact Bool.false_ne_true)] at h
    exact fault_segfault h hc.2
  | store _ vaddr value =>
    cases hpde
    simp only [exec] at h
    rw [if_neg (by rw [hc.1]; exact Bool.false_ne_true)] at h
    exact fault_segfault h hc.2
  | kernelStore _ vaddr value =>
    cases hpde
    simp only [exec] at h
    rw [if_neg (by rw [hc.1]; exact Bool.false_ne_true)] at h
    exact fault_segfault h hc.2
  | _ => exact hc.elim

theorem exit_free (h : s.Ok) {pde : ℕ} (hp : s.UserDir pde) (he : s.exit pde = .ok s') :
    s'.mem.kernelMap.covers pde ∧ s'.mem.kernelMap.marked pde = false := by
  obtain ⟨hcov, hmark⟩ := h.marked pde hp.1 (h.user_ne hp).symm
  unfold exit at he
  obtain ⟨mem, hmem, he⟩ := bind_ok.mp he
  cases he
  rw [hp.2] at hmem
  obtain ⟨-, -, -, -, -, hrel⟩ := (freePde_spec h.acct hp.1 ⟨hcov, hmark⟩ fun _ => True).result _ hmem
  refine ⟨?_, ?_⟩
  · unfold Bitmap.covers at *
    rw [hrel.length, hrel.offset]
    exact hcov
  · rw [hrel.marked pde hcov.1, decide_eq_true ⟨le_rfl, Nat.lt_succ_self _⟩]
    rfl

/-- Only a user task is ended. -/
theorem Ends.userDir {c : Call} {pde : ℕ} (hc : s.Ends c) (hen : s.Enabled c) (hpde : c.dir = some pde) : s.UserDir pde := by
  cases c with
  | exit _ =>
    cases hpde
    exact hen
  | load _ _ | store _ _ _ | kernelStore _ _ _ =>
    cases hpde
    exact hen.1
  | _ => exact hc.elim

end Machine

/-! ### The loaded directory -/

structure Processor where
  machine : Machine
  /-- The page whose address is in `cr3`. -/
  cr3 : ℕ

namespace Processor

inductive Event
  /-- A call of the running task, or of the kernel on its behalf, in the loaded directory. -/
  | call (c : Machine.Call)
  /-- `task_activate` of a task with the directory `pde`. -/
  | activate (pde : ℕ)

/-- `task_to_user_mode` loads the directory that it makes. -/
def exec (s : Processor) : Event → Except Halt Processor
  | .call .userMode => do
    let (child, machine) ← s.machine.enter KERNEL_PAGE_DIR Machine.userSpace
    .ok ⟨machine, child⟩
  | .call c => do
    let machine ← s.machine.exec c
    .ok { s with machine := machine }
  | .activate pde => .ok { s with cr3 := pde }

/-- `schedule` switches to tasks that are not dead, so their directories are in use. Between
`free_pde` and `schedule` only calls of `alloc_kpage` and `free_kpage` are left. -/
def Enabled (s : Processor) : Event → Prop
  | .call c => s.machine.Enabled c ∧ (c.dir = none ∨ c.dir = some s.cr3)
  | .activate pde => pde ∈ s.machine.live

instance (s : Processor) : (e : Event) → Decidable (s.Enabled e)
  | .call c => inferInstanceAs (Decidable (s.machine.Enabled c ∧ (c.dir = none ∨ c.dir = some s.cr3)))
  | .activate pde => inferInstanceAs (Decidable (pde ∈ s.machine.live))

def Step (s : Processor) (e : Event) (s' : Processor) : Prop := s.Enabled e ∧ s.exec e = .ok s'

/-- `kernel_init` runs in the directory of the kernel. -/
def Booted (s : Processor) : Prop := s.machine.Booted ∧ s.cr3 = KERNEL_PAGE_DIR

/-- The event releases the directory that is loaded. -/
def Ends (s : Processor) : Event → Prop
  | .call c => s.machine.Ends c
  | .activate _ => False

/-- The page of the loaded directory is not free, as far as it is one of `kernel_map`, and
`alloc_kpage` does not hand it out. -/
structure Loaded (s : Processor) : Prop where
  marked : s.machine.mem.kernelMap.covers s.cr3 → s.machine.mem.kernelMap.marked s.cr3 = true
  kept : ∀ count index mem, s.machine.mem.allocKpage count = .ok (index, mem) → ¬ (index ≤ s.cr3 ∧ s.cr3 < index + count)

variable {s s' : Processor}

theorem loaded_of_marked (h : s.machine.mem.kernelMap.covers s.cr3 → s.machine.mem.kernelMap.marked s.cr3 = true) :
    s.Loaded := by
  refine ⟨h, fun count index mem ha hin => ?_⟩
  obtain ⟨-, hal, -⟩ := (allocKpage_spec s.machine.mem count).result _ ha
  obtain ⟨hcov, hfree⟩ := hal.clear s.cr3 hin.1 hin.2
  rw [h hcov] at hfree
  cases hfree

/-- The machine takes the same step. -/
theorem exec_machine {c : Machine.Call} (h : s.exec (.call c) = .ok s') : s.machine.exec c = .ok s'.machine := by
  cases c with
  | userMode =>
    obtain ⟨⟨child, machine⟩, he, h⟩ := bind_ok.mp h
    cases h
    change (s.machine.enter KERNEL_PAGE_DIR Machine.userSpace >>= _) = _
    rw [he]
    rfl
  | _ =>
    obtain ⟨machine, he, h⟩ := bind_ok.mp h
    cases h
    exact he

theorem step_ok (h : s.machine.Ok) {e : Event} (hs : s.Step e s') : s'.machine.Ok := by
  obtain ⟨hen, hx⟩ := hs
  cases e with
  | call c => exact ((Machine.exec_spec h c hen.1).result _ (exec_machine hx)).ok
  | activate pde =>
    cases hx
    exact h

/-- The loaded directory stays in use until its task ends. -/
theorem step_live {e : Event} (hlive : s.cr3 ∈ s.machine.live) (hs : s.Step e s') (he : ¬ s.Ends e) :
    s'.cr3 ∈ s'.machine.live := by
  obtain ⟨hen, hx⟩ := hs
  cases e with
  | activate pde =>
    cases hx
    exact hen
  | call c =>
    have hgrow := Machine.exec_live (exec_machine hx) he
    cases c with
    | userMode =>
      obtain ⟨⟨child, machine⟩, henter, hx⟩ := bind_ok.mp hx
      cases hx
      rw [Machine.enter_live henter]
      exact mem_insert_self _ _
    | _ =>
      obtain ⟨machine, -, hx⟩ := bind_ok.mp hx
      cases hx
      exact hgrow hlive

/-- The end of a task leaves the loaded directory free. -/
theorem step_ends (h : s.machine.Ok) {e : Event} (hs : s.Step e s') (he : s.Ends e) : ¬ s'.Loaded := by
  obtain ⟨hen, hx⟩ := hs
  cases e with
  | activate _ => exact he.elim
  | call c =>
    have hdir : c.dir = some s.cr3 := by
      refine hen.2.resolve_left fun hnone => ?_
      cases c with
      | allocKpage _ | freeKpage _ _ => exact he
      | _ => cases hnone
    have hcr3 : s'.cr3 = s.cr3 := by
      cases c with
      | userMode => exact he.elim
      | _ =>
        obtain ⟨_, -, hx⟩ := bind_ok.mp hx
        cases hx
        rfl
    have hexit := Machine.exec_ends (exec_machine hx) he hdir
    obtain ⟨hcov, hfree⟩ := Machine.exit_free h (he.userDir hen.1 hdir) hexit
    intro hloaded
    have hmarked := hloaded.marked
    rw [hcr3, hfree] at hmarked
    exact Bool.false_ne_true (hmarked hcov)

theorem ok_loaded (h : s.machine.Ok) (hlive : s.cr3 ∈ s.machine.live) : s.Loaded :=
  loaded_of_marked (h.dirs_marked s.cr3 hlive)

theorem booted_ok (h : s.Booted) : s.machine.Ok ∧ s.cr3 ∈ s.machine.live := by
  have hok := (Machine.booted_ok h.1).1
  exact ⟨hok, h.2 ▸ hok.kernel.1⟩

/-- Whatever tasks have ended before: while the running one has not, its directory is loaded and
not free. -/
theorem loaded_of_live {es : List Event} (h : Run Booted Step es s) (hlive : s.cr3 ∈ s.machine.live) : s.Loaded := by
  have hok : s.machine.Ok :=
    Run.invariant (I := fun s => s.machine.Ok) (fun _ h => (booted_ok h).1) (fun _ _ _ hi hs => step_ok hi hs) es s h
  exact ok_loaded hok hlive

/-- As long as no task ends, the loaded directory is never free; the end of a task makes it free
while it is loaded. -/
theorem cr3_loaded {es : List Event} (h : Run Booted (Restrict (fun s e => ¬ s.Ends e) Step) es s) :
    s.Loaded ∧ ∀ e s', s.Step e s' → (s'.Loaded ↔ ¬ s.Ends e) := by
  have hi : s.machine.Ok ∧ s.cr3 ∈ s.machine.live :=
    Run.invariant (I := fun s => s.machine.Ok ∧ s.cr3 ∈ s.machine.live) (fun _ h => booted_ok h)
      (fun _ _ _ hi hs => ⟨step_ok hi.1 hs.2, step_live hi.2 hs.2 hs.1⟩) es s h
  refine ⟨ok_loaded hi.1 hi.2, fun e s' hs => ⟨fun hl he => ?_, fun he => ?_⟩⟩
  · exact step_ends hi.1 hs he hl
  · exact ok_loaded (step_ok hi.1 hs) (step_live hi.2 hs he)

/-- An event that is possible, as `Step` has it. -/
def attempt (s : Processor) (e : Event) : Option (Event × Processor) :=
  if s.Enabled e then
    match s.exec e with
    | .ok s' => some (e, s')
    | .error _ => none
  else none

theorem attempt_step {e e' : Event} (h : s.attempt e = some (e', s')) : s.Step e' s' ∧ e' = e := by
  unfold attempt at h
  split_ifs at h with hen
  split at h
  · rename_i s₁ hx
    cases h
    exact ⟨⟨hen, hx⟩, rfl⟩
  · cases h

def smallProcessor : Processor := ⟨Machine.smallMachine, KERNEL_PAGE_DIR⟩

theorem smallProcessor_booted : smallProcessor.Booted := ⟨⟨_, _, rfl⟩, rfl⟩

/-- The first user task has got its directory. -/
theorem cr3_loaded_user : ∃ s : Processor, s.cr3 = 258 ∧ s.Loaded := by
  have hsome : ((smallProcessor.attempt (.call .userMode)).map fun r => r.2.cr3) = some 258 := by
    decide +kernel
  obtain ⟨⟨e, s⟩, he, hcr3⟩ := Option.map_eq_some_iff.mp hsome
  obtain ⟨hstep, rfl⟩ := attempt_step he
  have hrun : Run Booted (Restrict (fun s e => ¬ s.Ends e) Step) _ s := (Run.nil smallProcessor_booted).snoc ⟨id, hstep⟩
  exact ⟨s, hcr3, (cr3_loaded hrun).1⟩

/-- The first user task ends, and a page that is allocated before `schedule` is the directory in
which the kernel still runs. -/
theorem exit_frees_loaded : ¬ ∀ es s, Run Booted Step es s → s.Loaded := by
  intro hall
  have hsome : ((replay attempt smallProcessor [.call .userMode, .call (.exit 258)]).map fun r =>
      (r.2.cr3, (r.2.machine.mem.allocKpage 1).toOption.map Prod.fst)) = some (258, some 258) := by
    decide +kernel
  obtain ⟨⟨es, s⟩, hes, hd⟩ := Option.map_eq_some_iff.mp hsome
  obtain ⟨hcr3, halloc⟩ := Prod.mk.injEq .. ▸ hd
  have hrun : Run Booted Step es s := by
    have hstep : ∀ s e e' s', attempt s e = some (e', s') → Step s e' s' := fun _ _ _ _ h => (attempt_step h).1
    simpa using Run.replay hstep _ smallProcessor [] es s (.nil smallProcessor_booted) hes
  obtain ⟨⟨index, mem⟩, hmem, rfl⟩ := Option.map_eq_some_iff.mp halloc
  have hmem : s.machine.mem.allocKpage 1 = .ok (258, mem) := by
    cases ha : s.machine.mem.allocKpage 1 with
    | ok r =>
      rw [ha] at hmem
      exact congrArg Except.ok (Option.some.inj hmem)
    | error e =>
      rw [ha] at hmem
      cases hmem
  exact (hall es s hrun).kept 1 258 mem hmem ⟨hcr3.ge, by rw [hcr3]; decide⟩

end Processor
end Onix
