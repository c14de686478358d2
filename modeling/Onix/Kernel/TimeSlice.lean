import Onix.Kernel.SysTime

/-! The time slices. `ticks` is what is left of the slice of a task, but for a task that sleeps it is
the time to wake; every way back to the ready tasks gives it a slice again. Only a call of
`task_unblock` for a task that sleeps would not, and no caller makes one. -/

set_option autoImplicit false

namespace Onix
namespace Sched

open Lib

variable {s s' s₁ : Sched} {r : TaskRef}

/-- A task that does not sleep has something left of its slice, and no more than a slice. -/
def Slice (t : Task) : Prop :=
  1 ≤ t.priority.toNat ∧ (t.state ≠ .sleeping → 1 ≤ t.ticks.toNat ∧ t.ticks.toNat ≤ t.priority.toNat)

def Sliced (s : Sched) : Prop := ∀ i t, s.pcb (.slot i) = some t → Slice t

/-- The callers' side: `task_unblock` is called for tasks that `task_block` has put into a list, and those that
sleep are left to the clock. -/
def Unblocks (s : Sched) : Event → Prop
  | .unblock r => ∀ t, s.pcb (.slot r) = some t → t.state ≠ .sleeping
  | _ => True

/-! ### The functions -/

theorem Sliced.of_pcb (h : Sliced s) (hp : s'.pcb = s.pcb) : Sliced s' := fun i t ht => h i t (hp ▸ ht)

theorem Sliced.upd (h : Sliced s) (f : Task → Task) (hf : ∀ t, s.pcb r = some t → Slice t → Slice (f t)) :
    Sliced (s.upd r f) := by
  intro i t ht
  rw [upd_pcb] at ht
  split_ifs at ht with hr
  · obtain ⟨u, hu, rfl⟩ := Option.map_eq_some_iff.mp ht
    exact hf u (hr ▸ hu) (h i u hu)
  · exact h i t ht

theorem Sliced.setTask (h : Sliced s) {i : Slot} {o : Option Task} (ho : ∀ t, o = some t → Slice t) :
    Sliced (s.setTask i o) := by
  intro j t ht
  rw [setTask_pcb] at ht
  split_ifs at ht
  · exact ho t ht
  · exact h j t ht

/-- A task with its whole slice. -/
theorem Slice.whole {t : Task} (h : Slice t) (ht : t.ticks = t.priority) (t' : Task)
    (heq : t'.ticks = t.ticks ∧ t'.priority = t.priority) : Slice t' := by
  refine ⟨by rw [heq.2]; exact h.1, fun _ => ?_⟩
  rw [heq.1, heq.2, ht]
  exact ⟨h.1, le_rfl⟩

theorem Slice.same {t t' : Task} (h : Slice t) (hst : t.state ≠ .sleeping)
    (heq : t'.ticks = t.ticks ∧ t'.priority = t.priority) : Slice t' := by
  unfold Slice
  rw [heq.1, heq.2]
  exact ⟨h.1, fun _ => h.2 hst⟩

theorem leave_slice {t : Task} (h : 1 ≤ t.priority.toNat)
    (ht : t.state ≠ .sleeping → t.ticks.toNat ≤ t.priority.toNat) : Slice (leave t) := by
  refine ⟨h, fun hst => ?_⟩
  have hne : t.state ≠ .sleeping := fun hs => hst (by simp [leave, hs])
  change 1 ≤ (if t.ticks = 0 then t.priority else t.ticks).toNat ∧
    (if t.ticks = 0 then t.priority else t.ticks).toNat ≤ t.priority.toNat
  split_ifs with h0
  · exact ⟨h, le_rfl⟩
  · exact ⟨Nat.pos_of_ne_zero fun hz => h0 (UInt32.toNat_inj.mp hz), ht hne⟩

theorem Sliced.leave (h : Sliced s) : Sliced (s.upd s.current Sched.leave) :=
  h.upd _ fun _ _ ht => leave_slice ht.1 fun hst => (ht.2 hst).2

theorem taskUnblock_pcb (h : s.taskUnblock r = .ok s') :
    s'.pcb = (s.upd r fun t => { t with node := none, state := .ready }).pcb := by
  unfold taskUnblock listRemove at h
  obtain ⟨s₁, hremove, h⟩ := bind_ok.mp h
  cases h
  obtain ⟨t, ht, hremove⟩ := bind_ok.mp hremove
  split at hremove
  · cases hremove
  · cases hremove
    simp [Sched.upd, get_ok.mp ht]

theorem taskUnblock_sliced (h : s.taskUnblock r = .ok s') (hs : Sliced s)
    (hr : ∀ t, s.pcb r = some t → t.state ≠ .sleeping ∨ t.ticks = t.priority) : Sliced s' := by
  refine Sliced.of_pcb (hs.upd _ fun t ht hslice => ?_) (taskUnblock_pcb h)
  rcases hr t ht with hst | hticks
  · exact hslice.same hst ⟨rfl, rfl⟩
  · exact hslice.whole hticks _ ⟨rfl, rfl⟩

/-- The task that is left gets a new slice if it has none left, and the next one has one. -/
theorem switchTo_sliced {next : TaskRef} (h : s.switchTo next = .ok s') (hs : Sliced (s.upd s.current leave)) :
    Sliced s' := by
  unfold switchTo at h
  obtain ⟨n, hn, h⟩ := bind_ok.mp h
  have hn := get_ok.mp hn
  have enter : ∀ s₁ : Sched, Sliced s₁ → (∀ t, s₁.pcb next = some t → t.state = .ready) →
      Sliced { s₁.upd next (fun t => { t with state := .running }) with current := next } := fun s₁ h₁ hst =>
    (h₁.upd (r := next) (fun t => { t with state := .running }) fun t ht hslice =>
      hslice.same (by rw [hst t ht]; decide) ⟨rfl, rfl⟩).of_pcb rfl
  have woken : ∀ s₀ s₁ : Sched, s₀.taskUnblock next = .ok s₁ → ∀ t, s₁.pcb next = some t → t.state = .ready :=
    fun s₀ s₁ h₁ t ht => by
      rw [taskUnblock_pcb h₁, upd_pcb_self] at ht
      obtain ⟨u, -, rfl⟩ := Option.map_eq_some_iff.mp ht
      rfl
  split_ifs at h with hready hsleeping
  · obtain ⟨s₁, hs₁, h⟩ := bind_ok.mp h
    obtain ⟨_, -, h⟩ := bind_ok.mp h
    cases h
    refine enter s₁ (taskUnblock_sliced hs₁ (hs.upd _ fun t _ ht => ⟨ht.1, fun _ => ⟨ht.1, le_rfl⟩⟩) ?_)
      (woken _ _ hs₁)
    intro t ht
    rw [upd_pcb_self] at ht
    obtain ⟨u, -, rfl⟩ := Option.map_eq_some_iff.mp ht
    exact .inr rfl
  · obtain ⟨s₁, hs₁, h⟩ := bind_ok.mp h
    obtain ⟨_, -, h⟩ := bind_ok.mp h
    cases h
    refine enter s₁ (taskUnblock_sliced hs₁ hs fun t ht => .inl ?_) (woken _ _ hs₁)
    rw [hn] at ht
    cases ht
    exact hsleeping
  · obtain ⟨s₁, hs₁, h⟩ := bind_ok.mp h
    obtain ⟨_, -, h⟩ := bind_ok.mp h
    cases h
    cases hs₁
    refine enter _ hs fun t ht => ?_
    rw [hn] at ht
    cases ht
    simpa using hready

theorem schedule_sliced (h : s.schedule = .ok s') (hs : Sliced (s.upd s.current leave)) : Sliced s' := by
  unfold schedule at h
  split at h
  · cases h
  · obtain ⟨n, -, h⟩ := bind_ok.mp h
    obtain ⟨_, -, h⟩ := bind_ok.mp h
    exact switchTo_sliced h hs

theorem taskBlock_sliced {l : Option ListId} {state : TaskState} (h : s.taskBlock r l state = .ok s') (hs : Sliced s)
    (hr : ∀ t, s.pcb r = some t → t.state ≠ .sleeping) : Sliced s' := by
  unfold taskBlock at h
  obtain ⟨t, -, h⟩ := bind_ok.mp h
  obtain ⟨_, -, h⟩ := bind_ok.mp h
  obtain ⟨_, -, h⟩ := bind_ok.mp h
  obtain ⟨s₁, hpush, h⟩ := bind_ok.mp h
  obtain ⟨_, -, h⟩ := bind_ok.mp h
  unfold listPush at hpush
  obtain ⟨_, -, hpush⟩ := bind_ok.mp hpush
  cases hpush
  have hblocked : Sliced ((s.upd r fun t => { t with node := some (l.getD .blockList) }).upd r fun t =>
      { t with state := state }) := by
    have hlinked : Sliced (s.upd r fun t => { t with node := some (l.getD .blockList) }) :=
      hs.upd _ fun t ht hslice => hslice.same (hr t ht) ⟨rfl, rfl⟩
    refine hlinked.upd _ fun t ht hslice => ?_
    rw [upd_pcb_self] at ht
    obtain ⟨u, hu, rfl⟩ := Option.map_eq_some_iff.mp ht
    exact hslice.same (hr u hu) ⟨rfl, rfl⟩
  dsimp only at h
  split_ifs at h
  · exact schedule_sliced h (Sliced.leave (hblocked.of_pcb rfl))
  · cases h
    exact hblocked.of_pcb rfl

theorem weakupLoop_sliced : ∀ (l : List TaskRef) (s s' : Sched), weakupLoop l s = .ok s' → Sliced s → Sliced s'
  | [], s, s', h, hs => by
    cases h
    exact hs
  | ptr :: rest, s, s', h, hs => by
    rw [weakupLoop] at h
    obtain ⟨t, -, h⟩ := bind_ok.mp h
    split_ifs at h
    · cases h
      exact hs
    · obtain ⟨s₁, hwake, h⟩ := bind_ok.mp h
      refine weakupLoop_sliced rest s₁ s' h (taskUnblock_sliced hwake
        (hs.upd _ fun t _ ht => ⟨ht.1, fun _ => ⟨ht.1, le_rfl⟩⟩) fun t ht => ?_)
      rw [upd_pcb_self] at ht
      obtain ⟨u, -, rfl⟩ := Option.map_eq_some_iff.mp ht
      exact .inr rfl

theorem ticks_pred {n : UInt32} (h : 1 ≤ n.toNat) : (n - 1).toNat + 1 = n.toNat := by
  have hone : (1 : UInt32).toNat = 1 := rfl
  have hn := n.toNat_lt
  rw [UInt32.toNat_sub, hone]
  omega

theorem Inv.weakup (hi : Inv s) (h : s.taskWeakup = .ok s₁) : Inv s₁ ∧ s₁.current = s.current := by
  obtain ⟨s₂, hs₂, h₂, -, hcur⟩ := taskWeakup_spec hi
  rw [h] at hs₂
  cases hs₂
  exact ⟨h₂, hcur⟩

/-- The handler takes a tick from the task that runs, which has one. -/
theorem clockHandler_sliced (h : s.clockHandler = .ok s') (hi : Inv s) (hs : Sliced s) : Sliced s' := by
  unfold clockHandler at h
  obtain ⟨s₁, hwake, h⟩ := bind_ok.mp h
  have h₁ := weakupLoop_sliced _ _ _ hwake hs
  obtain ⟨u, hu, hrun⟩ := (hi.weakup hwake).1.running
  obtain ⟨t, ht, h⟩ := bind_ok.mp h
  obtain ⟨_, -, h⟩ := bind_ok.mp h
  have ht : s₁.pcb s₁.current = some t := get_ok.mp ht
  rw [hu] at ht
  cases ht
  have hless : ∀ t, s₁.pcb s₁.current = some t → Slice t → (t.ticks - 1).toNat + 1 = t.ticks.toNat ∧
      t.ticks.toNat ≤ t.priority.toNat := fun t ht hslice => by
    rw [hu] at ht
    cases ht
    have hticks := hslice.2 (by rw [hrun]; decide)
    exact ⟨ticks_pred hticks.1, hticks.2⟩
  split_ifs at h with hzero
  · refine schedule_sliced h ?_
    intro i t ht
    change (((s₁.upd s₁.current fun t => { t with jiffies := s₁.jiffies + 1, ticks := t.ticks - 1 }).upd
      s₁.current leave).pcb (.slot i)) = some t at ht
    rw [upd_pcb, upd_pcb] at ht
    split_ifs at ht with hcur
    · obtain ⟨v, hv, rfl⟩ := Option.map_eq_some_iff.mp ht
      obtain ⟨w, hw, rfl⟩ := Option.map_eq_some_iff.mp hv
      have hw' := h₁ i w hw
      obtain ⟨hticks, hle⟩ := hless w (hcur ▸ hw) hw'
      exact leave_slice hw'.1 fun _ => by
        change (w.ticks - 1).toNat ≤ w.priority.toNat
        omega
    · exact h₁ i t ht
  · cases h
    refine Sliced.of_pcb (s := s₁.upd s₁.current fun t => { t with jiffies := s₁.jiffies + 1, ticks := t.ticks - 1 })
      (h₁.upd _ fun t ht hslice => ?_) rfl
    obtain ⟨hticks, hle⟩ := hless t ht hslice
    refine ⟨hslice.1, fun _ => ?_⟩
    have hne : (t.ticks - 1).toNat ≠ 0 := fun hz => by
      rw [hu] at ht
      cases ht
      exact hzero (UInt32.toNat_inj.mp hz)
    change 1 ≤ (t.ticks - 1).toNat ∧ (t.ticks - 1).toNat ≤ t.priority.toNat
    omega

theorem taskSleep_sliced {ms : UInt32} (h : s.taskSleep ms = .ok s') (hi : Inv s) (hboot : s.current ≠ .boot)
    (hs : Sliced s) : Sliced s' := by
  obtain ⟨t, ht, hrun⟩ := hi.running
  cases hcur : s.current with
  | boot => exact absurd hcur hboot
  | slot i =>
    rw [hcur] at ht
    obtain ⟨s₁, -, heq, hpcb, -, -, -, -⟩ := taskSleep_eq hi.toCore ms hcur ht (hi.slot_node ht (.inr hrun))
    rw [heq] at h
    refine schedule_sliced h (Sliced.leave fun j u hu => ?_)
    rw [hpcb, Function.update_apply] at hu
    split_ifs at hu
    · cases hu
      exact ⟨(hs i t ht).1, fun hst => absurd rfl hst⟩
    · exact hs j u hu

theorem forkPcb_sliced {pid : Slot} (h : s.forkPcb = .ok (pid, s')) (hboot : s.current ≠ .boot) (hs : Sliced s) :
    Sliced s' := by
  unfold forkPcb at h
  obtain ⟨t, ht, h⟩ := bind_ok.mp h
  obtain ⟨_, -, h⟩ := bind_ok.mp h
  obtain ⟨c, -, h⟩ := bind_ok.mp h
  cases h
  refine hs.setTask fun u hu => ?_
  cases hu
  have ht := get_ok.mp ht
  cases hcur : s.current with
  | boot => exact absurd hcur hboot
  | slot i =>
    rw [hcur] at ht
    exact ⟨(hs i t ht).1, fun _ => ⟨(hs i t ht).1, le_rfl⟩⟩

theorem taskExit_sliced {status : ℤ} (h : s.taskExit status = .ok s') (hi : Inv s) (hs : Sliced s) : Sliced s' := by
  unfold taskExit at h
  obtain ⟨s₁, hdead, h⟩ := bind_ok.mp h
  obtain ⟨x, -, h⟩ := bind_ok.mp h
  obtain ⟨s₂, hwake, h⟩ := bind_ok.mp h
  have h₁ : Sliced s₁ := by
    unfold markDead at hdead
    obtain ⟨_, -, hdead⟩ := bind_ok.mp hdead
    obtain ⟨_, -, hdead⟩ := bind_ok.mp hdead
    cases hdead
    refine hs.upd _ fun t ht hslice => hslice.same ?_ ⟨rfl, rfl⟩
    obtain ⟨u, hu, hrun⟩ := hi.running
    rw [hu] at ht
    cases ht
    rw [hrun]
    decide
  have h₂ : Sliced (s₁.reparent x) := by
    intro i t ht
    simp only [reparent] at ht
    obtain ⟨u, hu, rfl⟩ := Option.map_eq_some_iff.mp ht
    have hslice := h₁ i u hu
    split_ifs
    · exact hslice
    · exact hslice
  have h₃ : Sliced s₂ := by
    unfold wakeParent at hwake
    obtain ⟨parent, hparent, hwake⟩ := bind_ok.mp hwake
    split_ifs at hwake with hwaits
    · refine taskUnblock_sliced hwake h₂ fun t ht => .inl ?_
      rw [get_ok.mp hparent] at ht
      cases ht
      rw [hwaits.1]
      decide
    · cases hwake
      exact h₂
  exact schedule_sliced h h₃.leave

theorem taskWaitpid_sliced {pid : ℤ} {ret : WaitResult} (h : s.taskWaitpid pid = .ok (ret, s')) (hi : Inv s)
    (hs : Sliced s) : Sliced s' := by
  unfold taskWaitpid at h
  obtain ⟨t, ht, h⟩ := bind_ok.mp h
  obtain ⟨u, hu, hrun⟩ := hi.running
  have hawake : ∀ t, s.pcb s.current = some t → t.state ≠ .sleeping := fun t ht => by
    rw [hu] at ht
    cases ht
    rw [hrun]
    decide
  split at h
  · obtain ⟨c, -, h⟩ := bind_ok.mp h
    cases h
    exact hs.setTask nofun
  · obtain ⟨s₁, hblock, h⟩ := bind_ok.mp h
    cases h
    refine taskBlock_sliced hblock (hs.upd _ fun t ht hslice => hslice.same (hawake t ht) ⟨rfl, rfl⟩) fun t ht => ?_
    change (s.upd s.current _).pcb s.current = some t at ht
    rw [upd_pcb_self] at ht
    obtain ⟨v, hv, rfl⟩ := Option.map_eq_some_iff.mp ht
    exact hawake v hv
  · cases h
    exact hs

/-- One entry keeps the slices. -/
theorem exec_sliced {e : Event} {o : Option Obs} (h : s.exec e = .ok (o, s')) (he : Enabled s e) (hc : Unblocks s e)
    (hi : Inv s) (hs : Sliced s) : Sliced s' := by
  cases e with
  | tick =>
    obtain ⟨s₁, hs₁, h⟩ := bind_ok.mp h
    cases h
    exact clockHandler_sliced hs₁ hi hs
  | yield =>
    obtain ⟨s₁, hs₁, h⟩ := bind_ok.mp h
    cases h
    exact schedule_sliced hs₁ hs.leave
  | preempt q =>
    obtain ⟨s₁, hs₁, h⟩ := bind_ok.mp h
    cases h
    exact switchTo_sliced hs₁ hs.leave
  | block q l state =>
    obtain ⟨s₁, hs₁, h⟩ := bind_ok.mp h
    cases h
    refine taskBlock_sliced hs₁ hs fun t ht => ?_
    obtain ⟨⟨u, hu, hst⟩, -⟩ := he
    rw [hu] at ht
    cases ht
    rcases hst with hst | hst <;> rw [hst] <;> decide
  | unblock q =>
    obtain ⟨s₁, hs₁, h⟩ := bind_ok.mp h
    cases h
    exact taskUnblock_sliced hs₁ hs fun t ht => .inl (hc t ht)
  | sleep ms =>
    obtain ⟨s₁, hs₁, h⟩ := bind_ok.mp h
    cases h
    exact taskSleep_sliced hs₁ hi he hs
  | weakup =>
    obtain ⟨s₁, hs₁, h⟩ := bind_ok.mp h
    cases h
    exact weakupLoop_sliced _ _ _ hs₁ hs
  | fork =>
    obtain ⟨⟨i, s₁⟩, hs₁, h⟩ := bind_ok.mp h
    cases h
    exact forkPcb_sliced hs₁ he hs
  | exit status =>
    obtain ⟨t, -, h⟩ := bind_ok.mp h
    obtain ⟨s₁, hs₁, h⟩ := bind_ok.mp h
    cases h
    exact taskExit_sliced hs₁ hi hs
  | waitpid pid =>
    obtain ⟨⟨ret, s₁⟩, hs₁, h⟩ := bind_ok.mp h
    cases h
    exact taskWaitpid_sliced hs₁ hi hs

theorem init_sliced (h : Init s) : Sliced s := by
  intro i t ht
  obtain ⟨garbage, h⟩ := h
  rw [taskInit_eq] at h
  cases h
  simp only [setTask_pcb, TaskRef.slot.injEq] at ht
  split_ifs at ht with h2 h1 h0
  · cases ht
    exact ⟨by decide, fun _ => ⟨by decide, le_rfl⟩⟩
  · cases ht
    exact ⟨by decide, fun _ => ⟨by decide, le_rfl⟩⟩
  · cases ht
    exact ⟨by decide, fun _ => ⟨by decide, le_rfl⟩⟩
  · cases ht

/-! ### Ticks without `schedule` -/

/-- Whether an entry calls `schedule`, or goes on as it does. -/
def schedules (s : Sched) : Event → Bool
  | .tick => match s.taskWeakup with
    | .ok s => (s.pcb s.current).any fun t => t.ticks - 1 = 0
    | .error _ => false
  | .yield | .preempt _ | .sleep _ | .exit _ => true
  | .block r _ _ => s.current = .slot r
  | .unblock _ | .weakup | .fork => false
  | .waitpid pid => (s.pcb s.current).any fun t => s.waitScan t.pid pid waitSlots false = .alive

/-- The current task stays, and every tick is taken from its slice. -/
structure Stays (s s' : Sched) (i : Slot) (t : Task) (ticks : ℕ) : Prop where
  current : s'.current = .slot i
  pcb : ∃ t', s'.pcb (.slot i) = some t' ∧ t'.priority = t.priority ∧ t'.ticks.toNat + ticks = t.ticks.toNat

section

variable {i : Slot} {t : Task}

theorem Stays.of_pcb (hcur : s'.current = .slot i) (h : s'.pcb (.slot i) = some t) : Stays s s' i t 0 :=
  ⟨hcur, t, h, rfl, rfl⟩

/-- The clock does not wake the task that runs. -/
theorem taskWeakup_current (hi : Inv s) (hcur : s.current = .slot i) (ht : s.pcb (.slot i) = some t)
    (h : s.taskWeakup = .ok s₁) : s₁.current = .slot i ∧ s₁.pcb (.slot i) = some t := by
  obtain ⟨s₂, woken, rest, hs₂, hl, -, -, -, -, hkeep, -, -⟩ := weakupLoop_split s.sleepers hi rfl
  have hs₁ : s.taskWeakup = .ok s₂ := hs₂
  rw [h] at hs₁
  cases hs₁
  refine ⟨(hi.weakup h).2.trans hcur, (hkeep _ fun hw => ?_).trans ht⟩
  have hmem : .slot i ∈ s.lists .sleepList := by
    change _ ∈ s.sleepers
    rw [hl]
    exact List.mem_append_left _ hw
  obtain ⟨u, hu, hrun⟩ := hi.running
  rw [hcur, ht] at hu
  cases hu
  rw [hi.mem_slot ht, hi.slot_node ht (.inr hrun)] at hmem
  cases hmem

theorem quiet_tick (hi : Inv s) (hcur : s.current = .slot i) (ht : s.pcb (.slot i) = some t) (hpos : 1 ≤ t.ticks.toNat)
    (hq : s.schedules .tick = false) (h : s.clockHandler = .ok s') : Stays s s' i t 1 := by
  unfold clockHandler at h
  obtain ⟨s₁, hwake, h⟩ := bind_ok.mp h
  obtain ⟨hcur₁, ht₁⟩ := taskWeakup_current hi hcur ht hwake
  simp only [schedules, hwake, hcur₁, ht₁, Option.any_some, decide_eq_false_iff_not] at hq
  obtain ⟨u, hu, h⟩ := bind_ok.mp h
  obtain ⟨_, -, h⟩ := bind_ok.mp h
  have hu : s₁.pcb s₁.current = some u := get_ok.mp hu
  rw [hcur₁, ht₁] at hu
  cases hu
  rw [if_neg hq] at h
  cases h
  refine ⟨hcur₁, { t with jiffies := s₁.jiffies + 1, ticks := t.ticks - 1 }, ?_, rfl, ticks_pred hpos⟩
  change (s₁.upd s₁.current _).pcb (.slot i) = _
  rw [hcur₁, upd_pcb_self, ht₁]
  rfl

theorem quiet_waitpid {pid : ℤ} {ret : WaitResult} (hi : Inv s) (hcur : s.current = .slot i)
    (ht : s.pcb (.slot i) = some t) (hq : s.schedules (.waitpid pid) = false)
    (h : s.taskWaitpid pid = .ok (ret, s')) : Stays s s' i t 0 := by
  simp only [schedules, hcur, ht, Option.any_some, decide_eq_false_iff_not] at hq
  unfold taskWaitpid at h
  obtain ⟨u, hu, h⟩ := bind_ok.mp h
  rw [hcur, get_ok, ht] at hu
  cases hu
  split at h
  · rename_i j hdead
    obtain ⟨c, hc, h⟩ := bind_ok.mp h
    cases h
    refine .of_pcb hcur ?_
    have hsays := waitScan_says s t.pid pid waitSlots false
    rw [hdead] at hsays
    obtain ⟨-, v, hv, hv'⟩ := hsays
    obtain ⟨x, hx, hrun⟩ := hi.running
    rw [setTask_pcb, if_neg, ht]
    rintro heq
    rw [hcur, heq, hv.1] at hx
    cases hx
    rw [hv'] at hrun
    cases hrun
  · rename_i halive
    exact absurd halive hq
  · cases h
    exact .of_pcb hcur ht

/-- One entry that does not call `schedule`. -/
theorem quiet_step {l : Event × Option Obs} (hi : Inv s) (h : Step s l s') (hq : s.schedules l.1 = false)
    (hcur : s.current = .slot i) (ht : s.pcb (.slot i) = some t) (hpos : 1 ≤ t.ticks.toNat) :
    Stays s s' i t (passes l.1) := by
  obtain ⟨he, hx⟩ := h
  obtain ⟨u, hu, hrun⟩ := hi.running
  rw [hcur, ht] at hu
  cases hu
  obtain ⟨e, o⟩ := l
  cases e with
  | tick =>
    obtain ⟨s₁, hs₁, hx⟩ := bind_ok.mp hx
    cases hx
    exact quiet_tick hi hcur ht hpos hq hs₁
  | yield => cases hq
  | preempt q => cases hq
  | sleep ms => cases hq
  | exit status => cases hq
  | block q l state =>
    have hne : q ≠ i := by
      rintro rfl
      simp [schedules, hcur] at hq
    obtain ⟨s₁, hs₁, hx⟩ := bind_ok.mp hx
    cases hx
    obtain ⟨⟨v, hv, hst⟩, hstate⟩ := he
    obtain ⟨s₂, -, heq, hpcb, hcur₂, -, -⟩ :=
      taskBlock_eq hi.toCore l state hv (hi.slot_node hv hst) (by rcases hstate with rfl | rfl <;> rfl)
    rw [heq, hcur, if_neg (by simpa using hne.symm)] at hs₁
    cases hs₁
    exact .of_pcb (hcur₂.trans hcur) (by rw [hpcb, Function.update_of_ne (by simpa using hne.symm), ht])
  | unblock q =>
    obtain ⟨s₁, hs₁, hx⟩ := bind_ok.mp hx
    cases hx
    obtain ⟨v, hv, hqueued⟩ := he
    have hne : TaskRef.slot i ≠ .slot q := by
      intro heq
      rw [← heq, ht] at hv
      cases hv
      rw [hrun] at hqueued
      cases hqueued
    exact .of_pcb ((taskUnblock_current hs₁).trans hcur) (by rw [taskUnblock_pcb hs₁, upd_pcb_ne _ _ hne, ht])
  | weakup =>
    obtain ⟨s₁, hs₁, hx⟩ := bind_ok.mp hx
    cases hx
    obtain ⟨hcur₁, ht₁⟩ := taskWeakup_current hi hcur ht hs₁
    exact .of_pcb hcur₁ ht₁
  | fork =>
    obtain ⟨⟨c, s₁⟩, hs₁, hx⟩ := bind_ok.mp hx
    cases hx
    rcases forkPcb_cases hi hcur with hp | ⟨c', t', hs', hc, -, -⟩
    · rw [hs₁] at hp
      cases hp
    · rw [hs₁] at hs'
      cases hs'
      exact .of_pcb hcur (setTask_keep hc ht)
  | waitpid pid =>
    obtain ⟨⟨ret, s₁⟩, hs₁, hx⟩ := bind_ok.mp hx
    cases hx
    exact quiet_waitpid hi hcur ht hq hs₁

end

/-! ### Runs -/

/-- What holds in every state of a run. -/
structure Ticking (s : Sched) : Prop where
  inv : Inv s
  family : Family s
  sliced : Sliced s

theorem Ticking.step {l : Event × Option Obs} (k : Ticking s) (hc : Unblocks s l.1) (h : Step s l s') : Ticking s' :=
  have out := step_outcome k.inv k.family h
  ⟨out.inv, out.family, exec_sliced h.2 h.1 hc k.inv k.sliced⟩

/-- From one call of `schedule` to the next, the ticks come from one slice. -/
theorem quiet_run {es : List (Event × Option Obs)} {i : Slot} {t : Task}
    (h : Run (· = s) (Restrict (fun s l => Unblocks s l.1 ∧ s.schedules l.1 = false) Step) es s') (k : Ticking s)
    (hcur : s.current = .slot i) (ht : s.pcb (.slot i) = some t) :
    Ticking s' ∧ Stays s s' i t (interrupts es) := by
  induction h with
  | nil hs =>
    rw [hs]
    exact ⟨k, .of_pcb hcur ht⟩
  | snoc _ hs ih =>
    rename_i es s₁ s₂ l _
    obtain ⟨k₁, hcur₁, t₁, ht₁, hprio₁, hticks₁⟩ := ih
    obtain ⟨⟨hc, hq⟩, hstep⟩ := hs
    obtain ⟨u, hu, hrun⟩ := k₁.inv.running
    rw [hcur₁, ht₁] at hu
    cases hu
    have hpos := ((k₁.sliced i t₁ ht₁).2 (by rw [hrun]; decide)).1
    obtain ⟨hcur₂, t₂, ht₂, hprio₂, hticks₂⟩ := quiet_step k₁.inv hstep hq hcur₁ ht₁ hpos
    refine ⟨k₁.step hc hstep, hcur₂, t₂, ht₂, hprio₂.trans hprio₁, ?_⟩
    rw [interrupts_snoc]
    omega

/-- A task that is ready or running has a tick left and no more than its priority; so the clock can take one, and
between two calls of `schedule` there are fewer ticks than the priority of the task that runs. -/
theorem time_slices {es : List (Event × Option Obs)} {s : Sched}
    (h : Run Init (Restrict (fun s l => Unblocks s l.1) Step) es s) :
    (∀ i t, s.pcb (.slot i) = some t → t.state = .ready ∨ t.state = .running →
      1 ≤ t.ticks.toNat ∧ t.ticks.toNat ≤ t.priority.toNat) ∧
    (∀ i s₁ t, s.current = .slot i → s.taskWeakup = .ok s₁ → s₁.pcb s₁.current = some t →
      (t.ticks - 1).toNat + 1 = t.ticks.toNat) ∧
    (∀ i t es' s', s.current = .slot i → s.pcb (.slot i) = some t →
      Run (· = s) (Restrict (fun s l => Unblocks s l.1 ∧ s.schedules l.1 = false) Step) es' s' →
      interrupts es' < t.priority.toNat) := by
  have k : Ticking s := Run.invariant (fun s hs => ⟨init_inv hs, init_family hs, init_sliced hs⟩)
    (fun s l s' k hs => k.step hs.1 hs.2) es s h
  have hslice : ∀ i t, s.pcb (.slot i) = some t → t.state = .ready ∨ t.state = .running →
      1 ≤ t.ticks.toNat ∧ t.ticks.toNat ≤ t.priority.toNat := fun i t ht hst =>
    (k.sliced i t ht).2 (by rcases hst with hst | hst <;> rw [hst] <;> decide)
  have hcurrent : ∀ i t, s.current = .slot i → s.pcb (.slot i) = some t → 1 ≤ t.ticks.toNat ∧
      t.ticks.toNat ≤ t.priority.toNat := fun i t hcur ht => by
    obtain ⟨u, hu, hrun⟩ := k.inv.running
    rw [hcur, ht] at hu
    cases hu
    exact hslice i t ht (.inr hrun)
  refine ⟨hslice, fun i s₁ t hcur hwake ht => ?_, fun i t es' s' hcur ht hrun => ?_⟩
  · obtain ⟨u, hu, -⟩ := k.inv.running
    rw [hcur] at hu
    obtain ⟨hcur₁, hu₁⟩ := taskWeakup_current k.inv hcur hu hwake
    rw [hcur₁, hu₁] at ht
    cases ht
    exact ticks_pred (hcurrent i t hcur hu).1
  · obtain ⟨k', hcur', t', ht', -, hticks⟩ := quiet_run hrun k hcur ht
    obtain ⟨u, hu, hst⟩ := k'.inv.running
    rw [hcur', ht'] at hu
    cases hu
    have hpos := ((k'.sliced i t' ht').2 (by rw [hst]; decide)).1
    have hle := (hcurrent i t hcur ht).2
    omega

instance (s : Sched) (e : Event) : Decidable (Unblocks s e) :=
  match e with
  | .unblock r => decidable_of_iff ((s.pcb (.slot r)).all fun t => decide (t.state ≠ .sleeping))
      (by simp [Unblocks, Option.all_eq_true])
  | .tick | .yield | .preempt _ | .block _ _ _ | .sleep _ | .weakup | .fork | .exit _ | .waitpid _ =>
    inferInstanceAs (Decidable True)

/-- Task 1 is chosen first; it sleeps, task 2 runs for two ticks, and at the second task 1 is ready again. -/
theorem time_slices_woken : ∃ es s t, Run Init (Restrict (fun s l => Unblocks s l.1) Step) es s ∧
    s.pcb (.slot ⟨1, by decide⟩) = some t ∧ t.state = .ready ∧
    1 ≤ t.ticks.toNat ∧ t.ticks.toNat ≤ t.priority.toNat := by
  obtain ⟨s₀, h₀⟩ : ∃ s₀, taskInit bootPcb = .ok s₀ := ⟨_, taskInit_eq bootPcb⟩
  have hsome : ((replay (fun s e => if Unblocks s e then attempt s e else none) s₀
      [.yield, .sleep 10, .tick, .tick]).bind fun r => r.2.pcb (.slot ⟨1, by decide⟩)).map Task.state =
      some .ready := by
    cases h₀
    decide +kernel
  obtain ⟨t, ht, hst⟩ := Option.map_eq_some_iff.mp hsome
  obtain ⟨⟨es, s⟩, hes, ht⟩ := Option.bind_eq_some_iff.mp ht
  have hstep : ∀ s e l s', (if Unblocks s e then attempt s e else none) = some (l, s') →
      Restrict (fun s l => Unblocks s l.1) Step s l s' := fun s e l s' h => by
    split_ifs at h with hc
    have he : l.1 = e := by
      unfold attempt at h
      split_ifs at h
      split at h <;> cases h
      rfl
    subst he
    exact ⟨hc, attempt_step h⟩
  have hr : Run Init (Restrict (fun s l => Unblocks s l.1) Step) es s := by
    simpa using Run.replay hstep _ s₀ [] es s (.nil (show Init s₀ from ⟨bootPcb, h₀⟩)) hes
  exact ⟨es, s, t, hr, ht, hst, (time_slices hr).1 _ t ht (.inl hst)⟩

end Sched
end Onix
