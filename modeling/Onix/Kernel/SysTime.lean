import Onix.Kernel.Sleep

/-! `sys_time` over the runs of the scheduler: `jiffies` counts the clock interrupts and nothing
else writes it, and the product with `JIFFY` wraps long before `jiffies` does. -/

set_option autoImplicit false

namespace Onix
namespace Sched

open Lib

variable {s s' : Sched} {r : TaskRef}

/-- `sys_time`; all of it is unsigned 32-bit arithmetic. -/
def sysTime (startupTime : UInt32) (s : Sched) : UInt32 := startupTime + s.jiffies * JIFFY / 1000

/-- The clock interrupts among the entries of a run. -/
def interrupts (es : List (Event × Option Obs)) : ℕ := (es.map fun l => passes l.1).sum

/-! ### Who writes `jiffies` -/

theorem listRemove_jiffies (h : s.listRemove r = .ok s') : s'.jiffies = s.jiffies := by
  unfold listRemove at h
  obtain ⟨t, -, h⟩ := bind_ok.mp h
  split at h <;> cases h
  rfl

theorem taskUnblock_jiffies (h : s.taskUnblock r = .ok s') : s'.jiffies = s.jiffies := by
  unfold taskUnblock at h
  obtain ⟨s₁, hremove, h⟩ := bind_ok.mp h
  cases h
  rw [upd_jiffies]
  exact listRemove_jiffies hremove

theorem switchTo_jiffies (h : s.switchTo r = .ok s') : s'.jiffies = s.jiffies := by
  unfold switchTo at h
  obtain ⟨n, -, h⟩ := bind_ok.mp h
  split_ifs at h
  · obtain ⟨s₁, hwake, h⟩ := bind_ok.mp h
    obtain ⟨_, -, h⟩ := bind_ok.mp h
    cases h
    exact (taskUnblock_jiffies hwake :)
  · obtain ⟨s₁, hwake, h⟩ := bind_ok.mp h
    obtain ⟨_, -, h⟩ := bind_ok.mp h
    cases h
    exact (taskUnblock_jiffies hwake :)
  · obtain ⟨s₁, hsame, h⟩ := bind_ok.mp h
    obtain ⟨_, -, h⟩ := bind_ok.mp h
    cases h
    cases hsame
    rfl

theorem schedule_jiffies (h : s.schedule = .ok s') : s'.jiffies = s.jiffies := by
  unfold schedule at h
  split at h
  · cases h
  · obtain ⟨n, -, h⟩ := bind_ok.mp h
    obtain ⟨_, -, h⟩ := bind_ok.mp h
    exact (switchTo_jiffies h :)

theorem taskBlock_jiffies {l : Option ListId} {state : TaskState} (h : s.taskBlock r l state = .ok s') :
    s'.jiffies = s.jiffies := by
  unfold taskBlock at h
  obtain ⟨t, -, h⟩ := bind_ok.mp h
  obtain ⟨_, -, h⟩ := bind_ok.mp h
  obtain ⟨_, -, h⟩ := bind_ok.mp h
  obtain ⟨s₁, hpush, h⟩ := bind_ok.mp h
  obtain ⟨_, -, h⟩ := bind_ok.mp h
  unfold listPush at hpush
  obtain ⟨_, -, hpush⟩ := bind_ok.mp hpush
  cases hpush
  dsimp only at h
  split_ifs at h
  · exact (schedule_jiffies h :)
  · cases h
    rfl

theorem taskSleep_jiffies {ms : UInt32} (h : s.taskSleep ms = .ok s') : s'.jiffies = s.jiffies := by
  unfold taskSleep at h
  obtain ⟨t, -, h⟩ := bind_ok.mp h
  obtain ⟨s₁, hinsert, h⟩ := bind_ok.mp h
  unfold listInsertSort at hinsert
  obtain ⟨_, -, hinsert⟩ := bind_ok.mp hinsert
  obtain ⟨_, -, hinsert⟩ := bind_ok.mp hinsert
  cases hinsert
  exact (schedule_jiffies h :)

theorem weakupLoop_jiffies : ∀ (l : List TaskRef) (s s' : Sched), weakupLoop l s = .ok s' → s'.jiffies = s.jiffies
  | [], s, s', h => by
    cases h
    rfl
  | ptr :: rest, s, s', h => by
    rw [weakupLoop] at h
    obtain ⟨t, -, h⟩ := bind_ok.mp h
    split_ifs at h
    · cases h
      rfl
    · obtain ⟨s₁, hwake, h⟩ := bind_ok.mp h
      exact (weakupLoop_jiffies rest s₁ s' h).trans (taskUnblock_jiffies hwake :)

/-- The handler counts one interrupt. -/
theorem clockHandler_jiffies (h : s.clockHandler = .ok s') : s'.jiffies = s.jiffies + 1 := by
  unfold clockHandler at h
  obtain ⟨s₁, hwake, h⟩ := bind_ok.mp h
  obtain ⟨t, -, h⟩ := bind_ok.mp h
  obtain ⟨_, -, h⟩ := bind_ok.mp h
  rw [← weakupLoop_jiffies _ _ _ hwake]
  split_ifs at h
  · exact (schedule_jiffies h :)
  · cases h
    rfl

theorem taskExit_jiffies {status : ℤ} (h : s.taskExit status = .ok s') : s'.jiffies = s.jiffies := by
  unfold taskExit at h
  obtain ⟨s₁, hdead, h⟩ := bind_ok.mp h
  obtain ⟨t, -, h⟩ := bind_ok.mp h
  obtain ⟨s₂, hwake, h⟩ := bind_ok.mp h
  have h₁ : s₁.jiffies = s.jiffies := by
    unfold markDead at hdead
    obtain ⟨_, -, hdead⟩ := bind_ok.mp hdead
    obtain ⟨_, -, hdead⟩ := bind_ok.mp hdead
    cases hdead
    rfl
  have h₂ : s₂.jiffies = s₁.jiffies := by
    unfold wakeParent at hwake
    obtain ⟨parent, -, hwake⟩ := bind_ok.mp hwake
    split_ifs at hwake
    · exact (taskUnblock_jiffies hwake :)
    · cases hwake
      rfl
  exact (schedule_jiffies h).trans (h₂.trans h₁ :)

theorem taskWaitpid_jiffies {pid : ℤ} {ret : WaitResult} (h : s.taskWaitpid pid = .ok (ret, s')) :
    s'.jiffies = s.jiffies := by
  unfold taskWaitpid at h
  obtain ⟨t, -, h⟩ := bind_ok.mp h
  split at h
  · obtain ⟨c, -, h⟩ := bind_ok.mp h
    cases h
    rfl
  · obtain ⟨s₁, hblock, h⟩ := bind_ok.mp h
    cases h
    exact (taskBlock_jiffies hblock :)
  · cases h
    rfl

theorem forkPcb_jiffies {pid : Slot} (h : s.forkPcb = .ok (pid, s')) : s'.jiffies = s.jiffies := by
  unfold forkPcb at h
  obtain ⟨t, -, h⟩ := bind_ok.mp h
  obtain ⟨_, -, h⟩ := bind_ok.mp h
  obtain ⟨i, -, h⟩ := bind_ok.mp h
  cases h
  rfl

/-- One entry: the clock interrupt adds one to `jiffies`, and the others leave it. -/
theorem exec_jiffies {e : Event} {o : Option Obs} (h : s.exec e = .ok (o, s')) :
    s'.jiffies = s.jiffies + UInt32.ofNat (passes e) := by
  have hsame : s.jiffies + UInt32.ofNat 0 = s.jiffies := UInt32.add_zero _
  cases e with
  | tick =>
    obtain ⟨s₁, hs₁, h⟩ := bind_ok.mp h
    cases h
    exact clockHandler_jiffies hs₁
  | yield =>
    obtain ⟨s₁, hs₁, h⟩ := bind_ok.mp h
    cases h
    exact (schedule_jiffies hs₁).trans hsame.symm
  | preempt q =>
    obtain ⟨s₁, hs₁, h⟩ := bind_ok.mp h
    cases h
    exact (switchTo_jiffies hs₁).trans hsame.symm
  | block q l state =>
    obtain ⟨s₁, hs₁, h⟩ := bind_ok.mp h
    cases h
    exact (taskBlock_jiffies hs₁).trans hsame.symm
  | unblock q =>
    obtain ⟨s₁, hs₁, h⟩ := bind_ok.mp h
    cases h
    exact (taskUnblock_jiffies hs₁).trans hsame.symm
  | sleep ms =>
    obtain ⟨s₁, hs₁, h⟩ := bind_ok.mp h
    cases h
    exact (taskSleep_jiffies hs₁).trans hsame.symm
  | weakup =>
    obtain ⟨s₁, hs₁, h⟩ := bind_ok.mp h
    cases h
    exact (weakupLoop_jiffies _ _ _ hs₁).trans hsame.symm
  | fork =>
    obtain ⟨⟨i, s₁⟩, hs₁, h⟩ := bind_ok.mp h
    cases h
    exact (forkPcb_jiffies hs₁).trans hsame.symm
  | exit status =>
    obtain ⟨t, -, h⟩ := bind_ok.mp h
    obtain ⟨s₁, hs₁, h⟩ := bind_ok.mp h
    cases h
    exact (taskExit_jiffies hs₁).trans hsame.symm
  | waitpid pid =>
    obtain ⟨⟨ret, s₁⟩, hs₁, h⟩ := bind_ok.mp h
    cases h
    exact (taskWaitpid_jiffies hs₁).trans hsame.symm

theorem interrupts_snoc (es : List (Event × Option Obs)) (l : Event × Option Obs) :
    interrupts (es ++ [l]) = interrupts es + passes l.1 := by
  simp [interrupts]

/-- Along a run `jiffies` counts the clock interrupts. -/
theorem run_jiffies {ok : Sched → Event × Option Obs → Prop} {s₀ : Sched} {es : List (Event × Option Obs)}
    (h : Run (· = s₀) (Restrict ok Step) es s) : s.jiffies = s₀.jiffies + UInt32.ofNat (interrupts es) := by
  induction h with
  | nil h =>
    rw [h]
    exact (UInt32.add_zero _).symm
  | snoc _ hs ih =>
    rw [exec_jiffies hs.2.2, ih, interrupts_snoc, UInt32.ofNat_add, UInt32.add_assoc]

theorem sysTime_toNat (startupTime : UInt32) (s : Sched)
    (hfit : startupTime.toNat + s.jiffies.toNat / 100 < 2 ^ 32) :
    (sysTime startupTime s).toNat = startupTime.toNat + s.jiffies.toNat * 10 % 2 ^ 32 / 1000 := by
  have hmod := Nat.mod_le (s.jiffies.toNat * 10) (2 ^ 32)
  have hdiv := Nat.div_le_div_right (c := 1000) hmod
  rw [sysTime, UInt32.toNat_add, UInt32.toNat_div, UInt32.toNat_mul]
  simp only [JIFFY, UInt32.reduceToNat]
  rw [Nat.mod_eq_of_lt (show startupTime.toNat + s.jiffies.toNat * 10 % 2 ^ 32 / 1000 < 2 ^ 32 by omega)]

/-- The product is right as long as the milliseconds fit 32 bits. -/
theorem sysTime_iff (startupTime : UInt32) (s : Sched) (hfit : startupTime.toNat + s.jiffies.toNat / 100 < 2 ^ 32) :
    (sysTime startupTime s).toNat = startupTime.toNat + s.jiffies.toNat / 100 ↔ s.jiffies.toNat * 10 < 2 ^ 32 := by
  rw [sysTime_toNat startupTime s hfit]
  constructor
  · intro heq
    by_contra hc
    have hle : s.jiffies.toNat * 10 % 2 ^ 32 ≤ s.jiffies.toNat * 10 - 2 ^ 32 := by
      rw [Nat.mod_eq_sub_mod (by omega)]
      exact Nat.mod_le _ _
    have := Nat.div_le_div_right (c := 1000) hle
    omega
  · intro hlt
    rw [Nat.mod_eq_of_lt hlt]
    omega

/-! ### Runs -/

/-- The milliseconds behind the next interrupt still fit 32 bits. -/
def Uptime (s : Sched) (l : Event × Option Obs) : Prop :=
  l.1 = .tick → (s.jiffies.toNat + 1) * 10 < 2 ^ 32

/-- Along such a run the milliseconds fit, and `jiffies` is the number of interrupts. -/
theorem uptime_jiffies {s₀ : Sched} {es : List (Event × Option Obs)} (h : Run (· = s₀) (Restrict Uptime Step) es s)
    (h₀ : s₀.jiffies.toNat * 10 < 2 ^ 32) :
    s.jiffies.toNat = s₀.jiffies.toNat + interrupts es ∧ s.jiffies.toNat * 10 < 2 ^ 32 := by
  induction h with
  | nil h =>
    rw [h]
    exact ⟨rfl, h₀⟩
  | snoc _ hs ih =>
    rename_i es s s' l _
    obtain ⟨heq, hlt⟩ := ih
    have hj := congrArg UInt32.toNat (exec_jiffies hs.2.2)
    rw [UInt32.toNat_add] at hj
    rw [interrupts_snoc]
    by_cases ht : l.1 = .tick
    · have hnext := hs.1 ht
      rw [ht] at hj ⊢
      change s'.jiffies.toNat = (s.jiffies.toNat + 1) % 2 ^ 32 at hj
      simp only [passes]
      omega
    · have hp : passes l.1 = 0 := by
        cases he : l.1 with
        | tick => exact absurd he ht
        | _ => rfl
      rw [hp] at hj ⊢
      change s'.jiffies.toNat = (s.jiffies.toNat + 0) % 2 ^ 32 at hj
      omega

theorem init_jiffies (h : Init s) : s.jiffies = 0 := by
  obtain ⟨garbage, h⟩ := h
  rw [taskInit_eq] at h
  cases h
  rfl

/-- As long as the milliseconds since the start fit 32 bits, `sys_time` is the time at the start and the whole seconds
since, and no later interrupt sees an earlier time. -/
theorem sys_time_runs {startupTime : UInt32} {es es' : List (Event × Option Obs)}
    (h : Run Init (Restrict Uptime Step) es s) (h' : Run (· = s) (Restrict Uptime Step) es' s')
    (hfit : startupTime.toNat + interrupts (es ++ es') / 100 < 2 ^ 32) :
    (sysTime startupTime s).toNat = startupTime.toNat + interrupts es / 100 ∧
      sysTime startupTime s ≤ sysTime startupTime s' := by
  obtain ⟨s₀, hi, hr⟩ := h.start
  have h₀ : s₀.jiffies.toNat = 0 := by rw [init_jiffies hi]; rfl
  obtain ⟨heq, hlt⟩ := uptime_jiffies hr (by omega)
  obtain ⟨heq', hlt'⟩ := uptime_jiffies h' hlt
  have happ : interrupts (es ++ es') = interrupts es + interrupts es' := by simp [interrupts]
  rw [happ] at hfit
  have ht := (sysTime_iff startupTime s (by omega)).mpr hlt
  have ht' := (sysTime_iff startupTime s' (by omega)).mpr hlt'
  rw [UInt32.le_iff_toNat_le, ht, ht']
  omega

/-- From every state the clock can interrupt any number of times. -/
theorem exists_interrupts (ok : Sched → Event × Option Obs → Prop) {s₀ : Sched} (hi : Inv s₀) :
    ∀ n : ℕ, (∀ s : Sched, s.jiffies.toNat < s₀.jiffies.toNat + n → ok s (.tick, none)) →
      s₀.jiffies.toNat + n < 2 ^ 32 →
      ∃ es s, Run (· = s₀) (Restrict ok Step) es s ∧ Inv s ∧ interrupts es = n
  | 0, _, _ => ⟨[], s₀, .nil rfl, hi, rfl⟩
  | n + 1, hok, hlt => by
    obtain ⟨es, s, hr, hs, hn⟩ := exists_interrupts ok hi n (fun s h => hok s (by omega)) (by omega)
    obtain ⟨s', hs', hinv, -⟩ := clockHandler_spec hs
    have hj := congrArg UInt32.toNat (run_jiffies hr)
    rw [hn, UInt32.toNat_add, UInt32.toNat_ofNat'] at hj
    have hexec : s.exec .tick = .ok (none, s') := by
      rw [exec, hs']
      rfl
    have hstep : Step s (.tick, none) s' := ⟨True.intro, hexec⟩
    refine ⟨es ++ [(.tick, none)], s', .snoc hr ⟨hok s (by omega), hstep⟩, hinv, ?_⟩
    · rw [interrupts_snoc, hn]
      rfl

/-- The system that the boot leaves, for one content of the memory. -/
theorem exists_init : ∃ s, Init s := ⟨_, newTask ⟨0, by decide⟩ 0, taskInit_eq _⟩

/-- Two seconds after a start at 1000 the clock says 1002, and 1001 one second before. -/
theorem sys_time_runs_second : ∃ s s', (sysTime 1000 s).toNat = 1001 ∧ sysTime 1000 s ≤ sysTime 1000 s' ∧
    (sysTime 1000 s').toNat = 1002 := by
  obtain ⟨s₀, hi⟩ := exists_init
  have hz : s₀.jiffies.toNat = 0 := by rw [init_jiffies hi]; rfl
  obtain ⟨es, s, hr, hs, hn⟩ := exists_interrupts Uptime (init_inv hi) 100
    (fun s h _ => by omega) (by omega)
  obtain ⟨heq, hlt⟩ := uptime_jiffies hr (by omega)
  obtain ⟨es', s', hr', -, hn'⟩ := exists_interrupts Uptime hs 100 (fun s h _ => by omega) (by omega)
  have hrun : Run Init (Restrict Uptime Step) es s := (Run.nil hi).append hr
  have happ : interrupts (es ++ es') = 200 := by
    rw [interrupts, List.map_append, List.sum_append, ← interrupts, ← interrupts, hn, hn']
  have h := @sys_time_runs s s' 1000 es es' hrun hr' (by rw [happ]; decide)
  have hrun' : Run Init (Restrict Uptime Step) (es ++ es') s' := hrun.append hr'
  have h' := @sys_time_runs s' s' 1000 (es ++ es') [] hrun' (.nil rfl) (by rw [List.append_nil, happ]; decide)
  refine ⟨s, s', ?_, h.2, ?_⟩
  · rw [h.1, hn]
    rfl
  · rw [h'.1, happ]
    rfl

/-- After 429496730 interrupts, not quite fifty days, the clock is back at its start. -/
theorem sys_time_wraps : ¬∀ (startupTime : UInt32) (es es' : List (Event × Option Obs)) (s s' : Sched),
    Run Init Step es s → Run (· = s) Step es' s' → interrupts (es ++ es') < 2 ^ 32 →
    startupTime.toNat + interrupts (es ++ es') / 100 < 2 ^ 32 →
    (sysTime startupTime s).toNat = startupTime.toNat + interrupts es / 100 ∧
      sysTime startupTime s ≤ sysTime startupTime s' := by
  intro hall
  obtain ⟨s₀, hi⟩ := exists_init
  have hz : s₀.jiffies.toNat = 0 := by rw [init_jiffies hi]; rfl
  obtain ⟨es, s, hr, -, hn⟩ := exists_interrupts (fun _ _ => True) (init_inv hi) 429496730
    (fun _ _ => True.intro) (by omega)
  have hj := congrArg UInt32.toNat (run_jiffies hr)
  rw [hn, init_jiffies hi] at hj
  have hj' : s.jiffies.toNat = 429496730 := hj
  have h := (hall 0 es [] s s ((Run.nil hi).append hr).of_restrict (.nil rfl) (by rw [List.append_nil, hn]; decide)
    (by rw [List.append_nil, hn]; decide)).1
  rw [sysTime_toNat 0 s (by rw [hj']; decide), hj', hn] at h
  exact absurd h (by decide)

end Sched
end Onix
