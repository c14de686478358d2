import Onix.Kernel.SchedulerRuns

/-! The tasks that sleep. Their list is ordered by `list_insert_sort`, which compares signed numbers, and `task_weakup`
walks along it with an unsigned comparison. Both agree as long as no sum wraps and all that sleep at a time are to wake
on the same side of 2^31. -/

set_option autoImplicit false

namespace Onix
namespace Sched

open Lib

variable {s s' s₁ : Sched} {r : TaskRef}

def sleepers (s : Sched) : List TaskRef := s.lists .sleepList

/-- What the clock reads of a task that sleeps. -/
def sleepKey (t : Task) : UInt32 × Option ListId × TaskState := (t.ticks, t.node, t.state)

/-- The clock and the tasks that sleep are as before. -/
structure Rests (s s' : Sched) : Prop where
  list : s'.sleepers = s.sleepers
  task : ∀ r ∈ s.sleepers, (s'.pcb r).map sleepKey = (s.pcb r).map sleepKey
  jiffies : s'.jiffies = s.jiffies
  idle : s'.idle = s.idle

theorem Rests.refl (s : Sched) : Rests s s := ⟨rfl, fun _ _ => rfl, rfl, rfl⟩

theorem Rests.trans (h : Rests s s₁) (h' : Rests s₁ s') : Rests s s' := by
  refine ⟨h'.list.trans h.list, fun r hr => ?_, h'.jiffies.trans h.jiffies, h'.idle.trans h.idle⟩
  rw [h'.task r (h.list ▸ hr), h.task r hr]

/-- A change of the PCB of a task that does not sleep. -/
theorem Rests.upd (f : Task → Task) (h : r ∈ s.sleepers → ∀ t, s.pcb r = some t → sleepKey (f t) = sleepKey t) :
    Rests s (s.upd r f) := by
  refine ⟨rfl, fun q hq => ?_, rfl, rfl⟩
  rw [upd_pcb]
  split_ifs with hqr
  · subst hqr
    cases ht : s.pcb q with
    | none => rfl
    | some t => exact congrArg some (h hq t ht)
  · rfl

theorem Rests.setTask {i : Slot} (h : .slot i ∉ s.sleepers) (t : Option Task) : Rests s (s.setTask i t) := by
  refine ⟨rfl, fun q hq => ?_, rfl, rfl⟩
  have hne : q ≠ .slot i := fun he => h (he ▸ hq)
  rw [setTask_pcb, if_neg hne]

theorem taskUnblock_rests (h : s.taskUnblock r = .ok s') (hr : r ∉ s.sleepers) : Rests s s' := by
  unfold taskUnblock at h
  obtain ⟨s₁, hremove, h⟩ := bind_ok.mp h
  cases h
  unfold listRemove at hremove
  obtain ⟨t, ht, hremove⟩ := bind_ok.mp hremove
  split at hremove
  · cases hremove
  · rename_i l hl
    cases hremove
    refine ⟨?_, fun q hq => ?_, rfl, rfl⟩
    · change Function.update s.lists l ((s.lists l).erase r) .sleepList = s.lists .sleepList
      by_cases hsleep : ListId.sleepList = l
      · subst hsleep
        rw [Function.update_self]
        exact List.erase_of_not_mem hr
      · rw [Function.update_of_ne hsleep]
    · have hne : q ≠ r := fun he => hr (he ▸ hq)
      rw [upd_pcb_ne _ _ hne]
      change ((s.upd r _).pcb q).map sleepKey = _
      rw [upd_pcb_ne _ _ hne]

theorem taskUnblock_current (h : s.taskUnblock r = .ok s') : s'.current = s.current := by
  unfold taskUnblock listRemove at h
  obtain ⟨s₁, hremove, h⟩ := bind_ok.mp h
  cases h
  obtain ⟨t, -, hremove⟩ := bind_ok.mp hremove
  split at hremove <;> cases hremove
  rfl

/-- Every task in the list is in the state of a task that sleeps. -/
def Asleep (s : Sched) : Prop := ∀ r ∈ s.sleepers, ∃ t, s.pcb r = some t ∧ t.state = .sleeping

theorem Rests.asleep (h : Rests s s') (ha : Asleep s) : Asleep s' := by
  intro r hr
  rw [h.list] at hr
  obtain ⟨t, ht, hst⟩ := ha r hr
  obtain ⟨t', ht', hkey⟩ := Option.map_eq_some_iff.mp ((h.task r hr).trans (congrArg (Option.map sleepKey) ht))
  exact ⟨t', ht', (congrArg (fun k => k.2.2) hkey).trans hst⟩

theorem Asleep.not_mem (h : Asleep s) {t : Task} (ht : s.pcb r = some t) (hst : t.state ≠ .sleeping) :
    r ∉ s.sleepers := by
  intro hr
  obtain ⟨t', ht', hst'⟩ := h r hr
  rw [ht] at ht'
  cases ht'
  exact hst hst'

/-- What is left of the current task when it is left: a task that has gone to sleep keeps its ticks unless they are
0. -/
theorem switchTo_rests {next : TaskRef} (h : s.switchTo next = .ok s') (hnext : next ∉ s.sleepers)
    (hcur : s.current ∈ s.sleepers → ∀ t, s.pcb s.current = some t → t.ticks ≠ 0 ∧ t.state ≠ .running) :
    Rests s s' := by
  unfold switchTo at h
  have hleave : Rests s (s.upd s.current leave) := .upd leave fun hmem t ht => by
    obtain ⟨hticks, hstate⟩ := hcur hmem t ht
    simp [sleepKey, leave, hticks, hstate]
  have enter : ∀ s₁ : Sched, Rests (s.upd s.current leave) s₁ →
      Rests s { s₁.upd next (fun t => { t with state := .running }) with current := next } := fun s₁ hwake => by
    have hrun : Rests s₁ (s₁.upd next fun t => { t with state := .running }) :=
      .upd _ fun hmem => absurd (hwake.list ▸ hmem) hnext
    have hall := (hleave.trans hwake).trans hrun
    exact ⟨hall.list, hall.task, hall.jiffies, hall.idle⟩
  obtain ⟨n, -, h⟩ := bind_ok.mp h
  split_ifs at h with hready hsleeping
  · obtain ⟨s₁, hs₁, h⟩ := bind_ok.mp h
    obtain ⟨_, -, h⟩ := bind_ok.mp h
    cases h
    refine enter s₁ ?_
    have hup : Rests (s.upd s.current leave)
        ((s.upd s.current leave).upd next fun t => { t with ticks := t.priority }) :=
      .upd _ fun hmem => absurd hmem hnext
    exact hup.trans (taskUnblock_rests hs₁ hnext)
  · obtain ⟨s₁, hs₁, h⟩ := bind_ok.mp h
    obtain ⟨_, -, h⟩ := bind_ok.mp h
    cases h
    exact enter s₁ (taskUnblock_rests hs₁ hnext)
  · obtain ⟨s₁, hs₁, h⟩ := bind_ok.mp h
    obtain ⟨_, -, h⟩ := bind_ok.mp h
    cases h
    cases hs₁
    exact enter _ (.refl _)

theorem schedule_rests (h : s.schedule = .ok s') (ha : Asleep s) (hidle : s.idle ∉ s.sleepers)
    (hcur : s.current ∈ s.sleepers → ∀ t, s.pcb s.current = some t → t.ticks ≠ 0 ∧ t.state ≠ .running) :
    Rests s s' := by
  obtain ⟨next, hsearch, hnext⟩ := taskSearch_ready s
  unfold schedule at h
  rw [hsearch] at h
  obtain ⟨n, -, h⟩ := bind_ok.mp h
  obtain ⟨_, -, h⟩ := bind_ok.mp h
  apply switchTo_rests h _ hcur
  rcases hnext with ⟨t, -, ht, hst, -⟩ | ⟨rfl, -⟩
  · exact ha.not_mem ht (by rw [hst]; decide)
  · exact hidle

theorem Inv.current_awake (h : Inv s) (ha : Asleep s) : s.current ∉ s.sleepers := by
  obtain ⟨t, ht, hr⟩ := h.running
  exact ha.not_mem ht (by rw [hr]; decide)

/-! ### The clock -/

/-- The value of `jiffies` at which a task that sleeps is to wake. -/
def wakeAt (s : Sched) (r : TaskRef) : ℕ :=
  match s.pcb r with
  | some t => t.ticks.toNat
  | none => 0

theorem wakeAt_eq {t : Task} (h : s.pcb r = some t) : s.wakeAt r = t.ticks.toNat := by
  simp only [wakeAt, h]

theorem Rests.wakeAt (h : Rests s s') (hr : r ∈ s.sleepers) : s'.wakeAt r = s.wakeAt r := by
  have := h.task r hr
  unfold Sched.wakeAt
  cases hs : s.pcb r <;> cases hs' : s'.pcb r <;> simp_all [sleepKey]

/-- The loop of `task_weakup` along the sleep list: those in front whose time has come are ready, the others are not
touched. -/
theorem weakupLoop_split (l : List TaskRef) (h : Inv s) (hl : s.sleepers = l) :
    ∃ s' woken rest, weakupLoop l s = .ok s' ∧ l = woken ++ rest ∧ s'.sleepers = rest ∧ Inv s' ∧
      (∀ q ∈ woken, s.wakeAt q ≤ s.jiffies.toNat ∧ ∃ t, s'.pcb q = some t ∧ t.state = .ready) ∧
      (∀ q ∈ rest.head?, s.jiffies.toNat < s.wakeAt q) ∧ (∀ q, q ∉ woken → s'.pcb q = s.pcb q) ∧
      s'.jiffies = s.jiffies ∧ s'.idle = s.idle := by
  induction l generalizing s with
  | nil => exact ⟨s, [], [], rfl, rfl, hl, h, by simp, by simp, fun _ _ => rfl, rfl, rfl⟩
  | cons r rest ih =>
    have hmem : r ∈ s.lists .sleepList := by
      change r ∈ s.sleepers
      rw [hl]
      exact List.mem_cons_self ..
    obtain ⟨i, t, rfl, ht, hnode⟩ := (h.listed _ r).mp hmem
    simp only [weakupLoop, get, ht, ok_bind]
    by_cases hj : t.ticks > s.jiffies
    · rw [if_pos hj]
      refine ⟨s, [], _, rfl, rfl, hl, h, by simp, fun q hq => ?_, fun _ _ => rfl, rfl, rfl⟩
      obtain rfl : TaskRef.slot i = q := by simpa using hq
      rw [wakeAt_eq ht]
      exact UInt32.lt_iff_toNat_lt.mp hj
    rw [if_neg hj]
    obtain ⟨s₂, hs₂, h₂, w₂, hpcb, hlists, -, hjiffies⟩ := wake_spec h ht hnode
    have hsleepers : s₂.sleepers = rest := by
      change s₂.lists .sleepList = rest
      rw [hlists, Function.update_self]
      change s.sleepers.erase _ = rest
      rw [hl, List.erase_cons_head]
    have hother : ∀ q, q ≠ .slot i → s₂.pcb q = s.pcb q := fun q hq => by rw [hpcb, Function.update_of_ne hq]
    have hnd : (TaskRef.slot i :: rest).Nodup := hl ▸ h.nodup .sleepList
    have hnot := (List.nodup_cons.mp hnd).1
    have hkey : ∀ q ∈ rest, s₂.wakeAt q = s.wakeAt q := fun q hq => by
      unfold Sched.wakeAt
      rw [hother q fun he => hnot (he ▸ hq)]
    obtain ⟨s', woken, rest', hs', rfl, hrest, h', hwoken, hhead, hkeep, hj', hidle'⟩ := ih h₂ hsleepers
    refine ⟨s', .slot i :: woken, rest', by rw [hs₂, ok_bind, hs'], rfl, hrest, h', ?_, ?_, ?_,
      hj'.trans hjiffies, hidle'.trans w₂.idle⟩
    · intro q hq
      rcases List.mem_cons.mp hq with rfl | hq
      · refine ⟨?_, { t with ticks := t.priority, node := none, state := .ready }, ?_, rfl⟩
        · rw [wakeAt_eq ht]
          exact Nat.le_of_not_lt fun hlt => hj (UInt32.lt_iff_toNat_lt.mpr hlt)
        · rw [hkeep _ fun hw => hnot (List.mem_append_left _ hw), hpcb, Function.update_self]
      · obtain ⟨hle, hready⟩ := hwoken q hq
        rw [hkey q (List.mem_append_left _ hq), hjiffies] at hle
        exact ⟨hle, hready⟩
    · intro q hq
      rw [← hkey q (List.mem_append_right _ (List.mem_of_mem_head? hq)), ← hjiffies]
      exact hhead q hq
    · intro q hq
      rw [List.mem_cons, not_or] at hq
      rw [hkeep q hq.2, hother q hq.1]

/-- Behind a task that is to wake later, all are. -/
theorem weakup_later {woken rest : List TaskRef} (hs : s.sleepers.Pairwise fun a b => s.wakeAt a ≤ s.wakeAt b)
    (hl : s.sleepers = woken ++ rest) (hhead : ∀ q ∈ rest.head?, s.jiffies.toNat < s.wakeAt q)
    (hw : r ∉ woken) (hr : r ∈ s.sleepers) : s.jiffies.toNat < s.wakeAt r := by
  rw [hl] at hs hr
  cases rest with
  | nil => exact absurd (by simpa using hr) hw
  | cons q rest =>
    have hq := hhead q rfl
    have hrest := (List.pairwise_append.mp hs).2.1
    rcases List.mem_cons.mp ((List.mem_append.mp hr).resolve_left hw) with rfl | hr
    · exact hq
    · exact hq.trans_le ((List.pairwise_cons.mp hrest).1 r hr)

/-- The handler of one clock interrupt, behind `task_weakup`. -/
theorem clockHandler_rests (h : s.clockHandler = .ok s') (hs₁ : s.taskWeakup = .ok s₁) (ha : Asleep s₁)
    (hidle : s₁.idle ∉ s₁.sleepers) (hcur : s₁.current ∉ s₁.sleepers) :
    Rests { s₁ with jiffies := s₁.jiffies + 1 } s' := by
  simp only [clockHandler, hs₁, ok_bind] at h
  obtain ⟨t, -, h⟩ := bind_ok.mp h
  obtain ⟨_, -, h⟩ := bind_ok.mp h
  have hup : Rests { s₁ with jiffies := s₁.jiffies + 1 }
      (({ s₁ with jiffies := s₁.jiffies + 1 } : Sched).upd s₁.current fun t =>
        { t with jiffies := s₁.jiffies + 1, ticks := t.ticks - 1 }) :=
    .upd _ fun hmem => absurd hmem hcur
  split_ifs at h
  · exact hup.trans (schedule_rests h (hup.asleep ha) hidle fun hmem => absurd hmem hcur)
  · cases h
    exact hup

/-! ### The other entries -/

theorem taskBlock_rests {l : Option ListId} {state : TaskState} (h : s.taskBlock r l state = .ok s') (ha : Asleep s)
    (hl : l ≠ some .sleepList) (hidle : s.idle ∉ s.sleepers) (hr : r ∉ s.sleepers) : Rests s s' := by
  unfold taskBlock at h
  obtain ⟨t, -, h⟩ := bind_ok.mp h
  obtain ⟨_, -, h⟩ := bind_ok.mp h
  obtain ⟨_, -, h⟩ := bind_ok.mp h
  obtain ⟨s₁, hpush, h⟩ := bind_ok.mp h
  obtain ⟨_, -, h⟩ := bind_ok.mp h
  have hlist : ListId.sleepList ≠ l.getD .blockList := by
    cases l with
    | none => simp
    | some l => exact fun he => hl (congrArg some he.symm)
  have hpushed : Rests s s₁ := by
    unfold listPush at hpush
    obtain ⟨_, -, hpush⟩ := bind_ok.mp hpush
    cases hpush
    have hup : Rests s (s.upd r fun t => { t with node := some (l.getD .blockList) }) :=
      .upd _ fun hmem => absurd hmem hr
    exact ⟨Function.update_of_ne hlist _ s.lists, hup.task, rfl, rfl⟩
  have hr₁ : r ∉ s₁.sleepers := by rwa [hpushed.list]
  have hall : Rests s (s₁.upd r fun t => { t with state := state }) :=
    hpushed.trans (.upd _ fun hmem => absurd hmem hr₁)
  dsimp only at h
  split_ifs at h with hcur
  · refine hall.trans (schedule_rests h (hall.asleep ha) ?_ fun hmem => ?_)
    · rw [hall.list, hall.idle]
      exact hidle
    · rw [hcur] at hmem
      exact absurd hmem hr₁
  · cases h
    exact hall

theorem forkPcb_rests {i : Slot} (h : s.forkPcb = .ok (i, s')) (ha : Asleep s) : Rests s s' := by
  unfold forkPcb at h
  obtain ⟨t, -, h⟩ := bind_ok.mp h
  obtain ⟨_, -, h⟩ := bind_ok.mp h
  obtain ⟨j, hfree, h⟩ := bind_ok.mp h
  cases h
  refine .setTask (fun hmem => ?_) _
  obtain ⟨u, hu, -⟩ := ha _ hmem
  rw [getFreeTask_some hfree] at hu
  cases hu

theorem taskExit_rests {status : ℤ} (h : s.taskExit status = .ok s') (ha : Asleep s)
    (hidle : s.idle ∉ s.sleepers) (hcur : s.current ∉ s.sleepers) : Rests s s' := by
  unfold taskExit at h
  obtain ⟨s₁, hdead, h⟩ := bind_ok.mp h
  obtain ⟨x, -, h⟩ := bind_ok.mp h
  obtain ⟨s₂, hwake, h⟩ := bind_ok.mp h
  have hmarked : Rests s s₁ ∧ s₁.current = s.current := by
    unfold markDead at hdead
    obtain ⟨t, -, hdead⟩ := bind_ok.mp hdead
    obtain ⟨_, -, hdead⟩ := bind_ok.mp hdead
    cases hdead
    exact ⟨.upd _ fun hmem => absurd hmem hcur, rfl⟩
  have horphans : Rests s₁ (s₁.reparent x) := by
    refine ⟨rfl, fun q _ => ?_, rfl, rfl⟩
    cases q with
    | boot => rfl
    | slot j =>
      cases hj : s₁.pcb (.slot j) with
      | none => simp [reparent, hj]
      | some t =>
        simp only [reparent, hj, Option.map_some]
        split_ifs <;> rfl
  have hall := hmarked.1.trans horphans
  have hwoken : Rests s s₂ ∧ s₂.current = s.current := by
    unfold wakeParent at hwake
    obtain ⟨parent, hparent, hwake⟩ := bind_ok.mp hwake
    split_ifs at hwake with hwaits
    · have hnot := (hall.asleep ha).not_mem (get_ok.mp hparent) (by rw [hwaits.1]; decide)
      exact ⟨hall.trans (taskUnblock_rests hwake hnot), (taskUnblock_current hwake).trans hmarked.2⟩
    · cases hwake
      exact ⟨hall, hmarked.2⟩
  refine hwoken.1.trans (schedule_rests h (hwoken.1.asleep ha) ?_ fun hmem => ?_)
  · rw [hwoken.1.list, hwoken.1.idle]
    exact hidle
  · rw [hwoken.1.list, hwoken.2] at hmem
    exact absurd hmem hcur

theorem taskWaitpid_rests {pid : ℤ} {ret : WaitResult} (h : s.taskWaitpid pid = .ok (ret, s')) (ha : Asleep s)
    (hidle : s.idle ∉ s.sleepers) (hcur : s.current ∉ s.sleepers) : Rests s s' := by
  unfold taskWaitpid at h
  obtain ⟨x, -, h⟩ := bind_ok.mp h
  split at h
  · rename_i j hscan
    obtain ⟨c, hc, h⟩ := bind_ok.mp h
    cases h
    have hsays := waitScan_says s x.pid pid waitSlots false
    rw [hscan] at hsays
    obtain ⟨-, u, hu, hdead⟩ := hsays
    exact .setTask (ha.not_mem hu.1 (by rw [hdead]; decide)) none
  · obtain ⟨s₁, hblock, h⟩ := bind_ok.mp h
    cases h
    have hup : Rests s (s.upd s.current fun t => { t with waitpid := pid }) := .upd _ fun hmem => absurd hmem hcur
    exact hup.trans (taskBlock_rests hblock (hup.asleep ha) (by simp) hidle hcur)
  · cases h
    exact .refl s

/-! ### The system with the times the tasks were promised -/

/-- How many ticks `task_sleep(ms)` is to last. -/
def sleepFor (ms : UInt32) : ℕ := max 1 (ms.toNat / 10)

theorem sleepTicks_toNat (ms : UInt32) : (sleepTicks ms).toNat = sleepFor ms := by
  have hdiv : (ms / JIFFY).toNat = ms.toNat / 10 := by simp [JIFFY, UInt32.toNat_div]
  unfold sleepTicks sleepFor
  split_ifs with h
  · have := UInt32.lt_iff_toNat_lt.mp h
    rw [hdiv] at this ⊢
    simp at this
    omega
  · have hz : ¬ 0 < (ms / JIFFY).toNat := fun hlt => h (UInt32.lt_iff_toNat_lt.mpr (by simpa using hlt))
    rw [hdiv] at hz
    have : (1 : UInt32).toNat = 1 := rfl
    omega

/-- The system, the clock interrupts so far, and when every task that has called `task_sleep` is to wake. -/
structure Timed where
  sched : Sched
  now : ℕ
  due : TaskRef → Option ℕ

/-- At any uptime, before any task has called `task_sleep`. -/
def Timed.Init (m : Timed) : Prop :=
  (∃ s, Sched.Init s ∧ m.sched = { s with jiffies := m.sched.jiffies }) ∧ ∀ r, m.due r = none

/-- The callers' side of the sleep list: `task_block` and `task_unblock` are called for other lists, `task_weakup` is
called by the clock only, and the idle task does not sleep. -/
def Called (s : Sched) : Event → Prop
  | .block _ l _ => l ≠ some .sleepList
  | .unblock r => .slot r ∉ s.sleepers
  | .weakup => False
  | .sleep _ => s.current ≠ s.idle
  | _ => True

/-- What an event makes of the promised times: a call of `task_sleep` adds one, and the tick at which the time has come
is the last at which it is promised. -/
def Timed.promise (m : Timed) : Event → TaskRef → Option ℕ
  | .sleep ms => Function.update m.due m.sched.current (some (m.now + sleepFor ms))
  | .tick => fun r => if m.due r = some m.now then none else m.due r
  | _ => m.due

def passes : Event → ℕ
  | .tick => 1
  | _ => 0

structure Timed.Step (m : Timed) (e : Event) (m' : Timed) : Prop where
  called : Called m.sched e
  step : ∃ o, Sched.Step m.sched (e, o) m'.sched
  now : m'.now = m.now + passes e
  due : m'.due = m.promise e

/-- The sum in `task_sleep` does not wrap, and every task that sleeps is to wake on the same side of 2^31. -/
def InTime (m : Timed) : Event → Prop
  | .sleep ms => m.sched.jiffies.toNat + sleepFor ms < 2 ^ 32 ∧
      ∀ r ∈ m.sched.sleepers, m.sched.wakeAt r < 2 ^ 31 ↔ m.sched.jiffies.toNat + sleepFor ms < 2 ^ 31
  | _ => True

/-- The list is ordered by the remaining time. A task sleeps until its time has come, and a tick at that time makes it
ready. -/
structure OnTime (m : Timed) : Prop where
  ordered : m.sched.sleepers.Pairwise fun a b => ∀ d e, m.due a = some d → m.due b = some e → d ≤ e
  wakes : ∃ s', m.sched.taskWeakup = .ok s' ∧ ∀ r d, m.due r = some d → m.now ≤ d ∧
    (∃ t, m.sched.pcb r = some t ∧ t.state = .sleeping) ∧
    ((∃ t, s'.pcb r = some t ∧ t.state = .ready) ↔ d = m.now)

structure Punctual (m : Timed) : Prop where
  idle : m.sched.idle ∉ m.sched.sleepers
  /-- The tasks that sleep are those with a promised time. -/
  kept : ∀ r d, m.due r = some d → r ∈ m.sched.sleepers
  asleep : Asleep m.sched
  due : ∀ r ∈ m.sched.sleepers, ∃ d, m.due r = some d ∧ m.now ≤ d ∧
    m.sched.wakeAt r + m.now = m.sched.jiffies.toNat + d
  side : ∀ r ∈ m.sched.sleepers, ∀ q ∈ m.sched.sleepers, m.sched.wakeAt r < 2 ^ 31 ↔ m.sched.wakeAt q < 2 ^ 31
  sorted : m.sched.sleepers.Pairwise fun a b => m.sched.wakeAt a ≤ m.sched.wakeAt b

theorem Punctual.onTime {m : Timed} (k : Punctual m) (hi : Inv m.sched) : OnTime m := by
  refine ⟨k.sorted.imp_of_mem fun {a b} ha hb hab d e hd he => ?_, ?_⟩
  · obtain ⟨d', hd', -, heq⟩ := k.due a ha
    obtain ⟨e', he', -, heq'⟩ := k.due b hb
    rw [hd] at hd'
    rw [he] at he'
    cases hd'
    cases he'
    omega
  · obtain ⟨s', woken, rest, hs', hl, -, -, hwoken, hhead, hkeep, -⟩ := weakupLoop_split _ hi rfl
    refine ⟨s', hs', fun r d hd => ?_⟩
    have hr := k.kept r d hd
    obtain ⟨d', hd', hnow, heq⟩ := k.due r hr
    rw [hd] at hd'
    cases hd'
    obtain ⟨t, ht, hst⟩ := k.asleep r hr
    refine ⟨hnow, ⟨t, ht, hst⟩, ?_⟩
    by_cases hw : r ∈ woken
    · obtain ⟨hle, hready⟩ := hwoken r hw
      exact iff_of_true hready (by omega)
    · refine iff_of_false ?_ ?_
      · rintro ⟨u, hu, hready⟩
        rw [hkeep r hw, ht] at hu
        cases hu
        rw [hst] at hready
        cases hready
      · have := weakup_later k.sorted hl hhead hw hr
        omega

theorem Punctual.rests {m m' : Timed} (k : Punctual m) (h : Rests m.sched m'.sched) (hnow : m'.now = m.now)
    (hdue : m'.due = m.due) : Punctual m' := by
  refine ⟨?_, ?_, h.asleep k.asleep, ?_, ?_, ?_⟩
  · rw [h.idle, h.list]
    exact k.idle
  · rw [hdue, h.list]
    exact k.kept
  · intro r hr
    rw [h.list] at hr
    rw [hdue, hnow, h.wakeAt hr, h.jiffies]
    exact k.due r hr
  · intro r hr q hq
    rw [h.list] at hr hq
    rw [h.wakeAt hr, h.wakeAt hq]
    exact k.side r hr q hq
  · rw [h.list]
    refine k.sorted.imp_of_mem fun {a b} ha hb hab => ?_
    rw [h.wakeAt ha, h.wakeAt hb]
    exact hab

/-- A tick: the tasks whose time has come leave the list, for the others it is one tick nearer. -/
theorem Punctual.tick {m m' : Timed} (k : Punctual m) (hi : Inv m.sched) (h : Timed.Step m .tick m') :
    Punctual m' := by
  obtain ⟨o, -, hx⟩ := h.step
  obtain ⟨s', hs', he⟩ := bind_ok.mp hx
  cases he
  obtain ⟨s₁, woken, rest, hs₁, hl, hrest, hi₁, hwoken, hhead, hkeep, hj, hidle⟩ := weakupLoop_split _ hi rfl
  have hmem : ∀ r ∈ rest, r ∈ m.sched.sleepers := fun r hr => hl ▸ List.mem_append_right _ hr
  have hnd : (woken ++ rest).Nodup := hl ▸ hi.nodup .sleepList
  have hnot : ∀ r ∈ rest, r ∉ woken := fun r hr hw => (List.nodup_append.mp hnd).2.2 r hw r hr rfl
  have hlater : ∀ r ∈ rest, m.sched.jiffies.toNat < m.sched.wakeAt r := fun r hr =>
    weakup_later k.sorted hl hhead (hnot r hr) (hmem r hr)
  have hwake : ∀ r ∈ rest, s₁.wakeAt r = m.sched.wakeAt r := fun r hr => by
    unfold wakeAt
    rw [hkeep r (hnot r hr)]
  have hasleep : Asleep s₁ := fun r hr => by
    change r ∈ s₁.sleepers at hr
    rw [hrest] at hr
    rw [hkeep r (hnot r hr)]
    exact k.asleep r (hmem r hr)
  have hidle₁ : s₁.idle ∉ s₁.sleepers := by
    rw [hidle, hrest]
    exact fun hr => k.idle (hmem _ hr)
  -- the state behind `jiffies++`
  have k₁ : Punctual { sched := { s₁ with jiffies := s₁.jiffies + 1 }, now := m.now + 1, due := m.promise .tick } := by
    refine ⟨hidle₁, fun r d hd => ?_, hasleep, fun r hr => ?_, fun r hr q hq => ?_, ?_⟩
    · change (if m.due r = some m.now then none else m.due r) = some d at hd
      split_ifs at hd with hnow
      have hr := k.kept r d hd
      obtain ⟨d', hd', hle, heq⟩ := k.due r hr
      change r ∈ s₁.sleepers
      rw [hrest]
      refine (List.mem_append.mp (hl ▸ hr)).resolve_left fun hw => hnow ?_
      have := (hwoken r hw).1
      rw [hd', show d' = m.now by omega]
    · change r ∈ s₁.sleepers at hr
      rw [hrest] at hr
      obtain ⟨d, hd, hnow, heq⟩ := k.due r (hmem r hr)
      have hlt := hlater r hr
      have hbound : m.sched.wakeAt r < 2 ^ 32 := by
        obtain ⟨t, ht, -⟩ := k.asleep r (hmem r hr)
        rw [wakeAt_eq ht]
        exact t.ticks.toNat_lt
      have hne : m.due r ≠ some m.now := by
        rw [hd]
        intro hc
        have := Option.some.inj hc
        omega
      refine ⟨d, (if_neg hne).trans hd, (show m.now + 1 ≤ d by omega), ?_⟩
      change s₁.wakeAt r + (m.now + 1) = (s₁.jiffies + 1).toNat + d
      have hsucc : (s₁.jiffies + 1).toNat = m.sched.jiffies.toNat + 1 := by
        rw [hj, UInt32.toNat_add]
        change (m.sched.jiffies.toNat + 1) % 2 ^ 32 = _
        omega
      rw [hwake r hr, hsucc]
      omega
    · change r ∈ s₁.sleepers at hr
      change q ∈ s₁.sleepers at hq
      rw [hrest] at hr hq
      change s₁.wakeAt r < _ ↔ s₁.wakeAt q < _
      rw [hwake r hr, hwake q hq]
      exact k.side r (hmem r hr) q (hmem q hq)
    · change s₁.sleepers.Pairwise _
      rw [hrest]
      refine (List.pairwise_append.mp (hl ▸ k.sorted)).2.1.imp_of_mem fun {a b} ha hb hab => ?_
      change s₁.wakeAt a ≤ s₁.wakeAt b
      rw [hwake a ha, hwake b hb]
      exact hab
  exact k₁.rests (clockHandler_rests hs' hs₁ hasleep hidle₁ (hi₁.current_awake hasleep)) h.now h.due

/-- On one side of 2^31 the signed keys are ordered as the numbers are. -/
theorem ticksKey_le {a b : TaskRef} {t u : Task} (ht : s.pcb a = some t) (hu : s.pcb b = some u)
    (hside : s.wakeAt a < 2 ^ 31 ↔ s.wakeAt b < 2 ^ 31) : s.ticksKey a ≤ s.ticksKey b ↔ s.wakeAt a ≤ s.wakeAt b := by
  have key : ∀ x : UInt32, x.toInt32.toInt = if x.toNat < 2 ^ 31 then (x.toNat : ℤ) else x.toNat - 2 ^ 32 := fun x => by
    have := x.toNat_lt
    change x.toBitVec.toInt = _
    rw [BitVec.toInt_eq_toNat_cond]
    change (if 2 * x.toNat < 2 ^ 32 then (x.toNat : ℤ) else (x.toNat : ℤ) - (2 ^ 32 : ℕ)) = _
    split_ifs <;> push_cast <;> omega
  rw [wakeAt_eq ht, wakeAt_eq hu] at hside ⊢
  have := t.ticks.toNat_lt
  have := u.ticks.toNat_lt
  simp only [ticksKey, ht, hu, key]
  split_ifs <;> omega

/-- In `s₁` the caller `t` of `task_sleep`, in slot `i`, has joined the sleep list of `s` with its time to wake. -/
structure Joined (s s₁ : Sched) (i : Slot) (t : Task) (ms : UInt32) : Prop where
  pcb : s₁.pcb = Function.update s.pcb (.slot i) (some { t with
    ticks := s.jiffies + sleepTicks ms, node := some .sleepList, state := .sleeping })
  list : s₁.lists .sleepList = insertBefore (s.upd (.slot i) fun t => { t with
    ticks := s.jiffies + sleepTicks ms }).ticksKey (.slot i) (s.lists .sleepList)
  was : s.pcb (.slot i) = some t
  awake : .slot i ∉ s.sleepers
  idle : s₁.idle = s.idle
  jiffies : s₁.jiffies = s.jiffies

section

variable {i : Slot} {t : Task} {ms : UInt32}

theorem Joined.self (j : Joined s s₁ i t ms) : s₁.pcb (.slot i) = some { t with
    ticks := s.jiffies + sleepTicks ms, node := some .sleepList, state := .sleeping } := by
  rw [j.pcb, Function.update_self]

theorem Joined.other (j : Joined s s₁ i t ms) (hr : r ∈ s.sleepers) : r ≠ .slot i ∧ s₁.pcb r = s.pcb r := by
  have hne : r ≠ .slot i := fun he => j.awake (he ▸ hr)
  exact ⟨hne, by rw [j.pcb, Function.update_of_ne hne]⟩

theorem Joined.mem (j : Joined s s₁ i t ms) : r ∈ s₁.sleepers ↔ r = .slot i ∨ r ∈ s.sleepers := by
  change r ∈ s₁.lists .sleepList ↔ _
  rw [j.list]
  exact mem_insertBefore

theorem wakeTicks_toNat (hwrap : s.jiffies.toNat + sleepFor ms < 2 ^ 32) :
    (s.jiffies + sleepTicks ms).toNat = s.jiffies.toNat + sleepFor ms := by
  rw [UInt32.toNat_add, sleepTicks_toNat, Nat.mod_eq_of_lt hwrap]

theorem Joined.wakeSelf (j : Joined s s₁ i t ms) (hwrap : s.jiffies.toNat + sleepFor ms < 2 ^ 32) :
    s₁.wakeAt (.slot i) = s.jiffies.toNat + sleepFor ms := by
  rw [wakeAt_eq j.self, wakeTicks_toNat hwrap]

theorem Joined.wake (j : Joined s s₁ i t ms) (hr : r ∈ s.sleepers) : s₁.wakeAt r = s.wakeAt r := by
  unfold wakeAt
  rw [(j.other hr).2]

theorem Joined.asleep (j : Joined s s₁ i t ms) (ha : Asleep s) : Asleep s₁ := fun r hr => by
  rcases j.mem.mp hr with rfl | hr
  · exact ⟨_, j.self, rfl⟩
  · rw [(j.other hr).2]
    exact ha r hr

/-- All who sleep are to wake on the side of the caller. -/
theorem Joined.side (j : Joined s s₁ i t ms) (hwrap : s.jiffies.toNat + sleepFor ms < 2 ^ 32)
    (hside : ∀ r ∈ s.sleepers, s.wakeAt r < 2 ^ 31 ↔ s.jiffies.toNat + sleepFor ms < 2 ^ 31)
    (hr : r ∈ s₁.sleepers) : s₁.wakeAt r < 2 ^ 31 ↔ s.jiffies.toNat + sleepFor ms < 2 ^ 31 := by
  rcases j.mem.mp hr with rfl | hr
  · rw [j.wakeSelf hwrap]
  · rw [j.wake hr]
    exact hside r hr

/-- The keys that the insertion compares are those of the list afterwards, and on one side of 2^31 their order is that
of the times. -/
theorem Joined.sorted (j : Joined s s₁ i t ms) (ha : Asleep s)
    (hside : ∀ r ∈ s₁.sleepers, ∀ q ∈ s₁.sleepers, s₁.wakeAt r < 2 ^ 31 ↔ s₁.wakeAt q < 2 ^ 31)
    (hsorted : s.sleepers.Pairwise fun a b => s.wakeAt a ≤ s.wakeAt b) :
    s₁.sleepers.Pairwise fun a b => s₁.wakeAt a ≤ s₁.wakeAt b := by
  have hkey : ∀ r ∈ s₁.sleepers, (s.upd (.slot i) fun t =>
      { t with ticks := s.jiffies + sleepTicks ms }).ticksKey r = s₁.ticksKey r := fun r hr => by
    rcases j.mem.mp hr with rfl | hr
    · simp only [ticksKey, upd_pcb_self, j.was, Option.map_some, j.self]
    · simp only [ticksKey, upd_pcb_ne _ _ (j.other hr).1, (j.other hr).2]
  have hle : ∀ a ∈ s₁.sleepers, ∀ b ∈ s₁.sleepers,
      s₁.ticksKey a ≤ s₁.ticksKey b ↔ s₁.wakeAt a ≤ s₁.wakeAt b := fun a ha' b hb => by
    obtain ⟨x, hx, -⟩ := j.asleep ha a ha'
    obtain ⟨y, hy, -⟩ := j.asleep ha b hb
    exact ticksKey_le hx hy (hside a ha' b hb)
  have hold : s.sleepers.Pairwise fun a b =>
      (s.upd (.slot i) fun t => { t with ticks := s.jiffies + sleepTicks ms }).ticksKey a ≤
      (s.upd (.slot i) fun t => { t with ticks := s.jiffies + sleepTicks ms }).ticksKey b := by
    refine hsorted.imp_of_mem fun {a b} ha' hb hab => ?_
    have ha₁ := j.mem.mpr (Or.inr ha')
    have hb₁ := j.mem.mpr (Or.inr hb)
    rw [hkey a ha₁, hkey b hb₁, hle a ha₁ b hb₁, j.wake ha', j.wake hb]
    exact hab
  have hnew := pairwise_insertBefore (.slot i) hold
  change (s₁.lists .sleepList).Pairwise _
  rw [j.list]
  refine hnew.imp_of_mem fun {a b} ha' hb hab => ?_
  rw [← j.list] at ha' hb
  rw [hkey a ha', hkey b hb] at hab
  exact (hle a ha' b hb).mp hab

/-- The caller's promise is kept for it as for those before. -/
theorem Joined.punctual {m : Timed} (j : Joined m.sched s₁ i t ms) (k : Punctual m) (hcur : m.sched.current = .slot i)
    (hidle : m.sched.current ≠ m.sched.idle) (hok : InTime m (.sleep ms)) :
    Punctual { sched := s₁, now := m.now, due := m.promise (.sleep ms) } := by
  obtain ⟨hwrap, hside⟩ := hok
  have hdue : ∀ r, r ≠ .slot i → m.promise (.sleep ms) r = m.due r := fun r hne => by
    change Function.update m.due m.sched.current _ r = _
    rw [hcur, Function.update_of_ne hne]
  have hsame : ∀ r ∈ s₁.sleepers, ∀ q ∈ s₁.sleepers, s₁.wakeAt r < 2 ^ 31 ↔ s₁.wakeAt q < 2 ^ 31 := fun r hr q hq =>
    (j.side hwrap hside hr).trans (j.side hwrap hside hq).symm
  refine ⟨?_, fun r d hd => ?_, j.asleep k.asleep, fun r hr => ?_, hsame, j.sorted k.asleep hsame k.sorted⟩
  · change s₁.idle ∉ s₁.sleepers
    rw [j.mem, j.idle, ← hcur]
    exact not_or.mpr ⟨fun he => hidle he.symm, k.idle⟩
  · change r ∈ s₁.sleepers
    rw [j.mem]
    by_cases hri : r = .slot i
    · exact Or.inl hri
    · change m.promise (.sleep ms) r = _ at hd
      rw [hdue r hri] at hd
      exact Or.inr (k.kept r d hd)
  · rcases j.mem.mp hr with rfl | hr
    · refine ⟨m.now + sleepFor ms, ?_, Nat.le_add_right .., ?_⟩
      · change Function.update m.due m.sched.current _ _ = _
        rw [hcur, Function.update_self]
      · change s₁.wakeAt _ + m.now = s₁.jiffies.toNat + (m.now + sleepFor ms)
        rw [j.wakeSelf hwrap, j.jiffies]
        omega
    · change ∃ d, m.promise (.sleep ms) r = some d ∧ m.now ≤ d ∧ s₁.wakeAt r + m.now = s₁.jiffies.toNat + d
      rw [hdue r (j.other hr).1, j.wake hr, j.jiffies]
      exact k.due r hr

end

/-- A call of `task_sleep`: the caller joins the list at its place. -/
theorem Punctual.sleep {m m' : Timed} {ms : UInt32} (k : Punctual m) (hi : Inv m.sched) (hok : InTime m (.sleep ms))
    (h : Timed.Step m (.sleep ms) m') : Punctual m' := by
  obtain ⟨o, hboot, hx⟩ := h.step
  obtain ⟨s', hs', he⟩ := bind_ok.mp hx
  cases he
  obtain ⟨i, t, hcur, ht⟩ := current_slot hi hboot
  have hr := hi.running
  rw [hcur] at hr
  obtain ⟨t', ht', hrun⟩ := hr
  rw [ht] at ht'
  cases ht'
  obtain ⟨s₁, -, heq, hpcb, hlist, hcur₁, hidle, hjiffies⟩ :=
    taskSleep_eq hi.toCore ms hcur ht (hi.slot_node ht (Or.inr hrun))
  have hawake := hi.current_awake k.asleep
  rw [hcur] at hawake
  have j : Joined m.sched s₁ i t ms := ⟨hpcb, hlist, ht, hawake, hidle, hjiffies⟩
  have k₁ := j.punctual k hcur h.called hok
  refine k₁.rests ?_ (by rw [h.now]; rfl) h.due
  rw [heq] at hs'
  refine schedule_rests hs' k₁.asleep k₁.idle fun _ u hu => ?_
  rw [hcur₁, hcur, j.self] at hu
  cases hu
  refine ⟨fun hz => ?_, (fun hst => by cases hst)⟩
  have hpos : 0 < sleepFor ms := by unfold sleepFor; omega
  have hticks := wakeTicks_toNat hok.1
  change m.sched.jiffies + sleepTicks ms = 0 at hz
  rw [hz] at hticks
  change 0 = _ at hticks
  omega

theorem Punctual.step {m m' : Timed} {e : Event} (k : Punctual m) (hi : Inv m.sched) (hok : InTime m e)
    (h : Timed.Step m e m') : Punctual m' := by
  have hawake := hi.current_awake k.asleep
  obtain ⟨o, hboot, hx⟩ := h.step
  cases e with
  | tick => exact k.tick hi h
  | sleep ms => exact k.sleep hi hok h
  | weakup => exact h.called.elim
  | yield =>
    obtain ⟨s', hs', he⟩ := bind_ok.mp hx
    cases he
    exact k.rests (schedule_rests hs' k.asleep k.idle fun hmem => absurd hmem hawake) h.now h.due
  | preempt r =>
    obtain ⟨s', hs', he⟩ := bind_ok.mp hx
    cases he
    obtain ⟨t, ht, hst⟩ := hboot
    have hr := k.asleep.not_mem ht (by rw [hst]; decide)
    exact k.rests (switchTo_rests hs' hr fun hmem => absurd hmem hawake) h.now h.due
  | block r l state =>
    obtain ⟨s', hs', he⟩ := bind_ok.mp hx
    cases he
    obtain ⟨⟨t, ht, hst⟩, -⟩ := hboot
    have hr := k.asleep.not_mem ht (by rcases hst with hst | hst <;> rw [hst] <;> decide)
    exact k.rests (taskBlock_rests hs' k.asleep h.called k.idle hr) h.now h.due
  | unblock r =>
    obtain ⟨s', hs', he⟩ := bind_ok.mp hx
    cases he
    exact k.rests (taskUnblock_rests hs' h.called) h.now h.due
  | fork =>
    obtain ⟨⟨i, s'⟩, hs', he⟩ := bind_ok.mp hx
    cases he
    exact k.rests (forkPcb_rests hs' k.asleep) h.now h.due
  | exit status =>
    obtain ⟨x, -, hx⟩ := bind_ok.mp hx
    obtain ⟨s', hs', he⟩ := bind_ok.mp hx
    cases he
    exact k.rests (taskExit_rests hs' k.asleep k.idle hawake) h.now h.due
  | waitpid pid =>
    obtain ⟨⟨ret, s'⟩, hs', he⟩ := bind_ok.mp hx
    cases he
    exact k.rests (taskWaitpid_rests hs' k.asleep k.idle hawake) h.now h.due

theorem init_punctual {m : Timed} (h : m.Init) : Inv m.sched ∧ Family m.sched ∧ Punctual m := by
  obtain ⟨⟨s, hs, hm⟩, hdue⟩ := h
  have hi := init_inv hs
  have hnone : m.sched.sleepers = [] := by
    rw [hm]
    exact (init_pcb hs).2.2.2.2.2 .sleepList
  have hnot : ∀ r, r ∉ m.sched.sleepers := fun r => by simp [hnone]
  refine ⟨?_, ?_, hnot _, fun r d hd => ?_, fun r hr => absurd hr (hnot r), fun r hr => absurd hr (hnot r),
    fun r hr => absurd hr (hnot r), ?_⟩
  · rw [hm]
    exact ⟨hi.toCore.of_eq rfl rfl rfl rfl, hi.running⟩
  · rw [hm]
    exact (init_family hs).settles (.of_pcb rfl rfl)
  · rw [hdue] at hd
    cases hd
  · rw [hnone]
    exact List.Pairwise.nil

/-- Sleepers wake on time, in every run in which the wake times do not wrap and stand on one side of 2^31. -/
theorem sleepers_wake {es : List Event} {m : Timed} (h : Run Timed.Init (Restrict InTime Timed.Step) es m) :
    OnTime m := by
  have hall : Inv m.sched ∧ Family m.sched ∧ Punctual m := by
    refine Run.invariant (I := fun m => Inv m.sched ∧ Family m.sched ∧ Punctual m) (fun m hm => init_punctual hm)
      (fun m e m' k hs => ?_) es m h
    obtain ⟨hi, hf, k⟩ := k
    obtain ⟨o, hstep⟩ := hs.2.step
    have out := step_outcome hi hf hstep
    exact ⟨out.inv, out.family, k.step hi hs.1 hs.2⟩
  exact hall.2.2.onTime hall.1

instance (s : Sched) (e : Event) : Decidable (Called s e) :=
  match e with
  | .block _ l _ => inferInstanceAs (Decidable (l ≠ some .sleepList))
  | .unblock r => inferInstanceAs (Decidable (.slot r ∉ s.sleepers))
  | .sleep _ => inferInstanceAs (Decidable (s.current ≠ s.idle))
  | .weakup => inferInstanceAs (Decidable False)
  | .tick | .yield | .preempt _ | .fork | .exit _ | .waitpid _ => inferInstanceAs (Decidable True)

instance (m : Timed) (e : Event) : Decidable (InTime m e) :=
  match e with
  | .sleep ms => inferInstanceAs (Decidable (m.sched.jiffies.toNat + sleepFor ms < 2 ^ 32 ∧
      ∀ r ∈ m.sched.sleepers, m.sched.wakeAt r < 2 ^ 31 ↔ m.sched.jiffies.toNat + sleepFor ms < 2 ^ 31))
  | .block _ _ _ | .unblock _ | .weakup | .tick | .yield | .preempt _ | .fork | .exit _ | .waitpid _ =>
    inferInstanceAs (Decidable True)

/-- Performs `e` if it is enabled and does not halt. -/
def Timed.attempt (m : Timed) (e : Event) : Option (Event × Timed) :=
  if Called m.sched e then
    (m.sched.attempt e).map fun r => (e, { sched := r.2, now := m.now + passes e, due := m.promise e })
  else none

theorem Timed.attempt_step {m m' : Timed} {e e' : Event} (h : m.attempt e = some (e', m')) : Timed.Step m e' m' := by
  unfold Timed.attempt at h
  split_ifs at h with hc
  obtain ⟨⟨⟨e₁, o⟩, s⟩, hs, heq⟩ := Option.map_eq_some_iff.mp h
  cases heq
  have he : e₁ = e := by
    unfold Sched.attempt at hs
    split_ifs at hs
    split at hs <;> cases hs
    rfl
  subst he
  exact ⟨hc, ⟨o, Sched.attempt_step hs⟩, rfl, rfl⟩

/-- After booting, at the uptime `jiffies`. -/
def bootedAt (jiffies : UInt32) : Option Timed :=
  match taskInit bootPcb with
  | .ok s => some { sched := { s with jiffies := jiffies }, now := 0, due := fun _ => none }
  | .error _ => none

theorem bootedAt_init {jiffies : UInt32} {m : Timed} (h : bootedAt jiffies = some m) : m.Init := by
  unfold bootedAt at h
  split at h
  · rename_i s hs
    cases h
    exact ⟨⟨s, ⟨bootPcb, hs⟩, rfl⟩, fun _ => rfl⟩
  · cases h

/-- Task 1 sleeps for 20 ms: two ticks later its time has come. -/
theorem sleepers_wake_two : ∃ es m, Run Timed.Init (Restrict InTime Timed.Step) es m ∧
    m.due (.slot ⟨1, by decide⟩) = some m.now ∧ OnTime m := by
  have hsome : ((bootedAt 1000).bind fun m => (replay (fun m e => if InTime m e then m.attempt e else none) m
      [.yield, .sleep 20, .tick, .tick]).map fun r =>
        decide (r.2.due (.slot ⟨1, by decide⟩) = some r.2.now)) = some true := by
    decide +kernel
  obtain ⟨m₀, h₀, hsome⟩ := Option.bind_eq_some_iff.mp hsome
  obtain ⟨⟨es, m⟩, hes, hdue⟩ := Option.map_eq_some_iff.mp hsome
  have hstep : ∀ m e e' m', (if InTime m e then m.attempt e else none) = some (e', m') →
      Restrict InTime Timed.Step m e' m' := fun m e e' m' h => by
    split_ifs at h with hok
    have hs := Timed.attempt_step h
    have he : e' = e := by
      unfold Timed.attempt at h
      split_ifs at h
      obtain ⟨r, -, heq⟩ := Option.map_eq_some_iff.mp h
      cases heq
      rfl
    exact ⟨he ▸ hok, hs⟩
  have hr : Run Timed.Init (Restrict InTime Timed.Step) es m := by
    simpa using Run.replay hstep _ m₀ [] es m (.nil (bootedAt_init h₀)) hes
  exact ⟨es, m, hr, of_decide_eq_true hdue, sleepers_wake hr⟩

/-- Four ticks before 2^31, task 1 sleeps for ten ticks and task 2 for one: task 1 is to wake at a negative number and
stands in front, and the tick at which task 2 is to wake stops there. -/
theorem sleepers_oversleep : ¬ ∀ es m, Run Timed.Init Timed.Step es m → OnTime m := by
  intro hall
  have hsome : ((bootedAt 0x7ffffffc).bind fun m => (replay Timed.attempt m
      [.yield, .sleep 100, .sleep 10, .tick]).map fun r => (r.2.now, r.2.due (.slot ⟨2, by decide⟩),
        match r.2.sched.taskWeakup with
        | .ok s => (s.pcb (.slot ⟨2, by decide⟩)).map Task.state
        | .error _ => none)) = some (1, some 1, some .sleeping) := by
    decide +kernel
  obtain ⟨m₀, h₀, hsome⟩ := Option.bind_eq_some_iff.mp hsome
  obtain ⟨⟨es, m⟩, hes, hm⟩ := Option.map_eq_some_iff.mp hsome
  have hr : Run Timed.Init Timed.Step es m := by
    have hstep : ∀ m e e' m', Timed.attempt m e = some (e', m') → Timed.Step m e' m' := fun _ _ _ _ h =>
      Timed.attempt_step h
    simpa using Run.replay hstep _ m₀ [] es m (.nil (bootedAt_init h₀)) hes
  obtain ⟨s', hs', hwakes⟩ := (hall es m hr).wakes
  simp only [hs', Prod.mk.injEq] at hm
  obtain ⟨hnow, hdue, hstate⟩ := hm
  obtain ⟨-, -, hready⟩ := hwakes _ 1 hdue
  obtain ⟨t, ht, hst⟩ := hready.mpr hnow.symm
  rw [ht] at hstate
  rw [Option.map_some, hst] at hstate
  cases hstate

end Sched
end Onix
