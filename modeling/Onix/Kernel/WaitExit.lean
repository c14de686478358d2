import Onix.Kernel.Process
import Onix.Kernel.ScheduleInv

/-! The family invariant: what the pids, parents and waits of the tasks in
`task_table` satisfy in every state the kernel entries can reach. Scheduling
keeps it because it writes none of these fields; fork, exit and wait are taken
one by one. -/

set_option autoImplicit false

namespace Onix
namespace Sched

open Lib

/-- `c` is a child that ends the wait of `t`. -/
def Awaits (t c : Task) : Prop :=
  c.ppid = t.pid ∧ (t.waitpid = (c.pid.val : ℤ) ∨ t.waitpid = -1)

structure Family (s : Sched) : Prop where
  idle : s.idle = .slot ⟨0, by decide⟩
  pid : ∀ i t, s.pcb (.slot i) = some t → t.pid = i
  /-- The tasks 0 and 1 never exit. -/
  elders : ∀ i t, s.pcb (.slot i) = some t → i.val < 2 → t.state ≠ .dead
  parent : ∀ i t, s.pcb (.slot i) = some t → i.val ≠ 0 →
    ∃ p, s.pcb (.slot t.ppid) = some p ∧ p.state ≠ .dead
  /-- Parents are older than their children, so nobody is its own ancestor. -/
  older : ∃ age : Slot → ℕ, ∀ i t, s.pcb (.slot i) = some t → i.val ≠ 0 → age t.ppid < age i
  waiting : ∀ i t, s.pcb (.slot i) = some t → t.state = .waiting →
    (∃ j c, s.pcb (.slot j) = some c ∧ Awaits t c) ∧
    ∀ j c, s.pcb (.slot j) = some c → Awaits t c → c.state ≠ .dead

theorem Settles.back {s s' : Sched} (w : Settles s s') {r : TaskRef} {t' : Task}
    (ht' : s'.pcb r = some t') : ∃ t, s.pcb r = some t ∧ kin t' = kin t ∧
      (t'.state = t.state ∨ t.state ≠ .dead ∧ active t') := by
  cases hp : s.pcb r with
  | none => rw [w.absent r hp] at ht'; cases ht'
  | some t =>
    obtain ⟨t₁, ht₁, hk, hst⟩ := w.stays r t hp
    rw [ht₁] at ht'
    cases ht'
    exact ⟨t, rfl, hk, hst⟩

theorem kin_eq {t t' : Task} (h : kin t' = kin t) :
    t'.pid = t.pid ∧ t'.ppid = t.ppid ∧ t'.status = t.status ∧ t'.waitpid = t.waitpid := by
  simpa [kin] using h

theorem not_dead_of_settled {t t' : Task} (h : t'.state = t.state ∨ t.state ≠ .dead ∧ active t') :
    t'.state = .dead ↔ t.state = .dead := by
  rcases h with he | ⟨hd, ha⟩
  · rw [he]
  · exact iff_of_false ha.1 hd

theorem Family.settles {s s' : Sched} (h : Family s) (w : Settles s s') : Family s' := by
  have back := fun (i : Slot) (t' : Task) (ht' : s'.pcb (.slot i) = some t') => w.back ht'
  refine ⟨w.idle.trans h.idle, ?_, ?_, ?_, ?_, ?_⟩
  · intro i t' ht'
    obtain ⟨t, ht, hk, -⟩ := back i t' ht'
    rw [(kin_eq hk).1]
    exact h.pid i t ht
  · intro i t' ht' hi
    obtain ⟨t, ht, -, hst⟩ := back i t' ht'
    exact fun hd => h.elders i t ht hi ((not_dead_of_settled hst).mp hd)
  · intro i t' ht' hi
    obtain ⟨t, ht, hk, -⟩ := back i t' ht'
    obtain ⟨p, hp, hd⟩ := h.parent i t ht hi
    obtain ⟨p', hp', -, hst⟩ := w.stays _ p hp
    exact ⟨p', by rw [(kin_eq hk).2.1]; exact hp', fun hd' => hd ((not_dead_of_settled hst).mp hd')⟩
  · obtain ⟨age, hage⟩ := h.older
    refine ⟨age, fun i t' ht' hi => ?_⟩
    obtain ⟨t, ht, hk, -⟩ := back i t' ht'
    rw [(kin_eq hk).2.1]
    exact hage i t ht hi
  · intro i t' ht' hwait
    obtain ⟨t, ht, hk, hst⟩ := back i t' ht'
    have hwait : t.state = .waiting := by
      rcases hst with he | ⟨-, ha⟩
      · rw [← he]; exact hwait
      · exact absurd hwait ha.2.1
    obtain ⟨⟨j, c, hc, haw⟩, hall⟩ := h.waiting i t ht hwait
    have hawaits : ∀ c c', kin c' = kin c → (Awaits t' c' ↔ Awaits t c) := by
      intro c c' hkc
      obtain ⟨h1, h2, -⟩ := kin_eq hkc
      obtain ⟨h3, -, -, h4⟩ := kin_eq hk
      unfold Awaits
      rw [h1, h2, h3, h4]
    constructor
    · obtain ⟨c', hc', hkc, -⟩ := w.stays _ c hc
      exact ⟨j, c', hc', (hawaits c c' hkc).mpr haw⟩
    · intro j c' hc' haw'
      obtain ⟨c, hc, hkc, hstc⟩ := back j c' hc'
      exact fun hd => hall j c hc ((hawaits c c' hkc).mp haw') ((not_dead_of_settled hstc).mp hd)

/-! ### fork -/

theorem getFreeTask_some {s : Sched} {c : Slot} (h : s.getFreeTask = .ok c) :
    s.pcb (.slot c) = none := by
  unfold getFreeTask at h
  split at h
  · rename_i i hi
    cases h
    simpa using List.find?_some hi
  · cases h

/-- The PCB a fork puts in slot `c`. -/
def forked (t : Task) (c : Slot) : Task :=
  { t with pid := c, ppid := t.pid, state := .ready, ticks := t.priority }

theorem forkPcb_cases {s : Sched} (h : Inv s) {i : Slot} (hcur : s.current = .slot i) :
    s.forkPcb = .error (.panic "No more PCBs\n") ∨
    ∃ c t, s.forkPcb = .ok (c, s.setTask c (some (forked t c))) ∧
      s.pcb (.slot c) = none ∧ s.pcb (.slot i) = some t ∧ t.state = .running := by
  obtain ⟨t, ht, hr⟩ := h.running
  rw [hcur] at ht
  have hn := h.slot_node ht (Or.inr hr)
  have hget : s.get s.current = .ok t := by rw [hcur]; exact get_ok.mpr ht
  cases hf : s.getFreeTask with
  | error e =>
    left
    have he : e = .panic "No more PCBs\n" := by
      unfold getFreeTask at hf
      split at hf <;> cases hf
      rfl
    simp [forkPcb, hget, hn, hr, hf, he]
  | ok c =>
    right
    exact ⟨c, t, by simp [forkPcb, hget, hn, hr, hf, forked], getFreeTask_some hf, ht, hr⟩

theorem setTask_keep {s : Sched} {c : Slot} {o : Option Task} (hc : s.pcb (.slot c) = none)
    {r : TaskRef} {t : Task} (hr : s.pcb r = some t) : (s.setTask c o).pcb r = some t := by
  rw [setTask_pcb, if_neg]
  · exact hr
  · rintro rfl
    rw [hc] at hr
    cases hr

theorem setTask_back {s : Sched} {c : Slot} {t' : Task} {r : TaskRef} {t : Task}
    (hr : (s.setTask c (some t')).pcb r = some t) : (r = .slot c ∧ t = t') ∨ s.pcb r = some t := by
  rw [setTask_pcb] at hr
  split_ifs at hr with he
  · exact Or.inl ⟨he, (Option.some.inj hr).symm⟩
  · exact Or.inr hr

theorem fork_inv {s : Sched} (h : Inv s) {i c : Slot} {t : Task} (hcur : s.current = .slot i)
    (hc : s.pcb (.slot c) = none) (ht : s.pcb (.slot i) = some t) (hr : t.state = .running) :
    Inv (s.setTask c (some (forked t c))) := by
  have hn : t.node = none := h.slot_node ht (Or.inr hr)
  have hrun : (s.setTask c (some (forked t c))).pcb s.current = some t := by
    rw [hcur]
    exact setTask_keep hc ht
  refine ⟨⟨⟨t, hrun⟩, ?_, ?_, ?_, h.nodup, ?_, ?_⟩, ⟨t, hrun, hr⟩⟩
  · intro r t₁ hr₁ hrun
    rcases setTask_back hr₁ with ⟨-, rfl⟩ | hr₁
    · cases hrun
    · exact h.onlyRunning r t₁ hr₁ hrun
  · intro j t₁ hj
    rcases setTask_back hj with ⟨-, rfl⟩ | hj
    · simp [forked, hn, TaskState.queued]
    · exact h.linked j t₁ hj
  · intro l r
    rw [setTask_lists, h.listed]
    constructor
    · rintro ⟨j, t₁, rfl, ht₁, hn₁⟩
      exact ⟨j, t₁, rfl, setTask_keep hc ht₁, hn₁⟩
    · rintro ⟨j, t₁, rfl, ht₁, hn₁⟩
      rcases setTask_back ht₁ with ⟨-, rfl⟩ | ht₁
      · simp [forked, hn] at hn₁
      · exact ⟨j, t₁, rfl, ht₁, hn₁⟩
  · obtain ⟨j, t₁, hj, ht₁, hd⟩ := h.idle
    exact ⟨j, t₁, hj, setTask_keep hc ht₁, hd⟩
  · intro r t₁ hr₁
    rcases setTask_back hr₁ with ⟨-, rfl⟩ | hr₁
    · exact h.magic _ t ht
    · exact h.magic r t₁ hr₁

theorem fork_family {s : Sched} (h : Family s) {i c : Slot} {t : Task}
    (hc : s.pcb (.slot c) = none) (ht : s.pcb (.slot i) = some t) (hr : t.state = .running) :
    Family (s.setTask c (some (forked t c))) := by
  have hpid : t.pid = i := h.pid i t ht
  have hnc : ∀ j t₁, s.pcb (.slot j) = some t₁ → j ≠ c := fun j t₁ hj he => by
    rw [he, hc] at hj; cases hj
  refine ⟨h.idle, ?_, ?_, ?_, ?_, ?_⟩
  · intro j t₁ hj
    rcases setTask_back hj with ⟨he, rfl⟩ | hj
    · exact (TaskRef.slot.inj he).symm
    · exact h.pid j t₁ hj
  · intro j t₁ hj hlt
    rcases setTask_back hj with ⟨-, rfl⟩ | hj
    · simp [forked]
    · exact h.elders j t₁ hj hlt
  · intro j t₁ hj h0
    rcases setTask_back hj with ⟨-, rfl⟩ | hj
    · refine ⟨t, ?_, by rw [hr]; decide⟩
      rw [show (forked t c).ppid = i from hpid]
      exact setTask_keep hc ht
    · obtain ⟨p, hp, hd⟩ := h.parent j t₁ hj h0
      exact ⟨p, setTask_keep hc hp, hd⟩
  · obtain ⟨age, hage⟩ := h.older
    -- the child is younger than its parent, and nobody's parent yet
    refine ⟨Function.update age c (age i + 1), fun j t₁ hj h0 => ?_⟩
    rcases setTask_back hj with ⟨he, rfl⟩ | hj
    · cases he
      rw [show (forked t c).ppid = i from hpid, Function.update_self,
        Function.update_of_ne (hnc i t ht)]
      omega
    · obtain ⟨p, hp, -⟩ := h.parent j t₁ hj h0
      rw [Function.update_of_ne (hnc _ p hp), Function.update_of_ne (hnc j t₁ hj)]
      exact hage j t₁ hj h0
  · intro j t₁ hj hw
    rcases setTask_back hj with ⟨-, rfl⟩ | hj
    · cases hw
    obtain ⟨⟨k, d, hd, haw⟩, hall⟩ := h.waiting j t₁ hj hw
    refine ⟨⟨k, d, setTask_keep hc hd, haw⟩, fun k d hd haw => ?_⟩
    rcases setTask_back hd with ⟨-, rfl⟩ | hd
    · simp [forked]
    · exact hall k d hd haw

/-! ### exit -/

/-- The PCB `t` of slot `r` once `x` is marked dead and its children are handed on. -/
def orphaned (x : Task) (status : ℤ) (r : TaskRef) (t : Task) : Task :=
  match r with
  | .boot => t
  | .slot i =>
    { t with
      state := if i = x.pid then .dead else t.state
      status := if i = x.pid then status else t.status
      ppid := if t.ppid = x.pid then x.ppid else t.ppid }

theorem taskExit_eq {s : Sched} (h : Inv s) (hf : Family s) {i : Slot} {x : Task} (status : ℤ)
    (hcur : s.current = .slot i) (hx : s.pcb (.slot i) = some x) (hi : 2 ≤ i.val) :
    ∃ s2 x', Core s2 ∧ (∀ r, s2.pcb r = (s.pcb r).map (orphaned x status r)) ∧
      s2.current = s.current ∧ s2.idle = s.idle ∧ x'.pid = x.pid ∧ x'.ppid = x.ppid ∧
      s.taskExit status = s2.wakeParent x' >>= Sched.schedule := by
  have hr : x.state = .running := by
    obtain ⟨t, ht, hr⟩ := h.running
    rw [hcur, hx] at ht
    cases ht
    exact hr
  have hn := h.slot_node hx (Or.inr hr)
  have hpid := hf.pid i x hx
  set x' : Task := { x with state := .dead, status := status } with hx'
  set s1 := s.upd (.slot i) (fun t => { t with state := .dead, status := status }) with hs1
  have hpcb : ∀ r, (s1.reparent x').pcb r = (s.pcb r).map (orphaned x status r) := by
    intro r
    cases r with
    | boot =>
      have hb : s1.pcb .boot = s.pcb .boot := upd_pcb_ne s _ (by simp)
      simp only [reparent, hb]
      exact Option.map_id'.symm
    | slot j =>
      simp only [reparent, hs1, upd_pcb, TaskRef.slot.injEq]
      cases hj : s.pcb (.slot j) with
      | none => simp
      | some t =>
        by_cases hji : j = i
        · subst hji
          rw [hx] at hj
          cases hj
          simp only [orphaned, hpid, hx', ite_true, Option.map_some, ne_eq, ite_not]
          split_ifs <;> rfl
        · simp only [hji, ite_false, Option.map_some, orphaned, hpid, hx', ne_eq, ite_not]
          split_ifs <;> rfl
  have hnotIdle : s.idle ≠ .slot i := by
    rw [hf.idle]
    intro he
    rw [← TaskRef.slot.inj he] at hi
    simp at hi
  refine ⟨s1.reparent x', x', ?_, hpcb, rfl, rfl, rfl, rfl, ?_⟩
  · refine h.toCore.map (orphaned x status) hpcb rfl rfl rfl ?_ ?_ ?_
    · intro r t ht
      cases r with
      | boot => exact ⟨rfl, rfl, rfl⟩
      | slot j =>
        refine ⟨rfl, rfl, ?_⟩
        simp only [orphaned, hpid]
        split_ifs with hj
        · subst hj
          rw [hx] at ht
          cases ht
          rw [hr]; rfl
        · rfl
    · intro r t _ hst
      cases r with
      | boot => exact hst
      | slot j =>
        simp only [orphaned] at hst
        split_ifs at hst
        exact hst
    · intro t _ hd hini
      rw [hf.idle] at hnotIdle ⊢
      have : (⟨0, by decide⟩ : Slot) ≠ x.pid := fun he => hnotIdle (by rw [he, hpid])
      simp only [orphaned, this, ite_false]
      exact ⟨hd, hini⟩
  · have hget : s.get (.slot i) = .ok x := get_ok.mpr hx
    have hget1 : s1.get s1.current = .ok x' := by
      rw [hs1, upd_current, hcur]
      simp [get, hx, hx']
    simp only [taskExit, markDead, hcur, hget, ok_bind, hn, hr, Option.isNone_none, beq_self_eq_true,
      Bool.and_self, assert_true]
    rw [← hs1, hget1, ok_bind]

/-- How the exit of task `i`, with parent `g`, changes the PCB of slot `j`. -/
structure ExitRel (i g j : Slot) (t t' : Task) : Prop where
  pid : t'.pid = t.pid
  waitpid : t'.waitpid = t.waitpid
  ppid : t'.ppid = if t.ppid = i then g else t.ppid
  dead : t'.state = .dead ↔ j = i ∨ t.state = .dead
  waiting : t'.state = .waiting → t.state = .waiting ∧
    (j = g → t.waitpid ≠ (i.val : ℤ) ∧ t.waitpid ≠ -1)

theorem exit_family {s s' : Sched} (h : Family s) {i : Slot} {x : Task}
    (hx : s.pcb (.slot i) = some x) (hi : 2 ≤ i.val) (hrun : x.state = .running)
    (hidle : s'.idle = s.idle)
    (fwd : ∀ j t, s.pcb (.slot j) = some t → ∃ t', s'.pcb (.slot j) = some t' ∧ ExitRel i x.ppid j t t')
    (back : ∀ j t', s'.pcb (.slot j) = some t' → ∃ t, s.pcb (.slot j) = some t ∧ ExitRel i x.ppid j t t') :
    Family s' := by
  obtain ⟨age, hage⟩ := h.older
  obtain ⟨g, hg, hgd⟩ := h.parent i x hx (by omega)
  have hgi : x.ppid ≠ i := fun he => by have := hage i x hx (by omega); rw [he] at this; omega
  refine ⟨hidle.trans h.idle, ?_, ?_, ?_, ⟨age, ?_⟩, ?_⟩
  · intro j t' ht'
    obtain ⟨t, ht, r⟩ := back j t' ht'
    rw [r.pid]
    exact h.pid j t ht
  · intro j t' ht' hj hd
    obtain ⟨t, ht, r⟩ := back j t' ht'
    rcases r.dead.mp hd with rfl | hd
    · omega
    · exact h.elders j t ht hj hd
  · intro j t' ht' hj
    obtain ⟨t, ht, r⟩ := back j t' ht'
    have lives : ∀ k p, s.pcb (.slot k) = some p → p.state ≠ .dead → k ≠ i →
        ∃ p', s'.pcb (.slot k) = some p' ∧ p'.state ≠ .dead := by
      intro k p hp hpd hki
      obtain ⟨p', hp', rp⟩ := fwd k p hp
      exact ⟨p', hp', fun hd => (rp.dead.mp hd).elim hki hpd⟩
    rw [r.ppid]
    split_ifs with hc
    · exact lives _ g hg hgd hgi
    · obtain ⟨p, hp, hpd⟩ := h.parent j t ht hj
      exact lives _ p hp hpd hc
  · intro j t' ht' hj
    obtain ⟨t, ht, r⟩ := back j t' ht'
    have hlt := hage j t ht hj
    rw [r.ppid]
    split_ifs with hc
    · rw [hc] at hlt
      exact (hage i x hx (by omega)).trans hlt
    · exact hlt
  · intro j t' ht' hw
    obtain ⟨t, ht, r⟩ := back j t' ht'
    obtain ⟨htw, hspecific⟩ := r.waiting hw
    obtain ⟨⟨k, c, hc, hcp, hcw⟩, hall⟩ := h.waiting j t ht htw
    have hji : j ≠ i := by
      rintro rfl
      rw [hx] at ht
      cases ht
      rw [hrun] at htw
      cases htw
    have htpid : t.pid = j := h.pid j t ht
    constructor
    · -- the child that matched still does: `t` did not exit
      obtain ⟨c', hc', rc⟩ := fwd k c hc
      refine ⟨k, c', hc', ?_, by rw [rc.pid, r.waitpid]; exact hcw⟩
      rw [rc.ppid, r.pid, if_neg (by rw [hcp, htpid]; exact hji)]
      exact hcp
    · rintro k c' hc' ⟨hcp', hcw'⟩
      obtain ⟨c, hc, rc⟩ := back k c' hc'
      rw [rc.ppid, r.pid, htpid] at hcp'
      rw [rc.pid, r.waitpid, h.pid k c hc] at hcw'
      split_ifs at hcp' with hci
      · -- a child of the exited task: its new parent waits for somebody else, who is in slot `k`
        obtain ⟨hni, hn1⟩ := hspecific hcp'.symm
        obtain ⟨k₀, c₀, hc₀, hc₀p, hc₀w⟩ := (h.waiting j t ht htw).1
        rw [h.pid k₀ c₀ hc₀] at hc₀w
        have hk : (k.val : ℤ) = k₀.val := by omega
        have hk : k = k₀ := Fin.ext (by exact_mod_cast hk)
        subst hk
        rw [hc] at hc₀
        cases hc₀
        rw [hci, htpid] at hc₀p
        exact absurd hc₀p.symm hji
      · have haw : Awaits t c := ⟨by rw [htpid]; exact hcp', by rw [h.pid k c hc]; exact hcw'⟩
        intro hd
        rcases rc.dead.mp hd with rfl | hd
        · -- the exited task itself is no child that `t` still waits for
          rw [hx] at hc
          cases hc
          obtain ⟨hni, hn1⟩ := hspecific hcp'.symm
          omega
        · exact hall k c hc haw hd

/-- The table `s'` once the exited task in slot `i` has handed on its children and woken its parent. -/
structure Exited (s s' : Sched) (i parent : Slot) (status : ℤ) : Prop where
  idle : s'.idle = s.idle
  fwd : ∀ j t, s.pcb (.slot j) = some t → ∃ t', s'.pcb (.slot j) = some t' ∧ ExitRel i parent j t t' ∧
    t'.status = if j = i then status else t.status
  back : ∀ j t', s'.pcb (.slot j) = some t' → ∃ t, s.pcb (.slot j) = some t

theorem Exited.related {s s' : Sched} {i parent : Slot} {status : ℤ} (h : Exited s s' i parent status) {j : Slot}
    {t' : Task} (ht' : s'.pcb (.slot j) = some t') :
    ∃ t, s.pcb (.slot j) = some t ∧ ExitRel i parent j t t' := by
  obtain ⟨t, ht⟩ := h.back j t' ht'
  obtain ⟨t₁, ht₁, r, -⟩ := h.fwd j t ht
  rw [ht₁] at ht'
  cases ht'
  exact ⟨t, ht, r⟩

/-- A task that is not a parent waiting for the exited one is as `orphaned` leaves it. -/
theorem orphaned_rel {i : Slot} {x : Task} (status : ℤ) (hpid : x.pid = i) {j : Slot} {t : Task}
    (hw : j = x.ppid → t.state = .waiting → t.waitpid ≠ (i.val : ℤ) ∧ t.waitpid ≠ -1) :
    ExitRel i x.ppid j t (orphaned x status (.slot j) t) := by
  refine ⟨rfl, rfl, by simp [orphaned, hpid], ?_, ?_⟩
  · simp only [orphaned, hpid]
    split_ifs with hj <;> simp [hj]
  · intro hst
    simp only [orphaned, hpid] at hst
    split_ifs at hst
    exact ⟨hst, fun hj => hw hj hst⟩

/-- The parent is woken exactly when the exited task ends its wait. -/
theorem wakeParent_spec {s s2 : Sched} (h2 : Core s2) {i : Slot} {x x' g : Task} {status : ℤ} (hpid : x.pid = i)
    (hg : s.pcb (.slot x.ppid) = some g) (hgd : g.state ≠ .dead) (hgi : x.ppid ≠ i)
    (hpcb : ∀ r, s2.pcb r = (s.pcb r).map (orphaned x status r)) (hidle : s2.idle = s.idle) (hxp : x'.pid = x.pid)
    (hxpp : x'.ppid = x.ppid) :
    ∃ s3, s2.wakeParent x' = .ok s3 ∧ Core s3 ∧ Exited s s3 i x.ppid status := by
  have fwd2 : ∀ j t, s.pcb (.slot j) = some t →
      s2.pcb (.slot j) = some (orphaned x status (.slot j) t) := fun j t ht => by
    rw [hpcb, ht]; rfl
  have back2 : ∀ j t₂, s2.pcb (.slot j) = some t₂ → ∃ t, s.pcb (.slot j) = some t := by
    intro j t₂ ht₂
    rw [hpcb] at ht₂
    obtain ⟨t, ht, -⟩ := Option.map_eq_some_iff.mp ht₂
    exact ⟨t, ht⟩
  set g2 := orphaned x status (.slot x.ppid) g with hg2
  have hgst : g2.state = g.state := by simp [hg2, orphaned, hpid, hgi]
  have hgw : g2.waitpid = g.waitpid := rfl
  have hget : s2.get (.slot x'.ppid) = .ok g2 := by rw [hxpp]; exact get_ok.mpr (fwd2 _ g hg)
  by_cases hc : g2.state = .waiting ∧ (g2.waitpid = (x'.pid.val : ℤ) ∨ g2.waitpid = -1)
  · obtain ⟨s3, hs3, h3, w3, hpcb3, -, -⟩ :=
      taskUnblock_spec h2 (fwd2 _ g hg) (by rw [← hg2, hc.1]; rfl)
    refine ⟨s3, ?_, h3, w3.idle.trans hidle, fun j t ht => ?_, fun j t' ht' => ?_⟩
    · rw [wakeParent, hget, ok_bind, if_pos hc, hxpp]
      exact hs3
    · rw [hpcb3]
      by_cases hj : j = x.ppid
      · subst hj
        rw [hg] at ht
        cases ht
        refine ⟨_, Function.update_self .., ⟨rfl, rfl, ?_, ?_, ?_⟩, ?_⟩
        · simp [orphaned, hpid]
        · simp [hgi, hgd]
        · simp
        · simp [orphaned, hpid]
      · have hne : TaskRef.slot j ≠ .slot x.ppid := fun he => hj (TaskRef.slot.inj he)
        rw [Function.update_of_ne hne]
        exact ⟨_, fwd2 j t ht, orphaned_rel status hpid fun he => absurd he hj, by simp [orphaned, hpid]⟩
    · obtain ⟨t₂, ht₂, -⟩ := w3.back ht'
      exact back2 j t₂ ht₂
  · refine ⟨s2, ?_, h2, hidle, fun j t ht => ?_, back2⟩
    · rw [wakeParent, hget, ok_bind, if_neg hc]
    · refine ⟨_, fwd2 j t ht, orphaned_rel status hpid ?_, by simp [orphaned, hpid]⟩
      rintro rfl hst
      rw [hg] at ht
      cases ht
      rw [hgst, hgw, hxp, hpid] at hc
      push Not at hc
      exact hc hst

theorem taskExit_spec {s : Sched} (h : Inv s) (hf : Family s) {i : Slot} {x : Task} (status : ℤ)
    (hcur : s.current = .slot i) (hx : s.pcb (.slot i) = some x) (hi : 2 ≤ i.val) :
    ∃ s', s.taskExit status = .ok s' ∧ Inv s' ∧ Family s' ∧
      (∃ x', s'.pcb (.slot i) = some x' ∧ x'.state = .dead ∧ x'.status = status) ∧
      (∀ j, j ≠ i → ∀ t, s.pcb (.slot j) = some t → ∃ t', s'.pcb (.slot j) = some t' ∧
        (t'.state = .dead ↔ t.state = .dead) ∧ t'.status = t.status) ∧
      ∀ j, s.pcb (.slot j) = none → s'.pcb (.slot j) = none := by
  obtain ⟨s2, x', h2, hpcb2, hcur2, hidle2, hxp, hxpp, heq⟩ := taskExit_eq h hf status hcur hx hi
  have hrun : x.state = .running := by
    obtain ⟨t, ht, hr⟩ := h.running
    rw [hcur, hx] at ht
    cases ht
    exact hr
  obtain ⟨g, hg, hgd⟩ := hf.parent i x hx (by omega)
  obtain ⟨age, hage⟩ := hf.older
  have hgi : x.ppid ≠ i := fun he => by have := hage i x hx (by omega); rw [he] at this; omega
  obtain ⟨s3, hs3, h3, hexit⟩ := wakeParent_spec h2 (hf.pid i x hx) hg hgd hgi hpcb2 hidle2 hxp hxpp
  have hf3 : Family s3 := by
    refine exit_family hf hx hi hrun hexit.idle (fun j t ht => ?_) fun j t' ht' => hexit.related ht'
    obtain ⟨t', ht', r, -⟩ := hexit.fwd j t ht
    exact ⟨t', ht', r⟩
  obtain ⟨_, s', -, hs', hinv, -, w, -⟩ := schedule_spec h3
  refine ⟨s', by rw [heq, hs3, ok_bind]; exact hs', hinv, hf3.settles w, ?_, ?_, fun j hj => ?_⟩
  · obtain ⟨t₃, ht₃, r, hstat⟩ := hexit.fwd i x hx
    obtain ⟨t', ht', hk, hst⟩ := w.stays _ t₃ ht₃
    refine ⟨t', ht', (not_dead_of_settled hst).mpr (r.dead.mpr (Or.inl rfl)), ?_⟩
    rw [(kin_eq hk).2.2.1, hstat, if_pos rfl]
  · intro j hj t ht
    obtain ⟨t₃, ht₃, r, hstat⟩ := hexit.fwd j t ht
    obtain ⟨t', ht', hk, hst⟩ := w.stays _ t₃ ht₃
    refine ⟨t', ht', (not_dead_of_settled hst).trans (r.dead.trans (or_iff_right hj)), ?_⟩
    rw [(kin_eq hk).2.2.1, hstat, if_neg hj]
  · apply w.absent _
    cases h3j : s3.pcb (.slot j) with
    | none => rfl
    | some t₃ =>
      obtain ⟨t, ht⟩ := hexit.back j t₃ h3j
      rw [hj] at ht
      cases ht

/-! ### wait -/

/-- `c`, in slot `j`, is a child that `task_waitpid(pid)` of task `self` looks for. -/
def Matches (s : Sched) (self : Slot) (pid : ℤ) (j : Slot) (c : Task) : Prop :=
  s.pcb (.slot j) = some c ∧ c.ppid = self ∧ (pid = (c.pid.val : ℤ) ∨ pid = -1)

/-- What the result of a scan of `is` says of the table. -/
def ScanSays (s : Sched) (self : Slot) (pid : ℤ) (is : List Slot) (hasChild : Bool) : WaitScan → Prop
  | .dead j => j ∈ is ∧ ∃ c, Matches s self pid j c ∧ c.state = .dead
  | .alive => (hasChild = true ∨ ∃ j c, Matches s self pid j c) ∧
      ∀ j ∈ is, ∀ c, Matches s self pid j c → c.state ≠ .dead
  | .childless => hasChild = false ∧ ∀ j ∈ is, ∀ c, ¬ Matches s self pid j c

/-- A slot that is passed over holds no matching child. -/
theorem ScanSays.skip {s : Sched} {self : Slot} {pid : ℤ} {i : Slot} {rest : List Slot}
    {hasChild : Bool} {w : WaitScan} (h : ScanSays s self pid rest hasChild w)
    (hno : ∀ c, ¬ Matches s self pid i c) : ScanSays s self pid (i :: rest) hasChild w := by
  cases w with
  | dead j => exact ⟨List.mem_cons_of_mem _ h.1, h.2⟩
  | alive =>
    refine ⟨h.1, fun j hj c hc => ?_⟩
    rcases List.mem_cons.1 hj with rfl | hj
    · exact absurd hc (hno c)
    · exact h.2 j hj c hc
  | childless =>
    refine ⟨h.1, fun j hj c => ?_⟩
    rcases List.mem_cons.1 hj with rfl | hj
    · exact hno c
    · exact h.2 j hj c

/-- A living child in the slot is as good as `has_child`. -/
theorem ScanSays.child {s : Sched} {self : Slot} {pid : ℤ} {i : Slot} {rest : List Slot} {c : Task}
    {w : WaitScan} {hasChild : Bool} (h : ScanSays s self pid rest true w)
    (hc : Matches s self pid i c) (hd : c.state ≠ .dead) :
    ScanSays s self pid (i :: rest) hasChild w := by
  cases w with
  | dead j => exact ⟨List.mem_cons_of_mem _ h.1, h.2⟩
  | alive =>
    refine ⟨Or.inr ⟨i, c, hc⟩, fun j hj c' hc' => ?_⟩
    rcases List.mem_cons.1 hj with rfl | hj
    · have := hc.1.symm.trans hc'.1
      cases this
      exact hd
    · exact h.2 j hj c' hc'
  | childless => exact absurd h.1 (by simp)

theorem waitScan_says (s : Sched) (self : Slot) (pid : ℤ) (is : List Slot) (hasChild : Bool) :
    ScanSays s self pid is hasChild (s.waitScan self pid is hasChild) := by
  induction is generalizing hasChild with
  | nil => cases hasChild <;> simp [waitScan, ScanSays]
  | cons i rest ih =>
    unfold waitScan
    cases hp : s.pcb (.slot i) with
    | none => exact (ih hasChild).skip fun c hc => by rw [Matches, hp] at hc; cases hc.1
    | some ptr =>
      have same : ∀ c, Matches s self pid i c → c = ptr := fun c hc =>
        (Option.some.inj (hp.symm.trans hc.1)).symm
      dsimp only
      split_ifs with h1 h2 h3
      · exact (ih hasChild).skip fun c hc => h1 (same c hc ▸ hc.2.1)
      · exact (ih hasChild).skip fun c hc => by
          have := same c hc ▸ hc.2.2
          exact this.elim h2.1 h2.2
      all_goals
        have hm : Matches s self pid i ptr := by
          refine ⟨hp, not_not.mp h1, ?_⟩
          by_contra hc
          push Not at hc
          exact h2 hc
      · exact ⟨List.mem_cons_self .., ptr, hm, h3⟩
      · exact (ih true).child hm h3

theorem mem_waitSlots {i : Slot} : i ∈ waitSlots ↔ 2 ≤ i.val := by
  revert i
  decide

/-- Taking a dead task out of the table. -/
theorem reap_inv {s : Sched} (h : Inv s) (hf : Family s) {j : Slot} {c : Task}
    (hc : s.pcb (.slot j) = some c) (hd : c.state = .dead) :
    Inv (s.setTask j none) ∧ Family (s.setTask j none) := by
  have keep : ∀ r t, s.pcb r = some t → t.state ≠ .dead → (s.setTask j none).pcb r = some t := by
    intro r t ht hnd
    rw [setTask_pcb, if_neg]
    · exact ht
    · rintro rfl
      rw [hc] at ht
      cases ht
      exact hnd hd
  have back : ∀ r t, (s.setTask j none).pcb r = some t → s.pcb r = some t := by
    intro r t ht
    rw [setTask_pcb] at ht
    split_ifs at ht
    exact ht
  have hn : c.node = none := by
    have := h.linked j c hc
    rw [hd] at this
    simpa [TaskState.queued] using this
  obtain ⟨x, hx, hrun⟩ := h.running
  have hx' := keep _ x hx (by rw [hrun]; decide)
  constructor
  · refine ⟨⟨⟨x, hx'⟩, fun r t ht => h.onlyRunning r t (back r t ht),
      fun i t ht => h.linked i t (back _ t ht), ?_, h.nodup, ?_, fun r t ht => h.magic r t (back r t ht)⟩,
      ⟨x, hx', hrun⟩⟩
    · intro l r
      rw [setTask_lists, h.listed]
      constructor
      · rintro ⟨i, t, rfl, ht, hl⟩
        refine ⟨i, t, rfl, keep _ t ht (fun htd => ?_), hl⟩
        have := h.linked i t ht
        rw [hl, htd] at this
        simp [TaskState.queued] at this
      · rintro ⟨i, t, rfl, ht, hl⟩
        exact ⟨i, t, rfl, back _ t ht, hl⟩
    · obtain ⟨i, t, hi, ht, htd⟩ := h.idle
      exact ⟨i, t, hi, keep _ t ht htd.1, htd⟩
  · refine ⟨hf.idle, fun i t ht => hf.pid i t (back _ t ht),
      fun i t ht => hf.elders i t (back _ t ht), fun i t ht h0 => ?_, ?_, fun i t ht hw => ?_⟩
    · obtain ⟨p, hp, hpd⟩ := hf.parent i t (back _ t ht) h0
      exact ⟨p, keep _ p hp hpd, hpd⟩
    · obtain ⟨age, hage⟩ := hf.older
      exact ⟨age, fun i t ht => hage i t (back _ t ht)⟩
    · obtain ⟨⟨k, d, hk, haw⟩, hall⟩ := hf.waiting i t (back _ t ht) hw
      exact ⟨⟨k, d, keep _ d hk (hall k d hk haw), haw⟩, fun k d hk => hall k d (back _ d hk)⟩

/-- The current task goes to sleep in `task_waitpid`, a child of it being alive. -/
theorem wait_family {s s' : Sched} (hf : Family s) {i : Slot} {t t' : Task} {pid : ℤ}
    (ht : s.pcb (.slot i) = some t) (hpcb : s'.pcb = Function.update s.pcb (.slot i) (some t'))
    (hidle : s'.idle = s.idle) (hp : t'.pid = t.pid) (hpp : t'.ppid = t.ppid) (hw : t'.waitpid = pid)
    (hst : t'.state = .waiting)
    (hchild : ∃ j c, Matches s t.pid pid j c)
    (hnone : ∀ j ∈ waitSlots, ∀ c, Matches s t.pid pid j c → c.state ≠ .dead) : Family s' := by
  have hself : s'.pcb (.slot i) = some t' := by rw [hpcb, Function.update_self]
  have hne : ∀ j, j ≠ i → s'.pcb (.slot j) = s.pcb (.slot j) := fun j hj => by
    rw [hpcb, Function.update_of_ne (fun he => hj (TaskRef.slot.inj he))]
  -- every PCB keeps pid and ppid, and none but that of `i` changes otherwise
  have fwd : ∀ j c, s.pcb (.slot j) = some c → ∃ c', s'.pcb (.slot j) = some c' ∧
      c'.pid = c.pid ∧ c'.ppid = c.ppid ∧ (c'.state = .dead → c.state = .dead) := by
    intro j c hc
    by_cases hj : j = i
    · subst hj
      rw [ht] at hc
      cases hc
      exact ⟨t', hself, hp, hpp, by rw [hst]; simp⟩
    · exact ⟨c, by rw [hne j hj]; exact hc, rfl, rfl, fun hd => hd⟩
  have back : ∀ j c', s'.pcb (.slot j) = some c' → ∃ c, s.pcb (.slot j) = some c ∧
      c'.pid = c.pid ∧ c'.ppid = c.ppid ∧ (c'.state = .dead → c.state = .dead) ∧
      (j ≠ i → c' = c) := by
    intro j c' hc'
    by_cases hj : j = i
    · subst hj
      rw [hself] at hc'
      cases hc'
      exact ⟨t, ht, hp, hpp, by rw [hst]; simp, fun h => absurd rfl h⟩
    · rw [hne j hj] at hc'
      exact ⟨c', hc', rfl, rfl, fun hd => hd, fun _ => rfl⟩
  refine ⟨hidle.trans hf.idle, ?_, ?_, ?_, ?_, ?_⟩
  · intro j c' hc'
    obtain ⟨c, hc, h1, -⟩ := back j c' hc'
    rw [h1]
    exact hf.pid j c hc
  · intro j c' hc' hj hd
    obtain ⟨c, hc, -, -, h3, -⟩ := back j c' hc'
    exact hf.elders j c hc hj (h3 hd)
  · intro j c' hc' hj
    obtain ⟨c, hc, -, h2, -⟩ := back j c' hc'
    obtain ⟨p, hpc, hpd⟩ := hf.parent j c hc hj
    obtain ⟨p', hp', -, -, h3⟩ := fwd _ p hpc
    exact ⟨p', by rw [h2]; exact hp', fun hd => hpd (h3 hd)⟩
  · obtain ⟨age, hage⟩ := hf.older
    refine ⟨age, fun j c' hc' hj => ?_⟩
    obtain ⟨c, hc, -, h2, -⟩ := back j c' hc'
    rw [h2]
    exact hage j c hc hj
  · intro j u' hu' hwu
    by_cases hj : j = i
    · subst hj
      rw [hself] at hu'
      cases hu'
      refine ⟨?_, ?_⟩
      · obtain ⟨k, c, hc, hcp, hcw⟩ := hchild
        obtain ⟨c', hc', h1, h2, -⟩ := fwd k c hc
        exact ⟨k, c', hc', by rw [h2, hp]; exact hcp, by rw [h1, hw]; exact hcw⟩
      · rintro k c' hc' ⟨hcp, hcw⟩ hd
        obtain ⟨c, hc, h1, h2, h3, -⟩ := back k c' hc'
        rw [h2, hp] at hcp
        rw [h1, hw] at hcw
        by_cases hk : 2 ≤ k.val
        · exact hnone k (mem_waitSlots.mpr hk) c ⟨hc, hcp, hcw⟩ (h3 hd)
        · exact hf.elders k c hc (by omega) (h3 hd)
    · obtain ⟨u, hu, -, -, -, h5⟩ := back j u' hu'
      rw [h5 hj] at hwu ⊢
      obtain ⟨⟨k, c, hc, haw⟩, hall⟩ := hf.waiting j u hu hwu
      refine ⟨?_, ?_⟩
      · obtain ⟨c', hc', h1, h2, -⟩ := fwd k c hc
        exact ⟨k, c', hc', by rw [h2]; exact haw.1, by rw [h1]; exact haw.2⟩
      · rintro k c' hc' ⟨hcp, hcw⟩ hd
        obtain ⟨c, hc, h1, h2, h3, -⟩ := back k c' hc'
        exact hall k c hc ⟨by rw [← h2]; exact hcp, by rw [← h1]; exact hcw⟩ (h3 hd)

/-- How a round of `task_waitpid` ends. -/
theorem taskWaitpid_spec {s : Sched} (h : Inv s) (hf : Family s) {i : Slot} (pid : ℤ)
    (hcur : s.current = .slot i) : ∃ ret s', s.taskWaitpid pid = .ok (ret, s') ∧ Inv s' ∧ Family s' ∧
      ((∃ j c, s.pcb (.slot j) = some c ∧ c.state = .dead ∧ s' = s.setTask j none ∧
          ret = some ((j.val : ℤ), some c.status)) ∨
        ((∀ v, ret.bind Prod.snd ≠ some v) ∧
          (∀ j t, s.pcb (.slot j) = some t → ∃ t', s'.pcb (.slot j) = some t' ∧
            (t'.state = .dead ↔ t.state = .dead) ∧ t'.status = t.status) ∧
          ∀ j, s.pcb (.slot j) = none → s'.pcb (.slot j) = none)) := by
  obtain ⟨t, ht, hr⟩ := h.running
  rw [hcur] at ht
  have hget : s.get s.current = .ok t := by rw [hcur]; exact get_ok.mpr ht
  have hscan := waitScan_says s t.pid pid waitSlots false
  simp only [taskWaitpid, hget, ok_bind]
  cases hsc : s.waitScan t.pid pid waitSlots false with
  | dead j =>
    rw [hsc] at hscan
    obtain ⟨-, c, ⟨hc, -, -⟩, hd⟩ := hscan
    obtain ⟨hi', hf'⟩ := reap_inv h hf hc hd
    refine ⟨_, _, ?_, hi', hf', Or.inl ⟨j, c, hc, hd, rfl, rfl⟩⟩
    simp only [get_ok.mpr hc, ok_bind]
    rw [hf.pid j c hc]
  | childless =>
    exact ⟨_, _, rfl, h, hf, Or.inr ⟨by simp, fun j t ht => ⟨t, ht, Iff.rfl, rfl⟩, fun _ hj => hj⟩⟩
  | alive =>
    rw [hsc] at hscan
    obtain ⟨hchild, hnone⟩ := hscan
    have hchild := hchild.resolve_left (by simp)
    set s1 := s.upd (.slot i) (fun t => { t with waitpid := pid }) with hs1
    have h1 : Inv s1 := by
      refine ⟨h.toCore.upd _ _ (fun _ => rfl) (fun _ => rfl) (fun _ => rfl) (fun _ hr => hr)
        (fun _ hd hi => ⟨hd, hi⟩), { t with waitpid := pid }, ?_, hr⟩
      rw [hs1, upd_current, hcur, upd_pcb_self, ht]
      rfl
    have ht1 : s1.pcb (.slot i) = some { t with waitpid := pid } := by rw [hs1, upd_pcb_self, ht]; rfl
    obtain ⟨s2, h2, heq, hpcb2, hcur2, hidle2, -⟩ := taskBlock_eq h1.toCore none .waiting ht1
      (h1.slot_node ht1 (Or.inr hr)) rfl
    obtain ⟨_, s', -, hs', hinv, -, w, -⟩ := schedule_spec h2
    have hpcb : s2.pcb = Function.update s.pcb (.slot i)
        (some { t with waitpid := pid, node := some .blockList, state := .waiting }) := by
      rw [hpcb2, hs1]
      simp [upd]
    have hf2 : Family s2 := wait_family hf ht hpcb hidle2 rfl rfl rfl rfl hchild hnone
    refine ⟨none, s', ?_, hinv, hf2.settles w, Or.inr ⟨by simp, fun j u hu => ?_, fun j hj => ?_⟩⟩
    · dsimp only
      rw [hcur, ← hs1]
      have hc1 : s1.current = .slot i := hcur
      rw [hc1, heq, if_pos hc1, hs', ok_bind]
    · obtain ⟨u₂, hu₂, hd₂, hst₂⟩ : ∃ u₂, s2.pcb (.slot j) = some u₂ ∧
          (u₂.state = .dead ↔ u.state = .dead) ∧ u₂.status = u.status := by
        rw [hpcb]
        by_cases hj : j = i
        · subst hj
          rw [ht] at hu
          cases hu
          exact ⟨_, Function.update_self .., by simp [hr], rfl⟩
        · have hne : TaskRef.slot j ≠ .slot i := fun he => hj (TaskRef.slot.inj he)
          exact ⟨u, by rw [Function.update_of_ne hne]; exact hu, Iff.rfl, rfl⟩
      obtain ⟨u', hu', hk, hst⟩ := w.stays _ u₂ hu₂
      exact ⟨u', hu', (not_dead_of_settled hst).trans hd₂, by rw [(kin_eq hk).2.2.1, hst₂]⟩
    · apply w.absent _
      have hne : TaskRef.slot j ≠ .slot i := fun he => by rw [he, ht] at hj; cases hj
      rw [hpcb, Function.update_of_ne hne]
      exact hj

end Sched
end Onix
