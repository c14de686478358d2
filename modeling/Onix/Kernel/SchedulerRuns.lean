import Onix.Kernel.WaitExit

/-! Every run of the scheduler system from `task_init`: the invariants hold in
every state, no entry halts but a fork without a free PCB, and every zombie is
reaped once, with the status it exited with. -/

set_option autoImplicit false

namespace Onix
namespace Sched

open Lib

/-! ### The state `task_init` leaves -/

theorem taskInit_eq (garbage : Task) : taskInit garbage = .ok
    ((({ (taskSetup garbage).setTask ⟨0, by decide⟩ (some (newTask ⟨0, by decide⟩ 1)) with
        idle := .slot ⟨0, by decide⟩ } : Sched).setTask
      ⟨1, by decide⟩ (some (newTask ⟨1, by decide⟩ 5))).setTask
      ⟨2, by decide⟩ (some (newTask ⟨2, by decide⟩ 5))) := rfl

theorem init_pcb {s : Sched} (h : Init s) : (∃ b, s.pcb .boot = some b ∧ b.state = .running ∧
      b.magic = ONIX_MAGIC) ∧
    (∀ i t, s.pcb (.slot i) = some t → i.val < 3 ∧ ∃ priority, t = newTask i priority) ∧
    (∃ t, s.pcb (.slot ⟨0, by decide⟩) = some t) ∧ s.current = .boot ∧
    s.idle = .slot ⟨0, by decide⟩ ∧ ∀ l, s.lists l = [] := by
  obtain ⟨garbage, h⟩ := h
  rw [taskInit_eq] at h
  cases h
  refine ⟨⟨_, rfl, rfl, rfl⟩, fun i t ht => ?_, ⟨_, rfl⟩, rfl, rfl, fun _ => rfl⟩
  simp only [setTask_pcb, TaskRef.slot.injEq] at ht
  split_ifs at ht with h2 h1 h0
  · subst h2
    exact ⟨by decide, 5, (Option.some.inj ht).symm⟩
  · subst h1
    exact ⟨by decide, 5, (Option.some.inj ht).symm⟩
  · subst h0
    exact ⟨by decide, 1, (Option.some.inj ht).symm⟩
  · cases ht

theorem init_inv {s : Sched} (h : Init s) : Inv s := by
  obtain ⟨⟨b, hb, hrun, hm⟩, hslot, ⟨t0, ht0⟩, hcur, hidle, hlists⟩ := init_pcb h
  refine ⟨⟨⟨b, by rw [hcur]; exact hb⟩, ?_, ?_, ?_, ?_, ?_, ?_⟩, b, by rw [hcur]; exact hb, hrun⟩
  · intro r t ht hst
    cases r with
    | boot => exact hcur.symm
    | slot i =>
      obtain ⟨-, p, rfl⟩ := hslot i t ht
      cases hst
  · intro i t ht
    obtain ⟨-, p, rfl⟩ := hslot i t ht
    rfl
  · intro l r
    rw [hlists]
    apply iff_of_false (by simp)
    rintro ⟨i, t, rfl, ht, hn⟩
    obtain ⟨-, p, rfl⟩ := hslot i t ht
    cases hn
  · intro l
    rw [hlists]
    exact List.nodup_nil
  · obtain ⟨-, p, rfl⟩ := hslot _ _ ht0
    exact ⟨_, _, hidle, ht0, by simp [newTask], by simp [newTask]⟩
  · intro r t ht
    cases r with
    | boot =>
      rw [hb] at ht
      cases ht
      exact hm
    | slot i =>
      obtain ⟨-, p, rfl⟩ := hslot i t ht
      rfl

theorem init_family {s : Sched} (h : Init s) : Family s := by
  obtain ⟨-, hslot, ⟨t0, ht0⟩, -, hidle, -⟩ := init_pcb h
  refine ⟨hidle, ?_, ?_, ?_, ⟨fun i => i.val, ?_⟩, ?_⟩
  · intro i t ht
    obtain ⟨-, p, rfl⟩ := hslot i t ht
    rfl
  · intro i t ht _
    obtain ⟨-, p, rfl⟩ := hslot i t ht
    simp [newTask]
  · intro i t ht _
    obtain ⟨-, p, rfl⟩ := hslot i t ht
    obtain ⟨-, p₀, rfl⟩ := hslot _ _ ht0
    exact ⟨_, ht0, by simp [newTask]⟩
  · intro i t ht hi
    obtain ⟨-, p, rfl⟩ := hslot i t ht
    exact Nat.pos_of_ne_zero hi
  · intro i t ht hw
    obtain ⟨-, p, rfl⟩ := hslot i t ht
    cases hw

/-! ### One step -/

/-- The status an exited and not yet reaped task of slot `j` left. -/
def zombie (s : Sched) (j : Slot) : Option ℤ :=
  match s.pcb (.slot j) with
  | some t => if t.state = .dead then some t.status else none
  | none => none

/-- The slots with an exit that no reap has followed, after the observation `o`. -/
def observe (z : Slot → Option ℤ) : Obs → Slot → Option ℤ
  | .exited pid status => Function.update z pid (some status)
  | .reaped pid _ => fun j => if (j.val : ℤ) = pid then none else z j

/-- An observation that fits the zombies it is made among. -/
def Sound (z : Slot → Option ℤ) : Obs → Prop
  | .exited pid _ => z pid = none
  | .reaped pid status => ∃ j : Slot, pid = j.val ∧ z j = some status

theorem zombie_eq {s s' : Sched} {j : Slot}
    (h : ∀ t, s.pcb (.slot j) = some t → ∃ t', s'.pcb (.slot j) = some t' ∧
      (t'.state = .dead ↔ t.state = .dead) ∧ t'.status = t.status)
    (hnone : s.pcb (.slot j) = none → ∀ t', s'.pcb (.slot j) = some t' → t'.state ≠ .dead) :
    zombie s' j = zombie s j := by
  unfold zombie
  cases hp : s.pcb (.slot j) with
  | none =>
    have hnone := hnone hp
    split
    · rename_i t' ht'
      rw [if_neg (hnone t' ht')]
    · rfl
  | some t =>
    obtain ⟨t', ht', hd, hst⟩ := h t hp
    simp only [ht', hd, hst]

theorem Settles.zombie {s s' : Sched} (w : Settles s s') : zombie s' = zombie s := by
  funext j
  refine zombie_eq (fun t ht => ?_) (fun hn t' ht' => ?_)
  · obtain ⟨t', ht', hk, hst⟩ := w.stays _ t ht
    exact ⟨t', ht', not_dead_of_settled hst, (kin_eq hk).2.2.1⟩
  · rw [w.absent _ hn] at ht'
    cases ht'

/-- The outcome of an enabled entry: an observation that fits, and the
invariants in the state it leaves. -/
structure Outcome (s : Sched) (o : Option Obs) (s' : Sched) : Prop where
  inv : Inv s'
  family : Family s'
  sound : ∀ x, o = some x → Sound (zombie s) x
  zombies : zombie s' = o.elim (zombie s) (observe (zombie s))

theorem Outcome.of_settles {s s' : Sched} (hf : Family s) (hi : Inv s') (w : Settles s s') :
    Outcome s none s' :=
  ⟨hi, hf.settles w, by simp, w.zombie⟩

theorem fork_outcome {s : Sched} (h : Inv s) (hf : Family s) {i c : Slot} {t : Task}
    (hcur : s.current = .slot i) (hc : s.pcb (.slot c) = none) (ht : s.pcb (.slot i) = some t)
    (hr : t.state = .running) : Outcome s none (s.setTask c (some (forked t c))) := by
  refine ⟨fork_inv h hcur hc ht hr, fork_family hf hc ht hr, by simp, ?_⟩
  funext j
  refine zombie_eq (fun u hu => ⟨u, setTask_keep hc hu, Iff.rfl, rfl⟩) (fun hn u hu => ?_)
  rcases setTask_back hu with ⟨-, rfl⟩ | hu
  · simp [forked]
  · rw [hn] at hu
    cases hu

theorem exit_outcome {s : Sched} (h : Inv s) (hf : Family s) {i : Slot} {x : Task} (status : ℤ)
    (hcur : s.current = .slot i) (hx : s.pcb (.slot i) = some x) (hi : 2 ≤ i.val) :
    ∃ s', s.taskExit status = .ok s' ∧ Outcome s (some (.exited i status)) s' := by
  obtain ⟨s', hs', hinv, hfam, ⟨x', hx', hd, hst⟩, hothers, habsent⟩ :=
    taskExit_spec h hf status hcur hx hi
  have hrun : x.state = .running := by
    obtain ⟨t, ht, hr⟩ := h.running
    rw [hcur, hx] at ht
    cases ht
    exact hr
  refine ⟨s', hs', hinv, hfam, ?_, ?_⟩
  · rintro _ ⟨⟩
    simp [Sound, zombie, hx, hrun]
  · funext j
    simp only [Option.elim, observe]
    by_cases hj : j = i
    · subst hj
      rw [Function.update_self]
      simp [zombie, hx', hd, hst]
    · rw [Function.update_of_ne hj]
      refine zombie_eq (hothers j hj) (fun hn t' ht' => ?_)
      rw [habsent _ hn] at ht'
      cases ht'

theorem waitpid_outcome {s : Sched} (h : Inv s) (hf : Family s) {i : Slot} (pid : ℤ)
    (hcur : s.current = .slot i) : ∃ ret s', s.taskWaitpid pid = .ok (ret, s') ∧
      Outcome s (ret.bind fun (child, status) => status.map (.reaped child)) s' := by
  obtain ⟨ret, s', hs', hinv, hfam, hcase⟩ := taskWaitpid_spec h hf pid hcur
  refine ⟨ret, s', hs', ?_⟩
  rcases hcase with ⟨j, c, hc, hd, rfl, rfl⟩ | ⟨hret, hothers, habsent⟩
  · refine ⟨hinv, hfam, ?_, ?_⟩
    · intro o ho
      cases ho
      exact ⟨j, rfl, by simp [zombie, hc, hd]⟩
    · funext k
      have : ((k.val : ℤ) = j.val) ↔ k = j := ⟨fun he => Fin.ext (by exact_mod_cast he), by rintro rfl; rfl⟩
      simp only [Option.bind_some, Option.map_some, Option.elim, observe, this]
      by_cases hk : k = j
      · simp [hk, zombie, setTask_pcb]
      · simp [hk, zombie, setTask_pcb]
  · have ho : (ret.bind fun (p : ℤ × Option ℤ) => p.2.map (Obs.reaped p.1)) = none := by
      cases ret with
      | none => rfl
      | some p =>
        obtain ⟨a, b⟩ := p
        cases b with
        | none => rfl
        | some v => exact absurd rfl (hret v)
    change Outcome s (ret.bind fun (p : ℤ × Option ℤ) => p.2.map (Obs.reaped p.1)) s'
    rw [ho]
    refine ⟨hinv, hfam, by simp, ?_⟩
    funext j
    refine zombie_eq (hothers j) (fun hn t' ht' => ?_)
    rw [habsent _ hn] at ht'
    cases ht'

theorem current_slot {s : Sched} (h : Inv s) (hcur : s.current ≠ .boot) :
    ∃ i t, s.current = .slot i ∧ s.pcb (.slot i) = some t := by
  obtain ⟨t, ht, -⟩ := h.running
  cases hc : s.current with
  | boot => exact absurd hc hcur
  | slot i => exact ⟨i, t, rfl, by rw [← hc]; exact ht⟩

/-- An enabled entry does not halt, unless it is a fork without a free PCB. -/
theorem exec_outcome {s : Sched} (h : Inv s) (hf : Family s) {e : Event} (he : Enabled s e) :
    (∃ o s', s.exec e = .ok (o, s') ∧ Outcome s o s') ∨
    e = .fork ∧ s.exec e = .error (.panic "No more PCBs\n") := by
  cases e with
  | tick =>
    obtain ⟨s', hs', hi, w⟩ := clockHandler_spec h
    exact Or.inl ⟨none, s', by simp [exec, hs'], .of_settles hf hi w⟩
  | yield =>
    obtain ⟨_, s', -, hs', hi, -, w, -⟩ := schedule_spec h.toCore
    exact Or.inl ⟨none, s', by simp [exec, taskYield, hs'], .of_settles hf hi w⟩
  | preempt r =>
    obtain ⟨t, ht, hr⟩ := he
    obtain ⟨s', hs', hi, -, w, -⟩ :=
      switchTo_spec h.toCore ht (by rw [hr]; decide) (by rw [hr]; decide)
    exact Or.inl ⟨none, s', by simp [exec, hs'], .of_settles hf hi w⟩
  | block r l state =>
    obtain ⟨⟨t, ht, hr⟩, hq⟩ := he
    obtain ⟨s', hs', hi, w⟩ := taskBlock_spec h l ht hr hq
    exact Or.inl ⟨none, s', by simp [exec, hs'], .of_settles hf hi w⟩
  | unblock r =>
    obtain ⟨t, ht, hq⟩ := he
    obtain ⟨s', hs', hc, w, hpcb, hcur, -⟩ := taskUnblock_spec h.toCore ht hq
    refine Or.inl ⟨none, s', by simp [exec, hs'], .of_settles hf ⟨hc, ?_⟩ w⟩
    obtain ⟨x, hx, hr⟩ := h.running
    have hne : s.current ≠ .slot r := by
      intro he
      rw [he, ht] at hx
      cases hx
      rw [hr] at hq
      cases hq
    exact ⟨x, by rw [hpcb, hcur, Function.update_of_ne hne]; exact hx, hr⟩
  | sleep ms =>
    obtain ⟨i, -, hcur, -⟩ := current_slot h he
    obtain ⟨s', hs', hi, w⟩ := taskSleep_spec h ms hcur
    exact Or.inl ⟨none, s', by simp [exec, hs'], .of_settles hf hi w⟩
  | weakup =>
    obtain ⟨s', hs', hi, w, -⟩ := taskWeakup_spec h
    exact Or.inl ⟨none, s', by simp [exec, hs'], .of_settles hf hi w⟩
  | fork =>
    obtain ⟨i, -, hcur, -⟩ := current_slot h he
    rcases forkPcb_cases h hcur with hp | ⟨c, t, hs', hc, ht, hr⟩
    · exact Or.inr ⟨rfl, by simp [exec, hp]⟩
    · exact Or.inl ⟨none, _, by simp [exec, hs'], fork_outcome h hf hcur hc ht hr⟩
  | exit status =>
    obtain ⟨i, hcur, hi⟩ := he
    obtain ⟨x, hx, -⟩ := h.running
    have hget : s.get s.current = .ok x := get_ok.mpr hx
    rw [hcur] at hx
    obtain ⟨s', hs', out⟩ := exit_outcome h hf status hcur hx hi
    exact Or.inl ⟨_, s', by simp [exec, hget, hs', hf.pid i x hx], out⟩
  | waitpid pid =>
    obtain ⟨i, -, hcur, -⟩ := current_slot h he
    obtain ⟨ret, s', hs', out⟩ := waitpid_outcome h hf pid hcur
    exact Or.inl ⟨_, s', by simp only [exec, hs', ok_bind], out⟩

theorem step_outcome {s s' : Sched} {l : Event × Option Obs} (h : Inv s) (hf : Family s)
    (hs : Step s l s') : Outcome s l.2 s' := by
  obtain ⟨he, hx⟩ := hs
  rcases exec_outcome h hf he with ⟨o, s'', hx', out⟩ | ⟨-, hp⟩
  · rw [hx] at hx'
    cases hx'
    exact out
  · rw [hx] at hp
    cases hp

/-! ### Runs -/

instance (s : Sched) (r : TaskRef) (p : Task → Prop) [DecidablePred p] :
    Decidable (∃ t, s.pcb r = some t ∧ p t) :=
  decidable_of_iff ((s.pcb r).any fun t => decide (p t)) (by simp [Option.any_eq_true])

instance (s : Sched) (e : Event) : Decidable (Enabled s e) :=
  match e with
  | .tick | .yield | .weakup => inferInstanceAs (Decidable True)
  | .preempt r => inferInstanceAs (Decidable (∃ t, s.pcb (.slot r) = some t ∧ t.state = .ready))
  | .block r _ state => inferInstanceAs (Decidable ((∃ t, s.pcb (.slot r) = some t ∧
      (t.state = .ready ∨ t.state = .running)) ∧ (state = .blocked ∨ state = .sleeping)))
  | .unblock r => inferInstanceAs (Decidable (∃ t, s.pcb (.slot r) = some t ∧ t.state.queued))
  | .sleep _ | .fork | .waitpid _ => inferInstanceAs (Decidable (s.current ≠ .boot))
  | .exit _ => inferInstanceAs (Decidable (∃ i : Slot, s.current = .slot i ∧ 2 ≤ i.val))

/-- Performs `e` if it is enabled and does not halt. -/
def attempt (s : Sched) (e : Event) : Option ((Event × Option Obs) × Sched) :=
  if Enabled s e then
    match s.exec e with
    | .ok (o, s') => some ((e, o), s')
    | .error _ => none
  else none

theorem attempt_step {s s' : Sched} {e : Event} {l : Event × Option Obs}
    (h : s.attempt e = some (l, s')) : Step s l s' := by
  unfold attempt at h
  split_ifs at h with he
  split at h
  · rename_i o s₁ hx
    cases h
    exact ⟨he, hx⟩
  · cases h

/-- What a run told, oldest first. -/
def history (ls : List (Event × Option Obs)) : List Obs := ls.filterMap Prod.snd

def zombies (log : List Obs) : Slot → Option ℤ := log.foldl observe fun _ => none

theorem zombies_snoc (log : List Obs) (o : Obs) : zombies (log ++ [o]) = observe (zombies log) o := by
  simp [zombies]

/-- What a run keeps: the two invariants, and that its history explains the zombies. -/
structure Kept (ls : List (Event × Option Obs)) (s : Sched) : Prop where
  inv : Inv s
  family : Family s
  zombies : zombie s = zombies (history ls)
  sound : ∀ before o after, history ls = before ++ o :: after → Sound (Sched.zombies before) o

theorem init_zombie {s : Sched} (h : Init s) : zombie s = fun _ => none := by
  obtain ⟨-, hslot, -⟩ := init_pcb h
  funext j
  unfold zombie
  split
  · rename_i t ht
    obtain ⟨-, p, rfl⟩ := hslot j t ht
    rfl
  · rfl

theorem run_kept {ls : List (Event × Option Obs)} {s : Sched} (h : Run Init Step ls s) : Kept ls s := by
  refine Run.traceInvariant (I := Kept) (fun s hs => ?_) (fun ls s l s' _ k hs => ?_) ls s h
  · refine ⟨init_inv hs, init_family hs, init_zombie hs, ?_⟩
    intro before o after he
    cases before <;> cases he
  · obtain ⟨e, o⟩ := l
    have out := step_outcome k.inv k.family hs
    cases o with
    | none =>
      have hh : history (ls ++ [(e, none)]) = history ls := by simp [history]
      exact ⟨out.inv, out.family, by rw [hh, ← k.zombies]; exact out.zombies, by rw [hh]; exact k.sound⟩
    | some x =>
      have hh : history (ls ++ [(e, some x)]) = history ls ++ [x] := by simp [history]
      refine ⟨out.inv, out.family, ?_, ?_⟩
      · rw [hh, zombies_snoc, ← k.zombies]
        exact out.zombies
      · intro before o after hsplit
        rw [hh] at hsplit
        rcases List.eq_nil_or_concat after with rfl | ⟨after', x', rfl⟩
        · obtain ⟨rfl, he⟩ := List.append_inj' hsplit rfl
          cases he
          rw [← k.zombies]
          exact out.sound x rfl
        · rw [List.concat_eq_append, ← List.cons_append, ← List.append_assoc] at hsplit
          exact k.sound before o after' (List.append_inj' hsplit rfl).1

/-- The task an observation is about. -/
def Obs.about : Obs → ℤ
  | .exited pid _ => pid.val
  | .reaped pid _ => pid

/-- The last thing `log` tells about task `j` is that it exited with `status`. -/
def LastExit (log : List Obs) (j : Slot) (status : ℤ) : Prop :=
  ∃ before after, log = before ++ .exited j status :: after ∧ ∀ o ∈ after, o.about ≠ (j.val : ℤ)

theorem LastExit.snoc {log : List Obs} {j : Slot} {status : ℤ} {o : Obs}
    (h : LastExit log j status) (ho : o.about ≠ (j.val : ℤ)) : LastExit (log ++ [o]) j status := by
  obtain ⟨before, after, rfl, ha⟩ := h
  refine ⟨before, after ++ [o], by simp, ?_⟩
  intro x hx
  rcases List.mem_append.mp hx with hx | hx
  · exact ha x hx
  · rw [List.mem_singleton.mp hx]
    exact ho

theorem lastExit_of_zombies {j : Slot} {status : ℤ} (log : List Obs)
    (h : zombies log j = some status) : LastExit log j status := by
  induction log using List.reverseRecOn with
  | nil => cases h
  | append_singleton log o ih =>
    rw [zombies_snoc] at h
    cases o with
    | exited pid st =>
      by_cases hj : j = pid
      · subst hj
        rw [observe, Function.update_self] at h
        cases h
        exact ⟨log, [], rfl, by simp⟩
      · rw [observe, Function.update_of_ne hj] at h
        refine (ih h).snoc fun he => hj (Fin.ext ?_)
        simpa [Obs.about] using he.symm
    | reaped pid st =>
      simp only [observe] at h
      split_ifs at h with hj
      exact (ih h).snoc fun he => hj he.symm

/-- The wait / exit protocol: no wakeup is lost, a parent is never a zombie, and
a reap gives back the status of an exit that nothing has reaped since. -/
theorem wait_exit_protocol {ls : List (Event × Option Obs)} {s : Sched} (h : Run Init Step ls s) :
    (∀ i t, s.pcb (.slot i) = some t → t.state = .waiting →
      (∃ j c, s.pcb (.slot j) = some c ∧ Awaits t c) ∧
      ∀ j c, s.pcb (.slot j) = some c → Awaits t c → c.state ≠ .dead) ∧
    (∀ i t, s.pcb (.slot i) = some t → i.val ≠ 0 →
      ∃ p, s.pcb (.slot t.ppid) = some p ∧ p.state ≠ .dead) ∧
    ∀ before (pid : ℤ) status after, history ls = before ++ .reaped pid status :: after →
      ∃ j : Slot, pid = j.val ∧ LastExit before j status := by
  have k := run_kept h
  refine ⟨k.family.waiting, k.family.parent, ?_⟩
  intro before pid status after he
  obtain ⟨j, hp, hz⟩ := k.sound _ _ _ he
  exact ⟨j, hp, lastExit_of_zombies before hz⟩

/-- A PCB in the memory under the boot stack. -/
theorem bootSlot_lt : 0 < 64 := by
  decide

def bootPcb : Task := newTask ⟨0, bootSlot_lt⟩ 0

/-- Task 1 forks task 3, which exits with 7, and waits for it. -/
theorem wait_exit_protocol_reaps : ∃ ls s, Run Init Step ls s ∧
    history ls = [.exited ⟨3, by decide⟩ 7] ++ .reaped 3 7 :: [] ∧
    ∃ j : Slot, 3 = (j.val : ℤ) ∧ LastExit [.exited ⟨3, by decide⟩ 7] j 7 := by
  obtain ⟨s₀, h₀⟩ : ∃ s₀, taskInit bootPcb = .ok s₀ := ⟨_, taskInit_eq bootPcb⟩
  have hsome : ((replay attempt s₀ [.yield, .fork, .preempt ⟨3, by decide⟩, .exit 7,
      .waitpid (-1)]).map fun r => history r.1) =
      some [.exited ⟨3, by decide⟩ 7, .reaped 3 7] := by
    cases h₀
    decide +kernel
  obtain ⟨⟨ls, s⟩, hls, hh⟩ := Option.map_eq_some_iff.mp hsome
  have hr : Run Init Step ls s := by
    have hstep : ∀ s e l s', attempt s e = some (l, s') → Step s l s' := fun _ _ _ _ h => attempt_step h
    simpa using Run.replay hstep _ s₀ [] ls s (.nil (show Init s₀ from ⟨bootPcb, h₀⟩)) hls
  exact ⟨ls, s, hr, hh, (wait_exit_protocol hr).2.2 _ _ _ _ hh⟩

end Sched
end Onix
