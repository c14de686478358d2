import Onix.Kernel.Schedule
import Onix.Lib.Transition

/-! The scheduler invariant. `Core` is what every function keeps, also in the
middle of a blocking call when no task is running; `Inv` adds that the current
task is the running one. Each function of the scheduler has one lemma here that
says it does not halt and that `Core` or `Inv` holds of the state it leaves. -/

set_option autoImplicit false

namespace Onix
namespace Sched

open Lib

structure Core (s : Sched) : Prop where
  current : ∃ t, s.pcb s.current = some t
  onlyRunning : ∀ r t, s.pcb r = some t → t.state = .running → r = s.current
  linked : ∀ i t, s.pcb (.slot i) = some t → t.node.isSome = t.state.queued
  listed : ∀ l r, r ∈ s.lists l ↔ ∃ i t, r = .slot i ∧ s.pcb r = some t ∧ t.node = some l
  nodup : ∀ l, (s.lists l).Nodup
  /-- `idle_task` points to a task that can always be made to run. -/
  idle : ∃ i t, s.idle = .slot i ∧ s.pcb (.slot i) = some t ∧ t.state ≠ .dead ∧ t.state ≠ .init
  magic : ∀ r t, s.pcb r = some t → t.magic = ONIX_MAGIC

structure Inv (s : Sched) : Prop extends Core s where
  running : ∃ t, s.pcb s.current = some t ∧ t.state = .running

/-! ### The updates the functions are made of -/

/-- Rewriting PCBs in place, without the fields the lists depend on. -/
theorem Core.map {s s' : Sched} (h : Core s) (g : TaskRef → Task → Task)
    (hpcb : ∀ r, s'.pcb r = (s.pcb r).map (g r)) (hlists : s'.lists = s.lists)
    (hcur : s'.current = s.current) (hidle : s'.idle = s.idle)
    (hkeep : ∀ r t, s.pcb r = some t → (g r t).node = t.node ∧ (g r t).magic = t.magic ∧
      (g r t).state.queued = t.state.queued)
    (hrun : ∀ r t, s.pcb r = some t → (g r t).state = .running → t.state = .running)
    (hlive : ∀ t, s.pcb s.idle = some t → t.state ≠ .dead → t.state ≠ .init →
      (g s.idle t).state ≠ .dead ∧ (g s.idle t).state ≠ .init) : Core s' := by
  have fwd : ∀ r t, s.pcb r = some t → s'.pcb r = some (g r t) := fun r t hr => by
    rw [hpcb, hr]; rfl
  have back : ∀ r t', s'.pcb r = some t' → ∃ t, s.pcb r = some t ∧ t' = g r t := by
    intro r t' hr
    rw [hpcb] at hr
    obtain ⟨t, ht, rfl⟩ := Option.map_eq_some_iff.mp hr
    exact ⟨t, ht, rfl⟩
  refine ⟨?_, ?_, ?_, ?_, ?_, ?_, ?_⟩
  · obtain ⟨t, ht⟩ := h.current
    exact ⟨_, by rw [hcur]; exact fwd _ t ht⟩
  · intro r t' hr hst
    obtain ⟨t, ht, rfl⟩ := back r t' hr
    rw [hcur]
    exact h.onlyRunning r t ht (hrun r t ht hst)
  · intro i t' hr
    obtain ⟨t, ht, rfl⟩ := back _ t' hr
    rw [(hkeep _ t ht).1, (hkeep _ t ht).2.2]
    exact h.linked i t ht
  · intro l r
    rw [hlists, h.listed]
    constructor
    · rintro ⟨i, t, rfl, ht, hn⟩
      exact ⟨i, _, rfl, fwd _ t ht, by rw [(hkeep _ t ht).1]; exact hn⟩
    · rintro ⟨i, t', rfl, ht', hn⟩
      obtain ⟨t, ht, rfl⟩ := back _ t' ht'
      exact ⟨i, t, rfl, ht, by rw [← (hkeep _ t ht).1]; exact hn⟩
  · rw [hlists]; exact h.nodup
  · obtain ⟨i, t, hi, ht, hd, hini⟩ := h.idle
    refine ⟨i, _, hidle.trans hi, fwd _ t ht, ?_⟩
    rw [← hi] at ht ⊢
    exact hlive t ht hd hini
  · intro r t' hr
    obtain ⟨t, ht, rfl⟩ := back r t' hr
    rw [(hkeep _ t ht).2.1]
    exact h.magic r t ht

theorem Core.upd {s : Sched} (h : Core s) (r : TaskRef) (f : Task → Task)
    (hnode : ∀ t, (f t).node = t.node) (hmagic : ∀ t, (f t).magic = t.magic)
    (hqueued : ∀ t, (f t).state.queued = t.state.queued)
    (hrun : ∀ t, (f t).state = .running → t.state = .running)
    (hlive : ∀ t, t.state ≠ .dead → t.state ≠ .init → (f t).state ≠ .dead ∧ (f t).state ≠ .init) :
    Core (s.upd r f) := by
  refine h.map (fun q t => if q = r then f t else t) ?_ rfl rfl rfl ?_ ?_ ?_
  · intro q
    rw [upd_pcb]
    split_ifs <;> simp
  · intro q t _
    split_ifs
    · exact ⟨hnode t, hmagic t, hqueued t⟩
    · exact ⟨rfl, rfl, rfl⟩
  · intro q t _ hst
    split_ifs at hst
    · exact hrun t hst
    · exact hst
  · intro t _ hd hi
    split_ifs
    · exact hlive t hd hi
    · exact ⟨hd, hi⟩

/-- Replacing the PCB of one slot, with the lists changed at that task only. -/
theorem Core.relink {s s' : Sched} (h : Core s) {i : Slot} {t u : Task}
    (ht : s.pcb (.slot i) = some t) (hpcb : s'.pcb = Function.update s.pcb (.slot i) (some u))
    (hcur : s'.current = s.current) (hidle : s'.idle = s.idle) (hmagic : u.magic = t.magic)
    (hlink : u.node.isSome = u.state.queued) (hrun : u.state = .running → .slot i = s.current)
    (hlive : s.idle = .slot i → u.state ≠ .dead ∧ u.state ≠ .init)
    (hothers : ∀ l r, r ≠ .slot i → (r ∈ s'.lists l ↔ r ∈ s.lists l))
    (hself : ∀ l, .slot i ∈ s'.lists l ↔ u.node = some l) (hnodup : ∀ l, (s'.lists l).Nodup) :
    Core s' := by
  have pcb_ne : ∀ r, r ≠ .slot i → s'.pcb r = s.pcb r := by
    intro r hr
    rw [hpcb, Function.update_of_ne hr]
  have pcb_self : s'.pcb (.slot i) = some u := by rw [hpcb, Function.update_self]
  refine ⟨?_, ?_, ?_, ?_, hnodup, ?_, ?_⟩
  · rw [hcur]
    by_cases hc : s.current = .slot i
    · exact ⟨u, by rw [hc]; exact pcb_self⟩
    · obtain ⟨t₁, ht₁⟩ := h.current
      exact ⟨t₁, by rw [pcb_ne _ hc]; exact ht₁⟩
  · intro r t₁ hr hr₁
    rw [hcur]
    by_cases hri : r = .slot i
    · subst hri
      rw [pcb_self] at hr
      cases hr
      exact hrun hr₁
    · rw [pcb_ne r hri] at hr
      exact h.onlyRunning r t₁ hr hr₁
  · intro j t₁ hj
    by_cases hji : TaskRef.slot j = .slot i
    · rw [hji, pcb_self] at hj
      cases hj
      exact hlink
    · rw [pcb_ne _ hji] at hj
      exact h.linked j t₁ hj
  · intro l r
    by_cases hri : r = .slot i
    · subst hri
      rw [hself]
      constructor
      · exact fun hn => ⟨i, u, rfl, pcb_self, hn⟩
      · rintro ⟨j, t₁, -, ht₁, hn₁⟩
        rw [pcb_self] at ht₁
        cases ht₁
        exact hn₁
    · rw [hothers l r hri, pcb_ne r hri]
      exact h.listed l r
  · obtain ⟨j, t₁, hj, ht₁, hd⟩ := h.idle
    rw [hidle, hj]
    by_cases hji : TaskRef.slot j = .slot i
    · exact ⟨j, u, rfl, by rw [hji]; exact pcb_self, hlive (hj.trans hji)⟩
    · exact ⟨j, t₁, rfl, by rw [pcb_ne _ hji]; exact ht₁, hd⟩
  · intro r t₁ hr
    by_cases hri : r = .slot i
    · subst hri
      rw [pcb_self] at hr
      cases hr
      rw [hmagic]
      exact h.magic _ t ht
    · rw [pcb_ne r hri] at hr
      exact h.magic r t₁ hr

theorem Core.mem_slot {s : Sched} (h : Core s) {i : Slot} {t : Task} (ht : s.pcb (.slot i) = some t)
    (l : ListId) : .slot i ∈ s.lists l ↔ t.node = some l := by
  rw [h.listed]
  constructor
  · rintro ⟨j, t₁, -, ht₁, hn₁⟩
    rw [ht] at ht₁
    cases ht₁
    exact hn₁
  · exact fun hn => ⟨i, t, rfl, ht, hn⟩

/-- Linking an unlinked task into a list and giving it a queued state. -/
theorem Core.enqueue {s s' : Sched} (h : Core s) {i : Slot} {t u : Task} {l : ListId}
    {L : List TaskRef} (ht : s.pcb (.slot i) = some t) (hn : t.node = none)
    (hpcb : s'.pcb = Function.update s.pcb (.slot i) (some u))
    (hlists : s'.lists = Function.update s.lists l L) (hL : L.Perm (.slot i :: s.lists l))
    (hcur : s'.current = s.current) (hidle : s'.idle = s.idle)
    (hn' : u.node = some l) (hq : u.state.queued) (hmagic : u.magic = t.magic) : Core s' := by
  have hnot : ∀ l', TaskRef.slot i ∉ s.lists l' := fun l' hm => by
    rw [h.mem_slot ht, hn] at hm
    cases hm
  have mem : ∀ l' r, r ∈ s'.lists l' ↔ (l' = l ∧ r = .slot i) ∨ r ∈ s.lists l' := by
    intro l' r
    rw [hlists]
    by_cases hl : l' = l
    · subst hl
      simp [hL.mem_iff]
    · simp [hl]
  refine h.relink ht hpcb hcur hidle hmagic (by rw [hn', hq]; rfl) ?_ ?_ ?_ ?_ ?_
  · intro hst
    rw [hst] at hq
    simp [TaskState.queued] at hq
  · intro _
    constructor <;> intro hst <;> rw [hst] at hq <;> simp [TaskState.queued] at hq
  · intro l' r hr
    simp [mem, hr]
  · intro l'
    rw [mem, hn']
    simp [hnot, eq_comm]
  · intro l'
    rw [hlists]
    by_cases hl : l' = l
    · subst hl
      rw [Function.update_self, hL.nodup_iff]
      exact List.nodup_cons.mpr ⟨hnot l', h.nodup l'⟩
    · rw [Function.update_of_ne hl]
      exact h.nodup l'

/-- Unlinking a task and making it ready. -/
theorem Core.dequeue {s s' : Sched} (h : Core s) {i : Slot} {t u : Task} {l : ListId}
    (ht : s.pcb (.slot i) = some t) (hn : t.node = some l)
    (hpcb : s'.pcb = Function.update s.pcb (.slot i) (some u))
    (hlists : s'.lists = Function.update s.lists l ((s.lists l).erase (.slot i)))
    (hcur : s'.current = s.current) (hidle : s'.idle = s.idle)
    (hn' : u.node = none) (hst : u.state = .ready) (hmagic : u.magic = t.magic) : Core s' := by
  refine h.relink ht hpcb hcur hidle hmagic (by rw [hn', hst]; rfl) (by rw [hst]; simp)
    (by rw [hst]; simp) ?_ ?_ ?_
  · intro l' r hr
    rw [hlists]
    by_cases hl : l' = l
    · subst hl
      rw [Function.update_self, List.mem_erase_of_ne hr]
    · rw [Function.update_of_ne hl]
  · intro l'
    rw [hlists, hn']
    refine iff_of_false ?_ (by simp)
    by_cases hl : l' = l
    · subst hl
      rw [Function.update_self]
      exact (h.nodup l').not_mem_erase
    · rw [Function.update_of_ne hl, h.mem_slot ht, hn]
      exact fun he => hl (Option.some.inj he).symm
  · intro l'
    rw [hlists]
    by_cases hl : l' = l
    · subst hl
      rw [Function.update_self]
      exact (h.nodup l').erase _
    · rw [Function.update_of_ne hl]
      exact h.nodup l'

/-! ### What the scheduler leaves alone -/

/-- The fields of a PCB that only fork, exit and wait write. -/
def kin (t : Task) : Slot × Slot × ℤ × ℤ := (t.pid, t.ppid, t.status, t.waitpid)

def runnable (t : Task) : Prop := t.state = .ready ∨ t.state = .running

def active (t : Task) : Prop := t.state ≠ .dead ∧ t.state ≠ .waiting ∧ t.state ≠ .init

/-- Every PCB is still there with its kin, and a task whose state changed was
not dead and is now neither dead nor waiting. -/
structure Settles (s s' : Sched) : Prop where
  stays : ∀ r t, s.pcb r = some t → ∃ t', s'.pcb r = some t' ∧ kin t' = kin t ∧
    (t'.state = t.state ∨ t.state ≠ .dead ∧ active t')
  absent : ∀ r, s.pcb r = none → s'.pcb r = none
  idle : s'.idle = s.idle

theorem Settles.refl (s : Sched) : Settles s s :=
  ⟨fun _ t ht => ⟨t, ht, rfl, Or.inl rfl⟩, fun _ h => h, rfl⟩

theorem Settles.trans {a b c : Sched} (h1 : Settles a b) (h2 : Settles b c) : Settles a c := by
  refine ⟨?_, fun r h => h2.absent r (h1.absent r h), h2.idle.trans h1.idle⟩
  intro r t ht
  obtain ⟨t₁, ht₁, hk₁, hs₁⟩ := h1.stays r t ht
  obtain ⟨t₂, ht₂, hk₂, hs₂⟩ := h2.stays r t₁ ht₁
  refine ⟨t₂, ht₂, hk₂.trans hk₁, ?_⟩
  rcases hs₂ with he₂ | ⟨hd₂, hr₂⟩
  · rcases hs₁ with he₁ | ⟨hd₁, hr₁⟩
    · exact Or.inl (he₂.trans he₁)
    · exact Or.inr ⟨hd₁, by unfold active at *; rw [he₂]; exact hr₁⟩
  · rcases hs₁ with he₁ | ⟨hd₁, -⟩
    · exact Or.inr ⟨by rw [← he₁]; exact hd₂, hr₂⟩
    · exact Or.inr ⟨hd₁, hr₂⟩

theorem Settles.update {s s' : Sched} {r : TaskRef} {t t' : Task} (ht : s.pcb r = some t)
    (hpcb : s'.pcb = Function.update s.pcb r (some t')) (hk : kin t' = kin t)
    (hst : t'.state = t.state ∨ t.state ≠ .dead ∧ active t') (hidle : s'.idle = s.idle) :
    Settles s s' := by
  refine ⟨fun q t₁ hq => ?_, fun q hq => ?_, hidle⟩
  · by_cases hqr : q = r
    · subst hqr
      rw [ht] at hq
      cases hq
      exact ⟨t', by rw [hpcb, Function.update_self], hk, hst⟩
    · exact ⟨t₁, by rw [hpcb, Function.update_of_ne hqr]; exact hq, rfl, Or.inl rfl⟩
  · have hne : q ≠ r := fun he => by rw [he, ht] at hq; cases hq
    rw [hpcb, Function.update_of_ne hne]
    exact hq

theorem Settles.upd (s : Sched) {r : TaskRef} {t : Task} (f : Task → Task) (ht : s.pcb r = some t)
    (hk : kin (f t) = kin t) (hst : (f t).state = t.state ∨ t.state ≠ .dead ∧ active (f t)) :
    Settles s (s.upd r f) :=
  Settles.update ht (by rw [Sched.upd, ht]; rfl) hk hst rfl

/-- A change of the lists, of `current` or of `jiffies` touches no PCB. -/
theorem Settles.of_pcb {s s' : Sched} (h : s'.pcb = s.pcb) (hi : s'.idle = s.idle) : Settles s s' :=
  ⟨fun _ t ht => ⟨t, by rw [h]; exact ht, rfl, Or.inl rfl⟩, fun _ hr => by rw [h]; exact hr, hi⟩

/-! ### The functions -/

theorem taskUnblock_eq {s : Sched} {r : TaskRef} {t : Task} {l : ListId}
    (ht : s.pcb r = some t) (hl : t.node = some l) :
    s.taskUnblock r = .ok { s with
      pcb := Function.update s.pcb r (some { t with node := none, state := .ready })
      lists := Function.update s.lists l ((s.lists l).erase r) } := by
  simp [taskUnblock, listRemove, get, ht, hl, upd]

theorem taskUnblock_spec {s : Sched} (h : Core s) {i : Slot} {t : Task}
    (ht : s.pcb (.slot i) = some t) (hq : t.state.queued) :
    ∃ s', s.taskUnblock (.slot i) = .ok s' ∧ Core s' ∧ Settles s s' ∧
      s'.pcb = Function.update s.pcb (.slot i) (some { t with node := none, state := .ready }) ∧
      s'.current = s.current ∧ s'.jiffies = s.jiffies := by
  have hl : t.node.isSome := by rw [h.linked i t ht, hq]
  obtain ⟨l, hl⟩ := Option.isSome_iff_exists.mp hl
  refine ⟨_, taskUnblock_eq ht hl, ?_, ?_, rfl, rfl, rfl⟩
  · exact h.dequeue (u := { t with node := none, state := .ready }) ht hl rfl rfl rfl rfl rfl rfl rfl
  · refine Settles.update ht rfl rfl (Or.inr ⟨fun hd => ?_, by simp [active]⟩) rfl
    rw [hd] at hq
    simp [TaskState.queued] at hq

theorem leave_running (t : Task) : (leave t).state ≠ .running := by
  unfold leave
  dsimp only
  split_ifs with h
  · decide
  · exact h

/-- Leaving the current task: nothing runs any more. -/
theorem Core.leave {s : Sched} (h : Core s) : Core (s.upd s.current Sched.leave) ∧
    Settles s (s.upd s.current Sched.leave) ∧
    ∀ r t, (s.upd s.current Sched.leave).pcb r = some t → t.state ≠ .running := by
  refine ⟨h.upd _ _ (fun _ => rfl) (fun _ => rfl) ?_ ?_ ?_, ?_, ?_⟩
  · intro t
    unfold Sched.leave
    dsimp only
    split_ifs with hr
    · rw [hr]; rfl
    · rfl
  · exact fun t hr => absurd hr (leave_running t)
  · intro t hd hi
    unfold Sched.leave
    dsimp only
    split_ifs
    · exact ⟨by decide, by decide⟩
    · exact ⟨hd, hi⟩
  · obtain ⟨t, ht⟩ := h.current
    apply Settles.upd s _ ht rfl
    unfold Sched.leave active
    dsimp only
    split_ifs with hr
    · exact Or.inr ⟨by rw [hr]; decide, by simp⟩
    · exact Or.inl rfl
  · intro r t hr
    rw [upd_pcb] at hr
    split_ifs at hr with hc
    · obtain ⟨t₁, -, rfl⟩ := Option.map_eq_some_iff.mp hr
      exact leave_running t₁
    · exact fun hst => hc (h.onlyRunning r t hr hst)

/-- Entering a ready task when nothing runs. -/
theorem Core.enter {s : Sched} (h : Core s) {i : Slot} {t : Task} (ht : s.pcb (.slot i) = some t)
    (hst : t.state = .ready) (hnone : ∀ r t, s.pcb r = some t → t.state ≠ .running) :
    Inv { s.upd (.slot i) (fun t => { t with state := .running }) with current := .slot i } := by
  set s' := s.upd (.slot i) (fun t => { t with state := .running }) with hs'
  have hself : s'.pcb (.slot i) = some { t with state := .running } := by simp [hs', ht]
  have hcore : Core { s' with current := .slot i } := by
    have hc : Core { s with current := .slot i } :=
      ⟨⟨t, ht⟩, fun r t₁ hr hrun => absurd hrun (hnone r t₁ hr), h.linked, h.listed, h.nodup,
        h.idle, h.magic⟩
    refine hc.relink (u := { t with state := .running }) ht ?_ rfl rfl rfl ?_ (fun _ => rfl) (by simp)
      (fun _ _ _ => Iff.rfl) (fun l => h.mem_slot ht l) h.nodup
    · show (s.upd (.slot i) _).pcb = _
      rw [Sched.upd, ht]; rfl
    · have := h.linked i t ht
      rw [hst] at this
      exact this
  exact ⟨hcore, _, hself, rfl⟩

/-- `schedule` behind the choice: any task that is not dead can be switched to,
provided that none but the current one is running. -/
theorem switchTo_spec {s : Sched} (h : Core s) {i : Slot} {t : Task}
    (ht : s.pcb (.slot i) = some t) (hd : t.state ≠ .dead) (hi : t.state ≠ .init) :
    ∃ s', s.switchTo (.slot i) = .ok s' ∧ Inv s' ∧ s'.current = .slot i ∧ Settles s s' ∧
      s'.jiffies = s.jiffies := by
  obtain ⟨h1, w1, hnone⟩ := h.leave
  set s1 := s.upd s.current Sched.leave with hs1
  obtain ⟨n, hn, -, hstn⟩ := w1.stays _ t ht
  have hnd : n.state ≠ .dead := by
    rcases hstn with he | ⟨-, hr⟩
    · rw [he]; assumption
    · exact hr.1
  have hni : n.state ≠ .init := by
    rcases hstn with he | ⟨-, hr⟩
    · rw [he]; assumption
    · exact hr.2.2
  have enter : ∀ s2 : Sched, Core s2 → Settles s1 s2 → (∀ r t, s2.pcb r = some t → t.state ≠ .running) →
      s2.jiffies = s1.jiffies → (∃ t₂, s2.pcb (.slot i) = some t₂ ∧ t₂.state = .ready) →
      ∃ s', (do
        let s := s2.upd (.slot i) fun t => { t with state := .running }
        s.taskActivate (.slot i)
        .ok { s with current := .slot i } : Except Halt Sched) = .ok s' ∧
        Inv s' ∧ s'.current = .slot i ∧ Settles s s' ∧ s'.jiffies = s.jiffies := by
    intro s2 h2 w2 hnone2 hj ⟨t₂, ht₂, hr₂⟩
    refine ⟨_, ?_, h2.enter ht₂ hr₂ hnone2, rfl, w1.trans (w2.trans ?_), hj⟩
    · have hm : t₂.magic = ONIX_MAGIC := h2.magic _ _ ht₂
      simp [taskActivate, get, ht₂, hm]
    · exact (Settles.upd s2 _ ht₂ rfl (Or.inr ⟨by rw [hr₂]; decide, by simp [active]⟩)).trans
        (Settles.of_pcb rfl rfl)
  have hget : s1.get (.slot i) = .ok n := get_ok.mpr hn
  simp only [switchTo, ← hs1, hget, ok_bind]
  by_cases hready : n.state = .ready
  · simp only [hready, ne_eq, not_true_eq_false, ite_false]
    exact enter s1 h1 (Settles.refl _) hnone rfl ⟨n, hn, hready⟩
  · -- only the idle task gets here: it is unblocked so that something can run
    simp only [ne_eq, hready, not_false_eq_true, ite_true]
    have hq : n.state.queued := by
      have := hnone _ n hn
      cases hst : n.state <;> simp_all [TaskState.queued]
    set s2 := if n.state = .sleeping then
      s1.upd (.slot i) (fun t => { t with ticks := t.priority }) else s1 with hs2
    obtain ⟨h2, w2, hnone2, hj2, n₂, hn₂, hstn₂⟩ : Core s2 ∧ Settles s1 s2 ∧
        (∀ r t, s2.pcb r = some t → t.state ≠ .running) ∧ s2.jiffies = s1.jiffies ∧
        ∃ n₂, s2.pcb (.slot i) = some n₂ ∧ n₂.state = n.state := by
      rw [hs2]
      split_ifs
      · refine ⟨h1.upd _ _ (fun _ => rfl) (fun _ => rfl) (fun _ => rfl) (fun _ hr => hr)
          (fun _ hd hi => ⟨hd, hi⟩), Settles.upd s1 _ hn rfl (Or.inl rfl), ?_, rfl,
          { n with ticks := n.priority }, by rw [upd_pcb_self, hn]; rfl, rfl⟩
        intro r t hr
        rw [upd_pcb] at hr
        split_ifs at hr
        · obtain ⟨t₁, ht₁, rfl⟩ := Option.map_eq_some_iff.mp hr
          exact hnone r t₁ ht₁
        · exact hnone r t hr
      · exact ⟨h1, Settles.refl _, hnone, rfl, n, hn, rfl⟩
    obtain ⟨s3, hs3, h3, w3, hpcb3, -, hj3⟩ := taskUnblock_spec h2 hn₂ (by rw [hstn₂]; exact hq)
    rw [hs3, ok_bind]
    refine enter s3 h3 (w2.trans w3) ?_ (hj3.trans hj2) ⟨_, by rw [hpcb3, Function.update_self], rfl⟩
    intro r t hr
    rw [hpcb3] at hr
    by_cases hri : r = .slot i
    · subst hri
      rw [Function.update_self] at hr
      cases hr
      simp
    · rw [Function.update_of_ne hri] at hr
      exact hnone2 r t hr

/-- The tasks `task_search` accepts. -/
def Candidate (s : Sched) (state : TaskState) (r : TaskRef) (t : Task) : Prop :=
  (∃ i, r = .slot i) ∧ s.pcb r = some t ∧ t.state = state ∧ r ≠ s.current

theorem searchRound_some {s : Sched} {state : TaskState} {task : Option (TaskRef × Task)} {i : Slot}
    (h : ∀ r t, task = some (r, t) → Candidate s state r t) :
    ∀ r t, s.searchRound state task i = some (r, t) → Candidate s state r t := by
  intro r t hr
  unfold searchRound at hr
  split at hr
  · exact h r t hr
  · rename_i ptr hp
    split_ifs at hr with hc
    · exact h r t hr
    · have hcand : Candidate s state (.slot i) ptr := by
        push Not at hc
        exact ⟨⟨i, rfl⟩, hp, hc.1, hc.2⟩
      split at hr
      · cases hr
        exact hcand
      · split_ifs at hr
        · cases hr
          exact hcand
        · exact h r t hr

theorem searchRound_none {s : Sched} {state : TaskState} {task : Option (TaskRef × Task)} {i : Slot}
    (h : s.searchRound state task i = none) :
    task = none ∧ ∀ t, s.pcb (.slot i) = some t → t.state = state → .slot i = s.current := by
  unfold searchRound at h
  split at h
  · rename_i hp
    exact ⟨h, fun t ht => by rw [hp] at ht; cases ht⟩
  · rename_i ptr hp
    split_ifs at h with hc
    · refine ⟨h, fun t ht hst => ?_⟩
      rw [hp] at ht
      cases ht
      exact hc.resolve_left (fun hne => hne hst)
    · split at h
      · cases h
      · split_ifs at h

theorem foldl_searchRound {s : Sched} {state : TaskState} (is : List Slot)
    (task : Option (TaskRef × Task)) (h : ∀ r t, task = some (r, t) → Candidate s state r t) :
    (∀ r t, is.foldl (s.searchRound state) task = some (r, t) → Candidate s state r t) ∧
    (is.foldl (s.searchRound state) task = none → task = none ∧
      ∀ i ∈ is, ∀ t, s.pcb (.slot i) = some t → t.state = state → .slot i = s.current) := by
  induction is generalizing task with
  | nil => exact ⟨h, fun hn => ⟨hn, by simp⟩⟩
  | cons i rest ih =>
    obtain ⟨h1, h2⟩ := ih (s.searchRound state task i) (searchRound_some h)
    refine ⟨h1, fun hn => ?_⟩
    obtain ⟨hr, hrest⟩ := h2 hn
    obtain ⟨htask, hi⟩ := searchRound_none hr
    refine ⟨htask, fun j hj => ?_⟩
    rcases List.mem_cons.1 hj with rfl | hj
    · exact hi
    · exact hrest j hj

/-- `task_search(TASK_READY)` always finds a task: a ready one other than the
current one, and `idle_task` only if there is none. -/
theorem taskSearch_ready (s : Sched) : ∃ next, s.taskSearch .ready = some next ∧
    ((∃ t, Candidate s .ready next t) ∨
      next = s.idle ∧ ∀ r t, ¬ Candidate s .ready r t) := by
  obtain ⟨h1, h2⟩ := @foldl_searchRound s .ready (List.finRange NR_TASKS) none
    (by simp)
  unfold taskSearch
  split
  · rename_i r t he
    exact ⟨r, rfl, Or.inl ⟨t, h1 r t he⟩⟩
  · rename_i he
    refine ⟨s.idle, by simp, Or.inr ⟨rfl, ?_⟩⟩
    rintro r t ⟨⟨i, rfl⟩, hp, hst, hne⟩
    exact hne ((h2 he).2 i (List.mem_finRange i) t hp hst)

theorem schedule_spec {s : Sched} (h : Core s) : ∃ next s', s.taskSearch .ready = some next ∧
    s.schedule = .ok s' ∧ Inv s' ∧ s'.current = next ∧ Settles s s' ∧ s'.jiffies = s.jiffies := by
  obtain ⟨next, hs, hnext⟩ := taskSearch_ready s
  obtain ⟨i, t, rfl, ht, hd, hi⟩ : ∃ i t, next = .slot i ∧ s.pcb (.slot i) = some t ∧
      t.state ≠ .dead ∧ t.state ≠ .init := by
    rcases hnext with ⟨t, ⟨i, rfl⟩, ht, hst, -⟩ | ⟨rfl, -⟩
    · exact ⟨i, t, rfl, ht, by rw [hst]; decide, by rw [hst]; decide⟩
    · exact h.idle
  obtain ⟨s', hs', hinv, hcur, hw, hj⟩ := switchTo_spec h ht hd hi
  refine ⟨.slot i, s', hs, ?_, hinv, hcur, hw, hj⟩
  have hm : t.magic = ONIX_MAGIC := h.magic _ _ ht
  simp [schedule, hs, get, ht, hm, hs']

/-- `task_block` up to the call of `schedule`. -/
theorem taskBlock_eq {s : Sched} (h : Core s) {i : Slot} {t : Task} (l : Option ListId)
    (state : TaskState) (ht : s.pcb (.slot i) = some t) (hn : t.node = none)
    (hq : state.queued) : ∃ s1, Core s1 ∧
      s.taskBlock (.slot i) l state = (if s.current = .slot i then s1.schedule else .ok s1) ∧
      s1.pcb = Function.update s.pcb (.slot i)
        (some { t with node := some (l.getD .blockList), state := state }) ∧
      s1.current = s.current ∧ s1.idle = s.idle ∧ s1.jiffies = s.jiffies := by
  have hnot : .slot i ∉ s.lists (l.getD .blockList) := by
    rw [h.mem_slot ht, hn]
    simp
  have hst : (decide (state ≠ .ready) && decide (state ≠ .running)) = true := by
    cases state <;> simp_all [TaskState.queued]
  refine ⟨{ s with
    pcb := Function.update s.pcb (.slot i)
      (some { t with node := some (l.getD .blockList), state := state })
    lists := Function.update s.lists (l.getD .blockList) (.slot i :: s.lists (l.getD .blockList)) },
    ?_, ?_, rfl, rfl, rfl, rfl⟩
  · exact h.enqueue (u := { t with node := some (l.getD .blockList), state := state })
      ht hn rfl rfl (List.Perm.refl _) rfl rfl rfl hq rfl
  · simp only [taskBlock, get, ht, ok_bind, hn, Option.isNone_none, assert_true, listPush, hnot,
      not_false_eq_true, decide_true, hst, upd, Option.map_some, Function.update_self,
      Function.update_idem]

theorem Inv.slot_node {s : Sched} (h : Inv s) {i : Slot} {t : Task} (ht : s.pcb (.slot i) = some t)
    (hr : runnable t) : t.node = none := by
  have := h.linked i t ht
  rcases hr with hr | hr <;> rw [hr] at this <;> simpa [TaskState.queued] using this

theorem taskBlock_spec {s : Sched} (h : Inv s) {i : Slot} {t : Task} (l : Option ListId)
    {state : TaskState} (ht : s.pcb (.slot i) = some t) (hr : runnable t)
    (hq : state = .blocked ∨ state = .sleeping) :
    ∃ s', s.taskBlock (.slot i) l state = .ok s' ∧ Inv s' ∧ Settles s s' := by
  obtain ⟨s1, h1, heq, hpcb, hcur, hidle, -⟩ :=
    taskBlock_eq h.toCore l state ht (h.slot_node ht hr) (by rcases hq with rfl | rfl <;> rfl)
  have w1 : Settles s s1 := by
    refine Settles.update ht hpcb rfl (Or.inr ⟨?_, ?_⟩) hidle
    · rcases hr with hr | hr <;> rw [hr] <;> decide
    · rcases hq with rfl | rfl <;> simp [active]
  rw [heq]
  split_ifs with hc
  · obtain ⟨_, s', -, hs', hinv, -, w', -⟩ := schedule_spec h1
    exact ⟨s', hs', hinv, w1.trans w'⟩
  · refine ⟨s1, rfl, ⟨h1, ?_⟩, w1⟩
    obtain ⟨t₁, ht₁, hr₁⟩ := h.running
    exact ⟨t₁, by rw [hpcb, hcur, Function.update_of_ne hc]; exact ht₁, hr₁⟩

theorem Core.of_eq {s s' : Sched} (h : Core s) (hpcb : s'.pcb = s.pcb) (hl : s'.lists = s.lists)
    (hc : s'.current = s.current) (hi : s'.idle = s.idle) : Core s' := by
  refine ⟨?_, ?_, ?_, ?_, ?_, ?_, ?_⟩
  · rw [hc, hpcb]; exact h.current
  · rw [hc, hpcb]; exact h.onlyRunning
  · rw [hpcb]; exact h.linked
  · rw [hpcb, hl]; exact h.listed
  · rw [hl]; exact h.nodup
  · rw [hpcb, hi]; exact h.idle
  · rw [hpcb]; exact h.magic

theorem taskSleep_eq {s : Sched} (h : Core s) {i : Slot} {t : Task} (ms : UInt32)
    (hcur : s.current = .slot i) (ht : s.pcb (.slot i) = some t) (hn : t.node = none) :
    ∃ s1, Core s1 ∧ s.taskSleep ms = s1.schedule ∧
      s1.pcb = Function.update s.pcb (.slot i) (some { t with
        ticks := s.jiffies + sleepTicks ms, node := some .sleepList, state := .sleeping }) ∧
      s1.lists .sleepList = insertBefore (s.upd (.slot i) fun t => { t with
        ticks := s.jiffies + sleepTicks ms }).ticksKey (.slot i) (s.lists .sleepList) ∧
      s1.current = s.current ∧ s1.idle = s.idle ∧ s1.jiffies = s.jiffies := by
  set t0 : Task := { t with ticks := s.jiffies + sleepTicks ms } with ht0
  set s0 := s.upd (.slot i) (fun t => { t with ticks := s.jiffies + sleepTicks ms }) with hs0
  have hpcb0 : s0.pcb (.slot i) = some t0 := by rw [hs0, upd_pcb_self, ht]; rfl
  refine ⟨{ s with
    pcb := Function.update s.pcb (.slot i) (some { t0 with node := some .sleepList, state := .sleeping })
    lists := Function.update s.lists .sleepList
      (insertBefore s0.ticksKey (.slot i) (s.lists .sleepList)) }, ?_, ?_, rfl,
    ?_, rfl, rfl, rfl⟩
  · exact h.enqueue (u := { t0 with node := some .sleepList, state := .sleeping }) ht hn rfl rfl
      (insertBefore_perm _ _ _) rfl rfl rfl rfl rfl
  · have hget : s.get s.current = .ok t := by rw [hcur]; exact get_ok.mpr ht
    simp only [taskSleep, hget, ok_bind]
    rw [hcur, ← hs0]
    simp only [listInsertSort, get, hpcb0, ok_bind]
    have : t0.node.isNone = true := by rw [ht0]; simp [hn]
    simp only [this, assert_true, ok_bind]
    congr 1
    simp only [upd, Function.update_self, Option.map_some, Function.update_idem, hs0, ht, hcur, ht0]
  · exact Function.update_self ListId.sleepList _ s.lists

theorem taskSleep_spec {s : Sched} (h : Inv s) {i : Slot} (ms : UInt32) (hcur : s.current = .slot i) :
    ∃ s', s.taskSleep ms = .ok s' ∧ Inv s' ∧ Settles s s' := by
  obtain ⟨t, ht, hr⟩ := h.running
  rw [hcur] at ht
  obtain ⟨s1, h1, heq, hpcb, -, -, hidle, -⟩ :=
    taskSleep_eq h.toCore ms hcur ht (h.slot_node ht (Or.inr hr))
  have w1 : Settles s s1 :=
    Settles.update ht hpcb rfl (Or.inr ⟨by rw [hr]; decide, by simp [active]⟩) hidle
  obtain ⟨_, s', -, hs', hinv, -, w', -⟩ := schedule_spec h1
  exact ⟨s', by rw [heq]; exact hs', hinv, w1.trans w'⟩

/-- One round of `task_weakup`. -/
theorem wake_spec {s : Sched} (h : Inv s) {i : Slot} {t : Task} {l : ListId}
    (ht : s.pcb (.slot i) = some t) (hl : t.node = some l) :
    ∃ s', (s.upd (.slot i) fun t => { t with ticks := t.priority }).taskUnblock (.slot i) = .ok s' ∧
      Inv s' ∧ Settles s s' ∧
      s'.pcb = Function.update s.pcb (.slot i)
        (some { t with ticks := t.priority, node := none, state := .ready }) ∧
      s'.lists = Function.update s.lists l ((s.lists l).erase (.slot i)) ∧
      s'.current = s.current ∧ s'.jiffies = s.jiffies := by
  have hq : t.state.queued := by rw [← h.linked i t ht, hl]; rfl
  set s1 := s.upd (.slot i) (fun t => { t with ticks := t.priority }) with hs1
  have ht1 : s1.pcb (.slot i) = some { t with ticks := t.priority } := by
    rw [hs1, upd_pcb_self, ht]; rfl
  have hpcb : Function.update s1.pcb (.slot i)
        (some { t with ticks := t.priority, node := none, state := .ready }) =
      Function.update s.pcb (.slot i) (some { t with ticks := t.priority, node := none, state := .ready }) := by
    simp only [hs1, Sched.upd, Function.update_idem]
  refine ⟨_, taskUnblock_eq ht1 hl, ⟨?_, ?_⟩, ?_, hpcb, rfl, rfl, rfl⟩
  · exact h.toCore.dequeue (u := { t with ticks := t.priority, node := none, state := .ready }) ht hl hpcb
      rfl rfl rfl rfl rfl rfl
  · obtain ⟨c, hc, hr⟩ := h.running
    have hci : s.current ≠ .slot i := by
      intro he
      rw [he, ht] at hc
      cases hc
      rw [hr] at hq
      simp [TaskState.queued] at hq
    exact ⟨c, by rw [hpcb]; exact (Function.update_of_ne hci ..).trans hc, hr⟩
  · refine Settles.update ht hpcb rfl (Or.inr ⟨fun hd => ?_, by simp [active]⟩) rfl
    rw [hd] at hq
    simp [TaskState.queued] at hq

theorem weakupLoop_spec {s : Sched} (h : Inv s) (l : List TaskRef)
    (hl : ∀ r ∈ l, ∃ i t, r = .slot i ∧ s.pcb r = some t ∧ t.state.queued) (hnd : l.Nodup) :
    ∃ s', weakupLoop l s = .ok s' ∧ Inv s' ∧ Settles s s' ∧ s'.current = s.current := by
  induction l generalizing s with
  | nil => exact ⟨s, rfl, h, Settles.refl s, rfl⟩
  | cons r rest ih =>
    obtain ⟨i, t, rfl, ht, hq⟩ := hl r (List.mem_cons_self ..)
    rw [List.nodup_cons] at hnd
    simp only [weakupLoop, get, ht, ok_bind]
    by_cases hj : t.ticks > s.jiffies
    · rw [if_pos hj]
      exact ⟨s, rfl, h, Settles.refl s, rfl⟩
    rw [if_neg hj]
    rw [← h.linked i t ht] at hq
    obtain ⟨l, hl'⟩ := Option.isSome_iff_exists.mp hq
    obtain ⟨s2, hs2, h2, w2, hpcb2, -, hcur2, -⟩ := wake_spec h ht hl'
    obtain ⟨s', hs', h', w', hcur'⟩ := ih h2 (fun r hr => by
      obtain ⟨j, t₁, rfl, ht₁, hq₁⟩ := hl r (List.mem_cons_of_mem _ hr)
      refine ⟨j, t₁, rfl, ?_, hq₁⟩
      have hne : TaskRef.slot j ≠ .slot i := fun he => hnd.1 (he ▸ hr)
      rw [hpcb2, Function.update_of_ne hne]
      exact ht₁) hnd.2
    exact ⟨s', by rw [hs2, ok_bind]; exact hs', h', w2.trans w', hcur'.trans hcur2⟩

theorem taskWeakup_spec {s : Sched} (h : Inv s) :
    ∃ s', s.taskWeakup = .ok s' ∧ Inv s' ∧ Settles s s' ∧ s'.current = s.current := by
  refine weakupLoop_spec h _ (fun r hr => ?_) (h.nodup _)
  obtain ⟨i, t, rfl, ht, hn⟩ := (h.listed _ r).mp hr
  refine ⟨i, t, rfl, ht, ?_⟩
  rw [← h.linked i t ht, hn]
  rfl

theorem clockHandler_spec {s : Sched} (h : Inv s) :
    ∃ s', s.clockHandler = .ok s' ∧ Inv s' ∧ Settles s s' := by
  obtain ⟨s1, hs1, h1, w1, -⟩ := taskWeakup_spec h
  obtain ⟨t, ht, hr⟩ := h1.running
  set s2 : Sched := { s1 with jiffies := s1.jiffies + 1 } with hs2
  have h2 : Core s2 := h1.toCore.of_eq rfl rfl rfl rfl
  set f : Task → Task := fun t => { t with jiffies := s1.jiffies + 1, ticks := t.ticks - 1 } with hf
  set s3 := s2.upd s2.current f with hs3
  have ht3 : s3.pcb s3.current = some (f t) := by
    rw [hs3, upd_current, upd_pcb_self, hs2]
    simp [ht]
  have h3 : Inv s3 := ⟨h2.upd _ _ (fun _ => rfl) (fun _ => rfl) (fun _ => rfl) (fun _ hr => hr)
    (fun _ hd hi => ⟨hd, hi⟩), f t, ht3, hr⟩
  have w3 : Settles s s3 := w1.trans ((Settles.of_pcb rfl rfl : Settles s1 s2).trans
    (Settles.upd s2 f (show s2.pcb s2.current = some t from ht) rfl (Or.inl rfl)))
  have hm : t.magic = ONIX_MAGIC := h1.magic _ _ ht
  have hrun : s.clockHandler = if t.ticks - 1 = 0 then s3.schedule else .ok s3 := by
    simp only [clockHandler, hs1, ok_bind]
    rw [← hs2, get_ok.mpr (show s2.pcb s2.current = some t from ht)]
    simp only [ok_bind, hm, beq_self_eq_true, assert_true]
    rfl
  rw [hrun]
  split_ifs
  · obtain ⟨_, s', -, hs', hinv, -, w', -⟩ := schedule_spec h3.toCore
    exact ⟨s', hs', hinv, w3.trans w'⟩
  · exact ⟨s3, rfl, h3, w3⟩

end Sched
end Onix
