import Onix.Kernel.Task
import Onix.Lib.Transition

/-! One `reentrantlock_t` of mutex.c, used by any number of tasks. A task runs until it blocks
in `mutex_lock` or yields in `mutex_unlock`; then any task that is ready goes on. -/

set_option autoImplicit false

namespace Onix

open Lib

/-- Where a task is. -/
inductive LockPc
  | idle
  /-- In the loop of `mutex_lock`. -/
  | locking
  /-- In the `task_yield` of `mutex_unlock`. -/
  | yielding
  deriving DecidableEq

/-- The lock, first the fields of its mutex, and the tasks with the calls of `reentrant_lock` they have
returned from and not undone. -/
structure LockState (T : Type) where
  value : Bool
  waiters : List T
  holder : Option T
  repeats : UInt32
  pc : T → LockPc
  depth : T → ℕ

inductive LockEvent (T : Type)
  | lock (t : T)
  /-- The loop of `mutex_lock` goes round again. -/
  | retry (t : T)
  | unlock (t : T)
  | resume (t : T)

namespace LockState

variable {T : Type} [DecidableEq T]

def goto (s : LockState T) (t : T) (p : LockPc) : LockState T := { s with pc := Function.update s.pc t p }

def nest (s : LockState T) (t : T) (n : ℕ) : LockState T := { s with depth := Function.update s.depth t n }

/-- One round of `mutex_lock`, and `reentrant_lock` behind it once the mutex is taken. -/
def mutexLock (s : LockState T) (t : T) : Except Halt (LockState T) :=
  if s.value then do
    assert "!list_search(list, node)" (t ∉ s.waiters)
    .ok ({ s with waiters := t :: s.waiters }.goto t .locking)
  else do
    assert "lock->repeat == 0" (s.repeats == 0)
    .ok (({ s with value := true, holder := some t, repeats := 1 }.nest t (s.depth t + 1)).goto t .idle)

def reentrantLock (s : LockState T) (t : T) : Except Halt (LockState T) :=
  if s.holder = some t then .ok ({ s with repeats := s.repeats + 1 }.nest t (s.depth t + 1))
  else s.mutexLock t

/-- `mutex_unlock`, up to its `task_yield`. -/
def mutexUnlock (s : LockState T) (t : T) : Except Halt (LockState T) := do
  assert "mutex->value == true" s.value
  let s := { s with value := false }
  if s.waiters = [] then .ok s
  else .ok ({ s with waiters := s.waiters.dropLast }.goto t .yielding)

def reentrantUnlock (s : LockState T) (t : T) : Except Halt (LockState T) := do
  assert "lock->holder == current" (s.holder = some t)
  let s := { s with repeats := s.repeats - 1 }.nest t (s.depth t - 1)
  if s.repeats = 0 then mutexUnlock { s with holder := none } t else .ok s

/-- Calls are properly nested, and a blocked task makes no step. -/
def Enabled (s : LockState T) : LockEvent T → Prop
  | .lock t => s.pc t = .idle
  | .retry t => s.pc t = .locking ∧ t ∉ s.waiters
  | .unlock t => s.pc t = .idle ∧ 0 < s.depth t
  | .resume t => s.pc t = .yielding

def exec (s : LockState T) : LockEvent T → Except Halt (LockState T)
  | .lock t => s.reentrantLock t
  | .retry t => s.mutexLock t
  | .unlock t => s.reentrantUnlock t
  | .resume t => .ok (s.goto t .idle)

def Step (s : LockState T) (e : LockEvent T) (s' : LockState T) : Prop := s.Enabled e ∧ s.exec e = .ok s'

/-- After `reentrant_init`. -/
def Init (s : LockState T) : Prop :=
  s.value = false ∧ s.waiters = [] ∧ s.holder = none ∧ s.repeats = 0 ∧ (∀ t, s.pc t = .idle) ∧ ∀ t, s.depth t = 0

/-- `repeat` can count the call. -/
def Counted (s : LockState T) : LockEvent T → Prop
  | .lock t => s.depth t + 1 < 2 ^ 32
  | _ => True

/-! ### The invariant -/

structure Inv (s : LockState T) : Prop where
  free : s.value = false → s.holder = none ∧ s.repeats = 0
  held : s.value = true → ∃ t, s.holder = some t
  holder : ∀ t, s.holder = some t ↔ 0 < s.depth t
  depth : ∀ t, s.holder = some t → s.repeats.toNat = s.depth t
  waiting : ∀ t ∈ s.waiters, s.pc t = .locking
  locking : ∀ t, s.pc t = .locking → s.depth t = 0
  woken : s.value = false → s.waiters ≠ [] → ∃ t, s.pc t = .locking ∧ t ∉ s.waiters
  nodup : s.waiters.Nodup

variable {s s' : LockState T}

omit [DecidableEq T] in
theorem inv_init (h : Init s) : Inv s := by
  obtain ⟨h1, h2, h3, h4, h5, h6⟩ := h
  constructor <;> simp_all

/-- A task that is not waiting and does not hold the lock takes it, or waits. -/
theorem Inv.mutexLock (h : Inv s) {t : T} (hw : t ∉ s.waiters) (hd : s.depth t = 0) (bad : Halt → Prop) :
    Meets bad (s.mutexLock t) Inv := by
  unfold LockState.mutexLock
  split_ifs with hv
  · refine Meets.assert_bind (fun hb => absurd hw (by simpa using hb)) fun _ => meets_ok.mpr ?_
    obtain ⟨h1, h2, h3, h4, h5, h6, h7, h8⟩ := h
    refine ⟨?_, h2, h3, h4, ?_, ?_, ?_, List.nodup_cons.mpr ⟨hw, h8⟩⟩ <;> simp only [goto, Function.update_apply] <;> grind
  · obtain ⟨h1, h2, h3, h4, h5, h6, h7, h8⟩ := h
    obtain ⟨hn, hr⟩ := h1 (by simpa using hv)
    refine Meets.assert_bind (fun hb => absurd hr (by simpa using hb)) fun _ => meets_ok.mpr ?_
    refine ⟨?_, ?_, ?_, ?_, ?_, ?_, ?_, h8⟩ <;> simp only [goto, nest, Function.update_apply] <;> grind

/-- The task that holds the lock enters it once more. -/
theorem Inv.enter (h : Inv s) {t : T} (hh : s.holder = some t) (hc : s.depth t + 1 < 2 ^ 32) :
    Inv ({ s with repeats := s.repeats + 1 }.nest t (s.depth t + 1)) := by
  have hr : (s.repeats + 1).toNat = s.depth t + 1 := by
    have := h.depth t hh
    rw [UInt32.toNat_add, this]
    exact Nat.mod_eq_of_lt hc
  have hv : s.value = true := by
    by_contra hv
    rw [(h.free (by simpa using hv)).1] at hh
    cases hh
  obtain ⟨h1, h2, h3, h4, h5, h6, h7, h8⟩ := h
  refine ⟨?_, h2, ?_, ?_, h5, ?_, h7, h8⟩ <;> simp only [nest, Function.update_apply] <;> grind

/-- A call of `reentrant_unlock` by the holder: it gives the lock back at the outermost level, and wakes a waiter. -/
theorem Inv.unlock (h : Inv s) {t : T} (hpc : s.pc t = .idle) (hd : 0 < s.depth t) (bad : Halt → Prop) :
    Meets bad (s.reentrantUnlock t) Inv := by
  have hh := (h.holder t).mpr hd
  have hr := h.depth t hh
  have hr' : (s.repeats - 1).toNat = s.depth t - 1 := by
    rw [UInt32.toNat_sub_of_le _ _ (UInt32.le_iff_toNat_le.mpr (by rw [hr]; exact hd)), hr]
    rfl
  have hv : s.value = true := by
    by_contra hv
    rw [(h.free (by simpa using hv)).1] at hh
    cases hh
  have hzero : s.repeats - 1 = 0 ↔ s.depth t - 1 = 0 := by
    rw [← hr', ← UInt32.toNat_inj]
    rfl
  have hlast : ∀ hne : s.waiters ≠ [], s.waiters.getLast hne ∉ s.waiters.dropLast := by
    intro hne hm
    have h1 := h.nodup
    rw [← List.dropLast_append_getLast hne] at h1
    exact (List.nodup_append.mp h1).2.2 _ hm _ (List.mem_singleton_self _) rfl
  have hdrop : ∀ t', t' ∈ s.waiters.dropLast → t' ∈ s.waiters := fun _ => List.mem_of_mem_dropLast
  have hwake : ∀ hne : s.waiters ≠ [], s.waiters.getLast hne ∈ s.waiters := List.getLast_mem
  have hnodup : s.waiters.dropLast.Nodup := h.nodup.sublist (List.dropLast_sublist _)
  refine Meets.assert_bind (fun hb => absurd hh (by simpa using hb)) fun _ => ?_
  change Meets bad (if s.repeats - 1 = 0 then
      mutexUnlock ⟨s.value, s.waiters, none, s.repeats - 1, s.pc, Function.update s.depth t (s.depth t - 1)⟩ t
    else .ok ⟨s.value, s.waiters, s.holder, s.repeats - 1, s.pc, Function.update s.depth t (s.depth t - 1)⟩) Inv
  obtain ⟨h1, h2, h3, h4, h5, h6, h7, h8⟩ := h
  split_ifs with hz
  · refine Meets.assert_bind (fun hb => absurd hv (by simpa using hb)) fun _ => ?_
    dsimp only
    split_ifs with hnil
    · refine meets_ok.mpr ⟨?_, ?_, ?_, ?_, h5, ?_, ?_, h8⟩ <;> simp only [Function.update_apply] <;> grind
    · refine meets_ok.mpr ⟨?_, ?_, ?_, ?_, ?_, ?_, ?_, hnodup⟩ <;> simp only [goto, Function.update_apply]
      · grind
      · grind
      · grind
      · grind
      · grind
      · grind
      · intro _ _
        exact ⟨s.waiters.getLast hnil, by grind, hlast hnil⟩
  · refine meets_ok.mpr ⟨?_, h2, ?_, ?_, h5, ?_, h7, h8⟩ <;> simp only [Function.update_apply] <;> grind

theorem exec_spec (h : Inv s) {e : LockEvent T} (he : s.Enabled e) (hc : s.Counted e) (bad : Halt → Prop) :
    Meets bad (s.exec e) Inv := by
  cases e with
  | lock t =>
    change Meets bad (s.reentrantLock t) Inv
    unfold reentrantLock
    split_ifs with hh
    · exact meets_ok.mpr (h.enter hh hc)
    · have hd : s.depth t = 0 := by
        have := (h.holder t).not.mp hh
        omega
      refine h.mutexLock (fun hm => ?_) hd bad
      have h1 := h.waiting t hm
      rw [he] at h1
      cases h1
  | retry t => exact h.mutexLock he.2 (h.locking t he.1) bad
  | unlock t => exact h.unlock he.1 he.2 bad
  | resume t =>
    have he : s.pc t = .yielding := he
    apply meets_ok.mpr
    obtain ⟨h1, h2, h3, h4, h5, h6, h7, h8⟩ := h
    refine ⟨h1, h2, h3, h4, ?_, ?_, ?_, h8⟩ <;> simp only [goto, Function.update_apply] <;> grind

/-! ### Runs -/

/-- What the users of the lock rely on. -/
structure Safe (s : LockState T) : Prop where
  one : ∀ t t', 0 < s.depth t → 0 < s.depth t' → t = t'
  holder : ∀ t, s.holder = some t ↔ 0 < s.depth t
  repeats : ∀ t, s.holder = some t → s.repeats.toNat = s.depth t
  free : (∀ t, s.depth t = 0) → s.value = false ∧ s.holder = none ∧ s.repeats = 0
  woken : s.value = false → s.waiters ≠ [] → ∃ t, s.pc t = .locking ∧ t ∉ s.waiters

omit [DecidableEq T] in
theorem Inv.safe (h : Inv s) : Safe s := by
  refine ⟨fun t t' ht ht' => ?_, h.holder, h.depth, fun hz => ?_, h.woken⟩
  · rw [← h.holder] at ht ht'
    exact Option.some.inj (ht.symm.trans ht')
  · have hv : s.value = false := by
      by_contra hv
      obtain ⟨t, ht⟩ := h.held (by simpa using hv)
      have h1 := (h.holder t).mp ht
      have h2 := hz t
      omega
    exact ⟨hv, h.free hv⟩

/-- Over every run in which no task nests more calls than `repeat` can count. -/
theorem lock_safety {es : List (LockEvent T)} (h : Run Init (Restrict Counted Step) es s) :
    s.Safe ∧ ∀ e, s.Enabled e → s.Counted e → ∃ s', s.exec e = .ok s' := by
  have hi : Inv s := Run.invariant (I := Inv) (fun _ => inv_init)
    (fun _ _ _ hi hs => (exec_spec hi hs.2.1 hs.1 fun _ => True).result _ hs.2.2) es s h
  refine ⟨hi.safe, fun e he hc => ?_⟩
  obtain ⟨s', hs', -⟩ := (exec_spec hi he hc fun _ => True).returns
  exact ⟨s', hs'⟩

instance (s : LockState T) : (e : LockEvent T) → Decidable (s.Enabled e)
  | .lock t => inferInstanceAs (Decidable (s.pc t = .idle))
  | .retry t => inferInstanceAs (Decidable (s.pc t = .locking ∧ t ∉ s.waiters))
  | .unlock t => inferInstanceAs (Decidable (s.pc t = .idle ∧ 0 < s.depth t))
  | .resume t => inferInstanceAs (Decidable (s.pc t = .yielding))

instance (s : LockState T) : (e : LockEvent T) → Decidable (s.Counted e)
  | .lock t => inferInstanceAs (Decidable (s.depth t + 1 < 2 ^ 32))
  | .retry _ | .unlock _ | .resume _ => .isTrue trivial

/-- A step that is made, as `Step` has it, by a task that has not nested too many calls. -/
def attempt (s : LockState T) (e : LockEvent T) : Option (LockEvent T × LockState T) :=
  if s.Counted e ∧ s.Enabled e then
    match s.exec e with
    | .ok s' => some (e, s')
    | .error _ => none
  else none

theorem attempt_step {e e' : LockEvent T} (h : s.attempt e = some (e', s')) : Restrict Counted Step s e' s' := by
  unfold attempt at h
  split_ifs at h with hen
  split at h
  · rename_i s₁ he
    cases h
    exact ⟨hen.1, hen.2, he⟩
  · cases h

/-- A lock after `reentrant_init`. -/
def freshLock : LockState ℕ := ⟨false, [], none, 0, fun _ => .idle, fun _ => 0⟩

theorem freshLock_init : Init freshLock := ⟨rfl, rfl, rfl, rfl, fun _ => rfl, fun _ => rfl⟩

/-- Tasks 1 and 2 wait for task 0, which has nested two calls; 1 is woken, and 3 takes the lock before it. -/
def barging : List (LockEvent ℕ) :=
  [.lock 0, .lock 0, .lock 1, .lock 2, .unlock 0, .unlock 0, .lock 3, .retry 1, .resume 0, .unlock 3]

theorem lock_safety_barging : ∃ es s, Run Init (Restrict Counted Step) es s ∧ s.waiters = [1] ∧
    s.value = false ∧ s.Safe := by
  have hsome : ((replay attempt freshLock barging).map fun r => decide (r.2.waiters = [1] ∧ r.2.value = false)) =
      some true := by
    decide +kernel
  obtain ⟨⟨es, s⟩, hes, hd⟩ := Option.map_eq_some_iff.mp hsome
  obtain ⟨hw, hv⟩ := of_decide_eq_true hd
  have hr : Run Init (Restrict Counted Step) es s := by
    have hstep : ∀ (s : LockState ℕ) e e' s', attempt s e = some (e', s') → Restrict Counted Step s e' s' :=
      fun _ _ _ _ h => attempt_step h
    simpa using Run.replay hstep _ freshLock [] es s (.nil freshLock_init) hes
  exact ⟨es, s, hr, hw, hv, (lock_safety hr).1⟩

/-- The lock after task 0 has nested `n` calls. -/
def nested (n : ℕ) : LockState ℕ :=
  ⟨true, [], some 0, UInt32.ofNat n, fun _ => .idle, Function.update (fun _ => 0) 0 n⟩

theorem run_nested : ∀ n, Run Init Step (List.replicate (n + 1) (.lock 0)) (nested (n + 1)) := by
  intro n
  induction n with
  | zero =>
    refine Run.snoc (.nil freshLock_init) ⟨rfl, ?_⟩
    simp [exec, reentrantLock, mutexLock, freshLock, assert, goto, nest, nested]
  | succ n ih =>
    rw [List.replicate_succ']
    refine ih.snoc ⟨rfl, ?_⟩
    simp [exec, reentrantLock, nested, nest]

theorem nested_depth (n : ℕ) : (nested n).depth 0 = n := by simp [nested]

/-- After 2^32 calls `repeat` is 0 and the task has the lock. -/
theorem lock_depth_overflows : ¬ ∀ es (s : LockState ℕ), Run Init Step es s → s.Safe := by
  intro hall
  have h := (hall _ _ (run_nested (2 ^ 32 - 1))).repeats 0 rfl
  rw [nested_depth] at h
  have hlt := (nested (2 ^ 32 - 1 + 1)).repeats.toNat_lt
  omega

end LockState
end Onix
