import Onix.Fs.Files

/-! The descriptors of one task, as file.c looks them up. A descriptor is an unsigned number, and every call has a test
of its own for it; what the tests let through is an index into `files` of the task, which has 16 slots. -/

set_option autoImplicit false

namespace Onix

open Lib

/-- How a call ends that does not return, or that indexes `files` outside of its slots. -/
inductive Trap
  | halt (h : Halt)
  | outside (i : ℕ)
  deriving DecidableEq, Repr

namespace Files

variable {I : Type} {s s' : Files I} {t : Fin NR_TASKS} {f g : FileId}

/-- Code that can halt, but indexes nothing. -/
def within {α : Type} : Except Halt α → Except Trap α
  | .ok a => .ok a
  | .error h => .error (.halt h)

/-- `sys_close`, from its call to its return. -/
def sysCloseCall (s : Files I) (t : Fin NR_TASKS) (fd : ℕ) : Except Trap (Files I) :=
  if h : fd < TASK_FILE_NR then
    match s.files t ⟨fd, h⟩ with
    | none => .ok s
    | some f => do
      within (assert "file->inode" (s.inode f).isSome)
      let s ← within (s.putFile f)
      .ok (s.setFd t ⟨fd, h⟩ none)
  else .error (.halt (.assertion "fd < TASK_FILE_NR"))

/-- The loop of `dupfd`; it reads `files[arg]` before it compares `arg` with the number of slots. -/
def freeFrom (s : Files I) (t : Fin NR_TASKS) (arg : ℕ) : Except Trap Fd :=
  match (List.finRange TASK_FILE_NR).find? fun i => arg ≤ i.val && (s.files t i).isNone with
  | some i => .ok i
  | none => .error (.outside (max arg TASK_FILE_NR))

/-- One more descriptor for the entry `f`. -/
def addFd (s : Files I) (t : Fin NR_TASKS) (i : Fd) (f : FileId) : Files I :=
  { s.setFd t i (some f) with count := Function.update s.count f (s.count f + 1) }

/-- `dupfd`, with what it returns; `none` is EOF. -/
def dupfdCall (s : Files I) (t : Fin NR_TASKS) (fd arg : ℕ) : Except Trap (Option Fd × Files I) :=
  if h : fd < TASK_FILE_NR then
    match s.files t ⟨fd, h⟩ with
    | none => .ok (none, s)
    | some f => do
      let i ← s.freeFrom t arg
      .ok (some i, s.addFd t i f)
  else .ok (none, s)

def sysDup (s : Files I) (t : Fin NR_TASKS) (oldfd : ℕ) : Except Trap (Option Fd × Files I) := s.dupfdCall t oldfd 0

def sysDup2 (s : Files I) (t : Fin NR_TASKS) (oldfd newfd : ℕ) : Except Trap (Option Fd × Files I) := do
  let s ← s.sysCloseCall t newfd
  s.dupfdCall t oldfd newfd

/-! ### The calls, one by one -/

theorem freeFrom_free {arg : ℕ} {i : Fd} (h : s.files t i = none) (harg : arg ≤ i.val)
    (hleast : ∀ j : Fd, arg ≤ j.val → j < i → s.files t j ≠ none) : s.freeFrom t arg = .ok i := by
  have hfind : (List.finRange TASK_FILE_NR).find? (fun i => arg ≤ i.val && (s.files t i).isNone) = some i := by
    rw [List.find?_eq_some_iff_getElem]
    refine ⟨by simp [harg, h], i.val, by simp, by simp, fun j hj => ?_⟩
    have hlt : j < TASK_FILE_NR := hj.trans i.isLt
    simp only [List.getElem_finRange, Bool.not_eq_true', Bool.and_eq_false_iff, decide_eq_false_iff_not]
    by_cases hle : arg ≤ j
    · exact Or.inr (by simpa [Option.isSome_iff_ne_none] using hleast ⟨j, hlt⟩ hle hj)
    · exact Or.inl hle
  simp only [freeFrom, hfind]

theorem freeFrom_full {arg : ℕ} (h : ∀ i : Fd, arg ≤ i.val → s.files t i ≠ none) :
    s.freeFrom t arg = .error (.outside (max arg TASK_FILE_NR)) := by
  have hfind : (List.finRange TASK_FILE_NR).find? (fun i => arg ≤ i.val && (s.files t i).isNone) = none := by
    rw [List.find?_eq_none]
    intro i _
    by_cases hle : arg ≤ i.val
    · simpa [hle] using h i hle
    · simp [hle]
  simp only [freeFrom, hfind]

/-- The lowest free slot. -/
theorem exists_lowest {p : Fd → Prop} (h : ∃ i, p i) : ∃ i, p i ∧ ∀ j < i, ¬ p j := by
  obtain ⟨i, hi, hmin⟩ := WellFounded.has_min wellFounded_lt {i | p i} h
  exact ⟨i, hi, fun j hlt hj => hmin j hj hlt⟩

/-- A descriptor that a task has open refers to an entry in use. -/
theorem Counts.used (h : s.Counts) (ht : s.Open t) {fd : Fd} (hf : s.files t fd = some f) :
    0 < s.count f ∧ (s.inode f).isSome = true := by
  have hpos : 0 < s.count f := by
    rw [h.count f]
    exact refCount_pos ((ht.slot fd).trans hf)
  exact ⟨hpos, h.inode f hpos⟩

/-- What a close of a descriptor of `f` leaves. -/
def shut (s : Files I) (t : Fin NR_TASKS) (fd : Fd) (f : FileId) : Files I :=
  { s.setFd t fd none with
    count := Function.update s.count f (s.count f - 1)
    iputs := if s.count f - 1 = 0 then Function.update s.iputs f (s.iputs f + 1) else s.iputs }

theorem sysCloseCall_free {fd : Fd} (h : s.files t fd = none) : s.sysCloseCall t fd = .ok s := by
  simp only [sysCloseCall, fd.isLt, dite_true, h]

theorem sysCloseCall_open (hc : s.Counts) (ht : s.Open t) {fd : Fd} (h : s.files t fd = some f) :
    s.sysCloseCall t fd = .ok (s.shut t fd f) := by
  obtain ⟨hpos, hinode⟩ := hc.used ht h
  have hput : s.putFile f = .ok { s with
      count := Function.update s.count f (s.count f - 1)
      iputs := if s.count f - 1 = 0 then Function.update s.iputs f (s.iputs f + 1) else s.iputs } := by
    simp only [putFile, hpos, decide_true, assert_true, ok_bind, Function.update_self]
    split_ifs <;> rfl
  simp only [sysCloseCall, fd.isLt, dite_true, h, hinode, assert_true, within, ok_bind, hput]
  rfl

theorem dupfdCall_shut {fd : Fd} (h : s.files t fd = none) (arg : ℕ) : s.dupfdCall t fd arg = .ok (none, s) := by
  simp only [dupfdCall, fd.isLt, dite_true, h]

theorem dupfdCall_open {fd : Fd} (h : s.files t fd = some f) (arg : ℕ) :
    s.dupfdCall t fd arg = s.freeFrom t arg >>= fun i => .ok (some i, s.addFd t i f) := by
  simp only [dupfdCall, fd.isLt, dite_true, h]

/-! ### The laws -/

/-- `dup2`: the new descriptor refers to the file of the old one, and the counts follow the descriptors. -/
def Dup2Law (s : Files I) (t : Fin NR_TASKS) (oldfd newfd : Fd) : Prop :=
  match s.files t oldfd with
  | none => s.sysDup2 t oldfd newfd = .ok (none, s)
  | some f => ∃ s', s.sysDup2 t oldfd newfd = .ok (some newfd, s') ∧
      s'.files = (s.setFd t newfd (some f)).files ∧ s'.inode = s.inode ∧ s'.flags = s.flags ∧
      (oldfd = newfd → s' = s) ∧
      ∀ g, s'.count g + (if oldfd ≠ newfd ∧ s.files t newfd = some g then 1 else 0) =
        s.count g + if oldfd ≠ newfd ∧ g = f then 1 else 0

/-- `dup`: the lowest free descriptor, or EOF when the old one is not open or no slot is free. -/
def DupLaw (s : Files I) (t : Fin NR_TASKS) (oldfd : Fd) : Prop :=
  ∃ r s', s.sysDup t oldfd = .ok (r, s') ∧
    match s.files t oldfd, r with
    | none, r => r = none ∧ s' = s
    | some _, none => (∀ i, s.files t i ≠ none) ∧ s' = s
    | some f, some i => (s.files t i = none ∧ ∀ j < i, s.files t j ≠ none) ∧ s' = s.addFd t i f

theorem sysDup2_moves (hc : s.Counts) (ht : s.Open t) {oldfd newfd : Fd} (hold : s.files t oldfd = some f)
    (hne : oldfd ≠ newfd) : Dup2Law s t oldfd newfd := by
  simp only [Dup2Law, hold]
  cases hnew : s.files t newfd with
  | none =>
    refine ⟨s.addFd t newfd f, ?_, rfl, rfl, rfl, fun he => absurd he hne, fun g => ?_⟩
    · simp only [sysDup2, sysCloseCall_free hnew, ok_bind, dupfdCall_open hold]
      rw [freeFrom_free hnew le_rfl fun j hle hlt => absurd hle (not_le.mpr hlt), ok_bind]
    · change Function.update s.count f (s.count f + 1) g + _ = _
      rw [Function.update_apply]
      split_ifs <;> simp_all
  | some e =>
    have hfiles : ∀ i, (s.shut t newfd e).files t i = if i = newfd then none else s.files t i := fun i => by
      change (s.setFd t newfd none).files t i = _
      simp only [setFd, Function.update_self, Function.update_apply]
    have hfree : (s.shut t newfd e).files t newfd = none := (hfiles newfd).trans (if_pos rfl)
    have hold' : (s.shut t newfd e).files t oldfd = some f := (hfiles oldfd).trans ((if_neg hne).trans hold)
    refine ⟨(s.shut t newfd e).addFd t newfd f, ?_, ?_, rfl, rfl, fun he => absurd he hne, fun g => ?_⟩
    · simp only [sysDup2, sysCloseCall_open hc ht hnew, ok_bind, dupfdCall_open hold']
      rw [freeFrom_free hfree le_rfl fun j hle hlt => absurd hle (not_le.mpr hlt), ok_bind]
    · simp only [addFd, shut, setFd, Function.update_idem, Function.update_self]
    · -- the entry of `newfd` loses a reference before the one of `oldfd` gains it
      have hpos := (hc.used ht hnew).1
      change Function.update (Function.update s.count e _) f (Function.update s.count e _ f + 1) g + _ = _
      simp only [Function.update_apply]
      split_ifs <;> simp_all <;> omega

/-- `dup2` closes first: it keeps to its law where the close does no harm. The loop of `dup` reads behind the last slot
when all are taken. -/
theorem dup2_law (hc : s.Counts) (hpresent : s.present t = true) (huser : s.phase t = .user) (oldfd newfd : Fd) :
    (Dup2Law s t oldfd newfd ↔
      s.files t oldfd ≠ none ∧ oldfd ≠ newfd ∨ s.files t oldfd = none ∧ s.files t newfd = none) ∧
    (DupLaw s t oldfd ↔ s.files t oldfd = none ∨ ∃ i, s.files t i = none) := by
  have ht : s.Open t := ⟨hpresent, Or.inl huser⟩
  have hshut : ∀ e, (s.shut t newfd e).files t newfd = none := fun e => by
    change (s.setFd t newfd none).files t newfd = _
    simp only [setFd, Function.update_self]
  constructor
  · cases hold : s.files t oldfd with
    | none =>
      simp only [Dup2Law, hold]
      cases hnew : s.files t newfd with
      | none => simp [sysDup2, sysCloseCall_free hnew, dupfdCall_shut hold]
      | some e =>
        have hother : (s.shut t newfd e).files t oldfd = none := by
          change (s.setFd t newfd none).files t oldfd = _
          simp only [setFd, Function.update_self, Function.update_apply, hold, ite_self]
        refine iff_of_false (fun h => ?_) (by simp)
        simp only [sysDup2, sysCloseCall_open hc ht hnew, ok_bind, dupfdCall_shut hother] at h
        have hsame : s.shut t newfd e = s := congrArg Prod.snd (Except.ok.inj h)
        have := hshut e
        rw [hsame, hnew] at this
        cases this
    | some f =>
      by_cases hne : oldfd = newfd
      · subst hne
        refine iff_of_false (fun h => ?_) (by simp)
        simp only [Dup2Law, hold] at h
        obtain ⟨s', hs', -⟩ := h
        simp only [sysDup2, sysCloseCall_open hc ht hold, ok_bind, dupfdCall_shut (hshut f)] at hs'
        cases hs'
      · exact iff_of_true (sysDup2_moves hc ht hold hne) (by simp [hne])
  · cases hold : s.files t oldfd with
    | none =>
      refine iff_of_true ⟨none, s, dupfdCall_shut hold 0, ?_⟩ (Or.inl rfl)
      simp [hold]
    | some f =>
      have hdup : s.sysDup t oldfd = s.freeFrom t 0 >>= fun i => .ok (some i, s.addFd t i f) := dupfdCall_open hold 0
      by_cases hfull : ∃ i, s.files t i = none
      · refine iff_of_true ?_ (Or.inr hfull)
        obtain ⟨i, hi, hleast⟩ := exists_lowest hfull
        refine ⟨some i, s.addFd t i f, ?_, by simpa [hold] using ⟨hi, hleast⟩⟩
        rw [hdup, freeFrom_free hi (Nat.zero_le _) fun j _ hlt => hleast j hlt, ok_bind]
      · push Not at hfull
        refine iff_of_false ?_ (by simpa using hfull)
        rintro ⟨r, s', hs', -⟩
        rw [hdup, freeFrom_full fun i _ => hfull i, error_bind] at hs'
        cases hs'

/-- Standard input duplicated to standard output. -/
theorem dup2_law_booted : Dup2Law (booted ()) firstTask 0 1 :=
  (dup2_law (init_counts (booted_init ())) rfl rfl 0 1).1.mpr (Or.inl ⟨by decide, by decide⟩)

/-- Standard input duplicated to itself is closed, and the call returns EOF. -/
theorem dup2_closes_source : ¬ Dup2Law (booted ()) firstTask 0 0 := by
  rintro ⟨s', hs', -⟩
  have hret : ((booted ()).sysDup2 firstTask (0 : Fd).val (0 : Fd).val).toOption.map Prod.fst = some none := by decide
  rw [hs'] at hret
  cases hret

end Files
end Onix
