import Onix.Kernel.Device
import Onix.Lib.Transition

/-! The elevator hands a disk over without losing or doubling it: a request list
that is not empty has exactly one active request, and every other owner sleeps
until a finishing request picks its own. -/

set_option autoImplicit false

namespace Onix
namespace Disks

open Lib

variable {T : Type}

/-- Task `t` is inside `device_request` with request `r` of disk `d`. -/
def Holds (s : Disks T) (t : T) (d : Dev) (r : ℕ) : Prop :=
  s.phase t = .waiting d r ∨ s.phase t = .working d r

/-- `t` executes its request, or has been unblocked to execute it. -/
def Active (s : Disks T) (t : T) (d : Dev) (r : ℕ) : Prop :=
  s.phase t = .working d r ∨ s.phase t = .waiting d r ∧ s.blocked t = false

def Performable (q : Request T) : Prop := q.type = REQ_READ ∨ q.type = REQ_WRITE

structure Inv (s : Disks T) : Prop where
  nodup : ∀ d, (s.devices d).requestList.Nodup
  listed : ∀ d r, r ∈ (s.devices d).requestList ↔ ∃ t, s.Holds t d r
  owner : ∀ t u d e r, s.Holds t d r → s.Holds u e r → t = u
  live : ∀ t d r, s.Holds t d r → r < s.fresh ∧ ∃ q, s.requests r = some q ∧ Performable q
  task : ∀ t d r q, s.phase t = .waiting d r → s.requests r = some q → q.task = some t
  busy : ∀ d, (s.devices d).requestList ≠ [] → ∃ t r, s.Active t d r
  single : ∀ d t u r r', s.Active t d r → s.Active u d r' → t = u

theorem Active.holds {s : Disks T} {t : T} {d : Dev} {r : ℕ} (h : s.Active t d r) : s.Holds t d r := by
  rcases h with h | ⟨h, -⟩
  · exact Or.inr h
  · exact Or.inl h

theorem Holds.request_eq {s : Disks T} {t : T} {d e : Dev} {r r' : ℕ} (h : s.Holds t d r)
    (h' : s.Holds t e r') : d = e ∧ r = r' := by
  rcases h with h | h <;> rcases h' with h' | h' <;> rw [h] at h' <;> cases h' <;> exact ⟨rfl, rfl⟩

/-- Everyone but the active task is blocked, with its request in the list. -/
theorem Inv.others_blocked {s : Disks T} (h : Inv s) {t u : T} {d : Dev} {r r' : ℕ}
    (ha : s.Active t d r) (hu : s.Holds u d r') (hne : r' ≠ r) :
    s.phase u = .waiting d r' ∧ s.blocked u = true := by
  have hna : ¬ s.Active u d r' := by
    intro hu'
    have := h.single _ _ _ _ _ ha hu'
    subst this
    exact hne (hu.request_eq ha.holds).2
  rcases hu with hw | hw
  · refine ⟨hw, ?_⟩
    by_contra hb
    exact hna (Or.inr ⟨hw, by simpa using hb⟩)
  · exact absurd (Or.inl hw) hna

/-! ### The request that comes next -/

/-- In either direction the elevator finds a request as long as there is another one. -/
theorem requestNextreq_some {device : Device} {req : ℕ} (hmem : req ∈ device.requestList)
    (hnd : device.requestList.Nodup) :
    (∃ next, (requestNextreq device req).1 = some next ∧ next ∈ device.requestList ∧ next ≠ req) ∨
    (requestNextreq device req).1 = none ∧ device.requestList = [req] := by
  obtain ⟨l₁, l₂, hl, hnext, hprev, h1, h2⟩ := neighbours hmem hnd
  have up : ∀ x, l₂.head? = some x → x ∈ device.requestList ∧ x ≠ req := by
    intro x hx
    have hx := List.mem_of_mem_head? hx
    exact ⟨by rw [hl]; simp [hx], fun he => h2 (he ▸ hx)⟩
  have down : ∀ x, l₁.getLast? = some x → x ∈ device.requestList ∧ x ≠ req := by
    intro x hx
    have hx := List.mem_of_mem_getLast? hx
    exact ⟨by rw [hl]; simp [hx], fun he => h1 (he ▸ hx)⟩
  simp only [requestNextreq, hnext, hprev]
  cases l₂ with
  | nil =>
    cases hlast : l₁.getLast? with
    | none =>
      -- the only request of the list, whatever the direction
      rw [List.getLast?_eq_none_iff] at hlast
      right
      subst hlast
      cases hdir : device.direct <;> simp [hl]
    | some x =>
      left
      refine ⟨x, ?_, down x hlast⟩
      cases hdir : device.direct <;> simp
  | cons y ys =>
    cases hlast : l₁.getLast? with
    | none =>
      left
      refine ⟨y, ?_, up y rfl⟩
      cases hdir : device.direct <;> simp
    | some x =>
      left
      cases hdir : device.direct
      · exact ⟨y, by simp, up y rfl⟩
      · exact ⟨x, by simp, down x hlast⟩

/-! ### What the functions do -/

variable [DecidableEq T]

/-- The disk whose list a request to `dev` enters. -/
def diskOf (s : Disks T) (dev : Dev) : Dev :=
  if (s.devices dev).parent = NO_PARENT then dev else (s.devices dev).parent

/-- The request `device_request` builds, on behalf of `task`. -/
def requestFor (s : Disks T) (dev : Dev) (buf : ℕ) (count idx : UInt32) (flags : ℤ) (type : UInt32)
    (task : Option T) : Request T where
  dev := s.diskOf dev
  type := type
  idx := idx + (s.devices dev).sectorStart
  count := count
  flags := flags
  buf := buf
  task := task

theorem deviceRequest_idle {s : Disks T} {t : T} {dev : Dev} {buf : ℕ} {count idx : UInt32}
    {flags : ℤ} {type : UInt32} (hu : s.Usable dev) (ht : type = REQ_READ ∨ type = REQ_WRITE)
    (he : (s.devices (s.diskOf dev)).requestList = []) :
    s.deviceRequest t dev buf count idx flags type =
      .ok ([.submitted s.fresh, .executed s.fresh],
        (s.insertRequest (s.diskOf dev) (s.requestFor dev buf count idx flags type none)).setPhase t
          (.working (s.diskOf dev) s.fresh)) := by
  obtain ⟨hb, hp⟩ := hu
  unfold diskOf at he ⊢
  by_cases hpar : (s.devices dev).parent = NO_PARENT
  · simp [deviceRequest, deviceGet, doRequest, insertRequest, requestFor, diskOf, hb, hpar, ht] at he ⊢
    simp [he]
  · have hpt := hp.resolve_left hpar
    simp [deviceRequest, deviceGet, doRequest, insertRequest, requestFor, diskOf, hb, hpar, hpt, ht]
      at he ⊢
    simp [he]

theorem deviceRequest_busy {s : Disks T} {t : T} {dev : Dev} {buf : ℕ} {count idx : UInt32}
    {flags : ℤ} {type : UInt32} (hu : s.Usable dev) (hb : s.blocked t = false)
    (he : (s.devices (s.diskOf dev)).requestList ≠ []) :
    s.deviceRequest t dev buf count idx flags type =
      .ok ([.submitted s.fresh],
        { (s.insertRequest (s.diskOf dev) (s.requestFor dev buf count idx flags type (some t))).setPhase t
            (.waiting (s.diskOf dev) s.fresh) with
          blocked := Function.update s.blocked t true }) := by
  obtain ⟨hblk, hp⟩ := hu
  unfold diskOf at he ⊢
  by_cases hpar : (s.devices dev).parent = NO_PARENT
  · simp only [hpar, if_true] at he ⊢
    simp [deviceRequest, deviceGet, insertRequest, requestFor, diskOf, taskBlock, setPhase, setDevice,
      hblk, hpar, hb, he]
  · have hpt := hp.resolve_left hpar
    simp only [hpar, if_false] at he ⊢
    simp [deviceRequest, deviceGet, insertRequest, requestFor, diskOf, taskBlock, setPhase, setDevice,
      hblk, hpar, hpt, hb, he]

/-- `finish_request` up to the hand-over of the disk. -/
def released (s : Disks T) (t : T) (d : Dev) (r : ℕ) : Disks T where
  devices := Function.update s.devices d { (requestNextreq (s.devices d) r).2 with
    requestList := (s.devices d).requestList.erase r }
  requests := Function.update s.requests r none
  fresh := s.fresh
  phase := Function.update s.phase t .outside
  blocked := s.blocked

theorem released_list {s : Disks T} (h : Inv s) {t : T} {d : Dev} {r : ℕ}
    (hw : s.phase t = .working d r) (e : Dev) :
    ((s.released t d r).devices e).requestList = (s.devices e).requestList.erase r := by
  by_cases he : e = d
  · simp [released, he]
  · simp only [released, Function.update_of_ne he]
    refine (List.erase_of_not_mem fun hm => he ?_).symm
    obtain ⟨u, hu⟩ := (h.listed e r).mp hm
    have := h.owner _ _ _ _ _ hu (Or.inr hw)
    subst this
    exact (hu.request_eq (Or.inr hw)).1

/-- The disk is handed to the owner of the next request, if there is one. -/
theorem finishRequest_spec {s : Disks T} (h : Inv s) {t : T} {d : Dev} {r : ℕ}
    (hw : s.phase t = .working d r) :
    (s.devices d).requestList = [r] ∧ s.finishRequest t d r = .ok (s.released t d r) ∨
    ∃ u next, u ≠ t ∧ s.phase u = .waiting d next ∧ s.blocked u = true ∧
      s.finishRequest t d r =
        .ok { s.released t d r with blocked := Function.update s.blocked u false } := by
  have hmem : r ∈ (s.devices d).requestList := (h.listed d r).mpr ⟨t, Or.inr hw⟩
  rcases requestNextreq_some hmem (h.nodup d) with ⟨next, hn, hnm, hne⟩ | ⟨hn, hl⟩
  · right
    obtain ⟨u, hu⟩ := (h.listed d next).mp hnm
    obtain ⟨hwait, hblk⟩ := h.others_blocked (Or.inl hw) hu hne
    obtain ⟨-, q, hq, -⟩ := h.live u d next hu
    have htask := h.task u d next q hwait hq
    have hut : u ≠ t := by
      rintro rfl
      rw [hw] at hwait
      cases hwait
    refine ⟨u, next, hut, hwait, hblk, ?_⟩
    simp only [finishRequest, hn, setDevice, setPhase, Function.update_of_ne hne, hq, htask, taskUnblock,
      hblk, assert_true, ok_bind]
    rfl
  · left
    refine ⟨hl, ?_⟩
    simp only [finishRequest, hn, setDevice, setPhase]
    rfl

/-! ### The invariant along a step -/

/-- A task enters `device_request` with a new request. -/
theorem Inv.admit {s s' : Disks T} (h : Inv s) {t : T} {d : Dev} {q : Request T} {phase : Phase}
    (hout : s.phase t = .outside) (hphase : s'.phase = Function.update s.phase t phase)
    (hp : phase = .working d s.fresh ∧ (s.devices d).requestList = [] ∧ s'.blocked = s.blocked ∨
      phase = .waiting d s.fresh ∧ (s.devices d).requestList ≠ [] ∧
        s'.blocked = Function.update s.blocked t true ∧ q.task = some t)
    (hdev : ∀ e, (s'.devices e).requestList = if e = d then
      insertBefore (idxKey s'.requests) s.fresh (s.devices e).requestList else (s.devices e).requestList)
    (hfresh : s'.fresh = s.fresh + 1) (hq : Performable q)
    (hreq : s'.requests = Function.update s.requests s.fresh (some q)) : Inv s' := by
  have none_out : ∀ e r, ¬ s.Holds t e r := by
    rintro e r (h | h) <;> rw [hout] at h <;> cases h
  have old : ∀ r, s.fresh ≤ r → ∀ u e, ¬ s.Holds u e r :=
    fun r hr u e hu => by have := (h.live u e r hu).1; omega
  have holds : ∀ u e r, s'.Holds u e r ↔ u = t ∧ e = d ∧ r = s.fresh ∨ s.Holds u e r := by
    intro u e r
    unfold Holds
    rw [hphase]
    by_cases hu : u = t
    · subst hu
      rw [Function.update_self]
      have : (s.phase u = .waiting e r ∨ s.phase u = .working e r) ↔ False := iff_false_intro (none_out e r)
      rw [this]
      rcases hp with ⟨rfl, -⟩ | ⟨rfl, -⟩ <;> simp [eq_comm]
    · simp [hu]
  have active_old : ∀ u e r, u ≠ t → (s'.Active u e r ↔ s.Active u e r) := by
    intro u e r hu
    unfold Active
    rw [hphase, Function.update_of_ne hu]
    rcases hp with ⟨-, -, hb⟩ | ⟨-, -, hb, -⟩ <;> rw [hb]
    rw [Function.update_of_ne hu]
  have active_new : ∀ e r, s'.Active t e r ↔
      phase = .working d s.fresh ∧ e = d ∧ r = s.fresh := by
    intro e r
    unfold Active
    rw [hphase, Function.update_self]
    rcases hp with ⟨rfl, -, -⟩ | ⟨rfl, -, hb, -⟩
    · simp only [Phase.working.injEq, reduceCtorEq, false_and, or_false, true_and]
      exact ⟨fun ⟨h1, h2⟩ => ⟨h1.symm, h2.symm⟩, fun ⟨h1, h2⟩ => ⟨h1.symm, h2.symm⟩⟩
    · simp [hb]
  refine ⟨?_, ?_, ?_, ?_, ?_, ?_, ?_⟩
  · intro e
    rw [hdev]
    split_ifs with he
    · refine nodup_insertBefore (fun hm => ?_) (h.nodup e)
      obtain ⟨u, hu⟩ := (h.listed e _).mp hm
      exact old _ le_rfl u e hu
    · exact h.nodup e
  · intro e r
    simp only [hdev, holds]
    split_ifs with he
    · rw [mem_insertBefore, h.listed]
      constructor
      · rintro (hr | ⟨u, hu⟩)
        · exact ⟨t, Or.inl ⟨rfl, he, hr⟩⟩
        · exact ⟨u, Or.inr hu⟩
      · rintro ⟨u, ⟨-, -, hr⟩ | hu⟩
        · exact Or.inl hr
        · exact Or.inr ⟨u, hu⟩
    · rw [h.listed]
      simp [he]
  · intro u v e f r hu hv
    rw [holds] at hu hv
    rcases hu with ⟨rfl, -, rfl⟩ | hu
    · rcases hv with ⟨rfl, -, -⟩ | hv
      · rfl
      · exact absurd hv (old _ le_rfl _ _)
    · rcases hv with ⟨-, -, rfl⟩ | hv
      · exact absurd hu (old _ le_rfl _ _)
      · exact h.owner u v e f r hu hv
  · intro u e r hu
    rw [holds] at hu
    rw [hfresh, hreq]
    rcases hu with ⟨-, -, rfl⟩ | hu
    · exact ⟨Nat.lt_succ_self _, q, Function.update_self .., hq⟩
    · obtain ⟨hlt, q', hq', ht⟩ := h.live u e r hu
      exact ⟨by omega, q', by rw [Function.update_of_ne (by omega)]; exact hq', ht⟩
  · intro u e r q' hu hq'
    rw [hphase] at hu
    rw [hreq] at hq'
    by_cases hut : u = t
    · subst hut
      rw [Function.update_self] at hu
      rcases hp with ⟨rfl, -⟩ | ⟨rfl, -, -, hqt⟩
      · cases hu
      · cases hu
        rw [Function.update_self] at hq'
        cases hq'
        exact hqt
    · rw [Function.update_of_ne hut] at hu
      have hlt := (h.live u e r (Or.inl hu)).1
      rw [Function.update_of_ne (by omega)] at hq'
      exact h.task u e r q' hu hq'
  · intro e hne
    rcases hp with ⟨hp, he, -⟩ | ⟨-, he, -⟩
    · by_cases hed : e = d
      · exact ⟨t, s.fresh, (active_new e _).mpr ⟨hp, hed, rfl⟩⟩
      · rw [hdev, if_neg hed] at hne
        obtain ⟨u, r, ha⟩ := h.busy e hne
        have hut : u ≠ t := by rintro rfl; exact none_out _ _ ha.holds
        exact ⟨u, r, (active_old u e r hut).mpr ha⟩
    · have hne' : (s.devices e).requestList ≠ [] := by
        by_cases hed : e = d
        · rw [hed]; exact he
        · rw [hdev, if_neg hed] at hne; exact hne
      obtain ⟨u, r, ha⟩ := h.busy e hne'
      have hut : u ≠ t := by rintro rfl; exact none_out _ _ ha.holds
      exact ⟨u, r, (active_old u e r hut).mpr ha⟩
  · have only : ∀ u e r, u ≠ t → s'.Active u e r → ∀ r', ¬ s'.Active t e r' := by
      -- a task that enters active does so on an empty list
      intro u e r hu ha r' ht
      obtain ⟨hp', rfl, -⟩ := (active_new e r').mp ht
      rcases hp with ⟨-, he, -⟩ | ⟨hp, -⟩
      · have := (h.listed e r).mpr ⟨u, ((active_old u e r hu).mp ha).holds⟩
        rw [he] at this
        cases this
      · rw [hp] at hp'
        cases hp'
    intro e u v r r' hu hv
    by_cases hut : u = t
    · by_cases hvt : v = t
      · rw [hut, hvt]
      · exact absurd (hut ▸ hu) (only v e r' hvt hv r)
    · by_cases hvt : v = t
      · exact absurd (hvt ▸ hv) (only u e r hut hu r')
      · exact h.single e u v r r' ((active_old u e r hut).mp hu) ((active_old v e r' hvt).mp hv)

/-- A task leaves `device_request`; `b` is who is blocked afterwards. -/
theorem Inv.release {s : Disks T} (h : Inv s) {t : T} {d : Dev} {r : ℕ} {b : T → Bool}
    (hw : s.phase t = .working d r)
    (hb : (s.devices d).requestList = [r] ∧ b = s.blocked ∨
      ∃ u next, u ≠ t ∧ s.phase u = .waiting d next ∧ s.blocked u = true ∧
        b = Function.update s.blocked u false) :
    Inv { s.released t d r with blocked := b } := by
  set s' : Disks T := { s.released t d r with blocked := b } with hs'
  have ha : s.Active t d r := Or.inl hw
  have hlist : ∀ e, (s'.devices e).requestList = (s.devices e).requestList.erase r := released_list h hw
  have phase_ne : ∀ u, u ≠ t → s'.phase u = s.phase u := fun u hu => by
    rw [hs', released]; exact Function.update_of_ne hu _ _
  have phase_self : s'.phase t = .outside := Function.update_self ..
  have holds : ∀ u e x, s'.Holds u e x ↔ u ≠ t ∧ s.Holds u e x := by
    intro u e x
    by_cases hu : u = t
    · rw [hu]
      unfold Holds
      rw [phase_self]
      simp
    · unfold Holds
      rw [phase_ne u hu]
      simp [hu]
  have other : ∀ u e x, u ≠ t → s.Holds u e x → x ≠ r := by
    rintro u e x hu hx rfl
    exact hu (h.owner _ _ _ _ _ hx (Or.inr hw))
  refine ⟨?_, ?_, ?_, ?_, ?_, ?_, ?_⟩
  · intro e
    rw [hlist]
    exact (h.nodup e).erase r
  · intro e x
    rw [hlist, (h.nodup e).mem_erase_iff, h.listed]
    simp only [holds]
    constructor
    · rintro ⟨hx, u, hu⟩
      refine ⟨u, fun hut => hx ?_, hu⟩
      subst hut
      exact (hu.request_eq (Or.inr hw)).2
    · rintro ⟨u, hut, hu⟩
      exact ⟨other u e x hut hu, u, hu⟩
  · intro u v e f x hu hv
    exact h.owner u v e f x ((holds _ _ _).mp hu).2 ((holds _ _ _).mp hv).2
  · intro u e x hu
    obtain ⟨hut, hu⟩ := (holds _ _ _).mp hu
    obtain ⟨hlt, q, hq, hp⟩ := h.live u e x hu
    exact ⟨hlt, q, by rw [hs', released]; exact (Function.update_of_ne (other u e x hut hu) _ _).trans hq, hp⟩
  · intro u e x q hu hq
    have hut : u ≠ t := by
      rintro rfl
      rw [phase_self] at hu
      cases hu
    rw [phase_ne u hut] at hu
    have : s'.requests x = s.requests x := Function.update_of_ne (other u e x hut (Or.inl hu)) _ _
    exact h.task u e x q hu (this ▸ hq)
  · intro e hne
    by_cases hed : e = d
    · subst hed
      rcases hb with ⟨hl, -⟩ | ⟨u, next, hut, hu, -, hb⟩
      · rw [hlist, hl] at hne
        simp at hne
      · refine ⟨u, next, Or.inr ⟨by rw [phase_ne u hut]; exact hu, ?_⟩⟩
        rw [hs', hb]
        exact Function.update_self ..
    · have : (s.devices e).requestList ≠ [] := fun he => hne (by rw [hlist, he]; rfl)
      obtain ⟨u, x, hu⟩ := h.busy e this
      have hut : u ≠ t := by
        rintro rfl
        exact hed ((hu.holds.request_eq (Or.inr hw)).1)
      refine ⟨u, x, ?_⟩
      unfold Active
      rw [phase_ne u hut]
      rcases hu with hu | ⟨hu, hbu⟩
      · exact Or.inl hu
      · refine Or.inr ⟨hu, ?_⟩
        rw [hs']
        rcases hb with ⟨-, rfl⟩ | ⟨v, next, -, -, -, rfl⟩
        · exact hbu
        · exact (Function.update_apply ..).trans (by split_ifs <;> [rfl; exact hbu])
  · -- whoever is active now was so before on another disk, or is the one just woken
    have active : ∀ v e y, s'.Active v e y → s.Active v e y ∧ e ≠ d ∨
        e = d ∧ s.blocked v = true ∧ b v = false := by
      intro v e y hv
      obtain ⟨hvt, hv'⟩ := (holds _ _ _).mp hv.holds
      have old : b v = s.blocked v → s.Active v e y ∧ e ≠ d := by
        intro hbv
        have hact : s.Active v e y := by
          unfold Active at hv ⊢
          rw [phase_ne v hvt] at hv
          rw [← hbv]
          exact hv
        refine ⟨hact, ?_⟩
        rintro rfl
        exact hvt (h.single _ _ _ _ _ hact ha)
      rcases hb with ⟨-, rfl⟩ | ⟨u, next, -, hu, hblk, rfl⟩
      · exact Or.inl (old rfl)
      · by_cases hvu : v = u
        · subst hvu
          exact Or.inr ⟨(hv'.request_eq (Or.inl hu)).1, hblk, Function.update_self ..⟩
        · exact Or.inl (old (Function.update_of_ne hvu _ _))
    intro e v w y z hv hw'
    rcases active v e y hv with ⟨hv₁, hed⟩ | ⟨hed, hv₁, hbv⟩
    · rcases active w e z hw' with ⟨hw₁, -⟩ | ⟨hed', -⟩
      · exact h.single e v w y z hv₁ hw₁
      · exact absurd hed' hed
    · rcases active w e z hw' with ⟨-, hed'⟩ | ⟨-, hw₁, hbw⟩
      · exact absurd hed hed'
      · rcases hb with ⟨-, rfl⟩ | ⟨u, next, -, -, -, rfl⟩
        · rw [hv₁] at hbv
          cases hbv
        · have woken : ∀ x, s.blocked x = true → Function.update s.blocked u false x = false → x = u := by
            intro x hx hbx
            by_contra hne
            rw [Function.update_of_ne hne, hx] at hbx
            cases hbx
          rw [woken v hv₁ hbv, woken w hw₁ hbw]

/-- A task starts to execute the request it was woken for. -/
theorem Inv.start {s : Disks T} (h : Inv s) {t : T} {d : Dev} {r : ℕ} (hw : s.phase t = .waiting d r)
    (hb : s.blocked t = false) : Inv (s.setPhase t (.working d r)) := by
  set s' := s.setPhase t (.working d r) with hs'
  have phase_ne : ∀ u, u ≠ t → s'.phase u = s.phase u := fun u hu => Function.update_of_ne hu _ _
  have phase_self : s'.phase t = .working d r := Function.update_self ..
  have holds : ∀ u e x, s'.Holds u e x ↔ s.Holds u e x := by
    intro u e x
    unfold Holds
    by_cases hu : u = t
    · rw [hu, phase_self, hw]
      simp
    · rw [phase_ne u hu]
  have active : ∀ u e x, s'.Active u e x ↔ s.Active u e x := by
    intro u e x
    unfold Active
    by_cases hu : u = t
    · rw [hu, phase_self, hw]
      simp [hb]
    · rw [phase_ne u hu]
      exact Iff.rfl
  refine ⟨h.nodup, ?_, ?_, ?_, ?_, ?_, ?_⟩
  · intro e x
    simp only [holds]
    exact h.listed e x
  · intro u v e f x hu hv
    exact h.owner u v e f x ((holds _ _ _).mp hu) ((holds _ _ _).mp hv)
  · exact fun u e x hu => h.live u e x ((holds _ _ _).mp hu)
  · intro u e x q hu hq
    have hut : u ≠ t := by
      rintro rfl
      rw [phase_self] at hu
      cases hu
    exact h.task u e x q (by rw [← phase_ne u hut]; exact hu) hq
  · intro e hne
    obtain ⟨u, x, hu⟩ := h.busy e hne
    exact ⟨u, x, (active _ _ _).mpr hu⟩
  · exact fun e u v x y hu hv => h.single e u v x y ((active _ _ _).mp hu) ((active _ _ _).mp hv)

/-- Tasks that wait for something else may block and wake as they like. -/
theorem Inv.rest {s : Disks T} (h : Inv s) {t : T} (b : Bool) (hw : ∀ d r, s.phase t ≠ .waiting d r) :
    Inv { s with blocked := Function.update s.blocked t b } := by
  have active : ∀ u e x, Active { s with blocked := Function.update s.blocked t b } u e x ↔
      s.Active u e x := by
    intro u e x
    unfold Active
    by_cases hu : u = t
    · subst hu
      simp [hw]
    · simp only [Function.update_of_ne hu]
  refine ⟨h.nodup, h.listed, h.owner, h.live, h.task, ?_, ?_⟩
  · intro e hne
    obtain ⟨u, x, hu⟩ := h.busy e hne
    exact ⟨u, x, (active _ _ _).mpr hu⟩
  · exact fun e u v x y hu hv => h.single e u v x y ((active _ _ _).mp hu) ((active _ _ _).mp hv)

/-! ### The life of a request -/

def history (ls : List (Event T × List DiskObs)) : List DiskObs := ls.flatMap Prod.snd

/-- What `log` tells about request `r`. -/
def life (log : List DiskObs) (r : ℕ) : List DiskObs := log.filter fun o => o.about = r

def wholeLife (r : ℕ) : List DiskObs := [.submitted r, .executed r, .returned r]

@[simp] theorem life_append (log log' : List DiskObs) (r : ℕ) :
    life (log ++ log') r = life log r ++ life log' r := List.filter_append ..

theorem life_of_others {os : List DiskObs} {r x : ℕ} (h : ∀ o ∈ os, o.about = r) (hx : x ≠ r) :
    life os x = [] := by
  refine List.filter_eq_nil_iff.mpr fun o ho => ?_
  rw [h o ho]
  simpa using hx.symm

/-- The log tells of every request how far it has come. -/
structure Told (s : Disks T) (log : List DiskObs) : Prop where
  fresh : ∀ r, s.fresh ≤ r → life log r = []
  waiting : ∀ t d r, s.phase t = .waiting d r → life log r = [.submitted r]
  working : ∀ t d r, s.phase t = .working d r → life log r = [.submitted r, .executed r]
  gone : ∀ r, r < s.fresh → (∀ t d, ¬ s.Holds t d r) → life log r = wholeLife r

theorem Told.admit {s s' : Disks T} {log os : List DiskObs} (h : Inv s) (w : Told s log) {t : T}
    {d : Dev} {phase : Phase} (hout : s.phase t = .outside)
    (hphase : s'.phase = Function.update s.phase t phase)
    (hp : phase = .waiting d s.fresh ∧ os = [.submitted s.fresh] ∨
      phase = .working d s.fresh ∧ os = [.submitted s.fresh, .executed s.fresh])
    (hfresh : s'.fresh = s.fresh + 1) : Told s' (log ++ os) := by
  have habout : ∀ o ∈ os, o.about = s.fresh := by
    rcases hp with ⟨-, rfl⟩ | ⟨-, rfl⟩ <;> simp [DiskObs.about]
  have old : ∀ r, r ≠ s.fresh → life (log ++ os) r = life log r := fun r hr => by
    rw [life_append, life_of_others habout hr, List.append_nil]
  have new : life (log ++ os) s.fresh = os := by
    rw [life_append, w.fresh _ le_rfl, List.nil_append]
    exact List.filter_eq_self.mpr fun o ho => by simpa using habout o ho
  have phase_ne : ∀ u, u ≠ t → s'.phase u = s.phase u := fun u hu => by
    rw [hphase, Function.update_of_ne hu]
  have phase_self : s'.phase t = phase := by rw [hphase, Function.update_self]
  refine ⟨?_, ?_, ?_, ?_⟩
  · intro r hr
    rw [old r (by omega)]
    exact w.fresh r (by omega)
  · intro u e r hu
    by_cases hut : u = t
    · rw [hut, phase_self] at hu
      rcases hp with ⟨rfl, rfl⟩ | ⟨rfl, -⟩ <;> cases hu
      exact new
    · rw [phase_ne u hut] at hu
      rw [old r (by have := (h.live u e r (Or.inl hu)).1; omega)]
      exact w.waiting u e r hu
  · intro u e r hu
    by_cases hut : u = t
    · rw [hut, phase_self] at hu
      rcases hp with ⟨rfl, -⟩ | ⟨rfl, rfl⟩ <;> cases hu
      exact new
    · rw [phase_ne u hut] at hu
      rw [old r (by have := (h.live u e r (Or.inr hu)).1; omega)]
      exact w.working u e r hu
  · intro r hr hno
    have hne : r ≠ s.fresh := by
      rintro rfl
      apply hno t d
      unfold Holds
      rw [phase_self]
      rcases hp with ⟨rfl, -⟩ | ⟨rfl, -⟩ <;> simp
    rw [old r hne]
    refine w.gone r (by omega) fun u e hu => ?_
    have hut : u ≠ t := by
      rintro rfl
      rcases hu with hu | hu <;> rw [hout] at hu <;> cases hu
    apply hno u e
    unfold Holds at hu ⊢
    rw [phase_ne u hut]
    exact hu

/-- The holder of `r` takes the next step of its request, and the log tells it. -/
theorem Told.advance {s s' : Disks T} {log : List DiskObs} (h : Inv s) (w : Told s log) {t : T} {d : Dev}
    {r : ℕ} {o : DiskObs} {phase : Phase} (hw : s.Holds t d r) (ho : o.about = r)
    (hphase : s'.phase = Function.update s.phase t phase) (hfresh : s'.fresh = s.fresh)
    (hlife : phase = .working d r ∧ life log r ++ [o] = [.submitted r, .executed r] ∨
      phase = .outside ∧ life log r ++ [o] = wholeLife r) : Told s' (log ++ [o]) := by
  have habout : ∀ o' ∈ [o], o'.about = r := fun o' hm => by rw [List.mem_singleton.mp hm, ho]
  have old : ∀ x, x ≠ r → life (log ++ [o]) x = life log x := fun x hx => by
    rw [life_append, life_of_others habout hx,
      List.append_nil]
  have new : life (log ++ [o]) r = life log r ++ [o] := by
    rw [life_append]
    simp [life, ho]
  have phase_ne : ∀ u, u ≠ t → s'.phase u = s.phase u := fun u hu => by
    rw [hphase, Function.update_of_ne hu]
  have phase_self : s'.phase t = phase := by rw [hphase, Function.update_self]
  have other : ∀ u e x, u ≠ t → s.Holds u e x → x ≠ r := by
    rintro u e x hu hx rfl
    exact hu (h.owner _ _ _ _ _ hx hw)
  refine ⟨?_, ?_, ?_, ?_⟩
  · intro x hx
    have hlt := (h.live t d r hw).1
    rw [hfresh] at hx
    rw [old x (by omega)]
    exact w.fresh x hx
  · intro u e x hu
    have hut : u ≠ t := by
      rintro rfl
      rw [phase_self] at hu
      rcases hlife with ⟨rfl, -⟩ | ⟨rfl, -⟩ <;> cases hu
    rw [phase_ne u hut] at hu
    rw [old x (other u e x hut (Or.inl hu))]
    exact w.waiting u e x hu
  · intro u e x hu
    by_cases hut : u = t
    · rw [hut, phase_self] at hu
      rcases hlife with ⟨rfl, hl⟩ | ⟨rfl, -⟩ <;> cases hu
      exact new.trans hl
    · rw [phase_ne u hut] at hu
      rw [old x (other u e x hut (Or.inr hu))]
      exact w.working u e x hu
  · intro x hx hno
    rw [hfresh] at hx
    by_cases hne : x = r
    · subst hne
      rcases hlife with ⟨rfl, -⟩ | ⟨-, hl⟩
      · exact absurd (Or.inr phase_self) (hno t d)
      · exact new.trans hl
    · rw [old x hne]
      refine w.gone x hx fun u e hu => hno u e ?_
      have hut : u ≠ t := by
        rintro rfl
        exact hne (hu.request_eq hw).2
      unfold Holds at hu ⊢
      rw [phase_ne u hut]
      exact hu

omit [DecidableEq T] in
theorem Told.life_prefix {s : Disks T} {log : List DiskObs} (w : Told s log) (r : ℕ) :
    life log r <+: wholeLife r := by
  by_cases hr : s.fresh ≤ r
  · rw [w.fresh r hr]
    exact List.nil_prefix
  · by_cases hno : ∀ t d, ¬ s.Holds t d r
    · rw [w.gone r (by omega) hno]
    · push Not at hno
      obtain ⟨t, d, hw | hw⟩ := hno
      · rw [w.waiting t d r hw]
        exact ⟨[.executed r, .returned r], rfl⟩
      · rw [w.working t d r hw]
        exact ⟨[.returned r], rfl⟩

/-! ### Runs -/

instance (s : Disks T) (dev : Dev) : Decidable (s.Usable dev) :=
  inferInstanceAs (Decidable (_ ∧ (_ ∨ _)))

instance (p : Phase) : Decidable (∃ d r, p = .waiting d r) :=
  match p with
  | .waiting d r => isTrue ⟨d, r, rfl⟩
  | .outside | .working _ _ => isFalse nofun

instance (p : Phase) : Decidable (∃ d r, p = .working d r) :=
  match p with
  | .working d r => isTrue ⟨d, r, rfl⟩
  | .outside | .waiting _ _ => isFalse nofun

instance (p : Phase) : Decidable (∀ d r, p ≠ .waiting d r) :=
  decidable_of_iff (¬ ∃ d r, p = .waiting d r) (by push Not; exact Iff.rfl)

instance (s : Disks T) (e : Event T) : Decidable (s.Enabled e) :=
  match e with
  | .request _ _ _ _ _ _ _ => inferInstanceAs (Decidable (_ ∧ _ ∧ _ ∧ (_ ∨ _)))
  | .perform _ | .finish _ | .suspend _ | .resume _ => inferInstanceAs (Decidable (_ ∧ _))

/-- Performs `e` if it is enabled and does not halt. -/
def attempt (s : Disks T) (e : Event T) : Option ((Event T × List DiskObs) × Disks T) :=
  if s.Enabled e then
    match s.exec e with
    | .ok (os, s') => some ((e, os), s')
    | .error _ => none
  else none

theorem attempt_step {s s' : Disks T} {e : Event T} {l : Event T × List DiskObs}
    (h : s.attempt e = some (l, s')) : Step s l s' := by
  unfold attempt at h
  split_ifs at h with he
  split at h
  · rename_i os s₁ hx
    cases h
    exact ⟨he, hx⟩
  · cases h

/-- An enabled event does not halt, and keeps the invariant and the log true. -/
theorem exec_spec {s : Disks T} (h : Inv s) {log : List DiskObs} (w : Told s log) {e : Event T}
    (he : s.Enabled e) :
    ∃ os s', s.exec e = .ok (os, s') ∧ Inv s' ∧ Told s' (log ++ os) := by
  cases e with
  | request t dev buf count idx flags type =>
    obtain ⟨hout, hb, hu, ht⟩ := he
    by_cases hl : (s.devices (s.diskOf dev)).requestList = []
    · refine ⟨_, _, deviceRequest_idle hu ht hl, ?_, ?_⟩
      · refine h.admit (q := s.requestFor dev buf count idx flags type none) (d := s.diskOf dev) hout rfl
          (Or.inl ⟨rfl, hl, rfl⟩) (fun e => ?_) rfl ht rfl
        simp only [insertRequest, setPhase, setDevice, Function.update_apply]
        split_ifs with hed <;> simp [hed]
      · exact w.admit h hout rfl (Or.inr ⟨rfl, rfl⟩) rfl
    · refine ⟨_, _, deviceRequest_busy hu hb hl, ?_, ?_⟩
      · refine h.admit (q := s.requestFor dev buf count idx flags type (some t)) (d := s.diskOf dev) hout rfl
          (Or.inr ⟨rfl, hl, rfl, rfl⟩) (fun e => ?_) rfl ht rfl
        simp only [insertRequest, setPhase, setDevice, Function.update_apply]
        split_ifs with hed <;> simp [hed]
      · exact w.admit h hout rfl (Or.inl ⟨rfl, rfl⟩) rfl
  | perform t =>
    obtain ⟨⟨d, r, hw⟩, hb⟩ := he
    obtain ⟨-, q, hq, hp⟩ := h.live t d r (Or.inl hw)
    have hdo : s.doRequest t d r = .ok (s.setPhase t (.working d r)) := by
      unfold Performable at hp
      simp [doRequest, hq, hp]
    refine ⟨[.executed r], _, by simp only [exec, hw, hdo, ok_bind], h.start hw hb, ?_⟩
    refine w.advance h (Or.inl hw) rfl rfl rfl (Or.inl ⟨rfl, ?_⟩)
    rw [w.waiting t d r hw]
    rfl
  | finish t =>
    obtain ⟨⟨d, r, hw⟩, hb⟩ := he
    have hlife : life log r ++ [.returned r] = wholeLife r := by
      rw [w.working t d r hw]
      rfl
    rcases finishRequest_spec h hw with ⟨hl, hf⟩ | ⟨u, next, hut, hu, hblk, hf⟩
    · exact ⟨[.returned r], s.released t d r, by simp only [exec, hw, hf, ok_bind],
        h.release hw (Or.inl ⟨hl, rfl⟩),
        w.advance h (Or.inr hw) rfl rfl rfl (Or.inr ⟨rfl, hlife⟩)⟩
    · exact ⟨[.returned r], _, by simp only [exec, hw, hf, ok_bind], h.release hw (Or.inr ⟨u, next, hut, hu, hblk, rfl⟩),
        w.advance h (Or.inr hw) rfl rfl rfl (Or.inr ⟨rfl, hlife⟩)⟩
  | suspend t =>
    obtain ⟨hw, hb⟩ := he
    refine ⟨[], _, by simp only [exec, taskBlock, hb, Bool.not_false, assert_true, ok_bind], h.rest true hw, ?_⟩
    rw [List.append_nil]
    exact ⟨w.fresh, w.waiting, w.working, w.gone⟩
  | resume t =>
    obtain ⟨hw, hb⟩ := he
    refine ⟨[], _, by simp only [exec, taskUnblock, hb, assert_true, ok_bind], h.rest false hw, ?_⟩
    rw [List.append_nil]
    exact ⟨w.fresh, w.waiting, w.working, w.gone⟩

omit [DecidableEq T] in
theorem init_inv {s : Disks T} (h : Init s) : Inv s ∧ Told s [] := by
  obtain ⟨hl, hp, hf⟩ := h
  have holds : ∀ t d r, ¬ s.Holds t d r := by
    rintro t d r (h | h) <;> rw [hp] at h <;> cases h
  refine ⟨⟨?_, ?_, ?_, ?_, ?_, ?_, ?_⟩, ?_, ?_, ?_, ?_⟩
  · intro d
    rw [hl]
    exact List.nodup_nil
  · intro d r
    rw [hl]
    exact iff_of_false (by simp) (fun ⟨t, ht⟩ => holds t d r ht)
  · exact fun t u d e r ht => absurd ht (holds t d r)
  · exact fun t d r ht => absurd ht (holds t d r)
  · exact fun t d r q ht => absurd (Or.inl ht) (holds t d r)
  · exact fun d hne => absurd (hl d) hne
  · exact fun d t u r r' ht => absurd ht.holds (holds t d r)
  · exact fun r _ => rfl
  · exact fun t d r ht => absurd (Or.inl ht) (holds t d r)
  · exact fun t d r ht => absurd (Or.inr ht) (holds t d r)
  · intro r hr
    rw [hf] at hr
    omega

theorem run_kept {ls : List (Event T × List DiskObs)} {s : Disks T} (h : Run Init Step ls s) :
    Inv s ∧ Told s (history ls) := by
  refine Run.traceInvariant (I := fun ls s => Inv s ∧ Told s (history ls)) (fun s hs => init_inv hs)
    (fun ls s l s' _ ⟨hi, w⟩ ⟨he, hx⟩ => ?_) ls s h
  obtain ⟨os, s₁, hx₁, hi₁, w₁⟩ := exec_spec hi w he
  rw [hx] at hx₁
  cases hx₁
  exact ⟨hi₁, by simpa [history] using w₁⟩

def Event.submits : Event T → Bool
  | .request .. => true
  | _ => false

/-- The requests that are still in some list. -/
def pending (s : Disks T) : ℕ := ∑ d, (s.devices d).requestList.length

theorem finish_step {s : Disks T} (h : Inv s) {t : T} {d : Dev} {r : ℕ} (hw : s.phase t = .working d r)
    (hb : s.blocked t = false) : ∃ os s', Step s (.finish t, os) s' ∧ s'.pending < s.pending := by
  have hlt : ∀ b, pending { s.released t d r with blocked := b } < s.pending := by
    intro b
    have hm : r ∈ (s.devices d).requestList := (h.listed d r).mpr ⟨t, Or.inr hw⟩
    refine Finset.sum_lt_sum (fun e _ => ?_) ⟨d, Finset.mem_univ d, ?_⟩
    · change ((s.released t d r).devices e).requestList.length ≤ _
      rw [released_list h hw]
      exact List.length_erase_le
    · change ((s.released t d r).devices d).requestList.length < _
      rw [released_list h hw, List.length_erase_of_mem hm]
      exact Nat.sub_lt (List.length_pos_of_mem hm) Nat.one_pos
  have hen : s.Enabled (.finish t) := ⟨⟨d, r, hw⟩, hb⟩
  rcases finishRequest_spec h hw with ⟨-, hf⟩ | ⟨u, next, -, -, -, hf⟩
  · exact ⟨[.returned r], s.released t d r, ⟨hen, by simp only [exec, hw, hf, ok_bind]⟩, hlt s.blocked⟩
  · exact ⟨[.returned r], { s.released t d r with blocked := Function.update s.blocked u false },
      ⟨hen, by simp only [exec, hw, hf, ok_bind]⟩, hlt _⟩

/-- As long as a request is pending its active owner can bring it to its end. -/
theorem progress {s : Disks T} (h : Inv s) {d : Dev} (hne : (s.devices d).requestList ≠ [])
    {ls : List (Event T × List DiskObs)} (hr : Run Init Step ls s) :
    ∃ ls' s', Run Init Step (ls ++ ls') s' ∧ (∀ l ∈ ls', l.1.submits = false) ∧ s'.pending < s.pending := by
  obtain ⟨t, r, ha | ⟨hw, hb⟩⟩ := h.busy d hne
  · cases hb : s.blocked t with
    | false =>
      obtain ⟨os, s', hs, hlt⟩ := finish_step h ha hb
      exact ⟨[(.finish t, os)], s', hr.snoc hs, by simp [Event.submits], hlt⟩
    | true =>
      -- the driver lets its task go on
      have hnw : ∀ e x, s.phase t ≠ .waiting e x := fun e x he => by rw [ha] at he; cases he
      have hs₁ : Step s (.resume t, []) { s with blocked := Function.update s.blocked t false } :=
        ⟨⟨hnw, hb⟩, by simp only [exec, taskUnblock, hb, assert_true, ok_bind]⟩
      obtain ⟨os, s', hs, hlt⟩ := finish_step (h.rest false hnw) (t := t) ha (Function.update_self ..)
      refine ⟨[(.resume t, []), (.finish t, os)], s', ?_, by simp [Event.submits], hlt⟩
      simpa using (hr.snoc hs₁).snoc hs
  · have hs₁ : Step s (.perform t, [.executed r]) (s.setPhase t (.working d r)) := by
      obtain ⟨-, q, hq, hp⟩ := h.live t d r (Or.inl hw)
      refine ⟨⟨⟨d, r, hw⟩, hb⟩, ?_⟩
      have hdo : s.doRequest t d r = .ok (s.setPhase t (.working d r)) := by
        unfold Performable at hp
        simp [doRequest, hq, hp]
      simp only [exec, hw, hdo, ok_bind]
    obtain ⟨os, s', hs, hlt⟩ := finish_step (h.start hw hb) (t := t) (Function.update_self ..) hb
    refine ⟨[(.perform t, [.executed r]), (.finish t, os)], s', ?_, by simp [Event.submits], hlt⟩
    simpa using (hr.snoc hs₁).snoc hs

/-- From any state of a run all lists can be worked off. -/
theorem drain {ls : List (Event T × List DiskObs)} {s : Disks T} (h : Run Init Step ls s) :
    ∃ ls' s', Run Init Step (ls ++ ls') s' ∧ (∀ l ∈ ls', l.1.submits = false) ∧
      ∀ d, (s'.devices d).requestList = [] := by
  induction hn : s.pending using Nat.strong_induction_on generalizing ls s with
  | _ n ih =>
    by_cases hall : ∀ d, (s.devices d).requestList = []
    · exact ⟨[], s, by simpa using h, by simp, hall⟩
    · push Not at hall
      obtain ⟨d, hd⟩ := hall
      obtain ⟨ls₁, s₁, hr₁, hq₁, hlt⟩ := progress (run_kept h).1 hd h
      obtain ⟨ls₂, s₂, hr₂, hq₂, hend⟩ := ih _ (hn ▸ hlt) hr₁ rfl
      refine ⟨ls₁ ++ ls₂, s₂, by simpa using hr₂, ?_, hend⟩
      intro l hl
      rcases List.mem_append.mp hl with hl | hl
      · exact hq₁ l hl
      · exact hq₂ l hl

/-- One request of the list is executed or about to be, the owners of all others are blocked. -/
def HandedOver (s : Disks T) (d : Dev) : Prop :=
  ∃ t r, r ∈ (s.devices d).requestList ∧ s.Active t d r ∧
    (∀ u x, s.Active u d x → u = t ∧ x = r) ∧
    ∀ x ∈ (s.devices d).requestList, x ≠ r → ∃ u q, s.phase u = .waiting d x ∧ s.blocked u = true ∧
      s.requests x = some q ∧ q.task = some u

omit [DecidableEq T] in
theorem Inv.handedOver {s : Disks T} (h : Inv s) {d : Dev} (hne : (s.devices d).requestList ≠ []) :
    s.HandedOver d := by
  obtain ⟨t, r, ha⟩ := h.busy d hne
  refine ⟨t, r, (h.listed d r).mpr ⟨t, ha.holds⟩, ha, fun u x hu => ?_, fun x hx hxr => ?_⟩
  · have := h.single _ _ _ _ _ hu ha
    subst this
    exact ⟨rfl, (hu.holds.request_eq ha.holds).2⟩
  · obtain ⟨u, hu⟩ := (h.listed d x).mp hx
    obtain ⟨hw, hb⟩ := h.others_blocked ha hu hxr
    obtain ⟨-, q, hq, -⟩ := h.live u d x hu
    exact ⟨u, q, hw, hb, hq, h.task u d x q hw hq⟩

/-- The elevator queue is safe, in every run: one active request a disk, every request is executed
once and before it returns, and a pending request is found in either direction. -/
theorem elevator_safety {ls : List (Event T × List DiskObs)} {s : Disks T} (h : Run Init Step ls s) :
    (∀ d, (s.devices d).requestList = [] ∨ s.HandedOver d) ∧
    (∀ r, life (history ls) r <+: wholeLife r) ∧
    (∃ ls' s', Run Init Step (ls ++ ls') s' ∧ (∀ l ∈ ls', l.1.submits = false) ∧
      ∀ r, .submitted r ∈ history ls → life (history (ls ++ ls')) r = wholeLife r) ∧
    (∀ d t r direct, s.Active t d r → (s.devices d).requestList ≠ [r] → ∃ next q u,
      (requestNextreq { s.devices d with direct := direct } r).1 = some next ∧ next ≠ r ∧
      next ∈ (s.devices d).requestList ∧ s.requests next = some q ∧ q.task = some u ∧
      s.blocked u = true) ∧
    ∀ e, s.Enabled e → ∃ os s', s.exec e = .ok (os, s') := by
  obtain ⟨hi, w⟩ := run_kept h
  refine ⟨fun d => ?_, w.life_prefix, ?_, ?_, fun e he => ?_⟩
  · by_cases hd : (s.devices d).requestList = []
    · exact Or.inl hd
    · exact Or.inr (hi.handedOver hd)
  · obtain ⟨ls', s', hr, hq, hend⟩ := drain h
    refine ⟨ls', s', hr, hq, fun r hs => ?_⟩
    obtain ⟨hi', w'⟩ := run_kept hr
    have hmem : DiskObs.submitted r ∈ life (history (ls ++ ls')) r := by
      refine List.mem_filter.mpr ⟨?_, by simp [DiskObs.about]⟩
      rw [history, List.flatMap_append]
      exact List.mem_append_left _ hs
    refine w'.gone r (not_le.mp fun hle => ?_) fun t d ht => ?_
    · rw [w'.fresh r hle] at hmem
      cases hmem
    · have := (hi'.listed d r).mpr ⟨t, ht⟩
      rw [hend] at this
      cases this
  · intro d t r direct ha hne
    have hmem := (hi.listed d r).mpr ⟨t, ha.holds⟩
    let device : Device := { s.devices d with direct := direct }
    rcases requestNextreq_some (show r ∈ device.requestList from hmem) (hi.nodup d) with
      ⟨next, hn, hnm, hnr⟩ | ⟨-, hl⟩
    · obtain ⟨u, hu⟩ := (hi.listed d next).mp hnm
      obtain ⟨hw, hb⟩ := hi.others_blocked ha hu hnr
      obtain ⟨-, q, hq, -⟩ := hi.live u d next hu
      exact ⟨next, q, u, hn, hnr, hnm, hq, hi.task u d next q hw hq, hb⟩
    · exact absurd hl hne
  · obtain ⟨os, s', hx, -, -⟩ := exec_spec hi w he
    exact ⟨os, s', hx⟩

theorem disk_lt : 1 < DEVICE_NR := by
  decide

theorem partition_lt : 2 < DEVICE_NR := by
  decide

/-- One disk, and a partition of it that starts at sector 63. -/
def oneDisk : Disks (Fin 3) where
  devices := fun d =>
    if d = ⟨1, disk_lt⟩ then ⟨.block, NO_PARENT, 0, [], .up⟩
    else if d = ⟨2, partition_lt⟩ then ⟨.block, ⟨1, disk_lt⟩, 63, [], .up⟩
    else ⟨.null, NO_PARENT, 0, [], .up⟩
  requests := fun _ => none
  fresh := 0
  phase := fun _ => .outside
  blocked := fun _ => false

/-- Three tasks use the disk at once; the second and the third wait. -/
theorem elevator_safety_three : ∃ ls, ∃ s : Disks (Fin 3), Run Init Step ls s ∧
    (s.devices 1).requestList = [2, 0, 1] ∧
    history ls = [.submitted 0, .executed 0, .submitted 1, .submitted 2] ∧
    ∀ d, (s.devices d).requestList = [] ∨ s.HandedOver d := by
  have hsome : ((replay attempt oneDisk [.request 0 1 0 2 40 0 REQ_READ, .request 1 2 0 2 8 0 REQ_WRITE,
      .request 2 1 0 2 8 0 REQ_READ]).map fun r => ((r.2.devices 1).requestList, history r.1)) =
      some ([2, 0, 1], [.submitted 0, .executed 0, .submitted 1, .submitted 2]) := by
    decide +kernel
  obtain ⟨⟨ls, s⟩, hls, hh⟩ := Option.map_eq_some_iff.mp hsome
  obtain ⟨hl, hh⟩ := Prod.mk.inj hh
  have hinit : Init oneDisk := by
    refine ⟨fun d => ?_, fun _ => rfl, rfl⟩
    simp only [oneDisk]
    split_ifs <;> rfl
  have hr : Run Init Step ls s := by
    have hstep : ∀ (s : Disks (Fin 3)) e l s', s.attempt e = some (l, s') → Step s l s' :=
      fun _ _ _ _ h => attempt_step h
    simpa using Run.replay hstep _ oneDisk [] ls s (.nil hinit) hls
  exact ⟨ls, s, hr, hl, hh, (elevator_safety hr).1⟩

end Disks
end Onix
