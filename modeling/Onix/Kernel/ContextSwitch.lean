import Onix.Kernel.Task
import Onix.Lib.Transition

/-! `task_switch` of schedule.asm on the stacks of the tasks. Each task has one page, with
the descriptor at its start and the stack growing down from its end, and the first word
of the descriptor keeps `esp` while the task is not running. For the code that calls it,
`task_switch` is a function that returns later. -/

set_option autoImplicit false

namespace Onix

open Lib

/-- The registers that `task_switch` uses and the words of memory, by addresses that are multiples of four. -/
@[ext] structure TaskCpu where
  eax : UInt32
  ebx : UInt32
  esi : UInt32
  edi : UInt32
  ebp : UInt32
  esp : UInt32
  eip : UInt32
  mem : UInt32 → UInt32

namespace TaskCpu

def store (m : TaskCpu) (a w : UInt32) : TaskCpu := { m with mem := Function.update m.mem a w }

theorem store_mem (m : TaskCpu) (a w : UInt32) : (m.store a w).mem = Function.update m.mem a w := rfl

theorem store_esp (m : TaskCpu) (a w : UInt32) : (m.store a w).esp = m.esp := rfl

def push (m : TaskCpu) (w : UInt32) : TaskCpu := { m.store (m.esp - 4) w with esp := m.esp - 4 }

def popEdi (m : TaskCpu) : TaskCpu := { m with edi := m.mem m.esp, esp := m.esp + 4 }
def popEsi (m : TaskCpu) : TaskCpu := { m with esi := m.mem m.esp, esp := m.esp + 4 }
def popEbx (m : TaskCpu) : TaskCpu := { m with ebx := m.mem m.esp, esp := m.esp + 4 }
def popEbp (m : TaskCpu) : TaskCpu := { m with ebp := m.mem m.esp, esp := m.esp + 4 }
def ret (m : TaskCpu) : TaskCpu := { m with eip := m.mem m.esp, esp := m.esp + 4 }

/-- `running_task` -/
def taskOf (a : UInt32) : UInt32 := a &&& 0xfffff000

/-- The first half, up to `;end`: the context is pushed, and `esp` stored in the descriptor. -/
def saveContext (m : TaskCpu) : TaskCpu :=
  let m := m.push m.ebp
  let m := { m with ebp := m.esp }
  let m := ((m.push m.ebx).push m.esi).push m.edi
  let m := { m with eax := m.esp }
  let m := { m with eax := taskOf m.eax }
  m.store m.eax m.esp

/-- The second half, on the stack of the next task. -/
def loadContext (m : TaskCpu) : TaskCpu :=
  let m := { m with eax := m.mem (m.ebp + 8) }
  let m := { m with esp := m.mem m.eax }
  m.popEdi.popEsi.popEbx.popEbp.ret

def taskSwitch (m : TaskCpu) : TaskCpu := m.saveContext.loadContext

/-- `task_switch(next)` in C: the argument and the return address are pushed. -/
def callTaskSwitch (m : TaskCpu) (next back : UInt32) : TaskCpu := ((m.push next).push back).taskSwitch

/-- `task_frame_t` at an address. -/
def putFrame (m : TaskCpu) (a edi esi ebx ebp eip : UInt32) : TaskCpu :=
  ((((m.store a edi).store (a + 4) esi).store (a + 8) ebx).store (a + 12) ebp).store (a + 16) eip

/-- What `task_create` does to the stack of a new task. -/
def taskCreate (m : TaskCpu) (task target : UInt32) : TaskCpu :=
  let stack := task + 4096 - 20
  (m.store task stack).putFrame stack 0x33333333 0x22222222 0x11111111 0x44444444 target

/-- `memcpy(child, task, PAGE_SIZE)` -/
def copyPage (m : TaskCpu) (child task : UInt32) : TaskCpu :=
  { m with mem := fun a => if taskOf a = child then m.mem (a - child + task) else m.mem a }

/-- `task_build_stack`; `interruptExit` is the address of that label. -/
def taskBuildStack (m : TaskCpu) (task interruptExit : UInt32) : TaskCpu :=
  let addr := task + 4096 - 80
  let m := m.store (addr + 32) 0
  let addr := addr - 20
  (m.putFrame addr 0xaa55aa55 0xaa55aa55 0xaa55aa55 0xaa55aa55 interruptExit).store task addr

/-- What `task_fork` does to the page of the child. -/
def taskFork (m : TaskCpu) (child task interruptExit : UInt32) : TaskCpu :=
  (m.copyPage child task).taskBuildStack child interruptExit

/-! ### Pages -/

theorem taskOf_toNat (a : UInt32) : (taskOf a).toNat = a.toNat / 4096 * 4096 := by
  unfold taskOf
  rw [UInt32.toNat_and]
  change a.toNat &&& (2 ^ 20 - 1) * 2 ^ 12 = a.toNat / 2 ^ 12 * 2 ^ 12
  have hlt := a.toNat_lt
  refine Nat.eq_of_testBit_eq fun i => ?_
  rw [Nat.testBit_and, Nat.testBit_mul_two_pow, Nat.testBit_mul_two_pow, Nat.testBit_two_pow_sub_one, Nat.testBit_div_two_pow]
  by_cases h : 12 ≤ i
  · by_cases h32 : i < 32
    · simp [h, show i - 12 < 20 by omega, show i - 12 + 12 = i by omega]
    · have hpow : 2 ^ 32 ≤ 2 ^ i := Nat.pow_le_pow_right (by norm_num) (by omega)
      have hfalse : a.toNat.testBit i = false := Nat.testBit_lt_two_pow (lt_of_lt_of_le hlt hpow)
      simp [hfalse, show i - 12 + 12 = i by omega]
  · simp [h]

/-- A page of a task: it is not the last one. -/
structure IsPage (t : UInt32) : Prop where
  start : t.toNat % 4096 = 0
  room : t.toNat + 4096 < 2 ^ 32

theorem IsPage.mem_iff {t : UInt32} (h : IsPage t) (a : UInt32) :
    taskOf a = t ↔ t.toNat ≤ a.toNat ∧ a.toNat < t.toNat + 4096 := by
  have := h.start
  rw [← UInt32.toNat_inj, taskOf_toNat]
  omega

/-- Where `esp` of a task may be: in its page, or just above it when nothing is pushed. -/
structure Within (t esp : UInt32) : Prop where
  low : t.toNat ≤ esp.toNat
  high : esp.toNat ≤ t.toNat + 4096
  word : esp.toNat % 4 = 0

theorem sub_toNat {a n : UInt32} (h : n.toNat ≤ a.toNat) : (a - n).toNat = a.toNat - n.toNat :=
  UInt32.toNat_sub_of_le _ _ (UInt32.le_iff_toNat_le.mpr h)

/-- Words below a stack pointer, by their distances from it. -/
theorem below_ne {a n k : UInt32} (hn : n.toNat ≤ a.toNat) (hk : k.toNat ≤ a.toNat) (hne : n.toNat ≠ k.toNat) : a - n ≠ a - k := by
  intro he
  have := congrArg UInt32.toNat he
  rw [sub_toNat hn, sub_toNat hk] at this
  omega

/-! ### One switch -/

/-- What a task that waits in `task_switch` goes on with. -/
structure Waiting where
  ebx : UInt32
  esi : UInt32
  edi : UInt32
  ebp : UInt32
  esp : UInt32
  eip : UInt32

/-- The page of `t` holds what `t` goes on with. -/
structure Saved (mem : UInt32 → UInt32) (t : UInt32) (k : Waiting) : Prop where
  stack : mem t = k.esp - 20
  edi : mem (k.esp - 20) = k.edi
  esi : mem (k.esp - 16) = k.esi
  ebx : mem (k.esp - 12) = k.ebx
  ebp : mem (k.esp - 8) = k.ebp
  eip : mem (k.esp - 4) = k.eip

theorem loadContext_saved {m : TaskCpu} {t : UInt32} {k : Waiting} (harg : m.mem (m.ebp + 8) = t) (h : Saved m.mem t k) :
    m.loadContext = ⟨t, k.ebx, k.esi, k.edi, k.ebp, k.esp, k.eip, m.mem⟩ := by
  unfold loadContext popEdi popEsi popEbx popEbp ret
  dsimp only
  rw [harg, h.stack, h.edi, show k.esp - 20 + 4 = k.esp - 16 by grind, h.esi, show k.esp - 16 + 4 = k.esp - 12 by grind, h.ebx,
    show k.esp - 12 + 4 = k.esp - 8 by grind, h.ebp, show k.esp - 8 + 4 = k.esp - 4 by grind, h.eip,
    show k.esp - 4 + 4 = k.esp by grind]

/-- The words that the call and the first half of `task_switch` write. -/
theorem saveContext_mem (m : TaskCpu) (next back : UInt32) : ((m.push next).push back).saveContext.mem =
    Function.update (Function.update (Function.update (Function.update (Function.update (Function.update
      (Function.update m.mem (m.esp - 4) next) (m.esp - 8) back) (m.esp - 12) m.ebp) (m.esp - 16) m.ebx) (m.esp - 20) m.esi)
      (m.esp - 24) m.edi) (taskOf (m.esp - 24)) (m.esp - 24) := by
  have h8 : m.esp - 4 - 4 = m.esp - 8 := by grind
  have h12 : m.esp - 8 - 4 = m.esp - 12 := by grind
  have h16 : m.esp - 12 - 4 = m.esp - 16 := by grind
  have h20 : m.esp - 16 - 4 = m.esp - 20 := by grind
  have h24 : m.esp - 20 - 4 = m.esp - 24 := by grind
  simp only [saveContext, push, store, h8, h12, h16, h20, h24]

@[simp] theorem saveContext_ebp (m : TaskCpu) (next back : UInt32) :
    ((m.push next).push back).saveContext.ebp = m.esp - 12 := by
  change m.esp - 4 - 4 - 4 = m.esp - 12
  grind

variable {m : TaskCpu} {cur : UInt32}

/-- The descriptor of the running task, from any place in its stack. -/
theorem taskOf_below (hp : IsPage cur) (h : Within cur m.esp) (hroom : cur.toNat + 28 ≤ m.esp.toNat) :
    taskOf (m.esp - 24) = cur := by
  rw [hp.mem_iff, sub_toNat (by have := hp.start; simp; omega)]
  have := h.high
  simp
  omega

/-- A word outside of what the running task has below `esp` is left alone. -/
theorem saveContext_frame (hp : IsPage cur) (h : Within cur m.esp) (hroom : cur.toNat + 28 ≤ m.esp.toNat)
    (next back : UInt32) {a : UInt32} (ha : taskOf a ≠ cur ∨ m.esp.toNat ≤ a.toNat) :
    ((m.push next).push back).saveContext.mem a = m.mem a := by
  have hhigh := h.high
  have hne : ∀ n : UInt32, 4 ≤ n.toNat → n.toNat ≤ 24 → a ≠ m.esp - n := by
    rintro n h4 h24 rfl
    have hsub : (m.esp - n).toNat = m.esp.toNat - n.toNat := sub_toNat (by omega)
    rcases ha with ha | ha
    · exact ha ((hp.mem_iff _).mpr (by omega))
    · omega
  have hcur : a ≠ cur := by
    rintro rfl
    rcases ha with ha | ha
    · exact ha ((hp.mem_iff _).mpr (by omega))
    · omega
  rw [saveContext_mem, taskOf_below hp h hroom, Function.update_of_ne hcur, Function.update_of_ne (hne 24 (by decide) (by decide)),
    Function.update_of_ne (hne 20 (by decide) (by decide)), Function.update_of_ne (hne 16 (by decide) (by decide)),
    Function.update_of_ne (hne 12 (by decide) (by decide)), Function.update_of_ne (hne 8 (by decide) (by decide)),
    Function.update_of_ne (hne 4 (by decide) (by decide))]

/-- What the running task will go on with after `task_switch`. -/
def waiting (m : TaskCpu) (back : UInt32) : Waiting := ⟨m.ebx, m.esi, m.edi, m.ebp, m.esp - 4, back⟩

theorem saveContext_saved (hp : IsPage cur) (h : Within cur m.esp) (hroom : cur.toNat + 28 ≤ m.esp.toNat)
    (next back : UInt32) :
    Saved ((m.push next).push back).saveContext.mem cur (m.waiting back) ∧
      ((m.push next).push back).saveContext.mem (m.esp - 4) = next := by
  have hhigh := h.high
  have hne : ∀ n : UInt32, n.toNat ≤ 24 → m.esp - n ≠ cur := by
    rintro n h24 he
    have hsub : (m.esp - n).toNat = m.esp.toNat - n.toNat := sub_toNat (by omega)
    have := congrArg UInt32.toNat he
    omega
  have hdist : ∀ n k : UInt32, n.toNat ≤ 24 → k.toNat ≤ 24 → n.toNat ≠ k.toNat → m.esp - n ≠ m.esp - k :=
    fun n k hn hk => below_ne (by omega) (by omega)
  have h20 : m.esp - 4 - 20 = m.esp - 24 := by grind
  have h16 : m.esp - 4 - 16 = m.esp - 20 := by grind
  have h12 : m.esp - 4 - 12 = m.esp - 16 := by grind
  have h8 : m.esp - 4 - 8 = m.esp - 12 := by grind
  have h4 : m.esp - 4 - 4 = m.esp - 8 := by grind
  rw [saveContext_mem, taskOf_below hp h hroom]
  refine ⟨⟨?_, ?_, ?_, ?_, ?_, ?_⟩, ?_⟩
  all_goals
    try simp only [waiting, h20, h16, h12, h8, h4]
    simp (disch := first | decide | exact hne _ (by decide) | exact hdist _ _ (by decide) (by decide) (by decide)) only
      [Function.update_self, Function.update_of_ne]

/-- `task_switch` as its caller sees it when the next task goes on: the registers of that task. -/
theorem callTaskSwitch_spec (hp : IsPage cur) (h : Within cur m.esp) (hroom : cur.toNat + 28 ≤ m.esp.toNat) {next : UInt32}
    {k : Waiting} (back : UInt32) (hk : Saved ((m.push next).push back).saveContext.mem next k) :
    m.callTaskSwitch next back =
      ⟨next, k.ebx, k.esi, k.edi, k.ebp, k.esp, k.eip, ((m.push next).push back).saveContext.mem⟩ := by
  refine loadContext_saved ?_ hk
  rw [saveContext_ebp, show m.esp - 12 + 8 = m.esp - 4 by grind]
  exact (saveContext_saved hp h hroom next back).2

/-- `t` waits with its frame in its own page. -/
structure Parked (mem : UInt32 → UInt32) (t : UInt32) (k : Waiting) : Prop where
  saved : Saved mem t k
  within : Within t k.esp
  room : t.toNat + 24 ≤ k.esp.toNat

/-- A parked task depends on its own page only. -/
theorem Parked.congr {mem mem' : UInt32 → UInt32} {t : UInt32} {k : Waiting} (hp : IsPage t) (h : Parked mem t k)
    (hmem : ∀ a, taskOf a = t → mem' a = mem a) : Parked mem' t k := by
  have hroom := h.room
  have hhigh := h.within.high
  have hstart := hp.start
  have hself : mem' t = mem t := hmem t ((hp.mem_iff t).mpr ⟨le_rfl, by omega⟩)
  have hframe : ∀ n : UInt32, 4 ≤ n.toNat → n.toNat ≤ 20 → mem' (k.esp - n) = mem (k.esp - n) := by
    intro n h4 h20
    have hsub : (k.esp - n).toNat = k.esp.toNat - n.toNat := sub_toNat (by omega)
    exact hmem _ ((hp.mem_iff _).mpr (by omega))
  refine ⟨⟨?_, ?_, ?_, ?_, ?_, ?_⟩, h.within, h.room⟩
  · rw [hself, h.saved.stack]
  · rw [hframe 20 (by decide) (by decide), h.saved.edi]
  · rw [hframe 16 (by decide) (by decide), h.saved.esi]
  · rw [hframe 12 (by decide) (by decide), h.saved.ebx]
  · rw [hframe 8 (by decide) (by decide), h.saved.ebp]
  · rw [hframe 4 (by decide) (by decide), h.saved.eip]

/-! ### New tasks -/

theorem putFrame_frame {m : TaskCpu} {top edi esi ebx ebp eip b : UInt32} (h : ∀ n : UInt32, 4 ≤ n.toNat → n.toNat ≤ 20 → b ≠ top - n) :
    (m.putFrame (top - 20) edi esi ebx ebp eip).mem b = m.mem b := by
  simp only [putFrame, store, show top - 20 + 4 = top - 16 by grind, show top - 20 + 8 = top - 12 by grind,
    show top - 20 + 12 = top - 8 by grind, show top - 20 + 16 = top - 4 by grind]
  rw [Function.update_of_ne (h 4 (by decide) (by decide)), Function.update_of_ne (h 8 (by decide) (by decide)),
    Function.update_of_ne (h 12 (by decide) (by decide)), Function.update_of_ne (h 16 (by decide) (by decide)),
    Function.update_of_ne (h 20 (by decide) (by decide))]

/-- A frame below `top` is what a task that waits there goes on with, as soon as its descriptor says so. -/
theorem putFrame_saved (m : TaskCpu) {t top edi esi ebx ebp eip : UInt32} (htop : 20 ≤ top.toNat) {mem : UInt32 → UInt32}
    (hmem : ∀ n : UInt32, 4 ≤ n.toNat → n.toNat ≤ 20 → mem (top - n) = (m.putFrame (top - 20) edi esi ebx ebp eip).mem (top - n))
    (hstack : mem t = top - 20) : Saved mem t ⟨ebx, esi, edi, ebp, top, eip⟩ := by
  have hdist : ∀ n k : UInt32, n.toNat ≤ 20 → k.toNat ≤ 20 → n.toNat ≠ k.toNat → top - n ≠ top - k :=
    fun n k hn hk => below_ne (by omega) (by omega)
  refine ⟨hstack, ?_, ?_, ?_, ?_, ?_⟩
  all_goals
    dsimp only
    rw [hmem _ (by decide) (by decide)]
    simp only [putFrame, store, show top - 20 + 4 = top - 16 by grind, show top - 20 + 8 = top - 12 by grind,
      show top - 20 + 12 = top - 8 by grind, show top - 20 + 16 = top - 4 by grind]
    simp (disch := first | decide | exact hdist _ _ (by decide) (by decide) (by decide)) only
      [Function.update_self, Function.update_of_ne]

theorem IsPage.top {t : UInt32} (h : IsPage t) : (t + 4096).toNat = t.toNat + 4096 := by
  have := h.room
  rw [UInt32.toNat_add]
  simp
  omega

/-- What a new task starts with. -/
def created (t target : UInt32) : Waiting := ⟨0x11111111, 0x22222222, 0x33333333, 0x44444444, t + 4096, target⟩

theorem taskCreate_esp (m : TaskCpu) (t target : UInt32) : (m.taskCreate t target).esp = m.esp := by
  simp only [taskCreate, putFrame, store_esp]

theorem taskCreate_parked (m : TaskCpu) {t : UInt32} (hp : IsPage t) (target : UInt32) :
    Parked (m.taskCreate t target).mem t (created t target) := by
  have htop := hp.top
  have hstart := hp.start
  refine ⟨putFrame_saved (m.store t (t + 4096 - 20)) (by omega) (fun _ _ _ => rfl) ?_, ⟨?_, ?_, ?_⟩, ?_⟩
  · refine (putFrame_frame fun n h4 h20 => ?_).trans (Function.update_self ..)
    intro he
    have hsub : (t + 4096 - n).toNat = (t + 4096).toNat - n.toNat := sub_toNat (by omega)
    have := congrArg UInt32.toNat he
    omega
  all_goals
    dsimp only [created]
    omega

theorem taskCreate_frame (m : TaskCpu) {t : UInt32} (hp : IsPage t) (target : UInt32) {a : UInt32} (ha : taskOf a ≠ t) :
    (m.taskCreate t target).mem a = m.mem a := by
  have htop := hp.top
  have hne : a ≠ t := by
    rintro rfl
    exact ha ((hp.mem_iff _).mpr ⟨le_rfl, by omega⟩)
  refine (putFrame_frame fun n h4 h20 => ?_).trans (Function.update_of_ne hne _ _)
  rintro rfl
  have hsub : (t + 4096 - n).toNat = (t + 4096).toNat - n.toNat := sub_toNat (by omega)
  exact ha ((hp.mem_iff _).mpr (by omega))

/-- What a forked task starts with: it leaves the kernel. -/
def forked (child exit : UInt32) : Waiting := ⟨0xaa55aa55, 0xaa55aa55, 0xaa55aa55, 0xaa55aa55, child + 4096 - 80, exit⟩

theorem IsPage.frame {t : UInt32} (h : IsPage t) : (t + 4096 - 80).toNat = t.toNat + 4016 := by
  have hsub : (t + 4096 - 80).toNat = (t + 4096).toNat - (80 : UInt32).toNat := sub_toNat (by rw [h.top]; simp)
  rw [hsub, h.top]
  simp

theorem taskFork_mem (m : TaskCpu) (child task exit : UInt32) : (m.taskFork child task exit).mem =
    Function.update (((m.copyPage child task).store (child + 4096 - 80 + 32) 0).putFrame (child + 4096 - 80 - 20)
      0xaa55aa55 0xaa55aa55 0xaa55aa55 0xaa55aa55 exit).mem child (child + 4096 - 80 - 20) := rfl

theorem taskFork_esp (m : TaskCpu) (child task exit : UInt32) : (m.taskFork child task exit).esp = m.esp := by
  simp only [taskFork, taskBuildStack, putFrame, store_esp, copyPage]

theorem taskFork_parked (m : TaskCpu) {child : UInt32} (hp : IsPage child) (task exit : UInt32) :
    Parked (m.taskFork child task exit).mem child (forked child exit) := by
  have hframe := hp.frame
  have hstart := hp.start
  rw [taskFork_mem]
  refine ⟨putFrame_saved ((m.copyPage child task).store (child + 4096 - 80 + 32) 0) (by omega) (fun n h4 h20 => ?_)
    (Function.update_self ..), ⟨?_, ?_, ?_⟩, ?_⟩
  · refine Function.update_of_ne ?_ _ _
    intro he
    have hsub : (child + 4096 - 80 - n).toNat = (child + 4096 - 80).toNat - n.toNat := sub_toNat (by omega)
    have := congrArg UInt32.toNat he
    omega
  all_goals
    dsimp only [forked]
    omega

theorem taskFork_frame (m : TaskCpu) {child : UInt32} (hp : IsPage child) (task exit : UInt32) {a : UInt32}
    (ha : taskOf a ≠ child) : (m.taskFork child task exit).mem a = m.mem a := by
  have hframe := hp.frame
  have hin : ∀ b : UInt32, child.toNat ≤ b.toNat → b.toNat < child.toNat + 4096 → a ≠ b := by
    rintro b h1 h2 rfl
    exact ha ((hp.mem_iff _).mpr ⟨h1, h2⟩)
  rw [taskFork_mem, Function.update_of_ne (hin child le_rfl (by omega))]
  rw [putFrame_frame fun n h4 h20 => ?_, store_mem, Function.update_of_ne (hin _ ?_ ?_)]
  · exact if_neg ha
  rotate_right
  · have hsub : (child + 4096 - 80 - n).toNat = (child + 4096 - 80).toNat - n.toNat := sub_toNat (by omega)
    exact hin _ (by omega) (by omega)
  all_goals
    have hroom := hp.room
    rw [UInt32.toNat_add, hframe]
    simp
    omega

end TaskCpu

/-! ### Runs -/

open TaskCpu

/-- The machine, the page of the running task and those of the tasks that wait in `task_switch`. -/
structure Stacks where
  cpu : TaskCpu
  current : UInt32
  parked : List UInt32

inductive StackEvent
  /-- The running task executes anything else. -/
  | work (cpu : TaskCpu)
  | create (task target : UInt32)
  | fork (child exit : UInt32)
  /-- `free_kpage` of a task that exited. -/
  | free (task : UInt32)
  | switch (next back : UInt32)

namespace Stacks

/-- Code of the running task leaves the pages of the others alone and its stack in its page, and has room on it
for the call of `task_switch`. The idle task may switch to itself. -/
inductive Step : Stacks → StackEvent → Stacks → Prop
  | work {k : Stacks} {cpu : TaskCpu} : (∀ t ∈ k.parked, ∀ a, taskOf a = t → cpu.mem a = k.cpu.mem a) →
      Within k.current cpu.esp → Step k (.work cpu) { k with cpu := cpu }
  | create {k : Stacks} {task target : UInt32} : IsPage task → task ≠ k.current → task ∉ k.parked →
      Step k (.create task target) { k with cpu := k.cpu.taskCreate task target, parked := task :: k.parked }
  | fork {k : Stacks} {child exit : UInt32} : IsPage child → child ≠ k.current → child ∉ k.parked →
      Step k (.fork child exit) { k with cpu := k.cpu.taskFork child k.current exit, parked := child :: k.parked }
  | free {k : Stacks} {task : UInt32} : task ∈ k.parked → Step k (.free task) { k with parked := k.parked.erase task }
  | self {k : Stacks} {back : UInt32} : k.current.toNat + 28 ≤ k.cpu.esp.toNat →
      Step k (.switch k.current back) { k with cpu := k.cpu.callTaskSwitch k.current back }
  | switch {k : Stacks} {next back : UInt32} : k.current.toNat + 28 ≤ k.cpu.esp.toNat → next ∈ k.parked →
      Step k (.switch next back) ⟨k.cpu.callTaskSwitch next back, next, k.current :: k.parked.erase next⟩

def Init (k : Stacks) : Prop := IsPage k.current ∧ Within k.current k.cpu.esp ∧ k.parked = []

structure Inv (k : Stacks) : Prop where
  page : IsPage k.current
  within : Within k.current k.cpu.esp
  pages : ∀ t ∈ k.parked, IsPage t
  apart : k.current ∉ k.parked
  nodup : k.parked.Nodup
  waits : ∀ t ∈ k.parked, ∃ w, Parked k.cpu.mem t w

variable {k k' : Stacks} {e : StackEvent} {t : UInt32}

/-- `t` neither goes on nor is freed. -/
def Rests (t : UInt32) : StackEvent → Prop
  | .free task => task ≠ t
  | .switch next _ => next ≠ t
  | _ => True

/-- Nothing that happens while `t` waits touches its page. -/
theorem step_rests (h : k.Inv) (hs : Step k e k') (ht : t ∈ k.parked) (hr : Rests t e) :
    t ∈ k'.parked ∧ ∀ a, taskOf a = t → k'.cpu.mem a = k.cpu.mem a := by
  have hcur : t ≠ k.current := fun he => h.apart (he ▸ ht)
  cases hs with
  | work hmem hin => exact ⟨ht, hmem t ht⟩
  | create hp hne hnew =>
    refine ⟨List.mem_cons_of_mem _ ht, fun a ha => taskCreate_frame _ hp _ fun he => hnew ?_⟩
    rw [← he, ha]
    exact ht
  | fork hp hne hnew =>
    refine ⟨List.mem_cons_of_mem _ ht, fun a ha => taskFork_frame _ hp _ _ fun he => hnew ?_⟩
    rw [← he, ha]
    exact ht
  | free hmem => exact ⟨(List.mem_erase_of_ne (Ne.symm hr)).mpr ht, fun _ _ => rfl⟩
  | @self back hroom =>
    refine ⟨ht, fun a ha => ?_⟩
    rw [callTaskSwitch_spec h.page h.within hroom back (saveContext_saved h.page h.within hroom _ back).1]
    exact saveContext_frame h.page h.within hroom _ _ (.inl (ha ▸ hcur))
  | @switch next back hroom hmem =>
    obtain ⟨w, hw⟩ := h.waits next hmem
    refine ⟨List.mem_cons_of_mem _ ((List.mem_erase_of_ne (Ne.symm hr)).mpr ht), fun a ha => ?_⟩
    have hnext : next ≠ k.current := fun he => h.apart (he ▸ hmem)
    have hsame : ∀ a, taskOf a = next → _ := fun a ha => saveContext_frame h.page h.within hroom next back (.inl (ha ▸ hnext))
    dsimp only
    rw [callTaskSwitch_spec h.page h.within hroom back (hw.congr (h.pages next hmem) hsame).saved]
    exact saveContext_frame h.page h.within hroom _ _ (.inl (ha ▸ hcur))

/-- The task that is switched to goes on as it was left, and the one that was running waits. -/
theorem step_switch (h : k.Inv) {next back : UInt32} (hs : Step k (.switch next back) k') :
    k'.current = next ∧ k'.cpu.eax = next ∧ Parked k'.cpu.mem k.current (k.cpu.waiting back) ∧
      (∀ a, taskOf a = k.current → k.cpu.esp.toNat ≤ a.toNat → k'.cpu.mem a = k.cpu.mem a) ∧
      ∃ w, (next ≠ k.current → Parked k.cpu.mem next w) ∧ (next = k.current → w = k.cpu.waiting back) ∧
        k'.cpu = ⟨next, w.ebx, w.esi, w.edi, w.ebp, w.esp, w.eip, k'.cpu.mem⟩ ∧
        Within next w.esp ∧ (next ≠ k.current → ∀ a, taskOf a = next → k'.cpu.mem a = k.cpu.mem a) := by
  have hstart := h.page.start
  have hhigh := h.within.high
  have hword := h.within.word
  have hparked : k.current.toNat + 28 ≤ k.cpu.esp.toNat → Parked ((k.cpu.push next).push back).saveContext.mem k.current
      (k.cpu.waiting back) := by
    intro hroom
    have hesp : (k.cpu.esp - 4).toNat = k.cpu.esp.toNat - (4 : UInt32).toNat := sub_toNat (by simp; omega)
    have hfour : (4 : UInt32).toNat = 4 := rfl
    refine ⟨(saveContext_saved h.page h.within hroom next back).1, ⟨?_, ?_, ?_⟩, ?_⟩
    all_goals
      dsimp only [waiting]
      omega
  cases hs with
  | self hroom =>
    have hspec := callTaskSwitch_spec h.page h.within hroom back (hparked hroom).saved
    dsimp only
    rw [hspec]
    exact ⟨rfl, rfl, hparked hroom, fun a _ ha => saveContext_frame h.page h.within hroom _ _ (.inr ha), k.cpu.waiting back,
      fun hne => absurd rfl hne, fun _ => rfl, rfl, (hparked hroom).within, fun hne => absurd rfl hne⟩
  | switch hroom hmem =>
    obtain ⟨w, hw⟩ := h.waits next hmem
    have hnext : next ≠ k.current := fun he => h.apart (he ▸ hmem)
    have hsame : ∀ a, taskOf a = next → ((k.cpu.push next).push back).saveContext.mem a = k.cpu.mem a :=
      fun a ha => saveContext_frame h.page h.within hroom next back (.inl (ha ▸ hnext))
    have hspec := callTaskSwitch_spec h.page h.within hroom back (hw.congr (h.pages next hmem) hsame).saved
    dsimp only
    rw [hspec]
    exact ⟨rfl, rfl, hparked hroom, fun a _ ha => saveContext_frame h.page h.within hroom _ _ (.inr ha), w,
      fun _ => hw, fun he => absurd he hnext, rfl, hw.within, fun _ => hsame⟩

/-- A new task that waits, in a page of its own. -/
theorem Inv.add (h : k.Inv) {cpu : TaskCpu} {w : Waiting} (hp : IsPage t) (hne : t ≠ k.current) (hnew : t ∉ k.parked)
    (hesp : cpu.esp = k.cpu.esp) (hw : Parked cpu.mem t w) (hsame : ∀ a, taskOf a ≠ t → cpu.mem a = k.cpu.mem a) :
    Inv ⟨cpu, k.current, t :: k.parked⟩ := by
  refine ⟨h.page, hesp ▸ h.within, fun t' ht => ?_, fun hc => ?_, List.nodup_cons.mpr ⟨hnew, h.nodup⟩, fun t' ht => ?_⟩
  · rcases List.mem_cons.mp ht with rfl | ht
    · exact hp
    · exact h.pages t' ht
  · rcases List.mem_cons.mp hc with he | hc
    · exact hne he.symm
    · exact h.apart hc
  · rcases List.mem_cons.mp ht with rfl | ht
    · exact ⟨w, hw⟩
    · obtain ⟨w', hw'⟩ := h.waits t' ht
      exact ⟨w', hw'.congr (h.pages t' ht) fun a ha => hsame a fun he => hnew (he ▸ ha.symm ▸ ht)⟩

theorem step_inv (h : k.Inv) (hs : Step k e k') : k'.Inv := by
  have keep : ∀ t ∈ k.parked, Rests t e → ∃ w, Parked k'.cpu.mem t w := by
    intro t ht hr
    obtain ⟨w, hw⟩ := h.waits t ht
    exact ⟨w, hw.congr (h.pages t ht) (step_rests h hs ht hr).2⟩
  cases hs with
  | work hmem hin => exact ⟨h.page, hin, h.pages, h.apart, h.nodup, fun t ht => keep t ht trivial⟩
  | create hp hne hnew =>
    exact h.add hp hne hnew (taskCreate_esp ..) (taskCreate_parked _ hp _) fun a ha => taskCreate_frame _ hp _ ha
  | fork hp hne hnew =>
    exact h.add hp hne hnew (taskFork_esp ..) (taskFork_parked _ hp _ _) fun a ha => taskFork_frame _ hp _ _ ha
  | free hmem =>
    refine ⟨h.page, h.within, fun t ht => h.pages t (List.mem_of_mem_erase ht), fun hc => h.apart (List.mem_of_mem_erase hc),
      h.nodup.erase _, fun t ht => ?_⟩
    exact h.waits t (List.mem_of_mem_erase ht)
  | @self back hroom =>
    obtain ⟨-, -, -, -, w, -, -, hcpu, hin, -⟩ := step_switch h (.self hroom)
    refine ⟨h.page, ?_, h.pages, h.apart, h.nodup, fun t ht => keep t ht fun he => h.apart (he ▸ ht)⟩
    rw [hcpu]
    exact hin
  | @switch next back hroom hmem =>
    obtain ⟨-, -, hpark, -, w, -, -, hcpu, hin, -⟩ := step_switch h (.switch hroom hmem)
    have hother : ∀ t ∈ k.parked.erase next, t ∈ k.parked ∧ t ≠ next := fun t ht =>
      ⟨List.mem_of_mem_erase ht, (h.nodup.mem_erase_iff.mp ht).1⟩
    refine ⟨h.pages next hmem, ?_, fun t ht => ?_, fun hc => ?_, List.nodup_cons.mpr ⟨fun hc => h.apart (hother _ hc).1,
      h.nodup.erase _⟩, fun t ht => ?_⟩
    · dsimp only at hcpu ⊢
      rw [hcpu]
      exact hin
    · rcases List.mem_cons.mp ht with rfl | ht
      · exact h.page
      · exact h.pages t (hother t ht).1
    · rcases List.mem_cons.mp hc with he | hc
      · dsimp only at he
        exact h.apart (he ▸ hmem)
      · exact (hother _ hc).2 rfl
    · rcases List.mem_cons.mp ht with rfl | ht
      · exact ⟨_, hpark⟩
      · exact keep t (hother t ht).1 (Ne.symm (hother t ht).2)

/-- A task with an empty stack. -/
def firstTask : Stacks := ⟨⟨0, 1, 2, 3, 4, 0x11000, 0, fun _ => 0⟩, 0x10000, []⟩

end Stacks
end Onix
