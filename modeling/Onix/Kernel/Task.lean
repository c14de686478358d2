import Onix.Lib.Halting
import Onix.Lib.LinkedList
import Mathlib.Tactic

/-! Process control blocks, the wait lists their nodes are linked in, and the
state the scheduler works on. A failed `assert` and `panic` both spin for
ever, so every kernel function either returns a state or halts. -/

set_option autoImplicit false

namespace Onix

/-- How the kernel stops: `assertion_failure`, `panic`, or a NULL pointer. -/
inductive Halt
  | assertion (exp : String)
  | panic (msg : String)
  | nullPointer
  deriving DecidableEq, Repr

def assert (exp : String) (b : Bool) : Except Halt Unit :=
  if b then .ok () else .error (.assertion exp)

@[simp] theorem assert_ok {exp : String} {b : Bool} {u : Unit} : assert exp b = .ok u ↔ b = true := by
  unfold assert
  split_ifs with h <;> simp [h]

@[simp] theorem assert_true (exp : String) : assert exp true = .ok () := rfl

theorem Lib.Meets.assert_bind {β : Type} {bad : Halt → Prop} {exp : String} {b : Bool}
    {f : Unit → Except Halt β} {Q : β → Prop} (hb : b = false → ¬ bad (.assertion exp))
    (hf : b = true → Lib.Meets bad (f ()) Q) : Lib.Meets bad (assert exp b >>= f) Q := by
  cases b with
  | true => exact hf rfl
  | false => exact Lib.meets_error.mpr (hb rfl)

def NR_TASKS : ℕ := 64
def ONIX_MAGIC : UInt32 := 0x20220205

/-- `task_state_t` -/
inductive TaskState
  | init | ready | running | blocked | sleeping | waiting | dead
  deriving DecidableEq, Repr

/-- The states in which a task stands in a wait list. -/
def TaskState.queued : TaskState → Bool
  | blocked | sleeping | waiting => true
  | _ => false

/-- An index of `task_table`, which is also the pid of the task in it. -/
abbrev Slot := Fin NR_TASKS

/-- A PCB: one in `task_table`, or the page `task_setup` finds under the boot stack. -/
inductive TaskRef
  | boot
  | slot (i : Slot)
  deriving DecidableEq, Repr

/-- The lists a task node can stand in: the two of tasks.c, and those that
callers pass to `task_block` (mutex waiters, `wait_list` of buffer.c). -/
inductive ListId
  | blockList
  | sleepList
  | other (n : ℕ)
  deriving DecidableEq, Repr

/-- `task_t`, the fields the scheduler and wait / exit work on. `node` is the
list the embedded node is linked in; `none` is the node with both links NULL. -/
structure Task where
  node : Option ListId
  state : TaskState
  priority : UInt32
  ticks : UInt32
  jiffies : UInt32
  pid : Slot
  ppid : Slot
  status : ℤ
  waitpid : ℤ
  magic : UInt32
  deriving DecidableEq, Repr

structure Sched where
  /-- `task_table`, and the boot PCB. -/
  pcb : TaskRef → Option Task
  lists : ListId → List TaskRef
  /-- `idle_task` -/
  idle : TaskRef
  /-- `running_task()` -/
  current : TaskRef
  jiffies : UInt32

namespace Sched

/-- Dereference a task pointer. -/
def get (s : Sched) (r : TaskRef) : Except Halt Task :=
  match s.pcb r with
  | some t => .ok t
  | none => .error .nullPointer

/-- Update the fields of a PCB. -/
def upd (s : Sched) (r : TaskRef) (f : Task → Task) : Sched :=
  { s with pcb := Function.update s.pcb r ((s.pcb r).map f) }

@[simp] theorem upd_lists (s : Sched) (r : TaskRef) (f : Task → Task) : (s.upd r f).lists = s.lists := rfl
@[simp] theorem upd_idle (s : Sched) (r : TaskRef) (f : Task → Task) : (s.upd r f).idle = s.idle := rfl
@[simp] theorem upd_current (s : Sched) (r : TaskRef) (f : Task → Task) :
    (s.upd r f).current = s.current := rfl
@[simp] theorem upd_jiffies (s : Sched) (r : TaskRef) (f : Task → Task) :
    (s.upd r f).jiffies = s.jiffies := rfl

theorem upd_pcb (s : Sched) (r q : TaskRef) (f : Task → Task) :
    (s.upd r f).pcb q = if q = r then (s.pcb q).map f else s.pcb q := by
  simp only [upd, Function.update_apply]
  split_ifs with h
  · rw [h]
  · rfl

@[simp] theorem upd_pcb_self (s : Sched) (r : TaskRef) (f : Task → Task) :
    (s.upd r f).pcb r = (s.pcb r).map f := by simp [upd_pcb]

theorem upd_pcb_ne (s : Sched) {r q : TaskRef} (f : Task → Task) (h : q ≠ r) :
    (s.upd r f).pcb q = s.pcb q := by simp [upd_pcb, h]

/-- `task_table[i] = task`. -/
def setTask (s : Sched) (i : Slot) (task : Option Task) : Sched :=
  { s with pcb := Function.update s.pcb (.slot i) task }

@[simp] theorem setTask_lists (s : Sched) (i : Slot) (o : Option Task) : (s.setTask i o).lists = s.lists := rfl
@[simp] theorem setTask_idle (s : Sched) (i : Slot) (o : Option Task) : (s.setTask i o).idle = s.idle := rfl
@[simp] theorem setTask_current (s : Sched) (i : Slot) (o : Option Task) :
    (s.setTask i o).current = s.current := rfl
@[simp] theorem setTask_jiffies (s : Sched) (i : Slot) (o : Option Task) :
    (s.setTask i o).jiffies = s.jiffies := rfl

theorem setTask_pcb (s : Sched) (i : Slot) (o : Option Task) (r : TaskRef) :
    (s.setTask i o).pcb r = if r = .slot i then o else s.pcb r := by
  simp [setTask, Function.update_apply]

@[simp] theorem get_ok {s : Sched} {r : TaskRef} {t : Task} : s.get r = .ok t ↔ s.pcb r = some t := by
  unfold get
  cases s.pcb r <;> simp

/-- Link the node of `r` in front of list `l`. -/
def listPush (s : Sched) (l : ListId) (r : TaskRef) : Except Halt Sched := do
  assert "!list_search(list, node)" (r ∉ s.lists l)
  .ok { s.upd r (fun t => { t with node := some l }) with
    lists := Function.update s.lists l (r :: s.lists l) }

/-- Unlink the node of `r` from the list its links lie in. -/
def listRemove (s : Sched) (r : TaskRef) : Except Halt Sched := do
  let t ← s.get r
  match t.node with
  | none => .error (.assertion "node->prev != NULL")
  | some l =>
    .ok { s.upd r (fun t => { t with node := none }) with
      lists := Function.update s.lists l ((s.lists l).erase r) }

/-- The key `list_insert_sort` reads for a node of `sleep_list`: `ticks` as a signed int. -/
def ticksKey (s : Sched) (r : TaskRef) : ℤ :=
  match s.pcb r with
  | some t => t.ticks.toInt32.toInt
  | none => 0

/-- `list_insert_sort` on a list of task nodes, with the key at `ticks`. -/
def listInsertSort (s : Sched) (l : ListId) (r : TaskRef) : Except Halt Sched := do
  let t ← s.get r
  assert "node->next == NULL" t.node.isNone
  .ok { s.upd r (fun t => { t with node := some l }) with
    lists := Function.update s.lists l (Lib.insertBefore s.ticksKey r (s.lists l)) }

end Sched

end Onix
