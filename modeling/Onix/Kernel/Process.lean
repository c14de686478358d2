import Onix.Kernel.Schedule
import Onix.Lib.Transition

/-! fork, exit and wait of tasks.c, as far as they work on the PCBs: the
statements of `task_exit` that release memory, inodes and files stand between
`markDead` and `reparent`, and none of them writes a field of `Task`. On top of
them the system of all kernel entries that a task or the clock can make. -/

set_option autoImplicit false

namespace Onix
namespace Sched

/-- `task_fork`, the PCB: the child is a copy of the parent but for these four fields. -/
def forkPcb (s : Sched) : Except Halt (Slot × Sched) := do
  let task ← s.get s.current
  assert "task->node.next == NULL && task->node.prev == NULL && task->state == TASK_RUNNING"
    (task.node.isNone && task.state == .running)
  let pid ← s.getFreeTask
  let child := { task with pid := pid, ppid := task.pid, state := .ready, ticks := task.priority }
  .ok (pid, s.setTask pid (some child))

def markDead (s : Sched) (status : ℤ) : Except Halt Sched := do
  let task ← s.get s.current
  assert "task->node.next == NULL && task->node.prev == NULL && task->state == TASK_RUNNING"
    (task.node.isNone && task.state == .running)
  .ok (s.upd s.current fun t => { t with state := .dead, status := status })

/-- The loop of `task_exit` that hands the children of `task` to its parent. -/
def reparent (s : Sched) (task : Task) : Sched :=
  { s with
    pcb := fun r => match r with
      | .boot => s.pcb .boot
      | .slot i => (s.pcb (.slot i)).map fun child =>
          if child.ppid ≠ task.pid then child else { child with ppid := task.ppid } }

def wakeParent (s : Sched) (task : Task) : Except Halt Sched := do
  let parent ← s.get (.slot task.ppid)
  if parent.state = .waiting ∧ (parent.waitpid = (task.pid.val : ℤ) ∨ parent.waitpid = -1) then
    s.taskUnblock (.slot task.ppid)
  else .ok s

def taskExit (s : Sched) (status : ℤ) : Except Halt Sched := do
  let s ← s.markDead status
  let task ← s.get s.current
  let s := s.reparent task
  let s ← s.wakeParent task
  s.schedule

/-- How one scan of the table in `task_waitpid` ends. -/
inductive WaitScan
  | dead (child : Slot)
  | alive
  | childless
  deriving DecidableEq, Repr

def waitScan (s : Sched) (self : Slot) (pid : ℤ) : List Slot → Bool → WaitScan
  | [], hasChild => if hasChild then .alive else .childless
  | i :: rest, hasChild =>
    match s.pcb (.slot i) with
    | none => waitScan s self pid rest hasChild
    | some ptr =>
      if ptr.ppid ≠ self then waitScan s self pid rest hasChild
      else if pid ≠ (ptr.pid.val : ℤ) ∧ pid ≠ -1 then waitScan s self pid rest hasChild
      else if ptr.state = .dead then .dead i
      else waitScan s self pid rest true

/-- The slots `task_waitpid` looks at: `i = 2` up to `NR_TASKS`. -/
def waitSlots : List Slot := (List.finRange NR_TASKS).drop 2

/-- The return value of a round of `task_waitpid`: `none` when it blocked. -/
abbrev WaitResult := Option (ℤ × Option ℤ)

/-- One round of the loop of `task_waitpid`: reap, block, or return -1. A task
that blocked here makes the next round when it runs again. -/
def taskWaitpid (s : Sched) (pid : ℤ) : Except Halt (WaitResult × Sched) := do
  let task ← s.get s.current
  match s.waitScan task.pid pid waitSlots false with
  | .dead i =>
    let child ← s.get (.slot i)
    .ok (some (child.pid.val, some child.status), s.setTask i none)
  | .alive =>
    let s := s.upd s.current fun t => { t with waitpid := pid }
    let s ← s.taskBlock s.current none .waiting
    .ok (none, s)
  | .childless => .ok (some (-1, none), s)

/-! ### The system -/

/-- What happens next: the clock interrupts, the current task enters the
kernel, or it is preempted in favour of `r`. `block` and `unblock` stand for
every call of `task_block` and `task_unblock` outside tasks.c. -/
inductive Event
  | tick
  | yield
  | preempt (r : Slot)
  | block (r : Slot) (l : Option ListId) (state : TaskState)
  | unblock (r : Slot)
  | sleep (ms : UInt32)
  | weakup
  | fork
  | exit (status : ℤ)
  | waitpid (pid : ℤ)
  deriving Repr

/-- What a run tells about the end of a task. -/
inductive Obs
  | exited (pid : Slot) (status : ℤ)
  | reaped (pid : ℤ) (status : ℤ)
  deriving DecidableEq, Repr

/-- The callers' side of each entry. The boot code never calls a blocking
function, and the tasks with pid 0 and 1 never exit. -/
def Enabled (s : Sched) : Event → Prop
  | .tick | .yield | .weakup => True
  | .preempt r => ∃ t, s.pcb (.slot r) = some t ∧ t.state = .ready
  | .block r _ state => (∃ t, s.pcb (.slot r) = some t ∧ (t.state = .ready ∨ t.state = .running)) ∧
      (state = .blocked ∨ state = .sleeping)
  | .unblock r => ∃ t, s.pcb (.slot r) = some t ∧ t.state.queued
  | .sleep _ | .fork | .waitpid _ => s.current ≠ .boot
  | .exit _ => ∃ i : Slot, s.current = .slot i ∧ 2 ≤ i.val

def exec (s : Sched) : Event → Except Halt (Option Obs × Sched)
  | .tick => do .ok (none, ← s.clockHandler)
  | .yield => do .ok (none, ← s.taskYield)
  | .preempt r => do .ok (none, ← s.switchTo (.slot r))
  | .block r l state => do .ok (none, ← s.taskBlock (.slot r) l state)
  | .unblock r => do .ok (none, ← s.taskUnblock (.slot r))
  | .sleep ms => do .ok (none, ← s.taskSleep ms)
  | .weakup => do .ok (none, ← s.taskWeakup)
  | .fork => do
    let (_, s) ← s.forkPcb
    .ok (none, s)
  | .exit status => do
    let task ← s.get s.current
    .ok (some (.exited task.pid status), ← s.taskExit status)
  | .waitpid pid => do
    let (ret, s) ← s.taskWaitpid pid
    .ok (ret.bind fun (child, status) => status.map (.reaped child), s)

def Init (s : Sched) : Prop := ∃ garbage, taskInit garbage = .ok s

def Step (s : Sched) (l : Event × Option Obs) (s' : Sched) : Prop :=
  Enabled s l.1 ∧ s.exec l.1 = .ok (l.2, s')

end Sched
end Onix
