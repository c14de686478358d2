import Onix.Kernel.Task

/-! The scheduler of tasks.c and the clock handler that drives it: the functions
as the code computes them. `schedule` returns in the task it switched to, so its
result is the state in which `current` is that task. -/

set_option autoImplicit false

namespace Onix
namespace Sched

/-- One round of the loop in `task_search`. -/
def searchRound (s : Sched) (state : TaskState) (task : Option (TaskRef × Task)) (i : Slot) :
    Option (TaskRef × Task) :=
  match s.pcb (.slot i) with
  | none => task
  | some ptr =>
    if ptr.state ≠ state ∨ .slot i = s.current then task
    else match task with
      | none => some (.slot i, ptr)
      | some (_, t) =>
        -- `jiffies` is compared so that no task starves
        if t.ticks < ptr.ticks ∨ t.jiffies > ptr.jiffies then some (.slot i, ptr) else task

def taskSearch (s : Sched) (state : TaskState) : Option TaskRef :=
  match (List.finRange NR_TASKS).foldl (s.searchRound state) none with
  | some (r, _) => some r
  | none => if state = .ready then some s.idle else none

def taskUnblock (s : Sched) (r : TaskRef) : Except Halt Sched := do
  let s ← s.listRemove r
  .ok (s.upd r fun t => { t with state := .ready })

def taskActivate (s : Sched) (r : TaskRef) : Except Halt Unit := do
  let t ← s.get r
  assert "task->magic == ONIX_MAGIC" (t.magic == ONIX_MAGIC)

/-- The writes of `schedule` to the PCB of the task it leaves. -/
def leave (t : Task) : Task :=
  { t with
    ticks := if t.ticks = 0 then t.priority else t.ticks
    state := if t.state = .running then .ready else t.state }

/-- The part of `schedule` behind the choice of `next`. -/
def switchTo (s : Sched) (next : TaskRef) : Except Halt Sched := do
  let s := s.upd s.current leave
  let n ← s.get next
  let s ← if n.state ≠ .ready then
      taskUnblock (if n.state = .sleeping then s.upd next (fun t => { t with ticks := t.priority }) else s) next
    else .ok s
  let s := s.upd next fun t => { t with state := .running }
  s.taskActivate next
  .ok { s with current := next }

def schedule (s : Sched) : Except Halt Sched := do
  match s.taskSearch .ready with
  | none => .error (.assertion "next != NULL")
  | some next =>
    let n ← s.get next
    assert "next->magic == ONIX_MAGIC" (n.magic == ONIX_MAGIC)
    s.switchTo next

def taskYield (s : Sched) : Except Halt Sched := s.schedule

def taskBlock (s : Sched) (r : TaskRef) (blist : Option ListId) (state : TaskState) :
    Except Halt Sched := do
  let t ← s.get r
  assert "task->node.next == NULL" t.node.isNone
  assert "task->node.prev == NULL" t.node.isNone
  let s ← s.listPush (blist.getD .blockList) r
  assert "state != TASK_READY && state != TASK_RUNNING" (state ≠ .ready && state ≠ .running)
  let s := s.upd r fun t => { t with state := state }
  if s.current = r then s.schedule else .ok s

/-- `jiffy`, the milliseconds of one tick. -/
def JIFFY : UInt32 := 10

def sleepTicks (ms : UInt32) : UInt32 := if ms / JIFFY > 0 then ms / JIFFY else 1

def taskSleep (s : Sched) (ms : UInt32) : Except Halt Sched := do
  let current := s.current
  let _ ← s.get current
  let s := s.upd current fun t => { t with ticks := s.jiffies + sleepTicks ms }
  let s ← s.listInsertSort .sleepList current
  (s.upd current fun t => { t with state := .sleeping }).schedule

/-- The loop of `task_weakup`; `ptr->next` is read before the node is unlinked,
so the walk is along the list as it was. -/
def weakupLoop : List TaskRef → Sched → Except Halt Sched
  | [], s => .ok s
  | ptr :: rest, s => do
    let task ← s.get ptr
    if task.ticks > s.jiffies then .ok s
    else
      let s ← (s.upd ptr fun t => { t with ticks := t.priority }).taskUnblock ptr
      weakupLoop rest s

def taskWeakup (s : Sched) : Except Halt Sched := weakupLoop (s.lists .sleepList) s

def clockHandler (s : Sched) : Except Halt Sched := do
  let s ← s.taskWeakup
  let s := { s with jiffies := s.jiffies + 1 }
  let t ← s.get s.current
  assert "task->magic == ONIX_MAGIC" (t.magic == ONIX_MAGIC)
  let s := s.upd s.current fun t => { t with jiffies := s.jiffies, ticks := t.ticks - 1 }
  if t.ticks - 1 = 0 then s.schedule else .ok s

/-- `get_free_task`: the first slot without a PCB. -/
def getFreeTask (s : Sched) : Except Halt Slot :=
  match (List.finRange NR_TASKS).find? fun i => (s.pcb (.slot i)).isNone with
  | some i => .ok i
  | none => .error (.panic "No more PCBs\n")

/-- A task as `task_create` leaves it; the page was zeroed, so `ppid` is 0. -/
def newTask (pid : Slot) (priority : UInt32) : Task where
  node := none
  state := .ready
  priority := priority
  ticks := priority
  jiffies := 0
  pid := pid
  ppid := ⟨0, by decide⟩
  status := 0
  waitpid := 0
  magic := ONIX_MAGIC

def taskCreate (s : Sched) (priority : UInt32) : Except Halt (TaskRef × Sched) := do
  let i ← s.getFreeTask
  .ok (.slot i, s.setTask i (some (newTask i priority)))

/-- `task_setup`: the PCB under the boot stack holds whatever was in memory. -/
def taskSetup (garbage : Task) : Sched where
  pcb := fun r => match r with
    | .boot => some { garbage with magic := ONIX_MAGIC, ticks := 1, state := .running }
    | .slot _ => none
  lists := fun _ => []
  idle := .boot
  current := .boot
  jiffies := 0

def taskInit (garbage : Task) : Except Halt Sched := do
  let (idle, s) ← (taskSetup garbage).taskCreate 1
  let s := { s with idle := idle }
  let (_, s) ← s.taskCreate 5
  let (_, s) ← s.taskCreate 5
  .ok s

end Sched
end Onix
