import Onix.Kernel.Task

/-! Block devices and their request lists, from device.c. `device_request` can
be left at two points, in `task_block` while another request is served and inside
the driver, so it is cut there into the three functions `deviceRequest`,
`doRequest` and `finishRequest`; the phase of a task is where it stands. -/

set_option autoImplicit false

namespace Onix

abbrev DEVICE_NR : ℕ := 64

abbrev Dev := Fin DEVICE_NR

def NO_PARENT : Dev := 0

/-- `device_type_t` -/
inductive DevType
  | null | char | block
  deriving DecidableEq, Repr

inductive Direct
  | up | down
  deriving DecidableEq, Repr

def REQ_READ : UInt32 := 0
def REQ_WRITE : UInt32 := 1

/-- `device_t`; `sectorStart` is what its ioctl answers to DEV_CMD_SECTOR_START. -/
structure Device where
  type : DevType
  parent : Dev
  sectorStart : UInt32
  requestList : List ℕ
  direct : Direct
  deriving DecidableEq, Repr

/-- `request_t`, of a task of type `T`. -/
structure Request (T : Type) where
  dev : Dev
  type : UInt32
  idx : UInt32
  count : UInt32
  flags : ℤ
  buf : ℕ
  task : Option T
  deriving DecidableEq, Repr

/-- Where a task stands in `device_request`, with the locals `device` and `req`. -/
inductive Phase
  | outside
  | waiting (device : Dev) (req : ℕ)
  | working (device : Dev) (req : ℕ)
  deriving DecidableEq, Repr

/-- The device table and the tasks that use it. Requests are named by the
order of their `kmalloc`, so a freed one is never met again under its name. -/
structure Disks (T : Type) where
  devices : Dev → Device
  requests : ℕ → Option (Request T)
  fresh : ℕ
  phase : T → Phase
  /-- The node of the task is linked in a wait list. -/
  blocked : T → Bool

/-- What a task in `device_request` does to a request. -/
inductive DiskObs
  | submitted (req : ℕ)
  | executed (req : ℕ)
  | returned (req : ℕ)
  deriving DecidableEq, Repr

def DiskObs.about : DiskObs → ℕ
  | submitted req | executed req | returned req => req

namespace Disks

variable {T : Type} [DecidableEq T]

def deviceGet (s : Disks T) (dev : Dev) : Except Halt Device := do
  assert "device->type != DEV_NULL" ((s.devices dev).type ≠ .null)
  .ok (s.devices dev)

def setDevice (s : Disks T) (dev : Dev) (device : Device) : Disks T :=
  { s with devices := Function.update s.devices dev device }

def setPhase (s : Disks T) (t : T) (phase : Phase) : Disks T :=
  { s with phase := Function.update s.phase t phase }

/-- `task_block(running_task(), NULL, TASK_BLOCKED)` of task `t`. -/
def taskBlock (s : Disks T) (t : T) : Except Halt (Disks T) := do
  assert "task->node.next == NULL" (!s.blocked t)
  .ok { s with blocked := Function.update s.blocked t true }

def taskUnblock (s : Disks T) (t : T) : Except Halt (Disks T) := do
  assert "node->prev != NULL" (s.blocked t)
  .ok { s with blocked := Function.update s.blocked t false }

/-- `request_nextreq`: the elevator turns when there is nothing further on. -/
def requestNextreq (device : Device) (req : ℕ) : Option ℕ × Device :=
  let list := device.requestList
  let direct :=
    if device.direct = .up ∧ Lib.nextOf req list = none then .down
    else if device.direct = .down ∧ Lib.prevOf req list = none then .up
    else device.direct
  (if direct = .up then Lib.nextOf req list else Lib.prevOf req list,
    { device with direct := direct })

/-- The key `list_insert_sort` reads for a request: `idx` as a signed int. -/
def idxKey (requests : ℕ → Option (Request T)) (req : ℕ) : ℤ :=
  match requests req with
  | some r => r.idx.toInt32.toInt
  | none => 0

/-- A new request in the list of its disk. -/
def insertRequest (s : Disks T) (disk : Dev) (r : Request T) : Disks T :=
  let requests := Function.update s.requests s.fresh (some r)
  let device := s.devices disk
  { s.setDevice disk { device with
      requestList := Lib.insertBefore (idxKey requests) s.fresh device.requestList } with
    requests := requests
    fresh := s.fresh + 1 }

/-- The call of the driver. -/
def doRequest (s : Disks T) (t : T) (disk : Dev) (req : ℕ) : Except Halt (Disks T) :=
  match s.requests req with
  | none => .error .nullPointer
  | some r =>
    if r.type = REQ_READ ∨ r.type = REQ_WRITE then .ok (s.setPhase t (.working disk req))
    else .error (.panic "req type %d unknown!!!")

/-- `device_request` until it calls the driver or blocks. -/
def deviceRequest (s : Disks T) (t : T) (dev : Dev) (buf : ℕ) (count idx : UInt32) (flags : ℤ)
    (type : UInt32) : Except Halt (List DiskObs × Disks T) := do
  let device ← s.deviceGet dev
  assert "device->type == DEV_BLOCK" (device.type == .block)
  let offset := idx + device.sectorStart
  let disk ← if device.parent = NO_PARENT then .ok dev else
    (do let _ ← s.deviceGet device.parent
        .ok device.parent)
  let req := s.fresh
  let empty := (s.devices disk).requestList.isEmpty
  let r : Request T := { dev := disk, type, idx := offset, count, flags, buf, task := none }
  if empty then
    let s ← (s.insertRequest disk r).doRequest t disk req
    .ok ([.submitted req, .executed req], s)
  else
    let s := s.insertRequest disk { r with task := some t }
    let s ← (s.setPhase t (.waiting disk req)).taskBlock t
    .ok ([.submitted req], s)

/-- `device_request` behind the driver. -/
def finishRequest (s : Disks T) (t : T) (disk : Dev) (req : ℕ) : Except Halt (Disks T) := do
  let (nextreq, device) := requestNextreq (s.devices disk) req
  let s := s.setDevice disk { device with requestList := device.requestList.erase req }
  let s := { s with requests := Function.update s.requests req none }
  let s := s.setPhase t .outside
  match nextreq with
  | none => .ok s
  | some next =>
    match s.requests next with
    | none => .error .nullPointer
    | some r =>
      match r.task with
      -- `nextreq->task->magic` would be read through NULL
      | none => .error .nullPointer
      | some u => s.taskUnblock u

/-! ### The system -/

/-- `suspend` and `resume` are what happens to a task for other reasons: in the
driver, which waits for the controller and its interrupt, and elsewhere. -/
inductive Event (T : Type)
  | request (t : T) (dev : Dev) (buf : ℕ) (count idx : UInt32) (flags : ℤ) (type : UInt32)
  | perform (t : T)
  | finish (t : T)
  | suspend (t : T)
  | resume (t : T)
  deriving Repr

/-- `dev` can be handed to `device_request`: a disk, or a partition of one. -/
def Usable (s : Disks T) (dev : Dev) : Prop :=
  (s.devices dev).type = .block ∧
    ((s.devices dev).parent = NO_PARENT ∨ (s.devices (s.devices dev).parent).type ≠ .null)

/-- Only a task that is in no wait list runs, and only the one that blocked it
for another reason, not a third party, ends a wait outside `device_request`. -/
def Enabled (s : Disks T) : Event T → Prop
  | .request t dev _ _ _ _ type => s.phase t = .outside ∧ s.blocked t = false ∧ s.Usable dev ∧
      (type = REQ_READ ∨ type = REQ_WRITE)
  | .perform t => (∃ d r, s.phase t = .waiting d r) ∧ s.blocked t = false
  | .finish t => (∃ d r, s.phase t = .working d r) ∧ s.blocked t = false
  | .suspend t => (∀ d r, s.phase t ≠ .waiting d r) ∧ s.blocked t = false
  | .resume t => (∀ d r, s.phase t ≠ .waiting d r) ∧ s.blocked t = true

def exec (s : Disks T) : Event T → Except Halt (List DiskObs × Disks T)
  | .request t dev buf count idx flags type => s.deviceRequest t dev buf count idx flags type
  | .perform t =>
    match s.phase t with
    | .waiting disk req => do .ok ([.executed req], ← s.doRequest t disk req)
    | _ => .ok ([], s)
  | .finish t =>
    match s.phase t with
    | .working disk req => do .ok ([.returned req], ← s.finishRequest t disk req)
    | _ => .ok ([], s)
  | .suspend t => do .ok ([], ← s.taskBlock t)
  | .resume t => do .ok ([], ← s.taskUnblock t)

/-- After `device_init` and the installation of the devices. -/
def Init (s : Disks T) : Prop :=
  (∀ d, (s.devices d).requestList = []) ∧ (∀ t, s.phase t = .outside) ∧ s.fresh = 0

def Step (s : Disks T) (l : Event T × List DiskObs) (s' : Disks T) : Prop :=
  Enabled s l.1 ∧ s.exec l.1 = .ok (l.2, s')

end Disks
end Onix
