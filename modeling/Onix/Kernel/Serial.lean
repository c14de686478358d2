import Onix.Kernel.Fifo
import Onix.Kernel.Mutex

/-! The two serial ports of serial.c, the interrupts by which bytes arrive and the tasks
that read them. The handler takes the entry of `serials` from the interrupt number,
and the numbers of the two ports are not in the order of the entries. -/

set_option autoImplicit false

namespace Onix

open Lib

def IRQ_SERIAL_2 : UInt32 := 3
def IRQ_SERIAL_1 : UInt32 := 4
def COM1_IOBASE : UInt16 := 0x3F8
def COM2_IOBASE : UInt16 := 0x2F8
def LSR_DR : UInt8 := 0x1
def LSR_THRE : UInt8 := 0x20
def BUF_LEN : ℕ := 64

/-- `serial_t`; of the writer's half only `tx_waiter`, which the handler looks at. -/
structure Serial (T : Type) where
  iobase : UInt16
  rxFifo : Fifo
  rlock : LockState T
  rxWaiter : Option T
  txWaiter : Option T

/-- Where a task is. -/
inductive SerialPc
  | idle
  /-- In the `reentrant_lock` of `serial_read`. -/
  | locking (p : ℤ) (count : ℕ)
  /-- In the `task_block` of `serial_read`, with the bytes read so far and the number still to read. -/
  | reading (p : ℤ) (buf : List UInt8) (left : ℕ)
  /-- In the `reentrant_unlock`. -/
  | yielding (p : ℤ) (buf : List UInt8)

/-- `serials[i]` for every index, so that an index outside the array lands in the memory beside it, with the tasks.
The last three fields are a record: what arrived on each port, what each finished `serial_read` put
in its buffer, and the entries the handler worked on. -/
structure Serials (T : Type) where
  serials : ℤ → Serial T
  blocked : T → Bool
  call : T → SerialPc
  arrived : ℤ → List UInt8
  served : ℤ → List (List UInt8)
  touched : List ℤ

inductive SerialEvent (T : Type)
  /-- An interrupt, with the line status and the data that the ports show the handler. -/
  | interrupt (vector : UInt32) (state : UInt8) (ch : UInt8)
  | read (t : T) (p : ℤ) (count : ℕ)
  /-- The loop of `mutex_lock` goes round again. -/
  | retry (t : T)
  /-- `task_block` returns. -/
  | wake (t : T)
  | resume (t : T)

namespace Serials

variable {T : Type} [DecidableEq T]

def setSerial (s : Serials T) (i : ℤ) (serial : Serial T) : Serials T :=
  { s with serials := Function.update s.serials i serial }

def setCall (s : Serials T) (t : T) (c : SerialPc) : Serials T := { s with call := Function.update s.call t c }

def taskBlock (s : Serials T) (t : T) : Except Halt (Serials T) := do
  assert "task->node.next == NULL" (!s.blocked t)
  .ok { s with blocked := Function.update s.blocked t true }

def taskUnblock (s : Serials T) (t : T) : Except Halt (Serials T) := do
  assert "node->prev != NULL" (s.blocked t)
  .ok { s with blocked := Function.update s.blocked t false }

/-- A carriage return is kept as a newline. -/
def translate (ch : UInt8) : UInt8 := if ch = 13 then 10 else ch

def recvData (s : Serials T) (i : ℤ) (ch : UInt8) : Except Halt (Serials T) := do
  let serial := s.serials i
  let fifo ← serial.rxFifo.fifoPut (translate ch)
  match serial.rxWaiter with
  | some w =>
    let s ← (s.setSerial i { serial with rxFifo := fifo }).taskUnblock w
    .ok (s.setSerial i { serial with rxFifo := fifo, rxWaiter := none })
  | none => .ok (s.setSerial i { serial with rxFifo := fifo })

/-- `irq - IRQ_SERIAL_1` as an index: the address wraps at 2^32. -/
def entry (vector : UInt32) : ℤ := (vector - 0x20 - IRQ_SERIAL_1).toInt32.toInt

/-- The end of `serial_handler`: a writer that waits is woken. -/
def wakeWriter (s : Serials T) (i : ℤ) (state : UInt8) : Except Halt (Serials T) :=
  match (s.serials i).txWaiter with
  | some w =>
    if state &&& LSR_THRE ≠ 0 then do
      let s ← s.taskUnblock w
      .ok (s.setSerial i { s.serials i with txWaiter := none })
    else .ok s
  | none => .ok s

def serialHandler (s : Serials T) (vector : UInt32) (state ch : UInt8) : Except Halt (Serials T) := do
  let irq := vector - 0x20
  assert "irq == IRQ_SERIAL_1 || irq == IRQ_SERIAL_2" (irq == IRQ_SERIAL_1 || irq == IRQ_SERIAL_2)
  let i := entry vector
  let s ← if state &&& LSR_DR ≠ 0 then s.recvData i ch else .ok s
  s.wakeWriter i state

/-- The end of `serial_read`. -/
def finish (s : Serials T) (t : T) (p : ℤ) (buf : List UInt8) : Except Halt (Serials T) := do
  let rlock ← (s.serials p).rlock.reentrantUnlock t
  let s := { s with served := Function.update s.served p (s.served p ++ [buf]) }
  let s := s.setSerial p { s.serials p with rlock := rlock }
  .ok (s.setCall t (if rlock.pc t = .yielding then .yielding p buf else .idle))

/-- The loop of `serial_read`. -/
def readLoop (t : T) (p : ℤ) : ℕ → List UInt8 → Serials T → Except Halt (Serials T)
  | 0, buf, s => s.finish t p buf
  | left + 1, buf, s =>
    let serial := s.serials p
    if serial.rxFifo.fifoEmpty then do
      assert "serial->rx_waiter == NULL" serial.rxWaiter.isNone
      let s ← (s.setSerial p { serial with rxWaiter := some t }).taskBlock t
      .ok (s.setCall t (.reading p buf (left + 1)))
    else do
      let (byte, fifo) ← serial.rxFifo.fifoGet
      readLoop t p left (buf ++ [byte]) (s.setSerial p { serial with rxFifo := fifo })

/-- `serial_read` from the return of a round of `mutex_lock` on. -/
def locked (s : Serials T) (t : T) (p : ℤ) (count : ℕ) (rlock : LockState T) : Except Halt (Serials T) :=
  let s := s.setSerial p { s.serials p with rlock := rlock }
  if rlock.pc t = .locking then .ok (s.setCall t (.locking p count)) else readLoop t p count [] s

def serialRead (s : Serials T) (t : T) (p : ℤ) (count : ℕ) : Except Halt (Serials T) := do
  let rlock ← (s.serials p).rlock.reentrantLock t
  s.locked t p count rlock

/-- The port whose line an interrupt comes from. -/
def source (vector : UInt32) : ℤ := if vector - 0x20 = IRQ_SERIAL_1 then 0 else 1

/-- The record of an interrupt. -/
def note (s : Serials T) (vector : UInt32) (state ch : UInt8) : Serials T :=
  let s := { s with touched := s.touched ++ [entry vector] }
  if state &&& LSR_DR ≠ 0 then
    { s with arrived := Function.update s.arrived (source vector) (s.arrived (source vector) ++ [translate ch]) }
  else s

def exec (s : Serials T) : SerialEvent T → Except Halt (Serials T)
  | .interrupt vector state ch => (s.note vector state ch).serialHandler vector state ch
  | .read t p count => s.serialRead t p count
  | .retry t =>
    match s.call t with
    | .locking p count => do
      let rlock ← (s.serials p).rlock.mutexLock t
      s.locked t p count rlock
    | _ => .ok s
  | .wake t =>
    match s.call t with
    | .reading p buf left => readLoop t p left buf s
    | _ => .ok s
  | .resume t =>
    match s.call t with
    | .yielding p _ =>
      .ok ((s.setSerial p { s.serials p with rlock := (s.serials p).rlock.goto t .idle }).setCall t .idle)
    | _ => .ok s

/-- The handler is installed for the two vectors, the entries 0 and 1 are devices, and a blocked task makes no step. -/
def Enabled (s : Serials T) : SerialEvent T → Prop
  | .interrupt vector _ _ => vector = 0x20 + IRQ_SERIAL_1 ∨ vector = 0x20 + IRQ_SERIAL_2
  | .read t p _ => s.call t = .idle ∧ (p = 0 ∨ p = 1)
  | .retry t => ∃ p count, s.call t = .locking p count ∧ t ∉ (s.serials p).rlock.waiters
  | .wake t => s.blocked t = false ∧ ∃ p buf left, s.call t = .reading p buf left
  | .resume t => ∃ p buf, s.call t = .yielding p buf

def Step (s : Serials T) (e : SerialEvent T) (s' : Serials T) : Prop := s.Enabled e ∧ s.exec e = .ok s'

/-- At most 63 bytes are unread. -/
def Room (s : Serials T) : SerialEvent T → Prop
  | .interrupt vector state _ => state &&& LSR_DR ≠ 0 → (s.serials (source vector)).rxFifo.size < 63
  | _ => True

/-- After `serial_init`, whatever lies beside the array. -/
structure Init (s : Serials T) : Prop where
  fifo : ∀ p, p = 0 ∨ p = 1 → ∃ buf, (s.serials p).rxFifo = Fifo.fifoInit buf BUF_LEN
  rlock : ∀ p, p = 0 ∨ p = 1 → LockState.Init (s.serials p).rlock
  waiters : ∀ p, p = 0 ∨ p = 1 → (s.serials p).rxWaiter = none ∧ (s.serials p).txWaiter = none
  blocked : ∀ t, s.blocked t = false
  call : ∀ t, s.call t = .idle
  arrived : ∀ p, s.arrived p = []
  served : ∀ p, s.served p = []
  touched : s.touched = []

/-! ### What the ports promise -/

/-- The bytes that arrived on a port are those that its reads have returned, those that the read in progress has
taken, and its queue; and the handler worked on the two entries only. -/
structure Delivers (s : Serials T) : Prop where
  reading : ∀ p, p = 0 ∨ p = 1 → ∀ t buf left, s.call t = .reading p buf left →
    s.arrived p = (s.served p).flatten ++ buf ++ (s.serials p).rxFifo.bytes
  between : ∀ p, p = 0 ∨ p = 1 → (∀ t buf left, s.call t ≠ .reading p buf left) →
    s.arrived p = (s.served p).flatten ++ (s.serials p).rxFifo.bytes
  touched : ∀ i ∈ s.touched, i = 0 ∨ i = 1

end Serials

/-! ### The lock of a port -/

namespace LockState

variable {T : Type} [DecidableEq T] {s s' : LockState T}

/-- The other tasks are where they were. -/
structure Others {T : Type} (s s' : LockState T) (t : T) : Prop where
  pc : ∀ u, u ≠ t → s'.pc u = s.pc u
  depth : ∀ u, u ≠ t → s'.depth u = s.depth u

omit [DecidableEq T] in
/-- One task at a time is inside. -/
theorem Inv.one (h : Inv s) {t u : T} (ht : 0 < s.depth t) (hu : 0 < s.depth u) : t = u := by
  have h1 := (h.holder t).mpr ht
  have h2 := (h.holder u).mpr hu
  rw [h1] at h2
  exact Option.some.inj h2

theorem mutexLock_cases (h : Inv s) {t : T} (hw : t ∉ s.waiters) (hd : s.depth t = 0) :
    ∃ s', s.mutexLock t = .ok s' ∧ Inv s' ∧ Others s s' t ∧
      ((s'.pc t = .locking ∧ s'.depth t = 0) ∨ (s'.pc t = .idle ∧ s'.depth t = 1)) := by
  obtain ⟨s', hs', hi⟩ := (h.mutexLock hw hd fun _ => True).returns
  refine ⟨s', hs', hi, ?_⟩
  unfold mutexLock at hs'
  split_ifs at hs' with hv
  · obtain ⟨_, -, hs'⟩ := bind_ok.mp hs'
    cases hs'
    refine ⟨⟨fun u hu => Function.update_of_ne hu _ _, fun _ _ => rfl⟩, .inl ⟨Function.update_self .., hd⟩⟩
  · obtain ⟨_, -, hs'⟩ := bind_ok.mp hs'
    cases hs'
    refine ⟨⟨fun u hu => Function.update_of_ne hu _ _, fun u hu => Function.update_of_ne hu _ _⟩,
      .inr ⟨Function.update_self .., ?_⟩⟩
    change Function.update s.depth t (s.depth t + 1) t = 1
    rw [Function.update_self, hd]

theorem unlock_cases (h : Inv s) {t : T} (hpc : s.pc t = .idle) (hd : s.depth t = 1) :
    ∃ s', s.reentrantUnlock t = .ok s' ∧ Inv s' ∧ Others s s' t ∧ s'.depth t = 0 ∧
      (s'.pc t = .yielding ∨ s'.pc t = .idle) := by
  obtain ⟨s', hs', hi⟩ := (h.unlock hpc (by omega) fun _ => True).returns
  refine ⟨s', hs', hi, ?_⟩
  have hzero : Function.update s.depth t (s.depth t - 1) t = 0 := by
    rw [Function.update_self, hd]
  have hother : ∀ u, u ≠ t → Function.update s.depth t (s.depth t - 1) u = s.depth u :=
    fun u hu => Function.update_of_ne hu _ _
  obtain ⟨_, -, hs'⟩ := bind_ok.mp hs'
  dsimp only at hs'
  split_ifs at hs'
  · obtain ⟨_, -, hs'⟩ := bind_ok.mp hs'
    dsimp only at hs'
    split_ifs at hs' <;> cases hs'
    · exact ⟨⟨fun _ _ => rfl, hother⟩, hzero, .inr hpc⟩
    · exact ⟨⟨fun u hu => Function.update_of_ne hu _ _, hother⟩, hzero, .inl (Function.update_self ..)⟩
  · cases hs'
    exact ⟨⟨fun _ _ => rfl, hother⟩, hzero, .inr hpc⟩

end LockState

namespace Serials

variable {T : Type} [DecidableEq T] {s s' : Serials T}

/-- The port that a call is about. -/
def portOf : SerialPc → Option ℤ
  | .idle => none
  | .locking p _ | .reading p _ _ | .yielding p _ => some p

/-- Port `p` with the calls of the tasks, as the invariant has it. -/
structure PortInv (s : Serials T) (p : ℤ) : Prop where
  ok : (s.serials p).rxFifo.Ok
  length : (s.serials p).rxFifo.length = BUF_LEN
  lock : (s.serials p).rlock.Inv
  locking : ∀ t, (s.serials p).rlock.pc t = .locking ↔ ∃ count, s.call t = .locking p count
  yielding : ∀ t, (s.serials p).rlock.pc t = .yielding ↔ ∃ buf, s.call t = .yielding p buf
  holds : ∀ t buf left, s.call t = .reading p buf left → (s.serials p).rlock.depth t = 1
  free : ∀ t, (∀ buf left, s.call t ≠ .reading p buf left) → (s.serials p).rlock.depth t = 0
  waiter : ∀ t, (s.serials p).rxWaiter = some t → s.blocked t = true ∧ ∃ buf left, s.call t = .reading p buf left
  tx : (s.serials p).txWaiter = none
  reading : ∀ t buf left, s.call t = .reading p buf left →
    s.arrived p = (s.served p).flatten ++ buf ++ (s.serials p).rxFifo.bytes
  between : (∀ t buf left, s.call t ≠ .reading p buf left) →
    s.arrived p = (s.served p).flatten ++ (s.serials p).rxFifo.bytes

structure Inv (s : Serials T) : Prop where
  port : ∀ p, p = 0 ∨ p = 1 → PortInv s p
  blocked : ∀ t, s.blocked t = true → ∃ p buf left, s.call t = .reading p buf left
  calls : ∀ t p, portOf (s.call t) = some p → p = 0 ∨ p = 1
  touched : ∀ i ∈ s.touched, i = 0 ∨ i = 1

omit [DecidableEq T] in
theorem Inv.delivers (h : s.Inv) : Delivers s :=
  ⟨fun p hp => (h.port p hp).reading, fun p hp => (h.port p hp).between, h.touched⟩

/-- What is about another port does not matter. -/
structure Apart (s s' : Serials T) (q : ℤ) : Prop where
  serials : s'.serials q = s.serials q
  arrived : s'.arrived q = s.arrived q
  served : s'.served q = s.served q
  call : ∀ t, s'.call t = s.call t ∨ (portOf (s.call t) ≠ some q ∧ portOf (s'.call t) ≠ some q)
  blocked : ∀ t, portOf (s.call t) = some q → s'.blocked t = s.blocked t

omit [DecidableEq T] in
theorem Apart.call_iff {q : ℤ} (h : Apart s s' q) {t : T} {c : SerialPc} (hc : portOf c = some q) :
    s'.call t = c ↔ s.call t = c := by
  rcases h.call t with he | ⟨h1, h2⟩
  · rw [he]
  · constructor
    · intro he
      rw [he] at h2
      exact absurd hc h2
    · intro he
      rw [he] at h1
      exact absurd hc h1

omit [DecidableEq T] in
theorem PortInv.apart {q : ℤ} (h : PortInv s q) (ha : Apart s s' q) : PortInv s' q := by
  have hr : ∀ t buf left, s'.call t = .reading q buf left ↔ s.call t = .reading q buf left :=
    fun _ _ _ => ha.call_iff rfl
  have hl : ∀ t count, s'.call t = .locking q count ↔ s.call t = .locking q count := fun _ _ => ha.call_iff rfl
  have hy : ∀ t buf, s'.call t = .yielding q buf ↔ s.call t = .yielding q buf := fun _ _ => ha.call_iff rfl
  obtain ⟨h1, h2, h3, h4, h5, h6, h7, h8, h9, h10, h11⟩ := h
  constructor
  all_goals simp only [ha.serials, ha.arrived, ha.served, hr, hl, hy, ne_eq]
  · exact h1
  · exact h2
  · exact h3
  · exact h4
  · exact h5
  · exact h6
  · exact h7
  · intro t ht
    obtain ⟨hb, buf, left, hc⟩ := h8 t ht
    exact ⟨(ha.blocked t (by rw [hc]; rfl)).trans hb, buf, left, hc⟩
  · exact h9
  · exact h10
  · exact h11

omit [DecidableEq T] in
theorem inv_init (h : Init s) : Inv s := by
  have hr : ∀ t p buf left, s.call t ≠ .reading p buf left := by
    intro t p buf left hc
    rw [h.call t] at hc
    cases hc
  refine ⟨fun p hp => ?_, fun t ht => ?_, fun t p hc => ?_, by simp [h.touched]⟩
  · obtain ⟨buf, hf⟩ := h.fifo p hp
    obtain ⟨-, -, -, -, hpc, hdepth⟩ := h.rlock p hp
    have hbytes : (s.serials p).rxFifo.bytes = [] := by rw [hf, Fifo.fifoInit_bytes]
    refine ⟨?_, ?_, LockState.inv_init (h.rlock p hp), ?_, ?_, ?_, fun t _ => hdepth t, ?_, (h.waiters p hp).2, ?_, ?_⟩
    · rw [hf]
      exact Fifo.fifoInit_ok buf (by decide)
    · rw [hf]
      rfl
    · intro t
      simp [hpc t, h.call t]
    · intro t
      simp [hpc t, h.call t]
    · exact fun t buf left hc => absurd hc (hr t p buf left)
    · intro t ht
      rw [(h.waiters p hp).1] at ht
      cases ht
    · exact fun t buf left hc => absurd hc (hr t p buf left)
    · intro _
      rw [h.arrived, h.served, hbytes]
      rfl
  · rw [h.blocked t] at ht
    cases ht
  · rw [h.call t] at hc
    cases hc

/-! ### A task in its call -/

theorem calls_of_call {t : T} (h : s.Inv) {c : SerialPc} (hcall : s'.call = Function.update s.call t c)
    (hc : ∀ p, portOf c = some p → p = 0 ∨ p = 1) : ∀ u p, portOf (s'.call u) = some p → p = 0 ∨ p = 1 := by
  intro u p hu
  by_cases hut : u = t
  · rw [hcall, hut, Function.update_self] at hu
    exact hc p hu
  · rw [hcall, Function.update_of_ne hut] at hu
    exact h.calls u p hu

theorem port_of {p : ℤ} (hp : p = 0 ∨ p = 1) {c : SerialPc} (hc : portOf c = some p) :
    ∀ q, portOf c = some q → q = 0 ∨ q = 1 := by
  intro q hq
  rw [hc] at hq
  rwa [← Option.some.inj hq]

omit [DecidableEq T] in
@[simp] theorem setSerial_self (s : Serials T) (p : ℤ) (serial : Serial T) :
    (s.setSerial p serial).serials p = serial := by
  simp [setSerial]

omit [DecidableEq T] in
@[simp] theorem setSerial_call (s : Serials T) (p : ℤ) (serial : Serial T) : (s.setSerial p serial).call = s.call := rfl

omit [DecidableEq T] in
theorem setSerial_ne (s : Serials T) {p q : ℤ} (hq : q ≠ p) (serial : Serial T) :
    (s.setSerial p serial).serials q = s.serials q := by
  simp [setSerial, hq]

@[simp] theorem setCall_self (s : Serials T) (t : T) (c : SerialPc) : (s.setCall t c).call t = c := by simp [setCall]

theorem setCall_ne (s : Serials T) {t u : T} (hu : u ≠ t) (c : SerialPc) : (s.setCall t c).call u = s.call u := by
  simp [setCall, hu]

/-- Task `t` runs in the loop of `serial_read`, whatever its call says. -/
structure Running (s : Serials T) (t : T) (p : ℤ) (buf : List UInt8) (left : ℕ) : Prop where
  port : p = 0 ∨ p = 1
  inv : Inv (s.setCall t (.reading p buf left))
  awake : s.blocked t = false

omit [DecidableEq T] in
/-- One task reads from a port at a time. -/
theorem PortInv.one {p : ℤ} (h : PortInv s p) {t u : T} {buf buf' : List UInt8} {left left' : ℕ}
    (ht : s.call t = .reading p buf left) (hu : s.call u = .reading p buf' left') : t = u := by
  refine h.lock.one ?_ ?_
  · rw [h.holds t buf left ht]
    exact Nat.one_pos
  · rw [h.holds u buf' left' hu]
    exact Nat.one_pos

/-- The invariant of a port in whose loop `t` runs, from the parts that a round of the loop changes. -/
theorem PortInv.reader {p : ℤ} {t : T} {buf : List UInt8} {left : ℕ} (h : PortInv s p)
    (ht : s.call t = .reading p buf left)
    {buf' : List UInt8} {left' : ℕ} (hcall : s'.call = Function.update s.call t (.reading p buf' left'))
    (hlock : (s'.serials p).rlock = (s.serials p).rlock) (hok : (s'.serials p).rxFifo.Ok)
    (hlen : (s'.serials p).rxFifo.length = BUF_LEN) (htx : (s'.serials p).txWaiter = none)
    (hwait : ∀ w, (s'.serials p).rxWaiter = some w → w = t ∧ s'.blocked t = true)
    (hdata : s'.arrived p = (s'.served p).flatten ++ buf' ++ (s'.serials p).rxFifo.bytes) : PortInv s' p := by
  have hself : s'.call t = .reading p buf' left' := by rw [hcall, Function.update_self]
  have hne : ∀ u, u ≠ t → s'.call u = s.call u := fun u hu => by rw [hcall, Function.update_of_ne hu]
  have honly : ∀ u b l, s'.call u = .reading p b l → u = t ∧ b = buf' := by
    intro u b l hu
    by_cases hut : u = t
    · rw [hut, hself] at hu
      cases hu
      exact ⟨hut, rfl⟩
    · rw [hne u hut] at hu
      exact absurd (h.one hu ht) hut
  refine ⟨hok, hlen, hlock ▸ h.lock, fun u => ?_, fun u => ?_, fun u b l hu => ?_, fun u hu => ?_, fun w hw => ?_, htx,
    fun u b l hu => ?_, fun hall => absurd hself (hall t _ _)⟩
  · rw [hlock, h.locking u]
    by_cases hut : u = t
    · rw [hut, hself, ht]
      simp
    · rw [hne u hut]
  · rw [hlock, h.yielding u]
    by_cases hut : u = t
    · rw [hut, hself, ht]
      simp
    · rw [hne u hut]
  · rw [hlock, (honly u b l hu).1]
    exact h.holds t _ _ ht
  · rw [hlock]
    refine h.free u fun b l hc => ?_
    rw [h.one hc ht] at hu
    exact hu _ _ hself
  · obtain ⟨rfl, hb⟩ := hwait w hw
    exact ⟨hb, _, _, hself⟩
  · rw [(honly u b l hu).2]
    exact hdata

/-- The ports other than the one a call works on. -/
theorem apart_of_call {t : T} {p q : ℤ} (hq : q ≠ p) (hserials : s'.serials q = s.serials q)
    (harr : s'.arrived q = s.arrived q) (hserv : s'.served q = s.served q) {c : SerialPc}
    (hcall : s'.call = Function.update s.call t c) (hc : portOf c = none ∨ portOf c = some p)
    (ht : portOf (s.call t) = none ∨ portOf (s.call t) = some p) (hb : ∀ u, u ≠ t → s'.blocked u = s.blocked u) :
    Apart s s' q := by
  have hnot : ∀ o : Option ℤ, o = none ∨ o = some p → o ≠ some q := by
    rintro o (rfl | rfl) ho
    · cases ho
    · exact hq (Option.some.inj ho).symm
  refine ⟨hserials, harr, hserv, fun u => ?_, fun u hu => hb u ?_⟩
  · by_cases hut : u = t
    · rw [hut, hcall, Function.update_self]
      exact .inr ⟨hnot _ ht, hnot _ hc⟩
    · rw [hcall, Function.update_of_ne hut]
      exact .inl rfl
  · rintro rfl
    exact hnot _ ht hu

/-- No task waits on the port that `t` reads: it would be in the loop as well. -/
theorem Running.noWaiter {t : T} {p : ℤ} {buf : List UInt8} {left : ℕ} (h : Running s t p buf left) :
    (s.serials p).rxWaiter = none := by
  have hp := h.inv.port p h.port
  cases hw : (s.serials p).rxWaiter with
  | none => rfl
  | some w =>
    obtain ⟨hb, b', l', hc⟩ := hp.waiter w hw
    rw [hp.one hc (setCall_self ..)] at hb
    change s.blocked t = true at hb
    rw [h.awake] at hb
    cases hb

/-- A round that finds a byte. -/
theorem Running.take {t : T} {p : ℤ} {buf : List UInt8} {left : ℕ} (h : Running s t p buf (left + 1)) {b : UInt8}
    {fifo : Fifo} (hok : fifo.Ok) (hlen : fifo.length = (s.serials p).rxFifo.length)
    (hbytes : (s.serials p).rxFifo.bytes = b :: fifo.bytes) :
    Running (s.setSerial p { s.serials p with rxFifo := fifo }) t p (buf ++ [b]) left := by
  have hp := h.inv.port p h.port
  have hself : (s.setCall t (.reading p buf (left + 1))).call t = .reading p buf (left + 1) := setCall_self ..
  have hcall : ((s.setSerial p { s.serials p with rxFifo := fifo }).setCall t (.reading p (buf ++ [b]) left)).call =
      Function.update (s.setCall t (.reading p buf (left + 1))).call t (.reading p (buf ++ [b]) left) := by
    simp [setCall, setSerial]
  refine ⟨h.port, ⟨fun q hq => ?_, fun u hu => ?_, calls_of_call h.inv hcall (port_of h.port rfl), h.inv.touched⟩,
    h.awake⟩
  · by_cases hqp : q = p
    · subst hqp
      refine hp.reader hself hcall (by simp [setCall]) (by simpa [setCall] using hok) ?_ ?_ ?_ ?_
      · have := hp.length
        simpa [setCall, hlen] using this
      · simpa [setCall] using hp.tx
      · intro w hw
        have hw' : (s.serials q).rxWaiter = some w := by simpa [setCall] using hw
        rw [h.noWaiter] at hw'
        cases hw'
      · have := hp.reading t _ _ hself
        change s.arrived q = _ at this
        simp only [setCall, setSerial, Function.update_self]
        rw [this]
        simp [setCall, hbytes]
    · refine (h.inv.port q hq).apart (apart_of_call hqp ?_ rfl rfl hcall (.inr rfl) ?_ fun _ _ => rfl)
      · exact setSerial_ne s hqp _
      · rw [hself]
        exact .inr rfl
  · obtain ⟨q, b', l', hc⟩ := h.inv.blocked u hu
    have hut : u ≠ t := by
      rintro rfl
      change s.blocked u = true at hu
      rw [h.awake] at hu
      cases hu
    exact ⟨q, b', l', by rw [hcall, Function.update_of_ne hut]; exact hc⟩

/-- A round that finds the queue empty. -/
theorem Running.sleep {t : T} {p : ℤ} {buf : List UInt8} {left : ℕ} (h : Running s t p buf left) :
    (s.serials p).rxWaiter = none ∧
      Inv (({ s.setSerial p { s.serials p with rxWaiter := some t } with blocked := Function.update s.blocked t true
        }).setCall t
        (.reading p buf left)) := by
  have hp := h.inv.port p h.port
  have hself : (s.setCall t (.reading p buf left)).call t = .reading p buf left := setCall_self ..
  have hcall : (({ s.setSerial p { s.serials p with rxWaiter := some t } with
      blocked := Function.update s.blocked t true }).setCall t (.reading p buf left)).call =
      Function.update (s.setCall t (.reading p buf left)).call t (.reading p buf left) := by
    simp [setCall, setSerial]
  refine ⟨h.noWaiter, fun q hq => ?_, fun u hu => ?_, calls_of_call h.inv hcall (port_of h.port rfl), h.inv.touched⟩
  · by_cases hqp : q = p
    · subst hqp
      refine hp.reader hself hcall (by simp [setCall, setSerial]) (by simpa [setCall, setSerial] using hp.ok)
        (by simpa [setCall, setSerial] using hp.length) (by simpa [setCall, setSerial] using hp.tx) ?_
        (by simpa [setCall, setSerial] using hp.reading t _ _ hself)
      intro w hw
      have hwt : w = t := by simpa [setCall, setSerial, eq_comm] using hw
      exact ⟨hwt, by simp [setCall]⟩
    · refine (h.inv.port q hq).apart (apart_of_call hqp ?_ rfl rfl hcall (.inr rfl) ?_ fun u hu => ?_)
      · exact setSerial_ne s hqp _
      · rw [hself]
        exact .inr rfl
      · simp [setCall, hu]
  · by_cases hut : u = t
    · exact ⟨p, buf, left, by rw [hut]; exact setCall_self ..⟩
    · have hb : s.blocked u = true := by simpa [setCall, hut] using hu
      obtain ⟨q, b', l', hc⟩ := h.inv.blocked u hb
      rw [setCall_ne _ hut] at hc
      exact ⟨q, b', l', by rw [setCall_ne _ hut]; exact hc⟩

/-- The invariant of a port when `t`, which does not read from it afterwards, has moved its lock. -/
theorem PortInv.moved {p : ℤ} {t : T} (h : PortInv s p) {c : SerialPc} (hcall : s'.call = Function.update s.call t c)
    (hc : ∀ buf left, c ≠ .reading p buf left) (hlock : (s'.serials p).rlock.Inv)
    (hothers : LockState.Others (s.serials p).rlock (s'.serials p).rlock t) (hdepth : (s'.serials p).rlock.depth t = 0)
    (hlocking : (s'.serials p).rlock.pc t = .locking ↔ ∃ count, c = .locking p count)
    (hyielding : (s'.serials p).rlock.pc t = .yielding ↔ ∃ buf, c = .yielding p buf)
    (hfifo : (s'.serials p).rxFifo = (s.serials p).rxFifo) (htx : (s'.serials p).txWaiter = none)
    (hrx : (s'.serials p).rxWaiter = (s.serials p).rxWaiter) (hb : s'.blocked = s.blocked) (ht : s.blocked t = false)
    (hread : ∀ u buf left, u ≠ t → s.call u = .reading p buf left →
      s'.arrived p = (s'.served p).flatten ++ buf ++ (s.serials p).rxFifo.bytes)
    (hbetween : (∀ u buf left, u ≠ t → s.call u ≠ .reading p buf left) →
      s'.arrived p = (s'.served p).flatten ++ (s.serials p).rxFifo.bytes) : PortInv s' p := by
  have hself : s'.call t = c := by rw [hcall, Function.update_self]
  have hne : ∀ u, u ≠ t → s'.call u = s.call u := fun u hu => by rw [hcall, Function.update_of_ne hu]
  have hnt : ∀ u buf left, s'.call u = .reading p buf left → u ≠ t := by
    rintro u buf left hu rfl
    rw [hself] at hu
    exact hc _ _ hu
  refine ⟨hfifo ▸ h.ok, hfifo ▸ h.length, hlock, fun u => ?_, fun u => ?_, fun u b l hu => ?_, fun u hu => ?_,
    fun w hw => ?_,
    htx, fun u b l hu => ?_, fun hall => ?_⟩
  · by_cases hut : u = t
    · rw [hut, hself, hlocking]
    · rw [hne u hut, hothers.pc u hut, h.locking u]
  · by_cases hut : u = t
    · rw [hut, hself, hyielding]
    · rw [hne u hut, hothers.pc u hut, h.yielding u]
  · have hut := hnt u b l hu
    rw [hothers.depth u hut]
    rw [hne u hut] at hu
    exact h.holds u b l hu
  · by_cases hut : u = t
    · rw [hut, hdepth]
    · rw [hothers.depth u hut]
      apply h.free u
      rw [← hne u hut]
      exact hu
  · rw [hrx] at hw
    obtain ⟨hbw, b, l, hcw⟩ := h.waiter w hw
    have hwt : w ≠ t := by
      rintro rfl
      rw [ht] at hbw
      cases hbw
    exact ⟨hb ▸ hbw, b, l, (hne w hwt).trans hcw⟩
  · have hut := hnt u b l hu
    rw [hfifo]
    exact hread u b l hut (hne u hut ▸ hu)
  · rw [hfifo]
    exact hbetween fun u b l hut hu => hall u b l ((hne u hut).trans hu)

theorem blocked_of_call {t : T} (h : s.Inv) {c : SerialPc} (hcall : s'.call = Function.update s.call t c)
    (ht : s.blocked t = false) (hb : s'.blocked = s.blocked) :
    ∀ u, s'.blocked u = true → ∃ p buf left, s'.call u = .reading p buf left := by
  intro u hu
  rw [hb] at hu
  have hut : u ≠ t := by
    rintro rfl
    rw [ht] at hu
    cases hu
  obtain ⟨q, b, l, hc⟩ := h.blocked u hu
  exact ⟨q, b, l, by rw [hcall, Function.update_of_ne hut]; exact hc⟩

/-- `t` has taken the lock and enters the loop. -/
theorem PortInv.enters {p : ℤ} {t : T} (h : PortInv s p) (hnot : ∀ buf left, s.call t ≠ .reading p buf left)
    {rlock : LockState T} (hinv : rlock.Inv) (hothers : LockState.Others (s.serials p).rlock rlock t)
    (hpc : rlock.pc t = .idle) (hdepth : rlock.depth t = 1) {count : ℕ} :
    PortInv ((s.setSerial p { s.serials p with rlock := rlock }).setCall t (.reading p [] count)) p := by
  have hne : ∀ u, u ≠ t → ((s.setSerial p { s.serials p with rlock := rlock }).setCall t (.reading p [] count)).call u =
      s.call u := fun u hu => setCall_ne _ hu _
  have hlone : ∀ u buf left, s.call u ≠ .reading p buf left := by
    intro u buf left hu
    have hut : u ≠ t := by
      rintro rfl
      exact hnot _ _ hu
    have hdu : 0 < rlock.depth u := by
      rw [hothers.depth u hut, h.holds u _ _ hu]
      exact Nat.one_pos
    exact hut (hinv.one hdu (by omega))
  have honly : ∀ u b l, ((s.setSerial p { s.serials p with rlock := rlock }).setCall t (.reading p [] count)).call u =
      .reading p b l → u = t ∧ b = [] := by
    intro u b l hu
    by_cases hut : u = t
    · rw [hut, setCall_self] at hu
      cases hu
      exact ⟨hut, rfl⟩
    · rw [hne u hut] at hu
      exact absurd hu (hlone u b l)
  constructor
  all_goals simp only [show ∀ c, ((s.setSerial p { s.serials p with rlock := rlock }).setCall t c).serials p =
    { s.serials p with rlock := rlock } from fun c => setSerial_self ..]
  · exact h.ok
  · exact h.length
  · exact hinv
  · intro u
    by_cases hut : u = t
    · rw [hut, setCall_self, hpc]
      simp
    · rw [hne u hut, hothers.pc u hut, h.locking u]
  · intro u
    by_cases hut : u = t
    · rw [hut, setCall_self, hpc]
      simp
    · rw [hne u hut, hothers.pc u hut, h.yielding u]
  · intro u b l hu
    rw [(honly u b l hu).1, hdepth]
  · intro u hu
    have hut : u ≠ t := by
      rintro rfl
      exact hu _ _ (setCall_self ..)
    rw [hothers.depth u hut]
    exact h.free u (hlone u)
  · intro w hw
    obtain ⟨-, b, l, hc⟩ := h.waiter w hw
    exact absurd hc (hlone w b l)
  · exact h.tx
  · intro u b l hu
    rw [(honly u b l hu).2, List.append_nil]
    exact h.between hlone
  · exact fun hall => absurd (setCall_self ..) (hall t [] count)

theorem finish_spec {t : T} {p : ℤ} {buf : List UInt8} {left : ℕ} (h : Running s t p buf left) :
    ∃ s', s.finish t p buf = .ok s' ∧ Inv s' := by
  have hp := h.inv.port p h.port
  have hself : (s.setCall t (.reading p buf left)).call t = .reading p buf left := setCall_self ..
  have hpc : (s.serials p).rlock.pc t = .idle := by
    cases hpc : (s.serials p).rlock.pc t with
    | idle => rfl
    | locking =>
      obtain ⟨n, hn⟩ := (hp.locking t).mp hpc
      rw [hself] at hn
      cases hn
    | yielding =>
      obtain ⟨n, hn⟩ := (hp.yielding t).mp hpc
      rw [hself] at hn
      cases hn
  obtain ⟨rlock, hu, hinv, hothers, hdepth, hend⟩ := LockState.unlock_cases hp.lock hpc (hp.holds t _ _ hself)
  change (s.serials p).rlock.reentrantUnlock t = .ok rlock at hu
  refine ⟨_, by rw [finish, hu]; rfl, ?_⟩
  set c : SerialPc := if rlock.pc t = .yielding then .yielding p buf else .idle with hc
  have hport : portOf c = none ∨ portOf c = some p := by
    rw [hc]
    split_ifs
    · exact .inr rfl
    · exact .inl rfl
  have hcall : ∀ s₁ : Serials T, s₁.call = s.call →
      (s₁.setCall t c).call = Function.update (s.setCall t (.reading p buf left)).call t c := by
    intro s₁ h₁
    simp [setCall, h₁]
  refine ⟨fun q hq => ?_, ?_, calls_of_call h.inv (hcall _ rfl) fun q hq => ?_, h.inv.touched⟩
  rotate_right
  · rcases hport with he | he <;> rw [he] at hq
    · cases hq
    · rw [← Option.some.inj hq]
      exact h.port
  · by_cases hqp : q = p
    · subst hqp
      refine hp.moved (hcall _ rfl) ?_ (by simpa [setCall] using hinv) (by simpa [setCall] using hothers)
        (by simpa [setCall] using hdepth) ?_ ?_ (by simp [setCall]) (by simpa [setCall] using hp.tx)
          (by simp [setCall]) rfl
        h.awake ?_ ?_
      · intro b l he
        rw [hc] at he
        split_ifs at he
      · simp only [setCall, setSerial_self, hc]
        rcases hend with he | he <;> simp [he]
      · simp only [setCall, setSerial_self, hc]
        rcases hend with he | he <;> simp [he]
      · intro u b l hut hu'
        exact absurd (hp.one hu' hself) hut
      · intro _
        have := hp.reading t _ _ hself
        change s.arrived q = _ at this
        simp only [setCall, setSerial, Function.update_self]
        rw [this]
        simp [setCall]
    · refine (h.inv.port q hq).apart (apart_of_call hqp ?_ rfl ?_ (hcall _ rfl) hport ?_ fun _ _ => rfl)
      · exact setSerial_ne _ hqp _
      · exact Function.update_of_ne hqp _ _
      · rw [hself]
        exact .inr rfl
  · exact blocked_of_call h.inv (hcall _ rfl) h.awake rfl

theorem readLoop_spec {t : T} {p : ℤ} {buf : List UInt8} {left : ℕ} (h : Running s t p buf left) :
    ∃ s', readLoop t p left buf s = .ok s' ∧ Inv s' := by
  induction left generalizing buf s with
  | zero => exact finish_spec h
  | succ left ih =>
    have hok : (s.serials p).rxFifo.Ok := (h.inv.port p h.port).ok
    cases he : (s.serials p).rxFifo.fifoEmpty with
    | true =>
      obtain ⟨hw, hi⟩ := h.sleep
      refine ⟨_, ?_, hi⟩
      rw [readLoop]
      dsimp only
      rw [he, if_pos rfl, hw]
      simp [taskBlock, setSerial, h.awake]
    | false =>
      have hne : (s.serials p).rxFifo.size ≠ 0 := fun h0 => by
        rw [(Fifo.fifoEmpty_iff hok).mpr h0] at he
        cases he
      obtain ⟨n, hn⟩ := Nat.exists_eq_succ_of_ne_zero hne
      obtain ⟨b, fifo, hget, hok', hlen, hbytes⟩ := Fifo.fifoGet_spec hok hn
      obtain ⟨s', hs', hi⟩ := ih (h.take hok' hlen hbytes)
      refine ⟨s', ?_, hi⟩
      rw [readLoop]
      dsimp only
      rw [he, if_neg (by simp), hget]
      exact hs'

/-- A task that has left `mutex_lock` reads; one that has not waits for the lock. -/
theorem locked_spec (h : s.Inv) {t : T} {p : ℤ} (hp : p = 0 ∨ p = 1) {count : ℕ} (ht : s.blocked t = false)
    (hcall : s.call t = .idle ∨ ∃ n, s.call t = .locking p n) {rlock : LockState T} (hinv : rlock.Inv)
    (hothers : LockState.Others (s.serials p).rlock rlock t)
    (hcases : (rlock.pc t = .locking ∧ rlock.depth t = 0) ∨ (rlock.pc t = .idle ∧ rlock.depth t = 1)) :
    ∃ s', s.locked t p count rlock = .ok s' ∧ Inv s' := by
  have hport : portOf (s.call t) = none ∨ portOf (s.call t) = some p := by
    rcases hcall with he | ⟨n, he⟩
    · rw [he]
      exact .inl rfl
    · rw [he]
      exact .inr rfl
  have hnot : ∀ buf left, s.call t ≠ .reading p buf left := by
    intro buf left he
    rcases hcall with hc | ⟨n, hc⟩ <;> rw [hc] at he <;> cases he
  have hP := h.port p hp
  have hother : ∀ (c : SerialPc) q, q ≠ p → q = 0 ∨ q = 1 → portOf c = some p →
      PortInv ((s.setSerial p { s.serials p with rlock := rlock }).setCall t c) q := by
    intro c q hqp hq hc
    refine (h.port q hq).apart (apart_of_call hqp ?_ rfl rfl (t := t) (c := c) rfl (.inr hc) hport fun _ _ => rfl)
    exact setSerial_ne _ hqp _
  rcases hcases with ⟨hpc, hdepth⟩ | ⟨hpc, hdepth⟩
  · refine ⟨(s.setSerial p { s.serials p with rlock := rlock }).setCall t (.locking p count), if_pos hpc,
      fun q hq => ?_, ?_, calls_of_call h (t := t) rfl (port_of hp rfl), h.touched⟩
    · by_cases hqp : q = p
      · subst hqp
        refine hP.moved (t := t) (c := .locking q count) rfl ?_ (by simpa [setCall] using hinv)
          (by simpa [setCall] using hothers) (by simpa [setCall] using hdepth) ?_ ?_ (by simp [setCall])
          (by simpa [setCall] using hP.tx) (by simp [setCall]) rfl ht ?_ ?_
        · intro b l he
          cases he
        · simp [setCall, hpc]
        · simp [setCall, hpc]
        · exact fun u b l _ hu => hP.reading u b l hu
        · intro hb
          refine hP.between fun u b l hu => ?_
          by_cases hut : u = t
          · exact hnot b l (hut ▸ hu)
          · exact hb u b l hut hu
      · exact hother _ q hqp hq rfl
    · exact blocked_of_call h (t := t) rfl ht rfl
  · have hrun : Running (s.setSerial p { s.serials p with rlock := rlock }) t p [] count := by
      refine ⟨hp, ⟨fun q hq => ?_, ?_, calls_of_call h (t := t) rfl (port_of hp rfl), h.touched⟩, ht⟩
      · by_cases hqp : q = p
        · subst hqp
          exact hP.enters hnot hinv hothers hpc hdepth
        · exact hother _ q hqp hq rfl
      · -- a task that sleeps is another one, and sleeps where it did
        intro u hu
        have hut : u ≠ t := by
          rintro rfl
          change s.blocked u = true at hu
          rw [ht] at hu
          cases hu
        obtain ⟨q, b, l, hc⟩ := h.blocked u hu
        exact ⟨q, b, l, (setCall_ne _ hut _).trans hc⟩
    obtain ⟨s', hs', hi⟩ := readLoop_spec hrun
    refine ⟨s', ?_, hi⟩
    rw [locked]
    rw [if_neg (by simp [hpc])]
    exact hs'

omit [DecidableEq T] in
theorem awake_of_call (h : s.Inv) {t : T} (ht : ∀ p buf left, s.call t ≠ .reading p buf left) :
    s.blocked t = false := by
  cases hb : s.blocked t with
  | false => rfl
  | true =>
    obtain ⟨p, buf, left, hc⟩ := h.blocked t hb
    exact absurd hc (ht p buf left)

theorem read_spec (h : s.Inv) {t : T} {p : ℤ} {count : ℕ} (he : s.Enabled (.read t p count)) :
    ∃ s', s.exec (.read t p count) = .ok s' ∧ Inv s' := by
  obtain ⟨hcall, hp⟩ := he
  have hP := h.port p hp
  have hd : (s.serials p).rlock.depth t = 0 := hP.free t fun _ _ hc => by
    rw [hcall] at hc
    cases hc
  have hh : (s.serials p).rlock.holder ≠ some t := fun hh => by
    have := (hP.lock.holder t).mp hh
    omega
  have hw : t ∉ (s.serials p).rlock.waiters := fun hm => by
    obtain ⟨n, hn⟩ := (hP.locking t).mp (hP.lock.waiting t hm)
    rw [hcall] at hn
    cases hn
  obtain ⟨rlock, hl, hinv, hothers, hcases⟩ := LockState.mutexLock_cases hP.lock hw hd
  obtain ⟨s', hs', hi⟩ := locked_spec h hp (awake_of_call h fun _ _ _ hc => by rw [hcall] at hc; cases hc)
    (.inl hcall) hinv
    hothers hcases
  refine ⟨s', ?_, hi⟩
  change s.serialRead t p count = _
  rw [serialRead, LockState.reentrantLock, if_neg hh, hl]
  exact hs'

theorem retry_spec (h : s.Inv) {t : T} (he : s.Enabled (.retry t)) :
    ∃ s', s.exec (.retry t) = .ok s' ∧ Inv s' := by
  obtain ⟨p, count, hcall, hw⟩ := he
  have hp : p = 0 ∨ p = 1 := h.calls t p (by rw [hcall]; rfl)
  have hP := h.port p hp
  have hd : (s.serials p).rlock.depth t = 0 := hP.free t fun _ _ hc => by
    rw [hcall] at hc
    cases hc
  obtain ⟨rlock, hl, hinv, hothers, hcases⟩ := LockState.mutexLock_cases hP.lock hw hd
  obtain ⟨s', hs', hi⟩ := locked_spec h hp (awake_of_call h fun _ _ _ hc => by rw [hcall] at hc; cases hc)
    (.inr ⟨count, hcall⟩) hinv hothers hcases
  refine ⟨s', ?_, hi⟩
  rw [exec, hcall]
  dsimp only
  rw [hl]
  exact hs'

theorem wake_spec (h : s.Inv) {t : T} (he : s.Enabled (.wake t)) : ∃ s', s.exec (.wake t) = .ok s' ∧ Inv s' := by
  obtain ⟨hb, p, buf, left, hcall⟩ := he
  have hset : s.setCall t (.reading p buf left) = s := by
    rw [setCall, ← hcall, Function.update_eq_self]
  have hrun : Running s t p buf left := ⟨h.calls t p (by rw [hcall]; rfl), hset.symm ▸ h, hb⟩
  obtain ⟨s', hs', hi⟩ := readLoop_spec hrun
  refine ⟨s', ?_, hi⟩
  rw [exec, hcall]
  exact hs'

theorem resume_spec (h : s.Inv) {t : T} (he : s.Enabled (.resume t)) : ∃ s', s.exec (.resume t) = .ok s' ∧ Inv s' := by
  obtain ⟨p, buf, hcall⟩ := he
  have hp : p = 0 ∨ p = 1 := h.calls t p (by rw [hcall]; rfl)
  have hP := h.port p hp
  have hd : (s.serials p).rlock.depth t = 0 := hP.free t fun _ _ hc => by
    rw [hcall] at hc
    cases hc
  have ht := awake_of_call h (t := t) fun _ _ _ hc => by rw [hcall] at hc; cases hc
  have hinv : ((s.serials p).rlock.goto t .idle).Inv := by
    obtain ⟨l, hl, hi⟩ := (LockState.exec_spec hP.lock (e := .resume t) ((hP.yielding t).mpr ⟨buf, hcall⟩) trivial
      fun _ => True).returns
    cases hl
    exact hi
  refine ⟨(s.setSerial p { s.serials p with rlock := (s.serials p).rlock.goto t .idle }).setCall t .idle,
    by rw [exec, hcall], fun q hq => ?_, blocked_of_call h (t := t) rfl ht rfl,
    calls_of_call h (t := t) (c := .idle) rfl (fun _ hq => by cases hq), h.touched⟩
  by_cases hqp : q = p
  · subst hqp
    refine hP.moved (t := t) (c := .idle) rfl nofun (by simpa [setCall] using hinv) ?_
      (by simpa [setCall, LockState.goto] using hd) ?_ ?_ (by simp [setCall]) (by simpa [setCall] using hP.tx)
      (by simp [setCall]) rfl ht ?_ ?_
    · refine ⟨fun u hu => ?_, fun u _ => ?_⟩
      · simp [setCall, LockState.goto, hu]
      · simp [setCall, LockState.goto]
    · simp [setCall, LockState.goto]
    · simp [setCall, LockState.goto]
    · exact fun u b l _ hu => hP.reading u b l hu
    · intro hb
      refine hP.between fun u b l hu => ?_
      by_cases hut : u = t
      · rw [hut, hcall] at hu
        cases hu
      · exact hb u b l hut hu
  · refine (h.port q hq).apart (apart_of_call hqp ?_ rfl rfl (t := t) (c := .idle) rfl (.inl rfl) ?_ fun _ _ => rfl)
    · exact setSerial_ne _ hqp _
    · rw [hcall]
      exact .inr rfl

/-! ### The interrupt of the first port -/

/-- The interrupt is that of port 1, whose entry is the first. -/
def First : SerialEvent T → Prop
  | .interrupt vector _ _ => vector = 0x20 + IRQ_SERIAL_1
  | _ => True

/-- What `recv_data` does for the ports: the byte is queued, and a task that waits for it is woken. -/
theorem recvData_cases {p : ℤ} (h : PortInv s p) (ch : UInt8) (hroom : (s.serials p).rxFifo.size < 63) :
    ∃ fifo blocked, (∀ a l, ({ s with arrived := a, touched := l } : Serials T).recvData p ch =
        .ok { s.setSerial p { s.serials p with rxFifo := fifo, rxWaiter := none } with
          blocked := blocked, arrived := a, touched := l }) ∧ fifo.Ok ∧ fifo.length = BUF_LEN ∧
            fifo.bytes = (s.serials p).rxFifo.bytes ++ [translate ch] ∧
      (∀ t, blocked t = true → s.blocked t = true) ∧
      ∀ t, (∀ buf left, s.call t ≠ .reading p buf left) → blocked t = s.blocked t := by
  have hlen := h.length
  obtain ⟨fifo, hput, hok, hlen', hbytes⟩ := Fifo.fifoPut_spec h.ok (by rw [hlen]; unfold BUF_LEN; omega) (translate ch)
  cases hw : (s.serials p).rxWaiter with
  | none =>
    refine ⟨fifo, s.blocked, ?_, hok, hlen'.trans hlen, hbytes, fun _ hb => hb, fun _ _ => rfl⟩
    intro a l
    simp [recvData, hput, hw, setSerial]
  | some w =>
    obtain ⟨hb, buf, left, hc⟩ := h.waiter w hw
    refine ⟨fifo, Function.update s.blocked w false, ?_, hok, hlen'.trans hlen, hbytes, fun t ht => ?_, fun t ht => ?_⟩
    · intro a l
      simp [recvData, hput, hw, taskUnblock, setSerial, hb]
    · rw [Function.update_apply] at ht
      split_ifs at ht
      exact ht
    · refine Function.update_of_ne ?_ _ _
      rintro rfl
      exact ht buf left hc

omit [DecidableEq T] in
/-- The record of an arrival beside what `recv_data` did. -/
theorem Inv.arrival (h : s.Inv) {p : ℤ} (hp : p = 0 ∨ p = 1) {fifo : Fifo} {b : T → Bool} {byte : UInt8} (hok : fifo.Ok)
    (hlen : fifo.length = BUF_LEN) (hbytes : fifo.bytes = (s.serials p).rxFifo.bytes ++ [byte])
    (hb : ∀ t, b t = true → s.blocked t = true)
    (hsame : ∀ t, (∀ buf left, s.call t ≠ .reading p buf left) → b t = s.blocked t) (touched : List ℤ)
    (htouched : ∀ i ∈ touched, i = 0 ∨ i = 1) :
    Inv { s.setSerial p { s.serials p with rxFifo := fifo, rxWaiter := none } with
      blocked := b, arrived := Function.update s.arrived p (s.arrived p ++ [byte]), touched := touched } := by
  refine ⟨fun q hq => ?_, fun t ht => h.blocked t (hb t ht), h.calls, htouched⟩
  by_cases hqp : q = p
  · subst hqp
    have hP := h.port q hq
    refine ⟨by simpa using hok, by simpa using hlen, by simpa using hP.lock, by simpa using hP.locking,
      by simpa using hP.yielding, by simpa using hP.holds, by simpa using hP.free, by simp, by simpa using hP.tx, ?_,
        ?_⟩
    · intro t buf left hc
      simp [hbytes, hP.reading t buf left hc, setSerial]
    · intro hall
      simp [hbytes, hP.between hall, setSerial]
  · refine (h.port q hq).apart ⟨setSerial_ne _ hqp _, Function.update_of_ne hqp _ _, rfl, fun _ => .inl rfl,
      fun t ht => ?_⟩
    refine hsame t fun buf left hc => ?_
    rw [hc] at ht
    exact hqp (Option.some.inj ht).symm

theorem entry_first : entry (0x20 + IRQ_SERIAL_1) = 0 := by decide

theorem source_first : source (0x20 + IRQ_SERIAL_1) = 0 := by decide

theorem wakeWriter_none {i : ℤ} {state : UInt8} (h : (s.serials i).txWaiter = none) : s.wakeWriter i state = .ok s := by
  rw [wakeWriter, h]

theorem serialHandler_first (s : Serials T) (state ch : UInt8) : s.serialHandler (0x20 + IRQ_SERIAL_1) state ch =
    (if state &&& LSR_DR ≠ 0 then s.recvData 0 ch else .ok s) >>= fun s => s.wakeWriter 0 state := by
  split_ifs with h
  · exact if_pos h
  · exact if_neg h

/-- The handler for an interrupt of the first port. -/
theorem interrupt_spec (h : s.Inv) {state ch : UInt8} (hroom : s.Room (.interrupt (0x20 + IRQ_SERIAL_1) state ch)) :
    ∃ s', s.exec (.interrupt (0x20 + IRQ_SERIAL_1) state ch) = .ok s' ∧ Inv s' ∧
      (s'.serials 0).rxFifo.bytes = (s.serials 0).rxFifo.bytes ++
        (if state &&& LSR_DR ≠ 0 then [translate ch] else []) ∧
      ∀ q, q ≠ 0 → s'.serials q = s.serials q := by
  have htouched : ∀ i ∈ s.touched ++ [0], i = 0 ∨ i = 1 := by
    intro i hi
    rcases List.mem_append.mp hi with hi | hi
    · exact h.touched i hi
    · exact .inl (List.mem_singleton.mp hi)
  have htx : (s.serials 0).txWaiter = none := (h.port 0 (.inl rfl)).tx
  by_cases hd : state &&& LSR_DR ≠ 0
  · obtain ⟨fifo, b, hrecv, hok, hlen, hbytes, hb, hsame⟩ := recvData_cases (h.port 0 (.inl rfl)) ch (hroom hd)
    refine ⟨_, ?_, h.arrival (.inl rfl) hok hlen hbytes hb hsame _ htouched, ?_, fun q hq => setSerial_ne _ hq _⟩
    · rw [exec, serialHandler_first, if_pos hd, note, if_pos hd, source_first, entry_first]
      dsimp only
      rw [hrecv]
      exact wakeWriter_none (by simpa using htx)
    · rw [if_pos hd]
      simpa using hbytes
  · refine ⟨{ s with touched := s.touched ++ [0] }, ?_, ⟨fun q hq => ?_, h.blocked, h.calls, htouched⟩, ?_,
      fun q _ => rfl⟩
    · rw [exec, serialHandler_first, if_neg hd, note, if_neg hd, entry_first]
      exact wakeWriter_none htx
    · exact (h.port q hq).apart ⟨rfl, rfl, rfl, fun _ => .inl rfl, fun _ _ => rfl⟩
    · rw [if_neg hd, List.append_nil]

theorem exec_spec (h : s.Inv) {e : SerialEvent T} (he : s.Enabled e) (hroom : s.Room e) (hf : First e) :
    ∃ s', s.exec e = .ok s' ∧ Inv s' := by
  cases e with
  | interrupt vector state ch =>
    have hv : vector = 0x20 + IRQ_SERIAL_1 := hf
    subst hv
    obtain ⟨s', hs', hi, -⟩ := interrupt_spec h hroom
    exact ⟨s', hs', hi⟩
  | read t p count => exact read_spec h he
  | retry t => exact retry_spec h he
  | wake t => exact wake_spec h he
  | resume t => exact resume_spec h he

/-! ### Runs -/

/-- In a run without an interrupt of the second port the ports deliver, no step halts, and a byte that the handler
finds is appended to the queue of its port and to no other. -/
theorem serial_delivers {es : List (SerialEvent T)}
    (h : Run Init (Restrict (fun s e => s.Room e ∧ First e) Step) es s) :
    s.Delivers ∧ ∀ e, s.Enabled e → s.Room e → First e → ∃ s', s.exec e = .ok s' ∧ s'.Delivers ∧
      ∀ vector state ch, e = .interrupt vector state ch →
        (s'.serials (source vector)).rxFifo.bytes = (s.serials (source vector)).rxFifo.bytes ++
          (if state &&& LSR_DR ≠ 0 then [translate ch] else []) ∧
        ∀ q, q ≠ source vector → s'.serials q = s.serials q := by
  have hi : s.Inv := Run.invariant (I := Inv) (fun _ => inv_init) (fun s₁ e s₂ hi hs => by
    obtain ⟨s', hs', hi'⟩ := exec_spec hi hs.2.1 hs.1.1 hs.1.2
    rw [hs.2.2] at hs'
    rwa [Except.ok.inj hs']) es s h
  refine ⟨hi.delivers, fun e he hroom hf => ?_⟩
  obtain ⟨s', hs', hi'⟩ := exec_spec hi he hroom hf
  refine ⟨s', hs', hi'.delivers, ?_⟩
  rintro vector state ch rfl
  have hv : vector = 0x20 + IRQ_SERIAL_1 := hf
  subst hv
  obtain ⟨s₁, hs₁, -, hbytes, hother⟩ := interrupt_spec hi hroom
  rw [hs'] at hs₁
  cases hs₁
  exact ⟨hbytes, hother⟩

theorem entry_second : entry (0x20 + IRQ_SERIAL_2) = -1 := by decide

/-- `Enabled` for the replay of a run. -/
def ready (s : Serials T) : SerialEvent T → Bool
  | .interrupt vector _ _ => vector = 0x20 + IRQ_SERIAL_1 || vector = 0x20 + IRQ_SERIAL_2
  | .read t p _ => (portOf (s.call t)).isNone && (p = 0 || p = 1)
  | .retry t => match s.call t with
    | .locking p _ => t ∉ (s.serials p).rlock.waiters
    | _ => false
  | .wake t => match s.call t with
    | .reading _ _ _ => !s.blocked t
    | _ => false
  | .resume t => match s.call t with
    | .yielding _ _ => true
    | _ => false

theorem ready_enabled {e : SerialEvent T} (h : s.ready e = true) : s.Enabled e := by
  cases e with
  | interrupt vector state ch => simpa [ready, Enabled] using h
  | read t p count => cases hc : s.call t <;> simp_all [ready, Enabled, portOf]
  | retry t => cases hc : s.call t <;> simp_all [ready, Enabled]
  | wake t => cases hc : s.call t <;> simp_all [ready, Enabled]
  | resume t => cases hc : s.call t <;> simp_all [ready, Enabled]

def fits (s : Serials T) : SerialEvent T → Bool
  | .interrupt vector _ _ => (s.serials (source vector)).rxFifo.size < 63
  | _ => true

omit [DecidableEq T] in
theorem fits_room {e : SerialEvent T} (h : s.fits e = true) : s.Room e := by
  cases e with
  | interrupt vector state ch => exact fun _ => of_decide_eq_true h
  | read t p count => trivial
  | retry t => trivial
  | wake t => trivial
  | resume t => trivial

def isFirst : SerialEvent T → Bool
  | .interrupt vector _ _ => vector = 0x20 + IRQ_SERIAL_1
  | _ => true

omit [DecidableEq T] in
theorem isFirst_first {e : SerialEvent T} (h : isFirst e = true) : First e := by
  cases e with
  | interrupt vector state ch => simpa [isFirst, First] using h
  | read t p count => trivial
  | retry t => trivial
  | wake t => trivial
  | resume t => trivial

def attempt (s : Serials T) (e : SerialEvent T) : Option (SerialEvent T × Serials T) :=
  if s.ready e && s.fits e && isFirst e then
    match s.exec e with
    | .ok s' => some (e, s')
    | .error _ => none
  else none

theorem attempt_step {e e' : SerialEvent T} (h : s.attempt e = some (e', s')) :
    Restrict (fun s e => s.Room e ∧ First e) Step s e' s' := by
  unfold attempt at h
  split_ifs at h with hen
  simp only [Bool.and_eq_true] at hen
  split at h
  · rename_i s₁ he
    cases h
    exact ⟨⟨fits_room hen.1.2, isFirst_first hen.2⟩, ready_enabled hen.1.1, he⟩
  · cases h

/-- The ports after `serial_init`, with a third entry's worth of memory on either side. -/
def fresh : Serials ℕ :=
  { serials := fun p => ⟨if p = 0 then COM1_IOBASE else COM2_IOBASE, Fifo.fifoInit (fun _ => 0) BUF_LEN,
    LockState.freshLock,
      none, none⟩
    blocked := fun _ => false
    call := fun _ => .idle
    arrived := fun _ => []
    served := fun _ => []
    touched := [] }

theorem fresh_init : Init fresh :=
  ⟨fun _ _ => ⟨_, rfl⟩, fun _ _ => LockState.freshLock_init, fun _ _ => ⟨rfl, rfl⟩, fun _ => rfl, fun _ => rfl,
    fun _ => rfl,
    fun _ => rfl, rfl⟩

/-- Task 5 asks for two bytes and sleeps twice, task 6 waits for the lock and takes what is left. -/
def sharing : List (SerialEvent ℕ) :=
  [.read 5 0 2, .read 6 0 1, .interrupt 0x24 1 97, .wake 5, .interrupt 0x24 1 13, .interrupt 0x24 1 98, .wake 5,
    .retry 6,
    .resume 5]

theorem serial_delivers_sharing : ∃ es s, Run Init (Restrict (fun s e => s.Room e ∧ First e) Step) es s ∧
    s.served 0 = [[97, 10], [98]] ∧ Delivers (T := ℕ) s := by
  have hsome : ((replay attempt fresh sharing).map fun r => decide (r.2.served 0 = [[97, 10], [98]])) = some true := by
    decide +kernel
  obtain ⟨⟨es, s⟩, hes, hd⟩ := Option.map_eq_some_iff.mp hsome
  have hr : Run Init (Restrict (fun s e => s.Room e ∧ First e) Step) es s := by
    have hstep : ∀ (s : Serials ℕ) e e' s', attempt s e = some (e', s') →
        Restrict (fun s e => s.Room e ∧ First e) Step s e' s' := fun _ _ _ _ h => attempt_step h
    simpa using Run.replay hstep _ fresh [] es s (.nil fresh_init) hes
  exact ⟨es, s, hr, of_decide_eq_true hd, (serial_delivers hr).1⟩

theorem recvData_touched {i : ℤ} {ch : UInt8} (h : s.recvData i ch = .ok s') : s'.touched = s.touched := by
  obtain ⟨fifo, -, h⟩ := bind_ok.mp h
  split at h
  · obtain ⟨s₁, h₁, h⟩ := bind_ok.mp h
    obtain ⟨_, -, h₁⟩ := bind_ok.mp h₁
    cases h₁
    cases h
    rfl
  · cases h
    rfl

theorem wakeWriter_touched {i : ℤ} {state : UInt8} (h : s.wakeWriter i state = .ok s') : s'.touched = s.touched := by
  unfold wakeWriter at h
  split at h
  · split_ifs at h
    · obtain ⟨s₁, h₁, h⟩ := bind_ok.mp h
      obtain ⟨_, -, h₁⟩ := bind_ok.mp h₁
      cases h₁
      cases h
      rfl
    · cases h
      rfl
  · cases h
    rfl

theorem serialHandler_touched {vector : UInt32} {state ch : UInt8} (h : s.serialHandler vector state ch = .ok s') :
    s'.touched = s.touched := by
  obtain ⟨_, -, h⟩ := bind_ok.mp h
  dsimp only at h
  split_ifs at h
  · obtain ⟨s₁, h₁, h⟩ := bind_ok.mp h
    exact (wakeWriter_touched h).trans (recvData_touched h₁)
  · exact wakeWriter_touched h

/-- No interrupt of the second port is handled right. -/
theorem second_port {state ch : UInt8} (h : Step s (.interrupt (0x20 + IRQ_SERIAL_2) state ch) s') : ¬ s'.Delivers := by
  intro hd
  have hnote : (s.note (0x20 + IRQ_SERIAL_2) state ch).touched = s.touched ++ [-1] := by
    unfold note
    rw [entry_second]
    split_ifs <;> rfl
  have hm := hd.touched (-1) (by rw [serialHandler_touched h.2, hnote]; exact List.mem_append_right _ (by simp))
  omega

/-- The first interrupt of the second port goes to the memory before the array, and the byte to no queue. -/
theorem serial_second_lost : ¬ ∀ es (s : Serials ℕ), Run Init (Restrict Room Step) es s → s.Delivers := by
  intro hall
  obtain ⟨s', hs'⟩ : ∃ s', fresh.exec (.interrupt (0x20 + IRQ_SERIAL_2) 1 97) = .ok s' := ⟨_, rfl⟩
  have hstep : Step fresh (.interrupt (0x20 + IRQ_SERIAL_2) 1 97) s' := ⟨.inr rfl, hs'⟩
  have hroom : fresh.Room (.interrupt (0x20 + IRQ_SERIAL_2) 1 97) := fun _ => by decide
  exact second_port hstep (hall _ _ (.snoc (.nil fresh_init) ⟨hroom, hstep⟩))

end Serials

end Onix
