import Onix.Kernel.Keyboard

/-! The tasks that read from the keyboard. The queue, the lock and the waiting task of
keyboard.c are those of a serial port, so the driver is seen as the port whose line
carries the characters of the decoder, and what holds of that port holds here. -/

set_option autoImplicit false

namespace Onix

open Lib

/-- Where a task is in `keyboard_read`, as `SerialPc`. -/
inductive KeyboardPc
  | idle
  | locking (count : ℕ)
  | reading (buf : List UInt8) (left : ℕ)
  | yielding (buf : List UInt8)

/-- The variables of keyboard.c, with the tasks. The last three fields are a record: the scan codes of the interrupts,
the characters that were put in the queue, and what each finished `keyboard_read` has in its buffer. -/
structure Keyboard (T : Type) where
  keys : Keys
  fifo : Fifo
  lock : LockState T
  waiter : Option T
  blocked : T → Bool
  call : T → KeyboardPc
  received : List UInt8
  text : List UInt8
  served : List (List UInt8)

inductive KeyboardEvent (T : Type)
  | interrupt (vector : UInt32) (scancode : UInt8)
  | read (t : T) (count : ℕ)
  | retry (t : T)
  | wake (t : T)
  | resume (t : T)

namespace Keyboard

variable {T : Type} [DecidableEq T]

def setCall (s : Keyboard T) (t : T) (c : KeyboardPc) : Keyboard T := { s with call := Function.update s.call t c }

def taskBlock (s : Keyboard T) (t : T) : Except Halt (Keyboard T) := do
  assert "task->node.next == NULL" (!s.blocked t)
  .ok { s with blocked := Function.update s.blocked t true }

def taskUnblock (s : Keyboard T) (t : T) : Except Halt (Keyboard T) := do
  assert "node->prev != NULL" (s.blocked t)
  .ok { s with blocked := Function.update s.blocked t false }

/-- `keyboard_handler` from `fifo_put` on. -/
def putChar (s : Keyboard T) (ch : UInt8) : Except Halt (Keyboard T) := do
  let fifo ← s.fifo.fifoPut ch
  let s := { s with fifo := fifo, text := s.text ++ [ch] }
  match s.waiter with
  | some w => do
    let s ← s.taskUnblock w
    .ok { s with waiter := none }
  | none => .ok s

def keyboardHandler (s : Keyboard T) (vector : UInt32) (scancode : UInt8) : Except Halt (Keyboard T) := do
  assert "vector == 0x21" (vector == 0x21)
  let (keys, _, ch) := s.keys.decode scancode
  let s := { s with keys := keys, received := s.received ++ [scancode] }
  match ch with
  | some ch => s.putChar ch
  | none => .ok s

/-- The end of `keyboard_read`. -/
def finish (s : Keyboard T) (t : T) (buf : List UInt8) : Except Halt (Keyboard T) := do
  let lock ← s.lock.reentrantUnlock t
  let s := { s with lock := lock, served := s.served ++ [buf] }
  .ok (s.setCall t (if lock.pc t = .yielding then .yielding buf else .idle))

/-- The loops of `keyboard_read`. -/
def readLoop (t : T) : ℕ → List UInt8 → Keyboard T → Except Halt (Keyboard T)
  | 0, buf, s => s.finish t buf
  | left + 1, buf, s =>
    if s.fifo.fifoEmpty then do
      let s ← { s with waiter := some t }.taskBlock t
      .ok (s.setCall t (.reading buf (left + 1)))
    else do
      let (byte, fifo) ← s.fifo.fifoGet
      readLoop t left (buf ++ [byte]) { s with fifo := fifo }

/-- `keyboard_read` from the return of a round of `mutex_lock` on. -/
def locked (s : Keyboard T) (t : T) (count : ℕ) (lock : LockState T) : Except Halt (Keyboard T) :=
  let s := { s with lock := lock }
  if lock.pc t = .locking then .ok (s.setCall t (.locking count)) else readLoop t count [] s

def keyboardRead (s : Keyboard T) (t : T) (count : ℕ) : Except Halt (Keyboard T) := do
  let lock ← s.lock.reentrantLock t
  s.locked t count lock

def exec (s : Keyboard T) : KeyboardEvent T → Except Halt (Keyboard T)
  | .interrupt vector scancode => s.keyboardHandler vector scancode
  | .read t count => s.keyboardRead t count
  | .retry t =>
    match s.call t with
    | .locking count => do
      let lock ← s.lock.mutexLock t
      s.locked t count lock
    | _ => .ok s
  | .wake t =>
    match s.call t with
    | .reading buf left => readLoop t left buf s
    | _ => .ok s
  | .resume t =>
    match s.call t with
    | .yielding _ => .ok ({ s with lock := s.lock.goto t .idle }.setCall t .idle)
    | _ => .ok s

/-- The handler is installed for one vector, and a blocked task makes no step. -/
def Enabled (s : Keyboard T) : KeyboardEvent T → Prop
  | .interrupt vector _ => vector = 0x21
  | .read t _ => s.call t = .idle
  | .retry t => (∃ count, s.call t = .locking count) ∧ t ∉ s.lock.waiters
  | .wake t => s.blocked t = false ∧ ∃ buf left, s.call t = .reading buf left
  | .resume t => ∃ buf, s.call t = .yielding buf

def Step (s : Keyboard T) (e : KeyboardEvent T) (s' : Keyboard T) : Prop := s.Enabled e ∧ s.exec e = .ok s'

/-- At most 63 characters are unread. -/
def Room (s : Keyboard T) : KeyboardEvent T → Prop
  | .interrupt _ _ => s.fifo.size < 63
  | _ => True

/-- After `keyboard_init`. -/
structure Init (s : Keyboard T) : Prop where
  keys : s.keys = Keys.init
  fifo : ∃ buf, s.fifo = Fifo.fifoInit buf BUF_LEN
  lock : LockState.Init s.lock
  waiter : s.waiter = none
  blocked : ∀ t, s.blocked t = false
  call : ∀ t, s.call t = .idle
  received : s.received = []
  text : s.text = []
  served : s.served = []

/-! ### The keyboard as a serial port -/

def portPc : KeyboardPc → SerialPc
  | .idle => .idle
  | .locking count => .locking 0 count
  | .reading buf left => .reading 0 buf left
  | .yielding buf => .yielding 0 buf

/-- A port that nothing happens on. -/
def quiet : Serial T :=
  ⟨COM2_IOBASE, Fifo.fifoInit (fun _ => 0) BUF_LEN, ⟨false, [], none, 0, fun _ => .idle, fun _ => 0⟩, none, none⟩

def port (s : Keyboard T) : Serial T := ⟨COM1_IOBASE, s.fifo, s.lock, s.waiter, none⟩

/-- The two ports, the first of which is the keyboard. -/
def ports (s : Keyboard T) : Serials T where
  serials := Function.update (fun _ => quiet) 0 s.port
  blocked := s.blocked
  call := fun t => portPc (s.call t)
  arrived := Function.update (fun _ => []) 0 s.text
  served := Function.update (fun _ => []) 0 s.served
  touched := s.text.map fun _ => 0

variable {s s' : Keyboard T} {t : T}

omit [DecidableEq T] in
@[simp] theorem ports_port (s : Keyboard T) : s.ports.serials 0 = s.port := by
  simp only [ports, Function.update_self]

omit [DecidableEq T] in
theorem ports_setSerial (s : Keyboard T) (fifo : Fifo) (lock : LockState T) (waiter : Option T) :
    s.ports.setSerial 0 ⟨COM1_IOBASE, fifo, lock, waiter, none⟩ = ports { s with fifo := fifo, lock := lock, waiter := waiter } := by
  simp only [Serials.setSerial, ports, Function.update_idem, port]

theorem ports_setCall (s : Keyboard T) (t : T) (c : KeyboardPc) : s.ports.setCall t (portPc c) = (s.setCall t c).ports := by
  simp only [Serials.setCall, ports, setCall, Serials.mk.injEq, true_and, and_true]
  refine ⟨rfl, ?_⟩
  funext u
  by_cases hu : u = t
  · rw [hu, Function.update_self, Function.update_self]
  · rw [Function.update_of_ne hu, Function.update_of_ne hu]

theorem ports_taskBlock (s : Keyboard T) (t : T) : s.ports.taskBlock t = (s.taskBlock t).map ports := by
  unfold Serials.taskBlock taskBlock
  change (assert _ (!s.blocked t) >>= _) = _
  cases s.blocked t <;> rfl

theorem ports_taskUnblock (s : Keyboard T) (t : T) : s.ports.taskUnblock t = (s.taskUnblock t).map ports := by
  unfold Serials.taskUnblock taskUnblock
  change (assert _ (s.blocked t) >>= _) = _
  cases s.blocked t <;> rfl

theorem finish_ports {buf : List UInt8} : s.ports.finish t 0 buf = (s.finish t buf).map ports := by
  unfold Serials.finish finish
  rw [ports_port]
  change (s.lock.reentrantUnlock t >>= _) = _
  cases s.lock.reentrantUnlock t with
  | error e => rfl
  | ok lock =>
    simp only [ok_bind, Except.map]
    have hserved : Function.update s.ports.served 0 (s.ports.served 0 ++ [buf]) =
        Function.update (fun _ => []) 0 (s.served ++ [buf]) := by
      simp only [ports, Function.update_self, Function.update_idem]
    have hport : ({ s.ports with served := Function.update s.ports.served 0 (s.ports.served 0 ++ [buf]) } : Serials T) =
        ports { s with served := s.served ++ [buf] } := by
      rw [hserved]
      rfl
    rw [hport, ports_port]
    change Except.ok (((ports { s with served := s.served ++ [buf] }).setSerial 0
      ⟨COM1_IOBASE, s.fifo, lock, s.waiter, none⟩).setCall t _) = _
    rw [ports_setSerial, ← ports_setCall]
    congr 2
    split_ifs <;> rfl

/-- The loop does to the keyboard what `serial_read` does to the port, as long as the latter does not find another
task waiting. -/
theorem readLoop_ports {left : ℕ} {buf : List UInt8} {r : Serials T} (h : Serials.readLoop t 0 left buf s.ports = .ok r) :
    ∃ s', readLoop t left buf s = .ok s' ∧ s'.ports = r := by
  induction left generalizing s buf with
  | zero =>
    rw [Serials.readLoop, finish_ports] at h
    rw [readLoop]
    cases hf : s.finish t buf with
    | error e =>
      rw [hf] at h
      cases h
    | ok s' =>
      rw [hf] at h
      exact ⟨s', rfl, Except.ok.inj h⟩
  | succ left ih =>
    rw [Serials.readLoop] at h
    rw [readLoop]
    simp only [ports_port, port] at h
    by_cases he : s.fifo.fifoEmpty = true
    · rw [if_pos he] at h ⊢
      obtain ⟨-, -, h⟩ := bind_ok.mp h
      rw [ports_setSerial, ports_taskBlock] at h
      cases hb : taskBlock { s with waiter := some t } t with
      | error e =>
        rw [hb] at h
        cases h
      | ok s₁ =>
        rw [hb] at h
        exact ⟨_, rfl, Except.ok.inj ((congrArg Except.ok (ports_setCall ..)).symm.trans h)⟩
    · rw [if_neg he] at h ⊢
      cases hg : s.fifo.fifoGet with
      | error e =>
        rw [hg] at h
        cases h
      | ok x =>
        obtain ⟨byte, fifo⟩ := x
        rw [hg] at h
        simp only [ok_bind, ports_setSerial] at h ⊢
        exact ih h

theorem locked_ports {count : ℕ} {lock : LockState T} {r : Serials T} (h : s.ports.locked t 0 count lock = .ok r) :
    ∃ s', s.locked t count lock = .ok s' ∧ s'.ports = r := by
  unfold Serials.locked at h
  unfold locked
  simp only [ports_port, port, ports_setSerial] at h
  dsimp only
  split_ifs at h ⊢
  · exact ⟨_, rfl, Except.ok.inj ((congrArg Except.ok (ports_setCall ..)).symm.trans h)⟩
  · exact readLoop_ports h

/-- The line of the port carries the character. -/
def lineEvent (ch : UInt8) : SerialEvent T := .interrupt (0x20 + IRQ_SERIAL_1) LSR_DR ch

omit [DecidableEq T] in
theorem note_ports {ch : UInt8} (hch : ch ≠ 13) :
    s.ports.note (0x20 + IRQ_SERIAL_1) LSR_DR ch = ports { s with text := s.text ++ [ch] } := by
  unfold Serials.note
  rw [if_pos (by decide), Serials.source_first, Serials.entry_first, Serials.translate, if_neg hch]
  simp only [ports, Function.update_self, Function.update_idem, List.map_append, List.map_cons, List.map_nil]
  rfl

theorem putChar_ports {ch : UInt8} (hch : ch ≠ 13) : s.ports.exec (lineEvent ch) = (s.putChar ch).map ports := by
  rw [lineEvent, Serials.exec, Serials.serialHandler_first, if_pos (by decide), note_ports hch]
  unfold Serials.recvData putChar
  rw [ports_port, Serials.translate, if_neg hch]
  change ((s.fifo.fifoPut ch >>= _) >>= _) = _
  cases s.fifo.fifoPut ch with
  | error e => rfl
  | ok fifo =>
    simp only [ok_bind, port]
    cases hw : s.waiter with
    | none =>
      have hset := ports_setSerial { s with text := s.text ++ [ch] } fifo s.lock none
      simp only [hw] at hset ⊢
      rw [hset, ok_bind, Serials.wakeWriter_none (by simp [port])]
      rfl
    | some w =>
      have hset := ports_setSerial { s with text := s.text ++ [ch] } fifo s.lock (some w)
      simp only [hw] at hset ⊢
      rw [hset, ports_taskUnblock]
      cases hu : taskUnblock { s with fifo := fifo, lock := s.lock, waiter := some w, text := s.text ++ [ch] } w with
      | error e => rfl
      | ok s₁ =>
        obtain ⟨-, -, he⟩ := bind_ok.mp hu
        cases he
        simp only [Except.map, ok_bind, ports_setSerial]
        rw [Serials.wakeWriter_none (by simp [port])]

/-- No key types a carriage return. -/
theorem decode_ne_return {k : Keys} {b ch : UInt8} (h : (k.decode b).2.2 = some ch) : ch ≠ 13 := by
  have htable : ∀ x ∈ keymap, x.1 ≠ 13 ∧ x.2 ≠ 13 := by
    intro x hx
    have hall : keymap.all (fun x => x.1 != 13 && x.2 != 13) = true := rfl
    simpa using List.all_eq_true.mp hall x hx
  have hentry : ∀ code, (keymapAt code).1 ≠ 13 ∧ (keymapAt code).2 ≠ 13 := by
    intro code
    unfold keymapAt
    rw [List.getD_eq_getElem?_getD]
    cases hx : keymap[code.toNat]? with
    | none => decide
    | some x => exact htable x (List.mem_of_getElem? hx)
  have hchar : ∀ (k : Keys) ext code, k.charOf ext code ≠ 13 := by
    intro k ext code
    unfold Keys.charOf
    dsimp only
    split_ifs
    · exact (hentry code).2
    · exact (hentry code).2
    · exact (hentry code).1
  unfold Keys.decode at h
  dsimp only at h
  split_ifs at h <;> cases h
  all_goals exact hchar _ _ _

/-! ### Runs -/

/-- The queue is a port in order, and the text is what the decoder made of the scan codes. -/
structure Inv (s : Keyboard T) : Prop where
  ports : s.ports.Inv
  keys : s.keys = (Keys.typed s.received).1
  text : s.text = (Keys.typed s.received).2.2

omit [DecidableEq T] in
theorem inv_init (h : Init s) : s.Inv := by
  obtain ⟨buf, hfifo⟩ := h.fifo
  refine ⟨Serials.inv_init ⟨fun p hp => ?_, fun p hp => ?_, fun p hp => ?_, h.blocked, fun t => ?_, fun p => ?_, fun p => ?_, ?_⟩,
    ?_, ?_⟩
  · rcases hp with rfl | rfl
    · exact ⟨buf, by rw [ports_port]; exact hfifo⟩
    · exact ⟨fun _ => 0, rfl⟩
  · rcases hp with rfl | rfl
    · rw [ports_port]
      exact h.lock
    · exact ⟨rfl, rfl, rfl, rfl, fun _ => rfl, fun _ => rfl⟩
  · rcases hp with rfl | rfl
    · rw [ports_port]
      exact ⟨h.waiter, rfl⟩
    · exact ⟨rfl, rfl⟩
  · change portPc (s.call t) = _
    rw [h.call t]
    rfl
  · simp only [ports, h.text, Function.update_apply, ite_self]
  · simp only [ports, h.served, Function.update_apply, ite_self]
  · simp only [ports, h.text, List.map_nil]
  · rw [h.keys, h.received]
    rfl
  · rw [h.text, h.received]
    rfl

/-- The event of the port that a task's own event is. -/
def portEvent : KeyboardEvent T → SerialEvent T
  | .interrupt _ scancode => lineEvent scancode
  | .read t count => .read t 0 count
  | .retry t => .retry t
  | .wake t => .wake t
  | .resume t => .resume t

/-- A step of a task is the same step at the port. -/
theorem task_step (h : s.Inv) {e : KeyboardEvent T} (he : s.Enabled e) (hint : ∀ vector scancode, e ≠ .interrupt vector scancode) :
    ∃ s', s.exec e = .ok s' ∧ s.ports.exec (portEvent e) = .ok s'.ports ∧ s'.ports.Inv := by
  have henabled : s.ports.Enabled (portEvent e) := by
    cases e with
    | interrupt vector scancode => exact absurd rfl (hint _ _)
    | read t count => exact ⟨congrArg portPc he, .inl rfl⟩
    | retry t =>
      obtain ⟨⟨count, hc⟩, hw⟩ := he
      exact ⟨0, count, congrArg portPc hc, by rw [ports_port]; exact hw⟩
    | wake t =>
      obtain ⟨hb, buf, left, hc⟩ := he
      exact ⟨hb, 0, buf, left, congrArg portPc hc⟩
    | resume t =>
      obtain ⟨buf, hc⟩ := he
      exact ⟨0, buf, congrArg portPc hc⟩
  have hfirst : Serials.First (portEvent e) ∧ s.ports.Room (portEvent e) := by
    cases e with
    | interrupt vector scancode => exact absurd rfl (hint _ _)
    | read t count => exact ⟨trivial, trivial⟩
    | retry t => exact ⟨trivial, trivial⟩
    | wake t => exact ⟨trivial, trivial⟩
    | resume t => exact ⟨trivial, trivial⟩
  obtain ⟨r, hr, hinv⟩ := Serials.exec_spec h.ports henabled hfirst.2 hfirst.1
  suffices hs : ∃ s', s.exec e = .ok s' ∧ s'.ports = r by
    obtain ⟨s', hs', rfl⟩ := hs
    exact ⟨s', hs', hr, hinv⟩
  cases e with
  | interrupt vector scancode => exact absurd rfl (hint _ _)
  | read t count =>
    obtain ⟨lock, hlock, hr⟩ := bind_ok.mp (show s.ports.serialRead t 0 count = .ok r from hr)
    rw [ports_port] at hlock
    obtain ⟨s', hs', he⟩ := locked_ports hr
    exact ⟨s', bind_ok.mpr ⟨lock, hlock, hs'⟩, he⟩
  | retry t =>
    obtain ⟨⟨count, hc⟩, -⟩ := he
    have hport : s.ports.call t = .locking 0 count := congrArg portPc hc
    simp only [portEvent, Serials.exec, hport] at hr
    obtain ⟨lock, hlock, hr⟩ := bind_ok.mp hr
    rw [ports_port] at hlock
    obtain ⟨s', hs', he⟩ := locked_ports hr
    refine ⟨s', ?_, he⟩
    simp only [exec, hc]
    exact bind_ok.mpr ⟨lock, hlock, hs'⟩
  | wake t =>
    obtain ⟨-, buf, left, hc⟩ := he
    have hport : s.ports.call t = .reading 0 buf left := congrArg portPc hc
    simp only [portEvent, Serials.exec, hport] at hr
    simp only [exec, hc]
    exact readLoop_ports hr
  | resume t =>
    obtain ⟨buf, hc⟩ := he
    have hport : s.ports.call t = .yielding 0 buf := congrArg portPc hc
    simp only [portEvent, Serials.exec, hport, ports_port, port] at hr
    simp only [exec, hc]
    refine ⟨_, rfl, Except.ok.inj (Eq.trans (congrArg Except.ok ?_) hr)⟩
    rw [ports_setSerial]
    exact (ports_setCall _ t .idle).symm

/-- A step of a task says nothing about the decoder. -/
theorem readLoop_record {left : ℕ} {buf : List UInt8} (h : readLoop t left buf s = .ok s') :
    s'.keys = s.keys ∧ s'.received = s.received ∧ s'.text = s.text := by
  induction left generalizing s buf with
  | zero =>
    obtain ⟨lock, -, he⟩ := bind_ok.mp h
    cases he
    exact ⟨rfl, rfl, rfl⟩
  | succ left ih =>
    rw [readLoop] at h
    split_ifs at h
    · obtain ⟨s₁, hb, he⟩ := bind_ok.mp h
      obtain ⟨-, -, hb⟩ := bind_ok.mp hb
      cases hb
      cases he
      exact ⟨rfl, rfl, rfl⟩
    · obtain ⟨⟨byte, fifo⟩, -, h⟩ := bind_ok.mp h
      exact ih (s := { s with fifo := fifo }) h

theorem locked_record {count : ℕ} {lock : LockState T} (h : s.locked t count lock = .ok s') :
    s'.keys = s.keys ∧ s'.received = s.received ∧ s'.text = s.text := by
  unfold locked at h
  dsimp only at h
  split_ifs at h
  · cases h
    exact ⟨rfl, rfl, rfl⟩
  · exact readLoop_record (s := { s with lock := lock }) h

theorem task_record {e : KeyboardEvent T} (he : s.exec e = .ok s') (hint : ∀ vector scancode, e ≠ .interrupt vector scancode) :
    s'.keys = s.keys ∧ s'.received = s.received ∧ s'.text = s.text := by
  cases e with
  | interrupt vector scancode => exact absurd rfl (hint _ _)
  | read t count =>
    obtain ⟨lock, -, he⟩ := bind_ok.mp (show s.keyboardRead t count = .ok s' from he)
    exact locked_record he
  | retry t =>
    simp only [exec] at he
    split at he
    · obtain ⟨lock, -, he⟩ := bind_ok.mp he
      exact locked_record he
    · cases he
      exact ⟨rfl, rfl, rfl⟩
  | wake t =>
    simp only [exec] at he
    split at he
    · exact readLoop_record he
    · cases he
      exact ⟨rfl, rfl, rfl⟩
  | resume t =>
    simp only [exec] at he
    split at he
    · cases he
      exact ⟨rfl, rfl, rfl⟩
    · cases he
      exact ⟨rfl, rfl, rfl⟩

/-- An interrupt is a character at the port, or nothing. -/
theorem interrupt_step (h : s.Inv) {scancode : UInt8} (hroom : s.fifo.size < 63) :
    ∃ s', s.keyboardHandler 0x21 scancode = .ok s' ∧ s'.Inv ∧ s'.received = s.received ++ [scancode] := by
  have hsnoc := Keys.typed_snoc s.received scancode
  rw [← h.keys, ← h.text] at hsnoc
  unfold keyboardHandler
  rw [show ((0x21 : UInt32) == 0x21) = true from rfl, assert_true, ok_bind]
  cases hch : (s.keys.decode scancode).2.2 with
  | none =>
    simp only [hch]
    refine ⟨_, rfl, ⟨h.ports, ?_, ?_⟩, rfl⟩
    · rw [hsnoc]
    · rw [hsnoc, hch]
      exact (List.append_nil _).symm
  | some ch =>
    simp only [hch]
    have hroom' : s.ports.Room (lineEvent ch) := by
      intro _
      rw [Serials.source_first, ports_port]
      exact hroom
    have hport := putChar_ports (s := { s with keys := (s.keys.decode scancode).1, received := s.received ++ [scancode] })
      (decode_ne_return hch)
    obtain ⟨r, hr, hinv, -⟩ := Serials.interrupt_spec h.ports hroom'
    have hput := hport.symm.trans hr
    cases hs : putChar { s with keys := (s.keys.decode scancode).1, received := s.received ++ [scancode] } ch with
    | error e =>
      rw [hs] at hput
      cases hput
    | ok s' =>
      rw [hs] at hput
      cases hput
      refine ⟨s', rfl, ?_⟩
      have hrecord : s'.keys = (s.keys.decode scancode).1 ∧ s'.received = s.received ++ [scancode] ∧
          s'.text = s.text ++ [ch] := by
        obtain ⟨fifo, -, hs⟩ := bind_ok.mp hs
        dsimp only at hs
        split at hs
        · obtain ⟨s₁, hu, hs⟩ := bind_ok.mp hs
          obtain ⟨-, -, hu⟩ := bind_ok.mp hu
          cases hu
          cases hs
          exact ⟨rfl, rfl, rfl⟩
        · cases hs
          exact ⟨rfl, rfl, rfl⟩
      obtain ⟨h1, h2, h3⟩ := hrecord
      refine ⟨⟨hinv, ?_, ?_⟩, h2⟩
      · rw [h1, h2, hsnoc]
      · rw [h3, h2, hsnoc, hch]
        rfl

theorem exec_inv (h : s.Inv) {e : KeyboardEvent T} (he : s.Enabled e) (hroom : s.Room e) : ∃ s', s.exec e = .ok s' ∧ s'.Inv := by
  by_cases hint : ∃ vector scancode, e = .interrupt vector scancode
  · obtain ⟨vector, scancode, rfl⟩ := hint
    cases (show vector = 0x21 from he)
    obtain ⟨s', hs', hinv, -⟩ := interrupt_step h hroom
    exact ⟨s', hs', hinv⟩
  · push Not at hint
    obtain ⟨s', hs', -, hinv⟩ := task_step h he hint
    obtain ⟨h1, h2, h3⟩ := task_record hs' hint
    exact ⟨s', hs', hinv, by rw [h1, h2, h.keys], by rw [h3, h2, h.text]⟩

/-- With at most 63 characters unread the driver never halts, and the text that the scan codes spell is, in order, what the
finished reads returned, what the read in progress has taken, and what is in the queue. -/
theorem keyboard_delivers {es : List (KeyboardEvent T)} (h : Run Init (Restrict Room Step) es s) :
    (∀ t buf left, s.call t = .reading buf left →
      (Keys.strokes false s.received).inits.filterMap Keys.spell = s.served.flatten ++ buf ++ s.fifo.bytes) ∧
    ((∀ t buf left, s.call t ≠ .reading buf left) →
      (Keys.strokes false s.received).inits.filterMap Keys.spell = s.served.flatten ++ s.fifo.bytes) ∧
    ∀ e, s.Enabled e → s.Room e → ∃ s', s.exec e = .ok s' := by
  have hinv : s.Inv := Run.invariant (I := Inv) (fun _ => inv_init) (fun s₁ e s₂ hi hs => by
    obtain ⟨s', hs', hi'⟩ := exec_inv hi hs.2.1 hs.1
    rw [hs.2.2] at hs'
    rwa [Except.ok.inj hs']) es s h
  have htext : (Keys.strokes false s.received).inits.filterMap Keys.spell = s.text :=
    (Keys.typed_reads s.received).text.symm.trans hinv.text.symm
  have hport := hinv.ports.port 0 (.inl rfl)
  have harrived : s.ports.arrived 0 = s.text := by simp only [ports, Function.update_self]
  have hserved : s.ports.served 0 = s.served := by simp only [ports, Function.update_self]
  refine ⟨fun t buf left hc => ?_, fun hnone => ?_, fun e he hroom => ?_⟩
  · have := hport.reading t buf left (congrArg portPc hc)
    rwa [harrived, hserved, ports_port, ← htext] at this
  · have := hport.between fun t buf left hc => ?_
    · rwa [harrived, hserved, ports_port, ← htext] at this
    · cases hcall : s.call t with
      | reading buf' left' => exact hnone t buf' left' hcall
      | idle | locking _ | yielding _ =>
        have : portPc (s.call t) = _ := hc
        rw [hcall] at this
        cases this
  · obtain ⟨s', hs', -⟩ := exec_inv hinv he hroom
    exact ⟨s', hs'⟩

/-- `Enabled` and `Room` for the replay of a run. -/
def ready (s : Keyboard T) : KeyboardEvent T → Bool
  | .interrupt vector _ => vector = 0x21 && s.fifo.size < 63
  | .read t _ => match s.call t with
    | .idle => true
    | _ => false
  | .retry t => match s.call t with
    | .locking _ => t ∉ s.lock.waiters
    | _ => false
  | .wake t => match s.call t with
    | .reading _ _ => !s.blocked t
    | _ => false
  | .resume t => match s.call t with
    | .yielding _ => true
    | _ => false

theorem ready_enabled {e : KeyboardEvent T} (h : s.ready e = true) : s.Room e ∧ s.Enabled e := by
  cases e with
  | interrupt vector scancode => simpa [ready, Enabled, Room, and_comm] using h
  | read t count => cases hc : s.call t <;> simp_all [ready, Enabled, Room]
  | retry t => cases hc : s.call t <;> simp_all [ready, Enabled, Room]
  | wake t => cases hc : s.call t <;> simp_all [ready, Enabled, Room]
  | resume t => cases hc : s.call t <;> simp_all [ready, Enabled, Room]

def attempt (s : Keyboard T) (e : KeyboardEvent T) : Option (KeyboardEvent T × Keyboard T) :=
  if s.ready e then
    match s.exec e with
    | .ok s' => some (e, s')
    | .error _ => none
  else none

theorem attempt_step {e e' : KeyboardEvent T} (h : s.attempt e = some (e', s')) : Restrict Room Step s e' s' := by
  unfold attempt at h
  split_ifs at h with hready
  split at h
  · rename_i s₁ he
    cases h
    obtain ⟨hroom, henabled⟩ := ready_enabled hready
    exact ⟨hroom, henabled, he⟩
  · cases h

def freshKeyboard : Keyboard ℕ :=
  ⟨Keys.init, Fifo.fifoInit (fun _ => 0) BUF_LEN, LockState.freshLock, none, fun _ => false, fun _ => .idle, [], [], []⟩

theorem freshKeyboard_init : Init freshKeyboard :=
  ⟨rfl, ⟨_, rfl⟩, LockState.freshLock_init, rfl, fun _ => rfl, fun _ => rfl, rfl, rfl, rfl⟩

/-- Task 5 asks for two characters and task 6 for one; shift and h, h alone and an extended enter are typed. -/
def typing : List (KeyboardEvent ℕ) :=
  [.read 5 2, .read 6 1, .interrupt 0x21 0x2a, .interrupt 0x21 0x23, .wake 5, .interrupt 0x21 0xaa, .interrupt 0x21 0x23,
    .wake 5, .interrupt 0x21 0xe0, .interrupt 0x21 0x1c, .retry 6, .resume 5]

theorem keyboard_delivers_typing : ∃ (es : List (KeyboardEvent ℕ)) (s : Keyboard ℕ), Run Init (Restrict Room Step) es s ∧
    s.served = [[72, 104], [10]] ∧ ((∀ t buf left, s.call t ≠ .reading buf left) →
      (Keys.strokes false s.received).inits.filterMap Keys.spell = s.served.flatten ++ s.fifo.bytes) := by
  have hsome : ((replay attempt freshKeyboard typing).map fun r => decide (r.2.served = [[72, 104], [10]])) = some true := by
    decide +kernel
  obtain ⟨⟨es, s⟩, hes, hd⟩ := Option.map_eq_some_iff.mp hsome
  have hr : Run Init (Restrict Room Step) es s := by
    have hstep : ∀ (s : Keyboard ℕ) e e' s', attempt s e = some (e', s') → Restrict Room Step s e' s' :=
      fun _ _ _ _ h => attempt_step h
    simpa using Run.replay hstep _ freshKeyboard [] es s (.nil freshKeyboard_init) hes
  exact ⟨es, s, hr, of_decide_eq_true hd, (keyboard_delivers hr).2.1⟩

/-! ### A reader that sleeps is woken -/

/-- A task that sleeps in `keyboard_read` is the one the handler will wake, and there is nothing for it to read. -/
def Awaited (s : Keyboard T) : Prop := ∀ t, s.blocked t = true → s.waiter = some t ∧ s.fifo.fifoEmpty = true

omit [DecidableEq T] in
theorem awaited_of_awake (h : ∀ t, s.blocked t = false) : s.Awaited := by
  intro t ht
  rw [h t] at ht
  cases ht

theorem readLoop_awaited {left : ℕ} {buf : List UInt8} (hb : ∀ u, s.blocked u = false)
    (h : readLoop t left buf s = .ok s') : s'.Awaited := by
  induction left generalizing s buf with
  | zero =>
    obtain ⟨lock, -, he⟩ := bind_ok.mp h
    cases he
    exact awaited_of_awake hb
  | succ left ih =>
    rw [readLoop] at h
    by_cases hempty : s.fifo.fifoEmpty = true
    · rw [if_pos hempty] at h
      obtain ⟨s₁, hblock, he⟩ := bind_ok.mp h
      obtain ⟨-, -, hblock⟩ := bind_ok.mp hblock
      cases hblock
      cases he
      intro u hu
      have hut : u = t := by
        by_contra hne
        have : Function.update s.blocked t true u = true := hu
        rw [Function.update_of_ne hne, hb u] at this
        cases this
      exact ⟨congrArg some hut.symm, hempty⟩
    · rw [if_neg hempty] at h
      obtain ⟨⟨byte, fifo⟩, -, h⟩ := bind_ok.mp h
      exact ih (s := { s with fifo := fifo }) hb h

theorem locked_awaited {count : ℕ} {lock : LockState T} (ha : s.Awaited)
    (hb : lock.pc t ≠ .locking → ∀ u, s.blocked u = false) (h : s.locked t count lock = .ok s') : s'.Awaited := by
  unfold locked at h
  dsimp only at h
  split_ifs at h with hpc
  · cases h
    exact ha
  · exact readLoop_awaited (s := { s with lock := lock }) (hb hpc) h

omit [DecidableEq T] in
theorem Inv.lock (h : s.Inv) : s.lock.Inv := by
  have hlock := (h.ports.port 0 (.inl rfl)).lock
  rw [ports_port] at hlock
  exact hlock

omit [DecidableEq T] in
/-- A sleeping task holds the lock. -/
theorem Inv.sleeper (h : s.Inv) {u : T} (hu : s.blocked u = true) :
    (∃ buf left, s.call u = .reading buf left) ∧ s.lock.depth u = 1 := by
  obtain ⟨p, buf, left, hc⟩ := h.ports.blocked u hu
  have hread : s.call u = .reading buf left ∧ p = 0 := by
    have hc : portPc (s.call u) = _ := hc
    cases hcall : s.call u with
    | idle | locking _ | yielding _ =>
      rw [hcall] at hc
      cases hc
    | reading buf' left' =>
      rw [hcall] at hc
      cases hc
      exact ⟨rfl, rfl⟩
  have hport := h.ports.port 0 (.inl rfl)
  have hheld := hport.holds u buf left (congrArg portPc hread.1)
  rw [ports_port] at hheld
  exact ⟨⟨buf, left, hread.1⟩, hheld⟩

/-- Once a task that was not reading has the lock, nobody sleeps. -/
theorem Inv.enters (h : s.Inv) {lock : LockState T} (hcall : ∀ buf left, s.call t ≠ .reading buf left)
    (hw : t ∉ s.lock.waiters) (hd : s.lock.depth t = 0) (hl : s.lock.mutexLock t = .ok lock) (hpc : lock.pc t ≠ .locking) :
    ∀ u, s.blocked u = false := by
  intro u
  by_contra hu
  obtain ⟨⟨buf, left, hread⟩, hheld⟩ := h.sleeper (Bool.eq_true_of_not_eq_false hu)
  obtain ⟨lock', hl', hinv, hothers, hcases⟩ := LockState.mutexLock_cases h.lock hw hd
  cases hl.symm.trans hl'
  have hut : u ≠ t := by
    rintro rfl
    exact hcall buf left hread
  rcases hcases with ⟨hp, -⟩ | ⟨-, hone⟩
  · exact hpc hp
  · exact hut (hinv.one (by rw [hothers.depth u hut, hheld]; exact Nat.one_pos) (by rw [hone]; exact Nat.one_pos))

theorem putChar_awaited {ch : UInt8} (ha : s.Awaited) (h : s.putChar ch = .ok s') : s'.Awaited := by
  obtain ⟨fifo, -, h⟩ := bind_ok.mp h
  dsimp only at h
  split at h
  · rename_i w hw
    obtain ⟨s₁, hu, h⟩ := bind_ok.mp h
    obtain ⟨-, -, hu⟩ := bind_ok.mp hu
    cases hu
    cases h
    refine awaited_of_awake fun t => ?_
    change Function.update s.blocked w false t = false
    by_cases htw : t = w
    · rw [htw, Function.update_self]
    · rw [Function.update_of_ne htw]
      by_contra hb
      have := (ha t (Bool.eq_true_of_not_eq_false hb)).1
      rw [hw] at this
      exact htw (Option.some.inj this).symm
  · rename_i hw
    cases h
    refine awaited_of_awake fun t => ?_
    by_contra hb
    have := (ha t (Bool.eq_true_of_not_eq_false hb)).1
    rw [hw] at this
    cases this

theorem step_awaited (h : s.Inv) (ha : s.Awaited) {e : KeyboardEvent T} (he : s.Enabled e) (hs : s.exec e = .ok s') : s'.Awaited := by
  have hport := h.ports.port 0 (.inl rfl)
  have hlock := h.lock
  -- a task outside of the loop holds nothing
  have outside : ∀ t, (∀ buf left, s.call t ≠ .reading buf left) → s.lock.depth t = 0 := by
    intro t ht
    have hzero := hport.free t fun buf left hc => ?_
    · rwa [ports_port] at hzero
    · have hc : portPc (s.call t) = _ := hc
      cases hcall : s.call t with
      | idle | locking _ | yielding _ =>
        rw [hcall] at hc
        cases hc
      | reading buf' left' => exact ht buf' left' hcall
  cases e with
  | interrupt vector scancode =>
    obtain ⟨-, -, hs⟩ := bind_ok.mp (show s.keyboardHandler vector scancode = .ok s' from hs)
    dsimp only at hs
    split at hs
    · exact putChar_awaited (s := { s with keys := (s.keys.decode scancode).1, received := s.received ++ [scancode] }) ha hs
    · cases hs
      exact ha
  | read t count =>
    have hidle : s.call t = .idle := he
    have hcall : ∀ buf left, s.call t ≠ .reading buf left := by
      intro buf left hc
      rw [hidle] at hc
      cases hc
    have hd := outside t hcall
    have hw : t ∉ s.lock.waiters := by
      intro hm
      have hpc := (hport.locking t).mp (by rw [ports_port]; exact hlock.waiting t hm)
      obtain ⟨count', hc⟩ := hpc
      have hc : portPc (s.call t) = _ := hc
      rw [hidle] at hc
      cases hc
    obtain ⟨lock, hl, hs⟩ := bind_ok.mp (show s.keyboardRead t count = .ok s' from hs)
    have hh : s.lock.holder ≠ some t := by
      intro hh
      have := (hlock.holder t).mp hh
      omega
    rw [LockState.reentrantLock, if_neg hh] at hl
    exact locked_awaited ha (h.enters hcall hw hd hl) hs
  | retry t =>
    obtain ⟨⟨count, hc⟩, hw⟩ := he
    have hcall : ∀ buf left, s.call t ≠ .reading buf left := by
      intro buf left hc'
      rw [hc] at hc'
      cases hc'
    simp only [exec, hc] at hs
    obtain ⟨lock, hl, hs⟩ := bind_ok.mp hs
    exact locked_awaited ha (h.enters hcall hw (outside t hcall) hl) hs
  | wake t =>
    obtain ⟨hb, buf, left, hc⟩ := he
    simp only [exec, hc] at hs
    refine readLoop_awaited (fun u => ?_) hs
    by_contra hu
    have hu := Bool.eq_true_of_not_eq_false hu
    obtain ⟨-, hheld⟩ := h.sleeper hu
    have hmine := hport.holds t buf left (congrArg portPc hc)
    rw [ports_port] at hmine
    have hut : u = t := hlock.one (by rw [hheld]; exact Nat.one_pos) (by rw [show s.lock.depth t = 1 from hmine]; exact Nat.one_pos)
    rw [hut, hb] at hu
    cases hu
  | resume t =>
    obtain ⟨buf, hc⟩ := he
    simp only [exec, hc] at hs
    cases hs
    exact ha

/-- No wake-up is lost: as soon as there is a character in the queue no task sleeps for one. -/
theorem keyboard_wakes {es : List (KeyboardEvent T)} (h : Run Init (Restrict Room Step) es s) :
    s.fifo.bytes ≠ [] → ∀ t, s.blocked t = false := by
  have hinv : s.Inv ∧ s.Awaited := Run.invariant (I := fun s => Inv s ∧ Awaited s)
    (fun s hi => ⟨inv_init hi, awaited_of_awake hi.blocked⟩) (fun s₁ e s₂ hi hs => by
      obtain ⟨s', hs', hi'⟩ := exec_inv hi.1 hs.2.1 hs.1
      have ha := step_awaited hi.1 hi.2 hs.2.1 hs.2.2
      rw [hs.2.2] at hs'
      cases hs'
      exact ⟨hi', ha⟩) es s h
  intro hne t
  by_contra hb
  obtain ⟨-, hempty⟩ := hinv.2 t (Bool.eq_true_of_not_eq_false hb)
  have hok := (hinv.1.ports.port 0 (.inl rfl)).ok
  rw [ports_port] at hok
  refine hne (List.length_eq_zero_iff.mp ?_)
  rw [Fifo.length_bytes]
  exact (Fifo.fifoEmpty_iff hok).mp hempty

theorem keyboard_wakes_typing : ∃ s : Keyboard ℕ, s.fifo.bytes ≠ [] ∧ ∀ t, s.blocked t = false := by
  have hsome : ((replay attempt freshKeyboard (typing.take 4)).map fun r => decide (r.2.fifo.bytes = [72])) = some true := by
    decide +kernel
  obtain ⟨⟨es, s⟩, hes, hd⟩ := Option.map_eq_some_iff.mp hsome
  have hr : Run Init (Restrict Room Step) es s := by
    have hstep : ∀ (s : Keyboard ℕ) e e' s', attempt s e = some (e', s') → Restrict Room Step s e' s' :=
      fun _ _ _ _ h => attempt_step h
    simpa using Run.replay hstep _ freshKeyboard [] es s (.nil freshKeyboard_init) hes
  have hne : s.fifo.bytes ≠ [] := by
    rw [of_decide_eq_true hd]
    exact List.cons_ne_nil _ _
  exact ⟨s, hne, keyboard_wakes hr hne⟩

end Keyboard
end Onix
