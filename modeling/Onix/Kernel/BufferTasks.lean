import Onix.Kernel.Buffer

/-! bread and brelease of buffer.c, by any number of tasks. A task runs until it waits for the
lock of a buffer, for a free buffer or for the device, or until `mutex_unlock` yields; then any
task that is ready goes on. What the blocks hold is left out. -/

set_option autoImplicit false

namespace Onix

open Lib

/-- `buffer_t` with its lock. -/
structure SharedBuffer (T : Type) where
  dev : Int32
  block : UInt32
  count : ℕ
  dirty : Bool
  valid : Bool
  value : Bool
  holder : Option T
  repeats : ℕ
  waiters : List T

/-- Where a task is. -/
inductive BufferPc
  | idle
  /-- In `mutex_lock`, for a buffer found in the hash table. -/
  | found (dev : Int32) (block : UInt32) (p : ℕ)
  /-- In the `task_block` of `get_free_buffer`. -/
  | waiting (dev : Int32) (block : UInt32)
  /-- In `mutex_lock`, for a free buffer. -/
  | fresh (dev : Int32) (block : UInt32) (p : ℕ)
  /-- In `device_request`. -/
  | reading (p : ℕ)
  /-- In the `task_yield` of `mutex_unlock`, before `bread` returns. -/
  | returning
  /-- In the `task_yield` of `mutex_unlock`, before `getagain`. -/
  | again (dev : Int32) (block : UInt32)
  /-- In the `bwrite` of `brelease`. -/
  | writing (p : ℕ)
  deriving DecidableEq

/-- A reference `bread` has counted: for whom, what it was asked for, and the buffer it returns. -/
structure BufferRef (T : Type) where
  task : T
  dev : Int32
  block : UInt32
  buf : ℕ
  deriving DecidableEq

/-- The buffers, `made` of them in use so far and `size` that fit the memory, the lists, and the tasks. -/
structure Buffers (T : Type) where
  bufs : ℕ → SharedBuffer T
  made : ℕ
  size : ℕ
  freeList : List ℕ
  waitList : List T
  hashTable : UInt32 → List ℕ
  pc : T → BufferPc
  refs : List (BufferRef T)

inductive BufferEvent (T : Type)
  | bread (t : T) (dev : Int32) (block : UInt32)
  /-- The loop of `mutex_lock` or of `get_free_buffer` goes round again. -/
  | wake (t : T)
  /-- `device_request` returns to `bread`. -/
  | device (t : T)
  | resume (t : T)
  /-- The user of a buffer marks it dirty. -/
  | touch (r : BufferRef T)
  | brelease (r : BufferRef T)
  /-- `bwrite` returns to `brelease`. -/
  | written (t : T)

namespace Buffers

variable {T : Type} [DecidableEq T]

def upd (s : Buffers T) (p : ℕ) (f : SharedBuffer T → SharedBuffer T) : Buffers T :=
  { s with bufs := Function.update s.bufs p (f (s.bufs p)) }

def goto (s : Buffers T) (t : T) (p : BufferPc) : Buffers T := { s with pc := Function.update s.pc t p }

def getFromHashTable (s : Buffers T) (dev : Int32) (block : UInt32) : Option ℕ :=
  (s.hashTable (Cache.hash dev block)).find? fun p => (s.bufs p).dev = dev && (s.bufs p).block = block

/-- One round of the loop of `get_free_buffer`. -/
def getFreeBuffer (s : Buffers T) : Option (ℕ × Buffers T) :=
  if s.made < s.size then
    some (s.made, { s.upd s.made fun _ => ⟨EOF, 0, 0, false, false, false, none, 0, []⟩ with made := s.made + 1 })
  else
    match s.freeList.getLast? with
    | some p => some (p, { s with freeList := s.freeList.dropLast })
    | none => none

/-- One round of `mutex_lock`: whether the lock is taken, or the task blocks. -/
def mutexLock (s : Buffers T) (t : T) (p : ℕ) : Except Halt (Bool × Buffers T) :=
  if (s.bufs p).value then .ok (false, s.upd p fun b => { b with waiters := t :: b.waiters })
  else do
    assert "lock->repeat == 0" ((s.bufs p).repeats = 0)
    .ok (true, s.upd p fun b => { b with value := true, holder := some t, repeats := 1 })

def reentrantLock (s : Buffers T) (t : T) (p : ℕ) : Except Halt (Bool × Buffers T) :=
  if (s.bufs p).holder = some t then .ok (true, s.upd p fun b => { b with repeats := b.repeats + 1 })
  else s.mutexLock t p

/-- `reentrant_unlock`; the result is whether it yields to a task it has woken. -/
def reentrantUnlock (s : Buffers T) (t : T) (p : ℕ) : Except Halt (Bool × Buffers T) := do
  assert "lock->holder == current" ((s.bufs p).holder = some t)
  let s := s.upd p fun b => { b with repeats := b.repeats - 1 }
  if (s.bufs p).repeats = 0 then
    assert "mutex->value == true" (s.bufs p).value
    let s := s.upd p fun b => { b with holder := none, value := false }
    .ok ((s.bufs p).waiters ≠ [], s.upd p fun b => { b with waiters := b.waiters.dropLast })
  else .ok (false, s)

/-- The end of `bread`: the lock is given back. -/
def breadReturn (s : Buffers T) (t : T) (p : ℕ) : Except Halt (Buffers T) := do
  let (yields, s) ← s.reentrantUnlock t p
  .ok (s.goto t (if yields then .returning else .idle))

/-- `bread` with the lock of a free buffer, up to `device_request`. -/
def breadFresh (s : Buffers T) (t : T) (dev : Int32) (block : UInt32) (p : ℕ) : Except Halt (Buffers T) := do
  assert "bf->count == 0 && bf->dirty == false && bf->valid == false"
    ((s.bufs p).count = 0 && !(s.bufs p).dirty && !(s.bufs p).valid)
  let s := s.upd p fun b => { b with count := 1, dev := dev, block := block }
  let idx := Cache.hash dev block
  assert "!list_search(list, &bf->hnode)" (p ∉ s.hashTable idx)
  let s := { s with hashTable := Function.update s.hashTable idx (p :: s.hashTable idx)
                    refs := ⟨t, dev, block, p⟩ :: s.refs }
  .ok (s.goto t (.reading p))

/-- `bread` from `getagain`. -/
def breadAgain (s : Buffers T) (t : T) (dev : Int32) (block : UInt32) : Except Halt (Buffers T) :=
  match s.getFreeBuffer with
  | none => .ok ({ s with waitList := t :: s.waitList }.goto t (.waiting dev block))
  | some (p, s) => do
    let (taken, s) ← s.reentrantLock t p
    if taken then s.breadFresh t dev block p else .ok (s.goto t (.fresh dev block p))

/-- `bread` with the lock of a buffer it has found. -/
def breadFound (s : Buffers T) (t : T) (dev : Int32) (block : UInt32) (p : ℕ) : Except Halt (Buffers T) := do
  assert "bf->valid == true" (s.bufs p).valid
  if (s.bufs p).count = 0 then
    let (yields, s) ← s.reentrantUnlock t p
    if yields then .ok (s.goto t (.again dev block)) else s.breadAgain t dev block
  else
    let s := s.upd p fun b => { b with count := b.count + 1 }
    breadReturn { s with refs := ⟨t, dev, block, p⟩ :: s.refs } t p

def bread (s : Buffers T) (t : T) (dev : Int32) (block : UInt32) : Except Halt (Buffers T) :=
  match s.getFromHashTable dev block with
  | some p => do
    let (taken, s) ← s.reentrantLock t p
    if taken then s.breadFound t dev block p else .ok (s.goto t (.found dev block p))
  | none => s.breadAgain t dev block

/-- The end of `brelease`: the buffer is free, and the task that waits longest for one is woken. -/
def release (s : Buffers T) (t : T) (p : ℕ) : Except Halt (Buffers T) := do
  let s := s.upd p fun b => { b with dev := EOF, block := 0, valid := false }
  assert "!list_search(list, node)" (p ∉ s.freeList)
  .ok ({ s with freeList := p :: s.freeList, waitList := s.waitList.tail }.goto t .idle)

def brelease (s : Buffers T) (r : BufferRef T) : Except Halt (Buffers T) := do
  let s := s.upd r.buf fun b => { b with count := b.count - 1 }
  let s := { s with refs := s.refs.erase r }
  if (s.bufs r.buf).count ≠ 0 then .ok s
  else
    let idx := Cache.hash (s.bufs r.buf).dev (s.bufs r.buf).block
    assert "node->prev != NULL" (r.buf ∈ s.hashTable idx)
    let dirty := (s.bufs r.buf).dirty
    let s := { s.upd r.buf fun b => { b with dirty := false } with
      hashTable := Function.update s.hashTable idx ((s.hashTable idx).erase r.buf) }
    let s := s.goto r.task (.writing r.buf)
    if dirty then .ok s else s.release r.task r.buf

/-- The task can make the step: it is there, and not blocked. -/
def enabled (s : Buffers T) : BufferEvent T → Bool
  | .bread t _ _ => s.pc t = .idle
  | .wake t =>
    match s.pc t with
    | .found _ _ p | .fresh _ _ p => t ∉ (s.bufs p).waiters
    | .waiting _ _ => t ∉ s.waitList
    | _ => false
  | .device t =>
    match s.pc t with
    | .reading _ => true
    | _ => false
  | .resume t =>
    match s.pc t with
    | .returning | .again _ _ => true
    | _ => false
  | .touch r | .brelease r => s.pc r.task = .idle && r ∈ s.refs
  | .written t =>
    match s.pc t with
    | .writing _ => true
    | _ => false

def exec (s : Buffers T) : BufferEvent T → Except Halt (Buffers T)
  | .bread t dev block => s.bread t dev block
  | .wake t =>
    match s.pc t with
    | .found dev block p => do
      let (taken, s) ← s.mutexLock t p
      if taken then s.breadFound t dev block p else .ok (s.goto t (.found dev block p))
    | .fresh dev block p => do
      let (taken, s) ← s.mutexLock t p
      if taken then s.breadFresh t dev block p else .ok (s.goto t (.fresh dev block p))
    | .waiting dev block => s.breadAgain t dev block
    | _ => .ok s
  | .device t =>
    match s.pc t with
    | .reading p => (s.upd p fun b => { b with valid := true }).breadReturn t p
    | _ => .ok s
  | .resume t =>
    match s.pc t with
    | .again dev block => s.breadAgain t dev block
    | _ => .ok (s.goto t .idle)
  | .touch r => .ok (s.upd r.buf fun b => { b with dirty := true })
  | .brelease r => s.brelease r
  | .written t =>
    match s.pc t with
    | .writing p => s.release t p
    | _ => .ok s

def Step (s : Buffers T) (e : BufferEvent T) (s' : Buffers T) : Prop := s.enabled e = true ∧ s.exec e = .ok s'

/-- After `buffer_init`; a buffer that is not made yet stands here as a clear one. -/
def Init (s : Buffers T) : Prop :=
  s.made = 0 ∧ s.freeList = [] ∧ s.waitList = [] ∧ (∀ i, s.hashTable i = []) ∧ (∀ t, s.pc t = .idle) ∧ s.refs = [] ∧
    ∀ p, (s.bufs p).count = 0 ∧ (s.bufs p).value = false ∧ (s.bufs p).holder = none ∧ (s.bufs p).repeats = 0

/-- No `brelease` gives back the last reference to a buffer that a task waits for in `bread`, and no task
that has waited for a free buffer gets one after another has read the block it wants. -/
def Undisturbed (s : Buffers T) : BufferEvent T → Prop
  | .brelease r => (s.bufs r.buf).count = 1 → ∀ t dev block, s.pc t ≠ .found dev block r.buf
  | .wake t => ∀ dev block, s.pc t = .waiting dev block → s.getFreeBuffer.isSome →
    s.getFromHashTable dev block = none
  | _ => True

/-! ### The invariant -/

/-- What each buffer says, and where the tasks are that wait for it. -/
structure Inv (s : Buffers T) : Prop where
  count : ∀ p, (s.bufs p).count = s.refs.countP fun r => r.buf = p
  ref : ∀ r ∈ s.refs, (s.bufs r.buf).dev = r.dev ∧ (s.bufs r.buf).block = r.block
  sole : ∀ r ∈ s.refs, (s.bufs r.buf).value = true → (s.bufs r.buf).holder = some r.task
  hashed : ∀ i p, p ∈ s.hashTable i ↔ Cache.hash (s.bufs p).dev (s.bufs p).block = i ∧ 0 < (s.bufs p).count
  nodup : ∀ i, (s.hashTable i).Nodup
  unique : ∀ p q, 0 < (s.bufs p).count → 0 < (s.bufs q).count → (s.bufs p).dev = (s.bufs q).dev →
    (s.bufs p).block = (s.bufs q).block → p = q
  valid : ∀ p, 0 < (s.bufs p).count → (s.bufs p).value = false → (s.bufs p).valid = true
  reading : ∀ t p, s.pc t = .reading p → (s.bufs p).value = true ∧ (s.bufs p).holder = some t ∧
    (s.bufs p).repeats = 1 ∧ 0 < (s.bufs p).count
  locked : ∀ p, (s.bufs p).value = true → ∃ t, s.pc t = .reading p
  unlocked : ∀ p, (s.bufs p).value = false → (s.bufs p).holder = none ∧ (s.bufs p).repeats = 0
  found : ∀ t dev block p, s.pc t = .found dev block p → (s.bufs p).dev = dev ∧ (s.bufs p).block = block ∧
    0 < (s.bufs p).count
  fresh : ∀ t dev block p, s.pc t ≠ .fresh dev block p
  again : ∀ t dev block, s.pc t ≠ .again dev block
  free : ∀ p ∈ s.freeList, (s.bufs p).count = 0 ∧ (s.bufs p).dirty = false ∧ (s.bufs p).valid = false ∧ p < s.made ∧
    ∀ t, s.pc t ≠ .writing p
  freeNodup : s.freeList.Nodup
  notMade : ∀ p, s.made ≤ p → (s.bufs p).count = 0 ∧ ∀ t, s.pc t ≠ .writing p
  writing : ∀ t p, s.pc t = .writing p → (s.bufs p).count = 0 ∧ (s.bufs p).dirty = false ∧
    ∀ t', s.pc t' = .writing p → t' = t

variable {s s' : Buffers T}

/-- A buffer that `get_free_buffer` has taken. -/
structure Spare (s : Buffers T) (p : ℕ) : Prop where
  count : (s.bufs p).count = 0
  dirty : (s.bufs p).dirty = false
  valid : (s.bufs p).valid = false
  made : p < s.made
  notFree : p ∉ s.freeList
  notWriting : ∀ t, s.pc t ≠ .writing p

/-- A buffer whose lock is given back. -/
def unlock (b : SharedBuffer T) : SharedBuffer T :=
  { b with value := false, holder := none, repeats := 0, waiters := b.waiters.dropLast }

theorem breadReturn_eq {t : T} {p : ℕ} (hh : (s.bufs p).holder = some t) (hr : (s.bufs p).repeats = 1)
    (hv : (s.bufs p).value = true) : ∃ q, (q = .idle ∨ q = .returning) ∧
      s.breadReturn t p = .ok ((s.upd p unlock).goto t q) := by
  refine ⟨if (s.bufs p).waiters ≠ [] then .returning else .idle, by split_ifs <;> simp, ?_⟩
  simp only [breadReturn, reentrantUnlock, hh, decide_true, assert_true, ok_bind, upd, Function.update_self, hr,
    Nat.sub_self, if_true, hv, Function.update_idem, unlock, decide_eq_true_eq]

/-- A reference to a buffer whose lock is free. -/
theorem Inv.take (h : Inv s) {t : T} {dev : Int32} {block : UInt32} {p : ℕ} {q : BufferPc}
    (hpc : s.pc t = .idle ∨ s.pc t = .found dev block p) (hq : q = .idle ∨ q = .returning)
    (hv : (s.bufs p).value = false) (hd : (s.bufs p).dev = dev) (hb : (s.bufs p).block = block)
    (hc : 0 < (s.bufs p).count) :
    Inv ⟨Function.update s.bufs p (unlock { s.bufs p with count := (s.bufs p).count + 1 }), s.made, s.size, s.freeList,
      s.waitList, s.hashTable, Function.update s.pc t q, ⟨t, dev, block, p⟩ :: s.refs⟩ := by
  refine ⟨?_, ?_, ?_, ?_, h.nodup, ?_, ?_, ?_, ?_, ?_, ?_, ?_, ?_, ?_, h.freeNodup, ?_, ?_⟩ <;>
    simp only [Function.update_apply, unlock]
  · intro q
    have := h.count q
    rw [List.countP_cons]
    grind
  · have := h.ref
    grind
  · have := h.sole
    grind
  · have := h.hashed
    grind
  · have := h.unique
    grind
  · have := h.valid
    grind
  · have := h.reading
    grind
  · have := h.locked
    grind
  · have := h.unlocked
    grind
  · have := h.found
    grind
  · have := h.fresh
    grind
  · have := h.again
    grind
  · have := h.free
    grind
  · have := h.notMade
    grind
  · have := h.writing
    grind

/-- A task waits for the buffer it has found. -/
theorem Inv.wait (h : Inv s) {t : T} {dev : Int32} {block : UInt32} {p : ℕ}
    (hpc : s.pc t = .idle ∨ s.pc t = .found dev block p) (hd : (s.bufs p).dev = dev) (hb : (s.bufs p).block = block)
    (hc : 0 < (s.bufs p).count) :
    Inv ⟨Function.update s.bufs p { s.bufs p with waiters := t :: (s.bufs p).waiters }, s.made, s.size, s.freeList,
      s.waitList, s.hashTable, Function.update s.pc t (.found dev block p), s.refs⟩ := by
  refine ⟨?_, ?_, ?_, ?_, h.nodup, ?_, ?_, ?_, ?_, ?_, ?_, ?_, ?_, ?_, h.freeNodup, ?_, ?_⟩ <;>
    simp only [Function.update_apply]
  · have := h.count
    grind
  · have := h.ref
    grind
  · have := h.sole
    grind
  · have := h.hashed
    grind
  · have := h.unique
    grind
  · have := h.valid
    grind
  · have := h.reading
    grind
  · have := h.locked
    grind
  · have := h.unlocked
    grind
  · have := h.found
    grind
  · have := h.fresh
    grind
  · have := h.again
    grind
  · have := h.free
    grind
  · have := h.notMade
    grind
  · have := h.writing
    grind

/-- A free buffer is given to a block that has none. -/
theorem Inv.load (h : Inv s) {t : T} {dev : Int32} {block : UInt32} {p : ℕ} (hp : Spare s p)
    (hpc : s.pc t = .idle ∨ s.pc t = .waiting dev block) (hnew : ∀ q ∈ s.hashTable (Cache.hash dev block),
      ¬ ((s.bufs q).dev = dev ∧ (s.bufs q).block = block)) :
    Inv ⟨Function.update s.bufs p { s.bufs p with
        count := 1, dev := dev, block := block, value := true, holder := some t, repeats := 1 }, s.made, s.size,
      s.freeList, s.waitList, Function.update s.hashTable (Cache.hash dev block) (p :: s.hashTable (Cache.hash dev block)),
      Function.update s.pc t (.reading p), ⟨t, dev, block, p⟩ :: s.refs⟩ := by
  obtain ⟨hzero, hdirty, hvalid, hmade, hfree, hwriting⟩ := hp
  have hnone : ∀ r ∈ s.refs, r.buf ≠ p := by
    have h1 := (h.count p).symm.trans hzero
    exact fun r hr => by simpa using List.countP_eq_zero.mp h1 r hr
  refine ⟨?_, ?_, ?_, ?_, ?_, ?_, ?_, ?_, ?_, ?_, ?_, ?_, ?_, ?_, h.freeNodup, ?_, ?_⟩ <;>
    simp only [Function.update_apply]
  · intro q
    have := h.count q
    rw [List.countP_cons]
    grind
  · have := h.ref
    grind
  · have := h.sole
    grind
  · have := h.hashed
    grind
  · have h1 := h.nodup
    have h2 := h.hashed
    grind
  · have h1 := h.unique
    have h2 := h.hashed
    grind
  · have := h.valid
    grind
  · have := h.reading
    grind
  · intro q hq
    by_cases he : q = p
    · exact ⟨t, by rw [if_pos rfl, he]⟩
    · obtain ⟨t', ht⟩ := h.locked q (by rwa [if_neg he] at hq)
      exact ⟨t', by grind⟩
  · have := h.unlocked
    grind
  · have := h.found
    grind
  · have := h.fresh
    grind
  · have := h.again
    grind
  · have := h.free
    grind
  · have := h.notMade
    grind
  · have := h.writing
    grind

/-- The device has read the block. -/
theorem Inv.loaded (h : Inv s) {t : T} {p : ℕ} {q : BufferPc} (hpc : s.pc t = .reading p)
    (hq : q = .idle ∨ q = .returning) :
    Inv ⟨Function.update s.bufs p (unlock { s.bufs p with valid := true }), s.made, s.size, s.freeList,
      s.waitList, s.hashTable, Function.update s.pc t q, s.refs⟩ := by
  have hself := h.reading _ _ hpc
  refine ⟨?_, ?_, ?_, ?_, h.nodup, ?_, ?_, ?_, ?_, ?_, ?_, ?_, ?_, ?_, h.freeNodup, ?_, ?_⟩ <;>
    simp only [Function.update_apply, unlock]
  · have := h.count
    grind
  · have := h.ref
    grind
  · have := h.sole
    grind
  · have := h.hashed
    grind
  · have := h.unique
    grind
  · have := h.valid
    grind
  · have := h.reading
    grind
  · have := h.locked
    grind
  · have := h.unlocked
    grind
  · have := h.found
    grind
  · have := h.fresh
    grind
  · have := h.again
    grind
  · have := h.free
    grind
  · have := h.notMade
    grind
  · have := h.writing
    grind

theorem countP_erase {r : BufferRef T} (hr : r ∈ s.refs) (q : ℕ) : s.refs.countP (fun r' => r'.buf = q) =
    (s.refs.erase r).countP (fun r' => r'.buf = q) + if r.buf = q then 1 else 0 := by
  rw [(List.perm_cons_erase hr).countP_eq, List.countP_cons]
  simp

/-- A reference is given back, and is not the last one. -/
theorem Inv.drop (h : Inv s) {r : BufferRef T} (hr : r ∈ s.refs) (hc : (s.bufs r.buf).count ≠ 1) :
    Inv ⟨Function.update s.bufs r.buf { s.bufs r.buf with count := (s.bufs r.buf).count - 1 }, s.made, s.size,
      s.freeList, s.waitList, s.hashTable, s.pc, s.refs.erase r⟩ := by
  have hcount := countP_erase hr
  have hmem : ∀ r' ∈ s.refs.erase r, r' ∈ s.refs := fun _ => List.mem_of_mem_erase
  have hself := h.count r.buf
  have hself' := hcount r.buf
  refine ⟨?_, ?_, ?_, ?_, h.nodup, ?_, ?_, ?_, ?_, ?_, ?_, ?_, ?_, ?_, h.freeNodup, ?_, ?_⟩ <;>
    simp only [Function.update_apply]
  · intro q
    have h1 := h.count q
    have h2 := hcount q
    grind
  · have := h.ref
    grind
  · have := h.sole
    grind
  · have := h.hashed
    grind
  · have := h.unique
    grind
  · have := h.valid
    grind
  · have := h.reading
    grind
  · have := h.locked
    grind
  · have := h.unlocked
    grind
  · have := h.found
    grind
  · have := h.fresh
    grind
  · have := h.again
    grind
  · have := h.free
    grind
  · have := h.notMade
    grind
  · have := h.writing
    grind

omit [DecidableEq T] in
/-- A task that has a reference and does nothing else holds no lock. -/
theorem Inv.unlocked_of_idle (h : Inv s) {r : BufferRef T} (hr : r ∈ s.refs) (hpc : s.pc r.task = .idle) :
    (s.bufs r.buf).value = false := by
  by_contra hv
  have hv : (s.bufs r.buf).value = true := by simpa using hv
  obtain ⟨t, ht⟩ := h.locked _ hv
  have h1 := (h.reading _ _ ht).2.1
  rw [h.sole r hr hv] at h1
  rw [← Option.some.inj h1, hpc] at ht
  cases ht

/-- The last reference is given back while no task waits for the buffer. -/
theorem Inv.last (h : Inv s) {r : BufferRef T} (hr : r ∈ s.refs) (hpc : s.pc r.task = .idle)
    (hc : (s.bufs r.buf).count = 1) (hw : ∀ t dev block, s.pc t ≠ .found dev block r.buf) :
    Inv ⟨Function.update s.bufs r.buf { s.bufs r.buf with count := (s.bufs r.buf).count - 1, dirty := false },
      s.made, s.size, s.freeList, s.waitList,
      Function.update s.hashTable (Cache.hash (s.bufs r.buf).dev (s.bufs r.buf).block)
        ((s.hashTable (Cache.hash (s.bufs r.buf).dev (s.bufs r.buf).block)).erase r.buf),
      Function.update s.pc r.task (.writing r.buf), s.refs.erase r⟩ := by
  have hcount := countP_erase hr
  have hmem : ∀ r' ∈ s.refs.erase r, r' ∈ s.refs := fun _ => List.mem_of_mem_erase
  have hnone : ∀ r' ∈ s.refs.erase r, r'.buf ≠ r.buf := by
    have h1 := h.count r.buf
    have h2 := hcount r.buf
    rw [if_pos rfl] at h2
    have h3 : (s.refs.erase r).countP (fun r' => r'.buf = r.buf) = 0 := by omega
    exact fun r' hr' => by simpa using List.countP_eq_zero.mp h3 r' hr'
  have hv := h.unlocked_of_idle hr hpc
  have hsame : ∀ i q, q ∈ (s.hashTable i).erase r.buf ↔ q ≠ r.buf ∧ q ∈ s.hashTable i :=
    fun i q => (h.nodup i).mem_erase_iff
  refine ⟨?_, ?_, ?_, ?_, ?_, ?_, ?_, ?_, ?_, ?_, ?_, ?_, ?_, ?_, h.freeNodup, ?_, ?_⟩ <;>
    simp only [Function.update_apply]
  · intro q
    have h1 := h.count q
    have h2 := hcount q
    grind
  · have := h.ref
    grind
  · have := h.sole
    grind
  · have := h.hashed
    grind
  · intro i
    split_ifs
    · exact (h.nodup _).erase _
    · exact h.nodup i
  · have := h.unique
    grind
  · have := h.valid
    grind
  · have := h.reading
    grind
  · have := h.locked
    grind
  · have := h.unlocked
    grind
  · have := h.found
    grind
  · have := h.fresh
    grind
  · have := h.again
    grind
  · have := h.free
    grind
  · have := h.notMade
    grind
  · have := h.writing
    grind

/-- A buffer that has been given back is free. -/
theorem Inv.put (h : Inv s) {t : T} {p : ℕ} (hpc : s.pc t = .writing p) :
    Inv ⟨Function.update s.bufs p { s.bufs p with dev := EOF, block := 0, valid := false }, s.made, s.size,
      p :: s.freeList, s.waitList.tail, s.hashTable, Function.update s.pc t .idle, s.refs⟩ := by
  have hself := h.writing t p hpc
  have hmade : p < s.made := by
    by_contra hc
    exact (h.notMade p (by omega)).2 t hpc
  have hfree : p ∉ s.freeList := fun hm => (h.free p hm).2.2.2.2 t hpc
  have hnone : ∀ r ∈ s.refs, r.buf ≠ p := by
    have h1 := (h.count p).symm.trans hself.1
    exact fun r hr => by simpa using List.countP_eq_zero.mp h1 r hr
  refine ⟨?_, ?_, ?_, ?_, h.nodup, ?_, ?_, ?_, ?_, ?_, ?_, ?_, ?_, ?_, ?_, ?_, ?_⟩ <;>
    simp only [Function.update_apply]
  · have := h.count
    grind
  · have := h.ref
    grind
  · have := h.sole
    grind
  · have := h.hashed
    grind
  · have := h.unique
    grind
  · have := h.valid
    grind
  · have := h.reading
    grind
  · have := h.locked
    grind
  · have := h.unlocked
    grind
  · have := h.found
    grind
  · have := h.fresh
    grind
  · have := h.again
    grind
  · have := h.free
    grind
  · exact List.nodup_cons.mpr ⟨hfree, h.freeNodup⟩
  · have := h.notMade
    grind
  · have := h.writing
    grind

/-- A task goes on, or waits for a free buffer. -/
theorem Inv.goOn (h : Inv s) {t : T} {q : BufferPc} {l : List T}
    (hpc : s.pc t = .idle ∨ s.pc t = .returning ∨ ∃ dev block, s.pc t = .waiting dev block)
    (hq : q = .idle ∨ ∃ dev block, q = .waiting dev block) : Inv ({ s with waitList := l }.goto t q) := by
  refine ⟨h.count, h.ref, h.sole, h.hashed, h.nodup, h.unique, h.valid, ?_, ?_, h.unlocked, ?_, ?_, ?_, ?_, h.freeNodup,
    ?_, ?_⟩ <;> simp only [goto, Function.update_apply]
  · have := h.reading
    grind
  · have := h.locked
    grind
  · have := h.found
    grind
  · have := h.fresh
    grind
  · have := h.again
    grind
  · have := h.free
    grind
  · have := h.notMade
    grind
  · have := h.writing
    grind

omit [DecidableEq T] in
theorem Inv.touch (h : Inv s) {r : BufferRef T} (hr : r ∈ s.refs) :
    Inv (s.upd r.buf fun b => { b with dirty := true }) := by
  have hpos : 0 < (s.bufs r.buf).count := by
    rw [h.count]
    exact List.countP_pos_iff.mpr ⟨r, hr, by simp⟩
  refine ⟨?_, ?_, ?_, ?_, h.nodup, ?_, ?_, ?_, ?_, ?_, ?_, ?_, ?_, ?_, h.freeNodup, ?_, ?_⟩ <;>
    simp only [upd, Function.update_apply]
  · have := h.count
    grind
  · have := h.ref
    grind
  · have := h.sole
    grind
  · have := h.hashed
    grind
  · have := h.unique
    grind
  · have := h.valid
    grind
  · have := h.reading
    grind
  · have := h.locked
    grind
  · have := h.unlocked
    grind
  · have := h.found
    grind
  · have := h.fresh
    grind
  · have := h.again
    grind
  · have := h.free
    grind
  · have := h.notMade
    grind
  · have := h.writing
    grind

omit [DecidableEq T] in
/-- A buffer is made, or comes off the free list. -/
theorem Inv.getFreeBuffer (h : Inv s) {p : ℕ} (he : s.getFreeBuffer = some (p, s')) :
    Inv s' ∧ Spare s' p ∧ s'.pc = s.pc ∧ (∀ i, s'.hashTable i = s.hashTable i) ∧
      ∀ i, ∀ q ∈ s.hashTable i, s'.bufs q = s.bufs q := by
  unfold Buffers.getFreeBuffer at he
  split_ifs at he with hm
  · simp only [Option.some.injEq, Prod.mk.injEq] at he
    obtain ⟨rfl, rfl⟩ := he
    have hself := h.notMade s.made le_rfl
    have hnone : ∀ r ∈ s.refs, r.buf ≠ s.made := by
      have h1 := (h.count s.made).symm.trans hself.1
      exact fun r hr => by simpa using List.countP_eq_zero.mp h1 r hr
    have hfree : s.made ∉ s.freeList := fun hf => by
      have := (h.free _ hf).2.2.2.1
      omega
    refine ⟨?_, ?_, rfl, fun _ => rfl, fun i q hq => ?_⟩
    · refine ⟨?_, ?_, ?_, ?_, h.nodup, ?_, ?_, ?_, ?_, ?_, ?_, ?_, ?_, ?_, h.freeNodup, ?_, ?_⟩ <;>
        simp only [upd, Function.update_apply]
      · have := h.count
        grind
      · have := h.ref
        grind
      · have := h.sole
        grind
      · have := h.hashed
        grind
      · have := h.unique
        grind
      · have := h.valid
        grind
      · have := h.reading
        grind
      · have := h.locked
        grind
      · have := h.unlocked
        grind
      · have := h.found
        grind
      · have := h.fresh
        grind
      · have := h.again
        grind
      · have := h.free
        grind
      · have := h.notMade
        grind
      · have := h.writing
        grind
    · exact ⟨by simp [upd], by simp [upd], by simp [upd], Nat.lt_succ_self _, hfree, hself.2⟩
    · have h1 := ((h.hashed i q).mp hq).2
      refine Function.update_of_ne ?_ _ _
      rintro rfl
      omega
  · split at he
    · rename_i q hlast
      simp only [Option.some.injEq, Prod.mk.injEq] at he
      obtain ⟨rfl, rfl⟩ := he
      have hmem : ∀ q ∈ s.freeList.dropLast, q ∈ s.freeList := fun _ => List.mem_of_mem_dropLast
      have hsplit := List.dropLast_append_getLast? q hlast
      obtain ⟨h1, h2, h3, h4, h5⟩ := h.free q (List.mem_of_getLast? hlast)
      refine ⟨⟨h.count, h.ref, h.sole, h.hashed, h.nodup, h.unique, h.valid, h.reading, h.locked, h.unlocked, h.found,
        h.fresh, h.again, fun x hx => h.free x (hmem x hx), h.freeNodup.sublist (List.dropLast_sublist _), h.notMade,
        h.writing⟩, ⟨h1, h2, h3, h4, fun hd => ?_, h5⟩, rfl, fun _ => rfl, fun _ _ _ => rfl⟩
      have h6 := h.freeNodup
      rw [← hsplit] at h6
      exact (List.nodup_append.mp h6).2.2 q hd q (List.mem_singleton_self q) rfl
    · cases he

omit [DecidableEq T] in
theorem inv_init (h : Init s) : Inv s := by
  obtain ⟨h1, h2, h3, h4, h5, h6, h7⟩ := h
  refine ⟨?_, ?_, ?_, ?_, ?_, ?_, ?_, ?_, ?_, ?_, ?_, ?_, ?_, ?_, ?_, ?_, ?_⟩
  all_goals grind

/-! ### Steps -/

omit [DecidableEq T] in
theorem mutexLock_free {t : T} {p : ℕ} (hv : (s.bufs p).value = false) (hr : (s.bufs p).repeats = 0) :
    s.mutexLock t p = .ok (true, s.upd p fun b => { b with value := true, holder := some t, repeats := 1 }) := by
  simp [mutexLock, hv, hr]

omit [DecidableEq T] in
theorem mutexLock_held {t : T} {p : ℕ} (hv : (s.bufs p).value = true) :
    s.mutexLock t p = .ok (false, s.upd p fun b => { b with waiters := t :: b.waiters }) := by
  simp [mutexLock, hv]

omit [DecidableEq T] in
/-- A task that is not reading a block holds no lock. -/
theorem Inv.holder_ne (h : Inv s) {t : T} {p : ℕ} (hpc : ∀ q, s.pc t ≠ .reading q) : (s.bufs p).holder ≠ some t := by
  intro hh
  by_cases hv : (s.bufs p).value = true
  · obtain ⟨t', ht⟩ := h.locked p hv
    have h1 := (h.reading _ _ ht).2.1
    rw [hh] at h1
    exact hpc p (Option.some.inj h1 ▸ ht)
  · rw [(h.unlocked p (by simpa using hv)).1] at hh
    cases hh

/-- The lock of a buffer the task has found is free, or it waits. -/
theorem Inv.lockFound (h : Inv s) {t : T} {dev : Int32} {block : UInt32} {p : ℕ} (bad : Halt → Prop)
    (hpc : s.pc t = .idle ∨ s.pc t = .found dev block p) (hd : (s.bufs p).dev = dev) (hb : (s.bufs p).block = block)
    (hc : 0 < (s.bufs p).count) : Meets bad (s.mutexLock t p >>= fun r =>
      if r.1 then r.2.breadFound t dev block p else .ok (r.2.goto t (.found dev block p))) Inv := by
  by_cases hv : (s.bufs p).value = true
  · rw [mutexLock_held hv, ok_bind, if_neg Bool.false_ne_true]
    exact meets_ok.mpr (h.wait hpc hd hb hc)
  · have hv : (s.bufs p).value = false := by simpa using hv
    rw [mutexLock_free hv (h.unlocked p hv).2, ok_bind, if_pos rfl]
    obtain ⟨q, hq, he⟩ := breadReturn_eq (t := t) (p := p) (s := { (s.upd p fun b => { b with
      value := true, holder := some t, repeats := 1 }).upd p fun b => { b with count := b.count + 1 } with
      refs := ⟨t, dev, block, p⟩ :: s.refs }) (by simp [upd]) (by simp [upd]) (by simp [upd])
    have hvalid := h.valid p hc hv
    have hne : (s.bufs p).count ≠ 0 := by omega
    unfold breadFound
    simp only [upd, Function.update_self, hvalid, assert_true, ok_bind, if_neg hne] at he ⊢
    rw [he]
    have := h.take hpc hq hv hd hb hc
    apply meets_ok.mpr
    simpa only [upd, goto, Function.update_self, Function.update_idem, unlock, hvalid] using this

/-- `getagain` for a block that is not in the hash table. -/
theorem Inv.breadAgain (h : Inv s) {t : T} {dev : Int32} {block : UInt32} (bad : Halt → Prop)
    (hpc : s.pc t = .idle ∨ s.pc t = .waiting dev block)
    (hnew : s.getFreeBuffer.isSome → s.getFromHashTable dev block = none) :
    Meets bad (s.breadAgain t dev block) Inv := by
  unfold Buffers.breadAgain
  cases hf : s.getFreeBuffer with
  | none =>
    have hgo : s.pc t = .idle ∨ s.pc t = .returning ∨ ∃ dev block, s.pc t = .waiting dev block :=
      hpc.imp id fun hw => Or.inr ⟨dev, block, hw⟩
    exact meets_ok.mpr (h.goOn hgo (Or.inr ⟨dev, block, rfl⟩))
  | some r =>
    obtain ⟨p, s₁⟩ := r
    obtain ⟨h₁, hp, hpc₁, hhash, hbufs⟩ := h.getFreeBuffer hf
    have hpc' : s₁.pc t = .idle ∨ s₁.pc t = .waiting dev block := by rw [hpc₁]; exact hpc
    have hread : ∀ q, s₁.pc t ≠ .reading q := fun q hq => by
      rcases hpc' with h1 | h1 <;> rw [h1] at hq <;> cases hq
    have hv : (s₁.bufs p).value = false := by
      by_contra hv
      obtain ⟨t', ht⟩ := h₁.locked p (by simpa using hv)
      have h1 := (h₁.reading _ _ ht).2.2.2
      have h2 := hp.count
      omega
    have hnone : ∀ q ∈ s₁.hashTable (Cache.hash dev block), ¬ ((s₁.bufs q).dev = dev ∧ (s₁.bufs q).block = block) := by
      intro q hq
      rw [hhash] at hq
      rw [hbufs _ q hq]
      simpa using List.find?_eq_none.mp (hnew (by rw [hf]; rfl)) q hq
    have hnot : p ∉ s₁.hashTable (Cache.hash dev block) := fun hm => by
      have h1 := ((h₁.hashed _ p).mp hm).2
      have h2 := hp.count
      omega
    dsimp only
    rw [reentrantLock, if_neg (h₁.holder_ne hread), mutexLock_free hv (h₁.unlocked p hv).2, ok_bind]
    simp only [if_true, breadFresh, upd, Function.update_self, Function.update_idem, hp.count, hp.dirty, hp.valid,
      decide_true, Bool.not_false, Bool.and_self, assert_true, ok_bind, hnot, not_false_eq_true]
    have := h₁.load hp hpc' hnone
    apply meets_ok.mpr
    simpa only [goto, hp.dirty, hp.valid] using this

theorem Inv.bread (h : Inv s) {t : T} {dev : Int32} {block : UInt32} (bad : Halt → Prop) (hpc : s.pc t = .idle) :
    Meets bad (s.bread t dev block) Inv := by
  unfold Buffers.bread
  cases hf : s.getFromHashTable dev block with
  | none => exact h.breadAgain bad (Or.inl hpc) fun _ => hf
  | some p =>
    have hid := List.find?_some hf
    simp only [Bool.and_eq_true, decide_eq_true_eq] at hid
    have hc := ((h.hashed _ p).mp (List.mem_of_find?_eq_some hf)).2
    have hread : ∀ q, s.pc t ≠ .reading q := fun q hq => by
      rw [hpc] at hq
      cases hq
    dsimp only
    rw [reentrantLock, if_neg (h.holder_ne hread)]
    exact h.lockFound bad (Or.inl hpc) hid.1 hid.2 hc

theorem Inv.release (h : Inv s) {t : T} {p : ℕ} (bad : Halt → Prop) (hpc : s.pc t = .writing p) :
    Meets bad (s.release t p) Inv := by
  have hfree : p ∉ s.freeList := fun hm => (h.free p hm).2.2.2.2 t hpc
  exact Meets.assert_bind (fun hb => absurd (not_not.mp (of_decide_eq_false hb)) hfree) fun _ =>
    meets_ok.mpr (h.put hpc)

theorem Inv.brelease (h : Inv s) {r : BufferRef T} (bad : Halt → Prop) (hpc : s.pc r.task = .idle) (hr : r ∈ s.refs)
    (hu : (s.bufs r.buf).count = 1 → ∀ t dev block, s.pc t ≠ .found dev block r.buf) :
    Meets bad (s.brelease r) Inv := by
  have hpos : 0 < (s.bufs r.buf).count := by
    rw [h.count]
    exact List.countP_pos_iff.mpr ⟨r, hr, by simp⟩
  unfold Buffers.brelease
  by_cases hc : (s.bufs r.buf).count = 1
  · have hmem : r.buf ∈ s.hashTable (Cache.hash (s.bufs r.buf).dev (s.bufs r.buf).block) :=
      (h.hashed _ _).mpr ⟨rfl, hpos⟩
    have hlast := h.last hr hpc hc (hu hc)
    simp only [upd, Function.update_self, Function.update_idem, hc, Nat.sub_self, ne_eq, not_true_eq_false, if_false,
      hmem, decide_true, assert_true, ok_bind, goto] at hlast ⊢
    split_ifs
    · exact meets_ok.mpr hlast
    · exact hlast.release bad (Function.update_self ..)
  · have hc' : (s.bufs r.buf).count - 1 ≠ 0 := by omega
    simp only [upd, Function.update_self, if_pos hc']
    exact meets_ok.mpr (h.drop hr hc)

/-- An undisturbed step keeps the invariant, and no check in it fails. -/
theorem Inv.exec (h : Inv s) {e : BufferEvent T} (bad : Halt → Prop) (hen : s.enabled e = true)
    (hu : s.Undisturbed e) : Meets bad (s.exec e) Inv := by
  cases e with
  | bread t dev block => exact h.bread bad (by simpa [enabled] using hen)
  | wake t =>
    simp only [Buffers.exec]
    cases hpc : s.pc t with
    | found dev block p =>
      obtain ⟨hd, hb, hc⟩ := h.found _ _ _ _ hpc
      exact h.lockFound bad (Or.inr hpc) hd hb hc
    | fresh dev block p => exact absurd hpc (h.fresh t dev block p)
    | waiting dev block => exact h.breadAgain bad (Or.inr hpc) (hu dev block hpc)
    | _ => simp [enabled, hpc] at hen
  | device t =>
    simp only [Buffers.exec]
    cases hpc : s.pc t with
    | reading p =>
      obtain ⟨hv, hh, hr, -⟩ := h.reading _ _ hpc
      obtain ⟨q, hq, he⟩ := breadReturn_eq (t := t) (p := p) (s := s.upd p fun b => { b with valid := true })
        (by simp [upd, hh]) (by simp [upd, hr]) (by simp [upd, hv])
      dsimp only
      rw [he]
      have := h.loaded hpc hq
      apply meets_ok.mpr
      simpa only [upd, goto, Function.update_self, Function.update_idem] using this
    | _ => simp [enabled, hpc] at hen
  | resume t =>
    simp only [Buffers.exec]
    cases hpc : s.pc t with
    | returning => exact meets_ok.mpr (h.goOn (l := s.waitList) (Or.inr (Or.inl hpc)) (Or.inl rfl))
    | again dev block => exact absurd hpc (h.again t dev block)
    | _ => simp [enabled, hpc] at hen
  | touch r =>
    simp only [enabled, Bool.and_eq_true, decide_eq_true_eq] at hen
    exact meets_ok.mpr (h.touch hen.2)
  | brelease r =>
    simp only [enabled, Bool.and_eq_true, decide_eq_true_eq] at hen
    exact h.brelease bad hen.1 hen.2 hu
  | written t =>
    simp only [Buffers.exec]
    cases hpc : s.pc t with
    | writing p => exact h.release bad hpc
    | _ => simp [enabled, hpc] at hen

/-! ### Runs -/

/-- The event gives no reference back that is the last one, and no task goes on that has waited for a buffer. -/
def calm (s : Buffers T) : BufferEvent T → Bool
  | .brelease r => (s.bufs r.buf).count ≠ 1
  | .wake t =>
    match s.pc t with
    | .waiting _ _ => false
    | _ => true
  | _ => true

omit [DecidableEq T] in
theorem undisturbed_of_calm {e : BufferEvent T} (h : s.calm e = true) : s.Undisturbed e := by
  cases e with
  | brelease r => exact fun hc => absurd hc (by simpa [calm] using h)
  | wake t =>
    intro dev block hw
    simp [calm, hw] at h
  | _ => trivial

/-- A step that is made, as `Step` has it; with `keep` only if it is calm. -/
def attempt (keep : Bool) (s : Buffers T) (e : BufferEvent T) : Option (BufferEvent T × Buffers T) :=
  if s.enabled e = true ∧ (keep → s.calm e) then
    match s.exec e with
    | .ok s' => some (e, s')
    | .error _ => none
  else none

theorem attempt_step {keep : Bool} {e e' : BufferEvent T} (h : s.attempt keep e = some (e', s')) :
    (keep → s.Undisturbed e') ∧ Step s e' s' := by
  unfold attempt at h
  split_ifs at h with hen
  split at h
  · rename_i s₁ he
    cases h
    exact ⟨fun hk => undisturbed_of_calm (hen.2 hk), hen.1, he⟩
  · cases h

end Buffers
end Onix
