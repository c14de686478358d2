import Onix.Kernel.Buffer

/-! iget and iput of inode.c, by any number of tasks. A task runs until it waits for the lock
of an inode, for a block to be read or written back, or until `mutex_unlock` yields; then any
task that is ready goes on. `bread` returns a buffer with the block it is asked for. No inode is
a mount point, so `fit_inode` returns its argument. -/

set_option autoImplicit false

namespace Onix

open Lib

def INODE_NR : ℕ := 64
def BLOCK_INODES : UInt32 := 32

/-- The fields of `super_desc_t` that say where the inodes lie. -/
structure SuperDesc where
  imapBlocks : UInt16
  zmapBlocks : UInt16

/-- The super blocks of the mounted devices. -/
structure Supers where
  desc : Int32 → Option SuperDesc
  eof : desc EOF = none

def inodeBlock (sb : SuperDesc) (nr : UInt32) : UInt32 :=
  2 + sb.imapBlocks.toUInt32 + sb.zmapBlocks.toUInt32 + (nr - 1) / BLOCK_INODES

/-- `inode_t` with its lock; of `desc` the device and the block of the buffer it points into, and the index there. -/
structure Inode (T : Type) where
  dev : Int32
  nr : UInt32
  count : ℕ
  desc : Option (Int32 × UInt32 × UInt32)
  value : Bool
  holder : Option T
  repeats : ℕ
  waiters : List T

/-- Where a task is. -/
inductive Pc
  | idle
  /-- In `mutex_lock`, for an inode it has found. -/
  | found (dev : Int32) (nr : UInt32) (i : ℕ)
  /-- In `mutex_lock`, for an inode that was not in use. -/
  | fresh (dev : Int32) (nr : UInt32) (i : ℕ)
  /-- In `bread`, for a block of a device. -/
  | loading (dev : Int32) (block nr : UInt32) (i : ℕ)
  /-- In the `task_yield` of `mutex_unlock`. -/
  | returning (i : ℕ)
  /-- In `brelease`. -/
  | releasing (i : ℕ)
  deriving DecidableEq

/-- A reference `iget` has taken: for whom, what it was asked for, and the inode it returns. -/
structure Ref (T : Type) where
  task : T
  dev : Int32
  nr : UInt32
  slot : ℕ
  deriving DecidableEq

/-- `inode_table`, the list of each super block, and the tasks with the references they hold. -/
structure Inodes (T : Type) where
  slots : ℕ → Inode T
  lists : Int32 → List ℕ
  pc : T → Pc
  refs : List (Ref T)

inductive InodeEvent (T : Type)
  | iget (t : T) (dev : Int32) (nr : UInt32)
  /-- The loop of `mutex_lock` goes round again. -/
  | wake (t : T)
  /-- `bread` returns. -/
  | bread (t : T)
  | resume (t : T)
  | iput (r : Ref T)
  /-- `brelease` returns. -/
  | released (t : T)

namespace Inodes

variable {T : Type} [DecidableEq T]

def upd (s : Inodes T) (i : ℕ) (f : Inode T → Inode T) : Inodes T :=
  { s with slots := Function.update s.slots i (f (s.slots i)) }

def goto (s : Inodes T) (t : T) (p : Pc) : Inodes T := { s with pc := Function.update s.pc t p }

def findInode (s : Inodes T) (dev : Int32) (nr : UInt32) : Option ℕ :=
  (s.lists dev).find? fun i => (s.slots i).nr = nr

def getFreeInode (s : Inodes T) : Option ℕ := (List.range INODE_NR).find? fun i => (s.slots i).dev = EOF

/-- One round of `mutex_lock`: whether the lock is taken, or the task blocks. -/
def mutexLock (s : Inodes T) (t : T) (i : ℕ) : Except Halt (Bool × Inodes T) :=
  if (s.slots i).value then .ok (false, s.upd i fun n => { n with waiters := t :: n.waiters })
  else do
    assert "lock->repeat == 0" ((s.slots i).repeats = 0)
    .ok (true, s.upd i fun n => { n with value := true, holder := some t, repeats := 1 })

def reentrantLock (s : Inodes T) (t : T) (i : ℕ) : Except Halt (Bool × Inodes T) :=
  if (s.slots i).holder = some t then .ok (true, s.upd i fun n => { n with repeats := n.repeats + 1 })
  else s.mutexLock t i

/-- `reentrant_unlock`; the result is whether it yields to a task it has woken. -/
def reentrantUnlock (s : Inodes T) (t : T) (i : ℕ) : Except Halt (Bool × Inodes T) := do
  assert "lock->holder == current" ((s.slots i).holder = some t)
  let s := s.upd i fun n => { n with repeats := n.repeats - 1 }
  if (s.slots i).repeats = 0 then
    assert "mutex->value == true" (s.slots i).value
    let s := s.upd i fun n => { n with holder := none, value := false }
    .ok ((s.slots i).waiters ≠ [], s.upd i fun n => { n with waiters := n.waiters.dropLast })
  else .ok (false, s)

/-- The end of `iget`: the lock is given back. -/
def igetReturn (s : Inodes T) (t : T) (i : ℕ) : Except Halt (Inodes T) := do
  let (yields, s) ← s.reentrantUnlock t i
  .ok (s.goto t (if yields then .returning i else .idle))

/-- `iget` with the lock of an inode it has found. -/
def igetFound (s : Inodes T) (t : T) (dev : Int32) (nr : UInt32) (i : ℕ) : Except Halt (Inodes T) :=
  let s := s.upd i fun n => { n with count := n.count + 1 }
  { s with refs := ⟨t, dev, nr, i⟩ :: s.refs }.igetReturn t i

/-- `iget` with the lock of an inode that was not in use, up to `bread`. -/
def igetFresh (s : Inodes T) (sb : SuperDesc) (t : T) (dev : Int32) (nr : UInt32) (i : ℕ) :
    Except Halt (Inodes T) := do
  let s := s.upd i fun n => { n with dev := dev, nr := nr, count := n.count + 1 }
  assert "!list_search(list, node)" (i ∉ s.lists dev)
  let s := { s with lists := Function.update s.lists dev (i :: s.lists dev), refs := ⟨t, dev, nr, i⟩ :: s.refs }
  .ok (s.goto t (.loading dev (inodeBlock sb nr) nr i))

def iget (m : Supers) (s : Inodes T) (t : T) (dev : Int32) (nr : UInt32) : Except Halt (Inodes T) :=
  match m.desc dev with
  | none => .error (.assertion "sb")
  | some sb =>
    match s.findInode dev nr with
    | some i => do
      let (taken, s) ← s.reentrantLock t i
      if taken then s.igetFound t dev nr i else .ok (s.goto t (.found dev nr i))
    | none =>
      match s.getFreeInode with
      | none => .error (.panic "no more inode!!!")
      | some i => do
        let (taken, s) ← s.reentrantLock t i
        if taken then s.igetFresh sb t dev nr i else .ok (s.goto t (.fresh dev nr i))

/-- `iget` after `bread`. -/
def igetBread (s : Inodes T) (t : T) (dev : Int32) (block : UInt32) (i : ℕ) : Except Halt (Inodes T) :=
  (s.upd i fun n => { n with desc := some (dev, block, (n.nr - 1) % BLOCK_INODES) }).igetReturn t i

/-- `iput`, up to `brelease`. -/
def iput (s : Inodes T) (r : Ref T) : Except Halt (Inodes T) := do
  let s := s.upd r.slot fun n => { n with count := n.count - 1 }
  let s := { s with refs := s.refs.erase r }
  if (s.slots r.slot).count ≠ 0 then .ok s
  else
    let dev := (s.slots r.slot).dev
    assert "node->prev != NULL" (r.slot ∈ s.lists dev)
    let s := { s with lists := Function.update s.lists dev ((s.lists dev).erase r.slot) }
    .ok (s.goto r.task (.releasing r.slot))

def putFreeInode (s : Inodes T) (i : ℕ) : Except Halt (Inodes T) := do
  assert "inode != inode_table" (i ≠ 0)
  assert "inode->count == 0" ((s.slots i).count = 0)
  .ok (s.upd i fun n => { n with dev := EOF })

/-- The task can make the step: it is there, and not blocked. -/
def enabled (s : Inodes T) : InodeEvent T → Bool
  | .iget t _ _ => s.pc t = .idle
  | .wake t =>
    match s.pc t with
    | .found _ _ i | .fresh _ _ i => t ∉ (s.slots i).waiters
    | _ => false
  | .bread t =>
    match s.pc t with
    | .loading .. => true
    | _ => false
  | .resume t =>
    match s.pc t with
    | .returning _ => true
    | _ => false
  | .iput r => s.pc r.task = .idle && r ∈ s.refs
  | .released t =>
    match s.pc t with
    | .releasing _ => true
    | _ => false

def exec (m : Supers) (s : Inodes T) : InodeEvent T → Except Halt (Inodes T)
  | .iget t dev nr => s.iget m t dev nr
  | .wake t =>
    match s.pc t with
    | .found dev nr i => do
      let (taken, s) ← s.mutexLock t i
      if taken then s.igetFound t dev nr i else .ok (s.goto t (.found dev nr i))
    | .fresh dev nr i => do
      let (taken, s) ← s.mutexLock t i
      match m.desc dev with
      | none => .error (.assertion "sb")
      | some sb => if taken then s.igetFresh sb t dev nr i else .ok (s.goto t (.fresh dev nr i))
    | _ => .ok s
  | .bread t =>
    match s.pc t with
    | .loading dev block _ i => s.igetBread t dev block i
    | _ => .ok s
  | .resume t => .ok (s.goto t .idle)
  | .iput r => s.iput r
  | .released t =>
    match s.pc t with
    | .releasing i => do
      let s ← s.putFreeInode i
      .ok (s.goto t .idle)
    | _ => .ok s

def Step (m : Supers) (s : Inodes T) (e : InodeEvent T) (s' : Inodes T) : Prop :=
  s.enabled e = true ∧ s.exec m e = .ok s'

/-- After `inode_init`. -/
def Init (s : Inodes T) : Prop :=
  (∀ i, (s.slots i).dev = EOF ∧ (s.slots i).count = 0 ∧ (s.slots i).value = false ∧ (s.slots i).holder = none ∧
    (s.slots i).repeats = 0 ∧ (s.slots i).waiters = []) ∧
  (∀ dev, s.lists dev = []) ∧ (∀ t, s.pc t = .idle) ∧ s.refs = []

/-! ### The invariant -/

/-- What each slot says, and where the tasks are that wait for it. -/
structure Inv (m : Supers) (s : Inodes T) : Prop where
  count : ∀ i, (s.slots i).count = s.refs.countP fun r => r.slot = i
  ref : ∀ r ∈ s.refs, (s.slots r.slot).dev = r.dev ∧ (s.slots r.slot).nr = r.nr ∧ m.desc r.dev ≠ none
  sole : ∀ r ∈ s.refs, (s.slots r.slot).value = true → (s.slots r.slot).holder = some r.task
  listed : ∀ dev i, i ∈ s.lists dev ↔ (s.slots i).dev = dev ∧ 0 < (s.slots i).count
  nodup : ∀ dev, (s.lists dev).Nodup
  unique : ∀ i j, 0 < (s.slots i).count → 0 < (s.slots j).count → (s.slots i).dev = (s.slots j).dev →
    (s.slots i).nr = (s.slots j).nr → i = j
  desc : ∀ i, 0 < (s.slots i).count → (s.slots i).value = false → ∀ sb, m.desc (s.slots i).dev = some sb →
    (s.slots i).desc = some ((s.slots i).dev, inodeBlock sb (s.slots i).nr, ((s.slots i).nr - 1) % BLOCK_INODES)
  loading : ∀ t dev block nr i, s.pc t = .loading dev block nr i → (s.slots i).value = true ∧
    (s.slots i).holder = some t ∧ (s.slots i).repeats = 1 ∧ (s.slots i).dev = dev ∧ (s.slots i).nr = nr ∧
    0 < (s.slots i).count ∧ ∀ sb, m.desc dev = some sb → block = inodeBlock sb nr
  locked : ∀ i, (s.slots i).value = true → ∃ t dev block nr, s.pc t = .loading dev block nr i
  unlocked : ∀ i, (s.slots i).value = false → (s.slots i).holder = none ∧ (s.slots i).repeats = 0
  found : ∀ t dev nr i, s.pc t = .found dev nr i → (s.slots i).dev = dev ∧ (s.slots i).nr = nr ∧ 0 < (s.slots i).count ∧
    m.desc dev ≠ none
  fresh : ∀ t dev nr i, s.pc t ≠ .fresh dev nr i
  free : ∀ i, (s.slots i).dev = EOF → (s.slots i).count = 0
  releasing : ∀ t i, s.pc t = .releasing i → (s.slots i).count = 0 ∧ (s.slots i).dev ≠ EOF ∧
    ∀ t', s.pc t' = .releasing i → t' = t

variable {m : Supers} {s s' : Inodes T}

/-- An inode whose lock is given back. -/
def unlock (n : Inode T) : Inode T :=
  { n with value := false, holder := none, repeats := 0, waiters := n.waiters.dropLast }

theorem igetReturn_eq {t : T} {i : ℕ} (hh : (s.slots i).holder = some t) (hr : (s.slots i).repeats = 1)
    (hv : (s.slots i).value = true) : ∃ p, (p = .idle ∨ p = .returning i) ∧
      s.igetReturn t i = .ok ((s.upd i unlock).goto t p) := by
  refine ⟨if (s.slots i).waiters ≠ [] then .returning i else .idle, by split_ifs <;> simp, ?_⟩
  simp only [igetReturn, reentrantUnlock, hh, decide_true, assert_true, ok_bind, upd, Function.update_self, hr,
    Nat.sub_self, if_true, hv, Function.update_idem, unlock, decide_eq_true_eq]

/-- A reference to an inode whose lock is free. -/
theorem Inv.take (h : Inv m s) {t : T} {dev : Int32} {nr : UInt32} {i : ℕ} {p : Pc}
    (hpc : s.pc t = .idle ∨ s.pc t = .found dev nr i) (hp : p = .idle ∨ p = .returning i)
    (hv : (s.slots i).value = false) (hd : (s.slots i).dev = dev) (hn : (s.slots i).nr = nr)
    (hc : 0 < (s.slots i).count) (hm : m.desc dev ≠ none) :
    Inv m ⟨Function.update s.slots i (unlock { s.slots i with count := (s.slots i).count + 1 }), s.lists,
      Function.update s.pc t p, ⟨t, dev, nr, i⟩ :: s.refs⟩ := by
  refine ⟨?_, ?_, ?_, ?_, h.nodup, ?_, ?_, ?_, ?_, ?_, ?_, ?_, ?_, ?_⟩ <;> simp only [Function.update_apply, unlock]
  · intro j
    have := h.count j
    rw [List.countP_cons]
    grind
  · have := h.ref
    grind
  · have := h.sole
    grind
  · have := h.listed
    grind
  · have := h.unique
    grind
  · have := h.desc
    grind
  · have := h.loading
    grind
  · have := h.locked
    grind
  · have := h.unlocked
    grind
  · have := h.found
    grind
  · have := h.fresh
    grind
  · have := h.free
    grind
  · have := h.releasing
    grind

/-- A task waits for the inode it has found. -/
theorem Inv.block (h : Inv m s) {t : T} {dev : Int32} {nr : UInt32} {i : ℕ}
    (hpc : s.pc t = .idle ∨ s.pc t = .found dev nr i) (hd : (s.slots i).dev = dev) (hn : (s.slots i).nr = nr)
    (hc : 0 < (s.slots i).count) (hm : m.desc dev ≠ none) :
    Inv m ⟨Function.update s.slots i { s.slots i with waiters := t :: (s.slots i).waiters }, s.lists,
      Function.update s.pc t (.found dev nr i), s.refs⟩ := by
  refine ⟨?_, ?_, ?_, ?_, h.nodup, ?_, ?_, ?_, ?_, ?_, ?_, ?_, ?_, ?_⟩ <;> simp only [Function.update_apply]
  · have := h.count
    grind
  · have := h.ref
    grind
  · have := h.sole
    grind
  · have := h.listed
    grind
  · have := h.unique
    grind
  · have := h.desc
    grind
  · have := h.loading
    grind
  · have := h.locked
    grind
  · have := h.unlocked
    grind
  · have := h.found
    grind
  · have := h.fresh
    grind
  · have := h.free
    grind
  · have := h.releasing
    grind

/-- A slot that was not in use is given to an inode. -/
theorem Inv.load (h : Inv m s) {t : T} {dev : Int32} {nr : UInt32} {i : ℕ} {sb : SuperDesc} (hpc : s.pc t = .idle)
    (hfree : (s.slots i).dev = EOF) (hm : m.desc dev = some sb) (hnew : ∀ j ∈ s.lists dev, (s.slots j).nr ≠ nr) :
    Inv m ⟨Function.update s.slots i { s.slots i with
        dev := dev, nr := nr, count := (s.slots i).count + 1, value := true, holder := some t, repeats := 1 },
      Function.update s.lists dev (i :: s.lists dev),
      Function.update s.pc t (.loading dev (inodeBlock sb nr) nr i), ⟨t, dev, nr, i⟩ :: s.refs⟩ := by
  have hdev : dev ≠ EOF := by
    rintro rfl
    rw [m.eof] at hm
    cases hm
  have hzero := h.free i hfree
  have hnone : ∀ r ∈ s.refs, r.slot ≠ i := fun r hr he => by
    have h1 := (h.ref r hr).2.2
    rw [← (h.ref r hr).1, he, hfree] at h1
    exact h1 m.eof
  refine ⟨?_, ?_, ?_, ?_, ?_, ?_, ?_, ?_, ?_, ?_, ?_, ?_, ?_, ?_⟩ <;> simp only [Function.update_apply]
  · intro j
    have := h.count j
    rw [List.countP_cons]
    grind
  · have := h.ref
    grind
  · have := h.sole
    grind
  · have := h.listed
    grind
  · have h1 := h.nodup
    have h2 := h.listed
    grind
  · have h1 := h.unique
    have h2 := h.listed
    grind
  · have := h.desc
    grind
  · have := h.loading
    grind
  · intro j hj
    by_cases he : j = i
    · exact ⟨t, dev, inodeBlock sb nr, nr, by rw [if_pos rfl, he]⟩
    · obtain ⟨t', d, b, n, ht⟩ := h.locked j (by rwa [if_neg he] at hj)
      exact ⟨t', d, b, n, by grind⟩
  · have := h.unlocked
    grind
  · have := h.found
    grind
  · have := h.fresh
    grind
  · have := h.free
    grind
  · have := h.releasing
    grind

/-- The block of the inode has been read. -/
theorem Inv.loaded (h : Inv m s) {t : T} {dev : Int32} {block nr : UInt32} {i : ℕ} {p : Pc}
    (hpc : s.pc t = .loading dev block nr i) (hp : p = .idle ∨ p = .returning i) :
    Inv m ⟨Function.update s.slots i (unlock { s.slots i with
        desc := some (dev, block, ((s.slots i).nr - 1) % BLOCK_INODES) }), s.lists, Function.update s.pc t p, s.refs⟩ := by
  have hself := h.loading _ _ _ _ _ hpc
  refine ⟨?_, ?_, ?_, ?_, h.nodup, ?_, ?_, ?_, ?_, ?_, ?_, ?_, ?_, ?_⟩ <;> simp only [Function.update_apply, unlock]
  · have := h.count
    grind
  · have := h.ref
    grind
  · have := h.sole
    grind
  · have := h.listed
    grind
  · have := h.unique
    grind
  · have := h.desc
    grind
  · have := h.loading
    grind
  · have := h.locked
    grind
  · have := h.unlocked
    grind
  · have := h.found
    grind
  · have := h.fresh
    grind
  · have := h.free
    grind
  · have := h.releasing
    grind

/-- A reference is given back, and is not the last one. -/
theorem Inv.drop (h : Inv m s) {r : Ref T} (hr : r ∈ s.refs) (hc : (s.slots r.slot).count ≠ 1) :
    Inv m ⟨Function.update s.slots r.slot { s.slots r.slot with count := (s.slots r.slot).count - 1 }, s.lists, s.pc,
      s.refs.erase r⟩ := by
  have hcount : ∀ j, s.refs.countP (fun r' => r'.slot = j) =
      (s.refs.erase r).countP (fun r' => r'.slot = j) + if r.slot = j then 1 else 0 := fun j => by
    rw [(List.perm_cons_erase hr).countP_eq, List.countP_cons]
    simp
  have hmem : ∀ r' ∈ s.refs.erase r, r' ∈ s.refs := fun _ => List.mem_of_mem_erase
  have hself := h.count r.slot
  have hself' := hcount r.slot
  refine ⟨?_, ?_, ?_, ?_, h.nodup, ?_, ?_, ?_, ?_, ?_, ?_, h.fresh, ?_, ?_⟩ <;> simp only [Function.update_apply]
  · intro j
    have h1 := h.count j
    have h2 := hcount j
    grind
  · have := h.ref
    grind
  · have := h.sole
    grind
  · have := h.listed
    grind
  · have := h.unique
    grind
  · have := h.desc
    grind
  · have := h.loading
    grind
  · have := h.locked
    grind
  · have := h.unlocked
    grind
  · have := h.found
    grind
  · have := h.free
    grind
  · have := h.releasing
    grind

omit [DecidableEq T] in
/-- A task that has a reference and does nothing else holds no lock. -/
theorem Inv.unlocked_of_idle (h : Inv m s) {r : Ref T} (hr : r ∈ s.refs) (hpc : s.pc r.task = .idle) :
    (s.slots r.slot).value = false := by
  by_contra hv
  have hv : (s.slots r.slot).value = true := by simpa using hv
  obtain ⟨t, dev, block, nr, ht⟩ := h.locked _ hv
  have h1 := (h.loading _ _ _ _ _ ht).2.1
  rw [h.sole r hr hv] at h1
  rw [← Option.some.inj h1, hpc] at ht
  cases ht

/-- The last reference is given back while no task waits for the inode. -/
theorem Inv.last (h : Inv m s) {r : Ref T} (hr : r ∈ s.refs) (hpc : s.pc r.task = .idle)
    (hc : (s.slots r.slot).count = 1) (hw : ∀ t dev nr, s.pc t ≠ .found dev nr r.slot) :
    Inv m ⟨Function.update s.slots r.slot { s.slots r.slot with count := (s.slots r.slot).count - 1 },
      Function.update s.lists (s.slots r.slot).dev ((s.lists (s.slots r.slot).dev).erase r.slot),
      Function.update s.pc r.task (.releasing r.slot), s.refs.erase r⟩ := by
  have hcount : ∀ j, s.refs.countP (fun r' => r'.slot = j) =
      (s.refs.erase r).countP (fun r' => r'.slot = j) + if r.slot = j then 1 else 0 := fun j => by
    rw [(List.perm_cons_erase hr).countP_eq, List.countP_cons]
    simp
  have hmem : ∀ r' ∈ s.refs.erase r, r' ∈ s.refs := fun _ => List.mem_of_mem_erase
  have hnone : ∀ r' ∈ s.refs.erase r, r'.slot ≠ r.slot := by
    have h1 := h.count r.slot
    have h2 := hcount r.slot
    rw [if_pos rfl] at h2
    have h3 : (s.refs.erase r).countP (fun r' => r'.slot = r.slot) = 0 := by omega
    exact fun r' hr' => by simpa using List.countP_eq_zero.mp h3 r' hr'
  have hv := h.unlocked_of_idle hr hpc
  have hdev : (s.slots r.slot).dev ≠ EOF := fun he => by
    have := h.free _ he
    omega
  have hsame : ∀ j, j ∈ (s.lists (s.slots r.slot).dev).erase r.slot ↔ j ≠ r.slot ∧ j ∈ s.lists (s.slots r.slot).dev :=
    fun j => (h.nodup _).mem_erase_iff
  refine ⟨?_, ?_, ?_, ?_, ?_, ?_, ?_, ?_, ?_, ?_, ?_, ?_, ?_, ?_⟩ <;> simp only [Function.update_apply]
  · intro j
    have h1 := h.count j
    have h2 := hcount j
    grind
  · have := h.ref
    grind
  · have := h.sole
    grind
  · have := h.listed
    grind
  · intro dev
    split_ifs
    · exact (h.nodup _).erase _
    · exact h.nodup dev
  · have := h.unique
    grind
  · have := h.desc
    grind
  · have := h.loading
    grind
  · have := h.locked
    grind
  · have := h.unlocked
    grind
  · have := h.found
    grind
  · have := h.fresh
    grind
  · have := h.free
    grind
  · have := h.releasing
    grind

/-- The slot of an inode that has been given back is free. -/
theorem Inv.put (h : Inv m s) {t : T} {i : ℕ} (hpc : s.pc t = .releasing i) :
    Inv m ⟨Function.update s.slots i { s.slots i with dev := EOF }, s.lists, Function.update s.pc t .idle, s.refs⟩ := by
  have hself := h.releasing t i hpc
  have hnone : ∀ r ∈ s.refs, r.slot ≠ i := by
    have h1 := (h.count i).symm.trans hself.1
    exact fun r hr => by simpa using List.countP_eq_zero.mp h1 r hr
  refine ⟨?_, ?_, ?_, ?_, h.nodup, ?_, ?_, ?_, ?_, ?_, ?_, ?_, ?_, ?_⟩ <;> simp only [Function.update_apply]
  · have := h.count
    grind
  · have := h.ref
    grind
  · have := h.sole
    grind
  · have := h.listed
    grind
  · have := h.unique
    grind
  · have := h.desc
    grind
  · have := h.loading
    grind
  · have := h.locked
    grind
  · have := h.unlocked
    grind
  · have := h.found
    grind
  · have := h.fresh
    grind
  · have := h.free
    grind
  · have := h.releasing
    grind

theorem Inv.resume (h : Inv m s) {t : T} {i : ℕ} (hpc : s.pc t = .returning i) : Inv m (s.goto t .idle) := by
  refine ⟨h.count, h.ref, h.sole, h.listed, h.nodup, h.unique, h.desc, ?_, ?_, h.unlocked, ?_, ?_, h.free, ?_⟩ <;>
    simp only [goto, Function.update_apply]
  · have := h.loading
    grind
  · have := h.locked
    grind
  · have := h.found
    grind
  · have := h.fresh
    grind
  · have := h.releasing
    grind

omit [DecidableEq T] in
theorem inv_init (h : Init s) : Inv m s := by
  obtain ⟨hslot, hlist, hpc, hrefs⟩ := h
  refine ⟨?_, ?_, ?_, ?_, ?_, ?_, ?_, ?_, ?_, ?_, ?_, ?_, ?_, ?_⟩
  all_goals grind

/-! ### Steps -/

/-- No `iput` gives back the last reference to an inode that a task waits for in `iget`. -/
def Unwaited (s : Inodes T) : InodeEvent T → Prop
  | .iput r => (s.slots r.slot).count = 1 → ∀ t dev nr, s.pc t ≠ .found dev nr r.slot
  | _ => True

omit [DecidableEq T] in
theorem mutexLock_free {t : T} {i : ℕ} (hv : (s.slots i).value = false) (hr : (s.slots i).repeats = 0) :
    s.mutexLock t i = .ok (true, s.upd i fun n => { n with value := true, holder := some t, repeats := 1 }) := by
  simp [mutexLock, hv, hr]

omit [DecidableEq T] in
theorem mutexLock_held {t : T} {i : ℕ} (hv : (s.slots i).value = true) :
    s.mutexLock t i = .ok (false, s.upd i fun n => { n with waiters := t :: n.waiters }) := by
  simp [mutexLock, hv]

theorem igetFound_eq (s : Inodes T) (t : T) (dev : Int32) (nr : UInt32) (i : ℕ) :
    ∃ p, (p = .idle ∨ p = .returning i) ∧
      (s.upd i fun n => { n with value := true, holder := some t, repeats := 1 }).igetFound t dev nr i =
        .ok ⟨Function.update s.slots i (unlock { s.slots i with count := (s.slots i).count + 1 }), s.lists,
          Function.update s.pc t p, ⟨t, dev, nr, i⟩ :: s.refs⟩ := by
  unfold igetFound
  dsimp only
  obtain ⟨p, hp, he⟩ := igetReturn_eq (t := t) (i := i) (s := { (s.upd i fun n => { n with
    value := true, holder := some t, repeats := 1 }).upd i fun n => { n with count := n.count + 1 } with
    refs := ⟨t, dev, nr, i⟩ :: s.refs }) (by simp [upd]) (by simp [upd]) (by simp [upd])
  refine ⟨p, hp, he.trans ?_⟩
  simp only [upd, goto, Function.update_self, Function.update_idem, unlock]

/-- The lock of an inode the task has found is free, or it waits. -/
theorem Inv.lockFound (h : Inv m s) {t : T} {dev : Int32} {nr : UInt32} {i : ℕ}
    (hpc : s.pc t = .idle ∨ s.pc t = .found dev nr i) (hd : (s.slots i).dev = dev) (hn : (s.slots i).nr = nr)
    (hc : 0 < (s.slots i).count) (hm : m.desc dev ≠ none) {p : Bool × Inodes T} (hp : s.mutexLock t i = .ok p)
    (he : (if p.1 then p.2.igetFound t dev nr i else .ok (p.2.goto t (.found dev nr i))) = .ok s') : Inv m s' := by
  by_cases hv : (s.slots i).value = true
  · rw [mutexLock_held hv] at hp
    cases hp
    rw [if_neg Bool.false_ne_true] at he
    cases he
    exact h.block hpc hd hn hc hm
  · have hv : (s.slots i).value = false := by simpa using hv
    rw [mutexLock_free hv (h.unlocked i hv).2] at hp
    cases hp
    rw [if_pos rfl] at he
    obtain ⟨p, hp, he'⟩ := igetFound_eq s t dev nr i
    rw [he'] at he
    cases he
    exact h.take hpc hp hv hd hn hc hm

omit [DecidableEq T] in
/-- The lock of a slot that is not in use is free. -/
theorem Inv.unlocked_of_free (h : Inv m s) {i : ℕ} (hfree : (s.slots i).dev = EOF) : (s.slots i).value = false := by
  by_contra hv
  obtain ⟨t, dev, block, nr, ht⟩ := h.locked i (by simpa using hv)
  have := (h.loading _ _ _ _ _ ht).2.2.2.2.2.1
  have := h.free i hfree
  omega

omit [DecidableEq T] in
/-- A task that is at the start of `iget` holds no lock. -/
theorem Inv.holder_ne (h : Inv m s) {t : T} {i : ℕ} (hpc : s.pc t = .idle) : (s.slots i).holder ≠ some t := by
  intro hh
  by_cases hv : (s.slots i).value = true
  · obtain ⟨t', dev, block, nr, ht⟩ := h.locked i hv
    have h1 := (h.loading _ _ _ _ _ ht).2.1
    rw [hh] at h1
    rw [← Option.some.inj h1, hpc] at ht
    cases ht
  · rw [(h.unlocked i (by simpa using hv)).1] at hh
    cases hh

theorem Inv.iget (h : Inv m s) {t : T} {dev : Int32} {nr : UInt32} (hpc : s.pc t = .idle)
    (he : s.iget m t dev nr = .ok s') : Inv m s' := by
  unfold Inodes.iget at he
  cases hm : m.desc dev with
  | none =>
    rw [hm] at he
    cases he
  | some sb =>
    rw [hm] at he
    dsimp only at he
    split at he
    · rename_i i hfind
      have hnr : (s.slots i).nr = nr := by simpa using List.find?_some hfind
      obtain ⟨hd, hc⟩ := (h.listed dev i).mp (List.mem_of_find?_eq_some hfind)
      obtain ⟨p, hp, he⟩ := bind_ok.mp he
      rw [reentrantLock, if_neg (h.holder_ne hpc)] at hp
      exact h.lockFound (Or.inl hpc) hd hnr hc (by rw [hm]; exact nofun) hp he
    · rename_i hnone
      split at he
      · cases he
      · rename_i i hfind
        have hfree : (s.slots i).dev = EOF := by simpa using List.find?_some hfind
        have hv := h.unlocked_of_free hfree
        rw [reentrantLock, if_neg (h.holder_ne hpc), mutexLock_free hv (h.unlocked i hv).2, ok_bind] at he
        simp only [if_true, igetFresh, upd, Function.update_self, Function.update_idem, goto] at he
        obtain ⟨_, -, he⟩ := bind_ok.mp he
        cases he
        exact h.load hpc hfree hm fun j hj => by simpa using List.find?_eq_none.mp hnone j hj

theorem Inv.iput (h : Inv m s) {r : Ref T} (hpc : s.pc r.task = .idle) (hr : r ∈ s.refs)
    (hu : (s.slots r.slot).count = 1 → ∀ t dev nr, s.pc t ≠ .found dev nr r.slot) (he : s.iput r = .ok s') :
    Inv m s' := by
  have hpos : 0 < (s.slots r.slot).count := by
    rw [h.count]
    exact List.countP_pos_iff.mpr ⟨r, hr, by simp⟩
  unfold Inodes.iput at he
  simp only [upd, Function.update_self, goto] at he
  split_ifs at he with hc
  · cases he
    exact h.drop hr (by omega)
  · obtain ⟨_, -, he⟩ := bind_ok.mp he
    cases he
    have hone : (s.slots r.slot).count = 1 := by omega
    exact h.last hr hpc hone (hu hone)

theorem Inv.step (h : Inv m s) {e : InodeEvent T} (hu : s.Unwaited e) (hs : Step m s e s') : Inv m s' := by
  obtain ⟨hen, he⟩ := hs
  cases e with
  | iget t dev nr => exact h.iget (by simpa [enabled] using hen) he
  | wake t =>
    simp only [exec] at he
    cases hpc : s.pc t with
    | found dev nr i =>
      rw [hpc] at he
      dsimp only at he
      obtain ⟨hd, hn, hc, hm⟩ := h.found _ _ _ _ hpc
      obtain ⟨p, hp, he⟩ := bind_ok.mp he
      exact h.lockFound (Or.inr hpc) hd hn hc hm hp he
    | fresh dev nr i => exact absurd hpc (h.fresh t dev nr i)
    | _ => simp [enabled, hpc] at hen
  | bread t =>
    simp only [exec] at he
    cases hpc : s.pc t with
    | loading dev block nr i =>
      rw [hpc] at he
      obtain ⟨hv, hh, hr, -⟩ := h.loading _ _ _ _ _ hpc
      obtain ⟨p, hp, he'⟩ := igetReturn_eq (t := t) (i := i) (s := s.upd i fun n => { n with
        desc := some (dev, block, (n.nr - 1) % BLOCK_INODES) }) (by simp [upd, hh]) (by simp [upd, hr])
        (by simp [upd, hv])
      dsimp only [igetBread] at he
      rw [he'] at he
      cases he
      have := h.loaded hpc hp
      simpa only [upd, goto, Function.update_self, Function.update_idem] using this
    | _ => simp [enabled, hpc] at hen
  | resume t =>
    cases hpc : s.pc t with
    | returning i =>
      cases he
      exact h.resume hpc
    | _ => simp [enabled, hpc] at hen
  | iput r =>
    simp only [enabled, Bool.and_eq_true, decide_eq_true_eq] at hen
    exact h.iput hen.1 hen.2 hu he
  | released t =>
    simp only [exec] at he
    cases hpc : s.pc t with
    | releasing i =>
      rw [hpc] at he
      dsimp only [putFreeInode] at he
      obtain ⟨s₁, h1, he⟩ := bind_ok.mp he
      obtain ⟨_, -, h1⟩ := bind_ok.mp h1
      obtain ⟨_, -, h1⟩ := bind_ok.mp h1
      cases h1
      cases he
      exact h.put hpc
    | _ => simp [enabled, hpc] at hen

/-! ### Runs -/

/-- The event leaves a reference where it gives one back. -/
def keepsOne (s : Inodes T) : InodeEvent T → Bool
  | .iput r => (s.slots r.slot).count ≠ 1
  | _ => true

omit [DecidableEq T] in
theorem unwaited_of_keepsOne {e : InodeEvent T} (h : s.keepsOne e = true) : s.Unwaited e := by
  cases e with
  | iput r => exact fun hc => absurd hc (by simpa [keepsOne] using h)
  | _ => trivial

/-- A step that is made, as `Step` has it; with `keep` only if it leaves a reference. -/
def attempt (keep : Bool) (m : Supers) (s : Inodes T) (e : InodeEvent T) : Option (InodeEvent T × Inodes T) :=
  if s.enabled e = true ∧ (keep → s.keepsOne e) then
    match s.exec m e with
    | .ok s' => some (e, s')
    | .error _ => none
  else none

theorem attempt_step {keep : Bool} {e e' : InodeEvent T} (h : s.attempt keep m e = some (e', s')) :
    (keep → s.Unwaited e') ∧ Step m s e' s' := by
  unfold attempt at h
  split_ifs at h with hen
  split at h
  · rename_i s₁ he
    cases h
    exact ⟨fun hk => unwaited_of_keepsOne (hen.2 hk), hen.1, he⟩
  · cases h

end Inodes
end Onix
