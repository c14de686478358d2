import Onix.Kernel.Task
import Onix.Lib.Transition

/-! The block cache of buffer.c, used by one task. A buffer is named by the address of
its descriptor; descriptors are laid out from the start of the buffer memory upwards,
the blocks of data from its end downwards. -/

set_option autoImplicit false

namespace Onix

open Lib

def KERNEL_BUFFER_MEM : ℕ := 0x800000
def KERNEL_BUFFER_SIZE : ℕ := 0x400000
def BLOCK_SIZE : ℕ := 1024
def BLOCK_SECS : UInt32 := 2
def HASH_COUNT : UInt32 := 31
def EOF : Int32 := -1
/-- `sizeof(buffer_t)` -/
def BUFFER_T_SIZE : ℕ := 64

/-- `buffer_t`; of its lock the number of times the task holds it. -/
structure Buffer where
  data : ℕ
  dev : Int32
  block : UInt32
  count : ℤ
  lock : ℕ
  dirty : Bool
  valid : Bool

/-- `device_request` for the sectors of one block: what the devices hold, and how it is read and
written at a sector. A request may halt. -/
structure BlockIo (D C : Type) where
  read : C → Int32 → UInt32 → Except Halt D
  write : C → Int32 → UInt32 → D → Except Halt C

/-- The variables of buffer.c, the blocks of data by their addresses, and the devices. -/
structure Cache (D C : Type) where
  bufferPtr : ℕ
  bufferData : ℕ
  bufs : ℕ → Buffer
  bytes : ℕ → D
  freeList : List ℕ
  hashTable : UInt32 → List ℕ
  devices : C

namespace Cache

variable {D C : Type}

def hash (dev : Int32) (block : UInt32) : UInt32 := (dev.toUInt32 ^^^ block) % HASH_COUNT

def upd (s : Cache D C) (p : ℕ) (f : Buffer → Buffer) : Cache D C :=
  { s with bufs := Function.update s.bufs p (f (s.bufs p)) }

/-- The chain a buffer belongs to. -/
def hashOf (s : Cache D C) (p : ℕ) : UInt32 := hash (s.bufs p).dev (s.bufs p).block

def getFromHashTable (s : Cache D C) (dev : Int32) (block : UInt32) : Option ℕ :=
  (s.hashTable (hash dev block)).find? fun p => (s.bufs p).dev = dev && (s.bufs p).block = block

def hashLocate (s : Cache D C) (p : ℕ) : Except Halt (Cache D C) := do
  assert "!list_search(list, &bf->hnode)" (p ∉ s.hashTable (s.hashOf p))
  .ok { s with hashTable := Function.update s.hashTable (s.hashOf p) (p :: s.hashTable (s.hashOf p)) }

def getNewBuffer (s : Cache D C) : Option (ℕ × Cache D C) :=
  if s.bufferPtr + BUFFER_T_SIZE < s.bufferData then
    some (s.bufferPtr, { s.upd s.bufferPtr fun _ => ⟨s.bufferData, EOF, 0, 0, 0, false, false⟩ with
      bufferPtr := s.bufferPtr + BUFFER_T_SIZE, bufferData := s.bufferData - BLOCK_SIZE })
  else none

/-- One round of the loop of `get_free_buffer`; without a result the task waits. -/
def getFreeBuffer (s : Cache D C) : Option (ℕ × Cache D C) :=
  match s.getNewBuffer with
  | some r => some r
  | none =>
    match s.freeList.getLast? with
    | some p => some (p, { s with freeList := s.freeList.dropLast })
    | none => none

def reentrantLock (s : Cache D C) (p : ℕ) : Cache D C := s.upd p fun b => { b with lock := b.lock + 1 }

def reentrantUnlock (s : Cache D C) (p : ℕ) : Except Halt (Cache D C) := do
  assert "lock->holder == current" (0 < (s.bufs p).lock)
  .ok (s.upd p fun b => { b with lock := b.lock - 1 })

/-- `bread` from `getagain`. -/
def breadAgain (io : BlockIo D C) (s : Cache D C) (dev : Int32) (block : UInt32) : Except Halt (Option (ℕ × Cache D C)) :=
  match s.getFreeBuffer with
  | none => .ok none
  | some (p, s) => do
    let s := s.reentrantLock p
    assert "bf->count == 0 && bf->dirty == false && bf->valid == false"
      ((s.bufs p).count = 0 && !(s.bufs p).dirty && !(s.bufs p).valid)
    let s := s.upd p fun b => { b with count := 1, dev := dev, block := block }
    let s ← s.hashLocate p
    let data ← io.read s.devices (s.bufs p).dev ((s.bufs p).block * BLOCK_SECS)
    let s := { s with bytes := Function.update s.bytes (s.bufs p).data data }
    let s := s.upd p fun b => { b with valid := true }
    let s ← s.reentrantUnlock p
    .ok (some (p, s))

/-- Without a result the task waits for a buffer. -/
def bread (io : BlockIo D C) (s : Cache D C) (dev : Int32) (block : UInt32) : Except Halt (Option (ℕ × Cache D C)) :=
  match s.getFromHashTable dev block with
  | some p => do
    let s := s.reentrantLock p
    assert "bf->valid == true" (s.bufs p).valid
    if (s.bufs p).count = 0 then do
      let s ← s.reentrantUnlock p
      s.breadAgain io dev block
    else do
      let s := s.upd p fun b => { b with count := b.count + 1 }
      let s ← s.reentrantUnlock p
      .ok (some (p, s))
  | none => s.breadAgain io dev block

def bwrite (io : BlockIo D C) (s : Cache D C) (p : ℕ) : Except Halt (Cache D C) := do
  let devices ← io.write s.devices (s.bufs p).dev ((s.bufs p).block * BLOCK_SECS) (s.bytes (s.bufs p).data)
  .ok { s with devices := devices }

/-- `list_remove` of the node in a hash chain. -/
def hashRemove (s : Cache D C) (p : ℕ) : Except Halt (Cache D C) := do
  assert "node->prev != NULL" ((List.range HASH_COUNT.toNat).any fun i => p ∈ s.hashTable i.toUInt32)
  .ok { s with hashTable := fun i => (s.hashTable i).erase p }

/-- `brelease`; nobody waits for a buffer. -/
def brelease (io : BlockIo D C) (s : Cache D C) : Option ℕ → Except Halt (Cache D C)
  | none => .ok s
  | some p => do
    let s := s.upd p fun b => { b with count := b.count - 1 }
    assert "bf->count >= 0" (0 ≤ (s.bufs p).count)
    if (s.bufs p).count ≠ 0 then .ok s
    else do
      let s ← s.hashRemove p
      let s ← if (s.bufs p).dirty then (s.upd p fun b => { b with dirty := false }).bwrite io p else .ok s
      let s := s.upd p fun b => { b with dev := EOF, block := 0, valid := false }
      assert "!list_search(list, node)" (p ∉ s.freeList)
      .ok { s with freeList := p :: s.freeList }

/-- The task calls the cache, changes the data of a buffer it holds, or marks the buffer dirty. -/
inductive Event (D : Type)
  | bread (dev : Int32) (block : UInt32) (p : ℕ)
  | brelease (p : Option ℕ)
  | bwrite (p : ℕ)
  | store (p : ℕ) (data : D)
  | mark (p : ℕ)

/-- One step of the task, with the references it holds before and after. -/
inductive Step (io : BlockIo D C) : Cache D C × List ℕ → Event D → Cache D C × List ℕ → Prop
  | bread {s s' : Cache D C} {held : List ℕ} {dev : Int32} {block : UInt32} {p : ℕ} :
      s.bread io dev block = .ok (some (p, s')) → Step io (s, held) (.bread dev block p) (s', p :: held)
  | breleaseNull {s : Cache D C} {held : List ℕ} : Step io (s, held) (.brelease none) (s, held)
  | brelease {s s' : Cache D C} {held : List ℕ} {p : ℕ} :
      p ∈ held → s.brelease io (some p) = .ok s' → Step io (s, held) (.brelease (some p)) (s', held.erase p)
  | bwrite {s s' : Cache D C} {held : List ℕ} {p : ℕ} :
      p ∈ held → s.bwrite io p = .ok s' → Step io (s, held) (.bwrite p) (s', held)
  | store {s : Cache D C} {held : List ℕ} {p : ℕ} {data : D} :
      p ∈ held → Step io (s, held) (.store p data) ({ s with bytes := Function.update s.bytes (s.bufs p).data data }, held)
  | mark {s : Cache D C} {held : List ℕ} {p : ℕ} :
      p ∈ held → Step io (s, held) (.mark p) (s.upd p fun b => { b with dirty := true }, held)

/-- After `buffer_init`. -/
def Init (x : Cache D C × List ℕ) : Prop :=
  x.1.bufferPtr = KERNEL_BUFFER_MEM ∧ x.1.bufferData = KERNEL_BUFFER_MEM + KERNEL_BUFFER_SIZE - BLOCK_SIZE ∧
    x.1.freeList = [] ∧ (∀ i, x.1.hashTable i = []) ∧ x.2 = []

/-! ### The invariant -/

/-- The addresses of the descriptors that were made. -/
def Created (s : Cache D C) (p : ℕ) : Prop := ∃ i, p = KERNEL_BUFFER_MEM + BUFFER_T_SIZE * i ∧ p < s.bufferPtr

/-- Descriptors and blocks grow towards each other in step. -/
structure Layout (s : Cache D C) : Prop where
  ptr : ∃ n, s.bufferPtr = KERNEL_BUFFER_MEM + BUFFER_T_SIZE * n ∧
    s.bufferData + BLOCK_SIZE * (n + 1) = KERNEL_BUFFER_MEM + KERNEL_BUFFER_SIZE
  room : s.bufferPtr < s.bufferData + BLOCK_SIZE
  data : ∀ i, KERNEL_BUFFER_MEM + BUFFER_T_SIZE * i < s.bufferPtr →
    (s.bufs (KERNEL_BUFFER_MEM + BUFFER_T_SIZE * i)).data + BLOCK_SIZE * (i + 1) = KERNEL_BUFFER_MEM + KERNEL_BUFFER_SIZE

/-- Every buffer is cached and held, or free; `out` is the one that is between the two. -/
structure Inv (s : Cache D C) (held : List ℕ) (out : Option ℕ) : Prop where
  layout : s.Layout
  chain : ∀ i p, p ∈ s.hashTable i → s.Created p ∧ i = s.hashOf p ∧ (s.bufs p).valid = true ∧ p ∈ held
  chainNodup : ∀ i, (s.hashTable i).Nodup
  unique : ∀ i p q, p ∈ s.hashTable i → q ∈ s.hashTable i → (s.bufs p).dev = (s.bufs q).dev →
    (s.bufs p).block = (s.bufs q).block → p = q
  free : ∀ p ∈ s.freeList, s.Created p ∧ (s.bufs p).dirty = false ∧ (s.bufs p).valid = false ∧ p ∉ held
  freeNodup : s.freeList.Nodup
  either : ∀ p, s.Created p → out ≠ some p → p ∈ s.freeList ∨ p ∈ s.hashTable (s.hashOf p)
  between : ∀ p, out = some p → s.Created p ∧ p ∉ s.freeList ∧ (∀ i, p ∉ s.hashTable i) ∧ p ∉ held
  count : ∀ p, s.Created p → (s.bufs p).count = held.count p
  unlocked : ∀ p, s.Created p → (s.bufs p).lock = 0
  held : ∀ p ∈ held, s.Created p

variable {s s' : Cache D C} {held : List ℕ} {p : ℕ}

/-- The lists and the layout do not depend on the other fields of a buffer. -/
theorem Inv.upd {held' : List ℕ} (h : s.Inv held none) (hmem : ∀ q, q ∈ held' ↔ q ∈ held) (hp : p ∈ held) {f : Buffer → Buffer}
    (hdata : ∀ b, (f b).data = b.data) (hdev : ∀ b, (f b).dev = b.dev) (hblock : ∀ b, (f b).block = b.block)
    (hvalid : ∀ b, (f b).valid = b.valid) (hlock : ∀ b, b.lock = 0 → (f b).lock = 0)
    (hcount : (f (s.bufs p)).count = held'.count p) (hcounts : ∀ q, q ≠ p → held'.count q = held.count q) :
    (s.upd p f).Inv held' none := by
  have hother : ∀ q, q ≠ p → (s.upd p f).bufs q = s.bufs q := fun q hq => Function.update_of_ne hq _ _
  have hself : (s.upd p f).bufs p = f (s.bufs p) := Function.update_self ..
  have field : ∀ {α : Type} (g : Buffer → α), (∀ b, g (f b) = g b) → ∀ q, g ((s.upd p f).bufs q) = g (s.bufs q) := by
    intro α g hg q
    by_cases hq : q = p
    · rw [hq, hself, hg]
    · rw [hother q hq]
  have hhash : ∀ q, (s.upd p f).hashOf q = s.hashOf q := fun q => by
    unfold hashOf
    rw [field _ hdev, field _ hblock]
  refine ⟨⟨h.layout.ptr, h.layout.room, fun i hi => ?_⟩, fun i q hq => ?_, h.chainNodup, fun i q r hq hr => ?_,
    fun q hq => ?_, h.freeNodup, fun q hq => ?_, nofun, fun q hq => ?_, fun q hq => ?_, fun q hq => h.held q ((hmem q).mp hq)⟩
  · rw [field _ hdata]
    exact h.layout.data i hi
  · obtain ⟨h1, h2, h3, h4⟩ := h.chain i q hq
    exact ⟨h1, by rw [hhash, h2], by rw [field _ hvalid, h3], (hmem q).mpr h4⟩
  · rw [field _ hdev, field _ hdev, field _ hblock, field _ hblock]
    exact h.unique i q r hq hr
  · obtain ⟨h1, h2, h3, h4⟩ := h.free q hq
    have hqp : q ≠ p := fun he => h4 (he ▸ hp)
    exact ⟨h1, by rw [hother q hqp, h2], by rw [field _ hvalid, h3], fun hc => h4 ((hmem q).mp hc)⟩
  · rw [hhash]
    exact h.either q hq
  · by_cases hqp : q = p
    · rw [hqp, hself, hcount]
    · rw [hother q hqp, hcounts q hqp]
      exact h.count q hq
  · by_cases hqp : q = p
    · rw [hqp, hself]
      exact hlock _ (h.unlocked p (h.held p hp))
    · rw [hother q hqp]
      exact h.unlocked q hq

/-- A held buffer is cached. -/
theorem Inv.cached (h : s.Inv held none) (hp : p ∈ held) : p ∈ s.hashTable (s.hashOf p) ∧ p ∉ s.freeList := by
  have hfree : p ∉ s.freeList := fun hf => (h.free p hf).2.2.2 hp
  exact ⟨(h.either p (h.held p hp) nofun).resolve_left hfree, hfree⟩

theorem created_step {n : ℕ} (hptr : s.bufferPtr = KERNEL_BUFFER_MEM + BUFFER_T_SIZE * n)
    (hnext : s'.bufferPtr = s.bufferPtr + BUFFER_T_SIZE) (q : ℕ) : s'.Created q ↔ s.Created q ∨ q = s.bufferPtr := by
  unfold Created BUFFER_T_SIZE at *
  rw [hnext]
  constructor
  · rintro ⟨i, rfl, hlt⟩
    by_cases hi : i = n
    · exact Or.inr (by rw [hi, hptr])
    · exact Or.inl ⟨i, rfl, by omega⟩
  · rintro (⟨i, rfl, hlt⟩ | rfl)
    · exact ⟨i, rfl, by omega⟩
    · exact ⟨n, hptr, by omega⟩

theorem layout_step {ptr data n : ℕ} (hptr : ptr = KERNEL_BUFFER_MEM + BUFFER_T_SIZE * n)
    (hdata : data + BLOCK_SIZE * (n + 1) = KERNEL_BUFFER_MEM + KERNEL_BUFFER_SIZE) (hnew : ptr + BUFFER_T_SIZE < data) :
    data - BLOCK_SIZE + BLOCK_SIZE * (n + 1 + 1) = KERNEL_BUFFER_MEM + KERNEL_BUFFER_SIZE ∧
      ptr + BUFFER_T_SIZE < data - BLOCK_SIZE + BLOCK_SIZE := by
  simp only [BUFFER_T_SIZE, BLOCK_SIZE, KERNEL_BUFFER_MEM, KERNEL_BUFFER_SIZE] at hptr hdata hnew ⊢
  omega

/-- A new descriptor lies outside everything that exists. -/
theorem getNewBuffer_spec (h : s.Inv held none) (hget : s.getNewBuffer = some (p, s')) :
    s'.Inv held (some p) ∧ (s'.bufs p).count = 0 ∧ (s'.bufs p).dirty = false ∧ (s'.bufs p).valid = false := by
  obtain ⟨n, hptr, hdata⟩ := h.layout.ptr
  have hroom := h.layout.room
  unfold getNewBuffer at hget
  split_ifs at hget with hnew
  cases hget
  set s' : Cache D C := { s.upd s.bufferPtr fun _ => ⟨s.bufferData, EOF, 0, 0, 0, false, false⟩ with
    bufferPtr := s.bufferPtr + BUFFER_T_SIZE, bufferData := s.bufferData - BLOCK_SIZE } with hs'
  have hptr' : s'.bufferPtr = s.bufferPtr + BUFFER_T_SIZE := rfl
  have hdata' : s'.bufferData = s.bufferData - BLOCK_SIZE := rfl
  have hcreated := created_step hptr hptr'
  have hnot : ¬ s.Created s.bufferPtr := fun ⟨_, _, hlt⟩ => lt_irrefl _ hlt
  have hself : s'.bufs s.bufferPtr = ⟨s.bufferData, EOF, 0, 0, 0, false, false⟩ := Function.update_self ..
  have hother : ∀ q, s.Created q → s'.bufs q = s.bufs q := by
    intro q hq
    refine Function.update_of_ne ?_ _ _
    rintro rfl
    exact hnot hq
  have hhash : ∀ q, s.Created q → s'.hashOf q = s.hashOf q := fun q hq => by
    unfold hashOf
    rw [hother q hq]
  have hnotheld : s.bufferPtr ∉ held := fun hp => hnot (h.held _ hp)
  refine ⟨⟨⟨⟨n + 1, ?_, ?_⟩, ?_, fun i hi => ?_⟩, fun i q hq => ?_, h.chainNodup, fun i q r hq hr => ?_, fun q hq => ?_,
    h.freeNodup, fun q hq hout => ?_, fun q hq => ?_, fun q hq => ?_, fun q hq => ?_, fun q hq => ?_⟩, ?_⟩
  · rw [hptr', hptr, Nat.mul_succ, Nat.add_assoc]
  · exact (layout_step hptr hdata hnew).1
  · exact (layout_step hptr hdata hnew).2
  · rw [hptr'] at hi
    by_cases hin : i = n
    · rw [hin, ← hptr, hself]
      exact hdata
    · have hlt : KERNEL_BUFFER_MEM + BUFFER_T_SIZE * i < s.bufferPtr := by
        simp only [BUFFER_T_SIZE] at hptr hi ⊢
        omega
      rw [hother _ ⟨i, rfl, hlt⟩]
      exact h.layout.data i hlt
  · obtain ⟨h1, h2, h3, h4⟩ := h.chain i q hq
    exact ⟨(hcreated q).mpr (Or.inl h1), by rw [hhash q h1, h2], by rw [hother q h1, h3], h4⟩
  · rw [hother q (h.chain i q hq).1, hother r (h.chain i r hr).1]
    exact h.unique i q r hq hr
  · obtain ⟨h1, h2, h3, h4⟩ := h.free q hq
    exact ⟨(hcreated q).mpr (Or.inl h1), by rw [hother q h1, h2], by rw [hother q h1, h3], h4⟩
  · rcases (hcreated q).mp hq with h1 | rfl
    · rw [hhash q h1]
      exact h.either q h1 nofun
    · exact absurd rfl hout
  · cases hq
    exact ⟨(hcreated _).mpr (Or.inr rfl), fun hf => hnot (h.free _ hf).1, fun i hc => hnot (h.chain i _ hc).1, hnotheld⟩
  · rcases (hcreated q).mp hq with h1 | rfl
    · rw [hother q h1]
      exact h.count q h1
    · rw [hself, List.count_eq_zero.mpr hnotheld]
      rfl
  · rcases (hcreated q).mp hq with h1 | rfl
    · rw [hother q h1]
      exact h.unlocked q h1
    · rw [hself]
  · exact (hcreated q).mpr (Or.inl (h.held q hq))
  · rw [hself]
    exact ⟨rfl, rfl, rfl⟩

theorem getFreeBuffer_spec (h : s.Inv held none) (hget : s.getFreeBuffer = some (p, s')) :
    s'.Inv held (some p) ∧ (s'.bufs p).count = 0 ∧ (s'.bufs p).dirty = false ∧ (s'.bufs p).valid = false ∧
      s'.hashTable = s.hashTable ∧ ∀ q ∈ held, s'.bufs q = s.bufs q := by
  unfold getFreeBuffer at hget
  cases hnew : s.getNewBuffer with
  | some r =>
    rw [hnew] at hget
    cases hget
    obtain ⟨hinv, hcount, hdirty, hvalid⟩ := getNewBuffer_spec h hnew
    refine ⟨hinv, hcount, hdirty, hvalid, ?_, ?_⟩
    all_goals
      unfold getNewBuffer at hnew
      split_ifs at hnew
      cases hnew
    · rfl
    · intro q hq
      obtain ⟨i, -, hlt⟩ := h.held q hq
      exact Function.update_of_ne (by omega) _ _
  | none =>
    rw [hnew] at hget
    cases hlast : s.freeList.getLast? with
    | none =>
      rw [hlast] at hget
      cases hget
    | some b =>
      rw [hlast] at hget
      cases hget
      have hsplit : s.freeList = s.freeList.dropLast ++ [p] := by
        obtain ⟨ne, hne⟩ := List.getLast?_eq_some_iff.mp hlast
        rw [hne, List.dropLast_concat]
      have hmem : p ∈ s.freeList := List.mem_of_getLast? hlast
      obtain ⟨hcr, hdirty, hvalid, hheld⟩ := h.free p hmem
      have hnodup := h.freeNodup
      rw [hsplit, List.nodup_append] at hnodup
      have hgone : p ∉ s.freeList.dropLast := fun hp => hnodup.2.2 p hp p (List.mem_singleton.mpr rfl) rfl
      have hnochain : ∀ i, p ∉ s.hashTable i := fun i hp => hheld (h.chain i p hp).2.2.2
      refine ⟨⟨⟨h.layout.ptr, h.layout.room, h.layout.data⟩, h.chain, h.chainNodup, h.unique,
        fun q hq => h.free q (List.mem_of_mem_dropLast hq), hnodup.1, fun q hq hout => ?_, fun q hq => ?_, h.count,
        h.unlocked, h.held⟩, ?_, hdirty, hvalid, rfl, fun _ _ => rfl⟩
      · rcases h.either q hq nofun with h1 | h1
        · rw [hsplit, List.mem_append, List.mem_singleton] at h1
          exact Or.inl (h1.resolve_right fun he => hout (by rw [he]))
        · exact Or.inr h1
      · cases hq
        exact ⟨hcr, hgone, hnochain, hheld⟩
      · rw [show ({ s with freeList := s.freeList.dropLast } : Cache D C).bufs p = s.bufs p from rfl, h.count p hcr,
          List.count_eq_zero.mpr hheld]
        rfl

/-- The ways a request to a device can halt. -/
def DeviceHalts (io : BlockIo D C) (e : Halt) : Prop :=
  (∃ c dev idx, io.read c dev idx = .error e) ∨ ∃ c dev idx data, io.write c dev idx data = .error e

/-- What `bread` makes of a free buffer. -/
def fill (s : Cache D C) (p : ℕ) (dev : Int32) (block : UInt32) (bytes : ℕ → D) : Cache D C :=
  { s with
    bufs := Function.update s.bufs p { s.bufs p with count := 1, dev := dev, block := block, valid := true }
    hashTable := Function.update s.hashTable (hash dev block) (p :: s.hashTable (hash dev block))
    bytes := bytes }

theorem Inv.locate (h : s.Inv held (some p)) (dev : Int32) (block : UInt32) (bytes : ℕ → D)
    (hmiss : ∀ q ∈ s.hashTable (hash dev block), (s.bufs q).dev = dev → (s.bufs q).block ≠ block) :
    (s.fill p dev block bytes).Inv (p :: held) none := by
  obtain ⟨hcr, hnotfree, hnochain, hnotheld⟩ := h.between p rfl
  set s' := s.fill p dev block bytes with hs'
  have hself : s'.bufs p = { s.bufs p with count := 1, dev := dev, block := block, valid := true } :=
    Function.update_self ..
  have hother : ∀ q, q ≠ p → s'.bufs q = s.bufs q := fun q hq => Function.update_of_ne hq _ _
  have hhash : ∀ q, q ≠ p → s'.hashOf q = s.hashOf q := fun q hq => by
    unfold hashOf
    rw [hother q hq]
  have hhashp : s'.hashOf p = hash dev block := by
    unfold hashOf
    rw [hself]
  have hmem : ∀ i q, q ∈ s'.hashTable i ↔ q ∈ s.hashTable i ∨ i = hash dev block ∧ q = p := by
    intro i q
    change q ∈ Function.update s.hashTable _ _ i ↔ _
    rw [Function.update_apply]
    split_ifs with hi
    · rw [hi, List.mem_cons]
      tauto
    · tauto
  refine ⟨⟨h.layout.ptr, h.layout.room, fun i hi => ?_⟩, fun i q hq => ?_, fun i => ?_, fun i q r hq hr hd hb => ?_,
    fun q hq => ?_, h.freeNodup, fun q hq _ => ?_, nofun, fun q hq => ?_, fun q hq => ?_, fun q hq => ?_⟩
  · rw [← h.layout.data i hi]
    by_cases hip : KERNEL_BUFFER_MEM + BUFFER_T_SIZE * i = p
    · rw [hip, hself]
    · rw [hother _ hip]
  · rcases (hmem i q).mp hq with h1 | ⟨rfl, rfl⟩
    · have hqp : q ≠ p := fun he => hnochain i (he ▸ h1)
      obtain ⟨h2, h3, h4, h5⟩ := h.chain i q h1
      exact ⟨h2, by rw [hhash q hqp, h3], by rw [hother q hqp, h4], List.mem_cons_of_mem _ h5⟩
    · exact ⟨hcr, hhashp.symm, by rw [hself], List.mem_cons_self⟩
  · change (Function.update s.hashTable _ _ i).Nodup
    rw [Function.update_apply]
    split_ifs
    · exact List.nodup_cons.mpr ⟨hnochain _, h.chainNodup _⟩
    · exact h.chainNodup i
  · rcases (hmem i q).mp hq with h1 | ⟨rfl, rfl⟩
    · have hqp : q ≠ p := fun he => hnochain i (he ▸ h1)
      rw [hother q hqp] at hd hb
      rcases (hmem i r).mp hr with h2 | ⟨rfl, rfl⟩
      · have hrp : r ≠ p := fun he => hnochain i (he ▸ h2)
        rw [hother r hrp] at hd hb
        exact h.unique i q r h1 h2 hd hb
      · rw [hself] at hd hb
        exact absurd hb (hmiss q h1 hd)
    · rw [hself] at hd hb
      rcases (hmem _ r).mp hr with h2 | ⟨-, rfl⟩
      · have hrp : r ≠ q := fun he => hnochain _ (he ▸ h2)
        rw [hother r hrp] at hd hb
        exact absurd hb.symm (hmiss r h2 hd.symm)
      · rfl
  · have hqp : q ≠ p := fun he => hnotfree (he ▸ hq)
    obtain ⟨h1, h2, h3, h4⟩ := h.free q hq
    refine ⟨h1, by rw [hother q hqp, h2], by rw [hother q hqp, h3], ?_⟩
    rw [List.mem_cons, not_or]
    exact ⟨hqp, h4⟩
  · by_cases hqp : q = p
    · rw [hqp, hhashp]
      exact Or.inr ((hmem _ _).mpr (Or.inr ⟨rfl, rfl⟩))
    · rw [hhash q hqp]
      exact (h.either q hq fun he => hqp (Option.some.inj he).symm).imp_right fun h1 => (hmem _ _).mpr (Or.inl h1)
  · by_cases hqp : q = p
    · rw [hqp, hself, List.count_cons_self, List.count_eq_zero.mpr hnotheld]
      rfl
    · rw [hother q hqp, List.count_cons_of_ne (Ne.symm hqp)]
      exact h.count q hq
  · by_cases hqp : q = p
    · rw [hqp, hself]
      exact h.unlocked p hcr
    · rw [hother q hqp]
      exact h.unlocked q hq
  · rcases List.mem_cons.mp hq with rfl | h1
    · exact hcr
    · exact h.held q h1

theorem breadAgain_spec (io : BlockIo D C) (h : s.Inv held none) {dev : Int32} {block : UInt32}
    (hmiss : ∀ q ∈ s.hashTable (hash dev block), (s.bufs q).dev = dev → (s.bufs q).block ≠ block) :
    Meets (fun e => ¬ DeviceHalts io e) (s.breadAgain io dev block)
      fun r => ∀ p s', r = some (p, s') → s'.Inv (p :: held) none := by
  unfold breadAgain
  cases hget : s.getFreeBuffer with
  | none => exact meets_ok.mpr nofun
  | some r =>
    obtain ⟨p, s₁⟩ := r
    obtain ⟨hinv, hcount, hdirty, hvalid, htable, hbufs⟩ := getFreeBuffer_spec h hget
    obtain ⟨hcr, hnotfree, hnochain, hnotheld⟩ := hinv.between p rfl
    have hlock := hinv.unlocked p hcr
    have hmiss₁ : ∀ q ∈ s₁.hashTable (hash dev block), (s₁.bufs q).dev = dev → (s₁.bufs q).block ≠ block := by
      intro q hq
      rw [htable] at hq
      rw [hbufs q (h.chain _ q hq).2.2.2]
      exact hmiss q hq
    have hlocate : p ∉ s₁.hashTable (hash dev block) := hnochain _
    simp only [reentrantLock, upd, Function.update_self, hcount, hdirty, hvalid, hashLocate, hashOf, hlocate,
      reentrantUnlock, Function.update_idem, decide_true, Bool.not_false, Bool.and_self, assert_true, ok_bind,
      not_false_eq_true]
    cases hread : io.read s₁.devices dev (block * BLOCK_SECS) with
    | error e => exact meets_error.mpr fun hc => hc (Or.inl ⟨_, _, _, hread⟩)
    | ok data =>
      simp only [ok_bind, hlock]
      apply meets_ok.mpr
      rintro p' s' he
      cases he
      have hfill := hinv.locate dev block (Function.update s₁.bytes (s₁.bufs p).data data) hmiss₁
      simp only [fill, hlock, hdirty] at hfill
      exact hfill

theorem bread_spec (io : BlockIo D C) (h : s.Inv held none) (dev : Int32) (block : UInt32) :
    Meets (fun e => ¬ DeviceHalts io e) (s.bread io dev block)
      fun r => ∀ p s', r = some (p, s') → s'.Inv (p :: held) none := by
  unfold bread
  cases hfind : s.getFromHashTable dev block with
  | none =>
    refine breadAgain_spec io h fun q hq hd hb => ?_
    have := List.find?_eq_none.mp hfind q hq
    simp [hd, hb] at this
  | some p =>
    have hmem : p ∈ s.hashTable (hash dev block) := List.mem_of_find?_eq_some hfind
    obtain ⟨hcr, -, hvalid, hheld⟩ := h.chain _ p hmem
    have hpos : (s.bufs p).count ≠ 0 := by
      have := List.count_pos_iff.mpr hheld
      rw [h.count p hcr]
      omega
    simp only [reentrantLock, Cache.upd, Function.update_self, hvalid, assert_true, ok_bind, if_neg hpos, reentrantUnlock,
      Function.update_idem, Nat.succ_pos, decide_true]
    apply meets_ok.mpr
    rintro p' s' he
    cases he
    have hup : (s.upd p fun b => { b with count := b.count + 1, lock := b.lock + 1 - 1 }).Inv (p :: held) none := by
      refine h.upd (fun q => ?_) hheld (fun _ => rfl) (fun _ => rfl) (fun _ => rfl) (fun _ => rfl) (fun b hb => ?_) ?_
        (fun q hq => List.count_cons_of_ne (Ne.symm hq))
      · rw [List.mem_cons]
        exact or_iff_right_of_imp fun he => he ▸ hheld
      · simp [hb]
      · rw [List.count_cons_self, h.count p hcr]
        push_cast
        rfl
    simp only [Cache.upd, hvalid] at hup
    exact hup

/-- `list_remove` finds a cached buffer in its chain. -/
theorem linked_of_mem (h : p ∈ s.hashTable (s.hashOf p)) :
    ((List.range HASH_COUNT.toNat).any fun i => p ∈ s.hashTable i.toUInt32) = true := by
  have hlt : (s.hashOf p).toNat < HASH_COUNT.toNat := by
    unfold hashOf hash
    rw [UInt32.toNat_mod]
    exact Nat.mod_lt _ (by decide)
  refine List.any_eq_true.mpr ⟨(s.hashOf p).toNat, List.mem_range.mpr hlt, ?_⟩
  have hback : (s.hashOf p).toNat.toUInt32 = s.hashOf p := UInt32.ofNat_toNat
  rw [hback]
  exact decide_eq_true h

/-- A buffer that nobody holds any more. -/
def drain (s : Cache D C) (p : ℕ) (devices : C) : Cache D C :=
  { s with
    bufs := Function.update s.bufs p { s.bufs p with count := 0, dirty := false, dev := EOF, block := 0, valid := false }
    hashTable := fun i => (s.hashTable i).erase p
    freeList := p :: s.freeList
    devices := devices }

theorem Inv.drain (h : s.Inv held none) (hp : p ∈ held) (hlast : p ∉ held.erase p) (devices : C) :
    (s.drain p devices).Inv (held.erase p) none := by
  obtain ⟨hchain, hnotfree⟩ := h.cached hp
  have hcr := h.held p hp
  set s' := s.drain p devices with hs'
  have hself : s'.bufs p = { s.bufs p with count := 0, dirty := false, dev := EOF, block := 0, valid := false } :=
    Function.update_self ..
  have hother : ∀ q, q ≠ p → s'.bufs q = s.bufs q := fun q hq => Function.update_of_ne hq _ _
  have hhash : ∀ q, q ≠ p → s'.hashOf q = s.hashOf q := fun q hq => by
    unfold hashOf
    rw [hother q hq]
  have hmem : ∀ i q, q ∈ s'.hashTable i ↔ q ≠ p ∧ q ∈ s.hashTable i := fun i q => (h.chainNodup i).mem_erase_iff
  have hheld : ∀ q, q ≠ p → (q ∈ held.erase p ↔ q ∈ held) := fun q hq => List.mem_erase_of_ne hq
  refine ⟨⟨h.layout.ptr, h.layout.room, fun i hi => ?_⟩, fun i q hq => ?_, fun i => (h.chainNodup i).erase p,
    fun i q r hq hr hd hb => ?_, fun q hq => ?_, List.nodup_cons.mpr ⟨hnotfree, h.freeNodup⟩, fun q hq _ => ?_, nofun,
    fun q hq => ?_, fun q hq => ?_, fun q hq => h.held q (List.mem_of_mem_erase hq)⟩
  · rw [← h.layout.data i hi]
    by_cases hip : KERNEL_BUFFER_MEM + BUFFER_T_SIZE * i = p
    · rw [hip, hself]
    · rw [hother _ hip]
  · obtain ⟨hqp, h1⟩ := (hmem i q).mp hq
    obtain ⟨h2, h3, h4, h5⟩ := h.chain i q h1
    exact ⟨h2, by rw [hhash q hqp, h3], by rw [hother q hqp, h4], (hheld q hqp).mpr h5⟩
  · obtain ⟨hqp, h1⟩ := (hmem i q).mp hq
    obtain ⟨hrp, h2⟩ := (hmem i r).mp hr
    rw [hother q hqp, hother r hrp] at hd hb
    exact h.unique i q r h1 h2 hd hb
  · rcases List.mem_cons.mp hq with rfl | h1
    · exact ⟨hcr, by rw [hself], by rw [hself], hlast⟩
    · have hqp : q ≠ p := fun he => hnotfree (he ▸ h1)
      obtain ⟨h2, h3, h4, h5⟩ := h.free q h1
      exact ⟨h2, by rw [hother q hqp, h3], by rw [hother q hqp, h4], fun hc => h5 ((hheld q hqp).mp hc)⟩
  · by_cases hqp : q = p
    · exact Or.inl (hqp ▸ List.mem_cons_self)
    · rw [hhash q hqp]
      exact (h.either q hq nofun).imp (List.mem_cons_of_mem _) fun h1 => (hmem _ _).mpr ⟨hqp, h1⟩
  · by_cases hqp : q = p
    · rw [hqp, hself, List.count_eq_zero.mpr hlast]
      rfl
    · rw [hother q hqp, List.count_erase_of_ne hqp]
      exact h.count q hq
  · by_cases hqp : q = p
    · rw [hqp, hself]
      exact h.unlocked p hcr
    · rw [hother q hqp]
      exact h.unlocked q hq

theorem brelease_spec (io : BlockIo D C) (h : s.Inv held none) (hp : p ∈ held) :
    Meets (fun e => ¬ DeviceHalts io e) (s.brelease io (some p)) fun s' => s'.Inv (held.erase p) none := by
  have hcr := h.held p hp
  have hcount := h.count p hcr
  have herase : held.count p = (held.erase p).count p + 1 := by
    have := List.count_pos_iff.mpr hp
    rw [List.count_erase_self]
    omega
  have hrest : (s.bufs p).count - 1 = (held.erase p).count p := by
    rw [hcount, herase]
    push_cast
    ring
  unfold brelease
  dsimp only
  simp only [Cache.upd, Function.update_self, hrest, Int.natCast_nonneg, decide_true, assert_true, ok_bind]
  by_cases hzero : (held.erase p).count p = 0
  · have hlast : p ∉ held.erase p := List.count_eq_zero.mp hzero
    obtain ⟨hchain, hnotfree⟩ := h.cached hp
    have hlinked := linked_of_mem hchain
    rw [if_neg (by simp [hzero])]
    simp only [hashRemove, hlinked, assert_true, ok_bind, Function.update_self, hzero, Nat.cast_zero]
    have hdrain := h.drain hp hlast
    simp only [Cache.drain] at hdrain
    cases hdirty : (s.bufs p).dirty with
    | false =>
      simp only [Bool.false_eq_true, if_false, ok_bind, hnotfree, not_false_eq_true, decide_true, assert_true,
        Function.update_idem]
      exact meets_ok.mpr (hdrain s.devices)
    | true =>
      simp only [if_true, bwrite, Function.update_self, Function.update_idem]
      cases hwrite : io.write s.devices (s.bufs p).dev ((s.bufs p).block * BLOCK_SECS) (s.bytes (s.bufs p).data) with
      | error e => exact meets_error.mpr fun hc => hc (Or.inr ⟨_, _, _, _, hwrite⟩)
      | ok devices =>
        simp only [ok_bind, hnotfree, not_false_eq_true, decide_true, assert_true, Function.update_self,
          Function.update_idem]
        exact meets_ok.mpr (hdrain devices)
  · rw [if_pos (by exact_mod_cast hzero)]
    refine meets_ok.mpr (h.upd (f := fun b => { b with count := (held.erase p).count p }) (fun q => ?_) hp (fun _ => rfl) (fun _ => rfl) (fun _ => rfl) (fun _ => rfl) (fun b hb => hb) rfl
      fun q hq => List.count_erase_of_ne hq)
    by_cases hqp : q = p
    · rw [hqp]
      exact iff_of_true (List.count_pos_iff.mp (Nat.pos_of_ne_zero hzero)) hp
    · exact List.mem_erase_of_ne hqp

/-! ### Runs -/

/-- On the chain its block selects and on no other, and referenced as often as it is held. -/
def CachedBuffer (s : Cache D C) (held : List ℕ) (p : ℕ) : Prop :=
  p ∈ s.hashTable (s.hashOf p) ∧ (∀ i, p ∈ s.hashTable i → i = s.hashOf p) ∧ p ∉ s.freeList ∧
    (s.bufs p).valid = true ∧ (s.bufs p).count = held.count p ∧ 0 < held.count p

def FreeBuffer (s : Cache D C) (held : List ℕ) (p : ℕ) : Prop :=
  p ∈ s.freeList ∧ (∀ i, p ∉ s.hashTable i) ∧ p ∉ held ∧ (s.bufs p).count = 0 ∧ (s.bufs p).dirty = false ∧
    (s.bufs p).valid = false

/-- The descriptor and the block of a buffer lie in the buffer memory, apart from those of another. -/
structure Apart (s : Cache D C) : Prop where
  inside : ∀ p, s.Created p → KERNEL_BUFFER_MEM ≤ p ∧ p + BUFFER_T_SIZE ≤ KERNEL_BUFFER_MEM + KERNEL_BUFFER_SIZE ∧
    KERNEL_BUFFER_MEM ≤ (s.bufs p).data ∧ (s.bufs p).data + BLOCK_SIZE ≤ KERNEL_BUFFER_MEM + KERNEL_BUFFER_SIZE
  below : ∀ p q, s.Created p → s.Created q → p + BUFFER_T_SIZE ≤ (s.bufs q).data
  descriptors : ∀ p q, s.Created p → s.Created q → p < q → p + BUFFER_T_SIZE ≤ q
  blocks : ∀ p q, s.Created p → s.Created q → p < q → (s.bufs q).data + BLOCK_SIZE ≤ (s.bufs p).data

theorem Layout.apart (h : s.Layout) : s.Apart := by
  obtain ⟨n, hptr, hdata⟩ := h.ptr
  have hroom := h.room
  have block : ∀ i, KERNEL_BUFFER_MEM + BUFFER_T_SIZE * i < s.bufferPtr →
      i < n ∧ (s.bufs (KERNEL_BUFFER_MEM + BUFFER_T_SIZE * i)).data + BLOCK_SIZE * (i + 1) =
        KERNEL_BUFFER_MEM + KERNEL_BUFFER_SIZE := by
    refine fun i hi => ⟨?_, h.data i hi⟩
    simp only [BUFFER_T_SIZE] at hptr hi
    omega
  simp only [BUFFER_T_SIZE, BLOCK_SIZE, KERNEL_BUFFER_MEM, KERNEL_BUFFER_SIZE] at hptr hdata hroom block
  refine ⟨?_, ?_, ?_, ?_⟩
  · rintro _ ⟨i, rfl, hi⟩
    simp only [BUFFER_T_SIZE, BLOCK_SIZE, KERNEL_BUFFER_MEM, KERNEL_BUFFER_SIZE] at hi ⊢
    have := block i hi
    omega
  · rintro _ _ ⟨i, rfl, hi⟩ ⟨j, rfl, hj⟩
    simp only [BUFFER_T_SIZE, KERNEL_BUFFER_MEM] at hi hj ⊢
    have := block i hi
    have := block j hj
    omega
  · rintro _ _ ⟨i, rfl, hi⟩ ⟨j, rfl, hj⟩ hlt
    simp only [BUFFER_T_SIZE] at hlt ⊢
    omega
  · rintro _ _ ⟨i, rfl, hi⟩ ⟨j, rfl, hj⟩ hlt
    simp only [BUFFER_T_SIZE, BLOCK_SIZE, KERNEL_BUFFER_MEM] at hi hj hlt ⊢
    have := block i hi
    have := block j hj
    omega

theorem Inv.status (h : s.Inv held none) (hp : s.Created p) : s.CachedBuffer held p ∨ s.FreeBuffer held p := by
  by_cases hheld : p ∈ held
  · obtain ⟨h1, h2⟩ := h.cached hheld
    exact Or.inl ⟨h1, fun i hi => (h.chain i p hi).2.1, h2, (h.chain _ p h1).2.2.1, h.count p hp, List.count_pos_iff.mpr hheld⟩
  · have hnochain : ∀ i, p ∉ s.hashTable i := fun i hi => hheld (h.chain i p hi).2.2.2
    have hfree := (h.either p hp nofun).resolve_right (hnochain _)
    refine Or.inr ⟨hfree, hnochain, hheld, ?_, (h.free p hfree).2.1, (h.free p hfree).2.2.1⟩
    rw [h.count p hp, List.count_eq_zero.mpr hheld]
    rfl

/-- The lists say nothing about the bytes or the devices. -/
theorem Inv.contents (h : s.Inv held none) (bytes : ℕ → D) (devices : C) :
    ({ s with bytes := bytes, devices := devices } : Cache D C).Inv held none :=
  ⟨⟨h.layout.ptr, h.layout.room, h.layout.data⟩, h.chain, h.chainNodup, h.unique, h.free, h.freeNodup, h.either, h.between,
    h.count, h.unlocked, h.held⟩

theorem init_inv {x : Cache D C × List ℕ} (h : Init x) : x.1.Inv x.2 none := by
  obtain ⟨s, held⟩ := x
  obtain ⟨hptr, hdata, hfree, htable, hheld⟩ := h
  dsimp only at *
  have hnone : ∀ p, ¬ s.Created p := by
    rintro _ ⟨i, rfl, hlt⟩
    rw [hptr] at hlt
    omega
  have hnochain : ∀ i p, p ∉ s.hashTable i := fun i p hp => by
    rw [htable i] at hp
    cases hp
  refine ⟨⟨⟨0, hptr, ?_⟩, ?_, fun i hi => ?_⟩, fun i p hp => absurd hp (hnochain i p), fun i => ?_,
    fun i p q hp => absurd hp (hnochain i p), fun p hp => ?_, ?_, fun p hp => absurd hp (hnone p), nofun,
    fun p hp => absurd hp (hnone p), fun p hp => absurd hp (hnone p), fun p hp => ?_⟩
  · rw [hdata]
    rfl
  · rw [hptr, hdata]
    decide
  · rw [hptr] at hi
    omega
  · rw [htable i]
    exact List.nodup_nil
  · rw [hfree] at hp
    cases hp
  · rw [hfree]
    exact List.nodup_nil
  · rw [hheld] at hp
    cases hp

theorem step_inv {io : BlockIo D C} {x x' : Cache D C × List ℕ} {e : Event D} (h : x.1.Inv x.2 none) (hs : Step io x e x') :
    x'.1.Inv x'.2 none := by
  cases hs with
  | bread hread => exact (bread_spec io h _ _).result _ hread _ _ rfl
  | breleaseNull => exact h
  | brelease hp hrel => exact (brelease_spec io h hp).result _ hrel
  | bwrite hp hwrite =>
    obtain ⟨devices, -, he⟩ := bind_ok.mp hwrite
    cases he
    exact h.contents _ devices
  | store hp => exact h.contents _ _
  | mark hp =>
    exact h.upd (f := fun b => { b with dirty := true }) (fun _ => Iff.rfl) hp (fun _ => rfl) (fun _ => rfl) (fun _ => rfl) (fun _ => rfl) (fun _ hb => hb)
      (h.count _ (h.held _ hp)) fun _ _ => rfl

/-- After any calls of one task that never had to wait. -/
theorem buffer_cache {io : BlockIo D C} {es : List (Event D)} (h : Run Init (Step io) es (s, held)) :
    (∀ p, s.Created p → s.CachedBuffer held p ∨ s.FreeBuffer held p) ∧ (∀ p ∈ held, s.Created p) ∧
      (∀ i, (s.hashTable i).Nodup) ∧ s.freeList.Nodup ∧
      (∀ i j p q, p ∈ s.hashTable i → q ∈ s.hashTable j → (s.bufs p).dev = (s.bufs q).dev →
        (s.bufs p).block = (s.bufs q).block → p = q) ∧
      s.Apart ∧ (∀ dev block e, s.bread io dev block = .error e → DeviceHalts io e) ∧
      ∀ p ∈ held, ∀ e, s.brelease io (some p) = .error e → DeviceHalts io e := by
  have hinv := Run.invariant (I := fun x : Cache D C × List ℕ => x.1.Inv x.2 none) (fun _ => init_inv)
    (fun _ _ _ => step_inv) es _ h
  dsimp only at hinv
  refine ⟨fun p hp => hinv.status hp, hinv.held, hinv.chainNodup, hinv.freeNodup, ?_, hinv.layout.apart, ?_, ?_⟩
  · intro i j p q hp hq hd hb
    have hij : i = j := by
      rw [(hinv.chain i p hp).2.1, (hinv.chain j q hq).2.1, hashOf, hashOf, hd, hb]
    exact hinv.unique i p q hp (hij ▸ hq) hd hb
  · exact fun dev block e he => not_not.mp ((bread_spec io hinv dev block).halt e he)
  · exact fun p hp e he => not_not.mp ((brelease_spec io hinv hp).halt e he)

def emptyCache : Cache Unit Unit :=
  ⟨KERNEL_BUFFER_MEM, KERNEL_BUFFER_MEM + KERNEL_BUFFER_SIZE - BLOCK_SIZE, fun _ => ⟨0, 0, 0, 0, 0, false, false⟩, fun _ => (), [],
    fun _ => [], ()⟩

def silentIo : BlockIo Unit Unit := ⟨fun _ _ _ => .ok (), fun c _ _ _ => .ok c⟩

theorem buffer_cache_first : ∃ s, emptyCache.bread silentIo 3 5 = .ok (some (KERNEL_BUFFER_MEM, s)) ∧
    s.CachedBuffer [KERNEL_BUFFER_MEM] KERNEL_BUFFER_MEM := by
  obtain ⟨s, hs⟩ : ∃ s, emptyCache.bread silentIo 3 5 = .ok (some (KERNEL_BUFFER_MEM, s)) := ⟨_, rfl⟩
  have hrun : Run Init (Step silentIo) ([] ++ [.bread 3 5 KERNEL_BUFFER_MEM]) (s, [KERNEL_BUFFER_MEM]) :=
    .snoc (.nil ⟨rfl, rfl, rfl, fun _ => rfl, rfl⟩) (.bread hs)
  have hmem : KERNEL_BUFFER_MEM ∈ [KERNEL_BUFFER_MEM] := List.mem_singleton.mpr rfl
  obtain ⟨hstatus, hheld, -⟩ := buffer_cache hrun
  exact ⟨s, hs, (hstatus _ (hheld _ hmem)).resolve_right fun hfree => hfree.2.2.1 hmem⟩

end Cache
end Onix
