import Onix.Kernel.Task

/-! The ring of fifo.c and what it holds, oldest byte first. One slot stays unused,
and `fifo_put` drops the oldest byte of a full ring. -/

set_option autoImplicit false

namespace Onix

/-- `fifo_t`; the positions stay below `length`, so adding one to them does not wrap. -/
structure Fifo where
  buf : ℕ → UInt8
  length : ℕ
  head : ℕ
  tail : ℕ

namespace Fifo

def fifoInit (buf : ℕ → UInt8) (length : ℕ) : Fifo := ⟨buf, length, 0, 0⟩

def fifoNext (f : Fifo) (pos : ℕ) : ℕ := (pos + 1) % f.length

def fifoFull (f : Fifo) : Bool := f.fifoNext f.tail = f.head

def fifoEmpty (f : Fifo) : Bool := f.head = f.tail

def fifoGet (f : Fifo) : Except Halt (UInt8 × Fifo) := do
  assert "!fifo_empty(fifo)" !f.fifoEmpty
  let head := f.fifoNext f.head
  .ok (f.buf head, { f with head := head })

/-- The loop of `fifo_put`; a ring has no more than `length` bytes to drop. -/
def makeRoom : ℕ → Fifo → Except Halt Fifo
  | 0, f => .ok f
  | n + 1, f =>
    if f.fifoFull then do
      let (_, f) ← f.fifoGet
      makeRoom n f
    else .ok f

def fifoPut (f : Fifo) (byte : UInt8) : Except Halt Fifo := do
  let f ← makeRoom f.length f
  let tail := f.fifoNext f.tail
  .ok { f with tail := tail, buf := Function.update f.buf tail byte }

/-! ### The queue a ring stands for -/

def size (f : Fifo) : ℕ := if f.head ≤ f.tail then f.tail - f.head else f.tail + f.length - f.head

/-- The bytes in the ring, the oldest first. -/
def bytes (f : Fifo) : List UInt8 := (List.range f.size).map fun i => f.buf ((f.head + 1 + i) % f.length)

structure Ok (f : Fifo) : Prop where
  length : 2 ≤ f.length
  head : f.head < f.length
  tail : f.tail < f.length

variable {f : Fifo}

theorem fifoInit_ok (buf : ℕ → UInt8) {length : ℕ} (h : 2 ≤ length) : (fifoInit buf length).Ok :=
  ⟨h, by simp only [fifoInit]; omega, by simp only [fifoInit]; omega⟩

@[simp] theorem fifoInit_bytes (buf : ℕ → UInt8) (length : ℕ) : (fifoInit buf length).bytes = [] := by
  simp [bytes, size, fifoInit]

@[simp] theorem length_bytes (f : Fifo) : f.bytes.length = f.size := by simp [bytes]

theorem fifoNext_eq {pos : ℕ} (h : pos < f.length) :
    f.fifoNext pos = if pos + 1 = f.length then 0 else pos + 1 := by
  unfold fifoNext
  split_ifs with hp
  · rw [hp, Nat.mod_self]
  · exact Nat.mod_eq_of_lt (by omega)

theorem Ok.size_lt (h : f.Ok) : f.size < f.length := by
  have := h.head
  have := h.tail
  unfold size
  split_ifs <;> omega

theorem fifoEmpty_iff (h : f.Ok) : f.fifoEmpty = true ↔ f.size = 0 := by
  have := h.head
  have := h.tail
  unfold fifoEmpty size
  rw [decide_eq_true_iff]
  split_ifs <;> omega

theorem fifoFull_iff (h : f.Ok) : f.fifoFull = true ↔ f.size + 1 = f.length := by
  have := h.head
  have := h.tail
  have := h.length
  unfold fifoFull size
  rw [fifoNext_eq h.tail, decide_eq_true_iff]
  split_ifs <;> omega

/-- The newest byte lies at `tail`. -/
theorem Ok.head_add_size (h : f.Ok) : (f.head + f.size) % f.length = f.tail := by
  have := h.head
  have := h.tail
  unfold size
  split_ifs with hle
  · rw [show f.head + (f.tail - f.head) = f.tail by omega, Nat.mod_eq_of_lt h.tail]
  · rw [show f.head + (f.tail + f.length - f.head) = f.tail + f.length by omega, Nat.add_mod_right,
      Nat.mod_eq_of_lt h.tail]

/-- `fifo_get` takes the oldest byte. -/
theorem fifoGet_spec (h : f.Ok) {n : ℕ} (hn : f.size = n + 1) :
    ∃ b f', f.fifoGet = .ok (b, f') ∧ f'.Ok ∧ f'.length = f.length ∧ f.bytes = b :: f'.bytes := by
  have he : f.fifoEmpty = false := by
    cases hc : f.fifoEmpty with
    | false => rfl
    | true =>
      have := (fifoEmpty_iff h).mp hc
      omega
  have hhead := h.head
  have htail := h.tail
  have hsize : ({ f with head := f.fifoNext f.head } : Fifo).size = n := by
    rw [fifoNext_eq hhead]
    unfold size at hn ⊢
    dsimp only
    split_ifs at hn ⊢ <;> omega
  have hpos : 0 < f.length := by omega
  refine ⟨f.buf (f.fifoNext f.head), { f with head := f.fifoNext f.head }, by rw [fifoGet, he]; rfl,
    ⟨h.length, Nat.mod_lt _ hpos, h.tail⟩, rfl, ?_⟩
  unfold bytes
  rw [hn, hsize, List.range_succ_eq_map, List.map_cons, List.map_map]
  refine congrArg₂ List.cons rfl (List.map_congr_left fun i _ => ?_)
  change f.buf ((f.head + 1 + (i + 1)) % f.length) = f.buf (((f.head + 1) % f.length + 1 + i) % f.length)
  rw [Nat.add_assoc ((f.head + 1) % f.length), Nat.mod_add_mod, Nat.add_comm 1 i]

/-- `fifo_put` into a ring with room appends. -/
theorem fifoPut_spec (h : f.Ok) (hroom : f.size + 1 < f.length) (byte : UInt8) :
    ∃ f', f.fifoPut byte = .ok f' ∧ f'.Ok ∧ f'.length = f.length ∧ f'.bytes = f.bytes ++ [byte] := by
  have hfull : f.fifoFull = false := by
    cases hc : f.fifoFull with
    | false => rfl
    | true =>
      have := (fifoFull_iff h).mp hc
      omega
  have hhead := h.head
  have htail := h.tail
  have hmake : makeRoom f.length f = .ok f := by
    cases f.length with
    | zero => rfl
    | succ n => rw [makeRoom, if_neg (by simp [hfull])]
  have hsize : ({ f with tail := f.fifoNext f.tail, buf := Function.update f.buf (f.fifoNext f.tail) byte } : Fifo).size =
      f.size + 1 := by
    rw [fifoNext_eq htail]
    unfold size at hroom ⊢
    dsimp only
    split_ifs at hroom ⊢ <;> omega
  have hlast : (f.head + 1 + f.size) % f.length = f.fifoNext f.tail := by
    rw [fifoNext, ← h.head_add_size, Nat.mod_add_mod]
    congr 1
    omega
  have hpos : 0 < f.length := by omega
  refine ⟨{ f with tail := f.fifoNext f.tail, buf := Function.update f.buf (f.fifoNext f.tail) byte },
    by rw [fifoPut, hmake]; rfl, ⟨h.length, h.head, Nat.mod_lt _ hpos⟩, rfl, ?_⟩
  unfold bytes
  rw [hsize, List.range_succ, List.map_append, List.map_singleton]
  refine congrArg₂ _ (List.map_congr_left fun i hi => ?_) (congrArg (fun b => [b]) ?_)
  · -- an older byte lies elsewhere
    dsimp only
    rw [← hlast, Function.update_of_ne]
    intro he
    have hmod := Nat.ModEq.add_left_cancel' (f.head + 1) he
    unfold Nat.ModEq at hmod
    have hlt := List.mem_range.mp hi
    rw [Nat.mod_eq_of_lt (by omega), Nat.mod_eq_of_lt (by omega)] at hmod
    omega
  · dsimp only
    rw [hlast, Function.update_self]

/-- Dropping one byte makes room, so the loop of `fifo_put` takes at most one round. -/
theorem makeRoom_full (h : f.Ok) (hfull : f.size + 1 = f.length) {b : UInt8} {f₁ : Fifo}
    (hget : f.fifoGet = .ok (b, f₁)) (hok₁ : f₁.Ok) (hroom : f₁.size + 1 < f₁.length) (n : ℕ) :
    makeRoom (n + 1) f = .ok f₁ := by
  have hstop : ∀ k, makeRoom k f₁ = .ok f₁ := by
    intro k
    cases k with
    | zero => rfl
    | succ k =>
      rw [makeRoom, if_neg]
      intro hc
      have := (fifoFull_iff hok₁).mp hc
      omega
  rw [makeRoom, if_pos ((fifoFull_iff h).mpr hfull), hget]
  exact hstop n

/-- `fifo_put` into a full ring drops the oldest byte and appends. -/
theorem fifoPut_drops (h : f.Ok) (hfull : f.size + 1 = f.length) (byte : UInt8) :
    ∃ f', f.fifoPut byte = .ok f' ∧ f'.Ok ∧ f'.length = f.length ∧ f'.bytes = f.bytes.tail ++ [byte] := by
  have hlen := h.length
  obtain ⟨n, hn⟩ : ∃ n, f.size = n + 1 := ⟨f.size - 1, by omega⟩
  obtain ⟨b, f₁, hget, hok₁, hlen₁, hbytes⟩ := fifoGet_spec h hn
  have hsize₁ : f₁.size = n := by
    have := congrArg List.length hbytes
    simp only [length_bytes, List.length_cons] at this
    omega
  have hroom : f₁.size + 1 < f₁.length := by omega
  obtain ⟨f', hput, hok, hlen', hbytes'⟩ := fifoPut_spec hok₁ hroom byte
  refine ⟨f', ?_, hok, hlen'.trans hlen₁, by rw [hbytes', hbytes, List.tail_cons]⟩
  obtain ⟨k, hk⟩ : ∃ k, f.length = k + 1 := ⟨f.length - 1, by omega⟩
  have hmake : makeRoom f₁.length f₁ = .ok f₁ := by
    rw [show f₁.length = k + 1 by omega, makeRoom, if_neg]
    intro hc
    have := (fifoFull_iff hok₁).mp hc
    omega
  rw [← hput, fifoPut, fifoPut, hk, makeRoom_full h hfull hget hok₁ hroom k, hmake]

theorem fifoPut_full (h : f.Ok) (hfull : f.size + 1 = f.length) (byte : UInt8) :
    ∃ f', f.fifoPut byte = .ok f' ∧ f'.Ok ∧ f'.length = f.length ∧ f'.size = f.size := by
  obtain ⟨f', hput, hok, hlen, hbytes⟩ := fifoPut_drops h hfull byte
  refine ⟨f', hput, hok, hlen, ?_⟩
  have hl := h.length
  have := congrArg List.length hbytes
  simp only [length_bytes, List.length_append, List.length_singleton, List.length_tail] at this
  omega

/-! ### A bounded queue -/

inductive Op where
  | put (byte : UInt8)
  | get
  deriving DecidableEq, Repr

/-- A queue of `capacity` bytes that makes room by dropping the oldest; the result is the byte
it gives out, and an empty queue has none. -/
def queueStep (capacity : ℕ) (q : List UInt8) : Op → Option (Option UInt8 × List UInt8)
  | .put byte => some (none, (if q.length = capacity then q.tail else q) ++ [byte])
  | .get => match q with
    | [] => none
    | b :: q => some (some b, q)

/-- The bytes that a queue gives out, and what is left in it. -/
def queueRun (capacity : ℕ) : List UInt8 → List Op → Option (List UInt8 × List UInt8)
  | q, [] => some ([], q)
  | q, op :: ops => match queueStep capacity q op with
    | none => none
    | some (out, q) => (queueRun capacity q ops).map fun r => (out.toList ++ r.1, r.2)

def step (f : Fifo) : Op → Except Halt (Option UInt8 × Fifo)
  | .put byte => do
    let f ← f.fifoPut byte
    .ok (none, f)
  | .get => do
    let (b, f) ← f.fifoGet
    .ok (some b, f)

/-- The bytes that a ring gives out, and the ring after them. -/
def run : Fifo → List Op → Except Halt (List UInt8 × Fifo)
  | f, [] => .ok ([], f)
  | f, op :: ops => do
    let (out, f) ← f.step op
    let (outs, f) ← f.run ops
    .ok (out.toList ++ outs, f)

theorem fifoGet_empty (h : f.Ok) (hn : f.size = 0) : f.fifoGet = .error (.assertion "!fifo_empty(fifo)") := by
  rw [fifoGet, (fifoEmpty_iff h).mpr hn]
  rfl

/-- One operation does to the ring what it does to the queue. -/
theorem step_refines (h : f.Ok) {op : Op} {out : Option UInt8} {q : List UInt8}
    (hq : queueStep (f.length - 1) f.bytes op = some (out, q)) :
    ∃ f', f.step op = .ok (out, f') ∧ f'.Ok ∧ f'.length = f.length ∧ f'.bytes = q := by
  have hlen := h.length
  have hlt := h.size_lt
  cases op with
  | put byte =>
    simp only [queueStep, length_bytes, Option.some.injEq, Prod.mk.injEq] at hq
    obtain ⟨rfl, rfl⟩ := hq
    by_cases hfull : f.size = f.length - 1
    · obtain ⟨f', hput, hok, hlen', hbytes⟩ := fifoPut_drops h (by omega) byte
      exact ⟨f', by rw [step, hput]; rfl, hok, hlen', by rw [hbytes, if_pos hfull]⟩
    · obtain ⟨f', hput, hok, hlen', hbytes⟩ := fifoPut_spec h (by omega) byte
      exact ⟨f', by rw [step, hput]; rfl, hok, hlen', by rw [hbytes, if_neg hfull]⟩
  | get =>
    obtain ⟨n, hn⟩ : ∃ n, f.size = n + 1 := by
      refine ⟨f.size - 1, ?_⟩
      cases hb : f.bytes with
      | nil => rw [hb] at hq; cases hq
      | cons b q =>
        have := congrArg List.length hb
        simp only [length_bytes, List.length_cons] at this
        omega
    obtain ⟨b, f', hget, hok, hlen', hbytes⟩ := fifoGet_spec h hn
    rw [hbytes] at hq
    cases hq
    exact ⟨f', by rw [step, hget]; rfl, hok, hlen', rfl⟩

/-- Where the queue has nothing to give out, `fifo_get` fails its assertion. -/
theorem step_empty (h : f.Ok) {op : Op} (hq : queueStep (f.length - 1) f.bytes op = none) :
    f.step op = .error (.assertion "!fifo_empty(fifo)") := by
  cases op with
  | put byte => cases hq
  | get =>
    have hn : f.size = 0 := by
      cases hb : f.bytes with
      | nil => rw [← length_bytes, hb]; rfl
      | cons b q => rw [hb] at hq; cases hq
    rw [step, fifoGet_empty h hn]
    rfl

/-- What a run of a ring is, told by the run of a queue with one byte less than the ring has. -/
theorem run_refines (ops : List Op) (h : f.Ok) :
    match queueRun (f.length - 1) f.bytes ops with
    | none => f.run ops = .error (.assertion "!fifo_empty(fifo)")
    | some (outs, q) => ∃ f', f.run ops = .ok (outs, f') ∧ f'.Ok ∧ f'.length = f.length ∧ f'.bytes = q := by
  induction ops generalizing f with
  | nil => exact ⟨f, rfl, h, rfl, rfl⟩
  | cons op ops ih =>
    rw [queueRun, run]
    cases hq : queueStep (f.length - 1) f.bytes op with
    | none =>
      rw [step_empty h hq]
      rfl
    | some r =>
      obtain ⟨out, q⟩ := r
      obtain ⟨f₁, hstep, hok₁, hlen₁, rfl⟩ := step_refines h hq
      have ih := ih hok₁
      rw [hlen₁] at ih
      rw [hstep]
      simp only [Lib.ok_bind]
      cases hrest : queueRun (f.length - 1) f₁.bytes ops with
      | none =>
        simp only [hrest] at ih
        rw [ih]
        rfl
      | some r =>
        obtain ⟨outs, q⟩ := r
        simp only [hrest] at ih
        obtain ⟨f', hrun, hok', hlen', hbytes⟩ := ih
        exact ⟨f', by rw [hrun]; rfl, hok', hlen', hbytes⟩

/-- A ring of `length` bytes is a queue of `length - 1`: it gives out the same bytes, holds the same
bytes, and is empty or full when the queue is. -/
theorem fifo_refines_queue (buf : ℕ → UInt8) {length : ℕ} (h : 2 ≤ length) (ops : List Op) :
    match queueRun (length - 1) [] ops with
    | none => (fifoInit buf length).run ops = .error (.assertion "!fifo_empty(fifo)")
    | some (outs, q) => ∃ f, (fifoInit buf length).run ops = .ok (outs, f) ∧ f.bytes = q ∧
        (f.fifoEmpty = true ↔ q.length = 0) ∧ (f.fifoFull = true ↔ q.length = length - 1) := by
  have hrun := run_refines ops (fifoInit_ok buf h)
  rw [fifoInit_bytes, show (fifoInit buf length).length = length from rfl] at hrun
  cases hq : queueRun (length - 1) [] ops with
  | none => simpa only [hq] using hrun
  | some r =>
    obtain ⟨outs, q⟩ := r
    simp only [hq] at hrun
    obtain ⟨f, hf, hok, hlen, rfl⟩ := hrun
    refine ⟨f, hf, rfl, ?_, ?_⟩
    · rw [length_bytes, fifoEmpty_iff hok]
    · rw [length_bytes, fifoFull_iff hok]
      omega

theorem fifo_refines_queue_three : (fifoInit (fun _ => 0) 3).run [.put 1, .put 2, .put 3, .get] =
    .ok ([2], { buf := Function.update (Function.update (Function.update (fun _ => 0) 1 1) 2 2) 0 3,
                length := 3, head := 2, tail := 0 }) ∧
    ∃ f, (fifoInit (fun _ => 0) 3).run [.put 1, .put 2, .put 3, .get] = .ok ([2], f) ∧ f.bytes = [3] ∧
      (f.fifoEmpty = true ↔ [(3 : UInt8)].length = 0) ∧ (f.fifoFull = true ↔ [(3 : UInt8)].length = 3 - 1) :=
  ⟨rfl, fifo_refines_queue (fun _ => 0) (show 2 ≤ 3 by decide) [.put 1, .put 2, .put 3, .get]⟩

end Fifo
end Onix
