import Onix.Kernel.Fifo
import Onix.Kernel.Memory
import Onix.Lib.Transition

/-! Pipes, from pipe.c, and the tasks that read and write one. A call runs until it
returns or blocks in `task_block`, and goes on from there without another look
at the ring. -/

set_option autoImplicit false

namespace Onix

open Lib

/-- Where a task stands in `pipe_read` or `pipe_write`. -/
inductive PipeCall
  | outside
  /-- The bytes read so far, and how many are left to read. -/
  | reading (buf : List UInt8) (left : ℕ)
  /-- `nr`, and the bytes left to write. -/
  | writing (nr : ℕ) (buf : List UInt8)
  deriving DecidableEq, Repr

/-- The inode of a pipe and its users. `took` and `gave` are all bytes that have left the
ring and entered it; the kernel does not keep them. -/
structure Pipe (T : Type) where
  fifo : Fifo
  rxwaiter : Option T
  txwaiter : Option T
  call : T → PipeCall
  /-- The node of the task is linked in a wait list. -/
  blocked : T → Bool
  took : List UInt8
  gave : List UInt8

namespace Pipe

variable {T : Type} [DecidableEq T]

def setCall (s : Pipe T) (t : T) (call : PipeCall) : Pipe T := { s with call := Function.update s.call t call }

def taskBlock (s : Pipe T) (t : T) : Except Halt (Pipe T) := do
  assert "task->node.next == NULL" (!s.blocked t)
  .ok { s with blocked := Function.update s.blocked t true }

def taskUnblock (s : Pipe T) (t : T) : Except Halt (Pipe T) := do
  assert "node->prev != NULL" (s.blocked t)
  .ok { s with blocked := Function.update s.blocked t false }

/-- The end of a round of `pipe_read`: a byte, and the writer that waits is woken. -/
def readByte (s : Pipe T) : Except Halt (UInt8 × Pipe T) := do
  let (byte, fifo) ← s.fifo.fifoGet
  let s := { s with fifo := fifo, took := s.took ++ [byte] }
  match s.txwaiter with
  | some w => do
    let s ← s.taskUnblock w
    .ok (byte, { s with txwaiter := none })
  | none => .ok (byte, s)

/-- The end of a round of `pipe_write`. -/
def writeByte (s : Pipe T) (byte : UInt8) : Except Halt (Pipe T) := do
  let fifo ← s.fifo.fifoPut byte
  let s := { s with fifo := fifo, gave := s.gave ++ [byte] }
  match s.rxwaiter with
  | some w => do
    let s ← s.taskUnblock w
    .ok { s with rxwaiter := none }
  | none => .ok s

/-- The loop of `pipe_read`; the result is what it returned, if it did not block. -/
def readLoop (t : T) : ℕ → List UInt8 → Pipe T → Except Halt (Option (List UInt8) × Pipe T)
  | 0, buf, s => .ok (some buf, s.setCall t .outside)
  | left + 1, buf, s =>
    if s.fifo.fifoEmpty then do
      assert "inode->rxwaiter == NULL" s.rxwaiter.isNone
      let s ← { s with rxwaiter := some t }.taskBlock t
      .ok (none, s.setCall t (.reading buf (left + 1)))
    else do
      let (byte, s) ← s.readByte
      readLoop t left (buf ++ [byte]) s

/-- The loop of `pipe_write`. -/
def writeLoop (t : T) : List UInt8 → ℕ → Pipe T → Except Halt (Option ℕ × Pipe T)
  | [], nr, s => .ok (some nr, s.setCall t .outside)
  | byte :: rest, nr, s =>
    if s.fifo.fifoFull then do
      assert "inode->txwaiter == NULL" s.txwaiter.isNone
      let s ← { s with txwaiter := some t }.taskBlock t
      .ok (none, s.setCall t (.writing nr (byte :: rest)))
    else do
      let s ← s.writeByte byte
      writeLoop t rest (nr + 1) s

/-- A task calls `pipe_read` or `pipe_write`, or runs again after it was woken there. -/
inductive Event (T : Type)
  | read (t : T) (count : ℕ)
  | write (t : T) (buf : List UInt8)
  | resume (t : T)
  deriving Repr

/-- What a call returned: the bytes read, or how many were written. -/
inductive Obs
  | read (buf : List UInt8)
  | write (nr : ℕ)
  deriving DecidableEq, Repr

def Enabled (s : Pipe T) : Event T → Prop
  | .read t _ | .write t _ => s.call t = .outside
  | .resume t => s.call t ≠ .outside ∧ s.blocked t = false

def exec (s : Pipe T) : Event T → Except Halt (Option Obs × Pipe T)
  | .read t count => do
    let (ret, s) ← readLoop t count [] s
    .ok (ret.map .read, s)
  | .write t buf => do
    let (ret, s) ← writeLoop t buf 0 s
    .ok (ret.map .write, s)
  | .resume t =>
    match s.call t with
    | .reading buf (left + 1) => do
      let (byte, s) ← s.readByte
      let (ret, s) ← readLoop t left (buf ++ [byte]) s
      .ok (ret.map .read, s)
    | .writing nr (byte :: rest) => do
      let s ← s.writeByte byte
      let (ret, s) ← writeLoop t rest (nr + 1) s
      .ok (ret.map .write, s)
    | _ => .error .nullPointer

def Step (s : Pipe T) (l : Event T × Option Obs) (s' : Pipe T) : Prop := s.Enabled l.1 ∧ s.exec l.1 = .ok (l.2, s')

/-- The pipe that `get_pipe_inode` makes. -/
def Init (s : Pipe T) : Prop := ∃ buf, s = ⟨.fifoInit buf PAGE_SIZE.toNat, none, none, fun _ => .outside, fun _ => false, [], []⟩

/-! ### What every byte keeps -/

/-- A recorded waiter sleeps before a ring that is empty, or full; nobody else sleeps. -/
structure Inv (s : Pipe T) : Prop where
  ok : s.fifo.Ok
  log : s.took ++ s.fifo.bytes = s.gave
  rx : ∀ t, s.rxwaiter = some t → s.blocked t = true ∧ s.fifo.size = 0 ∧ ∃ buf left, s.call t = .reading buf (left + 1)
  tx : ∀ t, s.txwaiter = some t → s.blocked t = true ∧ s.fifo.size + 1 = s.fifo.length ∧
    ∃ nr byte rest, s.call t = .writing nr (byte :: rest)
  waits : ∀ t, s.blocked t = true → s.rxwaiter = some t ∨ s.txwaiter = some t
  shape : ∀ t, (∀ buf, s.call t ≠ .reading buf 0) ∧ ∀ nr, s.call t ≠ .writing nr []

/-- The free slots of the ring. -/
def room (s : Pipe T) : ℕ := s.fifo.length - 1 - s.fifo.size

variable {s s' : Pipe T} {t : T}

/-- What a byte read or written leaves alone: only a waiter is woken. -/
structure Moves (s s' : Pipe T) : Prop where
  call : s'.call = s.call
  blocked : ∀ t, s'.blocked t = true → s.blocked t = true
  length : s'.fifo.length = s.fifo.length

theorem readByte_spec (h : s.Inv) {n : ℕ} (hn : s.fifo.size = n + 1) : ∃ byte s', s.readByte = .ok (byte, s') ∧ s'.Inv ∧
    Moves s s' ∧ s'.fifo.size = n ∧ s'.took = s.took ++ [byte] ∧ s'.gave = s.gave ∧
      s'.rxwaiter = s.rxwaiter ∧ s'.txwaiter = none := by
  obtain ⟨byte, fifo, hget, hok, hlen, hbytes⟩ := Fifo.fifoGet_spec h.ok hn
  have hsize : fifo.size = n := by
    have := congrArg List.length hbytes
    simp only [Fifo.length_bytes, List.length_cons] at this
    omega
  have hlog : (s.took ++ [byte]) ++ fifo.bytes = s.gave := by
    rw [← h.log, hbytes, List.append_assoc]
    rfl
  have hnorx : s.rxwaiter = none := by
    cases hr : s.rxwaiter with
    | none => rfl
    | some u =>
      have := (h.rx u hr).2.1
      omega
  unfold readByte
  rw [hget, ok_bind]
  dsimp only
  cases htx : s.txwaiter with
  | none =>
    refine ⟨_, _, rfl, ⟨hok, hlog, ?_, ?_, ?_, h.shape⟩, ⟨rfl, fun _ hb => hb, hlen⟩, hsize, rfl, rfl, rfl, rfl⟩
    · intro u hu
      rw [show s.rxwaiter = some u from hu] at hnorx
      cases hnorx
    · intro u hu
      cases hu
    · intro u hu
      rcases h.waits u hu with h1 | h1
      · exact Or.inl h1
      · rw [htx] at h1
        cases h1
  | some w =>
    have hw := (h.tx w htx).1
    refine ⟨byte, ⟨fifo, s.rxwaiter, none, s.call, Function.update s.blocked w false, s.took ++ [byte], s.gave⟩, ?_,
      ⟨hok, hlog, ?_, ?_, ?_, h.shape⟩, ⟨rfl, ?_, hlen⟩, hsize, rfl, rfl, rfl, rfl⟩
    · simp only [taskUnblock, hw, assert_true, ok_bind]
    · intro u hu
      rw [show s.rxwaiter = some u from hu] at hnorx
      cases hnorx
    · intro u hu
      cases hu
    · intro u hu
      dsimp only at hu ⊢
      by_cases huw : u = w
      · rw [huw, Function.update_self] at hu
        cases hu
      · rw [Function.update_of_ne huw] at hu
        rcases h.waits u hu with h1 | h1
        · exact Or.inl h1
        · rw [htx] at h1
          exact absurd (Option.some.inj h1).symm huw
    · intro u hu
      dsimp only at hu
      by_cases huw : u = w
      · rw [huw, Function.update_self] at hu
        cases hu
      · rwa [Function.update_of_ne huw] at hu

theorem writeByte_spec (h : s.Inv) (hroom : s.fifo.size + 1 < s.fifo.length) (byte : UInt8) :
    ∃ s', s.writeByte byte = .ok s' ∧ s'.Inv ∧ Moves s s' ∧ s'.fifo.size = s.fifo.size + 1 ∧
      s'.took = s.took ∧ s'.gave = s.gave ++ [byte] ∧ s'.txwaiter = s.txwaiter ∧ s'.rxwaiter = none := by
  obtain ⟨fifo, hput, hok, hlen, hbytes⟩ := Fifo.fifoPut_spec h.ok hroom byte
  have hsize : fifo.size = s.fifo.size + 1 := by
    have := congrArg List.length hbytes
    simpa only [Fifo.length_bytes, List.length_append, List.length_singleton] using this
  have hlog : s.took ++ fifo.bytes = s.gave ++ [byte] := by
    rw [hbytes, ← List.append_assoc, h.log]
  have hnotx : s.txwaiter = none := by
    cases hr : s.txwaiter with
    | none => rfl
    | some u =>
      have := (h.tx u hr).2.1
      omega
  unfold writeByte
  rw [hput, ok_bind]
  dsimp only
  cases hrx : s.rxwaiter with
  | none =>
    refine ⟨_, rfl, ⟨hok, hlog, ?_, ?_, ?_, h.shape⟩, ⟨rfl, fun _ hb => hb, hlen⟩, hsize, rfl, rfl, rfl, rfl⟩
    · intro u hu
      cases hu
    · intro u hu
      rw [show s.txwaiter = some u from hu] at hnotx
      cases hnotx
    · intro u hu
      rcases h.waits u hu with h1 | h1
      · rw [hrx] at h1
        cases h1
      · exact Or.inr h1
  | some w =>
    have hw := (h.rx w hrx).1
    refine ⟨⟨fifo, none, s.txwaiter, s.call, Function.update s.blocked w false, s.took, s.gave ++ [byte]⟩, ?_,
      ⟨hok, hlog, ?_, ?_, ?_, h.shape⟩, ⟨rfl, ?_, hlen⟩, hsize, rfl, rfl, rfl, rfl⟩
    · simp only [taskUnblock, hw, assert_true, ok_bind]
    · intro u hu
      cases hu
    · intro u hu
      rw [show s.txwaiter = some u from hu] at hnotx
      cases hnotx
    · intro u hu
      dsimp only at hu ⊢
      by_cases huw : u = w
      · rw [huw, Function.update_self] at hu
        cases hu
      · rw [Function.update_of_ne huw] at hu
        rcases h.waits u hu with h1 | h1
        · rw [hrx] at h1
          exact absurd (Option.some.inj h1).symm huw
        · exact Or.inr h1
    · intro u hu
      dsimp only at hu
      by_cases huw : u = w
      · rw [huw, Function.update_self] at hu
        cases hu
      · rwa [Function.update_of_ne huw] at hu

/-! ### What a call keeps until it blocks or returns -/

theorem Inv.setCall (h : s.Inv) (ht : s.blocked t = false) {call : PipeCall}
    (hcall : (∀ buf, call ≠ .reading buf 0) ∧ ∀ nr, call ≠ .writing nr []) : (s.setCall t call).Inv := by
  have hother : ∀ u, s.blocked u = true → (s.setCall t call).call u = s.call u := by
    intro u hu
    refine Function.update_of_ne ?_ _ _
    rintro rfl
    rw [ht] at hu
    cases hu
  refine ⟨h.ok, h.log, fun u hu => ?_, fun u hu => ?_, h.waits, fun u => ?_⟩
  · obtain ⟨h1, h2, h3⟩ := h.rx u hu
    exact ⟨h1, h2, by rw [hother u h1]; exact h3⟩
  · obtain ⟨h1, h2, h3⟩ := h.tx u hu
    exact ⟨h1, h2, by rw [hother u h1]; exact h3⟩
  · simp only [Pipe.setCall, Function.update_apply]
    split_ifs
    · exact hcall
    · exact h.shape u

/-- What a stretch of `pipe_read` of `t` did, with `buf` read before and `left` to read. -/
structure Reads (s s' : Pipe T) (t : T) (left : ℕ) (buf : List UInt8) (ret : Option (List UInt8)) : Prop where
  others : ∀ u, u ≠ t → s'.call u = s.call u
  blocked : ∀ u, u ≠ t → s'.blocked u = true → s.blocked u = true
  woken : ∀ u, u ≠ t → s'.blocked u = false → s.blocked u = false ∨ s'.fifo.size + 1 < s'.fifo.length
  size : s'.fifo.size ≤ s.fifo.size
  length : s'.fifo.length = s.fifo.length
  gave : s'.gave = s.gave
  got : ∃ got, s'.took = s.took ++ got ∧
    (ret = some (buf ++ got) ∧ got.length = left ∧ s'.call t = .outside ∧ s'.blocked t = false ∨
      ret = none ∧ s'.blocked t = true ∧ ∃ n, left = got.length + (n + 1) ∧ s'.call t = .reading (buf ++ got) (n + 1))

omit [DecidableEq T] in
/-- One byte more in front of a stretch. -/
theorem Reads.cons {s₁ : Pipe T} {left n : ℕ} {buf : List UInt8} {byte : UInt8} {ret : Option (List UInt8)}
    (h : s.Inv) (hn : s.fifo.size = n + 1) (hmove : Moves s s₁) (hsize : s₁.fifo.size = n) (hgave : s₁.gave = s.gave)
    (htook : s₁.took = s.took ++ [byte]) (w : Reads s₁ s' t left (buf ++ [byte]) ret) : Reads s s' t (left + 1) buf ret := by
  have hlt := h.ok.size_lt
  have hle := w.size
  refine ⟨fun u hu => (w.others u hu).trans (congrFun hmove.call u), fun u hu hb => hmove.blocked u (w.blocked u hu hb),
    fun u hu hb => ?_, by omega, w.length.trans hmove.length, w.gave.trans hgave, ?_⟩
  · rw [w.length, hmove.length]
    right
    omega
  · obtain ⟨got, hg, hcase⟩ := w.got
    refine ⟨byte :: got, by rw [hg, htook, List.append_assoc]; rfl, ?_⟩
    rw [← List.append_cons] at hcase
    rcases hcase with ⟨h1, h2, h3⟩ | ⟨h1, h2, k, h3, h4⟩
    · exact Or.inl ⟨h1, by rw [List.length_cons, h2], h3⟩
    · exact Or.inr ⟨h1, h2, k, by rw [h3, List.length_cons]; omega, h4⟩

theorem readLoop_spec (left : ℕ) (buf : List UInt8) (h : s.Inv) (ht : s.blocked t = false)
    (hc : left ≤ s.fifo.size ∨ s.rxwaiter = none) :
    ∃ ret s', readLoop t left buf s = .ok (ret, s') ∧ s'.Inv ∧ Reads s s' t left buf ret := by
  induction left generalizing buf s with
  | zero =>
    refine ⟨_, _, rfl, h.setCall ht ⟨nofun, nofun⟩, ?_⟩
    refine ⟨fun u hu => Function.update_of_ne hu _ _, fun _ _ hb => hb, fun _ _ hb => Or.inl hb, le_rfl, rfl, rfl,
      [], (List.append_nil _).symm, Or.inl ⟨by rw [List.append_nil], rfl, Function.update_self .., ht⟩⟩
  | succ left ih =>
    unfold readLoop
    cases hs : s.fifo.size with
    | zero =>
      have hrx : s.rxwaiter = none := hc.resolve_left (by omega)
      rw [if_pos ((Fifo.fifoEmpty_iff h.ok).mpr hs), hrx]
      set s₁ : Pipe T := { s with rxwaiter := some t, blocked := Function.update s.blocked t true } with hs₁
      refine ⟨none, s₁.setCall t (.reading buf (left + 1)), ?_, ?_, ?_⟩
      · simp only [Option.isNone_none, assert_true, ok_bind, taskBlock, ht, Bool.not_false]
        rfl
      · have hne : ∀ u, s.txwaiter = some u → u ≠ t := by
          rintro u hu rfl
          rw [(h.tx u hu).1] at ht
          cases ht
        refine ⟨h.ok, h.log, fun u hu => ?_, fun u hu => ?_, fun u hu => ?_, fun u => ?_⟩
        · cases hu
          exact ⟨Function.update_self .., hs, buf, left, Function.update_self ..⟩
        · obtain ⟨h1, h2, h3⟩ := h.tx u hu
          refine ⟨(Function.update_of_ne (hne u hu) _ _).trans h1, h2, ?_⟩
          change ∃ nr byte rest, Function.update s.call t _ u = _
          rw [Function.update_of_ne (hne u hu)]
          exact h3
        · by_cases hut : u = t
          · exact Or.inl (congrArg some hut.symm)
          · rw [show (s₁.setCall t (.reading buf (left + 1))).blocked u = s.blocked u from
              Function.update_of_ne hut _ _] at hu
            rcases h.waits u hu with h1 | h1
            · rw [hrx] at h1
              cases h1
            · exact Or.inr h1
        · change (∀ b, Function.update s.call t _ u ≠ _) ∧ ∀ nr, Function.update s.call t _ u ≠ _
          rw [Function.update_apply]
          split_ifs
          · exact ⟨nofun, nofun⟩
          · exact h.shape u
      · refine ⟨fun u hu => Function.update_of_ne hu _ _, fun u hu hb => ?_, fun u hu hb => Or.inl ?_, le_rfl, rfl, rfl,
          [], (List.append_nil _).symm, Or.inr ⟨rfl, Function.update_self .., left, by simp, ?_⟩⟩
        · rwa [show (s₁.setCall t (.reading buf (left + 1))).blocked u = s.blocked u from
            Function.update_of_ne hu _ _] at hb
        · rwa [show (s₁.setCall t (.reading buf (left + 1))).blocked u = s.blocked u from
            Function.update_of_ne hu _ _] at hb
        · rw [List.append_nil]
          exact Function.update_self ..
    | succ n =>
      have hne : ¬ s.fifo.fifoEmpty = true := fun he => by
        have := (Fifo.fifoEmpty_iff h.ok).mp he
        omega
      obtain ⟨byte, s₁, hread, hinv, hmove, hsize, htook, hgave, hrx, -⟩ := readByte_spec h hs
      have ht₁ : s₁.blocked t = false := by
        cases hb : s₁.blocked t with
        | false => rfl
        | true =>
          rw [hmove.blocked t hb] at ht
          cases ht
      have hc₁ : left ≤ s₁.fifo.size ∨ s₁.rxwaiter = none := by
        rw [hrx, hsize]
        exact hc.imp_left fun hle => by omega
      obtain ⟨ret, s', hloop, hinv', w⟩ := ih (buf ++ [byte]) hinv ht₁ hc₁
      refine ⟨ret, s', ?_, hinv', w.cons h hs hmove hsize hgave htook⟩
      rw [if_neg hne, hread, ok_bind]
      exact hloop

/-- What a stretch of `pipe_write` of `t` did, with `buf` left to write. -/
structure Writes (s s' : Pipe T) (t : T) (buf : List UInt8) (nr : ℕ) (ret : Option ℕ) : Prop where
  others : ∀ u, u ≠ t → s'.call u = s.call u
  blocked : ∀ u, u ≠ t → s'.blocked u = true → s.blocked u = true
  woken : ∀ u, u ≠ t → s'.blocked u = false → s.blocked u = false ∨ 0 < s'.fifo.size
  size : s.fifo.size ≤ s'.fifo.size
  length : s'.fifo.length = s.fifo.length
  took : s'.took = s.took
  put : ∃ done rest, buf = done ++ rest ∧ s'.gave = s.gave ++ done ∧
    (ret = some (nr + done.length) ∧ rest = [] ∧ s'.call t = .outside ∧ s'.blocked t = false ∨
      ret = none ∧ s'.blocked t = true ∧ rest ≠ [] ∧ s'.call t = .writing (nr + done.length) rest)

omit [DecidableEq T] in
theorem Writes.cons {s₁ : Pipe T} {nr : ℕ} {buf : List UInt8} {byte : UInt8} {ret : Option ℕ}
    (hmove : Moves s s₁) (hsize : s₁.fifo.size = s.fifo.size + 1) (htook : s₁.took = s.took)
    (hgave : s₁.gave = s.gave ++ [byte]) (w : Writes s₁ s' t buf (nr + 1) ret) : Writes s s' t (byte :: buf) nr ret := by
  have hle := w.size
  refine ⟨fun u hu => (w.others u hu).trans (congrFun hmove.call u), fun u hu hb => hmove.blocked u (w.blocked u hu hb),
    fun u hu hb => Or.inr (by omega), by omega, w.length.trans hmove.length, w.took.trans htook, ?_⟩
  obtain ⟨done, rest, hb, hg, hcase⟩ := w.put
  have hlen : nr + 1 + done.length = nr + (byte :: done).length := by
    rw [List.length_cons]
    omega
  rw [hlen] at hcase
  exact ⟨byte :: done, rest, by rw [hb, List.cons_append], by rw [hg, hgave, List.append_assoc]; rfl, hcase⟩

theorem writeLoop_spec (buf : List UInt8) (nr : ℕ) (h : s.Inv) (ht : s.blocked t = false)
    (hc : buf.length ≤ s.room ∨ s.txwaiter = none) :
    ∃ ret s', writeLoop t buf nr s = .ok (ret, s') ∧ s'.Inv ∧ Writes s s' t buf nr ret := by
  induction buf generalizing nr s with
  | nil =>
    refine ⟨_, _, rfl, h.setCall ht ⟨nofun, nofun⟩, ?_⟩
    exact ⟨fun u hu => Function.update_of_ne hu _ _, fun _ _ hb => hb, fun _ _ hb => Or.inl hb, le_rfl, rfl, rfl,
      [], [], rfl, (List.append_nil _).symm, Or.inl ⟨rfl, rfl, Function.update_self .., ht⟩⟩
  | cons byte buf ih =>
    have hlt := h.ok.size_lt
    unfold writeLoop
    by_cases hfull : s.fifo.fifoFull = true
    · have hs := (Fifo.fifoFull_iff h.ok).mp hfull
      have htx : s.txwaiter = none := by
        apply hc.resolve_left
        rw [List.length_cons]
        unfold room
        omega
      rw [if_pos hfull, htx]
      set s₁ : Pipe T := { s with txwaiter := some t, blocked := Function.update s.blocked t true } with hs₁
      refine ⟨none, s₁.setCall t (.writing nr (byte :: buf)), ?_, ?_, ?_⟩
      · simp only [Option.isNone_none, assert_true, ok_bind, taskBlock, ht, Bool.not_false]
        rfl
      · have hne : ∀ u, s.rxwaiter = some u → u ≠ t := by
          rintro u hu rfl
          rw [(h.rx u hu).1] at ht
          cases ht
        refine ⟨h.ok, h.log, fun u hu => ?_, fun u hu => ?_, fun u hu => ?_, fun u => ?_⟩
        · obtain ⟨h1, h2, h3⟩ := h.rx u hu
          refine ⟨(Function.update_of_ne (hne u hu) _ _).trans h1, h2, ?_⟩
          change ∃ b left, Function.update s.call t _ u = _
          rw [Function.update_of_ne (hne u hu)]
          exact h3
        · cases hu
          exact ⟨Function.update_self .., hs, nr, byte, buf, Function.update_self ..⟩
        · by_cases hut : u = t
          · exact Or.inr (congrArg some hut.symm)
          · rw [show (s₁.setCall t (.writing nr (byte :: buf))).blocked u = s.blocked u from
              Function.update_of_ne hut _ _] at hu
            rcases h.waits u hu with h1 | h1
            · exact Or.inl h1
            · rw [htx] at h1
              cases h1
        · change (∀ b, Function.update s.call t _ u ≠ _) ∧ ∀ k, Function.update s.call t _ u ≠ _
          rw [Function.update_apply]
          split_ifs
          · exact ⟨nofun, nofun⟩
          · exact h.shape u
      · refine ⟨fun u hu => Function.update_of_ne hu _ _, fun u hu hb => ?_, fun u hu hb => Or.inl ?_, le_rfl, rfl, rfl,
          [], byte :: buf, rfl, (List.append_nil _).symm,
          Or.inr ⟨rfl, Function.update_self .., List.cons_ne_nil _ _, Function.update_self ..⟩⟩
        · rwa [show (s₁.setCall t (.writing nr (byte :: buf))).blocked u = s.blocked u from
            Function.update_of_ne hu _ _] at hb
        · rwa [show (s₁.setCall t (.writing nr (byte :: buf))).blocked u = s.blocked u from
            Function.update_of_ne hu _ _] at hb
    · have hroom : s.fifo.size + 1 < s.fifo.length := by
        have : ¬ s.fifo.size + 1 = s.fifo.length := fun he => hfull ((Fifo.fifoFull_iff h.ok).mpr he)
        omega
      obtain ⟨s₁, hwrite, hinv, hmove, hsize, htook, hgave, htx, -⟩ := writeByte_spec h hroom byte
      have ht₁ : s₁.blocked t = false := by
        cases hb : s₁.blocked t with
        | false => rfl
        | true =>
          rw [hmove.blocked t hb] at ht
          cases ht
      have hc₁ : buf.length ≤ s₁.room ∨ s₁.txwaiter = none := by
        unfold room at hc ⊢
        rw [htx, hsize, hmove.length]
        rw [List.length_cons] at hc
        exact hc.imp_left fun hle => by omega
      obtain ⟨ret, s', hloop, hinv', w⟩ := ih (nr + 1) hinv ht₁ hc₁
      refine ⟨ret, s', ?_, hinv', w.cons hmove hsize htook hgave⟩
      rw [if_neg hfull, hwrite, ok_bind]
      exact hloop

end Pipe
end Onix
