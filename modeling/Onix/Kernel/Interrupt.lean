import Onix.Kernel.Task

/-! The way into the kernel and back, from handler.asm, with the frame that
`task_build_stack` leaves a forked child. A C function that is called in between
may change its arguments and any register it likes, but not the words above them. -/

set_option autoImplicit false

namespace Onix

open Lib

/-- The registers, and the kernel stack of the running task from `esp` up; while the task is in
user mode its kernel stack is empty, and `esp` points elsewhere. -/
@[ext] structure Cpu where
  eax : UInt32
  ecx : UInt32
  edx : UInt32
  ebx : UInt32
  esp : UInt32
  ebp : UInt32
  esi : UInt32
  edi : UInt32
  ds : UInt16
  es : UInt16
  fs : UInt16
  gs : UInt16
  cs : UInt16
  ss : UInt16
  eip : UInt32
  eflags : UInt32
  stack : List UInt32

namespace Cpu

def push (c : Cpu) (w : UInt32) : Cpu := { c with esp := c.esp - 4, stack := w :: c.stack }

def pop (c : Cpu) : Except Halt (UInt32 × Cpu) :=
  match c.stack with
  | w :: rest => .ok (w, { c with esp := c.esp + 4, stack := rest })
  | [] => .error .nullPointer

/-- `add esp, n * 4` -/
def addEsp (c : Cpu) (n : ℕ) : Cpu := { c with esp := c.esp + 4 * n.toUInt32, stack := c.stack.drop n }

/-- Anything but ring 0. -/
def userMode (cs : UInt16) : Bool := cs &&& 3 ≠ 0

def popad (c : Cpu) : Except Halt Cpu := do
  let (edi, c) ← c.pop
  let (esi, c) ← c.pop
  let (ebp, c) ← c.pop
  let (_, c) ← c.pop
  let (ebx, c) ← c.pop
  let (edx, c) ← c.pop
  let (ecx, c) ← c.pop
  let (eax, c) ← c.pop
  .ok { c with edi, esi, ebp, ebx, edx, ecx, eax }

def iret (c : Cpu) : Except Halt Cpu := do
  let (eip, c) ← c.pop
  let (cs, c) ← c.pop
  let (eflags, c) ← c.pop
  let c := { c with eip, cs := cs.toUInt16, eflags }
  if userMode c.cs then do
    let (esp, c) ← c.pop
    let (ss, c) ← c.pop
    .ok { c with esp, ss := ss.toUInt16 }
  else .ok c

end Cpu

/-- A C function with `n` argument words, called with the stack at the first of them. -/
structure CFunction (n : ℕ) where
  call : Cpu → Cpu
  esp : ∀ c, (call c).esp = c.esp
  ss : ∀ c, (call c).ss = c.ss
  frame : ∀ c, n ≤ c.stack.length → ∃ args, args.length = n ∧ (call c).stack = args ++ c.stack.drop n

namespace Handler

open Cpu

def interruptExit (c : Cpu) : Except Halt Cpu := do
  let c := c.addEsp 1
  let c ← c.popad
  let (ds, c) ← c.pop
  let c := { c with ds := ds.toUInt16 }
  let (es, c) ← c.pop
  let c := { c with es := es.toUInt16 }
  let (fs, c) ← c.pop
  let c := { c with fs := fs.toUInt16 }
  let (gs, c) ← c.pop
  let c := { c with gs := gs.toUInt16 }
  let c := c.addEsp 2
  c.iret

/-- `intr_frame_t` -/
structure IntrFrame where
  vector : UInt32
  edi : UInt32
  esi : UInt32
  ebp : UInt32
  espDummy : UInt32
  ebx : UInt32
  edx : UInt32
  ecx : UInt32
  eax : UInt32
  gs : UInt32
  fs : UInt32
  es : UInt32
  ds : UInt32
  vector0 : UInt32
  error : UInt32
  eip : UInt32
  cs : UInt32
  eflags : UInt32
  esp : UInt32
  ss : UInt32

/-- The `sizeof(intr_frame_t)` bytes at an address, read as the structure. -/
def IntrFrame.ofWords : List UInt32 → Option IntrFrame
  | [vector, edi, esi, ebp, espDummy, ebx, edx, ecx, eax, gs, fs, es, ds, vector0, error, eip, cs, eflags, esp, ss] =>
    some { vector, edi, esi, ebp, espDummy, ebx, edx, ecx, eax, gs, fs, es, ds, vector0, error, eip, cs, eflags, esp, ss }
  | _ => none

def IntrFrame.words (f : IntrFrame) : List UInt32 :=
  [f.vector, f.edi, f.esi, f.ebp, f.espDummy, f.ebx, f.edx, f.ecx, f.eax, f.gs, f.fs, f.es, f.ds, f.vector0, f.error,
    f.eip, f.cs, f.eflags, f.esp, f.ss]

/-- `task_build_stack` on the upper part of the page that `task_fork` copied: the words of the child's
stack, with a `task_frame_t` (edi, esi, ebx, ebp, eip) below the frame. -/
def taskBuildStack (interruptExit : UInt32) (page : List UInt32) : Except Halt (List UInt32) :=
  match IntrFrame.ofWords (page.drop (page.length - 20)) with
  | some iframe => .ok ([0xaa55aa55, 0xaa55aa55, 0xaa55aa55, 0xaa55aa55, interruptExit] ++ { iframe with eax := 0 }.words)
  | none => .error .nullPointer

/-- The end of `task_switch`, on the stack of the next task. -/
def taskSwitch (c : Cpu) : Except Halt Cpu := do
  let (edi, c) ← c.pop
  let (esi, c) ← c.pop
  let (ebx, c) ← c.pop
  let (ebp, c) ← c.pop
  let (eip, c) ← c.pop
  .ok { c with edi, esi, ebx, ebp, eip }

/-! ### There and back -/

/-- A context that can be interrupted. -/
structure Context where
  cpu : Cpu
  idle : userMode cpu.cs = true → cpu.stack = []

/-- What `interrupt_exit` makes of the segment registers. -/
def swapped (c : Cpu) : Cpu := { c with ds := c.gs, es := c.fs, fs := c.es, gs := c.ds }

/-- What the processor keeps of `c` above the three words that it always pushes. -/
def outer (c : Cpu) : List UInt32 := if userMode c.cs then [c.esp, c.ss.toUInt32] else c.stack

/-- `k` stands at a frame that keeps the registers of `c`, but for three of them. -/
structure AtFrame (c : Cpu) (edx ecx eax : UInt32) (k : Cpu) : Prop where
  stack : ∃ vector espDummy vector0 error, k.stack = vector :: c.edi :: c.esi :: c.ebp :: espDummy :: c.ebx :: edx :: ecx ::
    eax :: c.gs.toUInt32 :: c.fs.toUInt32 :: c.es.toUInt32 :: c.ds.toUInt32 :: vector0 :: error ::
    c.eip :: c.cs.toUInt32 :: c.eflags :: outer c
  esp : userMode c.cs = false → k.esp + 72 = c.esp
  ss : userMode c.cs = false → k.ss = c.ss

theorem AtFrame.exit {C : Context} {edx ecx eax : UInt32} {k : Cpu} (h : AtFrame C.cpu edx ecx eax k) :
    interruptExit k = .ok { swapped C.cpu with edx, ecx, eax } := by
  obtain ⟨c, hidle⟩ := C
  obtain ⟨⟨vector, espDummy, vector0, error, hstack⟩, hesp, hss⟩ := h
  dsimp only at hstack hesp hss
  cases hu : userMode c.cs with
  | true =>
    rw [outer, if_pos hu] at hstack
    simp [interruptExit, popad, pop, addEsp, iret, hstack, hu, swapped, hidle hu]
  | false =>
    rw [outer, if_neg (by simp [hu])] at hstack
    have hback : k.esp + 4 + 4 + 4 + 4 + 4 + 4 + 4 + 4 + 4 + 4 + 4 + 4 + 4 + 8 + 4 + 4 + 4 = c.esp := by
      rw [← hesp hu]
      grind
    simp [interruptExit, popad, pop, addEsp, iret, hstack, hu, swapped, hss hu]
    exact hback

/-- A function whose only argument is the vector leaves the frame. -/
theorem AtFrame.call {c : Cpu} {edx ecx eax : UInt32} {k : Cpu} (h : AtFrame c edx ecx eax k) (f : CFunction 1) :
    AtFrame c edx ecx eax (f.call k) := by
  obtain ⟨⟨vector, espDummy, vector0, error, hstack⟩, hesp, hss⟩ := h
  obtain ⟨args, hargs, hcall⟩ := f.frame k (by simp [hstack])
  obtain ⟨v, rfl⟩ := List.length_eq_one_iff.mp hargs
  refine ⟨⟨v, espDummy, vector0, error, ?_⟩, fun hu => ?_, fun hu => ?_⟩
  · rw [hcall, hstack]
    rfl
  · rw [f.esp, hesp hu]
  · rw [f.ss, hss hu]

end Handler
end Onix
