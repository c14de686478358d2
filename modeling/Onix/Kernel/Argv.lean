import Onix.Kernel.KernelPages
import Onix.Lib.Bytes

/-! The arguments of a program: `copy_argv_envp` lays strings and pointers out downwards in four pages of the kernel,
with the addresses that they will have below the top of the user stack, and copies them there. `_start` and
`__libc_start_main` find them again, unless they fill the four pages to the last byte. -/

set_option autoImplicit false

namespace Onix

open Lib

/-- A string of C: no byte of it is the terminator. -/
structure CString where
  bytes : List UInt8
  terminated : 0 ∉ bytes

namespace CString

/-- The string with its terminator. -/
def stored (s : CString) : List UInt8 := s.bytes ++ [0]

@[simp] theorem length_stored (s : CString) : s.stored.length = s.bytes.length + 1 := by simp [stored]

end CString

/-- The variables of `copy_argv_envp`. -/
structure ArgCopy where
  mem : ByteMem
  ktop : ℕ
  utop : ℕ

namespace ArgCopy

/-- A string, and into the slot a pointer to where the user will see it. -/
def pushString (s : ArgCopy) (slot : ℕ) (string : CString) : ArgCopy :=
  let len := string.bytes.length + 1
  let ktop := s.ktop - len
  let utop := s.utop - len
  { mem := (s.mem.put ktop string.stored).put slot (ByteMem.wordBytes (.ofNat utop))
    ktop := ktop
    utop := utop }

/-- The loops over `envp` and `argv`, which start with the last string. -/
def pushStrings (s : ArgCopy) : ℕ → List CString → ArgCopy
  | _, [] => s
  | slot, string :: strings => (s.pushStrings (slot + 4) strings).pushString slot string

/-- `ktop -= len` and `memcpy(ktop, src, len)` -/
def pushCopy (s : ArgCopy) (src len : ℕ) : ArgCopy :=
  { s with mem := s.mem.copy (s.ktop - len) src len, ktop := s.ktop - len }

def pushWord (s : ArgCopy) (w : UInt32) : ArgCopy :=
  { s with mem := s.mem.put (s.ktop - 4) (ByteMem.wordBytes w), ktop := s.ktop - 4 }

end ArgCopy

/-- `count_argv` -/
def countArgv : Option (List CString) → ℕ
  | none => 0
  | some strings => strings.length

/-- The kernel copy of `copy_argv_envp`, before its assertion. -/
def kernelCopy (mem : ByteMem) (pages argvk : ℕ) (filename : CString) (argv envp : Option (List CString)) : ArgCopy :=
  let argc := countArgv argv + 1
  let envc := countArgv envp
  let mem := mem.put (argvk + 4 * argc) (ByteMem.wordBytes 0)
  let envpk := argvk + 4 * (argc + 1)
  let mem := mem.put (envpk + 4 * envc) (ByteMem.wordBytes 0)
  let s : ArgCopy := ⟨mem, pages + 4 * 4096, USER_STACK_TOP.toNat⟩
  let s := s.pushStrings envpk (envp.getD [])
  let s := s.pushStrings (argvk + 4) (argv.getD [])
  let s := s.pushString argvk filename
  let s := s.pushCopy envpk ((envc + 1) * 4)
  let s := s.pushCopy argvk ((argc + 1) * 4)
  s.pushWord (.ofNat argc)

/-- `copy_argv_envp`, in the linear memory `mem` of the running task. -/
def copyArgvEnvp (kernel : Memory) (mem : ByteMem) (filename : CString) (argv envp : Option (List CString)) :
    Except Halt (ℕ × Memory × ByteMem) := do
  let (pages, kernel) ← kernel.allocKpage 4
  let (argvk, kernel) ← kernel.allocKpage 1
  let s := kernelCopy mem (pages * 4096) (argvk * 4096) filename argv envp
  assert "(uint32)ktop > pages" (s.ktop > pages * 4096)
  let len := pages * 4096 + 4 * 4096 - s.ktop
  let utop := USER_STACK_TOP.toNat - len
  let kernel ← kernel.freeKpage argvk 1
  let kernel ← kernel.freeKpage pages 4
  .ok (utop, kernel, s.mem.copy utop s.ktop len)

/-! ### The program that is started -/

/-- What `_start` takes from the stack and `__libc_start_main` hands to `main`: `argc`, `argv` and `envp`. -/
def libcStart (m : ByteMem) (sp : ℕ) : UInt32 × ℕ × ℕ :=
  let argc := m.load32 sp
  let argv := sp + 4
  (argc, argv, argv + 4 * (argc.toNat + 1))

/-- A string, up to its terminator. -/
def stringAt (m : ByteMem) : ℕ → ℕ → Option (List UInt8)
  | 0, _ => none
  | n + 1, addr => if m addr = 0 then some [] else (stringAt m n (addr + 1)).map (m addr :: ·)

/-- A table of pointers, up to NULL. -/
def pointersAt (m : ByteMem) : ℕ → ℕ → Option (List UInt32)
  | 0, _ => none
  | n + 1, addr => if m.load32 addr = 0 then some [] else (pointersAt m n (addr + 4)).map (m.load32 addr :: ·)

/-- The pointer leads to a terminated copy of the string, inside the image from `sp` to the top of the stack. -/
def PointsTo (m : ByteMem) (sp : ℕ) (p : UInt32) (s : CString) : Prop :=
  sp ≤ p.toNat ∧ p.toNat + s.stored.length ≤ USER_STACK_TOP.toNat ∧
    stringAt m s.stored.length p.toNat = some s.bytes

/-- The table at `addr` has a pointer to each of the strings, and NULL. -/
def TableOf (m : ByteMem) (sp addr : ℕ) (strings : List CString) : Prop :=
  ∃ ps, pointersAt m (strings.length + 1) addr = some ps ∧ List.Forall₂ (PointsTo m sp) ps strings

/-- What `main` is called with. -/
def MainSees (m : ByteMem) (sp : ℕ) (argv envp : List CString) : Prop :=
  (libcStart m sp).1.toNat = argv.length ∧ TableOf m sp (libcStart m sp).2.1 argv ∧
    TableOf m sp (libcStart m sp).2.2 envp

theorem stringAt_stored {m : ByteMem} {s : List UInt8} (hs : 0 ∉ s) :
    ∀ {addr : ℕ}, m.Holds addr (s ++ [0]) → stringAt m (s.length + 1) addr = some s := by
  induction s with
  | nil =>
    intro addr h
    have h0 : m addr = 0 := (ByteMem.holds_cons.mp h).1
    simp [stringAt, h0]
  | cons x xs ih =>
    intro addr h
    obtain ⟨hx, hrest⟩ := ByteMem.holds_cons.mp h
    rw [List.mem_cons, not_or] at hs
    have hne : m addr ≠ 0 := by rw [hx]; exact fun h0 => hs.1 h0.symm
    rw [List.length_cons, stringAt, if_neg hne, ih hs.2 hrest, hx]
    rfl

theorem pointersAt_table {m : ByteMem} {ps : List UInt32} (hs : ∀ p ∈ ps, p ≠ 0) :
    ∀ {addr : ℕ}, m.Holds addr (ps.flatMap ByteMem.wordBytes ++ ByteMem.wordBytes 0) →
      pointersAt m (ps.length + 1) addr = some ps := by
  induction ps with
  | nil =>
    intro addr h
    have h0 : m.load32 addr = 0 := h.load
    simp [pointersAt, h0]
  | cons p ps ih =>
    intro addr h
    rw [List.flatMap_cons, List.append_assoc, ByteMem.holds_append] at h
    have hp : m.load32 addr = p := h.1.load
    have hne : m.load32 addr ≠ 0 := by rw [hp]; exact hs p (by simp)
    have hrest : pointersAt m (ps.length + 1) (addr + 4) = some ps := ih (fun q hq => hs q (by simp [hq])) h.2
    rw [List.length_cons, pointersAt, if_neg hne, hrest, hp]
    rfl

/-! ### What the loops lay out -/

/-- The strings one after another. -/
def layout (strings : List CString) : List UInt8 := strings.flatMap CString.stored

/-- Where the strings start that are laid out from `addr` on. -/
def pointersFrom : ℕ → List CString → List UInt32
  | _, [] => []
  | addr, s :: strings => .ofNat addr :: pointersFrom (addr + s.stored.length) strings

@[simp] theorem length_pointersFrom (addr : ℕ) (strings : List CString) :
    (pointersFrom addr strings).length = strings.length := by
  induction strings generalizing addr with
  | nil => rfl
  | cons s strings ih => simp [pointersFrom, ih]

@[simp] theorem length_flatMap_wordBytes (ps : List UInt32) :
    (ps.flatMap ByteMem.wordBytes).length = 4 * ps.length := by
  induction ps with
  | nil => rfl
  | cons p ps ih => simp [ih]; omega

/-- The strings have been pushed, their pointers are in the slots, and nothing else has changed. -/
structure Pushed (s s' : ArgCopy) (slot : ℕ) (strings : List CString) : Prop where
  ktop : s'.ktop + (layout strings).length = s.ktop
  utop : s'.utop + (layout strings).length = s.utop
  stack : s'.mem.Holds s'.ktop (layout strings)
  slots : s'.mem.Holds slot ((pointersFrom s'.utop strings).flatMap ByteMem.wordBytes)
  frame : ∀ i, (i < s'.ktop ∨ s.ktop ≤ i) → (i < slot ∨ slot + 4 * strings.length ≤ i) → s'.mem i = s.mem i

/-- Two stretches of memory do not meet. -/
def Apart (a n b k : ℕ) : Prop := a + n ≤ b ∨ b + k ≤ a

theorem layout_cons (c : CString) (strings : List CString) : layout (c :: strings) = c.stored ++ layout strings := rfl

theorem length_layout_cons (c : CString) (strings : List CString) :
    (layout (c :: strings)).length = c.bytes.length + 1 + (layout strings).length := by
  rw [layout_cons, List.length_append, CString.length_stored]

theorem pushString_pushed {s : ArgCopy} {slot : ℕ} {c : CString} (hk : c.bytes.length + 1 ≤ s.ktop)
    (hu : c.bytes.length + 1 ≤ s.utop) (hd : Apart slot 4 (s.ktop - (c.bytes.length + 1)) (c.bytes.length + 1)) :
    Pushed s (s.pushString slot c) slot [c] := by
  unfold Apart at hd
  have hlen : (layout [c]).length = c.bytes.length + 1 := by simp [layout]
  refine ⟨?_, ?_, ?_, ?_, fun i hi hs => ?_⟩
  · rw [hlen]
    exact Nat.sub_add_cancel hk
  · rw [hlen]
    exact Nat.sub_add_cancel hu
  · simp only [layout, List.flatMap_cons, List.flatMap_nil, List.append_nil]
    exact ByteMem.holds_put.put_frame (by rw [CString.length_stored, ByteMem.length_wordBytes]; exact hd.symm)
  · simp only [pointersFrom, List.flatMap_cons, List.flatMap_nil, List.append_nil]
    exact ByteMem.holds_put
  · simp only [ArgCopy.pushString] at hi ⊢
    rw [ByteMem.put_of_outside (by simpa using hs), ByteMem.put_of_outside (by rw [CString.length_stored]; omega)]

theorem Pushed.cons {s s₁ s₂ : ArgCopy} {slot : ℕ} {c : CString} {strings : List CString}
    (h : Pushed s s₁ (slot + 4) strings) (hc : Pushed s₁ s₂ slot [c])
    (hd : Apart slot (4 * (strings.length + 1)) s₂.ktop (s.ktop - s₂.ktop)) : Pushed s s₂ slot (c :: strings) := by
  unfold Apart at hd
  have hlen : (layout [c]).length = c.bytes.length + 1 := by simp [layout]
  have hk₁ := h.ktop
  have hu₁ := h.utop
  have hk₂ := hc.ktop
  have hu₂ := hc.utop
  rw [hlen] at hk₂ hu₂
  have hut : s₂.utop + c.stored.length = s₁.utop := by rw [CString.length_stored]; omega
  refine ⟨?_, ?_, ?_, ?_, fun i hi hs => ?_⟩
  · rw [length_layout_cons]
    omega
  · rw [length_layout_cons]
    omega
  · rw [layout_cons, ByteMem.holds_append, CString.length_stored]
    refine ⟨by simpa [layout] using hc.stack, ?_⟩
    rw [show s₂.ktop + (c.bytes.length + 1) = s₁.ktop by omega]
    exact h.stack.congr fun i hl hr => hc.frame i (Or.inr hl) (by simp only [List.length_singleton]; omega)
  · rw [pointersFrom, hut, List.flatMap_cons, ByteMem.holds_append, ByteMem.length_wordBytes]
    refine ⟨by simpa [pointersFrom] using hc.slots, h.slots.congr fun i hl hr => ?_⟩
    rw [length_flatMap_wordBytes, length_pointersFrom] at hr
    exact hc.frame i (by omega) (by simp only [List.length_singleton]; omega)
  · rw [List.length_cons] at hs
    rw [hc.frame i (by omega) (by simp only [List.length_singleton]; omega), h.frame i (by omega) (by omega)]

theorem pushStrings_pushed {s : ArgCopy} {strings : List CString} :
    ∀ {slot : ℕ}, (layout strings).length ≤ s.ktop → (layout strings).length ≤ s.utop →
      Apart slot (4 * strings.length) (s.ktop - (layout strings).length) (layout strings).length →
      Pushed s (s.pushStrings slot strings) slot strings := by
  induction strings with
  | nil =>
    intro slot _ _ _
    exact ⟨rfl, rfl, ByteMem.holds_nil, ByteMem.holds_nil, fun _ _ _ => rfl⟩
  | cons c strings ih =>
    intro slot hk hu hd
    rw [length_layout_cons] at hk hu hd
    rw [List.length_cons] at hd
    unfold Apart at hd
    have h := @ih (slot + 4) (by omega) (by omega) (by unfold Apart; omega)
    have hktop := h.ktop
    have hutop := h.utop
    have hc : Pushed _ ((s.pushStrings (slot + 4) strings).pushString slot c) slot [c] :=
      pushString_pushed (by omega) (by omega) (by unfold Apart; omega)
    refine h.cons hc ?_
    show Apart _ _ ((s.pushStrings (slot + 4) strings).ktop - (c.bytes.length + 1))
      (s.ktop - ((s.pushStrings (slot + 4) strings).ktop - (c.bytes.length + 1)))
    unfold Apart
    omega

theorem pointersFrom_ne_zero {strings : List CString} :
    ∀ {addr : ℕ}, 0 < addr → addr + (layout strings).length ≤ USER_STACK_TOP.toNat →
      ∀ p ∈ pointersFrom addr strings, p ≠ 0 := by
  have htop : USER_STACK_TOP.toNat = 0x10000000 := rfl
  induction strings with
  | nil => exact fun _ _ p hp => absurd hp List.not_mem_nil
  | cons c strings ih =>
    intro addr h0 h
    rw [length_layout_cons] at h
    rw [pointersFrom, List.forall_mem_cons, CString.length_stored]
    refine ⟨fun hz => ?_, ih (by omega) (by omega)⟩
    have hn := congrArg UInt32.toNat hz
    rw [UInt32.toNat_ofNat', Nat.mod_eq_of_lt (by omega)] at hn
    exact absurd hn (by simpa using h0.ne')

/-- The pointers lead to the strings that were laid out. -/
theorem pointersFrom_pointsTo {m : ByteMem} {sp : ℕ} {strings : List CString} :
    ∀ {addr : ℕ}, sp ≤ addr → m.Holds addr (layout strings) →
      addr + (layout strings).length ≤ USER_STACK_TOP.toNat →
      List.Forall₂ (PointsTo m sp) (pointersFrom addr strings) strings := by
  have htop : USER_STACK_TOP.toNat = 0x10000000 := rfl
  induction strings with
  | nil => exact fun _ _ _ => .nil
  | cons c strings ih =>
    intro addr hsp hm h
    rw [length_layout_cons] at h
    rw [layout_cons, ByteMem.holds_append] at hm
    have haddr : (UInt32.ofNat addr).toNat = addr := by
      rw [UInt32.toNat_ofNat', Nat.mod_eq_of_lt (by omega)]
    refine .cons ⟨?_, ?_, ?_⟩ (ih ?_ hm.2 ?_)
    · rwa [haddr]
    · rw [haddr, CString.length_stored]
      omega
    · rw [haddr, CString.length_stored]
      exact stringAt_stored c.terminated hm.1
    · omega
    · rw [CString.length_stored]
      omega

/-! ### The image -/

/-- A table of pointers to the strings from `addr` on. -/
def table (addr : ℕ) (strings : List CString) : List UInt8 :=
  (pointersFrom addr strings).flatMap ByteMem.wordBytes ++ ByteMem.wordBytes 0

@[simp] theorem length_table (addr : ℕ) (strings : List CString) :
    (table addr strings).length = 4 * (strings.length + 1) := by
  simp [table]
  omega

/-- The bytes it takes to pass `argv` and `envp`. -/
def imageSize (argv envp : List CString) : ℕ :=
  4 + 4 * (argv.length + 1) + 4 * (envp.length + 1) + (layout argv).length + (layout envp).length

/-- The image for `argv` and `envp`: the count, the two tables and the strings. -/
def image (argv envp : List CString) : List UInt8 :=
  let envAt := USER_STACK_TOP.toNat - (layout envp).length
  ByteMem.wordBytes (.ofNat argv.length) ++ (table (envAt - (layout argv).length) argv ++
    (table envAt envp ++ (layout argv ++ layout envp)))

theorem length_image (argv envp : List CString) : (image argv envp).length = imageSize argv envp := by
  simp [image, imageSize]
  omega

/-- Where it lies below the top of the stack, the image is what the decoder expects. -/
theorem image_mainSees {m : ByteMem} {sp : ℕ} {argv envp : List CString} (hm : m.Holds sp (image argv envp))
    (hsp : sp + imageSize argv envp = USER_STACK_TOP.toNat) (h0 : 0 < sp) : MainSees m sp argv envp := by
  have htop : USER_STACK_TOP.toNat = 0x10000000 := rfl
  unfold imageSize at hsp
  have hcount : (UInt32.ofNat argv.length).toNat = argv.length := by
    rw [UInt32.toNat_ofNat', Nat.mod_eq_of_lt (by omega)]
  simp only [image, ByteMem.holds_append, length_table, ByteMem.length_wordBytes] at hm
  obtain ⟨hargc, hargv, henvp, hargs, henvs⟩ := hm
  have hload : m.load32 sp = .ofNat argv.length := hargc.load
  have hargsAt : sp + 4 + 4 * (argv.length + 1) + 4 * (envp.length + 1) =
      USER_STACK_TOP.toNat - (layout envp).length - (layout argv).length := by omega
  have henvsAt : sp + 4 + 4 * (argv.length + 1) + 4 * (envp.length + 1) + (layout argv).length =
      USER_STACK_TOP.toNat - (layout envp).length := by omega
  rw [hargsAt] at hargs
  rw [henvsAt] at henvs
  unfold MainSees libcStart
  simp only [hload, hcount]
  refine ⟨trivial, ⟨_, ?_, pointersFrom_pointsTo (by omega) hargs (by omega)⟩,
    ⟨_, ?_, pointersFrom_pointsTo (by omega) henvs (by omega)⟩⟩
  · have h := pointersAt_table (pointersFrom_ne_zero (by omega) (by omega)) hargv
    rwa [length_pointersFrom] at h
  · have h := pointersAt_table (pointersFrom_ne_zero (by omega) (by omega)) henvp
    rwa [length_pointersFrom] at h

theorem pushCopy_holds {s : ArgCopy} {src : ℕ} (len : ℕ) {xs stack : List UInt8} (h : s.mem.Holds s.ktop stack)
    (hsrc : s.mem.Holds src xs) (hlen : len = xs.length) (hk : len ≤ s.ktop) :
    (s.pushCopy src len).mem.Holds (s.pushCopy src len).ktop (xs ++ stack) := by
  rw [ByteMem.holds_append, ← hlen]
  refine ⟨hsrc.copied hlen, ?_⟩
  simp only [ArgCopy.pushCopy]
  rw [Nat.sub_add_cancel hk]
  exact h.copy_frame (by omega)

theorem pushWord_holds {s : ArgCopy} {w : UInt32} {stack : List UInt8} (h : s.mem.Holds s.ktop stack)
    (hk : 4 ≤ s.ktop) : (s.pushWord w).mem.Holds (s.pushWord w).ktop (ByteMem.wordBytes w ++ stack) := by
  rw [ByteMem.holds_append, ByteMem.length_wordBytes]
  refine ⟨ByteMem.holds_put, ?_⟩
  simp only [ArgCopy.pushWord]
  rw [Nat.sub_add_cancel hk]
  exact h.put_frame (by rw [ByteMem.length_wordBytes]; omega)

theorem countArgv_eq (argv : Option (List CString)) : countArgv argv = (argv.getD []).length := by
  cases argv <;> rfl

/-- The pages of the kernel hold the image, with nothing between it and their end. -/
theorem kernelCopy_image (mem : ByteMem) {pages argvk : ℕ} (filename : CString) (argv envp : Option (List CString))
    (hd : Apart argvk 4096 pages (4 * 4096)) (hslots : countArgv argv + 1 + countArgv envp + 2 ≤ 1024)
    (hfit : imageSize (filename :: argv.getD []) (envp.getD []) ≤ 4 * 4096) :
    (kernelCopy mem pages argvk filename argv envp).ktop + imageSize (filename :: argv.getD []) (envp.getD []) =
        pages + 4 * 4096 ∧
      (kernelCopy mem pages argvk filename argv envp).mem.Holds (kernelCopy mem pages argvk filename argv envp).ktop
        (image (filename :: argv.getD []) (envp.getD [])) := by
  have htop : USER_STACK_TOP.toNat = 0x10000000 := rfl
  unfold imageSize at hfit ⊢
  simp only [kernelCopy, countArgv_eq] at hslots ⊢
  have hargc : (filename :: argv.getD []).length = (argv.getD []).length + 1 := rfl
  rw [← hargc] at hslots ⊢
  unfold Apart at hd
  generalize hE : envp.getD [] = E at hslots hfit ⊢
  have hpush : ∀ s : ArgCopy, (s.pushStrings (argvk + 4) (argv.getD [])).pushString argvk filename =
      s.pushStrings argvk (filename :: argv.getD []) := fun _ => rfl
  rw [hpush]
  generalize filename :: argv.getD [] = A at hslots hfit ⊢
  -- the terminators of the tables stay where they were put first
  generalize hm₁ : mem.put (argvk + 4 * A.length) (ByteMem.wordBytes 0) = m₁
  generalize hm₂ : m₁.put (argvk + 4 * (A.length + 1) + 4 * E.length) (ByteMem.wordBytes 0) = m₂
  have henvNull : m₂.Holds (argvk + 4 * (A.length + 1) + 4 * E.length) (ByteMem.wordBytes 0) := by
    rw [← hm₂]
    exact ByteMem.holds_put
  have hargNull : m₂.Holds (argvk + 4 * A.length) (ByteMem.wordBytes 0) := by
    rw [← hm₂, ← hm₁]
    exact ByteMem.holds_put.put_frame (by simp only [ByteMem.length_wordBytes]; omega)
  have h₁ : Pushed ⟨m₂, pages + 4 * 4096, USER_STACK_TOP.toNat⟩ _ (argvk + 4 * (A.length + 1)) E :=
    pushStrings_pushed (by simp only; omega) (by simp only; omega) (by unfold Apart; simp only; omega)
  generalize ArgCopy.pushStrings ⟨m₂, pages + 4 * 4096, USER_STACK_TOP.toNat⟩ (argvk + 4 * (A.length + 1)) E = s₁
    at h₁ ⊢
  have hk₁ := h₁.ktop
  have hu₁ := h₁.utop
  simp only at hk₁ hu₁
  have h₂ : Pushed s₁ _ argvk A := pushStrings_pushed (by omega) (by omega) (by unfold Apart; omega)
  generalize s₁.pushStrings argvk A = s₂ at h₂ ⊢
  have hk₂ := h₂.ktop
  have hu₂ := h₂.utop
  have hargs : s₂.mem.Holds argvk (table s₂.utop A) := by
    rw [table, ByteMem.holds_append, length_flatMap_wordBytes, length_pointersFrom]
    refine ⟨h₂.slots, hargNull.congr fun i hl hr => ?_⟩
    rw [ByteMem.length_wordBytes] at hr
    rw [h₂.frame i (by omega) (by omega), h₁.frame i (by simp only; omega) (by omega)]
  have henvs : s₂.mem.Holds (argvk + 4 * (A.length + 1)) (table s₁.utop E) := by
    rw [table, ByteMem.holds_append, length_flatMap_wordBytes, length_pointersFrom]
    refine ⟨h₁.slots.congr fun i hl hr => ?_, henvNull.congr fun i hl hr => ?_⟩
    · rw [length_flatMap_wordBytes, length_pointersFrom] at hr
      exact h₂.frame i (by omega) (by omega)
    · rw [ByteMem.length_wordBytes] at hr
      rw [h₂.frame i (by omega) (by omega), h₁.frame i (by simp only; omega) (by omega)]
  have hstack : s₂.mem.Holds s₂.ktop (layout A ++ layout E) := by
    rw [ByteMem.holds_append, hk₂]
    exact ⟨h₂.stack, h₁.stack.congr fun i hl hr => h₂.frame i (by omega) (by omega)⟩
  -- the copies of the tables go below the strings
  have h₃ := pushCopy_holds ((E.length + 1) * 4) hstack henvs (by rw [length_table]; omega) (by omega)
  have hargs₃ : (s₂.pushCopy (argvk + 4 * (A.length + 1)) ((E.length + 1) * 4)).mem.Holds argvk (table s₂.utop A) :=
    hargs.copy_frame (by rw [length_table]; omega)
  have hk₃ : (s₂.pushCopy (argvk + 4 * (A.length + 1)) ((E.length + 1) * 4)).ktop = s₂.ktop - (E.length + 1) * 4 := rfl
  generalize s₂.pushCopy (argvk + 4 * (A.length + 1)) ((E.length + 1) * 4) = s₃ at h₃ hargs₃ hk₃ ⊢
  have h₄ := pushCopy_holds ((A.length + 1) * 4) h₃ hargs₃ (by rw [length_table]; omega) (by omega)
  have hk₄ : (s₃.pushCopy argvk ((A.length + 1) * 4)).ktop = s₃.ktop - (A.length + 1) * 4 := rfl
  generalize s₃.pushCopy argvk ((A.length + 1) * 4) = s₄ at h₄ hk₄ ⊢
  have h₅ := pushWord_holds (w := .ofNat A.length) h₄ (by omega)
  refine ⟨?_, ?_⟩
  · show s₄.ktop - 4 + _ = _
    omega
  · have henvAt : s₁.utop = USER_STACK_TOP.toNat - (layout E).length := by omega
    have hargAt : s₂.utop = USER_STACK_TOP.toNat - (layout E).length - (layout A).length := by omega
    rw [henvAt, hargAt] at h₅
    exact h₅

/-- `main` of the new program is called with the arguments, and they all lie in the image. -/
def ArgsFound (kernel : Memory) (mem : ByteMem) (filename : CString) (argv envp : Option (List CString)) : Prop :=
  ∃ sp kernel' mem', copyArgvEnvp kernel mem filename argv envp = .ok (sp, kernel', mem') ∧
    sp + imageSize (filename :: argv.getD []) (envp.getD []) = USER_STACK_TOP.toNat ∧
    MainSees mem' sp (filename :: argv.getD []) (envp.getD [])

/-- The page of the pointers is none of the four pages, and all of them can be given back. -/
theorem allocKpage_twice {kernel k₁ k₂ : Memory} {pages argvk : ℕ} (hp : kernel.allocKpage 4 = .ok (pages, k₁))
    (ha : k₁.allocKpage 1 = .ok (argvk, k₂)) :
    Apart (argvk * 4096) 4096 (pages * 4096) (4 * 4096) ∧
      ∃ k₃ k₄, k₂.freeKpage argvk 1 = .ok k₃ ∧ k₃.freeKpage pages 4 = .ok k₄ := by
  obtain ⟨-, hal₁, -⟩ := (Memory.allocKpage_spec kernel 4).result _ hp
  obtain ⟨-, hal₂, -⟩ := (Memory.allocKpage_spec k₁ 1).result _ ha
  dsimp only at hal₁ hal₂
  have hmarked₁ : ∀ i, pages ≤ i → i < pages + 4 → k₁.kernelMap.marked i = true := by
    intro i hl hr
    rw [hal₁.marked i (hal₁.clear i hl hr).1.1, decide_eq_true ⟨hl, hr⟩, Bool.true_or]
  have hne : argvk + 1 ≤ pages ∨ pages + 4 ≤ argvk := by
    by_contra hin
    have hclear := (hal₂.clear argvk le_rfl (by omega)).2
    rw [hmarked₁ argvk (by omega) (by omega)] at hclear
    cases hclear
  have hcov : ∀ {map map' : Bitmap} {i : ℕ}, map'.length = map.length → map'.offset = map.offset →
      map.covers i → map'.covers i := by
    intro map map' i hlen hoff hc
    unfold Bitmap.covers at hc ⊢
    rwa [hlen, hoff]
  have hfree₁ : ∀ i, argvk ≤ i → i < argvk + 1 → k₂.kernelMap.covers i ∧ k₂.kernelMap.marked i = true := by
    intro i hl hr
    have hc := (hal₂.clear i hl hr).1
    refine ⟨hcov hal₂.length hal₂.offset hc, ?_⟩
    rw [hal₂.marked i hc.1, decide_eq_true ⟨hl, hr⟩, Bool.true_or]
  obtain ⟨k₃, hk₃, hrel, -⟩ := (Memory.freeKpage_spec Nat.one_pos hfree₁ fun _ => True).returns
  have hfree₂ : ∀ i, pages ≤ i → i < pages + 4 → k₃.kernelMap.covers i ∧ k₃.kernelMap.marked i = true := by
    intro i hl hr
    have hc₁ := hcov hal₁.length hal₁.offset (hal₁.clear i hl hr).1
    have hc₂ := hcov hal₂.length hal₂.offset hc₁
    refine ⟨hcov hrel.length hrel.offset hc₂, ?_⟩
    rw [hrel.marked i hc₂.1, hal₂.marked i hc₁.1, hmarked₁ i hl hr, Bool.or_true,
      decide_eq_false (by omega), Bool.not_false, Bool.true_and]
  obtain ⟨k₄, hk₄, -⟩ := (Memory.freeKpage_spec (by decide) hfree₂ fun _ => True).returns
  refine ⟨?_, k₃, k₄, hk₃, hk₄⟩
  unfold Apart
  omega

/-- Arguments that fit the four pages are found by the program, unless they fill them: the assertion
takes the last byte for an overflow. -/
theorem argv_round_trip {kernel k₁ k₂ : Memory} {pages argvk : ℕ} (hp : kernel.allocKpage 4 = .ok (pages, k₁))
    (ha : k₁.allocKpage 1 = .ok (argvk, k₂)) (mem : ByteMem) {filename : CString} {argv envp : Option (List CString)}
    (hslots : countArgv argv + 1 + countArgv envp + 2 ≤ 1024)
    (hfit : imageSize (filename :: argv.getD []) (envp.getD []) ≤ 4 * 4096) :
    ArgsFound kernel mem filename argv envp ↔ imageSize (filename :: argv.getD []) (envp.getD []) ≠ 4 * 4096 := by
  have htop : USER_STACK_TOP.toNat = 0x10000000 := rfl
  obtain ⟨hd, k₃, k₄, hk₃, hk₄⟩ := allocKpage_twice hp ha
  obtain ⟨hktop, himage⟩ := kernelCopy_image mem _ _ _ hd hslots hfit
  unfold ArgsFound copyArgvEnvp
  simp only [hp, ha, ok_bind, hk₃, hk₄]
  generalize kernelCopy mem (pages * 4096) (argvk * 4096) filename argv envp = s at hktop himage
  generalize filename :: argv.getD [] = A at *
  generalize envp.getD [] = E at *
  constructor
  · rintro ⟨sp, kernel', mem', hok, -⟩ hfull
    rw [decide_eq_false (by omega)] at hok
    cases hok
  · intro hne
    rw [decide_eq_true (by omega)]
    have hsize : pages * 4096 + 4 * 4096 - s.ktop = imageSize A E := by omega
    refine ⟨_, _, _, rfl, ?_, ?_⟩
    · rw [hsize]
      omega
    · rw [hsize]
      refine image_mainSees (himage.copied (length_image A E).symm) (by omega) (by omega)

/-- After four pages there is still a fifth one. -/
theorem smallPages_twice : ∃ pages k₁ argvk k₂, KernelPages.smallPages.mem.allocKpage 4 = .ok (pages, k₁) ∧
    k₁.allocKpage 1 = .ok (argvk, k₂) := by
  have hpages : KERNEL_PAGES = 4096 := rfl
  obtain ⟨pages, k₁, hp⟩ := KernelPages.smallPages_alloc (show 0 < 4 by decide) (by decide)
  obtain ⟨-, hal, -⟩ := (Memory.allocKpage_spec _ 4).result _ hp
  dsimp only at hal
  obtain ⟨i, hlo, hhi, hout⟩ : ∃ i, 258 ≤ i ∧ i < KERNEL_PAGES ∧ ¬ (pages ≤ i ∧ i < pages + 4) := by
    by_cases h : pages ≤ 300
    · exact ⟨4000, by omega, by omega, by omega⟩
    · exact ⟨300, by omega, by omega, by omega⟩
  obtain ⟨hcov, hclear⟩ := KernelPages.smallPages_clear hlo hhi
  have hfree : ∀ j, i ≤ j → j < i + 1 → k₁.kernelMap.covers j ∧ k₁.kernelMap.marked j = false := by
    intro j hl hr
    obtain rfl : j = i := by omega
    refine ⟨?_, ?_⟩
    · unfold Bitmap.covers at hcov ⊢
      rwa [hal.length, hal.offset]
    · rw [hal.marked j hcov.1, hclear, decide_eq_false hout, Bool.or_false]
  obtain ⟨argvk, map, hs, -⟩ := Bitmap.bitmapScan_le Nat.one_pos hfree
  refine ⟨pages, k₁, argvk, { k₁ with kernelMap := map }, hp, ?_⟩
  unfold Memory.allocKpage Memory.scanPage
  simp only [Nat.one_pos, gt_iff_lt, decide_true, assert_true, ok_bind, hs]

/-- "/bin/echo" -/
def echoPath : CString := ⟨[47, 98, 105, 110, 47, 101, 99, 104, 111], by decide⟩

/-- "hello" -/
def helloArg : CString := ⟨[104, 101, 108, 108, 111], by decide⟩

theorem argv_round_trip_echo :
    ArgsFound KernelPages.smallPages.mem (fun _ => 0) echoPath (some [helloArg]) none := by
  obtain ⟨pages, k₁, argvk, k₂, hp, ha⟩ := smallPages_twice
  exact (argv_round_trip hp ha (fun _ => 0) (by decide) (by decide)).mpr (by decide)

def filler (n : ℕ) : CString := ⟨List.replicate n 120, fun h => absurd (List.eq_of_mem_replicate h) (by decide)⟩

theorem length_filler (n : ℕ) : (filler n).bytes.length = n := List.length_replicate

/-- One argument can leave no byte of the four pages. -/
theorem imageSize_full {n : ℕ} (hn : n = 16353) : imageSize [echoPath, filler n] [] = 4 * 4096 := by
  have hpath : echoPath.bytes.length = 9 := rfl
  simp [imageSize, layout, hpath, length_filler, hn]

theorem argv_fills_pages : ¬ ∀ (kernel k₁ k₂ : Memory) (pages argvk : ℕ), kernel.allocKpage 4 = .ok (pages, k₁) →
    k₁.allocKpage 1 = .ok (argvk, k₂) → ∀ (mem : ByteMem) (filename : CString) (argv envp : Option (List CString)),
    countArgv argv + 1 + countArgv envp + 2 ≤ 1024 →
    imageSize (filename :: argv.getD []) (envp.getD []) ≤ 4 * 4096 → ArgsFound kernel mem filename argv envp := by
  intro h
  obtain ⟨pages, k₁, argvk, k₂, hp, ha⟩ := smallPages_twice
  obtain ⟨n, hn⟩ : ∃ n, n = 16353 := ⟨_, rfl⟩
  have hfull := imageSize_full hn
  have hslots : countArgv (some [filler n]) + 1 + countArgv none + 2 ≤ 1024 := by simp [countArgv]
  obtain ⟨hd, -⟩ := allocKpage_twice hp ha
  obtain ⟨hktop, -⟩ := kernelCopy_image (fun _ => 0) echoPath (some [filler n]) none hd hslots hfull.le
  obtain ⟨sp, kernel', mem', hok, -⟩ := h _ _ _ _ _ hp ha (fun _ => 0) echoPath (some [filler n]) none hslots hfull.le
  unfold copyArgvEnvp at hok
  simp only [hp, ha, ok_bind] at hok
  rw [decide_eq_false (by simp only [Option.getD_some, Option.getD_none] at hktop; omega)] at hok
  cases hok

end Onix
