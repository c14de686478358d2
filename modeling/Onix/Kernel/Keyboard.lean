import Onix.Kernel.Serial

/-! The decoder in `keyboard_handler` of keyboard.c, a state machine over scan codes that
keeps two flags for each key and three locks, and the text it makes of the scan codes, told
by the keys that went down and up before. -/

set_option autoImplicit false

namespace Onix

open Lib

def INV : UInt8 := 0
def CODE_PRINT_SCREEN_DOWN : UInt8 := 0xB7
def KEY_SHIFT_L : UInt8 := 0x2A
def KEY_SLASH : UInt8 := 0x35
def KEY_SHIFT_R : UInt8 := 0x36
def KEY_CAPSLOCK : UInt8 := 0x3A
def KEY_NUMLOCK : UInt8 := 0x45
def KEY_SCRLOCK : UInt8 := 0x46
def KEY_PRINT_SCREEN : UInt8 := 0x5F

/-- The first two columns of `keymap`: the characters of each key, without and with shift. -/
def keymap : List (UInt8 × UInt8) :=
  -- none, escape, the digits, backspace, tab
  [(INV, INV), (0x1b, 0x1b), (49, 33), (50, 64), (51, 35), (52, 36), (53, 37), (54, 94), (55, 38), (56, 42),
    (57, 40), (48, 41), (45, 95), (61, 43), (8, 8), (9, 9),
    -- q to ], enter, left control
    (113, 81), (119, 87), (101, 69), (114, 82), (116, 84), (121, 89), (117, 85), (105, 73), (111, 79), (112, 80),
    (91, 123), (93, 125), (10, 10), (INV, INV),
    -- a to backquote, left shift, backslash
    (97, 65), (115, 83), (100, 68), (102, 70), (103, 71), (104, 72), (106, 74), (107, 75), (108, 76), (59, 58),
    (39, 34), (96, 126), (INV, INV), (92, 124),
    -- z to slash, right shift
    (122, 90), (120, 88), (99, 67), (118, 86), (98, 66), (110, 78), (109, 77), (44, 60), (46, 62), (47, 63), (INV, INV),
    -- star of the pad, alt, space, caps lock, F1 to F10, num lock, scroll lock
    (42, 42), (INV, INV), (32, 32), (INV, INV), (INV, INV), (INV, INV), (INV, INV), (INV, INV), (INV, INV), (INV, INV),
    (INV, INV), (INV, INV), (INV, INV), (INV, INV), (INV, INV), (INV, INV),
    -- the pad
    (55, INV), (56, INV), (57, INV), (45, 45), (52, INV), (53, INV), (54, INV), (43, 43), (49, INV), (50, INV),
    (51, INV), (48, INV), (46, 0x7f),
    -- F11 and F12 among them, the last is print screen
    (INV, INV), (INV, INV), (INV, INV), (INV, INV), (INV, INV), (INV, INV), (INV, INV), (INV, INV), (INV, INV),
    (INV, INV), (INV, INV), (INV, INV)]

/-- The entry of a key; the array has one for every code up to `KEY_PRINT_SCREEN`. -/
def keymapAt (makecode : UInt8) : UInt8 × UInt8 := keymap.getD makecode.toNat (INV, INV)

/-- The state of the decoder; `pressed` is the third column of `keymap`, or for the extended codes the fourth. -/
structure Keys where
  pressed : Bool → UInt8 → Bool
  capslock : Bool
  scrlock : Bool
  numlock : Bool
  extcode : Bool

namespace Keys

def init : Keys := ⟨fun _ _ => false, false, false, false, false⟩

def shiftState (k : Keys) : Bool := k.pressed false KEY_SHIFT_L || k.pressed false KEY_SHIFT_R

def setPressed (k : Keys) (ext : Bool) (makecode : UInt8) (down : Bool) : Keys :=
  { k with pressed := Function.update k.pressed ext (Function.update (k.pressed ext) makecode down) }

/-- The lights, as `set_led` sends them. -/
def leds (k : Keys) : UInt8 := (k.capslock.toUInt8 <<< 2) ||| (k.numlock.toUInt8 <<< 1) ||| k.scrlock.toUInt8

/-- Num lock, caps lock and scroll lock change at each make code, and then the lights are set. -/
def lockKey (k : Keys) (makecode : UInt8) : Keys × Bool :=
  if makecode = KEY_NUMLOCK then ({ k with numlock := !k.numlock }, true)
  else if makecode = KEY_CAPSLOCK then ({ k with capslock := !k.capslock }, true)
  else if makecode = KEY_SCRLOCK then ({ k with scrlock := !k.scrlock }, true)
  else (k, false)

/-- The character of a key that went down. -/
def charOf (k : Keys) (ext : Bool) (makecode : UInt8) : UInt8 :=
  let entry := keymapAt makecode
  if ext && makecode ≠ KEY_SLASH then entry.2
  else
    let shift := (k.capslock && (97 ≤ entry.1 && entry.1 ≤ 122)) || k.shiftState
    if shift then entry.2 else entry.1

/-- `keyboard_handler` on one scan code: the new state, the lights it sent and the character it puts in the queue. -/
def decode (k : Keys) (scancode : UInt8) : Keys × Option UInt8 × Option UInt8 :=
  if scancode = 0xe0 then ({ k with extcode := true }, none, none)
  else
    let ext := k.extcode
    let k := { k with extcode := false }
    let makecode := scancode &&& 0x7f
    let makecode := if makecode = CODE_PRINT_SCREEN_DOWN then KEY_PRINT_SCREEN else makecode
    if KEY_PRINT_SCREEN < makecode then (k, none, none)
    else if scancode &&& 0x80 ≠ 0 then (k.setPressed ext makecode false, none, none)
    else
      let (k, led) := (k.setPressed ext makecode true).lockKey makecode
      let lights := if led then some k.leds else none
      let ch := k.charOf ext makecode
      if ch = INV then (k, lights, none) else (k, lights, some ch)

/-- The scan codes of a run, and what came out of them: the state, the last lights and the text. -/
def typed (bs : List UInt8) : Keys × Option UInt8 × List UInt8 :=
  bs.foldl (fun r b => let d := r.1.decode b; (d.1, d.2.1.or r.2.1, r.2.2 ++ d.2.2.toList)) (init, none, [])

/-! ### Keys that go down and up -/

/-- A key that goes down or up; the extended codes are keys of their own. -/
structure Stroke where
  ext : Bool
  code : UInt8
  make : Bool
  deriving DecidableEq, Repr

/-- A byte 0xe0 says that the next other byte is an extended code. -/
def strokes : Bool → List UInt8 → List Stroke
  | _, [] => []
  | ext, b :: bs =>
    if b = 0xe0 then strokes true bs else ⟨ext, b &&& 0x7f, b &&& 0x80 = 0⟩ :: strokes false bs

/-- The codes that have an entry in `keymap`. -/
def Stroke.known (e : Stroke) : Bool := e.code ≤ KEY_PRINT_SCREEN

/-- A key is down when it went down last. -/
def isDown (es : List Stroke) (ext : Bool) (code : UInt8) : Bool :=
  match (es.filter fun e => e.ext = ext ∧ e.code = code).getLast? with
  | some e => e.make
  | none => false

/-- A lock is on when its key went down an odd number of times, an extended one included. -/
def isOn (es : List Stroke) (code : UInt8) : Bool := (es.countP fun e => e.code = code ∧ e.make) % 2 = 1

/-- What the last of the strokes types. Caps lock is for letters, and shift does not undo it. -/
def spell (es : List Stroke) : Option UInt8 :=
  match es.getLast? with
  | none => none
  | some e =>
    if e.make && e.known then
      let plain := (keymapAt e.code).1
      let caps := isOn es KEY_CAPSLOCK && (97 ≤ plain && plain ≤ 122)
      let shift := isDown es false KEY_SHIFT_L || isDown es false KEY_SHIFT_R
      let ch := if (e.ext && e.code ≠ KEY_SLASH) || caps || shift then (keymapAt e.code).2 else plain
      if ch = INV then none else some ch
    else none

/-! ### The decoder is its history -/

/-- Whether an extended code is announced after the scan codes. -/
def announced (ext : Bool) (bs : List UInt8) : Bool := bs.foldl (fun _ b => decide (b = 0xe0)) ext

theorem announced_snoc (ext : Bool) (bs : List UInt8) (b : UInt8) : announced ext (bs ++ [b]) = decide (b = 0xe0) := by
  simp only [announced, List.foldl_append, List.foldl_cons, List.foldl_nil]

theorem strokes_snoc (bs : List UInt8) (ext : Bool) (b : UInt8) : strokes ext (bs ++ [b]) =
    strokes ext bs ++ if b = 0xe0 then [] else [⟨announced ext bs, b &&& 0x7f, b &&& 0x80 = 0⟩] := by
  induction bs generalizing ext with
  | nil =>
    simp only [List.nil_append, strokes, announced, List.foldl_nil]
  | cons c bs ih =>
    simp only [List.cons_append, strokes, announced, List.foldl_cons]
    by_cases hc : c = 0xe0
    · rw [if_pos hc, if_pos hc, ih, hc]
      rfl
    · rw [if_neg hc, if_neg hc, ih, List.cons_append, decide_eq_false hc]
      rfl

theorem isDown_snoc (es : List Stroke) (e : Stroke) (ext : Bool) (code : UInt8) :
    isDown (es ++ [e]) ext code = if e.ext = ext ∧ e.code = code then e.make else isDown es ext code := by
  unfold isDown
  rw [List.filter_append, List.filter_singleton]
  by_cases h : e.ext = ext ∧ e.code = code
  · rw [if_pos h, decide_eq_true h, cond_true, List.getLast?_concat]
  · rw [if_neg h, decide_eq_false h, cond_false, List.append_nil]

theorem isOn_snoc (es : List Stroke) (e : Stroke) (code : UInt8) :
    isOn (es ++ [e]) code = if e.code = code ∧ e.make then !isOn es code else isOn es code := by
  unfold isOn
  rw [List.countP_append, List.countP_singleton]
  by_cases h : e.code = code ∧ e.make = true
  · rw [if_pos h, if_pos (decide_eq_true h), ← decide_not]
    exact decide_eq_decide.mpr (by omega)
  · rw [if_neg h, if_neg (by simpa using h), Nat.add_zero]

/-- The decoder after the strokes `es`. -/
structure Follows (k : Keys) (es : List Stroke) : Prop where
  pressed : ∀ ext code, code ≤ KEY_PRINT_SCREEN → k.pressed ext code = isDown es ext code
  capslock : k.capslock = isOn es KEY_CAPSLOCK
  scrlock : k.scrlock = isOn es KEY_SCRLOCK
  numlock : k.numlock = isOn es KEY_NUMLOCK

variable {k : Keys} {es : List Stroke}

theorem Follows.shift (h : Follows k es) : k.shiftState = (isDown es false KEY_SHIFT_L || isDown es false KEY_SHIFT_R) := by
  unfold shiftState
  rw [h.pressed _ _ (by decide), h.pressed _ _ (by decide)]

theorem Follows.char (h : Follows k es) (e : Stroke) : k.charOf e.ext e.code =
    if (e.ext && e.code ≠ KEY_SLASH) || (isOn es KEY_CAPSLOCK && (97 ≤ (keymapAt e.code).1 && (keymapAt e.code).1 ≤ 122)) ||
      (isDown es false KEY_SHIFT_L || isDown es false KEY_SHIFT_R) then (keymapAt e.code).2 else (keymapAt e.code).1 := by
  unfold charOf
  rw [h.shift, h.capslock]
  dsimp only
  cases e.ext && decide (e.code ≠ KEY_SLASH) with
  | true => rfl
  | false => rw [Bool.false_or, if_neg Bool.false_ne_true]

theorem setPressed_pressed (k : Keys) (ext : Bool) (code : UInt8) (down : Bool) (ext' : Bool) (code' : UInt8) :
    (k.setPressed ext code down).pressed ext' code' = if ext = ext' ∧ code = code' then down else k.pressed ext' code' := by
  unfold setPressed
  dsimp only
  by_cases he : ext' = ext
  · subst he
    rw [Function.update_self]
    by_cases hc : code' = code
    · rw [hc, Function.update_self, if_pos ⟨rfl, rfl⟩]
    · rw [Function.update_of_ne hc, if_neg fun h => hc h.2.symm]
  · rw [Function.update_of_ne he, if_neg fun h => he h.1.symm]

theorem lockKey_eq (k : Keys) (code : UInt8) : (k.lockKey code).1 =
    { k with capslock := if code = KEY_CAPSLOCK then !k.capslock else k.capslock
             scrlock := if code = KEY_SCRLOCK then !k.scrlock else k.scrlock
             numlock := if code = KEY_NUMLOCK then !k.numlock else k.numlock } := by
  unfold lockKey
  split_ifs with h1 h2 h3
  all_goals simp_all [KEY_NUMLOCK, KEY_CAPSLOCK, KEY_SCRLOCK]

/-- The stroke that a scan code is after `k`. -/
def strokeOf (k : Keys) (b : UInt8) : Stroke := ⟨k.extcode, b &&& 0x7f, b &&& 0x80 = 0⟩

theorem makecode_eq (b : UInt8) :
    (if b &&& 0x7f = CODE_PRINT_SCREEN_DOWN then KEY_PRINT_SCREEN else b &&& 0x7f) = b &&& 0x7f := by
  refine if_neg fun h => ?_
  have hle : (b &&& 0x7f).toNat ≤ 0x7f := by
    rw [UInt8.toNat_and]
    exact Nat.and_le_right
  rw [h] at hle
  exact absurd hle (by decide)

theorem decode_announce (k : Keys) : k.decode 0xe0 = ({ k with extcode := true }, none, none) := rfl

/-- A key without an entry is ignored. -/
theorem decode_unknown {b : UInt8} (hb : b ≠ 0xe0) (h : (k.strokeOf b).known = false) :
    k.decode b = ({ k with extcode := false }, none, none) := by
  have hlt : KEY_PRINT_SCREEN < b &&& 0x7f := UInt8.not_le.mp (of_decide_eq_false h)
  unfold decode
  rw [if_neg hb]
  dsimp only
  rw [makecode_eq, if_pos hlt]

theorem decode_break {b : UInt8} (hb : b ≠ 0xe0) (h : (k.strokeOf b).known = true) (hm : (k.strokeOf b).make = false) :
    k.decode b = (({ k with extcode := false } : Keys).setPressed k.extcode (b &&& 0x7f) false, none, none) := by
  have hle : ¬ KEY_PRINT_SCREEN < b &&& 0x7f := UInt8.not_lt.mpr (of_decide_eq_true h)
  unfold decode
  rw [if_neg hb]
  dsimp only
  rw [makecode_eq, if_neg hle, if_pos (of_decide_eq_false hm)]

theorem decode_make {b : UInt8} (hb : b ≠ 0xe0) (h : (k.strokeOf b).known = true) (hm : (k.strokeOf b).make = true) :
    ∃ k', k' = ((({ k with extcode := false } : Keys).setPressed k.extcode (b &&& 0x7f) true).lockKey (b &&& 0x7f)).1 ∧
      (k.decode b).1 = k' ∧
      (k.decode b).2.1 = (if (({ k with extcode := false } : Keys).setPressed k.extcode (b &&& 0x7f) true).lockKey
        (b &&& 0x7f) |>.2 then some k'.leds else none) ∧
      (k.decode b).2.2 = if k'.charOf k.extcode (b &&& 0x7f) = INV then none else some (k'.charOf k.extcode (b &&& 0x7f)) := by
  have hle : ¬ KEY_PRINT_SCREEN < b &&& 0x7f := UInt8.not_lt.mpr (of_decide_eq_true h)
  have hzero : ¬ b &&& 0x80 ≠ 0 := fun hc => hc (of_decide_eq_true hm)
  refine ⟨_, rfl, ?_⟩
  unfold decode
  rw [if_neg hb]
  dsimp only
  rw [makecode_eq, if_neg hle, if_neg hzero]
  split_ifs <;> exact ⟨rfl, rfl, rfl⟩

theorem isOn_other {e : Stroke} {code : UInt8} (h : e.make = false ∨ e.code ≠ code) : isOn (es ++ [e]) code = isOn es code := by
  rw [isOn_snoc, if_neg]
  rintro ⟨h1, h2⟩
  rcases h with h | h
  · rw [h] at h2
    cases h2
  · exact h h1

theorem Follows.unknown (h : Follows k es) {e : Stroke} (he : e.known = false) (ext : Bool) :
    Follows { k with extcode := ext } (es ++ [e]) := by
  have hlt : KEY_PRINT_SCREEN < e.code := UInt8.not_le.mp (of_decide_eq_false he)
  have hne : ∀ code, code ≤ KEY_PRINT_SCREEN → e.code ≠ code := by
    rintro code hc rfl
    exact UInt8.not_le.mpr hlt hc
  refine ⟨fun ext code hc => ?_, ?_, ?_, ?_⟩
  · rw [isDown_snoc, if_neg fun hx => hne code hc hx.2]
    exact h.pressed ext code hc
  · rw [isOn_other (.inr (hne _ (by decide)))]
    exact h.capslock
  · rw [isOn_other (.inr (hne _ (by decide)))]
    exact h.scrlock
  · rw [isOn_other (.inr (hne _ (by decide)))]
    exact h.numlock

theorem Follows.up (h : Follows k es) {e : Stroke} (he : e.make = false) (ext : Bool) :
    Follows (({ k with extcode := ext } : Keys).setPressed e.ext e.code false) (es ++ [e]) := by
  refine ⟨fun ext code hc => ?_, ?_, ?_, ?_⟩
  · rw [isDown_snoc, setPressed_pressed, he]
    exact if_congr Iff.rfl rfl (h.pressed ext code hc)
  · rw [isOn_other (.inl he)]
    exact h.capslock
  · rw [isOn_other (.inl he)]
    exact h.scrlock
  · rw [isOn_other (.inl he)]
    exact h.numlock

theorem Follows.down (h : Follows k es) {e : Stroke} (he : e.make = true) (ext : Bool) :
    Follows ((({ k with extcode := ext } : Keys).setPressed e.ext e.code true).lockKey e.code).1 (es ++ [e]) := by
  rw [lockKey_eq]
  have hon : ∀ code, isOn (es ++ [e]) code = if e.code = code then !isOn es code else isOn es code := by
    intro code
    rw [isOn_snoc]
    exact if_congr (and_iff_left he) rfl rfl
  refine ⟨fun ext code hc => ?_, ?_, ?_, ?_⟩
  · rw [isDown_snoc, he]
    exact (setPressed_pressed ..).trans (if_congr Iff.rfl rfl (h.pressed ext code hc))
  · rw [hon, ← h.capslock]
    rfl
  · rw [hon, ← h.scrlock]
    rfl
  · rw [hon, ← h.numlock]
    rfl

theorem spell_snoc (es : List Stroke) (e : Stroke) (h : Follows k (es ++ [e])) (he : e.make = true) (hk : e.known = true) :
    spell (es ++ [e]) = if k.charOf e.ext e.code = INV then none else some (k.charOf e.ext e.code) := by
  unfold spell
  rw [List.getLast?_concat]
  dsimp only
  rw [he, hk, Bool.and_self, if_pos rfl, h.char e]

theorem spell_silent (es : List Stroke) {e : Stroke} (he : e.make = false ∨ e.known = false) : spell (es ++ [e]) = none := by
  unfold spell
  rw [List.getLast?_concat]
  dsimp only
  rcases he with he | he
  · rw [he, Bool.false_and, if_neg Bool.false_ne_true]
  · rw [he, Bool.and_false, if_neg Bool.false_ne_true]

theorem inits_snoc (es : List Stroke) (e : Stroke) :
    (es ++ [e]).inits.filterMap spell = es.inits.filterMap spell ++ (spell (es ++ [e])).toList := by
  rw [List.inits_append, List.filterMap_append]
  cases hs : spell (es ++ [e]) <;> simp [hs]

/-- The lights show the locks. -/
def Lit (k : Keys) (lights : Option UInt8) : Prop := lights.getD 0 = k.leds

theorem lit_lockKey {k : Keys} {lights : Option UInt8} (h : k.Lit lights) (code : UInt8) :
    (k.lockKey code).1.Lit ((if (k.lockKey code).2 then some (k.lockKey code).1.leds else none).or lights) := by
  unfold Lit lockKey
  by_cases h1 : code = KEY_NUMLOCK
  · rw [if_pos h1]
    rfl
  · rw [if_neg h1]
    by_cases h2 : code = KEY_CAPSLOCK
    · rw [if_pos h2]
      rfl
    · rw [if_neg h2]
      by_cases h3 : code = KEY_SCRLOCK
      · rw [if_pos h3]
        rfl
      · rw [if_neg h3]
        exact h

/-- What a decoder that has seen `bs` is and has put out. -/
structure Reads (bs : List UInt8) (r : Keys × Option UInt8 × List UInt8) : Prop where
  follows : Follows r.1 (strokes false bs)
  extcode : r.1.extcode = announced false bs
  lit : r.1.Lit r.2.1
  text : r.2.2 = (strokes false bs).inits.filterMap spell

theorem reads_step {bs : List UInt8} {r : Keys × Option UInt8 × List UInt8} (h : Reads bs r) (b : UInt8) :
    Reads (bs ++ [b]) ((r.1.decode b).1, (r.1.decode b).2.1.or r.2.1, r.2.2 ++ (r.1.decode b).2.2.toList) := by
  obtain ⟨k, lights, text⟩ := r
  obtain ⟨hfollows, hext, hlit, htext⟩ := h
  dsimp only at *
  by_cases hb : b = 0xe0
  · have hsame : strokes false (bs ++ [b]) = strokes false bs := by
      rw [strokes_snoc, if_pos hb, List.append_nil]
    subst hb
    rw [decode_announce]
    refine ⟨?_, (announced_snoc false bs 0xe0).symm, hlit, ?_⟩
    · rw [hsame]
      exact ⟨hfollows.pressed, hfollows.capslock, hfollows.scrlock, hfollows.numlock⟩
    · rw [hsame, ← htext]
      exact List.append_nil _
  · have hnew : strokes false (bs ++ [b]) = strokes false bs ++ [k.strokeOf b] := by
      rw [strokes_snoc, if_neg hb, ← hext]
      rfl
    have hpast : announced false (bs ++ [b]) = false := by
      rw [announced_snoc, decide_eq_false hb]
    cases hk : (k.strokeOf b).known with
    | false =>
      rw [decode_unknown hb hk]
      refine ⟨?_, hpast.symm, hlit, ?_⟩
      · rw [hnew]
        exact hfollows.unknown hk false
      · rw [hnew, inits_snoc, spell_silent _ (.inr hk), ← htext]
    | true =>
      cases hm : (k.strokeOf b).make with
      | false =>
        rw [decode_break hb hk hm]
        refine ⟨?_, hpast.symm, hlit, ?_⟩
        · rw [hnew]
          exact hfollows.up hm false
        · rw [hnew, inits_snoc, spell_silent _ (.inl hm), ← htext]
      | true =>
        obtain ⟨k', hk', h1, h2, h3⟩ := decode_make hb hk hm
        have hdown : Follows k' (strokes false bs ++ [k.strokeOf b]) := hk' ▸ hfollows.down hm false
        rw [h1, h2, h3]
        refine ⟨hnew ▸ hdown, ?_, ?_, ?_⟩
        · rw [hpast, hk', lockKey_eq]
          rfl
        · rw [hk']
          exact lit_lockKey (k := ({ k with extcode := false } : Keys).setPressed k.extcode (b &&& 0x7f) true) hlit _
        · rw [hnew, inits_snoc, spell_snoc _ _ hdown hm hk, ← htext]
          rfl

theorem typed_snoc (bs : List UInt8) (b : UInt8) : typed (bs ++ [b]) = (((typed bs).1.decode b).1,
    ((typed bs).1.decode b).2.1.or (typed bs).2.1, (typed bs).2.2 ++ ((typed bs).1.decode b).2.2.toList) := by
  simp only [typed, List.foldl_append, List.foldl_cons, List.foldl_nil]

theorem typed_reads (bs : List UInt8) : Reads bs (typed bs) := by
  induction bs using List.reverseRecOn with
  | nil => exact ⟨⟨fun _ _ _ => rfl, rfl, rfl, rfl⟩, rfl, rfl, rfl⟩
  | append_singleton bs b ih =>
    rw [typed_snoc]
    exact reads_step ih b

/-- After any scan codes the decoder is what the strokes say: a key is down when it went down last, a lock is on when its
key went down an odd number of times, the lights show the locks, and each stroke has put out the character it spells
after the strokes before it. -/
theorem keyboard_of_strokes (bs : List UInt8) :
    (∀ ext code, code ≤ KEY_PRINT_SCREEN → (typed bs).1.pressed ext code = isDown (strokes false bs) ext code) ∧
    (typed bs).1.capslock = isOn (strokes false bs) KEY_CAPSLOCK ∧ (typed bs).1.scrlock = isOn (strokes false bs) KEY_SCRLOCK ∧
    (typed bs).1.numlock = isOn (strokes false bs) KEY_NUMLOCK ∧ (typed bs).2.1.getD 0 = (typed bs).1.leds ∧
    (typed bs).2.2 = (strokes false bs).inits.filterMap spell := by
  obtain ⟨hfollows, -, hlit, htext⟩ := typed_reads bs
  exact ⟨hfollows.pressed, hfollows.capslock, hfollows.scrlock, hfollows.numlock, hlit, htext⟩

/-- Shift, h, shift up, caps lock, i, and an extended slash. -/
example : (typed [0x2a, 0x23, 0xa3, 0xaa, 0x3a, 0x17, 0xe0, 0x35]).2 = (some 4, [72, 73, 47]) := by decide

end Keys
end Onix
