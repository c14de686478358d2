import Mathlib.Data.List.Basic
import Mathlib.Tactic
import Onix.Kernel.Task

/-! `vsprintf` of vsprintf.c and its routine `number`, which takes every number as unsigned. Sizes are integers: one
that leaves the range of an `int` asks for a text longer than the memory. -/

set_option autoImplicit false

namespace Onix

namespace Printf

/-- The bits of `flags`. -/
structure Flags where
  zeropad : Bool := false
  sign : Bool := false
  plus : Bool := false
  space : Bool := false
  left : Bool := false
  special : Bool := false
  small : Bool := false

def digitChars (small : Bool) : List Char :=
  if small then "0123456789abcdefghijklmnopqrstuvwxyz".toList else "0123456789ABCDEFGHIJKLMNOPQRSTUVWXYZ".toList

/-- The loop that writes the digits to `tmp`, the lowest first; 32 rounds are enough for every base. -/
def digitLoop (digits : List Char) (base : UInt32) : ℕ → UInt32 → List Char
  | 0, _ => []
  | rounds + 1, num =>
    if num ≠ 0 then digits.getD (num % base).toNat ' ' :: digitLoop digits base rounds (num / base) else []

/-- `while (size-- > 0) *str++ = c`, with the size behind it. -/
def fill (c : Char) (size : ℤ) : List Char × ℤ := (List.replicate size.toNat c, min size 0 - 1)

/-- `number`, as the text that it writes; NULL is `none`. -/
def number (num base : UInt32) (size precision : ℤ) (flags : Flags) : Option (List Char) :=
  let digits := digitChars flags.small
  let flags := if flags.left then { flags with zeropad := false } else flags
  if base < 2 ∨ base > 36 then none
  else
    let c := if flags.zeropad then '0' else ' '
    let (sign, num) : List Char × UInt32 :=
      if flags.sign ∧ num < 0 then (['-'], -num)
      else (if flags.plus then ['+'] else if flags.space then [' '] else [], num)
    let size := if sign ≠ [] then size - 1 else size
    let size := if flags.special then (if base = 16 then size - 2 else if base = 8 then size - 1 else size) else size
    let tmp := if num = 0 then ['0'] else digitLoop digits base 32 num
    let precision := if (tmp.length : ℤ) > precision then (tmp.length : ℤ) else precision
    let size := size - precision
    let (spaces, size) := if !flags.zeropad && !flags.left then fill ' ' size else ([], size)
    let special := if flags.special then
        (if base = 8 then ['0'] else if base = 16 then ['0', digits.getD 33 ' '] else [])
      else []
    let (pad, size) := if !flags.left then fill c size else ([], size)
    let zeros := List.replicate (precision - tmp.length).toNat '0'
    let (trail, _) := fill ' ' size
    some (spaces ++ sign ++ special ++ pad ++ zeros ++ tmp.reverse ++ trail)

/-- An argument of the `va_list`. -/
inductive Arg
  | word (w : UInt32)
  | str (s : List Char)

/-- `va_arg` of a word; there is none for a string. -/
def vaWord : List Arg → Option (UInt32 × List Arg)
  | .word w :: args => some (w, args)
  | _ => none

/-- The text so far, the arguments left, and what `%n` has stored where. -/
structure Out where
  text : List Char
  args : List Arg
  stored : List (UInt32 × ℕ)

def Out.put (o : Out) (cs : List Char) : Out := { o with text := o.text ++ cs }

def setFlag (f : Flags) : Char → Option Flags
  | '-' => some { f with left := true }
  | '+' => some { f with plus := true }
  | ' ' => some { f with space := true }
  | '#' => some { f with special := true }
  | '0' => some { f with zeropad := true }
  | _ => none

def skipQualifier : List Char → List Char
  | [] => []
  | c :: rest => if c = 'h' ∨ c = 'l' ∨ c = 'L' then rest else c :: rest

/-- A conversion by `number`. -/
def convertNumber (base : UInt32) (width precision : ℤ) (flags : Flags) (rest : List Char) (o : Out) :
    Option (List Char × Out) := do
  let (num, args) ← vaWord o.args
  let text ← number num base width precision flags
  some (rest, { o with args := args }.put text)

/-- The switch over the conversion; it leaves what is behind it in the format. -/
def convert (flags : Flags) (width precision : ℤ) (fmt : List Char) (o : Out) : Option (List Char × Out) :=
  match fmt with
  | [] => some ([], o.put ['%'])
  | 'c' :: rest => do
    let (w, args) ← vaWord o.args
    let before := if flags.left then [] else List.replicate (width - 1).toNat ' '
    let width := if flags.left then width else min (width - 1) 0
    some (rest, { o with args := args }.put
      (before ++ [Char.ofNat (w.toNat % 256)] ++ List.replicate (width - 1).toNat ' '))
  | 's' :: rest =>
    match o.args with
    | .str s :: args =>
      let len : ℤ := if precision < 0 then s.length else min s.length precision
      let before := if flags.left then [] else List.replicate (width - len).toNat ' '
      let width := if flags.left then width else min width len - 1
      some (rest, { o with args := args }.put
        (before ++ s.take len.toNat ++ List.replicate (width - len).toNat ' '))
    | _ => none
  | 'o' :: rest => convertNumber 8 width precision flags rest o
  | 'p' :: rest =>
    if width = -1 then convertNumber 16 8 precision { flags with zeropad := true } rest o
    else convertNumber 16 width precision flags rest o
  | 'x' :: rest => convertNumber 16 width precision { flags with small := true } rest o
  | 'X' :: rest => convertNumber 16 width precision flags rest o
  | 'd' :: rest => convertNumber 10 width precision { flags with sign := true } rest o
  | 'i' :: rest => convertNumber 10 width precision { flags with sign := true } rest o
  | 'u' :: rest => convertNumber 10 width precision flags rest o
  | 'n' :: rest => do
    let (ip, args) ← vaWord o.args
    some (rest, { o with args := args, stored := o.stored ++ [(ip, o.text.length)] })
  | '%' :: rest => some (rest, o.put ['%'])
  | c :: rest => some (rest, o.put ['%', c])

/-- The width of a conversion: a digit other than `0` and more digits, or the argument of an asterisk. -/
inductive Width
  | absent
  | fixed (d : Char) (ds : List Char) (first : d.isDigit ∧ d ≠ '0') (digits : ∀ c ∈ ds, c.isDigit)
  | star (w : UInt32)

def Width.text : Width → List Char
  | .absent => []
  | .fixed d ds _ _ => d :: ds
  | .star _ => ['*']

def Width.args : Width → List Arg
  | .star w => [.word w]
  | _ => []

def Width.value : Width → ℕ
  | .absent => 0
  | .fixed d ds _ _ => Nat.ofDigitChars 10 (d :: ds) 0
  | .star w => w.toInt32.toInt.natAbs

/-- A negative argument is a width with the flag `-`. -/
def Width.left : Width → Bool
  | .star w => decide (w.toInt32.toInt < 0)
  | _ => false

/-- The precision of a conversion, with the point before it. -/
inductive Precision
  | absent
  | fixed (ds : List Char) (digits : ∀ c ∈ ds, c.isDigit)
  | star (p : UInt32)

def Precision.text : Precision → List Char
  | .absent => []
  | .fixed ds _ => '.' :: ds
  | .star _ => ['.', '*']

def Precision.args : Precision → List Arg
  | .star p => [.word p]
  | _ => []

def Precision.value : Precision → ℕ
  | .absent => 0
  | .fixed ds _ => Nat.ofDigitChars 10 ds 0
  | .star p => p.toInt32.toInt.toNat

/-- A signed decimal conversion. -/
structure Spec where
  flags : List Char
  flags_ok : ∀ c ∈ flags, c ∈ ['-', '+', ' ', '0']
  width : Width
  precision : Precision
  conv : Char
  conv_ok : conv = 'd' ∨ conv = 'i'

def Spec.fmt (s : Spec) : List Char := '%' :: (s.flags ++ s.width.text ++ s.precision.text ++ [s.conv])

def Spec.args (s : Spec) (n : Int32) : List Arg := s.width.args ++ s.precision.args ++ [.word n.toUInt32]

/-- The sign that a number that is not negative gets from the flags. -/
def flagSign (plus space : Bool) : List Char := if plus then ['+'] else if space then [' '] else []

def Spec.sign (s : Spec) (n : Int32) : List Char :=
  if n.toInt < 0 then ['-'] else flagSign (decide ('+' ∈ s.flags)) (decide (' ' ∈ s.flags))

def Spec.left (s : Spec) : Bool := decide ('-' ∈ s.flags) || s.width.left

/-- `%d`. -/
def plain : Spec := ⟨[], by simp, .absent, .absent, 'd', .inl rfl⟩

end Printf
end Onix
