import Mathlib.Data.List.Basic
import Mathlib.Data.List.TakeWhile
import Mathlib.Tactic
import Onix.Lib.Halting

/-! `cmd_parse` of osh.c, which splits a line into words and quoted strings where it stands, and the round of
`main` that dispatches it. An access outside of the line or of `argv` is a fault here. -/

set_option autoImplicit false

namespace Onix

namespace Osh

open Lib

def MAX_ARG_NR : ℕ := 16

inductive Fault
  | read
  | write
  | slot
  /-- The rounds given to a loop are used up. -/
  | rounds
  deriving DecidableEq, Repr

/-- `*p` for a pointer into the line. -/
def load (buf : List UInt8) (p : ℕ) : Except Fault UInt8 :=
  match buf[p]? with
  | some c => .ok c
  | none => .error .read

def store (buf : List UInt8) (p : ℕ) (c : UInt8) : Except Fault (List UInt8) :=
  if p < buf.length then .ok (buf.set p c) else .error .write

/-- `argv`: each entry NULL or a pointer into the line. -/
abbrev Argv := ℕ → Option ℕ

def setArg (argv : Argv) (i : ℕ) (p : Option ℕ) : Except Fault Argv :=
  if i < MAX_ARG_NR then .ok (Function.update argv i p) else .error .slot

structure Parse where
  buf : List UInt8
  next : ℕ
  argc : ℕ
  quot : Bool
  argv : Argv

/-- The loop that skips blanks, and in a quotation everything up to its end; the list is what lies from `next` on. -/
def skip (quot : Bool) : List UInt8 → ℕ → Except Fault ℕ
  | [], _ => .error .read
  | c :: rest, next => if c = 32 ∨ (quot = true ∧ c ≠ 34) then skip quot rest (next + 1) else .ok next

/-- The loop that goes to the end of a word. -/
def wordEnd : List UInt8 → ℕ → Except Fault ℕ
  | [], _ => .error .read
  | c :: rest, next => if c ≠ 0 ∧ c ≠ 32 then wordEnd rest (next + 1) else .ok next

def parseLoop : ℕ → Parse → Except Fault Parse
  | 0, _ => .error .rounds
  | rounds + 1, s => do
    let c ← load s.buf s.next
    if c ≠ 0 ∧ s.argc < MAX_ARG_NR then
      let next ← skip s.quot (s.buf.drop s.next) s.next
      let c ← load s.buf next
      if c = 0 then .ok { s with next := next }
      else if c = 34 then
        if !s.quot then
          let argv ← setArg s.argv s.argc (some (next + 1))
          parseLoop rounds { s with next := next + 1, argc := s.argc + 1, quot := true, argv := argv }
        else
          let buf ← store s.buf next 0
          parseLoop rounds { s with buf := buf, next := next + 1, quot := false }
      else
        let argv ← setArg s.argv s.argc (some next)
        let stop ← wordEnd (s.buf.drop next) next
        let c ← load s.buf stop
        if c ≠ 0 then
          let buf ← store s.buf stop 0
          parseLoop rounds { s with buf := buf, next := stop + 1, argc := s.argc + 1, argv := argv }
        else parseLoop rounds { s with next := stop, argc := s.argc + 1, argv := argv }
    else .ok s

/-- `argv[argc] = NULL` -/
def terminate (s : Parse) : Except Fault Parse := do
  let argv ← setArg s.argv s.argc none
  .ok { s with argv := argv }

/-- `cmd_parse`; what it returns is `argc`. -/
def cmdParse (cmd : List UInt8) (argv : Argv) : Except Fault Parse := do
  let s ← parseLoop (cmd.length + 1) ⟨cmd, 0, 0, false, argv⟩
  terminate s

/-- The round of `main` behind `readline`: the arguments it calls `execute` with, if it does. -/
def mainRound (cmd : List UInt8) (argv : Argv) : Except Fault (Option Parse) := do
  let first ← load cmd 0
  if first = 0 then .ok none
  else
    let s ← cmdParse cmd argv
    if s.argc ≥ MAX_ARG_NR then .ok none else .ok (some s)

/-! ### Lines -/

/-- A line, the texts of its tokens, and the text behind a quote that nothing closes. -/
inductive Lex : List UInt8 → List (List UInt8) → Option (List UInt8) → Prop
  | nil : Lex [] [] none
  | blank {rest : List UInt8} {ts : List (List UInt8)} {tail : Option (List UInt8)} (h : Lex rest ts tail) :
      Lex (32 :: rest) ts tail
  | last {c : UInt8} {w : List UInt8} (hc : c ≠ 34) (hw : ∀ x ∈ c :: w, x ≠ 32) : Lex (c :: w) [c :: w] none
  | word {c : UInt8} {w rest : List UInt8} {ts : List (List UInt8)} {tail : Option (List UInt8)} (hc : c ≠ 34)
      (hw : ∀ x ∈ c :: w, x ≠ 32) (h : Lex rest ts tail) : Lex (c :: w ++ 32 :: rest) ((c :: w) :: ts) tail
  | quoted {q rest : List UInt8} {ts : List (List UInt8)} {tail : Option (List UInt8)} (hq : ∀ x ∈ q, x ≠ 34)
      (h : Lex rest ts tail) : Lex (34 :: q ++ 34 :: rest) (q :: ts) tail
  | unclosed {q : List UInt8} (hq : ∀ x ∈ q, x ≠ 34) : Lex (34 :: q) [] (some q)

/-- Every line is one. -/
theorem exists_lex (line : List UInt8) : ∃ ts tail, Lex line ts tail := by
  induction hn : line.length using Nat.strong_induction_on generalizing line with
  | _ n ih =>
    cases line with
    | nil => exact ⟨_, _, .nil⟩
    | cons c rest =>
      rw [List.length_cons] at hn
      by_cases h32 : c = 32
      · subst h32
        obtain ⟨ts, tail, h⟩ := ih rest.length (by omega) rest rfl
        exact ⟨ts, tail, .blank h⟩
      by_cases h34 : c = 34
      · subst h34
        by_cases hclose : 34 ∈ rest
        · obtain ⟨q, rest', rfl, hq⟩ := List.eq_append_cons_of_mem hclose
          rw [List.length_append, List.length_cons] at hn
          obtain ⟨ts, tail, h⟩ := ih rest'.length (by omega) rest' rfl
          exact ⟨_, _, .quoted (fun x hx he => hq (he ▸ hx)) h⟩
        · exact ⟨_, _, .unclosed fun x hx he => hclose (he ▸ hx)⟩
      · by_cases hblank : 32 ∈ rest
        · obtain ⟨w, rest', rfl, hw⟩ := List.eq_append_cons_of_mem hblank
          rw [List.length_append, List.length_cons] at hn
          obtain ⟨ts, tail, h⟩ := ih rest'.length (by omega) rest' rfl
          refine ⟨_, _, .word h34 (fun x hx he => ?_) h⟩
          rcases List.mem_cons.mp hx with rfl | hx
          · exact h32 he
          · exact hw (he ▸ hx)
        · refine ⟨_, _, .last h34 fun x hx he => ?_⟩
          rcases List.mem_cons.mp hx with rfl | hx
          · exact h32 he
          · exact hblank (he ▸ hx)

/-! ### The rounds of the loop -/

theorem load_append (pre : List UInt8) (c : UInt8) (rest : List UInt8) :
    load (pre ++ c :: rest) pre.length = .ok c := by
  rw [load, List.getElem?_append_right le_rfl, Nat.sub_self]
  rfl

theorem store_append (pre : List UInt8) (c d : UInt8) (rest : List UInt8) :
    store (pre ++ c :: rest) pre.length d = .ok (pre ++ d :: rest) := by
  rw [store, if_pos (by simp), List.set_append_right _ _ le_rfl, Nat.sub_self]
  rfl

theorem skip_over {quot : Bool} {c : UInt8} (rest : List UInt8) (hc : ¬(c = 32 ∨ (quot = true ∧ c ≠ 34))) :
    ∀ (bs : List UInt8) (next : ℕ), (∀ x ∈ bs, x = 32 ∨ (quot = true ∧ x ≠ 34)) →
      skip quot (bs ++ c :: rest) next = .ok (next + bs.length)
  | [], next, _ => by
    rw [List.nil_append, skip, if_neg hc]
    rfl
  | b :: bs, next, h => by
    rw [List.cons_append, skip, if_pos (h b (List.mem_cons_self ..)),
      skip_over rest hc bs (next + 1) fun x hx => h x (List.mem_cons_of_mem _ hx), List.length_cons]
    congr 1
    omega

/-- A quotation that nothing closes is skipped up to the end of the memory. -/
theorem skip_past : ∀ (bs : List UInt8) (next : ℕ), (∀ x ∈ bs, x ≠ 34) → skip true bs next = .error .read
  | [], _, _ => rfl
  | b :: bs, next, h => by
    rw [skip, if_pos (Or.inr ⟨rfl, h b (List.mem_cons_self ..)⟩)]
    exact skip_past bs (next + 1) fun x hx => h x (List.mem_cons_of_mem _ hx)

theorem wordEnd_over {c : UInt8} (rest : List UInt8) (hc : ¬(c ≠ 0 ∧ c ≠ 32)) :
    ∀ (w : List UInt8) (next : ℕ), (∀ x ∈ w, x ≠ 0 ∧ x ≠ 32) → wordEnd (w ++ c :: rest) next = .ok (next + w.length)
  | [], next, _ => by
    rw [List.nil_append, wordEnd, if_neg hc]
    rfl
  | b :: w, next, h => by
    rw [List.cons_append, wordEnd, if_pos (h b (List.mem_cons_self ..)),
      wordEnd_over rest hc w (next + 1) fun x hx => h x (List.mem_cons_of_mem _ hx), List.length_cons]
    congr 1
    omega

variable {rounds argc : ℕ} {argv : Argv} {pre rest : List UInt8} {c : UInt8}

/-- The loop ends at the terminator and with sixteen arguments. -/
theorem parse_end {quot : Bool} (h : c = 0 ∨ MAX_ARG_NR ≤ argc) :
    parseLoop (rounds + 1) ⟨pre ++ c :: rest, pre.length, argc, quot, argv⟩ =
      .ok ⟨pre ++ c :: rest, pre.length, argc, quot, argv⟩ := by
  have hc : ¬(c ≠ 0 ∧ argc < MAX_ARG_NR) := by
    rintro ⟨h0, hlt⟩
    exact h.elim h0 (by omega)
  rw [parseLoop, load_append, ok_bind, if_neg hc]

/-- A blank is skipped. -/
theorem parse_blank (hargc : argc < MAX_ARG_NR) :
    parseLoop (rounds + 1) ⟨pre ++ 32 :: c :: rest, pre.length, argc, false, argv⟩ =
      parseLoop (rounds + 1) ⟨(pre ++ [32]) ++ c :: rest, (pre ++ [32]).length, argc, false, argv⟩ := by
  have hlen : pre.length + 1 = (pre ++ [32]).length := by rw [List.length_append, List.length_singleton]
  rw [parseLoop, load_append, ok_bind, if_pos ⟨by decide, hargc⟩]
  dsimp only
  rw [List.drop_left, skip, if_pos (Or.inl rfl), hlen, List.append_cons pre 32 (c :: rest)]
  by_cases h0 : c = 0
  · subst h0
    rw [parse_end (Or.inl rfl), skip, if_neg (by decide), ok_bind, load_append]
    rfl
  · rw [parseLoop, load_append, ok_bind, if_pos ⟨h0, hargc⟩]
    dsimp only
    rw [List.drop_left]

/-- A word, and the blank behind it, which becomes its NUL. -/
theorem parse_word {w : List UInt8} (hargc : argc < MAX_ARG_NR) (hc : c ≠ 34)
    (hw : ∀ x ∈ c :: w, x ≠ 0 ∧ x ≠ 32) :
    parseLoop (rounds + 1) ⟨pre ++ (c :: w ++ 32 :: rest), pre.length, argc, false, argv⟩ =
      parseLoop rounds ⟨(pre ++ c :: w ++ [0]) ++ rest, (pre ++ c :: w ++ [0]).length, argc + 1, false,
        Function.update argv argc (some pre.length)⟩ := by
  obtain ⟨hc0, hc32⟩ := hw c (List.mem_cons_self ..)
  have hskip : skip false (c :: w ++ 32 :: rest) pre.length = .ok pre.length := by
    rw [List.cons_append, skip, if_neg (by simp [hc32])]
  have hload : load (pre ++ (c :: w ++ 32 :: rest)) pre.length = .ok c := load_append pre c _
  have hend := wordEnd_over (c := 32) rest (by decide) (c :: w) pre.length hw
  rw [parseLoop, hload, ok_bind, if_pos ⟨hc0, hargc⟩]
  dsimp only
  rw [List.drop_left, hskip, ok_bind, hload, ok_bind, if_neg hc0, if_neg hc, setArg, if_pos hargc, ok_bind,
    List.drop_left, hend, ok_bind, ← List.length_append, ← List.append_assoc, load_append, ok_bind,
    if_pos (by decide), store_append, ok_bind, List.append_cons (pre ++ c :: w) 0 rest,
    show (pre ++ c :: w).length + 1 = (pre ++ c :: w ++ [0]).length by simp [Nat.add_assoc]]

/-- A word at the end of the line. -/
theorem parse_last {w : List UInt8} (hargc : argc < MAX_ARG_NR) (hc : c ≠ 34)
    (hw : ∀ x ∈ c :: w, x ≠ 0 ∧ x ≠ 32) :
    parseLoop (rounds + 1) ⟨pre ++ (c :: w ++ [0]), pre.length, argc, false, argv⟩ =
      parseLoop rounds ⟨(pre ++ c :: w) ++ [0], (pre ++ c :: w).length, argc + 1, false,
        Function.update argv argc (some pre.length)⟩ := by
  obtain ⟨hc0, hc32⟩ := hw c (List.mem_cons_self ..)
  have hskip : skip false (c :: w ++ [0]) pre.length = .ok pre.length := by
    rw [List.cons_append, skip, if_neg (by simp [hc32])]
  have hload : load (pre ++ (c :: w ++ [0])) pre.length = .ok c := load_append pre c _
  have hend := wordEnd_over (c := 0) [] (by decide) (c :: w) pre.length hw
  rw [parseLoop, hload, ok_bind, if_pos ⟨hc0, hargc⟩]
  dsimp only
  rw [List.drop_left, hskip, ok_bind, hload, ok_bind, if_neg hc0, if_neg hc, setArg, if_pos hargc, ok_bind,
    List.drop_left, hend, ok_bind, ← List.length_append, ← List.append_assoc, load_append, ok_bind,
    if_neg (by decide)]

/-- A quote that opens. -/
theorem parse_open (hargc : argc < MAX_ARG_NR) :
    parseLoop (rounds + 1) ⟨pre ++ 34 :: rest, pre.length, argc, false, argv⟩ =
      parseLoop rounds ⟨(pre ++ [34]) ++ rest, (pre ++ [34]).length, argc + 1, true,
        Function.update argv argc (some (pre ++ [34]).length)⟩ := by
  have hskip : skip false (34 :: rest) pre.length = .ok pre.length := by
    rw [skip, if_neg (by decide)]
  rw [parseLoop, load_append, ok_bind, if_pos ⟨by decide, hargc⟩]
  dsimp only
  rw [List.drop_left, hskip, ok_bind, load_append, ok_bind, if_neg (by decide), if_pos rfl, if_pos (by decide), setArg,
    if_pos hargc, ok_bind, List.append_cons pre 34 rest, List.length_append, List.length_singleton]

/-- The text of a quotation, and the quote behind it, which becomes its NUL. -/
theorem parse_close {q : List UInt8} (hargc : argc < MAX_ARG_NR) (hq : ∀ x ∈ q, x ≠ 0 ∧ x ≠ 34) :
    parseLoop (rounds + 1) ⟨pre ++ (q ++ 34 :: rest), pre.length, argc, true, argv⟩ =
      parseLoop rounds ⟨(pre ++ q ++ [0]) ++ rest, (pre ++ q ++ [0]).length, argc, false, argv⟩ := by
  have hload : ∃ d, load (pre ++ (q ++ 34 :: rest)) pre.length = .ok d ∧ d ≠ 0 := by
    cases q with
    | nil => exact ⟨34, load_append pre 34 rest, by decide⟩
    | cons d q => exact ⟨d, load_append pre d _, (hq d (List.mem_cons_self ..)).1⟩
  obtain ⟨d, hload, hd⟩ := hload
  have hskip := @skip_over true 34 rest (by decide) q pre.length fun x hx => Or.inr ⟨rfl, (hq x hx).2⟩
  rw [parseLoop, hload, ok_bind, if_pos ⟨hd, hargc⟩]
  dsimp only
  rw [List.drop_left, hskip, ok_bind, ← List.length_append, ← List.append_assoc, load_append, ok_bind,
    if_neg (by decide), if_pos rfl, if_neg (by decide), store_append, ok_bind, List.append_cons (pre ++ q) 0 rest,
    show (pre ++ q).length + 1 = (pre ++ q ++ [0]).length by simp [Nat.add_assoc]]

/-! ### A whole line -/

/-- The texts of the arguments of a line: its tokens, and the text behind an open quote. -/
def texts (ts : List (List UInt8)) (tail : Option (List UInt8)) : List (List UInt8) := ts ++ tail.toList

/-- The NUL-terminated string at `p`. -/
def StringAt (buf : List UInt8) (p : ℕ) (t : List UInt8) : Prop :=
  ∃ before after, buf = before ++ t ++ 0 :: after ∧ p = before.length

/-- What the loop leaves behind: it has kept the line before `pre.length` and the arguments before `argc`. -/
structure Parsed (pre : List UInt8) (argc : ℕ) (argv : Argv) (args : List (List UInt8)) (s : Parse) : Prop where
  count : s.argc = argc + args.length
  kept : ∃ x, s.buf = pre ++ x
  before : ∀ i < argc, s.argv i = argv i
  found : ∀ i (h : i < args.length), ∃ p, s.argv (argc + i) = some p ∧ StringAt s.buf p args[i]

/-- One argument more in front. -/
theorem Parsed.cons (pre' : List UInt8) {t : List UInt8} {args : List (List UInt8)} {p : ℕ} {s : Parse}
    (h : Parsed pre' (argc + 1) (Function.update argv argc (some p)) args s) (hpre : ∃ x, pre' = pre ++ x)
    (ht : StringAt pre' p t) : Parsed pre argc argv (t :: args) s := by
  obtain ⟨x, hx⟩ := h.kept
  refine ⟨?_, ?_, fun i hi => ?_, fun i hi => ?_⟩
  · rw [h.count, List.length_cons]
    omega
  · obtain ⟨y, rfl⟩ := hpre
    exact ⟨y ++ x, by rw [hx, List.append_assoc]⟩
  · rw [h.before i (by omega), Function.update_of_ne (by omega)]
  · cases i with
    | zero =>
      refine ⟨p, ?_, ?_⟩
      · rw [Nat.add_zero, h.before argc (by omega), Function.update_self]
      · obtain ⟨before, after, hbuf, hp⟩ := ht
        exact ⟨before, after ++ x, by rw [hx, hbuf, List.append_assoc, List.cons_append]; rfl, hp⟩
    | succ i =>
      have := h.found i (by simpa using hi)
      rwa [Nat.add_right_comm, Nat.add_assoc] at this

theorem Parsed.mono {pre' : List UInt8} {args : List (List UInt8)} {s : Parse} (h : Parsed pre' argc argv args s)
    (hpre : ∃ x, pre' = pre ++ x) : Parsed pre argc argv args s := by
  obtain ⟨x, hx⟩ := h.kept
  obtain ⟨y, rfl⟩ := hpre
  exact ⟨h.count, ⟨y ++ x, by rw [hx, List.append_assoc]⟩, h.before, h.found⟩

theorem Parsed.nil {quot : Bool} : Parsed pre argc argv [] ⟨pre ++ rest, pre.length, argc, quot, argv⟩ :=
  ⟨rfl, ⟨_, rfl⟩, fun _ _ => rfl, fun i hi => absurd hi (Nat.not_lt_zero i)⟩

/-- The last argument, after which nothing of the line is left. -/
theorem Parsed.single {quot : Bool} (pre' : List UInt8) {t : List UInt8} {p next : ℕ} (hpre : ∃ x, pre' = pre ++ x)
    (ht : StringAt pre' p t) :
    Parsed pre argc argv [t] ⟨pre', next, argc + 1, quot, Function.update argv argc (some p)⟩ :=
  Parsed.cons pre' ⟨rfl, ⟨[], (List.append_nil _).symm⟩, fun _ _ => rfl, fun i hi => absurd hi (Nat.not_lt_zero i)⟩
    hpre ht

/-- The loop on a line with fewer than sixteen arguments and no open quote but a lone one. -/
theorem parse_lex {line : List UInt8} {ts : List (List UInt8)} {tail : Option (List UInt8)} (h : Lex line ts tail)
    (htail : ∀ q, tail = some q → q = []) : ∀ (rounds argc : ℕ) (argv : Argv) (pre : List UInt8),
    (∀ x ∈ line, x ≠ 0) → line.length < rounds → argc + (texts ts tail).length < MAX_ARG_NR →
    ∃ s, parseLoop rounds ⟨pre ++ (line ++ [0]), pre.length, argc, false, argv⟩ = .ok s ∧
      Parsed pre argc argv (texts ts tail) s := by
  induction h with
  | nil =>
    intro rounds argc argv pre _ hr _
    obtain ⟨r, rfl⟩ : ∃ r, rounds = r + 1 := ⟨rounds - 1, by omega⟩
    exact ⟨_, parse_end (Or.inl rfl), .nil⟩
  | @blank rest ts tail _ ih =>
    intro rounds argc argv pre hline hr hargc
    rw [List.length_cons] at hr
    obtain ⟨r, rfl⟩ : ∃ r, rounds = r + 1 := ⟨rounds - 1, by omega⟩
    obtain ⟨s, hs, hp⟩ := ih htail (r + 1) argc argv (pre ++ [32]) (fun x hx => hline x (List.mem_cons_of_mem _ hx))
      (show rest.length < r + 1 by omega) hargc
    refine ⟨s, ?_, hp.mono ⟨_, rfl⟩⟩
    rw [← hs]
    cases hrest : rest ++ [0] with
    | nil => simp at hrest
    | cons c l =>
      rw [List.cons_append, hrest]
      exact parse_blank (by omega)
  | @last c w hc hw =>
    intro rounds argc argv pre hline hr hargc
    rw [List.length_cons] at hr
    obtain ⟨r, rfl⟩ : ∃ r, rounds = r + 1 + 1 := ⟨rounds - 2, by omega⟩
    refine ⟨_, (parse_last (Nat.lt_of_succ_lt hargc) hc fun x hx => ⟨hline x hx, hw x hx⟩).trans
      (parse_end (Or.inl rfl)), ?_⟩
    exact .single _ ⟨c :: w ++ [0], List.append_assoc ..⟩ ⟨pre, [], rfl, rfl⟩
  | @word c w rest ts tail hc hw _ ih =>
    intro rounds argc argv pre hline hr hargc
    rw [List.length_append, List.length_cons, List.length_cons] at hr
    obtain ⟨r, rfl⟩ : ∃ r, rounds = r + 1 := ⟨rounds - 1, by omega⟩
    have hword : ∀ x ∈ c :: w, x ≠ 0 ∧ x ≠ 32 := fun x hx => ⟨hline x (List.mem_append_left _ hx), hw x hx⟩
    change argc + ((texts ts tail).length + 1) < MAX_ARG_NR at hargc
    obtain ⟨s, hs, hp⟩ := ih htail r (argc + 1) (Function.update argv argc (some pre.length))
      (pre ++ c :: w ++ [0])
      (fun x hx => hline x (List.mem_append_right _ (List.mem_cons_of_mem _ hx))) (by omega) (by omega)
    refine ⟨s, ?_, hp.cons _ ⟨c :: w ++ [0], List.append_assoc ..⟩ ⟨pre, [], rfl, rfl⟩⟩
    rw [← hs, List.append_assoc (c :: w), List.cons_append]
    exact parse_word (by omega) hc hword
  | @quoted q rest ts tail hq _ ih =>
    intro rounds argc argv pre hline hr hargc
    rw [List.length_append, List.length_cons, List.length_cons] at hr
    obtain ⟨r, rfl⟩ : ∃ r, rounds = r + 1 + 1 := ⟨rounds - 2, by omega⟩
    have hquot : ∀ x ∈ q, x ≠ 0 ∧ x ≠ 34 := fun x hx =>
      ⟨hline x (List.mem_append_left _ (List.mem_cons_of_mem _ hx)), hq x hx⟩
    change argc + ((texts ts tail).length + 1) < MAX_ARG_NR at hargc
    obtain ⟨s, hs, hp⟩ := ih htail r (argc + 1)
      (Function.update argv argc (some (pre ++ [34]).length)) (pre ++ [34] ++ q ++ [0])
      (fun x hx => hline x (List.mem_append_right _ (List.mem_cons_of_mem _ hx))) (by omega) (by omega)
    refine ⟨s, ?_, hp.cons _ ⟨[34] ++ q ++ [0], by simp only [List.append_assoc]⟩ ⟨pre ++ [34], [], rfl, rfl⟩⟩
    rw [← hs, List.append_assoc (34 :: q), List.cons_append, List.cons_append]
    exact (parse_open (by omega)).trans (parse_close (by omega) hquot)
  | @unclosed q hq =>
    intro rounds argc argv pre hline hr hargc
    rw [List.length_cons] at hr
    obtain ⟨r, rfl⟩ : ∃ r, rounds = r + 1 + 1 := ⟨rounds - 2, by omega⟩
    have hnil := htail q rfl
    subst hnil
    refine ⟨_, (parse_open (Nat.lt_of_succ_lt hargc)).trans (parse_end (Or.inl rfl)), ?_⟩
    exact .single _ ⟨[34] ++ [0], List.append_assoc ..⟩ ⟨pre ++ [34], [], by simp, rfl⟩

/-- With sixteen arguments the loop ends, and there is no slot for the NULL. -/
theorem parse_full {quot : Bool} {s : Parse} (rounds : ℕ) (hargc : argc = MAX_ARG_NR) :
    (parseLoop rounds ⟨pre ++ c :: rest, pre.length, argc, quot, argv⟩ >>= terminate) ≠ .ok s := by
  cases rounds with
  | zero => simp [parseLoop]
  | succ rounds =>
    rw [parse_end (Or.inr hargc.ge), ok_bind, terminate, setArg, if_neg (by rw [hargc]; exact Nat.lt_irrefl _)]
    simp

/-- A line faults if its round does where there is a slot left: without a slot or a round nothing is parsed. -/
theorem parse_faults {quot : Bool} {text : List UInt8} {s : Parse} (htext : text ≠ []) (hle : argc ≤ MAX_ARG_NR)
    (h : ∀ r, argc < MAX_ARG_NR →
      (parseLoop (r + 1) ⟨pre ++ text, pre.length, argc, quot, argv⟩ >>= terminate) ≠ .ok s) :
    (parseLoop rounds ⟨pre ++ text, pre.length, argc, quot, argv⟩ >>= terminate) ≠ .ok s := by
  by_cases hfull : argc = MAX_ARG_NR
  · obtain ⟨c, rest, rfl⟩ := List.exists_cons_of_ne_nil htext
    exact parse_full rounds hfull
  cases rounds with
  | zero => simp [parseLoop]
  | succ r => exact h r (by omega)

/-- The loop on a line with sixteen arguments or more, or with an open quote that is not the last character. -/
theorem parse_lex_fault {line : List UInt8} {ts : List (List UInt8)} {tail : Option (List UInt8)}
    (h : Lex line ts tail) : ∀ (rounds argc : ℕ) (argv : Argv) (pre : List UInt8) (s : Parse), (∀ x ∈ line, x ≠ 0) →
    argc ≤ MAX_ARG_NR → (MAX_ARG_NR ≤ argc + (texts ts tail).length ∨ ∃ c q, tail = some (c :: q)) →
    (parseLoop rounds ⟨pre ++ (line ++ [0]), pre.length, argc, false, argv⟩ >>= terminate) ≠ .ok s := by
  induction h with
  | nil =>
    intro rounds argc argv pre s hline hle hbad
    rcases hbad with hmany | ⟨c, q, hq⟩
    · exact parse_full rounds (le_antisymm hle hmany)
    · cases hq
  | @blank rest ts tail _ ih =>
    intro rounds argc argv pre s hline hle hbad
    refine parse_faults (by simp) hle fun r hlt => ?_
    have hrest := ih (r + 1) argc argv (pre ++ [32]) s (fun x hx => hline x (List.mem_cons_of_mem _ hx)) hle hbad
    obtain ⟨c, l, hl⟩ := List.exists_cons_of_ne_nil (show rest ++ [0] ≠ [] by simp)
    rw [hl] at hrest
    rw [List.cons_append, hl, parse_blank hlt]
    exact hrest
  | @last c w hc hw =>
    intro rounds argc argv pre s hline hle hbad
    refine parse_faults (by simp) hle fun r hlt => ?_
    rw [parse_last hlt hc fun x hx => ⟨hline x hx, hw x hx⟩]
    rcases hbad with hmany | ⟨d, q, hq⟩
    · exact parse_full r (le_antisymm (by omega) hmany)
    · cases hq
  | @word c w rest ts tail hc hw _ ih =>
    intro rounds argc argv pre s hline hle hbad
    refine parse_faults (by simp) hle fun r hlt => ?_
    have hword : ∀ x ∈ c :: w, x ≠ 0 ∧ x ≠ 32 := fun x hx => ⟨hline x (List.mem_append_left _ hx), hw x hx⟩
    rw [List.append_assoc (c :: w), show 32 :: rest ++ [0] = 32 :: (rest ++ [0]) from rfl, parse_word hlt hc hword]
    refine ih r (argc + 1) _ _ s (fun x hx => hline x (List.mem_append_right _ (List.mem_cons_of_mem _ hx)))
      (by omega) (hbad.imp_left fun hmany => ?_)
    change MAX_ARG_NR ≤ argc + ((texts ts tail).length + 1) at hmany
    omega
  | @quoted q rest ts tail hq _ ih =>
    intro rounds argc argv pre s hline hle hbad
    refine parse_faults (by simp) hle fun r hlt => ?_
    have hquot : ∀ x ∈ q, x ≠ 0 ∧ x ≠ 34 := fun x hx =>
      ⟨hline x (List.mem_append_left _ (List.mem_cons_of_mem _ hx)), hq x hx⟩
    rw [List.append_assoc (34 :: q), show 34 :: q ++ (34 :: rest ++ [0]) = 34 :: (q ++ 34 :: (rest ++ [0])) from rfl,
      parse_open hlt]
    refine parse_faults (by simp) hlt fun r hlt => ?_
    rw [parse_close hlt hquot]
    refine ih r (argc + 1) _ _ s (fun x hx => hline x (List.mem_append_right _ (List.mem_cons_of_mem _ hx)))
      hlt.le (hbad.imp_left fun hmany => ?_)
    change MAX_ARG_NR ≤ argc + ((texts ts tail).length + 1) at hmany
    omega
  | @unclosed q hq =>
    intro rounds argc argv pre s hline hle hbad
    refine parse_faults (by simp) hle fun r hlt => ?_
    rw [List.cons_append, parse_open hlt]
    refine parse_faults (by simp) hlt fun r hlt => ?_
    obtain ⟨d, q', hopen⟩ := hbad.resolve_left (by
      change ¬ MAX_ARG_NR ≤ argc + 1
      omega)
    rw [Option.some.injEq] at hopen
    subst hopen
    have hd : d ≠ 0 := hline d (List.mem_cons_of_mem _ (List.mem_cons_self ..))
    have hpast : skip true (d :: q' ++ [0]) (pre ++ [34]).length = .error .read := by
      refine skip_past _ _ fun x hx => ?_
      rcases List.mem_append.mp hx with hx | hx
      · exact hq x hx
      · rw [List.mem_singleton] at hx
        rw [hx]
        decide
    rw [parseLoop, List.cons_append, load_append, ok_bind, if_pos ⟨hd, hlt⟩]
    dsimp only
    rw [List.drop_left, ← List.cons_append, hpast, error_bind, error_bind]
    simp

/-- `cmd_parse` on a line that it can hold. -/
theorem cmdParse_spec {line : List UInt8} {ts : List (List UInt8)} {tail : Option (List UInt8)} (h : Lex line ts tail)
    (hline : ∀ x ∈ line, x ≠ 0) (htail : ∀ q, tail = some q → q = []) (hfew : (texts ts tail).length < MAX_ARG_NR)
    (argv : Argv) : ∃ s, cmdParse (line ++ [0]) argv = .ok s ∧ s.argc = (texts ts tail).length ∧
      (∀ i (h : i < (texts ts tail).length), ∃ p, s.argv i = some p ∧ StringAt s.buf p (texts ts tail)[i]) ∧
      s.argv (texts ts tail).length = none := by
  obtain ⟨s, hs, hp⟩ := parse_lex h htail ((line ++ [0]).length + 1) 0 argv [] hline
    (by rw [List.length_append]; omega) (by rwa [Nat.zero_add])
  have hcount := hp.count
  rw [Nat.zero_add] at hcount
  rw [List.nil_append, List.length_nil] at hs
  refine ⟨{ s with argv := Function.update s.argv s.argc none }, ?_, hcount, fun i hi => ?_, ?_⟩
  · rw [cmdParse, hs, ok_bind, terminate, setArg, if_pos (by rwa [hcount]), ok_bind]
  · obtain ⟨p, hget, hstring⟩ := hp.found i hi
    rw [Nat.zero_add] at hget
    have hne : i ≠ s.argc := by omega
    exact ⟨p, (Function.update_of_ne hne _ _).trans hget, hstring⟩
  · rw [← hcount]
    exact Function.update_self ..

/-- A line of fewer than sixteen tokens: each is an argument, in order, and NULL is behind the last. -/
theorem cmd_parse_tokens {line : List UInt8} {ts : List (List UInt8)} (h : Lex line ts none)
    (hline : ∀ x ∈ line, x ≠ 0) (hfew : ts.length < 16) (argv : Argv) :
    ∃ s, cmdParse (line ++ [0]) argv = .ok s ∧ s.argc = ts.length ∧
      (∀ i (h : i < ts.length), ∃ p, s.argv i = some p ∧ StringAt s.buf p ts[i]) ∧ s.argv ts.length = none := by
  have hnone : texts ts none = ts := List.append_nil ts
  have hspec := cmdParse_spec h hline (fun q hq => by cases hq) (by rwa [hnone]) argv
  simpa only [hnone] using hspec

/-- `ls "a b"`. -/
def quotedLine : List UInt8 := [108, 115, 32, 34, 97, 32, 98, 34]

theorem quotedLine_lex : Lex quotedLine [[108, 115], [97, 32, 98]] none := by
  refine Lex.word (c := 108) (w := [115]) (by decide) (by simp) ?_
  exact Lex.quoted (q := [97, 32, 98]) (by simp) .nil

theorem cmd_parse_tokens_quoted : ∃ s, cmdParse (quotedLine ++ [0]) (fun _ => none) = .ok s ∧ s.argc = 2 ∧
    (∀ i (h : i < 2), ∃ p, s.argv i = some p ∧
      StringAt s.buf p ([[108, 115], [97, 32, 98]] : List (List UInt8))[i]) ∧ s.argv 2 = none :=
  cmd_parse_tokens quotedLine_lex (by simp [quotedLine]) (by decide) (fun _ => none)

/-! ### Every line -/

/-- `cmd_parse` touches nothing but the line and `argv`, and what `main` dispatches has a name. -/
structure Safe (line : List UInt8) : Prop where
  parses : ∀ argv, ∃ s, cmdParse (line ++ [0]) argv = .ok s
  named : ∀ argv s, mainRound (line ++ [0]) argv = .ok (some s) → s.argv 0 ≠ none

/-- The lines that the parser can hold: fewer than sixteen arguments, no open quote but at the very end, and an
argument unless the line is empty. -/
theorem cmd_parse_safe_iff (line : List UInt8) (hline : ∀ x ∈ line, x ≠ 0) : Safe line ↔
    ∃ ts tail, Lex line ts tail ∧ (∀ q, tail = some q → q = []) ∧ (texts ts tail).length < 16 ∧
      (texts ts tail = [] → line = []) := by
  constructor
  · intro h
    obtain ⟨ts, tail, hlex⟩ := exists_lex line
    have hfault := parse_lex_fault hlex ((line ++ [0]).length + 1) 0 (fun _ => none) []
    obtain ⟨s, hs⟩ := h.parses fun _ => none
    have htail : ∀ q, tail = some q → q = [] := by
      intro q hq
      cases q with
      | nil => rfl
      | cons c q => exact absurd hs (hfault s hline (Nat.zero_le _) (Or.inr ⟨c, q, hq⟩))
    have hfew : (texts ts tail).length < 16 := by
      by_contra hc
      exact absurd hs (hfault s hline (Nat.zero_le _) (Or.inl (by rw [Nat.zero_add]; exact Nat.le_of_not_lt hc)))
    refine ⟨ts, tail, hlex, htail, hfew, fun hempty => ?_⟩
    by_contra hne
    -- the line is not empty, so `main` goes on, and `argv[0]` is NULL
    obtain ⟨s, hs, hargc, -, hnull⟩ := cmdParse_spec hlex hline htail hfew fun _ => none
    rw [hempty] at hargc hnull
    cases line with
    | nil => exact hne rfl
    | cons c line =>
      refine h.named (fun _ => none) s ?_ hnull
      have hargc' : ¬ s.argc ≥ MAX_ARG_NR := by
        rw [hargc]
        decide
      have hload : load (c :: line ++ [0]) 0 = .ok c := rfl
      rw [mainRound, hload, ok_bind, if_neg (hline c (List.mem_cons_self ..)), hs, ok_bind, if_neg hargc']
  · rintro ⟨ts, tail, hlex, htail, hfew, hblank⟩
    refine ⟨fun argv => ?_, fun argv s hs hnull => ?_⟩
    · obtain ⟨s, hs, -⟩ := cmdParse_spec hlex hline htail hfew argv
      exact ⟨s, hs⟩
    · obtain ⟨s', hs', -, hfound, -⟩ := cmdParse_spec hlex hline htail hfew argv
      obtain ⟨c, hload, hs⟩ := bind_ok.mp hs
      split_ifs at hs with h0
      · cases hs
      obtain ⟨s'', hs'', hs⟩ := bind_ok.mp hs
      rw [hs'] at hs''
      cases hs''
      split_ifs at hs
      · cases hs
      cases hs
      have hpos : 0 < (texts ts tail).length := by
        rw [List.length_pos_iff]
        intro hempty
        rw [hblank hempty] at hload
        exact h0 (Except.ok.inj hload).symm
      obtain ⟨p, hp, -⟩ := hfound 0 hpos
      rw [hp] at hnull
      cases hnull

theorem cmd_parse_safe_quoted : Safe quotedLine :=
  (cmd_parse_safe_iff quotedLine (by simp [quotedLine])).mpr
    ⟨_, none, quotedLine_lex, (fun q hq => by cases hq), by decide, fun h => by cases h⟩

/-- `"a`: the text behind the quote is skipped beyond the end of the line. -/
theorem cmd_parse_overrun : ¬∀ line : List UInt8, (∀ x ∈ line, x ≠ 0) → Safe line := by
  intro hall
  obtain ⟨s, hs⟩ := (hall [34, 97] (by simp)).parses fun _ => none
  have herr : cmdParse ([34, 97] ++ [0]) (fun _ => none) = .error .read := rfl
  rw [herr] at hs
  cases hs

end Osh
end Onix
