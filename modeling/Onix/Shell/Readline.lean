import Onix.Lib.Bytes

/-! `readline` of osh.c, which edits a line in the buffer itself: a backspace steps back over the last
character, and the end of the line is marked where the next one would go. -/

set_option autoImplicit false

namespace Onix

namespace Osh

open Lib

/-- The locals of `readline`, and what it wrote to the screen. -/
structure Line where
  mem : ByteMem
  idx : UInt32
  out : List UInt8

/-- What the `n`-th `read` gives: a character, or an error. -/
abbrev Input := ℕ → Option UInt8

/-- The loop of `readline` from the `n`-th `read` on; the result are the memory, the screen and the number of reads.
It has none while it still waits for input. -/
def readlineLoop (buf : ℕ) (count : UInt32) (input : Input) : ℕ → ℕ → Line → Option (ByteMem × List UInt8 × ℕ)
  | 0, _, _ => none
  | fuel + 1, n, l =>
    if l.idx < count then
      let ptr := buf + l.idx.toNat
      match input n with
      | none => some (l.mem.put ptr [0], l.out, n + 1)
      | some c =>
        let mem := l.mem.put ptr [c]
        if mem ptr = 10 ∨ mem ptr = 13 then some (mem.put ptr [0], l.out ++ [10], n + 1)
        else if mem ptr = 8 then
          if mem buf ≠ 8 then readlineLoop buf count input fuel (n + 1) ⟨mem, l.idx - 1, l.out ++ [8]⟩
          else readlineLoop buf count input fuel (n + 1) ⟨mem, l.idx, l.out⟩
        else readlineLoop buf count input fuel (n + 1) ⟨mem, l.idx + 1, l.out ++ [mem ptr]⟩
    else some (l.mem, l.out, n)

def readline (mem : ByteMem) (buf : ℕ) (count : UInt32) (input : Input) (fuel : ℕ) :
    Option (ByteMem × List UInt8 × ℕ) :=
  readlineLoop buf count input fuel 0 ⟨mem.put buf (List.replicate count.toNat 0), 0, []⟩

/-! ### Editing -/

/-- The line after one more character. -/
def edit (kept : List UInt8) (c : UInt8) : List UInt8 := if c = 8 then kept.dropLast else kept ++ [c]

/-- The characters of the line after `n` reads. -/
def kept (input : Input) : ℕ → List UInt8
  | 0 => []
  | n + 1 => (input n).elim (kept input n) (edit (kept input n))

/-- The `n`-th read ends the line: a newline, a carriage return or an error. -/
def Ends (input : Input) (n : ℕ) : Prop := ∀ c, input n = some c → c = 10 ∨ c = 13

/-- After `n` reads the line is at its end or as long as the buffer, and it was neither before. -/
structure Stops (input : Input) (count n : ℕ) : Prop where
  before : ∀ m < n, ¬ Ends input m ∧ (kept input m).length < count
  now : Ends input n ∨ (kept input n).length = count

/-- The buffer holds the string, with its NUL. -/
def HoldsString (mem : ByteMem) (buf count : ℕ) (s : List UInt8) : Prop :=
  s.length < count ∧ mem.Holds buf (s ++ [0])

/-- `readline` ends when the line is at its end or the buffer is full and not otherwise, writes nothing but the
buffer, and leaves the line in it. -/
structure Edits (input : Input) (count : UInt32) : Prop where
  ends : ∀ mem buf n, Stops input count.toNat n → ∃ fuel mem' out reads,
    readline mem buf count input fuel = some (mem', out, reads) ∧
      (∀ a, a < buf ∨ buf + count.toNat ≤ a → mem' a = mem a) ∧ HoldsString mem' buf count.toNat (kept input n)
  waits : ∀ mem buf fuel r, readline mem buf count input fuel = some r → ∃ n, Stops input count.toNat n

theorem mem_kept {input : Input} : ∀ {n : ℕ} {c : UInt8}, c ∈ kept input n → c ≠ 8
  | 0, _, h => absurd h (List.not_mem_nil)
  | n + 1, c, h => by
    rw [kept] at h
    cases hi : input n with
    | none =>
      rw [hi] at h
      exact mem_kept h
    | some d =>
      rw [hi] at h
      change c ∈ edit (kept input n) d at h
      unfold edit at h
      split_ifs at h with h8
      · exact mem_kept (List.dropLast_subset _ h)
      · rcases List.mem_append.mp h with h | h
        · exact mem_kept h
        · rw [List.mem_singleton] at h
          rwa [h]

/-- What the loop knows before the `n`-th read. -/
structure Editing (mem₀ : ByteMem) (buf : ℕ) (count : UInt32) (input : Input) (n : ℕ) (l : Line) : Prop where
  idx : l.idx.toNat = (kept input n).length
  le : (kept input n).length ≤ count.toNat
  text : l.mem.Holds buf (kept input n)
  frame : ∀ a, a < buf ∨ buf + count.toNat ≤ a → l.mem a = mem₀ a

section

variable {mem₀ : ByteMem} {buf n : ℕ} {count : UInt32} {input : Input} {l : Line}

/-- The byte at `ptr` is not one of the characters yet. -/
theorem Editing.put (h : Editing mem₀ buf count input n l) (hlt : (kept input n).length < count.toNat) (c : UInt8) :
    Editing mem₀ buf count input n { l with mem := l.mem.put (buf + l.idx.toNat) [c] } where
  idx := h.idx
  le := h.le
  text := h.text.put_frame (Or.inl (by rw [h.idx]))
  frame a ha := by
    dsimp only
    rw [ByteMem.put_of_outside (by rw [List.length_singleton, h.idx]; omega)]
    exact h.frame a ha

theorem Editing.holds_put (h : Editing mem₀ buf count input n l) (c : UInt8) :
    (l.mem.put (buf + l.idx.toNat) [c]).Holds buf (kept input n ++ [c]) := by
  rw [ByteMem.holds_append]
  refine ⟨h.text.put_frame (Or.inl (by rw [h.idx])), ?_⟩
  rw [← h.idx]
  exact ByteMem.holds_put

/-- A character is one more of the line. -/
theorem Editing.typed {c : UInt8} (h : Editing mem₀ buf count input n l) (hlt : (kept input n).length < count.toNat)
    (hi : input n = some c) (hc : c ≠ 8) (out : List UInt8) :
    Editing mem₀ buf count input (n + 1) ⟨l.mem.put (buf + l.idx.toNat) [c], l.idx + 1, out⟩ := by
  have hedit : kept input (n + 1) = kept input n ++ [c] := by
    rw [kept, hi]
    exact if_neg hc
  have hone : (l.idx + 1).toNat = l.idx.toNat + 1 := by
    have := count.toNat_lt
    rw [UInt32.toNat_add]
    simp only [UInt32.reduceToNat]
    rw [h.idx]
    omega
  refine ⟨?_, ?_, ?_, (h.put hlt c).frame⟩
  · rw [hedit, hone, h.idx, List.length_append, List.length_singleton]
  · rw [hedit, List.length_append, List.length_singleton]
    omega
  · rw [hedit]
    exact h.holds_put c

/-- A backspace takes the last character, and the first byte of the buffer is still the first character. -/
theorem Editing.erased (h : Editing mem₀ buf count input n l) (hlt : (kept input n).length < count.toNat)
    (hi : input n = some 8) (hne : kept input n ≠ []) (out : List UInt8) :
    l.mem.put (buf + l.idx.toNat) [8] buf ≠ 8 ∧
      Editing mem₀ buf count input (n + 1) ⟨l.mem.put (buf + l.idx.toNat) [8], l.idx - 1, out⟩ := by
  have hpos : 0 < (kept input n).length := List.length_pos_iff.mpr hne
  have hbytes := h.holds_put 8
  have hedit : kept input (n + 1) = (kept input n).dropLast := by
    rw [kept, hi]
    rfl
  have hone : (l.idx - 1).toNat = l.idx.toNat - 1 := by
    rw [UInt32.toNat_sub_of_le _ _ (by rw [UInt32.le_iff_toNat_le, h.idx]; exact hpos)]
    rfl
  refine ⟨?_, ?_, ?_, ?_, (h.put hlt 8).frame⟩
  · have hb := hbytes 0 (by simp)
    rw [Nat.add_zero, List.getElem_append_left hpos] at hb
    rw [hb]
    exact mem_kept (List.getElem_mem hpos)
  · rw [hedit, List.length_dropLast, hone, h.idx]
  · rw [hedit, List.length_dropLast]
    omega
  · rw [hedit]
    intro i hi
    rw [List.length_dropLast] at hi
    dsimp only
    rw [hbytes i (by simp; omega), List.getElem_append_left (by omega), List.getElem_dropLast]

/-- With no character left the backspace itself is the first byte of the buffer. -/
theorem Editing.empty (h : Editing mem₀ buf count input n l) (hlt : (kept input n).length < count.toNat)
    (hi : input n = some 8) (hempty : kept input n = []) (out : List UInt8) :
    l.mem.put (buf + l.idx.toNat) [8] buf = 8 ∧
      Editing mem₀ buf count input (n + 1) ⟨l.mem.put (buf + l.idx.toNat) [8], l.idx, out⟩ := by
  have hedit : kept input (n + 1) = kept input n := by
    rw [kept, hi, hempty]
    rfl
  have hz : l.idx.toNat = 0 := by rw [h.idx, hempty, List.length_nil]
  refine ⟨by simp [ByteMem.put, hz], ?_, ?_, ?_, (h.put hlt 8).frame⟩
  · rw [hedit]
    exact h.idx
  · rw [hedit]
    exact h.le
  · rw [hedit]
    exact (h.put hlt 8).text

/-- A read that does not end the line. -/
theorem readline_step (h : Editing mem₀ buf count input n l) (hend : ¬ Ends input n)
    (hlt : (kept input n).length < count.toNat) : ∃ l', Editing mem₀ buf count input (n + 1) l' ∧
      ∀ fuel, readlineLoop buf count input (fuel + 1) n l = readlineLoop buf count input fuel (n + 1) l' := by
  obtain ⟨c, hc, h10, h13⟩ : ∃ c, input n = some c ∧ c ≠ 10 ∧ c ≠ 13 := by
    simpa [Ends] using hend
  have hidx : l.idx < count := by
    rw [UInt32.lt_iff_toNat_lt, h.idx]
    exact hlt
  have hput : l.mem.put (buf + l.idx.toNat) [c] (buf + l.idx.toNat) = c := by simp [ByteMem.put]
  have hloop : ∀ fuel, readlineLoop buf count input (fuel + 1) n l =
      if c = 8 then
        if l.mem.put (buf + l.idx.toNat) [c] buf ≠ 8 then
          readlineLoop buf count input fuel (n + 1) ⟨l.mem.put (buf + l.idx.toNat) [c], l.idx - 1, l.out ++ [8]⟩
        else readlineLoop buf count input fuel (n + 1) ⟨l.mem.put (buf + l.idx.toNat) [c], l.idx, l.out⟩
      else readlineLoop buf count input fuel (n + 1)
        ⟨l.mem.put (buf + l.idx.toNat) [c], l.idx + 1, l.out ++ [c]⟩ := by
    intro fuel
    rw [readlineLoop, if_pos hidx, hc]
    simp only [hput, h10, h13, or_self, if_false]
  by_cases h8 : c = 8
  · subst h8
    by_cases hempty : kept input n = []
    · obtain ⟨hfirst, hl⟩ := h.empty hlt hc hempty l.out
      exact ⟨_, hl, fun fuel => by rw [hloop, if_pos rfl, if_neg (not_not_intro hfirst)]⟩
    · obtain ⟨hfirst, hl⟩ := h.erased hlt hc hempty (l.out ++ [8])
      exact ⟨_, hl, fun fuel => by rw [hloop, if_pos rfl, if_pos hfirst]⟩
  · exact ⟨_, h.typed hlt hc h8 (l.out ++ [c]), fun fuel => by rw [hloop, if_neg h8]⟩

/-- The NUL at `ptr` ends the line. -/
theorem Editing.terminated (h : Editing mem₀ buf count input n l) (hlt : (kept input n).length < count.toNat) :
    (∀ a, a < buf ∨ buf + count.toNat ≤ a → l.mem.put (buf + l.idx.toNat) [0] a = mem₀ a) ∧
      HoldsString (l.mem.put (buf + l.idx.toNat) [0]) buf count.toNat (kept input n) :=
  ⟨(h.put hlt 0).frame, hlt, h.holds_put 0⟩

/-- The read that ends the line puts the NUL behind its characters. -/
theorem readline_end (h : Editing mem₀ buf count input n l) (hend : Ends input n)
    (hlt : (kept input n).length < count.toNat) (fuel : ℕ) :
    ∃ mem' out, readlineLoop buf count input (fuel + 1) n l = some (mem', out, n + 1) ∧
      (∀ a, a < buf ∨ buf + count.toNat ≤ a → mem' a = mem₀ a) ∧ HoldsString mem' buf count.toNat (kept input n) := by
  have hidx : l.idx < count := by
    rw [UInt32.lt_iff_toNat_lt, h.idx]
    exact hlt
  rw [readlineLoop, if_pos hidx]
  cases hi : input n with
  | none => exact ⟨_, _, rfl, h.terminated hlt⟩
  | some c =>
    have hput : l.mem.put (buf + l.idx.toNat) [c] (buf + l.idx.toNat) = c := by simp [ByteMem.put]
    simp only [hput, hend c hi, if_true]
    -- the byte that ended the line is there before the NUL
    exact ⟨_, _, rfl, (h.put hlt c).terminated hlt⟩

end

theorem readline_start (mem : ByteMem) (buf : ℕ) (count : UInt32) (input : Input) :
    Editing mem buf count input 0 ⟨mem.put buf (List.replicate count.toNat 0), 0, []⟩ :=
  ⟨rfl, Nat.zero_le _, ByteMem.holds_nil, fun a ha => ByteMem.put_of_outside (by rwa [List.length_replicate])⟩

/-- Reads that neither end the line nor fill the buffer. -/
theorem readline_run {mem₀ : ByteMem} {buf : ℕ} {count : UInt32} {input : Input} {l : Line}
    (h : Editing mem₀ buf count input 0 l) : ∀ n, (∀ m < n, ¬ Ends input m ∧ (kept input m).length < count.toNat) →
    ∃ l', Editing mem₀ buf count input n l' ∧
      ∀ fuel, readlineLoop buf count input (fuel + n) 0 l = readlineLoop buf count input fuel n l'
  | 0, _ => ⟨l, h, fun _ => rfl⟩
  | n + 1, hbefore => by
    obtain ⟨l', h', heq⟩ := readline_run h n fun m hm => hbefore m (by omega)
    obtain ⟨hend, hlt⟩ := hbefore n (by omega)
    obtain ⟨l'', h'', hstep⟩ := readline_step h' hend hlt
    refine ⟨l'', h'', fun fuel => ?_⟩
    rw [← hstep, ← heq, Nat.add_right_comm, Nat.add_assoc]

theorem readline_stops {mem₀ : ByteMem} {buf : ℕ} {count : UInt32} {input : Input} :
    ∀ (fuel n : ℕ) (l : Line) (r : ByteMem × List UInt8 × ℕ), Editing mem₀ buf count input n l →
      (∀ m < n, ¬ Ends input m ∧ (kept input m).length < count.toNat) →
      readlineLoop buf count input fuel n l = some r → ∃ n', Stops input count.toNat n'
  | 0, _, _, _, _, _, h => by cases h
  | fuel + 1, n, l, r, he, hbefore, h => by
    by_cases hend : Ends input n
    · exact ⟨n, hbefore, Or.inl hend⟩
    by_cases hfull : (kept input n).length = count.toNat
    · exact ⟨n, hbefore, Or.inr hfull⟩
    have hle := he.le
    have hlt : (kept input n).length < count.toNat := by omega
    obtain ⟨l', he', hstep⟩ := readline_step he hend hlt
    rw [hstep] at h
    refine readline_stops fuel (n + 1) l' r he' (fun m hm => ?_) h
    by_cases hmn : m = n
    · rw [hmn]
      exact ⟨hend, hlt⟩
    · exact hbefore m (by omega)

theorem length_kept_succ (input : Input) (n : ℕ) : (kept input (n + 1)).length ≤ (kept input n).length + 1 := by
  rw [kept]
  cases input n with
  | none => exact Nat.le_succ _
  | some c =>
    change (edit (kept input n) c).length ≤ _
    unfold edit
    split_ifs
    · rw [List.length_dropLast]
      omega
    · rw [List.length_append, List.length_singleton]

/-- `readline` leaves the edited line in the buffer exactly if the line ends before the buffer is full. -/
theorem readline_edits_iff (input : Input) (count : UInt32) (hcount : 0 < count) :
    Edits input count ↔ ∀ n, (∀ m < n, ¬ Ends input m) → (kept input n).length < count.toNat := by
  constructor
  · intro h n
    induction n using Nat.strong_induction_on with
    | _ n ih =>
      intro hends
      have hbefore : ∀ m < n, ¬ Ends input m ∧ (kept input m).length < count.toNat := fun m hm =>
        ⟨hends m hm, ih m hm fun m' hm' => hends m' (by omega)⟩
      by_contra hc
      have hfull : (kept input n).length = count.toNat := by
        cases n with
        | zero =>
          have := UInt32.lt_iff_toNat_lt.mp hcount
          exact absurd this hc
        | succ n =>
          have := length_kept_succ input n
          have := (hbefore n (by omega)).2
          omega
      obtain ⟨fuel, mem', out, reads, -, -, hlt, -⟩ := h.ends (fun _ => 0) 0 n ⟨hbefore, Or.inr hfull⟩
      omega
  · intro hall
    refine ⟨fun mem buf n hs => ?_, fun mem buf fuel r hr => ?_⟩
    · obtain ⟨l, hl, heq⟩ := readline_run (readline_start mem buf count input) n hs.before
      have hlt := hall n fun m hm => (hs.before m hm).1
      have hend := hs.now.resolve_right (by omega)
      obtain ⟨mem', out, hrun, hframe, hstring⟩ := readline_end hl hend hlt 0
      exact ⟨0 + 1 + n, mem', out, n + 1, by rw [readline, heq, hrun], hframe, hstring⟩
    · exact readline_stops fuel 0 _ r (readline_start mem buf count input)
        (fun m hm => absurd hm (Nat.not_lt_zero m)) hr

/-- Letters without end. -/
def letters : Input := fun _ => some 97

theorem kept_letters (n : ℕ) : (kept letters n).length = n := by
  induction n with
  | zero => rfl
  | succ n ih =>
    change (edit (kept letters n) 97).length = n + 1
    rw [edit, if_neg (by decide), List.length_append, ih, List.length_singleton]

/-- `ls`, a backspace, and a newline. -/
def typed : Input := fun n => [some 108, some 115, some 8].getD n (some 10)

theorem readline_edits_typed : Edits typed 256 := by
  refine (readline_edits_iff typed 256 (by decide)).mpr fun n hn => ?_
  have hle : n ≤ 3 := by
    by_contra hc
    exact hn 3 (by omega) fun c hc => Or.inl (Option.some.inj hc).symm
  have hkept : (kept typed n).length ≤ n := by
    clear hn hle
    induction n with
    | zero => exact le_rfl
    | succ n ih =>
      have := length_kept_succ typed n
      omega
  have h256 : (256 : UInt32).toNat = 256 := rfl
  omega

/-- A line of 256 letters has no NUL. -/
theorem readline_unterminated : ¬∀ (input : Input) (count : UInt32), 0 < count → Edits input count := by
  intro hall
  have hstop : Stops letters (256 : UInt32).toNat 256 := by
    refine ⟨fun m hm => ⟨fun hend => ?_, ?_⟩, Or.inr (kept_letters 256)⟩
    · exact absurd (hend 97 rfl) (by decide)
    · rw [kept_letters]
      exact hm
  obtain ⟨fuel, mem', out, reads, -, -, hlt, -⟩ := (hall letters 256 (by decide)).ends (fun _ => 0) 0 256 hstop
  rw [kept_letters] at hlt
  exact absurd hlt (by decide)

end Osh
end Onix
