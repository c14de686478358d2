import Mathlib.Tactic

/-! The console of console.c: a window of 25 rows that moves down through the memory of the video card, one row for
each line feed on its last row, and starts again at the top when it comes to the end. -/

set_option autoImplicit false

namespace Onix

def MEM_BASE : ℕ := 0xB8000
def MEM_SIZE : ℕ := 0x4000
def MEM_END : ℕ := MEM_BASE + MEM_SIZE
def WIDTH : ℕ := 80
def HEIGHT : ℕ := 25
def ROW_SIZE : ℕ := WIDTH * 2
def SCR_SIZE : ℕ := ROW_SIZE * HEIGHT

def ASCII_NUL : UInt8 := 0x00
def ASCII_ENQ : UInt8 := 0x05
def ASCII_BEL : UInt8 := 0x07
def ASCII_BS : UInt8 := 0x08
def ASCII_HT : UInt8 := 0x09
def ASCII_LF : UInt8 := 0x0A
def ASCII_VT : UInt8 := 0x0B
def ASCII_FF : UInt8 := 0x0C
def ASCII_CR : UInt8 := 0x0D
def ASCII_DEL : UInt8 := 0x7F

/-- `attr` -/
def attr : UInt8 := 7

/-- The two bytes of `erase`. -/
def erase : List UInt8 := [0x20, 0x07]

/-- The static variables of console.c, and the memory. `written` is a record: the address and the length of each
write to it. -/
structure Console where
  screen : ℕ
  pos : ℕ
  x : ℕ
  y : ℕ
  memory : ℕ → UInt8
  written : List (ℕ × ℕ)

namespace Console

def store (s : Console) (addr : ℕ) (bytes : List UInt8) : Console :=
  { s with
    memory := fun i => if addr ≤ i ∧ i < addr + bytes.length then bytes.getD (i - addr) 0 else s.memory i
    written := s.written ++ [(addr, bytes.length)] }

/-- `erase`, `n` times in a row. -/
def blanks (n : ℕ) : List UInt8 := (List.replicate n erase).flatten

def consoleClear (s : Console) : Console :=
  { s with screen := MEM_BASE, pos := MEM_BASE, x := 0, y := 0 }.store MEM_BASE (blanks (MEM_SIZE / 2))

def commandBs (s : Console) : Console :=
  if s.x ≠ 0 then { s with x := s.x - 1, pos := s.pos - 2 }.store (s.pos - 2) erase else s

/-- The window starts again at the top. -/
def rewind (s : Console) : Console :=
  if s.screen + SCR_SIZE + 1 ≥ MEM_END then
    let s := s.store MEM_BASE ((List.range SCR_SIZE).map fun i => s.memory (s.screen + i))
    { s with pos := s.pos - (s.screen - MEM_BASE), screen := MEM_BASE }
  else s

def scrollUp (s : Console) : Console :=
  let s := s.rewind
  let s := s.store (s.screen + SCR_SIZE) (blanks WIDTH)
  { s with screen := s.screen + ROW_SIZE, pos := s.pos + ROW_SIZE }

def commandLf (s : Console) : Console :=
  if s.y + 1 < HEIGHT then { s with y := s.y + 1, pos := s.pos + ROW_SIZE } else s.scrollUp

def commandCr (s : Console) : Console := { s with pos := s.pos - 2 * s.x, x := 0 }

def commandDel (s : Console) : Console := s.store s.pos erase

/-- The `default` of `console_write`. -/
def putChar (s : Console) (ch : UInt8) : Console :=
  let s := if s.x ≥ WIDTH then s.commandLf.commandCr else s
  { s.store s.pos [ch, attr] with pos := s.pos + 2, x := s.x + 1 }

/-- A round of the loop of `console_write`. -/
def command (s : Console) (ch : UInt8) : Console :=
  if ch = ASCII_NUL ∨ ch = ASCII_ENQ ∨ ch = ASCII_BEL ∨ ch = ASCII_HT ∨ ch = ASCII_VT then s
  else if ch = ASCII_BS then s.commandBs
  else if ch = ASCII_LF then s.commandLf.commandCr
  else if ch = ASCII_FF then s.commandLf
  else if ch = ASCII_CR then s.commandCr
  else if ch = ASCII_DEL then s.commandDel
  else s.putChar ch

/-- `console_write`. What it returns is `count` after the loop `while (count--)`. -/
def consoleWrite (s : Console) (buf : List UInt8) : UInt32 × Console := (0 - 1, buf.foldl command s)

/-- Window and cursor stand in the memory of the card, and nothing was written outside of it. -/
structure Geometry (s : Console) : Prop where
  top : MEM_BASE ≤ s.screen
  bottom : s.screen + SCR_SIZE ≤ MEM_END
  row : s.y < HEIGHT
  column : s.x ≤ WIDTH
  cursor : s.pos = s.screen + ROW_SIZE * s.y + 2 * s.x
  written : ∀ w ∈ s.written, MEM_BASE ≤ w.1 ∧ w.1 + w.2 ≤ MEM_END

/-! ### The text alone -/

/-- Where a text stands: its column, and how many lines it has gone down. -/
structure Caret where
  column : ℕ
  lines : ℕ

def Caret.next (c : Caret) (ch : UInt8) : Caret :=
  if ch = ASCII_NUL ∨ ch = ASCII_ENQ ∨ ch = ASCII_BEL ∨ ch = ASCII_HT ∨ ch = ASCII_VT then c
  else if ch = ASCII_BS then ⟨c.column - 1, c.lines⟩
  else if ch = ASCII_LF then ⟨0, c.lines + 1⟩
  else if ch = ASCII_FF then ⟨c.column, c.lines + 1⟩
  else if ch = ASCII_CR then ⟨0, c.lines⟩
  else if ch = ASCII_DEL then c
  else if c.column ≥ WIDTH then ⟨1, c.lines + 1⟩
  else ⟨c.column + 1, c.lines⟩

/-- The lines that a text goes down: at each line feed and form feed, and behind each full row. -/
def lines (text : List UInt8) : ℕ := (text.foldl Caret.next ⟨0, 0⟩).lines

/-- The lines before the window leaves the memory: 24 on the first screen, and 77 rows that fit below it. -/
def MAX_LINES : ℕ := HEIGHT - 1 + (MEM_SIZE - SCR_SIZE) / ROW_SIZE

variable {s : Console} {c : Caret}

/-- The console is where the text is, and the window has moved down by the lines that are out of sight. -/
structure At (c : Caret) (s : Console) : Prop where
  few : c.lines ≤ MAX_LINES
  screen : s.screen = MEM_BASE + ROW_SIZE * (c.lines + 1 - HEIGHT)
  row : s.y = min c.lines (HEIGHT - 1)
  column : s.x = c.column
  width : c.column ≤ WIDTH
  cursor : s.pos = s.screen + ROW_SIZE * s.y + 2 * s.x
  written : ∀ w ∈ s.written, MEM_BASE ≤ w.1 ∧ w.1 + w.2 ≤ MEM_END

theorem At.geometry (h : At c s) : s.Geometry := by
  obtain ⟨hfew, hscreen, hrow, hcolumn, hwidth, hcursor, hwritten⟩ := h
  refine ⟨?_, ?_, ?_, by omega, hcursor, hwritten⟩
  all_goals
    simp only [MAX_LINES, MEM_END, MEM_BASE, MEM_SIZE, SCR_SIZE, ROW_SIZE, HEIGHT, WIDTH] at *
    omega

@[simp] theorem blanks_length (n : ℕ) : (blanks n).length = 2 * n := by
  simp [blanks, erase, Nat.mul_comm]

theorem inside_append {ws : List (ℕ × ℕ)} {addr len : ℕ} (h : ∀ w ∈ ws, MEM_BASE ≤ w.1 ∧ w.1 + w.2 ≤ MEM_END)
    (hlo : MEM_BASE ≤ addr) (hhi : addr + len ≤ MEM_END) :
    ∀ w ∈ ws ++ [(addr, len)], MEM_BASE ≤ w.1 ∧ w.1 + w.2 ≤ MEM_END := by
  intro w hw
  rcases List.mem_append.mp hw with hw | hw
  · exact h w hw
  · rw [List.mem_singleton.mp hw]
    exact ⟨hlo, hhi⟩

theorem clear_at (s : Console) : At ⟨0, 0⟩ ({ s with written := [] }).consoleClear := by
  refine ⟨Nat.zero_le _, rfl, rfl, rfl, Nat.zero_le _, rfl, ?_⟩
  apply inside_append (List.forall_mem_nil _) le_rfl
  rw [blanks_length]
  decide

/-- Within the lines the window never starts again at the top. -/
theorem At.rewind_eq (h : At c s) : s.rewind = s := by
  apply if_neg
  have hscreen := h.screen
  have hfew := h.few
  simp only [MAX_LINES, MEM_END, MEM_BASE, MEM_SIZE, SCR_SIZE, ROW_SIZE, HEIGHT, WIDTH] at *
  omega

/-- On its last row the console scrolls. -/
theorem At.commandLf_eq (h : At c s) (hlast : HEIGHT - 1 ≤ c.lines) : s.commandLf =
    { s.store (s.screen + SCR_SIZE) (blanks WIDTH) with screen := s.screen + ROW_SIZE, pos := s.pos + ROW_SIZE } := by
  have hrow := h.row
  rw [commandLf, if_neg (by omega), scrollUp, h.rewind_eq]
  rfl

theorem At.lf (h : At c s) (hfew : c.lines + 1 ≤ MAX_LINES) : At ⟨c.column, c.lines + 1⟩ s.commandLf := by
  have hrow := h.row
  have hscreen := h.screen
  have hcursor := h.cursor
  by_cases hlast : HEIGHT - 1 ≤ c.lines
  · have hlines : c.lines + 1 + 1 - HEIGHT = c.lines + 1 - HEIGHT + 1 := by
      unfold HEIGHT at *
      omega
    rw [h.commandLf_eq hlast]
    refine ⟨hfew, ?_, ?_, h.column, h.width, ?_, inside_append h.written ?_ ?_⟩
    · change s.screen + ROW_SIZE = MEM_BASE + ROW_SIZE * (c.lines + 1 + 1 - HEIGHT)
      rw [hscreen, hlines, Nat.mul_add, Nat.mul_one, Nat.add_assoc]
    · rw [Nat.min_eq_right hlast] at hrow
      rw [Nat.min_eq_right (Nat.le_succ_of_le hlast)]
      exact hrow
    · change s.pos + ROW_SIZE = s.screen + ROW_SIZE + ROW_SIZE * s.y + 2 * s.x
      omega
    · rw [hscreen]
      omega
    · rw [blanks_length, hscreen]
      simp only [MAX_LINES, MEM_END, MEM_BASE, MEM_SIZE, SCR_SIZE, ROW_SIZE, HEIGHT, WIDTH] at *
      omega
  · have hnext : s.y + 1 < HEIGHT := by omega
    rw [commandLf, if_pos hnext]
    refine ⟨hfew, ?_, ?_, h.column, h.width, ?_, h.written⟩
    · change s.screen = MEM_BASE + ROW_SIZE * (c.lines + 1 + 1 - HEIGHT)
      have hfirst : c.lines + 1 + 1 - HEIGHT = 0 ∧ c.lines + 1 - HEIGHT = 0 := by omega
      rw [hscreen, hfirst.1, hfirst.2]
    · change s.y + 1 = min (c.lines + 1) (HEIGHT - 1)
      omega
    · change s.pos + ROW_SIZE = s.screen + ROW_SIZE * (s.y + 1) + 2 * s.x
      rw [Nat.mul_add]
      omega

theorem At.cr (h : At c s) : At ⟨0, c.lines⟩ s.commandCr := by
  have hcursor := h.cursor
  refine ⟨h.few, h.screen, h.row, rfl, Nat.zero_le _, ?_, h.written⟩
  change s.pos - 2 * s.x = s.screen + ROW_SIZE * s.y + 2 * 0
  omega

/-- Two bytes at the cursor lie in the memory, even behind the last column. -/
theorem At.store (h : At c s) {addr : ℕ} (hlo : s.screen ≤ addr) (hhi : addr ≤ s.pos) {bytes : List UInt8}
    (hlen : bytes.length = 2) : At c (s.store addr bytes) := by
  refine ⟨h.few, h.screen, h.row, h.column, h.width, h.cursor, inside_append h.written ?_ ?_⟩
  · have hscreen := h.screen
    omega
  · obtain ⟨hfew, hscreen, hrow, hcolumn, hwidth, hcursor, -⟩ := h
    rw [hlen]
    simp only [MAX_LINES, MEM_END, MEM_BASE, MEM_SIZE, SCR_SIZE, ROW_SIZE, HEIGHT, WIDTH] at *
    omega

theorem At.pos_le (h : At c s) : s.screen ≤ s.pos := by
  have hcursor := h.cursor
  omega

theorem At.bs (h : At c s) : At ⟨c.column - 1, c.lines⟩ s.commandBs := by
  have hcursor := h.cursor
  have hcolumn := h.column
  have hwidth := h.width
  unfold commandBs
  split_ifs with hx
  · refine ⟨h.few, h.screen, h.row, ?_, (Nat.sub_le _ _).trans hwidth, ?_, ?_⟩
    · change s.x - 1 = c.column - 1
      omega
    · change s.pos - 2 = s.screen + ROW_SIZE * s.y + 2 * (s.x - 1)
      omega
    · exact (h.store (by omega) (by omega) rfl).written
  · have hzero : c.column - 1 = c.column := by omega
    rw [hzero]
    exact h

theorem At.put (h : At c s) (hx : c.column < WIDTH) (ch : UInt8) : At ⟨c.column + 1, c.lines⟩
    { s.store s.pos [ch, attr] with pos := s.pos + 2, x := s.x + 1 } := by
  have hcursor := h.cursor
  have hstored : At c (s.store s.pos [ch, attr]) := h.store h.pos_le le_rfl rfl
  refine ⟨h.few, h.screen, h.row, ?_, hx, ?_, hstored.written⟩
  · change s.x + 1 = c.column + 1
    rw [h.column]
  · change s.pos + 2 = s.screen + ROW_SIZE * s.y + 2 * (s.x + 1)
    omega

/-- As long as the lines last, each byte moves the console as it moves the text. -/
theorem At.command (h : At c s) (ch : UInt8) (hfew : (c.next ch).lines ≤ MAX_LINES) :
    At (c.next ch) (s.command ch) := by
  unfold Caret.next at hfew ⊢
  unfold Console.command putChar
  split_ifs at hfew ⊢ with h1 h2 h3 h4 h5 h6 h7 h8 h8
  · exact h
  · exact h.bs
  · exact (h.lf hfew).cr
  · exact h.lf hfew
  · exact h.cr
  · exact h.store h.pos_le le_rfl rfl
  · exact (h.lf hfew).cr.put (show 0 < WIDTH by decide) ch
  · exact absurd (h.column ▸ h7) h8
  · exact absurd (h.column ▸ h8) h7
  · exact h.put (not_le.mp h7) ch

/-! ### The first row below the memory -/

theorem next_lines (c : Caret) (ch : UInt8) : c.lines ≤ (c.next ch).lines ∧ (c.next ch).lines ≤ c.lines + 1 := by
  unfold Caret.next
  split_ifs <;> exact ⟨by simp, by simp⟩

theorem lines_mono (text : List UInt8) (c : Caret) : c.lines ≤ (text.foldl Caret.next c).lines := by
  induction text generalizing c with
  | nil => exact le_rfl
  | cons ch text ih => exact (next_lines c ch).1.trans (ih _)

/-- A line more, and the row below the screen is not in the memory. -/
theorem At.lf_past (h : At c s) (hlast : c.lines = MAX_LINES) :
    (s.screen + SCR_SIZE, 2 * WIDTH) ∈ s.commandLf.written ∧ MEM_END < s.screen + SCR_SIZE + 2 * WIDTH := by
  have hscreen := h.screen
  constructor
  · rw [h.commandLf_eq (hlast ▸ by decide)]
    change _ ∈ s.written ++ [(s.screen + SCR_SIZE, (blanks WIDTH).length)]
    rw [blanks_length]
    exact List.mem_append_right _ List.mem_cons_self
  · rw [hscreen, hlast]
    decide

theorem mem_store {w : ℕ × ℕ} (h : w ∈ s.written) (addr : ℕ) (bytes : List UInt8) : w ∈ (s.store addr bytes).written :=
  List.mem_append_left _ h

theorem mem_rewind {w : ℕ × ℕ} (h : w ∈ s.written) : w ∈ s.rewind.written := by
  unfold rewind
  split_ifs
  · exact mem_store h _ _
  · exact h

theorem mem_lf {w : ℕ × ℕ} (h : w ∈ s.written) : w ∈ s.commandLf.written := by
  unfold commandLf
  split_ifs
  · exact h
  · simp only [scrollUp, store]
    exact List.mem_append_left _ (mem_rewind h)

/-- What was written stays in the record. -/
theorem mem_command {w : ℕ × ℕ} (h : w ∈ s.written) (ch : UInt8) : w ∈ (s.command ch).written := by
  unfold Console.command
  split_ifs
  · exact h
  · unfold commandBs
    split_ifs
    · exact mem_store h _ _
    · exact h
  · exact mem_lf h
  · exact mem_lf h
  · exact h
  · exact mem_store h _ _
  · unfold putChar
    dsimp only
    split_ifs
    · exact mem_store (s := s.commandLf.commandCr) (mem_lf h) _ _
    · exact mem_store h _ _

theorem mem_foldl {w : ℕ × ℕ} (text : List UInt8) (s : Console) (h : w ∈ s.written) :
    w ∈ (text.foldl command s).written := by
  induction text generalizing s with
  | nil => exact h
  | cons ch text ih => exact ih _ (mem_command h ch)

/-- The byte that goes down a line too many writes behind the memory. -/
theorem At.command_past (h : At c s) (ch : UInt8) (hmany : MAX_LINES < (c.next ch).lines) :
    (s.screen + SCR_SIZE, 2 * WIDTH) ∈ (s.command ch).written ∧ MEM_END < s.screen + SCR_SIZE + 2 * WIDTH := by
  have hfew := h.few
  have hlast : c.lines = MAX_LINES := by
    have := (next_lines c ch).2
    omega
  obtain ⟨hmem, hpast⟩ := h.lf_past hlast
  refine ⟨?_, hpast⟩
  unfold Caret.next at hmany
  unfold Console.command putChar
  split_ifs at hmany ⊢ with h1 h2 h3 h4 h5 h6 h7 h8 h8
  · exact absurd hfew (not_le.mpr hmany)
  · exact absurd hfew (not_le.mpr hmany)
  · exact hmem
  · exact hmem
  · exact absurd hfew (not_le.mpr hmany)
  · exact absurd hfew (not_le.mpr hmany)
  · exact mem_store (s := s.commandLf.commandCr) hmem _ _
  · exact absurd (h.column ▸ h7) h8
  · exact absurd (h.column ▸ h8) h7
  · exact absurd hfew (not_le.mpr hmany)

/-- The console is right behind a text just when the text has few enough lines. -/
theorem foldl_geometry (text : List UInt8) {c : Caret} {s : Console} (h : At c s) :
    (text.foldl command s).Geometry ↔ (text.foldl Caret.next c).lines ≤ MAX_LINES := by
  induction text generalizing c s with
  | nil => exact iff_of_true h.geometry h.few
  | cons ch text ih =>
    rw [List.foldl_cons, List.foldl_cons]
    by_cases hfew : (c.next ch).lines ≤ MAX_LINES
    · exact ih (h.command ch hfew)
    · obtain ⟨hmem, hpast⟩ := h.command_past ch (not_le.mp hfew)
      refine iff_of_false (fun hg => ?_) (fun hle => hfew ((lines_mono text _).trans hle))
      exact absurd (hg.written _ (mem_foldl text _ hmem)).2 (not_le.mpr hpast)

theorem foldl_calls (calls : List (List UInt8)) (s : Console) :
    calls.foldl (fun s buf => (s.consoleWrite buf).2) s = calls.flatten.foldl command s := by
  rw [List.foldl_flatten]
  rfl

/-- After `console_clear` and any calls of `console_write`, the console is right just when all that was written has at
most `MAX_LINES` lines. -/
theorem console_geometry (s : Console) (calls : List (List UInt8)) :
    (calls.foldl (fun s buf => (s.consoleWrite buf).2) ({ s with written := [] } : Console).consoleClear).Geometry ↔
      lines calls.flatten ≤ MAX_LINES := by
  rw [foldl_calls]
  exact foldl_geometry _ (clear_at s)

/-- 102 line feeds. -/
theorem console_leaves_memory : ¬ ∀ (s : Console) (calls : List (List UInt8)),
    (calls.foldl (fun s buf => (s.consoleWrite buf).2)
      ({ s with written := [] } : Console).consoleClear).Geometry := by
  intro h
  have hg := h ⟨0, 0, 0, 0, fun _ => 0, []⟩ [List.replicate 102 ASCII_LF]
  rw [foldl_calls] at hg
  have hlines := (foldl_geometry _ (clear_at _)).mp hg
  revert hlines
  decide

end Console
end Onix
