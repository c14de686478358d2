import Onix.Fs.Pipe

/-! Runs of the tasks that share a pipe. With one reader and one writer the stream
comes through; with more of them a call must not block where another task waits already,
and a woken task must not find its byte, or its slot, taken. -/

set_option autoImplicit false

namespace Onix.Pipe

open Lib

variable {T : Type} [DecidableEq T] {s s' : Pipe T}

/-- Nobody waits where the call may have to, and what a task was woken for is still there. -/
def Smooth (s : Pipe T) : Event T → Prop
  | .read _ count => count = 0 ∨ s.rxwaiter = none
  | .write _ buf => buf = [] ∨ s.txwaiter = none
  | .resume t =>
    match s.call t with
    | .reading _ _ => s.fifo.fifoEmpty = false
    | .writing _ _ => s.fifo.fifoFull = false
    | .outside => True

/-- What a step that does not halt amounts to. -/
inductive Outcome (s : Pipe T) : Event T → Option Obs → Pipe T → Prop
  | read {t : T} {count : ℕ} {ret : Option (List UInt8)} {s' : Pipe T} :
      s.call t = .outside → Reads s s' t count [] ret → Outcome s (.read t count) (ret.map .read) s'
  | write {t : T} {buf : List UInt8} {ret : Option ℕ} {s' : Pipe T} :
      s.call t = .outside → Writes s s' t buf 0 ret → Outcome s (.write t buf) (ret.map .write) s'
  | readOn {t : T} {buf : List UInt8} {left : ℕ} {ret : Option (List UInt8)} {s' : Pipe T} :
      s.call t = .reading buf left → Reads s s' t left buf ret → Outcome s (.resume t) (ret.map .read) s'
  | writeOn {t : T} {nr : ℕ} {buf : List UInt8} {ret : Option ℕ} {s' : Pipe T} :
      s.call t = .writing nr buf → Writes s s' t buf nr ret → Outcome s (.resume t) (ret.map .write) s'

omit [DecidableEq T] in
/-- A task that is not in a call does not sleep. -/
theorem Inv.awake (h : s.Inv) {t : T} (ht : s.call t = .outside) : s.blocked t = false := by
  cases hb : s.blocked t with
  | false => rfl
  | true =>
    rcases h.waits t hb with h1 | h1
    · obtain ⟨-, -, buf, left, hcall⟩ := h.rx t h1
      rw [ht] at hcall
      cases hcall
    · obtain ⟨-, -, nr, byte, rest, hcall⟩ := h.tx t h1
      rw [ht] at hcall
      cases hcall

omit [DecidableEq T] in
theorem Moves.awake (h : Moves s s') {t : T} (ht : s.blocked t = false) : s'.blocked t = false := by
  cases hb : s'.blocked t with
  | false => rfl
  | true =>
    rw [h.blocked t hb] at ht
    cases ht

theorem exec_spec (h : s.Inv) {e : Event T} (he : s.Enabled e) (hs : s.Smooth e) :
    ∃ obs s', s.exec e = .ok (obs, s') ∧ s'.Inv ∧ Outcome s e obs s' := by
  cases e with
  | read t count =>
    have hc : count ≤ s.fifo.size ∨ s.rxwaiter = none := hs.imp_left fun h0 => by omega
    obtain ⟨ret, s', hloop, hinv, w⟩ := readLoop_spec count [] h (h.awake he) hc
    exact ⟨_, s', by rw [exec, hloop]; rfl, hinv, .read he w⟩
  | write t buf =>
    have hc : buf.length ≤ s.room ∨ s.txwaiter = none := hs.imp_left fun h0 => by simp [h0]
    obtain ⟨ret, s', hloop, hinv, w⟩ := writeLoop_spec buf 0 h (h.awake he) hc
    exact ⟨_, s', by rw [exec, hloop]; rfl, hinv, .write he w⟩
  | resume t =>
    obtain ⟨hcall, hawake⟩ := he
    cases hin : s.call t with
    | outside => exact absurd hin hcall
    | reading buf left =>
      simp only [Smooth, hin] at hs
      cases left with
      | zero => exact absurd hin ((h.shape t).1 buf)
      | succ left =>
        obtain ⟨n, hn⟩ : ∃ n, s.fifo.size = n + 1 := by
          refine Nat.exists_eq_succ_of_ne_zero fun h0 => ?_
          rw [(Fifo.fifoEmpty_iff h.ok).mpr h0] at hs
          cases hs
        obtain ⟨byte, s₁, hread, hinv₁, hmove, hsize, htook, hgave, hrx, -⟩ := readByte_spec h hn
        have hnorx : s₁.rxwaiter = none := by
          rw [hrx]
          cases hr : s.rxwaiter with
          | none => rfl
          | some u =>
            have := (h.rx u hr).2.1
            omega
        obtain ⟨ret, s', hloop, hinv, w⟩ := readLoop_spec left (buf ++ [byte]) hinv₁ (hmove.awake hawake) (Or.inr hnorx)
        refine ⟨_, s', ?_, hinv, .readOn hin (w.cons h hn hmove hsize hgave htook)⟩
        simp only [exec, hin, hread, hloop, ok_bind]
    | writing nr buf =>
      simp only [Smooth, hin] at hs
      cases buf with
      | nil => exact absurd hin ((h.shape t).2 nr)
      | cons byte rest =>
        have hlt := h.ok.size_lt
        have hroom : s.fifo.size + 1 < s.fifo.length := by
          have : s.fifo.size + 1 ≠ s.fifo.length := fun h0 => by
            rw [(Fifo.fifoFull_iff h.ok).mpr h0] at hs
            cases hs
          omega
        obtain ⟨s₁, hwrite, hinv₁, hmove, hsize, htook, hgave, htx, -⟩ := writeByte_spec h hroom byte
        have hnotx : s₁.txwaiter = none := by
          rw [htx]
          cases hr : s.txwaiter with
          | none => rfl
          | some u =>
            have := (h.tx u hr).2.1
            omega
        obtain ⟨ret, s', hloop, hinv, w⟩ := writeLoop_spec rest (nr + 1) hinv₁ (hmove.awake hawake) (Or.inr hnotx)
        refine ⟨_, s', ?_, hinv, .writeOn hin (w.cons hmove hsize htook hgave)⟩
        simp only [exec, hin, hwrite, hloop, ok_bind]

/-! ### Any number of readers and writers -/

theorem writeLoop_full {t : T} {buf : List UInt8} {nr : ℕ} {ret : Option ℕ} (hfull : s.fifo.fifoFull = true)
    (h : writeLoop t buf nr s = .ok (ret, s')) : s'.fifo = s.fifo ∧ s'.took = s.took ∧ s'.gave = s.gave := by
  cases buf with
  | nil =>
    cases h
    exact ⟨rfl, rfl, rfl⟩
  | cons byte rest =>
    rw [writeLoop, if_pos hfull, bind_ok] at h
    obtain ⟨_, -, h⟩ := h
    obtain ⟨s₁, hblock, h⟩ := bind_ok.mp h
    obtain ⟨_, -, h₁⟩ := bind_ok.mp hblock
    cases h₁
    cases h
    exact ⟨rfl, rfl, rfl⟩

/-- A woken writer that finds the ring full again drops a byte nobody has read. -/
theorem write_drops (h : s.Inv) {t : T} {nr : ℕ} {byte : UInt8} {rest : List UInt8}
    (hin : s.call t = .writing nr (byte :: rest)) (hfull : s.fifo.fifoFull = true) {obs : Option Obs}
    (hexec : s.exec (.resume t) = .ok (obs, s')) : s'.took ++ s'.fifo.bytes ≠ s'.gave := by
  have hsize := (Fifo.fifoFull_iff h.ok).mp hfull
  have hlen := h.ok.length
  obtain ⟨fifo, hput, hok, hlength, hsame⟩ := Fifo.fifoPut_full h.ok hsize byte
  have hnorx : s.rxwaiter = none := by
    cases hr : s.rxwaiter with
    | none => rfl
    | some u =>
      have := (h.rx u hr).2.1
      omega
  have hwrite : s.writeByte byte = .ok { s with fifo := fifo, gave := s.gave ++ [byte] } := by
    rw [writeByte, hput, ok_bind]
    dsimp only
    rw [hnorx]
  simp only [exec, hin, hwrite, ok_bind] at hexec
  obtain ⟨⟨ret, s₁⟩, hloop, heq⟩ := bind_ok.mp hexec
  cases heq
  have hfull₁ : fifo.fifoFull = true := (Fifo.fifoFull_iff hok).mpr (by omega)
  obtain ⟨hfifo, htook, hgave⟩ := writeLoop_full hfull₁ hloop
  intro hlog
  have hcount := congrArg List.length hlog
  have hbefore := congrArg List.length h.log
  rw [hfifo, htook, hgave] at hcount
  simp only [List.length_append, List.length_singleton, Fifo.length_bytes] at hcount hbefore
  omega

theorem read_halts (h : s.Inv) {t u : T} {count : ℕ} (hu : s.rxwaiter = some u) :
    s.exec (.read t (count + 1)) = .error (.assertion "inode->rxwaiter == NULL") := by
  have he := (Fifo.fifoEmpty_iff h.ok).mpr (h.rx u hu).2.1
  rw [exec, readLoop, if_pos he, hu]
  rfl

theorem write_halts (h : s.Inv) {t u : T} {byte : UInt8} {buf : List UInt8} (hu : s.txwaiter = some u) :
    s.exec (.write t (byte :: buf)) = .error (.assertion "inode->txwaiter == NULL") := by
  have he := (Fifo.fifoFull_iff h.ok).mpr (h.tx u hu).2.1
  rw [exec, writeLoop, if_pos he, hu]
  rfl

/-- A step neither halts nor loses a byte exactly if it is smooth. -/
theorem smooth_iff (h : s.Inv) {e : Event T} (he : s.Enabled e) :
    s.Smooth e ↔ ∃ obs s', s.exec e = .ok (obs, s') ∧ s'.took ++ s'.fifo.bytes = s'.gave := by
  constructor
  · intro hs
    obtain ⟨obs, s', hexec, hinv, -⟩ := exec_spec h he hs
    exact ⟨obs, s', hexec, hinv.log⟩
  · rintro ⟨obs, s', hexec, hlog⟩
    cases e with
    | read t count =>
      cases count with
      | zero => exact Or.inl rfl
      | succ count =>
        cases hu : s.rxwaiter with
        | none => exact Or.inr hu
        | some u =>
          rw [read_halts h hu] at hexec
          cases hexec
    | write t buf =>
      cases buf with
      | nil => exact Or.inl rfl
      | cons byte buf =>
        cases hu : s.txwaiter with
        | none => exact Or.inr hu
        | some u =>
          rw [write_halts h hu] at hexec
          cases hexec
    | resume t =>
      cases hin : s.call t with
      | outside => exact absurd hin he.1
      | reading buf left =>
        simp only [Smooth, hin]
        cases hempty : s.fifo.fifoEmpty with
        | false => rfl
        | true =>
          cases left with
          | zero => exact absurd hin ((h.shape t).1 buf)
          | succ left =>
            simp only [exec, hin, readByte, Fifo.fifoGet, hempty] at hexec
            cases hexec
      | writing nr buf =>
        simp only [Smooth, hin]
        cases hfull : s.fifo.fifoFull with
        | false => rfl
        | true =>
          cases buf with
          | nil => exact absurd hin ((h.shape t).2 nr)
          | cons byte rest => exact absurd hlog (write_drops h hin hfull hexec)

omit [DecidableEq T] in
theorem init_inv (h : Init s) : s.Inv := by
  obtain ⟨buf, rfl⟩ := h
  have hok : (Fifo.fifoInit buf PAGE_SIZE.toNat).Ok := Fifo.fifoInit_ok buf (by decide)
  exact ⟨hok, by rw [Fifo.fifoInit_bytes]; rfl, nofun, nofun, nofun, fun _ => ⟨nofun, nofun⟩⟩

theorem step_inv {l : Event T × Option Obs} (h : s.Inv) (hs : Restrict (fun s l => Smooth s l.1) Step s l s') : s'.Inv := by
  obtain ⟨hsmooth, henabled, hexec⟩ := hs
  obtain ⟨obs, s₁, hexec₁, hinv, -⟩ := exec_spec h henabled hsmooth
  rw [hexec] at hexec₁
  cases hexec₁
  exact hinv

/-- However many tasks share a pipe, as long as every step so far was smooth no byte is lost,
and the next step halts or loses one exactly if it is not. -/
theorem shared_pipe {es : List (Event T × Option Obs)} (h : Run Init (Restrict (fun s l => Smooth s l.1) Step) es s) :
    s.took ++ s.fifo.bytes = s.gave ∧ ∀ e, s.Enabled e →
      (s.Smooth e ↔ ∃ obs s', s.exec e = .ok (obs, s') ∧ s'.took ++ s'.fifo.bytes = s'.gave) := by
  have hinv := Run.invariant (I := Inv) (fun _ => init_inv) (fun _ _ _ => step_inv) es s h
  exact ⟨hinv.log, fun e he => smooth_iff hinv he⟩

/-- An empty pipe on which task 0 sleeps in `pipe_read`. -/
def readerAsleep : Pipe (Fin 2) :=
  ⟨.fifoInit (fun _ => 0) PAGE_SIZE.toNat, some 0, none, Function.update (fun _ => .outside) 0 (.reading [] 1),
    Function.update (fun _ => false) 0 true, [], []⟩

theorem run_readerAsleep : Run Init (Restrict (fun s l => Smooth s l.1) Step) [(.read 0 1, none)] readerAsleep :=
  have h : Run Init (Restrict (fun s l => Smooth s l.1) Step) ([] ++ [(.read 0 1, none)]) readerAsleep :=
    .snoc (.nil ⟨fun _ => 0, rfl⟩) ⟨Or.inr rfl, rfl, rfl⟩
  h

theorem shared_pipe_readerAsleep : ¬ ∃ obs s', readerAsleep.exec (.read 1 1) = .ok (obs, s') ∧ s'.took ++ s'.fifo.bytes = s'.gave := by
  intro h
  rcases ((shared_pipe run_readerAsleep).2 (.read 1 1) rfl).mpr h with h | h <;> cases h

/-- A second reader halts the kernel. -/
theorem second_reader_halts : ¬ ∀ (es : List (Event (Fin 2) × Option Obs)) (s : Pipe (Fin 2)), Run Init Step es s →
    ∀ e, s.Enabled e → ∃ obs s', s.exec e = .ok (obs, s') ∧ s'.took ++ s'.fifo.bytes = s'.gave := by
  intro h
  obtain ⟨obs, s', hexec, -⟩ := h _ _ run_readerAsleep.of_restrict (.read 1 1) rfl
  cases hexec

/-! ### One reader and one writer -/

/-- Only `r` reads, and only `w` writes. -/
def Roles (r w : T) (_ : Pipe T) (l : Event T × Option Obs) : Prop :=
  match l.1 with
  | .read t _ => t = r
  | .write t _ => t = w
  | .resume _ => True

/-- The bytes that the reads returned. -/
def bytesRead (es : List (Event T × Option Obs)) : List UInt8 :=
  es.flatMap fun l => match l.2 with | some (.read buf) => buf | _ => []

/-- The bytes that were passed to the writes. -/
def bytesPassed (es : List (Event T × Option Obs)) : List UInt8 :=
  es.flatMap fun l => match l.1 with | .write _ buf => buf | _ => []

/-- The counts of the reads, in the order of the calls. -/
def readCounts (es : List (Event T × Option Obs)) : List ℕ :=
  es.filterMap fun l => match l.1 with | .read _ count => some count | _ => none

def readReturns (es : List (Event T × Option Obs)) : List ℕ :=
  es.filterMap fun l => match l.2 with | some (.read buf) => some buf.length | _ => none

def writeCounts (es : List (Event T × Option Obs)) : List ℕ :=
  es.filterMap fun l => match l.1 with | .write _ buf => some buf.length | _ => none

def writeReturns (es : List (Event T × Option Obs)) : List ℕ :=
  es.filterMap fun l => match l.2 with | some (.write nr) => some nr | _ => none

/-- The reader has been given `got`, of the counts `asked` those in `answered` are through. -/
def Reader (got : List UInt8) (asked answered : List ℕ) (r : T) (s : Pipe T) : Prop :=
  s.call r = .outside ∧ got = s.took ∧ asked = answered ∨
    ∃ buf left, s.call r = .reading buf left ∧ got ++ buf = s.took ∧ asked = answered ++ [buf.length + left]

/-- The writer was called with `passed`. -/
def Writer (passed : List UInt8) (asked answered : List ℕ) (w : T) (s : Pipe T) : Prop :=
  s.call w = .outside ∧ passed = s.gave ∧ asked = answered ∨
    ∃ nr rest, s.call w = .writing nr rest ∧ passed = s.gave ++ rest ∧ asked = answered ++ [nr + rest.length]

variable {r w : T}

omit [DecidableEq T] in
theorem Reader.of_reads {got buf : List UInt8} {answered : List ℕ} {left : ℕ} {ret : Option (List UInt8)}
    (htook : got ++ buf = s.took) (h : Reads s s' r left buf ret) :
    Reader (got ++ ret.getD []) (answered ++ [buf.length + left]) (answered ++ (ret.map List.length).toList) r s' := by
  obtain ⟨new, hnew, h | h⟩ := h.got
  · obtain ⟨rfl, hlen, hcall, -⟩ := h
    refine Or.inl ⟨hcall, ?_, ?_⟩
    · rw [Option.getD_some, hnew, ← htook, List.append_assoc]
    · simp [hlen]
  · obtain ⟨rfl, -, n, hleft, hcall⟩ := h
    refine Or.inr ⟨_, _, hcall, ?_, ?_⟩
    · rw [Option.getD_none, List.append_nil, hnew, ← htook, List.append_assoc]
    · simp only [Option.map_none, Option.toList_none, List.append_nil, List.length_append, hleft]
      congr 2
      omega

omit [DecidableEq T] in
theorem Writer.of_writes {passed buf : List UInt8} {answered : List ℕ} {nr : ℕ} {ret : Option ℕ}
    (hgave : passed = s.gave ++ buf) (h : Writes s s' w buf nr ret) :
    Writer passed (answered ++ [nr + buf.length]) (answered ++ ret.toList) w s' := by
  obtain ⟨done, rest, rfl, hnew, h | h⟩ := h.put
  · obtain ⟨rfl, rfl, hcall, -⟩ := h
    exact Or.inl ⟨hcall, by rw [hgave, hnew, List.append_nil], by simp⟩
  · obtain ⟨rfl, -, -, hcall⟩ := h
    refine Or.inr ⟨_, _, hcall, by rw [hgave, hnew, List.append_assoc], ?_⟩
    simp only [Option.toList_none, List.append_nil, List.length_append]
    congr 2
    omega

omit [DecidableEq T] in
theorem Reader.frame {got : List UInt8} {asked answered : List ℕ} (h : Reader got asked answered r s)
    (hcall : s'.call r = s.call r) (htook : s'.took = s.took) : Reader got asked answered r s' := by
  unfold Reader at h ⊢
  rw [hcall, htook]
  exact h

omit [DecidableEq T] in
theorem Writer.frame {passed : List UInt8} {asked answered : List ℕ} (h : Writer passed asked answered w s)
    (hcall : s'.call w = s.call w) (hgave : s'.gave = s.gave) : Writer passed asked answered w s' := by
  unfold Writer at h ⊢
  rw [hcall, hgave]
  exact h

/-- One reader and one writer after the events `es`: whoever was woken finds what it waited for. -/
structure Duplex (r w : T) (es : List (Event T × Option Obs)) (s : Pipe T) : Prop where
  inv : s.Inv
  reader : Reader (bytesRead es) (readCounts es) (readReturns es) r s
  writer : Writer (bytesPassed es) (writeCounts es) (writeReturns es) w s
  others : ∀ t, t ≠ r → t ≠ w → s.call t = .outside
  woken : ∀ buf left, s.call r = .reading buf left → s.blocked r = false → 0 < s.fifo.size
  relieved : ∀ nr rest, s.call w = .writing nr rest → s.blocked w = false → s.fifo.size + 1 < s.fifo.length

omit [DecidableEq T] in
theorem Duplex.call_reading {es : List (Event T × Option Obs)} (h : Duplex r w es s) {t : T} {buf : List UInt8}
    {left : ℕ} (ht : s.call t = .reading buf left) : t = r := by
  by_contra hr
  by_cases hw : t = w
  · subst hw
    rcases h.writer with ⟨h1, -⟩ | ⟨nr, rest, h1, -⟩ <;> · rw [ht] at h1; cases h1
  · rw [h.others t hr hw] at ht
    cases ht

omit [DecidableEq T] in
theorem Duplex.call_writing {es : List (Event T × Option Obs)} (h : Duplex r w es s) {t : T} {nr : ℕ}
    {rest : List UInt8} (ht : s.call t = .writing nr rest) : t = w := by
  by_contra hw
  by_cases hr : t = r
  · subst hr
    rcases h.reader with ⟨h1, -⟩ | ⟨buf, left, h1, -⟩ <;> · rw [ht] at h1; cases h1
  · rw [h.others t hr hw] at ht
    cases ht

omit [DecidableEq T] in
theorem Duplex.smooth {es : List (Event T × Option Obs)} (h : Duplex r w es s) {l : Event T × Option Obs}
    (hrole : Roles r w s l) (he : s.Enabled l.1) : s.Smooth l.1 := by
  obtain ⟨e, obs⟩ := l
  cases e with
  | read t count =>
    obtain rfl : t = r := hrole
    apply Or.inr
    cases hu : s.rxwaiter with
    | none => rfl
    | some u =>
      obtain ⟨-, -, buf, left, hcall⟩ := h.inv.rx u hu
      obtain rfl := h.call_reading hcall
      rw [show s.call u = .outside from he] at hcall
      cases hcall
  | write t buf =>
    obtain rfl : t = w := hrole
    apply Or.inr
    cases hu : s.txwaiter with
    | none => rfl
    | some u =>
      obtain ⟨-, -, nr, byte, rest, hcall⟩ := h.inv.tx u hu
      obtain rfl := h.call_writing hcall
      rw [show s.call u = .outside from he] at hcall
      cases hcall
  | resume t =>
    obtain ⟨hcall, hawake⟩ := he
    cases hin : s.call t with
    | outside => exact absurd hin hcall
    | reading buf left =>
      simp only [Smooth, hin]
      obtain rfl := h.call_reading hin
      have hpos := h.woken buf left hin hawake
      by_contra hc
      have := (Fifo.fifoEmpty_iff h.inv.ok).mp (by simpa using hc)
      omega
    | writing nr rest =>
      simp only [Smooth, hin]
      obtain rfl := h.call_writing hin
      have hpos := h.relieved nr rest hin hawake
      by_contra hc
      have := (Fifo.fifoFull_iff h.inv.ok).mp (by simpa using hc)
      omega

omit [DecidableEq T] in
/-- A stretch of `pipe_read`; `es'` are the events with the one of this step. -/
theorem Duplex.reads {es es' : List (Event T × Option Obs)} (h : Duplex r w es s) (hrw : r ≠ w) (hinv : s'.Inv)
    {buf : List UInt8} {left : ℕ} {ret : Option (List UInt8)} (hs : Reads s s' r left buf ret)
    (htook : bytesRead es ++ buf = s.took) (hgot : bytesRead es' = bytesRead es ++ ret.getD [])
    (hasked : readCounts es' = readReturns es ++ [buf.length + left])
    (hanswered : readReturns es' = readReturns es ++ (ret.map List.length).toList)
    (hpassed : bytesPassed es' = bytesPassed es) (hwasked : writeCounts es' = writeCounts es)
    (hwanswered : writeReturns es' = writeReturns es) : Duplex r w es' s' := by
  have hcallw : s'.call w = s.call w := hs.others w hrw.symm
  refine ⟨hinv, ?_, ?_, ?_, ?_, ?_⟩
  · rw [hgot, hasked, hanswered]
    exact Reader.of_reads htook hs
  · rw [hpassed, hwasked, hwanswered]
    exact h.writer.frame hcallw hs.gave
  · intro t hr hw
    rw [hs.others t hr]
    exact h.others t hr hw
  · intro buf' left' hcall hawake
    obtain ⟨new, -, ⟨-, -, hout, -⟩ | ⟨-, hb, -⟩⟩ := hs.got
    · rw [hout] at hcall
      cases hcall
    · rw [hb] at hawake
      cases hawake
  · intro nr rest hcall hawake
    rw [hcallw] at hcall
    rcases hs.woken w hrw.symm hawake with hb | hb
    · have := h.relieved nr rest hcall hb
      have := hs.size
      rw [hs.length]
      omega
    · exact hb

omit [DecidableEq T] in
theorem Duplex.writes {es es' : List (Event T × Option Obs)} (h : Duplex r w es s) (hrw : r ≠ w) (hinv : s'.Inv)
    {buf : List UInt8} {nr : ℕ} {ret : Option ℕ} (hs : Writes s s' w buf nr ret)
    (hpassed : bytesPassed es' = s.gave ++ buf) (hasked : writeCounts es' = writeReturns es ++ [nr + buf.length])
    (hanswered : writeReturns es' = writeReturns es ++ ret.toList)
    (hgot : bytesRead es' = bytesRead es) (hrasked : readCounts es' = readCounts es)
    (hranswered : readReturns es' = readReturns es) : Duplex r w es' s' := by
  have hcallr : s'.call r = s.call r := hs.others r hrw
  refine ⟨hinv, ?_, ?_, ?_, ?_, ?_⟩
  · rw [hgot, hrasked, hranswered]
    exact h.reader.frame hcallr hs.took
  · rw [hasked, hanswered]
    exact Writer.of_writes hpassed hs
  · intro t hr hw
    rw [hs.others t hw]
    exact h.others t hr hw
  · intro buf' left' hcall hawake
    rw [hcallr] at hcall
    rcases hs.woken r hrw hawake with hb | hb
    · have := h.woken buf' left' hcall hb
      have := hs.size
      omega
    · exact hb
  · intro nr' rest hcall hawake
    obtain ⟨done, rest', -, -, ⟨-, -, hout, -⟩ | ⟨-, hb, -⟩⟩ := hs.put
    · rw [hout] at hcall
      cases hcall
    · rw [hb] at hawake
      cases hawake

theorem Duplex.step {es : List (Event T × Option Obs)} (h : Duplex r w es s) (hrw : r ≠ w) {l : Event T × Option Obs}
    (hs : Restrict (Roles r w) Step s l s') : Duplex r w (es ++ [l]) s' := by
  obtain ⟨hrole, he, hexec⟩ := hs
  obtain ⟨obs, s₁, hexec₁, hinv, hout⟩ := exec_spec h.inv he (h.smooth hrole he)
  rw [hexec] at hexec₁
  obtain ⟨e, obs₁⟩ := l
  cases hexec₁
  cases hout with
  | @read t count ret _ hcall w =>
    obtain rfl : t = r := hrole
    obtain ⟨-, hgot, hasked⟩ | ⟨_, _, h1, -⟩ := h.reader
    · refine h.reads hrw hinv w (by rw [List.append_nil, hgot]) ?_ ?_ ?_ ?_ ?_ ?_ <;>
        cases ret <;> simp [bytesRead, readCounts, readReturns, bytesPassed, writeCounts, writeReturns] at hasked ⊢
      all_goals exact hasked
    · rw [hcall] at h1
      cases h1
  | @write t buf ret _ hcall w =>
    obtain rfl : t = _ := hrole
    obtain ⟨-, hpassed, hasked⟩ | ⟨_, _, h1, -⟩ := h.writer
    · refine h.writes hrw hinv w ?_ ?_ ?_ ?_ ?_ ?_ <;>
        cases ret <;> simp [bytesRead, readCounts, readReturns, bytesPassed, writeCounts, writeReturns] at hasked hpassed ⊢
      all_goals first | exact hasked | exact hpassed
    · rw [hcall] at h1
      cases h1
  | @readOn t buf left ret _ hcall w =>
    obtain rfl := h.call_reading hcall
    obtain ⟨h1, -⟩ | ⟨buf', left', h1, hgot, hasked⟩ := h.reader
    · rw [hcall] at h1
      cases h1
    · rw [hcall] at h1
      cases h1
      refine h.reads hrw hinv w hgot ?_ ?_ ?_ ?_ ?_ ?_ <;>
        cases ret <;> simp [bytesRead, readCounts, readReturns, bytesPassed, writeCounts, writeReturns] at hasked ⊢
      all_goals exact hasked
  | @writeOn t nr buf ret _ hcall w =>
    obtain rfl := h.call_writing hcall
    obtain ⟨h1, -⟩ | ⟨nr', buf', h1, hpassed, hasked⟩ := h.writer
    · rw [hcall] at h1
      cases h1
    · rw [hcall] at h1
      cases h1
      refine h.writes hrw hinv w ?_ ?_ ?_ ?_ ?_ ?_ <;>
        cases ret <;> simp [bytesRead, readCounts, readReturns, bytesPassed, writeCounts, writeReturns] at hasked hpassed ⊢
      all_goals first | exact hasked | exact hpassed

omit [DecidableEq T] in
theorem init_duplex (h : Init s) : Duplex r w [] s := by
  have hinv := init_inv h
  obtain ⟨buf, rfl⟩ := h
  exact ⟨hinv, Or.inl ⟨rfl, rfl, rfl⟩, Or.inl ⟨rfl, rfl, rfl⟩, fun _ _ _ => rfl, nofun, nofun⟩

omit [DecidableEq T] in
/-- The ring is not empty and full at once. -/
theorem Duplex.not_both {es : List (Event T × Option Obs)} (h : Duplex r w es s) (hrw : r ≠ w) :
    ¬ (s.blocked r = true ∧ s.blocked w = true) := by
  rintro ⟨hr, hw⟩
  have hempty : s.fifo.size = 0 := by
    rcases h.inv.waits r hr with h1 | h1
    · exact (h.inv.rx r h1).2.1
    · obtain ⟨-, -, nr, byte, rest, hcall⟩ := h.inv.tx r h1
      exact absurd (h.call_writing hcall) hrw
  have hfull : s.fifo.size + 1 = s.fifo.length := by
    rcases h.inv.waits w hw with h1 | h1
    · obtain ⟨-, -, buf, left, hcall⟩ := h.inv.rx w h1
      exact absurd (h.call_reading hcall).symm hrw
    · exact (h.inv.tx w h1).2.1
  have := h.inv.ok.length
  omega

/-- One reader and one writer: the stream comes through in order, every call transfers its count,
the two never sleep on each other, and the kernel does not halt. -/
theorem pipe_stream {es : List (Event T × Option Obs)} (hrw : r ≠ w) (h : Run Init (Restrict (Roles r w) Step) es s) :
    bytesRead es <+: bytesPassed es ∧ readReturns es <+: readCounts es ∧ writeReturns es <+: writeCounts es ∧
      (s.call r = .outside → s.took = bytesRead es ∧ readReturns es = readCounts es) ∧
      (s.call w = .outside → s.gave = bytesPassed es ∧ writeReturns es = writeCounts es) ∧
      s.took ++ s.fifo.bytes = s.gave ∧ ¬ (s.blocked r = true ∧ s.blocked w = true) ∧
      ∀ e, Roles r w s (e, none) → s.Enabled e → ∃ obs s', s.exec e = .ok (obs, s') := by
  have hd : Duplex r w es s := Run.traceInvariant (I := Duplex r w) (fun _ => init_duplex)
    (fun _ _ _ _ _ hd hs => hd.step hrw hs) es s h
  have htook : bytesRead es <+: s.took := by
    rcases hd.reader with ⟨-, h1, -⟩ | ⟨buf, left, -, h1, -⟩
    · exact h1 ▸ List.prefix_refl _
    · exact ⟨buf, h1⟩
  have hgave : s.gave <+: bytesPassed es := by
    rcases hd.writer with ⟨-, h1, -⟩ | ⟨nr, rest, -, h1, -⟩
    · exact h1 ▸ List.prefix_refl _
    · exact ⟨rest, h1.symm⟩
  refine ⟨htook.trans (List.IsPrefix.trans ⟨_, hd.inv.log⟩ hgave), ?_, ?_, ?_, ?_, hd.inv.log, hd.not_both hrw, ?_⟩
  · rcases hd.reader with ⟨-, -, h1⟩ | ⟨buf, left, -, -, h1⟩
    · exact h1 ▸ List.prefix_refl _
    · exact ⟨_, h1.symm⟩
  · rcases hd.writer with ⟨-, -, h1⟩ | ⟨nr, rest, -, -, h1⟩
    · exact h1 ▸ List.prefix_refl _
    · exact ⟨_, h1.symm⟩
  · intro hcall
    rcases hd.reader with ⟨-, h1, h2⟩ | ⟨buf, left, h1, -⟩
    · exact ⟨h1.symm, h2.symm⟩
    · rw [hcall] at h1
      cases h1
  · intro hcall
    rcases hd.writer with ⟨-, h1, h2⟩ | ⟨nr, rest, h1, -⟩
    · exact ⟨h1.symm, h2.symm⟩
    · rw [hcall] at h1
      cases h1
  · intro e hrole he
    obtain ⟨obs, s', hexec, -⟩ := exec_spec hd.inv he (hd.smooth (l := (e, none)) hrole he)
    exact ⟨obs, s', hexec⟩

/-- The reader sleeps, and is woken by a write. -/
theorem pipe_stream_wakes : bytesRead [((.read 0 1, none) : Event (Fin 2) × Option Obs), (.write 1 [7], some (.write 1)),
    (.resume 0, some (.read [7]))] <+: [7] := by
  have h1 : Run Init (Restrict (Roles (0 : Fin 2) 1) Step) ([] ++ [(.read 0 1, none)]) readerAsleep :=
    .snoc (.nil ⟨fun _ => 0, rfl⟩) ⟨rfl, rfl, rfl⟩
  have h2 := h1.snoc (e := (Event.write 1 [7], some (Obs.write 1))) ⟨rfl, rfl, rfl⟩
  have h3 := h2.snoc (e := (Event.resume 0, some (Obs.read [7]))) ⟨trivial, ⟨by decide, rfl⟩, rfl⟩
  exact (pipe_stream (by decide) h3).1

end Onix.Pipe
