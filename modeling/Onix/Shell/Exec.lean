import Onix.Fs.Files

/-! `builtin_exec` of osh.c: the redirections of a command, one child for every stage of the pipe, and the descriptors
and children of the shell around them. `open`, `pipe`, `close`, `fork` and `waitpid` are what the kernel makes of them:
`open` fails for a file that cannot be opened, and a task without a free descriptor halts. -/

set_option autoImplicit false

namespace Onix

namespace Osh

open Lib

variable {H : Type}

def O_CREAT : UInt32 := 0o100
def O_APPEND : UInt32 := 0o2000

structure Child where
  id : ℕ
  filename : String
  argv : List String

/-- The shell as the kernel sees it: its descriptors, and the children it has not waited for. `forks` counts the
children so far and names the next. -/
structure Sys (H : Type) where
  files : Fd → Option H
  children : List Child
  forks : ℕ
  older : ∀ c ∈ children, c.id < forks

/-- The rest of the system. `behind` is what the buffer holds behind the names of so many stages. -/
structure Env (H : Type) where
  file : String → UInt32 → Option H
  pipe : ℕ → H × H
  found : String → Bool
  behind : ℕ → String

namespace Sys

def getFd (s : Sys H) : Except Halt Fd :=
  match (List.finRange TASK_FILE_NR).find? fun i => 3 ≤ i.val && (s.files i).isNone with
  | some fd => .ok fd
  | none => .error (.panic "Exceed task max open files.")

def setFd (s : Sys H) (fd : Fd) (file : Option H) : Sys H := { s with files := Function.update s.files fd file }

def close (s : Sys H) (fd : Fd) : Sys H := s.setFd fd none

/-- `if (fd != EOF) close(fd)`, where EOF is `none`. -/
def closeOpt (s : Sys H) : Option Fd → Sys H
  | none => s
  | some fd => s.close fd

/-- `open`; EOF is `none`. -/
def openFile (env : Env H) (s : Sys H) (name : String) (flags : UInt32) : Except Halt (Option Fd × Sys H) :=
  match env.file name flags with
  | none => .ok (none, s)
  | some f => do
    let fd ← s.getFd
    .ok (some fd, s.setFd fd (some f))

def pipe (env : Env H) (s : Sys H) : Except Halt (Fd × Fd × Sys H) := do
  let fd₀ ← s.getFd
  let s := s.setFd fd₀ (some (env.pipe s.forks).1)
  let fd₁ ← s.getFd
  .ok (fd₀, fd₁, s.setFd fd₁ (some (env.pipe s.forks).2))

/-- `fork`, with what the child is going to run. -/
def fork (s : Sys H) (filename : String) (argv : List String) : Sys H where
  files := s.files
  children := s.children ++ [⟨s.forks, filename, argv⟩]
  forks := s.forks + 1
  older := by
    intro c hc
    rcases List.mem_append.mp hc with hc | hc
    · exact Nat.lt_succ_of_lt (s.older c hc)
    · rw [List.mem_singleton] at hc
      rw [hc]
      exact Nat.lt_succ_self _

/-- `waitpid(-1, &status)`, which reaps the child that exits first: here the `pick`-th. -/
def waitpid (s : Sys H) (pick : ℕ) : Sys H :=
  { s with
    children := s.children.eraseIdx (pick % s.children.length)
    older := fun c hc => s.older c (List.mem_of_mem_eraseIdx hc) }

end Sys

/-- The files and flags that `dupfile` has found. -/
structure Redirs where
  infile : Option String := none
  outfile : Option String := none
  errfile : Option String := none
  outappend : UInt32 := 0
  errappend : UInt32 := 0

/-- The loop of `dupfile`: what it leaves of `argv`, and the redirections. -/
def scanArgs : List String → Redirs → List (Option String) × Redirs
  | [], r => ([], r)
  | [a], r => ([some a], r)
  | a :: file :: rest, r =>
    if a = "<" then
      let (args, r) := scanArgs rest { r with infile := some file }
      (none :: some file :: args, r)
    else if a = ">" then
      let (args, r) := scanArgs rest { r with outfile := some file }
      (none :: some file :: args, r)
    else if a = ">>" then
      let (args, r) := scanArgs rest { r with outfile := some file, outappend := O_APPEND }
      (none :: some file :: args, r)
    else if a = "2>" then
      let (args, r) := scanArgs rest { r with errfile := some file }
      (none :: some file :: args, r)
    else if a = "2>>" then
      let (args, r) := scanArgs rest { r with errfile := some file, errappend := O_APPEND }
      (none :: some file :: args, r)
    else
      let (args, r) := scanArgs (file :: rest) r
      (some a :: args, r)

/-- One redirection: the entry of `dupfd`, or `none` when the file does not open. -/
def redirect (env : Env H) (s : Sys H) (file : Option String) (flags : UInt32) :
    Except Halt (Option (Option Fd) × Sys H) :=
  match file with
  | none => .ok (some none, s)
  | some name => do
    let (fd, s) ← s.openFile env name flags
    .ok (fd.map some, s)

/-- `dupfd` -/
structure Dupfd where
  inp : Option Fd
  out : Option Fd
  err : Option Fd

/-- `dupfile`, which closes what it has opened when a file does not open. -/
def dupfile (env : Env H) (s : Sys H) (argv : List String) :
    Except Halt (Option Dupfd × List (Option String) × Sys H) := do
  let (args, r) := scanArgs argv {}
  let (inp, s) ← redirect env s r.infile (O_RDONLY ||| r.outappend ||| O_CREAT)
  match inp with
  | none => .ok (none, args, s)
  | some inp =>
    let (out, s) ← redirect env s r.outfile (O_WRONLY ||| r.outappend ||| O_CREAT)
    match out with
    | none => .ok (none, args, s.closeOpt inp)
    | some out =>
      let (err, s) ← redirect env s r.errfile (O_WRONLY ||| r.errappend ||| O_CREAT)
      match err with
      | none => .ok (none, args, (s.closeOpt inp).closeOpt out)
      | some err => .ok (some ⟨inp, out, err⟩, args, s)

/-- `builtin_command`, as its caller sees it: the child closes descriptors of its own. -/
def builtinCommand (s : Sys H) (filename : String) (argv : List String) (infd outfd errfd : Option Fd) : Sys H :=
  (((s.fork filename argv).closeOpt infd).closeOpt outfd).closeOpt errfd

/-- The locals of `builtin_exec`. -/
structure Exec (H : Type) where
  p : Bool
  bargv : List (Option String)
  name : String
  infd : Option Fd
  count : ℕ
  sys : Sys H

/-- The words of an argument vector, up to its NULL. -/
def wordsOf (argv : List (Option String)) : List String := (argv.takeWhile Option.isSome).filterMap id

def binName (a : String) : String := "/bin/" ++ a ++ ".out"

/-- The loop of `builtin_exec` over `argv`; it returns early, with `false`, for a command that is not found. -/
def execLoop (env : Env H) : List (Option String) → Exec H → Except Halt (Bool × Exec H)
  | [], x => .ok (true, x)
  | none :: rest, x => execLoop env rest x
  | some a :: rest, x =>
    if x.p = false ∧ a = "|" then do
      -- the slot of the `|` becomes the NULL of the stage before it
      let bargv := x.bargv.take (x.bargv.length - (rest.length + 1))
      let (fd₀, fd₁, sys) ← x.sys.pipe env
      let sys := builtinCommand sys x.name (wordsOf bargv) x.infd (some fd₁) none
      execLoop env rest ⟨true, bargv, env.behind (x.count + 1), some fd₀, x.count + 1, sys⟩
    else if x.p = false then execLoop env rest x
    else if env.found (binName a) then execLoop env rest { x with name := binName a, bargv := rest, p := false }
    else .ok (false, { x with name := binName a })

def waitLoop (picks : ℕ → ℕ) : ℕ → Sys H → Sys H
  | 0, s => s
  | n + 1, s => waitLoop picks n (s.waitpid (picks n))

def builtinExec (env : Env H) (picks : ℕ → ℕ) (s : Sys H) (argv : List String) : Except Halt (Sys H) := do
  let (dupfd, args, s) ← dupfile env s argv
  match dupfd with
  | none => .ok s
  | some d =>
    let (done, x) ← execLoop env args ⟨true, [], env.behind 0, d.inp, 0, s⟩
    if done then .ok (waitLoop picks (x.count + 1) (builtinCommand x.sys x.name (wordsOf x.bargv) x.infd d.out d.err))
    else .ok x.sys

/-! ### What a call should leave -/

/-- The commands of the stages; `p` as in `builtin_exec`. -/
def commands : Bool → List (Option String) → List String
  | _, [] => []
  | p, none :: rest => commands p rest
  | true, some a :: rest => a :: commands false rest
  | false, some a :: rest => if a = "|" then commands true rest else commands false rest

/-- The descriptors are those before the call, and no child of the command is left. -/
structure Clean (s s' : Sys H) : Prop where
  files : s'.files = s.files
  waited : ∀ c ∈ s'.children, c.id < s.forks

def opensFile (env : Env H) (file : Option String) (flags : UInt32) : Prop :=
  ∀ name, file = some name → (env.file name flags).isSome

/-- Every file that the command is redirected to opens. -/
def Opens (env : Env H) (r : Redirs) : Prop :=
  opensFile env r.infile (O_RDONLY ||| r.outappend ||| O_CREAT) ∧
    opensFile env r.outfile (O_WRONLY ||| r.outappend ||| O_CREAT) ∧
    opensFile env r.errfile (O_WRONLY ||| r.errappend ||| O_CREAT)

/-- The command is not redirected. -/
def Plain (r : Redirs) : Prop := r.infile = none ∧ r.outfile = none ∧ r.errfile = none

/-! ### Descriptors that are open for a while -/

/-- The descriptors `l` have been opened since `base`, and the others are as there. -/
structure Opened (base : Fd → Option H) (l : List Fd) (files : Fd → Option H) : Prop where
  nodup : l.Nodup
  free : ∀ fd ∈ l, base fd = none
  used : ∀ fd ∈ l, files fd ≠ none
  others : ∀ fd, fd ∉ l → files fd = base fd

variable {base : Fd → Option H} {l l' : List Fd} {s s' : Sys H} {fd : Fd}

theorem Opened.start : Opened base [] base := ⟨List.nodup_nil, by simp, by simp, fun _ _ => rfl⟩

theorem Opened.perm (h : Opened base l s.files) (hl : l.Perm l') : Opened base l' s.files :=
  ⟨hl.nodup_iff.mp h.nodup, fun fd hfd => h.free fd (hl.mem_iff.mpr hfd), fun fd hfd => h.used fd (hl.mem_iff.mpr hfd),
    fun fd hfd => h.others fd fun hmem => hfd (hl.mem_iff.mp hmem)⟩

theorem Opened.eq (h : Opened base [] s.files) : s.files = base := funext fun fd => h.others fd List.not_mem_nil

theorem Opened.ne (h : Opened base l s.files) (hl : l ≠ []) : s.files ≠ base := by
  obtain ⟨fd, hfd⟩ := List.exists_mem_of_ne_nil l hl
  intro he
  apply h.used fd hfd
  rw [he]
  exact h.free fd hfd

theorem getFd_free (h : s.getFd = .ok fd) : s.files fd = none := by
  unfold Sys.getFd at h
  split at h
  · rename_i i hi
    cases h
    have := List.find?_some hi
    simp only [Bool.and_eq_true, Option.isNone_iff_eq_none] at this
    exact this.2
  · cases h

theorem Opened.open (h : Opened base l s.files) (hfd : s.getFd = .ok fd) (f : H) :
    Opened base (fd :: l) (s.setFd fd (some f)).files := by
  have hfree := getFd_free hfd
  have hnot : fd ∉ l := fun hmem => h.used fd hmem hfree
  refine ⟨List.nodup_cons.mpr ⟨hnot, h.nodup⟩, fun i hi => ?_, fun i hi => ?_, fun i hi => ?_⟩
  · rcases List.mem_cons.mp hi with rfl | hi
    · rw [← h.others i hnot, hfree]
    · exact h.free i hi
  · change Function.update s.files fd (some f) i ≠ none
    rw [Function.update_apply]
    split_ifs with he
    · simp
    · exact h.used i ((List.mem_cons.mp hi).resolve_left he)
  · rw [List.mem_cons, not_or] at hi
    exact (Function.update_of_ne hi.1 _ _).trans (h.others i hi.2)

theorem Opened.close (h : Opened base (fd :: l) s.files) : Opened base l (s.close fd).files := by
  obtain ⟨hnot, hnodup⟩ := List.nodup_cons.mp h.nodup
  refine ⟨hnodup, fun i hi => h.free i (List.mem_cons_of_mem _ hi), fun i hi => ?_, fun i hi => ?_⟩
  · have hne : i ≠ fd := fun he => hnot (he ▸ hi)
    change Function.update s.files fd none i ≠ none
    rw [Function.update_of_ne hne]
    exact h.used i (List.mem_cons_of_mem _ hi)
  · change Function.update s.files fd none i = _
    rw [Function.update_apply]
    split_ifs with he
    · rw [he, h.free fd (List.mem_cons_self ..)]
    · exact h.others i fun hmem => (List.mem_cons.mp hmem).elim he hi

theorem Opened.closeOpt {fd : Option Fd} (h : Opened base (fd.toList ++ l) s.files) :
    Opened base l (s.closeOpt fd).files := by
  cases fd with
  | none => exact h
  | some fd => exact h.close

@[simp] theorem closeOpt_children (s : Sys H) (fd : Option Fd) : (s.closeOpt fd).children = s.children := by
  cases fd <;> rfl

@[simp] theorem closeOpt_forks (s : Sys H) (fd : Option Fd) : (s.closeOpt fd).forks = s.forks := by
  cases fd <;> rfl

/-- The parent closes all descriptors it has handed to the child. -/
theorem builtinCommand_spec (infd outfd errfd : Option Fd) (filename : String) (argv : List String)
    (h : Opened base (infd.toList ++ (outfd.toList ++ (errfd.toList ++ l))) s.files) :
    Opened base l (builtinCommand s filename argv infd outfd errfd).files ∧
      (builtinCommand s filename argv infd outfd errfd).children = s.children ++ [⟨s.forks, filename, argv⟩] ∧
      (builtinCommand s filename argv infd outfd errfd).forks = s.forks + 1 := by
  have hfork : Opened base (infd.toList ++ (outfd.toList ++ (errfd.toList ++ l))) (s.fork filename argv).files := h
  refine ⟨hfork.closeOpt.closeOpt.closeOpt, ?_, ?_⟩
  · simp [builtinCommand, Sys.fork]
  · simp [builtinCommand, Sys.fork]

/-! ### The redirections -/

/-- What one redirection makes of the descriptors: nothing when the file does not open. -/
def Redirected (env : Env H) (file : Option String) (flags : UInt32) (base : Fd → Option H) (l : List Fd)
    (files : Fd → Option H) : Option (Option Fd) → Prop
  | none => ¬ opensFile env file flags ∧ Opened base l files
  | some fd => opensFile env file flags ∧ Opened base (fd.toList ++ l) files ∧ (fd = none ↔ file = none)

theorem redirect_spec {env : Env H} {file : Option String} {flags : UInt32} {r : Option (Option Fd)}
    (h : redirect env s file flags = .ok (r, s')) (ho : Opened base l s.files) :
    s'.children = s.children ∧ s'.forks = s.forks ∧ Redirected env file flags base l s'.files r := by
  unfold redirect at h
  cases file with
  | none =>
    cases h
    refine ⟨rfl, rfl, ?_⟩
    exact ⟨(fun name hname => by cases hname), ho, iff_of_true rfl rfl⟩
  | some name =>
    obtain ⟨⟨fd, s₁⟩, hopen, h⟩ := bind_ok.mp h
    unfold Sys.openFile at hopen
    cases hf : env.file name flags with
    | none =>
      rw [hf] at hopen
      cases hopen
      cases h
      refine ⟨rfl, rfl, fun hall => ?_, ho⟩
      have := hall name rfl
      rw [hf] at this
      cases this
    | some f =>
      rw [hf] at hopen
      obtain ⟨i, hi, hopen⟩ := bind_ok.mp hopen
      cases hopen
      cases h
      refine ⟨rfl, rfl, fun name' hname => ?_, ho.open hi f, ?_⟩
      · cases hname
        rw [hf]
        rfl
      · simp

/-- What all of them make of the descriptors. -/
def Duplicated (env : Env H) (r : Redirs) (base files : Fd → Option H) : Option Dupfd → Prop
  | none => ¬ Opens env r ∧ files = base
  | some d => Opens env r ∧ Opened base (d.inp.toList ++ (d.out.toList ++ d.err.toList)) files ∧
      (d.inp.toList ++ (d.out.toList ++ d.err.toList) = [] ↔ Plain r)

theorem dupfile_spec {env : Env H} {argv : List String} {d : Option Dupfd} {args : List (Option String)}
    (h : dupfile env s argv = .ok (d, args, s')) :
    args = (scanArgs argv {}).1 ∧ s'.children = s.children ∧ s'.forks = s.forks ∧
      Duplicated env (scanArgs argv {}).2 s.files s'.files d := by
  unfold dupfile at h
  generalize scanArgs argv {} = scanned at h ⊢
  obtain ⟨words, r⟩ := scanned
  obtain ⟨⟨inp, s₁⟩, hinp, h⟩ := bind_ok.mp h
  obtain ⟨hc₁, hf₁, h₁⟩ := redirect_spec hinp Opened.start
  cases inp with
  | none =>
    cases h
    exact ⟨rfl, hc₁, hf₁, fun hall => h₁.1 hall.1, h₁.2.eq⟩
  | some inp =>
    obtain ⟨hopens₁, ho₁, hnone₁⟩ := h₁
    obtain ⟨⟨out, s₂⟩, hout, h⟩ := bind_ok.mp h
    obtain ⟨hc₂, hf₂, h₂⟩ := redirect_spec hout ho₁
    cases out with
    | none =>
      cases h
      refine ⟨rfl, by simp [hc₁, hc₂], by simp [hf₁, hf₂], fun hall => h₂.1 hall.2.1, ?_⟩
      exact h₂.2.closeOpt.eq
    | some out =>
      obtain ⟨hopens₂, ho₂, hnone₂⟩ := h₂
      obtain ⟨⟨err, s₃⟩, herr, h⟩ := bind_ok.mp h
      obtain ⟨hc₃, hf₃, h₃⟩ := redirect_spec herr ho₂
      cases err with
      | none =>
        cases h
        refine ⟨rfl, by simp [hc₁, hc₂, hc₃], by simp [hf₁, hf₂, hf₃], fun hall => h₃.1 hall.2.2, ?_⟩
        have hperm : (out.toList ++ (inp.toList ++ [])).Perm (inp.toList ++ (out.toList ++ [])) := by
          simpa using List.perm_append_comm
        exact (h₃.2.perm hperm).closeOpt.closeOpt.eq
      | some err =>
        obtain ⟨hopens₃, ho₃, hnone₃⟩ := h₃
        cases h
        have hperm : (err.toList ++ (out.toList ++ (inp.toList ++ []))).Perm
            (inp.toList ++ (out.toList ++ err.toList)) := by
          rw [List.append_nil, ← List.append_assoc, ← List.append_assoc]
          refine List.perm_append_comm.trans ?_
          rw [List.append_assoc]
          exact List.Perm.append_left _ List.perm_append_comm
        refine ⟨rfl, by rw [hc₃, hc₂, hc₁], by rw [hf₃, hf₂, hf₁], ⟨hopens₁, hopens₂, hopens₃⟩, ho₃.perm hperm, ?_⟩
        simp only [List.append_eq_nil_iff, Option.toList_eq_nil_iff, hnone₁, hnone₂, hnone₃, Plain]

/-! ### The stages -/

/-- What the loop keeps: the children since the call are its stages, and the descriptors since the call are those the
next command is to get. -/
structure Staged (s : Sys H) (out err : Option Fd) (x : Exec H) : Prop where
  opened : Opened s.files (x.infd.toList ++ (out.toList ++ err.toList)) x.sys.files
  children : ∃ new, x.sys.children = s.children ++ new ∧ new.length = x.count ∧ ∀ c ∈ new, s.forks ≤ c.id
  forks : s.forks ≤ x.sys.forks

theorem pipe_spec {env : Env H} {fd₀ fd₁ : Fd} (h : s.pipe env = .ok (fd₀, fd₁, s')) (ho : Opened base l s.files) :
    Opened base (fd₁ :: fd₀ :: l) s'.files ∧ s'.children = s.children ∧ s'.forks = s.forks := by
  obtain ⟨i, hi, h⟩ := bind_ok.mp h
  obtain ⟨j, hj, h⟩ := bind_ok.mp h
  cases h
  exact ⟨(ho.open hi _).open hj _, rfl, rfl⟩

/-- One more stage: its command has the last read end and the new write end, and the shell keeps the new read end. -/
theorem Staged.next {env : Env H} {out err : Option Fd} {x : Exec H} {fd₀ fd₁ : Fd} {sys : Sys H}
    (h : Staged s out err x) (hpipe : x.sys.pipe env = .ok (fd₀, fd₁, sys)) (filename : String) (argv : List String)
    (bargv : List (Option String)) (name : String) :
    Staged s out err ⟨true, bargv, name, some fd₀, x.count + 1,
      builtinCommand sys filename argv x.infd (some fd₁) none⟩ := by
  obtain ⟨ho, hchildren, hforks⟩ := pipe_spec hpipe h.opened
  obtain ⟨new, hnew, hlen, hid⟩ := h.children
  have hperm : (fd₁ :: fd₀ :: (x.infd.toList ++ (out.toList ++ err.toList))).Perm
      (x.infd.toList ++ ([fd₁] ++ ([] ++ (fd₀ :: (out.toList ++ err.toList))))) := by
    rw [List.nil_append, List.singleton_append]
    refine (List.Perm.cons fd₁ List.perm_middle.symm).trans ?_
    exact List.perm_middle.symm
  obtain ⟨ho', hchildren', hforks'⟩ := builtinCommand_spec x.infd (some fd₁) none filename argv
    (ho.perm hperm)
  refine ⟨ho', ⟨new ++ [⟨sys.forks, filename, argv⟩], ?_, ?_, fun c hc => ?_⟩, ?_⟩
  · rw [hchildren', hchildren, hnew, List.append_assoc]
  · rw [List.length_append, hlen, List.length_singleton]
  · rcases List.mem_append.mp hc with hc | hc
    · exact hid c hc
    · rw [List.mem_singleton] at hc
      rw [hc]
      exact hforks ▸ h.forks
  · rw [hforks', hforks]
    exact Nat.le_succ_of_le h.forks

/-- What the loop tells about the commands: it ends early at one that is not found, which is the first one exactly
when no stage has been started. -/
structure Stages (env : Env H) (cs : List String) (p : Bool) (x x' : Exec H) (done : Bool) : Prop where
  count : x.count ≤ x'.count
  infd : x'.count = x.count → x'.infd = x.infd
  found : done = true ↔ ∀ a ∈ cs, env.found (binName a) = true
  first : done = false → (x'.count = x.count ↔ p = true ∧ ∃ a, cs.head? = some a ∧ env.found (binName a) = false)

theorem execLoop_spec {env : Env H} {out err : Option Fd} : ∀ (args : List (Option String)) (x : Exec H) {x' : Exec H}
    {done : Bool}, execLoop env args x = .ok (done, x') → Staged s out err x →
    Staged s out err x' ∧ Stages env (commands x.p args) x.p x x' done
  | [], x, x', done, h, hx => by
    cases h
    refine ⟨hx, le_rfl, fun _ => rfl, ?_, fun h => by cases h⟩
    simp [commands]
  | none :: rest, x, x', done, h, hx => by
    rw [commands]
    exact execLoop_spec rest x h hx
  | some a :: rest, x, x', done, h, hx => by
    rw [execLoop] at h
    split_ifs at h with hbar hskip hfound
    · obtain ⟨hp, ha⟩ := hbar
      obtain ⟨⟨fd₀, fd₁, sys⟩, hpipe, h⟩ := bind_ok.mp h
      obtain ⟨hx', hs⟩ := execLoop_spec rest _ h (hx.next hpipe _ _ _ _)
      have hcount : x.count + 1 ≤ x'.count := hs.count
      refine ⟨hx', by omega, fun he => by omega, ?_, fun _ => ?_⟩
      · rw [hp, commands, if_pos ha]
        exact hs.found
      · rw [hp]
        exact iff_of_false (by omega) (by simp)
    · obtain ⟨hx', hs⟩ := execLoop_spec rest x h hx
      have ha : a ≠ "|" := fun ha => hbar ⟨hskip, ha⟩
      rw [hskip, commands, if_neg ha]
      rw [hskip] at hs
      exact ⟨hx', hs⟩
    · have hp : x.p = true := by simpa using hskip
      obtain ⟨hx', hs⟩ := execLoop_spec rest _ h ⟨hx.opened, hx.children, hx.forks⟩
      refine ⟨hx', hs.count, hs.infd, ?_, fun hd => ?_⟩
      · rw [hs.found, hp, commands]
        simp [hfound]
      · have hne : ¬ x'.count = x.count := fun he => by simpa using ((hs.first hd).mp he).1
        refine iff_of_false hne ?_
        rintro ⟨-, b, hb, hnot⟩
        rw [hp, commands, List.head?_cons, Option.some.injEq] at hb
        rw [← hb, hfound] at hnot
        cases hnot
    · have hp : x.p = true := by simpa using hskip
      cases h
      refine ⟨⟨hx.opened, hx.children, hx.forks⟩, le_rfl, fun _ => rfl, ?_, fun _ => ?_⟩
      · rw [hp, commands]
        simp [hfound]
      · rw [hp, commands]
        exact iff_of_true rfl ⟨rfl, a, rfl, by simpa using hfound⟩

/-! ### The children -/

theorem waitLoop_files (picks : ℕ → ℕ) : ∀ (n : ℕ) (s : Sys H), (waitLoop picks n s).files = s.files
  | 0, _ => rfl
  | n + 1, s => waitLoop_files picks n (s.waitpid (picks n))

/-- With no more children than calls, all are waited for. -/
theorem waitLoop_all (picks : ℕ → ℕ) : ∀ (n : ℕ) (s : Sys H), s.children.length ≤ n →
    (waitLoop picks n s).children = []
  | 0, s, h => List.eq_nil_of_length_eq_zero (Nat.le_zero.mp h)
  | n + 1, s, h => by
    refine waitLoop_all picks n _ ?_
    change (s.children.eraseIdx (picks n % s.children.length)).length ≤ n
    by_cases hz : s.children.length = 0
    · rw [List.eq_nil_of_length_eq_zero hz]
      exact Nat.zero_le _
    · rw [List.length_eraseIdx_of_lt (Nat.mod_lt _ (Nat.pos_of_ne_zero hz))]
      omega

/-- When the oldest child exits first each time, the newest ones are left. -/
theorem waitLoop_oldest : ∀ (n : ℕ) (s : Sys H), (waitLoop (fun _ => 0) n s).children = s.children.drop n
  | 0, _ => rfl
  | n + 1, s => by
    rw [waitLoop, waitLoop_oldest n]
    change (s.children.eraseIdx (0 % s.children.length)).drop n = _
    rw [Nat.zero_mod]
    cases s.children with
    | nil => simp
    | cons c rest => rfl

theorem Staged.start {d : Dupfd} {name : String} (hchildren : s'.children = s.children) (hforks : s'.forks = s.forks)
    (ho : Opened s.files (d.inp.toList ++ (d.out.toList ++ d.err.toList)) s'.files) :
    Staged s d.out d.err ⟨true, [], name, d.inp, 0, s'⟩ :=
  ⟨ho, ⟨[], by simpa using hchildren, rfl, by simp⟩, hforks.ge⟩

/-- The last command and the calls of `waitpid`, when the shell had no children before. -/
theorem clean_end {out err : Option Fd} {x : Exec H} (h : Staged s out err x) (hnone : s.children = [])
    (picks : ℕ → ℕ) (filename : String) (argv : List String) :
    Clean s (waitLoop picks (x.count + 1) (builtinCommand x.sys filename argv x.infd out err)) := by
  obtain ⟨new, hnew, hlen, -⟩ := h.children
  have ho : Opened s.files (x.infd.toList ++ (out.toList ++ (err.toList ++ []))) x.sys.files := by
    rw [List.append_nil]
    exact h.opened
  obtain ⟨ho', hchildren, -⟩ := builtinCommand_spec x.infd out err filename argv ho
  refine ⟨by rw [waitLoop_files]; exact ho'.eq, fun c hc => ?_⟩
  rw [waitLoop_all] at hc
  · cases hc
  · rw [hchildren, hnew, hnone, List.nil_append, List.length_append, hlen, List.length_singleton]

/-- With a child from before, the last command can be left. -/
theorem not_clean_end {out err : Option Fd} {x : Exec H} (h : Staged s out err x) (hsome : s.children ≠ [])
    (filename : String) (argv : List String) :
    ¬ Clean s (waitLoop (fun _ => 0) (x.count + 1) (builtinCommand x.sys filename argv x.infd out err)) := by
  intro hclean
  obtain ⟨new, hnew, hlen, -⟩ := h.children
  have ho : Opened s.files (x.infd.toList ++ (out.toList ++ (err.toList ++ []))) x.sys.files := by
    rw [List.append_nil]
    exact h.opened
  obtain ⟨-, hchildren, -⟩ := builtinCommand_spec x.infd out err filename argv ho
  have hpos := List.length_pos_iff.mpr hsome
  have hlast : (⟨x.sys.forks, filename, argv⟩ : Child) ∈
      (waitLoop (fun _ => 0) (x.count + 1) (builtinCommand x.sys filename argv x.infd out err)).children := by
    rw [waitLoop_oldest, hchildren, List.drop_append_of_le_length]
    · exact List.mem_append_right _ (List.mem_singleton_self _)
    · rw [hnew, List.length_append, hlen]
      omega
  exact absurd (hclean.waited _ hlast) (not_lt.mpr h.forks)

/-- An early return is clean exactly when nothing has been opened and no stage started. -/
theorem clean_early_iff {out err : Option Fd} {x : Exec H} (h : Staged s out err x) :
    Clean s x.sys ↔ x.infd.toList ++ (out.toList ++ err.toList) = [] ∧ x.count = 0 := by
  obtain ⟨new, hnew, hlen, hid⟩ := h.children
  constructor
  · intro hclean
    refine ⟨?_, ?_⟩
    · by_contra hne
      exact h.opened.ne hne hclean.files
    · rw [← hlen, List.length_eq_zero_iff]
      refine List.eq_nil_iff_forall_not_mem.mpr fun c hc => ?_
      have hlt := hclean.waited c (by rw [hnew]; exact List.mem_append_right _ hc)
      exact absurd hlt (not_lt.mpr (hid c hc))
  · rintro ⟨hl, hz⟩
    have ho := h.opened
    rw [hl] at ho
    refine ⟨ho.eq, fun c hc => ?_⟩
    rw [hnew, List.eq_nil_of_length_eq_zero (hlen.trans hz), List.append_nil] at hc
    exact s.older c hc

/-- `builtin_exec` leaks nothing, whichever children exit first, exactly if a redirection does not open, or every
command is found and the shell has no child from before, or the first command is not found and not redirected. -/
theorem builtin_exec_clean_iff (env : Env H) (s : Sys H) (argv : List String)
    (hret : ∃ picks s', builtinExec env picks s argv = .ok s') :
    (∀ picks s', builtinExec env picks s argv = .ok s' → Clean s s') ↔
      ¬ Opens env (scanArgs argv {}).2 ∨
      ((∀ a ∈ commands true (scanArgs argv {}).1, env.found (binName a) = true) ∧ s.children = []) ∨
      (Plain (scanArgs argv {}).2 ∧
        ∃ a, (commands true (scanArgs argv {}).1).head? = some a ∧ env.found (binName a) = false) := by
  obtain ⟨picks₀, s₀, hret⟩ := hret
  obtain ⟨⟨d, args, s₁⟩, hdup, hret⟩ := bind_ok.mp hret
  obtain ⟨rfl, hchildren, hforks, hd⟩ := dupfile_spec hdup
  cases d with
  | none =>
    obtain ⟨hopens, hfiles⟩ := hd
    refine iff_of_true (fun picks s' h => ?_) (Or.inl hopens)
    rw [builtinExec, hdup, ok_bind] at h
    cases h
    exact ⟨hfiles, fun c hc => s.older c (by rwa [hchildren] at hc)⟩
  | some d =>
    obtain ⟨hopens, ho, hplain⟩ := hd
    obtain ⟨⟨done, x⟩, hloop, -⟩ := bind_ok.mp hret
    have hrun : ∀ picks, builtinExec env picks s argv = if done then
        .ok (waitLoop picks (x.count + 1) (builtinCommand x.sys x.name (wordsOf x.bargv) x.infd d.out d.err))
        else .ok x.sys := by
      intro picks
      rw [builtinExec, hdup, ok_bind]
      dsimp only
      rw [hloop, ok_bind]
    obtain ⟨hx, hs⟩ := execLoop_spec _ _ hloop (Staged.start hchildren hforks ho)
    cases done with
    | true =>
      have hall := hs.found.mp rfl
      constructor
      · intro h
        refine Or.inr (Or.inl ⟨hall, ?_⟩)
        by_contra hne
        exact not_clean_end hx hne _ _ (h (fun _ => 0) _ (hrun _))
      · rintro (hnot | ⟨-, hnone⟩ | ⟨-, a, ha, hnot⟩)
        · exact absurd hopens hnot
        · intro picks s' h
          rw [hrun, if_pos rfl] at h
          cases h
          exact clean_end hx hnone picks _ _
        · rw [hall a (List.mem_of_mem_head? ha)] at hnot
          cases hnot
    | false =>
      have hfirst := hs.first rfl
      have hclean : (∀ picks s', builtinExec env picks s argv = .ok s' → Clean s s') ↔ Clean s x.sys := by
        constructor
        · intro h
          exact h (fun _ => 0) _ (by rw [hrun]; rfl)
        · intro h picks s' hs'
          rw [hrun] at hs'
          cases hs'
          exact h
      rw [hclean, clean_early_iff hx]
      constructor
      · rintro ⟨hl, hz⟩
        rw [hs.infd hz, hplain] at hl
        exact Or.inr (Or.inr ⟨hl, (hfirst.mp hz).2⟩)
      · rintro (hnot | ⟨hall, -⟩ | ⟨hl, hmissing⟩)
        · exact absurd hopens hnot
        · exact absurd (hs.found.mpr hall) (by decide)
        · have hz := hfirst.mpr ⟨rfl, hmissing⟩
          rw [hs.infd hz, hplain]
          exact ⟨hl, hz⟩

/-- A shell with its three descriptors and no child. -/
def shell : Sys ℕ := ⟨fun fd => if fd.val < 3 then some fd.val else none, [], 0, by simp⟩

/-- Every file opens, and the only command is `ls`. -/
def system : Env ℕ :=
  ⟨fun _ _ => some 3, fun n => (2 * n + 4, 2 * n + 5), fun name => name = "/bin/ls.out", fun _ => ""⟩

theorem builtin_exec_clean_ls :
    ∃ s', builtinExec system (fun _ => 0) shell ["ls", ">", "out"] = .ok s' ∧ Clean shell s' :=
  ⟨_, rfl, (builtin_exec_clean_iff system shell ["ls", ">", "out"] ⟨fun _ => 0, _, rfl⟩).mpr
    (Or.inr (Or.inl ⟨by decide, rfl⟩)) (fun _ => 0) _ rfl⟩

/-- `nope > out`: the file stays open. -/
theorem builtin_exec_leaks : ¬∀ (env : Env ℕ) (picks : ℕ → ℕ) (s : Sys ℕ) (argv : List String) (s' : Sys ℕ),
    builtinExec env picks s argv = .ok s' → Clean s s' := by
  intro hall
  have hrun : builtinExec system (fun _ => 0) shell ["nope", ">", "out"] = .ok (shell.setFd 3 (some 3)) := rfl
  have hfiles := congrFun (hall system (fun _ => 0) shell ["nope", ">", "out"] _ hrun).files 3
  exact absurd hfiles (by decide)

end Osh
end Onix
