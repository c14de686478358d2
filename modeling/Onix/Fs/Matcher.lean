import Onix.Fs.Path
import Mathlib.Data.List.TakeWhile

/-! What one match of `match_name` takes of a pathname, what a sequence of them does,
and why the loop of `named`, which looks for the place that `strrsep` found from the
other end, comes to it. -/

set_option autoImplicit false

namespace Onix

open Lib

/-- The characters before the first separator or the terminator. -/
def component (name : Name) : Name := name.takeWhile fun c => !isSeparator c

/-- What follows the first separator; without one it is empty, at the terminator. -/
def afterComponent (name : Name) : Name := (name.dropWhile fun c => !isSeparator c).tail

theorem component_plain {c : Name} (hc : Plain c) : component c = c ∧ afterComponent c = [] := by
  have hall : ∀ x ∈ c, (!isSeparator x) = true := fun x hx => by simpa using hc x hx
  exact ⟨List.takeWhile_eq_self_iff.mpr hall, by rw [afterComponent, List.dropWhile_eq_nil_iff.mpr hall, List.tail_nil]⟩

theorem component_split {c rest : Name} {sep : Char} (hc : Plain c) (hsep : isSeparator sep) :
    component (c ++ sep :: rest) = c ∧ afterComponent (c ++ sep :: rest) = rest := by
  have hall : ∀ x ∈ c, (!isSeparator x) = true := fun x hx => by simpa using hc x hx
  rw [component, afterComponent, List.takeWhile_append_of_pos hall, List.dropWhile_append_of_pos hall,
    List.takeWhile_cons_of_neg (by simp [hsep]), List.dropWhile_cons_of_neg (by simp [hsep])]
  exact ⟨List.append_nil c, rfl⟩

theorem matchName_eq {name entryName : Name} (h : Plain entryName) :
    matchName name entryName = if entryName = component name then some (afterComponent name) else none := by
  rcases plain_or_split name with hc | ⟨c, sep, rest, hc, hsep, rfl⟩
  · obtain ⟨hfirst, hafter⟩ := component_plain hc
    rw [matchName_plain hc, hfirst, hafter]
  · obtain ⟨hfirst, hafter⟩ := @component_split c rest sep hc hsep
    rw [matchName_split hc h hsep, hfirst, hafter]

theorem matchName_iff {name entryName next : Name} (h : Plain entryName) :
    matchName name entryName = some next ↔ entryName = component name ∧ next = afterComponent name := by
  rw [matchName_eq h]
  split_ifs with he
  · simp [he, eq_comm]
  · simp [he]

/-- A match takes at least one character, unless there is none. -/
theorem afterComponent_length {name : Name} (h : name ≠ []) : (afterComponent name).length < name.length := by
  rcases plain_or_split name with hc | ⟨c, sep, rest, hc, hsep, rfl⟩
  · rw [(component_plain hc).2]
    exact List.length_pos_iff.mpr h
  · rw [(component_split hc hsep).2, List.length_append, List.length_cons]
    omega

/-- Matching a list of entry names one after the other, from `path` up to `left`. -/
inductive Visits : Name → List Name → Name → Prop
  | nil (left : Name) : Visits left [] left
  | cons {path next left c : Name} {cs : List Name} :
      matchName path c = some next → Visits next cs left → Visits path (c :: cs) left

theorem Visits.suffix {path left : Name} {cs : List Name} (h : Visits path cs left) (hcs : ∀ c ∈ cs, Plain c) :
    left <:+ path := by
  induction h with
  | nil left => exact List.suffix_refl left
  | @cons path next left c cs hm _ ih =>
    obtain ⟨hc, hcs⟩ := List.forall_mem_cons.mp hcs
    obtain ⟨-, rfl⟩ := (matchName_iff hc).mp hm
    exact (ih hcs).trans ((List.tail_suffix _).trans (List.dropWhile_suffix _))

/-- Matched to the terminator, a path has just its components. -/
theorem visits_components (path : Name) : Visits path (components path) [] := by
  induction hn : path.length using Nat.strong_induction_on generalizing path with
  | _ n ih =>
    rcases plain_or_split path with hc | ⟨c, sep, rest, hc, hsep, rfl⟩
    · rw [components_plain hc]
      exact .cons (by rw [matchName_plain hc, if_pos rfl]) (.nil [])
    · rw [components_split hc hsep]
      refine .cons (by rw [matchName_split hc hc hsep, if_pos rfl]) (ih rest.length ?_ rest rfl)
      rw [← hn, List.length_append, List.length_cons]
      omega

/-- No other entry names can be matched, as long as there are components; at the terminator the
empty name matches without end. -/
theorem Visits.leads {path left : Name} {cs : List Name} (h : Visits path cs left) (hcs : ∀ c ∈ cs, Plain c)
    (hlen : cs.length ≤ (components path).length) : cs <+: components path := by
  induction h with
  | nil left => exact List.nil_prefix
  | @cons path next left c cs hm _ ih =>
    obtain ⟨hc, hrest⟩ := List.forall_mem_cons.mp hcs
    obtain ⟨rfl, rfl⟩ := (matchName_iff hc).mp hm
    rcases plain_or_split path with hp | ⟨c, sep, rest, hp, hsep, rfl⟩
    · rw [components_plain hp] at hlen ⊢
      obtain rfl : cs = [] := List.length_eq_zero_iff.mp (by simpa using hlen)
      rw [(component_plain hp).1]
    · rw [components_split hp hsep] at hlen ⊢
      rw [(component_split hp hsep).1]
      rw [(component_split hp hsep).2] at ih
      exact List.cons_prefix_cons.mpr ⟨rfl, ih hrest (by simpa using hlen)⟩

namespace Disk

variable {fs : Disk}

/-- A round of `named` fails an assertion or meets a NULL pointer, or it is over. -/
theorem findEntry_ends {dir : Ino} {left : Name} {msg : String} : fs.findEntry dir left ≠ .error (.panic msg) := by
  unfold findEntry searched
  cases fs.isDir dir with
  | false => exact nofun
  | true =>
    rw [assert_true, ok_bind]
    split_ifs
    · split <;> exact nofun
    · exact nofun

/-- The loop of `named` meets `right`: the rest of the pathname shrinks with every round, and only
behind the last separator is there none. -/
theorem namedFrom_ends (hfs : fs.PlainNames) {dev : ℕ} {msg : String} :
    ∀ (rounds : ℕ) (inode : Ino) (c rest : Name) (sep : Char), Plain c → isSeparator sep → rest.length < rounds →
      fs.namedFrom dev ((strrsep rest).getD (sep :: rest)).tail rounds inode (c ++ sep :: rest) ≠
        .error (.panic msg) := by
  intro rounds
  induction rounds with
  | zero => exact fun _ _ _ _ _ _ h => absurd h (Nat.not_lt_zero _)
  | succ rounds ih =>
    intro inode c rest sep hc hsep hlen
    rw [namedFrom]
    cases hr : fs.findEntry inode (c ++ sep :: rest) with
    | error e =>
      rintro h
      cases h
      exact findEntry_ends hr
    | ok r =>
      rw [ok_bind]
      cases r with
      | none =>
        intro h
        cases h
      | some r =>
        obtain ⟨dir, nr, next⟩ := r
        obtain ⟨-, rfl⟩ := findEntry_finds (fun n hn => matchName_split hc hn hsep) hfs hr
        dsimp only
        split_ifs with hd hend
        · intro h
          cases h
        · intro h
          cases h
        · rcases plain_or_split next with hplain | ⟨c', sep', rest', hc', hsep', rfl⟩
          · rw [strrsep_plain hplain] at hend
            exact absurd rfl hend
          · rw [strrsep_split hc' hsep', Option.getD_some]
            rw [List.length_append, List.length_cons] at hlen
            exact ih _ c' rest' sep' hc' hsep' (by omega)

theorem named_ends (hfs : fs.PlainNames) (task : TaskDirs) (pathname : Name) (msg : String) :
    fs.named task pathname ≠ .error (.panic msg) := by
  cases pathname with
  | nil => exact nofun
  | cons c rest =>
    unfold named
    dsimp only
    generalize (if isSeparator c then task.iroot else task.ipwd) = inode
    generalize (if isSeparator c then rest else c :: rest) = left
    split_ifs
    · exact nofun
    · rcases plain_or_split left with hplain | ⟨c', sep, rest', hc', hsep, rfl⟩
      · rw [strrsep_plain hplain]
        exact nofun
      · rw [strrsep_split hc' hsep]
        apply namedFrom_ends hfs _ _ c' rest' sep hc' hsep
        rw [List.length_append, List.length_cons]
        omega

/-- `match_name` compares the entry's name with the next component and steps over it; so it goes
through the components of a path in their order, and `named` comes to the last of them. -/
theorem match_name_components :
    (∀ name entryName next, Plain entryName →
      (matchName name entryName = some next ↔ entryName = component name ∧ next = afterComponent name)) ∧
    (∀ name entryName next, Plain entryName → name ≠ [] → matchName name entryName = some next →
      next <:+ name ∧ next.length < name.length) ∧
    (∀ path, Visits path (components path) []) ∧
    (∀ path cs left, (∀ c ∈ cs, Plain c) → cs.length ≤ (components path).length → Visits path cs left →
      cs <+: components path ∧ left <:+ path) ∧
    (∀ (fs : Disk), fs.PlainNames → ∀ task pathname, fs.named task pathname ≠
      .error (.panic "named does not return")) := by
  refine ⟨fun name entryName next h => matchName_iff h, fun name entryName next h hne hm => ?_, visits_components,
    fun path cs left hcs hlen h => ⟨h.leads hcs hlen, h.suffix hcs⟩,
    fun fs hfs task pathname => named_ends hfs task pathname _⟩
  obtain ⟨-, rfl⟩ := (matchName_iff h).mp hm
  exact ⟨(List.tail_suffix _).trans (List.dropWhile_suffix _), afterComponent_length hne⟩

end Disk

end Onix
