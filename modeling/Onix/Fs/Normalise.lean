import Onix.Fs.Pwd

/-! `abspath` against the normal form of a path: what a pathname makes of the path it starts from, name by name. -/

set_option autoImplicit false

namespace Onix

open Lib

namespace Abspath

variable {cs : List Name} {path : Name}

/-- The names that a pathname leads through; a separator at its end parts nothing. -/
def steps (path : Name) : List Name := (components (relative path)).filter fun c => decide (c ≠ [])

/-- The names that a pathname leads to, from the root if a separator begins it. -/
def normal (cs : List Name) (path : Name) : List Name :=
  (steps path).foldl move (if path.head?.any isSeparator then [] else cs)

/-- No two separators of a pathname follow each other. -/
def Single (path : Name) : Prop := [] ∉ (components (relative path)).dropLast

theorem steps_of_ne (h : [] ∉ components (relative path)) : steps path = components (relative path) := by
  rw [steps, List.filter_eq_self]
  intro c hc
  exact decide_eq_true fun he : c = [] => h (he ▸ hc)

/-- With a separator at its end a pathname makes all its moves in the loop. -/
theorem abspath_trailing {ks : List Name} (hcs : ∀ k ∈ cs, Plain k) (hks : components (relative path) = ks ++ [[]])
    (hne : [] ∉ ks) : abspath (render cs) path = .ok (render (normal cs path)) := by
  obtain ⟨ks', last, hks', hloop⟩ := abspathFrom_components (relative path)
  obtain ⟨rfl, hlast⟩ := List.append_inj' (hks'.symm.trans hks) rfl
  obtain rfl : last = [] := by simpa using hlast
  have hsteps : steps path = ks' := by
    have hfilter : (ks'.filter fun c => decide (c ≠ [])) = ks' :=
      List.filter_eq_self.mpr fun c hc => decide_eq_true fun he : c = [] => hne (he ▸ hc)
    rw [steps, hks, List.filter_append, hfilter]
    simp
  have hbase : ∀ k ∈ (if path.head?.any isSeparator then [] else cs), Plain k := by
    split_ifs
    · nofun
    · exact hcs
  have hcur : abspathBase (render cs) path = .ok (render (if path.head?.any isSeparator then [] else cs)) := by
    unfold abspathBase
    split_ifs
    · rfl
    · exact cutLast_render cs
  rw [normal, hsteps, abspath, hcur, ok_bind, hloop _ _ le_rfl hbase]
  rfl

theorem abspath_normal (hcs : ∀ k ∈ cs, Plain k) (h : Single path) :
    abspath (render cs) path = .ok (render (normal cs path)) := by
  obtain ⟨ks, last, hks, -⟩ := abspathFrom_components (relative path)
  rw [Single, hks, List.dropLast_concat] at h
  by_cases hlast : last = []
  · exact abspath_trailing hcs (by rw [hks, hlast]) h
  · have hne : [] ∉ components (relative path) := by
      rw [hks, List.mem_append, List.mem_singleton, not_or]
      exact ⟨h, Ne.symm hlast⟩
    rw [abspath_render hcs hne, normal, steps_of_ne hne]

/-! ### The buffer -/

/-- The bytes from `pwd` on. They are as many as are written. -/
abbrev Buf := ℕ → Char

def EOS : Char := '\x00'

/-- The loop of `strrsep` from `ptr` on. -/
def strrsepFrom (buf : Buf) : ℕ → ℕ → Option ℕ → Except Halt (Option ℕ)
  | 0, _, _ => .error (.panic "the string does not end")
  | rounds + 1, ptr, last =>
    let last := if isSeparator (buf ptr) then some ptr else last
    if buf ptr = EOS then .ok last else strrsepFrom buf rounds (ptr + 1) last

/-- The loop of `strncpy` from `ptr` on, with `n` characters still to be copied. -/
def strncpyFrom (buf : Buf) (ptr : ℕ) : Name → ℕ → Buf
  | _, 0 => Function.update buf (ptr - 1) EOS
  | [], _ + 1 => Function.update buf ptr EOS
  | c :: src, n + 1 => strncpyFrom (Function.update buf ptr c) (ptr + 1) src n

/-- `strcpy` -/
def strcpy (buf : Buf) (ptr : ℕ) : Name → Buf
  | [] => Function.update buf ptr EOS
  | c :: src => strcpy (Function.update buf ptr c) (ptr + 1) src

/-- `cur = strrsep(pwd) + 1; *cur = 0;` -/
def cutAt (rounds : ℕ) (buf : Buf) : Except Halt (Buf × ℕ) := do
  match ← strrsepFrom buf rounds 0 none with
  | none => .error .nullPointer
  | some last => .ok (Function.update buf (last + 1) EOS, last + 1)

/-- What is done for `..`. -/
def parentAt (rounds : ℕ) (buf : Buf) (cur : ℕ) : Except Halt (Buf × ℕ) :=
  if cur - 1 ≠ 0 then cutAt rounds (Function.update buf (cur - 1) EOS) else .ok (buf, cur)

/-- The loop of `abspath`, with the buffer, the cursor, and the pathname from where it points. -/
def loopAt (limit : ℕ) : ℕ → Buf → ℕ → Name → Except Halt (Buf × ℕ × Name)
  | 0, buf, cur, pathname => .ok (buf, cur, pathname)
  | rounds + 1, buf, cur, pathname =>
    match strsep pathname with
    | none => .ok (buf, cur, pathname)
    | some ptr =>
      let len := pathname.length - ptr.length + 1
      let pathname := pathname.take (len - 1) ++ '/' :: ptr.tail
      if pathname.take 2 = DOT ++ ['/'] then loopAt limit rounds buf cur (pathname.drop len)
      else if pathname.take 3 = DOTDOT ++ ['/'] then do
        let (buf, cur) ← parentAt limit buf cur
        loopAt limit rounds buf cur (pathname.drop len)
      else loopAt limit rounds (strncpyFrom buf cur pathname (len + 1)) (cur + len) (pathname.drop len)

/-- What is kept of the buffer before the loop. -/
def baseAt (limit : ℕ) (buf : Buf) (pathname : Name) : Except Halt (Buf × ℕ) :=
  if pathname.head?.any isSeparator then .ok (Function.update buf 1 EOS, 1) else cutAt limit buf

/-- `abspath`; no string in the buffer is as long as `limit`. -/
def abspathAt (limit : ℕ) (buf : Buf) (pathname : Name) : Except Halt Buf := do
  let (buf, cur) ← baseAt limit buf pathname
  let (buf, cur, pathname) ← loopAt limit (relative pathname).length buf cur (relative pathname)
  if pathname = [] then .ok buf
  else if pathname = DOT then .ok buf
  else if pathname ≠ DOTDOT then
    let buf := strcpy buf cur pathname
    let cur := cur + pathname.length
    .ok (Function.update (Function.update buf cur '/') (cur + 1) EOS)
  else do
    let (buf, _) ← parentAt limit buf cur
    .ok buf

/-- The string in the buffer. -/
structure Holds (buf : Buf) (s : Name) : Prop where
  text : ∀ i (h : i < s.length), buf i = s[i]
  terminator : buf s.length = EOS
  plain : EOS ∉ s

variable {buf buf' : Buf} {s t u : Name} {limit : ℕ}

/-- The string before its terminator is written. -/
def Starts (buf : Buf) (s : Name) : Prop := ∀ i (h : i < s.length), buf i = s[i]

theorem Starts.snoc (h : Starts buf s) (c : Char) : Starts (Function.update buf s.length c) (s ++ [c]) := by
  intro i hi
  by_cases he : i = s.length
  · subst he
    rw [Function.update_self, List.getElem_concat_length rfl]
  · have hlt : i < s.length := by
      rw [List.length_append, List.length_singleton] at hi
      omega
    rw [Function.update_of_ne he, h i hlt, List.getElem_append_left hlt]

theorem Starts.finish (h : Starts buf s) (hs : EOS ∉ s) : Holds (Function.update buf s.length EOS) s where
  text i hi := by rw [Function.update_of_ne hi.ne, h i hi]
  terminator := Function.update_self ..
  plain := hs

theorem Holds.starts (h : Holds buf (s ++ t)) : Starts buf s := fun i hi => by
  rw [h.text i (by rw [List.length_append]; omega), List.getElem_append_left hi]

theorem Holds.cut (h : Holds buf (s ++ t)) : Holds (Function.update buf s.length EOS) s :=
  h.starts.finish fun hs => h.plain (List.mem_append_left _ hs)

/-- `strncpy` of one character more than `u` has puts `u` behind the string. -/
theorem strncpyFrom_spec (h : Starts buf s) (rest : Name) (hu : EOS ∉ s ++ u) :
    Holds (strncpyFrom buf s.length (u ++ rest) (u.length + 1)) (s ++ u) := by
  induction u generalizing buf s with
  | nil =>
    rw [List.append_nil] at hu ⊢
    cases rest with
    | nil => exact h.finish hu
    | cons c rest =>
      have hfirst : Starts (Function.update buf s.length c) s := fun i hi => by
        rw [Function.update_of_ne hi.ne, h i hi]
      exact hfirst.finish hu
  | cons c u ih =>
    have hassoc : s ++ c :: u = (s ++ [c]) ++ u := by simp
    rw [hassoc] at hu ⊢
    have := ih (h.snoc c) hu
    rwa [List.length_append, List.length_singleton] at this

theorem strcpy_spec (h : Starts buf s) (hu : EOS ∉ s ++ u) : Holds (strcpy buf s.length u) (s ++ u) := by
  induction u generalizing buf s with
  | nil =>
    rw [List.append_nil] at hu ⊢
    exact h.finish hu
  | cons c u ih =>
    have hassoc : s ++ c :: u = (s ++ [c]) ++ u := by simp
    rw [hassoc] at hu ⊢
    have := ih (h.snoc c) hu
    rwa [List.length_append, List.length_singleton] at this

/-- `strrsep` finds the place where the last separator lies. -/
theorem strrsepFrom_spec {rounds : ℕ} (last : Option ℕ) (h : Holds buf (s ++ t)) (hr : t.length < rounds) :
    strrsepFrom buf rounds s.length last = .ok (match strrsep t with
      | some ptr => some ((s ++ t).length - ptr.length)
      | none => last) := by
  induction t generalizing s last rounds with
  | nil =>
    obtain ⟨rounds, rfl⟩ := Nat.exists_eq_succ_of_ne_zero (by omega : rounds ≠ 0)
    have hend : buf s.length = EOS := by simpa using h.terminator
    have hsep : isSeparator EOS = false := by decide
    simp [strrsepFrom, hend, hsep, strrsep]
  | cons c t ih =>
    obtain ⟨rounds, rfl⟩ := Nat.exists_eq_succ_of_ne_zero (by omega : rounds ≠ 0)
    have hc : buf s.length = c := by
      rw [h.text s.length (by simp)]
      simp
    have hne : c ≠ EOS := fun he => h.plain (by simp [he])
    have hassoc : s ++ c :: t = (s ++ [c]) ++ t := by simp
    rw [hassoc] at h
    have := ih (if isSeparator c then some s.length else last) h (by simpa using hr)
    rw [List.length_append, List.length_singleton] at this
    rw [strrsepFrom, hc, if_neg hne, this, strrsep, hassoc]
    cases strrsep t with
    | some ptr => rfl
    | none =>
      by_cases hsep : isSeparator c
      · simp [hsep]
      · simp [hsep]

theorem strrsep_suffix (s : Name) {ptr : Name} (h : strrsep s = some ptr) : 1 ≤ ptr.length ∧ ptr.length ≤ s.length := by
  induction s with
  | nil => cases h
  | cons c s ih =>
    rw [strrsep] at h
    cases hs : strrsep s with
    | some last =>
      rw [hs] at h
      cases h
      have := ih hs
      exact ⟨this.1, this.2.trans (Nat.le_succ _)⟩
    | none =>
      rw [hs] at h
      dsimp only at h
      split_ifs at h
      cases h
      exact ⟨by simp, le_rfl⟩

theorem cutAt_spec (h : Holds buf s) (hs : cutLast s = .ok t) (hlimit : s.length < limit) :
    ∃ buf', cutAt limit buf = .ok (buf', t.length) ∧ Holds buf' t ∧ t.length ≤ s.length := by
  unfold cutLast at hs
  have hscan := strrsepFrom_spec (s := []) none h hlimit
  rw [List.nil_append, List.length_nil] at hscan
  cases hptr : strrsep s with
  | none =>
    rw [hptr] at hs
    cases hs
  | some ptr =>
    rw [hptr] at hs hscan
    cases hs
    obtain ⟨hpos, hle⟩ := strrsep_suffix s hptr
    have hlen : (s.take (s.length - ptr.length + 1)).length = s.length - ptr.length + 1 := by
      rw [List.length_take]
      omega
    have hcut := Holds.cut (s := s.take (s.length - ptr.length + 1)) (t := s.drop (s.length - ptr.length + 1))
      (by rw [List.take_append_drop]; exact h)
    rw [hlen] at hcut ⊢
    refine ⟨_, ?_, hcut, by omega⟩
    rw [cutAt, hscan]
    rfl

theorem parentAt_spec (h : Holds buf s) (hs : dropDir s = .ok t) (hlimit : s.length < limit) :
    ∃ buf', parentAt limit buf s.length = .ok (buf', t.length) ∧ Holds buf' t ∧ t.length ≤ s.length := by
  unfold dropDir at hs
  unfold parentAt
  split_ifs at hs with h1
  · cases hs
    exact ⟨buf, by rw [if_neg (by omega)], h, le_rfl⟩
  · rcases List.eq_nil_or_concat s with rfl | ⟨u, c, rfl⟩
    · cases hs
    · rw [List.concat_eq_append] at *
      rw [List.dropLast_concat] at hs
      have hlen : (u ++ [c]).length - 1 = u.length := by simp
      have hu : u.length ≠ 0 := fun h0 => h1 (by simp [h0])
      have hlt : u.length < limit := by
        rw [List.length_append, List.length_singleton] at hlimit
        omega
      obtain ⟨buf', hrun, h', hle⟩ := cutAt_spec h.cut hs hlt
      rw [hlen, if_pos hu]
      exact ⟨buf', hrun, h', hle.trans (by simp)⟩

/-- The loop on the buffer is the loop on the strings. -/
theorem loopAt_spec (rounds : ℕ) {path rest : Name} (h : Holds buf s)
    (hs : abspathFrom rounds s path = .ok (t, rest)) (hpath : EOS ∉ path) (hlimit : s.length + path.length < limit) :
    ∃ buf', loopAt limit rounds buf s.length path = .ok (buf', t.length, rest) ∧ Holds buf' t ∧ EOS ∉ rest ∧
      t.length + rest.length < limit := by
  induction rounds generalizing buf s path with
  | zero =>
    cases hs
    exact ⟨buf, rfl, h, hpath, hlimit⟩
  | succ rounds ih =>
    rw [abspathFrom] at hs
    rw [loopAt]
    rcases plain_or_split path with hplain | ⟨c, sep, tail, hc, hsep, rfl⟩
    · rw [strsep_plain hplain] at hs ⊢
      cases hs
      exact ⟨buf, rfl, h, hpath, hlimit⟩
    · have hlen : (c ++ sep :: tail).length - (sep :: tail).length + 1 = c.length + 1 := by simp
      have htake : (c ++ '/' :: tail).take (c.length + 1) = c ++ ['/'] := (take_component hc hc).mpr rfl
      have hdrop : (c ++ '/' :: tail).drop (c.length + 1) = tail := by simp [List.drop_append]
      rw [List.length_append, List.length_cons] at hlimit
      have htail : EOS ∉ tail := fun hm => hpath (by simp [hm])
      rw [strsep_split hc hsep] at hs ⊢
      dsimp only at hs ⊢
      rw [hlen, Nat.add_sub_cancel, List.take_left, List.tail_cons, hdrop] at hs ⊢
      split_ifs at hs ⊢
      · exact ih h hs htail (by omega)
      · obtain ⟨s₁, hs₁, hs⟩ := bind_ok.mp hs
        obtain ⟨buf₁, hrun, h₁, hle⟩ := parentAt_spec h hs₁ (by omega : s.length < limit)
        obtain ⟨buf', hloop, hrest⟩ := ih h₁ hs htail (by omega)
        exact ⟨buf', by rw [hrun]; exact hloop, hrest⟩
      · rw [htake] at hs
        have hu : EOS ∉ s ++ (c ++ ['/']) := by
          have hslash : EOS ≠ '/' := by decide
          have hnot : EOS ∉ c := fun hm => hpath (List.mem_append_left _ hm)
          simp [h.plain, hnot, hslash]
        have hstarts : Starts buf s := fun i hi => h.text i hi
        have h₁ := strncpyFrom_spec hstarts tail hu
        have hname : (c ++ ['/']) ++ tail = c ++ '/' :: tail := by simp
        have hadd : (s ++ (c ++ ['/'])).length = s.length + (c.length + 1) := by simp
        rw [hname, List.length_append, List.length_singleton] at h₁
        obtain ⟨buf', hloop, hrest⟩ := ih h₁ hs htail (by rw [hadd]; omega)
        rw [hadd] at hloop
        exact ⟨buf', hloop, hrest⟩

/-- The string that the loop starts with. -/
theorem baseAt_spec {path base : Name} (h : Holds buf s) (hne : s ≠ []) (hs : abspathBase s path = .ok base)
    (hlimit : s.length < limit) :
    ∃ buf', baseAt limit buf path = .ok (buf', base.length) ∧ Holds buf' base ∧ base.length ≤ s.length := by
  unfold abspathBase at hs
  unfold baseAt
  split_ifs at hs ⊢
  · obtain ⟨c, s', rfl⟩ := List.exists_cons_of_ne_nil hne
    cases hs
    have hcut : Holds (Function.update buf 1 EOS) [c] := @Holds.cut buf [c] s' h
    exact ⟨_, rfl, hcut, by simp⟩
  · exact cutAt_spec h hs hlimit

/-- `abspath` on the buffer is `abspath` on the string that it holds. -/
theorem abspathAt_spec {path out : Name} (h : Holds buf s) (hne : s ≠ []) (hs : abspath s path = .ok out)
    (hpath : EOS ∉ path) (hlimit : s.length + path.length < limit) :
    ∃ buf', abspathAt limit buf path = .ok buf' ∧ Holds buf' out := by
  obtain ⟨base, hbase, hs⟩ := bind_ok.mp hs
  obtain ⟨⟨t, rest⟩, hloop, hs⟩ := bind_ok.mp hs
  obtain ⟨buf₀, hrun₀, h₀, hle⟩ := baseAt_spec h hne hbase (by omega : s.length < limit)
  have hrel : (relative path).length ≤ path.length ∧ EOS ∉ relative path := by
    unfold relative
    split_ifs
    · exact ⟨by simp, fun hm => hpath (List.mem_of_mem_tail hm)⟩
    · exact ⟨le_rfl, hpath⟩
  obtain ⟨buf₁, hrun₁, h₁, hrest, hlt⟩ := loopAt_spec _ h₀ hloop hrel.2
    (by omega : base.length + (relative path).length < limit)
  unfold abspathAt
  rw [hrun₀, ok_bind]
  dsimp only
  rw [hrun₁, ok_bind]
  dsimp only at hs ⊢
  split_ifs at hs ⊢
  · cases hs
    exact ⟨buf₁, rfl, h₁⟩
  · cases hs
    exact ⟨buf₁, rfl, h₁⟩
  · cases hs
    have hstarts : Starts buf₁ t := fun i hi => h₁.text i hi
    have hu : EOS ∉ t ++ rest := by simp [h₁.plain, hrest]
    have hcopy := strcpy_spec hstarts hu
    have hslash : EOS ∉ t ++ rest ++ ['/'] := by
      have hne : EOS ≠ '/' := by decide
      simp [h₁.plain, hrest, hne]
    have hsnoc : Starts (strcpy buf₁ t.length rest) (t ++ rest) := fun i hi => hcopy.text i hi
    have hlast := (hsnoc.snoc '/').finish hslash
    simp only [List.length_append] at hlast
    exact ⟨_, rfl, hlast⟩
  · obtain ⟨buf₂, hrun₂, h₂, -⟩ := parentAt_spec h₁ hs (by omega : t.length < limit)
    exact ⟨buf₂, by rw [hrun₂]; rfl, h₂⟩

/-- `abspath` leaves the normal form of a pathname in the buffer. -/
theorem abspath_leaves_normal (cs : List Name) (path : Name) (buf : Buf) (limit : ℕ) (hcs : ∀ k ∈ cs, Plain k)
    (hpath : Single path) (hplain : EOS ∉ path) (h : Holds buf (render cs))
    (hlimit : (render cs).length + path.length < limit) :
    ∃ buf', abspathAt limit buf path = .ok buf' ∧ Holds buf' (render (normal cs path)) :=
  abspathAt_spec h (by simp [render]) (abspath_normal hcs hpath) hplain hlimit

theorem abspath_leaves_normal_parent : ∃ buf',
    abspathAt 20 (fun i => ['/', 'a', '/'].getD i EOS) ['.', '.', '\\', '.', 'b', '/'] = .ok buf' ∧
      Holds buf' ['/', '.', 'b', '/'] := by
  have hholds : Holds (fun i => ['/', 'a', '/'].getD i EOS) (render [['a']]) := by
    refine ⟨fun i hi => ?_, rfl, by decide⟩
    have hlt : i < 3 := hi
    interval_cases i <;> rfl
  have hplain : ∀ k ∈ [['a']], Plain k := by
    intro k hk x hx
    rw [List.mem_singleton.mp hk, List.mem_singleton] at hx
    rw [hx]
    decide
  have hnormal : render (normal [['a']] ['.', '.', '\\', '.', 'b', '/']) = ['/', '.', 'b', '/'] := by decide
  have hrun := abspath_leaves_normal [['a']] ['.', '.', '\\', '.', 'b', '/'] _ 20 hplain
    (by rw [Single]; decide) (by decide) hholds (by decide)
  rwa [hnormal] at hrun

end Abspath
end Onix
