import Mathlib.Tactic

/-! Memory byte by byte. What a stretch of it holds splits where the bytes are appended, comes from the last copy
to it, and stays through a copy elsewhere. Words are stored with their lowest byte first. -/

set_option autoImplicit false

namespace Onix.Lib

abbrev ByteMem := ℕ → UInt8

namespace ByteMem

variable {m m' : ByteMem} {a b n : ℕ} {xs ys : List UInt8}

def put (m : ByteMem) (a : ℕ) (xs : List UInt8) : ByteMem := fun i =>
  if a ≤ i ∧ i < a + xs.length then xs.getD (i - a) 0 else m i

/-- The `n` bytes from `a` on. -/
def get (m : ByteMem) (a n : ℕ) : List UInt8 := (List.range n).map fun i => m (a + i)

def copy (m : ByteMem) (dst src n : ℕ) : ByteMem := m.put dst (m.get src n)

def wordBytes (w : UInt32) : List UInt8 :=
  [.ofNat w.toNat, .ofNat (w.toNat / 256), .ofNat (w.toNat / 65536), .ofNat (w.toNat / 16777216)]

def load32 (m : ByteMem) (a : ℕ) : UInt32 :=
  .ofNat ((m a).toNat + (m (a + 1)).toNat * 256 + (m (a + 2)).toNat * 65536 + (m (a + 3)).toNat * 16777216)

def load16 (m : ByteMem) (a : ℕ) : ℕ := (m a).toNat + (m (a + 1)).toNat * 256

def Holds (m : ByteMem) (a : ℕ) (xs : List UInt8) : Prop := ∀ i (h : i < xs.length), m (a + i) = xs[i]

@[simp] theorem length_wordBytes (w : UInt32) : (wordBytes w).length = 4 := rfl

@[simp] theorem length_get : (m.get a n).length = n := by simp [get]

@[simp] theorem holds_nil : m.Holds a [] := fun i h => absurd h (Nat.not_lt_zero i)

theorem holds_append : m.Holds a (xs ++ ys) ↔ m.Holds a xs ∧ m.Holds (a + xs.length) ys := by
  constructor
  · intro h
    refine ⟨fun i hi => ?_, fun i hi => ?_⟩
    · rw [h i (by simp; omega), List.getElem_append_left hi]
    · rw [Nat.add_assoc, h (xs.length + i) (by simp; omega), List.getElem_append_right (by omega)]
      simp
  · rintro ⟨hx, hy⟩ i hi
    by_cases hl : i < xs.length
    · rw [hx i hl, List.getElem_append_left hl]
    · rw [List.length_append] at hi
      have h := hy (i - xs.length) (by omega)
      rw [show a + xs.length + (i - xs.length) = a + i by omega] at h
      rw [h, List.getElem_append_right (by omega)]

theorem holds_cons {x : UInt8} : m.Holds a (x :: xs) ↔ m a = x ∧ m.Holds (a + 1) xs := by
  constructor
  · intro h
    refine ⟨h 0 (by simp), fun i hi => ?_⟩
    rw [show a + 1 + i = a + (i + 1) by omega, h (i + 1) (by simpa using hi), List.getElem_cons_succ]
  · rintro ⟨hx, hs⟩ i hi
    cases i with
    | zero => simpa using hx
    | succ i => rw [show a + (i + 1) = a + 1 + i by omega, hs i (by simpa using hi), List.getElem_cons_succ]

theorem Holds.get_eq (h : m.Holds a xs) : m.get a xs.length = xs := by
  refine List.ext_getElem (by simp) fun i _ hi => ?_
  simpa [get] using h i hi

theorem Holds.congr (h : m.Holds a xs) (hm : ∀ i, a ≤ i → i < a + xs.length → m' i = m i) : m'.Holds a xs := by
  intro i hi
  rw [hm (a + i) (by omega) (by omega), h i hi]

theorem put_of_outside {i : ℕ} (h : i < a ∨ a + xs.length ≤ i) : m.put a xs i = m i := by
  unfold put
  rw [if_neg (by omega)]

theorem holds_put : (m.put a xs).Holds a xs := by
  intro i hi
  simp [put, hi]

theorem Holds.put_frame (h : m.Holds a xs) (hd : a + xs.length ≤ b ∨ b + ys.length ≤ a) : (m.put b ys).Holds a xs :=
  h.congr fun i _ _ => put_of_outside (by omega)

theorem Holds.copy_frame {src : ℕ} (h : m.Holds a xs) (hd : a + xs.length ≤ b ∨ b + n ≤ a) :
    (m.copy b src n).Holds a xs :=
  h.put_frame (by simpa using hd)

theorem Holds.copied {src : ℕ} (h : m.Holds src xs) (hn : n = xs.length) : (m.copy a src n).Holds a xs := by
  subst hn
  unfold copy
  rw [h.get_eq]
  exact holds_put

theorem Holds.load {w : UInt32} (h : m.Holds a (wordBytes w)) : m.load32 a = w := by
  have h0 := h 0 (by simp)
  have h1 := h 1 (by simp)
  have h2 := h 2 (by simp)
  have h3 := h 3 (by simp)
  simp only [wordBytes, List.getElem_cons_zero, List.getElem_cons_succ, Nat.add_zero] at h0 h1 h2 h3
  unfold load32
  rw [h0, h1, h2, h3]
  refine UInt32.toNat_inj.mp ?_
  have hw := w.toNat_lt
  simp only [UInt8.toNat_ofNat', UInt32.toNat_ofNat']
  omega

end ByteMem

end Onix.Lib
