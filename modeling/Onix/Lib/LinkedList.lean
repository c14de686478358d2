import Mathlib.Data.List.Basic
import Mathlib.Data.List.Perm.Basic
import Mathlib.Tactic

/-! A doubly linked list as the list of its nodes: insertion before the first
strictly greater key, and the two neighbours of a node. Nothing is assumed of the
order of the list, the membership facts hold for unsorted lists too. -/

set_option autoImplicit false

namespace Onix.Lib

variable {α : Type*}

/-- Insert `x` before the first element whose key is strictly greater. -/
def insertBefore (key : α → ℤ) (x : α) : List α → List α
  | [] => [x]
  | y :: ys => if key x < key y then x :: y :: ys else y :: insertBefore key x ys

theorem insertBefore_perm (key : α → ℤ) (x : α) (l : List α) :
    (insertBefore key x l).Perm (x :: l) := by
  induction l with
  | nil => exact List.Perm.refl _
  | cons y ys ih =>
    unfold insertBefore
    split_ifs
    · exact List.Perm.refl _
    · exact (ih.cons y).trans (List.Perm.swap x y ys)

@[simp] theorem mem_insertBefore {key : α → ℤ} {x y : α} {l : List α} :
    y ∈ insertBefore key x l ↔ y = x ∨ y ∈ l := by
  rw [(insertBefore_perm key x l).mem_iff, List.mem_cons]

theorem nodup_insertBefore {key : α → ℤ} {x : α} {l : List α} (hx : x ∉ l) (hl : l.Nodup) :
    (insertBefore key x l).Nodup :=
  (insertBefore_perm key x l).nodup_iff.mpr (List.nodup_cons.mpr ⟨hx, hl⟩)

theorem pairwise_insertBefore {key : α → ℤ} (x : α) {l : List α}
    (hl : l.Pairwise fun a b => key a ≤ key b) :
    (insertBefore key x l).Pairwise fun a b => key a ≤ key b := by
  induction l with
  | nil => exact List.pairwise_singleton ..
  | cons y ys ih =>
    obtain ⟨hy, hys⟩ := List.pairwise_cons.mp hl
    unfold insertBefore
    split_ifs with hlt
    · refine List.pairwise_cons.mpr ⟨fun z hz => ?_, hl⟩
      rcases List.mem_cons.mp hz with rfl | hz
      · exact hlt.le
      · exact hlt.le.trans (hy z hz)
    · refine List.pairwise_cons.mpr ⟨fun z hz => ?_, ih hys⟩
      rcases mem_insertBefore.mp hz with rfl | hz
      · exact not_lt.mp hlt
      · exact hy z hz

@[simp] theorem insertBefore_ne_nil (key : α → ℤ) (x : α) (l : List α) :
    insertBefore key x l ≠ [] := by
  cases l with
  | nil => simp [insertBefore]
  | cons y ys => unfold insertBefore; split_ifs <;> simp

variable [DecidableEq α]

/-- The node behind `x`; `none` is the tail of the list. -/
def nextOf (x : α) : List α → Option α
  | [] => none
  | y :: ys => if y = x then ys.head? else nextOf x ys

/-- The node in front of `x`; `none` is the head of the list. -/
def prevOf (x : α) (l : List α) : Option α := nextOf x l.reverse

theorem nextOf_append {x : α} {l₁ l₂ : List α} (h : x ∉ l₁) : nextOf x (l₁ ++ x :: l₂) = l₂.head? := by
  induction l₁ with
  | nil => simp [nextOf]
  | cons y ys ih =>
    rw [List.mem_cons, not_or] at h
    rw [List.cons_append, nextOf, if_neg (Ne.symm h.1), ih h.2]

theorem prevOf_append {x : α} {l₁ l₂ : List α} (h : x ∉ l₂) :
    prevOf x (l₁ ++ x :: l₂) = l₁.getLast? := by
  rw [prevOf, List.reverse_append, List.reverse_cons, List.append_assoc, List.singleton_append,
    nextOf_append (by simpa using h), List.head?_reverse]

/-- The neighbours of a node of `l`, read off the two parts of `l` around it. -/
theorem neighbours {x : α} {l : List α} (hx : x ∈ l) (hl : l.Nodup) :
    ∃ l₁ l₂, l = l₁ ++ x :: l₂ ∧ nextOf x l = l₂.head? ∧ prevOf x l = l₁.getLast? ∧
      x ∉ l₁ ∧ x ∉ l₂ := by
  obtain ⟨l₁, l₂, rfl⟩ := List.append_of_mem hx
  obtain ⟨-, h2, hd⟩ := List.nodup_append.mp hl
  have h1 : x ∉ l₁ := fun hm => hd x hm x (List.mem_cons_self ..) rfl
  have h2 : x ∉ l₂ := (List.nodup_cons.mp h2).1
  exact ⟨l₁, l₂, rfl, nextOf_append h1, prevOf_append h2, h1, h2⟩

end Onix.Lib
