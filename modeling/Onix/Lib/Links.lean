import Mathlib.Data.List.Chain
import Mathlib.Tactic

/-! Doubly linked nodes in a memory. A list in it is a chain of addresses whose links are mutually
inverse; a node goes in between two neighbours of a chain or comes out again, and every chain that
meets neither is as it was. -/

set_option autoImplicit false

namespace Onix.Lib

/-- The two links of every address; `none` is NULL. -/
structure Links (A : Type) where
  prev : A → Option A
  next : A → Option A

namespace Links

variable {A : Type} {m m' : Links A} {a b n : A} {xs ys p : List A}

/-- `b` follows `a`, in both directions. -/
def Joins (m : Links A) (a b : A) : Prop := m.next a = some b ∧ m.prev b = some a

/-- Only the last address may have got another successor, and only the first another predecessor. -/
theorem chain_congr (h : p.IsChain m.Joins) (hn : ∀ x ∈ p.dropLast, m'.next x = m.next x)
    (hp : ∀ x ∈ p.tail, m'.prev x = m.prev x) : p.IsChain m'.Joins := by
  rw [List.isChain_iff_forall_rel_of_append_cons_cons] at h ⊢
  intro x y l₁ l₂ heq
  obtain ⟨hnext, hprev⟩ := h heq
  refine ⟨(hn x ?_).trans hnext, (hp y ?_).trans hprev⟩
  · rw [heq, List.dropLast_append_of_ne_nil (by simp)]
    simp
  · rw [heq]
    cases l₁ <;> simp

/-- `n` has gone in between `a` and `b`. -/
structure Inserted (m m' : Links A) (a n b : A) : Prop where
  left : m'.Joins a n
  right : m'.Joins n b
  next : ∀ x, x ≠ a → x ≠ n → m'.next x = m.next x
  prev : ∀ x, x ≠ n → x ≠ b → m'.prev x = m.prev x

/-- `n` has come out from between `a` and `b`, and has no links any more. -/
structure Removed (m m' : Links A) (a n b : A) : Prop where
  joins : m'.Joins a b
  null : m'.prev n = none ∧ m'.next n = none
  next : ∀ x, x ≠ a → x ≠ n → m'.next x = m.next x
  prev : ∀ x, x ≠ n → x ≠ b → m'.prev x = m.prev x

theorem Inserted.chain (h : Inserted m m' a n b) (hc : (xs ++ a :: b :: ys).IsChain m.Joins)
    (hnd : (xs ++ a :: b :: ys).Nodup) (hn : n ∉ xs ++ a :: b :: ys) :
    (xs ++ a :: n :: b :: ys).IsChain m'.Joins := by
  rw [List.isChain_append_cons_cons] at hc ⊢
  rw [List.isChain_cons_cons]
  simp only [List.nodup_append, List.nodup_cons, List.mem_cons, not_or] at hnd
  simp only [List.mem_append, List.mem_cons, not_or] at hn
  obtain ⟨-, ⟨⟨hab, hays⟩, hbys, -⟩, hdisj⟩ := hnd
  obtain ⟨hnxs, hna, hnb, hnys⟩ := hn
  refine ⟨chain_congr hc.1 ?_ ?_, h.left, h.right, chain_congr hc.2.2 ?_ ?_⟩
  · intro x hx
    rw [List.dropLast_concat] at hx
    exact h.next x (hdisj x hx a (.inl rfl)) fun he => hnxs (he ▸ hx)
  · intro x hx
    have hx := List.mem_of_mem_tail hx
    rw [List.mem_append, List.mem_singleton] at hx
    rcases hx with hx | rfl
    · exact h.prev x (fun he => hnxs (he ▸ hx)) (hdisj x hx b (.inr (.inl rfl)))
    · exact h.prev x (Ne.symm hna) hab
  · intro x hx
    rcases List.mem_cons.mp (List.mem_of_mem_dropLast hx) with rfl | hx
    · exact h.next x (Ne.symm hab) (Ne.symm hnb)
    · exact h.next x (fun he => hays (he ▸ hx)) fun he => hnys (he ▸ hx)
  · intro x hx
    rw [List.tail_cons] at hx
    exact h.prev x (fun he => hnys (he ▸ hx)) fun he => hbys (he ▸ hx)

theorem Removed.chain (h : Removed m m' a n b) (hc : (xs ++ a :: n :: b :: ys).IsChain m.Joins)
    (hnd : (xs ++ a :: n :: b :: ys).Nodup) : (xs ++ a :: b :: ys).IsChain m'.Joins := by
  rw [List.isChain_append_cons_cons, List.isChain_cons_cons] at hc
  rw [List.isChain_append_cons_cons]
  simp only [List.nodup_append, List.nodup_cons, List.mem_cons, not_or] at hnd
  obtain ⟨-, ⟨⟨han, hab, hays⟩, ⟨hnb, hnys⟩, hbys, -⟩, hdisj⟩ := hnd
  refine ⟨chain_congr hc.1 ?_ ?_, h.joins, chain_congr hc.2.2.2 ?_ ?_⟩
  · intro x hx
    rw [List.dropLast_concat] at hx
    exact h.next x (hdisj x hx a (.inl rfl)) (hdisj x hx n (.inr (.inl rfl)))
  · intro x hx
    have hx := List.mem_of_mem_tail hx
    rw [List.mem_append, List.mem_singleton] at hx
    rcases hx with hx | rfl
    · exact h.prev x (hdisj x hx n (.inr (.inl rfl))) (hdisj x hx b (.inr (.inr (.inl rfl))))
    · exact h.prev x han hab
  · intro x hx
    rcases List.mem_cons.mp (List.mem_of_mem_dropLast hx) with rfl | hx
    · exact h.next x (Ne.symm hab) (Ne.symm hnb)
    · exact h.next x (fun he => hays (he ▸ hx)) fun he => hnys (he ▸ hx)
  · intro x hx
    rw [List.tail_cons] at hx
    exact h.prev x (fun he => hnys (he ▸ hx)) fun he => hbys (he ▸ hx)

/-- A chain without the three addresses. -/
theorem chain_frame (hc : p.IsChain m.Joins) (hnext : ∀ x, x ≠ a → x ≠ n → m'.next x = m.next x)
    (hprev : ∀ x, x ≠ n → x ≠ b → m'.prev x = m.prev x) (ha : a ∉ p) (hn : n ∉ p) (hb : b ∉ p) :
    p.IsChain m'.Joins := by
  refine chain_congr hc (fun x hx => ?_) fun x hx => ?_
  · have hx := List.mem_of_mem_dropLast hx
    exact hnext x (fun he => ha (he ▸ hx)) fun he => hn (he ▸ hx)
  · have hx := List.mem_of_mem_tail hx
    exact hprev x (fun he => hn (he ▸ hx)) fun he => hb (he ▸ hx)

end Links

end Onix.Lib
