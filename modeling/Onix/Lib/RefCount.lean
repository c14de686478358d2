import Mathlib.Data.Fintype.Card
import Mathlib.Algebra.BigOperators.Ring.Finset
import Mathlib.Tactic

/-! Reference counts. The places that can hold a reference are the elements of a
finite type, and `h k` is what place `k` refers to. -/

set_option autoImplicit false

namespace Onix.Lib

open Finset

variable {κ ι δ : Type} [Fintype κ] [Fintype δ] [DecidableEq ι]

/-- The number of places that refer to `i`. -/
def refCount (h : κ → Option ι) (i : ι) : ℕ := ∑ k, if h k = some i then 1 else 0

variable {h h' : κ → Option ι} {i : ι} {k : κ}

theorem refCount_pos (hk : h k = some i) : 1 ≤ refCount h i := by
  have hle : (if h k = some i then 1 else 0) ≤ refCount h i :=
    single_le_sum (f := fun k => if h k = some i then 1 else 0) (fun _ _ => Nat.zero_le _) (mem_univ k)
  rwa [if_pos hk] at hle

variable [DecidableEq κ]

theorem refCount_update (h : κ → Option ι) (k : κ) (v : Option ι) (i : ι) :
    refCount (Function.update h k v) i + (if h k = some i then 1 else 0) = refCount h i + if v = some i then 1 else 0 := by
  unfold refCount
  rw [← add_sum_erase univ _ (mem_univ k), ← add_sum_erase univ (fun k => if h k = some i then 1 else 0) (mem_univ k),
    Function.update_self]
  have hrest : ∑ x ∈ univ.erase k, (if Function.update h k v x = some i then 1 else 0) =
      ∑ x ∈ univ.erase k, if h x = some i then 1 else 0 :=
    sum_congr rfl fun x hx => by rw [Function.update_of_ne (ne_of_mem_erase hx)]
  omega

omit [DecidableEq κ] in
/-- References put in a second set of places, all of them free before. -/
theorem refCount_fill (e : δ ↪ κ) (hout : ∀ k, k ∉ Set.range e → h' k = h k) (hnone : ∀ d, h (e d) = none) (i : ι) :
    refCount h' i = refCount h i + refCount (fun d => h' (e d)) i := by
  classical
  have hsplit : ∀ g : κ → Option ι, refCount g i =
      (∑ k ∈ univ.map e, if g k = some i then 1 else 0) + ∑ k ∈ (univ.map e)ᶜ, if g k = some i then 1 else 0 :=
    fun g => (sum_add_sum_compl _ _).symm
  have hrest : ∑ k ∈ (univ.map e)ᶜ, (if h' k = some i then 1 else 0) =
      ∑ k ∈ (univ.map e)ᶜ, if h k = some i then 1 else 0 := by
    refine sum_congr rfl fun k hk => ?_
    rw [hout k]
    rintro ⟨d, rfl⟩
    exact (mem_compl.mp hk) (mem_map_of_mem e (mem_univ d))
  have hzero : ∑ k ∈ univ.map e, (if h k = some i then 1 else 0) = 0 := by
    rw [sum_map]
    exact sum_eq_zero fun d _ => by rw [hnone d]; rfl
  have hfill : ∑ k ∈ univ.map e, (if h' k = some i then 1 else 0) = refCount (fun d => h' (e d)) i := by
    rw [sum_map]
    rfl
  rw [hsplit h', hsplit h, hrest, hzero, hfill]
  omega

end Onix.Lib
