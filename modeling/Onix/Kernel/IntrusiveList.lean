import Onix.Kernel.Task
import Onix.Lib.Links

/-! The lists of list.c: nodes that hold their own links, between two sentinels for every list. -/

set_option autoImplicit false

namespace Onix

open Lib

namespace IntrusiveList

/-- Where a `list_node_t` lies: the two sentinels of a list, and the nodes that are linked in. -/
inductive Addr (L N : Type)
  | head (l : L)
  | tail (l : L)
  | node (n : N)
  deriving DecidableEq

variable {L N : Type}

/-! ### The sequences that the lists stand for -/

/-- The addresses of a list with the nodes `ns`, from sentinel to sentinel. -/
def path (l : L) (ns : List N) : List (Addr L N) := .head l :: (ns.map .node ++ [.tail l])

/-- The contents of every list, and nodes that are known to have no links. -/
structure Seqs (L N : Type) where
  contents : L → List N
  loose : Set N

/-- The links in the memory are those of the lists. -/
structure Rep (m : Links (Addr L N)) (q : Seqs L N) : Prop where
  /-- From head to tail `prev` and `next` are inverse. -/
  chain : ∀ l, (path l (q.contents l)).IsChain m.Joins
  ends : ∀ l, m.prev (.head l) = none ∧ m.next (.tail l) = none
  nodup : ∀ l, (q.contents l).Nodup
  disjoint : ∀ l l' n, n ∈ q.contents l → n ∈ q.contents l' → l = l'
  loose : ∀ n ∈ q.loose, m.prev (.node n) = none ∧ m.next (.node n) = none

variable {m m' : Links (Addr L N)} {q : Seqs L N} {l : L} {n : N} {ns l₁ l₂ : List N} {a b : Addr L N}

theorem path_nodup (h : ns.Nodup) : (path l ns).Nodup := by
  have hmap : (ns.map (Addr.node : N → Addr L N)).Nodup := h.map fun x y he => by cases he; rfl
  rw [path, List.nodup_cons, List.nodup_append]
  refine ⟨by simp, hmap, by simp, ?_⟩
  simp

theorem mem_path {x : Addr L N} : x ∈ path l ns ↔ x = .head l ∨ x = .tail l ∨ ∃ n ∈ ns, x = .node n := by
  simp only [path, List.mem_cons, List.mem_append, List.mem_map, List.not_mem_nil, or_false]
  constructor
  · rintro (h | ⟨n, hn, rfl⟩ | h)
    · exact .inl h
    · exact .inr (.inr ⟨n, hn, rfl⟩)
    · exact .inr (.inl h)
  · rintro (h | h | ⟨n, hn, rfl⟩)
    · exact .inl h
    · exact .inr (.inr h)
    · exact .inr (.inl ⟨n, hn, rfl⟩)

theorem Rep.path_disjoint (h : Rep m q) {l l' : L} {x : Addr L N} (hx : x ∈ path l (q.contents l))
    (hx' : x ∈ path l' (q.contents l')) : l = l' := by
  rw [mem_path] at hx hx'
  rcases hx with rfl | rfl | ⟨n, hn, rfl⟩
  · simpa using hx'
  · simpa using hx'
  · exact h.disjoint l l' n hn (by simpa using hx')

/-- The address in front of what follows the nodes `l₁`. -/
def before (l : L) (l₁ : List N) : Addr L N := l₁.getLast?.elim (.head l) .node

/-- The address behind what stands before the nodes `l₂`. -/
def behind (l : L) (l₂ : List N) : Addr L N := l₂.head?.elim (.tail l) .node

/-- A path around the place between two parts of its nodes. -/
theorem path_split (l : L) (l₁ l₂ : List N) : ∃ xs ys, ∀ mid : List N,
    path l (l₁ ++ (mid ++ l₂)) = xs ++ before l l₁ :: (mid.map .node ++ behind l l₂ :: ys) := by
  obtain ⟨xs, hxs⟩ : ∃ xs, Addr.head l :: l₁.map .node = xs ++ [before l l₁] := by
    rcases List.eq_nil_or_concat l₁ with rfl | ⟨l₁, n, rfl⟩
    · exact ⟨[], rfl⟩
    · exact ⟨.head l :: l₁.map .node, by simp [before]⟩
  obtain ⟨ys, hys⟩ : ∃ ys, l₂.map .node ++ [Addr.tail l] = behind l l₂ :: ys := by
    cases l₂ with
    | nil => exact ⟨[], rfl⟩
    | cons n l₂ => exact ⟨l₂.map .node ++ [.tail l], rfl⟩
  refine ⟨xs, ys, fun mid => ?_⟩
  rw [path, List.map_append, List.map_append, List.append_assoc, List.append_assoc, hys, ← List.cons_append, hxs]
  simp

theorem Rep.joins_place (h : Rep m q) (hl : q.contents l = l₁ ++ l₂) : m.Joins (before l l₁) (behind l l₂) := by
  obtain ⟨xs, ys, hpath⟩ := path_split l l₁ l₂
  have hc := h.chain l
  rw [hl, show path l (l₁ ++ l₂) = _ from hpath [], List.map_nil, List.nil_append] at hc
  exact (List.isChain_append_cons_cons.mp hc).2.1

theorem Rep.joins_node (h : Rep m q) (hl : q.contents l = l₁ ++ n :: l₂) :
    m.Joins (before l l₁) (.node n) ∧ m.Joins (.node n) (behind l l₂) ∧ before l l₁ ≠ .node n ∧
      Addr.node n ≠ behind l l₂ := by
  obtain ⟨xs, ys, hpath⟩ := path_split l l₁ l₂
  have hc := h.chain l
  have hnd := path_nodup (l := l) (h.nodup l)
  rw [hl, show path l (l₁ ++ n :: l₂) = xs ++ before l l₁ :: .node n :: behind l l₂ :: ys from hpath [n]] at hc hnd
  rw [List.isChain_append_cons_cons, List.isChain_cons_cons] at hc
  simp only [List.nodup_append, List.nodup_cons, List.mem_cons, not_or] at hnd
  exact ⟨hc.2.1, hc.2.2.1, hnd.2.1.1.1, hnd.2.1.2.1.1⟩

/-- A node that is in no list is neither neighbour of a place. -/
theorem fresh_place (hl : q.contents l = l₁ ++ l₂) (hn : n ∉ q.contents l) :
    before l l₁ ≠ .node n ∧ Addr.node n ≠ behind l l₂ := by
  rw [hl, List.mem_append, not_or] at hn
  constructor
  · intro he
    unfold before at he
    cases hlast : l₁.getLast? with
    | none => simp [hlast] at he
    | some k =>
      simp only [hlast, Option.elim_some, Addr.node.injEq] at he
      exact hn.1 (he ▸ List.mem_of_getLast? hlast)
  · intro he
    unfold behind at he
    cases hhead : l₂.head? with
    | none => simp [hhead] at he
    | some k =>
      simp only [hhead, Option.elim_some, Addr.node.injEq] at he
      exact hn.2 (he ▸ List.mem_of_head? hhead)

/-- A node without links is in no list. -/
theorem Rep.not_loose (h : Rep m q) (hn : n ∈ q.loose) (l : L) : n ∉ q.contents l := by
  intro hmem
  obtain ⟨l₁, l₂, hl⟩ := List.append_of_mem hmem
  have hnext := (h.joins_node hl).2.1.1
  rw [(h.loose n hn).2] at hnext
  cases hnext

variable [DecidableEq L]

/-- A node that was in no list has gone into one. -/
theorem Rep.place (h : Rep m q) (hl : q.contents l = l₁ ++ l₂) (hn : ∀ l', n ∉ q.contents l')
    (hi : m.Inserted m' (before l l₁) (.node n) (behind l l₂)) :
    Rep m' ⟨Function.update q.contents l (l₁ ++ n :: l₂), q.loose \ {n}⟩ := by
  obtain ⟨xs, ys, hpath⟩ := path_split l l₁ l₂
  have hold : path l (q.contents l) = xs ++ before l l₁ :: behind l l₂ :: ys := by
    rw [hl]
    exact hpath []
  have hnew : path l (l₁ ++ n :: l₂) = xs ++ before l l₁ :: .node n :: behind l l₂ :: ys := hpath [n]
  have hc := h.chain l
  have hnd := path_nodup (l := l) (h.nodup l)
  have hnot : ∀ l', Addr.node n ∉ path l' (q.contents l') := fun l' hmem => hn l' (by simpa [mem_path] using hmem)
  have ha : before l l₁ ∈ path l (q.contents l) := by simp [hold]
  have hb : behind l l₂ ∈ path l (q.contents l) := by simp [hold]
  have hjoins := h.joins_place hl
  have hperm : (l₁ ++ n :: l₂).Perm (n :: q.contents l) := hl ▸ List.perm_middle
  refine ⟨fun l' => ?_, fun l' => ⟨?_, ?_⟩, fun l' => ?_, fun k k' x hx hx' => ?_, fun x hx => ⟨?_, ?_⟩⟩
  · dsimp only
    by_cases hll : l' = l
    · subst hll
      rw [Function.update_self, hnew]
      exact hi.chain (hold ▸ hc) (hold ▸ hnd) (hold ▸ hnot l')
    · rw [Function.update_of_ne hll]
      exact Links.chain_frame (h.chain l') hi.next hi.prev (fun hm => hll (h.path_disjoint hm ha))
        (hnot l') (fun hm => hll (h.path_disjoint hm hb))
  · rw [hi.prev _ (by simp) fun he => ?_]
    · exact (h.ends l').1
    · have := (h.ends l').1
      rw [he, hjoins.2] at this
      cases this
  · rw [hi.next _ (fun he => ?_) (by simp)]
    · exact (h.ends l').2
    · have := (h.ends l').2
      rw [he, hjoins.1] at this
      cases this
  · dsimp only
    by_cases hll : l' = l
    · subst hll
      rw [Function.update_self]
      exact hperm.nodup_iff.mpr (List.nodup_cons.mpr ⟨hn l', h.nodup l'⟩)
    · rw [Function.update_of_ne hll]
      exact h.nodup l'
  · have hwhere : ∀ k x, x ∈ Function.update q.contents l (l₁ ++ n :: l₂) k →
        (x = n ∧ k = l) ∨ x ≠ n ∧ x ∈ q.contents k := fun k x hx => by
      rw [Function.update_apply] at hx
      split_ifs at hx with hk
      · rcases List.mem_cons.mp (hperm.mem_iff.mp hx) with rfl | hx
        · exact .inl ⟨rfl, hk⟩
        · exact .inr ⟨fun he => hn l (he ▸ hx), hk ▸ hx⟩
      · exact .inr ⟨fun he => hn k (he ▸ hx), hx⟩
    rcases hwhere k x hx with ⟨rfl, hk⟩ | ⟨hne, hx⟩ <;> rcases hwhere k' x hx' with ⟨he, hk'⟩ | ⟨hne', hx'⟩
    · rw [hk, hk']
    · exact absurd rfl hne'
    · exact absurd he hne
    · exact h.disjoint k k' x hx hx'
  · obtain ⟨hprev, -⟩ := h.loose x hx.1
    rw [hi.prev _ (fun he => hx.2 (by cases he; rfl)) fun he => ?_, hprev]
    rw [he, hjoins.2] at hprev
    cases hprev
  · obtain ⟨-, hnext⟩ := h.loose x hx.1
    rw [hi.next _ (fun he => ?_) fun he => hx.2 (by cases he; rfl), hnext]
    rw [he, hjoins.1] at hnext
    cases hnext

/-- A node has come out of its list and is loose. -/
theorem Rep.drop (h : Rep m q) (hl : q.contents l = l₁ ++ n :: l₂)
    (hr : m.Removed m' (before l l₁) (.node n) (behind l l₂)) :
    Rep m' ⟨Function.update q.contents l (l₁ ++ l₂), insert n q.loose⟩ := by
  obtain ⟨xs, ys, hpath⟩ := path_split l l₁ l₂
  have hold : path l (q.contents l) = xs ++ before l l₁ :: .node n :: behind l l₂ :: ys := by
    rw [hl]
    exact hpath [n]
  have hnew : path l (l₁ ++ l₂) = xs ++ before l l₁ :: behind l l₂ :: ys := hpath []
  have hc := h.chain l
  have hnd := path_nodup (l := l) (h.nodup l)
  have ha : before l l₁ ∈ path l (q.contents l) := by simp [hold]
  have hb : behind l l₂ ∈ path l (q.contents l) := by simp [hold]
  have hm : Addr.node n ∈ path l (q.contents l) := by simp [hold]
  obtain ⟨hjoins, hjoins', -, -⟩ := h.joins_node hl
  have hsub : (l₁ ++ l₂).Sublist (q.contents l) := by
    rw [hl]
    exact (List.sublist_cons_self n l₂).append_left l₁
  have hmem : ∀ k x, x ∈ Function.update q.contents l (l₁ ++ l₂) k → x ∈ q.contents k := fun k x hx => by
    rw [Function.update_apply] at hx
    split_ifs at hx with hk
    · exact hk ▸ hsub.subset hx
    · exact hx
  refine ⟨fun l' => ?_, fun l' => ⟨?_, ?_⟩, fun l' => ?_, fun k k' x hx hx' =>
    h.disjoint k k' x (hmem k x hx) (hmem k' x hx'), fun x hx => ?_⟩
  · dsimp only
    by_cases hll : l' = l
    · subst hll
      rw [Function.update_self, hnew]
      exact hr.chain (hold ▸ hc) (hold ▸ hnd)
    · rw [Function.update_of_ne hll]
      exact Links.chain_frame (h.chain l') hr.next hr.prev (fun hm => hll (h.path_disjoint hm ha))
        (fun hm' => hll (h.path_disjoint hm' hm)) (fun hm => hll (h.path_disjoint hm hb))
  · rw [hr.prev _ (by simp) fun he => ?_]
    · exact (h.ends l').1
    · have := (h.ends l').1
      rw [he, hjoins'.2] at this
      cases this
  · rw [hr.next _ (fun he => ?_) (by simp)]
    · exact (h.ends l').2
    · have := (h.ends l').2
      rw [he, hjoins.1] at this
      cases this
  · dsimp only
    by_cases hll : l' = l
    · subst hll
      rw [Function.update_self]
      exact (h.nodup l').sublist hsub
    · rw [Function.update_of_ne hll]
      exact h.nodup l'
  · by_cases hxn : x = n
    · rw [hxn]
      exact hr.null
    · obtain ⟨hprev, hnext⟩ := h.loose x (hx.resolve_left hxn)
      have hne : Addr.node x ≠ Addr.node (L := L) n := fun he => hxn (by cases he; rfl)
      refine ⟨?_, ?_⟩
      · rw [hr.prev _ hne fun he => ?_, hprev]
        rw [he, hjoins'.2] at hprev
        cases hprev
      · rw [hr.next _ (fun he => ?_) hne, hnext]
        rw [he, hjoins.1] at hnext
        cases hnext

/-! ### The functions -/

variable [DecidableEq N]

def setNext (m : Links (Addr L N)) (a : Addr L N) (v : Option (Addr L N)) : Links (Addr L N) :=
  { m with next := Function.update m.next a v }

def setPrev (m : Links (Addr L N)) (a : Addr L N) (v : Option (Addr L N)) : Links (Addr L N) :=
  { m with prev := Function.update m.prev a v }

/-- A pointer that is about to be followed. -/
def deref (p : Option (Addr L N)) : Except Halt (Addr L N) :=
  match p with
  | some a => .ok a
  | none => .error .nullPointer

def listInit (m : Links (Addr L N)) (l : L) : Links (Addr L N) :=
  let m := setPrev m (.head l) none
  let m := setNext m (.head l) (some (.tail l))
  let m := setNext m (.tail l) none
  setPrev m (.tail l) (some (.head l))

def listInsertBefore (m : Links (Addr L N)) (anchor node : Addr L N) : Except Halt (Links (Addr L N)) := do
  let m := setNext m node (some anchor)
  let p ← deref (m.prev anchor)
  let m := setNext m p (some node)
  let m := setPrev m node (m.prev anchor)
  .ok (setPrev m anchor (some node))

def listInsertAfter (m : Links (Addr L N)) (anchor node : Addr L N) : Except Halt (Links (Addr L N)) := do
  let m := setNext m node (m.next anchor)
  let m := setNext m anchor (some node)
  let m := setPrev m node (some anchor)
  let p ← deref (m.next node)
  .ok (setPrev m p (some node))

/-- The loop of `list_search` from `next` on. -/
def searchFrom (m : Links (Addr L N)) (l : L) (node : Addr L N) : ℕ → Option (Addr L N) → Except Halt Bool
  | 0, _ => .error (.panic "the list does not end")
  | rounds + 1, next =>
    if next = some (.tail l) then .ok false
    else if next = some node then .ok true
    else do
      let p ← deref next
      searchFrom m l node rounds (m.next p)

def listSearch (rounds : ℕ) (m : Links (Addr L N)) (l : L) (node : Addr L N) : Except Halt Bool :=
  searchFrom m l node rounds (m.next (.head l))

def listEmpty (m : Links (Addr L N)) (l : L) : Bool := m.next (.head l) = some (.tail l)

/-- The loop of `list_size` from `next` on. -/
def sizeFrom (m : Links (Addr L N)) (l : L) : ℕ → Option (Addr L N) → UInt32 → Except Halt UInt32
  | 0, _, _ => .error (.panic "the list does not end")
  | rounds + 1, next, size =>
    if next = some (.tail l) then .ok size
    else do
      let p ← deref next
      sizeFrom m l rounds (m.next p) (size + 1)

def listSize (rounds : ℕ) (m : Links (Addr L N)) (l : L) : Except Halt UInt32 :=
  sizeFrom m l rounds (m.next (.head l)) 0

def listRemove (m : Links (Addr L N)) (node : Addr L N) : Except Halt (Links (Addr L N)) := do
  assert "node->prev != NULL" (m.prev node).isSome
  assert "node->next != NULL" (m.next node).isSome
  let p ← deref (m.prev node)
  let m := setNext m p (m.next node)
  let p ← deref (m.next node)
  let m := setPrev m p (m.prev node)
  let m := setPrev m node none
  .ok (setNext m node none)

def listPush (rounds : ℕ) (m : Links (Addr L N)) (l : L) (node : Addr L N) : Except Halt (Links (Addr L N)) := do
  let found ← listSearch rounds m l node
  assert "!list_search(list, node)" !found
  listInsertAfter m (.head l) node

def listPushback (rounds : ℕ) (m : Links (Addr L N)) (l : L) (node : Addr L N) : Except Halt (Links (Addr L N)) := do
  let found ← listSearch rounds m l node
  assert "!list_search(list, node)" !found
  listInsertBefore m (.tail l) node

def listPop (m : Links (Addr L N)) (l : L) : Except Halt (Addr L N × Links (Addr L N)) := do
  assert "!list_empty(list)" !listEmpty m l
  let node ← deref (m.next (.head l))
  let m ← listRemove m node
  .ok (node, m)

def listPopback (m : Links (Addr L N)) (l : L) : Except Halt (Addr L N × Links (Addr L N)) := do
  assert "!list_empty(list)" !listEmpty m l
  let node ← deref (m.prev (.tail l))
  let m ← listRemove m node
  .ok (node, m)

/-- The loop of `list_insert_sort` from `ptr` on: the node to insert before. `element` is what
`element_node_key` reads at an address. -/
def anchorFrom (m : Links (Addr L N)) (l : L) (element : Addr L N → ℤ) (key : ℤ) :
    ℕ → Option (Addr L N) → Except Halt (Addr L N)
  | 0, _ => .error (.panic "the list does not end")
  | rounds + 1, ptr =>
    if ptr = some (.tail l) then .ok (.tail l)
    else do
      let p ← deref ptr
      if element p > key then .ok p else anchorFrom m l element key rounds (m.next p)

def listInsertSort (rounds : ℕ) (m : Links (Addr L N)) (l : L) (node : Addr L N) (element : Addr L N → ℤ) :
    Except Halt (Links (Addr L N)) := do
  let anchor ← anchorFrom m l element (element node) rounds (m.next (.head l))
  assert "node->next == NULL" (m.next node).isNone
  assert "node->prev == NULL" (m.prev node).isNone
  listInsertBefore m anchor node

/-! ### What the functions do to the links -/

omit [DecidableEq L] [DecidableEq N] in
theorem deref_some (a : Addr L N) : deref (some a) = .ok a := rfl

variable {x y z : Addr L N}

/-- The links that both insertions leave. -/
theorem links_inserted (m : Links (Addr L N)) (hxy : x ≠ y) (hyz : y ≠ z) :
    m.Inserted ⟨Function.update (Function.update m.prev y (some x)) z (some y),
      Function.update (Function.update m.next y (some z)) x (some y)⟩ x y z := by
  refine ⟨⟨?_, ?_⟩, ⟨?_, ?_⟩, ?_, ?_⟩
  · simp
  · simp [Function.update_of_ne hyz]
  · simp [Function.update_of_ne hxy.symm]
  · simp
  · intro w hw hw'
    simp [Function.update_of_ne hw, Function.update_of_ne hw']
  · intro w hw hw'
    simp [Function.update_of_ne hw, Function.update_of_ne hw']

theorem listInsertBefore_inserted (h : m.Joins x z) (hxy : x ≠ y) (hyz : y ≠ z) :
    ∃ m', listInsertBefore m z y = .ok m' ∧ m.Inserted m' x y z := by
  refine ⟨_, ?_, links_inserted m hxy hyz⟩
  simp [listInsertBefore, setNext, setPrev, h.2, deref]

theorem listInsertAfter_inserted (h : m.Joins x z) (hxy : x ≠ y) (hyz : y ≠ z) :
    ∃ m', listInsertAfter m x y = .ok m' ∧ m.Inserted m' x y z := by
  refine ⟨_, ?_, links_inserted m hxy hyz⟩
  simp [listInsertAfter, setNext, setPrev, h.1, deref, Function.update_of_ne hxy.symm]

theorem listRemove_removed (h : m.Joins x y) (h' : m.Joins y z) (hxy : x ≠ y) (hyz : y ≠ z) :
    ∃ m', listRemove m y = .ok m' ∧ m.Removed m' x y z := by
  obtain ⟨hnext, hprev⟩ := h
  obtain ⟨hnext', hprev'⟩ := h'
  refine ⟨⟨Function.update (Function.update m.prev z (some x)) y none,
    Function.update (Function.update m.next x (some z)) y none⟩, ?_, ⟨?_, ?_⟩, ⟨?_, ?_⟩, ?_, ?_⟩
  · simp [listRemove, setNext, setPrev, hprev, hnext', deref, Function.update_of_ne hxy.symm]
  · simp [Function.update_of_ne hxy]
  · simp [Function.update_of_ne hyz.symm]
  · simp
  · simp
  · intro w hw hw'
    simp [Function.update_of_ne hw, Function.update_of_ne hw']
  · intro w hw hw'
    simp [Function.update_of_ne hw, Function.update_of_ne hw']

/-- The search goes along the rest of a list, and finds what is in it. -/
theorem searchFrom_spec (ns : List N) (x : Addr L N) (rounds : ℕ)
    (h : (x :: (ns.map .node ++ [.tail l])).IsChain m.Joins) (hr : ns.length < rounds) :
    searchFrom m l (.node n) rounds (m.next x) = .ok (decide (n ∈ ns)) := by
  induction ns generalizing x rounds with
  | nil =>
    obtain ⟨rounds, rfl⟩ := Nat.exists_eq_succ_of_ne_zero (by omega : rounds ≠ 0)
    have hnext : m.next x = some (.tail l) := (List.isChain_cons_cons.mp h).1.1
    simp [searchFrom, hnext]
  | cons y ns ih =>
    obtain ⟨rounds, rfl⟩ := Nat.exists_eq_succ_of_ne_zero (by omega : rounds ≠ 0)
    obtain ⟨⟨hnext, -⟩, hrest⟩ := List.isChain_cons_cons.mp h
    rw [searchFrom, hnext, if_neg (by simp)]
    by_cases hy : y = n
    · rw [if_pos (by rw [hy])]
      simp [hy]
    · rw [if_neg (by simpa using hy), deref_some, ok_bind, ih _ rounds hrest (by simpa using hr)]
      simp [Ne.symm hy]

theorem sizeFrom_spec (ns : List N) (x : Addr L N) (rounds : ℕ) (size : UInt32)
    (h : (x :: (ns.map .node ++ [.tail l])).IsChain m.Joins) (hr : ns.length < rounds) :
    sizeFrom m l rounds (m.next x) size = .ok (size + UInt32.ofNat ns.length) := by
  induction ns generalizing x rounds size with
  | nil =>
    obtain ⟨rounds, rfl⟩ := Nat.exists_eq_succ_of_ne_zero (by omega : rounds ≠ 0)
    have hnext : m.next x = some (.tail l) := (List.isChain_cons_cons.mp h).1.1
    simp [sizeFrom, hnext]
  | cons y ns ih =>
    obtain ⟨rounds, rfl⟩ := Nat.exists_eq_succ_of_ne_zero (by omega : rounds ≠ 0)
    obtain ⟨⟨hnext, -⟩, hrest⟩ := List.isChain_cons_cons.mp h
    rw [sizeFrom, hnext, if_neg (by simp), deref_some, ok_bind, ih _ rounds _ hrest (by simpa using hr),
      List.length_cons, UInt32.ofNat_add, UInt32.add_assoc, UInt32.add_comm 1]
    rfl

/-- The loop of `list_insert_sort` stops in front of the first greater key. -/
theorem anchorFrom_spec (element : Addr L N → ℤ) (n : N) (ns : List N) (x : Addr L N) (rounds : ℕ)
    (h : (x :: (ns.map .node ++ [.tail l])).IsChain m.Joins) (hr : ns.length < rounds) :
    ∃ l₁ l₂, anchorFrom m l element (element (.node n)) rounds (m.next x) = .ok (behind l l₂) ∧ ns = l₁ ++ l₂ ∧
      insertBefore (fun k => element (.node k)) n ns = l₁ ++ n :: l₂ := by
  induction ns generalizing x rounds with
  | nil =>
    obtain ⟨rounds, rfl⟩ := Nat.exists_eq_succ_of_ne_zero (by omega : rounds ≠ 0)
    have hnext : m.next x = some (.tail l) := (List.isChain_cons_cons.mp h).1.1
    exact ⟨[], [], by simp [anchorFrom, hnext, behind], rfl, rfl⟩
  | cons y ns ih =>
    obtain ⟨rounds, rfl⟩ := Nat.exists_eq_succ_of_ne_zero (by omega : rounds ≠ 0)
    obtain ⟨⟨hnext, -⟩, hrest⟩ := List.isChain_cons_cons.mp h
    rw [anchorFrom, hnext, if_neg (by simp), deref_some, ok_bind]
    by_cases hkey : element (.node n) < element (.node y)
    · rw [if_pos hkey]
      exact ⟨[], y :: ns, rfl, rfl, by rw [insertBefore, if_pos hkey]; rfl⟩
    · rw [if_neg hkey]
      obtain ⟨l₁, l₂, hanchor, rfl, hins⟩ := ih _ rounds hrest (by simpa using hr)
      exact ⟨y :: l₁, l₂, hanchor, rfl, by rw [insertBefore, if_neg hkey, hins]; rfl⟩

/-! ### The operations on a set of lists -/

inductive Op (L N : Type)
  | push (l : L) (n : N)
  | pushback (l : L) (n : N)
  | pop (l : L)
  | popback (l : L)
  | remove (n : N)
  | insertSort (l : L) (n : N) (element : Addr L N → ℤ)

/-- An operation on the links, with the node that it returns. -/
def exec (rounds : ℕ) (m : Links (Addr L N)) : Op L N → Except Halt (Option (Addr L N) × Links (Addr L N))
  | .push l n => do .ok (none, ← listPush rounds m l (.node n))
  | .pushback l n => do .ok (none, ← listPushback rounds m l (.node n))
  | .pop l => do
    let (node, m) ← listPop m l
    .ok (some node, m)
  | .popback l => do
    let (node, m) ← listPopback m l
    .ok (some node, m)
  | .remove n => do .ok (none, ← listRemove m (.node n))
  | .insertSort l n element => do .ok (none, ← listInsertSort rounds m l (.node n) element)

/-- The callers' side: an insertion is of a node that is in no list, for `list_insert_sort` of one without links;
what is removed is in a list, and what is popped from is not empty. -/
def Pre (q : Seqs L N) : Op L N → Prop
  | .push _ n | .pushback _ n => ∀ l, n ∉ q.contents l
  | .pop l | .popback l => q.contents l ≠ []
  | .remove n => ∃ l, n ∈ q.contents l
  | .insertSort _ n _ => n ∈ q.loose

/-- What becomes of the sequences. -/
def after (q : Seqs L N) : Op L N → Seqs L N
  | .push l n => ⟨Function.update q.contents l (n :: q.contents l), q.loose \ {n}⟩
  | .pushback l n => ⟨Function.update q.contents l (q.contents l ++ [n]), q.loose \ {n}⟩
  | .pop l => ⟨Function.update q.contents l (q.contents l).tail, {n | (q.contents l).head? = some n} ∪ q.loose⟩
  | .popback l =>
    ⟨Function.update q.contents l (q.contents l).dropLast, {n | (q.contents l).getLast? = some n} ∪ q.loose⟩
  | .remove n => ⟨fun l => (q.contents l).erase n, insert n q.loose⟩
  | .insertSort l n element =>
    ⟨Function.update q.contents l (insertBefore (fun k => element (.node k)) n (q.contents l)), q.loose \ {n}⟩

/-- The node that an operation returns. -/
def result (q : Seqs L N) : Op L N → Option N
  | .pop l => (q.contents l).head?
  | .popback l => (q.contents l).getLast?
  | _ => none

/-! ### Every operation does to the links what it does to the sequences -/

theorem Rep.insertBefore_spec (h : Rep m q) (hl : q.contents l = l₁ ++ l₂) (hn : ∀ l', n ∉ q.contents l') :
    ∃ m', listInsertBefore m (behind l l₂) (.node n) = .ok m' ∧
      Rep m' ⟨Function.update q.contents l (l₁ ++ n :: l₂), q.loose \ {n}⟩ := by
  obtain ⟨hxy, hyz⟩ := fresh_place hl (hn l)
  obtain ⟨m', hrun, hi⟩ := listInsertBefore_inserted (h.joins_place hl) hxy hyz
  exact ⟨m', hrun, h.place hl hn hi⟩

theorem Rep.remove_spec (h : Rep m q) (hl : q.contents l = l₁ ++ n :: l₂) :
    ∃ m', listRemove m (.node n) = .ok m' ∧
      Rep m' ⟨Function.update q.contents l (l₁ ++ l₂), insert n q.loose⟩ := by
  obtain ⟨hj, hj', hxy, hyz⟩ := h.joins_node hl
  obtain ⟨m', hrun, hr⟩ := listRemove_removed hj hj' hxy hyz
  exact ⟨m', hrun, h.drop hl hr⟩

theorem Rep.search_spec (h : Rep m q) {rounds : ℕ} (hr : (q.contents l).length < rounds) :
    listSearch rounds m l (.node n) = .ok (decide (n ∈ q.contents l)) :=
  searchFrom_spec (q.contents l) (.head l) rounds (h.chain l) hr

theorem Rep.empty_spec (h : Rep m q) : listEmpty m l = true ↔ q.contents l = [] := by
  have hj := h.joins_place (show q.contents l = [] ++ q.contents l from rfl)
  unfold listEmpty
  rw [decide_eq_true_iff, show m.next (.head l) = some (behind l (q.contents l)) from hj.1, Option.some.injEq]
  cases q.contents l <;> simp [behind]

theorem Rep.size_spec (h : Rep m q) {rounds : ℕ} (hr : (q.contents l).length < rounds) :
    listSize rounds m l = .ok (UInt32.ofNat (q.contents l).length) := by
  rw [listSize, sizeFrom_spec (q.contents l) (.head l) rounds 0 (h.chain l) hr, UInt32.zero_add]

/-- One operation. The rounds are enough for the loops if no list has so many nodes. -/
theorem exec_spec {op : Op L N} {rounds : ℕ} (h : Rep m q) (hp : Pre q op)
    (hr : ∀ l, (q.contents l).length < rounds) :
    ∃ m', exec rounds m op = .ok ((result q op).map .node, m') ∧ Rep m' (after q op) := by
  cases op with
  | push l n =>
    have hl : q.contents l = [] ++ q.contents l := rfl
    obtain ⟨hxy, hyz⟩ := fresh_place hl (hp l)
    obtain ⟨m', hrun, hi⟩ := listInsertAfter_inserted (h.joins_place hl) hxy hyz
    refine ⟨m', ?_, h.place hl hp hi⟩
    have hrun : listInsertAfter m (.head l) (.node n) = .ok m' := hrun
    simp [exec, listPush, h.search_spec (hr l), hp l, hrun, result]
  | pushback l n =>
    obtain ⟨m', hrun, h'⟩ := h.insertBefore_spec (List.append_nil (q.contents l)).symm hp
    refine ⟨m', ?_, h'⟩
    have hrun : listInsertBefore m (.tail l) (.node n) = .ok m' := hrun
    simp [exec, listPushback, h.search_spec (hr l), hp l, hrun, result]
  | pop l =>
    obtain ⟨n, ns, hl⟩ := List.exists_cons_of_ne_nil (show q.contents l ≠ [] from hp)
    have hempty : listEmpty m l = false := by
      rw [← Bool.not_eq_true, h.empty_spec]
      exact hp
    have hl' : q.contents l = [] ++ n :: ns := hl
    have hnext : m.next (.head l) = some (.node n) := (h.joins_node hl').1.1
    obtain ⟨m', hrun, h'⟩ := h.remove_spec hl'
    refine ⟨m', ?_, ?_⟩
    · simp [exec, listPop, hempty, hnext, deref_some, hrun, result, hl]
    · have hafter : after q (.pop l) = ⟨Function.update q.contents l ns, insert n q.loose⟩ := by
        rw [after, hl]
        congr 1
        ext k
        simp [eq_comm]
      rw [hafter]
      exact h'
  | popback l =>
    obtain ⟨ns, n, hl⟩ := (List.eq_nil_or_concat (q.contents l)).resolve_left hp
    rw [List.concat_eq_append] at hl
    have hempty : listEmpty m l = false := by
      rw [← Bool.not_eq_true, h.empty_spec]
      exact hp
    have hprev : m.prev (.tail l) = some (.node n) := (h.joins_node hl).2.1.2
    obtain ⟨m', hrun, h'⟩ := h.remove_spec hl
    refine ⟨m', ?_, ?_⟩
    · simp [exec, listPopback, hempty, hprev, deref_some, hrun, result, hl]
    · have hafter : after q (.popback l) = ⟨Function.update q.contents l ns, insert n q.loose⟩ := by
        rw [after, hl, List.dropLast_concat]
        congr 1
        ext k
        simp [eq_comm]
      rw [hafter]
      simpa using h'
  | remove n =>
    obtain ⟨l, hmem⟩ := hp
    obtain ⟨l₁, l₂, hl⟩ := List.append_of_mem hmem
    obtain ⟨m', hrun, h'⟩ := h.remove_spec hl
    refine ⟨m', by simp [exec, hrun, result], ?_⟩
    have hnot : n ∉ l₁ := by
      have hnd := h.nodup l
      rw [hl, List.nodup_append] at hnd
      exact fun hm => hnd.2.2 n hm n (by simp) rfl
    have herase : Function.update q.contents l (l₁ ++ l₂) = fun l => (q.contents l).erase n := by
      funext l'
      by_cases hll : l' = l
      · subst hll
        rw [Function.update_self, hl, List.erase_append_right _ hnot, List.erase_cons_head]
      · rw [Function.update_of_ne hll, List.erase_of_not_mem fun hm => hll (h.disjoint l' l n hm hmem)]
    rw [herase] at h'
    exact h'
  | insertSort l n element =>
    obtain ⟨l₁, l₂, hanchor, hl, hins⟩ := anchorFrom_spec element n (q.contents l) (.head l) rounds (h.chain l) (hr l)
    obtain ⟨m', hrun, h'⟩ := h.insertBefore_spec hl (h.not_loose hp)
    obtain ⟨hprev, hnext⟩ := h.loose n hp
    refine ⟨m', by simp [exec, listInsertSort, hanchor, hprev, hnext, hrun, result], ?_⟩
    simpa [after, hins] using h'

/-! ### Sequences of operations -/

/-- Performs the operations, and collects the nodes that they return. -/
def run (rounds : ℕ) : Links (Addr L N) → List (Op L N) → Except Halt (List (Option (Addr L N)) × Links (Addr L N))
  | m, [] => .ok ([], m)
  | m, op :: ops => do
    let (out, m) ← exec rounds m op
    let (outs, m) ← run rounds m ops
    .ok (out :: outs, m)

/-- Every operation is called as `Pre` asks. -/
def Valid : Seqs L N → List (Op L N) → Prop
  | _, [] => True
  | q, op :: ops => Pre q op ∧ Valid (after q op) ops

def results : Seqs L N → List (Op L N) → List (Option N)
  | _, [] => []
  | q, op :: ops => result q op :: results (after q op) ops

theorem after_length (q : Seqs L N) (op : Op L N) (l : L) :
    ((after q op).contents l).length ≤ (q.contents l).length + 1 := by
  have hupdate : ∀ (l' : L) (ns : List N), ns.length ≤ (q.contents l').length + 1 →
      (Function.update q.contents l' ns l).length ≤ (q.contents l).length + 1 := fun l' ns hns => by
    rw [Function.update_apply]
    split_ifs with hl
    · rw [hl]
      exact hns
    · exact Nat.le_succ _
  cases op with
  | push l' n => exact hupdate l' _ (by simp)
  | pushback l' n => exact hupdate l' _ (by simp)
  | pop l' => exact hupdate l' _ (by rw [List.length_tail]; omega)
  | popback l' => exact hupdate l' _ (by rw [List.length_dropLast]; omega)
  | remove n => exact (List.erase_sublist.length_le).trans (Nat.le_succ _)
  | insertSort l' n element => exact hupdate l' _ (by rw [(insertBefore_perm _ _ _).length_eq]; simp)

/-- A run of operations on the links is the run on the sequences. -/
theorem run_spec (ops : List (Op L N)) {rounds : ℕ} (h : Rep m q) (hv : Valid q ops)
    (hr : ∀ l, (q.contents l).length + ops.length < rounds) :
    ∃ m', run rounds m ops = .ok ((results q ops).map (Option.map .node), m') ∧ Rep m' (ops.foldl after q) := by
  induction ops generalizing m q with
  | nil => exact ⟨m, rfl, h⟩
  | cons op ops ih =>
    have hrounds : ∀ l, (q.contents l).length < rounds := fun l => by
      have := hr l
      omega
    obtain ⟨m₁, hexec, h₁⟩ := exec_spec h hv.1 hrounds
    obtain ⟨m', hrun, h'⟩ := ih h₁ hv.2 fun l => by
      have hlen := hr l
      have hafter := after_length q op l
      rw [List.length_cons] at hlen
      omega
    refine ⟨m', ?_, h'⟩
    simp only [run, hexec, ok_bind, hrun]
    rfl

/-! ### Sorted lists -/

/-- In the list `l` an operation keeps the order of the keys: it inserts by `list_insert_sort` only. -/
def Sorts (element : Addr L N → ℤ) (l : L) : Op L N → Prop
  | .push l' _ | .pushback l' _ => l' ≠ l
  | .insertSort l' _ element' => l' = l → element' = element
  | _ => True

/-- The node that an operation takes out of its list. -/
def leaving (q : Seqs L N) : Op L N → Option N
  | .remove n => some n
  | op => result q op

/-- The nodes of the list `l` with the key `k`, in the order of their arrival: a queue that a node joins at the end,
and leaves from anywhere. -/
def arrive (element : Addr L N → ℤ) (l : L) (k : ℤ) (q : Seqs L N) (waiting : List N) (op : Op L N) : List N :=
  match leaving q op with
  | some n => waiting.erase n
  | none => match op with
    | .insertSort l' n _ => if l' = l ∧ element (.node n) = k then waiting ++ [n] else waiting
    | _ => waiting

def arrived (element : Addr L N → ℤ) (l : L) (k : ℤ) : Seqs L N → List N → List (Op L N) → List N
  | _, waiting, [] => waiting
  | q, waiting, op :: ops => arrived element l k (after q op) (arrive element l k q waiting op) ops

/-- What leaves is erased. -/
theorem Rep.after_leaving (h : Rep m q) {op : Op L N} (hn : leaving q op = some n) (l : L) :
    (after q op).contents l = (q.contents l).erase n := by
  have hupdate : ∀ (l' : L) (l₁ l₂ : List N), q.contents l' = l₁ ++ n :: l₂ →
      Function.update q.contents l' (l₁ ++ l₂) l = (q.contents l).erase n := fun l' l₁ l₂ hl' => by
    by_cases hl : l = l'
    · subst hl
      have hnd := h.nodup l
      rw [hl', List.nodup_append] at hnd
      rw [Function.update_self, hl', List.erase_append_right _ fun hm => hnd.2.2 n hm n (by simp) rfl,
        List.erase_cons_head]
    · rw [Function.update_of_ne hl, List.erase_of_not_mem fun hm => hl (h.disjoint l l' n hm (by simp [hl']))]
  cases op with
  | push l' n' => cases hn
  | pushback l' n' => cases hn
  | insertSort l' n' element => cases hn
  | remove n' =>
    cases hn
    rfl
  | pop l' =>
    obtain ⟨ns, hl'⟩ := List.head?_eq_some_iff.mp hn
    have := hupdate l' [] ns hl'
    rwa [after, hl']
  | popback l' =>
    obtain ⟨ns, hl'⟩ := List.getLast?_eq_some_iff.mp hn
    have := hupdate l' ns [] hl'
    rw [after, hl', List.dropLast_concat]
    rwa [List.append_nil] at this

omit [DecidableEq L] [DecidableEq N] in
/-- Behind an insertion the nodes with one key are as before, the new one at their end. -/
theorem filter_insertBefore (key : N → ℤ) (x : N) (k : ℤ) {ns : List N} (h : ns.Pairwise fun a b => key a ≤ key b) :
    (insertBefore key x ns).filter (fun n => key n = k) =
      ns.filter (fun n => key n = k) ++ if key x = k then [x] else [] := by
  induction ns with
  | nil => by_cases hx : key x = k <;> simp [insertBefore, hx]
  | cons y ns ih =>
    obtain ⟨hy, hns⟩ := List.pairwise_cons.mp h
    rw [insertBefore]
    split_ifs with hlt hx hx
    · have hnone : (y :: ns).filter (fun n => key n = k) = [] := by
        rw [List.filter_eq_nil_iff]
        intro z hz
        rcases List.mem_cons.mp hz with rfl | hz
        · simpa using (by omega : key z ≠ k)
        · have := hy z hz
          simpa using (by omega : key z ≠ k)
      rw [List.filter_cons_of_pos (by simpa using hx), hnone]
      rfl
    · rw [List.filter_cons_of_neg (by simpa using hx), List.append_nil]
    · rw [List.filter_cons, List.filter_cons, ih hns, if_pos hx]
      split_ifs <;> rfl
    · rw [List.filter_cons, List.filter_cons, ih hns, if_neg hx]
      split_ifs <;> rfl

/-- One operation keeps a list sorted, and the nodes of each key in the order of their arrival. -/
theorem sorts_step {element : Addr L N → ℤ} {op : Op L N} (h : Rep m q) (hop : Sorts element l op)
    (hs : (q.contents l).Pairwise fun a b => element (.node a) ≤ element (.node b)) :
    ((after q op).contents l).Pairwise (fun a b => element (.node a) ≤ element (.node b)) ∧
    ∀ k, ((after q op).contents l).filter (fun n => element (.node n) = k) =
      arrive element l k q ((q.contents l).filter fun n => element (.node n) = k) op := by
  cases hn : leaving q op with
  | some n =>
    rw [h.after_leaving hn]
    refine ⟨hs.sublist List.erase_sublist, fun k => ?_⟩
    simp only [arrive, hn]
    rw [(h.nodup l).erase_eq_filter, ((h.nodup l).filter _).erase_eq_filter, List.filter_filter, List.filter_filter]
    exact List.filter_congr fun x _ => Bool.and_comm _ _
  | none =>
    have hsame : (after q op).contents l = q.contents l → (∀ waiting k, arrive element l k q waiting op = waiting) →
        ((after q op).contents l).Pairwise (fun a b => element (.node a) ≤ element (.node b)) ∧
        ∀ k, ((after q op).contents l).filter (fun n => element (.node n) = k) =
          arrive element l k q ((q.contents l).filter fun n => element (.node n) = k) op := fun hl harrive =>
      ⟨by rw [hl]; exact hs, fun k => by rw [hl, harrive]⟩
    cases op with
    | push l' n => exact hsame (Function.update_of_ne (Ne.symm hop) _ _) fun _ _ => rfl
    | pushback l' n => exact hsame (Function.update_of_ne (Ne.symm hop) _ _) fun _ _ => rfl
    | remove n => cases hn
    | pop l' =>
      have hl' : q.contents l' = [] := List.head?_eq_none_iff.mp hn
      refine hsame ?_ fun _ _ => by simp only [arrive, hn]
      rw [after, hl', List.tail_nil, ← hl', Function.update_eq_self]
    | popback l' =>
      have hl' : q.contents l' = [] := List.getLast?_eq_none_iff.mp hn
      refine hsame ?_ fun _ _ => by simp only [arrive, hn]
      rw [after, hl', List.dropLast_nil, ← hl', Function.update_eq_self]
    | insertSort l' n element' =>
      by_cases hl : l' = l
      · subst hl
        obtain rfl : element' = element := hop rfl
        rw [after]
        dsimp only
        rw [Function.update_self]
        refine ⟨pairwise_insertBefore n hs, fun k => ?_⟩
        rw [filter_insertBefore _ n k hs]
        simp only [arrive, hn, true_and]
        split_ifs <;> simp
      · exact hsame (Function.update_of_ne (Ne.symm hl) _ _) fun _ _ => by simp [arrive, hn, hl]

/-- Runs of such operations keep a list sorted, and each key first come, first served. -/
theorem sorts_run {element : Addr L N → ℤ} (ops : List (Op L N)) {rounds : ℕ} (h : Rep m q) (hv : Valid q ops)
    (hr : ∀ l, (q.contents l).length + ops.length < rounds) (hops : ∀ op ∈ ops, Sorts element l op)
    (hs : (q.contents l).Pairwise fun a b => element (.node a) ≤ element (.node b)) :
    ((ops.foldl after q).contents l).Pairwise (fun a b => element (.node a) ≤ element (.node b)) ∧
    ∀ k, ((ops.foldl after q).contents l).filter (fun n => element (.node n) = k) =
      arrived element l k q ((q.contents l).filter fun n => element (.node n) = k) ops := by
  induction ops generalizing m q with
  | nil => exact ⟨hs, fun k => rfl⟩
  | cons op ops ih =>
    obtain ⟨m₁, -, h₁⟩ := exec_spec h hv.1 fun l => (Nat.le_add_right _ _).trans_lt (hr l)
    obtain ⟨hs₁, hkeys⟩ := sorts_step h (hops op (by simp)) hs
    obtain ⟨hs', hkeys'⟩ := ih h₁ hv.2 (fun l => by
      have hlen := hr l
      have hafter := after_length q op l
      rw [List.length_cons] at hlen
      omega) (fun op' hop' => hops op' (by simp [hop'])) hs₁
    refine ⟨hs', fun k => ?_⟩
    rw [List.foldl_cons, hkeys' k, hkeys k]
    rfl

/-! ### Initialised lists -/

/-- Lists that `list_init` has gone over are empty. -/
theorem listInit_rep (h : ∀ l, listInit m l = m) :
    Rep m ⟨fun _ => [], {n | m.prev (.node n) = none ∧ m.next (.node n) = none}⟩ := by
  have hlinks : ∀ l, m.prev (.head l) = none ∧ m.next (.head l) = some (.tail l) ∧
      m.next (.tail l) = none ∧ m.prev (.tail l) = some (.head l) := fun l => by
    rw [← h l]
    simp [listInit, setNext, setPrev]
  refine ⟨fun l => ?_, fun l => ⟨(hlinks l).1, (hlinks l).2.2.1⟩, fun l => List.nodup_nil, fun l l' n hn => ?_,
    fun n hn => hn⟩
  · exact List.isChain_pair.mpr ⟨(hlinks l).2.1, (hlinks l).2.2.2⟩
  · cases hn

/-- The lists refine sequences. From `list_init` on, and then from any memory whose lists stand for sequences, every
sequence of operations called as it should be goes through, returns the nodes that it returns on the sequences, and
leaves lists that stand for the sequences after it. A list into which nodes go by `list_insert_sort` only is sorted if
it was, and holds the nodes of each key in the order of their arrival. -/
theorem lists_refine_sequences {L N : Type} [DecidableEq L] [DecidableEq N] (m : Links (Addr L N)) :
    ((∀ l, listInit m l = m) →
      Rep m ⟨fun _ => [], {n | m.prev (.node n) = none ∧ m.next (.node n) = none}⟩) ∧
    ∀ (q : Seqs L N) (ops : List (Op L N)) (rounds : ℕ), Rep m q → Valid q ops →
      (∀ l, (q.contents l).length + ops.length < rounds) →
      (∃ m', run rounds m ops = .ok ((results q ops).map (Option.map .node), m') ∧ Rep m' (ops.foldl after q)) ∧
      ∀ (element : Addr L N → ℤ) (l : L), (∀ op ∈ ops, Sorts element l op) →
        (q.contents l).Pairwise (fun a b => element (.node a) ≤ element (.node b)) →
        ((ops.foldl after q).contents l).Pairwise (fun a b => element (.node a) ≤ element (.node b)) ∧
        ∀ k, ((ops.foldl after q).contents l).filter (fun n => element (.node n) = k) =
          arrived element l k q ((q.contents l).filter fun n => element (.node n) = k) ops :=
  ⟨listInit_rep, fun _ ops _ h hv hr =>
    ⟨run_spec ops h hv hr, fun _ _ hops hs => sorts_run ops h hv hr hops hs⟩⟩

end IntrusiveList
end Onix
