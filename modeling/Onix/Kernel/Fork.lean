import Onix.Kernel.AddressSpace

/-! What a fork leaves to the two tasks. The child gets page tables of its own with
the entries that the parent keeps, and from then on `link_page`, `unlink_page` and
the page faults of one task reach no entry of the other and no frame it maps. -/

set_option autoImplicit false

namespace Onix

open Memory Lib Finset

namespace Memory

variable {m m' : Memory} {S : Finset (ℕ × ℕ)} {extra : ℕ → ℕ}

/-! ### The bytes in the frames -/

/-- The frames in use keep their bytes. -/
def KeepsBytes (m m' : Memory) : Prop := ∀ p, m.memoryMap p ≠ 0 → m'.bytes p = m.bytes p

theorem getPage_taken {q : ℕ} (h : m.getPage = .ok (q, m')) : m' = m.taken q ∧ m.memoryMap q = 0 := by
  unfold getPage at h
  split at h
  · rename_i hq
    cases h
    exact ⟨rfl, by simpa using List.find?_some hq⟩
  · cases h

theorem getPte_bytes {pde : ℕ} {vaddr : UInt32} {create : Bool} {f : ℕ} (h : m.getPte pde vaddr create = .ok (f, m')) :
    m'.bytes = m.bytes := by
  unfold getPte at h
  obtain ⟨_, -, h⟩ := bind_ok.mp h
  split_ifs at h
  · obtain ⟨⟨q, m₁⟩, hq, h⟩ := bind_ok.mp h
    obtain ⟨hm₁, -⟩ := getPage_taken hq
    cases h
    change m₁.bytes = m.bytes
    rw [hm₁]
    rfl
  · cases h
    rfl

theorem putPage_bytes {p : ℕ} (h : m.putPage p = .ok m') : m'.bytes = m.bytes := by
  unfold putPage at h
  obtain ⟨_, -, h⟩ := bind_ok.mp h
  obtain ⟨_, -, h⟩ := bind_ok.mp h
  obtain ⟨_, -, h⟩ := bind_ok.mp h
  cases h
  split_ifs <;> rfl

theorem linkPage_bytes {pde : ℕ} {vaddr : UInt32} (h : m.linkPage pde vaddr = .ok m') : m'.bytes = m.bytes := by
  unfold linkPage at h
  obtain ⟨_, -, h⟩ := bind_ok.mp h
  obtain ⟨⟨f, m₁⟩, hpte, h⟩ := bind_ok.mp h
  have h₁ := getPte_bytes hpte
  dsimp only at h
  split_ifs at h
  · cases h
    exact h₁
  · obtain ⟨⟨q, m₂⟩, hq, h⟩ := bind_ok.mp h
    obtain ⟨hm₂, -⟩ := getPage_taken hq
    cases h
    change m₂.bytes = m.bytes
    rw [hm₂, ← h₁]
    rfl

theorem unlinkPage_bytes {pde : ℕ} {vaddr : UInt32} (h : m.unlinkPage pde vaddr = .ok m') : m'.bytes = m.bytes := by
  unfold unlinkPage at h
  obtain ⟨_, -, h⟩ := bind_ok.mp h
  split_ifs at h
  · cases h
    rfl
  · obtain ⟨⟨f, m₁⟩, hpte, h⟩ := bind_ok.mp h
    have h₁ := getPte_bytes hpte
    dsimp only at h
    split_ifs at h
    · cases h
      exact h₁
    · exact (putPage_bytes h).trans h₁

/-- Only a frame that was free gets new bytes. -/
theorem copyPage_bytes {pde page : ℕ} {r : ℕ × Memory} (h : m.copyPage pde page = .ok r) : KeepsBytes m r.2 := by
  intro p hp
  unfold copyPage at h
  obtain ⟨⟨q, m₁⟩, hq, h⟩ := bind_ok.mp h
  obtain ⟨⟨f, m₂⟩, hpte, h⟩ := bind_ok.mp h
  obtain ⟨hm₁, h0⟩ := getPage_taken hq
  have h₂ : m₂.bytes = m₁.bytes := getPte_bytes hpte
  cases h
  change Function.update m₂.bytes q (m₂.bytes page) p = m.bytes p
  have hne : p ≠ q := by
    rintro rfl
    exact hp h0
  rw [Function.update_of_ne hne, h₂, hm₁]
  rfl

theorem pageFault_bytes {task : Space} {vaddr : UInt32} {code : FaultCode}
    (h : m.pageFault task vaddr code = .ok (some m')) : KeepsBytes m m' := by
  intro p hp
  unfold pageFault at h
  split_ifs at h
  · obtain ⟨_, -, h⟩ := bind_ok.mp h
    cases h
  · obtain ⟨_, -, h⟩ := bind_ok.mp h
    obtain ⟨⟨f, m₁⟩, hpte, h⟩ := bind_ok.mp h
    have hm₁ : m₁ = m := by
      unfold getPte at hpte
      obtain ⟨_, hassert, hpte⟩ := bind_ok.mp hpte
      have hp : (m.dirs task.pde (didx vaddr)).present := by simpa using hassert
      rw [hp] at hpte
      cases hpte
      rfl
    rw [hm₁] at h
    dsimp only at h
    obtain ⟨_, -, h⟩ := bind_ok.mp h
    obtain ⟨_, -, h⟩ := bind_ok.mp h
    obtain ⟨_, -, h⟩ := bind_ok.mp h
    obtain ⟨_, -, h⟩ := bind_ok.mp h
    split_ifs at h
    · cases h
      rfl
    · obtain ⟨⟨q, m₂⟩, hcopy, h⟩ := bind_ok.mp h
      cases h
      exact copyPage_bytes hcopy p hp
  · obtain ⟨m₁, hlink, h⟩ := bind_ok.mp h
    cases h
    rw [linkPage_bytes hlink]

end Memory

/-! ### Calls on the pages of one task -/

/-- A call that changes the pages of the task with the directory `pde`. -/
inductive PageCall
  | link (pde : ℕ) (vaddr : UInt32)
  | unlink (pde : ℕ) (vaddr : UInt32)
  | fault (task : Space) (vaddr : UInt32) (code : FaultCode)

namespace PageCall

def pde : PageCall → ℕ
  | link pde _ | unlink pde _ => pde
  | fault task _ _ => task.pde

/-- The call returns `m'`; a fault that ends the task is none of these calls. -/
def Step (m : Memory) : PageCall → Memory → Prop
  | link pde vaddr, m' => UserAddr vaddr ∧ m.linkPage pde vaddr = .ok m'
  | unlink pde vaddr, m' => UserAddr vaddr ∧ m.unlinkPage pde vaddr = .ok m'
  | fault task vaddr code, m' => m.pageFault task vaddr code = .ok (some m')

variable {m m' : Memory} {D : Finset ℕ} {extra : ℕ → ℕ}

/-- One call keeps the account, the entries below the other directories, and the bytes in use. -/
theorem step_frame (h : Acct m (slots D) extra) {c : PageCall} (hc : c.pde ∈ D) (hs : c.Step m m') :
    Acct m' (slots D) extra ∧ (∀ y ∈ slots D, y.1 ≠ c.pde → ∀ u, m'.entryAt y u = m.entryAt y u) ∧ KeepsBytes m m' := by
  have hS : ∀ vaddr, UserAddr vaddr → (c.pde, didx vaddr) ∈ slots D := fun _ hu => mem_slots.mpr ⟨hc, hu⟩
  cases c with
  | link pde vaddr =>
    obtain ⟨hacct, -, hlink⟩ := (linkPage_spec h (hS vaddr hs.1)).result _ hs.2
    refine ⟨hacct, fun y hy hne u => hlink.others y hy u fun hc => hne ?_, fun p _ => ?_⟩
    · rw [hc.1]
    · rw [linkPage_bytes hs.2]
  | unlink pde vaddr =>
    obtain ⟨hacct, -, hunlink⟩ := (unlinkPage_spec h (hS vaddr hs.1)).result _ hs.2
    refine ⟨hacct, fun y hy hne u => hunlink.others y hy u fun hc => hne ?_, fun p _ => ?_⟩
    · rw [hc.1]
    · rw [unlinkPage_bytes hs.2]
  | fault task vaddr code =>
    obtain ⟨hkeeps, -, -, -, hserve⟩ := ((pageFault_serves h hS vaddr code).result _ hs).2 m' rfl
    refine ⟨hkeeps.acct, fun y hy hne u => hserve.others y hy u fun hc => hne ?_, pageFault_bytes hs⟩
    rw [hc.1]
    rfl

/-- The calls of the tasks with a directory in `D`, in any order. -/
theorem run_acct (h : Acct m (slots D) extra) {ok : PageCall → Prop} (hok : ∀ c, ok c → c.pde ∈ D) {es : List PageCall}
    (hr : Run (· = m) (Restrict (fun _ c => ok c) Step) es m') : Acct m' (slots D) extra :=
  Run.invariant (I := fun m => Acct m (slots D) extra) (fun _ he => by rw [he]; exact h)
    (fun _ _ _ h hs => (step_frame h (hok _ hs.1) hs.2).1) es m' hr

/-- What a task finds in its own pages: the entries, and the bytes of the pages they map. -/
structure SameView (m m' : Memory) (pde : ℕ) : Prop where
  entry : ∀ i ∈ userDirs, ∀ t < 1024, m'.entryAt (pde, i) t = m.entryAt (pde, i) t
  bytes : ∀ i ∈ userDirs, ∀ t < 1024, (m.entryAt (pde, i) t).present →
    m'.bytes (m.entryAt (pde, i) t).index = m.bytes (m.entryAt (pde, i) t).index

/-- The calls of one task leave the pages of all others alone. -/
theorem run_sameView (h : Acct m (slots D) extra) {pde other : ℕ} (hp : pde ∈ D) (ho : other ∈ D) (hne : other ≠ pde)
    {es : List PageCall} (hr : Run (· = m) (Restrict (fun _ c => c.pde = pde) Step) es m') : SameView m m' other := by
  have hmem : ∀ i ∈ userDirs, (other, i) ∈ slots D := fun i hi => mem_slots.mpr ⟨ho, mem_userDirs.mp hi⟩
  refine (Run.invariant (I := fun m' => Acct m' (slots D) extra ∧ SameView m m' other) ?_ ?_ es m' hr).2
  · rintro m' rfl
    exact ⟨h, fun _ _ _ _ => rfl, fun _ _ _ _ _ => rfl⟩
  · rintro m₁ c m₂ ⟨hacct, hview⟩ ⟨hc, hs⟩
    obtain ⟨hacct₂, hentry, hbytes⟩ := step_frame hacct (show c.pde ∈ D by rw [hc]; exact hp) hs
    refine ⟨hacct₂, fun i hi t ht => ?_, fun i hi t ht hpres => ?_⟩
    · rw [hentry _ (hmem i hi) (by rw [hc]; exact hne), hview.entry i hi t ht]
    · -- the frame is in use, so no call of another task may write it
      have hsame := hview.entry i hi t ht
      have hpos := hacct.mapped_pos (hmem i hi) ht (by rw [hsame]; exact hpres)
      rw [hsame] at hpos
      rw [hbytes _ (by omega), hview.bytes i hi t ht hpres]

end PageCall

namespace Machine

variable {s : Machine}

/-- After a fork parent and child map the same frames, through page tables of their own, with entries
that differ from those of before in the write bit at most; and whatever the two do to their pages later,
the calls of one leave the view of the other as it is. -/
theorem fork_independent (h : Reachable Booted Step s) {pde child : ℕ} {mem : Memory} (hp : pde ∈ s.live)
    (hf : s.mem.copyPde pde = .ok (child, mem)) :
    (∀ i ∈ userDirs, ∀ t < 1024, mem.entryAt (child, i) t = protect (s.mem.entryAt (pde, i) t) ∧
      mem.entryAt (pde, i) t = protect (s.mem.entryAt (pde, i) t)) ∧
    (∀ i ∈ userDirs, ∃ q, mem.dirs child i = { s.mem.dirs pde i with index := q }) ∧
    (∀ i ∈ userDirs, ∀ j ∈ userDirs, (mem.dirs child i).present → (mem.dirs pde j).present →
      (mem.dirs child i).index ≠ (mem.dirs pde j).index) ∧
    ∀ es m₁, Run (· = mem) (Restrict (fun _ c => c.pde = pde ∨ c.pde = child) PageCall.Step) es m₁ →
      ∀ d other, (d = pde ∧ other = child ∨ d = child ∧ other = pde) → ∀ es' m₂,
        Run (· = m₁) (Restrict (fun _ c => c.pde = d) PageCall.Step) es' m₂ → PageCall.SameView m₁ m₂ other := by
  have hok := run_ok h
  obtain ⟨hnew, hacct, -, hfork, hmirror⟩ := (copyPde_spec hok.acct hp hok.dirs_marked).result _ hf
  dsimp only at *
  have hne : child ≠ pde := fun he => hnew (he ▸ hp)
  have hpde : pde ∈ insert child s.live := mem_insert_of_mem hp
  have hchild : child ∈ insert child s.live := mem_insert_self _ _
  refine ⟨fun i hi t ht => ⟨hmirror.entry i hi t ht, ?_⟩, hmirror.dentry, fun i hi j hj h1 h2 he => ?_, ?_⟩
  · rw [hfork.entry _ (mem_slots.mpr ⟨hp, mem_userDirs.mp hi⟩) t ht, if_pos rfl]
  · have hslot : ∀ d ∈ insert child s.live, ∀ i ∈ userDirs, (d, i) ∈ slots (insert child s.live) :=
      fun d hd i hi => mem_slots.mpr ⟨hd, mem_userDirs.mp hi⟩
    exact hne (Prod.mk.inj (hacct.apart (hslot child hchild i hi) (hslot pde hpde j hj) h1 h2 he)).1
  · intro es m₁ hr d other hd es' m₂ hr'
    have hacct₁ : Acct m₁ (slots (insert child s.live)) 0 := by
      refine PageCall.run_acct hacct (fun c hc => ?_) hr
      rcases hc with hc | hc
      · rw [hc]
        exact hpde
      · rw [hc]
        exact hchild
    rcases hd with ⟨rfl, rfl⟩ | ⟨rfl, rfl⟩
    · exact PageCall.run_sameView hacct₁ hpde hchild hne hr'
    · exact PageCall.run_sameView hacct₁ hchild hpde hne.symm hr'

/-- A task with one page, and its child: the page is the same, and neither may write it. -/
theorem fork_independent_page : ∃ s child mem, Reachable Booted Step s ∧ s.mem.copyPde 258 = .ok (child, mem) ∧
    s.mem.entryAt (258, KERNEL_DIRS) 0 = entryInit 4097 ∧
    mem.entryAt (child, KERNEL_DIRS) 0 = { entryInit 4097 with write := false } ∧
    mem.entryAt (258, KERNEL_DIRS) 0 = { entryInit 4097 with write := false } := by
  have hsome : ((replay (attempt false) smallMachine [.userMode, .linkPage 258 USER_EXEC_ADDR]).map fun r => decide
      (258 ∈ r.2.live ∧ r.2.mem.entryAt (258, KERNEL_DIRS) 0 = entryInit 4097 ∧
        (r.2.mem.copyPde 258).toOption.isSome)) = some true := by
    decide +kernel
  obtain ⟨⟨es, s⟩, hes, hd⟩ := Option.map_eq_some_iff.mp hsome
  obtain ⟨hlive, hentry, hfork⟩ := of_decide_eq_true hd
  have hr := smallMachine_run hes
  cases hf : s.mem.copyPde 258 with
  | error e =>
    rw [hf] at hfork
    cases hfork
  | ok r =>
    have hsame := (fork_independent ⟨es, hr⟩ hlive hf).1 KERNEL_DIRS (by decide) 0 (by decide)
    rw [hentry] at hsame
    exact ⟨s, r.1, r.2, ⟨es, hr⟩, hf, hentry, hsame.1, hsame.2⟩

end Machine
end Onix
