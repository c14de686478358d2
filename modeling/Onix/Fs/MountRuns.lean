import Onix.Fs.Mount

/-! Runs of sys_mount and sys_umount with files opened and closed in between, by any tasks. As
long as no sys_umount is refused after its `get_super`, every count covers the references, and
then a refused call leaves all as it was. -/

set_option autoImplicit false

namespace Onix

open Lib

namespace Mounts

variable {c : Content} {m m' m₁ : Mounts} {imount iroot : Fin SUPER_NR → Option ℕ} {held : List ℕ} {i : ℕ}
  {k : Fin SUPER_NR}

/-! ### What each call does to the account -/

theorem Counts.mono (h : m.Counts imount iroot held) {imount' iroot' : Fin SUPER_NR → Option ℕ} {held' : List ℕ}
    (hle : ∀ j, refCount imount' j + refCount iroot' j + held'.count j ≤
      refCount imount j + refCount iroot j + held.count j) : m.Counts imount' iroot' held' :=
  ⟨fun j => (hle j).trans (h.refs j), h.used, h.free⟩

/-- The account looks at the inodes only, and at no mount link. -/
theorem Counts.congr (h : m.Counts imount iroot held) (hc : ∀ j, (m'.inodes j).count = (m.inodes j).count)
    (hd : ∀ j, (m'.inodes j).dev = (m.inodes j).dev) (hn : ∀ j, (m'.inodes j).node = (m.inodes j).node) :
    m'.Counts imount iroot held := by
  refine ⟨fun j => ?_, fun j => ?_, fun j => ?_⟩
  · rw [hc j]
    exact h.refs j
  · rw [hc j, hd j]
    exact h.used j
  · rw [hc j, hd j, hn j]
    exact h.free j

theorem Counts.link (h : m.Counts imount iroot held) (j : ℕ) (dev : Option ℕ) :
    (m.updInode j fun n => { n with mount := dev }).Counts imount iroot held := by
  refine h.congr ?_ ?_ ?_
  all_goals
    intro l
    by_cases hl : l = j
    · rw [hl, updInode_self]
    · rw [updInode_ne hl]

theorem count_cons (i j : ℕ) (held : List ℕ) :
    (i :: held).count j = held.count j + if some i = some j then 1 else 0 := by
  rw [List.count_cons]
  simp

/-- A reference held by a task goes to `iroot` of a super block. -/
theorem Counts.setRoot (h : m.Counts imount iroot (i :: held)) (k : Fin SUPER_NR) :
    m.Counts imount (Function.update iroot k (some i)) held := by
  refine h.mono fun j => ?_
  have := refCount_update iroot k (some i) j
  rw [count_cons]
  omega

theorem Counts.setMount (h : m.Counts imount iroot (i :: held)) (k : Fin SUPER_NR) :
    m.Counts (Function.update imount k (some i)) iroot held := by
  refine h.mono fun j => ?_
  have := refCount_update imount k (some i) j
  rw [count_cons]
  omega

/-- The reference of `iroot` is given back. -/
theorem Counts.clearRoot (h : m.Counts imount iroot held) (hi : m.iputOpt (iroot k) = .ok m') :
    m'.Counts imount (Function.update iroot k none) held := by
  cases hr : iroot k with
  | none =>
    rw [hr] at hi
    cases hi
    refine h.mono fun j => ?_
    have := refCount_update iroot k none j
    simp only [reduceCtorEq, if_false] at this
    omega
  | some r =>
    rw [hr] at hi
    have h' : m.Counts imount (Function.update iroot k none) (r :: held) := by
      refine h.mono fun j => ?_
      have := refCount_update iroot k none j
      rw [hr] at this
      simp only [reduceCtorEq, if_false] at this
      rw [count_cons]
      omega
    exact h'.iput hi

theorem Counts.clearMount (h : m.Counts imount iroot held) {r : ℕ} (hr : imount k = some r) (hi : m.iput r = .ok m') :
    m'.Counts (Function.update imount k none) iroot held := by
  have h' : m.Counts (Function.update imount k none) iroot (r :: held) := by
    refine h.mono fun j => ?_
    have := refCount_update imount k none j
    rw [hr] at this
    simp only [reduceCtorEq, if_false] at this
    rw [count_cons]
    omega
  exact h'.iput hi

theorem imounts_updSuper (f : SuperBlock → SuperBlock) :
    (m.updSuper k f).imounts = Function.update m.imounts k (f (m.supers k)).imount := by
  funext k'
  by_cases hk : k' = k
  · subst hk
    rw [Function.update_self, imounts, updSuper_self]
  · rw [Function.update_of_ne hk, imounts, updSuper_ne hk, imounts]

theorem iroots_updSuper (f : SuperBlock → SuperBlock) :
    (m.updSuper k f).iroots = Function.update m.iroots k (f (m.supers k)).iroot := by
  funext k'
  by_cases hk : k' = k
  · subst hk
    rw [Function.update_self, iroots, updSuper_self]
  · rw [Function.update_of_ne hk, iroots, updSuper_ne hk, iroots]

/-- A change of one super block. -/
theorem Inv.updSuper {f : SuperBlock → SuperBlock} (hl : ∀ k, (m.supers k).dev ≠ none → 0 < (m.supers k).count)
    (hd : ∀ k' ≠ k, (m.supers k').dev = none → (m.supers k').imount = none ∧ (m.supers k').iroot = none)
    (hc : m.Counts (Function.update m.imounts k (f (m.supers k)).imount)
      (Function.update m.iroots k (f (m.supers k)).iroot) held)
    (hlive : (f (m.supers k)).dev ≠ none → 0 < (f (m.supers k)).count)
    (hdead : (f (m.supers k)).dev = none → (f (m.supers k)).imount = none ∧ (f (m.supers k)).iroot = none) :
    (m.updSuper k f).Inv held := by
  refine ⟨?_, fun k' => ?_, fun k' => ?_⟩
  · rw [imounts_updSuper, iroots_updSuper]
    exact hc.congr (fun _ => rfl) (fun _ => rfl) fun _ => rfl
  · by_cases hk : k' = k
    · subst hk
      rw [updSuper_self]
      exact hlive
    · rw [updSuper_ne hk]
      exact hl k'
  · by_cases hk : k' = k
    · subst hk
      rw [updSuper_self]
      exact hdead
    · rw [updSuper_ne hk]
      exact hd k' hk

theorem bread_all (blocks : List (ℕ × ℕ)) :
    (blocks.foldl bread m).supers = m.supers ∧ (blocks.foldl bread m).inodes = m.inodes := by
  induction blocks generalizing m with
  | nil => exact ⟨rfl, rfl⟩
  | cons block blocks ih =>
    obtain ⟨hs, hi⟩ := ih (m := m.bread block)
    exact ⟨hs, hi⟩

theorem getSuper_dev {dev : ℕ} (h : m.getSuper dev = some k) : (m.supers k).dev = some dev := by
  have := List.find?_some h
  simpa using this

theorem getFreeSuper_dev (h : m.getFreeSuper = some k) : (m.supers k).dev = none := by
  have := List.find?_some h
  simpa using this

/-- A change of a super block that leaves its inodes. -/
theorem Counts.same (h : m.Counts m.imounts m.iroots held) {f : SuperBlock → SuperBlock}
    (himount : (f (m.supers k)).imount = (m.supers k).imount) (hiroot : (f (m.supers k)).iroot = (m.supers k).iroot) :
    m.Counts (Function.update m.imounts k (f (m.supers k)).imount) (Function.update m.iroots k (f (m.supers k)).iroot)
      held := by
  rw [himount, hiroot]
  change m.Counts (Function.update m.imounts k (m.imounts k)) (Function.update m.iroots k (m.iroots k)) held
  rw [Function.update_eq_self, Function.update_eq_self]
  exact h

/-- `read_super` gives a super block in use; one that is mounted has been in use before. -/
theorem Inv.readSuper (h : m.Inv held) {dev : ℕ} (hr : m.readSuper c dev = .ok (k, m')) :
    m'.Inv held ∧ (m'.supers k).dev = some dev ∧ ((m'.supers k).imount ≠ none → 1 < (m'.supers k).count) := by
  unfold Mounts.readSuper at hr
  split at hr
  · rename_i k' hk
    cases hr
    have hdev := getSuper_dev hk
    have hlive := h.live k (by rw [hdev]; exact Option.some_ne_none _)
    refine ⟨Inv.updSuper h.live (fun k' _ => h.dead k') ?_ (fun _ => Nat.succ_pos _) (h.dead k), ?_, fun _ => ?_⟩
    · exact h.counts.same (f := fun sb => { sb with count := sb.count + 1 }) rfl rfl
    · rw [updSuper_self]
      exact hdev
    · rw [updSuper_self]
      exact Nat.succ_lt_succ hlive
  · split at hr
    · cases hr
    · rename_i k' hk
      obtain ⟨_, -, hr⟩ := bind_ok.mp hr
      obtain ⟨_, -, hr⟩ := bind_ok.mp hr
      obtain ⟨_, -, hr⟩ := bind_ok.mp hr
      cases hr
      have hdead := h.dead k (getFreeSuper_dev hk)
      generalize hblocks : (List.range (1 + (c.maps dev).1 + (c.maps dev).2)).map (fun b => (dev, b + 1)) = blocks
      have hnew : (m.updSuper k fun sb => { sb with dev := some dev, count := 1, bufs := blocks }).Inv held := by
        refine Inv.updSuper h.live (fun k' _ => h.dead k') ?_ (fun _ => Nat.one_pos) nofun
        exact h.counts.same (f := fun sb => { sb with dev := some dev, count := 1, bufs := blocks }) rfl rfl
      have hall := bread_all (m := m.updSuper k fun sb => { sb with dev := some dev, count := 1, bufs := blocks }) blocks
      refine ⟨?_, ?_, fun hne => ?_⟩
      · refine hnew.of_supers hall.1 (hnew.counts.congr ?_ ?_ ?_) <;> intro j <;> rw [hall.2]
      · rw [hall.1, updSuper_self]
      · rw [hall.1, updSuper_self] at hne
        exact absurd hdead.1 hne

/-- `put_super` of a super block that stays in use, or has no inode any more. -/
theorem Inv.putSuper (h : m.Inv held)
    (hk : 1 < (m.supers k).count ∨ (m.supers k).imount = none ∧ (m.supers k).iroot = none)
    (hp : m.putSuper (some k) = .ok m') : m'.Inv held := by
  unfold Mounts.putSuper at hp
  obtain ⟨_, hpos, hp⟩ := bind_ok.mp hp
  have hpos : 0 < (m.supers k).count := of_decide_eq_true (assert_ok.mp hpos)
  dsimp only at hp
  split_ifs at hp with hz
  · cases hp
    rw [updSuper_self] at hz
    exact Inv.updSuper h.live (fun k' _ => h.dead k')
      (h.counts.same (f := fun sb => { sb with count := sb.count - 1 }) rfl rfl)
      (fun _ => Nat.pos_of_ne_zero hz) (h.dead k)
  · rw [updSuper_self] at hz
    have hnone : (m.supers k).imount = none ∧ (m.supers k).iroot = none := by
      refine hk.resolve_left fun h1 => hz ?_
      dsimp only
      omega
    obtain ⟨m₁, h₁, hp⟩ := bind_ok.mp hp
    obtain ⟨m₂, h₂, hp⟩ := bind_ok.mp hp
    rw [updSuper_self, updSuper_self] at h₁
    rw [hnone.1] at h₁
    cases h₁
    rw [updSuper_self, updSuper_self] at h₂
    rw [hnone.2] at h₂
    cases h₂
    have hall := brelease_all hp
    have htwo : ((m.updSuper k fun sb => { sb with count := sb.count - 1 }).updSuper k
        fun sb => { sb with dev := none }) = m.updSuper k fun sb => { sb with count := sb.count - 1, dev := none } := by
      simp [Mounts.updSuper]
    rw [htwo] at hall
    have hnew : (m.updSuper k fun sb => { sb with count := sb.count - 1, dev := none }).Inv held :=
      Inv.updSuper h.live (fun k' _ => h.dead k')
        (h.counts.same (f := fun sb => { sb with count := sb.count - 1, dev := none }) rfl rfl)
        (fun hne => absurd rfl hne) fun _ => hnone
    refine hnew.of_supers hall.1 (hnew.counts.congr ?_ ?_ ?_) <;> intro j <;> rw [hall.2]

theorem Inv.link (h : m.Inv held) (j : ℕ) (dev : Option ℕ) :
    (m.updInode j fun n => { n with mount := dev }).Inv held := h.of_supers rfl (h.counts.link j dev)

theorem Inv.swap {j : ℕ} (h : m.Inv (i :: j :: held)) : m.Inv (j :: i :: held) :=
  h.of_supers rfl (h.counts.mono fun l => by rw [List.Perm.count_eq (List.Perm.swap i j held)])

/-- `sys_mount` keeps the account, whether it mounts the device or not. -/
theorem Inv.sysMount (h : m.Inv held) {task : TaskDirs} {devname dirname : Name} {ret : Bool}
    (hm : m.sysMount c task devname dirname = .ok (ret, m')) : m'.Inv held := by
  unfold Mounts.sysMount at hm
  rw [bind_ok] at hm
  obtain ⟨⟨r, m₁⟩, hn, hm⟩ := hm
  rcases h.namei hn with ⟨rfl, hm₁⟩ | ⟨a, rfl, -, h₁⟩
  · rw [hm₁] at hm
    cases hm
    exact h
  · dsimp only at hm
    split_ifs at hm
    · obtain ⟨m₂, hput, hm⟩ := bind_ok.mp hm
      cases hm
      exact h₁.iput hput
    · rw [bind_ok] at hm
      obtain ⟨⟨r, m₂⟩, hn₂, hm⟩ := hm
      rcases h₁.namei hn₂ with ⟨rfl, hm₂⟩ | ⟨b, rfl, -, h₂⟩
      · rw [hm₂] at hm
        obtain ⟨m₃, hput, hm⟩ := bind_ok.mp hm
        cases hm
        exact h₁.iput hput
      · dsimp only at hm
        split_ifs at hm
        · obtain ⟨m₃, hput, hm⟩ := bind_ok.mp hm
          obtain ⟨m₄, hput', hm⟩ := bind_ok.mp hm
          cases hm
          exact (h₂.swap.iput hput).iput hput'
        · obtain ⟨⟨k, m₃⟩, hread, hm⟩ := bind_ok.mp hm
          obtain ⟨h₃, hdev, hused⟩ := h₂.readSuper hread
          dsimp only at hm
          split_ifs at hm with himount
          · obtain ⟨m₄, hsuper, hm⟩ := bind_ok.mp hm
            obtain ⟨m₅, hput, hm⟩ := bind_ok.mp hm
            obtain ⟨m₆, hput', hm⟩ := bind_ok.mp hm
            cases hm
            have hmore := hused (Option.ne_none_iff_isSome.mpr himount)
            exact ((h₃.putSuper (.inl hmore) hsuper).swap.iput hput).iput hput'
          · obtain ⟨⟨root, m₄⟩, hget, hm⟩ := bind_ok.mp hm
            obtain ⟨m₅, hput, hm⟩ := bind_ok.mp hm
            cases hm
            obtain ⟨ht, h₄⟩ := h₃.iget hget
            have hdev₄ : (m₄.supers k).dev ≠ none := by
              rw [ht.supers.1, hdev]
              exact Option.some_ne_none _
            -- the references on the root and on the directory go to the super block
            have h₅ : (m₄.updSuper k fun sb => { sb with iroot := some root, imount := some b }).Inv (a :: held) :=
              Inv.updSuper h₄.live (fun k' _ => h₄.dead k') ((h₄.counts.setRoot k).setMount k) (h₄.live k)
                fun hnone => absurd hnone hdev₄
            exact (h₅.link b (some (c.zone0 (m₁.ino a)))).iput hput

/-- A super block loses its root and what it is mounted on. -/
theorem Inv.unmount (h : m.Inv held) {r : ℕ} {m₂ m₃ : Mounts} (hr : (m.supers k).imount = some r)
    (hroot : m.iputOpt (m.supers k).iroot = .ok m₂)
    (hmount : ((m₂.updSuper k fun sb => { sb with iroot := none }).updInode r
      fun n => { n with mount := none }).iput r = .ok m₃) :
    (m₃.updSuper k fun sb => { sb with imount := none }).Inv held ∧
      ((m₃.updSuper k fun sb => { sb with imount := none }).supers k).imount = none ∧
      ((m₃.updSuper k fun sb => { sb with imount := none }).supers k).iroot = none := by
  have hs : m₃.supers = (m.updSuper k fun sb => { sb with iroot := none }).supers := by
    rw [iput_supers hmount]
    change Function.update m₂.supers k { m₂.supers k with iroot := none } = _
    rw [iputOpt_supers hroot]
    rfl
  have hk : m₃.supers k = { m.supers k with iroot := none } := by rw [hs, updSuper_self]
  have hne : ∀ k', k' ≠ k → m₃.supers k' = m.supers k' := fun k' hk' => by rw [hs, updSuper_ne hk']
  have himounts : m₃.imounts = m.imounts := by
    funext k'
    by_cases he : k' = k
    · rw [he, imounts, hk, imounts]
    · rw [imounts, hne k' he, imounts]
  have hiroots : m₃.iroots = Function.update m.iroots k none := by
    funext k'
    by_cases he : k' = k
    · rw [he, Function.update_self, iroots, hk]
    · rw [Function.update_of_ne he, iroots, hne k' he, iroots]
  have hc : (m₂.updSuper k fun sb => { sb with iroot := none }).Counts m.imounts
      (Function.update m.iroots k none) held :=
    (h.counts.clearRoot hroot).congr (fun _ => rfl) (fun _ => rfl) fun _ => rfl
  have hc' := (hc.link r none).clearMount hr hmount
  refine ⟨Inv.updSuper (fun k' => ?_) (fun k' he => ?_) ?_ ?_ fun _ => ?_, ?_⟩
  · by_cases he : k' = k
    · rw [he, hk]
      exact h.live k
    · rw [hne k' he]
      exact h.live k'
  · rw [hne k' he]
    exact h.dead k'
  · rw [himounts, hiroots, Function.update_idem, hk]
    exact hc'
  · rw [hk]
    exact h.live k
  · rw [hk]
    exact ⟨rfl, rfl⟩
  · rw [updSuper_self, hk]
    exact ⟨rfl, rfl⟩

/-- So does `sys_umount`, if it is not refused late. -/
theorem Inv.sysUmount (h : m.Inv held) {task : TaskDirs} {pathname : Name} {ret : Bool}
    (hu : m.sysUmount c task pathname = .ok (ret, m')) (hlate : ¬ m.Late c task pathname) : m'.Inv held := by
  unfold Mounts.sysUmount at hu
  rw [bind_ok] at hu
  obtain ⟨⟨r, m₁⟩, hn, hu⟩ := hu
  rcases h.namei hn with ⟨rfl, hm⟩ | ⟨i, rfl, -, h₁⟩
  · rw [hm] at hu
    cases hu
    exact h
  · dsimp only at hu
    split_ifs at hu with htarget
    · obtain ⟨m₂, hi, hu⟩ := bind_ok.mp hu
      cases hu
      exact h₁.iput hi
    · have htarget : m₁.noTarget c i = false := by simpa using htarget
      split at hu
      · cases hu
      · rename_i k hk
        split at hu
        · rename_i himount
          exact absurd ⟨i, m₁, k, hn, htarget, hk, .inl himount⟩ hlate
        · rename_i imount himount
          split_ifs at hu with hsize
          · exact absurd ⟨i, m₁, k, hn, htarget, hk, .inr hsize⟩ hlate
          · obtain ⟨m₂, hroot, hu⟩ := bind_ok.mp hu
            obtain ⟨m₃, hmount, hu⟩ := bind_ok.mp hu
            obtain ⟨m₄, hsuper, hu⟩ := bind_ok.mp hu
            obtain ⟨m₅, hi, hu⟩ := bind_ok.mp hu
            cases hu
            obtain ⟨h₂, hnone⟩ := h₁.unmount himount hroot hmount
            exact (h₂.putSuper (.inr hnone) hsuper).iput hi

/-- `super_init` up to `mount_root`, and `inode_init`. -/
def init : Mounts where
  supers _ := ⟨none, 0, none, none, []⟩
  root := ⟨0, by decide⟩
  inodes _ := ⟨none, 0, 0, none, none, (0, 0)⟩
  bufs _ := 0

theorem init_inv : init.Inv [] := by
  refine ⟨⟨fun i => ?_, fun i hi => absurd rfl hi, fun i _ => ⟨rfl, rfl⟩⟩, fun k hk => absurd rfl hk,
    fun k _ => ⟨rfl, rfl⟩⟩
  have hzero : refCount (fun _ : Fin SUPER_NR => (none : Option ℕ)) i = 0 := Finset.sum_eq_zero fun _ _ => rfl
  change refCount (fun _ : Fin SUPER_NR => (none : Option ℕ)) i +
    refCount (fun _ : Fin SUPER_NR => (none : Option ℕ)) i + 0 ≤ 0
  rw [hzero]

theorem Inv.mountRoot (h : m.Inv held) {dev : ℕ} (hm : m.mountRoot c dev = .ok m') : m'.Inv held := by
  unfold Mounts.mountRoot at hm
  obtain ⟨⟨k, m₁⟩, hread, hm⟩ := bind_ok.mp hm
  obtain ⟨⟨i, m₂⟩, hi, hm⟩ := bind_ok.mp hm
  obtain ⟨⟨j, m₃⟩, hj, hm⟩ := bind_ok.mp hm
  cases hm
  obtain ⟨h₁, hdev, -⟩ := h.readSuper hread
  have h₁' : ({ m₁ with root := k } : Mounts).Inv held :=
    h₁.of_supers rfl (h₁.counts.congr (fun _ => rfl) (fun _ => rfl) fun _ => rfl)
  obtain ⟨ht, h₂⟩ := h₁'.iget hi
  have hdev₂ : (m₂.supers k).dev ≠ none := by
    rw [ht.supers.1]
    exact hdev ▸ Option.some_ne_none _
  have hc₂ := h₂.counts.setRoot k
  have h₂' : (m₂.updSuper k fun sb => { sb with iroot := some i }).Inv held := by
    refine Inv.updSuper h₂.live (fun k' _ => h₂.dead k') (hc₂.mono fun l => ?_) (h₂.live k)
      fun hnone => absurd hnone hdev₂
    change refCount (Function.update m₂.imounts k (m₂.imounts k)) l + _ + _ ≤ _
    rw [Function.update_eq_self]
  obtain ⟨ht', h₃⟩ := h₂'.iget hj
  have hdev₃ : (m₃.supers k).dev ≠ none := by
    rw [ht'.supers.1, updSuper_self]
    exact hdev₂
  have hc₃ := h₃.counts.setMount k
  refine Inv.updSuper h₃.live (fun k' _ => h₃.dead k') (hc₃.mono fun l => ?_) (h₃.live k)
    fun hnone => absurd hnone hdev₃
  change _ + refCount (Function.update m₃.iroots k (m₃.iroots k)) l + _ ≤ _
  rw [Function.update_eq_self]

/-- Every directory with a device mounted on it has a super block, so that the assertion of
`fit_inode` holds. -/
def Served (m : Mounts) : Prop := ∀ i dev, (m.inodes i).mount = some dev → m.getSuper dev ≠ none

theorem Unchanged.served (h : m.Unchanged m') (hs : m.Served) : m'.Served := by
  intro i dev hi
  rw [h.mounts i] at hi
  unfold getSuper
  rw [h.supers]
  exact hs i dev hi

end Mounts

/-! ### Any calls of any tasks -/

/-- The mounted file systems, and the inodes that tasks hold open. -/
structure MountState where
  fs : Mounts
  held : List ℕ

inductive MountEvent
  /-- `namei` for a file that stays open. -/
  | openFile (task : TaskDirs) (pathname : Name)
  /-- A reference on an inode in use, as `task_fork` takes it. -/
  | share (i : ℕ)
  | close (i : ℕ)
  | mount (task : TaskDirs) (devname dirname : Name) (ret : Bool)
  | umount (task : TaskDirs) (pathname : Name) (ret : Bool)

inductive MountStep (c : Content) : MountState → MountEvent → MountState → Prop
  | openFile {m m' : Mounts} {held : List ℕ} {task : TaskDirs} {pathname : Name} {i : ℕ} :
      m.namei c task pathname = .ok (some i, m') → MountStep c ⟨m, held⟩ (.openFile task pathname) ⟨m', i :: held⟩
  | share {m : Mounts} {held : List ℕ} {i : ℕ} : (m.inodes i).dev ≠ none →
      MountStep c ⟨m, held⟩ (.share i) ⟨m.take i, i :: held⟩
  | close {m m' : Mounts} {held : List ℕ} {i : ℕ} : i ∈ held → m.iput i = .ok m' →
      MountStep c ⟨m, held⟩ (.close i) ⟨m', held.erase i⟩
  | mount {m m' : Mounts} {held : List ℕ} {task : TaskDirs} {devname dirname : Name} {ret : Bool} :
      m.sysMount c task devname dirname = .ok (ret, m') →
      MountStep c ⟨m, held⟩ (.mount task devname dirname ret) ⟨m', held⟩
  | umount {m m' : Mounts} {held : List ℕ} {task : TaskDirs} {pathname : Name} {ret : Bool} :
      m.sysUmount c task pathname = .ok (ret, m') → MountStep c ⟨m, held⟩ (.umount task pathname ret) ⟨m', held⟩

def MountBooted (c : Content) (s : MountState) : Prop := s.held = [] ∧ ∃ dev, Mounts.init.mountRoot c dev = .ok s.fs

/-- No `sys_umount` is refused late. -/
def NotLate (c : Content) (s : MountState) : MountEvent → Prop
  | .umount task pathname _ => ¬ s.fs.Late c task pathname
  | _ => True

theorem mount_inv {c : Content} {es : List MountEvent} {s : MountState}
    (h : Run (MountBooted c) (Restrict (NotLate c) (MountStep c)) es s) : s.fs.Inv s.held := by
  refine Run.invariant (I := fun s => s.fs.Inv s.held) ?_ ?_ es s h
  · rintro s ⟨hheld, dev, hm⟩
    rw [hheld]
    exact Mounts.init_inv.mountRoot hm
  · rintro s e s' hi ⟨hlate, hs⟩
    cases hs with
    | openFile hn =>
      rcases hi.namei hn with ⟨hnone, -⟩ | ⟨i, hr, -, h'⟩
      · cases hnone
      · cases hr
        exact h'
    | share hdev => exact hi.of_supers rfl (hi.counts.take hdev)
    | @close _ _ held i hmem hput =>
      have hperm : ∀ j, (i :: held.erase i).count j = held.count j :=
        fun j => (List.perm_cons_erase hmem).symm.count_eq j
      have hc : Mounts.Counts _ _ _ (i :: held.erase i) := hi.counts.mono fun j => by rw [hperm]
      exact (hi.of_supers rfl hc).iput hput
    | mount hm => exact hi.sysMount hm
    | umount hu => exact hi.sysUmount hu hlate

/-- In a run without a late refusal: a refused `sys_umount` changes nothing if and only if it is
not refused late, and then every mounted directory still has its super block. -/
theorem umount_refused {c : Content} {es : List MountEvent} {s : MountState}
    (h : Run (MountBooted c) (Restrict (NotLate c) (MountStep c)) es s) (task : TaskDirs) (pathname : Name) (m' : Mounts)
    (hu : s.fs.sysUmount c task pathname = .ok (false, m')) :
    (s.fs.Unchanged m' ↔ ¬ s.fs.Late c task pathname) ∧ (¬ s.fs.Late c task pathname → s.fs.Served → m'.Served) := by
  have hiff := (mount_inv h).refused hu
  exact ⟨hiff, fun hlate hs => (hiff.mpr hlate).served hs⟩

/-! A root with a device file `h` and a directory `m`, and a device with a file `f`. -/

def smallContent : Content where
  isDir inode := decide (inode = ⟨1, 1⟩ ∨ inode = ⟨1, 2⟩ ∨ inode = ⟨2, 1⟩)
  isBlk inode := decide (inode = ⟨1, 3⟩)
  zone0 _ := 2
  exec _ := true
  entries inode :=
    if inode = ⟨1, 1⟩ then [(DOT, 1), (DOTDOT, 1), (['m'], 2), (['h'], 3)]
    else if inode = ⟨1, 2⟩ then [(DOT, 2), (DOTDOT, 1)]
    else if inode = ⟨2, 1⟩ then [(DOT, 1), (DOTDOT, 1), (['f'], 2)]
    else []
  maps _ := (1, 1)
  minix _ := true

def rootTask : TaskDirs := ⟨⟨1, 1⟩, ⟨1, 1⟩, ['/']⟩

/-- `mount("h", "m")`, a file of the device is opened, and `umount(pathname)`. -/
def mountAndUmount (pathname : Name) :
    Except Halt (Mounts × (Bool × Mounts) × (Option ℕ × Mounts) × Bool × Mounts) := do
  let m ← Mounts.init.mountRoot smallContent 1
  let r ← m.sysMount smallContent rootTask ['h'] ['m']
  let f ← r.2.namei smallContent rootTask ['m', '/', 'f']
  let u ← f.2.sysUmount smallContent rootTask pathname
  .ok (m, r, f, u)

theorem mountAndUmount_run {pathname : Name} {x : Mounts × (Bool × Mounts) × (Option ℕ × Mounts) × Bool × Mounts}
    (h : (mountAndUmount pathname).toOption = some x) (hf : x.2.2.1.1.isSome) : ∃ es held,
    Run (MountBooted smallContent) (Restrict (NotLate smallContent) (MountStep smallContent)) es ⟨x.2.2.1.2, held⟩ ∧
      x.2.2.1.2.sysUmount smallContent rootTask pathname = .ok x.2.2.2 := by
  obtain ⟨m, ⟨ret, m₁⟩, ⟨r, m₂⟩, u⟩ := x
  have hok : mountAndUmount pathname = .ok (m, (ret, m₁), (r, m₂), u) := by
    cases hx : mountAndUmount pathname with
    | ok x =>
      rw [hx] at h
      exact congrArg Except.ok (Option.some.inj h)
    | error e =>
      rw [hx] at h
      cases h
  unfold mountAndUmount at hok
  obtain ⟨_, hboot, hok⟩ := bind_ok.mp hok
  obtain ⟨_, hmount, hok⟩ := bind_ok.mp hok
  obtain ⟨_, hopen, hok⟩ := bind_ok.mp hok
  obtain ⟨_, humount, hok⟩ := bind_ok.mp hok
  cases hok
  obtain ⟨i, rfl⟩ := Option.isSome_iff_exists.mp hf
  have hstart : MountBooted smallContent ⟨m, []⟩ := ⟨rfl, 1, hboot⟩
  have hmounted : Restrict (NotLate smallContent) (MountStep smallContent) ⟨m, []⟩ (.mount rootTask ['h'] ['m'] ret)
      ⟨m₁, []⟩ := ⟨trivial, .mount hmount⟩
  have hopened : Restrict (NotLate smallContent) (MountStep smallContent) ⟨m₁, []⟩ (.openFile rootTask ['m', '/', 'f'])
      ⟨m₂, [i]⟩ := ⟨trivial, .openFile hopen⟩
  exact ⟨_, _, ((Run.nil hstart).snoc hmounted).snoc hopened, humount⟩

/-- With a file of the device open, `umount("m")` is refused and frees the super block. -/
theorem umount_frees_super : ¬ ∀ es s, Run (MountBooted smallContent) (MountStep smallContent) es s →
    ∀ m', s.fs.sysUmount smallContent rootTask ['m'] = .ok (false, m') → s.fs.Unchanged m' := by
  intro hall
  have hsome : (mountAndUmount ['m']).toOption.map (fun x => (x.2.2.1.1.isSome, x.2.2.2.1,
      (x.2.2.1.2.supers ⟨1, by decide⟩).count, (x.2.2.2.2.supers ⟨1, by decide⟩).count)) = some (true, false, 1, 0) := by
    decide +kernel
  obtain ⟨⟨m, mounted, ⟨r, m₂⟩, ret, m₃⟩, hx, hd⟩ := Option.map_eq_some_iff.mp hsome
  simp only [Prod.mk.injEq] at hd
  obtain ⟨hf, rfl, h1, h0⟩ := hd
  obtain ⟨es, held, hrun, humount⟩ := mountAndUmount_run hx hf
  have hsame := congrFun (hall es _ hrun.of_restrict m₃ humount).supers ⟨1, by decide⟩
  rw [hsame] at h0
  exact absurd (h0.symm.trans h1) (by decide)

/-- `umount("f")` finds no such file; nothing has changed after it. -/
theorem umount_refused_missing : ∃ m m' : Mounts, m.sysUmount smallContent rootTask ['f'] = .ok (false, m') ∧
    m.Unchanged m' := by
  have hsome : (mountAndUmount ['f']).toOption.map (fun x => (x.2.2.1.1.isSome, x.2.2.2.1,
      (x.2.2.1.2.namei smallContent rootTask ['f']).toOption.map fun y => y.1.isSome)) = some (true, false, some false) := by
    decide +kernel
  obtain ⟨⟨m, mounted, ⟨r, m₂⟩, ret, m₃⟩, hx, hd⟩ := Option.map_eq_some_iff.mp hsome
  simp only [Prod.mk.injEq] at hd
  obtain ⟨hf, rfl, hmissing⟩ := hd
  obtain ⟨es, held, hrun, humount⟩ := mountAndUmount_run hx hf
  refine ⟨m₂, m₃, humount, (umount_refused hrun rootTask _ m₃ humount).1.mpr ?_⟩
  rintro ⟨i, m₄, k, hn, -⟩
  rw [show m₂.namei smallContent rootTask ['f'] = _ from hn] at hmissing
  cases hmissing

end Onix
