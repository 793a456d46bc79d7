import Mathlib
import Xv6.FsBlocks

/-! Who owns what in the file system. A block is free, reserved for metadata, or belongs to an inode;
an inode on disk is pinned by the process that locked it in the cache; every reference counted in the
cache is held by a process. A process sees its references, its descriptors, the cached inodes it has
locked, and the inodes on disk it has pinned with their blocks. -/

namespace Xv6.Fs

open LibProg Function

variable {n : Nat}

inductive Owner where
  | free
  | reserved
  | inode (i : Nat)
  deriving DecidableEq

structure Ghost (n : Nat) where
  owner : Nat → Owner
  refs : Fin n → Slot → Nat
  pin : Nat → Option (Fin n)

/-- An inode on disk and the blocks that belong to it. -/
structure Pinned where
  dinode : Dinode
  blocks : Nat → Option Block

/-- What a process sees. -/
structure View where
  refs : Slot → Nat
  ofile : Nat → Option File
  cwd : Slot
  held : Slot → Option Cached
  pinned : Nat → Option Pinned

/-- The blocks of an inode with their contents. -/
def blocksOf (s : State n) (g : Ghost n) (i b : Nat) : Option Block :=
  if g.owner b = .inode i then some (s.block b) else none

def heldBy (p : Fin n) (s : State n) (ip : Slot) : Option Cached :=
  if (s.icache ip).busy = some p then some (s.icache ip).toCached else none

def pinnedBy (p : Fin n) (s : State n) (g : Ghost n) (i : Nat) : Option Pinned :=
  if g.pin i = some p then some ⟨s.dinode i, blocksOf s g i⟩ else none

def view (p : Fin n) (s : State n) (g : Ghost n) : View :=
  ⟨g.refs p, s.ofile p, s.cwd p, heldBy p s, pinnedBy p s g⟩

/-- The invariant, for a given set of reserved blocks. -/
structure Inv (reserved : Nat → Prop) (s : State n) (g : Ghost n) : Prop where
  used : ∀ b, s.used b = true ↔ g.owner b ≠ .free
  reserved : ∀ b, g.owner b = .reserved ↔ reserved b
  clean : ∀ b, g.owner b = .free → s.block b = Block.zero
  ref : ∀ ip, (s.icache ip).ref = ∑ p, g.refs p ip
  unique : ∀ ip jp, 0 < (s.icache ip).ref → 0 < (s.icache jp).ref →
    (s.icache ip).inum = (s.icache jp).inum → ip = jp
  backed : ∀ ip p, (s.icache ip).busy = some p → 0 < g.refs p ip
  pinned : ∀ i p, g.pin i = some p → (s.dinode i).type ≠ .free ∧
    ∃ ip, (s.icache ip).busy = some p ∧ (s.icache ip).inum = i
  unowned : ∀ i b, (s.dinode i).type = .free → g.owner b ≠ .inode i
  settled : ∀ i, g.pin i = none → (s.dinode i).type ≠ .free →
    Settled (s.dinode i) (blocksOf s g i)
  coherent : ∀ ip, 0 < (s.icache ip).ref → (s.icache ip).busy = none →
    (s.icache ip).valid = true → (s.icache ip).copy = s.dinode (s.icache ip).inum ∧
      (s.icache ip).copy.type ≠ .free

/-- A process may stop with any message except that of `bfree`. -/
def logic (n : Nat) (reserved : Nat → Prop) : Logic (State n) (Ghost n) (Fin n) View where
  inv := Inv reserved
  view := view
  panics := (· ≠ "freeing free block")

section Lemmas

variable {reserved : Nat → Prop} {s : State n} {g : Ghost n} {p : Fin n} {ip : Slot}

theorem Inv.refs_le (h : Inv reserved s g) (p : Fin n) (ip : Slot) :
    g.refs p ip ≤ (s.icache ip).ref := by
  rw [h.ref ip]
  exact Finset.single_le_sum (fun q _ => Nat.zero_le (g.refs q ip)) (Finset.mem_univ p)

theorem Inv.refs_add_le (h : Inv reserved s g) {p q : Fin n} (hpq : p ≠ q) (ip : Slot) :
    g.refs p ip + g.refs q ip ≤ (s.icache ip).ref := by
  rw [h.ref ip, ← Finset.sum_pair (f := fun r => g.refs r ip) hpq]
  exact Finset.sum_le_sum_of_subset (Finset.subset_univ _)

theorem Inv.ref_pos (h : Inv reserved s g) (hbusy : (s.icache ip).busy = some p) :
    0 < (s.icache ip).ref :=
  Nat.lt_of_lt_of_le (h.backed ip p hbusy) (h.refs_le p ip)

theorem Inv.pin_busy (h : Inv reserved s g) (href : 0 < (s.icache ip).ref)
    (hpin : g.pin (s.icache ip).inum = some p) : (s.icache ip).busy = some p := by
  obtain ⟨-, jp, hbusy, hinum⟩ := h.pinned _ p hpin
  rwa [h.unique ip jp href (h.ref_pos hbusy) hinum.symm]

theorem Inv.unpinned (h : Inv reserved s g) (href : 0 < (s.icache ip).ref)
    (hbusy : (s.icache ip).busy = none) : g.pin (s.icache ip).inum = none := by
  cases hpin : g.pin (s.icache ip).inum with
  | none => rfl
  | some p => exact absurd (h.pin_busy href hpin) (by simp [hbusy])

theorem heldBy_eq_some {c : Cached} (h : heldBy p s ip = some c) :
    (s.icache ip).busy = some p ∧ (s.icache ip).toCached = c := by
  unfold heldBy at h
  split at h
  · exact ⟨by assumption, Option.some.inj h⟩
  · cases h

theorem pinnedBy_eq_some {i : Nat} {P : Pinned} (h : pinnedBy p s g i = some P) :
    g.pin i = some p ∧ s.dinode i = P.dinode ∧ blocksOf s g i = P.blocks := by
  unfold pinnedBy at h
  split at h
  · cases h
    exact ⟨by assumption, rfl, rfl⟩
  · cases h

theorem blocksOf_eq_some {i b : Nat} {data : Block} (h : blocksOf s g i b = some data) :
    g.owner b = .inode i ∧ s.block b = data := by
  unfold blocksOf at h
  split at h
  · exact ⟨by assumption, Option.some.inj h⟩
  · cases h

end Lemmas

/-! Changes of one cached inode. -/

section Cache

variable {reserved : Nat → Prop} {s : State n} {g h : Ghost n} {p q : Fin n} {ip : Slot}
  {f : Inode n → Inode n}

theorem setInode_self : (s.setInode ip f).icache ip = f (s.icache ip) := by
  simp [State.setInode]

theorem setInode_of_ne {jp : Slot} (hne : jp ≠ ip) : (s.setInode ip f).icache jp = s.icache jp := by
  simp [State.setInode, update_of_ne hne]

/-- What keeps the invariant when one cached inode, the references to it and the pins change. -/
structure SlotStep (s : State n) (g h : Ghost n) (ip : Slot) (j : Inode n) : Prop where
  owner : h.owner = g.owner
  refs : ∀ q jp, jp ≠ ip → h.refs q jp = g.refs q jp
  ref : j.ref = ∑ q, h.refs q ip
  unique : 0 < j.ref → ∀ jp, jp ≠ ip → 0 < (s.icache jp).ref → (s.icache jp).inum ≠ j.inum
  backed : ∀ q, j.busy = some q → 0 < h.refs q ip
  pinned : ∀ i q, h.pin i = some q → (s.dinode i).type ≠ .free ∧
    ((j.busy = some q ∧ j.inum = i) ∨
      ∃ jp, jp ≠ ip ∧ (s.icache jp).busy = some q ∧ (s.icache jp).inum = i)
  settled : ∀ i, h.pin i = none → (s.dinode i).type ≠ .free →
    g.pin i = none ∨ Settled (s.dinode i) (blocksOf s g i)
  coherent : 0 < j.ref → j.busy = none → j.valid = true →
    j.copy = s.dinode j.inum ∧ j.copy.type ≠ .free

theorem blocksOf_congr {t : State n} (howner : h.owner = g.owner) (hblock : t.block = s.block) :
    blocksOf t h = blocksOf s g := by
  funext i b
  rw [blocksOf, blocksOf, howner, hblock]

theorem Inv.setInode (hinv : Inv reserved s g) (hstep : SlotStep s g h ip (f (s.icache ip))) :
    Inv reserved (s.setInode ip f) h := by
  have hself := @setInode_self n s ip f
  have hother : ∀ jp, jp ≠ ip → (s.setInode ip f).icache jp = s.icache jp :=
    fun jp hne => setInode_of_ne hne
  constructor
  · intro b
    rw [hstep.owner]
    exact hinv.used b
  · intro b
    rw [hstep.owner]
    exact hinv.reserved b
  · intro b hb
    rw [hstep.owner] at hb
    exact hinv.clean b hb
  · intro jp
    by_cases hj : jp = ip
    · rw [hj, hself, hstep.ref]
    · rw [hother jp hj, hinv.ref jp]
      exact Finset.sum_congr rfl fun q _ => (hstep.refs q jp hj).symm
  · intro jp kp hj hk hinum
    by_cases hji : jp = ip <;> by_cases hki : kp = ip
    · rw [hji, hki]
    · rw [hji, hself] at hj hinum
      rw [hother kp hki] at hk hinum
      exact absurd hinum.symm (hstep.unique hj kp hki hk)
    · rw [hki, hself] at hk hinum
      rw [hother jp hji] at hj hinum
      exact absurd hinum (hstep.unique hk jp hji hj)
    · rw [hother jp hji] at hj hinum
      rw [hother kp hki] at hk hinum
      exact hinv.unique jp kp hj hk hinum
  · intro jp q hbusy
    by_cases hj : jp = ip
    · rw [hj, hself] at hbusy
      rw [hj]
      exact hstep.backed q hbusy
    · rw [hother jp hj] at hbusy
      rw [hstep.refs q jp hj]
      exact hinv.backed jp q hbusy
  · intro i q hpin
    obtain ⟨htype, ⟨hbusy, hinum⟩ | ⟨jp, hj, hbusy, hinum⟩⟩ := hstep.pinned i q hpin
    · exact ⟨htype, ip, hself ▸ hbusy, hself ▸ hinum⟩
    · exact ⟨htype, jp, hother jp hj ▸ hbusy, hother jp hj ▸ hinum⟩
  · intro i b htype
    rw [hstep.owner]
    exact hinv.unowned i b htype
  · intro i hpin htype
    rw [blocksOf_congr hstep.owner rfl]
    exact (hstep.settled i hpin htype).elim (fun hg => hinv.settled i hg htype) id
  · intro jp href hbusy hvalid
    by_cases hj : jp = ip
    · rw [hj, hself] at href hbusy hvalid ⊢
      exact hstep.coherent href hbusy hvalid
    · rw [hother jp hj] at href hbusy hvalid ⊢
      exact hinv.coherent jp href hbusy hvalid

theorem view_setInode : view q (s.setInode ip f) h =
    ⟨h.refs q, s.ofile q, s.cwd q, update (heldBy q s) ip
      (if (f (s.icache ip)).busy = some q then some (f (s.icache ip)).toCached else none),
      pinnedBy q s h⟩ := by
  have hheld : heldBy q (s.setInode ip f) = update (heldBy q s) ip
      (if (f (s.icache ip)).busy = some q then some (f (s.icache ip)).toCached else none) := by
    funext jp
    by_cases hj : jp = ip
    · subst hj
      rw [heldBy, setInode_self, update_self]
    · rw [heldBy, setInode_of_ne hj, update_of_ne hj, heldBy]
  rw [view, hheld]
  rfl

theorem pinnedBy_congr (howner : h.owner = g.owner) (hpin : ∀ i, h.pin i = some q ↔ g.pin i = some q) :
    pinnedBy q s h = pinnedBy q s g := by
  funext i
  rw [pinnedBy, pinnedBy, blocksOf_congr howner rfl, if_congr (hpin i) rfl rfl]

theorem view_setInode_other (howner : h.owner = g.owner) (hrefs : h.refs q = g.refs q)
    (hheld : (if (f (s.icache ip)).busy = some q then some (f (s.icache ip)).toCached else none) =
      heldBy q s ip)
    (hpin : ∀ i, h.pin i = some q ↔ g.pin i = some q) :
    view q (s.setInode ip f) h = view q s g := by
  rw [view_setInode, hheld, update_eq_self, hrefs, pinnedBy_congr howner hpin, view]

theorem heldBy_of_ne (hne : (s.icache ip).busy ≠ some q) : heldBy q s ip = none := if_neg hne

end Cache

end Xv6.Fs
