import Xv6.FsOwner

/-! What the operations do to the view of the process that makes them; that they keep the invariant and
the views of the other processes. -/

namespace Xv6.Fs

open LibProg Function

variable {n : Nat}

def View.setRefs (v : View) (ip : Slot) (k : Nat) : View :=
  { v with refs := update v.refs ip k }

def View.setHeld (v : View) (ip : Slot) (c : Option Cached) : View :=
  { v with held := update v.held ip c }

def View.setPinned (v : View) (i : Nat) (P : Option Pinned) : View :=
  { v with pinned := update v.pinned i P }

def View.setOfile (v : View) (fd : Nat) (f : Option File) : View :=
  { v with ofile := update v.ofile fd f }

def View.setCwd (v : View) (ip : Slot) : View := { v with cwd := ip }

/-- A process that has locked a cached inode and pinned it on disk. -/
def View.lock (v : View) (ip : Slot) (c : Cached) (P : Pinned) : View :=
  (v.setHeld ip (some c)).setPinned c.inum (some P)

/-- A locked inode is as on disk, and settled there. -/
structure Tidy (c : Cached) (P : Pinned) : Prop where
  valid : c.valid = true
  dinode : P.dinode = c.copy
  settled : Settled P.dinode P.blocks

def Ghost.setRefs (g : Ghost n) (p : Fin n) (ip : Slot) (k : Nat) : Ghost n :=
  { g with refs := update g.refs p (update (g.refs p) ip k) }

def Ghost.setPin (g : Ghost n) (i : Nat) (q : Option (Fin n)) : Ghost n :=
  { g with pin := update g.pin i q }

def Ghost.setOwner (g : Ghost n) (b : Nat) (owner : Owner) : Ghost n :=
  { g with owner := update g.owner b owner }

section Ghosts

variable {g : Ghost n} {p q : Fin n} {ip jp : Slot} {k : Nat}

theorem setRefs_self : (g.setRefs p ip k).refs p ip = k := by
  simp [Ghost.setRefs]

theorem setRefs_other (hq : q ≠ p) : (g.setRefs p ip k).refs q = g.refs q := by
  simp [Ghost.setRefs, update_of_ne hq]

theorem setRefs_of_ne (hj : jp ≠ ip) : (g.setRefs p ip k).refs q jp = g.refs q jp := by
  by_cases hq : q = p
  · subst hq
    simp [Ghost.setRefs, update_of_ne hj]
  · rw [setRefs_other hq]

theorem sum_setRefs :
    ∑ q, (g.setRefs p ip k).refs q ip + g.refs p ip = ∑ q, g.refs q ip + k := by
  have hrest : ∑ q ∈ Finset.univ.erase p, (g.setRefs p ip k).refs q ip =
      ∑ q ∈ Finset.univ.erase p, g.refs q ip :=
    Finset.sum_congr rfl fun q hq => by rw [setRefs_other (Finset.ne_of_mem_erase hq)]
  rw [← Finset.add_sum_erase _ _ (Finset.mem_univ p),
    ← Finset.add_sum_erase _ (fun q => g.refs q ip) (Finset.mem_univ p), hrest, setRefs_self]
  omega

theorem setPin_self {i : Nat} {r : Option (Fin n)} : (g.setPin i r).pin i = r := by
  simp [Ghost.setPin]

theorem setPin_of_ne {i j : Nat} {r : Option (Fin n)} (hj : j ≠ i) :
    (g.setPin i r).pin j = g.pin j := by
  simp [Ghost.setPin, update_of_ne hj]

end Ghosts

section Specs

variable {sb : Superblock} {reserved : Nat → Prop} {p : Fin n}

/-- The specification of an operation of the file system. -/
abbrev FsSpec (sb : Superblock) (reserved : Nat → Prop) (p : Fin n) (o : Op) (pre : View → Prop)
    (post : View → Res o → View → Prop) : Prop :=
  Spec (system n sb) (logic n reserved) p o pre post

theorem FsSpec.intro {o : Op} {pre : View → Prop} {post : View → Res o → View → Prop}
    (hspec : ∀ s g, Inv reserved s g → pre (view p s g) → ∀ i r t, exec p i o s = some (r, t) →
      ∃ h, Inv reserved t h ∧ (∀ q, q ≠ p → view q t h = view q s g) ∧
        post (view p s g) r (view p t h)) : FsSpec sb reserved p o pre post := hspec

theorem spec_of_read {o : Op} {post : View → Res o → View → Prop}
    (h : ∀ s g i r t, Inv reserved s g → exec p i o s = some (r, t) →
      t = s ∧ post (view p s g) r (view p s g)) : FsSpec sb reserved p o (fun _ => True) post := by
  refine .intro fun s g hinv _ i r t hexec => ?_
  obtain ⟨rfl, hpost⟩ := h s g i r t hinv hexec
  exact ⟨g, hinv, fun q _ => rfl, hpost⟩

theorem spec_load (ip : Slot) : FsSpec sb reserved p (.load ip) (fun _ => True)
    fun v r w => w = v ∧ ∀ c, v.held ip = some c → r = c := by
  refine spec_of_read fun s g i r t _ hexec => ?_
  cases hexec
  exact ⟨rfl, rfl, fun c hc => (heldBy_eq_some hc).2⟩

theorem spec_bread (b : Nat) : FsSpec sb reserved p (.bread b) (fun _ => True)
    fun v r w => w = v ∧ ∀ i P data, v.pinned i = some P → P.blocks b = some data → r = data := by
  refine spec_of_read fun s g i r t _ hexec => ?_
  cases hexec
  refine ⟨rfl, rfl, fun i P data hP hdata => ?_⟩
  obtain ⟨-, -, hblocks⟩ := pinnedBy_eq_some hP
  exact (blocksOf_eq_some (hblocks ▸ hdata)).2

theorem spec_fdalloc : FsSpec sb reserved p .fdalloc (fun _ => True)
    fun v r w => w = v ∧ ∀ fd, r = some fd → fd < nofile ∧ v.ofile fd = none := by
  refine spec_of_read fun s g i r t _ hexec => ?_
  cases hexec
  refine ⟨rfl, rfl, fun fd hfd => ?_⟩
  split at hfd
  · cases hfd
  · exact ⟨List.mem_range.mp (List.mem_of_find?_eq_some hfd),
      Option.isNone_iff_eq_none.mp (List.find?_some (p := fun fd => (s.ofile p fd).isNone) hfd)⟩

theorem spec_getFile (fd : Nat) : FsSpec sb reserved p (.getFile fd) (fun _ => True)
    fun v r w => w = v ∧ r = v.ofile fd := by
  refine spec_of_read fun s g i r t _ hexec => ?_
  cases hexec
  exact ⟨rfl, rfl, rfl⟩

theorem spec_getCwd : FsSpec sb reserved p .getCwd (fun _ => True)
    fun v r w => w = v ∧ r = v.cwd := by
  refine spec_of_read fun s g i r t _ hexec => ?_
  cases hexec
  exact ⟨rfl, rfl, rfl⟩

theorem spec_console (k : Nat) : FsSpec sb reserved p (.console k) (fun _ => True)
    fun v _ w => w = v := by
  refine spec_of_read fun s g i r t _ hexec => ?_
  cases hexec
  exact ⟨rfl, rfl⟩

/-! The descriptors and the current directory belong to the process. -/

theorem Inv.of_same_disk {s t : State n} {g : Ghost n} (h : Inv reserved s g) (hused : t.used = s.used)
    (hdinode : t.dinode = s.dinode) (hblock : t.block = s.block) (hicache : t.icache = s.icache) :
    Inv reserved t g := by
  obtain ⟨used, dinode, block, icache, ofile, cwd⟩ := t
  dsimp only at hused hdinode hblock hicache
  subst hused hdinode hblock hicache
  exact { h with }

theorem spec_setFile (fd : Nat) (f : Option File) : FsSpec sb reserved p (.setFile fd f)
    (fun _ => True) fun v _ w => w = v.setOfile fd f := by
  refine .intro fun s g hinv _ i r t hexec => ?_
  cases hexec
  refine ⟨g, hinv.of_same_disk rfl rfl rfl rfl, fun q hq => ?_, ?_⟩
  · simp only [view, update_of_ne hq]
    rfl
  · simp only [view, View.setOfile, update_self]
    rfl

theorem spec_setCwd (ip : Slot) : FsSpec sb reserved p (.setCwd ip) (fun _ => True)
    fun v _ w => w = v.setCwd ip := by
  refine .intro fun s g hinv _ i r t hexec => ?_
  cases hexec
  refine ⟨g, hinv.of_same_disk rfl rfl rfl rfl, fun q hq => ?_, ?_⟩
  · simp only [view, update_of_ne hq]
    rfl
  · simp only [view, View.setCwd, update_self]
    rfl

/-! Operations on the inode cache. -/

theorem cached_eq_some {s : State n} {inum : Nat} {ip : Slot} (h : s.cached inum = some ip) :
    0 < (s.icache ip).ref ∧ (s.icache ip).inum = inum := by
  simpa using List.find?_some h

theorem cached_eq_none {s : State n} {inum : Nat} (h : s.cached inum = none) (ip : Slot)
    (href : 0 < (s.icache ip).ref) : (s.icache ip).inum ≠ inum := by
  have hfalse := List.find?_eq_none.mp h ip (List.mem_finRange ip)
  intro hinum
  exact hfalse (by simp [href, hinum])

theorem Inv.unique_other {s : State n} {g : Ghost n} {ip : Slot} (hinv : Inv reserved s g)
    (href : 0 < (s.icache ip).ref) (jp : Slot) (hj : jp ≠ ip) (hjref : 0 < (s.icache jp).ref) :
    (s.icache jp).inum ≠ (s.icache ip).inum := fun hinum =>
  hj (hinv.unique jp ip hjref href hinum)

theorem Inv.pinned_slot {s : State n} {g : Ghost n} (hinv : Inv reserved s g) (ip : Slot) {i : Nat}
    {q : Fin n} (hpin : g.pin i = some q) : (s.dinode i).type ≠ .free ∧
      (((s.icache ip).busy = some q ∧ (s.icache ip).inum = i) ∨
        ∃ jp, jp ≠ ip ∧ (s.icache jp).busy = some q ∧ (s.icache jp).inum = i) := by
  obtain ⟨htype, jp, hbusy, hinum⟩ := hinv.pinned i q hpin
  refine ⟨htype, ?_⟩
  by_cases hj : jp = ip
  · exact .inl (hj ▸ ⟨hbusy, hinum⟩)
  · exact .inr ⟨jp, hj, hbusy, hinum⟩

/-- A further reference to a cached inode. -/
theorem Inv.addRef {s : State n} {g : Ghost n} {ip : Slot} (hinv : Inv reserved s g) (p : Fin n)
    (href : 0 < (s.icache ip).ref) :
    Inv reserved (s.setInode ip fun i => { i with ref := i.ref + 1 })
      (g.setRefs p ip (g.refs p ip + 1)) := by
  have hsum := @sum_setRefs n g p ip (g.refs p ip + 1)
  have hold := hinv.ref ip
  refine hinv.setInode ⟨rfl, fun q jp hj => setRefs_of_ne hj, ?_, fun _ => hinv.unique_other href, ?_,
    fun i q => hinv.pinned_slot ip, fun i hi _ => .inl hi, fun _ => hinv.coherent ip href⟩
  · dsimp only
    omega
  · intro q hq
    have hpos := hinv.backed ip q hq
    by_cases hqp : q = p
    · rw [hqp, setRefs_self]
      omega
    · rwa [setRefs_other hqp]

theorem spec_addRef {s : State n} {g : Ghost n} {ip : Slot} (hinv : Inv reserved s g) (p : Fin n)
    (href : 0 < (s.icache ip).ref) :
    ∃ h, Inv reserved (s.setInode ip fun i => { i with ref := i.ref + 1 }) h ∧
      (∀ q, q ≠ p → view q (s.setInode ip fun i => { i with ref := i.ref + 1 }) h = view q s g) ∧
      view p (s.setInode ip fun i => { i with ref := i.ref + 1 }) h =
        (view p s g).setRefs ip ((view p s g).refs ip + 1) := by
  refine ⟨_, hinv.addRef p href, fun q hq => ?_, ?_⟩
  · exact view_setInode_other rfl (setRefs_other hq) rfl fun _ => Iff.rfl
  · rw [view_setInode]
    have hheld : (if (s.icache ip).busy = some p then some (s.icache ip).toCached else none) =
        heldBy p s ip := rfl
    dsimp only
    rw [hheld, update_eq_self]
    simp only [Ghost.setRefs, update_self]
    rfl

theorem spec_idup (ip : Slot) : FsSpec sb reserved p (.idup ip) (fun v => 0 < v.refs ip)
    fun v _ w => w = v.setRefs ip (v.refs ip + 1) := by
  refine .intro fun s g hinv hpre i r t hexec => ?_
  cases hexec
  exact spec_addRef hinv p (Nat.lt_of_lt_of_le hpre (hinv.refs_le p ip))

theorem Inv.refs_eq_zero {s : State n} {g : Ghost n} {ip : Slot} (hinv : Inv reserved s g)
    (href : (s.icache ip).ref = 0) (q : Fin n) : g.refs q ip = 0 :=
  Nat.le_zero.mp (href ▸ hinv.refs_le q ip)

theorem Inv.idle {s : State n} {g : Ghost n} {ip : Slot} (hinv : Inv reserved s g)
    (href : (s.icache ip).ref = 0) (q : Fin n) : (s.icache ip).busy ≠ some q := fun hbusy =>
  Nat.ne_of_gt (hinv.ref_pos hbusy) href

theorem spec_iget (inum : Nat) : FsSpec sb reserved p (.iget inum) (fun _ => True)
    fun v r w => (r = none ∧ w = v) ∨ ∃ ip, r = some ip ∧ w = v.setRefs ip (v.refs ip + 1) := by
  refine .intro fun s g hinv _ i r t hexec => ?_
  simp only [exec] at hexec
  split at hexec
  · rename_i ip hcached
    cases hexec
    obtain ⟨h, hinv', hothers, hself⟩ := spec_addRef hinv p (cached_eq_some hcached).1
    exact ⟨h, hinv', hothers, .inr ⟨ip, rfl, hself⟩⟩
  · rename_i hcached
    split at hexec
    · rename_i ip hempty
      cases hexec
      have href : (s.icache ip).ref = 0 := by simpa using List.find?_some hempty
      have hidle := hinv.idle href
      have hzero := hinv.refs_eq_zero href
      refine ⟨g.setRefs p ip 1, ?_, fun q hq => ?_, .inr ⟨ip, rfl, ?_⟩⟩
      · have hsum := @sum_setRefs n g p ip 1
        have hold := hinv.ref ip
        have hp := hzero p
        refine hinv.setInode ⟨rfl, fun q jp hj => setRefs_of_ne hj, ?_, ?_, ?_, ?_,
          fun i hi _ => .inl hi, ?_⟩
        · dsimp only
          omega
        · exact fun _ jp _ hjref => cached_eq_none hcached jp hjref
        · exact fun q hq => by cases hq
        · intro i q hpin
          obtain ⟨htype, jp, hbusy, hinum⟩ := hinv.pinned i q hpin
          exact ⟨htype, .inr ⟨jp, fun hj => hidle q (hj ▸ hbusy), hbusy, hinum⟩⟩
        · exact fun _ _ hvalid => by cases hvalid
      · refine view_setInode_other rfl (setRefs_other hq) ?_ fun _ => Iff.rfl
        rw [heldBy_of_ne (hidle q)]
        rfl
      · have hheld : heldBy p s ip = none := heldBy_of_ne (hidle p)
        have hrefs : (view p s g).refs ip = 0 := hzero p
        rw [hrefs]
        simp only [view_setInode, reduceCtorEq, if_false, ← hheld, update_eq_self]
        simp only [Ghost.setRefs, update_self]
        rfl
    · cases hexec
      exact ⟨g, hinv, fun q _ => rfl, .inl ⟨rfl, rfl⟩⟩

theorem pinnedBy_setPin {s : State n} {g : Ghost n} {i : Nat} : pinnedBy p s (g.setPin i (some p)) =
    update (pinnedBy p s g) i (some ⟨s.dinode i, blocksOf s g i⟩) := by
  funext j
  by_cases hj : j = i
  · subst hj
    rw [pinnedBy, if_pos setPin_self, update_self]
    rfl
  · rw [pinnedBy, setPin_of_ne hj, update_of_ne hj]
    rfl

theorem pinnedBy_unpin {s : State n} {g : Ghost n} {i : Nat} : pinnedBy p s (g.setPin i none) =
    update (pinnedBy p s g) i none := by
  funext j
  by_cases hj : j = i
  · subst hj
    rw [pinnedBy, setPin_self, if_neg (by simp), update_self]
  · rw [pinnedBy, setPin_of_ne hj, update_of_ne hj]
    rfl

theorem setPin_other {g : Ghost n} {i : Nat} {q : Fin n} {r : Option (Fin n)} (hr : r ≠ some q)
    (hpin : g.pin i ≠ some q) (j : Nat) : (g.setPin i r).pin j = some q ↔ g.pin j = some q := by
  by_cases hj : j = i
  · subst hj
    simp [setPin_self, hr, hpin]
  · rw [setPin_of_ne hj]

theorem view_setPin_other {s : State n} {g : Ghost n} {i : Nat} {q : Fin n} {r : Option (Fin n)}
    (hr : r ≠ some q) (hpin : g.pin i ≠ some q) : view q s (g.setPin i r) = view q s g := by
  have hpinned : pinnedBy q s (g.setPin i r) = pinnedBy q s g :=
    pinnedBy_congr rfl (setPin_other hr hpin)
  rw [view, hpinned]
  rfl

/-- Locking a cached inode that is as on disk pins the inode on disk. -/
theorem Inv.lock {s : State n} {g : Ghost n} {ip : Slot} (hinv : Inv reserved s g)
    (hrefs : 0 < g.refs p ip) (hbusy : (s.icache ip).busy = none)
    (hvalid : (s.icache ip).valid = true) :
    Inv reserved (s.setInode ip fun i => { i with busy := some p })
        (g.setPin (s.icache ip).inum (some p)) ∧
      (∀ q, q ≠ p → view q (s.setInode ip fun i => { i with busy := some p })
        (g.setPin (s.icache ip).inum (some p)) = view q s g) ∧
      (view p s g).held ip = none ∧ (view p s g).pinned (s.icache ip).inum = none ∧
      ∃ P, Tidy (s.icache ip).toCached P ∧ view p (s.setInode ip fun i => { i with busy := some p })
        (g.setPin (s.icache ip).inum (some p)) = (view p s g).lock ip (s.icache ip).toCached P := by
  have href := Nat.lt_of_lt_of_le hrefs (hinv.refs_le p ip)
  have hunpinned := hinv.unpinned href hbusy
  obtain ⟨hcopy, htype⟩ := hinv.coherent ip href hbusy hvalid
  refine ⟨hinv.setInode ⟨rfl, fun _ _ _ => rfl, hinv.ref ip, fun _ => hinv.unique_other href, ?_, ?_, ?_,
    nofun⟩, ?_, ?_, ?_, ?_⟩
  · rintro q ⟨⟩
    exact hrefs
  · intro i q hpin
    by_cases hi : i = (s.icache ip).inum
    · subst hi
      rw [setPin_self] at hpin
      exact ⟨hcopy ▸ htype, .inl ⟨hpin, rfl⟩⟩
    · rw [setPin_of_ne hi] at hpin
      obtain ⟨htype, jp, hjbusy, hinum⟩ := hinv.pinned i q hpin
      refine ⟨htype, .inr ⟨jp, ?_, hjbusy, hinum⟩⟩
      rintro rfl
      exact hi hinum.symm
  · intro i hpin _
    by_cases hi : i = (s.icache ip).inum
    · exact .inl (hi ▸ hunpinned)
    · exact .inl (setPin_of_ne hi ▸ hpin)
  · intro q hq
    refine view_setInode_other rfl rfl ?_ (setPin_other ?_ ?_)
    · rw [heldBy_of_ne (by simp [hbusy])]
      exact if_neg fun h => hq (Option.some.inj h).symm
    · exact fun h => hq (Option.some.inj h).symm
    · simp [hunpinned]
  · exact heldBy_of_ne (by simp [hbusy])
  · exact if_neg (by simp [hunpinned])
  · refine ⟨⟨s.dinode (s.icache ip).inum, blocksOf s g (s.icache ip).inum⟩, ⟨hvalid, hcopy.symm, ?_⟩, ?_⟩
    · exact hinv.settled _ hunpinned (hcopy ▸ htype)
    · rw [view_setInode, pinnedBy_setPin, if_pos rfl]
      rfl

/-- `ilock` of a cached inode that is not valid pins nothing yet. -/
theorem spec_lock (ip : Slot) : FsSpec sb reserved p (.lock ip) (fun v => 0 < v.refs ip)
    fun v r w => r = true ∧ v.held ip = none ∧ ∃ c, v.pinned c.inum = none ∧
      ((c.valid = false ∧ w = v.setHeld ip (some c)) ∨ ∃ P, Tidy c P ∧ w = v.lock ip c P) := by
  refine .intro fun s g hinv hpre i r t hexec => ?_
  have href := Nat.lt_of_lt_of_le hpre (hinv.refs_le p ip)
  simp only [exec, if_neg (Nat.ne_of_gt href)] at hexec
  split at hexec
  · rename_i hbusy
    cases hexec
    cases hvalid : (s.icache ip).valid with
    | true =>
      obtain ⟨hinv', hothers, hheld, hpinned, P, htidy, hself⟩ := hinv.lock hpre hbusy hvalid
      exact ⟨_, hinv', hothers, rfl, hheld, (s.icache ip).toCached, hpinned, .inr ⟨P, htidy, hself⟩⟩
    | false =>
      refine ⟨g, hinv.setInode ⟨rfl, fun _ _ _ => rfl, hinv.ref ip, fun _ => hinv.unique_other href,
        ?_, ?_, fun i hi _ => .inl hi, nofun⟩, fun q hq => ?_, rfl, heldBy_of_ne (by simp [hbusy]),
        (s.icache ip).toCached, if_neg ?_, .inl ⟨hvalid, ?_⟩⟩
      · rintro q ⟨⟩
        exact hpre
      · grind [hinv.pinned]
      · refine view_setInode_other rfl rfl ?_ fun _ => Iff.rfl
        rw [heldBy_of_ne (by simp [hbusy])]
        exact if_neg fun h => hq (Option.some.inj h).symm
      · simp [hinv.unpinned href hbusy]
      · rw [view_setInode, if_pos rfl]
        rfl
  · cases hexec

theorem spec_unlock (ip : Slot) (c : Cached) (P : Pinned) : FsSpec sb reserved p (.unlock ip)
    (fun v => v.held ip = some c ∧ v.pinned c.inum = some P ∧ Tidy c P)
    fun v r w => r = true ∧ w = (v.setHeld ip none).setPinned c.inum none := by
  refine .intro fun s g hinv hpre i r t hexec => ?_
  obtain ⟨hheld, hpinned, htidy⟩ := hpre
  obtain ⟨hbusy, rfl⟩ := heldBy_eq_some hheld
  obtain ⟨hpin, hdinode, hblocks⟩ := pinnedBy_eq_some hpinned
  have href := hinv.ref_pos hbusy
  have hcopy : (s.icache ip).copy = s.dinode (s.icache ip).inum := by rw [hdinode, htidy.dinode]
  simp only [exec, hbusy, reduceCtorEq, Nat.ne_of_gt href, or_self, if_false] at hexec
  cases hexec
  refine ⟨g.setPin (s.icache ip).inum none, hinv.setInode ⟨rfl, fun _ _ _ => rfl, hinv.ref ip,
    fun _ => hinv.unique_other href, nofun, ?_, ?_, ?_⟩, fun q hq => ?_, rfl, ?_⟩
  · intro i q hq
    by_cases hi : i = (s.icache ip).inum
    · rw [hi, setPin_self] at hq
      cases hq
    · rw [setPin_of_ne hi] at hq
      obtain ⟨htype, ⟨-, hinum⟩ | hother⟩ := hinv.pinned_slot ip hq
      · exact absurd hinum.symm hi
      · exact ⟨htype, .inr hother⟩
  · intro i hi _
    by_cases hinum : i = (s.icache ip).inum
    · rw [hinum, hdinode, hblocks]
      exact .inr htidy.settled
    · exact .inl (setPin_of_ne hinum ▸ hi)
  · exact fun _ _ _ => ⟨hcopy, htidy.dinode ▸ htidy.settled.type_ne⟩
  · refine view_setInode_other rfl rfl ?_ (setPin_other nofun ?_)
    · rw [heldBy_of_ne (by simp [hbusy, hq.symm])]
      exact if_neg nofun
    · simp [hpin, hq.symm]
  · rw [view_setInode, pinnedBy_unpin, if_neg nofun]
    rfl

/-- A reference of the process is dropped. -/
theorem spec_put (ip : Slot) : FsSpec sb reserved p (.put ip)
    (fun v => 0 < v.refs ip ∧ (v.held ip ≠ none → 1 < v.refs ip))
    fun v r w => (r = .dropped ∧ w = v.setRefs ip (v.refs ip - 1)) ∨
      (r = .last ∧ v.held ip = none ∧ ∃ c P, v.pinned c.inum = none ∧ Tidy c P ∧ w = v.lock ip c P) := by
  refine .intro fun s g hinv hpre i r t hexec => ?_
  obtain ⟨hrefs, hheld⟩ := hpre
  have hrefs : 0 < g.refs p ip := hrefs
  have hheld : heldBy p s ip ≠ none → 1 < g.refs p ip := hheld
  have hle := hinv.refs_le p ip
  simp only [exec] at hexec
  split at hexec
  · rename_i hlast
    obtain ⟨hone, hvalid, -⟩ := hlast
    -- the only reference is that of the process, which therefore has not locked the inode
    have hbusy : (s.icache ip).busy = none := by
      cases hbusy : (s.icache ip).busy with
      | none => rfl
      | some q =>
        have hq := hinv.backed ip q hbusy
        by_cases hqp : q = p
        · have := hheld (by simp [heldBy, hbusy, hqp])
          omega
        · have := hinv.refs_add_le (Ne.symm hqp) ip
          omega
    rw [if_pos hbusy] at hexec
    cases hexec
    obtain ⟨hinv', hothers, hnone, hpinned, P, htidy, hself⟩ := hinv.lock hrefs hbusy hvalid
    exact ⟨_, hinv', hothers, .inr ⟨rfl, hnone, _, P, hpinned, htidy, hself⟩⟩
  · cases hexec
    have hsum := @sum_setRefs n g p ip (g.refs p ip - 1)
    have hold := hinv.ref ip
    refine ⟨g.setRefs p ip (g.refs p ip - 1), hinv.setInode ⟨rfl, fun q jp hj => setRefs_of_ne hj, ?_,
      fun _ => hinv.unique_other (by omega), ?_, fun i q => hinv.pinned_slot ip,
      fun i hi _ => .inl hi, fun _ => hinv.coherent ip (by omega)⟩, fun q hq => ?_, .inl ⟨rfl, ?_⟩⟩
    · dsimp only
      omega
    · intro q hq
      have hq : (s.icache ip).busy = some q := hq
      by_cases hqp : q = p
      · have := hheld (by simp [heldBy, hq, hqp])
        rw [hqp, setRefs_self]
        omega
      · rw [setRefs_other hqp]
        exact hinv.backed ip q hq
    · exact view_setInode_other rfl (setRefs_other hq) rfl fun _ => Iff.rfl
    · have hsame : (if (s.icache ip).busy = some p then some (s.icache ip).toCached else none) =
          heldBy p s ip := rfl
      rw [view_setInode]
      dsimp only
      rw [hsame, update_eq_self]
      simp only [Ghost.setRefs, update_self]
      rfl

theorem spec_putLast (ip : Slot) (c : Cached) : FsSpec sb reserved p (.putLast ip)
    (fun v => v.held ip = some c ∧ v.pinned c.inum = none)
    fun v _ w => w = (v.setHeld ip none).setRefs ip (v.refs ip - 1) := by
  refine .intro fun s g hinv hpre i r t hexec => ?_
  obtain ⟨hheld, hpinned⟩ := hpre
  obtain ⟨hbusy, rfl⟩ := heldBy_eq_some hheld
  have hrefs := hinv.backed ip p hbusy
  have hle := hinv.refs_le p ip
  have hsum := @sum_setRefs n g p ip (g.refs p ip - 1)
  have hold := hinv.ref ip
  cases hexec
  refine ⟨g.setRefs p ip (g.refs p ip - 1), hinv.setInode ⟨rfl, fun q jp hj => setRefs_of_ne hj, ?_,
    fun _ => hinv.unique_other (by omega), (by simp), ?_, fun i hi _ => .inl hi, (by simp)⟩,
    fun q hq => ?_, ?_⟩
  · dsimp only
    omega
  · intro i q hpin
    obtain ⟨htype, ⟨hq, rfl⟩ | hother⟩ := hinv.pinned_slot ip hpin
    · rw [hbusy] at hq
      cases hq
      have hpin : g.pin (s.icache ip).inum = some p := hpin
      simp [view, pinnedBy, hpin] at hpinned
    · exact ⟨htype, .inr hother⟩
  · refine view_setInode_other rfl (setRefs_other hq) ?_ fun _ => Iff.rfl
    rw [heldBy_of_ne (by simp [hbusy, hq.symm])]
    exact if_neg (by simp)
  · rw [view_setInode, if_neg (by simp)]
    simp only [Ghost.setRefs, update_self]
    rfl

/-- The process that has locked a cached inode changes it. -/
theorem spec_setInode {s : State n} {g : Ghost n} {ip : Slot} {c : Cached} (hinv : Inv reserved s g)
    (hheld : (view p s g).held ip = some c) (f : Cached → Cached)
    (hinum : (f c).inum = c.inum) :
    Inv reserved (s.setInode ip fun i => { i with toCached := f i.toCached }) g ∧
      (∀ q, q ≠ p →
        view q (s.setInode ip fun i => { i with toCached := f i.toCached }) g = view q s g) ∧
      view p (s.setInode ip fun i => { i with toCached := f i.toCached }) g =
        (view p s g).setHeld ip (some (f c)) := by
  obtain ⟨hbusy, rfl⟩ := heldBy_eq_some hheld
  have href := hinv.ref_pos hbusy
  refine ⟨hinv.setInode ⟨rfl, fun _ _ _ => rfl, hinv.ref ip, ?_, hinv.backed ip, ?_,
    fun i hi _ => .inl hi, ?_⟩, fun q hq => ?_, ?_⟩
  · intro _ jp hj hjref
    dsimp only
    rw [hinum]
    exact hinv.unique_other href jp hj hjref
  · intro i q hpin
    dsimp only
    rw [hinum]
    exact hinv.pinned_slot ip hpin
  · intro _ hnone
    rw [show (s.icache ip).busy = none from hnone] at hbusy
    cases hbusy
  · have hne : (s.icache ip).busy ≠ some q := by simp [hbusy, hq.symm]
    refine view_setInode_other rfl rfl ?_ fun _ => Iff.rfl
    rw [heldBy_of_ne hne]
    exact if_neg hne
  · rw [view_setInode]
    dsimp only
    rw [if_pos hbusy]
    rfl

theorem spec_store (ip : Slot) (d : Dinode) (c : Cached) : FsSpec sb reserved p (.store ip d)
    (fun v => v.held ip = some c) fun v _ w => w = v.setHeld ip (some { c with copy := d }) := by
  refine .intro fun s g hinv hheld i r t hexec => ?_
  cases hexec
  exact ⟨g, spec_setInode hinv hheld (fun c => { c with copy := d }) rfl⟩

theorem spec_setValid (ip : Slot) (c : Cached) : FsSpec sb reserved p (.setValid ip)
    (fun v => v.held ip = some c) fun v _ w => w = v.setHeld ip (some { c with valid := true }) := by
  refine .intro fun s g hinv hheld i r t hexec => ?_
  cases hexec
  exact ⟨g, spec_setInode hinv hheld (fun c => { c with valid := true }) rfl⟩

/-! Operations on the inodes on disk. -/

/-- Reading a locked inode from disk, unless it is free there, pins it. -/
theorem spec_readDinode (ip : Slot) (c : Cached) : FsSpec sb reserved p (.readDinode c.inum)
    (fun v => v.held ip = some c ∧ v.pinned c.inum = none)
    fun v r w => (r.type = .free ∧ w = v) ∨
      ∃ P, P.dinode = r ∧ Settled P.dinode P.blocks ∧ w = v.setPinned c.inum (some P) := by
  refine .intro fun s g hinv hpre i r t hexec => ?_
  obtain ⟨hheld, hpinned⟩ := hpre
  obtain ⟨hbusy, rfl⟩ := heldBy_eq_some hheld
  have href := hinv.ref_pos hbusy
  cases hexec
  by_cases htype : (s.dinode (s.icache ip).inum).type = .free
  · exact ⟨g, hinv, fun q _ => rfl, .inl ⟨htype, rfl⟩⟩
  · have hpin : g.pin (s.icache ip).inum = none := by
      cases hpin : g.pin (s.icache ip).inum with
      | none => rfl
      | some q =>
        have hq := hinv.pin_busy href hpin
        rw [hbusy] at hq
        cases hq
        simp [view, pinnedBy, hpin] at hpinned
    refine ⟨g.setPin (s.icache ip).inum (some p), { hinv with pinned := ?_, settled := ?_ },
      fun q hq => ?_, .inr ⟨⟨_, blocksOf s g (s.icache ip).inum⟩, rfl, hinv.settled _ hpin htype, ?_⟩⟩
    · intro i q hq
      by_cases hi : i = (s.icache ip).inum
      · rw [hi, setPin_self] at hq
        cases hq
        exact ⟨hi ▸ htype, ip, hbusy, hi.symm⟩
      · rw [setPin_of_ne hi] at hq
        exact hinv.pinned i q hq
    · intro i hi
      by_cases hinum : i = (s.icache ip).inum
      · rw [hinum, setPin_self] at hi
        cases hi
      · rw [setPin_of_ne hinum] at hi
        exact hinv.settled i hi
    · exact view_setPin_other (fun h => hq (Option.some.inj h).symm) (by simp [hpin])
    · rw [view, pinnedBy_setPin]
      rfl

/-- The state with one inode on disk changed. -/
theorem view_setDinode {s : State n} {g : Ghost n} {q : Fin n} {i : Nat} {d : Dinode}
    (hpin : g.pin i ≠ some q) :
    view q { s with dinode := update s.dinode i d } g = view q s g := by
  have hpinned : pinnedBy q { s with dinode := update s.dinode i d } g = pinnedBy q s g := by
    funext j
    by_cases hj : j = i
    · rw [hj, pinnedBy, pinnedBy, if_neg hpin, if_neg hpin]
    · simp only [pinnedBy, update_of_ne hj]
      rfl
  rw [view, hpinned]
  rfl

/-- Changing an inode on disk that no unlocked cached inode copies. -/
theorem Inv.setDinode {s : State n} {g h : Ghost n} {i : Nat} {d : Dinode} (hinv : Inv reserved s g)
    (howner : h.owner = g.owner) (hrefs : h.refs = g.refs) (hpin : ∀ j, j ≠ i → h.pin j = g.pin j)
    (hcached : ∀ ip, 0 < (s.icache ip).ref → (s.icache ip).busy = none →
      (s.icache ip).valid = true → (s.icache ip).inum ≠ i)
    (hpinned : ∀ q, h.pin i = some q → g.pin i = some q ∧ d.type ≠ .free)
    (hunowned : d.type = .free → ∀ b, g.owner b ≠ .inode i)
    (hsettled : h.pin i = none → d.type ≠ .free → Settled d (blocksOf s g i)) :
    Inv reserved { s with dinode := update s.dinode i d } h := by
  have hblocks : ∀ j, blocksOf { s with dinode := update s.dinode i d } h j = blocksOf s g j :=
    fun j => congrFun (blocksOf_congr howner rfl) j
  refine ⟨howner ▸ hinv.used, howner ▸ hinv.reserved, howner ▸ hinv.clean, hrefs ▸ hinv.ref,
    hinv.unique, hrefs ▸ hinv.backed, ?_, ?_, ?_, ?_⟩
  · intro j q hq
    by_cases hj : j = i
    · subst hj
      obtain ⟨hg, hd⟩ := hpinned q hq
      simp only [update_self]
      exact ⟨hd, (hinv.pinned j q hg).2⟩
    · simp only [update_of_ne hj]
      exact hinv.pinned j q (hpin j hj ▸ hq)
  · intro j b htype
    rw [howner]
    by_cases hj : j = i
    · subst hj
      simp only [update_self] at htype
      exact hunowned htype b
    · simp only [update_of_ne hj] at htype
      exact hinv.unowned j b htype
  · grind [hinv.settled]
  · grind [hinv.coherent]

theorem Inv.inum_ne {s : State n} {g : Ghost n} {i : Nat} (hinv : Inv reserved s g)
    (hpin : g.pin i = some p) (ip : Slot) (href : 0 < (s.icache ip).ref)
    (hbusy : (s.icache ip).busy = none) : (s.icache ip).inum ≠ i := by
  rintro rfl
  rw [hinv.unpinned href hbusy] at hpin
  cases hpin

theorem spec_writeDinode (i : Nat) (d : Dinode) (P : Pinned) (hd : d.type ≠ .free) :
    FsSpec sb reserved p (.writeDinode i d) (fun v => v.pinned i = some P)
    fun v _ w => w = v.setPinned i (some { P with dinode := d }) := by
  refine .intro fun s g hinv hpre _ r t hexec => ?_
  obtain ⟨hpin, -, hblocks⟩ := pinnedBy_eq_some hpre
  cases hexec
  refine ⟨g, hinv.setDinode rfl rfl (fun _ _ => rfl) (fun ip href hbusy _ =>
    hinv.inum_ne hpin ip href hbusy) (fun q hq => ⟨hq, hd⟩) (fun h => absurd h hd) ?_,
    fun q hq => view_setDinode (by simp [hpin, hq.symm]), ?_⟩
  · intro hnone
    rw [hpin] at hnone
    cases hnone
  · have hpinned : pinnedBy p { s with dinode := update s.dinode i d } g =
        update (pinnedBy p s g) i (some { P with dinode := d }) := by
      funext j
      by_cases hj : j = i
      · subst hj
        rw [pinnedBy, if_pos hpin, update_self, ← hblocks]
        simp only [update_self]
        rfl
      · rw [update_of_ne hj]
        simp only [pinnedBy, update_of_ne hj]
        rfl
    rw [view, hpinned]
    rfl

/-- An inode without blocks is freed on disk, and pinned no more. -/
theorem spec_freeDinode (i : Nat) (d : Dinode) (P : Pinned) (hd : d.type = .free)
    (hP : ∀ b, P.blocks b = none) :
    FsSpec sb reserved p (.writeDinode i d) (fun v => v.pinned i = some P)
    fun v _ w => w = v.setPinned i none := by
  refine .intro fun s g hinv hpre _ r t hexec => ?_
  obtain ⟨hpin, -, hblocks⟩ := pinnedBy_eq_some hpre
  cases hexec
  refine ⟨g.setPin i none, hinv.setDinode rfl rfl (fun j hj => setPin_of_ne hj)
    (fun ip href hbusy _ => hinv.inum_ne hpin ip href hbusy) ?_ ?_ (fun _ h => absurd hd h),
    fun q hq => ?_, ?_⟩
  · intro q hq
    rw [setPin_self] at hq
    cases hq
  · intro _ b hb
    have hnone := hP b
    rw [← hblocks, blocksOf, if_pos hb] at hnone
    cases hnone
  · rw [view_setDinode (by rw [setPin_self]; simp)]
    exact view_setPin_other (by simp) (by simp [hpin, hq.symm])
  · rw [view_setDinode (by rw [setPin_self]; simp), view, pinnedBy_unpin]
    rfl

theorem settled_new (type : FileType) (htype : type ≠ .free) (blocks : Nat → Option Block)
    (hblocks : ∀ b, blocks b = none) : Settled { type := type } blocks := by
  have hentry : ∀ k, Dinode.entry { type := type } (contents blocks) k = 0 := by
    intro k
    simp [Dinode.entry]
  refine ⟨htype, ⟨fun k l _ _ hne _ => absurd (hentry k) hne, fun b => ?_⟩, fun bn hbn => ?_⟩
  · simp only [hblocks, hentry, ne_eq, not_true_eq_false, false_iff, not_and, not_exists]
    exact fun hb k _ h => hb h.symm
  · exact absurd hbn (Nat.not_lt_zero _)

theorem spec_allocDinode (i : Nat) (type : FileType) (htype : type ≠ .free) :
    FsSpec sb reserved p (.allocDinode i type) (fun _ => True) fun v _ w => w = v := by
  refine .intro fun s g hinv _ _ r t hexec => ?_
  simp only [exec] at hexec
  split at hexec
  · rename_i hfree
    cases hexec
    have hpin : ∀ q, g.pin i ≠ some q := fun q hq => (hinv.pinned i q hq).1 hfree
    have hblocks : ∀ b, blocksOf s g i b = none := fun b => if_neg (hinv.unowned i b hfree)
    refine ⟨g, hinv.setDinode rfl rfl (fun _ _ => rfl) ?_ (fun q hq => absurd hq (hpin q))
      (fun h => absurd h htype) (fun _ _ => settled_new type htype _ hblocks),
      fun q _ => view_setDinode (hpin q), view_setDinode (hpin p)⟩
    intro ip href hbusy hvalid
    obtain ⟨hcopy, hne⟩ := hinv.coherent ip href hbusy hvalid
    rintro rfl
    exact hne (hcopy ▸ hfree)
  · cases hexec
    exact ⟨g, hinv, fun q _ => rfl, rfl⟩

/-! Operations on blocks. -/

/-- A block that is free or belongs to an inode pinned by the process changes. -/
theorem Inv.setBlock {s : State n} {g : Ghost n} {i b : Nat} (hinv : Inv reserved s g)
    (hpin : g.pin i = some p) (used : Nat → Bool) (block : Nat → Block) (owner : Owner)
    (hold : g.owner b = .free ∨ g.owner b = .inode i) (hnew : owner = .free ∨ owner = .inode i)
    (hused : ∀ c, c ≠ b → used c = s.used c) (hblock : ∀ c, c ≠ b → block c = s.block c)
    (hbit : used b = true ↔ owner ≠ .free) (hclean : owner = .free → block b = Block.zero) :
    Inv reserved { s with used := used, block := block } (g.setOwner b owner) ∧
      (∀ q, q ≠ p → view q { s with used := used, block := block } (g.setOwner b owner) =
        view q s g) ∧
      view p { s with used := used, block := block } (g.setOwner b owner) =
        (view p s g).setPinned i (some ⟨s.dinode i, update (blocksOf s g i) b
          (if owner = .inode i then some (block b) else none)⟩) := by
  have hself : (g.setOwner b owner).owner b = owner := update_self _ _ _
  have hother : ∀ c, c ≠ b → (g.setOwner b owner).owner c = g.owner c :=
    fun c hc => update_of_ne hc _ _
  have hblocks : ∀ j, j ≠ i →
      blocksOf { s with used := used, block := block } (g.setOwner b owner) j = blocksOf s g j := by
    intro j hj
    have hji : Owner.inode i ≠ .inode j := fun h => hj (Owner.inode.inj h).symm
    funext c
    by_cases hc : c = b
    · subst hc
      rw [blocksOf, blocksOf, hself, if_neg, if_neg]
      · rcases hold with h | h <;> simp [h, hji]
      · rcases hnew with h | h <;> simp [h, hji]
    · simp only [blocksOf, hother c hc, hblock c hc]
  have hmine : blocksOf { s with used := used, block := block } (g.setOwner b owner) i =
      update (blocksOf s g i) b (if owner = .inode i then some (block b) else none) := by
    funext c
    by_cases hc : c = b
    · subst hc
      rw [blocksOf, hself, update_self]
    · rw [update_of_ne hc]
      simp only [blocksOf, hother c hc, hblock c hc]
  have htype := (hinv.pinned i p hpin).1
  refine ⟨⟨?_, ?_, ?_, hinv.ref, hinv.unique, hinv.backed, hinv.pinned, ?_, ?_, hinv.coherent⟩, ?_, ?_⟩
  · grind [hinv.used]
  · grind [hinv.reserved]
  · grind [hinv.clean]
  · grind [hinv.unowned]
  · intro j hj hjtype
    have hji : j ≠ i := by
      rintro rfl
      rw [show g.pin j = none from hj] at hpin
      cases hpin
    rw [hblocks j hji]
    exact hinv.settled j hj hjtype
  · intro q hq
    have hpinned : pinnedBy q { s with used := used, block := block } (g.setOwner b owner) =
        pinnedBy q s g := by
      funext j
      by_cases hj : g.pin j = some q
      · have hji : j ≠ i := by
          rintro rfl
          rw [hpin] at hj
          exact hq (Option.some.inj hj).symm
        rw [pinnedBy, pinnedBy, hblocks j hji]
        rfl
      · exact (if_neg hj).trans (if_neg hj).symm
    rw [view, hpinned]
    rfl
  · have hpinned : pinnedBy p { s with used := used, block := block } (g.setOwner b owner) =
        update (pinnedBy p s g) i (some ⟨s.dinode i, update (blocksOf s g i) b
          (if owner = .inode i then some (block b) else none)⟩) := by
      funext j
      by_cases hj : j = i
      · subst hj
        rw [update_self, ← hmine]
        exact if_pos hpin
      · rw [pinnedBy, hblocks j hj, update_of_ne hj]
        rfl
    rw [view, hpinned]
    rfl

theorem firstClear_eq_some {used : Nat → Bool} {k base b : Nat}
    (h : firstClear used k base = some b) : used b = false ∧ base ≤ b ∧ b < base + k := by
  induction k generalizing base with
  | zero => cases h
  | succ k ih =>
    rw [firstClear] at h
    split at h
    · obtain ⟨hb, hle, hlt⟩ := ih h
      exact ⟨hb, by omega, by omega⟩
    · rename_i hclear
      cases h
      exact ⟨by simpa using hclear, by omega, by omega⟩

/-- A new block is given to an inode the process has pinned; it is zero. -/
theorem spec_allocBit (h0 : reserved 0) (base i : Nat) (P : Pinned) :
    FsSpec sb reserved p (.allocBit base) (fun v => v.pinned i = some P)
    fun v r w => (r = none ∧ w = v) ∨ ∃ b, r = some b ∧ b ≠ 0 ∧ b < base + bpb ∧ P.blocks b = none ∧
      w = v.setPinned i (some { P with blocks := update P.blocks b (some Block.zero) }) := by
  refine .intro fun s g hinv hpre _ r t hexec => ?_
  obtain ⟨hpin, hdinode, hblocks⟩ := pinnedBy_eq_some hpre
  simp only [exec] at hexec
  split at hexec
  · rename_i b hb
    cases hexec
    obtain ⟨hclear, -, hlt⟩ := firstClear_eq_some hb
    have hfree : g.owner b = .free := by
      by_contra howner
      rw [(hinv.used b).mpr howner] at hclear
      cases hclear
    have hb0 : b ≠ 0 := by
      rintro rfl
      rw [(hinv.reserved 0).mpr h0] at hfree
      cases hfree
    obtain ⟨hinv', hothers, hself⟩ := hinv.setBlock hpin (update s.used b true) s.block
      (.inode i) (.inl hfree) (.inr rfl) (fun c hc => update_of_ne hc _ _) (fun _ _ => rfl)
      (by simp) nofun
    refine ⟨_, hinv', hothers, .inr ⟨b, rfl, hb0, hlt, ?_, ?_⟩⟩
    · rw [← hblocks, blocksOf, if_neg (by simp [hfree])]
    · rw [hself, if_pos rfl, hdinode, hblocks, hinv.clean b hfree]
  · cases hexec
    exact ⟨g, hinv, fun q _ => rfl, .inl ⟨rfl, rfl⟩⟩

theorem spec_clearBit (b i : Nat) (P : Pinned) (hP : P.blocks b = some Block.zero) :
    FsSpec sb reserved p (.clearBit b) (fun v => v.pinned i = some P)
    fun v r w => r = true ∧
      w = v.setPinned i (some { P with blocks := update P.blocks b none }) := by
  refine .intro fun s g hinv hpre _ r t hexec => ?_
  obtain ⟨hpin, hdinode, hblocks⟩ := pinnedBy_eq_some hpre
  obtain ⟨howner, hzero⟩ := blocksOf_eq_some (hblocks ▸ hP)
  have hused : s.used b = true := (hinv.used b).mpr (by simp [howner])
  simp only [exec, hused, if_true] at hexec
  cases hexec
  obtain ⟨hinv', hothers, hself⟩ := hinv.setBlock hpin (update s.used b false) s.block
    .free (.inr howner) (.inl rfl) (fun c hc => update_of_ne hc _ _) (fun _ _ => rfl)
    (by simp) (fun _ => hzero)
  refine ⟨_, hinv', hothers, rfl, ?_⟩
  rw [hself, if_neg nofun, hdinode, hblocks]

theorem spec_bwrite (b : Nat) (data : Block) (i : Nat) (P : Pinned) (hP : P.blocks b ≠ none) :
    FsSpec sb reserved p (.bwrite b data) (fun v => v.pinned i = some P)
    fun v _ w =>
      w = v.setPinned i (some { P with blocks := update P.blocks b (some data) }) := by
  refine .intro fun s g hinv hpre _ r t hexec => ?_
  obtain ⟨hpin, hdinode, hblocks⟩ := pinnedBy_eq_some hpre
  obtain ⟨old, hold⟩ := Option.ne_none_iff_exists'.mp hP
  obtain ⟨howner, -⟩ := blocksOf_eq_some (hblocks ▸ hold)
  have hused : s.used b = true := (hinv.used b).mpr (by simp [howner])
  cases hexec
  obtain ⟨hinv', hothers, hself⟩ := hinv.setBlock hpin s.used (update s.block b data)
    (.inode i) (.inr howner) (.inr rfl) (fun _ _ => rfl) (fun c hc => update_of_ne hc _ _)
    (by simp [hused]) nofun
  refine ⟨_, hinv', hothers, ?_⟩
  rw [hself, if_pos rfl, hdinode, hblocks, update_self]

end Specs

end Xv6.Fs
