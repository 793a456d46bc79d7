import Xv6.FsSafe

/-! Directories, paths and system calls. A function accounts for the references it takes: `namei` and
the like return one more reference, `iput` gives one back, and a system call leaves the process with
the references of its descriptors and its current directory. -/

namespace Xv6.Fs

open LibProg LibWord Function

variable {n : Nat} {sb : Superblock} {reserved : Nat → Prop} {p : Fin n} {α : Type}
  {post : α → View → Prop} {v u w : View} {ip jp dp : Slot}

def View.addRef (v : View) (ip : Slot) : View := v.setRefs ip (v.refs ip + 1)

/-- A locked inode is one to which the process has a reference. -/
def Backed (v : View) : Prop := ∀ ip, v.held ip ≠ none → 0 < v.refs ip

section References

theorem addRef_self : (v.addRef ip).refs ip = v.refs ip + 1 := by
  simp [View.addRef, View.setRefs]

theorem addRef_of_ne (h : jp ≠ ip) : (v.addRef ip).refs jp = v.refs jp := by
  simp [View.addRef, View.setRefs, update_of_ne h]

theorem addRef_pos : 0 < (v.addRef ip).refs ip := by
  rw [addRef_self]
  omega

theorem refs_le_addRef : v.refs jp ≤ (v.addRef ip).refs jp := by
  by_cases h : jp = ip
  · rw [h, addRef_self]
    omega
  · rw [addRef_of_ne h]

theorem addRef_drop : (v.addRef ip).setRefs ip ((v.addRef ip).refs ip - 1) = v := by
  rw [addRef_self]
  simp [View.addRef, View.setRefs]

theorem addRef_comm : (v.addRef ip).addRef jp = (v.addRef jp).addRef ip := by
  by_cases h : ip = jp
  · rw [h]
  · have hij : (v.addRef ip).refs jp = v.refs jp := addRef_of_ne (Ne.symm h)
    have hji : (v.addRef jp).refs ip = v.refs ip := addRef_of_ne h
    simp only [View.addRef, View.setRefs] at hij hji ⊢
    rw [hij, hji, update_comm h]

theorem Backed.addRef (h : Backed v) (ip : Slot) : Backed (v.addRef ip) := fun jp hjp =>
  Nat.lt_of_lt_of_le (h jp hjp) refs_le_addRef

end References

section Holding

theorem Holding.refs (h : Holding v ip w) : w.refs = v.refs := by
  obtain ⟨-, i, d, blocks, -, -, rfl⟩ := h
  rfl

theorem Holding.backed (h : Holding v ip w) (hv : Backed v) (hrefs : 0 < v.refs ip) : Backed w := by
  obtain ⟨-, i, d, blocks, -, -, rfl⟩ := h
  intro jp hjp
  by_cases hj : jp = ip
  · exact hj ▸ hrefs
  · exact hv jp (locked_held_of_ne hj ▸ hjp)

theorem Holding.addRef (h : Holding v ip w) (jp : Slot) : Holding (v.addRef jp) ip (w.addRef jp) := by
  obtain ⟨hheld, i, d, blocks, hpinned, hsettled, rfl⟩ := h
  exact ⟨hheld, i, d, blocks, hpinned, hsettled, rfl⟩

theorem Holding.of_addRef (h : Holding (v.addRef jp) ip w) :
    ∃ u, Holding v ip u ∧ w = u.addRef jp := by
  obtain ⟨hheld, i, d, blocks, hpinned, hsettled, rfl⟩ := h
  exact ⟨_, ⟨hheld, i, d, blocks, hpinned, hsettled, rfl⟩, rfl⟩

theorem Holding.setOfile (h : Holding v ip w) (fd : Nat) (f : Option File) :
    Holding (v.setOfile fd f) ip (w.setOfile fd f) := by
  obtain ⟨hheld, i, d, blocks, hpinned, hsettled, rfl⟩ := h
  exact ⟨hheld, i, d, blocks, hpinned, hsettled, rfl⟩

/-- The order in which two inodes were locked does not matter. -/
theorem Holding.swap (h₁ : Holding v dp u) (h₂ : Holding u ip w) :
    ∃ u', Holding v ip u' ∧ Holding u' dp w := by
  obtain ⟨hheld, i, d, blocks, hpinned, hsettled, rfl⟩ := h₁
  obtain ⟨hheld₂, j, e, more, hpinned₂, hsettled₂, rfl⟩ := h₂
  have hne : ip ≠ dp := by
    rintro rfl
    rw [locked_held] at hheld₂
    cases hheld₂
  have hij : j ≠ i := by
    rintro rfl
    rw [locked_pinned] at hpinned₂
    cases hpinned₂
  rw [locked_held_of_ne hne] at hheld₂
  rw [locked_pinned_of_ne hij] at hpinned₂
  refine ⟨_, ⟨hheld₂, j, e, more, hpinned₂, hsettled₂, rfl⟩, ?_, i, d, blocks, ?_, hsettled, ?_⟩
  · rw [locked_held_of_ne hne.symm, hheld]
  · rw [locked_pinned_of_ne hij.symm, hpinned]
  · simp only [View.locked, View.lock, View.setPinned, View.setHeld]
    rw [update_comm hne, update_comm hij]

end Holding

/-! References. -/

theorem safe_iget (inum : Nat) :
    FsSafe n sb reserved p (fun ip u => u = w.addRef ip) (iget inum) w := by
  refine Safe.step (spec_iget inum) trivial fun r u hu => ?_
  rcases hu with ⟨rfl, -⟩ | ⟨ip, rfl, rfl⟩
  · exact safe_panic.mpr (by simp [logic])
  · exact safe_pure.mpr rfl

theorem safe_iallocFrom {type : FileType} (htype : type ≠ .free) (k inum : Nat) :
    FsSafe n sb reserved p (fun ip u => u = w.addRef ip) (iallocFrom type k inum) w := by
  induction k generalizing inum with
  | zero => exact safe_panic.mpr (by simp [logic])
  | succ k ih =>
    refine Safe.step (spec_allocDinode inum type htype) trivial fun r u hu => ?_
    subst hu
    cases r with
    | true => exact safe_iget inum
    | false => exact ih (inum + 1)

theorem safe_ialloc {type : FileType} (htype : type ≠ .free) :
    FsSafe n sb reserved p (fun ip u => u = w.addRef ip) (ialloc sb type) w :=
  safe_iallocFrom htype _ 1

theorem safe_iput_addRef (hv : Backed v) :
    FsSafe n sb reserved p (fun _ u => u = v) (iput ip) (v.addRef ip) := by
  refine (safe_iput addRef_pos fun hheld => ?_).mono fun _ u hu => hu.trans addRef_drop
  rw [addRef_self]
  exact Nat.succ_lt_succ (hv ip hheld)

theorem safe_iunlockput (h : Holding (v.addRef ip) ip w) :
    FsSafe n sb reserved p (fun _ u => u = v) (iunlockput ip) w := by
  refine (safe_iunlock h).seq ?_
  rintro _ u rfl
  exact (safe_iput addRef_pos fun hheld => absurd h.1 hheld).mono fun _ u hu => hu.trans addRef_drop

/-- The metadata of a locked inode are changed. -/
theorem safe_addLinks (h : Holding v ip w) (delta : Int) :
    FsSafe n sb reserved p (fun _ => Holding v ip) (addLinks ip delta) w := by
  obtain ⟨hheld, i, d, blocks, hpinned, hsettled, rfl⟩ := h
  refine safe_load locked_held (safe_store ?_)
  refine (safe_iupdate (d := { d with nlink := toShort (d.nlink + delta) }) hsettled.type_ne).mono ?_
  rintro _ u rfl
  exact ⟨hheld, i, { d with nlink := toShort (d.nlink + delta) }, blocks, hpinned,
    ⟨hsettled.type_ne, hsettled.owns, hsettled.cover⟩, rfl⟩

/-! Directories. -/

theorem safe_lookupLoop (h0 : reserved 0) {i : Nat} {d : Dinode} {blocks : Nat → Option Block}
    (hd : Settled d blocks) (name : Name) (k off : Nat) (hoff : bsize ∣ off) :
    FsSafe n sb reserved p (fun r u => (r = none ∧ u = v.locked dp i d ⟨d, blocks⟩) ∨
      ∃ ip o, r = some (ip, o) ∧ u = (v.locked dp i d ⟨d, blocks⟩).addRef ip)
      (lookupLoop sb dp name d.size k off) (v.locked dp i d ⟨d, blocks⟩) := by
  induction k generalizing off with
  | zero => exact safe_pure.mpr (.inl ⟨rfl, rfl⟩)
  | succ k ih =>
    unfold lookupLoop
    split
    · rename_i hlt
      have hcovered : off / bsize * bsize < d.size := by rwa [Nat.div_mul_cancel hoff]
      refine (safe_bmap_covered h0 hd hcovered).seq ?_
      rintro addr u ⟨rfl, hne, hmax, rfl⟩
      obtain ⟨data, hdata⟩ := hd.owns.isSome (place_lt hmax) hne
      refine safe_bread locked_pinned hdata ?_
      split
      · rename_i o _
        refine (safe_iget _).seq ?_
        rintro ip u rfl
        exact safe_pure.mpr (.inr ⟨ip, _, rfl, rfl⟩)
      · exact ih (off + bsize) (Nat.dvd_add hoff (Nat.dvd_refl _))
    · exact safe_pure.mpr (.inl ⟨rfl, rfl⟩)

theorem safe_dirlookup (h0 : reserved 0) (h : Holding v dp w) (name : Name) :
    FsSafe n sb reserved p (fun r u => (r = none ∧ u = w) ∨
      ∃ ip o, r = some (ip, o) ∧ u = w.addRef ip) (dirlookup sb dp name) w := by
  obtain ⟨-, i, d, blocks, -, hsettled, rfl⟩ := h
  refine safe_load locked_held ?_
  dsimp only
  split
  · exact safe_lookupLoop h0 hsettled name _ 0 (Nat.dvd_zero _)
  · exact safe_panic.mpr (by simp [logic])

theorem safe_emptyEntry (h0 : reserved 0) (hrefs : 0 < v.refs dp) (k off : Nat) (h : Holding v dp w) :
    FsSafe n sb reserved p (fun _ => Holding v dp) (emptyEntry sb dp k off) w := by
  induction k generalizing off w with
  | zero => exact safe_pure.mpr h
  | succ k ih =>
    refine safe_load_any fun c => ?_
    split
    · refine (safe_readi h0 h hrefs off direntSize).seq fun r u hu => ?_
      cases r with
      | none => exact safe_panic.mpr (by simp [logic])
      | some bytes =>
        dsimp only
        split
        · exact safe_panic.mpr (by simp [logic])
        · split
          · exact safe_pure.mpr hu
          · exact ih (off + direntSize) hu
    · exact safe_pure.mpr h

theorem safe_dirlink (h0 : reserved 0) (hv : Backed v) (hrefs : 0 < v.refs dp) (h : Holding v dp w)
    (name : Name) (inum : Nat) :
    FsSafe n sb reserved p (fun _ => Holding v dp) (dirlink sb dp name inum) w := by
  refine (safe_dirlookup h0 h name).seq fun r u hu => ?_
  rcases hu with ⟨rfl, rfl⟩ | ⟨ip, o, rfl, rfl⟩
  · refine safe_load_any fun c => ?_
    refine (safe_emptyEntry h0 hrefs _ 0 h).seq fun off u hu => ?_
    refine (safe_writei h0 hu hrefs _ off direntSize).seq fun r u hu => ?_
    split
    · exact safe_pure.mpr hu
    · exact safe_panic.mpr (by simp [logic])
  · exact (safe_iput_addRef (h.backed hv hrefs)).seq fun _ _ hu => hu ▸ h

theorem safe_emptyFrom (h0 : reserved 0) (hrefs : 0 < v.refs dp) (k off : Nat) (h : Holding v dp w) :
    FsSafe n sb reserved p (fun _ => Holding v dp) (emptyFrom sb dp k off) w := by
  induction k generalizing off w with
  | zero => exact safe_pure.mpr h
  | succ k ih =>
    refine safe_load_any fun c => ?_
    split
    · refine (safe_readi h0 h hrefs off direntSize).seq fun r u hu => ?_
      cases r with
      | none => exact safe_panic.mpr (by simp [logic])
      | some bytes =>
        dsimp only
        split
        · exact safe_panic.mpr (by simp [logic])
        · split
          · exact safe_pure.mpr hu
          · exact ih (off + direntSize) hu
    · exact safe_pure.mpr h

theorem safe_isdirempty (h0 : reserved 0) (hrefs : 0 < v.refs dp) (h : Holding v dp w) :
    FsSafe n sb reserved p (fun _ => Holding v dp) (isdirempty sb dp) w :=
  safe_load_any fun _ => safe_emptyFrom h0 hrefs _ _ h

/-! Paths. -/

/-- What a lookup leaves: no reference, or one to the inode found. -/
def Found (v : View) (r : Option (Slot × α)) (u : View) : Prop :=
  (r = none ∧ u = v) ∨ ∃ ip a, r = some (ip, a) ∧ u = v.addRef ip

theorem safe_walk (h0 : reserved 0) (hv : Backed v) (parent : Bool) (ip : Slot) (names : List Name) :
    FsSafe n sb reserved p (Found v) (walk sb parent ip names) (v.addRef ip) := by
  induction names generalizing ip with
  | nil =>
    unfold walk
    split
    · exact (safe_iput_addRef hv).seq fun _ _ hu => .inl ⟨rfl, hu⟩
    · exact safe_pure.mpr (.inr ⟨ip, [], rfl, rfl⟩)
  | cons name rest ih =>
    refine (safe_ilock addRef_pos).seq fun _ w hw => ?_
    refine safe_load_any fun c => ?_
    have hnone : FsSafe n sb reserved p (Found (α := Name) v) (do iunlockput ip; pure none) w := by
      exact (safe_iunlockput hw).seq fun _ _ hu => .inl ⟨rfl, hu⟩
    split
    · exact hnone
    · split
      · refine (safe_iunlock hw).seq ?_
        rintro _ u rfl
        exact safe_pure.mpr (.inr ⟨ip, name, rfl, rfl⟩)
      · refine (safe_dirlookup h0 hw name).seq fun r u hu => ?_
        rcases hu with ⟨rfl, rfl⟩ | ⟨next, o, rfl, rfl⟩
        · exact hnone
        · have hnext := hw.addRef next
          rw [addRef_comm] at hnext
          refine (safe_iunlockput hnext).seq ?_
          rintro _ u rfl
          exact ih next

theorem safe_walkStart (path : Path) (hcwd : 0 < v.refs v.cwd) :
    FsSafe n sb reserved p (fun ip u => u = v.addRef ip) (walkStart path) v := by
  unfold walkStart
  split
  · exact safe_iget _
  · refine Safe.step spec_getCwd trivial fun cwd u hu => ?_
    obtain ⟨rfl, rfl⟩ := hu
    refine Safe.step (spec_idup _) hcwd fun _ u hu => ?_
    exact safe_pure.mpr hu

theorem safe_namex (h0 : reserved 0) (hv : Backed v) (hcwd : 0 < v.refs v.cwd) (path : Path)
    (parent : Bool) : FsSafe n sb reserved p (Found v) (namex sb path parent) v := by
  refine (safe_walkStart path hcwd).seq ?_
  rintro ip u rfl
  exact safe_walk h0 hv parent ip _

theorem safe_namei (h0 : reserved 0) (hv : Backed v) (hcwd : 0 < v.refs v.cwd) (path : Path) :
    FsSafe n sb reserved p (fun r u => (r = none ∧ u = v) ∨ ∃ ip, r = some ip ∧ u = v.addRef ip)
      (namei sb path) v := by
  refine (safe_namex h0 hv hcwd path false).seq fun r u hu => ?_
  rcases hu with ⟨rfl, rfl⟩ | ⟨ip, name, rfl, rfl⟩
  · exact safe_pure.mpr (.inl ⟨rfl, rfl⟩)
  · exact safe_pure.mpr (.inr ⟨ip, rfl, rfl⟩)

/-! Two locked inodes: a directory and an entry of it. -/

/-- The process has locked two more inodes. -/
def Both (v : View) (dp ip : Slot) (w : View) : Prop := ∃ u, Holding v dp u ∧ Holding u ip w

theorem Both.symm (h : Both v dp ip w) : Both v ip dp w := by
  obtain ⟨u, hdp, hip⟩ := h
  exact hdp.swap hip

/-- A function that keeps an inode locked and settled may be used while another one is locked. -/
theorem Both.second {f : Code α} (h : Both v dp ip w) (hv : Backed v) (hdp : 0 < v.refs dp)
    (hip : 0 < v.refs ip)
    (hf : ∀ u, Backed u → 0 < u.refs ip → ∀ w, Holding u ip w →
      FsSafe n sb reserved p (fun _ => Holding u ip) f w) :
    FsSafe n sb reserved p (fun _ => Both v dp ip) f w := by
  obtain ⟨u, hu, hw⟩ := h
  have hrefs : 0 < u.refs ip := by rwa [hu.refs]
  exact (hf u (hu.backed hv hdp) hrefs w hw).mono fun _ w' hw' => ⟨u, hu, hw'⟩

theorem Both.first {f : Code α} (h : Both v dp ip w) (hv : Backed v) (hdp : 0 < v.refs dp)
    (hip : 0 < v.refs ip)
    (hf : ∀ u, Backed u → 0 < u.refs dp → ∀ w, Holding u dp w →
      FsSafe n sb reserved p (fun _ => Holding u dp) f w) :
    FsSafe n sb reserved p (fun _ => Both v dp ip) f w :=
  (h.symm.second hv hip hdp hf).mono fun _ _ hw => hw.symm

theorem safe_iunlockput_first (h : Both ((v.addRef dp).addRef ip) dp ip w) :
    FsSafe n sb reserved p (fun _ => Holding (v.addRef ip) ip) (iunlockput dp) w := by
  obtain ⟨u, hu, hw⟩ := h.symm
  rw [addRef_comm] at hu
  obtain ⟨x, hx, rfl⟩ := hu.of_addRef
  refine (safe_iunlockput hw).mono ?_
  rintro _ w rfl
  exact hx

theorem safe_linkDots (h0 : reserved 0) (hv : Backed v) (hdp : 0 < v.refs dp) (hip : 0 < v.refs ip)
    (h : Both v dp ip w) (type : FileType) :
    FsSafe n sb reserved p (fun _ => Both v dp ip) (linkDots sb dp ip type) w := by
  unfold linkDots
  split
  · refine (h.first hv hdp hip fun u _ _ w hw => safe_addLinks hw 1).seq fun _ w hw => ?_
    refine safe_load_any fun c => ?_
    refine (hw.second hv hdp hip fun u hu hrefs w hw => safe_dirlink h0 hu hrefs hw _ _).seq ?_
    intro r w hw
    split
    · refine safe_load_any fun c => ?_
      refine (hw.second hv hdp hip fun u hu hrefs w hw => safe_dirlink h0 hu hrefs hw _ _).seq ?_
      intro r w hw
      split
      · exact safe_pure.mpr hw
      · exact safe_panic.mpr (by simp [logic])
    · exact safe_panic.mpr (by simp [logic])
  · exact safe_pure.mpr h

theorem safe_createNew (h0 : reserved 0) (hv : Backed v) (h : Holding (v.addRef dp) dp w) (name : Name)
    (type : FileType) (htype : type ≠ .free) (major minor : Int) :
    FsSafe n sb reserved p (fun ip => Holding (v.addRef ip) ip)
      (createNew sb dp name type major minor) w := by
  refine (safe_ialloc htype).seq ?_
  rintro ip u rfl
  have hbacked := (hv.addRef dp).addRef ip
  have hdp : 0 < ((v.addRef dp).addRef ip).refs dp := Nat.lt_of_lt_of_le addRef_pos refs_le_addRef
  refine (safe_ilock addRef_pos).seq fun _ w₁ hw₁ => ?_
  obtain ⟨hheld, i, d, blocks, hpinned, hsettled, rfl⟩ := hw₁
  refine safe_load locked_held (safe_store ?_)
  refine (safe_iupdate (d := { d with major := major, minor := minor, nlink := 1 })
    hsettled.type_ne).seq ?_
  rintro _ u rfl
  have hboth : Both ((v.addRef dp).addRef ip) dp ip ((w.addRef ip).locked ip i
      { d with major := major, minor := minor, nlink := 1 }
      ⟨{ d with major := major, minor := minor, nlink := 1 }, blocks⟩) :=
    ⟨w.addRef ip, h.addRef ip, hheld, i, { d with major := major, minor := minor, nlink := 1 }, blocks,
      hpinned, ⟨hsettled.type_ne, hsettled.owns, hsettled.cover⟩, rfl⟩
  refine (safe_linkDots h0 hbacked hdp addRef_pos hboth type).seq fun _ w hw => ?_
  refine safe_load_any fun c => ?_
  refine (hw.first hbacked hdp addRef_pos fun u hu hrefs w hw =>
    safe_dirlink h0 hu hrefs hw _ _).seq fun r w hw => ?_
  split
  · exact (safe_iunlockput_first hw).seq fun _ w hw => safe_pure.mpr hw
  · exact safe_panic.mpr (by simp [logic])

/-- What `create` and the first half of `open` leave: nothing, or a locked inode. -/
def Opened (v : View) (r : Option Slot) (u : View) : Prop :=
  (r = none ∧ u = v) ∨ ∃ ip, r = some ip ∧ Holding (v.addRef ip) ip u

theorem safe_create (h0 : reserved 0) (hv : Backed v) (hcwd : 0 < v.refs v.cwd) (path : Path)
    (type : FileType) (htype : type ≠ .free) (major minor : Int) :
    FsSafe n sb reserved p (Opened v) (create sb path type major minor) v := by
  refine (safe_namex h0 hv hcwd path true).seq fun r u hu => ?_
  rcases hu with ⟨rfl, rfl⟩ | ⟨dp, name, rfl, rfl⟩
  · exact safe_pure.mpr (.inl ⟨rfl, rfl⟩)
  · refine (safe_ilock addRef_pos).seq fun _ w hw => ?_
    refine (safe_dirlookup h0 hw name).seq fun r u hu => ?_
    rcases hu with ⟨rfl, rfl⟩ | ⟨ip, o, rfl, rfl⟩
    · refine (safe_createNew h0 hv hw name type htype major minor).seq fun ip w hw => ?_
      exact safe_pure.mpr (.inr ⟨ip, rfl, hw⟩)
    · have hnext := hw.addRef ip
      rw [addRef_comm] at hnext
      refine (safe_iunlockput hnext).seq ?_
      rintro _ u rfl
      refine (safe_ilock addRef_pos).seq fun _ w hw => ?_
      refine safe_load_any fun c => ?_
      split
      · exact safe_pure.mpr (.inr ⟨ip, rfl, hw⟩)
      · exact (safe_iunlockput hw).seq fun _ _ hu => .inl ⟨rfl, hu⟩

theorem safe_erase (h0 : reserved 0) (hv : Backed v) (off : Nat)
    (h : Both ((v.addRef dp).addRef ip) dp ip w) :
    FsSafe n sb reserved p (fun _ u => u = v) (erase sb dp ip off) w := by
  have hbacked := (hv.addRef dp).addRef ip
  have hdp : 0 < ((v.addRef dp).addRef ip).refs dp := Nat.lt_of_lt_of_le addRef_pos refs_le_addRef
  refine (h.first hbacked hdp addRef_pos fun u _ hrefs w hw =>
    safe_writei h0 hw hrefs _ _ _).seq fun r w hw => ?_
  split
  · refine safe_load_any fun c => ?_
    have hlinks : FsSafe n sb reserved p (fun _ => Both ((v.addRef dp).addRef ip) dp ip)
        (dropDots dp c.copy.type) w := by
      unfold dropDots
      split
      · exact hw.first hbacked hdp addRef_pos fun u _ _ w hw => safe_addLinks hw (-1)
      · exact safe_pure.mpr hw
    refine hlinks.seq fun _ w hw => ?_
    refine (safe_iunlockput_first hw).seq fun _ w hw => ?_
    refine (safe_addLinks hw (-1)).seq fun _ w hw => ?_
    exact (safe_iunlockput hw).seq fun _ _ hu => hu
  · exact safe_panic.mpr (by simp [logic])

theorem safe_sysUnlink (h0 : reserved 0) (hv : Backed v) (hcwd : 0 < v.refs v.cwd) (path : Path) :
    FsSafe n sb reserved p (fun _ u => u = v) (sysUnlink sb path) v := by
  refine (safe_namex h0 hv hcwd path true).seq fun r u hu => ?_
  rcases hu with ⟨rfl, rfl⟩ | ⟨dp, name, rfl, rfl⟩
  · exact safe_pure.mpr rfl
  · refine (safe_ilock addRef_pos).seq fun _ w hw => ?_
    have hfail : FsSafe n sb reserved p (fun _ u => u = v) (do iunlockput dp; pure (-1 : Int)) w := by
      exact (safe_iunlockput hw).seq fun _ _ hu => hu
    split
    · exact hfail
    · refine (safe_dirlookup h0 hw name).seq fun r u hu => ?_
      rcases hu with ⟨rfl, rfl⟩ | ⟨ip, off, rfl, rfl⟩
      · exact hfail
      · refine (safe_ilock addRef_pos).seq fun _ w₁ hw₁ => ?_
        refine safe_load_any fun c => ?_
        split
        · exact safe_panic.mpr (by simp [logic])
        · have hempty : FsSafe n sb reserved p (fun _ => Holding (w.addRef ip) ip)
              (removable sb ip c.copy.type) w₁ := by
            unfold removable
            split
            · exact safe_isdirempty h0 addRef_pos hw₁
            · exact safe_pure.mpr hw₁
          refine hempty.seq fun r w₂ hw₂ => ?_
          split
          · exact safe_erase h0 hv off ⟨_, hw.addRef ip, hw₂⟩
          · refine (safe_iunlockput hw₂).seq ?_
            rintro _ u rfl
            exact hfail

theorem safe_linkBad : FsSafe n sb reserved p (fun _ u => u = v) (linkBad ip) (v.addRef ip) := by
  refine (safe_ilock addRef_pos).seq fun _ w hw => ?_
  refine (safe_addLinks hw (-1)).seq fun _ w hw => ?_
  exact (safe_iunlockput hw).seq fun _ _ hu => hu

theorem safe_sysLink (h0 : reserved 0) (hv : Backed v) (hcwd : 0 < v.refs v.cwd) (old new : Path) :
    FsSafe n sb reserved p (fun _ u => u = v) (sysLink sb old new) v := by
  refine (safe_namei h0 hv hcwd old).seq fun r u hu => ?_
  rcases hu with ⟨rfl, rfl⟩ | ⟨ip, rfl, rfl⟩
  · exact safe_pure.mpr rfl
  · refine (safe_ilock addRef_pos).seq fun _ w hw => ?_
    refine safe_load_any fun c => ?_
    split
    · exact (safe_iunlockput hw).seq fun _ _ hu => hu
    · refine (safe_addLinks hw 1).seq fun _ w hw => ?_
      refine (safe_iunlock hw).seq ?_
      rintro _ u rfl
      refine (safe_namex h0 (hv.addRef ip) (Nat.lt_of_lt_of_le hcwd refs_le_addRef) new true).seq
        fun r u hu => ?_
      rcases hu with ⟨rfl, rfl⟩ | ⟨dp, name, rfl, rfl⟩
      · exact safe_linkBad
      · refine (safe_ilock addRef_pos).seq fun _ w hw => ?_
        refine safe_load_any fun c => ?_
        refine (safe_dirlink h0 ((hv.addRef ip).addRef dp) addRef_pos hw _ _).seq fun r w hw => ?_
        refine (safe_iunlockput hw).seq ?_
        rintro _ u rfl
        split
        · exact (safe_iput_addRef hv).seq fun _ _ hu => hu
        · exact safe_linkBad

/-! Descriptors and the current directory. -/

/-- Whether an open file refers to an inode, as a number. -/
def fileRef (f : Option File) (ip : Slot) : Nat := if f.map File.ip = some ip then 1 else 0

/-- The references a process holds between system calls. -/
def restRefs (ofile : Nat → Option File) (cwd ip : Slot) : Nat :=
  (if cwd = ip then 1 else 0) + ∑ fd ∈ Finset.range nofile, fileRef (ofile fd) ip

/-- A process between system calls. -/
structure Rest (v : View) : Prop where
  held : ∀ ip, v.held ip = none
  pinned : ∀ i, v.pinned i = none
  refs : ∀ ip, v.refs ip = restRefs v.ofile v.cwd ip

theorem Rest.backed (h : Rest v) : Backed v := fun ip hip => absurd (h.held ip) hip

theorem Rest.cwd_pos (h : Rest v) : 0 < v.refs v.cwd := by
  rw [h.refs, restRefs, if_pos rfl]
  omega

theorem restRefs_update (ofile : Nat → Option File) (cwd : Slot) {fd : Nat} (hfd : fd < nofile)
    (f : Option File) (ip : Slot) :
    restRefs (update ofile fd f) cwd ip + fileRef (ofile fd) ip =
      restRefs ofile cwd ip + fileRef f ip := by
  have hmem := Finset.mem_range.mpr hfd
  have hrest : ∑ k ∈ (Finset.range nofile).erase fd, fileRef (update ofile fd f k) ip =
      ∑ k ∈ (Finset.range nofile).erase fd, fileRef (ofile k) ip :=
    Finset.sum_congr rfl fun k hk => by rw [update_of_ne (Finset.ne_of_mem_erase hk)]
  rw [restRefs, restRefs, ← Finset.add_sum_erase _ _ hmem,
    ← Finset.add_sum_erase _ (fun k => fileRef (ofile k) ip) hmem, hrest, update_self]
  omega

theorem Rest.file_pos (h : Rest v) {fd : Nat} {f : File} (hfd : fd < nofile)
    (hf : v.ofile fd = some f) : 0 < v.refs f.ip := by
  have hle := Finset.single_le_sum (f := fun k => fileRef (v.ofile k) f.ip)
    (fun k _ => Nat.zero_le _) (Finset.mem_range.mpr hfd)
  simp only [hf, fileRef, Option.map_some, if_true] at hle
  rw [h.refs, restRefs]
  simp only [fileRef]
  omega

theorem Rest.setOfile (h : Rest v) {fd : Nat} (hfd : fd < nofile) {f : Option File}
    (hf : f.map File.ip = (v.ofile fd).map File.ip) : Rest (v.setOfile fd f) := by
  refine ⟨h.held, h.pinned, fun ip => ?_⟩
  have hsum := restRefs_update v.ofile v.cwd hfd f ip
  rw [fileRef, fileRef, hf] at hsum
  exact (h.refs ip).trans (Nat.add_right_cancel hsum).symm

/-- A file is closed, and its reference dropped. -/
theorem Rest.close (h : Rest v) {fd : Nat} (hfd : fd < nofile) {f : File}
    (hf : v.ofile fd = some f) :
    Rest ((v.setOfile fd none).setRefs f.ip (v.refs f.ip - 1)) := by
  refine ⟨h.held, h.pinned, fun ip => ?_⟩
  have hsum := restRefs_update v.ofile v.cwd hfd none ip
  have hrefs := h.refs ip
  simp only [hf, fileRef, Option.map_some, Option.map_none, Option.some.injEq, reduceCtorEq, if_false] at hsum
  simp only [View.setRefs, View.setOfile, update_apply]
  grind

/-- A file is opened on an inode to which the process has one more reference. -/
theorem Rest.open (h : Rest v) {fd : Nat} (hfd : fd < nofile) (hnone : v.ofile fd = none) (f : File) :
    Rest ((v.addRef f.ip).setOfile fd (some f)) := by
  refine ⟨h.held, h.pinned, fun ip => ?_⟩
  have hsum := restRefs_update v.ofile v.cwd hfd (some f) ip
  have hrefs := h.refs ip
  simp only [hnone, fileRef, Option.map_some, Option.map_none, Option.some.injEq, reduceCtorEq, if_false] at hsum
  simp only [View.addRef, View.setRefs, View.setOfile, update_apply]
  grind

/-- The current directory is exchanged for an inode to which the process has one more reference. -/
theorem Rest.chdir (h : Rest v) (ip : Slot) :
    Rest (((v.addRef ip).setRefs v.cwd ((v.addRef ip).refs v.cwd - 1)).setCwd ip) := by
  refine ⟨h.held, h.pinned, fun jp => ?_⟩
  have hrefs := h.refs jp
  simp only [restRefs] at hrefs
  simp only [View.setCwd, View.addRef, View.setRefs, restRefs, update_apply]
  have hpos := h.cwd_pos
  by_cases hjc : jp = v.cwd <;> by_cases hji : jp = ip <;> by_cases hci : v.cwd = ip <;> grind

theorem safe_getFile (fd : Int) :
    FsSafe n sb reserved p (fun r u => u = v ∧ ∀ f, r = some f → fd.toNat < nofile ∧
      v.ofile fd.toNat = some f) (argfd fd) v := by
  unfold argfd
  split
  · rename_i hfd
    refine (Safe.perform (spec_getFile _) trivial).mono fun r u hu => ⟨hu.1, fun f hf => ⟨?_, ?_⟩⟩
    · omega
    · rw [← hu.2, hf]
  · exact safe_pure.mpr ⟨rfl, nofun⟩

/-- `fileread` and `filewrite` after the inode has been used. -/
theorem safe_advance {fd : Nat} {f : File} (r : Int) (h : Rest v) (hfd : fd < nofile)
    (hf : v.ofile fd = some f) (hw : Holding v f.ip w) :
    FsSafe n sb reserved p (fun _ u => ∃ v', Rest v' ∧ Holding v' f.ip u) (advance fd f r) w := by
  unfold advance
  split
  · refine (Safe.perform (spec_setFile _ _) trivial).mono fun _ u hu => ?_
    subst hu
    exact ⟨_, h.setOfile hfd (by rw [hf]; rfl), hw.setOfile _ _⟩
  · exact safe_pure.mpr ⟨v, h, hw⟩

theorem safe_sysRead (h0 : reserved 0) (h : Rest v) (fd m : Int) :
    FsSafe n sb reserved p (fun _ => Rest) (sysRead sb fd m) v := by
  refine (safe_getFile fd).seq fun r u hu => ?_
  obtain ⟨rfl, hfile⟩ := hu
  cases r with
  | none => exact safe_pure.mpr h
  | some f =>
    obtain ⟨hfd, hf⟩ := hfile f rfl
    have hpos := h.file_pos hfd hf
    dsimp only [fileread]
    split
    · refine (safe_ilock hpos).seq fun _ w hw => ?_
      refine (safe_readi h0 hw hpos _ _).seq fun r w hw => ?_
      refine (safe_advance _ h hfd hf hw).seq ?_
      rintro _ w ⟨v', hrest, hw⟩
      exact (safe_iunlock hw).seq fun _ _ hu => hu ▸ hrest
    · exact safe_pure.mpr h

theorem safe_sysWrite (h0 : reserved 0) (h : Rest v) (fd : Int) (src : Nat → UInt8) (m : Int) :
    FsSafe n sb reserved p (fun _ => Rest) (sysWrite sb fd src m) v := by
  refine (safe_getFile fd).seq fun r u hu => ?_
  obtain ⟨rfl, hfile⟩ := hu
  cases r with
  | none => exact safe_pure.mpr h
  | some f =>
    obtain ⟨hfd, hf⟩ := hfile f rfl
    have hpos := h.file_pos hfd hf
    dsimp only [filewrite]
    split
    · refine (safe_ilock hpos).seq fun _ w hw => ?_
      refine (safe_writei h0 hw hpos _ _ _).seq fun r w hw => ?_
      refine (safe_advance _ h hfd hf hw).seq ?_
      rintro _ w ⟨v', hrest, hw⟩
      exact (safe_iunlock hw).seq fun _ _ hu => hu ▸ hrest
    · exact safe_pure.mpr h

theorem safe_sysClose (h : Rest v) (fd : Int) :
    FsSafe n sb reserved p (fun _ => Rest) (sysClose fd) v := by
  refine (safe_getFile fd).seq fun r u hu => ?_
  obtain ⟨rfl, hfile⟩ := hu
  cases r with
  | none => exact safe_pure.mpr h
  | some f =>
    obtain ⟨hfd, hf⟩ := hfile f rfl
    have hpos := h.file_pos hfd hf
    refine Safe.step (spec_setFile _ _) trivial fun _ w hw => ?_
    subst hw
    refine (safe_iput (w := u.setOfile fd.toNat none) hpos fun hheld =>
      absurd (h.held f.ip) hheld).seq ?_
    rintro _ w rfl
    exact safe_pure.mpr (h.close hfd hf)

theorem safe_openInode (h0 : reserved 0) (h : Rest v) (path : Path) (omode : Omode) :
    FsSafe n sb reserved p (Opened v) (openInode sb path omode) v := by
  unfold openInode
  split
  · exact safe_create h0 h.backed h.cwd_pos path .file (by decide) 0 0
  · refine (safe_namei h0 h.backed h.cwd_pos path).seq fun r u hu => ?_
    rcases hu with ⟨rfl, rfl⟩ | ⟨ip, rfl, rfl⟩
    · exact safe_pure.mpr (.inl ⟨rfl, rfl⟩)
    · refine (safe_ilock addRef_pos).seq fun _ w hw => ?_
      refine safe_load_any fun c => ?_
      split
      · exact (safe_iunlockput hw).seq fun _ _ hu => .inl ⟨rfl, hu⟩
      · exact safe_pure.mpr (.inr ⟨ip, rfl, hw⟩)

theorem safe_sysOpen (h0 : reserved 0) (h : Rest v) (path : Path) (omode : Omode) :
    FsSafe n sb reserved p (fun _ => Rest) (sysOpen sb path omode) v := by
  refine (safe_openInode h0 h path omode).seq fun r u hu => ?_
  rcases hu with ⟨rfl, rfl⟩ | ⟨ip, rfl, hw⟩
  · exact safe_pure.mpr h
  · have hofile : u.ofile = v.ofile := by
      obtain ⟨-, i, d, blocks, -, -, rfl⟩ := hw
      rfl
    refine Safe.step spec_fdalloc trivial fun r w hu => ?_
    obtain ⟨rfl, hfd⟩ := hu
    cases r with
    | none =>
      exact (safe_iunlockput hw).seq fun _ _ hu => hu ▸ h
    | some fd =>
      obtain ⟨hlt, hnone⟩ := hfd fd rfl
      refine (safe_iunlock hw).seq ?_
      rintro _ u rfl
      refine Safe.step (spec_setFile _ _) trivial fun _ w hw => ?_
      subst hw
      exact safe_pure.mpr (h.open hlt (hofile ▸ hnone)
        ⟨!omode.wronly, omode.wronly || omode.rdwr, ip, 0⟩)

theorem safe_makeNode (h0 : reserved 0) (h : Rest v) (path : Path) (type : FileType)
    (htype : type ≠ .free) (major minor : Int) :
    FsSafe n sb reserved p (fun _ => Rest) (makeNode sb path type major minor) v := by
  refine (safe_create h0 h.backed h.cwd_pos path type htype major minor).seq fun r u hu => ?_
  rcases hu with ⟨rfl, rfl⟩ | ⟨ip, rfl, hw⟩
  · exact safe_pure.mpr h
  · exact (safe_iunlockput hw).seq fun _ _ hu => hu ▸ h

theorem safe_sysChdir (h0 : reserved 0) (h : Rest v) (path : Path) :
    FsSafe n sb reserved p (fun _ => Rest) (sysChdir sb path) v := by
  refine (safe_namei h0 h.backed h.cwd_pos path).seq fun r u hu => ?_
  rcases hu with ⟨rfl, rfl⟩ | ⟨ip, rfl, rfl⟩
  · exact safe_pure.mpr h
  · refine (safe_ilock addRef_pos).seq fun _ w hw => ?_
    refine safe_load_any fun c => ?_
    split
    · exact (safe_iunlockput hw).seq fun _ _ hu => hu ▸ h
    · refine (safe_iunlock hw).seq ?_
      rintro _ u rfl
      refine Safe.step spec_getCwd trivial fun cwd u hu => ?_
      obtain ⟨rfl, rfl⟩ := hu
      refine (safe_iput (Nat.lt_of_lt_of_le h.cwd_pos refs_le_addRef) fun hheld =>
        absurd (h.held _) hheld).seq ?_
      rintro _ u rfl
      refine Safe.step (spec_setCwd ip) trivial fun _ w hw => ?_
      subst hw
      exact safe_pure.mpr (h.chdir ip)

theorem safe_discard {x : Code α} (h : FsSafe n sb reserved p (fun _ => Rest) x v) :
    FsSafe n sb reserved p (fun _ => Rest) (do let _ ← x) v :=
  h.seq fun _ _ hu => safe_pure.mpr hu

/-- Every system call is safe for a process between system calls. -/
theorem safe_syscall (h0 : reserved 0) (h : Rest v) (c : Call) :
    FsSafe n sb reserved p (fun _ => Rest) (syscall sb c) v := by
  cases c with
  | «open» path omode => exact safe_discard (safe_sysOpen h0 h path omode)
  | read fd m => exact safe_discard (safe_sysRead h0 h fd m)
  | write fd src m => exact safe_discard (safe_sysWrite h0 h fd src m)
  | close fd => exact safe_discard (safe_sysClose h fd)
  | link old new =>
    refine safe_discard ((safe_sysLink h0 h.backed h.cwd_pos old new).mono ?_)
    rintro _ u rfl
    exact h
  | unlink path =>
    refine safe_discard ((safe_sysUnlink h0 h.backed h.cwd_pos path).mono ?_)
    rintro _ u rfl
    exact h
  | mkdir path => exact safe_discard (safe_makeNode h0 h path .dir (by decide) 0 0)
  | mknod path major minor => exact safe_discard (safe_makeNode h0 h path .dev (by decide) _ _)
  | chdir path => exact safe_discard (safe_sysChdir h0 h path)

end Xv6.Fs
