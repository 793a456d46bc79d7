import Xv6.FsDir

/-! Adding and removing bindings: `dirlink`, and the store by which `sys_unlink` removes an entry. An entry is written
inside one block, which is allocated first if the directory ends before it. -/

namespace Xv6.Fs

open LibProg LibWord Function

variable {n : Nat} {sb : Superblock} {p : Fin n} {input : Input} {s t : State n} {dp : Slot} {d : Dinode}
  {block : Nat → Block} {name : Name} {off k bn inum : Nat} {src : Nat → UInt8}

/-! The search for an empty entry. -/

theorem Dir.size_le (h : Dir d block) : d.size ≤ maxfile * bsize := by
  by_contra hlarge
  exact Nat.lt_irrefl _ (h.cover maxfile (Nat.not_le.mp hlarge)).1

/-- `readi` of an entry. -/
theorem readi_dirent (h : Dir (s.icache dp).copy s.block) (hin : off + direntSize ≤ (s.icache dp).copy.size) :
    Prog.Returns (exec p input) (fun r t =>
      r = some ((List.range direntSize).map fun j => byteAt (s.icache dp).copy s.block (off + j)) ∧ t = s)
      (readi sb dp off direntSize) s := by
  have hmax : maxfile * bsize + direntSize < uintSize := by decide
  have hsize := h.size_le
  refine Prog.Returns.step (o := Op.load dp) rfl ?_
  rw [if_neg (by rw [h.type]; exact FileType.noConfusion), if_neg (by rw [Nat.mod_eq_of_lt (by omega)]; omega),
    if_neg (by omega)]
  refine (readLoop_returns _ off _ le_rfl fun bn hlt => h.cover bn (by omega)).seq fun bytes t hpost => ?_
  exact Prog.returns_pure ⟨congrArg some hpost.1, hpost.2⟩

theorem ofBytes_inum (d : Dinode) (block : Nat → Block) (off : Nat) :
    (Block.dirent (ofBytes ((List.range direntSize).map fun j => byteAt d block (off + j))) 0).inum =
      (dentry d block off).inum := rfl

/-- The first entry that is not live, or the end. -/
theorem emptyEntry_returns (h : Dir (s.icache dp).copy s.block) (haligned : off % direntSize = 0)
    (hle : off ≤ (s.icache dp).copy.size) (hk : (s.icache dp).copy.size < off + k * direntSize) :
    Prog.Returns (exec p input) (fun r t => t = s ∧ r % direntSize = 0 ∧ r ≤ (s.icache dp).copy.size ∧
        (r < (s.icache dp).copy.size → (dentry (s.icache dp).copy s.block r).inum = 0) ∧
        ∀ o, off ≤ o → o < r → o % direntSize = 0 → (dentry (s.icache dp).copy s.block o).inum ≠ 0)
      (emptyEntry sb dp k off) s := by
  induction k generalizing off with
  | zero => omega
  | succ k ih =>
    refine Prog.Returns.step (o := Op.load dp) rfl ?_
    by_cases hin : off < (s.icache dp).copy.size
    · have hroom : off + direntSize ≤ (s.icache dp).copy.size := by
        have hsize := h.aligned
        simp only [direntSize] at *
        omega
      rw [if_pos hin]
      refine (readi_dirent h hroom).seq fun bytes t hpost => ?_
      obtain ⟨rfl, rfl⟩ := hpost
      have hlength : ((List.range direntSize).map fun j =>
          byteAt (t.icache dp).copy t.block (off + j)).length = direntSize := by
        rw [List.length_map, List.length_range]
      show Prog.Returns _ _ (if List.length _ ≠ direntSize then _ else _) _
      rw [if_neg (not_not.mpr hlength), ofBytes_inum]
      by_cases hempty : (dentry (t.icache dp).copy t.block off).inum = 0
      · rw [if_pos hempty]
        exact Prog.returns_pure ⟨rfl, haligned, hle, fun _ => hempty, fun o h1 h2 => by omega⟩
      · rw [if_neg hempty]
        rw [Nat.succ_mul] at hk
        refine (ih ?_ hroom (by omega)).mono fun r u hpost => ?_
        · simp only [direntSize] at *
          omega
        · obtain ⟨hu, hr, hrle, hrempty, hlive⟩ := hpost
          refine ⟨hu, hr, hrle, hrempty, fun o hlo hhi ho => ?_⟩
          by_cases heq : o = off
          · rw [heq]
            exact hempty
          · refine hlive o ?_ hhi ho
            simp only [direntSize] at *
            omega
    · rw [if_neg hin]
      exact Prog.returns_pure ⟨rfl, haligned, hle, fun hlt => absurd hlt hin, fun o h1 h2 => by omega⟩

/-! The block of an entry. -/

/-- `bmap` has given the directory the `bn`th block; one that it had not before is zero. -/
structure Mapped (s : State n) (dp : Slot) (bn : Nat) (t : State n) : Prop where
  own : OwnBlocks t dp
  present : t.cachedEntry dp (place bn) ≠ 0
  inode : t.icache dp = { s.icache dp with copy := (t.icache dp).copy }
  type : (t.icache dp).copy.type = (s.icache dp).copy.type
  size : (t.icache dp).copy.size = (s.icache dp).copy.size
  other : ∀ q, q ≠ dp → t.icache q = s.icache q
  entry : ∀ k, s.cachedEntry dp k ≠ 0 → t.cachedEntry dp k = s.cachedEntry dp k
  byte : ∀ o, o / bsize < maxfile → t.cachedEntry dp (place (o / bsize)) ≠ 0 →
    byteAt (t.icache dp).copy t.block o =
      if s.cachedEntry dp (place (o / bsize)) ≠ 0 then byteAt (s.icache dp).copy s.block o else 0

/-- The block is there, or free blocks are zero and there are enough of them. -/
def Available (sb : Superblock) (s : State n) (dp : Slot) (off : Nat) : Prop :=
  s.cachedEntry dp (place (off / bsize)) ≠ 0 ∨
    FreeZero s ∧ vacant (touches off direntSize) (s.cachedEntry dp) ≤ free sb s.used

theorem Mapped.refl (hown : OwnBlocks s dp) (hne : s.cachedEntry dp (place bn) ≠ 0) : Mapped s dp bn s :=
  ⟨hown, hne, rfl, rfl, rfl, fun _ _ => rfl, fun _ _ => rfl, fun _ _ hpresent => (if_pos hpresent).symm⟩

theorem Grown.mapped {touched : Nat → Bool} {used' : Nat → Bool} {block' : Nat → Block} {d' : Dinode}
    {blocks' : Nat → Option Block} (hown : OwnBlocks s dp) (hzero : FreeZero s)
    (h : Grown sb touched s.used s.block (s.icache dp).copy (cachedBlocks s dp) used' block' d' blocks')
    (hne : d'.entry (contents blocks') (place bn) ≠ 0) : Mapped s dp bn (s.file dp used' block' d') := by
  have hready := hown.ready hzero
  have hcopy : ((s.file dp used' block' d').icache dp).copy = d' := by rw [file_inode]
  have hentry' : (s.file dp used' block' d').cachedEntry dp = d'.entry (contents blocks') := by
    rw [← h.ready.entry]
    unfold State.cachedEntry
    rw [hcopy]
    rfl
  have hentry : s.cachedEntry dp = (s.icache dp).copy.entry (contents (cachedBlocks s dp)) :=
    contents_cachedBlocks.symm
  refine ⟨⟨?_, ?_, h.ready.boot⟩, ?_, ?_, ?_, ?_, fun q hq => update_of_ne hq _ _, ?_, ?_⟩
  · rw [hentry']
    exact h.ready.owns.distinct
  · intro k hk hne
    rw [hentry'] at hne ⊢
    obtain ⟨data, hdata⟩ := h.ready.owns.isSome hk hne
    exact (h.ready.backed _ data hdata).1
  · rw [hentry']
    exact hne
  · rw [file_inode]
  · rw [hcopy]
    exact h.keeps.type
  · rw [hcopy]
    exact h.keeps.size
  · rw [hentry', hentry]
    exact h.keeps.entry
  · intro o ho hpresent
    rw [hentry'] at hpresent
    rw [hcopy, hentry]
    show byteAt d' block' o = _
    rw [h.ready.byteAt ho hpresent]
    by_cases hold : (s.icache dp).copy.entry (contents (cachedBlocks s dp)) (place (o / bsize)) = 0
    · rw [if_neg (not_not.mpr hold), byteAt,
        contents_of_some (h.fresh _ (place_lt ho) (place_ne_ndirect _) hold hpresent)]
      rfl
    · rw [if_pos hold, h.keeps.byteAt hready.owns ho hold, hready.byteAt ho hold]

theorem bmap_mapped (hown : OwnBlocks s dp) (hbn : off / bsize < maxfile) (havail : Available sb s dp off) :
    Prog.Returns (exec p input) (fun r t => r = t.cachedEntry dp (place (off / bsize)) ∧ Mapped s dp (off / bsize) t)
      (bmap sb dp (off / bsize)) s := by
  by_cases hne : s.cachedEntry dp (place (off / bsize)) = 0
  · obtain ⟨hzero, henough⟩ := havail.resolve_left fun h => h hne
    have hready := hown.ready hzero
    have hlt : off / bsize * bsize < off + direntSize :=
      (Nat.div_mul_le_self off bsize).trans_lt (Nat.lt_add_of_pos_right (by decide))
    obtain ⟨hplace, hlast⟩ := touches_place le_rfl hlt
    rw [← contents_cachedBlocks] at henough
    have hbmap : Prog.Returns (exec p input) _ (bmap sb dp (off / bsize))
        (s.file dp s.used s.block (s.icache dp).copy) := bmap_returns hbn hplace hlast hready henough
    rw [file_self] at hbmap
    refine hbmap.mono fun r t hpost => ?_
    obtain ⟨used', block', d', blocks', hgrown, hr, hr0, rfl⟩ := hpost
    have hmapped : Mapped s dp (off / bsize) (s.file dp used' block' d') := hgrown.mapped hown hzero (hr ▸ hr0)
    refine ⟨?_, hmapped⟩
    rw [hr, ← hgrown.ready.entry, State.cachedEntry, file_inode]
    rfl
  · refine (bmap_present hbn hne).mono fun r t hpost => ?_
    obtain ⟨rfl, rfl⟩ := hpost
    exact ⟨rfl, .refl hown hne⟩

/-! Writing an entry. -/

theorem OwnBlocks.entry_update (h : OwnBlocks s dp) (hbn : bn < maxfile) (hne : s.cachedEntry dp (place bn) ≠ 0)
    (data : Block) : (s.icache dp).copy.entry (update s.block (s.cachedEntry dp (place bn)) data) =
      s.cachedEntry dp := by
  refine entry_congr fun _ => update_of_ne (fun heq => place_ne_ndirect bn ?_) _ _
  have hlast : s.cachedEntry dp ndirect = (s.icache dp).copy.addrs ndirect := entry_of_le le_rfl
  exact h.once _ _ (place_lt hbn) (by decide) hne (heq.symm.trans hlast.symm)

theorem OwnBlocks.byteAt_update {o : Nat} (h : OwnBlocks s dp) (hbn : bn < maxfile)
    (hne : s.cachedEntry dp (place bn) ≠ 0) (ho : o / bsize < maxfile) (data : Block) :
    byteAt (s.icache dp).copy (update s.block (s.cachedEntry dp (place bn)) data) o =
      if o / bsize = bn then data (o % bsize) else byteAt (s.icache dp).copy s.block o := by
  rw [byteAt, h.entry_update hbn hne data]
  by_cases heq : o / bsize = bn
  · rw [if_pos heq, heq, update_self]
  · rw [if_neg heq, update_of_ne fun hsame => heq (place_inj ?_)]
    · rfl
    · exact h.once _ _ (place_lt ho) (place_lt hbn) (hsame ▸ hne) hsame

/-- Sixteen bytes have been written at an offset. -/
structure Patched (s : State n) (dp : Slot) (src : Nat → UInt8) (off : Nat) (t : State n) : Prop where
  own : OwnBlocks t dp
  present : t.cachedEntry dp (place (off / bsize)) ≠ 0
  inode : t.icache dp = { s.icache dp with copy := (t.icache dp).copy }
  type : (t.icache dp).copy.type = (s.icache dp).copy.type
  size : (t.icache dp).copy.size = max (s.icache dp).copy.size (off + direntSize)
  other : ∀ q, q ≠ dp → t.icache q = s.icache q
  entry : ∀ k, s.cachedEntry dp k ≠ 0 → t.cachedEntry dp k = s.cachedEntry dp k
  byte : ∀ o, o / bsize < maxfile → t.cachedEntry dp (place (o / bsize)) ≠ 0 →
    byteAt (t.icache dp).copy t.block o =
      if off ≤ o ∧ o < off + direntSize then src (o - off)
      else if s.cachedEntry dp (place (o / bsize)) ≠ 0 then byteAt (s.icache dp).copy s.block o else 0

/-- The state after the store and the end of `writei`. -/
theorem Mapped.patched (h : Mapped s dp (off / bsize) t) (haligned : off % direntSize = 0) (hbn : off / bsize < maxfile)
    {u : State n} (hcache : u.icache = (t.setInode dp fun i =>
      { i with copy := { i.copy with size := max i.copy.size (off + direntSize) } }).icache)
    (hused : u.used = t.used)
    (hblock : u.block = update t.block (t.cachedEntry dp (place (off / bsize)))
      ((t.block (t.cachedEntry dp (place (off / bsize)))).write (off % bsize) direntSize src)) :
    Patched s dp src off u := by
  have hinode : u.icache dp = { t.icache dp with
      copy := { (t.icache dp).copy with size := max (t.icache dp).copy.size (off + direntSize) } } := by
    rw [hcache, setInode_self]
  have hentry : u.cachedEntry dp = t.cachedEntry dp := by
    rw [← h.own.entry_update hbn h.present]
    unfold State.cachedEntry
    rw [hinode, hblock]
    rfl
  have hbyte : ∀ o, o / bsize < maxfile → byteAt (u.icache dp).copy u.block o =
      if off ≤ o ∧ o < off + direntSize then src (o - off) else byteAt (t.icache dp).copy t.block o := by
    intro o ho
    have hwrite := h.own.byteAt_update hbn h.present ho
      ((t.block (t.cachedEntry dp (place (off / bsize)))).write (off % bsize) direntSize src)
    rw [hinode, hblock]
    refine Eq.trans (show _ = byteAt (t.icache dp).copy _ o from rfl) (hwrite.trans ?_)
    by_cases hsame : o / bsize = off / bsize
    · rw [if_pos hsame, Block.write, if_congr (chunk_iff hsame) rfl rfl]
      by_cases hin : off ≤ o ∧ o < off + direntSize
      · rw [if_pos hin, if_pos hin, chunk_sub hsame hin.1]
      · rw [if_neg hin, if_neg hin, byteAt, hsame]
        rfl
    · rw [if_neg hsame, if_neg fun hin => hsame (chunk_block ?_ hin.1 hin.2)]
      simp only [direntSize, bsize] at *
      omega
  refine ⟨⟨?_, ?_, ?_⟩, ?_, ?_, ?_, ?_, fun q hq => ?_, ?_, ?_⟩
  · rw [hentry]
    exact h.own.once
  · rw [hentry, hused]
    exact h.own.marked
  · rw [hused]
    exact h.own.boot
  · rw [hentry]
    exact h.present
  · rw [hinode, h.inode]
  · rw [hinode]
    exact h.type
  · rw [hinode, ← h.size]
  · rw [hcache, setInode_of_ne hq]
    exact h.other q hq
  · rw [hentry]
    exact h.entry
  · intro o ho hpresent
    rw [hentry] at hpresent
    rw [hbyte o ho, h.byte o ho hpresent]

/-- `writei` of an entry. -/
theorem writei_patched (hown : OwnBlocks s dp) (htype : (s.icache dp).copy.type = .dir)
    (haligned : off % direntSize = 0) (hoff : off ≤ (s.icache dp).copy.size) (hmax : off + direntSize ≤ maxfile * bsize)
    (havail : Available sb s dp off) :
    Prog.Returns (exec p input) (fun (r : Int) t => r = direntSize ∧ Patched s dp src off t)
      (writei sb dp src off direntSize) s := by
  have hword : maxfile * bsize < uintSize := by decide
  have hbn : off / bsize < maxfile := by
    refine Nat.div_lt_of_lt_mul ?_
    rw [Nat.mul_comm]
    have hpos : 0 < direntSize := by decide
    omega
  have hmin : min direntSize (bsize - off % bsize) = direntSize := by
    simp only [direntSize, bsize] at *
    omega
  refine Prog.Returns.step (o := Op.load dp) rfl ?_
  rw [if_neg (by rw [htype]; exact FileType.noConfusion), if_neg (by rw [Nat.mod_eq_of_lt (by omega)]; omega),
    if_neg (by omega)]
  have hloop : Prog.Returns (exec p input) (fun r t => r = off + direntSize ∧ ∃ u, Mapped s dp (off / bsize) u ∧
      ∃ addr, addr = u.cachedEntry dp (place (off / bsize)) ∧
      t = { u with block := update u.block addr ((u.block addr).write (off % bsize) direntSize src) })
      (writeLoop sb dp direntSize src off direntSize) s := by
    rw [show direntSize = 14 + 1 + 1 from rfl, writeLoop, if_neg (by decide)]
    refine (bmap_mapped hown hbn havail).seq fun addr u hpost => ?_
    obtain ⟨rfl, hmapped⟩ := hpost
    refine Prog.Returns.step (o := Op.bread _) rfl ?_
    refine Prog.Returns.step (o := Op.bwrite _ _) rfl ?_
    rw [show 14 + 1 + 1 = direntSize from rfl, hmin, Nat.sub_self, writeLoop, if_pos rfl]
    exact Prog.returns_pure ⟨rfl, u, hmapped, _, rfl, rfl⟩
  refine hloop.seq fun r v hpost => ?_
  obtain ⟨rfl, u, hmapped, addr, haddr, hv⟩ := hpost
  have hsize : off ≤ (v.icache dp).copy.size := by
    rw [hv]
    exact hmapped.size ▸ hoff
  have hgrow : Prog.Returns (exec p input) _ (grow dp (off + direntSize) direntSize)
      (v.file dp v.used v.block (v.icache dp).copy) := grow_returns (by decide) hsize
  rw [file_self] at hgrow
  refine hgrow.mono fun r t hpost => ?_
  obtain ⟨hr, hcache, hblock, hused, -⟩ := hpost
  refine ⟨hr, hmapped.patched haligned hbn ?_ ?_ ?_⟩
  · rw [hcache, hv]
    rfl
  · rw [hused, hv]
  · rw [hblock, hv, haddr]

/-! The bindings after an entry has been written. -/

theorem dirent_congr {b b' : Block} {o o' : Nat} (h : ∀ k, k < direntSize → b (o + k) = b' (o' + k)) :
    b.dirent o = b'.dirent o' := by
  have hname : b.read (o + 2) dirsiz = b'.read (o' + 2) dirsiz := by
    refine List.map_congr_left fun j hj => ?_
    have hlt := List.mem_range.mp hj
    rw [Nat.add_assoc, Nat.add_assoc]
    refine h (2 + j) ?_
    simp only [dirsiz, direntSize] at *
    omega
  have h0 : b o = b' o' := h 0 (by decide)
  rw [Block.dirent, Block.dirent, h0, h 1 (by decide), hname]

/-- What sixteen bytes say: a binding, or an empty entry. -/
def binding (src : Nat → UInt8) : Option (Name × Nat) :=
  if (Block.dirent src 0).inum ≠ 0 then some (cname (Block.dirent src 0).name, (Block.dirent src 0).inum) else none

theorem entry_block (hoff : off % direntSize = 0) (hk : k < direntSize) : (off + k) / bsize = off / bsize := by
  simp only [direntSize, bsize] at *
  omega

theorem Patched.dentry_self (h : Patched s dp src off t) (hoff : off % direntSize = 0) (hbn : off / bsize < maxfile) :
    dentry (t.icache dp).copy t.block off = Block.dirent src 0 := by
  refine dirent_congr fun k hk => ?_
  have hdiv := entry_block hoff hk
  rw [h.byte (off + k) (hdiv ▸ hbn) (hdiv ▸ h.present), if_pos (by omega), Nat.add_sub_cancel_left, Nat.zero_add]

theorem Patched.dentry_of_ne {o : Nat} (h : Patched s dp src off t) (hdir : Dir (s.icache dp).copy s.block)
    (hoff : off % direntSize = 0) (ho : o % direntSize = 0) (hne : o ≠ off) (hlt : o < (s.icache dp).copy.size) :
    dentry (t.icache dp).copy t.block o = dentry (s.icache dp).copy s.block o := by
  obtain ⟨hbn, hold⟩ := hdir.cover (o / bsize) ((Nat.div_mul_le_self o bsize).trans_lt hlt)
  refine dirent_congr fun k hk => ?_
  have hdiv := entry_block ho hk
  have hold : s.cachedEntry dp (place ((o + k) / bsize)) ≠ 0 := hdiv ▸ hold
  rw [h.byte (o + k) (hdiv ▸ hbn) (h.entry _ hold ▸ hold), if_neg, if_pos hold]
  simp only [direntSize] at *
  omega

/-- The other entries stay as they are. -/
theorem Patched.liveAt (h : Patched s dp src off t) (hdir : Dir (s.icache dp).copy s.block)
    (haligned : off % direntSize = 0) (hoff : off ≤ (s.icache dp).copy.size) (hbn : off / bsize < maxfile) :
    liveAt (t.icache dp).copy t.block = update (Fs.liveAt (s.icache dp).copy s.block) off (binding src) := by
  have hpos : 0 < direntSize := by decide
  funext o
  by_cases heq : o = off
  · rw [heq, update_self, Fs.liveAt, h.dentry_self haligned hbn, binding, h.size]
    exact if_congr ⟨fun hand => hand.2.2, fun hne => ⟨haligned, by omega, hne⟩⟩ rfl rfl
  · rw [update_of_ne heq, Fs.liveAt, Fs.liveAt, h.size]
    by_cases ho : o % direntSize = 0 ∧ o < (s.icache dp).copy.size
    · grind [h.dentry_of_ne]
    · rw [if_neg, if_neg fun hand => ho ⟨hand.1, hand.2.1⟩]
      intro hand
      refine ho ⟨hand.1, ?_⟩
      have hmax := hand.2.1
      have hsize := hdir.aligned
      simp only [direntSize] at *
      omega

theorem Patched.dir (h : Patched s dp src off t) (hdir : Dir (s.icache dp).copy s.block)
    (haligned : off % direntSize = 0) (hoff : off ≤ (s.icache dp).copy.size) (hbn : off / bsize < maxfile)
    (hfresh : ∀ x, binding src = some x → ∀ o y, o ≠ off →
      Fs.liveAt (s.icache dp).copy s.block o = some y → y.1 ≠ x.1) :
    Dir (t.icache dp).copy t.block := by
  have hsize := hdir.aligned
  have hlive := h.liveAt hdir haligned hoff hbn
  refine ⟨h.type.trans hdir.type, ?_, fun bn hlt => ?_, fun o hle ho hpresent => ?_, fun a b x y hx hy hname => ?_⟩
  · rw [h.size]
    simp only [direntSize] at *
    omega
  · by_cases hold : bn * bsize < (s.icache dp).copy.size
    · obtain ⟨hmax, hne⟩ := hdir.cover bn hold
      exact ⟨hmax, Eq.trans_ne (h.entry _ hne) hne⟩
    · have hlast : bn = off / bsize := by
        rw [h.size] at hlt
        simp only [direntSize, bsize] at *
        omega
      rw [hlast]
      exact ⟨hbn, h.present⟩
  · rw [h.size] at hle
    rw [h.byte o ho hpresent, if_neg (by omega)]
    split_ifs with hold
    · exact hdir.zero o (by omega) ho hold
    · rfl
  · rw [hlive] at hx hy
    by_cases ha : a = off
    · grind
    · grind [hdir.distinct]

/-! The entry `dirlink` writes. -/

theorem takeWhile_padded (m : Nat) (l : Name) :
    ((List.range m).map (l.getD · 0)).takeWhile (· ≠ 0) = (l.take m).takeWhile (· ≠ 0) := by
  induction m generalizing l with
  | zero => rfl
  | succ m ih =>
    rw [List.range_succ_eq_map, List.map_cons, List.map_map]
    cases l with
    | nil => simp
    | cons x l =>
      rw [List.take_succ_cons, List.takeWhile_cons, List.takeWhile_cons, ← ih l]
      rfl

/-- `strncpy` fills the name up with zeros, which the comparison does not see. -/
theorem cname_read (inum : Nat) (name : Name) :
    cname (Block.read (Dirent.bytes ⟨inum, name.take dirsiz⟩) 2 dirsiz) = cname name := by
  have hread : Block.read (Dirent.bytes ⟨inum, name.take dirsiz⟩) 2 dirsiz =
      (List.range dirsiz).map ((name.take dirsiz).getD · 0) := by
    refine List.map_congr_left fun j _ => ?_
    rw [Dirent.bytes, if_neg (by omega), Nat.add_sub_cancel_left]
  have hlength : (Block.read (Dirent.bytes ⟨inum, name.take dirsiz⟩) 2 dirsiz).length ≤ dirsiz := by
    rw [Block.read, List.length_map, List.length_range]
  rw [cname, List.take_of_length_le hlength, hread, takeWhile_padded, List.take_take, Nat.min_self, cname]

theorem binding_bytes (hpos : inum ≠ 0) (hlt : inum < 2 ^ 16) :
    binding (Dirent.bytes ⟨inum, name.take dirsiz⟩) = some (cname name, inum) := by
  have hinum : (Block.dirent (Dirent.bytes ⟨inum, name.take dirsiz⟩) 0).inum = inum := by
    show (byteOf inum 0).toNat + 2 ^ 8 * (byteOf inum 1).toNat = inum
    simp only [byteOf_toNat]
    omega
  rw [binding, hinum, if_pos hpos]
  exact congrArg (fun c => some (c, inum)) (cname_read inum name)

theorem binding_zero : binding (fun _ => 0) = none := rfl

/-! `dirlink`. -/

/-- The name is bound by a live entry. -/
def Bound (d : Dinode) (block : Nat → Block) (name : Name) : Prop :=
  ∃ off x, liveAt d block off = some x ∧ x.1 = cname name

/-- What a change of the bindings leaves: a well-formed directory that owns its blocks, in the same slot. -/
structure Rebound (s : State n) (dp : Slot) (off : Nat) (x : Option (Name × Nat)) (t : State n) : Prop where
  dir : Dir (t.icache dp).copy t.block
  own : OwnBlocks t dp
  inode : t.icache dp = { s.icache dp with copy := (t.icache dp).copy }
  other : ∀ q, q ≠ dp → t.icache q = s.icache q
  live : liveAt (t.icache dp).copy t.block = update (liveAt (s.icache dp).copy s.block) off x

theorem dirlink_bound {x : Name × Nat} (hdir : Dir (s.icache dp).copy s.block)
    (hlive : liveAt (s.icache dp).copy s.block off = some x) (hname : x.1 = cname name) (hroom : Room s x.2) :
    Prog.Returns (exec p input) (fun r t => r = false ∧ SameDisk s t ∧
        ∀ q, (s.icache q).ref ≠ 0 → t.icache q = s.icache q)
      (dirlink sb dp name inum) s := by
  refine (dirlookup_found hdir hlive hname hroom).seq fun r t hpost => ?_
  obtain ⟨ip, rfl, hgot⟩ := hpost
  refine hgot.iput.seq fun _ u hpost => Prog.returns_pure ⟨rfl, hpost⟩

/-- The offset at which a new entry goes: an empty entry or the end. -/
theorem dirlink_unbound (hdir : Dir (s.icache dp).copy s.block) (hown : OwnBlocks s dp)
    (habsent : ¬ Bound (s.icache dp).copy s.block name) (hpos : inum ≠ 0) (hlt : inum < 2 ^ 16)
    (hroom : (∃ o, o % direntSize = 0 ∧ o < (s.icache dp).copy.size ∧ (dentry (s.icache dp).copy s.block o).inum = 0) ∨
      (s.icache dp).copy.size < maxfile * bsize ∧ Available sb s dp (s.icache dp).copy.size) :
    Prog.Returns (exec p input) (fun r t => r = true ∧ ∃ o, liveAt (s.icache dp).copy s.block o = none ∧
        Rebound s dp o (some (cname name, inum)) t)
      (dirlink sb dp name inum) s := by
  have habsent : ∀ o x, liveAt (s.icache dp).copy s.block o = some x → x.1 ≠ cname name :=
    fun o x hx hname => habsent ⟨o, x, hx, hname⟩
  refine (dirlookup_absent hdir habsent).seq fun r t hpost => ?_
  obtain ⟨rfl, rfl⟩ := hpost
  refine Prog.Returns.step (o := Op.load dp) rfl ?_
  have hlast : (t.icache dp).copy.size < 0 + ((t.icache dp).copy.size / direntSize + 1) * direntSize := by
    simp only [direntSize]
    omega
  refine (emptyEntry_returns hdir rfl (Nat.zero_le _) hlast).seq fun o u hpost => ?_
  obtain ⟨rfl, haligned, hle, hempty, hlive⟩ := hpost
  have hsize := hdir.size_le
  have htotal : maxfile * bsize = 71680 := by decide
  have hfits : o + direntSize ≤ maxfile * bsize ∧ Available sb u dp o := by
    have hmult := hdir.aligned
    by_cases hin : o < (u.icache dp).copy.size
    · refine ⟨?_, .inl (hdir.cover (o / bsize) ((Nat.div_mul_le_self o bsize).trans_lt hin)).2⟩
      simp only [direntSize] at *
      omega
    · have hend : o = (u.icache dp).copy.size := by omega
      cases hroom with
      | inl hfree =>
        obtain ⟨o', ho', hlt', hzero⟩ := hfree
        exact absurd hzero (hlive o' (Nat.zero_le _) (by omega) ho')
      | inr hgrow =>
        refine ⟨?_, hend ▸ hgrow.2⟩
        have hbelow := hgrow.1
        simp only [direntSize] at *
        omega
  have hbn : o / bsize < maxfile := by
    refine Nat.div_lt_of_lt_mul ?_
    rw [Nat.mul_comm]
    simp only [direntSize] at *
    omega
  refine (writei_patched hown hdir.type haligned hle hfits.1 hfits.2).seq fun r v hpost => ?_
  obtain ⟨rfl, hpatched⟩ := hpost
  rw [if_pos rfl]
  have hbinding : binding (Dirent.bytes ⟨inum, name.take dirsiz⟩) = some (cname name, inum) := binding_bytes hpos hlt
  have hnone : liveAt (u.icache dp).copy u.block o = none := by
    rw [liveAt, if_neg]
    exact fun hand => hand.2.2 (hempty hand.2.1)
  refine Prog.returns_pure ⟨rfl, o, hnone, ?_, hpatched.own, hpatched.inode, hpatched.other, ?_⟩
  · grind [hpatched.dir]
  · rw [hpatched.liveAt hdir haligned hle hbn, hbinding]

/-- A call of `dirlink` that returns -1 has found the name. -/
theorem dirlink_false (hdir : Dir (s.icache dp).copy s.block)
    (hrun : Prog.run (exec p input) (dirlink sb dp name inum) s = some (false, t)) :
    Bound (s.icache dp).copy s.block name := by
  by_contra habsent
  have hlookup : Prog.Returns (exec p input) _ (dirlookup sb dp name) s :=
    dirlookup_absent hdir fun o x hx hname => habsent ⟨o, x, hx, hname⟩
  obtain ⟨r, u, hlookup, rfl, rfl⟩ := hlookup
  rw [dirlink, Prog.run_bind hlookup] at hrun
  -- what is left ends with `true` or a panic
  obtain ⟨i, u, -, hrun⟩ := Prog.run_bind_some hrun
  obtain ⟨o, u, -, hrun⟩ := Prog.run_bind_some hrun
  obtain ⟨r, u, -, hrun⟩ := Prog.run_bind_some hrun
  split at hrun
  · cases hrun
  · cases hrun

/-- The store by which `sys_unlink` removes an entry. -/
theorem erase_returns {x : Name × Nat} (hdir : Dir (s.icache dp).copy s.block) (hown : OwnBlocks s dp)
    (hlive : liveAt (s.icache dp).copy s.block off = some x) :
    Prog.Returns (exec p input) (fun (r : Int) t => r = direntSize ∧ Rebound s dp off none t)
      (writei sb dp (fun _ => 0) off direntSize) s := by
  obtain ⟨haligned, hlt, -, -⟩ := liveAt_eq_some hlive
  obtain ⟨hbn, hpresent⟩ := hdir.cover (off / bsize) ((Nat.div_mul_le_self off bsize).trans_lt hlt)
  have hsize := hdir.size_le
  have hmult := hdir.aligned
  have hfits : off + direntSize ≤ maxfile * bsize := by
    simp only [direntSize] at *
    omega
  refine (writei_patched hown hdir.type haligned hlt.le hfits (.inl hpresent)).mono fun r t hpost => ?_
  obtain ⟨hr, hpatched⟩ := hpost
  refine ⟨hr, ?_, hpatched.own, hpatched.inode, hpatched.other, hpatched.liveAt hdir haligned hlt.le hbn⟩
  exact hpatched.dir hdir haligned hlt.le hbn fun x hx => by cases hx

/-! The directory as a map. -/

theorem directory_is_map (name : Name) (hdir : Dir (s.icache dp).copy s.block) (hown : OwnBlocks s dp)
    (href : (s.icache dp).ref ≠ 0) (hpos : inum ≠ 0) (hlt : inum < 2 ^ 16) :
    -- `dirlookup`
    (∀ off x, liveAt (s.icache dp).copy s.block off = some x → x.1 = cname name → Room s x.2 →
      Prog.Returns (exec p input) (fun r t => ∃ ip, r = some (ip, off) ∧ Got s x.2 ip t) (dirlookup sb dp name) s) ∧
    (¬ Bound (s.icache dp).copy s.block name →
      Prog.Returns (exec p input) (fun r t => r = none ∧ t = s) (dirlookup sb dp name) s) ∧
    -- `dirlink`
    (∀ off x, liveAt (s.icache dp).copy s.block off = some x → x.1 = cname name → Room s x.2 →
      Prog.Returns (exec p input) (fun r t => r = false ∧ SameDisk s t ∧ t.icache dp = s.icache dp)
        (dirlink sb dp name inum) s) ∧
    (∀ t, Prog.run (exec p input) (dirlink sb dp name inum) s = some (false, t) →
      Bound (s.icache dp).copy s.block name) ∧
    (¬ Bound (s.icache dp).copy s.block name →
      (∃ o, o % direntSize = 0 ∧ o < (s.icache dp).copy.size ∧ (dentry (s.icache dp).copy s.block o).inum = 0) ∨
        (s.icache dp).copy.size < maxfile * bsize ∧ Available sb s dp (s.icache dp).copy.size →
      Prog.Returns (exec p input) (fun r t => r = true ∧ ∃ o, liveAt (s.icache dp).copy s.block o = none ∧
          Rebound s dp o (some (cname name, inum)) t)
        (dirlink sb dp name inum) s) ∧
    -- the store of `sys_unlink`
    (∀ off x, liveAt (s.icache dp).copy s.block off = some x → x.1 = cname name →
      Prog.Returns (exec p input) (fun (r : Int) t => r = direntSize ∧ Rebound s dp off none t)
        (writei sb dp (fun _ => 0) off direntSize) s) := by
  refine ⟨fun off x hlive hname hroom => dirlookup_found hdir hlive hname hroom, fun habsent => ?_,
    fun off x hlive hname hroom => ?_, fun t => dirlink_false hdir,
    fun habsent hroom => dirlink_unbound hdir hown habsent hpos hlt hroom,
    fun off x hlive _ => erase_returns hdir hown hlive⟩
  · exact dirlookup_absent hdir fun o x hx hname => habsent ⟨o, x, hx, hname⟩
  · refine (dirlink_bound hdir hlive hname hroom).mono fun r t hpost => ?_
    exact ⟨hpost.1, hpost.2.1, hpost.2.2 dp href⟩

/-- The root directory is open, next to other cached inodes. -/
def openRoot (used : Nat → Bool) (d : Dinode) (block : Nat → Block) (other : Slot → Inode 1) : State 1 :=
  { bootWith used (fun i => if i = 1 then d else {}) block with
    icache := fun q => if q = rootSlot then { inum := 1, valid := true, copy := d, ref := 1, busy := some 0 }
      else other q }

def emptyDir : Dinode := { type := .dir, nlink := 1 }

/-- A directory with one binding, of the name `f` to 2. -/
def oneEntry : Dinode := { type := .dir, nlink := 1, size := 16, addrs := fun k => if k = 0 then 6 else 0 }

def oneBlock : Nat → Block := fun b => if b = 6 then Dirent.bytes ⟨2, [102]⟩ else Block.zero

theorem emptyDir_entry (block : Nat → Block) (k : Nat) : emptyDir.entry block k = 0 := by
  simp [emptyDir, Dinode.entry]

theorem emptyDir_dir (block : Nat → Block) : Dir emptyDir block := by
  refine ⟨rfl, rfl, fun bn hlt => absurd hlt (Nat.not_lt_zero _),
    fun o _ _ hne => absurd (emptyDir_entry block _) hne, fun a b x y hx => ?_⟩
  exact absurd (liveAt_eq_some hx).2.1 (Nat.not_lt_zero _)

theorem oneEntry_entry (block : Nat → Block) (k : Nat) : oneEntry.entry block k = if k = 0 then 6 else 0 := by
  by_cases hk : k = 0 <;> simp [oneEntry, Dinode.entry, ndirect, hk]

theorem oneEntry_dir : Dir oneEntry oneBlock := by
  refine ⟨rfl, rfl, fun bn hlt => ?_, fun o hle _ hne => ?_, fun a b x y hx hy _ => ?_⟩
  · have hbn : bn = 0 := by
      simp only [bsize, oneEntry] at hlt
      omega
    rw [hbn, oneEntry_entry]
    decide
  · have hzero : place (o / bsize) = 0 := by
      by_contra hplace
      rw [oneEntry_entry, if_neg hplace] at hne
      exact hne rfl
    have hle : 16 ≤ o := hle
    have hsmall : o < bsize := by
      unfold place ndirect bsize at hzero
      simp only [bsize]
      split_ifs at hzero
      omega
    rw [byteAt, hzero, oneEntry_entry, Nat.mod_eq_of_lt hsmall]
    show Dirent.bytes ⟨2, [102]⟩ o = 0
    rw [Dirent.bytes, if_neg (by omega)]
    exact List.getD_eq_default _ _ (by simp only [List.length_singleton]; omega)
  · obtain ⟨ha, halt, -⟩ := liveAt_eq_some hx
    obtain ⟨hb, hblt, -⟩ := liveAt_eq_some hy
    simp only [direntSize, oneEntry] at *
    omega

theorem openRoot_own {used : Nat → Bool} {d : Dinode} {other : Slot → Inode 1} (h0 : used 0 = true) (h6 : used 6 = true)
    (hd : ∀ k, d.entry block k = 0 ∨ d.entry block k = 6 ∧ k = 0) : OwnBlocks (openRoot used d block other) rootSlot := by
  have hentry : (openRoot used d block other).cachedEntry rootSlot = d.entry block := rfl
  refine ⟨fun k l _ _ hne heq => ?_, fun k _ hne => ?_, h0⟩
  · rw [hentry] at hne heq
    have hl := (hd l).resolve_left fun hzero => hne (heq.trans hzero)
    exact ((hd k).resolve_left hne).2.trans hl.2.symm
  · rw [hentry] at hne ⊢
    rw [((hd k).resolve_left hne).1]
    exact h6

theorem oneEntry_own (other : Slot → Inode 1) :
    OwnBlocks (openRoot (fun b => decide (b < 7)) oneEntry oneBlock other) rootSlot := by
  refine openRoot_own rfl rfl fun k => ?_
  rw [oneEntry_entry]
  by_cases hk : k = 0
  · exact .inr ⟨if_pos hk, hk⟩
  · exact .inl (if_neg hk)

/-- A second name is added to the directory with one binding. -/
theorem oneEntry_is_map :
    Prog.Returns (exec 0 {}) (fun r t => r = true ∧ ∃ o,
        liveAt oneEntry oneBlock o = none ∧
        Rebound (openRoot (fun b => decide (b < 7)) oneEntry oneBlock fun _ => {}) rootSlot o (some ([103], 3)) t)
      (dirlink smallDisk rootSlot [103] 3) (openRoot (fun b => decide (b < 7)) oneEntry oneBlock fun _ => {}) := by
  refine (directory_is_map [103] oneEntry_dir (oneEntry_own _) (by decide) (by decide) (by decide)).2.2.2.2.1 ?_ (.inr ?_)
  · rintro ⟨off, x, hlive, hname⟩
    obtain ⟨haligned, hlt, -, rfl⟩ := liveAt_eq_some hlive
    have hoff : off = 0 := by
      have hlt : off < 16 := hlt
      simp only [direntSize] at haligned
      omega
    rw [hoff] at hname
    exact absurd hname (by decide +kernel)
  · refine ⟨by decide, .inl ?_⟩
    show oneEntry.entry oneBlock (place 0) ≠ 0
    rw [oneEntry_entry]
    decide

/-- An empty root directory; the first free block has an old entry at offset 16. -/
def staleRoot : State 1 :=
  openRoot (fun b => decide (b < 7)) emptyDir
    (fun b => if b = 7 then fun o => if 16 ≤ o then Dirent.bytes ⟨3, [103]⟩ (o - 16) else 0 else Block.zero) fun _ => {}

/-- No slot is left for the inode that is found; no block is left for the first entry; the block that becomes the
first one of the directory has an old entry behind the new one. -/
theorem directory_without_room :
    (∃ s : State 1, Dir (s.icache rootSlot).copy s.block ∧ OwnBlocks s rootSlot ∧ (s.icache rootSlot).ref ≠ 0 ∧
      liveAt (s.icache rootSlot).copy s.block 0 = some ([102], 2) ∧
      Prog.run (exec 0 {}) (dirlookup smallDisk rootSlot [102]) s = none) ∧
    (∃ s : State 1, Dir (s.icache rootSlot).copy s.block ∧ OwnBlocks s rootSlot ∧ (s.icache rootSlot).ref ≠ 0 ∧
      (s.icache rootSlot).copy.size = 0 ∧ FreeZero s ∧
      Prog.run (exec 0 {}) (dirlink smallDisk rootSlot [102] 2) s = none) ∧
    (∃ s t : State 1, Dir (s.icache rootSlot).copy s.block ∧ OwnBlocks s rootSlot ∧ (s.icache rootSlot).ref ≠ 0 ∧
      (s.icache rootSlot).copy.size = 0 ∧
      Prog.run (exec 0 {}) (dirlink smallDisk rootSlot [102] 2) s = some (true, t) ∧
      ∃ ip u, Prog.run (exec 0 {}) (dirlookup smallDisk rootSlot [103]) t = some (some (ip, 16), u)) := by
  refine ⟨⟨openRoot (fun b => decide (b < 7)) oneEntry oneBlock fun q => { inum := q.val + 100, ref := 1 },
      oneEntry_dir, oneEntry_own _, by decide, by decide +kernel, ?_⟩,
    ⟨openRoot (fun _ => true) emptyDir (fun _ => Block.zero) fun _ => {}, emptyDir_dir _,
      openRoot_own rfl rfl fun k => .inl (emptyDir_entry _ k), by decide, rfl, fun _ _ => rfl, ?_⟩, ?_⟩
  · have hrun : (Prog.run (exec 0 {}) (dirlookup smallDisk rootSlot [102]) (openRoot (fun b => decide (b < 7)) oneEntry
        oneBlock fun q => { inum := q.val + 100, ref := 1 })).isNone = true := by
      decide +kernel
    exact Option.isNone_iff_eq_none.mp hrun
  · have hrun : (Prog.run (exec 0 {}) (dirlink smallDisk rootSlot [102] 2) (openRoot (fun _ => true) emptyDir
        (fun _ => Block.zero) fun _ => {})).isNone = true := by
      decide +kernel
    exact Option.isNone_iff_eq_none.mp hrun
  · have hrun : (Prog.run (exec 0 {}) (dirlink smallDisk rootSlot [102] 2) staleRoot).any (fun x => x.1 &&
        (Prog.run (exec 0 {}) (dirlookup smallDisk rootSlot [103]) x.2).any fun y =>
          y.1.any fun z => decide (z.2 = 16)) = true := by
      decide +kernel
    obtain ⟨⟨r, t⟩, hlink, hfacts⟩ := (Option.any_eq_true _ _).mp hrun
    obtain ⟨hr, hfound⟩ := Bool.and_eq_true_iff.mp hfacts
    obtain ⟨⟨found, u⟩, hlookup, hfound⟩ := (Option.any_eq_true _ _).mp hfound
    obtain ⟨⟨ip, off⟩, rfl, hoff⟩ := (Option.any_eq_true _ _).mp hfound
    obtain rfl : r = true := hr
    obtain rfl : off = 16 := of_decide_eq_true hoff
    exact ⟨staleRoot, t, emptyDir_dir _, openRoot_own rfl rfl fun k => .inl (emptyDir_entry _ k), by decide, rfl, hlink,
      ip, u, hlookup⟩

end Xv6.Fs
