import Xv6.FsContents

/-! Directories as finite maps from names to inode numbers: what `dirlookup` finds. It compares the entries of whole
blocks; the bytes behind the end of the directory are zero, so that there is nothing to be found there. -/

namespace Xv6.Fs

open LibProg LibWord

variable {n : Nat} {sb : Superblock} {p : Fin n} {input : Input} {s t : State n} {dp : Slot} {d : Dinode}
  {block : Nat → Block} {name : Name} {data : Block} {off k bn inum : Nat}

/-! Names. -/

/-- What the directory code sees of a name. -/
def cname (name : Name) : Name := (name.take dirsiz).takeWhile (· ≠ 0)

theorem strncmpEq_iff {m : Nat} {a b : Name} :
    strncmpEq m a b = true ↔ (a.take m).takeWhile (· ≠ 0) = (b.take m).takeWhile (· ≠ 0) := by
  induction m generalizing a b with
  | zero => exact iff_of_true rfl rfl
  | succ m ih =>
    cases a with
    | nil =>
      cases b with
      | nil => exact iff_of_true rfl rfl
      | cons y b =>
        rw [strncmpEq, if_neg (fun hand => hand.1 rfl), List.take_nil, List.take_succ_cons, List.takeWhile_cons]
        by_cases hy : y = 0
        · simp [hy]
        · simp [hy, Ne.symm hy]
    | cons x a =>
      cases b with
      | nil =>
        rw [strncmpEq, if_neg (fun hand => hand.1 hand.2), List.take_nil, List.take_succ_cons, List.takeWhile_cons]
        by_cases hx : x = 0
        · simp [hx]
        · simp [hx]
      | cons y b =>
        show (if x ≠ 0 ∧ x = y then strncmpEq m a b else decide (x = y)) = true ↔ _
        rw [List.take_succ_cons, List.take_succ_cons, List.takeWhile_cons, List.takeWhile_cons]
        by_cases hx : x = 0
        · by_cases hy : y = 0
          · simp [hx, hy]
          · simp [hx, hy, Ne.symm hy]
        · by_cases hxy : x = y
          · rw [if_pos ⟨hx, hxy⟩, ih, ← hxy]
            simp [hx]
          · by_cases hy : y = 0
            · simp [hx, hy]
            · simp [hx, hy, hxy]

theorem namecmp_iff {a b : Name} : namecmp a b = true ↔ cname a = cname b := strncmpEq_iff

/-! Entries. -/

/-- The entry at an offset of the directory. -/
def dentry (d : Dinode) (block : Nat → Block) (off : Nat) : Dirent := Block.dirent (byteAt d block) off

/-- The binding at an offset of the directory, if there is a live entry. -/
def liveAt (d : Dinode) (block : Nat → Block) (off : Nat) : Option (Name × Nat) :=
  if off % direntSize = 0 ∧ off < d.size ∧ (dentry d block off).inum ≠ 0 then
    some (cname (dentry d block off).name, (dentry d block off).inum)
  else none

/-- A well-formed directory: it has a block for each part of its size, the bytes of its blocks behind the end are
zero, and the names of its live entries are distinct. -/
structure Dir (d : Dinode) (block : Nat → Block) : Prop where
  type : d.type = .dir
  aligned : d.size % direntSize = 0
  cover : ∀ bn, bn * bsize < d.size → bn < maxfile ∧ d.entry block (place bn) ≠ 0
  zero : ∀ o, d.size ≤ o → o / bsize < maxfile → d.entry block (place (o / bsize)) ≠ 0 → byteAt d block o = 0
  distinct : ∀ a b x y, liveAt d block a = some x → liveAt d block b = some y → x.1 = y.1 → a = b

theorem byteAt_block (hoff : off % direntSize = 0) (hk : k < direntSize) :
    byteAt d block (off + k) = block (d.entry block (place (off / bsize))) (off % bsize + k) := by
  have hdiv : (off + k) / bsize = off / bsize ∧ (off + k) % bsize = off % bsize + k := by
    simp only [direntSize, bsize] at *
    omega
  rw [byteAt, hdiv.1, hdiv.2]

theorem dirent_block (hoff : off % direntSize = 0) :
    dentry d block off = (block (d.entry block (place (off / bsize)))).dirent (off % bsize) := by
  unfold dentry Block.dirent
  have h0 : byteAt d block off = _ := byteAt_block hoff (show 0 < direntSize by decide)
  have h1 : byteAt d block (off + 1) = _ := byteAt_block hoff (by decide)
  have hname : Block.read (byteAt d block) (off + 2) dirsiz =
      Block.read (block (d.entry block (place (off / bsize)))) (off % bsize + 2) dirsiz := by
    refine List.map_congr_left fun j hj => ?_
    have hlt := List.mem_range.mp hj
    rw [Nat.add_assoc, Nat.add_assoc]
    refine byteAt_block hoff ?_
    simp only [dirsiz, direntSize] at *
    omega
  rw [h0, h1, hname]
  rfl

theorem liveAt_eq_some {x : Name × Nat} (h : liveAt d block off = some x) :
    off % direntSize = 0 ∧ off < d.size ∧ (dentry d block off).inum ≠ 0 ∧
      x = (cname (dentry d block off).name, (dentry d block off).inum) := by
  unfold liveAt at h
  split_ifs at h with hcond
  exact ⟨hcond.1, hcond.2.1, hcond.2.2, (Option.some.inj h).symm⟩

/-- Behind the end there is no entry. -/
theorem Dir.beyond (h : Dir d block) (hsize : d.size ≤ off) (hoff : off % direntSize = 0) (hbn : off / bsize < maxfile)
    (hne : d.entry block (place (off / bsize)) ≠ 0) : (dentry d block off).inum = 0 := by
  have h1 : (off + 1) / bsize = off / bsize := by
    simp only [direntSize, bsize] at *
    omega
  have hzero₀ := h.zero off hsize hbn hne
  have hzero₁ := h.zero (off + 1) (by omega) (h1 ▸ hbn) (h1 ▸ hne)
  show (byteAt d block off).toNat + 2 ^ 8 * (byteAt d block (off + 1)).toNat = 0
  rw [hzero₀, hzero₁]
  rfl

/-! The search of a block. -/

/-- An entry of a block that matches. -/
def Matches (data : Block) (name : Name) (o : Nat) : Prop :=
  (data.dirent o).inum ≠ 0 ∧ cname name = cname (data.dirent o).name

theorem findEntry_some {o : Nat} (hk : k ≤ bsize / direntSize) (h : findEntry data name k = some o) :
    o % direntSize = 0 ∧ o < bsize ∧ Matches data name o := by
  induction k with
  | zero => cases h
  | succ k ih =>
    rw [findEntry] at h
    split_ifs at h with hmatch
    · rw [← Option.some.inj h]
      refine ⟨?_, ?_, hmatch.1, namecmp_iff.mp hmatch.2⟩
      · simp only [direntSize, bsize] at *
        omega
      · simp only [direntSize, bsize] at *
        omega
    · exact ih (by omega) h

theorem findEntry_none {o : Nat} (hk : k ≤ bsize / direntSize) (h : findEntry data name k = none)
    (ho : o % direntSize = 0) (hlo : bsize - direntSize * k ≤ o) (hhi : o < bsize) : ¬ Matches data name o := by
  induction k with
  | zero =>
    rw [Nat.mul_zero] at hlo
    omega
  | succ k ih =>
    rw [findEntry] at h
    split_ifs at h with hmatch
    by_cases hfirst : o = bsize - direntSize * (k + 1)
    · rw [hfirst]
      exact fun hm => hmatch ⟨hm.1, namecmp_iff.mpr hm.2⟩
    · refine ih (by omega) h ?_
      simp only [direntSize, bsize] at *
      omega

/-- A matching entry of a block of the directory is live. -/
theorem Dir.live_of_match (h : Dir d block) (hoff : off % direntSize = 0) (hbn : off / bsize < maxfile)
    (hne : d.entry block (place (off / bsize)) ≠ 0)
    (hmatch : Matches (block (d.entry block (place (off / bsize)))) name (off % bsize)) :
    liveAt d block off = some (cname name, (dentry d block off).inum) := by
  unfold Matches at hmatch
  rw [← dirent_block hoff] at hmatch
  have hlt : off < d.size := by
    by_contra hge
    exact hmatch.1 (h.beyond (not_lt.mp hge) hoff hbn hne)
  rw [liveAt, if_pos ⟨hoff, hlt, hmatch.1⟩, hmatch.2]

theorem match_of_live {x : Name × Nat} (h : liveAt d block off = some x) (hname : x.1 = cname name) :
    Matches (block (d.entry block (place (off / bsize)))) name (off % bsize) := by
  obtain ⟨hoff, -, hinum, rfl⟩ := liveAt_eq_some h
  unfold Matches
  rw [← dirent_block hoff]
  exact ⟨hinum, hname.symm⟩

/-! References to cached inodes. -/

/-- The disk is the same. -/
structure SameDisk (s t : State n) : Prop where
  used : t.used = s.used
  block : t.block = s.block
  dinode : t.dinode = s.dinode

theorem SameDisk.refl (s : State n) : SameDisk s s := ⟨rfl, rfl, rfl⟩

theorem SameDisk.trans {u : State n} (h : SameDisk s t) (h' : SameDisk t u) : SameDisk s u :=
  ⟨h'.used.trans h.used, h'.block.trans h.block, h'.dinode.trans h.dinode⟩

/-- The inode is in the cache, or there is an empty slot for it. -/
def Room (s : State n) (inum : Nat) : Prop := s.cached inum ≠ none ∨ s.emptySlot ≠ none

/-- What `iget` leaves: one more reference to the slot of the inode. A slot that was empty is not valid. -/
structure Got (s : State n) (inum : Nat) (ip : Slot) (t : State n) : Prop where
  disk : SameDisk s t
  other : ∀ q, q ≠ ip → t.icache q = s.icache q
  num : (t.icache ip).inum = inum
  old : (s.icache ip).ref ≠ 0 → (s.icache ip).inum = inum ∧
    t.icache ip = { s.icache ip with ref := (s.icache ip).ref + 1 }
  new : (s.icache ip).ref = 0 → (∀ q, (s.icache q).ref ≠ 0 → (s.icache q).inum ≠ inum) ∧
    (t.icache ip).ref = 1 ∧ (t.icache ip).valid = false ∧ (t.icache ip).busy = none

theorem Got.ref {ip : Slot} (h : Got s inum ip t) : (t.icache ip).ref = (s.icache ip).ref + 1 := by
  by_cases hzero : (s.icache ip).ref = 0
  · rw [(h.new hzero).2.1, hzero]
  · rw [(h.old hzero).2]

theorem iget_returns (hroom : Room s inum) :
    Prog.Returns (exec p input) (fun ip t => Got s inum ip t) (iget inum) s := by
  cases hcached : s.cached inum with
  | some ip =>
    have hfound := List.find?_some hcached
    simp only [decide_eq_true_eq] at hfound
    refine Prog.Returns.step (o := Op.iget inum) (r := some ip)
      (t := s.setInode ip fun i => { i with ref := i.ref + 1 }) ?_ (Prog.returns_pure ?_)
    · simp only [exec, hcached]
    · refine ⟨⟨rfl, rfl, rfl⟩, fun q hq => setInode_of_ne hq, ?_, fun _ => ⟨hfound.2, setInode_self⟩,
        fun hzero => ?_⟩
      · rw [setInode_self]
        exact hfound.2
      · omega
  | none =>
    obtain ⟨ip, hempty⟩ := Option.ne_none_iff_exists'.mp (hroom.resolve_left fun hsome => hsome hcached)
    have hfound := List.find?_some hempty
    simp only [decide_eq_true_eq] at hfound
    refine Prog.Returns.step (o := Op.iget inum) (r := some ip)
      (t := s.setInode ip fun i => { i with inum := inum, ref := 1, valid := false, busy := none }) ?_
      (Prog.returns_pure ?_)
    · simp only [exec, hcached, hempty]
    · refine ⟨⟨rfl, rfl, rfl⟩, fun q hq => setInode_of_ne hq, ?_, fun hne => absurd hfound hne, fun _ => ⟨?_, ?_⟩⟩
      · rw [setInode_self]
      · intro q hq hinum
        have hnone := List.find?_eq_none.mp hcached q (List.mem_finRange q)
        exact hnone (decide_eq_true ⟨Nat.pos_of_ne_zero hq, hinum⟩)
      · rw [setInode_self]
        exact ⟨rfl, rfl, rfl⟩

/-- `iput` of a reference that is not the last one to an inode without links. -/
theorem iput_drops {ip : Slot}
    (hkeep : ¬ ((s.icache ip).ref = 1 ∧ (s.icache ip).valid = true ∧ (s.icache ip).copy.nlink = 0)) :
    Prog.Returns (exec p input) (fun _ t => t = s.setInode ip fun i => { i with ref := i.ref - 1 }) (iput ip) s := by
  refine Prog.Returns.step (o := Op.put ip) (r := .dropped)
    (t := s.setInode ip fun i => { i with ref := i.ref - 1 }) ?_ ⟨(), _, rfl, rfl⟩
  simp only [exec]
  rw [if_neg hkeep]

/-- A reference just obtained is given back. -/
theorem Got.iput {ip : Slot} (h : Got s inum ip t) :
    Prog.Returns (exec p input) (fun _ u => SameDisk s u ∧ ∀ q, (s.icache q).ref ≠ 0 → u.icache q = s.icache q)
      (Fs.iput ip) t := by
  refine (iput_drops fun hlast => ?_).mono fun _ u hu => ?_
  · by_cases hzero : (s.icache ip).ref = 0
    · rw [(h.new hzero).2.2.1] at hlast
      cases hlast.2.1
    · rw [h.ref] at hlast
      omega
  · rw [hu]
    refine ⟨h.disk.trans ⟨rfl, rfl, rfl⟩, fun q hq => ?_⟩
    by_cases heq : q = ip
    · rw [heq] at hq ⊢
      rw [setInode_self, (h.old hq).2]
      rfl
    · rw [setInode_of_ne heq, h.other q heq]

/-! `dirlookup`. -/

theorem bmap_block (hbn : bn < maxfile) (hne : (s.icache dp).copy.entry s.block (place bn) ≠ 0) :
    Prog.Returns (exec p input) (fun r t => r = (s.icache dp).copy.entry s.block (place bn) ∧ t = s) (bmap sb dp bn) s :=
  bmap_present hbn hne

theorem block_offset {o : Nat} (hoff : off % bsize = 0) (ho : o < bsize) :
    (off + o) / bsize = off / bsize ∧ (off + o) % bsize = o := by
  simp only [bsize] at *
  omega

/-- What a match in a block says about the directory. -/
theorem Dir.found {o : Nat} (h : Dir d block) (hoff : off % bsize = 0) (hin : off < d.size)
    (hfind : findEntry (block (d.entry block (place (off / bsize)))) name (bsize / direntSize) = some o) :
    liveAt d block (off + o) =
      some (cname name, ((block (d.entry block (place (off / bsize)))).dirent o).inum) := by
  obtain ⟨ho, hlt, hmatch⟩ := findEntry_some le_rfl hfind
  obtain ⟨hbn, hne⟩ := h.cover (off / bsize) ((Nat.div_mul_le_self off bsize).trans_lt hin)
  obtain ⟨hdiv, hmod⟩ := block_offset hoff hlt
  have haligned : (off + o) % direntSize = 0 := by
    simp only [bsize, direntSize] at *
    omega
  have hlive := h.live_of_match haligned (hdiv ▸ hbn) (hdiv ▸ hne) (by rw [hdiv, hmod]; exact hmatch)
  rw [dirent_block haligned, hdiv, hmod] at hlive
  exact hlive

/-- A block without a match has no live entry of the name. -/
theorem not_found {off₀ : Nat} {x : Name × Nat} (hoff : off % bsize = 0)
    (hfind : findEntry (block (d.entry block (place (off / bsize)))) name (bsize / direntSize) = none)
    (hlive : liveAt d block off₀ = some x) (hname : x.1 = cname name) (hle : off ≤ off₀) : off + bsize ≤ off₀ := by
  by_contra hlt
  have hdiv : off₀ / bsize = off / bsize := by
    simp only [bsize] at *
    omega
  have hmatch := match_of_live hlive hname
  rw [hdiv] at hmatch
  have haligned := (liveAt_eq_some hlive).1
  refine findEntry_none le_rfl hfind ?_ (Nat.zero_le _) (Nat.mod_lt _ (by decide)) hmatch
  simp only [direntSize, bsize] at *
  omega

theorem lookupLoop_found {x : Name × Nat} {off₀ : Nat} (h : Dir (s.icache dp).copy s.block)
    (hlive : liveAt (s.icache dp).copy s.block off₀ = some x) (hname : x.1 = cname name) (hroom : Room s x.2)
    (hoff : off % bsize = 0) (hle : off ≤ off₀) (hlt : off₀ < off + k * bsize) :
    Prog.Returns (exec p input) (fun r t => ∃ ip, r = some (ip, off₀) ∧ Got s x.2 ip t)
      (lookupLoop sb dp name (s.icache dp).copy.size k off) s := by
  induction k generalizing off with
  | zero => omega
  | succ k ih =>
    have hin : off < (s.icache dp).copy.size := hle.trans_lt (liveAt_eq_some hlive).2.1
    obtain ⟨hbn, hne⟩ := h.cover (off / bsize) ((Nat.div_mul_le_self off bsize).trans_lt hin)
    rw [lookupLoop, if_pos hin]
    refine (bmap_block hbn hne).seq fun addr t hpost => ?_
    obtain ⟨rfl, rfl⟩ := hpost
    refine Prog.Returns.step (o := Op.bread _) rfl ?_
    cases hfind : findEntry (t.block ((t.icache dp).copy.entry t.block (place (off / bsize)))) name
        (bsize / direntSize) with
    | some o =>
      have hfound := h.found hoff hin hfind
      have heq : off + o = off₀ := h.distinct _ _ _ _ hfound hlive hname.symm
      rw [heq, hlive] at hfound
      rw [show x.2 = _ from congrArg Prod.snd (Option.some.inj hfound)] at hroom ⊢
      refine (iget_returns hroom).seq fun ip u hgot => Prog.returns_pure ⟨ip, ?_, hgot⟩
      rw [heq]
    | none =>
      have hnext := not_found hoff hfind hlive hname hle
      rw [Nat.succ_mul] at hlt
      refine ih ?_ hnext (by omega)
      simp only [bsize] at *
      omega

theorem lookupLoop_absent (h : Dir (s.icache dp).copy s.block)
    (habsent : ∀ o x, liveAt (s.icache dp).copy s.block o = some x → x.1 ≠ cname name) (hoff : off % bsize = 0) :
    Prog.Returns (exec p input) (fun r t => r = none ∧ t = s)
      (lookupLoop sb dp name (s.icache dp).copy.size k off) s := by
  induction k generalizing off with
  | zero => exact Prog.returns_pure ⟨rfl, rfl⟩
  | succ k ih =>
    rw [lookupLoop]
    by_cases hin : off < (s.icache dp).copy.size
    · obtain ⟨hbn, hne⟩ := h.cover (off / bsize) ((Nat.div_mul_le_self off bsize).trans_lt hin)
      rw [if_pos hin]
      refine (bmap_block hbn hne).seq fun addr t hpost => ?_
      obtain ⟨rfl, rfl⟩ := hpost
      refine Prog.Returns.step (o := Op.bread _) rfl ?_
      cases hfind : findEntry (t.block ((t.icache dp).copy.entry t.block (place (off / bsize)))) name
          (bsize / direntSize) with
      | some o => exact absurd rfl (habsent _ _ (h.found hoff hin hfind))
      | none =>
        refine ih ?_
        simp only [bsize] at *
        omega
    · rw [if_neg hin]
      exact Prog.returns_pure ⟨rfl, rfl⟩

/-- `dirlookup` of a name that is there. -/
theorem dirlookup_found {x : Name × Nat} (h : Dir (s.icache dp).copy s.block)
    (hlive : liveAt (s.icache dp).copy s.block off = some x) (hname : x.1 = cname name) (hroom : Room s x.2) :
    Prog.Returns (exec p input) (fun r t => ∃ ip, r = some (ip, off) ∧ Got s x.2 ip t) (dirlookup sb dp name) s := by
  refine Prog.Returns.step (o := Op.load dp) rfl ?_
  rw [if_pos h.type]
  refine lookupLoop_found h hlive hname hroom rfl (Nat.zero_le _) ?_
  have hlt := (liveAt_eq_some hlive).2.1
  have hdiv := Nat.div_add_mod' (s.icache dp).copy.size bsize
  have hmod : (s.icache dp).copy.size % bsize < bsize := Nat.mod_lt _ (by decide)
  rw [Nat.zero_add, Nat.succ_mul]
  omega

theorem dirlookup_absent (h : Dir (s.icache dp).copy s.block)
    (habsent : ∀ o x, liveAt (s.icache dp).copy s.block o = some x → x.1 ≠ cname name) :
    Prog.Returns (exec p input) (fun r t => r = none ∧ t = s) (dirlookup sb dp name) s := by
  refine Prog.Returns.step (o := Op.load dp) rfl ?_
  rw [if_pos h.type]
  exact lookupLoop_absent h habsent rfl

end Xv6.Fs
