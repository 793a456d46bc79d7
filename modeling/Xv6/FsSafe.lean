import Xv6.FsSpecs

/-! The functions of `fs.c` on the blocks of an inode. A function that is given a locked inode leaves it
as on disk and settled there, although in between its blocks, its cached copy and the disk differ. -/

namespace Xv6.Fs

open LibProg LibWord Function

variable {n : Nat} {sb : Superblock} {reserved : Nat → Prop} {p : Fin n} {α : Type}
  {post : α → View → Prop} {v w : View} {ip : Slot} {i : Nat} {d : Dinode} {P : Pinned}

/-- Safety of a program of the file system. -/
abbrev FsSafe (n : Nat) (sb : Superblock) (reserved : Nat → Prop) (p : Fin n)
    (post : α → View → Prop) (prog : Code α) (v : View) : Prop :=
  Safe (system n sb) (logic n reserved) p post prog v

/-- The view with a valid inode locked and pinned. -/
def View.locked (v : View) (ip : Slot) (i : Nat) (d : Dinode) (P : Pinned) : View :=
  v.lock ip ⟨i, true, d⟩ P

/-- The process has locked one more inode, which is as on disk and settled. -/
def Holding (v : View) (ip : Slot) (w : View) : Prop :=
  v.held ip = none ∧ ∃ i d blocks, v.pinned i = none ∧ Settled d blocks ∧ w = v.locked ip i d ⟨d, blocks⟩

section Locked

theorem locked_held : (v.locked ip i d P).held ip = some ⟨i, true, d⟩ := update_self _ _ _

theorem locked_pinned : (v.locked ip i d P).pinned i = some P := update_self _ _ _

theorem locked_held_of_ne {jp : Slot} (h : jp ≠ ip) : (v.locked ip i d P).held jp = v.held jp :=
  update_of_ne h _ _

theorem locked_pinned_of_ne {j : Nat} (h : j ≠ i) : (v.locked ip i d P).pinned j = v.pinned j :=
  update_of_ne h _ _

theorem locked_setHeld {d' : Dinode} :
    (v.locked ip i d P).setHeld ip (some ⟨i, true, d'⟩) = v.locked ip i d' P := by
  simp [View.locked, View.lock, View.setHeld, View.setPinned]

theorem locked_setPinned {P' : Pinned} :
    (v.locked ip i d P).setPinned i (some P') = v.locked ip i d P' := by
  simp [View.locked, View.lock, View.setPinned]

theorem locked_unlock (hheld : v.held ip = none) (hpinned : v.pinned i = none) :
    ((v.locked ip i d P).setHeld ip none).setPinned i none = v := by
  simp only [View.locked, View.lock, View.setHeld, View.setPinned, update_idem]
  rw [← hheld, update_eq_self, ← hpinned, update_eq_self]

end Locked

/-! Accesses to a locked inode. -/

theorem safe_load {k : Cached → Code α} {c : Cached} (hc : w.held ip = some c)
    (hk : FsSafe n sb reserved p post (k c) w) : FsSafe n sb reserved p post (load ip >>= k) w := by
  refine Safe.step (spec_load ip) trivial fun r u hu => ?_
  obtain ⟨rfl, hr⟩ := hu
  rw [hr c hc]
  exact hk

theorem safe_load_any {k : Cached → Code α} (hk : ∀ c, FsSafe n sb reserved p post (k c) w) :
    FsSafe n sb reserved p post (load ip >>= k) w := by
  refine Safe.step (spec_load ip) trivial fun r u hu => ?_
  rw [hu.1]
  exact hk r

theorem safe_store {k : Unit → Code α} {d' : Dinode}
    (hk : FsSafe n sb reserved p post (k ()) (v.locked ip i d' P)) :
    FsSafe n sb reserved p post (store ip d' >>= k) (v.locked ip i d P) := by
  refine Safe.step (spec_store ip d' _) locked_held fun _ u hu => ?_
  rw [hu, locked_setHeld]
  exact hk

theorem safe_bread {k : Block → Code α} {b : Nat} {data : Block} (hP : w.pinned i = some P)
    (hdata : P.blocks b = some data) (hk : FsSafe n sb reserved p post (k data) w) :
    FsSafe n sb reserved p post (bread b >>= k) w := by
  refine Safe.step (spec_bread b) trivial fun r u hu => ?_
  obtain ⟨rfl, hr⟩ := hu
  rw [hr i P data hP hdata]
  exact hk

theorem safe_iupdate (hd : d.type ≠ .free) :
    FsSafe n sb reserved p (fun _ u => u = v.locked ip i d { P with dinode := d }) (iupdate ip)
      (v.locked ip i d P) := by
  refine safe_load locked_held ((Safe.perform (spec_writeDinode i d P hd) locked_pinned).mono ?_)
  intro _ u hu
  rw [hu, locked_setPinned]

/-! Blocks. -/

theorem safe_ballocFrom (h0 : reserved 0) (hP : w.pinned i = some P) (k b : Nat)
    (hb : b + k * bpb ≤ uintSize) :
    FsSafe n sb reserved p (fun r u => r ≠ 0 ∧ r < uintSize ∧ P.blocks r = none ∧
      u = w.setPinned i (some { P with blocks := update P.blocks r (some Block.zero) }))
      (ballocFrom k b) w := by
  induction k generalizing b with
  | zero => exact safe_panic.mpr (by simp [logic])
  | succ k ih =>
    refine Safe.step (spec_allocBit h0 b i P) hP fun r u hu => ?_
    rw [Nat.succ_mul] at hb
    rcases hu with ⟨rfl, rfl⟩ | ⟨a, rfl, ha0, halt, hnone, rfl⟩
    · exact ih (b + bpb) (by omega)
    · exact safe_pure.mpr ⟨ha0, by omega, hnone, rfl⟩

theorem safe_balloc (h0 : reserved 0) (hP : w.pinned i = some P) :
    FsSafe n sb reserved p (fun r u => r ≠ 0 ∧ r < uintSize ∧ P.blocks r = none ∧
      u = w.setPinned i (some { P with blocks := update P.blocks r (some Block.zero) }))
      (balloc sb) w := by
  refine safe_ballocFrom h0 hP _ 0 ?_
  have hsize := sb.size_le
  simp only [bpb, bsize, uintSize]
  omega

theorem safe_bzero {b : Nat} (hP : w.pinned i = some P) (hb : P.blocks b ≠ none) :
    FsSafe n sb reserved p (fun _ u =>
      u = w.setPinned i (some { P with blocks := update P.blocks b (some Block.zero) }))
      (bzero b) w := by
  obtain ⟨data, hdata⟩ := Option.ne_none_iff_exists'.mp hb
  exact safe_bread hP hdata (Safe.perform (spec_bwrite b Block.zero i P hb) hP)

theorem safe_bfree {b : Nat} (hP : w.pinned i = some P) (hb : P.blocks b ≠ none) :
    FsSafe n sb reserved p (fun _ u =>
      u = w.setPinned i (some { P with blocks := update P.blocks b none })) (bfree b) w := by
  refine (safe_bzero hP hb).seq ?_
  rintro _ u rfl
  refine Safe.step (spec_clearBit b i _ (update_self _ _ _))
    (update_self _ _ _) fun r u hu => ?_
  obtain ⟨rfl, rfl⟩ := hu
  refine safe_pure.mpr ?_
  simp [View.setPinned]

/-! Inode contents. -/

section Contents

variable {dd : Dinode} {blocks : Nat → Option Block}

/-- An inode may have got more blocks. -/
structure Extends (d : Dinode) (blocks : Nat → Option Block) (d' : Dinode)
    (blocks' : Nat → Option Block) : Prop where
  type : d'.type = d.type
  size : d'.size = d.size
  owns : Owns (d'.entry (contents blocks')) blocks'
  entry : ∀ k, d.entry (contents blocks) k ≠ 0 →
    d'.entry (contents blocks') k = d.entry (contents blocks) k

theorem Extends.refl (howns : Owns (d.entry (contents blocks)) blocks) : Extends d blocks d blocks :=
  ⟨rfl, rfl, howns, fun _ _ => rfl⟩

theorem Extends.trans {d₁ d₂ : Dinode} {blocks₁ blocks₂ : Nat → Option Block}
    (h₁ : Extends d blocks d₁ blocks₁) (h₂ : Extends d₁ blocks₁ d₂ blocks₂) :
    Extends d blocks d₂ blocks₂ := by
  refine ⟨h₂.type.trans h₁.type, h₂.size.trans h₁.size, h₂.owns, fun k hk => ?_⟩
  have hk₁ := h₁.entry k hk
  rw [h₂.entry k (hk₁ ▸ hk), hk₁]

/-- A new block does not touch the indirect block. -/
theorem entry_new {b : Nat} {data : Block} (howns : Owns (d.entry (contents blocks)) blocks)
    (hnew : blocks b = none) :
    d.entry (contents (update blocks b (some data))) = d.entry (contents blocks) := by
  refine entry_congr fun hne => ?_
  have howned : blocks (d.addrs ndirect) ≠ none := by
    rw [howns.owned]
    exact ⟨hne, ndirect, by decide, entry_of_le (Nat.le_refl _)⟩
  rw [contents_update, update_of_ne]
  rintro rfl
  exact howned hnew

/-- An entry of `addrs` gets a new block. -/
theorem entry_direct {k b : Nat} (hk : k ≤ ndirect) (howns : Owns (d.entry (contents blocks)) blocks)
    (hzero : d.addrs k = 0) (hnew : blocks b = none) :
    (d.setAddr k b).entry (contents (update blocks b (some Block.zero))) =
      update (d.entry (contents blocks)) k b := by
  rw [← entry_new howns hnew]
  rcases Nat.lt_or_eq_of_le hk with hlt | rfl
  · exact entry_setAddr hlt
  · exact entry_setAddr_last hzero (contents_of_some (update_self _ _ _))

theorem Extends.direct {k b : Nat} (hk : k ≤ ndirect)
    (howns : Owns (d.entry (contents blocks)) blocks) (hzero : d.addrs k = 0) (hb : b ≠ 0)
    (hnew : blocks b = none) :
    Extends d blocks (d.setAddr k b) (update blocks b (some Block.zero)) := by
  have hentry := entry_direct hk howns hzero hnew
  have hplace : k < places := Nat.lt_of_le_of_lt hk (by decide)
  have hold : d.entry (contents blocks) k = 0 := (entry_of_le hk).trans hzero
  refine ⟨rfl, rfl, ?_, fun l hl => ?_⟩
  · rw [hentry]
    exact howns.alloc hplace hold hb hnew
  · rw [hentry, update_of_ne]
    rintro rfl
    exact hl hold

/-- A word of the indirect block gets a new block. -/
theorem entry_indirect {j b : Nat} {data : Block} (howns : Owns (d.entry (contents blocks)) blocks)
    (hd : d.addrs ndirect ≠ 0) (hdata : blocks (d.addrs ndirect) = some data) (hlt : b < uintSize)
    (hnew : blocks b = none) :
    d.entry (contents (update (update blocks b (some Block.zero)) (d.addrs ndirect)
      (some (data.setWord j b)))) =
      update (d.entry (contents blocks)) (ndirect + 1 + j) b := by
  have hne : d.addrs ndirect ≠ b := by
    rintro rfl
    rw [hnew] at hdata
    cases hdata
  have hblock : contents (update blocks b (some Block.zero)) (d.addrs ndirect) = data :=
    contents_of_some (by rw [update_of_ne hne, hdata])
  rw [contents_update, ← hblock, entry_setWord hd hlt, entry_new howns hnew]

theorem Extends.indirect {j b : Nat} {data : Block} (hj : j < nindirect)
    (howns : Owns (d.entry (contents blocks)) blocks) (hd : d.addrs ndirect ≠ 0)
    (hdata : blocks (d.addrs ndirect) = some data) (hzero : data.word j = 0) (hb : b ≠ 0)
    (hlt : b < uintSize) (hnew : blocks b = none) :
    Extends d blocks d (update (update blocks b (some Block.zero)) (d.addrs ndirect)
      (some (data.setWord j b))) := by
  have hentry := entry_indirect (j := j) howns hd hdata hlt hnew
  have hold : d.entry (contents blocks) (ndirect + 1 + j) = 0 := by
    rw [entry_word hd, contents_of_some hdata, hzero]
  have hplace : ndirect + 1 + j < places := Nat.add_lt_add_left hj _
  refine ⟨rfl, rfl, ?_, fun l hl => ?_⟩
  · rw [hentry]
    refine (howns.alloc hplace hold hb hnew).write ?_
    by_cases hne : d.addrs ndirect = b
    · simp [hne]
    · simp [update_of_ne hne, hdata]
  · rw [hentry, update_of_ne]
    rintro rfl
    exact hl hold

theorem safe_direct (h0 : reserved 0) {k : Nat} (hk : k ≤ ndirect)
    (howns : Owns (d.entry (contents blocks)) blocks) :
    FsSafe n sb reserved p (fun r u => ∃ d' blocks', Extends d blocks d' blocks' ∧ r = d'.addrs k ∧
      r ≠ 0 ∧ (d.addrs k ≠ 0 → d' = d ∧ blocks' = blocks) ∧ u = v.locked ip i d' ⟨dd, blocks'⟩)
      (direct sb ip k) (v.locked ip i d ⟨dd, blocks⟩) := by
  refine safe_load locked_held ?_
  split
  · rename_i hzero
    refine (safe_balloc h0 locked_pinned).seq ?_
    rintro b u ⟨hb, -, hnew, rfl⟩
    rw [locked_setPinned]
    refine safe_store (safe_pure.mpr ?_)
    exact ⟨_, _, Extends.direct hk howns hzero hb hnew, setAddr_self.symm, hb, fun h => absurd hzero h,
      rfl⟩
  · rename_i hne
    exact safe_pure.mpr ⟨d, blocks, .refl howns, rfl, hne, fun _ => ⟨rfl, rfl⟩, rfl⟩

theorem safe_bmap (h0 : reserved 0) (howns : Owns (d.entry (contents blocks)) blocks) (bn : Nat) :
    FsSafe n sb reserved p (fun r u => bn < maxfile ∧ ∃ d' blocks', Extends d blocks d' blocks' ∧
      r = d'.entry (contents blocks') (place bn) ∧ r ≠ 0 ∧
      (d.entry (contents blocks) (place bn) ≠ 0 → d' = d ∧ blocks' = blocks) ∧
      u = v.locked ip i d' ⟨dd, blocks'⟩) (bmap sb ip bn) (v.locked ip i d ⟨dd, blocks⟩) := by
  unfold bmap
  split
  · rename_i hbn
    have hplace : place bn = bn := if_pos hbn
    refine (safe_direct h0 (Nat.le_of_lt hbn) howns).mono ?_
    rintro r u ⟨d', blocks', hext, hr, hr0, hsame, hu⟩
    rw [hplace, entry_of_le (Nat.le_of_lt hbn)]
    exact ⟨Nat.lt_of_lt_of_le hbn (by decide), d', blocks', hext,
      hr.trans (entry_of_le (Nat.le_of_lt hbn)).symm, hr0, hsame, hu⟩
  · rename_i hge
    split
    · rename_i hlt
      have hplace : place bn = ndirect + 1 + (bn - ndirect) := by
        rw [place, if_neg hge]
        omega
      have hmax : bn < maxfile := by
        simp only [maxfile]
        omega
      refine (safe_direct h0 (Nat.le_refl _) howns).seq ?_
      rintro ind u ⟨d₁, blocks₁, hext, rfl, hind, hsame, rfl⟩
      -- the indirect block is owned, and its words are the entries
      have hlast : d₁.entry (contents blocks₁) ndirect ≠ 0 := by rwa [entry_of_le (Nat.le_refl _)]
      obtain ⟨data, hdata⟩ := hext.owns.isSome (by decide) hlast
      rw [entry_of_le (Nat.le_refl _)] at hdata
      have hword : d₁.entry (contents blocks₁) (place bn) = data.word (bn - ndirect) := by
        rw [hplace, entry_word hind, contents_of_some hdata]
      have hsame' : d.entry (contents blocks) (place bn) ≠ 0 → d₁ = d ∧ blocks₁ = blocks := by
        intro hne
        refine hsame fun hzero => hne (entry_none hzero ?_)
        rw [hplace]
        omega
      refine safe_bread locked_pinned hdata ?_
      split
      · rename_i hzero
        refine (safe_balloc h0 locked_pinned).seq ?_
        rintro b u ⟨hb, hbound, hnew, rfl⟩
        rw [locked_setPinned]
        have howned : update blocks₁ b (some Block.zero) (d₁.addrs ndirect) ≠ none := by
          by_cases hbi : d₁.addrs ndirect = b
          · simp [hbi]
          · simp [update_of_ne hbi, hdata]
        refine Safe.step (spec_bwrite _ _ i _ howned) locked_pinned fun _ u hu => ?_
        rw [hu, locked_setPinned]
        refine safe_pure.mpr ⟨hmax, d₁, _,
          hext.trans (.indirect hlt hext.owns hind hdata hzero hb hbound hnew), ?_, hb, fun hne => ?_, rfl⟩
        · rw [hplace, entry_indirect hext.owns hind hdata hbound hnew, update_self]
        · obtain ⟨rfl, rfl⟩ := hsame' hne
          exact absurd (hword.trans hzero) hne
      · rename_i hne
        exact safe_pure.mpr ⟨hmax, d₁, blocks₁, hext, hword.symm, hne, hsame', rfl⟩
    · exact safe_panic.mpr (by simp [logic])

/-- Within the size of a settled inode `bmap` allocates nothing. -/
theorem safe_bmap_covered (h0 : reserved 0) (hd : Settled d blocks) {bn : Nat}
    (hbn : bn * bsize < d.size) :
    FsSafe n sb reserved p (fun r u => r = d.entry (contents blocks) (place bn) ∧ r ≠ 0 ∧ bn < maxfile ∧
      u = v.locked ip i d ⟨d, blocks⟩) (bmap sb ip bn) (v.locked ip i d ⟨d, blocks⟩) := by
  refine (safe_bmap h0 hd.owns bn).mono ?_
  rintro r u ⟨hmax, d', blocks', -, hr, hr0, hsame, hu⟩
  obtain ⟨rfl, rfl⟩ := hsame (hd.cover bn hbn).2
  exact ⟨hr, hr0, hmax, hu⟩

/-! Locks. -/

theorem safe_ilock (hrefs : 0 < w.refs ip) :
    FsSafe n sb reserved p (fun _ => Holding w ip) (ilock ip) w := by
  refine Safe.step (spec_lock ip) hrefs fun r u hu => ?_
  obtain ⟨rfl, hheld, ⟨inum, valid, copy⟩, hpinned, ⟨hvalid, rfl⟩ | ⟨⟨dd, blocks⟩, htidy, rfl⟩⟩ := hu
  · dsimp only at hvalid hpinned
    subst hvalid
    have hself : (w.setHeld ip (some ⟨inum, false, copy⟩)).held ip = some ⟨inum, false, copy⟩ :=
      update_self _ _ _
    refine safe_load hself ?_
    refine Safe.step (spec_readDinode ip ⟨inum, false, copy⟩) ⟨hself, hpinned⟩ fun d u hu => ?_
    rcases hu with ⟨hfree, rfl⟩ | ⟨⟨dd, blocks⟩, rfl, hsettled, rfl⟩
    · refine Safe.step (spec_store ip d _) hself fun _ u hu => ?_
      subst hu
      refine Safe.step (spec_setValid ip _) (update_self _ _ _) fun _ u _ => ?_
      rw [if_pos hfree]
      exact safe_panic.mpr (by simp [logic])
    · refine Safe.step (spec_store ip _ _) hself fun _ u hu => ?_
      subst hu
      refine Safe.step (spec_setValid ip _) (update_self _ _ _) fun _ u hu => ?_
      subst hu
      rw [if_neg hsettled.type_ne]
      refine safe_pure.mpr ⟨hheld, inum, dd, blocks, hpinned, hsettled, ?_⟩
      simp [View.locked, View.lock, View.setHeld, View.setPinned]
  · obtain ⟨hvalid, hdinode, hsettled⟩ := htidy
    dsimp only at hvalid hdinode hsettled hpinned
    subst hvalid hdinode
    refine safe_load locked_held (safe_pure.mpr ?_)
    exact ⟨hheld, inum, _, blocks, hpinned, hsettled, rfl⟩

theorem safe_iunlock (h : Holding v ip w) : FsSafe n sb reserved p (fun _ u => u = v) (iunlock ip) w := by
  obtain ⟨hheld, i, d, blocks, hpinned, hsettled, rfl⟩ := h
  refine Safe.step (spec_unlock ip ⟨i, true, d⟩ ⟨d, blocks⟩)
    ⟨locked_held, locked_pinned, rfl, rfl, hsettled⟩ fun r u hu => ?_
  obtain ⟨rfl, rfl⟩ := hu
  exact safe_pure.mpr (locked_unlock hheld hpinned)

theorem safe_relock (h : Holding v ip w) (hrefs : 0 < v.refs ip) {k : Unit → Code α}
    (hk : ∀ u, Holding v ip u → FsSafe n sb reserved p post (k ()) u) :
    FsSafe n sb reserved p post (iunlock ip >>= fun _ => ilock ip >>= k) w := by
  refine (safe_iunlock h).seq ?_
  rintro _ u rfl
  exact (safe_ilock hrefs).seq fun _ u hu => hk u hu

/-! Reading and writing. -/

theorem safe_readLoop (h0 : reserved 0) (hd : Settled d blocks) (k off m : Nat)
    (hsize : off + m ≤ d.size) :
    FsSafe n sb reserved p (fun _ u => u = v.locked ip i d ⟨d, blocks⟩) (readLoop sb ip k off m)
      (v.locked ip i d ⟨d, blocks⟩) := by
  induction k generalizing off m with
  | zero => exact safe_pure.mpr rfl
  | succ k ih =>
    unfold readLoop
    split
    · exact safe_pure.mpr rfl
    · have hlt : off / bsize * bsize < d.size :=
        Nat.lt_of_le_of_lt (Nat.div_mul_le_self off bsize) (by omega)
      refine (safe_bmap_covered h0 hd hlt).seq ?_
      rintro addr u ⟨rfl, hne, hmax, rfl⟩
      obtain ⟨data, hdata⟩ := hd.owns.isSome (place_lt hmax) hne
      refine safe_bread locked_pinned hdata ?_
      refine (ih _ _ (by omega)).seq ?_
      rintro _ u rfl
      exact safe_pure.mpr rfl

theorem safe_readi (h0 : reserved 0) (h : Holding v ip w) (hrefs : 0 < v.refs ip) (off m : Nat) :
    FsSafe n sb reserved p (fun _ => Holding v ip) (readi sb ip off m) w := by
  have hw := h
  obtain ⟨hheld, i, d, blocks, hpinned, hsettled, rfl⟩ := h
  refine safe_load locked_held ?_
  dsimp only
  split
  · split
    · exact safe_pure.mpr hw
    · refine (safe_iunlock hw).seq ?_
      rintro _ u rfl
      refine Safe.step (spec_console _) trivial fun bytes u hu => ?_
      subst hu
      exact (safe_ilock hrefs).seq fun _ u hu => safe_pure.mpr hu
  · split
    · exact safe_pure.mpr hw
    · rename_i hcheck
      refine (safe_readLoop h0 hsettled _ off _ ?_).seq ?_
      · split <;> omega
      · rintro _ u rfl
        exact safe_pure.mpr hw

/-- An inode in the middle of `writei`: all blocks before `off` exist, and if the copy is not as on
disk then the size will have to be written. -/
structure Filling (dd d : Dinode) (blocks : Nat → Option Block) (off : Nat) : Prop where
  type_ne : d.type ≠ .free
  owns : Owns (d.entry (contents blocks)) blocks
  cover : ∀ bn, bn * bsize < d.size → bn < maxfile ∧ d.entry (contents blocks) (place bn) ≠ 0
  below : ∀ bn, bn * bsize < off → bn < maxfile ∧ d.entry (contents blocks) (place bn) ≠ 0
  same : d = dd ∨ d.size < off

/-- One iteration of the loop of `writei`. -/
theorem Filling.next {d' : Dinode} {blocks' : Nat → Option Block} {off m : Nat} {data : Block}
    (h : Filling dd d blocks off) (hm : 0 < m) (hend : off + m ≤ (off / bsize + 1) * bsize)
    (hmax : off / bsize < maxfile) (hext : Extends d blocks d' blocks')
    (hne : d'.entry (contents blocks') (place (off / bsize)) ≠ 0)
    (hsame : d.entry (contents blocks) (place (off / bsize)) ≠ 0 → d' = d ∧ blocks' = blocks) :
    Filling dd d' (update blocks' (d'.entry (contents blocks') (place (off / bsize)))
      (some data)) (off + m) := by
  -- the block written is not the indirect block
  have hlast := (hext.owns.entry_ne_last hmax hne).symm
  have hentry : d'.entry (contents (update blocks'
      (d'.entry (contents blocks') (place (off / bsize))) (some data))) = d'.entry (contents blocks') := by
    refine entry_congr fun _ => ?_
    rw [contents_update, update_of_ne hlast]
  have hkeep : ∀ bn, d.entry (contents blocks) (place bn) ≠ 0 →
      d'.entry (contents blocks') (place bn) ≠ 0 := fun bn hbn => hext.entry _ hbn ▸ hbn
  refine ⟨hext.type ▸ h.type_ne, ?_, ?_, ?_, ?_⟩
  · rw [hentry]
    exact hext.owns.write (hext.owns.ne_none (place_lt hmax) hne)
  · intro bn hbn
    rw [hentry]
    obtain ⟨hlt, hold⟩ := h.cover bn (hext.size ▸ hbn)
    exact ⟨hlt, hkeep bn hold⟩
  · intro bn hbn
    rw [hentry]
    have hle : bn < off / bsize + 1 :=
      Nat.lt_of_mul_lt_mul_right (Nat.lt_of_lt_of_le hbn hend)
    rcases Nat.lt_or_eq_of_le (Nat.le_of_lt_succ hle) with hlt | rfl
    · have hoff : bn * bsize < off :=
        Nat.lt_of_lt_of_le (Nat.mul_lt_mul_of_pos_right hlt (by decide)) (Nat.div_mul_le_self off bsize)
      obtain ⟨hlt, hold⟩ := h.below bn hoff
      exact ⟨hlt, hkeep bn hold⟩
    · exact ⟨hmax, hne⟩
  · by_cases hold : d.entry (contents blocks) (place (off / bsize)) = 0
    · right
      have hsize : ¬ off / bsize * bsize < d.size := fun hlt => (h.cover _ hlt).2 hold
      have hdiv := Nat.div_mul_le_self off bsize
      rw [hext.size]
      omega
    · obtain ⟨rfl, rfl⟩ := hsame hold
      exact h.same.imp_right fun hlt => by omega

theorem chunk_le (off m : Nat) :
    off + min m (bsize - off % bsize) ≤ (off / bsize + 1) * bsize := by
  have hmod := Nat.div_add_mod off bsize
  have hlt := Nat.mod_lt off (show bsize > 0 by decide)
  rw [Nat.succ_mul, Nat.mul_comm]
  omega

theorem safe_writeLoop (h0 : reserved 0) (k : Nat) (src : Nat → UInt8) (off m : Nat)
    (h : Filling dd d blocks off) :
    FsSafe n sb reserved p (fun off' u => ∃ d' blocks', Filling dd d' blocks' off' ∧
      u = v.locked ip i d' ⟨dd, blocks'⟩) (writeLoop sb ip k src off m)
      (v.locked ip i d ⟨dd, blocks⟩) := by
  induction k generalizing src off m d blocks with
  | zero => exact safe_pure.mpr ⟨d, blocks, h, rfl⟩
  | succ k ih =>
    unfold writeLoop
    split
    · exact safe_pure.mpr ⟨d, blocks, h, rfl⟩
    · rename_i hm
      refine (safe_bmap h0 h.owns (off / bsize)).seq ?_
      rintro addr u ⟨hmax, d', blocks', hext, rfl, hne, hsame, rfl⟩
      obtain ⟨data, hdata⟩ := hext.owns.isSome (place_lt hmax) hne
      refine safe_bread locked_pinned hdata ?_
      have hsome := hext.owns.ne_none (place_lt hmax) hne
      refine Safe.step (spec_bwrite _ _ i ⟨dd, blocks'⟩ hsome) locked_pinned fun _ u hu => ?_
      rw [hu, locked_setPinned]
      have hlt := Nat.mod_lt off (show bsize > 0 by decide)
      exact ih _ _ _ (h.next (by omega) (chunk_le off m) hmax hext hne hsame)

theorem safe_grow {off m : Nat} (h : Filling dd d blocks off) (hm : 0 < m ∨ d = dd)
    (hheld : v.held ip = none) (hpinned : v.pinned i = none) :
    FsSafe n sb reserved p (fun _ => Holding v ip) (grow ip off m) (v.locked ip i d ⟨dd, blocks⟩) := by
  refine safe_load locked_held ?_
  dsimp only
  split
  · rename_i hgrow
    refine safe_store ?_
    refine (safe_iupdate (d := { d with size := off }) h.type_ne).seq ?_
    rintro _ u rfl
    exact safe_pure.mpr ⟨hheld, i, { d with size := off }, blocks, hpinned,
      ⟨h.type_ne, h.owns, h.below⟩, rfl⟩
  · rename_i hsmall
    have hsame : d = dd := by
      rcases hm with hm | hm
      · exact h.same.resolve_right fun hlt => hsmall ⟨hm, hlt⟩
      · exact hm
    subst hsame
    exact safe_pure.mpr ⟨hheld, i, d, blocks, hpinned, ⟨h.type_ne, h.owns, h.cover⟩, rfl⟩

theorem safe_writei (h0 : reserved 0) (h : Holding v ip w) (hrefs : 0 < v.refs ip)
    (src : Nat → UInt8) (off m : Nat) :
    FsSafe n sb reserved p (fun _ => Holding v ip) (writei sb ip src off m) w := by
  have hw := h
  obtain ⟨hheld, i, d, blocks, hpinned, hsettled, rfl⟩ := h
  refine safe_load locked_held ?_
  dsimp only
  split
  · split
    · exact safe_pure.mpr hw
    · exact safe_relock hw hrefs fun u hu => safe_pure.mpr hu
  · split
    · exact safe_pure.mpr hw
    · rename_i hcheck
      have hfill : Filling d d blocks off :=
        ⟨hsettled.type_ne, hsettled.owns, hsettled.cover, fun bn hbn => hsettled.cover bn (by omega),
          .inl rfl⟩
      generalize (if maxfile * bsize < off + m then sub32 (maxfile * bsize) off else m) = m'
      rcases Nat.eq_zero_or_pos m' with rfl | hm
      · exact safe_grow hfill (.inr rfl) hheld hpinned
      · refine (safe_writeLoop h0 m' src off m' hfill).seq ?_
        rintro off' u ⟨d', blocks', hfill', rfl⟩
        exact safe_grow hfill' (.inl hm) hheld hpinned

/-! Truncation. -/

theorem safe_truncDirect (k : Nat) (hk : k ≤ ndirect)
    (howns : Owns (d.entry (contents blocks)) blocks) (hdone : ∀ j, j < ndirect - k → d.addrs j = 0) :
    FsSafe n sb reserved p (fun _ u => ∃ d' blocks', d'.type = d.type ∧
      Owns (d'.entry (contents blocks')) blocks' ∧ (∀ j, j < ndirect → d'.addrs j = 0) ∧
      u = v.locked ip i d' ⟨dd, blocks'⟩) (truncDirect ip k) (v.locked ip i d ⟨dd, blocks⟩) := by
  induction k generalizing d blocks with
  | zero => exact safe_pure.mpr ⟨d, blocks, rfl, howns, hdone, rfl⟩
  | succ k ih =>
    have hj : ndirect - (k + 1) < ndirect := by omega
    refine safe_load locked_held ?_
    split
    · rename_i hne
      dsimp only at hne
      have hself : d.entry (contents blocks) (ndirect - (k + 1)) = d.addrs (ndirect - (k + 1)) :=
        entry_of_le (Nat.le_of_lt hj)
      have hplace : ndirect - (k + 1) < places := Nat.lt_trans hj (by decide)
      have hsome := howns.ne_none hplace (hself ▸ hne)
      have hfree := howns.free hplace (hself ▸ hne)
      rw [hself] at hsome hfree
      refine (safe_bfree locked_pinned hsome).seq ?_
      rintro _ u rfl
      rw [locked_setPinned]
      refine safe_store ?_
      -- the block freed is not the indirect block
      have hentry : d.entry (contents (update blocks (d.addrs (ndirect - (k + 1))) none)) =
          d.entry (contents blocks) := by
        refine entry_congr fun hlast => ?_
        rw [contents, update_of_ne, contents]
        intro heq
        have hindirect : d.entry (contents blocks) ndirect = d.addrs ndirect :=
          entry_of_le (Nat.le_refl _)
        have := howns.distinct ndirect _ (by decide) hplace (hindirect ▸ hlast)
          (hindirect.trans (heq.trans hself.symm))
        omega
      refine ih (d := d.setAddr (ndirect - (k + 1)) 0) (by omega) ?_ fun j hjlt => ?_
      · rw [entry_setAddr hj, hentry]
        exact hfree
      · by_cases hjk : j = ndirect - (k + 1)
        · rw [hjk, setAddr_self]
        · rw [setAddr_of_ne hjk]
          exact hdone j (by omega)
    · grind

/-- The words of the indirect block are freed from the first on; the entries stand for what is left. -/
theorem safe_truncIndirect {data : Block} {entry : Nat → Nat} (k : Nat) (hk : k ≤ nindirect)
    (hP : w.pinned i = some ⟨dd, blocks⟩) (howns : Owns entry blocks)
    (hdone : ∀ j, j < nindirect - k → entry (ndirect + 1 + j) = 0)
    (hleft : ∀ j, nindirect - k ≤ j → j < nindirect → entry (ndirect + 1 + j) = data.word j) :
    FsSafe n sb reserved p (fun _ u => ∃ entry' blocks', Owns entry' blocks' ∧
      (∀ j, j ≤ ndirect → entry' j = entry j) ∧ (∀ j, j < nindirect → entry' (ndirect + 1 + j) = 0) ∧
      u = w.setPinned i (some ⟨dd, blocks'⟩)) (truncIndirect data k) w := by
  induction k generalizing w blocks entry with
  | zero =>
    refine safe_pure.mpr ⟨entry, blocks, howns, fun _ _ => rfl, hdone, ?_⟩
    rw [View.setPinned, ← hP, update_eq_self]
  | succ k ih =>
    have hnext := hleft (nindirect - (k + 1)) (Nat.le_refl _) (by omega)
    unfold truncIndirect
    split
    · rename_i hne
      have hplace : ndirect + 1 + (nindirect - (k + 1)) < places := by
        simp only [places]
        omega
      have hsome := howns.ne_none hplace (hnext ▸ hne)
      have hfree := howns.free hplace (hnext ▸ hne)
      rw [hnext] at hsome hfree
      refine (safe_bfree hP hsome).seq ?_
      rintro _ u rfl
      refine (ih (by omega) (update_self _ _ _) hfree ?_ ?_).mono ?_
      · grind
      · intro j hjk hj
        rw [update_of_ne (by omega)]
        exact hleft j (by omega) hj
      · rintro _ u ⟨entry', blocks', howns', hdirect, hdone', rfl⟩
        refine ⟨entry', blocks', howns', fun j hj => ?_, hdone', ?_⟩
        · rw [hdirect j hj, update_of_ne (by omega)]
        · simp [View.setPinned]
    · grind

theorem Owns.eq_none {entry : Nat → Nat} (h : Owns entry blocks)
    (hzero : ∀ k, k < places → entry k = 0) (b : Nat) : blocks b = none := by
  by_contra hne
  obtain ⟨hb, k, hk, he⟩ := (h.owned b).mp hne
  exact hb (he ▸ hzero k hk)

theorem entry_zero {entry : Nat → Nat} (hdirect : ∀ j, j ≤ ndirect → entry j = 0)
    (hindirect : ∀ j, j < nindirect → entry (ndirect + 1 + j) = 0) (k : Nat) (hk : k < places) :
    entry k = 0 := by
  by_cases hle : k ≤ ndirect
  · exact hdirect k hle
  · obtain ⟨j, rfl⟩ : ∃ j, k = ndirect + 1 + j := ⟨k - (ndirect + 1), by omega⟩
    exact hindirect j (by simp only [places] at hk; omega)

theorem safe_truncLast (howns : Owns (d.entry (contents blocks)) blocks)
    (hdirect : ∀ j, j < ndirect → d.addrs j = 0) :
    FsSafe n sb reserved p (fun _ u => ∃ d' blocks', d'.type = d.type ∧ (∀ b, blocks' b = none) ∧
      u = v.locked ip i d' ⟨dd, blocks'⟩) (truncLast ip) (v.locked ip i d ⟨dd, blocks⟩) := by
  have hlast : d.entry (contents blocks) ndirect = d.addrs ndirect := entry_of_le (Nat.le_refl _)
  refine safe_load locked_held ?_
  dsimp only
  split
  · rename_i hne
    obtain ⟨data, hdata⟩ := howns.isSome (k := ndirect) (by decide) (hlast ▸ hne)
    rw [hlast] at hdata
    refine safe_bread locked_pinned hdata ?_
    have hword : ∀ j, nindirect - nindirect ≤ j → j < nindirect →
        d.entry (contents blocks) (ndirect + 1 + j) = data.word j := by
      intro j _ _
      rw [entry_word hne, contents_of_some hdata]
    refine (safe_truncIndirect nindirect (Nat.le_refl _) locked_pinned howns
      (fun j hj => absurd hj (by omega)) hword).seq ?_
    rintro _ u ⟨entry', blocks', howns', hsame, hzero, rfl⟩
    rw [locked_setPinned]
    have hlast' : entry' ndirect = d.addrs ndirect := (hsame _ (Nat.le_refl _)).trans hlast
    have hfree := howns'.free (k := ndirect) (by decide) (hlast' ▸ hne)
    have hsome := howns'.ne_none (k := ndirect) (by decide) (hlast' ▸ hne)
    rw [hlast'] at hsome hfree
    refine (safe_bfree locked_pinned hsome).seq ?_
    rintro _ u rfl
    rw [locked_setPinned]
    refine Safe.step (spec_store ip _ _) locked_held fun _ u hu => ?_
    refine safe_pure.mpr ⟨d.setAddr ndirect 0, _, rfl, hfree.eq_none (entry_zero ?_ ?_), ?_⟩
    · intro j hj
      rcases Nat.lt_or_eq_of_le hj with hlt | rfl
      · rw [update_of_ne (Nat.ne_of_lt hlt), hsame j hj, entry_of_le hj, hdirect j hlt]
      · exact update_self _ _ _
    · intro j hj
      rw [update_of_ne (by omega), hzero j hj]
    · rw [hu, locked_setHeld]
  · rename_i hzero
    have hzero : d.addrs ndirect = 0 := not_not.mp hzero
    refine safe_pure.mpr ⟨d, blocks, rfl, howns.eq_none (entry_zero ?_ ?_), rfl⟩
    · intro j hj
      rw [entry_of_le hj]
      rcases Nat.lt_or_eq_of_le hj with hlt | rfl
      · exact hdirect j hlt
      · exact hzero
    · intro j _
      exact entry_none hzero (by omega)

theorem safe_itrunc (hd : Settled d blocks) :
    FsSafe n sb reserved p (fun _ u => ∃ d' blocks', (∀ b, blocks' b = none) ∧
      u = v.locked ip i d' ⟨d', blocks'⟩) (itrunc ip) (v.locked ip i d ⟨d, blocks⟩) := by
  refine (safe_truncDirect ndirect (Nat.le_refl _) hd.owns fun j hj => absurd hj (by omega)).seq ?_
  rintro _ u ⟨d₁, blocks₁, htype₁, howns₁, hdirect, rfl⟩
  refine (safe_truncLast howns₁ hdirect).seq ?_
  rintro _ u ⟨d₂, blocks₂, htype₂, hnone, rfl⟩
  refine safe_load locked_held (safe_store ?_)
  have htype : d₂.type ≠ .free := by
    rw [htype₂, htype₁]
    exact hd.type_ne
  exact (safe_iupdate (d := { d₂ with size := 0 }) htype).mono fun _ u hu => ⟨_, blocks₂, hnone, hu⟩

/-- A reference is dropped; it may be the last one to an inode without links. -/
theorem safe_iput (hrefs : 0 < w.refs ip) (hheld : w.held ip ≠ none → 1 < w.refs ip) :
    FsSafe n sb reserved p (fun _ u => u = w.setRefs ip (w.refs ip - 1)) (iput ip) w := by
  refine Safe.step (spec_put ip) ⟨hrefs, hheld⟩ fun r u hu => ?_
  rcases hu with ⟨rfl, rfl⟩ | ⟨rfl, hnone, ⟨inum, valid, copy⟩, ⟨dd, blocks⟩, hpinned, htidy, rfl⟩
  · exact safe_pure.mpr rfl
  · obtain ⟨hvalid, hdinode, hsettled⟩ := htidy
    dsimp only at hvalid hdinode hsettled hpinned
    subst hvalid hdinode
    have htrunc : FsSafe n sb reserved p _ (itrunc ip) (w.locked ip inum dd ⟨dd, blocks⟩) :=
      safe_itrunc hsettled
    refine htrunc.seq ?_
    rintro _ u ⟨d, blocks', hfree, rfl⟩
    refine safe_load locked_held (safe_store ?_)
    refine Safe.bind (safe_load locked_held ?_)
    refine (Safe.perform (spec_freeDinode inum _ _ rfl hfree) locked_pinned).mono ?_
    rintro _ u rfl
    refine (Safe.perform (spec_putLast ip ⟨inum, true, { d with type := .free }⟩)
      ⟨update_self _ _ _, update_self _ _ _⟩).mono ?_
    rintro _ u rfl
    simp only [View.locked, View.lock, View.setHeld, View.setPinned, View.setRefs,
      update_idem]
    rw [← hnone, update_eq_self, ← hpinned, update_eq_self]

end Contents

end Xv6.Fs
