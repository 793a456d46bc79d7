import Xv6.FsCalls

/-! Every block of the disk has one owner: from a consistent image, in every state of every interleaving
of system calls in which no inode is locked, the bitmap marks the metadata and the blocks the inodes
refer to, each of which occurs once. -/

namespace Xv6.Fs

open LibProg

variable {n : Nat} {sb : Superblock} {s : State n} {g : Ghost n} {i b : Nat}

/-- `IPB`: inodes of a block. -/
def ipb : Nat := 8

/-- The blocks before the data blocks: the boot block, the superblock, the inodes and the bitmap. -/
def Superblock.metadata (sb : Superblock) (b : Nat) : Prop :=
  b < sb.ninodes / ipb + 3 + (sb.size / bpb + 1)

instance (sb : Superblock) (b : Nat) : Decidable (sb.metadata b) := inferInstanceAs (Decidable (_ < _))

/-- The block number at a place of an inode on disk. -/
def State.entry (s : State n) (i k : Nat) : Nat := (s.dinode i).entry s.block k

/-- An allocated inode refers to a block. -/
def State.Refers (s : State n) (i b : Nat) : Prop :=
  (s.dinode i).type ≠ .free ∧ b ≠ 0 ∧ ∃ k, k < places ∧ s.entry i k = b

/-- The bitmap agrees with the inodes, and no block occurs twice. -/
structure Consistent (sb : Superblock) (s : State n) : Prop where
  once : ∀ i j k l, (s.dinode i).type ≠ .free → (s.dinode j).type ≠ .free → k < places → l < places →
    s.entry i k ≠ 0 → s.entry i k = s.entry j l → i = j ∧ k = l
  data : ∀ i b, s.Refers i b → ¬ sb.metadata b
  bitmap : ∀ b, s.used b = true ↔ sb.metadata b ∨ ∃ i, s.Refers i b

/-- Every inode has a block for each part of its size. -/
def NoHoles (s : State n) : Prop :=
  ∀ i bn, (s.dinode i).type ≠ .free → bn * bsize < (s.dinode i).size →
    bn < maxfile ∧ s.entry i (place bn) ≠ 0

/-- The free blocks are zero. -/
def FreeZero (s : State n) : Prop := ∀ b, s.used b = false → s.block b = Block.zero

/-- The slot of the root directory after boot. -/
def rootSlot : Slot := ⟨0, by decide⟩

/-- A disk image with the processes of the system in its root directory. -/
structure Booted (s : State n) : Prop where
  root : s.icache rootSlot = { inum := rootino, ref := n }
  others : ∀ ip, ip ≠ rootSlot → (s.icache ip).ref = 0 ∧ (s.icache ip).busy = none
  ofile : ∀ p fd, s.ofile p fd = none
  cwd : ∀ p, s.cwd p = rootSlot

/-- A consistent image without holes whose free blocks are zero, after boot. -/
structure Sound (sb : Superblock) (s : State n) : Prop where
  consistent : Consistent sb s
  noHoles : NoHoles s
  freeZero : FreeZero s
  booted : Booted s

/-! The ghost state of an image. -/

open Classical in
/-- The owner of a block of an image. -/
noncomputable def imageOwner (sb : Superblock) (s : State n) (b : Nat) : Owner :=
  if sb.metadata b then .reserved
  else if h : ∃ i, s.Refers i b then .inode h.choose else .free

noncomputable def imageGhost (sb : Superblock) (s : State n) : Ghost n where
  owner := imageOwner sb s
  refs := fun _ ip => if ip = rootSlot then 1 else 0
  pin := fun _ => none

theorem Consistent.unique (h : Consistent sb s) {i j : Nat} (hi : s.Refers i b) (hj : s.Refers j b) :
    i = j := by
  obtain ⟨hit, hb, k, hk, hik⟩ := hi
  obtain ⟨hjt, -, l, hl, hjl⟩ := hj
  exact (h.once i j k l hit hjt hk hl (hik ▸ hb) (hik.trans hjl.symm)).1

theorem imageOwner_inode (h : Consistent sb s) : imageOwner sb s b = .inode i ↔ s.Refers i b := by
  unfold imageOwner
  constructor
  · intro howner
    split at howner
    · cases howner
    · split at howner
      · rename_i hex
        cases howner
        exact hex.choose_spec
      · cases howner
  · intro hi
    have hex : ∃ i, s.Refers i b := ⟨i, hi⟩
    rw [if_neg (h.data i b hi), dif_pos hex, h.unique hex.choose_spec hi]

theorem imageOwner_reserved : imageOwner sb s b = .reserved ↔ sb.metadata b := by
  unfold imageOwner
  by_cases hmeta : sb.metadata b
  · simp [hmeta]
  · by_cases hex : ∃ i, s.Refers i b
    · rw [if_neg hmeta, dif_pos hex]
      exact ⟨nofun, fun h => absurd h hmeta⟩
    · rw [if_neg hmeta, dif_neg hex]
      exact ⟨nofun, fun h => absurd h hmeta⟩

theorem imageOwner_used (h : Consistent sb s) : s.used b = true ↔ imageOwner sb s b ≠ .free := by
  rw [h.bitmap, imageOwner]
  by_cases hmeta : sb.metadata b
  · simp [hmeta]
  · by_cases hex : ∃ i, s.Refers i b
    · rw [if_neg hmeta, dif_pos hex]
      exact ⟨fun _ => nofun, fun _ => .inr hex⟩
    · rw [if_neg hmeta, dif_neg hex]
      exact ⟨fun h => absurd (h.resolve_left hmeta) hex, fun h => absurd rfl h⟩

theorem entry_blocksOf (h : (s.dinode i).addrs ndirect ≠ 0 →
      g.owner ((s.dinode i).addrs ndirect) = .inode i) :
    (s.dinode i).entry (contents (blocksOf s g i)) = s.entry i := by
  refine entry_congr fun hne => ?_
  rw [contents, blocksOf, if_pos (h hne), Option.getD_some]

theorem image_settled (h : Consistent sb s) (hholes : NoHoles s) (htype : (s.dinode i).type ≠ .free) :
    Settled (s.dinode i) (blocksOf s (imageGhost sb s) i) := by
  have howner : ∀ b, (imageGhost sb s).owner b = .inode i ↔ s.Refers i b := fun b =>
    imageOwner_inode h
  have hentry : (s.dinode i).entry (contents (blocksOf s (imageGhost sb s) i)) = s.entry i := by
    refine entry_blocksOf fun hne => (howner _).mpr ⟨htype, hne, ndirect, by decide, ?_⟩
    exact entry_of_le (Nat.le_refl _)
  refine ⟨htype, ⟨?_, fun b => ?_⟩, ?_⟩
  · intro k l hk hl hne heq
    rw [hentry] at hne heq
    exact (h.once i i k l htype htype hk hl hne heq).2
  · rw [hentry, blocksOf]
    by_cases hb : s.Refers i b
    · rw [if_pos ((howner b).mpr hb)]
      exact ⟨fun _ => hb.2, fun _ => (by simp)⟩
    · rw [if_neg fun h => hb ((howner b).mp h)]
      exact ⟨fun h => absurd rfl h, fun h => absurd ⟨htype, h⟩ hb⟩
  · intro bn hbn
    rw [hentry]
    exact hholes i bn htype hbn

theorem image_inv (h : Consistent sb s) (hholes : NoHoles s) (hzero : FreeZero s) (hboot : Booted s) :
    Inv sb.metadata s (imageGhost sb s) := by
  have href : ∀ ip, 0 < (s.icache ip).ref → ip = rootSlot := fun ip hpos => by
    by_contra hne
    exact Nat.ne_of_gt hpos (hboot.others ip hne).1
  have hbusy : ∀ ip, (s.icache ip).busy = none := fun ip => by
    by_cases hip : ip = rootSlot
    · rw [hip, hboot.root]
    · exact (hboot.others ip hip).2
  refine ⟨fun b => imageOwner_used h, fun b => imageOwner_reserved, ?_, ?_, ?_, ?_, nofun, ?_, ?_, ?_⟩
  · intro b hfree
    refine hzero b ?_
    rw [← Bool.not_eq_true, imageOwner_used h]
    exact fun hne => hne hfree
  · intro ip
    by_cases hip : ip = rootSlot
    · rw [hip, hboot.root]
      simp [imageGhost]
    · rw [(hboot.others ip hip).1]
      simp [imageGhost, hip]
  · intro ip jp hi hj _
    rw [href ip hi, href jp hj]
  · intro ip p hp
    rw [hbusy ip] at hp
    cases hp
  · intro i b htype howner
    exact ((imageOwner_inode h).mp howner).1 htype
  · exact fun i _ htype => image_settled h hholes htype
  · intro ip hpos _ hvalid
    rw [href ip hpos, hboot.root] at hvalid
    cases hvalid

theorem image_rest (hboot : Booted s) (p : Fin n) : Rest (view p s (imageGhost sb s)) := by
  refine ⟨fun ip => heldBy_of_ne ?_, fun i => by simp [view, pinnedBy, imageGhost], fun ip => ?_⟩
  · by_cases hip : ip = rootSlot
    · rw [hip, hboot.root]
      simp
    · rw [(hboot.others ip hip).2]
      simp
  · have hofile : (view p s (imageGhost sb s)).ofile = fun _ => none := funext (hboot.ofile p)
    have hcwd : (view p s (imageGhost sb s)).cwd = rootSlot := hboot.cwd p
    rw [hofile, hcwd, restRefs]
    simp only [view, imageGhost, fileRef, Option.map_none, reduceCtorEq, if_false,
      Finset.sum_const_zero, Nat.add_zero, eq_comm]

/-- When no inode is locked the ghost state says who owns each block. -/
theorem Inv.consistent (hinv : Inv sb.metadata s g) (hidle : ∀ ip, (s.icache ip).busy = none) :
    Consistent sb s := by
  have hpin : ∀ i, g.pin i = none := by
    intro i
    cases hp : g.pin i with
    | none => rfl
    | some p =>
      obtain ⟨-, ip, hbusy, -⟩ := hinv.pinned i p hp
      rw [hidle ip] at hbusy
      cases hbusy
  have hsettled : ∀ i, (s.dinode i).type ≠ .free → Settled (s.dinode i) (blocksOf s g i) :=
    fun i htype => hinv.settled i (hpin i) htype
  have howned : ∀ i, (s.dinode i).type ≠ .free → ∀ b, g.owner b = .inode i ↔
      b ≠ 0 ∧ ∃ k, k < places ∧ (s.dinode i).entry (contents (blocksOf s g i)) k = b := by
    intro i htype b
    rw [← (hsettled i htype).owns.owned, blocksOf]
    by_cases hb : g.owner b = .inode i <;> simp [hb]
  have hentry : ∀ i, (s.dinode i).type ≠ .free →
      (s.dinode i).entry (contents (blocksOf s g i)) = s.entry i := fun i htype =>
    entry_blocksOf fun hne => (howned i htype _).mpr
      ⟨hne, ndirect, by decide, entry_of_le (Nat.le_refl _)⟩
  have hrefers : ∀ i b, s.Refers i b ↔ g.owner b = .inode i := by
    intro i b
    constructor
    · rintro ⟨htype, hb⟩
      rw [← hentry i htype] at hb
      exact (howned i htype b).mpr hb
    · intro howner
      have htype : (s.dinode i).type ≠ .free := fun hfree => hinv.unowned i b hfree howner
      have hb := (howned i htype b).mp howner
      rw [hentry i htype] at hb
      exact ⟨htype, hb⟩
  refine ⟨?_, ?_, ?_⟩
  · intro i j k l hit hjt hk hl hne heq
    have hi := (hrefers i _).mp ⟨hit, hne, k, hk, rfl⟩
    have hj := (hrefers j _).mp ⟨hjt, hne, l, hl, heq.symm⟩
    have hij : i = j := Owner.inode.inj (hi.symm.trans hj)
    subst hij
    refine ⟨rfl, (hsettled i hit).owns.distinct k l hk hl ?_ ?_⟩
    · rwa [hentry i hit]
    · rwa [hentry i hit]
  · intro i b hb hmeta
    have howner := (hrefers i b).mp hb
    rw [(hinv.reserved b).mpr hmeta] at howner
    cases howner
  · intro b
    rw [hinv.used, ← hinv.reserved]
    cases howner : g.owner b with
    | free =>
      refine ⟨fun h => absurd rfl h, ?_⟩
      rintro (h | ⟨i, hi⟩)
      · cases h
      · rw [hrefers, howner] at hi
        cases hi
    | reserved => simp
    | inode i => exact ⟨fun _ => .inr ⟨i, (hrefers i b).mpr howner⟩, fun _ => (by simp)⟩

def smallDisk : Superblock := ⟨64, 16, by decide⟩

/-- One process, in the root directory. -/
def bootWith (used : Nat → Bool) (dinode : Nat → Dinode) (block : Nat → Block) : State 1 where
  used := used
  dinode := dinode
  block := block
  icache := fun ip => if ip = rootSlot then { inum := rootino, ref := 1 } else {}
  ofile := fun _ _ => none
  cwd := fun _ => rootSlot

theorem bootWith_booted (used : Nat → Bool) (dinode : Nat → Dinode) (block : Nat → Block) :
    Booted (bootWith used dinode block) :=
  ⟨rfl, fun ip hip => by simp [bootWith, hip], fun _ _ => rfl, fun _ => rfl⟩

/-- The images below are used by one process. -/
instance oneProcess : NeZero (1 : Nat) := ⟨Nat.one_ne_zero⟩

/-- The steps of a list of calls that the process makes one after the other, with the number of
operations of each. -/
def sequence (calls : List (Call × Nat)) : List (Act (Fin 1) Input Call) :=
  calls.flatMap fun c => .call 0 c.1 :: List.replicate c.2 (.run 0 {})

/-- A disk with an empty root directory. -/
def emptyImage : State 1 :=
  bootWith (fun b => decide (b < 6)) (fun i => if i = 1 then { type := .dir, nlink := 1 } else {})
    fun _ => Block.zero

theorem emptyImage_entry (i k : Nat) : emptyImage.entry i k = 0 := by
  have haddrs : ∀ k, (emptyImage.dinode i).addrs k = 0 := by
    intro k
    by_cases hi : i = 1 <;> simp [emptyImage, bootWith, hi]
  simp [State.entry, Dinode.entry, haddrs]

theorem emptyImage_consistent : Consistent smallDisk emptyImage := by
  refine ⟨fun i j k l _ _ _ _ hne _ => absurd (emptyImage_entry i k) hne, ?_, fun b => ?_⟩
  · rintro i b ⟨-, hb, k, -, hk⟩
    exact absurd (hk.symm.trans (emptyImage_entry i k)) hb
  · have hnone : ¬ ∃ i, emptyImage.Refers i b := by
      rintro ⟨i, -, hb, k, -, hk⟩
      exact hb (hk.symm.trans (emptyImage_entry i k))
    rw [or_iff_left hnone]
    exact decide_eq_true_iff

/-- A disk with a file of twelve blocks, and a free block with stale contents. -/
def staleImage : State 1 :=
  bootWith (fun b => decide (b < 19))
    (fun i =>
      if i = 1 then { type := .dir, nlink := 1, size := 16, addrs := fun k => if k = 0 then 6 else 0 }
      else if i = 2 then
        { type := .file, nlink := 1, size := 6144, addrs := fun k => if k < 12 then 7 + k else 0 }
      else {})
    fun b => if b = 6 then Dirent.bytes ⟨2, [102]⟩
      else if b = 19 then Block.zero.setWord 0 6 else Block.zero

theorem staleImage_entry (i k : Nat) : staleImage.entry i k =
    if i = 1 ∧ k = 0 then 6 else if i = 2 ∧ k < 12 then 7 + k else 0 := by
  unfold State.entry Dinode.entry staleImage bootWith
  by_cases h1 : i = 1
  · by_cases hk : k = 0 <;> simp [h1, hk, ndirect]
  · by_cases h2 : i = 2
    · by_cases hk : k < 12
      · simp [h2, hk, ndirect, Nat.le_of_lt hk]
      · simp [h2, hk, ndirect]
    · simp [h1, h2]

theorem staleImage_consistent : Consistent smallDisk staleImage := by
  refine ⟨fun i j k l _ _ _ _ hne heq => ?_, ?_, fun b => ?_⟩
  · rw [staleImage_entry] at hne heq
    rw [staleImage_entry] at heq
    grind
  · rintro i b ⟨-, hb, k, -, hk⟩
    rw [staleImage_entry] at hk
    have hdata : 6 ≤ b := by grind
    exact Nat.not_lt.mpr hdata
  · have hbit : staleImage.used b = true ↔ b < 19 := decide_eq_true_iff
    have hmeta : smallDisk.metadata b ↔ b < 6 := Iff.rfl
    rw [hbit, hmeta]
    constructor
    · intro hlt
      by_cases h6 : b < 6
      · exact .inl h6
      · right
        by_cases hroot : b = 6
        · exact ⟨1, nofun, by omega, 0, by decide, by rw [staleImage_entry]; simp [hroot]⟩
        · refine ⟨2, nofun, by omega, b - 7, ?_, ?_⟩
          · exact Nat.lt_of_lt_of_le (by omega : b - 7 < 12) (by decide)
          · rw [staleImage_entry, if_neg (by simp), if_pos ⟨rfl, by omega⟩]
            omega
    · rintro (h6 | ⟨i, -, -, k, -, hk⟩)
      · omega
      · rw [staleImage_entry] at hk
        grind

end Xv6.Fs
