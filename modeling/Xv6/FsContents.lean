import Mathlib
import Xv6.FsOwnership

/-! What `readi` and `writei` do to the bytes of a file. They are run alone, on an inode the process
has locked; with enough free blocks they return. -/

namespace Xv6.Fs

open LibProg LibWord Function

variable {n : Nat} {sb : Superblock} {p : Fin n} {input : Input} {s : State n} {ip : Slot}
  {used : Nat → Bool} {block : Nat → Block} {i : Nat} {d : Dinode} {blocks : Nat → Option Block}

/-- The state in which the bitmap, the blocks and the copy of one cached inode are as given. -/
def State.file (s : State n) (ip : Slot) (used : Nat → Bool) (block : Nat → Block) (d : Dinode) :
    State n :=
  { s.setInode ip (fun i => { i with copy := d }) with used := used, block := block }

theorem file_self : s.file ip s.used s.block (s.icache ip).copy = s := by
  simp [State.file, State.setInode]

theorem file_inode : (s.file ip used block d).icache ip = { s.icache ip with copy := d } := by
  simp [State.file, State.setInode]

theorem file_store (d' : Dinode) :
    (s.file ip used block d).setInode ip (fun i => { i with copy := d' }) =
      s.file ip used block d' := by
  simp [State.file, State.setInode]

/-- The bits the bitmap blocks have. -/
def Superblock.covered (sb : Superblock) : Nat := (sb.size + bpb - 1) / bpb * bpb

/-- The number of free blocks. -/
def free (sb : Superblock) (used : Nat → Bool) : Nat :=
  ((Finset.range sb.covered).filter fun b => used b = false).card

/-- The number of the given places at which there is no block. -/
def vacant (touched : Nat → Bool) (entry : Nat → Nat) : Nat :=
  ((Finset.range places).filter fun k => touched k = true ∧ entry k = 0).card

theorem free_alloc {b : Nat} (hb : b < sb.covered) (hfree : used b = false) :
    free sb (update used b true) + 1 = free sb used := by
  have hmem : b ∈ (Finset.range sb.covered).filter fun b => used b = false :=
    Finset.mem_filter.mpr ⟨Finset.mem_range.mpr hb, hfree⟩
  rw [free, free, ← Finset.card_erase_add_one hmem]
  congr 2
  ext c
  by_cases hc : c = b
  · simp [hc]
  · simp [hc]

theorem vacant_alloc {touched : Nat → Bool} {entry : Nat → Nat} {k b : Nat} (hk : k < places)
    (htouched : touched k = true) (hzero : entry k = 0) (hb : b ≠ 0) :
    vacant touched (update entry k b) + 1 = vacant touched entry := by
  have hmem : k ∈ (Finset.range places).filter fun k => touched k = true ∧ entry k = 0 :=
    Finset.mem_filter.mpr ⟨Finset.mem_range.mpr hk, htouched, hzero⟩
  rw [vacant, vacant, ← Finset.card_erase_add_one hmem]
  congr 2
  ext c
  by_cases hc : c = k
  · simp [hc, hb]
  · simp [hc]

theorem vacant_pos {touched : Nat → Bool} {entry : Nat → Nat} {k : Nat} (hk : k < places)
    (htouched : touched k = true) (hzero : entry k = 0) : 0 < vacant touched entry :=
  Finset.card_pos.mpr ⟨k, Finset.mem_filter.mpr ⟨Finset.mem_range.mpr hk, htouched, hzero⟩⟩

/-! Allocation. -/

theorem firstClear_isSome {k base b : Nat} (hle : base ≤ b) (hlt : b < base + k)
    (hb : used b = false) : ∃ c, firstClear used k base = some c := by
  induction k generalizing base with
  | zero => omega
  | succ k ih =>
    rw [firstClear]
    split
    · rename_i hused
      have hne : base ≠ b := by
        rintro rfl
        rw [hb] at hused
        cases hused
      exact ih (by omega) (by omega)
    · exact ⟨base, rfl⟩

theorem ballocFrom_returns (k base b : Nat) (hle : base ≤ b) (hlt : b < base + k * bpb)
    (hb : s.used b = false) :
    Prog.Returns (exec p input) (fun r t => s.used r = false ∧ r < base + k * bpb ∧
      t = { s with used := update s.used r true }) (ballocFrom k base) s := by
  induction k generalizing base with
  | zero => omega
  | succ k ih =>
    rw [Nat.succ_mul] at hlt ⊢
    cases hfirst : firstClear s.used bpb base with
    | none =>
      have hfar : base + bpb ≤ b := by
        by_contra hnear
        obtain ⟨c, hc⟩ := firstClear_isSome (k := bpb) hle (by omega) hb
        rw [hfirst] at hc
        cases hc
      refine Prog.Returns.step (o := Op.allocBit base) (r := none) (t := s) ?_ ?_
      · simp only [exec, hfirst]
      · grind
    | some c =>
      obtain ⟨hc, -, hclt⟩ := firstClear_eq_some hfirst
      refine Prog.Returns.step (o := Op.allocBit base) (r := some c)
        (t := { s with used := update s.used c true }) ?_ ?_
      · simp only [exec, hfirst]
      · exact Prog.returns_pure ⟨hc, by omega, rfl⟩

theorem balloc_returns (hfree : 0 < free sb s.used) :
    Prog.Returns (exec p input) (fun r t => s.used r = false ∧ r < sb.covered ∧
      t = { s with used := update s.used r true }) (balloc sb) s := by
  obtain ⟨b, hb⟩ := Finset.card_pos.mp hfree
  obtain ⟨hmem, hclear⟩ := Finset.mem_filter.mp hb
  have hlt := Finset.mem_range.mp hmem
  refine (ballocFrom_returns _ 0 b (Nat.zero_le _) ?_ hclear).mono ?_
  · rw [Nat.zero_add]
    exact hlt
  · rintro r t ⟨hr, hlt, ht⟩
    rw [Nat.zero_add] at hlt
    exact ⟨hr, hlt, ht⟩

/-- The blocks of a file are among the used ones, with the contents they have on disk; free blocks are
zero, and block 0 is not free. -/
structure Ready (used : Nat → Bool) (block : Nat → Block) (d : Dinode)
    (blocks : Nat → Option Block) : Prop where
  owns : Owns (d.entry (contents blocks)) blocks
  backed : ∀ b data, blocks b = some data → used b = true ∧ block b = data
  clean : ∀ b, used b = false → block b = Block.zero
  boot : used 0 = true

/-- The file has got blocks; those it had, the indirect block apart, have their contents. -/
structure Keeps (d : Dinode) (blocks : Nat → Option Block) (d' : Dinode)
    (blocks' : Nat → Option Block) : Prop extends Extends d blocks d' blocks' where
  keep : ∀ b, blocks b ≠ none → b ≠ d'.addrs ndirect → blocks' b = blocks b

/-- The used blocks that do not belong to the file are as before. -/
def Foreign (used : Nat → Bool) (block : Nat → Block) (blocks : Nat → Option Block)
    (used' : Nat → Bool) (block' : Nat → Block) (blocks' : Nat → Option Block) : Prop :=
  ∀ b, used b = true → blocks b = none → used' b = true ∧ block' b = block b ∧ blocks' b = none

theorem Ready.new (h : Ready used block d blocks) {b : Nat} (hb : used b = false) :
    b ≠ 0 ∧ blocks b = none := by
  constructor
  · rintro rfl
    rw [h.boot] at hb
    cases hb
  · cases hblocks : blocks b with
    | none => rfl
    | some data =>
      rw [(h.backed b data hblocks).1] at hb
      cases hb

theorem covered_lt (sb : Superblock) : sb.covered < uintSize := by
  have hsize := sb.size_le
  simp only [Superblock.covered, bpb, bsize, uintSize]
  omega

/-- A new block for an entry of `addrs`. -/
theorem Ready.direct (h : Ready used block d blocks) {k b : Nat} (hk : k ≤ ndirect)
    (hzero : d.addrs k = 0) (hb : used b = false) :
    Ready (update used b true) block (d.setAddr k b)
        (update blocks b (some Block.zero)) ∧
      Keeps d blocks (d.setAddr k b) (update blocks b (some Block.zero)) ∧
      Foreign used block blocks (update used b true) block
        (update blocks b (some Block.zero)) := by
  obtain ⟨hb0, hnew⟩ := h.new hb
  have hext := Extends.direct hk h.owns hzero hb0 hnew
  have hother : ∀ c, blocks c ≠ none → c ≠ b := by
    rintro c hc rfl
    exact hc hnew
  refine ⟨⟨hext.owns, fun c data hc => ?_, fun c hc => ?_, ?_⟩, ⟨hext, fun c hc _ => ?_⟩,
    fun c hc hnone => ?_⟩
  · grind [h.clean, h.backed]
  · refine h.clean c ?_
    by_cases hcb : c = b
    · exact hcb ▸ hb
    · rwa [update_of_ne hcb] at hc
  · rw [update_of_ne hb0.symm, h.boot]
  · exact update_of_ne (hother c hc) _ _
  · grind

/-- A new block for a word of the indirect block. -/
theorem Ready.indirect (h : Ready used block d blocks) {j b : Nat} {data : Block} (hj : j < nindirect)
    (hd : d.addrs ndirect ≠ 0) (hdata : blocks (d.addrs ndirect) = some data)
    (hzero : data.word j = 0) (hb : used b = false) (hlt : b < uintSize) :
    Ready (update used b true)
        (update block (d.addrs ndirect) (data.setWord j b)) d
        (update (update blocks b (some Block.zero)) (d.addrs ndirect)
          (some (data.setWord j b))) ∧
      Keeps d blocks d (update (update blocks b (some Block.zero)) (d.addrs ndirect)
        (some (data.setWord j b))) ∧
      Foreign used block blocks (update used b true)
        (update block (d.addrs ndirect) (data.setWord j b))
        (update (update blocks b (some Block.zero)) (d.addrs ndirect)
          (some (data.setWord j b))) := by
  obtain ⟨hb0, hnew⟩ := h.new hb
  have hext := Extends.indirect hj h.owns hd hdata hzero hb0 hlt hnew
  have hlast : used (d.addrs ndirect) = true := (h.backed _ data hdata).1
  have hne : d.addrs ndirect ≠ b := by
    intro heq
    rw [heq, hb] at hlast
    cases hlast
  refine ⟨⟨hext.owns, fun c more hc => ?_, fun c hc => ?_, ?_⟩, ⟨hext, fun c hc hcl => ?_⟩,
    fun c hc hnone => ?_⟩
  · grind [h.clean, h.backed]
  · grind [h.clean]
  · rw [update_of_ne hb0.symm, h.boot]
  · have hcb : c ≠ b := by
      rintro rfl
      exact hc hnew
    rw [update_of_ne hcl, update_of_ne hcb]
  · grind

theorem Keeps.refl (h : Owns (d.entry (contents blocks)) blocks) : Keeps d blocks d blocks :=
  ⟨.refl h, fun _ _ _ => rfl⟩

theorem Keeps.trans {d₁ d₂ : Dinode} {blocks₁ blocks₂ : Nat → Option Block}
    (h : Owns (d.entry (contents blocks)) blocks) (h₁ : Keeps d blocks d₁ blocks₁)
    (h₂ : Keeps d₁ blocks₁ d₂ blocks₂) : Keeps d blocks d₂ blocks₂ := by
  refine ⟨h₁.toExtends.trans h₂.toExtends, fun b hb hlast => ?_⟩
  -- an indirect block stays the indirect block
  have hlast₁ : b ≠ d₁.addrs ndirect := by
    rintro rfl
    have hne : d₁.entry (contents blocks₁) ndirect ≠ 0 := by
      rw [entry_of_le (Nat.le_refl _)]
      exact ((h.owned _).mp hb).1
    have hsame := h₂.entry ndirect hne
    rw [entry_of_le (Nat.le_refl _), entry_of_le (Nat.le_refl _)] at hsame
    exact hlast hsame.symm
  have hb₁ := h₁.keep b hb hlast₁
  rw [h₂.keep b (hb₁ ▸ hb) hlast, hb₁]

theorem Foreign.refl : Foreign used block blocks used block blocks := fun _ hused hnone =>
  ⟨hused, rfl, hnone⟩

theorem Foreign.trans {used₁ used₂ : Nat → Bool} {block₁ block₂ : Nat → Block}
    {blocks₁ blocks₂ : Nat → Option Block} (h₁ : Foreign used block blocks used₁ block₁ blocks₁)
    (h₂ : Foreign used₁ block₁ blocks₁ used₂ block₂ blocks₂) :
    Foreign used block blocks used₂ block₂ blocks₂ := by
  intro b hused hnone
  obtain ⟨hused₁, hblock₁, hnone₁⟩ := h₁ b hused hnone
  obtain ⟨hused₂, hblock₂, hnone₂⟩ := h₂ b hused₁ hnone₁
  exact ⟨hused₂, hblock₂.trans hblock₁, hnone₂⟩

/-- The blocks that the file has got, the indirect block apart, are zero. -/
def Fresh (d : Dinode) (blocks : Nat → Option Block) (d' : Dinode) (blocks' : Nat → Option Block) : Prop :=
  ∀ k, k < places → k ≠ ndirect → d.entry (contents blocks) k = 0 → d'.entry (contents blocks') k ≠ 0 →
    blocks' (d'.entry (contents blocks') k) = some Block.zero

theorem Fresh.refl : Fresh d blocks d blocks := fun _ _ _ hzero hne => absurd hzero hne

theorem Fresh.place {d' : Dinode} {blocks' : Nat → Option Block} {k b : Nat}
    (hentry : d'.entry (contents blocks') = update (d.entry (contents blocks)) k b)
    (hb : blocks' b = some Block.zero) : Fresh d blocks d' blocks' := by
  intro l _ _ hzero hne
  rw [hentry] at hne ⊢
  by_cases hl : l = k
  · rw [hl, update_self]
    exact hb
  · rw [update_of_ne hl] at hne
    exact absurd hzero hne

/-- What `bmap` and its parts leave of the state: more blocks, and enough free ones for the places
that are still to be touched. -/
structure Grown (sb : Superblock) (touched : Nat → Bool) (used : Nat → Bool) (block : Nat → Block)
    (d : Dinode) (blocks : Nat → Option Block) (used' : Nat → Bool) (block' : Nat → Block)
    (d' : Dinode) (blocks' : Nat → Option Block) : Prop where
  ready : Ready used' block' d' blocks'
  keeps : Keeps d blocks d' blocks'
  foreign : Foreign used block blocks used' block' blocks'
  enough : vacant touched (d'.entry (contents blocks')) ≤ free sb used'
  fresh : Fresh d blocks d' blocks'

theorem direct_returns {touched : Nat → Bool} {k : Nat} (hk : k ≤ ndirect) (htouched : touched k = true)
    (h : Ready used block d blocks) (henough : vacant touched (d.entry (contents blocks)) ≤ free sb used) :
    Prog.Returns (exec p input) (fun r t => ∃ used' d' blocks',
      Grown sb touched used block d blocks used' block d' blocks' ∧ r = d'.addrs k ∧ r ≠ 0 ∧
      t = s.file ip used' block d')
      (direct sb ip k) (s.file ip used block d) := by
  have hplace : k < places := Nat.lt_of_le_of_lt hk (by decide)
  have hentry : d.entry (contents blocks) k = d.addrs k := entry_of_le hk
  refine Prog.Returns.step (o := Op.load ip) rfl ?_
  rw [file_inode]
  dsimp only
  split
  · rename_i hzero
    have hpos := vacant_pos hplace htouched (hentry.trans hzero)
    refine (balloc_returns (s := s.file ip used block d) (Nat.lt_of_lt_of_le hpos henough)).seq ?_
    rintro b t ⟨hb, hlt, rfl⟩
    have hb : used b = false := hb
    obtain ⟨hready, hkeeps, hforeign⟩ := h.direct hk hzero hb
    obtain ⟨hb0, hnew⟩ := h.new hb
    refine Prog.Returns.step (o := Op.store ip (d.setAddr k b)) rfl (Prog.returns_pure ?_)
    refine ⟨_, _, _, ⟨hready, hkeeps, hforeign, ?_, ?_⟩, setAddr_self.symm, hb0, ?_⟩
    · have hv := vacant_alloc hplace htouched (hentry.trans hzero) hb0
      have hf := free_alloc hlt hb
      rw [entry_direct hk h.owns hzero hnew]
      omega
    · exact .place (entry_direct hk h.owns hzero hnew) (update_self _ _ _)
    · simp [State.file, State.setInode]
  · rename_i hne
    exact Prog.returns_pure ⟨used, d, blocks, ⟨h, .refl h.owns, .refl, henough, .refl⟩, rfl, hne, rfl⟩

theorem bmap_returns {touched : Nat → Bool} {bn : Nat} (hbn : bn < maxfile)
    (hplace : touched (place bn) = true) (hlast : ndirect ≤ bn → touched ndirect = true)
    (h : Ready used block d blocks) (henough : vacant touched (d.entry (contents blocks)) ≤ free sb used) :
    Prog.Returns (exec p input) (fun r t => ∃ used' block' d' blocks',
      Grown sb touched used block d blocks used' block' d' blocks' ∧
      r = d'.entry (contents blocks') (place bn) ∧ r ≠ 0 ∧ t = s.file ip used' block' d') (bmap sb ip bn) (s.file ip used block d) := by
  unfold bmap
  by_cases hdirect : bn < ndirect
  · have hpl : place bn = bn := if_pos hdirect
    rw [if_pos hdirect]
    rw [hpl] at hplace ⊢
    refine (direct_returns (Nat.le_of_lt hdirect) hplace h henough).mono ?_
    rintro r t ⟨used', d', blocks', hgrown, hr, hr0, ht⟩
    refine ⟨used', block, d', blocks', hgrown, ?_, hr0, ht⟩
    rw [hr, entry_of_le (Nat.le_of_lt hdirect)]
  · have hj : bn - ndirect < nindirect := by
      simp only [maxfile] at hbn
      omega
    have hpl : place bn = ndirect + 1 + (bn - ndirect) := by
      rw [place, if_neg hdirect]
      omega
    rw [if_neg hdirect, if_pos hj]
    refine (direct_returns (Nat.le_refl _) (hlast (by omega)) h henough).seq ?_
    rintro ind t ⟨used₁, d₁, blocks₁, hgrown, rfl, hind, rfl⟩
    have hne₁ : d₁.entry (contents blocks₁) ndirect ≠ 0 := by rwa [entry_of_le (Nat.le_refl _)]
    obtain ⟨data, hdata⟩ := hgrown.ready.owns.isSome (by decide) hne₁
    rw [entry_of_le (Nat.le_refl _)] at hdata
    have hword : d₁.entry (contents blocks₁) (place bn) = data.word (bn - ndirect) := by
      rw [hpl, entry_word hind, contents_of_some hdata]
    have hblock : block (d₁.addrs ndirect) = data := (hgrown.ready.backed _ data hdata).2
    refine Prog.Returns.step (o := Op.bread (d₁.addrs ndirect)) (r := data)
      (t := s.file ip used₁ block d₁) ?_ ?_
    · exact congrArg (fun x => some (x, s.file ip used₁ block d₁)) hblock
    split
    · rename_i hzero
      have hpos := vacant_pos (place_lt hbn) hplace (hword.trans hzero)
      refine (balloc_returns (s := s.file ip used₁ block d₁)
        (Nat.lt_of_lt_of_le hpos hgrown.enough)).seq ?_
      rintro b t ⟨hb, hlt, rfl⟩
      have hb : used₁ b = false := hb
      have hlt32 := Nat.lt_trans hlt (covered_lt sb)
      obtain ⟨hb0, hnew⟩ := hgrown.ready.new hb
      obtain ⟨hready, hkeeps, hforeign⟩ := hgrown.ready.indirect hj hind hdata hzero hb hlt32
      have hentry := entry_indirect (j := bn - ndirect) hgrown.ready.owns hind hdata hlt32 hnew
      refine Prog.Returns.step (o := Op.bwrite (d₁.addrs ndirect) (data.setWord (bn - ndirect) b)) rfl
        (Prog.returns_pure ?_)
      have hnb : d₁.addrs ndirect ≠ b := by
        intro heq
        rw [heq, hnew] at hdata
        cases hdata
      refine ⟨_, _, d₁, _, ⟨hready, .trans h.owns hgrown.keeps hkeeps, hgrown.foreign.trans hforeign, ?_,
        fun l hl hlast hzero₀ hne => ?_⟩, ?_, hb0, rfl⟩
      · have hv := vacant_alloc (place_lt hbn) hplace (hword.trans hzero) hb0
        have hf := free_alloc hlt hb
        have henough₁ := hgrown.enough
        rw [hentry, ← hpl]
        omega
      · rw [hentry] at hne ⊢
        by_cases hl' : l = ndirect + 1 + (bn - ndirect)
        · rw [hl', update_self, update_of_ne hnb.symm, update_self]
        · rw [update_of_ne hl'] at hne ⊢
          have hzero₁ := hgrown.fresh l hl hlast hzero₀ hne
          have hne_last : d₁.entry (contents blocks₁) l ≠ d₁.addrs ndirect := fun heq =>
            hlast (hgrown.ready.owns.distinct l ndirect hl (by decide) hne
              (heq.trans (entry_of_le (Nat.le_refl _)).symm))
          have hne_b : d₁.entry (contents blocks₁) l ≠ b := by
            intro heq
            rw [heq, hnew] at hzero₁
            cases hzero₁
          rw [update_of_ne hne_last, update_of_ne hne_b]
          exact hzero₁
      · rw [hentry, ← hpl, update_self]
    · rename_i hne
      exact Prog.returns_pure ⟨used₁, block, d₁, blocks₁, hgrown, hword.symm, hne, rfl⟩

/-! The bytes of a file. -/

/-- The byte at an offset, through the block map. -/
def byteAt (d : Dinode) (block : Nat → Block) (o : Nat) : UInt8 :=
  block (d.entry block (place (o / bsize))) (o % bsize)

/-- The contents of a file. -/
def bytesOf (d : Dinode) (block : Nat → Block) : List UInt8 := (List.range d.size).map (byteAt d block)

theorem Ready.entry (h : Ready used block d blocks) : d.entry block = d.entry (contents blocks) := by
  refine entry_congr fun hne => ?_
  have hlast : d.entry (contents blocks) ndirect = d.addrs ndirect := entry_of_le (Nat.le_refl _)
  obtain ⟨data, hdata⟩ := h.owns.isSome (by decide) (hlast ▸ hne)
  rw [hlast] at hdata
  rw [contents_of_some hdata, (h.backed _ data hdata).2]

theorem Ready.byteAt (h : Ready used block d blocks) {o : Nat} (ho : o / bsize < maxfile)
    (hne : d.entry (contents blocks) (place (o / bsize)) ≠ 0) :
    byteAt d block o = byteAt d (contents blocks) o := by
  obtain ⟨data, hdata⟩ := h.owns.isSome (place_lt ho) hne
  rw [Fs.byteAt, Fs.byteAt, h.entry, contents_of_some hdata, (h.backed _ data hdata).2]

theorem Keeps.byteAt {d' : Dinode} {blocks' : Nat → Option Block} (h : Keeps d blocks d' blocks')
    (howns : Owns (d.entry (contents blocks)) blocks) {o : Nat} (ho : o / bsize < maxfile)
    (hne : d.entry (contents blocks) (place (o / bsize)) ≠ 0) :
    byteAt d' (contents blocks') o = byteAt d (contents blocks) o := by
  have hentry := h.entry _ hne
  have hlast := h.owns.entry_ne_last ho (hentry ▸ hne)
  rw [hentry] at hlast
  have hkeep := h.keep _ (howns.ne_none (place_lt ho) hne) hlast
  rw [Fs.byteAt, Fs.byteAt, hentry, contents, contents, hkeep]

section WriteBlock

variable {bn : Nat} (data : Block)

theorem entry_write (h : Owns (d.entry (contents blocks)) blocks) (hbn : bn < maxfile)
    (hne : d.entry (contents blocks) (place bn) ≠ 0) :
    d.entry (contents (update blocks (d.entry (contents blocks) (place bn)) (some data))) =
      d.entry (contents blocks) := by
  refine entry_congr fun _ => ?_
  rw [contents_update, update_of_ne (h.entry_ne_last hbn hne).symm]

theorem Ready.write (h : Ready used block d blocks) (hbn : bn < maxfile)
    (hne : d.entry (contents blocks) (place bn) ≠ 0) :
    Ready used (update block (d.entry (contents blocks) (place bn)) data) d
      (update blocks (d.entry (contents blocks) (place bn)) (some data)) := by
  have hsome := h.owns.ne_none (place_lt hbn) hne
  obtain ⟨old, hold⟩ := Option.ne_none_iff_exists'.mp hsome
  have hused := (h.backed _ old hold).1
  refine ⟨?_, fun b more hb => ?_, fun b hb => ?_, h.boot⟩
  · rw [entry_write data h.owns hbn hne]
    exact h.owns.write hsome
  · grind [h.backed]
  · rw [update_of_ne]
    · exact h.clean b hb
    · rintro rfl
      rw [hused] at hb
      cases hb

theorem Foreign.write (h : Owns (d.entry (contents blocks)) blocks) (hbn : bn < maxfile)
    (hne : d.entry (contents blocks) (place bn) ≠ 0) :
    Foreign used block blocks used (update block (d.entry (contents blocks) (place bn)) data)
      (update blocks (d.entry (contents blocks) (place bn)) (some data)) := by
  intro b hb hnone
  have hb' : b ≠ d.entry (contents blocks) (place bn) := by
    rintro rfl
    exact h.ne_none (place_lt hbn) hne hnone
  rw [update_of_ne hb', update_of_ne hb']
  exact ⟨hb, rfl, hnone⟩

theorem byteAt_write (h : Owns (d.entry (contents blocks)) blocks) (hbn : bn < maxfile)
    (hne : d.entry (contents blocks) (place bn) ≠ 0) {o : Nat} (ho : o / bsize < maxfile) :
    byteAt d (contents (update blocks (d.entry (contents blocks) (place bn)) (some data))) o =
      if o / bsize = bn then data (o % bsize) else byteAt d (contents blocks) o := by
  rw [Fs.byteAt, entry_write data h hbn hne, contents_update]
  split
  · rename_i heq
    rw [heq, update_self]
  · rename_i hother
    rw [update_of_ne, Fs.byteAt]
    intro heq
    exact hother (place_inj (h.distinct _ _ (place_lt ho) (place_lt hbn) (heq ▸ hne) heq))

end WriteBlock

section Chunks

variable {o off c : Nat}

theorem chunk_block (hc : c ≤ bsize - off % bsize) (hle : off ≤ o) (hlt : o < off + c) :
    o / bsize = off / bsize := by
  simp only [bsize] at hc ⊢
  omega

theorem chunk_iff (hsame : o / bsize = off / bsize) :
    (off % bsize ≤ o % bsize ∧ o % bsize < off % bsize + c) ↔ (off ≤ o ∧ o < off + c) := by
  simp only [bsize] at hsame ⊢
  omega

theorem chunk_sub (hsame : o / bsize = off / bsize) (hle : off ≤ o) :
    o % bsize - off % bsize = o - off := by
  simp only [bsize] at hsame ⊢
  omega

end Chunks

/-- What the loop of `writei` leaves after `m` bytes from `off` on. -/
structure Written (sb : Superblock) (touched : Nat → Bool) (used : Nat → Bool) (block : Nat → Block)
    (d : Dinode) (blocks : Nat → Option Block) (src : Nat → UInt8) (off m : Nat) (used' : Nat → Bool)
    (block' : Nat → Block) (d' : Dinode) (blocks' : Nat → Option Block) : Prop where
  ready : Ready used' block' d' blocks'
  extends_ : Extends d blocks d' blocks'
  foreign : Foreign used block blocks used' block' blocks'
  enough : vacant touched (d'.entry (contents blocks')) ≤ free sb used'
  new : ∀ o, off ≤ o → o < off + m → d'.entry (contents blocks') (place (o / bsize)) ≠ 0 ∧
    byteAt d' (contents blocks') o = src (o - off)
  old : ∀ o, o / bsize < maxfile → d.entry (contents blocks) (place (o / bsize)) ≠ 0 →
    (o < off ∨ off + m ≤ o) → byteAt d' (contents blocks') o = byteAt d (contents blocks) o

/-- The first `c` bytes, all in one block, and then the others. -/
theorem Written.cons {touched : Nat → Bool} {used₁ used' : Nat → Bool} {block₁ block' : Nat → Block}
    {d₁ d' : Dinode} {blocks₁ blocks' : Nat → Option Block} {src : Nat → UInt8} {off m c : Nat}
    {data : Block} (hready : Ready used block d blocks)
    (hgrown : Grown sb touched used block d blocks used₁ block₁ d₁ blocks₁) (hcm : c ≤ m)
    (hc : c ≤ bsize - off % bsize) (hbn : off / bsize < maxfile)
    (hne : d₁.entry (contents blocks₁) (place (off / bsize)) ≠ 0)
    (hdata : blocks₁ (d₁.entry (contents blocks₁) (place (off / bsize))) = some data)
    (hrest : Written sb touched used₁
      (update block₁ (d₁.entry (contents blocks₁) (place (off / bsize)))
        (data.write (off % bsize) c src)) d₁
      (update blocks₁ (d₁.entry (contents blocks₁) (place (off / bsize)))
        (some (data.write (off % bsize) c src)))
      (fun o => src (o + c)) (off + c) (m - c) used' block' d' blocks') :
    Written sb touched used block d blocks src off m used' block' d' blocks' := by
  have howns := hgrown.ready.owns
  have hwrite : Ready used₁ _ d₁ _ :=
    hgrown.ready.write (data.write (off % bsize) c src) hbn hne
  have hentry := entry_write (data.write (off % bsize) c src) howns hbn hne
  have hfirst : Extends d₁ blocks₁ d₁ _ := ⟨rfl, rfl, hwrite.owns, fun k _ => by rw [hentry]⟩
  -- the bytes after the first block has been written
  have hbyte : ∀ o, o / bsize < maxfile → byteAt d₁ (contents (update blocks₁
      (d₁.entry (contents blocks₁) (place (off / bsize))) (some (data.write (off % bsize) c src)))) o =
      if off ≤ o ∧ o < off + c then src (o - off) else byteAt d₁ (contents blocks₁) o := by
    intro o ho
    rw [byteAt_write _ howns hbn hne ho]
    by_cases hsame : o / bsize = off / bsize
    · have hread : byteAt d₁ (contents blocks₁) o = data (o % bsize) := by
        rw [byteAt, hsame, contents_of_some hdata]
      rw [if_pos hsame, Block.write, if_congr (chunk_iff hsame) rfl rfl, hread]
      split
      · rename_i hin
        rw [chunk_sub hsame hin.1]
      · rfl
    · rw [if_neg hsame, if_neg fun hin => hsame (chunk_block hc hin.1 hin.2)]
  refine ⟨hrest.ready, (hgrown.keeps.toExtends.trans hfirst).trans hrest.extends_,
    (hgrown.foreign.trans (.write _ howns hbn hne)).trans hrest.foreign, hrest.enough, ?_, ?_⟩
  · intro o hle hlt
    by_cases hnear : o < off + c
    · have hblock := chunk_block hc hle hnear
      have hne₂ := (congrFun hentry _).trans_ne hne
      refine ⟨?_, ?_⟩
      · rw [hblock, hrest.extends_.entry _ hne₂]
        exact hne₂
      · grind [hrest.old]
    · grind [hrest.new]
  · intro o ho hneo hout
    have hne₁ : d₁.entry (contents blocks₁) (place (o / bsize)) ≠ 0 :=
      hgrown.keeps.entry _ hneo ▸ hneo
    rw [hrest.old o ho ((congrFun hentry _).trans_ne hne₁) (by omega), hbyte o ho, if_neg (by omega),
      hgrown.keeps.byteAt hready.owns ho hneo]

theorem writeLoop_returns {touched : Nat → Bool} (k : Nat) (src : Nat → UInt8) (off m : Nat)
    (hk : m ≤ k) (hmax : off + m ≤ maxfile * bsize)
    (htouched : ∀ bn, off / bsize ≤ bn → bn * bsize < off + m →
      touched (place bn) = true ∧ (ndirect ≤ bn → touched ndirect = true))
    (h : Ready used block d blocks) (henough : vacant touched (d.entry (contents blocks)) ≤ free sb used) :
    Prog.Returns (exec p input) (fun r t => r = off + m ∧ ∃ used' block' d' blocks',
      Written sb touched used block d blocks src off m used' block' d' blocks' ∧
      t = s.file ip used' block' d') (writeLoop sb ip k src off m) (s.file ip used block d) := by
  induction k generalizing src off m used block d blocks with
  | zero =>
    obtain rfl : m = 0 := Nat.le_zero.mp hk
    exact Prog.returns_pure ⟨rfl, used, block, d, blocks, ⟨h, .refl h.owns, .refl, henough,
      fun o _ _ => by omega, fun o _ _ _ => rfl⟩, rfl⟩
  | succ k ih =>
    unfold writeLoop
    split
    · rename_i hm
      subst hm
      exact Prog.returns_pure ⟨rfl, used, block, d, blocks, ⟨h, .refl h.owns, .refl, henough,
        fun o _ _ => by omega, fun o _ _ _ => rfl⟩, rfl⟩
    · rename_i hm
      have hmod : off % bsize < bsize := Nat.mod_lt _ (by decide)
      have hbn : off / bsize < maxfile := Nat.div_lt_of_lt_mul (by rw [Nat.mul_comm]; omega)
      have hdiv := Nat.div_mul_le_self off bsize
      obtain ⟨hplace, hlast⟩ := htouched (off / bsize) (Nat.le_refl _) (by omega)
      refine (bmap_returns hbn hplace hlast h henough).seq ?_
      rintro addr t ⟨used₁, block₁, d₁, blocks₁, hgrown, rfl, hne, rfl⟩
      obtain ⟨data, hdata⟩ := hgrown.ready.owns.isSome (place_lt hbn) hne
      have hblock := (hgrown.ready.backed _ data hdata).2
      refine Prog.Returns.step (o := Op.bread _) (r := data) (t := s.file ip used₁ block₁ d₁) ?_ ?_
      · exact congrArg (fun x => some (x, s.file ip used₁ block₁ d₁)) hblock
      refine Prog.Returns.step (o := Op.bwrite _ _) rfl ?_
      have hwrite := hgrown.ready.write
        (data.write (off % bsize) (min m (bsize - off % bsize)) src) hbn hne
      have hentry := entry_write
        (data.write (off % bsize) (min m (bsize - off % bsize)) src) hgrown.ready.owns hbn hne
      have henough₁ := hgrown.enough
      rw [← hentry] at henough₁
      refine (ih (fun o => src (o + min m (bsize - off % bsize))) (off + min m (bsize - off % bsize))
        (m - min m (bsize - off % bsize)) (by omega) (by omega) (fun bn hle hlt => ?_) hwrite
        henough₁).mono ?_
      · refine htouched bn (Nat.le_trans ?_ hle) (by omega)
        exact Nat.div_le_div_right (by omega)
      · rintro r t ⟨rfl, used', block', d', blocks', hrest, rfl⟩
        refine ⟨by omega, used', block', d', blocks', ?_, rfl⟩
        exact hrest.cons h hgrown (by omega) (by omega) hbn hne hdata

/-! The statements about `readi` and `writei`. -/

/-- The block number at a place of a cached inode. -/
def State.cachedEntry (s : State n) (ip : Slot) (k : Nat) : Nat := (s.icache ip).copy.entry s.block k

theorem bmap_present {bn : Nat} (hbn : bn < maxfile) (hne : s.cachedEntry ip (place bn) ≠ 0) :
    Prog.Returns (exec p input) (fun r t => r = s.cachedEntry ip (place bn) ∧ t = s)
      (bmap sb ip bn) s := by
  have hdirect : ∀ k, (s.icache ip).copy.addrs k ≠ 0 → Prog.Returns (exec p input)
      (fun r t => r = (s.icache ip).copy.addrs k ∧ t = s) (direct sb ip k) s := by
    intro k hk
    refine Prog.Returns.step (o := Op.load ip) rfl ?_
    rw [if_neg hk]
    exact Prog.returns_pure ⟨rfl, rfl⟩
  unfold bmap
  by_cases hlt : bn < ndirect
  · have hentry : s.cachedEntry ip (place bn) = (s.icache ip).copy.addrs bn := by
      rw [place, if_pos hlt]
      exact entry_of_le (Nat.le_of_lt hlt)
    rw [if_pos hlt, hentry]
    exact hdirect bn (hentry ▸ hne)
  · have hpl : place bn = ndirect + 1 + (bn - ndirect) := by
      rw [place, if_neg hlt]
      omega
    have hind : (s.icache ip).copy.addrs ndirect ≠ 0 := fun hzero =>
      hne (entry_none hzero (by rw [hpl]; omega))
    have hentry : s.cachedEntry ip (place bn) =
        (s.block ((s.icache ip).copy.addrs ndirect)).word (bn - ndirect) := by
      rw [hpl]
      exact entry_word hind
    rw [if_neg hlt, if_pos (by simp only [maxfile] at hbn; omega)]
    refine (hdirect ndirect hind).seq ?_
    rintro _ _ ⟨rfl, rfl⟩
    refine Prog.Returns.step (o := Op.bread _) rfl ?_
    rw [if_neg (hentry ▸ hne)]
    exact Prog.returns_pure ⟨hentry.symm, rfl⟩

theorem readLoop_returns (k off m : Nat) (hk : m ≤ k)
    (hcover : ∀ bn, bn * bsize < off + m → bn < maxfile ∧ s.cachedEntry ip (place bn) ≠ 0) :
    Prog.Returns (exec p input) (fun r t =>
      r = (List.range m).map (fun j => byteAt (s.icache ip).copy s.block (off + j)) ∧ t = s)
      (readLoop sb ip k off m) s := by
  induction k generalizing off m with
  | zero =>
    obtain rfl : m = 0 := Nat.le_zero.mp hk
    exact Prog.returns_pure ⟨rfl, rfl⟩
  | succ k ih =>
    unfold readLoop
    split
    · rename_i hm
      subst hm
      exact Prog.returns_pure ⟨rfl, rfl⟩
    · rename_i hm
      have hmod : off % bsize < bsize := Nat.mod_lt _ (by decide)
      have hdiv := Nat.div_mul_le_self off bsize
      obtain ⟨hbn, hne⟩ := hcover (off / bsize) (by omega)
      refine (bmap_present hbn hne).seq ?_
      rintro _ t ⟨rfl, ht⟩
      subst t
      refine Prog.Returns.step (o := Op.bread _) rfl ?_
      refine (ih (off + min m (bsize - off % bsize)) (m - min m (bsize - off % bsize)) (by omega)
        fun bn hlt => hcover bn (by omega)).seq ?_
      rintro _ t ⟨rfl, ht⟩
      subst t
      refine Prog.returns_pure ⟨?_, rfl⟩
      have hread : Block.read (s.block (s.cachedEntry ip (place (off / bsize)))) (off % bsize)
          (min m (bsize - off % bsize)) = (List.range (min m (bsize - off % bsize))).map
            fun j => byteAt (s.icache ip).copy s.block (off + j) := by
        refine List.map_congr_left fun j hj => ?_
        have hjlt := List.mem_range.mp hj
        have hblock : (off + j) / bsize = off / bsize :=
          chunk_block (Nat.min_le_right m _) (by omega) (by omega)
        have hoff : (off + j) % bsize = off % bsize + j := by
          simp only [bsize] at hblock ⊢
          omega
        rw [byteAt, hblock, hoff]
        rfl
      have hsplit : List.range m = List.range (min m (bsize - off % bsize)) ++
          (List.range (m - min m (bsize - off % bsize))).map (min m (bsize - off % bsize) + ·) := by
        rw [← List.range_add]
        exact congrArg List.range (by omega)
      refine Eq.trans (congrArg (· ++ _) hread) ?_
      rw [hsplit, List.map_append, List.map_map]
      refine congrArg _ (List.map_congr_left fun j _ => ?_)
      rw [comp_apply, Nat.add_assoc]

/-- Another inode: its size is possible, and its blocks are marked in the bitmap and are not those of
the cached inode `ip`. -/
structure Apart (s : State n) (ip : Slot) (d : Dinode) : Prop where
  size : d.size ≤ maxfile * bsize
  used : ∀ l, l < places → d.entry s.block l ≠ 0 → s.used (d.entry s.block l) = true
  entry : ∀ l, l < places → d.entry s.block l ≠ 0 →
    ∀ k, k < places → s.cachedEntry ip k ≠ d.entry s.block l

/-- An inode of type `T_FILE`, read from the disk, that has a block for each part of its size and
shares none. -/
structure WellFormed (s : State n) (ip : Slot) : Prop where
  valid : (s.icache ip).valid = true
  file : (s.icache ip).copy.type = .file
  cover : ∀ bn, bn * bsize < (s.icache ip).copy.size → bn < maxfile ∧ s.cachedEntry ip (place bn) ≠ 0
  once : ∀ k l, k < places → l < places → s.cachedEntry ip k ≠ 0 →
    s.cachedEntry ip k = s.cachedEntry ip l → k = l
  marked : ∀ k, k < places → s.cachedEntry ip k ≠ 0 → s.used (s.cachedEntry ip k) = true
  dinodes : ∀ j, j ≠ (s.icache ip).inum → (s.dinode j).type ≠ .free → Apart s ip (s.dinode j)
  cached : ∀ q, q ≠ ip → (s.icache q).valid = true → Apart s ip (s.icache q).copy
  boot : s.used 0 = true

open Classical in
/-- The blocks of a cached inode. -/
noncomputable def cachedBlocks (s : State n) (ip : Slot) (b : Nat) : Option Block :=
  if b ≠ 0 ∧ ∃ k, k < places ∧ s.cachedEntry ip k = b then some (s.block b) else none

theorem contents_cachedBlocks :
    (s.icache ip).copy.entry (contents (cachedBlocks s ip)) = s.cachedEntry ip := by
  refine entry_congr fun hne => ?_
  have hlast : s.cachedEntry ip ndirect = (s.icache ip).copy.addrs ndirect := entry_of_le (Nat.le_refl _)
  rw [contents, cachedBlocks, if_pos ⟨hne, ndirect, by decide, hlast⟩, Option.getD_some]

/-- The blocks of a cached inode are distinct and marked in the bitmap. -/
structure OwnBlocks (s : State n) (ip : Slot) : Prop where
  once : ∀ k l, k < places → l < places → s.cachedEntry ip k ≠ 0 →
    s.cachedEntry ip k = s.cachedEntry ip l → k = l
  marked : ∀ k, k < places → s.cachedEntry ip k ≠ 0 → s.used (s.cachedEntry ip k) = true
  boot : s.used 0 = true

theorem OwnBlocks.ready (h : OwnBlocks s ip) (hzero : FreeZero s) :
    Ready s.used s.block (s.icache ip).copy (cachedBlocks s ip) := by
  refine ⟨⟨?_, fun b => ?_⟩, fun b data hb => ?_, hzero, h.boot⟩
  · rw [contents_cachedBlocks]
    exact h.once
  · rw [contents_cachedBlocks, cachedBlocks]
    split
    · rename_i hb
      exact ⟨fun _ => hb, fun _ => nofun⟩
    · rename_i hb
      exact ⟨fun h => absurd rfl h, fun h => absurd h hb⟩
  · unfold cachedBlocks at hb
    split at hb
    · rename_i howned
      obtain ⟨hb0, k, hk, rfl⟩ := howned
      exact ⟨h.marked k hk hb0, Option.some.inj hb⟩
    · cases hb

theorem WellFormed.ready (h : WellFormed s ip) (hzero : FreeZero s) :
    Ready s.used s.block (s.icache ip).copy (cachedBlocks s ip) :=
  OwnBlocks.ready ⟨h.once, h.marked, h.boot⟩ hzero

/-- The places of the blocks that `writei` of `m` bytes at `off` uses. -/
def touches (off m k : Nat) : Bool :=
  if k = ndirect then decide (ndirect * bsize < off + m)
  else decide (off / bsize ≤ (if k < ndirect then k else k - 1) ∧
    (if k < ndirect then k else k - 1) * bsize < off + m)

theorem touches_place {off m bn : Nat} (hle : off / bsize ≤ bn) (hlt : bn * bsize < off + m) :
    touches off m (place bn) = true ∧ (ndirect ≤ bn → touches off m ndirect = true) := by
  constructor
  · have hindex : (if place bn < ndirect then place bn else place bn - 1) = bn := by
      grind [place]
    rw [touches, if_neg (place_ne_ndirect bn), hindex]
    exact decide_eq_true ⟨hle, hlt⟩
  · intro hbn
    rw [touches, if_pos rfl]
    exact decide_eq_true (Nat.lt_of_le_of_lt (Nat.mul_le_mul_right bsize hbn) hlt)

/-- Bytes replaced from an offset on, beyond the end if need be. -/
def splice (old : List UInt8) (off : Nat) (new : List UInt8) : List UInt8 :=
  old.take off ++ new ++ old.drop (off + new.length)

theorem splice_eq {old : Nat → UInt8} {src : Nat → UInt8} {size off m : Nat} (hoff : off ≤ size) :
    splice ((List.range size).map old) off ((List.range m).map src) =
      (List.range (max size (off + m))).map fun o =>
        if off ≤ o ∧ o < off + m then src (o - off) else old o := by
  refine List.ext_getElem? fun o => ?_
  simp only [splice, List.getElem?_append, List.getElem?_map, List.getElem?_drop, List.getElem?_take,
    List.length_append, List.length_take, List.length_map, List.length_range]
  grind

/-- The bytes of a file have been replaced, and the other inodes are as before. -/
structure Replaced (s : State n) (ip : Slot) (off : Nat) (new : List UInt8) (t : State n) : Prop where
  bytes : bytesOf (t.icache ip).copy t.block = splice (bytesOf (s.icache ip).copy s.block) off new
  dinodes : ∀ j, j ≠ (s.icache ip).inum → (s.dinode j).type ≠ .free →
    t.dinode j = s.dinode j ∧ bytesOf (t.dinode j) t.block = bytesOf (s.dinode j) s.block
  cached : ∀ q, q ≠ ip → t.icache q = s.icache q ∧ ((s.icache q).valid = true →
    bytesOf (t.icache q).copy t.block = bytesOf (s.icache q).copy s.block)

/-- Another inode's blocks are used and are not those of the file. -/
theorem Apart.bytesOf_eq {used' : Nat → Bool} {block' : Nat → Block} {blocks' : Nat → Option Block}
    (h : Apart s ip d) (hboot : s.used 0 = true)
    (hforeign : Foreign s.used s.block (cachedBlocks s ip) used' block' blocks') :
    bytesOf d block' = bytesOf d s.block := by
  have hkeep : ∀ l, l < places → block' (d.entry s.block l) = s.block (d.entry s.block l) := by
    intro l hl
    by_cases hzero : d.entry s.block l = 0
    · rw [hzero]
      exact (hforeign 0 hboot (by simp [cachedBlocks])).2.1
    · refine (hforeign _ (h.used l hl hzero) ?_).2.1
      rw [cachedBlocks, if_neg]
      rintro ⟨-, k, hk, heq⟩
      exact h.entry l hl hzero k hk heq
  have hlast : d.entry s.block ndirect = d.addrs ndirect := entry_of_le (Nat.le_refl _)
  have hentry : d.entry block' = d.entry s.block :=
    entry_congr fun _ => hlast ▸ hkeep ndirect (by decide)
  refine List.map_congr_left fun o ho => ?_
  have hlt : o / bsize < maxfile :=
    Nat.div_lt_of_lt_mul (Nat.mul_comm maxfile bsize ▸ Nat.lt_of_lt_of_le (List.mem_range.mp ho) h.size)
  rw [byteAt, byteAt, hentry, hkeep _ (place_lt hlt)]

/-- The size a file has after `grow`. -/
theorem grow_returns {used' : Nat → Bool} {block' : Nat → Block} {d' : Dinode} {off m : Nat}
    (hm : m < 2 ^ 31) (hsize : off ≤ d'.size) :
    Prog.Returns (exec p input) (fun (r : Int) t => r = m ∧
      t.icache = (s.file ip used' block' { d' with size := max d'.size (off + m) }).icache ∧
      t.block = block' ∧ t.used = used' ∧ ∀ j, j ≠ (s.icache ip).inum → t.dinode j = s.dinode j)
      (grow ip (off + m) m) (s.file ip used' block' d') := by
  have hint : toInt m = m := if_pos hm
  refine Prog.Returns.step (o := Op.load ip) rfl ?_
  simp only [file_inode]
  split
  · rename_i hlarge
    refine Prog.Returns.step (o := Op.store ip _) rfl ?_
    refine Prog.Returns.step (o := Op.load ip) rfl ?_
    refine Prog.Returns.step (o := Op.writeDinode _ _) rfl ?_
    refine Prog.returns_pure ⟨hint, ?_, rfl, rfl, fun j hj => ?_⟩
    · rw [Nat.max_eq_right (Nat.le_of_lt hlarge.2)]
      have hstore : ((s.file ip used' block' d').setInode ip
          fun i => { i with copy := { d' with size := off + m } }) =
          s.file ip used' block' { d' with size := off + m } := file_store _
      have hicache := congrArg State.icache hstore
      exact hicache
    · refine update_of_ne ?_ _ _
      simpa [State.file, State.setInode] using hj
  · rename_i hsmall
    refine Prog.returns_pure ⟨hint, ?_, rfl, rfl, fun j _ => rfl⟩
    have hmax : max d'.size (off + m) = d'.size := by omega
    rw [hmax]

theorem writei_returns {src : Nat → UInt8} {off m : Nat} (h : WellFormed s ip) (hzero : FreeZero s)
    (hoff : off ≤ (s.icache ip).copy.size) (hwrap : off + m < uintSize)
    (henough : vacant (touches off (min m (maxfile * bsize - off))) (s.cachedEntry ip) ≤
      free sb s.used) :
    Prog.Returns (exec p input) (fun (r : Int) t => r = (min m (maxfile * bsize - off) : Nat) ∧
      Replaced s ip off ((List.range (min m (maxfile * bsize - off))).map src) t)
      (writei sb ip src off m) s := by
  have hsize : (s.icache ip).copy.size ≤ maxfile * bsize := by
    by_contra hlarge
    exact Nat.lt_irrefl _ (h.cover maxfile (Nat.not_le.mp hlarge)).1
  have hmax : maxfile * bsize = 71680 := rfl
  have hlen : (if maxfile * bsize < off + m then sub32 (maxfile * bsize) off else m) =
      min m (maxfile * bsize - off) := by
    have hsub : sub32 (maxfile * bsize) off = maxfile * bsize - off := by
      rw [sub32, uintSize]
      omega
    split <;> omega
  refine Prog.Returns.step (o := Op.load ip) rfl ?_
  simp only [h.file, reduceCtorEq, if_false]
  rw [if_neg (by rw [Nat.mod_eq_of_lt hwrap]; omega), hlen]
  generalize hlen' : min m (maxfile * bsize - off) = c at henough ⊢
  have hready := h.ready hzero
  have henough' : vacant (touches off c) ((s.icache ip).copy.entry (contents (cachedBlocks s ip))) ≤
      free sb s.used := contents_cachedBlocks (s := s) ▸ henough
  rw [show s = s.file ip s.used s.block (s.icache ip).copy from file_self.symm]
  refine (writeLoop_returns c src off c (Nat.le_refl _) (by omega) (fun bn => touches_place) hready
    henough').seq ?_
  rintro _ _ ⟨rfl, used', block', d', blocks', hw, rfl⟩
  refine (grow_returns (by omega) (hw.extends_.size ▸ hoff)).mono ?_
  rintro r t ⟨rfl, hcache, hblock, -, hdinode⟩
  rw [file_self]
  have hother : ∀ q, q ≠ ip → t.icache q = s.icache q := fun q hq => by
    rw [hcache]
    exact update_of_ne hq _ _
  refine ⟨rfl, ?_, fun j hj htype => ⟨hdinode j hj, ?_⟩, fun q hq => ⟨hother q hq, fun hvalid => ?_⟩⟩
  · rw [hcache, hblock, file_inode, bytesOf, bytesOf, splice_eq hoff, hw.extends_.size]
    refine List.map_congr_left fun o ho => ?_
    have holt : o < max (s.icache ip).copy.size (off + c) := List.mem_range.mp ho
    have hbn : o / bsize < maxfile := Nat.div_lt_of_lt_mul (Nat.mul_comm maxfile bsize ▸ by omega)
    split
    · rename_i hnew
      obtain ⟨hne, hbyte⟩ := hw.new o hnew.1 hnew.2
      exact (hw.ready.byteAt hbn hne).trans hbyte
    · rename_i hold
      have hne := (h.cover (o / bsize) (Nat.lt_of_le_of_lt (Nat.div_mul_le_self o bsize) (by omega))).2
      rw [← contents_cachedBlocks] at hne
      have hkept := hw.old o hbn hne (by omega)
      rw [← hready.byteAt hbn hne] at hkept
      exact (hw.ready.byteAt hbn ((hw.extends_.entry _ hne).symm ▸ hne)).trans hkept
  · rw [hdinode j hj, hblock]
    exact (h.dinodes j hj htype).bytesOf_eq h.boot hw.foreign
  · rw [hother q hq, hblock]
    exact (h.cached q hq hvalid).bytesOf_eq h.boot hw.foreign

theorem readi_returns {off m : Nat} (h : WellFormed s ip) (hoff : off ≤ (s.icache ip).copy.size)
    (hwrap : off + m < uintSize) :
    Prog.Returns (exec p input)
      (fun r t => r = some (((bytesOf (s.icache ip).copy s.block).drop off).take m) ∧ t = s)
      (readi sb ip off m) s := by
  refine Prog.Returns.step (o := Op.load ip) rfl ?_
  simp only [h.file, reduceCtorEq, if_false]
  rw [if_neg (by rw [Nat.mod_eq_of_lt hwrap]; omega)]
  have hlen : (if (s.icache ip).copy.size < off + m then (s.icache ip).copy.size - off else m) =
      min m ((s.icache ip).copy.size - off) := by
    split <;> omega
  rw [hlen]
  refine (readLoop_returns _ off _ (Nat.le_refl _) fun bn hlt => h.cover bn (by omega)).seq ?_
  rintro _ t ⟨rfl, ht⟩
  refine Prog.returns_pure ⟨congrArg some ?_, ht⟩
  refine List.ext_getElem? fun o => ?_
  simp only [bytesOf, List.getElem?_map, List.getElem?_take, List.getElem?_drop]
  grind

/-- An offset past the end, or a wrap of the sum, is refused at once. -/
theorem refused {off m : Nat} {src : Nat → UInt8} (h : WellFormed s ip) (hoff : off < uintSize)
    (hm : m < uintSize) (hbad : (s.icache ip).copy.size < off ∨ uintSize ≤ off + m) :
    Prog.Returns (exec p input) (fun (r : Int) t => r = -1 ∧ t = s) (writei sb ip src off m) s ∧
      Prog.Returns (exec p input) (fun r t => r = none ∧ t = s) (readi sb ip off m) s := by
  have hcond : (s.icache ip).copy.size < off ∨ (off + m) % uintSize < off := by
    rcases hbad with hlarge | hwrap
    · exact .inl hlarge
    · right
      rw [Nat.mod_eq_sub_mod hwrap, Nat.mod_eq_of_lt (by omega)]
      omega
  constructor
  · refine Prog.Returns.step (o := Op.load ip) rfl ?_
    simp only [h.file, reduceCtorEq, if_false]
    rw [if_pos hcond]
    exact Prog.returns_pure ⟨rfl, rfl⟩
  · refine Prog.Returns.step (o := Op.load ip) rfl ?_
    simp only [h.file, reduceCtorEq, if_false]
    rw [if_pos hcond]
    exact Prog.returns_pure ⟨rfl, rfl⟩

/-- The slot of the file in the next image. -/
def fileSlot : Slot := ⟨1, by decide⟩

/-- A file of twelve blocks, locked, on a disk whose first free block has the contents `stale`. -/
def fullFile (stale : Block) : State 1 :=
  { staleImage with
    block := update staleImage.block 19 stale
    icache := update staleImage.icache fileSlot
      { inum := 2, valid := true, copy := staleImage.dinode 2, ref := 1, busy := some 0 } }

theorem fullFile_entry (stale : Block) (i k : Nat) :
    ((fullFile stale).dinode i).entry (fullFile stale).block k = staleImage.entry i k := by
  refine congrFun (entry_congr fun hne => absurd ?_ hne) k
  have hlast := staleImage_entry i ndirect
  rw [State.entry, entry_of_le (Nat.le_refl _)] at hlast
  refine hlast.trans ?_
  simp [ndirect]

theorem fullFile_cachedEntry (stale : Block) (k : Nat) :
    (fullFile stale).cachedEntry fileSlot k = if k < 12 then 7 + k else 0 :=
  (fullFile_entry stale 2 k).trans ((staleImage_entry 2 k).trans (by simp))

theorem fullFile_wellFormed (stale : Block) : WellFormed (fullFile stale) fileSlot where
  valid := rfl
  file := rfl
  cover := by
    intro bn hbn
    have hbn : bn * 512 < 6144 := hbn
    have hlt : bn < 12 := by omega
    have hpl : place bn = bn := if_pos hlt
    rw [fullFile_cachedEntry, hpl, if_pos hlt]
    exact ⟨Nat.lt_of_lt_of_le hlt (by decide), by omega⟩
  once := by
    intro k l _ _ hne heq
    rw [fullFile_cachedEntry] at hne heq
    rw [fullFile_cachedEntry] at heq
    grind
  marked := by
    intro k _ hne
    rw [fullFile_cachedEntry] at hne ⊢
    refine decide_eq_true ?_
    grind
  dinodes := by
    intro j hj htype
    have hj : j ≠ 2 := hj
    refine ⟨?_, ?_, ?_⟩
    · have hsize : ((fullFile stale).dinode j).size = if j = 1 then 16 else 0 := by
        simp only [fullFile, staleImage, bootWith, hj, if_false]
        split <;> rfl
      rw [hsize]
      exact Nat.le_trans (by split <;> omega : _ ≤ 16) (by decide)
    · intro l _ hne
      rw [fullFile_entry, staleImage_entry] at hne ⊢
      refine decide_eq_true ?_
      grind
    · intro l _ hne k _
      rw [fullFile_entry, staleImage_entry] at hne ⊢
      rw [fullFile_cachedEntry]
      grind
  cached := by
    intro q hq hvalid
    have hslot : (fullFile stale).icache q = staleImage.icache q := update_of_ne hq _ _
    rw [hslot] at hvalid
    simp only [staleImage, bootWith] at hvalid
    split at hvalid <;> cases hvalid
  boot := rfl

theorem fullFile_enough (stale : Block) : vacant (touches 6144 1)
    ((fullFile stale).cachedEntry fileSlot) ≤ free smallDisk (fullFile stale).used := by
  rw [show (fullFile stale).cachedEntry fileSlot = fun k => if k < 12 then 7 + k else 0 from
    funext (fullFile_cachedEntry stale)]
  show vacant (touches 6144 1) _ ≤ free smallDisk fun b => decide (b < 19)
  decide +kernel

end Xv6.Fs
