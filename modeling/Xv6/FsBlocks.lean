import Xv6.FsCode

/-! The blocks an inode refers to. They stand at numbered places: the entries of `addrs`, the last of
which is the indirect block, and then the words of the indirect block. -/

namespace Xv6.Fs

open Function

/-- The number of places. -/
def places : Nat := ndirect + 1 + nindirect

/-- The place of the `bn`th block of the contents. -/
def place (bn : Nat) : Nat := if bn < ndirect then bn else bn + 1

/-- The block number at a place, 0 for none. -/
def Dinode.entry (d : Dinode) (block : Nat → Block) (k : Nat) : Nat :=
  if k ≤ ndirect then d.addrs k
  else if d.addrs ndirect = 0 then 0 else (block (d.addrs ndirect)).word (k - (ndirect + 1))

section Words

variable {b : Block} {j l a : Nat}

theorem zero_word : Block.zero.word j = 0 := by
  simp [Block.word, Block.zero]

theorem byteOf_toNat (a i : Nat) : (byteOf a i).toNat = a / 2 ^ (8 * i) % 2 ^ 8 := by
  simp [byteOf]

theorem word_setWord_self (ha : a < LibWord.uintSize) : (b.setWord j a).word j = a := by
  have hbyte : ∀ i, i < 4 → b.setWord j a (4 * j + i) = byteOf a i := by
    intro i hi
    rw [Block.setWord, if_pos (by omega), Nat.mul_add_mod, Nat.mod_eq_of_lt hi]
  have h0 := hbyte 0 (by decide)
  rw [Nat.add_zero] at h0
  rw [Block.word, h0, hbyte 1 (by decide), hbyte 2 (by decide), hbyte 3 (by decide)]
  simp only [byteOf_toNat, LibWord.uintSize] at ha ⊢
  omega

theorem word_setWord_of_ne (h : l ≠ j) : (b.setWord j a).word l = b.word l := by
  have hbyte : ∀ i, i < 4 → b.setWord j a (4 * l + i) = b (4 * l + i) := by
    intro i hi
    rw [Block.setWord, if_neg (by omega)]
  have h0 := hbyte 0 (by decide)
  rw [Nat.add_zero] at h0
  rw [Block.word, h0, hbyte 1 (by decide), hbyte 2 (by decide), hbyte 3 (by decide), Block.word]

end Words

section Entries

variable {d : Dinode} {block : Nat → Block} {k j a : Nat}

theorem entry_of_le (hk : k ≤ ndirect) : d.entry block k = d.addrs k := if_pos hk

theorem entry_word (hd : d.addrs ndirect ≠ 0) :
    d.entry block (ndirect + 1 + j) = (block (d.addrs ndirect)).word j := by
  rw [Dinode.entry, if_neg (by omega), if_neg hd, Nat.add_sub_cancel_left]

theorem entry_none (hd : d.addrs ndirect = 0) (hk : ndirect ≤ k) : d.entry block k = 0 := by
  by_cases hle : k ≤ ndirect
  · rw [entry_of_le hle, Nat.le_antisymm hle hk, hd]
  · rw [Dinode.entry, if_neg hle, if_pos hd]

theorem setAddr_self : (d.setAddr k a).addrs k = a := by
  simp [Dinode.setAddr]

theorem setAddr_of_ne (h : j ≠ k) : (d.setAddr k a).addrs j = d.addrs j := by
  simp [Dinode.setAddr, update_of_ne h]

theorem entry_setAddr (hk : k < ndirect) :
    (d.setAddr k a).entry block = update (d.entry block) k a := by
  funext l
  by_cases hl : l = k
  · subst hl
    rw [update_self, entry_of_le (Nat.le_of_lt hk), setAddr_self]
  · rw [update_of_ne hl, Dinode.entry, Dinode.entry, setAddr_of_ne (Nat.ne_of_gt hk),
      setAddr_of_ne hl]

/-- A new indirect block refers to no blocks if it is zero. -/
theorem entry_setAddr_last (hd : d.addrs ndirect = 0) (hblock : block a = Block.zero) :
    (d.setAddr ndirect a).entry block = update (d.entry block) ndirect a := by
  funext l
  rcases Nat.lt_trichotomy l ndirect with hl | rfl | hl
  · rw [update_of_ne (Nat.ne_of_lt hl), entry_of_le (Nat.le_of_lt hl),
      entry_of_le (Nat.le_of_lt hl), setAddr_of_ne (Nat.ne_of_lt hl)]
  · rw [update_self, entry_of_le (Nat.le_refl _), setAddr_self]
  · rw [update_of_ne (Nat.ne_of_gt hl), entry_none hd (Nat.le_of_lt hl), Dinode.entry,
      if_neg (by omega), setAddr_self, hblock, zero_word, ite_self]

theorem entry_setWord (hd : d.addrs ndirect ≠ 0) (ha : a < LibWord.uintSize) :
    d.entry (update block (d.addrs ndirect) ((block (d.addrs ndirect)).setWord j a)) =
      update (d.entry block) (ndirect + 1 + j) a := by
  funext l
  by_cases hl : l ≤ ndirect
  · rw [update_of_ne (by omega), entry_of_le hl, entry_of_le hl]
  · obtain ⟨i, rfl⟩ : ∃ i, l = ndirect + 1 + i := ⟨l - (ndirect + 1), by omega⟩
    rw [entry_word hd, update_self]
    by_cases hi : i = j
    · subst hi
      rw [word_setWord_self ha, update_self]
    · rw [word_setWord_of_ne hi, update_of_ne (by omega), entry_word hd]

theorem entry_congr {block' : Nat → Block}
    (h : d.addrs ndirect ≠ 0 → block' (d.addrs ndirect) = block (d.addrs ndirect)) :
    d.entry block' = d.entry block := by
  funext k
  by_cases hd : d.addrs ndirect = 0
  · simp [Dinode.entry, hd]
  · rw [Dinode.entry, Dinode.entry, h hd]

end Entries

/-- The blocks at the places are distinct, and they are those that are owned. -/
structure Owns (entry : Nat → Nat) (blocks : Nat → Option Block) : Prop where
  distinct : ∀ k l, k < places → l < places → entry k ≠ 0 → entry k = entry l → k = l
  owned : ∀ b, blocks b ≠ none ↔ b ≠ 0 ∧ ∃ k, k < places ∧ entry k = b

namespace Owns

variable {entry : Nat → Nat} {blocks : Nat → Option Block} {k b : Nat} {data : Block}

theorem ne_none (h : Owns entry blocks) (hk : k < places) (he : entry k ≠ 0) :
    blocks (entry k) ≠ none :=
  (h.owned _).mpr ⟨he, k, hk, rfl⟩

theorem isSome (h : Owns entry blocks) (hk : k < places) (he : entry k ≠ 0) :
    ∃ data, blocks (entry k) = some data :=
  Option.ne_none_iff_exists'.mp (h.ne_none hk he)

theorem alloc (h : Owns entry blocks) (hk : k < places) (he : entry k = 0) (hb : b ≠ 0)
    (hnew : blocks b = none) :
    Owns (update entry k b) (update blocks b (some data)) := by
  -- the new block stood at no place
  have hfresh : ∀ l, l < places → entry l ≠ b := fun l hl heq =>
    (h.owned b).mpr ⟨hb, l, hl, heq⟩ hnew
  constructor
  · intro i j hi hj hne heq
    by_cases hik : i = k <;> by_cases hjk : j = k
    · rw [hik, hjk]
    · rw [hik, update_self, update_of_ne hjk] at heq
      exact absurd heq.symm (hfresh j hj)
    · rw [hjk, update_self, update_of_ne hik] at heq
      exact absurd heq (hfresh i hi)
    · rw [update_of_ne hik] at hne heq
      rw [update_of_ne hjk] at heq
      exact h.distinct i j hi hj hne heq
  · intro c
    by_cases hc : c = b
    · subst hc
      simp only [update_self, ne_eq, reduceCtorEq, not_false_eq_true, true_iff]
      exact ⟨hb, k, hk, update_self _ _ _⟩
    · rw [update_of_ne hc, h.owned]
      refine and_congr_right fun hc0 => exists_congr fun l => and_congr_right fun _ => ?_
      by_cases hl : l = k
      · subst hl
        rw [update_self, he]
        exact ⟨fun h => absurd h.symm hc0, fun h => absurd h.symm hc⟩
      · rw [update_of_ne hl]

theorem free (h : Owns entry blocks) (hk : k < places) (he : entry k ≠ 0) :
    Owns (update entry k 0) (update blocks (entry k) none) := by
  constructor
  · intro i j hi hj hne heq
    by_cases hik : i = k
    · rw [hik, update_self] at hne
      exact absurd rfl hne
    · rw [update_of_ne hik] at hne heq
      by_cases hjk : j = k
      · rw [hjk, update_self] at heq
        exact absurd heq hne
      · rw [update_of_ne hjk] at heq
        exact h.distinct i j hi hj hne heq
  · intro c
    by_cases hc : c = entry k
    · subst hc
      simp only [update_self, ne_eq, not_true_eq_false, false_iff, not_and, not_exists]
      intro h0 l hl heq
      by_cases hlk : l = k
      · rw [hlk, update_self] at heq
        exact h0 heq.symm
      · rw [update_of_ne hlk] at heq
        exact hlk (h.distinct l k hl hk (heq ▸ h0) heq)
    · rw [update_of_ne hc, h.owned]
      refine and_congr_right fun hc0 => exists_congr fun l => and_congr_right fun _ => ?_
      by_cases hl : l = k
      · subst hl
        rw [update_self]
        exact ⟨fun h => absurd h.symm hc, fun h => absurd h.symm hc0⟩
      · rw [update_of_ne hl]

theorem write (h : Owns entry blocks) (hb : blocks b ≠ none) :
    Owns entry (update blocks b (some data)) := by
  refine ⟨h.distinct, fun c => ?_⟩
  rw [← h.owned]
  by_cases hc : c = b
  · subst hc
    simpa using hb
  · rw [update_of_ne hc]

end Owns

/-- The contents of the owned blocks. -/
def contents (blocks : Nat → Option Block) (b : Nat) : Block := (blocks b).getD Block.zero

theorem contents_of_some {blocks : Nat → Option Block} {b : Nat} {data : Block}
    (h : blocks b = some data) : contents blocks b = data := by
  rw [contents, h, Option.getD_some]

theorem contents_update (blocks : Nat → Option Block) (b : Nat) (data : Block) :
    contents (update blocks b (some data)) = update (contents blocks) b data := by
  funext c
  by_cases hc : c = b
  · subst hc
    rw [contents, update_self, update_self, Option.getD_some]
  · rw [contents, update_of_ne hc, update_of_ne hc, contents]

theorem place_lt {bn : Nat} (h : bn < maxfile) : place bn < places := by
  simp only [place, places, maxfile] at h ⊢
  split <;> omega

theorem place_ne_ndirect (bn : Nat) : place bn ≠ ndirect := by
  simp only [place]
  split <;> omega

theorem place_inj {a b : Nat} (h : place a = place b) : a = b := by
  simp only [place] at h
  split at h <;> split at h <;> omega

/-- A block of the contents is not the indirect block. -/
theorem Owns.entry_ne_last {d : Dinode} {blocks : Nat → Option Block}
    (h : Owns (d.entry (contents blocks)) blocks) {bn : Nat} (hbn : bn < maxfile)
    (hne : d.entry (contents blocks) (place bn) ≠ 0) :
    d.entry (contents blocks) (place bn) ≠ d.addrs ndirect := by
  intro heq
  have hself : d.entry (contents blocks) ndirect = d.addrs ndirect := entry_of_le (Nat.le_refl _)
  exact place_ne_ndirect bn
    (h.distinct _ _ (place_lt hbn) (by decide) hne (heq.trans hself.symm))

/-- An allocated inode owns the blocks it refers to, and has a block for all of its size. -/
structure Settled (d : Dinode) (blocks : Nat → Option Block) : Prop where
  type_ne : d.type ≠ .free
  owns : Owns (d.entry (contents blocks)) blocks
  cover : ∀ bn, bn * bsize < d.size → bn < maxfile ∧ d.entry (contents blocks) (place bn) ≠ 0

end Xv6.Fs
