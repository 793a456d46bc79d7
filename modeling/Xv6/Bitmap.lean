import Xv6.FsContents

/-! `balloc` on the bytes of the bitmap. The bitmap begins behind the inodes; `BBLOCK` gives the sector with
the bit of a block. The loop variable `b` of `balloc` is an `int`, and it is compared with `sb.size` as a
`uint`. Sectors are read and written through the buffer cache, as a map from numbers to bytes. -/

namespace Xv6.Fs.Bitmap

open LibWord Function

/-- `IPB`: inodes of a block. -/
def ipb : Nat := bsize / 64

/-- The fields of the superblock that `balloc` reads, as `uint`s. -/
structure Super where
  size : Nat
  ninodes : Nat
  size_lt : size < uintSize
  ninodes_lt : ninodes < uintSize

abbrev Disk := Nat → Block

/-- `BBLOCK(b, ninodes)` for an `int` `b`. -/
def bblock (sb : Super) (b : Nat) : Nat :=
  (toUint (Int.tdiv (toInt b) bpb) + sb.ninodes / ipb + 3) % uintSize

/-- `(data[bi/8] & (1 << (bi % 8))) != 0` -/
def testBit (data : Block) (bi : Nat) : Bool := decide ((data (bi / 8)).toNat &&& 1 <<< (bi % 8) ≠ 0)

/-- `data[bi/8] |= 1 << (bi % 8)` -/
def setBit (data : Block) (bi : Nat) : Block :=
  update data (bi / 8) (UInt8.ofNat ((data (bi / 8)).toNat ||| 1 <<< (bi % 8)))

/-- How `balloc` ends. -/
inductive Outcome where
  | block (b : Nat) (disk : Disk)
  | panic (message : String)

/-- The loop of `balloc`, if it ends after at most so many turns. -/
def ballocLoop (sb : Super) (disk : Disk) : Nat → Nat → Option Outcome
  | 0, _ => none
  | k + 1, b =>
    if b < sb.size then
      match firstClear (testBit (disk (bblock sb b))) bpb 0 with
      | some bi =>
        some (.block ((b + bi) % uintSize)
          (update disk (bblock sb b) (setBit (disk (bblock sb b)) bi)))
      | none => ballocLoop sb disk k ((b + bpb) % uintSize)
    else some (.panic "balloc: out of blocks")

def balloc (sb : Super) (disk : Disk) (fuel : Nat) : Option Outcome := ballocLoop sb disk fuel 0

/-! What `balloc` is for. -/

/-- The bit of a block. -/
def used (sb : Super) (disk : Disk) (b : Nat) : Bool := testBit (disk (bblock sb (b - b % bpb))) (b % bpb)

/-- The disk with one more bit set. -/
def mark (sb : Super) (disk : Disk) (b : Nat) : Disk :=
  update disk (bblock sb (b - b % bpb)) (setBit (disk (bblock sb (b - b % bpb))) (b % bpb))

/-- `balloc` returns blocks of the disk that were free and marks them and nothing else, and it panics just
when there is none. -/
structure Allocates (sb : Super) (disk : Disk) : Prop where
  returns : ∀ fuel b disk', balloc sb disk fuel = some (.block b disk') →
    b < sb.size ∧ used sb disk b = false ∧ disk' = mark sb disk b ∧
      ∀ d < uintSize, used sb disk' d = (decide (b = d) || used sb disk d)
  panics : (∃ fuel message, balloc sb disk fuel = some (.panic message)) ↔ ∀ b < sb.size, used sb disk b = true

theorem bpb_pos : 0 < bpb := by decide

theorem bpb_dvd_uintSize : bpb ∣ uintSize := by decide

/-- One past the last bit of the bitmap blocks that are scanned. -/
def scanned (sb : Super) : Nat := bpb * ((sb.size + bpb - 1) / bpb)

theorem le_scanned (sb : Super) : sb.size ≤ scanned sb := by
  simp only [scanned, bpb, bsize]
  omega

theorem used_scan {b bi : Nat} (sb : Super) (disk : Disk) (hb : bpb ∣ b) (hbi : bi < bpb) :
    used sb disk (b + bi) = testBit (disk (bblock sb b)) bi := by
  obtain ⟨m, rfl⟩ := hb
  have hmod : (bpb * m + bi) % bpb = bi := by
    rw [Nat.mul_add_mod, Nat.mod_eq_of_lt hbi]
  rw [used, hmod, Nat.add_sub_cancel]

theorem mark_scan {b bi : Nat} (sb : Super) (disk : Disk) (hb : bpb ∣ b) (hbi : bi < bpb) :
    mark sb disk (b + bi) =
      update disk (bblock sb b) (setBit (disk (bblock sb b)) bi) := by
  obtain ⟨m, rfl⟩ := hb
  have hmod : (bpb * m + bi) % bpb = bi := by
    rw [Nat.mul_add_mod, Nat.mod_eq_of_lt hbi]
  rw [mark, hmod, Nat.add_sub_cancel]

theorem testBit_eq (data : Block) (bi : Nat) : testBit data bi = (data (bi / 8)).toNat.testBit (bi % 8) := by
  rw [testBit, Nat.one_shiftLeft, Nat.and_two_pow]
  cases (data (bi / 8)).toNat.testBit (bi % 8) <;> simp

theorem testBit_setBit (data : Block) (bi bj : Nat) :
    testBit (setBit data bi) bj = (decide (bi = bj) || testBit data bj) := by
  have hbyte : (data (bi / 8)).toNat ||| 1 <<< (bi % 8) < 2 ^ 8 := by
    refine Nat.or_lt_two_pow (data (bi / 8)).toNat_lt ?_
    rw [Nat.one_shiftLeft]
    exact Nat.pow_lt_pow_right (by decide) (Nat.mod_lt _ (by decide))
  rw [testBit_eq, testBit_eq, setBit]
  by_cases hdiv : bj / 8 = bi / 8
  · rw [hdiv, update_self, UInt8.toNat_ofNat', Nat.mod_eq_of_lt hbyte, Nat.testBit_or,
      Nat.one_shiftLeft, Nat.testBit_two_pow, Bool.or_comm]
    congr 1
    exact decide_eq_decide.mpr (by omega)
  · rw [update_of_ne hdiv]
    have hne : bi ≠ bj := fun heq => hdiv (by rw [heq])
    rw [decide_eq_false hne, Bool.false_or]

/-- Different bitmap blocks are different sectors. -/
theorem bblock_injective {sb : Super} {b c : Nat} (hb : bpb ∣ b) (hc : bpb ∣ c) (hblt : b < uintSize)
    (hclt : c < uintSize) (heq : bblock sb b = bblock sb c) : b = c := by
  obtain ⟨m, rfl⟩ := hb
  obtain ⟨n, rfl⟩ := hc
  have hdiv : ∀ k, bpb * k < uintSize → toUint (Int.tdiv (toInt (bpb * k)) bpb) =
      if k < 2 ^ 19 then k else k + (2 ^ 32 - 2 ^ 20) := by
    intro k hk
    have hquot : Int.tdiv (toInt (bpb * k)) bpb = if k < 2 ^ 19 then (k : Int) else (k : Int) - 2 ^ 20 := by
      rw [toInt]
      by_cases hsmall : k < 2 ^ 19
      · rw [if_pos hsmall, if_pos (by simp only [bpb, bsize]; omega)]
        push_cast
        exact Int.mul_tdiv_cancel_left _ (by decide)
      · rw [if_neg hsmall, if_neg (by simp only [bpb, bsize]; omega)]
        have hfactor : ((bpb * k : Nat) : Int) - 2 ^ 32 = (bpb : Int) * ((k : Int) - 2 ^ 20) := by
          simp only [bpb, bsize]
          push_cast
          ring
        rw [hfactor]
        exact Int.mul_tdiv_cancel_left _ (by decide)
    rw [hquot, toUint]
    simp only [bpb, bsize, uintSize] at hk
    split_ifs <;> omega
  rw [bblock, bblock, hdiv m hblt, hdiv n hclt] at heq
  have hn := sb.ninodes_lt
  simp only [bpb, bsize, uintSize, ipb] at *
  split_ifs at heq <;> omega

/-- Marking a block sets its bit and no other. -/
theorem used_mark {sb : Super} {b d : Nat} (disk : Disk) (hb : b < uintSize) (hd : d < uintSize) :
    used sb (mark sb disk b) d = (decide (b = d) || used sb disk d) := by
  rw [used, used, mark]
  by_cases hsector : bblock sb (d - d % bpb) = bblock sb (b - b % bpb)
  · have hbase : d - d % bpb = b - b % bpb :=
      bblock_injective (Nat.dvd_sub_mod d) (Nat.dvd_sub_mod b) (by omega) (by omega) hsector
    rw [hsector, update_self, testBit_setBit]
    congr 1
    have hdmod := Nat.mod_le d bpb
    have hbmod := Nat.mod_le b bpb
    exact decide_eq_decide.mpr (by omega)
  · rw [update_of_ne hsector]
    have hne : b ≠ d := fun heq => hsector (by rw [heq])
    rw [decide_eq_false hne, Bool.false_or]

/-- The first free bit from `b` on, among those of the blocks that are scanned. -/
def First (sb : Super) (disk : Disk) (b c : Nat) : Prop :=
  b ≤ c ∧ c < scanned sb ∧ used sb disk c = false ∧ ∀ d, b ≤ d → d < c → used sb disk d = true

theorem firstClear_lt {f : Nat → Bool} {k base b d : Nat} (h : firstClear f k base = some b) (hd : base ≤ d)
    (hlt : d < b) : f d = true := by
  induction k generalizing base with
  | zero => exact absurd h.symm (Option.some_ne_none b)
  | succ k ih =>
    rw [firstClear] at h
    by_cases hbase : f base = true
    · rw [if_pos hbase] at h
      by_cases heq : base = d
      · rw [← heq]
        exact hbase
      · exact ih h (by omega)
    · rw [if_neg hbase] at h
      have := Option.some.inj h
      omega

theorem firstClear_none {f : Nat → Bool} {k base d : Nat} (h : firstClear f k base = none) (hd : base ≤ d)
    (hlt : d < base + k) : f d = true := by
  by_contra hclear
  obtain ⟨c, hc⟩ := firstClear_isSome hd hlt (Bool.eq_false_of_not_eq_true hclear)
  rw [h] at hc
  exact absurd hc.symm (Option.some_ne_none c)

theorem scanned_le (sb : Super) : scanned sb ≤ uintSize := by
  have hlt := sb.size_lt
  simp only [scanned, bpb, bsize, uintSize] at *
  omega

theorem lt_size {sb : Super} {b : Nat} (hb : bpb ∣ b) (hlt : b < scanned sb) : b < sb.size := by
  obtain ⟨m, rfl⟩ := hb
  have hm : m < (sb.size + bpb - 1) / bpb := lt_of_mul_lt_mul_left hlt (Nat.zero_le _)
  simp only [bpb, bsize] at *
  omega

/-! The turns of the loop. -/

theorem ballocLoop_some {sb : Super} {disk : Disk} {b bi : Nat} (k : Nat) (hlt : b < sb.size)
    (hscan : firstClear (testBit (disk (bblock sb b))) bpb 0 = some bi) :
    ballocLoop sb disk (k + 1) b = some (.block ((b + bi) % uintSize)
      (update disk (bblock sb b) (setBit (disk (bblock sb b)) bi))) := by
  rw [ballocLoop, if_pos hlt, hscan]

theorem ballocLoop_none {sb : Super} {disk : Disk} {b : Nat} (k : Nat) (hlt : b < sb.size)
    (hscan : firstClear (testBit (disk (bblock sb b))) bpb 0 = none) :
    ballocLoop sb disk (k + 1) b = ballocLoop sb disk k ((b + bpb) % uintSize) := by
  rw [ballocLoop, if_pos hlt, hscan]

theorem ballocLoop_end {sb : Super} {disk : Disk} {b : Nat} (k : Nat) (hlt : ¬ b < sb.size) :
    ballocLoop sb disk (k + 1) b = some (.panic "balloc: out of blocks") := by
  rw [ballocLoop, if_neg hlt]

theorem used_of_none {sb : Super} {disk : Disk} {b d : Nat} (hb : bpb ∣ b)
    (hnone : firstClear (testBit (disk (bblock sb b))) bpb 0 = none) (hle : b ≤ d) (hlt : d < b + bpb) :
    used sb disk d = true := by
  obtain ⟨bi, rfl⟩ := Nat.exists_eq_add_of_le hle
  rw [used_scan sb disk hb (by omega)]
  exact firstClear_none hnone (Nat.zero_le _) (by omega)

/-- The loop finds the first free bit, given enough turns. -/
theorem ballocLoop_first {sb : Super} {disk : Disk} {b c : Nat} (k : Nat) (hb : bpb ∣ b)
    (hfirst : First sb disk b c) :
    ballocLoop sb disk k b =
      if (c - b) / bpb < k then some (.block c (mark sb disk c)) else none := by
  induction k generalizing b with
  | zero => rfl
  | succ k ih =>
    obtain ⟨hle, hc, hfree, hbefore⟩ := hfirst
    have hlt : b < sb.size := lt_size hb (by omega)
    have hmax := scanned_le sb
    cases hscan : firstClear (testBit (disk (bblock sb b))) bpb 0 with
    | some bi =>
      obtain ⟨hclear, -, hbi⟩ := firstClear_eq_some hscan
      rw [Nat.zero_add] at hbi
      have heq : b + bi = c := by
        rcases Nat.lt_trichotomy (b + bi) c with hlt' | heq | hgt
        · have hset := hbefore (b + bi) (Nat.le_add_right _ _) hlt'
          rw [used_scan sb disk hb hbi, hclear] at hset
          exact absurd hset Bool.noConfusion
        · exact heq
        · obtain ⟨ci, rfl⟩ := Nat.exists_eq_add_of_le hle
          have hset := firstClear_lt hscan (Nat.zero_le ci) (by omega)
          rw [used_scan sb disk hb (by omega), hset] at hfree
          exact absurd hfree Bool.noConfusion
      have hdiv : (c - b) / bpb = 0 := Nat.div_eq_of_lt (by omega)
      have hmark := mark_scan sb disk hb hbi
      rw [heq] at hmark
      rw [ballocLoop_some k hlt hscan, hdiv, if_pos (Nat.succ_pos k), hmark, heq,
        Nat.mod_eq_of_lt (by omega)]
    | none =>
      have hnext : b + bpb ≤ c := by
        by_contra hgt
        have hset := used_of_none hb hscan hle (by omega)
        rw [hset] at hfree
        exact absurd hfree Bool.noConfusion
      have hmod : (b + bpb) % uintSize = b + bpb := Nat.mod_eq_of_lt (by omega)
      have hdiv : (c - b) / bpb = (c - (b + bpb)) / bpb + 1 := by
        rw [show c - b = c - (b + bpb) + bpb by omega, Nat.add_div_right _ bpb_pos]
      rw [ballocLoop_none k hlt hscan, hmod, ih (Nat.dvd_add hb (dvd_refl _))
        ⟨hnext, hc, hfree, fun d hd => hbefore d (by omega)⟩, hdiv]
      simp only [Nat.add_lt_add_iff_right]

/-- A block with all bits set is passed over. -/
theorem ballocLoop_pass {sb : Super} {disk : Disk} {b : Nat} (k : Nat) (hb : bpb ∣ b) (hlt : b < sb.size)
    (hfull : ∀ d < scanned sb, used sb disk d = true) :
    ballocLoop sb disk (k + 1) b = ballocLoop sb disk k ((b + bpb) % uintSize) := by
  refine ballocLoop_none k hlt ?_
  cases hscan : firstClear (testBit (disk (bblock sb b))) bpb 0 with
  | none => rfl
  | some bi =>
    obtain ⟨hclear, -, hbi⟩ := firstClear_eq_some hscan
    rw [Nat.zero_add] at hbi
    have hin : b + bi < scanned sb := by
      obtain ⟨m, rfl⟩ := hb
      simp only [scanned, bpb, bsize] at *
      omega
    have hset := hfull (b + bi) hin
    rw [used_scan sb disk hb hbi, hclear] at hset
    exact absurd hset Bool.noConfusion

/-- With all bits set the loop comes to the panic, if it can pass the last block without wrapping. -/
theorem ballocLoop_panic {sb : Super} {disk : Disk} (hsize : sb.size ≤ uintSize - bpb)
    (hfull : ∀ d < scanned sb, used sb disk d = true) {m b : Nat} (hb : b + bpb * m = scanned sb) (k : Nat) :
    ballocLoop sb disk k b =
      if m < k then some (.panic "balloc: out of blocks") else none := by
  have hscanned : bpb ∣ scanned sb := Nat.dvd_mul_right _ _
  have hdvd : bpb ∣ b := (Nat.dvd_add_left (Nat.dvd_mul_right _ _)).mp (hb ▸ hscanned)
  have hle := le_scanned sb
  induction m generalizing b k with
  | zero =>
    rw [Nat.mul_zero, Nat.add_zero] at hb
    cases k with
    | zero => rfl
    | succ k => rw [ballocLoop_end k (by omega), if_pos (Nat.succ_pos k)]
  | succ m ih =>
    cases k with
    | zero => rfl
    | succ k =>
      have hpos : b < scanned sb := by
        have hrest : 0 < bpb * (m + 1) := Nat.mul_pos bpb_pos (Nat.succ_pos m)
        omega
      have hmod : (b + bpb) % uintSize = b + bpb := by
        refine Nat.mod_eq_of_lt ?_
        have hlt := lt_size hdvd hpos
        have hbpb : bpb ≤ uintSize := by decide
        omega
      rw [ballocLoop_pass k hdvd (lt_size hdvd hpos) hfull, hmod,
        ih (b := b + bpb) (by rw [← hb, Nat.mul_succ]; omega) k (Nat.dvd_add hdvd (dvd_refl _))]
      simp only [Nat.add_lt_add_iff_right]

/-- If the last block ends at 2^32, the loop begins again from 0. -/
theorem ballocLoop_wraps {sb : Super} {disk : Disk} (hsize : uintSize - bpb < sb.size)
    (hfull : ∀ d < scanned sb, used sb disk d = true) {b : Nat} (hb : bpb ∣ b) (hlt : b < uintSize) (k : Nat) :
    ballocLoop sb disk k b = none := by
  induction k generalizing b with
  | zero => rfl
  | succ k ih =>
    have hb' : b < sb.size := by
      obtain ⟨m, rfl⟩ := hb
      simp only [bpb, bsize, uintSize] at *
      omega
    rw [ballocLoop_pass k hb hb' hfull]
    exact ih ((Nat.dvd_mod_iff bpb_dvd_uintSize).mpr (Nat.dvd_add hb (dvd_refl _)))
      (Nat.mod_lt _ (by decide))

/-- There is a first free bit. -/
theorem exists_first {sb : Super} {disk : Disk} {d : Nat} (hd : d < scanned sb) (hfree : used sb disk d = false) :
    ∃ c, First sb disk 0 c ∧ c ≤ d := by
  classical
  have hex : ∃ c, used sb disk c = false := ⟨d, hfree⟩
  have hle : Nat.find hex ≤ d := Nat.find_min' hex hfree
  refine ⟨Nat.find hex, ⟨Nat.zero_le _, by omega, Nat.find_spec hex, fun e _ he => ?_⟩, hle⟩
  exact Bool.eq_true_of_not_eq_false (Nat.find_min hex he)

/-- `balloc` on a bitmap with a free bit among those scanned. -/
theorem balloc_first {sb : Super} {disk : Disk} {c fuel : Nat} {out : Outcome} (hfirst : First sb disk 0 c)
    (hout : balloc sb disk fuel = some out) : out = .block c (mark sb disk c) := by
  rw [balloc, ballocLoop_first fuel (Nat.dvd_zero _) hfirst] at hout
  by_cases hfuel : (c - 0) / bpb < fuel
  · rw [if_pos hfuel] at hout
    exact (Option.some.inj hout).symm
  · rw [if_neg hfuel] at hout
    exact absurd hout.symm (Option.some_ne_none out)

/-! The file system's model has the bits without their bytes. -/

/-- The loop on the bytes gives the block that the loop on the bits gives. -/
theorem ballocFrom_refines {n : Nat} {p : Fin n} {input : Input} {s : State n} {sb : Super} {disk : Disk}
    (hused : s.used = used sb disk) {m b c : Nat} (hdvd : bpb ∣ b) (hb : b + bpb * m = scanned sb)
    (hfirst : First sb disk b c) :
    LibProg.Prog.run (exec p input) (ballocFrom m b) s =
      some (c, { s with used := update s.used c true }) := by
  induction m generalizing b with
  | zero =>
    have hle := hfirst.1
    have hlt := hfirst.2.1
    omega
  | succ m ih =>
    obtain ⟨hle, hc, hfree, hbefore⟩ := hfirst
    cases hscan : firstClear s.used bpb b with
    | some d =>
      obtain ⟨hclear, hbd, hdb⟩ := firstClear_eq_some hscan
      have heq : d = c := by
        rcases Nat.lt_trichotomy d c with hlt | heq | hgt
        · rw [hused, hbefore d hbd hlt] at hclear
          exact absurd hclear Bool.noConfusion
        · exact heq
        · have hset := firstClear_lt hscan hle hgt
          rw [hused, hfree] at hset
          exact absurd hset Bool.noConfusion
      have hexec : exec p input (.allocBit b) s =
          some (some c, { s with used := update s.used c true }) := by
        rw [exec, hscan, heq]
      rw [ballocFrom]
      exact LibProg.Prog.run_bind (LibProg.Prog.run_perform hexec)
    | none =>
      have hnext : b + bpb ≤ c := by
        by_contra hgt
        have hset := firstClear_none hscan hle (by omega)
        rw [hused, hfree] at hset
        exact absurd hset Bool.noConfusion
      have hexec : exec p input (.allocBit b) s = some (none, s) := by
        rw [exec, hscan]
      have hrest := ih (b := b + bpb) (Nat.dvd_add hdvd (dvd_refl _))
        (by rw [← hb, Nat.mul_succ]; omega) ⟨hnext, hc, hfree, fun d hd => hbefore d (by omega)⟩
      rw [ballocFrom]
      exact (LibProg.Prog.run_bind (LibProg.Prog.run_perform hexec)).trans hrest

/-- With all bits set no block is returned. -/
theorem balloc_full {sb : Super} {disk disk' : Disk} {b : Nat} (hfull : ∀ d < scanned sb, used sb disk d = true)
    (fuel : Nat) : balloc sb disk fuel ≠ some (.block b disk') := by
  intro hout
  by_cases hsize : sb.size ≤ uintSize - bpb
  · have hrun := ballocLoop_panic hsize hfull (Nat.zero_add (bpb * ((sb.size + bpb - 1) / bpb)))
    rw [balloc, hrun fuel] at hout
    split_ifs at hout
    exact absurd (Option.some.inj hout) Outcome.noConfusion
  · rw [balloc, ballocLoop_wraps (by omega) hfull (Nat.dvd_zero _) (by decide) fuel] at hout
    exact absurd hout.symm (Option.some_ne_none _)

/-- `balloc` on the bytes refines `balloc` on the bits. -/
theorem balloc_refines {n fuel b : Nat} {p : Fin n} {input : Input} {s : State n} {sb : Super}
    {sb' : Superblock} {disk disk' : Disk} (hsize : sb'.size = sb.size) (hused : s.used = used sb disk)
    (hout : balloc sb disk fuel = some (.block b disk')) :
    LibProg.Prog.run (exec p input) (Fs.balloc sb') s =
      some (b, { s with used := update s.used b true }) := by
  have hfree : ∃ d < scanned sb, used sb disk d = false := by
    by_contra hnone
    exact balloc_full (fun d hd => Bool.eq_true_of_not_eq_false fun hd' => hnone ⟨d, hd, hd'⟩) fuel hout
  obtain ⟨d, hd, hclear⟩ := hfree
  obtain ⟨c, hfirst, -⟩ := exists_first hd hclear
  obtain ⟨rfl, -⟩ := Outcome.block.inj (balloc_first hfirst hout)
  rw [Fs.balloc, hsize]
  exact ballocFrom_refines hused (Nat.dvd_zero _) (Nat.zero_add _) hfirst

/-- A bitmap whose first 100 bits are set. -/
def hundred : Disk := fun _ o => if o < 12 then 255 else if o = 12 then 15 else 0

end Xv6.Fs.Bitmap
