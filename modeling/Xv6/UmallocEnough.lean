import Xv6.LibWord
import Xv6.UmallocRuns

/-! Whether the block that `malloc` returns is large enough. The number of units wraps for requests near 2^32, and
`sbrk` takes the number of bytes as an `int`: a request of 2^31 bytes or more moves the break down. -/

namespace Xv6.Umalloc

open LibBlocks LibPath LibWord Function

variable {base n k nbytes hp x : Nat} {sbrk : Sbrk} {s s' : Arena} {c c' : List Nat} {w : World} {h : Heap}

/-- `sbrk(n)` with `n` as an `int`: the old break, above all that has been obtained; the new break is `n` bytes behind
it. -/
def Moves (base : Nat) (sbrk : Sbrk) : Prop :=
  ∀ regions n a, n < uintSize → sbrk regions n = some a → base + headerSize ≤ a ∧
    (∀ r ∈ regions, r.addr + r.len ≤ a) ∧ (a : Int) + toInt n < uintSize

/-- The memory after the break has been moved; the length of the region is what `sbrk` has been asked for. -/
def moveBreak (mem : Nat → Prop) (r : Block) (x : Nat) : Prop :=
  if 0 ≤ toInt (r.len % uintSize) then mem x ∨ (r.addr ≤ x ∧ (x : Int) < r.addr + toInt (r.len % uintSize))
  else mem x ∧ (x : Int) < r.addr + toInt (r.len % uintSize)

theorem moveBreak_mem_or {mem : Nat → Prop} {r : Block} (hmove : moveBreak mem r x) :
    mem x ∨ (x : Int) < r.addr + toInt (r.len % uintSize) := by
  rw [moveBreak] at hmove
  split_ifs at hmove
  · exact hmove.imp_right And.right
  · exact .inl hmove.1

/-- The memory obtained from `sbrk` after a call. -/
def Obtained (s s' : Arena) : Nat → Prop :=
  (s'.regions.drop s.regions.length).foldl moveBreak fun x => ∃ r ∈ s.regions, r.Has x

/-- `malloc` returns 0, or a pointer to so many bytes that have been obtained and are in no live block. -/
def Enough (base : Nat) (sbrk : Sbrk) (nbytes : Nat) (w : World) : Prop :=
  ∃ bound result s', (∀ fuel, bound ≤ fuel → malloc base fuel sbrk nbytes w.arena = some (result, s')) ∧
    ∀ ap, result = some ap → ∀ x, ap ≤ x → x < ap + nbytes → Obtained w.arena s' x ∧ ∀ b ∈ w.live, ¬ b.Has x

/-- A block of the free list has `n` units. -/
def HasFree (base n : Nat) (h : Heap) : Prop := ∃ k, n ≤ h.size (h.ptr^[k] base)

/-- When the request is served: the number of units does not wrap, and they are less than 2^31 bytes or there is no need
to ask for them; or nothing is returned. -/
def Served (base : Nat) (sbrk : Sbrk) (nbytes : Nat) (w : World) : Prop :=
  if nbytes + headerSize - 1 < uintSize then
    units nbytes * headerSize < 2 ^ 31 ∨ HasFree base (units nbytes) (start base w.arena.heap) ∨
      sbrk w.arena.regions (units nbytes * headerSize % uintSize) = none
  else ¬ HasFree base 1 (start base w.arena.heap) ∧ sbrk w.arena.regions (4096 * headerSize) = none

/-! The free list. -/

theorem Ok.ptr_mem (hok : Ok base h c) {a : Nat} (ha : a ∈ c) : h.ptr a ∈ c := by
  obtain ⟨l, rfl⟩ := List.head?_eq_some_iff.mp hok.head
  exact (List.perm_append_singleton base l).mem_iff.mp (hok.ring.next_mem ha)

theorem Ok.iterate_mem (hok : Ok base h c) (k : Nat) : h.ptr^[k] base ∈ c := by
  induction k with
  | zero => exact hok.base_mem
  | succ k ih =>
    rw [iterate_succ_apply']
    exact hok.ptr_mem ih

theorem Ok.hasFree_iff (hok : Ok base h c) : HasFree base n h ↔ ∃ a ∈ c, n ≤ h.size a := by
  constructor
  · rintro ⟨k, hk⟩
    exact ⟨_, hok.iterate_mem k, hk⟩
  · rintro ⟨a, ha, hfit⟩
    obtain ⟨l, hl⟩ := List.head?_eq_some_iff.mp hok.head
    have hring := hok.ring
    rw [hl] at hring ha
    obtain ⟨k, hk⟩ := hring.iterate (List.mem_append_left _ ha)
    exact ⟨k, hk ▸ hfit⟩

/-! Small requests. -/

/-- `sbrk` without the requests that are negative as an `int`. -/
def capped (sbrk : Sbrk) : Sbrk := fun regions n => if n < 2 ^ 31 then sbrk regions n else none

theorem Moves.capped_fresh (hsbrk : Moves base sbrk) : Fresh base (capped sbrk) := by
  intro regions n a hrun
  unfold capped at hrun
  split_ifs at hrun with hn
  obtain ⟨h1, h2, h3⟩ := hsbrk regions n a (by simp only [uintSize]; omega) hrun
  refine ⟨h1, h2, ?_⟩
  rw [toInt_of_lt hn] at h3
  omega

theorem morecore_capped (hsmall : n * headerSize < 2 ^ 31) (fuel : Nat) (s : Arena) :
    morecore fuel (capped sbrk) n s = morecore fuel sbrk n s := by
  obtain ⟨-, hlt, hmod⟩ := coreUnits_small hsmall
  have hsame : ∀ regions, capped sbrk regions (coreUnits n * headerSize % uintSize) =
      sbrk regions (coreUnits n * headerSize % uintSize) := fun regions => by
    rw [hmod]
    exact if_pos hlt
  rw [morecore, morecore, show (if n < 4096 then 4096 else n) = coreUnits n from rfl]
  dsimp only
  rw [hsame]

theorem search_capped (hsmall : n * headerSize < 2 ^ 31) (fuel k prev p : Nat) (s : Arena) :
    search fuel (capped sbrk) n k prev p s = search fuel sbrk n k prev p s := by
  induction k generalizing prev p s with
  | zero => rfl
  | succ k ih =>
    rw [search, search, morecore_capped hsmall, ih]
    simp only [ih]

/-- As long as the requests are positive, the regions are what has been obtained. -/
theorem foldl_moveBreak {mem : Nat → Prop} {new : List Block} (hnew : ∀ r ∈ new, r.len < 2 ^ 31) (x : Nat) :
    new.foldl moveBreak mem x ↔ mem x ∨ ∃ r ∈ new, r.Has x := by
  induction new generalizing mem with
  | nil => simp
  | cons r new ih =>
    rw [List.forall_mem_cons] at hnew
    have hmod : r.len % uintSize = r.len := Nat.mod_eq_of_lt (by simp only [uintSize]; omega)
    have hint : toInt (r.len % uintSize) = r.len := by
      rw [hmod]
      exact toInt_of_lt hnew.1
    have hmove : moveBreak mem r x ↔ mem x ∨ r.Has x := by
      rw [moveBreak, hint, if_pos (Int.natCast_nonneg _), Block.Has]
      refine or_congr Iff.rfl (and_congr Iff.rfl ?_)
      omega
    rw [List.foldl_cons, ih hnew.2, hmove, or_assoc]
    simp only [List.exists_mem_cons_iff]

/-- A block that has been taken: it is in the memory obtained, apart from the live blocks. -/
structure Supplied (w : World) (s' : Arena) (q n : Nat) : Prop where
  inside : ∀ x, q ≤ x → x < q + headerSize * n → Obtained w.arena s' x ∧ ∀ b ∈ w.live, ¬ b.Has x
  bound : ∀ x, Obtained w.arena s' x → x < uintSize

theorem Held.supplied {new : List Block} {q : Nat} (hheld : Held base w c)
    (hgranted : Granted base w.arena s' c c' new q n) (hnew : ∀ r ∈ new, r.len < 2 ^ 31) (hn : 0 < n) :
    Supplied w s' q n := by
  have hobtained : ∀ x, Obtained w.arena s' x ↔ 0 < cover (w.arena.regions ++ new) x := fun x => by
    rw [Obtained, hgranted.regions, List.drop_left, foldl_moveBreak hnew, cover_append, Nat.add_pos_iff_pos_or_pos,
      cover_pos, cover_pos]
  refine ⟨fun x h1 h2 => ?_, fun x hx => ?_⟩
  · have honce := cover_fresh (fun r hr => (hgranted.fresh r hr).2.1) hheld.once hgranted.single x
    have hcovers := hheld.covers x
    have htaken := hgranted.covers x
    have hq : cover [⟨q, headerSize * n⟩] x = 1 := if_pos ⟨h1, h2⟩
    rw [cover_append] at honce
    refine ⟨(hobtained x).mpr ?_, cover_eq_zero.mp ?_⟩
    · rw [cover_append]
      omega
    · omega
  · obtain ⟨r, hr, hhas⟩ := cover_pos.mp ((hobtained x).mp hx)
    rw [← hgranted.regions] at hr
    exact hhas.2.trans ((hheld.granted hgranted hn).above r hr).2

/-- The search of `malloc` returns a block of that many units. -/
def Supplies (sbrk : Sbrk) (n : Nat) (w : World) : Prop :=
  ∃ bound s' q, Supplied w s' q n ∧ ∀ fuel, bound ≤ fuel → search fuel sbrk n fuel w.arena.heap.freep
    (w.arena.heap.ptr w.arena.heap.freep) w.arena = some (some (q + headerSize), s')

theorem Held.supplies_free (hheld : Held base w c) (hn : 0 < n) (hfree : HasFree base n w.arena.heap) :
    Supplies sbrk n w := by
  rcases hheld.ok.search sbrk n with ⟨a, b, ha, hab, hfit, hrun⟩ | ⟨hnone, -⟩
  · obtain ⟨c', hgranted⟩ := hheld.sound.search_fits hn ha hab hfit
    refine ⟨c.length, _, _, hheld.supplied hgranted (by simp) hn, fun fuel hfuel => ?_⟩
    obtain ⟨k, rfl⟩ := Nat.exists_eq_add_of_le hfuel
    exact hrun _ k
  · obtain ⟨a, ha, hfit⟩ := hheld.ok.hasFree_iff.mp hfree
    exact absurd (hnone a ha) (Nat.not_lt.mpr hfit)

theorem Held.search_full (hheld : Held base w c) (sbrk : Sbrk) (hfree : ¬ HasFree base n w.arena.heap) :
    (∀ b ∈ c, w.arena.heap.size b < n) ∧ ∃ a, ∀ fuel k,
      search fuel sbrk n (c.length + k) w.arena.heap.freep (w.arena.heap.ptr w.arena.heap.freep) w.arena =
        search fuel sbrk n (k + 1) a w.arena.heap.freep w.arena := by
  rcases hheld.ok.search sbrk n with ⟨a, b, ha, hab, hfit, -⟩ | hnone
  · exact absurd (hheld.ok.hasFree_iff.mpr ⟨b, hab ▸ hheld.ok.ptr_mem ha, hfit⟩) hfree
  · exact hnone

theorem Held.supplies_more (hheld : Held base w c) (hsbrk : Moves base sbrk) (hn : 0 < n)
    (hsmall : n * headerSize < 2 ^ 31) (hfree : ¬ HasFree base n w.arena.heap)
    (hbrk : sbrk w.arena.regions (coreUnits n * headerSize % uintSize) = some hp) : Supplies sbrk n w := by
  obtain ⟨hnone, a, hrun⟩ := hheld.search_full (capped sbrk) hfree
  obtain ⟨-, hlt, hmod⟩ := coreUnits_small hsmall
  have hcapped : capped sbrk w.arena.regions (coreUnits n * headerSize % uintSize) = some hp := by
    rw [← hbrk, hmod]
    exact if_pos hlt
  obtain ⟨bound, s', c', q, hgranted, hfound⟩ :=
    hheld.sound.search_grows hsbrk.capped_fresh hn hsmall hcapped (hnone _ hheld.ok.freep) hrun
  refine ⟨bound, s', q, hheld.supplied hgranted ?_ hn, fun fuel hfuel => ?_⟩
  · exact List.forall_mem_singleton.mpr hlt
  · rw [← search_capped hsmall]
    exact hfound fuel hfuel

/-! Large requests. The region put on the list starts at the break, and has the units that were asked for. -/

/-- The list ends before the break, so the place of the region is behind the last node. -/
theorem Arena.Sound.place_last (hs : Arena.Sound base s c) (habove : base + headerSize ≤ hp)
    (hregions : ∀ r ∈ s.regions, r.addr + r.len ≤ hp) : ∃ G p, Place c hp G p [] := by
  have hlt : ∀ a ∈ c, a < hp := fun a ha => by
    by_cases hab : a = base
    · simp only [headerSize] at habove
      omega
    · have hpos : 0 < headerSize * s.heap.size a := Nat.mul_pos (by decide) (hs.ok.sizes a ha hab)
      have hends := hs.end_le ha hab hregions
      omega
  rcases List.eq_nil_or_concat c with rfl | ⟨G, p, rfl⟩
  · exact absurd hs.ok.base_mem List.not_mem_nil
  · refine ⟨G, p, List.concat_eq_append, fun a ha => hlt a ?_, hlt p ?_, by simp⟩
    · simp [ha]
    · simp

/-- The region is put before `base`, or before the node behind it; it keeps its size, since `base` has none. -/
theorem joinNext_last {G : List Nat} {p : Nat} (hplace : Place c hp G p []) (hok : Ok base h c)
    (hsize : h.size hp < uintSize) :
    ∃ todo, (∀ a ∈ todo, a ∈ c ∧ a ≠ p) ∧ Linked h.ptr (todo ++ [p]) ∧
      joinNext hp base h = { h with ptr := update h.ptr hp ((todo ++ [p]).headD p) } := by
  obtain ⟨hsplit, -, -, -⟩ := hplace
  subst hsplit
  have hring : Linked h.ptr (G ++ [p]) := (List.isChain_append.mp hok.ring).1
  have hnodup := hok.nodup
  rw [List.nodup_append] at hnodup
  have hne : ∀ a ∈ G, a ≠ p := fun a ha => hnodup.2.2 a ha p List.mem_cons_self
  rw [joinNext, hok.size_base, Nat.add_zero, Nat.mod_eq_of_lt hsize, update_eq_self]
  cases G with
  | nil =>
    obtain rfl : p = base := Option.some.inj hok.head
    refine ⟨[], by simp, linked_singleton _ _, ?_⟩
    rw [hok.ptr_eq (G := []) rfl]
    exact ite_self _
  | cons b G =>
    obtain rfl : b = base := Option.some.inj hok.head
    split_ifs
    · refine ⟨G, fun a ha => ⟨by simp [ha], hne a (List.mem_cons_of_mem _ ha)⟩, hring.tail, ?_⟩
      rw [hring.next_eq]
    · exact ⟨b :: G, fun a ha => ⟨List.mem_append_left _ ha, hne a ha⟩, hring, rfl⟩

/-- The last node has taken in the region: its end is cut off again. -/
theorem search_joined (sbrk : Sbrk) {p old : Nat} {todo : List Nat} (hlinked : Linked s.heap.ptr (p :: (todo ++ [p])))
    (hfreep : s.heap.freep = p) (hp : p ∉ todo) (htodo : ∀ a ∈ todo, s.heap.size a < n) (hpos : 0 < old)
    (hsize : s.heap.size p = old + n) :
    ∃ h', ∀ fuel k, search fuel sbrk n (todo.length + 1 + k) p (s.heap.ptr p) s =
      some (some (addUnits p old + headerSize), ⟨h', s.regions⟩) := by
  rcases search_linked hlinked (hfreep ▸ hp) sbrk n with ⟨a, b, ha, hab, hfit, hrun⟩ | ⟨hnone, -⟩
  · obtain rfl : b = p := by
      have hmem := hlinked.next_mem ha
      rw [hab, List.mem_append, List.mem_singleton] at hmem
      rcases hmem with hb | hb
      · exact absurd (htodo b hb) (Nat.not_lt.mpr hfit)
      · exact hb
    have hcut : (take n a b s.heap).1 = addUnits b old := by
      rw [take, hsize, if_neg (by omega)]
      dsimp only
      rw [update_self, Nat.add_sub_cancel]
    exact ⟨(take n a b s.heap).2, fun fuel k => (hrun fuel k).trans (by rw [hcut])⟩
  · have hlast := hnone p (by simp)
    omega

theorem search_linked_last (sbrk : Sbrk) {p : Nat} (hptr : s.heap.ptr p = hp) (hsize : s.heap.size hp = n) :
    ∃ h', ∀ fuel k, search fuel sbrk n (k + 1) p (s.heap.ptr p) s =
      some (some (hp + headerSize), ⟨h', s.regions⟩) := by
  have hwhole : (take n p hp s.heap).1 = hp := by
    rw [take, if_pos hsize]
  refine ⟨(take n p hp s.heap).2, fun fuel k => ?_⟩
  rw [hptr, search_fits hsize.ge, hwhole]

theorem morecore_large (hn : 4096 ≤ n) (hbrk : sbrk s.regions (n * headerSize % uintSize) = some hp) (fuel : Nat) :
    morecore fuel sbrk n s = (free fuel (hp + headerSize) { s.heap with size := update s.heap.size hp n }).map
      fun h => (some h.freep, ⟨h, s.regions ++ [⟨hp, n * headerSize⟩]⟩) := by
  rw [morecore, if_neg (by omega)]
  dsimp only
  rw [hbrk]

/-- The header of a new block. -/
def Heap.header (h : Heap) (bp next n : Nat) : Heap := ⟨h.freep, update h.ptr bp next, update h.size bp n⟩

/-- The region is put behind the last node. -/
theorem Arena.Sound.morecore_last {G : List Nat} {p : Nat} (hs : Arena.Sound base s c) (hplace : Place c hp G p [])
    (hpc : hp ∉ c) (hbase : base < hp) (hn : 4096 ≤ n) (hlt : n < uintSize)
    (hbrk : sbrk s.regions (n * headerSize % uintSize) = some hp) :
    ∃ todo, (∀ a ∈ todo, a ∈ c ∧ a ≠ p) ∧ Linked s.heap.ptr (todo ++ [p]) ∧ ∀ fuel, c.length < fuel →
      Umalloc.morecore fuel sbrk n s = some (some p,
        ⟨{ joinPrev p hp (s.heap.header hp ((todo ++ [p]).headD p) n) with freep := p },
          s.regions ++ [⟨hp, n * headerSize⟩]⟩) := by
  have hok := hs.ok.write hpc n
  have hsize : update s.heap.size hp n hp < uintSize := by
    rw [update_self]
    exact hlt
  obtain ⟨todo, htodo, hlinked, hnext⟩ := joinNext_last hplace hok hsize
  refine ⟨todo, htodo, hlinked, fun fuel hfuel => ?_⟩
  have hfind := hplace.findPlace hok hbase hfuel
  have hptr : s.heap.ptr p = base := hs.ok.ptr_eq hplace.split
  rw [morecore_large hn hbrk, free, Nat.add_sub_cancel, hfind, Option.map_some, Option.map_some, hptr, hnext]
  rfl

/-- From the last node the region is found. -/
theorem Arena.Sound.search_last (sbrk : Sbrk) {p : Nat} {todo : List Nat} (hs : Arena.Sound base s c) (hpc : hp ∉ c)
    (hbase : base < hp) (hmem : p ∈ c) (hsum : s.heap.size p + n < uintSize) (hnone : ∀ b ∈ c, s.heap.size b < n)
    (htodo : ∀ a ∈ todo, a ∈ c ∧ a ≠ p) (hlinked : Linked s.heap.ptr (todo ++ [p])) (regions : List Block) :
    ∃ m h', ∀ fuel k, Umalloc.search fuel sbrk n (m + 1 + k) p
      ((joinPrev p hp (s.heap.header hp ((todo ++ [p]).headD p) n)).ptr p)
      ⟨{ joinPrev p hp (s.heap.header hp ((todo ++ [p]).headD p) n) with freep := p }, regions⟩ =
      some (some (hp + headerSize), ⟨h', regions⟩) := by
  have hne : ∀ a ∈ c, a ≠ hp := fun a ha => ne_of_mem_of_not_mem ha hpc
  have hold : (s.heap.header hp ((todo ++ [p]).headD p) n).size p = s.heap.size p := update_of_ne (hne p hmem) _ _
  have hnew : (s.heap.header hp ((todo ++ [p]).headD p) n).size hp = n := update_self _ _ _
  have hptr : (s.heap.header hp ((todo ++ [p]).headD p) n).ptr hp = (todo ++ [p]).headD p := update_self _ _ _
  by_cases hjoin : addUnits p (s.heap.size p) = hp
  · rw [joinPrev, if_pos (hold.symm ▸ hjoin), hold, hnew, Nat.mod_eq_of_lt hsum, hptr]
    have hpos : 0 < s.heap.size p := by
      apply hs.ok.sizes p hmem
      rintro rfl
      have hbound := hs.ok.bound p hmem
      rw [addUnits_of_lt hbound, hs.ok.size_base] at hjoin
      omega
    have hring : Linked (update (update s.heap.ptr hp ((todo ++ [p]).headD p)) p ((todo ++ [p]).headD p))
        (p :: (todo ++ [p])) := by
      refine Linked.push (hlinked.update ?_) fun h => (htodo p h).2 rfl
      rw [List.dropLast_concat]
      exact fun h => hne hp (htodo hp h).1 rfl
    have hsmall : ∀ a ∈ todo, update (update s.heap.size hp n) p (s.heap.size p + n) a < n := fun a ha => by
      obtain ⟨hac, hap⟩ := htodo a ha
      rw [update_of_ne hap, update_of_ne (hne a hac)]
      exact hnone a hac
    obtain ⟨h', hsecond⟩ := search_joined sbrk
      (s := ⟨⟨p, update (update s.heap.ptr hp ((todo ++ [p]).headD p)) p ((todo ++ [p]).headD p),
        update (update s.heap.size hp n) p (s.heap.size p + n)⟩, regions⟩)
      hring rfl (fun h => (htodo p h).2 rfl) hsmall hpos (update_self _ _ _)
    rw [hjoin] at hsecond
    exact ⟨todo.length, h', hsecond⟩
  · rw [joinPrev, if_neg (hold.symm ▸ hjoin)]
    obtain ⟨h', hsecond⟩ := search_linked_last sbrk (p := p)
      (s := ⟨⟨p, update (update s.heap.ptr hp ((todo ++ [p]).headD p)) p hp, update s.heap.size hp n⟩, regions⟩)
      (update_self _ _ _) hnew
    refine ⟨0, h', fun fuel k => ?_⟩
    rw [Nat.zero_add, Nat.add_comm]
    exact hsecond fuel k

/-- `malloc` returns the old break, although the break has not been moved up. -/
theorem Arena.Sound.search_large {a : Nat} (hs : Arena.Sound base s c) (hlarge : 2 ^ 31 ≤ n * headerSize)
    (hn : n * headerSize ≤ uintSize) (habove : base + headerSize ≤ hp)
    (hregions : ∀ r ∈ s.regions, r.addr + r.len ≤ hp)
    (hbrk : sbrk s.regions (n * headerSize % uintSize) = some hp) (hnone : ∀ b ∈ c, s.heap.size b < n)
    (hrun : ∀ fuel k, Umalloc.search fuel sbrk n (c.length + k) s.heap.freep (s.heap.ptr s.heap.freep) s =
      Umalloc.search fuel sbrk n (k + 1) a s.heap.freep s) :
    ∃ bound h', ∀ fuel, bound ≤ fuel →
      Umalloc.search fuel sbrk n fuel s.heap.freep (s.heap.ptr s.heap.freep) s =
        some (some (hp + headerSize), ⟨h', s.regions ++ [⟨hp, n * headerSize⟩]⟩) := by
  obtain ⟨G, p, hplace⟩ := hs.place_last habove hregions
  have hpc := hs.above_list habove hregions
  have hmem : p ∈ c := by
    rw [hplace.split]
    simp
  have hbound := hs.ok.bound p hmem
  simp only [headerSize, uintSize] at hlarge hn habove hbound
  have hbase : base < hp := by omega
  obtain ⟨todo, htodo, hlinked, hmore⟩ :=
    hs.morecore_last hplace hpc hbase (by omega) (by simp only [uintSize]; omega) hbrk
  obtain ⟨m, h', hsecond⟩ := hs.search_last sbrk hpc hbase hmem (by simp only [uintSize]; omega) hnone htodo
    hlinked (s.regions ++ [⟨hp, n * headerSize⟩])
  refine ⟨c.length + (m + 1), h', fun fuel hfuel => ?_⟩
  obtain ⟨k, rfl⟩ := Nat.exists_eq_add_of_le hfuel
  rw [Nat.add_assoc c.length, hrun, search_again (hnone _ hs.ok.freep) (hmore _ (by omega))]
  exact hsecond _ k

/-! The theorem. -/

/-- What the call returns does not depend on the fuel, so the property is about that result. -/
theorem enough_iff {bound : Nat} {result : Option Nat}
    (hrun : ∀ fuel, bound ≤ fuel → malloc base fuel sbrk nbytes w.arena = some (result, s')) :
    Enough base sbrk nbytes w ↔
      ∀ ap, result = some ap → ∀ x, ap ≤ x → x < ap + nbytes → Obtained w.arena s' x ∧ ∀ b ∈ w.live, ¬ b.Has x := by
  constructor
  · rintro ⟨bound', result', s'', hrun', hblock⟩
    have hsame := (hrun _ (Nat.le_max_left bound bound')).symm.trans (hrun' _ (Nat.le_max_right bound bound'))
    obtain ⟨rfl, rfl⟩ := Prod.mk.inj (Option.some.inj hsame)
    exact hblock
  · exact fun hblock => ⟨bound, result, s', hrun, hblock⟩

/-- The world once the free list has been set up. -/
def started (base : Nat) (w : World) : World :=
  { w with arena := { w.arena with heap := start base w.arena.heap } }

theorem malloc_eq (hunits : (nbytes + headerSize - 1) % uintSize / headerSize + 1 = n) (fuel : Nat) :
    malloc base fuel sbrk nbytes w.arena = search fuel sbrk n fuel (started base w).arena.heap.freep
      ((started base w).arena.heap.ptr (started base w).arena.heap.freep) (started base w).arena := by
  rw [malloc, hunits]
  rfl

/-- With no free block and no more memory `malloc` returns 0. -/
theorem Held.enough_none (hheld : Held base (started base w) c)
    (hunits : (nbytes + headerSize - 1) % uintSize / headerSize + 1 = n)
    (hfree : ¬ HasFree base n (started base w).arena.heap)
    (hbrk : sbrk w.arena.regions (coreUnits n * headerSize % uintSize) = none) : Enough base sbrk nbytes w := by
  obtain ⟨hnone, -⟩ := hheld.search_full sbrk hfree
  obtain ⟨bound, hrun⟩ := hheld.sound.search_fails hnone hbrk
  refine (enough_iff fun fuel hfuel => (malloc_eq hunits fuel).trans (hrun fuel hfuel)).mpr ?_
  intro ap hap
  exact absurd hap (Option.some_ne_none ap).symm

theorem Supplies.enough (hsupplies : Supplies sbrk n (started base w))
    (hunits : (nbytes + headerSize - 1) % uintSize / headerSize + 1 = n)
    (hwrap : nbytes + headerSize - 1 < uintSize) : Enough base sbrk nbytes w := by
  obtain ⟨bound, s', q, hsupplied, hrun⟩ := hsupplies
  refine (enough_iff fun fuel hfuel => (malloc_eq hunits fuel).trans (hrun fuel hfuel)).mpr ?_
  intro ap hap x h1 h2
  obtain rfl := Option.some.inj hap
  apply hsupplied.inside x (by omega)
  rw [Nat.mod_eq_of_lt hwrap] at hunits
  simp only [headerSize] at *
  omega

/-- A number of units that has wrapped is too small. -/
theorem Supplies.not_enough (hsupplies : Supplies sbrk n (started base w))
    (hunits : (nbytes + headerSize - 1) % uintSize / headerSize + 1 = n)
    (hwrap : ¬ nbytes + headerSize - 1 < uintSize) : ¬ Enough base sbrk nbytes w := by
  obtain ⟨bound, s', q, hsupplied, hrun⟩ := hsupplies
  intro henough
  have hblock := (enough_iff fun fuel hfuel => (malloc_eq hunits fuel).trans (hrun fuel hfuel)).mp henough
  simp only [headerSize, uintSize] at *
  have hlt := hsupplied.bound _ (hblock _ rfl (q + 8 + nbytes - 1) (by omega) (by omega)).1
  simp only [uintSize] at hlt
  omega

theorem toInt_mod_le {m : Nat} (hlarge : 2 ^ 31 ≤ m) (hle : m ≤ uintSize) : toInt (m % uintSize) ≤ 0 := by
  rcases hle.lt_or_eq with hlt | rfl
  · rw [Nat.mod_eq_of_lt hlt]
    exact (toInt_neg hlarge hlt).le
  · exact (show toInt (uintSize % uintSize) = 0 by decide).le

/-- A request of 2^31 bytes or more gets the memory behind the break. -/
theorem Held.not_enough_large (hheld : Held base (started base w) c) (hsbrk : Moves base sbrk)
    (hunits : (nbytes + headerSize - 1) % uintSize / headerSize + 1 = n) (hlarge : 2 ^ 31 ≤ n * headerSize)
    (hfree : ¬ HasFree base n (started base w).arena.heap)
    (hbrk : sbrk w.arena.regions (n * headerSize % uintSize) = some hp) (hn : nbytes < uintSize) :
    ¬ Enough base sbrk nbytes w := by
  intro henough
  have hmod : n * headerSize % uintSize < uintSize := Nat.mod_lt _ (by decide)
  obtain ⟨habove, hregions, -⟩ := hsbrk _ _ _ hmod hbrk
  obtain ⟨hnone, a, hrun⟩ := hheld.search_full sbrk hfree
  have hle : n * headerSize ≤ uintSize := by
    simp only [headerSize, uintSize] at *
    omega
  obtain ⟨bound, h', hfound⟩ := hheld.sound.search_large hlarge hle habove hregions hbrk hnone hrun
  have hblock := (enough_iff fun fuel hfuel => (malloc_eq hunits fuel).trans (hfound fuel hfuel)).mp henough
  have hpos : 0 < nbytes := by
    simp only [headerSize, uintSize] at *
    omega
  have hobtained := (hblock _ rfl (hp + headerSize) le_rfl (by omega)).1
  rw [Obtained] at hobtained
  dsimp only at hobtained
  rw [show (started base w).arena.regions = w.arena.regions from rfl, List.drop_left, List.foldl_cons,
    List.foldl_nil] at hobtained
  rcases moveBreak_mem_or hobtained with ⟨r, hr, hhas⟩ | hlt
  · have hends := hregions r hr
    have hin := hhas.2
    omega
  · have hdown := toInt_mod_le hlarge hle
    dsimp only at hlt
    omega

/-- `malloc` returns enough memory exactly when the number of units does not wrap and no more than 2^31 bytes have to be
asked for, or when it returns nothing. -/
theorem malloc_enough_iff (hlt : base < uintSize) (hsound : w.Sound base) (hsbrk : Moves base sbrk)
    (hn : nbytes < uintSize) : Enough base sbrk nbytes w ↔ Served base sbrk nbytes w := by
  obtain ⟨c, hheld⟩ := hsound.start hlt
  change Held base (started base w) c at hheld
  rw [Served]
  split_ifs with hwrap
  · have hunits : (nbytes + headerSize - 1) % uintSize / headerSize + 1 = units nbytes := by
      rw [Nat.mod_eq_of_lt hwrap, units]
    have hpos : 0 < units nbytes := Nat.succ_pos _
    by_cases hfree : HasFree base (units nbytes) (start base w.arena.heap)
    · exact iff_of_true ((hheld.supplies_free hpos hfree).enough hunits hwrap) (.inr (.inl hfree))
    · by_cases hsmall : units nbytes * headerSize < 2 ^ 31
      · refine iff_of_true ?_ (.inl hsmall)
        cases hbrk : sbrk w.arena.regions (coreUnits (units nbytes) * headerSize % uintSize) with
        | none => exact hheld.enough_none hunits hfree hbrk
        | some hp => exact (hheld.supplies_more hsbrk hpos hsmall hfree hbrk).enough hunits hwrap
      · have hcore : coreUnits (units nbytes) = units nbytes := by
          refine if_neg ?_
          simp only [headerSize] at hsmall
          omega
        cases hbrk : sbrk w.arena.regions (units nbytes * headerSize % uintSize) with
        | none => exact iff_of_true (hheld.enough_none hunits hfree (by rw [hcore]; exact hbrk)) (.inr (.inr rfl))
        | some hp =>
          refine iff_of_false (hheld.not_enough_large hsbrk hunits (by omega) hfree hbrk hn) ?_
          rintro (h | h | h)
          · exact hsmall h
          · exact hfree h
          · exact absurd h (Option.some_ne_none hp)
  · have hunits : (nbytes + headerSize - 1) % uintSize / headerSize + 1 = 1 := by
      simp only [headerSize, uintSize] at *
      omega
    by_cases hfree : HasFree base 1 (start base w.arena.heap)
    · exact iff_of_false ((hheld.supplies_free Nat.one_pos hfree).not_enough hunits hwrap) fun h => h.1 hfree
    · cases hbrk : sbrk w.arena.regions (4096 * headerSize) with
      | none => exact iff_of_true (hheld.enough_none hunits hfree hbrk) ⟨hfree, rfl⟩
      | some hp =>
        refine iff_of_false ((hheld.supplies_more hsbrk Nat.one_pos (by decide) hfree hbrk).not_enough hunits hwrap) ?_
        exact fun h => absurd h.2 (Option.some_ne_none hp)

theorem Fresh.moves (hfresh : Fresh base sbrk) : Moves base sbrk := by
  intro regions n a _ hrun
  obtain ⟨h1, h2, h3⟩ := hfresh regions n a hrun
  have hle : toInt n ≤ n := by
    rw [toInt]
    split_ifs <;> omega
  exact ⟨h1, h2, by omega⟩

theorem malloc_enough_ten : Moves 2048 oneRegion ∧ loadedWorld.Sound 2048 ∧ Enough 2048 oneRegion 10 loadedWorld := by
  refine ⟨oneRegion_fresh.moves, .inl ⟨rfl, rfl, rfl⟩,
    (malloc_enough_iff (by decide) (.inl ⟨rfl, rfl, rfl⟩) oneRegion_fresh.moves (by decide)).mpr ?_⟩
  rw [Served, if_pos (by decide)]
  exact .inl (by decide)

theorem loadedWorld_no_free (hn : 0 < n) : ¬ HasFree 2048 n (started 2048 loadedWorld).arena.heap := by
  rintro ⟨k, hk⟩
  have hfixed : (started 2048 loadedWorld).arena.heap.ptr 2048 = 2048 := by decide
  have hsize : (started 2048 loadedWorld).arena.heap.size 2048 = 0 := by decide
  rw [iterate_fixed hfixed, hsize] at hk
  omega

/-- A request of 2^32 - 1 bytes gets one unit; for 2^32 - 8 bytes `sbrk` is asked for 0. -/
theorem malloc_not_enough : Moves 2048 oneRegion ∧ loadedWorld.Sound 2048 ∧
    ¬ Enough 2048 oneRegion (2 ^ 32 - 1) loadedWorld ∧ ¬ Enough 2048 oneRegion (2 ^ 32 - 8) loadedWorld := by
  have hsound : loadedWorld.Sound 2048 := .inl ⟨rfl, rfl, rfl⟩
  obtain ⟨c, hheld⟩ := hsound.start (by decide)
  change Held 2048 (started 2048 loadedWorld) c at hheld
  refine ⟨oneRegion_fresh.moves, hsound, ?_, ?_⟩
  · have hsupplies : Supplies oneRegion 1 (started 2048 loadedWorld) := hheld.supplies_more
      oneRegion_fresh.moves (by decide) (by decide) (loadedWorld_no_free (by decide))
      (show oneRegion [] (4096 * headerSize % uintSize) = some 4096 by decide)
    exact hsupplies.not_enough (by decide) (by decide)
  · exact hheld.not_enough_large (n := 2 ^ 29) oneRegion_fresh.moves (by decide) (by decide)
      (loadedWorld_no_free (by decide)) (show oneRegion [] (2 ^ 29 * headerSize % uintSize) = some 4096 by decide)
      (by decide)

end Xv6.Umalloc
