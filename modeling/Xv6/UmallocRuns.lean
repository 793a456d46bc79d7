import Xv6.UmallocHeap

/-! The user heap over whole runs. The blocks the program holds and those on the free list make up the
regions obtained from `sbrk`, and `malloc` and `free` always return. -/

namespace Xv6.Umalloc

open LibBlocks LibPath Function

variable {base fuel n k : Nat} {sbrk : Sbrk} {s : Arena} {c : List Nat}

/-! The search. -/

section Search

variable {prev p : Nat}

theorem search_fits (hfit : n ≤ s.heap.size p) :
    search fuel sbrk n (k + 1) prev p s =
      some (some ((take n prev p s.heap).1 + headerSize), { s with heap := (take n prev p s.heap).2 }) := by
  rw [search]
  exact if_pos hfit

theorem search_on (hfit : s.heap.size p < n) (hp : p ≠ s.heap.freep) :
    search fuel sbrk n (k + 1) prev p s = search fuel sbrk n k p (s.heap.ptr p) s := by
  rw [search, if_neg (by omega), if_neg hp]

theorem search_fails {s' : Arena} (hfit : s.heap.size s.heap.freep < n)
    (hmore : morecore fuel sbrk n s = some (none, s')) :
    search fuel sbrk n (k + 1) prev s.heap.freep s = some (none, s') := by
  rw [search, if_neg (by omega), if_pos rfl, hmore]
  rfl

theorem search_again {s' : Arena} (hfit : s.heap.size s.heap.freep < n)
    (hmore : morecore fuel sbrk n s = some (some p, s')) :
    search fuel sbrk n (k + 1) prev s.heap.freep s = search fuel sbrk n k p (s'.heap.ptr p) s' := by
  rw [search, if_neg (by omega), if_pos rfl, hmore]
  rfl

/-- Along the list the search finds a block, or comes to its last node. -/
theorem search_linked {todo : List Nat} {f : Nat} (hlinked : Linked s.heap.ptr (prev :: (todo ++ [f])))
    (hf : s.heap.freep ∉ todo) (sbrk : Sbrk) (n : Nat) :
    (∃ a b, a ∈ prev :: todo ∧ s.heap.ptr a = b ∧ n ≤ s.heap.size b ∧
        ∀ fuel k, search fuel sbrk n (todo.length + 1 + k) prev (s.heap.ptr prev) s =
          some (some ((take n a b s.heap).1 + headerSize), { s with heap := (take n a b s.heap).2 })) ∨
      (∀ b ∈ todo ++ [f], s.heap.size b < n) ∧ ∃ a, ∀ fuel k,
        search fuel sbrk n (todo.length + 1 + k) prev (s.heap.ptr prev) s =
          search fuel sbrk n (k + 1) a f s := by
  induction todo generalizing prev with
  | nil =>
    obtain ⟨hnext, -⟩ := linked_cons_cons.mp hlinked
    by_cases hfit : n ≤ s.heap.size f
    · refine .inl ⟨prev, f, List.mem_cons_self, hnext, hfit, fun fuel k => ?_⟩
      rw [hnext, List.length_nil, Nat.zero_add, Nat.add_comm]
      exact search_fits hfit
    · refine .inr ⟨by simpa using hfit, prev, fun fuel k => ?_⟩
      rw [hnext, List.length_nil, Nat.zero_add, Nat.add_comm]
  | cons x todo ih =>
    rw [List.mem_cons, not_or] at hf
    obtain ⟨hnext, hrest⟩ := linked_cons_cons.mp hlinked
    have hlen : ∀ k, (x :: todo).length + 1 + k = (todo.length + 1 + k) + 1 := fun k => by
      rw [List.length_cons]
      omega
    by_cases hfit : n ≤ s.heap.size x
    · refine .inl ⟨prev, x, List.mem_cons_self, hnext, hfit, fun fuel k => ?_⟩
      rw [hnext, hlen]
      exact search_fits hfit
    · have hgo : ∀ fuel k, search fuel sbrk n ((x :: todo).length + 1 + k) prev (s.heap.ptr prev) s =
          search fuel sbrk n (todo.length + 1 + k) x (s.heap.ptr x) s := fun fuel k => by
        rw [hnext, hlen]
        exact search_on (by omega) fun heq => hf.1 heq.symm
      rcases ih hrest hf.2 with ⟨a, b, ha, hab, hb, hrun⟩ | ⟨hnone, a, hrun⟩
      · exact .inl ⟨a, b, List.mem_cons_of_mem _ ha, hab, hb,
          fun fuel k => (hgo fuel k).trans (hrun fuel k)⟩
      · refine .inr ⟨?_, a, fun fuel k => (hgo fuel k).trans (hrun fuel k)⟩
        rw [List.cons_append]
        exact List.forall_mem_cons.mpr ⟨by omega, hnone⟩

/-- From `freep` the search comes to every node, to `freep` last. -/
theorem Ok.search (hok : Ok base s.heap c) (sbrk : Sbrk) (n : Nat) :
    (∃ a b, a ∈ c ∧ s.heap.ptr a = b ∧ n ≤ s.heap.size b ∧
        ∀ fuel k, search fuel sbrk n (c.length + k) s.heap.freep (s.heap.ptr s.heap.freep) s =
          some (some ((Umalloc.take n a b s.heap).1 + headerSize),
            { s with heap := (Umalloc.take n a b s.heap).2 })) ∨
      (∀ b ∈ c, s.heap.size b < n) ∧ ∃ a, ∀ fuel k,
        search fuel sbrk n (c.length + k) s.heap.freep (s.heap.ptr s.heap.freep) s =
          search fuel sbrk n (k + 1) a s.heap.freep s := by
  obtain ⟨l, hl⟩ := List.head?_eq_some_iff.mp hok.head
  have hclosed : Closed s.heap.ptr base l := by
    rw [Closed, ← List.cons_append, ← hl]
    exact hok.ring
  obtain ⟨l', hclosed', hperm⟩ := hclosed.exists_from (hl ▸ hok.freep)
  rw [← hl] at hperm
  have hnodup := hperm.nodup_iff.mpr hok.nodup
  have hlen : c.length = l'.length + 1 := by
    rw [← hperm.length_eq, List.length_cons]
  rw [hlen]
  rcases search_linked hclosed' (List.nodup_cons.mp hnodup).1 sbrk n with
    ⟨a, b, ha, hab, hb, hrun⟩ | ⟨hnone, a, hrun⟩
  · exact .inl ⟨a, b, hperm.mem_iff.mp ha, hab, hb, hrun⟩
  · refine .inr ⟨fun b hb => hnone b ?_, a, hrun⟩
    have hmem := hperm.mem_iff.mpr hb
    rw [List.mem_cons] at hmem
    rw [List.mem_append, List.mem_singleton]
    exact hmem.symm

end Search

/-! More memory. -/

/-- The free blocks are inside the regions, which do not overlap and are above `base`. -/
structure Arena.Sound (base : Nat) (s : Arena) (c : List Nat) : Prop where
  ok : Ok base s.heap c
  inside : ∀ x, cover (blocks s.heap.size c) x ≤ cover s.regions x
  once : ∀ x, cover s.regions x ≤ 1
  above : ∀ r ∈ s.regions, base + headerSize ≤ r.addr ∧ r.addr + r.len < uintSize

theorem end_le {regions : List Block} {b : Block} {m : Nat}
    (hinside : ∀ x, b.Has x → 0 < cover regions x) (hlen : 0 < b.len)
    (hregions : ∀ r ∈ regions, r.addr + r.len ≤ m) : b.addr + b.len ≤ m := by
  obtain ⟨r, hr, hhas⟩ := cover_pos.mp (hinside (b.addr + b.len - 1) ⟨by omega, by omega⟩)
  have hle := hregions r hr
  have hlt := hhas.2
  omega

theorem Arena.Sound.end_le (hs : Arena.Sound base s c) {a m : Nat} (ha : a ∈ c) (hab : a ≠ base)
    (hregions : ∀ r ∈ s.regions, r.addr + r.len ≤ m) : a + headerSize * s.heap.size a ≤ m := by
  apply Umalloc.end_le (b := ⟨a, headerSize * s.heap.size a⟩) _ _ hregions
  · intro x hx
    have h1 : cover (blocks s.heap.size c) x ≠ 0 := has_of_mem ha hx.1 hx.2
    exact Nat.lt_of_lt_of_le (Nat.pos_of_ne_zero h1) (hs.inside x)
  · exact Nat.mul_pos (by decide) (hs.ok.sizes a ha hab)

/-- The header of a block outside the list can be written. -/
theorem Ok.write {h : Heap} (hok : Ok base h c) {a : Nat} (ha : a ∉ c) (v : Nat) :
    Ok base { h with size := update h.size a v } c := by
  have hsame : ∀ x ∈ c, update h.size a v x = h.size x := fun x hx =>
    update_of_ne (ne_of_mem_of_not_mem hx ha) _ _
  refine ⟨hok.head, hok.ring, pairwise_gap_congr hok.sorted hsame, ?_, ?_, ?_, hok.freep⟩
  · exact (hsame base hok.base_mem).trans hok.size_base
  · intro x hx hxb
    show 0 < update h.size a v x
    rw [hsame x hx]
    exact hok.sizes x hx hxb
  · intro x hx
    show x + headerSize * update h.size a v x < uintSize
    rw [hsame x hx]
    exact hok.bound x hx

/-- The units `morecore` asks for. -/
def coreUnits (n : Nat) : Nat := if n < 4096 then 4096 else n

theorem morecore_none (hbrk : sbrk s.regions (coreUnits n * headerSize % uintSize) = none) (fuel : Nat) :
    morecore fuel sbrk n s = some (none, s) := by
  rw [morecore, show (if n < 4096 then 4096 else n) = coreUnits n from rfl]
  dsimp only
  rw [hbrk]

theorem coreUnits_small (hsmall : n * headerSize < 2 ^ 31) :
    n ≤ coreUnits n ∧ coreUnits n * headerSize < 2 ^ 31 ∧
      coreUnits n * headerSize % uintSize = coreUnits n * headerSize := by
  simp only [coreUnits, headerSize, uintSize] at *
  split_ifs <;> omega

theorem Arena.Sound.above_list (hs : Arena.Sound base s c) {hp : Nat} (habove : base + headerSize ≤ hp)
    (hregions : ∀ r ∈ s.regions, r.addr + r.len ≤ hp) : hp ∉ c := by
  intro hmem
  have hne : hp ≠ base := by
    simp only [headerSize] at habove
    omega
  have hpos : 0 < headerSize * s.heap.size hp := Nat.mul_pos (by decide) (hs.ok.sizes hp hmem hne)
  have hends := hs.end_le hmem hne hregions
  omega

/-- What `morecore` leaves when it gets more memory: the heap with a new region in the free list. -/
theorem Arena.Sound.morecore (hs : Arena.Sound base s c) (hsbrk : Fresh base sbrk) (hn : 0 < n)
    (hsmall : n * headerSize < 2 ^ 31) {hp : Nat}
    (hbrk : sbrk s.regions (coreUnits n * headerSize % uintSize) = some hp) :
    hp ∉ c ∧ base + headerSize ≤ hp ∧ (∀ r ∈ s.regions, r.addr + r.len ≤ hp) ∧
      hp + headerSize * coreUnits n < uintSize ∧ ∃ h' c',
        Grown base { s.heap with size := update s.heap.size hp (coreUnits n) } h' c c' hp ∧
        ∀ fuel, c.length < fuel → morecore fuel sbrk n s =
          some (some h'.freep, ⟨h', s.regions ++ [⟨hp, coreUnits n * headerSize⟩]⟩) := by
  obtain ⟨hle, -, hmod⟩ := coreUnits_small hsmall
  have hgiven := hbrk
  rw [hmod] at hgiven
  obtain ⟨habove, hregions, hbound⟩ := hsbrk _ _ _ hgiven
  have hpc := hs.above_list habove hregions
  have hok := hs.ok.write hpc (coreUnits n)
  have hfreed : Freed base { s.heap with size := update s.heap.size hp (coreUnits n) } c hp := by
    refine ⟨?_, ?_, ?_, ?_⟩
    · simp only [headerSize] at habove
      omega
    · show 0 < update s.heap.size hp (coreUnits n) hp
      rw [update_self]
      omega
    · grind
    · intro a ha hab
      left
      show a + headerSize * update s.heap.size hp (coreUnits n) a ≤ hp
      rw [update_of_ne (ne_of_mem_of_not_mem ha hpc)]
      exact hs.end_le ha hab hregions
  obtain ⟨h', c', hrun, hgrown⟩ := hfreed.free hok
  refine ⟨hpc, habove, hregions, ?_, h', c', hgrown, fun fuel hfuel => ?_⟩
  · rw [Nat.mul_comm]
    exact hbound
  · rw [Umalloc.morecore, show (if n < 4096 then 4096 else n) = coreUnits n from rfl]
    dsimp only
    rw [hbrk]
    dsimp only
    rw [hrun fuel hfuel]
    rfl

/-- A block has been taken, possibly out of a new region. -/
structure Granted (base : Nat) (s s' : Arena) (c c' : List Nat) (new : List Block) (q n : Nat) : Prop where
  ok : Ok base s'.heap c'
  units : s'.heap.size q = n
  regions : s'.regions = s.regions ++ new
  covers : ∀ x, cover (blocks s'.heap.size c') x + cover [⟨q, headerSize * n⟩] x =
    cover (blocks s.heap.size c) x + cover new x
  size : ∀ a, cover (blocks s.heap.size c) a = 0 → cover new a = 0 → s'.heap.size a = s.heap.size a
  fresh : ∀ r ∈ new, base + headerSize ≤ r.addr ∧ (∀ r' ∈ s.regions, r'.addr + r'.len ≤ r.addr) ∧
    r.addr + r.len < uintSize
  single : ∀ x, cover new x ≤ 1

theorem cover_single_le (b : Block) (x : Nat) : cover [b] x ≤ 1 := by
  rw [cover_cons, cover_nil]
  split_ifs
  · exact le_rfl
  · exact Nat.zero_le _

theorem Ok.covered {h : Heap} (hok : Ok base h c) {a : Nat} (hzero : cover (blocks h.size c) a = 0) :
    a ∉ c ∨ a = base := by
  by_contra hnot
  rw [not_or, not_not] at hnot
  have hpos : 0 < headerSize * h.size a := Nat.mul_pos (by decide) (hok.sizes a hnot.1 hnot.2)
  exact has_of_mem hnot.1 le_rfl (by omega) hzero

/-- A block on the list is large enough. -/
theorem Arena.Sound.search_fits (hs : Arena.Sound base s c) (hn : 0 < n) {a b : Nat} (ha : a ∈ c)
    (hab : s.heap.ptr a = b) (hfit : n ≤ s.heap.size b) :
    ∃ c', Granted base s { s with heap := (take n a b s.heap).2 } c c' [] (take n a b s.heap).1 n := by
  obtain ⟨c', hcut⟩ := hs.ok.take ha hab hn hfit
  refine ⟨c', hcut.ok, hcut.units, (List.append_nil _).symm, ?_, ?_, by simp, fun x => Nat.zero_le _⟩
  · intro x
    rw [cover_nil, Nat.add_zero]
    exact hcut.covers x
  · exact fun x hx _ => hcut.size x hx

/-- No block is large enough, and there is no more memory. -/
theorem Arena.Sound.search_fails (hs : Arena.Sound base s c) (hnone : ∀ b ∈ c, s.heap.size b < n)
    (hbrk : sbrk s.regions (coreUnits n * headerSize % uintSize) = none) :
    ∃ bound, ∀ fuel, bound ≤ fuel →
      search fuel sbrk n fuel s.heap.freep (s.heap.ptr s.heap.freep) s = some (none, s) := by
  have hlt := hnone _ hs.ok.freep
  rcases hs.ok.search sbrk n with ⟨a, b, ha, hab, hfit, -⟩ | ⟨-, a, hrun⟩
  · obtain ⟨G, F, rfl⟩ := hs.ok.exists_behind ha hab (by
      rintro rfl
      rw [hs.ok.size_base] at hfit
      omega)
    exact absurd (hnone b (by simp)) (by omega)
  · refine ⟨c.length, fun fuel hfuel => ?_⟩
    obtain ⟨k, rfl⟩ := Nat.exists_eq_add_of_le hfuel
    rw [hrun _ k]
    exact Umalloc.search_fails hlt (morecore_none hbrk _)

/-- No block is large enough, and there is more memory: the second time round a block is found. -/
theorem Arena.Sound.search_grows (hs : Arena.Sound base s c) (hsbrk : Fresh base sbrk) (hn : 0 < n)
    (hsmall : n * headerSize < 2 ^ 31) {hp a : Nat}
    (hbrk : sbrk s.regions (coreUnits n * headerSize % uintSize) = some hp) (hlt : s.heap.size s.heap.freep < n)
    (hrun : ∀ fuel k, search fuel sbrk n (c.length + k) s.heap.freep (s.heap.ptr s.heap.freep) s =
      search fuel sbrk n (k + 1) a s.heap.freep s) :
    ∃ bound s' c' q, Granted base s s' c c' [⟨hp, coreUnits n * headerSize⟩] q n ∧ ∀ fuel, bound ≤ fuel →
      search fuel sbrk n fuel s.heap.freep (s.heap.ptr s.heap.freep) s = some (some (q + headerSize), s') := by
  obtain ⟨hpc, h1, h2, h3, h', c₁, hgrown, hmore⟩ := hs.morecore hsbrk hn hsmall hbrk
  have hnm := (coreUnits_small hsmall).1
  obtain ⟨d, hd, hlarge⟩ := hgrown.found
  have hsame : blocks (update s.heap.size hp (coreUnits n)) c = blocks s.heap.size c :=
    blocks_congr fun x hx => update_of_ne (ne_of_mem_of_not_mem hx hpc) _ _
  have hcover : ∀ x, cover (blocks h'.size c₁) x =
      cover (blocks s.heap.size c) x + cover [⟨hp, coreUnits n * headerSize⟩] x := fun x => by
    have hx := hgrown.cover x
    dsimp only at hx
    rw [hsame, update_self, Nat.mul_comm] at hx
    exact hx
  have hfound : n ≤ h'.size d := by
    have hlarge' : update s.heap.size hp (coreUnits n) hp ≤ h'.size d := hlarge
    rw [update_self] at hlarge'
    omega
  rcases Ok.search (s := ⟨h', s.regions ++ [⟨hp, coreUnits n * headerSize⟩]⟩) hgrown.ok sbrk n with
    ⟨a', b', ha', hab', hfit', hrun'⟩ | ⟨hnone', -⟩
  · obtain ⟨c', hcut⟩ := hgrown.ok.take ha' hab' hn hfit'
    refine ⟨c.length + c₁.length + 1, ⟨(take n a' b' h').2, s.regions ++ [⟨hp, coreUnits n * headerSize⟩]⟩, c', _,
      ⟨hcut.ok, hcut.units, rfl, ?_, ?_, ?_, cover_single_le _⟩, fun fuel hfuel => ?_⟩
    · exact fun x => (hcut.covers x).trans (hcover x)
    · intro x hx hnew
      have hzero : cover (blocks h'.size c₁) x = 0 := by
        rw [hcover, hx, hnew]
      have hne : x ≠ hp := by
        rintro rfl
        have hpos : 0 < coreUnits n * headerSize := Nat.mul_pos (by omega) (by decide)
        exact cover_eq_zero.mp hnew _ List.mem_cons_self ⟨le_rfl, by dsimp only; omega⟩
      refine (hcut.size x hzero).trans ((hgrown.size x hne (hs.ok.covered hx)).trans ?_)
      exact update_of_ne hne _ _
    · intro r hr
      rw [List.mem_singleton] at hr
      subst hr
      rw [Nat.mul_comm]
      exact ⟨h1, h2, h3⟩
    · obtain ⟨k, rfl⟩ : ∃ k, fuel = c.length + (c₁.length + k) :=
        ⟨fuel - c.length - c₁.length, by omega⟩
      rw [hrun _ (c₁.length + k), search_again hlt (hmore _ (by omega))]
      exact hrun' _ k
  · exact absurd (hnone' d hd) (by dsimp only; omega)

/-- The search ends: with a block, or with nothing because `sbrk` failed. -/
theorem Arena.Sound.search (hs : Arena.Sound base s c) (hsbrk : Fresh base sbrk) (hn : 0 < n)
    (hsmall : n * headerSize < 2 ^ 31) :
    ∃ bound, (∀ fuel, bound ≤ fuel →
        search fuel sbrk n fuel s.heap.freep (s.heap.ptr s.heap.freep) s = some (none, s)) ∨
      ∃ s' c' new q, Granted base s s' c c' new q n ∧ ∀ fuel, bound ≤ fuel →
        search fuel sbrk n fuel s.heap.freep (s.heap.ptr s.heap.freep) s =
          some (some (q + headerSize), s') := by
  rcases hs.ok.search sbrk n with ⟨a, b, ha, hab, hfit, hrun⟩ | ⟨hnone, a, hrun⟩
  · obtain ⟨c', hgranted⟩ := hs.search_fits hn ha hab hfit
    refine ⟨c.length, .inr ⟨_, c', [], _, hgranted, fun fuel hfuel => ?_⟩⟩
    obtain ⟨k, rfl⟩ := Nat.exists_eq_add_of_le hfuel
    exact hrun _ k
  · cases hbrk : sbrk s.regions (coreUnits n * headerSize % uintSize) with
    | none =>
      obtain ⟨bound, hfail⟩ := hs.search_fails hnone hbrk
      exact ⟨bound, .inl hfail⟩
    | some hp =>
      obtain ⟨bound, s', c', q, hgranted, hfound⟩ :=
        hs.search_grows hsbrk hn hsmall hbrk (hnone _ hs.ok.freep) hrun
      exact ⟨bound, .inr ⟨s', c', _, q, hgranted, hfound⟩⟩

/-! Runs. -/

variable {w : World}

/-- The heap in use: the live blocks and the free ones make up the regions. -/
structure Held (base : Nat) (w : World) (c : List Nat) : Prop where
  ok : Ok base w.arena.heap c
  covers : ∀ x, cover w.live x + cover (blocks w.arena.heap.size c) x = cover w.arena.regions x
  once : ∀ x, cover w.arena.regions x ≤ 1
  above : ∀ r ∈ w.arena.regions, base + headerSize ≤ r.addr ∧ r.addr + r.len < uintSize
  live : ∀ b ∈ w.live, 0 < b.len ∧ b.len = headerSize * w.arena.heap.size b.addr

theorem Held.sound (h : Held base w c) : w.arena.Sound base c :=
  ⟨h.ok, fun x => (h.covers x) ▸ Nat.le_add_left _ _, h.once, h.above⟩

theorem Held.covered {b : Block} (h : Held base w c) (hb : b ∈ w.live) :
    cover (blocks w.arena.heap.size c) b.addr = 0 ∧ cover w.arena.regions b.addr = 1 := by
  have hlen := (h.live b hb).1
  have hpos : 0 < cover w.live b.addr := cover_pos.mpr ⟨b, hb, le_rfl, by omega⟩
  have hcovers := h.covers b.addr
  have honce := h.once b.addr
  omega

theorem Held.live_apart (h : Held base w c) : w.live.Pairwise Apart := by
  refine pairwise_apart (fun x => ?_) fun b hb => (h.live b hb).1
  have hcovers := h.covers x
  have honce := h.once x
  omega

instance : Std.Symm Apart := ⟨fun _ _ hab => hab.symm⟩

theorem Held.freed {b : Block} (h : Held base w c) (hb : b ∈ w.live) :
    Freed base w.arena.heap c b.addr ∧ b = ⟨b.addr, headerSize * w.arena.heap.size b.addr⟩ := by
  obtain ⟨hpos, hlen⟩ := h.live b hb
  have hinside : ∀ x, b.Has x → 0 < cover w.arena.regions x := fun x hx => by
    have hcover := cover_pos.mpr ⟨b, hb, hx⟩
    have hcovers := h.covers x
    omega
  have hsize : 0 < w.arena.heap.size b.addr := by
    rw [hlen] at hpos
    exact Nat.pos_of_mul_pos_left hpos
  refine ⟨⟨?_, hsize, ?_, ?_⟩, ?_⟩
  · obtain ⟨r, hr, hhas⟩ := cover_pos.mp (hinside b.addr ⟨le_rfl, by omega⟩)
    have habove := (h.above r hr).1
    have hle := hhas.1
    simp only [headerSize] at habove
    omega
  · have hend : b.addr + b.len ≤ uintSize - 1 := end_le hinside hpos fun r hr => by
      have := (h.above r hr).2
      omega
    rw [← hlen]
    have : 0 < uintSize := by decide
    omega
  · intro a ha hab
    rw [← hlen]
    have hmem : ⟨a, headerSize * w.arena.heap.size a⟩ ∈ blocks w.arena.heap.size c :=
      List.mem_map_of_mem ha
    refine Or.symm (apart_of_cover (fun x => ?_) hb hmem hpos ?_)
    · rw [h.covers x]
      exact h.once x
    · exact Nat.mul_pos (by decide) (h.ok.sizes a ha hab)
  · rw [← hlen]

theorem Held.free {b : Block} (h : Held base w c) (hb : b ∈ w.live) :
    ∃ bound w' c', Held base w' c' ∧ ∀ fuel, bound ≤ fuel → step base fuel w (.free b) = some w' := by
  obtain ⟨hfreed, hblock⟩ := h.freed hb
  obtain ⟨h', c', hrun, hgrown⟩ := hfreed.free h.ok
  have hperm : w.live.Perm (b :: w.live.erase b) := List.perm_cons_erase hb
  refine ⟨c.length + 1, ⟨{ w.arena with heap := h' }, w.live.erase b⟩, c', ⟨hgrown.ok, ?_, h.once,
    h.above, ?_⟩, fun fuel hfuel => ?_⟩
  · intro x
    have hcover := hgrown.cover x
    have hold := h.covers x
    rw [cover_perm hperm, ← List.singleton_append, cover_append] at hold
    rw [← hblock] at hcover
    show cover (w.live.erase b) x + cover (blocks h'.size c') x = cover w.arena.regions x
    omega
  · intro b' hb'
    have hmem : b' ∈ w.live := List.mem_of_mem_erase hb'
    have hne : b'.addr ≠ b.addr := by
      -- Both blocks would hold the address of their header.
      intro heq
      have hpair := hperm.pairwise_iff (fun {a b} hab => Or.symm hab) |>.mp h.live_apart
      have hlen := (h.live b hb).1
      have hlen' := (h.live b' hmem).1
      rcases (List.pairwise_cons.mp hpair).1 b' hb' with hap | hap
      · omega
      · omega
    obtain ⟨h1, h2⟩ := h.live b' hmem
    refine ⟨h1, ?_⟩
    show b'.len = headerSize * h'.size b'.addr
    rw [hgrown.size b'.addr hne (h.ok.covered (h.covered hmem).1)]
    exact h2
  · show (Umalloc.free fuel (b.addr + headerSize) w.arena.heap).map _ = _
    rw [hrun fuel (by omega)]
    rfl

theorem Held.write {ptr size : Nat → Nat} (h : Held base w c) (hallowed : Allowed base w (.write ptr size)) :
    Held base { w with arena := { w.arena with heap := ⟨w.arena.heap.freep, ptr, size⟩ } } c := by
  have hnode : ∀ a ∈ c, ptr a = w.arena.heap.ptr a ∧ size a = w.arena.heap.size a := by
    intro a ha
    refine hallowed a fun b hb hin => ?_
    have hpos : 0 < cover w.live a := cover_pos.mpr ⟨b, hb, hin.1.le, hin.2⟩
    have hcovers := h.covers a
    have honce := h.once a
    rcases h.ok.covered (a := a) (by omega) with hnot | rfl
    · exact hnot ha
    · obtain ⟨r, hr, hhas⟩ := cover_pos.mp (show 0 < cover w.arena.regions a by omega)
      have habove := (h.above r hr).1
      have hle := hhas.1
      simp only [headerSize] at habove
      omega
  have hsize : ∀ a ∈ c, size a = w.arena.heap.size a := fun a ha => (hnode a ha).2
  refine ⟨⟨h.ok.head, ?_, pairwise_gap_congr h.ok.sorted hsize, ?_, ?_, ?_, h.ok.freep⟩, ?_, h.once,
    h.above, ?_⟩
  · refine h.ok.ring.congr fun a ha => (hnode a ?_).1
    rw [List.dropLast_concat] at ha
    exact ha
  · exact (hsize base h.ok.base_mem).trans h.ok.size_base
  · intro a ha hab
    show 0 < size a
    rw [hsize a ha]
    exact h.ok.sizes a ha hab
  · intro a ha
    show a + headerSize * size a < uintSize
    rw [hsize a ha]
    exact h.ok.bound a ha
  · intro x
    show cover w.live x + cover (blocks size c) x = cover w.arena.regions x
    rw [blocks_congr hsize]
    exact h.covers x
  · intro b hb
    obtain ⟨h1, h2⟩ := h.live b hb
    refine ⟨h1, ?_⟩
    show b.len = headerSize * size b.addr
    rw [(hallowed b.addr fun b' hb' hin => ?_).2]
    · exact h2
    · have hne : b' ≠ b := by
        rintro rfl
        omega
      rcases h.live_apart.forall hb' hb hne with hap | hap
      · omega
      · omega

theorem cover_fresh {regions new : List Block} (hfresh : ∀ r ∈ new, ∀ r' ∈ regions, r'.addr + r'.len ≤ r.addr)
    (honce : ∀ x, cover regions x ≤ 1) (hsingle : ∀ x, cover new x ≤ 1) (x : Nat) :
    cover (regions ++ new) x ≤ 1 := by
  rw [cover_append]
  by_cases hnew : cover new x = 0
  · rw [hnew]
    exact honce x
  · obtain ⟨r, hr, hhas⟩ := cover_pos.mp (Nat.pos_of_ne_zero hnew)
    have hzero : cover regions x = 0 := cover_eq_zero.mpr fun r' hr' hhas' => by
      have hle := hfresh r hr r' hr'
      have h1 := hhas.1
      have h2 := hhas'.2
      omega
    rw [hzero, Nat.zero_add]
    exact hsingle x

theorem Held.granted (h : Held base w c) {s' : Arena} {c' : List Nat} {new : List Block} {q : Nat}
    (hgranted : Granted base w.arena s' c c' new q n) (hn : 0 < n) :
    Held base ⟨s', w.live ++ [⟨q, headerSize * n⟩]⟩ c' := by
  have honce : ∀ x, cover (w.arena.regions ++ new) x ≤ 1 :=
    cover_fresh (fun r hr => (hgranted.fresh r hr).2.1) h.once hgranted.single
  refine ⟨hgranted.ok, ?_, ?_, ?_, ?_⟩
  · intro x
    have h1 := hgranted.covers x
    have h2 := h.covers x
    show cover (w.live ++ [⟨q, headerSize * n⟩]) x + cover (blocks s'.heap.size c') x
      = cover s'.regions x
    rw [hgranted.regions, cover_append, cover_append]
    omega
  · rw [hgranted.regions]
    exact honce
  · intro r hr
    rw [hgranted.regions, List.mem_append] at hr
    rcases hr with hr | hr
    · exact h.above r hr
    · obtain ⟨h1, -, h3⟩ := hgranted.fresh r hr
      exact ⟨h1, h3⟩
  · intro b hb
    rcases List.mem_append.mp hb with hb | hb
    · obtain ⟨h1, h2⟩ := h.live b hb
      obtain ⟨h3, h4⟩ := h.covered hb
      have hnew := honce b.addr
      rw [cover_append] at hnew
      refine ⟨h1, ?_⟩
      show b.len = headerSize * s'.heap.size b.addr
      rw [hgranted.size b.addr h3 (by omega)]
      exact h2
    · rw [List.mem_singleton] at hb
      subst hb
      refine ⟨Nat.mul_pos (by decide) hn, ?_⟩
      show headerSize * n = headerSize * s'.heap.size q
      rw [hgranted.units]

/-- Before the first `malloc`, or with the heap in use. -/
def World.Sound (base : Nat) (w : World) : Prop :=
  Loaded w ∨ w.arena.heap.freep ≠ 0 ∧ ∃ c, Held base w c

theorem Held.freep_ne (h : Held base w c) (hbase : 0 < base) : w.arena.heap.freep ≠ 0 := by
  have hle := h.ok.base_le h.ok.freep
  omega

/-- The first `malloc` sets up the list. -/
theorem World.Sound.start (h : w.Sound base) (hbase : base < uintSize) :
    ∃ c, Held base { w with arena := { w.arena with heap := start base w.arena.heap } } c := by
  rcases h with ⟨h0, hregions, hlive⟩ | ⟨hne, c, hheld⟩
  · have hstart : Umalloc.start base w.arena.heap = ⟨base, update w.arena.heap.ptr base base,
        update w.arena.heap.size base 0⟩ := if_pos h0
    have hworld : ({ w with arena := { w.arena with heap := Umalloc.start base w.arena.heap } } : World) =
        ⟨⟨⟨base, update w.arena.heap.ptr base base, update w.arena.heap.size base 0⟩, []⟩, []⟩ := by
      rw [hstart, hlive]
      exact congrArg (fun r => World.mk ⟨_, r⟩ []) hregions
    rw [hworld]
    have hsize : update w.arena.heap.size base 0 base = 0 := update_self _ _ _
    refine ⟨[base], ⟨rfl, ?_, by simp, hsize, ?_, ?_, by simp⟩, ?_, fun x => Nat.zero_le _, by simp, by simp⟩
    · exact linked_cons_cons.mpr ⟨update_self _ _ _, linked_singleton _ _⟩
    · intro a ha hab
      exact absurd (List.mem_singleton.mp ha) hab
    · grind
    · intro x
      refine Nat.add_eq_zero_iff.mpr ⟨rfl, cover_eq_zero.mpr fun b hb hhas => ?_⟩
      rw [List.mem_singleton.mp hb] at hhas
      simp only [Block.Has, hsize] at hhas
      omega
  · have hstart : Umalloc.start base w.arena.heap = w.arena.heap := if_neg hne
    rw [hstart]
    exact ⟨c, hheld⟩

/-! More fuel changes nothing. -/

theorem findPlace_mono {ptr : Nat → Nat} {bp p q f f' : Nat} (hrun : findPlace ptr bp f p = some q)
    (hle : f ≤ f') : findPlace ptr bp f' p = some q := by
  induction f generalizing p f' with
  | zero => exact absurd hrun (Option.some_ne_none q).symm
  | succ f ih =>
    obtain ⟨k, rfl⟩ : ∃ k, f' = k + 1 := ⟨f' - 1, by omega⟩
    rw [findPlace] at hrun ⊢
    by_cases h1 : bp > p ∧ bp < ptr p
    · rw [if_pos h1] at hrun ⊢
      exact hrun
    · grind

theorem free_mono {ap f f' : Nat} {h h' : Heap} (hrun : free f ap h = some h') (hle : f ≤ f') :
    free f' ap h = some h' := by
  obtain ⟨p, hp, hh⟩ := Option.map_eq_some_iff.mp hrun
  exact Option.map_eq_some_iff.mpr ⟨p, findPlace_mono hp hle, hh⟩

theorem morecore_mono {f f' : Nat} {x : Option Nat × Arena} (hrun : morecore f sbrk n s = some x)
    (hle : f ≤ f') : morecore f' sbrk n s = some x := by
  rw [morecore] at hrun ⊢
  dsimp only at hrun ⊢
  cases hsbrk : sbrk s.regions ((if n < 4096 then 4096 else n) * headerSize % uintSize) with
  | none =>
    rw [hsbrk] at hrun
    exact hrun
  | some hp =>
    rw [hsbrk] at hrun
    obtain ⟨h', hfree, hx⟩ := Option.map_eq_some_iff.mp hrun
    exact Option.map_eq_some_iff.mpr ⟨h', free_mono hfree hle, hx⟩

theorem search_mono {f f' k' prev p : Nat} {x : Option Nat × Arena}
    (hrun : search f sbrk n k prev p s = some x) (hle : f ≤ f') (hk : k ≤ k') :
    search f' sbrk n k' prev p s = some x := by
  induction k generalizing prev p s k' with
  | zero => exact absurd hrun (Option.some_ne_none x).symm
  | succ k ih =>
    obtain ⟨j, rfl⟩ : ∃ j, k' = j + 1 := ⟨k' - 1, by omega⟩
    rw [search] at hrun ⊢
    by_cases h1 : s.heap.size p ≥ n
    · rw [if_pos h1] at hrun ⊢
      exact hrun
    · rw [if_neg h1] at hrun ⊢
      by_cases h2 : p = s.heap.freep
      · rw [if_pos h2] at hrun ⊢
        obtain ⟨y, hmore, hrest⟩ := Option.bind_eq_some_iff.mp hrun
        refine Option.bind_eq_some_iff.mpr ⟨y, morecore_mono hmore hle, ?_⟩
        cases hy : y.1 with
        | none =>
          rw [hy] at hrest
          exact hrest
        | some q =>
          rw [hy] at hrest
          exact ih hrest (by omega)
      · rw [if_neg h2] at hrun ⊢
        exact ih hrun (by omega)

theorem step_mono {f f' : Nat} {a : Act} {w' : World} (hrun : step base f w a = some w') (hle : f ≤ f') :
    step base f' w a = some w' := by
  cases a with
  | malloc nbytes sbrk =>
    obtain ⟨x, hx, hw⟩ := Option.map_eq_some_iff.mp hrun
    exact Option.map_eq_some_iff.mpr ⟨x, search_mono hx hle hle, hw⟩
  | free b =>
    obtain ⟨h, hfree, hw⟩ := Option.map_eq_some_iff.mp hrun
    exact Option.map_eq_some_iff.mpr ⟨h, free_mono hfree hle, hw⟩
  | write ptr size => exact hrun

/-! One step from a sound heap. -/

theorem step_malloc_none {nbytes : Nat} {s' : Arena}
    (hrun : malloc base fuel sbrk nbytes w.arena = some (none, s')) :
    step base fuel w (.malloc nbytes sbrk) = some { w with arena := s' } :=
  Option.map_eq_some_iff.mpr ⟨_, hrun, rfl⟩

theorem step_malloc_some {nbytes q : Nat} {s' : Arena}
    (hrun : malloc base fuel sbrk nbytes w.arena = some (some (q + headerSize), s')) :
    step base fuel w (.malloc nbytes sbrk) =
      some ⟨s', w.live ++ [⟨q, headerSize * units nbytes⟩]⟩ := by
  refine Option.map_eq_some_iff.mpr ⟨_, hrun, ?_⟩
  show World.mk s' (w.live ++ [⟨q + headerSize - headerSize, _⟩]) = _
  rw [Nat.add_sub_cancel]

theorem Held.malloc {nbytes : Nat}
    (h : Held base { w with arena := { w.arena with heap := start base w.arena.heap } } c)
    (hallowed : Allowed base w (.malloc nbytes sbrk)) :
    ∃ bound w' c', Held base w' c' ∧
      ∀ fuel, bound ≤ fuel → step base fuel w (.malloc nbytes sbrk) = some w' := by
  obtain ⟨hsmall, hfresh⟩ := hallowed
  have hunits : (nbytes + headerSize - 1) % uintSize / headerSize + 1 = units nbytes := by
    have hlt : nbytes + headerSize - 1 < uintSize := by
      simp only [units, headerSize, uintSize] at hsmall ⊢
      omega
    rw [Nat.mod_eq_of_lt hlt, units]
  have hmalloc : ∀ fuel, Umalloc.malloc base fuel sbrk nbytes w.arena =
      search fuel sbrk (units nbytes) fuel (start base w.arena.heap).freep
        ((start base w.arena.heap).ptr (start base w.arena.heap).freep)
        { w.arena with heap := start base w.arena.heap } := fun fuel => by
    rw [Umalloc.malloc, hunits]
  obtain ⟨bound, hrun | ⟨s', c', new, q, hgranted, hrun⟩⟩ :=
    h.sound.search hfresh (show 0 < units nbytes from Nat.succ_pos _) hsmall
  · exact ⟨bound, _, c, h, fun fuel hfuel => step_malloc_none ((hmalloc fuel).trans (hrun fuel hfuel))⟩
  · exact ⟨bound, _, c', h.granted hgranted (Nat.succ_pos _),
      fun fuel hfuel => step_malloc_some ((hmalloc fuel).trans (hrun fuel hfuel))⟩

/-- Every call returns, and leaves the heap sound. -/
theorem World.Sound.step {a : Act} (h : w.Sound base) (hbase : 0 < base) (hlt : base < uintSize)
    (hallowed : Allowed base w a) :
    ∃ bound w', w'.Sound base ∧ ∀ fuel, bound ≤ fuel → step base fuel w a = some w' := by
  cases a with
  | malloc nbytes sbrk =>
    obtain ⟨c, hheld⟩ := h.start hlt
    obtain ⟨bound, w', c', hheld', hrun⟩ := hheld.malloc hallowed
    exact ⟨bound, w', .inr ⟨hheld'.freep_ne hbase, c', hheld'⟩, hrun⟩
  | free b =>
    rcases h with ⟨-, -, hlive⟩ | ⟨-, c, hheld⟩
    · have hmem : b ∈ w.live := hallowed
      rw [hlive] at hmem
      exact absurd hmem List.not_mem_nil
    · obtain ⟨bound, w', c', hheld', hrun⟩ := hheld.free hallowed
      exact ⟨bound, w', .inr ⟨hheld'.freep_ne hbase, c', hheld'⟩, hrun⟩
  | write ptr size =>
    refine ⟨0, _, ?_, fun fuel _ => rfl⟩
    rcases h with hloaded | ⟨hne, c, hheld⟩
    · exact .inl hloaded
    · exact .inr ⟨hne, c, hheld.write hallowed⟩

theorem Reaches.sound (h : Reaches base w) (hbase : 0 < base) (hlt : base < uintSize) : w.Sound base := by
  refine LibRun.Reachable.invariant (fun w hw => .inl hw) ?_ h
  rintro w w' - hsound ⟨a, fuel, hallowed, hstep⟩
  obtain ⟨bound, w₁, hsound₁, hrun⟩ := hsound.step hbase hlt hallowed
  have hmore := step_mono hstep (Nat.le_add_right fuel bound)
  rw [hrun _ (Nat.le_add_left bound fuel)] at hmore
  rw [← Option.some.inj hmore]
  exact hsound₁

/-- The free list, the blocks of it, and the regions. -/
structure Partition (base : Nat) (w : World) (l : List Nat) : Prop where
  ring : Closed w.arena.heap.ptr base l
  freep : w.arena.heap.freep ∈ base :: l
  sorted : (base :: l).Pairwise (Gap w.arena.heap.size)
  nonempty : ∀ a ∈ l, 0 < w.arena.heap.size a
  disjoint : (w.live ++ blocks w.arena.heap.size l).Pairwise Apart
  exact : ∀ x, (∃ b ∈ w.live ++ blocks w.arena.heap.size l, b.Has x) ↔ ∃ r ∈ w.arena.regions, r.Has x
  units : ∀ b ∈ w.live, b.len = headerSize * w.arena.heap.size b.addr

theorem Held.partition (h : Held base w c) : ∃ l, Partition base w l := by
  obtain ⟨l, rfl⟩ : ∃ l, c = base :: l := by
    cases c with
    | nil => exact absurd h.ok.head (Option.some_ne_none base).symm
    | cons a l => exact ⟨l, by rw [Option.some.inj h.ok.head]⟩
  have hnonempty : ∀ a ∈ l, 0 < w.arena.heap.size a := fun a ha =>
    h.ok.sizes a (List.mem_cons_of_mem _ ha)
      (Nat.ne_of_gt ((List.pairwise_cons.mp h.ok.sorted).1 a ha).lt)
  -- The block of `base` is empty.
  have hcover : ∀ x, cover (w.live ++ blocks w.arena.heap.size l) x = cover w.arena.regions x := by
    intro x
    have hcovers := h.covers x
    have hempty : ¬ Block.Has ⟨base, headerSize * w.arena.heap.size base⟩ x := by
      rw [h.ok.size_base]
      rintro ⟨h1, h2⟩
      exact absurd h2 (Nat.not_lt.mpr h1)
    rw [show blocks w.arena.heap.size (base :: l) =
      ⟨base, headerSize * w.arena.heap.size base⟩ :: blocks w.arena.heap.size l from rfl,
      cover_cons, if_neg hempty, Nat.zero_add] at hcovers
    rw [cover_append]
    exact hcovers
  refine ⟨l, h.ok.ring, h.ok.freep, h.ok.sorted, hnonempty, ?_, fun x => ?_,
    fun b hb => (h.live b hb).2⟩
  · refine pairwise_apart (fun x => (hcover x).trans_le (h.once x)) fun b hb => ?_
    rcases List.mem_append.mp hb with hb | hb
    · exact (h.live b hb).1
    · obtain ⟨a, ha, rfl⟩ := List.mem_map.mp hb
      exact Nat.mul_pos (by decide) (hnonempty a ha)
  · rw [← cover_pos, hcover x, cover_pos]

/-- In every run the free list is a ring from `base`, sorted and with no two blocks that touch; the live blocks
and the free ones are apart and make up the regions; a block has the units it was asked for; and every
call returns. -/
theorem user_heap (hbase : 0 < base) (hlt : base < uintSize) (h : Reaches base w) :
    (Loaded w ∨ ∃ l, Partition base w l) ∧
      ∀ a, Allowed base w a → ∃ bound, ∀ fuel, bound ≤ fuel → (step base fuel w a).isSome := by
  have hsound := h.sound hbase hlt
  refine ⟨?_, fun a hallowed => ?_⟩
  · rcases hsound with hloaded | ⟨-, c, hheld⟩
    · exact .inl hloaded
    · exact .inr hheld.partition
  · obtain ⟨bound, w', -, hrun⟩ := hsound.step hbase hlt hallowed
    refine ⟨bound, fun fuel hfuel => ?_⟩
    rw [hrun fuel hfuel]
    rfl

/-- Moves the break once, to 4096. -/
def oneRegion : Sbrk := fun regions n => if regions = [] ∧ n < 2 ^ 31 then some 4096 else none

def loadedWorld : World := ⟨⟨⟨0, fun _ => 0, fun _ => 0⟩, []⟩, []⟩

theorem oneRegion_fresh : Fresh 2048 oneRegion := by
  intro regions n a hrun
  obtain ⟨⟨rfl, hn⟩, rfl⟩ : (regions = [] ∧ n < 2 ^ 31) ∧ 4096 = a := by
    rw [oneRegion] at hrun
    by_cases hif : regions = [] ∧ n < 2 ^ 31
    · rw [if_pos hif] at hrun
      exact ⟨hif, Option.some.inj hrun⟩
    · rw [if_neg hif] at hrun
      exact absurd hrun (Option.some_ne_none a).symm
  refine ⟨by decide, by simp, ?_⟩
  simp only [uintSize]
  omega

/-- Two requests. -/
def requested : Option World :=
  (step 2048 4 loadedWorld (.malloc 10 oneRegion)).bind fun w =>
    step 2048 4 w (.malloc 100 oneRegion)

/-- After two requests the first block is given back. -/
theorem requested_heap : ∃ w w', requested = some w ∧
    step 2048 4 w (.free ⟨4096 + 4093 * 8, 24⟩) = some w' ∧
    w'.live = [⟨4096 + 4079 * 8, 112⟩] ∧ (Loaded w' ∨ ∃ l, Partition 2048 w' l) := by
  have hlive : requested.map (fun w => decide (w.live =
      [⟨4096 + 4093 * 8, 24⟩, ⟨4096 + 4079 * 8, 112⟩])) = some true := by
    decide +kernel
  have hafter : (requested.bind fun w => step 2048 4 w (.free ⟨4096 + 4093 * 8, 24⟩)).map
      (fun w => decide (w.live = [⟨4096 + 4079 * 8, 112⟩])) = some true := by
    decide +kernel
  obtain ⟨w', hrun, hw'⟩ := Option.map_eq_some_iff.mp hafter
  obtain ⟨w, hw, hfree⟩ := Option.bind_eq_some_iff.mp hrun
  obtain ⟨w₁, hfirst, hsecond⟩ := Option.bind_eq_some_iff.mp hw
  have hmem : (⟨4096 + 4093 * 8, 24⟩ : Block) ∈ w.live := by
    rw [hw, Option.map_some] at hlive
    rw [of_decide_eq_true (Option.some.inj hlive)]
    exact List.mem_cons_self
  have hreach₁ : Reaches 2048 w₁ := .next (.start ⟨rfl, rfl, rfl⟩)
    ⟨.malloc 10 oneRegion, 4, ⟨by decide, oneRegion_fresh⟩, hfirst⟩
  have hreach : Reaches 2048 w' := .next (.next hreach₁
    ⟨.malloc 100 oneRegion, 4, ⟨by decide, oneRegion_fresh⟩, hsecond⟩) ⟨.free _, 4, hmem, hfree⟩
  exact ⟨w, w', hw, hfree, of_decide_eq_true hw', (user_heap (by decide) (by decide) hreach).1⟩

end Xv6.Umalloc
