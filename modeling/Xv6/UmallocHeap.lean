import Xv6.Umalloc

/-! The free list of the user heap. It is a ring through `base` in the order of the addresses, without
neighbours that could be joined; `free` finds the place for a block in it, and `malloc` gets round it. -/

namespace Xv6.Umalloc

open LibBlocks LibPath Function

variable {base bp p : Nat} {h : Heap} {c G F : List Nat} {size : Nat → Nat}

/-- The blocks with headers at some addresses. -/
def blocks (size : Nat → Nat) (c : List Nat) : List Block := c.map fun a => ⟨a, headerSize * size a⟩

/-- One block ends before the other, and not directly before it. -/
def Gap (size : Nat → Nat) (a b : Nat) : Prop := a + headerSize * size a < b

/-- The free list, from `base` on. -/
structure Ok (base : Nat) (h : Heap) (c : List Nat) : Prop where
  head : c.head? = some base
  ring : Linked h.ptr (c ++ [base])
  sorted : c.Pairwise (Gap h.size)
  size_base : h.size base = 0
  sizes : ∀ a ∈ c, a ≠ base → 0 < h.size a
  bound : ∀ a ∈ c, a + headerSize * h.size a < uintSize
  freep : h.freep ∈ c

theorem Gap.lt {a b : Nat} (hgap : Gap size a b) : a < b := by
  rw [Gap] at hgap
  omega

theorem Gap.trans {a b d : Nat} (hab : Gap size a b) (hbd : Gap size b d) : Gap size a d :=
  Nat.lt_trans hab hbd.lt

theorem pairwise_gap_congr {size' : Nat → Nat} (hsorted : c.Pairwise (Gap size))
    (heq : ∀ a ∈ c, size' a = size a) : c.Pairwise (Gap size') := by
  refine hsorted.imp_of_mem fun {a b} ha _ hab => ?_
  rw [Gap, heq a ha]
  exact hab

theorem blocks_congr {size' : Nat → Nat} (heq : ∀ a ∈ c, size' a = size a) :
    blocks size' c = blocks size c :=
  List.map_congr_left fun a ha => by rw [heq a ha]

theorem Ok.nodup (hok : Ok base h c) : c.Nodup := hok.sorted.imp fun hab => hab.lt.ne

theorem Ok.base_mem (hok : Ok base h c) : base ∈ c := List.mem_of_mem_head? hok.head

theorem Ok.base_le (hok : Ok base h c) {a : Nat} (ha : a ∈ c) : base ≤ a := by
  obtain ⟨l, rfl⟩ := List.head?_eq_some_iff.mp hok.head
  rcases List.mem_cons.mp ha with rfl | hl
  · exact le_rfl
  · exact ((List.pairwise_cons.mp hok.sorted).1 a hl).lt.le

theorem Ok.ptr_eq (hok : Ok base h c) (hc : c = G ++ p :: F) : h.ptr p = (F ++ [base]).headD base := by
  have hring := hok.ring
  rw [hc, List.append_assoc, List.cons_append] at hring
  exact (linked_split.mp hring).2.next_eq

/-! The place of a block. -/

/-- The list cut at the place of a block. -/
structure Place (c : List Nat) (bp : Nat) (G : List Nat) (p : Nat) (F : List Nat) : Prop where
  split : c = G ++ p :: F
  before : ∀ a ∈ G, a < bp
  lt : p < bp
  after : ∀ a ∈ F, bp < a

theorem exists_place {a : Nat} {l : List Nat} (hsorted : (a :: l).Pairwise (Gap size)) (ha : a < bp)
    (hbp : bp ∉ l) : ∃ G p F, Place (a :: l) bp G p F := by
  induction l generalizing a with
  | nil => exact ⟨[], a, [], rfl, by simp, ha, by simp⟩
  | cons b l ih =>
    rw [List.pairwise_cons] at hsorted
    rw [List.mem_cons, not_or] at hbp
    rcases Nat.lt_or_gt_of_ne hbp.1 with hlt | hgt
    · refine ⟨[], a, b :: l, rfl, by simp, ha, fun d hd => ?_⟩
      rcases List.mem_cons.mp hd with rfl | hd
      · exact hlt
      · exact hlt.trans ((List.pairwise_cons.mp hsorted.2).1 d hd).lt
    · obtain ⟨G, p, F, hsplit, h1, h2, h3⟩ := ih hsorted.2 hgt hbp.2
      refine ⟨a :: G, p, F, ?_, ?_, h2, h3⟩
      · rw [hsplit]
        rfl
      · exact List.forall_mem_cons.mpr ⟨ha, h1⟩

/-- The two conditions that end the loop of `free`. -/
def Stops (ptr : Nat → Nat) (bp p : Nat) : Prop :=
  (bp > p ∧ bp < ptr p) ∨ p ≥ ptr p ∧ (bp > p ∨ bp < ptr p)

theorem findPlace_of_stops {ptr : Nat → Nat} {fuel : Nat} (hstop : Stops ptr bp p) :
    findPlace ptr bp (fuel + 1) p = some p := by
  rw [findPlace]
  rcases hstop with h1 | h2
  · exact if_pos h1
  · split_ifs
    · rfl
    · rfl

theorem findPlace_of_not {ptr : Nat → Nat} {fuel : Nat} (hstop : ¬ Stops ptr bp p) :
    findPlace ptr bp (fuel + 1) p = findPlace ptr bp fuel (ptr p) := by
  rw [Stops, not_or] at hstop
  rw [findPlace, if_neg hstop.1, if_neg hstop.2]

theorem findPlace_linked {ptr : Nat → Nat} {l : List Nat} {q fuel : Nat} (hpath : Linked ptr (q :: (l ++ [p])))
    (hgo : ∀ x ∈ q :: l, ¬ Stops ptr bp x) (hstop : Stops ptr bp p) (hfuel : l.length + 1 < fuel) :
    findPlace ptr bp fuel q = some p := by
  obtain ⟨fuel, rfl⟩ : ∃ k, fuel = k + 1 := ⟨fuel - 1, by omega⟩
  rw [findPlace_of_not (hgo q List.mem_cons_self)]
  induction l generalizing q fuel with
  | nil =>
    obtain ⟨k, rfl⟩ : ∃ k, fuel = k + 1 := ⟨fuel - 1, by rw [List.length_nil] at hfuel; omega⟩
    rw [(linked_cons_cons.mp hpath).1]
    exact findPlace_of_stops hstop
  | cons x l ih =>
    rw [List.length_cons] at hfuel
    obtain ⟨hx, hrest⟩ := linked_cons_cons.mp hpath
    obtain ⟨k, rfl⟩ : ∃ k, fuel = k + 1 := ⟨fuel - 1, by omega⟩
    rw [hx, findPlace_of_not (hgo x (List.mem_cons_of_mem _ List.mem_cons_self))]
    exact ih hrest (fun y hy => hgo y (List.mem_cons_of_mem _ hy)) _ (by omega)

/-- The loop ends exactly at the place of the block. -/
theorem Place.stops_iff (hplace : Place c bp G p F) (hok : Ok base h c) (hbase : base < bp) {x : Nat}
    (hx : x ∈ c) : Stops h.ptr bp x ↔ x = p := by
  obtain ⟨hsplit, hbefore, hlt, hafter⟩ := hplace
  have hsorted := hok.sorted
  constructor
  · intro hstop
    by_contra hne
    rw [hsplit, List.mem_append, List.mem_cons] at hx
    rw [Stops] at hstop
    rcases hx with hx | rfl | hx
    · obtain ⟨G₁, G₂, rfl⟩ := List.append_of_mem hx
      rw [List.append_assoc, List.cons_append] at hsplit
      have hnext := hok.ptr_eq hsplit
      rw [hsplit, List.pairwise_append, List.pairwise_cons] at hsorted
      cases G₂ with
      | nil =>
        have hlt' := (hsorted.2.1.1 p List.mem_cons_self).lt
        rw [List.nil_append, List.cons_append, List.headD_cons] at hnext
        omega
      | cons y G₂ =>
        have hlt' := (hsorted.2.1.1 y List.mem_cons_self).lt
        have hy := hbefore y (by simp)
        rw [List.cons_append, List.cons_append, List.headD_cons] at hnext
        omega
    · exact hne rfl
    · obtain ⟨F₁, F₂, rfl⟩ := List.append_of_mem hx
      rw [← List.cons_append, ← List.append_assoc] at hsplit
      have hnext := hok.ptr_eq hsplit
      have hgt := hafter x hx
      rw [hsplit, List.pairwise_append, List.pairwise_cons] at hsorted
      cases F₂ with
      | nil =>
        rw [List.nil_append, List.headD_cons] at hnext
        omega
      | cons y F₂ =>
        have hlt' := (hsorted.2.1.1 y List.mem_cons_self).lt
        rw [List.cons_append, List.headD_cons] at hnext
        omega
  · rintro rfl
    have hnext := hok.ptr_eq hsplit
    cases F with
    | nil => exact .inr ⟨hnext ▸ hok.base_le hx, .inl hlt⟩
    | cons y F => exact .inl ⟨hlt, hnext ▸ hafter y List.mem_cons_self⟩

/-- The loop of `free` finds the place of the block from wherever it starts. -/
theorem Place.findPlace (hplace : Place c bp G p F) (hok : Ok base h c) (hbase : base < bp) {fuel : Nat}
    (hfuel : c.length < fuel) : findPlace h.ptr bp fuel h.freep = some p := by
  have hp : p ∈ c := by
    rw [hplace.split]
    simp
  have hstop := (hplace.stops_iff hok hbase hp).mpr rfl
  obtain ⟨l, hl⟩ := List.head?_eq_some_iff.mp hok.head
  have hring : Closed h.ptr base l := by
    rw [Closed, ← List.cons_append, ← hl]
    exact hok.ring
  obtain ⟨l', hring', hperm⟩ := hring.exists_from (hl ▸ hok.freep)
  rw [← hl] at hperm
  by_cases hfreep : h.freep = p
  · obtain ⟨k, rfl⟩ : ∃ k, fuel = k + 1 := ⟨fuel - 1, by omega⟩
    rw [hfreep]
    exact findPlace_of_stops hstop
  · have hp' : p ∈ l' := by grind
    obtain ⟨l₁, l₂, rfl⟩ := List.append_of_mem hp'
    have hnodup := hperm.nodup_iff.mpr hok.nodup
    rw [Closed, List.append_assoc, List.cons_append, ← List.cons_append] at hring'
    apply findPlace_linked (l := l₁) (linked_split.mp hring').1 _ hstop
    · have hlen := hperm.length_eq
      simp only [List.length_cons, List.length_append] at hlen
      omega
    · grind [hperm.mem_iff, hplace.stops_iff]

/-! Joining. -/

theorem addUnits_of_lt {n : Nat} (hlt : p + headerSize * n < uintSize) :
    addUnits p n = p + headerSize * n := Nat.mod_eq_of_lt hlt

/-- A block to be freed: it is above `base` and apart from the free blocks. -/
structure Freed (base : Nat) (h : Heap) (c : List Nat) (bp : Nat) : Prop where
  above : base < bp
  size : 0 < h.size bp
  bound : bp + headerSize * h.size bp < uintSize
  apart : ∀ a ∈ c, a ≠ base → Apart ⟨a, headerSize * h.size a⟩ ⟨bp, headerSize * h.size bp⟩

/-- The block with what is behind it, joined if it can be. -/
structure Joined (base : Nat) (h h₁ : Heap) (bp : Nat) (F F' : List Nat) : Prop where
  sublist : F'.Sublist F
  path : Linked h₁.ptr (bp :: (F' ++ [base]))
  ptr : ∀ a, a ≠ bp → h₁.ptr a = h.ptr a
  size : ∀ a, a ≠ bp → h₁.size a = h.size a
  larger : h.size bp ≤ h₁.size bp
  bound : bp + headerSize * h₁.size bp < uintSize
  gap : ∀ a ∈ F', Gap h₁.size bp a
  cover : ∀ x, cover (blocks h.size F) x + cover [⟨bp, headerSize * h.size bp⟩] x =
    cover (blocks h.size F') x + cover [⟨bp, headerSize * h₁.size bp⟩] x

theorem Place.joinNext (hplace : Place c bp G p F) (hok : Ok base h c) (hfreed : Freed base h c bp) :
    ∃ F', Joined base h (joinNext bp (h.ptr p) h) bp F F' := by
  have hsplit := hplace.split
  have hnext := hok.ptr_eq hsplit
  have hpath : Linked h.ptr (p :: (F ++ [base])) := by
    have hring := hok.ring
    rw [hsplit, List.append_assoc, List.cons_append] at hring
    exact (linked_split.mp hring).2
  have hsorted : F.Pairwise (Gap h.size) := by
    have hall := hok.sorted
    rw [hsplit, List.pairwise_append, List.pairwise_cons] at hall
    exact hall.2.1.2
  have hbp : bp ∉ F := fun hmem => lt_irrefl _ (hplace.after bp hmem)
  have hsum := addUnits_of_lt hfreed.bound
  have hbase := hfreed.above
  have hpos : 0 < headerSize * h.size bp := Nat.mul_pos (by decide) hfreed.size
  rw [Umalloc.joinNext, hsum]
  by_cases hjoin : bp + headerSize * h.size bp = h.ptr p
  · rw [if_pos hjoin]
    cases F with
    | nil =>
      rw [List.nil_append, List.headD_cons] at hnext
      omega
    | cons y F =>
      rw [List.cons_append, List.headD_cons] at hnext
      have hy : bp + headerSize * h.size bp = y := hjoin.trans hnext
      have hmem : y ∈ c := by
        rw [hsplit]
        simp
      have hbound := hok.bound y hmem
      have hunits : (h.size bp + h.size y) % uintSize = h.size bp + h.size y := by
        apply Nat.mod_eq_of_lt
        simp only [headerSize] at *
        omega
      rw [hnext, hunits]
      rw [List.mem_cons, not_or] at hbp
      refine ⟨F, List.sublist_cons_self y F, ?_, ?_, ?_, ?_, ?_, ?_, ?_⟩
      · exact (linked_cons_cons.mp hpath).2.relink hbp.2
      · exact fun a ha => update_of_ne ha _ _
      · exact fun a ha => update_of_ne ha _ _
      · show h.size bp ≤ update h.size bp (h.size bp + h.size y) bp
        rw [update_self]
        omega
      · show bp + headerSize * update h.size bp (h.size bp + h.size y) bp < uintSize
        rw [update_self, Nat.mul_add, ← Nat.add_assoc, hy]
        exact hbound
      · intro a ha
        rw [Gap]
        show bp + headerSize * update h.size bp (h.size bp + h.size y) bp < a
        rw [update_self, Nat.mul_add, ← Nat.add_assoc, hy]
        exact (List.pairwise_cons.mp hsorted).1 a ha
      · intro x
        show _ = cover (blocks h.size F) x +
          cover [⟨bp, headerSize * update h.size bp (h.size bp + h.size y) bp⟩] x
        rw [update_self, Nat.mul_add, cover_cut, hy, blocks, List.map_cons, cover_cons,
          cover_cons ⟨y, _⟩, cover_nil]
        show _ + cover (blocks h.size F) x + _ = _
        omega
  · rw [if_neg hjoin]
    refine ⟨F, List.Sublist.refl F, hpath.relink hbp, ?_, fun _ _ => rfl, le_rfl, hfreed.bound, ?_,
      fun _ => rfl⟩
    · exact fun a ha => update_of_ne ha _ _
    · -- The first block behind is not adjacent, and the others are behind it.
      have hle : ∀ a ∈ F, bp + headerSize * h.size bp ≤ a := by
        intro a ha
        have hlt := hplace.after a ha
        have hmem : a ∈ c := by
          rw [hsplit]
          simp [ha]
        rcases hfreed.apart a hmem (by omega) with hle | hle
        · dsimp only at hle
          omega
        · exact hle
      intro a ha
      rw [Gap]
      cases F with
      | nil => cases ha
      | cons y F =>
        rw [List.cons_append, List.headD_cons] at hnext
        have hy := hle y List.mem_cons_self
        rcases List.mem_cons.mp ha with rfl | ha
        · show bp + headerSize * h.size bp < a
          omega
        · have hlt := ((List.pairwise_cons.mp hsorted).1 a ha).lt
          show bp + headerSize * h.size bp < a
          omega

/-- What `free` makes of the list. -/
structure Grown (base : Nat) (h h' : Heap) (c c' : List Nat) (bp : Nat) : Prop where
  ok : Ok base h' c'
  cover : ∀ x, cover (blocks h'.size c') x =
    cover (blocks h.size c) x + cover [⟨bp, headerSize * h.size bp⟩] x
  size : ∀ a, a ≠ bp → a ∉ c ∨ a = base → h'.size a = h.size a
  found : ∃ a ∈ c', h.size bp ≤ h'.size a

theorem head?_split {x : Nat} {X : List Nat} (hhead : (G ++ p :: F).head? = some x) :
    (G ++ p :: X).head? = some x := by
  cases G with
  | nil => exact hhead
  | cons g G => exact hhead

/-- A list is in order again when it is from the place found on, and unchanged before. -/
theorem Ok.replace {h' : Heap} {X : List Nat} (hok : Ok base h (G ++ p :: F))
    (hptr : ∀ a ∈ G, h'.ptr a = h.ptr a) (hsize : ∀ a ∈ G, h'.size a = h.size a)
    (hlinked : Linked h'.ptr (p :: (X ++ [base]))) (hsorted : (p :: X).Pairwise (Gap h'.size))
    (hbase : h'.size base = 0) (hsizes : ∀ a ∈ p :: X, a ≠ base → 0 < h'.size a)
    (hbound : ∀ a ∈ p :: X, a + headerSize * h'.size a < uintSize) (hfreep : h'.freep ∈ G ++ p :: X) :
    Ok base h' (G ++ p :: X) := by
  have hring := hok.ring
  have hold := hok.sorted
  rw [List.append_assoc, List.cons_append] at hring
  rw [List.pairwise_append] at hold
  refine ⟨head?_split hok.head, ?_, ?_, hbase, ?_, ?_, hfreep⟩
  · rw [List.append_assoc, List.cons_append]
    refine linked_split.mpr ⟨(linked_split.mp hring).1.congr fun x hx => ?_, hlinked⟩
    rw [List.dropLast_concat] at hx
    exact hptr x hx
  · rw [List.pairwise_append]
    refine ⟨pairwise_gap_congr hold.1 hsize, hsorted, fun a ha b hb => ?_⟩
    have hap : Gap h'.size a p := by
      rw [Gap, hsize a ha]
      exact hold.2.2 a ha p List.mem_cons_self
    rcases List.mem_cons.mp hb with rfl | hb
    · exact hap
    · exact hap.trans ((List.pairwise_cons.mp hsorted).1 b hb)
  · grind [hok.sizes]
  · grind [hok.bound]

theorem blocks_append (size : Nat → Nat) (l l' : List Nat) :
    blocks size (l ++ l') = blocks size l ++ blocks size l' := List.map_append

theorem blocks_cons (size : Nat → Nat) (a : Nat) (l : List Nat) :
    blocks size (a :: l) = ⟨a, headerSize * size a⟩ :: blocks size l := rfl

theorem cover_blocks_cons (size : Nat → Nat) (a : Nat) (l : List Nat) (x : Nat) :
    cover (blocks size (a :: l)) x = cover [⟨a, headerSize * size a⟩] x + cover (blocks size l) x := by
  rw [blocks_cons, cover_cons, cover_cons, cover_nil, Nat.add_zero]

section JoinPrev

variable {h₁ : Heap} {F' : List Nat}

/-- The block becomes the end of the one before it. -/
theorem Place.grown_joined (hplace : Place c bp G p F) (hok : Ok base h c) (hfreed : Freed base h c bp)
    (hjoined : Joined base h h₁ bp F F') (hjoin : p + headerSize * h.size p = bp) :
    Grown base h { joinPrev p bp h₁ with freep := p } c (G ++ p :: F') bp := by
  obtain ⟨rfl, hbefore, hlt, hafter⟩ := hplace
  have habove := hfreed.above
  have hp : p ∈ G ++ p :: F := by simp
  have hpb : p ≠ base := by
    rintro rfl
    rw [hok.size_base] at hjoin
    omega
  have hsame : h₁.size p = h.size p := hjoined.size p hlt.ne
  have hbound := hjoined.bound
  have hend : p + headerSize * (h.size p + h₁.size bp) = bp + headerSize * h₁.size bp := by
    rw [Nat.mul_add]
    omega
  have hunits : (h.size p + h₁.size bp) % uintSize = h.size p + h₁.size bp := by
    apply Nat.mod_eq_of_lt
    simp only [headerSize] at *
    omega
  have hnew : { joinPrev p bp h₁ with freep := p } = (⟨p, update h₁.ptr p (h₁.ptr bp),
      update h₁.size p (h.size p + h₁.size bp)⟩ : Heap) := by
    rw [joinPrev, hsame, addUnits_of_lt (hok.bound p hp), if_pos hjoin, hunits]
  have hnodup := hok.nodup
  have hsorted := hok.sorted
  rw [List.nodup_append, List.nodup_cons] at hnodup
  rw [List.pairwise_append, List.pairwise_cons] at hsorted
  have hsub : ∀ a ∈ F', a ∈ F := fun a ha => hjoined.sublist.subset ha
  have hpF : p ∉ F' := fun hmem => hnodup.2.1.1 (hsub p hmem)
  have hold : ∀ a, a ≠ bp → a ≠ p →
      update h₁.size p (h.size p + h₁.size bp) a = h.size a := fun a h1 h2 => by
    rw [update_of_ne h2, hjoined.size a h1]
  have hG : ∀ a ∈ G, a ≠ bp ∧ a ≠ p := fun a ha =>
    ⟨(hbefore a ha).ne, hnodup.2.2 a ha p List.mem_cons_self⟩
  have hF : ∀ a ∈ F', a ≠ bp ∧ a ≠ p := fun a ha =>
    ⟨(hafter a (hsub a ha)).ne', ne_of_mem_of_not_mem ha hpF⟩
  rw [hnew]
  refine ⟨hok.replace ?_ ?_ (hjoined.path.relink hpF) ?_ ?_ ?_ ?_ (by simp), ?_, ?_, ?_⟩
  · intro a ha
    show update h₁.ptr p _ a = h.ptr a
    rw [update_of_ne (hG a ha).2, hjoined.ptr a (hG a ha).1]
  · exact fun a ha => hold a (hG a ha).1 (hG a ha).2
  · refine List.pairwise_cons.mpr ⟨fun a ha => ?_, ?_⟩
    · rw [Gap]
      show p + headerSize * update h₁.size p _ p < a
      rw [update_self, hend]
      exact hjoined.gap a ha
    · exact pairwise_gap_congr (hsorted.2.1.2.sublist hjoined.sublist) fun a ha =>
        hold a (hF a ha).1 (hF a ha).2
  · exact (hold base habove.ne hpb.symm).trans hok.size_base
  · intro a ha hab
    show 0 < update h₁.size p _ a
    rcases List.mem_cons.mp ha with rfl | ha
    · rw [update_self]
      have := hok.sizes a hp hab
      omega
    · rw [hold a (hF a ha).1 (hF a ha).2]
      exact hok.sizes a (by simp [hsub a ha]) hab
  · intro a ha
    show a + headerSize * update h₁.size p _ a < uintSize
    rcases List.mem_cons.mp ha with rfl | ha
    · rw [update_self, hend]
      exact hbound
    · rw [hold a (hF a ha).1 (hF a ha).2]
      exact hok.bound a (by simp [hsub a ha])
  · intro x
    have hcover := hjoined.cover x
    show cover (blocks (update h₁.size p (h.size p + h₁.size bp)) (G ++ p :: F')) x = _
    rw [blocks_append, blocks_append, cover_append, cover_append, cover_blocks_cons, cover_blocks_cons,
      update_self, Nat.mul_add, cover_cut, hjoin,
      blocks_congr fun a ha => hold a (hG a ha).1 (hG a ha).2,
      blocks_congr fun a ha => hold a (hF a ha).1 (hF a ha).2]
    omega
  · intro a hab hac
    refine hold a hab ?_
    rintro rfl
    exact hac.elim (fun hnot => hnot hp) hpb
  · refine ⟨p, by simp, ?_⟩
    show h.size bp ≤ update h₁.size p _ p
    rw [update_self]
    have := hjoined.larger
    omega

/-- The block is put behind the place found. -/
theorem Place.grown_linked (hplace : Place c bp G p F) (hok : Ok base h c) (hfreed : Freed base h c bp)
    (hjoined : Joined base h h₁ bp F F') (hjoin : p + headerSize * h.size p ≠ bp) :
    Grown base h { joinPrev p bp h₁ with freep := p } c (G ++ p :: bp :: F') bp := by
  obtain ⟨rfl, hbefore, hlt, hafter⟩ := hplace
  have habove := hfreed.above
  have hp : p ∈ G ++ p :: F := by simp
  have hsame : h₁.size p = h.size p := hjoined.size p hlt.ne
  have hnew : { joinPrev p bp h₁ with freep := p } =
      (⟨p, update h₁.ptr p bp, h₁.size⟩ : Heap) := by
    rw [joinPrev, hsame, addUnits_of_lt (hok.bound p hp), if_neg hjoin]
  have hgap : p + headerSize * h.size p < bp := by
    by_cases hpb : p = base
    · rw [hpb, hok.size_base]
      omega
    · rcases hfreed.apart p hp hpb with hle | hle
      · exact Nat.lt_of_le_of_ne hle hjoin
      · dsimp only at hle
        omega
  have hnodup := hok.nodup
  have hsorted := hok.sorted
  rw [List.nodup_append, List.nodup_cons] at hnodup
  rw [List.pairwise_append, List.pairwise_cons] at hsorted
  have hsub : ∀ a ∈ F', a ∈ F := fun a ha => hjoined.sublist.subset ha
  have hpF : p ∉ F' := fun hmem => hnodup.2.1.1 (hsub p hmem)
  have hG : ∀ a ∈ G, a ≠ bp ∧ a ≠ p := fun a ha =>
    ⟨(hbefore a ha).ne, hnodup.2.2 a ha p List.mem_cons_self⟩
  have hF : ∀ a ∈ F', a ≠ bp := fun a ha => (hafter a (hsub a ha)).ne'
  rw [hnew]
  refine ⟨hok.replace ?_ ?_ ?_ ?_ ?_ ?_ ?_ (by simp), ?_, ?_, ?_⟩
  · intro a ha
    show update h₁.ptr p _ a = h.ptr a
    rw [update_of_ne (hG a ha).2, hjoined.ptr a (hG a ha).1]
  · exact fun a ha => hjoined.size a (hG a ha).1
  · refine linked_cons_cons.mpr ⟨update_self _ _ _, hjoined.path.update ?_⟩
    show p ∉ ((bp :: F') ++ [base]).dropLast
    rw [List.dropLast_concat, List.mem_cons, not_or]
    exact ⟨hlt.ne, hpF⟩
  · refine List.pairwise_cons.mpr ⟨?_, List.pairwise_cons.mpr ⟨hjoined.gap, ?_⟩⟩
    · have hpb : Gap h₁.size p bp := by
        rw [Gap, hsame]
        exact hgap
      exact List.forall_mem_cons.mpr ⟨hpb, fun a ha => hpb.trans (hjoined.gap a ha)⟩
    · exact pairwise_gap_congr (hsorted.2.1.2.sublist hjoined.sublist) fun a ha =>
        hjoined.size a (hF a ha)
  · exact (hjoined.size base habove.ne).trans hok.size_base
  · intro a ha hab
    show 0 < h₁.size a
    rcases List.mem_cons.mp ha with rfl | ha
    · rw [hsame]
      exact hok.sizes a hp hab
    · rcases List.mem_cons.mp ha with rfl | ha
      · exact Nat.lt_of_lt_of_le hfreed.size hjoined.larger
      · rw [hjoined.size a (hF a ha)]
        exact hok.sizes a (by simp [hsub a ha]) hab
  · intro a ha
    show a + headerSize * h₁.size a < uintSize
    rcases List.mem_cons.mp ha with rfl | ha
    · rw [hsame]
      exact hok.bound a hp
    · rcases List.mem_cons.mp ha with rfl | ha
      · exact hjoined.bound
      · rw [hjoined.size a (hF a ha)]
        exact hok.bound a (by simp [hsub a ha])
  · intro x
    have hcover := hjoined.cover x
    show cover (blocks h₁.size (G ++ p :: bp :: F')) x = _
    rw [blocks_append, blocks_append, cover_append, cover_append, cover_blocks_cons, cover_blocks_cons,
      cover_blocks_cons, hsame, blocks_congr fun a ha => hjoined.size a (hG a ha).1,
      blocks_congr fun a ha => hjoined.size a (hF a ha)]
    omega
  · exact fun a hab _ => hjoined.size a hab
  · exact ⟨bp, by simp, hjoined.larger⟩

end JoinPrev

/-- `free` ends, and its block is in the list. -/
theorem Freed.free (hfreed : Freed base h c bp) (hok : Ok base h c) :
    ∃ h' c', (∀ fuel, c.length < fuel → free fuel (bp + headerSize) h = some h') ∧
      Grown base h h' c c' bp := by
  obtain ⟨l, hl⟩ := List.head?_eq_some_iff.mp hok.head
  have hbp : bp ∉ l := by
    intro hmem
    have hmem' : bp ∈ c := hl ▸ List.mem_cons_of_mem _ hmem
    have hpos : 0 < headerSize * h.size bp := Nat.mul_pos (by decide) hfreed.size
    rcases hfreed.apart bp hmem' hfreed.above.ne' with hle | hle
    · dsimp only at hle
      omega
    · dsimp only at hle
      omega
  obtain ⟨G, p, F, hplace⟩ := exists_place (hl ▸ hok.sorted) hfreed.above hbp
  rw [← hl] at hplace
  obtain ⟨F', hjoined⟩ := hplace.joinNext hok hfreed
  have hrun : ∀ fuel, c.length < fuel → Umalloc.free fuel (bp + headerSize) h =
      some { joinPrev p bp (joinNext bp (h.ptr p) h) with freep := p } := by
    intro fuel hfuel
    rw [Umalloc.free, Nat.add_sub_cancel]
    dsimp only
    rw [hplace.findPlace hok hfreed.above hfuel]
    rfl
  by_cases hjoin : p + headerSize * h.size p = bp
  · exact ⟨_, _, hrun, hplace.grown_joined hok hfreed hjoined hjoin⟩
  · exact ⟨_, _, hrun, hplace.grown_linked hok hfreed hjoined hjoin⟩

/-! Taking a block. -/

/-- What is left of the list when a block has been taken, and the block. -/
structure Cut (base : Nat) (h h' : Heap) (c c' : List Nat) (q n : Nat) : Prop where
  ok : Ok base h' c'
  units : h'.size q = n
  covers : ∀ x, cover (blocks h'.size c') x + cover [⟨q, headerSize * n⟩] x = cover (blocks h.size c) x
  size : ∀ a, cover (blocks h.size c) a = 0 → h'.size a = h.size a

theorem Ok.exists_behind (hok : Ok base h c) {a b : Nat} (ha : a ∈ c) (hab : h.ptr a = b) (hb : b ≠ base) :
    ∃ G F, c = G ++ a :: b :: F := by
  obtain ⟨G, F, hsplit⟩ := List.append_of_mem ha
  have hnext := hok.ptr_eq hsplit
  cases F with
  | nil => exact absurd (hab.symm.trans hnext) hb
  | cons y F =>
    have hy : b = y := hab.symm.trans hnext
    exact ⟨G, F, hy ▸ hsplit⟩

theorem has_of_mem {l : List Nat} {a x : Nat} (ha : a ∈ l) (h1 : a ≤ x) (h2 : x < a + headerSize * size a) :
    cover (blocks size l) x ≠ 0 :=
  Nat.pos_iff_ne_zero.mp (cover_pos.mpr ⟨⟨a, headerSize * size a⟩, List.mem_map_of_mem ha, h1, h2⟩)

theorem Ok.cut_whole {a b n : Nat} (hok : Ok base h (G ++ a :: b :: F)) (hn : h.size b = n) :
    Cut base h { h with ptr := update h.ptr a (h.ptr b), freep := a } (G ++ a :: b :: F)
      (G ++ a :: F) b n := by
  have hring := hok.ring
  have hsorted := hok.sorted
  have hnodup := hok.nodup
  rw [List.append_assoc, List.cons_append, List.cons_append] at hring
  rw [List.pairwise_append, List.pairwise_cons] at hsorted
  rw [List.nodup_append, List.nodup_cons] at hnodup
  have hsub : ∀ x ∈ a :: F, x ∈ G ++ a :: b :: F := fun x hx => by
    rw [List.mem_cons] at hx
    simp only [List.mem_append, List.mem_cons]
    tauto
  refine ⟨hok.replace ?_ (fun _ _ => rfl) ?_ ?_ hok.size_base ?_ ?_ (by simp), hn, ?_, fun _ _ => rfl⟩
  · exact fun x hx => update_of_ne (hnodup.2.2 x hx a List.mem_cons_self) _ _
  · have hrest := (linked_cons_cons.mp (linked_split.mp hring).2).2
    exact hrest.relink fun hmem => hnodup.2.1.1 (List.mem_cons_of_mem _ hmem)
  · exact List.pairwise_cons.mpr ⟨fun x hx => hsorted.2.1.1 x (List.mem_cons_of_mem _ hx),
      (List.pairwise_cons.mp hsorted.2.1.2).2⟩
  · exact fun x hx => hok.sizes x (hsub x hx)
  · exact fun x hx => hok.bound x (hsub x hx)
  · intro x
    show cover (blocks h.size (G ++ a :: F)) x + _ = _
    rw [blocks_append, blocks_append, cover_append, cover_append, cover_blocks_cons, cover_blocks_cons,
      cover_blocks_cons, hn]
    omega

theorem Ok.cut_end {b n s : Nat} (hok : Ok base h (G ++ b :: F)) (hs : h.size b = s + n) (hpos : 0 < s)
    (hn : 0 < n) {f : Nat} (hf : f ∈ G ++ b :: F) :
    Cut base h { h with
        size := update (update h.size b s) (b + headerSize * s) n, freep := f }
      (G ++ b :: F) (G ++ b :: F) (b + headerSize * s) n := by
  have hsorted := hok.sorted
  have hring := hok.ring
  have hnodup := hok.nodup
  have hb : b ∈ G ++ b :: F := by simp
  rw [List.append_assoc, List.cons_append] at hring
  rw [List.pairwise_append, List.pairwise_cons] at hsorted
  rw [List.nodup_append, List.nodup_cons] at hnodup
  have hs8 : 0 < headerSize * s := Nat.mul_pos (by decide) hpos
  have hn8 : 0 < headerSize * n := Nat.mul_pos (by decide) hn
  have hlen : headerSize * h.size b = headerSize * s + headerSize * n := by rw [hs, Nat.mul_add]
  have hbound := hok.bound b hb
  -- The new header is inside the old block, so it is no node of the list.
  have hG : ∀ a ∈ G, a ≠ b ∧ a ≠ b + headerSize * s := fun a ha => by
    have hlt := (hsorted.2.2 a ha b List.mem_cons_self).lt
    omega
  have hF : ∀ a ∈ F, a ≠ b ∧ a ≠ b + headerSize * s := fun a ha => by
    have hgap := hsorted.2.1.1 a ha
    rw [Gap] at hgap
    omega
  have hold : ∀ a, a ≠ b ∧ a ≠ b + headerSize * s →
      update (update h.size b s) (b + headerSize * s) n a = h.size a := fun a ha => by
    rw [update_of_ne ha.2, update_of_ne ha.1]
  have hsize : update (update h.size b s) (b + headerSize * s) n b = s := by
    rw [update_of_ne (by omega), update_self]
  have hbase : base ≠ b ∧ base ≠ b + headerSize * s := by
    have hle := hok.base_le hb
    refine ⟨?_, by omega⟩
    rintro rfl
    rw [hok.size_base] at hs
    omega
  refine ⟨hok.replace (fun _ _ => rfl) ?_ (linked_split.mp hring).2 ?_ ?_ ?_ ?_ hf, ?_, ?_, ?_⟩
  · exact fun a ha => hold a (hG a ha)
  · refine List.pairwise_cons.mpr ⟨fun a ha => ?_, pairwise_gap_congr hsorted.2.1.2 fun a ha =>
      hold a (hF a ha)⟩
    have hgap := hsorted.2.1.1 a ha
    rw [Gap] at hgap ⊢
    dsimp only
    rw [hsize]
    omega
  · exact (hold base hbase).trans hok.size_base
  · intro a ha hab
    dsimp only
    rcases List.mem_cons.mp ha with rfl | ha
    · rw [hsize]
      exact hpos
    · rw [hold a (hF a ha)]
      exact hok.sizes a (by simp [ha]) hab
  · intro a ha
    dsimp only
    rcases List.mem_cons.mp ha with rfl | ha
    · rw [hsize]
      omega
    · rw [hold a (hF a ha)]
      exact hok.bound a (by simp [ha])
  · exact update_self _ _ _
  · intro x
    dsimp only
    rw [blocks_append, blocks_append, cover_append, cover_append, cover_blocks_cons, cover_blocks_cons,
      hsize, hlen, cover_cut, blocks_congr fun a ha => hold a (hG a ha),
      blocks_congr fun a ha => hold a (hF a ha)]
    omega
  · intro a ha
    refine hold a ⟨?_, ?_⟩
    · rintro rfl
      exact has_of_mem hb le_rfl (by omega) ha
    · rintro rfl
      exact has_of_mem hb (by omega) (by omega) ha

theorem Ok.take (hok : Ok base h c) {a b n : Nat} (ha : a ∈ c) (hab : h.ptr a = b) (hn : 0 < n)
    (hfit : n ≤ h.size b) : ∃ c', Cut base h (take n a b h).2 c c' (take n a b h).1 n := by
  have hb : b ≠ base := by
    rintro rfl
    rw [hok.size_base] at hfit
    omega
  obtain ⟨G, F, rfl⟩ := hok.exists_behind ha hab hb
  rw [Umalloc.take]
  by_cases hall : h.size b = n
  · rw [if_pos hall]
    exact ⟨_, hok.cut_whole hall⟩
  · rw [if_neg hall]
    obtain ⟨s, hs⟩ : ∃ s, h.size b = s + n := ⟨h.size b - n, by omega⟩
    have hsub : h.size b - n = s := by omega
    have hsplit : G ++ a :: b :: F = (G ++ [a]) ++ b :: F := by simp
    have hbound := hok.bound b (by simp)
    have hsum : addUnits b s = b + headerSize * s := by
      apply addUnits_of_lt
      rw [hs, Nat.mul_add] at hbound
      omega
    dsimp only
    rw [update_self, hsub, hsum]
    rw [hsplit] at hok ⊢
    exact ⟨_, hok.cut_end hs (by omega) hn (by simp)⟩

end Xv6.Umalloc
