import Xv6.Buffers
import Xv6.LibLinks

/-! The list of buffers of bio.c with its pointers: `binit`, what `bget` does under `bcache.lock` up to the `release` or
the `sleep`, and what `brelse` does under it. The list is a ring through `bcache.head`, in the order of the releases. -/

namespace Xv6.Buffers

open LibLinks LibRun Function

/-- A `struct buf *`: a buffer or `&bcache.head`. -/
abbrev Node := Option Buf

/-- The fields of the buffers that are used under `bcache.lock`. -/
structure Cache where
  next : Node → Node
  prev : Node → Node
  busy : Buf → Bool
  dev : Buf → Nat
  sector : Buf → Nat

namespace Cache

def setNext (x y : Node) (c : Cache) : Cache := { c with next := update c.next x y }

def setPrev (x y : Node) (c : Cache) : Cache := { c with prev := update c.prev x y }

@[simp] theorem setNext_next (x y : Node) (c : Cache) : (c.setNext x y).next = update c.next x y := rfl

@[simp] theorem setNext_prev (x y : Node) (c : Cache) : (c.setNext x y).prev = c.prev := rfl

@[simp] theorem setPrev_prev (x y : Node) (c : Cache) : (c.setPrev x y).prev = update c.prev x y := rfl

@[simp] theorem setPrev_next (x y : Node) (c : Cache) : (c.setPrev x y).next = c.next := rfl

/-- The loop body of `binit`. -/
def initOne (c : Cache) (b : Buf) : Cache :=
  let c := c.setNext b (c.next none)
  let c := c.setPrev b none
  let c := { c with dev := update c.dev b noDev }
  let c := c.setPrev (c.next none) b
  c.setNext none b

def binit (c : Cache) : Cache :=
  (List.finRange NBUF).foldl initOne ((c.setPrev none none).setNext none none)

/-- `brelse`. -/
def brelse (b : Buf) (c : Cache) : Cache :=
  let c := c.setPrev (c.next b) (c.prev b)
  let c := c.setNext (c.prev b) (c.next b)
  let c := c.setNext b (c.next none)
  let c := c.setPrev b none
  let c := c.setPrev (c.next none) b
  let c := c.setNext none b
  { c with busy := update c.busy b false }

end Cache

/-- How a turn of `bget` ends. -/
inductive Taken where
  | cached (b : Buf)
  | sleep (b : Buf)
  | recycled (b : Buf)
  | panic

/-- A test of a buffer; the head is none. -/
def onBuf (hit : Buf → Bool) (x : Node) : Bool := x.any hit

/-- A turn of the loop of `bget`. Each of its `for` loops ends after as many buffers as there are, or never. -/
def Cache.bget (dev sector : Nat) (c : Cache) : Option (Taken × Cache) :=
  match seek c.next none (onBuf fun b => decide (c.dev b = dev ∧ c.sector b = sector)) (NBUF + 1) (c.next none) with
  | some (some (some b)) =>
    if c.busy b = false then some (.cached b, { c with busy := update c.busy b true })
    else some (.sleep b, c)
  | some (some none) => none
  | some none =>
    match seek c.prev none (onBuf fun b => decide (c.busy b = false)) (NBUF + 1) (c.prev none) with
    | some (some (some b)) =>
      some (.recycled b,
        { c with dev := update c.dev b dev, sector := update c.sector b sector,
                 busy := update c.busy b true })
    | some (some none) => none
    | some none => some (.panic, c)
    | none => none
  | none => none

/-- The steps: a turn of `bget`, or a release; the releases are remembered, the last one first. -/
inductive CacheStep : Cache × List Buf → Cache × List Buf → Prop
  | bget {c c' : Cache} {released : List Buf} (dev sector : Nat) (taken : Taken) :
      c.bget dev sector = some (taken, c') → CacheStep (c, released) (c', released)
  | brelse {c : Cache} {released : List Buf} (b : Buf) : CacheStep (c, released) (c.brelse b, b :: released)

/-- The states of all runs from `binit` on. -/
def CacheReaches : Cache × List Buf → Prop :=
  Reachable (fun s => (∃ c : Cache, (∀ b, c.busy b = false) ∧ s.1 = c.binit) ∧ s.2 = []) CacheStep

/-- The pointers form the list. -/
def IsList (c : Cache) (l : List Buf) : Prop := Ring c.next c.prev none (l.map some)

variable {c c' : Cache} {l released : List Buf} {b : Buf}

/-! The pointer operations. -/

theorem notMem_nodes (hb : b ∉ l) : (some b : Node) ∉ (none : Node) :: l.map some := by
  intro hmem
  rcases List.mem_cons.mp hmem with hnone | hmem
  · cases hnone
  · obtain ⟨b', hb', heq⟩ := List.mem_map.mp hmem
    exact hb (Option.some.inj heq ▸ hb')

/-- The last four pointer stores of `brelse`, which are those of `binit`. -/
def Cache.pushFront (b : Buf) (c : Cache) : Cache :=
  let c := (c.setNext b (c.next none)).setPrev b none
  (c.setPrev (c.next none) b).setNext none b

/-- The first two. -/
def Cache.unlink (b : Buf) (c : Cache) : Cache :=
  let c := c.setPrev (c.next b) (c.prev b)
  c.setNext (c.prev b) (c.next b)

theorem IsList.pushFront (h : IsList c l) (hb : b ∉ l) : IsList (c.pushFront b) (b :: l) := by
  have hnext : (c.setNext b (c.next none)).next none = c.next none := by
    rw [Cache.setNext_next, update_of_ne (Option.some_ne_none b).symm]
  have hpush : Ring _ _ (none : Node) (some b :: l.map some) := Ring.push h (notMem_nodes hb)
  show Ring (update (c.setNext b (c.next none)).next none b)
    (update (update c.prev b none) ((c.setNext b (c.next none)).next none) b) none _
  rw [hnext]
  exact hpush

theorem IsList.unlink {l₁ l₂ : List Buf} (h : IsList c (l₁ ++ b :: l₂)) : IsList (c.unlink b) (l₁ ++ l₂) := by
  unfold IsList at *
  rw [List.map_append, List.map_cons] at h
  have hself : c.next b ≠ b := by
    intro heq
    have hmem := (linked_append.mp h.linked).2.next_mem
    rw [heq] at hmem
    have hnodup := h.target
    rw [List.append_assoc] at hnodup
    exact (List.nodup_cons.mp (List.nodup_append.mp hnodup).2.1).1 hmem
  have hprev : (c.setPrev (c.next b) (c.prev b)).prev b = c.prev b := update_of_ne hself.symm _ _
  rw [List.map_append]
  show Ring (update c.next ((c.setPrev (c.next b) (c.prev b)).prev b) (c.next b))
    (update c.prev (c.next b) (c.prev b)) none _
  rw [hprev]
  exact h.unlink

theorem IsList.nodup (h : IsList c l) : l.Nodup := (List.nodup_cons.mp (Ring.nodup h)).2.of_map some

/-- A release moves the buffer to the front. -/
theorem IsList.brelse (h : IsList c l) (hb : b ∈ l) : IsList (c.brelse b) (b :: l.erase b) := by
  obtain ⟨l₁, l₂, rfl⟩ := List.append_of_mem hb
  have hnodup := h.nodup
  have hb₁ : b ∉ l₁ := fun hmem => (List.nodup_append.mp hnodup).2.2 b hmem b List.mem_cons_self rfl
  have hb₂ : b ∉ l₂ := (List.nodup_cons.mp (List.nodup_append.mp hnodup).2.1).1
  rw [List.erase_append_right _ hb₁, List.erase_cons_head]
  refine IsList.pushFront h.unlink fun hmem => ?_
  exact (List.mem_append.mp hmem).elim hb₁ hb₂

theorem IsList.initOne (h : IsList c l) (hb : b ∉ l) : IsList (c.initOne b) (b :: l) := h.pushFront hb

theorem isList_binit (c : Cache) : IsList c.binit (List.finRange NBUF).reverse := by
  have hfold : ∀ (bs l : List Buf) (c : Cache), IsList c l → (bs.reverse ++ l).Nodup →
      IsList (bs.foldl Cache.initOne c) (bs.reverse ++ l) := by
    intro bs
    induction bs with
    | nil => exact fun l c h _ => h
    | cons b bs ih =>
      intro l c h hnodup
      rw [List.reverse_cons, List.append_assoc] at hnodup ⊢
      have hb : b ∉ l := (List.nodup_cons.mp (List.nodup_append.mp hnodup).2.1).1
      exact ih (b :: l) _ (h.initOne hb) hnodup
  have hempty : IsList ((c.setPrev none none).setNext none none) [] := by
    refine ⟨⟨?_, ?_⟩, List.nodup_singleton _⟩
    · rw [Cache.setNext_next, update_self]
    · rw [Cache.setNext_prev, Cache.setPrev_prev, update_self]
  have hlist := hfold (List.finRange NBUF) [] _ hempty
  rw [List.append_nil] at hlist
  exact hlist (List.nodup_reverse.mpr (List.nodup_finRange NBUF))

/-! The searches. -/

theorem find_nodes (hit : Buf → Bool) (l : List Buf) : (l.map some).find? (onBuf hit) = (l.find? hit).map some := by
  rw [List.find?_map]
  rfl

theorem IsList.seek_next (h : IsList c l) (hlength : l.length = NBUF) (hit : Buf → Bool) :
    seek c.next none (onBuf hit) (NBUF + 1) (c.next none) = some ((l.find? hit).map some) := by
  have hfuel : (l.map some).length < NBUF + 1 := by
    rw [List.length_map, hlength]
    exact Nat.lt_succ_self _
  rw [Ring.seek_next h _ hfuel, find_nodes]

theorem IsList.seek_prev (h : IsList c l) (hlength : l.length = NBUF) (hit : Buf → Bool) :
    seek c.prev none (onBuf hit) (NBUF + 1) (c.prev none) = some ((l.reverse.find? hit).map some) := by
  have hfuel : (l.map some).length < NBUF + 1 := by
    rw [List.length_map, hlength]
    exact Nat.lt_succ_self _
  rw [Ring.seek_prev h _ hfuel, ← List.map_reverse, find_nodes]

/-- `bget` on the list. -/
theorem IsList.bget (h : IsList c l) (hlength : l.length = NBUF) (dev sector : Nat) :
    ∃ taken c', c.bget dev sector = some (taken, c') ∧ c'.next = c.next ∧ c'.prev = c.prev ∧
      ∀ b, taken = .recycled b →
        l.find? (fun b => decide (c.dev b = dev ∧ c.sector b = sector)) = none ∧
        l.reverse.find? (fun b => decide (c.busy b = false)) = some b := by
  unfold Cache.bget
  rw [h.seek_next hlength, h.seek_prev hlength]
  cases hcached : l.find? fun b => decide (c.dev b = dev ∧ c.sector b = sector) with
  | some b =>
    by_cases hbusy : c.busy b = false
    · simp only [Option.map_some, if_pos hbusy]
      exact ⟨_, _, rfl, rfl, rfl, fun b' hb' => by cases hb'⟩
    · simp only [Option.map_some, if_neg hbusy]
      exact ⟨_, _, rfl, rfl, rfl, fun b' hb' => by cases hb'⟩
  | none =>
    cases hfree : l.reverse.find? fun b => decide (c.busy b = false) with
    | some b =>
      refine ⟨_, _, rfl, rfl, rfl, fun b' hb' => ⟨rfl, ?_⟩⟩
      cases hb'
      rfl
    | none => exact ⟨_, _, rfl, rfl, rfl, fun b' hb' => by cases hb'⟩

/-! The order of the releases. -/

/-- The list has the released buffers in front, the last released one first. -/
def ByRelease (l released : List Buf) : Prop :=
  ∀ a ∈ released, ∀ b, l.idxOf a < l.idxOf b ↔ released.idxOf a < released.idxOf b

theorem idxOf_erase {a x : Buf} (ha : a ≠ b) (hx : x ≠ b) (l : List Buf) :
    (l.erase b).idxOf a < (l.erase b).idxOf x ↔ l.idxOf a < l.idxOf x := by
  induction l with
  | nil => exact Iff.rfl
  | cons y l ih =>
    by_cases hy : y = b
    · rw [hy, List.erase_cons_head, List.idxOf_cons_ne _ ha.symm, List.idxOf_cons_ne _ hx.symm]
      exact Nat.succ_lt_succ_iff.symm
    · rw [List.erase_cons_tail (by simpa using hy)]
      by_cases hya : y = a
      · by_cases hyx : y = x
        · rw [← hya, ← hyx]
          exact iff_of_false (lt_irrefl _) (lt_irrefl _)
        · rw [hya] at hyx ⊢
          rw [List.idxOf_cons_self, List.idxOf_cons_self, List.idxOf_cons_ne _ hyx, List.idxOf_cons_ne _ hyx]
          exact iff_of_true (Nat.succ_pos _) (Nat.succ_pos _)
      · rw [List.idxOf_cons_ne _ hya, List.idxOf_cons_ne _ hya]
        by_cases hyx : y = x
        · rw [hyx, List.idxOf_cons_self, List.idxOf_cons_self]
          exact iff_of_false (Nat.not_lt_zero _) (Nat.not_lt_zero _)
        · rw [List.idxOf_cons_ne _ hyx, List.idxOf_cons_ne _ hyx, Nat.succ_lt_succ_iff, Nat.succ_lt_succ_iff]
          exact ih

theorem ByRelease.brelse (h : ByRelease l released) : ByRelease (b :: l.erase b) (b :: released) := by
  intro a ha x
  by_cases hab : a = b
  · rw [hab, List.idxOf_cons_self, List.idxOf_cons_self]
    by_cases hxb : x = b
    · rw [hxb, List.idxOf_cons_self, List.idxOf_cons_self]
    · rw [List.idxOf_cons_ne _ (Ne.symm hxb), List.idxOf_cons_ne _ (Ne.symm hxb)]
      exact iff_of_true (Nat.succ_pos _) (Nat.succ_pos _)
  · have ha : a ∈ released := (List.mem_cons.mp ha).resolve_left hab
    rw [List.idxOf_cons_ne _ (Ne.symm hab), List.idxOf_cons_ne _ (Ne.symm hab)]
    by_cases hxb : x = b
    · rw [hxb, List.idxOf_cons_self, List.idxOf_cons_self]
      exact iff_of_false (Nat.not_lt_zero _) (Nat.not_lt_zero _)
    · rw [List.idxOf_cons_ne _ (Ne.symm hxb), List.idxOf_cons_ne _ (Ne.symm hxb), Nat.succ_lt_succ_iff,
        Nat.succ_lt_succ_iff, idxOf_erase hab hxb]
      exact h a ha x

/-- The last node of a list that is hit. -/
theorem idxOf_lt_of_find_reverse {hit : Buf → Bool} {b' : Buf} (hnodup : l.Nodup)
    (hfind : l.reverse.find? hit = some b) (hmem : b' ∈ l) (hhit : hit b' = true) (hne : b' ≠ b) :
    l.idxOf b' < l.idxOf b := by
  obtain ⟨-, later, earlier, hsplit, hlater⟩ := List.find?_eq_some_iff_append.mp hfind
  have hl : l = earlier.reverse ++ b :: later.reverse := by
    rw [← List.reverse_reverse l, hsplit, List.reverse_append, List.reverse_cons, List.append_assoc]
    rfl
  rw [hl] at hnodup hmem ⊢
  have hb : b ∉ earlier.reverse := fun hb => (List.nodup_append.mp hnodup).2.2 b hb b List.mem_cons_self rfl
  have hb' : b' ∈ earlier.reverse := by
    rcases List.mem_append.mp hmem with hin | hin
    · exact hin
    · rcases List.mem_cons.mp hin with heq | hin
      · exact absurd heq hne
      · have hmiss := hlater b' (List.mem_reverse.mp hin)
        rw [hhit] at hmiss
        cases hmiss
  rw [List.idxOf_append_of_mem hb', List.idxOf_append_of_notMem hb, List.idxOf_cons_self, Nat.add_zero]
  exact List.idxOf_lt_length_of_mem hb'

/-! The invariant. -/

/-- The pointers form a list of all buffers, by release. -/
def Ordered (s : Cache × List Buf) : Prop :=
  ∃ l : List Buf, l.Perm (List.finRange NBUF) ∧ IsList s.1 l ∧ ByRelease l s.2

theorem Ordered.step {s t : Cache × List Buf} (h : Ordered s) (hstep : CacheStep s t) : Ordered t := by
  obtain ⟨l, hperm, hlist, horder⟩ := h
  cases hstep with
  | bget dev sector taken hbget =>
    obtain ⟨taken', c', hrun, hnext, hprev, -⟩ :=
      hlist.bget (hperm.length_eq.trans List.length_finRange) dev sector
    rw [hrun] at hbget
    cases hbget
    refine ⟨l, hperm, ?_, horder⟩
    show Ring _ _ _ _
    rw [hnext, hprev]
    exact hlist
  | brelse b =>
    have hb : b ∈ l := hperm.mem_iff.mpr (List.mem_finRange b)
    exact ⟨b :: l.erase b, (List.perm_cons_erase hb).symm.trans hperm, hlist.brelse hb, horder.brelse⟩

theorem CacheReaches.ordered {s : Cache × List Buf} (h : CacheReaches s) : Ordered s := by
  refine Reachable.invariant (fun s hs => ?_) (fun s t _ hs hst => hs.step hst) h
  obtain ⟨⟨c, -, hc⟩, hreleased⟩ := hs
  refine ⟨(List.finRange NBUF).reverse, List.reverse_perm _, hc ▸ isList_binit c, fun a ha => ?_⟩
  rw [hreleased] at ha
  cases ha

/-- In every state: `next` leads once through all buffers and back to the head, `prev` is its inverse, the list is in
the order of the releases, and a turn of `bget` returns; the buffer it recycles is the last one that is not busy, which
is the one released least recently. -/
theorem bcache_is_lru (c : Cache) (released : List Buf) (h : CacheReaches (c, released)) :
    ∃ l : List Buf, l.Perm (List.finRange NBUF) ∧
      (List.range NBUF).map (fun i => c.next^[i + 1] none) = l.map some ∧ c.next^[NBUF + 1] none = none ∧
      (∀ x, c.prev (c.next x) = x ∧ c.next (c.prev x) = x) ∧
      (∀ a ∈ released, ∀ b, l.idxOf a < l.idxOf b ↔ released.idxOf a < released.idxOf b) ∧
      ∀ dev sector, ∃ taken c', c.bget dev sector = some (taken, c') ∧ ∀ b, taken = .recycled b →
        c.busy b = false ∧ ∀ b', c.busy b' = false → b' ≠ b →
          l.idxOf b' < l.idxOf b ∧ (b' ∈ released → released.idxOf b' < released.idxOf b) := by
  obtain ⟨l, hperm, hlist, horder⟩ := h.ordered
  have hall : ∀ b, b ∈ l := fun b => hperm.mem_iff.mpr (List.mem_finRange b)
  have hlength : l.length = NBUF := hperm.length_eq.trans List.length_finRange
  obtain ⟨hnodes, hend⟩ := hlist.linked.iterate
  rw [List.length_map, hlength] at hnodes hend
  refine ⟨l, hperm, hnodes.symm, hend, fun x => hlist.inverse ?_, horder, fun dev sector => ?_⟩
  · cases x with
    | none => exact List.mem_cons_self
    | some b => exact List.mem_cons_of_mem _ (List.mem_map_of_mem (hall b))
  · obtain ⟨taken, c', hrun, -, -, hrecycled⟩ := hlist.bget hlength dev sector
    refine ⟨taken, c', hrun, fun b hb => ?_⟩
    obtain ⟨-, hfind⟩ := hrecycled b hb
    have hidle := List.find?_some hfind
    refine ⟨of_decide_eq_true hidle, fun b' hfree hne => ?_⟩
    have hless := idxOf_lt_of_find_reverse hlist.nodup hfind (hall b') (decide_eq_true hfree) hne
    exact ⟨hless, fun hmem => (horder b' hmem b).mp hless⟩

/-- The cache at boot, all zero. -/
def zeroCache : Cache where
  next := fun _ => none
  prev := fun _ => none
  busy := fun _ => false
  dev := fun _ => 0
  sector := fun _ => 0

def someBuf : Buf := ⟨3, by decide⟩

theorem released_is_lru : CacheReaches (zeroCache.binit.brelse someBuf, [someBuf]) ∧
    (zeroCache.binit.brelse someBuf).next^[NBUF + 1] none = none := by
  have hreach : CacheReaches (zeroCache.binit.brelse someBuf, [someBuf]) :=
    .next (.start ⟨⟨zeroCache, fun _ => rfl, rfl⟩, rfl⟩) (.brelse someBuf)
  obtain ⟨l, -, -, hend, -⟩ := bcache_is_lru _ _ hreach
  exact ⟨hreach, hend⟩

end Xv6.Buffers
