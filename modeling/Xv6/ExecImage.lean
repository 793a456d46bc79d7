import Xv6.ExecClean

/-! The image that `exec` builds: the bytes of the segments, and the stack with the arguments of `main`. -/

namespace Xv6.Exec

open LibExcept LibWord Fs Vm

variable {w : World} {m : Mem} {role : Nat → Role} {bytes : List UInt8} {garbage : Block} {path : Str}
  {argv l : List Str} {p : Process} {d sp argp top bottom pg : Nat}

/-! The areas of the stack, by their user addresses. -/

/-- Bytes at an address. -/
structure Area where
  va : Nat
  bytes : List UInt8

/-- Areas that do not overlap. -/
def Area.Apart (a b : Area) : Prop := a.va + a.bytes.length ≤ b.va ∨ b.va + b.bytes.length ≤ a.va

/-- The strings and the pointers to them, from the last to the first. -/
def stringAreas (argp : Nat) : List Str → Nat → List Area
  | [], _ => []
  | s :: rest, sp =>
    ⟨sp - (s.length + 1), s ++ [0]⟩ :: ⟨argp + 4 * rest.length, wordBytes (sp - (s.length + 1))⟩ ::
      stringAreas argp rest (sp - (s.length + 1))

/-- Where the array of pointers goes. -/
def arrayAt (top : Nat) (argv : List Str) : Nat := top - arglen argv - 4 * (argv.length + 1)

def stackAreas (top : Nat) (argv : List Str) : List Area :=
  ⟨arrayAt top argv + 4 * argv.length, wordBytes 0⟩ :: stringAreas (arrayAt top argv) argv.reverse top ++
    [⟨arrayAt top argv - 4, wordBytes (arrayAt top argv)⟩, ⟨arrayAt top argv - 8, wordBytes argv.length⟩,
      ⟨arrayAt top argv - 12, wordBytes 0xffffffff⟩]

/-- The store of an area, when the page `pg` is at user address `bottom`. -/
def Area.poke (pg bottom : Nat) (a : Area) : Poke := ⟨pg * pgsize + (a.va - bottom), a.bytes⟩

theorem stringPokes_eq (h : StackPage pg bottom) (hargp : bottom ≤ argp)
    (harray : argp + 4 * l.length ≤ bottom + pgsize) (hsp : sp ≤ bottom + pgsize) (hbytes : bottom + argBytes l ≤ sp) :
    stringPokes pg bottom argp l sp = (stringAreas argp l sp).map (Area.poke pg bottom) := by
  have hlt := page_lt h
  induction l generalizing sp with
  | nil => rfl
  | cons s l ih =>
    rw [argBytes_cons] at hbytes
    rw [List.length_cons] at harray
    have hsub : sub32 sp (s.length + 1) = sp - (s.length + 1) := sub32_eq (by omega) (by omega)
    have haddr : kaddr pg bottom (sp - (s.length + 1)) = pg * pgsize + (sp - (s.length + 1) - bottom) :=
      kaddr_eq h (by omega) (by omega)
    have hptr : (kaddr pg bottom argp + 4 * l.length) % uintSize = pg * pgsize + (argp + 4 * l.length - bottom) := by
      rw [pointer_addr h hargp (by omega), show argp - bottom + 4 * l.length = argp + 4 * l.length - bottom by omega]
    rw [stringPokes, stringAreas, hsub, haddr, hptr, ih (by omega) (by omega) (by omega)]
    rfl

theorem arrayAt_bounds (hfits : Fits argv) : bottom + 12 ≤ arrayAt (bottom + pgsize) argv ∧
    arrayAt (bottom + pgsize) argv + 4 * (argv.length + 1) + arglen argv = bottom + pgsize ∧
    argBytes argv ≤ arglen argv := by
  have hround : argBytes argv ≤ arglen argv := by
    simp only [arglen]
    omega
  unfold Fits at hfits
  unfold arrayAt
  omega

theorem stackPokes_eq (h : StackPage pg bottom) (hfits : Fits argv) :
    stackPokes pg bottom (bottom + pgsize) argv = (stackAreas (bottom + pgsize) argv).map (Area.poke pg bottom) := by
  have hlt := page_lt h
  have hargp : argpOf (bottom + pgsize) argv = arrayAt (bottom + pgsize) argv := argpOf_eq h hfits
  have hbounds : bottom + 12 ≤ arrayAt (bottom + pgsize) argv ∧ _ := arrayAt_bounds hfits
  obtain ⟨hlo, hhi, hround⟩ := hbounds
  have h4 : sub32 (arrayAt (bottom + pgsize) argv) 4 = arrayAt (bottom + pgsize) argv - 4 :=
    sub32_eq (by omega) (by omega)
  have h8 : sub32 (arrayAt (bottom + pgsize) argv - 4) 4 = arrayAt (bottom + pgsize) argv - 8 :=
    sub32_eq (by omega) (by omega)
  have h12 : sub32 (arrayAt (bottom + pgsize) argv - 8) 4 = arrayAt (bottom + pgsize) argv - 12 :=
    sub32_eq (by omega) (by omega)
  have hptr : (kaddr pg bottom (arrayAt (bottom + pgsize) argv) + 4 * argv.length) % uintSize =
      pg * pgsize + (arrayAt (bottom + pgsize) argv + 4 * argv.length - bottom) := by
    rw [pointer_addr h (by omega) (by omega), Nat.sub_add_comm (by omega)]
  rw [stackPokes, stackAreas, hargp, h4, h8, h12, hptr, kaddr_eq h (by omega) (by omega),
    kaddr_eq h (by omega) (by omega), kaddr_eq h (by omega) (by omega),
    stringPokes_eq h (by omega) (by rw [List.length_reverse]; omega) le_rfl (by rw [argBytes_reverse]; omega),
    List.cons_append, List.cons_append, List.map_cons, List.map_append]
  rfl

/-! The areas do not overlap. -/

theorem wordBytes_length (a : Nat) : (wordBytes a).length = 4 := rfl

/-- The pointers are in the array, the strings below `sp`. -/
theorem stringAreas_range (hsp : argBytes l ≤ sp) : ∀ a ∈ stringAreas argp l sp,
    argp ≤ a.va ∧ a.va + a.bytes.length ≤ argp + 4 * l.length ∨
      sp - argBytes l ≤ a.va ∧ a.va + a.bytes.length ≤ sp := by
  induction l generalizing sp with
  | nil => exact fun a ha => absurd ha List.not_mem_nil
  | cons s l ih =>
    intro a ha
    rw [argBytes_cons] at hsp ⊢
    rw [List.length_cons]
    rcases List.mem_cons.mp ha with rfl | ha
    · grind
    · rcases List.mem_cons.mp ha with rfl | ha
      · left
        show argp ≤ argp + _ ∧ argp + 4 * l.length + 4 ≤ _
        omega
      · grind

theorem stringAreas_apart (hsp : argBytes l ≤ sp) (harray : argp + 4 * l.length ≤ sp - argBytes l) :
    (stringAreas argp l sp).Pairwise Area.Apart := by
  induction l generalizing sp with
  | nil => exact .nil
  | cons s l ih =>
    rw [argBytes_cons] at hsp harray
    rw [List.length_cons] at harray
    have hrange : ∀ a ∈ stringAreas argp l (sp - (s.length + 1)), _ := stringAreas_range (by omega)
    rw [stringAreas, List.pairwise_cons, List.pairwise_cons]
    refine ⟨fun a ha => ?_, fun a ha => ?_, ih (by omega) (by omega)⟩
    · rcases List.mem_cons.mp ha with rfl | ha
      · right
        show argp + 4 * l.length + 4 ≤ sp - (s.length + 1)
        omega
      · right
        show a.va + a.bytes.length ≤ sp - (s.length + 1)
        rcases hrange a ha with hin | hin
        · omega
        · omega
    · rcases hrange a ha with hin | hin
      · right
        show a.va + a.bytes.length ≤ argp + 4 * l.length
        omega
      · left
        show argp + 4 * l.length + 4 ≤ a.va
        omega

theorem stackAreas_apart (hfits : Fits argv) : (stackAreas (bottom + pgsize) argv).Pairwise Area.Apart := by
  have hbounds : bottom + 12 ≤ arrayAt (bottom + pgsize) argv ∧ _ := arrayAt_bounds hfits
  obtain ⟨hlo, hhi, hround⟩ := hbounds
  rw [stackAreas]
  generalize arrayAt (bottom + pgsize) argv = argp at *
  have hrange : ∀ a ∈ stringAreas argp argv.reverse (bottom + pgsize),
      argp ≤ a.va ∧ (a.va + a.bytes.length ≤ argp + 4 * argv.length ∨ argp + 4 * argv.length + 4 ≤ a.va) := by
    intro a ha
    have hin := stringAreas_range (by rw [argBytes_reverse]; omega) a ha
    rw [argBytes_reverse, List.length_reverse] at hin
    omega
  have hframe : ∀ a ∈ [(⟨argp - 4, wordBytes argp⟩ : Area), ⟨argp - 8, wordBytes argv.length⟩,
      ⟨argp - 12, wordBytes 0xffffffff⟩], a.va + a.bytes.length ≤ argp := by
    simp only [List.forall_mem_cons, wordBytes_length, List.not_mem_nil, false_implies, implies_true, and_true]
    omega
  rw [List.cons_append, List.pairwise_cons, List.pairwise_append]
  refine ⟨fun a ha => ?_, stringAreas_apart ?_ ?_, ?_, fun a ha b hb => ?_⟩
  · rcases List.mem_append.mp ha with ha | ha
    · exact (hrange a ha).2.symm
    · right
      have hbelow := hframe a ha
      show a.va + a.bytes.length ≤ argp + 4 * argv.length
      omega
  · rw [argBytes_reverse]
    omega
  · rw [argBytes_reverse, List.length_reverse]
    omega
  · simp only [List.pairwise_cons, List.forall_mem_cons, Area.Apart, wordBytes_length, List.not_mem_nil, false_implies,
      implies_true, and_true, List.Pairwise.nil]
    omega
  · right
    have hbelow := hframe b hb
    have habove := (hrange a ha).1
    omega

theorem stackAreas_inside (hfits : Fits argv) :
    ∀ a ∈ stackAreas (bottom + pgsize) argv, bottom ≤ a.va ∧ a.va + a.bytes.length ≤ bottom + pgsize := by
  have hbounds : bottom + 12 ≤ arrayAt (bottom + pgsize) argv ∧ _ := arrayAt_bounds hfits
  obtain ⟨hlo, hhi, hround⟩ := hbounds
  rw [stackAreas]
  generalize arrayAt (bottom + pgsize) argv = argp at *
  intro a ha
  rw [List.cons_append, List.mem_cons, List.mem_append] at ha
  rcases ha with rfl | ha | ha
  · show bottom ≤ argp + _ ∧ argp + 4 * argv.length + 4 ≤ _
    omega
  · have hin := stringAreas_range (by rw [argBytes_reverse]; omega) a ha
    rw [argBytes_reverse, List.length_reverse] at hin
    omega
  · revert a
    simp only [List.forall_mem_cons, wordBytes_length, List.not_mem_nil, false_implies, implies_true, and_true]
    omega

/-! What is in the page after the stores. -/

theorem pageAfter_cons (b : Block) (a : Area) (areas : List Area) :
    pageAfter pg b ((a :: areas).map (Area.poke pg bottom)) =
      pageAfter pg (b.write (a.va - bottom) a.bytes.length (a.bytes.getD · 0)) (areas.map (Area.poke pg bottom)) := by
  have haddr : (a.poke pg bottom).addr - pg * pgsize = a.va - bottom := Nat.add_sub_cancel_left _ _
  show pageAfter pg (b.write ((a.poke pg bottom).addr - pg * pgsize) _ _) _ = _
  rw [haddr]
  rfl

theorem pageAfter_other {areas : List Area} {b : Block} {o : Nat}
    (hother : ∀ a ∈ areas, ¬ (a.va - bottom ≤ o ∧ o < a.va - bottom + a.bytes.length)) :
    pageAfter pg b (areas.map (Area.poke pg bottom)) o = b o := by
  induction areas generalizing b with
  | nil => rfl
  | cons a areas ih =>
    rw [pageAfter_cons, ih fun x hx => hother x (List.mem_cons_of_mem a hx)]
    exact if_neg (hother a List.mem_cons_self)

/-- Each area has its bytes, since no later store touches it. -/
theorem pageAfter_area {areas : List Area} {b : Block} {a : Area} {j : Nat} (hapart : areas.Pairwise Area.Apart)
    (hbottom : ∀ a ∈ areas, bottom ≤ a.va) (ha : a ∈ areas) (hj : j < a.bytes.length) :
    pageAfter pg b (areas.map (Area.poke pg bottom)) (a.va - bottom + j) = a.bytes.getD j 0 := by
  induction areas generalizing b with
  | nil => exact absurd ha List.not_mem_nil
  | cons x areas ih =>
    obtain ⟨hx, hrest⟩ := List.pairwise_cons.mp hapart
    rw [pageAfter_cons]
    rcases List.mem_cons.mp ha with rfl | ha'
    · rw [pageAfter_other, Block.write, if_pos ⟨Nat.le_add_right _ _, Nat.add_lt_add_left hj _⟩,
        Nat.add_sub_cancel_left]
      · intro y hy hin
        have hy' := hbottom y (List.mem_cons_of_mem a hy)
        have ha' := hbottom a List.mem_cons_self
        rcases hx y hy with hbefore | hafter
        · omega
        · omega
    · exact ih hrest (fun y hy => hbottom y (List.mem_cons_of_mem x hy)) ha'

/-- The bytes of user memory from an address on. -/
def Holds (m : Mem) (d va : Nat) (bs : List UInt8) : Prop := ∀ j < bs.length, m.byte d (va + j) = some (bs.getD j 0)

theorem Holds.append {va : Nat} {x y : List UInt8} (hx : Holds m d va x) (hy : Holds m d (va + x.length) y) :
    Holds m d va (x ++ y) := by
  intro j hj
  rw [List.length_append] at hj
  by_cases hlt : j < x.length
  · rw [hx j hlt, List.getD_append _ _ _ _ hlt]
  · have hlast := hy (j - x.length) (by omega)
    rw [show va + x.length + (j - x.length) = va + j by omega] at hlast
    rw [hlast, List.getD_append_right _ _ _ _ (by omega)]

theorem Built.holds {size : Nat} (h : Built bytes argv size d m) (hfits : Fits argv) (hspan : pagesOf size < userPages) :
    ∀ a ∈ stackAreas (pagesOf size * pgsize + pgsize) argv, Holds m d a.va a.bytes := by
  obtain ⟨pg, b, hpg, hstack⟩ := h.stack
  have hpage : StackPage pg (pagesOf size * pgsize) := by
    refine ⟨hpg, ?_⟩
    rw [← Nat.succ_mul]
    exact Nat.mul_le_mul_right pgsize hspan
  rw [stackPokes_eq hpage hfits] at hstack
  intro a ha j hj
  obtain ⟨hlo, hhi⟩ := stackAreas_inside hfits a ha
  have hbyte := hstack (a.va - pagesOf size * pgsize + j) (by omega)
  rw [show pagesOf size * pgsize + (a.va - pagesOf size * pgsize + j) = a.va + j by omega,
    pageAfter_area (stackAreas_apart hfits) (fun x hx => (stackAreas_inside hfits x hx).1) ha hj] at hbyte
  exact hbyte

/-! The strings and the pointers to them. -/

/-- The addresses of the strings, which are given from the last to the first. -/
def stringAddrs : List Str → Nat → List Nat
  | [], _ => []
  | s :: rest, sp => stringAddrs rest (sp - (s.length + 1)) ++ [sp - (s.length + 1)]

theorem stringAddrs_length (l : List Str) (sp : Nat) : (stringAddrs l sp).length = l.length := by
  induction l generalizing sp with
  | nil => rfl
  | cons s l ih => rw [stringAddrs, List.length_append, List.length_singleton, ih, List.length_cons]

theorem flatMap_wordBytes_length (l : List Nat) : (l.flatMap wordBytes).length = 4 * l.length := by
  induction l with
  | nil => rfl
  | cons a l ih =>
    rw [List.flatMap_cons, List.length_append, ih, wordBytes_length, List.length_cons]
    omega

theorem stringAreas_pointers (h : ∀ a ∈ stringAreas argp l sp, Holds m d a.va a.bytes) :
    Holds m d argp ((stringAddrs l sp).flatMap wordBytes) := by
  induction l generalizing sp with
  | nil => exact fun j hj => absurd hj (Nat.not_lt_zero j)
  | cons s l ih =>
    have hword := h _ (List.mem_cons_of_mem _ List.mem_cons_self)
    have hrest := ih fun a ha => h a (List.mem_cons_of_mem _ (List.mem_cons_of_mem _ ha))
    rw [stringAddrs, List.flatMap_append, List.flatMap_singleton]
    refine hrest.append ?_
    rw [flatMap_wordBytes_length, stringAddrs_length]
    exact hword

theorem stringAreas_strings (h : ∀ a ∈ stringAreas argp l sp, Holds m d a.va a.bytes) :
    List.Forall₂ (fun ptr s => Holds m d ptr (s ++ [0])) (stringAddrs l sp) l.reverse := by
  induction l generalizing sp with
  | nil => exact .nil
  | cons s l ih =>
    have hstring := h _ List.mem_cons_self
    have hrest := ih fun a ha => h a (List.mem_cons_of_mem _ (List.mem_cons_of_mem _ ha))
    rw [stringAddrs, List.reverse_cons]
    exact List.rel_append hrest (.cons hstring .nil)

/-- Ranges of addresses that do not overlap. -/
def Apart (a b : Nat × Nat) : Prop := a.1 + a.2 ≤ b.1 ∨ b.1 + b.2 ≤ a.1

/-- The ranges of the strings, each with its zero byte. -/
def stringRanges (ptrs : List Nat) (argv : List Str) : List (Nat × Nat) := ptrs.zip (argv.map (·.length + 1))

theorem stringRanges_snoc {ptrs : List Nat} (hlength : ptrs.length = l.length) (ptr : Nat) (s : Str) :
    stringRanges (ptrs ++ [ptr]) (l ++ [s]) = stringRanges ptrs l ++ [(ptr, s.length + 1)] := by
  unfold stringRanges
  rw [List.map_append, List.zip_append (by rw [hlength, List.length_map])]
  rfl

theorem stringRanges_inside (hsp : argBytes l ≤ sp) :
    ∀ a ∈ stringRanges (stringAddrs l sp) l.reverse, sp - argBytes l ≤ a.1 ∧ a.1 + a.2 ≤ sp := by
  induction l generalizing sp with
  | nil => exact fun a ha => absurd ha List.not_mem_nil
  | cons s l ih =>
    intro a ha
    rw [argBytes_cons] at hsp ⊢
    rw [stringAddrs, List.reverse_cons, stringRanges_snoc (by rw [stringAddrs_length, List.length_reverse]),
      List.mem_append, List.mem_singleton] at ha
    rcases ha with ha | rfl
    · have hin := ih (by omega) a ha
      omega
    · show _ ≤ sp - (s.length + 1) ∧ sp - (s.length + 1) + (s.length + 1) ≤ sp
      omega

theorem stringRanges_apart (hsp : argBytes l ≤ sp) :
    (stringRanges (stringAddrs l sp) l.reverse).Pairwise Apart := by
  induction l generalizing sp with
  | nil => exact .nil
  | cons s l ih =>
    rw [argBytes_cons] at hsp
    rw [stringAddrs, List.reverse_cons, stringRanges_snoc (by rw [stringAddrs_length, List.length_reverse]),
      List.pairwise_append]
    refine ⟨ih (by omega), List.pairwise_singleton _ _, fun a ha b hb => ?_⟩
    left
    rw [List.mem_singleton.mp hb]
    exact (stringRanges_inside (by omega) a ha).2

/-- What `main` finds on its stack. -/
structure Stacked (m : Mem) (d esp argp : Nat) (ptrs : List Nat) (argv : List Str) : Prop where
  count : Holds m d (esp + 4) (wordBytes argv.length)
  array : Holds m d (esp + 8) (wordBytes argp)
  pointers : Holds m d argp ((ptrs ++ [0]).flatMap wordBytes)
  strings : List.Forall₂ (fun ptr s => Holds m d ptr (s ++ [0])) ptrs argv
  apart : ((esp, 12) :: (argp, 4 * (argv.length + 1)) :: stringRanges ptrs argv).Pairwise Apart

theorem Built.stacked {size : Nat} (h : Built bytes argv size d m) (hfits : Fits argv) (hspan : pagesOf size < userPages) :
    Stacked m d (arrayAt (pagesOf size * pgsize + pgsize) argv - 12) (arrayAt (pagesOf size * pgsize + pgsize) argv)
      (stringAddrs argv.reverse (pagesOf size * pgsize + pgsize)) argv := by
  have hholds := h.holds hfits hspan
  have hbounds : pagesOf size * pgsize + 12 ≤ arrayAt (pagesOf size * pgsize + pgsize) argv ∧ _ := arrayAt_bounds hfits
  obtain ⟨hlo, hhi, hround⟩ := hbounds
  rw [stackAreas] at hholds
  generalize arrayAt (pagesOf size * pgsize + pgsize) argv = argp at *
  generalize pagesOf size * pgsize + pgsize = top at *
  have hstrings : ∀ a ∈ stringAreas argp argv.reverse top, Holds m d a.va a.bytes := fun a ha =>
    hholds a (List.mem_append_left _ (List.mem_cons_of_mem _ ha))
  have hframe : ∀ a ∈ [(⟨argp - 4, wordBytes argp⟩ : Area), ⟨argp - 8, wordBytes argv.length⟩,
      ⟨argp - 12, wordBytes 0xffffffff⟩], Holds m d a.va a.bytes := fun a ha => hholds a (List.mem_append_right _ ha)
  refine ⟨?_, ?_, ?_, ?_, ?_⟩
  · rw [show argp - 12 + 4 = argp - 8 by omega]
    exact hframe _ (List.mem_cons_of_mem _ List.mem_cons_self)
  · rw [show argp - 12 + 8 = argp - 4 by omega]
    exact hframe _ List.mem_cons_self
  · rw [List.flatMap_append, List.flatMap_singleton]
    refine (stringAreas_pointers hstrings).append ?_
    rw [flatMap_wordBytes_length, stringAddrs_length, List.length_reverse]
    exact hholds _ (List.mem_append_left _ List.mem_cons_self)
  · have hforall := stringAreas_strings hstrings
    rw [List.reverse_reverse] at hforall
    exact hforall
  · have hbytes : argBytes argv.reverse ≤ top := by
      rw [argBytes_reverse]
      omega
    have hinside := stringRanges_inside hbytes
    have hapart := stringRanges_apart hbytes
    rw [List.reverse_reverse] at hinside hapart
    rw [argBytes_reverse] at hinside
    rw [List.pairwise_cons, List.pairwise_cons]
    refine ⟨fun a ha => ?_, fun a ha => ?_, hapart⟩
    · left
      show argp - 12 + 12 ≤ a.1
      rcases List.mem_cons.mp ha with rfl | ha
      · show argp - 12 + 12 ≤ argp
        omega
      · have hlow := (hinside a ha).1
        omega
    · left
      show argp + 4 * (argv.length + 1) ≤ a.1
      have hlow := (hinside a ha).1
      omega

/-! Well-formed files. -/

/-- A segment in its proper place, whose bytes are in the file. -/
structure Loadable (bytes : List UInt8) (ph : Proghdr) : Prop where
  align : ph.va % pgsize = 0
  pos : 0 < ph.memsz
  filesz : ph.filesz ≤ ph.memsz
  top : ph.va + ph.memsz ≤ userTop - pgsize
  file : ph.offset + ph.filesz ≤ bytes.length

/-- A file all of whose loadable segments are in their proper places. -/
def WellFormed (bytes : List UInt8) (phs : List Proghdr) : Prop :=
  ∀ ph ∈ phs, ph.type = elfProgLoad → Loadable bytes ph

theorem le_pages (n : Nat) : n ≤ pagesOf n * pgsize := by
  simp only [pagesOf, pgsize]
  omega

theorem Loadable.top_eq {ph : Proghdr} (h : Loadable bytes ph) :
    ph.top = ph.va + ph.memsz ∧ ph.top + pgsize ≤ userTop ∧ pagesOf ph.top < userPages := by
  have htop := h.top
  have heq : ph.top = ph.va + ph.memsz := by
    simp only [Proghdr.top, userTop, pgsize, uintSize] at *
    omega
  refine ⟨heq, ?_⟩
  rw [heq]
  simp only [pagesOf, userPages, userTop, pgsize] at htop ⊢
  omega

theorem Loadable.safe {ph : Proghdr} {room sz : Nat} (h : Loadable bytes ph) : SegmentSafe room ph sz := by
  intro _ _
  obtain ⟨heq, -⟩ := h.top_eq
  have hpos := h.pos
  have hfilesz := h.filesz
  refine ⟨by omega, fun _ => ⟨h.align, .inr ?_⟩⟩
  calc ph.va + ph.filesz ≤ ph.top := by omega
    _ ≤ max ph.top sz := le_max_left _ _
    _ ≤ pagesOf (max ph.top sz) * pgsize := le_pages _

/-- The size that a loadable segment leads to. -/
theorem Loadable.size {ph : Proghdr} {room sz : Nat} (h : Loadable bytes ph) (hload : ph.type = elfProgLoad) :
    segmentSize bytes room ph sz = if pagesOf ph.top ≤ room then some (max ph.top sz) else none := by
  obtain ⟨-, htop, -⟩ := h.top_eq
  rw [segmentSize, if_neg (not_not.mpr hload), if_neg (not_lt.mpr h.filesz)]
  by_cases hroom : pagesOf ph.top ≤ room
  · rw [if_neg (not_not.mpr ⟨by omega, hroom⟩), if_pos (.inr h.file), if_pos hroom]
  · rw [if_pos fun hand => hroom hand.2, if_neg hroom]

section Loop

variable {room k off sz : Nat}

theorem headersFrom_succ {ph : Proghdr} (hhdr : headerAt bytes off = some ph) :
    headersFrom bytes (k + 1) off = ph :: headersFrom bytes k ((off + proghdrSize) % uintSize) := by
  rw [headersFrom, hhdr]
  rfl

theorem WellFormed.loadsSafe (h : WellFormed bytes (headersFrom bytes k off)) : LoadsSafe bytes room k off sz := by
  induction k generalizing off sz with
  | zero => trivial
  | succ k ih =>
    intro ph hhdr
    rw [headersFrom_succ hhdr] at h
    refine ⟨fun hload => (h ph List.mem_cons_self hload).safe hload, fun size _ => ih fun x hx => ?_⟩
    exact h x (List.mem_cons_of_mem ph hx)

/-- There is room for the stack above the program. -/
theorem WellFormed.loadsSize_le {size : Nat} (h : WellFormed bytes (headersFrom bytes k off))
    (hsize : loadsSize bytes room k off sz = some size) (hsz : sz + pgsize ≤ userTop) : size + pgsize ≤ userTop := by
  induction k generalizing off sz with
  | zero =>
    rw [← Option.some.inj hsize]
    exact hsz
  | succ k ih =>
    obtain ⟨ph, hhdr, hsize⟩ := Option.bind_eq_some_iff.mp hsize
    obtain ⟨sz', hseg, hsize⟩ := Option.bind_eq_some_iff.mp hsize
    rw [headersFrom_succ hhdr] at h
    refine ih (fun x hx => h x (List.mem_cons_of_mem ph hx)) hsize ?_
    by_cases hload : ph.type = elfProgLoad
    · have hloadable := h ph List.mem_cons_self hload
      have htop := hloadable.top_eq.2.1
      rw [hloadable.size hload] at hseg
      split_ifs at hseg with hroom
      rw [← Option.some.inj hseg]
      omega
    · rw [segmentSize, if_pos hload] at hseg
      rw [← Option.some.inj hseg]
      exact hsz

/-- With pages for all of user memory the program can be loaded. -/
theorem WellFormed.loadsSize_some (h : WellFormed bytes (headersFrom bytes k off)) (hroom : userPages ≤ room)
    (hlength : (headersFrom bytes k off).length = k) : ∃ size, loadsSize bytes room k off sz = some size := by
  induction k generalizing off sz with
  | zero => exact ⟨sz, rfl⟩
  | succ k ih =>
    cases hhdr : headerAt bytes off with
    | none =>
      rw [headersFrom, hhdr] at hlength
      cases hlength
    | some ph =>
      rw [headersFrom_succ hhdr] at h hlength
      have hrest : ∀ size, ∃ size', loadsSize bytes room k ((off + proghdrSize) % uintSize) size = some size' :=
        fun size => ih (fun x hx => h x (List.mem_cons_of_mem ph hx)) (Nat.succ.inj hlength)
      rw [loadsSize, hhdr, Option.bind_some]
      by_cases hload : ph.type = elfProgLoad
      · have hloadable := h ph List.mem_cons_self hload
        have hpages := hloadable.top_eq.2.2
        rw [hloadable.size hload, if_pos (by omega)]
        exact hrest _
      · rw [segmentSize, if_pos hload]
        exact hrest _

end Loop

/-! The image. -/

/-- The new memory: the segments, and above them the stack page with the arguments. -/
structure Image (bytes : List UInt8) (argv : List Str) (q : Process) (m : Mem) : Prop where
  page : pgsize ≤ q.vm.sz
  segments : ∀ va < q.vm.sz - pgsize, m.byte q.vm.pgdir va = some (imageByte bytes (headersOf bytes) va)
  stack : ∃ argp ptrs, Stacked m q.vm.pgdir q.esp argp ptrs argv

theorem sub32_frame {a : Nat} (hlo : 12 ≤ a) (hhi : a < uintSize) : sub32 (sub32 (sub32 a 4) 4) 4 = a - 12 := by
  simp only [sub32, uintSize] at *
  omega

theorem newProcess_esp (path : Str) (elf : Elfhdr) (d : Nat) (htop : bottom + pgsize ≤ userTop) (hfits : Fits argv) :
    (newProcess path argv elf d (bottom + pgsize)).esp = arrayAt (bottom + pgsize) argv - 12 := by
  have hpage : StackPage 0 bottom := ⟨by decide, htop⟩
  have hlt := page_lt hpage
  have hargp : argpOf (bottom + pgsize) argv = arrayAt (bottom + pgsize) argv := argpOf_eq hpage hfits
  have hbounds : bottom + 12 ≤ arrayAt (bottom + pgsize) argv ∧ _ := arrayAt_bounds hfits
  obtain ⟨hlo, hhi, -⟩ := hbounds
  show sub32 (sub32 (sub32 (argpOf (bottom + pgsize) argv) 4) 4) 4 = _
  rw [hargp]
  exact sub32_frame (by omega) (by omega)

theorem Built.image_of {size : Nat} {elf : Elfhdr} (h : Built bytes argv size d m) (hfits : Fits argv)
    (hspan : pagesOf size < userPages) :
    Image bytes argv (newProcess path argv elf d (pagesOf size * pgsize + pgsize)) m := by
  have htop : pagesOf size * pgsize + pgsize ≤ userTop := by
    rw [← Nat.succ_mul]
    exact Nat.mul_le_mul_right pgsize hspan
  have hstacked := h.stacked hfits hspan
  rw [← newProcess_esp path elf d htop hfits] at hstacked
  refine ⟨Nat.le_add_left _ _, fun va hva => h.image va ?_, _, _, hstacked⟩
  have hsz : va < pagesOf size * pgsize + pgsize - pgsize := hva
  rwa [Nat.add_sub_cancel] at hsz

theorem WellFormed.pages {free size : Nat} (h : WellFormed bytes (headersOf bytes))
    (hsize : imageSize bytes free = some size) : pagesOf size < userPages := by
  unfold imageSize at hsize
  split_ifs at hsize
  have hle := h.loadsSize_le hsize (by decide)
  simp only [pagesOf, userPages, userTop, pgsize] at hle ⊢
  omega

theorem WellFormed.fileSafe {free : Nat} (h : WellFormed bytes (headersOf bytes))
    (hpages : ∀ size, imageSize bytes free = some size → pagesOf size + 13 < free) : FileSafe bytes free :=
  ⟨h.loadsSafe, fun size hsize => ⟨h.pages hsize, hpages size hsize⟩⟩

attribute [local irreducible] exec

/-- A program whose segment is the header of its file, at address 0. -/
def headerFile : List UInt8 := elfHeader 1 ++ segmentHeader 0 52 60

end Xv6.Exec
