import Mathlib

/-! Blocks of addresses, and how many blocks of a list an address is in. -/

namespace LibBlocks

structure Block where
  addr : Nat
  len : Nat
  deriving DecidableEq

variable {a b : Block} {bs cs : List Block} {x : Nat}

/-- The addresses of a block. -/
def Block.Has (b : Block) (x : Nat) : Prop := b.addr ≤ x ∧ x < b.addr + b.len

instance (b : Block) (x : Nat) : Decidable (b.Has x) := inferInstanceAs (Decidable (_ ∧ _))

/-- One block ends before the other begins. -/
def Apart (a b : Block) : Prop := a.addr + a.len ≤ b.addr ∨ b.addr + b.len ≤ a.addr

/-- How many of the blocks an address is in. -/
def cover (bs : List Block) (x : Nat) : Nat := (bs.map fun b => if b.Has x then 1 else 0).sum

theorem cover_nil (x : Nat) : cover [] x = 0 := rfl

theorem cover_cons (b : Block) (bs : List Block) (x : Nat) :
    cover (b :: bs) x = (if b.Has x then 1 else 0) + cover bs x := by
  rw [cover, List.map_cons, List.sum_cons]
  rfl

theorem cover_append (bs cs : List Block) (x : Nat) : cover (bs ++ cs) x = cover bs x + cover cs x := by
  rw [cover, List.map_append, List.sum_append]
  rfl

theorem cover_perm (h : bs.Perm cs) (x : Nat) : cover bs x = cover cs x :=
  (h.map _).sum_eq

theorem cover_pos : 0 < cover bs x ↔ ∃ b ∈ bs, b.Has x := by
  induction bs with
  | nil => simp [cover_nil]
  | cons b bs ih =>
    rw [cover_cons, Nat.add_pos_iff_pos_or_pos, ih]
    by_cases hb : b.Has x
    · simp [hb]
    · simp [hb]

theorem cover_eq_zero : cover bs x = 0 ↔ ∀ b ∈ bs, ¬ b.Has x := by
  have h : 0 < cover bs x ↔ ∃ b ∈ bs, b.Has x := cover_pos
  constructor
  · intro h0 b hb hx
    exact absurd (h.mpr ⟨b, hb, hx⟩) (by omega)
  · intro hnone
    by_contra hpos
    obtain ⟨b, hb, hx⟩ := h.mp (by omega)
    exact hnone b hb hx

theorem cover_cut (a m n x : Nat) : cover [⟨a, m + n⟩] x = cover [⟨a, m⟩] x + cover [⟨a + m, n⟩] x := by
  rw [cover_cons, cover_cons, cover_cons, cover_nil]
  split_ifs <;> simp only [Block.Has] at * <;> omega

theorem apart_of_not_has (ha : 0 < a.len) (hb : 0 < b.len) (h : ∀ x, ¬ (a.Has x ∧ b.Has x)) :
    Apart a b := by
  by_contra hnot
  rw [Apart, not_or] at hnot
  rcases Nat.le_total a.addr b.addr with hle | hle
  · exact h b.addr ⟨⟨hle, by omega⟩, le_rfl, by omega⟩
  · exact h a.addr ⟨⟨le_rfl, by omega⟩, hle, by omega⟩

theorem apart_of_cover (h : ∀ x, cover bs x + cover cs x ≤ 1) (hb : b ∈ bs) (ha : a ∈ cs)
    (hlen : 0 < b.len) (hlen' : 0 < a.len) : Apart b a := by
  apply apart_of_not_has hlen hlen'
  rintro x ⟨hbx, hax⟩
  have h1 := cover_pos.mpr ⟨b, hb, hbx⟩
  have h2 := cover_pos.mpr ⟨a, ha, hax⟩
  have := h x
  omega

theorem pairwise_apart (h : ∀ x, cover bs x ≤ 1) (hlen : ∀ b ∈ bs, 0 < b.len) : bs.Pairwise Apart := by
  induction bs with
  | nil => exact .nil
  | cons b bs ih =>
    have hle : ∀ x, cover [b] x + cover bs x ≤ 1 := fun x => by
      have := h x
      rw [cover_cons] at this
      rw [cover_cons, cover_nil]
      omega
    refine .cons (fun a ha => apart_of_cover hle List.mem_cons_self ha (hlen b List.mem_cons_self)
      (hlen a (List.mem_cons_of_mem _ ha))) (ih (fun x => ?_) fun a ha =>
        hlen a (List.mem_cons_of_mem _ ha))
    have := hle x
    omega

end LibBlocks
