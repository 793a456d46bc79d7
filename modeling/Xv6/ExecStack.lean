import Xv6.Exec

/-! The argument stack that `exec` builds. Its stores are in the stack page just when the strings, the array of
pointers and the frame of `main` fit in a page; nothing in `exec` or `sys_exec` checks that they do. -/

namespace Xv6.Exec

open LibWord Fs Vm

variable {u : UserMem} {mem spbottom sp argp sz k i : Nat} {argv l : List Str} {s : Str}

/-! What `sys_exec` passes on. -/

theorem fetchFrom_length (h : fetchFrom u k i = some s) : s.length < k := by
  induction k generalizing i s with
  | zero => cases h
  | succ k ih =>
    rw [fetchFrom] at h
    split_ifs at h with hbyte
    · cases h
      exact Nat.succ_pos k
    · obtain ⟨t, ht, rfl⟩ := Option.map_eq_some_iff.mp h
      exact Nat.succ_lt_succ (ih ht)

theorem fetchstr_length (h : fetchstr u i = some s) : s.length < userTop := by
  unfold fetchstr at h
  split_ifs at h with hsz
  have hlt := fetchFrom_length h
  have hle := u.sz_le
  omega

theorem fetchArgv_length {uargv : Nat} (h : fetchArgv u uargv k i = some argv) :
    argv.length < k ∧ ∀ s ∈ argv, s.length < userTop := by
  induction k generalizing i argv with
  | zero => cases h
  | succ k ih =>
    obtain ⟨uarg, -, h⟩ := Option.bind_eq_some_iff.mp h
    split_ifs at h with hzero
    · cases h
      exact ⟨Nat.succ_pos k, fun s hs => absurd hs List.not_mem_nil⟩
    · obtain ⟨s, hs, h⟩ := Option.bind_eq_some_iff.mp h
      obtain ⟨rest, hrest, rfl⟩ := Option.map_eq_some_iff.mp h
      obtain ⟨hlength, hall⟩ := ih hrest
      refine ⟨Nat.succ_lt_succ hlength, fun t ht => ?_⟩
      rcases List.mem_cons.mp ht with rfl | ht
      · exact fetchstr_length hs
      · exact hall t ht

theorem argBytes_cons (s : Str) (l : List Str) : argBytes (s :: l) = s.length + 1 + argBytes l := rfl

theorem argBytes_le (hall : ∀ s ∈ l, s.length < userTop) : argBytes l ≤ l.length * userTop := by
  induction l with
  | nil => exact Nat.zero_le _
  | cons s l ih =>
    have hs := hall s List.mem_cons_self
    have hl := ih fun t ht => hall t (List.mem_cons_of_mem s ht)
    rw [argBytes_cons, List.length_cons, Nat.succ_mul]
    omega

theorem argBytes_reverse (l : List Str) : argBytes l.reverse = argBytes l := by
  rw [argBytes, List.map_reverse, List.sum_reverse]
  rfl

theorem arglen_lt {uargv : Nat} (h : fetchArgv u uargv 20 0 = some argv) :
    arglen argv + 4 * (argv.length + 1) + 12 < 2 ^ 24 := by
  obtain ⟨hlength, hall⟩ := fetchArgv_length h
  have hbytes := argBytes_le hall
  have hle : argv.length * userTop ≤ 19 * userTop := Nat.mul_le_mul_right _ (by omega)
  simp only [arglen, userTop] at *
  omega

/-! The stores. -/

/-- A store that stays in the page. -/
def Inside (mem : Nat) (s : Poke) : Prop :=
  mem * pgsize ≤ s.addr ∧ s.addr + s.bytes.length ≤ mem * pgsize + pgsize

theorem inside_at {addr off : Nat} {bytes : List UInt8} (haddr : addr = mem * pgsize + off)
    (hoff : off + bytes.length ≤ pgsize) : Inside mem ⟨addr, bytes⟩ := by
  refine ⟨?_, ?_⟩
  · show mem * pgsize ≤ addr
    omega
  · show addr + bytes.length ≤ mem * pgsize + pgsize
    omega

/-- The strings, the pointers and the frame fit in a page. -/
def Fits (argv : List Str) : Prop := arglen argv + 4 * (argv.length + 1) + 12 ≤ pgsize

instance (argv : List Str) : Decidable (Fits argv) := inferInstanceAs (Decidable (_ ≤ _))

/-- The addresses of the stack page and the page itself are ordinary ones. -/
structure StackPage (mem spbottom : Nat) : Prop where
  mem : mem < 4096
  top : spbottom + pgsize ≤ userTop

theorem kaddr_eq {va : Nat} (h : StackPage mem spbottom) (hlo : spbottom ≤ va) (hhi : va ≤ spbottom + pgsize) :
    kaddr mem spbottom va = mem * pgsize + (va - spbottom) := by
  obtain ⟨hmem, htop⟩ := h
  simp only [kaddr, sub32, pgsize, userTop, uintSize] at *
  omega

theorem sub32_eq {a b : Nat} (hb : b ≤ a) (ha : a < uintSize) : sub32 a b = a - b := by
  simp only [sub32, uintSize] at *
  omega

theorem page_lt (h : StackPage mem spbottom) : spbottom + pgsize < uintSize := by
  obtain ⟨-, htop⟩ := h
  simp only [pgsize, userTop, uintSize] at *
  omega

theorem argpOf_eq (h : StackPage mem spbottom) (hfits : Fits argv) :
    argpOf (spbottom + pgsize) argv = spbottom + pgsize - arglen argv - 4 * (argv.length + 1) := by
  have hlt := page_lt h
  unfold Fits at hfits
  rw [argpOf, sub32_eq (by omega) hlt, sub32_eq (by omega) (by omega)]

theorem pointer_addr (h : StackPage mem spbottom) (hargp : spbottom ≤ argp)
    (hi : argp + 4 * i ≤ spbottom + pgsize) :
    (kaddr mem spbottom argp + 4 * i) % uintSize = mem * pgsize + (argp - spbottom + 4 * i) := by
  rw [kaddr_eq h hargp (by omega), Nat.add_assoc, Nat.mod_eq_of_lt]
  have hmem := h.mem
  simp only [pgsize, uintSize] at *
  omega

/-- The stores of the loop over the strings. -/
theorem stringPokes_inside (h : StackPage mem spbottom) (hargp : spbottom ≤ argp)
    (harray : argp + 4 * l.length ≤ spbottom + pgsize) (hsp : sp ≤ spbottom + pgsize)
    (hbytes : spbottom + argBytes l ≤ sp) : ∀ x ∈ stringPokes mem spbottom argp l sp, Inside mem x := by
  have hlt := page_lt h
  induction l generalizing sp with
  | nil => exact fun x hx => absurd hx List.not_mem_nil
  | cons s l ih =>
    rw [argBytes_cons] at hbytes
    rw [List.length_cons] at harray
    have hsub : sub32 sp (s.length + 1) = sp - (s.length + 1) := sub32_eq (by omega) (by omega)
    have haddr : kaddr mem spbottom (sp - (s.length + 1)) = mem * pgsize + (sp - (s.length + 1) - spbottom) :=
      kaddr_eq h (by omega) (by omega)
    intro x hx
    rw [stringPokes, hsub] at hx
    rcases List.mem_cons.mp hx with rfl | hx
    · refine inside_at haddr ?_
      rw [List.length_append, List.length_singleton]
      omega
    · rcases List.mem_cons.mp hx with rfl | hx
      · exact inside_at (pointer_addr h hargp (by omega)) (show _ + 4 ≤ pgsize by omega)
      · exact ih (by omega) (by omega) (by omega) x hx

theorem stackPokes_inside (h : StackPage mem spbottom) (hfits : Fits argv) :
    ∀ x ∈ stackPokes mem spbottom (spbottom + pgsize) argv, Inside mem x := by
  have hlt := page_lt h
  have hargp := argpOf_eq h hfits
  have hround : argBytes argv ≤ arglen argv := by
    simp only [arglen]
    omega
  unfold Fits at hfits
  have hframe : ∀ va bytes, spbottom ≤ va → va + 4 ≤ spbottom + pgsize → List.length bytes = 4 →
      Inside mem ⟨kaddr mem spbottom va, bytes⟩ := by
    intro va bytes hlo hhi hbytes
    exact inside_at (kaddr_eq h hlo (by omega)) (by omega)
  have h4 : sub32 (argpOf (spbottom + pgsize) argv) 4 = argpOf (spbottom + pgsize) argv - 4 :=
    sub32_eq (by omega) (by omega)
  have h8 : sub32 (argpOf (spbottom + pgsize) argv - 4) 4 = argpOf (spbottom + pgsize) argv - 8 :=
    sub32_eq (by omega) (by omega)
  have h12 : sub32 (argpOf (spbottom + pgsize) argv - 8) 4 = argpOf (spbottom + pgsize) argv - 12 :=
    sub32_eq (by omega) (by omega)
  intro x hx
  rw [stackPokes, h4, h8, h12, List.cons_append] at hx
  rcases List.mem_cons.mp hx with rfl | hx
  · exact inside_at (pointer_addr h (by omega) (by omega)) (show _ + 4 ≤ pgsize by omega)
  · rcases List.mem_append.mp hx with hx | hx
    · refine stringPokes_inside h (by omega) ?_ le_rfl ?_ x hx
      · rw [List.length_reverse]
        omega
      · rw [argBytes_reverse]
        omega
    · simp only [List.mem_cons, List.not_mem_nil, or_false] at hx
      rcases hx with rfl | rfl | rfl
      · exact hframe _ _ (by omega) (by omega) rfl
      · exact hframe _ _ (by omega) (by omega) rfl
      · exact hframe _ _ (by omega) (by omega) rfl

/-- The last store, of the return address, is below the page when the arguments do not fit. -/
theorem returnPc_outside (h : StackPage mem spbottom) (hmax : arglen argv + 4 * (argv.length + 1) + 12 < 2 ^ 24)
    (hfits : ¬ Fits argv) :
    ¬ Inside mem ⟨kaddr mem spbottom (sub32 (sub32 (sub32 (argpOf (spbottom + pgsize) argv) 4) 4) 4),
      wordBytes 0xffffffff⟩ := by
  obtain ⟨hmem, htop⟩ := h
  unfold Fits at hfits
  generalize harg : arglen argv = a at hmax hfits
  generalize hlen : 4 * (argv.length + 1) = b at hmax hfits
  intro hinside
  have hlo : mem * pgsize ≤ kaddr mem spbottom (sub32 (sub32 (sub32 (argpOf (spbottom + pgsize) argv) 4) 4) 4) :=
    hinside.1
  have hhi : kaddr mem spbottom (sub32 (sub32 (sub32 (argpOf (spbottom + pgsize) argv) 4) 4) 4) + 4 ≤
    mem * pgsize + pgsize := hinside.2
  rw [argpOf, harg, hlen] at hlo hhi
  simp only [kaddr, sub32, pgsize, userTop, uintSize] at *
  omega

/-- Every store that builds the stack is in the stack page just when the arguments fit. -/
theorem stack_confined_iff {uargv : Nat} (hargv : fetchArgv u uargv 20 0 = some argv)
    (h : StackPage mem spbottom) :
    (∀ x ∈ stackPokes mem spbottom (spbottom + pgsize) argv, Inside mem x) ↔ Fits argv := by
  refine ⟨fun hall => ?_, stackPokes_inside h⟩
  by_contra hfits
  refine returnPc_outside h (arglen_lt hargv) hfits (hall _ ?_)
  rw [stackPokes]
  exact List.mem_append_right _ (List.mem_cons_of_mem _ (List.mem_cons_of_mem _ List.mem_cons_self))

/-- A process that calls `exec` without arguments. -/
def bareCaller : UserMem := ⟨4, by decide, 0, fun _ => 0⟩

theorem bareCaller_confined : fetchArgv bareCaller 0 20 0 = some [] ∧
    ∀ x ∈ stackPokes 256 0 (0 + pgsize) [], Inside 256 x := by
  have hargv : fetchArgv bareCaller 0 20 0 = some [] := rfl
  exact ⟨hargv, (stack_confined_iff hargv ⟨by decide, by decide⟩).mpr (by decide)⟩

theorem fetchFrom_replicate {n : Nat} (hbytes : ∀ j < n, u.byte (i + j) = 1) (hend : u.byte (i + n) = 0)
    (hk : n < k) : fetchFrom u k i = some (List.replicate n 1) := by
  induction n generalizing k i with
  | zero =>
    obtain ⟨k, rfl⟩ := Nat.exists_eq_succ_of_ne_zero (Nat.ne_of_gt hk)
    rw [Nat.add_zero] at hend
    rw [fetchFrom, if_pos hend]
    rfl
  | succ n ih =>
    obtain ⟨k, rfl⟩ := Nat.exists_eq_succ_of_ne_zero (Nat.ne_of_gt ((Nat.succ_pos n).trans hk))
    have hhead := hbytes 0 (Nat.succ_pos n)
    have hrest : fetchFrom u k (i + 1) = some (List.replicate n 1) := by
      refine ih (fun j hj => ?_) ?_ (Nat.lt_of_succ_lt_succ hk)
      · rw [Nat.add_assoc, Nat.add_comm 1 j]
        exact hbytes (j + 1) (Nat.succ_lt_succ hj)
      · rw [Nat.add_assoc, Nat.add_comm 1 n]
        exact hend
    rw [Nat.add_zero] at hhead
    rw [fetchFrom, if_neg (by rw [hhead]; decide), hrest, hhead]
    rfl

/-- A process that calls `exec` with one argument of 4090 bytes. -/
def longCaller : UserMem where
  sz := 8192
  sz_le := by decide
  esp := 0
  byte a := if a = 4 then 100 else if a = 8 then 12 else if a = 12 then 104 else if a = 100 then 97
    else if 104 ≤ a ∧ a < 4194 then 1 else 0

theorem longCaller_outside : execArgs longCaller = some ([97], [List.replicate 4090 1]) ∧
    ∃ x ∈ stackPokes 256 0 (0 + pgsize) [List.replicate 4090 1], ¬ Inside 256 x := by
  have hstring : fetchstr longCaller 104 = some (List.replicate 4090 1) := by
    rw [fetchstr, if_neg (by decide)]
    refine fetchFrom_replicate (fun j hj => ?_) (by decide) (by decide)
    show (if _ then _ else _ : UInt8) = 1
    rw [if_neg (by omega), if_neg (by omega), if_neg (by omega), if_neg (by omega), if_pos (by omega)]
  have hargv : fetchArgv longCaller 12 20 0 = some [List.replicate 4090 1] := by
    rw [fetchArgv, show fetchint longCaller ((12 + 4 * 0) % uintSize) = some 104 from rfl, Option.bind_some,
      if_neg (by decide), hstring]
    rfl
  have hbig : ¬ Fits [List.replicate 4090 (1 : UInt8)] := by
    simp only [Fits, arglen, argBytes, List.map_cons, List.map_nil, List.sum_cons, List.sum_nil,
      List.length_replicate, List.length_cons, List.length_nil, pgsize]
    omega
  have hpage : StackPage 256 0 := ⟨by decide, by decide⟩
  refine ⟨?_, _, ?_, returnPc_outside hpage (arglen_lt hargv) hbig⟩
  · rw [execArgs, show argstr longCaller 0 = some [97] from rfl, Option.bind_some,
      show argint longCaller 1 = some 12 from rfl, Option.bind_some, hargv]
    rfl
  · rw [stackPokes]
    exact List.mem_append_right _ (List.mem_cons_of_mem _ (List.mem_cons_of_mem _ List.mem_cons_self))

end Xv6.Exec
