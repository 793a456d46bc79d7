import Xv6.KernelStacks
import Xv6.Slices

/-! The upper bound on a slice, on one cpu. A process that finds the counter of `trap` below its quantum
when it is dispatched, and does not call `nice`, is made to yield when it has been charged its quantum at
the latest. Under RR the counter is always below the quantum; under RR2Q and FAIR2Q a process of low
priority that blocks may leave it beyond that of a process of high priority, which then runs on. -/

namespace Xv6.Kernel

open LibWord

/-- The condition on a step: under RR2Q and FAIR2Q a dispatch finds the counter below the quantum of the
process. -/
def InQuantum {ncpu : Nat} (cfg : Config) (s : State ncpu) (a : Act ncpu) : Prop :=
  cfg.policy ≠ .rr → ∀ q, dispatches cfg s a = some q →
    0 ≤ s.data.clockticks ∧ s.data.clockticks < quantumOf cfg.policy (s.data.proc q)

section Steps

variable {ncpu : Nat} {cfg : Config} {s t : State ncpu} {a : Act ncpu}

/-- A priority is 0 or 1: `nice` turns one into the other. -/
def Binary (d : Data) : Prop := ∀ p, (d.proc p).priority = 0 ∨ (d.proc p).priority = 1

theorem Binary.step (h : Binary s.data) (hstep : step cfg s a = some t) : Binary t.data := by
  intro p
  have hp := h p
  cases dataStep hstep with
  | kept _ hdata =>
    obtain ⟨stack, hdata⟩ := hdata
    rw [hdata]
    exact hp
  | dispatch q c choice r k _ _ _ hdata =>
    rw [hdata]
    by_cases hpq : p = q
    · subst hpq
      simpa [Data.setProc] using hp
    · simpa [Data.setProc, hpq] using hp
  | op c choice o k stack _ _ _ hdata =>
    have hpriority := account_priority (write_account cfg.policy (s.cpu c).proc choice s.data o p)
    rw [hdata]
    change ((write cfg.policy (s.cpu c).proc choice s.data o).proc p).priority = 0 ∨
      ((write cfg.policy (s.cpu c).proc choice s.data o).proc p).priority = 1
    rw [hpriority]
    cases o with
    | stampCtime | reap | stampEtime | trapTail =>
      simp only [Op.account]
      split
      · first | exact Or.inl rfl | exact hp
      · exact hp
    | nice =>
      simp only [Op.account, account]
      split
      · dsimp only
        omega
      · exact hp
    | _ => exact hp

/-- Under RR the counter is always below the quantum. -/
theorem rr_clockticks (hrr : cfg.policy = .rr) (h : 0 ≤ s.data.clockticks ∧ s.data.clockticks < quanta)
    (hstep : step cfg s a = some t) : 0 ≤ t.data.clockticks ∧ t.data.clockticks < quanta := by
  have hquanta : quanta = 5 := rfl
  rw [clockticks_step hstep]
  split
  · decide
  · rename_i hforces
    split
    · rename_i hcharges
      have hincr := incr32_of_lt h.1 (by omega)
      obtain ⟨p, hp⟩ := Option.isSome_iff_exists.mp hcharges
      obtain ⟨c, choice, user, k, rfl, hstack, hproc, -⟩ := charges_op hp
      have hnot : incr32 s.data.clockticks ≠ quanta := by
        intro heq
        refine hforces ?_
        simp [forces, hstack, hproc, hcharges, Quantum, hrr, heq]
      omega
    · exact h

end Steps

section Solo

variable {cfg : Config} {s t : State 1} {a : Act 1}

/-- Only `nice` changes the priority of the process that executes. -/
theorem priority_step {guard : State 1 → Act 1 → Prop} (hs : Reaches cfg guard s)
    (hstep : step cfg s a = some t) {p : Slot} (hexec : Executing s 0 p) (hnice : nices s a = false) :
    (t.data.proc p).priority = (s.data.proc p).priority := by
  have hinv := hs.solo.inv
  obtain ⟨x, hx⟩ := hinv.cpu 0
  have hstands := hx.stands p hexec
  cases dataStep hstep with
  | kept _ hdata =>
    obtain ⟨stack, hdata⟩ := hdata
    rw [hdata]
  | dispatch q c choice r k _ _ _ hdata =>
    rw [hdata]
    by_cases hpq : p = q
    · subst hpq
      simp [Data.setProc]
    · simp [Data.setProc, hpq]
  | op c choice o k stack ha hstack _ hdata =>
    obtain rfl : c = 0 := Subsingleton.elim _ _
    subst ha
    have hpriority := account_priority (write_account cfg.policy (s.cpu 0).proc choice s.data o p)
    rw [hdata]
    refine hpriority.trans ?_
    cases o with
    | stampCtime np =>
      have hembryo := stamped_embryo hs hstack
      have hne : p ≠ np := by
        rintro rfl
        exact hstands.not_embryo hembryo
      simp [Op.account, account, hne]
    | reap np two =>
      obtain ⟨hfits, -⟩ := hx.fits hstack (by simp) (by simp)
      simp only [Instr.Fits, Op.Fits] at hfits
      subst hfits
      have hzombie := hx.known.1
      have hne : p ≠ np := by
        rintro rfl
        simp [Stands, hzombie] at hstands
      simp [Op.account, account, hne]
    | nice => simp [nices, hstack] at hnice
    | stampEtime | trapTail =>
      simp only [Op.account]
      split <;> rfl
    | _ => rfl

/-- The process is in the call of `yield` that `trap` makes, or has panicked in `acquire`. -/
def Yields (k : Code) : Prop :=
  ∃ rest, k = yieldCpu ++ rest ∨ k = .spin .ptable :: .op .setRunnable :: .sched :: rest ∨
    k = .op .setRunnable :: .sched :: rest ∨ k = .sched :: rest ∨ k = .panic :: rest

/-- Where a process stands in its slice: the counter has not come to the end of the quantum; or it has,
and the second test of `trap` comes next; or the process is made to yield. -/
inductive Within (cfg : Config) (s : State 1) (g : Slice) (p : Slot) : Prop
  | runs : 0 ≤ s.data.clockticks → s.data.clockticks < quantumOf cfg.policy (s.data.proc p) →
      g.ticks ≤ s.data.clockticks → Within cfg s g p
  | tests (k : Code) : s.stack 0 = .op .trapLow :: k → (s.cpu 0).intr = false →
      LowQuantum (s.data.proc p) s.data.clockticks →
      g.ticks ≤ quantumOf cfg.policy (s.data.proc p) → Within cfg s g p
  | yields : Yields (s.stack 0) → (s.cpu 0).intr = false →
      g.ticks ≤ quantumOf cfg.policy (s.data.proc p) → Within cfg s g p

theorem Within.bound {g : Slice} {p : Slot} (h : Within cfg s g p) :
    g.ticks ≤ quantumOf cfg.policy (s.data.proc p) := by
  cases h with
  | runs _ hlt hle => omega
  | tests _ _ _ _ hle => exact hle
  | yields _ _ hle => exact hle

/-- With interrupts off and code left on the stack, the cpu executes its next instruction. -/
theorem exec_of_intr_off (hstep : step cfg s a = some t) (hintr : (s.cpu 0).intr = false) {i : Instr}
    {k : Code} (hstack : s.stack 0 = i :: k) :
    ∃ choice, a = .exec 0 choice ∧ execInstr cfg s 0 choice k i = some t := by
  have hbusy : ∀ c, ¬s.InUser c := by
    intro c hu
    obtain rfl : c = 0 := Subsingleton.elim _ _
    cases hstack.symm.trans hu.2
  cases a with
  | exec c choice =>
    obtain rfl : c = 0 := Subsingleton.elim _ _
    exact ⟨choice, rfl, by simpa [step, exec, hstack] using hstep⟩
  | syscall c call | fault c => simp [step, hbusy c] at hstep
  | timer c | device c n =>
    obtain rfl : c = 0 := Subsingleton.elim _ _
    simp [step, hintr] at hstep

/-- A process that is made to yield leaves the cpu without another tick. -/
theorem Yields.step (h : Yields (s.stack 0)) (hinv : Inv s) (hintr : (s.cpu 0).intr = false)
    (hstep : Kernel.step cfg s a = some t) {p : Slot} (hexec : Executing t 0 p) :
    Yields (t.stack 0) ∧ (t.cpu 0).intr = false ∧ charges s a = none ∧ nices s a = false := by
  have hshape := hinv.shape 0
  obtain ⟨rest, hstack | hstack | hstack | hstack | hstack⟩ := h
  · obtain ⟨choice, rfl, ht⟩ := exec_of_intr_off hstep hintr hstack
    refine ⟨?_, ?_, by simp [charges, hstack, yieldCpu], by simp [nices, hstack, yieldCpu]⟩
    · rw [← Option.some.inj ht, setCpu_stack stays_pushcli, setStack_stack hshape]
      split
      · exact ⟨[], by simp⟩
      · exact ⟨_, Or.inr (Or.inl rfl)⟩
    · rw [← Option.some.inj ht, setCpu_cpu]
      rfl
  · obtain ⟨choice, rfl, ht⟩ := exec_of_intr_off hstep hintr hstack
    refine ⟨?_, ?_, by simp [charges, hstack], by simp [nices, hstack]⟩ <;>
      simp only [execInstr] at ht <;> split at ht
    · have hset := setStack_stack (s := s.setLock .ptable (some 0)) (k := .op .setRunnable :: .sched :: rest)
        hshape
      rw [← Option.some.inj ht, hset]
      exact ⟨rest, by simp⟩
    · cases ht
    · rw [← Option.some.inj ht, setStack_intr]
      exact hintr
    · cases ht
  · obtain ⟨choice, rfl, -⟩ := exec_of_intr_off hstep hintr hstack
    obtain ⟨ht, hintr'⟩ := op_step hinv hstack hstep
    refine ⟨?_, hintr'.trans hintr, by simp [charges, hstack], by simp [nices, hstack]⟩
    rw [ht]
    exact ⟨rest, by simp [next, Next.on]⟩
  · obtain ⟨choice, rfl, ht⟩ := exec_of_intr_off hstep hintr hstack
    obtain ⟨x, hx⟩ := hinv.cpu 0
    obtain ⟨-, -, -, q, -, hsched⟩ := sched_eq hinv hx hstack
    rw [← Option.some.inj ht, hsched] at hexec
    simp [Executing, State.leave] at hexec
  · obtain ⟨choice, rfl, ht⟩ := exec_of_intr_off hstep hintr hstack
    have hoff : Stays fun u : Cpu => { u with intr := false } :=
      ⟨fun _ => rfl, fun _ => rfl, fun _ => rfl⟩
    rw [← Option.some.inj ht, setCpu_stack hoff, setStack_stack hshape, setCpu_cpu]
    exact ⟨⟨[], by simp⟩, rfl, by simp [charges, hstack], by simp [nices, hstack]⟩

/-- Where `trap` makes the process yield, interrupts are off. -/
theorem forces_yields {guard : State 1 → Act 1 → Prop} (hs : Reaches cfg guard s) {p : Slot}
    (hforce : forces cfg s a = some p) (hstep : step cfg s a = some t) :
    Yields (t.stack 0) ∧ (t.cpu 0).intr = false := by
  have hinv := hs.solo.inv
  rcases forces_op hforce with ⟨hcharges, hquantum⟩ | ⟨c, choice, k, rfl, hstack, hproc, hlow⟩
  · obtain ⟨c, choice, user, k, rfl, hstack, hproc, hkilled, hrunning⟩ := charges_op hcharges
    obtain rfl : c = 0 := Subsingleton.elim _ _
    obtain ⟨ht, hintr⟩ := op_step hinv hstack hstep
    refine ⟨?_, hintr.trans (intr_off hs hstack fun _ h => h.1)⟩
    rw [ht]
    refine ⟨(if cfg.policy = .rr then [] else [.op .trapLow]) ++ .op (.trapKilled user) :: k, Or.inl ?_⟩
    simp [next, hproc, trapNext, hkilled, hrunning, Charged, hquantum, Next.on]
  · obtain rfl : c = 0 := Subsingleton.elim _ _
    obtain ⟨ht, hintr⟩ := op_step hinv hstack hstep
    refine ⟨?_, hintr.trans (intr_off hs hstack fun _ h => h.1)⟩
    rw [ht]
    exact ⟨k, Or.inl (by simp [next, hproc, hlow, Next.on])⟩

/-- Under RR2Q and FAIR2Q the second test follows a tick after which the first does not make the
process yield. -/
theorem charges_tests {guard : State 1 → Act 1 → Prop} (hs : Reaches cfg guard s) {p : Slot}
    (hcharges : charges s a = some p) (hforce : forces cfg s a = none) (hpolicy : cfg.policy ≠ .rr)
    (hstep : step cfg s a = some t) :
    ∃ k, t.stack 0 = .op .trapLow :: k ∧ (t.cpu 0).intr = false := by
  obtain ⟨c, choice, user, k, rfl, hstack, hproc, hkilled, hrunning⟩ := charges_op hcharges
  obtain rfl : c = 0 := Subsingleton.elim _ _
  obtain ⟨ht, hintr⟩ := op_step hs.solo.inv hstack hstep
  have hquantum : ¬Quantum cfg.policy (s.data.proc p) (incr32 s.data.clockticks) := by
    intro hquantum
    simp [forces, hstack, hproc, hcharges, hquantum] at hforce
  refine ⟨.op (.trapKilled user) :: k, ?_, hintr.trans (intr_off hs hstack fun _ h => h.1)⟩
  rw [ht]
  simp [next, hproc, trapNext, hkilled, hrunning, Charged, hquantum, hpolicy, Next.on]

theorem quantumOf_priority {policy : Policy} {p q : Proc} (h : p.priority = q.priority) :
    quantumOf policy p = quantumOf policy q := by
  cases policy <;> simp [quantumOf, h]

/-- A process that starts its slice below its quantum. -/
theorem Within.dispatched {q : Slot} (hd : dispatches cfg s a = some q) (hstep : step cfg s a = some t)
    (hfresh : 0 ≤ s.data.clockticks ∧ s.data.clockticks < quantumOf cfg.policy (s.data.proc q)) :
    Within cfg t {} q := by
  obtain ⟨hcharges, hforces⟩ := dispatches_quiet (Option.isSome_iff_exists.mpr ⟨q, hd⟩)
  have hcount : t.data.clockticks = s.data.clockticks := by
    simpa [hcharges, hforces] using clockticks_step hstep
  have hquantum : quantumOf cfg.policy (t.data.proc q) = quantumOf cfg.policy (s.data.proc q) := by
    obtain ⟨c, choice, p, k, l, next, rfl, hstack, rfl⟩ := dispatch_eq hd hstep
    exact quantumOf_priority (by simp [State.dispatch, Data.setProc])
  exact .runs (by omega) (by omega) (by simpa [hcount] using hfresh.1)

/-- A tick that ends the quantum makes the process yield at once, unless its priority is low. -/
theorem last_tick {p : Slot} (hbinary : Binary s.data) (hcharges : charges s a = some p)
    (hforces : forces cfg s a = none)
    (hlast : incr32 s.data.clockticks = quantumOf cfg.policy (s.data.proc p)) :
    cfg.policy ≠ .rr ∧ LowQuantum (s.data.proc p) (incr32 s.data.clockticks) := by
  obtain ⟨c, choice, user, k, rfl, hstack, hproc, -⟩ := charges_op hcharges
  have hquantum : ¬Quantum cfg.policy (s.data.proc p) (incr32 s.data.clockticks) := by
    intro hquantum
    simp [forces, hstack, hproc, hcharges, hquantum] at hforces
  rw [hlast] at hquantum ⊢
  cases hpolicy : cfg.policy with
  | rr => simp [hpolicy, Quantum, quantumOf] at hquantum
  | rr2q | fair2q =>
    rcases hbinary p with hpri | hpri
    · simp [hpolicy, Quantum, quantumOf, hpri] at hquantum
    · simp [LowQuantum, quantumOf, hpri]

theorem quantumOf_le (policy : Policy) (p : Proc) : quantumOf policy p ≤ 2 * quanta := by
  have hquanta : quanta = 5 := rfl
  cases policy <;> simp only [quantumOf] <;> (try split) <;> omega

/-- The slice goes on within its bound. -/
theorem Within.step {guard : State 1 → Act 1 → Prop} {g : Slice} {p : Slot} (h : Within cfg s g p)
    (hs : Reaches cfg guard s) (hbinary : Binary s.data) (hexec : Executing s 0 p)
    (hd : dispatches cfg s a = none) (hnice : (g.after cfg s a).niced = false)
    (hstep : Kernel.step cfg s a = some t) (hstay : Executing t 0 p) :
    Within cfg t (g.after cfg s a) p := by
  have hinv := hs.solo.inv
  have hafter : g.after cfg s a =
      { ticks := if (charges s a).isSome then g.ticks + 1 else g.ticks,
        niced := g.niced || nices s a } := by simp [Slice.after, hd]
  rw [hafter] at hnice ⊢
  have hnices : nices s a = false := (Bool.or_eq_false_iff.mp hnice).2
  have hbound : quantumOf cfg.policy (t.data.proc p) = quantumOf cfg.policy (s.data.proc p) :=
    quantumOf_priority (priority_step hs hstep hexec hnices)
  have hcount := clockticks_step hstep
  cases h with
  | yields hyields hintr hle =>
    obtain ⟨hyields', hintr', hcharges, -⟩ := hyields.step hinv hintr hstep hstay
    exact .yields hyields' hintr' (by simpa [hcharges, hbound] using hle)
  | tests k hstack hintr hlow hle =>
    obtain ⟨choice, rfl, -⟩ := exec_of_intr_off hstep hintr hstack
    have hforces : forces cfg s (.exec 0 choice) = some p := by
      simp [forces, hstack, hexec.2, hlow]
    have hcharges : charges s (.exec 0 choice) = none := by simp [charges, hstack]
    obtain ⟨hyields, hintr'⟩ := forces_yields hs hforces hstep
    exact .yields hyields hintr' (by simpa [hcharges, hbound] using hle)
  | runs hzero hlt hle =>
    cases hforces : forces cfg s a with
    | some q =>
      obtain ⟨hyields, hintr'⟩ := forces_yields hs hforces hstep
      refine .yields hyields hintr' ?_
      rw [hbound]
      dsimp only
      split <;> push_cast <;> omega
    | none =>
      cases hcharges : charges s a with
      | none =>
        have hkept : t.data.clockticks = s.data.clockticks := by
          simpa [hforces, hcharges] using hcount
        exact .runs (by omega) (by omega) (by simpa [hkept] using hle)
      | some q =>
        obtain rfl : q = p := by
          obtain ⟨c, choice, user, k, rfl, hstack, hproc, -⟩ := charges_op hcharges
          obtain rfl : c = 0 := Subsingleton.elim _ _
          exact Option.some.inj (hproc.symm.trans hexec.2)
        have hquanta : quanta = 5 := rfl
        have hmost := quantumOf_le cfg.policy (s.data.proc q)
        have hincr := incr32_of_lt hzero (by omega)
        have hnext : t.data.clockticks = s.data.clockticks + 1 := by
          simpa [hforces, hcharges, hincr] using hcount
        by_cases hlast : s.data.clockticks + 1 < quantumOf cfg.policy (s.data.proc q)
        · exact .runs (by omega) (by omega) (by simp [hnext]; omega)
        · obtain ⟨hpolicy, hlow⟩ := last_tick hbinary hcharges hforces (by omega)
          obtain ⟨k, hstack, hintr'⟩ := charges_tests hs hcharges hforces hpolicy hstep
          refine .tests k hstack hintr' ?_ (by simp [hbound]; omega)
          have hpri := priority_step hs hstep hexec hnices
          rw [LowQuantum, hnext, hpri, ← hincr]
          exact hlow

/-- What holds of one cpu and its slice. -/
structure Bounded (cfg : Config) (s : State 1) (g : Fin 1 → Slice) : Prop where
  binary : Binary s.data
  rr : cfg.policy = .rr → 0 ≤ s.data.clockticks ∧ s.data.clockticks < quanta
  within : ∀ p, Executing s 0 p → (g 0).niced = false → Within cfg s (g 0) p

theorem Bounded.step {guard : State 1 → Act 1 → Prop} {g : Fin 1 → Slice} (h : Bounded cfg s g)
    (hs : Reaches cfg guard s) (hguard : InQuantum cfg s a) (hstep : Kernel.step cfg s a = some t) :
    Bounded cfg t (watchSlices cfg s a g) := by
  refine ⟨h.binary.step hstep, fun hpolicy => rr_clockticks hpolicy (h.rr hpolicy) hstep, ?_⟩
  intro p hp hnice
  have hcpu : a.cpu = 0 := Subsingleton.elim _ _
  have hg : watchSlices cfg s a g 0 = (g 0).after cfg s a := by
    rw [watchSlices, hcpu, Function.update_self]
  rw [hg] at hnice ⊢
  cases hd : dispatches cfg s a with
  | some q =>
    obtain rfl : q = p := by
      have hq := executing_of_dispatch hstep hd
      rw [hcpu] at hq
      exact Option.some.inj (hq.2.symm.trans hp.2)
    have hslice : (g 0).after cfg s a = {} := by simp [Slice.after, hd]
    rw [hslice]
    refine .dispatched hd hstep ?_
    by_cases hpolicy : cfg.policy = .rr
    · simpa [quantumOf, hpolicy] using h.rr hpolicy
    · exact hguard hpolicy q hd
  | none =>
    have hold : Executing s 0 p := by
      have hold := executing_step hstep (hcpu ▸ hp)
      rw [hd, hcpu] at hold
      exact hold.resolve_right (by simp)
    have hnice' : (g 0).niced = false := by
      simp only [Slice.after, hd] at hnice
      exact (Bool.or_eq_false_iff.mp hnice).1
    exact (h.within p hold hnice').step hs h.binary hold hd hnice hstep hp

theorem boot_bounded : Bounded cfg boot fun _ => {} where
  binary p := by
    simp only [boot]
    split <;> exact Or.inl rfl
  rr _ := ⟨le_refl 0, by decide⟩
  within p hp := by cases hp.1

/-- The upper bound on a slice, on one cpu: in every run in which, under RR2Q and FAIR2Q, every dispatch
finds the counter of `trap` below the quantum of the process (under RR in every run), a process that has
not called `nice` since it was dispatched has been charged at most its quantum. -/
theorem slice_bounded (cfg : Config) (s : State 1) (g : Fin 1 → Slice)
    (hs : Watched cfg (InQuantum cfg) (watchSlices cfg) (fun _ => {}) (s, g)) (p : Slot)
    (hexec : Executing s 0 p) (hnice : (g 0).niced = false) :
    (g 0).ticks ≤ quantumOf cfg.policy (s.data.proc p) := by
  have hbounded : Bounded cfg s g := by
    refine Watched.invariant boot_bounded ?_ hs
    intro s g a t hreach h hguard hstep
    exact h.step hreach hguard hstep
  exact (hbounded.within p hexec hnice).bound

end Solo

instance {ncpu : Nat} (cfg : Config) (s : State ncpu) (a : Act ncpu) : Decidable (InQuantum cfg s a) :=
  match h : dispatches cfg s a with
  | none => .isTrue (by simp [InQuantum, h])
  | some q => decidable_of_iff (cfg.policy ≠ .rr →
      0 ≤ s.data.clockticks ∧ s.data.clockticks < quantumOf cfg.policy (s.data.proc q))
      (by simp [InQuantum, h])

/-- Some instructions of the only cpu. -/
def solo (n : Nat) : List (Act 1) := List.replicate n (.exec 0 .ok)

/-- A clock tick in user space under RR2Q that forces nobody to yield. -/
def soloTick : List (Act 1) := .timer 0 :: solo 12

/-- Init runs for four ticks. -/
def soloRun : List (Act 1) := solo 6 ++ soloTick ++ soloTick ++ soloTick ++ soloTick

theorem soloRun_bounded :
    ∃ (s : State 1) (g : Fin 1 → Slice),
      Watched (plain .rr2q) (InQuantum (plain .rr2q)) (watchSlices (plain .rr2q)) (fun _ => {}) (s, g) ∧
        Executing s 0 initproc ∧ (g 0).niced = false ∧
          (g 0).ticks ≤ quantumOf .rr2q (s.data.proc initproc) := by
  have hrun : ((watchedRun (plain .rr2q) (fun s a => InQuantum (plain .rr2q) s a)
      (watchSlices (plain .rr2q)) ((boot : State 1), fun _ => {}) soloRun).map fun x =>
        decide (Executing x.1 0 initproc ∧ (x.2 0).niced = false)) = some true := by decide +kernel
  obtain ⟨⟨s, g⟩, hs, hfacts⟩ := Option.map_eq_some_iff.mp hrun
  obtain ⟨hexec, hnice⟩ := of_decide_eq_true hfacts
  have hreach : Watched (plain .rr2q) (InQuantum (plain .rr2q)) (watchSlices (plain .rr2q)) (fun _ => {})
      (s, g) := Watched.run (fun _ _ h => of_decide_eq_true h) (.start rfl) hs
  exact ⟨s, g, hreach, hexec, hnice, slice_bounded (plain .rr2q) s g hreach initproc hexec hnice⟩

/-- Init forks, calls `nice`, runs for seven ticks with low priority and waits for its child, which then
runs for six ticks with high priority. -/
def overrunRun : List (Act 1) :=
  solo 6 ++ .syscall 0 .fork :: solo 19 ++ .syscall 0 .nice :: solo 7 ++
    soloTick ++ soloTick ++ soloTick ++ soloTick ++ soloTick ++ soloTick ++ soloTick ++
    .syscall 0 .wait :: solo 10 ++ soloTick ++ soloTick ++ soloTick ++ soloTick ++ soloTick ++ soloTick

/-- A process of high priority has been charged six ticks in one slice. -/
theorem slice_overruns :
    ∃ (s : State 1) (g : Fin 1 → Slice),
      Watched (plain .rr2q) (fun _ _ => True) (watchSlices (plain .rr2q)) (fun _ => {}) (s, g) ∧
        ∃ p, Executing s 0 p ∧ (g 0).niced = false ∧ (s.data.proc p).priority = 0 ∧ (g 0).ticks = 6 ∧
          ¬(g 0).ticks ≤ quantumOf .rr2q (s.data.proc p) := by
  have hrun : ((watchedRun (plain .rr2q) (fun _ _ => true) (watchSlices (plain .rr2q))
      ((boot : State 1), fun _ => {}) overrunRun).map fun x =>
        decide (Executing x.1 0 firstChild ∧ (x.2 0).niced = false ∧
          (x.1.data.proc firstChild).priority = 0 ∧ (x.2 0).ticks = 6)) = some true := by decide +kernel
  obtain ⟨⟨s, g⟩, hs, hfacts⟩ := Option.map_eq_some_iff.mp hrun
  obtain ⟨hexec, hnice, hpri, hticks⟩ := of_decide_eq_true hfacts
  refine ⟨s, g, Watched.run (fun _ _ _ => trivial) (.start rfl) hs, firstChild, hexec, hnice, hpri,
    hticks, ?_⟩
  simp only at hticks hpri
  simp [hticks, quantumOf, hpri, quanta]

end Xv6.Kernel
