import Xv6.KernelOps

/-! Time slices. The quantum of `trap` is measured by one static counter, which every cpu's clock ticks
increase and which only a forced yield resets. Here the machine is watched for the ticks each cpu's
process has been charged since it was dispatched; a process is not forced to yield before its quantum
is up as long as it finds the counter at zero and shares it with no other cpu's process. -/

namespace Xv6.Kernel

open LibWord Function

variable {ncpu : Nat}

/-- The process a step charges a clock tick to. -/
def charges (s : State ncpu) : Act ncpu → Option Slot
  | .exec c _ =>
    match s.stack c, (s.cpu c).proc with
    | .op (.trapTail user timer) :: _, some p =>
      if ((s.data.proc p).killed && user) = true ∨ ¬Charged (s.data.proc p) timer then none else some p
    | _, _ => none
  | _ => none

/-- The process a step of `trap` makes yield. -/
def forces (cfg : Config) (s : State ncpu) : Act ncpu → Option Slot
  | .exec c choice =>
    match s.stack c, (s.cpu c).proc with
    | .op (.trapTail _ _) :: _, some p =>
      if (charges s (.exec c choice)).isSome ∧
          Quantum cfg.policy (s.data.proc p) (incr32 s.data.clockticks) then some p else none
    | .op .trapLow :: _, some p =>
      if LowQuantum (s.data.proc p) s.data.clockticks then some p else none
    | _, _ => none
  | _ => none

/-- Whether a step is the call of `nice` by the current process. -/
def nices (s : State ncpu) : Act ncpu → Bool
  | .exec c _ =>
    match s.stack c with
    | .op .nice :: _ => true
    | _ => false
  | _ => false

/-- What has happened on a cpu since its last dispatch: the ticks charged, and whether the process has
called `nice`. -/
structure Slice where
  ticks : Nat := 0
  niced : Bool := false
  deriving DecidableEq, Repr

/-- The slice of a cpu after a step it makes. -/
def Slice.after (cfg : Config) (s : State ncpu) (a : Act ncpu) (g : Slice) : Slice :=
  if (dispatches cfg s a).isSome then {}
  else { ticks := if (charges s a).isSome then g.ticks + 1 else g.ticks, niced := g.niced || nices s a }

def watchSlices (cfg : Config) (s : State ncpu) (a : Act ncpu) (g : Fin ncpu → Slice) :
    Fin ncpu → Slice :=
  update g a.cpu ((g a.cpu).after cfg s a)

/-- The ticks of a slice: `QUANTA`, and twice as many for a low priority under RR2Q and FAIR2Q. -/
def quantumOf (policy : Policy) (p : Proc) : Int :=
  match policy with
  | .rr => quanta
  | .rr2q | .fair2q => if p.priority = 1 then 2 * quanta else quanta

/-- The condition on a step: a dispatch finds the counter at zero, and a tick is charged only while no
other cpu has a process. -/
def Uncontended (cfg : Config) (s : State ncpu) (a : Act ncpu) : Prop :=
  ((dispatches cfg s a).isSome → s.data.clockticks ≤ 0) ∧
    ((charges s a).isSome → ∀ d, d ≠ a.cpu → (s.cpu d).proc = none)

instance (cfg : Config) (s : State ncpu) (a : Act ncpu) : Decidable (Uncontended cfg s a) :=
  inferInstanceAs (Decidable (_ ∧ _))

variable {s t : State ncpu} {cfg : Config} {a : Act ncpu} {c : Fin ncpu}

/-! What a step does to the counter and to the cpus. -/

theorem write_clockticks (policy : Policy) (cur : Option Slot) (choice : Choice) (d : Data) {o : Op}
    (htail : ∀ user timer, o ≠ .trapTail user timer) (hlow : o ≠ .trapLow) :
    (write policy cur choice d o).clockticks = d.clockticks := by
  cases o with
  | trapTail user timer => exact absurd rfl (htail user timer)
  | trapLow => exact absurd rfl hlow
  | setRunnable | goSleep | clearChan | stampEtime | nice | fault | exitScan | reap => cases cur <;> rfl
  | allocScan | kallocStack | copyuvm =>
    simp only [write]
    split <;> rfl
  | _ => rfl

/-- Only a step that executes an operation charges a tick or forces a yield. -/
theorem charges_op {p : Slot} (h : charges s a = some p) :
    ∃ c choice user k, a = .exec c choice ∧ s.stack c = .op (.trapTail user true) :: k ∧
      (s.cpu c).proc = some p ∧ ((s.data.proc p).killed && user) = false ∧
      (s.data.proc p).state = .running := by
  cases a with
  | exec c choice =>
    simp only [charges] at h
    split at h
    · rename_i user timer k q hstack hproc
      split at h
      · cases h
      · rename_i hcharged
        cases h
        push Not at hcharged
        obtain ⟨hkilled, hrunning, rfl⟩ := hcharged
        exact ⟨c, choice, user, k, rfl, hstack, hproc, by simpa using hkilled, hrunning⟩
    · cases h
  | _ => cases h

/-- The two places at which `trap` makes the process yield. -/
theorem forces_op {p : Slot} (h : forces cfg s a = some p) :
    (charges s a = some p ∧ Quantum cfg.policy (s.data.proc p) (incr32 s.data.clockticks)) ∨
      ∃ c choice k, a = .exec c choice ∧ s.stack c = .op .trapLow :: k ∧
        (s.cpu c).proc = some p ∧ LowQuantum (s.data.proc p) s.data.clockticks := by
  cases a with
  | exec c choice =>
    simp only [forces] at h
    split at h
    · rename_i hstack hproc
      split at h
      · rename_i hboth
        cases h
        obtain ⟨hcharged, hquantum⟩ := hboth
        obtain ⟨q, hq⟩ := Option.isSome_iff_exists.mp hcharged
        obtain ⟨_, _, _, _, ⟨⟩, -, hproc', -⟩ := charges_op hq
        obtain rfl : q = p := Option.some.inj (hproc'.symm.trans hproc)
        exact Or.inl ⟨hq, hquantum⟩
      · cases h
    · rename_i k q hstack hproc
      split at h
      · rename_i hlow
        cases h
        exact Or.inr ⟨c, choice, k, rfl, hstack, hproc, hlow⟩
      · cases h
    · cases h
  | _ => cases h

/-- A tick advances the counter, a forced yield resets it, and nothing else changes it. -/
theorem clockticks_step (hstep : step cfg s a = some t) :
    t.data.clockticks =
      if (forces cfg s a).isSome then 0
      else if (charges s a).isSome then incr32 s.data.clockticks else s.data.clockticks := by
  by_cases hop : ∃ c choice o k, a = .exec c choice ∧ s.stack c = .op o :: k
  · obtain ⟨c, choice, o, k, rfl, hstack⟩ := hop
    have hdata : t.data.clockticks =
        (write cfg.policy (s.cpu c).proc choice s.data o).clockticks := by
      simp only [step, exec, hstack] at hstep
      obtain ⟨stack, hdata⟩ := setStack_data
        { s with data := write cfg.policy (s.cpu c).proc choice s.data o } c
        ((next cfg.policy (s.cpu c).proc choice s.data o).on k)
      rw [← Option.some.inj hstep, hdata]
    rw [hdata]
    cases o with
    | trapTail user timer =>
      cases hproc : (s.cpu c).proc with
      | none => simp [forces, charges, hstack, hproc, write]
      | some p =>
        by_cases hskip : ((s.data.proc p).killed && user) = true ∨ ¬Charged (s.data.proc p) timer
        · simp only [forces, charges, hstack, hproc, write, hskip, if_true]
          simp
        · simp only [forces, charges, hstack, hproc, write, hskip, if_false]
          simp only [Option.isSome_some, true_and, if_true]
          split <;> rfl
    | trapLow =>
      cases hproc : (s.cpu c).proc with
      | none => simp [forces, charges, hstack, hproc, write]
      | some p =>
        by_cases hlow : LowQuantum (s.data.proc p) s.data.clockticks <;>
          simp [forces, charges, hstack, hproc, write, hlow]
    | _ =>
      refine (write_clockticks _ _ _ _ (by simp) (by simp)).trans ?_
      simp [forces, charges, hstack]
  · have hcharges : charges s a = none := by
      by_contra hne
      obtain ⟨p, hp⟩ := Option.ne_none_iff_exists'.mp hne
      obtain ⟨c, choice, user, k, ha, hstack, -⟩ := charges_op hp
      exact hop ⟨c, choice, _, k, ha, hstack⟩
    have hforces : forces cfg s a = none := by
      by_contra hne
      obtain ⟨p, hp⟩ := Option.ne_none_iff_exists'.mp hne
      rcases forces_op hp with ⟨hp, -⟩ | ⟨c, choice, k, ha, hstack, -⟩
      · simp [hcharges] at hp
      · exact hop ⟨c, choice, _, k, ha, hstack⟩
    rw [hcharges, hforces]
    cases dataStep hstep with
    | kept _ hdata =>
      obtain ⟨stack, hdata⟩ := hdata
      rw [hdata]
      rfl
    | dispatch q c choice p k _ _ _ hdata =>
      rw [hdata]
      rfl
    | op c choice o k stack ha hstack => exact absurd ⟨c, choice, o, k, ha, hstack⟩ hop

theorem put_cpu_other (u : State ncpu) {d : Fin ncpu} (hd : d ≠ c) (code : Code) (f : Cpu → Cpu) :
    ((u.setStack c code).setCpu c f).cpu d = u.cpu d :=
  (update_of_ne hd ..).trans ((local_setStack u c code).cpu d hd)

theorem execInstr_cpu_other {choice : Choice} {i : Instr} {k : Code} {d : Fin ncpu} (hd : d ≠ c)
    (hstep : execInstr cfg s c choice k i = some t) : t.cpu d = s.cpu d := by
  cases i with
  | acquire | schedRet | iret | panic | schedTop | fairRatio | afterSwtch =>
    rw [← Option.some.inj hstep]
    exact put_cpu_other s hd _ _
  | spin l =>
    simp only [execInstr] at hstep
    split at hstep
    · rw [← Option.some.inj hstep]
      exact (local_setStack (s.setLock l (some c)) c k).cpu d hd
    · cases hstep
  | release l =>
    rw [← Option.some.inj hstep, release]
    split
    · dsimp only
      split
      · exact (local_setStack (s.setLock l none) c _).cpu d hd
      · exact put_cpu_other (s.setLock l none) hd _ _
    · exact (local_setStack s c _).cpu d hd
  | sched =>
    rw [← Option.some.inj hstep, sched]
    split
    · exact (local_setStack s c _).cpu d hd
    · split
      · exact put_cpu_other s hd _ _
      · exact (local_setStack s c _).cpu d hd
  | scanSlot p =>
    rw [← Option.some.inj hstep]
    split
    · simp only [scan]
      split
      · exact put_cpu_other s hd _ _
      · exact put_cpu_other s hd _ _
      · exact update_of_ne hd ..
      · exact put_cpu_other s hd _ _
    · exact (local_setStack s c _).cpu d hd
  | op o =>
    rw [← Option.some.inj hstep]
    exact (local_setStack { s with data := write cfg.policy (s.cpu c).proc choice s.data o } c _).cpu d hd

/-- A step changes no other cpu. -/
theorem step_cpu_other (hstep : step cfg s a = some t) {d : Fin ncpu} (hd : d ≠ a.cpu) :
    t.cpu d = s.cpu d := by
  cases a with
  | exec c choice =>
    cases hstack : s.stack c with
    | nil => simp [step, exec, hstack] at hstep
    | cons i k =>
      simp only [step, exec, hstack] at hstep
      exact execInstr_cpu_other hd hstep
  | syscall c call =>
    simp only [step] at hstep
    split at hstep
    · rw [← Option.some.inj hstep]
      exact (local_setStack s c _).cpu d hd
    · cases hstep
  | fault c | timer c | device c n =>
    simp only [step] at hstep
    split at hstep
    · rw [← Option.some.inj hstep]
      exact put_cpu_other s hd _ _
    · cases hstep

theorem put_proc (u : State ncpu) {code : Code} {f : Cpu → Cpu} {p : Option Slot}
    (hp : (((u.setStack c code).setCpu c f).cpu c).proc = p) (hf : ∀ u, (f u).proc = u.proc) :
    (u.cpu c).proc = p := by
  rwa [setCpu_cpu, hf, (local_setStack u c code).proc] at hp

theorem set_proc (u : State ncpu) {code : Code} {p : Option Slot}
    (hp : ((u.setStack c code).cpu c).proc = p) : (u.cpu c).proc = p := by
  rwa [(local_setStack u c code).proc] at hp

theorem execInstr_proc {choice : Choice} {i : Instr} {k : Code}
    (hstep : execInstr cfg s c choice k i = some t) (hscan : ∀ p, i ≠ .scanSlot p) {p : Slot}
    (hp : (t.cpu c).proc = some p) : (s.cpu c).proc = some p := by
  cases i with
  | scanSlot r => exact absurd rfl (hscan r)
  | acquire | schedRet | iret | panic | schedTop | fairRatio =>
    rw [← Option.some.inj hstep] at hp
    exact put_proc s hp fun _ => rfl
  | afterSwtch n =>
    rw [← Option.some.inj hstep, setCpu_cpu] at hp
    cases hp
  | spin l =>
    simp only [execInstr] at hstep
    split at hstep
    · rw [← Option.some.inj hstep] at hp
      exact set_proc (s.setLock l (some c)) hp
    · cases hstep
  | release l =>
    rw [← Option.some.inj hstep, release] at hp
    split at hp
    · dsimp only at hp
      split at hp
      · exact set_proc (s.setLock l none) hp
      · exact put_proc (s.setLock l none) hp fun _ => rfl
    · exact set_proc s hp
  | sched =>
    rw [← Option.some.inj hstep, sched] at hp
    split at hp
    · exact set_proc s hp
    · split at hp
      · exact put_proc s hp fun _ => rfl
      · exact set_proc s hp
  | op o =>
    rw [← Option.some.inj hstep] at hp
    exact set_proc { s with data := write cfg.policy (s.cpu c).proc choice s.data o } hp

/-- A cpu gets a process by a dispatch only. -/
theorem step_proc (hstep : step cfg s a = some t) {p : Slot} (hp : (t.cpu a.cpu).proc = some p) :
    (s.cpu a.cpu).proc = some p ∨ dispatches cfg s a = some p := by
  cases a with
  | exec c choice =>
    cases hstack : s.stack c with
    | nil => simp [step, exec, hstack] at hstep
    | cons i k =>
      simp only [step, exec, hstack] at hstep
      cases i with
      | scanSlot r =>
        rw [← Option.some.inj hstep] at hp
        split at hp
        · rename_i hr
          simp only [scan] at hp
          split at hp
          · exact Or.inl (put_proc s hp fun _ => rfl)
          · exact Or.inl (put_proc s hp fun _ => rfl)
          · rename_i he
            simp only [State.dispatch, Act.cpu, update_self] at hp
            right
            simp [dispatches, hstack, hr, he, hp]
          · exact Or.inl (put_proc s hp fun _ => rfl)
        · exact Or.inl (set_proc s hp)
      | _ => exact Or.inl (execInstr_proc hstep (by simp) hp)
  | syscall c call =>
    simp only [step] at hstep
    split at hstep
    · rw [← Option.some.inj hstep] at hp
      exact Or.inl (set_proc s hp)
    · cases hstep
  | fault c | timer c | device c n =>
    simp only [step] at hstep
    split at hstep
    · rw [← Option.some.inj hstep] at hp
      exact Or.inl (put_proc s hp fun _ => rfl)
    · cases hstep

/-! The lower bound. -/

/-- The counter is an `int`, and no cpu's process has been charged fewer ticks in its slice than the
counter shows. -/
structure Earned (s : State ncpu) (g : Fin ncpu → Slice) : Prop where
  range : -(2 ^ 31) ≤ s.data.clockticks
  ticks : ∀ c p, (s.cpu c).proc = some p → s.data.clockticks ≤ (g c).ticks

theorem dispatches_quiet (h : (dispatches cfg s a).isSome) : charges s a = none ∧ forces cfg s a = none := by
  cases a with
  | exec c choice =>
    simp only [dispatches] at h
    split at h
    · rename_i hstack
      simp [charges, forces, hstack]
    · cases h
  | _ => cases h

theorem Earned.step {g : Fin ncpu → Slice} (h : Earned s g) (hguard : Uncontended cfg s a)
    (hstep : Kernel.step cfg s a = some t) : Earned t (watchSlices cfg s a g) := by
  obtain ⟨hfresh, halone⟩ := hguard
  have hincr := incr32_le h.range
  have hcount := clockticks_step hstep
  constructor
  · rw [hcount]
    split
    · decide
    · split
      · exact hincr.2
      · exact h.range
  · intro c p hp
    by_cases hc : c = a.cpu
    · subst hc
      rw [watchSlices, update_self, Slice.after]
      by_cases hd : (dispatches cfg s a).isSome
      · -- a dispatch charges nothing
        have hzero := hfresh hd
        obtain ⟨hcharges, hforces⟩ := dispatches_quiet hd
        simpa [hd, hcount, hcharges, hforces] using hzero
      · have hold : (s.cpu a.cpu).proc = some p :=
          (step_proc hstep hp).resolve_right fun hp => hd (by simp [hp])
        have hle := h.ticks _ p hold
        rw [if_neg hd, hcount]
        split
        · exact Int.natCast_nonneg _
        · split <;> push_cast <;> omega
    · rw [watchSlices, update_of_ne hc]
      rw [step_cpu_other hstep hc] at hp
      have hle := h.ticks c p hp
      have hquiet : ¬(charges s a).isSome := fun hcharge => by simp [halone hcharge c hc] at hp
      rw [hcount, if_neg hquiet]
      split
      · simp
      · exact hle

/-- The lower bound on a slice, for any number of cpus and every policy: in every run in which
processes find the counter at zero when they are dispatched and no tick is charged while another cpu
has a process, `trap` makes a process yield only after it has been charged its quantum. -/
theorem forced_yield_earned (cfg : Config) (s : State ncpu) (g : Fin ncpu → Slice)
    (hs : Watched cfg (Uncontended cfg) (watchSlices cfg) (fun _ => {}) (s, g)) (a : Act ncpu) (p : Slot)
    (hforce : forces cfg s a = some p) :
    quantumOf cfg.policy (s.data.proc p) ≤ ((g a.cpu).after cfg s a).ticks := by
  have hearned : Earned s g := by
    refine Watched.invariant ?_ ?_ hs
    · exact ⟨by simp [boot], fun c p hp => by cases hp⟩
    · intro s g a t _ h hguard hstep
      exact h.step hguard hstep
  have hdispatch : dispatches cfg s a = none := by
    by_contra hne
    have hquiet := (dispatches_quiet (Option.isSome_iff_ne_none.mpr hne)).2
    rw [hquiet] at hforce
    cases hforce
  rcases forces_op hforce with ⟨hcharges, hquantum⟩ | ⟨c, choice, k, rfl, hstack, hproc, hlow⟩
  · obtain ⟨c, choice, user, k, rfl, hstack, hproc, -⟩ := charges_op hcharges
    have hle : s.data.clockticks ≤ (g c).ticks := hearned.ticks c p hproc
    have hincr := (incr32_le hearned.range).1
    simp only [Slice.after, hdispatch, hcharges, Act.cpu]
    cases hpolicy : cfg.policy with
    | rr =>
      have hcount : incr32 s.data.clockticks = quanta := by simpa [Quantum, hpolicy] using hquantum
      simp [quantumOf]
      omega
    | rr2q | fair2q =>
      obtain ⟨hcount, hpri⟩ : incr32 s.data.clockticks = quanta ∧ (s.data.proc p).priority = 0 := by
        simpa [Quantum, hpolicy] using hquantum
      simp [quantumOf, hpri]
      omega
  · have hle : s.data.clockticks ≤ (g c).ticks := hearned.ticks c p hproc
    obtain ⟨hcount, hpri⟩ := hlow
    have hcharges : charges s (.exec c choice) = none := by simp [charges, hstack]
    have hfive : quanta = 5 := rfl
    simp only [Slice.after, hdispatch, hcharges, Act.cpu]
    cases hpolicy : cfg.policy <;> simp [quantumOf, hpri] <;> omega

/-- A clock tick in user space that forces nobody to yield: from the interrupt to the return. -/
def userTick : List (Act 2) := .timer 0 :: steps 0 11

/-- A clock tick up to the tests of the counter. -/
def lastTick : List (Act 2) := .timer 0 :: steps 0 8

/-- Init runs alone for five ticks. -/
def sliceRun : List (Act 2) := steps 0 6 ++ userTick ++ userTick ++ userTick ++ userTick ++ lastTick

theorem sliceRun_earned :
    ∃ (s : State 2) (g : Fin 2 → Slice),
      Watched (plain .rr) (Uncontended (plain .rr)) (watchSlices (plain .rr)) (fun _ => {}) (s, g) ∧
        forces (plain .rr) s (.exec 0 .ok) = some initproc ∧
          quantumOf .rr (s.data.proc initproc) ≤ ((g 0).after (plain .rr) s (.exec 0 .ok)).ticks := by
  have hrun : ((watchedRun (plain .rr) (fun s a => Uncontended (plain .rr) s a) (watchSlices (plain .rr))
      ((boot : State 2), fun _ => {}) sliceRun).map fun x => forces (plain .rr) x.1 (.exec 0 .ok)) =
        some (some initproc) := by decide +kernel
  obtain ⟨⟨s, g⟩, hs, hforce⟩ := Option.map_eq_some_iff.mp hrun
  have hreach : Watched (plain .rr) (Uncontended (plain .rr)) (watchSlices (plain .rr)) (fun _ => {})
      (s, g) := Watched.run (fun _ _ h => of_decide_eq_true h) (.start rfl) hs
  exact ⟨s, g, hreach, hforce, forced_yield_earned (plain .rr) s g hreach (.exec 0 .ok) initproc hforce⟩

/-- Init forks, runs for three ticks and waits for its child, which then runs for two. -/
def inheritRun : List (Act 2) :=
  steps 0 6 ++ .syscall 0 .fork :: steps 0 19 ++ userTick ++ userTick ++ userTick ++
    .syscall 0 .wait :: steps 0 10 ++ userTick ++ lastTick

/-- The child is forced to yield after two ticks, because its parent had used up three. -/
theorem forced_yield_early :
    ∃ (s : State 2) (g : Fin 2 → Slice),
      Watched (plain .rr) (fun _ _ => True) (watchSlices (plain .rr)) (fun _ => {}) (s, g) ∧
        ∃ a p, forces (plain .rr) s a = some p ∧ ((g a.cpu).after (plain .rr) s a).ticks = 2 ∧
          ¬quantumOf .rr (s.data.proc p) ≤ ((g a.cpu).after (plain .rr) s a).ticks := by
  have hrun : ((watchedRun (plain .rr) (fun _ _ => true) (watchSlices (plain .rr))
      ((boot : State 2), fun _ => {}) inheritRun).map fun x =>
        ((forces (plain .rr) x.1 (.exec 0 .ok)).isSome,
          ((x.2 0).after (plain .rr) x.1 (.exec 0 .ok)).ticks)) = some (true, 2) := by decide +kernel
  obtain ⟨⟨s, g⟩, hs, hfacts⟩ := Option.map_eq_some_iff.mp hrun
  obtain ⟨hforce, hticks⟩ := Prod.mk.inj hfacts
  obtain ⟨p, hp⟩ := Option.isSome_iff_exists.mp hforce
  refine ⟨s, g, Watched.run (fun _ _ _ => trivial) (.start rfl) hs, .exec 0 .ok, p, hp, hticks, ?_⟩
  rw [Act.cpu, hticks]
  simp [quantumOf, quanta]

end Xv6.Kernel
