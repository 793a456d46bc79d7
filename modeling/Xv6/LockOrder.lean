import Xv6.KernelOps
import Xv6.LibWaits

/-! Deadlocks of the spinlocks. Every nesting but one follows the order of ranks; the exception is
`clockticks()` called with `ptable.lock` held. It meets `wakeup()` and `sleep()` called with `tickslock`
held: a cycle of cpus arises exactly from these two. -/

namespace Xv6.Kernel

open LibWaits

variable {ncpu : Nat}

/-- The lock a cpu is spinning for. -/
def wants (s : State ncpu) (c : Fin ncpu) : Option Lock :=
  match s.stack c with
  | .spin l :: _ => some l
  | _ => none

/-- A cycle of cpus, each spinning in `acquire` on a spinlock that the next one holds. -/
def SpinDeadlock (s : State ncpu) : Prop := Deadlock s.lock (wants s)

/-- The code goes on to take `ptable.lock` before it releases `tickslock`: the timer interrupt before
its `wakeup`, and `sys_sleep`, which may go to sleep. -/
def climbs : Code → Bool
  | [] => false
  | .acquire .ptable :: _ | .spin .ptable :: _ => true
  | .release .tickslock :: _ => false
  | .op (.sleepStart _) :: _ | .op (.sleepLoop _ _) :: _ => true
  | _ :: k => climbs k

/-- The cpu spins for `tickslock` while it holds `ptable.lock`. -/
def Backwards (s : State ncpu) (c : Fin ncpu) : Prop :=
  s.lock .ptable = some c ∧ wants s c = some .tickslock

instance (s : State ncpu) (c : Fin ncpu) : Decidable (Backwards s c) :=
  inferInstanceAs (Decidable (_ ∧ _))

/-- The condition on a step: a cpu with `ptable.lock` calls `acquire(&tickslock)` only while no cpu
holds `tickslock` and goes on to take `ptable.lock`; and a cpu that goes on so gets `tickslock` only while
no cpu with `ptable.lock` spins for it. -/
def Ordered (s : State ncpu) : Act ncpu → Prop
  | .exec c _ =>
    match s.stack c with
    | .acquire .tickslock :: _ =>
      s.lock .ptable = some c → ∀ d, s.lock .tickslock = some d → climbs (s.stack d) = false
    | .spin .tickslock :: k => climbs k = true → ∀ e, ¬Backwards s e
    | _ => True
  | _ => True

/-- No cpu that spins for `tickslock` with `ptable.lock` held waits for one that goes on to take
`ptable.lock`. -/
def Apart (s : State ncpu) : Prop :=
  ∀ e d, Backwards s e → s.lock .tickslock = some d → climbs (s.stack d) = false

section Measure

variable {s : State ncpu} {c : Fin ncpu} {x : Ctx}

theorem wants_eq_some {l : Lock} : wants s c = some l ↔ ∃ k, s.stack c = .spin l :: k := by
  unfold wants
  split
  · rename_i m k hstack
    simp [hstack]
  · rename_i hnot
    constructor
    · exact nofun
    · rintro ⟨k, hk⟩
      exact absurd hk (hnot l k)

theorem CpuInv.nests (hx : CpuInv s c x) {l : Lock} (hw : wants s c = some l) : Nests x.held l := by
  obtain ⟨k, hk⟩ := wants_eq_some.mp hw
  have htyped := hx.typed
  rw [hk, Stacked, Typed] at htyped
  exact (htyped.resolve_left (by simp)).1

theorem Inv.rank_lt (h : Inv s) {l m : Lock} (hm : s.lock m = some c) (hw : wants s c = some l) :
    m.rank < l.rank ∨ (Backwards s c ∧ m = .ptable ∧ l = .tickslock) := by
  obtain ⟨x, hx⟩ := h.cpu c
  have hmem := (hx.held m).mpr hm
  rcases hx.nests hw with hrank | ⟨hheld, rfl⟩
  · exact Or.inl (hrank m hmem)
  · rw [hheld, List.mem_singleton] at hmem
    subst hmem
    exact Or.inr ⟨⟨hm, hw⟩, rfl, rfl⟩

/-- The measure of a waiting cpu: the rank of its lock, with the cpus that go backwards between those
that wait for `ptable.lock` and those that wait for `kmem.lock`. -/
def waitMeasure (s : State ncpu) (c : Fin ncpu) : Nat :=
  if Backwards s c then 3
  else
    match wants s c with
    | some l => 2 * l.rank
    | none => 0

theorem Inv.waitMeasure_lt (h : Inv s) (hapart : Apart s) {a b d : Fin ncpu}
    (hab : WaitsFor s.lock (wants s) a b) (hbd : WaitsFor s.lock (wants s) b d) :
    waitMeasure s a < waitMeasure s b := by
  obtain ⟨l, hal, hlb⟩ := hab
  obtain ⟨m, hbm, -⟩ := hbd
  by_cases hb : Backwards s b
  · -- the lock that is waited for is `ptable.lock`, so the waiter does not go backwards itself
    rcases h.rank_lt hlb hbm with hlt | ⟨-, rfl, -⟩
    · have hm : m = .tickslock := Option.some.inj (hbm.symm.trans hb.2)
      subst hm
      exact absurd hlt (Nat.not_lt_zero _)
    · have ha : ¬Backwards s a := fun ha => by simpa [hal] using ha.2
      simp [waitMeasure, ha, hb, hal]
  · have hlt : l.rank < m.rank := (h.rank_lt hlb hbm).resolve_right fun hback => hb hback.1
    by_cases ha : Backwards s a
    · have hl : l = .tickslock := Option.some.inj (hal.symm.trans ha.2)
      subst hl
      have hclimbs := hapart a b ha hlb
      obtain ⟨k, hk⟩ := wants_eq_some.mp hbm
      rw [hk] at hclimbs
      cases m with
      | tickslock | other n => exact absurd hlt (Nat.lt_irrefl _)
      | ptable => simp [climbs] at hclimbs
      | kmem => simp [waitMeasure, ha, hb, hbm]
    · simp only [waitMeasure, ha, hb, hal, hbm, if_false]
      omega

theorem Inv.not_spinDeadlock (h : Inv s) (hapart : Apart s) : ¬SpinDeadlock s :=
  not_deadlock fun _ _ _ => h.waitMeasure_lt hapart

end Measure

section Step

variable {s t : State ncpu} {c : Fin ncpu} {x : Ctx} {cfg : Config} {a : Act ncpu}

theorem Inv.not_wants_held (h : Inv s) {l : Lock} (hl : s.lock l = some c) : wants s c ≠ some l := by
  intro hw
  obtain ⟨x, hx⟩ := h.cpu c
  exact (hx.nests hw).not_mem ((hx.held l).mpr hl)

theorem climbs_acquire {l : Lock} {k : Code} : climbs (.spin l :: k) = climbs (.acquire l :: k) := by
  cases l <;> rfl

theorem climbs_tail {i : Instr} {k : Code} (h : climbs (i :: k) = false)
    (hi : i ≠ .release .tickslock) : climbs k = false := by
  cases i with
  | acquire l | spin l => cases l <;> first | exact h | cases h
  | release l => cases l <;> first | exact h | exact absurd rfl hi
  | op o => cases o <;> first | exact h | cases h
  | _ => exact h

@[simp] theorem scan_lock {p : Slot} {k : Code} : (scan cfg s c p k).lock = s.lock := by
  cases he : (examineSlot cfg s.data.proc (s.cpu c).locals p).1 <;> simp [scan, he, State.dispatch]

@[simp] theorem sched_lock {k : Code} : (sched s c k).lock = s.lock := by
  unfold sched
  split
  · exact setStack_lock _ _ _
  · split <;> exact setStack_lock _ _ _

/-- A cpu gets a lock only by the `xchg` of `acquire`. -/
theorem execInstr_lock {i : Instr} {k : Code} {choice : Choice} {l : Lock}
    (hstep : execInstr cfg s c choice k i = some t) (hi : i ≠ .spin l) (hl : t.lock l = some c) :
    s.lock l = some c := by
  cases i with
  | spin m =>
    have hm : l ≠ m := by
      rintro rfl
      exact hi rfl
    simp only [execInstr] at hstep
    split at hstep
    · rw [← Option.some.inj hstep, setStack_lock] at hl
      simpa [State.setLock, hm] using hl
    · cases hstep
  | release m =>
    rw [← Option.some.inj hstep, release] at hl
    have hset : (s.setLock m none).lock l = some c → s.lock l = some c := by
      intro h
      by_cases hm : l = m
      · simp [State.setLock, hm] at h
      · simpa [State.setLock, hm] using h
    split at hl
    · dsimp only at hl
      split at hl
      · exact hset (by simpa using hl)
      · exact hset (by simpa using hl)
    · simpa using hl
  | scanSlot p =>
    rw [← Option.some.inj hstep] at hl
    split at hl <;> simpa using hl
  | _ =>
    rw [← Option.some.inj hstep] at hl
    simpa using hl

/-- Without `ptable.lock`, code that does not go on to take it stays so while it has `tickslock`. -/
theorem climbs_execInstr (h : Inv s) (hx : CpuInv s c x) {i : Instr} {k : Code}
    (hstack : s.stack c = i :: k) {choice : Choice} (hstep : execInstr cfg s c choice k i = some t)
    (hptable : .ptable ∉ x.held) (hticks : t.lock .tickslock = some c)
    (hclimbs : i ≠ .spin .tickslock → climbs (i :: k) = false)
    (hspin : i = .spin .tickslock → climbs k = false) : climbs (t.stack c) = false := by
  have hshape := h.shape c
  have hheld : i ≠ .spin .tickslock → .tickslock ∈ x.held := fun hi =>
    (hx.held _).mpr (execInstr_lock hstep hi hticks)
  cases i with
  | acquire l =>
    obtain ⟨hfree, -⟩ := framed_acquire h hx hstack
    rw [← Option.some.inj hstep, if_neg hfree, setCpu_stack stays_pushcli, setStack_stack hshape,
      climbs_acquire]
    exact hclimbs (by simp)
  | spin l =>
    simp only [execInstr] at hstep
    split at hstep
    · rw [← Option.some.inj hstep, setStack_stack (s := s.setLock l (some c)) hshape]
      by_cases hl : l = .tickslock
      · exact hspin (by rw [hl])
      · exact climbs_tail (hclimbs (by simpa using hl)) (by simp)
    · cases hstep
  | release l =>
    obtain ⟨-, -, hrelease⟩ := release_eq hx hstack
    have ht : t = ((s.setLock l none).setStack c k).setCpu c Cpu.popcli :=
      (Option.some.inj hstep).symm.trans hrelease
    subst ht
    have hl : l ≠ .tickslock := by
      rintro rfl
      rw [setCpu_lock, setStack_lock] at hticks
      simp [State.setLock] at hticks
    rw [setCpu_stack stays_popcli, setStack_stack (s := s.setLock l none) hshape]
    exact climbs_tail (hclimbs (by simp)) (by simpa using hl)
  | panic =>
    rw [← Option.some.inj hstep, setCpu_stack, setStack_stack hshape]
    · rfl
    · exact ⟨fun _ => rfl, fun _ => rfl, fun _ => rfl⟩
  | op o =>
    have hmem := hheld (by simp)
    have hcode := hclimbs (by simp)
    obtain ⟨hfits, -⟩ := hx.fits hstack (by simp) (by simp)
    rw [← Option.some.inj hstep, setStack_stack
      (s := { s with data := write cfg.policy (s.cpu c).proc choice s.data o }) hshape]
    cases o with
    | kmemWork =>
      simp only [next]
      split <;> exact hcode
    | stampCtime | incTicks => exact hcode
    | sleepStart | sleepLoop => cases hcode
    | wakeup1 chan => exact absurd hfits.1 hptable
    | _ =>
      simp only [Instr.Fits, Op.Fits] at hfits
      subst hfits
      simp at hmem hptable
  | sched | schedRet | iret | schedTop | scanSlot | fairRatio | afterSwtch =>
    have hmem := hheld (by simp)
    obtain ⟨hfits, -⟩ := hx.fits hstack (by simp) (by simp)
    simp only [Instr.Fits] at hfits
    subst hfits
    simp at hmem hptable

theorem interrupt_stack (h : Inv s) (m : Code) : (s.interrupt c m).stack c = m ++ s.stack c := by
  unfold State.interrupt
  rw [setCpu_stack, setStack_stack (h.shape c)]
  exact ⟨fun _ => rfl, fun _ => rfl, fun _ => rfl⟩

/-- An entry to the kernel leads into no loop of `acquire`, and is made without a lock. -/
theorem entry_free (h : Inv s) (ha : ∀ c choice, a ≠ .exec c choice) (hstep : step cfg s a = some t) :
    spins (t.stack a.cpu) = 0 ∧ ∀ l, t.lock l ≠ some a.cpu := by
  obtain ⟨x, hx⟩ := h.cpu a.cpu
  have hnone : x = {} → t.lock = s.lock → ∀ l, t.lock l ≠ some a.cpu := by
    rintro rfl hlock l hl
    rw [hlock] at hl
    exact absurd ((hx.held l).mpr hl) (by simp)
  cases a with
  | exec c choice => exact absurd rfl (ha c choice)
  | syscall c call =>
    simp only [Kernel.step] at hstep
    split at hstep
    · rename_i hu
      have ht := Option.some.inj hstep
      refine ⟨?_, hnone (hx.free_of_user hu).1 (ht ▸ setStack_lock _ _ _)⟩
      rw [← ht, Act.cpu, setStack_stack (h.shape c)]
      rfl
    · cases hstep
  | fault c =>
    simp only [Kernel.step] at hstep
    split at hstep
    · rename_i hu
      have ht := Option.some.inj hstep
      refine ⟨?_, hnone (hx.free_of_user hu).1 (ht ▸ setStack_lock _ _ _)⟩
      rw [← ht, Act.cpu, interrupt_stack h]
      rfl
    · cases hstep
  | timer c =>
    simp only [Kernel.step] at hstep
    split at hstep
    · rename_i hintr
      have ht := Option.some.inj hstep
      refine ⟨?_, hnone (hx.free_of_intr hintr).1 (ht ▸ setStack_lock _ _ _)⟩
      rw [← ht, Act.cpu, interrupt_stack h]
      unfold timerTrap
      split <;> rfl
    · cases hstep
  | device c n =>
    simp only [Kernel.step] at hstep
    split at hstep
    · rename_i hintr
      have ht := Option.some.inj hstep
      refine ⟨?_, hnone (hx.free_of_intr hintr).1 (ht ▸ setStack_lock _ _ _)⟩
      rw [← ht, Act.cpu, interrupt_stack h]
      rfl
    · cases hstep

theorem spins_of_wants {l : Lock} (hw : wants s c = some l) : spins (s.stack c) = 1 := by
  obtain ⟨k, hk⟩ := wants_eq_some.mp hw
  rw [hk]
  rfl

/-- Steps that meet the condition keep the two nestings apart. -/
theorem Apart.step (hapart : Apart s) (h : Inv s) (hrun : DispatchesRunnable cfg s a)
    (hord : Ordered s a) (hstep : step cfg s a = some t) : Apart t := by
  obtain ⟨x, hx, hf⟩ := framed_step h hrun hstep
  have ht : Inv t := h.frame hx hf
  have hother : ∀ d, d ≠ a.cpu → t.stack d = s.stack d := fun d hd => hf.stack_other h hd
  have hback : ∀ e, e ≠ a.cpu → Backwards t e → Backwards s e := by
    intro e he hb
    refine ⟨(hf.lock e he _).mp hb.1, ?_⟩
    have hw := hb.2
    unfold wants at hw ⊢
    rwa [hother e he] at hw
  intro e d he hd
  by_cases hdc : d = a.cpu
  · have hec : e ≠ a.cpu := by
      rintro rfl
      exact ht.not_wants_held (hdc ▸ hd) he.2
    have hes := hback e hec he
    have hptable : .ptable ∉ x.held := by
      intro hmem
      exact hec (Option.some.inj (hes.1.symm.trans ((hx.held _).mp hmem)))
    subst hdc
    cases a with
    | exec c choice =>
      cases hstack : s.stack c with
      | nil => simp [step, exec, hstack] at hstep
      | cons i k =>
        have hexec : execInstr cfg s c choice k i = some t := by
          simpa [step, exec, hstack] using hstep
        refine climbs_execInstr h hx hstack hexec hptable hd ?_ ?_
        · intro hi
          rw [← hstack]
          exact hapart e c hes (execInstr_lock hexec hi hd)
        · rintro rfl
          simp only [Ordered, hstack] at hord
          by_contra hclimbs
          exact hord (by simpa using hclimbs) e hes
    | _ => exact absurd hd ((entry_free h (by simp) hstep).2 _)
  · have hd' : s.lock .tickslock = some d := (hf.lock d hdc _).mp hd
    rw [hother d hdc]
    by_cases hec : e = a.cpu
    · -- the cpu has just come to the loop of `acquire(&tickslock)`
      subst hec
      have hspins := spins_of_wants he.2
      cases a with
      | exec c choice =>
        obtain ⟨l, k, hs, hst, hlock⟩ := hf.entry.resolve_left (by simp [hspins])
        have hl : l = .tickslock := by
          have hw := he.2
          simpa [wants, hst] using hw
        subst hl
        have hptable : s.lock .ptable = some c := hlock ▸ he.1
        have hs' : s.stack c = .acquire .tickslock :: k := hs
        simp only [Ordered, hs'] at hord
        exact hord hptable d hd'
      | _ => exact absurd (entry_free h (by simp) hstep).1 (by simp [hspins])
    · exact hapart e d (hback e hec he) hd'

end Step

/-- The condition under which no deadlock arises. -/
def OrderedStep (cfg : Config) (s : State ncpu) (a : Act ncpu) : Prop :=
  DispatchesRunnable cfg s a ∧ Ordered s a

/-- In every run whose steps meet the condition, under every policy and with any number of cpus, no
state has a cycle of cpus that spin for each other's locks. -/
theorem spinDeadlock_free (cfg : Config) (s : State ncpu) (hs : Reaches cfg (OrderedStep cfg) s) :
    ¬SpinDeadlock s := by
  have hinv : Inv s ∧ Apart s := by
    apply LibRun.Reachable.invariant _ _ hs
    · rintro _ rfl
      exact ⟨boot_inv, fun e d he => nomatch he.1⟩
    · rintro s t - ⟨h, hapart⟩ ⟨a, ⟨hrun, hord⟩, hstep⟩
      exact ⟨(framed_step h hrun hstep).inv h, hapart.step h hrun hord hstep⟩
  exact hinv.1.not_spinDeadlock hinv.2

instance (s : State ncpu) (a : Act ncpu) : Decidable (Ordered s a) :=
  match a with
  | .exec c _ => by
    unfold Ordered
    dsimp only
    split <;> infer_instance
  | .syscall _ _ | .fault _ | .timer _ | .device _ _ => .isTrue trivial

instance (cfg : Config) (s : State ncpu) (a : Act ncpu) : Decidable (DispatchesRunnable cfg s a) :=
  match h : dispatches cfg s a with
  | none => .isTrue (by simp [DispatchesRunnable, h])
  | some q => decidable_of_iff ((s.data.proc q).state = .runnable) (by simp [DispatchesRunnable, h])

instance (cfg : Config) (s : State ncpu) (a : Act ncpu) : Decidable (OrderedStep cfg s a) :=
  inferInstanceAs (Decidable (_ ∧ _))

/-- Cpu 0 takes a clock interrupt in its scheduler and goes back to the scan, cpu 1 starts init. -/
def tickRun : List (Act 2) :=
  steps 0 1 ++ .timer 0 :: steps 0 10 ++ steps 1 4

theorem tickRun_spinDeadlock_free :
    ∃ s, Reaches (plain .rr) (OrderedStep (plain .rr)) s ∧ s.lock .ptable = some 1 ∧
      ¬SpinDeadlock (s : State 2) := by
  have hrun : ((run (plain .rr) (fun s a => OrderedStep (plain .rr) s a) boot tickRun).map
      fun s => s.lock .ptable) = some (some 1) := by decide +kernel
  obtain ⟨s, hs, hlock⟩ := Option.map_eq_some_iff.mp hrun
  have hreach : Reaches (plain .rr) (OrderedStep (plain .rr)) s :=
    Reaches.run (fun _ _ h => by simpa using h) (.start rfl) hs
  exact ⟨s, hreach, hlock, spinDeadlock_free _ s hreach⟩

/-- Two cpus that spin for each other's lock. -/
def Crossed (s : State 2) : Prop :=
  wants s 0 = some .ptable ∧ s.lock .ptable = some 1 ∧ wants s 1 = some .tickslock ∧
    s.lock .tickslock = some 0

instance (s : State 2) : Decidable (Crossed s) := inferInstanceAs (Decidable (_ ∧ _))

theorem Crossed.spinDeadlock {s : State 2} (h : Crossed s) : SpinDeadlock s := by
  obtain ⟨h0, hptable, h1, hticks⟩ := h
  exact ⟨0, .head ⟨_, h0, hptable⟩ (.single ⟨_, h1, hticks⟩)⟩

/-- Init forks on cpu 0; the child exits on cpu 1 and holds `ptable.lock` when cpu 0 is interrupted by
the timer; cpu 0 takes `tickslock` and goes for `ptable.lock`, and cpu 1 for `tickslock`. -/
def exitRun : List (Act 2) :=
  steps 0 6 ++ .syscall 0 .fork :: steps 0 19 ++ steps 1 7 ++ .syscall 1 .exit :: steps 1 6 ++
    .timer 0 :: steps 0 4 ++ steps 1 1

/-- The FAIR2Q scheduler of cpu 1 asks for the ticks with `ptable.lock` held, while cpu 0 is in the
clock interrupt. -/
def fairRun : List (Act 2) :=
  steps 1 4 ++ steps 0 1 ++ .timer 0 :: steps 0 4 ++ steps 1 1

theorem crossed_of_run {cfg : Config} (acts : List (Act 2))
    (hrun : ((run cfg (fun _ _ => true) boot acts).map fun s => decide (Crossed s)) = some true) :
    ∃ s : State 2, Reaches cfg (fun _ _ => True) s ∧ SpinDeadlock s := by
  obtain ⟨s, hs, hcrossed⟩ := Option.map_eq_some_iff.mp hrun
  exact ⟨s, Reaches.run (fun _ _ _ => trivial) (.start rfl) hs, (of_decide_eq_true hcrossed).spinDeadlock⟩

/-- Two cpus can spin for each other's lock forever, under the default policy and under FAIR2Q. -/
theorem spinDeadlock_reachable :
    (∃ s : State 2, Reaches (plain .rr) (fun _ _ => True) s ∧ SpinDeadlock s) ∧
      ∃ s : State 2, Reaches (plain .fair2q) (fun _ _ => True) s ∧ SpinDeadlock s :=
  ⟨crossed_of_run exitRun (by decide +kernel), crossed_of_run fairRun (by decide +kernel)⟩

end Xv6.Kernel
