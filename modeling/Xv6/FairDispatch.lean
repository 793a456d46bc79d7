import Xv6.LockOrder

/-! Dispatching under FAIR2Q. The scheduler remembers its candidates while it gives up `ptable.lock`
between two passes; another cpu may dispatch one of them meanwhile. As long as no cpu dispatches a
process that another one remembers, every process that is switched to is `RUNNABLE`. -/

namespace Xv6.Kernel

variable {ncpu : Nat}

/-- The process is a candidate of its priority. -/
def Remembers (l : Fair2q.Locals) (q : Slot) : Prop :=
  (l.smallHighRatio ≠ 2 ∧ l.minHighPri = some q) ∨ (l.smallLowRatio ≠ 2 ∧ l.minLowPri = some q)

instance (l : Fair2q.Locals) (q : Slot) : Decidable (Remembers l q) :=
  inferInstanceAs (Decidable (_ ∨ _))

/-- The condition on a step: it dispatches no process that another cpu remembers. -/
def LeavesCandidates (cfg : Config) (s : State ncpu) (a : Act ncpu) : Prop :=
  ∀ q, dispatches cfg s a = some q → ∀ d, d ≠ a.cpu → ¬Remembers (s.cpu d).locals.fair2q q

/-- What a scheduler remembers: a candidate for every ratio it has set, and `RUNNABLE` ones only. -/
structure Recalls (l : Fair2q.Locals) (t : Table) : Prop where
  high : l.smallHighRatio ≠ 2 → ∃ q, l.minHighPri = some q
  low : l.smallLowRatio ≠ 2 → ∃ q, l.minLowPri = some q
  runnable : ∀ q, Remembers l q → (t q).state = .runnable

section Locals

variable {l : Fair2q.Locals} {t u : Table}

theorem Recalls.table (h : Recalls l t)
    (hkeep : ∀ q, Remembers l q → (t q).state = .runnable → (u q).state = .runnable) : Recalls l u :=
  ⟨h.high, h.low, fun q hq => hkeep q hq (h.runnable q hq)⟩

theorem recalls_of_reset (hhigh : l.smallHighRatio = 2) (hlow : l.smallLowRatio = 2) : Recalls l t := by
  refine ⟨fun h => absurd hhigh h, fun h => absurd hlow h, ?_⟩
  rintro q (⟨h, -⟩ | ⟨h, -⟩)
  · exact absurd hhigh h
  · exact absurd hlow h

/-- The comparison with the best ratio remembers the process or changes nothing. -/
theorem Recalls.record (h : Recalls l t) {p : Slot} (hp : (t p).state = .runnable) (high : Bool)
    (r : Rat) : Recalls (Fair2q.record l high p r) t := by
  cases high with
  | true =>
    by_cases hr : r < l.smallHighRatio
    · have hset : Fair2q.record l true p r =
          { l with loop := LibWord.incr32 l.loop, smallHighRatio := r, minHighPri := some p } := by
        simp [Fair2q.record, hr]
      rw [hset]
      refine ⟨fun _ => ⟨p, rfl⟩, h.low, ?_⟩
      rintro q (⟨-, hq⟩ | hq)
      · exact Option.some.inj hq ▸ hp
      · exact h.runnable q (Or.inr hq)
    · have hset : Fair2q.record l true p r = { l with loop := LibWord.incr32 l.loop } := by
        simp [Fair2q.record, hr]
      rw [hset]
      exact ⟨h.high, h.low, h.runnable⟩
  | false =>
    by_cases hr : r < l.smallLowRatio
    · have hset : Fair2q.record l false p r =
          { l with loop := LibWord.incr32 l.loop, smallLowRatio := r, minLowPri := some p } := by
        simp [Fair2q.record, hr]
      rw [hset]
      refine ⟨h.high, fun _ => ⟨p, rfl⟩, ?_⟩
      rintro q (hq | ⟨-, hq⟩)
      · exact h.runnable q (Or.inl hq)
      · exact Option.some.inj hq ▸ hp
    · have hset : Fair2q.record l false p r = { l with loop := LibWord.incr32 l.loop } := by
        simp [Fair2q.record, hr]
      rw [hset]
      exact ⟨h.high, h.low, h.runnable⟩

/-- What the scheduler switches to is a candidate, and with the switch it forgets all of them. -/
theorem Recalls.choose (h : Recalls l t) {p : Proc} {q : Option Slot}
    (hc : (Fair2q.examine p l).1 = .choose q) :
    (∃ r, q = some r ∧ (t r).state = .runnable) ∧ Recalls (Fair2q.examine p l).2 u := by
  unfold Fair2q.examine at hc ⊢
  split_ifs at hc ⊢ with h1 h2 h3 h4 h5
  · obtain ⟨r, hr⟩ := h.high h4
    refine ⟨⟨r, ?_, h.runnable r (Or.inl ⟨h4, hr⟩)⟩, recalls_of_reset rfl rfl⟩
    rw [← hr]
    simpa using hc.symm
  · obtain ⟨r, hr⟩ := h.low h5.2
    refine ⟨⟨r, ?_, h.runnable r (Or.inr ⟨h5.2, hr⟩)⟩, recalls_of_reset rfl rfl⟩
    rw [← hr]
    simpa using hc.symm

theorem Recalls.skip (h : Recalls l t) {p : Proc} (hc : ∀ q, (Fair2q.examine p l).1 ≠ .choose q) :
    Recalls (Fair2q.examine p l).2 t := by
  unfold Fair2q.examine at hc ⊢
  split_ifs at hc ⊢ with h1 h2 h3 h4 h5
  · exact h
  · exact h
  · exact absurd rfl (hc _)
  · exact absurd rfl (hc _)
  · exact ⟨h.high, h.low, h.runnable⟩
  · exact ⟨h.high, h.low, h.runnable⟩

end Locals

variable {s t : State ncpu} {cfg : Config} {a : Act ncpu}

/-- Every scheduler remembers `RUNNABLE` processes only. -/
def AllRecall (s : State ncpu) : Prop := ∀ d, Recalls (s.cpu d).locals.fair2q s.data.proc

/-- A process leaves the state `RUNNABLE` only by a dispatch. -/
theorem runnable_step (h : Inv s) (hstep : step cfg s a = some t) {q : Slot}
    (hq : (s.data.proc q).state = .runnable) (hnot : dispatches cfg s a ≠ some q) :
    (t.data.proc q).state = .runnable := by
  cases dataStep hstep with
  | kept _ hdata =>
    obtain ⟨stack, hdata⟩ := hdata
    rw [hdata]
    exact hq
  | dispatch r c choice p k _ _ hd hdata =>
    have hqr : q ≠ r := by
      rintro rfl
      exact hnot hd
    rw [hdata]
    simpa [Data.setProc, hqr] using hq
  | op c choice o k stack ha hstack _ hdata =>
    obtain ⟨x, hx⟩ := h.cpu c
    have hmove := (h.op_tableStep hx hstack cfg.policy choice).state q
    rw [hdata]
    change ((write cfg.policy (s.cpu c).proc choice s.data o).proc q).state = .runnable
    rw [hq] at hmove
    generalize ((write cfg.policy (s.cpu c).proc choice s.data o).proc q).state = b at hmove ⊢
    cases hmove with
    | same => rfl
    | run _ hnone => cases hnone

theorem examineSlot_locals (hfair : cfg.policy = .fair2q) (u : Table) (l : Locals) (p : Slot) :
    (examineSlot cfg u l p).2.fair2q = (Fair2q.examine (u p) l.fair2q).2 := by
  unfold examineSlot
  rw [hfair]
  dsimp only
  split <;> rfl

theorem examineSlot_switch (hfair : cfg.policy = .fair2q) {u : Table} {l : Locals} {p q : Slot} {n : Nat}
    (he : (examineSlot cfg u l p).1 = .switch q n) :
    (Fair2q.examine (u p) l.fair2q).1 = .choose (some q) := by
  unfold examineSlot at he
  rw [hfair] at he
  dsimp only at he
  split at he <;> cases he
  assumption

/-- While all schedulers remember `RUNNABLE` processes only, they switch to such ones. -/
theorem AllRecall.dispatchesRunnable (h : AllRecall s) (hfair : cfg.policy = .fair2q) (a : Act ncpu) :
    DispatchesRunnable cfg s a := by
  intro q hq
  cases a with
  | exec c choice =>
    simp only [dispatches] at hq
    split at hq
    · split at hq
      · split at hq
        · rename_i he
          obtain ⟨⟨r, hr, hrun⟩, -⟩ := (h c).choose (u := s.data.proc) (examineSlot_switch hfair he)
          cases Option.some.inj hr
          cases Option.some.inj hq
          exact hrun
        · cases hq
      · cases hq
    · cases hq
  | _ => cases hq

/-- Only the scan and the comparison of ratios write the locals of the scheduler. -/
theorem execInstr_locals {c : Fin ncpu} {choice : Choice} {i : Instr} {k : Code}
    (hstep : execInstr cfg s c choice k i = some t) (hscan : ∀ p, i ≠ .scanSlot p)
    (hratio : ∀ p high, i ≠ .fairRatio p high) : (t.cpu c).locals = (s.cpu c).locals := by
  cases i with
  | scanSlot p => exact absurd rfl (hscan p)
  | fairRatio p high => exact absurd rfl (hratio p high)
  | spin l =>
    simp only [execInstr] at hstep
    split at hstep
    · rw [← Option.some.inj hstep, setStack_locals]
      rfl
    · cases hstep
  | release l =>
    rw [← Option.some.inj hstep, release]
    split
    · dsimp only
      split <;> simp [Cpu.popcli, State.setLock]
    · exact setStack_locals ..
  | sched =>
    rw [← Option.some.inj hstep, sched]
    split
    · exact setStack_locals ..
    · split <;> simp
  | op o =>
    rw [← Option.some.inj hstep, setStack_locals]
  | _ =>
    rw [← Option.some.inj hstep, setCpu_cpu]
    simp [Cpu.pushcli]

theorem entry_locals (ha : ∀ c choice, a ≠ .exec c choice) (hstep : step cfg s a = some t) :
    (t.cpu a.cpu).locals = (s.cpu a.cpu).locals := by
  cases a with
  | exec c choice => exact absurd rfl (ha c choice)
  | syscall c call | fault c | timer c | device c n =>
    simp only [Kernel.step] at hstep
    split at hstep
    · rw [← Option.some.inj hstep]
      simp [State.interrupt, Act.cpu]
    · cases hstep

/-- The cpu that makes the step goes on to remember `RUNNABLE` processes only. -/
theorem AllRecall.step_own (hrecall : AllRecall s) (h : Inv s) (hfair : cfg.policy = .fair2q)
    (hstep : step cfg s a = some t) : Recalls (t.cpu a.cpu).locals.fair2q t.data.proc := by
  have hkeep : dispatches cfg s a = none → ∀ {l}, Recalls l s.data.proc → Recalls l t.data.proc := by
    intro hnone l hl
    exact hl.table fun q _ hq => runnable_step h hstep hq (by simp [hnone])
  cases a with
  | exec c choice =>
    have hc := hrecall c
    cases hstack : s.stack c with
    | nil => simp [step, exec, hstack] at hstep
    | cons i k =>
      have hexec : execInstr cfg s c choice k i = some t := by
        simpa [step, exec, hstack] using hstep
      cases i with
      | scanSlot p =>
        have ht := Option.some.inj hexec
        by_cases hp : p < nproc
        · rw [dif_pos hp] at ht
          have hlocals : (t.cpu c).locals.fair2q =
              (Fair2q.examine (s.data.proc ⟨p, hp⟩) (s.cpu c).locals.fair2q).2 := by
            rw [← examineSlot_locals hfair, ← ht]
            cases he : (examineSlot cfg s.data.proc (s.cpu c).locals ⟨p, hp⟩).1 <;>
              simp [scan, he, State.dispatch]
          rw [Act.cpu, hlocals]
          by_cases hchoose :
              ∃ q, (Fair2q.examine (s.data.proc ⟨p, hp⟩) (s.cpu c).locals.fair2q).1 = .choose q
          · obtain ⟨q, hq⟩ := hchoose
            exact (hc.choose hq).2
          · refine hkeep ?_ (hc.skip fun q hq => hchoose ⟨q, hq⟩)
            cases he : (examineSlot cfg s.data.proc (s.cpu c).locals ⟨p, hp⟩).1 with
            | switch q n => exact absurd ⟨_, examineSlot_switch hfair he⟩ hchoose
            | _ => simp [dispatches, hstack, hp, he]
        · rw [dif_neg hp] at ht
          rw [Act.cpu, ← ht, setStack_locals]
          refine ht ▸ hkeep (by simp [dispatches, hstack, hp]) hc
      | fairRatio p high =>
        obtain ⟨x, hx⟩ := h.cpu c
        obtain ⟨hfits, -⟩ := hx.fits hstack (by simp) (by simp)
        simp only [Instr.Fits] at hfits
        subst hfits
        refine hkeep (by simp [dispatches, hstack]) ?_
        rw [Act.cpu, ← Option.some.inj hexec, setCpu_cpu, setStack_locals]
        exact hc.record hx.known high _
      | _ =>
        rw [Act.cpu, execInstr_locals hexec (by simp) (by simp)]
        exact hkeep (by simp [dispatches, hstack]) hc
  | _ =>
    rw [entry_locals (by simp) hstep]
    exact hkeep rfl (hrecall _)

/-- Steps that leave the candidates of the other cpus alone keep all schedulers' memories right. -/
theorem AllRecall.step (hrecall : AllRecall s) (h : Inv s) (hfair : cfg.policy = .fair2q)
    (hleaves : LeavesCandidates cfg s a) (hstep : step cfg s a = some t) : AllRecall t := by
  obtain ⟨x, hx, hf⟩ := framed_step h (hrecall.dispatchesRunnable hfair a) hstep
  intro d
  by_cases hd : d = a.cpu
  · rw [hd]
    exact hrecall.step_own h hfair hstep
  · rw [hf.cpu d hd]
    refine (hrecall d).table fun q hq hrun => runnable_step h hstep hrun ?_
    exact fun hdispatch => hleaves q hdispatch d hd hq

/-- Under FAIR2Q, in every run in which no cpu dispatches a process that another cpu's scheduler
remembers, every process a scheduler switches to is `RUNNABLE`, and no process is on two cpus. -/
theorem fair2q_dispatch_safe (cfg : Config) (hfair : cfg.policy = .fair2q) (s : State ncpu)
    (hs : Reaches cfg (LeavesCandidates cfg) s) :
    (∀ a, DispatchesRunnable cfg s a) ∧ ∀ c d p, Executing s c p → Executing s d p → c = d := by
  have hinv : Inv s ∧ AllRecall s := by
    apply LibRun.Reachable.invariant _ _ hs
    · rintro _ rfl
      exact ⟨boot_inv, fun d => recalls_of_reset rfl rfl⟩
    · rintro s t - ⟨h, hrecall⟩ ⟨a, hleaves, hstep⟩
      exact ⟨(framed_step h (hrecall.dispatchesRunnable hfair a) hstep).inv h,
        hrecall.step h hfair hleaves hstep⟩
  exact ⟨hinv.2.dispatchesRunnable hfair, hinv.1.once⟩

instance (s : State ncpu) (c : Fin ncpu) (p : Slot) : Decidable (Executing s c p) :=
  inferInstanceAs (Decidable (_ ∧ _))

instance (cfg : Config) (s : State ncpu) (a : Act ncpu) : Decidable (LeavesCandidates cfg s a) :=
  match h : dispatches cfg s a with
  | none => .isTrue (by simp [LeavesCandidates, h])
  | some q => decidable_of_iff (∀ d, d ≠ a.cpu → ¬Remembers (s.cpu d).locals.fair2q q)
      (by simp [LeavesCandidates, h])

/-- Cpu 0 passes over the table, in which only init is `RUNNABLE`, and starts init in its second pass. -/
def startRun : List (Act 2) := steps 0 77

theorem startRun_dispatch_safe :
    ∃ s : State 2, Reaches (plain .fair2q) (LeavesCandidates (plain .fair2q)) s ∧
      Executing s 0 initproc ∧
      (∀ a, DispatchesRunnable (plain .fair2q) s a) ∧
        ∀ c d p, Executing s c p → Executing s d p → c = d := by
  have hrun : ((run (plain .fair2q) (fun s a => LeavesCandidates (plain .fair2q) s a) boot startRun).map
      fun s => decide (Executing s 0 initproc)) = some true := by decide +kernel
  obtain ⟨s, hs, hexec⟩ := Option.map_eq_some_iff.mp hrun
  have hreach : Reaches (plain .fair2q) (LeavesCandidates (plain .fair2q)) s :=
    Reaches.run (fun _ _ h => by simpa using h) (.start rfl) hs
  exact ⟨s, hreach, of_decide_eq_true hexec, fair2q_dispatch_safe _ rfl s hreach⟩

/-- Cpu 0 passes over the table and remembers init. Then cpu 1 does the same and starts init, which
leaves `ptable.lock`; cpu 0 takes it for its second pass. -/
def twiceRun : List (Act 2) := steps 0 73 ++ steps 1 78 ++ steps 0 3

/-- A scheduler switches to a process that is already `RUNNING`, and it runs on two cpus. -/
theorem fair2q_dispatch_not_safe :
    (∃ s : State 2, Reaches (plain .fair2q) (fun _ _ => True) s ∧ ∃ a,
      ¬DispatchesRunnable (plain .fair2q) s a) ∧
      ∃ s : State 2, Reaches (plain .fair2q) (fun _ _ => True) s ∧
        Executing s 0 initproc ∧ Executing s 1 initproc := by
  constructor
  · have hrun : ((run (plain .fair2q) (fun _ _ => true) boot twiceRun).map
        fun s => decide (DispatchesRunnable (plain .fair2q) s (.exec 0 .ok))) = some false := by
      decide +kernel
    obtain ⟨s, hs, hdispatch⟩ := Option.map_eq_some_iff.mp hrun
    exact ⟨s, Reaches.run (fun _ _ _ => trivial) (.start rfl) hs, _, of_decide_eq_false hdispatch⟩
  · have hrun : ((run (plain .fair2q) (fun _ _ => true) boot (twiceRun ++ steps 0 1)).map
        fun s => decide (Executing s 0 initproc ∧ Executing s 1 initproc)) = some true := by
      decide +kernel
    obtain ⟨s, hs, hexec⟩ := Option.map_eq_some_iff.mp hrun
    exact ⟨s, Reaches.run (fun _ _ _ => trivial) (.start rfl) hs, of_decide_eq_true hexec⟩

end Xv6.Kernel
