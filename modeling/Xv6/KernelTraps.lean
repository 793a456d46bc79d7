import Xv6.KernelSolo

/-! Properties of the code on the kernel stacks of one cpu that depend on the interrupt flag. A property
that every instruction passes on to the code it leaves, and that every handler has, holds of all stacks
in every run. The first such property is that handlers run with interrupts off to their end. -/

namespace Xv6.Kernel

/-- Whether interrupts are enabled apart from `pushcli`. -/
def Cpu.base (u : Cpu) : Bool := if u.ncli = 0 then u.intr else u.intena

theorem base_pushcli (u : Cpu) : u.pushcli.base = u.base := by
  by_cases h : u.ncli = 0 <;> simp [Cpu.base, Cpu.pushcli, h]

theorem base_popcli {u : Cpu} (h : u.ncli ≠ 0) : u.popcli.base = u.base := by
  by_cases h1 : u.ncli - 1 = 0 <;> simp [Cpu.base, Cpu.popcli, h, h1]

/-- The instructions and the entries to the kernel pass a property of code on, for the interrupt flag
they leave. A suspended stack has it for any flag, as it may be resumed under any. -/
structure CodeRule (P : Bool → Code → Prop) : Prop where
  acquire {on l k} : P on (.acquire l :: k) → P on (.spin l :: k)
  spin {on l k} : P on (.spin l :: k) → P on k
  release {on l k} : P on (.release l :: k) → P on k
  sched {on k} : P on (.sched :: k) → ∀ any, P any (.schedRet on :: k)
  schedRet {on intena k} : P on (.schedRet intena :: k) → P intena k
  iret {on k} : P on (.iret :: k) → P true k
  panic {on} : P on [.panic]
  schedTop {on k} : P on (.schedTop :: k) → P true (.acquire .ptable :: .scanSlot 0 :: k)
  scan {on p k} : P on (.scanSlot p :: k) → P on (.scanSlot (p + 1) :: k)
  ratio {on n p high k} : P on (.scanSlot n :: k) →
    P on (clockticks (.fairRatio p high) ++ .scanSlot (n + 1) :: k)
  scanEnd {on p k} : P on (.scanSlot p :: k) → P on (.release .ptable :: .schedTop :: k)
  switch {on p n k} : P on (.scanSlot p :: k) → ∀ any, P any (.afterSwtch n :: k)
  fairRatio {on p high k} : P on (.fairRatio p high :: k) → P on k
  afterSwtch {on n k} : P on (.afterSwtch n :: k) → P on (.scanSlot n :: k)
  op {on o k policy cur choice d} : P on (.op o :: k) → P on ((next policy cur choice d o).on k)
  forkret {on} : P on forkret
  syscall {on} (call) : P on [] → P on (syscallTrap call)
  fault {on} : P on [] → P false faultTrap
  timer {k} (user) : P true k → P false (timerTrap true user ++ k)
  device {k} (n user) : P true k → P false (deviceTrap n user ++ k)
  scheduler : P false [.schedTop]

/-- All stacks have the property. -/
structure Coded (P : Bool → Code → Prop) (s : State 1) : Prop where
  current : P (s.cpu 0).base (s.stack 0)
  off : ∀ p, ¬Executing s 0 p → ∀ any, P any (s.data.stack p)
  code : (s.cpu 0).onScheduler = false → ∀ any, P any (s.cpu 0).code

variable {cfg : Config} {s t : State 1} {a : Act 1} {P : Bool → Code → Prop}

theorem Coded.stay (h : Coded P s) (hl : Local s t 0) (hcurrent : P (t.cpu 0).base (t.stack 0)) :
    Coded P t where
  current := hcurrent
  off p hp := by
    have hp' : ¬Executing s 0 p := fun hex => hp ((hl.executing p).mpr hex)
    rw [hl.stack p hp']
    exact h.off p hp'
  code hon := by
    have hon' := hl.onScheduler.symm.trans hon
    rw [hl.code hon']
    exact h.code hon'

theorem setStack_base (s : State 1) (c : Fin 1) (k : Code) :
    ((s.setStack c k).cpu c).base = (s.cpu c).base := by
  obtain ⟨code, hcode⟩ := setStack_cpu s c k
  rw [hcode]
  rfl

theorem Coded.put (h : Coded P s) (hshape : CpuShape (s.cpu 0)) {k : Code} {f : Cpu → Cpu}
    (hf : Stays f) (hk : P (f ((s.setStack 0 k).cpu 0)).base k) :
    Coded P ((s.setStack 0 k).setCpu 0 f) := by
  refine h.stay ((local_setStack s 0 k).trans (local_setCpu hf)) ?_
  rwa [setCpu_stack hf, setStack_stack hshape, setCpu_cpu]

theorem Coded.set (h : Coded P s) (hshape : CpuShape (s.cpu 0)) {k : Code} (hk : P (s.cpu 0).base k) :
    Coded P (s.setStack 0 k) := by
  refine h.stay (local_setStack s 0 k) ?_
  rwa [setStack_stack hshape, setStack_base]

theorem Coded.setLock (h : Coded P s) (l : Lock) (holder : Option (Fin 1)) :
    Coded P (s.setLock l holder) := ⟨h.current, h.off, h.code⟩

theorem Inv.ncli_zero (hinv : Inv s) {i : Instr} {k : Code} (hstack : s.stack 0 = i :: k)
    (hspin : ∀ l, i ≠ .spin l) (hpanic : i ≠ .panic) (hfits : ∀ x, i.Fits x → x = {}) :
    (s.cpu 0).ncli = 0 := by
  obtain ⟨x, hx⟩ := hinv.cpu 0
  obtain rfl := hfits x (hx.fits hstack hspin hpanic).1
  rw [hx.ncli, hstack, spins_of_ne hspin]
  rfl

theorem Inv.ncli_one (hinv : Inv s) {i : Instr} {k : Code} (hstack : s.stack 0 = i :: k)
    (hspin : ∀ l, i ≠ .spin l) (hpanic : i ≠ .panic) (hfits : ∀ x, i.Fits x → x.held = [.ptable]) :
    (s.cpu 0).ncli = 1 := by
  obtain ⟨x, hx⟩ := hinv.cpu 0
  have hheld := hfits x (hx.fits hstack hspin hpanic).1
  rw [hx.ncli, hstack, spins_of_ne hspin, hheld]
  rfl

/-- The process leaves the cpu. -/
theorem Coded.sched (hP : CodeRule P) (h : Coded P s) (hinv : Inv s) {k : Code}
    (hstack : s.stack 0 = .sched :: k) : Coded P (Kernel.sched s 0 k) := by
  have hcur := h.current
  rw [hstack] at hcur
  obtain ⟨x, hx⟩ := hinv.cpu 0
  obtain ⟨-, hncli, -, p, hexec, hsched⟩ := sched_eq hinv hx hstack
  have hbase : (s.cpu 0).base = (s.cpu 0).intena := by simp [Cpu.base, hncli]
  rw [hsched, State.leave]
  constructor
  · simpa [State.stack] using h.code hexec.1 _
  · intro q _
    by_cases hqp : q = p
    · subst hqp
      simpa using hP.sched (hbase ▸ hcur)
    · have hq : ¬Executing s 0 q := fun hq => hqp (Option.some.inj (hq.2.symm.trans hexec.2))
      simpa [hqp] using h.off q hq
  · simp

/-- The switch to a process. -/
theorem Coded.dispatch (hP : CodeRule P) (h : Coded P s) (hinv : Inv s) {p : Nat} {k : Code}
    (hstack : s.stack 0 = .scanSlot p :: k) (q : Slot) (l : Locals) (next : Nat) :
    Coded P (s.dispatch 0 q l (.afterSwtch next :: k)) := by
  have hcur := h.current
  rw [hstack] at hcur
  have hon := hinv.on_scheduler hstack rfl
  have hidle : ∀ r, ¬Executing s 0 r := fun r hr => by simp [hr.1] at hon
  constructor
  · simpa [State.dispatch, State.stack, Data.setProc] using h.off q (hidle q) _
  · intro r _
    simpa [State.dispatch, Data.setProc] using h.off r (hidle r)
  · intro _
    simpa [State.dispatch] using hP.switch hcur

theorem Coded.scan (hP : CodeRule P) (h : Coded P s) (hinv : Inv s) {p : Slot} {k : Code}
    (hstack : s.stack 0 = .scanSlot p.val :: k) : Coded P (Kernel.scan cfg s 0 p k) := by
  have hcur := h.current
  rw [hstack] at hcur
  have hlocals : ∀ {m : Code} {l : Locals}, P (s.cpu 0).base m →
      Coded P ((s.setStack 0 m).setCpu 0 fun u => { u with locals := l }) := by
    intro m l hm
    refine h.put (hinv.shape 0) ⟨fun _ => rfl, fun _ => rfl, fun _ => rfl⟩ ?_
    rwa [← setStack_base s 0 m] at hm
  simp only [Kernel.scan]
  cases (examineSlot cfg s.data.proc (s.cpu 0).locals p).1 with
  | skip => exact hlocals (hP.scan hcur)
  | ratio high => exact hlocals (hP.ratio hcur)
  | switch q next => exact h.dispatch hP hinv hstack q _ next
  | wild => exact hlocals hP.panic

theorem Coded.op (hP : CodeRule P) (h : Coded P s) (hinv : Inv s) {o : Op} {k : Code}
    (hstack : s.stack 0 = .op o :: k) (choice : Choice) :
    Coded P (State.setStack { s with data := write cfg.policy (s.cpu 0).proc choice s.data o } 0
      ((next cfg.policy (s.cpu 0).proc choice s.data o).on k)) := by
  have hcur := h.current
  rw [hstack] at hcur
  have hl := local_setStack { s with data := write cfg.policy (s.cpu 0).proc choice s.data o } 0
    ((next cfg.policy (s.cpu 0).proc choice s.data o).on k)
  constructor
  · have ht := setStack_stack (k := (next cfg.policy (s.cpu 0).proc choice s.data o).on k)
      (s := { s with data := write cfg.policy (s.cpu 0).proc choice s.data o }) (hinv.shape 0)
    rw [ht, setStack_base]
    exact hP.op hcur
  · intro p hp
    have hp' : ¬Executing s 0 p := fun hex => hp ((hl.executing p).mpr hex)
    rw [hl.stack p hp']
    rcases write_stack cfg.policy (s.cpu 0).proc choice s.data o p with heq | ⟨-, heq⟩
    · rw [heq]
      exact h.off p hp'
    · rw [heq]
      exact fun _ => hP.forkret
  · intro hon
    have hon' := hl.onScheduler.symm.trans hon
    rw [hl.code hon']
    exact h.code hon'

theorem Coded.exec (hP : CodeRule P) (h : Coded P s) (hinv : Inv s) {i : Instr} {k : Code}
    (hstack : s.stack 0 = i :: k) {choice : Choice} (hstep : execInstr cfg s 0 choice k i = some t) :
    Coded P t := by
  have hcur := h.current
  rw [hstack] at hcur
  have hshape := hinv.shape 0
  cases i with
  | acquire l =>
    rw [← Option.some.inj hstep]
    refine h.put hshape stays_pushcli ?_
    rw [base_pushcli, setStack_base]
    split
    · exact hP.panic
    · exact hP.acquire hcur
  | spin l =>
    simp only [execInstr] at hstep
    split at hstep
    · rw [← Option.some.inj hstep]
      exact (h.setLock l (some 0)).set hshape (hP.spin hcur)
    · cases hstep
  | release l =>
    rw [← Option.some.inj hstep, Kernel.release]
    split
    · dsimp only
      split
      · exact (h.setLock l none).set hshape hP.panic
      · rename_i hpop
        push Not at hpop
        refine (h.setLock l none).put hshape stays_popcli ?_
        rw [base_popcli (by simpa using hpop.2), setStack_base]
        exact hP.release hcur
    · exact h.set hshape hP.panic
  | sched => exact Option.some.inj hstep ▸ h.sched hP hinv hstack
  | schedRet intena =>
    rw [← Option.some.inj hstep]
    refine h.put hshape ⟨fun _ => rfl, fun _ => rfl, fun _ => rfl⟩ ?_
    have hncli := hinv.ncli_one hstack (by simp) (by simp) (by simp)
    simpa [Cpu.base, hncli] using hP.schedRet hcur
  | iret =>
    rw [← Option.some.inj hstep]
    refine h.put hshape ⟨fun _ => rfl, fun _ => rfl, fun _ => rfl⟩ ?_
    have hncli := hinv.ncli_zero hstack (by simp) (by simp) (by simp)
    simpa [Cpu.base, hncli] using hP.iret hcur
  | panic =>
    rw [← Option.some.inj hstep]
    exact h.put hshape ⟨fun _ => rfl, fun _ => rfl, fun _ => rfl⟩ hP.panic
  | schedTop =>
    rw [← Option.some.inj hstep]
    refine h.put hshape ⟨fun _ => rfl, fun _ => rfl, fun _ => rfl⟩ ?_
    have hncli := hinv.ncli_zero hstack (by simp) (by simp) (by simp)
    simpa [Cpu.base, hncli] using hP.schedTop hcur
  | scanSlot p =>
    rw [← Option.some.inj hstep]
    split
    · exact h.scan hP hinv hstack
    · exact h.set hshape (hP.scanEnd hcur)
  | fairRatio p high =>
    rw [← Option.some.inj hstep]
    refine h.put hshape ⟨fun _ => rfl, fun _ => rfl, fun _ => rfl⟩ ?_
    have hk := hP.fairRatio hcur
    rwa [← setStack_base s 0 k] at hk
  | afterSwtch n =>
    have hon := hinv.on_scheduler hstack rfl
    have hset : (s.setStack 0 (.scanSlot n :: k)).setCpu 0 (fun u => { u with proc := none }) =
        s.setCpu 0 fun u => { u with code := .scanSlot n :: k, proc := none } := by
      simp [State.setStack, hon, State.setCpu]
    rw [← Option.some.inj hstep, hset]
    constructor
    · simpa [State.stack, hon, Cpu.base] using hP.afterSwtch hcur
    · exact fun p _ => h.off p fun hp => by simp [hp.1] at hon
    · intro hoff
      simp [hon] at hoff
  | op o => exact Option.some.inj hstep ▸ h.op hP hinv hstack choice

theorem Coded.interrupt (h : Coded P s) (hinv : Inv s) (hncli : (s.cpu 0).ncli = 0) {m : Code}
    (hm : P false (m ++ s.stack 0)) : Coded P (s.interrupt 0 m) := by
  refine h.put (hinv.shape 0) ⟨fun _ => rfl, fun _ => rfl, fun _ => rfl⟩ ?_
  simpa [Cpu.base, hncli] using hm

/-- Every step keeps a property of code for which the rules hold. -/
theorem Coded.step (hP : CodeRule P) (h : Coded P s) (hinv : Inv s)
    (hstep : Kernel.step cfg s a = some t) : Coded P t := by
  have hcur := h.current
  have hintr : (s.cpu 0).intr = true → (s.cpu 0).ncli = 0 := by
    obtain ⟨x, hx⟩ := hinv.cpu 0
    exact hx.intr
  have hbase : (s.cpu 0).intr = true → P true (s.stack 0) := by
    intro hon
    simpa [Cpu.base, hintr hon, hon] using hcur
  cases a with
  | exec c choice =>
    obtain rfl : c = 0 := Subsingleton.elim _ _
    cases hstack : s.stack 0 with
    | nil => simp [Kernel.step, Kernel.exec, hstack] at hstep
    | cons i k =>
      simp only [Kernel.step, Kernel.exec, hstack] at hstep
      exact h.exec hP hinv hstack hstep
  | syscall c call =>
    obtain rfl : c = 0 := Subsingleton.elim _ _
    simp only [Kernel.step] at hstep
    split at hstep
    · rename_i hu
      rw [hu.2] at hcur
      exact Option.some.inj hstep ▸ h.set (hinv.shape 0) (hP.syscall call hcur)
    · cases hstep
  | fault c =>
    obtain rfl : c = 0 := Subsingleton.elim _ _
    simp only [Kernel.step] at hstep
    split at hstep
    · rename_i hu
      rw [hu.2] at hcur
      obtain ⟨x, hx⟩ := hinv.cpu 0
      have hncli : (s.cpu 0).ncli = 0 := by
        have htyped := hx.typed
        rw [hu.2] at htyped
        obtain rfl : x = {} := htyped
        rw [hx.ncli, hu.2]
        rfl
      refine Option.some.inj hstep ▸ h.interrupt hinv hncli ?_
      rw [hu.2, List.append_nil]
      exact hP.fault hcur
    · cases hstep
  | timer c =>
    obtain rfl : c = 0 := Subsingleton.elim _ _
    simp only [Kernel.step] at hstep
    split at hstep
    · rename_i hon
      exact Option.some.inj hstep ▸ h.interrupt hinv (hintr hon) (hP.timer _ (hbase hon))
    · cases hstep
  | device c n =>
    obtain rfl : c = 0 := Subsingleton.elim _ _
    simp only [Kernel.step] at hstep
    split at hstep
    · rename_i hon
      exact Option.some.inj hstep ▸ h.interrupt hinv (hintr hon) (hP.device n _ (hbase hon))
    · cases hstep

theorem boot_coded (hP : CodeRule P) : Coded P boot where
  current := hP.scheduler
  off p _ := by
    simp only [boot]
    split
    · exact fun _ => hP.forkret
    · exact fun _ => hP.panic
  code hon := by cases hon

theorem Reaches.coded (hP : CodeRule P) {guard : State 1 → Act 1 → Prop} (hs : Reaches cfg guard s) :
    Coded P s := by
  refine LibRun.Reachable.invariant ?_ ?_ hs
  · rintro _ rfl
    exact boot_coded hP
  · rintro s t hs h ⟨a, -, hstep⟩
    exact h.step hP (Reaches.solo hs).inv hstep

/-! Handlers. -/

/-- The code fits the interrupt flag, apart from `pushcli`: what `trap` does after the handler is done
with interrupts off, and user code runs with interrupts on. Code behind `exit` is never reached. -/
def Masked : Bool → Code → Prop
  | on, [] => on = true
  | on, i :: k =>
    match i with
    | .panic | .op .doExit => True
    | .iret | .schedTop | .scanSlot _ | .afterSwtch _ => Masked true k
    | .schedRet intena => Masked intena k
    | .op (.trapTail _ _) | .op .trapLow | .op (.trapKilled _) => on = false ∧ Masked on k
    | _ => Masked on k

/-- The end of a timer interrupt, which charges the tick. -/
def Instr.tail : Instr → Bool
  | .op (.trapTail _ timer) => timer
  | _ => false

/-- The instructions of the timer's handler before it. -/
def Instr.handles : Instr → Bool
  | .acquire _ | .spin _ | .release _ | .op .incTicks | .op (.wakeup1 _) => true
  | _ => false

/-- No timer interrupt is being handled. -/
def Untimed (k : Code) : Prop := k.all (fun i => !i.tail) = true

/-- At most one timer interrupt is being handled, and nothing else above it. -/
def Timed : Code → Prop
  | [] => True
  | i :: k => if i.handles then Timed k else Untimed k

@[simp] theorem untimed_nil : Untimed [] := rfl

@[simp] theorem untimed_cons (i : Instr) (k : Code) : Untimed (i :: k) ↔ i.tail = false ∧ Untimed k := by
  simp [Untimed]

@[simp] theorem untimed_append (m k : Code) : Untimed (m ++ k) ↔ Untimed m ∧ Untimed k := by
  simp [Untimed, List.all_append]

theorem Untimed.timed {k : Code} (h : Untimed k) : Timed k := by
  induction k with
  | nil => trivial
  | cons i k ih =>
    obtain ⟨-, hk⟩ := (untimed_cons i k).mp h
    rw [Timed]
    split
    · exact ih hk
    · exact hk

theorem Timed.rest {i : Instr} {k : Code} (h : Timed (i :: k)) : Timed k := by
  rw [Timed] at h
  split at h
  · exact h
  · exact h.timed

theorem Timed.untimed {i : Instr} {k : Code} (h : Timed (i :: k)) (hi : i.handles = false) : Untimed k := by
  simpa [Timed, hi] using h

/-- With interrupts on, no timer interrupt is being handled. -/
theorem Masked.untimed {k : Code} (h : Masked true k) (ht : Timed k) : Untimed k := by
  induction k with
  | nil => rfl
  | cons i k ih =>
    rw [untimed_cons]
    cases hi : i.handles with
    | true =>
      have hk : Masked true k ∧ i.tail = false := by
        cases i with
        | op o => cases o <;> first | exact ⟨h, rfl⟩ | cases hi
        | _ => first | exact ⟨h, rfl⟩ | cases hi
      exact ⟨hk.2, ih hk.1 ht.rest⟩
    | false =>
      refine ⟨?_, ht.untimed hi⟩
      cases i with
      | op o =>
        cases o with
        | trapTail user timer => cases h.1
        | _ => rfl
      | _ => rfl

section Next

variable {policy : Policy} {cur : Option Slot} {choice : Choice} {d : Data} {o : Op} {k : Code}

theorem next_untimed : Untimed (next policy cur choice d o).code := by
  rw [Untimed, List.all_eq_true]
  intro i hi
  have hpushed := List.all_eq_true.mp next_pushed i hi
  cases i with
  | op o => cases o <;> first | rfl | cases hpushed
  | _ => rfl

theorem untimed_on {n : Next} (hn : Untimed n.code) (hk : Untimed k) : Untimed (n.on k) := by
  cases n with
  | push code => exact (untimed_append code k).mpr ⟨hn, hk⟩
  | become code => exact hn

theorem waitNext_masked {on : Bool} (p : Slot) (two : Bool) (hk : Masked on k) :
    Masked on (waitNext d p two ++ k) := by
  unfold waitNext
  cases findZombie p d.proc with
  | some np => exact hk
  | none =>
    by_cases hret : haveKids p d.proc = false ∨ (d.proc p).killed = true
    · rw [if_pos hret]
      exact hk
    · rw [if_neg hret]
      exact hk

theorem trapNext_masked (p : Slot) (user timer : Bool) (hk : Masked false k) :
    Masked false ((trapNext policy d p user timer).on k) := by
  unfold trapNext
  split
  · trivial
  · split
    · simp only [Next.on]
      split <;> split <;> simpa [yieldCpu, Masked] using hk
    · exact ⟨rfl, hk⟩

theorem next_masked {on : Bool} (h : Masked on (.op o :: k)) :
    Masked on ((next policy cur choice d o).on k) := by
  cases o with
  | wakeup1 | setRunnable | goSleep | clearChan | stampCtime | free | forkRun | exitScan | stampEtime
  | reap | kill | nice | incTicks | fault | sleepStart => exact h
  | allocScan =>
    simp only [next]
    cases findUnused d.proc <;> exact h
  | waitScan two =>
    cases cur with
    | none => exact h
    | some p => exact waitNext_masked p two h
  | trapTail user timer =>
    obtain ⟨rfl, hk⟩ := h
    cases cur with
    | none => exact hk
    | some p => exact trapNext_masked p user timer hk
  | trapLow =>
    obtain ⟨rfl, hk⟩ := h
    cases cur with
    | none => exact hk
    | some p =>
      simp only [next]
      split <;> exact hk
  | trapKilled user =>
    obtain ⟨rfl, hk⟩ := h
    simp only [next]
    split
    · trivial
    · exact hk
  | checkKilled =>
    simp only [next]
    split
    · trivial
    · exact h
  | kallocStack | copyuvm | kmemWork =>
    simp only [next]
    split <;> exact h
  | doExit =>
    simp only [next]
    split <;> trivial
  | sleepLoop ticks0 n =>
    simp only [next]
    split
    · split <;> exact h
    · exact h
  | dups | fileWork | work | intrWork => cases choice <;> exact h

end Next

/-- Handlers run to their end with interrupts off, and a timer interrupt is charged before anything
else is done on its stack. -/
theorem masked_timed : CodeRule fun on k => Masked on k ∧ Timed k where
  acquire h := h
  spin h := h
  release h := h
  sched h _ := ⟨h.1, h.2⟩
  schedRet h := ⟨h.1, h.2.rest⟩
  iret h := ⟨h.1, h.2.rest⟩
  panic := ⟨trivial, rfl⟩
  schedTop h := h
  scan h := h
  ratio h := ⟨h.1, by simpa [clockticks, Timed, Instr.handles, Instr.tail] using h.2⟩
  scanEnd h := h
  switch h _ := h
  fairRatio h := ⟨h.1, h.2.rest⟩
  afterSwtch h := h
  op {on o k policy cur choice d} h := by
    refine ⟨next_masked h.1, ?_⟩
    cases hhandles : (Instr.op o).handles with
    | false => exact (untimed_on next_untimed (h.2.untimed hhandles)).timed
    | true => cases o <;> first | exact h.2.rest | cases hhandles
  forkret := ⟨rfl, rfl⟩
  syscall call h := by
    obtain rfl : _ = true := h.1
    refine ⟨?_, Untimed.timed ?_⟩ <;> cases call <;> first | rfl | trivial
  fault _ := ⟨⟨rfl, rfl⟩, rfl⟩
  timer user h := by
    have hk := h.1.untimed h.2
    exact ⟨⟨rfl, h.1⟩, by simpa [timerTrap, wakeup, Timed, Instr.handles, Instr.tail] using hk⟩
  device n user h := by
    have hk := h.1.untimed h.2
    exact ⟨⟨rfl, h.1⟩, by simpa [deviceTrap, Timed, Instr.handles, Instr.tail] using hk⟩
  scheduler := ⟨rfl, rfl⟩

/-- Interrupts are off at the end of a handler. -/
theorem intr_off {guard : State 1 → Act 1 → Prop} (hs : Reaches cfg guard s) {o : Op} {k : Code}
    (hstack : s.stack 0 = .op o :: k) (hmask : ∀ on, Masked on (.op o :: k) → on = false) :
    (s.cpu 0).intr = false := by
  have hinv := hs.solo.inv
  have hcur := (hs.coded masked_timed).current
  rw [hstack] at hcur
  have hbase := hmask _ hcur.1
  by_contra hintr
  rw [Bool.not_eq_false] at hintr
  obtain ⟨x, hx⟩ := hinv.cpu 0
  simp [Cpu.base, hx.intr hintr, hintr] at hbase

/-! The order of operations. -/

/-- What comes behind an instruction: a slot gets its creation time while `fork` still has it in
creation, and a process that has become a zombie gets its end time next. -/
def Instr.Before (k : Code) : Instr → Prop
  | .op (.stampCtime np) => np ∈ owned k
  | .op .exitScan => ∃ rest, k = .acquire .tickslock :: .op .stampEtime :: rest
  | _ => True

def Sequenced : Code → Prop
  | [] => True
  | i :: k => i.Before k ∧ Sequenced k

/-- The instructions that nothing is required of. -/
def Instr.free : Instr → Bool
  | .op (.stampCtime _) | .op .exitScan => false
  | _ => true

theorem Instr.free.before {i : Instr} (h : i.free = true) (k : Code) : i.Before k := by
  cases i with
  | op o => cases o <;> trivial
  | _ => trivial

theorem Sequenced.append {m k : Code} (hm : m.all Instr.free = true) (hk : Sequenced k) :
    Sequenced (m ++ k) := by
  induction m with
  | nil => exact hk
  | cons i m ih =>
    rw [List.all_cons, Bool.and_eq_true] at hm
    exact ⟨Instr.free.before hm.1 _, ih hm.2⟩

theorem next_sequenced {policy : Policy} {cur : Option Slot} {choice : Choice} {d : Data} {o : Op} {k : Code}
    (h : Sequenced (.op o :: k)) : Sequenced ((next policy cur choice d o).on k) := by
  by_cases hspecial : (∃ np, o = .kallocStack np) ∨ o = .doExit
  · rcases hspecial with ⟨np, rfl⟩ | rfl
    · simp only [next]
      split
      · refine ⟨trivial, ?_, trivial, trivial, trivial, h.2⟩
        simp [Instr.Before, owned_cons]
      · exact ⟨trivial, h.2⟩
    · simp only [next]
      split
      · exact ⟨trivial, trivial⟩
      · refine ⟨trivial, trivial, ⟨_, rfl⟩, trivial, trivial, trivial, trivial, trivial, trivial⟩
  · push Not at hspecial
    have hfree : (next policy cur choice d o).code.all Instr.free = true := by
      rw [List.all_eq_true]
      intro i hi
      have hpushed := List.all_eq_true.mp next_pushed i hi
      cases i with
      | op o' =>
        cases o' with
        | stampCtime np =>
          cases o with
          | kallocStack q => exact absurd rfl (hspecial.1 q)
          | _ => cases hpushed
        | exitScan =>
          cases o with
          | doExit => exact absurd rfl hspecial.2
          | _ => cases hpushed
        | _ => rfl
      | _ => rfl
    cases hn : next policy cur choice d o with
    | push code =>
      rw [hn] at hfree
      exact .append hfree h.2
    | become code =>
      rw [hn] at hfree
      have hcode := Sequenced.append (k := []) hfree trivial
      rwa [Next.code, List.append_nil] at hcode

theorem sequenced_rule : CodeRule fun _ k => Sequenced k where
  acquire h := h
  spin h := h.2
  release h := h.2
  sched h _ := h
  schedRet h := h.2
  iret h := h.2
  panic := ⟨trivial, trivial⟩
  schedTop h := ⟨trivial, trivial, h.2⟩
  scan h := h
  ratio h := ⟨trivial, trivial, trivial, trivial, h.2⟩
  scanEnd h := ⟨trivial, trivial, h.2⟩
  switch h _ := h
  fairRatio h := h.2
  afterSwtch h := h
  op h := next_sequenced h
  forkret := ⟨trivial, trivial, trivial⟩
  syscall call _ := by
    have hall : (syscallTrap call).all Instr.free = true := by cases call <;> rfl
    have hcode := Sequenced.append (k := []) hall trivial
    rwa [List.append_nil] at hcode
  fault _ := ⟨trivial, trivial, trivial, trivial⟩
  timer user h := .append (m := timerTrap true user) rfl h
  device n user h := .append (m := deviceTrap n user) rfl h
  scheduler := ⟨trivial, trivial⟩

theorem stamped_embryo {guard : State 1 → Act 1 → Prop} (hs : Reaches cfg guard s) {np : Slot} {k : Code}
    (hstack : s.stack 0 = .op (.stampCtime np) :: k) : (s.data.proc np).state = .embryo := by
  have hcur := (hs.coded sequenced_rule).current
  rw [hstack] at hcur
  refine hs.solo.inv.owned_embryo 0 np ?_
  rw [hstack, owned_cons]
  exact List.mem_append_right _ hcur.1

end Xv6.Kernel
