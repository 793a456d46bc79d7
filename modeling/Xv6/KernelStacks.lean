import Xv6.KernelTraps

/-! What a step of the only cpu makes of the kernel stacks, once for all properties of stacks that follow
the course of a run. -/

namespace Xv6.Kernel

section Steps

variable {ncpu : Nat} {cfg : Config} {s t : State ncpu} {a : Act ncpu} {c : Fin ncpu}

/-- A cpu comes to execute a process by a dispatch only. -/
theorem executing_step (hstep : step cfg s a = some t) {p : Slot} (hp : Executing t a.cpu p) :
    Executing s a.cpu p ∨ dispatches cfg s a = some p := by
  have hput : ∀ {u : State ncpu} {c : Fin ncpu} {code : Code} {f : Cpu → Cpu}, Stays f →
      u.cpu = s.cpu → Executing ((u.setStack c code).setCpu c f) c p → Executing s c p := by
    intro u c code f hf hu hex
    rwa [((local_setStack u c code).trans (local_setCpu hf)).executing p, Executing, hu] at hex
  have hset : ∀ {u : State ncpu} {c : Fin ncpu} {code : Code}, u.cpu = s.cpu →
      Executing (u.setStack c code) c p → Executing s c p := by
    intro u c code hu hex
    rwa [(local_setStack u c code).executing p, Executing, hu] at hex
  have hstays : ∀ {l : Locals}, Stays fun u => { u with locals := l } :=
    ⟨fun _ => rfl, fun _ => rfl, fun _ => rfl⟩
  cases a with
  | exec c choice =>
    cases hstack : s.stack c with
    | nil => simp [step, exec, hstack] at hstep
    | cons i k =>
      simp only [step, exec, hstack] at hstep
      cases i with
      | sched =>
        rw [← Option.some.inj hstep, sched] at hp
        left
        split at hp
        · exact hset rfl hp
        · split at hp
          · simp [Executing, Act.cpu] at hp
          · exact hset rfl hp
      | afterSwtch n =>
        rw [← Option.some.inj hstep] at hp
        simp [Executing, Act.cpu] at hp
      | scanSlot r =>
        rw [← Option.some.inj hstep] at hp
        split at hp
        · rename_i hr
          simp only [scan] at hp
          split at hp
          · exact Or.inl (hput hstays rfl hp)
          · exact Or.inl (hput hstays rfl hp)
          · rename_i he
            right
            have hq := hp.2
            simp only [State.dispatch, Act.cpu, Function.update_self] at hq
            simp [dispatches, hstack, hr, he, hq]
          · exact Or.inl (hput hstays rfl hp)
        · exact Or.inl (hset rfl hp)
      | _ => exact Or.inl ((execInstr_place hstep (by simp) (by simp) (by simp) p).mp hp)
  | syscall c call =>
    simp only [step] at hstep
    split at hstep
    · rw [← Option.some.inj hstep] at hp
      exact Or.inl (hset rfl hp)
    · cases hstep
  | fault c | timer c | device c n =>
    simp only [step] at hstep
    split at hstep
    · rw [← Option.some.inj hstep] at hp
      exact Or.inl (((local_interrupt s c _).executing p).mp hp)
    · cases hstep

/-- The stack and the interrupt flag after an operation. -/
theorem op_step (hinv : Inv s) {choice : Choice} {o : Op} {k : Code} (hstack : s.stack c = .op o :: k)
    (hstep : step cfg s (.exec c choice) = some t) :
    t.stack c = (next cfg.policy (s.cpu c).proc choice s.data o).on k ∧ (t.cpu c).intr = (s.cpu c).intr := by
  simp only [step, exec, hstack] at hstep
  rw [← Option.some.inj hstep]
  have ht := setStack_stack (k := (next cfg.policy (s.cpu c).proc choice s.data o).on k)
    (s := { s with data := write cfg.policy (s.cpu c).proc choice s.data o }) (hinv.shape c)
  exact ⟨ht, setStack_intr _ c _⟩

end Steps

/-- The stack the cpu is on after a step: the same one, which has gone on, or another. -/
inductive StackStep (cfg : Config) (s t : State 1) (a : Act 1) : Prop
  | acquire (l : Lock) (k : Code) : s.stack 0 = .acquire l :: k → t.stack 0 = .spin l :: k →
      StackStep cfg s t a
  | past (i : Instr) (k : Code) : s.stack 0 = i :: k →
      (∃ l, i = .spin l) ∨ (∃ l, i = .release l) ∨ (∃ b, i = .schedRet b) ∨ i = .iret →
      t.stack 0 = k → StackStep cfg s t a
  | panic (i : Instr) (k : Code) : s.stack 0 = i :: k → i = .panic ∨ i.On .process = false →
      t.stack 0 = [.panic] → StackStep cfg s t a
  | scheduler (i : Instr) (m k : Code) : s.stack 0 = i :: k → i.On .process = false →
      (∀ j ∈ m, ∀ o, j ≠ .op o) → t.stack 0 = m ++ k → StackStep cfg s t a
  | leave (k : Code) : s.stack 0 = .sched :: k → (s.cpu 0).onScheduler = false →
      t.stack 0 = (s.cpu 0).code → StackStep cfg s t a
  | enter (q : Slot) : dispatches cfg s a = some q → (s.cpu 0).onScheduler = true →
      t.stack 0 = s.data.stack q → StackStep cfg s t a
  | op (choice : Choice) (o : Op) (k : Code) : a = .exec 0 choice → s.stack 0 = .op o :: k →
      t.stack 0 = (next cfg.policy (s.cpu 0).proc choice s.data o).on k → StackStep cfg s t a
  | syscall (call : Syscall) : s.stack 0 = [] → t.stack 0 = syscallTrap call → StackStep cfg s t a
  | fault : s.stack 0 = [] → t.stack 0 = faultTrap → StackStep cfg s t a
  | timer (user : Bool) : a = .timer 0 → (s.cpu 0).intr = true →
      t.stack 0 = timerTrap true user ++ s.stack 0 → StackStep cfg s t a
  | device (n : Nat) (user : Bool) : a = .device 0 n → (s.cpu 0).intr = true →
      t.stack 0 = deviceTrap n user ++ s.stack 0 → StackStep cfg s t a

variable {cfg : Config} {s t : State 1} {a : Act 1}

theorem put_stack (hshape : CpuShape (s.cpu 0)) {k : Code} {f : Cpu → Cpu} (hf : Stays f) :
    ((s.setStack 0 k).setCpu 0 f).stack 0 = k := by
  rw [setCpu_stack hf, setStack_stack hshape]

theorem stackStep_exec (hinv : Inv s) {choice : Choice} {i : Instr} {k : Code}
    (hstack : s.stack 0 = i :: k) (hstep : step cfg s (.exec 0 choice) = some t) :
    StackStep cfg s t (.exec 0 choice) := by
  obtain ⟨x, hx⟩ := hinv.cpu 0
  have hshape := hinv.shape 0
  have hlocals : ∀ {l : Locals}, Stays fun u => { u with locals := l } :=
    ⟨fun _ => rfl, fun _ => rfl, fun _ => rfl⟩
  cases i with
  | op o => exact .op choice o k rfl hstack (op_step hinv hstack hstep).1
  | acquire l =>
    simp only [step, exec, hstack] at hstep
    obtain ⟨hfree, -⟩ := framed_acquire hinv hx hstack
    refine .acquire l k hstack ?_
    rw [← Option.some.inj hstep, put_stack hshape stays_pushcli, if_neg hfree]
  | spin l =>
    simp only [step, exec, hstack, execInstr] at hstep
    split at hstep
    · refine .past _ k hstack (Or.inl ⟨l, rfl⟩) ?_
      rw [← Option.some.inj hstep]
      exact setStack_stack (s := s.setLock l (some 0)) hshape
    · cases hstep
  | release l =>
    simp only [step, exec, hstack] at hstep
    obtain ⟨-, -, hrelease⟩ := release_eq hx hstack
    refine .past _ k hstack (Or.inr (Or.inl ⟨l, rfl⟩)) ?_
    rw [← Option.some.inj hstep, hrelease]
    exact put_stack (s := s.setLock l none) hshape stays_popcli
  | sched =>
    simp only [step, exec, hstack] at hstep
    obtain ⟨-, -, -, p, hexec, hsched⟩ := sched_eq hinv hx hstack
    refine .leave k hstack hexec.1 ?_
    rw [← Option.some.inj hstep, hsched]
    simp [State.leave, State.stack]
  | schedRet b =>
    simp only [step, exec, hstack] at hstep
    refine .past _ k hstack (Or.inr (Or.inr (Or.inl ⟨b, rfl⟩))) ?_
    rw [← Option.some.inj hstep]
    exact put_stack hshape ⟨fun _ => rfl, fun _ => rfl, fun _ => rfl⟩
  | iret =>
    simp only [step, exec, hstack] at hstep
    refine .past _ k hstack (Or.inr (Or.inr (Or.inr rfl))) ?_
    rw [← Option.some.inj hstep]
    exact put_stack hshape ⟨fun _ => rfl, fun _ => rfl, fun _ => rfl⟩
  | panic =>
    simp only [step, exec, hstack] at hstep
    refine .panic _ k hstack (Or.inl rfl) ?_
    rw [← Option.some.inj hstep]
    exact put_stack hshape ⟨fun _ => rfl, fun _ => rfl, fun _ => rfl⟩
  | schedTop =>
    simp only [step, exec, hstack] at hstep
    refine .scheduler _ [.acquire .ptable, .scanSlot 0] k hstack rfl (by simp) ?_
    rw [← Option.some.inj hstep]
    exact put_stack hshape ⟨fun _ => rfl, fun _ => rfl, fun _ => rfl⟩
  | fairRatio p high =>
    simp only [step, exec, hstack] at hstep
    refine .scheduler _ [] k hstack rfl (by simp) ?_
    rw [← Option.some.inj hstep]
    exact put_stack hshape ⟨fun _ => rfl, fun _ => rfl, fun _ => rfl⟩
  | afterSwtch n =>
    simp only [step, exec, hstack] at hstep
    have hon := hinv.on_scheduler hstack rfl
    refine .scheduler _ [.scanSlot n] k hstack rfl (by simp) ?_
    rw [← Option.some.inj hstep]
    simp [State.stack, State.setStack, State.setCpu, hon]
  | scanSlot p =>
    have hon := hinv.on_scheduler hstack rfl
    cases hd : dispatches cfg s (.exec 0 choice) with
    | some q =>
      obtain ⟨c, choice', p, k, l, next, -, -, rfl⟩ := dispatch_eq hd hstep
      obtain rfl : c = 0 := Subsingleton.elim _ _
      exact .enter q hd hon (by simp [State.dispatch, State.stack, Data.setProc])
    | none =>
      simp only [step, exec, hstack] at hstep
      rw [← Option.some.inj hstep]
      split
      · rename_i hp
        simp only [dispatches, hstack, dif_pos hp] at hd
        simp only [scan]
        split at hd
        · cases hd
        · cases he : (examineSlot cfg s.data.proc (s.cpu 0).locals ⟨p, hp⟩).1 with
          | skip =>
            exact .scheduler _ [.scanSlot (p + 1)] k hstack rfl (by simp) (put_stack hshape hlocals)
          | ratio high =>
            exact .scheduler _ (clockticks (.fairRatio ⟨p, hp⟩ high) ++ [.scanSlot (p + 1)]) k hstack
              rfl (by simp [clockticks]) (put_stack hshape hlocals)
          | switch q next =>
            rename_i hne
            exact absurd he (hne q next)
          | wild => exact .panic _ k hstack (Or.inr rfl) (put_stack hshape hlocals)
      · exact .scheduler _ [.release .ptable, .schedTop] k hstack rfl (by simp) (setStack_stack hshape)

theorem stackStep (hinv : Inv s) (hstep : step cfg s a = some t) : StackStep cfg s t a := by
  cases a with
  | exec c choice =>
    obtain rfl : c = 0 := Subsingleton.elim _ _
    cases hstack : s.stack 0 with
    | nil => simp [step, exec, hstack] at hstep
    | cons i k => exact stackStep_exec hinv hstack hstep
  | syscall c call =>
    obtain rfl : c = 0 := Subsingleton.elim _ _
    simp only [step] at hstep
    split at hstep
    · rename_i hu
      exact .syscall call hu.2 (Option.some.inj hstep ▸ setStack_stack (hinv.shape 0))
    · cases hstep
  | fault c =>
    obtain rfl : c = 0 := Subsingleton.elim _ _
    simp only [step] at hstep
    split at hstep
    · rename_i hu
      refine .fault hu.2 ?_
      rw [← Option.some.inj hstep, interrupt_stack hinv, hu.2, List.append_nil]
    · cases hstep
  | timer c =>
    obtain rfl : c = 0 := Subsingleton.elim _ _
    simp only [step] at hstep
    split at hstep
    · rename_i hon
      exact .timer _ rfl hon (Option.some.inj hstep ▸ interrupt_stack hinv _)
    · cases hstep
  | device c n =>
    obtain rfl : c = 0 := Subsingleton.elim _ _
    simp only [step] at hstep
    split at hstep
    · rename_i hon
      exact .device n _ rfl hon (Option.some.inj hstep ▸ interrupt_stack hinv _)
    · cases hstep

/-- The stack of a process the cpu is not on changes only when `fork` prepares it. -/
theorem stack_off (hinv : Inv s) (hstep : step cfg s a = some t) {p : Slot} (hp : ¬Executing s 0 p) :
    t.data.stack p = s.data.stack p ∨ t.data.stack p = forkret := by
  cases hd : dispatches cfg s a with
  | some q =>
    obtain ⟨c, choice, r, k, l, next, -, -, rfl⟩ := dispatch_eq hd hstep
    exact Or.inl rfl
  | none =>
    obtain ⟨x, -, hframe⟩ := framed_step hinv (fun q hq => by simp [hd] at hq) hstep
    have hcpu : a.cpu = 0 := Subsingleton.elim _ _
    exact (hframe.stack p (hcpu ▸ hp)).imp_right fun h => h.2

/-- A process leaves the cpu in `sched`. -/
theorem stack_left (hinv : Inv s) (hstep : step cfg s a = some t) {p : Slot} (hp : Executing s 0 p)
    (hleft : ¬Executing t 0 p) :
    ∃ k, s.stack 0 = .sched :: k ∧ t.data.stack p = .schedRet (s.cpu 0).intena :: k := by
  cases a with
  | exec c choice =>
    obtain rfl : c = 0 := Subsingleton.elim _ _
    cases hstack : s.stack 0 with
    | nil => simp [step, exec, hstack] at hstep
    | cons i k =>
      simp only [step, exec, hstack] at hstep
      have hside := hinv.side_stack 0 i (hstack ▸ List.mem_cons_self)
      simp only [State.side, hp.1, Bool.false_eq_true, if_false] at hside
      cases i with
      | sched =>
        obtain ⟨x, hx⟩ := hinv.cpu 0
        obtain ⟨-, -, -, q, hq, hsched⟩ := sched_eq hinv hx hstack
        obtain rfl : q = p := Option.some.inj (hq.2.symm.trans hp.2)
        refine ⟨k, rfl, ?_⟩
        rw [← Option.some.inj hstep, hsched]
        simp [State.leave]
      | scanSlot | afterSwtch => cases hside
      | _ => exact absurd ((execInstr_place hstep (by simp) (by simp) (by simp) p).mpr hp) hleft
  | syscall c call =>
    obtain rfl : c = 0 := Subsingleton.elim _ _
    simp only [step] at hstep
    split at hstep
    · rw [← Option.some.inj hstep] at hleft
      exact absurd (((local_setStack s 0 _).executing p).mpr hp) hleft
    · cases hstep
  | fault c | timer c | device c n =>
    obtain rfl : c = 0 := Subsingleton.elim _ _
    simp only [step] at hstep
    split at hstep
    · rw [← Option.some.inj hstep] at hleft
      exact absurd (((local_interrupt s 0 _).executing p).mpr hp) hleft
    · cases hstep

end Xv6.Kernel
