import Xv6.KernelSteps

/-! Operations on the table, and the entries to the kernel, keep the invariant; with the steps of the
locks and the switches this covers the machine. -/

namespace Xv6.Kernel

variable {ncpu : Nat} {s t : State ncpu} {c : Fin ncpu} {x : Ctx} {k : Code}

section Operations

variable {policy : Policy} {cur : Option Slot} {choice : Choice} {d : Data} {o : Op}

theorem Op.mid_held (hfits : o.Fits x) : (o.mid x cur d).held = x.held := by
  cases o <;> first | rfl | (simp only [Op.Fits] at hfits; subst hfits; rfl)

theorem Op.mid_locked (hfits : o.Fits x) (hx : x.parked = true ∨ x.known ≠ .nothing → .ptable ∈ x.held) :
    (o.mid x cur d).parked = true ∨ (o.mid x cur d).known ≠ .nothing →
      .ptable ∈ (o.mid x cur d).held := by
  cases o with
  | setRunnable | exitScan | goSleep | reap | waitScan => exact fun _ => by simp [Op.mid]
  | _ => exact hx

theorem waitKnown_holds (d : Data) (cur : Option Slot) : (waitKnown d cur).Holds d.proc cur := by
  cases cur with
  | none => trivial
  | some p =>
    cases hz : findZombie p d.proc with
    | some np =>
      have hspec := findZombie_spec hz
      simpa [waitKnown, hz, Known.Holds] using hspec.symm
    | none => simpa [waitKnown, hz, Known.Holds] using findZombie_none hz

/-- What is known right behind an `Op` holds of the table it leaves. -/
theorem write_known (hfits : o.Fits x) (hx : x.known.Holds d.proc cur) :
    (o.mid x cur d).known.Holds (write policy cur choice d o).proc cur := by
  cases o with
  | waitScan two => exact waitKnown_holds d cur
  | kmemWork => exact hx
  | setRunnable | exitScan | goSleep | reap => trivial
  | wakeup1 chan =>
    have hnothing : x.known = .nothing := hfits.2.2
    simp only [Op.mid, hnothing]
    trivial
  | _ =>
    simp only [Op.Fits] at hfits
    subst hfits
    trivial

/-- The current process stands as the type right behind an `Op` says. -/
theorem write_stands {p : Slot} (hfits : o.Fits x) (hknown : x.known.Holds d.proc cur)
    (hcur : cur = some p) (hown : ∀ np, (Instr.op o).owns = some np → (d.proc np).state = .embryo)
    (hstands : ∀ q, cur = some q → Stands x (d.proc q).state) :
    Stands (o.mid x cur d) ((write policy cur choice d o).proc p).state := by
  have hp := hstands p hcur
  have hstep : Move (.ptable ∈ x.held) (Instr.op o).owns.toList (o.leaving cur) none p (d.proc p).state
      ((write policy cur choice d o).proc p).state :=
    (write_tableStep hfits hknown hstands hown).state p
  -- unless the operation parks the process, a process that is `RUNNING` stays so
  have hrunning : x.parked = false → o.leaving cur = none →
      ((write policy cur choice d o).proc p).state = .running := by
    intro hparked hleaving
    simp only [Stands, hparked, Bool.false_eq_true, if_false] at hp
    rw [hp, hleaving] at hstep
    generalize ((write policy cur choice d o).proc p).state = b at hstep
    cases hstep with
    | same => rfl
    | park _ hnone => cases hnone
  subst hcur
  cases o with
  | setRunnable | goSleep chan => simp [Op.mid, Stands, write, Data.onCur, Data.setProc]
  | exitScan => simp [Op.mid, Stands, write, exitTable_state]
  | kmemWork => exact hp
  | stampEtime => simpa [Op.mid, Stands, write, Data.onCur, Data.setProc] using hp
  | wakeup1 chan =>
    simp only [Op.mid, Stands, hfits.2.1]
    exact hrunning hfits.2.1 rfl
  | _ =>
    simp only [Op.Fits] at hfits
    subst hfits
    exact hrunning rfl rfl

/-- The new code of a `Next`. -/
def Next.code : Next → Code
  | .push code => code
  | .become code => code

theorem Next.mem_on {n : Next} {j : Instr} (hj : j ∈ n.on k) : j ∈ n.code ∨ j ∈ k := by
  cases n with
  | push code => exact List.mem_append.mp hj
  | become code => exact Or.inl hj

/-- The instructions that an operation may push: none of the scheduler, none of the handlers of
interrupts, and none that stands for an instruction half done. -/
def Instr.pushed (o : Op) : Instr → Bool
  | .acquire _ | .release _ | .sched | .panic => true
  | .op (.trapTail _ _) | .op .incTicks => false
  | .op (.stampCtime _) =>
    match o with
    | .kallocStack _ => true
    | _ => false
  | .op .exitScan =>
    match o with
    | .doExit => true
    | _ => false
  | .op _ => true
  | _ => false

theorem waitNext_pushed (d : Data) (p : Slot) (two : Bool) :
    (waitNext d p two).all (Instr.pushed (.waitScan two)) = true := by
  unfold waitNext
  cases findZombie p d.proc with
  | some np => rfl
  | none =>
    by_cases hret : haveKids p d.proc = false ∨ (d.proc p).killed = true
    · rw [if_pos hret]
      rfl
    · rw [if_neg hret]
      rfl

theorem trapNext_pushed (d : Data) (p : Slot) (user timer : Bool) :
    (trapNext policy d p user timer).code.all (Instr.pushed (.trapTail user timer)) = true := by
  unfold trapNext
  split
  · rfl
  · split
    · simp only [Next.code]
      split <;> split <;> rfl
    · rfl

/-- What an `Op` pushes. -/
theorem next_pushed : (next policy cur choice d o).code.all (Instr.pushed o) = true := by
  cases o with
  | wakeup1 | setRunnable | goSleep | clearChan | stampCtime | free | forkRun | exitScan | stampEtime
  | reap | kill | nice | incTicks | fault | sleepStart => rfl
  | allocScan =>
    simp only [next]
    cases findUnused d.proc <;> rfl
  | waitScan two =>
    cases cur with
    | none => rfl
    | some p => exact waitNext_pushed d p two
  | trapTail user timer =>
    cases cur with
    | none => rfl
    | some p => exact trapNext_pushed d p user timer
  | trapLow =>
    cases cur with
    | none => rfl
    | some p =>
      simp only [next, Next.code]
      split <;> rfl
  | kallocStack | copyuvm | trapKilled | checkKilled | kmemWork =>
    simp only [next]
    split <;> rfl
  | doExit =>
    simp only [next, Next.code]
    split <;> rfl
  | sleepLoop ticks0 n =>
    simp only [next]
    split
    · split <;> rfl
    · rfl
  | dups | fileWork | work | intrWork => cases choice <;> rfl

theorem pushed_process {i : Instr} (h : i.pushed o = true) : i.On .process = true := by
  cases i <;> first | rfl | cases h

theorem next_side {side : Side} (hside : (Instr.op o).On side = true)
    (hcur : side = .scheduler → cur = none) {j : Instr}
    (hj : j ∈ (next policy cur choice d o).on k) : j.On side = true ∨ j ∈ k := by
  rcases Next.mem_on hj with hj | hj
  · refine Or.inl ?_
    cases side with
    | process => exact pushed_process (List.all_eq_true.mp next_pushed j hj)
    | scheduler =>
      -- the operations of an interrupt handler without a process
      rw [hcur rfl] at hj
      have hall : (next policy none choice d o).code.all (Instr.On .scheduler) = true := by
        cases o with
        | intrWork n => cases choice <;> rfl
        | wakeup1 | incTicks | trapTail => rfl
        | _ => cases hside
      exact List.all_eq_true.mp hall j hj
  · exact Or.inr hj

/-- `allocproc` prepares the stack of the slot it creates a process in; no other stack is written. -/
theorem write_stack (policy : Policy) (cur : Option Slot) (choice : Choice) (d : Data) (o : Op)
    (p : Slot) : (write policy cur choice d o).stack p = d.stack p ∨
      (o = .kallocStack p ∧ (write policy cur choice d o).stack p = forkret) := by
  cases o with
  | kallocStack np =>
    simp only [write]
    split
    · grind
    · exact Or.inl rfl
  | setRunnable | goSleep | clearChan | stampEtime | nice | fault | exitScan | reap =>
    cases cur <;> exact Or.inl rfl
  | trapTail user timer =>
    cases cur with
    | none => exact Or.inl rfl
    | some q =>
      simp only [write]
      split <;> exact Or.inl rfl
  | trapLow =>
    cases cur with
    | none => exact Or.inl rfl
    | some q =>
      simp only [write]
      split <;> exact Or.inl rfl
  | allocScan =>
    simp only [write]
    split <;> exact Or.inl rfl
  | copyuvm np =>
    simp only [write]
    split <;> exact Or.inl rfl
  | _ => exact Or.inl rfl

/-- The slots a stack owns are in creation, and remain so until the stack lets them go. -/
theorem next_owned (hnodup : (owned (.op o :: k)).Nodup)
    (hembryo : ∀ np ∈ owned (.op o :: k), (d.proc np).state = .embryo)
    (htable : TableStep (.ptable ∈ x.held) (Instr.op o).owns.toList (o.leaving cur) none d.proc
      (write policy cur choice d o).proc) :
    (owned ((next policy cur choice d o).on k)).Nodup ∧
      ∀ np ∈ owned ((next policy cur choice d o).on k),
        ((write policy cur choice d o).proc np).state = .embryo ∧
          (np ∈ owned (.op o :: k) ∨ (d.proc np).state ≠ .embryo) := by
  have hkeep : ∀ np, (d.proc np).state = .embryo → np ∉ (Instr.op o).owns.toList →
      ((write policy cur choice d o).proc np).state = .embryo := by
    intro np hnp hnot
    have hmove := htable.state np
    rw [hnp] at hmove
    generalize ((write policy cur choice d o).proc np).state = b at hmove
    cases hmove with
    | same => rfl
    | free hmem | start hmem => exact absurd hmem hnot
  by_cases halloc : o = .allocScan
  · subst halloc
    rw [owned_next_allocScan]
    rw [owned_cons] at hnodup hembryo
    cases hfind : findUnused d.proc with
    | none =>
      refine ⟨hnodup, fun np hnp => ⟨hkeep np (hembryo np hnp) (by simp), Or.inl ?_⟩⟩
      simpa using hnp
    | some np =>
      have hunused := findUnused_state hfind
      have hfresh : np ∉ owned k := by
        intro hmem
        have := hembryo np (by simpa using hmem)
        rw [hunused] at this
        cases this
      refine ⟨by simpa [hfresh] using hnodup, fun q hq => ?_⟩
      simp only [Option.toList_some, List.cons_append, List.nil_append, List.mem_cons] at hq
      rcases hq with rfl | hq
      · refine ⟨by simp [write, hfind, Data.setProc], Or.inr (by simp [hunused])⟩
      · exact ⟨hkeep q (hembryo q (by simpa using hq)) (by simp), Or.inl (by simpa using hq)⟩
  · have hsub : (owned ((next policy cur choice d o).on k)).Sublist (owned (.op o :: k)) :=
      owned_next halloc k
    refine ⟨hsub.nodup hnodup, fun np hnp => ⟨?_, Or.inl (hsub.subset hnp)⟩⟩
    have hnp' := hembryo np (hsub.subset hnp)
    by_cases hown : np ∈ (Instr.op o).owns.toList
    · -- the slot is still owned, so the operation is not the one that lets it go
      cases o with
      | kallocStack a =>
        simp only [write]
        split <;> exact hnp'
      | copyuvm a =>
        simp only [write]
        split
        · by_cases hna : np = a
          · subst hna
            simpa [Data.setProc] using hnp'
          · simpa [Data.setProc, hna] using hnp'
        · exact hnp'
      | free a | forkRun a =>
        have hna : np = a := by simpa using hown
        subst hna
        exact absurd hnp (List.nodup_cons.mp hnodup).1
      | _ => exact absurd hown (by simp)
    · exact hkeep np hnp' hown

end Operations

theorem Inv.executing_cur (h : Inv s) {i : Instr} (hstack : s.stack c = i :: k)
    (hi : ∀ n, i ≠ .afterSwtch n) {p : Slot} (hp : (s.cpu c).proc = some p) : Executing s c p := by
  cases hon : (s.cpu c).onScheduler with
  | false => exact ⟨hon, hp⟩
  | true =>
    rw [h.proc_none hstack hi hon] at hp
    cases hp

theorem Inv.owned_embryo (h : Inv s) (c : Fin ncpu) :
    ∀ np ∈ owned (s.stack c), (s.data.proc np).state = .embryo := by
  intro np hnp
  rcases h.owned_stack c with ⟨p, -, hstack⟩ | ⟨-, hnil⟩
  · exact h.embryo p np (hstack ▸ hnp)
  · rw [hnil] at hnp
    cases hnp

theorem mem_owned_of_owns {i : Instr} {np : Slot} (h : i.owns = some np) (k : Code) :
    np ∈ owned (i :: k) := by
  rw [owned_cons, h]
  exact List.mem_cons_self

/-- An `Op` of a state of the invariant makes an admissible change of the table. -/
theorem Inv.op_tableStep {o : Op} (h : Inv s) (hx : CpuInv s c x) (hstack : s.stack c = .op o :: k)
    (policy : Policy) (choice : Choice) :
    TableStep (.ptable ∈ x.held) (Instr.op o).owns.toList (o.leaving (s.cpu c).proc) none s.data.proc
      (write policy (s.cpu c).proc choice s.data o).proc := by
  have hembryo := h.owned_embryo c
  rw [hstack] at hembryo
  exact write_tableStep (hx.stacked hstack nofun).op.1 hx.known
    (fun p hp => hx.stands p (h.executing_cur hstack nofun hp))
    fun np hnp => hembryo np (mem_owned_of_owns hnp k)

/-- An `Op` keeps the invariant. -/
theorem framed_op {policy : Policy} {choice : Choice} {o : Op} (h : Inv s) (hx : CpuInv s c x)
    (hstack : s.stack c = .op o :: k) :
    Framed s c ({ s with data := write policy (s.cpu c).proc choice s.data o }.setStack c
      ((next policy (s.cpu c).proc choice s.data o).on k)) := by
  have htyped := hx.stacked hstack nofun
  have hfits := htyped.op.1
  have hcur : ∀ p, (s.cpu c).proc = some p → Executing s c p := fun p => h.executing_cur hstack nofun
  have hembryo := h.owned_embryo c
  rw [hstack] at hembryo
  have hown : ∀ np, (Instr.op o).owns = some np → np ∈ owned (.op o :: k) := fun np hnp =>
    mem_owned_of_owns hnp k
  have htable : TableStep (.ptable ∈ x.held) (Instr.op o).owns.toList (o.leaving (s.cpu c).proc)
      none s.data.proc (write policy (s.cpu c).proc choice s.data o).proc := h.op_tableStep hx hstack policy choice
  let u : State ncpu := { s with data := write policy (s.cpu c).proc choice s.data o }
  let m := (next policy (s.cpu c).proc choice s.data o).on k
  change Framed s c (u.setStack c m)
  have hlocal : Local u (u.setStack c m) c := local_setStack u c m
  have ht : (u.setStack c m).stack c = m := setStack_stack (s := u) (h.shape c)
  have hexec : ∀ p, Executing (u.setStack c m) c p ↔ Executing s c p := hlocal.executing
  have hnext : Typed (o.mid x (s.cpu c).proc s.data) m := next_typed htyped
  have hside : ∀ j ∈ m, j.On (s.side c) = true := by
    have hall := h.side_stack c
    rw [hstack] at hall
    intro j hj
    refine (next_side (hall _ List.mem_cons_self) ?_ hj).elim id fun hj => hall j (List.mem_cons_of_mem _ hj)
    intro hsched
    cases hon : (s.cpu c).onScheduler with
    | true => exact h.proc_none hstack nofun hon
    | false => simp [State.side, hon] at hsched
  refine ⟨_, hx, ?_⟩
  constructor
  · exact hlocal.cpu
  · exact hlocal.lock
  · refine ⟨_, _, _, ?_, ?_, hlocal.table ▸ htable⟩
    · intro np hnp
      rw [hstack]
      exact hown np (by simpa using hnp)
    · intro p hp
      apply hcur
      cases o <;> first | exact hp | cases hp
  · intro p hp
    rw [hlocal.stack p hp]
    rcases write_stack policy (s.cpu c).proc choice s.data o p with hsame | ⟨rfl, hforkret⟩
    · exact Or.inl hsame
    · exact Or.inr ⟨hembryo p (hown p rfl), hforkret⟩
  · refine ⟨o.mid x (s.cpu c).proc s.data, ?_, ?_, ?_, Op.mid_locked hfits hx.locked, ?_, ?_, ?_, ?_⟩
    · rw [ht]
      exact hnext.stacked.1
    · rw [Op.mid_held hfits, setStack_lock]
      exact hx.held
    · rw [Op.mid_held hfits]
      exact hx.nodup
    · rw [ht, hnext.stacked.2, Op.mid_held hfits, setStack_ncli]
      have hncli := hx.ncli
      rwa [hstack] at hncli
    · rw [setStack_intr, setStack_ncli]
      exact hx.intr
    · rw [hlocal.table, hlocal.proc]
      exact write_known hfits hx.known
    · intro p hp
      rw [hlocal.table]
      have hp' := (hexec p).mp hp
      exact write_stands hfits hx.known hp'.2 (fun np hnp => hembryo np (hown np hnp))
        fun q hq => hx.stands q (hcur q hq)
  · exact Or.inl (ht.symm ▸ hnext.stacked.2)
  · have hshape := h.shape c
    cases hon : (s.cpu c).onScheduler with
    | true =>
      have hon' : ((u.setStack c m).cpu c).onScheduler = true := hlocal.onScheduler.trans hon
      rw [← ht, stack_of_scheduler hon'] at hside
      simp only [State.side, hon, if_true] at hside
      have hproc : ((u.setStack c m).cpu c).proc = none :=
        hlocal.proc.trans (h.proc_none hstack nofun hon)
      exact ⟨hside, fun _ => Or.inl hproc, by simp [hon'], by simp [hon']⟩
    | false =>
      have hon' : ((u.setStack c m).cpu c).onScheduler = false := hlocal.onScheduler.trans hon
      refine ⟨?_, by simp [hon'], ?_, ?_⟩
      · rw [hlocal.code hon]
        exact hshape.code
      · rw [hlocal.proc]
        exact fun _ => hshape.proc hon
      · rw [hlocal.code hon]
        exact fun _ => hshape.suspended hon
  · exact fun p hp => Or.inl ((hexec p).mp hp)
  · exact fun p hp hnot => absurd ((hexec p).mpr hp) hnot
  · intro p hp
    rw [← ((hexec p).mpr hp).stack, ht]
    simpa [State.side, hp.1] using hside
  · intro p hp
    have hstack' : s.data.stack p = .op o :: k := hp.stack.symm.trans hstack
    rw [← ((hexec p).mpr hp).stack, ht, hlocal.table, hstack']
    exact next_owned (hstack' ▸ h.ownedNodup p) hembryo htable

/-! The entries to the kernel. -/

/-- In user space, and wherever interrupts are enabled, no lock is held and nothing is relied on. -/
theorem CpuInv.free_of_intr (hx : CpuInv s c x) (hintr : (s.cpu c).intr = true) :
    x = {} ∧ Typed {} (s.stack c) := by
  have hncli := hx.ncli
  rw [hx.intr hintr] at hncli
  have hheld : x.held = [] := List.eq_nil_of_length_eq_zero (by omega)
  have hnot : ¬(x.parked = true ∨ x.known ≠ .nothing) := by
    intro hp
    have hmem := hx.locked hp
    rw [hheld] at hmem
    cases hmem
  have hx0 : x = {} := by
    obtain ⟨held, parked, known⟩ := x
    simp_all
  subst hx0
  refine ⟨rfl, ?_⟩
  have htyped := hx.typed
  cases hstack : s.stack c with
  | nil => rfl
  | cons i k =>
    rw [hstack] at htyped hncli
    cases i with
    | spin l => simp [spins] at hncli
    | _ => exact htyped

theorem CpuInv.free_of_user (hx : CpuInv s c x) (hu : s.InUser c) : x = {} ∧ Typed {} (s.stack c) := by
  have htyped := hx.typed
  rw [hu.2] at htyped ⊢
  exact ⟨htyped, rfl⟩

/-- Entering the kernel puts a handler on the current stack. -/
theorem Inv.enter (h : Inv s) (hx : CpuInv s c {}) (htyped : Typed {} (s.stack c)) {m : Code}
    (hm : Typed {} (m ++ s.stack c)) (hside : m.all (Instr.On (s.side c)) = true)
    (howned : owned m = []) {f : Cpu → Cpu} (hf : Stays f) (hncli : ∀ u, (f u).ncli = u.ncli) :
    Framed s c ((s.setStack c (m ++ s.stack c)).setCpu c f) := by
  have hlocal : Local s ((s.setStack c (m ++ s.stack c)).setCpu c f) c :=
    (local_setStack _ _ _).trans (local_setCpu hf)
  have ht : ((s.setStack c (m ++ s.stack c)).setCpu c f).stack c = m ++ s.stack c :=
    (setCpu_stack hf).trans (setStack_stack (h.shape c))
  have hncli0 : (((s.setStack c (m ++ s.stack c)).setCpu c f).cpu c).ncli = 0 := by
    rw [setCpu_cpu, hncli, setStack_ncli, hx.ncli, htyped.stacked.2]
    rfl
  refine hlocal.framed h hx (hlocal.cpuInv hx ?_ ?_ hx.nodup rfl trivial nofun ?_ (fun _ => hncli0))
    (Or.inl (ht.symm ▸ hm.stacked.2)) ?_ ?_ ?_
  · rw [ht]
    exact hm.stacked.1
  · rw [setCpu_lock, setStack_lock]
    exact hx.held
  · rw [hncli0, ht, hm.stacked.2]
    rfl
  · intro hon
    rcases (h.shape c).idleProc hon with hproc | ⟨n, j, hcode⟩
    · exact hproc
    · rw [stack_of_scheduler hon, hcode] at htyped
      simp [Typed] at htyped
  · grind [h.side_stack]
  · rw [ht, owned_append, howned]
    exact List.Sublist.refl _

theorem framed_interrupt (h : Inv s) {m : Code} (hm : ∀ k, Typed {} k → Typed {} (m ++ k))
    (hside : m.all (Instr.On (s.side c)) = true) (howned : owned m = [])
    (hfree : (s.cpu c).intr = true ∨ s.InUser c) : Framed s c (s.interrupt c m) := by
  obtain ⟨x, hx⟩ := h.cpu c
  obtain ⟨rfl, htyped⟩ : x = {} ∧ Typed {} (s.stack c) :=
    hfree.elim hx.free_of_intr hx.free_of_user
  exact h.enter hx htyped (hm _ htyped) hside howned ⟨fun _ => rfl, fun _ => rfl, fun _ => rfl⟩ fun _ => rfl

theorem framed_syscall {call : Syscall} (h : Inv s) (hu : s.InUser c) :
    Framed s c (s.setStack c (syscallTrap call)) := by
  obtain ⟨x, hx⟩ := h.cpu c
  obtain ⟨rfl, htyped⟩ := hx.free_of_user hu
  have hcode : syscallTrap call = syscallTrap call ++ s.stack c := by rw [hu.2, List.append_nil]
  rw [hcode, ← setCpu_id (s.setStack c _) c]
  refine h.enter hx htyped ?_ ?_ ?_ ⟨fun _ => rfl, fun _ => rfl, fun _ => rfl⟩ fun _ => rfl
  · rw [← hcode]
    exact syscallTrap_typed call
  · rw [State.side, hu.1]
    cases call <;> rfl
  · cases call <;> rfl

/-- The process a step switches to, if it is a dispatch. -/
def dispatches (cfg : Config) (s : State ncpu) : Act ncpu → Option Slot
  | .exec c _ =>
    match s.stack c with
    | .scanSlot p :: _ =>
      if h : p < nproc then
        match (examineSlot cfg s.data.proc (s.cpu c).locals ⟨p, h⟩).1 with
        | .switch q _ => some q
        | _ => none
      else none
    | _ => none
  | _ => none

/-- The step switches only to a `RUNNABLE` process. -/
def DispatchesRunnable (cfg : Config) (s : State ncpu) (a : Act ncpu) : Prop :=
  ∀ q, dispatches cfg s a = some q → (s.data.proc q).state = .runnable

theorem framed_exec {cfg : Config} {choice : Choice} (h : Inv s)
    (hguard : DispatchesRunnable cfg s (.exec c choice)) (hexec : exec cfg s c choice = some t) :
    Framed s c t := by
  obtain ⟨x, hx⟩ := h.cpu c
  cases hstack : s.stack c with
  | nil => simp [exec, hstack] at hexec
  | cons i k =>
    simp only [exec, hstack] at hexec
    cases i with
    | acquire l =>
      obtain ⟨hfree, hinv⟩ := framed_acquire h hx hstack
      rw [← Option.some.inj hexec, if_neg hfree]
      exact hinv
    | spin l =>
      simp only [execInstr] at hexec
      by_cases hfree : s.lock l = none
      · rw [if_pos hfree] at hexec
        exact Option.some.inj hexec ▸ framed_spin h hx hstack hfree
      · rw [if_neg hfree] at hexec
        cases hexec
    | release l => exact Option.some.inj hexec ▸ framed_release h hx hstack
    | sched => exact Option.some.inj hexec ▸ framed_sched h hx hstack
    | schedRet intena => exact Option.some.inj hexec ▸ framed_schedRet h hx hstack
    | iret => exact Option.some.inj hexec ▸ framed_iret h hx hstack
    | panic => exact Option.some.inj hexec ▸ framed_panic h hx hstack
    | schedTop => exact Option.some.inj hexec ▸ framed_schedTop h hx hstack
    | fairRatio p high =>
      rw [← Option.some.inj hexec]
      exact framed_fairRatio (f := fun l => { l with fair2q := Fair2q.record l.fair2q high p _ }) h hx hstack
    | afterSwtch n => exact Option.some.inj hexec ▸ framed_afterSwtch h hx hstack
    | op o => exact Option.some.inj hexec ▸ framed_op h hx hstack
    | scanSlot p =>
      rw [← Option.some.inj hexec]
      by_cases hp : p < nproc
      · rw [dif_pos hp]
        cases he : (examineSlot cfg s.data.proc (s.cpu c).locals ⟨p, hp⟩).1 with
        | switch q next =>
          have hq := hguard q (by simp [dispatches, hstack, hp, he])
          simp only [scan, he]
          exact framed_dispatch h hx hstack hq
        | skip | ratio | wild => exact framed_scan h hx hstack (by simp [he])
      · rw [dif_neg hp]
        exact framed_scanEnd h hx hstack

/-! What a step does to the shared data: nothing, a dispatch, or an `Op`. -/

theorem setStack_data (s : State ncpu) (c : Fin ncpu) (k : Code) :
    ∃ stack, (s.setStack c k).data = { s.data with stack := stack } := by
  unfold State.setStack
  split
  · exact ⟨_, rfl⟩
  · split <;> exact ⟨_, rfl⟩

/-- The step writes nothing but stacks. -/
def DataKept (s t : State ncpu) : Prop := ∃ stack, t.data = { s.data with stack := stack }

theorem dataKept_put (s : State ncpu) (c : Fin ncpu) (k : Code) (f : Cpu → Cpu) :
    DataKept s ((s.setStack c k).setCpu c f) := setStack_data s c k

theorem dataKept_release (s : State ncpu) (c : Fin ncpu) (l : Lock) (k : Code) :
    DataKept s (release s c l k) := by
  unfold release
  split
  · dsimp only
    split
    · exact setStack_data (s.setLock l none) c _
    · exact dataKept_put (s.setLock l none) c _ _
  · exact setStack_data s c _

theorem dataKept_sched (s : State ncpu) (c : Fin ncpu) (k : Code) : DataKept s (sched s c k) := by
  unfold sched
  split
  · exact setStack_data s c _
  · split
    · exact dataKept_put s c _ _
    · exact setStack_data s c _

/-- The three kinds of steps. -/
inductive DataStep (cfg : Config) (s t : State ncpu) (a : Act ncpu) : Prop
  | kept : dispatches cfg s a = none → DataKept s t → DataStep cfg s t a
  | dispatch (q : Slot) (c : Fin ncpu) (choice : Choice) (p : Nat) (k : Code) :
      a = .exec c choice → s.stack c = .scanSlot p :: k → dispatches cfg s a = some q →
      t.data = s.data.setProc q (fun p => { p with state := .running }) → DataStep cfg s t a
  | op (c : Fin ncpu) (choice : Choice) (o : Op) (k : Code) (stack : Slot → Code) :
      a = .exec c choice → s.stack c = .op o :: k → dispatches cfg s a = none →
      t.data = { write cfg.policy (s.cpu c).proc choice s.data o with stack := stack } →
      DataStep cfg s t a

theorem dataStep {cfg : Config} {a : Act ncpu} (hstep : step cfg s a = some t) :
    DataStep cfg s t a := by
  cases a with
  | exec c choice =>
    cases hstack : s.stack c with
    | nil => simp [Kernel.step, exec, hstack] at hstep
    | cons i k =>
      simp only [Kernel.step, exec, hstack] at hstep
      cases i with
      | scanSlot p =>
        have ht := Option.some.inj hstep
        by_cases hp : p < nproc
        · rw [dif_pos hp] at ht
          cases he : (examineSlot cfg s.data.proc (s.cpu c).locals ⟨p, hp⟩).1 with
          | switch q next =>
            refine .dispatch q c choice p k rfl hstack (by simp [dispatches, hstack, hp, he]) ?_
            rw [← ht]
            simp [scan, he, State.dispatch]
          | skip | ratio | wild =>
            refine .kept (by simp [dispatches, hstack, hp, he]) ?_
            rw [← ht]
            simp only [scan, he]
            exact dataKept_put s c _ _
        · rw [dif_neg hp] at ht
          exact .kept (by simp [dispatches, hstack, hp]) (ht ▸ setStack_data s c _)
      | spin l =>
        simp only [execInstr] at hstep
        split at hstep
        · refine .kept (by simp [dispatches, hstack]) ?_
          rw [← Option.some.inj hstep]
          exact setStack_data (s.setLock l (some c)) c k
        · cases hstep
      | op o =>
        obtain ⟨stack, hdata⟩ := setStack_data
          { s with data := write cfg.policy (s.cpu c).proc choice s.data o } c
          ((next cfg.policy (s.cpu c).proc choice s.data o).on k)
        exact .op c choice o k stack rfl hstack (by simp [dispatches, hstack])
          ((congrArg State.data (Option.some.inj hstep)).symm.trans hdata)
      | release l =>
        exact .kept (by simp [dispatches, hstack]) (Option.some.inj hstep ▸ dataKept_release s c l k)
      | sched =>
        exact .kept (by simp [dispatches, hstack]) (Option.some.inj hstep ▸ dataKept_sched s c k)
      | _ =>
        exact .kept (by simp [dispatches, hstack]) (Option.some.inj hstep ▸ dataKept_put s c _ _)
  | syscall c call | fault c | timer c | device c n =>
    simp only [Kernel.step] at hstep
    split at hstep
    · exact .kept rfl (Option.some.inj hstep ▸ setStack_data s c _)
    · cases hstep

theorem timerTrap_side (cpu0 user : Bool) (side : Side) :
    (timerTrap cpu0 user).all (Instr.On side) = true := by
  cases cpu0 <;> cases side <;> rfl

theorem deviceTrap_side (n : Nat) (user : Bool) (side : Side) :
    (deviceTrap n user).all (Instr.On side) = true := by
  cases side <;> rfl

/-- The cpu that makes a step. -/
def Act.cpu : Act ncpu → Fin ncpu
  | .exec c _ | .syscall c _ | .fault c | .timer c | .device c _ => c

/-- A step that switches to no process but a `RUNNABLE` one stays within its frame. -/
theorem framed_step {cfg : Config} {a : Act ncpu} (h : Inv s) (hguard : DispatchesRunnable cfg s a)
    (hstep : step cfg s a = some t) : Framed s a.cpu t := by
  cases a with
  | exec c choice => exact framed_exec h hguard hstep
  | syscall c call =>
    simp only [Kernel.step] at hstep
    split at hstep
    · rename_i hu
      exact Option.some.inj hstep ▸ framed_syscall h hu
    · cases hstep
  | fault c =>
    simp only [Kernel.step] at hstep
    split at hstep
    · rename_i hu
      rw [← Option.some.inj hstep]
      refine framed_interrupt h (fun _ => faultTrap_typed) ?_ rfl (Or.inr hu)
      rw [State.side, Act.cpu, hu.1]
      rfl
    · cases hstep
  | timer c =>
    simp only [Kernel.step] at hstep
    split at hstep
    · rename_i hintr
      rw [← Option.some.inj hstep]
      refine framed_interrupt h (fun _ => timerTrap_typed _ _) (timerTrap_side _ _ _) ?_ (Or.inl hintr)
      unfold timerTrap
      split <;> rfl
    · cases hstep
  | device c n =>
    simp only [Kernel.step] at hstep
    split at hstep
    · rename_i hintr
      rw [← Option.some.inj hstep]
      exact framed_interrupt h (fun _ => deviceTrap_typed _ _) (deviceTrap_side _ _ _) rfl (Or.inl hintr)
    · cases hstep

theorem boot_inv : Inv (boot : State ncpu) where
  cpu c := by
    refine ⟨{}, ?_, ?_, List.nodup_nil, nofun, rfl, nofun, trivial, nofun⟩
    · simp [boot, State.stack, Stacked, Typed]
    · simp [boot]
  shape c := ⟨by simp [boot, Instr.On], fun _ => Or.inl rfl, nofun, nofun⟩
  off p _ := by
    simp only [boot]
    split
    · exact forkret_typed
    · exact Typed.panic _ _
  once c d p hc := by cases hc.1
  code p := by
    simp only [boot]
    split <;> decide
  embryo p np hnp := by
    simp only [boot] at hnp
    split at hnp <;> cases hnp
  ownedNodup p := by
    simp only [boot]
    split <;> exact List.nodup_nil
  ownedOnce p q np hnp := by
    simp only [boot] at hnp
    split at hnp <;> cases hnp

theorem Reaches.inv {cfg : Config} {guard : State ncpu → Act ncpu → Prop}
    (hguard : ∀ s a, guard s a → DispatchesRunnable cfg s a) (hs : Reaches cfg guard s) : Inv s := by
  apply LibRun.Reachable.invariant _ _ hs
  · rintro _ rfl
    exact boot_inv
  · rintro s t - h ⟨a, hga, hstep⟩
    exact (framed_step h (hguard s a hga) hstep).inv h

end Xv6.Kernel
