import Xv6.ProcReap

/-! The states of a process. A process is `RUNNING` exactly while a cpu runs it, its state changes along
the arrows of the life cycle only, and what `wait` frees no cpu is using. -/

namespace Xv6.Kernel

/-- The life cycle of a process. -/
inductive Follows : ProcState → ProcState → Prop
  | alloc : Follows .unused .embryo
  | start : Follows .embryo .runnable
  | fail : Follows .embryo .unused
  | dispatch : Follows .runnable .running
  | yield : Follows .running .runnable
  | sleep : Follows .running .sleeping
  | exit : Follows .running .zombie
  | wake : Follows .sleeping .runnable
  | reap : Follows .zombie .unused

/-- The process whose kernel stack and page directory the code is freeing: `wait` and `wait2` between
their scan and the end of their work on the zombie. -/
def freeing : Code → Option Slot
  | .op (.reap np _) :: _ => some np
  | .op .kmemWork :: k | .acquire .kmem :: k | .spin .kmem :: k | .release .kmem :: k => freeing k
  | _ => none

variable {ncpu : Nat} {s t : State ncpu} {cfg : Config} {a : Act ncpu} {c : Fin ncpu} {x : Ctx}

/-- An operation moves a process along the life cycle. -/
theorem Inv.follows_op (h : Inv s) (hx : CpuInv s c x) {o : Op} {k : Code}
    (hstack : s.stack c = .op o :: k) (policy : Policy) (choice : Choice) (p : Slot) :
    ((write policy (s.cpu c).proc choice s.data o).proc p).state = (s.data.proc p).state ∨
      Follows (s.data.proc p).state ((write policy (s.cpu c).proc choice s.data o).proc p).state := by
  have hmove := (h.op_tableStep hx hstack policy choice).state p
  -- a process that parks is left in one of three states
  have hpark : o.leaving (s.cpu c).proc = some p → Stands .parking
      ((write policy (s.cpu c).proc choice s.data o).proc p).state := by
    intro hleaving
    cases o with
    | setRunnable | goSleep | exitScan =>
      refine write_stands (x := x) (hx.stacked hstack nofun).op.1 hx.known hleaving nofun ?_
      exact fun q hq => hx.stands q (h.executing_cur hstack nofun hq)
    | _ => cases hleaving
  generalize ((write policy (s.cpu c).proc choice s.data o).proc p).state = b at hmove hpark
  generalize (s.data.proc p).state = b₀ at hmove
  cases hmove with
  | same => exact Or.inl rfl
  | wake => exact Or.inr .wake
  | alloc => exact Or.inr .alloc
  | free => exact Or.inr .fail
  | start => exact Or.inr .start
  | run _ hnone => cases hnone
  | reap => exact Or.inr .reap
  | park _ hcur =>
    have hstands := hpark hcur
    simp only [Stands, Ctx.parking, if_true] at hstands
    rcases hstands with rfl | rfl | rfl
    · exact Or.inr .yield
    · exact Or.inr .sleep
    · exact Or.inr .exit

/-- Every step moves a process along the life cycle. -/
theorem Inv.follows_step (h : Inv s) (hrun : DispatchesRunnable cfg s a) (hstep : step cfg s a = some t)
    (p : Slot) : (t.data.proc p).state = (s.data.proc p).state ∨
      Follows (s.data.proc p).state (t.data.proc p).state := by
  cases dataStep hstep with
  | kept _ hdata =>
    obtain ⟨stack, hdata⟩ := hdata
    rw [hdata]
    exact Or.inl rfl
  | dispatch q c choice p' k _ _ hd hdata =>
    rw [hdata]
    by_cases hp : p = q
    · subst hp
      right
      rw [hrun p hd]
      simpa [Data.setProc] using Follows.dispatch
    · simp [Data.setProc, hp]
  | op c choice o k stack _ hstack _ hdata =>
    obtain ⟨x, hx⟩ := h.cpu c
    rw [hdata]
    exact h.follows_op hx hstack cfg.policy choice p

/-- Only a switch changes the process a cpu is on. -/
theorem execInstr_place {choice : Choice} {i : Instr} {k : Code}
    (hstep : execInstr cfg s c choice k i = some t) (hsched : i ≠ .sched)
    (hscan : ∀ p, i ≠ .scanSlot p) (hafter : ∀ n, i ≠ .afterSwtch n) (p : Slot) :
    Executing t c p ↔ Executing s c p := by
  have hput : ∀ {u : State ncpu} {code : Code} {f : Cpu → Cpu}, Stays f → u.cpu = s.cpu →
      (Executing ((u.setStack c code).setCpu c f) c p ↔ Executing s c p) := by
    intro u code f hf hu
    rw [((local_setStack u c code).trans (local_setCpu hf)).executing p, Executing, Executing, hu]
  have hset : ∀ {u : State ncpu} {code : Code}, u.cpu = s.cpu →
      (Executing (u.setStack c code) c p ↔ Executing s c p) := by
    intro u code hu
    rw [(local_setStack u c code).executing p, Executing, Executing, hu]
  cases i with
  | sched => exact absurd rfl hsched
  | scanSlot q => exact absurd rfl (hscan q)
  | afterSwtch n => exact absurd rfl (hafter n)
  | acquire l => exact Option.some.inj hstep ▸ hput stays_pushcli rfl
  | spin l =>
    simp only [execInstr] at hstep
    split at hstep
    · rw [← Option.some.inj hstep]
      exact hset (u := s.setLock l (some c)) rfl
    · cases hstep
  | release l =>
    rw [← Option.some.inj hstep, release]
    split
    · dsimp only
      split
      · exact hset (u := s.setLock l none) rfl
      · exact hput (u := s.setLock l none) stays_popcli rfl
    · exact hset rfl
  | op o =>
    rw [← Option.some.inj hstep]
    exact hset (u := { s with data := write cfg.policy (s.cpu c).proc choice s.data o }) rfl
  | schedRet | iret | panic | schedTop | fairRatio =>
    exact Option.some.inj hstep ▸ hput ⟨fun _ => rfl, fun _ => rfl, fun _ => rfl⟩ rfl

theorem local_interrupt (s : State ncpu) (c : Fin ncpu) (m : Code) : Local s (s.interrupt c m) c :=
  (local_setStack s c _).trans (local_setCpu ⟨fun _ => rfl, fun _ => rfl, fun _ => rfl⟩)

/-- A `RUNNING` process executes on a cpu. -/
def Runs (s : State ncpu) : Prop := ∀ p, (s.data.proc p).state = .running → ∃ c, Executing s c p

/-- A process leaves its cpu in `sched` only, where it is not `RUNNING`. -/
theorem Inv.stays_executing (h : Inv s) (hstep : step cfg s a = some t) {p : Slot}
    (hexec : Executing s a.cpu p) (hrunning : (s.data.proc p).state = .running) :
    Executing t a.cpu p := by
  cases a with
  | exec c choice =>
    change Executing s c p at hexec
    cases hstack : s.stack c with
    | nil => simp [step, exec, hstack] at hstep
    | cons i k =>
      have hstep : execInstr cfg s c choice k i = some t := by
        simpa [step, exec, hstack] using hstep
      have hside : i.On .process = true := by
        have hside := h.side_stack c i (hstack ▸ List.mem_cons_self)
        simpa [State.side, hexec.1] using hside
      cases i with
      | sched =>
        rw [← Option.some.inj hstep, sched, hexec.2]
        simp only [ne_eq, hrunning, not_true_eq_false, false_and, and_false, if_false]
        exact ((local_setStack s c _).executing p).mpr hexec
      | scanSlot | afterSwtch => cases hside
      | _ => exact (execInstr_place hstep (by simp) (by simp) (by simp) p).mpr hexec
  | syscall c call =>
    simp only [Kernel.step] at hstep
    split at hstep
    · rw [← Option.some.inj hstep]
      exact ((local_setStack s c _).executing p).mpr hexec
    · cases hstep
  | fault c | timer c | device c n =>
    simp only [Kernel.step] at hstep
    split at hstep
    · rw [← Option.some.inj hstep]
      exact ((local_interrupt s c _).executing p).mpr hexec
    · cases hstep

/-- A switch makes the cpu execute the process. -/
theorem executing_of_dispatch {q : Slot} (hstep : step cfg s a = some t)
    (hd : dispatches cfg s a = some q) : Executing t a.cpu q := by
  cases a with
  | exec c choice =>
    simp only [dispatches] at hd
    split at hd
    · rename_i p k hstack
      split at hd
      · rename_i hp
        split at hd
        · rename_i r n he
          cases hd
          simp only [Kernel.step, exec, hstack, execInstr, dif_pos hp, scan, he] at hstep
          rw [← Option.some.inj hstep]
          simp [Executing, State.dispatch, Act.cpu]
        · cases hd
      · cases hd
    · cases hd
  | _ => cases hd

theorem Runs.step (hruns : Runs s) (h : Inv s) (hrun : DispatchesRunnable cfg s a)
    (hstep : step cfg s a = some t) : Runs t := by
  obtain ⟨x, hx, hf⟩ := framed_step h hrun hstep
  intro p hp
  have hold : (s.data.proc p).state = .running → ∃ c, Executing t c p := by
    intro hrunning
    obtain ⟨c, hc⟩ := hruns p hrunning
    by_cases hca : c = a.cpu
    · subst hca
      exact ⟨_, h.stays_executing hstep hc hrunning⟩
    · exact ⟨c, (hf.executing_other hca p).mpr hc⟩
  cases dataStep hstep with
  | kept _ hdata =>
    obtain ⟨stack, hdata⟩ := hdata
    rw [hdata] at hp
    exact hold hp
  | dispatch q c choice p' k _ _ hd hdata =>
    by_cases hpq : p = q
    · subst hpq
      exact ⟨_, executing_of_dispatch hstep hd⟩
    · rw [hdata] at hp
      exact hold (by simpa [Data.setProc, hpq] using hp)
  | op c choice o k stack _ hstack _ hdata =>
    obtain ⟨y, hy⟩ := h.cpu c
    rw [hdata] at hp
    have hmove := (h.op_tableStep hy hstack cfg.policy choice).state p
    change ((write cfg.policy (s.cpu c).proc choice s.data o).proc p).state = .running at hp
    rw [hp] at hmove
    generalize hb : (s.data.proc p).state = b at hmove
    cases hmove with
    | same => exact hold hb
    | park => exact hold hb
    | run _ hnone => cases hnone

theorem boot_runs : Runs (boot : State ncpu) := by
  intro p hp
  simp only [boot] at hp
  split at hp <;> cases hp

theorem Reaches.runs (hrr : cfg.policy = .rr) (hs : Reaches cfg (fun _ _ => True) s) :
    Inv s ∧ Runs s := by
  apply LibRun.Reachable.invariant _ _ hs
  · rintro _ rfl
    exact ⟨boot_inv, boot_runs⟩
  · rintro s t - ⟨h, hruns⟩ ⟨a, -, hstep⟩
    have hrun := rr_dispatchesRunnable hrr s a
    exact ⟨(framed_step h hrun hstep).inv h, hruns.step h hrun hstep⟩

/-- A cpu that has a process executes it, or its scheduler holds `ptable.lock` behind the switch. -/
theorem Inv.has_proc (h : Inv s) {p : Slot} (hp : (s.cpu c).proc = some p) :
    Executing s c p ∨ ((s.cpu c).onScheduler = true ∧ s.lock .ptable = some c) := by
  cases hon : (s.cpu c).onScheduler with
  | false => exact Or.inl ⟨hon, hp⟩
  | true =>
    rcases (h.shape c).idleProc hon with hnone | ⟨n, k, hcode⟩
    · rw [hnone] at hp
      cases hp
    · obtain ⟨x, hx⟩ := h.cpu c
      have hstack : s.stack c = .afterSwtch n :: k := (stack_of_scheduler hon).trans hcode
      obtain ⟨hfits, -⟩ := hx.fits hstack nofun nofun
      simp only [Instr.Fits] at hfits
      subst hfits
      exact Or.inr ⟨rfl, (hx.held _).mp (by simp)⟩

/-- While `ptable.lock` is free, a process is `RUNNING` exactly if one cpu has it. -/
theorem Inv.running_iff (h : Inv s) (hruns : Runs s) (hfree : s.lock .ptable = none) (p : Slot) :
    (s.data.proc p).state = .running ↔ ∃! c, (s.cpu c).proc = some p := by
  have hexec : ∀ c, (s.cpu c).proc = some p → Executing s c p := by
    intro c hc
    refine (h.has_proc hc).resolve_right fun hlock => ?_
    rw [hfree] at hlock
    cases hlock.2
  constructor
  · intro hrunning
    obtain ⟨c, hc⟩ := hruns p hrunning
    exact ⟨c, hc.2, fun d hd => h.once d c p (hexec d hd) hc⟩
  · rintro ⟨c, hc, -⟩
    obtain ⟨x, hx⟩ := h.cpu c
    have hstands := hx.stands p (hexec c hc)
    unfold Stands at hstands
    split at hstands
    · rename_i hparked
      have hlock := (hx.held _).mp (hx.locked (Or.inl hparked))
      rw [hfree] at hlock
      cases hlock
    · exact hstands

/-- The code that frees is sure of its zombie. -/
theorem Typed.freeing {np : Slot} {k : Code} (h : Typed x k) (hf : freeing k = some np) :
    x.known = .zombie np ∧ x.parked = false := by
  induction k generalizing x with
  | nil => cases hf
  | cons i k ih =>
    rw [Typed] at h
    cases i with
    | op o =>
      obtain ⟨hfits, -, hk⟩ := h.resolve_left (by simp)
      cases o with
      | reap np' two =>
        simp only [Instr.Fits, Op.Fits] at hfits
        cases Option.some.inj hf
        exact ⟨by rw [hfits], by rw [hfits]⟩
      | kmemWork => exact ih hk hf
      | _ => cases hf
    | acquire l =>
      obtain ⟨-, -, hk⟩ := h.resolve_left (by simp)
      cases l with
      | kmem => simpa using ih hk hf
      | _ => cases hf
    | release l =>
      obtain ⟨-, -, hk⟩ := h.resolve_left (by simp)
      cases l with
      | kmem => simpa using ih hk hf
      | _ => cases hf
    | spin l => simp at h
    | _ => cases hf

theorem Stacked.freeing {np : Slot} {k : Code} (h : Stacked x k) (hf : freeing k = some np) :
    x.known = .zombie np ∧ x.parked = false := by
  cases k with
  | nil => cases hf
  | cons i k =>
    cases i with
    | spin l =>
      cases l with
      | kmem => exact Typed.freeing (k := .acquire .kmem :: k) h hf
      | _ => cases hf
    | _ => exact Typed.freeing h hf

theorem freeing_on_process {np : Slot} {k : Code} (hf : freeing k = some np) :
    ∃ two, .op (.reap np two) ∈ k := by
  induction k with
  | nil => cases hf
  | cons i k ih =>
    unfold Kernel.freeing at hf
    split at hf
    · rename_i heq
      cases heq
      cases hf
      exact ⟨_, List.mem_cons_self⟩
    all_goals
      first
        | cases hf
        | (rename_i heq
           cases heq
           obtain ⟨two, hmem⟩ := ih hf
           exact ⟨two, List.mem_cons_of_mem _ hmem⟩)

/-- Nobody uses the stack or the page directory that `wait` frees. -/
theorem Inv.freed_unused (h : Inv s) {np : Slot} (hf : freeing (s.stack c) = some np) (d : Fin ncpu) :
    (s.cpu d).proc ≠ some np := by
  obtain ⟨x, hx⟩ := h.cpu c
  obtain ⟨hknown, hparked⟩ := hx.typed.freeing hf
  have hlock : s.lock .ptable = some c := (hx.held _).mp (hx.locked (Or.inr (by simp [hknown])))
  have hzombie : (s.data.proc np).state = .zombie := by
    have hholds := hx.known
    rw [hknown] at hholds
    exact hholds.1
  have hon : (s.cpu c).onScheduler = false := by
    obtain ⟨two, hmem⟩ := freeing_on_process hf
    have hside := h.side_stack c _ hmem
    cases hon : (s.cpu c).onScheduler with
    | false => rfl
    | true => simp [State.side, hon, Instr.On] at hside
  intro hd
  rcases h.has_proc hd with hexec | ⟨hsched, hlock'⟩
  · -- a process that executes is `RUNNING`, or its cpu has the lock
    obtain ⟨y, hy⟩ := h.cpu d
    have hstands := hy.stands np hexec
    unfold Stands at hstands
    split at hstands
    · rename_i hy'
      have hcd : d = c := by
        have hd' := (hy.held _).mp (hy.locked (Or.inl hy'))
        exact Option.some.inj (hd'.symm.trans hlock)
      subst hcd
      have hstands := hx.stands np hexec
      simp [Stands, hparked, hzombie] at hstands
    · rw [hzombie] at hstands
      cases hstands
  · have hcd : d = c := Option.some.inj (hlock'.symm.trans hlock)
    subst hcd
    rw [hon] at hsched
    cases hsched

/-- Under RR, in every reachable state: while `ptable.lock` is free a process is `RUNNING` exactly if it
is the current process of one cpu; every step moves the processes along the life cycle only; and no cpu
has the process whose stack and page directory a call of `wait` or `wait2` is freeing. -/
theorem process_life_cycle (cfg : Config) (hrr : cfg.policy = .rr) (s : State ncpu)
    (hs : Reaches cfg (fun _ _ => True) s) :
    (s.lock .ptable = none → ∀ p, (s.data.proc p).state = .running ↔ ∃! c, (s.cpu c).proc = some p) ∧
      (∀ a t, step cfg s a = some t → ∀ p, (t.data.proc p).state = (s.data.proc p).state ∨
        Follows (s.data.proc p).state (t.data.proc p).state) ∧
      ∀ c np, freeing (s.stack c) = some np → ∀ d, (s.cpu d).proc ≠ some np := by
  obtain ⟨h, hruns⟩ := hs.runs hrr
  exact ⟨h.running_iff hruns, fun a t hstep p => h.follows_step (rr_dispatchesRunnable hrr s a) hstep p,
    fun c np hf d => h.freed_unused hf d⟩

/-- The run of the child above, up to the call of `wait` that is about to free it. -/
def freeRun : List (Act 2) :=
  steps 0 6 ++ .syscall 0 .fork :: steps 0 19 ++ steps 1 7 ++ .syscall 1 .exit :: steps 1 76 ++
    .syscall 0 .wait :: steps 0 4

theorem freeRun_unused :
    ∃ s : State 2, Reaches (plain .rr) (fun _ _ => True) s ∧ freeing (s.stack 0) = some firstChild ∧
      ∀ d, (s.cpu d).proc ≠ some firstChild := by
  have hrun : ((run (plain .rr) (fun _ _ => true) (boot : State 2) freeRun).map
      fun s => freeing (s.stack 0)) = some (some firstChild) := by
    decide +kernel
  obtain ⟨s, hs, hfree⟩ := Option.map_eq_some_iff.mp hrun
  have hreach : Reaches (plain .rr) (fun _ _ => True) s :=
    Reaches.run (fun _ _ _ => trivial) (.start rfl) hs
  exact ⟨s, hreach, hfree, (process_life_cycle _ rfl s hreach).2.2 0 firstChild hfree⟩

end Xv6.Kernel
