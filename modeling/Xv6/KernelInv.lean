import Xv6.KernelTyping

/-! The invariant of the kernel machine under every policy, as long as schedulers switch to `RUNNABLE`
processes only: stacks are well typed for the locks their cpu holds, a process executes on at most one
cpu, and is `RUNNING` unless that cpu holds `ptable.lock`, and slots in which `fork` creates a process
belong to one stack. -/

namespace Xv6.Kernel

open Function

/-- What is known holds of the table. -/
def Known.Holds (t : Table) (cur : Option Slot) : Known → Prop
  | .nothing => True
  | .zombie np => (t np).state = .zombie ∧ (t np).parent = cur
  | .noZombie p => cur = some p ∧ ∀ q, (t q).parent = some p → (t q).state ≠ .zombie
  | .runnable p => (t p).state = .runnable

/-- The state of the process whose code has the type: `RUNNING` until it parks. -/
def Stands (x : Ctx) (state : ProcState) : Prop :=
  if x.parked then state = .runnable ∨ state = .sleeping ∨ state = .zombie else state = .running

/-- The changes of a process's state by code that holds `ptable.lock` or not, has the slots `own` in
creation, makes the process `cur` leave its cpu, and the process `target` enter it. -/
inductive Move (locked : Prop) (own : List Slot) (cur target : Option Slot) (p : Slot) :
    ProcState → ProcState → Prop
  | same {a : ProcState} : Move locked own cur target p a a
  | wake : locked → Move locked own cur target p .sleeping .runnable
  | alloc : locked → Move locked own cur target p .unused .embryo
  | free : p ∈ own → Move locked own cur target p .embryo .unused
  | start : p ∈ own → Move locked own cur target p .embryo .runnable
  | park {b : ProcState} : locked → cur = some p → Move locked own cur target p .running b
  | run : locked → target = some p → Move locked own cur target p .runnable .running
  | reap : locked → Move locked own cur target p .zombie .unused

/-- The changes of the table in one step. Without the lock, only processes in creation change. -/
structure TableStep (locked : Prop) (own : List Slot) (cur target : Option Slot) (t u : Table) : Prop where
  state : ∀ p, Move locked own cur target p (t p).state (u p).state
  parent : ¬locked → ∀ p, (t p).state ≠ .embryo → (u p).parent = (t p).parent

section Table

variable {locked : Prop} {own : List Slot} {cur target : Option Slot} {t u : Table}

theorem TableStep.refl : TableStep locked own cur target t t :=
  ⟨fun _ => .same, fun _ _ _ => rfl⟩

theorem TableStep.wakes (hlocked : locked) (h : Wakes t u) : TableStep locked own cur target t u := by
  refine ⟨fun p => ?_, fun hfree => absurd hlocked hfree⟩
  rcases h p with hp | ⟨hs, hr⟩
  · rw [hp]
    exact .same
  · rw [hs, hr]
    exact .wake hlocked

/-- A change of one slot. -/
theorem TableStep.update {p : Slot} {q : Proc} (hstate : Move locked own cur target p (t p).state q.state)
    (hparent : ¬locked → (t p).state ≠ .embryo → q.parent = (t p).parent) :
    TableStep locked own cur target t (update t p q) := by
  constructor
  · intro r
    by_cases hr : r = p
    · subst hr
      rwa [update_self]
    · rw [update_of_ne hr]
      exact .same
  · intro hfree r hr
    by_cases hrp : r = p
    · subst hrp
      rw [update_self]
      exact hparent hfree hr
    · rw [update_of_ne hrp]

theorem TableStep.onCur {d : Data} {f : Proc → Proc} {other : Option Slot}
    (hstate : ∀ p, (f p).state = p.state) (hparent : ∀ p, (f p).parent = p.parent) :
    TableStep locked own other target d.proc (d.onCur cur f).proc := by
  cases cur with
  | none => exact .refl
  | some p =>
    refine TableStep.update ?_ fun _ _ => hparent _
    rw [hstate]
    exact .same

theorem TableStep.park {d : Data} {f : Proc → Proc} (hlocked : locked)
    (hcur : ∀ p, cur = some p → (d.proc p).state = .running) :
    TableStep locked own cur target d.proc (d.onCur cur f).proc := by
  cases cur with
  | none => exact .refl
  | some p =>
    refine TableStep.update ?_ fun hfree => absurd hlocked hfree
    rw [hcur p rfl]
    exact .park hlocked rfl

/-- Another cpu's knowledge survives a step made without the lock. -/
theorem Known.Holds.step {known : Known} {other : Option Slot} (h : known.Holds t other)
    (hstep : TableStep locked own cur target t u) (hfree : ¬locked) : known.Holds u other := by
  have hkeep : ∀ p, (t p).state ≠ .embryo → (t p).state ≠ .running → (u p).state = (t p).state := by
    intro p hembryo hrunning
    have hmove := hstep.state p
    generalize (t p).state = a at hmove hembryo hrunning
    generalize (u p).state = b at hmove
    cases hmove with
    | same => rfl
    | wake hl | alloc hl | run hl | reap hl => exact absurd hl hfree
    | free | start => exact absurd rfl hembryo
    | park => exact absurd rfl hrunning
  cases known with
  | nothing => trivial
  | zombie np =>
    refine ⟨?_, ?_⟩
    · rw [hkeep np (by simp [h.1]) (by simp [h.1]), h.1]
    · rw [hstep.parent hfree np (by simp [h.1]), h.2]
  | noZombie p =>
    refine ⟨h.1, fun q hq hz => ?_⟩
    have hmove := hstep.state q
    rw [hz] at hmove
    generalize hb : (t q).state = a at hmove
    cases hmove with
    | same =>
      rw [hstep.parent hfree q (by simp [hb])] at hq
      exact h.2 q hq hb
    | park hl => exact hfree hl
  | runnable p =>
    change (u p).state = .runnable
    have hp : (t p).state = .runnable := h
    rw [hkeep p (by simp [hp]) (by simp [hp]), hp]

end Table

section Write

variable {policy : Policy} {cur : Option Slot} {choice : Choice} {d : Data} {x : Ctx}

theorem exitTable_state {self p : Slot} (t : Table) :
    (exitTable initproc self t p).state =
      if p = self then .zombie else (passed initproc self t p).state := by
  rw [exitTable_eq]
  by_cases hp : p = self
  · subst hp
    simp
  · rw [update_of_ne hp, if_neg hp]

/-- The process that gives up the state `RUNNING` by the operation. -/
def Op.leaving (cur : Option Slot) : Op → Option Slot
  | .setRunnable | .goSleep _ | .exitScan => cur
  | _ => none

/-- Every `Op` in its place makes an admissible change of the table. -/
theorem write_tableStep {o : Op} (hfits : o.Fits x) (hknown : x.known.Holds d.proc cur)
    (hcur : ∀ p, cur = some p → Stands x (d.proc p).state)
    (hown : ∀ np, (Instr.op o).owns = some np → (d.proc np).state = .embryo) :
    TableStep (.ptable ∈ x.held) (Instr.op o).owns.toList (o.leaving cur) none d.proc
      (write policy cur choice d o).proc := by
  cases o with
  | wakeup1 chan => exact .wakes hfits.1 (wakeup1_wakes _ _)
  | kill pid =>
    simp only [Op.Fits] at hfits
    subst hfits
    exact .wakes (by simp) (killTable_wakes _ _)
  | setRunnable | goSleep chan =>
    simp only [Op.Fits] at hfits
    subst hfits
    exact .park (by simp) fun p hp => by simpa [Stands] using hcur p hp
  | clearChan | stampEtime | nice | fault => exact .onCur (fun _ => rfl) fun _ => rfl
  | allocScan =>
    simp only [Op.Fits] at hfits
    subst hfits
    simp only [write]
    cases hnp : findUnused d.proc with
    | none => exact .refl
    | some np =>
      refine TableStep.update ?_ fun _ _ => rfl
      rw [findUnused_state hnp]
      exact .alloc (by simp)
  | kallocStack np =>
    simp only [write]
    split <;> exact .refl
  | stampCtime np => exact .update .same fun _ _ => rfl
  | copyuvm np =>
    simp only [write]
    split
    · exact .update .same fun _ hembryo => absurd (hown np rfl) hembryo
    · exact .refl
  | free np =>
    refine TableStep.update ?_ fun _ hembryo => absurd (hown np rfl) hembryo
    rw [hown np rfl]
    exact .free (by simp)
  | forkRun np =>
    refine TableStep.update ?_ fun _ hembryo => absurd (hown np rfl) hembryo
    rw [hown np rfl]
    exact .start (by simp)
  | exitScan =>
    simp only [Op.Fits] at hfits
    subst hfits
    cases cur with
    | none => exact .refl
    | some self =>
      have hlocked : Lock.ptable ∈ (Ctx.on .ptable).held := by simp
      have hself : (d.proc self).state = .running := by simpa [Stands] using hcur self rfl
      refine ⟨fun p => ?_, fun hfree => absurd hlocked hfree⟩
      simp only [write, exitTable_state]
      by_cases hp : p = self
      · subst hp
        rw [hself]
        exact .park hlocked rfl
      · rw [if_neg hp]
        exact (TableStep.wakes hlocked (passed_wakes _ _ _)).state p
  | reap np two =>
    simp only [Op.Fits] at hfits
    subst hfits
    cases cur with
    | none => exact .refl
    | some q =>
      refine TableStep.update ?_ fun hfree => absurd (by simp) hfree
      rw [hknown.1]
      exact .reap (by simp)
  | trapTail user timer =>
    cases cur with
    | none => exact .refl
    | some p =>
      simp only [write]
      split
      · exact .refl
      · exact .update .same fun _ _ => rfl
  | trapLow =>
    cases cur with
    | none => exact .refl
    | some p =>
      simp only [write]
      split <;> exact .refl
  | incTicks | doExit | waitScan | sleepStart | sleepLoop | trapKilled | checkKilled | kmemWork | dups
  | fileWork | work | intrWork => exact .refl

end Write

variable {ncpu : Nat}

/-- The cpu is on the stack of the process. -/
def Executing (s : State ncpu) (c : Fin ncpu) (p : Slot) : Prop :=
  (s.cpu c).onScheduler = false ∧ (s.cpu c).proc = some p

/-- The two kinds of kernel stacks. -/
inductive Side where
  | scheduler
  | process

/-- The instructions that occur on a stack. On a scheduler's there is its own code and that of
interrupt handlers. -/
def Instr.On : Side → Instr → Bool
  | .process, .schedTop | .process, .scanSlot _ | .process, .fairRatio _ _
  | .process, .afterSwtch _ => false
  | .process, _ => true
  | .scheduler, .sched | .scheduler, .schedRet _ => false
  | .scheduler, .op o =>
    match o with
    | .wakeup1 _ | .incTicks | .trapTail _ _ | .intrWork _ => true
    | _ => false
  | .scheduler, _ => true

/-- The kind of the stack a cpu is on. -/
def State.side (s : State ncpu) (c : Fin ncpu) : Side :=
  if (s.cpu c).onScheduler then .scheduler else .process

/-- The type of the stack a cpu is on describes the cpu: the locks it holds, the depth of `pushcli`,
the interrupt flag, the table, and the state of its process. -/
structure CpuInv (s : State ncpu) (c : Fin ncpu) (x : Ctx) : Prop where
  typed : Stacked x (s.stack c)
  held : ∀ l, l ∈ x.held ↔ s.lock l = some c
  nodup : x.held.Nodup
  locked : x.parked = true ∨ x.known ≠ .nothing → .ptable ∈ x.held
  ncli : (s.cpu c).ncli = x.held.length + spins (s.stack c)
  intr : (s.cpu c).intr = true → (s.cpu c).ncli = 0
  known : x.known.Holds s.data.proc (s.cpu c).proc
  stands : ∀ p, Executing s c p → Stands x (s.data.proc p).state

/-- Which stack a cpu is on. A scheduler that has switched to a process waits behind the switch. -/
structure CpuShape (u : Cpu) : Prop where
  code : ∀ i ∈ u.code, i.On .scheduler = true
  idleProc : u.onScheduler = true → u.proc = none ∨ ∃ n k, u.code = .afterSwtch n :: k
  proc : u.onScheduler = false → ∃ p, u.proc = some p
  suspended : u.onScheduler = false →
    (∃ n k, u.code = .afterSwtch n :: k) ∧ Typed (.on .ptable) u.code

structure Inv (s : State ncpu) : Prop where
  cpu : ∀ c, ∃ x, CpuInv s c x
  shape : ∀ c, CpuShape (s.cpu c)
  off : ∀ p, (∀ c, ¬Executing s c p) → Typed (.on .ptable) (s.data.stack p)
  once : ∀ c d p, Executing s c p → Executing s d p → c = d
  code : ∀ p, ∀ i ∈ s.data.stack p, i.On .process = true
  embryo : ∀ p, ∀ np ∈ owned (s.data.stack p), (s.data.proc np).state = .embryo
  ownedNodup : ∀ p, (owned (s.data.stack p)).Nodup
  ownedOnce : ∀ p q np, np ∈ owned (s.data.stack p) → np ∈ owned (s.data.stack q) → p = q

theorem CpuShape.owned_code {u : Cpu} (h : CpuShape u) : owned u.code = [] := by
  unfold owned
  rw [List.filterMap_eq_nil_iff]
  intro i hi
  have hon := h.code i hi
  cases i with
  | op o => cases o <;> first | rfl | cases hon
  | _ => rfl

theorem Executing.stack {s : State ncpu} {c : Fin ncpu} {p : Slot} (h : Executing s c p) :
    s.stack c = s.data.stack p := by
  simp [State.stack, h.1, h.2]

theorem Stands.not_embryo {x : Ctx} {st : ProcState} (h : Stands x st) : st ≠ .embryo := by
  rintro rfl
  unfold Stands at h
  split at h <;> simp at h

/-- A process that executes on one cpu is not moved by another. -/
theorem Stands.step {x : Ctx} {locked : Prop} {own : List Slot} {cur target : Option Slot} {p : Slot}
    {a b : ProcState} (h : Stands x a) (hparked : x.parked = true → ¬locked) (hcur : cur ≠ some p)
    (hmove : Move locked own cur target p a b) : Stands x b := by
  cases hmove with
  | same => exact h
  | park _ hp => exact absurd hp hcur
  | alloc | free | start => unfold Stands at h; split at h <;> simp at h
  | wake hl | run hl | reap hl =>
    unfold Stands at h
    split at h
    · rename_i hp
      exact absurd hl (hparked hp)
    · cases h

section Frame

variable {s t : State ncpu} {c : Fin ncpu} {x : Ctx}

/-- The slots in creation on the stack a cpu is on. -/
theorem Inv.owned_stack (h : Inv s) (c : Fin ncpu) :
    (∃ p, Executing s c p ∧ s.stack c = s.data.stack p) ∨
      ((s.cpu c).onScheduler = true ∧ owned (s.stack c) = []) := by
  cases hon : (s.cpu c).onScheduler with
  | false =>
    obtain ⟨p, hp⟩ := (h.shape c).proc hon
    exact Or.inl ⟨p, ⟨hon, hp⟩, Executing.stack ⟨hon, hp⟩⟩
  | true =>
    refine Or.inr ⟨rfl, ?_⟩
    have hstack : s.stack c = (s.cpu c).code := by simp [State.stack, hon]
    rw [hstack, (h.shape c).owned_code]

/-- What a step of one cpu has to establish: its own cpu's part of the invariant, and that it touches
nothing the other parts rest on. -/
structure Frame (s t : State ncpu) (c : Fin ncpu) (x : Ctx) : Prop where
  cpu : ∀ d, d ≠ c → t.cpu d = s.cpu d
  lock : ∀ d, d ≠ c → ∀ l, t.lock l = some d ↔ s.lock l = some d
  table : ∃ own cur target, (∀ np ∈ own, np ∈ owned (s.stack c)) ∧
    (∀ p, cur = some p → Executing s c p) ∧
    TableStep (.ptable ∈ x.held) own cur target s.data.proc t.data.proc
  stack : ∀ p, ¬Executing s c p → t.data.stack p = s.data.stack p ∨
    ((s.data.proc p).state = .embryo ∧ t.data.stack p = forkret)
  inv : ∃ y, CpuInv t c y
  entry : spins (t.stack c) = 0 ∨
    ∃ l k, s.stack c = .acquire l :: k ∧ t.stack c = .spin l :: k ∧ t.lock = s.lock
  shape : CpuShape (t.cpu c)
  enters : ∀ p, Executing t c p → Executing s c p ∨ ∀ d, ¬Executing s d p
  leaves : ∀ p, Executing s c p → ¬Executing t c p → Typed (.on .ptable) (t.data.stack p)
  code : ∀ p, Executing s c p → ∀ i ∈ t.data.stack p, i.On .process = true
  owns : ∀ p, Executing s c p → (owned (t.data.stack p)).Nodup ∧
    ∀ np ∈ owned (t.data.stack p), (t.data.proc np).state = .embryo ∧
      (np ∈ owned (s.data.stack p) ∨ (s.data.proc np).state ≠ .embryo)

theorem Frame.executing_other (hf : Frame s t c x) {d : Fin ncpu} (hd : d ≠ c) (p : Slot) :
    Executing t d p ↔ Executing s d p := by
  unfold Executing
  rw [hf.cpu d hd]

/-- The stack another cpu is on stays as it is. -/
theorem Frame.stack_other (h : Inv s) (hf : Frame s t c x) {d : Fin ncpu} (hd : d ≠ c) :
    t.stack d = s.stack d := by
  cases hon : (s.cpu d).onScheduler with
  | true => simp [State.stack, hf.cpu d hd, hon]
  | false =>
    obtain ⟨p, hp⟩ := (h.shape d).proc hon
    have hexec : Executing s d p := ⟨hon, hp⟩
    rw [((hf.executing_other hd p).mpr hexec).stack, hexec.stack]
    have hnot : ¬Executing s c p := fun hc => hd (h.once d c p hexec hc)
    rcases hf.stack p hnot with heq | ⟨hembryo, -⟩
    · exact heq
    · obtain ⟨y, hy⟩ := h.cpu d
      exact absurd hembryo (hy.stands p hexec).not_embryo

/-- The other cpus keep their part of the invariant. -/
theorem Frame.cpu_other (h : Inv s) (hx : CpuInv s c x) (hf : Frame s t c x) {d : Fin ncpu}
    (hd : d ≠ c) {y : Ctx} (hy : CpuInv s d y) : CpuInv t d y := by
  have hlocked : y.parked = true ∨ y.known ≠ .nothing → ¬.ptable ∈ x.held := by
    intro hptable hheld
    have hcd := ((hx.held _).mp hheld).symm.trans ((hy.held _).mp (hy.locked hptable))
    exact hd (Option.some.inj hcd).symm
  obtain ⟨own, cur, target, -, hcur, htable⟩ := hf.table
  constructor
  · rw [hf.stack_other h hd]
    exact hy.typed
  · intro l
    rw [hf.lock d hd l]
    exact hy.held l
  · exact hy.nodup
  · exact hy.locked
  · rw [hf.cpu d hd, hf.stack_other h hd]
    exact hy.ncli
  · rw [hf.cpu d hd]
    exact hy.intr
  · rw [hf.cpu d hd]
    by_cases hnothing : y.known = .nothing
    · rw [hnothing]
      trivial
    · exact hy.known.step htable (hlocked (Or.inr hnothing))
  · intro p hp
    have hexec := (hf.executing_other hd p).mp hp
    refine (hy.stands p hexec).step (fun hparked => hlocked (Or.inl hparked)) ?_ (htable.state p)
    intro hc
    exact hd (h.once d c p hexec (hcur p hc))

/-- The slots in creation on a stack that does not execute on the cpu stay in creation. -/
theorem Frame.owned_other (h : Inv s) (hf : Frame s t c x) {p : Slot} (hp : ¬Executing s c p)
    {np : Slot} (hnp : np ∈ owned (t.data.stack p)) :
    np ∈ owned (s.data.stack p) ∧ (t.data.proc np).state = .embryo := by
  rcases hf.stack p hp with heq | ⟨-, hforkret⟩
  · rw [heq] at hnp
    refine ⟨hnp, ?_⟩
    have hembryo := h.embryo p np hnp
    obtain ⟨own, cur, target, hown, hcur, htable⟩ := hf.table
    have hnotown : np ∉ own := by
      intro hmem
      rcases h.owned_stack c with ⟨q, hq, hstack⟩ | ⟨-, hnil⟩
      · have hq' := h.ownedOnce p q np hnp (hstack ▸ hown np hmem)
        exact hp (hq' ▸ hq)
      · have := hown np hmem
        rw [hnil] at this
        cases this
    have hmove := htable.state np
    rw [hembryo] at hmove
    generalize (t.data.proc np).state = b at hmove
    cases hmove with
    | same => rfl
    | free hmem | start hmem => exact absurd hmem hnotown
  · rw [hforkret] at hnp
    cases hnp

theorem Frame.off (h : Inv s) (hf : Frame s t c x) (p : Slot) (hp : ∀ d, ¬Executing t d p) :
    Typed (.on .ptable) (t.data.stack p) := by
  by_cases hexec : Executing s c p
  · exact hf.leaves p hexec (hp c)
  · rcases hf.stack p hexec with heq | ⟨-, hforkret⟩
    · rw [heq]
      apply h.off
      intro d hd
      by_cases hdc : d = c
      · exact hexec (hdc ▸ hd)
      · exact hp d ((hf.executing_other hdc p).mpr hd)
    · rw [hforkret]
      exact forkret_typed

theorem Frame.once (h : Inv s) (hf : Frame s t c x) {d e : Fin ncpu} {p : Slot}
    (hd : Executing t d p) (he : Executing t e p) : d = e := by
  -- a process that has entered the cpu was executing nowhere else
  have hcase : ∀ f, f ≠ c → Executing t f p → ¬Executing t c p := by
    intro f hf' hexec hc
    have hexec' := (hf.executing_other hf' p).mp hexec
    rcases hf.enters p hc with hold | hnew
    · exact hf' (h.once f c p hexec' hold)
    · exact hnew f hexec'
  by_cases hdc : d = c
  · by_cases hec : e = c
    · rw [hdc, hec]
    · exact absurd (hdc ▸ hd) (hcase e hec he)
  · by_cases hec : e = c
    · exact absurd (hec ▸ he) (hcase d hdc hd)
    · exact h.once d e p ((hf.executing_other hdc p).mp hd) ((hf.executing_other hec p).mp he)

theorem Inv.frame (h : Inv s) (hx : CpuInv s c x) (hf : Frame s t c x) : Inv t := by
  have howned : ∀ p np, np ∈ owned (t.data.stack p) → (t.data.proc np).state = .embryo ∧
      (np ∈ owned (s.data.stack p) ∨ (s.data.proc np).state ≠ .embryo ∧ Executing s c p) := by
    intro p np hnp
    by_cases hp : Executing s c p
    · obtain ⟨hembryo, hold⟩ := (hf.owns p hp).2 np hnp
      exact ⟨hembryo, hold.imp_right fun hnew => ⟨hnew, hp⟩⟩
    · obtain ⟨hmem, hembryo⟩ := hf.owned_other h hp hnp
      exact ⟨hembryo, Or.inl hmem⟩
  constructor
  · intro d
    by_cases hd : d = c
    · rw [hd]
      exact hf.inv
    · obtain ⟨y, hy⟩ := h.cpu d
      exact ⟨y, hf.cpu_other h hx hd hy⟩
  · intro d
    by_cases hd : d = c
    · rw [hd]
      exact hf.shape
    · rw [hf.cpu d hd]
      exact h.shape d
  · exact hf.off h
  · exact fun d e p => hf.once h
  · intro p
    by_cases hp : Executing s c p
    · exact hf.code p hp
    · rcases hf.stack p hp with heq | ⟨-, hforkret⟩
      · rw [heq]
        exact h.code p
      · rw [hforkret]
        decide
  · exact fun p np hnp => (howned p np hnp).1
  · intro p
    by_cases hp : Executing s c p
    · exact (hf.owns p hp).1
    · rcases hf.stack p hp with heq | ⟨-, hforkret⟩
      · rw [heq]
        exact h.ownedNodup p
      · rw [hforkret]
        exact List.nodup_nil
  · intro p q np hp hq
    rcases (howned p np hp).2 with hp' | ⟨hnew, hexec⟩
    · rcases (howned q np hq).2 with hq' | ⟨hnew, -⟩
      · exact h.ownedOnce p q np hp' hq'
      · exact absurd (h.embryo p np hp') hnew
    · rcases (howned q np hq).2 with hq' | ⟨-, hexec'⟩
      · exact absurd (h.embryo q np hq') hnew
      · exact Option.some.inj (hexec.2.symm.trans hexec'.2)

/-- A step of one cpu from a state of the invariant. -/
def Framed (s : State ncpu) (c : Fin ncpu) (t : State ncpu) : Prop := ∃ x, CpuInv s c x ∧ Frame s t c x

theorem Framed.inv (h : Inv s) (hf : Framed s c t) : Inv t := by
  obtain ⟨x, hx, hframe⟩ := hf
  exact h.frame hx hframe

end Frame

end Xv6.Kernel
