import Xv6.Quantum

/-! The accounts of the processes on one cpu. The machine is watched for the ticks ever charged and for
the times at which the process of a slot was created and ended. A tick is charged at most once: it is
counted when the timer's handler starts and charged when it ends, with interrupts off in between. -/

namespace Xv6.Kernel

open LibWord

/-- The ticks ever charged to a process, and when the process of a slot was created and ended. -/
structure Books where
  charged : Nat
  born : Slot → Option Nat
  died : Slot → Option Nat

/-- After `userinit`, which creates init at time 0. -/
def openBooks : Books where
  charged := 0
  born := fun p => if p = initproc then some 0 else none
  died := fun _ => none

/-- The operation a step executes. -/
def executes (s : State 1) : Act 1 → Option Op
  | .exec c _ =>
    match s.stack c with
    | .op o :: _ => some o
    | _ => none
  | _ => none

/-- The step lets `allocproc` take the slot. -/
def Opens (s : State 1) (a : Act 1) (p : Slot) : Prop :=
  executes s a = some .allocScan ∧ findUnused s.data.proc = some p

instance (s : State 1) (a : Act 1) (p : Slot) : Decidable (Opens s a p) :=
  inferInstanceAs (Decidable (_ ∧ _))

/-- The books after a step: `allocproc` takes a slot, and stamps the creation time before it returns;
`exit` stamps the end time. -/
def watchBooks (s : State 1) (a : Act 1) (g : Books) : Books where
  charged := if (charges s a).isSome then g.charged + 1 else g.charged
  born := fun p =>
    if executes s a = some (.stampCtime p) then some s.data.ticks
    else if Opens s a p then none else g.born p
  died := fun p =>
    if executes s a = some .stampEtime ∧ (s.cpu 0).proc = some p then some s.data.ticks
    else if Opens s a p then none else g.died p

/-- The condition on a step: the run is shorter than 2^31 ticks. -/
def Short (s : State 1) (a : Act 1) : Prop := executes s a = some .incTicks → s.data.ticks + 1 < 2 ^ 31

instance (s : State 1) (a : Act 1) : Decidable (Short s a) := inferInstanceAs (Decidable (_ → _))

/-- A tick that has been counted and is still to be charged. -/
def credit : Code → Nat
  | [] => 0
  | i :: k => if i.tail then 1 else if i.handles ∧ i ≠ .op .incTicks then credit k else 0

variable {cfg : Config} {s t : State 1} {a : Act 1} {guard : State 1 → Act 1 → Prop}

theorem Untimed.credit {k : Code} (h : Untimed k) : credit k = 0 := by
  induction k with
  | nil => rfl
  | cons i k ih =>
    obtain ⟨hi, hk⟩ := (untimed_cons i k).mp h
    simp [Kernel.credit, hi, ih hk]

theorem credit_le (k : Code) : credit k ≤ 1 := by
  induction k with
  | nil => exact Nat.zero_le 1
  | cons i k ih =>
    rw [credit]
    split
    · exact le_refl 1
    · split
      · exact ih
      · exact Nat.zero_le 1

/-- Whether a step counts a clock tick. -/
def counts (s : State 1) (a : Act 1) : Nat := if executes s a = some .incTicks then 1 else 0

/-- Whether a step is the end of a timer interrupt. -/
def settles (s : State 1) (a : Act 1) : Nat :=
  if ∃ user, executes s a = some (.trapTail user true) then 1 else 0

theorem Coded.untimed_off (h : Coded (fun on k => Masked on k ∧ Timed k) s) {p : Slot}
    (hp : ¬Executing s 0 p) : Untimed (s.data.stack p) := (h.off p hp true).1.untimed (h.off p hp true).2

theorem Coded.untimed_code (h : Coded (fun on k => Masked on k ∧ Timed k) s)
    (hon : (s.cpu 0).onScheduler = false) : Untimed (s.cpu 0).code :=
  (h.code hon true).1.untimed (h.code hon true).2

/-- What a switch brings on the cpu is not in a handler of the timer. -/
theorem credit_switch (hs : Reaches cfg guard s) (hstep : step cfg s a = some t) {p : Slot}
    (hnot : ¬Executing s 0 p) (hp : Executing t 0 p) : credit (t.stack 0) = 0 := by
  have hcpu : a.cpu = 0 := Subsingleton.elim _ _
  have hd := (executing_step hstep (hcpu ▸ hp)).resolve_left (hcpu ▸ hnot)
  have hstack : t.data.stack p = s.data.stack p := by
    obtain ⟨c, choice, r, k, l, next, -, -, rfl⟩ := dispatch_eq hd hstep
    rfl
  rw [hp.stack, hstack]
  exact ((hs.coded masked_timed).untimed_off hnot).credit

theorem executes_eq {choice : Choice} {o : Op} {k : Code} (hstack : s.stack 0 = .op o :: k) :
    executes s (.exec 0 choice) = some o := by
  simp [executes, hstack]

theorem executes_none {i : Instr} {k : Code} (hstack : s.stack 0 = i :: k) (hi : ∀ o, i ≠ .op o) :
    executes s a = none := by
  cases a with
  | exec c choice =>
    obtain rfl : c = 0 := Subsingleton.elim _ _
    cases i with
    | op o => exact absurd rfl (hi o)
    | _ => simp [executes, hstack]
  | _ => rfl

theorem executes_nil (hstack : s.stack 0 = []) : executes s a = none := by
  cases a with
  | exec c choice =>
    obtain rfl : c = 0 := Subsingleton.elim _ _
    simp [executes, hstack]
  | _ => rfl

theorem settles_none (h : executes s a = none) : settles s a = 0 := by simp [settles, h]

/-- A tick is to be charged from the step that counts it until the end of its handler. -/
theorem credit_step (hs : Reaches cfg guard s) (hstep : step cfg s a = some t) :
    credit (t.stack 0) + settles s a ≤ credit (s.stack 0) + counts s a := by
  have hinv := hs.solo.inv
  have hcoded := hs.coded masked_timed
  have hcur := hcoded.current
  -- an instruction that is not part of the timer's handler leaves code that is in none
  have hquiet : ∀ {i k}, s.stack 0 = i :: k → i.handles = false → Untimed k := by
    intro i k hstack hi
    rw [hstack] at hcur
    exact hcur.2.untimed hi
  have hidle : Untimed (t.stack 0) → settles s a = 0 →
      credit (t.stack 0) + settles s a ≤ credit (s.stack 0) + counts s a := by
    intro hk hsettles
    rw [hk.credit, hsettles]
    exact Nat.zero_le _
  have hintr : (s.cpu 0).intr = true → Untimed (s.stack 0) := by
    intro hintr
    obtain ⟨x, hx⟩ := hinv.cpu 0
    rw [Cpu.base, hx.intr hintr, hintr] at hcur
    exact hcur.1.untimed hcur.2
  cases stackStep hinv hstep with
  | acquire l k hstack ht =>
    rw [ht, hstack, settles_none (executes_none hstack (by simp))]
    simp [credit, Instr.tail, Instr.handles]
  | past i k hstack hi ht =>
    rcases hi with ⟨l, rfl⟩ | ⟨l, rfl⟩ | ⟨b, rfl⟩ | rfl
    · rw [ht, hstack, settles_none (executes_none hstack (by simp))]
      simp [credit, Instr.tail, Instr.handles]
    · rw [ht, hstack, settles_none (executes_none hstack (by simp))]
      simp [credit, Instr.tail, Instr.handles]
    · exact hidle (ht ▸ hquiet hstack rfl) (settles_none (executes_none hstack (by simp)))
    · exact hidle (ht ▸ hquiet hstack rfl) (settles_none (executes_none hstack (by simp)))
  | panic i k hstack hi ht =>
    refine hidle (ht ▸ rfl) (settles_none (executes_none hstack ?_))
    rintro o rfl
    rcases hi with hi | hi <;> cases hi
  | scheduler i m k hstack hi hm ht =>
    have hop : ∀ o, i ≠ .op o := by
      rintro o rfl
      cases hi
    have hhandles : i.handles = false := by
      cases i with
      | op o => exact absurd rfl (hop o)
      | acquire | spin | release => cases hi
      | _ => rfl
    refine hidle ?_ (settles_none (executes_none hstack hop))
    rw [ht, untimed_append]
    refine ⟨?_, hquiet hstack hhandles⟩
    rw [Untimed, List.all_eq_true]
    intro j hj
    cases j with
    | op o => exact absurd rfl (hm _ hj o)
    | _ => rfl
  | leave k hstack hon ht =>
    exact hidle (ht ▸ hcoded.untimed_code hon) (settles_none (executes_none hstack (by simp)))
  | enter q hd hon ht =>
    refine hidle (ht ▸ hcoded.untimed_off fun hq => by simp [hq.1] at hon) (settles_none ?_)
    obtain ⟨c, choice, p, k, -, -, rfl, hstack, -⟩ := dispatch_eq hd hstep
    obtain rfl : c = 0 := Subsingleton.elim _ _
    exact executes_none hstack (by simp)
  | op choice o k ha hstack ht =>
    subst ha
    rw [counts, settles, executes_eq hstack]
    cases hhandles : (Instr.op o).handles with
    | false =>
      have hk := hquiet hstack hhandles
      rw [ht, (untimed_on next_untimed hk).credit, hstack]
      split
      · rename_i huser
        obtain ⟨user, huser⟩ := huser
        cases huser
        simp [credit, Instr.tail]
      · exact Nat.zero_le _
    | true =>
      cases o with
      | incTicks =>
        have hle := credit_le k
        simpa [ht, hstack, next, Next.on, credit, Instr.tail] using hle
      | wakeup1 chan => simp [ht, hstack, next, Next.on, credit, Instr.tail, Instr.handles]
      | _ => cases hhandles
  | syscall call hstack ht =>
    refine hidle ?_ (settles_none (executes_nil hstack))
    rw [ht]
    cases call <;> rfl
  | fault hstack ht => exact hidle (ht ▸ rfl) (settles_none (executes_nil hstack))
  | timer user ha _ ht =>
    subst ha
    rw [ht, settles_none rfl]
    simp [timerTrap, credit, Instr.tail, Instr.handles]
  | device n user ha hon ht =>
    subst ha
    refine hidle ?_ (settles_none rfl)
    rw [ht, untimed_append]
    exact ⟨rfl, hintr hon⟩

/-! The data after a step. -/

theorem executes_data {o : Op} (h : executes s a = some o) (hstep : step cfg s a = some t) :
    ∃ choice k stack, a = .exec 0 choice ∧ s.stack 0 = .op o :: k ∧
      t.data = { write cfg.policy (s.cpu 0).proc choice s.data o with stack := stack } := by
  cases a with
  | exec c choice =>
    obtain rfl : c = 0 := Subsingleton.elim _ _
    simp only [executes] at h
    split at h
    · rename_i o' k hstack
      cases h
      simp only [step, exec, hstack] at hstep
      obtain ⟨stack, hdata⟩ := setStack_data
        { s with data := write cfg.policy (s.cpu 0).proc choice s.data o } 0
        ((next cfg.policy (s.cpu 0).proc choice s.data o).on k)
      exact ⟨choice, k, stack, rfl, hstack, by rw [← Option.some.inj hstep, hdata]⟩
    · cases h
  | _ => cases h

theorem idle_data (h : executes s a = none) (hstep : step cfg s a = some t) :
    (∃ stack, t.data = { s.data with stack := stack }) ∨
      ∃ q, dispatches cfg s a = some q ∧
        t.data = s.data.setProc q fun p => { p with state := .running } := by
  cases dataStep hstep with
  | kept _ hdata => exact Or.inl hdata
  | dispatch q c choice p k _ _ hd hdata => exact Or.inr ⟨q, hd, hdata⟩
  | op c choice o k stack ha hstack =>
    obtain rfl : c = 0 := Subsingleton.elim _ _
    subst ha
    rw [executes_eq hstack] at h
    cases h

/-- The account of a process after a step. -/
def accountAfter (s : State 1) (a : Act 1) (p : Slot) : Account :=
  match executes s a with
  | some o => o.account (s.cpu 0).proc s.data p
  | none => account (s.data.proc p)

theorem account_step (hstep : step cfg s a = some t) (p : Slot) :
    account (t.data.proc p) = accountAfter s a p := by
  unfold accountAfter
  cases h : executes s a with
  | some o =>
    obtain ⟨choice, k, stack, rfl, hstack, hdata⟩ := executes_data h hstep
    rw [hdata]
    exact write_account ..
  | none =>
    rcases idle_data h hstep with ⟨stack, hdata⟩ | ⟨q, -, hdata⟩ <;> rw [hdata]
    exact setProc_account (g := id) (by exact fun _ => rfl) p |>.trans (by split <;> rfl)

theorem write_ticks (policy : Policy) (cur : Option Slot) (choice : Choice) (d : Data) (o : Op) :
    (write policy cur choice d o).ticks =
      if o = .incTicks then (d.ticks + 1) % uintSize else d.ticks := by
  cases o with
  | setRunnable | goSleep | clearChan | stampEtime | nice | fault | exitScan | reap =>
    cases cur <;> rfl
  | trapTail | trapLow =>
    cases cur with
    | none => rfl
    | some p =>
      simp only [write]
      split <;> rfl
  | allocScan | kallocStack | copyuvm =>
    simp only [write]
    split <;> rfl
  | _ => rfl

/-- In a short run the tick count is not reduced. -/
theorem ticks_step (hshort : Short s a) (hstep : step cfg s a = some t) :
    t.data.ticks = s.data.ticks + counts s a := by
  unfold counts
  cases h : executes s a with
  | some o =>
    obtain ⟨choice, k, stack, rfl, hstack, hdata⟩ := executes_data h hstep
    rw [hdata]
    refine (write_ticks ..).trans ?_
    by_cases ho : o = .incTicks
    · subst ho
      have hlt := hshort h
      have hmod : (s.data.ticks + 1) % uintSize = s.data.ticks + 1 :=
        Nat.mod_eq_of_lt (by simp only [uintSize]; omega)
      simpa using hmod
    · simp [ho]
  | none => rcases idle_data h hstep with ⟨stack, hdata⟩ | ⟨q, -, hdata⟩ <;> rw [hdata] <;> rfl

/-! The invariant. -/

/-- The creation time of the process in a slot is on the books. -/
def Born (s : State 1) (g : Books) (p : Slot) : Prop :=
  ∃ b : Nat, g.born p = some b ∧ (s.data.proc p).ctime = b

/-- Its end time is on the books, and covers what it was charged. -/
def Ended (s : State 1) (g : Books) (p : Slot) : Prop :=
  ∃ e : Nat, g.died p = some e ∧ (s.data.proc p).etime = e ∧
    (s.data.proc p).rtime + (s.data.proc p).ctime ≤ e

/-- The slot an instruction of `fork` works on before it has its creation time, or gives up. -/
def Instr.unborn : Instr → Option Slot
  | .op (.kallocStack np) | .op (.stampCtime np) | .op (.free np) => some np
  | _ => none

/-- `exit` is about to take the end time. -/
def Unstamped (k : Code) : Prop :=
  ∃ rest, k = .acquire .tickslock :: .op .stampEtime :: rest ∨
    k = .spin .tickslock :: .op .stampEtime :: rest ∨ k = .op .stampEtime :: rest

structure Ledger (s : State 1) (g : Books) : Prop where
  short : s.data.ticks < 2 ^ 31
  total : g.charged + credit (s.stack 0) ≤ s.data.ticks
  rtime : ∀ p, 0 ≤ (s.data.proc p).rtime
  ctime : ∀ p, 0 ≤ (s.data.proc p).ctime
  balance : ∀ p, (s.data.proc p).rtime + (s.data.proc p).ctime ≤ s.data.ticks
  current : ∀ p, Executing s 0 p →
    (s.data.proc p).rtime + (s.data.proc p).ctime + credit (s.stack 0) ≤ s.data.ticks
  creating : ∀ p, ∀ np ∈ owned (s.data.stack p),
    Born s g np ∨ ∃ i ∈ s.data.stack p, i.unborn = some np
  born : ∀ p, (s.data.proc p).state ≠ .unused → (s.data.proc p).state ≠ .embryo → Born s g p
  ended : ∀ p, (s.data.proc p).state = .zombie →
    Ended s g p ∨ (Executing s 0 p ∧ Unstamped (s.stack 0))

variable {g : Books}

theorem charges_settles (h : (charges s a).isSome) : settles s a = 1 := by
  obtain ⟨p, hp⟩ := Option.isSome_iff_exists.mp h
  obtain ⟨c, choice, user, k, rfl, hstack, -⟩ := charges_op hp
  obtain rfl : c = 0 := Subsingleton.elim _ _
  rw [settles, executes_eq hstack, if_pos ⟨user, rfl⟩]

theorem Ledger.total_step (h : Ledger s g) (hs : Reaches cfg guard s) (hshort : Short s a)
    (hstep : step cfg s a = some t) : (watchBooks s a g).charged + credit (t.stack 0) ≤ t.data.ticks := by
  have hcredit := credit_step hs hstep
  have htotal := h.total
  rw [ticks_step hshort hstep, watchBooks]
  dsimp only
  split
  · rename_i hcharges
    rw [charges_settles hcharges] at hcredit
    omega
  · omega

/-- What a step makes of the times of a process: nothing, or they are started or cleared, or the process
that executes is charged the tick its handler has counted, or it gets its end time. -/
inductive TimesStep (s t : State 1) (a : Act 1) (p : Slot) : Prop
  | kept : (t.data.proc p).rtime = (s.data.proc p).rtime → (t.data.proc p).ctime = (s.data.proc p).ctime →
      (t.data.proc p).etime = (s.data.proc p).etime → TimesStep s t a p
  | start : executes s a = some (.stampCtime p) → (t.data.proc p).rtime = 0 →
      (t.data.proc p).ctime = toInt s.data.ticks → TimesStep s t a p
  | clear (two : Bool) : executes s a = some (.reap p two) → (t.data.proc p).state = .unused →
      (t.data.proc p).rtime = 0 → (t.data.proc p).ctime = 0 → TimesStep s t a p
  | charge (user : Bool) : executes s a = some (.trapTail user true) → (s.cpu 0).proc = some p →
      (s.data.proc p).state = .running → (t.data.proc p).rtime = incr32 (s.data.proc p).rtime →
      (t.data.proc p).ctime = (s.data.proc p).ctime → TimesStep s t a p
  | stop : executes s a = some .stampEtime → (s.cpu 0).proc = some p →
      (t.data.proc p).rtime = (s.data.proc p).rtime → (t.data.proc p).ctime = (s.data.proc p).ctime →
      (t.data.proc p).etime = toInt s.data.ticks → TimesStep s t a p

theorem timesStep (hstep : step cfg s a = some t) (p : Slot) : TimesStep s t a p := by
  have haccount := account_step hstep p
  have hkept : account (t.data.proc p) = account (s.data.proc p) → TimesStep s t a p := fun h =>
    .kept (congrArg Account.rtime h) (congrArg Account.ctime h) (congrArg Account.etime h)
  unfold accountAfter at haccount
  cases h : executes s a with
  | none =>
    rw [h] at haccount
    exact hkept haccount
  | some o =>
    rw [h] at haccount
    dsimp only at haccount
    cases o with
    | stampCtime np =>
      by_cases hp : p = np
      · subst hp
        simp only [Op.account, if_true] at haccount
        exact .start h (congrArg Account.rtime haccount) (congrArg Account.ctime haccount)
      · simp only [Op.account, hp, if_false] at haccount
        exact hkept haccount
    | reap np two =>
      by_cases hp : p = np ∧ (s.cpu 0).proc.isSome
      · obtain ⟨rfl, hcur⟩ := hp
        simp only [Op.account, hcur, and_self, if_true] at haccount
        obtain ⟨q, hq⟩ := Option.isSome_iff_exists.mp hcur
        obtain ⟨choice, k, stack, rfl, -, hdata⟩ := executes_data h hstep
        refine .clear two h ?_ (congrArg Account.rtime haccount) (congrArg Account.ctime haccount)
        rw [hdata, hq]
        simp [write, Data.setProc, Proc.clear]
      · simp only [Op.account, hp, if_false] at haccount
        exact hkept haccount
    | trapTail user timer =>
      by_cases hp : (s.cpu 0).proc = some p ∧ ((s.data.proc p).killed && user) = false ∧
          Charged (s.data.proc p) timer
      · obtain ⟨hcur, hkilled, hrunning, rfl⟩ := hp
        simp only [Op.account, hcur, hkilled, Charged, hrunning, and_self, if_true] at haccount
        exact .charge user h hcur hrunning (congrArg Account.rtime haccount)
          (congrArg Account.ctime haccount)
      · simp only [Op.account, hp, if_false] at haccount
        exact hkept haccount
    | stampEtime =>
      by_cases hp : (s.cpu 0).proc = some p
      · simp only [Op.account, hp, if_true] at haccount
        exact .stop h hp (congrArg Account.rtime haccount) (congrArg Account.ctime haccount)
          (congrArg Account.etime haccount)
      · simp only [Op.account, hp, if_false] at haccount
        exact hkept haccount
    | nice =>
      simp only [Op.account] at haccount
      have htimes : ∀ q : Account, account (t.data.proc p) = { q with priority := 1 - q.priority } →
          q = account (s.data.proc p) → TimesStep s t a p := by
        rintro q h rfl
        exact .kept (congrArg Account.rtime h) (congrArg Account.ctime h) (congrArg Account.etime h)
      split at haccount
      · exact htimes _ haccount rfl
      · exact hkept haccount
    | _ => exact hkept haccount

/-- The tick that is charged is the one its handler has counted. -/
theorem Ledger.charge (h : Ledger s g) (hs : Reaches cfg guard s) {user : Bool} {p : Slot}
    (hexecutes : executes s a = some (.trapTail user true)) (hcur : (s.cpu 0).proc = some p)
    (hstep : step cfg s a = some t) :
    (s.data.proc p).rtime + (s.data.proc p).ctime + 1 ≤ s.data.ticks ∧
      incr32 (s.data.proc p).rtime = (s.data.proc p).rtime + 1 ∧ credit (t.stack 0) = 0 := by
  obtain ⟨choice, k, stack, rfl, hstack, -⟩ := executes_data hexecutes hstep
  have hexec := hs.solo.inv.executing_cur hstack nofun hcur
  have hcurrent := h.current p hexec
  have hone : credit (s.stack 0) = 1 := by simp [hstack, credit, Instr.tail]
  have hcredit := credit_step hs hstep
  have hsettles : settles s (.exec 0 choice) = 1 := by rw [settles, hexecutes, if_pos ⟨user, rfl⟩]
  have hcounts : counts s (.exec 0 choice) = 0 := by simp [counts, hexecutes]
  have hrtime := h.rtime p
  have hctime := h.ctime p
  have hshort := h.short
  refine ⟨by omega, incr32_of_lt hrtime (by omega), by omega⟩

theorem Ledger.times_step (h : Ledger s g) (hs : Reaches cfg guard s) (hshort : Short s a)
    (hstep : step cfg s a = some t) (p : Slot) :
    0 ≤ (t.data.proc p).rtime ∧ 0 ≤ (t.data.proc p).ctime ∧
      (t.data.proc p).rtime + (t.data.proc p).ctime ≤ t.data.ticks := by
  have hticks := ticks_step hshort hstep
  have hrtime := h.rtime p
  have hctime := h.ctime p
  have hbalance := h.balance p
  cases timesStep hstep p with
  | kept hr hc _ | stop _ _ hr hc _ => omega
  | start _ hr hc =>
    rw [toInt_of_lt h.short] at hc
    omega
  | clear two _ _ hr hc => omega
  | charge user hexecutes hcur _ hr hc =>
    obtain ⟨hle, hincr, -⟩ := h.charge hs hexecutes hcur hstep
    omega

theorem Ledger.current_step (h : Ledger s g) (hs : Reaches cfg guard s) (hshort : Short s a)
    (hstep : step cfg s a = some t) {p : Slot} (hp : Executing t 0 p) :
    (t.data.proc p).rtime + (t.data.proc p).ctime + credit (t.stack 0) ≤ t.data.ticks := by
  by_cases hexec : Executing s 0 p
  · have hticks := ticks_step hshort hstep
    have hcredit := credit_step hs hstep
    have hcurrent := h.current p hexec
    cases timesStep hstep p with
    | kept hr hc _ | stop _ _ hr hc _ => omega
    | start hexecutes hr hc =>
      obtain ⟨choice, k, stack, rfl, hstack, -⟩ := executes_data hexecutes hstep
      obtain ⟨x, hx⟩ := hs.solo.inv.cpu 0
      exact absurd (stamped_embryo hs hstack) (hx.stands p hexec).not_embryo
    | clear two _ _ hr hc =>
      have htotal := h.total_step hs hshort hstep
      omega
    | charge user hexecutes hcur _ hr hc =>
      obtain ⟨hle, hincr, hzero⟩ := h.charge hs hexecutes hcur hstep
      omega
  · rw [credit_switch hs hstep hexec hp]
    have hbalance := (h.times_step hs hshort hstep p).2.2
    simpa using hbalance

/-! Creation and end times. -/

section Books

variable {p : Slot}

theorem not_opens (hstate : (s.data.proc p).state ≠ .unused) : ¬Opens s a p := fun h =>
  hstate (findUnused_state h.2)

theorem born_kept (hstate : (s.data.proc p).state ≠ .unused)
    (hstart : executes s a ≠ some (.stampCtime p)) : (watchBooks s a g).born p = g.born p := by
  simp [watchBooks, hstart, not_opens hstate]

theorem born_start (hstart : executes s a = some (.stampCtime p)) :
    (watchBooks s a g).born p = some s.data.ticks := by
  simp [watchBooks, hstart]

theorem died_kept (hstate : (s.data.proc p).state ≠ .unused)
    (hstop : ¬(executes s a = some .stampEtime ∧ (s.cpu 0).proc = some p)) :
    (watchBooks s a g).died p = g.died p := by
  simp [watchBooks, hstop, not_opens hstate]

theorem died_stop (hstop : executes s a = some .stampEtime ∧ (s.cpu 0).proc = some p) :
    (watchBooks s a g).died p = some s.data.ticks := by
  simp [watchBooks, hstop]

/-- `wait` and `wait2` clear the slots of zombies. -/
theorem reaps_zombie (hs : Reaches cfg guard s) {two : Bool} (h : executes s a = some (.reap p two)) :
    (s.data.proc p).state = .zombie ∧ (s.data.proc p).parent = (s.cpu 0).proc ∧ ¬Executing s 0 p := by
  cases a with
  | exec c choice =>
    obtain rfl : c = 0 := Subsingleton.elim _ _
    simp only [executes] at h
    split at h
    · rename_i k hstack
      cases h
      obtain ⟨x, hx⟩ := hs.solo.inv.cpu 0
      obtain ⟨hfits, -⟩ := hx.fits hstack nofun nofun
      simp only [Instr.Fits, Op.Fits] at hfits
      subst hfits
      refine ⟨hx.known.1, hx.known.2, fun hexec => ?_⟩
      have hstands := hx.stands p hexec
      simp [Stands, hx.known.1] at hstands
    · cases h
  | _ => cases h

/-- A creation time stays on the books until the slot is reaped. -/
theorem Born.step (h : Born s g p) (hledger : Ledger s g) (hs : Reaches cfg guard s)
    (hstate : (s.data.proc p).state ≠ .unused)
    (hkeep : (t.data.proc p).state ≠ .unused ∨ (s.data.proc p).state ≠ .zombie)
    (hstep : Kernel.step cfg s a = some t) : Born t (watchBooks s a g) p := by
  obtain ⟨b, hb, hctime⟩ := h
  have hkept : executes s a ≠ some (.stampCtime p) →
      (t.data.proc p).ctime = (s.data.proc p).ctime → Born t (watchBooks s a g) p := fun hstart hc =>
    ⟨b, (born_kept hstate hstart).trans hb, hc.trans hctime⟩
  cases timesStep hstep p with
  | kept _ hc _ =>
    by_cases hstart : executes s a = some (.stampCtime p)
    · have haccount := account_step hstep p
      simp only [accountAfter, hstart, Op.account, if_true] at haccount
      refine ⟨s.data.ticks, born_start hstart, ?_⟩
      exact (congrArg Account.ctime haccount).trans (toInt_of_lt hledger.short)
    · exact hkept hstart hc
  | start hstart _ hc => exact ⟨s.data.ticks, born_start hstart, hc.trans (toInt_of_lt hledger.short)⟩
  | clear two hexecutes hunused =>
    exact absurd (reaps_zombie hs hexecutes).1 (hkeep.resolve_left fun h => h hunused)
  | charge user hexecutes _ _ _ hc => exact hkept (by simp [hexecutes]) hc
  | stop hexecutes _ _ hc _ => exact hkept (by simp [hexecutes]) hc

/-- `exit` puts its end time on the books. -/
theorem Ledger.stop (h : Ledger s g) (hstop : executes s a = some .stampEtime ∧ (s.cpu 0).proc = some p)
    (hstep : step cfg s a = some t) : Ended t (watchBooks s a g) p := by
  have haccount := account_step hstep p
  simp only [accountAfter, hstop.1, Op.account, hstop.2, if_true] at haccount
  have hrtime : (t.data.proc p).rtime = (s.data.proc p).rtime := congrArg Account.rtime haccount
  have hctime : (t.data.proc p).ctime = (s.data.proc p).ctime := congrArg Account.ctime haccount
  have hbalance := h.balance p
  exact ⟨s.data.ticks, died_stop hstop,
    (congrArg Account.etime haccount).trans (toInt_of_lt h.short), by omega⟩

/-- An end time stays on the books as long as the slot is a zombie. -/
theorem Ended.step (h : Ended s g p) (hledger : Ledger s g) (hs : Reaches cfg guard s)
    (hstate : (s.data.proc p).state = .zombie) (hstate' : (t.data.proc p).state ≠ .unused)
    (hstep : Kernel.step cfg s a = some t) : Ended t (watchBooks s a g) p := by
  by_cases hstop : executes s a = some .stampEtime ∧ (s.cpu 0).proc = some p
  · exact hledger.stop hstop hstep
  · obtain ⟨e, he, hetime, hle⟩ := h
    cases timesStep hstep p with
    | kept hr hc het =>
      exact ⟨e, (died_kept (by simp [hstate]) hstop).trans he, het.trans hetime, by omega⟩
    | start hexecutes =>
      obtain ⟨choice, k, stack, rfl, hstack, -⟩ := executes_data hexecutes hstep
      rw [stamped_embryo hs hstack] at hstate
      cases hstate
    | clear two _ hunused => exact absurd hunused hstate'
    | charge user _ _ hrunning =>
      rw [hrunning] at hstate
      cases hstate
    | stop hexecutes hcur => exact absurd ⟨hexecutes, hcur⟩ hstop

end Books

/-! Processes in creation. -/

section Creation

variable {k : Code} {np : Slot}

/-- A slot without its creation time is one that the stack has in creation. -/
theorem Sequenced.owned_unborn (h : Sequenced k) {i : Instr} (hi : i ∈ k) (hnp : i.unborn = some np) :
    np ∈ owned k := by
  induction k with
  | nil => cases hi
  | cons j k ih =>
    rw [owned_cons]
    rcases List.mem_cons.mp hi with rfl | hi
    · cases i with
      | op o =>
        cases o with
        | kallocStack q | free q =>
          cases hnp
          exact List.mem_append_left _ (by simp)
        | stampCtime q =>
          cases hnp
          exact List.mem_append_right _ h.1
        | _ => cases hnp
      | _ => cases hnp
    · exact List.mem_append_right _ (ih h.2 hi)

theorem next_become {policy : Policy} {cur : Option Slot} {choice : Choice} {d : Data} {o : Op} {code : Code}
    (h : next policy cur choice d o = .become code) : owned code = [] := by
  cases o with
  | doExit =>
    cases h
    split <;> rfl
  | trapTail user timer =>
    cases cur with
    | none => cases h
    | some p =>
      simp only [next, trapNext] at h
      split at h
      · cases h
        rfl
      · split at h <;> cases h
  | trapKilled | checkKilled =>
    simp only [next] at h
    split at h <;> cases h
    rfl
  | allocScan | kallocStack | copyuvm | waitScan | trapLow | kmemWork =>
    simp only [next] at h
    split at h <;> cases h
  | sleepLoop =>
    simp only [next] at h
    split at h
    · split at h <;> cases h
    · cases h
  | dups | fileWork | work | intrWork =>
    simp only [next] at h
    split at h <;> cases h
  | _ => cases h

/-- An operation that works on no slot pushes code that works on none. -/
theorem next_push {policy : Policy} {cur : Option Slot} {choice : Choice} {d : Data} {o : Op} {code : Code}
    (ho : o ≠ .allocScan) (howns : (Instr.op o).owns = none) (h : next policy cur choice d o = .push code) :
    owned code = [] := by
  have hsub : (owned ((next policy cur choice d o).on [])).Sublist (owned [.op o]) := owned_next ho []
  have hlen := hsub.length_le
  rw [h, Next.on, List.append_nil, owned_cons, howns] at hlen
  exact List.length_eq_zero_iff.mp (Nat.le_zero.mp hlen)

/-- The slots in creation on a stack have their creation time, or are still to get it. -/
def Creates (s : State 1) (g : Books) (k : Code) : Prop :=
  ∀ np ∈ owned k, Born s g np ∨ ∃ i ∈ k, i.unborn = some np

/-- A stack that goes on without an operation of `fork`. -/
theorem Creates.goOn {i : Instr} {m : Code} (h : Creates s g (i :: k)) (hi : i.unborn = none)
    (howned : owned m = []) : Creates s g (m ++ k) := by
  intro np hnp
  rw [owned_append, howned, List.nil_append] at hnp
  rcases h np (by rw [owned_cons]; exact List.mem_append_right _ hnp) with hborn | ⟨j, hj, hjnp⟩
  · exact Or.inl hborn
  · grind

theorem Creates.push {m : Code} (h : Creates s g k) (howned : owned m = []) : Creates s g (m ++ k) := by
  intro np hnp
  rw [owned_append, howned, List.nil_append] at hnp
  exact (h np hnp).imp_right fun ⟨j, hj, hjnp⟩ => ⟨j, List.mem_append_right _ hj, hjnp⟩

theorem Creates.of_nil (howned : owned k = []) : Creates s g k := by
  intro np hnp
  rw [howned] at hnp
  cases hnp

/-- An operation on a slot that has its creation time behind it. -/
theorem Creates.stamped {i : Instr} (h : Creates s g (i :: k)) (hseq : Sequenced (i :: k))
    (hnodup : (owned (i :: k)).Nodup) (hi : i.unborn = none) (howns : i.owns = some np) : Born s g np := by
  rcases h np (mem_owned_of_owns howns k) with hborn | ⟨j, hj, hjnp⟩
  · exact hborn
  · rcases List.mem_cons.mp hj with rfl | hj
    · rw [hi] at hjnp
      cases hjnp
    · have hmem := hseq.2.owned_unborn hj hjnp
      rw [owned_cons, howns] at hnodup
      exact absurd hmem (List.nodup_cons.mp hnodup).1

theorem Creates.mono {g' : Books} (h : Creates s g k)
    (hborn : ∀ np ∈ owned k, Born s g np → Born t g' np) : Creates t g' k :=
  fun np hnp => (h np hnp).imp_left (hborn np hnp)

/-- An operation passes on the slots in creation. -/
theorem Creates.op {policy : Policy} {cur : Option Slot} {choice : Choice} {d : Data} {o : Op}
    (h : Creates s g (.op o :: k)) (hseq : Sequenced (.op o :: k)) (hnodup : (owned (.op o :: k)).Nodup)
    {g' : Books} (hborn : ∀ np ∈ owned (.op o :: k), Born s g np → Born t g' np)
    (hstart : ∀ q, o = .stampCtime q → Born t g' q) :
    Creates t g' ((next policy cur choice d o).on k) := by
  have h' : Creates t g' (.op o :: k) := h.mono hborn
  -- the slots below an operation that leaves or replaces one of its own
  have hbelow : ∀ np ∈ owned k, Born t g' np ∨ (Instr.op o).unborn = some np ∨
      ∃ i ∈ k, i.unborn = some np := by
    intro np hnp
    rcases h' np (by rw [owned_cons]; exact List.mem_append_right _ hnp) with hb | ⟨i, hi, hinp⟩
    · exact Or.inl hb
    · grind
  have hthrough : ∀ {m : Code}, owned m = [] → (Instr.op o).unborn = none →
      Creates t g' (m ++ k) := fun howned hnone => h'.goOn hnone howned
  cases o with
  | allocScan =>
    simp only [next]
    cases findUnused d.proc with
    | none => exact hthrough (m := [_]) rfl rfl
    | some q =>
      intro np hnp
      have hnp' : np = q ∨ np ∈ owned k := by simpa [Next.on] using hnp
      rcases hnp' with rfl | hnp'
      · exact Or.inr ⟨.op (.kallocStack np), by simp [Next.on], rfl⟩
      · rcases hbelow np hnp' with hb | hb | ⟨i, hi, hinp⟩
        · exact Or.inl hb
        · cases hb
        · exact Or.inr ⟨i, List.mem_append_right _ hi, hinp⟩
  | kallocStack q =>
    have hreplace : ∀ {m : Code}, owned m = [q] → (∃ i ∈ m, i.unborn = some q) →
        Creates t g' (m ++ k) := by
      rintro m howned ⟨j, hj, hjq⟩ np hnp
      rw [owned_append, howned, List.singleton_append] at hnp
      have hq : ∃ i ∈ m ++ k, i.unborn = some q := ⟨j, List.mem_append_left _ hj, hjq⟩
      rcases List.mem_cons.mp hnp with rfl | hnp
      · exact Or.inr hq
      · rcases hbelow np hnp with hb | hb | ⟨i, hi, hinp⟩
        · exact Or.inl hb
        · cases hb
          exact Or.inr hq
        · exact Or.inr ⟨i, List.mem_append_right _ hi, hinp⟩
    simp only [next]
    split
    · exact hreplace rfl ⟨.op (.stampCtime q), by simp [clockticks], rfl⟩
    · exact hreplace rfl ⟨.op (.free q), by simp, rfl⟩
  | stampCtime q =>
    intro np hnp
    rcases hbelow np hnp with hb | hb | hk
    · exact Or.inl hb
    · cases hb
      exact Or.inl (hstart q rfl)
    · exact Or.inr hk
  | copyuvm q =>
    have hq : Born t g' q := h'.stamped hseq hnodup rfl rfl
    have hreplace : ∀ {m : Code}, owned m = [q] → Creates t g' (m ++ k) := by
      intro m howned np hnp
      rw [owned_append, howned, List.singleton_append] at hnp
      rcases List.mem_cons.mp hnp with rfl | hnp
      · exact Or.inl hq
      · rcases hbelow np hnp with hb | hb | ⟨i, hi, hinp⟩
        · exact Or.inl hb
        · cases hb
        · exact Or.inr ⟨i, List.mem_append_right _ hi, hinp⟩
    simp only [next]
    split <;> exact hreplace rfl
  | free q =>
    intro np hnp
    rcases hbelow np hnp with hb | hb | hk
    · exact Or.inl hb
    · cases hb
      rw [owned_cons] at hnodup
      exact absurd hnp (List.nodup_cons.mp hnodup).1
    · exact Or.inr hk
  | forkRun q => exact hthrough (m := []) rfl rfl
  | _ =>
    cases hn : next policy cur choice d _ with
    | push code => exact hthrough (next_push (by simp) rfl hn) rfl
    | become code => exact .of_nil (next_become hn)

end Creation

/-- What the books say of slots in creation after a step. -/
theorem Ledger.creating_step (h : Ledger s g) (hs : Reaches cfg guard s) (hstep : step cfg s a = some t)
    (p : Slot) : Creates t (watchBooks s a g) (t.data.stack p) := by
  have hinv := hs.solo.inv
  have hborn : ∀ np ∈ owned (s.data.stack p), Born s g np → Born t (watchBooks s a g) np := by
    intro np hnp hb
    have hembryo := hinv.embryo p np hnp
    exact hb.step h hs (by simp [hembryo]) (Or.inr (by simp [hembryo])) hstep
  have hsame : Creates t (watchBooks s a g) (s.data.stack p) := Creates.mono (h.creating p) hborn
  by_cases hexec : Executing s 0 p
  · by_cases hstay : Executing t 0 p
    · rw [← hexec.stack] at hsame hborn
      rw [← hstay.stack]
      cases stackStep hinv hstep with
      | acquire l k hstack ht =>
        rw [hstack] at hsame
        exact ht ▸ hsame.goOn (m := [.spin l]) rfl rfl
      | past i k hstack hi ht =>
        rw [hstack] at hsame
        refine ht ▸ hsame.goOn (m := []) ?_ rfl
        rcases hi with ⟨l, rfl⟩ | ⟨l, rfl⟩ | ⟨b, rfl⟩ | rfl <;> rfl
      | panic i k hstack hi ht => exact ht ▸ .of_nil rfl
      | scheduler i m k hstack hi hm ht =>
        have hon := hinv.on_scheduler hstack hi
        simp [hexec.1] at hon
      | leave k hstack hon ht => exact ht ▸ .of_nil (hinv.shape 0).owned_code
      | enter q hd hon ht => simp [hexec.1] at hon
      | op choice o k ha hstack ht =>
        subst ha
        rw [hstack] at hborn
        have hcreates := h.creating p
        rw [← hexec.stack, hstack] at hcreates
        have hseq := (hs.coded sequenced_rule).current
        rw [hstack] at hseq
        have hnodup := hinv.ownedNodup p
        rw [← hexec.stack, hstack] at hnodup
        refine ht ▸ Creates.op hcreates hseq hnodup hborn ?_
        rintro q rfl
        have haccount := account_step hstep q
        simp only [accountAfter, executes_eq hstack, Op.account, if_true] at haccount
        exact ⟨s.data.ticks, born_start (executes_eq hstack),
          (congrArg Account.ctime haccount).trans (toInt_of_lt h.short)⟩
      | syscall call hstack ht => exact ht ▸ .of_nil (by cases call <;> rfl)
      | fault hstack ht => exact ht ▸ .of_nil rfl
      | timer user _ _ ht => exact ht ▸ hsame.push (m := timerTrap true user) rfl
      | device n user _ _ ht => exact ht ▸ hsame.push (m := deviceTrap n user) rfl
    · obtain ⟨k, hstack, ht⟩ := stack_left hinv hstep hexec hstay
      rw [← hexec.stack, hstack] at hsame
      exact ht ▸ hsame.goOn (m := [.schedRet _]) rfl rfl
  · rcases stack_off hinv hstep hexec with ht | ht
    · exact ht ▸ hsame
    · exact ht ▸ .of_nil rfl

/-- A process that has been created has its creation time on the books. -/
theorem Ledger.born_step (h : Ledger s g) (hs : Reaches cfg guard s) (hstep : step cfg s a = some t)
    {p : Slot} (hunused : (t.data.proc p).state ≠ .unused) (hembryo : (t.data.proc p).state ≠ .embryo) :
    Born t (watchBooks s a g) p := by
  have hinv := hs.solo.inv
  have hkeep : Born s g p → (s.data.proc p).state ≠ .unused → Born t (watchBooks s a g) p :=
    fun hb hstate => hb.step h hs hstate (Or.inl hunused) hstep
  have hold : (s.data.proc p).state ≠ .unused → (s.data.proc p).state ≠ .embryo →
      Born t (watchBooks s a g) p := fun hu he => hkeep (h.born p hu he) hu
  cases hexecutes : executes s a with
  | none =>
    rcases idle_data hexecutes hstep with ⟨stack, hdata⟩ | ⟨q, hd, hdata⟩
    · rw [hdata] at hunused hembryo
      exact hold hunused hembryo
    · by_cases hpq : p = q
      · subst hpq
        obtain ⟨hu, he⟩ := hs.solo.dispatch_born hd
        exact hold hu he
      · rw [hdata] at hunused hembryo
        simp only [Data.setProc, Function.update_of_ne hpq] at hunused hembryo
        exact hold hunused hembryo
  | some o =>
    obtain ⟨choice, k, stack, rfl, hstack, hdata⟩ := executes_data hexecutes hstep
    obtain ⟨x, hx⟩ := hinv.cpu 0
    have hmove := (hinv.op_tableStep hx hstack cfg.policy choice).state p
    rw [hdata] at hunused hembryo
    change ((write cfg.policy (s.cpu 0).proc choice s.data o).proc p).state ≠ _ at hunused hembryo
    generalize hb : (s.data.proc p).state = b at hmove
    generalize hb' : ((write cfg.policy (s.cpu 0).proc choice s.data o).proc p).state = b'
      at hmove hunused hembryo
    cases hmove with
    | same => exact hold (hb ▸ hunused) (hb ▸ hembryo)
    | wake | park => exact hold (by simp [hb]) (by simp [hb])
    | alloc => exact absurd rfl hembryo
    | free | reap => exact absurd rfl hunused
    | run _ hnone => cases hnone
    | start howns =>
      refine hkeep ?_ (by simp [hb])
      have howns : (Instr.op o).owns = some p := Option.mem_toList.mp howns
      rcases hinv.owned_stack 0 with ⟨q, -, hq⟩ | ⟨-, hnil⟩
      · have hcreates := h.creating q
        have hnodup := hinv.ownedNodup q
        have hseq := (hs.coded sequenced_rule).current
        rw [← hq, hstack] at hcreates hnodup
        rw [hstack] at hseq
        cases o with
        | copyuvm np | forkRun np => exact Creates.stamped hcreates hseq hnodup rfl howns
        | kallocStack np | free np =>
          cases howns
          simp only [write] at hb'
          (try split at hb') <;> simp [Data.setProc, hb] at hb'
        | _ => cases howns
      · rw [hstack, owned_cons, howns] at hnil
        cases hnil

/-- Where a zombie comes from. -/
theorem zombie_step (hinv : Inv s) (hstep : step cfg s a = some t)
    (hp : (t.data.proc p).state = .zombie) :
    (s.data.proc p).state = .zombie ∨ executes s a = some .exitScan ∧ Executing s 0 p := by
  cases hexecutes : executes s a with
  | none =>
    left
    rcases idle_data hexecutes hstep with ⟨stack, hdata⟩ | ⟨q, hd, hdata⟩
    · rwa [hdata] at hp
    · rw [hdata] at hp
      by_cases hpq : p = q
      · subst hpq
        simp [Data.setProc] at hp
      · simpa [Data.setProc, hpq] using hp
  | some o =>
    obtain ⟨choice, k, stack, rfl, hstack, hdata⟩ := executes_data hexecutes hstep
    obtain ⟨x, hx⟩ := hinv.cpu 0
    have hmove := (hinv.op_tableStep hx hstack cfg.policy choice).state p
    rw [hdata] at hp
    change ((write cfg.policy (s.cpu 0).proc choice s.data o).proc p).state = _ at hp
    rw [hp] at hmove
    generalize hb : (s.data.proc p).state = b at hmove
    cases hmove with
    | same => exact Or.inl rfl
    | park _ hcur =>
      cases o with
      | exitScan => exact Or.inr ⟨rfl, hinv.executing_cur hstack (by simp) hcur⟩
      | setRunnable | goSleep =>
        simp only [Op.leaving] at hcur
        simp [write, Data.onCur, Data.setProc, hcur] at hp
      | _ => cases hcur

/-- `exit` goes on to take its end time. -/
theorem Unstamped.step (h : Unstamped (s.stack 0)) (hinv : Inv s) (hexec : Executing s 0 p)
    (hstate : (s.data.proc p).state = .zombie) (hstep : Kernel.step cfg s a = some t) :
    executes s a = some .stampEtime ∨ Executing t 0 p ∧ Unstamped (t.stack 0) := by
  obtain ⟨rest, h⟩ := h
  obtain ⟨x, hx⟩ := hinv.cpu 0
  -- the process has parked, so it holds `ptable.lock` and interrupts are off
  have hstands := hx.stands p hexec
  have hparked : x.parked = true := by
    by_contra hnot
    simp [Stands, hnot, hstate] at hstands
  have hintr : (s.cpu 0).intr ≠ true := by
    intro hon
    have hncli := hx.ncli.symm.trans (hx.intr hon)
    have hpos := List.length_pos_of_mem (hx.locked (Or.inl hparked))
    omega
  have hstay : Executing t 0 p := by
    by_contra hleft
    obtain ⟨k, hstack, -⟩ := stack_left hinv hstep hexec hleft
    simp [hstack] at h
  cases stackStep hinv hstep with
  | acquire l k hstack ht =>
    rw [hstack] at h
    simp only [List.cons.injEq, Instr.acquire.injEq, reduceCtorEq, false_and, or_false] at h
    obtain ⟨rfl, rfl⟩ := h
    exact Or.inr ⟨hstay, rest, Or.inr (Or.inl ht)⟩
  | past i k hstack hi ht =>
    rw [hstack] at h
    rcases hi with ⟨l, rfl⟩ | ⟨l, rfl⟩ | ⟨b, rfl⟩ | rfl <;>
      simp only [List.cons.injEq, Instr.spin.injEq, reduceCtorEq, false_and, or_false, false_or] at h
    obtain ⟨-, rfl⟩ := h
    exact Or.inr ⟨hstay, rest, Or.inr (Or.inr ht)⟩
  | op choice o k ha hstack ht =>
    subst ha
    rw [hstack] at h
    simp only [List.cons.injEq, Instr.op.injEq, reduceCtorEq, false_and, false_or] at h
    exact Or.inl (h.1 ▸ executes_eq hstack)
  | panic i k hstack hi ht | scheduler i _ k hstack hi _ ht =>
    rw [hstack] at h
    rcases h with h | h | h <;> cases h <;> simp [Instr.On] at hi
  | leave k hstack hon ht => simp [hstack] at h
  | enter q hd hon ht => simp [hexec.1] at hon
  | syscall call hstack ht => simp [hstack] at h
  | fault hstack ht => simp [hstack] at h
  | timer user _ hon ht => exact absurd hon hintr
  | device n user _ hon ht => exact absurd hon hintr

/-- What the books say of zombies after a step. -/
theorem Ledger.ended_step (h : Ledger s g) (hs : Reaches cfg guard s) (hstep : step cfg s a = some t)
    {p : Slot} (hp : (t.data.proc p).state = .zombie) :
    Ended t (watchBooks s a g) p ∨ (Executing t 0 p ∧ Unstamped (t.stack 0)) := by
  have hinv := hs.solo.inv
  rcases zombie_step hinv hstep hp with hold | ⟨hexecutes, hexec⟩
  · rcases h.ended p hold with hended | ⟨hexec, hun⟩
    · exact Or.inl (hended.step h hs hold (by simp [hp]) hstep)
    · exact (hun.step hinv hexec hold hstep).imp (fun he => h.stop ⟨he, hexec.2⟩ hstep) id
  · right
    obtain ⟨choice, k, stack, rfl, hstack, -⟩ := executes_data hexecutes hstep
    have hseq := (hs.coded sequenced_rule).current
    rw [hstack] at hseq
    obtain ⟨rest, rfl⟩ := hseq.1
    constructor
    · by_contra hleft
      obtain ⟨k, hsched, -⟩ := stack_left hinv hstep hexec hleft
      cases hstack.symm.trans hsched
    · exact ⟨rest, Or.inl (op_step hinv hstack hstep).1⟩

theorem Ledger.short_step (h : Ledger s g) (hshort : Short s a) (hstep : step cfg s a = some t) :
    t.data.ticks < 2 ^ 31 := by
  have hticks := ticks_step hshort hstep
  have hbound := h.short
  by_cases hinc : executes s a = some .incTicks
  · have hlt := hshort hinc
    simp only [counts, hinc, if_true] at hticks
    omega
  · simp only [counts, hinc, if_false] at hticks
    omega

/-- A step keeps the books. -/
theorem Ledger.step (h : Ledger s g) (hs : Reaches cfg guard s) (hshort : Short s a)
    (hstep : Kernel.step cfg s a = some t) : Ledger t (watchBooks s a g) where
  short := h.short_step hshort hstep
  total := h.total_step hs hshort hstep
  rtime p := (h.times_step hs hshort hstep p).1
  ctime p := (h.times_step hs hshort hstep p).2.1
  balance p := (h.times_step hs hshort hstep p).2.2
  current _ hp := h.current_step hs hshort hstep hp
  creating p := h.creating_step hs hstep p
  born _ hunused hembryo := h.born_step hs hstep hunused hembryo
  ended _ hp := h.ended_step hs hstep hp

theorem boot_ledger : Ledger boot openBooks where
  short := by decide
  total := by decide
  rtime p := by
    simp only [boot]
    split <;> exact le_rfl
  ctime p := by
    simp only [boot]
    split <;> exact le_rfl
  balance p := by
    simp only [boot]
    split <;> exact le_rfl
  current p hp := by cases hp.1
  creating p np hnp := by
    simp only [boot] at hnp
    split at hnp <;> cases hnp
  born p hunused _ := by
    by_cases hp : p = initproc
    · exact ⟨0, by simp [openBooks, hp], by simp [boot, hp]⟩
    · simp [boot, hp] at hunused
  ended p hp := by
    simp only [boot] at hp
    split at hp <;> cases hp

theorem Watched.ledger (hs : Watched cfg Short watchBooks openBooks (s, g)) : Ledger s g := by
  refine Watched.invariant boot_ledger ?_ hs
  intro s g a t hreach h hguard hstep
  exact h.step hreach hguard hstep

/-- An entry of the log about a reaped child is written by `wait` or `wait2`. -/
theorem reaped_step (hstep : step cfg s a = some t) {q p : Slot} {parent : Option Slot} {gen : Nat}
    {pid : Int} {times : Int × Int}
    (hlog : t.data.log = .reaped q parent p gen pid (some times) :: s.data.log) :
    executes s a = some (.reap p true) ∧
      times = ((s.data.proc p).etime - (s.data.proc p).ctime - (s.data.proc p).rtime,
        (s.data.proc p).rtime) := by
  have hsame : t.data.log ≠ s.data.log := by
    intro heq
    exact List.cons_ne_self _ _ (hlog.symm.trans heq)
  cases hexecutes : executes s a with
  | none =>
    rcases idle_data hexecutes hstep with ⟨stack, hdata⟩ | ⟨r, -, hdata⟩
    · exact absurd (congrArg Data.log hdata) hsame
    · exact absurd (congrArg Data.log hdata) hsame
  | some o =>
    obtain ⟨choice, k, stack, rfl, hstack, hdata⟩ := executes_data hexecutes hstep
    have hwrite : t.data.log = (write cfg.policy (s.cpu 0).proc choice s.data o).log := by rw [hdata]
    rw [hwrite] at hlog hsame
    cases o with
    | reap np two =>
      cases hcur : (s.cpu 0).proc with
      | none => exact absurd (by simp [write, hcur]) hsame
      | some r =>
        simp only [write, hcur, List.cons.injEq, Event.reaped.injEq, and_true] at hlog
        obtain ⟨-, -, rfl, -, -, htimes⟩ := hlog
        cases two with
        | false => cases htimes
        | true => exact ⟨rfl, (Option.some.inj htimes).symm⟩
    | exitScan =>
      cases hcur : (s.cpu 0).proc with
      | none => exact absurd (by simp [write, hcur]) hsame
      | some r => simp [write, hcur] at hlog
    | allocScan =>
      refine absurd ?_ hsame
      simp only [write]
      split <;> rfl
    | _ => exact absurd (write_history cfg.policy _ choice s.data rfl).2 hsame

/-- The accounts on one cpu, in every run of less than 2^31 ticks: what a process has been charged is no
more than the ticks since its creation, the ticks charged to all processes are no more than the ticks
counted, and the times `wait2` reports are not negative and add up to the ticks from the child's
`allocproc` to its `exit`. -/
theorem accounts_balance (cfg : Config) (s : State 1) (g : Books)
    (hs : Watched cfg Short watchBooks openBooks (s, g)) :
    (∀ p, 0 ≤ (s.data.proc p).rtime ∧ (s.data.proc p).rtime ≤ s.data.ticks - (s.data.proc p).ctime) ∧
      g.charged ≤ s.data.ticks ∧
      ∀ a t q parent p gen pid wtime rtime, step cfg s a = some t →
        t.data.log = .reaped q parent p gen pid (some (wtime, rtime)) :: s.data.log →
          0 ≤ rtime ∧ 0 ≤ wtime ∧ ∃ b e, g.born p = some b ∧ g.died p = some e ∧ b ≤ e ∧
            wtime + rtime = (e - b : Nat) := by
  have h := hs.ledger
  refine ⟨fun p => ⟨h.rtime p, by have := h.balance p; omega⟩, by have := h.total; omega, ?_⟩
  intro a t q parent p gen pid wtime rtime hstep hlog
  obtain ⟨hexecutes, htimes⟩ := reaped_step hstep hlog
  obtain ⟨hwtime, hrtime⟩ := Prod.mk.inj htimes
  obtain ⟨hzombie, -, hnot⟩ := reaps_zombie (s := s) (Watched.reaches hs) hexecutes
  obtain ⟨b, hb, hctime⟩ := h.born p (by simp [hzombie]) (by simp [hzombie])
  obtain ⟨e, he, hetime, hle⟩ := (h.ended p hzombie).resolve_right fun h => hnot h.1
  have hpos := h.rtime p
  refine ⟨by omega, by omega, b, e, hb, he, by omega, by omega⟩

/-- A clock tick in user space under RR that forces nobody to yield. -/
def rrTick : List (Act 1) := .timer 0 :: solo 11

/-- Init forks at time 1 and calls `wait2` at time 2; the child runs for two ticks and exits at time 4. -/
def wait2Run : List (Act 1) :=
  solo 6 ++ rrTick ++ .syscall 0 .fork :: solo 19 ++ rrTick ++ .syscall 0 .wait2 :: solo 10 ++
    rrTick ++ rrTick ++ .syscall 0 .exit :: solo 84

theorem wait2Run_balance :
    ∃ (s : State 1) (g : Books) (t : State 1),
      Watched (plain .rr) Short watchBooks openBooks (s, g) ∧
        step (plain .rr) s (.exec 0 .ok) = some t ∧ g.born firstChild = some 1 ∧
        g.died firstChild = some 4 ∧
        t.data.log = .reaped initproc (some initproc) firstChild 1 2 (some (1, 2)) :: s.data.log ∧
        g.charged ≤ s.data.ticks ∧
        ∃ b e, g.born firstChild = some b ∧ g.died firstChild = some e ∧ b ≤ e ∧
          (1 : Int) + 2 = (e - b : Nat) := by
  have hrun : ((watchedRun (plain .rr) (fun s a => Short s a) watchBooks ((boot : State 1), openBooks)
      wait2Run).map fun x => decide (x.2.born firstChild = some 1 ∧ x.2.died firstChild = some 4 ∧
        (step (plain .rr) x.1 (.exec 0 .ok)).map (fun t => t.data.log) =
          some (.reaped initproc (some initproc) firstChild 1 2 (some (1, 2)) :: x.1.data.log))) =
      some true := by decide +kernel
  obtain ⟨⟨s, g⟩, hs, hfacts⟩ := Option.map_eq_some_iff.mp hrun
  obtain ⟨hborn, hdied, hnext⟩ := of_decide_eq_true hfacts
  obtain ⟨t, hstep, hlog⟩ := Option.map_eq_some_iff.mp hnext
  have hreach : Watched (plain .rr) Short watchBooks openBooks (s, g) :=
    Watched.run (fun _ _ h => of_decide_eq_true h) (.start rfl) hs
  obtain ⟨-, hcharged, hreaped⟩ := accounts_balance (plain .rr) s g hreach
  exact ⟨s, g, t, hreach, hstep, hborn, hdied, hlog, hcharged,
    (hreaped _ t _ _ _ _ _ _ _ hstep hlog).2.2⟩

end Xv6.Kernel
