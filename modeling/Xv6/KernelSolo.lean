import Xv6.FairDispatch
import Xv6.KernelAccounts
import Xv6.ProcKill

/-! One cpu. Under RR2Q the scheduler may switch to a process that sleeps or has exited, so the
invariant of the machine, which was proved for switches to `RUNNABLE` processes, needs another argument:
with one cpu nobody executes while a scheduler scans, and such a process might as well be `RUNNABLE`. -/

namespace Xv6.Kernel

/-- Slots without a process, and those in creation, have priority 0. -/
def Plain (d : Data) : Prop :=
  ∀ p, (d.proc p).state = .unused ∨ (d.proc p).state = .embryo → (d.proc p).priority = 0

variable {ncpu : Nat} {cfg : Config}

section Plain

variable {s t : State ncpu} {a : Act ncpu} {c : Fin ncpu} {x : Ctx}

theorem account_priority {p : Proc} {b : Account} (h : account p = b) : p.priority = b.priority :=
  congrArg Account.priority h

/-- Where a slot without a process, or in creation, comes from. -/
theorem write_unborn {policy : Policy} {choice : Choice} {o : Op} {k : Code} (h : Inv s)
    (hx : CpuInv s c x) (hstack : s.stack c = .op o :: k) {p : Slot} (hreap : ∀ two, o ≠ .reap p two)
    (hp : ((write policy (s.cpu c).proc choice s.data o).proc p).state = .unused ∨
      ((write policy (s.cpu c).proc choice s.data o).proc p).state = .embryo) :
    (s.data.proc p).state = .unused ∨ (s.data.proc p).state = .embryo := by
  have hembryo := h.owned_embryo c
  rw [hstack] at hembryo
  have hown : ∀ np, (Instr.op o).owns = some np → (s.data.proc np).state = .embryo :=
    fun np hnp => hembryo np (mem_owned_of_owns hnp k)
  rcases hp with hp | hp
  · by_cases hlist : o = .allocScan ∨ (∃ np two, o = .reap np two) ∨ ∃ np, o = .free np
    · rcases hlist with rfl | ⟨np, two, rfl⟩ | ⟨np, rfl⟩
      · simp only [write] at hp
        split at hp
        · exact Or.inl hp
        · rename_i np hfind
          by_cases hpn : p = np
          · subst hpn
            exact Or.inl (findUnused_state hfind)
          · simp only [Data.setProc, Function.update_of_ne hpn] at hp
            exact Or.inl hp
      · have hpn : p ≠ np := fun heq => hreap two (heq ▸ rfl)
        simp only [write] at hp
        split at hp
        · simp only [Data.setProc, Function.update_of_ne hpn] at hp
          exact Or.inl hp
        · exact Or.inl hp
      · by_cases hpn : p = np
        · subst hpn
          exact Or.inr (hown p rfl)
        · simp only [write, Data.setProc, Function.update_of_ne hpn] at hp
          exact Or.inl hp
    · push Not at hlist
      refine Or.inl ((write_unused (hx.stacked hstack (by simp)).op.1 ?_ hown hlist.1 hlist.2.1 hlist.2.2
        p).mp hp)
      exact fun q hq => hx.stands q (h.executing_cur hstack (by simp) hq)
  · rcases h.follows_op hx hstack policy choice p with hsame | hfollows
    · exact Or.inr (hsame.symm.trans hp)
    · rw [hp] at hfollows
      generalize (s.data.proc p).state = b at hfollows
      cases hfollows
      exact Or.inl rfl

/-- An operation lets slots without a process keep priority 0. -/
theorem Plain.op (hplain : Plain s.data) (h : Inv s) (hx : CpuInv s c x) {o : Op} {k : Code}
    (hstack : s.stack c = .op o :: k) (policy : Policy) (choice : Choice) :
    Plain (write policy (s.cpu c).proc choice s.data o) := by
  intro p hp
  have hpriority := account_priority (write_account policy (s.cpu c).proc choice s.data o p)
  rw [hpriority]
  by_cases hreap : ∃ two, o = .reap p two
  · obtain ⟨two, rfl⟩ := hreap
    cases hcur : (s.cpu c).proc with
    | none =>
      rw [hcur] at hp
      simpa [Op.account, account] using hplain p hp
    | some q => simp [Op.account]
  · push Not at hreap
    have hold := write_unborn h hx hstack hreap hp
    have hzero : (account (s.data.proc p)).priority = 0 := hplain p hold
    have hcur : (s.cpu c).proc ≠ some p := by
      intro hcur
      have hstands := hx.stands p (h.executing_cur hstack (by simp) hcur)
      unfold Stands at hstands
      rcases hold with hold | hold <;> rw [hold] at hstands <;> split at hstands <;> simp at hstands
    cases o with
    | stampCtime np =>
      simp only [Op.account]
      split
      · rfl
      · exact hzero
    | reap np two =>
      simp only [Op.account]
      split
      · rfl
      · exact hzero
    | nice | stampEtime | trapTail => simpa [Op.account, hcur] using hzero
    | _ => exact hzero

end Plain

/-- A dispatch is a switch of the scheduler in its scan. -/
theorem dispatch_eq {s t : State ncpu} {a : Act ncpu} {q : Slot} (hd : dispatches cfg s a = some q)
    (hstep : step cfg s a = some t) :
    ∃ c choice p k l next, a = .exec c choice ∧ s.stack c = .scanSlot p :: k ∧
      t = s.dispatch c q l (.afterSwtch next :: k) := by
  cases a with
  | exec c choice =>
    simp only [dispatches] at hd
    split at hd
    · rename_i p k hstack
      split at hd
      · rename_i hp
        split at hd
        · rename_i r next he
          cases hd
          simp only [step, exec, hstack, execInstr, dif_pos hp, scan, he] at hstep
          exact ⟨c, choice, p, k, _, next, rfl, hstack, (Option.some.inj hstep).symm⟩
        · cases hd
      · cases hd
    · cases hd
  | _ => cases hd

/-- Under RR2Q a process that is switched to is `RUNNABLE` or has low priority. -/
theorem rr2q_dispatches {s : State ncpu} {a : Act ncpu} {q : Slot} (hrr2q : cfg.policy = .rr2q)
    (hd : dispatches cfg s a = some q) :
    (s.data.proc q).state = .runnable ∨ (s.data.proc q).priority ≠ 0 := by
  cases a with
  | exec c choice =>
    simp only [dispatches] at hd
    split at hd
    · split at hd
      · rename_i p k _ hp
        split at hd
        · rename_i r next he
          cases hd
          simp only [examineSlot, hrr2q] at he
          split at he
          · cases he
          · rename_i r hchosen
            split at he
            · rename_i hr
              cases he
              simpa [Config.memory, hr] using Rr2q.examine_chosen hchosen
            · cases he
        · cases hd
      · cases hd
    · cases hd
  | _ => cases hd

section Solo

variable {s t : State 1} {a : Act 1} {c : Fin 1} {x : Ctx} {k : Code}

/-- While the scheduler scans, any process that is not in creation may be made `RUNNABLE`. -/
theorem Inv.make_runnable (h : Inv s) {p : Nat} (hstack : s.stack c = .scanSlot p :: k) {q : Slot}
    (hq : (s.data.proc q).state ≠ .embryo) :
    Inv { s with data := s.data.setProc q fun p => { p with state := .runnable } } := by
  have hon := h.on_scheduler hstack rfl
  have hidle : ∀ d r, ¬Executing s d r := by
    intro d r hr
    obtain rfl : d = c := Subsingleton.elim _ _
    simp [hr.1] at hon
  obtain ⟨x, hx⟩ := h.cpu c
  obtain ⟨hfits, -⟩ := hx.fits hstack nofun nofun
  simp only [Instr.Fits] at hfits
  subst hfits
  constructor
  · intro d
    obtain rfl : d = c := Subsingleton.elim _ _
    exact ⟨.on .ptable, hx.typed, hx.held, hx.nodup, hx.locked, hx.ncli, hx.intr, trivial,
      fun r hr => absurd hr (hidle d r)⟩
  · exact h.shape
  · exact h.off
  · exact h.once
  · exact h.code
  · intro r np hnp
    have hembryo := h.embryo r np hnp
    have hne : np ≠ q := by
      rintro rfl
      exact hq hembryo
    simpa [Data.setProc, hne] using hembryo
  · exact h.ownedNodup
  · exact h.ownedOnce

/-- A switch to any process that is not in creation keeps the invariant. -/
theorem Inv.dispatch_solo (h : Inv s) {p : Nat} (hstack : s.stack c = .scanSlot p :: k) {q : Slot}
    (hq : (s.data.proc q).state ≠ .embryo) (l : Locals) (next : Nat) :
    Inv (s.dispatch c q l (.afterSwtch next :: k)) := by
  have hready := h.make_runnable hstack hq
  obtain ⟨x, hx⟩ := hready.cpu c
  have hsame : s.dispatch c q l (.afterSwtch next :: k) =
      State.dispatch { s with data := s.data.setProc q fun p => { p with state := .runnable } } c q l
        (.afterSwtch next :: k) := by
    simp [State.dispatch, Data.setProc]
  rw [hsame]
  refine (framed_dispatch hready hx hstack ?_).inv hready
  simp [Data.setProc]

/-- What is known of the scheduler of one cpu, under every policy. -/
structure Solo (cfg : Config) (s : State 1) : Prop where
  inv : Inv s
  plain : Plain s.data
  recalls : cfg.policy = .fair2q → AllRecall s

/-- The scheduler switches to processes only that have been created. -/
theorem Solo.dispatch_born (h : Solo cfg s) {q : Slot} (hd : dispatches cfg s a = some q) :
    (s.data.proc q).state ≠ .unused ∧ (s.data.proc q).state ≠ .embryo := by
  cases hpolicy : cfg.policy with
  | rr => simp [rr_dispatchesRunnable hpolicy s a q hd]
  | fair2q => simp [(h.recalls hpolicy).dispatchesRunnable hpolicy a q hd]
  | rr2q =>
    rcases rr2q_dispatches hpolicy hd with hrun | hlow
    · simp [hrun]
    · exact ⟨fun hq => hlow (h.plain q (Or.inl hq)), fun hq => hlow (h.plain q (Or.inr hq))⟩

theorem Solo.step (h : Solo cfg s) (hstep : Kernel.step cfg s a = some t) : Solo cfg t := by
  constructor
  · cases hd : dispatches cfg s a with
    | none => exact (framed_step h.inv (fun q hq => by simp [hd] at hq) hstep).inv h.inv
    | some q =>
      obtain ⟨c, choice, p, k, l, next, rfl, hstack, rfl⟩ := dispatch_eq hd hstep
      exact h.inv.dispatch_solo hstack (h.dispatch_born hd).2 l next
  · cases dataStep hstep with
    | kept _ hdata =>
      obtain ⟨stack, hdata⟩ := hdata
      rw [hdata]
      exact h.plain
    | dispatch q c choice p k _ _ hd hdata =>
      rw [hdata]
      intro r hr
      by_cases hrq : r = q
      · subst hrq
        simp [Data.setProc] at hr
      · simp only [Data.setProc, Function.update_of_ne hrq] at hr ⊢
        exact h.plain r hr
    | op c choice o k stack _ hstack _ hdata =>
      obtain ⟨x, hx⟩ := h.inv.cpu c
      rw [hdata]
      exact h.plain.op h.inv hx hstack cfg.policy choice
  · intro hfair
    refine (h.recalls hfair).step h.inv hfair ?_ hstep
    exact fun q _ d hd => absurd (Subsingleton.elim _ _) hd

theorem boot_solo : Solo cfg boot where
  inv := boot_inv
  plain p _ := by
    simp only [boot]
    split <;> rfl
  recalls _ _ := recalls_of_reset rfl rfl

theorem Reaches.solo {guard : State 1 → Act 1 → Prop} (hs : Reaches cfg guard s) : Solo cfg s := by
  apply LibRun.Reachable.invariant _ _ hs
  · rintro _ rfl
    exact boot_solo
  · rintro s t - h ⟨a, -, hstep⟩
    exact h.step hstep

end Solo

end Xv6.Kernel
