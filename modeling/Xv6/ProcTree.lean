import Xv6.KernelOps

/-! The process tree. Every process but init has a parent that is alive; a process that sleeps in `wait`
has no zombie child. Both are kept by every operation on the table, made in its place. -/

namespace Xv6.Kernel

/-- The process is asleep in `wait` or `wait2`. -/
def SleepsInWait (t : Table) (p : Slot) : Prop :=
  (t p).state = .sleeping ∧ (t p).chan = some (.proc p)

instance (t : Table) (p : Slot) : Decidable (SleepsInWait t p) := inferInstanceAs (Decidable (_ ∧ _))

/-- The invariant of the parent links and of the channels. A process sleeps on a `struct proc` only in
`wait`, and that is its own. -/
structure Tree (t : Table) : Prop where
  initLive : (t initproc).state.Live
  initParent : (t initproc).parent = none
  parentLive : ∀ p q, (t p).parent = some q → (t q).state.Live ∧ q ≠ p
  parented : ∀ p, p ≠ initproc → (t p).state.Live ∨ (t p).state = .zombie → (t p).parent ≠ none
  ownChan : ∀ p q, (t p).state = .sleeping → (t p).chan = some (.proc q) → q = p
  noZombie : ∀ p, SleepsInWait t p → ∀ z, (t z).parent = some p → (t z).state ≠ .zombie

/-- A change that starts and ends no process and sends none to sleep. -/
structure Calm (t u : Table) : Prop where
  parent : ∀ p, (u p).parent = (t p).parent
  pid : ∀ p, (u p).pid = (t p).pid
  live : ∀ p, (u p).state.Live ↔ (t p).state.Live
  zombie : ∀ p, (u p).state = .zombie ↔ (t p).state = .zombie
  unused : ∀ p, (t p).state = .unused → (u p).state = .unused
  sleeping : ∀ p, (u p).state = .sleeping → (t p).state = .sleeping ∧ (u p).chan = (t p).chan

section Table

variable {t u : Table} {p q self np : Slot}

theorem Calm.refl (t : Table) : Calm t t :=
  ⟨fun _ => rfl, fun _ => rfl, fun _ => Iff.rfl, fun _ => Iff.rfl, fun _ => id, fun _ h => ⟨h, rfl⟩⟩

theorem Calm.wakes (h : Wakes t u) (hparent : ∀ p, (u p).parent = (t p).parent)
    (hpid : ∀ p, (u p).pid = (t p).pid) (hchan : ∀ p, (u p).chan = (t p).chan) : Calm t u := by
  refine ⟨hparent, hpid, fun p => ?_, fun p => ?_, fun p hp => ?_, fun p hp => ⟨h.sleeping hp, hchan p⟩⟩
  · exact h.live
  · exact h.zombie
  · rw [h.eq_of_ne (by simp [hp]), hp]

/-- A change of one slot is calm if it is so there. -/
theorem Calm.update {v : Proc} (hparent : v.parent = (t p).parent) (hpid : v.pid = (t p).pid)
    (hlive : v.state.Live ↔ (t p).state.Live) (hzombie : v.state = .zombie ↔ (t p).state = .zombie)
    (hunused : (t p).state = .unused → v.state = .unused)
    (hsleeping : v.state = .sleeping → (t p).state = .sleeping ∧ v.chan = (t p).chan) :
    Calm t (Function.update t p v) := by
  have hother : ∀ r, r ≠ p → Function.update t p v r = t r := fun r hr => Function.update_of_ne hr v t
  constructor
  all_goals
    intro r
    by_cases hr : r = p
    · subst hr
      simpa using by assumption
    · simp [hother r hr]

theorem Tree.calm (h : Tree t) (hc : Calm t u) : Tree u where
  initLive := (hc.live _).mpr h.initLive
  initParent := (hc.parent _).trans h.initParent
  parentLive p q hq := by
    obtain ⟨hlive, hne⟩ := h.parentLive p q ((hc.parent p).symm.trans hq)
    exact ⟨(hc.live q).mpr hlive, hne⟩
  parented p hp hstate := by
    rw [hc.parent p]
    exact h.parented p hp (hstate.imp (hc.live p).mp (hc.zombie p).mp)
  ownChan p q hs hchan := by
    obtain ⟨hs', hchan'⟩ := hc.sleeping p hs
    exact h.ownChan p q hs' (hchan' ▸ hchan)
  noZombie p hp z hz hzombie := by
    obtain ⟨hs, hchan⟩ := hc.sleeping p hp.1
    exact h.noZombie p ⟨hs, hchan ▸ hp.2⟩ z (hc.parent z ▸ hz) ((hc.zombie z).mp hzombie)

/-- A change of one slot to anything but a zombie. -/
theorem Tree.update (h : Tree t) {v : Proc} (hlive : (t p).state.Live → v.state.Live)
    (hinit : p = initproc → v.parent = none)
    (hparent : ∀ q, v.parent = some q → (t q).state.Live ∧ q ≠ p)
    (hparented : p ≠ initproc → v.state.Live → v.parent ≠ none)
    (hsleeping : v.state = .sleeping → ∀ q, v.chan = some (.proc q) →
      q = p ∧ ∀ z, (t z).parent = some p → (t z).state ≠ .zombie)
    (hzombie : v.state ≠ .zombie) : Tree (Function.update t p v) := by
  have hself : Function.update t p v p = v := Function.update_self ..
  have hother : ∀ r, r ≠ p → Function.update t p v r = t r := fun r hr => Function.update_of_ne hr v t
  have hkeep : ∀ r, (t r).state.Live → (Function.update t p v r).state.Live := by
    intro r hr
    by_cases hrp : r = p
    · subst hrp
      rw [hself]
      exact hlive hr
    · rwa [hother r hrp]
  constructor
  · exact hkeep initproc h.initLive
  · by_cases hp : initproc = p
    · rw [hp, hself]
      exact hinit hp.symm
    · rw [hother _ hp]
      exact h.initParent
  · intro r q hq
    by_cases hr : r = p
    · subst hr
      rw [hself] at hq
      exact ⟨hkeep q (hparent q hq).1, (hparent q hq).2⟩
    · rw [hother r hr] at hq
      exact ⟨hkeep q (h.parentLive r q hq).1, (h.parentLive r q hq).2⟩
  · intro r hr hstate
    by_cases hrp : r = p
    · subst hrp
      rw [hself] at hstate ⊢
      exact hparented hr (hstate.resolve_right hzombie)
    · rw [hother r hrp] at hstate ⊢
      exact h.parented r hr hstate
  · intro r q hs hchan
    by_cases hr : r = p
    · subst hr
      rw [hself] at hs hchan
      exact (hsleeping hs q hchan).1
    · rw [hother r hr] at hs hchan
      exact h.ownChan r q hs hchan
  · intro r hr z hz hzz
    have hzp : z ≠ p := by
      rintro rfl
      rw [hself] at hzz
      exact hzombie hzz
    rw [hother z hzp] at hz hzz
    by_cases hrp : r = p
    · subst hrp
      rw [SleepsInWait, hself] at hr
      exact (hsleeping hr.1 r hr.2).2 z hz hzz
    · rw [SleepsInWait, hother r hrp] at hr
      exact h.noZombie r hr z hz hzz

theorem exitTable_spec (hself : initproc ≠ self) (t : Table) (p : Slot) :
    (exitTable initproc self t p).parent =
        (if (t p).parent = some self then some initproc else (t p).parent) ∧
      (exitTable initproc self t p).chan = (t p).chan ∧
      (exitTable initproc self t p).pid = (t p).pid := by
  obtain hspec := passed_spec initproc self hself t p
  rw [exitTable_eq]
  by_cases hp : p = self
  · subst hp
    simpa using hspec
  · rw [Function.update_of_ne hp]
    exact hspec

/-- `exit`: the process becomes a zombie after it has woken its parent, its children become those of
init, which is woken if there is a zombie among them. -/
theorem Tree.exit (h : Tree t) (hinit : initproc ≠ self) (hlive : (t self).state.Live) :
    Tree (exitTable initproc self t) := by
  have hspec := exitTable_spec hinit t
  have hwakes := passed_wakes initproc self t
  have hstate : ∀ r, r ≠ self →
      (exitTable initproc self t r).state = (passed initproc self t r).state := by
    intro r hr
    rw [exitTable_state, if_neg hr]
  have hzombie : (exitTable initproc self t self).state = .zombie := by
    rw [exitTable_state, if_pos rfl]
  have hsleeping : ∀ r, (exitTable initproc self t r).state = .sleeping →
      (passed initproc self t r).state = .sleeping := by
    intro r hr
    rw [← hstate r ?_, hr]
    rintro rfl
    rw [hzombie] at hr
    cases hr
  have hkeep : ∀ q, q ≠ self → (t q).state.Live → (exitTable initproc self t q).state.Live := by
    intro q hq hlive
    rw [hstate q hq]
    exact hwakes.live.mpr hlive
  constructor
  · exact hkeep _ hinit h.initLive
  · rw [(hspec _).1, h.initParent]
    rfl
  · intro r q hq
    rw [(hspec r).1] at hq
    by_cases hr : (t r).parent = some self
    · rw [if_pos hr] at hq
      cases Option.some.inj hq
      refine ⟨hkeep _ hinit h.initLive, ?_⟩
      rintro rfl
      rw [h.initParent] at hr
      cases hr
    · rw [if_neg hr] at hq
      have hqs : q ≠ self := by
        rintro rfl
        exact hr hq
      exact ⟨hkeep q hqs (h.parentLive r q hq).1, (h.parentLive r q hq).2⟩
  · intro r hr hst
    have hold : (t r).parent ≠ none := by
      by_cases hrs : r = self
      · subst hrs
        exact h.parented r hr (Or.inl hlive)
      · rw [hstate r hrs] at hst
        exact h.parented r hr (hst.imp hwakes.live.mp hwakes.zombie.mp)
    rw [(hspec r).1]
    split
    · exact nofun
    · exact hold
  · intro r q hs hchan
    rw [(hspec r).2.1] at hchan
    exact h.ownChan r q (hwakes.sleeping (hsleeping r hs)) hchan
  · intro r hr z hz hzz
    have hs := hsleeping r hr.1
    have hchan : (t r).chan = some (.proc r) := (hspec r).2.1 ▸ hr.2
    rw [(hspec z).1] at hz
    by_cases hzs : z = self
    · -- the new zombie has woken its parent
      subst hzs
      have hne : (t z).parent ≠ some z := fun hzz => (h.parentLive z z hzz).2 rfl
      rw [if_neg hne] at hz
      exact passed_wakes_parent initproc z hz r hchan hs
    · rw [hstate z hzs] at hzz
      have hzt := hwakes.zombie.mp hzz
      by_cases hparent : (t z).parent = some self
      · rw [if_pos hparent] at hz
        cases Option.some.inj hz
        exact passed_wakes_init initproc self hparent hzt _ hchan hs
      · rw [if_neg hparent] at hz
        exact h.noZombie r ⟨hwakes.sleeping hs, hchan⟩ z hz hzt

end Table

section Write

variable {policy : Policy} {cur : Option Slot} {choice : Choice} {d : Data} {x : Ctx} {o : Op}

/-- The operations that start or end a process, link it to a parent, or send it to sleep. -/
def Op.shapes : Op → Bool
  | .goSleep _ | .allocScan | .copyuvm _ | .forkRun _ | .exitScan | .reap _ _ => true
  | _ => false

theorem Calm.onCur {f : Proc → Proc} (hstate : ∀ p, (f p).state = p.state)
    (hparent : ∀ p, (f p).parent = p.parent) (hpid : ∀ p, (f p).pid = p.pid)
    (hchan : ∀ p, (f p).chan = p.chan) : Calm d.proc (d.onCur cur f).proc := by
  cases cur with
  | none => exact Calm.refl _
  | some p =>
    refine Calm.update (hparent _) (hpid _) ?_ ?_ ?_ ?_ <;> rw [hstate]
    · exact id
    · exact fun h => ⟨h, hchan _⟩

/-- A change of the current process, which is `RUNNING` and does not go to sleep. -/
theorem Calm.running {f : Proc → Proc} (hcur : ∀ p, cur = some p → (d.proc p).state = .running)
    (hlive : ∀ p, p.state = .running → (f p).state = .running ∨ (f p).state = .runnable)
    (hparent : ∀ p, (f p).parent = p.parent) (hpid : ∀ p, (f p).pid = p.pid) :
    Calm d.proc (d.onCur cur f).proc := by
  cases cur with
  | none => exact Calm.refl _
  | some p =>
    have hrun := hcur p rfl
    refine Calm.update (hparent _) (hpid _) ?_ ?_ ?_ ?_ <;>
      rcases hlive _ hrun with hf | hf <;> simp [hf, hrun, ProcState.Live]

theorem write_calm (hfits : o.Fits x) (hcur : ∀ p, cur = some p → Stands x (d.proc p).state)
    (hown : ∀ np, (Instr.op o).owns = some np → (d.proc np).state = .embryo) (ho : o.shapes = false) :
    Calm d.proc (write policy cur choice d o).proc := by
  cases o with
  | goSleep | allocScan | copyuvm | forkRun | exitScan | reap => cases ho
  | wakeup1 chan =>
    exact Calm.wakes (wakeup1_wakes _ _) (wakeup1_parent _ _) (wakeup1_pid _ _) (wakeup1_chan _ _)
  | kill pid =>
    refine Calm.wakes (killTable_wakes _ _) ?_ ?_ ?_ <;>
      · intro p
        rcases killTable_apply pid d.proc p with h | h <;> simp [write, h]
  | setRunnable | clearChan =>
    simp only [Op.Fits] at hfits
    subst hfits
    refine Calm.running (fun p hp => by simpa [Stands] using hcur p hp) ?_ (fun _ => rfl) fun _ => rfl
    intro p hp
    simp [hp]
  | stampEtime | nice | fault => exact Calm.onCur (fun _ => rfl) (fun _ => rfl) (fun _ => rfl) fun _ => rfl
  | kallocStack np =>
    simp only [write]
    split <;> exact Calm.refl _
  | stampCtime np => exact Calm.update rfl rfl Iff.rfl Iff.rfl id fun h => ⟨h, rfl⟩
  | free np =>
    have hembryo := hown np rfl
    exact Calm.update rfl rfl (by simp [hembryo, ProcState.Live]) (by simp [hembryo]) (fun _ => rfl) (by simp)
  | trapTail user timer =>
    cases cur with
    | none => exact Calm.refl _
    | some p =>
      simp only [write]
      split
      · exact Calm.refl _
      · exact Calm.update rfl rfl Iff.rfl Iff.rfl id fun h => ⟨h, rfl⟩
  | trapLow =>
    cases cur with
    | none => exact Calm.refl _
    | some p =>
      simp only [write]
      split <;> exact Calm.refl _
  | incTicks | doExit | waitScan | sleepStart | sleepLoop | trapKilled | checkKilled | kmemWork | dups
  | fileWork | work | intrWork => exact Calm.refl _

/-- Every operation in its place keeps the tree. -/
theorem write_tree (h : Tree d.proc) (hfits : o.Fits x) (hknown : x.known.Holds d.proc cur)
    (hcur : ∀ p, cur = some p → Stands x (d.proc p).state)
    (hown : ∀ np, (Instr.op o).owns = some np → (d.proc np).state = .embryo)
    (hexit : o = .exitScan → cur ≠ some initproc)
    (hfork : ∀ np, o = .forkRun np → (d.proc np).parent ≠ none) :
    Tree (write policy cur choice d o).proc := by
  have hembryo : ∀ {np : Slot}, (d.proc np).state = .embryo ∨ (d.proc np).state = .unused ∨
      (d.proc np).state = .zombie → ¬(d.proc np).state.Live ∧ np ≠ initproc := by
    intro np hnp
    have hdead : ¬(d.proc np).state.Live := by
      rcases hnp with hnp | hnp | hnp <;> simp [hnp, ProcState.Live]
    exact ⟨hdead, fun hinit => hdead (hinit ▸ h.initLive)⟩
  cases o with
  | goSleep chan =>
    cases cur with
    | none => exact h
    | some p =>
      simp only [Op.Fits] at hfits
      subst hfits
      have hrun : (d.proc p).state = .running := by simpa [Stands] using hcur p rfl
      have hlive : (d.proc p).state.Live := Or.inr (Or.inl hrun)
      refine h.update (fun _ => Or.inr (Or.inr rfl)) ?_ (h.parentLive p)
        (fun hp _ => h.parented p hp (Or.inl hlive)) ?_ (by simp)
      · rintro rfl
        exact h.initParent
      · intro _ q hq
        simp only [Option.some.injEq] at hq
        subst hq
        obtain ⟨hpq, hnone⟩ := hknown
        cases Option.some.inj hpq
        exact ⟨rfl, hnone⟩
  | allocScan =>
    simp only [write]
    cases hfind : findUnused d.proc with
    | none => exact h
    | some np =>
      obtain ⟨hdead, hinit⟩ := hembryo (Or.inr (Or.inl (findUnused_state hfind)))
      exact h.update (fun hlive => absurd hlive hdead) (fun hnp => absurd hnp hinit)
        (h.parentLive np) (by simp [ProcState.Live]) (by simp) (by simp)
  | copyuvm np =>
    simp only [write]
    split
    · obtain ⟨hdead, hinit⟩ := hembryo (Or.inl (hown np rfl))
      refine h.update id (fun hnp => absurd hnp hinit) ?_ (fun _ hlive => absurd hlive hdead) ?_ ?_
      · intro q hq
        simp only [Op.Fits] at hfits
        subst hfits
        have hrun : (d.proc q).state = .running := by simpa [Stands] using hcur q hq
        refine ⟨Or.inr (Or.inl hrun), ?_⟩
        rintro rfl
        rw [hown q rfl] at hrun
        cases hrun
      · exact fun hs => absurd (Or.inr (Or.inr hs)) hdead
      · simp [hown np rfl]
    · exact h
  | forkRun np =>
    obtain ⟨hdead, hinit⟩ := hembryo (Or.inl (hown np rfl))
    exact h.update (fun _ => Or.inl rfl) (fun hnp => absurd hnp hinit) (h.parentLive np)
      (fun _ _ => hfork np rfl) (by simp) (by simp)
  | exitScan =>
    cases cur with
    | none => exact h
    | some p =>
      simp only [Op.Fits] at hfits
      subst hfits
      have hrun : (d.proc p).state = .running := by simpa [Stands] using hcur p rfl
      refine h.exit ?_ (Or.inr (Or.inl hrun))
      rintro rfl
      exact hexit rfl rfl
  | reap np two =>
    cases cur with
    | none => exact h
    | some q =>
      simp only [Op.Fits] at hfits
      subst hfits
      obtain ⟨hdead, -⟩ := hembryo (Or.inr (Or.inr hknown.1))
      exact h.update (fun hlive => absurd hlive hdead) (fun _ => rfl) (by simp [Proc.clear])
        (by simp [Proc.clear, ProcState.Live]) (by simp [Proc.clear]) (by simp [Proc.clear])
  | _ => exact h.calm (write_calm hfits hcur hown rfl)

end Write

end Xv6.Kernel
