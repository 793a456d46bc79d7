import Mathlib
import Xv6.ProcStates

/-! `kill` and the reuse of slots. `kill` looks at the pids of all slots, used or not, and `allocproc`
does not clear `killed`: a pid left in an unused slot, or the pid 0 of a clean one, lets `kill` mark a
process that does not exist yet. Without such calls and without forks that fail, it marks live ones. -/

namespace Xv6.Kernel

open LibWord Function

/-- The number of pids given out so far. -/
def issued (d : Data) : Nat := ∑ p, d.gen p

/-- Unused slots carry neither a pid nor a mark, and no two processes have the same pid. -/
structure KillSafe (t : Table) : Prop where
  clean : ∀ p, (t p).state = .unused → (t p).killed = false ∧ (t p).pid = 0
  distinct : ∀ p q, (t p).state ≠ .unused → (t q).state ≠ .unused → (t p).pid = (t q).pid → p = q

/-- The condition on a step: `kill` is not called with the pid of an unused slot, and no fork that has
got a slot fails. -/
def Harmless {ncpu : Nat} (s : State ncpu) : Act ncpu → Prop
  | .exec c _ =>
    match s.stack c with
    | .op (.kill pid) :: _ => ∀ p, (s.data.proc p).state = .unused → (s.data.proc p).pid ≠ pid
    | .op (.free _) :: _ => False
    | _ => True
  | _ => True

/-- The pids in use are those given out. -/
structure Ids (d : Data) : Prop extends KillSafe d.proc where
  pid : ∀ p, (d.proc p).state ≠ .unused → 0 < (d.proc p).pid ∧ (d.proc p).pid ≤ issued d
  next : d.nextpid = toInt (issued d + 1)

/-- Pids and marks are the same. -/
def SameIds (t u : Table) : Prop := ∀ p, (u p).pid = (t p).pid ∧ (u p).killed = (t p).killed

section Table

variable {t u v : Table}

theorem SameIds.refl : SameIds t t := fun _ => ⟨rfl, rfl⟩

theorem SameIds.trans (h : SameIds t u) (h' : SameIds u v) : SameIds t v := fun p =>
  ⟨(h' p).1.trans (h p).1, (h' p).2.trans (h p).2⟩

theorem SameIds.update {p : Slot} {q : Proc} (hpid : q.pid = (t p).pid) (hkilled : q.killed = (t p).killed) :
    SameIds t (update t p q) := by
  intro r
  by_cases hr : r = p
  · subst hr
    rw [update_self]
    exact ⟨hpid, hkilled⟩
  · rw [update_of_ne hr]
    exact ⟨rfl, rfl⟩

theorem sameIds_wakeup1 (t : Table) (chan : Option Chan) : SameIds t (wakeup1 t chan) := by
  intro p
  rw [wakeup1]
  split <;> exact ⟨rfl, rfl⟩

theorem sameIds_passed (self : Slot) (t : Table) : SameIds t (passed initproc self t) := by
  have hone : ∀ u a, SameIds u (reparentOne initproc self u a) := by
    intro u a
    have hupdate : SameIds u (update u a { u a with parent := some initproc }) := .update rfl rfl
    by_cases ha : (u a).parent = some self
    · rcases reparentOne_of_eq initproc self ha with h | h <;> rw [h]
      · exact hupdate
      · exact hupdate.trans (sameIds_wakeup1 _ _)
    · rw [reparentOne_of_ne initproc self ha]
      exact .refl
  have hfold : ∀ (l : List Slot) (u : Table), SameIds u (l.foldl (reparentOne initproc self) u) := by
    intro l
    induction l with
    | nil => exact fun _ => .refl
    | cons a l ih => exact fun u => (hone u a).trans (ih _)
  exact (sameIds_wakeup1 _ _).trans (hfold _ _)

theorem KillSafe.keep (h : KillSafe t) (hids : SameIds t u)
    (hunused : ∀ p, (u p).state = .unused ↔ (t p).state = .unused) : KillSafe u := by
  constructor
  · intro p hp
    rw [(hids p).1, (hids p).2]
    exact h.clean p ((hunused p).mp hp)
  · intro p q hp hq heq
    rw [(hids p).1, (hids q).1] at heq
    exact h.distinct p q (fun h => hp ((hunused p).mpr h)) (fun h => hq ((hunused q).mpr h)) heq

/-- `kill` finds the process with the pid, if an unused slot does not have it. -/
theorem kill_spec {pid : Int} (hpid : ∀ p, (t p).state = .unused → (t p).pid ≠ pid) :
    (killResult pid t = 0 ↔ ∃ p, (t p).state ≠ .unused ∧ (t p).pid = pid) ∧
      ∀ p, killTable pid t p ≠ t p → (t p).state ≠ .unused ∧ (t p).pid = pid := by
  have hlive : ∀ p, (t p).pid = pid → (t p).state ≠ .unused := fun p hp hun => hpid p hun hp
  unfold killResult killTable
  cases hfind : slots.find? fun p => decide ((t p).pid = pid) with
  | none =>
    refine ⟨⟨nofun, ?_⟩, fun p hp => absurd rfl hp⟩
    rintro ⟨p, -, hp⟩
    have hnot := List.find?_eq_none.mp hfind p (mem_slots p)
    exact absurd hp (by simpa using hnot)
  | some q =>
    have hq : (t q).pid = pid := by simpa using List.find?_some hfind
    refine ⟨⟨fun _ => ⟨q, hlive q hq, hq⟩, fun _ => rfl⟩, fun p hp => ?_⟩
    by_cases hpq : p = q
    · subst hpq
      exact ⟨hlive p hq, hq⟩
    · exact absurd (update_of_ne hpq ..) hp

end Table

section Write

variable {policy : Policy} {cur : Option Slot} {choice : Choice} {d : Data} {x : Ctx} {o : Op}

/-- The operations that write pids or marks. -/
def Op.marks : Op → Bool
  | .allocScan | .reap _ _ | .kill _ | .fault => true
  | _ => false

theorem sameIds_onCur {f : Proc → Proc} (hpid : ∀ p, (f p).pid = p.pid)
    (hkilled : ∀ p, (f p).killed = p.killed) : SameIds d.proc (d.onCur cur f).proc := by
  cases cur with
  | none => exact .refl
  | some p => exact .update (hpid _) (hkilled _)

theorem write_sameIds (ho : o.marks = false) : SameIds d.proc (write policy cur choice d o).proc := by
  cases o with
  | allocScan | reap | kill | fault => cases ho
  | wakeup1 chan => exact sameIds_wakeup1 _ _
  | setRunnable | goSleep | clearChan | stampEtime | nice =>
    exact sameIds_onCur (fun _ => rfl) fun _ => rfl
  | stampCtime np | free np | forkRun np => exact .update rfl rfl
  | kallocStack np =>
    simp only [write]
    split <;> exact .refl
  | copyuvm np =>
    simp only [write]
    split
    · exact .update rfl rfl
    · exact .refl
  | exitScan =>
    cases cur with
    | none => exact .refl
    | some p =>
      change SameIds d.proc (exitTable initproc p d.proc)
      rw [exitTable_eq]
      have hpassed := sameIds_passed p d.proc
      generalize passed initproc p d.proc = u at hpassed ⊢
      exact hpassed.trans (.update rfl rfl)
  | trapTail user timer =>
    cases cur with
    | none => exact .refl
    | some p =>
      simp only [write]
      split
      · exact .refl
      · exact .update rfl rfl
  | trapLow =>
    cases cur with
    | none => exact .refl
    | some p =>
      simp only [write]
      split <;> exact .refl
  | incTicks | doExit | waitScan | sleepStart | sleepLoop | trapKilled | checkKilled | kmemWork | dups
  | fileWork | work | intrWork => exact .refl

/-- Without a fork that gets, gives back or fails to fill a slot, the same slots are unused. -/
theorem write_unused (hfits : o.Fits x) (hcur : ∀ p, cur = some p → Stands x (d.proc p).state)
    (hown : ∀ np, (Instr.op o).owns = some np → (d.proc np).state = .embryo)
    (halloc : o ≠ .allocScan) (hreap : ∀ np two, o ≠ .reap np two) (hfree : ∀ np, o ≠ .free np)
    (p : Slot) : ((write policy cur choice d o).proc p).state = .unused ↔
      (d.proc p).state = .unused := by
  have honCur : ∀ {f : Proc → Proc}, (∀ q, cur = some q → ((f (d.proc q)).state = .unused ↔
      (d.proc q).state = .unused)) → (((d.onCur cur f).proc p).state = .unused ↔
        (d.proc p).state = .unused) := by
    intro f hf
    cases cur with
    | none => exact Iff.rfl
    | some q =>
      by_cases hp : p = q
      · subst hp
        simpa [Data.onCur, Data.setProc] using hf p rfl
      · simp [Data.onCur, Data.setProc, hp]
  have hrunning : x.parked = false → ∀ q, cur = some q → (d.proc q).state = .running := by
    intro hx q hq
    simpa [Stands, hx] using hcur q hq
  cases o with
  | allocScan => exact absurd rfl halloc
  | reap np two => exact absurd rfl (hreap np two)
  | free np => exact absurd rfl (hfree np)
  | wakeup1 chan => exact (wakeup1_wakes _ _).unused
  | kill pid => exact (killTable_wakes _ _).unused
  | setRunnable | goSleep =>
    simp only [Op.Fits] at hfits
    subst hfits
    exact honCur fun q hq => by simp [hrunning rfl q hq]
  | clearChan | stampEtime | nice | fault => exact honCur fun _ _ => Iff.rfl
  | stampCtime np =>
    by_cases hp : p = np
    · subst hp
      simp [write, Data.setProc]
    · simp [write, Data.setProc, hp]
  | forkRun np =>
    by_cases hp : p = np
    · subst hp
      simp [write, Data.setProc, hown p rfl]
    · simp [write, Data.setProc, hp]
  | copyuvm np =>
    simp only [write]
    split
    · by_cases hp : p = np
      · subst hp
        simp [Data.setProc]
      · simp [Data.setProc, hp]
    · exact Iff.rfl
  | kallocStack np =>
    simp only [write]
    split <;> exact Iff.rfl
  | exitScan =>
    cases cur with
    | none => exact Iff.rfl
    | some q =>
      simp only [Op.Fits] at hfits
      subst hfits
      simp only [write, exitTable_state]
      by_cases hp : p = q
      · subst hp
        simp [hrunning rfl p rfl]
      · rw [if_neg hp]
        exact (passed_wakes _ _ _).unused
  | trapTail user timer =>
    cases cur with
    | none => exact Iff.rfl
    | some q =>
      simp only [write]
      split
      · exact Iff.rfl
      · by_cases hp : p = q
        · subst hp
          simp [Data.setProc]
        · simp [Data.setProc, hp]
  | trapLow =>
    cases cur with
    | none => exact Iff.rfl
    | some q =>
      simp only [write]
      split <;> exact Iff.rfl
  | incTicks | doExit | waitScan | sleepStart | sleepLoop | trapKilled | checkKilled | kmemWork | dups
  | fileWork | work | intrWork => exact Iff.rfl

theorem write_gen (ho : o ≠ .allocScan) : (write policy cur choice d o).gen = d.gen ∧
    (write policy cur choice d o).nextpid = d.nextpid := by
  cases o with
  | allocScan => exact absurd rfl ho
  | setRunnable | goSleep | clearChan | stampEtime | nice | fault | exitScan | reap | trapTail | trapLow =>
    cases cur with
    | none => exact ⟨rfl, rfl⟩
    | some p =>
      simp only [write, Data.onCur, Data.setProc]
      try split
      all_goals simp
  | kallocStack | copyuvm =>
    simp only [write]
    split <;> exact ⟨rfl, rfl⟩
  | _ => exact ⟨rfl, rfl⟩

theorem issued_alloc (d : Data) (np : Slot) :
    (∑ p, update d.gen np (d.gen np + 1) p) = issued d + 1 := by
  have hrest : ∑ p ∈ Finset.univ.erase np, update d.gen np (d.gen np + 1) p =
      ∑ p ∈ Finset.univ.erase np, d.gen p :=
    Finset.sum_congr rfl fun p hp => update_of_ne (Finset.ne_of_mem_erase hp) ..
  rw [issued, ← Finset.add_sum_erase _ _ (Finset.mem_univ np),
    ← Finset.add_sum_erase _ d.gen (Finset.mem_univ np), hrest, update_self]
  omega

/-- A change that leaves pids and marks alone. -/
theorem Ids.keep {e : Data} (h : Ids d) (hids : SameIds d.proc e.proc)
    (hunused : ∀ p, (e.proc p).state = .unused ↔ (d.proc p).state = .unused)
    (hgen : e.gen = d.gen ∧ e.nextpid = d.nextpid) : Ids e := by
  have hissued : issued e = issued d := by rw [issued, issued, hgen.1]
  refine ⟨h.toKillSafe.keep hids hunused, fun p hp => ?_, ?_⟩
  · rw [(hids p).1, hissued]
    exact h.pid p fun hun => hp ((hunused p).mpr hun)
  · rw [hgen.2, hissued, h.next]

/-- A live process is marked. -/
theorem Ids.mark {e : Data} (h : Ids d) {q : Slot} {v : Proc} (htable : e.proc = update d.proc q v)
    (hq : (d.proc q).state ≠ .unused) (hv : v.state ≠ .unused) (hpid : v.pid = (d.proc q).pid)
    (hgen : e.gen = d.gen ∧ e.nextpid = d.nextpid) : Ids e := by
  have hissued : issued e = issued d := by rw [issued, issued, hgen.1]
  have hstate : ∀ p, (e.proc p).state = .unused ↔ (d.proc p).state = .unused := by
    intro p
    rw [htable]
    by_cases hp : p = q
    · subst hp
      simp [hq, hv]
    · rw [update_of_ne hp]
  have hsame : ∀ p, (e.proc p).pid = (d.proc p).pid := by
    intro p
    rw [htable]
    by_cases hp : p = q
    · subst hp
      simpa using hpid
    · rw [update_of_ne hp]
  refine ⟨⟨fun p hp => ?_, fun p r hp hr heq => ?_⟩, fun p hp => ?_, ?_⟩
  · have hpq : p ≠ q := by
      rintro rfl
      exact hq ((hstate p).mp hp)
    rw [htable, update_of_ne hpq]
    exact h.clean p ((hstate p).mp hp)
  · grind [h.distinct]
  · rw [hsame, hissued]
    exact h.pid p fun hun => hp ((hstate p).mpr hun)
  · rw [hgen.2, hissued, h.next]

/-- `allocproc` gives a new pid to a slot that carries no mark. -/
theorem Ids.alloc (h : Ids d) {np : Slot} (hfind : findUnused d.proc = some np)
    (hissued : issued (write policy cur choice d .allocScan) < 2 ^ 31) :
    Ids (write policy cur choice d .allocScan) := by
  have hnp := findUnused_state hfind
  have hsum : issued (write policy cur choice d .allocScan) = issued d + 1 := by
    rw [← issued_alloc d np]
    simp [issued, write, hfind]
  rw [hsum] at hissued
  have hnext : d.nextpid = (issued d + 1 : Nat) := h.next.trans (toInt_of_lt hissued)
  have hself : ((write policy cur choice d .allocScan).proc np) =
      { d.proc np with state := .embryo, pid := (issued d + 1 : Nat) } := by
    simp only [write, hfind, Data.setProc, update_self]
    rw [← hnext]
  have hother : ∀ p, p ≠ np → (write policy cur choice d .allocScan).proc p = d.proc p := by
    intro p hp
    simp only [write, hfind, Data.setProc, update_of_ne hp]
  -- no process has the new pid yet
  have hnew : ∀ p, p ≠ np → ((write policy cur choice d .allocScan).proc p).state ≠ .unused →
      ((write policy cur choice d .allocScan).proc p).pid ≠ (issued d + 1 : Nat) := by
    intro p hp hlive heq
    rw [hother p hp] at hlive heq
    have := (h.pid p hlive).2
    omega
  refine ⟨⟨fun p hp => ?_, fun p q hp hq heq => ?_⟩, fun p hp => ?_, ?_⟩
  · grind [h.clean]
  · grind [h.distinct]
  · rw [hsum]
    by_cases hpn : p = np
    · subst hpn
      rw [hself]
      dsimp only
      omega
    · rw [hother p hpn] at hp ⊢
      have := h.pid p hp
      omega
  · rw [hsum, ← incr32_toInt hissued, ← h.next]
    simp [write, hfind]

/-- `wait` clears the slot it gives up. -/
theorem Ids.reap (h : Ids d) (np : Slot) {e : Data}
    (htable : e.proc = update d.proc np (d.proc np).clear)
    (hgen : e.gen = d.gen ∧ e.nextpid = d.nextpid) : Ids e := by
  have hissued : issued e = issued d := by rw [issued, issued, hgen.1]
  have hself : e.proc np = (d.proc np).clear := by rw [htable, update_self]
  have hother : ∀ p, p ≠ np → e.proc p = d.proc p := fun p hp => by
    rw [htable, update_of_ne hp]
  have hlive : ∀ p, (e.proc p).state ≠ .unused → p ≠ np := by
    rintro p hp rfl
    rw [hself] at hp
    exact hp rfl
  refine ⟨⟨fun p hp => ?_, fun p q hp hq heq => ?_⟩, fun p hp => ?_, ?_⟩
  · by_cases hpn : p = np
    · subst hpn
      rw [hself]
      exact ⟨rfl, rfl⟩
    · rw [hother p hpn] at hp ⊢
      exact h.clean p hp
  · grind [h.distinct]
  · have hp' := hother p (hlive p hp)
    rw [hp'] at hp ⊢
    rw [hissued]
    exact h.pid p hp
  · rw [hgen.2, hissued, h.next]

/-- Every operation in its place, under the condition on `kill` and on failing forks, keeps the pids
and marks right. -/
theorem write_ids (h : Ids d) (hfits : o.Fits x)
    (hcur : ∀ p, cur = some p → Stands x (d.proc p).state)
    (hown : ∀ np, (Instr.op o).owns = some np → (d.proc np).state = .embryo)
    (hfree : ∀ np, o ≠ .free np)
    (hkill : ∀ pid, o = .kill pid → ∀ p, (d.proc p).state = .unused → (d.proc p).pid ≠ pid)
    (hissued : issued (write policy cur choice d o) < 2 ^ 31) : Ids (write policy cur choice d o) := by
  have hkeep : o.marks = false → Ids (write policy cur choice d o) := by
    intro ho
    have halloc : o ≠ .allocScan := by
      rintro rfl
      cases ho
    refine h.keep (write_sameIds ho) (write_unused hfits hcur hown halloc ?_ hfree) (write_gen halloc)
    rintro np two rfl
    cases ho
  cases o with
  | allocScan =>
    cases hfind : findUnused d.proc with
    | none => simpa [write, hfind] using h
    | some np => exact h.alloc hfind hissued
  | reap np two =>
    cases cur with
    | none => exact h
    | some q => exact h.reap np rfl ⟨rfl, rfl⟩
  | kill pid =>
    simp only [write, killTable]
    cases hfind : slots.find? fun p => decide ((d.proc p).pid = pid) with
    | none => exact h
    | some q =>
      have hq : (d.proc q).pid = pid := by simpa using List.find?_some hfind
      have hlive : (d.proc q).state ≠ .unused := fun hun => hkill pid rfl q hun hq
      refine h.mark (q := q) rfl hlive ?_ rfl ⟨rfl, rfl⟩
      dsimp only
      split
      · simp
      · exact hlive
  | fault =>
    cases cur with
    | none => exact h
    | some q =>
      simp only [Op.Fits] at hfits
      subst hfits
      have hrun : (d.proc q).state = .running := by simpa [Stands] using hcur q rfl
      have hlive : (d.proc q).state ≠ .unused := by simp [hrun]
      exact h.mark (q := q) rfl hlive hlive rfl ⟨rfl, rfl⟩
  | _ => exact hkeep rfl

theorem write_issued : issued d ≤ issued (write policy cur choice d o) := by
  by_cases ho : o = .allocScan
  · subst ho
    cases hfind : findUnused d.proc with
    | none => simp [write, hfind]
    | some np =>
      have hsum := issued_alloc d np
      simp only [write, hfind]
      exact Nat.le_trans (Nat.le_succ _) (Nat.le_of_eq hsum.symm)
  · rw [issued, issued, (write_gen ho).1]

end Write

variable {ncpu : Nat} {s t : State ncpu} {cfg : Config} {a : Act ncpu}

theorem Ids.stacks {d : Data} (h : Ids d) (stack : Slot → Code) : Ids { d with stack := stack } :=
  h.keep .refl (fun _ => Iff.rfl) ⟨rfl, rfl⟩

theorem issued_step (hstep : step cfg s a = some t) : issued s.data ≤ issued t.data := by
  cases dataStep hstep with
  | kept _ hdata =>
    obtain ⟨stack, hdata⟩ := hdata
    rw [hdata]
    exact Nat.le_refl _
  | dispatch q c choice p k _ _ _ hdata =>
    rw [hdata]
    exact Nat.le_refl _
  | op c choice o k stack _ _ _ hdata =>
    rw [hdata]
    exact write_issued

theorem Ids.step (hids : Ids s.data) (h : Inv s) (hrun : DispatchesRunnable cfg s a)
    (hharmless : Harmless s a) (hstep : step cfg s a = some t) (hissued : issued t.data < 2 ^ 31) :
    Ids t.data := by
  cases dataStep hstep with
  | kept _ hdata =>
    obtain ⟨stack, hdata⟩ := hdata
    rw [hdata]
    exact hids.stacks stack
  | dispatch q c choice p k _ _ hd hdata =>
    have hq := hrun q hd
    rw [hdata]
    exact hids.mark (q := q) rfl (by simp [hq]) nofun rfl ⟨rfl, rfl⟩
  | op c choice o k stack ha hstack _ hdata =>
    obtain ⟨x, hx⟩ := h.cpu c
    subst ha
    rw [hdata] at hissued ⊢
    refine (write_ids hids (hx.stacked hstack nofun).op.1 ?_ ?_ ?_ ?_ hissued).stacks stack
    · exact fun p hp => hx.stands p (h.executing_cur hstack nofun hp)
    · exact fun np hnp => h.owned_embryo c np (hstack ▸ mem_owned_of_owns hnp k)
    · rintro np rfl
      simp [Harmless, hstack] at hharmless
    · rintro pid rfl
      simpa [Harmless, hstack] using hharmless

/-- A step that is not harmless leaves a mark or a pid in an unused slot. -/
theorem Ids.harmless_of_killSafe (hids : Ids s.data) (h : Inv s) (hstep : Kernel.step cfg s a = some t)
    (hsafe : KillSafe t.data.proc) : Harmless s a := by
  cases a with
  | exec c choice =>
    cases hstack : s.stack c with
    | nil => simp [Harmless, hstack]
    | cons i k =>
      have hexec : execInstr cfg s c choice k i = some t := by
        simpa [Kernel.step, exec, hstack] using hstep
      cases i with
      | op o =>
        obtain ⟨stack, hdata⟩ := setStack_data
          { s with data := write cfg.policy (s.cpu c).proc choice s.data o } c
          ((Kernel.next cfg.policy (s.cpu c).proc choice s.data o).on k)
        rw [← Option.some.inj hexec, hdata] at hsafe
        cases o with
        | kill pid =>
          simp only [Harmless, hstack]
          intro p hp hpid
          -- the first slot with the pid, which is 0, is unused and gets the mark
          cases hfind : slots.find? fun p => decide ((s.data.proc p).pid = pid) with
          | none =>
            have hnot := List.find?_eq_none.mp hfind p (mem_slots p)
            exact absurd hpid (by simpa using hnot)
          | some q =>
            have hq : (s.data.proc q).pid = pid := by simpa using List.find?_some hfind
            have hzero : (s.data.proc q).pid = 0 := by
              rw [hq, ← hpid]
              exact (hids.clean p hp).2
            have hunused : (s.data.proc q).state = .unused := by
              by_contra hlive
              have := (hids.pid q hlive).1
              omega
            have hclean := (hsafe.clean q (by simp [write, killTable, hfind, hunused])).1
            simp [write, killTable, hfind] at hclean
        | free np =>
          have hembryo := h.owned_embryo c np (hstack ▸ mem_owned_of_owns rfl k)
          have hclean := (hsafe.clean np (by simp [write, Data.setProc])).2
          have hpid := (hids.pid np (by simp [hembryo])).1
          simp [write, Data.setProc] at hclean
          omega
        | _ => simp [Harmless, hstack]
      | _ => simp [Harmless, hstack]
  | _ => trivial

/-- A process starts without a mark. -/
theorem Ids.new_unmarked (hids : Ids s.data) (h : Inv s) (hrun : DispatchesRunnable cfg s a)
    (hstep : Kernel.step cfg s a = some t) {p : Slot} (hp : (s.data.proc p).state = .unused)
    (hnew : (t.data.proc p).state ≠ .unused) : (t.data.proc p).killed = false := by
  have hclean := (hids.clean p hp).1
  cases dataStep hstep with
  | kept _ hdata =>
    obtain ⟨stack, hdata⟩ := hdata
    rw [hdata]
    exact hclean
  | dispatch q c choice p' k _ _ hd hdata =>
    have hpq : p ≠ q := by
      rintro rfl
      rw [hrun p hd] at hp
      cases hp
    rw [hdata]
    simpa [Data.setProc, hpq] using hclean
  | op c choice o k stack ha hstack _ hdata =>
    obtain ⟨x, hx⟩ := h.cpu c
    rw [hdata] at hnew ⊢
    change ((write cfg.policy (s.cpu c).proc choice s.data o).proc p).state ≠ .unused at hnew
    change ((write cfg.policy (s.cpu c).proc choice s.data o).proc p).killed = false
    have hfits := (hx.stacked hstack (by simp)).op.1
    have hcur : ∀ q, (s.cpu c).proc = some q → Stands x (s.data.proc q).state := fun q hq =>
      hx.stands q (h.executing_cur hstack (by simp) hq)
    cases o with
    | allocScan =>
      cases hfind : findUnused s.data.proc with
      | none => simpa [write, hfind] using hclean
      | some np =>
        by_cases hpn : p = np
        · subst hpn
          simpa [write, hfind, Data.setProc] using hclean
        · simpa [write, hfind, Data.setProc, hpn] using hclean
    | reap np two =>
      cases hproc : (s.cpu c).proc with
      | none => simpa [write] using hclean
      | some q =>
        by_cases hpn : p = np
        · subst hpn
          simp [write, Data.setProc, Proc.clear]
        · simpa [write, Data.setProc, hpn] using hclean
    | kill | fault =>
      exact absurd ((write_unused hfits hcur (by simp) (by simp) (by simp) (by simp) p).mpr hp) hnew
    | _ => exact ((write_sameIds rfl p).2).trans hclean

theorem boot_ids : Ids (boot : State ncpu).data := by
  have hinit : ∀ p, ((boot : State ncpu).data.proc p).state ≠ .unused → p = initproc := by
    intro p hp
    by_contra hne
    simp [boot, hne] at hp
  have hissued : issued (boot : State ncpu).data = 1 := by
    simp [issued, boot]
  refine ⟨⟨fun p hp => ?_, fun p q hp hq _ => ?_⟩, fun p hp => ?_, ?_⟩
  · have hne : p ≠ initproc := by
      rintro rfl
      simp [boot] at hp
    simp [boot, hne]
  · rw [hinit p hp, hinit q hq]
  · rw [hinit p hp, hissued]
    simp [boot]
  · rw [hissued]
    rfl

/-- In every run in which `kill` is not called with the pid of an unused slot and no fork fails that has
got a slot: unused slots carry neither pid nor mark and the pids of the processes are distinct; `kill`
returns 0 if and only if there is a process with the pid, and touches only that one; a new process
carries no mark. A step that does not meet the condition breaks this at once. -/
theorem kill_hits_live_iff_harmless (cfg : Config) (s : State ncpu)
    (hs : Reaches cfg (fun s a => DispatchesRunnable cfg s a ∧ Harmless s a) s)
    (hissued : issued s.data < 2 ^ 31) :
    KillSafe s.data.proc ∧
      (∀ pid, (∀ p, (s.data.proc p).state = .unused → (s.data.proc p).pid ≠ pid) →
        (killResult pid s.data.proc = 0 ↔
          ∃ p, (s.data.proc p).state ≠ .unused ∧ (s.data.proc p).pid = pid) ∧
        ∀ p, killTable pid s.data.proc p ≠ s.data.proc p →
          (s.data.proc p).state ≠ .unused ∧ (s.data.proc p).pid = pid) ∧
      ∀ a t, DispatchesRunnable cfg s a → step cfg s a = some t → issued t.data < 2 ^ 31 →
        (KillSafe t.data.proc ↔ Harmless s a) ∧
          ∀ p, (s.data.proc p).state = .unused → (t.data.proc p).state ≠ .unused →
            (t.data.proc p).killed = false := by
  have hinv : Inv s ∧ (issued s.data < 2 ^ 31 → Ids s.data) := by
    apply LibRun.Reachable.invariant _ _ hs
    · rintro _ rfl
      exact ⟨boot_inv, fun _ => boot_ids⟩
    · rintro s t - ⟨h, hids⟩ ⟨a, ⟨hrun, hharmless⟩, hstep⟩
      refine ⟨(framed_step h hrun hstep).inv h, fun ht => ?_⟩
      exact (hids (Nat.lt_of_le_of_lt (issued_step hstep) ht)).step h hrun hharmless hstep ht
  obtain ⟨h, hids⟩ := hinv
  have hids := hids hissued
  refine ⟨hids.toKillSafe, fun pid => kill_spec, fun a t hrun hstep ht => ⟨⟨?_, fun hharmless => ?_⟩, ?_⟩⟩
  · exact hids.harmless_of_killSafe h hstep
  · exact (hids.step h hrun hharmless hstep ht).toKillSafe
  · exact fun p => hids.new_unmarked h hrun hstep

instance (s : State ncpu) (a : Act ncpu) : Decidable (Harmless s a) :=
  match a with
  | .exec c _ =>
    decidable_of_iff
      ((match s.stack c with
        | .op (.kill pid) :: _ =>
          decide (∀ p, (s.data.proc p).state = .unused → (s.data.proc p).pid ≠ pid)
        | .op (.free _) :: _ => false
        | _ => true) = true)
      (by
        simp only [Harmless]
        split <;> simp)
  | .syscall _ _ | .fault _ | .timer _ | .device _ _ => .isTrue trivial

/-- Init forks, and kills the child. -/
def killRun : List (Act 2) :=
  steps 0 6 ++ .syscall 0 .fork :: steps 0 19 ++ .syscall 0 (.kill 2) :: steps 0 7

theorem killRun_hits_live :
    ∃ s : State 2, Reaches (plain .rr) (fun s a => DispatchesRunnable (plain .rr) s a ∧ Harmless s a) s ∧
      (s.data.proc firstChild).killed = true ∧ issued s.data < 2 ^ 31 ∧ KillSafe s.data.proc := by
  have hrun : ((run (plain .rr) (fun s a => decide (Harmless s a)) (boot : State 2) killRun).map
      fun s => decide ((s.data.proc firstChild).killed = true ∧ issued s.data < 2 ^ 31)) = some true := by
    decide +kernel
  obtain ⟨s, hs, hfacts⟩ := Option.map_eq_some_iff.mp hrun
  obtain ⟨hkilled, hissued⟩ := of_decide_eq_true hfacts
  have hreach : Reaches (plain .rr) (fun s a => DispatchesRunnable (plain .rr) s a ∧ Harmless s a) s :=
    Reaches.run (fun s a ha => ⟨rr_dispatchesRunnable rfl s a, of_decide_eq_true ha⟩) (.start rfl) hs
  exact ⟨s, hreach, hkilled, hissued, (kill_hits_live_iff_harmless _ s hreach hissued).1⟩

/-- Init calls `kill(0)` and forks. -/
def killZeroRun : List (Act 2) :=
  steps 0 6 ++ .syscall 0 (.kill 0) :: steps 0 7 ++ .syscall 0 .fork :: steps 0 19

/-- `kill(0)` succeeds though no process has the pid 0, and the next process starts with a mark. -/
theorem kill_zero_marks_child :
    killResult 0 (boot : State 2).data.proc = 0 ∧
      (∀ p, ((boot : State 2).data.proc p).state ≠ .unused → ((boot : State 2).data.proc p).pid ≠ 0) ∧
      ∃ s : State 2, Reaches (plain .rr) (fun _ _ => True) s ∧ issued s.data < 2 ^ 31 ∧
        (s.data.proc firstChild).state = .runnable ∧ (s.data.proc firstChild).killed = true := by
  refine ⟨by decide +kernel, by decide +kernel, ?_⟩
  have hrun : ((run (plain .rr) (fun _ _ => true) (boot : State 2) killZeroRun).map
      fun s => decide (issued s.data < 2 ^ 31 ∧ (s.data.proc firstChild).state = .runnable ∧
        (s.data.proc firstChild).killed = true)) = some true := by
    decide +kernel
  obtain ⟨s, hs, hfacts⟩ := Option.map_eq_some_iff.mp hrun
  exact ⟨s, Reaches.run (fun _ _ _ => trivial) (.start rfl) hs, of_decide_eq_true hfacts⟩

end Xv6.Kernel
