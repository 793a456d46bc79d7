import Xv6.ProcTree

/-! Zombies and `wait`. Every process that exits stays a zombie until a call of `wait` or `wait2` by its
parent returns it, and that happens once. -/

namespace Xv6.Kernel

def Event.isExit (p : Slot) (g : Nat) : Event → Bool
  | .exited q h _ => q = p ∧ h = g
  | .reaped .. => false

def Event.isReturn (p : Slot) (g : Nat) : Event → Bool
  | .exited .. => false
  | .reaped _ _ q h _ _ => q = p ∧ h = g

/-- The exits of the `g`-th process in the slot. -/
def exits (log : List Event) (p : Slot) (g : Nat) : List Event := log.filter (Event.isExit p g)

/-- The calls of `wait` and `wait2` that returned it. -/
def returns (log : List Event) (p : Slot) (g : Nat) : List Event := log.filter (Event.isReturn p g)

/-- What has become of the `g`-th process in a slot: it has not exited, it is the zombie in the slot, or
its parent has got it back and the slot has been given up. -/
inductive Fate (d : Data) (p : Slot) (g : Nat) : Prop
  | notYet : (g = d.gen p → (d.proc p).state ≠ .zombie) → exits d.log p g = [] →
      returns d.log p g = [] → Fate d p g
  | zombie : g = d.gen p → (d.proc p).state = .zombie →
      exits d.log p g = [.exited p g (d.proc p).pid] → returns d.log p g = [] → Fate d p g
  | returned (pid : Int) (q : Slot) (times : Option (Int × Int)) :
      g < d.gen p ∨ (g = d.gen p ∧ (d.proc p).state = .unused) →
      exits d.log p g = [.exited p g pid] →
      returns d.log p g = [.reaped q (some q) p g pid times] → Fate d p g

section Data

variable {d e : Data} {p : Slot} {g : Nat}

/-- Nothing happens to the process. -/
theorem Fate.keep (h : Fate d p g) (hpid : (e.proc p).pid = (d.proc p).pid)
    (hzombie : (e.proc p).state = .zombie ↔ (d.proc p).state = .zombie)
    (hunused : (d.proc p).state = .unused → (e.proc p).state = .unused) (hgen : e.gen p = d.gen p)
    (hexits : exits e.log p g = exits d.log p g) (hreturns : returns e.log p g = returns d.log p g) :
    Fate e p g := by
  cases h with
  | notYet hnot hex hret =>
    refine .notYet ?_ (hexits.trans hex) (hreturns.trans hret)
    rw [hgen]
    exact fun hg hz => hnot hg (hzombie.mp hz)
  | zombie hg hz hex hret =>
    refine .zombie (hg.trans hgen.symm) (hzombie.mpr hz) ?_ (hreturns.trans hret)
    rw [hexits, hex, hpid]
  | returned pid q times hgone hex hret =>
    refine .returned pid q times ?_ (hexits.trans hex) (hreturns.trans hret)
    rw [hgen]
    exact hgone.imp_right fun hg => ⟨hg.1, hunused hg.2⟩

/-- Another process of the slot. -/
theorem Fate.other (h : Fate d p g) (hg : g ≠ d.gen p) (hgen : e.gen p = d.gen p)
    (hexits : exits e.log p g = exits d.log p g) (hreturns : returns e.log p g = returns d.log p g) :
    Fate e p g := by
  cases h with
  | notYet _ hex hret =>
    exact .notYet (fun hg' => absurd (hg'.trans hgen) hg) (hexits.trans hex) (hreturns.trans hret)
  | zombie hg' => exact absurd hg' hg
  | returned pid q times hgone hex hret =>
    have hlt : g < e.gen p := hgen ▸ hgone.resolve_right fun h => hg h.1
    exact .returned pid q times (Or.inl hlt) (hexits.trans hex) (hreturns.trans hret)

/-- A new process in the slot. -/
theorem Fate.alloc (h : Fate d p g) (hunused : (d.proc p).state = .unused)
    (hstate : (e.proc p).state = .embryo) (hgen : e.gen p = d.gen p + 1) (hlog : e.log = d.log) :
    Fate e p g := by
  cases h with
  | notYet _ hex hret => exact .notYet (fun _ => by simp [hstate]) (hlog ▸ hex) (hlog ▸ hret)
  | zombie _ hz => simp [hunused] at hz
  | returned pid q times hgone hex hret =>
    exact .returned pid q times (Or.inl (by omega)) (hlog ▸ hex) (hlog ▸ hret)

/-- The process in the slot exits. -/
theorem Fate.exit (h : Fate d p g) (hstate : (d.proc p).state = .running)
    (hzombie : (e.proc p).state = .zombie) (hpid : (e.proc p).pid = (d.proc p).pid)
    (hgen : e.gen p = d.gen p) (hlog : e.log = .exited p (d.gen p) (d.proc p).pid :: d.log) :
    Fate e p g := by
  have hreturns : returns e.log p g = returns d.log p g := by
    simp [returns, hlog, Event.isReturn]
  by_cases hg : g = d.gen p
  · -- a process that runs has not exited
    have hexits : exits e.log p g = .exited p g (d.proc p).pid :: exits d.log p g := by
      simp [exits, hlog, Event.isExit, hg]
    cases h with
    | notYet _ hex hret =>
      refine .zombie (hg.trans hgen.symm) hzombie ?_ (hreturns.trans hret)
      rw [hexits, hex, hpid]
    | zombie _ hz => simp [hstate] at hz
    | returned _ _ _ hgone => simp [hg, hstate] at hgone
  · have hne : d.gen p ≠ g := fun h => hg h.symm
    refine h.other hg hgen ?_ hreturns
    simp [exits, hlog, Event.isExit, hne]

/-- The parent gets the zombie in the slot back. -/
theorem Fate.reap {q : Slot} {times : Option (Int × Int)} (h : Fate d p g)
    (hzombie : (d.proc p).state = .zombie) (hunused : (e.proc p).state = .unused)
    (hgen : e.gen p = d.gen p)
    (hlog : e.log = .reaped q (some q) p (d.gen p) (d.proc p).pid times :: d.log) : Fate e p g := by
  have hexits : exits e.log p g = exits d.log p g := by
    simp [exits, hlog, Event.isExit]
  by_cases hg : g = d.gen p
  · have hreturns : returns e.log p g = .reaped q (some q) p g (d.proc p).pid times ::
        returns d.log p g := by
      simp [returns, hlog, Event.isReturn, hg]
    cases h with
    | notYet hnot => exact absurd hzombie (hnot hg)
    | zombie _ _ hex hret =>
      refine .returned _ q times (Or.inr ⟨hg.trans hgen.symm, hunused⟩) (hexits.trans hex) ?_
      rw [hreturns, hret]
    | returned _ _ _ hgone => simp [hg, hzombie] at hgone
  · have hne : d.gen p ≠ g := fun h => hg h.symm
    refine h.other hg hgen hexits ?_
    simp [returns, hlog, Event.isReturn, hne]

theorem exits_cons_of_ne {q : Slot} {h : Nat} {pid : Int} {log : List Event} (hq : q ≠ p) :
    exits (.exited q h pid :: log) p g = exits log p g := by
  simp [exits, Event.isExit, hq]

theorem returns_cons_of_ne {q r : Slot} {parent : Option Slot} {h : Nat} {pid : Int}
    {times : Option (Int × Int)} {log : List Event} (hq : q ≠ p) :
    returns (.reaped r parent q h pid times :: log) p g = returns log p g := by
  simp [returns, Event.isReturn, hq]

end Data

section Write

variable {policy : Policy} {cur : Option Slot} {choice : Choice} {d : Data} {x : Ctx} {o : Op}

/-- The operations that write the history. -/
def Op.records : Op → Bool
  | .allocScan | .exitScan | .reap _ _ => true
  | _ => false

theorem write_history (policy : Policy) (cur : Option Slot) (choice : Choice) (d : Data)
    (ho : o.records = false) :
    (write policy cur choice d o).gen = d.gen ∧ (write policy cur choice d o).log = d.log := by
  cases o with
  | allocScan | exitScan | reap => cases ho
  | setRunnable | goSleep | clearChan | stampEtime | nice | fault => cases cur <;> exact ⟨rfl, rfl⟩
  | kallocStack | copyuvm =>
    simp only [write]
    split <;> exact ⟨rfl, rfl⟩
  | trapTail | trapLow =>
    cases cur with
    | none => exact ⟨rfl, rfl⟩
    | some p =>
      simp only [write]
      split <;> exact ⟨rfl, rfl⟩
  | _ => exact ⟨rfl, rfl⟩

/-- Every operation in its place keeps the account of exits and returns. -/
theorem write_fate (hfits : o.Fits x) (hknown : x.known.Holds d.proc cur)
    (hcur : ∀ p, cur = some p → Stands x (d.proc p).state)
    (hown : ∀ np, (Instr.op o).owns = some np → (d.proc np).state = .embryo)
    (hexit : o = .exitScan → cur ≠ some initproc) {p : Slot} {g : Nat} (h : Fate d p g) :
    Fate (write policy cur choice d o) p g := by
  have hsame : o.records = false →
      ((write policy cur choice d o).proc p).pid = (d.proc p).pid →
      (((write policy cur choice d o).proc p).state = .zombie ↔ (d.proc p).state = .zombie) →
      ((d.proc p).state = .unused → ((write policy cur choice d o).proc p).state = .unused) →
      Fate (write policy cur choice d o) p g := by
    intro ho hpid hzombie hunused
    obtain ⟨hgen, hlog⟩ := write_history policy cur choice d ho
    exact h.keep hpid hzombie hunused (by rw [hgen]) (by rw [hlog]) (by rw [hlog])
  cases o with
  | goSleep chan =>
    cases cur with
    | none => exact h
    | some q =>
      simp only [Op.Fits] at hfits
      subst hfits
      have hrun : (d.proc q).state = .running := by simpa [Stands] using hcur q rfl
      apply hsame rfl <;>
        · by_cases hp : p = q
          · subst hp
            simp [write, Data.onCur, Data.setProc, hrun]
          · simp [write, Data.onCur, Data.setProc, hp]
  | copyuvm np =>
    apply hsame rfl <;>
      · simp only [write]
        split
        · by_cases hp : p = np
          · subst hp
            simp [Data.setProc]
          · simp [Data.setProc, hp]
        · simp
  | forkRun np =>
    have hembryo := hown np rfl
    apply hsame rfl <;>
      · by_cases hp : p = np
        · subst hp
          simp [write, Data.setProc, hembryo]
        · simp [write, Data.setProc, hp]
  | allocScan =>
    cases hfind : findUnused d.proc with
    | none => simpa [write, hfind] using h
    | some np =>
      by_cases hp : p = np
      · subst hp
        exact h.alloc (findUnused_state hfind) (by simp [write, hfind, Data.setProc])
          (by simp [write, hfind]) (by simp [write, hfind, Data.setProc])
      · apply h.keep <;> simp [write, hfind, Data.setProc, hp]
  | exitScan =>
    cases cur with
    | none => exact h
    | some q =>
      simp only [Op.Fits] at hfits
      subst hfits
      have hrun : (d.proc q).state = .running := by simpa [Stands] using hcur q rfl
      have hinit : initproc ≠ q := by
        rintro rfl
        exact hexit rfl rfl
      have hpid := (exitTable_spec hinit d.proc p).2.2
      by_cases hp : p = q
      · subst hp
        exact h.exit hrun (by simp [write, exitTable_state]) hpid rfl rfl
      · have hwakes := passed_wakes initproc q d.proc
        have hstate : (exitTable initproc q d.proc p).state = (passed initproc q d.proc p).state := by
          rw [exitTable_state, if_neg hp]
        refine h.keep hpid ?_ ?_ rfl (exits_cons_of_ne fun h => hp h.symm) rfl
        · simp only [write, hstate]
          exact hwakes.zombie
        · intro hunused
          simp only [write, hstate]
          rw [hwakes.eq_of_ne (by simp [hunused]), hunused]
  | reap np two =>
    cases cur with
    | none => exact h
    | some q =>
      simp only [Op.Fits] at hfits
      subst hfits
      obtain ⟨hzombie, hparent⟩ := hknown
      by_cases hp : p = np
      · subst hp
        have hlog : ∃ times, (write policy (some q) choice d (.reap p two)).log =
            .reaped q (some q) p (d.gen p) (d.proc p).pid times :: d.log := by
          simp only [write, hparent]
          exact ⟨_, rfl⟩
        obtain ⟨times, hlog⟩ := hlog
        exact h.reap hzombie (by simp [write, Data.setProc, Proc.clear]) rfl hlog
      · refine h.keep ?_ ?_ ?_ rfl rfl (returns_cons_of_ne fun h => hp h.symm) <;>
          simp [write, Data.setProc, hp]
  | _ =>
    have hcalm : Calm d.proc (write policy cur choice d _).proc := write_calm hfits hcur hown rfl
    exact hsame rfl (hcalm.pid p) (hcalm.zombie p) (hcalm.unused p)

end Write

variable {ncpu : Nat} {s t : State ncpu} {cfg : Config} {a : Act ncpu}

/-- The instructions whose place in a stack matters: `exit` is past the check for init, and `fork` has
set the parent. -/
def Instr.marked : Instr → Bool
  | .op .exitScan | .op (.forkRun _) => true
  | _ => false

structure Pending (s : State ncpu) : Prop where
  exit : .op .exitScan ∉ s.data.stack initproc
  fork : ∀ p np, .op (.forkRun np) ∈ s.data.stack p → (s.data.proc np).parent ≠ none

theorem mem_setStack {c : Fin ncpu} {code : Code} {p : Slot} {i : Instr}
    (h : i ∈ (s.setStack c code).data.stack p) :
    i ∈ s.data.stack p ∨ (Executing s c p ∧ i ∈ code) := by
  unfold State.setStack at h
  split at h
  · exact Or.inl h
  · rename_i hon
    split at h
    · rename_i q hq
      by_cases hp : p = q
      · subst hp
        exact Or.inr ⟨⟨by simpa using hon, hq⟩, by simpa using h⟩
      · exact Or.inl (by simpa [hp] using h)
    · exact Or.inl h

/-- Only the check of `exit` and a successful `copyuvm` push such instructions. -/
theorem next_marked {policy : Policy} {cur : Option Slot} {choice : Choice} {d : Data} {o : Op}
    {i : Instr} (hi : i.marked = true) (hmem : i ∈ (next policy cur choice d o).code) :
    (o = .doExit ∧ i = .op .exitScan ∧ cur ≠ some initproc) ∨
      ∃ np, o = .copyuvm np ∧ i = .op (.forkRun np) ∧ choice = .ok := by
  have hnone : ∀ {k : Code}, k.any Instr.marked = false → i ∉ k := by
    intro k hk hik
    rw [List.any_eq_false] at hk
    exact hk i hik hi
  cases o with
  | wakeup1 | setRunnable | goSleep | clearChan | stampCtime | free | forkRun | exitScan | stampEtime
  | reap | kill | nice | incTicks | fault | sleepStart => exact absurd hmem (hnone rfl)
  | allocScan =>
    simp only [next] at hmem
    split at hmem <;> exact absurd hmem (hnone rfl)
  | kallocStack np | trapKilled user | checkKilled | kmemWork =>
    simp only [next] at hmem
    split at hmem <;> exact absurd hmem (hnone rfl)
  | copyuvm np =>
    simp only [next] at hmem
    split at hmem
    · rename_i hok
      simp only [Next.code, List.mem_cons, List.not_mem_nil, or_false] at hmem
      rcases hmem with rfl | rfl
      · cases hi
      · exact Or.inr ⟨np, rfl, rfl, hok⟩
    · exact absurd hmem (hnone rfl)
  | doExit =>
    simp only [next, Next.code] at hmem
    split at hmem
    · exact absurd hmem (hnone rfl)
    · rename_i hcur
      have hfilter : i ∈ exit.filter Instr.marked := List.mem_filter.mpr ⟨hmem, hi⟩
      have hexit : exit.filter Instr.marked = [.op .exitScan] := rfl
      rw [hexit] at hfilter
      exact Or.inl ⟨rfl, List.mem_singleton.mp hfilter, hcur⟩
  | waitScan two =>
    cases cur with
    | none => exact absurd hmem (hnone rfl)
    | some p =>
      simp only [next, Next.code, waitNext] at hmem
      split at hmem
      · exact absurd hmem (hnone rfl)
      · split at hmem <;> exact absurd hmem (hnone rfl)
  | sleepLoop ticks0 n =>
    simp only [next] at hmem
    split at hmem
    · split at hmem <;> exact absurd hmem (hnone rfl)
    · exact absurd hmem (hnone rfl)
  | trapTail user timer =>
    cases cur with
    | none => exact absurd hmem (hnone rfl)
    | some p =>
      simp only [next, trapNext] at hmem
      split at hmem
      · exact absurd hmem (hnone rfl)
      · split at hmem
        · simp only [Next.code] at hmem
          split at hmem <;> split at hmem <;> exact absurd hmem (hnone rfl)
        · exact absurd hmem (hnone rfl)
  | trapLow =>
    cases cur with
    | none => exact absurd hmem (hnone rfl)
    | some p =>
      simp only [next, Next.code] at hmem
      split at hmem <;> exact absurd hmem (hnone rfl)
  | dups | fileWork | work | intrWork =>
    cases choice <;> exact absurd hmem (hnone rfl)

/-- A step adds such an instruction to a stack only as the code of an `Op`. -/
theorem marked_step {p : Slot} {i : Instr} (hi : i.marked = true) (hstep : step cfg s a = some t)
    (hmem : i ∈ t.data.stack p) :
    i ∈ s.data.stack p ∨ ∃ c choice o k, a = .exec c choice ∧ s.stack c = .op o :: k ∧
      Executing s c p ∧ i ∈ (next cfg.policy (s.cpu c).proc choice s.data o).code := by
  cases a with
  | exec c choice =>
    cases hstack : s.stack c with
    | nil => simp [step, exec, hstack] at hstep
    | cons j k =>
      have hexec : execInstr cfg s c choice k j = some t := by
        simpa [step, exec, hstack] using hstep
      have hk : Executing s c p → i ∈ k → i ∈ s.data.stack p := by
        intro hex hik
        rw [← hex.stack, hstack]
        exact List.mem_cons_of_mem _ hik
      -- the code that replaces an instruction other than an `Op`
      have hput : ∀ {u : State ncpu} (m : Code) {code : Code}, code = m ++ k ∨ code = m →
          m.any Instr.marked = false → u.data = s.data → u.cpu = s.cpu →
          i ∈ (u.setStack c code).data.stack p → i ∈ s.data.stack p := by
        intro u m code hcode hm hdata hcpu h
        have hnot : i ∉ m := fun him => List.any_eq_false.mp hm i him hi
        rcases mem_setStack h with h | ⟨hex, h⟩
        · rwa [hdata] at h
        · have hex' : Executing s c p := by
            unfold Executing at hex ⊢
            rwa [hcpu] at hex
          rcases hcode with rfl | rfl
          · exact hk hex' ((List.mem_append.mp h).resolve_left hnot)
          · exact absurd h hnot
      cases j with
      | op o =>
        rw [← Option.some.inj hexec] at hmem
        rcases mem_setStack hmem with h | ⟨hex, h⟩
        · rcases write_stack cfg.policy (s.cpu c).proc choice s.data o p with hsame | ⟨-, hfork⟩
          · exact Or.inl (hsame ▸ h)
          · have hnot : forkret.any Instr.marked = false := rfl
            exact absurd hi (List.any_eq_false.mp hnot i (hfork ▸ h))
        · rcases Next.mem_on h with h | h
          · exact Or.inr ⟨c, choice, o, k, rfl, hstack, hex, h⟩
          · exact Or.inl (hk hex h)
      | acquire l =>
        refine Or.inl ?_
        rw [← Option.some.inj hexec] at hmem
        by_cases hl : s.lock l = some c
        · simp only [if_pos hl] at hmem
          exact hput [.panic] (Or.inr rfl) rfl rfl rfl hmem
        · simp only [if_neg hl] at hmem
          exact hput [.spin l] (Or.inl rfl) rfl rfl rfl hmem
      | spin l =>
        simp only [execInstr] at hexec
        split at hexec
        · rw [← Option.some.inj hexec] at hmem
          exact Or.inl (hput (u := s.setLock l (some c)) [] (Or.inl rfl) rfl rfl rfl hmem)
        · cases hexec
      | release l =>
        refine Or.inl ?_
        rw [← Option.some.inj hexec, release] at hmem
        split at hmem
        · dsimp only at hmem
          split at hmem
          · exact hput (u := s.setLock l none) [.panic] (Or.inr rfl) rfl rfl rfl hmem
          · exact hput (u := s.setLock l none) [] (Or.inl rfl) rfl rfl rfl hmem
        · exact hput [.panic] (Or.inr rfl) rfl rfl rfl hmem
      | sched =>
        refine Or.inl ?_
        rw [← Option.some.inj hexec, sched] at hmem
        split at hmem
        · exact hput [.panic] (Or.inr rfl) rfl rfl rfl hmem
        · split at hmem
          · exact hput [.schedRet _] (Or.inl rfl) rfl rfl rfl hmem
          · exact hput [.panic] (Or.inr rfl) rfl rfl rfl hmem
      | schedRet intena | iret | fairRatio q high =>
        rw [← Option.some.inj hexec] at hmem
        exact Or.inl (hput [] (Or.inl rfl) rfl rfl rfl hmem)
      | panic =>
        rw [← Option.some.inj hexec] at hmem
        exact Or.inl (hput [.panic] (Or.inr rfl) rfl rfl rfl hmem)
      | schedTop =>
        rw [← Option.some.inj hexec] at hmem
        exact Or.inl (hput [.acquire .ptable, .scanSlot 0] (Or.inl rfl) rfl rfl rfl hmem)
      | afterSwtch n =>
        rw [← Option.some.inj hexec] at hmem
        exact Or.inl (hput [.scanSlot n] (Or.inl rfl) rfl rfl rfl hmem)
      | scanSlot q =>
        refine Or.inl ?_
        rw [← Option.some.inj hexec] at hmem
        by_cases hq : q < nproc
        · rw [dif_pos hq] at hmem
          cases he : (examineSlot cfg s.data.proc (s.cpu c).locals ⟨q, hq⟩).1 with
          | switch r n => simpa [scan, he, State.dispatch, Data.setProc] using hmem
          | skip =>
            simp only [scan, he] at hmem
            exact hput [.scanSlot (q + 1)] (Or.inl rfl) rfl rfl rfl hmem
          | ratio high =>
            simp only [scan, he] at hmem
            exact hput (clockticks (.fairRatio ⟨q, hq⟩ high) ++ [.scanSlot (q + 1)])
              (Or.inl (by simp)) rfl rfl rfl hmem
          | wild =>
            simp only [scan, he] at hmem
            exact hput [.panic] (Or.inr rfl) rfl rfl rfl hmem
        · rw [dif_neg hq] at hmem
          exact hput [.release .ptable, .schedTop] (Or.inl rfl) rfl rfl rfl hmem
  | syscall c call =>
    refine Or.inl ?_
    simp only [Kernel.step] at hstep
    split at hstep
    · rw [← Option.some.inj hstep] at hmem
      have hnot : (syscallTrap call).any Instr.marked = false := by cases call <;> rfl
      exact (mem_setStack hmem).resolve_right fun h => List.any_eq_false.mp hnot i h.2 hi
    · cases hstep
  | fault c | timer c | device c n =>
    refine Or.inl ?_
    simp only [Kernel.step] at hstep
    split at hstep
    · rw [← Option.some.inj hstep] at hmem
      rcases mem_setStack hmem with h | ⟨hex, h⟩
      · exact h
      · rcases List.mem_append.mp h with h | h
        · have hnot : ∀ m : Code, m.any Instr.marked = false → i ∉ m := fun m hm him =>
            List.any_eq_false.mp hm i him hi
          refine absurd h (hnot _ ?_)
          first
            | rfl
            | (unfold timerTrap; split <;> rfl)
        · rwa [hex.stack] at h
    · cases hstep

/-- No operation takes the parent from a process in creation. -/
theorem write_parent {policy : Policy} {cur : Option Slot} {choice : Choice} {d : Data} {x : Ctx} {o : Op}
    (hfits : o.Fits x) (hknown : x.known.Holds d.proc cur)
    (hcur : ∀ p, cur = some p → Stands x (d.proc p).state)
    (hown : ∀ np, (Instr.op o).owns = some np → (d.proc np).state = .embryo)
    (hexit : o = .exitScan → cur ≠ some initproc) (hsome : ∀ np, o = .copyuvm np → cur ≠ none) {p : Slot}
    (hembryo : (d.proc p).state = .embryo) (hp : (d.proc p).parent ≠ none) :
    ((write policy cur choice d o).proc p).parent ≠ none := by
  cases o with
  | goSleep chan =>
    cases cur with
    | none => exact hp
    | some q =>
      by_cases hpq : p = q
      · subst hpq
        simpa [write, Data.onCur, Data.setProc] using hp
      · simpa [write, Data.onCur, Data.setProc, hpq] using hp
  | allocScan =>
    cases hfind : findUnused d.proc with
    | none => simpa [write, hfind] using hp
    | some np =>
      by_cases hpn : p = np
      · subst hpn
        simpa [write, hfind, Data.setProc] using hp
      · simpa [write, hfind, Data.setProc, hpn] using hp
  | copyuvm np =>
    simp only [write]
    split
    · by_cases hpn : p = np
      · subst hpn
        simpa [Data.setProc] using hsome p rfl
      · simpa [Data.setProc, hpn] using hp
    · exact hp
  | forkRun np =>
    by_cases hpn : p = np
    · subst hpn
      simpa [write, Data.setProc] using hp
    · simpa [write, Data.setProc, hpn] using hp
  | exitScan =>
    cases cur with
    | none => exact hp
    | some q =>
      have hinit : initproc ≠ q := by
        rintro rfl
        exact hexit rfl rfl
      simp only [write, (exitTable_spec hinit d.proc p).1]
      split
      · simp
      · exact hp
  | reap np two =>
    cases cur with
    | none => exact hp
    | some q =>
      simp only [Op.Fits] at hfits
      subst hfits
      have hpn : p ≠ np := by
        rintro rfl
        rw [hknown.1] at hembryo
        cases hembryo
      simpa [write, Data.setProc, hpn] using hp
  | _ =>
    have hcalm : Calm d.proc (write policy cur choice d _).proc := write_calm hfits hcur hown rfl
    rw [hcalm.parent p]
    exact hp

/-- The invariant of the tree, of the history and of what is pending on the stacks. -/
structure Reaping (s : State ncpu) : Prop where
  tree : Tree s.data.proc
  fate : ∀ p g, Fate s.data p g
  pending : Pending s

/-- The operations of `exit` and `fork` are executed on a process's stack. -/
theorem Inv.executing_op (h : Inv s) {c : Fin ncpu} {o : Op} {k : Code} (hstack : s.stack c = .op o :: k)
    (hon : (Instr.op o).On .scheduler = false) : ∃ p, Executing s c p ∧ s.data.stack p = .op o :: k := by
  have hside := h.side_stack c (.op o) (hstack ▸ List.mem_cons_self)
  cases hsched : (s.cpu c).onScheduler with
  | true =>
    rw [State.side, hsched, if_pos rfl, hon] at hside
    cases hside
  | false =>
    obtain ⟨p, hp⟩ := (h.shape c).proc hsched
    exact ⟨p, ⟨hsched, hp⟩, (Executing.stack ⟨hsched, hp⟩).symm.trans hstack⟩

/-- What an `Op` of a state of the invariant may rely on. -/
structure OpFacts (s : State ncpu) (c : Fin ncpu) (o : Op) (x : Ctx) : Prop where
  fits : o.Fits x
  known : x.known.Holds s.data.proc (s.cpu c).proc
  cur : ∀ p, (s.cpu c).proc = some p → Stands x (s.data.proc p).state
  own : ∀ np, (Instr.op o).owns = some np → (s.data.proc np).state = .embryo
  exit : o = .exitScan → (s.cpu c).proc ≠ some initproc
  fork : ∀ np, o = .forkRun np → (s.data.proc np).parent ≠ none
  copy : ∀ np, o = .copyuvm np → (s.cpu c).proc ≠ none

theorem Reaping.opFacts (h : Reaping s) (hinv : Inv s) {c : Fin ncpu} {o : Op} {k : Code}
    (hstack : s.stack c = .op o :: k) : ∃ x, OpFacts s c o x := by
  obtain ⟨x, hx⟩ := hinv.cpu c
  refine ⟨x, (hx.stacked hstack nofun).op.1, hx.known, ?_, ?_, ?_, ?_, ?_⟩
  · exact fun p hp => hx.stands p (hinv.executing_cur hstack nofun hp)
  · intro np hnp
    exact hinv.owned_embryo c np (hstack ▸ mem_owned_of_owns hnp k)
  · rintro rfl hinit
    have hexec := hinv.executing_cur hstack nofun hinit
    refine h.pending.exit ?_
    rw [← hexec.stack, hstack]
    exact List.mem_cons_self
  · rintro np rfl
    obtain ⟨p, -, hp⟩ := hinv.executing_op hstack rfl
    exact h.pending.fork p np (hp ▸ List.mem_cons_self)
  · rintro np rfl
    obtain ⟨p, hexec, -⟩ := hinv.executing_op hstack rfl
    simp [hexec.2]

theorem calm_dispatch {d : Data} {q : Slot} (hq : (d.proc q).state = .runnable) :
    Calm d.proc (d.setProc q fun p => { p with state := .running }).proc := by
  apply Calm.update <;> simp [hq, ProcState.Live]

theorem Reaping.tree_step (h : Reaping s) (hinv : Inv s) (hrun : DispatchesRunnable cfg s a)
    (hstep : step cfg s a = some t) : Tree t.data.proc := by
  cases dataStep hstep with
  | kept _ hdata =>
    obtain ⟨stack, hdata⟩ := hdata
    rw [hdata]
    exact h.tree
  | dispatch q c choice p k _ _ hd hdata =>
    rw [hdata]
    exact h.tree.calm (calm_dispatch (hrun q hd))
  | op c choice o k stack ha hstack _ hdata =>
    obtain ⟨x, hx⟩ := h.opFacts hinv hstack
    rw [hdata]
    exact write_tree h.tree hx.fits hx.known hx.cur hx.own hx.exit hx.fork

theorem Reaping.fate_step (h : Reaping s) (hinv : Inv s) (hrun : DispatchesRunnable cfg s a)
    (hstep : step cfg s a = some t) (p : Slot) (g : Nat) : Fate t.data p g := by
  have hstacks : ∀ {d : Data} {stack : Slot → Code}, Fate d p g → Fate { d with stack := stack } p g :=
    fun hd => hd.keep rfl Iff.rfl id rfl rfl rfl
  cases dataStep hstep with
  | kept _ hdata =>
    obtain ⟨stack, hdata⟩ := hdata
    rw [hdata]
    exact hstacks (h.fate p g)
  | dispatch q c choice p' k _ _ hd hdata =>
    have hcalm := calm_dispatch (hrun q hd)
    rw [hdata]
    exact (h.fate p g).keep (hcalm.pid p) (hcalm.zombie p) (hcalm.unused p) rfl rfl rfl
  | op c choice o k stack ha hstack _ hdata =>
    obtain ⟨x, hx⟩ := h.opFacts hinv hstack
    rw [hdata]
    exact hstacks (write_fate hx.fits hx.known hx.cur hx.own hx.exit (h.fate p g))

theorem Reaping.pending_step (h : Reaping s) (hinv : Inv s) (hrun : DispatchesRunnable cfg s a)
    (hstep : step cfg s a = some t) : Pending t := by
  constructor
  · intro hmem
    rcases marked_step rfl hstep hmem with hold | ⟨c, choice, o, k, ha, hstack, hexec, hnew⟩
    · exact h.pending.exit hold
    · rcases next_marked rfl hnew with ⟨-, -, hcur⟩ | ⟨np, -, heq, -⟩
      · exact hcur hexec.2
      · cases heq
  · intro p np hmem
    rcases marked_step rfl hstep hmem with hold | ⟨c, choice, o, k, ha, hstack, hexec, hnew⟩
    · have hparent := h.pending.fork p np hold
      have hembryo := hinv.embryo p np (List.mem_filterMap.mpr ⟨_, hold, rfl⟩)
      cases dataStep hstep with
      | kept _ hdata =>
        obtain ⟨stack, hdata⟩ := hdata
        rw [hdata]
        exact hparent
      | dispatch q c choice p' k _ _ hd hdata =>
        rw [hdata, (calm_dispatch (hrun q hd)).parent np]
        exact hparent
      | op c choice o k stack ha hstack _ hdata =>
        obtain ⟨x, hx⟩ := h.opFacts hinv hstack
        rw [hdata]
        exact write_parent hx.fits hx.known hx.cur hx.own hx.exit hx.copy hembryo hparent
    · rcases next_marked rfl hnew with ⟨-, heq, -⟩ | ⟨np', rfl, heq, hok⟩
      · cases heq
      · -- `fork` has just set the parent
        cases heq
        subst ha
        have hexec' : execInstr cfg s c choice k (.op (.copyuvm np)) = some t := by
          simpa [step, exec, hstack] using hstep
        obtain ⟨stack, hdata⟩ := setStack_data
          { s with data := write cfg.policy (s.cpu c).proc choice s.data (.copyuvm np) } c
          ((next cfg.policy (s.cpu c).proc choice s.data (.copyuvm np)).on k)
        rw [← Option.some.inj hexec', hdata]
        simp [write, hok, Data.setProc, hexec.2]

theorem Reaping.step (h : Reaping s) (hinv : Inv s) (hrun : DispatchesRunnable cfg s a)
    (hstep : step cfg s a = some t) : Reaping t :=
  ⟨h.tree_step hinv hrun hstep, h.fate_step hinv hrun hstep, h.pending_step hinv hrun hstep⟩

theorem boot_reaping : Reaping (boot : State ncpu) where
  tree :=
    { initLive := Or.inl rfl
      initParent := rfl
      parentLive := by
        intro p q hq
        simp only [boot] at hq
        split at hq <;> cases hq
      parented := by
        intro p hp hstate
        simp [boot, hp, ProcState.Live] at hstate
      ownChan := by
        intro p q hs
        simp only [boot] at hs
        split at hs <;> cases hs
      noZombie := by
        intro p hp
        have hs := hp.1
        simp only [boot] at hs
        split at hs <;> cases hs }
  fate p g := by
    refine .notYet (fun _ => ?_) rfl rfl
    simp only [boot]
    split <;> simp
  pending := by
    refine ⟨by simp [boot, forkret], fun p np hmem => ?_⟩
    simp only [boot] at hmem
    split at hmem <;> simp [forkret] at hmem

/-- The RR scheduler looks at the state of the process it switches to. -/
theorem rr_dispatchesRunnable (hrr : cfg.policy = .rr) (s : State ncpu) (a : Act ncpu) :
    DispatchesRunnable cfg s a := by
  intro q hq
  cases a with
  | exec c choice =>
    simp only [dispatches] at hq
    split at hq
    · split at hq
      · rename_i p k _ hp
        by_cases hrun : (s.data.proc ⟨p, hp⟩).state = .runnable
        · simp only [examineSlot, hrr, hrun] at hq
          cases hq
          exact hrun
        · simp [examineSlot, hrr, hrun] at hq
      · cases hq
    · cases hq
  | _ => cases hq

theorem Reaches.reaping (hrr : cfg.policy = .rr) (hs : Reaches cfg (fun _ _ => True) s) : Reaping s := by
  have hinv : Inv s ∧ Reaping s := by
    apply LibRun.Reachable.invariant _ _ hs
    · rintro _ rfl
      exact ⟨boot_inv, boot_reaping⟩
    · rintro s t - ⟨h, hreap⟩ ⟨a, -, hstep⟩
      have hrun := rr_dispatchesRunnable hrr s a
      exact ⟨(framed_step h hrun hstep).inv h, hreap.step h hrun hstep⟩
  exact hinv.2

/-- A process that has exited is the zombie in its slot and has not been returned, or it has been
returned once, to the process that was its parent then. -/
def ReturnedOnce (d : Data) (p : Slot) (g : Nat) (pid : Int) : Prop :=
  exits d.log p g = [.exited p g pid] ∧
    ((g = d.gen p ∧ (d.proc p).state = .zombie ∧ (d.proc p).pid = pid ∧ returns d.log p g = []) ∨
      ∃ q times, returns d.log p g = [.reaped q (some q) p g pid times])

theorem Fate.returnedOnce {d : Data} {p : Slot} {g : Nat} {pid : Int} (h : Fate d p g)
    (hmem : .exited p g pid ∈ d.log) : ReturnedOnce d p g pid := by
  have hexits : .exited p g pid ∈ exits d.log p g := List.mem_filter.mpr ⟨hmem, by simp [Event.isExit]⟩
  cases h with
  | notYet _ hex =>
    rw [hex] at hexits
    cases hexits
  | zombie hg hz hex hret =>
    rw [hex, List.mem_singleton] at hexits
    cases hexits
    exact ⟨hex, Or.inl ⟨hg, hz, rfl, hret⟩⟩
  | returned pid' q times _ hex hret =>
    rw [hex, List.mem_singleton] at hexits
    cases hexits
    exact ⟨hex, Or.inr ⟨q, times, hret⟩⟩

theorem Fate.exited_of_reaped {d : Data} {p q : Slot} {g : Nat} {pid : Int} {parent : Option Slot}
    {times : Option (Int × Int)} (h : Fate d p g) (hmem : .reaped q parent p g pid times ∈ d.log) :
    .exited p g pid ∈ d.log := by
  have hreturns : .reaped q parent p g pid times ∈ returns d.log p g :=
    List.mem_filter.mpr ⟨hmem, by simp [Event.isReturn]⟩
  cases h with
  | notYet _ _ hret | zombie _ _ _ hret =>
    rw [hret] at hreturns
    cases hreturns
  | returned pid' q' times' _ hex hret =>
    rw [hret, List.mem_singleton] at hreturns
    cases hreturns
    have hexits : .exited p g pid ∈ exits d.log p g := by
      rw [hex]
      exact List.mem_cons_self
    exact (List.mem_filter.mp hexits).1

/-- A scan of `wait` or `wait2` finds a zombie child if there is one, and goes on to return it. -/
theorem waitNext_zombie {d : Data} {p z : Slot} (two : Bool) (hparent : (d.proc z).parent = some p)
    (hzombie : (d.proc z).state = .zombie) :
    ∃ np, (d.proc np).parent = some p ∧ (d.proc np).state = .zombie ∧
      waitNext d p two = [.op .kmemWork, .op (.reap np two), .release .ptable] := by
  cases hfind : findZombie p d.proc with
  | none => exact absurd hzombie (findZombie_none hfind z hparent)
  | some np =>
    obtain ⟨hp, hz⟩ := findZombie_spec hfind
    exact ⟨np, hp, hz, by simp [waitNext, hfind]⟩

/-- Under RR, in every reachable state: every process but init has a parent that is alive; nobody who
sleeps in `wait` has a zombie child; every process that exits is returned by one call of `wait` or
`wait2`, of its parent, which does not miss it; and only such processes are returned. -/
theorem process_tree_reaped (cfg : Config) (hrr : cfg.policy = .rr) (s : State ncpu)
    (hs : Reaches cfg (fun _ _ => True) s) :
    (∀ p, p ≠ initproc → (s.data.proc p).state.Live ∨ (s.data.proc p).state = .zombie →
        ∃ q, (s.data.proc p).parent = some q ∧ (s.data.proc q).state.Live) ∧
      (∀ p, SleepsInWait s.data.proc p →
        ∀ z, (s.data.proc z).parent = some p → (s.data.proc z).state ≠ .zombie) ∧
      (∀ p g pid, .exited p g pid ∈ s.data.log → ReturnedOnce s.data p g pid) ∧
      (∀ q parent p g pid times, .reaped q parent p g pid times ∈ s.data.log →
        .exited p g pid ∈ s.data.log) ∧
      ∀ p z two, (s.data.proc z).parent = some p → (s.data.proc z).state = .zombie →
        ∃ np, (s.data.proc np).parent = some p ∧ (s.data.proc np).state = .zombie ∧
          waitNext s.data p two = [.op .kmemWork, .op (.reap np two), .release .ptable] := by
  have h := hs.reaping hrr
  refine ⟨?_, h.tree.noZombie, fun p g pid => (h.fate p g).returnedOnce,
    fun q parent p g pid times => (h.fate p g).exited_of_reaped, fun p z two => waitNext_zombie two⟩
  intro p hp hstate
  obtain ⟨q, hq⟩ := Option.ne_none_iff_exists'.mp (h.tree.parented p hp hstate)
  exact ⟨q, hq, (h.tree.parentLive p q hq).1⟩

/-- Init forks on cpu 0; the child exits on cpu 1, whose scheduler finds nothing to run; init waits. -/
def reapRun : List (Act 2) :=
  steps 0 6 ++ .syscall 0 .fork :: steps 0 19 ++ steps 1 7 ++ .syscall 1 .exit :: steps 1 76 ++
    .syscall 0 .wait :: steps 0 7

/-- The slot of the child. -/
def firstChild : Slot := ⟨1, one_lt_nproc⟩

theorem reapRun_returnedOnce :
    ∃ s : State 2, Reaches (plain .rr) (fun _ _ => True) s ∧
      s.data.log = [.reaped initproc (some initproc) firstChild 1 2 none, .exited firstChild 1 2] ∧
      ReturnedOnce s.data firstChild 1 2 := by
  have hrun : ((run (plain .rr) (fun _ _ => true) (boot : State 2) reapRun).map fun s => s.data.log) =
      some [.reaped initproc (some initproc) firstChild 1 2 none, .exited firstChild 1 2] := by
    decide +kernel
  obtain ⟨s, hs, hlog⟩ := Option.map_eq_some_iff.mp hrun
  have hreach : Reaches (plain .rr) (fun _ _ => True) s :=
    Reaches.run (fun _ _ _ => trivial) (.start rfl) hs
  refine ⟨s, hreach, hlog, (process_tree_reaped _ rfl s hreach).2.2.1 firstChild 1 2 ?_⟩
  rw [hlog]
  decide

end Xv6.Kernel
