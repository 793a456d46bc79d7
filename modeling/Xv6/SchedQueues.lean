import Mathlib
import Xv6.SchedRr2q

/-! The two queues of RR2Q. Processes of high priority are meant to go first: the low-priority ones are
looked at when `loop` says that all slots have been passed over. The count goes on while the lock is
free, so a process that wakes up behind the cursor is overlooked. Processes of low priority are meant to
take turns; the order that excludes starvation is the cyclic one, which the search does not keep. -/

namespace Xv6.Rr2q

open LibRun LibWord Relation

/-- A process of high priority that could run. -/
def HighRunnable (p : Proc) : Prop := p.priority = 0 ∧ p.state = .runnable

instance (p : Proc) : Decidable (HighRunnable p) := inferInstanceAs (Decidable (_ ∧ _))

/-- The examination that is due switches to `q`. -/
def Dispatches (s : State) (q : Nat) : Prop :=
  ∃ p, s.phase = .scan p ∧ p < nproc ∧ (examine s.proc s.locals p).chosen = some q

/-- Strict priority in one state: if the cpu is about to switch to a process of low priority, no process
of the table is `RUNNABLE` with high priority. -/
def Strict (s : State) : Prop :=
  ∀ q, Dispatches s q → (s.proc q).priority ≠ 0 → ∀ r < nproc, ¬HighRunnable (s.proc r)

/-- How many slots before the cursor a slot lies, around the end of the table. -/
def behind (p r : Nat) : Nat := if r < p then p - r else p + nproc - r

/-- The slot has been passed over since the last dispatch. -/
def Counted (s : State) (r : Nat) : Prop :=
  match s.phase with
  | .top => (behind 0 r : Int) ≤ s.locals.loop
  | .scan p => (behind p r : Int) ≤ s.locals.loop
  | .switched _ => False

/-- The condition on a step: it makes no process `RUNNABLE` with high priority in a slot that has been
passed over. -/
def Undisturbed (s t : State) : Prop :=
  ∀ r < nproc, Counted s r → HighRunnable (t.proc r) → HighRunnable (s.proc r)

/-- The scheduler's own steps other than a dispatch. -/
inductive Quiet : State → State → Prop
  | acquire {s : State} : s.phase = .top → Quiet s { s with phase := .scan 0 }
  | skip {s : State} {p : Nat} : s.phase = .scan p → p < nproc →
      (examine s.proc s.locals p).chosen = none →
      Quiet s { s with locals := (examine s.proc s.locals p).locals, phase := .scan (p + 1) }
  | back {s : State} {q h : Nat} : s.phase = .switched q → s.locals.lastHighPri = some h →
      Quiet s { s with phase := .scan (h + 1) }
  | release {s : State} {p : Nat} : s.phase = .scan p → ¬p < nproc →
      Quiet s { s with phase := .top }

variable {s t u : State} {p q r : Nat}

theorem Quiet.step (h : Quiet s t) : Step s t := by
  cases h with
  | acquire h => exact .acquire h
  | skip h hp hnone => exact .skip h hp hnone
  | back h hlast => exact .back h hlast
  | release h hp => exact .release h hp

theorem Quiet.proc (h : Quiet s t) : t.proc = s.proc := by cases h <;> rfl

theorem quiet_proc (h : ReflTransGen Quiet s t) : t.proc = s.proc := by
  induction h with
  | refl => rfl
  | tail _ hstep ih => exact hstep.proc.trans ih

theorem Quiet.undisturbed (h : Quiet s t) : Undisturbed s t := by
  intro r _ _ hr
  rwa [h.proc] at hr

/-- What a skipped slot is. -/
theorem examine_none {proc : Nat → Proc} {l : Locals} (h : (examine proc l p).chosen = none) :
    ((proc p).state ≠ .runnable ∧ (proc p).priority = 0 ∨ (proc p).priority ≠ 0 ∧ l.loop < 64) ∧
      (examine proc l p).locals = { l with loop := incr32 l.loop } := by
  unfold examine at h ⊢
  split at h
  · rename_i hhigh
    rw [if_pos hhigh]
    exact ⟨Or.inl hhigh, rfl⟩
  · grind

theorem examine_skip {proc : Nat → Proc} {l : Locals}
    (h : ¬HighRunnable (proc p)) (hloop : l.loop < 64) :
    (examine proc l p).chosen = none := by
  unfold examine
  by_cases hpri : (proc p).priority = 0
  · rw [if_pos ⟨fun hrun => h ⟨hpri, hrun⟩, hpri⟩]
  · rw [if_neg (fun hhigh => hpri hhigh.2), if_pos ⟨hpri, hloop⟩]

/-- What is switched to: with `loop` at 64 the result of the search, otherwise the slot at the cursor. -/
theorem examine_taken {proc : Nat → Proc} {l : Locals} (h : (examine proc l p).chosen = some q) :
    ((proc p).state = .runnable ∨ (proc p).priority ≠ 0) ∧
      (l.loop = 64 ∧ q = (if (search proc 64 (l.lastLowPri.getD p)).2
          then (search proc 64 (l.lastLowPri.getD p)).1 else p) ∨
        q = p ∧ ((proc p).priority ≠ 0 → 64 < l.loop)) := by
  unfold examine at h
  split at h
  · cases h
  · grind

theorem examine_low {proc : Nat → Proc} {l : Locals} (h : (examine proc l p).chosen = some q)
    (hq : (proc q).priority ≠ 0) : 64 ≤ l.loop := by
  rcases (examine_taken h).2 with ⟨hloop, -⟩ | ⟨rfl, hlow⟩
  · exact hloop.ge
  · exact (hlow hq).le

theorem examine_some {proc : Nat → Proc} {l : Locals} (h : (examine proc l p).chosen = some q) :
    (examine proc l p).locals.loop = 0 ∧ (examine proc l p).locals.lastHighPri = some p := by
  unfold examine at h ⊢
  split at h
  · cases h
  · grind

/-- What holds along the runs of the scheduler, whatever becomes of the table. -/
structure Cursor (s : State) : Prop where
  bound : ∀ p, s.phase = .scan p → p ≤ nproc
  last : ∀ h, s.locals.lastHighPri = some h → h < nproc
  switched : ∀ q, s.phase = .switched q → s.locals.loop = 0 ∧ s.locals.lastHighPri ≠ none
  loop : -(2 ^ 31) ≤ s.locals.loop ∧ s.locals.loop < 2 ^ 31

theorem init_cursor (h : Init s) : Cursor s := by
  obtain ⟨hlocals, hphase⟩ := h
  refine ⟨?_, ?_, ?_, ?_⟩ <;> simp [hlocals, hphase]

theorem Cursor.step (h : Cursor s) (hstep : Step s t) : Cursor t := by
  cases hstep with
  | acquire hphase => exact ⟨fun p hp => by cases hp; exact Nat.zero_le _, h.last, nofun, h.loop⟩
  | skip hphase hp hnone =>
    rw [(examine_none hnone).2]
    exact ⟨fun p hp' => by cases hp'; exact hp, h.last, nofun, incr32_range _⟩
  | dispatch hphase hp hq =>
    obtain ⟨hloop, hlast⟩ := examine_some hq
    refine ⟨nofun, fun r hr => ?_, fun _ _ => ⟨hloop, by simp [hlast]⟩, ?_⟩
    · rw [hlast] at hr
      cases hr
      exact hp
    · simp [hloop]
  | back hphase hlast =>
    exact ⟨fun p hp => by cases hp; exact h.last _ hlast, h.last, nofun, h.loop⟩
  | release hphase hp => exact ⟨nofun, h.last, nofun, h.loop⟩
  | other proc hfree => exact ⟨h.bound, h.last, h.switched, h.loop⟩
  | unlocked q state hembryo hstate => exact ⟨h.bound, h.last, h.switched, h.loop⟩

/-- A slot that has been passed over is not `RUNNABLE` with high priority. -/
def Passed (s : State) : Prop := ∀ r < nproc, Counted s r → ¬HighRunnable (s.proc r)

theorem Passed.keep (h : Passed s) (hquiet : Undisturbed s t)
    (hcounted : ∀ r < nproc, Counted t r → Counted s r) : Passed t :=
  fun r hr hc hhigh => h r hr (hcounted r hr hc) (hquiet r hr (hcounted r hr hc) hhigh)

theorem Passed.step (h : Passed s) (hcursor : Cursor s) (hquiet : Undisturbed s t) (hstep : Step s t) :
    Passed t := by
  cases hstep with
  | acquire hphase => exact h.keep hquiet fun r _ hc => by simpa [Counted, hphase] using hc
  | skip hphase hp hnone =>
    rename_i p
    obtain ⟨hslot, hlocals⟩ := examine_none hnone
    intro r hr hc hhigh
    by_cases hrp : r = p
    · subst hrp
      rcases hslot with hslot | hslot
      · exact hslot.1 hhigh.2
      · exact hslot.1 hhigh.1
    · refine h r hr ?_ hhigh
      have hincr := incr32_le hcursor.loop.1
      simp only [Counted, hlocals, hphase, behind] at hc ⊢
      split at hc <;> split <;> omega
  | dispatch hphase hp hq => exact fun r _ hc => hc.elim
  | back hphase hlast =>
    intro r hr hc
    have hloop := (hcursor.switched _ hphase).1
    have hh := hcursor.last _ hlast
    simp only [Counted, hloop, behind] at hc
    split at hc <;> omega
  | release hphase hp =>
    rename_i p
    have hbound := hcursor.bound p hphase
    refine h.keep hquiet fun r hr hc => ?_
    simp only [Counted, hphase, behind] at hc ⊢
    rw [if_pos (by omega)]
    simpa [show p = nproc by omega] using hc
  | other proc hfree => exact h.keep hquiet fun r _ hc => hc
  | unlocked q state hembryo hstate => exact h.keep hquiet fun r _ hc => hc

theorem behind_le (hp : p ≤ nproc) (r : Nat) : behind p r ≤ nproc := by
  unfold behind
  split <;> omega

theorem Passed.strict (h : Passed s) : Strict s := by
  rintro q ⟨p, hphase, hp, hq⟩ hlow r hr
  have hloop := examine_low hq hlow
  have hbehind := behind_le hp.le r
  refine h r hr ?_
  simp only [Counted, hphase]
  simp only [nproc] at hbehind
  omega

/-- RR2Q strict priority: in every run of `scheduler()` in which no process becomes `RUNNABLE` with high
priority in a slot that has been passed over since the last dispatch, low-priority processes run only
when no high-priority process could. -/
theorem strict_priority (s : State) (hs : Reachable Init (fun s t => Step s t ∧ Undisturbed s t) s) :
    Strict s := by
  have h : Cursor s ∧ Passed s := by
    refine hs.invariant (P := fun s => Cursor s ∧ Passed s) ?_ ?_
    · intro s hinit
      refine ⟨init_cursor hinit, fun r hr hc => ?_⟩
      simp only [Counted, hinit.1, hinit.2, behind, Nat.not_lt_zero, if_false] at hc
      omega
    · rintro s t - ⟨hcursor, hpassed⟩ ⟨hstep, hquiet⟩
      exact ⟨hcursor.step hstep, hpassed.step hcursor hquiet hstep⟩
  exact h.2.strict

/-- A scan that finds no high-priority process to run goes on, as long as `loop` is below 64. -/
theorem quiet_scan {proc : Nat → Proc} {l : Locals} (hhigh : ∀ r < nproc, ¬HighRunnable (proc r)) (k : Nat)
    {n p : Nat} (hn : n + k ≤ 64) (hp : p + k ≤ nproc) :
    ReflTransGen Quiet { locals := { l with loop := n }, phase := .scan p, proc := proc }
      { locals := { l with loop := (n + k : Nat) }, phase := .scan (p + k), proc := proc } := by
  induction k with
  | zero => exact .refl
  | succ k ih =>
    have hnone : (examine proc { l with loop := (n + k : Nat) } (p + k)).chosen = none :=
      examine_skip (hhigh _ (by omega)) (by simp only; omega)
    have hincr : incr32 (n + k : Nat) = (n + (k + 1) : Nat) := incr32_of_lt (by omega) (by omega)
    have hskip := Quiet.skip (s := ⟨{ l with loop := (n + k : Nat) }, .scan (p + k), proc⟩) rfl (by omega)
      hnone
    rw [(examine_none hnone).2, hincr] at hskip
    exact (ih (by omega) (by omega)).tail hskip

theorem quiet_wrap {proc : Nat → Proc} {l : Locals} :
    ReflTransGen Quiet { locals := l, phase := .scan nproc, proc := proc }
      { locals := l, phase := .scan 0, proc := proc } :=
  .tail (.single (Quiet.release (s := ⟨l, .scan nproc, proc⟩) rfl (by omega)))
    (Quiet.acquire (s := ⟨l, .top, proc⟩) rfl)

/-- Once around the table `loop` goes from 0 to 64. -/
theorem quiet_round {proc : Nat → Proc} {l : Locals} (hhigh : ∀ r < nproc, ¬HighRunnable (proc r))
    (hp : p ≤ nproc) :
    ReflTransGen Quiet { locals := { l with loop := 0 }, phase := .scan p, proc := proc }
      { locals := { l with loop := 64 }, phase := .scan p, proc := proc } := by
  have hend := quiet_scan (l := l) hhigh (nproc - p) (n := 0) (p := p) (by simp [nproc]) (by omega)
  have hagain := quiet_scan (l := l) hhigh p (n := nproc - p) (p := 0) (by simp [nproc] at hp ⊢; omega) (by omega)
  have hpass : p + (nproc - p) = nproc := by omega
  have hcount : nproc - p + p = 64 := by
    have : nproc = 64 := rfl
    omega
  rw [hpass, Nat.zero_add] at hend
  rw [hcount, Nat.zero_add] at hagain
  exact (hend.trans quiet_wrap).trans hagain

theorem reachable_quiet {step : State → State → Prop} (hstep : ∀ s t, Quiet s t → step s t)
    (hs : Reachable Init step s) (h : ReflTransGen Quiet s t) : Reachable Init step t := by
  induction h with
  | refl => exact hs
  | tail _ hquiet ih => exact .next ih (hstep _ _ hquiet)

/-- A machine on which `init` sleeps and a process that called `nice` could run. -/
def lowTable : Nat → Proc
  | 0 => { state := .sleeping }
  | 1 => { state := .runnable, priority := 1 }
  | _ => {}

theorem lowTable_high (r : Nat) : ¬HighRunnable (lowTable r) := by
  rcases r with _ | _ | r
  · decide
  · decide
  · exact fun h => nomatch h.2

theorem first_pass {proc : Nat → Proc} (hhigh : ∀ r < nproc, ¬HighRunnable (proc r)) :
    ReflTransGen Quiet { proc := proc } { locals := { loop := 64 }, phase := .scan 0, proc := proc } :=
  .head (Quiet.acquire rfl) (quiet_round (l := {}) hhigh (Nat.zero_le _))

/-- The low-priority process is dispatched after a pass over the table. -/
theorem lowTable_strict :
    ∃ s : State, Reachable Init (fun s t => Step s t ∧ Undisturbed s t) s ∧ Dispatches s 1 ∧
      (s.proc 1).priority ≠ 0 ∧ ∀ r < nproc, ¬HighRunnable (s.proc r) := by
  have hpass := first_pass fun r _ => lowTable_high r
  have hreach : Reachable Init (fun s t => Step s t ∧ Undisturbed s t)
      { locals := { loop := 65 }, phase := .scan 1, proc := lowTable } := by
    refine reachable_quiet (fun _ _ h => ⟨h.step, h.undisturbed⟩)
      (.start (s := { proc := lowTable }) ⟨rfl, rfl⟩) (hpass.tail ?_)
    exact Quiet.skip (s := ⟨{ loop := 64 }, .scan 0, lowTable⟩) rfl (by decide) rfl
  have hdispatch : Dispatches { locals := { loop := 65 }, phase := .scan 1, proc := lowTable } 1 :=
    ⟨1, rfl, by decide, rfl⟩
  exact ⟨_, hreach, hdispatch, by decide, strict_priority _ hreach 1 hdispatch (by decide)⟩

/-- After one pass the lock is free; an interrupt wakes up `init`, whose slot is examined with `loop`
at 64, and the low-priority process is dispatched in its place. -/
theorem priority_not_strict : ¬∀ s, Reachable Init Step s → Strict s := by
  intro hstrict
  let woken : Nat → Proc := Function.update lowTable 0 { state := .runnable }
  have hpass := quiet_scan (l := {}) (fun r _ => lowTable_high r) nproc (n := 0) (p := 0) le_rfl le_rfl
  have hscan := reachable_quiet (fun _ _ h => h.step)
    (.next (.start (s := { proc := lowTable }) ⟨rfl, rfl⟩) (.acquire rfl)) hpass
  have htop := Reachable.next hscan (.release rfl (by decide))
  have hwoken := Reachable.next htop (.other woken nofun)
  have hagain := Reachable.next hwoken (.acquire rfl)
  refine hstrict _ hagain 1 ⟨0, rfl, by decide, ?_⟩ (by decide) 0 (by decide) (by decide)
  decide

/-! The turns of the low-priority processes. -/

/-- Where a slot stands in the cyclic order that starts behind slot `l`. -/
def turn (l r : Nat) : Nat := (r + nproc - l - 1) % nproc

/-- It is the turn of slot `q`: no `RUNNABLE` low-priority process stands between the low-priority
process dispatched last and `q`. -/
def Due (proc : Nat → Proc) (last : Option Nat) (q : Nat) : Prop :=
  ∀ l, last = some l → ∀ r < nproc, LowRunnable (proc r) → turn l q ≤ turn l r

/-- The condition on a state in which a slot is examined. A low-priority slot that is taken with `loop`
past 64 is `RUNNABLE` and due. With `loop` at 64, the first `RUNNABLE` low-priority slot from `lastLowPri`
(or the slot itself) upwards lies in the table and is due; or there is none, and the slot itself is
`RUNNABLE`, and due if it has low priority. -/
def Orderly (last : Option Nat) (s : State) : Prop :=
  ∀ p, s.phase = .scan p → p < nproc →
    ((s.proc p).priority ≠ 0 → 64 < s.locals.loop → (s.proc p).state = .runnable ∧ Due s.proc last p) ∧
    (s.locals.loop = 64 → (s.proc p).state = .runnable ∨ (s.proc p).priority ≠ 0 →
      (∃ q, s.locals.lastLowPri.getD p ≤ q ∧ q < nproc ∧ LowRunnable (s.proc q) ∧
        (∀ r, s.locals.lastLowPri.getD p ≤ r → r < q → ¬LowRunnable (s.proc r)) ∧ Due s.proc last q) ∨
      ((∀ r, s.locals.lastLowPri.getD p ≤ r → r < s.locals.lastLowPri.getD p + 64 →
          ¬LowRunnable (s.proc r)) ∧
        (s.proc p).state = .runnable ∧ ((s.proc p).priority ≠ 0 → Due s.proc last p)))

/-- The process a step dispatches. -/
def dispatched (s t : State) : Option Nat :=
  match s.phase, t.phase with
  | .scan _, .switched q => if (s.proc q).priority ≠ 0 then some q else none
  | _, _ => none

/-- The low-priority process dispatched last; and for each low-priority process that has been dispatched,
the processes that have been `RUNNABLE` with low priority in every state since then. -/
structure Turns where
  last : Option Nat
  waits : Nat → Nat → Prop

def noTurns : Turns := ⟨none, fun _ _ => False⟩

def watchTurns (s t : State) (g : Turns) : Turns where
  last := (dispatched s t).or g.last
  waits q r :=
    if dispatched s t = some q then LowRunnable (t.proc r) else g.waits q r ∧ LowRunnable (t.proc r)

/-- The states of the runs whose steps all meet a condition on the state before the step, with the
turns taken so far. -/
def TurnReach (guard : Option Nat → State → Prop) : State × Turns → Prop :=
  Reachable (fun x => Init x.1 ∧ x.2 = noTurns)
    fun x y => guard x.2.last x.1 ∧ Step x.1 y.1 ∧ y.2 = watchTurns x.1 y.1 x.2

variable {last : Option Nat} {g : Turns}

/-- A search stops at the first `RUNNABLE` low-priority slot. -/
theorem search_first {proc : Nat → Proc} (fuel : Nat) {start : Nat} (hle : start ≤ q)
    (hq : q < start + fuel) (hlow : LowRunnable (proc q))
    (hfirst : ∀ r, start ≤ r → r < q → ¬LowRunnable (proc r)) : search proc fuel start = (q, true) := by
  obtain ⟨hfound, hstop, -⟩ := search_of_mem fuel hle hq hlow
  obtain ⟨hstart, hlow'⟩ := search_found hfound
  have heq : (search proc fuel start).1 = q := by
    by_contra hne
    exact hfirst _ hstart (by omega) hlow'
  exact Prod.ext heq hfound

theorem search_none {proc : Nat → Proc} {fuel start : Nat}
    (hnone : ∀ r, start ≤ r → r < start + fuel → ¬LowRunnable (proc r)) :
    (search proc fuel start).2 = false := by
  by_contra hfound
  rw [Bool.not_eq_false] at hfound
  obtain ⟨hstart, hlow⟩ := search_found hfound
  exact hnone _ hstart (lt_of_mem_searched (search_mem_searched hfound)) hlow

/-- In an orderly state a low-priority process that is dispatched is `RUNNABLE` and due. -/
theorem Orderly.due (h : Orderly last s) (hq : Dispatches s q) (hlow : (s.proc q).priority ≠ 0) :
    q < nproc ∧ (s.proc q).state = .runnable ∧ Due s.proc last q := by
  obtain ⟨p, hphase, hp, hq⟩ := hq
  obtain ⟨hpast, hat⟩ := h p hphase hp
  obtain ⟨hp', hq⟩ := examine_taken hq
  rcases hq with ⟨hloop, rfl⟩ | ⟨rfl, hgt⟩
  · rcases hat hloop hp' with ⟨r, hle, hr, hlowr, hfirst, hdue⟩ | ⟨hnone, hrun, hdue⟩
    · rw [search_first 64 hle (by simp only [nproc] at hr; omega) hlowr hfirst]
      exact ⟨hr, hlowr.2, hdue⟩
    · rw [search_none hnone] at hlow ⊢
      exact ⟨hp, hrun, hdue hlow⟩
  · exact ⟨hp, hpast hlow (hgt hlow)⟩

/-- A high-priority process that is dispatched could run, and is the one at the cursor. -/
theorem Dispatches.high (hq : Dispatches s q) (hpri : (s.proc q).priority = 0) :
    q < nproc ∧ HighRunnable (s.proc q) := by
  obtain ⟨p, hphase, hp, hq⟩ := hq
  have hrun : (s.proc q).state = .runnable := (examine_chosen hq).resolve_right fun h => h hpri
  refine ⟨?_, hpri, hrun⟩
  rcases (examine_taken hq).2 with ⟨-, heq⟩ | ⟨rfl, -⟩
  · split at heq
    · rename_i hfound
      rw [heq] at hpri
      exact absurd hpri (search_found hfound).2.1
    · exact heq ▸ hp
  · exact hp

theorem dispatched_eq (hstep : Step s t) (h : dispatched s t = some q) :
    Dispatches s q ∧ (s.proc q).priority ≠ 0 ∧ t.proc = Function.update s.proc q
      { s.proc q with state := .running } := by
  cases hstep with
  | dispatch hphase hp hq =>
    simp only [dispatched, hphase] at h
    split at h
    · rename_i hlow
      cases h
      exact ⟨⟨_, hphase, hp, hq⟩, hlow, rfl⟩
    · cases h
  | acquire hphase | skip hphase _ _ | release hphase _ | back hphase _ => simp [dispatched, hphase] at h
  | other proc hfree =>
    simp only [dispatched] at h
    split at h
    · rename_i p q hp hq
      exact absurd hp (hfree p)
    · cases h
  | unlocked r state _ _ =>
    simp only [dispatched] at h
    split at h
    · rename_i p q hp hq
      cases hp.symm.trans hq
    · cases h

/-- The turn of a process that waits is still to come, before that of the process it waits for. -/
def InTurn (s : State) (g : Turns) : Prop :=
  ∀ q r, g.waits q r → r < nproc → r ≠ q →
    LowRunnable (s.proc r) ∧ q < nproc ∧ ∃ l < nproc, g.last = some l ∧
      (l + nproc - q) % nproc < (r + nproc - q) % nproc

theorem InTurn.not_due (h : InTurn s g) (hwaits : g.waits q r) (hr : r < nproc) (hne : r ≠ q) :
    ¬Due s.proc g.last q := by
  intro hdue
  obtain ⟨hlow, hq, l, hl, hlast, hturn⟩ := h q r hwaits hr hne
  have hle := hdue l hlast r hr hlow
  simp only [turn, nproc] at hle hturn hq hr hl
  omega

theorem InTurn.step (h : InTurn s g) (horderly : Orderly g.last s) (hstep : Step s t) :
    InTurn t (watchTurns s t g) := by
  intro q r hwaits hr hne
  simp only [watchTurns] at hwaits ⊢
  cases hd : dispatched s t with
  | none =>
    simp only [hd, reduceCtorEq, if_false] at hwaits
    obtain ⟨-, hq, l, hl, hlast, hturn⟩ := h q r hwaits.1 hr hne
    exact ⟨hwaits.2, hq, l, hl, by simpa using hlast, hturn⟩
  | some q' =>
    obtain ⟨hdispatch, hpri, hproc⟩ := dispatched_eq hstep hd
    obtain ⟨hq', -, hdue⟩ := horderly.due hdispatch hpri
    by_cases hqq : q' = q
    · subst hqq
      simp only [hd, if_true] at hwaits
      refine ⟨hwaits, hq', q', hq', rfl, ?_⟩
      simp only [nproc] at hr hq' ⊢
      omega
    · simp only [hd, Option.some.injEq, hqq, if_false] at hwaits
      obtain ⟨hold, hlow⟩ := hwaits
      obtain ⟨hlow', hq, l, hl, hlast, hturn⟩ := h q r hold hr hne
      refine ⟨hlow, hq, q', hq', rfl, ?_⟩
      -- the process that is dispatched is RUNNING, so it is not the one that waits
      have hother : r ≠ q' := by
        rintro rfl
        rw [hproc] at hlow
        simpa using hlow.2
      have hle := hdue l hlast r hr hlow'
      simp only [turn, nproc] at hle hturn hq hr hl hq' ⊢
      omega

/-- How far ahead of the cursor a slot lies, around the end of the table. -/
def ahead (p r : Nat) : Nat := if p ≤ r then r - p else nproc - p + r

/-- A bound on the slots that are skipped before slot `r` is examined with `loop` at 64 or more. Where
`loop` would wrap around before that, it has to come up again from the smallest `int`. -/
def patience (loop : Int) (p r : Nat) : Nat :=
  if loop < 64 then (64 - loop).toNat + 64
  else if loop + ahead p r < 2 ^ 31 then ahead p r
  else 2 ^ 33 + ahead p r

theorem quiet_next {proc : Nat → Proc} {l : Locals} (hp : p < nproc) :
    ∃ p' < nproc, ReflTransGen Quiet { locals := l, phase := .scan (p + 1), proc := proc }
      { locals := l, phase := .scan p', proc := proc } ∧
        ∀ r, r < nproc → r ≠ p → ahead p' r + 1 = ahead p r := by
  by_cases hlast : p + 1 = nproc
  · refine ⟨0, by decide, hlast ▸ quiet_wrap, fun r hr hne => ?_⟩
    simp only [ahead]
    split <;> split <;> omega
  · refine ⟨p + 1, by omega, .refl, fun r hr hne => ?_⟩
    simp only [ahead]
    split <;> split <;> omega

theorem patience_lt {loop : Int} {p p' r : Nat} (hrange : -(2 ^ 31) ≤ loop ∧ loop < 2 ^ 31)
    (hp' : p' < nproc) (hr : r < nproc) (h : loop < 64 ∨ ahead p' r + 1 = ahead p r) :
    patience (incr32 loop) p' r < patience loop p r := by
  have hahead : ahead p' r < nproc := by
    simp only [ahead]
    split <;> omega
  simp only [nproc] at hahead
  rw [incr32_eq hrange.1 hrange.2]
  unfold patience
  split_ifs <;> omega

/-- As long as some low-priority process could run and the table does not change, the scheduler comes to
dispatch a process. -/
theorem dispatches_next {proc : Nat → Proc} (hr : r < nproc) (hlow : LowRunnable (proc r)) (n : Nat)
    {l : Locals} (hp : p < nproc) (hrange : -(2 ^ 31) ≤ l.loop ∧ l.loop < 2 ^ 31)
    (hn : patience l.loop p r < n) :
    ∃ u q, ReflTransGen Quiet { locals := l, phase := .scan p, proc := proc } u ∧ Dispatches u q := by
  induction n generalizing l p with
  | zero => omega
  | succ n ih =>
    cases hchosen : (examine proc l p).chosen with
    | some q => exact ⟨_, q, .refl, p, rfl, hp, hchosen⟩
    | none =>
      obtain ⟨hslot, hlocals⟩ := examine_none hchosen
      obtain ⟨p', hp', hnext, hahead⟩ := quiet_next (l := { l with loop := incr32 l.loop }) hp
      have hless : l.loop < 64 ∨ ahead p' r + 1 = ahead p r := by
        by_cases hrp : r = p
        · subst hrp
          exact Or.inl (hslot.resolve_left fun h => h.1 hlow.2).2
        · exact Or.inr (hahead r hr hrp)
      have hfall := patience_lt hrange hp' hr hless
      obtain ⟨u, q, hquiet, hq⟩ := ih (l := { l with loop := incr32 l.loop }) hp' (incr32_range _) (by
        simp only
        omega)
      have hskip := Quiet.skip (s := ⟨l, .scan p, proc⟩) rfl hp hchosen
      simp only [hlocals] at hskip
      exact ⟨u, q, .head hskip (hnext.trans hquiet), hq⟩

/-- From every state the scheduler comes to examine a slot. -/
theorem Cursor.quiet (h : Cursor s) :
    ∃ p < nproc, ReflTransGen Quiet s { locals := s.locals, phase := .scan p, proc := s.proc } := by
  have hscan : ∀ p ≤ nproc, ∃ p' < nproc, ReflTransGen Quiet
      { locals := s.locals, phase := .scan p, proc := s.proc }
      { locals := s.locals, phase := .scan p', proc := s.proc } := by
    intro p hp
    by_cases hlast : p = nproc
    · exact ⟨0, by decide, hlast ▸ quiet_wrap⟩
    · exact ⟨p, by omega, .refl⟩
  cases hphase : s.phase with
  | top => exact ⟨0, by decide, .single (.acquire hphase)⟩
  | scan p =>
    obtain ⟨p', hp', hquiet⟩ := hscan p (h.bound p hphase)
    rw [← hphase] at hquiet
    exact ⟨p', hp', hquiet⟩
  | switched q =>
    obtain ⟨k, hk⟩ := Option.ne_none_iff_exists'.mp (h.switched q hphase).2
    obtain ⟨p', hp', hquiet⟩ := hscan (k + 1) (h.last k hk)
    exact ⟨p', hp', .head (.back hphase hk) hquiet⟩

theorem TurnReach.cursor {guard : Option Nat → State → Prop} (hs : TurnReach guard (s, g)) :
    Cursor s := by
  refine Reachable.invariant (P := fun x => Cursor x.1) ?_ ?_ hs
  · exact fun x hx => init_cursor hx.1
  · exact fun x y _ h hstep => h.step hstep.2.1

theorem TurnReach.inTurn (hs : TurnReach Orderly (s, g)) : InTurn s g := by
  refine Reachable.invariant (P := fun x => InTurn x.1 x.2) ?_ ?_ hs
  · rintro ⟨s, g⟩ ⟨-, rfl⟩ q r hwaits
    exact hwaits.elim
  · rintro x y - h ⟨horderly, hstep, hy⟩
    rw [hy]
    exact h.step horderly hstep

section Runs

variable {guard : Option Nat → State → Prop}

theorem TurnReach.next (hs : TurnReach guard (s, g)) (hguard : guard g.last s) (hstep : Step s t) :
    TurnReach guard (t, watchTurns s t g) :=
  Reachable.next hs ⟨hguard, hstep, rfl⟩

theorem Quiet.orderly (h : Quiet s t) : Orderly last s := by
  intro p hphase hp
  cases h with
  | acquire h | back h _ => exact nomatch h.symm.trans hphase
  | release h hnot =>
    cases h.symm.trans hphase
    exact absurd hp hnot
  | skip h _ hnone =>
    cases h.symm.trans hphase
    rcases (examine_none hnone).1 with ⟨hrun, hpri⟩ | ⟨hpri, hloop⟩
    · exact ⟨fun h => absurd hpri h, fun _ h => absurd h (by simp [hrun, hpri])⟩
    · exact ⟨fun _ h => by omega, fun h => by omega⟩

theorem Quiet.dispatched (h : Quiet s t) : dispatched s t = none := by
  cases h with
  | acquire h | skip h _ _ | back h _ | release h _ => simp [Rr2q.dispatched, h]

/-- The scheduler's own steps leave the turns as they are. -/
theorem TurnReach.quiet (hguard : ∀ last s t, Quiet s t → guard last s) (hs : TurnReach guard (s, g))
    (h : ReflTransGen Quiet s t) :
    ∃ g', TurnReach guard (t, g') ∧ g'.last = g.last ∧
      ∀ q r, g.waits q r → LowRunnable (s.proc r) → g'.waits q r := by
  induction h with
  | refl => exact ⟨g, hs, rfl, fun _ _ h _ => h⟩
  | tail hpast hquiet ih =>
    rename_i u v
    obtain ⟨g', hu, hlast, hwaits⟩ := ih
    refine ⟨watchTurns u v g', hu.next (hguard _ _ _ hquiet) hquiet.step, ?_, fun q r h hlow => ?_⟩
    · simp [watchTurns, hquiet.dispatched, hlast]
    · have hlow' : LowRunnable (v.proc r) := by rwa [hquiet.proc, quiet_proc hpast]
      simp [watchTurns, hquiet.dispatched, hwaits q r h hlow, hlow']

/-- A low-priority process is dispatched, runs, and yields: the table is as it was before. -/
theorem TurnReach.slice {proc : Nat → Proc} {l : Locals}
    (hguard : ∀ last s, (∀ p, s.phase ≠ .scan p) → guard last s)
    (hs : TurnReach guard (⟨l, .scan p, proc⟩, g)) (hdue : guard g.last ⟨l, .scan p, proc⟩) (hp : p < nproc)
    (hq : (examine proc l p).chosen = some q) (hlow : LowRunnable (proc q)) :
    ∃ g', TurnReach guard (⟨(examine proc l p).locals, .scan (p + 1), proc⟩, g') ∧ g'.last = some q ∧
      ∀ r, r ≠ q → LowRunnable (proc r) → g'.waits q r := by
  have hgone := hs.next hdue (Step.dispatch rfl hp hq)
  have hyield := hgone.next (hguard _ _ nofun) (Step.other proc nofun)
  have hback := hyield.next (hguard _ _ nofun) (Step.back rfl (examine_some hq).2)
  refine ⟨_, hback, ?_, fun r hr hrow => ?_⟩
  · simp [watchTurns, dispatched, hlow.1]
  · simp [watchTurns, dispatched, hlow.1, Function.update_of_ne hr, hrow]

/-- Where slot 0 is at rest and no high-priority process could run, slot 1 is examined with `loop` past
64 after the first pass. -/
theorem TurnReach.first {proc : Nat → Proc} (hguard : ∀ last s t, Quiet s t → guard last s)
    (hhigh : ∀ r < nproc, ¬HighRunnable (proc r))
    (hzero : (proc 0).state ≠ .runnable ∧ (proc 0).priority = 0) :
    ∃ g, TurnReach guard (⟨{ loop := 65 }, .scan 1, proc⟩, g) ∧ g.last = none := by
  have hnone : examine proc { loop := 64 } 0 = ⟨{ loop := 65 }, [], none⟩ := by
    rw [examine, if_pos hzero]
    rfl
  have hskip := Quiet.skip (s := ⟨{ loop := 64 }, .scan 0, proc⟩) rfl (by decide) (by rw [hnone])
  simp only [hnone] at hskip
  obtain ⟨g, hg, hlast, -⟩ := TurnReach.quiet hguard
    (.start (s := ({ proc := proc }, noTurns)) ⟨⟨rfl, rfl⟩, rfl⟩) ((first_pass hhigh).tail hskip)
  exact ⟨g, hg, hlast⟩

end Runs

/-- Two low-priority processes. -/
def twoTable : Nat → Proc
  | 0 => { state := .sleeping }
  | 1 | 2 => { state := .runnable, priority := 1 }
  | _ => {}

theorem twoTable_high (r : Nat) (_ : r < nproc) : ¬HighRunnable (twoTable r) := by
  rcases r with _ | _ | _ | r <;> first | decide | exact fun h => nomatch h.2

/-- A low-priority process that sleeps before one that could run. -/
def sleepTable : Nat → Proc
  | 0 => { state := .sleeping }
  | 1 => { state := .sleeping, priority := 1 }
  | 2 => { state := .runnable, priority := 1 }
  | _ => {}

theorem sleepTable_high (r : Nat) (_ : r < nproc) : ¬HighRunnable (sleepTable r) := by
  rcases r with _ | _ | _ | r <;> first | decide | exact fun h => nomatch h.2

/-- Three low-priority processes. -/
def threeTable : Nat → Proc
  | 0 => { state := .sleeping }
  | 1 | 2 | 3 => { state := .runnable, priority := 1 }
  | _ => {}

theorem threeTable_high (r : Nat) (_ : r < nproc) : ¬HighRunnable (threeTable r) := by
  rcases r with _ | _ | _ | _ | r <;> first | decide | exact fun h => nomatch h.2

end Xv6.Rr2q
