import Mathlib
import Xv6.LibRun
import Xv6.LibWord
import Xv6.ProcTable

/-! `scheduler()` compiled with `SCHEDFLAG=RR2Q`, on one cpu. Pointers into `ptable.proc` are slot
numbers; nothing in the code keeps `lowPriorityRunnable` below `&ptable.proc[NPROC]`, so memory is
a sequence of `struct proc`s that goes on behind the table. -/

namespace Xv6.Rr2q

open LibRun LibWord

/-- The locals that live across iterations. `lastHighPri` is not initialised. -/
structure Locals where
  loop : Int := 0
  lastHighPri : Option Nat := none
  lastLowPri : Option Nat := none
  deriving DecidableEq, Repr

/-- The condition of the low-priority search loop. -/
def LowRunnable (p : Proc) : Prop := p.priority ≠ 0 ∧ p.state = .runnable

instance (p : Proc) : Decidable (LowRunnable p) := inferInstanceAs (Decidable (_ ∧ _))

/-- The `while` loop over low-priority processes, entered with `loop == 128 - fuel`: where it stops,
and whether it stopped before `loop` reached 128. -/
def search (proc : Nat → Proc) : Nat → Nat → Nat × Bool
  | 0, q => (q, false)
  | fuel + 1, q => if LowRunnable (proc q) then (q, true) else search proc fuel (q + 1)

/-- The slots whose fields the loop reads. -/
def searched (proc : Nat → Proc) : Nat → Nat → List Nat
  | 0, _ => []
  | fuel + 1, q => q :: if LowRunnable (proc q) then [] else searched proc fuel (q + 1)

/-- What the body of the `for` loop does before the dispatch: the locals it leaves, the slots its
search loop reads, and the process it falls through with (`none` for `continue`). -/
structure Examined where
  locals : Locals
  looked : List Nat
  chosen : Option Nat

/-- One iteration of the `for` loop, up to the dispatch. -/
def examine (proc : Nat → Proc) (l : Locals) (p : Nat) : Examined :=
  if (proc p).state ≠ .runnable ∧ (proc p).priority = 0 then
    ⟨{ l with loop := incr32 l.loop }, [], none⟩
  else if (proc p).priority ≠ 0 ∧ l.loop < 64 then
    ⟨{ l with loop := incr32 l.loop }, [], none⟩
  else if l.loop = 64 then
    let start := l.lastLowPri.getD p
    let low := search proc 64 start
    ⟨{ loop := 0, lastHighPri := some p, lastLowPri := some low.1 }, searched proc 64 start,
      some (if low.2 then low.1 else p)⟩
  else
    ⟨{ l with loop := 0, lastHighPri := some p }, [], some p⟩

/-- Where the cpu is: before `acquire(&ptable.lock)`, about to examine a slot with the lock held,
or in the process it switched to. -/
inductive Phase where
  | top
  | scan (p : Nat)
  | switched (q : Nat)
  deriving DecidableEq, Repr

structure State where
  locals : Locals := {}
  phase : Phase := .top
  proc : Nat → Proc

/-- Boot: any table, the locals as `scheduler()` sets them. -/
def Init (s : State) : Prop := s.locals = {} ∧ s.phase = .top

/-- The steps of the cpu, and of the code that runs elsewhere. While the lock is free (before a pass,
and while the chosen process runs) the table may change in any way; during a scan only `fork` and
`allocproc` write without the lock, to a slot that is `EMBRYO`. -/
inductive Step : State → State → Prop
  | acquire {s : State} : s.phase = .top → Step s { s with phase := .scan 0 }
  | skip {s : State} {p : Nat} : s.phase = .scan p → p < nproc →
      (examine s.proc s.locals p).chosen = none →
      Step s { s with locals := (examine s.proc s.locals p).locals, phase := .scan (p + 1) }
  | dispatch {s : State} {p q : Nat} : s.phase = .scan p → p < nproc →
      (examine s.proc s.locals p).chosen = some q →
      Step s { locals := (examine s.proc s.locals p).locals, phase := .switched q,
               proc := Function.update s.proc q { s.proc q with state := .running } }
  | back {s : State} {q h : Nat} : s.phase = .switched q → s.locals.lastHighPri = some h →
      Step s { s with phase := .scan (h + 1) }
  | release {s : State} {p : Nat} : s.phase = .scan p → ¬p < nproc →
      Step s { s with phase := .top }
  | other {s : State} (proc : Nat → Proc) : (∀ p, s.phase ≠ .scan p) →
      Step s { s with proc := proc }
  | unlocked {s : State} (q : Nat) (state : ProcState) : (s.proc q).state = .embryo →
      state = .runnable ∨ state = .unused →
      Step s { s with proc := Function.update s.proc q { s.proc q with state := state } }

/-- Dispatch safety in one state: if the cpu is about to examine a slot, the search loop stays in
the table, and the process the examination switches to is a `RUNNABLE` one of the table. -/
def Safe (s : State) : Prop :=
  ∀ p, s.phase = .scan p → p < nproc →
    (∀ q ∈ (examine s.proc s.locals p).looked, q < nproc) ∧
    (∀ q, (examine s.proc s.locals p).chosen = some q →
      q < nproc ∧ (s.proc q).state = .runnable)

/-- The condition on a state in which a slot is examined. With `loop` past 64 a low-priority slot is
taken unseen, so it has to be `RUNNABLE`; with `loop` at 64 the search runs from `lastLowPri` (or the
slot itself) upwards without wrapping around, so a `RUNNABLE` low-priority process has to lie between
there and the end of the table (a search of the whole table may also fail at a high-priority slot). -/
def Guarded (s : State) : Prop :=
  ∀ p, s.phase = .scan p → p < nproc →
    ((s.proc p).state = .runnable ∨ (s.proc p).priority = 0 ∨ s.locals.loop ≤ 64) ∧
    (s.locals.loop = 64 → (s.proc p).state = .runnable ∨ (s.proc p).priority ≠ 0 →
      (∃ q, s.locals.lastLowPri.getD p ≤ q ∧ q < nproc ∧ LowRunnable (s.proc q)) ∨
      (s.locals.lastLowPri.getD p = 0 ∧ (s.proc p).priority = 0))

theorem search_found {proc : Nat → Proc} {fuel start : Nat} (h : (search proc fuel start).2 = true) :
    start ≤ (search proc fuel start).1 ∧ LowRunnable (proc (search proc fuel start).1) := by
  induction fuel generalizing start with
  | zero => simp [search] at h
  | succ fuel ih =>
    rw [search] at h ⊢
    by_cases hq : LowRunnable (proc start)
    · rw [if_pos hq]
      exact ⟨le_rfl, hq⟩
    · rw [if_neg hq] at h ⊢
      have hrest := ih h
      exact ⟨by omega, hrest.2⟩

/-- A process that is switched to is `RUNNABLE` or has low priority. -/
theorem examine_chosen {proc : Nat → Proc} {l : Locals} {p q : Nat}
    (h : (examine proc l p).chosen = some q) : (proc q).state = .runnable ∨ (proc q).priority ≠ 0 := by
  unfold examine at h
  split at h
  · cases h
  · rename_i hskip
    have hp : (proc p).state = .runnable ∨ (proc p).priority ≠ 0 := by
      by_contra hno
      push Not at hno
      exact hskip hno
    split at h
    · cases h
    · split at h
      · dsimp only at h
        cases h
        split
        · rename_i hfound
          exact Or.inl (search_found hfound).2.2
        · exact hp
      · cases h
        exact hp

/-- A low-priority `RUNNABLE` slot within reach stops the search at or before it. -/
theorem search_of_mem {proc : Nat → Proc} (fuel : Nat) {start q : Nat} (hle : start ≤ q)
    (hq : q < start + fuel) (hlow : LowRunnable (proc q)) :
    (search proc fuel start).2 = true ∧ (search proc fuel start).1 ≤ q ∧
      ∀ x ∈ searched proc fuel start, x ≤ q := by
  induction fuel generalizing start with
  | zero => omega
  | succ fuel ih =>
    rw [search, searched]
    by_cases hs : LowRunnable (proc start)
    · simp only [if_pos hs]
      refine ⟨trivial, hle, fun x hx => ?_⟩
      rw [List.mem_singleton] at hx
      omega
    · simp only [if_neg hs]
      have hne : start ≠ q := by
        rintro rfl
        exact hs hlow
      obtain ⟨hfound, hstop, hlooked⟩ := ih (show start + 1 ≤ q by omega) (by omega)
      refine ⟨hfound, hstop, fun x hx => ?_⟩
      rcases List.mem_cons.mp hx with rfl | hx
      · exact hle
      · exact hlooked x hx

/-- Without such a slot below `bound`, the search reads every slot up to `bound`, if its fuel
lasts. -/
theorem mem_searched {proc : Nat → Proc} {fuel start bound : Nat} (hle : start ≤ bound)
    (hfuel : bound < start + fuel)
    (hnone : ∀ q, start ≤ q → q < bound → ¬LowRunnable (proc q)) :
    bound ∈ searched proc fuel start := by
  induction fuel generalizing start with
  | zero => omega
  | succ fuel ih =>
    rw [searched]
    by_cases heq : start = bound
    · subst heq
      exact List.mem_cons_self
    · rw [if_neg (hnone start le_rfl (by omega))]
      refine List.mem_cons_of_mem _ (ih (by omega) (by omega) ?_)
      exact fun q hq hlt => hnone q (by omega) hlt

theorem start_mem_searched (proc : Nat → Proc) (fuel start : Nat) :
    start ∈ searched proc (fuel + 1) start := by
  rw [searched]
  exact List.mem_cons_self

theorem lt_of_mem_searched {proc : Nat → Proc} {fuel start q : Nat}
    (h : q ∈ searched proc fuel start) : q < start + fuel := by
  induction fuel generalizing start with
  | zero => simp [searched] at h
  | succ fuel ih =>
    rw [searched] at h
    rcases List.mem_cons.mp h with rfl | h
    · omega
    · split at h
      · simp at h
      · have := ih h
        omega

theorem search_mem_searched {proc : Nat → Proc} {fuel start : Nat}
    (h : (search proc fuel start).2 = true) :
    (search proc fuel start).1 ∈ searched proc fuel start := by
  induction fuel generalizing start with
  | zero => simp [search] at h
  | succ fuel ih =>
    rw [search] at h ⊢
    rw [searched]
    by_cases hs : LowRunnable (proc start)
    · simp only [if_pos hs, List.mem_singleton]
    · rw [if_neg hs] at h
      simp only [if_neg hs]
      exact List.mem_cons_of_mem _ (ih h)

/-- The search from `start` is safe exactly when it has something to find in the table, or covers the
table from slot 0 while the slot at hand is `RUNNABLE` itself. -/
theorem search_safe_iff {proc : Nat → Proc} {start p : Nat} (hp : p < nproc)
    (hskip : (proc p).state = .runnable ∨ (proc p).priority ≠ 0) :
    ((∀ q ∈ searched proc 64 start, q < nproc) ∧
      (let q := if (search proc 64 start).2 then (search proc 64 start).1 else p
       q < nproc ∧ (proc q).state = .runnable)) ↔
    ((∃ q, start ≤ q ∧ q < nproc ∧ LowRunnable (proc q)) ∨
      (start = 0 ∧ (proc p).priority = 0)) := by
  have hnproc : nproc = 64 := rfl
  constructor
  · rintro ⟨hlooked, hlt, hrun⟩
    by_cases hex : ∃ q, start ≤ q ∧ q < nproc ∧ LowRunnable (proc q)
    · exact Or.inl hex
    · have hnone : ∀ q, start ≤ q → q < nproc → ¬LowRunnable (proc q) :=
        fun q hle hq hlow => hex ⟨q, hle, hq, hlow⟩
      have hstart : start = 0 := by
        by_contra hne
        have hstart := hlooked start (start_mem_searched proc 63 start)
        have hend := hlooked nproc (mem_searched hstart.le (by omega) hnone)
        exact lt_irrefl _ hend
      refine Or.inr ⟨hstart, ?_⟩
      by_contra hpri
      -- the search failed, so the slot at hand is dispatched; it would have been found
      have hfail : (search proc 64 start).2 = false := by
        by_contra hfound
        rw [Bool.not_eq_false] at hfound
        rw [if_pos hfound] at hlt
        exact hnone _ (search_found hfound).1 hlt (search_found hfound).2
      rw [hfail] at hrun
      exact hnone p (by omega) hp ⟨hpri, hrun⟩
  · intro h
    by_cases hfound : (search proc 64 start).2 = true
    · have hlow := (search_found hfound).2
      rcases h with ⟨q, hle, hq, hq'⟩ | ⟨rfl, _⟩
      · obtain ⟨_, hstop, hlooked⟩ := search_of_mem 64 hle (by omega) hq'
        refine ⟨fun x hx => (hlooked x hx).trans_lt hq, ?_⟩
        rw [if_pos hfound]
        exact ⟨hstop.trans_lt hq, hlow.2⟩
      · have hlooked : ∀ x ∈ searched proc 64 0, x < nproc := fun x hx => by
          have := lt_of_mem_searched hx
          omega
        refine ⟨hlooked, ?_⟩
        rw [if_pos hfound]
        exact ⟨hlooked _ (search_mem_searched hfound), hlow.2⟩
    · rw [if_neg hfound]
      rcases h with ⟨q, hle, hq, hq'⟩ | ⟨rfl, hpri⟩
      · exact absurd (search_of_mem 64 hle (by omega) hq').1 hfound
      · refine ⟨fun x hx => ?_, hp, hskip.resolve_right (fun h => h hpri)⟩
        have := lt_of_mem_searched hx
        omega

/-- In any state, the examination is safe exactly when it is guarded. -/
theorem safe_iff_guarded (s : State) : Safe s ↔ Guarded s := by
  refine forall_congr' fun p => forall_congr' fun _ => forall_congr' fun hp => ?_
  rw [examine]
  by_cases h1 : (s.proc p).state ≠ .runnable ∧ (s.proc p).priority = 0
  · simp [h1.1, h1.2]
  · have hskip : (s.proc p).state = .runnable ∨ (s.proc p).priority ≠ 0 := by
      by_contra hno
      push Not at hno
      exact h1 hno
    by_cases h2 : (s.proc p).priority ≠ 0 ∧ s.locals.loop < 64
    · have hne : s.locals.loop ≠ 64 := by omega
      simp [h2.1, h2.2, h2.2.le, hne]
    · by_cases h3 : s.locals.loop = 64
      · rw [if_neg h1, if_neg h2, if_pos h3]
        simp only [Option.some.injEq, forall_eq', h3, le_refl, or_true, true_and, forall_const, hskip]
        exact search_safe_iff hp hskip
      · rw [if_neg h1, if_neg h2, if_neg h3]
        simp only [List.not_mem_nil, false_implies, implies_true, true_and, Option.some.injEq,
          forall_eq', h3, and_true]
        constructor
        · exact fun h => Or.inl h.2
        · rintro (h | h | h)
          · exact ⟨hp, h⟩
          · exact ⟨hp, hskip.resolve_right (fun hne => hne h)⟩
          · refine ⟨hp, hskip.resolve_right (fun hne => h2 ⟨hne, ?_⟩)⟩
            omega

/-- The process the cpu runs is an element of the table. -/
def InTable (s : State) : Prop := ∀ q, s.phase = .switched q → q < nproc

theorem inTable_step {s t : State} (hsafe : Safe s) (hs : InTable s) (hst : Step s t) :
    InTable t := by
  cases hst with
  | dispatch hphase hp hq =>
    rintro r ⟨rfl⟩
    exact ((hsafe _ hphase hp).2 _ hq).1
  | acquire _ | skip _ _ _ | back _ _ | release _ _ => exact fun _ h => nomatch h
  | other _ _ => exact hs
  | unlocked _ _ _ => exact hs

/-- RR2Q dispatch safety, exactly: along every run of `scheduler()`, with any changes other code makes
to the table, all examinations are safe and all processes switched to lie in the table if and only if
every examination is made in a guarded state. -/
theorem dispatch_safe_iff_guarded (states : List State) (h : Trace Init Step states) :
    (∀ s ∈ states, Safe s ∧ InTable s) ↔ ∀ s ∈ states, Guarded s := by
  constructor
  · exact fun hsafe s hs => (safe_iff_guarded s).mp (hsafe s hs).1
  · intro hguard
    have hsafe : ∀ s ∈ states, Safe s := fun s hs => (safe_iff_guarded s).mpr (hguard s hs)
    refine fun s hs => ⟨hsafe s hs, ?_⟩
    clear hguard
    induction h generalizing s with
    | start hinit =>
      rw [List.mem_singleton] at hs
      subst hs
      rw [InTable, hinit.2]
      exact fun _ h => nomatch h
    | next hpast hst ih =>
      have ih := ih (fun s hs => hsafe s (List.mem_cons_of_mem _ hs))
      rcases List.mem_cons.mp hs with rfl | hs
      · exact inTable_step (hsafe _ (by simp)) (ih _ List.mem_cons_self) hst
      · exact ih s hs

/-- The table after `userinit`, and the run that dispatches the first process. -/
def bootTable : Nat → Proc
  | 0 => { state := .runnable }
  | _ => {}

def bootRun : List State :=
  [{ locals := { lastHighPri := some 0 }, phase := .switched 0,
     proc := Function.update bootTable 0 { state := .running } },
   { phase := .scan 0, proc := bootTable }, { proc := bootTable }]

theorem bootRun_trace : Trace Init Step bootRun :=
  .next (.next (.start ⟨rfl, rfl⟩) (.acquire rfl)) (.dispatch (p := 0) rfl (by decide) rfl)

theorem bootRun_safe : Trace Init Step bootRun ∧ ∀ s ∈ bootRun, Safe s ∧ InTable s := by
  refine ⟨bootRun_trace, (dispatch_safe_iff_guarded bootRun bootRun_trace).mpr ?_⟩
  intro s hs p hphase hp
  simp only [bootRun, List.mem_cons, List.not_mem_nil, or_false] at hs
  rcases hs with rfl | rfl | rfl
  · exact nomatch hphase
  · obtain rfl : 0 = p := by simpa using hphase
    exact ⟨Or.inl rfl, fun hloop => absurd hloop (by decide)⟩
  · exact nomatch hphase

/-- A machine at rest: `init` sleeps in slot 0, a process that called `nice` sleeps in slot 1. -/
def restTable : Nat → Proc
  | 0 => { state := .sleeping }
  | 1 => { state := .sleeping, priority := 1 }
  | _ => {}

theorem restTable_idle : ∀ {n : Nat}, n ≠ 1 →
    (restTable n).state ≠ .runnable ∧ (restTable n).priority = 0
  | 0, _ => by decide
  | 1, h => absurd rfl h
  | _ + 2, _ => ⟨nofun, rfl⟩

theorem examine_restTable {n : Nat} (hn : n < 64) :
    examine restTable { loop := n } n = ⟨{ loop := (n + 1 : Nat) }, [], none⟩ := by
  have hincr : incr32 n = (n + 1 : Nat) := incr32_of_lt (by omega) (by omega)
  rw [examine, hincr]
  by_cases h1 : n = 1
  · subst h1
    have hlow : (restTable 1).priority ≠ 0 := by decide
    rw [if_neg (fun h => hlow h.2), if_pos ⟨hlow, by decide⟩]
  · rw [if_pos (restTable_idle h1)]

theorem restTable_pass (n : Nat) (hn : n ≤ 64) :
    Reachable Init Step { locals := { loop := n }, phase := .scan n, proc := restTable } := by
  induction n with
  | zero => exact .next (.start (s := { proc := restTable }) ⟨rfl, rfl⟩) (.acquire rfl)
  | succ n ih =>
    have hexam := examine_restTable (n := n) (by omega)
    have hstep := Step.skip (s := { locals := { loop := n }, phase := .scan n, proc := restTable })
      rfl hn (by rw [hexam])
    rw [hexam] at hstep
    exact .next (ih (by omega)) hstep

/-- After one idle pass the counter stands at 64, `init`'s slot takes it to 65, and the sleeping
low-priority process is switched to. -/
theorem dispatch_not_safe : ¬∀ s, Reachable Init Step s → Safe s := by
  intro hsafe
  have hpass := restTable_pass 64 le_rfl
  have htop := Reachable.next hpass (.release rfl (by decide))
  have hzero := Reachable.next htop (.acquire rfl)
  have hone := Reachable.next hzero (.skip rfl (by decide) rfl)
  have hstate := ((hsafe _ hone 1 rfl (by decide)).2 1 (by decide)).2
  exact absurd hstate (by decide)

end Xv6.Rr2q
