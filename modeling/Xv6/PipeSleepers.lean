import Xv6.PipeRuns

/-! Sleepers on a pipe. A writer that has stored bytes owes the sleeping readers a wakeup, and a reader that
has taken bytes owes one to the sleeping writers; both pay before they give the lock away, except for a
writer that finds the pipe full and itself killed. -/

namespace Xv6.Pipes

open LibWord LibSleep Function

variable {Proc : Type} {s : State Proc} {events : List (Event Proc)} {p q : Proc}

def Writing (s : State Proc) : Prop := ∃ p addr n i, s.lock = some p ∧ s.task p = .write addr n i

def Copying (s : State Proc) : Prop := ∃ p n dst, s.lock = some p ∧ s.task p = .copy n dst

def ReadersWait (s : State Proc) : Prop :=
  ∀ q, s.asleep q = some .nread → s.pipe.nread = s.pipe.nwrite ∧ s.pipe.writeopen = true

def WritersWait (s : State Proc) : Prop :=
  ∀ q, s.asleep q = some .nwrite → s.pipe.Full ∧ s.pipe.readopen = true

/-- Nobody sleeps in vain, but for the sleepers that the process in its critical section will wake. -/
structure Awake (s : State Proc) : Prop where
  readers : ¬ Writing s → ReadersWait s
  writers : ¬ Copying s → WritersWait s

/-- A writer that gives up because it is killed leaves no reader asleep. -/
def KilledAlone (s : State Proc) : Act Proc → Prop
  | .run p => ∀ addr n i, s.task p = .write addr n i → (i : Int) < n → s.pipe.Full → s.killed p = true →
      ∀ q, s.asleep q ≠ some .nread
  | _ => True

theorem not_writing (hlock : s.lock = some p) (htask : ∀ addr n i, s.task p ≠ .write addr n i) : ¬ Writing s := by
  rintro ⟨q, addr, n, i, hq, hwrite⟩
  rw [← Option.some.inj (hlock.symm.trans hq)] at hwrite
  exact htask addr n i hwrite

theorem not_copying (hlock : s.lock = some p) (htask : ∀ n dst, s.task p ≠ .copy n dst) : ¬ Copying s := by
  rintro ⟨q, n, dst, hq, hcopy⟩
  rw [← Option.some.inj (hlock.symm.trans hq)] at hcopy
  exact htask n dst hcopy

theorem ReadersWait.wakeup (h : ReadersWait s) (c : Chan) : ReadersWait (s.wakeup c) :=
  fun q hq => h q (wakeup_eq_some.mp hq).1

theorem WritersWait.wakeup (h : WritersWait s) (c : Chan) : WritersWait (s.wakeup c) :=
  fun q hq => h q (wakeup_eq_some.mp hq).1

theorem Awake.of_both (hreaders : ReadersWait s) (hwriters : WritersWait s) : Awake s :=
  ⟨fun _ => hreaders, fun _ => hwriters⟩

theorem readersWait_wakeup (s : State Proc) : ReadersWait (s.wakeup .nread) :=
  fun q hq => absurd hq (wakeup_ne _ _ q)

theorem writersWait_wakeup (s : State Proc) : WritersWait (s.wakeup .nwrite) :=
  fun q hq => absurd hq (wakeup_ne _ _ q)

theorem Awake.waits (h : Awake s) (hfree : s.lock = none) : ReadersWait s ∧ WritersWait s := by
  constructor
  · refine h.readers fun hwriting => ?_
    obtain ⟨q, -, -, -, hq, -⟩ := hwriting
    exact absurd (hfree.symm.trans hq).symm (Option.some_ne_none q)
  · refine h.writers fun hcopying => ?_
    obtain ⟨q, -, -, hq, -⟩ := hcopying
    exact absurd (hfree.symm.trans hq).symm (Option.some_ne_none q)

section Steps

variable [DecidableEq Proc]

theorem ReadersWait.sleep (h : ReadersWait s)
    (hempty : s.pipe.nread = s.pipe.nwrite ∧ s.pipe.writeopen = true) : ReadersWait (s.sleep p .nread) := by
  intro q hq
  rcases update_eq_some.mp hq with - | ⟨-, hq⟩
  · exact hempty
  · exact h q hq

theorem WritersWait.sleep (h : WritersWait s) (hfull : s.pipe.Full ∧ s.pipe.readopen = true) :
    WritersWait (s.sleep p .nwrite) := by
  intro q hq
  rcases update_eq_some.mp hq with - | ⟨-, hq⟩
  · exact hfull
  · exact h q hq

theorem readersWait_sleep_nwrite (h : ReadersWait s) : ReadersWait (s.sleep p .nwrite) := by
  intro q hq
  rcases update_eq_some.mp hq with ⟨-, hc⟩ | ⟨-, hq⟩
  · exact absurd hc Chan.noConfusion
  · exact h q hq

theorem writersWait_sleep_nread (h : WritersWait s) : WritersWait (s.sleep p .nread) := by
  intro q hq
  rcases update_eq_some.mp hq with ⟨-, hc⟩ | ⟨-, hq⟩
  · exact absurd hc Chan.noConfusion
  · exact h q hq

theorem Awake.pipewrite {addr : Nat → UInt8} {n : Int} {i : Nat} (h : Awake s) (hinv : Inv s events)
    (hlock : s.lock = some p) (htask : s.task p = .write addr n i) (hguard : KilledAlone s (.run p)) :
    Awake (pipewrite p addr n i s).1 := by
  have hwriters : WritersWait s := h.writers (not_copying hlock fun n' dst heq =>
    absurd (htask.symm.trans heq) Task.noConfusion)
  unfold Pipes.pipewrite
  by_cases hlt : (i : Int) < n
  · rw [if_pos hlt]
    by_cases hfull : s.pipe.Full
    · rw [if_pos hfull]
      by_cases hdead : s.pipe.readopen = false ∨ s.killed p = true
      · rw [if_pos hdead]
        refine .of_both (fun q hq => ?_) hwriters
        rcases hdead with hclosed | hkilled
        · -- No reader is in a call once the read end is closed.
          obtain ⟨n', hwait⟩ := hinv.readers q hq
          have hside := hinv.used false (hinv.readopen hclosed) q
          rw [hwait] at hside
          exact absurd rfl hside
        · exact absurd hq (hguard addr n i htask hlt hfull hkilled q)
      · rw [if_neg hdead]
        have hopen : s.pipe.readopen = true := by
          by_contra hclosed
          exact hdead (.inl (Bool.eq_false_of_not_eq_true hclosed))
        exact .of_both (readersWait_sleep_nwrite (readersWait_wakeup s))
          ((hwriters.wakeup .nread).sleep ⟨hfull, hopen⟩)
    · rw [if_neg hfull]
      refine ⟨fun hnot => absurd ⟨p, addr, n, i + 1, hlock, update_self _ _ _⟩ hnot,
        fun _ q hq => absurd (hwriters q hq).1 hfull⟩
  · rw [if_neg hlt]
    exact .of_both (readersWait_wakeup s) (hwriters.wakeup .nread)

theorem Awake.pipereadWait {n : Int} (h : Awake s) (hlock : s.lock = some p) (htask : s.task p = .wait n) :
    Awake (pipereadWait p n s).1 := by
  have hreaders : ReadersWait s := h.readers (not_writing hlock fun addr n' i heq =>
    absurd (htask.symm.trans heq) Task.noConfusion)
  have hwriters : WritersWait s := h.writers (not_copying hlock fun n' dst heq =>
    absurd (htask.symm.trans heq) Task.noConfusion)
  unfold Pipes.pipereadWait
  by_cases hempty : s.pipe.nread = s.pipe.nwrite ∧ s.pipe.writeopen = true
  · rw [if_pos hempty]
    by_cases hkilled : s.killed p = true
    · rw [if_pos hkilled]
      exact .of_both hreaders hwriters
    · rw [if_neg hkilled]
      exact .of_both (hreaders.sleep hempty) (writersWait_sleep_nread hwriters)
  · rw [if_neg hempty]
    exact .of_both hreaders hwriters

theorem Awake.pipereadCopy {n : Int} {dst : List UInt8} (h : Awake s) (hlock : s.lock = some p)
    (htask : s.task p = .copy n dst) : Awake (pipereadCopy p n dst s).1 := by
  have hreaders : ReadersWait s := h.readers (not_writing hlock fun addr n' i heq =>
    absurd (htask.symm.trans heq) Task.noConfusion)
  unfold Pipes.pipereadCopy
  by_cases hmore : (dst.length : Int) < n ∧ s.pipe.nread ≠ s.pipe.nwrite
  · rw [if_pos hmore]
    exact ⟨fun _ q hq => absurd (hreaders q hq).1 hmore.2,
      fun hnot => absurd ⟨p, n, _, hlock, update_self _ _ _⟩ hnot⟩
  · rw [if_neg hmore]
    exact .of_both (hreaders.wakeup .nwrite) (writersWait_wakeup s)

theorem Awake.pipeclose {writable : Bool} (h : Awake s) (hlock : s.lock = some p)
    (htask : s.task p = .close writable) : Awake (pipeclose p writable s).1 := by
  have hreaders : ReadersWait s := h.readers (not_writing hlock fun addr n' i heq =>
    absurd (htask.symm.trans heq) Task.noConfusion)
  have hwriters : WritersWait s := h.writers (not_copying hlock fun n' dst heq =>
    absurd (htask.symm.trans heq) Task.noConfusion)
  cases writable with
  | false =>
    exact .of_both (fun q hq => hreaders q (wakeup_eq_some.mp hq).1)
      fun q hq => absurd hq (wakeup_ne _ _ q)
  | true =>
    exact .of_both (fun q hq => absurd hq (wakeup_ne _ _ q))
      fun q hq => hwriters q (wakeup_eq_some.mp hq).1

theorem begin_task_of_ne {c : Call} (hqp : q ≠ p) : (begin p s c).task q = s.task q := by
  cases c <;> exact update_of_ne hqp _ _

theorem begin_eq (p : Proc) (s : State Proc) (c : Call) :
    (begin p s c).pipe = s.pipe ∧ (begin p s c).lock = s.lock ∧ (begin p s c).asleep = s.asleep := by
  cases c <;> exact ⟨rfl, rfl, rfl⟩

theorem Awake.begin {c : Call} (h : Awake s) (hinv : Inv s events) (hidle : s.task p = .idle) :
    Awake (begin p s c) := by
  obtain ⟨hpipe, hlock, hasleep⟩ := begin_eq p s c
  have htask : ∀ q, s.lock = some q → (Pipes.begin p s c).task q = s.task q := by
    intro q hq
    refine begin_task_of_ne fun hqp => ?_
    rw [hqp] at hq
    exact (hinv.idle hidle).1 hq
  constructor
  · intro hnot
    unfold ReadersWait
    rw [hpipe, hasleep]
    refine h.readers fun hwriting => hnot ?_
    obtain ⟨q, addr, n, i, hq, hwrite⟩ := hwriting
    exact ⟨q, addr, n, i, hlock.trans hq, (htask q hq).trans hwrite⟩
  · intro hnot
    unfold WritersWait
    rw [hpipe, hasleep]
    refine h.writers fun hcopying => hnot ?_
    obtain ⟨q, n, dst, hq, hcopy⟩ := hcopying
    exact ⟨q, n, dst, hlock.trans hq, (htask q hq).trans hcopy⟩

theorem Awake.kill (h : Awake s) (p : Proc) :
    Awake { s with killed := update s.killed p true, asleep := update s.asleep p none } :=
  ⟨fun hnot q hq => h.readers hnot q (update_none_eq_some.mp hq).2,
    fun hnot q hq => h.writers hnot q (update_none_eq_some.mp hq).2⟩

theorem Awake.step {a : Act Proc} {y : State Proc × List (Event Proc)} (h : Awake s) (hinv : Inv s events)
    (hguard : KilledAlone s a) (hstep : step s a = some y) : Awake y.1 := by
  rcases step_eq_some hstep with ⟨p, c, rfl, hidle, rfl⟩ | ⟨p, rfl, -, hfree, -, rfl⟩ |
    ⟨p, rfl, hrun⟩ | ⟨p, rfl, rfl⟩
  · exact h.begin hinv hidle
  · obtain ⟨hreaders, hwriters⟩ := h.waits hfree
    exact .of_both hreaders hwriters
  · obtain ⟨hlock, hcases⟩ := run_eq_some hrun
    rcases hcases with ⟨addr, n, i, htask, rfl⟩ | ⟨n, htask, rfl⟩ | ⟨n, dst, htask, rfl⟩ |
      ⟨writable, htask, rfl⟩
    · exact h.pipewrite hinv hlock htask hguard
    · exact h.pipereadWait hlock htask
    · exact h.pipereadCopy hlock htask
    · exact h.pipeclose hlock htask
  · exact h.kill p

theorem Reaches.awake {x : State Proc × List (Event Proc)} (h : Reaches KilledAlone x) : Awake x.1 := by
  have hboth : Inv x.1 x.2 ∧ Awake x.1 := by
    refine LibRun.Reachable.invariant (P := fun x => Inv x.1 x.2 ∧ Awake x.1) ?_ ?_ h
    · rintro x ⟨hopened, hnil⟩
      rw [hnil]
      have hnone : ∀ q c, x.1.asleep q ≠ some c := by
        intro q c hq
        rw [hopened.asleep q] at hq
        exact absurd hq.symm (Option.some_ne_none c)
      exact ⟨hopened.inv, .of_both (fun q hq => absurd hq (hnone q _)) fun q hq => absurd hq (hnone q _)⟩
    · rintro x y - ⟨hinv, hawake⟩ ⟨a, t, new, hallowed, hguard, hstep, rfl⟩
      have hawake' : Awake t := hawake.step hinv hguard hstep
      exact ⟨hinv.step hallowed hstep, hawake'⟩
  exact hboth.2

/-- If no writer gives up, being killed, while a reader sleeps, then nobody sleeps in vain when the lock is
free. -/
theorem pipe_sleepers (h : Reaches KilledAlone (s, events)) (hfree : s.lock = none) :
    ReadersWait s ∧ WritersWait s := h.awake.waits hfree

end Steps

/-! A reader `false` and a writer `true`. -/

/-- Nobody that is killed goes on. -/
def alive (s : State Bool) : Act Bool → Bool
  | .run p => !s.killed p
  | _ => true

def noKill (s : State Bool) (a : Act Bool) : Bool := openEnds s a && alive s a

theorem noKill_ok (s : State Bool) (a : Act Bool) (h : noKill s a = true) : Allowed s a ∧ KilledAlone s a := by
  obtain ⟨hopen, halive⟩ := Bool.and_eq_true_iff.mp h
  refine ⟨openEnds_allowed s a hopen, ?_⟩
  cases a with
  | run p =>
    intro addr n i _ _ _ hkilled
    rw [alive, hkilled] at halive
    exact absurd halive Bool.noConfusion
  | _ => trivial

/-- The reader of an empty pipe sleeps, while the writer begins. -/
theorem sleeping_reader : ∃ (s : State Bool) (events : List (Event Bool)), Reaches KilledAlone (s, events) ∧ s.asleep false = some .nread ∧
    s.lock = none ∧ ReadersWait s ∧ WritersWait s := by
  have hrun : (play noKill (opened, []) [.call false (.read 5), .acquire false, .run false,
      .call true (.write (fun _ => 0) 2)]).map
        (fun x => decide (x.1.asleep false = some .nread ∧ x.1.lock = none)) = some true := by
    decide +kernel
  obtain ⟨x, hplay, hstate⟩ := Option.map_eq_some_iff.mp hrun
  obtain ⟨hasleep, hfree⟩ := of_decide_eq_true hstate
  have hreach : Reaches KilledAlone x :=
    Reaches.play noKill_ok (.start ⟨opened_opened, rfl⟩) hplay
  exact ⟨x.1, x.2, hreach, hasleep, hfree, pipe_sleepers hreach hfree⟩

/-- The writer has stored `k` bytes over the head of a sleeping reader, and is killed. -/
structure Filling (k : Nat) (s : State Bool) : Prop where
  nread : s.pipe.nread = 0
  nwrite : s.pipe.nwrite = k
  lock : s.lock = some true
  task : s.task true = .write (fun _ => 0) 513 k
  asleep : s.asleep false = some .nread
  killed : s.killed true = true

theorem filling_zero : ∃ x, Reaches (fun _ _ => True) x ∧ Filling 0 x.1 := by
  have hrun : (play openEnds (opened, []) [.call false (.read 5), .acquire false, .run false,
      .call true (.write (fun _ => 0) 513), .kill true, .acquire true]).map
        (fun x => decide (x.1.pipe.nread = 0 ∧ x.1.pipe.nwrite = 0 ∧ x.1.lock = some true ∧
          x.1.asleep false = some .nread ∧ x.1.killed true = true)) = some true := by
    decide +kernel
  obtain ⟨x, hplay, hstate⟩ := Option.map_eq_some_iff.mp hrun
  obtain ⟨hnread, hnwrite, hlock, hasleep, hkilled⟩ := of_decide_eq_true hstate
  have htask : x.1.task true = .write (fun _ => 0) 513 0 := by
    rw [← Option.some.inj hplay]
    rfl
  exact ⟨x, Reaches.play (fun s a hok => ⟨openEnds_allowed s a hok, trivial⟩)
    (.start ⟨opened_opened, rfl⟩) hplay, hnread, hnwrite, hlock, htask, hasleep, hkilled⟩

theorem Filling.store {k : Nat} {s : State Bool} (h : Filling k s) (hk : k < 512) :
    ∃ y, step s (.run true) = some y ∧ Filling (k + 1) y.1 := by
  have hfull : ¬ s.pipe.Full := by
    unfold Pipe.Full
    rw [h.nread, h.nwrite]
    simp only [PIPESIZE, uintSize]
    omega
  refine ⟨(pipewrite true (fun _ => 0) 513 k s), ?_, ?_⟩
  · show run true s = _
    rw [run, if_pos h.lock, h.task]
  · rw [pipewrite, if_pos (by omega), if_neg hfull]
    refine ⟨h.nread, ?_, h.lock, update_self true _ s.task, h.asleep, h.killed⟩
    show (s.pipe.nwrite + 1) % uintSize = k + 1
    rw [h.nwrite]
    simp only [uintSize]
    omega

theorem exists_filling {k : Nat} (hk : k ≤ 512) : ∃ x, Reaches (fun _ _ => True) x ∧ Filling k x.1 := by
  induction k with
  | zero => exact filling_zero
  | succ k ih =>
    obtain ⟨x, hreach, hfilling⟩ := ih (by omega)
    obtain ⟨y, hstep, hnext⟩ := hfilling.store (by omega)
    exact ⟨(y.1, x.2 ++ y.2), .next hreach ⟨.run true, y.1, y.2, trivial, trivial, hstep, rfl⟩, hnext⟩

/-- The writer finds the pipe full and gives up; the reader sleeps on, though the pipe is full. -/
theorem stranded_reader : ∃ (s : State Bool) (events : List (Event Bool)), Reaches (fun _ _ => True) (s, events) ∧ s.lock = none ∧
    s.asleep false = some .nread ∧ s.pipe.nread ≠ s.pipe.nwrite := by
  obtain ⟨x, hreach, h⟩ := exists_filling le_rfl
  have hfull : x.1.pipe.Full := by
    unfold Pipe.Full
    rw [h.nread, h.nwrite]
    decide
  have hstep : step x.1 (.run true) = some (x.1.leave true, [.wrote true (-1)]) := by
    show run true x.1 = _
    rw [run, if_pos h.lock, h.task]
    show some (pipewrite true (fun _ => 0) 513 512 x.1) = _
    rw [pipewrite, if_pos (by decide), if_pos hfull, if_pos (.inr h.killed)]
  refine ⟨x.1.leave true, x.2 ++ [.wrote true (-1)],
    .next hreach ⟨.run true, _, _, trivial, trivial, hstep, rfl⟩, rfl, h.asleep, ?_⟩
  show x.1.pipe.nread ≠ x.1.pipe.nwrite
  rw [h.nread, h.nwrite]
  decide

end Xv6.Pipes
