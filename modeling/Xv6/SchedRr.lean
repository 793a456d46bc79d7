import Xv6.ProcTable

/-! `scheduler()` with the default policy, round robin, on one cpu. The cursor of the `for` loop is a local of the
scheduler: it survives the switch to a process, and only the end of the table sends it back to the first slot. So no
`RUNNABLE` process is passed over between two dispatches of another one. -/

namespace Xv6.Rr

/-- Where the cpu is: before a pass, at a slot of the `for` loop, or in the process of a slot. -/
inductive Phase where
  | top
  | scan (p : Nat)
  | switched (p : Nat)
  deriving DecidableEq

structure State where
  phase : Phase := .top
  proc : Table

/-- The steps of the scheduler, and the changes others make to the table. These are allowed at any time, which is
more than `ptable.lock` admits. -/
inductive Step : State → State → Prop
  | acquire {s : State} : s.phase = .top → Step s { s with phase := .scan 0 }
  | skip {s : State} (p : Slot) : s.phase = .scan p.val → (s.proc p).state ≠ .runnable →
      Step s { s with phase := .scan (p.val + 1) }
  | dispatch {s : State} (p : Slot) : s.phase = .scan p.val → (s.proc p).state = .runnable →
      Step s { phase := .switched p.val, proc := Function.update s.proc p { s.proc p with state := .running } }
  | back {s : State} {p : Nat} : s.phase = .switched p → Step s { s with phase := .scan (p + 1) }
  | release {s : State} {p : Nat} : s.phase = .scan p → nproc ≤ p → Step s { s with phase := .top }
  | other {s : State} (proc : Table) : Step s { s with proc := proc }

/-- The step dispatches the process of a slot. -/
def Dispatched (s t : State) (q : Slot) : Prop := s.phase = .scan q.val ∧ t.phase = .switched q.val

variable {s t : State} {q r : Slot}

/-- The cursor has left `q` and has not come to `r`. -/
def Short (q r : Slot) : Phase → Prop
  | .top => r < q
  | .scan a => q.val < a ∧ (r < q ∨ a ≤ r.val) ∨ r < q ∧ a ≤ r.val
  | .switched a => q.val ≤ a ∧ (r < q ∨ a < r.val) ∨ r < q ∧ a < r.val

/-- The cursor does not get past a `RUNNABLE` process that is not dispatched. -/
theorem Short.step (h : Short q r s.phase) (hstep : Step s t) (hrunnable : (s.proc r).state = .runnable)
    (hnot : ¬ Dispatched s t r) : Short q r t.phase := by
  cases hstep with
  | acquire hphase =>
    rw [hphase] at h
    exact .inr ⟨h, Nat.zero_le _⟩
  | skip p hphase hidle =>
    rw [hphase] at h
    have hne : p.val ≠ r.val := fun heq => hidle (Fin.ext heq ▸ hrunnable)
    show _ ∨ _
    simp only [Short, Fin.lt_def] at h ⊢
    omega
  | dispatch p hphase _ =>
    rw [hphase] at h
    have hne : p.val ≠ r.val := fun heq => hnot ⟨heq ▸ hphase, congrArg Phase.switched heq⟩
    show _ ∨ _
    simp only [Short, Fin.lt_def] at h ⊢
    omega
  | back hphase =>
    rw [hphase] at h
    show _ ∨ _
    simp only [Short, Fin.lt_def] at h ⊢
    omega
  | release hphase hend =>
    rw [hphase] at h
    have hr := r.isLt
    show r < q
    simp only [Short, Fin.lt_def] at h ⊢
    omega
  | other proc => exact h

/-- Between two dispatches of a process, every other process that stays `RUNNABLE` until its own dispatch is
dispatched. -/
theorem rr_no_bypass (run : Nat → State) (i j : Nat) (q r : Slot)
    (hrun : ∀ k, i ≤ k → k ≤ j → Step (run k) (run (k + 1))) (hij : i < j)
    (hi : Dispatched (run i) (run (i + 1)) q) (hj : Dispatched (run j) (run (j + 1)) q) (hne : r ≠ q)
    (hstay : ∀ k, i ≤ k → k ≤ j → (∀ m, i ≤ m → m < k → ¬ Dispatched (run m) (run (m + 1)) r) →
      ((run k).proc r).state = .runnable) :
    ∃ k, i < k ∧ k < j ∧ Dispatched (run k) (run (k + 1)) r := by
  by_contra hnone
  have hnot : ∀ m, i ≤ m → m < j → ¬ Dispatched (run m) (run (m + 1)) r := by
    intro m hm hlt hd
    by_cases heq : m = i
    · rw [heq] at hd
      have hsame : Phase.scan r.val = Phase.scan q.val := hd.1.symm.trans hi.1
      exact hne (Fin.ext (Phase.scan.inj hsame))
    · exact hnone ⟨m, by omega, hlt, hd⟩
  -- the cursor stays between `q` and `r`
  have hshort : ∀ m, i + 1 + m ≤ j → Short q r (run (i + 1 + m)).phase := by
    intro m
    induction m with
    | zero =>
      intro _
      rw [Nat.add_zero, hi.2]
      have hval : r.val ≠ q.val := fun heq => hne (Fin.ext heq)
      simp only [Short, Fin.lt_def]
      omega
    | succ m ih =>
      intro hm
      refine (ih (by omega)).step (hrun _ (by omega) (by omega)) ?_ (hnot _ (by omega) (by omega))
      exact hstay _ (by omega) (by omega) fun m' hm' hlt => hnot m' hm' (by omega)
  obtain ⟨m, hm⟩ : ∃ m, j = i + 1 + m := ⟨j - (i + 1), by omega⟩
  have hlast := hshort m hm.ge
  rw [← hm, hj.1] at hlast
  simp only [Short, Fin.lt_def] at hlast
  omega

/-- Two processes that are always ready. -/
def twoReady : Table := fun p => if p.val < 2 then { state := .runnable } else {}

def runningAt (p : Nat) : Table := fun q => if q.val = p then { state := .running } else twoReady q

/-- A round: both processes run once and are ready again, the other slots are skipped. -/
def round (k : Nat) : State :=
  if k = 0 then ⟨.scan 0, twoReady⟩
  else if k = 1 then ⟨.switched 0, runningAt 0⟩
  else if k = 2 then ⟨.switched 0, twoReady⟩
  else if k = 3 then ⟨.scan 1, twoReady⟩
  else if k = 4 then ⟨.switched 1, runningAt 1⟩
  else if k = 5 then ⟨.switched 1, twoReady⟩
  else if k ≤ 68 then ⟨.scan (k - 4), twoReady⟩
  else if k = 69 then ⟨.top, twoReady⟩
  else if k = 70 then ⟨.scan 0, twoReady⟩
  else ⟨.switched 0, runningAt 0⟩

theorem twoReady_dispatch (p : Slot) (hp : p.val < 2) :
    Step ⟨.scan p.val, twoReady⟩ ⟨.switched p.val, runningAt p.val⟩ := by
  have hrunnable : (twoReady p).state = .runnable := by
    rw [twoReady, if_pos hp]
  have hupdate : Function.update twoReady p { twoReady p with state := .running } = runningAt p.val := by
    funext q
    by_cases heq : q = p
    · rw [heq, Function.update_self, runningAt, if_pos rfl, twoReady, if_pos hp]
    · rw [Function.update_of_ne heq, runningAt, if_neg fun hval => heq (Fin.ext hval)]
  have hstep : Step ⟨.scan p.val, twoReady⟩ _ := Step.dispatch p rfl hrunnable
  rw [hupdate] at hstep
  exact hstep

theorem round_steps (k : Nat) (hk : k ≤ 70) : Step (round k) (round (k + 1)) := by
  by_cases hskip : 6 ≤ k ∧ k < 68
  · have hround : ∀ m, 6 ≤ m → m ≤ 68 → round m = ⟨.scan (m - 4), twoReady⟩ := by
      intro m hlo hhi
      simp only [round, if_pos hhi]
      repeat rw [if_neg (by omega)]
    have hlt : k - 4 < nproc := by
      simp only [nproc]
      omega
    have hidle : (twoReady ⟨k - 4, hlt⟩).state ≠ .runnable := by
      rw [twoReady, if_neg (by simp only; omega)]
      exact ProcState.noConfusion
    have hstep : Step ⟨.scan (k - 4), twoReady⟩ _ := Step.skip ⟨k - 4, hlt⟩ rfl hidle
    rw [hround k (by omega) (by omega), hround (k + 1) (by omega) (by omega), show k + 1 - 4 = k - 4 + 1 by omega]
    exact hstep
  · have hcases : k = 0 ∨ k = 1 ∨ k = 2 ∨ k = 3 ∨ k = 4 ∨ k = 5 ∨ k = 68 ∨ k = 69 ∨ k = 70 := by omega
    rcases hcases with rfl | rfl | rfl | rfl | rfl | rfl | rfl | rfl | rfl
    · exact twoReady_dispatch ⟨0, by decide⟩ (by decide)
    · exact .other twoReady
    · exact .back rfl
    · exact twoReady_dispatch ⟨1, by decide⟩ (by decide)
    · exact .other twoReady
    · exact .back rfl
    · exact .release rfl (le_refl _)
    · exact .acquire rfl
    · exact twoReady_dispatch ⟨0, by decide⟩ (by decide)

def firstReady : Slot := ⟨0, nproc_pos⟩

def secondReady : Slot := ⟨1, one_lt_nproc⟩

theorem round_no_bypass : ∃ k, 0 < k ∧ k < 70 ∧ Dispatched (round k) (round (k + 1)) secondReady := by
  refine rr_no_bypass round 0 70 firstReady secondReady (fun k _ hk => round_steps k hk) (by decide) ⟨rfl, rfl⟩
    ⟨rfl, rfl⟩ (by decide) fun k _ hk hnot => ?_
  have hearly : k ≤ 3 := by
    by_contra hlate
    exact hnot 3 (by decide) (by omega) ⟨rfl, rfl⟩
  have hcases : k = 0 ∨ k = 1 ∨ k = 2 ∨ k = 3 := by omega
  rcases hcases with rfl | rfl | rfl | rfl <;> rfl

end Xv6.Rr
