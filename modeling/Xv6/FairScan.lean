import Xv6.SchedFair2q

/-! A whole scan of `scheduler()` under FAIR2Q on one cpu, while nobody else changes the table or the tick count. The
scan begins at any slot; behind the last slot the lock is given up, taken again, and the loop goes on with the first
slot. The locals then hold the best candidate of each priority among the slots examined so far. -/

namespace Xv6.Fair2q

open LibWord

/-- Where the cpu is: before a pass, at a slot of the `for` loop, or in a process it has switched to. -/
inductive Phase where
  | top
  | scan (p : Nat)
  | switched (q : Option Slot)
  deriving DecidableEq

structure Scheduler where
  locals : Locals := {}
  phase : Phase := .top
  proc : Table

section Scan

variable (divide : Int → Int → Rat) (now : Int)

/-- The body of the `for` loop. -/
def visit (s : Scheduler) (p : Slot) : Scheduler :=
  match examine (s.proc p) s.locals with
  | (.ratio high, l) =>
    { s with locals := record l high p (ratio divide now (s.proc p)), phase := .scan (p.val + 1) }
  | (.skip, l) => { s with locals := l, phase := .scan (p.val + 1) }
  | (.choose q, l) =>
    { locals := l, phase := .switched q,
      proc := q.elim s.proc fun q => Function.update s.proc q { s.proc q with state := .running } }

/-- A step of the scheduler; it makes none while a process runs. -/
def step (s : Scheduler) : Scheduler :=
  match s.phase with
  | .top => { s with phase := .scan 0 }
  | .scan p => if h : p < nproc then visit divide now s ⟨p, h⟩ else { s with phase := .top }
  | .switched _ => s

/-- The slot whose process the next step looks at. -/
def examined (s : Scheduler) : Option Slot :=
  match s.phase with
  | .scan p => if h : p < nproc then if s.locals.loop < 64 then some ⟨p, h⟩ else none else none
  | _ => none

/-- The slots looked at in the next steps, in order. -/
def examinedIn (m : Nat) (s : Scheduler) : List Slot :=
  (List.range m).filterMap fun i => examined ((step divide now)^[i] s)

theorem examinedIn_succ (m : Nat) (s : Scheduler) :
    examinedIn divide now (m + 1) s =
      examinedIn divide now m s ++ (examined ((step divide now)^[m] s)).toList := by
  rw [examinedIn, List.range_succ, List.filterMap_append]
  cases h : examined ((step divide now)^[m] s) with
  | none => simp [examinedIn, h]
  | some p => simp [examinedIn, h]

end Scan

/-- A process that can be dispatched, of high priority or of low priority. -/
def Candidate (t : Table) (high : Bool) (q : Slot) : Prop :=
  (t q).state = .runnable ∧ ((t q).priority = 0 ↔ high = true)

/-! The best candidate so far. -/

/-- The ratio and the slot in the locals are those of a best candidate among the slots seen. -/
def Best (ratioOf : Slot → Rat) (candidate : Slot → Prop) (seen : List Slot) (small : Rat) (best : Option Slot) :
    Prop :=
  (small = 2 ∧ ∀ q ∈ seen, ¬ candidate q) ∨
    ∃ q ∈ seen, candidate q ∧ best = some q ∧ small = ratioOf q ∧ ∀ r ∈ seen, candidate r → ratioOf q ≤ ratioOf r

section Best

variable {ratioOf : Slot → Rat} {candidate : Slot → Prop} {seen : List Slot} {small : Rat} {best : Option Slot}
  {p : Slot}

theorem Best.skip (h : Best ratioOf candidate seen small best) (hp : ¬ candidate p) :
    Best ratioOf candidate (seen ++ [p]) small best := by
  cases h with
  | inl h =>
    refine .inl ⟨h.1, fun q hq => ?_⟩
    rcases List.mem_append.mp hq with hq | hq
    · exact h.2 q hq
    · rw [List.mem_singleton.mp hq]
      exact hp
  | inr h =>
    obtain ⟨q, hq, hcand, hbest, hsmall, hmin⟩ := h
    refine .inr ⟨q, List.mem_append_left _ hq, hcand, hbest, hsmall, fun r hr hcandr => ?_⟩
    rcases List.mem_append.mp hr with hr | hr
    · exact hmin r hr hcandr
    · rw [List.mem_singleton.mp hr] at hcandr
      exact absurd hcandr hp

/-- A candidate with a smaller ratio is the best one. -/
theorem Best.take (h : Best ratioOf candidate seen small best) (hp : candidate p) (hlt : ratioOf p < small) :
    Best ratioOf candidate (seen ++ [p]) (ratioOf p) (some p) := by
  refine .inr ⟨p, List.mem_append_right _ (List.mem_singleton_self p), hp, rfl, rfl, fun r hr hcandr => ?_⟩
  rcases List.mem_append.mp hr with hr | hr
  · cases h with
    | inl h => exact absurd hcandr (h.2 r hr)
    | inr h =>
      obtain ⟨q, _, _, _, hsmall, hmin⟩ := h
      exact hlt.le.trans (hsmall.le.trans (hmin r hr hcandr))
  · rw [List.mem_singleton.mp hr]

/-- Any other candidate is not better than the best one. -/
theorem Best.leave (h : Best ratioOf candidate seen small best) (hp : ratioOf p < 2) (hge : ¬ ratioOf p < small) :
    Best ratioOf candidate (seen ++ [p]) small best := by
  cases h with
  | inl h => exact absurd (h.1 ▸ hp) hge
  | inr h =>
    obtain ⟨q, hq, hcand, hbest, hsmall, hmin⟩ := h
    refine .inr ⟨q, List.mem_append_left _ hq, hcand, hbest, hsmall, fun r hr hcandr => ?_⟩
    rcases List.mem_append.mp hr with hr | hr
    · exact hmin r hr hcandr
    · rw [List.mem_singleton.mp hr, ← hsmall]
      exact not_lt.mp hge

end Best

/-! The scan. -/

variable {divide : Int → Int → Rat} {now : Int} {t : Table} {seen : List Slot} {s : Scheduler} {p : Slot}

/-- After the slots `seen` have been examined. -/
structure Scanned (divide : Int → Int → Rat) (now : Int) (t : Table) (seen : List Slot) (s : Scheduler) : Prop where
  table : s.proc = t
  loop : s.locals.loop = seen.length
  high : Best (fun q => ratio divide now (t q)) (Candidate t true) seen s.locals.smallHighRatio s.locals.minHighPri
  low : Best (fun q => ratio divide now (t q)) (Candidate t false) seen s.locals.smallLowRatio s.locals.minLowPri

/-- Every ratio that is compared is below the mark for no candidate. -/
def Below (divide : Int → Int → Rat) (now : Int) (t : Table) : Prop :=
  ∀ q, (t q).state = .runnable → ratio divide now (t q) < 2

theorem visit_high (hp : Candidate s.proc true p) (hloop : s.locals.loop < 64) : visit divide now s p =
    { s with locals := record s.locals true p (ratio divide now (s.proc p)), phase := .scan (p.val + 1) } := by
  have hexamine : examine (s.proc p) s.locals = (.ratio true, s.locals) := by
    rw [examine, if_pos ⟨hp.1, hp.2.mpr rfl, hloop⟩]
  rw [visit, hexamine]

theorem visit_low (hp : Candidate s.proc false p) (hloop : s.locals.loop < 64) : visit divide now s p =
    { s with locals := record s.locals false p (ratio divide now (s.proc p)), phase := .scan (p.val + 1) } := by
  have hpri : (s.proc p).priority ≠ 0 := fun hzero => Bool.noConfusion (hp.2.mp hzero)
  have hexamine : examine (s.proc p) s.locals = (.ratio false, s.locals) := by
    rw [examine, if_neg fun hand => hpri hand.2.1, if_pos ⟨hp.1, hpri, hloop⟩]
  rw [visit, hexamine]

theorem visit_idle (hp : (s.proc p).state ≠ .runnable) (hloop : s.locals.loop < 64) : visit divide now s p =
    { s with locals := { s.locals with loop := incr32 s.locals.loop }, phase := .scan (p.val + 1) } := by
  have hexamine : examine (s.proc p) s.locals = (.skip, { s.locals with loop := incr32 s.locals.loop }) := by
    rw [examine, if_neg fun hand => hp hand.1, if_neg fun hand => hp hand.1, if_neg hloop.ne]
  rw [visit, hexamine]

theorem Candidate.exclusive (h : Candidate t true p) : ¬ Candidate t false p :=
  fun hlow => Bool.noConfusion (hlow.2.mp (h.2.mpr rfl))

theorem candidate_of_runnable (hp : (t p).state = .runnable) : Candidate t true p ∨ Candidate t false p := by
  by_cases hpri : (t p).priority = 0
  · exact .inl ⟨hp, iff_of_true hpri rfl⟩
  · exact .inr ⟨hp, iff_of_false hpri Bool.false_ne_true⟩

theorem Scanned.visit (h : Scanned divide now t seen s) (hbelow : Below divide now t) (hlt : seen.length < 64) :
    Scanned divide now t (seen ++ [p]) (visit divide now s p) ∧
      (Fair2q.visit divide now s p).phase = .scan (p.val + 1) := by
  have hloop : s.locals.loop < 64 := by
    rw [h.loop]
    omega
  have hnext : incr32 s.locals.loop = ((seen ++ [p]).length : Int) := by
    rw [h.loop, incr32_of_lt (by omega) (by omega), List.length_append, List.length_singleton]
    rfl
  have htable := h.table
  by_cases hrunnable : (t p).state = .runnable
  · have hratio := hbelow p hrunnable
    rcases candidate_of_runnable hrunnable with hp | hp
    · rw [visit_high (htable ▸ hp) hloop, htable]
      refine ⟨?_, rfl⟩
      by_cases hsmaller : ratio divide now (t p) < s.locals.smallHighRatio
      · simp only [record, if_true, if_pos hsmaller]
        exact ⟨rfl, hnext, h.high.take hp hsmaller, h.low.skip hp.exclusive⟩
      · simp only [record, if_true, if_neg hsmaller]
        exact ⟨rfl, hnext, h.high.leave hratio hsmaller, h.low.skip hp.exclusive⟩
    · have hhigh : ¬ Candidate t true p := fun hhigh => hhigh.exclusive hp
      rw [visit_low (htable ▸ hp) hloop, htable]
      refine ⟨?_, rfl⟩
      by_cases hsmaller : ratio divide now (t p) < s.locals.smallLowRatio
      · simp only [record, Bool.false_eq_true, if_false, if_pos hsmaller]
        exact ⟨rfl, hnext, h.high.skip hhigh, h.low.take hp hsmaller⟩
      · simp only [record, Bool.false_eq_true, if_false, if_neg hsmaller]
        exact ⟨rfl, hnext, h.high.skip hhigh, h.low.leave hratio hsmaller⟩
  · rw [visit_idle (htable ▸ hrunnable) hloop]
    exact ⟨⟨htable, hnext, h.high.skip fun hp => hrunnable hp.1, h.low.skip fun hp => hrunnable hp.1⟩, rfl⟩

/-! The order of the slots. A scan from `p` takes one step for each slot and two for the change of pass. -/

/-- The slot `i` places behind `p`, round the table. -/
def slotAfter (p : Slot) (i : Nat) : Slot := ⟨(p.val + i) % nproc, Nat.mod_lt _ (by decide)⟩

/-- Where the scan from `p` is after `m` steps. -/
def phaseAfter (p : Slot) (m : Nat) : Phase :=
  if p.val + m ≤ nproc then .scan (p.val + m)
  else if p.val + m = nproc + 1 then .top
  else .scan (p.val + m - (nproc + 2))

/-- How many slots it has examined by then. -/
def seenAfter (p : Slot) (m : Nat) : Nat :=
  if p.val + m ≤ nproc then m else if p.val + m = nproc + 1 then m - 1 else m - 2

theorem slotsAfter_perm (p : Slot) : ((List.range nproc).map (slotAfter p)).Perm slots := by
  have hnodup : ((List.range nproc).map (slotAfter p)).Nodup := by
    refine List.Nodup.map_on (fun i hi j hj heq => ?_) List.nodup_range
    have hi := List.mem_range.mp hi
    have hj := List.mem_range.mp hj
    have heq : (p.val + i) % nproc = (p.val + j) % nproc := congrArg Fin.val heq
    simp only [nproc] at *
    omega
  refine (List.perm_ext_iff_of_nodup hnodup (List.nodup_finRange nproc)).mpr fun q => ?_
  refine iff_of_true (List.mem_map.mpr ⟨(q.val + nproc - p.val) % nproc, ?_, Fin.ext ?_⟩) (mem_slots q)
  · exact List.mem_range.mpr (Nat.mod_lt _ (by decide))
  · have hp := p.isLt
    have hq := q.isLt
    show (p.val + (q.val + nproc - p.val) % nproc) % nproc = q.val
    simp only [nproc] at *
    omega

theorem Scanned.step_slot {a : Nat} (h : Scanned divide now t seen s) (hbelow : Below divide now t)
    (hphase : s.phase = .scan a) (ha : a < nproc) (hlt : seen.length < 64) :
    examined s = some ⟨a, ha⟩ ∧ Scanned divide now t (seen ++ [⟨a, ha⟩]) (step divide now s) ∧
      (step divide now s).phase = .scan (a + 1) := by
  have hloop : s.locals.loop < 64 := by
    rw [h.loop]
    omega
  have hstep : step divide now s = Fair2q.visit divide now s ⟨a, ha⟩ := by
    simp only [step, hphase, dif_pos ha]
  refine ⟨?_, ?_⟩
  · simp only [examined, hphase, dif_pos ha, if_pos hloop]
  · rw [hstep]
    exact h.visit hbelow hlt

/-- Between two passes nothing is examined. -/
theorem Scanned.step_pass (h : Scanned divide now t seen s) (hphase : s.phase = .scan nproc ∨ s.phase = .top) :
    examined s = none ∧ Scanned divide now t seen (step divide now s) ∧
      (step divide now s).phase = if s.phase = .top then .scan 0 else .top := by
  cases hphase with
  | inl hend =>
    simp only [examined, step, hend, dif_neg (lt_irrefl nproc), reduceCtorEq, if_false, true_and, and_true]
    exact ⟨h.table, h.loop, h.high, h.low⟩
  | inr htop =>
    simp only [examined, step, htop, if_true, true_and, and_true]
    exact ⟨h.table, h.loop, h.high, h.low⟩

theorem after_slot {m : Nat} (hm : m < nproc + 2) (hslot : p.val + m < nproc ∨ nproc + 1 < p.val + m) :
    ∃ a, ∃ ha : a < nproc, phaseAfter p m = .scan a ∧ phaseAfter p (m + 1) = .scan (a + 1) ∧
      seenAfter p (m + 1) = seenAfter p m + 1 ∧ slotAfter p (seenAfter p m) = ⟨a, ha⟩ ∧ seenAfter p m < 64 := by
  have hp := p.isLt
  cases hslot with
  | inl hfirst =>
    have hseen : seenAfter p m = m := if_pos hfirst.le
    refine ⟨p.val + m, hfirst, if_pos hfirst.le, if_pos hfirst, ?_, Fin.ext ?_, ?_⟩
    · rw [hseen]
      exact if_pos hfirst
    · rw [hseen]
      exact Nat.mod_eq_of_lt hfirst
    · rw [hseen]
      simp only [nproc] at *
      omega
  | inr hsecond =>
    have hseen : seenAfter p m = m - 2 := by
      rw [seenAfter, if_neg (by omega), if_neg (by omega)]
    refine ⟨p.val + m - (nproc + 2), by omega, ?_, ?_, ?_, Fin.ext ?_, ?_⟩
    · rw [phaseAfter, if_neg (by omega), if_neg (by omega)]
    · rw [phaseAfter, if_neg (by omega), if_neg (by omega)]
      congr 1
      omega
    · rw [hseen, seenAfter, if_neg (by omega), if_neg (by omega)]
      omega
    · rw [hseen]
      show (p.val + (m - 2)) % nproc = p.val + m - (nproc + 2)
      simp only [nproc] at *
      omega
    · rw [hseen]
      simp only [nproc] at *
      omega

theorem after_pass {m : Nat} (hslot : ¬ (p.val + m < nproc ∨ nproc + 1 < p.val + m)) :
    (phaseAfter p m = .scan nproc ∨ phaseAfter p m = .top) ∧
      (if phaseAfter p m = .top then .scan 0 else .top) = phaseAfter p (m + 1) ∧
      seenAfter p (m + 1) = seenAfter p m := by
  by_cases hend : p.val + m = nproc
  · have hphase : phaseAfter p m = .scan nproc := by
      rw [phaseAfter, if_pos hend.le, hend]
    refine ⟨.inl hphase, ?_, ?_⟩
    · rw [hphase, if_neg Phase.noConfusion, phaseAfter, if_neg (by omega), if_pos (by omega)]
    · rw [seenAfter, if_neg (by omega), if_pos (by omega), seenAfter, if_pos hend.le]
      omega
  · have htop : p.val + m = nproc + 1 := by omega
    have hphase : phaseAfter p m = .top := by
      rw [phaseAfter, if_neg (by omega), if_pos htop]
    refine ⟨.inr hphase, ?_, ?_⟩
    · rw [hphase, if_pos rfl, phaseAfter, if_neg (by omega), if_neg (by omega)]
      congr 1
      omega
    · rw [seenAfter, if_neg (by omega), if_neg (by omega), seenAfter, if_neg (by omega), if_pos htop]
      omega

/-- The scan, step by step. -/
theorem scan_after (hstart : s.phase = .scan p.val) (h : Scanned divide now t [] s) (hbelow : Below divide now t)
    (m : Nat) (hm : m ≤ nproc + 2) :
    ((step divide now)^[m] s).phase = phaseAfter p m ∧
      examinedIn divide now m s = (List.range (seenAfter p m)).map (slotAfter p) ∧
      Scanned divide now t (examinedIn divide now m s) ((step divide now)^[m] s) := by
  have hp := p.isLt
  induction m with
  | zero =>
    refine ⟨?_, ?_, h⟩
    · rw [phaseAfter, if_pos (by omega)]
      exact hstart
    · rw [seenAfter, if_pos (by omega)]
      rfl
  | succ m ih =>
    obtain ⟨hphase, hseen, hscanned⟩ := ih (by omega)
    have hlength : (examinedIn divide now m s).length = seenAfter p m := by
      rw [hseen, List.length_map, List.length_range]
    rw [Function.iterate_succ_apply', examinedIn_succ]
    by_cases hslot : p.val + m < nproc ∨ nproc + 1 < p.val + m
    · -- one more slot
      obtain ⟨a, ha, hphase', hafter, hcount, hplace, hless⟩ := after_slot (by omega) hslot
      obtain ⟨hexamined, hstep, hstepped⟩ :=
        hscanned.step_slot hbelow (hphase.trans hphase') ha (hlength ▸ hless)
      refine ⟨hstepped.trans hafter.symm, ?_, ?_⟩
      · rw [hexamined, hcount, List.range_succ, List.map_append, hseen]
        show _ ++ [_] = _ ++ [_]
        rw [hplace]
      · rw [hexamined]
        exact hstep
    · -- the end of a pass or the beginning of the next one
      obtain ⟨hphase', hafter, hcount⟩ := after_pass hslot
      obtain ⟨hexamined, hstep, hstepped⟩ := hscanned.step_pass (hphase ▸ hphase')
      rw [hexamined, Option.toList_none, List.append_nil, hcount]
      exact ⟨hstepped.trans (hphase ▸ hafter), hseen, hstep⟩

/-! The end of the scan. -/

/-- A candidate of the priority with a minimal ratio. -/
def Minimal (ratioOf : Slot → Rat) (t : Table) (high : Bool) (q : Slot) : Prop :=
  Candidate t high q ∧ ∀ r, Candidate t high r → ratioOf q ≤ ratioOf r

/-- The cpu has switched to the process. -/
def SwitchedTo (t : Table) (q : Slot) (s : Scheduler) : Prop :=
  s.phase = .switched (some q) ∧ s.proc = Function.update t q { t q with state := .running }

/-- What a scan from `p` ends with: a process is dispatched, or the next scan begins; the locals are in both cases
as at the start of a scan. -/
structure Decides (ratioOf : Slot → Rat) (t : Table) (p : Slot) (s : Scheduler) : Prop where
  loop : s.locals.loop = 0
  high : s.locals.smallHighRatio = 2
  low : s.locals.smallLowRatio = 2
  choice : (∃ q, Minimal ratioOf t true q ∧ SwitchedTo t q s) ∨
    (∀ q, ¬ Candidate t true q) ∧
      ((∃ q, Minimal ratioOf t false q ∧ SwitchedTo t q s) ∨
        (∀ q, ¬ Candidate t false q) ∧ s.phase = .scan (p.val + 1) ∧ s.proc = t)

theorem Scanned.decides (h : Scanned divide now t seen s) (hbelow : Below divide now t) (hall : ∀ q, q ∈ seen)
    (hlength : seen.length = 64) : Decides (fun q => ratio divide now (t q)) t p (Fair2q.visit divide now s p) := by
  have hloop : s.locals.loop = 64 := by
    rw [h.loop, hlength]
    rfl
  have hnot : ¬ s.locals.loop < 64 := by omega
  have hexamine : examine (s.proc p) s.locals =
      if s.locals.smallHighRatio ≠ 2 then
        (.choose s.locals.minHighPri, { s.locals with smallHighRatio := 2, smallLowRatio := 2, loop := 0 })
      else if s.locals.smallHighRatio = 2 ∧ s.locals.smallLowRatio ≠ 2 then
        (.choose s.locals.minLowPri, { s.locals with smallHighRatio := 2, smallLowRatio := 2, loop := 0 })
      else (.skip, { s.locals with loop := 0 }) := by
    rw [examine, if_neg fun hand => hnot hand.2.2, if_neg fun hand => hnot hand.2.2, if_pos hloop]
  have htable := h.table
  rcases h.high with ⟨hhigh, hnone⟩ | ⟨q, _, hq, hbest, hsmall, hmin⟩
  · have hnone : ∀ q, ¬ Candidate t true q := fun q => hnone q (hall q)
    rcases h.low with ⟨hlow, hnone'⟩ | ⟨q, _, hq, hbest, hsmall, hmin⟩
    · rw [if_neg (not_not.mpr hhigh), if_neg fun hand => hand.2 hlow] at hexamine
      rw [Fair2q.visit, hexamine]
      exact ⟨rfl, hhigh, hlow, .inr ⟨hnone, .inr ⟨fun q => hnone' q (hall q), rfl, htable⟩⟩⟩
    · have hlow : s.locals.smallLowRatio ≠ 2 := by
        rw [hsmall]
        exact (hbelow q hq.1).ne
      rw [if_neg (not_not.mpr hhigh), if_pos ⟨hhigh, hlow⟩, hbest] at hexamine
      rw [Fair2q.visit, hexamine, htable]
      exact ⟨rfl, rfl, rfl, .inr ⟨hnone, .inl ⟨q, ⟨hq, fun r => hmin r (hall r)⟩, rfl, rfl⟩⟩⟩
  · have hhigh : s.locals.smallHighRatio ≠ 2 := by
      rw [hsmall]
      exact (hbelow q hq.1).ne
    rw [if_pos hhigh, hbest] at hexamine
    rw [Fair2q.visit, hexamine, htable]
    exact ⟨rfl, rfl, rfl, .inl ⟨q, ⟨hq, fun r => hmin r (hall r)⟩, rfl, rfl⟩⟩

/-! Ratios. -/

/-- `mechane`: the ticks since the process was created. -/
def elapsed (now : Int) (p : Proc) : Int := Int.bmod (now - p.ctime) (2 ^ 32)

/-- The ratio without rounding. -/
def exactRatio (now : Int) (p : Proc) : Rat := ratio (fun a b => (a : Rat) / b) now p

variable {round : Rat → Rat}

theorem ratio_round (hone : round 1 = 1) (p : Proc) :
    ratio (fun a b => round ((a : Rat) / b)) now p = round (exactRatio now p) := by
  show (if elapsed now p = 0 then (1 : Rat) else round ((p.rtime : Rat) / (elapsed now p))) =
    round (if elapsed now p = 0 then (1 : Rat) else (p.rtime : Rat) / (elapsed now p))
  split_ifs
  · exact hone.symm
  · rfl

theorem exactRatio_le_one {p : Proc} (hpos : 0 ≤ elapsed now p) (hle : p.rtime ≤ elapsed now p) :
    exactRatio now p ≤ 1 := by
  show (if elapsed now p = 0 then (1 : Rat) else (p.rtime : Rat) / (elapsed now p)) ≤ 1
  split_ifs with hzero
  · exact le_refl 1
  · have hpos : (0 : Rat) < elapsed now p := by
      exact_mod_cast lt_of_le_of_ne hpos (Ne.symm hzero)
    rw [div_le_one hpos]
    exact_mod_cast hle

theorem Minimal.exact {high : Bool} {q : Slot}
    (h : Minimal (fun q => round (exactRatio now (t q))) t high q)
    (hapart : ∀ q r, (t q).state = .runnable → (t r).state = .runnable →
      exactRatio now (t q) < exactRatio now (t r) → round (exactRatio now (t q)) < round (exactRatio now (t r))) :
    Minimal (fun q => exactRatio now (t q)) t high q := by
  refine ⟨h.1, fun r hr => ?_⟩
  by_contra hlt
  exact absurd (h.2 r hr) (not_le.mpr (hapart r q hr.1 h.1.1 (not_le.mp hlt)))

/-- Three processes can be dispatched at tick 10; the last one has the high priority and the smaller share. -/
def shareTable : Table := fun q =>
  if q.val = 3 then { state := .runnable, ctime := 2, rtime := 1, priority := 1 }
  else if q.val = 5 then { state := .runnable, ctime := 2, rtime := 6 }
  else if q.val = 9 then { state := .runnable, ctime := 4, rtime := 3 }
  else {}

def startSlot : Slot := ⟨4, by decide⟩

/-- Times below 0: the ratio of the only process is 2. -/
def negativeTable : Table := fun q =>
  if q.val = 0 then { state := .runnable, ctime := 2, rtime := -4 } else {}

def firstSlot : Slot := ⟨0, nproc_pos⟩

end Xv6.Fair2q
