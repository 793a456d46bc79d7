import Mathlib

/-! The process table of `proc.c`: the fields of `struct proc` that the scheduler and the process
calls read or write, the constants of `param.h`, and what each loop over `ptable.proc` does to the
table. The loops run with `ptable.lock` held. -/

namespace Xv6

open Function

/-- `NPROC`: the number of slots of `ptable.proc`. -/
def nproc : Nat := 64

/-- `QUANTA`: clock ticks until a process has to free the cpu. -/
def quanta : Int := 5

abbrev Slot := Fin nproc

theorem nproc_pos : 0 < nproc := by decide

theorem one_lt_nproc : 1 < nproc := by decide

/-- `enum procstate`. -/
inductive ProcState where
  | unused
  | embryo
  | sleeping
  | runnable
  | running
  | zombie
  deriving DecidableEq, Repr

/-- What a process sleeps on: the address of a `struct proc` (in `wait`), of `ticks`, or of some
other kernel object (a buffer, an inode, an end of a pipe, the console's read index). -/
inductive Chan where
  | proc (p : Slot)
  | ticks
  | obj (address : Nat)
  deriving DecidableEq, Repr

/-- `struct proc`, without the fields of the memory and file subsystems. A priority of 0 is high,
any other is low. -/
structure Proc where
  state : ProcState := .unused
  pid : Int := 0
  parent : Option Slot := none
  chan : Option Chan := none
  killed : Bool := false
  ctime : Int := 0
  etime : Int := 0
  rtime : Int := 0
  priority : Int := 0
  deriving DecidableEq, Repr

/-- `ptable.proc`. -/
abbrev Table := Slot → Proc

/-- The slots in the order of the loops over the table. -/
def slots : List Slot := List.finRange nproc

theorem mem_slots (p : Slot) : p ∈ slots := List.mem_finRange p

/-- A process that can still run: it is neither being created nor gone. -/
def ProcState.Live (s : ProcState) : Prop := s = .runnable ∨ s = .running ∨ s = .sleeping

instance (s : ProcState) : Decidable s.Live := inferInstanceAs (Decidable (_ ∨ _))

/-- `wakeup1`: every process sleeping on the channel becomes runnable. -/
def wakeup1 (t : Table) (chan : Option Chan) : Table := fun p =>
  if (t p).state = .sleeping ∧ (t p).chan = chan then { t p with state := .runnable } else t p

/-- The loop of `allocproc`. -/
def findUnused (t : Table) : Option Slot := slots.find? fun p => (t p).state = .unused

/-- The body of the loop of `exit` that passes abandoned children to init. -/
def reparentOne (initproc self : Slot) (t : Table) (p : Slot) : Table :=
  if (t p).parent = some self then
    let t' := update t p { t p with parent := some initproc }
    if (t p).state = .zombie then wakeup1 t' (some (.proc initproc)) else t'
  else t

/-- What `exit` does under `ptable.lock` before it stamps the end time: wake the parent, pass on the
children, become a zombie. -/
def exitTable (initproc self : Slot) (t : Table) : Table :=
  let woken := wakeup1 t ((t self).parent.map .proc)
  let passed := slots.foldl (reparentOne initproc self) woken
  update passed self { passed self with state := .zombie }

/-- The first zombie child, which `wait` and `wait2` return. -/
def findZombie (self : Slot) (t : Table) : Option Slot :=
  slots.find? fun p => (t p).parent = some self ∧ (t p).state = .zombie

/-- `havekids` after a scan without a zombie child. -/
def haveKids (self : Slot) (t : Table) : Bool := slots.any fun p => (t p).parent = some self

/-- The fields `wait` and `wait2` clear in the slot of a reaped child. -/
def Proc.clear (p : Proc) : Proc :=
  { p with state := .unused, pid := 0, parent := none, killed := false, rtime := 0, ctime := 0,
           etime := 0, priority := 0 }

/-- The loop of `kill`: mark the first process with that pid, and wake it. -/
def killTable (pid : Int) (t : Table) : Table :=
  match slots.find? fun p => (t p).pid = pid with
  | none => t
  | some p => update t p
      { t p with killed := true,
                 state := if (t p).state = .sleeping then .runnable else (t p).state }

/-- What `kill` returns. -/
def killResult (pid : Int) (t : Table) : Int :=
  match slots.find? fun p => (t p).pid = pid with
  | none => -1
  | some _ => 0

theorem findUnused_state {t : Table} {p : Slot} (h : findUnused t = some p) :
    (t p).state = .unused := by
  simpa using List.find?_some h

theorem findZombie_spec {self p : Slot} {t : Table} (h : findZombie self t = some p) :
    (t p).parent = some self ∧ (t p).state = .zombie := by
  simpa using List.find?_some h

theorem findZombie_none {self : Slot} {t : Table} (h : findZombie self t = none) (p : Slot)
    (hp : (t p).parent = some self) : (t p).state ≠ .zombie := by
  intro hz
  have := List.find?_eq_none.mp h p (mem_slots p)
  simp [hp, hz] at this

/-- The states of a table after some sleeping processes have been woken. -/
def Wakes (t u : Table) : Prop :=
  ∀ p, (u p).state = (t p).state ∨ ((t p).state = .sleeping ∧ (u p).state = .runnable)

theorem Wakes.refl (t : Table) : Wakes t t := fun _ => Or.inl rfl

theorem Wakes.trans {t u v : Table} (h : Wakes t u) (h' : Wakes u v) : Wakes t v := by
  intro p
  rcases h p with hp | ⟨hs, hr⟩
  · rw [← hp]
    exact h' p
  · rcases h' p with hp' | ⟨hs', -⟩
    · exact Or.inr ⟨hs, hp'.trans hr⟩
    · rw [hr] at hs'
      cases hs'

theorem Wakes.eq_of_ne {t u : Table} (h : Wakes t u) {p : Slot} (hp : (t p).state ≠ .sleeping) :
    (u p).state = (t p).state :=
  (h p).resolve_right fun hs => hp hs.1

theorem Wakes.sleeping {t u : Table} (h : Wakes t u) {p : Slot} (hp : (u p).state = .sleeping) :
    (t p).state = .sleeping := by
  rcases h p with hs | ⟨hs, -⟩
  · rw [← hs, hp]
  · exact hs

theorem Wakes.live {t u : Table} (h : Wakes t u) {p : Slot} : (u p).state.Live ↔ (t p).state.Live := by
  rcases h p with hp | ⟨hs, hr⟩
  · rw [hp]
  · simp [ProcState.Live, hs, hr]

theorem Wakes.zombie {t u : Table} (h : Wakes t u) {p : Slot} :
    (u p).state = .zombie ↔ (t p).state = .zombie := by
  rcases h p with hp | ⟨hs, hr⟩
  · rw [hp]
  · simp [hs, hr]

theorem Wakes.unused {t u : Table} (h : Wakes t u) {p : Slot} :
    (u p).state = .unused ↔ (t p).state = .unused := by
  rcases h p with hp | ⟨hs, hr⟩
  · rw [hp]
  · simp [hs, hr]

theorem wakeup1_parent (t : Table) (chan : Option Chan) (p : Slot) :
    (wakeup1 t chan p).parent = (t p).parent := by
  rw [wakeup1]
  split <;> rfl

theorem wakeup1_chan (t : Table) (chan : Option Chan) (p : Slot) :
    (wakeup1 t chan p).chan = (t p).chan := by
  rw [wakeup1]
  split <;> rfl

theorem wakeup1_pid (t : Table) (chan : Option Chan) (p : Slot) :
    (wakeup1 t chan p).pid = (t p).pid := by
  rw [wakeup1]
  split <;> rfl

theorem wakeup1_wakes (t : Table) (chan : Option Chan) : Wakes t (wakeup1 t chan) := by
  intro p
  rw [wakeup1]
  split
  · rename_i h
    exact Or.inr ⟨h.1, rfl⟩
  · exact Or.inl rfl

theorem wakeup1_not_sleeping (t : Table) (chan : Option Chan) (p : Slot)
    (hchan : (wakeup1 t chan p).chan = chan) : (wakeup1 t chan p).state ≠ .sleeping := by
  rw [wakeup1_chan] at hchan
  rw [wakeup1]
  split
  · exact nofun
  · rename_i h
    exact fun hs => h ⟨hs, hchan⟩

section Exit

variable (initproc self : Slot)

theorem reparentOne_of_eq {t : Table} {a : Slot} (ha : (t a).parent = some self) :
    reparentOne initproc self t a = update t a { t a with parent := some initproc } ∨
      reparentOne initproc self t a =
        wakeup1 (update t a { t a with parent := some initproc }) (some (.proc initproc)) := by
  rw [reparentOne, if_pos ha]
  by_cases hz : (t a).state = .zombie
  · exact Or.inr (if_pos hz)
  · exact Or.inl (if_neg hz)

theorem reparentOne_of_ne {t : Table} {a : Slot} (ha : (t a).parent ≠ some self) :
    reparentOne initproc self t a = t := if_neg ha

/-- Passing on one child changes its parent field, and wakes init. -/
theorem reparentOne_spec (t : Table) (a p : Slot) :
    (reparentOne initproc self t a p).parent =
        (if p = a ∧ (t p).parent = some self then some initproc else (t p).parent) ∧
      (reparentOne initproc self t a p).chan = (t p).chan ∧
      (reparentOne initproc self t a p).pid = (t p).pid := by
  by_cases ha : (t a).parent = some self
  · have hupdate : ∀ u : Proc, u = update t a { t a with parent := some initproc } p →
        u.parent = (if p = a ∧ (t p).parent = some self then some initproc else (t p).parent) ∧
          u.chan = (t p).chan ∧ u.pid = (t p).pid := by
      rintro u rfl
      by_cases hp : p = a
      · subst hp
        simp [ha]
      · simp [hp]
    rcases reparentOne_of_eq initproc self ha with h | h <;> rw [h]
    · exact hupdate _ rfl
    · rw [wakeup1_parent, wakeup1_chan, wakeup1_pid]
      exact hupdate _ rfl
  · have hn : ¬(p = a ∧ (t p).parent = some self) := by
      rintro ⟨rfl, hp⟩
      exact ha hp
    rw [reparentOne_of_ne initproc self ha, if_neg hn]
    exact ⟨rfl, rfl, rfl⟩

theorem reparentOne_wakes (t : Table) (a : Slot) : Wakes t (reparentOne initproc self t a) := by
  have hupdate : Wakes t (update t a { t a with parent := some initproc }) := by
    intro p
    by_cases hp : p = a
    · subst hp; simp
    · rw [update_of_ne hp]
      exact Or.inl rfl
  by_cases ha : (t a).parent = some self
  · rcases reparentOne_of_eq initproc self ha with h | h <;> rw [h]
    · exact hupdate
    · exact hupdate.trans (wakeup1_wakes _ _)
  · rw [reparentOne_of_ne initproc self ha]
    exact Wakes.refl t

/-- The table between the wakeup of the parent and the last assignment of `exit`. -/
def passed (t : Table) : Table :=
  slots.foldl (reparentOne initproc self) (wakeup1 t ((t self).parent.map .proc))

theorem foldl_reparentOne_wakes (l : List Slot) (t : Table) :
    Wakes t (l.foldl (reparentOne initproc self) t) := by
  induction l generalizing t with
  | nil => exact Wakes.refl t
  | cons a l ih => exact (reparentOne_wakes initproc self t a).trans (ih _)

theorem foldl_reparentOne_spec (hne : initproc ≠ self) (l : List Slot) (t : Table) (p : Slot) :
    (l.foldl (reparentOne initproc self) t p).parent =
        (if p ∈ l ∧ (t p).parent = some self then some initproc else (t p).parent) ∧
      (l.foldl (reparentOne initproc self) t p).chan = (t p).chan ∧
      (l.foldl (reparentOne initproc self) t p).pid = (t p).pid := by
  induction l generalizing t with
  | nil => simp
  | cons a l ih =>
    obtain ⟨hparent, hchan, hpid⟩ := reparentOne_spec initproc self t a p
    obtain ⟨ihparent, ihchan, ihpid⟩ := ih (reparentOne initproc self t a)
    rw [List.foldl_cons, ihparent, ihchan, ihpid, hchan, hpid, hparent]
    refine ⟨?_, rfl, rfl⟩
    by_cases hself : (t p).parent = some self
    · by_cases hpa : p = a
      · subst hpa
        simp [hself, hne]
      · simp [hself, hpa]
    · simp [hself]

theorem passed_wakes (t : Table) : Wakes t (passed initproc self t) :=
  (wakeup1_wakes _ _).trans (foldl_reparentOne_wakes initproc self _ _)

theorem passed_spec (hne : initproc ≠ self) (t : Table) (p : Slot) :
    (passed initproc self t p).parent =
        (if (t p).parent = some self then some initproc else (t p).parent) ∧
      (passed initproc self t p).chan = (t p).chan ∧
      (passed initproc self t p).pid = (t p).pid := by
  have h := foldl_reparentOne_spec initproc self hne slots
    (wakeup1 t ((t self).parent.map .proc)) p
  simpa [passed, wakeup1_parent, wakeup1_chan, wakeup1_pid, mem_slots] using h

theorem foldl_reparentOne_not_sleeping {l : List Slot} {t : Table} {chan : Chan}
    (h : ∀ p, (t p).chan = some chan → (t p).state ≠ .sleeping) (p : Slot)
    (hp : (t p).chan = some chan) : (l.foldl (reparentOne initproc self) t p).state ≠ .sleeping :=
  fun hs => h p hp ((foldl_reparentOne_wakes initproc self l t).sleeping hs)

/-- A zombie child that is passed on wakes init. -/
theorem foldl_reparentOne_wakes_init {l : List Slot} {t : Table} {z : Slot}
    (hz : z ∈ l) (hparent : (t z).parent = some self) (hzombie : (t z).state = .zombie) (p : Slot)
    (hp : (t p).chan = some (.proc initproc)) :
    (l.foldl (reparentOne initproc self) t p).state ≠ .sleeping := by
  induction l generalizing t with
  | nil => cases hz
  | cons a l ih =>
    rw [List.foldl_cons]
    obtain ⟨-, hchan, -⟩ := reparentOne_spec initproc self t a p
    by_cases hza : z = a
    · subst hza
      refine foldl_reparentOne_not_sleeping initproc self ?_ p (hchan.trans hp)
      intro q hq
      rw [reparentOne, if_pos hparent, if_pos hzombie] at hq ⊢
      exact wakeup1_not_sleeping _ _ q hq
    · have hmem : z ∈ l := (List.mem_cons.mp hz).resolve_left hza
      obtain ⟨hkeep, -, -⟩ := reparentOne_spec initproc self t a z
      refine ih hmem ?_ ?_ (hchan.trans hp)
      · rw [hkeep, if_neg (fun h => hza h.1), hparent]
      · rw [(reparentOne_wakes initproc self t a).eq_of_ne (by simp [hzombie]), hzombie]

theorem passed_wakes_parent {t : Table} {q : Slot}
    (hq : (t self).parent = some q) (p : Slot) (hp : (t p).chan = some (.proc q)) :
    (passed initproc self t p).state ≠ .sleeping := by
  refine foldl_reparentOne_not_sleeping initproc self ?_ p ((wakeup1_chan ..).trans hp)
  intro r hr
  rw [hq] at hr ⊢
  exact wakeup1_not_sleeping _ _ r hr

/-- `exit` leaves init not sleeping in `wait` if it passes a zombie on to it. -/
theorem passed_wakes_init {t : Table} {z : Slot}
    (hparent : (t z).parent = some self) (hzombie : (t z).state = .zombie) (p : Slot)
    (hp : (t p).chan = some (.proc initproc)) : (passed initproc self t p).state ≠ .sleeping := by
  refine foldl_reparentOne_wakes_init initproc self (mem_slots z) ?_ ?_ p ((wakeup1_chan ..).trans hp)
  · rw [wakeup1_parent, hparent]
  · rw [(wakeup1_wakes _ _).eq_of_ne (by simp [hzombie]), hzombie]

theorem exitTable_eq (t : Table) :
    exitTable initproc self t =
      update (passed initproc self t) self
        { passed initproc self t self with state := .zombie } := rfl

end Exit

/-- What `kill` does to a slot: nothing, or mark it and wake it. -/
theorem killTable_apply (pid : Int) (t : Table) (p : Slot) :
    killTable pid t p = t p ∨ killTable pid t p =
      { t p with killed := true,
                 state := if (t p).state = .sleeping then .runnable else (t p).state } := by
  unfold killTable
  cases slots.find? fun p => (t p).pid = pid with
  | none => exact Or.inl rfl
  | some q =>
    by_cases hp : p = q
    · subst hp
      exact Or.inr (update_self ..)
    · exact Or.inl (update_of_ne hp ..)

theorem killTable_wakes (pid : Int) (t : Table) : Wakes t (killTable pid t) := by
  intro p
  rcases killTable_apply pid t p with h | h
  · exact Or.inl (by rw [h])
  · rw [h]
    by_cases hs : (t p).state = .sleeping
    · exact Or.inr ⟨hs, if_pos hs⟩
    · exact Or.inl (if_neg hs)

end Xv6
