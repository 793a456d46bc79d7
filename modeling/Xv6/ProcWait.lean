import Xv6.LibExcept
import Xv6.LibWord
import Xv6.ProcTable

/-! `wait` and `wait2`, with every store they make. `kfree` and `freevm` are parameters, on a memory of which nothing
is assumed; what others do while the process sleeps is a list of changes, one for each time it is woken. -/

namespace Xv6.Wait

open LibExcept

/-- `struct proc` with the fields of the memory subsystem that `wait` clears. -/
structure Entry extends Proc where
  kstack : Nat := 0
  pgdir : Nat := 0
  name : List UInt8 := []
  deriving DecidableEq

abbrev Entries := Slot → Entry

/-- The table, the memory, what has been stored through the pointers of the caller, the table and the memory at each
`sleep`, and the child that has been reaped with its slot as it was before. -/
structure World (M : Type) where
  proc : Entries
  mem : M
  stores : List (Nat × Int) := []
  sleeps : List (Entries × M) := []
  reaped : Option (Slot × Entry) := none

abbrev Code (M : Type) := StateT (World M) (Except String)

/-- What others do to the table and the memory during a sleep. -/
abbrev Change (M : Type) := Entries × M → Entries × M

variable {M : Type}

def World.setProc (w : World M) (p : Slot) (f : Entry → Entry) : World M :=
  { w with proc := Function.update w.proc p (f (w.proc p)) }

def setProc (p : Slot) (f : Entry → Entry) : Code M Unit := modify fun w => w.setProc p f

/-- `*address = value`. -/
def store (address : Nat) (value : Int) : Code M Unit :=
  modify fun w => { w with stores := w.stores ++ [(address, value)] }

/-- `kfree` or `freevm`. -/
def onMem (f : M → Except String M) : Code M Unit := fun w =>
  match f w.mem with
  | .ok m => .ok ((), { w with mem := m })
  | .error e => .error e

/-- `sleep(proc, &ptable.lock)`, up to the switch to the scheduler. -/
def fallAsleep (self : Slot) : Code M Unit :=
  modify fun w =>
    let w := w.setProc self fun e => { e with chan := some (.proc self), state := .sleeping }
    { w with sleeps := w.sleeps ++ [(w.proc, w.mem)] }

/-- The rest of `sleep`, after the process has been woken. -/
def awake (self : Slot) (change : Change M) : Code M Unit :=
  modify fun w =>
    let changed := change (w.proc, w.mem)
    World.setProc { w with proc := changed.1, mem := changed.2 } self fun e => { e with chan := none }

/-- What is known of the child before its slot is cleared. -/
def remember (p : Slot) : Code M Unit := modify fun w => { w with reaped := some (p, w.proc p) }

section Calls

variable (kfree freevm : Nat → M → Except String M)

/-- `wait`, when it has found a zombie. -/
def reap (p : Slot) : Code M Int := do
  remember p
  let pid := ((← get).proc p).pid
  onMem (kfree ((← get).proc p).kstack)
  setProc p fun e => { e with kstack := 0 }
  onMem (freevm ((← get).proc p).pgdir)
  setProc p fun e => { e with state := .unused }
  setProc p fun e => { e with pid := 0 }
  setProc p fun e => { e with parent := none }
  setProc p fun e => { e with name := e.name.set 0 0 }
  setProc p fun e => { e with killed := false }
  setProc p fun e => { e with rtime := 0 }
  setProc p fun e => { e with ctime := 0 }
  setProc p fun e => { e with etime := 0 }
  setProc p fun e => { e with priority := 0 }
  return pid

/-- The time a process has waited, with the wrapping differences of `int`s. -/
def waitTime (e : Entry) : Int := Int.bmod (Int.bmod (e.etime - e.ctime) (2 ^ 32) - e.rtime) (2 ^ 32)

/-- `wait2`, when it has found a zombie. -/
def reap2 (wtime rtime : Nat) (p : Slot) : Code M Int := do
  remember p
  store wtime (waitTime ((← get).proc p))
  store rtime ((← get).proc p).rtime
  setProc p fun e => { e with rtime := 0 }
  setProc p fun e => { e with ctime := 0 }
  setProc p fun e => { e with etime := 0 }
  let pid := ((← get).proc p).pid
  onMem (kfree ((← get).proc p).kstack)
  setProc p fun e => { e with kstack := 0 }
  onMem (freevm ((← get).proc p).pgdir)
  setProc p fun e => { e with state := .unused }
  setProc p fun e => { e with pid := 0 }
  setProc p fun e => { e with parent := none }
  setProc p fun e => { e with name := e.name.set 0 0 }
  setProc p fun e => { e with killed := false }
  setProc p fun e => { e with priority := 0 }
  return pid

/-- The `for` loop of `wait`: the pid of the reaped child, or `havekids`. -/
def scan (self : Slot) : List Slot → Bool → Code M (Int ⊕ Bool)
  | [], havekids => return .inr havekids
  | p :: rest, havekids => do
    if ((← get).proc p).parent ≠ some self then scan self rest havekids
    else if ((← get).proc p).state = .zombie then return .inl (← reap kfree freevm p)
    else scan self rest true

/-- The `for` loop of `wait2`. -/
def scan2 (wtime rtime : Nat) (self : Slot) : List Slot → Bool → Code M (Int ⊕ Bool)
  | [], havekids => return .inr havekids
  | p :: rest, havekids => do
    if ((← get).proc p).parent ≠ some self then scan2 wtime rtime self rest havekids
    else if ((← get).proc p).state = .zombie then return .inl (← reap2 kfree freevm wtime rtime p)
    else scan2 wtime rtime self rest true

/-- The body of the `for(;;)` of `wait`: the value it returns, or none when it has gone to sleep. -/
def waitOnce (self : Slot) : Code M (Option Int) := do
  match ← scan kfree freevm self slots false with
  | .inl pid => return some pid
  | .inr havekids =>
    if havekids = false ∨ ((← get).proc self).killed = true then return some (-1)
    else do
      fallAsleep self
      return none

/-- The body of the `for(;;)` of `wait2`. -/
def wait2Once (wtime rtime : Nat) (self : Slot) : Code M (Option Int) := do
  match ← scan2 kfree freevm wtime rtime self slots false with
  | .inl pid => return some pid
  | .inr havekids =>
    if havekids = false ∨ ((← get).proc self).killed = true then return some (-1)
    else do
      fallAsleep self
      return none

/-- `wait`; without a result it is asleep when the changes end. -/
def wait (self : Slot) : List (Change M) → Code M (Option Int)
  | [] => waitOnce kfree freevm self
  | change :: rest => do
    match ← waitOnce kfree freevm self with
    | some pid => return some pid
    | none => do
      awake self change
      wait self rest

/-- `wait2`. -/
def wait2 (wtime rtime : Nat) (self : Slot) : List (Change M) → Code M (Option Int)
  | [] => wait2Once kfree freevm wtime rtime self
  | change :: rest => do
    match ← wait2Once kfree freevm wtime rtime self with
    | some pid => return some pid
    | none => do
      awake self change
      wait2 wtime rtime self rest

end Calls

/-! Reaping. -/

variable {kfree freevm : Nat → M → Except String M} {wtime rtime : Nat} {self p : Slot} {w : World M}

/-- The slot of a reaped child. -/
def Entry.clear (e : Entry) : Entry := { e.toProc.clear with kstack := 0, pgdir := e.pgdir, name := e.name.set 0 0 }

/-- The world after the child has been reaped and the memory has become `m`. -/
def World.reap (w : World M) (p : Slot) (m : M) : World M :=
  { w with proc := Function.update w.proc p (w.proc p).clear, mem := m, reaped := some (p, w.proc p) }

/-- What `wait2` stores about the child that has been reaped. -/
def World.told (wtime rtime : Nat) (w : World M) : World M :=
  { w with stores := w.stores ++ w.reaped.elim [] fun x => [(wtime, waitTime x.2), (rtime, x.2.rtime)] }

section Run

variable {α β : Type} (f : α → Code M β) (g : Unit → Code M β) (h : World M → Code M β)

@[simp] theorem run_pure (a : α) : (pure a : Code M α) w = .ok (a, w) := rfl

@[simp] theorem bind_get : (get >>= h) w = h w w := rfl

@[simp] theorem bind_remember : (remember p >>= g) w = g () { w with reaped := some (p, w.proc p) } := rfl

@[simp] theorem bind_setProc (u : Entry → Entry) : (setProc p u >>= g) w = g () (w.setProc p u) := rfl

@[simp] theorem bind_store (address : Nat) (value : Int) :
    (store address value >>= g) w = g () { w with stores := w.stores ++ [(address, value)] } := rfl

@[simp] theorem bind_onMem (u : M → Except String M) :
    (onMem u >>= g) w = u w.mem >>= fun m => g () { w with mem := m } := by
  cases hu : u w.mem with
  | error e => exact run_bind_error (by rw [onMem, hu])
  | ok m => exact run_bind (by rw [onMem, hu])

@[simp] theorem setProc_self (u : Entry → Entry) : (w.setProc p u).proc p = u (w.proc p) := Function.update_self _ _ _

@[simp] theorem setProc_mem (u : Entry → Entry) : (w.setProc p u).mem = w.mem := rfl

@[simp] theorem setProc_setProc (u v : Entry → Entry) : (w.setProc p u).setProc p v = w.setProc p fun e => v (u e) := by
  rw [World.setProc, setProc_self, World.setProc, World.setProc, Function.update_idem]

@[simp] theorem setProc_withMem (u v : Entry → Entry) (m : M) :
    World.setProc { w.setProc p u with mem := m } p v = World.setProc { w with mem := m } p fun e => v (u e) :=
  setProc_setProc (w := { w with mem := m }) u v

end Run

theorem reap_run : reap kfree freevm p w =
    (do
      let m ← kfree (w.proc p).kstack w.mem
      let m ← freevm (w.proc p).pgdir m
      pure ((w.proc p).pid, w.reap p m)) := by
  -- The kernel would otherwise run the whole of `reap` to compare the two sides of a step.
  simp -implicitDefEqProofs only [reap, bind_get, bind_remember, bind_setProc, bind_onMem, setProc_self, setProc_mem,
    setProc_setProc, setProc_withMem, run_pure]
  rfl

theorem reap2_run : reap2 kfree freevm wtime rtime p w =
    (do
      let m ← kfree (w.proc p).kstack w.mem
      let m ← freevm (w.proc p).pgdir m
      pure ((w.proc p).pid, (w.reap p m).told wtime rtime)) := by
  simp -implicitDefEqProofs only [reap2, bind_get, bind_remember, bind_store, bind_setProc, bind_onMem, setProc_self,
    setProc_mem, setProc_setProc, setProc_withMem, run_pure, List.append_assoc, List.singleton_append]
  rfl

/-- A run of `wait2` as one of `wait`. -/
def tell {α : Type} (wtime rtime : Nat) (result : Except String (α × World M)) : Except String (α × World M) :=
  result.map fun r => (r.1, r.2.told wtime rtime)

theorem reap2_eq : reap2 kfree freevm wtime rtime p w = tell wtime rtime (reap kfree freevm p w) := by
  rw [reap_run, reap2_run]
  cases kfree (w.proc p).kstack w.mem with
  | error e => rfl
  | ok m =>
    show (freevm (w.proc p).pgdir m >>= _) = tell wtime rtime (freevm (w.proc p).pgdir m >>= _)
    cases freevm (w.proc p).pgdir m with
    | error e => rfl
    | ok m => rfl

/-! The loops. -/

theorem told_none (h : w.reaped = none) : w.told wtime rtime = w := by
  cases w
  simp_all [World.told]

theorem tell_ok {α : Type} {a : α} (h : w.reaped = none) :
    tell wtime rtime (.ok (a, w)) = (.ok (a, w) : Except String (α × World M)) := by
  show Except.ok (a, w.told wtime rtime) = _
  rw [told_none h]

theorem scan_cons {rest : List Slot} {havekids : Bool} : scan kfree freevm self (p :: rest) havekids w =
    if (w.proc p).parent ≠ some self then scan kfree freevm self rest havekids w
    else if (w.proc p).state = .zombie then (reap kfree freevm p >>= fun pid => pure (.inl pid)) w
    else scan kfree freevm self rest true w := by
  rw [scan, bind_get]
  split_ifs with hparent hzombie
  · rfl
  · rw [bind_get, if_pos hzombie]
  · rw [bind_get, if_neg hzombie]

theorem scan2_cons {rest : List Slot} {havekids : Bool} : scan2 kfree freevm wtime rtime self (p :: rest) havekids w =
    if (w.proc p).parent ≠ some self then scan2 kfree freevm wtime rtime self rest havekids w
    else if (w.proc p).state = .zombie then (reap2 kfree freevm wtime rtime p >>= fun pid => pure (.inl pid)) w
    else scan2 kfree freevm wtime rtime self rest true w := by
  rw [scan2, bind_get]
  split_ifs with hparent hzombie
  · rfl
  · rw [bind_get, if_pos hzombie]
  · rw [bind_get, if_neg hzombie]

/-- The scan reaps the first zombie child, as the process table has it. -/
theorem scan_found {l : List Slot} {havekids : Bool}
    (hfind : l.find? (fun p => (w.proc p).parent = some self ∧ (w.proc p).state = .zombie) = some p) :
    scan kfree freevm self l havekids w = (reap kfree freevm p >>= fun pid => pure (.inl pid)) w := by
  induction l generalizing havekids with
  | nil => cases hfind
  | cons q rest ih =>
    rw [List.find?_cons] at hfind
    rw [scan_cons]
    split_ifs with hparent hzombie
    · rw [decide_eq_false fun hand => hparent hand.1] at hfind
      exact ih hfind
    · rw [decide_eq_true ⟨not_not.mp hparent, hzombie⟩] at hfind
      rw [Option.some.inj hfind]
    · rw [decide_eq_false fun hand => hzombie hand.2] at hfind
      exact ih hfind

theorem waitOnce_reaps (hfind : findZombie self (fun p => (w.proc p).toProc) = some p) :
    waitOnce kfree freevm self w = (reap kfree freevm p >>= fun pid => pure (some pid)) w := by
  have hscan : scan kfree freevm self slots false w = _ := scan_found hfind
  cases hreap : reap kfree freevm p w with
  | error e =>
    rw [run_bind_error hreap] at hscan ⊢
    rw [waitOnce, run_bind_error hscan]
  | ok r =>
    rw [run_bind hreap] at hscan ⊢
    rw [waitOnce, run_bind hscan]

/-- A scan that reaps nobody changes nothing. -/
theorem scan_inr {u : World M} {havekids b : Bool} {l : List Slot}
    (h : scan kfree freevm self l havekids w = .ok (.inr b, u)) : u = w := by
  induction l generalizing havekids with
  | nil =>
    cases h
    rfl
  | cons p rest ih =>
    rw [scan_cons] at h
    split_ifs at h
    · exact ih h
    · cases hreap : reap kfree freevm p w with
      | error e =>
        rw [run_bind_error hreap] at h
        cases h
      | ok r =>
        rw [run_bind hreap] at h
        cases h
    · exact ih h

theorem scan2_eq (h : w.reaped = none) (l : List Slot) (havekids : Bool) :
    scan2 kfree freevm wtime rtime self l havekids w = tell wtime rtime (scan kfree freevm self l havekids w) := by
  induction l generalizing havekids with
  | nil => exact (tell_ok h).symm
  | cons p rest ih =>
    rw [scan_cons, scan2_cons]
    split_ifs
    · exact ih havekids
    · have hreap2 : reap2 kfree freevm wtime rtime p w = tell wtime rtime (reap kfree freevm p w) := reap2_eq
      cases hreap : reap kfree freevm p w with
      | error e =>
        rw [hreap] at hreap2
        rw [run_bind_error hreap, run_bind_error hreap2]
        rfl
      | ok r =>
        rw [hreap] at hreap2
        rw [run_bind hreap, run_bind hreap2]
        rfl
    · exact ih true

/-- What is left to do after a scan that has reaped nobody. -/
theorem waitOnce_none {u : World M} (h : w.reaped = none) (hrun : waitOnce kfree freevm self w = .ok (none, u)) :
    u.reaped = none := by
  cases hscan : scan kfree freevm self slots false w with
  | error e =>
    rw [waitOnce, run_bind_error hscan] at hrun
    cases hrun
  | ok r =>
    obtain ⟨found, v⟩ := r
    rw [waitOnce, run_bind hscan] at hrun
    cases found with
    | inl pid => cases hrun
    | inr havekids =>
      rw [scan_inr hscan] at hrun
      simp only [bind_get] at hrun
      split_ifs at hrun
      · cases hrun
      · cases hrun
        exact h

theorem wait2Once_eq (h : w.reaped = none) :
    wait2Once kfree freevm wtime rtime self w = tell wtime rtime (waitOnce kfree freevm self w) := by
  have hscan2 : scan2 kfree freevm wtime rtime self slots false w = _ := scan2_eq h slots false
  cases hscan : scan kfree freevm self slots false w with
  | error e =>
    rw [hscan] at hscan2
    rw [waitOnce, wait2Once, run_bind_error hscan, run_bind_error hscan2]
    rfl
  | ok r =>
    obtain ⟨found, v⟩ := r
    rw [hscan] at hscan2
    rw [waitOnce, wait2Once, run_bind hscan, run_bind hscan2]
    cases found with
    | inl pid => rfl
    | inr havekids =>
      rw [scan_inr hscan, told_none h]
      simp only [bind_get]
      split_ifs
      · exact (tell_ok h).symm
      · exact (tell_ok (show World.reaped { w.setProc self _ with sleeps := _ } = none from h)).symm

/-- For every table, memory and sequence of changes, `wait2` does what `wait` does, and stores the times of the child
that has been reaped. -/
theorem wait2_agrees (kfree freevm : Nat → M → Except String M) (wtime rtime : Nat) (self : Slot)
    (changes : List (Change M)) (proc : Entries) (mem : M) :
    wait2 kfree freevm wtime rtime self changes { proc := proc, mem := mem } =
      (wait kfree freevm self changes { proc := proc, mem := mem }).map fun r => (r.1, r.2.told wtime rtime) := by
  have hrun : ∀ w : World M, w.reaped = none → wait2 kfree freevm wtime rtime self changes w =
      tell wtime rtime (wait kfree freevm self changes w) := by
    induction changes with
    | nil => exact fun w h => wait2Once_eq h
    | cons change rest ih =>
      intro w h
      have honce2 : wait2Once kfree freevm wtime rtime self w = _ := wait2Once_eq h
      cases honce : waitOnce kfree freevm self w with
      | error e =>
        rw [honce] at honce2
        rw [wait, wait2, run_bind_error honce, run_bind_error honce2]
        rfl
      | ok r =>
        obtain ⟨result, u⟩ := r
        rw [honce] at honce2
        rw [wait, wait2, run_bind honce, run_bind honce2]
        cases result with
        | some pid => rfl
        | none =>
          have hu := waitOnce_none h honce
          rw [told_none hu]
          exact ih _ hu
  exact hrun _ rfl

end Xv6.Wait
