import Mathlib
import Xv6.LibRun

/-! Programs that work on a shared state by atomic operations, their sequential runs, and their
interleavings. The proof rule for interleavings gives every process a view: the part of the state, and
of a ghost state, that no step of another process changes. A program is safe for a view if each of
its operations, made in a state of the invariant, restores the invariant, leaves all other views as
they are, and leads to a view for which the rest is safe. -/

namespace LibProg

/-- A program: the value it returns, a message with which it stops for good, or an operation with what
follows for each of its results. -/
inductive Prog (Op : Type) (Res : Op → Type) (α : Type) : Type
  | ret (a : α)
  | panic (message : String)
  | op (o : Op) (k : Res o → Prog Op Res α)

namespace Prog

variable {Op : Type} {Res : Op → Type} {α β State : Type}

def bind (x : Prog Op Res α) (f : α → Prog Op Res β) : Prog Op Res β :=
  match x with
  | ret a => f a
  | panic message => panic message
  | op o k => op o fun r => bind (k r) f

instance : Monad (Prog Op Res) where
  pure := ret
  bind := bind

theorem bind_op (o : Op) (k : Res o → Prog Op Res α) (f : α → Prog Op Res β) :
    op o k >>= f = op o fun r => k r >>= f := rfl

/-- One operation. -/
def perform (o : Op) : Prog Op Res (Res o) := op o ret

/-- A program run alone, as long as none of its operations has to wait. -/
def run (exec : (o : Op) → State → Option (Res o × State)) :
    Prog Op Res α → State → Option (α × State)
  | ret a, s => some (a, s)
  | panic _, _ => none
  | op o k, s =>
    match exec o s with
    | some (r, t) => run exec (k r) t
    | none => none

section Run

variable {exec : (o : Op) → State → Option (Res o × State)} {s t : State}

@[simp] theorem run_pure (a : α) : run exec (pure a : Prog Op Res α) s = some (a, s) := rfl

theorem run_bind {x : Prog Op Res α} {f : α → Prog Op Res β} {a : α}
    (hx : run exec x s = some (a, t)) : run exec (x >>= f) s = run exec (f a) t := by
  induction x generalizing s with
  | ret b =>
    cases hx
    rfl
  | panic message => cases hx
  | op o k ih =>
    rw [run] at hx
    split at hx
    · rename_i r u hexec
      rw [bind_op, run, hexec]
      exact ih r hx
    · cases hx

theorem run_bind_some {x : Prog Op Res α} {f : α → Prog Op Res β} {b : β}
    (hrun : run exec (x >>= f) s = some (b, t)) :
    ∃ a u, run exec x s = some (a, u) ∧ run exec (f a) u = some (b, t) := by
  induction x generalizing s with
  | ret a => exact ⟨a, s, rfl, hrun⟩
  | panic message => cases hrun
  | op o k ih =>
    rw [bind_op, run] at hrun
    split at hrun
    · rename_i r u hexec
      rw [run, hexec]
      exact ih r hrun
    · cases hrun

theorem run_perform {o : Op} {r : Res o} (ho : exec o s = some (r, t)) :
    run exec (perform o : Prog Op Res (Res o)) s = some (r, t) := by
  rw [perform, run, ho]
  rfl

/-- The program, run alone, returns a value in a state as described. -/
def Returns (exec : (o : Op) → State → Option (Res o × State)) (post : α → State → Prop)
    (x : Prog Op Res α) (s : State) : Prop :=
  ∃ a t, run exec x s = some (a, t) ∧ post a t

theorem returns_pure {post : α → State → Prop} {a : α} (h : post a s) :
    Returns exec post (pure a : Prog Op Res α) s := ⟨a, s, rfl, h⟩

theorem Returns.seq {mid : α → State → Prop} {post : β → State → Prop} {x : Prog Op Res α}
    {f : α → Prog Op Res β} (hx : Returns exec mid x s)
    (hf : ∀ a t, mid a t → Returns exec post (f a) t) : Returns exec post (x >>= f) s := by
  obtain ⟨a, t, hrun, hmid⟩ := hx
  obtain ⟨b, u, hrest, hpost⟩ := hf a t hmid
  exact ⟨b, u, (run_bind hrun).trans hrest, hpost⟩

theorem Returns.mono {post post' : α → State → Prop} {x : Prog Op Res α} (hx : Returns exec post x s)
    (h : ∀ a t, post a t → post' a t) : Returns exec post' x s := by
  obtain ⟨a, t, hrun, hpost⟩ := hx
  exact ⟨a, t, hrun, h a t hpost⟩

theorem Returns.step {post : β → State → Prop} {o : Op} {r : Res o} {f : Res o → Prog Op Res β}
    (ho : exec o s = some (r, t)) (hf : Returns exec post (f r) t) :
    Returns exec post (perform o >>= f) s := by
  obtain ⟨b, u, hrest, hpost⟩ := hf
  exact ⟨b, u, (run_bind (run_perform ho)).trans hrest, hpost⟩

end Run

end Prog

/-- Processes that execute the code of calls. An operation may have to wait, and then has no result;
its input is what the environment decides. -/
structure System (Op : Type) (Res : Op → Type) (State Proc Input Call : Type) where
  exec : Proc → Input → (o : Op) → State → Option (Res o × State)
  code : Proc → Call → Prog Op Res Unit
  allowed : Proc → State → Call → Bool

variable {Op : Type} {Res : Op → Type} {State Proc Input Call Ghost View : Type}

/-- The shared state and what every process still has to do. -/
structure Config (Op : Type) (Res : Op → Type) (State Proc : Type) where
  state : State
  prog : Proc → Prog Op Res Unit

/-- A step: the next operation of a process, or the beginning of a call. -/
inductive Act (Proc Input Call : Type) where
  | run (p : Proc) (i : Input)
  | call (p : Proc) (c : Call)

section Semantics

variable [DecidableEq Proc] (sys : System Op Res State Proc Input Call)

def step (c : Config Op Res State Proc) : Act Proc Input Call → Option (Config Op Res State Proc)
  | .run p i =>
    match c.prog p with
    | .op o k =>
      match sys.exec p i o c.state with
      | some (r, t) => some ⟨t, Function.update c.prog p (k r)⟩
      | none => none
    | _ => none
  | .call p a =>
    match c.prog p with
    | .ret _ => if sys.allowed p c.state a then some ⟨c.state, Function.update c.prog p (sys.code p a)⟩
      else none
    | _ => none

/-- The configurations of the runs that begin, with all processes at rest, in a state of `init`. -/
def Reaches (init : State → Prop) : Config Op Res State Proc → Prop :=
  LibRun.Reachable (fun c => init c.state ∧ ∀ p, c.prog p = .ret ()) fun c d => ∃ a, step sys c a = some d

/-- A configuration after a list of steps. -/
def steps (c : Config Op Res State Proc) : List (Act Proc Input Call) → Option (Config Op Res State Proc)
  | [] => some c
  | a :: rest =>
    match step sys c a with
    | some d => steps d rest
    | none => none

theorem Reaches.steps {init : State → Prop} {c d : Config Op Res State Proc}
    (hc : Reaches sys init c) {acts : List (Act Proc Input Call)}
    (hacts : steps sys c acts = some d) : Reaches sys init d := by
  induction acts generalizing c with
  | nil => exact Option.some.inj hacts ▸ hc
  | cons a rest ih =>
    rw [LibProg.steps] at hacts
    split at hacts
    · rename_i e he
      exact ih (.next hc ⟨a, he⟩) hacts
    · cases hacts

theorem reaches_of_steps {init : State → Prop} {s : State} (hs : init s)
    {d : Config Op Res State Proc} {acts : List (Act Proc Input Call)}
    (hacts : steps sys ⟨s, fun _ => .ret ()⟩ acts = some d) : Reaches sys init d :=
  Reaches.steps sys (.start ⟨hs, fun _ => rfl⟩) hacts

end Semantics

/-- What a proof about a system chooses: an invariant over states and ghost states, the view of each
process, and the messages with which a process may stop. -/
structure Logic (State Ghost Proc View : Type) where
  inv : State → Ghost → Prop
  view : Proc → State → Ghost → View
  panics : String → Prop

section Safe

variable (sys : System Op Res State Proc Input Call) (logic : Logic State Ghost Proc View)

/-- An operation of a process that fits its view keeps the invariant and the views of the others, and
changes the view of the process as described. -/
def Spec (p : Proc) (o : Op) (pre : View → Prop) (post : View → Res o → View → Prop) : Prop :=
  ∀ s g, logic.inv s g → pre (logic.view p s g) → ∀ i r t, sys.exec p i o s = some (r, t) →
    ∃ h, logic.inv t h ∧ (∀ q, q ≠ p → logic.view q t h = logic.view q s g) ∧
      post (logic.view p s g) r (logic.view p t h)

/-- The program is safe for a view, and if it returns, then with a result and a view of `post`. -/
def Safe {α : Type} (p : Proc) (post : α → View → Prop) : Prog Op Res α → View → Prop
  | .ret a, v => post a v
  | .panic message, _ => logic.panics message
  | .op o k, v => Spec sys logic p o (· = v) fun _ r w => Safe p post (k r) w

variable {sys logic} {α β : Type} {p : Proc} {post : α → View → Prop} {v : View}

@[simp] theorem safe_pure {a : α} : Safe sys logic p post (pure a) v ↔ post a v := Iff.rfl

@[simp] theorem safe_panic {message : String} :
    Safe sys logic p post (.panic message) v ↔ logic.panics message := Iff.rfl

theorem Safe.mono {post' : α → View → Prop} {x : Prog Op Res α} (h : Safe sys logic p post x v)
    (hpost : ∀ a w, post a w → post' a w) : Safe sys logic p post' x v := by
  induction x generalizing v with
  | ret a => exact hpost a v h
  | panic message => exact h
  | op o k ih =>
    intro s g hinv hv i r t hexec
    obtain ⟨h', hinv', hothers, hrest⟩ := h s g hinv hv i r t hexec
    exact ⟨h', hinv', hothers, ih r hrest⟩

theorem Safe.bind {post : β → View → Prop} {x : Prog Op Res α} {f : α → Prog Op Res β}
    (h : Safe sys logic p (fun a w => Safe sys logic p post (f a) w) x v) :
    Safe sys logic p post (x >>= f) v := by
  induction x generalizing v with
  | ret a => exact h
  | panic message => exact h
  | op o k ih =>
    intro s g hinv hv i r t hexec
    obtain ⟨h', hinv', hothers, hrest⟩ := h s g hinv hv i r t hexec
    exact ⟨h', hinv', hothers, ih r hrest⟩

theorem Safe.seq {mid : α → View → Prop} {post : β → View → Prop} {x : Prog Op Res α}
    {f : α → Prog Op Res β} (hx : Safe sys logic p mid x v)
    (hf : ∀ a w, mid a w → Safe sys logic p post (f a) w) : Safe sys logic p post (x >>= f) v :=
  (hx.mono hf).bind

theorem Safe.perform {o : Op} {pre : View → Prop} {spec : View → Res o → View → Prop}
    (hspec : Spec sys logic p o pre spec) (hpre : pre v) :
    Safe sys logic p (spec v) (.perform o) v := by
  intro s g hinv hv i r t hexec
  obtain ⟨h, hinv', hothers, hpost⟩ := hspec s g hinv (hv ▸ hpre) i r t hexec
  exact ⟨h, hinv', hothers, hv ▸ hpost⟩

theorem Safe.step {o : Op} {pre : View → Prop} {spec : View → Res o → View → Prop}
    {k : Res o → Prog Op Res α} (hspec : Spec sys logic p o pre spec) (hpre : pre v)
    (hk : ∀ r w, spec v r w → Safe sys logic p post (k r) w) :
    Safe sys logic p post (.perform o >>= k) v :=
  (Safe.perform hspec hpre).seq hk

/-- The rule for interleavings: if every call is safe, whenever it may begin, for a process at rest,
then the invariant holds in every reachable configuration and all processes are safe there. -/
theorem Reaches.safe [DecidableEq Proc] {init : State → Prop} {rest : View → Prop}
    (hinit : ∀ s, init s → ∃ g, logic.inv s g ∧ ∀ p, rest (logic.view p s g))
    (hcalls : ∀ p s g a, logic.inv s g → rest (logic.view p s g) → sys.allowed p s a = true →
      Safe sys logic p (fun _ => rest) (sys.code p a) (logic.view p s g))
    {c : Config Op Res State Proc} (hc : Reaches sys init c) :
    ∃ g, logic.inv c.state g ∧
      ∀ p, Safe sys logic p (fun _ => rest) (c.prog p) (logic.view p c.state g) := by
  apply LibRun.Reachable.invariant _ _ hc
  · rintro c ⟨hs, hprog⟩
    obtain ⟨g, hinv, hrest⟩ := hinit c.state hs
    refine ⟨g, hinv, fun p => ?_⟩
    rw [hprog p]
    exact hrest p
  · rintro c d - ⟨g, hinv, hsafe⟩ ⟨a, hstep⟩
    cases a with
    | run p i =>
      rw [step] at hstep
      split at hstep
      · rename_i o k hprog
        split at hstep
        · rename_i r t hexec
          cases hstep
          have hp := hsafe p
          rw [hprog] at hp
          obtain ⟨h, hinv', hothers, hrest⟩ := hp c.state g hinv rfl i r t hexec
          refine ⟨h, hinv', fun q => ?_⟩
          by_cases hq : q = p
          · subst hq
            simpa using hrest
          · simpa [Function.update_of_ne hq, hothers q hq] using hsafe q
        · cases hstep
      · cases hstep
    | call p a =>
      rw [step] at hstep
      split at hstep
      · rename_i hprog
        split at hstep
        · rename_i hallowed
          cases hstep
          have hp := hsafe p
          rw [hprog] at hp
          refine ⟨g, hinv, fun q => ?_⟩
          by_cases hq : q = p
          · subst hq
            simpa using hcalls q c.state g a hinv hp hallowed
          · simpa [Function.update_of_ne hq] using hsafe q
        · cases hstep
      · cases hstep

end Safe

end LibProg
