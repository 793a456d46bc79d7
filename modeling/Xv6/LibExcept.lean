import Mathlib

/-! Programs that return a value or stop with an error: what holds of the value, and which errors can
occur. The second part is about such programs with a state. -/

namespace LibExcept

variable {ε α β : Type} {allowed : ε → Prop} {Q : α → Prop} {R : β → Prop}

/-- The program returns a value with the property, or stops with an allowed error. -/
def Ends (allowed : ε → Prop) (Q : α → Prop) : Except ε α → Prop
  | .ok a => Q a
  | .error e => allowed e

theorem ends_ok {a : α} (h : Q a) : Ends allowed Q (.ok a) := h

theorem ends_error {e : ε} (h : allowed e) : Ends allowed Q (.error e) := h

theorem Ends.mono {x : Except ε α} {Q' : α → Prop} (h : Ends allowed Q x) (hQ : ∀ a, Q a → Q' a) :
    Ends allowed Q' x := by
  cases x with
  | ok a => exact hQ a h
  | error e => exact h

theorem Ends.bind {x : Except ε α} {f : α → Except ε β} (h : Ends allowed Q x)
    (hf : ∀ a, Q a → Ends allowed R (f a)) : Ends allowed R (x >>= f) := by
  cases x with
  | ok a => exact hf a h
  | error e => exact h

theorem Ends.ok {x : Except ε α} {a : α} (h : Ends allowed Q x) (hx : x = .ok a) : Q a := by
  rw [hx] at h
  exact h

theorem bind_ok {x : Except ε α} {f : α → Except ε β} {a : α} (h : x = .ok a) :
    (x >>= f) = f a := by
  rw [h]
  rfl

/-- The program returns, with a value as described, exactly under the condition; otherwise it stops with the error. -/
structure Exactly (c : Prop) (e : ε) (Q : α → Prop) (x : Except ε α) : Prop where
  ok : c → ∃ a, x = .ok a ∧ Q a
  error : ¬ c → x = .error e

section Exactly

variable {c d : Prop} {e : ε} {x : Except ε α} {f : α → Except ε β}

theorem exactly_pure {a : α} (h : Q a) : Exactly True e Q (.ok a) :=
  ⟨fun _ => ⟨a, rfl, h⟩, fun hfalse => absurd trivial hfalse⟩

theorem exactly_ite [Decidable c] {a : α} (h : c → Q a) : Exactly c e Q (if c then .ok a else .error e) :=
  ⟨fun hc => ⟨a, if_pos hc, h hc⟩, fun hc => if_neg hc⟩

theorem Exactly.bind (h : Exactly c e Q x) (hf : ∀ a, Q a → Exactly d e R (f a)) : Exactly (c ∧ d) e R (x >>= f) := by
  constructor
  · rintro ⟨hc, hd⟩
    obtain ⟨a, hx, ha⟩ := h.ok hc
    rw [bind_ok hx]
    exact (hf a ha).ok hd
  · intro hnot
    by_cases hc : c
    · obtain ⟨a, hx, ha⟩ := h.ok hc
      rw [bind_ok hx]
      exact (hf a ha).error fun hd => hnot ⟨hc, hd⟩
    · rw [h.error hc]
      rfl

theorem Exactly.congr (h : Exactly c e Q x) (hiff : c ↔ d) : Exactly d e Q x :=
  ⟨fun hd => h.ok (hiff.mpr hd), fun hd => h.error fun hc => hd (hiff.mp hc)⟩

theorem Exactly.mono {Q' : α → Prop} (h : Exactly c e Q x) (hQ : ∀ a, Q a → Q' a) : Exactly c e Q' x := by
  refine ⟨fun hc => ?_, h.error⟩
  obtain ⟨a, hx, ha⟩ := h.ok hc
  exact ⟨a, hx, hQ a ha⟩

end Exactly

section State

variable {σ : Type} {x : StateT σ (Except ε) α} {f : α → StateT σ (Except ε) β} {s t : σ} {a : α} {e : ε}
  {mid : α → σ → Prop} {post : β → σ → Prop}

theorem run_bind (hx : x s = .ok (a, t)) : (x >>= f) s = f a t := by
  show (x s >>= fun y => f y.1 y.2) = _
  rw [hx]
  rfl

theorem run_bind_error (hx : x s = .error e) : (x >>= f) s = .error e := by
  show (x s >>= fun y => f y.1 y.2) = _
  rw [hx]
  rfl

/-- The program returns a value and a state as described. -/
def Returns (post : α → σ → Prop) (x : StateT σ (Except ε) α) (s : σ) : Prop :=
  ∃ a t, x s = .ok (a, t) ∧ post a t

theorem returns_pure (h : mid a s) : Returns mid (pure a : StateT σ (Except ε) α) s := ⟨a, s, rfl, h⟩

theorem Returns.seq (hx : Returns mid x s) (hf : ∀ a t, mid a t → Returns post (f a) t) :
    Returns post (x >>= f) s := by
  obtain ⟨a, t, hrun, hmid⟩ := hx
  obtain ⟨b, u, hrest, hpost⟩ := hf a t hmid
  exact ⟨b, u, (run_bind hrun).trans hrest, hpost⟩

theorem Returns.of_run (hx : Returns mid x s) (hrun : x s = .ok (a, t)) : mid a t := by
  obtain ⟨a', t', hrun', hmid⟩ := hx
  rw [hrun'] at hrun
  obtain ⟨rfl, rfl⟩ := Prod.mk.inj (Except.ok.inj hrun)
  exact hmid

theorem Returns.seq_error (hx : Returns mid x s) (hf : ∀ a t, mid a t → f a t = .error e) :
    (x >>= f) s = .error e := by
  obtain ⟨a, t, hrun, hmid⟩ := hx
  exact (run_bind hrun).trans (hf a t hmid)

theorem Returns.mono {mid' : α → σ → Prop} (hx : Returns mid x s) (h : ∀ a t, mid a t → mid' a t) :
    Returns mid' x s := by
  obtain ⟨a, t, hrun, hmid⟩ := hx
  exact ⟨a, t, hrun, h a t hmid⟩

/-- What holds of the value and the state when the program returns, with the errors it may stop with. -/
def Leads (allowed : ε → Prop) (post : α → σ → Prop) (x : StateT σ (Except ε) α) (s : σ) : Prop :=
  Ends allowed (fun y => post y.1 y.2) (x s)

theorem leads_pure (h : mid a s) : Leads allowed mid (pure a : StateT σ (Except ε) α) s := h

theorem Leads.seq (hx : Leads allowed mid x s) (hf : ∀ a t, mid a t → Leads allowed post (f a) t) :
    Leads allowed post (x >>= f) s :=
  Ends.bind hx fun y hy => hf y.1 y.2 hy

theorem Leads.andThen (hx : Leads allowed (fun _ _ => True) x s) (hf : ∀ a t, Leads allowed post (f a) t) :
    Leads allowed post (x >>= f) s :=
  hx.seq fun a t _ => hf a t

theorem Returns.leads (hx : Returns mid x s) : Leads allowed mid x s := by
  obtain ⟨a, t, hrun, hmid⟩ := hx
  unfold Leads
  rw [hrun]
  exact hmid

theorem Leads.congr {y : StateT σ (Except ε) α} (h : x s = y t) (hy : Leads allowed mid y t) :
    Leads allowed mid x s := by
  unfold Leads
  rw [h]
  exact hy

theorem Leads.attach (hx : Leads allowed mid x s) : Leads allowed (fun a t => x s = .ok (a, t) ∧ mid a t) x s := by
  unfold Leads at *
  cases hrun : x s with
  | error e =>
    rw [hrun] at hx
    exact hx
  | ok y =>
    rw [hrun] at hx
    exact ⟨rfl, hx⟩

theorem Leads.mono {mid' : α → σ → Prop} (hx : Leads allowed mid x s) (h : ∀ a t, mid a t → mid' a t) :
    Leads allowed mid' x s :=
  Ends.mono hx fun y hy => h y.1 y.2 hy

end State

end LibExcept
