import Xv6.Buffers
import Xv6.LibQueue

/-! The steps of the buffer cache and the disk driver one by one, and who owns a buffer: a process that is working on it
or that `bread` has returned it to. A buffer has at most one owner, and it is busy as long as it has one; who sleeps on
a buffer sleeps on a busy one. -/

namespace Xv6.Buffers

open LibQueue Function

variable {Data Proc : Type} [DecidableEq Proc] {s t : State Data Proc} {a : Act Data Proc}
  {new : List (Event Data Proc)} {p q : Proc} {b c : Buf} {x : Task}

/-! What a step can be. -/

/-- The steps, each with what is known of the state before. -/
inductive Move (s : State Data Proc) : Act Data Proc → State Data Proc → List (Event Data Proc) → Prop
  | call {p : Proc} {dev sector : Nat} (hidle : s.task p = .idle) :
      Move s (.bread p dev sector) (s.setTask p (.bget dev sector)) []
  | panic {a : Act Data Proc} {p : Proc} {message : String}
      (htask : s.task p = .idle ∨ s.asleep p = none ∧ ∀ b caller, s.task p ≠ .work b (.wait caller)) :
      Move s a (s.setTask p (.panic message)) []
  | hit {p : Proc} {dev sector : Nat} {b : Buf} (hawake : s.asleep p = none) (htask : s.task p = .bget dev sector)
      (hfind : s.order.find? (fun b => (s.buf b).dev = dev ∧ (s.buf b).sector = sector) = some b)
      (hfree : (s.buf b).busy = false) :
      Move s (.run p) ((s.setBuf b { s.buf b with busy := true }).setTask p (.work b .test)) []
  | doze {p : Proc} {dev sector : Nat} {b : Buf} (hawake : s.asleep p = none) (htask : s.task p = .bget dev sector)
      (hbusy : (s.buf b).busy = true) : Move s (.run p) (s.sleep p b) []
  | recycle {p : Proc} {dev sector : Nat} {b : Buf} (hawake : s.asleep p = none) (htask : s.task p = .bget dev sector)
      (hfind : s.order.find? (fun b => (s.buf b).dev = dev ∧ (s.buf b).sector = sector) = none)
      (hfree : (s.buf b).busy = false) :
      Move s (.run p) ((s.setBuf b
        { s.buf b with dev := dev, sector := sector, busy := true, valid := false, dirty := false }).setTask
          p (.work b .test)) [.recycle b]
  | miss {p : Proc} {b : Buf} (hawake : s.asleep p = none) (htask : s.task p = .work b .test)
      (hvalid : (s.buf b).valid = false) : Move s (.run p) (s.setTask p (.work b (.iderw .bread))) []
  | ready {p : Proc} {b : Buf} (hawake : s.asleep p = none) (htask : s.task p = .work b .test)
      (hvalid : (s.buf b).valid = true) :
      Move s (.run p) { s.setTask p .idle with held := update s.held p (b :: s.held p) }
        [.bread p (s.buf b).dev (s.buf b).sector (s.buf b).data]
  | enqueue {p : Proc} {b : Buf} {caller : Caller} {u : State Data Proc} (hawake : s.asleep p = none)
      (htask : s.task p = .work b (.iderw caller)) (hpending : ¬ ((s.buf b).valid = true ∧ (s.buf b).dirty = false))
      (happend : append b s = some u) :
      Move s (.run p) (((if u.idequeue = some b then idestart b u else u).setTask p (.work b (.wait caller))).sleep p b)
        (.enqueue b :: if u.idequeue = some b then [.start b] else [])
  | again {p : Proc} {b : Buf} {caller : Caller} (hawake : s.asleep p = none)
      (htask : s.task p = .work b (.wait caller)) (hpending : ¬ ((s.buf b).valid = true ∧ (s.buf b).dirty = false)) :
      Move s (.run p) (s.sleep p b) []
  | finish {p : Proc} {b : Buf} {caller : Caller} (hawake : s.asleep p = none)
      (htask : s.task p = .work b (.wait caller)) (hdone : (s.buf b).valid = true ∧ (s.buf b).dirty = false) :
      Move s (.run p) (iderwReturn p b caller s).1 (iderwReturn p b caller s).2
  | release {p : Proc} {b : Buf} (hawake : s.asleep p = none) (htask : s.task p = .work b .brelse) :
      Move s (.run p) (brelse p b s) []
  | write {p : Proc} {b : Buf} (hidle : s.task p = .idle) (hheld : b ∈ s.held p) :
      Move s (.bwrite p b)
        { (s.setBuf b { s.buf b with dirty := true }).setTask p (.work b (.iderw .bwrite)) with
          changed := update s.changed b false }
        [.bwrite b (s.buf b).dev (s.buf b).sector (s.buf b).data]
  | letGo {p : Proc} {b : Buf} (hidle : s.task p = .idle) (hheld : b ∈ s.held p) :
      Move s (.brelse p b)
        { s.setTask p (.work b .brelse) with held := update s.held p ((s.held p).erase b) } []
  | change {p : Proc} {b : Buf} {data : Data} (hidle : s.task p = .idle) (hheld : b ∈ s.held p) :
      Move s (.change p b data)
        { s.setBuf b { s.buf b with data := data } with changed := update s.changed b true } [.change b]
  | interrupt {status : Nat} {cmd : Command Data} (hdevice : s.device = some cmd) :
      Move s (.ideintr status) (ideintr cmd status s).1 (ideintr cmd status s).2

theorem setTask_self (h : s.task p = x) : s.setTask p x = s := by
  rw [State.setTask, ← h, update_eq_self]

theorem bget_move {dev sector : Nat} (hawake : s.asleep p = none) (htask : s.task p = .bget dev sector) :
    Move s (.run p) (bget p dev sector s).1 (bget p dev sector s).2 := by
  unfold bget
  cases hfind : s.order.find? fun b => (s.buf b).dev = dev ∧ (s.buf b).sector = sector with
  | some b =>
    by_cases hbusy : (s.buf b).busy = false
    · simp only [if_pos hbusy]
      exact .hit hawake htask hfind hbusy
    · simp only [if_neg hbusy]
      exact .doze hawake htask (Bool.eq_true_of_not_eq_false hbusy)
  | none =>
    cases hlast : s.order.reverse.find? fun b => (s.buf b).busy = false with
    | some b => exact .recycle hawake htask hfind (by simpa using List.find?_some hlast)
    | none =>
      refine .panic (.inr ⟨hawake, fun b caller hwait => ?_⟩)
      rw [htask] at hwait
      cases hwait

theorem iderwWait_move {caller : Caller} (hawake : s.asleep p = none) (htask : s.task p = .work b (.wait caller)) :
    Move s (.run p) (iderwWait p b caller s).1 (iderwWait p b caller s).2 := by
  unfold iderwWait
  by_cases hdone : (s.buf b).valid = true ∧ (s.buf b).dirty = false
  · rw [if_pos hdone]
    exact .finish hawake htask hdone
  · rw [if_neg hdone, setTask_self htask]
    exact .again hawake htask hdone

/-- The state with other links of the disk queue. -/
def State.withQueue (s : State Data Proc) (first : Option Buf) (qnext : Buf → Option Buf) : State Data Proc :=
  { s with idequeue := first, buf := fun c => { s.buf c with qnext := qnext c } }

/-- The links of the disk queue. -/
def State.links (s : State Data Proc) : Buf → Option Buf := fun c => (s.buf c).qnext

omit [DecidableEq Proc] in
theorem setLink_eq (first : Option Buf) (qnext : Buf → Option Buf) (c : Buf) (next : Option Buf) :
    (s.withQueue first qnext).setBuf c { (s.withQueue first qnext).buf c with qnext := next } =
      s.withQueue first (update qnext c next) := by
  unfold State.setBuf State.withQueue
  congr 1
  funext d
  by_cases hd : d = c
  · subst hd
    rw [update_self, update_self]
  · rw [update_of_ne hd, update_of_ne hd]

theorem lastOf_eq (qnext : Buf → Option Buf) (fuel : Nat) (b : Buf) : lastOf qnext fuel b = last qnext fuel b := by
  induction fuel generalizing b with
  | zero => rfl
  | succ fuel ih =>
    rw [lastOf, last]
    cases qnext b with
    | none => rfl
    | some c => exact ih c

omit [DecidableEq Proc] in
/-- Appending changes nothing but the links of the queue. -/
theorem append_none (b : Buf) (h : s.idequeue = none) :
    append b s = some (s.withQueue (some b) (update s.links b none)) := by
  have hlink : s.setBuf b { s.buf b with qnext := none } = s.withQueue s.idequeue (update s.links b none) :=
    setLink_eq s.idequeue s.links b none
  rw [append, hlink, h]
  rfl

omit [DecidableEq Proc] in
theorem append_some {head : Buf} (b : Buf) (h : s.idequeue = some head) :
    append b s = (last (update s.links b none) (NBUF + 1) head).map fun c =>
      s.withQueue (some head) (update (update s.links b none) c (some b)) := by
  have hlink : s.setBuf b { s.buf b with qnext := none } = s.withQueue s.idequeue (update s.links b none) :=
    setLink_eq s.idequeue s.links b none
  rw [append, hlink, h]
  show (lastOf (update s.links b none) (NBUF + 1) head).map _ = _
  rw [lastOf_eq]
  refine congrArg (fun f => Option.map f _) ?_
  funext c
  exact setLink_eq _ _ _ _

omit [DecidableEq Proc] in
theorem append_eq {u : State Data Proc} (h : append b s = some u) : ∃ first qnext, u = s.withQueue first qnext := by
  cases hfirst : s.idequeue with
  | none =>
    rw [append_none b hfirst] at h
    exact ⟨_, _, (Option.some.inj h).symm⟩
  | some head =>
    rw [append_some b hfirst] at h
    obtain ⟨c, -, rfl⟩ := Option.map_eq_some_iff.mp h
    exact ⟨_, _, rfl⟩

theorem iderw_move {caller : Caller} (hawake : s.asleep p = none) (htask : s.task p = .work b (.iderw caller))
    (h : iderw p b caller s = some (t, new)) : Move s (.run p) t new := by
  have hpanic : ∀ message, Move s (.run p) (s.setTask p (.panic message)) [] := by
    refine fun message => .panic (.inr ⟨hawake, fun b caller hwait => ?_⟩)
    rw [htask] at hwait
    cases hwait
  unfold iderw at h
  dsimp only at h
  split_ifs at h with hbusy hdone hdisk
  · obtain ⟨rfl, rfl⟩ := Prod.mk.inj (Option.some.inj h)
    exact hpanic _
  · obtain ⟨rfl, rfl⟩ := Prod.mk.inj (Option.some.inj h)
    exact hpanic _
  · obtain ⟨rfl, rfl⟩ := Prod.mk.inj (Option.some.inj h)
    exact hpanic _
  · obtain ⟨u, happend, heq⟩ := Option.map_eq_some_iff.mp h
    have hmove := Move.enqueue hawake htask hdone happend
    obtain ⟨first, qnext, rfl⟩ := append_eq happend
    have hpending : ¬ ((((if (s.withQueue first qnext).idequeue = some b then idestart b (s.withQueue first qnext)
        else s.withQueue first qnext)).buf b).valid = true ∧ (((if (s.withQueue first qnext).idequeue = some b then
          idestart b (s.withQueue first qnext) else s.withQueue first qnext)).buf b).dirty = false) := by
      split_ifs
      · exact hdone
      · exact hdone
    rw [iderwWait, if_neg hpending, List.append_nil] at heq
    obtain ⟨rfl, rfl⟩ := Prod.mk.inj heq
    exact hmove

theorem run_move (h : run p s = some (t, new)) : Move s (.run p) t new := by
  rw [run] at h
  split_ifs at h with hawake
  cases htask : s.task p with
  | idle =>
    rw [htask] at h
    cases h
  | panic message =>
    rw [htask] at h
    cases h
  | bget dev sector =>
    rw [htask] at h
    obtain ⟨rfl, rfl⟩ := Prod.mk.inj (Option.some.inj h)
    exact bget_move hawake htask
  | work b place =>
    rw [htask] at h
    cases place with
    | test =>
      have hmove : Move s (.run p) (breadTest p b s).1 (breadTest p b s).2 := by
        unfold breadTest
        by_cases hvalid : (s.buf b).valid = false
        · rw [if_pos hvalid]
          exact .miss hawake htask hvalid
        · rw [if_neg hvalid]
          exact .ready hawake htask (Bool.eq_true_of_not_eq_false hvalid)
      obtain ⟨rfl, rfl⟩ := Prod.mk.inj (Option.some.inj h)
      exact hmove
    | iderw caller => exact iderw_move hawake htask h
    | wait caller =>
      have hmove := iderwWait_move hawake htask
      rw [Option.some.inj h] at hmove
      exact hmove
    | brelse =>
      obtain ⟨rfl, rfl⟩ := Prod.mk.inj (Option.some.inj h)
      exact .release hawake htask

theorem step_move (h : step s a = some (t, new)) : Move s a t new := by
  cases a with
  | bread p dev sector =>
    simp only [step] at h
    split_ifs at h with hidle
    obtain ⟨rfl, rfl⟩ := Prod.mk.inj (Option.some.inj h)
    exact .call hidle
  | bwrite p b =>
    simp only [step] at h
    split_ifs at h with hcond
    rw [bwrite] at h
    split_ifs at h with hbusy
    · obtain ⟨rfl, rfl⟩ := Prod.mk.inj (Option.some.inj h)
      exact .panic (.inl hcond.1)
    · obtain ⟨rfl, rfl⟩ := Prod.mk.inj (Option.some.inj h)
      exact .write hcond.1 hcond.2
  | brelse p b =>
    simp only [step] at h
    split_ifs at h with hcond
    rw [brelseTest] at h
    split_ifs at h with hbusy
    · obtain ⟨rfl, rfl⟩ := Prod.mk.inj (Option.some.inj h)
      exact .panic (.inl hcond.1)
    · obtain ⟨rfl, rfl⟩ := Prod.mk.inj (Option.some.inj h)
      exact .letGo hcond.1 hcond.2
  | change p b data =>
    simp only [step] at h
    split_ifs at h with hcond
    obtain ⟨rfl, rfl⟩ := Prod.mk.inj (Option.some.inj h)
    exact .change hcond.1 hcond.2
  | run p => exact run_move h
  | ideintr status =>
    simp only [step] at h
    split_ifs at h with hready
    obtain ⟨cmd, hdevice, heq⟩ := Option.map_eq_some_iff.mp h
    have hmove : Move s (.ideintr status) (ideintr cmd status s).1 (ideintr cmd status s).2 := .interrupt hdevice
    rw [heq] at hmove
    exact hmove

/-- The buffer at the head of the queue after an interrupt. -/
def State.served (s : State Data Proc) (cmd : Command Data) (status : Nat) (b : Buf) : Slot Data :=
  { s.buf b with
    data := if (s.buf b).dirty = false ∧ idewait true status ≥ 0 then transfer cmd status s.disk cmd.drive cmd.lba
      else (s.buf b).data
    valid := true
    dirty := false }

omit [DecidableEq Proc] in
theorem ideintr_none {cmd : Command Data} {status : Nat} (h : s.idequeue = none) :
    ideintr cmd status s = ({ s with device := none, disk := transfer cmd status s.disk }, []) := by
  simp only [ideintr, h]

omit [DecidableEq Proc] in
theorem ideintr_some {cmd : Command Data} {status : Nat} (h : s.idequeue = some b) :
    ideintr cmd status s =
      ({ s with
          disk := transfer cmd status s.disk
          idequeue := (s.buf b).qnext
          buf := update s.buf b (s.served cmd status b)
          asleep := LibSleep.wakeup b s.asleep
          device := (s.buf b).qnext.map fun c => (update s.buf b (s.served cmd status b) c).command },
        .complete b :: (if (s.buf b).dirty then [] else [.fill b (transfer cmd status s.disk cmd.drive cmd.lba)]) ++
          ((s.buf b).qnext.map .start).toList) := by
  cases hnext : (s.buf b).qnext with
  | none =>
    simp only [ideintr, h, State.setBuf, State.wakeup, hnext, State.served, Option.map_none, Option.toList_none,
      List.append_nil]
  | some c =>
    simp only [ideintr, h, State.setBuf, State.wakeup, hnext, State.served, Option.map_some, Option.toList_some,
      idestart]

/-! Owners. -/

/-- The process is working on the buffer or has been given it by `bread`. -/
def State.owns (s : State Data Proc) (p : Proc) (b : Buf) : Prop :=
  b ∈ s.held p ∨ ∃ place, s.task p = .work b place

/-- The places inside `bwrite`, in which the process keeps the buffer it has been given. -/
def Place.writing : Place → Prop
  | .iderw .bwrite => True
  | .wait .bwrite => True
  | _ => False

structure Owners (s : State Data Proc) : Prop where
  busy : ∀ p b, s.owns p b → (s.buf b).busy = true
  unique : ∀ p q b, s.owns p b → s.owns q b → p = q
  nodup : ∀ p, (s.held p).Nodup
  fresh : ∀ p b place, s.task p = .work b place → (b ∈ s.held p ↔ place.writing)
  asleep : ∀ p b, s.asleep p = some b → (s.buf b).busy = true ∧
    ((∃ dev sector, s.task p = .bget dev sector) ∨ ∃ caller, s.task p = .work b (.wait caller))

omit [DecidableEq Proc] in
theorem owns_congr (htask : t.task p = s.task p) (hheld : t.held p = s.held p) : t.owns p b ↔ s.owns p b := by
  rw [State.owns, State.owns, htask, hheld]

/-- A step of one process, which may take buffers that were free and release buffers that it owned. -/
structure OwnMove (s t : State Data Proc) (p : Proc) : Prop where
  task : ∀ q, q ≠ p → t.task q = s.task q
  held : ∀ q, q ≠ p → t.held q = s.held q
  takes : ∀ b, t.owns p b → (t.buf b).busy = true ∧ (s.owns p b ∨ (s.buf b).busy = false)
  keeps : ∀ b, (s.buf b).busy = true → (t.buf b).busy = true ∨
    s.owns p b ∧ ¬ t.owns p b ∧ ∀ q, t.asleep q ≠ some b
  nodup : (t.held p).Nodup
  fresh : ∀ b place, t.task p = .work b place → (b ∈ t.held p ↔ place.writing)
  others : ∀ q b, q ≠ p → t.asleep q = some b → s.asleep q = some b
  asleep : ∀ b, t.asleep p = some b → (t.buf b).busy = true ∧
    ((∃ dev sector, t.task p = .bget dev sector) ∨ ∃ caller, t.task p = .work b (.wait caller))

theorem Owners.move (h : Owners s) (hmove : OwnMove s t p) : Owners t := by
  have hother : ∀ q b, q ≠ p → (t.owns q b ↔ s.owns q b) := fun q b hq =>
    owns_congr (hmove.task q hq) (hmove.held q hq)
  have hexcl : ∀ q b, q ≠ p → t.owns p b → ¬ t.owns q b := by
    intro q b hq hp hown
    rw [hother q b hq] at hown
    rcases (hmove.takes b hp).2 with hold | hfree
    · exact hq (h.unique q p b hown hold)
    · exact Bool.false_ne_true (hfree.symm.trans (h.busy q b hown))
  refine ⟨fun q b hown => ?_, fun q r b hq hr => ?_, fun q => ?_, fun q b place htask => ?_, fun q b hsleep => ?_⟩
  · by_cases hq : q = p
    · exact (hmove.takes b (hq ▸ hown)).1
    · grind [hmove.keeps, h.busy, h.unique]
  · by_cases hq' : q = p
    · by_contra hne
      exact hexcl r b (fun heq => hne (hq'.trans heq.symm)) (hq' ▸ hq) hr
    · grind [h.unique]
  · by_cases hq : q = p
    · rw [hq]
      exact hmove.nodup
    · rw [hmove.held q hq]
      exact h.nodup q
  · by_cases hq : q = p
    · rw [hq] at htask ⊢
      exact hmove.fresh b place htask
    · rw [hmove.task q hq] at htask
      rw [hmove.held q hq]
      exact h.fresh q b place htask
  · by_cases hq : q = p
    · rw [hq] at hsleep ⊢
      exact hmove.asleep b hsleep
    · have hold := h.asleep q b (hmove.others q b hq hsleep)
      refine ⟨(hmove.keeps b hold.1).resolve_right fun hgone => hgone.2.2 q hsleep, ?_⟩
      rw [hmove.task q hq]
      exact hold.2

omit [DecidableEq Proc] in
/-- A step of no process, which changes no lock. -/
theorem Owners.same (h : Owners s) (htask : t.task = s.task) (hheld : t.held = s.held)
    (hbusy : ∀ b, (t.buf b).busy = (s.buf b).busy) (hsleep : ∀ q b, t.asleep q = some b → s.asleep q = some b) :
    Owners t := by
  have howns : ∀ q b, t.owns q b ↔ s.owns q b := fun q b => owns_congr (congrFun htask q) (congrFun hheld q)
  refine ⟨fun q b hown => ?_, fun q r b hq hr => ?_, fun q => ?_, fun q b place => ?_, fun q b hasleep => ?_⟩
  · rw [hbusy]
    exact h.busy q b ((howns q b).mp hown)
  · exact h.unique q r b ((howns q b).mp hq) ((howns r b).mp hr)
  · rw [hheld]
    exact h.nodup q
  · rw [htask, hheld]
    exact h.fresh q b place
  · rw [hbusy, htask]
    exact h.asleep q b (hsleep q b hasleep)

omit [DecidableEq Proc] in
/-- A buffer is changed but for the mark that it is busy. -/
theorem busy_update {x : Slot Data} (hx : x.busy = (s.buf b).busy) (c : Buf) :
    (update s.buf b x c).busy = (s.buf c).busy := by
  by_cases hc : c = b
  · rw [hc, update_self, hx]
  · rw [update_of_ne hc]

omit [DecidableEq Proc] in
theorem Owners.awake (h : Owners s) (hidle : s.task p = .idle) : s.asleep p = none := by
  by_contra hne
  obtain ⟨b, hb⟩ := Option.ne_none_iff_exists'.mp hne
  rcases (h.asleep p b hb).2 with ⟨dev, sector, htask⟩ | ⟨caller, htask⟩
  · rw [hidle] at htask
    cases htask
  · rw [hidle] at htask
    cases htask

/-- A process goes on to another task and may begin to sleep; it owns the same buffers. -/
theorem OwnMove.retask (h : Owners s) (x : Task) (htask : t.task = update s.task p x) (hheld : t.held = s.held)
    (hbusy : ∀ b, (t.buf b).busy = (s.buf b).busy) (hothers : ∀ q, q ≠ p → t.asleep q = s.asleep q)
    (hwork : ∀ b place, x = .work b place → s.owns p b ∧ (b ∈ s.held p ↔ place.writing))
    (hasleep : ∀ b, t.asleep p = some b → (s.buf b).busy = true ∧
      ((∃ dev sector, x = .bget dev sector) ∨ ∃ caller, x = .work b (.wait caller))) : OwnMove s t p := by
  have hself : t.task p = x := by rw [htask, update_self]
  refine ⟨fun q hq => ?_, fun q _ => by rw [hheld], fun b hown => ?_, fun b hb => .inl ((hbusy b).trans hb), ?_,
    fun b place hplace => ?_, fun q b hq hsleep => hothers q hq ▸ hsleep, fun b hsleep => ?_⟩
  · rw [htask, update_of_ne hq]
  · have hold : s.owns p b := by
      rcases hown with hin | ⟨place, hplace⟩
      · rw [hheld] at hin
        exact .inl hin
      · exact (hwork b place (hself.symm.trans hplace)).1
    exact ⟨(hbusy b).trans (h.busy p b hold), .inl hold⟩
  · rw [hheld]
    exact h.nodup p
  · rw [hheld]
    exact (hwork b place (hself.symm.trans hplace)).2
  · rw [hbusy, hself]
    exact hasleep b hsleep

/-- A process goes to sleep on a busy buffer. -/
theorem OwnMove.nap (h : Owners s) (hbusy : (s.buf b).busy = true)
    (htask : (∃ dev sector, s.task p = .bget dev sector) ∨ ∃ caller, s.task p = .work b (.wait caller)) :
    OwnMove s (s.sleep p b) p := by
  refine .retask h (s.task p) (update_eq_self p s.task).symm rfl (fun _ => rfl)
    (fun q hq => update_of_ne hq _ _) (fun c place hplace => ?_) fun c hsleep => ?_
  · exact ⟨.inr ⟨place, hplace⟩, h.fresh p c place hplace⟩
  · obtain rfl : b = c := Option.some.inj ((update_self p _ s.asleep).symm.trans hsleep)
    exact ⟨hbusy, htask⟩

/-- A process takes a buffer that was free. -/
theorem OwnMove.take (h : Owners s) (hawake : s.asleep p = none) (hfree : (s.buf b).busy = false) {x : Slot Data}
    (hx : x.busy = true) :
    OwnMove s ((s.setBuf b x).setTask p (.work b .test)) p := by
  have hheld : b ∉ s.held p := fun hin => Bool.false_ne_true (hfree.symm.trans (h.busy p b (.inl hin)))
  have hbuf : ∀ c, (s.buf c).busy = true → ((update s.buf b x) c).busy = true := by
    intro c hc
    by_cases hcb : c = b
    · rw [hcb, update_self, hx]
    · rw [update_of_ne hcb, hc]
  refine ⟨fun q hq => update_of_ne hq _ _, fun q _ => rfl, fun c hown => ?_, fun c hc => .inl (hbuf c hc),
    h.nodup p, fun c place hplace => ?_, fun q c _ hsleep => hsleep, fun c hsleep => ?_⟩
  · rcases hown with hin | ⟨place, hplace⟩
    · exact ⟨hbuf c (h.busy p c (.inl hin)), .inl (.inl hin)⟩
    · have hc : b = c := (Task.work.inj ((update_self p _ s.task).symm.trans hplace)).1
      subst hc
      have hbusy : (update s.buf b x b).busy = true := by rw [update_self, hx]
      exact ⟨hbusy, .inr hfree⟩
  · obtain ⟨rfl, rfl⟩ := Task.work.inj ((update_self p _ s.task).symm.trans hplace)
    exact iff_of_false hheld id
  · exact absurd (hsleep.symm.trans hawake) (Option.some_ne_none c)

/-- `bread` returns a buffer. -/
theorem OwnMove.give (h : Owners s) {place : Place} (hawake : s.asleep p = none) (htask : s.task p = .work b place)
    (hplace : ¬ place.writing) :
    OwnMove s { s.setTask p .idle with held := update s.held p (b :: s.held p) } p := by
  have hheld : b ∉ s.held p := fun hin => hplace ((h.fresh p b place htask).mp hin)
  have hself : update s.held p (b :: s.held p) p = b :: s.held p := update_self _ _ _
  have hidle : update s.task p .idle p = .idle := update_self _ _ _
  refine ⟨fun q hq => update_of_ne hq _ _, fun q hq => update_of_ne hq _ _, fun c hown => ?_,
    fun c hc => .inl hc, ?_, fun c place hplace => ?_, fun q c _ hsleep => hsleep, fun c hsleep => ?_⟩
  · have hold : s.owns p c := by
      rcases hown with hin | ⟨place', hplace'⟩
      · have hin' : c ∈ b :: s.held p := hself ▸ hin
        rcases List.mem_cons.mp hin' with rfl | hin'
        · exact .inr ⟨place, htask⟩
        · exact .inl hin'
      · cases hidle.symm.trans hplace'
    exact ⟨h.busy p c hold, .inl hold⟩
  · exact (congrArg List.Nodup hself).mpr (List.nodup_cons.mpr ⟨hheld, h.nodup p⟩)
  · cases hidle.symm.trans hplace
  · exact absurd (hsleep.symm.trans hawake) (Option.some_ne_none c)

/-- The first part of `brelse`. -/
theorem OwnMove.letGo (h : Owners s) (hidle : s.task p = .idle) (hheld : b ∈ s.held p) :
    OwnMove s { s.setTask p (.work b .brelse) with held := update s.held p ((s.held p).erase b) } p := by
  have hself : update s.held p ((s.held p).erase b) p = (s.held p).erase b := update_self _ _ _
  have htask : update s.task p (.work b .brelse) p = .work b .brelse := update_self _ _ _
  refine ⟨fun q hq => update_of_ne hq _ _, fun q hq => update_of_ne hq _ _, fun c hown => ?_,
    fun c hc => .inl hc, ?_, fun c place hplace => ?_, fun q c _ hsleep => hsleep, fun c hsleep => ?_⟩
  · have hold : s.owns p c := by
      rcases hown with hin | ⟨place, hplace⟩
      · have hin' : c ∈ (s.held p).erase b := hself ▸ hin
        exact .inl (List.mem_of_mem_erase hin')
      · obtain ⟨rfl, -⟩ := Task.work.inj (htask.symm.trans hplace)
        exact .inl hheld
    exact ⟨h.busy p c hold, .inl hold⟩
  · exact (congrArg List.Nodup hself).mpr ((h.nodup p).erase b)
  · obtain ⟨rfl, rfl⟩ := Task.work.inj (htask.symm.trans hplace)
    refine iff_of_false (fun hin => ?_) id
    have hin' : b ∈ (s.held p).erase b := hself ▸ hin
    exact ((h.nodup p).mem_erase_iff.mp hin').1 rfl
  · exact absurd (hsleep.symm.trans (h.awake hidle)) (Option.some_ne_none c)

/-- The second part of `brelse`. -/
theorem OwnMove.release (h : Owners s) (hawake : s.asleep p = none) (htask : s.task p = .work b .brelse) :
    OwnMove s (brelse p b s) p := by
  have hidle : update s.task p .idle p = .idle := update_self _ _ _
  have hheld : b ∉ s.held p := (h.fresh p b _ htask).mp
  have hbuf : ∀ c, c ≠ b → (brelse p b s).buf c = s.buf c := fun c hc => update_of_ne hc _ _
  have hawake' : (brelse p b s).asleep p = none := LibSleep.wakeup_none hawake
  have hown : ∀ c, (brelse p b s).owns p c → c ∈ s.held p := by
    intro c hown
    rcases hown with hin | ⟨place, hplace⟩
    · exact hin
    · cases hidle.symm.trans hplace
  refine ⟨fun q hq => update_of_ne hq _ _, fun q _ => rfl, fun c hc => ?_, fun c hc => ?_, h.nodup p,
    fun c place hplace => ?_, fun q c _ hsleep => (LibSleep.wakeup_eq_some.mp hsleep).1, fun c hsleep => ?_⟩
  · have hin := hown c hc
    rw [hbuf c fun heq => hheld (heq ▸ hin)]
    exact ⟨h.busy p c (.inl hin), .inl (.inl hin)⟩
  · by_cases hcb : c = b
    · rw [hcb]
      exact .inr ⟨.inr ⟨_, htask⟩, fun hc => hheld (hown b hc), fun q => LibSleep.wakeup_ne b s.asleep q⟩
    · rw [hbuf c hcb]
      exact .inl hc
  · cases hidle.symm.trans hplace
  · exact absurd (hsleep.symm.trans hawake') (Option.some_ne_none c)

omit [DecidableEq Proc] in
/-- What an interrupt leaves alone. -/
theorem ideintr_frame (cmd : Command Data) (status : Nat) (s : State Data Proc) :
    (ideintr cmd status s).1.task = s.task ∧ (ideintr cmd status s).1.held = s.held ∧
      (∀ b, ((ideintr cmd status s).1.buf b).busy = (s.buf b).busy) ∧
        ∀ q b, (ideintr cmd status s).1.asleep q = some b → s.asleep q = some b := by
  cases hfirst : s.idequeue with
  | none =>
    rw [ideintr_none hfirst]
    exact ⟨rfl, rfl, fun b => rfl, fun q b hsleep => hsleep⟩
  | some b =>
    rw [ideintr_some hfirst]
    have hbusy : (s.served cmd status b).busy = (s.buf b).busy := rfl
    exact ⟨rfl, rfl, busy_update hbusy, fun q c hsleep => (LibSleep.wakeup_eq_some.mp hsleep).1⟩

theorem Owners.step (h : Owners s) (hmove : Move s a t new) : Owners t := by
  cases hmove with
  | call hidle =>
    refine h.move (.retask h _ rfl rfl (fun _ => rfl) (fun _ _ => rfl) (fun b place hplace => by cases hplace) ?_)
    intro b hsleep
    exact absurd (hsleep.symm.trans (h.awake hidle)) (Option.some_ne_none b)
  | panic htask =>
    refine h.move (.retask h _ rfl rfl (fun _ => rfl) (fun _ _ => rfl) (fun b place hplace => by cases hplace) ?_)
    intro b hsleep
    exact absurd (hsleep.symm.trans (htask.elim h.awake And.left)) (Option.some_ne_none b)
  | hit hawake htask hfind hfree => exact h.move (.take h hawake hfree rfl)
  | doze hawake htask hbusy => exact h.move (.nap h hbusy (.inl ⟨_, _, htask⟩))
  | recycle hawake htask hfind hfree => exact h.move (.take h hawake hfree rfl)
  | @miss p b hawake htask hvalid =>
    refine h.move (.retask h _ rfl rfl (fun _ => rfl) (fun _ _ => rfl) (fun c place hplace => ?_) ?_)
    · obtain ⟨rfl, rfl⟩ := Task.work.inj hplace
      exact ⟨.inr ⟨_, htask⟩, h.fresh p b .test htask⟩
    · intro c hsleep
      exact absurd (hsleep.symm.trans hawake) (Option.some_ne_none c)
  | ready hawake htask hvalid => exact h.move (.give h hawake htask id)
  | @enqueue p b caller u hawake htask hpending happend =>
    obtain ⟨first, qnext, rfl⟩ := append_eq happend
    have hown : s.owns p b := .inr ⟨_, htask⟩
    have hfresh : b ∈ s.held p ↔ (Place.wait caller).writing := by
      refine (h.fresh p b _ htask).trans ?_
      cases caller with
      | bread => exact Iff.rfl
      | bwrite => exact Iff.rfl
    refine h.move (.retask (p := p) h (.work b (.wait caller)) ?_ ?_ ?_ (fun q hq => ?_)
      (fun c place hplace => ?_) ?_)
    · split_ifs
      · rfl
      · rfl
    · split_ifs
      · rfl
      · rfl
    · intro c
      split_ifs
      · rfl
      · rfl
    · split_ifs
      · exact update_of_ne hq _ _
      · exact update_of_ne hq _ _
    · obtain ⟨rfl, rfl⟩ := Task.work.inj hplace
      exact ⟨hown, hfresh⟩
    · intro c hsleep
      obtain rfl : b = c := Option.some.inj ((update_self p _ _).symm.trans hsleep)
      exact ⟨h.busy p b hown, .inr ⟨caller, rfl⟩⟩
  | again hawake htask hpending => exact h.move (.nap h (h.busy _ _ (.inr ⟨_, htask⟩)) (.inr ⟨_, htask⟩))
  | @finish p b caller hawake htask hdone =>
    cases caller with
    | bread => exact h.move (.give h hawake htask id)
    | bwrite =>
      refine h.move (.retask h _ rfl rfl (fun _ => rfl) (fun _ _ => rfl) (fun b place hplace => by cases hplace) ?_)
      intro c hsleep
      exact absurd (hsleep.symm.trans hawake) (Option.some_ne_none c)
  | release hawake htask => exact h.move (.release h hawake htask)
  | @write p b hidle hheld =>
    refine h.move (.retask h (.work b (.iderw .bwrite)) rfl rfl (busy_update rfl) (fun _ _ => rfl)
      (fun c place hplace => ?_) ?_)
    · obtain ⟨rfl, rfl⟩ := Task.work.inj hplace
      exact ⟨.inl hheld, iff_of_true hheld trivial⟩
    · intro c hsleep
      exact absurd (hsleep.symm.trans (h.awake hidle)) (Option.some_ne_none c)
  | letGo hidle hheld => exact h.move (.letGo h hidle hheld)
  | @change p b data hidle hheld =>
    exact h.same rfl rfl (busy_update rfl) fun q c hsleep => hsleep
  | interrupt hdevice =>
    obtain ⟨htask, hheld, hbusy, hsleep⟩ := ideintr_frame _ _ s
    exact h.same htask hheld hbusy hsleep

omit [DecidableEq Proc] in
theorem Booted.owners (h : Booted s) : Owners s := by
  have hnone : ∀ p b, ¬ s.owns p b := by
    rintro p b (hin | ⟨place, hplace⟩)
    · rw [h.held p] at hin
      exact absurd hin List.not_mem_nil
    · rw [h.task p] at hplace
      cases hplace
  refine ⟨fun p b hown => absurd hown (hnone p b), fun p q b hown _ => absurd hown (hnone p b), fun p => ?_,
    fun p b place hplace => absurd (.inr ⟨place, hplace⟩) (hnone p b), fun p b hsleep => ?_⟩
  · rw [h.held p]
    exact List.nodup_nil
  · rw [h.asleep p] at hsleep
    cases hsleep

theorem Reaches.owners {guard : State Data Proc → Act Data Proc → Prop} {disk : Nat → Nat → Data}
    {trace : List (Event Data Proc)} (h : Reaches guard disk (s, trace)) : Owners s := by
  refine LibRun.Reachable.invariant (P := fun x => Owners x.1) (fun x hx => hx.1.owners) ?_ h
  rintro x y - hx ⟨a, t, new, -, hstep, rfl⟩
  exact hx.step (step_move hstep)

/-! Single runs. -/

/-- The run that takes the given steps, when each can be taken and is as `guard` says. -/
def perform (guard : State Data Proc → Act Data Proc → Prop) [∀ s a, Decidable (guard s a)] :
    List (Act Data Proc) → State Data Proc × List (Event Data Proc) →
      Option (State Data Proc × List (Event Data Proc))
  | [], x => some x
  | a :: acts, x =>
    if guard x.1 a then (step x.1 a).bind fun y => perform guard acts (y.1, x.2 ++ y.2) else none

theorem Reaches.perform {guard : State Data Proc → Act Data Proc → Prop} [∀ s a, Decidable (guard s a)]
    {disk : Nat → Nat → Data} {acts : List (Act Data Proc)} {x y : State Data Proc × List (Event Data Proc)}
    (h : Reaches guard disk x) (hrun : perform guard acts x = some y) : Reaches guard disk y := by
  induction acts generalizing x with
  | nil =>
    rw [Buffers.perform] at hrun
    exact Option.some.inj hrun ▸ h
  | cons a acts ih =>
    rw [Buffers.perform] at hrun
    split_ifs at hrun with hguard
    obtain ⟨⟨t, new⟩, hstep, hrest⟩ := Option.bind_eq_some_iff.mp hrun
    exact ih (.next h ⟨a, t, new, hguard, hstep, rfl⟩) hrest

theorem nbuf_ne_zero : NBUF ≠ 0 := by
  decide

instance : NeZero NBUF := ⟨nbuf_ne_zero⟩

/-- The machine after `binit` and `ideinit`, with two disks. -/
def boot (data : Data) (disk : Nat → Nat → Data) : State Data Proc where
  buf := fun _ =>
    { busy := false, valid := false, dirty := false, dev := noDev, sector := 0, qnext := none, data := data }
  order := (List.finRange NBUF).reverse
  idequeue := none
  device := none
  disk := disk
  havedisk1 := true
  task := fun _ => .idle
  held := fun _ => []
  asleep := fun _ => none
  changed := fun _ => false

theorem reaches_boot (guard : State Data Proc → Act Data Proc → Prop) (data : Data) (disk : Nat → Nat → Data) :
    Reaches guard disk (boot data disk, []) :=
  .start ⟨⟨fun _ => rfl, fun _ => rfl, fun _ => rfl, fun _ => rfl, rfl, rfl, rfl, fun _ => rfl, fun _ => rfl,
    fun _ => rfl, fun _ => rfl⟩, rfl, rfl⟩

end Xv6.Buffers
