import Xv6.BufferMoves

/-! The queue of the disk driver. Every request goes through four stages: `iderw` puts the buffer on the queue, the
device is started on it, an interrupt completes it and `iderw` returns. At any time the queue is what has been put on
it and is not completed, and the device works on its head. -/

namespace Xv6.Buffers

open LibQueue Function

variable {Data Proc : Type} {s t : State Data Proc} {a : Act Data Proc} {trace new : List (Event Data Proc)}
  {p q : Proc} {b c : Buf} {x : Task} {Q : List Buf}

inductive Stage where
  | enqueued
  | started
  | completed
  | returned
  deriving DecidableEq

/-- The stage that a request has come to, and its buffer. -/
def Event.stage : Event Data Proc → Option (Stage × Buf)
  | .enqueue b => some (.enqueued, b)
  | .start b => some (.started, b)
  | .complete b => some (.completed, b)
  | .iderw _ b => some (.returned, b)
  | _ => none

/-- The buffers that have come to a stage, in order. -/
def buffersAt (stage : Stage) (trace : List (Event Data Proc)) : List Buf :=
  (trace.filterMap Event.stage).filterMap fun x => if x.1 = stage then some x.2 else none

/-- The stages that the requests for a buffer have come to. -/
def stagesOf (b : Buf) (trace : List (Event Data Proc)) : List Stage :=
  (trace.filterMap Event.stage).filterMap fun x => if x.2 = b then some x.1 else none

/-- The order of the stages. -/
def turn (n : Nat) : Stage :=
  if n % 4 = 0 then .enqueued else if n % 4 = 1 then .started else if n % 4 = 2 then .completed else .returned

theorem buffersAt_append (stage : Stage) :
    buffersAt stage (trace ++ new) = buffersAt stage trace ++ buffersAt stage new := by
  rw [buffersAt, List.filterMap_append, List.filterMap_append]
  rfl

theorem stagesOf_append : stagesOf b (trace ++ new) = stagesOf b trace ++ stagesOf b new := by
  rw [stagesOf, List.filterMap_append, List.filterMap_append]
  rfl

/-- The stages are taken in turn, and `k` is the number of the next one. -/
def Cycle (stages : List Stage) (k : Nat) : Prop := ∃ n, stages = (List.range n).map turn ∧ n % 4 = k

theorem Cycle.next {stages : List Stage} {k : Nat} (h : Cycle stages k) (stage : Stage) (hstage : turn k = stage) :
    Cycle (stages ++ [stage]) ((k + 1) % 4) := by
  obtain ⟨n, rfl, rfl⟩ := h
  refine ⟨n + 1, ?_, by omega⟩
  have hturn : turn n = stage := by
    rw [← hstage, turn, turn, Nat.mod_mod]
  rw [List.range_succ, List.map_append, List.map_singleton, hturn]

/-- The buffer whose request a process waits for. -/
def Task.waitsFor : Task → Option Buf
  | .work b (.wait _) => some b
  | _ => none

theorem Task.waitsFor_eq_some {x : Task} : x.waitsFor = some b ↔ ∃ caller, x = .work b (.wait caller) := by
  constructor
  · intro h
    cases x with
    | work c place =>
      cases place with
      | wait caller => exact ⟨caller, by rw [Option.some.inj h]⟩
      | _ => cases h
    | _ => cases h
  · rintro ⟨caller, rfl⟩
    rfl

/-- The buffers `Q` are on the queue. -/
structure Queued (s : State Data Proc) (Q : List Buf) : Prop where
  links : Follows s.links s.idequeue Q
  nodup : Q.Nodup
  device : s.device = Q.head?.map fun b => (s.buf b).command
  waiter : ∀ b ∈ Q, ∃ p, (s.task p).waitsFor = some b
  pending : ∀ b ∈ Q, ¬ ((s.buf b).valid = true ∧ (s.buf b).dirty = false)
  done : ∀ p b, (s.task p).waitsFor = some b → b ∈ Q ∨ (s.buf b).valid = true ∧ (s.buf b).dirty = false

/-- The stage that the request for a buffer will come to next. -/
inductive Phase (s : State Data Proc) (Q : List Buf) (b : Buf) : Nat → Prop
  | out (h : ∀ p, (s.task p).waitsFor ≠ some b) : Phase s Q b 0
  | behind (h : b ∈ Q.tail) : Phase s Q b 1
  | first (h : Q.head? = some b) : Phase s Q b 2
  | done (hwaits : ∃ p, (s.task p).waitsFor = some b) (h : b ∉ Q) : Phase s Q b 3

structure Served (s : State Data Proc) (trace : List (Event Data Proc)) (Q : List Buf) : Prop where
  queued : Queued s Q
  enqueued : buffersAt .enqueued trace = buffersAt .completed trace ++ Q
  started : buffersAt .started trace = buffersAt .completed trace ++ Q.take 1
  cycle : ∀ b, ∃ k, Phase s Q b k ∧ Cycle (stagesOf b trace) k

theorem Queued.unwaited (h : Queued s Q) (hwaits : ∀ q, (s.task q).waitsFor ≠ some b) : b ∉ Q := by
  intro hb
  obtain ⟨q, hq⟩ := h.waiter b hb
  exact hwaits q hq

/-! Steps that do not concern the queue. -/

theorem Queued.quiet (h : Queued s Q) (hfirst : t.idequeue = s.idequeue) (hdevice : t.device = s.device)
    (hwaits : ∀ q, (t.task q).waitsFor = (s.task q).waitsFor)
    (hbuf : ∀ c q, (s.task q).waitsFor = some c → t.buf c = s.buf c) : Queued t Q := by
  have hsame : ∀ c ∈ Q, t.buf c = s.buf c := by
    intro c hc
    obtain ⟨q, hq⟩ := h.waiter c hc
    exact hbuf c q hq
  refine ⟨?_, h.nodup, ?_, fun c hc => ?_, fun c hc => ?_, fun q c hq => ?_⟩
  · rw [hfirst]
    exact h.links.congr fun c hc => congrArg Slot.qnext (hsame c hc)
  · rw [hdevice, h.device]
    cases Q with
    | nil => rfl
    | cons c rest => exact congrArg (fun x => some (Slot.command x)) (hsame c List.mem_cons_self).symm
  · obtain ⟨q, hq⟩ := h.waiter c hc
    exact ⟨q, (hwaits q).trans hq⟩
  · rw [hsame c hc]
    exact h.pending c hc
  · rw [hwaits] at hq
    rw [hbuf c q hq]
    exact h.done q c hq

theorem Phase.congr {k : Nat} (h : Phase s Q b k) (hwaits : ∀ q, (t.task q).waitsFor = (s.task q).waitsFor) :
    Phase t Q b k := by
  cases h with
  | out h => exact .out fun q => hwaits q ▸ h q
  | behind h => exact .behind h
  | first h => exact .first h
  | done hw h =>
    obtain ⟨q, hq⟩ := hw
    exact .done ⟨q, (hwaits q).trans hq⟩ h

theorem Served.quiet (h : Served s trace Q) (hfirst : t.idequeue = s.idequeue) (hdevice : t.device = s.device)
    (hwaits : ∀ q, (t.task q).waitsFor = (s.task q).waitsFor)
    (hbuf : ∀ c q, (s.task q).waitsFor = some c → t.buf c = s.buf c) (hnew : new.filterMap Event.stage = []) :
    Served t (trace ++ new) Q := by
  have hat : ∀ stage, buffersAt stage (trace ++ new) = buffersAt stage trace := by
    intro stage
    rw [buffersAt_append, buffersAt, buffersAt, hnew, List.filterMap_nil, List.append_nil]
  have hof : ∀ b, stagesOf b (trace ++ new) = stagesOf b trace := by
    intro b
    rw [stagesOf_append, stagesOf, stagesOf, hnew, List.filterMap_nil, List.append_nil]
  refine ⟨h.queued.quiet hfirst hdevice hwaits hbuf, ?_, ?_, fun b => ?_⟩
  · rw [hat, hat]
    exact h.enqueued
  · rw [hat, hat]
    exact h.started
  · obtain ⟨k, hphase, hcycle⟩ := h.cycle b
    rw [hof]
    exact ⟨k, hphase.congr hwaits, hcycle⟩

theorem Owners.waitsFor_owns (h : (s.task p).waitsFor = some b) : s.owns p b := by
  obtain ⟨caller, hcaller⟩ := Task.waitsFor_eq_some.mp h
  exact .inr ⟨_, hcaller⟩

theorem Owners.unwaited (h : Owners s) (hown : s.owns p b) (hp : (s.task p).waitsFor = none) (q : Proc) :
    (s.task q).waitsFor ≠ some b := by
  intro hq
  obtain rfl := h.unique q p b (waitsFor_owns hq) hown
  exact Option.some_ne_none b (hq.symm.trans hp)

theorem Owners.unwaited_of_free (h : Owners s) (hfree : (s.buf b).busy = false) (q : Proc) :
    (s.task q).waitsFor ≠ some b := by
  intro hq
  exact Bool.false_ne_true (hfree.symm.trans (h.busy q b (waitsFor_owns hq)))

theorem update_unwaited (hwaits : ∀ q, (s.task q).waitsFor ≠ some b) (x : Slot Data) (c : Buf) (q : Proc)
    (hq : (s.task q).waitsFor = some c) : update s.buf b x c = s.buf c := by
  refine update_of_ne ?_ _ _
  rintro rfl
  exact hwaits q hq

variable [DecidableEq Proc]

theorem waitsFor_update {x y : Task} (htask : s.task p = y) (hx : x.waitsFor = y.waitsFor) (q : Proc) :
    (update s.task p x q).waitsFor = (s.task q).waitsFor := by
  by_cases hq : q = p
  · rw [hq, update_self, hx, htask]
  · rw [update_of_ne hq]

/-! A request is put on the queue. -/

omit [DecidableEq Proc] in
theorem Queued.append (h : Queued s Q) (hb : b ∉ Q) :
    ∃ qnext, append b s = some (s.withQueue (Q ++ [b]).head? qnext) ∧
      Follows qnext (Q ++ [b]).head? (Q ++ [b]) := by
  have hlinks := h.links
  have hnodup := h.nodup
  cases Q with
  | nil => exact ⟨_, append_none b hlinks, rfl, update_self _ _ _⟩
  | cons d l =>
    have hfollows : Follows (update s.links b none) (update s.links b none d) l := by
      have hd : d ≠ b := fun heq => hb (heq ▸ List.mem_cons_self)
      rw [update_of_ne hd]
      refine hlinks.2.congr fun x hx => update_of_ne (fun heq => hb ?_) _ _
      exact heq ▸ List.mem_cons_of_mem d hx
    have hlength : l.length < NBUF + 1 := by
      have hcard := hnodup.length_le_card
      rw [Fintype.card_fin, List.length_cons] at hcard
      omega
    refine ⟨_, ?_, rfl, hfollows.snoc hnodup hb (update_self _ _ _) rfl⟩
    rw [append_some b hlinks.1, hfollows.last_eq hlength]
    rfl

omit [DecidableEq Proc] in
theorem Queued.enqueue (h : Queued s Q) (hb : b ∉ Q)
    (hpending : ¬ ((s.buf b).valid = true ∧ (s.buf b).dirty = false)) {qnext : Buf → Option Buf}
    (hfollows : Follows qnext (Q ++ [b]).head? (Q ++ [b]))
    (hwaits : ∀ q c, (t.task q).waitsFor = some c ↔ (s.task q).waitsFor = some c ∨ q = p ∧ c = b)
    (hbuf : t.buf = (s.withQueue (Q ++ [b]).head? qnext).buf) (hfirst : t.idequeue = (Q ++ [b]).head?)
    (hdevice : t.device = (Q ++ [b]).head?.map fun c => (s.buf c).command) : Queued t (Q ++ [b]) := by
  have hflags : ∀ c, ((t.buf c).valid = true ∧ (t.buf c).dirty = false ↔
      (s.buf c).valid = true ∧ (s.buf c).dirty = false) := by
    intro c
    rw [hbuf]
    exact Iff.rfl
  refine ⟨?_, ?_, ?_, fun c hc => ?_, fun c hc => ?_, fun q c hq => ?_⟩
  · rw [hfirst]
    refine hfollows.congr fun c _ => ?_
    rw [State.links, hbuf]
    rfl
  · exact h.nodup.append (List.nodup_singleton b) (List.disjoint_singleton.mpr hb)
  · rw [hdevice, hbuf]
    rfl
  · rcases List.mem_append.mp hc with hc | hc
    · obtain ⟨q, hq⟩ := h.waiter c hc
      exact ⟨q, (hwaits q c).mpr (.inl hq)⟩
    · exact ⟨p, (hwaits p c).mpr (.inr ⟨rfl, List.mem_singleton.mp hc⟩)⟩
  · grind [h.pending]
  · grind [h.done]

omit [DecidableEq Proc] in
/-- The other requests stay where they are. -/
theorem Phase.enqueue {k : Nat} (h : Phase s Q c k) (hc : c ≠ b)
    (hwaits : ∀ q c, (t.task q).waitsFor = some c ↔ (s.task q).waitsFor = some c ∨ q = p ∧ c = b) :
    Phase t (Q ++ [b]) c k := by
  cases h with
  | out h => exact .out fun q hq => ((hwaits q c).mp hq).elim (h q) fun heq => hc heq.2
  | behind h =>
    refine .behind ?_
    cases Q with
    | nil => exact absurd h List.not_mem_nil
    | cons d l => exact List.mem_append_left [b] h
  | first h => exact .first (by rw [List.head?_append, h]; rfl)
  | done hw h =>
    obtain ⟨q, hq⟩ := hw
    refine .done ⟨q, (hwaits q c).mpr (.inl hq)⟩ fun hin => ?_
    rcases List.mem_append.mp hin with hin | hin
    · exact h hin
    · exact hc (List.mem_singleton.mp hin)

omit [DecidableEq Proc] in
theorem Phase.unwaited {k : Nat} (h : Phase s Q b k) (hunwaited : ∀ q, (s.task q).waitsFor ≠ some b) (hb : b ∉ Q) :
    k = 0 := by
  cases h with
  | out h => rfl
  | behind h => exact absurd (List.mem_of_mem_tail h) hb
  | first h => exact absurd (List.mem_of_head? h) hb
  | done hw h =>
    obtain ⟨q, hq⟩ := hw
    exact absurd hq (hunwaited q)

omit [DecidableEq Proc] in
theorem Served.enqueue (h : Served s trace Q) (hunwaited : ∀ q, (s.task q).waitsFor ≠ some b)
    (hqueued : Queued t (Q ++ [b]))
    (hwaits : ∀ q c, (t.task q).waitsFor = some c ↔ (s.task q).waitsFor = some c ∨ q = p ∧ c = b)
    (hnew : new.filterMap Event.stage = (.enqueued, b) :: if Q = [] then [(.started, b)] else []) :
    Served t (trace ++ new) (Q ++ [b]) := by
  have hb : b ∉ Q := h.queued.unwaited hunwaited
  refine ⟨hqueued, ?_, ?_, fun c => ?_⟩
  · rw [buffersAt_append, buffersAt_append, h.enqueued, buffersAt, buffersAt, buffersAt, hnew]
    split_ifs with hQ
    · simp
    · simp
  · rw [buffersAt_append, buffersAt_append, h.started, buffersAt, buffersAt, buffersAt, hnew]
    cases Q with
    | nil => simp
    | cons d l => simp
  · obtain ⟨k, hphase, hcycle⟩ := h.cycle c
    rw [stagesOf_append, stagesOf.eq_def c new, hnew]
    by_cases hc : c = b
    · subst hc
      obtain rfl := hphase.unwaited hunwaited hb
      cases Q with
      | nil =>
        have hnext := (hcycle.next .enqueued rfl).next .started rfl
        exact ⟨2, .first rfl, by simpa using hnext⟩
      | cons d l =>
        have hnext := hcycle.next .enqueued rfl
        exact ⟨1, .behind (List.mem_append_right l List.mem_cons_self), by simpa using hnext⟩
    · refine ⟨k, hphase.enqueue hc hwaits, ?_⟩
      have hother : ((.enqueued, b) :: if Q = [] then [(.started, b)] else []).filterMap
          (fun x : Stage × Buf => if x.2 = c then some x.1 else none) = [] := by
        split_ifs with hQ
        · simp [Ne.symm hc]
        · simp [Ne.symm hc]
      rw [hother, List.append_nil]
      exact hcycle

theorem Served.put (h : Served s trace Q) (howners : Owners s) {caller : Caller}
    (htask : s.task p = .work b (.iderw caller)) (hpending : ¬ ((s.buf b).valid = true ∧ (s.buf b).dirty = false))
    {u : State Data Proc} (happend : Buffers.append b s = some u) :
    Served (((if u.idequeue = some b then idestart b u else u).setTask p (.work b (.wait caller))).sleep p b)
      (trace ++ .enqueue b :: if u.idequeue = some b then [.start b] else []) (Q ++ [b]) := by
  have hunwaited := howners.unwaited (.inr ⟨_, htask⟩) (by rw [htask]; rfl)
  have hb : b ∉ Q := h.queued.unwaited hunwaited
  have hwaits : ∀ q c, (update s.task p (.work b (.wait caller)) q).waitsFor = some c ↔
      (s.task q).waitsFor = some c ∨ q = p ∧ c = b := by
    intro q c
    by_cases hq : q = p
    · rw [hq, update_self, htask]
      simp [Task.waitsFor, eq_comm]
    · rw [update_of_ne hq]
      simp [hq]
  obtain ⟨qnext, hput, hfollows⟩ := h.queued.append hb
  obtain rfl : s.withQueue (Q ++ [b]).head? qnext = u := Option.some.inj (hput.symm.trans happend)
  by_cases hQ : Q = []
  · have hfirst : (s.withQueue (Q ++ [b]).head? qnext).idequeue = some b := by
      rw [hQ]
      rfl
    rw [if_pos hfirst, if_pos hfirst]
    refine h.enqueue hunwaited (h.queued.enqueue hb hpending hfollows hwaits rfl rfl ?_) hwaits ?_
    · rw [hQ]
      rfl
    · rw [if_pos hQ]
      rfl
  · have hfirst : (Q ++ [b]).head? = Q.head? := by
      rw [List.head?_append_of_ne_nil _ hQ]
    have hne : (s.withQueue (Q ++ [b]).head? qnext).idequeue ≠ some b := by
      intro heq
      exact hb (List.mem_of_head? (hfirst.symm.trans heq))
    rw [if_neg hne, if_neg hne]
    refine h.enqueue hunwaited (h.queued.enqueue hb hpending hfollows hwaits rfl rfl ?_) hwaits ?_
    · rw [hfirst]
      exact h.queued.device
    · rw [if_neg hQ]
      rfl

/-! An interrupt. -/

omit [DecidableEq Proc] in
theorem Queued.serve {rest : List Buf} (h : Queued s (b :: rest)) {x : Slot Data} (hnext : x.qnext = (s.buf b).qnext)
    (hvalid : x.valid = true) (hdirty : x.dirty = false) (htask : t.task = s.task)
    (hbuf : t.buf = update s.buf b x) (hfirst : t.idequeue = (s.buf b).qnext)
    (hdevice : t.device = (s.buf b).qnext.map fun c => (t.buf c).command) : Queued t rest := by
  have hb : b ∉ rest := (List.nodup_cons.mp h.nodup).1
  have hsame : ∀ c, c ≠ b → t.buf c = s.buf c := by
    intro c hc
    rw [hbuf, update_of_ne hc]
  have hself : t.buf b = x := by rw [hbuf, update_self]
  have hlinks : t.links = s.links := by
    funext c
    by_cases hc : c = b
    · rw [State.links, hc, hself, hnext]
      rfl
    · rw [State.links, hsame c hc]
      rfl
  refine ⟨?_, (List.nodup_cons.mp h.nodup).2, ?_, fun c hc => ?_, fun c hc => ?_, fun q c hq => ?_⟩
  · rw [hlinks, hfirst]
    exact h.links.2
  · rw [hdevice, show (s.buf b).qnext = rest.head? from h.links.2.head]
  · rw [htask]
    exact h.waiter c (List.mem_cons_of_mem b hc)
  · rw [hsame c fun heq => hb (heq ▸ hc)]
    exact h.pending c (List.mem_cons_of_mem b hc)
  · by_cases hc : c = b
    · rw [hc, hself]
      exact .inr ⟨hvalid, hdirty⟩
    · rw [htask] at hq
      rw [hsame c hc]
      exact (h.done q c hq).imp_left fun hin => (List.mem_cons.mp hin).resolve_left hc

omit [DecidableEq Proc] in
theorem Served.serve {rest : List Buf} (h : Served s trace (b :: rest)) (hqueued : Queued t rest)
    (htask : t.task = s.task)
    (hnew : new.filterMap Event.stage = (.completed, b) :: (rest.head?.map (Prod.mk .started)).toList) :
    Served t (trace ++ new) rest := by
  have hb : b ∉ rest := (List.nodup_cons.mp h.queued.nodup).1
  have hwaits : ∀ q, (t.task q).waitsFor = (s.task q).waitsFor := fun q => by rw [htask]
  refine ⟨hqueued, ?_, ?_, fun c => ?_⟩
  · rw [buffersAt_append, buffersAt_append, h.enqueued, buffersAt.eq_def _ new, buffersAt.eq_def _ new, hnew]
    cases rest with
    | nil => simp
    | cons d l => simp
  · rw [buffersAt_append, buffersAt_append, h.started, buffersAt.eq_def _ new, buffersAt.eq_def _ new, hnew]
    cases rest with
    | nil => simp
    | cons d l => simp
  · obtain ⟨k, hphase, hcycle⟩ := h.cycle c
    rw [stagesOf_append, stagesOf.eq_def c new, hnew]
    by_cases hc : c = b
    · subst hc
      have hk : k = 2 := by
        cases hphase with
        | out h' =>
          obtain ⟨q, hq⟩ := h.queued.waiter c List.mem_cons_self
          exact absurd hq (h' q)
        | behind h' => exact absurd h' hb
        | first h' => rfl
        | done hw h' => exact absurd List.mem_cons_self h'
      subst hk
      obtain ⟨q, hq⟩ := h.queued.waiter c List.mem_cons_self
      have hnext := hcycle.next .completed rfl
      refine ⟨3, .done ⟨q, (hwaits q).trans hq⟩ hb, ?_⟩
      cases rest with
      | nil => simpa using hnext
      | cons d l =>
        have hd : d ≠ c := fun heq => hb (heq ▸ List.mem_cons_self)
        simpa [hd] using hnext
    · by_cases hfirst : rest.head? = some c
      · obtain ⟨l, rfl⟩ := List.head?_eq_some_iff.mp hfirst
        have hk : k = 1 := by
          cases hphase with
          | out h' =>
            obtain ⟨q, hq⟩ := h.queued.waiter c (List.mem_cons_of_mem b List.mem_cons_self)
            exact absurd hq (h' q)
          | behind h' => rfl
          | first h' => exact absurd (Option.some.inj h').symm hc
          | done hw h' => exact absurd (List.mem_cons_of_mem b List.mem_cons_self) h'
        subst hk
        have hnext := hcycle.next .started rfl
        exact ⟨2, .first rfl, by simpa [Ne.symm hc] using hnext⟩
      · refine ⟨k, ?_, ?_⟩
        · cases hphase with
          | out h' => exact .out fun q => hwaits q ▸ h' q
          | behind h' =>
            refine .behind ?_
            cases rest with
            | nil => exact absurd h' List.not_mem_nil
            | cons d l => exact (List.mem_cons.mp h').resolve_left fun heq => hfirst (heq ▸ rfl)
          | first h' => exact absurd (Option.some.inj h').symm hc
          | done hw h' =>
            obtain ⟨q, hq⟩ := hw
            exact .done ⟨q, (hwaits q).trans hq⟩ fun hin => h' (List.mem_cons_of_mem b hin)
        · cases rest with
          | nil => simpa [Ne.symm hc] using hcycle
          | cons d l =>
            have hd : d ≠ c := fun heq => hfirst (heq ▸ rfl)
            simpa [Ne.symm hc, hd] using hcycle

omit [DecidableEq Proc] in
theorem ideintr_stages {cmd : Command Data} {status : Nat} (h : s.idequeue = some b) :
    (ideintr cmd status s).2.filterMap Event.stage =
      (.completed, b) :: ((s.buf b).qnext.map (Prod.mk .started)).toList := by
  rw [ideintr_some h]
  dsimp only
  cases (s.buf b).qnext with
  | none =>
    split_ifs
    · rfl
    · rfl
  | some c =>
    split_ifs
    · rfl
    · rfl

omit [DecidableEq Proc] in
theorem Served.interrupt (h : Served s trace Q) {cmd : Command Data} {status : Nat} (hdevice : s.device = some cmd) :
    Served (ideintr cmd status s).1 (trace ++ (ideintr cmd status s).2) Q.tail := by
  cases Q with
  | nil =>
    rw [h.queued.device] at hdevice
    cases hdevice
  | cons b rest =>
    rw [ideintr_some h.queued.links.1]
    refine h.serve (h.queued.serve (x := s.served cmd status b) rfl rfl rfl rfl rfl rfl rfl) rfl ?_
    rw [← show (s.buf b).qnext = rest.head? from h.queued.links.2.head, ← ideintr_some h.queued.links.1]
    exact ideintr_stages h.queued.links.1

/-! `iderw` returns. -/

omit [DecidableEq Proc] in
theorem Queued.finish (h : Queued s Q) (hb : b ∉ Q) (hp : (s.task p).waitsFor = some b)
    (hwaits : ∀ q c, (t.task q).waitsFor = some c ↔ (s.task q).waitsFor = some c ∧ q ≠ p) (hbuf : t.buf = s.buf)
    (hfirst : t.idequeue = s.idequeue) (hdevice : t.device = s.device) : Queued t Q := by
  refine ⟨?_, h.nodup, ?_, fun c hc => ?_, ?_, fun q c hq => ?_⟩
  · rw [hfirst]
    refine h.links.congr fun c _ => ?_
    rw [State.links, hbuf]
    rfl
  · rw [hdevice, hbuf]
    exact h.device
  · obtain ⟨q, hq⟩ := h.waiter c hc
    refine ⟨q, (hwaits q c).mpr ⟨hq, ?_⟩⟩
    rintro rfl
    exact hb (Option.some.inj (hp.symm.trans hq) ▸ hc)
  · rw [hbuf]
    exact h.pending
  · rw [hbuf]
    exact h.done q c ((hwaits q c).mp hq).1

theorem Served.finish (h : Served s trace Q) (howners : Owners s) {caller : Caller}
    (htask : s.task p = .work b (.wait caller)) (hdone : (s.buf b).valid = true ∧ (s.buf b).dirty = false) :
    Served (iderwReturn p b caller s).1 (trace ++ (iderwReturn p b caller s).2) Q := by
  have hp : (s.task p).waitsFor = some b := by rw [htask]; rfl
  have hb : b ∉ Q := fun hin => h.queued.pending b hin hdone
  have hreturn : (iderwReturn p b caller s).1.task = update s.task p .idle ∧
      (iderwReturn p b caller s).2.filterMap Event.stage = [(.returned, b)] ∧
        (iderwReturn p b caller s).1.buf = s.buf ∧ (iderwReturn p b caller s).1.idequeue = s.idequeue ∧
          (iderwReturn p b caller s).1.device = s.device := by
    cases caller with
    | bread => exact ⟨rfl, rfl, rfl, rfl, rfl⟩
    | bwrite => exact ⟨rfl, rfl, rfl, rfl, rfl⟩
  obtain ⟨hidle, hnew, hbuf, hfirst, hdevice⟩ := hreturn
  have hwaits : ∀ q c, ((iderwReturn p b caller s).1.task q).waitsFor = some c ↔
      (s.task q).waitsFor = some c ∧ q ≠ p := by
    intro q c
    rw [hidle]
    by_cases hq : q = p
    · rw [hq, update_self]
      simp [Task.waitsFor]
    · rw [update_of_ne hq]
      simp [hq]
  have hat : ∀ stage, stage ≠ .returned →
      buffersAt stage (trace ++ (iderwReturn p b caller s).2) = buffersAt stage trace := by
    intro stage hstage
    rw [buffersAt_append, buffersAt.eq_def _ (iderwReturn p b caller s).2, hnew]
    simp [Ne.symm hstage]
  refine ⟨h.queued.finish hb hp hwaits hbuf hfirst hdevice, ?_, ?_, fun c => ?_⟩
  · rw [hat .enqueued (by decide), hat .completed (by decide)]
    exact h.enqueued
  · rw [hat .started (by decide), hat .completed (by decide)]
    exact h.started
  · obtain ⟨k, hphase, hcycle⟩ := h.cycle c
    rw [stagesOf_append, stagesOf.eq_def c (iderwReturn p b caller s).2, hnew]
    by_cases hc : c = b
    · subst hc
      have hk : k = 3 := by
        cases hphase with
        | out h' => exact absurd hp (h' p)
        | behind h' => exact absurd (List.mem_of_mem_tail h') hb
        | first h' => exact absurd (List.mem_of_head? h') hb
        | done hw h' => rfl
      subst hk
      have hnext := hcycle.next .returned rfl
      refine ⟨0, .out fun q hq => ?_, by simpa using hnext⟩
      obtain ⟨hq, hne⟩ := (hwaits q c).mp hq
      exact hne (howners.unique q p c (Owners.waitsFor_owns hq) (Owners.waitsFor_owns hp))
    · refine ⟨k, ?_, by simpa [Ne.symm hc] using hcycle⟩
      cases hphase with
      | out h' => exact .out fun q hq => h' q ((hwaits q c).mp hq).1
      | behind h' => exact .behind h'
      | first h' => exact .first h'
      | done hw h' =>
        obtain ⟨q, hq⟩ := hw
        refine .done ⟨q, (hwaits q c).mpr ⟨hq, ?_⟩⟩ h'
        rintro rfl
        exact hc (Option.some.inj (hp.symm.trans hq)).symm

theorem Served.step (h : Served s trace Q) (howners : Owners s) (hmove : Move s a t new) :
    ∃ Q', Served t (trace ++ new) Q' := by
  cases hmove with
  | call hidle =>
    exact ⟨Q, h.quiet rfl rfl (waitsFor_update hidle rfl) (fun _ _ _ => rfl) rfl⟩
  | @panic _ p message htask =>
    have hnone : (s.task p).waitsFor = none := by
      rw [← Option.not_isSome_iff_eq_none, Option.isSome_iff_exists]
      rintro ⟨b, hb⟩
      obtain ⟨caller, hcaller⟩ := Task.waitsFor_eq_some.mp hb
      rcases htask with hidle | ⟨-, hne⟩
      · cases hidle.symm.trans hcaller
      · exact hne b caller hcaller
    exact ⟨Q, h.quiet rfl rfl (waitsFor_update rfl hnone.symm) (fun _ _ _ => rfl) rfl⟩
  | hit hawake htask hfind hfree =>
    exact ⟨Q, h.quiet rfl rfl (waitsFor_update htask rfl)
      (update_unwaited (howners.unwaited_of_free hfree) _) rfl⟩
  | doze hawake htask hbusy => exact ⟨Q, h.quiet rfl rfl (fun _ => rfl) (fun _ _ _ => rfl) rfl⟩
  | recycle hawake htask hfind hfree =>
    exact ⟨Q, h.quiet rfl rfl (waitsFor_update htask rfl)
      (update_unwaited (howners.unwaited_of_free hfree) _) rfl⟩
  | miss hawake htask hvalid =>
    exact ⟨Q, h.quiet rfl rfl (waitsFor_update htask rfl) (fun _ _ _ => rfl) rfl⟩
  | ready hawake htask hvalid =>
    exact ⟨Q, h.quiet rfl rfl (waitsFor_update htask rfl) (fun _ _ _ => rfl) rfl⟩
  | enqueue hawake htask hpending happend => exact ⟨_, h.put howners htask hpending happend⟩
  | again hawake htask hpending => exact ⟨Q, h.quiet rfl rfl (fun _ => rfl) (fun _ _ _ => rfl) rfl⟩
  | finish hawake htask hdone => exact ⟨Q, h.finish howners htask hdone⟩
  | release hawake htask =>
    have hunwaited := howners.unwaited (.inr ⟨_, htask⟩) (by rw [htask]; rfl)
    exact ⟨Q, h.quiet rfl rfl (waitsFor_update htask rfl) (update_unwaited hunwaited _) rfl⟩
  | write hidle hheld =>
    have hunwaited := howners.unwaited (.inl hheld) (by rw [hidle]; rfl)
    exact ⟨Q, h.quiet rfl rfl (waitsFor_update hidle rfl) (update_unwaited hunwaited _) rfl⟩
  | letGo hidle hheld =>
    exact ⟨Q, h.quiet rfl rfl (waitsFor_update hidle rfl) (fun _ _ _ => rfl) rfl⟩
  | change hidle hheld =>
    have hunwaited := howners.unwaited (.inl hheld) (by rw [hidle]; rfl)
    exact ⟨Q, h.quiet rfl rfl (fun _ => rfl) (update_unwaited hunwaited _) rfl⟩
  | interrupt hdevice => exact ⟨_, h.interrupt hdevice⟩

omit [DecidableEq Proc] in
theorem Booted.served (h : Booted s) : Served s [] [] := by
  have hwaits : ∀ p, (s.task p).waitsFor = none := by
    intro p
    rw [h.task p]
    rfl
  have hnone : ∀ p b, (s.task p).waitsFor ≠ some b := fun p b hp => Option.some_ne_none b (hp.symm.trans (hwaits p))
  refine ⟨⟨h.idequeue, List.nodup_nil, h.device, fun b hb => absurd hb List.not_mem_nil,
    fun b hb => absurd hb List.not_mem_nil, fun p b hp => absurd hp (hnone p b)⟩, rfl, rfl, fun b => ?_⟩
  exact ⟨0, .out fun p => hnone p b, 0, rfl, rfl⟩

theorem Reaches.served {guard : State Data Proc → Act Data Proc → Prop} {disk : Nat → Nat → Data}
    (h : Reaches guard disk (s, trace)) : ∃ Q, Served s trace Q := by
  refine LibRun.Reachable.invariant (P := fun x => ∃ Q, Served x.1 x.2 Q) ?_ ?_ h
  · rintro ⟨s, trace⟩ ⟨hbooted, -, rfl⟩
    exact ⟨[], hbooted.served⟩
  · rintro ⟨s, trace⟩ y hreach ⟨Q, hserved⟩ ⟨a, t, new, -, hstep, rfl⟩
    exact hserved.step (Reaches.owners hreach) (step_move hstep)

/-- Interrupts, one for each buffer on the queue, complete all requests. -/
theorem Served.drain (h : Served s trace Q) (statuses : List Nat) (hlength : statuses.length = Q.length)
    (hready : ∀ status ∈ statuses, status &&& (0x80 ||| 0x40) = 0x40) :
    ∃ t more, perform (fun _ _ => True) (statuses.map .ideintr) (s, trace) = some (t, trace ++ more) ∧
      buffersAt .started (trace ++ more) = buffersAt .enqueued trace := by
  induction Q generalizing s trace statuses with
  | nil =>
    obtain rfl := List.length_eq_zero_iff.mp hlength
    refine ⟨s, [], by rw [List.append_nil]; rfl, ?_⟩
    rw [List.append_nil, h.started, h.enqueued]
    rfl
  | cons b rest ih =>
    cases statuses with
    | nil => cases hlength
    | cons status statuses =>
      rw [List.forall_mem_cons] at hready
      have hstep : Buffers.step s (.ideintr status) = some (ideintr (s.buf b).command status s) := by
        simp only [Buffers.step, if_pos hready.1, h.queued.device]
        rfl
      have hnew : buffersAt .enqueued (ideintr (s.buf b).command status s).2 = [] := by
        rw [buffersAt, ideintr_stages h.queued.links.1]
        cases (s.buf b).qnext with
        | none => rfl
        | some c => rfl
      obtain ⟨t, more, hrun, hstarted⟩ := ih (h.interrupt h.queued.device) statuses (Nat.succ.inj hlength) hready.2
      refine ⟨t, (ideintr (s.buf b).command status s).2 ++ more, ?_, ?_⟩
      · rw [List.map_cons, perform, if_pos trivial, hstep, ← List.append_assoc]
        exact hrun
      · rw [← List.append_assoc, hstarted, buffersAt_append, hnew, List.append_nil]

/-- When `iderw` returns. -/
theorem Move.returned (h : Move s a t new) (hreturn : .iderw q c ∈ new) :
    (t.buf c).valid = true ∧ (t.buf c).dirty = false := by
  cases h with
  | @enqueue p b caller u hawake htask hpending happend =>
    split_ifs at hreturn
    · simp at hreturn
    · simp at hreturn
  | @finish p b caller hawake htask hdone =>
    cases caller with
    | bread =>
      obtain ⟨-, rfl⟩ : q = p ∧ c = b := by simpa [iderwReturn] using hreturn
      exact hdone
    | bwrite =>
      obtain ⟨-, rfl⟩ : q = p ∧ c = b := by simpa [iderwReturn] using hreturn
      exact hdone
  | @interrupt status cmd hdevice =>
    cases hfirst : s.idequeue with
    | none =>
      rw [ideintr_none hfirst] at hreturn
      exact absurd hreturn List.not_mem_nil
    | some b =>
      have hstage := List.mem_filterMap.mpr ⟨_, hreturn, (rfl : Event.stage (.iderw q c) = some (.returned, c))⟩
      rw [ideintr_stages hfirst] at hstage
      simp at hstage
  | _ => simp at hreturn

/-- The disk queue, in every run: what is on it, what the device works on, in which order the requests are served, and
when `iderw` returns. -/
theorem disk_queue {disk : Nat → Nat → Data} (h : Reaches (fun _ _ => True) disk (s, trace)) :
    (∃ Q, Follows s.links s.idequeue Q ∧ Q.Nodup ∧ s.device = Q.head?.map (fun b => (s.buf b).command) ∧
      buffersAt .enqueued trace = buffersAt .completed trace ++ Q ∧
      buffersAt .started trace = buffersAt .completed trace ++ Q.take 1 ∧
      ∀ statuses : List Nat, statuses.length = Q.length →
        (∀ status ∈ statuses, status &&& (0x80 ||| 0x40) = 0x40) →
          ∃ t more, perform (fun _ _ => True) (statuses.map .ideintr) (s, trace) = some (t, trace ++ more) ∧
            buffersAt .started (trace ++ more) = buffersAt .enqueued trace) ∧
    (∀ b, ∃ n, stagesOf b trace = (List.range n).map turn) ∧
    (∀ p b caller, s.task p = .work b (.iderw caller) → ∃ t, append b s = some t) ∧
    ∀ a t new p b, step s a = some (t, new) → .iderw p b ∈ new →
      (t.buf b).valid = true ∧ (t.buf b).dirty = false := by
  have howners := h.owners
  obtain ⟨Q, hserved⟩ := h.served
  refine ⟨⟨Q, hserved.queued.links, hserved.queued.nodup, hserved.queued.device, hserved.enqueued, hserved.started,
    hserved.drain⟩, fun b => ?_, fun p b caller htask => ?_, fun a t new p b hstep hreturn => ?_⟩
  · obtain ⟨k, -, n, hn, -⟩ := hserved.cycle b
    exact ⟨n, hn⟩
  · have hunwaited := howners.unwaited (.inr ⟨_, htask⟩) (by rw [htask]; rfl)
    obtain ⟨qnext, happend, -⟩ := hserved.queued.append (hserved.queued.unwaited hunwaited)
    exact ⟨_, happend⟩
  · exact (step_move hstep).returned hreturn

/-- Two processes read two sectors, and the first read is completed. -/
def twoReads : List (Act Bool Bool) :=
  [.bread false 0 1, .run false, .run false, .run false, .bread true 0 2, .run true, .run true, .run true,
    .ideintr 0x40, .run false]

theorem twoReads_trace : (perform (fun _ _ => True) twoReads (boot false fun _ _ => true, [])).map (fun x =>
    (buffersAt .enqueued x.2, buffersAt .started x.2, buffersAt .returned x.2)) = some ([0, 1], [0, 1], [0]) := by
  decide +kernel

theorem disk_queue_twoReads : ∃ x, perform (fun _ _ => True) twoReads (boot false fun _ _ => true, []) = some x ∧
    buffersAt .started x.2 = [0, 1] ∧ ∀ b, ∃ n, stagesOf b x.2 = (List.range n).map turn := by
  obtain ⟨x, hx, htrace⟩ := Option.map_eq_some_iff.mp twoReads_trace
  have hreaches : Reaches (fun _ _ => True) (fun _ _ => true) (x.1, x.2) := (reaches_boot _ _ _).perform hx
  exact ⟨x, hx, congrArg (fun y => y.2.1) htrace, (disk_queue hreaches).2.1⟩

/-! The data of a read. -/

theorem idewait_nonneg {status : Nat} : idewait true status ≥ 0 ↔ status &&& (0x20 ||| 0x01) = 0 := by
  unfold idewait
  by_cases hstatus : status &&& (0x20 ||| 0x01) = 0
  · rw [if_neg fun h => h.2 hstatus]
    exact iff_of_true (le_refl 0) hstatus
  · rw [if_pos ⟨rfl, hstatus⟩]
    exact iff_of_false (by decide) hstatus

theorem transfer_read {x : Slot Data} (h : x.dirty = false) (status : Nat) (disk : Nat → Nat → Data) :
    transfer x.command status disk = disk := by
  simp only [transfer, Slot.command, h, Bool.false_eq_true, if_false]

/-- What an interrupt leaves in a buffer after a read: the device's data exactly when the device has reported no
error, but for data that were there before. -/
theorem ideintr_fill_iff {disk : Nat → Nat → Data} (h : Reaches (fun _ _ => True) disk (s, trace)) {status : Nat}
    {data : Data} (hstep : step s (.ideintr status) = some (t, new)) (hfill : .fill b data ∈ new) :
    (t.buf b).valid = true ∧ data = t.disk ((t.buf b).dev % 2) ((t.buf b).sector % 2 ^ 28) ∧
      ((t.buf b).data = data ↔ status &&& (0x20 ||| 0x01) = 0 ∨
        (s.buf b).data = s.disk ((s.buf b).dev % 2) ((s.buf b).sector % 2 ^ 28)) := by
  obtain ⟨Q, hserved⟩ := h.served
  simp only [step] at hstep
  split_ifs at hstep with hready
  obtain ⟨cmd, hcmd, heq⟩ := Option.map_eq_some_iff.mp hstep
  cases Q with
  | nil =>
    rw [hserved.queued.device] at hcmd
    cases hcmd
  | cons c rest =>
    obtain rfl : (s.buf c).command = cmd := Option.some.inj (hserved.queued.device.symm.trans hcmd)
    rw [ideintr_some hserved.queued.links.1] at heq
    obtain ⟨rfl, rfl⟩ := Prod.mk.inj heq
    obtain ⟨hdirty, rfl, rfl⟩ : (s.buf c).dirty = false ∧ b = c ∧
        data = transfer (s.buf c).command status s.disk (s.buf c).command.drive (s.buf c).command.lba := by
      cases hdirty : (s.buf c).dirty with
      | true => simp [hdirty] at hfill
      | false => simpa [hdirty] using hfill
    rw [transfer_read hdirty]
    dsimp only
    rw [update_self]
    refine ⟨rfl, rfl, ?_⟩
    show (if _ then _ else _) = _ ↔ _
    rw [transfer_read hdirty, ← idewait_nonneg]
    by_cases hstatus : idewait true status ≥ 0
    · rw [if_pos ⟨hdirty, hstatus⟩]
      exact iff_of_true rfl (.inl hstatus)
    · rw [if_neg fun hcond => hstatus hcond.2, or_iff_right hstatus]
      exact Iff.rfl

deriving instance DecidableEq for Event

/-- A process asks for a sector and waits for the device. -/
def oneRead : List (Act Bool Bool) := [.bread false 0 1, .run false, .run false, .run false]

theorem ideintr_fill_oneRead : ∃ x y, perform (fun _ _ => True) oneRead (boot false fun _ _ => true, []) = some x ∧
    step x.1 (.ideintr 0x40) = some y ∧ .fill 0 true ∈ y.2 ∧ (y.1.buf 0).data = true := by
  have hrun : ((perform (fun _ _ => True) oneRead (boot false fun _ _ => true, [])).bind fun x =>
      step x.1 (.ideintr 0x40)).map (fun y => decide (.fill 0 true ∈ y.2)) = some true := by
    decide +kernel
  obtain ⟨⟨t, new⟩, hy, hfill⟩ := Option.map_eq_some_iff.mp hrun
  obtain ⟨⟨s, trace⟩, hx, hstep⟩ := Option.bind_eq_some_iff.mp hy
  have hreaches : Reaches (fun _ _ => True) (fun _ _ => true) (s, trace) := (reaches_boot _ _ _).perform hx
  have hmem : Event.fill 0 true ∈ new := of_decide_eq_true hfill
  exact ⟨(s, trace), (t, new), hx, hstep, hmem, ((ideintr_fill_iff hreaches hstep hmem).2.2).mpr (.inl (by decide))⟩

/-- One process reads a sector, the device reports an error, and then another process reads the sector. -/
def badRead : List (Act Bool Bool) :=
  oneRead ++ [.ideintr 0x41, .run false, .brelse false 0, .run false, .bread true 0 1, .run true, .run true]

/-- The device has `true` in the sector, and both processes get `false`. -/
theorem badRead_trace : ∃ s, Reaches (fun _ _ => True) (fun _ _ => true) (s,
    [.recycle 0, .enqueue 0, .start 0, .complete 0, .fill 0 true, .iderw false 0, .bread false 0 1 false,
      .bread true 0 1 false]) ∧ (s.buf 0).valid = true ∧ s.disk 0 1 = true := by
  have hrun : (perform (fun _ _ => True) badRead (boot false fun _ _ => true, [])).map (fun x =>
      (x.2, (x.1.buf 0).valid, x.1.disk 0 1)) = some ([.recycle 0, .enqueue 0, .start 0, .complete 0, .fill 0 true,
        .iderw false 0, .bread false 0 1 false, .bread true 0 1 false], true, true) := by
    decide +kernel
  obtain ⟨⟨s, trace⟩, hx, heq⟩ := Option.map_eq_some_iff.mp hrun
  obtain ⟨rfl, hrest⟩ := Prod.mk.inj heq
  obtain ⟨hvalid, hdisk⟩ := Prod.mk.inj hrest
  exact ⟨s, (reaches_boot _ _ _).perform hx, hvalid, hdisk⟩

end Xv6.Buffers
