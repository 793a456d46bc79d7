import Xv6.Pipe

/-! The runs of a pipe. The bytes stored are those returned by `piperead`, followed by those a reader has in
hand and those in the buffer. -/

namespace Xv6.Pipes

open LibWord LibRing LibSleep Function

attribute [local irreducible] sub32

variable {Proc : Type} {s t : State Proc} {events new : List (Event Proc)} {p q : Proc}

/-- What a reader has copied and not yet returned. -/
def Task.hand : Task → List UInt8
  | copy _ dst => dst
  | _ => []

def inHand (s : State Proc) : List UInt8 := s.lock.elim [] fun p => (s.task p).hand

def Pipe.count (x : Pipe) : Nat := sub32 x.nwrite x.nread

def Pipe.buffered (x : Pipe) : List UInt8 := window PIPESIZE x.data x.nread x.count

theorem stored_append (events new : List (Event Proc)) : stored (events ++ new) = stored events ++ stored new :=
  List.flatMap_append

theorem returned_append (events new : List (Event Proc)) :
    returned (events ++ new) = returned events ++ returned new :=
  List.flatMap_append

/-! The buffer. -/

structure Pipe.Sound (x : Pipe) : Prop where
  nread : x.nread < uintSize
  nwrite : x.nwrite < uintSize
  count : x.count ≤ PIPESIZE

theorem Pipe.Sound.full_iff {x : Pipe} (h : x.Sound) : x.Full ↔ x.count = PIPESIZE := by
  have hr := h.nread
  have hw := h.nwrite
  unfold Pipe.Full Pipe.count sub32
  simp only [uintSize, PIPESIZE] at *
  omega

theorem Pipe.Sound.empty_iff {x : Pipe} (h : x.Sound) : x.nread = x.nwrite ↔ x.count = 0 := by
  rw [Pipe.count, sub32_eq_zero h.nwrite h.nread]
  exact eq_comm

theorem count_lt_uintSize {k : Nat} (h : k ≤ PIPESIZE) : k + 1 < uintSize := by
  simp only [uintSize, PIPESIZE] at *
  omega

theorem Pipe.Sound.store {x : Pipe} (h : x.Sound) (hfull : ¬ x.Full) (b : UInt8) :
    (x.store b).Sound ∧ (x.store b).buffered = x.buffered ++ [b] := by
  have hlt : x.count < PIPESIZE := lt_of_le_of_ne h.count fun heq => hfull (h.full_iff.mpr heq)
  have hcount : (x.store b).count = x.count + 1 :=
    sub32_succ_left h.nwrite h.nread (count_lt_uintSize h.count)
  refine ⟨⟨h.nread, Nat.mod_lt _ (by decide), hcount ▸ hlt⟩, ?_⟩
  have hslot : x.nwrite % PIPESIZE = (x.nread + x.count) % PIPESIZE := by
    have hsum : (x.nread + x.count) % uintSize = x.nwrite := add_sub32 h.nwrite h.nread
    rw [← hsum, Nat.mod_mod_of_dvd _ (by decide)]
  rw [Pipe.buffered, hcount]
  show window PIPESIZE (update x.data (x.nwrite % PIPESIZE) b) x.nread (x.count + 1) = _
  rw [hslot]
  exact window_update_end hlt x.data b

theorem Pipe.Sound.advance {x : Pipe} (h : x.Sound) (hne : x.nread ≠ x.nwrite) :
    x.advance.Sound ∧ x.buffered = x.next :: x.advance.buffered := by
  have hpos : 0 < x.count := Nat.pos_of_ne_zero fun h0 => hne (h.empty_iff.mpr h0)
  have hcount : x.advance.count = x.count - 1 := sub32_succ_right h.nwrite hpos
  have hle := h.count
  refine ⟨⟨Nat.mod_lt _ (by decide), h.nwrite, by omega⟩, ?_⟩
  obtain ⟨k, hk⟩ : ∃ k, x.count = k + 1 := ⟨x.count - 1, by omega⟩
  have hrest : x.advance.buffered = window PIPESIZE x.data (x.nread + 1) k := by
    rw [Pipe.buffered, hcount, hk]
    exact window_mod (by decide) x.data (x.nread + 1) k
  rw [hrest, Pipe.buffered, hk]
  exact window_cons x.data x.nread k

/-! What holds in every state. -/

structure Inv (s : State Proc) (events : List (Event Proc)) : Prop where
  sound : s.pipe.Sound
  data : stored events = returned events ++ inHand s ++ s.pipe.buffered
  holder : ∀ p, s.lock = some p → s.asleep p = none ∧ s.task p ≠ .idle
  copying : ∀ p n dst, s.task p = .copy n dst →
    s.lock = some p ∧ (dst = [] → s.pipe.nread = s.pipe.nwrite → s.pipe.writeopen = false)
  used : ∀ e, s.file e = false → ∀ p, (s.task p).side ≠ some e
  closing : ∀ p e, s.task p = .close e → s.file e = false
  readopen : s.pipe.readopen = false → s.file false = false
  readers : ∀ p, s.asleep p = some .nread → ∃ n, s.task p = .wait n
  writers : ∀ p, s.asleep p = some .nwrite → ∃ addr n i, s.task p = .write addr n i

theorem Opened.inv (h : Opened s) : Inv s [] := by
  have hcount : s.pipe.count = 0 := by
    rw [Pipe.count, h.nread, h.nwrite, sub32_self]
  have hhand : inHand s = [] := by
    rw [inHand, h.lock]
    rfl
  refine ⟨⟨?_, ?_, ?_⟩, ?_, ?_, ?_, ?_, ?_, ?_, ?_, ?_⟩
  · rw [h.nread]
    decide
  · rw [h.nwrite]
    decide
  · rw [hcount]
    exact Nat.zero_le _
  · rw [hhand, Pipe.buffered, hcount]
    rfl
  · intro p hp
    rw [h.lock] at hp
    exact absurd hp.symm (Option.some_ne_none p)
  · intro p n dst hp
    rw [h.task p] at hp
    exact absurd hp Task.noConfusion
  · intro e he
    rw [h.file e] at he
    exact absurd he Bool.noConfusion
  · intro p e hp
    rw [h.task p] at hp
    exact absurd hp Task.noConfusion
  · intro hopen
    rw [h.readopen] at hopen
    exact absurd hopen Bool.noConfusion
  · intro p hp
    rw [h.asleep p] at hp
    exact absurd hp.symm (Option.some_ne_none _)
  · intro p hp
    rw [h.asleep p] at hp
    exact absurd hp.symm (Option.some_ne_none _)

theorem Inv.wakeup (h : Inv s events) (c : Chan) : Inv (s.wakeup c) events where
  sound := h.sound
  data := h.data
  holder p hp := ⟨wakeup_none (h.holder p hp).1, (h.holder p hp).2⟩
  copying := h.copying
  used := h.used
  closing := h.closing
  readopen := h.readopen
  readers p hp := h.readers p (wakeup_eq_some.mp hp).1
  writers p hp := h.writers p (wakeup_eq_some.mp hp).1

theorem inHand_of_lock (hlock : s.lock = some p) : inHand s = (s.task p).hand := by
  rw [inHand, hlock]
  rfl

theorem Inv.close {writable : Bool} (h : Inv s events) (htask : s.task p = .close writable) :
    Inv { s with pipe := s.pipe.close writable } events := by
  have hfile := h.closing p writable htask
  cases writable with
  | false =>
    exact ⟨⟨h.sound.nread, h.sound.nwrite, h.sound.count⟩, h.data, h.holder, h.copying, h.used,
      h.closing, fun _ => hfile, h.readers, h.writers⟩
  | true =>
    exact ⟨⟨h.sound.nread, h.sound.nwrite, h.sound.count⟩, h.data, h.holder,
      fun q n dst hq => ⟨(h.copying q n dst hq).1, fun _ _ => rfl⟩, h.used, h.closing, h.readopen,
      h.readers, h.writers⟩

/-- A process outside all calls holds no lock and does not sleep. -/
theorem Inv.idle (h : Inv s events) (hidle : s.task p = .idle) : s.lock ≠ some p ∧ s.asleep p = none := by
  refine ⟨fun hlock => (h.holder p hlock).2 hidle, ?_⟩
  cases hp : s.asleep p with
  | none => rfl
  | some c =>
    cases c with
    | nread =>
      obtain ⟨n, hn⟩ := h.readers p hp
      exact absurd (hidle.symm.trans hn) Task.noConfusion
    | nwrite =>
      obtain ⟨addr, n, i, hn⟩ := h.writers p hp
      exact absurd (hidle.symm.trans hn) Task.noConfusion

theorem Inv.acquire (h : Inv s events) (hbusy : s.task p ≠ .idle) (hfree : s.lock = none)
    (hawake : s.asleep p = none) : Inv { s with lock := some p } events := by
  have hnone : ∀ q n dst, s.task q ≠ .copy n dst := by
    intro q n dst hq
    have hlock := (h.copying q n dst hq).1
    rw [hfree] at hlock
    exact absurd hlock.symm (Option.some_ne_none q)
  refine ⟨h.sound, ?_, ?_, fun q n dst hq => absurd hq (hnone q n dst), h.used, h.closing, h.readopen,
    h.readers, h.writers⟩
  · rw [h.data]
    congr 2
    rw [inHand, hfree]
    show [] = (s.task p).hand
    cases hp : s.task p with
    | copy n dst => exact absurd hp (hnone p n dst)
    | _ => rfl
  · intro q hq
    rw [← Option.some.inj hq]
    exact ⟨hawake, hbusy⟩

variable [DecidableEq Proc]

theorem leave_task_self (s : State Proc) (p : Proc) : (s.leave p).task p = .idle := update_self _ _ _

theorem leave_task_of_ne (s : State Proc) (hqp : q ≠ p) : (s.leave p).task q = s.task q :=
  update_of_ne hqp _ _

/-- The call of the process that holds the lock ends. -/
theorem Inv.leave (h : Inv s events) (hlock : s.lock = some p) (hstored : stored new = [])
    (hreturned : returned new = (s.task p).hand) : Inv (s.leave p) (events ++ new) := by
  have htask : ∀ q x, (s.leave p).task q = x → x ≠ .idle → q ≠ p ∧ s.task q = x := by
    intro q x hq hx
    by_cases hqp : q = p
    · rw [hqp, leave_task_self] at hq
      exact absurd hq.symm hx
    · exact ⟨hqp, (leave_task_of_ne s hqp).symm.trans hq⟩
  have hkept : ∀ q c, s.asleep q = some c → (s.leave p).task q = s.task q := by
    intro q c hq
    refine leave_task_of_ne s fun hqp => ?_
    rw [hqp, (h.holder p hlock).1] at hq
    exact absurd hq.symm (Option.some_ne_none c)
  refine ⟨h.sound, ?_, fun q hq => absurd hq.symm (Option.some_ne_none q), ?_, ?_, ?_, h.readopen, ?_, ?_⟩
  · rw [stored_append, returned_append, hstored, hreturned, List.append_nil, h.data,
      inHand_of_lock hlock]
    show _ = returned events ++ (s.task p).hand ++ [] ++ s.pipe.buffered
    rw [List.append_nil]
  · grind [h.copying]
  · intro e he q hq
    by_cases hqp : q = p
    · rw [hqp, leave_task_self] at hq
      exact absurd hq.symm (Option.some_ne_none e)
    · rw [leave_task_of_ne s hqp] at hq
      exact h.used e he q hq
  · exact fun q e hq => h.closing q e (htask q _ hq Task.noConfusion).2
  · intro q hq
    rw [hkept q _ hq]
    exact h.readers q hq
  · intro q hq
    rw [hkept q _ hq]
    exact h.writers q hq

/-- The process that holds the lock goes to sleep, with nothing in hand. -/
theorem Inv.sleep {c : Chan} (h : Inv s events) (hlock : s.lock = some p)
    (hreader : c = .nread → ∃ n, s.task p = .wait n)
    (hwriter : c = .nwrite → ∃ addr n i, s.task p = .write addr n i) : Inv (s.sleep p c) events := by
  have hhand : (s.task p).hand = [] := by
    cases c with
    | nread =>
      obtain ⟨n, hp⟩ := hreader rfl
      rw [hp]
      rfl
    | nwrite =>
      obtain ⟨addr, n, i, hp⟩ := hwriter rfl
      rw [hp]
      rfl
  refine ⟨h.sound, ?_, fun q hq => absurd hq.symm (Option.some_ne_none q), ?_, h.used, h.closing,
    h.readopen, ?_, ?_⟩
  · have hdata := h.data
    rw [inHand_of_lock hlock, hhand] at hdata
    exact hdata
  · intro q n dst hq
    obtain ⟨hold, -⟩ := h.copying q n dst hq
    rw [hlock] at hold
    -- The process that sleeps is not the one that copies.
    exfalso
    rw [← Option.some.inj hold] at hq
    cases c with
    | nread =>
      obtain ⟨n', hp⟩ := hreader rfl
      exact absurd (hp.symm.trans hq) Task.noConfusion
    | nwrite =>
      obtain ⟨addr, n', i, hp⟩ := hwriter rfl
      exact absurd (hp.symm.trans hq) Task.noConfusion
  · intro q hq
    rcases update_eq_some.mp hq with ⟨rfl, hc⟩ | ⟨-, hq⟩
    · exact hreader hc
    · exact h.readers q hq
  · intro q hq
    rcases update_eq_some.mp hq with ⟨rfl, hc⟩ | ⟨-, hq⟩
    · exact hwriter hc
    · exact h.writers q hq

/-- The process that holds the lock goes on to another task of the same end. -/
theorem Inv.goOn {x : Pipe} {y : Task} (h : Inv s events) (hlock : s.lock = some p) (hsound : x.Sound)
    (hdata : stored (events ++ new) = returned (events ++ new) ++ y.hand ++ x.buffered)
    (hside : y.side = (s.task p).side) (hbusy : y.side ≠ none)
    (hcopy : ∀ n, y = .copy n [] → x.nread = x.nwrite → x.writeopen = false)
    (hopen : x.readopen = s.pipe.readopen) :
    Inv { s with pipe := x, task := update s.task p y } (events ++ new) := by
  have hkept : ∀ q c, s.asleep q = some c → update s.task p y q = s.task q := by grind [h.holder]
  refine ⟨hsound, ?_, ?_, ?_, ?_, ?_, ?_, ?_, ?_⟩
  · rw [hdata]
    have hhand : inHand { s with pipe := x, task := update s.task p y } = y.hand :=
      (inHand_of_lock (s := { s with pipe := x, task := update s.task p y }) hlock).trans
        (congrArg Task.hand (update_self p y s.task))
    rw [hhand]
  · intro q hq
    refine ⟨(h.holder q hq).1, fun hidle => ?_⟩
    have hqp : q = p := Option.some.inj (hq.symm.trans hlock)
    rw [hqp] at hidle
    rw [(update_self p y s.task).symm.trans hidle] at hbusy
    exact hbusy rfl
  · grind [h.copying]
  · grind [h.used]
  · intro q e hq
    by_cases hqp : q = p
    · subst hqp
      rw [(update_self q y s.task).symm.trans hq] at hbusy
      exact absurd rfl hbusy
    · exact h.closing q e ((update_of_ne hqp y s.task).symm.trans hq)
  · intro hread
    exact h.readopen (hopen.symm.trans hread)
  · intro q hq
    obtain ⟨n, hn⟩ := h.readers q hq
    exact ⟨n, (hkept q _ hq).trans hn⟩
  · intro q hq
    obtain ⟨addr, n, i, hn⟩ := h.writers q hq
    exact ⟨addr, n, i, (hkept q _ hq).trans hn⟩

/-! The turns of the calls. -/

theorem Inv.pipewrite {addr : Nat → UInt8} {n : Int} {i : Nat} (h : Inv s events) (hlock : s.lock = some p)
    (htask : s.task p = .write addr n i) :
    Inv (pipewrite p addr n i s).1 (events ++ (pipewrite p addr n i s).2) := by
  have hhand : (s.task p).hand = [] := by
    rw [htask]
    rfl
  unfold Pipes.pipewrite
  by_cases hlt : (i : Int) < n
  · rw [if_pos hlt]
    by_cases hfull : s.pipe.Full
    · rw [if_pos hfull]
      by_cases hdead : s.pipe.readopen = false ∨ s.killed p = true
      · rw [if_pos hdead]
        exact h.leave hlock rfl hhand.symm
      · rw [if_neg hdead, List.append_nil]
        exact (h.wakeup .nread).sleep hlock (fun hc => absurd hc Chan.noConfusion)
          fun _ => ⟨addr, n, i, htask⟩
    · rw [if_neg hfull]
      obtain ⟨hsound, hbuffered⟩ := h.sound.store hfull (addr i)
      refine h.goOn hlock hsound ?_ (congrArg Task.side htask).symm (Option.some_ne_none true) ?_ rfl
      · rw [stored_append, returned_append, hbuffered, h.data, inHand_of_lock hlock, hhand]
        show _ ++ [addr i] = returned events ++ [] ++ [] ++ _
        simp only [List.append_nil, List.append_assoc]
      · exact fun n hcopy => absurd hcopy Task.noConfusion
  · rw [if_neg hlt]
    exact (h.wakeup .nread).leave hlock rfl hhand.symm

theorem Inv.pipereadWait {n : Int} (h : Inv s events) (hlock : s.lock = some p) (htask : s.task p = .wait n) :
    Inv (pipereadWait p n s).1 (events ++ (pipereadWait p n s).2) := by
  have hhand : (s.task p).hand = [] := by
    rw [htask]
    rfl
  unfold Pipes.pipereadWait
  by_cases hempty : s.pipe.nread = s.pipe.nwrite ∧ s.pipe.writeopen = true
  · rw [if_pos hempty]
    by_cases hkilled : s.killed p = true
    · rw [if_pos hkilled]
      exact h.leave hlock rfl hhand.symm
    · grind [h.sleep]
  · rw [if_neg hempty]
    refine h.goOn hlock h.sound ?_ (congrArg Task.side htask).symm (Option.some_ne_none false) ?_ rfl
    · rw [List.append_nil, h.data, inHand_of_lock hlock, hhand]
      rfl
    · intro _ _ heq
      exact Bool.eq_false_of_not_eq_true fun hopen => hempty ⟨heq, hopen⟩

theorem Inv.pipereadCopy {n : Int} {dst : List UInt8} (h : Inv s events) (hlock : s.lock = some p)
    (htask : s.task p = .copy n dst) :
    Inv (pipereadCopy p n dst s).1 (events ++ (pipereadCopy p n dst s).2) := by
  have hhand : (s.task p).hand = dst := by
    rw [htask]
    rfl
  unfold Pipes.pipereadCopy
  by_cases hmore : (dst.length : Int) < n ∧ s.pipe.nread ≠ s.pipe.nwrite
  · rw [if_pos hmore]
    obtain ⟨hsound, hbuffered⟩ := h.sound.advance hmore.2
    refine h.goOn hlock hsound ?_ (congrArg Task.side htask).symm (Option.some_ne_none false) ?_ rfl
    · rw [List.append_nil, h.data, inHand_of_lock hlock, hhand, hbuffered]
      show _ = returned events ++ (dst ++ [s.pipe.next]) ++ _
      simp only [List.append_assoc, List.singleton_append]
    · intro n' hcopy
      obtain ⟨-, hnil⟩ := Task.copy.inj hcopy
      exact absurd hnil (List.append_ne_nil_of_right_ne_nil _ (List.cons_ne_nil _ _))
  · rw [if_neg hmore]
    refine (h.wakeup .nwrite).leave hlock rfl ?_
    show dst ++ [] = (s.task p).hand
    rw [List.append_nil, hhand]

theorem Inv.pipeclose {writable : Bool} (h : Inv s events) (hlock : s.lock = some p)
    (htask : s.task p = .close writable) :
    Inv (pipeclose p writable s).1 (events ++ (pipeclose p writable s).2) := by
  unfold Pipes.pipeclose
  dsimp only
  refine ((h.close htask).wakeup _).leave hlock ?_ ?_
  · split_ifs <;> rfl
  · show _ = (s.task p).hand
    rw [htask]
    split_ifs <;> rfl

/-- What a turn of the holder of the lock can be. -/
theorem run_eq_some {y : State Proc × List (Event Proc)} (hrun : run p s = some y) :
    s.lock = some p ∧
      ((∃ addr n i, s.task p = .write addr n i ∧ y = Pipes.pipewrite p addr n i s) ∨
        (∃ n, s.task p = .wait n ∧ y = Pipes.pipereadWait p n s) ∨
        (∃ n dst, s.task p = .copy n dst ∧ y = Pipes.pipereadCopy p n dst s) ∨
        ∃ writable, s.task p = .close writable ∧ y = Pipes.pipeclose p writable s) := by
  unfold run at hrun
  by_cases hlock : s.lock = some p
  · grind
  · rw [if_neg hlock] at hrun
    exact absurd hrun.symm (Option.some_ne_none y)

theorem Inv.run {y : State Proc × List (Event Proc)} (h : Inv s events) (hrun : run p s = some y) :
    Inv y.1 (events ++ y.2) := by
  obtain ⟨hlock, hcases⟩ := run_eq_some hrun
  rcases hcases with ⟨addr, n, i, htask, rfl⟩ | ⟨n, htask, rfl⟩ | ⟨n, dst, htask, rfl⟩ |
    ⟨writable, htask, rfl⟩
  · exact h.pipewrite hlock htask
  · exact h.pipereadWait hlock htask
  · exact h.pipereadCopy hlock htask
  · exact h.pipeclose hlock htask

theorem isIdle_iff {x : Task} : x.isIdle = true ↔ x = .idle := by
  cases x <;> simp [Task.isIdle]

/-- A process outside all calls begins one. -/
theorem Inv.newTask {y : Task} {file : Bool → Bool} (h : Inv s events) (hidle : s.task p = .idle)
    (hy : ∀ n dst, y ≠ .copy n dst)
    (hused : ∀ e, file e = false → y.side ≠ some e ∧ ∀ q, q ≠ p → (s.task q).side ≠ some e)
    (hclosing : ∀ e, y = .close e → file e = false) (hfile : ∀ e, s.file e = false → file e = false) :
    Inv { s with task := update s.task p y, file := file } events := by
  obtain ⟨hlock, hasleep⟩ := h.idle hidle
  have hkept : ∀ q, q ≠ p → update s.task p y q = s.task q := fun q hqp =>
    update_of_ne hqp _ _
  have hsleeper : ∀ q c, s.asleep q = some c → q ≠ p := by
    intro q c hq hqp
    rw [hqp, hasleep] at hq
    exact absurd hq.symm (Option.some_ne_none c)
  have hholder : ∀ q, s.lock = some q → q ≠ p := by
    intro q hq hqp
    exact hlock (hqp ▸ hq)
  refine ⟨h.sound, ?_, ?_, ?_, ?_, ?_, fun hopen => hfile _ (h.readopen hopen), ?_, ?_⟩
  · rw [h.data]
    congr 2
    unfold inHand
    cases hcase : s.lock with
    | none => rfl
    | some q => exact congrArg Task.hand (hkept q (hholder q hcase)).symm
  · grind [h.holder]
  · grind [h.copying]
  · grind
  · grind [h.closing]
  · intro q hq
    obtain ⟨n, hn⟩ := h.readers q hq
    exact ⟨n, (hkept q (hsleeper q _ hq)).trans hn⟩
  · grind [h.writers]

theorem Inv.begin {c : Call} (h : Inv s events) (hidle : s.task p = .idle) (hallowed : Allowed s (.call p c)) :
    Inv (begin p s c) events := by
  have hopen : ∀ e e', s.file e = true → s.file e' = false → (some e : Option Bool) ≠ some e' := by
    intro e e' he he' heq
    rw [Option.some.inj heq, he'] at he
    exact absurd he Bool.noConfusion
  cases c with
  | write addr n =>
    exact h.newTask hidle (fun _ _ => Task.noConfusion)
      (fun e he => ⟨hopen true e hallowed he, fun q _ => h.used e he q⟩)
      (fun e he => absurd he Task.noConfusion) fun _ he => he
  | read n =>
    exact h.newTask hidle (fun _ _ => Task.noConfusion)
      (fun e he => ⟨hopen false e hallowed he, fun q _ => h.used e he q⟩)
      (fun e he => absurd he Task.noConfusion) fun _ he => he
  | close writable =>
    obtain ⟨-, hunused⟩ := hallowed
    refine h.newTask hidle (fun _ _ => Task.noConfusion) (fun e he => ⟨?_, fun q _ => ?_⟩)
      (fun e he => ?_) fun e he => ?_
    · exact (Option.some_ne_none e).symm
    · grind [h.used]
    · rw [← Task.close.inj he]
      exact update_self _ _ _
    · grind

theorem Inv.kill (h : Inv s events) (p : Proc) :
    Inv { s with killed := update s.killed p true, asleep := update s.asleep p none }
      events := by
  refine ⟨h.sound, h.data, ?_, h.copying, h.used, h.closing, h.readopen, ?_, ?_⟩
  · intro q hq
    refine ⟨?_, (h.holder q hq).2⟩
    show update s.asleep p none q = none
    by_cases hqp : q = p
    · rw [hqp, update_self]
    · rw [update_of_ne hqp]
      exact (h.holder q hq).1
  · exact fun q hq => h.readers q (update_none_eq_some.mp hq).2
  · exact fun q hq => h.writers q (update_none_eq_some.mp hq).2

/-- What a step can be. -/
theorem step_eq_some {a : Act Proc} {y : State Proc × List (Event Proc)} (hstep : step s a = some y) :
    (∃ p c, a = .call p c ∧ s.task p = .idle ∧ y = (begin p s c, [])) ∨
      (∃ p, a = .acquire p ∧ s.task p ≠ .idle ∧ s.lock = none ∧ s.asleep p = none ∧
        y = ({ s with lock := some p }, [])) ∨
      (∃ p, a = .run p ∧ run p s = some y) ∨
      ∃ p, a = .kill p ∧ y = ({ s with
        killed := update s.killed p true
        asleep := update s.asleep p none }, []) := by
  cases a with
  | call p c =>
    rw [step] at hstep
    by_cases hidle : (s.task p).isIdle = true
    · rw [if_pos hidle] at hstep
      exact .inl ⟨p, c, rfl, isIdle_iff.mp hidle, (Option.some.inj hstep).symm⟩
    · rw [if_neg hidle] at hstep
      exact absurd hstep.symm (Option.some_ne_none y)
  | acquire p =>
    rw [step] at hstep
    by_cases hcan : (s.task p).isIdle = false ∧ s.lock = none ∧ s.asleep p = none
    · rw [if_pos hcan] at hstep
      obtain ⟨hbusy, hfree, hawake⟩ := hcan
      refine .inr (.inl ⟨p, rfl, fun hidle => ?_, hfree, hawake, (Option.some.inj hstep).symm⟩)
      rw [isIdle_iff.mpr hidle] at hbusy
      exact absurd hbusy Bool.noConfusion
    · rw [if_neg hcan] at hstep
      exact absurd hstep.symm (Option.some_ne_none y)
  | run p => exact .inr (.inr (.inl ⟨p, rfl, hstep⟩))
  | kill p => exact .inr (.inr (.inr ⟨p, rfl, (Option.some.inj hstep).symm⟩))

theorem Inv.step {a : Act Proc} {y : State Proc × List (Event Proc)} (h : Inv s events)
    (hallowed : Allowed s a) (hstep : step s a = some y) : Inv y.1 (events ++ y.2) := by
  rcases step_eq_some hstep with ⟨p, c, rfl, hidle, rfl⟩ | ⟨p, rfl, hbusy, hfree, hawake, rfl⟩ |
    ⟨p, rfl, hrun⟩ | ⟨p, rfl, rfl⟩
  · rw [List.append_nil]
    exact h.begin hidle hallowed
  · rw [List.append_nil]
    exact h.acquire hbusy hfree hawake
  · exact h.run hrun
  · rw [List.append_nil]
    exact h.kill p

theorem Reaches.inv {guard : State Proc → Act Proc → Prop} {x : State Proc × List (Event Proc)}
    (h : Reaches guard x) : Inv x.1 x.2 := by
  refine LibRun.Reachable.invariant (P := fun x => Inv x.1 x.2) ?_ ?_ h
  · intro x hx
    rw [hx.2]
    exact hx.1.inv
  · rintro x y - hinv ⟨a, t, new, hallowed, -, hstep, rfl⟩
    exact hinv.step hallowed hstep

theorem not_read_of_pipewrite {addr : Nat → UInt8} {n n' : Int} {i : Nat} {dst : List UInt8} {r : Int} :
    .read q n' dst r ∉ (pipewrite p addr n i s).2 := by
  unfold pipewrite
  split_ifs <;> simp

/-- A read of at least one byte that returns none has found the write end closed and the buffer empty. -/
theorem Inv.read_zero {a : Act Proc} {y : State Proc × List (Event Proc)} {n : Int} {dst : List UInt8}
    (h : Inv s events) (hstep : Pipes.step s a = some y) (hread : .read p n dst 0 ∈ y.2) (hn : 0 < n) :
    s.pipe.writeopen = false ∧ stored events = returned events := by
  rcases step_eq_some hstep with ⟨p, c, rfl, -, rfl⟩ | ⟨p, rfl, -, -, -, rfl⟩ | ⟨q, rfl, hrun⟩ |
    ⟨p, rfl, rfl⟩
  · exact absurd hread List.not_mem_nil
  · exact absurd hread List.not_mem_nil
  · obtain ⟨hlock, hcases⟩ := run_eq_some hrun
    rcases hcases with ⟨addr, n', i, -, rfl⟩ | ⟨n', -, rfl⟩ | ⟨n', dst', htask, rfl⟩ | ⟨writable, -, rfl⟩
    · exact absurd hread not_read_of_pipewrite
    · unfold Pipes.pipereadWait at hread
      split_ifs at hread <;> simp at hread
    · unfold Pipes.pipereadCopy at hread
      by_cases hmore : (dst'.length : Int) < n' ∧ s.pipe.nread ≠ s.pipe.nwrite
      · rw [if_pos hmore] at hread
        exact absurd hread List.not_mem_nil
      · rw [if_neg hmore, List.mem_singleton] at hread
        obtain ⟨-, hn', hdst, hlen⟩ := Event.read.inj hread
        have hnil : dst' = [] := List.eq_nil_of_length_eq_zero (by omega)
        have hempty : s.pipe.nread = s.pipe.nwrite := by
          by_contra hne
          exact hmore ⟨by omega, hne⟩
        refine ⟨(h.copying q n' dst' htask).2 hnil hempty, ?_⟩
        rw [h.data, inHand_of_lock hlock, htask, hnil, Pipe.buffered, h.sound.empty_iff.mp hempty]
        show returned events ++ [] ++ [] = _
        rw [List.append_nil, List.append_nil]
    · unfold Pipes.pipeclose at hread
      dsimp only at hread
      split_ifs at hread <;> simp at hread
  · exact absurd hread List.not_mem_nil

/-- In every run the counters are at most the size of the buffer apart, what `piperead` has returned is the
beginning of what `pipewrite` has stored, and a read that returns 0 has come to the end. -/
theorem pipe_fifo {guard : State Proc → Act Proc → Prop} (h : Reaches guard (s, events)) :
    sub32 s.pipe.nwrite s.pipe.nread ≤ PIPESIZE ∧ returned events <+: stored events ∧
      stored events = returned events ++ inHand s ++ s.pipe.buffered ∧
      ∀ a t new p n dst, Allowed s a → step s a = some (t, new) → .read p n dst 0 ∈ new → 0 < n →
        s.pipe.writeopen = false ∧ stored events = returned events := by
  have hinv := h.inv
  refine ⟨hinv.sound.count, ⟨inHand s ++ s.pipe.buffered, ?_⟩, hinv.data,
    fun _ _ _ _ _ _ _ hstep hread hn => hinv.read_zero hstep hread hn⟩
  rw [hinv.data, List.append_assoc]

/-! Runs of two processes, a reader `false` and a writer `true`. -/

/-- Runs a list of steps that pass a test. -/
def play (ok : State Bool → Act Bool → Bool) (x : State Bool × List (Event Bool)) :
    List (Act Bool) → Option (State Bool × List (Event Bool))
  | [] => some x
  | a :: rest =>
    if ok x.1 a = true then
      (step x.1 a).bind fun y => play ok (y.1, x.2 ++ y.2) rest
    else none

theorem Reaches.play {guard : State Bool → Act Bool → Prop} {ok : State Bool → Act Bool → Bool}
    (hok : ∀ s a, ok s a = true → Allowed s a ∧ guard s a) {x y : State Bool × List (Event Bool)}
    {acts : List (Act Bool)} (h : Reaches guard x) (hplay : play ok x acts = some y) : Reaches guard y := by
  induction acts generalizing x with
  | nil => exact Option.some.inj hplay ▸ h
  | cons a rest ih =>
    rw [Pipes.play] at hplay
    by_cases hcan : ok x.1 a = true
    · rw [if_pos hcan] at hplay
      obtain ⟨z, hstep, hrest⟩ := Option.bind_eq_some_iff.mp hplay
      obtain ⟨hallowed, hguard⟩ := hok x.1 a hcan
      exact ih (.next h ⟨a, z.1, z.2, hallowed, hguard, hstep, rfl⟩) hrest
    · rw [if_neg hcan] at hplay
      exact absurd hplay.symm (Option.some_ne_none y)

/-- A pipe just opened. -/
def opened : State Bool where
  pipe := ⟨fun _ => 0, 0, 0, true, true⟩
  lock := none
  task _ := .idle
  asleep _ := none
  killed _ := false
  file _ := true

theorem opened_opened : Opened opened := ⟨rfl, rfl, rfl, rfl, rfl, fun _ => rfl, fun _ => rfl, fun _ => rfl⟩

/-- Calls of ends that are open, and no end closed. -/
def openEnds (s : State Bool) : Act Bool → Bool
  | .call _ (.write _ _) => s.file true
  | .call _ (.read _) => s.file false
  | .call _ (.close _) => false
  | _ => true

theorem openEnds_allowed (s : State Bool) (a : Act Bool) (h : openEnds s a = true) : Allowed s a := by
  cases a with
  | call p c =>
    cases c with
    | write addr n => exact h
    | read n => exact h
    | close e => exact absurd h Bool.noConfusion
  | _ => trivial

/-- Two bytes written, and read. -/
def twoBytes : List (Act Bool) :=
  [.call true (.write (fun i => UInt8.ofNat (65 + i)) 2), .acquire true, .run true, .run true, .run true,
    .call false (.read 5), .acquire false, .run false, .run false, .run false, .run false]

theorem twoBytes_fifo : ∃ (s : State Bool) (events : List (Event Bool)), Reaches (fun _ _ => True) (s, events) ∧
    returned events = [65, 66] ∧ returned events <+: stored events := by
  have hrun : (play openEnds (opened, []) twoBytes).map (fun x => decide (returned x.2 = [65, 66])) =
      some true := by
    decide +kernel
  obtain ⟨x, hplay, hreturned⟩ := Option.map_eq_some_iff.mp hrun
  have hreach : Reaches (fun _ _ => True) x :=
    Reaches.play (fun s a hok => ⟨openEnds_allowed s a hok, trivial⟩) (.start ⟨opened_opened, rfl⟩) hplay
  exact ⟨x.1, x.2, hreach, of_decide_eq_true hreturned, (pipe_fifo hreach).2.1⟩

end Xv6.Pipes
