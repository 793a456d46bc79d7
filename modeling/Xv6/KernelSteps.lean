import Xv6.KernelInv

/-! Every step of the machine keeps the invariant, provided that a scheduler switches to a `RUNNABLE`
process. Most steps change only the cpu that makes them and the stack it is on. -/

namespace Xv6.Kernel

open Function

variable {ncpu : Nat} {s t u : State ncpu} {c : Fin ncpu} {x y : Ctx} {k : Code}

/-- A step that changes only its own cpu, the stack it is on, and locks it holds. -/
structure Local (s t : State ncpu) (c : Fin ncpu) : Prop where
  cpu : ∀ d, d ≠ c → t.cpu d = s.cpu d
  lock : ∀ d, d ≠ c → ∀ l, t.lock l = some d ↔ s.lock l = some d
  proc : (t.cpu c).proc = (s.cpu c).proc
  onScheduler : (t.cpu c).onScheduler = (s.cpu c).onScheduler
  code : (s.cpu c).onScheduler = false → (t.cpu c).code = (s.cpu c).code
  table : t.data.proc = s.data.proc
  stack : ∀ p, ¬Executing s c p → t.data.stack p = s.data.stack p

theorem Local.executing (h : Local s t c) (p : Slot) : Executing t c p ↔ Executing s c p := by
  unfold Executing
  rw [h.proc, h.onScheduler]

theorem Local.trans (h : Local s t c) (h' : Local t u c) : Local s u c where
  cpu d hd := (h'.cpu d hd).trans (h.cpu d hd)
  lock d hd l := (h'.lock d hd l).trans (h.lock d hd l)
  proc := h'.proc.trans h.proc
  onScheduler := h'.onScheduler.trans h.onScheduler
  code hon := (h'.code (h.onScheduler.trans hon)).trans (h.code hon)
  table := h'.table.trans h.table
  stack p hp := (h'.stack p fun hex => hp ((h.executing p).mp hex)).trans (h.stack p hp)

/-- A change of a cpu that leaves it in its place. -/
structure Stays (f : Cpu → Cpu) : Prop where
  proc : ∀ u, (f u).proc = u.proc
  onScheduler : ∀ u, (f u).onScheduler = u.onScheduler
  code : ∀ u, (f u).code = u.code

theorem stays_pushcli : Stays Cpu.pushcli := ⟨fun _ => rfl, fun _ => rfl, fun _ => rfl⟩

theorem stays_popcli : Stays Cpu.popcli := ⟨fun _ => rfl, fun _ => rfl, fun _ => rfl⟩

theorem local_setCpu {f : Cpu → Cpu} (hf : Stays f) : Local s (s.setCpu c f) c where
  cpu d hd := update_of_ne hd ..
  lock _ _ _ := Iff.rfl
  proc := by simp [State.setCpu, hf.proc]
  onScheduler := by simp [State.setCpu, hf.onScheduler]
  code _ := by simp [State.setCpu, hf.code]
  table := rfl
  stack _ _ := rfl

theorem local_setStack (s : State ncpu) (c : Fin ncpu) (k : Code) : Local s (s.setStack c k) c := by
  cases hon : (s.cpu c).onScheduler with
  | true =>
    have hset : s.setStack c k = s.setCpu c fun u => { u with code := k } := by
      simp [State.setStack, hon]
    rw [hset]
    constructor <;> intros <;> simp_all [State.setCpu]
  | false =>
    cases hproc : (s.cpu c).proc with
    | none =>
      have hset : s.setStack c k = s := by simp [State.setStack, hon, hproc]
      rw [hset]
      constructor <;> intros <;> rfl
    | some p =>
      have hset : s.setStack c k =
          { s with data := { s.data with stack := update s.data.stack p k } } := by
        simp [State.setStack, hon, hproc]
      rw [hset]
      constructor <;> intros <;> try rfl
      rename_i q hq
      have hqp : q ≠ p := by
        rintro rfl
        exact hq ⟨hon, hproc⟩
      exact update_of_ne hqp ..

/-- Taking a free lock, or giving up one's own. -/
theorem local_setLock {l : Lock} {holder : Option (Fin ncpu)} (hs : s.lock l = none ∨ s.lock l = some c)
    (ht : holder = none ∨ holder = some c) : Local s (s.setLock l holder) c where
  cpu _ _ := rfl
  lock d hd m := by
    by_cases hm : m = l
    · subst hm
      have hdc : ¬c = d := fun h => hd h.symm
      rcases hs with hs | hs <;> rcases ht with ht | ht <;> simp [State.setLock, hs, ht, hdc]
    · simp [State.setLock, hm]
  proc := rfl
  onScheduler := rfl
  code _ := rfl
  table := rfl
  stack _ _ := rfl

theorem setStack_cpu (s : State ncpu) (c : Fin ncpu) (k : Code) :
    ∃ code, (s.setStack c k).cpu c = { s.cpu c with code := code } := by
  unfold State.setStack
  split
  · exact ⟨k, by simp [State.setCpu]⟩
  · split <;> exact ⟨_, rfl⟩

@[simp] theorem setStack_lock (s : State ncpu) (c : Fin ncpu) (k : Code) :
    (s.setStack c k).lock = s.lock := by
  unfold State.setStack
  split
  · rfl
  · split <;> rfl

@[simp] theorem setStack_ncli (s : State ncpu) (c : Fin ncpu) (k : Code) :
    ((s.setStack c k).cpu c).ncli = (s.cpu c).ncli := by
  obtain ⟨code, hcode⟩ := setStack_cpu s c k
  rw [hcode]

@[simp] theorem setStack_intr (s : State ncpu) (c : Fin ncpu) (k : Code) :
    ((s.setStack c k).cpu c).intr = (s.cpu c).intr := by
  obtain ⟨code, hcode⟩ := setStack_cpu s c k
  rw [hcode]

@[simp] theorem setStack_locals (s : State ncpu) (c : Fin ncpu) (k : Code) :
    ((s.setStack c k).cpu c).locals = (s.cpu c).locals := by
  obtain ⟨code, hcode⟩ := setStack_cpu s c k
  rw [hcode]

@[simp] theorem setCpu_cpu (s : State ncpu) (c : Fin ncpu) (f : Cpu → Cpu) :
    (s.setCpu c f).cpu c = f (s.cpu c) := by
  simp [State.setCpu]

@[simp] theorem setCpu_lock (s : State ncpu) (c : Fin ncpu) (f : Cpu → Cpu) :
    (s.setCpu c f).lock = s.lock := rfl

theorem setStack_stack (hshape : CpuShape (s.cpu c)) : (s.setStack c k).stack c = k := by
  cases hon : (s.cpu c).onScheduler with
  | true => simp [State.setStack, State.stack, State.setCpu, hon]
  | false =>
    obtain ⟨p, hp⟩ := hshape.proc hon
    simp [State.setStack, State.stack, hon, hp]

theorem setCpu_stack {f : Cpu → Cpu} (hf : Stays f) : (s.setCpu c f).stack c = s.stack c := by
  simp [State.setCpu, State.stack, hf.proc, hf.onScheduler, hf.code]

/-- The part of the invariant that belongs to the cpu after such a step: its type, its locks and its
interrupt state have to be right. -/
theorem Local.cpuInv (hl : Local s t c) (hx : CpuInv s c x) (htyped : Stacked y (t.stack c))
    (hheld : ∀ l, l ∈ y.held ↔ t.lock l = some c) (hnodup : y.held.Nodup)
    (hparked : y.parked = x.parked) (hknown : y.known.Holds s.data.proc (s.cpu c).proc)
    (hlocked : y.parked = true ∨ y.known ≠ .nothing → .ptable ∈ y.held)
    (hncli : (t.cpu c).ncli = y.held.length + spins (t.stack c))
    (hintr : (t.cpu c).intr = true → (t.cpu c).ncli = 0) : CpuInv t c y where
  typed := htyped
  held := hheld
  nodup := hnodup
  locked := hlocked
  ncli := hncli
  intr := hintr
  known := by rwa [hl.table, hl.proc]
  stands p hp := by
    have hstands := hx.stands p ((hl.executing p).mp hp)
    unfold Stands at hstands ⊢
    rwa [hparked, hl.table]

/-- A local step keeps the invariant if it keeps it for its own cpu, a scheduler stays in scheduler
code, and the stack does not take up new slots. -/
theorem Local.framed (hl : Local s t c) (h : Inv s) (hx : CpuInv s c x) (hy : CpuInv t c y)
    (hentry : spins (t.stack c) = 0 ∨
      ∃ l k, s.stack c = .acquire l :: k ∧ t.stack c = .spin l :: k ∧ t.lock = s.lock)
    (hproc : (s.cpu c).onScheduler = true → (s.cpu c).proc = none)
    (hside : ∀ i ∈ t.stack c, i.On (s.side c) = true)
    (howned : (owned (t.stack c)).Sublist (owned (s.stack c))) : Framed s c t := by
  refine ⟨_, hx, ?_⟩
  constructor
  · exact hl.cpu
  · exact hl.lock
  · refine ⟨[], none, none, nofun, nofun, ?_⟩
    rw [hl.table]
    exact .refl
  · exact fun p hp => Or.inl (hl.stack p hp)
  · exact ⟨y, hy⟩
  · exact hentry
  · cases hon : (s.cpu c).onScheduler with
    | true =>
      have hon' : (t.cpu c).onScheduler = true := hl.onScheduler.trans hon
      have hstack : t.stack c = (t.cpu c).code := by simp [State.stack, hon']
      rw [hstack] at hside
      simp only [State.side, hon, if_true] at hside
      exact ⟨hside, fun _ => Or.inl (hl.proc.trans (hproc hon)), by simp [hon'], by simp [hon']⟩
    | false =>
      have hshape := h.shape c
      have hon' : (t.cpu c).onScheduler = false := hl.onScheduler.trans hon
      refine ⟨?_, by simp [hon'], ?_, ?_⟩
      · rw [hl.code hon]
        exact hshape.code
      · rw [hl.proc]
        exact fun _ => hshape.proc hon
      · rw [hl.code hon]
        exact fun _ => hshape.suspended hon
  · exact fun p hp => Or.inl ((hl.executing p).mp hp)
  · exact fun p hp hnot => absurd ((hl.executing p).mpr hp) hnot
  · intro p hp
    rw [((hl.executing p).mpr hp).stack] at hside
    simpa [State.side, hp.1] using hside
  · intro p hp
    rw [((hl.executing p).mpr hp).stack, hp.stack] at howned
    refine ⟨howned.nodup (h.ownedNodup p), fun np hnp => ?_⟩
    have hmem := howned.subset hnp
    rw [hl.table]
    exact ⟨h.embryo p np hmem, Or.inl hmem⟩

theorem Inv.proc_none (h : Inv s) {i : Instr} (hstack : s.stack c = i :: k)
    (hi : ∀ n, i ≠ .afterSwtch n) (hon : (s.cpu c).onScheduler = true) : (s.cpu c).proc = none := by
  have hcode : (s.cpu c).code = i :: k := by
    rw [← hstack]
    simp [State.stack, hon]
  rcases (h.shape c).idleProc hon with hproc | ⟨n, m, hm⟩
  · exact hproc
  · rw [hcode] at hm
    exact absurd (List.cons.inj hm).1 (hi n)

theorem Inv.side_stack (h : Inv s) (c : Fin ncpu) : ∀ i ∈ s.stack c, i.On (s.side c) = true := by
  cases hon : (s.cpu c).onScheduler with
  | true => simpa [State.stack, State.side, hon] using (h.shape c).code
  | false =>
    obtain ⟨p, hp⟩ := (h.shape c).proc hon
    simpa [State.stack, State.side, hon, hp] using h.code p

theorem Nests.not_mem {held : List Lock} {l : Lock} (h : Nests held l) : l ∉ held := by
  intro hmem
  rcases h with h | ⟨rfl, rfl⟩
  · exact absurd (h l hmem) (lt_irrefl _)
  · simp at hmem

theorem CpuInv.stacked (hx : CpuInv s c x) {i : Instr} (hstack : s.stack c = i :: k)
    (hi : ∀ l, i ≠ .spin l) : Typed x (i :: k) := by
  have htyped := hx.typed
  rw [hstack] at htyped
  cases i with
  | spin l => exact absurd rfl (hi l)
  | _ => exact htyped

theorem CpuInv.fits (hx : CpuInv s c x) {i : Instr} (hstack : s.stack c = i :: k)
    (hi : ∀ l, i ≠ .spin l) (hp : i ≠ .panic) : i.Fits x ∧ Typed (i.post x) k := by
  have htyped := hx.stacked hstack hi
  rw [Typed] at htyped
  exact ⟨(htyped.resolve_left hp).1, (htyped.resolve_left hp).2.2⟩

theorem spins_of_ne {i : Instr} (hi : ∀ l, i ≠ .spin l) : spins (i :: k) = 0 := by
  cases i with
  | spin l => exact absurd rfl (hi l)
  | _ => rfl

theorem sublist_owned_tail (i : Instr) (k : Code) : (owned k).Sublist (owned (i :: k)) := by
  rw [owned_cons]
  exact List.sublist_append_right _ _

/-- Code that fits on either side of the instruction it replaces. -/
def SameSide (i : Instr) (m k : Code) : Prop :=
  ∀ side, i.On side = true → ∀ j ∈ m, j.On side = true ∨ j ∈ k

theorem SameSide.tail (i : Instr) (k : Code) : SameSide i k k := fun _ _ _ hj => Or.inr hj

theorem SameSide.panic (i : Instr) (k : Code) : SameSide i [.panic] k := by
  intro side _ j hj
  rw [List.mem_singleton.mp hj]
  cases side <;> exact Or.inl rfl

theorem SameSide.push {i : Instr} {p k : Code}
    (h : ∀ side, i.On side = true → p.all (Instr.On side) = true) : SameSide i (p ++ k) k := by
  intro side hi j hj
  rcases List.mem_append.mp hj with hj | hj
  · exact Or.inl (List.all_eq_true.mp (h side hi) j hj)
  · exact Or.inr hj

theorem Inv.side_next (h : Inv s) {i : Instr} (hstack : s.stack c = i :: k) {m : Code}
    (hm : SameSide i m k) : ∀ j ∈ m, j.On (s.side c) = true := by
  have hside := h.side_stack c
  rw [hstack] at hside
  intro j hj
  rcases hm (s.side c) (hside i List.mem_cons_self) j hj with hj | hj
  · exact hj
  · exact hside j (List.mem_cons_of_mem _ hj)

/-- A step that moves on in the code of its stack, within the same locks. -/
theorem Inv.goOn (h : Inv s) (hx : CpuInv s c x) {i : Instr} (hstack : s.stack c = i :: k)
    (hspin : ∀ l, i ≠ .spin l) (hafter : ∀ n, i ≠ .afterSwtch n) {m : Code} {f : Cpu → Cpu}
    (hf : Stays f) (hncli : ∀ u, (f u).ncli = u.ncli)
    (hintr : ∀ u, (f u).intr = true → u.intr = true ∨ x.held = [])
    (htyped : Typed y m) (hheld : y.held = x.held) (hparked : y.parked = x.parked)
    (hknown : y.known.Holds s.data.proc (s.cpu c).proc)
    (hlocked : y.known ≠ .nothing → .ptable ∈ y.held)
    (hside : SameSide i m k)
    (howned : (owned m).Sublist (owned (i :: k))) : Framed s c ((s.setStack c m).setCpu c f) := by
  have hl : Local s ((s.setStack c m).setCpu c f) c := (local_setStack _ _ _).trans (local_setCpu hf)
  have ht : ((s.setStack c m).setCpu c f).stack c = m :=
    (setCpu_stack hf).trans (setStack_stack (h.shape c))
  have hncli0 : (s.cpu c).ncli = x.held.length := by
    rw [hx.ncli, hstack, spins_of_ne hspin, Nat.add_zero]
  have hncli1 : (((s.setStack c m).setCpu c f).cpu c).ncli = x.held.length := by
    rw [setCpu_cpu, hncli, setStack_ncli, hncli0]
  refine hl.framed h hx (hl.cpuInv hx ?_ ?_ ?_ hparked hknown ?_ ?_ ?_)
    (Or.inl (ht.symm ▸ htyped.stacked.2)) (h.proc_none hstack hafter) ?_ ?_
  · rw [ht]
    exact htyped.stacked.1
  · rw [hheld, setCpu_lock, setStack_lock]
    exact hx.held
  · rw [hheld]
    exact hx.nodup
  · rintro (hp | hk)
    · rw [hheld]
      exact hx.locked (Or.inl (hparked ▸ hp))
    · exact hlocked hk
  · rw [hncli1, hheld, ht, htyped.stacked.2, Nat.add_zero]
  · rw [hncli1, setCpu_cpu]
    intro hintr'
    rcases hintr _ hintr' with hs | hempty
    · rw [setStack_intr] at hs
      rw [← hncli0]
      exact hx.intr hs
    · rw [hempty]
      rfl
  · rw [ht]
    exact h.side_next hstack hside
  · rwa [ht, hstack]

section Locks

variable {l : Lock}

/-- `acquire` comes to its loop: the cpu does not hold the lock yet. -/
theorem framed_acquire (h : Inv s) (hx : CpuInv s c x) (hstack : s.stack c = .acquire l :: k) :
    s.lock l ≠ some c ∧ Framed s c ((s.setStack c (.spin l :: k)).setCpu c Cpu.pushcli) := by
  obtain ⟨hnests, -⟩ := hx.fits hstack nofun nofun
  have hfree : s.lock l ≠ some c := fun hl => hnests.not_mem ((hx.held l).mpr hl)
  refine ⟨hfree, ?_⟩
  have hlocal : Local s ((s.setStack c (.spin l :: k)).setCpu c Cpu.pushcli) c :=
    (local_setStack _ _ _).trans (local_setCpu stays_pushcli)
  have ht : ((s.setStack c (.spin l :: k)).setCpu c Cpu.pushcli).stack c = .spin l :: k :=
    (setCpu_stack stays_pushcli).trans (setStack_stack (h.shape c))
  refine hlocal.framed (y := x) h hx (hlocal.cpuInv hx ?_ ?_ hx.nodup rfl hx.known hx.locked ?_ ?_)
    (Or.inr ⟨l, k, hstack, ht, setStack_lock _ _ _⟩) (h.proc_none hstack nofun) ?_ ?_
  · rw [ht]
    exact hx.stacked hstack nofun
  · rw [setCpu_lock, setStack_lock]
    exact hx.held
  · rw [ht, setCpu_cpu]
    simp [Cpu.pushcli, hx.ncli, hstack, spins]
  · rw [setCpu_cpu]
    exact nofun
  · rw [ht]
    exact h.side_next hstack (.push (p := [.spin l]) fun side _ => by cases side <;> rfl)
  · rw [ht, hstack]
    exact List.Sublist.refl _

/-- The `xchg` succeeds. -/
theorem framed_spin (h : Inv s) (hx : CpuInv s c x) (hstack : s.stack c = .spin l :: k)
    (hfree : s.lock l = none) : Framed s c ((s.setLock l (some c)).setStack c k) := by
  have htyped := hx.typed
  rw [hstack, Stacked, Typed] at htyped
  obtain ⟨hnests, -, hk⟩ := htyped.resolve_left (by simp)
  have hlocal : Local s ((s.setLock l (some c)).setStack c k) c :=
    (local_setLock (Or.inl hfree) (Or.inr rfl)).trans (local_setStack _ _ _)
  have ht := setStack_stack (s := s.setLock l (some c)) (k := k) (h.shape c)
  refine hlocal.framed (y := { x with held := l :: x.held }) h hx
    (hlocal.cpuInv hx ?_ ?_ ?_ rfl hx.known ?_ ?_ ?_) (Or.inl (ht.symm ▸ hk.stacked.2))
    (h.proc_none hstack (by simp)) ?_ ?_
  · rw [ht]
    exact hk.stacked.1
  · intro m
    rw [setStack_lock, List.mem_cons]
    by_cases hm : m = l
    · subst hm
      simp [State.setLock]
    · simp [State.setLock, hm, hx.held m]
  · exact List.nodup_cons.mpr ⟨hnests.not_mem, hx.nodup⟩
  · exact fun hp => List.mem_cons_of_mem _ (hx.locked hp)
  · rw [ht, setStack_ncli, hk.stacked.2]
    simp [State.setLock, hx.ncli, hstack, spins]
  · rw [setStack_intr, setStack_ncli]
    exact hx.intr
  · rw [ht]
    exact h.side_next hstack (.tail _ _)
  · rw [ht, hstack]
    exact sublist_owned_tail _ _

/-- `release` does not panic. -/
theorem release_eq (hx : CpuInv s c x) (hstack : s.stack c = .release l :: k) :
    s.lock l = some c ∧ (s.cpu c).ncli = x.held.length ∧
      release s c l k = ((s.setLock l none).setStack c k).setCpu c Cpu.popcli := by
  obtain ⟨⟨hmem, -⟩, -⟩ := hx.fits hstack nofun nofun
  have hheld : s.lock l = some c := (hx.held l).mp hmem
  have hncli : (s.cpu c).ncli = x.held.length := by
    rw [hx.ncli, hstack]
    rfl
  have hpos : 0 < x.held.length := List.length_pos_of_mem hmem
  have hintr : (s.cpu c).intr = false := by
    by_contra hon
    have := hx.intr (by simpa using hon)
    omega
  have hncli' : (s.cpu c).ncli ≠ 0 := by omega
  refine ⟨hheld, hncli, ?_⟩
  simp [release, hheld, State.setLock, hintr, hncli']

theorem framed_release (h : Inv s) (hx : CpuInv s c x) (hstack : s.stack c = .release l :: k) :
    Framed s c (release s c l k) := by
  obtain ⟨⟨hmem, hparked⟩, hk⟩ := hx.fits hstack nofun nofun
  obtain ⟨hheld, hncli, hrelease⟩ := release_eq hx hstack
  rw [hrelease]
  have hlocal : Local s (((s.setLock l none).setStack c k).setCpu c Cpu.popcli) c :=
    ((local_setLock (Or.inr hheld) (Or.inl rfl)).trans (local_setStack _ _ _)).trans
      (local_setCpu stays_popcli)
  have ht : (((s.setLock l none).setStack c k).setCpu c Cpu.popcli).stack c = k :=
    (setCpu_stack stays_popcli).trans (setStack_stack (h.shape c))
  refine hlocal.framed h hx (hlocal.cpuInv (y := Instr.post x (.release l)) hx ?_ ?_ ?_ rfl ?_ ?_ ?_ ?_)
    (Or.inl (ht.symm ▸ hk.stacked.2)) (h.proc_none hstack nofun) ?_ ?_
  · rw [ht]
    exact hk.stacked.1
  · intro m
    rw [setCpu_lock, setStack_lock, Instr.post, hx.nodup.mem_erase_iff]
    by_cases hm : m = l
    · subst hm
      simp [State.setLock]
    · simp [State.setLock, hm, hx.held m]
  · exact hx.nodup.erase l
  · simp only [Instr.post]
    split
    · trivial
    · exact hx.known
  · simp only [Instr.post]
    intro hp
    have hne : l ≠ .ptable := by
      rintro rfl
      rcases hp with hp | hp
      · rw [hparked rfl] at hp
        cases hp
      · exact hp (if_pos rfl)
    rw [if_neg hne] at hp
    exact (hx.nodup.mem_erase_iff).mpr ⟨hne.symm, hx.locked hp⟩
  · rw [ht, setCpu_cpu, hk.stacked.2]
    simp [Cpu.popcli, Instr.post, hncli, State.setLock, List.length_erase_of_mem hmem]
  · rw [setCpu_cpu]
    simp only [Cpu.popcli, Bool.and_eq_true, beq_iff_eq]
    exact fun hp => hp.1
  · rw [ht]
    exact h.side_next hstack (.tail _ _)
  · rw [ht, hstack]
    exact sublist_owned_tail _ _

end Locks

section Plain

theorem framed_schedRet {intena : Bool} (h : Inv s) (hx : CpuInv s c x)
    (hstack : s.stack c = .schedRet intena :: k) :
    Framed s c ((s.setStack c k).setCpu c fun u => { u with intena := intena }) := by
  obtain ⟨hfits, hk⟩ := hx.fits hstack nofun nofun
  simp only [Instr.Fits] at hfits
  subst hfits
  exact h.goOn hx hstack nofun nofun ⟨fun _ => rfl, fun _ => rfl, fun _ => rfl⟩ (fun _ => rfl)
    (fun _ hu => Or.inl hu) hk rfl rfl trivial nofun (.tail _ _) (sublist_owned_tail _ _)

theorem framed_iret (h : Inv s) (hx : CpuInv s c x) (hstack : s.stack c = .iret :: k) :
    Framed s c ((s.setStack c k).setCpu c fun u => { u with intr := true }) := by
  obtain ⟨hfits, hk⟩ := hx.fits hstack nofun nofun
  simp only [Instr.Fits] at hfits
  subst hfits
  exact h.goOn hx hstack nofun nofun ⟨fun _ => rfl, fun _ => rfl, fun _ => rfl⟩ (fun _ => rfl)
    (fun _ _ => Or.inr rfl) hk rfl rfl trivial nofun (.tail _ _) (sublist_owned_tail _ _)

theorem framed_panic (h : Inv s) (hx : CpuInv s c x) (hstack : s.stack c = .panic :: k) :
    Framed s c ((s.setStack c [.panic]).setCpu c fun u => { u with intr := false }) :=
  h.goOn (y := x) hx hstack nofun nofun ⟨fun _ => rfl, fun _ => rfl, fun _ => rfl⟩ (fun _ => rfl)
    (fun _ hu => nomatch hu) (Typed.panic _ _) rfl rfl hx.known (fun hk => hx.locked (Or.inr hk))
    (.panic _ _) (List.nil_sublist _)

theorem framed_schedTop (h : Inv s) (hx : CpuInv s c x) (hstack : s.stack c = .schedTop :: k) :
    Framed s c ((s.setStack c (.acquire .ptable :: .scanSlot 0 :: k)).setCpu c
      fun u => { u with intr := true }) := by
  obtain ⟨hfits, hk⟩ := hx.fits hstack (by simp) (by simp)
  simp only [Instr.Fits] at hfits
  subst hfits
  have hk' : Typed {} (.acquire .ptable :: .scanSlot 0 :: k) := by
    simpa [Typed, Nests] using hk
  refine h.goOn hx hstack (by simp) (by simp) ⟨fun _ => rfl, fun _ => rfl, fun _ => rfl⟩ (fun _ => rfl)
    (fun _ _ => Or.inr rfl) hk' rfl rfl trivial (by simp) ?_ (List.Sublist.refl _)
  refine SameSide.push (p := [.acquire .ptable, .scanSlot 0]) ?_
  rintro ⟨⟩ hside
  · rfl
  · cases hside

theorem framed_fairRatio {p : Slot} {high : Bool} {f : Locals → Locals} (h : Inv s) (hx : CpuInv s c x)
    (hstack : s.stack c = .fairRatio p high :: k) :
    Framed s c ((s.setStack c k).setCpu c fun u => { u with locals := f u.locals }) := by
  obtain ⟨hfits, hk⟩ := hx.fits hstack nofun nofun
  simp only [Instr.Fits] at hfits
  subst hfits
  exact h.goOn hx hstack nofun nofun ⟨fun _ => rfl, fun _ => rfl, fun _ => rfl⟩ (fun _ => rfl)
    (fun _ hu => Or.inl hu) hk rfl rfl trivial nofun (.tail _ _) (sublist_owned_tail _ _)

theorem setCpu_id (s : State ncpu) (c : Fin ncpu) : s.setCpu c id = s := by
  simp [State.setCpu]

theorem framed_scanEnd {p : Nat} (h : Inv s) (hx : CpuInv s c x) (hstack : s.stack c = .scanSlot p :: k) :
    Framed s c (s.setStack c (.release .ptable :: .schedTop :: k)) := by
  obtain ⟨hfits, hk⟩ := hx.fits hstack (by simp) (by simp)
  simp only [Instr.Fits] at hfits
  subst hfits
  have hk' : Typed (.on .ptable) (.release .ptable :: .schedTop :: k) := by simpa [Typed] using hk
  rw [← setCpu_id (s.setStack c _) c]
  refine h.goOn hx hstack (by simp) (by simp) ⟨fun _ => rfl, fun _ => rfl, fun _ => rfl⟩ (fun _ => rfl)
    (fun _ hu => Or.inl hu) hk' rfl rfl trivial (by simp) ?_ (List.Sublist.refl _)
  refine SameSide.push (p := [.release .ptable, .schedTop]) ?_
  rintro ⟨⟩ hside
  · rfl
  · cases hside

end Plain

/-- A ratio is computed for a process found `RUNNABLE`. -/
theorem examineSlot_ratio {cfg : Config} {t : Table} {l : Locals} {p : Slot} {high : Bool}
    (h : (examineSlot cfg t l p).1 = .ratio high) : (t p).state = .runnable := by
  unfold examineSlot at h
  cases hpolicy : cfg.policy with
  | rr =>
    simp only [hpolicy] at h
    split at h <;> cases h
  | rr2q =>
    simp only [hpolicy] at h
    split at h
    · cases h
    · split at h <;> cases h
  | fair2q =>
    simp only [hpolicy] at h
    by_contra hnot
    unfold Fair2q.examine at h
    simp only [hnot, false_and, if_false] at h
    split_ifs at h
    all_goals (split at h <;> simp_all)

theorem framed_scan {cfg : Config} {p : Slot} (h : Inv s) (hx : CpuInv s c x)
    (hstack : s.stack c = .scanSlot p.val :: k)
    (hswitch : ∀ q next, (examineSlot cfg s.data.proc (s.cpu c).locals p).1 ≠ .switch q next) :
    Framed s c (scan cfg s c p k) := by
  obtain ⟨hfits, hk⟩ := hx.fits hstack (by simp) (by simp)
  simp only [Instr.Fits] at hfits
  subst hfits
  cases he : (examineSlot cfg s.data.proc (s.cpu c).locals p).1 with
  | skip =>
    simp only [scan, he]
    have hk' : Typed (.on .ptable) (.scanSlot (p.val + 1) :: k) := by simpa [Typed] using hk
    refine h.goOn hx hstack (by simp) (by simp) ⟨fun _ => rfl, fun _ => rfl, fun _ => rfl⟩ (fun _ => rfl)
      (fun _ hu => Or.inl hu) hk' rfl rfl trivial (by simp) ?_ (List.Sublist.refl _)
    refine SameSide.push (p := [.scanSlot (p.val + 1)]) ?_
    rintro ⟨⟩ hside
    · rfl
    · cases hside
  | ratio high =>
    simp only [scan, he]
    have hk' : Typed { held := [.ptable], known := .runnable p }
        (clockticks (.fairRatio p high) ++ .scanSlot (p.val + 1) :: k) := by
      simpa [clockticks, Typed, Nests] using hk
    refine h.goOn hx hstack (by simp) (by simp) ⟨fun _ => rfl, fun _ => rfl, fun _ => rfl⟩ (fun _ => rfl)
      (fun _ hu => Or.inl hu) hk' rfl rfl (examineSlot_ratio he) (by simp) ?_ (List.Sublist.refl _)
    refine SameSide.push (p := clockticks (.fairRatio p high) ++ [.scanSlot (p.val + 1)]) ?_
    rintro ⟨⟩ hside
    · rfl
    · cases hside
  | switch q next => exact absurd he (hswitch q next)
  | wild =>
    simp only [scan, he]
    exact h.goOn hx hstack (by simp) (by simp) ⟨fun _ => rfl, fun _ => rfl, fun _ => rfl⟩ (fun _ => rfl)
      (fun _ hu => Or.inl hu) (Typed.panic _ _) rfl rfl hx.known (fun hk => hx.locked (Or.inr hk))
      (.panic _ _) (List.nil_sublist _)

/-! The switches. -/

theorem Inv.on_scheduler (h : Inv s) {i : Instr} (hstack : s.stack c = i :: k)
    (hi : i.On .process = false) : (s.cpu c).onScheduler = true := by
  have hside := h.side_stack c i (hstack ▸ List.mem_cons_self)
  cases hon : (s.cpu c).onScheduler with
  | true => rfl
  | false =>
    simp only [State.side, hon, Bool.false_eq_true, if_false, hi] at hside

theorem stack_of_scheduler (hon : (s.cpu c).onScheduler = true) : s.stack c = (s.cpu c).code := by
  simp [State.stack, hon]

/-- Behind the switch the scheduler has no process and goes on with its scan. -/
theorem framed_afterSwtch {n : Nat} (h : Inv s) (hx : CpuInv s c x)
    (hstack : s.stack c = .afterSwtch n :: k) :
    Framed s c ((s.setStack c (.scanSlot n :: k)).setCpu c fun u => { u with proc := none }) := by
  have hon := h.on_scheduler hstack rfl
  obtain ⟨hfits, hk⟩ := hx.fits hstack (by simp) (by simp)
  simp only [Instr.Fits] at hfits
  subst hfits
  have ht : (s.setStack c (.scanSlot n :: k)).setCpu c (fun u => { u with proc := none }) =
      s.setCpu c fun u => { u with code := .scanSlot n :: k, proc := none } := by
    simp [State.setStack, hon, State.setCpu]
  rw [ht]
  have hcode : ∀ i ∈ k, i.On .scheduler = true := by
    have hall := (h.shape c).code
    rw [← stack_of_scheduler hon, hstack] at hall
    exact fun i hi => hall i (List.mem_cons_of_mem _ hi)
  have hstack' : (s.setCpu c fun u => { u with code := .scanSlot n :: k, proc := none }).stack c =
      .scanSlot n :: k := by
    simp [State.stack, hon]
  have hnot : ∀ p, ¬Executing s c p := fun p hp => by simp [hp.1] at hon
  refine ⟨_, hx, ?_⟩
  constructor
  · exact fun d hd => update_of_ne hd ..
  · exact fun _ _ _ => Iff.rfl
  · exact ⟨[], none, none, (by simp), (by simp), .refl⟩
  · exact fun _ _ => Or.inl rfl
  · refine ⟨.on .ptable, ?_, hx.held, hx.nodup, (by simp), ?_, ?_, trivial, ?_⟩
    · rw [hstack']
      simpa [Stacked, Typed] using hk
    · rw [hstack', setCpu_cpu]
      simpa [hstack, spins] using hx.ncli
    · rw [setCpu_cpu]
      exact hx.intr
    · intro p hp
      simp [Executing, hon] at hp
  · rw [hstack']
    exact Or.inl rfl
  · rw [setCpu_cpu]
    refine ⟨?_, fun _ => Or.inl rfl, by simp [hon], by simp [hon]⟩
    intro i hi
    rcases List.mem_cons.mp hi with rfl | hi
    · rfl
    · exact hcode i hi
  · intro p hp
    simp [Executing, hon] at hp
  · exact fun p hp => absurd hp (hnot p)
  · exact fun p hp => absurd hp (hnot p)
  · exact fun p hp => absurd hp (hnot p)

/-- The state behind the switch of `sched`. -/
def State.leave (s : State ncpu) (c : Fin ncpu) (p : Slot) (k : Code) : State ncpu :=
  { s with
    cpu := update s.cpu c { s.cpu c with onScheduler := true }
    data := { s.data with
      stack := update s.data.stack p (.schedRet (s.cpu c).intena :: k) } }

/-- `sched` does not panic. -/
theorem sched_eq (h : Inv s) (hx : CpuInv s c x) (hstack : s.stack c = .sched :: k) :
    x = .parking ∧ (s.cpu c).ncli = 1 ∧ (s.cpu c).intr = false ∧
      ∃ p, Executing s c p ∧ sched s c k = s.leave c p k := by
  obtain ⟨hfits, -⟩ := hx.fits hstack nofun nofun
  simp only [Instr.Fits] at hfits
  subst hfits
  have hon : (s.cpu c).onScheduler = false := by
    cases hon : (s.cpu c).onScheduler with
    | false => rfl
    | true =>
      have hside := h.side_stack c .sched (hstack ▸ List.mem_cons_self)
      simp [State.side, hon, Instr.On] at hside
  obtain ⟨p, hp⟩ := (h.shape c).proc hon
  have hexec : Executing s c p := ⟨hon, hp⟩
  have hlock : s.lock .ptable = some c := (hx.held _).mp (by simp)
  have hncli : (s.cpu c).ncli = 1 := by
    rw [hx.ncli, hstack]
    rfl
  have hintr : (s.cpu c).intr = false := by
    by_contra hintr
    have := hx.intr (by simpa using hintr)
    omega
  have hstate : (s.data.proc p).state ≠ .running := by
    have hstands := hx.stands p hexec
    intro hrun
    simp [Stands, hrun] at hstands
  refine ⟨rfl, hncli, hintr, p, hexec, ?_⟩
  simp [sched, State.leave, hp, hlock, hncli, hintr, hstate, State.setStack, State.setCpu, hon]

/-- The process leaves the cpu, and the scheduler goes on with the lock. -/
theorem framed_sched (h : Inv s) (hx : CpuInv s c x) (hstack : s.stack c = .sched :: k) :
    Framed s c (sched s c k) := by
  obtain ⟨-, hk⟩ := hx.fits hstack nofun nofun
  obtain ⟨rfl, hncli, hintr, p, hexec, hsched⟩ := sched_eq h hx hstack
  obtain ⟨hon, hp⟩ := hexec
  have hexec : Executing s c p := ⟨hon, hp⟩
  obtain ⟨⟨n, m, hcode⟩, hsusp⟩ := (h.shape c).suspended hon
  rw [hsched, State.leave]
  have hstack' := hexec.stack.symm.trans hstack
  refine ⟨_, hx, ?_⟩
  constructor
  · exact fun d hd => update_of_ne hd ..
  · exact fun _ _ _ => Iff.rfl
  · exact ⟨[], none, none, nofun, nofun, .refl⟩
  · intro q hq
    have hqp : q ≠ p := by
      rintro rfl
      exact hq hexec
    exact Or.inl (update_of_ne hqp ..)
  · refine ⟨.on .ptable, ?_, hx.held, hx.nodup, nofun, ?_, ?_, trivial, ?_⟩
    · simpa [State.stack] using hsusp.stacked.1
    · simp [State.stack, hncli, hsusp.stacked.2]
    · simp [hintr]
    · intro q hq
      simp [Executing] at hq
  · exact Or.inl (by simpa [State.stack] using hsusp.stacked.2)
  · simp only [update_self]
    exact ⟨(h.shape c).code, fun _ => Or.inr ⟨n, m, hcode⟩, by simp, by simp⟩
  · intro q hq
    simp [Executing] at hq
  · intro q hq _
    have hqp : q = p := Option.some.inj (hq.2.symm.trans hp)
    subst hqp
    simpa [Typed] using hk
  · intro q hq i hi
    have hqp : q = p := Option.some.inj (hq.2.symm.trans hp)
    subst hqp
    simp only [update_self, List.mem_cons] at hi
    rcases hi with rfl | hi
    · rfl
    · exact h.code q i (hstack' ▸ List.mem_cons_of_mem _ hi)
  · intro q hq
    have hqp : q = p := Option.some.inj (hq.2.symm.trans hp)
    subst hqp
    have howned : owned (.schedRet (s.cpu c).intena :: k) = owned (s.data.stack q) := by
      rw [hstack']
      rfl
    simp only [update_self, howned]
    exact ⟨h.ownedNodup q, fun np hnp => ⟨h.embryo q np hnp, Or.inl hnp⟩⟩

/-- A `RUNNABLE` process executes nowhere while a scheduler holds the lock. -/
theorem Inv.not_executing (h : Inv s) (hlock : s.lock .ptable = some c)
    (hon : (s.cpu c).onScheduler = true) {q : Slot} (hq : (s.data.proc q).state = .runnable)
    (d : Fin ncpu) : ¬Executing s d q := by
  intro hexec
  obtain ⟨y, hy⟩ := h.cpu d
  have hstands := hy.stands q hexec
  unfold Stands at hstands
  split at hstands
  · rename_i hparked
    have hd := (hy.held _).mp (hy.locked (Or.inl hparked))
    have hdc : d = c := Option.some.inj (hd.symm.trans hlock)
    subst hdc
    simp [hexec.1] at hon
  · rw [hq] at hstands
    cases hstands

/-- The switch to a `RUNNABLE` process. -/
theorem framed_dispatch {p : Nat} {q : Slot} {l : Locals} {next : Nat} (h : Inv s) (hx : CpuInv s c x)
    (hstack : s.stack c = .scanSlot p :: k) (hq : (s.data.proc q).state = .runnable) :
    Framed s c (s.dispatch c q l (.afterSwtch next :: k)) := by
  have hon := h.on_scheduler hstack rfl
  obtain ⟨hfits, hk⟩ := hx.fits hstack nofun nofun
  simp only [Instr.Fits] at hfits
  subst hfits
  have hlock : s.lock .ptable = some c := (hx.held _).mp (by simp)
  have hnot := h.not_executing hlock hon hq
  have hidle : ∀ r, ¬Executing s c r := fun r hr => by simp [hr.1] at hon
  have hcode : ∀ i ∈ k, i.On .scheduler = true := by
    have hall := (h.shape c).code
    rw [← stack_of_scheduler hon, hstack] at hall
    exact fun i hi => hall i (List.mem_cons_of_mem _ hi)
  have hoff : Typed (.on .ptable) (s.data.stack q) := h.off q hnot
  refine ⟨_, hx, ?_⟩
  constructor
  · exact fun d hd => update_of_ne hd ..
  · exact fun _ _ _ => Iff.rfl
  · refine ⟨[], none, some q, nofun, nofun, TableStep.update ?_ fun _ _ => rfl⟩
    rw [hq]
    exact .run (by simp) rfl
  · exact fun _ _ => Or.inl rfl
  · refine ⟨.on .ptable, ?_, hx.held, hx.nodup, nofun, ?_, ?_, trivial, ?_⟩
    · simpa [State.dispatch, State.stack, Data.setProc] using hoff.stacked.1
    · have hncli : (s.cpu c).ncli = 1 := by
        rw [hx.ncli, hstack]
        rfl
      simp [State.dispatch, State.stack, Data.setProc, hoff.stacked.2, hncli]
    · simpa [State.dispatch] using hx.intr
    · intro r hr
      have hrq : r = q := by simpa [Executing, State.dispatch, eq_comm] using hr
      subst hrq
      simp [State.dispatch, Data.setProc, Stands]
  · exact Or.inl (by simpa [State.dispatch, State.stack, Data.setProc] using hoff.stacked.2)
  · simp only [State.dispatch, update_self]
    refine ⟨?_, by simp, fun _ => ⟨q, rfl⟩, fun _ => ⟨⟨next, k, rfl⟩, by simpa [Typed] using hk⟩⟩
    intro i hi
    rcases List.mem_cons.mp hi with rfl | hi
    · rfl
    · exact hcode i hi
  · intro r hr
    have hrq : r = q := by simpa [Executing, State.dispatch, eq_comm] using hr
    subst hrq
    exact Or.inr hnot
  · exact fun r hr => absurd hr (hidle r)
  · exact fun r hr => absurd hr (hidle r)
  · exact fun r hr => absurd hr (hidle r)

end Xv6.Kernel
