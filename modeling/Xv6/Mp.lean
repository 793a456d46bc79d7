import Xv6.LibWord

/-! `mp.c`: the search for the MP configuration table, the checks of `mpconfig`, and the walk of `mpinit` over the
entries of the table, with the addresses it reads and its stores into `cpus`. Addresses are 32-bit words. -/

namespace Xv6.Mp

open LibWord

/-- `NCPU`: the length of `cpus`. -/
def ncpuMax : Nat := 8

/-- Physical memory. -/
abbrev Mem := Nat → UInt8

/-- A sum of an address and an offset. -/
def ptr (a off : Nat) : Nat := (a + off) % uintSize

def Mem.byte (mem : Mem) (a off : Nat) : Nat := (mem (ptr a off)).toNat

def Mem.ushort (mem : Mem) (a off : Nat) : Nat := mem.byte a off + 2 ^ 8 * mem.byte a (off + 1)

def Mem.word (mem : Mem) (a off : Nat) : Nat := mem.ushort a off + 2 ^ 16 * mem.ushort a (off + 2)

/-- `memcmp` of the bytes at an address with others gives 0. -/
def same (mem : Mem) (a : Nat) (bytes : List Nat) : Bool :=
  (List.range bytes.length).map (mem.byte a) = bytes

/-- `sum`, the checksum of `len` bytes. -/
def sum (mem : Mem) (addr len : Nat) : Nat := ((List.range len).map (mem.byte addr)).sum % 2 ^ 8

/-! The floating pointer structure. -/

/-- The size of `struct mp`. -/
def mpSize : Nat := 16

/-- `_MP_`. -/
def mpSignature : List Nat := [95, 77, 80, 95]

/-- The loop of `mpsearch1`, with a number of iterations that it cannot exceed. -/
def searchFrom (mem : Mem) (e : Nat) : Nat → Nat → Option Nat
  | 0, _ => none
  | k + 1, p =>
    if p < e then
      if same mem p mpSignature ∧ sum mem p mpSize = 0 then some p else searchFrom mem e k (ptr p mpSize)
    else none

def mpsearch1 (mem : Mem) (addr len : Nat) : Option Nat := searchFrom mem (ptr addr len) (len / mpSize) addr

/-- The BIOS data area. -/
def bda : Nat := 0x400

def mpsearch (mem : Mem) : Option Nat :=
  let p := mem.ushort bda 0x0E * 2 ^ 4
  let found := if p ≠ 0 then mpsearch1 mem p 1024 else mpsearch1 mem (sub32 (mem.ushort bda 0x13 * 1024) 1024) 1024
  found.orElse fun _ => mpsearch1 mem 0xF0000 0x10000

/-! The configuration table. -/

/-- The size of `struct mpconf`. -/
def confSize : Nat := 44

/-- `PCMP`. -/
def confSignature : List Nat := [80, 67, 77, 80]

/-- `conf->length`. -/
def confLength (mem : Mem) (conf : Nat) : Nat := mem.ushort conf 4

/-- `conf->version`. -/
def confVersion (mem : Mem) (conf : Nat) : Nat := mem.byte conf 6

/-- `mpconfig`: the floating pointer structure and the table. -/
def mpconfig (mem : Mem) : Option (Nat × Nat) :=
  match mpsearch mem with
  | none => none
  | some mp =>
    let conf := mem.word mp 4
    if conf = 0 then none
    else if ¬ same mem conf confSignature then none
    else if confVersion mem conf ≠ 1 ∧ confVersion mem conf ≠ 4 then none
    else if sum mem conf (confLength mem conf) ≠ 0 then none
    else some (mp, conf)

/-- The types of entries. -/
inductive Kind where
  | proc
  | bus
  | ioapic
  | iointr
  | lintr
  deriving DecidableEq

def Kind.ofByte : Nat → Option Kind
  | 0 => some .proc
  | 1 => some .bus
  | 2 => some .ioapic
  | 3 => some .iointr
  | 4 => some .lintr
  | _ => none

/-- The size of an entry: of `struct mpproc`, of `struct mpioapic`, or 8. -/
def Kind.size : Kind → Nat
  | .proc => 20
  | _ => 8

/-- The variables of `mpinit`, with the addresses it has read in the loop and its stores `cpus[i].id = id`. -/
structure World where
  p : Nat := 0
  ismp : Bool := false
  lapic : Nat := 0
  ncpu : Nat := 0
  bcpu : Nat := 0
  ioapicid : Nat := 0
  imcr : Bool := false
  reads : List Nat := []
  stores : List (Nat × Nat) := []

/-- A panic keeps the state in which it happens. -/
abbrev Code := ExceptT String (StateM World)

/-- A byte of the entry at `p`. -/
def fetch (mem : Mem) (off : Nat) : Code Nat := do
  let w ← get
  set { w with reads := w.reads ++ [ptr w.p off] }
  pure (mem.byte w.p off)

/-- The case `MPPROC`. -/
def procEntry (mem : Mem) : Code Unit := do
  let apicid ← fetch mem 1
  let w ← get
  if w.ncpu ≠ apicid then throw "mpinit"
  else do
    let flags ← fetch mem 3
    modify fun w => { w with
      bcpu := if flags / 2 % 2 = 1 then w.ncpu else w.bcpu
      stores := w.stores ++ [(w.ncpu, w.ncpu % 2 ^ 8)]
      ncpu := w.ncpu + 1 }

/-- The case `MPIOAPIC`. -/
def ioapicEntry (mem : Mem) : Code Unit := do
  let apicno ← fetch mem 1
  modify fun w => { w with ioapicid := apicno }

/-- What is done with an entry before `p` is moved. -/
def Kind.entry (mem : Mem) : Kind → Code Unit
  | .proc => procEntry mem
  | .ioapic => ioapicEntry mem
  | .bus => pure ()
  | .iointr => pure ()
  | .lintr => pure ()

/-- The body of the loop. -/
def entry (mem : Mem) : Code Unit := do
  let type ← fetch mem 0
  match Kind.ofByte type with
  | none => throw "mpinit"
  | some kind => do
    kind.entry mem
    modify fun w => { w with p := ptr w.p kind.size }

/-- The loop of `mpinit` up to the end `e` of the table, with a number of iterations; it has no result if they do not
suffice. -/
def walk (mem : Mem) (e : Nat) : Nat → World → Option (Except String Unit × World)
  | 0, w => if w.p < e then none else some (.ok (), w)
  | k + 1, w =>
    if w.p < e then
      match (entry mem).run w with
      | (.ok (), w) => walk mem e k w
      | (.error message, w) => some (.error message, w)
    else some (.ok (), w)

def mpinit (mem : Mem) : Option (Except String Unit × World) :=
  match mpconfig mem with
  | none => some (.ok (), {})
  | some (mp, conf) =>
    let w : World := { p := ptr conf confSize, ismp := true, lapic := mem.word conf 36 }
    match walk mem (ptr conf (confLength mem conf)) (confLength mem conf) w with
    | some (.ok (), w) => some (.ok (), { w with imcr := mem.byte mp 12 ≠ 0 })
    | result => result

/-! What the walk is to do. -/

/-- The entries of a table, from one address on, up to the first of an unknown type. -/
def entries (mem : Mem) (e : Nat) : Nat → Nat → List Nat
  | 0, _ => []
  | k + 1, a =>
    if a < e then a :: (Kind.ofByte (mem a).toNat).elim [] fun kind => entries mem e k (a + kind.size) else []

/-- The entries of the table at `conf`. -/
def tableEntries (mem : Mem) (conf : Nat) : List Nat :=
  entries mem (conf + confLength mem conf) (confLength mem conf) (conf + confSize)

/-- The number of processors among the entries. -/
def processors (mem : Mem) (l : List Nat) : Nat := l.countP fun a => mem a = 0

/-- The walk ends or panics, has read bytes of the table only, has stored into `cpus` only, and if it has ended it has
counted the processors. -/
structure Sound (mem : Mem) (conf : Nat) (result : Except String Unit) (w : World) : Prop where
  reads : ∀ a, a ∈ w.reads → conf ≤ a ∧ a < conf + confLength mem conf
  stores : ∀ x, x ∈ w.stores → x.1 < ncpuMax
  count : result = .ok () → w.ncpu = processors mem (tableEntries mem conf) ∧ w.ncpu ≤ ncpuMax

/-- The entries are complete as far as they are read and are of at most `NCPU` processors, `n` of which come before;
up to the first entry that is unknown or out of order. -/
def Complete (mem : Mem) (e : Nat) : Nat → List Nat → Prop
  | _, [] => True
  | n, a :: rest =>
    match Kind.ofByte (mem a).toNat with
    | none => True
    | some .proc =>
      a + 1 < e ∧ ((mem (a + 1)).toNat = n → a + 3 < e ∧ n < ncpuMax ∧ Complete mem e (n + 1) rest)
    | some .ioapic => a + 1 < e ∧ Complete mem e n rest
    | some _ => Complete mem e n rest

variable {mem : Mem} {e k : Nat} {w : World}

theorem Kind.size_pos (kind : Kind) : 0 < kind.size := by
  cases kind <;> decide

theorem Kind.size_le (kind : Kind) : kind.size ≤ 20 := by
  cases kind <;> decide

theorem Kind.ofByte_eq_proc {b : Nat} : Kind.ofByte b = some .proc ↔ b = 0 := by
  rw [Kind.ofByte.eq_def]
  split <;> simp_all

/-! The cases of the body, where the addresses do not wrap. -/

theorem ptr_eq {a off : Nat} (h : a + off < uintSize) : ptr a off = a + off := Nat.mod_eq_of_lt h

theorem byte_eq {a off : Nat} (h : a + off < uintSize) : mem.byte a off = (mem (a + off)).toNat := by
  rw [Mem.byte, ptr_eq h]

section Run

variable {α β : Type} {x : Code α} {f : α → Code β} {w' : World}

theorem run_bind_ok {a : α} (hx : x.run w = (.ok a, w')) : (x >>= f).run w = (f a).run w' := by
  show (ExceptT.bindCont f (x.run w).1) (x.run w).2 = _
  rw [hx]
  rfl

theorem run_bind_error {message : String} (hx : x.run w = (.error message, w')) :
    (x >>= f).run w = (.error message, w') := by
  show (ExceptT.bindCont f (x.run w).1) (x.run w).2 = _
  rw [hx]
  rfl

theorem run_fetch {off : Nat} (hoff : w.p + off < uintSize) :
    (fetch mem off).run w = (.ok (mem (w.p + off)).toNat, { w with reads := w.reads ++ [w.p + off] }) := by
  show (Except.ok (mem.byte w.p off), { w with reads := w.reads ++ [ptr w.p off] }) = _
  rw [Mem.byte, ptr_eq hoff]

end Run

section Entry

variable (hp : w.p + 20 < uintSize)

include hp

theorem entry_unknown (hkind : Kind.ofByte (mem w.p).toNat = none) :
    (entry mem).run w = (.error "mpinit", { w with reads := w.reads ++ [w.p] }) := by
  rw [entry, run_bind_ok (run_fetch (by omega)), Nat.add_zero, hkind]
  rfl

/-- An entry of a known type is dealt with and skipped. -/
theorem entry_known {kind : Kind} {w' : World} (hkind : Kind.ofByte (mem w.p).toNat = some kind)
    (hbody : (kind.entry mem).run { w with reads := w.reads ++ [w.p] } = (.ok (), w')) (hsame : w'.p = w.p) :
    (entry mem).run w = (.ok (), { w' with p := w.p + kind.size }) := by
  have hsize := kind.size_le
  rw [entry, run_bind_ok (run_fetch (by omega)), Nat.add_zero, hkind]
  show (kind.entry mem >>= _).run _ = _
  rw [run_bind_ok hbody, ← ptr_eq (by omega : w.p + kind.size < uintSize), ← hsame]
  rfl

theorem entry_panic {kind : Kind} {w' : World} {message : String} (hkind : Kind.ofByte (mem w.p).toNat = some kind)
    (hbody : (kind.entry mem).run { w with reads := w.reads ++ [w.p] } = (.error message, w')) :
    (entry mem).run w = (.error message, w') := by
  rw [entry, run_bind_ok (run_fetch (by omega)), Nat.add_zero, hkind]
  exact run_bind_error hbody

theorem procEntry_error (hid : (mem (w.p + 1)).toNat ≠ w.ncpu) :
    (procEntry mem).run w = (.error "mpinit", { w with reads := w.reads ++ [w.p + 1] }) := by
  rw [procEntry, run_bind_ok (run_fetch (by omega))]
  show (if w.ncpu ≠ (mem (w.p + 1)).toNat then _ else _ : Code Unit).run _ = _
  rw [if_pos hid.symm]
  rfl

theorem procEntry_ok (hid : (mem (w.p + 1)).toNat = w.ncpu) :
    ∃ bcpu, (procEntry mem).run w = (.ok (), { w with
      bcpu := bcpu, ncpu := w.ncpu + 1, reads := w.reads ++ [w.p + 1, w.p + 3],
      stores := w.stores ++ [(w.ncpu, w.ncpu % 2 ^ 8)] }) := by
  rw [procEntry, run_bind_ok (run_fetch (by omega))]
  show ∃ bcpu, (if w.ncpu ≠ (mem (w.p + 1)).toNat then _ else _ : Code Unit).run _ = _
  rw [if_neg (not_not.mpr hid.symm), run_bind_ok (run_fetch (by exact (by omega : w.p + 3 < uintSize)))]
  refine ⟨if (mem (w.p + 3)).toNat / 2 % 2 = 1 then w.ncpu else w.bcpu, ?_⟩
  rw [List.append_cons w.reads (w.p + 1) [w.p + 3]]
  rfl

theorem ioapicEntry_ok : (ioapicEntry mem).run w =
    (.ok (), { w with ioapicid := (mem (w.p + 1)).toNat, reads := w.reads ++ [w.p + 1] }) := by
  rw [ioapicEntry, run_bind_ok (run_fetch (by omega))]
  rfl

end Entry

/-! The walk. -/

/-- What a walk over entries has added: it has read at `rs` and stored at `ss`, inside the table and inside `cpus`
exactly if the entries are complete, and it has counted the processors. -/
structure Walked (mem : Mem) (e : Nat) (w : World) (l rs : List Nat) (ss : List (Nat × Nat))
    (result : Except String Unit) (w' : World) : Prop where
  reads : w'.reads = w.reads ++ rs
  stores : w'.stores = w.stores ++ ss
  above : ∀ a, a ∈ rs → w.p ≤ a
  complete : Complete mem e w.ncpu l ↔ (∀ a, a ∈ rs → a < e) ∧ ∀ x, x ∈ ss → x.1 < ncpuMax
  count : result = .ok () → w'.ncpu = w.ncpu + processors mem l
  last : result = .ok () → w'.ncpu = w.ncpu ∨ ∃ x, x ∈ ss ∧ x.1 + 1 = w'.ncpu

theorem walked_nil : Walked mem e w [] [] [] (.ok ()) w where
  reads := (List.append_nil _).symm
  stores := (List.append_nil _).symm
  above := List.forall_mem_nil _
  complete := iff_of_true trivial ⟨List.forall_mem_nil _, List.forall_mem_nil _⟩
  count := fun _ => rfl
  last := fun _ => .inl rfl

/-- A panic after the entry at `p` has been read in part. -/
theorem walked_panic {l rs : List Nat} {message : String} (habove : ∀ a, a ∈ rs → w.p ≤ a)
    (hcomplete : Complete mem e w.ncpu l ↔ ∀ a, a ∈ rs → a < e) :
    Walked mem e w l rs [] (.error message) { w with reads := w.reads ++ rs } where
  reads := rfl
  stores := (List.append_nil _).symm
  above := habove
  complete := hcomplete.trans (and_iff_left (List.forall_mem_nil _)).symm
  count := fun hok => by cases hok
  last := fun hok => by cases hok

/-- One entry and then the others. -/
theorem Walked.cons {w₁ w' : World} {l rs more : List Nat} {ss new : List (Nat × Nat)} {result : Except String Unit}
    (h : Walked mem e w₁ l rs ss result w') (hp : w.p ≤ w₁.p) (hreads : w₁.reads = w.reads ++ more)
    (hstores : w₁.stores = w.stores ++ new) (habove : ∀ a, a ∈ more → w.p ≤ a)
    (hncpu : w₁.ncpu = w.ncpu + processors mem [w.p])
    (hlast : w₁.ncpu = w.ncpu ∨ ∃ x, x ∈ new ∧ x.1 + 1 = w₁.ncpu)
    (hcomplete : Complete mem e w.ncpu (w.p :: l) ↔
      ((∀ a, a ∈ more → a < e) ∧ ∀ x, x ∈ new → x.1 < ncpuMax) ∧ Complete mem e w₁.ncpu l) :
    Walked mem e w (w.p :: l) (more ++ rs) (new ++ ss) result w' where
  reads := by rw [h.reads, hreads, List.append_assoc]
  stores := by rw [h.stores, hstores, List.append_assoc]
  above := fun a ha => (List.mem_append.mp ha).elim (habove a) fun hin => hp.trans (h.above a hin)
  complete := by
    rw [hcomplete, h.complete, List.forall_mem_append, List.forall_mem_append, and_and_and_comm]
  count := fun hok => by
    rw [h.count hok, hncpu, Nat.add_assoc]
    show _ = w.ncpu + processors mem ([w.p] ++ l)
    rw [processors, processors, processors, List.countP_append]
  last := fun hok => by
    rcases h.last hok with hsame | ⟨x, hx, heq⟩
    · rw [hsame]
      exact hlast.imp_right fun ⟨x, hx, heq⟩ => ⟨x, List.mem_append_left _ hx, heq⟩
    · exact .inr ⟨x, List.mem_append_right _ hx, heq⟩

theorem entries_cons {a : Nat} (h : a < e) :
    entries mem e (k + 1) a =
      a :: (Kind.ofByte (mem a).toNat).elim [] fun kind => entries mem e k (a + kind.size) := if_pos h

theorem entries_nil {a : Nat} (h : ¬ a < e) : entries mem e k a = [] := by
  cases k with
  | zero => rfl
  | succ k => exact if_neg h

theorem processors_singleton {kind : Kind} {a : Nat} (hkind : Kind.ofByte (mem a).toNat = some kind) :
    processors mem [a] = if kind = .proc then 1 else 0 := by
  rw [processors, List.countP_singleton]
  refine if_congr ?_ rfl rfl
  rw [decide_eq_true_eq, ← UInt8.toNat_inj]
  constructor
  · intro hzero
    rw [hzero] at hkind
    exact (Option.some.inj hkind).symm
  · rintro rfl
    exact Kind.ofByte_eq_proc.mp hkind

/-- The walk ends, with some number of iterations. -/
def Walks (mem : Mem) (e k : Nat) (w : World) : Prop :=
  ∃ rs ss result w', walk mem e k w = some (result, w') ∧ Walked mem e w (entries mem e k w.p) rs ss result w'

theorem walks_end (h : ¬ w.p < e) : Walks mem e k w := by
  refine ⟨[], [], .ok (), w, ?_, ?_⟩
  · cases k with
    | zero => exact if_neg h
    | succ k => exact if_neg h
  · rw [entries_nil h]
    exact walked_nil

section Step

variable (hin : w.p < e) (he : e + 20 ≤ uintSize) (hk : e - w.p ≤ k + 1)
  (ih : ∀ w₁ : World, e - w₁.p ≤ k → Walks mem e k w₁)

include hin

theorem walks_panic (message : String) (more : List Nat)
    (hentry : (entry mem).run w = (.error message, { w with reads := w.reads ++ w.p :: more }))
    (habove : ∀ a, a ∈ more → w.p ≤ a)
    (hcomplete : ∀ l, Complete mem e w.ncpu (w.p :: l) ↔ ∀ a, a ∈ more → a < e) : Walks mem e (k + 1) w := by
  refine ⟨w.p :: more, [], .error message, _, ?_, walked_panic ?_ ?_⟩
  · rw [walk, if_pos hin, hentry]
  · exact List.forall_mem_cons.mpr ⟨le_rfl, habove⟩
  · rw [entries_cons hin, hcomplete, List.forall_mem_cons, and_iff_right hin]

include he hk ih

/-- An entry that does not panic. -/
theorem walks_entry {kind : Kind} {w₁ : World} (more : List Nat) (new : List (Nat × Nat))
    (hkind : Kind.ofByte (mem w.p).toNat = some kind)
    (hbody : (kind.entry mem).run { w with reads := w.reads ++ [w.p] } = (.ok (), w₁)) (hsame : w₁.p = w.p)
    (hreads : w₁.reads = w.reads ++ w.p :: more) (hstores : w₁.stores = w.stores ++ new)
    (habove : ∀ a, a ∈ more → w.p ≤ a) (hncpu : w₁.ncpu = w.ncpu + if kind = .proc then 1 else 0)
    (hlast : w₁.ncpu = w.ncpu ∨ ∃ x, x ∈ new ∧ x.1 + 1 = w₁.ncpu)
    (hcomplete : ∀ l, Complete mem e w.ncpu (w.p :: l) ↔
      ((∀ a, a ∈ more → a < e) ∧ ∀ x, x ∈ new → x.1 < ncpuMax) ∧ Complete mem e w₁.ncpu l) :
    Walks mem e (k + 1) w := by
  have hsize := kind.size_pos
  obtain ⟨rs, ss, result, w', hwalk, hwalked⟩ := ih { w₁ with p := w.p + kind.size } (by
    show e - (w.p + kind.size) ≤ k
    omega)
  refine ⟨w.p :: more ++ rs, new ++ ss, result, w', ?_, ?_⟩
  · rw [walk, if_pos hin, entry_known (by omega) hkind hbody hsame]
    exact hwalk
  · rw [entries_cons hin, hkind]
    refine hwalked.cons (Nat.le_add_right _ _) hreads hstores ?_ ?_ hlast ?_
    · exact List.forall_mem_cons.mpr ⟨le_rfl, habove⟩
    · rw [processors_singleton hkind]
      exact hncpu
    · rw [hcomplete, List.forall_mem_cons, and_iff_right hin]

theorem walks_proc (hkind : Kind.ofByte (mem w.p).toNat = some .proc) : Walks mem e (k + 1) w := by
  have hp : w.p + 20 < uintSize := by omega
  have hcomplete : ∀ l, Complete mem e w.ncpu (w.p :: l) ↔ w.p + 1 < e ∧ ((mem (w.p + 1)).toNat = w.ncpu →
      w.p + 3 < e ∧ w.ncpu < ncpuMax ∧ Complete mem e (w.ncpu + 1) l) := by
    intro l
    rw [Complete, hkind]
  by_cases hid : (mem (w.p + 1)).toNat = w.ncpu
  · obtain ⟨bcpu, hbody⟩ := @procEntry_ok mem { w with reads := w.reads ++ [w.p] } hp hid
    refine walks_entry hin he hk ih [w.p + 1, w.p + 3] _ hkind hbody rfl (by simp) rfl (by simp) rfl
      (.inr ⟨_, List.mem_singleton_self _, rfl⟩) fun l => ?_
    rw [hcomplete, forall_prop_of_true hid]
    simp only [List.forall_mem_cons]
    tauto
  · refine walks_panic hin "mpinit" [w.p + 1] ?_ (by simp) fun l => ?_
    · rw [entry_panic hp hkind (procEntry_error hp hid), List.append_cons w.reads w.p [w.p + 1]]
    · rw [hcomplete, List.forall_mem_singleton, forall_prop_of_false hid, and_true]

theorem walks_ioapic (hkind : Kind.ofByte (mem w.p).toNat = some .ioapic) : Walks mem e (k + 1) w := by
  have hp : w.p + 20 < uintSize := by omega
  refine walks_entry hin he hk ih [w.p + 1] [] hkind (ioapicEntry_ok hp) rfl (by simp) (List.append_nil _).symm
    (by simp) rfl (.inl rfl) fun l => ?_
  rw [Complete, hkind, List.forall_mem_singleton, and_iff_left (List.forall_mem_nil _)]

theorem walks_other {kind : Kind} (hkind : Kind.ofByte (mem w.p).toNat = some kind) (hproc : kind ≠ .proc)
    (hioapic : kind ≠ .ioapic) : Walks mem e (k + 1) w := by
  have hbody : (kind.entry mem).run { w with reads := w.reads ++ [w.p] } =
      (.ok (), { w with reads := w.reads ++ [w.p] }) := by
    cases kind with
    | proc => exact absurd rfl hproc
    | ioapic => exact absurd rfl hioapic
    | bus => rfl
    | iointr => rfl
    | lintr => rfl
  refine walks_entry hin he hk ih [] [] hkind hbody rfl rfl (List.append_nil _).symm (List.forall_mem_nil _) ?_
    (.inl rfl) fun l => ?_
  · rw [if_neg hproc]
    rfl
  · rw [and_iff_right ⟨List.forall_mem_nil _, List.forall_mem_nil _⟩, Complete, hkind]
    cases kind with
    | proc => exact absurd rfl hproc
    | ioapic => exact absurd rfl hioapic
    | bus => rfl
    | iointr => rfl
    | lintr => rfl

end Step

/-- The walk from any entry on. -/
theorem walks (he : e + 20 ≤ uintSize) (hk : e - w.p ≤ k) : Walks mem e k w := by
  induction k generalizing w with
  | zero => exact walks_end (by omega)
  | succ k ih =>
    by_cases hin : w.p < e
    · cases hkind : Kind.ofByte (mem w.p).toNat with
      | none =>
        refine walks_panic hin _ [] (entry_unknown (by omega) hkind) (List.forall_mem_nil _) fun l => ?_
        rw [Complete, hkind]
        exact iff_of_true trivial (List.forall_mem_nil _)
      | some kind =>
        by_cases hproc : kind = .proc
        · exact walks_proc hin he hk (fun w₁ => ih) (hproc ▸ hkind)
        · by_cases hioapic : kind = .ioapic
          · exact walks_ioapic hin he hk (fun w₁ => ih) (hioapic ▸ hkind)
          · exact walks_other hin he hk (fun w₁ => ih) hkind hproc hioapic
    · exact walks_end hin

/-- The header and the table, and one more entry behind them, lie below the end of memory. -/
def InMemory (mem : Mem) (conf : Nat) : Prop := conf + max confSize (confLength mem conf) + 20 ≤ uintSize

instance (mem : Mem) (conf : Nat) : Decidable (InMemory mem conf) := inferInstanceAs (Decidable (_ ≤ _))

/-- The walk of `mpinit`. -/
theorem mpinit_walk {mp conf : Nat} (hconf : mpconfig mem = some (mp, conf)) (hmem : InMemory mem conf) :
    ∃ rs ss result w' w, mpinit mem = some (result, w) ∧ w.reads = rs ∧ w.stores = ss ∧ w.ncpu = w'.ncpu ∧
      Walked mem (conf + confLength mem conf) { p := conf + confSize, ismp := true, lapic := mem.word conf 36 }
        (tableEntries mem conf) rs ss result w' := by
  have hmax := le_max_left confSize (confLength mem conf)
  have hmax' := le_max_right confSize (confLength mem conf)
  rw [InMemory] at hmem
  have hstart : ptr conf confSize = conf + confSize := ptr_eq (by omega)
  have hend : ptr conf (confLength mem conf) = conf + confLength mem conf := ptr_eq (by omega)
  obtain ⟨rs, ss, result, w', hwalk, hwalked⟩ : Walks mem (conf + confLength mem conf) (confLength mem conf)
      { p := conf + confSize, ismp := true, lapic := mem.word conf 36 } := walks (by omega) (by
    show conf + confLength mem conf - (conf + confSize) ≤ _
    omega)
  rw [mpinit, hconf]
  dsimp only
  rw [hstart, hend, hwalk]
  cases result with
  | error message => exact ⟨rs, ss, _, w', w', rfl, hwalked.reads, hwalked.stores, rfl, hwalked⟩
  | ok u => exact ⟨rs, ss, _, w', _, rfl, hwalked.reads, hwalked.stores, rfl, hwalked⟩

/-- `mpinit` ends, and what it has done is sound exactly if the entries of the table are complete. -/
theorem mpinit_sound_iff {mp conf : Nat} (hconf : mpconfig mem = some (mp, conf)) (hmem : InMemory mem conf) :
    (∃ result w, mpinit mem = some (result, w) ∧ Sound mem conf result w) ↔
      Complete mem (conf + confLength mem conf) 0 (tableEntries mem conf) := by
  obtain ⟨rs, ss, result, w', w, hinit, rfl, rfl, hncpu, hwalked⟩ := mpinit_walk hconf hmem
  refine Iff.trans ⟨?_, ?_⟩ hwalked.complete.symm
  · rintro ⟨result₁, w₁, hinit₁, hsound⟩
    obtain ⟨-, rfl⟩ := Prod.mk.inj (Option.some.inj (hinit₁.symm.trans hinit))
    exact ⟨fun a ha => (hsound.reads a ha).2, hsound.stores⟩
  · rintro ⟨hreads, hstores⟩
    refine ⟨result, w, hinit, fun a ha => ⟨?_, hreads a ha⟩, hstores, fun hok => ⟨?_, ?_⟩⟩
    · have hlow : conf + confSize ≤ a := hwalked.above a ha
      omega
    · rw [hncpu, hwalked.count hok]
      exact Nat.zero_add _
    · rw [hncpu]
      rcases hwalked.last hok with hzero | ⟨x, hx, heq⟩
      · rw [hzero]
        exact Nat.zero_le _
      · rw [← heq]
        exact hstores x hx

/-! Tables of processors that are numbered from 0. -/

/-- A byte that makes the sum of others zero. -/
def checksum (bytes : List Nat) : Nat := (2 ^ 8 - bytes.sum % 2 ^ 8) % 2 ^ 8

/-- The entry of a processor; the first is the bootstrap processor. -/
def procBytes (id : Nat) : List Nat := [0, id, 20, if id = 0 then 3 else 1] ++ List.replicate 16 0

/-- The table of `n` processors with a byte for its checksum. -/
def tableBytes (n c : Nat) : List Nat :=
  confSignature ++ [(confSize + 20 * n) % 2 ^ 8, (confSize + 20 * n) / 2 ^ 8, 4, c] ++ List.replicate 28 0 ++
    [0, 0, 0xE0, 0xFE, 0, 0, 0, 0] ++ (List.range n).flatMap procBytes

/-- The floating pointer structure for a table at 0x9FC10. -/
def pointerBytes : List Nat := mpSignature ++ [0x10, 0xFC, 0x09, 0, 1, 4, 139, 0, 0, 0, 0, 0]

/-- A memory with the structure at the beginning of the extended BIOS data area and the table behind it. -/
def tableMem (n : Nat) : Mem := fun a =>
  if a = 0x40E then 0xC0 else if a = 0x40F then 0x9F
  else if 0x9FC00 ≤ a then
    UInt8.ofNat ((pointerBytes ++ tableBytes n (checksum (tableBytes n 0))).getD (a - 0x9FC00) 0)
  else 0

/-- The only processor of a table is counted. -/
theorem mpinit_one : ∃ result w, mpinit (tableMem 1) = some (result, w) ∧ Sound (tableMem 1) 0x9FC10 result w := by
  have hconf : mpconfig (tableMem 1) = some (0x9FC00, 0x9FC10) := by decide +kernel
  have hentries : tableEntries (tableMem 1) 0x9FC10 = [0x9FC3C] := by decide +kernel
  refine (mpinit_sound_iff hconf (by decide +kernel)).mpr ?_
  have hkind : Kind.ofByte (tableMem 1 0x9FC3C).toNat = some .proc := by decide +kernel
  rw [hentries, Complete, hkind]
  exact ⟨by decide +kernel, fun _ => ⟨by decide +kernel, by decide, trivial⟩⟩

/-- The ninth processor is stored behind the end of `cpus`. -/
theorem mpinit_nine : mpconfig (tableMem 9) = some (0x9FC00, 0x9FC10) ∧
    (mpinit (tableMem 9)).map (fun r => (r.2.ncpu, r.2.stores.getLast?)) = some (9, some (8, 8)) ∧
    ¬ ∃ result w, mpinit (tableMem 9) = some (result, w) ∧ Sound (tableMem 9) 0x9FC10 result w := by
  have hrun : (mpinit (tableMem 9)).map (fun r => (r.2.ncpu, r.2.stores.getLast?)) = some (9, some (8, 8)) := by
    decide +kernel
  refine ⟨by decide +kernel, hrun, ?_⟩
  rintro ⟨result, w, hinit, hsound⟩
  rw [hinit] at hrun
  have hlast : w.stores.getLast? = some (8, 8) := congrArg Prod.snd (Option.some.inj hrun)
  exact absurd (hsound.stores (8, 8) (List.mem_of_getLast? hlast)) (by decide)

end Xv6.Mp
