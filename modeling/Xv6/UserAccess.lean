import Xv6.FsLayout
import Xv6.SyscallArgs

/-! The user addresses the kernel loads from or stores to through the pointer arguments of `read`,
`write`, `fstat`, `pipe` and `wait2`. The checks of `argptr` are made once, before the call; how much
is transferred is computed again in `readi`, `writei`, `piperead`, `pipewrite` and the console
driver. -/

namespace Xv6

open LibWord

/-- The fields of an inode that decide how much is transferred. -/
structure InodeView where
  type : FileType
  major : Int
  size : Nat
  size_le : size ≤ maxfile * bsize

inductive FdType where
  | none
  | pipe
  | inode
  deriving DecidableEq, Repr

/-- `struct file`. -/
structure File where
  type : FdType
  readable : Bool
  writable : Bool
  ip : InodeView
  off : Nat

/-- What the rest of the system contributes to a call: the bytes in the pipe when `piperead` copies,
the bytes `pipewrite` stores before it returns, the console input, whether `sys_pipe` gets its files
and descriptors, and whether `wait2` finds a zombie child. -/
structure Env where
  avail : Nat
  stored : Nat
  input : List UInt8
  pipeOk : Bool
  reaps : Bool

/-- The addresses of `len` consecutive bytes. -/
def block (addr len : Nat) : List Nat := (List.range len).map fun i => (addr + i) % uintSize

/-- The loop of `readi` and `writei`: one `memmove` for each block of the file. -/
def transfer : Nat → Nat → Nat → Nat → List Nat
  | 0, _, _, _ => []
  | fuel + 1, left, off, addr =>
    if left = 0 then []
    else
      let m := min left (bsize - off % bsize)
      block addr m ++ transfer fuel (left - m) (off + m) ((addr + m) % uintSize)

/-- The loop of `piperead` and `pipewrite`, cut short after `room` bytes. -/
def copyLoop (addr : Nat) (n : Int) : Nat → Nat → List Nat
  | 0, _ => []
  | room + 1, i => if (i : Int) < n then (addr + i) % uintSize :: copyLoop addr n room (i + 1) else []

/-- The stores of `consoleread`: it stops before a `^D` and after a newline. -/
def consoleread : List UInt8 → Nat → Int → List Nat
  | [], _, _ => []
  | c :: input, dst, n =>
    if n ≤ 0 then []
    else if c = 4 then []
    else dst :: if c = 10 then [] else consoleread input ((dst + 1) % uintSize) (n - 1)

/-- The loads of `consolewrite`. -/
def consolewrite (buf : Nat) (n : Int) : List Nat := block buf n.toNat

/-- What `readi` and `writei` do on a file or directory: reject an offset behind the end and a wrapping
sum, cut the length at `limit`, then move block by block. -/
def fileAccess (size limit addr off n : Nat) : List Nat :=
  if size < off ∨ (off + n) % uintSize < off then []
  else
    let n := if limit < (off + n) % uintSize then limit - off else n
    transfer n n off addr

/-- `readi`, as far as it stores to `dst`. -/
def readiAccess (ip : InodeView) (env : Env) (dst off n : Nat) : List Nat :=
  if ip.type = .dev then
    if ip.major < 0 ∨ ndev ≤ ip.major ∨ ip.major ≠ console then []
    else consoleread env.input dst (toInt n)
  else fileAccess ip.size ip.size dst off n

/-- `writei`, as far as it loads from `src`. A block allocation that fails panics and only cuts the
transfer short. -/
def writeiAccess (ip : InodeView) (src off n : Nat) : List Nat :=
  if ip.type = .dev then
    if ip.major < 0 ∨ ndev ≤ ip.major ∨ ip.major ≠ console then []
    else consolewrite src (toInt n)
  else fileAccess ip.size (maxfile * bsize) src off n

def filereadAccess (f : File) (env : Env) (addr : Nat) (n : Int) : List Nat :=
  if f.readable = false then []
  else
    match f.type with
    | .pipe => copyLoop addr n env.avail 0
    | .inode => readiAccess f.ip env addr f.off (toUint n)
    | .none => []

def filewriteAccess (f : File) (env : Env) (addr : Nat) (n : Int) : List Nat :=
  if f.writable = false then []
  else
    match f.type with
    | .pipe => copyLoop addr n env.stored 0
    | .inode => writeiAccess f.ip addr f.off (toUint n)
    | .none => []

/-- `stati`: `dev`, `ino`, `type`, `nlink` and `size` of the 20 bytes of a `struct stat`. -/
def statiAccess (st : Nat) : List Nat :=
  block (st + 4) 4 ++ block (st + 8) 4 ++ block st 2 ++ block (st + 12) 2 ++ block (st + 16) 4

/-- `argfd`: the `n`th argument as an open file. -/
def argfd (m : UserMem) (ofile : Nat → Option File) (n : Nat) : Option File :=
  (argint m n).bind fun word =>
    if toInt word < 0 ∨ (nofile : Int) ≤ toInt word then none else ofile (toInt word).toNat

inductive Call where
  | read
  | write
  | fstat
  | pipe
  | wait2
  deriving DecidableEq, Repr

/-- The accesses of a call through its pointer arguments; none if an argument is rejected. -/
def accesses (m : UserMem) (ofile : Nat → Option File) (env : Env) : Call → List Nat
  | .read => ((argfd m ofile 0).bind fun f => (argint m 2).bind fun n =>
    (argptr m 1 (toInt n)).map fun p => filereadAccess f env p (toInt n)).getD []
  | .write => ((argfd m ofile 0).bind fun f => (argint m 2).bind fun n =>
    (argptr m 1 (toInt n)).map fun p => filewriteAccess f env p (toInt n)).getD []
  | .fstat => ((argfd m ofile 0).bind fun f => (argptr m 1 20).map fun st =>
    if f.type = .inode then statiAccess st else []).getD []
  | .pipe => ((argptr m 0 8).map fun fd =>
    if env.pipeOk then block fd 4 ++ block (fd + 4) 4 else []).getD []
  | .wait2 => ((argint m 0).bind fun wt => (argint m 1).map fun rt =>
    if env.reaps then block wt 4 ++ block rt 4 else []).getD []

/-- The condition under which a call stays inside the process. A `read` or `write` with a negative
length that passes `argptr`, on a file or directory at an offset where `off + n` does not wrap, moves
the rest of the file (or of the largest file), which has to fit; the two addresses given to `wait2`
are not checked, and have to be those of words of the process if a child is reaped. -/
def Confined (m : UserMem) (ofile : Nat → Option File) (env : Env) : Call → Prop
  | .read => ∀ f n p, argfd m ofile 0 = some f → argint m 2 = some n →
      argptr m 1 (toInt n) = some p → toInt n < 0 → f.readable = true → f.type = .inode →
      f.ip.type ≠ .dev → f.off ≤ f.ip.size → f.off + n < uintSize →
      p + (f.ip.size - f.off) ≤ m.sz
  | .write => ∀ f n p, argfd m ofile 0 = some f → argint m 2 = some n →
      argptr m 1 (toInt n) = some p → toInt n < 0 → f.writable = true → f.type = .inode →
      f.ip.type ≠ .dev → f.off ≤ f.ip.size → f.off + n < uintSize →
      p + (maxfile * bsize - f.off) ≤ m.sz
  | .fstat => True
  | .pipe => True
  | .wait2 => ∀ wt rt, argint m 0 = some wt → argint m 1 = some rt → env.reaps = true →
      wt + 4 ≤ m.sz ∧ rt + 4 ≤ m.sz

theorem mem_block {addr len a : Nat} :
    a ∈ block addr len ↔ ∃ i, i < len ∧ (addr + i) % uintSize = a := by
  simp [block]

theorem block_append (addr m k : Nat) :
    block addr (m + k) = block addr m ++ block ((addr + m) % uintSize) k := by
  simp only [block, List.range_add, List.map_append, List.map_map, List.append_cancel_left_eq]
  refine List.map_congr_left fun i _ => ?_
  simp only [Function.comp_apply, Nat.mod_add_mod, Nat.add_assoc]

/-- A block of addresses lies below `sz` exactly when it ends there or is empty. -/
theorem block_lt_iff {addr len sz : Nat} (haddr : addr < uintSize) (hsz : sz ≤ userTop) :
    (∀ a ∈ block addr len, a < sz) ↔ len = 0 ∨ addr + len ≤ sz := by
  have htop : userTop < uintSize := by decide
  constructor
  · intro h
    by_contra hno
    -- the first byte at or behind `sz`
    have hmem : max addr sz ∈ block addr len :=
      mem_block.mpr ⟨max addr sz - addr, by omega, by
        rw [Nat.add_sub_cancel' (le_max_left _ _), Nat.mod_eq_of_lt (by omega)]⟩
    have := h _ hmem
    omega
  · rintro (rfl | hle) a ha
    · simp [block] at ha
    · obtain ⟨i, hi, rfl⟩ := mem_block.mp ha
      rw [Nat.mod_eq_of_lt (by omega)]
      omega

/-- The block-wise loop of `readi` and `writei` touches the same addresses as one long copy. -/
theorem transfer_eq_block {fuel left : Nat} (off addr : Nat) (hfuel : left ≤ fuel) :
    transfer fuel left off addr = block addr left := by
  induction fuel generalizing left off addr with
  | zero =>
    obtain rfl : left = 0 := by omega
    rfl
  | succ fuel ih =>
    rw [transfer]
    by_cases h0 : left = 0
    · subst h0
      rfl
    · have hoff : off % bsize < bsize := Nat.mod_lt _ (by decide)
      rw [if_neg h0]
      simp only
      rw [ih _ _ (by omega), ← block_append, Nat.add_sub_cancel' (min_le_left _ _)]

theorem mem_copyLoop {addr room i a : Nat} {n : Int} (h : a ∈ copyLoop addr n room i) :
    ∃ j : Nat, (j : Int) < n ∧ (addr + j) % uintSize = a := by
  induction room generalizing i with
  | zero => simp [copyLoop] at h
  | succ room ih =>
    rw [copyLoop] at h
    split at h
    · rename_i hi
      rcases List.mem_cons.mp h with rfl | h
      · exact ⟨i, hi, rfl⟩
      · exact ih h
    · simp at h

theorem mem_consoleread {input : List UInt8} {dst a : Nat} {n : Int} (hdst : dst < uintSize)
    (h : a ∈ consoleread input dst n) :
    ∃ j : Nat, (j : Int) < n ∧ (dst + j) % uintSize = a := by
  induction input generalizing dst n with
  | nil => simp [consoleread] at h
  | cons c input ih =>
    rw [consoleread] at h
    split_ifs at h with h0 h4 h10
    · simp at h
    · simp at h
    · rw [List.mem_singleton] at h
      subst h
      exact ⟨0, by omega, Nat.mod_eq_of_lt hdst⟩
    · rcases List.mem_cons.mp h with rfl | h
      · exact ⟨0, by omega, Nat.mod_eq_of_lt hdst⟩
      · obtain ⟨j, hj, rfl⟩ := ih (Nat.mod_lt _ (by decide)) h
        refine ⟨j + 1, by omega, ?_⟩
        rw [Nat.mod_add_mod, Nat.add_assoc, Nat.add_comm 1 j]

theorem lt_of_index_lt {m : UserMem} {p n a : Nat} (hfit : p + n < m.sz)
    (h : ∃ j : Nat, (j : Int) < toInt n ∧ (p + j) % uintSize = a) (hn : n < 2 ^ 31) : a < m.sz := by
  obtain ⟨j, hj, rfl⟩ := h
  have hle := m.sz_le
  have htoInt : toInt n = n := if_pos hn
  simp only [uintSize, userTop] at *
  rw [Nat.mod_eq_of_lt (by omega)]
  omega

theorem fileAccess_lt {m : UserMem} {size limit p off n : Nat} (hfit : p + n < m.sz) :
    ∀ a ∈ fileAccess size limit p off n, a < m.sz := by
  have hle := m.sz_le
  have htop : userTop < uintSize := by decide
  rw [fileAccess]
  by_cases hbad : size < off ∨ (off + n) % uintSize < off
  · simp [if_pos hbad]
  · rw [if_neg hbad]
    simp only [transfer_eq_block _ _ le_rfl]
    refine (block_lt_iff (by omega) hle).mpr (Or.inr ?_)
    have hmod := Nat.mod_le (off + n) uintSize
    split_ifs <;> omega

/-- With a negative length the sum either wraps, and the call fails, or passes every limit. -/
theorem fileAccess_lt_iff {m : UserMem} {size limit p off n : Nat} (hp : p < m.sz)
    (hn : 2 ^ 31 ≤ n) (hlt : n < uintSize) (hlimit : limit ≤ maxfile * bsize) :
    (∀ a ∈ fileAccess size limit p off n, a < m.sz) ↔
      (off ≤ size → off + n < uintSize → p + (limit - off) ≤ m.sz) := by
  have hle := m.sz_le
  have htop : userTop < uintSize := by decide
  have hmax : maxfile * bsize = 71680 := by decide
  rw [fileAccess]
  by_cases hwrap : off + n < uintSize
  · rw [Nat.mod_eq_of_lt hwrap, if_pos (show limit < off + n by omega)]
    by_cases hoff : size < off
    · rw [if_pos (Or.inl hoff)]
      exact iff_of_true (by simp) (fun h => absurd h (by omega))
    · rw [if_neg (by omega)]
      simp only [transfer_eq_block _ _ le_rfl]
      rw [block_lt_iff (by omega) hle]
      exact ⟨fun h _ _ => by omega, fun h => Or.inr (h (by omega) hwrap)⟩
  · have hless : (off + n) % uintSize < off := by
      by_cases hoff : off < uintSize
      · rw [Nat.mod_eq_sub_mod (by omega), Nat.mod_eq_of_lt (by omega)]
        omega
      · have hmod : (off + n) % uintSize < uintSize := Nat.mod_lt _ (by decide)
        omega
    rw [if_pos (Or.inr hless)]
    exact iff_of_true (by simp) (fun _ h => absurd h hwrap)

theorem filereadAccess_lt {m : UserMem} {f : File} {env : Env} {p n : Nat} (hn : n < 2 ^ 31)
    (hfit : p + n < m.sz) :
    ∀ a ∈ filereadAccess f env p (toInt n), a < m.sz := by
  have hle := m.sz_le
  have htop : userTop < uintSize := by decide
  intro a ha
  rw [filereadAccess] at ha
  split_ifs at ha with hread
  · simp at ha
  · split at ha
    · exact lt_of_index_lt hfit (mem_copyLoop ha) hn
    · rw [toUint_toInt (by simp only [uintSize]; omega), readiAccess] at ha
      split_ifs at ha with hdev hmajor
      · simp at ha
      · exact lt_of_index_lt hfit (mem_consoleread (by omega) ha) hn
      · exact fileAccess_lt hfit a ha
    · simp at ha

theorem filewriteAccess_lt {m : UserMem} {f : File} {env : Env} {p n : Nat} (hn : n < 2 ^ 31)
    (hfit : p + n < m.sz) :
    ∀ a ∈ filewriteAccess f env p (toInt n), a < m.sz := by
  intro a ha
  rw [filewriteAccess] at ha
  split_ifs at ha with hwrite
  · simp at ha
  · split at ha
    · exact lt_of_index_lt hfit (mem_copyLoop ha) hn
    · rw [toUint_toInt (by simp only [uintSize]; omega), writeiAccess] at ha
      split_ifs at ha with hdev hmajor
      · simp at ha
      · obtain ⟨i, hi, rfl⟩ := mem_block.mp ha
        exact lt_of_index_lt hfit ⟨i, by omega, rfl⟩ hn
      · exact fileAccess_lt hfit a ha
    · simp at ha

theorem filereadAccess_lt_iff {m : UserMem} {f : File} {env : Env} {p n : Nat} (hp : p < m.sz)
    (hn : 2 ^ 31 ≤ n) (hlt : n < uintSize) :
    (∀ a ∈ filereadAccess f env p (toInt n), a < m.sz) ↔
      (f.readable = true → f.type = .inode → f.ip.type ≠ .dev → f.off ≤ f.ip.size →
        f.off + n < uintSize → p + (f.ip.size - f.off) ≤ m.sz) := by
  have hle := m.sz_le
  have htop : userTop < uintSize := by decide
  have hneg := toInt_neg hn hlt
  rw [filereadAccess]
  cases hread : f.readable
  · simp
  · cases htype : f.type
    · simp
    · refine iff_of_true (fun a ha => ?_) (by simp)
      obtain ⟨j, hj, -⟩ := mem_copyLoop (by simpa using ha)
      omega
    · simp only [Bool.true_eq_false, if_false, true_implies, ne_eq, toUint_toInt hlt, readiAccess]
      by_cases hdev : f.ip.type = .dev
      · refine iff_of_true (fun a ha => ?_) (fun h => absurd hdev h)
        rw [if_pos hdev] at ha
        split_ifs at ha
        · simp at ha
        · obtain ⟨j, hj, -⟩ := mem_consoleread (by omega) ha
          omega
      · rw [if_neg hdev, fileAccess_lt_iff hp hn hlt f.ip.size_le]
        exact ⟨fun h _ => h, fun h => h hdev⟩

theorem filewriteAccess_lt_iff {m : UserMem} {f : File} {env : Env} {p n : Nat} (hp : p < m.sz)
    (hn : 2 ^ 31 ≤ n) (hlt : n < uintSize) :
    (∀ a ∈ filewriteAccess f env p (toInt n), a < m.sz) ↔
      (f.writable = true → f.type = .inode → f.ip.type ≠ .dev → f.off ≤ f.ip.size →
        f.off + n < uintSize → p + (maxfile * bsize - f.off) ≤ m.sz) := by
  have hneg := toInt_neg hn hlt
  rw [filewriteAccess]
  cases hwrite : f.writable
  · simp
  · cases htype : f.type
    · simp
    · refine iff_of_true (fun a ha => ?_) (by simp)
      obtain ⟨j, hj, -⟩ := mem_copyLoop (by simpa using ha)
      omega
    · simp only [Bool.true_eq_false, if_false, true_implies, ne_eq, toUint_toInt hlt, writeiAccess]
      by_cases hdev : f.ip.type = .dev
      · refine iff_of_true (fun a ha => ?_) (fun h => absurd hdev h)
        rw [if_pos hdev] at ha
        split_ifs at ha
        · simp at ha
        · obtain ⟨i, hi, -⟩ := mem_block.mp ha
          omega
      · rw [if_neg hdev, fileAccess_lt_iff hp hn hlt le_rfl]
        exact ⟨fun h _ => h, fun h => h hdev⟩

theorem argptr_length {m : UserMem} {k n p : Nat} (hn : n < uintSize)
    (h : argptr m k (toInt n) = some p) : p < m.sz ∧ (n < 2 ^ 31 → p + n < m.sz) := by
  refine ⟨(argptr_eq_some h).2.1, fun hlt => ?_⟩
  have hnonneg := (toInt_nonneg_iff hn).mpr hlt
  have hfit := argptr_block hnonneg (by rw [toInt, if_pos hlt]; omega) h
  rwa [toUint_toInt hn] at hfit

/-- `sys_read` and `sys_write` fetch and check their arguments alike; they differ in what is moved and
in the condition for negative lengths. -/
theorem checked_confined_iff {m : UserMem} {ofile : Nat → Option File}
    {access : File → Nat → Int → List Nat} {fits : File → Nat → Nat → Prop}
    (hpos : ∀ f p n, n < 2 ^ 31 → p + n < m.sz → ∀ a ∈ access f p (toInt n), a < m.sz)
    (hneg : ∀ f p n, p < m.sz → 2 ^ 31 ≤ n → n < uintSize →
      ((∀ a ∈ access f p (toInt n), a < m.sz) ↔ fits f p n)) :
    (∀ a ∈ ((argfd m ofile 0).bind fun f => (argint m 2).bind fun n =>
      (argptr m 1 (toInt n)).map fun p => access f p (toInt n)).getD [], a < m.sz) ↔
    ∀ f n p, argfd m ofile 0 = some f → argint m 2 = some n → argptr m 1 (toInt n) = some p →
      toInt n < 0 → fits f p n := by
  constructor
  · intro h f n p hf hn hp hlt0
    have hlt := argint_lt hn
    refine (hneg f p n (argptr_length hlt hp).1 ?_ hlt).mp ?_
    · have := toInt_nonneg_iff hlt
      omega
    · simpa only [hf, hn, hp, Option.bind_some, Option.map_some, Option.getD_some] using h
  · intro h
    cases hf : argfd m ofile 0 with
    | none => simp
    | some f =>
      cases hn : argint m 2 with
      | none => simp
      | some n =>
        have hlt := argint_lt hn
        cases hp : argptr m 1 (toInt n) with
        | none => simp [hp]
        | some p =>
          obtain ⟨hpsz, hfit⟩ := argptr_length hlt hp
          simp only [Option.bind_some, hp, Option.map_some, Option.getD_some]
          by_cases hsmall : n < 2 ^ 31
          · exact hpos f p n hsmall (hfit hsmall)
          · refine (hneg f p n hpsz (by omega) hlt).mpr (h f n p hf hn hp ?_)
            exact toInt_neg (by omega) hlt

theorem read_confined_iff (m : UserMem) (ofile : Nat → Option File) (env : Env) :
    (∀ a ∈ accesses m ofile env .read, a < m.sz) ↔ Confined m ofile env .read :=
  checked_confined_iff (fun _ _ _ hn hfit => filereadAccess_lt hn hfit)
    (fun _ _ _ hp hn hlt => filereadAccess_lt_iff hp hn hlt)

theorem write_confined_iff (m : UserMem) (ofile : Nat → Option File) (env : Env) :
    (∀ a ∈ accesses m ofile env .write, a < m.sz) ↔ Confined m ofile env .write :=
  checked_confined_iff (fun _ _ _ hn hfit => filewriteAccess_lt hn hfit)
    (fun _ _ _ hp hn hlt => filewriteAccess_lt_iff hp hn hlt)

/-- A fixed block that fits behind a checked pointer. -/
theorem argptr_field_lt {m : UserMem} {n p size : Nat} (k len : Nat) (hsize : size < 2 ^ 31)
    (h : argptr m n size = some p) (hk : k + len ≤ size) : ∀ a ∈ block (p + k) len, a < m.sz := by
  have hle := m.sz_le
  have htop : userTop < 2 ^ 31 := by decide
  have hfit := argptr_block (by omega) (by omega) h
  have huint : toUint (size : Int) = size := by
    have := toUint_of_nonneg (show 0 ≤ (size : Int) by omega) (by omega)
    omega
  rw [huint] at hfit
  exact (block_lt_iff (by simp only [uintSize]; omega) hle).mpr (Or.inr (by omega))

theorem fstat_lt (m : UserMem) (ofile : Nat → Option File) (env : Env) :
    ∀ a ∈ accesses m ofile env .fstat, a < m.sz := by
  simp only [accesses]
  cases hf : argfd m ofile 0 with
  | none => simp
  | some f =>
    cases hst : argptr m 1 20 with
    | none => simp
    | some st =>
      simp only [Option.bind_some, Option.map_some, Option.getD_some]
      split
      · have hst : argptr m 1 (20 : Nat) = some st := hst
        have htype := argptr_field_lt 0 2 (by decide) hst (by decide)
        have hdev := argptr_field_lt 4 4 (by decide) hst (by decide)
        have hino := argptr_field_lt 8 4 (by decide) hst (by decide)
        have hnlink := argptr_field_lt 12 2 (by decide) hst (by decide)
        have hsize := argptr_field_lt 16 4 (by decide) hst (by decide)
        intro a ha
        simp only [statiAccess, List.mem_append] at ha
        rcases ha with (((ha | ha) | ha) | ha) | ha
        · exact hdev a ha
        · exact hino a ha
        · exact htype a ha
        · exact hnlink a ha
        · exact hsize a ha
      · simp

theorem pipe_lt (m : UserMem) (ofile : Nat → Option File) (env : Env) :
    ∀ a ∈ accesses m ofile env .pipe, a < m.sz := by
  simp only [accesses]
  cases hfd : argptr m 0 8 with
  | none => simp
  | some fd =>
    simp only [Option.map_some, Option.getD_some]
    split
    · have hfd : argptr m 0 (8 : Nat) = some fd := hfd
      intro a ha
      rcases List.mem_append.mp ha with ha | ha
      · exact argptr_field_lt 0 4 (by decide) hfd (by decide) a ha
      · exact argptr_field_lt 4 4 (by decide) hfd (by decide) a ha
    · simp

theorem wait2_confined_iff (m : UserMem) (ofile : Nat → Option File) (env : Env) :
    (∀ a ∈ accesses m ofile env .wait2, a < m.sz) ↔ Confined m ofile env .wait2 := by
  have hle := m.sz_le
  simp only [accesses, Confined]
  cases hwt : argint m 0 with
  | none => simp
  | some wt =>
    cases hrt : argint m 1 with
    | none => simp
    | some rt =>
      cases hreaps : env.reaps
      · simp
      · simp only [Option.bind_some, Option.map_some, Option.getD_some, if_true,
          List.forall_mem_append, block_lt_iff (argint_lt hwt) hle,
          block_lt_iff (argint_lt hrt) hle, Option.some.injEq]
        constructor
        · rintro ⟨hw, hr⟩ wt' rt' rfl rfl -
          exact ⟨by omega, by omega⟩
        · intro h
          have hboth := h wt rt rfl rfl trivial
          exact ⟨Or.inr hboth.1, Or.inr hboth.2⟩

/-- User-pointer confinement, exactly: every address a call touches through its pointer arguments lies
in the process if and only if the call is `Confined`. -/
theorem user_access_confined_iff (m : UserMem) (ofile : Nat → Option File) (env : Env)
    (call : Call) :
    (∀ a ∈ accesses m ofile env call, a < m.sz) ↔ Confined m ofile env call := by
  cases call with
  | read => exact read_confined_iff m ofile env
  | write => exact write_confined_iff m ofile env
  | fstat => exact iff_of_true (fstat_lt m ofile env) trivial
  | pipe => exact iff_of_true (pipe_lt m ofile env) trivial
  | wait2 => exact wait2_confined_iff m ofile env

/-- A one-page process whose stack holds the arguments of `wait2(0x100000, 0x100000)`. -/
def wait2Stack : UserMem where
  sz := 0x1000
  sz_le := page_le_userTop
  esp := 0
  byte := fun a => if a = 6 ∨ a = 10 then 0x10 else 0

/-- A one-page process whose stack holds the arguments of `read(0, 0x800, -1)`. -/
def readStack : UserMem where
  sz := 0x1000
  sz_le := page_le_userTop
  esp := 0
  byte := fun a => if a = 9 then 0x08 else if 12 ≤ a ∧ a < 16 then 0xff else 0

/-- An open file of 4096 bytes, at its start. -/
def pageFile : File where
  type := .inode
  readable := true
  writable := false
  ip := { type := .file, major := 0, size := 4096, size_le := by decide }
  off := 0

/-- `wait2` stores behind the process, into the kernel; so does `read` with a negative length. -/
theorem user_access_not_confined :
    (¬∀ a ∈ accesses wait2Stack (fun _ => none) ⟨0, 0, [], false, true⟩ .wait2, a < wait2Stack.sz) ∧
    (¬∀ a ∈ accesses readStack (fun _ => some pageFile) ⟨0, 0, [], false, false⟩ .read,
      a < readStack.sz) := by
  constructor
  · rw [wait2_confined_iff]
    intro h
    exact absurd (h 0x100000 0x100000 (by decide) (by decide) rfl).1 (by decide)
  · rw [read_confined_iff]
    intro h
    exact absurd (h pageFile 0xffffffff 0x800 rfl (by decide) (by decide) (by decide) rfl
      rfl (by decide) (by decide) (by decide)) (by decide)

end Xv6
