import Xv6.ExecFinish

/-! `exec` of an arbitrary file. Only the sum of the address and the size of a segment is compared with `USERTOP`; a
sum that wraps passes the test. -/

namespace Xv6.Exec

open LibExcept LibWord Fs Vm

variable {w w₀ : World} {role role₀ : Nat → Role} {bytes : List UInt8} {garbage : Block} {path : Str}
  {argv : List Str} {p : Process} {l : Loaded}

/-- The header of the file. -/
def elfOf (bytes : List UInt8) : Elfhdr := .ofBlock (ofBytes (bytes.take elfhdrSize))

/-- The headers of the segments that can be read. -/
def headersOf (bytes : List UInt8) : List Proghdr := headersFrom bytes (elfOf bytes).phnum (elfOf bytes).phoff

/-- The size of the program, with so many free pages; none when it cannot be loaded. -/
def imageSize (bytes : List UInt8) (free : Nat) : Option Nat :=
  if bytes.length < elfhdrSize ∨ (elfOf bytes).magic ≠ elfMagic ∨ free < 13 then none
  else loadsSize bytes (free - 13) (elfOf bytes).phnum (elfOf bytes).phoff 0

/-- Every segment that the loop comes to is safe, and after the last one there is room and a page for the stack. -/
structure FileSafe (bytes : List UInt8) (free : Nat) : Prop where
  loads : LoadsSafe bytes (free - 13) (elfOf bytes).phnum (elfOf bytes).phoff 0
  stack : ∀ size, imageSize bytes free = some size → pagesOf size < userPages ∧ pagesOf size + 13 < free

/-- How the reading of the program ends. -/
inductive Outcome (w₀ : World) (role₀ : Nat → Role) (bytes : List UInt8) (w : World) : Loaded → Prop
  | early (hsize : imageSize bytes w₀.mem.free.length = none) (hstores : w.stores = w₀.stores) :
      Outcome w₀ role₀ bytes w (.bad none)
  | late {d sz : Nat} {role : Nat → Role} (hsize : imageSize bytes w₀.mem.free.length = none)
      (hload : Loading w₀ role₀ d sz w role) : Outcome w₀ role₀ bytes w (.bad (some d))
  | done {d size : Nat} {role : Nat → Role} (hsize : imageSize bytes w₀.mem.free.length = some size)
      (hload : Loading w₀ role₀ d size w role) (hfilled : Filled bytes (headersOf bytes) d size w) :
      Outcome w₀ role₀ bytes w (.done (elfOf bytes) d size)

theorem readElfhdr_disk (hfile : w.ip.file = .disk bytes) (hbytes : bytes.length + pgsize < uintSize) :
    readElfhdr garbage w = .ok (if bytes.length < elfhdrSize then none else some (elfOf bytes), w) := by
  have hread : readi 0 elfhdrSize w = _ := readi_page hfile hbytes (by decide)
  rw [if_neg (Nat.not_lt_zero _), List.drop_zero] at hread
  refine (run_bind hread).trans ?_
  refine congrArg (fun r => Except.ok (r, w)) (if_congr ?_ rfl rfl)
  rw [List.length_take]
  omega

/-- The part of `exec` from the test of the header on. -/
theorem loadElf_outcome (hpool : Pool w₀.mem role₀) (hmem : w.mem = w₀.mem) (hstores : w.stores = w₀.stores)
    (hfile : w.ip.file = .disk bytes) (hbytes : bytes.length + pgsize < uintSize)
    (hlength : ¬ bytes.length < elfhdrSize)
    (hloads : LoadsSafe bytes (w₀.mem.free.length - 13) (elfOf bytes).phnum (elfOf bytes).phoff 0) :
    Returns (fun l w' => SameInode w w' ∧ Outcome w₀ role₀ bytes w' l) (loadElf (elfOf bytes)) w := by
  unfold loadElf
  by_cases hmagic : (elfOf bytes).magic = elfMagic
  · rw [if_neg (not_not.mpr hmagic)]
    have hkvm := setupkvm_spec hpool
    by_cases hfree : 13 ≤ w₀.mem.free.length
    · have hsize : imageSize bytes w₀.mem.free.length =
          loadsSize bytes (w₀.mem.free.length - 13) (elfOf bytes).phnum (elfOf bytes).phoff 0 := by
        rw [imageSize, if_neg]
        rintro (hshort | hother | hlt)
        · exact hlength hshort
        · exact hother hmagic
        · omega
      rw [if_pos hfree, ← hmem] at hkvm
      obtain ⟨d, m', role, hrun, hkvm⟩ := hkvm
      rw [hmem] at hkvm
      have hsetup : Returns (fun r w' => r = some d ∧ w' = { w with mem := m' }) (vm setupkvm) w :=
        ⟨_, _, vm_run hrun, rfl, rfl⟩
      refine hsetup.seq fun r w₁ hpost => ?_
      obtain ⟨rfl, rfl⟩ := hpost
      have hbegin : Loading w₀ role₀ d 0 { w with mem := m' } role := .begin hkvm hfree hstores
      refine (hbegin.loadSegments hpool hfile hbytes (by omega) hloads (.begin bytes d _)).seq fun r w₁ hpost => ?_
      obtain ⟨rfl, hprogress⟩ := hpost
      obtain ⟨sz, role₁, hload, hsz⟩ := hprogress.load
      have hsame₀ : SameInode w { w with mem := m' } := ⟨rfl, rfl, rfl, rfl⟩
      have hsame := hsame₀.trans hprogress.same
      cases hres : loadsSize bytes (w₀.mem.free.length - 13) (elfOf bytes).phnum (elfOf bytes).phoff 0 with
      | none => exact returns_pure ⟨hsame, .late (hsize.trans hres) hload⟩
      | some size =>
        rw [← hsz size hres] at hload
        exact returns_pure ⟨hsame, .done (hsize.trans hres) hload (hprogress.filled size hres)⟩
    · rw [if_neg hfree, ← hmem] at hkvm
      obtain ⟨m', role', hrun, -⟩ := hkvm
      have hsize : imageSize bytes w₀.mem.free.length = none := if_pos (.inr (.inr (not_le.mp hfree)))
      exact ⟨_, _, (run_bind (vm_run hrun)).trans rfl, ⟨rfl, rfl, rfl, rfl⟩, .early hsize hstores⟩
  · rw [if_pos hmagic]
    exact returns_pure ⟨.refl w, .early (if_pos (.inr (.inl hmagic))) hstores⟩

theorem loadProgram_outcome (hpool : Pool w.mem role₀) (hfile : w.ip.file = .disk bytes)
    (hbytes : bytes.length + pgsize < uintSize)
    (hloads : LoadsSafe bytes (w.mem.free.length - 13) (elfOf bytes).phnum (elfOf bytes).phoff 0) :
    Returns (fun l w' => SameInode w.taken w' ∧ Outcome w role₀ bytes w' l) (loadProgram garbage) w.taken := by
  have hread : Returns (fun r w' => r = (if bytes.length < elfhdrSize then none else some (elfOf bytes)) ∧ w' = w.taken)
      (readElfhdr garbage) w.taken := ⟨_, _, readElfhdr_disk hfile hbytes, rfl, rfl⟩
  refine hread.seq fun r w' hpost => ?_
  obtain ⟨rfl, rfl⟩ := hpost
  by_cases hlength : bytes.length < elfhdrSize
  · rw [if_pos hlength]
    exact returns_pure ⟨.refl _, .early (if_pos (.inl hlength)) rfl⟩
  · rw [if_neg hlength]
    exact loadElf_outcome hpool rfl rfl hfile hbytes hlength hloads

/-- What a successful `exec` leaves: the bytes of the segments, and above them the stack page. -/
structure Built (bytes : List UInt8) (argv : List Str) (size d : Nat) (m : Mem) : Prop where
  image : ∀ va < pagesOf size * pgsize, m.byte d va = some (imageByte bytes (headersOf bytes) va)
  stack : ∃ pg b, pg < 4096 ∧ ∀ o < pgsize, m.byte d (pagesOf size * pgsize + o) =
    some (pageAfter pg b (stackPokes pg (pagesOf size * pgsize) (pagesOf size * pgsize + pgsize) argv) o)

/-- How `exec` ends on a file with safe segments: it returns, and whether it succeeds depends on the file and on the
number of free pages. -/
structure Ended (bytes : List UInt8) (path : Str) (argv : List Str) (p : Process) (w : World) (r : Int × Process)
    (w' : World) : Prop where
  fails : imageSize bytes w.mem.free.length = none → r = (-1, p)
  succeeds : ∀ size, imageSize bytes w.mem.free.length = some size → ∃ d,
    r = (0, newProcess path argv (elfOf bytes) d (pagesOf size * pgsize + pgsize)) ∧ Built bytes argv size d w'.mem
  stores : ∃ d, ∀ s ∈ w'.stores, s ∈ w.stores ∨ Allotted w d s

theorem afterLoad_ended (hlive : Live w₀.mem role₀ p.vm) (hfits : Fits argv)
    (hsafe : FileSafe bytes w₀.mem.free.length) (hheld : Held w₀ w) (hl : Outcome w₀ role₀ bytes w l) :
    Returns (Ended bytes path argv p w₀) (afterLoad path argv p l) w := by
  cases hl with
  | early hsize hstores =>
    refine (bad_none hheld).mono fun r w' hpost => ⟨fun _ => hpost.1, fun size hsome => ?_, 0, fun s hs => ?_⟩
    · rw [hsize] at hsome
      cases hsome
    · rw [hpost.2, hstores] at hs
      exact .inl hs
  | @late d sz role hsize hload =>
    refine (hload.bad hheld).mono fun r w' hpost => ⟨fun _ => hpost.1, fun size hsome => ?_, d, fun s hs => ?_⟩
    · rw [hsize] at hsome
      cases hsome
    · rw [hpost.2] at hs
      exact hload.stores s hs
  | @done d size role hsize hload hfilled =>
    obtain ⟨hspan, hpages⟩ := hsafe.stack size hsize
    refine hheld.iunlockput.seq fun _ w₁ hpost => ?_
    obtain ⟨-, hmem, hstores⟩ := hpost
    have hload₁ := hload.congr hmem hstores
    have hfree : w₁.mem.free ≠ [] := by
      intro hnil
      have htotal := hload₁.free
      rw [hnil, List.length_nil] at htotal
      omega
    refine (hload₁.finish hlive hspan hfree hfits).mono fun r w' hpost => ?_
    obtain ⟨hr, hstores', hbelow, hstack⟩ := hpost
    refine ⟨fun hnone => ?_, fun size' hsome => ?_, d, hstores'⟩
    · rw [hsize] at hnone
      cases hnone
    · rw [hsize] at hsome
      rw [← Option.some.inj hsome]
      refine ⟨d, hr, fun va hva => ?_, hstack⟩
      rw [hbelow va hva, hmem]
      exact hfilled.byte va hva

/-- `exec` of a file with safe segments. -/
theorem exec_ended (hlive : Live w.mem role p.vm) (hfound : w.found = true) (hbusy : w.ip.busy = false)
    (hrefs : w.refs = 0) (hfoul : w.foul = false) (hfile : w.ip.file = .disk bytes)
    (hbytes : bytes.length + pgsize < uintSize) (hfits : Fits argv) (hsafe : FileSafe bytes w.mem.free.length) :
    Returns (Ended bytes path argv p w) (exec path argv garbage p) w := by
  have hrun : Returns (Ended bytes path argv p w) (loadProgram garbage >>= afterLoad path argv p) w.taken := by
    refine (loadProgram_outcome hlive.pool hfile hbytes hsafe.loads).seq fun l w' hpost => ?_
    exact afterLoad_ended hlive hfits hsafe (hpost.1.held hbusy hrefs hfoul) hpost.2
  obtain ⟨r, w', hrun, hended⟩ := hrun
  exact ⟨r, w', (exec_taken hfound hbusy).trans hrun, hended⟩

/-- What is asked of `exec` of any file: it returns 0 or -1, and `loaduvm` stores only to pages that were allocated for
the new address space. -/
def Sound (x : Code (Int × Process)) (w : World) : Prop :=
  Returns (fun r w' => (r.1 = 0 ∨ r.1 = -1) ∧ ∃ d, ∀ s ∈ w'.stores, s ∈ w.stores ∨ Allotted w d s) x w

/-- The header of a file with so many program headers after it. -/
def elfHeader (phnum : UInt8) : List UInt8 :=
  [0x7F, 0x45, 0x4C, 0x46] ++ List.replicate 24 0 ++ [52, 0, 0, 0] ++ List.replicate 12 0 ++ [phnum, 0] ++
    List.replicate 6 0

/-- The header of a segment with the first bytes of the file. -/
def segmentHeader (va filesz memsz : UInt8) : List UInt8 :=
  [1, 0, 0, 0, 0, 0, 0, 0, va, 0, 0, 0, 0, 0, 0, 0, filesz, 0, 0, 0, memsz, 0, 0, 0, 0, 0, 0, 0, 0, 0, 0, 0]

/-- A process of one page that calls `exec` on a file. -/
def caller (bytes : List UInt8) (pages : Nat) : World :=
  ⟨onePage (List.range' 2048 pages), true, ⟨0, false, 1, .disk bytes⟩, 0, false, false, []⟩

def callerProc : Process := ⟨onePageProc, [], 0, 0⟩

theorem caller_live (bytes : List UInt8) {pages : Nat} (hpages : pages ≤ 2048) :
    Live (caller bytes pages).mem (onePageRole (List.range' 2048 pages)) callerProc.vm := by
  refine onePage_live List.nodup_range' fun pg hpg => ?_
  rw [List.mem_range'_1] at hpg
  omega

theorem elfHeader_safe : FileSafe (elfHeader 0) 14 := by
  refine ⟨trivial, fun size hsize => ?_⟩
  rw [show imageSize (elfHeader 0) 14 = some 0 by decide] at hsize
  rw [← Option.some.inj hsize]
  decide

/-- A file whose first segment does not begin at a page. -/
theorem exec_unaligned {ph : Proghdr} {k : Nat} (hlive : Live w.mem role p.vm) (hfound : w.found = true)
    (hbusy : w.ip.busy = false) (hfile : w.ip.file = .disk bytes) (hbytes : bytes.length + pgsize < uintSize)
    (hlength : ¬ bytes.length < elfhdrSize) (hmagic : (elfOf bytes).magic = elfMagic)
    (hnum : (elfOf bytes).phnum = k + 1) (hfirst : headerAt bytes (elfOf bytes).phoff = some ph)
    (hload : ph.type = elfProgLoad) (hsize : ph.filesz ≤ ph.memsz) (hpos : 0 < ph.top) (htop : ph.top ≤ userTop)
    (hfree : 13 + pagesOf ph.top ≤ w.mem.free.length) (hunaligned : ph.va % pgsize ≠ 0) :
    exec path argv garbage p w = .error (.panic "loaduvm: addr must be page aligned\n") := by
  have hkvm := setupkvm_spec hlive.pool
  rw [if_pos (by omega)] at hkvm
  obtain ⟨d, m', role', hrun, hkvm⟩ := hkvm
  obtain ⟨w₁, hw₁⟩ : ∃ w₁ : World, w₁ = { w.taken with mem := m' } := ⟨_, rfl⟩
  have hbegin : Loading w role d 0 w₁ role' := by
    rw [hw₁]
    exact .begin hkvm (by omega) rfl
  have hfile₁ : w₁.ip.file = .disk bytes := by
    rw [hw₁]
    exact hfile
  have hsetup : vm setupkvm w.taken = .ok (some d, w₁) := by
    rw [hw₁]
    exact vm_run hrun
  have hhdr : readElfhdr garbage w.taken = _ := readElfhdr_disk hfile hbytes
  rw [if_neg hlength] at hhdr
  have hseg : loadSegment d ph 0 w₁ = .error (.panic "loaduvm: addr must be page aligned\n") := by
    rw [loadSegment, if_neg (not_not.mpr hload), if_neg (not_lt.mpr hsize)]
    refine (hbegin.grow hpos htop ?_).seq_error fun x w₂ hpost => ?_
    · have htotal : w₁.mem.free.length + 13 = w.mem.free.length := hbegin.free
      show pagesOf ph.top - 0 ≤ _
      omega
    · obtain ⟨rfl, -⟩ := hpost
      rw [if_neg (Nat.ne_of_gt (lt_max_of_lt_left hpos)), loaduvm, if_pos hunaligned]
      rfl
  have hloop : loadSegments d (k + 1) (elfOf bytes).phoff 0 w₁ =
      .error (.panic "loaduvm: addr must be page aligned\n") := by
    have hread : readProghdr (elfOf bytes).phoff w₁ = .ok (some ph, w₁) := by
      rw [readProghdr_disk hfile₁ hbytes, hfirst]
    rw [loadSegments]
    exact (run_bind hread).trans (run_bind_error hseg)
  have helf : loadElf (elfOf bytes) w.taken = .error (.panic "loaduvm: addr must be page aligned\n") := by
    unfold loadElf
    rw [if_neg (not_not.mpr hmagic), hnum]
    exact (run_bind hsetup).trans (run_bind_error hloop)
  refine (exec_taken hfound hbusy).trans (run_bind_error ?_)
  exact (run_bind hhdr).trans helf

end Xv6.Exec
