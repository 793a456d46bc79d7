import Xv6.LibExcept
import Xv6.LibLines
import Xv6.Shell
import Xv6.Umalloc

/-! The search path of the shell, sh.c: `parsepath` reads it from .env, and `myexec` goes through it. A pointer is a
block that `malloc` has returned and an offset into it, and a store outside of the block stops the program. The array
of the entries is kept apart from the strings; its slots are the words of its block. -/

namespace Xv6.Shell.Path

open LibExcept LibLines

structure Ptr where
  block : Nat
  off : Nat

/-- What is in the blocks that have been allocated. -/
abbrev Blocks := List (List UInt8)

/-- The ways not to return: `exit` after a message, or an access outside of a block. -/
inductive Stop where
  | exits (text : String)
  | outside

/-- The room in a block of a requested size, and what is in a new block. -/
structure Allocator where
  room : Nat → Nat
  junk : Nat → Nat → UInt8
  large : ∀ n, n ≤ room n

def Allocator.malloc (al : Allocator) (n : Nat) (h : Blocks) : Nat × Blocks :=
  (h.length, h ++ [(List.range (al.room n)).map (al.junk h.length)])

def store (h : Blocks) (p : Ptr) (c : UInt8) : Except Stop Blocks :=
  if p.off < (h.getD p.block []).length then .ok (h.modify p.block fun s => s.set p.off c) else .error .outside

def storeAll : Blocks → Ptr → List UInt8 → Except Stop Blocks
  | h, _, [] => .ok h
  | h, p, c :: cs => do
    let h ← store h p c
    storeAll h ⟨p.block, p.off + 1⟩ cs

/-- The C string at a pointer. -/
def text (h : Blocks) (p : Ptr) : List UInt8 := textAt (h.getD p.block []) p.off

/-- `arrpath[i] = p`. -/
def setSlot (arrpath : List (Option Ptr)) (i : Nat) (p : Ptr) : Except Stop (List (Option Ptr)) :=
  if i < arrpath.length then .ok (arrpath.set i (some p)) else .error .outside

/-- The variables of `parsepath`. -/
structure Loop where
  heap : Blocks
  buf : Ptr
  start : Ptr
  i : Nat
  arrpath : List (Option Ptr)

/-- What `parsepath` returns, and the index it leaves in `*i`. -/
structure Parsed where
  heap : Blocks
  arrpath : List (Option Ptr)
  len : Nat

/-- The loop of `parsepath`, over the rest of the file, and the two stores behind it. -/
def readPath (al : Allocator) : List UInt8 → Loop → Except Stop Parsed
  | [], st => do
    let heap ← store st.heap st.buf 0
    let arrpath ← setSlot st.arrpath st.i st.start
    .ok ⟨heap, arrpath, st.i⟩
  | c :: rest, st => do
    let heap ← store st.heap st.buf c
    if c ≠ ch ':' then readPath al rest { st with heap := heap, buf := ⟨st.buf.block, st.buf.off + 1⟩ }
    else
      let heap ← store heap st.buf 0
      let arrpath ← setSlot st.arrpath st.i st.start
      let (p, heap) := al.malloc 4 heap
      let arrpath ← setSlot arrpath (st.i + 1) ⟨p, 0⟩
      let (buf, heap) := al.malloc 100 heap
      readPath al rest ⟨heap, ⟨buf, 0⟩, ⟨buf, 0⟩, st.i + 1, arrpath⟩

def pathName : List UInt8 := [ch 'P', ch 'A', ch 'T', ch 'H', ch '=']

/-- The file is `none` if it cannot be opened; a descriptor that is open is closed without error. -/
def parsepath (al : Allocator) (env : Option (List UInt8)) (i : Nat) : Except Stop Parsed :=
  let (buf, heap) := al.malloc 100 []
  let (pathstrt, heap) := al.malloc 6 heap
  match env with
  | none => .error (.exits "no environment file: -1")
  | some file => do
    let heap ← storeAll heap ⟨pathstrt, 0⟩ (file.take 5)
    let heap ← store heap ⟨pathstrt, 5⟩ 0
    if text heap ⟨pathstrt, 0⟩ = pathName then
      readPath al (file.drop 5) ⟨heap, ⟨buf, 0⟩, ⟨buf, 0⟩, i, List.replicate (al.room 4 / 4) none⟩
    else .error (.exits ".env isnt defined correctly")

/-- `strcat`, ulib.c. -/
def strcat (h : Blocks) (dest : Ptr) (src : List UInt8) : Except Stop Blocks :=
  match ((h.getD dest.block []).drop dest.off).findIdx? (· = 0) with
  | none => .error .outside
  | some i => storeAll h ⟨dest.block, dest.off + i⟩ (src ++ [0])

/-- The loop of `myexec` over the slots; `exec` returns only when it fails. The names `exec` has been called with. -/
def execFrom (exec : List UInt8 → Bool) (path : List UInt8) : List (Option Ptr) → Blocks → Except Stop (List (List UInt8))
  | [], _ => .ok []
  | none :: _, _ => .error .outside
  | some p :: slots, h => do
    let h ← strcat h p path
    if exec (text h p) then .ok [text h p]
    else
      let names ← execFrom exec path slots h
      .ok (text h p :: names)

def myexec (exec : List UInt8 → Bool) (path : List UInt8) (x : Parsed) : Except Stop (List (List UInt8)) :=
  execFrom exec path (x.arrpath.take (x.len + 1)) x.heap

/-! What the path is for. -/

/-- The entries of the line. -/
def lineEntries (rest : List UInt8) : List (List UInt8) := (rest.takeWhile (· ≠ ch '\n')).splitOn (ch ':')

/-- One after the other, until one succeeds. -/
def attempts (exec : List UInt8 → Bool) : List (List UInt8) → List (List UInt8)
  | [] => []
  | name :: names => name :: if exec name then [] else attempts exec names

/-- The entries as strings. -/
def Parsed.entries (x : Parsed) : List (Option (List UInt8)) :=
  (x.arrpath.take (x.len + 1)).map (Option.map (text x.heap))

/-- `parsepath` yields the entries of the line, `myexec` tries them, and no store is outside of its block. -/
def Looks (al : Allocator) (exec : List UInt8 → Bool) (rest word : List UInt8) : Prop :=
  ∃ x, parsepath al (some (pathName ++ rest)) 0 = .ok x ∧ x.entries = (lineEntries rest).map some ∧
    myexec exec word x = .ok (attempts exec ((lineEntries rest).map (· ++ word)))

/-- The array has room for all entries, and every block for its entry. -/
def Fits (al : Allocator) (entries : List (List UInt8)) : Prop :=
  4 * entries.length ≤ al.room 4 ∧ ∀ e ∈ entries, e.length < al.room 100

/-- When the path works: the file ends with the line, without a line terminator, and everything fits. -/
def Works (al : Allocator) (exec : List UInt8 → Bool) (rest word : List UInt8) : Prop :=
  0 ∉ rest ∧ ch '\n' ∉ rest ∧ Fits al (rest.splitOn (ch ':')) ∧
    ∀ name ∈ attempts exec ((rest.splitOn (ch ':')).map (· ++ word)), name.length < al.room 100

/-! Stores. -/

variable {al : Allocator} {h : Blocks} {b n : Nat} {s : List UInt8}

/-- A block and the bytes it starts with. -/
structure Holds (h : Blocks) (b n : Nat) (s : List UInt8) : Prop where
  size : (h.getD b []).length = n
  starts : s <+: h.getD b []

/-- Only one block has changed. -/
def Same (b : Nat) (h h' : Blocks) : Prop := ∀ b', b' ≠ b → h'.getD b' [] = h.getD b' []

theorem Holds.lt (hholds : Holds h b n s) (hn : 0 < n) : b < h.length := by
  by_contra hle
  have hsize := hholds.size
  rw [List.getD_eq_default _ _ (Nat.not_lt.mp hle), List.length_nil] at hsize
  omega

theorem Holds.same {b' : Nat} {h' : Blocks} (hholds : Holds h b n s) (hsame : Same b' h h') (hb : b ≠ b') :
    Holds h' b n s := by
  refine ⟨?_, ?_⟩
  · rw [hsame b hb]
    exact hholds.size
  · rw [hsame b hb]
    exact hholds.starts

theorem Holds.left {t : List UInt8} (hholds : Holds h b n (s ++ t)) : Holds h b n s :=
  ⟨hholds.size, (List.prefix_append s t).trans hholds.starts⟩

theorem Holds.append (hholds : Holds h b n s) (hn : 0 < n) (h' : Blocks) : Holds (h ++ h') b n s := by
  have heq : (h ++ h').getD b [] = h.getD b [] := List.getD_append _ _ _ _ (hholds.lt hn)
  refine ⟨?_, ?_⟩
  · rw [heq]
    exact hholds.size
  · rw [heq]
    exact hholds.starts

theorem holds_malloc (al : Allocator) (n : Nat) (h : Blocks) : Holds (al.malloc n h).2 h.length (al.room n) [] := by
  refine ⟨?_, List.nil_prefix⟩
  show ((h ++ [_]).getD h.length []).length = _
  rw [List.getD_append_right _ _ _ _ le_rfl, Nat.sub_self]
  simp

theorem store_exactly (hholds : Holds h b n s) (c : UInt8) :
    Exactly (s.length < n) .outside (fun h' => Holds h' b n (s ++ [c]) ∧ Same b h h') (store h ⟨b, s.length⟩ c) := by
  rw [store, hholds.size]
  refine exactly_ite fun hlt => ⟨?_, ?_⟩
  · have hb : b < h.length := hholds.lt (by omega)
    have heq : (h.modify b fun t => t.set s.length c).getD b [] = (h.getD b []).set s.length c := by
      simp [List.getD_eq_getElem?_getD, hb]
    refine ⟨?_, ?_⟩
    · rw [heq, List.length_set]
      exact hholds.size
    · rw [heq]
      obtain ⟨t, ht⟩ := hholds.starts
      have hsize := hholds.size
      rw [← ht] at hsize ⊢
      cases t with
      | nil =>
        rw [List.append_nil] at hsize
        omega
      | cons d t =>
        rw [List.set_append_right _ _ le_rfl, Nat.sub_self, List.set_cons_zero]
        exact ⟨t, by simp⟩
  · intro b' hb
    simp [List.getD_eq_getElem?_getD, hb.symm]

theorem storeAll_exactly (hholds : Holds h b n s) (cs : List UInt8) :
    Exactly (s.length + cs.length ≤ n) .outside (fun h' => Holds h' b n (s ++ cs) ∧ Same b h h')
      (storeAll h ⟨b, s.length⟩ cs) := by
  induction cs generalizing h s with
  | nil =>
    have hle : s.length ≤ n := hholds.size ▸ hholds.starts.length_le
    refine (exactly_pure ⟨?_, fun b' _ => rfl⟩).congr (iff_of_true trivial hle)
    rw [List.append_nil]
    exact hholds
  | cons c cs ih =>
    refine ((store_exactly hholds c).bind (d := s.length + 1 + cs.length ≤ n) fun h' hstored => ?_).congr ?_
    · have hrest := ih hstored.1
      rw [List.length_append, List.append_assoc] at hrest
      exact hrest.mono fun h'' hall => ⟨hall.1, fun b' hb => (hall.2 b' hb).trans (hstored.2 b' hb)⟩
    · rw [List.length_cons]
      omega

theorem setSlot_exactly (arrpath : List (Option Ptr)) (i : Nat) (p : Ptr) :
    Exactly (i < arrpath.length) .outside (fun slots => i < arrpath.length ∧ slots = arrpath.set i (some p))
      (setSlot arrpath i p) :=
  exactly_ite fun hlt => ⟨hlt, rfl⟩

theorem takeWhile_nul (e t : List UInt8) : (e ++ 0 :: t).takeWhile (· ≠ 0) = e.takeWhile (· ≠ 0) := by
  induction e with
  | nil => rfl
  | cons c e ih => rw [List.cons_append, List.takeWhile_cons, List.takeWhile_cons, ih]

theorem Holds.text {e : List UInt8} (hholds : Holds h b n (e ++ [0])) : text h ⟨b, 0⟩ = e.takeWhile (· ≠ 0) := by
  obtain ⟨t, ht⟩ := hholds.starts
  rw [Path.text, textAt, ← ht, List.drop_zero, List.append_assoc]
  exact takeWhile_nul e t

/-! Reading the path. -/

variable {arrpath : List (Option Ptr)} {bs : List Nat} {entries done : List (List UInt8)} {e cur : List UInt8}
  {st : Loop}

/-- The array and the blocks of the entries read so far. -/
structure Stored (al : Allocator) (h : Blocks) (arrpath : List (Option Ptr)) (bs : List Nat)
    (entries : List (List UInt8)) : Prop where
  slots : arrpath.length = al.room 4 / 4
  taken : arrpath.take entries.length = bs.map fun b => some ⟨b, 0⟩
  strings : List.Forall₂ (fun b e => Holds h b (al.room 100) (e ++ [0])) bs entries
  apart : bs.Nodup

theorem Allocator.room_pos (al : Allocator) : 0 < al.room 100 := Nat.lt_of_lt_of_le (by decide) (al.large 100)

theorem strings_same {h' : Blocks} (hstrings : List.Forall₂ (fun b e => Holds h b n (e ++ [0])) bs entries)
    (hsame : Same b h h') (hb : b ∉ bs) : List.Forall₂ (fun b e => Holds h' b n (e ++ [0])) bs entries := by
  induction hstrings with
  | nil => exact .nil
  | cons hhead _ ih =>
    rw [List.mem_cons, not_or] at hb
    exact .cons (hhead.same hsame (Ne.symm hb.1)) (ih hb.2)

theorem Stored.same {h' : Blocks} (hs : Stored al h arrpath bs entries) (hsame : Same b h h') (hb : b ∉ bs) :
    Stored al h' arrpath bs entries :=
  ⟨hs.slots, hs.taken, strings_same hs.strings hsame hb, hs.apart⟩

theorem Stored.append (hs : Stored al h arrpath bs entries) (h' : Blocks) : Stored al (h ++ h') arrpath bs entries :=
  ⟨hs.slots, hs.taken, hs.strings.imp fun _ _ hholds => hholds.append al.room_pos h', hs.apart⟩

theorem Stored.set {i : Nat} (hs : Stored al h arrpath bs entries) (hi : entries.length ≤ i) (x : Option Ptr) :
    Stored al h (arrpath.set i x) bs entries := by
  refine ⟨?_, ?_, hs.strings, hs.apart⟩
  · rw [List.length_set]
    exact hs.slots
  · rw [List.take_set_of_le hi]
    exact hs.taken

theorem Stored.push (hs : Stored al h arrpath bs entries) (hlt : entries.length < arrpath.length)
    (hholds : Holds h b (al.room 100) (e ++ [0])) (hb : b ∉ bs) :
    Stored al h (arrpath.set entries.length (some ⟨b, 0⟩)) (bs ++ [b]) (entries ++ [e]) := by
  refine ⟨?_, ?_, ?_, ?_⟩
  · rw [List.length_set]
    exact hs.slots
  · rw [List.length_append, List.length_singleton, List.take_add_one, List.take_set_of_le le_rfl, hs.taken,
      List.getElem?_set_self hlt, List.map_append]
    rfl
  · exact List.rel_append hs.strings (.cons hholds .nil)
  · grind [hs.apart]

/-- In the loop: the bytes of the entry being read are in the block of `start`. -/
structure Reading (al : Allocator) (st : Loop) (bs : List Nat) (done : List (List UInt8)) (cur : List UInt8) :
    Prop where
  stored : Stored al st.heap st.arrpath bs done
  index : st.i = done.length
  buf : st.buf = ⟨st.start.block, cur.length⟩
  start : st.start.off = 0
  current : Holds st.heap st.start.block (al.room 100) cur
  fresh : st.start.block ∉ bs

theorem Reading.start_eq (hr : Reading al st bs done cur) : some st.start = some ⟨st.start.block, 0⟩ := by
  rw [← hr.start]

theorem Reading.byte (hr : Reading al st bs done cur) (c : UInt8) :
    Exactly (cur.length < al.room 100) .outside (fun heap => Holds heap st.start.block (al.room 100) (cur ++ [c]) ∧
      Stored al heap st.arrpath bs done) (store st.heap st.buf c) := by
  rw [hr.buf]
  exact (store_exactly hr.current c).mono fun heap hstored => ⟨hstored.1, hr.stored.same hstored.2 hr.fresh⟩

/-- The entry being read has its block of its own at the front of what remains. -/
def entriesFrom (done : List (List UInt8)) (cur rest : List UInt8) : List (List UInt8) :=
  done ++ (rest.splitOn (ch ':')).modifyHead (cur ++ ·)

theorem entriesFrom_nil (done : List (List UInt8)) (cur : List UInt8) : entriesFrom done cur [] = done ++ [cur] := by
  simp [entriesFrom]

theorem entriesFrom_byte {c : UInt8} (hc : c ≠ ch ':') (done : List (List UInt8)) (cur rest : List UInt8) :
    entriesFrom done cur (c :: rest) = entriesFrom done (cur ++ [c]) rest := by
  obtain ⟨e, es, hsplit⟩ := exists_splitOn (ch ':') rest
  rw [entriesFrom, entriesFrom, splitOn_cons, if_neg hc, hsplit]
  simp

theorem entriesFrom_colon (done : List (List UInt8)) (cur rest : List UInt8) :
    entriesFrom done cur (ch ':' :: rest) = entriesFrom (done ++ [cur]) [] rest := by
  obtain ⟨e, es, hsplit⟩ := exists_splitOn (ch ':') rest
  rw [entriesFrom, entriesFrom, splitOn_cons, if_pos rfl, hsplit]
  simp

/-- The entry being read is the start of one of the entries, and there are more than the ones read. -/
theorem Fits.current {rest : List UInt8} (hfits : Fits al (entriesFrom done cur rest)) :
    cur.length < al.room 100 ∧ done.length < al.room 4 / 4 := by
  obtain ⟨e, es, hsplit⟩ := exists_splitOn (ch ':') rest
  rw [entriesFrom, hsplit, List.modifyHead_cons] at hfits
  have hlen := hfits.1
  have hcur := hfits.2 (cur ++ e) (by simp)
  rw [List.length_append, List.length_cons] at hlen
  rw [List.length_append] at hcur
  omega

theorem Holds.length_lt (hholds : Holds h b n (e ++ [0])) : e.length < n := by
  have hle := hholds.starts.length_le
  rw [hholds.size, List.length_append, List.length_singleton] at hle
  omega

theorem Stored.fits (hs : Stored al h arrpath bs entries) : Fits al entries := by
  obtain ⟨hslots, htaken, hstrings, -⟩ := hs
  refine ⟨?_, ?_⟩
  · have hlen := congrArg List.length htaken
    rw [List.length_take, List.length_map, hstrings.length_eq, hslots] at hlen
    omega
  · clear htaken
    induction hstrings with
    | nil => simp
    | cons hhead _ ih => exact List.forall_mem_cons.mpr ⟨hhead.length_lt, ih⟩

theorem Stored.lt (hs : Stored al h arrpath bs entries) : ∀ b ∈ bs, b < h.length := by
  have hstrings := hs.strings
  clear hs
  induction hstrings with
  | nil => simp
  | cons hhead _ ih => exact List.forall_mem_cons.mpr ⟨hhead.lt al.room_pos, ih⟩

theorem fits_concat (hdone : Fits al done) :
    Fits al (done ++ [cur]) ↔ cur.length < al.room 100 ∧ done.length < al.room 4 / 4 := by
  rw [Fits, List.length_append, List.length_singleton, List.forall_mem_append, List.forall_mem_singleton]
  have hshort := hdone.2
  constructor
  · rintro ⟨hlen, -, hcur⟩
    exact ⟨hcur, by omega⟩
  · rintro ⟨hcur, hlen⟩
    exact ⟨by omega, hshort, hcur⟩

/-- Behind a `:` the next entry is read to a block of its own. -/
theorem Reading.next {heap : Blocks} (hr : Reading al st bs done cur) (hlt : done.length < al.room 4 / 4)
    (hholds : Holds heap st.start.block (al.room 100) (cur ++ [0])) (hs : Stored al heap st.arrpath bs done) :
    Reading al ⟨(al.malloc 100 (al.malloc 4 heap).2).2, ⟨(al.malloc 100 (al.malloc 4 heap).2).1, 0⟩,
      ⟨(al.malloc 100 (al.malloc 4 heap).2).1, 0⟩, st.i + 1,
      (st.arrpath.set st.i (some st.start)).set (st.i + 1) (some ⟨(al.malloc 4 heap).1, 0⟩)⟩
      (bs ++ [st.start.block]) (done ++ [cur]) [] := by
  have hlen : (done ++ [cur]).length = done.length + 1 := by
    rw [List.length_append, List.length_singleton]
  have hpush := hs.push (by rw [hs.slots]; exact hlt) hholds hr.fresh
  refine ⟨?_, ?_, rfl, rfl, holds_malloc al 100 _, ?_⟩
  · rw [hr.index, hr.start_eq]
    exact ((hpush.set hlen.le _).append _).append _
  · rw [hlen, hr.index]
  · have hold : ∀ b ∈ bs ++ [st.start.block], b < heap.length := List.forall_mem_append.mpr
      ⟨hs.lt, List.forall_mem_singleton.mpr (hholds.lt al.room_pos)⟩
    have hnew : (al.malloc 100 (al.malloc 4 heap).2).1 = heap.length + 1 := by simp [Allocator.malloc]
    intro hmem
    have hlt := hold _ hmem
    dsimp only at hlt
    omega

/-- The loop returns exactly when everything fits. -/
theorem Reading.run {rest : List UInt8} (hr : Reading al st bs done cur) :
    Exactly (Fits al (entriesFrom done cur rest)) .outside (fun x => ∃ bs, x.len + 1 = (entriesFrom done cur rest).length ∧
      Stored al x.heap x.arrpath bs (entriesFrom done cur rest)) (readPath al rest st) := by
  induction rest generalizing st bs done cur with
  | nil =>
    rw [entriesFrom_nil, readPath]
    have hlast : ∀ heap, Holds heap st.start.block (al.room 100) (cur ++ [0]) →
        Stored al heap st.arrpath bs done → st.i < st.arrpath.length →
        Stored al heap (st.arrpath.set st.i (some st.start)) (bs ++ [st.start.block]) (done ++ [cur]) := by
      intro heap hholds hs hlt
      rw [hr.start_eq]
      rw [hr.index] at hlt ⊢
      exact hs.push hlt hholds hr.fresh
    refine Exactly.congr ?_ (fits_concat hr.stored.fits).symm
    refine (hr.byte 0).bind fun heap hbyte => ?_
    rw [← hr.stored.slots, ← hr.index]
    refine ((setSlot_exactly st.arrpath st.i st.start).bind fun slots hslots => ?_).congr (and_iff_left trivial)
    refine exactly_pure ⟨bs ++ [st.start.block], ?_, ?_⟩
    · rw [List.length_append, List.length_singleton, hr.index]
    · rw [hslots.2]
      exact hlast heap hbyte.1 hbyte.2 hslots.1
  | cons c rest ih =>
    by_cases hc : c = ch ':'
    · subst hc
      rw [entriesFrom_colon, readPath]
      have hnow : Fits al (entriesFrom (done ++ [cur]) [] rest) →
          cur.length < al.room 100 ∧ st.i + 1 < st.arrpath.length := fun hfits => by
        have hcur := (entriesFrom_colon done cur rest ▸ hfits).current.1
        have hlen := hfits.current.2
        rw [List.length_append, List.length_singleton] at hlen
        rw [hr.index, hr.stored.slots]
        exact ⟨hcur, hlen⟩
      refine Exactly.congr (c := cur.length < al.room 100 ∧ cur.length < al.room 100 ∧ st.i < st.arrpath.length ∧
        st.i + 1 < st.arrpath.length ∧ Fits al (entriesFrom (done ++ [cur]) [] rest)) ?_ ?_
      · refine (hr.byte _).bind fun heap hbyte => ?_
        rw [if_neg (by simp)]
        have hagain : Reading al { st with heap := heap } bs done cur :=
          ⟨hbyte.2, hr.index, hr.buf, hr.start, hbyte.1.left, hr.fresh⟩
        refine (hagain.byte 0).bind fun heap hend => (setSlot_exactly _ _ _).bind fun slots hslots => ?_
        rw [hslots.2]
        have hlen : (st.arrpath.set st.i (some st.start)).length = st.arrpath.length := List.length_set
        refine ((setSlot_exactly _ _ _).congr (by rw [hlen])).bind fun slots' hslots' => ?_
        rw [hslots'.2]
        refine ih (hr.next ?_ hend.1 hend.2)
        rw [← hr.index, ← hr.stored.slots]
        exact hslots.1
      · grind
    · rw [entriesFrom_byte hc, readPath]
      refine ((hr.byte c).bind (d := Fits al (entriesFrom done (cur ++ [c]) rest)) fun heap hbyte => ?_).congr ?_
      · rw [if_pos hc]
        refine ih ⟨hbyte.2, hr.index, ?_, hr.start, hbyte.1, hr.fresh⟩
        rw [hr.buf, List.length_append, List.length_singleton]
      · refine ⟨fun h => h.2, fun h => ⟨?_, h⟩⟩
        have hcur := h.current.1
        rw [List.length_append] at hcur
        omega

theorem parsepath_exactly (al : Allocator) (rest : List UInt8) :
    Exactly (Fits al (rest.splitOn (ch ':'))) .outside (fun x => ∃ bs, x.len + 1 = (rest.splitOn (ch ':')).length ∧
      Stored al x.heap x.arrpath bs (rest.splitOn (ch ':'))) (parsepath al (some (pathName ++ rest)) 0) := by
  have hsplit : entriesFrom [] [] rest = rest.splitOn (ch ':') := by
    obtain ⟨e, es, hsplit⟩ := exists_splitOn (ch ':') rest
    rw [entriesFrom, hsplit]
    rfl
  have hname : Holds (al.malloc 6 (al.malloc 100 []).2).2 1 (al.room 6) [] := holds_malloc al 6 _
  have hbuf : Holds (al.malloc 6 (al.malloc 100 []).2).2 0 (al.room 100) [] :=
    (holds_malloc al 100 []).append al.room_pos _
  have hlarge := al.large 6
  rw [← hsplit, parsepath]
  refine Exactly.congr (c := 0 + 5 ≤ al.room 6 ∧ 5 < al.room 6 ∧ Fits al (entriesFrom [] [] rest)) ?_ ?_
  · refine (storeAll_exactly hname pathName).bind fun heap hstored => ?_
    refine (store_exactly hstored.1 0).bind fun heap' hended => ?_
    have hstring : text heap' ⟨1, 0⟩ = pathName := Holds.text (e := pathName) hended.1
    show Exactly _ _ _ (if text heap' ⟨1, 0⟩ = pathName then
      readPath al rest ⟨heap', ⟨0, 0⟩, ⟨0, 0⟩, 0, List.replicate (al.room 4 / 4) none⟩ else _)
    rw [if_pos hstring]
    have hread : Reading al ⟨heap', ⟨0, 0⟩, ⟨0, 0⟩, 0, List.replicate (al.room 4 / 4) none⟩ [] [] [] :=
      ⟨⟨List.length_replicate, rfl, .nil, List.nodup_nil⟩, rfl, rfl, rfl,
        (hbuf.same hstored.2 (by decide)).same hended.2 (by decide), by simp⟩
    exact hread.run
  · exact ⟨fun h => h.2.2, fun h => ⟨hlarge.trans' (by decide), hlarge, h⟩⟩

/-! Going through the path. -/

theorem findIdx?_nul (he : 0 ∉ e) (t : List UInt8) : (e ++ 0 :: t).findIdx? (· = 0) = some e.length := by
  have hnone : e.findIdx? (· = 0) = none := by
    rw [List.findIdx?_eq_none_iff]
    exact fun c hc => decide_eq_false (ne_of_mem_of_not_mem hc he)
  rw [List.findIdx?_append, hnone, List.findIdx?_cons]
  simp

theorem strcat_exactly (hholds : Holds h b n (e ++ [0])) (he : 0 ∉ e) (src : List UInt8) :
    Exactly ((e ++ src).length < n) .outside (fun h' => Holds h' b n (e ++ src ++ [0]) ∧ Same b h h')
      (strcat h ⟨b, 0⟩ src) := by
  obtain ⟨t, ht⟩ := hholds.starts
  have hfind : ((h.getD b []).drop 0).findIdx? (· = 0) = some e.length := by
    rw [← ht, List.drop_zero, List.append_assoc]
    exact findIdx?_nul he t
  rw [strcat, hfind]
  dsimp only
  rw [Nat.zero_add, List.append_assoc]
  refine (storeAll_exactly hholds.left (src ++ [0])).congr ?_
  rw [List.length_append, List.length_append, List.length_singleton]
  omega

variable {exec : List UInt8 → Bool} {word : List UInt8}

theorem execFrom_exactly (hstrings : List.Forall₂ (fun b e => Holds h b (al.room 100) (e ++ [0])) bs entries)
    (hbs : bs.Nodup) (hentries : ∀ e ∈ entries, 0 ∉ e) (hword : 0 ∉ word) :
    Exactly (∀ name ∈ attempts exec (entries.map (· ++ word)), name.length < al.room 100) .outside
      (fun names => names = attempts exec (entries.map (· ++ word)))
      (execFrom exec word (bs.map fun b => some ⟨b, 0⟩) h) := by
  induction entries generalizing bs h with
  | nil =>
    cases hstrings
    refine Exactly.congr (exactly_pure (a := []) rfl) (iff_of_true trivial ?_)
    exact fun name hname => absurd hname List.not_mem_nil
  | cons e entries ih =>
    cases hstrings with
    | @cons b _ bs _ hhead htail =>
      rw [List.forall_mem_cons] at hentries
      rw [List.nodup_cons] at hbs
      have hrest : ∀ h', Same b h h' →
          List.Forall₂ (fun b e => Holds h' b (al.room 100) (e ++ [0])) bs entries := fun h' hsame =>
        strings_same htail hsame hbs.1
      have hnul : 0 ∉ e ++ word := List.not_mem_append hentries.1 hword
      rw [List.map_cons, List.map_cons, attempts, execFrom, List.forall_mem_cons]
      refine (strcat_exactly hhead hentries.1 word).bind fun h' hjoined => ?_
      have htext : text h' ⟨b, 0⟩ = e ++ word := by
        rw [hjoined.1.text, List.takeWhile_eq_self_iff]
        exact fun c hc => decide_eq_true (ne_of_mem_of_not_mem hc hnul)
      rw [htext]
      split_ifs with hexec
      · refine Exactly.congr (exactly_pure (a := [e ++ word]) rfl) (iff_of_true trivial ?_)
        exact fun name hname => absurd hname List.not_mem_nil
      · refine ((ih (hrest h' hjoined.2) hbs.2 hentries.2).bind fun names hnames => ?_).congr (and_iff_left trivial)
        exact exactly_pure (by rw [hnames])

/-! The entries of the line. -/

variable {rest line more : List UInt8}

/-- A line terminator gets into the entry before it. -/
theorem newline_splitOn (hline : 0 ∉ line) (more : List UInt8) :
    ∃ e ∈ (line ++ ch '\n' :: more).splitOn (ch ':'), ch '\n' ∈ e.takeWhile (· ≠ 0) := by
  induction line with
  | nil =>
    obtain ⟨e, es, hsplit⟩ := exists_splitOn (ch ':') more
    rw [List.nil_append, splitOn_cons, if_neg (by decide), hsplit]
    refine ⟨ch '\n' :: e, List.mem_cons_self, ?_⟩
    rw [List.takeWhile_cons, if_pos (by decide)]
    exact List.mem_cons_self
  | cons c line ih =>
    rw [List.mem_cons, not_or] at hline
    obtain ⟨e, he, hmem⟩ := ih hline.2
    obtain ⟨e', es, hsplit⟩ := exists_splitOn (ch ':') (line ++ ch '\n' :: more)
    rw [List.cons_append, splitOn_cons]
    rw [hsplit] at he ⊢
    split_ifs with hc
    · exact ⟨e, List.mem_cons_of_mem _ he, hmem⟩
    · rcases List.mem_cons.mp he with rfl | he
      · refine ⟨c :: e, List.mem_cons_self, ?_⟩
        rw [List.takeWhile_cons, if_pos (decide_eq_true (Ne.symm hline.1))]
        exact List.mem_cons_of_mem _ hmem
      · exact ⟨e, List.mem_cons_of_mem _ he, hmem⟩

/-- The strings read are the entries of the line exactly when there are no terminators. -/
theorem strings_lineEntries : (rest.splitOn (ch ':')).map (fun e => e.takeWhile (· ≠ 0)) = lineEntries rest ↔
    0 ∉ rest ∧ ch '\n' ∉ rest := by
  constructor
  · intro heq
    have hnul : ∀ e ∈ lineEntries rest, 0 ∉ e := by
      rw [← heq]
      intro e he
      obtain ⟨e', -, rfl⟩ := List.mem_map.mp he
      exact fun hmem => absurd (List.mem_takeWhile_imp hmem) (by simp)
    have hline : 0 ∉ rest.takeWhile (· ≠ ch '\n') := fun hmem => by
      obtain ⟨e, he, h0⟩ := (mem_splitOn (show (0 : UInt8) ≠ ch ':' by decide)).mp hmem
      exact hnul e he h0
    have hnewline : ch '\n' ∉ rest := fun hmem => by
      obtain ⟨line, more, rfl, hfirst⟩ := List.eq_append_cons_of_mem hmem
      have hcut : (line ++ ch '\n' :: more).takeWhile (· ≠ ch '\n') = line := by
        rw [List.takeWhile_append_of_pos fun c hc => decide_eq_true (ne_of_mem_of_not_mem hc hfirst),
          List.takeWhile_cons_of_neg (by simp), List.append_nil]
      rw [hcut] at hline
      obtain ⟨e, he, hin⟩ := newline_splitOn hline more
      have hentry : e.takeWhile (· ≠ 0) ∈ lineEntries (line ++ ch '\n' :: more) := by
        rw [← heq]
        exact List.mem_map_of_mem he
      rw [lineEntries, hcut] at hentry
      exact hfirst ((mem_splitOn (by decide)).mpr ⟨_, hentry, hin⟩)
    refine ⟨?_, hnewline⟩
    rw [takeWhile_ne_self hnewline] at hline
    exact hline
  · rintro ⟨hnul, hnewline⟩
    rw [lineEntries, takeWhile_ne_self hnewline]
    refine (List.map_congr_left fun e he => ?_).trans (List.map_id _)
    exact takeWhile_ne_self fun hmem => hnul ((mem_splitOn (by decide)).mpr ⟨e, he, hmem⟩)

theorem Stored.entries_eq {x : Parsed} (hs : Stored al x.heap x.arrpath bs entries)
    (hlen : x.len + 1 = entries.length) : x.entries = (entries.map fun e => e.takeWhile (· ≠ 0)).map some := by
  rw [Parsed.entries, hlen, hs.taken, List.map_map, List.map_map]
  have hstrings := hs.strings
  clear hs hlen
  induction hstrings with
  | nil => rfl
  | cons hhead _ ih =>
    rw [List.map_cons, List.map_cons, ih]
    exact congrArg (· :: _) (congrArg some hhead.text)

theorem Stored.myexec {x : Parsed} (hs : Stored al x.heap x.arrpath bs (rest.splitOn (ch ':')))
    (hlen : x.len + 1 = (rest.splitOn (ch ':')).length) (hnul : 0 ∉ rest) (hword : 0 ∉ word) :
    Exactly (∀ name ∈ attempts exec ((rest.splitOn (ch ':')).map (· ++ word)), name.length < al.room 100) .outside
      (fun names => names = attempts exec ((rest.splitOn (ch ':')).map (· ++ word))) (myexec exec word x) := by
  rw [Path.myexec, hlen, hs.taken]
  refine execFrom_exactly hs.strings hs.apart (fun e he hmem => hnul ?_) hword
  exact (mem_splitOn (by decide)).mpr ⟨e, he, hmem⟩

/-- The shell finds commands by the path of .env exactly when the file has no line terminator, the array has room for
all entries, and every block for its entry and the command. -/
theorem path_lookup_iff (hword : 0 ∉ word) : Looks al exec rest word ↔ Works al exec rest word := by
  have hparse := parsepath_exactly al rest
  constructor
  · rintro ⟨x, hrun, hentries, hexec⟩
    have hfits : Fits al (rest.splitOn (ch ':')) := by
      by_contra hnot
      rw [hparse.error hnot] at hrun
      cases hrun
    obtain ⟨x', hrun', bs, hlen, hs⟩ := hparse.ok hfits
    obtain rfl : x' = x := Except.ok.inj (hrun'.symm.trans hrun)
    rw [hs.entries_eq hlen] at hentries
    obtain ⟨hnul, hnewline⟩ := strings_lineEntries.mp ((List.map_injective_iff.mpr (Option.some_injective _)) hentries)
    refine ⟨hnul, hnewline, hfits, ?_⟩
    by_contra hnot
    rw [(hs.myexec hlen hnul hword).error hnot] at hexec
    cases hexec
  · rintro ⟨hnul, hnewline, hfits, hnames⟩
    obtain ⟨x, hrun, bs, hlen, hs⟩ := hparse.ok hfits
    refine ⟨x, hrun, ?_, ?_⟩
    · rw [hs.entries_eq hlen, strings_lineEntries.mpr ⟨hnul, hnewline⟩]
    · obtain ⟨names, hexec, rfl⟩ := (hs.myexec hlen hnul hword).ok hnames
      rw [hexec, lineEntries, takeWhile_ne_self hnewline]

/-- A block of exactly the size asked for. -/
def exactAllocator : Allocator := ⟨id, fun _ _ => 0, fun _ => le_rfl⟩

/-- A block of umalloc.c, in header units. -/
def unitAllocator : Allocator :=
  ⟨fun n => Umalloc.headerSize * (Umalloc.units n - 1), fun _ _ => 0, fun n => by
    simp only [Umalloc.headerSize, Umalloc.units]
    omega⟩

def bytes (s : String) : List UInt8 := s.toList.map ch

theorem path_lookup_bin : Looks exactAllocator (fun _ => true) (bytes "/bin/") (bytes "ls") :=
  (path_lookup_iff (by decide)).mpr ⟨by decide, by decide, ⟨by decide, by decide⟩, by decide⟩

/-- The .env of the repository, and one with a single entry and a line terminator. -/
theorem path_lookup_fails : ¬ Looks exactAllocator (fun _ => false) (bytes "/:/lol/:/checkit/:/so/\n") (bytes "ls") ∧
    ¬ Looks unitAllocator (fun _ => false) (bytes "/:/lol/:/checkit/:/so/\n") (bytes "ls") ∧
    ¬ Looks unitAllocator (fun _ => true) (bytes "/\n") (bytes "ls") := by
  have hfull : ∀ al exec, ¬ Fits al ((bytes "/:/lol/:/checkit/:/so/\n").splitOn (ch ':')) →
      ¬ Looks al exec (bytes "/:/lol/:/checkit/:/so/\n") (bytes "ls") := by
    rintro al exec hnot ⟨x, hrun, -⟩
    rw [(parsepath_exactly al _).error hnot] at hrun
    cases hrun
  refine ⟨hfull _ _ fun hfits => absurd hfits.1 (by decide), hfull _ _ fun hfits => absurd hfits.1 (by decide), ?_⟩
  rintro ⟨x, hrun, hentries, -⟩
  obtain ⟨x', hrun', bs, hlen, hs⟩ := (parsepath_exactly unitAllocator (bytes "/\n")).ok ⟨by decide, by decide⟩
  obtain rfl : x' = x := Except.ok.inj (hrun'.symm.trans hrun)
  rw [hs.entries_eq hlen] at hentries
  exact absurd hentries (by decide)

end Xv6.Shell.Path
