import Xv6.Grep
import Xv6.LibLines

/-! The loop of grep.c over the input as successive calls of `read` return it. The buffer keeps what earlier reads have
left in it, and `strchr` searches up to a NUL, not up to the end of what has been read. -/

namespace Xv6.Grep

open LibLines Shell

def bufSize : Nat := 1024

def newline : UInt8 := ch '\n'

/-- An access outside of the buffer, a `read` that returns more than it was asked for, or the bound of the loop. -/
inductive Stop where
  | outside
  | tooMuch
  | fuel

/-- What `strchr` comes to first: the byte, a NUL or the end of the buffer. -/
inductive Search where
  | found (q : Nat)
  | nul (z : Nat)
  | outside

/-- `strchr` over the bytes from an offset on. -/
def strchr (c : UInt8) : List UInt8 → Nat → Search
  | [], _ => .outside
  | x :: bytes, p => if x = 0 then .nul p else if x = c then .found p else strchr c bytes (p + 1)

/-- The buffer, the place of the next line, what has been written, and whether all bytes looked at had been read. -/
structure Scan where
  buf : List UInt8
  p : Nat
  out : List UInt8
  inside : Bool

/-- The inner loop of `grep`, with `m` bytes in the buffer. -/
def eachLine (re : List UInt8) (m : Nat) : Nat → Scan → Except Stop Scan
  | 0, _ => .error .fuel
  | k + 1, st =>
    match strchr newline (st.buf.drop st.p) st.p with
    | .outside => .error .outside
    | .nul z => .ok { st with inside := st.inside && decide (z < m) }
    | .found q =>
      let buf := st.buf.set q 0
      if matchLine re (textAt buf st.p) then
        let buf := buf.set q newline
        eachLine re m k ⟨buf, q + 1, st.out ++ (buf.drop st.p).take (q + 1 - st.p), st.inside && decide (q < m)⟩
      else eachLine re m k ⟨buf, q + 1, st.out, st.inside && decide (q < m)⟩

/-- `memmove(buf, p, n)`; nothing is copied for a negative `n`. -/
def memmove (buf : List UInt8) (p : Nat) (n : Int) : List UInt8 := (buf.drop p).take n.toNat ++ buf.drop n.toNat

/-- The buffer, the number of bytes kept in it, what has been written, and whether all bytes looked at had been read. -/
structure State where
  buf : List UInt8
  m : Int
  out : List UInt8
  inside : Bool

/-- The body of the loop, for what `read(fd, buf+m, sizeof(buf)-m)` returns. -/
def fill (re chunk : List UInt8) (st : State) : Except Stop State :=
  if st.m < 0 then .error .outside
  else if bufSize < st.m.toNat + chunk.length then .error .tooMuch
  else do
    let m := st.m.toNat + chunk.length
    let s ← eachLine re m (bufSize + 1) ⟨st.buf.take st.m.toNat ++ chunk ++ st.buf.drop m, 0, st.out, st.inside⟩
    let m : Int := if s.p = 0 then 0 else m
    if m > 0 then .ok ⟨memmove s.buf s.p (m - s.p), m - s.p, s.out, s.inside⟩ else .ok ⟨s.buf, m, s.out, s.inside⟩

def grep (re : List UInt8) : List (List UInt8) → State → Except Stop State
  | [], st => .ok st
  | chunk :: chunks, st => do
    let st ← fill re chunk st
    grep re chunks st

/-- The buffer of the program as it is loaded. -/
def start : State := ⟨List.replicate bufSize 0, 0, [], true⟩

/-! What grep is for. -/

/-- The lines that end with a newline. -/
def linesOf (input : List UInt8) : List (List UInt8) := (input.splitOn newline).dropLast

/-- Those of the lines that match. -/
def written (re : List UInt8) (ls : List (List UInt8)) : List UInt8 := unlines newline (ls.filter (matchLine re))

/-- grep returns, and has written the lines that match. -/
def Exact (re : List UInt8) (chunks : List (List UInt8)) : Prop :=
  ∃ st, grep re chunks start = .ok st ∧ st.out = written re (linesOf chunks.flatten)

/-- grep returns, and has looked only at bytes that had been read. -/
def Inside (re : List UInt8) (chunks : List (List UInt8)) : Prop :=
  ∃ st, grep re chunks start = .ok st ∧ st.inside = true

/-- What is behind the last newline. -/
def unfinished (input : List UInt8) : List UInt8 := (input.splitOn newline).getLastD []

/-- When the chunks do no harm, with some bytes of a line kept and `old` bytes of complete lines in the buffer before:
the buffer is not filled to its end, the old lines are written over, and a chunk without a newline is not followed by
one. -/
def Steady : List UInt8 → Nat → List (List UInt8) → Prop
  | _, _, [] => True
  | kept, old, c :: chunks => kept.length + c.length < bufSize ∧ old ≤ kept.length + c.length ∧
      if newline ∈ c then Steady (unfinished c) (kept.length + c.length - (unfinished c).length) chunks
      else newline ∉ chunks.flatten

/-! The search for lines. -/

variable {re line u s rest : List UInt8} {ls : List (List UInt8)} {m p fuel : Nat}

theorem strchr_skip (hnl : newline ∉ line) (hnul : 0 ∉ line) (rest : List UInt8) (p : Nat) :
    strchr newline (line ++ rest) p = strchr newline rest (p + line.length) := by
  induction line generalizing p with
  | nil => rfl
  | cons x line ih =>
    rw [List.mem_cons, not_or] at hnl hnul
    rw [List.cons_append, strchr, if_neg (Ne.symm hnul.1), if_neg (Ne.symm hnl.1), ih hnl.2 hnul.2, List.length_cons]
    congr 1
    omega

theorem set_middle {x y : UInt8} (head line rest : List UInt8) :
    (head ++ (line ++ x :: rest)).set (head.length + line.length) y = head ++ (line ++ y :: rest) := by
  rw [List.set_append_right _ _ (Nat.le_add_right _ _), Nat.add_sub_cancel_left, List.set_append_right _ _ le_rfl,
    Nat.sub_self, List.set_cons_zero]

theorem textAt_middle (hnul : 0 ∉ line) (head rest : List UInt8) :
    textAt (head ++ (line ++ 0 :: rest)) head.length = line := by
  rw [textAt, List.drop_left, List.takeWhile_append_of_pos fun x hx => decide_eq_true (ne_of_mem_of_not_mem hx hnul),
    List.takeWhile_cons_of_neg (by simp), List.append_nil]

/-- What is left of a newline. -/
def mark (re line : List UInt8) : UInt8 := if matchLine re line then newline else 0

/-- One line: it is written if it matches; if it does not, a NUL is left in place of its newline. -/
theorem eachLine_line (hnl : newline ∉ line) (hnul : 0 ∉ line) (head rest out : List UInt8) (inside : Bool) :
    eachLine re m (fuel + 1) ⟨head ++ (line ++ newline :: rest), head.length, out, inside⟩ =
      eachLine re m fuel ⟨(head ++ (line ++ [mark re line])) ++ rest, (head ++ (line ++ [mark re line])).length,
        out ++ written re [line], inside && decide (head.length + line.length < m)⟩ := by
  have hlen : head.length + line.length + 1 = (head ++ (line ++ [mark re line])).length := by
    simp only [List.length_append, List.length_singleton]
    omega
  have hwhole : ∀ x, head ++ (line ++ x :: rest) = (head ++ (line ++ [x])) ++ rest := fun x => by simp
  rw [eachLine, List.drop_left, strchr_skip hnl hnul, strchr, if_neg (by decide), if_pos rfl]
  dsimp only
  rw [set_middle, textAt_middle hnul]
  by_cases hmatch : matchLine re line = true
  · have htake : ((head ++ (line ++ newline :: rest)).drop head.length).take
        (head.length + line.length + 1 - head.length) = line ++ [newline] := by grind
    have hmark : mark re line = newline := if_pos hmatch
    have hout : written re [line] = line ++ [newline] := by simp [written, unlines, hmatch]
    rw [if_pos hmatch, set_middle, htake, hlen, hout, hwhole, hmark]
  · have hmark : mark re line = 0 := if_neg hmatch
    have hout : written re [line] = [] := by simp [written, unlines, hmatch]
    rw [if_neg hmatch, hlen, hout, hwhole, hmark, List.append_nil]

/-- The lines as the loop leaves them. -/
def marked (re : List UInt8) (ls : List (List UInt8)) : List UInt8 := ls.flatMap fun line => line ++ [mark re line]

theorem written_append (re : List UInt8) (ls ls' : List (List UInt8)) :
    written re (ls ++ ls') = written re ls ++ written re ls' := by
  rw [written, List.filter_append, unlines_append]
  rfl

theorem written_cons (re line : List UInt8) (ls : List (List UInt8)) :
    written re (line :: ls) = written re [line] ++ written re ls := written_append re [line] ls

theorem marked_cons (re line : List UInt8) (ls : List (List UInt8)) :
    marked re (line :: ls) = line ++ [mark re line] ++ marked re ls := List.flatMap_cons

theorem length_marked (re : List UInt8) (ls : List (List UInt8)) :
    (marked re ls).length = (unlines newline ls).length := by
  induction ls with
  | nil => rfl
  | cons line ls ih =>
    rw [marked_cons, List.length_append, ih, unlines_cons]
    simp only [List.length_append, List.length_cons, List.length_nil]
    omega

/-- The loop over lines that have ended. -/
theorem eachLine_lines (re : List UInt8) (m k : Nat) (hls : ∀ line ∈ ls, newline ∉ line ∧ 0 ∉ line)
    (head rest out : List UInt8) (inside : Bool) :
    ∃ inside', eachLine re m (k + ls.length) ⟨head ++ (unlines newline ls ++ rest), head.length, out, inside⟩ =
      eachLine re m k ⟨head ++ marked re ls ++ rest, (head ++ marked re ls).length, out ++ written re ls, inside'⟩ := by
  induction ls generalizing head out inside with
  | nil => exact ⟨inside, by simp [unlines, marked, written]⟩
  | cons line ls ih =>
    rw [List.forall_mem_cons] at hls
    obtain ⟨inside', hrun⟩ := ih hls.2 (head ++ (line ++ [mark re line])) (out ++ written re [line])
      (inside && decide (head.length + line.length < m))
    refine ⟨inside', ?_⟩
    rw [unlines_cons, List.append_assoc, List.cons_append, List.length_cons, ← Nat.add_assoc,
      eachLine_line hls.1.1 hls.1.2, hrun, written_cons re line ls, marked_cons]
    simp only [List.append_assoc]

/-- All lines up to a NUL. -/
theorem eachLine_nul (re : List UInt8) (m : Nat) (hls : ∀ line ∈ ls, newline ∉ line ∧ 0 ∉ line) (hu : newline ∉ u) (hu0 : 0 ∉ u)
    (hfuel : ls.length < fuel) (head rest out : List UInt8) (inside : Bool) :
    ∃ inside', eachLine re m fuel ⟨head ++ (unlines newline ls ++ (u ++ 0 :: rest)), head.length, out, inside⟩ =
      .ok ⟨head ++ (marked re ls ++ (u ++ 0 :: rest)), head.length + (unlines newline ls).length,
        out ++ written re ls, inside'⟩ := by
  obtain ⟨k, rfl⟩ : ∃ k, fuel = k + 1 + ls.length := ⟨fuel - ls.length - 1, by omega⟩
  obtain ⟨inside', hrun⟩ := eachLine_lines re m (k + 1) hls head (u ++ 0 :: rest) out inside
  rw [hrun, eachLine, List.drop_left, strchr_skip hu hu0, strchr, if_pos rfl, List.length_append, length_marked,
    List.append_assoc]
  exact ⟨_, rfl⟩

/-- No NUL up to the end of the buffer. -/
theorem eachLine_outside (re : List UInt8) (m : Nat) (hls : ∀ line ∈ ls, newline ∉ line ∧ 0 ∉ line) (hu : newline ∉ u) (hu0 : 0 ∉ u)
    (hfuel : ls.length < fuel) (head out : List UInt8) (inside : Bool) :
    eachLine re m fuel ⟨head ++ (unlines newline ls ++ u), head.length, out, inside⟩ = .error .outside := by
  obtain ⟨k, rfl⟩ : ∃ k, fuel = k + 1 + ls.length := ⟨fuel - ls.length - 1, by omega⟩
  obtain ⟨inside', hrun⟩ := eachLine_lines re m (k + 1) hls head u out inside
  have hend := strchr_skip hu hu0 [] (head ++ marked re ls).length
  rw [List.append_nil] at hend
  rw [hrun, eachLine, List.drop_left, hend]
  rfl

/-! One read. -/

/-- The buffer cut at the first NUL, and what is before it cut into lines. -/
structure Lines (buf : List UInt8) (ls : List (List UInt8)) (u rest : List UInt8) : Prop where
  eq : buf = unlines newline ls ++ (u ++ 0 :: rest)
  lines : ∀ line ∈ ls, newline ∉ line ∧ 0 ∉ line
  unended : newline ∉ u
  nonzero : 0 ∉ u

theorem lines_of_cut (hcut : Cut newline s ls u) (hs : 0 ∉ s) :
    (∀ line ∈ ls, newline ∉ line ∧ 0 ∉ line) ∧ newline ∉ u ∧ 0 ∉ u := by
  rw [hcut.eq, List.mem_append, not_or, unlines] at hs
  refine ⟨fun line hline => ⟨hcut.lines line hline, fun h0 => hs.1 ?_⟩, hcut.rest, hs.2⟩
  exact List.mem_flatMap.mpr ⟨line, hline, List.mem_append_left _ h0⟩

theorem lines_intro {buf : List UInt8} (hcut : Cut newline s ls u) (hs : 0 ∉ s) (hbuf : buf = s ++ 0 :: rest) :
    Lines buf ls u rest := by
  obtain ⟨hlines, hnl, hnul⟩ := lines_of_cut hcut hs
  refine ⟨?_, hlines, hnl, hnul⟩
  rw [hbuf, hcut.eq, List.append_assoc]

theorem length_le_unlines (ls : List (List UInt8)) : ls.length ≤ (unlines newline ls).length := by
  induction ls with
  | nil => exact le_rfl
  | cons line ls ih =>
    rw [unlines_cons, List.length_append, List.length_cons, List.length_cons]
    omega

variable {c : List UInt8} {st : State} {k : Nat}

/-- The buffer after a read. -/
def loaded (st : State) (k : Nat) (c : List UInt8) : List UInt8 := st.buf.take k ++ c ++ st.buf.drop (k + c.length)

theorem length_loaded (hlen : st.buf.length = bufSize) (hfit : k + c.length ≤ bufSize) :
    (loaded st k c).length = bufSize := by
  rw [loaded, List.length_append, List.length_append, List.length_take, List.length_drop, hlen]
  omega

theorem fill_run (hm : st.m = k) (hfit : k + c.length ≤ bufSize) :
    fill re c st = (do
      let s ← eachLine re (k + c.length) (bufSize + 1) ⟨loaded st k c, 0, st.out, st.inside⟩
      let m : Int := if s.p = 0 then 0 else (k + c.length : Nat)
      if m > 0 then .ok ⟨memmove s.buf s.p (m - s.p), m - s.p, s.out, s.inside⟩
      else .ok ⟨s.buf, m, s.out, s.inside⟩) := by
  rw [fill, if_neg (by omega), hm, Int.toNat_natCast, if_neg (by omega)]
  rfl

theorem Lines.run (re : List UInt8) (hlen : st.buf.length = bufSize) (hfit : k + c.length ≤ bufSize)
    (hlines : Lines (loaded st k c) ls u rest) :
    ∃ inside, eachLine re (k + c.length) (bufSize + 1) ⟨loaded st k c, 0, st.out, st.inside⟩ =
      .ok ⟨marked re ls ++ (u ++ 0 :: rest), (unlines newline ls).length, st.out ++ written re ls, inside⟩ := by
  have hlength := length_loaded hlen hfit
  have hcount := length_le_unlines ls
  rw [hlines.eq, List.length_append] at hlength
  obtain ⟨inside, hrun⟩ := eachLine_nul re (k + c.length) hlines.lines hlines.unended hlines.nonzero
    (show ls.length < bufSize + 1 by omega) [] rest st.out st.inside
  refine ⟨inside, ?_⟩
  rw [List.nil_append, List.nil_append, List.length_nil, Nat.zero_add, ← hlines.eq] at hrun
  exact hrun

theorem Lines.fill_none (re : List UInt8) (hm : st.m = k) (hlen : st.buf.length = bufSize)
    (hfit : k + c.length ≤ bufSize) (hlines : Lines (loaded st k c) [] u rest) :
    ∃ inside, fill re c st = .ok ⟨loaded st k c, 0, st.out, inside⟩ := by
  obtain ⟨inside, hrun⟩ := hlines.run re hlen hfit
  refine ⟨inside, ?_⟩
  rw [fill_run hm hfit, hrun, hlines.eq, show written re [] = [] from rfl, List.append_nil]
  rfl

/-- The lines that end in the buffer are written if they match, and as many bytes are kept as were read behind them. -/
theorem Lines.fill_some (re : List UInt8) (hm : st.m = k) (hlen : st.buf.length = bufSize)
    (hfit : k + c.length ≤ bufSize) (hc : c ≠ []) (hls : ls ≠ []) (hlines : Lines (loaded st k c) ls u rest) :
    ∃ inside, fill re c st = .ok ⟨memmove (marked re ls ++ (u ++ 0 :: rest)) (unlines newline ls).length
      ((k + c.length : Nat) - (unlines newline ls).length : Int), (k + c.length : Nat) - (unlines newline ls).length,
      st.out ++ written re ls, inside⟩ := by
  obtain ⟨inside, hrun⟩ := hlines.run re hlen hfit
  refine ⟨inside, ?_⟩
  have hpos := List.length_pos_of_ne_nil hc
  have hcount := (List.length_pos_of_ne_nil hls).trans_le (length_le_unlines ls)
  rw [fill_run hm hfit, LibExcept.bind_ok hrun]
  dsimp only
  rw [if_neg hcount.ne', if_pos (by omega)]

/-- No NUL in the buffer: the search runs out of it. -/
theorem fill_outside (re : List UInt8) (hm : st.m = k) (hlen : st.buf.length = bufSize)
    (hfit : k + c.length ≤ bufSize) (hnul : 0 ∉ loaded st k c) : fill re c st = .error .outside := by
  obtain ⟨ls, u, hcut⟩ := exists_cut newline (loaded st k c)
  obtain ⟨hlines, hnl, hnul'⟩ := lines_of_cut hcut hnul
  have hlength := length_loaded hlen hfit
  have hcount := length_le_unlines ls
  rw [hcut.eq, List.length_append] at hlength
  have hrun := eachLine_outside re (k + c.length) hlines hnl hnul' (show ls.length < bufSize + 1 by omega) []
    st.out st.inside
  rw [List.nil_append, List.length_nil, ← hcut.eq] at hrun
  rw [fill_run hm hfit, hrun]
  rfl

/-! Chunks that do no harm. -/

/-- The last byte of the buffer is still NUL. -/
structure Ready (st : State) (kept : List UInt8) (old : Nat) : Prop where
  count : st.m = kept.length
  length : st.buf.length = bufSize
  starts : kept <+: st.buf
  unended : newline ∉ kept
  nonzero : 0 ∉ kept
  clean : newline ∉ st.buf.drop old
  last : st.buf.getLast? = some 0

theorem Ready.loaded_eq {kept : List UInt8} {old : Nat} (hr : Ready st kept old) (c : List UInt8) :
    loaded st kept.length c = kept ++ c ++ st.buf.drop (kept.length + c.length) := by
  rw [loaded, ← List.prefix_iff_eq_take.mp hr.starts]

/-- The part of the buffer behind what has been read: no newline before a NUL. -/
theorem Ready.behind {kept : List UInt8} {old n : Nat} (hr : Ready st kept old) (hold : old ≤ n) (hn : n < bufSize) :
    ∃ s rest, st.buf.drop n = s ++ 0 :: rest ∧ newline ∉ s ∧ 0 ∉ s := by
  have hmem : 0 ∈ st.buf.drop n := by
    obtain ⟨b, hb⟩ := List.getLast?_eq_some_iff.mp hr.last
    have hlen := hr.length
    rw [hb, List.length_append, List.length_singleton] at hlen
    rw [hb, List.drop_append_of_le_length (by omega)]
    simp
  obtain ⟨s, rest, hs, h0⟩ := List.eq_append_cons_of_mem hmem
  refine ⟨s, rest, hs, fun hmem => hr.clean ?_, h0⟩
  have hsub : newline ∈ st.buf.drop n := by
    rw [hs]
    exact List.mem_append_left _ hmem
  exact (List.drop_sublist_drop_left st.buf hold).subset hsub

theorem Ready.lines {kept : List UInt8} {old : Nat} (hr : Ready st kept old) (hc : 0 ∉ c)
    (hfit : kept.length + c.length < bufSize) (hold : old ≤ kept.length + c.length)
    (hcut : Cut newline (kept ++ c) ls u) :
    ∃ s rest, Lines (loaded st kept.length c) ls (u ++ s) rest ∧ newline ∉ u ++ s ++ 0 :: rest ∧
      st.buf.drop (kept.length + c.length) = s ++ 0 :: rest := by
  obtain ⟨s, rest, hs, hnl, hnul⟩ := hr.behind hold hfit
  refine ⟨s, rest, lines_intro (hcut.append hnl) ?_ ?_, ?_, hs⟩
  · simp only [List.mem_append, not_or]
    exact ⟨⟨hr.nonzero, hc⟩, hnul⟩
  · rw [hr.loaded_eq, hs, ← List.append_assoc]
  · have hbehind : newline ∉ s ++ 0 :: rest := by
      rw [← hs]
      exact fun hmem => hr.clean ((List.drop_sublist_drop_left st.buf hold).subset hmem)
    rw [List.append_assoc, List.mem_append, not_or]
    exact ⟨hcut.rest, hbehind⟩

theorem memmove_kept (head u rest : List UInt8) :
    memmove (head ++ (u ++ rest)) head.length u.length = u ++ (head ++ (u ++ rest)).drop u.length := by
  rw [memmove, Int.toNat_natCast, List.drop_left, List.take_left]

theorem mem_drop_overwrite {x : UInt8} {a w : List UInt8} {n : Nat} (h : x ∈ (a ++ w.drop a.length).drop n) :
    x ∈ a ∨ x ∈ w.drop n := by
  rw [List.drop_append, List.mem_append, List.drop_drop] at h
  rcases h with h | h
  · exact .inl (List.mem_of_mem_drop h)
  · exact .inr ((List.drop_sublist_drop_left w (by omega)).subset h)

theorem getLast?_append_right {a w : List UInt8} {x : UInt8} (h : w.getLast? = some x) :
    (a ++ w).getLast? = some x := by
  rw [List.getLast?_append, h]
  rfl

theorem getLast?_drop_lt {w : List UInt8} {n : Nat} (h : n < w.length) : (w.drop n).getLast? = w.getLast? := by
  rw [List.getLast?_drop, if_neg (by omega)]

/-- A chunk that ends a line. -/
theorem Ready.fill_line {kept : List UInt8} {old : Nat} (re : List UInt8) (hr : Ready st kept old) (hc0 : 0 ∉ c)
    (hc : c ≠ []) (hfit : kept.length + c.length < bufSize) (hold : old ≤ kept.length + c.length)
    (hcut : Cut newline (kept ++ c) ls u) (hls : ls ≠ []) :
    ∃ s inside, fill re c st = .ok ⟨u ++ (marked re ls ++ (u ++ s)).drop u.length, u.length, st.out ++ written re ls,
      inside⟩ ∧ Ready ⟨u ++ (marked re ls ++ (u ++ s)).drop u.length, u.length, st.out ++ written re ls, inside⟩ u
        (unlines newline ls).length := by
  obtain ⟨s, rest, hlines, hclean, hbehind⟩ := hr.lines hc0 hfit hold hcut
  obtain ⟨inside, hrun⟩ := hlines.fill_some re hr.count hr.length hfit.le hc hls
  have hlen : kept.length + c.length = (unlines newline ls).length + u.length := by
    rw [← List.length_append, ← List.length_append, hcut.eq]
  have hcount : ((kept.length + c.length : Nat) : Int) - (unlines newline ls).length = u.length := by omega
  have hwhole := length_loaded hr.length hfit.le
  rw [hlines.eq, List.length_append, ← length_marked re, ← List.length_append, List.append_assoc] at hwhole
  rw [hcount, ← length_marked re, List.append_assoc, memmove_kept] at hrun
  rw [List.append_assoc] at hclean
  have hsize := hr.length
  have hlast : (s ++ 0 :: rest).getLast? = some 0 := by
    rw [← hbehind, getLast?_drop_lt (by omega)]
    exact hr.last
  obtain ⟨-, hu, hu0⟩ := lines_of_cut hcut (by
    rw [List.mem_append, not_or]
    exact ⟨hr.nonzero, hc0⟩)
  refine ⟨s ++ 0 :: rest, inside, hrun, rfl, ?_, List.prefix_append _ _, hu, hu0, fun hmem => ?_, ?_⟩
  · rw [List.length_append, List.length_drop, hwhole]
    omega
  · rcases mem_drop_overwrite hmem with hmem | hmem
    · exact hu hmem
    · rw [← length_marked re, List.drop_left] at hmem
      exact hclean hmem
  · grind

/-- A chunk that does not end a line: what is in the buffer is given up. -/
theorem Ready.fill_quiet {kept : List UInt8} {old : Nat} (re : List UInt8) (hr : Ready st kept old) (hc0 : 0 ∉ c)
    (hc : newline ∉ c) (hfit : kept.length + c.length < bufSize) (hold : old ≤ kept.length + c.length) :
    ∃ st', fill re c st = .ok st' ∧ Ready st' [] 0 ∧ st'.out = st.out := by
  have hcut : Cut newline (kept ++ c) [] (kept ++ c) := ⟨rfl, by simp, by simp [hr.unended, hc]⟩
  obtain ⟨s, rest, hlines, hclean, hbehind⟩ := hr.lines hc0 hfit hold hcut
  obtain ⟨inside, hrun⟩ := hlines.fill_none re hr.count hr.length hfit.le
  refine ⟨_, hrun, ⟨rfl, length_loaded hr.length hfit.le, List.nil_prefix, by simp, by simp, ?_, ?_⟩, rfl⟩
  · show newline ∉ loaded st kept.length c
    rw [hlines.eq]
    exact hclean
  · have hsize := hr.length
    show (loaded st kept.length c).getLast? = some 0
    rw [loaded]
    refine getLast?_append_right ?_
    rw [getLast?_drop_lt (by omega)]
    exact hr.last

variable {chunks : List (List UInt8)} {kept : List UInt8} {old : Nat}

theorem linesOf_cut (hcut : Cut newline s ls u) : linesOf s = ls := by
  rw [linesOf, hcut.splitOn_eq, List.dropLast_concat]

theorem unfinished_cut (hcut : Cut newline s ls u) : unfinished s = u := by
  rw [unfinished, hcut.splitOn_eq]
  simp

theorem unfinished_append (kept : List UInt8) (hc : newline ∈ c) : unfinished (kept ++ c) = unfinished c := by
  obtain ⟨ls, u, hcut⟩ := exists_cut newline kept
  obtain ⟨ls', u', hcut'⟩ := exists_cut newline c
  cases ls' with
  | nil => exact absurd rfl (hcut'.mem_iff.mp hc)
  | cons x ls' => rw [unfinished_cut (hcut.trans (hcut'.prepend hcut.rest)), unfinished_cut hcut']

theorem steady_cut (hcut : Cut newline (kept ++ c) ls u) (hc : newline ∈ c) :
    Steady (unfinished c) (kept.length + c.length - (unfinished c).length) chunks =
      Steady u (unlines newline ls).length chunks := by
  have hu : unfinished c = u := (unfinished_append kept hc).symm.trans (unfinished_cut hcut)
  have hlen : kept.length + c.length = (unlines newline ls).length + u.length := by
    rw [← List.length_append, ← List.length_append, hcut.eq]
  rw [hu, hlen, Nat.add_sub_cancel]

theorem grep_ok {st' : State} (hfill : fill re c st = .ok st') (chunks : List (List UInt8)) :
    grep re (c :: chunks) st = grep re chunks st' := LibExcept.bind_ok hfill

theorem Ready.run_quiet (re : List UInt8) (hr : Ready st [] 0) (hnl : newline ∉ chunks.flatten)
    (hnul : 0 ∉ chunks.flatten) (hshort : chunks.flatten.length < bufSize) :
    ∃ st', grep re chunks st = .ok st' ∧ st'.out = st.out := by
  induction chunks generalizing st with
  | nil => exact ⟨st, rfl, rfl⟩
  | cons c chunks ih =>
    rw [List.flatten_cons, List.mem_append, not_or] at hnl hnul
    rw [List.flatten_cons, List.length_append] at hshort
    obtain ⟨st', hfill, hr', hout⟩ := hr.fill_quiet re hnul.1 hnl.1
      (by rw [List.length_nil]; omega) (Nat.zero_le _)
    obtain ⟨st'', hrun, hout'⟩ := ih hr' hnl.2 hnul.2 (by omega)
    exact ⟨st'', (grep_ok hfill chunks).trans hrun, hout'.trans hout⟩

/-- Chunks that do no harm: every line that ends is written if it matches. -/
theorem Ready.run_steady (re : List UInt8) (hr : Ready st kept old) (hsteady : Steady kept old chunks)
    (hne : ∀ c ∈ chunks, c ≠ []) (hnul : 0 ∉ chunks.flatten)
    (hshort : (unfinished (kept ++ chunks.flatten)).length < bufSize) :
    ∃ st', grep re chunks st = .ok st' ∧ st'.out = st.out ++ written re (linesOf (kept ++ chunks.flatten)) := by
  induction chunks generalizing st kept old with
  | nil =>
    have hcut : Cut newline (kept ++ [].flatten) [] kept := ⟨by simp [unlines], by simp, hr.unended⟩
    refine ⟨st, rfl, ?_⟩
    rw [linesOf_cut hcut, show written re [] = [] from rfl, List.append_nil]
  | cons c chunks ih =>
    obtain ⟨hfit, hold, hrest⟩ := hsteady
    rw [List.forall_mem_cons] at hne
    rw [List.flatten_cons, List.mem_append, not_or] at hnul
    rw [List.flatten_cons, ← List.append_assoc] at hshort ⊢
    obtain ⟨ls, u, hcut⟩ := exists_cut newline (kept ++ c)
    by_cases hc : newline ∈ c
    · have hls : ls ≠ [] := hcut.mem_iff.mp (List.mem_append_right _ hc)
      obtain ⟨s, inside, hfill, hr'⟩ := hr.fill_line re hnul.1 hne.1 hfit hold hcut hls
      obtain ⟨ls', u', hcut'⟩ := exists_cut newline (u ++ chunks.flatten)
      rw [if_pos hc, steady_cut hcut hc] at hrest
      rw [unfinished_cut (hcut.trans hcut'), ← unfinished_cut hcut'] at hshort
      obtain ⟨st', hrun, hout⟩ := ih hr' hrest hne.2 hnul.2 hshort
      refine ⟨st', (grep_ok hfill chunks).trans hrun, ?_⟩
      rw [hout, linesOf_cut (hcut.trans hcut'), linesOf_cut hcut', List.append_assoc, written_append]
    · rw [if_neg hc] at hrest
      have hquiet : newline ∉ kept ++ c ++ chunks.flatten := by
        simp only [List.mem_append, not_or]
        exact ⟨⟨hr.unended, hc⟩, hrest⟩
      have hwhole : Cut newline (kept ++ c ++ chunks.flatten) [] (kept ++ c ++ chunks.flatten) :=
        ⟨rfl, by simp, hquiet⟩
      rw [unfinished_cut hwhole, List.length_append] at hshort
      obtain ⟨st', hfill, hr', hout⟩ := hr.fill_quiet re hnul.1 hc hfit hold
      obtain ⟨st'', hrun, hout'⟩ := hr'.run_quiet re hrest hnul.2 (by omega)
      refine ⟨st'', (grep_ok hfill chunks).trans hrun, ?_⟩
      rw [hout', hout, linesOf_cut hwhole, show written re [] = [] from rfl, List.append_nil]

/-! Chunks that do harm: already the empty pattern, which every line matches, shows it. -/

theorem matchLine_nil (line : List UInt8) : matchLine [] line = true := by
  cases line with
  | nil => rfl
  | cons t line => rfl

theorem written_nil (ls : List (List UInt8)) : written [] ls = unlines newline ls := by
  rw [written, List.filter_eq_self.mpr fun line _ => matchLine_nil line]

theorem marked_nil (ls : List (List UInt8)) : marked [] ls = unlines newline ls := by
  have hmark : ∀ line, mark [] line = newline := fun line => if_pos (matchLine_nil line)
  rw [marked, unlines]
  simp only [hmark]

theorem eachLine_out {st st' : Scan} (hrun : eachLine re m fuel st = .ok st') : st.out <+: st'.out := by
  induction fuel generalizing st with
  | zero => cases hrun
  | succ k ih =>
    rw [eachLine] at hrun
    cases hsearch : strchr newline (st.buf.drop st.p) st.p with
    | outside =>
      rw [hsearch] at hrun
      cases hrun
    | nul z =>
      rw [hsearch] at hrun
      cases hrun
      exact List.prefix_rfl
    | found q =>
      rw [hsearch] at hrun
      dsimp only at hrun
      split_ifs at hrun
      · exact (List.prefix_append _ _).trans (ih hrun)
      · have hrest := ih hrun
        exact hrest

/-- A read that does not stop the program ends with the inner loop. -/
theorem fill_ok {st' : State} (hrun : fill re c st = .ok st') :
    ∃ s, eachLine re (st.m.toNat + c.length) (bufSize + 1) ⟨loaded st st.m.toNat c, 0, st.out, st.inside⟩ = .ok s ∧
      st'.out = s.out ∧ st'.inside = s.inside := by
  rw [fill] at hrun
  split_ifs at hrun
  cases hlines : eachLine re (st.m.toNat + c.length) (bufSize + 1)
      ⟨loaded st st.m.toNat c, 0, st.out, st.inside⟩ with
  | error e =>
    rw [loaded] at hlines
    dsimp only at hrun
    rw [hlines] at hrun
    cases hrun
  | ok s =>
    rw [loaded] at hlines
    dsimp only at hrun
    rw [LibExcept.bind_ok hlines] at hrun
    refine ⟨s, rfl, ?_⟩
    generalize (if s.p = 0 then (0 : Int) else (st.m.toNat + c.length : Nat)) = m at hrun
    by_cases hm : m > 0
    · rw [if_pos hm] at hrun
      cases hrun
      exact ⟨rfl, rfl⟩
    · rw [if_neg hm] at hrun
      cases hrun
      exact ⟨rfl, rfl⟩

theorem fill_out {st' : State} (hrun : fill re c st = .ok st') : st.out <+: st'.out := by
  obtain ⟨s, hlines, hout, -⟩ := fill_ok hrun
  rw [hout]
  have hgrows := eachLine_out hlines
  exact hgrows

theorem grep_out {st' : State} (hrun : grep re chunks st = .ok st') : st.out <+: st'.out := by
  induction chunks generalizing st with
  | nil =>
    cases hrun
    exact List.prefix_rfl
  | cons c chunks ih =>
    cases hfill : fill re c st with
    | error e =>
      rw [grep, hfill] at hrun
      cases hrun
    | ok st₁ =>
      rw [grep_ok hfill] at hrun
      exact (fill_out hfill).trans (ih hrun)

theorem grep_error {e : Stop} (hfill : fill re c st = .error e) (chunks : List (List UInt8)) :
    grep re (c :: chunks) st = .error e := by
  rw [grep, hfill]
  rfl

theorem grep_negative (hm : st.m < 0) (c : List UInt8) (chunks : List (List UInt8)) :
    grep re (c :: chunks) st = .error .outside :=
  grep_error (if_pos hm) chunks

/-- What the buffer holds up to its first NUL. -/
theorem fill_cases (re : List UInt8) (hm : st.m = k) (hlen : st.buf.length = bufSize) (hfit : k + c.length ≤ bufSize) :
    fill re c st = .error .outside ∨ ∃ s rest ls u, loaded st k c = s ++ 0 :: rest ∧ 0 ∉ s ∧ Cut newline s ls u ∧
      Lines (loaded st k c) ls u rest := by
  by_cases hnul : 0 ∈ loaded st k c
  · obtain ⟨s, rest, hs, h0⟩ := List.eq_append_cons_of_mem hnul
    obtain ⟨ls, u, hcut⟩ := exists_cut newline s
    exact .inr ⟨s, rest, ls, u, hs, h0, hcut, lines_intro hcut h0 hs⟩
  · exact .inl (fill_outside re hm hlen hfit hnul)

theorem prefix_of_nonzero {a b : List UInt8} (h : a ++ b = s ++ 0 :: rest) (ha : 0 ∉ a) : a <+: s := by
  rcases List.append_eq_append_iff.mp h with ⟨t, ht, -⟩ | ⟨t, ht, hb⟩
  · exact ⟨t, ht.symm⟩
  · cases t with
    | nil =>
      rw [List.append_nil] at ht
      rw [ht]
    | cons x t =>
      obtain ⟨rfl, -⟩ := List.cons.inj hb
      exact absurd (ht ▸ (by simp)) ha

theorem length_lt_unlines {t : List UInt8} (hcut : Cut newline (c ++ t) ls u) (hls : ls ≠ []) (hc : newline ∉ c) :
    c.length < (unlines newline ls).length := by
  by_contra hle
  have hsub : unlines newline ls <+: c := List.prefix_of_prefix_length_le ⟨u, hcut.eq.symm⟩ ⟨t, rfl⟩ (by omega)
  exact hc (hsub.subset (List.mem_of_mem_getLast? (getLast?_unlines newline hls)))

/-- Bytes of a line that have been given up are missing when it is written. -/
theorem lost_run {lost : List UInt8} {st' : State} (hm : st.m = 0) (hlen : st.buf.length = bufSize) (hlost : lost ≠ [])
    (hnl : newline ∉ lost) (hin : newline ∈ chunks.flatten) (hne : ∀ c ∈ chunks, c ≠ []) (hnul : 0 ∉ chunks.flatten)
    (hrun : grep [] chunks st = .ok st') :
    st'.out ≠ st.out ++ written [] (linesOf (lost ++ chunks.flatten)) := by
  induction chunks generalizing st lost with
  | nil => exact absurd hin List.not_mem_nil
  | cons c chunks ih =>
    rw [List.forall_mem_cons] at hne
    rw [List.flatten_cons, List.mem_append, not_or] at hnul
    rw [List.flatten_cons, List.mem_append] at hin
    rw [List.flatten_cons]
    by_cases hfit : 0 + c.length ≤ bufSize
    · have hzero : st.m = (0 : Nat) := hm
      rcases fill_cases [] hzero hlen hfit with herror | ⟨s, rest, ls, u, hs, h0, hcut, hlines⟩
      · rw [grep_error herror] at hrun
        cases hrun
      · obtain ⟨t, rfl⟩ : c <+: s := prefix_of_nonzero (b := st.buf.drop (0 + c.length)) hs hnul.1
        by_cases hc : newline ∈ c
        · obtain ⟨x, y, rfl, hx⟩ := List.eq_append_cons_of_mem hc
          obtain ⟨ls', u', hcut'⟩ := exists_cut newline (y ++ t)
          have hfirst : Cut newline ((x ++ newline :: y) ++ t) (x :: ls') u' := by
            rw [List.append_assoc]
            exact hcut'.cons hx
          obtain ⟨rfl, rfl⟩ := hcut.unique hfirst
          obtain ⟨inside, hfill⟩ := hlines.fill_some [] hzero hlen hfit hne.1 (List.cons_ne_nil _ _)
          rw [grep_ok hfill] at hrun
          obtain ⟨more, hmore⟩ := grep_out hrun
          obtain ⟨ls₂, u₂, hcut₂⟩ := exists_cut newline (y ++ chunks.flatten)
          have hwhole : Cut newline (lost ++ ((x ++ newline :: y) ++ chunks.flatten)) ((lost ++ x) :: ls₂) u₂ := by
            rw [List.append_assoc x]
            exact (hcut₂.cons hx).prepend hnl
          intro heq
          rw [← hmore, linesOf_cut hwhole, List.append_assoc, List.append_cancel_left_eq, written_nil, written_nil,
            unlines_cons, unlines_cons, List.append_assoc] at heq
          have hlong := congrArg List.length (append_sep_inj hx (by simp [hnl, hx]) heq)
          have hpos := List.length_pos_of_ne_nil hlost
          rw [List.length_append] at hlong
          omega
        · by_cases hls : ls = []
          · subst hls
            obtain ⟨inside, hfill⟩ := hlines.fill_none [] hzero hlen hfit
            rw [grep_ok hfill] at hrun
            have hmore : newline ∉ lost ++ c := by simp [hnl, hc]
            rw [← List.append_assoc]
            show st'.out ≠ State.out ⟨loaded st 0 c, 0, st.out, inside⟩ ++ _
            exact ih rfl (length_loaded hlen hfit) (by simp [hlost]) hmore (hin.resolve_left hc) hne.2 hnul.2 hrun
          · obtain ⟨inside, hfill⟩ := hlines.fill_some [] hzero hlen hfit hne.1 hls
            have hlong := length_lt_unlines hcut hls hc
            cases chunks with
            | nil => exact absurd (hin.resolve_left hc) List.not_mem_nil
            | cons c' chunks =>
              rw [grep_ok hfill, grep_negative (by dsimp only; omega)] at hrun
              cases hrun
    · have herror : fill [] c st = .error .tooMuch := by
        rw [fill, if_neg (by omega), hm, if_pos (by simpa using hfit)]
      rw [grep_error herror] at hrun
      cases hrun

/-- With the empty pattern: no NUL is left in the old lines, and the newline of the last of them is still there. -/
structure Traced (st : State) (kept : List UInt8) (old : Nat) : Prop where
  ready : Ready st kept old
  full : 0 ∉ st.buf.take old
  mark : kept.length < old → st.buf[old - 1]? = some newline

theorem le_unlines {i : Nat} (hcut : Cut newline s ls u) (hi : s[i]? = some newline) :
    i < (unlines newline ls).length := by
  by_contra hge
  rw [hcut.eq, List.getElem?_append_right (by omega)] at hi
  exact hcut.rest (List.mem_of_getElem? hi)

/-- The old lines, as far as they have not been written over. -/
theorem Traced.prefix_old (ht : Traced st kept old) (hold : kept.length + c.length < old) (hc : 0 ∉ c)
    (hs : loaded st kept.length c = s ++ 0 :: rest) : s[old - 1]? = some newline := by
  have hmark := ht.mark (by omega)
  have hlt : old - 1 < st.buf.length := (List.getElem?_eq_some_iff.mp hmark).1
  have hsplit : (kept ++ c ++ (st.buf.drop (kept.length + c.length)).take (old - (kept.length + c.length))) ++
      (st.buf.drop (kept.length + c.length)).drop (old - (kept.length + c.length)) = s ++ 0 :: rest := by
    rw [List.append_assoc, List.take_append_drop, ← ht.ready.loaded_eq, hs]
  obtain ⟨t, ht'⟩ := prefix_of_nonzero hsplit (by
    simp only [List.mem_append, not_or]
    refine ⟨⟨ht.ready.nonzero, hc⟩, fun hmem => ht.full ?_⟩
    rw [List.take_drop] at hmem
    have hmem' := List.mem_of_mem_drop hmem
    rw [show kept.length + c.length + (old - (kept.length + c.length)) = old by omega] at hmem'
    exact hmem')
  rw [← ht', List.getElem?_append_left (by
    simp only [List.length_append, List.length_take, List.length_drop]
    omega), List.getElem?_append_right (by rw [List.length_append]; omega), List.length_append, List.getElem?_take,
    if_pos (by omega), List.getElem?_drop]
  rw [show kept.length + c.length + (old - 1 - (kept.length + c.length)) = old - 1 by omega]
  exact hmark

/-- Old lines that are not written over are taken for new ones. -/
theorem Traced.stale {st' : State} (ht : Traced st kept old) (hold : kept.length + c.length < old) (hc : 0 ∉ c)
    (hne : c ≠ []) (hfit : kept.length + c.length ≤ bufSize) (hrun : grep [] (c :: chunks) st = .ok st') :
    st'.out ≠ st.out ++ written [] (linesOf (kept ++ (c ++ chunks.flatten))) := by
  rcases fill_cases [] ht.ready.count ht.ready.length hfit with herror | ⟨s, rest, ls, u, hs, h0, hcut, hlines⟩
  · rw [grep_error herror] at hrun
    cases hrun
  · have hlong := le_unlines hcut (ht.prefix_old hold hc hs)
    have hls : ls ≠ [] := by
      rintro rfl
      simp only [unlines, List.flatMap_nil, List.length_nil] at hlong
      omega
    obtain ⟨inside, hfill⟩ := hlines.fill_some [] ht.ready.count ht.ready.length hfit hne hls
    rw [grep_ok hfill] at hrun
    cases chunks with
    | nil =>
      obtain ⟨ls', u', hcut'⟩ := exists_cut newline (kept ++ (c ++ [].flatten))
      have hlen := congrArg List.length hcut'.eq
      obtain rfl := Except.ok.inj hrun
      intro heq
      dsimp only at heq
      rw [linesOf_cut hcut', List.append_cancel_left_eq, written_nil, written_nil] at heq
      rw [← heq, List.flatten_nil, List.append_nil, List.length_append, List.length_append] at hlen
      omega
    | cons c' chunks =>
      rw [grep_negative (by dsimp only; omega)] at hrun
      cases hrun

theorem Traced.fill_line (ht : Traced st kept old) (hc0 : 0 ∉ c) (hc : c ≠ [])
    (hfit : kept.length + c.length < bufSize) (hold : old ≤ kept.length + c.length)
    (hcut : Cut newline (kept ++ c) ls u) (hls : ls ≠ []) :
    ∃ st', fill [] c st = .ok st' ∧ Traced st' u (unlines newline ls).length ∧
      st'.out = st.out ++ unlines newline ls := by
  obtain ⟨s, inside, hfill, hready⟩ := ht.ready.fill_line [] hc0 hc hfit hold hcut hls
  have hnul : 0 ∉ unlines newline ls ++ u := by
    rw [← hcut.eq, List.mem_append, not_or]
    exact ⟨ht.ready.nonzero, hc0⟩
  rw [List.mem_append, not_or] at hnul
  rw [marked_nil, written_nil] at hfill hready
  refine ⟨_, hfill, ⟨hready, fun hmem => ?_, fun hlt => ?_⟩, rfl⟩
  · grind
  · have hlast := getLast?_unlines newline hls
    rw [List.getLast?_eq_getElem?] at hlast
    rw [List.getElem?_append_right (by omega), List.getElem?_drop,
      show u.length + ((unlines newline ls).length - 1 - u.length) = (unlines newline ls).length - 1 by omega,
      List.getElem?_append_left (by omega)]
    exact hlast

/-- If the chunks do harm, what is written with the empty pattern is not the input. -/
theorem Traced.run_unsteady {st' : State} (ht : Traced st kept old) (hnot : ¬ Steady kept old chunks)
    (hne : ∀ c ∈ chunks, c ≠ []) (hnul : 0 ∉ chunks.flatten) (hrun : grep [] chunks st = .ok st') :
    st'.out ≠ st.out ++ written [] (linesOf (kept ++ chunks.flatten)) := by
  induction chunks generalizing st kept old with
  | nil => exact absurd trivial hnot
  | cons c chunks ih =>
    rw [List.forall_mem_cons] at hne
    rw [List.flatten_cons, List.mem_append, not_or] at hnul
    rw [List.flatten_cons]
    have hsize := ht.ready.length
    rcases Nat.lt_trichotomy (kept.length + c.length) bufSize with hfit | hfull | hmuch
    · rcases Nat.lt_or_ge (kept.length + c.length) old with hstale | hold
      · exact ht.stale hstale hnul.1 hne.1 hfit.le hrun
      · obtain ⟨ls, u, hcut⟩ := exists_cut newline (kept ++ c)
        by_cases hc : newline ∈ c
        · have hls : ls ≠ [] := hcut.mem_iff.mp (List.mem_append_right _ hc)
          obtain ⟨st₁, hfill, ht₁, hout⟩ := ht.fill_line hnul.1 hne.1 hfit hold hcut hls
          obtain ⟨ls', u', hcut'⟩ := exists_cut newline (u ++ chunks.flatten)
          have hrest : ¬ Steady u (unlines newline ls).length chunks := fun hrest => hnot ⟨hfit, hold, by
            rw [if_pos hc, steady_cut hcut hc]
            exact hrest⟩
          rw [grep_ok hfill] at hrun
          have hwrong := ih ht₁ hrest hne.2 hnul.2 hrun
          rw [hout, linesOf_cut hcut', List.append_assoc, ← written_nil ls, ← written_append] at hwrong
          rw [← List.append_assoc kept, linesOf_cut (hcut.trans hcut')]
          exact hwrong
        · have hlater : newline ∈ chunks.flatten := by
            by_contra hquiet
            exact hnot ⟨hfit, hold, by rw [if_neg hc]; exact hquiet⟩
          obtain ⟨st₁, hfill, hready, hout⟩ := ht.ready.fill_quiet [] hnul.1 hc hfit hold
          rw [grep_ok hfill] at hrun
          have hlost : kept ++ c ≠ [] := by simp [hne.1]
          have hnl : newline ∉ kept ++ c := by simp [ht.ready.unended, hc]
          have hwrong := lost_run hready.count hready.length hlost hnl hlater hne.2 hnul.2 hrun
          rw [hout, List.append_assoc] at hwrong
          exact hwrong
    · have hloaded : 0 ∉ loaded st kept.length c := by
        rw [ht.ready.loaded_eq, List.drop_eq_nil_of_le (by omega)]
        simp [ht.ready.nonzero, hnul.1]
      rw [grep_error (fill_outside [] ht.ready.count hsize hfull.le hloaded)] at hrun
      cases hrun
    · have herror : fill [] c st = .error .tooMuch := by
        rw [fill, ht.ready.count, if_neg (by omega), Int.toNat_natCast, if_pos hmuch]
      rw [grep_error herror] at hrun
      cases hrun

/-! What is looked at. -/

theorem strchr_cases (c : UInt8) (bytes : List UInt8) (p : Nat) :
    strchr c bytes p = .outside ∨ (∃ z, strchr c bytes p = .nul (p + z) ∧ bytes[z]? = some 0) ∨
      ∃ q, strchr c bytes p = .found (p + q) := by
  induction bytes generalizing p with
  | nil => exact .inl rfl
  | cons x bytes ih =>
    rw [strchr]
    split_ifs with h0 hx
    · exact .inr (.inl ⟨0, rfl, by rw [h0]; rfl⟩)
    · exact .inr (.inr ⟨0, rfl⟩)
    · rcases ih (p + 1) with hout | ⟨z, hz, hnul⟩ | ⟨q, hq⟩
      · exact .inl hout
      · refine .inr (.inl ⟨z + 1, ?_, hnul⟩)
        rw [hz]
        congr 1
        omega
      · refine .inr (.inr ⟨q + 1, ?_⟩)
        rw [hq]
        congr 1
        omega

/-- The search stops at a NUL; if only bytes that had been read were looked at, it is one of them. -/
theorem eachLine_inside {st st' : Scan} (hrun : eachLine re m fuel st = .ok st') (hinside : st'.inside = true) :
    st.inside = true ∧ ∃ z, st.p ≤ z ∧ z < m ∧ st.buf[z]? = some 0 := by
  induction fuel generalizing st with
  | zero => cases hrun
  | succ k ih =>
    rw [eachLine] at hrun
    rcases strchr_cases newline (st.buf.drop st.p) st.p with hout | ⟨z, hz, hnul⟩ | ⟨q, hq⟩
    · rw [hout] at hrun
      cases hrun
    · grind
    · grind

theorem fill_inside {st' : State} (hrun : fill re c st = .ok st') (hinside : st'.inside = true) :
    st.inside = true ∧ ∃ z, z < st.m.toNat + c.length ∧ (loaded st st.m.toNat c)[z]? = some 0 := by
  obtain ⟨s, hlines, -, hs⟩ := fill_ok hrun
  obtain ⟨hbefore, z, -, hz, hnul⟩ := eachLine_inside hlines (hs ▸ hinside)
  exact ⟨hbefore, z, hz, hnul⟩

theorem grep_inside {st' : State} (hrun : grep re chunks st = .ok st') (hinside : st'.inside = true) :
    st.inside = true := by
  induction chunks generalizing st with
  | nil =>
    cases hrun
    exact hinside
  | cons c chunks ih =>
    cases hfill : fill re c st with
    | error e =>
      rw [grep_error hfill] at hrun
      cases hrun
    | ok st₁ =>
      rw [grep_ok hfill] at hrun
      exact (fill_inside hfill (ih hrun)).1

/-- Already the first search goes beyond what has been read. -/
theorem not_inside (hc : 0 ∉ c) : ¬ Inside re (c :: chunks) := by
  rintro ⟨st', hrun, hinside⟩
  cases hfill : fill re c start with
  | error e =>
    rw [grep_error hfill] at hrun
    cases hrun
  | ok st₁ =>
    rw [grep_ok hfill] at hrun
    obtain ⟨-, z, hz, hnul⟩ := fill_inside hfill (grep_inside hrun hinside)
    have hm : start.m.toNat = 0 := rfl
    rw [hm, Nat.zero_add] at hz
    rw [hm, loaded, List.take_zero, List.nil_append, List.getElem?_append_left hz] at hnul
    exact hc (List.mem_of_getElem? hnul)

/-! The theorem. -/

theorem ready_start : Ready start [] 0 := by
  refine ⟨rfl, List.length_replicate, List.nil_prefix, by simp, by simp, ?_, ?_⟩
  · show newline ∉ List.replicate bufSize 0
    rw [List.mem_replicate]
    exact fun h => absurd h.2 (by decide)
  · show (List.replicate bufSize 0).getLast? = some 0
    rw [List.getLast?_replicate]
    rfl

theorem traced_start : Traced start [] 0 := ⟨ready_start, by simp, fun h => absurd h (Nat.lt_irrefl 0)⟩

/-- However the input is cut into chunks: what is written is right for every pattern exactly when the chunks do no harm,
and what is looked at has been read only when there is nothing to read. -/
theorem grep_chunks_iff (hne : ∀ c ∈ chunks, c ≠ []) (hnul : 0 ∉ chunks.flatten)
    (hlines : ∀ line ∈ chunks.flatten.splitOn newline, line.length < bufSize) :
    ((∀ re, 0 ∉ re → Exact re chunks) ↔ Steady [] 0 chunks) ∧ ((∀ re, 0 ∉ re → Inside re chunks) ↔ chunks = []) := by
  refine ⟨⟨fun hexact => ?_, fun hsteady re _ => ?_⟩, fun hinside => ?_, ?_⟩
  · by_contra hnot
    obtain ⟨st', hrun, hout⟩ := hexact [] (by simp)
    exact traced_start.run_unsteady hnot hne hnul hrun hout
  · obtain ⟨ls, u, hcut⟩ := exists_cut newline chunks.flatten
    have hshort : (unfinished ([] ++ chunks.flatten)).length < bufSize := by
      rw [List.nil_append, unfinished_cut hcut]
      apply hlines
      rw [hcut.splitOn_eq]
      simp
    exact ready_start.run_steady re hsteady hne hnul hshort
  · cases chunks with
    | nil => rfl
    | cons c chunks =>
      rw [List.flatten_cons, List.mem_append, not_or] at hnul
      exact absurd (hinside [] (by simp)) (not_inside hnul.1)
  · rintro rfl re -
    exact ⟨start, rfl, rfl⟩

def chunk (s : String) : List UInt8 := s.toList.map ch

theorem grep_two_lines : Exact (chunk "a") [chunk "a\n", chunk "b\n"] := by
  have hsteady : Steady [] 0 [chunk "a\n", chunk "b\n"] := by
    refine ⟨by decide, by decide, ?_⟩
    rw [if_pos (by decide)]
    exact ⟨by decide, by decide, by rw [if_pos (by decide)]; trivial⟩
  exact (grep_chunks_iff (by decide) (by decide) (by decide)).1.mpr hsteady _ (by decide)

/-- A line in two chunks loses its first part; a short chunk is continued by the line before it; and the search goes
beyond what has been read. -/
theorem grep_two_chunks : ¬ Exact [] [chunk "a", chunk "b\n"] ∧ ¬ Exact [] [chunk "ab\n", chunk "c"] ∧
    ¬ Inside [] [chunk "a\n"] := by
  refine ⟨?_, ?_, not_inside (by decide)⟩
  · rintro ⟨st', hrun, hout⟩
    refine traced_start.run_unsteady (fun hsteady => ?_) (by decide) (by decide) hrun hout
    obtain ⟨-, -, hrest⟩ := hsteady
    rw [if_neg (by decide)] at hrest
    exact absurd hrest (by decide)
  · rintro ⟨st', hrun, hout⟩
    refine traced_start.run_unsteady (fun hsteady => ?_) (by decide) (by decide) hrun hout
    obtain ⟨-, -, hrest⟩ := hsteady
    rw [if_pos (by decide)] at hrest
    exact absurd hrest.2.1 (by decide)

end Xv6.Grep
