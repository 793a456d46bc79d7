import Xv6.ConsoleLines

/-! The command history. `consoleread` stores the lines it reads in the rows of `prevCmds`, one after the
other, and the history keys bring them back. Lines that fit their row keep all accesses inside the
array; then the history keys walk back through the last sixteen lines, one line a key, if each key comes
in an interrupt of its own. -/

namespace Xv6.Console

open LibWord LibRing Function

attribute [local irreducible] sub32

variable {Proc : Type} {s t : State Proc}

/-! Strings in `prevCmds`. -/

/-- The C string at an offset. -/
def Stored (cmds : Nat → UInt8) : Nat → List UInt8 → Prop
  | a, [] => cmds a = 0
  | a, c :: text => cmds a = c ∧ c ≠ 0 ∧ Stored cmds (a + 1) text

/-- A NUL ends every string before it. -/
theorem exists_stored (cmds : Nat → UInt8) {a b : Nat} (hab : a ≤ b) (hb : cmds b = 0) :
    ∃ text, Stored cmds a text ∧ a + text.length ≤ b := by
  obtain ⟨d, rfl⟩ := Nat.exists_eq_add_of_le hab
  induction d generalizing a with
  | zero => exact ⟨[], hb, le_rfl⟩
  | succ d ih =>
    by_cases ha : cmds a = 0
    · exact ⟨[], ha, by simp⟩
    · obtain ⟨text, htext, hlen⟩ := ih (a := a + 1) (by omega) (by rwa [Nat.add_right_comm])
      refine ⟨cmds a :: text, ⟨rfl, ha, htext⟩, ?_⟩
      rw [List.length_cons]
      omega

theorem State.peek_cmd {a : Nat} (h : a < historySize * cmdSize) : s.peek a = s.prevCmds a := by
  have hcell : cellAt a = .cmd a := if_pos ⟨by omega, by exact_mod_cast h⟩
  rw [State.peek, hcell]

theorem cmdAddr_cast (i j : Nat) : cmdAddr i j = ((cmdSize * i + j : Nat) : Int) := by
  rw [cmdAddr]
  push_cast
  rfl

theorem textAt_stored {a fuel : Nat} {text : List UInt8} (h : Stored s.prevCmds a text)
    (hinside : a + text.length < historySize * cmdSize) (hfuel : text.length < fuel) :
    textAt s fuel a = some text := by
  induction text generalizing a fuel with
  | nil =>
    obtain ⟨fuel, rfl⟩ := Nat.exists_eq_add_of_lt hfuel
    rw [textAt, State.peek_cmd (by simpa using hinside)]
    exact if_pos h
  | cons c text ih =>
    rw [List.length_cons] at hinside hfuel
    obtain ⟨hc, hzero, hrest⟩ := h
    obtain ⟨fuel, rfl⟩ : ∃ k, fuel = k + 1 := ⟨fuel - 1, by omega⟩
    rw [textAt, State.peek_cmd (by omega), if_neg (by rwa [hc]), hc]
    have hnext : textAt s fuel ((a + 1 : Nat) : Int) = some text := ih hrest (by omega) (by omega)
    rw [Nat.cast_add, Nat.cast_one] at hnext
    rw [hnext]
    rfl

theorem copyCmd_stored {i ind fuel : Nat} {text : List UInt8} (hcur : s.currInd1 = i)
    (h : Stored s.prevCmds (cmdSize * i + ind) text)
    (hinside : cmdSize * i + ind + text.length < historySize * cmdSize) (hfuel : text.length < fuel) :
    copyCmd fuel ind s = some (ind + text.length, appendAll text s) := by
  induction text generalizing ind fuel s with
  | nil =>
    obtain ⟨fuel, rfl⟩ := Nat.exists_eq_add_of_lt hfuel
    rw [copyCmd, hcur, cmdAddr_cast, State.peek_cmd (by simpa using hinside)]
    exact if_pos h
  | cons c text ih =>
    rw [List.length_cons] at hinside hfuel
    obtain ⟨hc, hzero, hrest⟩ := h
    obtain ⟨fuel, rfl⟩ : ∃ k, fuel = k + 1 := ⟨fuel - 1, by omega⟩
    rw [copyCmd, hcur, cmdAddr_cast, State.peek_cmd (by omega), hc]
    have hnext : copyCmd fuel (ind + 1) (append c s) =
        some (ind + 1 + text.length, appendAll text (append c s)) :=
      ih (s := append c s) hcur hrest (by omega) (by omega)
    rw [List.length_cons, Nat.add_comm text.length 1, ← Nat.add_assoc]
    exact (if_neg hzero).trans hnext

theorem lt_memorySize : historySize * cmdSize < memorySize := by
  unfold memorySize
  decide

/-! What changes the history. -/

/-- The history is as it was. -/
structure SameHistory (s t : State Proc) : Prop where
  cmds : t.prevCmds = s.prevCmds
  row : t.indexToDim1 = s.indexToDim1
  column : t.indexToDim2 = s.indexToDim2
  cursor : t.currInd1 = s.currInd1
  count : t.hasInserted = s.hasInserted

theorem SameHistory.trans {u : State Proc} (h : SameHistory s t) (h' : SameHistory t u) :
    SameHistory s u :=
  ⟨h'.cmds.trans h.cmds, h'.row.trans h.row, h'.column.trans h.column, h'.cursor.trans h.cursor,
    h'.count.trans h.count⟩

theorem sameHistory_eraseLine (s : State Proc) : SameHistory s (eraseLine s) := by
  obtain ⟨e, screen, heq⟩ := eraseWhile_eq (s := s) (sub32 s.e s.w)
  rw [eraseLine, heq]
  exact ⟨rfl, rfl, rfl, rfl, rfl⟩

theorem sameHistory_appendAll (text : List UInt8) (s : State Proc) :
    SameHistory s (appendAll text s) := by
  obtain ⟨buf, e, heq⟩ := appendAll_eq (s := s) text
  rw [heq]
  exact ⟨rfl, rfl, rfl, rfl, rfl⟩

theorem sameHistory_plainKey (c : UInt8) (s : State Proc) : SameHistory s (plainKey c s) := by
  rw [plainKey]
  by_cases hc : c ≠ 0 ∧ sub32 s.e s.r < inputBuf
  · rw [if_pos hc]
    rcases acceptKey_eq (s := s) (if c = carriageReturn then newline else c) with heq | heq
    all_goals
      rw [heq]
      exact ⟨rfl, rfl, rfl, rfl, rfl⟩
  · rw [if_neg hc]
    exact ⟨rfl, rfl, rfl, rfl, rfl⟩

/-- Only a history key moves the cursor into the history, and no key changes anything else of it. -/
theorem handleKey_history {ind ind' : Nat} {c : UInt8} {listing : List UInt8}
    (hkey : handleKey ind c listing s = some (ind', t)) :
    (ind' = ind ∧ SameHistory s t) ∨ isHistoryKey c ∧ historyKey ind s = some (ind', t) := by
  rw [handleKey] at hkey
  split_ifs at hkey with hP hU hH hne hI
  · cases hkey
    exact .inl ⟨rfl, rfl, rfl, rfl, rfl, rfl⟩
  · cases hkey
    exact .inl ⟨rfl, sameHistory_eraseLine s⟩
  · cases hkey
    exact .inl ⟨rfl, rfl, rfl, rfl, rfl, rfl⟩
  · cases hkey
    exact .inl ⟨rfl, rfl, rfl, rfl, rfl, rfl⟩
  · exact .inr ⟨hI, hkey⟩
  · cases hkey
    exact .inl ⟨rfl, sameHistory_plainKey c s⟩

theorem isHistoryKey_iff {c : UInt8} : isHistoryKey c = true ↔ c = ctrl 'I' ∨ c = keyUp := by
  simp [isHistoryKey]

theorem handleKey_historyKey {ind : Nat} {c : UInt8} {listing : List UInt8}
    (hkey : isHistoryKey c = true) : handleKey ind c listing s = historyKey ind s := by
  have hother : c ≠ ctrl 'P' ∧ c ≠ ctrl 'U' ∧ ¬ (c = ctrl 'H' ∨ c = delete) := by
    rcases isHistoryKey_iff.mp hkey with rfl | rfl <;> decide
  rw [handleKey, if_neg hother.1, if_neg hother.2.1, if_neg hother.2.2, if_pos hkey]

/-- A byte of a line goes to the end of its row. -/
theorem record_char {c : UInt8} (hc : c ≠ ctrl 'D' ∧ c ≠ newline) (haddr : 0 ≤ recordAddr s c)
    (hinside : recordAddr s c < historySize * cmdSize) (hcolumn : 0 ≤ s.indexToDim2)
    (hlt : s.indexToDim2 < cmdSize) :
    record c s = { s with
      prevCmds := update s.prevCmds (recordAddr s c).toNat c, indexToDim1 := cmdRow s c
      indexToDim2 := s.indexToDim2 + 1 } := by
  simp only [cmdSize] at hlt
  have hincr : incr32 s.indexToDim2 = s.indexToDim2 + 1 := incr32_of_lt hcolumn (by omega)
  rw [record, if_pos hc]
  by_cases hrow : (historySize : Int) ≤ s.indexToDim1
  · have hzero : cmdRow s c = 0 := if_pos ⟨hc, hrow⟩
    rw [recordAddr, hzero] at haddr hinside ⊢
    simp only [if_pos hrow]
    rw [State.poke_cmd haddr hinside]
    simp only [hincr]
  · have hsame : cmdRow s c = s.indexToDim1 := if_neg fun hboth => hrow hboth.2
    rw [recordAddr, hsame] at haddr hinside ⊢
    simp only [if_neg hrow]
    rw [State.poke_cmd haddr hinside]
    simp only [hincr]

/-- The end of a line ends the row. -/
theorem record_end {c : UInt8} (hc : ¬ (c ≠ ctrl 'D' ∧ c ≠ newline)) (haddr : 0 ≤ recordAddr s c)
    (hinside : recordAddr s c < historySize * cmdSize) :
    recordAddr s c = cmdAddr s.indexToDim1 s.indexToDim2 ∧ record c s = { s with
      prevCmds := update s.prevCmds (recordAddr s c).toNat 0, indexToDim2 := 0
      currInd1 := s.indexToDim1, indexToDim1 := incr32 s.indexToDim1
      hasInserted := incr32 s.hasInserted } := by
  have hsame : cmdRow s c = s.indexToDim1 := if_neg fun hboth => hc hboth.1
  rw [recordAddr, hsame] at haddr hinside ⊢
  refine ⟨rfl, ?_⟩
  rw [record, if_neg hc]
  simp only [State.poke_cmd haddr hinside]

/-! Bounds. -/

/-- The line read fits its row, an end of line is read only where there is a row left to end, and the
lines can still be counted. -/
def RowFits (s : State Proc) (c : UInt8) : Prop :=
  if c ≠ ctrl 'D' ∧ c ≠ newline then s.indexToDim2 < cmdSize - 1
  else s.indexToDim1 < historySize ∧ s.hasInserted < 2 ^ 31 - 1

/-- The indices are in range, and every row ends in its last column at the latest. -/
structure Bounds (s : State Proc) : Prop where
  row : 0 ≤ s.indexToDim1 ∧ s.indexToDim1 ≤ historySize
  column : 0 ≤ s.indexToDim2 ∧ s.indexToDim2 < cmdSize
  cursor : 0 ≤ s.currInd1 ∧ s.currInd1 < historySize
  count : 0 ≤ s.hasInserted ∧ s.hasInserted < 2 ^ 31
  fresh : s.hasInserted < historySize → s.indexToDim1 = s.hasInserted
  ended : ∀ i < historySize, s.prevCmds (cmdSize * i + (cmdSize - 1)) = 0
  ind : ∀ k, s.lock = .intr k → k < cmdSize

theorem Bounds.same (h : Bounds s) (hsame : SameHistory s t)
    (hind : ∀ k, t.lock = .intr k → k < cmdSize) : Bounds t := by
  obtain ⟨h1, h2, h3, h4, h5⟩ := hsame
  refine ⟨?_, ?_, ?_, ?_, ?_, ?_, hind⟩
  · rw [h2]; exact h.row
  · rw [h3]; exact h.column
  · rw [h4]; exact h.cursor
  · rw [h5]; exact h.count
  · rw [h2, h5]; exact h.fresh
  · rw [h1]; exact h.ended

theorem Bounds.cmdRow (h : Bounds s) {c : UInt8} (hfit : RowFits s c) :
    0 ≤ cmdRow s c ∧ cmdRow s c < historySize := by
  have hrow := h.row
  rw [RowFits] at hfit
  rw [Console.cmdRow]
  split
  · exact ⟨le_rfl, by decide⟩
  · rename_i hneg
    split_ifs at hfit with hchar
    · exact ⟨hrow.1, by
        rw [not_and] at hneg
        have := hneg hchar
        omega⟩
    · exact ⟨hrow.1, hfit.1⟩

theorem Bounds.record (h : Bounds s) {c : UInt8} (hfit : RowFits s c)
    (hind : ∀ k, s.lock ≠ .intr k) : Bounds (record c s) := by
  obtain ⟨hrow0, hrow⟩ := h.cmdRow hfit
  obtain ⟨hcol0, hcol⟩ := h.column
  rw [RowFits] at hfit
  have hcur := h.cursor
  have hcount := h.count
  have hwrite := h.row
  simp only [historySize, cmdSize] at hrow hcol hcur hwrite
  have haddr : recordAddr s c = 100 * Console.cmdRow s c + s.indexToDim2 := rfl
  have h0 : 0 ≤ recordAddr s c := by omega
  have hin : recordAddr s c < historySize * cmdSize := by
    simp only [historySize, cmdSize]
    omega
  by_cases hchar : c ≠ ctrl 'D' ∧ c ≠ newline
  · rw [if_pos hchar] at hfit
    simp only [cmdSize] at hfit
    rw [record_char hchar h0 hin hcol0 (by simp only [cmdSize]; omega)]
    refine ⟨⟨hrow0, ?_⟩, ⟨?_, ?_⟩, h.cursor, h.count, ?_, ?_, ?_⟩
    · show Console.cmdRow s c ≤ (historySize : Int)
      simp only [historySize]
      omega
    · show 0 ≤ s.indexToDim2 + 1
      omega
    · show s.indexToDim2 + 1 < (cmdSize : Int)
      simp only [cmdSize]
      omega
    · intro hlt
      show Console.cmdRow s c = s.hasInserted
      have hfresh := h.fresh hlt
      have hlt' : s.hasInserted < 16 := hlt
      rw [Console.cmdRow, if_neg]
      · exact hfresh
      · rintro ⟨-, hge⟩
        simp only [historySize] at hge
        omega
    · intro i hi
      show update s.prevCmds (recordAddr s c).toNat c (cmdSize * i + (cmdSize - 1)) = 0
      rw [update_of_ne]
      · exact h.ended i hi
      · simp only [cmdSize]
        omega
    · exact fun k hk => absurd hk (hind k)
  · rw [if_neg hchar] at hfit
    obtain ⟨hleft, hmore⟩ := hfit
    simp only [historySize] at hleft
    rw [(record_end hchar h0 hin).2]
    have h1 : incr32 s.indexToDim1 = s.indexToDim1 + 1 := incr32_of_lt hwrite.1 (by omega)
    have h2 : incr32 s.hasInserted = s.hasInserted + 1 := incr32_of_lt hcount.1 hmore
    refine ⟨?_, ⟨le_rfl, (by decide : (0 : Int) < cmdSize)⟩, ⟨hwrite.1, ?_⟩, ?_, ?_, ?_, ?_⟩
    · show 0 ≤ incr32 s.indexToDim1 ∧ incr32 s.indexToDim1 ≤ (historySize : Int)
      simp only [historySize]
      omega
    · show s.indexToDim1 < (historySize : Int)
      simp only [historySize]
      omega
    · show 0 ≤ incr32 s.hasInserted ∧ incr32 s.hasInserted < 2 ^ 31
      omega
    · intro hlt
      show incr32 s.indexToDim1 = incr32 s.hasInserted
      have hlt' : incr32 s.hasInserted < (historySize : Int) := hlt
      rw [h1, h2, h.fresh (by simp only [historySize] at *; omega)]
    · intro i hi
      show update s.prevCmds (recordAddr s c).toNat 0 (cmdSize * i + (cmdSize - 1)) = 0
      rw [update_apply]
      split
      · rfl
      · exact h.ended i hi
    · exact fun k hk => absurd hk (hind k)

/-- The string a history key copies, and the one it shows. -/
theorem Bounds.texts (h : Bounds s) {ind : Nat} (hind : ind < cmdSize) :
    ∃ (i : Nat) (text shown : List UInt8), i < historySize ∧ s.currInd1 = i ∧
      Stored s.prevCmds (cmdSize * i + ind) text ∧ ind + text.length < cmdSize ∧
      Stored s.prevCmds (cmdSize * i) shown ∧ shown.length < cmdSize := by
  obtain ⟨hcur0, hcur⟩ := h.cursor
  obtain ⟨i, hi⟩ := Int.eq_ofNat_of_zero_le hcur0
  have hi' : i < historySize := by
    rw [hi] at hcur
    exact_mod_cast hcur
  simp only [cmdSize] at hind
  obtain ⟨text, htext, hlen⟩ := exists_stored s.prevCmds (a := cmdSize * i + ind)
    (b := cmdSize * i + (cmdSize - 1)) (by simp only [cmdSize]; omega) (h.ended i hi')
  obtain ⟨shown, hshown, hlen'⟩ := exists_stored s.prevCmds (a := cmdSize * i)
    (b := cmdSize * i + (cmdSize - 1)) (by omega) (h.ended i hi')
  simp only [cmdSize] at hlen hlen'
  exact ⟨i, text, shown, hi', hi, htext, by simp only [cmdSize]; omega, hshown,
    by simp only [cmdSize]; omega⟩

/-- What a history key does when its row holds a text from column `ind` on, and is shown as another. -/
theorem historyKey_stored {i ind : Nat} {text shown : List UInt8} (hany : s.hasInserted ≠ 0)
    (hi : i < historySize) (hcur : s.currInd1 = i) (htext : Stored s.prevCmds (cmdSize * i + ind) text)
    (hlen : ind + text.length < cmdSize) (hshown : Stored s.prevCmds (cmdSize * i) shown)
    (hlen' : shown.length < cmdSize) :
    copyCmd memorySize ind (eraseLine s) =
        some (ind + text.length, appendAll text (eraseLine s)) ∧
      textAt (appendAll text (eraseLine s)) memorySize
        (cmdAddr (appendAll text (eraseLine s)).currInd1 0) = some shown ∧
      historyKey ind s = some (ind + text.length, { appendAll text (eraseLine s) with
        screen := (appendAll text (eraseLine s)).screen.print shown
        currInd1 := olderCmd (appendAll text (eraseLine s)) }) := by
  have hmem := lt_memorySize
  have h1 := sameHistory_eraseLine s
  have h2 := h1.trans (sameHistory_appendAll text (eraseLine s))
  simp only [historySize, cmdSize] at *
  have hcopy : copyCmd memorySize ind (eraseLine s) =
      some (ind + text.length, appendAll text (eraseLine s)) := by
    apply copyCmd_stored (h1.cursor.trans hcur)
    · rw [h1.cmds]
      exact htext
    · simp only [historySize, cmdSize]
      omega
    · omega
  have hprint : textAt (appendAll text (eraseLine s)) memorySize
      (cmdAddr (appendAll text (eraseLine s)).currInd1 0) = some shown := by
    have haddr : cmdAddr (appendAll text (eraseLine s)).currInd1 0 = ((cmdSize * i : Nat) : Int) := by
      rw [h2.cursor, hcur]
      exact cmdAddr_cast i 0
    rw [haddr]
    apply textAt_stored
    · rw [h2.cmds]
      exact hshown
    · simp only [historySize, cmdSize]
      omega
    · omega
  refine ⟨hcopy, hprint, ?_⟩
  rw [historyKey, if_neg hany, hcopy, Option.bind_eq_bind, Option.bind_some]
  dsimp only
  rw [hprint, Option.bind_eq_bind, Option.bind_some]

theorem Bounds.olderCmd (h : Bounds s) (hany : s.hasInserted ≠ 0) :
    0 ≤ olderCmd s ∧ olderCmd s < historySize := by
  obtain ⟨h1, h2⟩ := h.cursor
  obtain ⟨h3, h4⟩ := h.count
  have h5 := h.fresh
  simp only [historySize] at *
  rw [Console.olderCmd]
  split_ifs with hcur hfew
  · omega
  · have := h5 hfew
    omega
  · omega

/-- How many bytes `cprintf` prints for a history key. -/
def shownLength (ind : Nat) (s : State Proc) : Nat :=
  (((copyCmd memorySize ind (eraseLine s)).bind fun x =>
    textAt x.2 memorySize (cmdAddr x.2.currInd1 0)).map List.length).getD 0

/-- The accesses to `prevCmds[i][j]` a step makes. The loop of a history key reads up to the NUL it stops
at, and so does `cprintf`. -/
def accesses (s : State Proc) : Act Proc → List (Int × Int)
  | .go => (nextByte s).toList.map fun c => (cmdRow s c, s.indexToDim2)
  | .key c _ => (handlerInd s).toList.flatMap fun ind =>
    if isHistoryKey c ∧ s.hasInserted ≠ 0 then
      (List.range (copied ind s + 1)).map (fun k : Nat => (s.currInd1, ((ind + k : Nat) : Int))) ++
        (List.range (shownLength ind s + 1)).map fun k : Nat => (s.currInd1, (k : Int))
    else []
  | _ => []

theorem Bounds.historyKey (h : Bounds s) {ind ind' : Nat} (hind : ind < cmdSize)
    (hkey : historyKey ind s = some (ind', t)) :
    ind' < cmdSize ∧ ∀ lock : Lock Proc, (∀ k, lock = .intr k → k < cmdSize) →
      Bounds { t with lock := lock } := by
  by_cases hany : s.hasInserted = 0
  · rw [Console.historyKey, if_pos hany] at hkey
    cases hkey
    exact ⟨hind, fun lock hlock => h.same ⟨rfl, rfl, rfl, rfl, rfl⟩ hlock⟩
  · obtain ⟨i, text, shown, hi, hcur, htext, hlen, hshown, hlen'⟩ := h.texts hind
    obtain ⟨-, -, heq⟩ := historyKey_stored hany hi hcur htext hlen hshown hlen'
    rw [heq] at hkey
    obtain ⟨rfl, rfl⟩ := Prod.mk.inj (Option.some.inj hkey)
    refine ⟨hlen, fun lock hlock => ?_⟩
    have hsame := (sameHistory_eraseLine s).trans (sameHistory_appendAll text (eraseLine s))
    have holder : Console.olderCmd (appendAll text (eraseLine s)) = Console.olderCmd s := by
      rw [Console.olderCmd, hsame.cursor, hsame.count, hsame.row]
      rfl
    have hbounds := h.same (t := { appendAll text (eraseLine s) with lock := lock })
      ⟨hsame.cmds, hsame.row, hsame.column, hsame.cursor, hsame.count⟩ hlock
    exact ⟨hbounds.row, hbounds.column, holder ▸ h.olderCmd hany, hbounds.count, hbounds.fresh,
      hbounds.ended, hlock⟩

theorem State.poke_rest (a : Int) (c : UInt8) :
    (s.poke a c).lock = s.lock ∧ (s.poke a c).screen = s.screen := by
  rw [State.poke]
  split
  · exact ⟨rfl, rfl⟩
  · exact ⟨rfl, rfl⟩
  · rename_i x k _
    cases x <;> exact ⟨rfl, rfl⟩
  · exact ⟨rfl, rfl⟩

theorem record_rest (c : UInt8) (s : State Proc) :
    (record c s).lock = s.lock ∧ (record c s).screen = s.screen := by
  rw [record]
  split_ifs
  · exact State.poke_rest (s := { s with indexToDim1 := 0 }) _ _
  · exact State.poke_rest _ _
  · exact State.poke_rest _ _

variable [DecidableEq Proc]

/-- What a turn of `consoleread` does to the history. -/
theorem go_history {events : List (Event Proc)} (hstep : step s .go = some (t, events)) :
    (∀ k, s.lock ≠ .intr k) ∧ (∀ k, t.lock ≠ .intr k) ∧ t.screen = s.screen ∧
      (nextByte s = none ∧ SameHistory s t ∨ ∃ c, nextByte s = some c ∧
        SameHistory (record c { s with r := (s.r + 1) % uintSize }) t) := by
  simp only [step] at hstep
  split at hstep
  · rename_i p hlock
    split at hstep
    · rename_i rd hrd
      have hlock' : ∀ k, s.lock ≠ .intr k := fun k hk => by
        rw [hlock] at hk
        cases hk
      refine ⟨hlock', ?_⟩
      have hturn := Option.some.inj hstep
      rw [readStep] at hturn
      by_cases hn : rd.n = 0
      · rw [if_pos hn] at hturn
        cases hturn
        exact ⟨fun k hk => (by cases hk), rfl,
          .inl ⟨by simp [nextByte, hlock, hrd, hn], rfl, rfl, rfl, rfl, rfl⟩⟩
      rw [if_neg hn] at hturn
      by_cases hempty : s.r = s.w
      · rw [if_pos hempty] at hturn
        split at hturn
        all_goals
          cases hturn
          exact ⟨fun k hk => (by cases hk), rfl,
            .inl ⟨by simp [nextByte, hlock, hrd, hempty], rfl, rfl, rfl, rfl, rfl⟩⟩
      rw [if_neg hempty] at hturn
      dsimp only at hturn
      split_ifs at hturn
      all_goals
        cases hturn
        refine ⟨fun k hk => ?_, (record_rest _ { s with r := (s.r + 1) % uintSize }).2,
          .inr ⟨_, nextByte_eq hlock hrd hn hempty, rfl, rfl, rfl, rfl, rfl⟩⟩
      · cases hk
      · cases hk
      · cases hk
      · exact hlock' k ((record_rest _ { s with r := (s.r + 1) % uintSize }).1.symm.trans hk)
    · cases hstep
  · cases hstep

/-- The reader's line fits its row. -/
def HistoryGuard (s : State Proc) : Act Proc → Prop
  | .go => ∀ c ∈ nextByte s, RowFits s c
  | _ => True

theorem Bounds.step {a : Act Proc} {events : List (Event Proc)} (h : Bounds s)
    (hguard : HistoryGuard s a) (hstep : step s a = some (t, events)) : Bounds t := by
  cases a with
  | go =>
    obtain ⟨hlock, hlock', -, ⟨-, hsame⟩ | ⟨c, hc, hsame⟩⟩ := go_history hstep
    · exact h.same hsame fun k hk => absurd hk (hlock' k)
    · have hmoved : Bounds { s with r := (s.r + 1) % uintSize } := h.same ⟨rfl, rfl, rfl, rfl, rfl⟩ h.ind
      exact (hmoved.record (hguard c hc) hlock).same hsame fun k hk => absurd hk (hlock' k)
  | key c listing =>
    simp only [Console.step] at hstep
    split at hstep
    · rename_i ind hlock
      obtain ⟨⟨ind', u⟩, hkey, heq⟩ := Option.map_eq_some_iff.mp hstep
      cases heq
      have hind := h.ind ind hlock
      rcases handleKey_history hkey with ⟨rfl, hsame⟩ | ⟨-, hkey⟩
      · refine h.same (hsame.trans ⟨rfl, rfl, rfl, rfl, rfl⟩) fun k hk => ?_
        cases hk
        exact hind
      · obtain ⟨hlt, hbounds⟩ := h.historyKey hind hkey
        refine hbounds _ fun k hk => ?_
        cases hk
        exact hlt
    · cases hstep
  | kill p =>
    cases hstep
    exact h.same ⟨rfl, rfl, rfl, rfl, rfl⟩ h.ind
  | enter | leave | read p n | wake p =>
    simp only [Console.step] at hstep
    repeat' split at hstep
    all_goals cases hstep
    all_goals
      refine h.same ⟨rfl, rfl, rfl, rfl, rfl⟩ fun k hk => ?_
      cases hk
    all_goals decide

omit [DecidableEq Proc] in
theorem Bounds.booted (h : Booted s) : Bounds s := by
  obtain ⟨h1, h2, h3, h4⟩ := h.rows
  refine ⟨?_, ?_, ?_, ?_, fun _ => ?_, fun i _ => h.cmds _, ?_⟩
  · rw [h1]; decide
  · rw [h2]; decide
  · rw [h3]; decide
  · rw [h4]; decide
  · rw [h1, h4]
  · intro k hk
    rw [h.idle.1] at hk
    cases hk

theorem Bounds.reaches (h : Reaches HistoryGuard s) : Bounds s := by
  apply LibRun.Reachable.invariant (P := Bounds) _ _ h
  · exact fun _ hboot => .booted hboot
  · rintro s t - hbounds ⟨a, events, hguard, hstep⟩
    exact hbounds.step hguard hstep

omit [DecidableEq Proc] in
theorem Bounds.accesses (h : Bounds s) {a : Act Proc} (hguard : HistoryGuard s a) :
    ∀ x ∈ accesses s a, 0 ≤ x.1 ∧ x.1 < historySize ∧ 0 ≤ x.2 ∧ x.2 < cmdSize := by
  intro x hx
  cases a with
  | go =>
    rw [Console.accesses, List.mem_map] at hx
    obtain ⟨c, hc, rfl⟩ := hx
    rw [Option.mem_toList] at hc
    obtain ⟨h1, h2⟩ := h.cmdRow (hguard c hc)
    exact ⟨h1, h2, h.column⟩
  | key c listing =>
    rw [Console.accesses, List.mem_flatMap] at hx
    obtain ⟨ind, hind, hx⟩ := hx
    rw [Option.mem_toList, ← Option.mem_def, mem_handlerInd] at hind
    split_ifs at hx with hkey
    · obtain ⟨i, text, shown, hi, hcur, htext, hlen, hshown, hlen'⟩ := h.texts (h.ind ind hind)
      obtain ⟨hcopy, hprint, -⟩ := historyKey_stored hkey.2 hi hcur htext hlen hshown hlen'
      have hcopied : copied ind s = text.length := by
        rw [copied, hcopy, Option.map_some, Option.getD_some]
        exact Nat.add_sub_cancel_left ind text.length
      have hlength : shownLength ind s = shown.length := by
        rw [shownLength, hcopy, Option.bind_some, hprint]
        rfl
      rw [hcopied, hlength] at hx
      simp only [List.mem_append, List.mem_map, List.mem_range] at hx
      rcases hx with ⟨k, hk, rfl⟩ | ⟨k, hk, rfl⟩
      · exact ⟨h.cursor.1, h.cursor.2, Int.natCast_nonneg _, by exact_mod_cast by omega⟩
      · exact ⟨h.cursor.1, h.cursor.2, Int.natCast_nonneg _, by exact_mod_cast by omega⟩
    · cases hx
  | enter | leave | read | wake | kill => cases hx

/-- As long as the lines read fit their rows, all accesses are inside `prevCmds`, and the row a history
key reads ends within its hundred bytes, so that the key is handled. -/
theorem history_inside (h : Reaches HistoryGuard s) {a : Act Proc} (hguard : HistoryGuard s a) :
    (∀ x ∈ accesses s a, 0 ≤ x.1 ∧ x.1 < historySize ∧ 0 ≤ x.2 ∧ x.2 < cmdSize) ∧
      ∀ c listing ind, a = .key c listing → s.lock = .intr ind → isHistoryKey c →
        s.hasInserted ≠ 0 →
        (∃ j < cmdSize, s.prevCmds (cmdSize * s.currInd1.toNat + j) = 0) ∧ (step s a).isSome := by
  have hbounds := Bounds.reaches h
  refine ⟨hbounds.accesses hguard, ?_⟩
  rintro c listing ind rfl hlock hkey hany
  obtain ⟨i, text, shown, hi, hcur, htext, hlen, hshown, hlen'⟩ := hbounds.texts (hbounds.ind ind hlock)
  obtain ⟨-, -, heq⟩ := historyKey_stored hany hi hcur htext hlen hshown hlen'
  refine ⟨⟨cmdSize - 1, by decide, ?_⟩, ?_⟩
  · rw [hcur, Int.toNat_natCast]
    exact hbounds.ended i hi
  · have hhandle : handleKey ind c listing s = historyKey ind s := handleKey_historyKey hkey
    simp only [Console.step, hlock, hhandle, heq, Option.map_some, Option.isSome_some]

instance (c : UInt8) : Decidable (RowFits s c) :=
  inferInstanceAs (Decidable (if c ≠ ctrl 'D' ∧ c ≠ newline then s.indexToDim2 < cmdSize - 1
    else s.indexToDim1 < historySize ∧ s.hasInserted < 2 ^ 31 - 1))

instance (a : Act Proc) : Decidable (HistoryGuard s a) :=
  match a with
  | .go => inferInstanceAs (Decidable (∀ c ∈ nextByte s, RowFits s c))
  | .key _ _ | .enter | .leave | .read _ _ | .wake _ | .kill _ => isTrue trivial

/-- Lines of one letter, each read as soon as it is typed. -/
def shortLines (n : Nat) : List (Act Unit) :=
  (List.replicate n (typing [97, newline] ++ reading 10 2)).flatten

/-- Twenty lines, a history key after them. -/
theorem shortLines_inside :
    ∃ s : State Unit, Reaches HistoryGuard s ∧ HistoryGuard s (.key keyUp []) ∧
      accesses s (.key keyUp []) = [(3, 0), (3, 1), (3, 0), (3, 1)] ∧
      ∀ x ∈ accesses s (.key keyUp []), 0 ≤ x.1 ∧ x.1 < historySize ∧ 0 ≤ x.2 ∧ x.2 < cmdSize := by
  have hrun : ((runs HistoryGuard (fun _ _ _ _ => ()) bootState () (shortLines 20 ++ [.enter])).map
      fun x => decide (accesses x.1 (.key keyUp []) = [(3, 0), (3, 1), (3, 0), (3, 1)])) = some true := by
    decide +kernel
  obtain ⟨⟨s, note⟩, hs, hacc⟩ := Option.map_eq_some_iff.mp hrun
  have hreach := ((Observed.boot booted_bootState).runs hs).reaches
  exact ⟨s, hreach, trivial, of_decide_eq_true hacc,
    (history_inside hreach (a := .key keyUp []) trivial).1⟩

/-- An empty line after sixteen others ends row 16, which `prevCmds` does not have. -/
theorem history_outside :
    ∃ s : State Unit, Reaches (fun _ _ => True) s ∧ (step s .go).isSome ∧ (16, 0) ∈ accesses s .go := by
  have hrun : ((runs (fun _ _ => True) (fun _ _ _ _ => ()) bootState ()
      (shortLines 16 ++ typing [newline] ++ reading 10 0)).map fun x =>
        decide ((step x.1 .go).isSome ∧ (16, 0) ∈ accesses x.1 .go)) = some true := by
    decide +kernel
  obtain ⟨⟨s, note⟩, hs, hacc⟩ := Option.map_eq_some_iff.mp hrun
  exact ⟨s, ((Observed.boot booted_bootState).runs hs).reaches, of_decide_eq_true hacc⟩

end Xv6.Console
