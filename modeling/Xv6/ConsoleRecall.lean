import Xv6.ConsoleHistory

/-! Walking back through the history. The lines that have been read are in the rows of `prevCmds` they
were stored in, the last sixteen of them at least. A history key replaces the pending line by the row
the cursor points to, on the screen too, and moves the cursor one row back. -/

namespace Xv6.Console

open LibWord LibRing Function

attribute [local irreducible] sub32

/-! The screen. -/

namespace Screen

variable {t : Screen}

/-- A text stands directly before the cursor. -/
def Shows (t : Screen) (text : List UInt8) : Prop :=
  text.length ≤ t.pos ∧ ∀ i c, text[i]? = some c → t.crt (t.pos - text.length + i) = c

/-- The cursor stays above the last line. -/
theorem pos_cgaputc (h : t.pos < 24 * 80) (c : Nat) : (cgaputc c t).pos < 24 * 80 := by
  have hplace : (place c t).pos ≤ 24 * 80 := by
    rw [place]
    split_ifs
    · show t.pos + (80 - t.pos % 80) ≤ 24 * 80
      omega
    · show t.pos - 1 ≤ 24 * 80
      omega
    · exact h.le
    · show t.pos + 1 ≤ 24 * 80
      omega
  rw [cgaputc]
  dsimp only
  split_ifs with hscroll
  · show (place c t).pos - 80 < 24 * 80
    omega
  · show (place c t).pos < 24 * 80
    omega

theorem pos_print (h : t.pos < 24 * 80) (text : List UInt8) : (print text t).pos < 24 * 80 := by
  induction text generalizing t with
  | nil => exact h
  | cons c text ih => exact ih (pos_cgaputc h c.toNat)

theorem pos_backspace (h : t.pos < 24 * 80) : (cgaputc BACKSPACE t).pos = t.pos - 1 := by
  have hplace : (place BACKSPACE t).pos = t.pos - 1 := by
    show (if 0 < t.pos then t.pos - 1 else t.pos) = t.pos - 1
    split <;> omega
  rw [cgaputc]
  dsimp only
  rw [if_neg (by omega)]
  exact hplace

/-- A character other than a newline is shown behind what was there. -/
theorem Shows.cgaputc {text : List UInt8} {c : UInt8} (h : t.Shows text) (hpos : t.pos < 24 * 80)
    (hc : c ≠ newline) (hlen : text.length < cmdSize) :
    (cgaputc c.toNat t).Shows (text ++ [c]) ∧
      (cgaputc c.toNat t).pos % 80 = (t.pos + 1) % 80 := by
  obtain ⟨hle, hcells⟩ := h
  simp only [cmdSize] at hlen
  have hplace : place c.toNat t = ⟨update t.crt t.pos c, t.pos + 1⟩ := by
    have h10 : c.toNat ≠ 10 := fun heq => hc (UInt8.toNat_inj.mp heq)
    have h256 : c.toNat ≠ BACKSPACE := by
      have := c.toNat_lt
      simp only [BACKSPACE]
      omega
    rw [place, if_neg h10, if_neg h256, UInt8.ofNat_toNat]
  have hcell : ∀ i d, (text ++ [c])[i]? = some d →
      i < text.length + 1 ∧ update t.crt t.pos c (t.pos - text.length + i) = d := by
    intro i d hd
    rcases Nat.lt_trichotomy i text.length with hi | rfl | hi
    · rw [List.getElem?_append_left hi] at hd
      refine ⟨by omega, ?_⟩
      rw [update_of_ne (by omega)]
      exact hcells i d hd
    · rw [List.getElem?_concat_length] at hd
      refine ⟨by omega, ?_⟩
      rw [show t.pos - text.length + text.length = t.pos by omega, update_self]
      exact Option.some.inj hd
    · rw [List.getElem?_eq_none (by rw [List.length_append, List.length_singleton]; omega)] at hd
      cases hd
  rw [Screen.cgaputc]
  simp only [hplace]
  by_cases hscroll : 24 ≤ (t.pos + 1) / 80
  · have hlast : t.pos + 1 = 24 * 80 := by omega
    rw [if_pos hscroll]
    refine ⟨⟨?_, ?_⟩, ?_⟩
    · show (text ++ [c]).length ≤ t.pos + 1 - 80
      rw [List.length_append, List.length_singleton]
      omega
    · intro i d hd
      obtain ⟨hi, hold⟩ := hcell i d hd
      show update (scroll ⟨update t.crt t.pos c, t.pos + 1⟩).crt (t.pos + 1 - 80) 32
        (t.pos + 1 - 80 - (text ++ [c]).length + i) = d
      rw [List.length_append, List.length_singleton, update_of_ne (by omega)]
      have hout : ¬ (t.pos + 1 - 80 ≤ t.pos + 1 - 80 - (text.length + 1) + i ∧
          t.pos + 1 - 80 - (text.length + 1) + i < 24 * 80) := by omega
      refine (if_neg hout).trans ((if_pos (by omega)).trans ?_)
      rw [show t.pos + 1 - 80 - (text.length + 1) + i + 80 = t.pos - text.length + i by omega]
      exact hold
    · show (t.pos + 1 - 80) % 80 = (t.pos + 1) % 80
      omega
  · rw [if_neg hscroll]
    refine ⟨⟨?_, ?_⟩, rfl⟩
    · show (text ++ [c]).length ≤ t.pos + 1
      rw [List.length_append, List.length_singleton]
      omega
    · intro i d hd
      obtain ⟨hi, hold⟩ := hcell i d hd
      show update (update t.crt t.pos c) (t.pos + 1) 32
        (t.pos + 1 - (text ++ [c]).length + i) = d
      rw [List.length_append, List.length_singleton, update_of_ne (by omega),
        show t.pos + 1 - (text.length + 1) + i = t.pos - text.length + i by omega]
      exact hold

theorem shows_nil (t : Screen) : t.Shows [] := ⟨Nat.zero_le _, by simp⟩

/-- A printed text is shown, and begins where the cursor was, up to scrolling by whole lines. -/
theorem shows_print {text : List UInt8} (hpos : t.pos < 24 * 80) (hclean : newline ∉ text)
    (hlen : text.length ≤ cmdSize) :
    (print text t).Shows text ∧ (print text t).pos % 80 = (t.pos + text.length) % 80 := by
  induction text using List.reverseRecOn with
  | nil => exact ⟨shows_nil t, rfl⟩
  | append_singleton text c ih =>
    rw [List.length_append, List.length_singleton] at hlen
    rw [List.mem_append, List.mem_singleton, not_or] at hclean
    obtain ⟨hshows, hmod⟩ := ih hclean.1 (by omega)
    rw [print, List.foldl_append]
    obtain ⟨hnext, hmod'⟩ := hshows.cgaputc (pos_print hpos text) (fun h => hclean.2 h.symm) (by omega)
    refine ⟨hnext, ?_⟩
    show (Screen.cgaputc c.toNat (print text t)).pos % 80 = _
    rw [hmod', List.length_append, List.length_singleton]
    omega

end Screen

variable {Proc : Type} {s t : State Proc}

/-! Bytes in the ring and in the rows. -/

/-- The ring holds no NUL and the pending line and the rows no newline. -/
structure Tidy (s : State Proc) : Prop where
  indices : Indices s
  queue : 0 ∉ unread s
  edit : 0 ∉ pending s ∧ newline ∉ pending s
  cmds : ∀ k, s.prevCmds k ≠ newline
  screen : s.screen.pos < 24 * 80

theorem Tidy.same (h : Tidy s) (hring : SameRing s t) (hcmds : ∀ k, t.prevCmds k ≠ newline)
    (hscreen : t.screen.pos < 24 * 80) : Tidy t := by
  refine ⟨h.indices.congr hring.r hring.w hring.e, ?_, ?_, hcmds, hscreen⟩
  · rw [hring.unread]
    exact h.queue
  · rw [hring.pending]
    exact h.edit

theorem Tidy.eraseChar (h : Tidy s) (hne : s.e ≠ s.w) : Tidy (eraseChar s) := by
  refine ⟨h.indices.eraseChar hne, h.queue, ?_, h.cmds, Screen.pos_cgaputc h.screen _⟩
  rw [pending_eraseChar h.indices hne]
  exact ⟨fun h0 => h.edit.1 (List.mem_of_mem_dropLast h0),
    fun h0 => h.edit.2 (List.mem_of_mem_dropLast h0)⟩

theorem Tidy.eraseWhile (h : Tidy s) (k : Nat) : Tidy (eraseWhile k s) := by
  induction k generalizing s with
  | zero => exact h
  | succ k ih =>
    rw [Console.eraseWhile]
    split
    · rename_i hcond
      exact ih (h.eraseChar hcond.1)
    · exact h

theorem Tidy.append (h : Tidy s) {c : UInt8} (hc : c ≠ 0) (hnl : c ≠ newline)
    (hroom : sub32 s.e s.w < inputBuf) : Tidy (append c s) := by
  refine ⟨h.indices.append c hroom, ?_, ?_, h.cmds, h.screen⟩
  · intro h0
    rcases mem_window_update h0 with h0 | h0
    · exact hc h0.symm
    · exact h.queue h0
  · rw [pending_append h.indices c hroom]
    simp only [List.mem_append, List.mem_singleton, not_or]
    exact ⟨⟨h.edit.1, fun h0 => hc h0.symm⟩, h.edit.2, fun h0 => hnl h0.symm⟩

theorem Tidy.appendAll (h : Tidy s) {text : List UInt8} (hzero : 0 ∉ text) (hnl : newline ∉ text)
    (hroom : sub32 s.e s.w + text.length ≤ inputBuf) : Tidy (appendAll text s) := by
  induction text generalizing s with
  | nil => exact h
  | cons c text ih =>
    rw [List.length_cons] at hroom
    rw [List.mem_cons, not_or] at hzero hnl
    have hnext := h.append (fun h0 => hzero.1 h0.symm) (fun h0 => hnl.1 h0.symm) (c := c) (by omega)
    refine ih (s := Console.append c s) hnext hzero.2 hnl.2 ?_
    have hlen : (pending (Console.append c s)).length = (pending s).length + 1 := by
      rw [pending_append h.indices c (by omega), List.length_append, List.length_singleton]
    rw [length_pending, length_pending] at hlen
    show sub32 (Console.append c s).e (Console.append c s).w + text.length ≤ inputBuf
    omega

theorem Tidy.plainKey (h : Tidy s) (c : UInt8) : Tidy (plainKey c s) := by
  by_cases hc : c ≠ 0 ∧ sub32 s.e s.r < inputBuf
  · have hspan := h.indices.span
    have hfits : Fits s := ⟨h.indices, by omega⟩
    have hd : (if c = carriageReturn then newline else c) ≠ 0 := by
      split
      · decide
      · exact hc.1
    rw [Console.plainKey, if_pos hc]
    generalize (if c = carriageReturn then newline else c) = d at hd
    obtain ⟨hfits', hunread, hpending⟩ := acceptKey_ring hfits hc.2 d
    have hzero : 0 ∉ (acceptChar d (unread s).length (pending s)).1 ∧
        0 ∉ (acceptChar d (unread s).length (pending s)).2 := by
      have hmem : 0 ∉ pending s ++ [d] := by
        rw [List.mem_append, List.mem_singleton, not_or]
        exact ⟨h.edit.1, fun h0 => hd h0.symm⟩
      rw [acceptChar]
      split
      · exact ⟨hmem, by simp⟩
      · exact ⟨by simp, hmem⟩
    refine ⟨hfits'.toIndices, ?_, ?_, ?_, ?_⟩
    · rw [hunread, List.mem_append, not_or]
      exact ⟨h.queue, hzero.1⟩
    · rw [hpending]
      exact ⟨hzero.2, newline_not_mem_acceptChar h.edit.2⟩
    · rcases acceptKey_eq (s := s) d with heq | heq
      all_goals
        rw [heq]
        exact h.cmds
    · rcases acceptKey_eq (s := s) d with heq | heq
      all_goals
        rw [heq]
        exact Screen.pos_cgaputc h.screen _
  · rw [Console.plainKey, if_neg hc]
    exact h

/-- The string of a row holds neither a NUL nor a newline. -/
theorem Stored.clean {cmds : Nat → UInt8} (hcmds : ∀ k, cmds k ≠ newline) {a : Nat} {text : List UInt8}
    (h : Stored cmds a text) : 0 ∉ text ∧ newline ∉ text := by
  induction text generalizing a with
  | nil => simp
  | cons c text ih =>
    obtain ⟨hc, hzero, hrest⟩ := h
    obtain ⟨h1, h2⟩ := ih hrest
    simp only [List.mem_cons, not_or]
    exact ⟨⟨fun h0 => hzero h0.symm, h1⟩, fun h0 => hcmds a (hc.trans h0.symm), h2⟩

/-- A row is brought back whole when the key starts at its first column. -/
structure Brought (s t : State Proc) (line : List UInt8) : Prop where
  edit : pending t = line
  shows : t.screen.Shows line
  place : (t.screen.pos - line.length) % 80 = (s.screen.pos - (pending s).length) % 80
  cmds : t.prevCmds = s.prevCmds
  row : t.indexToDim1 = s.indexToDim1
  count : t.hasInserted = s.hasInserted
  cursor : t.currInd1 = olderCmd s

/-- Erasing goes back on the screen as far as in the ring. -/
theorem pos_eraseWhile (h : Tidy s) (k : Nat) :
    (eraseWhile k s).screen.pos = s.screen.pos - (sub32 s.e s.w - sub32 (eraseWhile k s).e s.w) := by
  induction k generalizing s with
  | zero =>
    show s.screen.pos = s.screen.pos - (sub32 s.e s.w - sub32 s.e s.w)
    omega
  | succ k ih =>
    rw [eraseWhile]
    split
    · rename_i hcond
      have hpos : 0 < sub32 s.e s.w :=
        Nat.pos_of_ne_zero fun h0 => hcond.1 ((sub32_eq_zero h.indices.e h.indices.w).mp h0)
      have hle := length_pending_eraseWhile (h.eraseChar hcond.1).indices k
      have hone : sub32 (eraseChar s).e s.w = sub32 s.e s.w - 1 :=
        sub32_pred_left h.indices.e h.indices.w hpos
      have hscreen : (eraseChar s).screen.pos = s.screen.pos - 1 := Screen.pos_backspace h.screen
      have hnext := ih (s := eraseChar s) (h.eraseChar hcond.1)
      rw [hnext, hscreen]
      show _ - 1 - (sub32 (eraseChar s).e s.w - sub32 (eraseWhile k (eraseChar s)).e s.w) = _
      have hle' : sub32 (eraseWhile k (eraseChar s)).e s.w ≤ sub32 (eraseChar s).e s.w := hle
      omega
    · omega

/-- The line is gone after erasing. -/
theorem Tidy.eraseLine (h : Tidy s) :
    Tidy (eraseLine s) ∧ sub32 (eraseLine s).e (eraseLine s).w = 0 ∧
      (eraseLine s).screen.pos = s.screen.pos - (pending s).length := by
  have hgone := pending_eraseLine h.indices h.edit.2
  have hzero : sub32 (Console.eraseLine s).e (Console.eraseLine s).w = 0 := by
    rw [← length_pending, hgone]
    rfl
  refine ⟨h.eraseWhile _, hzero, ?_⟩
  have hpos : (Console.eraseLine s).screen.pos =
      s.screen.pos - (sub32 s.e s.w - sub32 (Console.eraseLine s).e s.w) :=
    pos_eraseWhile h (sub32 s.e s.w)
  rw [(eraseLine_r s).2] at hzero
  rw [hpos, hzero, Nat.sub_zero, length_pending]

theorem appendAll_screen (text : List UInt8) (s : State Proc) :
    (appendAll text s).screen = s.screen := by
  obtain ⟨buf, e, heq⟩ := appendAll_eq (s := s) text
  rw [heq]

/-- A history key keeps the ring tidy. -/
theorem Tidy.copied (h : Tidy s) {text shown : List UInt8} {a : Nat}
    (htext : Stored s.prevCmds a text) (hlen : text.length < cmdSize) (row : Int) :
    Tidy { Console.appendAll text (Console.eraseLine s) with
      screen := (Console.appendAll text (Console.eraseLine s)).screen.print shown
      currInd1 := row } := by
  obtain ⟨htidy, hzero, -⟩ := h.eraseLine
  obtain ⟨h0, hnl⟩ := htext.clean h.cmds
  simp only [cmdSize] at hlen
  have hall := htidy.appendAll h0 hnl (by rw [hzero]; simp only [inputBuf]; omega)
  exact hall.same ⟨rfl, rfl, rfl, rfl⟩ hall.cmds (Screen.pos_print hall.screen shown)

theorem Tidy.handleKey (h : Tidy s) (hb : Bounds s) {ind ind' : Nat} (hind : ind < cmdSize) {c : UInt8}
    {listing : List UInt8} (hkey : handleKey ind c listing s = some (ind', t)) : Tidy t := by
  by_cases hI : isHistoryKey c = true
  · rw [handleKey_historyKey hI] at hkey
    by_cases hany : s.hasInserted = 0
    · rw [historyKey, if_pos hany] at hkey
      cases hkey
      exact h
    · obtain ⟨i, text, shown, hi, hcur, htext, hlen, hshown, hlen'⟩ := hb.texts hind
      obtain ⟨-, -, heq⟩ := historyKey_stored hany hi hcur htext hlen hshown hlen'
      rw [heq] at hkey
      obtain ⟨rfl, rfl⟩ := Prod.mk.inj (Option.some.inj hkey)
      exact h.copied htext (by omega) _
  · rw [Console.handleKey] at hkey
    split_ifs at hkey with hP hU hH hne
    · cases hkey
      exact h.same ⟨rfl, rfl, rfl, rfl⟩ h.cmds (Screen.pos_print h.screen listing)
    · cases hkey
      exact h.eraseLine.1
    · cases hkey
      exact h.eraseChar hne
    · cases hkey
      exact h
    · cases hkey
      exact h.plainKey c

/-- The first history key of an interrupt brings back the row under the cursor. -/
theorem historyKey_brought (h : Tidy s) (hany : s.hasInserted ≠ 0) {i : Nat} {line : List UInt8}
    (hi : i < historySize) (hcur : s.currInd1 = i) (hline : Stored s.prevCmds (cmdSize * i) line)
    (hlen : line.length < cmdSize) :
    ∃ t, historyKey 0 s = some (line.length, t) ∧ Brought s t line := by
  obtain ⟨-, -, heq⟩ := historyKey_stored hany hi hcur (Nat.add_zero (cmdSize * i) ▸ hline)
    (by omega) hline hlen
  rw [Nat.zero_add] at heq
  refine ⟨_, heq, ?_⟩
  obtain ⟨htidy, hzero, hpos⟩ := h.eraseLine
  obtain ⟨-, hnl⟩ := hline.clean h.cmds
  have hsame := (sameHistory_eraseLine s).trans (sameHistory_appendAll line (eraseLine s))
  have hscreen := appendAll_screen line (eraseLine s)
  have hgone : pending (eraseLine s) = [] := pending_eraseLine h.indices h.edit.2
  have hroom : sub32 (eraseLine s).e (eraseLine s).w + line.length ≤ inputBuf := by
    simp only [cmdSize] at hlen
    rw [hzero]
    simp only [inputBuf]
    omega
  have hedit := pending_appendAll htidy.indices hroom
  rw [hgone, List.nil_append] at hedit
  obtain ⟨hshows, hmod⟩ := Screen.shows_print (t := (eraseLine s).screen) htidy.screen hnl hlen.le
  rw [hpos] at hmod
  refine ⟨hedit, ?_, ?_, hsame.cmds, hsame.row, hsame.count, ?_⟩
  · show Screen.Shows (Screen.print line (appendAll line (eraseLine s)).screen) line
    rw [hscreen]
    exact hshows
  · show ((Screen.print line (appendAll line (eraseLine s)).screen).pos - line.length) % 80 = _
    rw [hscreen]
    have hle := hshows.1
    omega
  · show olderCmd (appendAll line (eraseLine s)) = olderCmd s
    rw [olderCmd, hsame.cursor, hsame.count, hsame.row]
    rfl

/-! The lines that have been read. -/

/-- What one who watches the run notes: the lines completed, the one begun, whether an end of file was
read, the history keys since the last line was completed, whether they came one after the other with
nothing typed and nothing half read between them, and the column the first of them started in. -/
structure Past where
  lines : List (List UInt8)
  part : List UInt8
  eof : Bool
  presses : Nat
  alone : Bool
  column : Nat
  deriving DecidableEq

namespace Past

def empty : Past := ⟨[], [], false, 0, true, 0⟩

def byte (p : Past) (c : UInt8) : Past :=
  if c = ctrl 'D' then { p with eof := true }
  else if c = newline then
    { p with lines := p.lines ++ [p.part], part := [], presses := 0, alone := true }
  else { p with part := p.part ++ [c] }

def press (p : Past) (s : State Proc) : Past :=
  { p with
    presses := p.presses + 1, alone := p.alone && p.part.isEmpty
    column := if p.presses = 0 then (s.screen.pos - (pending s).length) % 80 else p.column }

def observe (p : Past) (s : State Proc) : Act Proc → List (Event Proc) → Past
  | .go, _ => ((nextByte s).map p.byte).getD p
  | .key c _, _ =>
    if isHistoryKey c then p.press s else { p with alone := p.alone && p.presses == 0 }
  | _, _ => p

/-- How many lines a history key can bring back. -/
def depth (p : Past) : Nat := min p.lines.length historySize

/-- All lines are non-empty and fit their row, none ended by an end of file, and they can be counted. -/
structure Good (p : Past) : Prop where
  lines : ∀ l ∈ p.lines, l ≠ [] ∧ l.length < cmdSize
  part : p.part.length < cmdSize
  eof : p.eof = false
  count : p.lines.length < 2 ^ 31

/-- The row to be written next. -/
def row (p : Past) : Nat :=
  if p.part = [] then if p.lines = [] then 0 else (p.lines.length - 1) % historySize + 1
  else p.lines.length % historySize

end Past

/-- The history holds the last sixteen lines, but for the one whose row is being written. -/
structure Memory (s : State Proc) (p : Past) : Prop where
  row : s.indexToDim1 = p.row
  column : s.indexToDim2 = p.part.length
  count : s.hasInserted = p.lines.length
  lines : ∀ k l, p.lines[k]? = some l → p.lines.length ≤ k + historySize →
    (p.part ≠ [] → p.lines.length < k + historySize) →
      Stored s.prevCmds (cmdSize * (k % historySize)) l
  part : ∀ i c, p.part[i]? = some c →
    s.prevCmds (cmdSize * (p.lines.length % historySize) + i) = c ∧ c ≠ 0
  cursor : p.alone = true → p.lines ≠ [] →
    s.currInd1 = ((p.lines.length - 1 - p.presses % p.depth) % historySize : Nat)

variable {p : Past} {c : UInt8}

theorem Memory.same (h : Memory s p) (hsame : SameHistory s t) : Memory t p := by
  obtain ⟨h1, h2, h3, h4, h5⟩ := hsame
  refine ⟨?_, ?_, ?_, ?_, ?_, ?_⟩
  · rw [h2]; exact h.row
  · rw [h3]; exact h.column
  · rw [h5]; exact h.count
  · rw [h1]; exact h.lines
  · rw [h1]; exact h.part
  · rw [h4]; exact h.cursor

/-- A store away from a string leaves it. -/
theorem Stored.update {cmds : Nat → UInt8} {a k : Nat} {text : List UInt8} (h : Stored cmds a text)
    (hk : k < a ∨ a + text.length < k) (c : UInt8) : Stored (update cmds k c) a text := by
  induction text generalizing a with
  | nil =>
    rw [List.length_nil] at hk
    show Function.update cmds k c a = 0
    rw [update_of_ne (by omega)]
    exact h
  | cons d text ih =>
    rw [List.length_cons] at hk
    obtain ⟨hd, hzero, hrest⟩ := h
    refine ⟨?_, hzero, ih hrest (by omega)⟩
    rw [update_of_ne (by omega)]
    exact hd

/-- The bytes of a line and the NUL behind them. -/
theorem stored_of_bytes {cmds : Nat → UInt8} {a : Nat} {text : List UInt8}
    (h : ∀ i c, text[i]? = some c → cmds (a + i) = c ∧ c ≠ 0) (hend : cmds (a + text.length) = 0) :
    Stored cmds a text := by
  induction text generalizing a with
  | nil => exact hend
  | cons c text ih =>
    obtain ⟨hc, hzero⟩ := h 0 c rfl
    refine ⟨hc, hzero, ih ?_ ?_⟩
    · intro i d hd
      rw [Nat.add_assoc, Nat.add_comm 1 i]
      exact h (i + 1) d hd
    · rw [Nat.add_assoc, Nat.add_comm 1]
      exact hend

/-- The row the next byte goes to. -/
theorem Memory.cmdRow (h : Memory s p) {c : UInt8} (hc : c ≠ ctrl 'D' ∧ c ≠ newline) :
    cmdRow s c = (p.lines.length % historySize : Nat) := by
  have hrow := h.row
  rw [Past.row] at hrow
  by_cases hwrap : (historySize : Int) ≤ s.indexToDim1
  · rw [Console.cmdRow, if_pos ⟨hc, hwrap⟩]
    simp only [historySize] at *
    split_ifs at hrow <;> omega
  · rw [Console.cmdRow, if_neg fun hboth => hwrap hboth.2]
    simp only [historySize] at *
    split_ifs at hrow with _ hlines
    · rw [hrow, hlines]
      rfl
    · have hpos : p.lines.length ≠ 0 := fun h0 => hlines (List.eq_nil_of_length_eq_zero h0)
      omega
    · exact hrow

theorem rows_apart {k n a b : Nat} (hk : k < n) (hn : n < k + historySize) (ha : a < cmdSize)
    (hb : b < cmdSize) :
    cmdSize * (n % historySize) + b < cmdSize * (k % historySize) ∨
      cmdSize * (k % historySize) + a < cmdSize * (n % historySize) + b := by
  simp only [historySize, cmdSize] at *
  omega

theorem Memory.char (h : Memory s p) (hgood : (Past.Good { p with part := p.part ++ [c] }))
    (hc : c ≠ ctrl 'D' ∧ c ≠ newline) (hzero : c ≠ 0) :
    RowFits s c ∧ Memory (record c s) { p with part := p.part ++ [c] } := by
  have hlen := hgood.part
  rw [List.length_append, List.length_singleton] at hlen
  simp only [cmdSize] at hlen
  have hrow := h.cmdRow hc
  have hcol := h.column
  have haddr : recordAddr s c = ((cmdSize * (p.lines.length % historySize) + p.part.length : Nat) : Int) := by
    rw [recordAddr, hrow, hcol]
    exact cmdAddr_cast _ _
  have hin : recordAddr s c < historySize * cmdSize := by
    rw [haddr]
    simp only [historySize, cmdSize]
    omega
  have hfit : RowFits s c := by
    rw [RowFits, if_pos hc, hcol]
    simp only [cmdSize]
    omega
  refine ⟨hfit, ?_⟩
  rw [record_char hc (by omega) hin (by omega) (by rw [hcol]; simp only [cmdSize]; omega), haddr,
    Int.toNat_natCast]
  have hne : p.part ++ [c] ≠ [] := by simp
  refine ⟨?_, ?_, h.count, ?_, ?_, h.cursor⟩
  · show Console.cmdRow s c = _
    rw [hrow, Past.row, if_neg hne]
  · show s.indexToDim2 + 1 = _
    rw [hcol, List.length_append, List.length_singleton]
    push_cast
    rfl
  · intro k l hl hk hpart
    have hlt := hpart hne
    have hkl : k < p.lines.length := (List.getElem?_eq_some_iff.mp hl).1
    have hfits := (hgood.lines l (List.mem_of_getElem? hl)).2
    apply Stored.update (h.lines k l hl hk fun _ => hlt)
    exact rows_apart hkl hlt hfits (Nat.lt_of_succ_lt hlen)
  · intro i d hd
    show update s.prevCmds _ c (cmdSize * (p.lines.length % historySize) + i) = d ∧ d ≠ 0
    rcases Nat.lt_trichotomy i p.part.length with hi | rfl | hi
    · rw [List.getElem?_append_left hi] at hd
      rw [update_of_ne (by omega)]
      exact h.part i d hd
    · rw [List.getElem?_concat_length] at hd
      rw [update_self]
      cases hd
      exact ⟨rfl, hzero⟩
    · rw [List.getElem?_eq_none (by rw [List.length_append, List.length_singleton]; omega)] at hd
      cases hd

theorem Memory.newline (h : Memory s p)
    (hgood : Past.Good
      { p with lines := p.lines ++ [p.part], part := [], presses := 0, alone := true }) :
    RowFits s newline ∧ Memory (record newline s)
      { p with lines := p.lines ++ [p.part], part := [], presses := 0, alone := true } := by
  have hcount := hgood.count
  rw [List.length_append, List.length_singleton] at hcount
  obtain ⟨hne, hlen⟩ := hgood.lines p.part (List.mem_append_right _ List.mem_cons_self)
  have hrow : s.indexToDim1 = (p.lines.length % historySize : Nat) := by
    rw [h.row, Past.row, if_neg hne]
  have hcol := h.column
  have hend : ¬ (Console.newline ≠ ctrl 'D' ∧ Console.newline ≠ Console.newline) := by simp
  have hsame : Console.cmdRow s Console.newline = s.indexToDim1 := if_neg fun hboth => hend hboth.1
  have haddr : recordAddr s Console.newline =
      ((cmdSize * (p.lines.length % historySize) + p.part.length : Nat) : Int) := by
    rw [recordAddr, hsame, hrow, hcol]
    exact cmdAddr_cast _ _
  have hin : recordAddr s Console.newline < historySize * cmdSize := by
    rw [haddr]
    simp only [historySize, cmdSize] at *
    omega
  have hlt : s.indexToDim1 < historySize := by
    rw [hrow]
    simp only [historySize]
    omega
  have hfit : RowFits s Console.newline := by
    rw [RowFits, if_neg hend, h.count]
    exact ⟨hlt, by omega⟩
  refine ⟨hfit, ?_⟩
  rw [(record_end hend (by omega) hin).2, haddr, Int.toNat_natCast,
    incr32_of_lt (by omega) (by simp only [historySize] at hlt; omega), h.count,
    incr32_of_lt (by omega) (by omega)]
  have hsnoc : p.lines ++ [p.part] ≠ [] := by simp
  refine ⟨?_, rfl, ?_, ?_, by simp, ?_⟩
  · show s.indexToDim1 + 1 = _
    rw [hrow, Past.row, if_pos rfl, if_neg hsnoc, List.length_append, List.length_singleton,
      Nat.add_sub_cancel]
    push_cast
    rfl
  · rw [List.length_append, List.length_singleton]
    push_cast
    rfl
  · intro k l hl hk _
    rw [List.length_append, List.length_singleton] at hk
    rcases Nat.lt_or_ge k p.lines.length with hkl | hkl
    · rw [List.getElem?_append_left hkl] at hl
      have hfits := (hgood.lines l (List.mem_append_left _ (List.mem_of_getElem? hl))).2
      apply Stored.update (h.lines k l hl (by omega) fun _ => by omega)
      exact rows_apart hkl (by omega) hfits hlen
    · have hk' : k = p.lines.length := by
        have := (List.getElem?_eq_some_iff.mp hl).1
        rw [List.length_append, List.length_singleton] at this
        omega
      subst hk'
      rw [List.getElem?_concat_length] at hl
      cases hl
      apply stored_of_bytes
      · intro i c hc
        have hi : i < p.part.length := (List.getElem?_eq_some_iff.mp hc).1
        show update s.prevCmds _ _ (cmdSize * (p.lines.length % historySize) + i) = c ∧ c ≠ 0
        rw [update_of_ne (by omega)]
        exact h.part i c hc
      · exact update_self _ _ _
  · intro _ _
    show s.indexToDim1 = _
    rw [hrow, List.length_append, List.length_singleton, Nat.add_sub_cancel, Nat.zero_mod, Nat.sub_zero]

theorem Memory.take (h : Memory s p) (hgood : (p.byte c).Good) (hzero : c ≠ 0) :
    RowFits s c ∧ Memory (record c s) (p.byte c) := by
  rw [Past.byte] at *
  by_cases hD : c = ctrl 'D'
  · rw [if_pos hD] at hgood
    cases hgood.eof
  · rw [if_neg hD] at *
    by_cases hnl : c = Console.newline
    · rw [if_pos hnl] at *
      subst hnl
      exact h.newline hgood
    · rw [if_neg hnl] at *
      exact h.char hgood ⟨hD, hnl⟩ hzero

/-- What was good later was good before. -/
theorem Past.Good.of_byte (h : (p.byte c).Good) : p.Good := by
  rw [Past.byte] at h
  split_ifs at h with hD hnl
  · cases h.eof
  · obtain ⟨h1, h2, h3, h4⟩ := h
    have hcount : p.lines.length + 1 < 2 ^ 31 := by
      rw [List.length_append, List.length_singleton] at h4
      exact h4
    exact ⟨fun l hl => h1 l (List.mem_append_left _ hl),
      (h1 p.part (List.mem_append_right _ List.mem_cons_self)).2, h3, by omega⟩
  · obtain ⟨h1, h2, h3, h4⟩ := h
    rw [List.length_append] at h2
    exact ⟨h1, by omega, h3, h4⟩

theorem Bounds.storesInside (h : Bounds s) (hfit : ∀ c ∈ nextByte s, RowFits s c) : StoresInside s := by
  intro c hc
  obtain ⟨h1, h2⟩ := h.cmdRow (hfit c hc)
  obtain ⟨h3, h4⟩ := h.column
  simp only [recordAddr, cmdAddr, historySize, cmdSize] at *
  omega

theorem record_cmds {c : UInt8} (h : 0 ≤ recordAddr s c ∧ recordAddr s c < historySize * cmdSize) :
    (record c s).prevCmds = update s.prevCmds (recordAddr s c).toNat
      (if c ≠ ctrl 'D' ∧ c ≠ newline then c else 0) := by
  obtain ⟨h0, hlt⟩ := h
  rw [record]
  by_cases hc : c ≠ ctrl 'D' ∧ c ≠ newline
  · rw [if_pos hc, if_pos hc]
    by_cases hrow : (historySize : Int) ≤ s.indexToDim1
    · have hzero : cmdRow s c = 0 := if_pos ⟨hc, hrow⟩
      rw [recordAddr, hzero] at h0 hlt ⊢
      simp only [if_pos hrow, State.poke_cmd h0 hlt]
    · have hsame : cmdRow s c = s.indexToDim1 := if_neg fun hboth => hrow hboth.2
      rw [recordAddr, hsame] at h0 hlt ⊢
      simp only [if_neg hrow, State.poke_cmd h0 hlt]
  · have hsame : cmdRow s c = s.indexToDim1 := if_neg fun hboth => hc hboth.1
    rw [recordAddr, hsame] at h0 hlt ⊢
    simp only [if_neg hc, State.poke_cmd h0 hlt]

theorem nextByte_mem (h : Indices s) (hc : nextByte s = some c) : c ∈ unread s := by
  rw [nextByte] at hc
  split at hc
  · split at hc
    · split_ifs at hc with hstop
      rw [not_or] at hstop
      obtain ⟨-, -, hcons, -⟩ := take_indices (t := { s with r := (s.r + 1) % uintSize }) h hstop.2
        rfl rfl rfl rfl
      cases hc
      rw [hcons]
      exact List.mem_cons_self
    · cases hc
  · cases hc

theorem Past.Good.of_observe {a : Act Proc} {events : List (Event Proc)}
    (h : (p.observe s a events).Good) : p.Good := by
  cases a with
  | go =>
    rw [Past.observe] at h
    cases hnext : nextByte s with
    | none =>
      rw [hnext] at h
      exact h
    | some c =>
      rw [hnext] at h
      exact Past.Good.of_byte (c := c) h
  | key c listing =>
    rw [Past.observe] at h
    split_ifs at h
    · exact ⟨h.lines, h.part, h.eof, h.count⟩
    · exact ⟨h.lines, h.part, h.eof, h.count⟩
  | enter | leave | read | wake | kill => exact h

/-! Recalling. -/

/-- The line a number of history keys brings back, counted from the last one. -/
def Past.recalled (p : Past) : Option (List UInt8) := p.lines.reverse[(p.presses - 1) % p.depth]?

/-- The pending line is the one to be brought back, on the screen too, where the first key found the
cursor. -/
structure Shown (s : State Proc) (p : Past) : Prop where
  edit : p.recalled = some (pending s)
  shows : s.screen.Shows (pending s)
  column : (s.screen.pos - (pending s).length) % 80 = p.column

theorem Shown.same (h : Shown s p) (hpending : pending t = pending s) (hscreen : t.screen = s.screen) :
    Shown t p := by
  refine ⟨?_, ?_, ?_⟩
  · rw [hpending]; exact h.edit
  · rw [hpending, hscreen]; exact h.shows
  · rw [hpending, hscreen]; exact h.column

structure Recalls (s : State Proc) (p : Past) : Prop where
  bounds : Bounds s
  tidy : Tidy s
  memory : Memory s p
  shown : p.alone = true → 0 < p.presses → p.lines ≠ [] → Shown s p

/-- The row under the cursor holds the line the next key is to bring back. -/
theorem Memory.next (h : Memory s p) (halone : p.alone = true) (hpart : p.part = [])
    (hlines : p.lines ≠ []) :
    ∃ i line, i < historySize ∧ s.currInd1 = (i : Nat) ∧
      p.lines.reverse[p.presses % p.depth]? = some line ∧
      Stored s.prevCmds (cmdSize * i) line := by
  have hpos : 0 < p.lines.length := List.length_pos_iff.mpr hlines
  have hdepth : 0 < p.depth ∧ p.depth ≤ p.lines.length ∧ p.depth ≤ historySize := by
    simp only [Past.depth, historySize]
    omega
  have hmod := Nat.mod_lt p.presses hdepth.1
  have hcur := h.cursor halone hlines
  have hget : p.lines[p.lines.length - 1 - p.presses % p.depth]? =
      some (p.lines.get ⟨p.lines.length - 1 - p.presses % p.depth, by omega⟩) :=
    List.getElem?_eq_getElem (by omega)
  refine ⟨_, _, Nat.mod_lt _ (by decide), hcur, ?_, h.lines _ _ hget (by omega) fun hne => absurd hpart hne⟩
  rw [List.getElem?_reverse (by omega)]
  exact hget

/-- The cursor goes round the lines there are. -/
theorem cursor_back {n k : Nat} (hn : 0 < n) (hcur : s.currInd1 = ((n - 1 - k % min n 16) % 16 : Nat))
    (hcount : s.hasInserted = n) (hrow : s.indexToDim1 = ((n - 1) % 16 + 1 : Nat)) :
    olderCmd s = ((n - 1 - (k + 1) % min n 16) % 16 : Nat) := by
  have hmod := Nat.mod_lt k (show 0 < min n 16 by omega)
  have hsucc : (k + 1) % min n 16 = if k % min n 16 + 1 = min n 16 then 0 else k % min n 16 + 1 := by
    rw [← Nat.mod_add_mod]
    split_ifs with hlast
    · rw [hlast, Nat.mod_self]
    · exact Nat.mod_eq_of_lt (by omega)
  rw [olderCmd, hsucc]
  split_ifs <;> omega

/-- A history key touches nothing of the history but the cursor. -/
theorem historyKey_keeps {ind ind' : Nat} (hkey : historyKey ind s = some (ind', t)) :
    t.prevCmds = s.prevCmds ∧ t.indexToDim1 = s.indexToDim1 ∧ t.indexToDim2 = s.indexToDim2 ∧
      t.hasInserted = s.hasInserted := by
  by_cases hany : s.hasInserted = 0
  · rw [historyKey, if_pos hany] at hkey
    cases hkey
    exact ⟨rfl, rfl, rfl, rfl⟩
  · obtain ⟨u, shown, hcopy, -, rfl⟩ := historyKey_eq hany hkey
    obtain ⟨text, -, rfl, -⟩ := copyCmd_eq hcopy
    have hsame := (sameHistory_eraseLine s).trans (sameHistory_appendAll text (eraseLine s))
    exact ⟨hsame.cmds, hsame.row, hsame.column, hsame.count⟩

/-- A key with nothing brought back yet in its interrupt. -/
theorem Recalls.press (h : Recalls s p) (hgood : p.Good) {ind : Nat}
    (hkey : historyKey 0 s = some (ind, t)) :
    Memory t (p.press s) ∧ ((p.press s).alone = true → p.lines ≠ [] → Shown t (p.press s)) := by
  obtain ⟨hcmds, hrow, hcolumn, hcount⟩ := historyKey_keeps hkey
  have hmemory := h.memory
  have hkept : ((p.press s).alone = true → p.lines ≠ [] → s.hasInserted ≠ 0 ∧
      t.currInd1 = ((p.lines.length - 1 - (p.presses + 1) % p.depth) % historySize : Nat) ∧
      Shown t (p.press s)) := by
    intro halone hlines
    have hboth : p.alone = true ∧ p.part = [] := by
      simpa [Past.press] using halone
    have hpos : 0 < p.lines.length := List.length_pos_iff.mpr hlines
    have hany : s.hasInserted ≠ 0 := by
      rw [hmemory.count]
      omega
    obtain ⟨i, line, hi, hcur, hline, hstored⟩ := hmemory.next hboth.1 hboth.2 hlines
    have hmem : line ∈ p.lines := List.mem_reverse.mp (List.mem_of_getElem? hline)
    obtain ⟨u, hu, hbrought⟩ := historyKey_brought h.tidy hany hi hcur hstored (hgood.lines _ hmem).2
    rw [hkey] at hu
    obtain ⟨-, rfl⟩ := Prod.mk.inj (Option.some.inj hu)
    refine ⟨hany, ?_, ?_, ?_, ?_⟩
    · rw [hbrought.cursor]
      apply cursor_back hpos (hmemory.cursor hboth.1 hlines) hmemory.count
      rw [hmemory.row, Past.row, if_pos hboth.2, if_neg hlines]
      rfl
    · rw [hbrought.edit]
      exact hline
    · rw [hbrought.edit]
      exact hbrought.shows
    · rw [hbrought.edit, hbrought.place]
      show _ = if p.presses = 0 then _ else _
      split_ifs with hfirst
      · rfl
      · exact (h.shown hboth.1 (Nat.pos_of_ne_zero hfirst) hlines).column
  refine ⟨⟨?_, ?_, ?_, ?_, ?_, ?_⟩, fun halone hlines => (hkept halone hlines).2.2⟩
  · rw [hrow]; exact hmemory.row
  · rw [hcolumn]; exact hmemory.column
  · rw [hcount]; exact hmemory.count
  · rw [hcmds]; exact hmemory.lines
  · rw [hcmds]; exact hmemory.part
  · exact fun halone hlines => (hkept halone hlines).2.1

variable [DecidableEq Proc]

theorem go_pending {events : List (Event Proc)} (h : Indices s) (hstore : StoresBelow s)
    (hstep : step s .go = some (t, events)) :
    Indices t ∧ (∀ c ∈ unread t, c ∈ unread s) ∧ pending t = pending s := by
  simp only [step] at hstep
  split at hstep
  · rename_i p hlock
    split at hstep
    · rename_i rd hrd
      obtain ⟨hbuf, hw, he, hr⟩ := readStep_ring h.r hlock hrd hstore
      have ht : (readStep p rd s).1 = t := congrArg Prod.fst (Option.some.inj hstep)
      rw [ht] at hbuf hw he hr
      rcases hr with hr | ⟨hne, hr⟩
      · refine ⟨h.congr hr hw he, ?_, pending_congr hbuf hw he⟩
        rw [unread_congr hbuf hr hw]
        exact fun c hc => hc
      · obtain ⟨hind, -, hcons, hpending⟩ := take_indices h hne hbuf hr hw he
        refine ⟨hind, fun c hc => ?_, hpending⟩
        rw [hcons]
        exact List.mem_cons_of_mem _ hc
    · cases hstep
  · cases hstep

theorem Tidy.go {events : List (Event Proc)} (h : Tidy s) (hstore : StoresInside s)
    (hstep : step s .go = some (t, events)) : Tidy t ∧ pending t = pending s := by
  obtain ⟨hind, hunread, hpending⟩ := go_pending h.indices hstore.below hstep
  obtain ⟨-, -, hscreen, hhistory⟩ := go_history hstep
  refine ⟨⟨hind, fun h0 => h.queue (hunread 0 h0), ?_, ?_, ?_⟩, hpending⟩
  · rw [hpending]
    exact h.edit
  · rcases hhistory with ⟨-, hsame⟩ | ⟨c, hc, hsame⟩
    · rw [hsame.cmds]
      exact h.cmds
    · have hrecord := record_cmds (s := { s with r := (s.r + 1) % uintSize }) (hstore c hc)
      intro k
      rw [hsame.cmds, hrecord, update_apply]
      split_ifs with hk hchar
      · exact hchar.2
      · decide
      · exact h.cmds k
  · rw [hscreen]
    exact h.screen

/-- A history key is the first of its interrupt to bring anything back. -/
def RecallGuard (s : State Proc) : Act Proc → Prop
  | .key c _ => isHistoryKey c = true → s.lock = .intr 0
  | _ => True

/-- The other steps leave the history and the screen alone. -/
theorem step_history {a : Act Proc} {events : List (Event Proc)} (hstep : step s a = some (t, events))
    (hgo : a ≠ .go) (hkey : ∀ c listing, a ≠ .key c listing) :
    SameHistory s t ∧ t.screen = s.screen := by
  cases a with
  | go => exact absurd rfl hgo
  | key c listing => exact absurd rfl (hkey c listing)
  | kill p =>
    cases hstep
    exact ⟨⟨rfl, rfl, rfl, rfl, rfl⟩, rfl⟩
  | enter | leave | read p n | wake p =>
    simp only [step] at hstep
    repeat' split at hstep
    all_goals cases hstep
    all_goals exact ⟨⟨rfl, rfl, rfl, rfl, rfl⟩, rfl⟩

theorem Recalls.other {a : Act Proc} {events : List (Event Proc)} (h : Recalls s p)
    (hgo : a ≠ .go) (hkey : ∀ c listing, a ≠ .key c listing)
    (hstep : step s a = some (t, events)) : Recalls t p := by
  obtain ⟨hbuf, hr, hw, he⟩ := step_ring hstep hgo hkey
  obtain ⟨hsame, hscreen⟩ := step_history hstep hgo hkey
  have hguard : HistoryGuard s a := by
    cases a with
    | go => exact absurd rfl hgo
    | key | enter | leave | read | wake | kill => trivial
  have htidy : Tidy t := by
    apply h.tidy.same ⟨hbuf, hr, hw, he⟩
    · rw [hsame.cmds]
      exact h.tidy.cmds
    · rw [hscreen]
      exact h.tidy.screen
  exact ⟨h.bounds.step hguard hstep, htidy, h.memory.same hsame, fun halone hpress hlines =>
    (h.shown halone hpress hlines).same (pending_congr hbuf hw he) hscreen⟩

theorem Recalls.go {events : List (Event Proc)} (h : Recalls s p)
    (hgood : (p.observe s .go events).Good) (hstep : step s .go = some (t, events)) :
    Recalls t (p.observe s .go events) := by
  have htake : ∀ c, nextByte s = some c → (p.byte c).Good ∧ c ≠ 0 := by
    intro c hc
    rw [Past.observe, hc] at hgood
    refine ⟨hgood, fun h0 => h.tidy.queue ?_⟩
    rw [← h0]
    exact nextByte_mem h.tidy.indices hc
  have hfit : ∀ c ∈ nextByte s, RowFits s c := fun c hc =>
    (h.memory.take (htake c hc).1 (htake c hc).2).1
  obtain ⟨htidy, hpending⟩ := h.tidy.go (h.bounds.storesInside hfit) hstep
  obtain ⟨-, -, hscreen, hhistory⟩ := go_history hstep
  have hbounds := h.bounds.step (a := .go) hfit hstep
  rw [Past.observe]
  rcases hhistory with ⟨hnone, hsame⟩ | ⟨c, hc, hsame⟩
  · rw [hnone]
    exact ⟨hbounds, htidy, h.memory.same hsame, fun halone hpress hlines =>
      (h.shown halone hpress hlines).same hpending hscreen⟩
  · obtain ⟨hbyte, hzero⟩ := htake c hc
    rw [hc]
    have hmoved : Memory { s with r := (s.r + 1) % uintSize } p := h.memory.same ⟨rfl, rfl, rfl, rfl, rfl⟩
    refine ⟨hbounds, htidy, (hmoved.take hbyte hzero).2.same hsame, ?_⟩
    show (p.byte c).alone = true → 0 < (p.byte c).presses → (p.byte c).lines ≠ [] → Shown t (p.byte c)
    rw [Past.byte] at hbyte ⊢
    split_ifs at hbyte ⊢ with hD hnl
    · cases hbyte.eof
    · exact fun _ hpress => absurd hpress (Nat.lt_irrefl 0)
    · intro halone hpress hlines
      have hshown := (h.shown halone hpress hlines).same hpending hscreen
      exact ⟨hshown.edit, hshown.shows, hshown.column⟩

theorem Recalls.key {c : UInt8} {listing : List UInt8} {events : List (Event Proc)} (h : Recalls s p)
    (hgood : p.Good) (hguard : RecallGuard s (.key c listing))
    (hstep : step s (.key c listing) = some (t, events)) :
    Recalls t (p.observe s (.key c listing) events) := by
  have hbounds := h.bounds.step (a := .key c listing) trivial hstep
  simp only [step] at hstep
  split at hstep
  · rename_i ind hlock
    obtain ⟨⟨ind', u⟩, hkey, heq⟩ := Option.map_eq_some_iff.mp hstep
    obtain ⟨rfl, -⟩ := Prod.mk.inj heq
    have htidy := h.tidy.handleKey h.bounds (h.bounds.ind ind hlock) hkey
    have htidy' : Tidy { u with lock := .intr ind' } :=
      htidy.same ⟨rfl, rfl, rfl, rfl⟩ htidy.cmds htidy.screen
    rw [Past.observe]
    by_cases hI : isHistoryKey c = true
    · rw [if_pos hI]
      have hzero : ind = 0 := Lock.intr.inj (hlock.symm.trans (hguard hI))
      subst hzero
      rw [handleKey_historyKey hI] at hkey
      obtain ⟨hmemory, hshown⟩ := h.press hgood hkey
      exact ⟨hbounds, htidy', hmemory.same ⟨rfl, rfl, rfl, rfl, rfl⟩, fun halone _ hlines =>
        (hshown halone hlines).same rfl rfl⟩
    · rw [if_neg hI]
      rcases handleKey_history hkey with ⟨-, hsame⟩ | ⟨hI', -⟩
      · have hmemory := h.memory.same hsame
        refine ⟨hbounds, htidy', ⟨hmemory.row, hmemory.column, hmemory.count, hmemory.lines,
          hmemory.part, ?_⟩, ?_⟩
        · intro halone
          rw [Bool.and_eq_true] at halone
          exact hmemory.cursor halone.1
        · intro halone hpress
          rw [Bool.and_eq_true, beq_iff_eq] at halone
          exact absurd halone.2 (Nat.pos_iff_ne_zero.mp hpress)
      · exact absurd hI' hI
  · cases hstep

theorem Recalls.step {a : Act Proc} {events : List (Event Proc)} (h : Recalls s p)
    (hgood : (p.observe s a events).Good) (hguard : RecallGuard s a)
    (hstep : step s a = some (t, events)) : Recalls t (p.observe s a events) := by
  cases a with
  | go => exact h.go hgood hstep
  | key c listing => exact h.key hgood.of_observe hguard hstep
  | enter | leave | read | wake | kill =>
    exact h.other (by simp) (by simp) hstep

omit [DecidableEq Proc] in
theorem Recalls.booted (h : Booted s) : Recalls s .empty := by
  obtain ⟨hr, hw, he⟩ := h.ring
  obtain ⟨h1, h2, h3, h4⟩ := h.rows
  refine ⟨.booted h, ⟨(Fits.booted h).toIndices, ?_, ?_, ?_, h.cursor⟩, ?_, ?_⟩
  · rw [unread, hw, hr, sub32_self, window_zero]
    simp
  · rw [pending_eq_nil (he.trans hw.symm)]
    simp
  · intro k
    rw [h.cmds k]
    decide
  · refine ⟨h1, h2, h4, ?_, ?_, fun _ hne => absurd rfl hne⟩
    · simp [Past.empty]
    · simp [Past.empty]
  · exact fun _ hpress => absurd hpress (Nat.lt_irrefl 0)

theorem Recalls.observed (h : Observed RecallGuard Past.observe .empty (s, p)) (hgood : p.Good) :
    Recalls s p := by
  apply Observed.invariant (I := fun s p => p.Good → Recalls s p) _ _ h hgood
  · exact fun s hboot _ => .booted hboot
  · intro s p a t events hI hguard hstep hnext
    exact (hI hnext.of_observe).step hnext hguard hstep

/-- While no interrupt brings back two lines: the history keys pressed one after the other bring back the
lines read, the latest first, as many as there are rows, round and round, in the ring and on the screen,
and each of them is handled. -/
theorem history_recall (h : Observed RecallGuard Past.observe .empty (s, p)) (hgood : p.Good) :
    (p.alone = true → 0 < p.presses → p.lines ≠ [] →
      p.lines.reverse[(p.presses - 1) % min p.lines.length historySize]? = some (pending s) ∧
        s.screen.Shows (pending s) ∧
        (s.screen.pos - (pending s).length) % 80 = p.column) ∧
      ∀ c listing, isHistoryKey c = true → s.lock = .intr 0 → (step s (.key c listing)).isSome := by
  have hrecalls := Recalls.observed h hgood
  refine ⟨fun halone hpress hlines => ?_, fun c listing hI hlock => ?_⟩
  · obtain ⟨h1, h2, h3⟩ := hrecalls.shown halone hpress hlines
    exact ⟨h1, h2, h3⟩
  · simp only [step, hlock, handleKey_historyKey hI, Option.isSome_map]
    by_cases hany : s.hasInserted = 0
    · rw [historyKey, if_pos hany]
      rfl
    · obtain ⟨i, text, shown, hi, hcur, htext, hlen, hshown, hlen'⟩ :=
        hrecalls.bounds.texts (hrecalls.bounds.ind 0 hlock)
      rw [(historyKey_stored hany hi hcur htext hlen hshown hlen').2.2]
      rfl

instance (a : Act Proc) : Decidable (RecallGuard s a) :=
  match a with
  | .key c _ => decidable_of_iff (isHistoryKey c = true → 0 ∈ handlerInd s)
      (by simp only [mem_handlerInd, RecallGuard])
  | .go | .enter | .leave | .read _ _ | .wake _ | .kill _ => isTrue trivial

/-- The lines `a` and `bb`, typed and read. -/
def twoLines : List (Act Unit) :=
  typing [97, newline] ++ reading 10 2 ++ typing [98, 98, newline] ++ reading 10 3

/-- Two history keys after the lines `a` and `bb`. -/
def twoPresses : Past := ⟨[[97], [98, 98]], [], false, 2, true, 0⟩

theorem good_twoPresses : twoPresses.Good :=
  ⟨by decide, by decide, rfl, by decide⟩

theorem twoPresses_recall :
    ∃ s : State Unit, Observed RecallGuard Past.observe .empty (s, twoPresses) ∧ twoPresses.Good ∧
      pending s = [97] ∧ twoPresses.lines.reverse[(2 - 1) % min 2 historySize]? = some (pending s) ∧
      s.screen.Shows (pending s) := by
  have hrun : ((runs RecallGuard Past.observe bootState .empty
      (twoLines ++ typing [keyUp] ++ typing [keyUp])).map fun x =>
        decide (x.2 = twoPresses ∧ pending x.1 = [97])) = some true := by
    decide +kernel
  obtain ⟨⟨s, p⟩, hs, hx⟩ := Option.map_eq_some_iff.mp hrun
  obtain ⟨rfl, hpending⟩ := of_decide_eq_true hx
  have hreach := (Observed.boot booted_bootState).runs hs
  obtain ⟨h1, h2, -⟩ := (history_recall hreach good_twoPresses).1 rfl (by decide) (by decide)
  exact ⟨s, hreach, good_twoPresses, hpending, h1, h2⟩

/-- Two history keys in one interrupt after `a` and `bb`. The second one copies row 0 from the column
on where the first one stopped, and so nothing, but shows it whole. -/
theorem recall_stale_column :
    ∃ s : State Unit, Observed (fun _ _ => True) Past.observe .empty (s, twoPresses) ∧
      twoPresses.Good ∧ pending s = [] ∧ s.screen.crt (s.screen.pos - 1) = 97 ∧
      twoPresses.lines.reverse[(2 - 1) % min 2 historySize]? ≠ some (pending s) := by
  have hrun : ((runs (fun _ _ => True) Past.observe bootState .empty
      (twoLines ++ typing [keyUp, keyUp])).map fun x => decide (x.2 = twoPresses ∧ pending x.1 = [] ∧
        x.1.screen.crt (x.1.screen.pos - 1) = 97)) = some true := by
    decide +kernel
  obtain ⟨⟨s, p⟩, hs, hx⟩ := Option.map_eq_some_iff.mp hrun
  obtain ⟨rfl, hpending, hscreen⟩ := of_decide_eq_true hx
  refine ⟨s, (Observed.boot booted_bootState).runs hs, good_twoPresses, hpending, hscreen, ?_⟩
  rw [hpending]
  decide

end Xv6.Console
