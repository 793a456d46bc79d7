import Xv6.Console

/-! The ring of console input. What the keys do to the committed and to the pending bytes, the bound on
the three indices in runs whose history keys find room for the line they copy, and the line discipline
the readers see when no history key is pressed. -/

namespace Xv6.Console

open LibWord LibRing

-- The differences are used through their lemmas only.
attribute [local irreducible] sub32

variable {Proc : Type} {s t : State Proc}

theorem inputBuf_dvd : inputBuf ∣ uintSize := by decide

theorem slot_eq {a b : Nat} (ha : a < uintSize) (hb : b < uintSize) :
    a % inputBuf = (b + sub32 a b) % inputBuf := by
  conv_lhs => rw [← add_sub32 ha hb]
  exact Nat.mod_mod_of_dvd _ inputBuf_dvd

/-- The three indices are words, and neither stretch of the ring is longer than the ring. -/
structure Indices (s : State Proc) : Prop where
  r : s.r < uintSize
  w : s.w < uintSize
  e : s.e < uintSize
  unread : sub32 s.w s.r ≤ inputBuf
  pending : sub32 s.e s.w ≤ inputBuf

theorem Indices.span (h : Indices s) : sub32 s.e s.r = sub32 s.w s.r + sub32 s.e s.w := by
  apply sub32_trans h.r h.w h.e
  have := h.unread
  have := h.pending
  simp only [inputBuf, uintSize] at *
  omega

/-! Single bytes. -/

theorem pending_eraseChar (h : Indices s) (hne : s.e ≠ s.w) :
    pending (eraseChar s) = (pending s).dropLast := by
  have hpos : 0 < sub32 s.e s.w := Nat.pos_of_ne_zero fun h0 => hne ((sub32_eq_zero h.e h.w).mp h0)
  have hlen : sub32 s.e s.w = sub32 (pred32 s.e) s.w + 1 := by
    rw [sub32_pred_left h.e h.w hpos]
    omega
  simp only [pending, eraseChar]
  rw [hlen, window_succ, List.dropLast_concat]

theorem Indices.eraseChar (h : Indices s) (hne : s.e ≠ s.w) : Indices (eraseChar s) := by
  have hpos : 0 < sub32 s.e s.w := Nat.pos_of_ne_zero fun h0 => hne ((sub32_eq_zero h.e h.w).mp h0)
  have hlen : sub32 (pred32 s.e) s.w = sub32 s.e s.w - 1 := sub32_pred_left h.e h.w hpos
  have hlt : pred32 s.e < uintSize := pred32_lt h.e
  have hpend := h.pending
  constructor <;> simp only [Console.eraseChar]
  · exact h.r
  · exact h.w
  · exact hlt
  · exact h.unread
  · omega

theorem pending_append (h : Indices s) (c : UInt8) (hroom : sub32 s.e s.w < inputBuf) :
    pending (append c s) = pending s ++ [c] := by
  have hlen : sub32 ((s.e + 1) % uintSize) s.w = sub32 s.e s.w + 1 :=
    sub32_succ_left h.e h.w (by simp only [inputBuf, uintSize] at *; omega)
  show window inputBuf (Function.update s.buf (s.e % inputBuf) c) s.w
    (sub32 ((s.e + 1) % uintSize) s.w) = _
  rw [hlen, slot_eq h.e h.w, window_update_end hroom]
  rfl

theorem unread_append (h : Indices s) (c : UInt8) (hroom : sub32 s.e s.r < inputBuf) :
    unread (append c s) = unread s := by
  have hspan := h.span
  show window inputBuf (Function.update s.buf (s.e % inputBuf) c) s.r (sub32 s.w s.r) = _
  rw [slot_eq h.e h.r, window_update_behind (by omega) hroom]
  rfl

theorem Indices.append (h : Indices s) (c : UInt8) (hroom : sub32 s.e s.w < inputBuf) :
    Indices (append c s) := by
  have hlen : sub32 ((s.e + 1) % uintSize) s.w = sub32 s.e s.w + 1 :=
    sub32_succ_left h.e h.w (by simp only [inputBuf, uintSize] at *; omega)
  refine ⟨h.r, h.w, Nat.mod_lt _ (by decide), h.unread, ?_⟩
  show sub32 ((s.e + 1) % uintSize) s.w ≤ inputBuf
  omega

/-! Whole lines. -/

theorem eraseWhile_eq (k : Nat) : ∃ e screen, eraseWhile k s = { s with e := e, screen := screen } := by
  induction k generalizing s with
  | zero => exact ⟨s.e, s.screen, rfl⟩
  | succ k ih =>
    rw [eraseWhile]
    split
    · obtain ⟨e, screen, heq⟩ := ih (s := Console.eraseChar s)
      exact ⟨e, screen, heq⟩
    · exact ⟨s.e, s.screen, rfl⟩

theorem Indices.eraseWhile (h : Indices s) (k : Nat) : Indices (eraseWhile k s) := by
  induction k generalizing s with
  | zero => exact h
  | succ k ih =>
    rw [Console.eraseWhile]
    split
    · rename_i hcond
      exact ih (h.eraseChar hcond.1)
    · exact h

theorem length_pending_eraseWhile (h : Indices s) (k : Nat) :
    sub32 (eraseWhile k s).e s.w ≤ sub32 s.e s.w := by
  induction k generalizing s with
  | zero => exact le_rfl
  | succ k ih =>
    rw [eraseWhile]
    split
    · rename_i hcond
      refine le_trans (ih (h.eraseChar hcond.1)) ?_
      have hpos : 0 < sub32 s.e s.w :=
        Nat.pos_of_ne_zero fun h0 => hcond.1 ((sub32_eq_zero h.e h.w).mp h0)
      show sub32 (pred32 s.e) s.w ≤ _
      rw [sub32_pred_left h.e h.w hpos]
      omega
    · exact le_rfl

/-- Without a newline among the pending bytes the whole line is erased. -/
theorem eraseWhile_all (h : Indices s) (hclean : newline ∉ pending s) :
    (eraseWhile (sub32 s.e s.w) s).e = s.w := by
  generalize hk : sub32 s.e s.w = k
  induction k generalizing s with
  | zero => exact (sub32_eq_zero h.e h.w).mp hk
  | succ k ih =>
    have hne : s.e ≠ s.w := fun heq => by
      rw [heq, sub32_self] at hk
      omega
    have hpos : 0 < sub32 s.e s.w := by omega
    have hlast : s.buf (pred32 s.e % inputBuf) ∈ pending s := by
      have hk' : sub32 (pred32 s.e) s.w = k := by
        rw [sub32_pred_left h.e h.w hpos]
        omega
      rw [pending, hk, window_succ, slot_eq (pred32_lt h.e) h.w, hk']
      exact List.mem_append_right _ (List.mem_singleton.mpr rfl)
    have hcond : s.e ≠ s.w ∧ s.buf (pred32 s.e % inputBuf) ≠ newline :=
      ⟨hne, fun heq => hclean (heq ▸ hlast)⟩
    rw [eraseWhile, if_pos hcond]
    refine ih (s := eraseChar s) (h.eraseChar hne) ?_ ?_
    · rw [pending_eraseChar h hne]
      exact fun hmem => hclean (List.mem_of_mem_dropLast hmem)
    · show sub32 (pred32 s.e) s.w = k
      rw [sub32_pred_left h.e h.w hpos]
      omega

theorem pending_eraseLine (h : Indices s) (hclean : newline ∉ pending s) :
    pending (eraseLine s) = [] := by
  have hall := eraseWhile_all h hclean
  obtain ⟨e, screen, heq⟩ := eraseWhile_eq (s := s) (sub32 s.e s.w)
  rw [eraseLine]
  rw [heq] at hall ⊢
  have : e = s.w := hall
  rw [pending, show ({ s with e := e, screen := screen } : State Proc).e = s.w from this, sub32_self]
  rfl

/-- The bytes of a text appended one after the other. -/
def appendAll (text : List UInt8) (s : State Proc) : State Proc :=
  text.foldl (fun s c => append c s) s

theorem appendAll_eq (text : List UInt8) :
    ∃ buf e, appendAll text s = { s with buf := buf, e := e } := by
  induction text generalizing s with
  | nil => exact ⟨s.buf, s.e, rfl⟩
  | cons c text ih =>
    obtain ⟨buf, e, heq⟩ := ih (s := append c s)
    exact ⟨buf, e, heq⟩

theorem Indices.appendAll (h : Indices s) {text : List UInt8}
    (hroom : sub32 s.e s.w + text.length ≤ inputBuf) : Indices (appendAll text s) := by
  induction text generalizing s with
  | nil => exact h
  | cons c text ih =>
    rw [List.length_cons] at hroom
    refine ih (s := Console.append c s) (h.append c (by omega)) ?_
    have hlen : sub32 ((s.e + 1) % uintSize) s.w = sub32 s.e s.w + 1 :=
      sub32_succ_left h.e h.w (by simp only [inputBuf, uintSize] at *; omega)
    show sub32 ((s.e + 1) % uintSize) s.w + text.length ≤ inputBuf
    omega

theorem pending_appendAll (h : Indices s) {text : List UInt8}
    (hroom : sub32 s.e s.w + text.length ≤ inputBuf) :
    pending (appendAll text s) = pending s ++ text := by
  induction text generalizing s with
  | nil => rw [List.append_nil]; rfl
  | cons c text ih =>
    rw [List.length_cons] at hroom
    have hlen : sub32 ((s.e + 1) % uintSize) s.w = sub32 s.e s.w + 1 :=
      sub32_succ_left h.e h.w (by simp only [inputBuf, uintSize] at *; omega)
    have hnext := ih (s := append c s) (h.append c (by omega))
      (by show sub32 ((s.e + 1) % uintSize) s.w + text.length ≤ inputBuf; omega)
    rw [pending_append h c (by omega), List.append_assoc] at hnext
    exact hnext

theorem unread_appendAll (h : Indices s) {text : List UInt8}
    (hroom : sub32 s.e s.r + text.length ≤ inputBuf) :
    unread (appendAll text s) = unread s := by
  induction text generalizing s with
  | nil => rfl
  | cons c text ih =>
    rw [List.length_cons] at hroom
    have hspan := h.span
    have hlen : sub32 ((s.e + 1) % uintSize) s.r = sub32 s.e s.r + 1 :=
      sub32_succ_left h.e h.r (by simp only [inputBuf, uintSize] at *; omega)
    have hnext := ih (s := append c s) (h.append c (by omega))
      (by show sub32 ((s.e + 1) % uintSize) s.r + text.length ≤ inputBuf; omega)
    rw [unread_append h c (by omega)] at hnext
    exact hnext

/-- The loop of the history keys appends a text without a NUL. -/
theorem copyCmd_eq {fuel ind ind' : Nat} (h : copyCmd fuel ind s = some (ind', t)) :
    ∃ text : List UInt8, ind' = ind + text.length ∧ t = appendAll text s ∧ 0 ∉ text := by
  induction fuel generalizing ind s with
  | zero => cases h
  | succ fuel ih =>
    rw [copyCmd] at h
    split at h
    · cases h
      exact ⟨[], rfl, rfl, by simp⟩
    · rename_i hc
      obtain ⟨text, hind, ht, hzero⟩ := ih h
      refine ⟨s.peek (cmdAddr s.currInd1 ind) :: text, ?_, ht, ?_⟩
      · rw [List.length_cons, hind]
        omega
      · rw [List.mem_cons, not_or]
        exact ⟨fun h0 => hc h0.symm, hzero⟩

/-! Stores into the history. -/

/-- Everything but the history is as it was. -/
structure Frame (s t : State Proc) : Prop where
  buf : t.buf = s.buf
  r : t.r = s.r
  w : t.w = s.w
  e : t.e = s.e
  screen : t.screen = s.screen
  lock : t.lock = s.lock
  reader : t.reader = s.reader
  killed : t.killed = s.killed

theorem Frame.refl (s : State Proc) : Frame s s := ⟨rfl, rfl, rfl, rfl, rfl, rfl, rfl, rfl⟩

theorem State.poke_cmd {a : Int} (h0 : 0 ≤ a) (h : a < historySize * cmdSize) (c : UInt8) :
    s.poke a c = { s with prevCmds := Function.update s.prevCmds a.toNat c } := by
  have hcell : cellAt a = .cmd a.toNat := if_pos ⟨h0, h⟩
  rw [State.poke, hcell]

theorem cellAt_byte {a : Int} {x : Word} {k : Nat} (h : cellAt a = .byte x k) :
    x.addr ≤ a ∧ a < x.addr + 4 := by
  rw [cellAt] at h
  split_ifs at h
  split at h
  · grind
  · cases h

theorem cellAt_slot {a : Int} {k : Nat} (h : cellAt a = .slot k) : bufAddr ≤ a := by
  rw [cellAt] at h
  split_ifs at h with h1 h2
  · exact h2.1
  · split at h <;> cases h

/-- A store below `input` does not touch it. -/
theorem State.poke_frame {a : Int} (h : a < bufAddr) (c : UInt8) : Frame s (s.poke a c) := by
  have hbuf : bufAddr = 56052 := rfl
  rw [State.poke]
  split
  · exact ⟨rfl, rfl, rfl, rfl, rfl, rfl, rfl, rfl⟩
  · rename_i k hk
    have := cellAt_slot hk
    omega
  · rename_i x k hx
    have hx := (cellAt_byte hx).1
    cases x with
    | r | w | e =>
      simp only [Word.addr] at hx
      omega
    | indexToDim1 | indexToDim2 | hasInserted | currInd1 =>
      exact ⟨rfl, rfl, rfl, rfl, rfl, rfl, rfl, rfl⟩
  · exact ⟨rfl, rfl, rfl, rfl, rfl, rfl, rfl, rfl⟩

/-- A store from `prevCmds` on does not touch the write indices of the history. -/
theorem State.poke_rows {a : Int} (h : 0 ≤ a) (c : UInt8) :
    (s.poke a c).indexToDim1 = s.indexToDim1 ∧ (s.poke a c).indexToDim2 = s.indexToDim2 := by
  rw [State.poke]
  split
  · exact ⟨rfl, rfl⟩
  · exact ⟨rfl, rfl⟩
  · rename_i x k hx
    have hx := (cellAt_byte hx).2
    cases x with
    | indexToDim1 | indexToDim2 =>
      simp only [Word.addr] at hx
      omega
    | hasInserted | currInd1 | r | w | e => exact ⟨rfl, rfl⟩
  · exact ⟨rfl, rfl⟩

theorem record_frame {c : UInt8} (h : recordAddr s c < bufAddr) : Frame s (record c s) := by
  rw [record]
  split_ifs with hc hd
  · have haddr : cmdAddr 0 s.indexToDim2 < bufAddr := by
      rwa [recordAddr, cmdRow, if_pos ⟨hc, hd⟩] at h
    have hpoke := State.poke_frame (s := { s with indexToDim1 := 0 }) haddr c
    exact ⟨hpoke.buf, hpoke.r, hpoke.w, hpoke.e, hpoke.screen, hpoke.lock, hpoke.reader, hpoke.killed⟩
  · have haddr : cmdAddr s.indexToDim1 s.indexToDim2 < bufAddr := by
      rwa [recordAddr, cmdRow, if_neg fun hboth => hd hboth.2] at h
    have hpoke := State.poke_frame (s := s) haddr c
    exact ⟨hpoke.buf, hpoke.r, hpoke.w, hpoke.e, hpoke.screen, hpoke.lock, hpoke.reader, hpoke.killed⟩
  · have haddr : cmdAddr s.indexToDim1 s.indexToDim2 < bufAddr := by
      rwa [recordAddr, cmdRow, if_neg fun hboth => hc hboth.1] at h
    have hpoke := State.poke_frame (s := s) haddr 0
    exact ⟨hpoke.buf, hpoke.r, hpoke.w, hpoke.e, hpoke.screen, hpoke.lock, hpoke.reader, hpoke.killed⟩

/-! What the keys do to the two stretches of the ring. -/

/-- The unread and the pending bytes fit into the ring together. -/
structure Fits (s : State Proc) : Prop extends Indices s where
  fits : sub32 s.w s.r + sub32 s.e s.w ≤ inputBuf

theorem length_unread (s : State Proc) : (unread s).length = sub32 s.w s.r := length_window _ _ _

theorem length_pending (s : State Proc) : (pending s).length = sub32 s.e s.w := length_window _ _ _

theorem Indices.congr (h : Indices s) (hr : t.r = s.r) (hw : t.w = s.w) (he : t.e = s.e) :
    Indices t := by
  obtain ⟨h1, h2, h3, h4, h5⟩ := h
  rw [← hr, ← hw, ← he] at *
  exact ⟨h1, h2, h3, h4, h5⟩

theorem Fits.congr (h : Fits s) (hr : t.r = s.r) (hw : t.w = s.w) (he : t.e = s.e) : Fits t := by
  refine ⟨h.toIndices.congr hr hw he, ?_⟩
  rw [hr, hw, he]
  exact h.fits

theorem unread_congr (hbuf : t.buf = s.buf) (hr : t.r = s.r) (hw : t.w = s.w) :
    unread t = unread s := by
  rw [unread, unread, hbuf, hr, hw]

theorem pending_congr (hbuf : t.buf = s.buf) (hw : t.w = s.w) (he : t.e = s.e) :
    pending t = pending s := by
  rw [pending, pending, hbuf, hw, he]

/-- `input.w = input.e` turns the pending bytes into committed ones. -/
theorem commit_ring (h : Fits s) (hbuf : t.buf = s.buf) (hr : t.r = s.r) (hw : t.w = s.e)
    (he : t.e = s.e) : Fits t ∧ unread t = unread s ++ pending s ∧ pending t = [] := by
  have hspan := h.span
  have hfits := h.fits
  refine ⟨⟨⟨?_, ?_, ?_, ?_, ?_⟩, ?_⟩, ?_, ?_⟩
  · rw [hr]; exact h.r
  · rw [hw]; exact h.e
  · rw [he]; exact h.e
  · rw [hr, hw]; omega
  · rw [hw, he, sub32_self]; omega
  · rw [hr, hw, he, sub32_self]; omega
  · rw [unread, hbuf, hr, hw, hspan, window_append, unread, pending]
    congr 1
    rw [← window_mod inputBuf_dvd, add_sub32 h.w h.r]
  · rw [pending, hw, he, sub32_self, window_zero]

/-- What an accepted character adds to the committed bytes, and the pending bytes after it, when `held`
committed bytes are unread. -/
def acceptChar (c : UInt8) (held : Nat) (edit : List UInt8) : List UInt8 × List UInt8 :=
  if c = newline ∨ c = ctrl 'D' ∨ held + edit.length + 1 = inputBuf then (edit ++ [c], [])
  else ([], edit ++ [c])

/-- What a key that does no editing does. -/
def typeChar (c : UInt8) (held : Nat) (edit : List UInt8) : List UInt8 × List UInt8 :=
  if c ≠ 0 ∧ held + edit.length < inputBuf then
    acceptChar (if c = carriageReturn then newline else c) held edit
  else ([], edit)

theorem acceptKey_eq (c : UInt8) :
    acceptKey c s = wakeup { append c s with
        screen := s.screen.cgaputc c.toNat, w := (append c s).e } ∨
      acceptKey c s = { append c s with screen := s.screen.cgaputc c.toNat } := by
  by_cases hcommit : c = newline ∨ c = ctrl 'D' ∨ (append c s).e = (s.r + inputBuf) % uintSize
  · exact .inl (if_pos hcommit)
  · exact .inr (if_neg hcommit)

theorem acceptKey_ring (h : Fits s) (hroom : sub32 s.e s.r < inputBuf) (c : UInt8) :
    Fits (acceptKey c s) ∧
      unread (acceptKey c s) = unread s ++ (acceptChar c (unread s).length (pending s)).1 ∧
      pending (acceptKey c s) = (acceptChar c (unread s).length (pending s)).2 := by
  have hspan := h.span
  have hfits := h.fits
  have hroom' : sub32 s.e s.w < inputBuf := by omega
  have hind := h.toIndices.append c hroom'
  have hp := pending_append h.toIndices c hroom'
  have hu := unread_append h.toIndices c hroom
  have hlen : sub32 (append c s).e s.w = sub32 s.e s.w + 1 := by
    rw [← length_pending s, ← List.length_singleton (a := c), ← List.length_append, ← hp]
    exact (length_pending _).symm
  have hstored : Fits (append c s) := by
    refine ⟨hind, ?_⟩
    show sub32 s.w s.r + sub32 (append c s).e s.w ≤ inputBuf
    omega
  have hdist : sub32 (append c s).e s.r = sub32 s.e s.r + 1 := by
    have hspan' : sub32 (append c s).e s.r = sub32 s.w s.r + sub32 (append c s).e s.w := hstored.span
    omega
  have hfull : (append c s).e = (s.r + inputBuf) % uintSize ↔
      (unread s).length + (pending s).length + 1 = inputBuf := by
    rw [length_unread, length_pending, ← hspan, ← hdist]
    constructor
    · intro heq
      rw [heq]
      have := h.r
      simp only [sub32, inputBuf, uintSize] at *
      omega
    · intro heq
      rw [← heq, add_sub32 hind.e h.r]
  rw [acceptChar]
  by_cases hcommit : c = newline ∨ c = ctrl 'D' ∨ (append c s).e = (s.r + inputBuf) % uintSize
  · have haccept : acceptKey c s = wakeup { append c s with
        screen := s.screen.cgaputc c.toNat, w := (append c s).e } := if_pos hcommit
    obtain ⟨h1, h2, h3⟩ := commit_ring hstored (t := acceptKey c s)
      (by rw [haccept]; rfl) (by rw [haccept]; rfl) (by rw [haccept]; rfl) (by rw [haccept]; rfl)
    rw [hfull] at hcommit
    rw [if_pos hcommit]
    exact ⟨h1, by rw [h2, hu, hp], h3⟩
  · have haccept : acceptKey c s = { append c s with screen := s.screen.cgaputc c.toNat } :=
      if_neg hcommit
    rw [hfull] at hcommit
    rw [if_neg hcommit, haccept, List.append_nil]
    exact ⟨hstored.congr rfl rfl rfl, hu, hp⟩

theorem plainKey_ring (h : Fits s) (c : UInt8) :
    Fits (plainKey c s) ∧
      unread (plainKey c s) = unread s ++ (typeChar c (unread s).length (pending s)).1 ∧
      pending (plainKey c s) = (typeChar c (unread s).length (pending s)).2 := by
  have hlen : (unread s).length + (pending s).length = sub32 s.e s.r := by
    rw [length_unread, length_pending, h.span]
  rw [plainKey, typeChar, hlen]
  by_cases hc : c ≠ 0 ∧ sub32 s.e s.r < inputBuf
  · rw [if_pos hc, if_pos hc]
    exact acceptKey_ring h hc.2 _
  · rw [if_neg hc, if_neg hc]
    exact ⟨h, (List.append_nil _).symm, rfl⟩

theorem eraseLine_ring (h : Fits s) : Fits (eraseLine s) ∧ unread (eraseLine s) = unread s := by
  have hind := h.toIndices.eraseWhile (sub32 s.e s.w)
  have hlen := length_pending_eraseWhile h.toIndices (sub32 s.e s.w)
  have hfits := h.fits
  obtain ⟨e, screen, heq⟩ := eraseWhile_eq (s := s) (sub32 s.e s.w)
  rw [eraseLine]
  rw [heq] at hind hlen ⊢
  refine ⟨⟨hind, ?_⟩, rfl⟩
  show sub32 s.w s.r + sub32 e s.w ≤ inputBuf
  have hlen' : sub32 e s.w ≤ sub32 s.e s.w := hlen
  omega

theorem eraseChar_ring (h : Fits s) (hne : s.e ≠ s.w) :
    Fits (eraseChar s) ∧ unread (eraseChar s) = unread s := by
  refine ⟨⟨h.toIndices.eraseChar hne, ?_⟩, rfl⟩
  have hlen : (pending (eraseChar s)).length ≤ (pending s).length := by
    rw [pending_eraseChar h.toIndices hne, List.length_dropLast]
    omega
  rw [length_pending, length_pending] at hlen
  have hfits := h.fits
  have hlen' : sub32 (eraseChar s).e s.w ≤ sub32 s.e s.w := hlen
  show sub32 s.w s.r + sub32 (eraseChar s).e s.w ≤ inputBuf
  omega

/-- How many bytes a history key copies. -/
def copied (ind : Nat) (s : State Proc) : Nat :=
  ((copyCmd memorySize ind (eraseLine s)).map fun x => x.1 - ind).getD 0

/-- The bytes left after the line is erased and those copied fit into the ring. -/
def HasRoom (ind : Nat) (s : State Proc) : Prop :=
  sub32 (eraseLine s).e s.r + copied ind s ≤ inputBuf

/-- What a history key does when there is a history. -/
theorem historyKey_eq {ind ind' : Nat} (hany : s.hasInserted ≠ 0)
    (hkey : historyKey ind s = some (ind', t)) :
    ∃ u shown, copyCmd memorySize ind (eraseLine s) = some (ind', u) ∧
      textAt u memorySize (cmdAddr u.currInd1 0) = some shown ∧
      t = { u with screen := u.screen.print shown, currInd1 := olderCmd u } := by
  rw [historyKey, if_neg hany] at hkey
  obtain ⟨⟨last, u⟩, hcopy, hrest⟩ := Option.bind_eq_some_iff.mp hkey
  obtain ⟨shown, htext, hdone⟩ := Option.bind_eq_some_iff.mp hrest
  obtain ⟨rfl, rfl⟩ := Prod.mk.inj (Option.some.inj hdone)
  exact ⟨u, shown, hcopy, htext, rfl⟩

theorem eraseLine_r (s : State Proc) : (eraseLine s).r = s.r ∧ (eraseLine s).w = s.w := by
  obtain ⟨e, screen, heq⟩ := eraseWhile_eq (s := s) (sub32 s.e s.w)
  rw [eraseLine, heq]
  exact ⟨rfl, rfl⟩

theorem historyKey_ring {ind ind' : Nat} (h : Fits s) (hroom : s.hasInserted ≠ 0 → HasRoom ind s)
    (hkey : historyKey ind s = some (ind', t)) : Fits t ∧ unread t = unread s := by
  by_cases hany : s.hasInserted = 0
  · rw [historyKey, if_pos hany] at hkey
    cases hkey
    exact ⟨h, rfl⟩
  · obtain ⟨u, shown, hcopy, -, rfl⟩ := historyKey_eq hany hkey
    obtain ⟨herased, hunread⟩ := eraseLine_ring h
    obtain ⟨text, hlast, rfl, -⟩ := copyCmd_eq hcopy
    have hroom' : sub32 (eraseLine s).e (eraseLine s).r + text.length ≤ inputBuf := by
      have hcopied : copied ind s = text.length := by
        rw [copied, hcopy]
        show ind' - ind = text.length
        omega
      rw [(eraseLine_r s).1, ← hcopied]
      exact hroom hany
    have hspan := herased.span
    have hroom'' : sub32 (eraseLine s).e (eraseLine s).w + text.length ≤ inputBuf := by omega
    have hind := herased.toIndices.appendAll hroom''
    have hkept := unread_appendAll herased.toIndices hroom'
    have hlong := pending_appendAll herased.toIndices hroom''
    have hfits : Fits (appendAll text (eraseLine s)) := by
      refine ⟨hind, ?_⟩
      rw [← length_unread, ← length_pending, hkept, hlong, List.length_append, length_unread,
        length_pending]
      omega
    exact ⟨hfits.congr rfl rfl rfl, (unread_congr rfl rfl rfl).trans (hkept.trans hunread)⟩

/-- No key changes an unread byte, if a history key finds room. -/
theorem handleKey_ring {ind ind' : Nat} {c : UInt8} {listing : List UInt8} (h : Fits s)
    (hroom : isHistoryKey c → s.hasInserted ≠ 0 → HasRoom ind s)
    (hkey : handleKey ind c listing s = some (ind', t)) : Fits t ∧ unread s <+: unread t := by
  rw [handleKey] at hkey
  split_ifs at hkey with hP hU hH hne hI
  · cases hkey
    exact ⟨h.congr rfl rfl rfl, List.prefix_rfl⟩
  · cases hkey
    obtain ⟨hfits, heq⟩ := eraseLine_ring h
    exact ⟨hfits, heq ▸ List.prefix_rfl⟩
  · cases hkey
    obtain ⟨hfits, heq⟩ := eraseChar_ring h hne
    exact ⟨hfits, heq ▸ List.prefix_rfl⟩
  · cases hkey
    exact ⟨h, List.prefix_rfl⟩
  · obtain ⟨hfits, heq⟩ := historyKey_ring h (hroom hI) hkey
    exact ⟨hfits, heq ▸ List.prefix_rfl⟩
  · cases hkey
    obtain ⟨hfits, heq, -⟩ := plainKey_ring h c
    exact ⟨hfits, heq ▸ List.prefix_append _ _⟩

/-! The readers. -/

/-- Taking a byte moves it out of the unread ones. -/
theorem take_indices (h : Indices s) (hne : s.r ≠ s.w) (hbuf : t.buf = s.buf)
    (hr : t.r = (s.r + 1) % uintSize) (hw : t.w = s.w) (he : t.e = s.e) :
    Indices t ∧ sub32 t.w t.r + 1 = sub32 s.w s.r ∧
      unread s = s.buf (s.r % inputBuf) :: unread t ∧ pending t = pending s := by
  have hpos : 0 < sub32 s.w s.r :=
    Nat.pos_of_ne_zero fun h0 => hne ((sub32_eq_zero h.w h.r).mp h0).symm
  have hlen : sub32 t.w t.r = sub32 s.w s.r - 1 := by
    rw [hr, hw, sub32_succ_right h.w hpos]
  have hunread := h.unread
  refine ⟨⟨?_, ?_, ?_, ?_, ?_⟩, ?_, ?_, pending_congr hbuf hw he⟩
  · rw [hr]
    exact Nat.mod_lt _ (by decide)
  · rw [hw]
    exact h.w
  · rw [he]
    exact h.e
  · omega
  · rw [hw, he]
    exact h.pending
  · omega
  · obtain ⟨k, hk⟩ : ∃ k, sub32 s.w s.r = k + 1 := ⟨sub32 s.w s.r - 1, by omega⟩
    rw [unread, unread, hlen, hk, hbuf, hr, window_mod inputBuf_dvd, Nat.add_sub_cancel, window_cons]

theorem take_ring (h : Fits s) (hne : s.r ≠ s.w) (hbuf : t.buf = s.buf)
    (hr : t.r = (s.r + 1) % uintSize) (hw : t.w = s.w) (he : t.e = s.e) :
    Fits t ∧ unread s = s.buf (s.r % inputBuf) :: unread t ∧ pending t = pending s := by
  obtain ⟨hind, hlen, hunread, hpending⟩ := take_indices h.toIndices hne hbuf hr hw he
  have hfits := h.fits
  refine ⟨⟨hind, ?_⟩, hunread, hpending⟩
  rw [he, hw] at *
  omega

/-- The store of the byte a reader is about to take stays away from the ring. -/
def StoresBelow (s : State Proc) : Prop := ∀ c ∈ nextByte s, recordAddr s c < bufAddr

theorem StoresInside.below (h : StoresInside s) : StoresBelow s := by
  intro c hc
  have h1 := (h c hc).2
  have hb : bufAddr = 56052 := rfl
  simp only [historySize, cmdSize] at h1
  omega

theorem nextByte_eq {p : Proc} {rd : Reader} (hlock : s.lock = .read p)
    (hrd : s.reader p = some rd) (hn : rd.n ≠ 0) (hne : s.r ≠ s.w) :
    nextByte s = some (s.buf (s.r % inputBuf)) := by
  simp only [nextByte, hlock, hrd, hn, hne, or_self, if_false]

/-- The local of the interrupt handler that holds the lock. -/
def handlerInd (s : State Proc) : Option Nat :=
  match s.lock with
  | .intr ind => some ind
  | _ => none

theorem mem_handlerInd {ind : Nat} : ind ∈ handlerInd s ↔ s.lock = .intr ind := by
  rw [handlerInd]
  split <;> simp_all

theorem take_frame {p : Proc} {rd : Reader} (hlock : s.lock = .read p)
    (hrd : s.reader p = some rd) (hn : rd.n ≠ 0) (hne : s.r ≠ s.w) (hstore : StoresBelow s) :
    Frame { s with r := (s.r + 1) % uintSize }
      (record (s.buf (s.r % inputBuf)) { s with r := (s.r + 1) % uintSize }) :=
  record_frame (hstore _ (nextByte_eq hlock hrd hn hne))

theorem Fits.booted (h : Booted s) : Fits s := by
  obtain ⟨hr, hw, he⟩ := h.ring
  have hpos : 0 < uintSize := by decide
  refine ⟨⟨?_, ?_, ?_, ?_, ?_⟩, ?_⟩
  all_goals simp only [hr, hw, he, sub32_self, hpos, Nat.zero_le, Nat.add_zero]

variable [DecidableEq Proc]

/-- What a turn of `consoleread` does to the ring. -/
theorem readStep_ring {p : Proc} {rd : Reader} (hr : s.r < uintSize) (hlock : s.lock = .read p)
    (hrd : s.reader p = some rd) (hstore : StoresBelow s) :
    (readStep p rd s).1.buf = s.buf ∧ (readStep p rd s).1.w = s.w ∧ (readStep p rd s).1.e = s.e ∧
      ((readStep p rd s).1.r = s.r ∨
        s.r ≠ s.w ∧ (readStep p rd s).1.r = (s.r + 1) % uintSize) := by
  rw [readStep]
  by_cases hn : rd.n = 0
  · rw [if_pos hn]
    exact ⟨rfl, rfl, rfl, .inl rfl⟩
  rw [if_neg hn]
  by_cases hempty : s.r = s.w
  · rw [if_pos hempty]
    split <;> exact ⟨rfl, rfl, rfl, .inl rfl⟩
  rw [if_neg hempty]
  have hframe := take_frame hlock hrd hn hempty hstore
  dsimp only
  split_ifs
  · refine ⟨hframe.buf, hframe.w, hframe.e, .inl ?_⟩
    show pred32 (record _ _).r = s.r
    rw [hframe.r]
    exact pred32_succ hr
  all_goals exact ⟨hframe.buf, hframe.w, hframe.e, .inr ⟨hempty, hframe.r⟩⟩

/-! The bound. -/

/-- A reader's store goes into `prevCmds`, and a history key finds room for what it copies. -/
def RingGuard (s : State Proc) : Act Proc → Prop
  | .go => StoresInside s
  | .key c _ => ∀ ind, s.lock = .intr ind → isHistoryKey c → s.hasInserted ≠ 0 → HasRoom ind s
  | _ => True

instance (ind : Nat) : Decidable (HasRoom ind s) := Nat.decLe _ _

instance : Decidable (StoresInside s) := inferInstanceAs (Decidable (∀ c ∈ nextByte s, _ ∧ _))

instance (a : Act Proc) : Decidable (RingGuard s a) :=
  match a with
  | .go => inferInstanceAs (Decidable (StoresInside s))
  | .key c _ =>
    decidable_of_iff (∀ ind ∈ handlerInd s, isHistoryKey c → s.hasInserted ≠ 0 → HasRoom ind s)
      (by simp only [mem_handlerInd, RingGuard])
  | .enter | .leave | .read _ _ | .wake _ | .kill _ => isTrue trivial

theorem Fits.key {c : UInt8} {listing : List UInt8} {events : List (Event Proc)} (h : Fits s)
    (hguard : RingGuard s (.key c listing)) (hstep : step s (.key c listing) = some (t, events)) :
    Fits t ∧ unread s <+: unread t := by
  simp only [step] at hstep
  split at hstep
  · rename_i ind hlock
    obtain ⟨⟨ind', u⟩, hkey, heq⟩ := Option.map_eq_some_iff.mp hstep
    cases heq
    obtain ⟨hfits, hle⟩ := handleKey_ring h (hguard ind hlock) hkey
    exact ⟨hfits.congr rfl rfl rfl, hle⟩
  · cases hstep

theorem Fits.go {events : List (Event Proc)} (h : Fits s) (hstore : StoresBelow s)
    (hstep : step s .go = some (t, events)) : Fits t := by
  simp only [step] at hstep
  split at hstep
  · rename_i p hlock
    split at hstep
    · rename_i rd hrd
      obtain ⟨hbuf, hw, he, hr⟩ := readStep_ring h.r hlock hrd hstore
      obtain ⟨rfl, -⟩ := Prod.mk.inj (Option.some.inj hstep)
      rcases hr with hr | ⟨hne, hr⟩
      · exact h.congr hr hw he
      · exact (take_ring h hne hbuf hr hw he).1
    · cases hstep
  · cases hstep

/-- The other steps leave the ring alone. -/
theorem step_ring {a : Act Proc} {events : List (Event Proc)} (hstep : step s a = some (t, events))
    (hgo : a ≠ .go) (hkey : ∀ c listing, a ≠ .key c listing) :
    t.buf = s.buf ∧ t.r = s.r ∧ t.w = s.w ∧ t.e = s.e := by
  cases a with
  | go => exact absurd rfl hgo
  | key c listing => exact absurd rfl (hkey c listing)
  | kill p =>
    cases hstep
    exact ⟨rfl, rfl, rfl, rfl⟩
  | enter | leave | read p n | wake p =>
    simp only [step] at hstep
    repeat' split at hstep
    all_goals cases hstep
    all_goals exact ⟨rfl, rfl, rfl, rfl⟩

theorem Fits.reaches (h : Reaches RingGuard s) : Fits s := by
  apply LibRun.Reachable.invariant (P := Fits) _ _ h
  · exact fun _ hboot => .booted hboot
  · rintro s t - hfits ⟨a, events, hguard, hstep⟩
    by_cases hgo : a = .go
    · subst hgo
      exact hfits.go (StoresInside.below hguard) hstep
    · by_cases hkey : ∃ c listing, a = .key c listing
      · obtain ⟨c, listing, rfl⟩ := hkey
        exact (hfits.key hguard hstep).1
      · obtain ⟨-, hr, hw, he⟩ := step_ring hstep hgo fun c listing heq => hkey ⟨c, listing, heq⟩
        exact hfits.congr hr hw he

/-- The indices stay in order and within the ring, and no key changes a committed byte that has not
been read. -/
theorem ring_bounded (h : Reaches RingGuard s) :
    sub32 s.w s.r ≤ sub32 s.e s.r ∧ sub32 s.e s.r ≤ inputBuf ∧
      ∀ c listing t events, RingGuard s (.key c listing) →
        step s (.key c listing) = some (t, events) → unread s <+: unread t := by
  have hfits := Fits.reaches h
  have hspan := hfits.span
  have hsum := hfits.fits
  exact ⟨by omega, by omega, fun c listing t events hguard hstep => (hfits.key hguard hstep).2⟩

/-- A line of 65 bytes is read; another one is typed ahead. -/
def typedAhead : List (Act Unit) :=
  typing (List.replicate 65 97 ++ [newline]) ++ reading 100 66 ++ typing (List.replicate 65 98 ++ [newline])

/-- The history key finds the ring empty after the first line. -/
theorem roomy_ring_bounded :
    ∃ s : State Unit, Reaches RingGuard s ∧ pending s = List.replicate 65 97 ∧
      (sub32 s.w s.r ≤ sub32 s.e s.r ∧ sub32 s.e s.r ≤ inputBuf ∧
        ∀ c listing t events, RingGuard s (.key c listing) →
          step s (.key c listing) = some (t, events) → unread s <+: unread t) := by
  have hrun : ((runs RingGuard (fun _ _ _ _ => ()) bootState ()
      (typing (List.replicate 65 97 ++ [newline]) ++ reading 100 66 ++ typing [keyUp])).map
        fun x => decide (pending x.1 = List.replicate 65 97)) = some true := by
    decide +kernel
  obtain ⟨⟨s, note⟩, hs, hpend⟩ := Option.map_eq_some_iff.mp hrun
  have hreach := ((Observed.boot booted_bootState).runs hs).reaches
  exact ⟨s, hreach, of_decide_eq_true hpend, ring_bounded hreach⟩

/-- With the second line still unread the history key copies over its first bytes. -/
theorem ring_overrun :
    ∃ s t : State Unit, Reaches (fun _ _ => True) s ∧ s.lock = .free ∧
      runs (fun _ _ => True) (fun _ _ _ _ => ()) s () (typing [keyUp]) = some (t, ()) ∧
      t.lock = .free ∧ inputBuf < sub32 t.e t.r ∧ ¬ unread s <+: unread t := by
  have hrun : ((runs (fun _ _ => True) (fun _ _ _ _ => ()) bootState () typedAhead).bind fun x =>
      (runs (fun _ _ => True) (fun _ _ _ _ => ()) x.1 () (typing [keyUp])).map fun y =>
        decide (x.1.lock = .free ∧ y.1.lock = .free ∧ inputBuf < sub32 y.1.e y.1.r ∧
          ¬ unread x.1 <+: unread y.1)) = some true := by
    decide +kernel
  obtain ⟨⟨s, note⟩, hs, hkey⟩ := Option.bind_eq_some_iff.mp hrun
  obtain ⟨⟨t, note'⟩, ht, hover⟩ := Option.map_eq_some_iff.mp hkey
  obtain ⟨hfree, hafter⟩ := of_decide_eq_true hover
  exact ⟨s, t, ((Observed.boot booted_bootState).runs hs).reaches, hfree, ht, hafter⟩

end Xv6.Console
