import Xv6.ConsoleRing

/-! The line discipline of the console. The discipline is stated without the ring: what has been
committed, what is being edited, how much of the committed bytes has been taken, and what the readers
were given. As long as no history key is pressed and the history is stored where it belongs, the ring
follows it through every interleaving of keys and readers. -/

namespace Xv6.Console

open LibWord LibRing Function

attribute [local irreducible] sub32

variable {Proc : Type} {s t : State Proc}

structure SameRing (s t : State Proc) : Prop where
  buf : t.buf = s.buf
  r : t.r = s.r
  w : t.w = s.w
  e : t.e = s.e

/-- One byte of the ring has been taken. -/
structure Advanced (s t : State Proc) : Prop where
  some : s.r ≠ s.w
  buf : t.buf = s.buf
  r : t.r = (s.r + 1) % uintSize
  w : t.w = s.w
  e : t.e = s.e

theorem SameRing.fits (h : SameRing s t) (hfits : Fits s) : Fits t := hfits.congr h.r h.w h.e

theorem SameRing.unread (h : SameRing s t) : unread t = unread s := unread_congr h.buf h.r h.w

theorem SameRing.pending (h : SameRing s t) : pending t = pending s := pending_congr h.buf h.w h.e

theorem Advanced.ring (h : Advanced s t) (hfits : Fits s) :
    Fits t ∧ unread s = s.buf (s.r % inputBuf) :: unread t ∧ pending t = pending s :=
  take_ring hfits h.some h.buf h.r h.w h.e

/-! The discipline. -/

/-- What has been committed and what of it has been taken, what is being edited, and the bytes stored for
readers, in order. -/
structure Line where
  committed : List UInt8
  taken : Nat
  edit : List UInt8
  delivered : List UInt8

/-- The bytes a key commits and the edited bytes after it, when `held` committed bytes are unread. -/
def editKey (c : UInt8) (held : Nat) (edit : List UInt8) : List UInt8 × List UInt8 :=
  if c = ctrl 'P' then ([], edit)
  else if c = ctrl 'U' then ([], [])
  else if c = ctrl 'H' ∨ c = delete then ([], edit.dropLast)
  else typeChar c held edit

namespace Line

def queue (l : Line) : List UInt8 := l.committed.drop l.taken

def key (c : UInt8) (l : Line) : Line :=
  let x := editKey c l.queue.length l.edit
  { l with committed := l.committed ++ x.1, edit := x.2 }

def event (l : Line) : Event Proc → Line
  | .taken _ => { l with taken := l.taken + 1 }
  | .stored _ c => { l with delivered := l.delivered ++ [c] }
  | .returned _ _ => l

/-- The discipline is told the keys and that bytes are taken, not which. -/
def observe (l : Line) (_ : State Proc) : Act Proc → List (Event Proc) → Line
  | .key c _, _ => l.key c
  | _, events => events.foldl event l

def empty : Line := ⟨[], 0, [], []⟩

end Line

/-- No history key, and a reader's store goes into `prevCmds`. -/
def LineGuard (s : State Proc) : Act Proc → Prop
  | .go => StoresInside s
  | .key c _ => isHistoryKey c = false
  | _ => True

/-- A reader in the middle of its call has met no end of a line. -/
structure Reader.Sound (rd : Reader) : Prop where
  count : rd.n + rd.dst.length = rd.target
  newline : newline ∉ rd.dst
  eof : ctrl 'D' ∉ rd.dst

/-- The ring follows the discipline. -/
structure Follows (s : State Proc) (l : Line) : Prop where
  fits : Fits s
  queue : unread s = l.queue
  edit : pending s = l.edit
  clean : newline ∉ l.edit
  taken : l.taken ≤ l.committed.length
  delivered : l.delivered = (l.committed.take l.taken).filter (· ≠ ctrl 'D')
  readers : ∀ p rd, s.reader p = some rd → rd.Sound

theorem newline_not_mem_acceptChar {c : UInt8} {held : Nat} {edit : List UInt8}
    (h : newline ∉ edit) : newline ∉ (acceptChar c held edit).2 := by
  rw [acceptChar]
  split_ifs with hc
  · simp
  · rw [List.mem_append, List.mem_singleton, not_or]
    exact ⟨h, fun heq => hc (.inl heq.symm)⟩

theorem newline_not_mem_editKey {c : UInt8} {held : Nat} {edit : List UInt8}
    (h : newline ∉ edit) : newline ∉ (editKey c held edit).2 := by
  rw [editKey]
  split_ifs
  · exact h
  · simp
  · exact fun hmem => h (List.mem_of_mem_dropLast hmem)
  · rw [typeChar]
    split
    · exact newline_not_mem_acceptChar h
    · exact h

theorem pending_eq_nil (heq : s.e = s.w) : pending s = [] := by
  rw [pending, heq, sub32_self, window_zero]

/-- A key does to the ring what it does to the line. -/
theorem handleKey_line {ind ind' : Nat} {c : UInt8} {listing : List UInt8} (h : Fits s)
    (hclean : newline ∉ pending s) (hplain : isHistoryKey c = false)
    (hkey : handleKey ind c listing s = some (ind', t)) :
    Fits t ∧ unread t = unread s ++ (editKey c (unread s).length (pending s)).1 ∧
      pending t = (editKey c (unread s).length (pending s)).2 := by
  rw [handleKey] at hkey
  rw [editKey]
  split_ifs at hkey ⊢ with hP hU hH hne hI
  · cases hkey
    exact ⟨h.congr rfl rfl rfl, (List.append_nil _).symm, rfl⟩
  · cases hkey
    obtain ⟨hfits, heq⟩ := eraseLine_ring h
    exact ⟨hfits, heq.trans (List.append_nil _).symm, pending_eraseLine h.toIndices hclean⟩
  · cases hkey
    obtain ⟨hfits, heq⟩ := eraseChar_ring h hne
    exact ⟨hfits, heq.trans (List.append_nil _).symm, pending_eraseChar h.toIndices hne⟩
  · cases hkey
    refine ⟨h, (List.append_nil _).symm, ?_⟩
    rw [pending_eq_nil (not_not.mp hne)]
    rfl
  · exact absurd hI (by rw [hplain]; simp)
  · cases hkey
    exact plainKey_ring h c

theorem acceptKey_reader (c : UInt8) :
    (acceptKey c s).reader = s.reader ∨ (acceptKey c s).reader = (wakeup s).reader := by
  rcases acceptKey_eq (s := s) c with heq | heq
  · rw [heq]
    exact .inr rfl
  · rw [heq]
    exact .inl rfl

theorem acceptKey_rows (c : UInt8) :
    (acceptKey c s).r = s.r ∧ (acceptKey c s).indexToDim1 = s.indexToDim1 ∧
      (acceptKey c s).indexToDim2 = s.indexToDim2 := by
  rcases acceptKey_eq (s := s) c with heq | heq
  all_goals
    rw [heq]
    exact ⟨rfl, rfl, rfl⟩

theorem plainKey_rows (c : UInt8) :
    (plainKey c s).r = s.r ∧ (plainKey c s).indexToDim1 = s.indexToDim1 ∧
      (plainKey c s).indexToDim2 = s.indexToDim2 := by
  rw [plainKey]
  by_cases hc : c ≠ 0 ∧ sub32 s.e s.r < inputBuf
  · rw [if_pos hc]
    exact acceptKey_rows _
  · rw [if_neg hc]
    exact ⟨rfl, rfl, rfl⟩

theorem eraseLine_reader (s : State Proc) : (eraseLine s).reader = s.reader := by
  obtain ⟨e, screen, heq⟩ := eraseWhile_eq (s := s) (sub32 s.e s.w)
  rw [eraseLine, heq]

theorem appendAll_reader (text : List UInt8) : (appendAll text s).reader = s.reader := by
  obtain ⟨buf, e, heq⟩ := appendAll_eq (s := s) text
  rw [heq]

theorem historyKey_reader {ind ind' : Nat} (hkey : historyKey ind s = some (ind', t)) :
    t.reader = s.reader := by
  by_cases hany : s.hasInserted = 0
  · rw [historyKey, if_pos hany] at hkey
    cases hkey
    rfl
  · obtain ⟨u, shown, hcopy, -, rfl⟩ := historyKey_eq hany hkey
    obtain ⟨text, -, rfl, -⟩ := copyCmd_eq hcopy
    exact (appendAll_reader text).trans (eraseLine_reader s)

/-- Keys only wake readers. -/
theorem handleKey_reader {ind ind' : Nat} {c : UInt8} {listing : List UInt8}
    (hkey : handleKey ind c listing s = some (ind', t)) :
    t.reader = s.reader ∨ t.reader = (wakeup s).reader := by
  rw [handleKey] at hkey
  split_ifs at hkey with hP hU hH hne hI
  · cases hkey
    exact .inl rfl
  · cases hkey
    exact .inl (eraseLine_reader s)
  · cases hkey
    exact .inl rfl
  · cases hkey
    exact .inl rfl
  · exact .inl (historyKey_reader hkey)
  · cases hkey
    by_cases hc : c ≠ 0 ∧ sub32 s.e s.r < inputBuf
    · rw [plainKey, if_pos hc]
      exact acceptKey_reader _
    · rw [plainKey, if_neg hc]
      exact .inl rfl

theorem Reader.Sound.phase {rd : Reader} (h : rd.Sound) (phase : Phase) :
    ({ rd with phase := phase } : Reader).Sound := ⟨h.count, h.newline, h.eof⟩

theorem sound_woken {rd rd' : Reader} {phase : Phase} (h : rd.Sound)
    (heq : (if rd.phase = phase then { rd with phase := .woken } else rd) = rd') : rd'.Sound := by
  rw [← heq]
  split
  · exact h.phase _
  · exact h

theorem sound_wakeup (h : ∀ p rd, s.reader p = some rd → rd.Sound) :
    ∀ p rd, (wakeup s).reader p = some rd → rd.Sound := by
  intro p rd hrd
  obtain ⟨rd', hrd', heq⟩ := Option.map_eq_some_iff.mp hrd
  exact sound_woken (h p rd' hrd') heq

/-- Taking the first unread byte. -/
theorem Follows.take {l : Line} {c : UInt8} (h : Follows s l) (hadv : Advanced s t)
    (hc : s.buf (s.r % inputBuf) = c) (hreaders : ∀ p rd, t.reader p = some rd → rd.Sound) :
    Follows t { l with
      taken := l.taken + 1
      delivered := if c = ctrl 'D' then l.delivered else l.delivered ++ [c] } := by
  obtain ⟨hfits, hqueue, hpend⟩ := hadv.ring h.fits
  rw [h.queue, hc, Line.queue] at hqueue
  have hlt : l.taken < l.committed.length := by
    by_contra hge
    rw [List.drop_eq_nil_of_le (by omega)] at hqueue
    cases hqueue
  rw [List.drop_eq_getElem_cons hlt] at hqueue
  obtain ⟨hhead, htail⟩ := List.cons.inj hqueue
  refine ⟨hfits, htail.symm, hpend.trans h.edit, h.clean, hlt, ?_, hreaders⟩
  rw [List.take_succ_eq_append_getElem hlt, List.filter_append, ← h.delivered, hhead]
  split_ifs with hD
  · simp [hD]
  · simp [hD]

theorem Follows.same {l : Line} (h : Follows s l) (hsame : SameRing s t)
    (hreaders : ∀ p rd, t.reader p = some rd → rd.Sound) : Follows t l :=
  ⟨hsame.fits h.fits, hsame.unread.trans h.queue, hsame.pending.trans h.edit, h.clean, h.taken,
    h.delivered, hreaders⟩

theorem Follows.booted (h : Booted s) : Follows s .empty := by
  obtain ⟨hr, hw, he⟩ := h.ring
  refine ⟨.booted h, ?_, pending_eq_nil (he.trans hw.symm), by simp [Line.empty], le_rfl, rfl, ?_⟩
  · rw [unread, hr, hw, sub32_self]
    rfl
  · intro p rd hrd
    rw [h.idle.2 p] at hrd
    cases hrd

theorem unread_cons (h : Fits s) (hne : s.r ≠ s.w) :
    ∃ queue, unread s = s.buf (s.r % inputBuf) :: queue :=
  ⟨_, (take_ring (t := { s with r := (s.r + 1) % uintSize }) h hne rfl rfl rfl rfl).2.1⟩

/-! Turns of `consoleread`. -/

variable [DecidableEq Proc]

/-- The ways a turn of the loop can go. -/
inductive Turn (p : Proc) (rd : Reader) (s : State Proc) : State Proc → List (Event Proc) → Prop
  | full {t : State Proc} : rd.n = 0 → SameRing s t → t.reader = update s.reader p none →
      Turn p rd s t [.returned p (some rd.dst)]
  | failed {t : State Proc} : s.r = s.w → s.killed p = true → SameRing s t →
      t.reader = update s.reader p none → Turn p rd s t [.returned p none]
  | slept {t : State Proc} : s.r = s.w → SameRing s t →
      t.reader = update s.reader p (some { rd with phase := .sleeping }) → Turn p rd s t []
  | eofKept {t : State Proc} : rd.n ≠ 0 → s.r ≠ s.w → s.buf (s.r % inputBuf) = ctrl 'D' →
      rd.n < rd.target → SameRing s t → t.reader = update s.reader p none →
      Turn p rd s t [.returned p (some rd.dst)]
  | eofTaken {t : State Proc} : rd.n ≠ 0 → s.buf (s.r % inputBuf) = ctrl 'D' → ¬ rd.n < rd.target →
      Advanced s t → t.reader = update s.reader p none →
      Turn p rd s t [.taken (ctrl 'D'), .returned p (some rd.dst)]
  | lineEnd {t : State Proc} : rd.n ≠ 0 → s.buf (s.r % inputBuf) = newline → Advanced s t →
      t.reader = update s.reader p none →
      Turn p rd s t [.taken newline, .stored p newline, .returned p (some (rd.dst ++ [newline]))]
  | byte {t : State Proc} {c : UInt8} : rd.n ≠ 0 → s.buf (s.r % inputBuf) = c → c ≠ ctrl 'D' →
      c ≠ newline → Advanced s t → t.reader = update s.reader p
        (some { rd with n := rd.n - 1, dst := rd.dst ++ [c] }) →
      Turn p rd s t [.taken c, .stored p c]

theorem readStep_turn {p : Proc} {rd : Reader} (hr : s.r < uintSize) (hlock : s.lock = .read p)
    (hrd : s.reader p = some rd) (hstore : StoresBelow s) :
    Turn p rd s (readStep p rd s).1 (readStep p rd s).2 := by
  rw [readStep]
  by_cases hn : rd.n = 0
  · rw [if_pos hn]
    exact .full hn ⟨rfl, rfl, rfl, rfl⟩ rfl
  rw [if_neg hn]
  by_cases hempty : s.r = s.w
  · rw [if_pos hempty]
    split
    · rename_i hkilled
      exact .failed hempty hkilled ⟨rfl, rfl, rfl, rfl⟩ rfl
    · exact .slept hempty ⟨rfl, rfl, rfl, rfl⟩ rfl
  rw [if_neg hempty]
  have hframe := take_frame hlock hrd hn hempty hstore
  have hnone : ∀ v, update (record (s.buf (s.r % inputBuf))
      { s with r := (s.r + 1) % uintSize }).reader p v = update s.reader p v := by
    intro v
    rw [hframe.reader]
  have hadv : ∀ t : State Proc, t.buf = (record (s.buf (s.r % inputBuf))
      { s with r := (s.r + 1) % uintSize }).buf → t.r = (record (s.buf (s.r % inputBuf))
      { s with r := (s.r + 1) % uintSize }).r → t.w = (record (s.buf (s.r % inputBuf))
      { s with r := (s.r + 1) % uintSize }).w → t.e = (record (s.buf (s.r % inputBuf))
      { s with r := (s.r + 1) % uintSize }).e → Advanced s t := by
    intro t h1 h2 h3 h4
    exact ⟨hempty, h1.trans hframe.buf, h2.trans hframe.r, h3.trans hframe.w, h4.trans hframe.e⟩
  dsimp only
  split_ifs with hD hlt hnl
  · refine .eofKept hn hempty hD hlt ⟨hframe.buf, ?_, hframe.w, hframe.e⟩ (hnone _)
    show pred32 (record _ _).r = s.r
    rw [hframe.r]
    exact pred32_succ hr
  · rw [hD]
    rw [hD] at hadv hnone
    exact .eofTaken hn hD hlt (hadv _ rfl rfl rfl rfl) (hnone _)
  · rw [hnl]
    rw [hnl] at hadv hnone
    exact .lineEnd hn hnl (hadv _ rfl rfl rfl rfl) (hnone _)
  · exact .byte hn rfl hD hnl (hadv _ rfl rfl rfl rfl) (hnone _)

theorem sound_update {f : Proc → Option Reader} (h : ∀ p rd, f p = some rd → rd.Sound) (p : Proc)
    {v : Option Reader} (hv : ∀ rd, v = some rd → rd.Sound) :
    ∀ q rd, update f p v q = some rd → rd.Sound := by
  intro q rd hrd
  by_cases hq : q = p
  · subst hq
    rw [update_self] at hrd
    exact hv rd hrd
  · rw [update_of_ne hq] at hrd
    exact h q rd hrd

theorem Follows.key {l : Line} {c : UInt8} {listing : List UInt8} {events : List (Event Proc)}
    (h : Follows s l) (hplain : isHistoryKey c = false)
    (hstep : step s (.key c listing) = some (t, events)) : Follows t (l.key c) := by
  simp only [step] at hstep
  split at hstep
  · rename_i ind hlock
    obtain ⟨⟨ind', u⟩, hkey, heq⟩ := Option.map_eq_some_iff.mp hstep
    cases heq
    have hclean := h.clean
    rw [← h.edit] at hclean
    obtain ⟨hfits, hqueue, hedit⟩ := handleKey_line h.fits hclean hplain hkey
    rw [h.queue, h.edit] at hqueue hedit
    have htaken := h.taken
    refine ⟨hfits.congr rfl rfl rfl, ?_, hedit, newline_not_mem_editKey h.clean, ?_, ?_, ?_⟩
    · rw [Line.queue, Line.key, List.drop_append_of_le_length htaken]
      exact hqueue
    · simp only [Line.key, List.length_append]
      omega
    · rw [Line.key, List.take_append_of_le_length htaken]
      exact h.delivered
    · rcases handleKey_reader hkey with heq | heq
      · exact heq ▸ h.readers
      · exact heq ▸ sound_wakeup h.readers
  · cases hstep

theorem Follows.turn {l : Line} {p : Proc} {rd : Reader} {events : List (Event Proc)}
    (h : Follows s l) (hrd : s.reader p = some rd) (hturn : Turn p rd s t events) :
    Follows t (events.foldl Line.event l) := by
  have hnone : ∀ q rd', update s.reader p none q = some rd' → rd'.Sound :=
    sound_update h.readers p (by simp)
  have hsound := h.readers p rd hrd
  cases hturn with
  | full _ hsame hreader => exact h.same hsame (hreader ▸ hnone)
  | failed _ _ hsame hreader => exact h.same hsame (hreader ▸ hnone)
  | slept _ hsame hreader =>
    refine h.same hsame (hreader ▸ sound_update h.readers p ?_)
    rintro rd' ⟨⟩
    exact hsound.phase _
  | eofKept _ _ _ _ hsame hreader => exact h.same hsame (hreader ▸ hnone)
  | eofTaken _ hc _ hadv hreader => exact h.take hadv hc (hreader ▸ hnone)
  | lineEnd _ hc hadv hreader => exact h.take hadv hc (hreader ▸ hnone)
  | byte hn hc hD hnl hadv hreader =>
    have htaken := h.take hadv hc (hreader ▸ sound_update h.readers p ?_)
    · rw [if_neg hD] at htaken
      exact htaken
    · rintro rd' ⟨⟩
      refine ⟨?_, ?_, ?_⟩
      · have := hsound.count
        simp only [List.length_append, List.length_singleton]
        omega
      · rw [List.mem_append, List.mem_singleton, not_or]
        exact ⟨hsound.newline, fun heq => hnl heq.symm⟩
      · rw [List.mem_append, List.mem_singleton, not_or]
        exact ⟨hsound.eof, fun heq => hD heq.symm⟩

/-- A turn is made by the reader that holds the lock. -/
theorem step_go {events : List (Event Proc)} (hr : s.r < uintSize) (hstore : StoresBelow s)
    (hstep : step s .go = some (t, events)) :
    ∃ p rd, s.lock = .read p ∧ s.reader p = some rd ∧ Turn p rd s t events := by
  simp only [step] at hstep
  split at hstep
  · rename_i p hlock
    split at hstep
    · rename_i rd hrd
      have hturn := readStep_turn hr hlock hrd hstore
      obtain ⟨rfl, rfl⟩ := Prod.mk.inj (Option.some.inj hstep)
      exact ⟨p, rd, hlock, hrd, hturn⟩
    · cases hstep
  · cases hstep

/-- The other steps tell the discipline nothing. -/
theorem Follows.other {l : Line} {a : Act Proc} {events : List (Event Proc)} (h : Follows s l)
    (hstep : step s a = some (t, events)) (hgo : a ≠ .go) (hkey : ∀ c listing, a ≠ .key c listing) :
    events = [] ∧ Follows t l := by
  obtain ⟨hbuf, hr, hw, he⟩ := step_ring hstep hgo hkey
  have hsame : SameRing s t := ⟨hbuf, hr, hw, he⟩
  cases a with
  | go => exact absurd rfl hgo
  | key c listing => exact absurd rfl (hkey c listing)
  | kill p =>
    cases hstep
    refine ⟨rfl, h.same hsame (sound_update h.readers p ?_)⟩
    intro rd hrd
    obtain ⟨rd', hrd', heq⟩ := Option.map_eq_some_iff.mp hrd
    exact sound_woken (h.readers p rd' hrd') heq
  | enter | leave =>
    simp only [step] at hstep
    split at hstep
    all_goals cases hstep
    all_goals exact ⟨rfl, h.same hsame h.readers⟩
  | read p n =>
    simp only [step] at hstep
    split at hstep
    all_goals cases hstep
    refine ⟨rfl, h.same hsame (sound_update h.readers p ?_)⟩
    rintro rd ⟨⟩
    exact ⟨rfl, by simp, by simp⟩
  | wake p =>
    simp only [step] at hstep
    split at hstep
    · rename_i rd hrd
      split at hstep
      all_goals cases hstep
      refine ⟨rfl, h.same hsame (sound_update h.readers p ?_)⟩
      rintro rd' ⟨⟩
      exact (h.readers p rd hrd).phase _
    · cases hstep

theorem Follows.step {l : Line} {a : Act Proc} {events : List (Event Proc)} (h : Follows s l)
    (hstore : a = .go → StoresBelow s) (hplain : ∀ c listing, a = .key c listing → isHistoryKey c = false)
    (hstep : step s a = some (t, events)) : Follows t (l.observe s a events) := by
  by_cases hgo : a = .go
  · subst hgo
    obtain ⟨p, rd, -, hrd, hturn⟩ := step_go h.fits.r (hstore rfl) hstep
    exact h.turn hrd hturn
  · by_cases hkey : ∃ c listing, a = .key c listing
    · obtain ⟨c, listing, rfl⟩ := hkey
      exact h.key (hplain c listing rfl) hstep
    · have hkey' : ∀ c listing, a ≠ .key c listing := fun c listing heq => hkey ⟨c, listing, heq⟩
      obtain ⟨rfl, hnext⟩ := h.other hstep hgo hkey'
      cases a with
      | key c listing => exact absurd rfl (hkey' c listing)
      | enter | leave | read | go | wake | kill => exact hnext

theorem Follows.observed {l : Line} (h : Observed LineGuard Line.observe .empty (s, l)) :
    Follows s l := by
  refine Observed.invariant (fun _ hboot => .booted hboot) ?_ h
  intro s l a t events hI hguard hstep
  refine hI.step ?_ ?_ hstep
  · rintro rfl
    exact StoresInside.below hguard
  · rintro c listing rfl
    exact hguard

/-- How a read of `target` bytes may end, with the unread bytes before and after its last turn: full,
after a newline, before an end of file that is kept for the next read, or at one that is taken. -/
inductive ReadEnds (target : Nat) : List UInt8 → List UInt8 → List UInt8 → Prop
  | full {bytes queue : List UInt8} : bytes.length = target → newline ∉ bytes →
      ReadEnds target bytes queue queue
  | newline {bytes queue : List UInt8} : newline ∉ bytes → bytes.length < target →
      ReadEnds target (bytes ++ [newline]) (newline :: queue) queue
  | eofKept {bytes queue : List UInt8} : newline ∉ bytes → bytes ≠ [] → bytes.length < target →
      ReadEnds target bytes (ctrl 'D' :: queue) (ctrl 'D' :: queue)
  | eofTaken {queue : List UInt8} : 0 < target → ReadEnds target [] (ctrl 'D' :: queue) queue

theorem Follows.returned {l : Line} {p q : Proc} {rd : Reader} {events : List (Event Proc)}
    {bytes : List UInt8} (h : Follows s l) (hrd : s.reader p = some rd) (hturn : Turn p rd s t events)
    (hret : .returned q (some bytes) ∈ events) :
    q = p ∧ ctrl 'D' ∉ bytes ∧ ReadEnds rd.target bytes (unread s) (unread t) := by
  have hsound := h.readers p rd hrd
  have hcount := hsound.count
  cases hturn with
  | full hn hsame _ =>
    simp only [List.mem_singleton, Event.returned.injEq, Option.some.injEq] at hret
    obtain ⟨rfl, rfl⟩ := hret
    rw [hsame.unread]
    exact ⟨rfl, hsound.eof, .full (by omega) hsound.newline⟩
  | failed => simp at hret
  | slept => simp at hret
  | eofKept hn hne hc hlt hsame _ =>
    simp only [List.mem_singleton, Event.returned.injEq, Option.some.injEq] at hret
    obtain ⟨rfl, rfl⟩ := hret
    obtain ⟨queue, hqueue⟩ := unread_cons h.fits hne
    rw [hsame.unread, hqueue, hc]
    refine ⟨rfl, hsound.eof, .eofKept hsound.newline ?_ (by omega)⟩
    intro hnil
    rw [hnil, List.length_nil] at hcount
    omega
  | eofTaken hn hc hge hadv _ =>
    simp only [List.mem_cons, reduceCtorEq, false_or, Event.returned.injEq, Option.some.injEq,
      List.not_mem_nil, or_false] at hret
    obtain ⟨rfl, rfl⟩ := hret
    obtain ⟨-, hqueue, -⟩ := hadv.ring h.fits
    have hnil : rd.dst = [] := List.eq_nil_of_length_eq_zero (by omega)
    rw [hqueue, hc, hnil]
    exact ⟨rfl, by simp, .eofTaken (by omega)⟩
  | lineEnd hn hc hadv _ =>
    simp only [List.mem_cons, reduceCtorEq, false_or, Event.returned.injEq, Option.some.injEq,
      List.not_mem_nil, or_false] at hret
    obtain ⟨rfl, rfl⟩ := hret
    obtain ⟨-, hqueue, -⟩ := hadv.ring h.fits
    rw [hqueue, hc]
    refine ⟨rfl, ?_, .newline hsound.newline (by omega)⟩
    rw [List.mem_append, List.mem_singleton, not_or]
    exact ⟨hsound.eof, by decide⟩
  | byte => simp at hret

/-- A read that finds an end of file before its first byte returns no bytes. -/
theorem Follows.eof {l : Line} {p : Proc} {rd : Reader} {queue : List UInt8}
    {events : List (Event Proc)} (h : Follows s l) (hrd : s.reader p = some rd)
    (hturn : Turn p rd s t events) (hdst : rd.dst = []) (hn : rd.n ≠ 0)
    (hqueue : unread s = ctrl 'D' :: queue) :
    .returned p (some []) ∈ events ∧ unread t = queue := by
  have hcount := (h.readers p rd hrd).count
  rw [hdst, List.length_nil] at hcount
  have hne : s.r ≠ s.w := fun heq => by
    rw [unread, heq, sub32_self, window_zero] at hqueue
    cases hqueue
  obtain ⟨queue', hhead⟩ := unread_cons h.fits hne
  rw [hqueue] at hhead
  have hc : s.buf (s.r % inputBuf) = ctrl 'D' := (List.cons.inj hhead).1.symm
  cases hturn with
  | full h0 => exact absurd h0 hn
  | failed heq => exact absurd heq hne
  | slept heq => exact absurd heq hne
  | eofKept _ _ _ hlt => omega
  | eofTaken _ _ _ hadv =>
    obtain ⟨-, hnext, -⟩ := hadv.ring h.fits
    rw [hqueue, hc] at hnext
    refine ⟨?_, (List.cons.inj hnext).2.symm⟩
    simp [hdst]
  | lineEnd _ hnl =>
    rw [hc] at hnl
    exact absurd hnl (by decide)
  | byte _ hc' hD => exact absurd (hc'.symm.trans hc) hD

/-- The readers are given the committed bytes in order, without the end-of-file marks, each read ends as
it should, and the next read without bytes that meets such a mark returns nothing and takes it. -/
theorem line_discipline {l : Line} (h : Observed LineGuard Line.observe .empty (s, l)) :
    unread s = l.queue ∧ pending s = l.edit ∧ l.taken ≤ l.committed.length ∧
      l.delivered = (l.committed.take l.taken).filter (· ≠ ctrl 'D') ∧
      (∀ a t events q bytes, LineGuard s a → step s a = some (t, events) →
        .returned q (some bytes) ∈ events → ∃ rd, s.reader q = some rd ∧ ctrl 'D' ∉ bytes ∧
          ReadEnds rd.target bytes (unread s) (unread t)) ∧
      ∀ p rd queue, s.lock = .read p → s.reader p = some rd → rd.dst = [] → rd.n ≠ 0 →
        unread s = ctrl 'D' :: queue → StoresInside s →
          ∃ t events, step s .go = some (t, events) ∧ .returned p (some []) ∈ events ∧
            unread t = queue := by
  have hfollows := Follows.observed h
  refine ⟨hfollows.queue, hfollows.edit, hfollows.taken, hfollows.delivered, ?_, ?_⟩
  · intro a t events q bytes hguard hstep hret
    by_cases hgo : a = .go
    · subst hgo
      obtain ⟨p, rd, -, hrd, hturn⟩ := step_go hfollows.fits.r (StoresInside.below hguard) hstep
      obtain ⟨rfl, hends⟩ := hfollows.returned hrd hturn hret
      exact ⟨rd, hrd, hends⟩
    · have hnone : events = [] := by
        by_cases hkey : ∃ c listing, a = .key c listing
        · obtain ⟨c, listing, rfl⟩ := hkey
          simp only [step] at hstep
          split at hstep
          · obtain ⟨x, -, hx⟩ := Option.map_eq_some_iff.mp hstep
            exact (Prod.mk.inj hx).2.symm
          · cases hstep
        · exact (hfollows.other hstep hgo fun c listing heq => hkey ⟨c, listing, heq⟩).1
      rw [hnone] at hret
      cases hret
  · intro p rd queue hlock hrd hdst hn hqueue hstore
    have hstep : step s .go = some (readStep p rd s) := by simp only [step, hlock, hrd]
    have hturn := readStep_turn hfollows.fits.r hlock hrd (StoresInside.below hstore)
    obtain ⟨hret, hrest⟩ := hfollows.eof hrd hturn hdst hn hqueue
    exact ⟨_, _, hstep, hret, hrest⟩

instance (a : Act Proc) : Decidable (LineGuard s a) :=
  match a with
  | .go => inferInstanceAs (Decidable (StoresInside s))
  | .key c _ => inferInstanceAs (Decidable (isHistoryKey c = false))
  | .enter | .leave | .read _ _ | .wake _ | .kill _ => isTrue trivial

/-- Two bytes and an end of file, of which a first read takes the bytes. -/
theorem eof_line_discipline :
    ∃ (s : State Unit) (l : Line), Observed LineGuard Line.observe .empty (s, l) ∧
      l.committed = [97, 98, ctrl 'D'] ∧ l.delivered = [97, 98] ∧ unread s = l.queue ∧
      l.delivered = (l.committed.take l.taken).filter (· ≠ ctrl 'D') := by
  have hrun : ((runs LineGuard Line.observe bootState .empty
      (typing [97, 99, delete, 98, ctrl 'D'] ++ reading 10 3)).map fun x =>
        decide (x.2.committed = [97, 98, ctrl 'D'] ∧ x.2.delivered = [97, 98])) = some true := by
    decide +kernel
  obtain ⟨⟨s, l⟩, hs, hl⟩ := Option.map_eq_some_iff.mp hrun
  obtain ⟨hcommitted, hdelivered⟩ := of_decide_eq_true hl
  have hobs := (Observed.boot booted_bootState).runs hs
  obtain ⟨hqueue, -, -, heq, -, -⟩ := line_discipline hobs
  exact ⟨s, l, hobs, hcommitted, hdelivered, hqueue, heq⟩

/-! A line without an end. After two lines of 83 bytes together, the bytes of a third one are stored from
`prevCmds[2]` on. The one at column 55852 goes to the first slot of `input.buf`, which holds the byte
that is read next. -/

/-- No history key is pressed. -/
def PlainKeys (_ : State Proc) : Act Proc → Prop
  | .key c _ => isHistoryKey c = false
  | _ => True

instance (a : Act Proc) : Decidable (PlainKeys s a) :=
  match a with
  | .key c _ => inferInstanceAs (Decidable (isHistoryKey c = false))
  | .go | .enter | .leave | .read _ _ | .wake _ | .kill _ => isTrue trivial

/-- A state of the run, the third line being read up to a column. -/
structure AtColumn (lock : Lock Unit) (reader : Option Reader) (column : Nat) (s : State Unit)
    (l : Line) : Prop where
  run : Observed PlainKeys Line.observe .empty (s, l)
  follows : Follows s l
  lock : s.lock = lock
  reader : s.reader () = reader
  r : s.r = 83 + column
  row : s.indexToDim1 = 2
  column : s.indexToDim2 = column

omit [DecidableEq Proc] in
/-- A letter in the third row moves the column on. -/
theorem record_letter {c : UInt8} {k : Nat} (hc : c = 97 ∨ c = 98) (hrow : s.indexToDim1 = 2)
    (hcolumn : s.indexToDim2 = k) (hk : k < 60000) :
    (record c s).indexToDim1 = 2 ∧ (record c s).indexToDim2 = ((k + 1 : Nat) : Int) := by
  have hend : c ≠ ctrl 'D' ∧ c ≠ newline := by
    rcases hc with rfl | rfl <;> decide
  have hrow' : ¬ (historySize : Int) ≤ s.indexToDim1 := by
    rw [hrow]
    decide
  have haddr : 0 ≤ cmdAddr s.indexToDim1 s.indexToDim2 := by
    rw [hrow, hcolumn, cmdAddr]
    omega
  obtain ⟨h1, h2⟩ := State.poke_rows (s := s) haddr c
  rw [record, if_pos hend]
  simp only [if_neg hrow']
  refine ⟨h1.trans hrow, ?_⟩
  rw [h2, hcolumn, incr32_of_lt (by omega) (by omega)]
  rfl

theorem editKey_letter {c : UInt8} {edit : List UInt8} (hc : c = 97 ∨ c = 98)
    (hroom : edit.length < inputBuf) :
    editKey c 0 edit = if edit.length + 1 = inputBuf then (edit ++ [c], []) else ([], edit ++ [c]) := by
  have hkey : editKey c 0 edit = typeChar c 0 edit := by
    rcases hc with rfl | rfl <;> rfl
  have hne : c ≠ 0 ∧ 0 + edit.length < inputBuf := by
    refine ⟨?_, by omega⟩
    rcases hc with rfl | rfl <;> decide
  have hcr : (if c = carriageReturn then newline else c) = c := by
    rcases hc with rfl | rfl <;> rfl
  have hend : c ≠ newline ∧ c ≠ ctrl 'D' := by
    rcases hc with rfl | rfl <;> decide
  rw [hkey, typeChar, if_pos hne, hcr, acceptChar]
  simp only [hend.1, hend.2, false_or, Nat.zero_add]

theorem Line.key_more {c : UInt8} {l : Line} (hc : c = 97 ∨ c = 98) (hqueue : l.queue = [])
    (hroom : l.edit.length + 1 < inputBuf) : l.key c = { l with edit := l.edit ++ [c] } := by
  rw [Line.key, hqueue, List.length_nil, editKey_letter hc (by omega), if_neg (by omega)]
  simp

theorem Line.key_last {c : UInt8} {l : Line} (hc : c = 97 ∨ c = 98) (hqueue : l.queue = [])
    (hroom : l.edit.length + 1 = inputBuf) :
    l.key c = { l with committed := l.committed ++ (l.edit ++ [c]), edit := [] } := by
  rw [Line.key, hqueue, List.length_nil, editKey_letter hc (by omega), if_pos hroom]

namespace AtColumn

variable {lock lock' : Lock Unit} {reader reader' : Option Reader} {column column' : Nat}
  {s t : State Unit} {l : Line}

theorem next {a : Act Unit} {events : List (Event Unit)} (h : AtColumn lock reader column s l)
    (hguard : PlainKeys s a) (hstore : a = .go → StoresBelow s) (hstep : step s a = some (t, events))
    (hlock : t.lock = lock') (hreader : t.reader () = reader') (hr : t.r = 83 + column')
    (hrow : t.indexToDim1 = 2) (hcolumn : t.indexToDim2 = column') :
    AtColumn lock' reader' column' t (l.observe s a events) := by
  refine ⟨.next h.run ⟨a, events, hguard, hstep, rfl⟩, h.follows.step hstore ?_ hstep, hlock, hreader,
    hr, hrow, hcolumn⟩
  rintro c listing rfl
  exact hguard

theorem enter (h : AtColumn .free reader column s l) :
    ∃ t, AtColumn (.intr 0) reader column t l :=
  have hstep : step s .enter = some ({ s with lock := .intr 0 }, []) := if_pos h.lock
  ⟨_, h.next (a := .enter) trivial (by simp) hstep rfl h.reader h.r h.row h.column⟩

theorem leave (h : AtColumn (.intr 0) reader column s l) : ∃ t, AtColumn .free reader column t l :=
  have hstep : step s .leave = some ({ s with lock := .free }, []) := by simp only [step, h.lock]
  ⟨_, h.next (a := .leave) trivial (by simp) hstep rfl h.reader h.r h.row h.column⟩

theorem read (h : AtColumn .free none column s l) (n : Nat) :
    ∃ t, AtColumn (.read ()) (some ⟨n, n, [], .running⟩) column t l := by
  have hstep : step s (.read () n) =
      some ({ setReader () (some ⟨n, n, [], .running⟩) s with lock := .read () }, []) := by
    simp only [step, h.lock, h.reader, and_self, if_true, Int.toNat_natCast]
  exact ⟨_, h.next (a := .read () n) trivial (by simp) hstep rfl rfl h.r h.row h.column⟩

theorem key {c : UInt8} (h : AtColumn (.intr 0) none column s l) (hc : c = 97 ∨ c = 98) :
    ∃ t, AtColumn (.intr 0) none column t (l.key c) := by
  have hkey : handleKey 0 c [] s = some (0, plainKey c s) := by
    rcases hc with rfl | rfl <;> rfl
  have hplain : isHistoryKey c = false := by
    rcases hc with rfl | rfl <;> rfl
  have hstep : step s (.key c []) = some ({ plainKey c s with lock := .intr 0 }, []) := by
    simp only [step, h.lock, hkey, Option.map_some]
  have hreader : (plainKey c s).reader () = none := by
    rcases handleKey_reader hkey with heq | heq
    · rw [heq, h.reader]
    · simp only [heq, wakeup, h.reader, Option.map_none]
  obtain ⟨hr, hrow, hcolumn⟩ := plainKey_rows (s := s) c
  exact ⟨_, h.next (a := .key c []) hplain (by simp) hstep rfl hreader (hr.trans h.r)
    (hrow.trans h.row) (hcolumn.trans h.column)⟩

/-- Several bytes typed with room to spare. -/
theorem keys {bytes : List UInt8} (h : AtColumn (.intr 0) none column s l)
    (hbytes : ∀ c ∈ bytes, c = 97 ∨ c = 98) (hqueue : l.queue = [])
    (hroom : l.edit.length + bytes.length < inputBuf) :
    ∃ t, AtColumn (.intr 0) none column t { l with edit := l.edit ++ bytes } := by
  induction bytes generalizing s l with
  | nil =>
    rw [List.append_nil]
    exact ⟨s, h⟩
  | cons c bytes ih =>
    rw [List.length_cons] at hroom
    have hc := hbytes c List.mem_cons_self
    obtain ⟨t, ht⟩ := h.key hc
    rw [Line.key_more hc hqueue (by omega)] at ht
    obtain ⟨u, hu⟩ := ih ht (fun c' hc' => hbytes c' (List.mem_cons_of_mem c hc')) hqueue
      (by rw [List.length_append, List.length_singleton]; omega)
    rw [List.append_assoc] at hu
    exact ⟨u, hu⟩

/-- The ring is filled by one interrupt and a read begins. -/
theorem fill {bytes : List UInt8} (h : AtColumn .free none column s l)
    (hbytes : ∀ c ∈ bytes, c = 97 ∨ c = 98) (hlen : bytes.length = inputBuf) (hqueue : l.queue = [])
    (hedit : l.edit = []) :
    ∃ t, AtColumn (.read ()) (some ⟨inputBuf, inputBuf, [], .running⟩) column t
      { l with committed := l.committed ++ bytes } := by
  obtain ⟨front, c, rfl⟩ : ∃ front c, bytes = front ++ [c] := by
    rcases List.eq_nil_or_concat bytes with rfl | ⟨front, c, heq⟩
    · cases hlen
    · exact ⟨front, c, by rw [heq, List.concat_eq_append]⟩
  rw [List.length_append, List.length_singleton] at hlen
  have hc := hbytes c (List.mem_append_right _ List.mem_cons_self)
  obtain ⟨t1, h1⟩ := h.enter
  obtain ⟨t2, h2⟩ := h1.keys (fun c' hc' => hbytes c' (List.mem_append_left _ hc')) hqueue
    (by rw [hedit, List.length_nil]; omega)
  obtain ⟨t3, h3⟩ := h2.key hc
  rw [Line.key_last (l := { l with edit := l.edit ++ front }) hc hqueue (by simp only [hedit, List.nil_append]; omega)] at h3
  simp only [hedit, List.nil_append] at h3
  obtain ⟨t4, h4⟩ := h3.leave
  obtain ⟨t5, h5⟩ := h4.read inputBuf
  refine ⟨t5, ?_⟩
  rw [hedit]
  exact h5

/-- The byte at the front of the queue, and what the turn that takes it does. -/
theorem readStep_letter {rd : Reader} {c : UInt8} {queue : List UInt8}
    (h : AtColumn (.read ()) (some rd) column s l) (hn : rd.n ≠ 0) (hqueue : l.queue = c :: queue)
    (hc : c = 97 ∨ c = 98) :
    nextByte s = some c ∧ step s .go = some (setReader ()
      (some { rd with n := rd.n - 1, dst := rd.dst ++ [c] })
        (record c { s with r := (s.r + 1) % uintSize }), [.taken c, .stored () c]) := by
  have hunread := h.follows.queue.trans hqueue
  have hne : s.r ≠ s.w := fun heq => by
    rw [unread, heq, sub32_self, window_zero] at hunread
    cases hunread
  obtain ⟨queue', hhead⟩ := unread_cons h.follows.fits hne
  rw [hunread] at hhead
  have hbyte : s.buf (s.r % inputBuf) = c := (List.cons.inj hhead).1.symm
  have hend : c ≠ newline ∧ c ≠ ctrl 'D' := by
    rcases hc with rfl | rfl <;> decide
  refine ⟨by rw [nextByte_eq h.lock h.reader hn hne, hbyte], ?_⟩
  simp only [step, h.lock, h.reader, readStep, if_neg hn, if_neg hne, hbyte, if_neg hend.1,
    if_neg hend.2]

theorem recordAddr_eq (h : AtColumn lock reader column s l) (c : UInt8) :
    recordAddr s c = 200 + column := by
  have hrow : cmdRow s c = 2 := by
    rw [cmdRow, h.row]
    exact if_neg fun hboth => absurd hboth.2 (by decide)
  rw [recordAddr, hrow, h.column, cmdAddr, cmdSize]
  omega

theorem take {rd : Reader} {c : UInt8} {queue : List UInt8}
    (h : AtColumn (.read ()) (some rd) column s l) (hn : rd.n ≠ 0) (hqueue : l.queue = c :: queue)
    (hc : c = 97 ∨ c = 98) (hcolumn : 200 + column < 56052) :
    ∃ t, AtColumn (.read ()) (some { rd with n := rd.n - 1, dst := rd.dst ++ [c] }) (column + 1) t
      { l with taken := l.taken + 1, delivered := l.delivered ++ [c] } := by
  obtain ⟨hnext, hstep⟩ := h.readStep_letter hn hqueue hc
  have hstore : StoresBelow s := by
    intro c' _
    rw [h.recordAddr_eq]
    show (200 : Int) + column < 56052
    omega
  have hframe : Frame { s with r := (s.r + 1) % uintSize }
      (record c { s with r := (s.r + 1) % uintSize }) := record_frame (hstore c hnext)
  obtain ⟨hrow, hcol⟩ := record_letter (s := { s with r := (s.r + 1) % uintSize }) hc h.row
    (k := column) h.column (by omega)
  refine ⟨_, h.next (a := .go) trivial (fun _ => hstore) hstep ?_ ?_ ?_ hrow hcol⟩
  · exact hframe.lock.trans h.lock
  · rfl
  · refine hframe.r.trans ?_
    show (s.r + 1) % uintSize = 83 + (column + 1)
    rw [h.r, uintSize]
    omega

theorem takes {bytes queue : List UInt8} {rd : Reader} {n : Nat}
    (h : AtColumn (.read ()) (some rd) column s l) (hn : rd.n = bytes.length + n)
    (hqueue : l.queue = bytes ++ queue) (hbytes : ∀ c ∈ bytes, c = 97 ∨ c = 98)
    (hcolumn : 200 + column + bytes.length ≤ 56052) :
    ∃ t rd', rd'.n = n ∧ AtColumn (.read ()) (some rd') (column + bytes.length) t
      { l with taken := l.taken + bytes.length, delivered := l.delivered ++ bytes } := by
  induction bytes generalizing s l rd column with
  | nil =>
    rw [List.append_nil]
    exact ⟨s, rd, by simpa using hn, h⟩
  | cons c bytes ih =>
    rw [List.length_cons] at hn hcolumn
    obtain ⟨t, ht⟩ := h.take (by omega) hqueue (hbytes c List.mem_cons_self) (by omega)
    have hrest : l.committed.drop (l.taken + 1) = bytes ++ queue := by
      rw [← List.drop_drop, show l.committed.drop l.taken = _ from hqueue]
      rfl
    obtain ⟨u, rd', hn', hu⟩ := ih ht (by show rd.n - 1 = _; omega) hrest
      (fun c' hc' => hbytes c' (List.mem_cons_of_mem c hc')) (by omega)
    refine ⟨u, rd', hn', ?_⟩
    simp only [List.append_assoc, List.singleton_append] at hu
    rw [List.length_cons, Nat.add_comm bytes.length 1, ← Nat.add_assoc, ← Nat.add_assoc]
    exact hu

theorem full {rd : Reader} (h : AtColumn (.read ()) (some rd) column s l) (hn : rd.n = 0)
    (hcolumn : 200 + column < 56052) : ∃ t, AtColumn .free none column t l := by
  have hstep : step s .go = some (finish () s, [.returned () (some rd.dst)]) := by
    simp only [step, h.lock, h.reader, readStep, if_pos hn]
  have hstore : StoresBelow s := by
    intro c _
    rw [h.recordAddr_eq]
    show (200 : Int) + column < 56052
    omega
  exact ⟨_, h.next (a := .go) trivial (fun _ => hstore) hstep rfl rfl h.r h.row h.column⟩

/-- The ring is filled and read once. -/
theorem round (h : AtColumn .free none column s l) (hqueue : l.queue = []) (hedit : l.edit = [])
    (hcolumn : 200 + column + inputBuf < 56052) :
    ∃ t l', AtColumn .free none (column + inputBuf) t l' ∧ l'.queue = [] ∧ l'.edit = [] := by
  have hlen : (List.replicate inputBuf (97 : UInt8)).length = inputBuf := List.length_replicate
  have hbytes : ∀ c ∈ List.replicate inputBuf (97 : UInt8), c = 97 ∨ c = 98 :=
    fun c hc => .inl (List.eq_of_mem_replicate hc)
  obtain ⟨t1, h1⟩ := h.fill hbytes hlen hqueue hedit
  have hall : l.taken = l.committed.length :=
    le_antisymm h.follows.taken (List.drop_eq_nil_iff.mp hqueue)
  have hqueue1 : Line.queue { l with committed := l.committed ++ List.replicate inputBuf 97 } =
      List.replicate inputBuf 97 ++ [] := by
    rw [Line.queue, hall, List.drop_left, List.append_nil]
  obtain ⟨t2, rd, hn, h2⟩ := h1.takes (n := 0) hlen.symm hqueue1 hbytes (by omega)
  rw [hlen] at h2
  obtain ⟨t3, h3⟩ := h2.full hn (by omega)
  refine ⟨t3, _, h3, ?_, hedit⟩
  rw [Line.queue, List.drop_eq_nil_iff, List.length_append, hlen]
  show l.committed.length + inputBuf ≤ l.taken + inputBuf
  omega

/-- The store at column 55852 replaces the byte that is read next. -/
theorem stray {rd : Reader} {queue : List UInt8} (h : AtColumn (.read ()) (some rd) 55852 s l)
    (hn : rd.n = 84) (hqueue : l.queue = 97 :: 98 :: queue) :
    ∃ (u : State Unit) (l' : Line), Observed PlainKeys Line.observe .empty (u, l') ∧
      l'.delivered ≠ (l'.committed.take l'.taken).filter (· ≠ ctrl 'D') := by
  obtain ⟨-, hstep⟩ := h.readStep_letter (by omega) hqueue (.inl rfl)
  have hr : s.r = 55935 := h.r
  have hrecord : record 97 { s with r := (s.r + 1) % uintSize } =
      { s with r := 55936, buf := update s.buf 0 97, indexToDim2 := 55853 } := by
    rw [record, if_pos (by decide)]
    simp only [hr, h.row, h.column]
    rfl
  rw [hrecord] at hstep
  have hlen : sub32 s.w 55935 = (unread s).length := by rw [length_unread, hr]
  rw [h.follows.queue, hqueue, List.length_cons, List.length_cons] at hlen
  have hne : (55936 : Nat) ≠ s.w := by
    intro heq
    rw [← heq, show sub32 55936 55935 = 1 by decide +kernel] at hlen
    omega
  have hn' : rd.n - 1 ≠ 0 := by omega
  generalize ht : setReader () (some { rd with n := rd.n - 1, dst := rd.dst ++ [97] })
    { s with r := 55936, buf := update s.buf 0 97, indexToDim2 := 55853 } = t at hstep
  have hobs : Observed PlainKeys Line.observe .empty (t, l.observe s .go [.taken 97, .stored () 97]) :=
    .next h.run ⟨.go, _, trivial, hstep, rfl⟩
  have hstep' : ∃ u, step t .go = some (u, [.taken 97, .stored () 97]) := by
    have hlock' : t.lock = .read () := by rw [← ht]; exact h.lock
    have hreader' : t.reader () = some { rd with n := rd.n - 1, dst := rd.dst ++ [97] } := by
      rw [← ht]; rfl
    have hne' : t.r ≠ t.w := by rw [← ht]; exact hne
    have hbuf : t.buf = update s.buf 0 97 := by rw [← ht]; rfl
    have hr' : t.r = 55936 := by rw [← ht]; rfl
    have hbyte : t.buf (t.r % inputBuf) = 97 := by
      rw [hbuf, hr', show 55936 % inputBuf = 0 by decide, update_self]
    simp only [step, hlock', hreader', readStep, if_neg hn', if_neg hne', hbyte]
    exact ⟨_, rfl⟩
  obtain ⟨u, hu⟩ := hstep'
  refine ⟨u, _, .next hobs ⟨.go, _, trivial, hu, rfl⟩, ?_⟩
  simp only [Line.observe, List.foldl_cons, List.foldl_nil, Line.event, List.append_assoc]
  rw [Nat.add_assoc, List.take_add, List.filter_append, ← h.follows.delivered,
    show l.committed.drop l.taken = 97 :: 98 :: queue from hqueue,
    show List.take (1 + 1) (97 :: 98 :: queue) = [97, 98] from rfl]
  intro heq
  exact absurd (List.append_cancel_left heq) (by decide)

end AtColumn

theorem Observed.mono {Note : Type} {guard guard' : State Proc → Act Proc → Prop}
    {observe : Note → State Proc → Act Proc → List (Event Proc) → Note} {start : Note}
    (hle : ∀ s a, guard s a → guard' s a) {x : State Proc × Note}
    (h : Observed guard observe start x) : Observed guard' observe start x := by
  induction h with
  | start hx => exact .start hx
  | next _ hst ih =>
    obtain ⟨a, events, hguard, hrest⟩ := hst
    exact .next ih ⟨a, events, hle _ _ hguard, hrest⟩

omit [DecidableEq Proc] in
theorem LineGuard.plain {a : Act Proc} (h : LineGuard s a) : PlainKeys s a := by
  cases a with
  | key c listing => exact h
  | go | enter | leave | read | wake | kill => trivial

/-- Before the third line. -/
theorem exists_atColumn_zero :
    ∃ (s : State Unit) (l : Line), AtColumn .free none 0 s l ∧ l.queue = [] ∧ l.edit = [] := by
  have hrun : ((runs LineGuard Line.observe bootState .empty
      (typing (List.replicate 81 97 ++ [newline]) ++ reading 100 82 ++ typing [newline] ++
        reading 100 1)).map fun x => decide (x.1.lock = .free ∧ x.1.reader () = none ∧ x.1.r = 83 ∧
          x.1.indexToDim1 = 2 ∧ x.1.indexToDim2 = 0 ∧ x.2.queue = [] ∧ x.2.edit = [])) = some true := by
    decide +kernel
  obtain ⟨⟨s, l⟩, hs, hfacts⟩ := Option.map_eq_some_iff.mp hrun
  obtain ⟨hlock, hreader, hr, hrow, hcolumn, hqueue, hedit⟩ := of_decide_eq_true hfacts
  have hobs := (Observed.boot booted_bootState).runs hs
  exact ⟨s, l, ⟨hobs.mono fun _ _ => LineGuard.plain, Follows.observed hobs, hlock, hreader, hr, hrow,
    hcolumn⟩, hqueue, hedit⟩

theorem exists_atColumn {k : Nat} (hk : k ≤ 436) :
    ∃ (s : State Unit) (l : Line),
      AtColumn .free none (inputBuf * k) s l ∧ l.queue = [] ∧ l.edit = [] := by
  induction k with
  | zero => exact exists_atColumn_zero
  | succ k ih =>
    obtain ⟨s, l, h, hqueue, hedit⟩ := ih (by omega)
    exact h.round hqueue hedit (by simp only [inputBuf]; omega)

/-- A byte is delivered in place of another: the byte stored last in the history lies in the slot of
the one that is read next. -/
theorem line_discipline_broken :
    ∃ (s : State Unit) (l : Line), Observed PlainKeys Line.observe .empty (s, l) ∧
      l.delivered ≠ (l.committed.take l.taken).filter (· ≠ ctrl 'D') := by
  obtain ⟨s0, l0, h0, hqueue, hedit⟩ := exists_atColumn (k := 436) le_rfl
  have hbytes : ∀ c ∈ List.replicate 44 (97 : UInt8) ++ 97 :: List.replicate 83 98,
      c = 97 ∨ c = 98 := by
    intro c hc
    simp only [List.mem_append, List.mem_cons, List.mem_replicate] at hc
    tauto
  obtain ⟨s1, h1⟩ := h0.fill hbytes (by simp [inputBuf]) hqueue hedit
  have hall : l0.taken = l0.committed.length :=
    le_antisymm h0.follows.taken (List.drop_eq_nil_iff.mp hqueue)
  have hqueue1 : Line.queue { l0 with
      committed := l0.committed ++ (List.replicate 44 97 ++ 97 :: List.replicate 83 98) } =
        List.replicate 44 97 ++ 97 :: List.replicate 83 98 := by
    rw [Line.queue, hall, List.drop_left]
  obtain ⟨s, rd, hn, h⟩ := h1.takes (n := 84) rfl hqueue1
    (fun c hc => .inl (List.eq_of_mem_replicate hc)) (by decide)
  have hqueue2 : Line.queue { l0 with
      committed := l0.committed ++ (List.replicate 44 97 ++ 97 :: List.replicate 83 98)
      taken := l0.taken + 44 } = 97 :: 98 :: List.replicate 82 98 := by
    rw [Line.queue, ← List.drop_drop, show List.drop l0.taken _ = _ from hqueue1]
    rfl
  exact h.stray hn hqueue2

end Xv6.Console
