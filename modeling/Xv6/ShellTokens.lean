import Xv6.Shell

/-! The scanner of the shell. What the parser sees of the command is the list of tokens from its cursor
on: `peek` looks at the first of them and `gettoken` takes it away. -/

namespace Xv6.Shell

variable {s : List UInt8} {f : UInt8 → Bool} {p q : Nat}

/-! Scanning. -/

theorem charAt_eq_zero (hs : 0 ∉ s) : charAt s p = 0 ↔ s.length ≤ p := by
  rw [charAt, List.getD_eq_getElem?_getD]
  constructor
  · intro h
    by_contra hlt
    rw [List.getElem?_eq_getElem (by omega)] at h
    exact hs (h ▸ List.getElem_mem _)
  · intro h
    rw [List.getElem?_eq_none h]
    rfl

/-- The loop stops at the first byte that does not pass. -/
theorem scan_spec (k : Nat) (hk : s.length ≤ p + k) :
    p ≤ scan f s k p ∧ (∀ i, p ≤ i → i < scan f s k p → i < s.length ∧ f (charAt s i) = true) ∧
      (scan f s k p < s.length → f (charAt s (scan f s k p)) = false) := by
  induction k generalizing p with
  | zero =>
    rw [scan]
    exact ⟨le_rfl, fun i h1 h2 => by omega, fun h => by omega⟩
  | succ k ih =>
    rw [scan]
    split
    · rename_i hpass
      obtain ⟨h1, h2, h3⟩ := ih (p := p + 1) (by omega)
      refine ⟨by omega, fun i hi hlt => ?_, h3⟩
      rcases Nat.eq_or_lt_of_le hi with rfl | hi
      · exact hpass
      · exact h2 i hi hlt
    · rename_i hstop
      refine ⟨le_rfl, fun i h1 h2 => by omega, fun hlt => ?_⟩
      rw [not_and, Bool.not_eq_true] at hstop
      exact hstop hlt

theorem scanWhile_spec (f : UInt8 → Bool) (s : List UInt8) (p : Nat) :
    p ≤ scanWhile f s p ∧
      (∀ i, p ≤ i → i < scanWhile f s p → i < s.length ∧ f (charAt s i) = true) ∧
      (scanWhile f s p < s.length → f (charAt s (scanWhile f s p)) = false) :=
  scan_spec _ (by omega)

theorem scanWhile_le (h : p ≤ s.length) : scanWhile f s p ≤ s.length := by
  obtain ⟨h1, h2, -⟩ := scanWhile_spec f s p
  by_contra hgt
  obtain ⟨hlt, -⟩ := h2 (scanWhile f s p - 1) (by omega) (by omega)
  omega

theorem scanWhile_stop (h : p < s.length → f (charAt s p) = false) : scanWhile f s p = p := by
  obtain ⟨h1, h2, -⟩ := scanWhile_spec f s p
  by_contra hne
  obtain ⟨hlt, hpass⟩ := h2 p le_rfl (by omega)
  rw [h hlt] at hpass
  cases hpass

theorem skip_le (h : p ≤ s.length) : skip s p ≤ s.length := scanWhile_le h

theorem skip_skip (s : List UInt8) (p : Nat) : skip s (skip s p) = skip s p :=
  scanWhile_stop (scanWhile_spec _ s p).2.2

theorem gettoken_skip (s : List UInt8) (p : Nat) : gettoken s (skip s p) = gettoken s p := by
  rw [gettoken, skip_skip]
  rfl

/-! Words. -/

def WordChar (c : UInt8) : Prop := c ≠ 0 ∧ isWordChar c = true

/-- A longest stretch of word characters. -/
structure IsWord (s : List UInt8) (w : Span) : Prop where
  lt : w.q < w.eq
  le : w.eq ≤ s.length
  chars : ∀ i, w.q ≤ i → i < w.eq → WordChar (charAt s i)
  ends : ¬ WordChar (charAt s w.eq)

/-- What `gettoken` can return for a symbol. -/
def isSym (c : UInt8) : Prop :=
  c = ch '|' ∨ c = ch '(' ∨ c = ch ')' ∨ c = ch ';' ∨ c = ch '&' ∨ c = ch '<' ∨ c = ch '>' ∨ c = ch '+'

/-- The byte a symbol begins with. -/
def symChar (c : UInt8) : UInt8 := if c = ch '+' then ch '>' else c

/-- What stands at the cursor. -/
inductive Ahead (s : List UInt8) (p : Nat) (g : Scanned) : Prop
  | nothing (tok : g.tok = 0) (char : charAt s (skip s p) = 0)
  | sym (tok : isSym g.tok) (char : charAt s (skip s p) = symChar g.tok)
      (next : p < g.next ∧ g.next ≤ s.length)
  | word (tok : g.tok = ch 'a') (word : IsWord s g.word) (char : WordChar (charAt s (skip s p)))
      (next : p < g.next ∧ g.next ≤ s.length)

theorem ahead_gettoken (hs : 0 ∉ s) (p : Nat) : Ahead s p (gettoken s p) := by
  obtain ⟨hle, -, hstop⟩ := scanWhile_spec whitespace.contains s p
  have hle' : p ≤ skip s p := hle
  have hnext : ∀ e, skip s p < e → e ≤ s.length → p < skip s e ∧ skip s e ≤ s.length := by
    intro e hlt he
    have h1 : e ≤ skip s e := (scanWhile_spec whitespace.contains s e).1
    exact ⟨by omega, skip_le he⟩
  have hin : ∀ e, charAt s e ≠ 0 → e < s.length := fun e he => by
    by_contra hge
    exact he ((charAt_eq_zero hs).mpr (by omega))
  rw [gettoken, tokenAt]
  dsimp only
  split_ifs with h0 hsingle hgreater hdouble
  · exact .nothing h0 h0
  · refine .sym ?_ ?_ (hnext _ (Nat.lt_succ_self _) (hin _ h0))
    · show isSym (charAt s (skip s p))
      rcases hsingle with h | h | h | h | h | h <;> rw [h] <;> simp [isSym]
    · show charAt s (skip s p) = symChar (charAt s (skip s p))
      rcases hsingle with h | h | h | h | h | h <;> rw [h] <;> decide
  · refine .sym ?_ ?_ (hnext _ (by omega) (hin _ (hdouble ▸ (by decide))))
    · show isSym (ch '+')
      simp [isSym]
    · show charAt s (skip s p) = symChar (ch '+')
      rw [hgreater]
      decide
  · refine .sym ?_ ?_ (hnext _ (Nat.lt_succ_self _) (hin _ h0))
    · show isSym (charAt s (skip s p))
      rw [hgreater]
      simp [isSym]
    · show charAt s (skip s p) = symChar (charAt s (skip s p))
      rw [hgreater]
      decide
  · have hlen : skip s p < s.length := hin _ h0
    have hspace : whitespace.contains (charAt s (skip s p)) = false := hstop hlen
    have hword : isWordChar (charAt s (skip s p)) = true := by
      have hsym : symbols.contains (charAt s (skip s p)) = false := by
        rw [Bool.eq_false_iff, ne_eq, List.contains_iff_mem]
        simp only [symbols, List.mem_cons, List.not_mem_nil, or_false]
        tauto
      rw [isWordChar, hspace, hsym]
      rfl
    obtain ⟨h1, h2, h3⟩ := scanWhile_spec isWordChar s (skip s p)
    have hlt : skip s p < scanWhile isWordChar s (skip s p) := by
      refine Nat.lt_of_le_of_ne h1 fun heq => ?_
      rw [← heq, hword] at h3
      cases h3 hlen
    have hend : scanWhile isWordChar s (skip s p) ≤ s.length := scanWhile_le hlen.le
    refine .word rfl ⟨hlt, hend, fun i hi hi' => ?_, ?_⟩ ⟨h0, hword⟩ (hnext _ hlt hend)
    · obtain ⟨hi1, hi2⟩ := h2 i hi hi'
      refine ⟨fun hzero => ?_, hi2⟩
      rw [charAt_eq_zero hs] at hzero
      omega
    · show ¬ WordChar (charAt s (scanWhile isWordChar s (skip s p)))
      rintro ⟨hne, hchar⟩
      rw [h3 (hin _ hne)] at hchar
      cases hchar

/-! Tokens. -/

theorem sym_ne {c : UInt8} (h : isSym c) : c ≠ 0 ∧ c ≠ ch 'a' ∧ symChar c ≠ 0 := by
  rcases h with h | h | h | h | h | h | h | h <;> rw [h] <;> decide

theorem gettoken_zero (hs : 0 ∉ s) : (gettoken s p).tok = 0 ↔ charAt s (skip s p) = 0 := by
  cases ahead_gettoken hs p with
  | nothing htok hchar => exact iff_of_true htok hchar
  | sym htok hchar _ => exact iff_of_false (sym_ne htok).1 (hchar ▸ (sym_ne htok).2.2)
  | word htok _ hchar _ => exact iff_of_false (htok ▸ (by decide)) hchar.1

theorem lt_next (hs : 0 ∉ s) (h : (gettoken s p).tok ≠ 0) :
    p < (gettoken s p).next ∧ (gettoken s p).next ≤ s.length := by
  cases ahead_gettoken hs p with
  | nothing htok _ => exact absurd htok h
  | sym _ _ hnext => exact hnext
  | word _ _ _ hnext => exact hnext

theorem tokensFrom_end (hs : 0 ∉ s) (hp : s.length < p) (k : Nat) : tokensFrom s k p = [] := by
  cases k with
  | zero => rfl
  | succ k =>
    have hskip : p ≤ skip s p := (scanWhile_spec whitespace.contains s p).1
    exact if_pos ((gettoken_zero hs).mpr ((charAt_eq_zero hs).mpr (by omega)))

/-- The number of steps does not matter as long as every byte can be looked at. -/
theorem tokensFrom_stable (hs : 0 ∉ s) {k n : Nat} (hk : s.length < k + p) (hn : s.length < n + p) :
    tokensFrom s k p = tokensFrom s n p := by
  induction k generalizing n p with
  | zero => rw [tokensFrom_end hs (by omega), tokensFrom_end hs (by omega)]
  | succ k ih =>
    cases n with
    | zero => rw [tokensFrom_end hs (by omega), tokensFrom_end hs (by omega)]
    | succ n =>
      rw [tokensFrom, tokensFrom]
      by_cases h0 : (gettoken s p).tok = 0
      · rw [if_pos h0, if_pos h0]
      · obtain ⟨hlt, -⟩ := lt_next hs h0
        rw [if_neg h0, if_neg h0, ih (p := (gettoken s p).next) (n := n) (by omega) (by omega)]

/-- The token `gettoken` takes. -/
def Scanned.token (s : List UInt8) (g : Scanned) : Token :=
  if g.tok = ch 'a' then .word (slice s g.word) else .sym g.tok

theorem tokens_nil (h : (gettoken s p).tok = 0) : tokens s p = [] := if_pos h

theorem tokens_cons (hs : 0 ∉ s) (h : (gettoken s p).tok ≠ 0) :
    tokens s p = (gettoken s p).token s :: tokens s (gettoken s p).next := by
  obtain ⟨hlt, -⟩ := lt_next hs h
  rw [tokens, tokensFrom, if_neg h, tokens, tokensFrom_stable hs (k := s.length) (n := s.length + 1)
    (by omega) (by omega)]
  rfl

theorem tokens_skip (s : List UInt8) (p : Nat) : tokens s (skip s p) = tokens s p := by
  rw [tokens, tokensFrom, gettoken_skip]
  rfl

theorem length_tokensFrom (k : Nat) : (tokensFrom s k p).length ≤ k := by
  induction k generalizing p with
  | zero => exact le_rfl
  | succ k ih =>
    rw [tokensFrom]
    by_cases h0 : (gettoken s p).tok = 0
    · rw [if_pos h0]
      exact Nat.zero_le _
    · rw [if_neg h0, List.length_cons]
      exact Nat.succ_le_succ ih

/-- What `peek` finds, in terms of the tokens. -/
def sees (toks : List UInt8) : List Token → Bool
  | .sym c :: _ => toks.contains (symChar c)
  | _ => false

theorem not_mem_symbols {c : UInt8} (h : WordChar c) : c ∉ symbols := by
  have hword := h.2
  rw [isWordChar, Bool.and_eq_true, Bool.not_eq_true', Bool.not_eq_true'] at hword
  rw [← List.contains_iff_mem, hword.2]
  simp

theorem peek_eq (hs : 0 ∉ s) (p : Nat) {toks : List UInt8} (htoks : ∀ c ∈ toks, c ∈ symbols) :
    peek s p toks = (sees toks (tokens s p), skip s p) := by
  rw [peek]
  refine Prod.ext ?_ rfl
  dsimp only
  cases ahead_gettoken hs p with
  | nothing htok hchar =>
    rw [tokens_nil htok, hchar]
    simp [sees]
  | sym htok hchar _ =>
    obtain ⟨h1, h2, h3⟩ := sym_ne htok
    rw [tokens_cons hs h1, Scanned.token, if_neg h2, hchar, sees]
    simp [h3]
  | word htok _ hchar _ =>
    rw [tokens_cons hs (htok ▸ (by decide)), Scanned.token, if_pos htok]
    have hnot : charAt s (skip s p) ∉ toks := fun hmem => not_mem_symbols hchar (htoks _ hmem)
    simp [sees, hnot]

/-! Taking tokens. -/

/-- The cursor has moved over some tokens, inside the command. -/
structure Taken (s : List UInt8) (p : Nat) (ts : List Token) (p' : Nat) : Prop where
  tokens : tokens s p = ts ++ tokens s p'
  le : p ≤ s.length → p' ≤ s.length

theorem Taken.trans {ts ts' : List Token} {p' p'' : Nat} (h : Taken s p ts p') (h' : Taken s p' ts' p'') :
    Taken s p (ts ++ ts') p'' := by
  refine ⟨?_, fun hp => h'.le (h.le hp)⟩
  rw [h.tokens, h'.tokens, List.append_assoc]

theorem taken_skip (s : List UInt8) (p : Nat) : Taken s p [] (skip s p) :=
  ⟨(tokens_skip s p).symm, skip_le⟩

theorem Taken.of_skip {ts : List Token} {p' : Nat} (h : Taken s (skip s p) ts p') : Taken s p ts p' :=
  (taken_skip s p).trans h

theorem gettoken_sym (hs : 0 ∉ s) {c : UInt8} {rest : List Token} (h : tokens s p = .sym c :: rest) :
    (gettoken s p).tok = c ∧ tokens s (gettoken s p).next = rest ∧
      Taken s p [.sym c] (gettoken s p).next := by
  cases ahead_gettoken hs p with
  | nothing htok _ =>
    rw [tokens_nil htok] at h
    cases h
  | sym htok _ _ =>
    obtain ⟨h1, h2, -⟩ := sym_ne htok
    rw [tokens_cons hs h1, Scanned.token, if_neg h2] at h
    cases h
    refine ⟨rfl, rfl, ?_, fun _ => (lt_next hs h1).2⟩
    rw [tokens_cons hs h1, Scanned.token, if_neg h2]
    rfl
  | word htok _ _ _ =>
    rw [tokens_cons hs (htok ▸ (by decide)), Scanned.token, if_pos htok] at h
    cases h

theorem gettoken_word (hs : 0 ∉ s) {text : List UInt8} {rest : List Token}
    (h : tokens s p = .word text :: rest) :
    (gettoken s p).tok = ch 'a' ∧ IsWord s (gettoken s p).word ∧
      slice s (gettoken s p).word = text ∧ tokens s (gettoken s p).next = rest ∧
      Taken s p [.word text] (gettoken s p).next := by
  cases ahead_gettoken hs p with
  | nothing htok _ =>
    rw [tokens_nil htok] at h
    cases h
  | sym htok _ _ =>
    obtain ⟨h1, h2, -⟩ := sym_ne htok
    rw [tokens_cons hs h1, Scanned.token, if_neg h2] at h
    cases h
  | word htok hword _ hnext =>
    have htoks := tokens_cons hs (p := p) (htok ▸ (by decide))
    rw [Scanned.token, if_pos htok] at htoks
    rw [htoks] at h
    cases h
    exact ⟨htok, hword, rfl, rfl, htoks, fun _ => hnext.2⟩

theorem gettoken_nil (hs : 0 ∉ s) (h : tokens s p = []) : (gettoken s p).tok = 0 := by
  by_contra h0
  rw [tokens_cons hs h0] at h
  cases h

end Xv6.Shell
