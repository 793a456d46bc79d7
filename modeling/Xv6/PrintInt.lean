import Xv6.LibWord
import Xv6.Shell

/-! How an `int` is written in decimal: `itoa` and `reverse` of `ulib.c`, and `printint` of `printf.c` and of
`console.c`. All of them write the digits into a buffer from the last to the first; a store behind the end of the
buffer is an error. -/

namespace Xv6.PrintInt

open LibWord Shell

abbrev Buf := List UInt8

/-- A value stored in a `char`. -/
def toChar (value : Int) : UInt8 := UInt8.ofNat (value % 2 ^ 8).toNat

/-- `-n` of an `int`, which wraps. -/
def neg32 (n : Int) : Int := Int.bmod (-n) (2 ^ 32)

/-- `s[i] = c`. -/
def put (s : Buf) (i : Nat) (c : UInt8) : Except String Buf :=
  if i < s.length then .ok (s.set i c) else .error "store past the buffer"

section Loop

variable {α : Type} (digit : α → Except String UInt8) (rest : α → α) (more : α → Bool)

/-- The `do` loop with which all of them write the digits, `s[i++] = digit n` as long as there is more of `n`. Its
first argument is the room left in the buffer. -/
def putDigits : Nat → α → Buf → Nat → Except String (Buf × Nat)
  | 0, _, _, _ => .error "store past the buffer"
  | room + 1, n, s, i => do
    let c ← digit n
    let s ← put s i c
    if more (rest n) then putDigits room (rest n) s (i + 1) else pure (s, i + 1)

/-- `if(neg) s[i++] = '-';` -/
def putSign (neg : Bool) (s : Buf) (i : Nat) : Except String (Buf × Nat) :=
  if neg then do
    let s ← put s i (ch '-')
    pure (s, i + 1)
  else pure (s, i)

/-- The digits and the sign. -/
def putNumber (neg : Bool) (n : α) (s : Buf) : Except String (Buf × Nat) := do
  let (s, i) ← putDigits digit rest more s.length n s 0
  putSign neg s i

end Loop

/-! `ulib.c`. -/

def strlen (s : Buf) : Except String Nat :=
  if 0 ∈ s then .ok (s.takeWhile (· ≠ 0)).length else .error "read past the buffer"

/-- The loop of `reverse`, with a number of iterations that it cannot exceed. -/
def reverseLoop : Nat → Nat → Nat → Buf → Buf
  | 0, _, _, s => s
  | k + 1, i, j, s =>
    if i < j then reverseLoop k (i + 1) (j - 1) ((s.set i (s.getD j 0)).set j (s.getD i 0)) else s

def reverse (s : Buf) : Except String Buf := do
  let length ← strlen s
  pure (reverseLoop length 0 (length - 1) s)

/-- `n % 10 + '0'`, where the remainder has the sign of `n`. -/
def itoaDigit (n : Int) : Except String UInt8 := pure (toChar (n.tmod 10 + 48))

def itoa (n : Int) (s : Buf) : Except String Buf := do
  let sign := n
  let n := if sign < 0 then neg32 n else n
  let (s, i) ← putNumber itoaDigit (fun n => n.tdiv 10) (fun n => 0 < n) (sign < 0) n s
  let s ← put s i 0
  reverse s

/-! `printf.c` and `console.c`. -/

/-- `digits[x % base]`. -/
def printDigit (digits : List UInt8) (base x : Nat) : Except String UInt8 :=
  if base = 0 then .error "division by zero"
  else if x % base < digits.length then .ok (digits.getD (x % base) 0)
  else .error "read past the digits"

/-- The last loop of `printint`: the characters before `i`, from the last to the first. -/
def putBack (buf : Buf) (i : Nat) : List UInt8 := (buf.take i).reverse

/-- Both functions `printint`, for the digits they use and the bytes their buffer holds before, with the characters
they give out. -/
def printint (digits : List UInt8) (buf : Buf) (xx : Int) (base : Nat) (sgn : Bool) : Except String (List UInt8) := do
  let neg := sgn && xx < 0
  let x := if neg then toUint (neg32 xx) else toUint xx
  let (buf, i) ← putNumber (printDigit digits base) (fun x => x / base) (fun x => x ≠ 0) neg x buf
  pure (putBack buf i)

def upperDigits : List UInt8 := "0123456789ABCDEF".toList.map ch

def lowerDigits : List UInt8 := "0123456789abcdef".toList.map ch

/-- `printint` of `printf.c`, with the file and the character of each `putc`. -/
def printfPrintint (buf : Buf) (fd xx : Int) (base : Nat) (sgn : Bool) : Except String (List (Int × UInt8)) := do
  let out ← printint upperDigits buf xx base sgn
  pure (out.map fun c => (fd, c))

/-- `printint` of `console.c`. -/
def consolePrintint (buf : Buf) (xx : Int) (base : Nat) (sgn : Bool) : Except String (List UInt8) :=
  printint lowerDigits buf xx base sgn

/-! What is to be written. -/

/-- The decimal representation of an integer. -/
def decimal (n : Int) : List UInt8 := (toString n).toList.map ch

/-- The string in a buffer. -/
def text (s : Buf) : List UInt8 := s.takeWhile (· ≠ 0)

/-- All three write the decimal representation, and none of them leaves its buffer: `itoa` that of its caller, `printint`
one of 16 bytes. -/
structure Agree (n : Int) (s : Buf) : Prop where
  itoa : ∃ t, itoa n s = .ok t ∧ text t = decimal n
  printf : ∀ (buf : Buf) (fd : Int), buf.length = 16 →
    printfPrintint buf fd n 10 true = .ok ((decimal n).map fun c => (fd, c))
  console : ∀ buf : Buf, buf.length = 16 → consolePrintint buf n 10 true = .ok (decimal n)

/-! The loop over the digits. -/

section Loop

variable {α : Type} {digit : α → Except String UInt8} {rest : α → α} {more : α → Bool}

/-- The digits the loop writes, in the order in which it writes them. -/
inductive Digits (digit : α → Except String UInt8) (rest : α → α) (more : α → Bool) : α → List UInt8 → Prop
  | last {n : α} {c : UInt8} (hc : digit n = .ok c) (hmore : more (rest n) = false) : Digits digit rest more n [c]
  | cons {n : α} {c : UInt8} {l : List UInt8} (hc : digit n = .ok c) (hmore : more (rest n) = true)
      (htail : Digits digit rest more (rest n) l) : Digits digit rest more n (c :: l)

theorem set_middle (head tail : Buf) (c d : UInt8) : (head ++ c :: tail).set head.length d = head ++ d :: tail := by
  rw [List.set_append_right _ _ le_rfl, Nat.sub_self, List.set_cons_zero]

theorem put_middle (head tail : Buf) (c d : UInt8) :
    put (head ++ c :: tail) head.length d = .ok (head ++ d :: tail) := by
  rw [put, if_pos (by simp), set_middle]

/-- The loop leaves the digits behind what has been written before. -/
theorem putDigits_eq {n : α} {l : List UInt8} (h : Digits digit rest more n l) (head tail : Buf)
    (hroom : l.length ≤ tail.length) :
    putDigits digit rest more tail.length n (head ++ tail) head.length =
      .ok (head ++ l ++ tail.drop l.length, head.length + l.length) := by
  induction h generalizing head tail with
  | last hc hmore =>
    cases tail with
    | nil => cases hroom
    | cons t tail =>
      rw [List.length_cons, putDigits, hc]
      show (put _ _ _ >>= _) = _
      rw [put_middle]
      show (if more _ = true then _ else _) = _
      rw [hmore, if_neg Bool.false_ne_true, List.append_assoc]
      rfl
  | cons hc hmore htail ih =>
    cases tail with
    | nil => cases hroom
    | cons t tail =>
      rename_i n c l
      rw [List.length_cons, putDigits, hc]
      show (put _ _ _ >>= _) = _
      rw [put_middle]
      show (if more _ = true then _ else _) = _
      have hnext := ih (head ++ [c]) tail (Nat.le_of_succ_le_succ hroom)
      rw [List.length_append, List.length_singleton, List.append_assoc, List.singleton_append] at hnext
      rw [hmore, if_pos rfl, hnext]
      simp only [List.append_assoc, List.cons_append, List.nil_append, List.length_cons, List.drop_succ_cons,
        Nat.add_assoc, Nat.add_comm 1]

theorem Digits.ne_nil {n : α} {l : List UInt8} (h : Digits digit rest more n l) : l ≠ [] := by
  cases h with
  | last => exact List.cons_ne_nil _ _
  | cons => exact List.cons_ne_nil _ _

end Loop

/-! Decimal digits. -/

/-- The characters of a natural number. -/
def natText (m : Nat) : List UInt8 := (Nat.toDigits 10 m).map ch

theorem natText_of_lt {m : Nat} (h : m < 10) : natText m = [ch (Nat.digitChar m)] := by
  rw [natText, Nat.toDigits_of_lt_base h]
  rfl

theorem natText_of_le {m : Nat} (h : 10 ≤ m) : natText m = natText (m / 10) ++ [ch (Nat.digitChar (m % 10))] := by
  rw [natText, Nat.toDigits_of_base_le (by decide) h, List.map_append]
  rfl

theorem decimal_of_nonneg {n : Int} (h : 0 ≤ n) : decimal n = natText n.toNat := by
  obtain ⟨m, rfl⟩ := Int.eq_ofNat_of_zero_le h
  rw [decimal, natText, Int.toNat_natCast, ← Nat.toList_repr]
  rfl

theorem decimal_of_neg {n : Int} (h : n < 0) : decimal n = ch '-' :: natText (-n).toNat := by
  obtain ⟨m, rfl⟩ := Int.eq_negSucc_of_lt_zero h
  rw [decimal, natText, Int.neg_negSucc, Int.toNat_natCast, ← Nat.toList_repr]
  show ((String.append "-" (Nat.repr (m + 1))).toList).map ch = _
  rw [show String.append "-" (Nat.repr (m + 1)) = "-" ++ Nat.repr (m + 1) from rfl, String.toList_append]
  rfl

theorem natText_length {m : Nat} (h : m < 2 ^ 32) : (natText m).length ≤ 10 := by
  rw [natText, List.length_map, Nat.length_toDigits_le_iff (by decide) (by decide)]
  omega

theorem digitChar_eq {d : Nat} (h : d < 10) : ch (Nat.digitChar d) = UInt8.ofNat (d + 48) := by
  interval_cases d <;> rfl

theorem mem_natText {m : Nat} {c : UInt8} (h : c ∈ natText m) : ∃ d, d < 10 ∧ c = UInt8.ofNat (d + 48) := by
  induction m using Nat.strong_induction_on with
  | h m ih =>
    by_cases hm : m < 10
    · rw [natText_of_lt hm, List.mem_singleton] at h
      exact ⟨m, hm, h.trans (digitChar_eq hm)⟩
    · rw [natText_of_le (by omega), List.mem_append, List.mem_singleton] at h
      rcases h with h | h
      · exact ih (m / 10) (by omega) h
      · have hlast : m % 10 < 10 := Nat.mod_lt m (by decide)
        exact ⟨m % 10, hlast, h.trans (digitChar_eq hlast)⟩

theorem natText_ne_zero {m : Nat} {c : UInt8} (h : c ∈ natText m) : c ≠ 0 := by
  obtain ⟨d, hd, rfl⟩ := mem_natText h
  interval_cases d <;> decide

/-- A loop that takes natural numbers apart by 10 writes their decimal digits. -/
theorem digits_natText {α : Type} {digit : α → Except String UInt8} {rest : α → α} {more : α → Bool} (e : Nat → α)
    (hdigit : ∀ m, digit (e m) = .ok (ch (Nat.digitChar (m % 10)))) (hrest : ∀ m, rest (e m) = e (m / 10))
    (hmore : ∀ m, more (e m) = decide (m ≠ 0)) (m : Nat) : Digits digit rest more (e m) (natText m).reverse := by
  induction m using Nat.strong_induction_on with
  | h m ih =>
    have hnext : more (rest (e m)) = decide (m / 10 ≠ 0) := by rw [hrest, hmore]
    by_cases hm : m < 10
    · have hlast := hdigit m
      rw [Nat.mod_eq_of_lt hm] at hlast
      rw [natText_of_lt hm]
      refine .last hlast (hnext.trans ?_)
      rw [Nat.div_eq_of_lt hm]
      rfl
    · rw [natText_of_le (by omega), List.reverse_append]
      refine .cons (hdigit m) (hnext.trans (decide_eq_true (by omega))) ?_
      rw [hrest]
      exact ih (m / 10) (by omega)

theorem itoa_digits (m : Nat) :
    Digits itoaDigit (fun n => n.tdiv 10) (fun n => 0 < n) (m : Int) (natText m).reverse := by
  refine digits_natText (fun m : Nat => (m : Int)) (fun m => ?_) (fun m => ?_) (fun m => ?_) m
  · rw [itoaDigit, digitChar_eq (Nat.mod_lt m (by decide)), toChar]
    have hrem : ((m : Int).tmod 10 + 48) % 2 ^ 8 = ((m % 10 + 48 : Nat) : Int) := by
      rw [Int.tmod_eq_emod_of_nonneg (Int.natCast_nonneg m)]
      omega
    rw [hrem]
    rfl
  · exact Int.tdiv_eq_ediv_of_nonneg (Int.natCast_nonneg m)
  · exact decide_eq_decide.mpr (by omega)

theorem print_digits {digits : List UInt8} (h : ∀ d, d < 10 → printDigit digits 10 d = .ok (ch (Nat.digitChar d)))
    (x : Nat) : Digits (printDigit digits 10) (fun x => x / 10) (fun x => x ≠ 0) x (natText x).reverse := by
  refine digits_natText id (fun m => ?_) (fun m => rfl) (fun m => rfl) x
  rw [← h (m % 10) (Nat.mod_lt m (by decide))]
  simp only [printDigit, Nat.mod_mod, id_eq]

/-! Reversing in place. -/

theorem getD_middle (head tail : Buf) (c : UInt8) : (head ++ c :: tail).getD head.length 0 = c := by
  rw [List.getD_append_right _ _ _ _ le_rfl, Nat.sub_self, List.getD_cons_zero]

theorem swap_eq (head mid tail : Buf) (x y : UInt8) :
    ((head ++ x :: (mid ++ y :: tail)).set head.length y).set (head.length + mid.length + 1) x =
      head ++ y :: (mid ++ x :: tail) := by
  have hset := set_middle (head ++ y :: mid) tail y x
  rw [List.length_append, List.length_cons, ← Nat.add_assoc, List.append_assoc, List.append_assoc] at hset
  rw [set_middle]
  exact hset

theorem reverseLoop_eq (mid : List UInt8) {k : Nat} (head tail : Buf) (hk : mid.length ≤ k) :
    reverseLoop k head.length (head.length + mid.length - 1) (head ++ mid ++ tail) = head ++ mid.reverse ++ tail := by
  induction mid using List.bidirectionalRec generalizing k head tail with
  | nil =>
    cases k with
    | zero => rfl
    | succ k => exact if_neg (by simp)
  | singleton x =>
    cases k with
    | zero => rfl
    | succ k => exact if_neg (by simp)
  | cons_append x mid y ih =>
    cases k with
    | zero => simp at hk
    | succ k =>
      have hlist : head ++ (x :: (mid ++ [y])) ++ tail = head ++ x :: (mid ++ y :: tail) := by simp
      have hlast : head.length + (x :: (mid ++ [y])).length - 1 = head.length + mid.length + 1 := by
        rw [List.length_cons, List.length_append, List.length_singleton]
        omega
      have hy : (head ++ x :: (mid ++ y :: tail)).getD (head.length + mid.length + 1) 0 = y := by
        have hget := getD_middle (head ++ x :: mid) tail y
        rw [List.length_append, List.length_cons, ← Nat.add_assoc, List.append_assoc] at hget
        exact hget
      have hnext := ih (head ++ [y]) (x :: tail) (k := k) (by simp at hk; omega)
      rw [List.length_append, List.length_singleton] at hnext
      rw [hlist, hlast, reverseLoop, if_pos (by omega), hy, getD_middle, swap_eq,
        show head.length + mid.length + 1 - 1 = head.length + 1 + mid.length - 1 by omega]
      simp only [List.append_assoc, List.reverse_cons, List.reverse_append,
        List.reverse_nil, List.nil_append, List.cons_append] at hnext ⊢
      exact hnext

theorem reverse_eq {l : List UInt8} (h : ∀ c, c ∈ l → c ≠ 0) (tail : Buf) :
    reverse (l ++ 0 :: tail) = .ok (l.reverse ++ 0 :: tail) := by
  have hlen : strlen (l ++ 0 :: tail) = .ok l.length := by
    rw [strlen, if_pos (by simp), List.takeWhile_append_of_pos fun c hc => decide_eq_true (h c hc)]
    simp
  rw [reverse, hlen]
  have hloop := reverseLoop_eq l [] (0 :: tail) le_rfl
  rw [List.length_nil, Nat.zero_add, List.nil_append, List.nil_append] at hloop
  show Except.ok _ = _
  rw [hloop]

/-! The functions. -/

/-- The sign of a number. -/
def signText (neg : Bool) : List UInt8 := if neg then [ch '-'] else []

theorem signText_length (neg : Bool) : (signText neg).length ≤ 1 := by
  cases neg <;> decide

theorem signText_reverse (neg : Bool) : (signText neg).reverse = signText neg := by
  cases neg <;> rfl

theorem putSign_eq {neg : Bool} {head tail : Buf} (hroom : (signText neg).length ≤ tail.length) :
    putSign neg (head ++ tail) head.length =
      .ok (head ++ signText neg ++ tail.drop (signText neg).length, (head ++ signText neg).length) := by
  cases neg with
  | false =>
    show Except.ok _ = _
    rw [show signText false = [] from rfl, List.append_nil]
    rfl
  | true =>
    cases tail with
    | nil => exact absurd hroom (by decide)
    | cons c tail =>
      show (put _ _ _ >>= _) = _
      rw [put_middle, show signText true = [ch '-'] from rfl, List.length_append, List.append_assoc]
      rfl

/-- The digits and the sign stand at the beginning of the buffer. -/
theorem putNumber_eq {α : Type} {digit : α → Except String UInt8} {rest : α → α} {more : α → Bool} {n : α}
    {l : List UInt8} (h : Digits digit rest more n l) (neg : Bool) {s : Buf}
    (hroom : (l ++ signText neg).length ≤ s.length) :
    putNumber digit rest more neg n s =
      .ok (l ++ signText neg ++ s.drop (l ++ signText neg).length, (l ++ signText neg).length) := by
  rw [List.length_append] at hroom
  have hdigits := putDigits_eq h [] s (by omega)
  rw [List.nil_append, List.nil_append, List.length_nil, Nat.zero_add] at hdigits
  rw [putNumber, hdigits]
  show putSign neg (l ++ s.drop l.length) l.length = _
  rw [putSign_eq (by rw [List.length_drop]; omega), List.drop_drop, List.length_append]

/-- What `itoa` leaves, for the digits its loop writes. -/
theorem itoa_eq {n : Int} {l : List UInt8} {s : Buf}
    (h : Digits itoaDigit (fun n => n.tdiv 10) (fun n => 0 < n) (if n < 0 then neg32 n else n) l)
    (hne : ∀ c, c ∈ l → c ≠ 0) (hroom : l.length + 2 ≤ s.length) :
    ∃ t, itoa n s = .ok t ∧ text t = signText (n < 0) ++ l.reverse := by
  have hsign := signText_length (n < 0)
  have hlen : (l ++ signText (n < 0)).length + 1 ≤ s.length := by
    rw [List.length_append]
    omega
  have hnumber := putNumber_eq h (n < 0) (by omega : (l ++ signText (n < 0)).length ≤ s.length)
  obtain ⟨c, tail, hrest⟩ : ∃ c tail, s.drop (l ++ signText (n < 0)).length = c :: tail :=
    List.exists_cons_of_length_pos (by rw [List.length_drop]; omega)
  have hall : ∀ c, c ∈ l ++ signText (n < 0) → c ≠ 0 := by
    intro c hc
    rcases List.mem_append.mp hc with hc | hc
    · exact hne c hc
    · rw [signText] at hc
      split_ifs at hc with hneg
      · rw [List.mem_singleton.mp hc]
        decide
      · cases hc
  refine ⟨(l ++ signText (n < 0)).reverse ++ 0 :: tail, ?_, ?_⟩
  · rw [itoa, hnumber, hrest]
    show (put _ _ _ >>= _) = _
    rw [put_middle]
    exact reverse_eq hall tail
  · rw [text, List.takeWhile_append_of_pos fun c hc => decide_eq_true (hall c (List.mem_reverse.mp hc))]
    rw [List.takeWhile_cons_of_neg (by decide), List.append_nil, List.reverse_append, signText]
    split_ifs <;> rfl

theorem neg32_of_neg {n : Int} (hlo : -2 ^ 31 < n) (h : n < 0) : neg32 n = ((-n).toNat : Int) := by
  rw [neg32, Int.bmod_eq_of_le (by omega) (by omega)]
  omega

theorem toUint_neg32 {n : Int} (hlo : -2 ^ 31 ≤ n) (h : n < 0) : toUint (neg32 n) = (-n).toNat := by
  rw [toUint, neg32, show (2 ^ 32 : Int) = ((2 ^ 32 : Nat) : Int) from rfl, Int.bmod_emod,
    Int.emod_eq_of_lt (by omega) (by omega)]

theorem decimal_eq (n : Int) : decimal n = signText (n < 0) ++ natText (if n < 0 then -n else n).toNat := by
  by_cases hneg : n < 0
  · rw [decimal_of_neg hneg, if_pos hneg, signText, if_pos (decide_eq_true hneg)]
    rfl
  · rw [decimal_of_nonneg (not_lt.mp hneg), if_neg hneg, signText, if_neg (by simpa using hneg)]
    rfl

theorem printint_eq {digits : List UInt8} (h : ∀ d, d < 10 → printDigit digits 10 d = .ok (ch (Nat.digitChar d)))
    {n : Int} (hlo : -2 ^ 31 ≤ n) (hhi : n < 2 ^ 31) {buf : Buf} (hbuf : 11 ≤ buf.length) :
    printint digits buf n 10 true = .ok (decimal n) := by
  have hx : (if (true && decide (n < 0)) = true then toUint (neg32 n) else toUint n) =
      (if n < 0 then -n else n).toNat := by
    rw [Bool.true_and]
    by_cases hneg : n < 0
    · rw [if_pos (decide_eq_true hneg), if_pos hneg, toUint_neg32 hlo hneg]
    · rw [if_neg (by simpa using hneg), if_neg hneg, toUint, Int.emod_eq_of_lt (by omega) (by omega)]
  have hlen := natText_length (show (if n < 0 then -n else n).toNat < 2 ^ 32 by split_ifs <;> omega)
  have hsign := signText_length (n < 0)
  have hnumber := putNumber_eq (print_digits h (if n < 0 then -n else n).toNat) (n < 0) (s := buf)
    (by rw [List.length_append, List.length_reverse]; omega)
  rw [printint, hx, Bool.true_and, hnumber]
  show Except.ok _ = _
  rw [putBack, List.take_left, List.reverse_append, List.reverse_reverse, signText_reverse, decimal_eq]

theorem itoa_decimal {n : Int} (hlo : -2 ^ 31 < n) (hhi : n < 2 ^ 31) {s : Buf} (hs : 12 ≤ s.length) :
    ∃ t, itoa n s = .ok t ∧ text t = decimal n := by
  have hn : (if n < 0 then neg32 n else n) = ((if n < 0 then -n else n).toNat : Int) := by
    split_ifs with hneg
    · exact neg32_of_neg hlo hneg
    · exact (Int.toNat_of_nonneg (not_lt.mp hneg)).symm
  have hlen := natText_length (show (if n < 0 then -n else n).toNat < 2 ^ 32 by split_ifs <;> omega)
  obtain ⟨t, hrun, htext⟩ := itoa_eq (n := n) (s := s) (hn ▸ itoa_digits _)
    (fun c hc => natText_ne_zero (List.mem_reverse.mp hc)) (by rw [List.length_reverse]; omega)
  refine ⟨t, hrun, ?_⟩
  rw [htext, List.reverse_reverse, decimal_eq]

theorem itoa_min {s : Buf} (hs : 12 ≤ s.length) : ∃ t, itoa (-2 ^ 31) s = .ok t ∧ text t = [ch '-', ch '('] := by
  have hdigits : Digits itoaDigit (fun n => n.tdiv 10) (fun n => 0 < n)
      (if (-2 ^ 31 : Int) < 0 then neg32 (-2 ^ 31) else -2 ^ 31) [ch '('] := .last (by decide) (by decide)
  refine itoa_eq hdigits (fun c hc => ?_) (by rw [List.length_singleton]; omega)
  rw [List.mem_singleton.mp hc]
  decide

/-- They agree on every `int` but the least. -/
theorem agree_iff {n : Int} (hlo : -2 ^ 31 ≤ n) (hhi : n < 2 ^ 31) {s : Buf} (hs : 12 ≤ s.length) :
    Agree n s ↔ n ≠ -2 ^ 31 := by
  have hprint : ∀ buf : Buf, buf.length = 16 → printint upperDigits buf n 10 true = .ok (decimal n) :=
    fun buf hbuf => printint_eq (by decide) hlo hhi (by omega)
  constructor
  · rintro h rfl
    obtain ⟨t, hrun, htext⟩ := h.itoa
    obtain ⟨t', hrun', htext'⟩ := itoa_min hs
    rw [Except.ok.inj (hrun.symm.trans hrun'), htext', decimal_of_neg (by decide)] at htext
    obtain ⟨d, hd, heq⟩ := mem_natText ((List.cons.inj htext).2 ▸ List.mem_singleton_self (ch '('))
    interval_cases d <;> exact absurd heq (by decide)
  · intro hne
    refine ⟨itoa_decimal (by omega) hhi hs, fun buf fd hbuf => ?_, fun buf hbuf => ?_⟩
    · rw [printfPrintint, hprint buf hbuf]
      rfl
    · exact printint_eq (by decide) hlo hhi (by omega)

/-- The greatest `int` in a buffer for 11 characters. -/
theorem agree_max : Agree (2 ^ 31 - 1) (List.replicate 12 0) :=
  (agree_iff (by decide) (by decide) (by decide)).mpr (by decide)

/-- For the least `int`, `itoa` writes `-(` where `printint` prints -2147483648. -/
theorem not_agree_min : decimal (-2 ^ 31) = "-2147483648".toList.map ch ∧
    (∃ t, itoa (-2 ^ 31) (List.replicate 12 0) = .ok t ∧ text t = "-(".toList.map ch) ∧
    consolePrintint (List.replicate 16 0) (-2 ^ 31) 10 true = .ok (decimal (-2 ^ 31)) ∧
    ¬ Agree (-2 ^ 31) (List.replicate 12 0) := by
  have hdecimal : decimal (-2 ^ 31) = "-2147483648".toList.map ch := by decide +kernel
  obtain ⟨t, hrun, htext⟩ := itoa_min (s := List.replicate 12 0) (by decide)
  refine ⟨hdecimal, ⟨t, hrun, htext⟩, printint_eq (by decide) (by decide) (by decide) (by decide), fun h => ?_⟩
  obtain ⟨t', hrun', htext'⟩ := h.itoa
  rw [Except.ok.inj (hrun'.symm.trans hrun), htext, hdecimal] at htext'
  exact absurd htext' (by decide)

end Xv6.PrintInt
