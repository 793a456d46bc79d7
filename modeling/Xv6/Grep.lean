import Xv6.Shell

/-! The matcher of grep.c, and the language of a pattern. A string is the list of its bytes, without the NUL behind
them; the end of a list is where the code finds the NUL. -/

namespace Xv6.Grep

open Computability Shell

/-- The loop of `matchstar`, over what `matchhere` finds for the rest of the pattern. -/
def starLoop (c : UInt8) (rest : List UInt8 → Bool) : List UInt8 → Bool
  | [] => rest []
  | t :: text => rest (t :: text) || ((t == c || c == ch '.') && starLoop c rest text)

/-- `*text!='\0' && (re[0]=='.' || re[0]==*text)`, and what follows at the next character. -/
def oneChar (c : UInt8) (rest : List UInt8 → Bool) : List UInt8 → Bool
  | [] => false
  | t :: text => (c == ch '.' || c == t) && rest text

def matchhere : List UInt8 → List UInt8 → Bool
  | [], _ => true
  | [c], text => if c = ch '$' then text.isEmpty else oneChar c (matchhere []) text
  | c :: d :: re, text => if d = ch '*' then starLoop c (matchhere re) text else oneChar c (matchhere (d :: re)) text

def matchstar (c : UInt8) (re text : List UInt8) : Bool := starLoop c (matchhere re) text

/-- The loop of `match`. -/
def anywhere (here : List UInt8 → Bool) : List UInt8 → Bool
  | [] => here []
  | t :: text => here (t :: text) || anywhere here text

/-- `match`. -/
def matchLine : List UInt8 → List UInt8 → Bool
  | [], text => anywhere (matchhere []) text
  | c :: re, text => if c = ch '^' then matchhere re text else anywhere (matchhere (c :: re)) text

/-! The language of a pattern. -/

/-- A byte of the pattern stands for a class of bytes, once or repeated. -/
inductive Item where
  | one (c : UInt8)
  | star (c : UInt8)

/-- What a pattern consists of; whether it is held at the two ends of the text. -/
structure Pattern where
  atStart : Bool
  items : List Item
  atEnd : Bool

/-- A `*` is special behind a byte, a `$` at the end of the pattern. -/
def body : List UInt8 → List Item × Bool
  | [] => ([], false)
  | [c] => if c = ch '$' then ([], true) else ([.one c], false)
  | c :: d :: re =>
    if d = ch '*' then (.star c :: (body re).1, (body re).2) else (.one c :: (body (d :: re)).1, (body (d :: re)).2)

/-- A `^` is special at the start of the pattern. -/
def pattern : List UInt8 → Pattern
  | [] => ⟨false, [], false⟩
  | c :: re => if c = ch '^' then ⟨true, (body re).1, (body re).2⟩ else ⟨false, (body (c :: re)).1, (body (c :: re)).2⟩

/-- The bytes `c` stands for. -/
def byteClass (c : UInt8) : Language UInt8 := { w | ∃ b, w = [b] ∧ (c = ch '.' ∨ c = b) }

def Item.lang : Item → Language UInt8
  | .one c => byteClass c
  | .star c => (byteClass c)∗

def lang (items : List Item) : Language UInt8 := (items.map Item.lang).prod

/-- Some part of the text, a prefix or a suffix of it where the pattern says so, is in the language. -/
def Occurs (p : Pattern) (text : List UInt8) : Prop :=
  ∃ before found after, text = before ++ found ++ after ∧ found ∈ lang p.items ∧
    (p.atStart = true → before = []) ∧ (p.atEnd = true → after = [])

/-! Matching. -/

variable {c : UInt8} {items : List Item} {rest : List UInt8 → Bool} {re text w : List UInt8}

theorem mem_lang_nil : w ∈ lang [] ↔ w = [] := Language.mem_one w

theorem mem_lang_cons {item : Item} : w ∈ lang (item :: items) ↔ ∃ u ∈ item.lang, ∃ v ∈ lang items, u ++ v = w := by
  rw [lang, List.map_cons, List.prod_cons, Language.mem_mul]
  rfl

theorem kstar_byteClass : w ∈ (byteClass c)∗ ↔ ∀ b ∈ w, c = ch '.' ∨ c = b := by
  rw [Language.mem_kstar]
  constructor
  · rintro ⟨parts, rfl, hparts⟩ b hb
    obtain ⟨part, hpart, hmem⟩ := List.mem_flatten.mp hb
    obtain ⟨b', rfl, hb'⟩ := hparts part hpart
    rw [List.mem_singleton.mp hmem]
    exact hb'
  · intro hall
    refine ⟨w.map fun b => [b], ?_, fun part hpart => ?_⟩
    · rw [← List.flatMap_def, List.flatMap_singleton']
    obtain ⟨b, hb, rfl⟩ := List.mem_map.mp hpart
    exact ⟨b, rfl, hall b hb⟩

theorem oneChar_iff : oneChar c rest text = true ↔ ∃ u ∈ byteClass c, ∃ v, text = u ++ v ∧ rest v = true := by
  cases text with
  | nil =>
    refine iff_of_false Bool.false_ne_true ?_
    rintro ⟨u, ⟨b, rfl, -⟩, v, htext, -⟩
    cases htext
  | cons t text =>
    rw [oneChar, Bool.and_eq_true, Bool.or_eq_true, beq_iff_eq, beq_iff_eq]
    constructor
    · rintro ⟨hclass, hrest⟩
      exact ⟨[t], ⟨t, rfl, hclass⟩, text, rfl, hrest⟩
    · rintro ⟨u, ⟨b, rfl, hclass⟩, v, htext, hrest⟩
      obtain ⟨rfl, rfl⟩ := List.cons.inj htext
      exact ⟨hclass, hrest⟩

/-- Shorter repetitions are tried first, but all are. -/
theorem starLoop_iff : starLoop c rest text = true ↔ ∃ u ∈ (byteClass c)∗, ∃ v, text = u ++ v ∧ rest v = true := by
  simp only [kstar_byteClass]
  induction text with
  | nil =>
    rw [starLoop]
    constructor
    · intro hrest
      exact ⟨[], by simp, [], rfl, hrest⟩
    · rintro ⟨u, -, v, htext, hrest⟩
      rw [(List.append_eq_nil_iff.mp htext.symm).2] at hrest
      exact hrest
  | cons t text ih =>
    rw [starLoop, Bool.or_eq_true, Bool.and_eq_true, Bool.or_eq_true, beq_iff_eq, beq_iff_eq, ih]
    constructor
    · rintro (hrest | ⟨hclass, u, hu, v, rfl, hrest⟩)
      · exact ⟨[], by simp, t :: text, rfl, hrest⟩
      · refine ⟨t :: u, List.forall_mem_cons.mpr ⟨hclass.symm.imp_right Eq.symm, hu⟩, v, rfl, hrest⟩
    · rintro ⟨u, hu, v, htext, hrest⟩
      cases u with
      | nil =>
        rw [List.nil_append] at htext
        exact .inl (htext ▸ hrest)
      | cons b u =>
        obtain ⟨rfl, rfl⟩ := List.cons.inj htext
        rw [List.forall_mem_cons] at hu
        exact .inr ⟨hu.1.symm.imp_left Eq.symm, u, hu.2, v, rfl, hrest⟩

/-- A prefix of the text is in the language, or the whole text where it has to be. -/
def Begins (b : List Item × Bool) (text : List UInt8) : Prop :=
  ∃ found after, text = found ++ after ∧ found ∈ lang b.1 ∧ (b.2 = true → after = [])

theorem begins_cons {item : Item} {b : List Item × Bool} :
    Begins (item :: b.1, b.2) text ↔ ∃ u ∈ item.lang, ∃ v, text = u ++ v ∧ Begins b v := by
  constructor
  · rintro ⟨found, after, rfl, hfound, hend⟩
    obtain ⟨u, hu, v, hv, rfl⟩ := mem_lang_cons.mp hfound
    exact ⟨u, hu, v ++ after, List.append_assoc _ _ _, v, after, rfl, hv, hend⟩
  · rintro ⟨u, hu, v, rfl, found, after, rfl, hfound, hend⟩
    exact ⟨u ++ found, after, (List.append_assoc _ _ _).symm, mem_lang_cons.mpr ⟨u, hu, found, hfound, rfl⟩, hend⟩

theorem begins_nil : Begins ([], false) text :=
  ⟨[], text, rfl, mem_lang_nil.mpr rfl, fun h => absurd h Bool.false_ne_true⟩

theorem begins_end : Begins ([], true) text ↔ text = [] := by
  constructor
  · rintro ⟨found, after, rfl, hfound, hend⟩
    rw [mem_lang_nil.mp hfound, hend rfl]
    rfl
  · rintro rfl
    exact ⟨[], [], rfl, mem_lang_nil.mpr rfl, fun _ => rfl⟩

theorem matchhere_star (c : UInt8) (re text : List UInt8) :
    matchhere (c :: ch '*' :: re) text = matchstar c re text := by
  rw [matchhere, if_pos rfl, matchstar]

theorem matchhere_iff (re text : List UInt8) : matchhere re text = true ↔ Begins (body re) text := by
  induction re using body.induct generalizing text with
  | case1 => exact iff_of_true rfl begins_nil
  | case2 =>
    rw [matchhere, body, if_pos rfl, if_pos rfl, begins_end, List.isEmpty_iff]
  | case3 c hc =>
    rw [matchhere, body, if_neg hc, if_neg hc, begins_cons (b := ([], false)), oneChar_iff]
    exact exists_congr fun u => and_congr_right fun _ => exists_congr fun v => and_congr_right fun _ =>
      iff_of_true rfl begins_nil
  | case4 c re ih =>
    rw [matchhere_star, matchstar, body, if_pos rfl, begins_cons, starLoop_iff]
    simp only [ih]
    rfl
  | case5 c d re hd ih =>
    rw [matchhere, body, if_neg hd, if_neg hd, begins_cons, oneChar_iff]
    simp only [ih]
    rfl

theorem anywhere_iff {here : List UInt8 → Bool} :
    anywhere here text = true ↔ ∃ before v, text = before ++ v ∧ here v = true := by
  induction text with
  | nil =>
    rw [anywhere]
    constructor
    · exact fun hhere => ⟨[], [], rfl, hhere⟩
    · rintro ⟨before, v, htext, hhere⟩
      rw [(List.append_eq_nil_iff.mp htext.symm).2] at hhere
      exact hhere
  | cons t text ih =>
    rw [anywhere, Bool.or_eq_true, ih]
    constructor
    · rintro (hhere | ⟨before, v, rfl, hhere⟩)
      · exact ⟨[], t :: text, rfl, hhere⟩
      · exact ⟨t :: before, v, rfl, hhere⟩
    · rintro ⟨before, v, htext, hhere⟩
      cases before with
      | nil =>
        rw [List.nil_append] at htext
        exact .inl (htext ▸ hhere)
      | cons b before =>
        obtain ⟨rfl, rfl⟩ := List.cons.inj htext
        exact .inr ⟨before, v, rfl, hhere⟩

theorem anywhere_occurs (re text : List UInt8) :
    anywhere (matchhere re) text = true ↔ Occurs ⟨false, (body re).1, (body re).2⟩ text := by
  simp only [anywhere_iff, matchhere_iff]
  constructor
  · rintro ⟨before, v, rfl, found, after, rfl, hfound, hend⟩
    exact ⟨before, found, after, (List.append_assoc _ _ _).symm, hfound, fun h => absurd h Bool.false_ne_true, hend⟩
  · rintro ⟨before, found, after, rfl, hfound, -, hend⟩
    exact ⟨before, found ++ after, List.append_assoc _ _ _, found, after, rfl, hfound, hend⟩

/-- `match` returns 1 exactly when the pattern occurs in the text. -/
theorem matchLine_iff (re text : List UInt8) : matchLine re text = true ↔ Occurs (pattern re) text := by
  cases re with
  | nil => exact anywhere_occurs [] text
  | cons c re =>
    rw [matchLine, pattern]
    split_ifs
    · rw [matchhere_iff]
      constructor
      · rintro ⟨found, after, rfl, hfound, hend⟩
        exact ⟨[], found, after, rfl, hfound, fun _ => rfl, hend⟩
      · rintro ⟨before, found, after, rfl, hfound, hstart, hend⟩
        rw [hstart rfl]
        exact ⟨found, after, rfl, hfound, hend⟩
    · exact anywhere_occurs (c :: re) text

/-- A `*` behind `^` and behind another `*`, a `$` that is not last. -/
example : matchLine ("^*a**$x".toList.map ch) ("*aa**$".toList.map ch) = false ∧
    matchLine ("^*a**$$".toList.map ch) ("*aa*$".toList.map ch) = true := by
  decide

end Xv6.Grep
