import Xv6.ShellGrammar

/-! The strings of a parsed command. The pointers of the nodes are around the word tokens of the command, each token at
one place of the tree, and after `nulterminate` each pointer is to the text of its token. -/

namespace Xv6.Shell

open LibExcept

variable {s buf : List UInt8} {p p' p'' fuel : Nat} {ws ws' : List Span}

/-- The word tokens from a place on, as `gettoken` finds them. -/
inductive Reads (s : List UInt8) : Nat → List Span → Prop
  | none {p : Nat} : (gettoken s p).tok = 0 → Reads s p []
  | word {p : Nat} {ws : List Span} : (gettoken s p).tok = ch 'a' → Reads s (gettoken s p).next ws →
      Reads s p ((gettoken s p).word :: ws)
  | sym {p : Nat} {ws : List Span} : (gettoken s p).tok ≠ 0 → (gettoken s p).tok ≠ ch 'a' →
      Reads s (gettoken s p).next ws → Reads s p ws

/-- The words of `argv` and `eargv`, up to the null pointer. -/
def spansOf : List (Option Nat) → List (Option Nat) → List Span
  | some q :: argv, some e :: eargv => ⟨q, e⟩ :: spansOf argv eargv
  | _, _ => []

def Args.words (args : Args) : List Span := spansOf args.argv args.eargv

/-- The words of all nodes. -/
def Cmd.words : Cmd Args Span → List Span
  | .exec args => args.words
  | .redir cmd file _ _ => cmd.words ++ [file]
  | .pipe left right => left.words ++ right.words
  | .list left right => left.words ++ right.words
  | .back cmd => cmd.words

/-- Each argument and each file name is the text of its word, and the arguments end with a null pointer. -/
def Terminated (s buf : List UInt8) : Cmd Args Span → Prop
  | .exec args => (∃ rest, args.argv = args.words.map (fun w => some w.q) ++ none :: rest) ∧
      ∀ w ∈ args.words, textAt buf w.q = slice s w
  | .redir cmd file _ _ => Terminated s buf cmd ∧ textAt buf file.q = slice s file
  | .pipe left right => Terminated s buf left ∧ Terminated s buf right
  | .list left right => Terminated s buf left ∧ Terminated s buf right
  | .back cmd => Terminated s buf cmd

/-! Termination. -/

theorem spansOf_words (ws : List Span) (xs ys : List (Option Nat)) :
    spansOf (ws.map (fun w => some w.q) ++ none :: xs) (ws.map (fun w => some w.eq) ++ ys) = ws := by
  induction ws with
  | nil => rfl
  | cons w ws ih =>
    rw [List.map_cons, List.map_cons, List.cons_append, List.cons_append, spansOf, ih]

theorem Filled.words {args : Args} (h : Filled args ws) :
    args.words = ws ∧ ∃ rest, args.argv = ws.map (fun w => some w.q) ++ none :: rest := by
  obtain ⟨k, hk⟩ : ∃ k, maxArgs - ws.length = k + 1 := ⟨maxArgs - ws.length - 1, by have := h.room; omega⟩
  have hargv := h.argv
  rw [hk, List.replicate_succ] at hargv
  refine ⟨?_, _, hargv⟩
  rw [Args.words, hargv, h.eargv, spansOf_words]

theorem Spells.terminated {cmd : Node} {t : Tree} (h : Spells s cmd t) (htexts : cmd.texts buf = t) :
    Terminated s buf cmd := by
  induction h with
  | @exec args ws hfilled hwords =>
    obtain ⟨hspans, rest, hargv⟩ := hfilled.words
    have hargs : argTexts buf args.argv = ws.map (slice s) := Cmd.exec.inj htexts
    rw [hargv, argTexts_words, List.map_inj_left] at hargs
    rw [Terminated, hspans]
    exact ⟨⟨rest, hargv⟩, hargs⟩
  | redir _ _ ih =>
    obtain ⟨hcmd, hfile, -, -⟩ := Cmd.redir.inj htexts
    exact ⟨ih hcmd, hfile⟩
  | pipe _ _ ih ih' =>
    obtain ⟨hleft, hright⟩ := Cmd.pipe.inj htexts
    exact ⟨ih hleft, ih' hright⟩
  | list _ _ ih ih' =>
    obtain ⟨hleft, hright⟩ := Cmd.list.inj htexts
    exact ⟨ih hleft, ih' hright⟩
  | back _ ih => exact ih (Cmd.back.inj htexts)

/-! The words the parser takes. -/

/-- The cursor has moved over some words. -/
def Over (s : List UInt8) (p : Nat) (ws : List Span) (p' : Nat) : Prop :=
  ∀ ws', Reads s p' ws' → Reads s p (ws ++ ws')

theorem Over.trans (h : Over s p ws p') (h' : Over s p' ws' p'') : Over s p (ws ++ ws') p'' := by
  intro rest hrest
  rw [List.append_assoc]
  exact h _ (h' rest hrest)

theorem over_skip (s : List UInt8) (p : Nat) : Over s p [] (skip s p) := by
  intro ws hreads
  rw [List.nil_append]
  generalize hq : skip s p = q at hreads
  have hsame : gettoken s q = gettoken s p := by
    rw [← hq, gettoken_skip]
  cases hreads with
  | none htok => exact .none (hsame ▸ htok)
  | word htok hrest =>
    rw [hsame] at htok hrest ⊢
    exact .word htok hrest
  | sym h0 htok hrest =>
    rw [hsame] at h0 htok hrest
    exact .sym h0 htok hrest

theorem over_word (h : (gettoken s p).tok = ch 'a') : Over s p [(gettoken s p).word] (gettoken s p).next :=
  fun _ hreads => .word h hreads

theorem over_sym (hs : 0 ∉ s) {c : UInt8} {rest : List Token} (h : tokens s p = .sym c :: rest) :
    Over s p [] (gettoken s p).next := by
  intro ws hreads
  cases ahead_gettoken hs p with
  | nothing htok _ =>
    rw [tokens_nil htok] at h
    cases h
  | sym htok _ _ => exact .sym (sym_ne htok).1 (sym_ne htok).2.1 hreads
  | word htok _ _ _ =>
    rw [tokens_cons hs (htok ▸ (by decide)), Scanned.token, if_pos htok] at h
    cases h

def Redir.Known (r : Redir Span) : Prop := r.tok = ch '<' ∨ r.tok = ch '>' ∨ r.tok = ch '+'

theorem redircmd_words {r : Redir Span} (hr : r.Known) (cmd : Node) :
    (redircmd cmd r).words = cmd.words ++ [r.file] := by
  rw [redircmd]
  split_ifs with h1 h2 h3
  · rfl
  · rfl
  · rfl
  · exact absurd hr (by simp [Redir.Known, h1, h2, h3])

theorem redirect_words {redirs : List (Redir Span)} (hredirs : ∀ r ∈ redirs, r.Known) (cmd : Node) :
    (redirect cmd redirs).words = cmd.words ++ redirs.map Redir.file := by
  induction redirs generalizing cmd with
  | nil => exact (List.append_nil _).symm
  | cons r redirs ih =>
    rw [List.forall_mem_cons] at hredirs
    show (redirect (redircmd cmd r) redirs).words = _
    rw [ih hredirs.2, redircmd_words hredirs.1, List.append_assoc]
    rfl

/-- Whatever stops the parser. -/
def Anything (_ : Stop) : Prop := True

theorem ends_and {α : Type} {allowed : Stop → Prop} {Q R : α → Prop} {x : Except Stop α} (h : Ends allowed Q x)
    (h' : Ends Anything R x) : Ends Anything (fun a => Q a ∧ R a) x := by
  cases x with
  | ok a => exact ⟨h, h'⟩
  | error e => exact trivial

theorem parseredirs_words (hs : 0 ∉ s) (redirs : List (Redir Span)) :
    Ends Anything (fun x => ∃ new, x.1 = redirs ++ new ∧ (∀ r ∈ new, r.Known) ∧ Over s p (new.map Redir.file) x.2)
      (parseredirs s fuel redirs p) := by
  induction fuel generalizing redirs p with
  | zero => exact ends_error trivial
  | succ fuel ih =>
    rw [parseredirs_succ hs]
    split_ifs with hsees hname
    · exact ends_error trivial
    · obtain ⟨op, rest, htoks, hop⟩ := sees_redir.mp hsees
      have hknown : (gettoken s p).tok = op := (gettoken_sym hs htoks).1
      apply (ih _).mono
      rintro x ⟨new, hnew, hall, hover⟩
      refine ⟨⟨(gettoken s p).tok, (gettoken s (gettoken s p).next).word⟩ :: new, ?_, ?_, ?_⟩
      · rw [hnew, List.append_assoc]
        rfl
      · exact List.forall_mem_cons.mpr ⟨hknown ▸ hop, hall⟩
      · exact (over_sym hs htoks).trans ((over_word (not_not.mp hname)).trans hover)
    · exact ends_ok ⟨[], (List.append_nil _).symm, by simp, over_skip s p⟩

/-- What the loop of `parseexec` has added. -/
structure Added (s : List UInt8) (p : Nat) (ws : List Span) (redirs : List (Redir Span))
    (x : (Nat × Args × List (Redir Span)) × Nat) (more : List Span) (new : List (Redir Span)) (read : List Span) :
    Prop where
  argc : x.1.1 = (ws ++ more).length
  filled : Filled x.1.2.1 (ws ++ more)
  redirs : x.1.2.2 = redirs ++ new
  known : ∀ r ∈ new, r.Known
  moved : Over s p read x.2
  perm : (more ++ new.map Redir.file).Perm read

theorem parseargs_words (hs : 0 ∉ s) {args : Args} (redirs : List (Redir Span)) (hargs : Filled args ws) :
    Ends Anything (fun x => ∃ more new read, Added s p ws redirs x more new read)
      (parseargs s fuel ws.length args redirs p) := by
  induction fuel generalizing args ws redirs p with
  | zero => exact ends_error trivial
  | succ fuel ih =>
    rw [parseargs_succ hs]
    have hdone : ∃ more new read, Added s p ws redirs ((ws.length, args, redirs), skip s p) more new read := by
      refine ⟨[], [], [], ?_, ?_, (List.append_nil _).symm, by simp, over_skip s p, .nil⟩
      · rw [List.append_nil]
      · rw [List.append_nil]
        exact hargs
    split_ifs with hsees h0 hword hmany
    · exact ends_ok hdone
    · rw [next_of_zero ((gettoken_zero hs).mp h0)]
      exact ends_ok hdone
    · exact ends_error trivial
    all_goals
      obtain ⟨argv, eargv, hargv, heargv, hfilled⟩ := hargs.setArg (gettoken s p).word
      rw [bind_ok hargv, bind_ok heargv]
    · exact ends_error trivial
    · apply (parseredirs_words hs redirs).bind
      rintro ⟨redirs', p'⟩ ⟨new, hnew, hknown, hover⟩
      dsimp only at hnew hover ⊢
      subst hnew
      have hrest := ih (p := p') (redirs ++ new) (hfilled (by omega))
      rw [List.length_append, List.length_singleton] at hrest
      apply hrest.mono
      rintro x ⟨more, new', read, hadded⟩
      refine ⟨(gettoken s p).word :: more, new ++ new', (gettoken s p).word :: (new.map Redir.file ++ read),
        ?_, ?_, ?_, ?_, ?_, ?_⟩
      · rw [hadded.argc, List.append_assoc]
        rfl
      · have hfill := hadded.filled
        rw [List.append_assoc] at hfill
        exact hfill
      · rw [hadded.redirs, List.append_assoc]
      · exact List.forall_mem_append.mpr ⟨hknown, hadded.known⟩
      · exact (over_word (not_not.mp hword)).trans (hover.trans hadded.moved)
      · rw [List.cons_append, List.map_append]
        apply List.Perm.cons
        exact (List.perm_append_comm_assoc _ _ _).trans (hadded.perm.append_left _)

/-- The words of the node are those the cursor has moved over. -/
def Took (s : List UInt8) (p : Nat) (x : Node × Nat) : Prop := ∃ ws, Over s p ws x.2 ∧ x.1.words.Perm ws

theorem parsebacks_words (hs : 0 ∉ s) (cmd : Node) :
    Ends Anything (fun x => Over s p [] x.2 ∧ x.1.words = cmd.words) (parsebacks s fuel cmd p) := by
  induction fuel generalizing cmd p with
  | zero => exact ends_error trivial
  | succ fuel ih =>
    rw [parsebacks_succ hs]
    split_ifs with hsees
    · obtain ⟨rest, htoks⟩ := (sees_single (by decide) (by decide)).mp hsees
      apply (ih (.back cmd)).mono
      rintro x ⟨hover, hwords⟩
      exact ⟨(over_sym hs htoks).trans hover, hwords⟩
    · exact ends_ok ⟨over_skip s p, rfl⟩

/-- The four functions with a given bound on the recursion. -/
structure Takes (s : List UInt8) (fuel : Nat) : Prop where
  line : ∀ p, Ends Anything (Took s p) (parseline s fuel p)
  pipe : ∀ p, Ends Anything (Took s p) (parsepipe s fuel p)
  exec : ∀ p, Ends Anything (Took s p) (parseexec s fuel p)
  block : ∀ p, Ends Anything (Took s p) (parseblock s fuel p)

theorem Takes.parseline (h : Takes s fuel) (hs : 0 ∉ s) (p : Nat) :
    Ends Anything (Took s p) (parseline s (fuel + 1) p) := by
  rw [parseline_succ hs]
  apply (h.pipe p).bind
  rintro ⟨cmd, p1⟩ ⟨ws, hover, hperm⟩
  apply (parsebacks_words hs cmd).bind
  rintro ⟨cmd', p2⟩ ⟨hover', hwords⟩
  dsimp only at hover hperm hover' hwords ⊢
  have hboth := hover.trans hover'
  rw [List.append_nil] at hboth
  split_ifs with hsees
  · obtain ⟨rest, hsemi⟩ := (sees_single (by decide) (by decide)).mp hsees
    apply (h.line _).bind
    rintro ⟨right, p3⟩ ⟨ws', hover'', hperm'⟩
    refine ends_ok ⟨ws ++ ws', hboth.trans ((over_sym hs hsemi).trans hover''), ?_⟩
    show (cmd'.words ++ right.words).Perm _
    rw [hwords]
    exact hperm.append hperm'
  · refine ends_ok ⟨ws, ?_, ?_⟩
    · have hall := hboth.trans (over_skip s p2)
      rw [List.append_nil] at hall
      exact hall
    · show cmd'.words.Perm ws
      rw [hwords]
      exact hperm

theorem Takes.parsepipe (h : Takes s fuel) (hs : 0 ∉ s) (p : Nat) :
    Ends Anything (Took s p) (parsepipe s (fuel + 1) p) := by
  rw [parsepipe_succ hs]
  apply (h.exec p).bind
  rintro ⟨cmd, p1⟩ ⟨ws, hover, hperm⟩
  dsimp only at hover hperm ⊢
  split_ifs with hsees
  · obtain ⟨rest, hbar⟩ := (sees_single (by decide) (by decide)).mp hsees
    apply (h.pipe _).bind
    rintro ⟨right, p2⟩ ⟨ws', hover', hperm'⟩
    exact ends_ok ⟨ws ++ ws', hover.trans ((over_sym hs hbar).trans hover'), hperm.append hperm'⟩
  · refine ends_ok ⟨ws, ?_, hperm⟩
    have hall := hover.trans (over_skip s p1)
    rw [List.append_nil] at hall
    exact hall

theorem Takes.parseexec (h : Takes s fuel) (hs : 0 ∉ s) (p : Nat) :
    Ends Anything (Took s p) (parseexec s (fuel + 1) p) := by
  rw [parseexec_succ hs]
  split_ifs with hsees
  · apply (h.block (skip s p)).mono
    rintro x ⟨ws, hover, hperm⟩
    exact ⟨ws, (over_skip s p).trans hover, hperm⟩
  · apply (parseredirs_words hs []).bind
    rintro ⟨redirs, p1⟩ ⟨new, hnew, hknown, hover⟩
    apply (parseargs_words hs redirs filled_execcmd).bind
    rintro ⟨⟨argc, args, redirs'⟩, p2⟩ ⟨ws, new', read, hadded⟩
    obtain ⟨h1, h2⟩ := hadded.filled.setNull
    have hargc := hadded.argc
    have hredirs := hadded.redirs
    dsimp only at hnew hover hargc hredirs h1 h2 ⊢
    rw [List.nil_append] at hnew
    subst hnew
    rw [hargc, bind_ok h1, bind_ok h2, hredirs]
    refine ends_ok ⟨redirs.map Redir.file ++ read, (over_skip s p).trans (hover.trans hadded.moved), ?_⟩
    have hall : ∀ r ∈ redirs ++ new', r.Known := List.forall_mem_append.mpr ⟨hknown, hadded.known⟩
    show (redirect (.exec args) (redirs ++ new')).words.Perm _
    rw [redirect_words hall, List.map_append]
    have hwords : args.words = ws := hadded.filled.words.1
    show (args.words ++ _).Perm _
    rw [hwords]
    exact (List.perm_append_comm_assoc _ _ _).trans (hadded.perm.append_left _)

theorem Takes.parseblock (h : Takes s fuel) (hs : 0 ∉ s) (p : Nat) :
    Ends Anything (Took s p) (parseblock s (fuel + 1) p) := by
  rw [parseblock_succ hs]
  split_ifs with hsees
  · obtain ⟨rest, hopen⟩ := (sees_single (by decide) (by decide)).mp hsees
    apply (h.line _).bind
    rintro ⟨cmd, p1⟩ ⟨ws, hover, hperm⟩
    dsimp only at hover hperm ⊢
    split_ifs with hsees'
    · obtain ⟨rest', hclose⟩ := (sees_single (by decide) (by decide)).mp hsees'
      apply (parseredirs_words hs []).bind
      rintro ⟨redirs, p2⟩ ⟨new, hnew, hknown, hover'⟩
      dsimp only at hnew hover' ⊢
      rw [List.nil_append] at hnew
      subst hnew
      refine ends_ok ⟨ws ++ redirs.map Redir.file, ?_, ?_⟩
      · exact (over_sym hs hopen).trans (hover.trans ((over_sym hs hclose).trans hover'))
      · show (redirect cmd redirs).words.Perm _
        rw [redirect_words hknown]
        exact hperm.append_right _
    · exact ends_error trivial
  · exact ends_error trivial

theorem parse_takes (hs : 0 ∉ s) (fuel : Nat) : Takes s fuel := by
  induction fuel with
  | zero =>
    refine ⟨fun p => ?_, fun p => ?_, fun p => ?_, fun p => ?_⟩
    · rw [Shell.parseline]
      exact ends_error trivial
    · rw [Shell.parsepipe]
      exact ends_error trivial
    · rw [Shell.parseexec]
      exact ends_error trivial
    · rw [Shell.parseblock]
      exact ends_error trivial
  | succ fuel ih => exact ⟨ih.parseline hs, ih.parsepipe hs, ih.parseexec hs, ih.parseblock hs⟩

/-- After `parsecmd` has accepted a command, the words of its nodes are the word tokens of the command, each argument and
each file name is the text of its token, and the arguments end with a null pointer. -/
theorem strings_terminated (hs : 0 ∉ s) (hfuel : 4 * s.length + 8 ≤ fuel) {cmd : Node}
    (hrun : parsecmd fuel s = .ok (cmd, buf)) :
    Terminated s buf cmd ∧ ∃ ws, Reads s 0 ws ∧ cmd.words.Perm ws := by
  have hlen : (tokens s 0).length ≤ s.length + 1 := length_tokensFrom _
  have henough : enough .line (tokens s 0).length ≤ fuel := by
    simp only [enough]
    omega
  suffices hends : Ends Anything (fun x => Terminated s x.2 x.1 ∧ ∃ ws, Reads s 0 ws ∧ x.1.words.Perm ws)
      (parsecmd fuel s) from hends.ok hrun
  rw [parsecmd]
  apply (ends_and ((parse_sound hs fuel).line 0 henough) ((parse_takes hs fuel).line 0)).bind
  rintro ⟨cmd, p⟩ ⟨⟨ts, t, htaken, -, hspells⟩, ws, hover, hperm⟩
  obtain ⟨buf, hnul, hlater, htexts⟩ := hspells.nulterminate (kept_start s)
  dsimp only at htaken hover hperm hnul htexts ⊢
  rw [peek_eq hs p (by simp)]
  dsimp only
  split_ifs with hleft
  · exact ends_error trivial
  · have hnil := (tokens_eq_nil hs (htaken.le (Nat.zero_le _))).mpr (not_not.mp hleft)
    have hall := hover [] (.none (gettoken_nil hs hnil))
    rw [List.append_nil] at hall
    rw [bind_ok hnul]
    exact ends_ok ⟨hspells.terminated (htexts buf ⟨hlater.kept, fun _ hi => hi⟩), ws, hall, hperm⟩

/-- In `a>x|b` no NUL is in a word, though the words touch the symbols. -/
theorem strings_terminated_pipe : ∃ cmd buf, parsecmd 28 [97, 62, 120, 124, 98] = .ok (cmd, buf) ∧
    Terminated [97, 62, 120, 124, 98] buf cmd := by
  have hparses : (parsecmd 28 [97, 62, 120, 124, 98]).isOk = true := by decide +kernel
  cases hrun : parsecmd 28 [97, 62, 120, 124, 98] with
  | error e =>
    rw [hrun] at hparses
    cases hparses
  | ok x => exact ⟨x.1, x.2, rfl, (strings_terminated (by decide) (by decide) hrun).1⟩

end Xv6.Shell
