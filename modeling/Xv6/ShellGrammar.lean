import Xv6.ShellTokens

/-! The parser of the shell accepts the commands of its grammar, builds their trees, and ends in `panic`
on all others. -/

namespace Xv6.Shell

open LibExcept

variable {s : List UInt8} {p fuel : Nat} {ts rest : List Token}

/-! The parser in terms of tokens. -/

theorem sees_single {c : UInt8} (hc : symChar c = c) (hgreater : c ≠ ch '>') :
    sees [c] ts = true ↔ ∃ rest, ts = .sym c :: rest := by
  constructor
  · intro h
    match ts, h with
    | .sym d :: rest, h =>
      have hd : symChar d = c := by simpa [sees] using h
      rw [symChar] at hd
      split_ifs at hd with hplus
      · exact absurd hd.symm hgreater
      · exact ⟨rest, by rw [hd]⟩
  · rintro ⟨rest, rfl⟩
    simp [sees, hc]

theorem sees_redir : sees [ch '<', ch '>'] ts = true ↔
    ∃ op rest, ts = .sym op :: rest ∧ (op = ch '<' ∨ op = ch '>' ∨ op = ch '+') := by
  constructor
  · intro h
    match ts, h with
    | .sym op :: rest, h =>
      refine ⟨op, rest, rfl, ?_⟩
      have hop : symChar op = ch '<' ∨ symChar op = ch '>' := by simpa [sees] using h
      rw [symChar] at hop
      split_ifs at hop with hplus
      · exact .inr (.inr hplus)
      · exact hop.imp_right .inl
  · rintro ⟨op, rest, rfl, rfl | rfl | rfl⟩ <;> rfl

theorem sees_stop : sees [ch '|', ch ')', ch '&', ch ';'] ts = true ↔
    ∃ c rest, ts = .sym c :: rest ∧ (c = ch '|' ∨ c = ch ')' ∨ c = ch '&' ∨ c = ch ';') := by
  constructor
  · intro h
    match ts, h with
    | .sym c :: rest, h =>
      refine ⟨c, rest, rfl, ?_⟩
      have hc : symChar c = ch '|' ∨ symChar c = ch ')' ∨ symChar c = ch '&' ∨ symChar c = ch ';' := by
        simpa [sees] using h
      rw [symChar] at hc
      split_ifs at hc with hplus
      · exact absurd hc (by decide)
      · exact hc
  · rintro ⟨c, rest, rfl, rfl | rfl | rfl | rfl⟩ <;> rfl

theorem parseredirs_succ (hs : 0 ∉ s) (redirs : List (Redir Span)) :
    parseredirs s (fuel + 1) redirs p =
      if sees [ch '<', ch '>'] (tokens s p) then
        if (gettoken s (gettoken s p).next).tok ≠ ch 'a' then
          .error (.panic "missing file for redirection")
        else parseredirs s fuel
          (redirs ++ [⟨(gettoken s p).tok, (gettoken s (gettoken s p).next).word⟩])
          (gettoken s (gettoken s p).next).next
      else .ok (redirs, skip s p) := by
  rw [parseredirs, peek_eq hs p (by simp [symbols])]
  simp only [gettoken_skip]

theorem parseargs_succ (hs : 0 ∉ s) (argc : Nat) (cmd : Args) (redirs : List (Redir Span)) :
    parseargs s (fuel + 1) argc cmd redirs p =
      if sees [ch '|', ch ')', ch '&', ch ';'] (tokens s p) then .ok ((argc, cmd, redirs), skip s p)
      else if (gettoken s p).tok = 0 then .ok ((argc, cmd, redirs), (gettoken s p).next)
      else if (gettoken s p).tok ≠ ch 'a' then .error (.panic "syntax")
      else (do
        let argv ← setArg cmd.argv argc (some (gettoken s p).word.q)
        let eargv ← setArg cmd.eargv argc (some (gettoken s p).word.eq)
        if argc + 1 ≥ maxArgs then .error (.panic "too many args")
        else
          let (redirs, p) ← parseredirs s fuel redirs (gettoken s p).next
          parseargs s fuel (argc + 1) ⟨argv, eargv⟩ redirs p) := by
  rw [parseargs, peek_eq hs p (by simp [symbols])]
  simp only [gettoken_skip]

theorem parsebacks_succ (hs : 0 ∉ s) (cmd : Node) :
    parsebacks s (fuel + 1) cmd p =
      if sees [ch '&'] (tokens s p) then parsebacks s fuel (.back cmd) (gettoken s p).next
      else .ok (cmd, skip s p) := by
  rw [parsebacks, peek_eq hs p (by simp [symbols])]
  simp only [gettoken_skip]

theorem parseline_succ (hs : 0 ∉ s) :
    parseline s (fuel + 1) p = (do
      let (cmd, p) ← parsepipe s fuel p
      let (cmd, p) ← parsebacks s fuel cmd p
      if sees [ch ';'] (tokens s p) then
        let (right, p) ← parseline s fuel (gettoken s p).next
        .ok (.list cmd right, p)
      else .ok (cmd, skip s p)) := by
  rw [parseline]
  simp only [peek_eq hs _ (show ∀ c ∈ [ch ';'], c ∈ symbols by simp [symbols]), gettoken_skip]

theorem parsepipe_succ (hs : 0 ∉ s) :
    parsepipe s (fuel + 1) p = (do
      let (cmd, p) ← parseexec s fuel p
      if sees [ch '|'] (tokens s p) then
        let (right, p) ← parsepipe s fuel (gettoken s p).next
        .ok (.pipe cmd right, p)
      else .ok (cmd, skip s p)) := by
  rw [parsepipe]
  simp only [peek_eq hs _ (show ∀ c ∈ [ch '|'], c ∈ symbols by simp [symbols]), gettoken_skip]

theorem parseexec_succ (hs : 0 ∉ s) :
    parseexec s (fuel + 1) p =
      if sees [ch '('] (tokens s p) then parseblock s fuel (skip s p)
      else (do
        let (redirs, p) ← parseredirs s fuel [] (skip s p)
        let ((argc, cmd, redirs), p) ← parseargs s fuel 0 execcmd redirs p
        let argv ← setArg cmd.argv argc none
        let eargv ← setArg cmd.eargv argc none
        .ok (redirect (.exec ⟨argv, eargv⟩) redirs, p)) := by
  rw [parseexec, peek_eq hs p (by simp [symbols])]

theorem parseblock_succ (hs : 0 ∉ s) :
    parseblock s (fuel + 1) p =
      if sees [ch '('] (tokens s p) then (do
        let (cmd, p) ← parseline s fuel (gettoken s p).next
        if sees [ch ')'] (tokens s p) then
          let (redirs, p) ← parseredirs s fuel [] (gettoken s p).next
          .ok (redirect cmd redirs, p)
        else .error (.panic "syntax - missing )"))
      else .error (.panic "parseblock") := by
  rw [parseblock, peek_eq hs p (by simp [symbols])]
  simp only [peek_eq hs _ (show ∀ c ∈ [ch ')'], c ∈ symbols by simp [symbols]), gettoken_skip]

/-! What the nodes stand for. -/

def Redir.slice (s : List UInt8) (r : Redir Span) : Redir (List UInt8) := ⟨r.tok, Shell.slice s r.file⟩

/-- The arrays hold some words and are zero behind them. -/
structure Filled (args : Args) (ws : List Span) : Prop where
  argv : args.argv = ws.map (fun w => some w.q) ++ List.replicate (maxArgs - ws.length) none
  eargv : args.eargv = ws.map (fun w => some w.eq) ++ List.replicate (maxArgs - ws.length) none
  room : ws.length < maxArgs

/-- A node stands for a tree: its pointers are around words of the command. -/
inductive Spells (s : List UInt8) : Node → Tree → Prop
  | exec {args : Args} {ws : List Span} : Filled args ws → (∀ w ∈ ws, IsWord s w) →
      Spells s (.exec args) (.exec (ws.map (slice s)))
  | redir {cmd : Node} {t : Tree} {file : Span} {mode fd : Nat} : Spells s cmd t → IsWord s file →
      Spells s (.redir cmd file mode fd) (.redir t (slice s file) mode fd)
  | pipe {left right : Node} {l r : Tree} : Spells s left l → Spells s right r →
      Spells s (.pipe left right) (.pipe l r)
  | list {left right : Node} {l r : Tree} : Spells s left l → Spells s right r →
      Spells s (.list left right) (.list l r)
  | back {cmd : Node} {t : Tree} : Spells s cmd t → Spells s (.back cmd) (.back t)

theorem Spells.redirect {cmd : Node} {t : Tree} (h : Spells s cmd t) {redirs : List (Redir Span)}
    (hword : ∀ r ∈ redirs, IsWord s r.file) :
    Spells s (redirect cmd redirs) (redirect t (redirs.map (Redir.slice s))) := by
  induction redirs generalizing cmd t with
  | nil => exact h
  | cons r redirs ih =>
    have hr := hword r List.mem_cons_self
    suffices hone : Spells s (redircmd cmd r) (redircmd t (r.slice s)) from
      ih hone fun r' hr' => hword r' (List.mem_cons_of_mem _ hr')
    rw [redircmd, redircmd]
    show Spells s _ (if r.tok = ch '<' then .redir t (Shell.slice s r.file) oRdonly 0
      else if r.tok = ch '>' then .redir t (Shell.slice s r.file) (oWronly ||| oCreate) 1
      else if r.tok = ch '+' then .redir t (Shell.slice s r.file) (oWronly ||| oCreate) 1 else t)
    split_ifs
    · exact .redir h hr
    · exact .redir h hr
    · exact .redir h hr
    · exact h

theorem backs_back (n : Nat) (t : Tree) : backs n (.back t) = backs (n + 1) t := rfl

/-- The next argument goes to the first free place. -/
theorem Filled.setArg {args : Args} {ws : List Span} (h : Filled args ws) (w : Span) :
    ∃ argv eargv, setArg args.argv ws.length (some w.q) = .ok argv ∧
      setArg args.eargv ws.length (some w.eq) = .ok eargv ∧
      (ws.length + 1 < maxArgs → Filled ⟨argv, eargv⟩ (ws ++ [w])) := by
  have hroom := h.room
  have hset : ∀ f : Span → Nat,
      (ws.map (fun w => some (f w)) ++ List.replicate (maxArgs - ws.length) none).set ws.length
          (some (f w)) =
        (ws ++ [w]).map (fun w => some (f w)) ++ List.replicate (maxArgs - (ws ++ [w]).length) none := by
    intro f
    obtain ⟨k, hk⟩ : ∃ k, maxArgs - ws.length = k + 1 := ⟨maxArgs - ws.length - 1, by omega⟩
    have hk' : maxArgs - (ws ++ [w]).length = k := by
      rw [List.length_append, List.length_singleton]
      omega
    rw [hk, hk', List.replicate_succ, List.set_append_right _ _ (by rw [List.length_map])]
    simp
  refine ⟨_, _, if_pos ?_, if_pos ?_, fun hmore => ⟨?_, ?_, ?_⟩⟩
  · rw [h.argv]
    simp
    omega
  · rw [h.eargv]
    simp
    omega
  · show args.argv.set _ _ = _
    rw [h.argv]
    exact hset Span.q
  · show args.eargv.set _ _ = _
    rw [h.eargv]
    exact hset Span.eq
  · rw [List.length_append, List.length_singleton]
    exact hmore

/-- The null pointer behind the arguments was there already. -/
theorem Filled.setNull {args : Args} {ws : List Span} (h : Filled args ws) :
    Shell.setArg args.argv ws.length none = .ok args.argv ∧
      Shell.setArg args.eargv ws.length none = .ok args.eargv := by
  have hroom := h.room
  have hset : ∀ f : Span → Nat, Shell.setArg
      (ws.map (fun w => some (f w)) ++ List.replicate (maxArgs - ws.length) none) ws.length none =
        .ok (ws.map (fun w => some (f w)) ++ List.replicate (maxArgs - ws.length) none) := by
    intro f
    obtain ⟨k, hk⟩ : ∃ k, maxArgs - ws.length = k + 1 := ⟨maxArgs - ws.length - 1, by omega⟩
    rw [Shell.setArg, if_pos (by simp; omega), hk, List.replicate_succ,
      List.set_append_right _ _ (by rw [List.length_map])]
    simp
  rw [h.argv, h.eargv]
  exact ⟨hset Span.q, hset Span.eq⟩

/-! Soundness: what is accepted is derivable, and nothing but `panic` stops the parser. -/

def Panics (e : Stop) : Prop := ∃ text, e = .panic text

theorem tokens_word (hs : 0 ∉ s) (h : (gettoken s p).tok = ch 'a') :
    IsWord s (gettoken s p).word ∧
      Taken s p [.word (slice s (gettoken s p).word)] (gettoken s p).next := by
  have htoks := tokens_cons hs (p := p) (h ▸ (by decide))
  rw [Scanned.token, if_pos h] at htoks
  obtain ⟨-, hword, -, -, htaken⟩ := gettoken_word hs htoks
  exact ⟨hword, htaken⟩

theorem next_of_zero (h : charAt s (skip s p) = 0) : (gettoken s p).next = skip s p := by
  simp only [gettoken, tokenAt, h, if_true, skip_skip]

theorem Taken.length {p' : Nat} (h : Taken s p ts p') :
    (Shell.tokens s p).length = ts.length + (Shell.tokens s p').length := by
  rw [h.tokens, List.length_append]

theorem parseredirs_sound (hs : 0 ∉ s) (redirs : List (Redir Span)) (hfuel : (tokens s p).length < fuel) :
    Ends Panics (fun x => ∃ ts new, Taken s p ts x.2 ∧ x.1 = redirs ++ new ∧
      Redirs ts (new.map (Redir.slice s)) ∧ ∀ r ∈ new, IsWord s r.file)
      (parseredirs s fuel redirs p) := by
  induction fuel generalizing redirs p with
  | zero => exact absurd hfuel (Nat.not_lt_zero _)
  | succ fuel ih =>
    rw [parseredirs_succ hs]
    split_ifs with hsees hname
    · exact ends_error ⟨_, rfl⟩
    · obtain ⟨op, rest, htoks, hop⟩ := sees_redir.mp hsees
      obtain ⟨htok, -, htaken⟩ := gettoken_sym hs htoks
      obtain ⟨hword, htaken'⟩ := tokens_word hs (not_not.mp hname)
      have htwo := htaken.trans htaken'
      rw [htok]
      have hlen : (tokens s p).length = 2 + _ := htwo.length
      apply (ih _ (by omega)).mono
      rintro x ⟨ts, new, h1, h2, h3, h4⟩
      refine ⟨_, ⟨op, (gettoken s (gettoken s p).next).word⟩ :: new, htwo.trans h1, ?_,
        .cons hop h3, List.forall_mem_cons.mpr ⟨hword, h4⟩⟩
      rw [h2, List.append_assoc]
      rfl
    · exact ends_ok ⟨[], [], taken_skip s p, (List.append_nil _).symm, .nil, by simp⟩

theorem parseargs_sound (hs : 0 ∉ s) {args : Args} {ws : List Span} (redirs : List (Redir Span))
    (hargs : Filled args ws) (hfuel : (tokens s p).length < fuel) :
    Ends Panics (fun x => ∃ ts more new, Taken s p ts x.2 ∧
        x.1.1 = (ws ++ more).length ∧ Filled x.1.2.1 (ws ++ more) ∧ x.1.2.2 = redirs ++ new ∧
        Words ts (more.map (slice s)) (new.map (Redir.slice s)) ∧ (∀ w ∈ more, IsWord s w) ∧
        ∀ r ∈ new, IsWord s r.file)
      (parseargs s fuel ws.length args redirs p) := by
  induction fuel generalizing args ws redirs p with
  | zero => exact absurd hfuel (Nat.not_lt_zero _)
  | succ fuel ih =>
    rw [parseargs_succ hs]
    have hdone : ∃ ts more new, Taken s p ts (skip s p) ∧ ws.length = (ws ++ more).length ∧
        Filled args (ws ++ more) ∧ redirs = redirs ++ new ∧
        Words ts (more.map (slice s)) (new.map (Redir.slice s)) ∧ (∀ w ∈ more, IsWord s w) ∧
        ∀ r ∈ new, IsWord s r.file := by
      refine ⟨[], [], [], taken_skip s p, ?_, ?_, (List.append_nil _).symm, .nil, by simp, by simp⟩
      · rw [List.append_nil]
      · rw [List.append_nil]
        exact hargs
    split_ifs with hsees h0 hword hmany
    · exact ends_ok hdone
    · rw [next_of_zero ((gettoken_zero hs).mp h0)]
      exact ends_ok hdone
    · exact ends_error ⟨_, rfl⟩
    all_goals
      obtain ⟨argv, eargv, hargv, heargv, hfilled⟩ := hargs.setArg (gettoken s p).word
      rw [bind_ok hargv, bind_ok heargv]
    · exact ends_error ⟨_, rfl⟩
    · obtain ⟨hword', htaken⟩ := tokens_word hs (not_not.mp hword)
      have hlen := htaken.length
      rw [List.length_singleton] at hlen
      apply (parseredirs_sound hs redirs (by omega)).bind
      rintro ⟨redirs', p'⟩ ⟨ts, new, htaken', rfl, h3, h4⟩
      have hlen' := htaken'.length
      dsimp only at hlen' htaken' ⊢
      have hrest := ih (redirs ++ new) (hfilled (by omega)) (show (tokens s p').length < fuel by omega)
      rw [List.length_append, List.length_singleton] at hrest
      apply hrest.mono
      rintro x ⟨ts', more, new', htaken'', g2, g3, g4, g5, g6, g7⟩
      rw [List.append_assoc] at g2 g3 g4
      refine ⟨.word (slice s (gettoken s p).word) :: (ts ++ ts'), (gettoken s p).word :: more,
        new ++ new', htaken.trans (htaken'.trans htaken''), g2, g3, g4, ?_,
        List.forall_mem_cons.mpr ⟨hword', g6⟩, ?_⟩
      · rw [List.map_cons, List.map_append]
        exact .cons h3 g5
      · exact fun r hr => (List.mem_append.mp hr).elim (h4 r) (g7 r)

/-- How much recursion the parser may need for a number of tokens. -/
def enough : Category → Nat → Nat
  | .line, n => 4 * n + 4
  | .pipe, n => 4 * n + 3
  | .exec, n => 4 * n + 2

/-- A part of the command has been taken and a node for it built. -/
def Built (s : List UInt8) (p : Nat) (cat : Category) (x : Node × Nat) : Prop :=
  ∃ ts t, Taken s p ts x.2 ∧ Derives cat ts t ∧ Spells s x.1 t

theorem parsebacks_sound (hs : 0 ∉ s) {cmd : Node} {t : Tree} (hcmd : Spells s cmd t)
    (hfuel : (tokens s p).length < fuel) :
    Ends Panics (fun x => ∃ n, Taken s p (List.replicate n (.sym (ch '&'))) x.2 ∧
      Spells s x.1 (backs n t)) (parsebacks s fuel cmd p) := by
  induction fuel generalizing cmd t p with
  | zero => exact absurd hfuel (Nat.not_lt_zero _)
  | succ fuel ih =>
    rw [parsebacks_succ hs]
    split_ifs with hsees
    · obtain ⟨rest, htoks⟩ := (sees_single (by decide) (by decide)).mp hsees
      obtain ⟨-, -, htaken⟩ := gettoken_sym hs htoks
      have hlen := htaken.length
      rw [List.length_singleton] at hlen
      apply (ih hcmd.back (by omega)).mono
      rintro x ⟨n, h1, h2⟩
      exact ⟨n + 1, htaken.trans h1, h2⟩
    · exact ends_ok ⟨0, taken_skip s p, hcmd⟩

/-- The four functions with a given bound on the recursion. -/
structure Sound (s : List UInt8) (fuel : Nat) : Prop where
  line : ∀ p, enough .line (tokens s p).length ≤ fuel →
    Ends Panics (Built s p .line) (parseline s fuel p)
  pipe : ∀ p, enough .pipe (tokens s p).length ≤ fuel →
    Ends Panics (Built s p .pipe) (parsepipe s fuel p)
  exec : ∀ p, enough .exec (tokens s p).length ≤ fuel →
    Ends Panics (Built s p .exec) (parseexec s fuel p)
  block : ∀ p, 4 * (tokens s p).length + 1 ≤ fuel →
    Ends Panics (Built s p .exec) (parseblock s fuel p)

theorem Sound.parseline (h : Sound s fuel) (hs : 0 ∉ s)
    (hfuel : enough .line (tokens s p).length ≤ fuel + 1) :
    Ends Panics (Built s p .line) (parseline s (fuel + 1) p) := by
  simp only [enough] at hfuel
  rw [parseline_succ hs]
  apply (h.pipe p (by simp only [enough]; omega)).bind
  rintro ⟨cmd, p1⟩ ⟨ts, t, htaken, hderives, hspells⟩
  have hlen := htaken.length
  dsimp only at hlen htaken ⊢
  apply (parsebacks_sound hs hspells (by omega)).bind
  rintro ⟨cmd', p2⟩ ⟨n, htaken', hspells'⟩
  have hlen' := htaken'.length
  dsimp only at hlen' htaken' ⊢
  split_ifs with hsees
  · obtain ⟨rest, hsemi⟩ := (sees_single (by decide) (by decide)).mp hsees
    obtain ⟨-, -, hnext⟩ := gettoken_sym hs hsemi
    have hlen'' := hnext.length
    rw [List.length_singleton] at hlen''
    apply (h.line _ (by simp only [enough]; omega)).bind
    rintro ⟨right, p3⟩ ⟨ts', t', htaken'', hderives', hspells''⟩
    exact ends_ok ⟨_, _, (htaken.trans htaken').trans (hnext.trans htaken''), hderives.list n hderives',
      hspells'.list hspells''⟩
  · refine ends_ok ⟨_, _, ?_, hderives.line n, hspells'⟩
    have hall := (htaken.trans htaken').trans (taken_skip s p2)
    rw [List.append_nil] at hall
    exact hall

theorem Sound.parsepipe (h : Sound s fuel) (hs : 0 ∉ s)
    (hfuel : enough .pipe (tokens s p).length ≤ fuel + 1) :
    Ends Panics (Built s p .pipe) (parsepipe s (fuel + 1) p) := by
  simp only [enough] at hfuel
  rw [parsepipe_succ hs]
  apply (h.exec p (by simp only [enough]; omega)).bind
  rintro ⟨cmd, p1⟩ ⟨ts, t, htaken, hderives, hspells⟩
  have hlen := htaken.length
  dsimp only at hlen htaken ⊢
  split_ifs with hsees
  · obtain ⟨rest, hbar⟩ := (sees_single (by decide) (by decide)).mp hsees
    obtain ⟨-, -, hnext⟩ := gettoken_sym hs hbar
    have hlen' := hnext.length
    rw [List.length_singleton] at hlen'
    apply (h.pipe _ (by simp only [enough]; omega)).bind
    rintro ⟨right, p2⟩ ⟨ts', t', htaken', hderives', hspells'⟩
    exact ends_ok ⟨_, _, htaken.trans (hnext.trans htaken'), hderives.pipe hderives',
      hspells.pipe hspells'⟩
  · refine ends_ok ⟨_, _, ?_, hderives.one, hspells⟩
    have hall := htaken.trans (taken_skip s p1)
    rw [List.append_nil] at hall
    exact hall

theorem filled_execcmd : Filled execcmd [] := ⟨rfl, rfl, by decide⟩

theorem Sound.parseexec (h : Sound s fuel) (hs : 0 ∉ s)
    (hfuel : enough .exec (tokens s p).length ≤ fuel + 1) :
    Ends Panics (Built s p .exec) (parseexec s (fuel + 1) p) := by
  simp only [enough] at hfuel
  rw [parseexec_succ hs]
  split_ifs with hsees
  · apply (h.block (skip s p) (by rw [tokens_skip]; omega)).mono
    rintro x ⟨ts, t, htaken, hderives, hspells⟩
    exact ⟨ts, t, htaken.of_skip, hderives, hspells⟩
  · apply (parseredirs_sound hs [] (by rw [tokens_skip]; omega)).bind
    rintro ⟨new, p1⟩ ⟨ts, -, htaken, rfl, hredirs, hwords⟩
    have hlen := htaken.of_skip.length
    dsimp only at hlen htaken ⊢
    apply (parseargs_sound hs new filled_execcmd (by omega)).bind
    rintro ⟨⟨argc, args, redirs⟩, p2⟩ ⟨ts', ws, new', htaken', hargc, hfilled, hnew, hargs, hws, hnew'⟩
    obtain ⟨h1, h2⟩ := hfilled.setNull
    dsimp only at hargc hnew h1 h2 ⊢
    rw [hargc, bind_ok h1, bind_ok h2, hnew]
    have hspells : Spells s (.exec args) (.exec (ws.map (slice s))) := .exec hfilled hws
    have hall : ∀ r ∈ new ++ new', IsWord s r.file := fun r hr =>
      (List.mem_append.mp hr).elim (hwords r) (hnew' r)
    have hcount : (ws.map (slice s)).length ≤ maxArgs - 1 := by
      have hroom : ws.length < maxArgs := hfilled.room
      rw [List.length_map]
      omega
    have hderives := Derives.exec hredirs hargs hcount
    rw [← List.map_append] at hderives
    exact ends_ok ⟨ts ++ ts', _, htaken.of_skip.trans htaken', hderives, hspells.redirect hall⟩

theorem Sound.parseblock (h : Sound s fuel) (hs : 0 ∉ s)
    (hfuel : 4 * (tokens s p).length + 1 ≤ fuel + 1) :
    Ends Panics (Built s p .exec) (parseblock s (fuel + 1) p) := by
  rw [parseblock_succ hs]
  split_ifs with hsees
  · obtain ⟨rest, hopen⟩ := (sees_single (by decide) (by decide)).mp hsees
    obtain ⟨-, -, hnext⟩ := gettoken_sym hs hopen
    have hlen := hnext.length
    rw [List.length_singleton] at hlen
    apply (h.line _ (by simp only [enough]; omega)).bind
    rintro ⟨cmd, p1⟩ ⟨ts, t, htaken, hderives, hspells⟩
    have hlen' := htaken.length
    dsimp only at hlen' htaken ⊢
    split_ifs with hsees'
    · obtain ⟨rest', hclose⟩ := (sees_single (by decide) (by decide)).mp hsees'
      obtain ⟨-, -, hnext'⟩ := gettoken_sym hs hclose
      have hlen'' := hnext'.length
      rw [List.length_singleton] at hlen''
      apply (parseredirs_sound hs [] (by omega)).bind
      rintro ⟨redirs, p2⟩ ⟨ts', new, htaken', rfl, hredirs, hwords⟩
      exact ends_ok ⟨_, _, hnext.trans (htaken.trans (hnext'.trans htaken')), hderives.block hredirs,
        hspells.redirect hwords⟩
    · exact ends_error ⟨_, rfl⟩
  · exact ends_error ⟨_, rfl⟩

theorem parse_sound (hs : 0 ∉ s) (fuel : Nat) : Sound s fuel := by
  induction fuel with
  | zero =>
    refine ⟨?_, ?_, ?_, ?_⟩
    · exact fun p hp => absurd hp (Nat.not_succ_le_zero _)
    · exact fun p hp => absurd hp (Nat.not_succ_le_zero _)
    · exact fun p hp => absurd hp (Nat.not_succ_le_zero _)
    · exact fun p hp => absurd hp (Nat.not_succ_le_zero _)
  | succ fuel ih =>
    exact ⟨fun _ => ih.parseline hs, fun _ => ih.parsepipe hs, fun _ => ih.parseexec hs,
      fun _ => ih.parseblock hs⟩

/-! Completeness: what is derivable is accepted. -/

/-- The symbols that can stand behind a part of a command. -/
def follow : Category → List UInt8
  | .line => [ch ')']
  | .pipe => [ch ')', ch '&', ch ';']
  | .exec => [ch ')', ch '&', ch ';', ch '|']

def Follows (cat : Category) (rest : List Token) : Prop :=
  rest = [] ∨ ∃ c rest', rest = .sym c :: rest' ∧ c ∈ follow cat

theorem Follows.sees {cat : Category} (h : Follows cat rest) {toks : List UInt8}
    (htoks : (follow cat).all (fun c => !toks.contains (symChar c)) = true) : sees toks rest = false := by
  rcases h with rfl | ⟨c, rest', rfl, hc⟩
  · rfl
  · have hall := List.all_eq_true.mp htoks c hc
    rw [Bool.not_eq_true'] at hall
    exact hall

theorem Follows.mono {cat cat' : Category} (h : Follows cat rest)
    (hle : ∀ c ∈ follow cat, c ∈ follow cat') : Follows cat' rest := by
  rcases h with rfl | ⟨c, rest', rfl, hc⟩
  · exact .inl rfl
  · exact .inr ⟨c, rest', rfl, hle c hc⟩

theorem parseredirs_complete (hs : 0 ∉ s) {rs : List (Redir (List UInt8))} (h : Redirs ts rs)
    (hrest : sees [ch '<', ch '>'] rest = false) (redirs : List (Redir Span))
    (htoks : tokens s p = ts ++ rest) (hfuel : (ts ++ rest).length < fuel) :
    ∃ new p', parseredirs s fuel redirs p = .ok (redirs ++ new, p') ∧ tokens s p' = rest ∧
      new.map (Redir.slice s) = rs ∧ ∀ r ∈ new, IsWord s r.file := by
  induction h generalizing redirs p fuel with
  | nil =>
    obtain ⟨fuel, rfl⟩ : ∃ k, fuel = k + 1 := ⟨fuel - 1, by omega⟩
    rw [List.nil_append] at htoks
    refine ⟨[], skip s p, ?_, (tokens_skip s p).trans htoks, rfl, by simp⟩
    rw [parseredirs_succ hs, htoks, hrest, List.append_nil]
    exact if_neg Bool.false_ne_true
  | @cons op file ts rs hop _ ih =>
    obtain ⟨fuel, rfl⟩ : ∃ k, fuel = k + 1 := ⟨fuel - 1, by omega⟩
    obtain ⟨htok, hnext, -⟩ := gettoken_sym hs htoks
    obtain ⟨hname, hword, hslice, hnext', -⟩ := gettoken_word hs hnext
    rw [List.cons_append, List.cons_append, List.length_cons, List.length_cons] at hfuel
    obtain ⟨new, p', hparse, h1, h2, h3⟩ := ih
      (redirs ++ [⟨op, (gettoken s (gettoken s p).next).word⟩]) hnext'
      (show (ts ++ rest).length < fuel by omega)
    refine ⟨⟨op, (gettoken s (gettoken s p).next).word⟩ :: new, p', ?_, h1, ?_, ?_⟩
    · rw [parseredirs_succ hs, if_pos (sees_redir.mpr ⟨op, _, htoks, hop⟩),
        if_neg (not_not.mpr hname), htok, hparse, List.append_assoc]
      rfl
    · rw [List.map_cons, h2, Redir.slice, hslice]
    · exact List.forall_mem_cons.mpr ⟨hword, h3⟩

theorem Words.sees {ws : List (List UInt8)} {rs : List (Redir (List UInt8))} (h : Words ts ws rs)
    (hrest : Follows .exec rest) {toks : List UInt8}
    (htoks : (follow .exec).all (fun c => !toks.contains (symChar c)) = true) :
    sees toks (ts ++ rest) = false := by
  cases h with
  | nil => exact hrest.sees htoks
  | cons => rfl

theorem parseargs_complete (hs : 0 ∉ s) {ws : List (List UInt8)} {rs : List (Redir (List UInt8))}
    (h : Words ts ws rs) (hrest : Follows .exec rest) {args : Args} {old : List Span}
    (hargs : Filled args old) (hroom : old.length + ws.length < maxArgs)
    (redirs : List (Redir Span)) (htoks : tokens s p = ts ++ rest) (hfuel : (ts ++ rest).length < fuel) :
    ∃ more new args' p', parseargs s fuel old.length args redirs p =
        .ok (((old ++ more).length, args', redirs ++ new), p') ∧ tokens s p' = rest ∧
      Filled args' (old ++ more) ∧ more.map (slice s) = ws ∧ (∀ w ∈ more, IsWord s w) ∧
      new.map (Redir.slice s) = rs ∧ ∀ r ∈ new, IsWord s r.file := by
  induction h generalizing args old redirs p fuel with
  | nil =>
    obtain ⟨fuel, rfl⟩ : ∃ k, fuel = k + 1 := ⟨fuel - 1, by omega⟩
    rw [List.nil_append] at htoks
    rw [parseargs_succ hs, htoks]
    rcases hrest with rfl | ⟨c, rest', rfl, hc⟩
    · have h0 := gettoken_nil hs htoks
      refine ⟨[], [], args, (gettoken s p).next, ?_, ?_, ?_, rfl, by simp, rfl, by simp⟩
      · rw [if_neg (by simp [sees]), if_pos h0, List.append_nil, List.append_nil]
      · rw [next_of_zero ((gettoken_zero hs).mp h0), tokens_skip, htoks]
      · rw [List.append_nil]
        exact hargs
    · refine ⟨[], [], args, skip s p, ?_, (tokens_skip s p).trans htoks, ?_, rfl, by simp, rfl, by simp⟩
      · have hstop : c = ch '|' ∨ c = ch ')' ∨ c = ch '&' ∨ c = ch ';' := by
          simp only [follow, List.mem_cons, List.not_mem_nil, or_false] at hc
          tauto
        rw [if_pos (sees_stop.mpr ⟨c, rest', rfl, hstop⟩), List.append_nil, List.append_nil]
      · rw [List.append_nil]
        exact hargs
  | @cons text ts ts' rs rs' ws hredirs hwords ih =>
    obtain ⟨fuel, rfl⟩ : ∃ k, fuel = k + 1 := ⟨fuel - 1, by omega⟩
    rw [List.cons_append, List.append_assoc] at htoks hfuel
    rw [List.length_cons] at hfuel hroom
    obtain ⟨htok, hword, hslice, hnext, -⟩ := gettoken_word hs htoks
    obtain ⟨argv, eargv, hargv, heargv, hfilled⟩ := hargs.setArg (gettoken s p).word
    have hmore : sees [ch '<', ch '>'] (ts' ++ rest) = false := hwords.sees hrest (by decide)
    obtain ⟨new, p1, hparse, h1, h2, h3⟩ := parseredirs_complete hs hredirs hmore redirs hnext
      (show _ < fuel by omega)
    rw [List.length_append] at hfuel
    obtain ⟨more, new', args', p2, hparse', g1, g2, g3, g4, g5, g6⟩ := ih (hfilled (by omega))
      (by rw [List.length_append, List.length_singleton]; omega) (redirs ++ new) h1
      (show _ < fuel by omega)
    rw [List.append_assoc] at g2
    refine ⟨(gettoken s p).word :: more, new ++ new', args', p2, ?_, g1, g2, ?_, ?_, ?_, ?_⟩
    · rw [parseargs_succ hs, htoks, if_neg (by simp [sees]), if_neg (by rw [htok]; decide),
        if_neg (not_not.mpr htok), bind_ok hargv, bind_ok heargv, if_neg (by omega), bind_ok hparse]
      rw [List.length_append, List.length_singleton, List.append_assoc, List.append_assoc] at hparse'
      exact hparse'
    · rw [List.map_cons, hslice, g3]
    · exact List.forall_mem_cons.mpr ⟨hword, g4⟩
    · rw [List.map_append, h2, g5]
    · exact fun r hr => (List.mem_append.mp hr).elim (h3 r) (g6 r)

theorem parsebacks_complete (hs : 0 ∉ s) {n : Nat} (hrest : sees [ch '&'] rest = false) {cmd : Node}
    {t : Tree} (hcmd : Spells s cmd t) (htoks : tokens s p = List.replicate n (.sym (ch '&')) ++ rest)
    (hfuel : n < fuel) :
    ∃ cmd' p', parsebacks s fuel cmd p = .ok (cmd', p') ∧ tokens s p' = rest ∧
      Spells s cmd' (backs n t) := by
  induction n generalizing cmd t p fuel with
  | zero =>
    obtain ⟨fuel, rfl⟩ : ∃ k, fuel = k + 1 := ⟨fuel - 1, by omega⟩
    rw [List.replicate_zero, List.nil_append] at htoks
    refine ⟨cmd, skip s p, ?_, (tokens_skip s p).trans htoks, hcmd⟩
    rw [parsebacks_succ hs, htoks, hrest]
    exact if_neg Bool.false_ne_true
  | succ n ih =>
    obtain ⟨fuel, rfl⟩ : ∃ k, fuel = k + 1 := ⟨fuel - 1, by omega⟩
    rw [List.replicate_succ, List.cons_append] at htoks
    obtain ⟨-, hnext, -⟩ := gettoken_sym hs htoks
    obtain ⟨cmd', p', hparse, h1, h2⟩ := ih hcmd.back hnext (show n < fuel by omega)
    refine ⟨cmd', p', ?_, h1, h2⟩
    rw [parsebacks_succ hs, if_pos ((sees_single (by decide) (by decide)).mpr ⟨_, htoks⟩)]
    exact hparse

/-- The function for each part of a command. -/
def parse (s : List UInt8) : Category → Nat → Nat → Except Stop (Node × Nat)
  | .line => parseline s
  | .pipe => parsepipe s
  | .exec => parseexec s

/-- The part is taken, whatever may follow it. -/
def Accepted (s : List UInt8) (cat : Category) (ts : List Token) (t : Tree) : Prop :=
  ∀ p fuel rest, tokens s p = ts ++ rest → Follows cat rest →
    enough cat (ts ++ rest).length ≤ fuel →
    ∃ cmd p', parse s cat fuel p = .ok (cmd, p') ∧ tokens s p' = rest ∧ Spells s cmd t

section Accepted

variable {ts' : List Token} {t t' : Tree} {rs rs' : List (Redir (List UInt8))}

theorem Accepted.line (hs : 0 ∉ s) (h : Accepted s .pipe ts t) (n : Nat) :
    Accepted s .line (ts ++ List.replicate n (.sym (ch '&'))) (backs n t) := by
  intro p fuel rest htoks hrest hfuel
  simp only [enough, List.append_assoc, List.length_append, List.length_replicate] at htoks hfuel
  obtain ⟨fuel, rfl⟩ : ∃ k, fuel = k + 1 := ⟨fuel - 1, by omega⟩
  have hfollow : Follows .pipe (List.replicate n (.sym (ch '&')) ++ rest) := by
    cases n with
    | zero => exact hrest.mono (by simp [follow])
    | succ n => exact .inr ⟨_, _, rfl, by decide⟩
  obtain ⟨cmd, p1, hparse, h1, h2⟩ := h p fuel _ htoks hfollow
    (by simp only [enough, List.length_append, List.length_replicate]; omega)
  obtain ⟨cmd', p2, hparse', g1, g2⟩ := parsebacks_complete hs (hrest.sees (by decide)) h2 h1
    (show n < fuel by omega)
  refine ⟨cmd', skip s p2, ?_, (tokens_skip s p2).trans g1, g2⟩
  show parseline s (fuel + 1) p = _
  rw [parseline_succ hs, bind_ok (x := parsepipe s fuel p) hparse]
  dsimp only
  rw [bind_ok hparse']
  dsimp only
  rw [g1, hrest.sees (by decide)]
  exact if_neg Bool.false_ne_true

theorem Accepted.list (hs : 0 ∉ s) (h : Accepted s .pipe ts t) (n : Nat)
    (h' : Accepted s .line ts' t') :
    Accepted s .line (ts ++ List.replicate n (.sym (ch '&')) ++ .sym (ch ';') :: ts')
      (.list (backs n t) t') := by
  intro p fuel rest htoks hrest hfuel
  simp only [enough, List.append_assoc, List.length_append, List.length_replicate, List.cons_append,
    List.length_cons] at htoks hfuel
  obtain ⟨fuel, rfl⟩ : ∃ k, fuel = k + 1 := ⟨fuel - 1, by omega⟩
  have hfollow : Follows .pipe (List.replicate n (.sym (ch '&')) ++ .sym (ch ';') :: (ts' ++ rest)) := by
    cases n with
    | zero => exact .inr ⟨_, _, rfl, by decide⟩
    | succ n => exact .inr ⟨_, _, rfl, by decide⟩
  obtain ⟨cmd, p1, hparse, h1, h2⟩ := h p fuel _ htoks hfollow
    (by simp only [enough, List.length_append, List.length_replicate, List.length_cons]; omega)
  obtain ⟨cmd', p2, hparse', g1, g2⟩ := parsebacks_complete hs rfl h2 h1 (show n < fuel by omega)
  obtain ⟨-, hnext, -⟩ := gettoken_sym hs g1
  obtain ⟨right, p3, hright, k1, k2⟩ := h' _ fuel rest hnext hrest
    (by simp only [enough, List.length_append]; omega)
  refine ⟨.list cmd' right, p3, ?_, k1, g2.list k2⟩
  show parseline s (fuel + 1) p = _
  rw [parseline_succ hs, bind_ok (x := parsepipe s fuel p) hparse]
  dsimp only
  rw [bind_ok hparse']
  dsimp only
  rw [if_pos ((sees_single (by decide) (by decide)).mpr ⟨_, g1⟩), bind_ok (x := parseline s _ _) hright]

theorem Accepted.one (hs : 0 ∉ s) (h : Accepted s .exec ts t) : Accepted s .pipe ts t := by
  intro p fuel rest htoks hrest hfuel
  simp only [enough] at hfuel
  obtain ⟨fuel, rfl⟩ : ∃ k, fuel = k + 1 := ⟨fuel - 1, by omega⟩
  obtain ⟨cmd, p1, hparse, h1, h2⟩ := h p fuel rest htoks (hrest.mono (by simp [follow]))
    (by simp only [enough]; omega)
  refine ⟨cmd, skip s p1, ?_, (tokens_skip s p1).trans h1, h2⟩
  show parsepipe s (fuel + 1) p = _
  rw [parsepipe_succ hs, bind_ok (x := parseexec s fuel p) hparse]
  dsimp only
  rw [h1, hrest.sees (by decide)]
  exact if_neg Bool.false_ne_true

theorem Accepted.pipe (hs : 0 ∉ s) (h : Accepted s .exec ts t) (h' : Accepted s .pipe ts' t') :
    Accepted s .pipe (ts ++ .sym (ch '|') :: ts') (.pipe t t') := by
  intro p fuel rest htoks hrest hfuel
  simp only [enough, List.append_assoc, List.length_append, List.cons_append,
    List.length_cons] at htoks hfuel
  obtain ⟨fuel, rfl⟩ : ∃ k, fuel = k + 1 := ⟨fuel - 1, by omega⟩
  obtain ⟨cmd, p1, hparse, h1, h2⟩ := h p fuel _ htoks (.inr ⟨_, _, rfl, by decide⟩)
    (by simp only [enough, List.length_append, List.length_cons]; omega)
  obtain ⟨-, hnext, -⟩ := gettoken_sym hs h1
  obtain ⟨right, p2, hright, k1, k2⟩ := h' _ fuel rest hnext hrest
    (by simp only [enough, List.length_append]; omega)
  refine ⟨.pipe cmd right, p2, ?_, k1, h2.pipe k2⟩
  show parsepipe s (fuel + 1) p = _
  rw [parsepipe_succ hs, bind_ok (x := parseexec s fuel p) hparse]
  dsimp only
  rw [if_pos ((sees_single (by decide) (by decide)).mpr ⟨_, h1⟩), bind_ok (x := parsepipe s _ _) hright]

theorem Accepted.block (hs : 0 ∉ s) (h : Accepted s .line ts t) (hredirs : Redirs ts' rs) :
    Accepted s .exec (.sym (ch '(') :: (ts ++ .sym (ch ')') :: ts')) (redirect t rs) := by
  intro p fuel rest htoks hrest hfuel
  simp only [enough, List.append_assoc, List.length_append, List.cons_append,
    List.length_cons] at htoks hfuel
  obtain ⟨fuel, rfl⟩ : ∃ k, fuel = k + 2 := ⟨fuel - 2, by omega⟩
  have hopen : sees [ch '('] (tokens s p) = true :=
    (sees_single (by decide) (by decide)).mpr ⟨_, htoks⟩
  obtain ⟨-, hnext, -⟩ := gettoken_sym hs htoks
  obtain ⟨cmd, p1, hparse, h1, h2⟩ := h _ fuel _ hnext (.inr ⟨_, _, rfl, by decide⟩)
    (by simp only [enough, List.length_append, List.length_cons]; omega)
  obtain ⟨-, hnext', -⟩ := gettoken_sym hs h1
  obtain ⟨new, p2, hparse', g1, g2, g3⟩ := parseredirs_complete hs hredirs
    (hrest.sees (by decide)) [] hnext' (show _ < fuel by rw [List.length_append]; omega)
  refine ⟨redirect cmd new, p2, ?_, g1, g2 ▸ h2.redirect g3⟩
  show parseexec s (fuel + 1 + 1) p = _
  rw [parseexec_succ hs, if_pos hopen, parseblock_succ hs, tokens_skip, gettoken_skip, if_pos hopen,
    bind_ok (x := parseline s fuel _) hparse]
  dsimp only
  rw [if_pos ((sees_single (by decide) (by decide)).mpr ⟨_, h1⟩), bind_ok hparse']
  rfl

theorem Accepted.exec (hs : 0 ∉ s) (hredirs : Redirs ts rs) {ws : List (List UInt8)}
    (hwords : Words ts' ws rs') (hcount : ws.length ≤ maxArgs - 1) :
    Accepted s .exec (ts ++ ts') (redirect (.exec ws) (rs ++ rs')) := by
  intro p fuel rest htoks hrest hfuel
  simp only [enough, List.append_assoc, List.length_append] at htoks hfuel
  obtain ⟨fuel, rfl⟩ : ∃ k, fuel = k + 1 := ⟨fuel - 1, by omega⟩
  have hopen : sees [ch '('] (tokens s p) = false := by
    rw [htoks]
    cases hredirs with
    | nil => exact hwords.sees hrest (by decide)
    | cons hop _ => rcases hop with rfl | rfl | rfl <;> rfl
  obtain ⟨new, p1, hparse, h1, h2, h3⟩ := parseredirs_complete hs hredirs
    (hwords.sees hrest (by decide)) [] ((tokens_skip s p).trans htoks)
    (show _ < fuel by rw [List.length_append, List.length_append]; omega)
  have hlt : ([] : List Span).length + ws.length < maxArgs := by
    have : 0 < maxArgs := by decide
    rw [List.length_nil]
    omega
  obtain ⟨more, new', args, p2, hparse', g1, g2, g3, g4, g5, g6⟩ := parseargs_complete hs hwords hrest
    filled_execcmd hlt ([] ++ new) h1 (show _ < fuel by rw [List.length_append]; omega)
  obtain ⟨k1, k2⟩ := g2.setNull
  have hspells : Spells s (.exec args) (.exec ws) := g3 ▸ .exec g2 g4
  have hall : ∀ r ∈ new ++ new', IsWord s r.file := fun r hr =>
    (List.mem_append.mp hr).elim (h3 r) (g6 r)
  have htree := hspells.redirect hall
  rw [List.map_append, h2, g5] at htree
  refine ⟨_, p2, ?_, g1, htree⟩
  show parseexec s (fuel + 1) p = _
  rw [parseexec_succ hs, hopen, if_neg Bool.false_ne_true, bind_ok hparse]
  dsimp only
  rw [← List.length_nil (α := Span), bind_ok hparse']
  dsimp only
  rw [bind_ok k1, bind_ok k2]
  rfl

theorem Derives.accepted (hs : 0 ∉ s) {cat : Category} (h : Derives cat ts t) : Accepted s cat ts t := by
  induction h with
  | line n _ ih => exact ih.line hs n
  | list n _ _ ih ih' => exact ih.list hs n ih'
  | one _ ih => exact ih.one hs
  | pipe _ _ ih ih' => exact ih.pipe hs ih'
  | block _ hredirs ih => exact ih.block hs hredirs
  | exec hredirs hwords hcount => exact .exec hs hredirs hwords hcount

end Accepted

/-! The strings in the buffer. -/

/-- The words are in the buffer as they were in the command. -/
structure Kept (s buf : List UInt8) : Prop where
  length : buf.length = s.length + 1
  bytes : ∀ i, WordChar (charAt s i) → charAt buf i = charAt s i

/-- A later buffer, which has more NULs. -/
structure Later (s buf buf' : List UInt8) : Prop where
  kept : Kept s buf'
  nul : ∀ i, charAt buf i = 0 → charAt buf' i = 0

variable {buf buf' buf'' : List UInt8}

theorem Later.trans (h : Later s buf buf') (h' : Later s buf' buf'') : Later s buf buf'' :=
  ⟨h'.kept, fun i hi => h'.nul i (h.nul i hi)⟩

theorem textAt_cons {q : Nat} (h : charAt buf q ≠ 0) :
    textAt buf q = charAt buf q :: textAt buf (q + 1) := by
  have hlt : q < buf.length := by
    by_contra hge
    rw [charAt, List.getD_eq_default _ _ (by omega)] at h
    exact h rfl
  rw [charAt, List.getD_eq_getElem _ _ hlt] at *
  rw [textAt, List.drop_eq_getElem_cons hlt, List.takeWhile_cons_of_pos (by simpa using h)]
  rfl

theorem textAt_nil {q : Nat} (h : charAt buf q = 0) : textAt buf q = [] := by
  rw [textAt]
  rcases Nat.lt_or_ge q buf.length with hlt | hge
  · rw [charAt, List.getD_eq_getElem _ _ hlt] at h
    rw [List.drop_eq_getElem_cons hlt, List.takeWhile_cons_of_neg (by simpa using h)]
  · rw [List.drop_eq_nil_of_le hge]
    rfl

theorem slice_cons {q e : Nat} (hlt : q < e) (hle : e ≤ s.length) :
    slice s ⟨q, e⟩ = charAt s q :: slice s ⟨q + 1, e⟩ := by
  obtain ⟨k, rfl⟩ : ∃ k, e = q + 1 + k := ⟨e - (q + 1), by omega⟩
  show (s.drop q).take (q + 1 + k - q) = charAt s q :: (s.drop (q + 1)).take (q + 1 + k - (q + 1))
  rw [charAt, List.getD_eq_getElem _ _ (by omega), List.drop_eq_getElem_cons (by omega),
    show q + 1 + k - q = k + 1 by omega, List.take_succ_cons, Nat.add_sub_cancel_left]

/-- A word with a NUL behind it is a string. -/
theorem IsWord.textAt {w : Span} (h : IsWord s w) (hkept : Kept s buf) (hnul : charAt buf w.eq = 0) :
    textAt buf w.q = slice s w := by
  obtain ⟨q, e⟩ := w
  obtain ⟨hlt, hle, hchars, -⟩ := h
  dsimp only at hlt hle hchars hnul ⊢
  induction hk : e - q generalizing q with
  | zero => omega
  | succ k ih =>
    have hchar := hchars q le_rfl hlt
    have hbyte := hkept.bytes q hchar
    rw [textAt_cons (hbyte ▸ hchar.1), slice_cons hlt hle, hbyte]
    rcases Nat.lt_or_ge (q + 1) e with hmore | hlast
    · rw [ih (q + 1) hmore (fun i hi => hchars i (by omega)) (by omega)]
    · have heq : e = q + 1 := by omega
      subst heq
      rw [textAt_nil hnul, slice, Nat.sub_self, List.take_zero]

theorem IsWord.setNul {w : Span} (h : IsWord s w) (hkept : Kept s buf) :
    ∃ buf', setNul buf w.eq = .ok buf' ∧ Later s buf buf' ∧ charAt buf' w.eq = 0 := by
  have hlt : w.eq < buf.length := by
    have := h.le
    have := hkept.length
    omega
  have hset : ∀ i, charAt (buf.set w.eq 0) i = if w.eq = i then 0 else charAt buf i := by
    intro i
    rw [charAt, List.getD_eq_getElem?_getD, List.getElem?_set]
    split_ifs with heq
    · rfl
    · rw [charAt, List.getD_eq_getElem?_getD]
  refine ⟨buf.set w.eq 0, if_pos hlt, ⟨⟨?_, ?_⟩, ?_⟩, ?_⟩
  · rw [List.length_set]
    exact hkept.length
  · intro i hi
    rw [hset, if_neg]
    · exact hkept.bytes i hi
    · rintro rfl
      exact h.ends hi
  · intro i hi
    rw [hset, hi, ite_self]
  · rw [hset, if_pos rfl]

theorem nulArgs_ends {ws : List Span} (hwords : ∀ w ∈ ws, IsWord s w) (xs ys : List (Option Nat))
    (hkept : Kept s buf) :
    ∃ buf', nulArgs (ws.map (fun w => some w.q) ++ none :: xs) (ws.map (fun w => some w.eq) ++ ys) buf =
        .ok buf' ∧ Later s buf buf' ∧ ∀ w ∈ ws, charAt buf' w.eq = 0 := by
  induction ws generalizing buf with
  | nil => exact ⟨buf, rfl, ⟨hkept, fun _ hi => hi⟩, by simp⟩
  | cons w ws ih =>
    rw [List.forall_mem_cons] at hwords
    obtain ⟨buf1, hset, hlater, hnul⟩ := hwords.1.setNul hkept
    obtain ⟨buf2, hrest, hlater', hnul'⟩ := ih hwords.2 hlater.kept
    refine ⟨buf2, ?_, hlater.trans hlater', ?_⟩
    · rw [List.map_cons, List.map_cons, List.cons_append, List.cons_append, nulArgs, bind_ok hset]
      exact hrest
    · exact List.forall_mem_cons.mpr ⟨hlater'.nul _ hnul, hnul'⟩

theorem argTexts_words (buf : List UInt8) (ws : List Span) (xs : List (Option Nat)) :
    argTexts buf (ws.map (fun w => some w.q) ++ none :: xs) = ws.map fun w => textAt buf w.q := by
  induction ws with
  | nil => rfl
  | cons w ws ih => rw [List.map_cons, List.cons_append, argTexts, ih, List.map_cons]

/-- All strings of the tree are ended, and stay so. -/
theorem Spells.nulterminate {cmd : Node} {t : Tree} (h : Spells s cmd t) (hkept : Kept s buf) :
    ∃ buf', nulterminate cmd buf = .ok buf' ∧ Later s buf buf' ∧
      ∀ buf'', Later s buf' buf'' → cmd.texts buf'' = t := by
  induction h generalizing buf with
  | @exec args ws hfilled hwords =>
    obtain ⟨k, hk⟩ : ∃ k, maxArgs - ws.length = k + 1 :=
      ⟨maxArgs - ws.length - 1, by have := hfilled.room; omega⟩
    have hargv := hfilled.argv
    have heargv := hfilled.eargv
    rw [hk, List.replicate_succ] at hargv
    obtain ⟨buf', hrun, hlater, hnul⟩ := nulArgs_ends hwords (List.replicate k none)
      (List.replicate (maxArgs - ws.length) none) hkept
    refine ⟨buf', ?_, hlater, fun buf'' hlater' => ?_⟩
    · rw [Shell.nulterminate, hargv, heargv]
      exact hrun
    · show Cmd.exec (argTexts buf'' args.argv) = _
      rw [hargv, argTexts_words]
      congr 1
      exact List.map_congr_left fun w hw =>
        (hwords w hw).textAt hlater'.kept (hlater'.nul _ (hnul w hw))
  | @redir cmd t file mode fd _ hfile ih =>
    obtain ⟨buf1, hrun, hlater, htexts⟩ := ih hkept
    obtain ⟨buf2, hset, hlater', hnul⟩ := hfile.setNul hlater.kept
    refine ⟨buf2, ?_, hlater.trans hlater', fun buf'' hlast => ?_⟩
    · rw [Shell.nulterminate, bind_ok hrun]
      exact hset
    · show Cmd.redir (cmd.texts buf'') (textAt buf'' file.q) mode fd = _
      rw [htexts buf'' (hlater'.trans hlast), hfile.textAt hlast.kept (hlast.nul _ hnul)]
  | @pipe left right l r _ _ ih ih' =>
    obtain ⟨buf1, hrun, hlater, htexts⟩ := ih hkept
    obtain ⟨buf2, hrun', hlater', htexts'⟩ := ih' hlater.kept
    refine ⟨buf2, ?_, hlater.trans hlater', fun buf'' hlast => ?_⟩
    · rw [Shell.nulterminate, bind_ok hrun]
      exact hrun'
    · show Cmd.pipe (left.texts buf'') (right.texts buf'') = _
      rw [htexts buf'' (hlater'.trans hlast), htexts' buf'' hlast]
  | @list left right l r _ _ ih ih' =>
    obtain ⟨buf1, hrun, hlater, htexts⟩ := ih hkept
    obtain ⟨buf2, hrun', hlater', htexts'⟩ := ih' hlater.kept
    refine ⟨buf2, ?_, hlater.trans hlater', fun buf'' hlast => ?_⟩
    · rw [Shell.nulterminate, bind_ok hrun]
      exact hrun'
    · show Cmd.list (left.texts buf'') (right.texts buf'') = _
      rw [htexts buf'' (hlater'.trans hlast), htexts' buf'' hlast]
  | @back cmd t _ ih =>
    obtain ⟨buf1, hrun, hlater, htexts⟩ := ih hkept
    refine ⟨buf1, hrun, hlater, fun buf'' hlast => ?_⟩
    show Cmd.back (cmd.texts buf'') = _
    rw [htexts buf'' hlast]

theorem kept_start (s : List UInt8) : Kept s (s ++ [0]) := by
  refine ⟨by simp, fun i hi => ?_⟩
  rw [charAt, charAt, List.getD_eq_getElem?_getD, List.getD_eq_getElem?_getD]
  rcases Nat.lt_or_ge i s.length with hlt | hge
  · rw [List.getElem?_append_left hlt]
  · refine absurd ?_ hi.1
    rw [charAt, List.getD_eq_default _ _ hge]

theorem tokens_eq_nil (hs : 0 ∉ s) (hp : p ≤ s.length) : tokens s p = [] ↔ skip s p = s.length := by
  have hle := skip_le hp
  have hzero : tokens s p = [] ↔ charAt s (skip s p) = 0 := by
    rw [← gettoken_zero hs]
    exact ⟨gettoken_nil hs, tokens_nil⟩
  rw [hzero, charAt_eq_zero hs]
  omega

theorem parsecmd_ends (hs : 0 ∉ s) (hfuel : enough .line (tokens s 0).length ≤ fuel) :
    Ends Panics (fun x => Derives .line (tokens s 0) (x.1.texts x.2)) (parsecmd fuel s) := by
  rw [parsecmd]
  apply ((parse_sound hs fuel).line 0 hfuel).bind
  rintro ⟨cmd, p⟩ ⟨ts, t, htaken, hderives, hspells⟩
  obtain ⟨buf, hrun, hlater, htexts⟩ := hspells.nulterminate (kept_start s)
  dsimp only at htaken hrun htexts ⊢
  rw [peek_eq hs p (by simp)]
  dsimp only
  split_ifs with hleft
  · exact ends_error ⟨_, rfl⟩
  · have hnil := (tokens_eq_nil hs (htaken.le (Nat.zero_le _))).mpr (not_not.mp hleft)
    have htoks := htaken.tokens
    rw [hnil, List.append_nil] at htoks
    rw [bind_ok hrun]
    refine ends_ok ?_
    show Derives .line (tokens s 0) (cmd.texts buf)
    rw [htoks, htexts buf ⟨hlater.kept, fun _ hi => hi⟩]
    exact hderives

theorem parsecmd_accepts (hs : 0 ∉ s) {t : Tree} (h : Derives .line (tokens s 0) t)
    (hfuel : enough .line (tokens s 0).length ≤ fuel) :
    ∃ cmd buf, parsecmd fuel s = .ok (cmd, buf) ∧ cmd.texts buf = t := by
  obtain ⟨cmd, p, hparse, hnil, hspells⟩ := h.accepted hs 0 fuel [] (List.append_nil _).symm (.inl rfl)
    (by rw [List.append_nil]; exact hfuel)
  obtain ⟨ts, t', htaken, -, -⟩ := ((parse_sound hs fuel).line 0 hfuel).ok hparse
  obtain ⟨buf, hrun, hlater, htexts⟩ := hspells.nulterminate (kept_start s)
  have hend := (tokens_eq_nil hs (htaken.le (Nat.zero_le _))).mp hnil
  refine ⟨cmd, buf, ?_, htexts buf ⟨hlater.kept, fun _ hi => hi⟩⟩
  rw [parsecmd, bind_ok (x := parseline s fuel 0) hparse]
  dsimp only
  rw [peek_eq hs p (by simp)]
  dsimp only at hend ⊢
  rw [if_neg (not_not.mpr hend), bind_ok hrun]

/-- The parser returns or ends in `panic`, however much room for recursion there is from some point on. It
accepts the commands the grammar derives, and returns their trees. -/
theorem parsecmd_grammar (hs : 0 ∉ s) (hfuel : 4 * s.length + 8 ≤ fuel) :
    (∀ t, Derives .line (tokens s 0) t ↔
        ∃ cmd buf, parsecmd fuel s = .ok (cmd, buf) ∧ cmd.texts buf = t) ∧
      ((¬ ∃ t, Derives .line (tokens s 0) t) → ∃ text, parsecmd fuel s = .error (.panic text)) := by
  have hlen : (tokens s 0).length ≤ s.length + 1 := length_tokensFrom _
  have henough : enough .line (tokens s 0).length ≤ fuel := by
    simp only [enough]
    omega
  have hends := parsecmd_ends hs henough
  refine ⟨fun t => ⟨fun h => parsecmd_accepts hs h henough, ?_⟩, fun hnone => ?_⟩
  · rintro ⟨cmd, buf, hrun, rfl⟩
    exact hends.ok hrun
  · cases hrun : parsecmd fuel s with
    | ok x => exact absurd ⟨_, hends.ok hrun⟩ hnone
    | error e =>
      rw [hrun] at hends
      obtain ⟨text, rfl⟩ := hends
      exact ⟨text, rfl⟩

/-- `a>x|b;` is derived with its tree. -/
theorem parsecmd_derives :
    Derives .line (tokens [97, 62, 120, 124, 98, 59] 0)
      (.list (.pipe (.redir (.exec [[97]]) [120] 513 1) (.exec [[98]])) (.exec [])) := by
  apply ((parsecmd_grammar (s := [97, 62, 120, 124, 98, 59]) (by decide)
    (show 4 * 6 + 8 ≤ 32 by decide)).1 _).mpr
  have hrun : ((parsecmd 32 [97, 62, 120, 124, 98, 59]).toOption.map fun x => decide (x.1.texts x.2 =
      .list (.pipe (.redir (.exec [[97]]) [120] 513 1) (.exec [[98]])) (.exec []))) = some true := by
    decide +kernel
  cases hparse : parsecmd 32 [97, 62, 120, 124, 98, 59] with
  | error e =>
    rw [hparse] at hrun
    cases hrun
  | ok x =>
    rw [hparse] at hrun
    exact ⟨x.1, x.2, rfl, of_decide_eq_true (Option.some.inj hrun)⟩

end Xv6.Shell
