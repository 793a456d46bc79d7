import Xv6.LibExcept

/-! The parser of the shell, sh.c. The command is a string of bytes in a buffer with a NUL behind it, and
pointers into it are offsets. An EXEC node is filled while redirections are already being put around it;
here it is put inside them when it is complete. -/

namespace Xv6.Shell

def ch (c : Char) : UInt8 := UInt8.ofNat c.toNat

def maxArgs : Nat := 10

def oRdonly : Nat := 0x000
def oWronly : Nat := 0x001
def oCreate : Nat := 0x200

/-- The nodes of a parsed command, over the contents of an EXEC node and the type of file names. -/
inductive Cmd (E W : Type) where
  | exec (args : E)
  | redir (cmd : Cmd E W) (file : W) (mode fd : Nat)
  | pipe (left right : Cmd E W)
  | list (left right : Cmd E W)
  | back (cmd : Cmd E W)
  deriving DecidableEq

def Cmd.map {E W E' W' : Type} (f : E → E') (g : W → W') : Cmd E W → Cmd E' W'
  | .exec args => .exec (f args)
  | .redir cmd file mode fd => .redir (cmd.map f g) (g file) mode fd
  | .pipe left right => .pipe (left.map f g) (right.map f g)
  | .list left right => .list (left.map f g) (right.map f g)
  | .back cmd => .back (cmd.map f g)

/-- `argv` and `eargv`; `none` is the null pointer. -/
structure Args where
  argv : List (Option Nat)
  eargv : List (Option Nat)
  deriving DecidableEq

/-- A word of the command, from `q` up to `eq`. -/
structure Span where
  q : Nat
  eq : Nat
  deriving DecidableEq

abbrev Node := Cmd Args Span

/-- The ways not to return: `panic`, an access outside an array, or the model's recursion bound. -/
inductive Stop where
  | panic (text : String)
  | outside
  | fuel
  deriving DecidableEq

/-! Scanning. -/

def whitespace : List UInt8 := [ch ' ', ch '\t', ch '\r', ch '\n', 11]

def symbols : List UInt8 := [ch '<', ch '|', ch '>', ch '&', ch ';', ch '(', ch ')']

/-- The byte at an offset; behind the string there is a NUL. -/
def charAt (s : List UInt8) (p : Nat) : UInt8 := s.getD p 0

/-- `while(s < es && f(*s)) s++`, at most a number of times. -/
def scan (f : UInt8 → Bool) (s : List UInt8) : Nat → Nat → Nat
  | 0, p => p
  | k + 1, p => if p < s.length ∧ f (charAt s p) then scan f s k (p + 1) else p

def scanWhile (f : UInt8 → Bool) (s : List UInt8) (p : Nat) : Nat := scan f s (s.length - p) p

def skip (s : List UInt8) (p : Nat) : Nat := scanWhile whitespace.contains s p

def isWordChar (c : UInt8) : Bool := !whitespace.contains c && !symbols.contains c

/-- What `gettoken` returns and stores through its pointers. -/
structure Scanned where
  tok : UInt8
  word : Span
  next : Nat

/-- The switch of `gettoken`. -/
def tokenAt (s : List UInt8) (q : Nat) : UInt8 × Nat :=
  let c := charAt s q
  if c = 0 then (c, q)
  else if c = ch '|' ∨ c = ch '(' ∨ c = ch ')' ∨ c = ch ';' ∨ c = ch '&' ∨ c = ch '<' then (c, q + 1)
  else if c = ch '>' then
    if charAt s (q + 1) = ch '>' then (ch '+', q + 2) else (c, q + 1)
  else (ch 'a', scanWhile isWordChar s q)

def gettoken (s : List UInt8) (p : Nat) : Scanned :=
  let q := skip s p
  let (tok, eq) := tokenAt s q
  ⟨tok, ⟨q, eq⟩, skip s eq⟩

def peek (s : List UInt8) (p : Nat) (toks : List UInt8) : Bool × Nat :=
  let p := skip s p
  (charAt s p ≠ 0 ∧ toks.contains (charAt s p), p)

/-! Parsing. -/

/-- `cmd->argv[i] = value`, or `eargv`. -/
def setArg (args : List (Option Nat)) (i : Nat) (value : Option Nat) :
    Except Stop (List (Option Nat)) :=
  if i < args.length then .ok (args.set i value) else .error .outside

/-- `execcmd`: all zero. -/
def execcmd : Args := ⟨List.replicate maxArgs none, List.replicate maxArgs none⟩

/-- A redirection: what `gettoken` returned for its operator, and the file. -/
structure Redir (W : Type) where
  tok : UInt8
  file : W
  deriving DecidableEq

/-- The switch of `parseredirs`. -/
def redircmd {E W : Type} (cmd : Cmd E W) (r : Redir W) : Cmd E W :=
  if r.tok = ch '<' then .redir cmd r.file oRdonly 0
  else if r.tok = ch '>' then .redir cmd r.file (oWronly ||| oCreate) 1
  else if r.tok = ch '+' then .redir cmd r.file (oWronly ||| oCreate) 1
  else cmd

/-- The redirections put around a command, one after the other. -/
def redirect {E W : Type} (cmd : Cmd E W) (redirs : List (Redir W)) : Cmd E W :=
  redirs.foldl redircmd cmd

def parseredirs (s : List UInt8) : Nat → List (Redir Span) → Nat → Except Stop (List (Redir Span) × Nat)
  | 0, _, _ => .error .fuel
  | fuel + 1, redirs, p => do
    let (more, p) := peek s p [ch '<', ch '>']
    if more then
      let op := gettoken s p
      let name := gettoken s op.next
      if name.tok ≠ ch 'a' then .error (.panic "missing file for redirection")
      else parseredirs s fuel (redirs ++ [⟨op.tok, name.word⟩]) name.next
    else .ok (redirs, p)

/-- The loop of `parseexec`; `argc`, the arrays and the redirections so far. -/
def parseargs (s : List UInt8) :
    Nat → Nat → Args → List (Redir Span) → Nat → Except Stop ((Nat × Args × List (Redir Span)) × Nat)
  | 0, _, _, _, _ => .error .fuel
  | fuel + 1, argc, cmd, redirs, p => do
    let (stop, p) := peek s p [ch '|', ch ')', ch '&', ch ';']
    if stop then .ok ((argc, cmd, redirs), p)
    else
      let t := gettoken s p
      if t.tok = 0 then .ok ((argc, cmd, redirs), t.next)
      else if t.tok ≠ ch 'a' then .error (.panic "syntax")
      else
        let argv ← setArg cmd.argv argc (some t.word.q)
        let eargv ← setArg cmd.eargv argc (some t.word.eq)
        if argc + 1 ≥ maxArgs then .error (.panic "too many args")
        else
          let (redirs, p) ← parseredirs s fuel redirs t.next
          parseargs s fuel (argc + 1) ⟨argv, eargv⟩ redirs p

/-- The loop of `parseline`. -/
def parsebacks (s : List UInt8) : Nat → Node → Nat → Except Stop (Node × Nat)
  | 0, _, _ => .error .fuel
  | fuel + 1, cmd, p =>
    let (more, p) := peek s p [ch '&']
    if more then parsebacks s fuel (.back cmd) (gettoken s p).next else .ok (cmd, p)

mutual

def parseline (s : List UInt8) : Nat → Nat → Except Stop (Node × Nat)
  | 0, _ => .error .fuel
  | fuel + 1, p => do
    let (cmd, p) ← parsepipe s fuel p
    let (cmd, p) ← parsebacks s fuel cmd p
    let (more, p) := peek s p [ch ';']
    if more then
      let (right, p) ← parseline s fuel (gettoken s p).next
      .ok (.list cmd right, p)
    else .ok (cmd, p)

def parsepipe (s : List UInt8) : Nat → Nat → Except Stop (Node × Nat)
  | 0, _ => .error .fuel
  | fuel + 1, p => do
    let (cmd, p) ← parseexec s fuel p
    let (more, p) := peek s p [ch '|']
    if more then
      let (right, p) ← parsepipe s fuel (gettoken s p).next
      .ok (.pipe cmd right, p)
    else .ok (cmd, p)

def parseexec (s : List UInt8) : Nat → Nat → Except Stop (Node × Nat)
  | 0, _ => .error .fuel
  | fuel + 1, p => do
    let (block, p) := peek s p [ch '(']
    if block then parseblock s fuel p
    else
      let (redirs, p) ← parseredirs s fuel [] p
      let ((argc, cmd, redirs), p) ← parseargs s fuel 0 execcmd redirs p
      let argv ← setArg cmd.argv argc none
      let eargv ← setArg cmd.eargv argc none
      .ok (redirect (.exec ⟨argv, eargv⟩) redirs, p)

def parseblock (s : List UInt8) : Nat → Nat → Except Stop (Node × Nat)
  | 0, _ => .error .fuel
  | fuel + 1, p => do
    let (block, p) := peek s p [ch '(']
    if block then
      let (cmd, p) ← parseline s fuel (gettoken s p).next
      let (closed, p) := peek s p [ch ')']
      if closed then
        let (redirs, p) ← parseredirs s fuel [] (gettoken s p).next
        .ok (redirect cmd redirs, p)
      else .error (.panic "syntax - missing )")
    else .error (.panic "parseblock")

end

/-- `*p = 0`. -/
def setNul (buf : List UInt8) (p : Nat) : Except Stop (List UInt8) :=
  if p < buf.length then .ok (buf.set p 0) else .error .outside

/-- `for(i=0; ecmd->argv[i]; i++) *ecmd->eargv[i] = 0`. -/
def nulArgs : List (Option Nat) → List (Option Nat) → List UInt8 → Except Stop (List UInt8)
  | none :: _, _, buf => .ok buf
  | some _ :: argv, some e :: eargv, buf => do nulArgs argv eargv (← setNul buf e)
  | _, _, _ => .error .outside

def nulterminate : Node → List UInt8 → Except Stop (List UInt8)
  | .exec args, buf => nulArgs args.argv args.eargv buf
  | .redir cmd file _ _, buf => do setNul (← nulterminate cmd buf) file.eq
  | .pipe left right, buf => do nulterminate right (← nulterminate left buf)
  | .list left right, buf => do nulterminate right (← nulterminate left buf)
  | .back cmd, buf => nulterminate cmd buf

/-- The tree and the buffer its pointers point into. -/
def parsecmd (fuel : Nat) (s : List UInt8) : Except Stop (Node × List UInt8) := do
  let (cmd, p) ← parseline s fuel 0
  let (_, p) := peek s p []
  if p ≠ s.length then .error (.panic "syntax")
  else
    let buf ← nulterminate cmd (s ++ [0])
    .ok (cmd, buf)

/-! What the caller finds in the buffer. -/

/-- The string at an offset. -/
def textAt (buf : List UInt8) (q : Nat) : List UInt8 := (buf.drop q).takeWhile (· ≠ 0)

/-- The strings of an argument vector up to the null pointer. -/
def argTexts (buf : List UInt8) : List (Option Nat) → List (List UInt8)
  | some q :: argv => textAt buf q :: argTexts buf argv
  | _ => []

abbrev Tree := Cmd (List (List UInt8)) (List UInt8)

def Cmd.texts (cmd : Node) (buf : List UInt8) : Tree :=
  cmd.map (fun args => argTexts buf args.argv) fun file => textAt buf file.q

/-! The grammar. -/

inductive Token where
  | word (text : List UInt8)
  | sym (c : UInt8)
  deriving DecidableEq

def slice (s : List UInt8) (w : Span) : List UInt8 := (s.drop w.q).take (w.eq - w.q)

/-- The tokens `gettoken` finds from an offset on. -/
def tokensFrom (s : List UInt8) : Nat → Nat → List Token
  | 0, _ => []
  | k + 1, p =>
    let t := gettoken s p
    if t.tok = 0 then []
    else (if t.tok = ch 'a' then .word (slice s t.word) else .sym t.tok) :: tokensFrom s k t.next

/-- Every token takes at least one byte. -/
def tokens (s : List UInt8) (p : Nat) : List Token := tokensFrom s (s.length + 1) p

/-- redirs → (('<' | '>' | '>>') word)* -/
inductive Redirs : List Token → List (Redir (List UInt8)) → Prop
  | nil : Redirs [] []
  | cons {op : UInt8} {file : List UInt8} {ts : List Token} {rs : List (Redir (List UInt8))} :
      op = ch '<' ∨ op = ch '>' ∨ op = ch '+' → Redirs ts rs →
      Redirs (.sym op :: .word file :: ts) (⟨op, file⟩ :: rs)

/-- (word redirs)* -/
inductive Words : List Token → List (List UInt8) → List (Redir (List UInt8)) → Prop
  | nil : Words [] [] []
  | cons {text : List UInt8} {ts ts' : List Token} {rs rs' : List (Redir (List UInt8))}
      {ws : List (List UInt8)} :
      Redirs ts rs → Words ts' ws rs' → Words (.word text :: (ts ++ ts')) (text :: ws) (rs ++ rs')

inductive Category where
  | line | pipe | exec
  deriving DecidableEq

def backs (n : Nat) (t : Tree) : Tree := (.back : Tree → Tree)^[n] t

/-- line → pipe '&'* [';' line]; pipe → exec ['|' pipe];
exec → '(' line ')' redirs | redirs (word redirs)* -/
inductive Derives : Category → List Token → Tree → Prop
  | line {ts : List Token} {t : Tree} (n : Nat) :
      Derives .pipe ts t → Derives .line (ts ++ List.replicate n (.sym (ch '&'))) (backs n t)
  | list {ts ts' : List Token} {t t' : Tree} (n : Nat) :
      Derives .pipe ts t → Derives .line ts' t' →
      Derives .line (ts ++ List.replicate n (.sym (ch '&')) ++ .sym (ch ';') :: ts')
        (.list (backs n t) t')
  | one {ts : List Token} {t : Tree} : Derives .exec ts t → Derives .pipe ts t
  | pipe {ts ts' : List Token} {t t' : Tree} :
      Derives .exec ts t → Derives .pipe ts' t' →
      Derives .pipe (ts ++ .sym (ch '|') :: ts') (.pipe t t')
  | block {ts ts' : List Token} {t : Tree} {rs : List (Redir (List UInt8))} :
      Derives .line ts t → Redirs ts' rs →
      Derives .exec (.sym (ch '(') :: (ts ++ .sym (ch ')') :: ts')) (redirect t rs)
  | exec {ts ts' : List Token} {rs rs' : List (Redir (List UInt8))} {ws : List (List UInt8)} :
      Redirs ts rs → Words ts' ws rs' → ws.length ≤ maxArgs - 1 →
      Derives .exec (ts ++ ts') (redirect (.exec ws) (rs ++ rs'))

end Xv6.Shell
