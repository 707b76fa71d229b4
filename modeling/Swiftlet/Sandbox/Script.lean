import Swiftlet.Sandbox.Files

/-!
# Tool scripts

Scripts that stand in for tools: simple commands, one after another, with quoting, the parameters
of the script and redirections. The commands are `cat`, `echo`, `printf`, `exit`, `true`, `false`
and `:`.
-/

namespace Swiftlet

namespace Sandbox

namespace Script

/-! ## Words -/

/-- A piece of a word. -/
inductive Part where
  | text (bs : Bytes)
  /-- A parameter of the script, by its name; inside double quotes or not. -/
  | param (name : Bytes) (quoted : Bool)
  deriving DecidableEq, Repr

/-- A word of a script. -/
inductive Lexeme where
  | word (parts : List Part)
  /-- The file or the stream named by the next word takes the place of stream `fd`. -/
  | redirect (fd : Nat) (appending : Bool)
  /-- Stream `fd` goes where the stream named by the next word goes. -/
  | duplicate (fd : Nat)
  /-- The file named by the next word is the input. -/
  | input
  /-- The end of a command, and whether its line ends as well. -/
  | stop (line : Bool)
  deriving DecidableEq, Repr

inductive Quotes where
  | none
  | single
  | double
  | comment
  deriving DecidableEq, Repr

/-- One more byte at the end of a word. -/
def push (parts : List Part) (b : UInt8) : List Part :=
  match parts.getLast? with
  | some (.text bs) => parts.dropLast ++ [.text (bs ++ [b])]
  | _ => parts ++ [.text [b]]

/-- The word so far, if there is one, before more of the script. -/
def flush (word : Option (List Part)) (rest : List Lexeme) : List Lexeme :=
  match word with
  | none => rest
  | some parts => .word parts :: rest

/-- A word before a redirection: a single digit is the number of the stream. -/
def flushStream (word : Option (List Part)) (default : Nat) (make : Nat → Lexeme)
    (rest : List Lexeme) : List Lexeme :=
  match word with
  | some [.text [d]] =>
    if Bytes.isDigit d then make (d.toNat - 48) :: rest
    else .word [.text [d]] :: make default :: rest
  | other => flush other (make default :: rest)

/-- Whether `b` is the name of a parameter. -/
def isParam (b : UInt8) : Bool := Bytes.isDigit b || b == 64 || b == 42 || b == 35

/-- The words of a script; `word` is the one that is being read. -/
def lex (quotes : Quotes) (word : Option (List Part)) : Bytes → List Lexeme
  | [] => flush word [.stop true]
  | b :: rest =>
    let grow := some (push (word.getD []) b)
    match quotes with
    | .comment => if b = 10 then .stop true :: lex .none none rest else lex .comment none rest
    | .single => if b = 39 then lex .none (some (word.getD [])) rest else lex .single grow rest
    | .double =>
      if b = 34 then lex .none (some (word.getD [])) rest
      else if b = 92 then
        match rest with
        | [] => flush grow [.stop true]
        | c :: rest =>
          if c = 10 then lex .double word rest
          else if c = 36 ∨ c = 96 ∨ c = 34 ∨ c = 92 then
            lex .double (some (push (word.getD []) c)) rest
          else lex .double (some (push (push (word.getD []) b) c)) rest
      else if b = 36 then
        match rest with
        | [] => flush grow [.stop true]
        | c :: rest =>
          if isParam c then lex .double (some (word.getD [] ++ [.param [c] true])) rest
          else if c = 34 then lex .none grow rest
          else lex .double (some (push (push (word.getD []) b) c)) rest
      else lex .double grow rest
    | .none =>
      if b = 39 then lex .single (some (word.getD [])) rest
      else if b = 34 then lex .double (some (word.getD [])) rest
      else if b = 92 then
        match rest with
        | [] => flush grow [.stop true]
        | c :: rest =>
          if c = 10 then lex .none word rest
          else lex .none (some (push (word.getD []) c)) rest
      else if b = 36 then
        match rest with
        | [] => flush grow [.stop true]
        | c :: rest =>
          if isParam c then lex .none (some (word.getD [] ++ [.param [c] false])) rest
          else lex .none (some (push (push (word.getD []) b) c)) rest
      else if b = 32 ∨ b = 9 then flush word (lex .none none rest)
      else if b = 10 ∨ b = 59 then flush word (.stop (b == 10) :: lex .none none rest)
      else if b = 35 ∧ word = none then lex .comment none rest
      else if b = 60 then flushStream word 0 (fun _ => .input) (lex .none none rest)
      else if b = 62 then
        match rest with
        | 62 :: rest => flushStream word 1 (.redirect · true) (lex .none none rest)
        | 38 :: rest => flushStream word 1 .duplicate (lex .none none rest)
        | rest => flushStream word 1 (.redirect · false) (lex .none none rest)
      else lex .none grow rest

/-! ## Expansion -/

/-- The value of a parameter, given the name of the script and its arguments. -/
def paramValue (self : Bytes) (args : List Bytes) (name : Bytes) : Bytes :=
  match name with
  | [48] => self
  | [35] => Bytes.ofNat args.length
  | [d] =>
    if Bytes.isDigit d then args.getD (d.toNat - 49) [] else Bytes.join [32] args
  | _ => []

/-- The pieces between white space. -/
def fields (bs : Bytes) : List Bytes :=
  let split := bs.foldr (fun b (acc : List Bytes) =>
    match acc with
    | [] => [[b]]
    | p :: ps => if b = 32 ∨ b = 9 ∨ b = 10 then [] :: p :: ps else (b :: p) :: ps) [[]]
  split.filter (· ≠ [])

/-- The arguments that a word stands for: usually one, but a list of parameters stands for each of
them, and outside quotes values are cut at white space. -/
def expand (self : Bytes) (args : List Bytes) (parts : List Part) : List Bytes :=
  match parts with
  | [.param [64] true] => args
  | [.param name false] => fields (paramValue self args name)
  | _ =>
    [parts.flatMap fun
      | .text bs => bs
      | .param name _ => paramValue self args name]

/-! ## Commands -/

/-- Where a stream goes. -/
inductive Target where
  | output
  | diagnostics
  | file (path : Bytes)
  deriving DecidableEq, Repr

/-- A script at work: the files, what is left of its input, what it has written, and the status of
its last command. -/
structure State where
  files : Files
  input : Bytes
  output : Bytes
  diagnostics : Bytes
  status : Nat

/-- Writes to a target. -/
def State.emit (σ : State) (target : Target) (bs : Bytes) : State :=
  match target with
  | .output => { σ with output := σ.output ++ bs }
  | .diagnostics => { σ with diagnostics := σ.diagnostics ++ bs }
  | .file path =>
    match σ.files.content path with
    | .ok old =>
      match σ.files.write path (old ++ bs) with
      | .ok files => { σ with files := files }
      | .error _ => σ
    | .error _ => σ

/-- A simple command: its words and where its streams go. -/
structure Simple where
  words : List Bytes
  out : Target
  err : Target

/-- A text with the escapes of `echo` and `printf` replaced. -/
def unescape : Bytes → Bytes
  | [] => []
  | 92 :: b :: rest =>
    if b = 110 then 10 :: unescape rest
    else if b = 116 then 9 :: unescape rest
    else if b = 114 then 13 :: unescape rest
    else if b = 97 then 7 :: unescape rest
    else if b = 98 then 8 :: unescape rest
    else if b = 102 then 12 :: unescape rest
    else if b = 118 then 11 :: unescape rest
    else if b = 92 then 92 :: unescape rest
    else 92 :: b :: unescape rest
  | b :: rest => b :: unescape rest

/-- A format with `%s`, `%d` and `%%` filled in; the arguments that are left. -/
def fill : Bytes → List Bytes → Bytes × List Bytes
  | [], args => ([], args)
  | 37 :: 37 :: rest, args =>
    let (text, left) := fill rest args
    (37 :: text, left)
  | 37 :: b :: rest, args =>
    if b = 115 ∨ b = 100 then
      let (text, left) := fill rest args.tail
      (args.headD (if b = 100 then [48] else []) ++ text, left)
    else
      let (text, left) := fill rest args
      (37 :: b :: text, left)
  | b :: rest, args =>
    let (text, left) := fill rest args
    (b :: text, left)

/-- The output of `printf`: the format is used again while there are arguments, at most `n` times. -/
def printed (format : Bytes) : Nat → List Bytes → Bytes
  | 0, _ => []
  | n + 1, args =>
    let (text, left) := fill format args
    text ++ if left = [] ∨ left.length = args.length then [] else printed format n left

/-- The content of the files that `cat` is given; a dash is the input. -/
def concatenated (σ : State) (err : Target) : List Bytes → State × Bytes
  | [] => (σ, [])
  | path :: rest =>
    if path = [45] then
      let (τ, more) := concatenated { σ with input := [] } err rest
      (τ, σ.input ++ more)
    else match σ.files.content path with
      | .ok bs =>
        let (τ, more) := concatenated σ err rest
        (τ, bs ++ more)
      | .error e =>
        concatenated { σ.emit err (utf8 "cat: " ++ path ++ utf8 ": " ++ e.text ++ [10]) with
          status := 1 } err rest

/-- The start of a message of the script itself. -/
def place (self : Bytes) (line : Nat) : Bytes := self ++ utf8 ": " ++ Bytes.ofNat line ++ utf8 ": "

/-- Runs the command on a line. The flag says whether it ends the script. -/
def runSimple (self : Bytes) (line : Nat) (c : Simple) (σ : State) : State × Bool :=
  match c.words with
  | [] => (σ, false)
  | name :: args =>
    let σ₀ := { σ with status := 0 }
    if name = utf8 "cat" then
      let (τ, bs) := concatenated σ₀ c.err (if args = [] then [[45]] else args)
      (τ.emit c.out bs, false)
    else if name = utf8 "echo" then
      match args with
      | [45, 110] :: args => (σ₀.emit c.out (unescape (Bytes.join [32] args)), false)
      | args => (σ₀.emit c.out (unescape (Bytes.join [32] args) ++ [10]), false)
    else if name = utf8 "printf" then
      match args with
      | [] => ({ σ with status := 2 }, false)
      | format :: args =>
        (σ₀.emit c.out (printed (unescape format) (args.length + 1) args), false)
    else if name = utf8 "exit" then
      match args with
      | [] => (σ, true)
      | n :: _ => ({ σ with status := Bytes.digitsValue n % 256 }, true)
    else if name = utf8 "true" ∨ name = utf8 ":" then (σ₀, false)
    else if name = utf8 "false" then ({ σ with status := 1 }, false)
    else
      ({ σ.emit c.err (place self line ++ name ++ utf8 ": not found\n") with status := 127 }, false)

/-! ## Scripts -/

/-- A command that is being put together, and whether a redirection of it failed. -/
structure Pending where
  simple : Simple
  broken : Bool

def Pending.empty : Pending := ⟨⟨[], .output, .diagnostics⟩, false⟩

/-- A stream of a command goes to a target. -/
def Pending.direct (p : Pending) (fd : Nat) (t : Target) : Pending :=
  if fd = 2 then { p with simple := { p.simple with err := t } }
  else { p with simple := { p.simple with out := t } }

/-- The target of a stream by its number. -/
def Pending.target (p : Pending) (word : Bytes) : Target :=
  if word = utf8 "2" then p.simple.err else p.simple.out

/-- Opens the file that a stream goes to. -/
def openTarget (self : Bytes) (line : Nat) (p : Pending) (fd : Nat) (appending : Bool) (path : Bytes)
    (σ : State) : Pending × State :=
  let old := if appending then (σ.files.content path).toOption.getD [] else []
  match σ.files.write path old with
  | .ok files => (p.direct fd (.file path), { σ with files := files })
  | .error _ =>
    ({ p with broken := true },
      { σ.emit p.simple.err (place self line ++ utf8 "cannot create " ++ path ++
          utf8 ": Directory nonexistent\n") with status := 2 })

/-- Runs the rest of a script, from a line on. -/
def runFrom (self : Bytes) (args : List Bytes) (line : Nat) :
    List Lexeme → Pending → State → State
  | [], _, σ => σ
  | .stop ends :: rest, p, σ =>
    if p.broken then σ
    else
      let (σ, ended) := runSimple self line p.simple σ
      if ended then σ else runFrom self args (if ends then line + 1 else line) rest .empty σ
  | .word parts :: rest, p, σ =>
    let words := p.simple.words ++ expand self args parts
    runFrom self args line rest { p with simple := { p.simple with words := words } } σ
  | .redirect fd appending :: .word parts :: rest, p, σ =>
    let (p, σ) := openTarget self line p fd appending ((expand self args parts).headD []) σ
    runFrom self args line rest p σ
  | .duplicate fd :: .word parts :: rest, p, σ =>
    runFrom self args line rest (p.direct fd (p.target ((expand self args parts).headD []))) σ
  | .input :: .word parts :: rest, p, σ =>
    let bs := (σ.files.content ((expand self args parts).headD [])).toOption.getD []
    runFrom self args line rest p { σ with input := bs }
  | _ :: rest, p, σ => runFrom self args line rest p σ

/-- Runs a script called `self` with arguments on an input. -/
def run (self : Bytes) (args : List Bytes) (text input : Bytes) (files : Files) : State :=
  runFrom self args 1 (lex .none none text) .empty ⟨files, input, [], [], 0⟩

end Script

end Sandbox

end Swiftlet
