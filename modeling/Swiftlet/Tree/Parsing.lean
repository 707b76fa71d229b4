import Swiftlet.Tree
import Swiftlet.Decimal.Numeral

/-!
# From tokens to trees

The parser reads one token at a time and never looks further. What it has read so far is a
`State`: a tree with one place left open, held inside out. `Hole` is the way from that place up
through the expression around it, and `Block` goes on through the bodies around that.

* `step` takes a state and a token to the next state, or refuses the token.
* `finish` says what a state comes to when the tokens end.
* `parse` runs the two over a token list, up to its first end-of-file token.

A refused token gives an error that holds what the state was waiting for and the token itself.
-/

namespace Swiftlet

namespace Parsing

/-- What was expected where a token was refused. -/
inductive Expectation where
  | character
  | stringLiteral
  | boolLiteral
  | identifier
  | number
  | expression
  | printing
  | returning
  | function
  | type
  | binding
  | operator
  | openParen
  | closeParen
  | other
  deriving DecidableEq, Repr

namespace Expectation

def name : Expectation → Bytes
  | character => utf8 "character"
  | stringLiteral => utf8 "string literal"
  | boolLiteral => utf8 "bool literal"
  | identifier => utf8 "identifier"
  | number => utf8 "number"
  | expression => utf8 "expression"
  | printing => utf8 "`print`"
  | returning => utf8 "`return`"
  | function => utf8 "`func`"
  | type => utf8 "type"
  | binding => utf8 "`let` or `var`"
  | operator => utf8 "operator"
  | openParen => utf8 "`(`"
  | closeParen => utf8 "`)`"
  | other => utf8 "token"

/-- The expectations in the order of their numbers. -/
def byCode : List Expectation :=
  [character, stringLiteral, boolLiteral, identifier, number, expression, printing, returning,
    function, type, binding, operator, openParen, closeParen]

def ofCode : Int → Expectation
  | .ofNat n => byCode.getD n other
  | .negSucc _ => other

end Expectation

/-- The first refused token. `character` is the punctuation that was wanted, if it was a definite
one. -/
structure Error where
  expected : Expectation
  character : Bytes
  token : Token
  deriving DecidableEq, Repr

def Error.message (e : Error) : Bytes :=
  let expected :=
    if e.expected = .character then utf8 "`" ++ e.character ++ utf8 "`" else e.expected.name
  let found := if e.token.kind = .endOfFile then utf8 "end of file" else e.token.lexeme
  utf8 "parse-error: " ++ e.token.pos.text ++ utf8 ": expected " ++ expected ++ utf8 ", found '" ++
    found ++ utf8 "'"

/-- The bodies that are open, innermost first, each with the statements read so far, last first. -/
inductive Block where
  | top (done : List Node)
  | condBody (token : Token) (condition : Node) (done : List Node) (outer : Block)
  | funcBody (s : Signature) (done : List Node) (outer : Block)

namespace Block

/-- One more statement in the innermost body. -/
def add (n : Node) : Block → Block
  | top done => top (n :: done)
  | condBody t c done outer => condBody t c (n :: done) outer
  | funcBody s done outer => funcBody s (n :: done) outer

/-- The blocks after the innermost body has been closed. -/
def close? : Block → Option Block
  | top _ => none
  | condBody t c done outer => some (outer.add (.cond t c done.reverse))
  | funcBody s done outer => some (outer.add (.func s done.reverse))

end Block

/-- The way from an operand up to the statement it belongs to. -/
inductive Hole where
  /-- The right operand of `op`. -/
  | binary (left : Node) (op : Token) (up : Hole)
  | paren (up : Hole)
  /-- An argument of a call, after the arguments `done`, last first. -/
  | argument (name : Token) (done : List Node) (up : Hole)
  /-- An argument of a `print`, after the arguments `done`, last first. -/
  | printed (token : Token) (done : List Node) (block : Block)
  | returned (token : Token) (block : Block)
  | bound (d : Decl) (block : Block)
  | condition (token : Token) (block : Block)
  /-- A statement of its own. -/
  | alone (block : Block)

/-- What has been read so far, and so what may come next. -/
inductive State where
  /-- Before a statement or the end of a body. -/
  | statement (block : Block)
  /-- Before an operand. -/
  | operand (up : Hole)
  /-- After a name, which a parenthesis makes a call. -/
  | named (name : Token) (up : Hole)
  /-- After an operand. -/
  | operator (operand : Node) (up : Hole)
  /-- After the parenthesis that opens a call's arguments. -/
  | firstArgument (name : Token) (up : Hole)
  /-- After `print`. -/
  | printOpen (token : Token) (block : Block)
  /-- After the parenthesis that opens a `print`'s arguments. -/
  | firstPrinted (token : Token) (block : Block)
  /-- After `let` or `var`. -/
  | bindName (mutable : Bool) (block : Block)
  /-- After the name of a binding. -/
  | bindColon (mutable : Bool) (name : Token) (block : Block)
  /-- After the colon of a binding. -/
  | bindType (mutable : Bool) (name : Token) (block : Block)
  /-- After the type of a binding, which may have no value. -/
  | bindEqual (d : Decl) (block : Block)
  /-- After `func`. -/
  | funcName (block : Block)
  /-- After the name of a function. -/
  | paramsOpen (name : Token) (block : Block)
  /-- After the parenthesis that opens the parameters. -/
  | firstParam (name : Token) (block : Block)
  /-- After a comma between parameters; `done` is last first. -/
  | nextParam (name : Token) (done : List Decl) (block : Block)
  /-- After the name of a parameter. -/
  | paramColon (name : Token) (done : List Decl) (param : Token) (block : Block)
  /-- After the colon of a parameter. -/
  | paramType (name : Token) (done : List Decl) (param : Token) (block : Block)
  /-- After the type of a parameter. -/
  | paramEnd (name : Token) (done : List Decl) (block : Block)
  /-- After the parenthesis that closes the parameters. -/
  | arrow (name : Token) (params : List Decl) (block : Block)
  /-- After the arrow. -/
  | returnType (name : Token) (params : List Decl) (block : Block)
  /-- After a signature, which may have no body. -/
  | funcOpen (s : Signature) (block : Block)

/-- The refusal of `t`. -/
def refuse {α : Type} (expected : Expectation) (t : Token) : Except Error α :=
  .error ⟨expected, [], t⟩

/-- The refusal of `t` where the punctuation `p` was wanted. -/
def refuseFor {α : Type} (p : Punct) (t : Token) : Except Error α :=
  .error ⟨.character, p.spelling, t⟩

/-! ## One token -/

/-- `t` where an operand has to start. -/
def startOperand (up : Hole) (t : Token) : Except Error State :=
  match t.kind with
  | .identifier => .ok (.named t up)
  | .int =>
    match Numeral.int32? t.lexeme with
    | some v => .ok (.operator (.int t v) up)
    | none => refuse .number t
  | .float =>
    match Numeral.double? t.lexeme with
    | some v => .ok (.operator (.float t v) up)
    | none => refuse .number t
  | .bool v => .ok (.operator (.bool t v) up)
  | .string => .ok (.operator (.string t (Bytes.without Bytes.quote t.lexeme)) up)
  | .punct .leftParen => .ok (.operand (.paren up))
  | _ => refuse .expression t

/-- `t` where a statement has to start or the body to end. -/
def startStatement (block : Block) (t : Token) : Except Error State :=
  match t.kind with
  | .punct .semicolon => .ok (.statement block)
  | .punct .rightBrace =>
    match block.close? with
    | some outer => .ok (.statement outer)
    | none => refuse .expression t
  | .keyword .func => .ok (.funcName block)
  | .keyword .ifBranch => .ok (.operand (.condition t block))
  | .keyword .letBinding => .ok (.bindName false block)
  | .keyword .varBinding => .ok (.bindName true block)
  | .keyword .returning => .ok (.operand (.returned t block))
  | .keyword .printing => .ok (.printOpen t block)
  | _ => startOperand (.alone block) t

/-- `t` after the operand `e`. An operator takes `e` as its left operand unless the operator before
`e` binds at least as tightly; any other token ends the expression. -/
def afterOperand (t : Token) : Node → Hole → Except Error State
  | e, .binary left op up =>
    if op.kind.precedence < t.kind.precedence then .ok (.operand (.binary e t (.binary left op up)))
    else afterOperand t (.binary left op e) up
  | e, .paren up =>
    match t.kind with
    | .operator _ => .ok (.operand (.binary e t (.paren up)))
    | .punct .rightParen => .ok (.operator e up)
    | _ => refuse .closeParen t
  | e, .argument name done up =>
    match t.kind with
    | .operator _ => .ok (.operand (.binary e t (.argument name done up)))
    | .punct .comma => .ok (.operand (.argument name (e :: done) up))
    | .punct .rightParen => .ok (.operator (.call name (e :: done).reverse) up)
    | _ => refuse .closeParen t
  | e, .printed token done block =>
    match t.kind with
    | .operator _ => .ok (.operand (.binary e t (.printed token done block)))
    | .punct .comma => .ok (.operand (.printed token (e :: done) block))
    | .punct .rightParen => .ok (.statement (block.add (.print token (e :: done).reverse)))
    | _ => refuse .closeParen t
  | e, .returned token block =>
    match t.kind with
    | .operator _ => .ok (.operand (.binary e t (.returned token block)))
    | _ => startStatement (block.add (.ret token e)) t
  | e, .bound d block =>
    match t.kind with
    | .operator _ => .ok (.operand (.binary e t (.bound d block)))
    | _ => startStatement (block.add (.assign d e)) t
  | e, .condition token block =>
    match t.kind with
    | .operator _ => .ok (.operand (.binary e t (.condition token block)))
    | .punct .leftBrace => .ok (.statement (.condBody token e [] block))
    | _ => refuseFor .leftBrace t
  | e, .alone block =>
    match t.kind with
    | .operator _ => .ok (.operand (.binary e t (.alone block)))
    | _ => startStatement (block.add e) t

/-- `t` after a signature: a body, or the next statement. -/
def afterSignature (s : Signature) (block : Block) (t : Token) : Except Error State :=
  match t.kind with
  | .punct .leftBrace => .ok (.statement (.funcBody s [] block))
  | _ => startStatement (block.add (.signature s)) t

/-- The state after `t`, or the refusal of `t`. -/
def step (σ : State) (t : Token) : Except Error State :=
  match σ with
  | .statement block => startStatement block t
  | .operand up => startOperand up t
  | .named name up =>
    match t.kind with
    | .punct .leftParen => .ok (.firstArgument name up)
    | _ => afterOperand t (.ref name) up
  | .operator e up => afterOperand t e up
  | .firstArgument name up =>
    match t.kind with
    | .punct .rightParen => .ok (.operator (.call name []) up)
    | _ => startOperand (.argument name [] up) t
  | .printOpen token block =>
    match t.kind with
    | .punct .leftParen => .ok (.firstPrinted token block)
    | _ => refuse .openParen t
  | .firstPrinted token block =>
    match t.kind with
    | .punct .rightParen => .ok (.statement (block.add (.print token [])))
    | _ => startOperand (.printed token [] block) t
  | .bindName mutable block =>
    match t.kind with
    | .identifier => .ok (.bindColon mutable t block)
    | _ => refuse .identifier t
  | .bindColon mutable name block =>
    match t.kind with
    | .punct .equal => .ok (.operand (.bound ⟨mutable, name, none⟩ block))
    | .punct .colon => .ok (.bindType mutable name block)
    | _ => refuseFor .colon t
  | .bindType mutable name block =>
    match t.kind.typeName? with
    | some type => .ok (.bindEqual ⟨mutable, name, some type⟩ block)
    | none => refuse .type t
  | .bindEqual d block =>
    match t.kind with
    | .punct .equal => .ok (.operand (.bound d block))
    | _ => startStatement (block.add (.decl d)) t
  | .funcName block =>
    match t.kind with
    | .identifier => .ok (.paramsOpen t block)
    | _ => refuse .identifier t
  | .paramsOpen name block =>
    match t.kind with
    | .punct .leftParen => .ok (.firstParam name block)
    | _ => refuse .openParen t
  | .firstParam name block =>
    match t.kind with
    | .punct .rightParen => .ok (.arrow name [] block)
    | .identifier => .ok (.paramColon name [] t block)
    | _ => refuse .identifier t
  | .nextParam name done block =>
    match t.kind with
    | .identifier => .ok (.paramColon name done t block)
    | _ => refuse .identifier t
  | .paramColon name done param block =>
    match t.kind with
    | .punct .colon => .ok (.paramType name done param block)
    | _ => refuseFor .colon t
  | .paramType name done param block =>
    match t.kind.typeName? with
    | some type => .ok (.paramEnd name (⟨false, param, some type⟩ :: done) block)
    | none => refuse .type t
  | .paramEnd name done block =>
    match t.kind with
    | .punct .comma => .ok (.nextParam name done block)
    | .punct .rightParen => .ok (.arrow name done.reverse block)
    | _ => refuse .closeParen t
  | .arrow name params block =>
    match t.kind with
    | .punct .arrow => .ok (.returnType name params block)
    | _ => afterSignature ⟨name, params, some .void⟩ block t
  | .returnType name params block =>
    match t.kind.typeName? with
    | some type => .ok (.funcOpen ⟨name, params, some type⟩ block)
    | none => refuse .type t
  | .funcOpen s block => afterSignature s block t

/-! ## The end of the tokens -/

/-- The program, if no body is open. -/
def Block.finish (t : Token) : Block → Except Error (List Node)
  | .top done => .ok done.reverse
  | _ => refuseFor .rightBrace t

/-- What an expression that ends here comes to. -/
def Hole.finish (t : Token) : Node → Hole → Except Error (List Node)
  | e, .binary left op up => up.finish t (.binary left op e)
  | e, .returned token block => (block.add (.ret token e)).finish t
  | e, .bound d block => (block.add (.assign d e)).finish t
  | e, .alone block => (block.add e).finish t
  | _, .condition .. => refuseFor .leftBrace t
  | _, .paren _ | _, .argument .. | _, .printed .. => refuse .closeParen t

/-- What a state comes to at the end-of-file token `t`. -/
def finish (σ : State) (t : Token) : Except Error (List Node) :=
  match σ with
  | .statement block => block.finish t
  | .named name up => up.finish t (.ref name)
  | .operator e up => up.finish t e
  | .bindEqual d block => (block.add (.decl d)).finish t
  | .arrow name params block => (block.add (.signature ⟨name, params, some .void⟩)).finish t
  | .funcOpen s block => (block.add (.signature s)).finish t
  | .operand _ | .firstArgument .. | .firstPrinted .. => refuse .expression t
  | .printOpen .. | .paramsOpen .. => refuse .openParen t
  | .bindName .. | .funcName .. | .firstParam .. | .nextParam .. => refuse .identifier t
  | .bindColon .. | .paramColon .. => refuseFor .colon t
  | .bindType .. | .paramType .. | .returnType .. => refuse .type t
  | .paramEnd .. => refuse .closeParen t

/-! ## The whole token list -/

/-- The program that the tokens complete. `last` stands for the end if the list has no end-of-file
token. -/
def run (last : Token) : State → List Token → Except Error (List Node)
  | σ, [] => finish σ last
  | σ, t :: ts =>
    if t.kind = .endOfFile then finish σ t
    else match step σ t with
      | .error e => .error e
      | .ok next => run last next ts

/-- The end-of-file token of a list that has none: it stands where the last token does. -/
def endOf (ts : List Token) : Token :=
  Token.endAt ((ts.getLast?.map Token.pos).getD Pos.zero)

/-- The program of a token list, or its first refused token. -/
def parse (ts : List Token) : Except Error (List Node) :=
  run (endOf ts) (.statement (.top [])) ts

end Parsing

end Swiftlet
