import Swiftlet.Typing.Error

/-!
# Types

`analyze` checks a program in three passes and fills in the types that were left out: the entry
function first, then the names that every function binds, then the types in every body.

* All bindings of a function share one namespace, whatever `if` they stand in.
* A binding is visible from the next statement on, to the end of the body it stands in.
* A call is checked against the last signature of its name in the program.
* A missing type is filled in from the value as soon as the value has one, so a program that is
  refused later keeps what has been filled in so far; `Stopped` holds that tree beside the error.
-/

namespace Swiftlet

namespace Typing

/-- The names visible at a point of a body, latest first, with their types. -/
abbrev Scope := List (Bytes × Ty)

/-- A tree that was checked: its types filled in, the scope after it and its own type. -/
structure Done (α : Type) where
  tree : α
  scope : Scope
  type : Option Ty

/-- A tree in which an error was found, its types filled in as far as it was checked. -/
structure Stopped (α : Type) where
  error : Error
  tree : α

abbrev Outcome (α : Type) := Except (Stopped α) (Done α)

/-- An outcome for a part, as one for the whole; `rebuild` puts the part in its place. -/
def Outcome.within {α β : Type} (rebuild : α → β) : Outcome α → Outcome β
  | .error s => .error ⟨s.error, rebuild s.tree⟩
  | .ok d => .ok ⟨rebuild d.tree, d.scope, d.type⟩

/-- What a body is checked against. -/
structure Context where
  program : List Node
  signature : Signature
  /-- Every name the function binds, parameters included. -/
  names : List Bytes

/-! ## The entry function -/

def isEntry (entry : Bytes) : Node → Bool
  | .func s _ => s.name.lexeme = entry
  | _ => false

/-- The entry function comes first, is the only one of its name, takes nothing and returns
nothing. -/
def checkEntry (entry : Bytes) (program : List Node) : Except Error Unit :=
  match program with
  | [] => .error ⟨.entryPoint entry, Token.bare Pos.zero⟩
  | .func s _ :: rest =>
    if s.name.lexeme ≠ entry then .error ⟨.entryPoint entry, s.name⟩
    else match rest.filter (isEntry entry) with
      | again :: more => .error ⟨.functionRedeclared entry (more.length + 2), again.token⟩
      | [] =>
        if s.params ≠ [] then .error ⟨.arity entry 0 s.params.length, s.name⟩
        else if s.ret ≠ some .void then .error ⟨.mismatch (some .void) s.ret, s.name⟩
        else .ok ()
  | first :: _ => .error ⟨.entryPoint entry, first.token⟩

/-! ## The names of a function -/

/-- Parameters are storable and have different names; `seen` are the names before `params`. -/
def checkParams (seen : List Bytes) : List Decl → Except Error Unit
  | [] => .ok ()
  | p :: params =>
    if p.type = some .void then .error ⟨.voidParameter, p.name⟩
    else if p.name.lexeme ∈ seen then .error ⟨.redeclared p.name.lexeme, p.name⟩
    else checkParams (p.name.lexeme :: seen) params

mutual

/-- The names bound so far, with those that a statement binds. -/
def collectNode (s : Signature) (bound : List Bytes) : Node → Except Error (List Bytes)
  | .decl d => .error ⟨.unassigned d.name.lexeme, d.name⟩
  | .assign d _ =>
    if (s.param? d.name.lexeme).isSome then .error ⟨.immutable d.name.lexeme, d.name⟩
    else if d.name.lexeme ∈ bound then .error ⟨.redeclared d.name.lexeme, d.name⟩
    else .ok (d.name.lexeme :: bound)
  | .cond _ _ body => collectBody s bound body
  | _ => .ok bound

/-- The names bound so far, with those that a body binds. -/
def collectBody (s : Signature) (bound : List Bytes) : List Node → Except Error (List Bytes)
  | [] => .ok bound
  | n :: rest =>
    match collectNode s bound n with
    | .error e => .error e
    | .ok bound => collectBody s bound rest

end

/-- A top-level item is a function whose parameters and bindings are in order. -/
def collectItem : Node → Except Error Unit
  | .signature s => checkParams [] s.params
  | .func s body =>
    match checkParams [] s.params with
    | .error e => .error e
    | .ok () =>
      match collectBody s [] body with
      | .error e => .error e
      | .ok _ => .ok ()
  | n => .error ⟨.notAFunction, n.token⟩

def collectItems : List Node → Except Error Unit
  | [] => .ok ()
  | n :: rest =>
    match collectItem n with
    | .error e => .error e
    | .ok () => collectItems rest

mutual

/-- The declarations that a statement makes in its function. -/
def boundBy : Node → List Decl
  | .assign d _ => [d]
  | .cond _ _ body => boundByAll body
  | _ => []

/-- The declarations that a body makes in its function. -/
def boundByAll : List Node → List Decl
  | [] => []
  | n :: rest => boundBy n ++ boundByAll rest

end

/-! ## The types of a body -/

/-- The outcome for an expression `n` that has to give a value. -/
def requireValue (n : Node) : Outcome Node → Except (Stopped Node) (Done Node × Ty)
  | .error s => .error s
  | .ok d =>
    match d.type with
    | some .void | none => .error ⟨⟨.noValue, n.token⟩, d.tree⟩
    | some t => .ok (d, t)

/-- The type of a name used as a value. -/
def checkRef (c : Context) (scope : Scope) (name : Token) : Except Error (Option Ty) :=
  match c.signature.param? name.lexeme with
  | some p => .ok p.type
  | none =>
    if c.names.contains name.lexeme then
      match scope.lookup name.lexeme with
      | some t => .ok (some t)
      | none => .error ⟨.useBeforeDeclaration name.lexeme, name⟩
    else .error ⟨.undeclared name.lexeme, name⟩

/-- The declaration `d` with its type filled in from a value of type `t` shown at `token`. -/
def bindType (d : Decl) (t : Ty) (token : Token) : Except Error Decl :=
  match d.type with
  | none =>
    match d.resolve (some t) with
    | .error _ => .error ⟨.unresolved d.name.lexeme, d.name⟩
    | .ok d => .ok d
  | some declared =>
    if declared = t then .ok d else .error ⟨.mismatch (some declared) (some t), token⟩

mutual

/-- Checks a node and fills in the types it leaves out. -/
def check (c : Context) (scope : Scope) : Node → Outcome Node
  | .int t v => .ok ⟨.int t v, scope, some .int⟩
  | .float t v => .ok ⟨.float t v, scope, some .float⟩
  | .bool t v => .ok ⟨.bool t v, scope, some .bool⟩
  | .string t v => .ok ⟨.string t v, scope, some .string⟩
  | .decl d => .ok ⟨.decl d, scope, d.type⟩
  | .assign d value =>
    match requireValue value (check c scope value) with
    | .error s => .error ⟨s.error, .assign d s.tree⟩
    | .ok (v, t) =>
      match bindType d t value.token with
      | .error e => .error ⟨e, .assign d v.tree⟩
      | .ok d' => .ok ⟨.assign d' v.tree, (d.name.lexeme, t) :: v.scope, some t⟩
  | .binary left op right =>
    match requireValue left (check c scope left) with
    | .error s => .error ⟨s.error, .binary s.tree op right⟩
    | .ok (l, tl) =>
      match requireValue right (check c l.scope right) with
      | .error s => .error ⟨s.error, .binary l.tree op s.tree⟩
      | .ok (r, tr) =>
        if tl ≠ tr then .error ⟨⟨.mismatch (some tl) (some tr), op⟩, .binary l.tree op r.tree⟩
        else if tl.isNumeric then .ok ⟨.binary l.tree op r.tree, r.scope, some tl⟩
        else .error ⟨⟨.operand op.lexeme tl, op⟩, .binary l.tree op r.tree⟩
  | .ref name =>
    match checkRef c scope name with
    | .error e => .error ⟨e, .ref name⟩
    | .ok t => .ok ⟨.ref name, scope, t⟩
  | .call name args =>
    match lastSignature? c.program name.lexeme with
    | none => .error ⟨⟨.unknownFunction name.lexeme, name⟩, .call name args⟩
    | some callee =>
      if args.length ≠ callee.params.length then
        .error ⟨⟨.arity name.lexeme callee.params.length args.length, name⟩, .call name args⟩
      else match checkArgs c scope name.lexeme 0 callee.params args with
        | .error s => .error ⟨s.error, .call name s.tree⟩
        | .ok d => .ok ⟨.call name d.tree, d.scope, callee.ret⟩
  | .print t [] => .error ⟨⟨.emptyPrint, t⟩, .print t []⟩
  | .print t (arg :: rest) =>
    match requireValue arg (check c scope arg) with
    | .error s => .error ⟨s.error, .print t (s.tree :: rest)⟩
    | .ok (d, _) => .ok ⟨.print t (d.tree :: rest), d.scope, some .void⟩
  | .ret t value =>
    match check c scope value with
    | .error s => .error ⟨s.error, .ret t s.tree⟩
    | .ok d =>
      if d.type = c.signature.ret then .ok ⟨.ret t d.tree, d.scope, d.type⟩
      else .error ⟨⟨.mismatch c.signature.ret d.type, value.token⟩, .ret t d.tree⟩
  | .cond t condition body =>
    match check c scope condition with
    | .error s => .error ⟨s.error, .cond t s.tree body⟩
    | .ok d =>
      if d.type ≠ some .bool then
        .error ⟨⟨.mismatch (some .bool) d.type, condition.token⟩, .cond t d.tree body⟩
      else match checkBody c d.scope body with
        | .error s => .error ⟨s.error, .cond t d.tree s.tree⟩
        | .ok b => .ok ⟨.cond t d.tree b.tree, d.scope, some .void⟩
  | .func s body => .error ⟨⟨.nestedFunction, s.name⟩, .func s body⟩
  | .signature s => .error ⟨⟨.nestedFunction, s.name⟩, .signature s⟩

/-- Checks the arguments of a call of `name` from `position` on against their parameters. -/
def checkArgs (c : Context) (scope : Scope) (name : Bytes) (position : Nat) (params : List Decl) :
    List Node → Outcome (List Node)
  | [] => .ok ⟨[], scope, none⟩
  | arg :: rest =>
    match requireValue arg (check c scope arg) with
    | .error s => .error ⟨s.error, s.tree :: rest⟩
    | .ok (d, t) =>
      match params with
      | [] => .ok ⟨d.tree :: rest, d.scope, none⟩
      | p :: params =>
        if p.type ≠ some t then
          .error ⟨⟨.argument name position p.type (some t), arg.token⟩, d.tree :: rest⟩
        else (checkArgs c d.scope name (position + 1) params rest).within (d.tree :: ·)

/-- Checks the statements of a body in order. -/
def checkBody (c : Context) (scope : Scope) : List Node → Outcome (List Node)
  | [] => .ok ⟨[], scope, none⟩
  | n :: rest =>
    match check c scope n with
    | .error s => .error ⟨s.error, s.tree :: rest⟩
    | .ok d => (checkBody c d.scope rest).within (d.tree :: ·)

end

/-- Checks the body of a function; other items have none. -/
def checkItem (program : List Node) : Node → Outcome Node
  | .func s body =>
    let names := (s.params ++ boundByAll body).map (·.name.lexeme)
    (checkBody ⟨program, s, names⟩ [] body).within (.func s)
  | n => .ok ⟨n, [], none⟩

def checkItems (program : List Node) : List Node → Outcome (List Node)
  | [] => .ok ⟨[], [], none⟩
  | n :: rest =>
    match checkItem program n with
    | .error s => .error ⟨s.error, s.tree :: rest⟩
    | .ok d => (checkItems program rest).within (d.tree :: ·)

/-! ## The whole program -/

/-- The parameters and bindings of the functions that have a body. -/
def definedNames (program : List Node) : List Decl :=
  program.flatMap fun
    | .func s body => s.params ++ boundByAll body
    | _ => []

/-- The program with its types filled in, or the first error. -/
def analyze (entry : Bytes) (program : List Node) : Except (Stopped (List Node)) (List Node) :=
  match checkEntry entry program with
  | .error e => .error ⟨e, program⟩
  | .ok () =>
    match collectItems program with
    | .error e => .error ⟨e, program⟩
    | .ok () =>
      match checkItems program program with
      | .error s => .error s
      | .ok d =>
        match (definedNames d.tree).find? (·.type.isNone) with
        | some v => .error ⟨⟨.unresolved v.name.lexeme, v.name⟩, d.tree⟩
        | none => .ok d.tree

mutual

/-- Every declaration of a node in source order, whether its function has a body or not. -/
def declarations : Node → List Decl
  | .decl d => [d]
  | .assign d _ => [d]
  | .signature s => s.params
  | .func s body => s.params ++ declarationsIn body
  | .cond _ _ body => declarationsIn body
  | _ => []

/-- Every declaration of a list of nodes in source order. -/
def declarationsIn : List Node → List Decl
  | [] => []
  | n :: rest => declarations n ++ declarationsIn rest

end

/-! ## What an accepted statement is made of -/

section Accepted

variable {c : Context} {scope : Scope} {result : Done Node}

theorem check_assign_eq_ok {d : Decl} {value : Node}
    (h : check c scope (.assign d value) = .ok result) :
    ∃ v t d', requireValue value (check c scope value) = .ok (v, t) ∧
      bindType d t value.token = .ok d' ∧
      result = ⟨.assign d' v.tree, (d.name.lexeme, t) :: v.scope, some t⟩ := by
  rw [check] at h
  split at h
  · cases h
  rename_i v t hvalue
  split at h
  · cases h
  rename_i d' hbind
  cases h
  exact ⟨v, t, d', hvalue, hbind, rfl⟩

theorem check_print_eq_ok {token : Token} {args : List Node}
    (h : check c scope (.print token args) = .ok result) :
    ∃ arg rest d t, args = arg :: rest ∧ requireValue arg (check c scope arg) = .ok (d, t) ∧
      result = ⟨.print token (d.tree :: rest), d.scope, some .void⟩ := by
  cases args with
  | nil =>
      rw [check] at h
      cases h
  | cons arg rest =>
      rw [check] at h
      split at h
      · cases h
      rename_i d t harg
      cases h
      exact ⟨arg, rest, d, t, rfl, harg, rfl⟩

theorem check_ret_eq_ok {token : Token} {value : Node}
    (h : check c scope (.ret token value) = .ok result) :
    ∃ d, check c scope value = .ok d ∧ d.type = c.signature.ret ∧
      result = ⟨.ret token d.tree, d.scope, d.type⟩ := by
  rw [check] at h
  split at h
  · cases h
  rename_i d hvalue
  split at h
  · rename_i hret
    cases h
    exact ⟨d, hvalue, hret, rfl⟩
  · cases h

theorem check_cond_eq_ok {token : Token} {condition : Node} {body : List Node}
    (h : check c scope (.cond token condition body) = .ok result) :
    ∃ d b, check c scope condition = .ok d ∧ d.type = some .bool ∧
      checkBody c d.scope body = .ok b ∧
      result = ⟨.cond token d.tree b.tree, d.scope, some .void⟩ := by
  rw [check] at h
  split at h
  · cases h
  rename_i d hcondition
  split at h
  · cases h
  rename_i hbool
  split at h
  · cases h
  rename_i b hbody
  cases h
  exact ⟨d, b, hcondition, Decidable.not_not.1 hbool, hbody, rfl⟩

end Accepted

end Typing

end Swiftlet
