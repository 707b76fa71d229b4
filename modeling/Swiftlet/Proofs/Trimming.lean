import Swiftlet.CSource
import Swiftlet.IR.Lowering
import Swiftlet.Proofs.Run.Visits
import Swiftlet.Proofs.Typing.Repeated

/-!
# The arguments of `print` behind the first

`print` takes any number of arguments and prints the first. No stage looks at the others.

* `Node.trim` — a tree without the arguments of `print` behind the first, at any depth. Two programs
  differ only in such arguments if they are the same once trimmed.
* `analyze_trimAll` — the checker says the same of a trimmed program, and what it leaves behind is
  trimmed.
* `Follows` — a computation that does on a trimmed machine what another does.
* `run_trimAll` — a run has the same result and output; its log is trimmed.
* `lower_trimAll` and `program_trimAll` — the module and the C source are the same.

Principal result: `same_of_trimAll`.
-/

namespace Swiftlet

mutual

/-- The tree without the arguments of `print` behind the first. -/
def Node.trim : Node → Node
  | .print t args => .print t (trimFirst args)
  | .assign d v => .assign d v.trim
  | .binary l op r => .binary l.trim op r.trim
  | .call name args => .call name (trimAll args)
  | .func s body => .func s (trimAll body)
  | .cond t c body => .cond t c.trim (trimAll body)
  | .ret t v => .ret t v.trim
  | .int t v => .int t v
  | .float t v => .float t v
  | .bool t v => .bool t v
  | .string t v => .string t v
  | .decl d => .decl d
  | .ref name => .ref name
  | .signature s => .signature s

/-- What is printed of the arguments of a `print`. -/
def trimFirst : List Node → List Node
  | [] => []
  | n :: _ => [n.trim]

def trimAll : List Node → List Node
  | [] => []
  | n :: rest => n.trim :: trimAll rest

end

/-! ## What is kept -/

@[simp] theorem trimAll_nil : trimAll [] = [] := by rw [trimAll]

@[simp] theorem trimAll_cons (n : Node) (ns : List Node) : trimAll (n :: ns) = n.trim :: trimAll ns := by
  rw [trimAll]

@[simp] theorem length_trimAll (ns : List Node) : (trimAll ns).length = ns.length := by
  induction ns with
  | nil => simp
  | cons n ns ih => simp [ih]

@[simp] theorem Node.token_trim (n : Node) : n.trim.token = n.token := by
  cases n <;> simp [trim, token]

@[simp] theorem Node.isReturn_trim (n : Node) : n.trim.isReturn = n.isReturn := by
  cases n <;> simp [trim, isReturn]

@[simp] theorem Node.signature?_trim (n : Node) : n.trim.signature? = n.signature? := by
  cases n <;> simp [trim, signature?]

theorem filterMap_signature?_trimAll (ns : List Node) :
    (trimAll ns).filterMap Node.signature? = ns.filterMap Node.signature? := by
  induction ns with
  | nil => simp
  | cons n ns ih => simp [List.filterMap_cons, ih]

@[simp] theorem lastSignature?_trimAll (program : List Node) :
    lastSignature? (trimAll program) = lastSignature? program := by
  funext x
  rw [lastSignature?, lastSignature?, filterMap_signature?_trimAll]

theorem findFunction?_trimAll (program : List Node) (x : Bytes) :
    findFunction? (trimAll program) x =
      (findFunction? program x).map fun (s, body) => (s, trimAll body) := by
  induction program with
  | nil => simp [findFunction?]
  | cons n ns ih =>
      unfold findFunction? at ih ⊢
      cases n with
      | func s body =>
          by_cases hname : s.name.lexeme = x
          · simp [Node.trim, hname]
          · simpa [Node.trim, hname] using ih
      | _ => simpa [Node.trim] using ih

namespace Typing

/-! ## Checking -/

mutual

theorem boundBy_trim : ∀ n : Node, boundBy n.trim = boundBy n
  | .cond t c body => by simp only [Node.trim, boundBy, boundByAll_trimAll body]
  | .print .. | .assign .. | .binary .. | .call .. | .func .. | .ret .. | .int .. | .float ..
  | .bool .. | .string .. | .decl .. | .ref .. | .signature .. => by simp only [Node.trim, boundBy]

theorem boundByAll_trimAll : ∀ ns : List Node, boundByAll (trimAll ns) = boundByAll ns
  | [] => by simp only [trimAll_nil]
  | n :: ns => by simp only [trimAll_cons, boundByAll, boundBy_trim n, boundByAll_trimAll ns]

end

mutual

theorem declarations_trim : ∀ n : Node, declarations n.trim = declarations n
  | .cond t c body | .func s body => by
    simp only [Node.trim, declarations, declarationsIn_trimAll body]
  | .print .. | .assign .. | .binary .. | .call .. | .ret .. | .int .. | .float ..
  | .bool .. | .string .. | .decl .. | .ref .. | .signature .. => by simp only [Node.trim, declarations]

theorem declarationsIn_trimAll : ∀ ns : List Node, declarationsIn (trimAll ns) = declarationsIn ns
  | [] => by simp only [trimAll_nil]
  | n :: ns => by
    simp only [trimAll_cons, declarationsIn, declarations_trim n, declarationsIn_trimAll ns]

end

mutual

theorem collectNode_trim (s : Signature) :
    ∀ (n : Node) (bound : List Bytes), collectNode s bound n.trim = collectNode s bound n
  | .cond t c body, bound => by simp only [Node.trim, collectNode, collectBody_trimAll s body]
  | .print .., _ | .assign .., _ | .binary .., _ | .call .., _ | .func .., _ | .ret .., _ | .int .., _
  | .float .., _ | .bool .., _ | .string .., _ | .decl .., _ | .ref .., _ | .signature .., _ => by
    simp only [Node.trim, collectNode]

theorem collectBody_trimAll (s : Signature) :
    ∀ (ns : List Node) (bound : List Bytes), collectBody s bound (trimAll ns) = collectBody s bound ns
  | [], bound => by simp only [trimAll_nil]
  | n :: ns, bound => by
    simp only [trimAll_cons, collectBody, collectNode_trim s n, collectBody_trimAll s ns]

end

theorem collectItems_trimAll (ns : List Node) : collectItems (trimAll ns) = collectItems ns := by
  induction ns with
  | nil => simp
  | cons n ns ih =>
      have hn : collectItem n.trim = collectItem n := by
        cases n with
        | func s body => simp only [Node.trim, collectItem, collectBody_trimAll]
        | _ => simp only [Node.trim, collectItem, Node.token]
      rw [trimAll_cons, collectItems, collectItems, hn, ih]

theorem requireValue_trim (n : Node) (o : Outcome Node) :
    requireValue n.trim (o.within Node.trim) =
      match requireValue n o with
      | .error st => .error ⟨st.error, st.tree.trim⟩
      | .ok (d, t) => .ok (⟨d.tree.trim, d.scope, d.type⟩, t) := by
  cases o with
  | error st => rfl
  | ok d =>
      obtain ⟨tree, scope, type⟩ := d
      simp only [Outcome.within, requireValue, Node.token_trim]
      cases type with
      | none => rfl
      | some t => cases t <;> rfl

section

variable {program : List Node} {s : Signature} {names : List Bytes}

mutual

/-- The checker leaves of a trimmed node what it leaves of the node, trimmed. -/
theorem check_trim : ∀ (n : Node) (Γ : Scope),
    check ⟨trimAll program, s, names⟩ Γ n.trim =
      (check ⟨program, s, names⟩ Γ n).within Node.trim
  | .int .., Γ | .float .., Γ | .bool .., Γ | .string .., Γ | .decl .., Γ | .signature .., Γ
  | .func .., Γ | .print _ [], Γ => by simp only [Node.trim, trimFirst, check, Outcome.within]
  | .ref name, Γ => by
    have hsame : checkRef ⟨trimAll program, s, names⟩ Γ name = checkRef ⟨program, s, names⟩ Γ name := rfl
    simp only [Node.trim, check, hsame]
    cases checkRef ⟨program, s, names⟩ Γ name <;> simp only [Outcome.within, Node.trim]
  | .assign d v, Γ => by
    simp only [Node.trim, check, check_trim v, requireValue_trim, Node.token_trim]
    cases requireValue v (check ⟨program, s, names⟩ Γ v) with
    | error st => simp only [Outcome.within, Node.trim]
    | ok r =>
        obtain ⟨value, t⟩ := r
        cases hbind : bindType d t v.token <;> simp only [hbind, Outcome.within, Node.trim]
  | .binary l op r, Γ => by
    simp only [Node.trim, check, check_trim l, check_trim r, requireValue_trim]
    cases requireValue l (check ⟨program, s, names⟩ Γ l) with
    | error st => simp only [Outcome.within, Node.trim]
    | ok left =>
        obtain ⟨left, tl⟩ := left
        dsimp only
        cases requireValue r (check ⟨program, s, names⟩ left.scope r) with
        | error st => simp only [Outcome.within, Node.trim]
        | ok right =>
            obtain ⟨right, tr⟩ := right
            dsimp only
            split
            · simp only [Outcome.within, Node.trim]
            split
            · simp only [Outcome.within, Node.trim]
            · simp only [Outcome.within, Node.trim]
  | .call name args, Γ => by
    simp only [Node.trim, check, lastSignature?_trimAll, length_trimAll, checkArgs_trim args]
    cases lastSignature? program name.lexeme with
    | none => simp only [Outcome.within, Node.trim]
    | some callee =>
        dsimp only
        split
        · simp only [Outcome.within, Node.trim]
        · cases checkArgs ⟨program, s, names⟩ Γ name.lexeme 0 callee.params args <;>
            simp only [Outcome.within, Node.trim]
  | .print t (a :: rest), Γ => by
    simp only [Node.trim, trimFirst, check, check_trim a, requireValue_trim]
    cases requireValue a (check ⟨program, s, names⟩ Γ a) <;>
      simp only [Outcome.within, Node.trim, trimFirst]
  | .ret t v, Γ => by
    simp only [Node.trim, check, check_trim v, Node.token_trim]
    cases check ⟨program, s, names⟩ Γ v with
    | error st => simp only [Outcome.within, Node.trim]
    | ok d =>
        simp only [Outcome.within]
        split
        · simp only [Node.trim]
        · simp only [Node.trim]
  | .cond t e body, Γ => by
    simp only [Node.trim, check, check_trim e, checkBody_trim body, Node.token_trim]
    cases check ⟨program, s, names⟩ Γ e with
    | error st => simp only [Outcome.within, Node.trim]
    | ok d =>
        simp only [Outcome.within]
        split
        · simp only [Node.trim]
        · cases checkBody ⟨program, s, names⟩ d.scope body <;> simp only [Node.trim]

theorem checkArgs_trim : ∀ (args : List Node) (Γ : Scope) (name : Bytes) (k : Nat) (params : List Decl),
    checkArgs ⟨trimAll program, s, names⟩ Γ name k params (trimAll args) =
      (checkArgs ⟨program, s, names⟩ Γ name k params args).within trimAll
  | [], Γ, name, k, params => by simp only [trimAll_nil, checkArgs, Outcome.within]
  | a :: rest, Γ, name, k, params => by
    simp only [trimAll_cons, checkArgs, check_trim a, checkArgs_trim rest, requireValue_trim,
      Node.token_trim]
    cases requireValue a (check ⟨program, s, names⟩ Γ a) with
    | error st => simp only [Outcome.within, trimAll_cons]
    | ok r =>
        obtain ⟨d, t⟩ := r
        cases params with
        | nil => simp only [Outcome.within, trimAll_cons]
        | cons p params =>
            dsimp only
            split
            · simp only [Outcome.within, trimAll_cons]
            · cases checkArgs ⟨program, s, names⟩ d.scope name (k + 1) params rest <;>
                simp only [Outcome.within, trimAll_cons]

theorem checkBody_trim : ∀ (ns : List Node) (Γ : Scope),
    checkBody ⟨trimAll program, s, names⟩ Γ (trimAll ns) =
      (checkBody ⟨program, s, names⟩ Γ ns).within trimAll
  | [], Γ => by simp only [trimAll_nil, checkBody, Outcome.within]
  | n :: rest, Γ => by
    simp only [trimAll_cons, checkBody, check_trim n, checkBody_trim rest]
    cases check ⟨program, s, names⟩ Γ n with
    | error st => simp only [Outcome.within, trimAll_cons]
    | ok d =>
        simp only [Outcome.within]
        cases checkBody ⟨program, s, names⟩ d.scope rest <;> simp only [trimAll_cons]

end

end

theorem checkItem_trim (program : List Node) (n : Node) :
    checkItem (trimAll program) n.trim = (checkItem program n).within Node.trim := by
  cases n with
  | func s body =>
      simp only [Node.trim, checkItem, boundByAll_trimAll, checkBody_trim]
      cases checkBody ⟨program, s, _⟩ [] body <;> simp only [Outcome.within, Node.trim]
  | _ => simp only [Node.trim, checkItem, Outcome.within]

theorem checkItems_trimAll (program ns : List Node) :
    checkItems (trimAll program) (trimAll ns) = (checkItems program ns).within trimAll := by
  induction ns with
  | nil => simp only [trimAll_nil, checkItems, Outcome.within]
  | cons n ns ih =>
      simp only [trimAll_cons, checkItems, checkItem_trim, ih]
      cases checkItem program n with
      | error st => simp only [Outcome.within, trimAll_cons]
      | ok d => cases checkItems program ns <;> simp only [Outcome.within, trimAll_cons]

theorem filter_isEntry_trimAll (entry : Bytes) (ns : List Node) :
    (trimAll ns).filter (isEntry entry) = trimAll (ns.filter (isEntry entry)) := by
  induction ns with
  | nil => simp
  | cons n ns ih =>
      have hn : isEntry entry n.trim = isEntry entry n := by
        cases n <;> simp only [Node.trim, isEntry]
      rw [trimAll_cons, List.filter_cons, List.filter_cons, hn, ih]
      split
      · rw [trimAll_cons]
      · rfl

theorem checkEntry_trimAll (entry : Bytes) (program : List Node) :
    checkEntry entry (trimAll program) = checkEntry entry program := by
  cases program with
  | nil => simp
  | cons n ns =>
      cases n with
      | func s body =>
          simp only [trimAll_cons, Node.trim, checkEntry, filter_isEntry_trimAll]
          cases ns.filter (isEntry entry) with
          | nil => simp
          | cons again more => simp
      | _ => simp only [trimAll_cons, Node.trim, checkEntry, Node.token]

theorem definedNames_trimAll (ns : List Node) : definedNames (trimAll ns) = definedNames ns := by
  unfold definedNames
  induction ns with
  | nil => simp
  | cons n ns ih =>
      rw [trimAll_cons, List.flatMap_cons, List.flatMap_cons, ih]
      congr 1
      cases n with
      | func s body => simp only [Node.trim, boundByAll_trimAll]
      | _ => simp only [Node.trim]

/-- **The checker says the same of a trimmed program**, and leaves the same types in it. -/
theorem analyze_trimAll (entry : Bytes) (program : List Node) :
    analyze entry (trimAll program) =
      match analyze entry program with
      | .error st => .error ⟨st.error, trimAll st.tree⟩
      | .ok tree => .ok (trimAll tree) := by
  simp only [analyze, checkEntry_trimAll, collectItems_trimAll, checkItems_trimAll]
  cases checkEntry entry program with
  | error e => rfl
  | ok _ =>
      cases collectItems program with
      | error e => rfl
      | ok _ =>
          cases checkItems program program with
          | error st => rfl
          | ok d =>
              simp only [Outcome.within, definedNames_trimAll]
              cases (definedNames d.tree).find? (·.type.isNone) <;> rfl

theorem verdict_trimAll (entry : Bytes) (program : List Node) :
    verdict entry (trimAll program) = verdict entry program := by
  rw [verdict, verdict, analyze_trimAll]
  cases analyze entry program <;> rfl

theorem after_trimAll (entry : Bytes) (program : List Node) :
    after entry (trimAll program) = trimAll (after entry program) := by
  rw [after, after, analyze_trimAll]
  cases analyze entry program <;> rfl

end Typing

namespace Run

/-! ## Runs -/

/-- The same log with the statements trimmed. -/
def trimLog (log : Log) : Log := log.map fun (n, v) => (n.trim, v)

def Frame.trim (f : Frame) : Frame := { f with log := trimLog f.log }

def Machine.trim (m : Machine) : Machine := ⟨m.frame.trim, m.callers.map Frame.trim, m.sink⟩

def trimOutcome {α : Type} : Outcome α → Outcome α
  | .error (e, m) => .error (e, m.trim)
  | .ok (v, m) => .ok (v, m.trim)

/-- On a trimmed machine, `f'` does what `f` does. -/
def Follows {α : Type} (f' f : Machine → Outcome α) : Prop := ∀ m, f' m.trim = trimOutcome (f m)

theorem map_snd_trimLog (log : Log) : (trimLog log).map Prod.snd = log.map Prod.snd := by
  rw [trimLog, List.map_map]
  rfl

theorem latestBinding?_trimLog (x : Bytes) (log : Log) :
    latestBinding? x (trimLog log) = latestBinding? x log := by
  induction log with
  | nil => rfl
  | cons entry log ih =>
      obtain ⟨n, v⟩ := entry
      rw [trimLog, List.map_cons, ← trimLog]
      cases n <;> simp only [Node.trim, latestBinding?, ih]

@[simp] theorem Machine.push_trim (m : Machine) (s : Signature) : m.trim.push s = (m.push s).trim := rfl

@[simp] theorem Machine.pop_trim (m : Machine) : m.trim.pop = m.pop.trim := by
  obtain ⟨f, callers, sink⟩ := m
  cases callers <;> rfl

@[simp] theorem Machine.record_trim (m : Machine) (n : Node) (v : Value) :
    m.trim.record n.trim v = (m.record n v).trim := rfl

theorem getElem?_follows {args' args : List Argument} (hargs : List.Forall₂ Follows args' args) (i : Nat) :
    args'[i]? = none ∧ args[i]? = none ∨
      ∃ a' a, args'[i]? = some a' ∧ args[i]? = some a ∧ Follows a' a := by
  induction hargs generalizing i with
  | nil => exact .inl ⟨rfl, rfl⟩
  | cons ha _ ih =>
      cases i with
      | zero => exact .inr ⟨_, _, rfl, rfl, ha⟩
      | succ i => exact ih i

theorem lookup_follows {args' args : List Argument} (hargs : List.Forall₂ Follows args' args)
    (name : Token) : Follows (lookup args' name) (lookup args name) := by
  rintro ⟨⟨s, cache, log⟩, callers, sink⟩
  simp only [lookup, Machine.trim, Frame.trim, latestBinding?_trimLog]
  cases cache.lookup name.lexeme with
  | some v => rfl
  | none =>
      cases s.paramIndex? name.lexeme with
      | none => cases latestBinding? name.lexeme log <;> rfl
      | some i =>
          cases callers with
          | nil => cases latestBinding? name.lexeme log <;> rfl
          | cons caller callers =>
              rcases getElem?_follows hargs i with ⟨h', h⟩ | ⟨a', a, h', h, ha⟩
              · simp only [List.map_cons, h', h]
                rfl
              · have hforced : a' ⟨caller.trim, callers.map Frame.trim, sink⟩ =
                    trimOutcome (a ⟨caller, callers, sink⟩) := ha ⟨caller, callers, sink⟩
                simp only [List.map_cons, h', h, hforced]
                cases a ⟨caller, callers, sink⟩ <;> rfl

theorem emit_follows (token : Token) (v : Value) : Follows (emit token v) (emit token v) := by
  intro m
  unfold emit
  split
  · simp only [Machine.trim]
    cases m.sink.write v <;> rfl
  · rfl

theorem branch_follows (token : Token) {c' c : Argument} {b' b : Machine → Outcome (Value × Bool)}
    (hc : Follows c' c) (hb : Follows b' b) : Follows (branch token c' b') (branch token c b) := by
  intro m
  rw [branch, branch, hc m]
  cases c m with
  | error e => rfl
  | ok r =>
      obtain ⟨v, m'⟩ := r
      cases v with
      | bool holds =>
          cases holds with
          | true => exact hb m'
          | false => rfl
      | _ => rfl

section

variable {program : List Node} {enter' enter : Enter} {args' args : List Argument}

/-- On a trimmed body, `enter'` does what `enter` does. -/
def EnterFollows (enter' enter : Enter) : Prop :=
  ∀ s body args' args, List.Forall₂ Follows args' args →
    Follows (enter' s (trimAll body) args') (enter s body args)

mutual

theorem eval_follows (henter : EnterFollows enter' enter) (hargs : List.Forall₂ Follows args' args) :
    ∀ n : Node, Follows (eval (trimAll program) enter' args' n.trim) (eval program enter args n)
  | .int .. | .float .. | .bool .. | .string .. | .decl .. | .signature .. | .func .. | .print _ [] => by
    intro m
    simp only [Node.trim, trimFirst, eval, trimOutcome, Node.kindName]
  | .ref name => by
    intro m
    simp only [Node.trim, eval]
    exact lookup_follows hargs name m
  | .assign _ v | .ret _ v => by
    intro m
    simp only [Node.trim, eval]
    exact eval_follows henter hargs v m
  | .print t (a :: _) => by
    intro m
    simp only [Node.trim, trimFirst, eval, eval_follows henter hargs a m]
    cases eval program enter args a m with
    | error e => rfl
    | ok r => exact emit_follows t r.1 r.2
  | .binary l op r => by
    intro m
    simp only [Node.trim, eval, eval_follows henter hargs l m]
    cases eval program enter args l m with
    | error e => rfl
    | ok left =>
        obtain ⟨left, m⟩ := left
        simp only [trimOutcome, eval_follows henter hargs r m]
        cases eval program enter args r m with
        | error e => rfl
        | ok right =>
            obtain ⟨right, m⟩ := right
            dsimp only
            cases operate op left right <;> rfl
  | .call name actuals => by
    intro m
    simp only [Node.trim, eval, findFunction?_trimAll]
    cases findFunction? program name.lexeme with
    | none => rfl
    | some found =>
        exact henter found.1 found.2 _ _ (suspend_follows henter hargs actuals) m
  | .cond t c body => by
    intro m
    simp only [Node.trim, eval, branch_follows t (eval_follows henter hargs c)
      (runBody_follows henter hargs body) m]
    cases branch t (eval program enter args c) (runBody program enter args body) m <;> rfl
termination_by n => sizeOf n

theorem suspend_follows (henter : EnterFollows enter' enter) (hargs : List.Forall₂ Follows args' args) :
    ∀ ns : List Node, List.Forall₂ Follows (suspend (trimAll program) enter' args' (trimAll ns))
      (suspend program enter args ns)
  | [] => by simp [suspend]
  | n :: rest => by
    rw [trimAll_cons, suspend, suspend]
    exact .cons (eval_follows henter hargs n) (suspend_follows henter hargs rest)
termination_by ns => sizeOf ns

theorem runBody_follows (henter : EnterFollows enter' enter) (hargs : List.Forall₂ Follows args' args) :
    ∀ ns : List Node,
      Follows (runBody (trimAll program) enter' args' (trimAll ns)) (runBody program enter args ns)
  | [] => by
    intro m
    simp only [trimAll_nil, runBody, trimOutcome]
  | n :: rest => by
    -- An `if` hands on whether it returned, so as a statement it is more than its value.
    have hsingle : Follows (runBody (trimAll program) enter' args' [n.trim])
        (runBody program enter args [n]) := by
      intro m
      by_cases hn : ∃ t c body, n = .cond t c body
      · obtain ⟨t, c, body, rfl⟩ := hn
        rw [Node.trim, runBody_cond, runBody_cond, branch_follows t (eval_follows henter hargs c)
          (runBody_follows henter hargs body) m]
        cases branch t (eval program enter args c) (runBody program enter args body) m with
        | error e => rfl
        | ok r =>
            obtain ⟨⟨v, returned⟩, m⟩ := r
            cases returned <;> simp only [trimOutcome, ← Machine.record_trim, Node.trim]
      · have hne : ∀ t c body, n ≠ .cond t c body := fun t c body h => hn ⟨t, c, body, h⟩
        have hne' : ∀ t c body, n.trim ≠ .cond t c body := by
          intro t c body h
          cases n with
          | cond t' c' body' => exact hne t' c' body' rfl
          | _ => simp [Node.trim] at h
        rw [runBody_single _ _ _ _ _ hne, runBody_single _ _ _ _ _ hne', eval_follows henter hargs n m,
          Node.isReturn_trim]
        cases eval program enter args n m <;> rfl
    intro m
    rw [trimAll_cons, runBody_cons, runBody_cons _ _ _ n, hsingle m]
    cases runBody program enter args [n] m with
    | error e => rfl
    | ok r =>
        obtain ⟨⟨v, returned⟩, m⟩ := r
        cases returned with
        | true => rfl
        | false => exact runBody_follows henter hargs rest m
termination_by ns => sizeOf ns

end

theorem enter_follows (program : List Node) (depth : Nat) :
    EnterFollows (Run.enter (trimAll program) depth) (Run.enter program depth) := by
  induction depth with
  | zero => exact fun s body args' args hargs m => rfl
  | succ depth ih =>
      intro s body args' args hargs m
      simp only [Run.enter, Machine.push_trim, runBody_follows ih hargs body (m.push s)]
      cases runBody program (Run.enter program depth) args body (m.push s) with
      | error e => simp only [trimOutcome, Machine.pop_trim]
      | ok r => simp only [trimOutcome, Machine.pop_trim]

end

/-- **A run of a trimmed program** has the same result and output, and its log is trimmed. -/
theorem run_trimAll (entry : Bytes) (program : List Node) (sink : Sink) :
    run entry (trimAll program) sink =
      { run entry program sink with log := trimLog (run entry program sink).log } := by
  rw [run, run, findFunction?_trimAll]
  cases findFunction? program entry with
  | none => rfl
  | some found =>
      obtain ⟨s, body⟩ := found
      have hbody : runBody (trimAll program) (Run.enter (trimAll program) maxCallDepth) [] (trimAll body)
          ⟨⟨s, [], []⟩, [], sink⟩ = trimOutcome (runBody program (Run.enter program maxCallDepth) [] body
          ⟨⟨s, [], []⟩, [], sink⟩) :=
        runBody_follows (enter_follows program maxCallDepth) .nil body ⟨⟨s, [], []⟩, [], sink⟩
      simp only [Option.map_some, hbody]
      cases runBody program (Run.enter program maxCallDepth) [] body ⟨⟨s, [], []⟩, [], sink⟩ with
      | error e => simp [trimOutcome, Machine.trim, Frame.trim, trimLog]
      | ok r => simp [trimOutcome, Machine.trim, Frame.trim, trimLog]

end Run

namespace IR

/-! ## Modules -/

section

variable {entry : Bytes} {program : List Node} {ret : Ty} {params : List (Bytes × Operand)}

mutual

theorem lowerValue_trim : ∀ (n : Node) (σ : State),
    lowerValue ⟨entry, trimAll program, ret, params⟩ n.trim σ =
      lowerValue ⟨entry, program, ret, params⟩ n σ
  | .binary l op r, σ => by simp only [Node.trim, lowerValue, lowerValue_trim l, lowerValue_trim r]
  | .call name args, σ => by
    simp only [Node.trim, lowerValue, lastSignature?_trimAll, length_trimAll, lowerValues_trimAll args]
  | .ref name, σ => by
    simp only [Node.trim, lowerValue]
    rfl
  | .print .., σ | .assign .., σ | .func .., σ | .ret .., σ | .cond .., σ
  | .int .., σ | .float .., σ | .bool .., σ | .string .., σ | .decl .., σ | .signature .., σ => by
    simp only [Node.trim, lowerValue, Node.kindName, Node.token]

theorem lowerValues_trimAll : ∀ (ns : List Node) (σ : State),
    lowerValues ⟨entry, trimAll program, ret, params⟩ (trimAll ns) σ =
      lowerValues ⟨entry, program, ret, params⟩ ns σ
  | [], σ => by simp only [trimAll_nil, lowerValues]
  | n :: ns, σ => by simp only [trimAll_cons, lowerValues, lowerValue_trim n, lowerValues_trimAll ns]

end

mutual

theorem lowerStatement_trim : ∀ (n : Node) (σ : State),
    lowerStatement ⟨entry, trimAll program, ret, params⟩ n.trim σ =
      lowerStatement ⟨entry, program, ret, params⟩ n σ
  | .assign d v, σ | .ret t v, σ | .print t (v :: _), σ => by
    simp only [Node.trim, trimFirst, lowerStatement, lowerValue_trim v]
  | .cond t c body, σ => by
    simp only [Node.trim, lowerStatement, lowerValue_trim c, lowerBody_trimAll body]
  | .print t [], σ | .decl .., σ | .func .., σ | .signature .., σ => by
    simp only [Node.trim, trimFirst, lowerStatement]
  | .int .., σ | .float .., σ | .bool .., σ | .string .., σ => by
    simp only [Node.trim, lowerStatement, lowerValue]
  | .ref name, σ => by
    simp only [Node.trim, lowerStatement, lowerValue]
    rfl
  | .binary l op r, σ => by simp only [Node.trim, lowerStatement, lowerValue, lowerValue_trim]
  | .call name args, σ => by
    simp only [Node.trim, lowerStatement, lowerValue, lastSignature?_trimAll, length_trimAll,
      lowerValues_trimAll]

theorem lowerBody_trimAll : ∀ (ns : List Node) (σ : State),
    lowerBody ⟨entry, trimAll program, ret, params⟩ (trimAll ns) σ =
      lowerBody ⟨entry, program, ret, params⟩ ns σ
  | [], σ => by simp only [trimAll_nil, lowerBody]
  | n :: ns, σ => by simp only [trimAll_cons, lowerBody, lowerStatement_trim n, lowerBody_trimAll ns]

end

end

theorem declareAll_trimAll (entry : Bytes) (program ns : List Node) (σ : State) :
    declareAll entry (trimAll program) (trimAll ns) σ = declareAll entry program ns σ := by
  induction ns generalizing σ with
  | nil => simp only [trimAll_nil, declareAll]
  | cons n ns ih =>
      cases n with
      | _ => simp only [trimAll_cons, Node.trim, declareAll, lastSignature?_trimAll, ih]

theorem lowerAll_trimAll (entry : Bytes) (program ns : List Node) (σ : State) :
    lowerAll entry (trimAll program) (trimAll ns) σ = lowerAll entry program ns σ := by
  induction ns generalizing σ with
  | nil => simp only [trimAll_nil, lowerAll]
  | cons n ns ih =>
      cases n with
      | func s body =>
          simp only [trimAll_cons, Node.trim, lowerAll, lowerFunction, lastSignature?_trimAll,
            lowerBody_trimAll, ih]
      | _ => simp only [trimAll_cons, Node.trim, lowerAll, Node.kindName, Node.token, ih]

/-- **A trimmed program has the same module.** -/
theorem lower_trimAll (entry sourceName : Bytes) (program : List Node) :
    lower entry sourceName (trimAll program) = lower entry sourceName program := by
  simp only [lower, declareAll_trimAll, lowerAll_trimAll]

end IR

namespace CSource

/-! ## C source -/

theorem typeOf_trim (program : List Node) (vars : Variables) : ∀ n : Node,
    typeOf (trimAll program) vars n.trim = typeOf program vars n
  | .binary l op r => by simp only [Node.trim, typeOf, typeOf_trim program vars l]
  | .call name args => by simp only [Node.trim, typeOf, lastSignature?_trimAll]
  | .print .. | .assign .. | .func .. | .ret .. | .cond .. | .ref .. | .int ..
  | .float .. | .bool .. | .string .. | .decl .. | .signature .. => by
    simp only [Node.trim, typeOf, Node.literalType?]

mutual

theorem expression_trim : ∀ n : Node, expression n.trim = expression n
  | .binary l op r => by simp only [Node.trim, expression, expression_trim l, expression_trim r]
  | .call name args => by simp only [Node.trim, expression, expressions_trimAll args]
  | .print .. | .assign .. | .func .. | .ret .. | .cond .. | .ref .. | .int ..
  | .float .. | .bool .. | .string .. | .decl .. | .signature .. => by
    simp only [Node.trim, expression]

theorem expressions_trimAll : ∀ ns : List Node, expressions (trimAll ns) = expressions ns
  | [] => by simp only [trimAll_nil]
  | n :: ns => by simp only [trimAll_cons, expressions, expression_trim n, expressions_trimAll ns]

end

section

variable {entry : Bytes} {nodes : List Node} {s : Signature}

mutual

theorem statement_trim : ∀ (n : Node) (vars : Variables) (depth : Nat),
    statement ⟨entry, trimAll nodes, s⟩ vars depth n.trim = statement ⟨entry, nodes, s⟩ vars depth n
  | .assign d v, vars, depth => by simp only [Node.trim, statement, binding, expression_trim]
  | .print t [], vars, depth => by simp only [Node.trim, trimFirst, statement, printing]
  | .print t (a :: _), vars, depth => by
    simp only [Node.trim, trimFirst, statement, printing, typeOf_trim, expression_trim]
  | .ret t v, vars, depth => by
    simp only [Node.trim, statement, returning, typeOf_trim, expression_trim]
  | .cond t c body, vars, depth => by
    simp only [Node.trim, statement, expression_trim, block_trimAll body]
  | .int .., vars, depth | .float .., vars, depth | .bool .., vars, depth | .string .., vars, depth
  | .decl .., vars, depth | .ref .., vars, depth | .signature .., vars, depth
  | .func .., vars, depth => by simp only [Node.trim, statement, expression]
  | .binary l op r, vars, depth => by
    simp only [Node.trim, statement, expression, expression_trim]
  | .call name args, vars, depth => by
    simp only [Node.trim, statement, expression, expressions_trimAll]

theorem block_trimAll : ∀ (ns : List Node) (vars : Variables) (depth : Nat),
    block ⟨entry, trimAll nodes, s⟩ vars depth (trimAll ns) = block ⟨entry, nodes, s⟩ vars depth ns
  | [], vars, depth => by simp only [trimAll_nil, block]
  | n :: ns, vars, depth => by simp only [trimAll_cons, block, statement_trim n, block_trimAll ns]

end

end

theorem prototypes_trimAll (entry : Bytes) (nodes : List Node) (names : List Bytes) :
    prototypes entry (trimAll nodes) names = prototypes entry nodes names := by
  induction names with
  | nil => rfl
  | cons name names ih => simp only [prototypes, lastSignature?_trimAll, ih]

theorem definitions_trimAll (entry : Bytes) (nodes ns : List Node) (isFirst : Bool) :
    definitions entry (trimAll nodes) isFirst (trimAll ns) = definitions entry nodes isFirst ns := by
  induction ns generalizing isFirst with
  | nil => simp only [trimAll_nil, definitions]
  | cons n ns ih =>
      cases n with
      | func s body => simp only [trimAll_cons, Node.trim, definitions, definition, block_trimAll, ih]
      | _ => simp only [trimAll_cons, Node.trim, definitions, ih]

/-- **A trimmed program has the same C source.** -/
theorem program_trimAll (entry : Bytes) (nodes : List Node) :
    program entry (trimAll nodes) = program entry nodes := by
  have hnames : functionNames (trimAll nodes) = functionNames nodes := by
    rw [functionNames, functionNames, filterMap_signature?_trimAll]
  simp only [program, hnames, prototypes_trimAll, definitions_trimAll]

end CSource

/-! ## Programs that differ only there -/

/-- Runs of programs that are the same once trimmed. -/
theorem Run.run_same {tree tree' : List Node} (h : trimAll tree' = trimAll tree) (start : Bytes)
    (sink : Sink) :
    (run start tree' sink).result = (run start tree sink).result ∧
      (run start tree' sink).sink = (run start tree sink).sink ∧
      (run start tree' sink).log.map Prod.snd = (run start tree sink).log.map Prod.snd := by
  have hrun : ({ run start tree' sink with log := trimLog (run start tree' sink).log } : Report) =
      { run start tree sink with log := trimLog (run start tree sink).log } := by
    rw [← run_trimAll, ← run_trimAll, h]
  obtain ⟨hresult, hsink, hlog⟩ := Report.mk.inj hrun
  refine ⟨hresult, hsink, ?_⟩
  rw [← map_snd_trimLog, hlog, map_snd_trimLog]

/-- **The arguments of `print` behind the first have no effect.** Two programs that are the same without
them are checked with the same outcome and the same types. If they are accepted, they have the same
result, output and logged values, the same module and the same C source. -/
theorem same_of_trimAll {program program' : List Node} (h : trimAll program' = trimAll program)
    (entry : Bytes) :
    Typing.verdict entry program' = Typing.verdict entry program ∧
      Typing.declarationsIn (Typing.after entry program') =
        Typing.declarationsIn (Typing.after entry program) ∧
      ∀ tree tree', Typing.analyze entry program = .ok tree → Typing.analyze entry program' = .ok tree' →
        ∀ start, (∀ sink, (Run.run start tree' sink).result = (Run.run start tree sink).result ∧
            (Run.run start tree' sink).sink = (Run.run start tree sink).sink ∧
            (Run.run start tree' sink).log.map Prod.snd = (Run.run start tree sink).log.map Prod.snd) ∧
          (∀ name, IR.lower start name tree' = IR.lower start name tree) ∧
          CSource.program start tree' = CSource.program start tree := by
  refine ⟨?_, ?_, fun tree tree' htree htree' start => ?_⟩
  · rw [← Typing.verdict_trimAll, h, Typing.verdict_trimAll]
  · rw [← Typing.declarationsIn_trimAll, ← Typing.after_trimAll, h, Typing.after_trimAll,
      Typing.declarationsIn_trimAll]
  · have htrees : trimAll tree' = trimAll tree := by
      have hleft := Typing.analyze_trimAll entry program
      have hright := Typing.analyze_trimAll entry program'
      rw [htree] at hleft
      rw [htree', h, hleft] at hright
      exact (Except.ok.inj hright).symm
    refine ⟨Run.run_same htrees start, fun name => ?_, ?_⟩
    · rw [← IR.lower_trimAll, htrees, IR.lower_trimAll]
    · rw [← CSource.program_trimAll, htrees, CSource.program_trimAll]

namespace Parsing

/-- `func main() { if true { print(one(1), ...) } }` and `func one(n: Int) -> Int { return n }`. -/
def printsOne (more : List Node) : List Node :=
  [.func ⟨named "main", [], some .void⟩
      [.cond (fixed (.keyword .ifBranch)) (.bool (fixed (.bool true)) true)
        [.print (fixed (.keyword .printing))
          (.call (named "one") [.int ⟨.int, utf8 "1", Pos.start⟩ 1] :: more)]],
    .func ⟨named "one", [⟨false, named "n", some .int⟩], some .int⟩
      [.ret (fixed (.keyword .returning)) (.ref (named "n"))]]

/-- The tokens of `printsOne` with an undeclared name and a call of an unknown function. -/
def printsOneTokens : List Token :=
  spelled ["func", "main", "(", ")", "\x7b", "if", "true", "\x7b", "print", "(", "one", "(", "1", ")", ",",
    "x", ",", "f", "(", ")", ")", "\x7d", "\x7d", "func", "one", "(", "n", ":", "Int", ")", "->", "Int",
    "\x7b", "return", "n", "\x7d"]

end Parsing

open Parsing in
theorem same_of_trimAll_one :
    parse printsOneTokens = .ok (printsOne [.ref (named "x"), .call (named "f") []]) ∧
      Typing.analyze defaultEntry (printsOne [.ref (named "x"), .call (named "f") []]) =
        .ok (printsOne [.ref (named "x"), .call (named "f") []]) ∧
      (∀ sink, (Run.run defaultEntry (printsOne [.ref (named "x"), .call (named "f") []]) sink).result =
        (Run.run defaultEntry (printsOne []) sink).result) ∧
      CSource.program defaultEntry (printsOne [.ref (named "x"), .call (named "f") []]) =
        CSource.program defaultEntry (printsOne []) := by
  have htrim : trimAll (printsOne [.ref (named "x"), .call (named "f") []]) = trimAll (printsOne []) := by
    rfl
  have hokay : Typing.analyze defaultEntry (printsOne [.ref (named "x"), .call (named "f") []]) =
      .ok (printsOne [.ref (named "x"), .call (named "f") []]) := by rfl
  obtain ⟨-, -, hsame⟩ := same_of_trimAll htrim defaultEntry
  obtain ⟨hrun, -, hsource⟩ := hsame _ _ (by rfl) hokay defaultEntry
  exact ⟨by rfl, hokay, fun sink => (hrun sink).1, hsource⟩

end Swiftlet
