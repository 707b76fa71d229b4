import Swiftlet.Proofs.Parsing.Reading

/-!
# What is derived is accepted

The parser takes every list of tokens that the grammar derives, and returns the tree it derives.

* `Accepted last p ts rest` — on the tokens `ts` the parser comes, past the phrase `p`, to the
  tokens `rest`, from any state in which `p` may start. A phrase that could go on asks for a tail that
  does not go on with it.
* `accepted_of_derives` — every phrase that is derived is accepted, one lemma a rule.

Principal result: `parse_eq_ok_iff`, that the parser accepts exactly what the grammar derives.
-/

namespace Swiftlet

namespace Parsing

open Grammar

/-! ## Running one token further -/

section

variable {last : Token} {σ σ' : State}

theorem run_step {t : Token} {rest : List Token} (ht : t.kind ≠ .endOfFile)
    (h : step σ t = .ok σ') : run last σ (t :: rest) = run last σ' rest := by
  rw [run, if_neg ht, h]

/-- States that take the next token alike run alike. -/
theorem run_congr {ts : List Token} (hstep : ∀ t ∈ ts.head?, step σ t = step σ' t)
    (hfinish : ∀ t, finish σ t = finish σ' t) : run last σ ts = run last σ' ts := by
  cases ts with
  | nil => exact hfinish last
  | cons t ts => rw [run, run, hfinish t, hstep t rfl]

theorem run_head_congr {t : Token} {rest : List Token} (ht : t.kind ≠ .endOfFile)
    (h : step σ t = step σ' t) : run last σ (t :: rest) = run last σ' (t :: rest) := by
  rw [run, run, if_neg ht, if_neg ht, h]

end

/-! ## Phrases -/

/-- No multiplicative operator comes next. -/
def NotTight (rest : List Token) : Prop := ∀ t ∈ rest.head?, t.kind.group ≠ .multiplicative

/-- A statement can end here. -/
def Ends (rest : List Token) : Prop := ∀ t ∈ rest.head?, continues t.kind = false

/-- The block with more statements in its innermost body. -/
def Block.addAll (b : Block) (ns : List Node) : Block := ns.foldl (fun b n => b.add n) b

/-- A place that takes expressions with commas between them. -/
structure TakesList (hole : List Node → Hole) : Prop where
  level : ∀ done, (hole done).level = .sum
  comma : ∀ done e t, t.kind = .punct .comma →
    afterOperand t e (hole done) = .ok (.operand (hole (e :: done)))

/-- The state after the start of a binding. -/
def State.bound (d : Decl) (block : Block) : State :=
  match d.type with
  | none => .bindColon d.mutable d.name block
  | some _ => .bindEqual d block

def Accepted (last : Token) : Phrase → List Token → List Token → Prop
  | .expr .operand e, ts, rest => ∀ up, run last (.operand up) ts = run last (.operator e up) rest
  | .expr .product e, ts, rest =>
    ∀ up : Hole, up.level ≠ .operand → run last (.operand up) ts = run last (.operator e up) rest
  | .expr .sum e, ts, rest =>
    ∀ up : Hole, up.level = .sum → NotTight rest →
      run last (.operand up) ts = run last (.operator e up) rest
  | .list es, ts, rest =>
    ∀ hole, TakesList hole → NotTight rest → ∃ e done, es = (e :: done).reverse ∧
      run last (.operand (hole [])) ts = run last (.operator e (hole done)) rest
  | .arguments es, ts, rest =>
    (∀ name up, run last (.named name up) ts = run last (.operator (.call name es) up) rest) ∧
      ∀ key block,
        run last (.printOpen key block) ts = run last (.statement (block.add (.print key es))) rest
  | .binding d, ts, rest =>
    ∀ block, run last (.statement block) ts = run last (.bound d block) rest
  | .params ps, ts, rest =>
    ∀ name block,
      run last (.firstParam name block) ts = run last (.paramEnd name ps.reverse block) rest
  | .parameters ps, ts, rest =>
    ∀ name block, run last (.paramsOpen name block) ts = run last (.arrow name ps block) rest
  | .signature s, ts, rest =>
    ∀ block, (∀ t ∈ rest.head?, t.kind ≠ .punct .arrow) →
      run last (.funcName block) ts = run last (.funcOpen s block) rest
  | .statement n, ts, rest =>
    ∀ block, Ends rest → run last (.statement block) ts = run last (.statement (block.add n)) rest
  | .statements ns, ts, rest =>
    ∀ block : Block, Ends rest →
      run last (.statement block) ts = run last (.statement (block.addAll ns)) rest
  | .body ns, ts, rest =>
    (∀ key c block, run last (.operator c (.condition key block)) ts =
        run last (.statement (block.add (.cond key c ns))) rest) ∧
      ∀ s block,
        run last (.funcOpen s block) ts = run last (.statement (block.add (.func s ns))) rest

section

variable {last : Token}

theorem Ends.notTight {rest : List Token} (h : Ends rest) : NotTight rest := by
  intro t ht hgroup
  have := h t ht
  cases hk : t.kind with
  | operator o =>
      rw [hk] at this
      cases this
  | _ =>
      rw [hk] at hgroup
      cases hgroup

/-- A single token that goes on with no statement. -/
theorem ends_cons {t : Token} {rest : List Token} (h : continues t.kind = false) :
    Ends (t :: rest) := by
  intro t' ht'
  cases ht'
  exact h

theorem notTight_cons {t : Token} {rest : List Token} (h : t.kind.group ≠ .multiplicative) :
    NotTight (t :: rest) := by
  intro t' ht'
  cases ht'
  exact h

theorem ne_end_of_startsOperand {k : Token.Kind} (h : startsOperand k = true) :
    k ≠ .endOfFile := by
  rintro rfl
  cases h

theorem ne_end_of_operator {k : Token.Kind} (h : k.group ≠ .none) : k ≠ .endOfFile := by
  rintro rfl
  exact h rfl

theorem ne_end_of_typeName? {k : Token.Kind} {t : Ty} (h : k.typeName? = some t) :
    k ≠ .endOfFile := by
  rintro rfl
  cases h

theorem ne_end_of_mutable? {k : Token.Kind} {m : Bool} (h : mutable? k = some m) :
    k ≠ .endOfFile := by
  rintro rfl
  cases h

/-! ## Operators -/

/-- At a place for a sum an operator takes what has been read as its left operand. -/
theorem afterOperand_operator {t : Token} {e : Node} {up : Hole} (hlevel : up.level = .sum)
    (ht : t.kind.group ≠ .none) : afterOperand t e up = .ok (.operand (.binary e t up)) := by
  obtain ⟨o, ho⟩ : ∃ o, t.kind = .operator o := by
    cases hk : t.kind with
    | operator o => exact ⟨o, rfl⟩
    | _ =>
        rw [hk] at ht
        exact absurd rfl ht
  cases up with
  | binary left op up =>
      rw [Hole.level] at hlevel
      split at hlevel <;> cases hlevel
  | _ => simp only [afterOperand, ho]

/-- A multiplicative operator takes the operand before it, wherever that is not an operand of a
multiplicative operator itself. -/
theorem afterOperand_times {t : Token} {e : Node} {up : Hole} (hlevel : up.level ≠ .operand)
    (ht : t.kind.group = .multiplicative) :
    afterOperand t e up = .ok (.operand (.binary e t up)) := by
  cases hl : up.level with
  | operand => exact absurd hl hlevel
  | sum => exact afterOperand_operator hl (by simp [ht])
  | product =>
      cases up with
      | binary left op up =>
          have hop : op.kind.group = .additive := by
            rw [Hole.level] at hl
            split at hl
            · assumption
            · cases hl
          rw [afterOperand, if_pos ((precedence_lt_iff (by simp [hop])).2 ⟨hop, ht⟩)]
      | _ => cases hl

/-- The right operand is complete unless a tighter operator follows. -/
theorem run_reduce {op : Token} {l r : Node} {up : Hole} {rest : List Token}
    (h : ∀ t ∈ rest.head?, ¬op.kind.precedence < t.kind.precedence) :
    run last (.operator r (.binary l op up)) rest = run last (.operator (.binary l op r) up) rest := by
  refine run_congr (fun t ht => ?_) fun t => rfl
  simp only [step, afterOperand, if_neg (h t ht)]

/-! ## The ends of statements -/

theorem run_decl {d : Decl} {block : Block} {rest : List Token} (hd : d.type.isSome)
    (h : Ends rest) :
    run last (.bound d block) rest = run last (.statement (block.add (.decl d))) rest := by
  obtain ⟨t, ht⟩ := Option.isSome_iff_exists.1 hd
  simp only [State.bound, ht]
  refine run_congr (fun t ht => ?_) fun t => rfl
  have hends := h t ht
  simp only [step]
  split
  · rename_i hk
    rw [hk] at hends
    cases hends
  · rfl

theorem run_signature {s : Signature} {block : Block} {rest : List Token} (h : Ends rest) :
    run last (.funcOpen s block) rest = run last (.statement (block.add (.signature s))) rest := by
  refine run_congr (fun t ht => ?_) fun t => rfl
  have hends := h t ht
  simp only [step, afterSignature]
  split
  · rename_i hk
    rw [hk] at hends
    cases hends
  · rfl

/-- An expression at the end of a statement is complete. -/
theorem run_expr {e : Node} {rest : List Token} (h : Ends rest) :
    (∀ block, run last (.operator e (.alone block)) rest =
        run last (.statement (block.add e)) rest) ∧
      (∀ key block, run last (.operator e (.returned key block)) rest =
        run last (.statement (block.add (.ret key e))) rest) ∧
      ∀ d block, run last (.operator e (.bound d block)) rest =
        run last (.statement (block.add (.assign d e))) rest := by
  have hends : ∀ t ∈ rest.head?, ∀ o, t.kind ≠ .operator o := by
    intro t ht o hk
    have := h t ht
    rw [hk] at this
    cases this
  refine ⟨fun block => ?_, fun key block => ?_, fun d block => ?_⟩ <;>
  · refine run_congr (fun t ht => ?_) fun t => rfl
    simp only [step, afterOperand]
    split
    · exact absurd ‹_› (hends t ht _)
    · rfl

/-! ## Bodies -/

theorem Block.addAll_append (b : Block) (ns : List Node) (n : Node) :
    b.addAll (ns ++ [n]) = (b.addAll ns).add n := by
  simp [Block.addAll]

theorem Block.addAll_top (done ns : List Node) :
    (Block.top done).addAll ns = .top (ns.reverse ++ done) := by
  induction ns generalizing done with
  | nil => rfl
  | cons n ns ih =>
      rw [List.reverse_cons, List.append_assoc]
      exact ih (n :: done)

theorem Block.addAll_condBody (t : Token) (c : Node) (done ns : List Node) (outer : Block) :
    (Block.condBody t c done outer).addAll ns = .condBody t c (ns.reverse ++ done) outer := by
  induction ns generalizing done with
  | nil => rfl
  | cons n ns ih =>
      rw [List.reverse_cons, List.append_assoc]
      exact ih (n :: done)

theorem Block.addAll_funcBody (s : Signature) (done ns : List Node) (outer : Block) :
    (Block.funcBody s done outer).addAll ns = .funcBody s (ns.reverse ++ done) outer := by
  induction ns generalizing done with
  | nil => rfl
  | cons n ns ih =>
      rw [List.reverse_cons, List.append_assoc]
      exact ih (n :: done)

/-- A statement that starts with an operand is an expression. -/
theorem run_alone {block : Block} {t : Token} {rest : List Token}
    (ht : startsOperand t.kind = true) :
    run last (.statement block) (t :: rest) = run last (.operand (.alone block)) (t :: rest) := by
  refine run_head_congr (ne_end_of_startsOperand ht) ?_
  simp only [step, startStatement]
  split <;> simp_all [startsOperand]

theorem takesList_argument (name : Token) (up : Hole) : TakesList (.argument name · up) :=
  ⟨fun _ => rfl, fun _ _ _ ht => by simp only [afterOperand, ht]⟩

theorem takesList_printed (key : Token) (block : Block) : TakesList (.printed key · block) :=
  ⟨fun _ => rfl, fun _ _ _ ht => by simp only [afterOperand, ht]⟩

theorem startStatement_of_mutable? {block : Block} {t : Token} {m : Bool}
    (h : mutable? t.kind = some m) : startStatement block t = .ok (.bindName m block) := by
  cases hk : t.kind with
  | keyword k =>
      rw [hk] at h
      cases k <;> cases h <;> simp only [startStatement, hk]
  | _ =>
      rw [hk] at h
      cases h

/-! ## One rule at a time -/

section

variable {ts mid rest : List Token}

theorem accepted_ref {name : Token} (hname : name.kind = .identifier) (hrest : NotCalled rest) :
    Accepted last (.expr .operand (.ref name)) (name :: rest) rest := by
  intro up
  calc run last (.operand up) (name :: rest)
    _ = run last (.named name up) rest :=
      run_step (by simp [hname]) (by simp only [step, startOperand, hname])
    _ = run last (.operator (.ref name) up) rest := by
      refine run_congr (fun t ht => ?_) fun t => rfl
      have hopen := hrest t ht
      simp only [step]

theorem accepted_paren {l r : Token} {e : Node} (hl : l.kind = .punct .leftParen)
    (he : Accepted last (.expr .sum e) ts (r :: rest)) (hr : r.kind = .punct .rightParen) :
    Accepted last (.expr .operand e) (l :: ts) rest := by
  intro up
  calc run last (.operand up) (l :: ts)
    _ = run last (.operand (.paren up)) ts :=
      run_step (by simp [hl]) (by simp only [step, startOperand, hl])
    _ = run last (.operator e (.paren up)) (r :: rest) :=
      he _ rfl (notTight_cons (by simp [hr, Token.Kind.group]))
    _ = run last (.operator e up) rest :=
      run_step (by simp [hr]) (by simp only [step, afterOperand, hr])

theorem accepted_call {name : Token} {es : List Node} (hname : name.kind = .identifier)
    (hes : Accepted last (.arguments es) ts rest) :
    Accepted last (.expr .operand (.call name es)) (name :: ts) rest := by
  intro up
  calc run last (.operand up) (name :: ts)
    _ = run last (.named name up) ts :=
      run_step (by simp [hname]) (by simp only [step, startOperand, hname])
    _ = run last (.operator (.call name es) up) rest := hes.1 name up

theorem accepted_times {op : Token} {l r : Node}
    (hl : Accepted last (.expr .product l) ts (op :: mid))
    (hop : op.kind.group = .multiplicative) (hr : Accepted last (.expr .operand r) mid rest) :
    Accepted last (.expr .product (.binary l op r)) ts rest := by
  intro up hlevel
  calc run last (.operand up) ts
    _ = run last (.operator l up) (op :: mid) := hl up hlevel
    _ = run last (.operand (.binary l op up)) mid :=
      run_step (ne_end_of_operator (by simp [hop])) (afterOperand_times hlevel hop)
    _ = run last (.operator r (.binary l op up)) rest := hr _
    _ = run last (.operator (.binary l op r) up) rest := by
      refine run_reduce fun t _ hlt => ?_
      have hadd := ((precedence_lt_iff (by simp [hop])).1 hlt).1
      rw [hop] at hadd
      cases hadd

theorem accepted_plus {op : Token} {l r : Node}
    (hl : Accepted last (.expr .sum l) ts (op :: mid)) (hop : op.kind.group = .additive)
    (hr : Accepted last (.expr .product r) mid rest) :
    Accepted last (.expr .sum (.binary l op r)) ts rest := by
  intro up hlevel htight
  calc run last (.operand up) ts
    _ = run last (.operator l up) (op :: mid) :=
      hl up hlevel (notTight_cons (by simp [hop]))
    _ = run last (.operand (.binary l op up)) mid :=
      run_step (ne_end_of_operator (by simp [hop])) (afterOperand_operator hlevel (by simp [hop]))
    _ = run last (.operator r (.binary l op up)) rest := hr _ (by simp [Hole.level, hop])
    _ = run last (.operator (.binary l op r) up) rest :=
      run_reduce fun t ht hlt => htight t ht ((precedence_lt_iff (by simp [hop])).1 hlt).2

theorem accepted_more {comma : Token} {es : List Node} {e : Node}
    (hes : Accepted last (.list es) ts (comma :: mid)) (hcomma : comma.kind = .punct .comma)
    (he : Accepted last (.expr .sum e) mid rest) : Accepted last (.list (es ++ [e])) ts rest := by
  intro hole hhole htight
  obtain ⟨e', done, rfl, hrun⟩ :=
    hes hole hhole (notTight_cons (by simp [hcomma, Token.Kind.group]))
  refine ⟨e, e' :: done, by simp, ?_⟩
  calc run last (.operand (hole [])) ts
    _ = run last (.operator e' (hole done)) (comma :: mid) := hrun
    _ = run last (.operand (hole (e' :: done))) mid :=
      run_step (by simp [hcomma]) (hhole.comma done e' comma hcomma)
    _ = run last (.operator e (hole (e' :: done))) rest := he _ (hhole.level _) htight

theorem accepted_noArguments {l r : Token} (hl : l.kind = .punct .leftParen)
    (hr : r.kind = .punct .rightParen) :
    Accepted last (.arguments []) (l :: r :: rest) rest := by
  refine ⟨fun name up => ?_, fun key block => ?_⟩
  · calc run last (.named name up) (l :: r :: rest)
      _ = run last (.firstArgument name up) (r :: rest) :=
        run_step (by simp [hl]) (by simp only [step, hl])
      _ = run last (.operator (.call name []) up) rest :=
        run_step (by simp [hr]) (by simp only [step, hr])
  · calc run last (.printOpen key block) (l :: r :: rest)
      _ = run last (.firstPrinted key block) (r :: rest) :=
        run_step (by simp [hl]) (by simp only [step, hl])
      _ = run last (.statement (block.add (.print key []))) rest :=
        run_step (by simp [hr]) (by simp only [step, hr])

/-- A first argument is told from the end of the arguments by its first token. -/
theorem accepted_arguments {l r t : Token} {es : List Node} (hl : l.kind = .punct .leftParen)
    (ht : startsOperand t.kind = true) (hes : Accepted last (.list es) (t :: ts) (r :: rest))
    (hr : r.kind = .punct .rightParen) : Accepted last (.arguments es) (l :: t :: ts) rest := by
  have htight : NotTight (r :: rest) := notTight_cons (by simp [hr, Token.Kind.group])
  have hopen : t.kind ≠ .punct .rightParen := by
    intro hk
    rw [hk] at ht
    cases ht
  refine ⟨fun name up => ?_, fun key block => ?_⟩
  · obtain ⟨e, done, rfl, hrun⟩ := hes _ (takesList_argument name up) htight
    calc run last (.named name up) (l :: t :: ts)
      _ = run last (.firstArgument name up) (t :: ts) :=
        run_step (by simp [hl]) (by simp only [step, hl])
      _ = run last (.operand (.argument name [] up)) (t :: ts) :=
        run_head_congr (ne_end_of_startsOperand ht) (by simp only [step])
      _ = run last (.operator e (.argument name done up)) (r :: rest) := hrun
      _ = run last (.operator (.call name (e :: done).reverse) up) rest :=
        run_step (by simp [hr]) (by simp only [step, afterOperand, hr])
  · obtain ⟨e, done, rfl, hrun⟩ := hes _ (takesList_printed key block) htight
    calc run last (.printOpen key block) (l :: t :: ts)
      _ = run last (.firstPrinted key block) (t :: ts) :=
        run_step (by simp [hl]) (by simp only [step, hl])
      _ = run last (.operand (.printed key [] block)) (t :: ts) :=
        run_head_congr (ne_end_of_startsOperand ht) (by simp only [step])
      _ = run last (.operator e (.printed key done block)) (r :: rest) := hrun
      _ = run last (.statement (block.add (.print key (e :: done).reverse))) rest :=
        run_step (by simp [hr]) (by simp only [step, afterOperand, hr])

/-- A parameter after its name. -/
theorem run_param {param colon type : Token} {t : Ty} (hcolon : colon.kind = .punct .colon)
    (htype : type.kind.typeName? = some t) (name : Token) (done : List Decl) (block : Block) :
    run last (.paramColon name done param block) (colon :: type :: rest) =
      run last (.paramEnd name (⟨false, param, some t⟩ :: done) block) rest := by
  calc run last (.paramColon name done param block) (colon :: type :: rest)
    _ = run last (.paramType name done param block) (type :: rest) :=
      run_step (by simp [hcolon]) (by simp only [step, hcolon])
    _ = run last (.paramEnd name (⟨false, param, some t⟩ :: done) block) rest :=
      run_step (ne_end_of_typeName? htype) (by simp only [step, htype])

theorem accepted_param {param colon type : Token} {t : Ty} (hparam : param.kind = .identifier)
    (hcolon : colon.kind = .punct .colon) (htype : type.kind.typeName? = some t) :
    Accepted last (.params [⟨false, param, some t⟩]) (param :: colon :: type :: rest) rest := by
  intro name block
  calc run last (.firstParam name block) (param :: colon :: type :: rest)
    _ = run last (.paramColon name [] param block) (colon :: type :: rest) :=
      run_step (by simp [hparam]) (by simp only [step, hparam])
    _ = run last (.paramEnd name [⟨false, param, some t⟩] block) rest :=
      run_param hcolon htype name [] block

theorem accepted_nextParam {comma param colon type : Token} {ps : List Decl} {t : Ty}
    (hps : Accepted last (.params ps) ts (comma :: param :: colon :: type :: rest))
    (hcomma : comma.kind = .punct .comma) (hparam : param.kind = .identifier)
    (hcolon : colon.kind = .punct .colon) (htype : type.kind.typeName? = some t) :
    Accepted last (.params (ps ++ [⟨false, param, some t⟩])) ts rest := by
  intro name block
  rw [List.reverse_append]
  calc run last (.firstParam name block) ts
    _ = run last (.paramEnd name ps.reverse block) (comma :: param :: colon :: type :: rest) :=
      hps name block
    _ = run last (.nextParam name ps.reverse block) (param :: colon :: type :: rest) :=
      run_step (by simp [hcomma]) (by simp only [step, hcomma])
    _ = run last (.paramColon name ps.reverse param block) (colon :: type :: rest) :=
      run_step (by simp [hparam]) (by simp only [step, hparam])
    _ = run last (.paramEnd name (⟨false, param, some t⟩ :: ps.reverse) block) rest :=
      run_param hcolon htype name ps.reverse block

theorem accepted_noParameters {l r : Token} (hl : l.kind = .punct .leftParen)
    (hr : r.kind = .punct .rightParen) :
    Accepted last (.parameters []) (l :: r :: rest) rest := by
  intro name block
  calc run last (.paramsOpen name block) (l :: r :: rest)
    _ = run last (.firstParam name block) (r :: rest) :=
      run_step (by simp [hl]) (by simp only [step, hl])
    _ = run last (.arrow name [] block) rest :=
      run_step (by simp [hr]) (by simp only [step, hr])

theorem accepted_parameters {l r : Token} {ps : List Decl} (hl : l.kind = .punct .leftParen)
    (hps : Accepted last (.params ps) ts (r :: rest)) (hr : r.kind = .punct .rightParen) :
    Accepted last (.parameters ps) (l :: ts) rest := by
  intro name block
  calc run last (.paramsOpen name block) (l :: ts)
    _ = run last (.firstParam name block) ts :=
      run_step (by simp [hl]) (by simp only [step, hl])
    _ = run last (.paramEnd name ps.reverse block) (r :: rest) := hps name block
    _ = run last (.arrow name ps block) rest :=
      run_step (by simp [hr]) (by simp only [step, hr, List.reverse_reverse])

theorem accepted_void {name : Token} {ps : List Decl} (hname : name.kind = .identifier)
    (hps : Accepted last (.parameters ps) ts rest) :
    Accepted last (.signature ⟨name, ps, some .void⟩) (name :: ts) rest := by
  intro block hrest
  calc run last (.funcName block) (name :: ts)
    _ = run last (.paramsOpen name block) ts :=
      run_step (by simp [hname]) (by simp only [step, hname])
    _ = run last (.arrow name ps block) rest := hps name block
    _ = run last (.funcOpen ⟨name, ps, some .void⟩ block) rest := by
      refine run_congr (fun t ht => ?_) fun t => rfl
      have harrow := hrest t ht
      simp only [step]

theorem accepted_returning {name arrow type : Token} {ps : List Decl} {t : Ty}
    (hname : name.kind = .identifier)
    (hps : Accepted last (.parameters ps) ts (arrow :: type :: rest))
    (harrow : arrow.kind = .punct .arrow) (htype : type.kind.typeName? = some t) :
    Accepted last (.signature ⟨name, ps, some t⟩) (name :: ts) rest := by
  intro block _
  calc run last (.funcName block) (name :: ts)
    _ = run last (.paramsOpen name block) ts :=
      run_step (by simp [hname]) (by simp only [step, hname])
    _ = run last (.arrow name ps block) (arrow :: type :: rest) := hps name block
    _ = run last (.returnType name ps block) (type :: rest) :=
      run_step (by simp [harrow]) (by simp only [step, harrow])
    _ = run last (.funcOpen ⟨name, ps, some t⟩ block) rest :=
      run_step (ne_end_of_typeName? htype) (by simp only [step, htype])

theorem accepted_inferred {key name : Token} {m : Bool} (hkey : mutable? key.kind = some m)
    (hname : name.kind = .identifier) :
    Accepted last (.binding ⟨m, name, none⟩) (key :: name :: rest) rest := by
  intro block
  calc run last (.statement block) (key :: name :: rest)
    _ = run last (.bindName m block) (name :: rest) :=
      run_step (ne_end_of_mutable? hkey) (startStatement_of_mutable? hkey)
    _ = run last (.bindColon m name block) rest :=
      run_step (by simp [hname]) (by simp only [step, hname])

theorem accepted_annotated {key name colon type : Token} {m : Bool} {t : Ty}
    (hkey : mutable? key.kind = some m) (hname : name.kind = .identifier)
    (hcolon : colon.kind = .punct .colon) (htype : type.kind.typeName? = some t) :
    Accepted last (.binding ⟨m, name, some t⟩) (key :: name :: colon :: type :: rest) rest := by
  intro block
  calc run last (.statement block) (key :: name :: colon :: type :: rest)
    _ = run last (.bindColon m name block) (colon :: type :: rest) :=
      accepted_inferred hkey hname block
    _ = run last (.bindType m name block) (type :: rest) :=
      run_step (by simp [hcolon]) (by simp only [step, hcolon])
    _ = run last (.bindEqual ⟨m, name, some t⟩ block) rest :=
      run_step (ne_end_of_typeName? htype) (by simp only [step, htype])

theorem accepted_alone {t : Token} {e : Node} (ht : startsOperand t.kind = true)
    (he : Accepted last (.expr .sum e) (t :: ts) rest) :
    Accepted last (.statement e) (t :: ts) rest := by
  intro block hends
  calc run last (.statement block) (t :: ts)
    _ = run last (.operand (.alone block)) (t :: ts) := run_alone ht
    _ = run last (.operator e (.alone block)) rest := he _ rfl hends.notTight
    _ = run last (.statement (block.add e)) rest := (run_expr hends).1 block

theorem accepted_assign {equal : Token} {d : Decl} {v : Node}
    (hd : Accepted last (.binding d) ts (equal :: mid)) (hequal : equal.kind = .punct .equal)
    (hv : Accepted last (.expr .sum v) mid rest) :
    Accepted last (.statement (.assign d v)) ts rest := by
  intro block hends
  calc run last (.statement block) ts
    _ = run last (.bound d block) (equal :: mid) := hd block
    _ = run last (.operand (.bound d block)) mid := by
      obtain ⟨m, name, type⟩ := d
      cases type <;> exact run_step (by simp [hequal]) (by simp only [State.bound, step, hequal])
    _ = run last (.operator v (.bound d block)) rest := hv _ rfl hends.notTight
    _ = run last (.statement (block.add (.assign d v))) rest := (run_expr hends).2.2 d block

theorem accepted_ret {key : Token} {v : Node} (hkey : key.kind = .keyword .returning)
    (hv : Accepted last (.expr .sum v) ts rest) :
    Accepted last (.statement (.ret key v)) (key :: ts) rest := by
  intro block hends
  calc run last (.statement block) (key :: ts)
    _ = run last (.operand (.returned key block)) ts :=
      run_step (by simp [hkey]) (by simp only [step, startStatement, hkey])
    _ = run last (.operator v (.returned key block)) rest := hv _ rfl hends.notTight
    _ = run last (.statement (block.add (.ret key v))) rest := (run_expr hends).2.1 key block

theorem accepted_print {key : Token} {es : List Node} (hkey : key.kind = .keyword .printing)
    (hes : Accepted last (.arguments es) ts rest) :
    Accepted last (.statement (.print key es)) (key :: ts) rest := by
  intro block _
  calc run last (.statement block) (key :: ts)
    _ = run last (.printOpen key block) ts :=
      run_step (by simp [hkey]) (by simp only [step, startStatement, hkey])
    _ = run last (.statement (block.add (.print key es))) rest := hes.2 key block

/-- A body starts with a brace, which goes on with no expression and no parameters. -/
theorem body_starts {ns : List Node} (h : Derives (.body ns) ts rest) :
    NotTight ts ∧ ∀ t ∈ ts.head?, t.kind ≠ .punct .arrow := by
  cases h with
  | body hl =>
      refine ⟨notTight_cons (by simp [hl, Token.Kind.group]), fun t ht => ?_⟩
      cases ht
      simp [hl]

theorem accepted_cond {key : Token} {c : Node} {ns : List Node}
    (hkey : key.kind = .keyword .ifBranch) (hc : Accepted last (.expr .sum c) ts mid)
    (hmid : NotTight mid) (hns : Accepted last (.body ns) mid rest) :
    Accepted last (.statement (.cond key c ns)) (key :: ts) rest := by
  intro block _
  calc run last (.statement block) (key :: ts)
    _ = run last (.operand (.condition key block)) ts :=
      run_step (by simp [hkey]) (by simp only [step, startStatement, hkey])
    _ = run last (.operator c (.condition key block)) mid := hc _ rfl hmid
    _ = run last (.statement (block.add (.cond key c ns))) rest := hns.1 key c block

theorem accepted_signature {key : Token} {s : Signature} (hkey : key.kind = .keyword .func)
    (hs : Accepted last (.signature s) ts rest) :
    Accepted last (.statement (.signature s)) (key :: ts) rest := by
  intro block hends
  have harrow : ∀ t ∈ rest.head?, t.kind ≠ .punct .arrow := by
    intro t ht hk
    have hcontinues := hends t ht
    rw [hk] at hcontinues
    cases hcontinues
  calc run last (.statement block) (key :: ts)
    _ = run last (.funcName block) ts :=
      run_step (by simp [hkey]) (by simp only [step, startStatement, hkey])
    _ = run last (.funcOpen s block) rest := hs block harrow
    _ = run last (.statement (block.add (.signature s))) rest := run_signature hends

theorem accepted_func {key : Token} {s : Signature} {ns : List Node}
    (hkey : key.kind = .keyword .func) (hs : Accepted last (.signature s) ts mid)
    (hmid : ∀ t ∈ mid.head?, t.kind ≠ .punct .arrow) (hns : Accepted last (.body ns) mid rest) :
    Accepted last (.statement (.func s ns)) (key :: ts) rest := by
  intro block _
  calc run last (.statement block) (key :: ts)
    _ = run last (.funcName block) ts :=
      run_step (by simp [hkey]) (by simp only [step, startStatement, hkey])
    _ = run last (.funcOpen s block) mid := hs block hmid
    _ = run last (.statement (block.add (.func s ns))) rest := hns.2 s block

theorem accepted_semicolon {t : Token} {ns : List Node}
    (hns : Accepted last (.statements ns) ts (t :: rest)) (ht : t.kind = .punct .semicolon) :
    Accepted last (.statements ns) ts rest := by
  intro block _
  calc run last (.statement block) ts
    _ = run last (.statement (block.addAll ns)) (t :: rest) :=
      hns block (ends_cons (by rw [ht]; rfl))
    _ = run last (.statement (block.addAll ns)) rest :=
      run_step (by simp [ht]) (by simp only [step, startStatement, ht])

theorem accepted_body {l r : Token} {ns : List Node} (hl : l.kind = .punct .leftBrace)
    (hns : Accepted last (.statements ns) ts (r :: rest)) (hr : r.kind = .punct .rightBrace) :
    Accepted last (.body ns) (l :: ts) rest := by
  have hends : Ends (r :: rest) := ends_cons (by rw [hr]; rfl)
  refine ⟨fun key c block => ?_, fun s block => ?_⟩
  · calc run last (.operator c (.condition key block)) (l :: ts)
      _ = run last (.statement (.condBody key c [] block)) ts :=
        run_step (by simp [hl]) (by simp only [step, afterOperand, hl])
      _ = run last (.statement (.condBody key c ns.reverse block)) (r :: rest) := by
        rw [hns _ hends, Block.addAll_condBody, List.append_nil]
      _ = run last (.statement (block.add (.cond key c ns))) rest :=
        run_step (by simp [hr])
          (by simp only [step, startStatement, hr, Block.close?, List.reverse_reverse])
  · calc run last (.funcOpen s block) (l :: ts)
      _ = run last (.statement (.funcBody s [] block)) ts :=
        run_step (by simp [hl]) (by simp only [step, afterSignature, hl])
      _ = run last (.statement (.funcBody s ns.reverse block)) (r :: rest) := by
        rw [hns _ hends, Block.addAll_funcBody, List.append_nil]
      _ = run last (.statement (block.add (.func s ns))) rest :=
        run_step (by simp [hr])
          (by simp only [step, startStatement, hr, Block.close?, List.reverse_reverse])

end

/-! ## Every phrase -/

/-- **Every phrase that is derived is accepted.** -/
theorem accepted_of_derives {p : Phrase} {ts rest : List Token} (h : Derives p ts rest) :
    Accepted last p ts rest := by
  induction h with
  | int ht hv | float ht hv =>
      exact fun up => run_step (by simp [ht]) (by simp only [step, startOperand, ht, hv])
  | bool ht | string ht =>
      exact fun up => run_step (by simp [ht]) (by simp only [step, startOperand, ht])
  | ref hname hrest => exact accepted_ref hname hrest
  | paren hl _ hr ih => exact accepted_paren hl ih hr
  | call hname _ ih => exact accepted_call hname ih
  | product _ ih => exact fun up _ => ih up
  | times _ hop _ ihl ihr => exact accepted_times ihl hop ihr
  | sum _ ih => exact fun up hlevel _ => ih up (by simp [hlevel])
  | plus _ hop _ ihl ihr => exact accepted_plus ihl hop ihr
  | one _ ih => exact fun hole hhole htight => ⟨_, [], rfl, ih _ (hhole.level []) htight⟩
  | more _ hcomma _ ihs ih => exact accepted_more ihs hcomma ih
  | noArguments hl hr => exact accepted_noArguments hl hr
  | arguments hl hes hr ih =>
      obtain ⟨t, us, rfl, ht⟩ := hes.starts
      exact accepted_arguments hl ht ih hr
  | param hparam hcolon htype => exact accepted_param hparam hcolon htype
  | nextParam _ hcomma hparam hcolon htype ih =>
      exact accepted_nextParam ih hcomma hparam hcolon htype
  | noParameters hl hr => exact accepted_noParameters hl hr
  | parameters hl _ hr ih => exact accepted_parameters hl ih hr
  | void hname _ ih => exact accepted_void hname ih
  | returning hname _ harrow htype ih => exact accepted_returning hname ih harrow htype
  | inferred hkey hname => exact accepted_inferred hkey hname
  | annotated hkey hname hcolon htype => exact accepted_annotated hkey hname hcolon htype
  | alone he ih =>
      obtain ⟨t, us, rfl, ht⟩ := he.starts
      exact accepted_alone ht ih
  | decl _ htype ih => exact fun block hends => (ih block).trans (run_decl htype hends)
  | assign _ hequal _ ihd ihv => exact accepted_assign ihd hequal ihv
  | ret hkey _ ih => exact accepted_ret hkey ih
  | print hkey _ ih => exact accepted_print hkey ih
  | cond hkey _ hns ihc ihb => exact accepted_cond hkey ihc (body_starts hns).1 ihb
  | signature hkey _ ih => exact accepted_signature hkey ih
  | func hkey _ hns ihs ihb => exact accepted_func hkey ihs (body_starts hns).2 ihb
  | nil => exact fun block _ => rfl
  | semicolon _ ht ih => exact accepted_semicolon ih ht
  | next _ hn ihs ih =>
      intro block hends
      obtain ⟨t, us, rfl, ht⟩ := hn.starts
      rw [Block.addAll_append]
      exact (ihs block (ends_cons ht)).trans (ih _ hends)
  | body hl _ hr ih => exact accepted_body hl ih hr

/-- A derived program is what a run returns. -/
theorem run_of_program {us : List Token} {ns : List Node} (h : Program us ns) :
    run last (.statement (.top [])) us = .ok ns := by
  have haccepted : Accepted last (.statements ns) us [] := accepted_of_derives h
  rw [haccepted (.top []) (by simp [Ends]), Block.addAll_top, List.append_nil, run, finish,
    Block.finish, List.reverse_reverse]

/-! ## The end of the tokens -/

/-- A program ends alike at every end-of-file token. -/
theorem Block.finish_eq_ok {b : Block} {t : Token} {ns : List Node} (h : b.finish t = .ok ns)
    (t' : Token) : b.finish t' = .ok ns := by
  cases b with
  | top done => exact h
  | condBody | funcBody => cases h

theorem Hole.finish_eq_ok {t : Token} {ns : List Node} (t' : Token) :
    ∀ {e : Node} {up : Hole}, up.finish t e = .ok ns → up.finish t' e = .ok ns
  | e, .binary left op up, h =>
    have hup : up.finish t (.binary left op e) = .ok ns := h
    show up.finish t' (.binary left op e) = .ok ns from Hole.finish_eq_ok t' hup
  | e, .returned .., h | e, .bound .., h | e, .alone _, h => Block.finish_eq_ok h t'
  | e, .condition .., h | e, .paren _, h | e, .argument .., h | e, .printed .., h => by cases h

theorem finish_eq_ok {σ : State} {t : Token} {ns : List Node} (h : finish σ t = .ok ns)
    (t' : Token) : finish σ t' = .ok ns := by
  cases σ with
  | statement | bindEqual | arrow | funcOpen => exact Block.finish_eq_ok h t'
  | named | operator => exact Hole.finish_eq_ok t' h
  | _ => cases h

/-- A run reads the tokens up to the first end-of-file token. -/
theorem run_eq_ok_iff {ts : List Token} {σ : State} {ns : List Node} :
    run last σ ts = .ok ns ↔ run last σ (ts.takeWhile (·.kind ≠ .endOfFile)) = .ok ns := by
  induction ts generalizing σ with
  | nil => exact Iff.rfl
  | cons t ts ih =>
      by_cases ht : t.kind = .endOfFile
      · rw [run, if_pos ht, List.takeWhile_cons_of_neg (by simp [ht]), run]
        exact ⟨fun h => finish_eq_ok h _, fun h => finish_eq_ok h _⟩
      · rw [run, if_neg ht, List.takeWhile_cons_of_pos (by simp [ht]), run, if_neg ht]
        cases step σ t with
        | error e => simp
        | ok next => exact ih

end

/-- What is parsed is derived. -/
theorem program_of_parse {ts : List Token} {ns : List Node} (h : parse ts = .ok ns) :
    Program (ts.takeWhile (·.kind ≠ .endOfFile)) ns := by
  rw [parse, run_eq_ok_iff] at h
  refine derives_of_run (fun t ht => ?_) (show (State.statement (.top [])).Read _ _ from .nil) h
  simpa using List.all_eq_true.1 List.all_takeWhile t ht

/-- What is derived is parsed. -/
theorem parse_of_program {ts : List Token} {ns : List Node}
    (h : Program (ts.takeWhile (·.kind ≠ .endOfFile)) ns) : parse ts = .ok ns := by
  rw [parse, run_eq_ok_iff]
  exact run_of_program h

/-- **The parser accepts exactly what the grammar derives**, and returns the tree that it derives. The
tokens from the first end-of-file token on do not count. -/
theorem parse_eq_ok_iff {ts : List Token} {ns : List Node} :
    parse ts = .ok ns ↔ Program (ts.takeWhile (·.kind ≠ .endOfFile)) ns :=
  ⟨program_of_parse, parse_of_program⟩

end Parsing

end Swiftlet
