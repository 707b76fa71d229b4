import Swiftlet.Proofs.Parsing.Acceptance
import Swiftlet.Proofs.Parsing.Shape

/-!
# Where parsing fails

The parser refuses the first token with which the tokens read are no longer the start of a program,
and it asks for tokens with which they are.

* `Viable ts` — some program starts with the tokens `ts`.
* `State.completion` — tokens that make a program of what has been read, whatever that is: they close
  what is open and nothing else. So every state is on the way to a program.
* `Error.Wants e t` — the token `t` is what the error `e` asks for.
* `Asks f t e` — the error `e` is about the token `t`, and whatever it asks for is taken by `f`.
* `Reaches σ ts σ'` and `Refuses σ t e` — the tokens `ts` take the parser from `σ` to `σ'`; there it
  fails at the token `t`.

Principal results: `run_completion`, `step_asks` and `finish_asks`; `parse_error` puts them together.
-/

namespace Swiftlet

namespace Parsing

open Grammar

/-! ## The way to a program -/

/-- The end of the bodies that are open. -/
def Block.completion : Block → List Token
  | .top _ => []
  | .condBody _ _ _ outer | .funcBody _ _ outer => fixed (.punct .rightBrace) :: outer.completion

/-- The end of the expression and the statement around an operand that has been read. -/
def Hole.completion : Hole → List Token
  | .binary _ _ up => up.completion
  | .paren up | .argument _ _ up => fixed (.punct .rightParen) :: up.completion
  | .printed _ _ block => fixed (.punct .rightParen) :: block.completion
  | .returned _ block | .bound _ block | .alone block => block.completion
  | .condition _ block =>
    fixed (.punct .leftBrace) :: fixed (.punct .rightBrace) :: block.completion

/-- Tokens with which a program ends. -/
def State.completion : State → List Token
  | .statement block | .bindEqual _ block | .arrow _ _ block | .funcOpen _ block => block.completion
  | .operand up => fixed (.bool true) :: up.completion
  | .named _ up | .operator _ up => up.completion
  | .firstArgument _ up => fixed (.punct .rightParen) :: up.completion
  | .printOpen _ block | .paramsOpen _ block =>
    fixed (.punct .leftParen) :: fixed (.punct .rightParen) :: block.completion
  | .firstPrinted _ block | .firstParam _ block | .paramEnd _ _ block =>
    fixed (.punct .rightParen) :: block.completion
  | .bindName _ block =>
    Parsing.named "x" :: fixed (.punct .colon) :: fixed (.keyword (.type .int)) :: block.completion
  | .bindColon _ _ block =>
    fixed (.punct .colon) :: fixed (.keyword (.type .int)) :: block.completion
  | .bindType _ _ block | .returnType _ _ block =>
    fixed (.keyword (.type .int)) :: block.completion
  | .funcName block =>
    Parsing.named "f" :: fixed (.punct .leftParen) :: fixed (.punct .rightParen) :: block.completion
  | .nextParam _ _ block =>
    Parsing.named "x" :: fixed (.punct .colon) :: fixed (.keyword (.type .int)) ::
      fixed (.punct .rightParen) :: block.completion
  | .paramColon _ _ _ block =>
    fixed (.punct .colon) :: fixed (.keyword (.type .int)) :: fixed (.punct .rightParen) ::
      block.completion
  | .paramType _ _ _ block =>
    fixed (.keyword (.type .int)) :: fixed (.punct .rightParen) :: block.completion

section

variable {last : Token}

theorem Block.head_completion (block : Block) :
    ∀ t ∈ block.completion.head?, t.kind = .punct .rightBrace := by
  cases block with
  | top done => simp [Block.completion]
  | condBody | funcBody =>
      rintro t ⟨⟩
      rfl

theorem Block.ends_completion (block : Block) : Ends block.completion := by
  intro t ht
  rw [block.head_completion t ht]
  rfl

/-- Nothing in the way up from an operand starts with an operator or goes on with a name. -/
theorem Hole.head_completion (up : Hole) :
    ∀ t ∈ up.completion.head?, (∀ o, t.kind ≠ .operator o) ∧ t.kind ≠ .punct .leftParen := by
  have hblock : ∀ block : Block, ∀ t ∈ block.completion.head?,
      (∀ o, t.kind ≠ .operator o) ∧ t.kind ≠ .punct .leftParen := by
    intro block t ht
    rw [block.head_completion t ht]
    exact ⟨nofun, nofun⟩
  induction up with
  | binary left op up ih => exact ih
  | returned token block | bound d block | alone block => exact hblock block
  | paren | argument | printed | condition =>
      rintro t ⟨⟩
      exact ⟨nofun, nofun⟩

/-- Bodies are closed from the inside out. What the innermost one holds does not matter. -/
theorem run_block (block : Block) (ns : List Node) :
    ∃ program, run last (.statement (block.addAll ns)) block.completion = .ok program := by
  induction block generalizing ns with
  | top done =>
      rw [Block.addAll_top]
      exact ⟨_, rfl⟩
  | condBody t c done outer ih =>
      rw [Block.addAll_condBody]
      exact ih [.cond t c (ns.reverse ++ done).reverse]
  | funcBody s done outer ih =>
      rw [Block.addAll_funcBody]
      exact ih [.func s (ns.reverse ++ done).reverse]

/-- An operand is completed by what is open around it. -/
theorem run_hole (up : Hole) (e : Node) :
    ∃ program, run last (.operator e up) up.completion = .ok program := by
  induction up generalizing e with
  | binary left op up ih =>
      rw [Hole.completion, run_reduce]
      · exact ih (.binary left op e)
      · intro t ht hlt
        obtain ⟨o, ho⟩ : ∃ o, t.kind = .operator o := by
          cases hk : t.kind with
          | operator o => exact ⟨o, rfl⟩
          | _ =>
              -- Whatever is not an operator lies below every operator.
              rw [hk] at hlt
              cases hop : op.kind <;> simp [hop, Token.Kind.precedence] at hlt
              omega
        exact (up.head_completion t ht).1 o ho
  | paren up ih => exact ih e
  | argument name done up ih => exact ih (.call name (e :: done).reverse)
  | printed token done block => exact run_block block [.print token (e :: done).reverse]
  | returned token block =>
      rw [Hole.completion, (run_expr block.ends_completion).2.1]
      exact run_block block [.ret token e]
  | bound d block =>
      rw [Hole.completion, (run_expr block.ends_completion).2.2]
      exact run_block block [.assign d e]
  | condition token block => exact run_block block [.cond token e []]
  | alone block =>
      rw [Hole.completion, (run_expr block.ends_completion).1]
      exact run_block block [e]

/-- A declaration is complete unless a value follows. -/
theorem run_bindEqual (d : Decl) (block : Block) :
    ∃ program, run last (.bindEqual d block) block.completion = .ok program := by
  have hsame : run last (.bindEqual d block) block.completion =
      run last (.statement (block.add (.decl d))) block.completion := by
    refine run_congr (fun t ht => ?_) fun t => rfl
    simp only [step, block.head_completion t ht]
  rw [hsame]
  exact run_block block [.decl d]

/-- A signature is complete unless a body follows. -/
theorem run_funcOpen (s : Signature) (block : Block) :
    ∃ program, run last (.funcOpen s block) block.completion = .ok program := by
  rw [run_signature block.ends_completion]
  exact run_block block [.signature s]

theorem run_arrow (name : Token) (params : List Decl) (block : Block) :
    ∃ program, run last (.arrow name params block) block.completion = .ok program := by
  have hsame : run last (.arrow name params block) block.completion =
      run last (.funcOpen ⟨name, params, some .void⟩ block) block.completion := by
    refine run_congr (fun t ht => ?_) fun t => rfl
    simp only [step, block.head_completion t ht]
  rw [hsame]
  exact run_funcOpen _ block

/-- **Every state of the parser is on the way to a program.** -/
theorem run_completion (σ : State) : ∃ program, run last σ σ.completion = .ok program := by
  cases σ with
  | statement block => exact run_block block []
  | operand up => exact run_hole up (.bool (fixed (.bool true)) true)
  | named name up =>
      have hsame : run last (.named name up) up.completion =
          run last (.operator (.ref name) up) up.completion := by
        refine run_congr (fun t ht => ?_) fun t => rfl
        have hopen := (up.head_completion t ht).2
        simp only [step]
      rw [State.completion, hsame]
      exact run_hole up (.ref name)
  | operator e up => exact run_hole up e
  | firstArgument name up => exact run_hole up (.call name [])
  | printOpen token block | firstPrinted token block => exact run_block block [.print token []]
  | bindName mutable block => exact run_bindEqual ⟨mutable, named "x", some .int⟩ block
  | bindColon mutable name block | bindType mutable name block =>
      exact run_bindEqual ⟨mutable, name, some .int⟩ block
  | bindEqual d block => exact run_bindEqual d block
  | funcName block => exact run_arrow (named "f") [] block
  | paramsOpen name block | firstParam name block => exact run_arrow name [] block
  | nextParam name done block =>
      exact run_arrow name (⟨false, named "x", some .int⟩ :: done).reverse block
  | paramColon name done param block | paramType name done param block =>
      exact run_arrow name (⟨false, param, some .int⟩ :: done).reverse block
  | paramEnd name done block => exact run_arrow name done.reverse block
  | arrow name params block => exact run_arrow name params block
  | returnType name params block => exact run_funcOpen ⟨name, params, some .int⟩ block
  | funcOpen s block => exact run_funcOpen s block

end

/-! ## What an error asks for -/

/-- A number whose text has a value. -/
def IsNumber (t : Token) : Prop :=
  t.kind = .int ∧ (Numeral.int32? t.lexeme).isSome ∨
    t.kind = .float ∧ (Numeral.double? t.lexeme).isSome

/-- The first token of an expression. -/
def StartsExpression (t : Token) : Prop :=
  IsNumber t ∨ t.kind ∈ [.bool true, .bool false, .string, .identifier, .punct .leftParen]

/-- The token `t` is what the error asks for. -/
def Error.Wants (e : Error) (t : Token) : Prop :=
  match e.expected with
  | .character => ∃ p : Punct, p.spelling = e.character ∧ t.kind = .punct p
  | .identifier => t.kind = .identifier
  | .number => IsNumber t
  | .type => t.kind.typeName?.isSome
  | .openParen => t.kind = .punct .leftParen
  | .closeParen => t.kind = .punct .rightParen
  | .expression => StartsExpression t
  | _ => False

theorem Error.Wants.ne_end {e : Error} {t : Token} (h : e.Wants t) : t.kind ≠ .endOfFile := by
  intro hk
  unfold Error.Wants StartsExpression IsNumber at h
  split at h <;> simp [hk, Token.Kind.typeName?] at h

theorem Punct.eq_of_spelling {p q : Punct} (h : p.spelling = q.spelling) : p = q := by
  revert h
  cases p <;> cases q <;> decide

/-- The error is about the token `t` and asks for something, and `f` takes whatever it asks for. -/
structure Asks (f : Token → Except Error State) (t : Token) (e : Error) : Prop where
  token : e.token = t
  wanted : ∃ t', e.Wants t'
  taken : ∀ t', e.Wants t' → ∃ σ, f t' = .ok σ

section

variable {f : Token → Except Error State} {t : Token} {e : Error}

theorem Asks.character {p : Punct} (h : ∀ t', t'.kind = .punct p → ∃ σ, f t' = .ok σ) :
    Asks f t ⟨.character, p.spelling, t⟩ := by
  refine ⟨rfl, ⟨fixed (.punct p), p, rfl, rfl⟩, ?_⟩
  rintro t' ⟨q, hq, hk⟩
  rw [Punct.eq_of_spelling hq] at hk
  exact h t' hk

theorem Asks.identifier (h : ∀ t', t'.kind = .identifier → ∃ σ, f t' = .ok σ) :
    Asks f t ⟨.identifier, [], t⟩ :=
  ⟨rfl, ⟨named "x", rfl⟩, h⟩

theorem Asks.type (h : ∀ t' ty, t'.kind.typeName? = some ty → ∃ σ, f t' = .ok σ) :
    Asks f t ⟨.type, [], t⟩ := by
  refine ⟨rfl, ⟨fixed (.keyword (.type .int)), rfl⟩, fun t' ht' => ?_⟩
  obtain ⟨ty, hty⟩ := Option.isSome_iff_exists.1 ht'
  exact h t' ty hty

theorem Asks.openParen (h : ∀ t', t'.kind = .punct .leftParen → ∃ σ, f t' = .ok σ) :
    Asks f t ⟨.openParen, [], t⟩ :=
  ⟨rfl, ⟨fixed (.punct .leftParen), rfl⟩, h⟩

theorem Asks.closeParen (h : ∀ t', t'.kind = .punct .rightParen → ∃ σ, f t' = .ok σ) :
    Asks f t ⟨.closeParen, [], t⟩ :=
  ⟨rfl, ⟨fixed (.punct .rightParen), rfl⟩, h⟩

theorem Asks.expression (h : ∀ t', StartsExpression t' → ∃ σ, f t' = .ok σ) :
    Asks f t ⟨.expression, [], t⟩ :=
  ⟨rfl, ⟨named "x", .inr (by decide)⟩, h⟩

theorem Asks.number (h : ∀ t', StartsExpression t' → ∃ σ, f t' = .ok σ) :
    Asks f t ⟨.number, [], t⟩ :=
  ⟨rfl, ⟨⟨.int, utf8 "0", Pos.start⟩, .inl ⟨rfl, by decide⟩⟩, fun t' ht' => h t' (.inl ht')⟩

/-! ## Operands and statements -/

theorem startOperand_ok (h : StartsExpression t) (up : Hole) : ∃ σ, startOperand up t = .ok σ := by
  rcases h with (⟨hk, hv⟩ | ⟨hk, hv⟩) | hk
  · obtain ⟨v, hv⟩ := Option.isSome_iff_exists.1 hv
    simp [startOperand, hk, hv]
  · obtain ⟨v, hv⟩ := Option.isSome_iff_exists.1 hv
    simp [startOperand, hk, hv]
  · simp only [List.mem_cons, List.not_mem_nil, or_false] at hk
    rcases hk with hk | hk | hk | hk | hk <;> simp [startOperand, hk]

/-- Where an operand is refused, anything that starts an expression is asked for, or a number in the
place of one that has no value. -/
theorem startOperand_asks {up : Hole} (hf : ∀ t', StartsExpression t' → ∃ σ, f t' = .ok σ)
    (h : startOperand up t = .error e) : Asks f t e := by
  revert h
  fun_cases startOperand up t
  all_goals rintro ⟨⟩
  · exact .number hf
  · exact .number hf
  · exact .expression hf

/-- The kinds of tokens with which an expression starts. -/
theorem StartsExpression.startsOperand (h : StartsExpression t) : startsOperand t.kind = true := by
  rcases h with (⟨hk, -⟩ | ⟨hk, -⟩) | hk
  · rw [hk]
    rfl
  · rw [hk]
    rfl
  · simp only [List.mem_cons, List.not_mem_nil, or_false] at hk
    rcases hk with hk | hk | hk | hk | hk <;> rw [hk] <;> rfl

theorem startStatement_ok (h : StartsExpression t) (block : Block) :
    ∃ σ, startStatement block t = .ok σ := by
  obtain ⟨σ, hσ⟩ := startOperand_ok h (.alone block)
  have hstarts := h.startsOperand
  refine ⟨σ, ?_⟩
  unfold startStatement
  split <;> simp_all [startsOperand]

theorem startStatement_asks {block : Block} (hf : ∀ t', StartsExpression t' → ∃ σ, f t' = .ok σ)
    (h : startStatement block t = .error e) : Asks f t e := by
  unfold startStatement at h
  split at h
  case h_2 =>
      split at h
      · cases h
      · cases h
        exact .expression hf
  case h_9 => exact startOperand_asks hf h
  all_goals cases h

/-! ## Tokens that are handed on

In these states a token that goes on with what has been read is taken, and any other is handed on. -/

section

variable {n : Node} {up : Hole} {name token : Token} {d : Decl} {s : Signature} {params : List Decl}
  {block : Block}

theorem afterOperand_binary_ok {left : Node} {op : Token}
    (h : ∃ σ, afterOperand t (.binary left op n) up = .ok σ) :
    ∃ σ, afterOperand t n (.binary left op up) = .ok σ := by
  rw [afterOperand]
  split
  · exact ⟨_, rfl⟩
  · exact h

theorem afterOperand_returned_ok (h : ∃ σ, startStatement (block.add (.ret token n)) t = .ok σ) :
    ∃ σ, afterOperand t n (.returned token block) = .ok σ := by
  rw [afterOperand]
  split
  · exact ⟨_, rfl⟩
  · exact h

theorem afterOperand_bound_ok (h : ∃ σ, startStatement (block.add (.assign d n)) t = .ok σ) :
    ∃ σ, afterOperand t n (.bound d block) = .ok σ := by
  rw [afterOperand]
  split
  · exact ⟨_, rfl⟩
  · exact h

theorem afterOperand_alone_ok (h : ∃ σ, startStatement (block.add n) t = .ok σ) :
    ∃ σ, afterOperand t n (.alone block) = .ok σ := by
  rw [afterOperand]
  split
  · exact ⟨_, rfl⟩
  · exact h

theorem step_named_ok (h : ∃ σ, afterOperand t (.ref name) up = .ok σ) :
    ∃ σ, step (.named name up) t = .ok σ := by
  rw [step]
  split
  · exact ⟨_, rfl⟩
  · exact h

theorem step_firstArgument_ok (h : StartsExpression t) :
    ∃ σ, step (.firstArgument name up) t = .ok σ := by
  rw [step]
  split
  · exact ⟨_, rfl⟩
  · exact startOperand_ok h _

theorem step_firstPrinted_ok (h : StartsExpression t) :
    ∃ σ, step (.firstPrinted token block) t = .ok σ := by
  rw [step]
  split
  · exact ⟨_, rfl⟩
  · exact startOperand_ok h _

theorem step_bindEqual_ok (h : ∃ σ, startStatement (block.add (.decl d)) t = .ok σ) :
    ∃ σ, step (.bindEqual d block) t = .ok σ := by
  rw [step]
  split
  · exact ⟨_, rfl⟩
  · exact h

theorem step_funcOpen_ok (h : ∃ σ, startStatement (block.add (.signature s)) t = .ok σ) :
    ∃ σ, step (.funcOpen s block) t = .ok σ := by
  rw [step, afterSignature]
  split
  · exact ⟨_, rfl⟩
  · exact h

theorem step_arrow_ok (h : ∃ σ, step (.funcOpen ⟨name, params, some .void⟩ block) t = .ok σ) :
    ∃ σ, step (.arrow name params block) t = .ok σ := by
  rw [step]
  split
  · exact ⟨_, rfl⟩
  · exact h

end

theorem Asks.mono {g : Token → Except Error State} (h : Asks f t e)
    (hfg : ∀ t', (∃ σ, f t' = .ok σ) → ∃ σ, g t' = .ok σ) : Asks g t e :=
  ⟨h.token, h.wanted, fun t' ht' => hfg t' (h.taken t' ht')⟩

/-! ## Every state -/

/-- After an operand the parser asks for what ends the innermost part that is open. -/
theorem afterOperand_asks (n : Node) (up : Hole) (h : afterOperand t n up = .error e) :
    Asks (afterOperand · n up) t e := by
  induction up generalizing n with
  | binary left op up ih =>
      rw [afterOperand] at h
      split at h
      · cases h
      · exact (ih _ h).mono fun t' => afterOperand_binary_ok
  | paren | argument | printed =>
      rw [afterOperand] at h
      split at h <;> cases h
      exact .closeParen fun t' ht' => by simp [afterOperand, ht']
  | condition token block =>
      rw [afterOperand] at h
      split at h <;> cases h
      exact .character fun t' ht' => by simp [afterOperand, ht']
  | returned token block =>
      rw [afterOperand] at h
      split at h
      · cases h
      · exact startStatement_asks (fun t' ht' => afterOperand_returned_ok (startStatement_ok ht' _)) h
  | bound d block =>
      rw [afterOperand] at h
      split at h
      · cases h
      · exact startStatement_asks (fun t' ht' => afterOperand_bound_ok (startStatement_ok ht' _)) h
  | alone block =>
      rw [afterOperand] at h
      split at h
      · cases h
      · exact startStatement_asks (fun t' ht' => afterOperand_alone_ok (startStatement_ok ht' _)) h

theorem afterSignature_asks {s : Signature} {block : Block}
    (hf : ∀ t', StartsExpression t' → ∃ σ, f t' = .ok σ) (h : afterSignature s block t = .error e) :
    Asks f t e := by
  rw [afterSignature] at h
  split at h
  · cases h
  · exact startStatement_asks hf h

/-- **A state that refuses a token asks for tokens that it takes.** -/
theorem step_asks {σ : State} (h : step σ t = .error e) : Asks (step σ) t e := by
  cases σ with
  | statement block => exact startStatement_asks (fun t' ht' => startStatement_ok ht' block) h
  | operand up => exact startOperand_asks (fun t' ht' => startOperand_ok ht' up) h
  | operator n up => exact afterOperand_asks n up h
  | named name up =>
      rw [step] at h
      split at h
      · cases h
      · exact (afterOperand_asks _ _ h).mono fun t' => step_named_ok
  | firstArgument name up =>
      rw [step] at h
      split at h
      · cases h
      · exact startOperand_asks (fun t' => step_firstArgument_ok) h
  | firstPrinted token block =>
      rw [step] at h
      split at h
      · cases h
      · exact startOperand_asks (fun t' => step_firstPrinted_ok) h
  | bindEqual d block =>
      rw [step] at h
      split at h
      · cases h
      · exact startStatement_asks (fun t' ht' => step_bindEqual_ok (startStatement_ok ht' _)) h
  | arrow name params block =>
      rw [step] at h
      split at h
      · cases h
      · exact afterSignature_asks
          (fun t' ht' => step_arrow_ok (step_funcOpen_ok (startStatement_ok ht' _))) h
  | funcOpen s block =>
      exact afterSignature_asks (fun t' ht' => step_funcOpen_ok (startStatement_ok ht' _)) h
  | printOpen | paramsOpen =>
      rw [step] at h
      split at h <;> cases h
      exact .openParen fun t' ht' => by simp [step, ht']
  | bindName | funcName | firstParam | nextParam =>
      rw [step] at h
      split at h <;> cases h
      exact .identifier fun t' ht' => by simp [step, ht']
  | bindColon | paramColon =>
      rw [step] at h
      split at h <;> cases h
      exact .character fun t' ht' => by simp [step, ht']
  | bindType | paramType | returnType =>
      rw [step] at h
      split at h <;> cases h
      exact .type fun t' ty hty => by simp [step, hty]
  | paramEnd =>
      rw [step] at h
      split at h <;> cases h
      exact .closeParen fun t' ht' => by simp [step, ht']

/-! ## The end of the tokens -/

/-- A body that is open at the end can be closed. -/
theorem Block.finish_asks {block : Block} (h : block.finish t = .error e) :
    Asks (startStatement block) t e := by
  cases block with
  | top done => cases h
  | condBody | funcBody =>
      cases h
      exact .character fun t' ht' => by simp [startStatement, ht', Block.close?]

theorem Hole.finish_asks (n : Node) (up : Hole) (h : up.finish t n = .error e) :
    Asks (afterOperand · n up) t e := by
  induction up generalizing n with
  | binary left op up ih => exact (ih _ h).mono fun t' => afterOperand_binary_ok
  | paren | argument | printed =>
      cases h
      exact .closeParen fun t' ht' => by simp [afterOperand, ht']
  | condition token block =>
      cases h
      exact .character fun t' ht' => by simp [afterOperand, ht']
  | returned token block => exact (Block.finish_asks h).mono fun t' => afterOperand_returned_ok
  | bound d block => exact (Block.finish_asks h).mono fun t' => afterOperand_bound_ok
  | alone block => exact (Block.finish_asks h).mono fun t' => afterOperand_alone_ok

/-- **A state that cannot end asks for tokens that it takes.** -/
theorem finish_asks {σ : State} (h : finish σ t = .error e) : Asks (step σ) t e := by
  cases σ with
  | statement block => exact Block.finish_asks h
  | operator n up => exact Hole.finish_asks n up h
  | named name up => exact (Hole.finish_asks _ up h).mono fun t' => step_named_ok
  | bindEqual d block => exact (Block.finish_asks h).mono fun t' => step_bindEqual_ok
  | funcOpen s block => exact (Block.finish_asks h).mono fun t' => step_funcOpen_ok
  | arrow name params block =>
      exact (Block.finish_asks h).mono fun t' ht' => step_arrow_ok (step_funcOpen_ok ht')
  | operand up =>
      cases h
      exact .expression fun t' ht' => startOperand_ok ht' up
  | firstArgument name up =>
      cases h
      exact .expression fun t' => step_firstArgument_ok
  | firstPrinted token block =>
      cases h
      exact .expression fun t' => step_firstPrinted_ok
  | printOpen | paramsOpen =>
      cases h
      exact .openParen fun t' ht' => by simp [step, ht']
  | bindName | funcName | firstParam | nextParam =>
      cases h
      exact .identifier fun t' ht' => by simp [step, ht']
  | bindColon | paramColon =>
      cases h
      exact .character fun t' ht' => by simp [step, ht']
  | bindType | paramType | returnType =>
      cases h
      exact .type fun t' ty hty => by simp [step, hty]
  | paramEnd =>
      cases h
      exact .closeParen fun t' ht' => by simp [step, ht']

end

/-! ## Runs -/

/-- The parser reads the tokens `ts` and comes from one state to another. -/
inductive Reaches : State → List Token → State → Prop where
  | nil (σ : State) : Reaches σ [] σ
  | cons {σ σ₁ σ' : State} {t : Token} {ts : List Token} (ht : t.kind ≠ .endOfFile)
      (hstep : step σ t = .ok σ₁) (hrest : Reaches σ₁ ts σ') : Reaches σ (t :: ts) σ'

/-- In the state `σ` the parser fails at the token `t`. -/
def Refuses (σ : State) (t : Token) (e : Error) : Prop :=
  if t.kind = .endOfFile then finish σ t = .error e else step σ t = .error e

/-- The tokens with `last` behind them if there is no end-of-file token among them. -/
def endedBy (last : Token) (ts : List Token) : List Token :=
  if ∃ t ∈ ts, t.kind = .endOfFile then ts else ts ++ [last]

section

variable {last t : Token} {σ σ₁ σ' : State} {ts : List Token} {e : Error}

theorem Reaches.run_eq (h : Reaches σ ts σ') (more : List Token) :
    run last σ (ts ++ more) = run last σ' more := by
  induction h with
  | nil σ => rfl
  | cons ht hstep _ ih => rw [List.cons_append, run_step ht hstep, ih]

theorem Reaches.snoc (h : Reaches σ ts σ') (ht : t.kind ≠ .endOfFile)
    (hstep : step σ' t = .ok σ₁) : Reaches σ (ts ++ [t]) σ₁ := by
  induction h with
  | nil σ => exact .cons ht hstep (.nil _)
  | cons ht' hstep' _ ih => exact .cons ht' hstep' (ih hstep)

theorem Refuses.run_eq (h : Refuses σ t e) (more : List Token) :
    run last σ (t :: more) = .error e := by
  unfold Refuses at h
  rw [run]
  split at h
  · rw [if_pos ‹_›, h]
  · rw [if_neg ‹_›, h]

theorem Refuses.asks (h : Refuses σ t e) : Asks (step σ) t e := by
  unfold Refuses at h
  split at h
  · exact finish_asks h
  · exact step_asks h

theorem endedBy_cons (ht : t.kind ≠ .endOfFile) :
    endedBy last (t :: ts) = t :: endedBy last ts := by
  simp only [endedBy, List.mem_cons, exists_eq_or_imp, ht, false_or]
  split <;> rfl

theorem endedBy_cons_end (ht : t.kind = .endOfFile) : endedBy last (t :: ts) = t :: ts :=
  if_pos ⟨t, List.mem_cons_self, ht⟩

/-- A run that fails reads some of the tokens and fails at the next one. -/
theorem run_error (hlast : last.kind = .endOfFile) (h : run last σ ts = .error e) :
    ∃ before t after σ', endedBy last ts = before ++ t :: after ∧ Reaches σ before σ' ∧
      Refuses σ' t e := by
  induction ts generalizing σ with
  | nil => exact ⟨[], last, [], σ, by simp [endedBy], .nil σ, (if_pos hlast).mpr h⟩
  | cons t ts ih =>
      rw [run] at h
      split at h
      · rename_i ht
        exact ⟨[], t, ts, σ, endedBy_cons_end ht, .nil σ, (if_pos ht).mpr h⟩
      rename_i ht
      split at h
      · rename_i hstep
        cases h
        exact ⟨[], t, _, σ, endedBy_cons ht, .nil σ, (if_neg ht).mpr hstep⟩
      · rename_i next hstep
        obtain ⟨before, t', after, σ', heq, hreaches, hrefuses⟩ := ih h
        exact ⟨t :: before, t', after, σ', by rw [endedBy_cons ht, heq, List.cons_append],
          .cons ht hstep hreaches, hrefuses⟩

end

/-- Some program starts with these tokens. -/
def Viable (ts : List Token) : Prop := ∃ more program, parse (ts ++ more) = .ok program

theorem Reaches.viable {ts : List Token} {σ : State} (h : Reaches (.statement (.top [])) ts σ) :
    Viable ts := by
  obtain ⟨program, hrun⟩ : ∃ program, run (endOf (ts ++ σ.completion)) σ σ.completion = .ok program :=
    run_completion σ
  exact ⟨σ.completion, program, by rw [parse, h.run_eq, hrun]⟩

/-- **The parser fails at the first token with which the tokens are the start of no program.** The
tokens in front of it are the start of one. Every list that goes on with it fails in the same way. The
error asks for something, and with whatever it asks for the tokens are the start of a program again.

A list without an end-of-file token ends with one that stands for it. -/
theorem parse_error {ts : List Token} {e : Error} (h : parse ts = .error e) :
    ∃ k, (endedBy (endOf ts) ts)[k]? = some e.token ∧
      Viable ((endedBy (endOf ts) ts).take k) ∧
      (∀ us, (endedBy (endOf ts) ts).take (k + 1) <+: us → parse us = .error e) ∧
      (∃ t, e.Wants t) ∧ ∀ t, e.Wants t → Viable ((endedBy (endOf ts) ts).take k ++ [t]) := by
  obtain ⟨before, t, after, σ, heq, hreaches, hrefuses⟩ := run_error rfl h
  obtain ⟨rfl, hwanted, htaken⟩ := hrefuses.asks
  rw [heq]
  refine ⟨before.length, by simp, ?_, ?_, hwanted, ?_⟩
  · rw [List.take_left]
    exact hreaches.viable
  · rintro us ⟨more, rfl⟩
    rw [parse, List.take_length_add_append, List.append_assoc, hreaches.run_eq]
    exact hrefuses.run_eq _
  · intro t ht
    obtain ⟨σ', hσ'⟩ := htaken t ht
    rw [List.take_left]
    exact (hreaches.snoc ht.ne_end hσ').viable

/-- The tokens of `func main() { if f(x, 2147483648` fail at the number, which has no value. -/
theorem parse_error_number :
    let ts := spelled ["func", "main", "(", ")", "\x7b", "if", "f", "(", "x", ",", "2147483648"]
    let e : Error := ⟨.number, [], ⟨.int, utf8 "2147483648", Pos.start⟩⟩
    parse ts = .error e ∧
      ∃ k, (endedBy (endOf ts) ts)[k]? = some e.token ∧
        Viable ((endedBy (endOf ts) ts).take k) ∧
        (∀ us, (endedBy (endOf ts) ts).take (k + 1) <+: us → parse us = .error e) ∧
        (∃ t, e.Wants t) ∧ ∀ t, e.Wants t → Viable ((endedBy (endOf ts) ts).take k ++ [t]) :=
  have h : parse (spelled ["func", "main", "(", ")", "\x7b", "if", "f", "(", "x", ",",
      "2147483648"]) = .error ⟨.number, [], ⟨.int, utf8 "2147483648", Pos.start⟩⟩ := by rfl
  ⟨h, parse_error h⟩

end Parsing

end Swiftlet
