import Mathlib.Data.Int.ModEq
import Swiftlet.Run

/-!
# Integers of 32 bits

An integer expression wraps around at each of its operators. What comes out is still the value that
the expression has over the unbounded integers, reduced once at the end.

* `Node.integer? env` — the value of an expression over the unbounded integers, where `env` gives
  the names their values.
* `Node.names` — the names that such an expression reads, from left to right.
* `Machine.Holds` — the running frame has a value for a name.
* `Supplies args env names m m'` — read one after the other, the names have the values that `env`
  gives them: the frame holds the value, or it is that of an argument which is evaluated when it is
  first read.

Principal results: `modEq_iff`, that each residue has one integer of 32 bits, `eval_of_integer?`,
that evaluation finds it, `eval_quotient`, what a division does, and `eval_exact`.
-/

namespace Swiftlet

/-- The operation over the unbounded integers, division apart. -/
def Operator.integer? : Operator → Int → Int → Option Int
  | .plus, a, b => some (a + b)
  | .minus, a, b => some (a - b)
  | .star, a, b => some (a * b)
  | .slash, _, _ => none

/-- The value of an integer expression over the unbounded integers. There is none if it has anything
but literals, names, sums, differences and products. -/
def Node.integer? (env : Bytes → Int32) : Node → Option Int
  | .int _ v => some v.toInt
  | .ref name => some (env name.lexeme).toInt
  | .binary left op right =>
    match op.kind, left.integer? env, right.integer? env with
    | .operator o, some a, some b => o.integer? a b
    | _, _, _ => none
  | _ => none

/-- The names that an integer expression reads, from left to right. -/
def Node.names : Node → List Token
  | .ref name => [name]
  | .binary left _ right => left.names ++ right.names
  | _ => []

namespace Run

/-! ## Residues -/

/-- **The integers of 32 bits are the residues**: each is congruent to one of them. -/
theorem modEq_iff (w : Int32) (z : Int) : w.toInt ≡ z [ZMOD 2 ^ 32] ↔ w = Int32.ofInt z := by
  have hsize : (2 ^ 32 : Int) = (Int32.size : Int) := by decide
  rw [hsize]
  constructor
  · intro h
    have hsame : w.toInt % (Int32.size : Int) = z % (Int32.size : Int) := h
    rw [← Int32.toInt_inj, Int32.toInt_ofInt, ← Int.emod_bmod z, ← hsame, Int.emod_bmod,
      Int32.toInt_bmod_size]
  · rintro rfl
    change (Int32.ofInt z).toInt % (Int32.size : Int) = z % (Int32.size : Int)
    rw [Int32.toInt_ofInt, Int.bmod_emod]

/-- Reduction to 32 bits goes with sums, differences and products. -/
theorem intOperation_ofInt {o : Operator} {a b z : Int} (h : o.integer? a b = some z) :
    intOperation o (Int32.ofInt a) (Int32.ofInt b) = some (Int32.ofInt z) := by
  cases o with
  | plus =>
      cases h
      rw [Int32.ofInt_add]
      rfl
  | minus =>
      cases h
      rw [Int32.ofInt_sub]
      rfl
  | star =>
      cases h
      rw [Int32.ofInt_mul]
      rfl
  | slash => cases h

theorem ofInt_tdiv_toInt (a b : Int32) : Int32.ofInt (a.toInt.tdiv b.toInt) = a / b := by
  rw [Int32.ofInt_eq_iff_bmod_eq_toInt, Int32.toInt_div]

/-! ## Reading names -/

/-- The running frame has a value for a name: the name is a parameter that has been read before, or
it is bound by a statement of the log and no parameter that is still to be read. -/
inductive Machine.Holds (m : Machine) (name : Bytes) (v : Value) : Prop where
  | cached (hcache : m.frame.cache.lookup name = some v)
  | bound (hcache : m.frame.cache.lookup name = none)
      (hparam : m.frame.signature.paramIndex? name = none ∨ m.callers = [])
      (hlog : latestBinding? name m.frame.log = some v)

/-- Reading the names one after the other gives each its value. -/
inductive Supplies (args : List Argument) (env : Bytes → Int32) :
    List Token → Machine → Machine → Prop where
  | nil (m : Machine) : Supplies args env [] m m
  | held {name : Token} {rest : List Token} {m m' : Machine}
      (hvalue : m.Holds name.lexeme (.int (env name.lexeme)))
      (hrest : Supplies args env rest m m') :
      Supplies args env (name :: rest) m m'
  | forced {name : Token} {rest : List Token} {m m' outer : Machine} {caller : Frame}
      {callers : List Frame} {i : Nat} {arg : Argument}
      (hcache : m.frame.cache.lookup name.lexeme = none)
      (hparam : m.frame.signature.paramIndex? name.lexeme = some i)
      (hcallers : m.callers = caller :: callers) (harg : args[i]? = some arg)
      (hvalue : arg ⟨caller, callers, m.sink⟩ = .ok (.int (env name.lexeme), outer))
      (hrest : Supplies args env rest (outer.resume { m.frame with
        cache := (name.lexeme, .int (env name.lexeme)) :: m.frame.cache }) m') :
      Supplies args env (name :: rest) m m'

section

variable {args : List Argument} {env : Bytes → Int32} {m m' : Machine}

theorem lookup_of_holds {name : Token} {v : Value} (h : m.Holds name.lexeme v) :
    lookup args name m = .ok (v, m) := by
  unfold lookup
  cases h with
  | cached hcache => rw [hcache]
  | bound hcache hparam hlog =>
      rw [hcache]
      rcases hparam with hparam | hcallers
      · simp only [hparam, hlog]
      · rw [hcallers]
        cases m.frame.signature.paramIndex? name.lexeme <;> simp only [hlog]

theorem lookup_of_supplies {name : Token} (h : Supplies args env [name] m m') :
    lookup args name m = .ok (.int (env name.lexeme), m') := by
  cases h with
  | held hvalue hrest =>
      cases hrest
      exact lookup_of_holds hvalue
  | forced hcache hparam hcallers harg hvalue hrest =>
      cases hrest
      unfold lookup
      simp only [hcache, hparam, hcallers, harg, hvalue]

theorem Supplies.split {xs ys : List Token} (h : Supplies args env (xs ++ ys) m m') :
    ∃ m₁, Supplies args env xs m m₁ ∧ Supplies args env ys m₁ m' := by
  induction xs generalizing m with
  | nil => exact ⟨m, .nil m, h⟩
  | cons x xs ih =>
      cases h with
      | held hvalue hrest =>
          obtain ⟨m₁, hxs, hys⟩ := ih hrest
          exact ⟨m₁, .held hvalue hxs, hys⟩
      | forced hcache hparam hcallers harg hvalue hrest =>
          obtain ⟨m₁, hxs, hys⟩ := ih hrest
          exact ⟨m₁, .forced hcache hparam hcallers harg hvalue hxs, hys⟩

/-- Reading what the frame holds changes nothing. -/
theorem supplies_of_holds {names : List Token}
    (h : ∀ name ∈ names, m.Holds name.lexeme (.int (env name.lexeme))) :
    Supplies args env names m m := by
  induction names with
  | nil => exact .nil m
  | cons name rest ih =>
      rw [List.forall_mem_cons] at h
      exact .held h.1 (ih h.2)

/-! ## Evaluation -/

variable {program : List Node} {enter : Enter}

theorem eval_binary_int {left right : Node} {op : Token} {o : Operator} {a b : Int32} {m₁ : Machine}
    (hop : op.kind = .operator o) (hleft : eval program enter args left m = .ok (.int a, m₁))
    (hright : eval program enter args right m₁ = .ok (.int b, m')) :
    eval program enter args (.binary left op right) m =
      (intOperation o a b).elim (.error (.divisionByZero, m')) fun v => .ok (.int v, m') := by
  simp only [eval, hleft, hright, operate, hop]
  cases intOperation o a b <;> rfl

/-- **Evaluation gives the residue of the value**: what the operands lose by wrapping around, the
result would lose anyway. -/
theorem eval_of_integer? {n : Node} {z : Int} (hz : n.integer? env = some z)
    (hsupplies : Supplies args env n.names m m') :
    eval program enter args n m = .ok (.int (Int32.ofInt z), m') := by
  fun_induction Node.integer? env n generalizing z m m' with
  | case1 t v =>
      cases hz
      cases hsupplies
      rw [eval, Int32.ofInt_toInt]
  | case2 name =>
      cases hz
      rw [eval, Int32.ofInt_toInt]
      exact lookup_of_supplies hsupplies
  | case3 left op right o a b hb ha hop ihleft ihright =>
      obtain ⟨m₁, hleft, hright⟩ := Supplies.split hsupplies
      rw [eval_binary_int hop (ihleft ha hleft) (ihright hb hright), intOperation_ofInt hz]
      rfl
  | case4 | case5 => cases hz

/-- A quotient of two such expressions is that of their residues, if the second is not zero. -/
theorem eval_quotient {left right : Node} {op : Token} {a b : Int}
    (hop : op.kind = .operator .slash) (ha : left.integer? env = some a)
    (hb : right.integer? env = some b)
    (hsupplies : Supplies args env (left.names ++ right.names) m m') :
    eval program enter args (.binary left op right) m =
      if Int32.ofInt b = 0 then .error (.divisionByZero, m')
      else .ok (.int (Int32.ofInt a / Int32.ofInt b), m') := by
  obtain ⟨m₁, hleft, hright⟩ := hsupplies.split
  rw [eval_binary_int hop (eval_of_integer? ha hleft) (eval_of_integer? hb hright), intOperation]
  split <;> rfl

end

/-- **Integer expressions are exact modulo `2 ^ 32`.** An expression of literals, names with integer
values, sums, differences and products evaluates to the one integer of 32 bits that is congruent to
its value over the unbounded integers. A quotient of two such expressions fails if the divisor is
zero; otherwise it is the quotient truncated toward zero and reduced to 32 bits. Names that the
frame holds are read without a change. -/
theorem eval_exact (program : List Node) (enter : Enter) (args : List Argument)
    (env : Bytes → Int32) :
    (∀ n z, Node.integer? env n = some z →
      ∃ v : Int32, (∀ w : Int32, w.toInt ≡ z [ZMOD 2 ^ 32] ↔ w = v) ∧
        ∀ m m', Supplies args env n.names m m' → eval program enter args n m = .ok (.int v, m')) ∧
    (∀ left op right a b, op.kind = .operator .slash → Node.integer? env left = some a →
      Node.integer? env right = some b →
      ∃ x y : Int32, x.toInt ≡ a [ZMOD 2 ^ 32] ∧ y.toInt ≡ b [ZMOD 2 ^ 32] ∧
        ∀ m m', Supplies args env (left.names ++ right.names) m m' →
          (eval program enter args (.binary left op right) m = .error (.divisionByZero, m') ↔
            y = 0) ∧
          (y ≠ 0 → ∃ q : Int32,
            (∀ w : Int32, w.toInt ≡ x.toInt.tdiv y.toInt [ZMOD 2 ^ 32] ↔ w = q) ∧
            (x = Int32.minValue → y = -1 → q = Int32.minValue) ∧
            eval program enter args (.binary left op right) m = .ok (.int q, m'))) ∧
    ∀ names m, (∀ name ∈ names, m.Holds name.lexeme (.int (env name.lexeme))) →
      Supplies args env names m m := by
  refine ⟨fun n z hz => ⟨Int32.ofInt z, fun w => modEq_iff w z, fun m m' => eval_of_integer? hz⟩,
    fun left op right a b hop ha hb => ?_, fun names m => supplies_of_holds⟩
  refine ⟨Int32.ofInt a, Int32.ofInt b, (modEq_iff _ a).2 rfl, (modEq_iff _ b).2 rfl, ?_⟩
  intro m m' hsupplies
  rw [eval_quotient hop ha hb hsupplies]
  refine ⟨by split <;> simp_all, fun hne => ⟨_, fun w => ?_, ?_, if_neg hne⟩⟩
  · rw [modEq_iff, ofInt_tdiv_toInt]
  · intro hx hy
    rw [hx, hy]
    decide

/-- `x * x + 1`. -/
def square : Node :=
  .binary
    (.binary (.ref ⟨.identifier, utf8 "x", .start⟩) ⟨.operator .star, utf8 "*", .start⟩
      (.ref ⟨.identifier, utf8 "x", .start⟩))
    ⟨.operator .plus, utf8 "+", .start⟩ (.int (.bare .start) 1)

/-- The entry function after `let x = 2147483647`. -/
def squareMachine : Machine :=
  ⟨⟨⟨.bare .start, [], some .void⟩, [],
    [(.assign ⟨false, ⟨.identifier, utf8 "x", .start⟩, some .int⟩
      (.int (.bare .start) Int32.maxValue), .int Int32.maxValue)]⟩, [], ⟨[], none⟩⟩

theorem eval_square :
    Node.integer? (fun _ => Int32.maxValue) square = some 4611686014132420610 ∧
    eval [] (enter [] 0) [] square squareMachine = .ok (.int 2, squareMachine) := by
  have hvalue : Node.integer? (fun _ => Int32.maxValue) square = some 4611686014132420610 := by
    decide
  obtain ⟨hexpressions, -, hheld⟩ := eval_exact [] (enter [] 0) [] fun _ => Int32.maxValue
  obtain ⟨v, hv, heval⟩ := hexpressions square _ hvalue
  obtain rfl : 2 = v := (hv 2).1 (by decide)
  have hnames : ∀ name ∈ square.names, name.lexeme = utf8 "x" := by decide
  refine ⟨hvalue, heval _ _ (hheld _ _ fun name hname => ?_)⟩
  rw [hnames name hname]
  exact .bound rfl (.inr rfl) rfl

end Run

end Swiftlet
