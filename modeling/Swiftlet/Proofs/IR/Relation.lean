import Swiftlet.Proofs.IR.Execution
import Swiftlet.Proofs.IR.Lowered
import Swiftlet.Proofs.Run.Division
import Swiftlet.Proofs.Run.Steady

/-!
# What an execution has to do with a run

A run keeps the values of variables in a log and evaluates parameters when they are read; an execution
keeps variables in slots and is handed its arguments. Here is what it means that the two agree at the
place that lowering has come to.

* `Represents` — a value and the `Val` that stands for it; a string is a constant that ends with a
  zero byte. `PrintedAs` — a value and the arguments with which `printf` is called for it.
* `Keeps` — an activation has changed only where a state of lowering has no instruction yet. An operand
  is `Stable` if such a change leaves its value as it is.
* `Scene` — a function call, on both sides. `Scene.Valid` says what stays true of it.
* `Related` — in a scene, the machine of the run and the activation of the execution agree.

Principal results: `Steps.of_emit` and `Steps.of_terminate`, that what is emitted is executed, and
`Related.advance`, that the agreement survives the code of an expression.
-/

namespace Swiftlet

namespace IR

open Typing Run

/-! ## Values -/

/-- The constant with the number `global` has the content `bytes`. -/
def Module.Holds (m : Module) (global : Nat) (bytes : Bytes) : Prop :=
  ∃ g, m.globals[global]? = some g ∧ g.content = bytes

inductive Represents (m : Module) : Swiftlet.Ty → Value → Val → Prop where
  | int (v : Int32) : Represents m .int (.int v) (.i32 v)
  | float (v : Float) : Represents m .float (.float v) (.double v)
  | bool (v : Bool) : Represents m .bool (.bool v) (.i1 v)
  | string {v : Bytes} {global : Nat} (h : m.Holds global (v ++ [0])) :
      Represents m .string (.string v) (.pointer global)

/-- What `printf` is handed for a value: a Bool is a number. -/
inductive HandedAs (m : Module) : Value → Val → Prop where
  | int (v : Int32) : HandedAs m (.int v) (.i32 v)
  | float (v : Float) : HandedAs m (.float v) (.double v)
  | bool (v : Bool) : HandedAs m (.bool v) (.i32 (if v then 1 else 0))
  | string {v : Bytes} {global : Nat} (h : m.Holds global (v ++ [0])) :
      HandedAs m (.string v) (.pointer global)

/-- The arguments of the `printf` that prints a value: the format for its type, and the value. -/
def PrintedAs (m : Module) (v : Value) (args : List Val) : Prop :=
  ∃ t name text format w, v.type? = some t ∧ format? (Ty.of t) = some (name, text) ∧
    m.Holds format (text ++ [0]) ∧ HandedAs m v w ∧ args = [.pointer format, w]

section

variable {m : Module} {t : Swiftlet.Ty} {v : Value} {w : Val}

theorem Represents.type? (h : Represents m t v w) : v.type? = some t := by
  cases h <;> rfl

theorem Represents.type_eq (h : Represents m t v w) : w.type = Ty.of t := by
  cases h <;> rfl

/-- **Operations agree** where the quotient of integers is in range. -/
theorem arithmetic_eval {op : Token} {o : Operator} (hop : op.kind = .operator o)
    (ht : t.isNumeric = true) {a b : Value} {x y : Val} (ha : Represents m t a x)
    (hb : Represents m t b y) (hv : operate op a b = .ok v)
    (hrange : o = .slash → ¬(a = .int Int32.minValue ∧ b = .int (-1))) :
    ∃ z, (arithmeticOf t o).eval x y = some z ∧ Represents m t v z := by
  cases ha with
  | int a =>
      cases hb with
      | int b =>
      simp only [operate, hop] at hv
      cases o with
      | slash =>
          simp only [intOperation] at hv
          split at hv
          · rename_i z hz
            split at hz
            · cases hz
            rename_i hzero
            cases hz
            cases hv
            refine ⟨.i32 (a / b), ?_, .int _⟩
            have hin : ¬(b = 0 ∨ a = Int32.minValue ∧ b = -1) := by
              rintro (hb | ⟨ha, hb⟩)
              · exact hzero hb
              · exact hrange rfl ⟨by rw [ha], by rw [hb]⟩
            simp only [arithmeticOf, intArithmetic, Arithmetic.eval, if_neg hin]
          · cases hv
      | _ =>
          cases hv
          exact ⟨_, rfl, .int _⟩
  | float a =>
      cases hb with
      | float b =>
      simp only [operate, hop] at hv
      cases hv
      cases o <;> exact ⟨_, rfl, .float _⟩
  | _ => cases ht

end

/-! ## Constants -/

theorem Later.holds {σ : State} {m : Module} (h : Later σ.shared m.shared) {i : Nat} {g : Global}
    (hg : σ.globals[i]? = some g) : m.Holds i g.content := by
  obtain ⟨more, hmore⟩ := h.globals
  have hmore : σ.globals ++ more = m.globals := hmore
  refine ⟨g, ?_, rfl⟩
  rw [← hmore, List.getElem?_append_left (List.getElem?_eq_some_iff.1 hg).1, hg]

/-! ## Activations -/

/-- The activation has changed only where `σ` has no instruction. -/
structure Keeps (σ : State) (a a' : Activation) : Prop where
  function : a'.function = a.function
  args : a'.args = a.args
  results : ∀ s, σ.Has s → a'.results s = a.results s
  slots : ∀ s, σ.Has s → a'.slots s = a.slots s

/-- The operand has the value `w`, and keeps it. -/
def Stable (σ : State) (a : Activation) (o : Operand) (w : Val) : Prop :=
  ∀ a', Keeps σ a a' → o.eval a' = some w

section

variable {σ σ' : State} {a a' a'' : Activation} {o : Operand} {w : Val}

theorem Keeps.refl (σ : State) (a : Activation) : Keeps σ a a :=
  ⟨rfl, rfl, fun _ _ => rfl, fun _ _ => rfl⟩

theorem Keeps.trans (hgrow : BlocksGrow σ.blocks σ'.blocks) (h : Keeps σ a a')
    (h' : Keeps σ' a' a'') : Keeps σ a a'' where
  function := h'.function.trans h.function
  args := h'.args.trans h.args
  results := fun s hs => (h'.results s (hs.grow hgrow)).trans (h.results s hs)
  slots := fun s hs => (h'.slots s (hs.grow hgrow)).trans (h.slots s hs)

theorem Keeps.define (hsite : a.site = σ.site) (v : Val) : Keeps σ a (a.define v).next where
  function := rfl
  args := rfl
  results := by
    intro s hs
    refine if_neg ?_
    rintro rfl
    exact σ.not_has_site (hsite ▸ hs)
  slots := fun _ _ => rfl

theorem Keeps.resume (hsite : a.site = σ.site) (value : Option Val) :
    Keeps σ a (a.resume value) := by
  cases value with
  | none => exact ⟨rfl, rfl, fun _ _ => rfl, fun _ _ => rfl⟩
  | some v => exact .define hsite v

theorem Keeps.fill {slot : Site} (hslot : ¬σ.Has slot) (content : Option Val) :
    Keeps σ a (a.fill slot content).next where
  function := rfl
  args := rfl
  results := fun _ _ => rfl
  slots := by
    intro s hs
    refine if_neg ?_
    rintro rfl
    exact hslot hs

theorem Stable.eval (h : Stable σ a o w) : o.eval a = some w := h a (.refl σ a)

/-- The result of an instruction that has been emitted is stable. -/
theorem stable_result {s : Site} {t : Ty} (hs : σ.Has s) (hw : a.results s = some w) :
    Stable σ a (.result s t) w :=
  fun _ h => (h.results s hs).trans hw

end

/-! ## What is emitted is executed -/

section

variable {m : Module} {f : Function} {σ : State} {a : Activation} {callers : List Activation}
  {printed : List (List Val)}

theorem Steps.of_emit {i : Instruction} {x : Execution} (hopen : σ.Open)
    (hf : m.functions[a.function]? = some f)
    (hblocks : BlocksGrow (σ.emit i).2.blocks f.blocks) (hsite : a.site = σ.site)
    (hx : execute m a callers printed i = some x) : Steps m ⟨a :: callers, printed⟩ x := by
  obtain ⟨b, hb, hi, -⟩ := hopen.emit_block i
  obtain ⟨b', hb', hgrows⟩ := hblocks _ b hb
  have hblock : a.block = σ.current := congrArg Site.block hsite
  have hindex : a.index = σ.site.index := congrArg Site.index hsite
  obtain ⟨more, hmore⟩ := hgrows.instructions
  refine .of_instruction hf (by rw [hblock]; exact hb') ?_ hx
  rw [hindex, ← hmore, List.getElem?_append_left (List.getElem?_eq_some_iff.1 hi).1, hi]

theorem Steps.of_terminate {t : Terminator} {x : Execution} (hopen : σ.Open)
    (hf : m.functions[a.function]? = some f)
    (hblocks : BlocksGrow (σ.terminate t).blocks f.blocks) (hsite : a.site = σ.site)
    (hx : transfer f.ret a callers printed t = some x) : Steps m ⟨a :: callers, printed⟩ x := by
  obtain ⟨b, hb, hlength, ht⟩ := hopen.terminate_block t
  obtain ⟨b', hb', hgrows⟩ := hblocks _ b hb
  have hsame := hgrows.ended (by rw [ht]; rfl)
  subst hsame
  have hblock : a.block = σ.current := congrArg Site.block hsite
  have hindex : a.index = σ.site.index := congrArg Site.index hsite
  exact .of_terminator hf (by rw [hblock]; exact hb') (by rw [hlength, hindex]) ht hx

/-- After an instruction the next site is the one after its own. -/
theorem next_site {i : Instruction} (hopen : σ.Open) (hsite : a.site = σ.site) :
    a.next.site = (σ.emit i).2.site := by
  obtain ⟨-, -, -, hnext⟩ := hopen.emit_block i
  have hblock : a.block = σ.current := congrArg Site.block hsite
  have hindex : a.index = σ.site.index := congrArg Site.index hsite
  rw [hnext, ← hblock, ← hindex]
  rfl

theorem emit_has {i : Instruction} (hopen : σ.Open) : (σ.emit i).2.Has σ.site := by
  obtain ⟨b, hb, hi, -⟩ := hopen.emit_block i
  exact ⟨b, hb, (List.getElem?_eq_some_iff.1 hi).1⟩

end

/-! ## One function call -/

/-- A call of a function: how many frames may be added to its frame, its arguments, its parameters'
values and the frames that wait for it on the side of the run; the number of the function and the
activations that wait for it on the side of the execution. -/
structure Scene where
  entry : Bytes
  program : List Node
  module : Module
  depth : Nat
  args : List Suspended
  signature : Signature
  values : List Value
  callers : List Still
  number : Nat
  function : Function
  stack : List Activation

/-- A program and its module. -/
structure Compiled (entry : Bytes) (program : List Node) (m : Module) : Prop
    extends Lowerable entry program where
  plain : PlainArguments program
  declarations : Declarations entry program m.functions
  code : ∀ s body, .func s body ∈ program →
    ∃ i f σ₀ σ₁, BodyCode entry program m.shared s body i f σ₀ σ₁

namespace Scene

/-- What the body of the function is lowered against. -/
def context (S : Scene) : Context :=
  ⟨S.entry, S.program, S.function.ret, paramOperands S.function⟩

def still (S : Scene) (log : Log) : Still := ⟨S.signature, S.values, log⟩

/-- Evaluates a node in the frame of the call. -/
def eval (S : Scene) : Node → Machine → Run.Outcome Value :=
  Run.eval S.program (Run.enter S.program S.depth) (forceAll S.program S.args)

def runBody (S : Scene) : List Node → Machine → Run.Outcome (Value × Bool) :=
  Run.runBody S.program (Run.enter S.program S.depth) (forceAll S.program S.args)

structure Valid (S : Scene) : Prop extends Compiled S.entry S.program S.module where
  function : S.module.functions[S.number]? = some S.function
  params : ParamsFit (paramOperands S.function) S.signature
  ret : ∀ t, S.signature.ret = some t → S.function.ret = Ty.of t
  args : ArgsSteady S.callers S.signature S.values (forceAll S.program S.args)

/-- The arguments that the execution is handed stand for the values of the parameters. -/
def Handed (S : Scene) (ws : List Val) : Prop :=
  ∀ (i : Nat) (p : Decl) (t : Swiftlet.Ty), S.signature.params[i]? = some p → p.type = some t →
    ∃ v w, S.values[i]? = some v ∧ ws[i]? = some w ∧ Represents S.module t v w

/-- What has been lowered is part of the function and of its module. -/
structure Emitted (S : Scene) (σ : State) : Prop where
  blocks : BlocksGrow σ.blocks S.function.blocks
  later : Later σ.shared S.module.shared

end Scene

/-- The run and the execution agree where the bindings `Γ` are visible and lowering is in the state
`σ`. -/
structure Related (S : Scene) (Γ : Scope) (log : Log) (σ : State) (m : Machine) (a : Activation)
    (printed : List (List Val)) : Prop where
  isOpen : σ.Open
  declarations : Declarations S.entry S.program σ.functions
  nodup : (namesOf S.signature.params ++ Γ.names).Nodup
  still : MachineStill (S.still log :: S.callers) m
  function : a.function = S.number
  site : a.site = σ.site
  params : S.Handed a.args
  vars : ∀ x t, (x, t) ∈ Γ → ∃ v site w, latestBinding? x log = some v ∧
    σ.locals.lookup x = some ⟨site, Ty.of t⟩ ∧ σ.Has site ∧ a.slots site = some (some w) ∧
      Represents S.module t v w
  printed : List.Forall₂ (PrintedAs S.module) m.sink.values printed

section

variable {S : Scene} {Γ Δ : Scope} {log : Log} {σ σ' : State} {m m' : Machine} {a a' : Activation}
  {printed printed' : List (List Val)}

theorem Scene.Emitted.of_grows {c : Context} (h : S.Emitted σ') (hgrows : Grows c σ σ') :
    S.Emitted σ :=
  ⟨hgrows.blocks.trans h.blocks, (Later.of_added hgrows.globals hgrows.functions).trans h.later⟩

theorem Related.localsFit (h : Related S Γ log σ m a printed) : LocalsFit Γ σ.locals := by
  intro x t hx
  obtain ⟨-, site, -, -, hsite, -⟩ := h.vars x t hx
  exact ⟨site, hsite⟩

/-- The function that is executed. -/
theorem Related.running (h : Related S Γ log σ m a printed) (hS : S.Valid) :
    S.module.functions[a.function]? = some S.function := by
  rw [h.function, hS.function]

theorem Related.stillTyped (h : Related S Γ log σ m a printed) : StillTyped (S.still log) Γ where
  nodup := h.nodup
  params := fun i p t hp ht => by
    obtain ⟨v, w, hv, -, hrep⟩ := h.params i p t hp ht
    exact ⟨v, hv, hrep.type?⟩
  vars := fun x t hx => by
    obtain ⟨v, -, w, hv, -, -, -, hrep⟩ := h.vars x t hx
    exact ⟨v, hv, hrep.type?⟩

/-- A machine with the same still frames and the same output does as well. -/
theorem Related.machine (h : Related S Γ log σ m a printed)
    (hstill : MachineStill (S.still log :: S.callers) m') (hsink : m'.sink = m.sink) :
    Related S Γ log σ m' a printed :=
  ⟨h.isOpen, h.declarations, h.nodup, hstill, h.function, h.site, h.params, h.vars,
    hsink ▸ h.printed⟩

/-- **The agreement survives the code of an expression**, which keeps variables and slots. -/
theorem Related.advance {c : Context} (h : Related S Γ log σ m a printed)
    (hc : c.entry = S.entry ∧ c.program = S.program) (hstraight : Straight c σ σ')
    (hkeeps : Keeps σ a a') (hsite : a'.site = σ'.site)
    (hstill : MachineStill (S.still log :: S.callers) m')
    (hprinted : List.Forall₂ (PrintedAs S.module) m'.sink.values printed') :
    Related S Γ log σ' m' a' printed' where
  isOpen := hstraight.isOpen
  declarations := by
    have hadded := hstraight.functions
    rw [hc.1, hc.2] at hadded
    exact h.declarations.added hadded
  nodup := h.nodup
  still := hstill
  function := hkeeps.function.trans h.function
  site := hsite
  params := by
    rw [hkeeps.args]
    exact h.params
  vars := by
    intro x t hx
    obtain ⟨v, site, w, hv, hlookup, hhas, hslot, hrep⟩ := h.vars x t hx
    exact ⟨v, site, w, hv, by rw [hstraight.locals, hlookup], hhas.grow hstraight.blocks,
      (hkeeps.slots site hhas).trans hslot, hrep⟩
  printed := hprinted

theorem Related.weaken (hsub : Γ.Sublist Δ) (h : Related S Δ log σ m a printed) :
    Related S Γ log σ m a printed :=
  ⟨h.isOpen, h.declarations, h.nodup.sublist (List.Sublist.append_left (hsub.map _) _), h.still,
    h.function, h.site, h.params, fun x t hx => h.vars x t (hsub.subset hx), h.printed⟩

/-- A statement that binds nothing is logged. -/
theorem Related.record (h : Related S Γ log σ m a printed) {n : Node} (hn : ∀ d w, n ≠ .assign d w)
    (v : Value) : Related S Γ ((n, v) :: log) σ (m.record n v) a printed :=
  ⟨h.isOpen, h.declarations, h.nodup, h.still.record n v, h.function, h.site, h.params,
    fun x t hx => by rw [latestBinding?_record hn]; exact h.vars x t hx, h.printed⟩

end

end IR

end Swiftlet
