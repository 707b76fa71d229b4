import Mathlib.Logic.Relation
import Swiftlet.Run

/-!
# What a run evaluates

A run is one call of `runBody`; everything it evaluates on the way is visible only in the recursion.
Here the recursion becomes a relation, so that "every expression that is evaluated" can be said.

* `Suspended` — an argument as data: the node, and the depth and the arguments of the frame it is to
  be evaluated in. `Suspended.force` is the function that stands for it in a run.
* `Config` — a node or a body about to be evaluated in a machine; `Config.outcome` is what becomes
  of it.
* `Config.Needs` — one configuration is evaluated as a direct part of another, one rule for every
  recursive call of `eval`, `runBody`, `lookup` and `enter`.
* `Visited` — the configurations that a run of a program comes to.

Principal results: `runBody_cons`, that a body is run statement by statement, and `Visited.induction`.
-/

namespace Swiftlet

namespace Run

/-! ## Statement by statement -/

section

variable (program : List Node) (enter : Enter) (args : List Argument)

theorem suspend_eq_map (actuals : List Node) :
    suspend program enter args actuals = actuals.map (eval program enter args) := by
  induction actuals with
  | nil => rfl
  | cons n rest ih => rw [suspend, List.map_cons, ih]

theorem runBody_single (n : Node) (m : Machine) (hn : ∀ t c body, n ≠ .cond t c body) :
    runBody program enter args [n] m =
      match eval program enter args n m with
      | .error e => .error e
      | .ok (v, m) => .ok ((if n.isReturn then v else .void, n.isReturn), m.record n v) := by
  cases n with
  | cond t c body => exact absurd rfl (hn t c body)
  | ret t v =>
      rw [runBody]
      · cases eval program enter args (.ret t v) m <;> rfl
      · exact fun _ _ _ h => nomatch h
  | _ =>
      rw [runBody]
      · cases eval program enter args _ m <;> rfl
      · exact fun _ _ _ h => nomatch h

theorem runBody_cond (t : Token) (c : Node) (body : List Node) (m : Machine) :
    runBody program enter args [.cond t c body] m =
      match branch t (eval program enter args c) (runBody program enter args body) m with
      | .error e => .error e
      | .ok ((v, true), m) => .ok ((v, true), m.record (.cond t c body) v)
      | .ok ((v, false), m) => .ok ((.void, false), m.record (.cond t c body) v) := by
  rw [runBody]
  rfl

/-- **A body is run statement by statement**, up to the first that returns. -/
theorem runBody_cons (n : Node) (rest : List Node) (m : Machine) :
    runBody program enter args (n :: rest) m =
      match runBody program enter args [n] m with
      | .error e => .error e
      | .ok ((v, true), m) => .ok ((v, true), m)
      | .ok ((_, false), m) => runBody program enter args rest m := by
  by_cases hn : ∃ t c body, n = .cond t c body
  · obtain ⟨t, c, body, rfl⟩ := hn
    rw [runBody, runBody_cond]
    cases branch t (eval program enter args c) (runBody program enter args body) m with
    | error e => rfl
    | ok r =>
        obtain ⟨⟨v, returned⟩, m'⟩ := r
        cases returned <;> rfl
  · have hne : ∀ t c body, n ≠ .cond t c body := fun t c body h => hn ⟨t, c, body, h⟩
    rw [runBody_single _ _ _ _ _ hne, runBody]
    · cases eval program enter args n m with
      | error e => rfl
      | ok r =>
          obtain ⟨v, m'⟩ := r
          cases hret : n.isReturn <;> simp
    · exact hne

end

/-! ## Configurations -/

/-- An argument that is not evaluated yet, with the depth and the arguments of its frame. -/
inductive Suspended where
  | mk (depth : Nat) (args : List Suspended) (node : Node)

mutual

/-- How to evaluate a suspended argument in the frame it comes from. -/
def Suspended.force (program : List Node) : Suspended → Argument
  | .mk depth args n => eval program (enter program depth) (forceAll program args) n

def forceAll (program : List Node) : List Suspended → List Argument
  | [] => []
  | a :: rest => a.force program :: forceAll program rest

end

theorem forceAll_eq_map (program : List Node) (args : List Suspended) :
    forceAll program args = args.map (Suspended.force program) := by
  induction args with
  | nil => rfl
  | cons a rest ih => rw [forceAll, List.map_cons, ih]

inductive Code where
  | node (n : Node)
  | body (ns : List Node)

/-- Code about to be evaluated: how many frames may be added, the arguments of the running frame and
the machine. -/
structure Config where
  depth : Nat
  args : List Suspended
  code : Code
  machine : Machine

namespace Config

/-- What a configuration comes to; a body's value is the one it returns. -/
def outcome (program : List Node) (c : Config) : Outcome Value :=
  match c.code with
  | .node n => eval program (enter program c.depth) (forceAll program c.args) n c.machine
  | .body ns =>
    match runBody program (enter program c.depth) (forceAll program c.args) ns c.machine with
    | .error e => .error e
    | .ok ((v, _), m) => .ok (v, m)

/-- `Needs program c c'`: evaluating `c` evaluates `c'` as a direct part. -/
inductive Needs (program : List Node) : Config → Config → Prop where
  | assign {k : Nat} {as : List Suspended} {d : Decl} {v : Node} {m : Machine} :
      Needs program ⟨k, as, .node (.assign d v), m⟩ ⟨k, as, .node v, m⟩
  | ret {k : Nat} {as : List Suspended} {t : Token} {v : Node} {m : Machine} :
      Needs program ⟨k, as, .node (.ret t v), m⟩ ⟨k, as, .node v, m⟩
  | printed {k : Nat} {as : List Suspended} {t : Token} {a : Node} {more : List Node}
      {m : Machine} : Needs program ⟨k, as, .node (.print t (a :: more)), m⟩ ⟨k, as, .node a, m⟩
  | left {k : Nat} {as : List Suspended} {l r : Node} {op : Token} {m : Machine} :
      Needs program ⟨k, as, .node (.binary l op r), m⟩ ⟨k, as, .node l, m⟩
  | right {k : Nat} {as : List Suspended} {l r : Node} {op : Token} {m m' : Machine} {v : Value}
      (hl : outcome program ⟨k, as, .node l, m⟩ = .ok (v, m')) :
      Needs program ⟨k, as, .node (.binary l op r), m⟩ ⟨k, as, .node r, m'⟩
  /-- A name whose value is not known yet is a suspended argument of the caller. -/
  | argument {k k' : Nat} {as as' : List Suspended} {name : Token} {i : Nat} {n : Node}
      {m : Machine} {caller : Frame} {callers : List Frame}
      (hcache : m.frame.cache.lookup name.lexeme = none)
      (hparam : m.frame.signature.paramIndex? name.lexeme = some i)
      (hcallers : m.callers = caller :: callers) (harg : as[i]? = some (.mk k' as' n)) :
      Needs program ⟨k, as, .node (.ref name), m⟩ ⟨k', as', .node n, ⟨caller, callers, m.sink⟩⟩
  /-- A call takes one frame of those that may be added and evaluates none of its arguments. -/
  | call {k : Nat} {as : List Suspended} {name : Token} {actuals : List Node} {s : Signature}
      {body : List Node} {m : Machine}
      (hfound : findFunction? program name.lexeme = some (s, body)) :
      Needs program ⟨k + 1, as, .node (.call name actuals), m⟩
        ⟨k, actuals.map (.mk (k + 1) as), .body body, m.push s⟩
  | condition {k : Nat} {as : List Suspended} {t : Token} {c : Node} {body : List Node}
      {m : Machine} : Needs program ⟨k, as, .node (.cond t c body), m⟩ ⟨k, as, .node c, m⟩
  | branch {k : Nat} {as : List Suspended} {t : Token} {c : Node} {body : List Node}
      {m m' : Machine} (hc : outcome program ⟨k, as, .node c, m⟩ = .ok (.bool true, m')) :
      Needs program ⟨k, as, .node (.cond t c body), m⟩ ⟨k, as, .body body, m'⟩
  | first {k : Nat} {as : List Suspended} {n : Node} {rest : List Node} {m : Machine} :
      Needs program ⟨k, as, .body (n :: rest), m⟩ ⟨k, as, .node n, m⟩
  /-- The rest of a body follows a statement that does not return. -/
  | rest {k : Nat} {as : List Suspended} {n : Node} {rest : List Node} {m m' : Machine} {v : Value}
      (hn : runBody program (enter program k) (forceAll program as) [n] m = .ok ((v, false), m')) :
      Needs program ⟨k, as, .body (n :: rest), m⟩ ⟨k, as, .body rest, m'⟩

/-- The configuration that a run of the function `s` with body `body` begins with. -/
def start (s : Signature) (body : List Node) (sink : Sink) : Config :=
  ⟨maxCallDepth, [], .body body, ⟨⟨s, [], []⟩, [], sink⟩⟩

end Config

theorem suspend_eq_forceAll (program : List Node) (k : Nat) (as : List Suspended)
    (actuals : List Node) :
    suspend program (enter program k) (forceAll program as) actuals =
      forceAll program (actuals.map (.mk k as)) := by
  rw [suspend_eq_map, forceAll_eq_map program (actuals.map _), List.map_map]
  refine List.map_congr_left fun n _ => ?_
  rw [Function.comp_apply, Suspended.force]

/-- The configurations that a run evaluates. -/
def Visited (entry : Bytes) (program : List Node) (sink : Sink) (c : Config) : Prop :=
  ∃ s body, findFunction? program entry = some (s, body) ∧
    Relation.ReflTransGen (Config.Needs program) (Config.start s body sink) c

/-- What holds at the start and goes from each configuration to those it needs holds of every
configuration of a run. -/
theorem Visited.induction {entry : Bytes} {program : List Node} {sink : Sink} {P : Config → Prop}
    {s : Signature} {body : List Node} (hentry : findFunction? program entry = some (s, body))
    (hstart : P (.start s body sink)) (hstep : ∀ c c', P c → Config.Needs program c c' → P c')
    {c : Config} (h : Visited entry program sink c) : P c := by
  obtain ⟨s', body', hentry', hreach⟩ := h
  rw [hentry, Option.some.injEq, Prod.mk.injEq] at hentry'
  obtain ⟨rfl, rfl⟩ := hentry'
  induction hreach with
  | refl => exact hstart
  | tail _ hneeds ih => exact hstep _ _ ih hneeds

end Run

end Swiftlet
