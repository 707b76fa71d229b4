import Swiftlet.Proofs.Run.Completion
import Swiftlet.Proofs.Run.Parsed
import Swiftlet.Proofs.Typing.Repeated

/-!
# The log of a run

The log in the report of a run is made of statements of the entry function's body. It has no statement
twice, and leaves none out but those behind a `return` or a failure and those within an `if` that was
not taken.

* `listing` — the statements of a body with the paths to them, those of an `if` before the `if` itself;
  `direct` are those of the body itself.
* `own` — what is left to do of the entry function's body, behind all calls and arguments in progress.
  `State.remaining` are the statements in it.
* `State.Regular` — what every step of a parsed program keeps.
* `State.Leaves` — what a step does to the rest of the entry function's body.

Principal results: `remaining_step` for one step, `Completes.sublist`, `Completes.isPrefix` and
`Completes.whole` for any number of steps, and `log_completed` for whole runs.
-/

namespace Swiftlet

namespace Run

/-! ## The statements of a body -/

mutual

/-- The statements of a node, whose path is given. -/
def nodeListing (path : Path) : Node → List (Path × Node)
  | .cond t c body => listing path body ++ [(path, .cond t c body)]
  | n => [(path, n)]

/-- The statements of a body, those of an `if` before the `if` itself. The path is that of the `if` that
has the body. -/
def listing (path : Path) : List Node → List (Path × Node)
  | [] => []
  | n :: rest => nodeListing (rest.length :: path) n ++ listing path rest

end

/-- Induction on the statements of a body, at any depth. -/
theorem body_induction {motive : List Node → Prop} (nil : motive [])
    (cond : ∀ t c body rest, motive body → motive rest → motive (.cond t c body :: rest))
    (other : ∀ n rest, (∀ t c body, n ≠ .cond t c body) → motive rest → motive (n :: rest))
    (ns : List Node) : motive ns := by
  cases ns with
  | nil => exact nil
  | cons n rest =>
      have hrest := body_induction nil cond other rest
      by_cases hn : ∃ t c body, n = .cond t c body
      · obtain ⟨t, c, body, rfl⟩ := hn
        exact cond t c body rest (body_induction nil cond other body) hrest
      · exact other n rest (fun t c body h => hn ⟨t, c, body, h⟩) hrest
termination_by sizeOf ns

theorem listing_cond (path : Path) (t : Token) (c : Node) (body rest : List Node) :
    listing path (.cond t c body :: rest) = listing (rest.length :: path) body ++
      (rest.length :: path, .cond t c body) :: listing path rest := by
  simp [listing, nodeListing]

theorem listing_cons {n : Node} (h : ∀ t c body, n ≠ .cond t c body) (path : Path)
    (rest : List Node) :
    listing path (n :: rest) = (rest.length :: path, n) :: listing path rest := by
  cases n with
  | cond t c body => exact absurd rfl (h t c body)
  | _ => simp [listing, nodeListing]

/-- A path of the listing goes through one of the statements of the body. -/
theorem suffix_of_mem_listing {ns : List Node} {path : Path} {e : Path × Node}
    (h : e ∈ listing path ns) : ∃ k < ns.length, k :: path <:+ e.1 := by
  induction ns using body_induction generalizing path with
  | nil => simp [listing] at h
  | cond t c body rest ihbody ihrest =>
      rw [listing_cond, List.mem_append, List.mem_cons] at h
      obtain h | rfl | h := h
      · obtain ⟨k, -, hk⟩ := ihbody h
        exact ⟨rest.length, by simp, (List.suffix_cons k _).trans hk⟩
      · exact ⟨rest.length, by simp, List.suffix_refl _⟩
      · obtain ⟨k, hlt, hk⟩ := ihrest h
        exact ⟨k, Nat.lt_succ_of_lt hlt, hk⟩
  | other n rest hn ih =>
      rw [listing_cons hn, List.mem_cons] at h
      obtain rfl | h := h
      · exact ⟨rest.length, by simp, List.suffix_refl _⟩
      · obtain ⟨k, hlt, hk⟩ := ih h
        exact ⟨k, Nat.lt_succ_of_lt hlt, hk⟩

/-- What stands in a body does not stand behind it. -/
theorem not_mem_listing {rest : List Node} {path p : Path} (h : rest.length :: path <:+ p) :
    p ∉ (listing path rest).map Prod.fst := by
  intro hp
  obtain ⟨e, he, rfl⟩ := List.mem_map.1 hp
  obtain ⟨k, hlt, hk⟩ := suffix_of_mem_listing he
  have hsame := (List.suffix_of_suffix_length_le hk h (by simp)).eq_of_length (by simp)
  exact absurd (List.cons.inj hsame).1 (Nat.ne_of_lt hlt)

/-- **No statement is listed twice.** -/
theorem nodup_listing (ns : List Node) (path : Path) : ((listing path ns).map Prod.fst).Nodup := by
  induction ns using body_induction generalizing path with
  | nil => simp [listing]
  | cond t c body rest ihbody ihrest =>
      rw [listing_cond, List.map_append, List.map_cons, List.nodup_append, List.nodup_cons]
      refine ⟨ihbody _, ⟨not_mem_listing (List.suffix_refl _), ihrest path⟩, ?_⟩
      intro p hp q hq hpq
      obtain ⟨e, he, rfl⟩ := List.mem_map.1 hp
      obtain ⟨k, -, hk⟩ := suffix_of_mem_listing he
      rcases List.mem_cons.1 hq with rfl | hq
      · exact absurd (hpq ▸ hk.length_le) (Nat.not_succ_le_self _)
      · exact not_mem_listing ((List.suffix_cons k _).trans hk) (hpq ▸ hq)
  | other n rest hn ih =>
      rw [listing_cons hn, List.map_cons, List.nodup_cons]
      exact ⟨not_mem_listing (List.suffix_refl _), ih path⟩

/-- The statements of the body of the function itself. -/
def direct (es : List (Path × Node)) : List Node := (es.filter (·.1.length = 1)).map Prod.snd

@[simp] theorem direct_nil : direct [] = [] := rfl

@[simp] theorem direct_append (es es' : List (Path × Node)) :
    direct (es ++ es') = direct es ++ direct es' := by
  simp [direct]

theorem direct_cons (e : Path × Node) (es : List (Path × Node)) :
    direct (e :: es) = direct [e] ++ direct es := direct_append [e] es

/-- Within an `if` there are none. -/
theorem direct_listing_of_ne {path : Path} (h : path ≠ []) (ns : List Node) :
    direct (listing path ns) = [] := by
  have hnone : (listing path ns).filter (·.1.length = 1) = [] := by
    refine List.filter_eq_nil_iff.2 fun e he => ?_
    obtain ⟨k, -, hk⟩ := suffix_of_mem_listing he
    have hlength := hk.length_le
    have hpos := List.length_pos_iff.2 h
    rw [List.length_cons] at hlength
    simp only [decide_eq_true_eq]
    omega
  rw [direct, hnone, List.map_nil]

theorem direct_listing (ns : List Node) : direct (listing [] ns) = ns := by
  induction ns with
  | nil => simp [listing]
  | cons n rest ih =>
      by_cases hn : ∃ t c body, n = .cond t c body
      · obtain ⟨t, c, body, rfl⟩ := hn
        rw [listing_cond, direct_append, direct_listing_of_ne (List.cons_ne_nil _ _), direct_cons, ih]
        rfl
      · rw [listing_cons fun t c body h => hn ⟨t, c, body, h⟩, direct_cons, ih]
        rfl

section

variable {program : List Node} {s s' : State}

/-! ## What is left of the entry function's body -/

/-- What is left to do behind all calls and arguments in progress. -/
def own : List Pending → List Pending
  | [] => []
  | p :: ps => if (outer (p :: ps)).isEmpty then p :: ps else own ps

/-- The statements that are left, in a body with the path given. -/
def Control.statements (path : Path) : Control → List (Path × Node)
  | .exec body => listing path body
  | _ => []

def Pending.statements (path : Path) : Pending → List (Path × Node)
  | .log n rest => (rest.length :: path, n) :: listing path rest
  | .branch _ body => listing path body
  | _ => []

def statementsIn : List Pending → List (Path × Node)
  | [] => []
  | p :: ps => p.statements (path ps) ++ statementsIn ps

namespace State

/-- The entry function's body runs, and no argument is evaluated for a callee. -/
def IsOwn (s : State) : Prop := outer s.pending = []

/-- The statements of the entry function's body that are left to complete. -/
def remaining (s : State) : List (Path × Node) :=
  (if (outer s.pending).isEmpty then s.control.statements (path s.pending) else []) ++
    statementsIn (own s.pending)

end State

theorem own_of_outer {ps : List Pending} (h : outer ps = []) : own ps = ps := by
  cases ps with
  | nil => rfl
  | cons p ps => rw [own, h]; rfl

theorem own_outer {ps : List Pending} (h : outer ps ≠ []) : own (outer ps) = own ps := by
  induction ps with
  | nil => exact absurd rfl h
  | cons p ps ih =>
      by_cases hp : p.IsLocal
      · have hempty : (outer (p :: ps)).isEmpty = false := by simpa using h
        rw [outer_cons hp] at h ⊢
        rw [ih h, own, hempty]
        rfl
      · cases p with
        | leave | cache => rfl
        | _ => exact absurd trivial hp

@[simp] theorem own_leave (ps : List Pending) : own (.leave :: ps) = own ps := rfl

@[simp] theorem own_cache (x : Bytes) (a : Activation) (ps : List Pending) :
    own (.cache x a :: ps) = own ps := rfl

theorem State.IsOwn.remaining (h : s.IsOwn) :
    s.remaining = s.control.statements (path s.pending) ++ statementsIn s.pending := by
  rw [State.remaining, h, own_of_outer h]
  rfl

theorem remaining_of_not_own (h : ¬s.IsOwn) : s.remaining = statementsIn (own s.pending) := by
  have hempty : (outer s.pending).isEmpty = false := by simpa [State.IsOwn] using h
  rw [State.remaining, hempty]
  rfl

theorem remaining_of_statements (h : s.control.statements (path s.pending) = []) :
    s.remaining = statementsIn (own s.pending) := by
  simp [State.remaining, h]

theorem Control.statements_of_code {c : Control} (h : c.code = []) (path : Path) :
    c.statements path = [] := by
  cases c with
  | exec body =>
      cases h
      rfl
  | _ => rfl

/-- **What goes on in calls and arguments leaves the rest of the entry function's body as it is.** -/
theorem Move.remaining_eq (h : Move program s s') (hs : ¬s.IsOwn) : s'.remaining = s.remaining := by
  rw [remaining_of_not_own hs]
  cases h with
  | within h =>
      have hs' : ¬s'.IsOwn := by rwa [State.IsOwn, h.outer]
      rw [remaining_of_not_own hs', ← own_outer hs, ← own_outer hs', h.outer]
  | enter _ _ _ _ h =>
      subst h
      exact remaining_of_not_own (List.cons_ne_nil _ _)
  | force _ _ _ _ _ h =>
      subst h
      exact remaining_of_not_own (List.cons_ne_nil _ _)
  | leave hpending _ hcode =>
      rw [remaining_of_statements (Control.statements_of_code hcode _), hpending, own_leave]
  | resume hpending hactive _ =>
      have hcode : s'.control.code = [] := by
        obtain ⟨v, hcontrol, -⟩ | ⟨⟨e, hcontrol⟩, -⟩ := hactive <;> rw [hcontrol] <;> rfl
      rw [remaining_of_statements (Control.statements_of_code hcode _), hpending, own_cache]

theorem remaining_of_ended {r : Report} (h : step program s = .ended r) : s.remaining = [] := by
  have hpending := pending_of_ended h
  have hstatements : s.control.statements (path s.pending) = [] := by
    unfold step at h
    split at h
    all_goals cases h
    all_goals
      rename_i hcontrol _
      rw [hcontrol]
      rfl
  rw [remaining_of_statements hstatements, hpending]
  rfl

/-- What is left to do for the value of an expression has no statements. -/
theorem statementsIn_own_cons {p : Pending} {ps : List Pending} (hp : p.IsLocal)
    (hnone : p.statements (path ps) = []) : statementsIn (own (p :: ps)) = statementsIn (own ps) := by
  by_cases houter : outer ps = []
  · rw [own_of_outer ((outer_cons hp ps).trans houter), own_of_outer houter, statementsIn, hnone]
    rfl
  · rw [← own_outer houter, ← own_outer (outer_cons hp ps ▸ houter), outer_cons hp]

theorem remaining_lookup (name : Token) : (s.lookup name).remaining = statementsIn (own s.pending) := by
  unfold State.lookup
  split
  · exact remaining_of_statements rfl
  · split
    · split
      · exact remaining_of_statements rfl
      · exact remaining_of_statements rfl
    · split <;> exact remaining_of_statements rfl

/-- The evaluation of what is not an `if` begins with no statement. -/
theorem remaining_eval {n : Node} (hn : ∀ t c body, n ≠ .cond t c body) :
    (s.eval program n).remaining = statementsIn (own s.pending) := by
  cases n with
  | ref name => exact remaining_lookup name
  | cond t c body => exact absurd rfl (hn t c body)
  | binary l op r =>
      exact (remaining_of_statements rfl).trans (statementsIn_own_cons trivial rfl)
  | print t args =>
      cases args with
      | nil => exact remaining_of_statements rfl
      | cons a more => exact (remaining_of_statements rfl).trans (statementsIn_own_cons trivial rfl)
  | call name actuals =>
      simp only [State.eval]
      split
      · exact remaining_of_statements rfl
      · unfold State.enter
        split
        · exact remaining_of_statements rfl
        · exact remaining_of_not_own (List.cons_ne_nil _ _)
  | _ => exact remaining_of_statements rfl

/-- A body begins with all its statements. -/
theorem remaining_exec (hown : s.IsOwn) {body : List Node} (hcontrol : s.control = .exec body) :
    (s.exec body).remaining = s.remaining := by
  rw [hown.remaining, hcontrol]
  cases body with
  | nil => rw [State.exec, remaining_of_statements rfl]; exact congrArg _ (own_of_outer hown)
  | cons n rest =>
      by_cases hn : ∃ t c body, n = .cond t c body
      · obtain ⟨t, c, body, rfl⟩ := hn
        have hnext : (s.exec (.cond t c body :: rest)).IsOwn := hown
        rw [hnext.remaining, Control.statements, listing_cond]
        simp [State.exec, Control.statements, statementsIn, Pending.statements, path]
      · have hn : ∀ t c body, n ≠ .cond t c body := fun t c body h => hn ⟨t, c, body, h⟩
        have hnext : (s.exec (n :: rest)).IsOwn := by rwa [State.exec_cons hn]
        rw [hnext.remaining, Control.statements, listing_cons hn, State.exec_cons hn]
        simp [Control.statements, statementsIn, Pending.statements]

end

/-! ## What a step leaves of the entry function's body -/

section

variable {P : Token → Prop} {program : List Node} {s s' : State} {ps : List Pending}

/-- Bodies are run for functions. -/
theorem Awaits.outer_eq (h : Awaits P true ps) : outer ps = [] ∨ ∃ qs, outer ps = .leave :: qs := by
  generalize hb : true = b at h
  induction h with
  | nil => exact .inl rfl
  | leave => exact .inr ⟨_, rfl⟩
  | log _ _ ih => exact ih rfl
  | right | operate | emit | branch | cache => cases hb

/-- The body of the function itself is not left in an `if`. -/
theorem Awaits.eq_nil (h : Awaits P true ps) (hown : outer ps = []) (hpath : path ps = []) :
    ps = [] := by
  cases h with
  | nil => rfl
  | leave => cases hown
  | log => cases hpath

theorem Nested.tail_ne_nil {depths : List Nat} {qs : List Pending} (h : Nested depths ps)
    (hps : outer ps = .leave :: qs) : depths.tail ≠ [] := by
  induction ps with
  | nil => cases hps
  | cons p ps ih =>
      cases p with
      | leave => exact h.2.2.ne_nil
      | cache => cases hps
      | _ => exact ih h.2.2 hps

/-- What every step of a parsed program keeps. -/
structure State.Regular (P : Token → Prop) (s : State) : Prop where
  nested : s.IsNested
  balanced : s.Balanced
  parsed : s.IsParsed P

namespace State.Regular

theorem step (hprogram : ∀ n ∈ program, n.IsStatement P) (h : s.Regular P)
    (hstep : step program s = .running s') : s'.Regular P :=
  ⟨h.nested.step hstep, (move_of_step h.nested hstep).balanced h.balanced, h.parsed.step hprogram hstep⟩

theorem callers_eq_nil (h : s.Regular P) (hown : s.IsOwn) : s.callers = [] := by
  have hbalanced := h.balanced
  unfold State.Balanced State.callsInProgress State.argumentsInProgress at hbalanced
  rw [← entered_outer, ← forced_outer, hown] at hbalanced
  exact List.eq_nil_of_length_eq_zero (Nat.add_eq_zero_iff.1 hbalanced.symm).1

/-- A statement is completed in the activation without callers only for the entry function's body. -/
theorem isOwn (h : s.Regular P) {n : Node} {rest : List Node} (hcallers : s.callers = [])
    (hpending : s.pending = .log n rest :: ps) : s.IsOwn := by
  have hawaits := h.parsed.pending
  rw [hpending] at hawaits
  generalize s.control.mayReturn = b at hawaits
  cases hawaits with
  | log _ hps =>
      have houter : outer s.pending = outer ps := by rw [hpending]; rfl
      rcases hps.outer_eq with hown | ⟨qs, hleave⟩
      · exact houter.trans hown
      · have hne := h.nested.tail_ne_nil (houter.trans hleave)
        simp [State.depths, hcallers] at hne

theorem completes?_of_not_own (h : s.Regular P) (hown : ¬s.IsOwn) : s.completes? = none := by
  unfold State.completes?
  split
  · rename_i hcallers _ hpending
    exact absurd (h.isOwn hcallers hpending) hown
  · rfl

end State.Regular

/-- The body of the entry function has returned. -/
def State.HasReturned (s : State) : Prop := s.IsOwn ∧ ∃ v, s.control = .result v true

/-- Nothing more is run of the entry function's body. -/
def State.IsOver (s : State) : Prop := (∃ e, s.control = .failed e) ∨ s.HasReturned

theorem direct_of_path {path : Path} (h : path ≠ []) (k : Nat) (n : Node) :
    direct [(k :: path, n)] = [] := by
  rw [direct, List.filter_cons_of_neg (by simpa using h)]
  rfl

/-- What a failure passes by is within an `if`, or it is all that was left. -/
theorem Awaits.direct_statements {b : Bool} {p : Pending} (h : Awaits P b (p :: ps))
    (hown : outer ps = []) : direct (p.statements (path ps)) = [] ∨ ps = [] := by
  cases h with
  | log _ hps =>
      by_cases hpath : path ps = []
      · exact .inr (hps.eq_nil hown hpath)
      · rw [Pending.statements, direct_cons, direct_of_path hpath, direct_listing_of_ne hpath]
        exact .inl rfl
  | branch => exact .inl (direct_listing_of_ne (List.cons_ne_nil _ _) _)
  | _ => exact .inl rfl

/-- What a step does to the rest of the entry function's body: it completes the first statement, or
drops statements within an `if`, or all that is left. -/
def State.Leaves (s s' : State) : Prop :=
  ∃ dropped, s.remaining = s.completes?.toList.map Completion.statement ++ (dropped ++ s'.remaining) ∧
    (direct dropped = [] ∨ s'.remaining = [] ∧ s'.IsOver)

theorem State.Leaves.of_eq (hnone : s.completes? = none) (h : s'.remaining = s.remaining) :
    s.Leaves s' :=
  ⟨[], by simp [hnone, h], .inl rfl⟩

theorem isLocal_of_outer {p : Pending} (h : outer (p :: ps) = []) : p.IsLocal := by
  cases p with
  | leave | cache => cases h
  | _ => trivial

theorem leaves_proceed (h : s.Regular P) (hown : s.IsOwn) {v : Value} {returned : Bool} {p : Pending}
    (hcontrol : s.control = .result v returned) (hpending : s.pending = p :: ps) :
    s.Leaves ({ s with pending := ps }.proceed v returned p) := by
  have hcallers := h.callers_eq_nil hown
  have hawaits := h.parsed.pending
  obtain ⟨c, active, callers, sink, pending⟩ := s
  cases hcontrol
  cases hpending
  cases hcallers
  have hbehind : outer ps = [] := (outer_cons (isLocal_of_outer hown) ps).symm.trans hown
  have hrest : statementsIn (own ps) = statementsIn ps := by rw [own_of_outer hbehind]
  have hremaining : State.remaining ⟨.result v returned, active, [], sink, p :: ps⟩ =
      p.statements (path ps) ++ statementsIn ps := hown.remaining
  cases hawaits with
  | leave | cache => cases hown
  | @right op n _ _ _ =>
      have hoperate : statementsIn (own (.operate op v :: ps)) = statementsIn (own ps) :=
        statementsIn_own_cons trivial rfl
      refine .of_eq rfl (Eq.trans ?_ hremaining.symm)
      exact (remaining_of_statements rfl).trans (hoperate.trans hrest)
  | operate _ =>
      refine .of_eq rfl (Eq.trans ?_ hremaining.symm)
      simp only [State.proceed]
      split <;> exact (remaining_of_statements rfl).trans hrest
  | emit _ =>
      refine .of_eq rfl (Eq.trans ?_ hremaining.symm)
      simp only [State.proceed]
      split
      · split <;> exact (remaining_of_statements rfl).trans hrest
      · exact (remaining_of_statements rfl).trans hrest
  | @branch t body n rest qs _ _ =>
      have hskipped : direct (listing (rest.length :: path qs) body) = [] :=
        direct_listing_of_ne (List.cons_ne_nil _ _) body
      simp only [State.proceed]
      split
      · have hbody : State.IsOwn ⟨.exec body, active, [], sink, .log n rest :: qs⟩ := hbehind
        exact .of_eq rfl (hbody.remaining.trans hremaining.symm)
      · refine ⟨_, hremaining.trans ?_, .inl hskipped⟩
        rw [remaining_of_statements rfl]
        exact congrArg _ hrest.symm
      · refine ⟨_, hremaining.trans ?_, .inl hskipped⟩
        rw [remaining_of_statements rfl]
        exact congrArg _ hrest.symm
  | @log _ n rest _ _ hps =>
      simp only [State.proceed]
      split
      · -- a `return`: the rest of this body is not run
        refine ⟨listing (path ps) rest, hremaining.trans ?_, ?_⟩
        · rw [remaining_of_statements rfl]
          exact congrArg (_ :: listing (path ps) rest ++ ·) hrest.symm
        · by_cases hpath : path ps = []
          · cases hps.eq_nil hbehind hpath
            exact .inr ⟨rfl, .inr ⟨rfl, v, rfl⟩⟩
          · exact .inl (direct_listing_of_ne hpath rest)
      · have hbody : State.IsOwn ({ (State.record ⟨.result v returned, active, [], sink, ps⟩ n v) with
            control := .exec rest }) := hbehind
        exact ⟨[], hremaining.trans (congrArg (_ :: ·) hbody.remaining.symm), .inl rfl⟩

theorem leaves_unwind (h : s.Regular P) (hown : s.IsOwn) {e : Failure} {p : Pending}
    (hcontrol : s.control = .failed e) (hpending : s.pending = p :: ps) :
    s.Leaves ({ s with pending := ps }.unwind p) := by
  have hawaits := h.parsed.pending
  obtain ⟨c, active, callers, sink, pending⟩ := s
  cases hcontrol
  cases hpending
  have hlocal : p.IsLocal := isLocal_of_outer hown
  have hbehind : outer ps = [] := (outer_cons hlocal ps).symm.trans hown
  rw [State.unwind_of_isLocal hlocal]
  have hrest : State.remaining ⟨.failed e, active, callers, sink, ps⟩ = statementsIn ps :=
    State.IsOwn.remaining hbehind
  refine ⟨p.statements (path ps), ?_, ?_⟩
  · have hnone : State.completes? ⟨.failed e, active, callers, sink, p :: ps⟩ = none := by
      cases callers <;> rfl
    rw [hnone, hrest]
    exact hown.remaining
  · rcases hawaits.direct_statements hbehind with hnested | rfl
    · exact .inl hnested
    · exact .inr ⟨hrest, .inl ⟨e, rfl⟩⟩

/-- **What a step does to the rest of the entry function's body.** -/
theorem remaining_step (h : s.Regular P) (hstep : step program s = .running s') : s.Leaves s' := by
  by_cases hown : s.IsOwn
  · unfold step at hstep
    split at hstep
    · rename_i n hcontrol
      cases hstep
      have hn : ∀ t c body, n ≠ .cond t c body := by
        have hparsed := h.parsed.control
        rw [hcontrol] at hparsed
        exact hparsed.2
      refine .of_eq (by simp [State.completes?, hcontrol]) ?_
      rw [remaining_eval hn, hown.remaining, hcontrol, own_of_outer hown]
      rfl
    · rename_i body hcontrol
      cases hstep
      exact .of_eq (by simp [State.completes?, hcontrol]) (remaining_exec hown hcontrol)
    · rename_i hcontrol hpending
      cases hstep
      exact leaves_proceed h hown hcontrol hpending
    · cases hstep
    · rename_i hcontrol hpending
      cases hstep
      exact leaves_unwind h hown hcontrol hpending
    · cases hstep
  · have hmove := move_of_step h.nested hstep
    exact .of_eq (h.completes?_of_not_own hown) (hmove.remaining_eq hown)

/-! ## Returns -/

theorem control_lookup (name : Token) (v : Value) : (s.lookup name).control ≠ .result v true := by
  unfold State.lookup
  split
  · simp [State.give]
  · split
    · split <;> simp [State.fail]
    · split <;> simp [State.give, State.fail]

theorem control_eval (n : Node) (v : Value) : (s.eval program n).control ≠ .result v true := by
  cases n with
  | ref name => exact control_lookup name v
  | print t args => cases args <;> simp [State.eval, State.fail]
  | call name actuals =>
      simp only [State.eval]
      split
      · simp [State.fail]
      · unfold State.enter
        split <;> simp [State.fail]
  | _ => simp [State.eval, State.give, State.fail]

theorem control_exec (body : List Node) (v : Value) : (s.exec body).control ≠ .result v true := by
  unfold State.exec
  split <;> simp [State.give]

theorem control_proceed {p : Pending} (hp : ∀ n rest, p ≠ .log n rest) (w : Value) (returned : Bool)
    (v : Value) : (s.proceed w returned p).control ≠ .result v true := by
  cases p with
  | log n rest => exact absurd rfl (hp n rest)
  | right | discard | leave | cache => simp [State.proceed, State.give]
  | operate | branch =>
      simp only [State.proceed]
      split <;> simp [State.give, State.fail]
  | emit =>
      simp only [State.proceed]
      split
      · split <;> simp [State.give, State.fail]
      · simp [State.fail]

/-- Only a statement passes on that a `return` was reached. -/
theorem result_true_of_step {v : Value} (hstep : step program s = .running s')
    (hresult : s'.control = .result v true) :
    ∃ returned n rest, s.control = .result v returned ∧ s.pending = .log n rest :: s'.pending ∧
      (returned || n.isReturn) = true := by
  unfold step at hstep
  split at hstep
  · cases hstep
    exact absurd hresult (control_eval _ v)
  · cases hstep
    exact absurd hresult (control_exec _ v)
  · rename_i w returned p ps hcontrol hpending
    cases hstep
    by_cases hp : ∃ n rest, p = .log n rest
    · obtain ⟨n, rest, rfl⟩ := hp
      simp only [State.proceed] at hresult ⊢
      split at hresult
      · rename_i hreturned
        cases hresult
        exact ⟨returned, n, rest, hcontrol, by rw [if_pos hreturned, hpending]; rfl, hreturned⟩
      · cases hresult
    · exact absurd hresult (control_proceed (fun n rest h => hp ⟨n, rest, h⟩) w returned v)
  · cases hstep
  · rename_i e p ps hcontrol hpending
    have hunwind : step program s = .running s' := by simp only [step, hcontrol, hpending, ← hstep]
    cases hresult.symm.trans (failed_of_step hcontrol hunwind)
  · cases hstep

/-- The `return` is among the completed statements. -/
theorem State.HasReturned.before (h : s.Regular P) (hstep : step program s = .running s')
    (hreturned : s'.HasReturned) :
    s.HasReturned ∨ ∃ c ∈ s.completes?, c.node.isReturn = true := by
  obtain ⟨hown', v, hresult⟩ := hreturned
  obtain ⟨returned, n, rest, hcontrol, hpending, hflag⟩ := result_true_of_step hstep hresult
  have hown : s.IsOwn := by rw [State.IsOwn, hpending]; exact hown'
  cases returned with
  | true => exact .inl ⟨hown, v, hcontrol⟩
  | false =>
      have hcallers := h.callers_eq_nil hown
      refine .inr ⟨⟨rest.length :: path s'.pending, n, v⟩, ?_, hflag⟩
      simp [State.completes?, hcallers, hcontrol, hpending]

/-! ## Whole runs -/

namespace Completes

variable {done : List Completion}

/-- **The completed statements come in the order of the listing.** -/
theorem sublist (hprogram : ∀ n ∈ program, n.IsStatement P) (h : Completes program s done s')
    (hs : s.Regular P) :
    List.Sublist (done.map Completion.statement ++ s'.remaining) s.remaining := by
  induction h with
  | refl => exact List.Sublist.refl _
  | step hstep _ ih =>
      obtain ⟨dropped, hremaining, -⟩ := remaining_step hs hstep
      have hrest := ih (hs.step hprogram hstep)
      rw [hremaining, List.map_append, List.append_assoc]
      exact (hrest.trans (List.sublist_append_right _ _)).append_left _

/-- **The completed direct statements are the first of the body.** -/
theorem isPrefix (hprogram : ∀ n ∈ program, n.IsStatement P) (h : Completes program s done s')
    (hs : s.Regular P) :
    direct (done.map Completion.statement) ++ direct s'.remaining <+: direct s.remaining := by
  induction h with
  | refl => exact List.prefix_refl _
  | step hstep _ ih =>
      obtain ⟨dropped, hremaining, hdropped⟩ := remaining_step hs hstep
      have hrest := ih (hs.step hprogram hstep)
      rw [hremaining, List.map_append, direct_append, direct_append, direct_append, List.append_assoc,
        List.prefix_append_right_inj]
      rcases hdropped with hnone | ⟨hnil, -⟩
      · rwa [hnone]
      · rw [hnil] at hrest ⊢
        rw [List.prefix_nil.1 hrest]
        exact List.nil_prefix

/-- **A body that neither fails nor returns is completed.** -/
theorem whole (hprogram : ∀ n ∈ program, n.IsStatement P) (h : Completes program s done s')
    (hs : s.Regular P) (hreturned : ¬s.HasReturned) (hfailed : ∀ e, s'.control ≠ .failed e)
    (hdone : ∀ c ∈ done, c.node.isReturn = false) :
    direct (done.map Completion.statement) ++ direct s'.remaining = direct s.remaining := by
  induction h with
  | refl => rfl
  | step hstep hlater ih =>
      rw [List.forall_mem_append] at hdone
      have hnone : ¬State.HasReturned _ := fun hnext =>
        match hnext.before hs hstep with
        | .inl hbefore => hreturned hbefore
        | .inr ⟨c, hc, hreturn⟩ => by
          have hother := hdone.1 c (Option.mem_toList.2 hc)
          rw [hreturn] at hother
          cases hother
      have hrest := ih (hs.step hprogram hstep) hnone hfailed hdone.2
      obtain ⟨dropped, hremaining, hdropped⟩ := remaining_step hs hstep
      rw [hremaining, List.map_append, direct_append, direct_append, direct_append, List.append_assoc,
        hrest]
      rcases hdropped with hdirect | ⟨-, ⟨e, hover⟩ | hover⟩
      · rw [hdirect]
        rfl
      · exact absurd (hlater.failed hover) (hfailed e)
      · exact absurd hover hnone

end Completes

/-- The body that a run of `entry` runs; there is nothing in it if there is no such function. -/
def entryBody (entry : Bytes) (program : List Node) : List Node :=
  ((findFunction? program entry).map Prod.snd).getD []

theorem start_regular (hprogram : ∀ n ∈ program, n.IsStatement P) {entry : Bytes} {sink : Sink}
    (h : start entry program sink = .running s) :
    s.Regular P ∧ s.control = .exec (entryBody entry program) ∧ s.pending = [] ∧
      s.bottom.frame.log = [] := by
  obtain ⟨hnested, hbalanced, -⟩ := start_running h
  unfold start at h
  split at h
  · cases h
  · rename_i sig body hfound
    cases h
    have hbody := (hprogram _ (mem_of_findFunction? hfound).1).func_body
    refine ⟨⟨hnested, hbalanced, hbody, .nil, by simp, by simp⟩, ?_, rfl, rfl⟩
    rw [entryBody, hfound]
    rfl

/-- **The log of a run is what the entry function has completed.** Take a parsed program, checked or
not. The log has the statements that the steps of the run complete in the activation that it began with, and
nothing of any other activation. They come in the order of the listing of the entry function's body,
none of them twice. Those of the body itself are its first statements, and all of them if the run
succeeds without a `return`. -/
theorem log_completed {tokens : List Token} {program tree : List Node}
    (hparse : Parsing.parse tokens = .ok program) (entries : List Bytes)
    (htree : entries.foldl (fun tree e => Typing.after e tree) program = tree) (entry : Bytes)
    (sink : Sink) :
    ∃ k, after tree k (start entry tree sink) = .ended (run entry tree sink) ∧
      ∀ done, completions tree k (start entry tree sink) = done →
        (run entry tree sink).log = done.map Completion.entry ∧
        List.Sublist (done.map Completion.statement) (listing [] (entryBody entry tree)) ∧
        (done.map Completion.path).Nodup ∧
        direct (done.map Completion.statement) <+: entryBody entry tree ∧
        ∀ v, (run entry tree sink).result = .ok v → (∀ c ∈ done, c.node.isReturn = false) →
          direct (done.map Completion.statement) = entryBody entry tree := by
  have hfresh := Parsing.parse_grown (fun _ _ => trivial) hparse
  have hleft : Typing.Left program tree := htree ▸ Typing.Left.afterAll hfresh (.inl rfl) entries
  have hshape := hleft.isStatement hfresh
  obtain ⟨k, hk⟩ := steps_run entry tree sink
  refine ⟨k, hk, ?_⟩
  rintro done rfl
  cases hstart : start entry tree sink with
  | ended r =>
      rw [hstart, after_ended] at hk
      obtain rfl := Stage.ended.inj hk
      have hnone : findFunction? tree entry = none := by
        unfold start at hstart
        split at hstart
        · assumption
        · cases hstart
      rw [completions_ended, entryBody, run, hnone]
      simp
  | running s =>
      rw [hstart] at hk
      obtain ⟨hs, hcontrol, hpending, hlog⟩ := start_regular hshape hstart
      obtain ⟨s', hcompletes, hend⟩ := completes_of_ended hk
      obtain ⟨hreport, -, hfails⟩ := report_of_ended (hcompletes.balanced hs.nested hs.balanced) hend
      have hremaining := remaining_of_ended hend
      have hown : s.IsOwn := by rw [State.IsOwn, hpending]; rfl
      have hbody : s.remaining = listing [] (entryBody entry tree) := by
        rw [hown.remaining, hcontrol, hpending]
        exact List.append_nil _
      have hsublist := hcompletes.sublist hshape hs
      have hprefix := hcompletes.isPrefix hshape hs
      rw [hbody, hremaining, List.append_nil] at hsublist
      rw [hbody, hremaining, direct_nil, List.append_nil, direct_listing] at hprefix
      refine ⟨?_, hsublist, ?_, hprefix, fun v hv hnone => ?_⟩
      · rw [hreport, hcompletes.log_eq, hlog]
        simp
      · have hpaths := (nodup_listing (entryBody entry tree) []).sublist (hsublist.map Prod.fst)
        rwa [List.map_map] at hpaths
      · have hwhole := hcompletes.whole hshape hs (by simp [State.HasReturned, hcontrol])
          (fun e he => by cases hv.symm.trans ((hfails e).2 he)) hnone
        rwa [hbody, hremaining, direct_nil, List.append_nil, direct_listing] at hwhole

open Parsing in
/-- A run that binds and prints within an `if` and calls a function that calls itself. -/
theorem log_completed_halving :
    let tree := halving (some .int) (some .string)
    parse halvingTokens = .ok (halving none none) ∧
      Typing.after defaultEntry (halving none none) = tree ∧
      ∃ k, after tree k (start defaultEntry tree ⟨[], none⟩) =
          .ended (run defaultEntry tree ⟨[], none⟩) ∧
        (run defaultEntry tree ⟨[], none⟩).log =
          (completions tree k (start defaultEntry tree ⟨[], none⟩)).map Completion.entry ∧
        direct ((completions tree k (start defaultEntry tree ⟨[], none⟩)).map Completion.statement) =
          entryBody defaultEntry tree := by
  intro tree
  have htree : Typing.after defaultEntry (halving none none) = tree := by rfl
  obtain ⟨k, hk, hdone⟩ :=
    log_completed parse_halvingTokens [defaultEntry] htree defaultEntry ⟨[], none⟩
  obtain ⟨hlog, hsublist, -, -, hwhole⟩ := hdone _ rfl
  refine ⟨parse_halvingTokens, htree, k, hk, hlog, hwhole .void (by rfl) fun c hc => ?_⟩
  have hall : (listing [] (entryBody defaultEntry tree)).all (fun e => !e.2.isReturn) = true := by rfl
  have hlisted := List.all_eq_true.1 hall _ (hsublist.subset (List.mem_map_of_mem hc))
  simpa [Completion.statement] using hlisted

end

end Run

end Swiftlet
