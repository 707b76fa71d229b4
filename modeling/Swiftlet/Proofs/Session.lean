import Mathlib.Data.List.Basic
import Mathlib.Data.List.Forall2
import Swiftlet.Session

/-!
# Sessions and their programs

A session is the sequence of its programs. Which lines make up a program depends on the lines alone,
never on what a program does, and what is written is what each of the programs writes on its own. A
program that crashes skips the rest of the work on its line; its lines are gone before it is run.

* `feedAll` — a session, line by line.
* `completed` and `kept` — the program that a line completes, if it does, and the lines that are left
  after it; both by the lines alone. `completes` and `unfinished` are the same for many lines.
* `blocks` — the runs of lines between blank ones, without the one that is not completed.
* `Recorder` — a host that keeps what is written to it, with a clock that says anything.
* `SameAside` — the same written text, measured times aside.
* `Does` and `Leads` — what an action comes to and writes whatever the clock says, and the same for work
  on a session.
* `alone` — what a program comes to and writes on its own, by the stages: the lexer, the parser, the
  checker, the run and the texts of reports. No host has a part in it.

Principal results: `runBlock_leads`, `feed_does` and `feedAll_blocks`.
-/

namespace Swiftlet

namespace Session

/-! ## Line by line -/

/-- Takes lines one after another; what each of them led to, and the session after the last. -/
def feedAll {m : Type → Type} [Monad m] [Host m] (c : Compiler) (dump : Bool) :
    Session → List Bytes → m (List Step × Session)
  | s, [] => return ([], s)
  | s, line :: rest => do
    let (step, s) ← s.feed c dump line
    let (steps, s) ← feedAll c dump s rest
    return (step :: steps, s)

/-- The program that a line completes, with the lines `pending` before it, latest first. -/
def completed (pending : List Bytes) (line : Bytes) : Option Bytes :=
  if Blank.allBlank line ∧ pending ≠ [] then some (text ⟨pending⟩) else none

/-- The lines that are left after a line, latest first. -/
def kept (pending : List Bytes) (line : Bytes) : List Bytes :=
  if Blank.allBlank line then [] else line :: pending

/-- The program that each line completes, if it does. -/
def completes : List Bytes → List Bytes → List (Option Bytes)
  | _, [] => []
  | pending, line :: rest => completed pending line :: completes (kept pending line) rest

/-- The lines that are left after the last one. -/
def unfinished (pending lines : List Bytes) : List Bytes := lines.foldl kept pending

/-! ## Which programs -/

/-- The runs of lines that are not blank and have a blank line behind them. -/
def blocks (lines : List Bytes) : List (List Bytes) :=
  (lines.splitOnP Blank.allBlank).dropLast.filter (· ≠ [])

section

variable (pending lines more : List Bytes) (line : Bytes)

theorem length_completes : (completes pending lines).length = lines.length := by
  induction lines generalizing pending with
  | nil => rfl
  | cons line rest ih => simp [completes, ih]

theorem completes_append :
    completes pending (lines ++ more) =
      completes pending lines ++ completes (unfinished pending lines) more := by
  induction lines generalizing pending with
  | nil => rfl
  | cons line rest ih => simp [completes, unfinished, ih]

/-- Lines are pending if the last one is not blank. -/
theorem unfinished_ne_nil_iff :
    unfinished [] lines ≠ [] ↔ ∃ prev, lines.getLast? = some prev ∧ ¬Blank.allBlank prev := by
  rcases List.eq_nil_or_concat lines with rfl | ⟨before, prev, rfl⟩
  · simp [unfinished]
  · simp [unfinished, kept]

theorem getElem?_completes (before : List Bytes) :
    (completes [] (before ++ line :: more))[before.length]? =
      some (completed (unfinished [] before) line) := by
  rw [completes_append, List.getElem?_append_right (by simp [length_completes]), length_completes,
    Nat.sub_self]
  rfl

/-- A line completes a program if it is blank and the line before it is not. -/
theorem completes_isSome_iff (i : Nat) :
    (∃ program, (completes [] lines)[i]? = some (some program)) ↔
      ∃ prev line, lines[i]? = some line ∧ Blank.allBlank line ∧
        (lines.take i).getLast? = some prev ∧ ¬Blank.allBlank prev := by
  by_cases hi : i < lines.length
  · have hlines : lines = lines.take i ++ lines[i] :: lines.drop (i + 1) := by
      rw [List.getElem_cons_drop, List.take_append_drop]
    have hlength : (lines.take i).length = i := by simp; omega
    have hat := getElem?_completes (lines.drop (i + 1)) lines[i] (lines.take i)
    rw [← hlines, hlength] at hat
    have hcompletes : (∃ program, (completes [] lines)[i]? = some (some program)) ↔
        Blank.allBlank lines[i] ∧ unfinished [] (lines.take i) ≠ [] := by
      simp [hat, completed]
    rw [hcompletes, unfinished_ne_nil_iff, List.getElem?_eq_getElem hi]
    constructor
    · rintro ⟨hblank, prev, hprev, hnot⟩
      exact ⟨prev, lines[i], rfl, hblank, hprev, hnot⟩
    · rintro ⟨prev, line, hline, hblank, hprev, hnot⟩
      cases hline
      exact ⟨hblank, prev, hprev, hnot⟩
  · have hnone : (completes [] lines)[i]? = none := by
      rw [List.getElem?_eq_none_iff, length_completes]
      omega
    have hline : lines[i]? = none := by
      rw [List.getElem?_eq_none_iff]
      omega
    simp [hnone, hline]

/-- The programs that are completed are the runs of lines between blank ones. -/
theorem filterMap_completes :
    (completes pending lines).filterMap id =
      ((lines.splitOnPPrepend Blank.allBlank pending).dropLast.filter (· ≠ [])).map
        (Bytes.join [Bytes.newline]) := by
  induction lines generalizing pending with
  | nil => rfl
  | cons line rest ih =>
      by_cases hblank : Blank.allBlank line
      · rw [List.splitOnPPrepend_cons_pos hblank, List.dropLast_cons_of_ne_nil (List.splitOnP_ne_nil _ _)]
        have hrest := ih []
        rw [List.splitOnPPrepend_nil_right] at hrest
        by_cases hnone : pending = []
        · subst hnone
          simpa [completes, completed, kept, hblank] using hrest
        · simpa [completes, completed, kept, hblank, hnone, text] using hrest
      · rw [List.splitOnPPrepend_cons_neg (by simpa using hblank), ← ih]
        simp [completes, completed, kept, hblank]

theorem getLast?_splitOnPPrepend :
    (lines.splitOnPPrepend Blank.allBlank pending).getLast? = some (unfinished pending lines).reverse := by
  induction lines generalizing pending with
  | nil => rfl
  | cons line rest ih =>
      by_cases hblank : Blank.allBlank line
      · rw [List.splitOnPPrepend_cons_pos hblank, List.getLast?_cons, ← List.splitOnPPrepend_nil_right,
          ih]
        simp [unfinished, kept, hblank]
      · rw [List.splitOnPPrepend_cons_neg (by simpa using hblank), ih]
        simp [unfinished, kept, hblank]

theorem flatten_splitOnPPrepend :
    (lines.splitOnPPrepend Blank.allBlank pending).flatten =
      pending.reverse ++ lines.filter fun line => !Blank.allBlank line := by
  induction lines generalizing pending with
  | nil => simp
  | cons line rest ih =>
      by_cases hblank : Blank.allBlank line
      · rw [List.splitOnPPrepend_cons_pos hblank, List.flatten_cons, ← List.splitOnPPrepend_nil_right,
          ih]
        simp [hblank]
      · rw [List.splitOnPPrepend_cons_neg (by simpa using hblank), ih]
        simp [hblank]

/-- **No line is lost, and none is in two programs.** -/
theorem flatten_blocks :
    (blocks lines).flatten ++ (unfinished [] lines).reverse =
      lines.filter fun line => !Blank.allBlank line := by
  have hlast := getLast?_splitOnPPrepend [] lines
  have hflatten := flatten_splitOnPPrepend [] lines
  rw [List.splitOnPPrepend_nil_right] at hlast hflatten
  rw [← List.dropLast_append_getLast? _ hlast, List.flatten_append] at hflatten
  rw [blocks, List.flatten_filter_ne_nil]
  simpa using hflatten

end

/-! ## What is written -/

/-- A text that is written, as output or as a report. -/
inductive Event where
  | out (text : Bytes)
  | report (text : Bytes)
  deriving DecidableEq, Repr

/-- What the clock is going to say, and what has been written so far. -/
structure Tape where
  clock : Nat → Nat
  events : List Event

/-- A host that keeps what is written to it. It has no files and no tools. -/
abbrev Recorder := StateM Tape

instance : Host Recorder where
  pathExists _ := return false
  load _ := return .error []
  store _ _ := return .error []
  environment _ := return []
  workingDirectory := return []
  tool _ _ _ := return ⟨.unstarted [], [], []⟩
  clock t := (t.clock 0, { t with clock := fun n => t.clock (n + 1) })
  out text := modify fun t => { t with events := t.events ++ [.out text] }
  report text := modify fun t => { t with events := t.events ++ [.report text] }

/-- What an action comes to and what it writes. -/
def record {α : Type} (clock : Nat → Nat) (a : Recorder α) : α × List Event :=
  ((a.run ⟨clock, []⟩).1, (a.run ⟨clock, []⟩).2.events)

/-- The same, or two times that a stage took. -/
inductive SameAside (r : Reporter) : Event → Event → Prop where
  | same (e : Event) : SameAside r e e
  | timing (stage : Bytes) (d d' : Nat) :
      SameAside r (.report (r.timingText stage d)) (.report (r.timingText stage d'))

/-- Whatever is on the tape, an action comes to `v` and writes `es`, measured times aside. -/
def Does {α : Type} (r : Reporter) (a : Recorder α) (v : α) (es : List Event) : Prop :=
  ∀ t : Tape, (a.run t).1 = v ∧
    ∃ es', (a.run t).2.events = t.events ++ es' ∧ List.Forall₂ (SameAside r) es' es

section

variable {α β : Type} {r : Reporter} {v : α} {w : β} {es fs : List Event}

theorem Does.pure (v : α) : Does r (Pure.pure v) v [] :=
  fun _ => ⟨rfl, [], (List.append_nil _).symm, .nil⟩

theorem Does.out (text : Bytes) : Does r (Host.out text) () [.out text] :=
  fun _ => ⟨rfl, [.out text], rfl, .cons (.same _) .nil⟩

theorem Does.report {text : Bytes} {e : Event} (h : SameAside r (.report text) e) :
    Does r (Host.report text) () [e] :=
  fun _ => ⟨rfl, [.report text], rfl, .cons h .nil⟩

theorem Does.bind {a : Recorder α} {f : α → Recorder β} (ha : Does r a v es)
    (hf : Does r (f v) w fs) : Does r (a >>= f) w (es ++ fs) := by
  intro t
  obtain ⟨hv, es', hes, hsame⟩ := ha t
  obtain ⟨hw, fs', hfs, hsame'⟩ := hf (a.run t).2
  have hrun : (a >>= f).run t = (f v).run (a.run t).2 := by
    rw [← hv]
    rfl
  rw [hrun]
  refine ⟨hw, es' ++ fs', ?_, List.rel_append hsame hsame'⟩
  rw [hfs, hes, List.append_assoc]

theorem Does.then_pure {a : Recorder α} (ha : Does r a v es) (f : α → β) :
    Does r (a >>= fun v => Pure.pure (f v)) (f v) es := by
  rw [← List.append_nil es]
  exact ha.bind (.pure _)

/-- The clock can say anything. -/
theorem Does.clock {f : Nat → Recorder β} (hf : ∀ n, Does r (f n) w fs) :
    Does r (Host.clock >>= f) w fs :=
  fun t => hf (t.clock 0) ⟨fun n => t.clock (n + 1), t.events⟩

end

/-- Whatever is on the tape, work on the session `s` comes to `v` and to the session `s'` and writes
`es`, measured times aside. -/
def Leads {α : Type} (r : Reporter) (s : Session) (a : Interaction Recorder α) (v : Except Crash α)
    (s' : Session) (es : List Event) : Prop :=
  Does r (a.run.run s) (v, s') es

section

variable {α β : Type} {r : Reporter} {s s' s'' : Session} {es fs : List Event}

theorem Leads.pure (v : α) : Leads r s (Pure.pure v) (.ok v) s [] := Does.pure _

theorem Leads.throw (crash : Crash) : Leads r s (throw crash : Interaction Recorder α) (.error crash) s [] :=
  Does.pure _

theorem Leads.get : Leads r s MonadState.get (.ok s) s [] := Does.pure _

theorem Leads.set (s' : Session) : Leads r s (MonadStateOf.set s') (.ok ()) s' [] := Does.pure _

theorem Leads.modify (f : Session → Session) : Leads r s (modify f) (.ok ()) (f s) [] := Does.pure _

/-- What is done on the host leaves the session as it is. -/
theorem Leads.lift {a : Recorder α} {v : α} (h : Does r a v es) :
    Leads r s (liftM a) (.ok v) s es := by
  intro t
  obtain ⟨hv, hes⟩ := h t
  have hrun : ((liftM a : Interaction Recorder α).run.run s).run t =
      ((.ok (a.run t).1, s), (a.run t).2) := rfl
  rw [hrun, hv]
  exact ⟨rfl, hes⟩

/-- Work goes on where it came to a value. -/
theorem run_bind (a : Interaction Recorder α) (f : α → Interaction Recorder β) (s : Session) :
    (a >>= f).run.run s = a.run.run s >>= fun p => StateT.run (ExceptT.bindCont f p.1) p.2 := rfl

theorem Leads.bind {a : Interaction Recorder α} {f : α → Interaction Recorder β} {v : α}
    {w : Except Crash β} (ha : Leads r s a (.ok v) s' es) (hf : Leads r s' (f v) w s'' fs) :
    Leads r s (a >>= f) w s'' (es ++ fs) := by
  rw [Leads, run_bind]
  exact Does.bind ha hf

theorem Leads.then_pure {a : Interaction Recorder α} {v : α} (ha : Leads r s a (.ok v) s' es)
    (w : β) : Leads r s (a >>= fun _ => Pure.pure w) (.ok w) s' es := by
  rw [← List.append_nil es]
  exact ha.bind (.pure w)

/-- **A crash skips the rest of the work**, and the session stays as it is. -/
theorem Leads.crash {a : Interaction Recorder α} {crash : Crash}
    (ha : Leads r s a (.error crash) s' es) (f : α → Interaction Recorder β) :
    Leads r s (a >>= f) (.error crash) s' es := by
  rw [Leads, run_bind, ← List.append_nil es]
  exact Does.bind ha (.pure _)

end

/-! ## A program on its own -/

section

variable (c : Compiler) (took : String → Nat)

/-- That a stage took its time. -/
def timeEvent (stage : String) : Event :=
  .report (c.reporter.timingText (utf8 stage) (took stage))

/-- A problem of a source, with an excerpt if it points into it. -/
def problemEvent (source : Source) (p : Problem) : Event :=
  .report (c.reporter.errorText (some source) p.diagnostic)

/-- The analyzed program that a text is, or its problem, and what is written about it. -/
def analyzed (text : Bytes) : Except Problem (List Node) × List Event :=
  match Lexing.lex text with
  | .error e => (.error (.lexing e), [timeEvent c took "lexing"])
  | .ok tokens =>
    match Parsing.parse tokens with
    | .error e => (.error (.parsing e), [timeEvent c took "lexing", timeEvent c took "parsing"])
    | .ok program =>
      let times := [timeEvent c took "lexing", timeEvent c took "parsing", timeEvent c took "analysis"]
      match Typing.analyze c.config.entry program with
      | .error st => (.error (.typing st.error), times)
      | .ok tree => (.ok tree, times)

/-- What a run comes to and writes: its output, and its problem or, if wanted, the values of its
statements. A division by zero ends all work on it at once. -/
def executed (dump : Bool) (source : Source) (r : Run.Report) : Step × List Event :=
  match r.result with
  | .error .divisionByZero => (.crashed .divisionByZero, [.out r.sink.output])
  | .error f =>
    (.ran, [.out r.sink.output, timeEvent c took "interpretation", problemEvent c source (.running f)])
  | .ok _ =>
    (.ran, [.out r.sink.output, timeEvent c took "interpretation"] ++
      if dump then [.out (Dump.results r.log)] else [])

/-- What a program comes to and writes on its own, if its stages take so long. -/
def alone (dump : Bool) (text : Bytes) : Step × List Event :=
  match analyzed c took text with
  | (.error p, es) => (.ran, es ++ [problemEvent c ⟨sourceName, text⟩ p])
  | (.ok tree, es) =>
    let r := Run.run c.config.entry tree ⟨[], none⟩
    ((executed c took dump ⟨sourceName, text⟩ r).1, es ++ (executed c took dump ⟨sourceName, text⟩ r).2)

theorem executed_failure (dump : Bool) (source : Source) {r : Run.Report} {f : Run.Failure}
    (hf : f ≠ .divisionByZero) (h : r.result = .error f) :
    executed c took dump source r = (.ran, [.out r.sink.output, timeEvent c took "interpretation"] ++
      [problemEvent c source (.running f)]) := by
  rw [executed, h]
  cases f with
  | divisionByZero => exact absurd rfl hf
  | _ => rfl

theorem Does.timed {α : Type} (stage : String) {work : Unit → Recorder α} {v : α} {es : List Event}
    (h : Does c.reporter (work ()) v es) :
    Does c.reporter (c.timed stage work) v (es ++ [timeEvent c took stage]) := by
  unfold Compiler.timed
  refine .clock fun start => .bind h (.clock fun stop => ?_)
  exact .bind (.report (.timing _ _ _)) (.pure v)

theorem Does.timedUnlessCrash {α : Type} (stage : String) {work : Unit → Recorder (Except Crash α)}
    {v : α} {es : List Event} (h : Does c.reporter (work ()) (.ok v) es) :
    Does c.reporter (c.timedUnlessCrash stage work) (.ok v) (es ++ [timeEvent c took stage]) := by
  unfold Compiler.timedUnlessCrash
  refine .clock fun start => .bind h (.clock fun stop => ?_)
  exact .bind (.report (.timing _ _ _)) (.pure _)

/-- A stage that crashes leaves out how long it took. -/
theorem Does.crash {α : Type} (stage : String) {work : Unit → Recorder (Except Crash α)}
    {crash : Crash} {es : List Event} (h : Does c.reporter (work ()) (.error crash) es) :
    Does c.reporter (c.timedUnlessCrash stage work) (.error crash) es := by
  unfold Compiler.timedUnlessCrash
  rw [← List.append_nil es]
  exact .clock fun start => .bind h (.pure _)

theorem fail_does (source : Source) (p : Problem) :
    Does c.reporter (c.fail source p) () [problemEvent c source p] :=
  .report (.same _)

/-- The problem that ended a run, unless it crashed. -/
def problemOf (r : Run.Report) : Option Problem :=
  match r.result with
  | .ok _ => none
  | .error f => some (.running f)

/-- What compiling came to. -/
def verdict : Program × Option Problem → Except Problem (List Node)
  | (_, some problem) => .error problem
  | (p, none) => .ok p.nodes

/-- Compiling writes what its stages took and nothing else. -/
theorem compile_does (source : Source) :
    ∃ compiled, Does c.reporter (c.compile source) compiled (analyzed c took source.text).2 ∧
      compiled.1.source = source ∧ verdict compiled = (analyzed c took source.text).1 := by
  have hstage : ∀ {α : Type} (stage : String) (v : α), Does c.reporter
      (c.timed stage fun _ => pure v) v ([] ++ [timeEvent c took stage]) :=
    fun stage v => .timed c took stage (.pure v)
  unfold Compiler.compile analyzed
  cases Lexing.lex source.text with
  | error e => exact ⟨_, .bind (hstage _ _) (.pure _), rfl, rfl⟩
  | ok tokens =>
      cases hparse : Parsing.parse tokens with
      | error e =>
          simp only [hparse]
          refine ⟨(⟨source, some tokens, none⟩, some (.parsing e)), ?_, rfl, rfl⟩
          refine .bind (hstage _ _) (.bind (hstage _ _) ?_)
          rw [hparse]
          exact .pure _
      | ok program =>
          cases hanalyze : Typing.analyze c.config.entry program with
          | error st =>
              simp only [hparse, hanalyze]
              refine ⟨(⟨source, some tokens, some st.tree⟩, some (.typing st.error)), ?_, rfl, rfl⟩
              refine .bind (hstage _ _) (.bind (hstage _ _) ?_)
              rw [hparse]
              refine .bind (hstage _ _) ?_
              rw [hanalyze]
              exact .pure _
          | ok tree =>
              simp only [hparse, hanalyze]
              refine ⟨(⟨source, some tokens, some tree⟩, none), ?_, rfl, rfl⟩
              refine .bind (hstage _ _) (.bind (hstage _ _) ?_)
              rw [hparse]
              refine .bind (hstage _ _) ?_
              rw [hanalyze]
              exact .pure _

section

variable {p : Program} {r : Run.Report}

theorem interpret_crash (hr : Run.run c.config.entry p.nodes ⟨[], none⟩ = r)
    (h : r.result = .error .divisionByZero) :
    Does c.reporter (c.interpret p) (.error .divisionByZero) [.out r.sink.output] := by
  unfold Compiler.interpret
  rw [hr]
  refine .crash c _ (.bind (.out _) ?_)
  rw [h]
  exact .pure _

theorem interpret_does (hr : Run.run c.config.entry p.nodes ⟨[], none⟩ = r)
    (h : r.result ≠ .error .divisionByZero) :
    Does c.reporter (c.interpret p) (.ok (r.log, problemOf r))
      [.out r.sink.output, timeEvent c took "interpretation"] := by
  unfold Compiler.interpret problemOf
  rw [hr]
  show Does _ _ _ ([.out r.sink.output] ++ [timeEvent c took "interpretation"])
  refine .timedUnlessCrash c took _ (.bind (.out _) ?_)
  cases hresult : r.result with
  | ok v => exact .pure _
  | error f =>
      cases f with
      | divisionByZero => exact absurd hresult h
      | _ => exact .pure _

end

/-- **A program comes to what it comes to on its own, and writes the same, measured times aside.** The
session is what it was. -/
theorem runBlock_leads (dump : Bool) (text : Bytes) (s : Session) :
    ∃ ended, Leads c.reporter s (runBlock c dump text) ended s (alone c took dump text).2 ∧
      Step.ofEnd (ended.map fun _ => true) = (alone c took dump text).1 := by
  obtain ⟨⟨p, problem⟩, hcompile, hsource, hverdict⟩ := compile_does c took ⟨sourceName, text⟩
  have hfail : ∀ q : Problem, Leads c.reporter s (liftM (c.fail p.source q : Recorder Unit)) (.ok ()) s
      [problemEvent c ⟨sourceName, text⟩ q] := by
    intro q
    rw [hsource]
    exact .lift (fail_does c _ q)
  unfold runBlock alone
  cases hanalyzed : analyzed c took text with
  | mk result es =>
      rw [hanalyzed] at hcompile hverdict
      cases problem with
      | some problem =>
          cases hverdict
          exact ⟨.ok (), .bind (.lift hcompile) (hfail problem), rfl⟩
      | none =>
          cases hverdict
          dsimp only
          cases hr : Run.run c.config.entry p.nodes ⟨[], none⟩ with
          | mk ended sink log =>
              cases ended with
              | ok v =>
                  refine ⟨.ok (), .bind (.lift hcompile) ?_, rfl⟩
                  refine .bind (.lift (interpret_does c took hr (by simp))) ?_
                  cases dump with
                  | false => exact .pure ()
                  | true => exact .lift (.out _)
              | error f =>
                  -- a division by zero is thrown, any other failure is reported
                  by_cases hf : f = .divisionByZero
                  · subst hf
                    refine ⟨.error .divisionByZero, .bind (.lift hcompile) ?_, rfl⟩
                    exact .bind (.lift (interpret_crash c hr rfl)) (.throw _)
                  · rw [executed_failure c took dump _ hf rfl]
                    refine ⟨.ok (), .bind (.lift hcompile) ?_, rfl⟩
                    have hne : (.error f : Except Run.Failure Value) ≠ .error .divisionByZero :=
                      fun heq => hf (Except.error.inj heq)
                    exact .bind (.lift (interpret_does c took hr hne)) (hfail (.running f))

/-! ## A session -/

theorem alone_ne_waiting (dump : Bool) (text : Bytes) : (alone c took dump text).1 ≠ .waiting := by
  obtain ⟨ended, -, hended⟩ := runBlock_leads c took dump text empty
  rw [← hended]
  cases ended with
  | ok => exact Step.noConfusion
  | error => exact Step.noConfusion

/-- What a line comes to and writes, by the program that it completes, if it does. -/
def lineAlone (dump : Bool) : Option Bytes → Step × List Event
  | none => (.waiting, [])
  | some text => alone c took dump text

/-- A program is taken out of the session before it is run, so nothing of it is left if it crashes. -/
theorem enter_leads (dump : Bool) (pending : List Bytes) (line : Bytes) :
    ∃ ended, Leads c.reporter ⟨pending⟩ (enter c dump line) ended ⟨kept pending line⟩
        (lineAlone c took dump (completed pending line)).2 ∧
      Step.ofEnd ended = (lineAlone c took dump (completed pending line)).1 := by
  unfold enter completed kept
  by_cases hblank : Blank.allBlank line
  · rw [if_pos hblank, if_pos hblank]
    by_cases hpending : pending = []
    · subst hpending
      rw [if_neg fun h => h.2 rfl]
      refine ⟨.ok false, .bind .get ?_, rfl⟩
      rw [if_pos rfl]
      exact .pure false
    · rw [if_pos ⟨hblank, hpending⟩]
      obtain ⟨ended, hrun, hended⟩ := runBlock_leads c took dump (text ⟨pending⟩) empty
      refine ⟨ended.map fun _ => true, .bind .get ?_, hended⟩
      rw [if_neg hpending]
      -- from here on the session is empty, however the program ends
      refine .bind (.set empty) ?_
      cases ended with
      | ok => exact hrun.then_pure true
      | error crash => exact .crash hrun _
  · rw [if_neg hblank, if_neg hblank, if_neg fun h => hblank h.1]
    exact ⟨.ok false, .bind (.modify _) (.pure false), rfl⟩

theorem feed_does (dump : Bool) (pending : List Bytes) (line : Bytes) :
    Does c.reporter (feed c dump ⟨pending⟩ line)
      ((lineAlone c took dump (completed pending line)).1, ⟨kept pending line⟩)
      (lineAlone c took dump (completed pending line)).2 := by
  obtain ⟨ended, henter, hended⟩ := enter_leads c took dump pending line
  rw [← hended]
  exact Does.then_pure henter fun p => (Step.ofEnd p.1, p.2)

/-- **Every line comes to what the program that it completes comes to on its own.** -/
theorem feedAll_does (dump : Bool) (pending lines : List Bytes) :
    Does c.reporter (feedAll c dump ⟨pending⟩ lines)
      ((completes pending lines).map fun p => (lineAlone c took dump p).1, ⟨unfinished pending lines⟩)
      ((completes pending lines).flatMap fun p => (lineAlone c took dump p).2) := by
  induction lines generalizing pending with
  | nil => exact .pure _
  | cons line rest ih =>
      rw [completes, List.flatMap_cons]
      exact .bind (feed_does c took dump pending line) ((ih _).then_pure _)

/-- The lines that complete nothing come to nothing and write nothing. -/
theorem lineAlone_programs (dump : Bool) (ps : List (Option Bytes)) :
    (ps.map fun p => (lineAlone c took dump p).1).filter (· ≠ .waiting) =
        (ps.filterMap id).map (fun text => (alone c took dump text).1) ∧
      ps.flatMap (fun p => (lineAlone c took dump p).2) =
        (ps.filterMap id).flatMap fun text => (alone c took dump text).2 := by
  induction ps with
  | nil => exact ⟨rfl, rfl⟩
  | cons p ps ih =>
      obtain ⟨hsteps, hevents⟩ := ih
      cases p with
      | none => exact ⟨hsteps, hevents⟩
      | some text =>
          have hran := alone_ne_waiting c took dump text
          constructor
          · simpa [lineAlone, hran] using hsteps
          · simpa [lineAlone] using hevents

end

/-- **A session is the sequence of its programs.** A line runs a program if it is blank and the line
before it is not. The programs are the runs of lines between blank ones, in order, and they come to what
they come to on their own. What the session writes is what each of them writes on its own, in order,
measured times aside. Every line that is not blank is in one of the programs or in what is left. -/
theorem feedAll_blocks (c : Compiler) (dump : Bool) (clock : Nat → Nat) (took : String → Nat)
    (lines : List Bytes) :
    ∃ steps s events, record clock (feedAll c dump empty lines) = ((steps, s), events) ∧
      steps.length = lines.length ∧
      (∀ i, (∃ step, steps[i]? = some step ∧ step ≠ .waiting) ↔
        ∃ prev line, lines[i]? = some line ∧ Blank.allBlank line ∧
          (lines.take i).getLast? = some prev ∧ ¬Blank.allBlank prev) ∧
      steps.filter (· ≠ .waiting) =
        (blocks lines).map (fun b => (alone c took dump (Bytes.join [Bytes.newline] b)).1) ∧
      List.Forall₂ (SameAside c.reporter) events
        ((blocks lines).flatMap fun b => (alone c took dump (Bytes.join [Bytes.newline] b)).2) ∧
      (lines.splitOnP Blank.allBlank).getLast? = some s.pending.reverse ∧
      (blocks lines).flatten ++ s.pending.reverse = lines.filter fun line => !Blank.allBlank line := by
  obtain ⟨hsteps, events, hevents, hsame⟩ := feedAll_does c took dump [] lines ⟨clock, []⟩
  obtain ⟨hran, hwritten⟩ := lineAlone_programs c took dump (completes [] lines)
  have hprograms := filterMap_completes [] lines
  have hleft := getLast?_splitOnPPrepend [] lines
  rw [List.splitOnPPrepend_nil_right] at hprograms hleft
  refine ⟨(completes [] lines).map fun p => (lineAlone c took dump p).1, ⟨unfinished [] lines⟩, events,
    congrArg₂ Prod.mk hsteps hevents, ?_, fun i => ?_, ?_, ?_, hleft, flatten_blocks lines⟩
  · rw [List.length_map, length_completes]
  · rw [← completes_isSome_iff]
    simp only [List.getElem?_map, Option.map_eq_some_iff]
    constructor
    · rintro ⟨step, ⟨p, hp, rfl⟩, hstep⟩
      cases p with
      | none => exact absurd rfl hstep
      | some text => exact ⟨text, hp⟩
    · rintro ⟨text, hp⟩
      exact ⟨_, ⟨_, hp, rfl⟩, alone_ne_waiting c took dump text⟩
  · rw [hran, hprograms, List.map_map]
    rfl
  · rw [hwritten, hprograms, List.flatMap_map] at hsame
    exact hsame

end Session

end Swiftlet
