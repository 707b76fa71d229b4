import Swiftlet.Proofs.Run.Completion

/-!
# Outputs that take so many lines

A run writes to an output that may refuse a line. Up to that line the run is the one with an output
that takes all; the refusal then ends it, whatever was going on, and nothing more is written or
evaluated.

* `State.writes?` — the value that the next step writes.
* `Stage.withSink` — the same stage with another output, and `Stage.limit`, with one that takes so many
  lines in all.

Principal results: `step_withSink`, that only the steps that write depend on the output, `after_limit`,
that both runs go together up to the line that is refused, `refused_of_long`, where it is refused, and
`run_cut`.
-/

namespace Swiftlet

namespace Run

/-- The lines written, in order. -/
def Sink.lines (s : Sink) : List Bytes := s.values.reverse.map Sink.line

/-- The value that the next step writes, or tries to. -/
def State.writes? (s : State) : Option Value :=
  match s.control, s.pending with
  | .result v _, .emit _ :: _ => if v.isValid then some v else none
  | _, _ => none

/-- The same state with another output. -/
def State.withSink (sink : Sink) (s : State) : State := { s with sink := sink }

/-- The same output, if it takes `n` lines in all. -/
def Sink.limit (n : Nat) (sink : Sink) : Sink := ⟨sink.values, some (n - sink.values.length)⟩

namespace Stage

def sink : Stage → Sink
  | .running s => s.sink
  | .ended r => r.sink

/-- The same stage with another output. -/
def withSink (sink : Sink) : Stage → Stage
  | .running s => .running (s.withSink sink)
  | .ended r => .ended { r with sink := sink }

/-- The same stage with an output that takes `n` lines in all. -/
def limit (n : Nat) (x : Stage) : Stage := x.withSink (x.sink.limit n)

end Stage

/-! ## Steps and the output -/

section

variable {program : List Node} {s : State}

theorem lookup_withSink (sink : Sink) (name : Token) :
    (s.withSink sink).lookup name = (s.lookup name).withSink sink ∧ (s.lookup name).sink = s.sink := by
  obtain ⟨c, ⟨⟨sig, known, log⟩, actuals, depth⟩, callers, output, ps⟩ := s
  simp only [State.lookup, State.withSink]
  cases known.lookup name.lexeme with
  | some v => exact ⟨rfl, rfl⟩
  | none =>
      cases sig.paramIndex? name.lexeme with
      | none => cases latestBinding? name.lexeme log <;> exact ⟨rfl, rfl⟩
      | some i =>
          cases callers with
          | nil => cases latestBinding? name.lexeme log <;> exact ⟨rfl, rfl⟩
          | cons caller callers =>
              dsimp only
              cases actuals[i]? <;> exact ⟨rfl, rfl⟩

theorem enter_withSink (sink : Sink) (sig : Signature) (body actuals : List Node) :
    (s.withSink sink).enter sig body actuals = (s.enter sig body actuals).withSink sink ∧
      (s.enter sig body actuals).sink = s.sink := by
  by_cases hroom : s.active.depth + 1 > maxCallDepth
  · have hroom' : (s.withSink sink).active.depth + 1 > maxCallDepth := hroom
    rw [State.enter, State.enter, if_pos hroom, if_pos hroom']
    exact ⟨rfl, rfl⟩
  · have hroom' : ¬(s.withSink sink).active.depth + 1 > maxCallDepth := hroom
    rw [State.enter, State.enter, if_neg hroom, if_neg hroom']
    exact ⟨rfl, rfl⟩

theorem eval_withSink (sink : Sink) (n : Node) :
    (s.withSink sink).eval program n = (s.eval program n).withSink sink ∧
      (s.eval program n).sink = s.sink := by
  cases n with
  | ref name => exact lookup_withSink sink name
  | print t args => cases args <;> exact ⟨rfl, rfl⟩
  | call name actuals =>
      simp only [State.eval]
      cases findFunction? program name.lexeme with
      | none => exact ⟨rfl, rfl⟩
      | some found => exact enter_withSink sink found.1 found.2 actuals
  | _ => exact ⟨rfl, rfl⟩

theorem exec_withSink (sink : Sink) (body : List Node) :
    (s.withSink sink).exec body = (s.exec body).withSink sink ∧ (s.exec body).sink = s.sink := by
  unfold State.exec
  split <;> exact ⟨rfl, rfl⟩

theorem pop_withSink (sink : Sink) (s : State) :
    (s.withSink sink).pop = s.pop.withSink sink ∧ s.pop.sink = s.sink := by
  obtain ⟨c, active, callers, output, ps⟩ := s
  cases callers <;> exact ⟨rfl, rfl⟩

theorem proceed_withSink (sink : Sink) {p : Pending} {v : Value}
    (hp : ∀ t, p = .emit t → v.isValid = false) (returned : Bool) :
    (s.withSink sink).proceed v returned p = (s.proceed v returned p).withSink sink ∧
      (s.proceed v returned p).sink = s.sink := by
  cases p with
  | right | discard | cache => exact ⟨rfl, rfl⟩
  | emit t =>
      simp only [State.proceed, hp t rfl]
      exact ⟨rfl, rfl⟩
  | operate | branch | log =>
      simp only [State.proceed]
      split <;> exact ⟨rfl, rfl⟩
  | leave =>
      obtain ⟨hpop, hsink⟩ := pop_withSink sink s
      exact ⟨congrArg (State.give · _) hpop, hsink⟩

theorem unwind_withSink (sink : Sink) (p : Pending) :
    (s.withSink sink).unwind p = (s.unwind p).withSink sink ∧ (s.unwind p).sink = s.sink := by
  cases p with
  | leave => exact pop_withSink sink s
  | _ => exact ⟨rfl, rfl⟩

/-- **Only a step that writes depends on the output.** -/
theorem step_withSink (program : List Node) (sink : Sink) (h : s.writes? = none) :
    step program (s.withSink sink) = (step program s).withSink sink ∧
      (step program s).sink = s.sink := by
  obtain ⟨c, active, callers, output, ps⟩ := s
  have hrunning : ∀ {t s' : State}, t = s'.withSink sink ∧ s'.sink = output →
      Stage.running t = (Stage.running s').withSink sink ∧ (Stage.running s').sink = output :=
    fun h => ⟨congrArg Stage.running h.1, h.2⟩
  cases c with
  | eval n => exact hrunning (eval_withSink sink n)
  | exec body => exact hrunning (exec_withSink sink body)
  | failed e =>
      cases ps with
      | nil => exact ⟨rfl, rfl⟩
      | cons p ps =>
          exact hrunning (unwind_withSink (s := ⟨.failed e, active, callers, output, ps⟩) sink p)
  | result v returned =>
      cases ps with
      | nil => exact ⟨rfl, rfl⟩
      | cons p ps =>
          have hp : ∀ t, p = .emit t → v.isValid = false := by
            rintro t rfl
            simpa [State.writes?] using h
          exact hrunning (proceed_withSink (s := ⟨.result v returned, active, callers, output, ps⟩) sink
            hp returned)

/-- A step that writes goes on if the output takes the line, and fails if it does not. -/
theorem step_of_writes {v : Value} (h : s.writes? = some v) :
    step program s = .running (match s.sink.write v with
      | some sink => ⟨.result .void false, s.active, s.callers, sink, s.pending.tail⟩
      | none => ⟨.failed .write, s.active, s.callers, s.sink, s.pending.tail⟩) := by
  obtain ⟨c, active, callers, output, ps⟩ := s
  unfold State.writes? at h
  split at h
  · rename_i w returned t rest hcontrol hpending
    cases hcontrol
    cases hpending
    rw [Option.ite_none_right_eq_some] at h
    obtain ⟨hvalid, heq⟩ := h
    cases heq
    refine congrArg Stage.running ?_
    simp only [State.proceed, hvalid, if_true]
    cases output.write v <;> rfl
  · cases h

/-- An output without a limit has what has been written. -/
theorem sink_step (program : List Node) (h : s.sink.room = none) :
    (step program s).sink = ⟨s.writes?.toList ++ s.sink.values, none⟩ := by
  have hsink : s.sink = ⟨s.sink.values, none⟩ := by rw [← h]
  cases hwrites : s.writes? with
  | none => exact (step_withSink program s.sink hwrites).2.trans hsink
  | some v =>
      have hwrite : s.sink.write v = some ⟨v :: s.sink.values, none⟩ := by rw [Sink.write, h]
      rw [step_of_writes hwrites, hwrite]
      rfl

/-! ## Two runs together -/

/-- While there is room, a step is the same with a limit. -/
theorem step_limit {n : Nat} (h : s.sink.room = none)
    (hle : (step program s).sink.values.length ≤ n) :
    step program (s.withSink (s.sink.limit n)) = (step program s).limit n := by
  cases hwrites : s.writes? with
  | none =>
      obtain ⟨hstep, hsame⟩ := step_withSink program (s.sink.limit n) hwrites
      rw [hstep, Stage.limit, hsame]
  | some v =>
      have hlimited : (s.withSink (s.sink.limit n)).writes? = some v := hwrites
      rw [sink_step program h, hwrites] at hle
      have hroom : n - s.sink.values.length = n - (v :: s.sink.values).length + 1 := by
        have hlt : s.sink.values.length + 1 ≤ n := hle
        rw [List.length_cons]
        omega
      have hwrite : s.sink.write v = some ⟨v :: s.sink.values, none⟩ := by rw [Sink.write, h]
      have hwrite' : (s.withSink (s.sink.limit n)).sink.write v =
          some ⟨v :: s.sink.values, some (n - (v :: s.sink.values).length)⟩ := by
        simp only [State.withSink, Sink.limit, Sink.write, hroom]
      rw [step_of_writes hlimited, step_of_writes hwrites, hwrite, hwrite']
      rfl

variable {x : Stage} {n k : Nat}

/-- What has been written stays. -/
theorem values_suffix (program : List Node) (h : x.sink.room = none) (k : Nat) :
    (after program k x).sink.room = none ∧ x.sink.values <:+ (after program k x).sink.values := by
  induction k generalizing x with
  | zero => exact ⟨h, List.suffix_refl _⟩
  | succ k ih =>
      cases x with
      | ended r => exact ⟨h, List.suffix_refl _⟩
      | running s =>
          have hsink := sink_step program h
          have hroom : (step program s).sink.room = none := by rw [hsink]
          obtain ⟨hlater, hsuffix⟩ := ih hroom
          rw [hsink] at hsuffix
          exact ⟨hlater, (List.suffix_append _ _).trans hsuffix⟩

/-- **Two runs go together for as long as there is room.** -/
theorem after_limit (h : x.sink.room = none) (hle : (after program k x).sink.values.length ≤ n) :
    after program k (x.limit n) = (after program k x).limit n := by
  induction k generalizing x with
  | zero => rfl
  | succ k ih =>
      cases x with
      | ended r => rfl
      | running s =>
          have hroom : (step program s).sink.room = none := by rw [sink_step program h]
          have hnext := (values_suffix program hroom k).2.length_le
          have hstep := step_limit h (Nat.le_trans hnext hle)
          calc after program (k + 1) ((Stage.running s).limit n)
              = after program k (step program (s.withSink (s.sink.limit n))) := rfl
            _ = after program k ((step program s).limit n) := by rw [hstep]
            _ = (after program k (step program s)).limit n := ih hroom hle

/-- A run that writes too much comes to a step that writes one line more than there is room for. -/
theorem refused_of_long (h : x.sink.room = none) (hle : x.sink.values.length ≤ n)
    (hlong : n < (after program k x).sink.values.length) :
    ∃ i s v, i < k ∧ after program i x = .running s ∧ s.writes? = some v ∧
      s.sink.values.length = n := by
  induction k generalizing x with
  | zero => exact absurd hlong (Nat.not_lt_of_le hle)
  | succ k ih =>
      cases x with
      | ended r => exact absurd hlong (Nat.not_lt_of_le hle)
      | running s =>
          have hsink := sink_step program h
          by_cases hnext : (step program s).sink.values.length ≤ n
          · obtain ⟨i, s', v, hi, hs', hwrites, hlength⟩ := ih (by rw [hsink]) hnext hlong
            exact ⟨i + 1, s', v, Nat.succ_lt_succ hi, hs', hwrites, hlength⟩
          · rw [hsink] at hnext
            cases hwrites : s.writes? with
            | none =>
                rw [hwrites] at hnext
                exact absurd hle hnext
            | some v =>
                rw [hwrites] at hnext
                refine ⟨0, s, v, Nat.succ_pos k, rfl, hwrites, Nat.le_antisymm hle ?_⟩
                exact Nat.le_of_lt_succ (Nat.lt_of_not_le hnext)

/-! ## After the refusal -/

/-- The step that writes one line too many fails. -/
theorem step_refused {v : Value} (hwrites : s.writes? = some v) (hlength : s.sink.values.length = n) :
    step program (s.withSink (s.sink.limit n)) =
      .running ⟨.failed .write, s.active, s.callers, s.sink.limit n, s.pending.tail⟩ := by
  have hlimited : (s.withSink (s.sink.limit n)).writes? = some v := hwrites
  have hfull : (s.withSink (s.sink.limit n)).sink.write v = none := by
    simp only [State.withSink, Sink.limit, Sink.write, hlength, Nat.sub_self]
  rw [step_of_writes hlimited, hfull]
  rfl

/-- **A failure is all there is from then on.** Nothing is written and nothing is completed. -/
theorem Completes.unwinds {s s' : State} {done : List Completion} {e : Failure}
    (h : Completes program s done s') (hs : s.control = .failed e) :
    s'.sink = s.sink ∧ s'.bottom.frame.log = s.bottom.frame.log := by
  induction h with
  | refl => exact ⟨rfl, rfl⟩
  | @step s s₁ s' done hstep _ ih =>
      have hwrites : s.writes? = none := by simp [State.writes?, hs]
      have hcompletes : s.completes? = none := by simp [State.completes?, hs]
      have hsink := (step_withSink program s.sink hwrites).2
      have hlog := bottom_step hstep
      obtain ⟨hsink', hlog'⟩ := ih (failed_of_step hs hstep)
      rw [hstep] at hsink
      rw [hcompletes] at hlog
      exact ⟨hsink'.trans hsink, hlog'.trans hlog⟩

theorem report_of_failed {e : Failure} {r : Report} (hnested : s.IsNested) (hbalanced : s.Balanced)
    (hs : s.control = .failed e) (h : after program k (.running s) = .ended r) :
    r.result = .error e ∧ r.sink = s.sink ∧ r.log = s.bottom.frame.log.reverse := by
  obtain ⟨s', hcompletes, hend⟩ := completes_of_ended h
  obtain ⟨hlog, hsink, hresult⟩ := report_of_ended (hcompletes.balanced hnested hbalanced) hend
  obtain ⟨hsink', hlog'⟩ := hcompletes.unwinds hs
  exact ⟨(hresult e).2 (hcompletes.failed hs), hsink.trans hsink', by rw [hlog, hlog']⟩

/-- The log grows. -/
theorem log_prefix_of_ended {r : Report} (hnested : s.IsNested) (hbalanced : s.Balanced)
    (h : after program k (.running s) = .ended r) : s.bottom.frame.log.reverse <+: r.log := by
  obtain ⟨s', hcompletes, hend⟩ := completes_of_ended h
  obtain ⟨hlog, -, -⟩ := report_of_ended (hcompletes.balanced hnested hbalanced) hend
  rw [hlog, hcompletes.log_eq, List.reverse_append]
  exact List.prefix_append _ _

theorem ended_unique {r r' : Report} {i : Nat} (h : after program k x = .ended r)
    (h' : after program i x = .ended r') : r = r' := by
  rcases Nat.le_total k i with hle | hle
  · obtain ⟨more, rfl⟩ := Nat.exists_eq_add_of_le hle
    rw [after_add, h, after_ended] at h'
    exact Stage.ended.inj h'
  · obtain ⟨more, rfl⟩ := Nat.exists_eq_add_of_le hle
    rw [after_add, h', after_ended] at h
    exact (Stage.ended.inj h).symm

end

/-! ## Whole runs -/

section

variable {entry : Bytes} {program : List Node} {n : Nat}

theorem start_limit (entry : Bytes) (program : List Node) (n : Nat) :
    start entry program ⟨[], some n⟩ = (start entry program ⟨[], none⟩).limit n := by
  unfold start
  cases findFunction? program entry <;> rfl

theorem start_sink (entry : Bytes) (program : List Node) :
    (start entry program ⟨[], none⟩).sink = ⟨[], none⟩ := by
  unfold start
  cases findFunction? program entry <;> rfl

/-- The run with room for `n` lines is the one without a limit up to its step `k`, which is refused a
line. From then on it is only left. -/
structure CutAt (entry : Bytes) (program : List Node) (n k : Nat) : Prop where
  together : ∀ i ≤ k, after program i (start entry program ⟨[], some n⟩) =
    (after program i (start entry program ⟨[], none⟩)).limit n
  refused : ∃ s v, after program k (start entry program ⟨[], none⟩) = .running s ∧
    s.writes? = some v ∧ s.sink.values.length = n ∧
    ∀ i s', k < i → after program i (start entry program ⟨[], some n⟩) = .running s' →
      s'.control = .failed .write ∧ s'.sink.values = s.sink.values

/-- **With enough room a run is the one without a limit.** -/
theorem run_of_room (h : (run entry program ⟨[], none⟩).sink.values.length ≤ n) :
    run entry program ⟨[], some n⟩ =
      { run entry program ⟨[], none⟩ with sink := (run entry program ⟨[], none⟩).sink.limit n } := by
  obtain ⟨k, hk⟩ := steps_run entry program ⟨[], none⟩
  obtain ⟨i, hi⟩ := steps_run entry program ⟨[], some n⟩
  have hroom : (start entry program ⟨[], none⟩).sink.room = none := by rw [start_sink]
  have hle : (after program k (start entry program ⟨[], none⟩)).sink.values.length ≤ n := by rwa [hk]
  have hlimit := after_limit hroom hle
  rw [hk] at hlimit
  rw [start_limit] at hi
  exact ended_unique hi hlimit

theorem cutAt_of_refused {k : Nat} {s : State} {v : Value}
    (hs : after program k (start entry program ⟨[], none⟩) = .running s) (hwrites : s.writes? = some v)
    (hlength : s.sink.values.length = n) : CutAt entry program n k ∧
      after program (k + 1) (start entry program ⟨[], some n⟩) =
        .running ⟨.failed .write, s.active, s.callers, s.sink.limit n, s.pending.tail⟩ := by
  have hroom : (start entry program ⟨[], none⟩).sink.room = none := by rw [start_sink]
  have htogether : ∀ i ≤ k, after program i (start entry program ⟨[], some n⟩) =
      (after program i (start entry program ⟨[], none⟩)).limit n := by
    intro i hi
    obtain ⟨more, rfl⟩ := Nat.exists_eq_add_of_le hi
    have hearlier := (values_suffix program hroom i).1
    have hle := (values_suffix program hearlier more).2.length_le
    rw [← after_add, hs] at hle
    rw [start_limit]
    exact after_limit hroom (Nat.le_trans hle (Nat.le_of_eq hlength))
  have hfailed : after program (k + 1) (start entry program ⟨[], some n⟩) =
      .running ⟨.failed .write, s.active, s.callers, s.sink.limit n, s.pending.tail⟩ := by
    rw [after_add, htogether k (Nat.le_refl k), hs]
    exact step_refused hwrites hlength
  refine ⟨⟨htogether, s, v, hs, hwrites, hlength, fun i s' hi hs' => ?_⟩, hfailed⟩
  obtain ⟨more, rfl⟩ := Nat.exists_eq_add_of_le (Nat.succ_le_of_lt hi)
  rw [after_add, hfailed] at hs'
  have hcompletes := completes_of_running hs'
  obtain ⟨hsink, -⟩ := hcompletes.unwinds rfl
  exact ⟨hcompletes.failed rfl, by rw [hsink]; rfl⟩

/-- **With too little room a run is cut where the first line is refused.** -/
theorem run_refused (h : n < (run entry program ⟨[], none⟩).sink.values.length) :
    (run entry program ⟨[], some n⟩).result = .error .write ∧
      (run entry program ⟨[], some n⟩).log <+: (run entry program ⟨[], none⟩).log ∧
      (run entry program ⟨[], some n⟩).sink.values.length = n ∧
      (run entry program ⟨[], some n⟩).sink.values <:+ (run entry program ⟨[], none⟩).sink.values ∧
      ∃ k, CutAt entry program n k := by
  obtain ⟨last, hlast⟩ := steps_run entry program ⟨[], none⟩
  obtain ⟨i, hi⟩ := steps_run entry program ⟨[], some n⟩
  have hsink := start_sink entry program
  have hroom : (start entry program ⟨[], none⟩).sink.room = none := by rw [hsink]
  have hempty : (start entry program ⟨[], none⟩).sink.values.length ≤ n := by
    rw [hsink]
    exact Nat.zero_le n
  have hlong : n < (after program last (start entry program ⟨[], none⟩)).sink.values.length := by
    rwa [hlast]
  obtain ⟨k, s, v, hk, hs, hwrites, hlength⟩ := refused_of_long hroom hempty hlong
  obtain ⟨hcut, hfailed⟩ := cutAt_of_refused hs hwrites hlength
  -- both runs from the line that is refused
  obtain ⟨more, rfl⟩ := Nat.exists_eq_add_of_le (Nat.le_of_lt hk)
  have hwritten := (values_suffix program (values_suffix program hroom k).1 more).2
  rw [← after_add, hlast, hs] at hwritten
  rw [after_add, hs] at hlast
  obtain ⟨rest, hrest⟩ : ∃ rest, after program rest (.running ⟨.failed .write, s.active, s.callers,
      s.sink.limit n, s.pending.tail⟩) = .ended (run entry program ⟨[], some n⟩) := by
    refine ⟨i, ?_⟩
    rw [← hfailed, ← after_add, Nat.add_comm, after_add, hi, after_ended]
  obtain ⟨hnested, hbalanced, -⟩ := run_keeps hs
  obtain ⟨hnested', hbalanced', -⟩ := run_keeps hfailed
  obtain ⟨hresult, hvalues, hlog⟩ := report_of_failed hnested' hbalanced' rfl hrest
  have hprefix := log_prefix_of_ended hnested hbalanced hlast
  rw [hvalues]
  exact ⟨hresult, hlog ▸ hprefix, hlength, hwritten, k, hcut⟩

/-- **An output that refuses a line cuts the run there and nowhere else.** With room for `n` lines a run
writes the first `n` lines of the run without a limit. If there are no more, the result and the log are
the same. Otherwise the run fails with the refusal, its log is the beginning of the other, and it is the
same run up to the refusal and nothing but left from then on. -/
theorem run_cut (entry : Bytes) (program : List Node) (n : Nat) :
    let full := run entry program ⟨[], none⟩
    let cut := run entry program ⟨[], some n⟩
    cut.sink.lines = full.sink.lines.take n ∧
      (full.sink.lines.length ≤ n → cut.result = full.result ∧ cut.log = full.log) ∧
      (n < full.sink.lines.length → cut.result = .error .write ∧ cut.log <+: full.log ∧
        ∃ k, CutAt entry program n k) := by
  intro full cut
  have hlines : full.sink.lines.length = full.sink.values.length := by simp [Sink.lines]
  rw [hlines]
  by_cases hle : full.sink.values.length ≤ n
  · have hcut := run_of_room hle
    refine ⟨?_, fun _ => ?_, fun hlong => absurd hle (Nat.not_le_of_lt hlong)⟩
    · rw [List.take_of_length_le (hlines ▸ hle)]
      exact congrArg (fun r => r.sink.lines) hcut
    · have hresult := congrArg Report.result hcut
      have hlog := congrArg Report.log hcut
      exact ⟨hresult, hlog⟩
  · have hlong := Nat.lt_of_not_le hle
    obtain ⟨hresult, hlog, hlength, hsuffix, hcutAt⟩ := run_refused hlong
    refine ⟨?_, fun h => absurd h hle, fun _ => ⟨hresult, hlog, hcutAt⟩⟩
    have hprefix : cut.sink.lines <+: full.sink.lines := (List.reverse_prefix.2 hsuffix).map Sink.line
    have hcount : cut.sink.lines.length = n := by simpa [Sink.lines] using hlength
    rw [← hcount]
    exact List.prefix_iff_eq_take.1 hprefix

open Parsing in
/-- With room for one line of two, the last `print` is refused its line. -/
theorem run_cut_halving :
    let tree := halving (some .int) (some .string)
    (run defaultEntry tree ⟨[], none⟩).sink.lines = [utf8 "go\n", utf8 "4\n"] ∧
      (run defaultEntry tree ⟨[], some 1⟩).sink.lines = [utf8 "go\n"] ∧
      (run defaultEntry tree ⟨[], some 1⟩).result = .error .write ∧
      ∃ k, CutAt defaultEntry tree 1 k := by
  intro tree
  have hfull : (run defaultEntry tree ⟨[], none⟩).sink.lines = [utf8 "go\n", utf8 "4\n"] := by rfl
  obtain ⟨hlines, -, hrefused⟩ := run_cut defaultEntry tree 1
  rw [hfull] at hlines hrefused
  obtain ⟨hresult, -, hcut⟩ := hrefused (by decide)
  exact ⟨hfull, hlines, hresult, hcut⟩

end

end Run

end Swiftlet
