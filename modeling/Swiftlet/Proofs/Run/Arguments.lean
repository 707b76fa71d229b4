import Swiftlet.Proofs.Run.Nesting

/-!
# Arguments are evaluated once

An argument is evaluated when its parameter is read for the first time, in the frame of the caller, and
its value goes into the cache of the callee. Much can happen in between: the argument may call the same
function, with parameters of the same names, and these may be read as well. To tell activations apart
each is numbered by the step at which it began.

* `births` — the numbers of the activations in progress, step by step: a call begins one, and going up to
  the caller for an argument and coming back only changes which one runs.
* `State.inProgress` — the activations of a state with their numbers.
* `Begins` — a step goes up to the caller for an argument; `Reads` — a name is read.
* `Activation.Grows` — an activation and the same one later: its arguments are the same, and what was in
  its cache still is.
* `State.Counted` — what every step keeps: each activation has a number of its own, and no callee waits for
  what it has in its cache.
* `Settled` — what every step keeps of an argument whose evaluation has begun: it is being waited for, or
  in the cache, or the run fails.

Principal results: `Move.descends` and `Move.settled` for one step, and `arguments_once` for whole runs.
-/

namespace Swiftlet

namespace Run

/-! ## The activations in progress -/

/-- The parameter that is waited for, and the callee that waits. -/
def Pending.wait? : Pending → Option (Bytes × Activation)
  | .cache name callee => some (name, callee)
  | _ => none

/-- The callees that wait for an argument, innermost first, and their parameters. -/
def waits (ps : List Pending) : List (Bytes × Activation) := ps.filterMap Pending.wait?

/-- The steps at which the activations in progress began. -/
structure Births where
  /-- Those of the running activation and its callers. -/
  chain : List Nat
  /-- Those of the callees that wait. -/
  waiting : List Nat

/-- The numbers after step `k`, which leaves `ps'` to do where `ps` was. Only calls and arguments make a
difference. -/
def Births.next (k : Nat) (ps ps' : List Pending) (b : Births) : Births :=
  if entered ps < entered ps' then ⟨k :: b.chain, b.waiting⟩
  else if entered ps' < entered ps then ⟨b.chain.tail, b.waiting⟩
  else if forced ps < forced ps' then ⟨b.chain.tail, b.chain.take 1 ++ b.waiting⟩
  else if forced ps' < forced ps then ⟨b.waiting.take 1 ++ b.chain, b.waiting.tail⟩
  else b

/-- The numbers of the activations in progress after so many steps. -/
def births (program : List Node) (x : Stage) : Nat → Births
  | 0 => ⟨[0], []⟩
  | k + 1 =>
    match after program k x, after program (k + 1) x with
    | .running s, .running s' => (births program x k).next (k + 1) s.pending s'.pending
    | _, _ => births program x k

/-- The activations in progress with their numbers. -/
def State.inProgress (b : Births) (s : State) : List (Nat × Activation) :=
  b.chain.zip (s.active :: s.callers) ++ b.waiting.zip ((waits s.pending).map Prod.snd)

/-- After `k` steps the activation `t` is in progress, and `a` is what there is of it. -/
def InProgress (program : List Node) (x : Stage) (k t : Nat) (a : Activation) : Prop :=
  ∃ s, after program k x = .running s ∧ (t, a) ∈ s.inProgress (births program x k)

/-- After `k` steps the state is `s`, and the activation `t` reads `name`. -/
structure Reads (program : List Node) (x : Stage) (k t : Nat) (name : Bytes) (s : State) : Prop where
  state : after program k x = .running s
  running : (births program x k).chain.head? = some t
  control : ∃ token : Token, token.lexeme = name ∧ s.control = .eval (.ref token)

/-- The step from `k` goes up to the caller for argument `i` of the activation `t`. -/
def Begins (program : List Node) (x : Stage) (k t i : Nat) : Prop :=
  ∃ s s' name callee, after program k x = .running s ∧ after program (k + 1) x = .running s' ∧
    s'.pending = .cache name callee :: s.pending ∧
    (births program x (k + 1)).waiting.head? = some t ∧
    callee.frame.signature.paramIndex? name = some i

@[simp] theorem waits_leave (ps : List Pending) : waits (.leave :: ps) = waits ps := rfl

@[simp] theorem waits_cache (name : Bytes) (a : Activation) (ps : List Pending) :
    waits (.cache name a :: ps) = (name, a) :: waits ps := rfl

theorem waits_outer (ps : List Pending) : waits (outer ps) = waits ps := by
  induction ps with
  | nil => rfl
  | cons p ps ih =>
      cases p with
      | leave | cache => rfl
      | _ => exact ih

section

variable {k : Nat} {ps ps' : List Pending} {b : Births}

theorem Births.next_of_outer (h : outer ps' = outer ps) : b.next k ps ps' = b := by
  have hentered : entered ps' = entered ps := by rw [← entered_outer, h, entered_outer]
  have hforced : forced ps' = forced ps := by rw [← forced_outer, h, forced_outer]
  simp [Births.next, hentered, hforced]

@[simp] theorem Births.next_enter : b.next k ps (.leave :: ps) = ⟨k :: b.chain, b.waiting⟩ := by
  rw [Births.next, entered_leave, if_pos (by omega)]

@[simp] theorem Births.next_leave : b.next k (.leave :: ps) ps = ⟨b.chain.tail, b.waiting⟩ := by
  rw [Births.next, entered_leave, if_neg (by omega), if_pos (by omega)]

@[simp] theorem Births.next_force {name : Bytes} {a : Activation} :
    b.next k ps (.cache name a :: ps) = ⟨b.chain.tail, b.chain.take 1 ++ b.waiting⟩ := by
  rw [Births.next, entered_cache, forced_cache, if_neg (by omega), if_neg (by omega),
    if_pos (by omega)]

@[simp] theorem Births.next_resume {name : Bytes} {a : Activation} :
    b.next k (.cache name a :: ps) ps = ⟨b.waiting.take 1 ++ b.chain, b.waiting.tail⟩ := by
  rw [Births.next, entered_cache, forced_cache, if_neg (by omega), if_neg (by omega),
    if_neg (by omega), if_pos (by omega)]

end

/-! ## What every step keeps -/

/-- The same activation later. -/
structure Activation.Grows (a a' : Activation) : Prop where
  signature : a'.frame.signature = a.frame.signature
  actuals : a'.actuals = a.actuals
  cache : ∀ name v, a.frame.cache.lookup name = some v → a'.frame.cache.lookup name = some v

/-- Every activation in progress after `k` steps has a number of its own, and no callee waits for what it
has in its cache. -/
structure State.Counted (k : Nat) (b : Births) (s : State) : Prop where
  chain : b.chain.length = s.callers.length + 1
  waiting : b.waiting.length = (waits s.pending).length
  nodup : (b.chain ++ b.waiting).Nodup
  past : ∀ t ∈ b.chain ++ b.waiting, t ≤ k
  unread : ∀ w ∈ waits s.pending, w.2.frame.cache.lookup w.1 = none

theorem Activation.Grows.refl (a : Activation) : a.Grows a := ⟨rfl, rfl, fun _ _ h => h⟩

theorem Activation.Grows.trans {a a' a'' : Activation} (h : a.Grows a') (h' : a'.Grows a'') :
    a.Grows a'' :=
  ⟨h'.signature.trans h.signature, h'.actuals.trans h.actuals,
    fun name v hv => h'.cache name v (h.cache name v hv)⟩

theorem Activation.Grows.of_core {a a' : Activation} (h : a'.core = a.core) : a.Grows a' := by
  obtain ⟨⟨signature, cache, log⟩, actuals, depth⟩ := a
  obtain ⟨⟨signature', cache', log'⟩, actuals', depth'⟩ := a'
  cases h
  exact ⟨rfl, rfl, fun _ _ h => h⟩

theorem Activation.lookup_store (a : Activation) (name : Bytes) (v : Value) :
    (a.store name v).frame.cache.lookup name = some v :=
  List.lookup_cons_self

/-- Nothing is lost when a value that was not known goes into the cache. -/
theorem Activation.Grows.store {a : Activation} {name : Bytes}
    (h : a.frame.cache.lookup name = none) (v : Value) : a.Grows (a.store name v) := by
  refine ⟨rfl, rfl, fun y w hw => ?_⟩
  have hne : (y == name) = false := by
    rw [beq_eq_false_iff_ne]
    rintro rfl
    rw [h] at hw
    cases hw
  have hskip : (a.store name v).frame.cache.lookup y = a.frame.cache.lookup y := by
    simp [Activation.store, List.lookup_cons, hne]
  rw [hskip, hw]

section

variable {program : List Node} {k : Nat} {b : Births} {s s' : State}

theorem State.Counted.chain_eq (h : s.Counted k b) : ∃ t ts, b.chain = t :: ts := by
  have hlength := h.chain
  cases hchain : b.chain with
  | nil => simp [hchain] at hlength
  | cons t ts => exact ⟨t, ts, rfl⟩

/-- **A step keeps the numbers apart.** -/
theorem Move.counted (h : Move program s s') (hs : s.Counted k b) :
    s'.Counted (k + 1) (b.next (k + 1) s.pending s'.pending) := by
  obtain ⟨t, ts, hchain⟩ := hs.chain_eq
  obtain ⟨chain, waiting⟩ := b
  obtain ⟨hlength, hwaiting, hnodup, hpast, hunread⟩ := hs
  dsimp only at hchain hlength hwaiting hnodup hpast
  subst hchain
  have hpast' : ∀ t' ∈ t :: ts ++ waiting, t' ≤ k + 1 := fun t' ht' => Nat.le_succ_of_le (hpast t' ht')
  cases h with
  | within h =>
      have hwaits : waits s'.pending = waits s.pending := by
        rw [← waits_outer, h.outer, waits_outer]
      rw [Births.next_of_outer h.outer]
      exact ⟨by rw [h.callers]; exact hlength, by rw [hwaits]; exact hwaiting, hnodup, hpast',
        by rw [hwaits]; exact hunread⟩
  | enter _ _ _ _ h =>
      subst h
      have hnew : k + 1 ∉ t :: ts ++ waiting := fun hmem => Nat.not_succ_le_self k (hpast _ hmem)
      rw [Births.next_enter]
      refine ⟨by simpa using hlength, hwaiting, List.nodup_cons.2 ⟨hnew, hnodup⟩, ?_, hunread⟩
      exact List.forall_mem_cons.2 ⟨Nat.le_refl _, hpast'⟩
  | force hcontrol hnew _ _ hcallers h =>
      subst h
      have hperm : (ts ++ t :: waiting).Perm (t :: ts ++ waiting) := List.perm_middle
      rw [Births.next_force]
      refine ⟨?_, by simpa using hwaiting, hperm.nodup_iff.2 hnodup,
        fun t' ht' => hpast' t' (hperm.mem_iff.1 ht'), List.forall_mem_cons.2 ⟨hnew, hunread⟩⟩
      simpa [hcallers] using hlength
  | leave hpending hcallers _ =>
      rw [hpending, Births.next_leave]
      rw [hpending, waits_leave] at hwaiting hunread
      refine ⟨?_, hwaiting, hnodup.of_cons, fun t' ht' => hpast' t' (List.mem_cons_of_mem t ht'),
        hunread⟩
      simpa [hcallers] using hlength
  | resume hpending _ hcallers =>
      rw [hpending, Births.next_resume]
      rw [hpending, waits_cache, List.length_cons] at hwaiting
      rw [hpending, waits_cache, List.forall_mem_cons] at hunread
      cases waiting with
      | nil => simp at hwaiting
      | cons u us =>
          have hperm : (u :: (t :: ts) ++ us).Perm (t :: ts ++ u :: us) := List.perm_middle.symm
          refine ⟨?_, by simpa using hwaiting, hperm.nodup_iff.2 hnodup,
            fun t' ht' => hpast' t' (hperm.mem_iff.1 ht'), hunread.2⟩
          simpa [hcallers] using hlength

/-- **Every activation after a step was there before it**, unless the step began it. -/
theorem Move.descends (h : Move program s s') (hs : s.Counted k b) {t : Nat} {a' : Activation}
    (ha' : (t, a') ∈ s'.inProgress (b.next (k + 1) s.pending s'.pending)) :
    t = k + 1 ∨ ∃ a, (t, a) ∈ s.inProgress b ∧ a.Grows a' := by
  obtain ⟨c, cs, hchain⟩ := hs.chain_eq
  obtain ⟨chain, waiting⟩ := b
  dsimp only at hchain
  subst hchain
  have hsame : (t, a') ∈ s.inProgress ⟨c :: cs, waiting⟩ →
      t = k + 1 ∨ ∃ a, (t, a) ∈ s.inProgress ⟨c :: cs, waiting⟩ ∧ a.Grows a' :=
    fun hmem => .inr ⟨a', hmem, .refl a'⟩
  cases h with
  | within h =>
      rw [Births.next_of_outer h.outer] at ha'
      simp only [State.inProgress, List.zip_cons_cons, List.cons_append, List.mem_cons, h.callers,
        ← waits_outer s'.pending, h.outer, waits_outer s.pending] at ha' hsame ⊢
      rcases ha' with heq | ha'
      · cases heq
        exact .inr ⟨s.active, .inl rfl, .of_core h.core⟩
      · exact hsame (.inr ha')
  | enter _ _ _ _ h =>
      subst h
      rw [Births.next_enter] at ha'
      rcases List.mem_cons.1 ha' with heq | ha'
      · cases heq
        exact .inl rfl
      · exact hsame ha'
  | force _ _ _ _ hcallers h =>
      subst h
      rw [Births.next_force] at ha'
      apply hsame
      simp only [State.inProgress, hcallers, List.tail_cons, List.take_succ_cons, List.take_zero,
        waits_cache, List.map_cons, List.cons_append, List.nil_append, List.zip_cons_cons,
        List.mem_append, List.mem_cons] at ha' ⊢
      rcases ha' with hchain | hactive | hwaiting
      · exact .inr (.inl hchain)
      · exact .inl hactive
      · exact .inr (.inr hwaiting)
  | leave hpending hcallers _ =>
      rw [hpending, Births.next_leave] at ha'
      apply hsame
      simp only [State.inProgress, hpending, hcallers, List.tail_cons, waits_leave,
        List.zip_cons_cons, List.cons_append, List.mem_cons] at ha' ⊢
      exact .inr ha'
  | @resume name callee hpending hactive hcallers =>
      have hunread : callee.frame.cache.lookup name = none := by
        have hunread := hs.unread
        rw [hpending, waits_cache, List.forall_mem_cons] at hunread
        exact hunread.1
      have hgrows : callee.Grows s'.active := by
        obtain ⟨v, -, hactive⟩ | ⟨-, hactive⟩ := hactive
        · rw [hactive]
          exact .store hunread v
        · rw [hactive]
          exact .refl callee
      rw [hpending, Births.next_resume] at ha'
      cases waiting with
      | nil =>
          have hlength := hs.waiting
          simp [hpending] at hlength
      | cons w ws =>
          simp only [State.inProgress, hpending, hcallers, List.tail_cons, List.take_succ_cons,
            List.take_zero, waits_cache, List.map_cons, List.cons_append, List.nil_append,
            List.zip_cons_cons, List.mem_append, List.mem_cons] at ha' hsame ⊢
          rcases ha' with heq | hactive | hchain | hwaiting
          · cases heq
            exact .inr ⟨callee, .inr (.inr (.inl rfl)), hgrows⟩
          · exact hsame (.inl hactive)
          · exact hsame (.inr (.inl hchain))
          · exact hsame (.inr (.inr (.inr hwaiting)))

theorem State.Counted.map_fst (h : s.Counted k b) :
    (s.inProgress b).map Prod.fst = b.chain ++ b.waiting := by
  rw [State.inProgress, List.map_append, List.map_fst_zip (by simp [h.chain]),
    List.map_fst_zip (by simp [h.waiting])]

theorem State.Counted.map_snd (h : s.Counted k b) :
    (s.inProgress b).map Prod.snd = s.active :: s.callers ++ (waits s.pending).map Prod.snd := by
  rw [State.inProgress, List.map_append, List.map_snd_zip (by simp [h.chain]),
    List.map_snd_zip (by simp [h.waiting])]

/-- A number belongs to one activation. -/
theorem State.Counted.unique (h : s.Counted k b) {t : Nat} {a a' : Activation}
    (ha : (t, a) ∈ s.inProgress b) (ha' : (t, a') ∈ s.inProgress b) : a = a' := by
  have hnodup : ((s.inProgress b).map Prod.fst).Nodup := h.map_fst ▸ h.nodup
  have heq := List.inj_on_of_nodup_map hnodup ha ha' rfl
  exact congrArg Prod.snd heq

theorem State.Counted.le (h : s.Counted k b) {t : Nat} {a : Activation}
    (ha : (t, a) ∈ s.inProgress b) : t ≤ k :=
  h.past t (h.map_fst ▸ List.mem_map_of_mem ha)

/-- The evaluation of an argument of the activation `t` has begun. While it is not waited for, the value
is in the cache, and if `t` is over, that does not matter any more. -/
def Settled (t : Nat) (name : Bytes) (b : Births) (s : State) : Prop :=
  (∃ e, s.control = .failed e) ∨
    (∃ callee, (t, name, callee) ∈ b.waiting.zip (waits s.pending)) ∨
    ∀ a, (t, a) ∈ s.inProgress b → ∃ v, a.frame.cache.lookup name = some v

/-- A run that fails goes on to fail. -/
theorem failed_of_step {e : Failure} (hcontrol : s.control = .failed e)
    (hstep : step program s = .running s') : s'.control = .failed e := by
  unfold step at hstep
  rw [hcontrol] at hstep
  cases hpending : s.pending with
  | nil =>
      rw [hpending] at hstep
      cases hstep
  | cons p ps =>
      rw [hpending] at hstep
      cases hstep
      cases p with
      | leave => exact State.control_pop _
      | _ => rfl

/-- **An argument whose evaluation has begun stays settled.** -/
theorem Move.settled (h : Move program s s') (hstep : step program s = .running s')
    (hs : s.Counted k b) {t : Nat} (ht : t ≤ k) {name : Bytes} (hsettled : Settled t name b s) :
    Settled t name (b.next (k + 1) s.pending s'.pending) s' := by
  obtain ⟨e, hfailed⟩ | ⟨callee, hwaits⟩ | hcached := hsettled
  · exact .inl ⟨e, failed_of_step hfailed hstep⟩
  · have hcounted := h.counted hs
    cases h with
    | within h =>
        refine .inr (.inl ⟨callee, ?_⟩)
        rwa [Births.next_of_outer h.outer, ← waits_outer s'.pending, h.outer, waits_outer s.pending]
    | enter _ _ _ _ h =>
        subst h
        refine .inr (.inl ⟨callee, ?_⟩)
        rwa [Births.next_enter]
    | force _ _ _ _ _ h =>
        subst h
        obtain ⟨c, cs, hchain⟩ := hs.chain_eq
        refine .inr (.inl ⟨callee, ?_⟩)
        rw [Births.next_force, hchain]
        exact List.mem_cons_of_mem _ hwaits
    | leave hpending _ _ =>
        refine .inr (.inl ⟨callee, ?_⟩)
        rw [hpending, Births.next_leave]
        rwa [hpending] at hwaits
    | resume hpending hactive hcallers =>
        rw [hpending, Births.next_resume] at hcounted ⊢
        rw [hpending, waits_cache] at hwaits
        obtain ⟨chain, waiting⟩ := b
        cases waiting with
        | nil => cases hwaits
        | cons w ws =>
            rcases List.mem_cons.1 hwaits with heq | hwaits
            · -- This is the callee that goes on: with the value, or with the failure.
              cases heq
              obtain ⟨v, -, hactive⟩ | ⟨hfailed, -⟩ := hactive
              · refine .inr (.inr fun a ha => ⟨v, ?_⟩)
                have hrunning : (t, s'.active) ∈ s'.inProgress ⟨[t] ++ chain, ws⟩ := List.mem_cons_self
                rw [hcounted.unique ha hrunning, hactive]
                exact callee.lookup_store name v
              · exact .inl hfailed
            · exact .inr (.inl ⟨callee, hwaits⟩)
  · refine .inr (.inr fun a' ha' => ?_)
    obtain rfl | ⟨a, ha, hgrows⟩ := h.descends hs ha'
    · omega
    · obtain ⟨v, hv⟩ := hcached a ha
      exact ⟨v, hgrows.cache name v hv⟩

end

/-! ## Whole runs -/

section

variable {entry : Bytes} {program : List Node} {sink : Sink} {x : Stage} {k k' t i : Nat}

theorem running_before {s' : State} (h : after program (k + 1) x = .running s') :
    ∃ s, after program k x = .running s ∧ step program s = .running s' := by
  rw [after_add] at h
  cases hk : after program k x with
  | ended r =>
      rw [hk, after_ended] at h
      cases h
  | running s =>
      rw [hk] at h
      exact ⟨s, rfl, h⟩

/-- What one step of a run does, the numbers included. -/
theorem run_moves (hx : start entry program sink = x) {s' : State}
    (h : after program (k + 1) x = .running s') :
    ∃ s, after program k x = .running s ∧ step program s = .running s' ∧ Move program s s' ∧
      births program x (k + 1) = (births program x k).next (k + 1) s.pending s'.pending := by
  obtain ⟨s, hk, hstep⟩ := running_before h
  subst hx
  exact ⟨s, hk, hstep, move_of_step (run_keeps hk).1 hstep, by rw [births, hk, h]⟩

theorem run_counted (hx : start entry program sink = x) {s : State}
    (h : after program k x = .running s) : s.Counted k (births program x k) := by
  induction k generalizing s with
  | zero =>
      subst hx
      unfold after start at h
      split at h
      · cases h
      · cases h
        exact ⟨rfl, rfl, List.nodup_singleton 0, by simp [births], List.forall_mem_nil _⟩
  | succ k ih =>
      obtain ⟨s₀, hk, -, hmove, hbirths⟩ := run_moves hx h
      rw [hbirths]
      exact hmove.counted (ih hk)

/-- **An activation stays the same for as long as it is in progress**, but for new values in its
cache. -/
theorem InProgress.grows (hx : start entry program sink = x) (hle : k ≤ k') {a a' : Activation}
    (h : InProgress program x k t a) (h' : InProgress program x k' t a') : a.Grows a' := by
  induction hle generalizing a' with
  | refl =>
      obtain ⟨s, hs, ha⟩ := h
      obtain ⟨s', hs', ha'⟩ := h'
      cases hs.symm.trans hs'
      rw [(run_counted hx hs).unique ha ha']
      exact .refl a'
  | step hle ih =>
      obtain ⟨s', hs', ha'⟩ := h'
      obtain ⟨s, hk, -, hmove, hbirths⟩ := run_moves hx hs'
      rw [hbirths] at ha'
      obtain rfl | ⟨a₀, ha₀, hgrows⟩ := hmove.descends (run_counted hx hk) ha'
      · -- A new activation has a number that none had before.
        obtain ⟨s₀, hs₀, ha⟩ := h
        exact absurd ((run_counted hx hs₀).le ha) (Nat.not_le_of_lt (Nat.lt_succ_of_le hle))
      · exact (ih ⟨s, hk, ha₀⟩).trans hgrows

/-- A step that goes up for an argument is the first read of a parameter. -/
theorem Begins.inv (hx : start entry program sink = x) (h : Begins program x k t i) :
    ∃ s s' name n, Reads program x k t name s ∧ after program (k + 1) x = .running s' ∧
      s.active.frame.cache.lookup name = none ∧
      s.active.frame.signature.paramIndex? name = some i ∧ s.active.actuals[i]? = some n ∧
      s'.control = .eval n ∧
      (t, name, s.active) ∈ (births program x (k + 1)).waiting.zip (waits s'.pending) := by
  obtain ⟨s, s', name, callee, hs, hs', hpending, hhead, hindex⟩ := h
  obtain ⟨s₀, hs₀, -, hmove, hbirths⟩ := run_moves hx hs'
  cases hs.symm.trans hs₀
  have hcounted := run_counted hx hs
  obtain ⟨c, cs, hchain⟩ := hcounted.chain_eq
  cases hmove with
  | within h =>
      have hforced := congrArg forced h.outer
      rw [hpending, forced_outer, forced_outer, forced_cache] at hforced
      omega
  | enter _ _ _ _ h =>
      subst h
      cases hpending
  | force hcontrol hnew hindex' hn _ h =>
      subst h
      cases hpending
      rw [hbirths, Births.next_force, hchain] at hhead ⊢
      cases hhead
      cases hindex.symm.trans hindex'
      exact ⟨s, _, _, _, ⟨hs, by rw [hchain]; rfl, _, rfl, hcontrol⟩, hs', hnew, hindex, hn, rfl,
        List.mem_cons_self⟩
  | leave hpending' | resume hpending' =>
      have hlength := congrArg List.length hpending'
      rw [hpending] at hlength
      simp only [List.length_cons] at hlength
      omega

theorem paramIndex?_inj {s : Signature} {y z : Bytes} (hy : s.paramIndex? y = some i)
    (hz : s.paramIndex? z = some i) : y = z := by
  obtain ⟨hlt, hname, -⟩ := List.findIdx?_eq_some_iff_getElem.1 hy
  obtain ⟨_, hname', -⟩ := List.findIdx?_eq_some_iff_getElem.1 hz
  rw [decide_eq_true_iff] at hname hname'
  exact hname.symm.trans hname'

theorem Reads.inProgress (hx : start entry program sink = x) {name : Bytes} {s : State}
    (h : Reads program x k t name s) : (t, s.active) ∈ s.inProgress (births program x k) := by
  obtain ⟨c, cs, hchain⟩ := (run_counted hx h.state).chain_eq
  have hhead := h.running
  rw [hchain] at hhead
  cases hhead
  rw [State.inProgress, hchain]
  exact List.mem_cons_self

theorem Begins.settled (hx : start entry program sink = x) (h : Begins program x k t i) :
    ∃ a name, InProgress program x k t a ∧ a.frame.signature.paramIndex? name = some i ∧
      ∀ k' s', k < k' → after program k' x = .running s' →
        Settled t name (births program x k') s' := by
  obtain ⟨s, s₁, name, n, hreads, hs₁, -, hindex, -, -, hwaits⟩ := h.inv hx
  refine ⟨s.active, name, ⟨s, hreads.state, hreads.inProgress hx⟩, hindex, fun k' s' hlt hs' => ?_⟩
  induction hlt generalizing s' with
  | refl =>
      cases hs₁.symm.trans hs'
      exact .inr (.inl ⟨s.active, hwaits⟩)
  | step hlt ih =>
      obtain ⟨s₀, hs₀, hstep, hmove, hbirths⟩ := run_moves hx hs'
      have hle := (run_counted hx hreads.state).le (hreads.inProgress hx)
      rw [hbirths]
      exact hmove.settled hstep (run_counted hx hs₀) (Nat.le_trans hle (Nat.le_of_lt hlt)) (ih s₀ hs₀)

/-- **No evaluation of an argument begins twice.** -/
theorem Begins.not_again (hx : start entry program sink = x) (h : Begins program x k t i)
    (h' : Begins program x k' t i) : ¬k < k' := by
  intro hlt
  obtain ⟨a, name, ha, hindex, hsettled⟩ := h.settled hx
  obtain ⟨s, -, name', n, hreads, -, hnew, hindex', -⟩ := h'.inv hx
  have hrunning := hreads.inProgress hx
  have hgrows := ha.grows hx (Nat.le_of_lt hlt) ⟨s, hreads.state, hrunning⟩
  rw [hgrows.signature] at hindex'
  obtain rfl := paramIndex?_inj hindex hindex'
  obtain ⟨token, -, hcontrol⟩ := hreads.control
  obtain ⟨e, hfailed⟩ | ⟨callee, hwaits⟩ | hcached := hsettled k' s hlt hreads.state
  · cases hcontrol.symm.trans hfailed
  · -- The running activation does not wait.
    have hnodup := (run_counted hx hreads.state).nodup
    have hchain := List.mem_of_mem_head? hreads.running
    have hwaiting := (List.of_mem_zip hwaits).1
    exact (List.nodup_append.1 hnodup).2.2 t hchain t hwaiting rfl
  · obtain ⟨v, hv⟩ := hcached s.active hrunning
    cases hnew.symm.trans hv

/-- A read of what is in the cache. -/
theorem Reads.returns {name : Bytes} {s : State} (h : Reads program x k t name s) {v : Value}
    (hv : s.active.frame.cache.lookup name = some v) :
    after program (k + 1) x = .running (s.give v) := by
  obtain ⟨token, rfl, hcontrol⟩ := h.control
  have hlookup : s.lookup token = s.give v := by
    unfold State.lookup
    rw [hv]
  rw [after_add, h.state, after, after, step, hcontrol]
  simp only [State.eval, hlookup]

end

/-- **Arguments are evaluated at most once.** The steps of a run come to its report. Every activation in
progress, running, calling or waiting, has a number of its own, and

* the step up to the caller for argument `i` of an activation is one in which the activation reads
  parameter `i`, and what is evaluated is that argument;
* there is at most one such step for each argument of each activation;
* for as long as an activation is in progress, its signature and its arguments stay the same, and so does
  the value of each parameter in its cache;
* every later read of such a parameter gives that value. -/
theorem arguments_once (entry : Bytes) (program : List Node) (sink : Sink) :
    let x := start entry program sink
    (∃ n, after program n x = .ended (run entry program sink)) ∧
      (∀ k s, after program k x = .running s →
        (s.inProgress (births program x k)).map Prod.snd =
          s.active :: s.callers ++ (waits s.pending).map Prod.snd ∧
        ((s.inProgress (births program x k)).map Prod.fst).Nodup) ∧
      (∀ k t i, Begins program x k t i → ∃ s s' name n, Reads program x k t name s ∧
        s.active.frame.signature.paramIndex? name = some i ∧ s.active.actuals[i]? = some n ∧
        after program (k + 1) x = .running s' ∧ s'.control = .eval n) ∧
      (∀ k k' t i, Begins program x k t i → Begins program x k' t i → k = k') ∧
      (∀ k k' t a a', k ≤ k' → InProgress program x k t a → InProgress program x k' t a' →
        a.Grows a') ∧
      ∀ k k' t a name v s, k ≤ k' → InProgress program x k t a →
        a.frame.cache.lookup name = some v → Reads program x k' t name s →
          after program (k' + 1) x = .running (s.give v) := by
  intro x
  refine ⟨steps_run entry program sink, fun k s hs => ?_, fun k t i h => ?_, fun k k' t i h h' => ?_,
    fun k k' t a a' hle ha ha' => ha.grows rfl hle ha', fun k k' t a name v s hle ha hv hreads => ?_⟩
  · have hcounted := run_counted rfl hs
    exact ⟨hcounted.map_snd, hcounted.map_fst ▸ hcounted.nodup⟩
  · obtain ⟨s, s', name, n, hreads, hs', -, hindex, hn, hcontrol, -⟩ := h.inv rfl
    exact ⟨s, s', name, n, hreads, hindex, hn, hs', hcontrol⟩
  · exact Nat.le_antisymm (Nat.le_of_not_lt (h'.not_again rfl h)) (Nat.le_of_not_lt (h.not_again rfl h'))
  · have hgrows := ha.grows rfl hle ⟨s, hreads.state, hreads.inProgress rfl⟩
    exact hreads.returns (hgrows.cache name v hv)

open Parsing in
/-- Two activations of one function: while the inner one, number 29, waits for its argument `n`, the outer
one, number 21, is asked for its own. -/
example :
    let program := halving (some .int) (some .string)
    let x := start defaultEntry program ⟨[], none⟩
    Begins program x 38 29 0 ∧ Begins program x 40 21 0 :=
  ⟨⟨_, _, _, _, rfl, rfl, rfl, rfl, rfl⟩, ⟨_, _, _, _, rfl, rfl, rfl, rfl, rfl⟩⟩

end Run

end Swiftlet
