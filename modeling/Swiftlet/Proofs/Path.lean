import Swiftlet.Path
import Swiftlet.Proofs.Lexing.Spelling

/-!
# Paths upwards

Every way up a path comes to an end, and the cleaned absolute paths are the lists of their elements.

* `weight` — the bytes of pieces with a slash behind each.
* `IsName` — an element that leads down: it is not empty, not `.` or `..`, and has no slash.
* `rooted` — the absolute path with given elements.

Principal results: `dir_cases`, that a step up shortens a path or ends at `.` or `/`,
`ancestors_eq`, that all directories above a path are found, `isAbsolute_clean_iff`, which paths are
absolute and cleaned, and `dir_rooted`, `join_rooted`, what stands above and below them.
-/

namespace Swiftlet

namespace Path

/-! ## Pieces -/

theorem pieces_ne_nil (bs : Bytes) : pieces bs ≠ [] := by
  cases bs with
  | nil => simp [pieces]
  | cons b bs =>
      rw [pieces]
      split
      · simp
      · split <;> simp

theorem pieces_cons {b : UInt8} {bs p : Bytes} {ps : List Bytes} (h : pieces bs = p :: ps) :
    pieces (b :: bs) = if b = slash then [] :: p :: ps else (b :: p) :: ps := by
  rw [pieces, h]

theorem pieces_append_slash (bs more : Bytes) :
    pieces (bs ++ slash :: more) = pieces bs ++ pieces more := by
  obtain ⟨q, qs, hmore⟩ := List.exists_cons_of_ne_nil (pieces_ne_nil more)
  induction bs with
  | nil => rw [List.nil_append, pieces_cons hmore, if_pos rfl, hmore, pieces, List.singleton_append]
  | cons b bs ih =>
      obtain ⟨p, ps, hbs⟩ := List.exists_cons_of_ne_nil (pieces_ne_nil bs)
      rw [hbs, List.cons_append] at ih
      rw [List.cons_append, pieces_cons ih, pieces_cons hbs]
      split <;> rfl

theorem pieces_slash_cons (more : Bytes) : pieces (slash :: more) = [] :: pieces more :=
  pieces_append_slash [] more

theorem pieces_of_not_mem {bs : Bytes} (h : slash ∉ bs) : pieces bs = [bs] := by
  induction bs with
  | nil => rfl
  | cons b bs ih =>
      rw [List.mem_cons, not_or] at h
      rw [pieces_cons (ih h.2), if_neg fun heq => h.1 heq.symm]

theorem slash_not_mem_pieces {bs p : Bytes} (h : p ∈ pieces bs) : slash ∉ p := by
  induction bs generalizing p with
  | nil =>
      obtain rfl := List.mem_singleton.1 h
      simp
  | cons b bs ih =>
      obtain ⟨q, qs, hbs⟩ := List.exists_cons_of_ne_nil (pieces_ne_nil bs)
      rw [hbs] at ih
      rw [pieces_cons hbs] at h
      split at h
      · rcases List.mem_cons.1 h with rfl | h
        · simp
        · exact ih h
      · rename_i hb
        rcases List.mem_cons.1 h with rfl | h
        · rw [List.mem_cons, not_or]
          exact ⟨fun heq => hb heq.symm, ih List.mem_cons_self⟩
        · exact ih (List.mem_cons_of_mem q h)

/-- Elements with a slash between them are the pieces of the text. -/
theorem pieces_join {es : List Bytes} (hne : es ≠ []) (h : ∀ e ∈ es, slash ∉ e) :
    pieces (Bytes.join [slash] es) = es := by
  induction es with
  | nil => exact absurd rfl hne
  | cons e es ih =>
      rw [List.forall_mem_cons] at h
      cases es with
      | nil => simpa [Bytes.join] using pieces_of_not_mem h.1
      | cons e' es =>
          have ih := ih (List.cons_ne_nil _ _) h.2
          rw [Bytes.join, List.intercalate_cons_cons, List.append_assoc, List.singleton_append,
            pieces_append_slash, pieces_of_not_mem h.1, List.singleton_append]
          exact congrArg (e :: ·) ih

/-! ## How long a cleaned path is -/

/-- The bytes of pieces with a slash behind each. -/
def weight (ps : List Bytes) : Nat := ps.foldr (fun p n => p.length + 1 + n) 0

theorem weight_cons (p : Bytes) (ps : List Bytes) : weight (p :: ps) = p.length + 1 + weight ps :=
  rfl

theorem weight_append (ps qs : List Bytes) : weight (ps ++ qs) = weight ps + weight qs := by
  induction ps with
  | nil => simp [weight]
  | cons p ps ih =>
      rw [List.cons_append, weight_cons, weight_cons, ih]
      omega

theorem weight_reverse (ps : List Bytes) : weight ps.reverse = weight ps := by
  induction ps with
  | nil => rfl
  | cons p ps ih =>
      rw [List.reverse_cons, weight_append, ih, weight_cons, Nat.add_comm]
      rfl

theorem weight_pieces (bs : Bytes) : weight (pieces bs) = bs.length + 1 := by
  induction bs with
  | nil => rfl
  | cons b bs ih =>
      obtain ⟨p, ps, hbs⟩ := List.exists_cons_of_ne_nil (pieces_ne_nil bs)
      rw [hbs, weight_cons] at ih
      rw [pieces_cons hbs]
      split
      · simp only [weight_cons, List.length_nil, List.length_cons]
        omega
      · simp only [weight_cons, List.length_cons]
        omega

theorem length_join {es : List Bytes} (hne : es ≠ []) :
    (Bytes.join [slash] es).length + 1 = weight es := by
  induction es with
  | nil => exact absurd rfl hne
  | cons e es ih =>
      cases es with
      | nil => simp [Bytes.join, weight]
      | cons e' es =>
          have ih := ih (List.cons_ne_nil _ _)
          rw [weight_cons, ← ih, Bytes.join, List.intercalate_cons_cons]
          simp only [Bytes.join, List.length_append, List.length_cons, List.length_nil]
          omega

theorem weight_step_le (isRooted : Bool) (es : List Bytes) (p : Bytes) :
    weight (step isRooted es p) ≤ weight es + (p.length + 1) := by
  unfold step
  split
  · omega
  split
  · rename_i hparent
    split
    · split
      · simp [weight]
      · rw [hparent, weight_cons]
        omega
    · split
      · rw [hparent, weight_cons]
        omega
      · rw [weight_cons]
        omega
  · rw [weight_cons]
    omega

theorem weight_foldl_step_le (isRooted : Bool) (ps es : List Bytes) :
    weight (ps.foldl (step isRooted) es) ≤ weight es + weight ps := by
  induction ps generalizing es with
  | nil => simp
  | cons p ps ih =>
      rw [List.foldl_cons, weight_cons]
      have := ih (step isRooted es p)
      have := weight_step_le isRooted es p
      omega

/-- The elements of a cleaned path. -/
def elements (path : Bytes) : List Bytes :=
  ((pieces path).foldl (step (isAbsolute path)) []).reverse

theorem clean_eq (path : Bytes) :
    clean path =
      if isAbsolute path then slash :: Bytes.join [slash] (elements path)
      else if elements path = [] then current else Bytes.join [slash] (elements path) :=
  rfl

theorem step_nil (isRooted : Bool) (es : List Bytes) : step isRooted es [] = es := if_pos (.inl rfl)

theorem isAbsolute_append {bs : Bytes} (hne : bs ≠ []) (more : Bytes) :
    isAbsolute (bs ++ more) = isAbsolute bs := by
  obtain ⟨b, bs, rfl⟩ := List.exists_cons_of_ne_nil hne
  rfl

theorem elements_append_slash {bs : Bytes} (hne : bs ≠ []) :
    elements (bs ++ [slash]) = elements bs := by
  rw [elements, elements, isAbsolute_append hne, pieces_append_slash, List.foldl_append]
  simp [pieces, step_nil]

/-- The elements of a path, with a slash behind each, have no more bytes than the path with a slash
behind it; if the path is absolute, no more than the path. -/
theorem weight_elements_le (bs : Bytes) :
    weight (elements bs) ≤ if isAbsolute bs then bs.length else bs.length + 1 := by
  rw [elements, weight_reverse]
  -- The first piece of an absolute path is empty, so that its slash is not counted.
  split
  · rename_i habs
    obtain ⟨more, rfl⟩ : ∃ more, bs = slash :: more := by
      cases bs with
      | nil => simp [isAbsolute] at habs
      | cons b more => exact ⟨more, by simpa [isAbsolute] using habs⟩
    rw [pieces_slash_cons, List.foldl_cons, step_nil]
    have := weight_foldl_step_le (isAbsolute (slash :: more)) (pieces more) []
    rw [weight_pieces] at this
    simpa [weight] using this
  · have := weight_foldl_step_le (isAbsolute bs) (pieces bs) []
    rw [weight_pieces] at this
    simpa [weight] using this

/-- Cleaning removes a slash at the end, unless it is all there is. -/
theorem length_clean_append_slash {bs : Bytes} (hne : bs ≠ []) :
    (clean (bs ++ [slash])).length ≤ bs.length := by
  have hpos := List.length_pos_iff.2 hne
  have hweight := weight_elements_le bs
  rw [clean_eq, isAbsolute_append hne, elements_append_slash hne]
  by_cases hempty : elements bs = []
  · rw [hempty]
    split
    · exact hpos
    · exact hpos
  · rw [← length_join hempty] at hweight
    split at hweight
    · rename_i habs
      rw [if_pos habs, List.length_cons]
      exact hweight
    · rename_i habs
      rw [if_neg habs, if_neg hempty]
      omega

/-! ## One step up -/

/-- Read from the end, what is behind the last slash is dropped. -/
theorem dropWhile_reverse_append {last : Bytes} (h : slash ∉ last) (more : Bytes)
    (hmore : ∀ b ∈ more.head?, b = slash) :
    (last.reverse ++ more).dropWhile (fun b => b ≠ slash) = more := by
  refine (Lexing.takeWhile_append_stop more (fun b hb => ?_) fun b hb => ?_).2
  · exact decide_eq_true fun heq => h (heq ▸ List.mem_reverse.1 hb)
  · simp [hmore b hb]

theorem dir_of_not_mem {d : Bytes} (h : slash ∉ d) : dir d = current := by
  have hdrop := dropWhile_reverse_append h [] (by simp)
  rw [List.append_nil] at hdrop
  rw [dir, hdrop]
  rfl

theorem dir_append_slash (above : Bytes) {last : Bytes} (h : slash ∉ last) :
    dir (above ++ slash :: last) = clean (above ++ [slash]) := by
  rw [dir, List.reverse_append, List.reverse_cons, List.append_assoc, List.singleton_append,
    dropWhile_reverse_append h _ (by simp), List.reverse_cons, List.reverse_reverse]

theorem last_slash_cases (d : Bytes) :
    slash ∉ d ∨ ∃ above last, d = above ++ slash :: last ∧ slash ∉ last := by
  by_cases hmem : slash ∈ d
  · obtain ⟨last, above, heq, hlast⟩ := List.eq_append_cons_of_mem (List.mem_reverse.2 hmem)
    refine .inr ⟨above.reverse, last.reverse, ?_, by simpa using hlast⟩
    rw [← List.reverse_reverse d, heq]
    simp
  · exact .inl hmem

/-- **A step up shortens a path, or it comes to `.` or to the root.** -/
theorem dir_cases (d : Bytes) : dir d = current ∨ dir d = [slash] ∨ (dir d).length < d.length := by
  rcases last_slash_cases d with h | ⟨above, last, rfl, hlast⟩
  · exact .inl (dir_of_not_mem h)
  · rw [dir_append_slash above hlast]
    by_cases hne : above = []
    · subst hne
      exact .inr (.inl rfl)
    · have := length_clean_append_slash hne
      refine .inr (.inr ?_)
      rw [List.length_append, List.length_cons]
      omega

/-! ## All the way up -/

theorem climb_succ (n : Nat) (d : Bytes) :
    climb (n + 1) d = d :: if dir d = d then [] else climb n (dir d) :=
  rfl

theorem climb_of_fixed {d : Bytes} (h : dir d = d) (n : Nat) : climb (n + 1) d = [d] := by
  rw [climb_succ, if_pos h]

theorem dir_current : dir current = current := rfl

theorem dir_root : dir [slash] = [slash] := rfl

theorem length_climb_le (n : Nat) (d : Bytes) : (climb n d).length ≤ n := by
  induction n generalizing d with
  | zero => simp [climb]
  | succ n ih =>
      rw [climb_succ, List.length_cons]
      split
      · simp
      · exact Nat.succ_le_succ (ih _)

/-- Two more steps than the path has bytes are as good as any more. -/
theorem climb_eq_climb {d : Bytes} {n k : Nat} (hn : d.length + 2 ≤ n) (hk : d.length + 2 ≤ k) :
    climb n d = climb k d := by
  -- By induction on the bytes of the path: a step up that does not shorten it is the last but one.
  induction hlength : d.length using Nat.strongRecOn generalizing d n k with
  | ind l ih =>
      obtain ⟨n, rfl⟩ : ∃ i, n = i + 2 := ⟨n - 2, by omega⟩
      obtain ⟨k, rfl⟩ : ∃ i, k = i + 2 := ⟨k - 2, by omega⟩
      rw [climb_succ (n + 1), climb_succ (k + 1)]
      split
      · rfl
      · rcases dir_cases d with hup | hup | hup
        · rw [hup, climb_of_fixed dir_current, climb_of_fixed dir_current]
        · rw [hup, climb_of_fixed dir_root, climb_of_fixed dir_root]
        · rw [ih _ (hlength ▸ hup) (n := n + 1) (k := k + 1) (by omega) (by omega) rfl]

/-- **The directories above a path are those above the next one**, if there is a next one. -/
theorem ancestors_eq (d : Bytes) :
    ancestors d = d :: if dir d = d then [] else ancestors (dir d) := by
  have hmore : ancestors d = climb (d.length + (dir d).length + 3) d :=
    climb_eq_climb (Nat.le_refl _) (by omega)
  rw [hmore, climb_succ]
  split
  · rfl
  · exact congrArg (d :: ·) (climb_eq_climb (by omega) (Nat.le_refl _))

theorem length_ancestors_le (d : Bytes) : (ancestors d).length ≤ d.length + 2 := length_climb_le _ d

/-! ## Absolute paths -/

/-- An element that leads down. -/
def IsName (e : Bytes) : Prop := e ≠ [] ∧ e ≠ current ∧ e ≠ parent ∧ slash ∉ e

instance (e : Bytes) : Decidable (IsName e) := inferInstanceAs (Decidable (_ ∧ _))

/-- The absolute path with elements `es`. -/
def rooted (es : List Bytes) : Bytes := slash :: Bytes.join [slash] es

theorem step_of_isName {e : Bytes} (h : IsName e) (isRooted : Bool) (es : List Bytes) :
    step isRooted es e = e :: es := by
  obtain ⟨hne, hcurrent, hparent, -⟩ := h
  simp [step, hne, hcurrent, hparent]

theorem foldl_step_names {es : List Bytes} (h : ∀ e ∈ es, IsName e) (isRooted : Bool)
    (acc : List Bytes) : es.foldl (step isRooted) acc = es.reverse ++ acc := by
  induction es generalizing acc with
  | nil => rfl
  | cons e es ih =>
      rw [List.forall_mem_cons] at h
      rw [List.foldl_cons, step_of_isName h.1, ih h.2]
      simp

/-- Empty pieces do not count. -/
theorem foldl_step_filter (isRooted : Bool) (ps acc : List Bytes) :
    (ps.filter (· ≠ [])).foldl (step isRooted) acc = ps.foldl (step isRooted) acc := by
  induction ps generalizing acc with
  | nil => rfl
  | cons p ps ih =>
      by_cases hp : p = []
      · subst hp
        rw [List.filter_cons_of_neg (by simp), ih, List.foldl_cons, step_nil]
      · rw [List.filter_cons_of_pos (by simpa using hp), List.foldl_cons, List.foldl_cons, ih]

/-- An absolute path whose pieces are names, but for empty ones, has these names as its elements. -/
theorem clean_eq_rooted {path : Bytes} {es : List Bytes} (habs : isAbsolute path = true)
    (hpieces : (pieces path).filter (· ≠ []) = es) (hes : ∀ e ∈ es, IsName e) :
    clean path = rooted es := by
  have helements : elements path = es := by
    rw [elements, ← foldl_step_filter, hpieces, foldl_step_names hes]
    simp
  rw [clean_eq, if_pos habs, helements]
  rfl

section

variable {es : List Bytes} {e : Bytes}

theorem pieces_rooted (hes : ∀ e ∈ es, IsName e) : (pieces (rooted es)).filter (· ≠ []) = es := by
  rw [rooted, pieces_slash_cons, List.filter_cons_of_neg (by simp)]
  by_cases hne : es = []
  · subst hne
    rfl
  · rw [pieces_join hne fun e he => (hes e he).2.2.2, List.filter_eq_self]
    exact fun e he => decide_eq_true (hes e he).1

theorem rooted_concat (hne : es ≠ []) (e : Bytes) :
    rooted (es ++ [e]) = rooted es ++ slash :: e := by
  rw [rooted, rooted, List.cons_append]
  congr 1
  induction es with
  | nil => exact absurd rfl hne
  | cons e' es ih =>
      cases es with
      | nil => simp [Bytes.join, List.intercalate]
      | cons e'' es =>
          have ih := ih (List.cons_ne_nil _ _)
          simp only [Bytes.join, List.cons_append, List.intercalate_cons_cons] at ih ⊢
          simp [ih]

/-- The directory of the last element of an absolute path is the path of the others. -/
theorem dir_rooted (hes : ∀ e ∈ es, IsName e) (he : IsName e) :
    dir (rooted (es ++ [e])) = rooted es := by
  by_cases hne : es = []
  · subst hne
    have hpath : rooted ([] ++ [e]) = [] ++ slash :: e := by simp [rooted, Bytes.join]
    rw [hpath, dir_append_slash [] he.2.2.2]
    rfl
  · rw [rooted_concat hne, dir_append_slash _ he.2.2.2]
    refine clean_eq_rooted rfl ?_ hes
    rw [pieces_append_slash, List.filter_append, pieces_rooted hes]
    simp [pieces]

/-- A name in an absolute directory is its last element. -/
theorem join_rooted (hes : ∀ e ∈ es, IsName e) (he : IsName e) :
    join (rooted es) e = rooted (es ++ [e]) := by
  have hne : rooted es ≠ [] := List.cons_ne_nil _ _
  rw [join, if_neg fun h => hne h.1, if_neg hne, if_neg he.1, List.append_assoc,
    List.singleton_append]
  refine clean_eq_rooted rfl ?_ (List.forall_mem_append.2 ⟨hes, List.forall_mem_singleton.2 he⟩)
  rw [pieces_append_slash, List.filter_append, pieces_rooted hes, pieces_of_not_mem he.2.2.2]
  simp [he.1]

theorem rooted_ne (he : e ≠ []) : rooted es ≠ rooted (es ++ [e]) := by
  intro heq
  have hlength := congrArg List.length heq
  have := List.length_pos_iff.2 he
  by_cases hne : es = []
  · subst hne
    simp [rooted, Bytes.join, he] at hlength
  · rw [rooted_concat hne, List.length_append, List.length_cons] at hlength
    omega

end

theorem isName_step {es : List Bytes} {p : Bytes} (hes : ∀ e ∈ es, IsName e) (hp : slash ∉ p) :
    ∀ e ∈ step true es p, IsName e := by
  unfold step
  split
  · exact hes
  split
  · split
    · simp
    · -- The element that is taken back is a name, so it is not another step up.
      rename_i e rest
      rw [List.forall_mem_cons] at hes
      rw [if_neg hes.1.2.2.1]
      exact hes.2
  · rename_i hskip hparent
    rw [not_or] at hskip
    exact List.forall_mem_cons.2 ⟨⟨hskip.1, hskip.2, hparent, hp⟩, hes⟩

theorem isName_foldl_step {ps es : List Bytes} (hps : ∀ p ∈ ps, slash ∉ p)
    (hes : ∀ e ∈ es, IsName e) : ∀ e ∈ ps.foldl (step true) es, IsName e := by
  induction ps generalizing es with
  | nil => exact hes
  | cons p ps ih =>
      rw [List.forall_mem_cons] at hps
      exact ih hps.2 (isName_step hes hps.1)

/-- **The absolute cleaned paths are those of lists of names.** -/
theorem isAbsolute_clean_iff {d : Bytes} :
    isAbsolute d = true ∧ clean d = d ↔ ∃ es, (∀ e ∈ es, IsName e) ∧ d = rooted es := by
  constructor
  · rintro ⟨habs, hclean⟩
    refine ⟨elements d, fun e he => ?_, ?_⟩
    · rw [elements, habs, List.mem_reverse] at he
      exact isName_foldl_step (fun p => slash_not_mem_pieces) (by simp) e he
    · rw [clean_eq, if_pos habs] at hclean
      exact hclean.symm
  · rintro ⟨es, hes, rfl⟩
    exact ⟨rfl, clean_eq_rooted rfl (pieces_rooted hes) hes⟩

end Path

end Swiftlet
