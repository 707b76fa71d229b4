import Mathlib.Data.List.Induction
import Swiftlet.Config
import Swiftlet.Proofs.Path

/-!
# The search for a project file

The search goes from a directory upwards, one directory at a time, until there is a project file or
no directory above.

* `turn`, `turns` — one turn of the search and a number of turns: the directory to look at next, or
  the answer.
* `fileIn` — the project file in the absolute directory with given elements.
* `IsNearest` — the deepest directory at or above a given one that has a project file.

Principal results: `turns_eq_search`, that the search ends and with which answer, `search_rooted`,
what one turn does in an absolute directory, `search_cases`, what all of them do, and
`search_nearest`.
-/

namespace Swiftlet

namespace Config

open Swiftlet.Path

/-! ## The search ends -/

section

variable {m : Type → Type} [Monad m]

/-- One turn of the search: the next directory, or the answer. -/
def turn (existing : Bytes → m Bool) (d : Bytes) : m (Bytes ⊕ Option Bytes) := do
  if ← existing (join d fileName) then return .inr (some (join d fileName))
  else if dir d = d then return .inr none
  else return .inl (dir d)

/-- At most `n` turns of the search. -/
def turns (existing : Bytes → m Bool) : Nat → Bytes → m (Bytes ⊕ Option Bytes)
  | 0, d => return .inl d
  | n + 1, d => do
    match ← turn existing d with
    | .inl above => turns existing n above
    | .inr answer => return .inr answer

theorem candidates_eq (d : Bytes) :
    candidates d = join d fileName :: if dir d = d then [] else candidates (dir d) := by
  rw [candidates, ancestors_eq, List.map_cons]
  split <;> rfl

/-- The file of this directory, or else what is found from the next one on. -/
theorem search_eq (existing : Bytes → m Bool) (d : Bytes) :
    search existing d = existing (join d fileName) >>= fun found =>
      if found then pure (some (join d fileName))
      else if dir d = d then pure none else search existing (dir d) := by
  rw [search, candidates_eq, List.findM?]
  congr 1
  funext found
  cases found with
  | true => rfl
  | false =>
      by_cases hfixed : dir d = d
      · simp only [if_pos hfixed]
        rfl
      · simp only [if_neg hfixed]
        rfl

/-- **The search ends**, after no more turns than there are directories to look at. -/
theorem turns_eq_search [LawfulMonad m] (existing : Bytes → m Bool) {n : Nat} {d : Bytes}
    (h : (ancestors d).length ≤ n) : turns existing n d = Sum.inr <$> search existing d := by
  induction n generalizing d with
  | zero =>
      rw [ancestors_eq] at h
      simp at h
  | succ n ih =>
      rw [ancestors_eq, List.length_cons] at h
      rw [search_eq]
      simp only [turns, turn, map_bind, bind_assoc]
      congr 1
      funext found
      cases found with
      | true => simp
      | false =>
          by_cases hfixed : dir d = d
          · simp [hfixed]
          · rw [if_neg hfixed] at h
            simp [hfixed, ih (Nat.le_of_succ_le_succ h)]

end

/-! ## The nearest file -/

theorem isName_fileName : IsName fileName := by decide

/-- The project file in the absolute directory with elements `es`. -/
def fileIn (es : List Bytes) : Bytes := rooted (es ++ [fileName])

/-- Of the directory `es` and those above it, `above` is the deepest one that has a project file. -/
structure IsNearest (present : Bytes → Bool) (es above : List Bytes) : Prop where
  encloses : above <+: es
  holds : present (fileIn above) = true
  deepest : ∀ other, other <+: es → present (fileIn other) = true → other.length ≤ above.length

section

variable {present : Bytes → Bool} {es above other : List Bytes} {e : Bytes}

theorem isNearest_self (h : present (fileIn es) = true) : IsNearest present es es :=
  ⟨List.prefix_rfl, h, fun _ hother _ => hother.length_le⟩

/-- A directory without a project file has the nearest one of the directory above. -/
theorem IsNearest.concat (h : IsNearest present es above)
    (habsent : present (fileIn (es ++ [e])) = false) : IsNearest present (es ++ [e]) above := by
  refine ⟨h.encloses.trans (List.prefix_append es [e]), h.holds, fun other hother hholds => ?_⟩
  rcases List.prefix_concat_iff.1 hother with rfl | hother
  · rw [habsent] at hholds
    cases hholds
  · exact h.deepest other hother hholds

theorem IsNearest.unique (h : IsNearest present es above) (hother : IsNearest present es other) :
    above = other := by
  have hle := hother.deepest above h.encloses h.holds
  have hge := h.deepest other hother.encloses hother.holds
  exact (List.prefix_of_prefix_length_le h.encloses hother.encloses hle).eq_of_length (by omega)

theorem IsNearest.not_absent (h : IsNearest present es above) :
    ¬∀ other, other <+: es → present (fileIn other) = false := by
  intro habsent
  simpa [h.holds] using habsent above h.encloses

theorem search_root :
    search (m := Id) present (rooted []) =
      if present (fileIn []) then some (fileIn []) else none := by
  rw [search_eq, join_rooted (by simp) isName_fileName]
  rfl

/-- **One turn of the search**: the file of the directory, or what is found from the next one on. -/
theorem search_rooted (hes : ∀ e ∈ es, IsName e) (he : IsName e) :
    search (m := Id) present (rooted (es ++ [e])) =
      if present (fileIn (es ++ [e])) then some (fileIn (es ++ [e]))
      else search (m := Id) present (rooted es) := by
  have hall : ∀ x ∈ es ++ [e], IsName x :=
    List.forall_mem_append.2 ⟨hes, List.forall_mem_singleton.2 he⟩
  have hup := dir_rooted hes he
  have hmoves : rooted es ≠ rooted (es ++ [e]) := rooted_ne he.1
  rw [search_eq, join_rooted hall isName_fileName, hup]
  simp only [if_neg hmoves]
  rfl

/-- **The search finds nothing where there is nothing, and else the nearest file.** -/
theorem search_cases (hes : ∀ e ∈ es, IsName e) :
    (search (m := Id) present (rooted es) = none ∧
      ∀ above, above <+: es → present (fileIn above) = false) ∨
    ∃ above, IsNearest present es above ∧
      search (m := Id) present (rooted es) = some (fileIn above) := by
  -- The search takes elements off the end, so the induction adds them there.
  induction es using List.reverseRecOn with
  | nil =>
      rw [search_root]
      cases hpresent : present (fileIn []) with
      | true => exact .inr ⟨[], isNearest_self hpresent, rfl⟩
      | false =>
          refine .inl ⟨rfl, fun above habove => ?_⟩
          rw [List.prefix_nil.1 habove, hpresent]
  | append_singleton es e ih =>
      obtain ⟨hes, he⟩ := List.forall_mem_append.1 hes
      rw [search_rooted hes (List.forall_mem_singleton.1 he)]
      cases hpresent : present (fileIn (es ++ [e])) with
      | true => exact .inr ⟨_, isNearest_self hpresent, rfl⟩
      | false =>
          rcases ih hes with ⟨hnone, habsent⟩ | ⟨above, hnearest, hsome⟩
          · refine .inl ⟨hnone, fun above habove => ?_⟩
            rcases List.prefix_concat_iff.1 habove with rfl | habove
            · exact hpresent
            · exact habsent above habove
          · exact .inr ⟨above, hnearest.concat hpresent, hsome⟩

end

/-- **The search for a project file ends and finds the nearest one.** From any directory it ends
after at most two more turns than the path of the directory has bytes, whatever paths exist. From an
absolute cleaned directory it finds the file of the deepest directory at or above it that has one,
and nothing exactly if none of them has one. -/
theorem search_nearest :
    (∀ (m : Type → Type) [Monad m] [LawfulMonad m] (existing : Bytes → m Bool) (start : Bytes),
      turns existing (start.length + 2) start = Sum.inr <$> search existing start) ∧
    ∀ (present : Bytes → Bool) (start : Bytes), isAbsolute start = true → clean start = start →
      ∃ es, (∀ e ∈ es, IsName e) ∧ start = rooted es ∧
        (∀ p, search (m := Id) present start = some p ↔
          ∃ above, IsNearest present es above ∧ p = fileIn above) ∧
        (search (m := Id) present start = none ↔
          ∀ above, above <+: es → present (fileIn above) = false) := by
  refine ⟨fun m _ _ existing start => turns_eq_search existing (length_ancestors_le start), ?_⟩
  intro present start habs hclean
  obtain ⟨es, hes, rfl⟩ := isAbsolute_clean_iff.1 ⟨habs, hclean⟩
  refine ⟨es, hes, rfl, fun p => ?_, ?_⟩
  · rcases search_cases hes with ⟨hnone, habsent⟩ | ⟨above, hnearest, hsome⟩
    · rw [hnone]
      constructor
      · intro h
        cases h
      · rintro ⟨above, hnearest, -⟩
        exact absurd habsent hnearest.not_absent
    · rw [hsome, Option.some_inj]
      constructor
      · rintro rfl
        exact ⟨above, hnearest, rfl⟩
      · rintro ⟨other, hother, rfl⟩
        rw [hnearest.unique hother]
  · rcases search_cases hes with ⟨hnone, habsent⟩ | ⟨above, hnearest, hsome⟩
    · exact ⟨fun _ => habsent, fun _ => hnone⟩
    · rw [hsome]
      constructor
      · intro h
        cases h
      · exact fun habsent => absurd habsent hnearest.not_absent

/-- The file that is there is in the directory above. -/
def onlyAbove (p : Bytes) : Bool := p = utf8 "/a/lswift.toml"

theorem search_onlyAbove :
    isAbsolute (utf8 "/a/b") = true ∧ clean (utf8 "/a/b") = utf8 "/a/b" ∧
    search (m := Id) onlyAbove (utf8 "/a/b") = some (utf8 "/a/lswift.toml") := by
  have habs : isAbsolute (utf8 "/a/b") = true := by decide
  have hclean : clean (utf8 "/a/b") = utf8 "/a/b" := by decide
  obtain ⟨es, hes, hstart, hfound, -⟩ := search_nearest.2 onlyAbove (utf8 "/a/b") habs hclean
  obtain rfl : [utf8 "a", utf8 "b"] = es := by
    rw [← pieces_rooted hes, ← hstart]
    decide
  refine ⟨habs, hclean, (hfound _).2 ⟨[utf8 "a"], ⟨⟨[utf8 "b"], rfl⟩, by decide, ?_⟩, by decide⟩⟩
  intro other hother hholds
  by_contra hdeeper
  have hall := hother.eq_of_length (Nat.le_antisymm hother.length_le (Nat.not_le.1 hdeeper))
  rw [hall] at hholds
  exact absurd hholds (by decide)

end Config

end Swiftlet
