import Swiftlet.Proofs.IR.Constants

/-!
# The names in a module

Functions and named constants of a module share one namespace. Each of the tables that lowering keeps
(functions, formats, strings) has a name once. But `printf` is never looked up, and no table knows of
the others, so a function of the program may have a name that the module takes for itself.

* `Module.symbols` — the names of functions and constants; what has no name is numbered and does not
  count.
* `Module.reserved` — those among them that do not come from the program: `printf` and the formats.
* `Interned` — the constants of a module so far: strings without a name, and formats, each once.
* `KeptByConstants` — what holds of the constants whenever one more is needed; `lower_keeps` says that
  it then holds of every module.

Principal result: `symbols_nodup_iff`. That names need not be unique is `symbols_clash`.
-/

namespace Swiftlet

namespace IR

/-- The names of the functions and of the constants that have one. -/
def Module.symbols (m : Module) : List Bytes :=
  (m.functions.map (·.name) ++ m.globals.map (·.name)).filter (· ≠ [])

/-- The names that a module has whatever the functions of the program are called. -/
def Module.reserved (m : Module) : List Bytes :=
  printf.name :: (m.globals.map (·.name)).filter (· ≠ [])

/-- The names of the top-level items. -/
abbrev itemNames (program : List Node) : List Bytes :=
  (program.filterMap Node.signature?).map (·.name.lexeme)

/-! ## Constants -/

/-- Whatever string or format is needed next, the constants keep the property. -/
structure KeptByConstants (I : List Global → Prop) : Prop where
  string : ∀ (σ : State) (v : Bytes), I σ.globals → I (σ.stringConstant v).2.globals
  format : ∀ (σ : State) {t : Ty} {name text : Bytes}, format? t = some (name, text) →
    I σ.globals → I (σ.constant name (text ++ [0])).2.globals

section

variable {I : List Global → Prop} {entry : Bytes} {program : List Node}

theorem Builds.keeps (hI : KeptByConstants I) {σ σ' : State} {vs : List Bytes}
    (h : Builds σ vs σ') (hσ : I σ.globals) : I σ'.globals := by
  induction h with
  | string σ v => exact hI.string σ v hσ
  | format σ hformat => exact hI.format σ hformat hσ
  | code hglobals _ => rwa [hglobals]
  | trans _ _ ih ih' => exact ih' (ih hσ)

/-- **What holds of no constants, and is kept whenever one is needed, holds of every module.** -/
theorem lower_keeps (hI : KeptByConstants I) (hnil : I []) {sourceName : Bytes} {m : Module}
    (h : lower entry sourceName program = .ok m) : I m.globals := by
  obtain ⟨σ, hbuilds, rfl⟩ := lower_builds h
  exact hbuilds.keeps hI hnil

end

/-! ## Strings and formats -/

/-- A constant is a string, which has no name, or a format. -/
inductive Global.IsInterned : Global → Prop where
  | string (v : Bytes) : IsInterned ⟨[], v ++ [0]⟩
  | format {t : Ty} {name text : Bytes} (h : format? t = some (name, text)) :
      IsInterned ⟨name, text ++ [0]⟩

/-- Every constant is a string or a format, and none is there twice. -/
structure Interned (gs : List Global) : Prop where
  nodup : gs.Nodup
  origin : ∀ g ∈ gs, g.IsInterned

theorem Interned.constant {σ : State} {name content : Bytes} (hσ : Interned σ.globals)
    (hnew : Global.IsInterned ⟨name, content⟩) : Interned (σ.constant name content).2.globals := by
  obtain ⟨-, -, -, heq | ⟨hfresh, heq⟩⟩ := constant_cases σ name content
  · rwa [heq]
  · rw [heq]
    refine ⟨?_, List.forall_mem_append.2 ⟨hσ.origin, List.forall_mem_singleton.2 hnew⟩⟩
    exact List.nodup_append.2 ⟨hσ.nodup, List.nodup_singleton _, by
      rintro g hg _ hg' rfl
      exact hfresh (List.mem_singleton.1 hg' ▸ hg)⟩

theorem interned_kept : KeptByConstants Interned :=
  ⟨fun _ v hσ => hσ.constant (.string v), fun _ _ _ _ hformat hσ => hσ.constant (.format hformat)⟩

/-- The formats: their names and texts. -/
def formats : List (Bytes × Bytes) :=
  [(utf8 "PRINTF_INTEGER", utf8 "%d\n"), (utf8 "PRINTF_FLOAT", utf8 "%f\n"),
    (utf8 "PRINTF_STRING", utf8 "%s\n")]

theorem format?_mem {t : Ty} {format : Bytes × Bytes} (h : format? t = some format) :
    format ∈ formats := by
  cases t <;> cases h <;> decide

/-- A format is known by its name. -/
theorem format?_text_unique {t t' : Ty} {name text text' : Bytes}
    (h : format? t = some (name, text)) (h' : format? t' = some (name, text')) : text = text' := by
  have hall : ∀ u ∈ formats, ∀ u' ∈ formats, u.1 = u'.1 → u.2 = u'.2 := by decide
  exact hall _ (format?_mem h) _ (format?_mem h') rfl

/-- A constant that has a name is known by it. -/
theorem Global.IsInterned.eq_of_name {g g' : Global} (hg : g.IsInterned) (hg' : g'.IsInterned)
    (hnamed : g.name ≠ []) (hname : g.name = g'.name) : g = g' := by
  cases hg with
  | string v => exact absurd rfl hnamed
  | format hformat =>
      cases hg' with
      | string v => exact absurd hname hnamed
      | format hformat' =>
          dsimp only at hname
          subst hname
          rw [format?_text_unique hformat hformat']

/-- **Constants that have a name have different names.** -/
theorem Interned.names_nodup {gs : List Global} (h : Interned gs) :
    ((gs.map (·.name)).filter (· ≠ [])).Nodup := by
  rw [List.filter_map]
  refine List.Nodup.map_on ?_ (h.nodup.filter _)
  intro g hg g' hg' hname
  obtain ⟨hmem, hnamed⟩ := List.mem_filter.1 hg
  obtain ⟨hmem', -⟩ := List.mem_filter.1 hg'
  exact (h.origin g hmem).eq_of_name (h.origin g' hmem') (by simpa using hnamed) hname

theorem Interned.names_subset {gs : List Global} (h : Interned gs) :
    (gs.map (·.name)).filter (· ≠ []) ⊆ formats.map (·.1) := by
  intro x hx
  obtain ⟨hmem, hnamed⟩ := List.mem_filter.1 hx
  obtain ⟨g, hg, rfl⟩ := List.mem_map.1 hmem
  cases h.origin g hg with
  | string v => simp at hnamed
  | format hformat => exact List.mem_map.2 ⟨_, format?_mem hformat, rfl⟩

/-! ## Functions -/

section

variable {entry : Bytes} {program : List Node}

theorem mem_functionNames_of_number {fs : List Function} {x : Bytes} {i : Nat}
    (h : numberOf? fs x = some i) : x ∈ functionNames fs := by
  obtain ⟨hpos, ⟨f, hf, hname⟩, -⟩ := numberOf?_eq_some_iff.1 h
  obtain ⟨k, rfl⟩ : ∃ k, i = k + 1 := ⟨i - 1, by omega⟩
  refine List.mem_map.2 ⟨f, List.mem_of_getElem? (i := k) ?_, hname⟩
  rw [List.getElem?_drop, Nat.add_comm]
  exact hf

theorem Declarations.mem_itemNames {fs : List Function} (h : Declarations entry program fs)
    {x : Bytes} (hx : x ∈ functionNames fs) : x ∈ itemNames program := by
  obtain ⟨f, hf, rfl⟩ := List.mem_map.1 hx
  obtain ⟨k, hk⟩ := List.mem_iff_getElem?.1 hf
  rw [List.getElem?_drop] at hk
  obtain ⟨s, -, hs, -⟩ := h.declared (1 + k) f (by omega) hk
  have hmem := List.mem_of_find?_eq_some hs
  exact List.mem_map.2 ⟨s, List.mem_reverse.1 hmem, lastSignature?_name hs⟩

/-- The functions without a body are there once they are declared. -/
theorem declareAll_there {ns : List Node} (hns : ∀ n ∈ ns, n ∈ program) {σ σ' : State}
    (hσ : Declarations entry program σ.functions) (h : declareAll entry program ns σ = .ok σ') :
    (∀ s, .signature s ∈ ns → ∃ i, numberOf? σ'.functions s.name.lexeme = some i) ∧
      ∀ x i, numberOf? σ.functions x = some i → numberOf? σ'.functions x = some i := by
  induction ns generalizing σ with
  | nil =>
      cases h
      exact ⟨by simp, fun _ _ hi => hi⟩
  | cons n rest ih =>
      rw [List.forall_mem_cons] at hns
      cases n with
      | signature s =>
          obtain ⟨s', hs'⟩ := lastSignature?_of_mem hns.1 rfl
          have hname := lastSignature?_name hs'
          simp only [declareAll, hs', Option.getD_some] at h
          split at h
          · cases h
          rename_i i σ₁ hdeclare
          have hadded := (declare_added (by rw [hname]; exact hs') hdeclare).2
          obtain ⟨hthere, hkept⟩ := ih hns.2 (hσ.added hadded) h
          refine ⟨fun s'' hmem => ?_, fun x j hj => hkept x j (hadded.number hj)⟩
          rcases List.mem_cons.1 hmem with heq | hmem
          · cases heq
            exact ⟨i, hkept _ i (hname ▸ declare_number hσ.ne_nil hdeclare)⟩
          · exact hthere s'' hmem
      | _ =>
          obtain ⟨hthere, hkept⟩ := ih hns.2 hσ h
          exact ⟨fun s hmem => hthere s ((List.mem_cons.1 hmem).resolve_left (by simp)), hkept⟩

/-- **The functions of a module, `printf` apart, are those of the program.** -/
theorem mem_functionNames_iff {sourceName : Bytes} {m : Module}
    (h : lower entry sourceName program = .ok m) (x : Bytes) :
    x ∈ functionNames m.functions ↔ x ∈ itemNames program := by
  refine ⟨(lower_declarations h).1.mem_itemNames, fun hx => ?_⟩
  obtain ⟨s, hs, rfl⟩ := List.mem_map.1 hx
  obtain ⟨n, hn, hs⟩ := List.mem_filterMap.1 hs
  suffices hthere : ∃ i, numberOf? m.functions s.name.lexeme = some i by
    obtain ⟨i, hi⟩ := hthere
    exact mem_functionNames_of_number hi
  cases n with
  | func s' body =>
      cases hs
      exact (lower_declarations h).2 s body hn
  | signature s' =>
      cases hs
      unfold lower at h
      split at h
      · cases h
      rename_i σ hdeclare
      split at h
      · cases h
      rename_i σ' hlower
      cases h
      obtain ⟨hthere, -⟩ := declareAll_there (fun _ hn => hn) declarations_start hdeclare
      obtain ⟨i, hi⟩ := hthere s hn
      have hσ := declareAll_declarations (fun _ hn => hn) declarations_start hdeclare
      exact ⟨i, (lowerAll_declarations (fun _ hn => hn) hσ hlower).2.2 _ _ hi⟩
  | _ => cases hs

end

/-! ## All names -/

theorem Module.nil_notMem_reserved (m : Module) : [] ∉ m.reserved := by
  have hprintf : [] ≠ printf.name := by decide
  simp [Module.reserved, hprintf]

theorem Module.symbols_perm {m : Module} {rest : List Function} (h : m.functions = printf :: rest) :
    m.symbols.Perm ((functionNames m.functions).filter (· ≠ []) ++ m.reserved) := by
  have hsplit : m.symbols = printf.name ::
      ((functionNames m.functions).filter (· ≠ []) ++ (m.globals.map (·.name)).filter (· ≠ [])) := by
    rw [Module.symbols, functionNames, h, List.map_cons, List.cons_append,
      List.filter_cons_of_pos (by decide), List.filter_append]
    rfl
  rw [hsplit]
  exact List.perm_middle.symm

/-- **Which names a module has twice.** Functions have different names, and so have `printf` and the
formats; a name is there twice exactly if a function of the program has one of the latter. -/
theorem symbols_nodup_iff {entry sourceName : Bytes} {program : List Node} {m : Module}
    (h : lower entry sourceName program = .ok m) :
    (functionNames m.functions).Nodup ∧
      (∀ x, x ∈ functionNames m.functions ↔ x ∈ itemNames program) ∧
      m.reserved.Nodup ∧ m.reserved ⊆ printf.name :: formats.map (·.1) ∧
      (m.symbols.Nodup ↔ ∀ x ∈ itemNames program, x ∉ m.reserved) := by
  have hfunctions := (lower_declarations h).1
  have hmem := mem_functionNames_iff h
  have hinterned : Interned m.globals :=
    lower_keeps interned_kept ⟨List.nodup_nil, by simp⟩ h
  have hreserved : m.reserved.Nodup := by
    refine List.nodup_cons.2 ⟨fun hprintf => ?_, hinterned.names_nodup⟩
    exact absurd (hinterned.names_subset hprintf) (by decide)
  refine ⟨hfunctions.distinct, hmem, hreserved,
    List.cons_subset_cons _ hinterned.names_subset, ?_⟩
  obtain ⟨rest, hrest⟩ := hfunctions.eq_cons
  rw [(Module.symbols_perm hrest).nodup_iff, List.nodup_append]
  constructor
  · rintro ⟨-, -, hdisjoint⟩ x hx hx'
    have hne : x ≠ [] := fun hnil => m.nil_notMem_reserved (hnil ▸ hx')
    exact hdisjoint x (List.mem_filter.2 ⟨(hmem x).2 hx, by simpa using hne⟩) x hx' rfl
  · intro hdisjoint
    refine ⟨hfunctions.distinct.filter _, hreserved, ?_⟩
    rintro x hx _ hx' rfl
    exact hdisjoint x ((hmem x).1 (List.mem_filter.1 hx).1) hx'

end IR

namespace Parsing

/-- The tokens of a program that prints a number; one of its functions has the name of the format,
another that of the function that prints. -/
def printingTokens : List Token :=
  spelled ["func", "main", "(", ")", "\x7b", "print", "(", "1", ")", "\x7d", "func", "PRINTF_INTEGER",
    "(", ")", "\x7b", "\x7d", "func", "printf", "(", ")", "\x7b", "\x7d"]

def printing : List Node :=
  [.func ⟨named "main", [], some .void⟩
      [.print (fixed (.keyword .printing)) [.int ⟨.int, utf8 "1", Pos.start⟩ 1]],
    .func ⟨named "PRINTF_INTEGER", [], some .void⟩ [], .func ⟨named "printf", [], some .void⟩ []]

end Parsing

open Parsing in
/-- Without these two functions no name is there twice. -/
theorem symbols_nodup_main :
    ∃ m, IR.lower defaultEntry [] (printing.take 1) = .ok m ∧ m.symbols.Nodup := by
  obtain ⟨m, hm⟩ : ∃ m, IR.lower defaultEntry [] (printing.take 1) = .ok m := ⟨_, by rfl⟩
  obtain ⟨-, -, -, hsubset, hiff⟩ := IR.symbols_nodup_iff hm
  have hfree : ∀ x ∈ IR.itemNames (printing.take 1),
      x ∉ IR.printf.name :: IR.formats.map (·.1) := by decide
  exact ⟨m, hm, hiff.2 fun x hx hx' => hfree x hx (hsubset hx')⟩

open Parsing in
/-- A program that the checker accepts and whose module has two names twice. -/
theorem symbols_clash :
    parse printingTokens = .ok printing ∧ Typing.analyze defaultEntry printing = .ok printing ∧
      ∃ m, IR.lower defaultEntry [] printing = .ok m ∧
        m.symbols = [utf8 "printf", utf8 "main", utf8 "PRINTF_INTEGER", utf8 "printf",
          utf8 "PRINTF_INTEGER"] ∧ ¬m.symbols.Nodup :=
  ⟨by rfl, by rfl, _, by rfl, by rfl, by decide⟩

end Swiftlet
