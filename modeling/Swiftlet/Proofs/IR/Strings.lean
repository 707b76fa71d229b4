import Swiftlet.IR.Text
import Swiftlet.Proofs.IR.Symbols
import Swiftlet.Proofs.Parsing.Printing

/-!
# String constants

A module has one constant for each string that is lowered, whatever its bytes are and wherever it
stands, and one for each format that it prints with. A format and a string with the same bytes do not
share theirs. The constant is the string with a zero byte behind it; that is what the operands that
refer to it and the text of the module say as well.

* `unescape` — the bytes that a text in quotation marks stands for in LLVM's assembly language.
* `Module.Spells` — everything in a module takes a constant for the same string.

Principal results: `unescape_escaped`, that no byte is lost in quotation marks, and
`string_constants`.
-/

namespace Swiftlet

namespace IR

/-! ## Bytes in quotation marks -/

/-- The bytes of a text in quotation marks. Two backslashes are one; a backslash with two hexadecimal
digits is the byte of that value; everything else stands for itself. -/
def unescape : Bytes → Bytes
  | [] => []
  | 92 :: 92 :: rest => 92 :: unescape rest
  | 92 :: high :: low :: rest =>
    match Bytes.hexValue? high, Bytes.hexValue? low with
    | some h, some l => (16 * h + l).toUInt8 :: unescape rest
    | _, _ => 92 :: unescape (high :: low :: rest)
  | b :: rest => b :: unescape rest

theorem hexValue?_hexDigitUpper : ∀ n < 16, Bytes.hexValue? (Bytes.hexDigitUpper n) = some n := by
  decide

/-- A digit is neither a quotation mark nor a backslash. -/
theorem hexDigitUpper_ne : ∀ n < 16,
    Bytes.hexDigitUpper n ≠ Bytes.quote ∧ Bytes.hexDigitUpper n ≠ 92 := by
  decide

theorem unescape_cons {b : UInt8} (hb : b ≠ 92) (rest : Bytes) :
    unescape (b :: rest) = b :: unescape rest := by
  rw [unescape]
  · rintro rest' rfl
    exact absurd rfl hb
  · rintro high low rest' rfl
    exact absurd rfl hb

theorem unescape_escapeByte (b : UInt8) (rest : Bytes) :
    unescape (escapeByte b ++ rest) = b :: unescape rest := by
  unfold escapeByte
  split
  · rename_i hplain
    exact unescape_cons hplain.2.2.2 rest
  · have hlt := b.toNat_lt
    have hhigh : b.toNat / 16 < 16 := by omega
    have hlow : b.toNat % 16 < 16 := by omega
    have hvalue : (16 * (b.toNat / 16) + b.toNat % 16).toUInt8 = b := by
      rw [Nat.div_add_mod]
      exact UInt8.ofNat_toNat
    show unescape (92 :: _ :: _ :: rest) = _
    rw [unescape, hexValue?_hexDigitUpper _ hhigh, hexValue?_hexDigitUpper _ hlow]
    · simp only [hvalue]
    · exact (hexDigitUpper_ne _ hhigh).2

/-- **Text in quotation marks stands for the bytes that it was made from.** -/
theorem unescape_escaped (bs : Bytes) : unescape (bs.flatMap escapeByte) = bs := by
  induction bs with
  | nil => rw [List.flatMap_nil, unescape]
  | cons b rest ih => rw [List.flatMap_cons, unescape_escapeByte, ih]

example : [34, 92, 0, 65, 255].flatMap escapeByte = utf8 "\\22\\5C\\00A\\FF" := by decide

/-- Nothing in the text ends it early. -/
theorem quote_notMem_escaped (bs : Bytes) : Bytes.quote ∉ bs.flatMap escapeByte := by
  simp only [List.mem_flatMap, not_exists, not_and]
  intro b _
  unfold escapeByte
  split
  · rename_i hplain
    exact fun hmem => hplain.2.2.1 (List.mem_singleton.1 hmem).symm
  · have hlt := b.toNat_lt
    have hhigh := (hexDigitUpper_ne (b.toNat / 16) (by omega)).1
    have hlow := (hexDigitUpper_ne (b.toNat % 16) (by omega)).1
    have hslash : Bytes.quote ≠ 92 := by decide
    simp [hhigh.symm, hlow.symm, hslash]

/-! ## Strings that have a constant -/

theorem mem_constant_iff {σ : State} {name content : Bytes} {g : Global} :
    g ∈ (σ.constant name content).2.globals ↔ g ∈ σ.globals ∨ g = ⟨name, content⟩ := by
  obtain ⟨i, -, hthere, heq | ⟨-, heq⟩⟩ := constant_cases σ name content
  · rw [heq] at hthere ⊢
    refine ⟨.inl, ?_⟩
    rintro (hg | rfl)
    · exact hg
    · exact List.mem_of_getElem? hthere
  · rw [heq]
    simp

theorem format?_name_ne_nil {t : Ty} {name text : Bytes} (h : format? t = some (name, text)) :
    name ≠ [] := by
  have hall : ∀ x ∈ formats, x.1 ≠ [] := by decide
  exact hall _ (format?_mem h)

/-- **A string has a constant exactly if it has been asked for.** A format never is that constant,
since it has a name. -/
theorem Builds.mem_globals_iff {σ σ' : State} {vs : List Bytes} (h : Builds σ vs σ') (v : Bytes) :
    ⟨[], v ++ [0]⟩ ∈ σ'.globals ↔ ⟨[], v ++ [0]⟩ ∈ σ.globals ∨ v ∈ vs := by
  induction h with
  | string σ w => simp [State.stringConstant, mem_constant_iff]
  | format σ hformat => simp [mem_constant_iff, (format?_name_ne_nil hformat).symm]
  | code hglobals _ => simp [hglobals]
  | trans _ _ ih ih' => rw [ih', ih, List.mem_append, or_assoc]

/-! ## Names of constants -/

theorem numberMissing_append (next : Nat) (xs ys : List Bytes) :
    numberMissing next xs <+: numberMissing next (xs ++ ys) := by
  induction xs generalizing next with
  | nil => exact List.nil_prefix
  | cons x rest ih =>
      rw [List.cons_append, numberMissing, numberMissing]
      split
      · exact (List.prefix_cons_inj _).2 (ih _)
      · exact (List.prefix_cons_inj _).2 (ih _)

theorem length_numberMissing (next : Nat) (xs : List Bytes) :
    (numberMissing next xs).length = xs.length := by
  induction xs generalizing next with
  | nil => rfl
  | cons x rest ih =>
      rw [numberMissing]
      split <;> simp [ih]

theorem Module.names_globals (m : Module) :
    m.names.1 = numberMissing 0 (m.globals.map (·.name)) := by
  have hprefix := numberMissing_append 0 (m.globals.map (·.name)) (m.functions.map (·.name))
  have htake := List.prefix_iff_eq_take.1 hprefix
  rw [length_numberMissing, List.length_map] at htake
  exact htake.symm

/-- What is shown of a name is a number that is still free, or comes from a name. -/
theorem mem_numberMissing {next : Nat} {xs : List Bytes} {y : Bytes}
    (h : y ∈ numberMissing next xs) :
    (∃ k, next ≤ k ∧ y = Bytes.ofNat k) ∨ ∃ x ∈ xs, x ≠ [] ∧ y = nameText x := by
  induction xs generalizing next with
  | nil => cases h
  | cons x rest ih =>
      rw [numberMissing] at h
      split at h
      · rcases List.mem_cons.1 h with rfl | hrest
        · exact .inl ⟨next, Nat.le_refl _, rfl⟩
        · obtain ⟨k, hk, hy⟩ | ⟨x', hx', hy⟩ := ih hrest
          · exact .inl ⟨k, by omega, hy⟩
          · exact .inr ⟨x', List.mem_cons_of_mem _ hx', hy⟩
      · rename_i hx
        rcases List.mem_cons.1 h with rfl | hrest
        · exact .inr ⟨x, List.mem_cons_self, hx, rfl⟩
        · obtain hnumber | ⟨x', hx', hy⟩ := ih hrest
          · exact .inl hnumber
          · exact .inr ⟨x', List.mem_cons_of_mem _ hx', hy⟩

theorem ofNat_injective {n k : Nat} (h : Bytes.ofNat n = Bytes.ofNat k) : n = k := by
  rw [← (digitsValue_ofNat n).2, h, (digitsValue_ofNat k).2]

/-- The name of a format is shown as it is, and it is no number. -/
theorem nameText_format : ∀ x ∈ formats.map (·.1),
    nameText x = x ∧ ∃ b ∈ x, Bytes.isDigit b = false := by
  decide

theorem nameText_ne_ofNat {x : Bytes} (hx : x ∈ formats.map (·.1)) (k : Nat) :
    nameText x ≠ Bytes.ofNat k := by
  obtain ⟨hsame, b, hb, hdigit⟩ := nameText_format x hx
  intro heq
  rw [hsame] at heq
  rw [heq] at hb
  simp [(digitsValue_ofNat k).1 b hb] at hdigit

/-- **Numbers and names of formats never clash.** -/
theorem numberMissing_nodup {xs : List Bytes} (hformats : xs.filter (· ≠ []) ⊆ formats.map (·.1))
    (hnodup : (xs.filter (· ≠ [])).Nodup) (next : Nat) : (numberMissing next xs).Nodup := by
  have hshown : ∀ x ∈ xs, x ≠ [] → x ∈ formats.map (·.1) := fun x hx hne =>
    hformats (List.mem_filter.2 ⟨hx, by simpa using hne⟩)
  induction xs generalizing next with
  | nil => exact List.nodup_nil
  | cons x rest ih =>
      obtain ⟨hfirst, hrest⟩ := List.forall_mem_cons.1 hshown
      rw [numberMissing]
      by_cases hx : x = []
      · rw [if_pos hx, List.nodup_cons]
        rw [List.filter_cons_of_neg (by simpa using hx)] at hformats hnodup
        refine ⟨fun hmem => ?_, ih hformats hnodup _ hrest⟩
        obtain ⟨k, hk, heq⟩ | ⟨y, hy, hne, heq⟩ := mem_numberMissing hmem
        · have := ofNat_injective heq
          omega
        · exact nameText_ne_ofNat (hrest y hy hne) next heq.symm
      · rw [if_neg hx, List.nodup_cons]
        rw [List.filter_cons_of_pos (by simpa using hx)] at hformats hnodup
        obtain ⟨hnew, hnodup⟩ := List.nodup_cons.1 hnodup
        refine ⟨fun hmem => ?_, ih (List.subset_of_cons_subset hformats) hnodup _ hrest⟩
        obtain ⟨k, -, heq⟩ | ⟨y, hy, hne, heq⟩ := mem_numberMissing hmem
        · exact nameText_ne_ofNat (hfirst hx) k heq
        · rw [(nameText_format x (hfirst hx)).1, (nameText_format y (hrest y hy hne)).1] at heq
          exact hnew (List.mem_filter.2 ⟨heq ▸ hy, by simpa using hx⟩)

/-! ## Constants in the text of a module -/

/-- Each constant has its line. -/
theorem Module.global_infix_text {m : Module} {g : Nat} {c : Global} {name : Bytes}
    (hc : m.globals[g]? = some c) (hname : m.names.1[g]? = some name) : c.text name <:+: m.text := by
  have hne : m.globals ≠ [] := List.ne_nil_of_mem (List.mem_of_getElem? hc)
  have hline : c.text name ∈ List.zipWith Global.text m.globals m.names.1 :=
    List.mem_of_getElem? (i := g) (by rw [List.getElem?_zipWith, hc, hname])
  have hlines : (List.zipWith Global.text m.globals m.names.1).flatten <:+: m.text := by
    unfold Module.text
    refine Bytes.infix_join _ (List.mem_append_left _ (List.mem_append_right _ ?_))
    rw [if_neg hne]
    exact List.mem_singleton.2 rfl
  exact (List.infix_of_mem_flatten hline).trans hlines

/-! ## The constants of a module -/

/-- Everything in a module takes constant `g` for the string `v` with a zero byte behind it. In the
text of the module, `name` is its name and `text` is what it has in quotation marks. -/
structure Module.Spells (m : Module) (g : Nat) (v name text : Bytes) : Prop where
  named : m.names.1[g]? = some name
  line : utf8 "@" ++ name ++ utf8 " = private constant " ++ arrayText (v.length + 1) ++
    utf8 " c\"" ++ text ++ utf8 "\"\n" <:+: m.text
  quoted : Bytes.quote ∉ text
  bytes : unescape text = v ++ [0]
  /-- The operands that refer to it have its size, and are printed with its type and its name. -/
  uses : ∀ f ∈ m.functions, ∀ b ∈ f.blocks, ∀ size, .string g size ∈ b.operands →
    size = v.length + 1 ∧ ∀ names : Names, names.globals = m.names.1 →
      (Operand.string g size).text names = utf8 "getelementptr (" ++ arrayText (v.length + 1) ++
        utf8 ", " ++ arrayText (v.length + 1) ++ utf8 "* @" ++ name ++ utf8 ", i32 0, i32 0)"

theorem Global.text_eq {c : Global} {v : Bytes} (hc : c.content = v ++ [0]) (name : Bytes) :
    c.text name = utf8 "@" ++ name ++ utf8 " = private constant " ++ arrayText (v.length + 1) ++
      utf8 " c\"" ++ (v ++ [0]).flatMap escapeByte ++ utf8 "\"\n" := by
  have hopen : utf8 " c\"" = utf8 " c" ++ [Bytes.quote] := by decide
  have hclose : utf8 "\"\n" = [Bytes.quote] ++ [Bytes.newline] := by decide
  rw [Global.text, quotedText, hc, List.length_append, List.length_singleton, hopen, hclose]
  simp only [List.append_assoc, List.cons_append, List.nil_append]

theorem Module.spells_of_refers {m : Module}
    (hrefers : ∀ f ∈ m.functions, ∀ b ∈ f.blocks, b.RefersTo m.globals) {g : Nat} {c : Global}
    (hg : m.globals[g]? = some c) {v : Bytes} (hc : c.content = v ++ [0]) :
    ∃ name text, m.Spells g v name text := by
  have hlt := (List.getElem?_eq_some_iff.1 hg).1
  obtain ⟨name, hname⟩ : ∃ name, m.names.1[g]? = some name := by
    refine ⟨_, List.getElem?_eq_getElem ?_⟩
    rwa [m.names_globals, length_numberMissing, List.length_map]
  have hline := m.global_infix_text hg hname
  rw [Global.text_eq hc] at hline
  refine ⟨name, _, hname, hline, quote_notMem_escaped _, unescape_escaped _, ?_⟩
  intro f hf b hb size hsize
  obtain ⟨c', hc', rfl⟩ := hrefers f hf b hb _ hsize
  obtain rfl : c = c' := Option.some.inj (hg.symm.trans hc')
  have hlength : c.content.length = v.length + 1 := by
    rw [hc, List.length_append, List.length_singleton]
  refine ⟨hlength, fun names hnames => ?_⟩
  rw [Operand.text, hlength, hnames, List.getD_eq_getElem?_getD, hname, Option.getD_some]

theorem Global.IsInterned.content {c : Global} (h : c.IsInterned) :
    ∃ v, c.content = v ++ [0] ∧ (c.name = [] ∨ (c.name, v) ∈ formats) := by
  cases h with
  | string v => exact ⟨v, rfl, .inl rfl⟩
  | format hformat => exact ⟨_, rfl, .inr (format?_mem hformat)⟩

/-- **String constants are exact and shared.** Every string that is lowered has one constant, and there
is at most one for a format. There are no others; each stands for its bytes wherever it is mentioned,
and no operand refers to one that is not there. No two are printed under the same name. -/
theorem string_constants {entry sourceName : Bytes} {program : List Node} {m : Module}
    (h : lower entry sourceName program = .ok m) :
    (∀ v ∈ programStrings program, ∃! g : Nat, m.globals[g]? = some ⟨[], v ++ [0]⟩) ∧
      (∀ x ∈ formats, ∀ g g' : Nat, m.globals[g]?.map (·.name) = some x.1 →
        m.globals[g']?.map (·.name) = some x.1 → g = g') ∧
      (∀ (g : Nat) c, m.globals[g]? = some c → ∃ v, c.content = v ++ [0] ∧
        (c.name = [] ∧ v ∈ programStrings program ∨ (c.name, v) ∈ formats) ∧
        ∃ name text, m.Spells g v name text) ∧
      (∀ f ∈ m.functions, ∀ b ∈ f.blocks, ∀ g size, .string g size ∈ b.operands →
        g < m.globals.length) ∧
      m.names.1.Nodup := by
  have hinterned : Interned m.globals := lower_keeps interned_kept ⟨List.nodup_nil, by simp⟩ h
  obtain ⟨σ, hbuilds, rfl⟩ := lower_builds h
  have hrefers := (hbuilds.refers State.refers_start).functions
  have hmem : ∀ v, ⟨[], v ++ [0]⟩ ∈ σ.globals ↔ v ∈ programStrings program := fun v => by
    simpa using hbuilds.mem_globals_iff v
  have hunique : ∀ {g g' : Nat} {c : Global}, σ.globals[g]? = some c → σ.globals[g']? = some c →
      g = g' := fun hg hg' =>
    (List.getElem?_inj (List.getElem?_eq_some_iff.1 hg).1 hinterned.nodup).1 (hg.trans hg'.symm)
  refine ⟨fun v hv => ?_, fun x hx g g' hg hg' => ?_, fun g c hc => ?_, ?_, ?_⟩
  · obtain ⟨g, hg⟩ := List.mem_iff_getElem?.1 ((hmem v).2 hv)
    exact ⟨g, hg, fun g' hg' => hunique hg' hg⟩
  · -- Constants with the name of a format are the same constant.
    obtain ⟨c, hc, hname⟩ := Option.map_eq_some_iff.1 hg
    obtain ⟨c', hc', hname'⟩ := Option.map_eq_some_iff.1 hg'
    have hnamed : ∀ x ∈ formats, x.1 ≠ [] := by decide
    have hsame : c = c' :=
      (hinterned.origin c (List.mem_of_getElem? hc)).eq_of_name
        (hinterned.origin c' (List.mem_of_getElem? hc')) (hname ▸ hnamed x hx)
        (hname.trans hname'.symm)
    exact hunique hc (hsame ▸ hc')
  · obtain ⟨v, hv, horigin⟩ := (hinterned.origin c (List.mem_of_getElem? hc)).content
    refine ⟨v, hv, horigin.imp_left fun hname => ⟨hname, (hmem v).1 ?_⟩,
      Module.spells_of_refers hrefers hc hv⟩
    rw [← hv, ← hname]
    exact List.mem_of_getElem? hc
  · intro f hf b hb g size hsize
    obtain ⟨c, hc, -⟩ := hrefers f hf b hb _ hsize
    exact (List.getElem?_eq_some_iff.1 hc).1
  · rw [Module.names_globals]
    exact numberMissing_nodup hinterned.names_subset hinterned.names_nodup 0

end IR

namespace Parsing

/-- A quotation mark, a backslash, a zero byte and a byte that is no text. -/
def awkward : Bytes := [34, 92, 0, 255]

/-- A program that prints a string with the bytes of a format twice, and `awkward` in between. -/
def quoting : List Node :=
  let printed (v : Bytes) : Node :=
    .print (fixed (.keyword .printing)) [.string ⟨.string, [34] ++ v ++ [34], Pos.start⟩ v]
  [.func ⟨named "main", [], some .void⟩
    [printed (utf8 "%s\n"), printed awkward, printed (utf8 "%s\n")]]

end Parsing

open Parsing in
/-- The string that is printed twice has one constant, apart from the format's. -/
theorem string_constants_quoting :
    ∃ m, IR.lower defaultEntry [] quoting = .ok m ∧
      (∃! g : Nat, m.globals[g]? = some ⟨[], utf8 "%s\n" ++ [0]⟩) ∧
      ⟨utf8 "PRINTF_STRING", utf8 "%s\n" ++ [0]⟩ ∈ m.globals ∧ ∃ g name text, m.Spells g awkward name text := by
  obtain ⟨m, hm, hformat⟩ : ∃ m, IR.lower defaultEntry [] quoting = .ok m ∧
      ⟨utf8 "PRINTF_STRING", utf8 "%s\n" ++ [0]⟩ ∈ m.globals := ⟨_, by rfl, by decide⟩
  obtain ⟨hone, -, hspells, -, -⟩ := IR.string_constants hm
  refine ⟨m, hm, hone _ (by decide), hformat, ?_⟩
  obtain ⟨g, hg, -⟩ := hone awkward (by decide)
  obtain ⟨v, hv, -, hv'⟩ := hspells g _ hg
  obtain rfl := List.append_cancel_right hv
  exact ⟨g, hv'⟩

end Swiftlet
