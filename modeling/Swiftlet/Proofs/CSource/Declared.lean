import Mathlib.Data.List.Infix
import Swiftlet.Proofs.CSource.Types
import Swiftlet.Proofs.Trimming
import Swiftlet.Proofs.Typing.Complete

/-!
# Functions are declared before they are called

C wants a function to be declared before it is called. The entry function has no prototype, so a call
back to it has to come behind its own header; it does since the checker wants it to be the first item.

* `Prototype` and `Definition` — the two kinds of pieces that stand for functions.
* `Outline` — a source as its pieces, and `Outline.text`, what is written of them. `Outline.upTo` is the
  text in front of the body of a definition.
* `Outline.IsOf` — the pieces of a program: the items but the entry function, and the functions, both in
  the order of the program.
* `Outline.Declares` — a function whose prototype or header stands in front of a body.
* `callsIn (trimAll body)` — the calls of a body that are written. Those in the arguments of `print`
  behind the first are not.

Principal results: `Outline.IsOf.declares` and `program_outline`.
-/

namespace Swiftlet

namespace CSource

open Typing (Scope HasType BodyTyped IsLastItem Signatures lastSignature?_eq_some_iff)

/-! ## The pieces of a source -/

structure Prototype where
  signature : Signature
  header : Bytes

def Prototype.text (p : Prototype) : Bytes := p.header ++ utf8 ";\n"

/-- The definition of a function, with the lines between its braces. -/
structure Definition where
  signature : Signature
  body : List Node
  header : Bytes
  lines : Bytes

namespace Definition

/-- The header as it stands in front of the body. -/
def opening (d : Definition) : Bytes := d.header ++ utf8 " \x7b\n"

def text (d : Definition) : Bytes := d.opening ++ d.lines ++ utf8 "\x7d\n"

def item (d : Definition) : Node := .func d.signature d.body

/-- Header and lines are those of the function. The entry function has one line more. -/
structure IsWritten (entry : Bytes) (program : List Node) (d : Definition) : Prop where
  header : IsHeader entry d.signature d.header
  lines : ∃ text vars, block ⟨entry, program, d.signature⟩ (parameterTypes d.signature) 1 d.body =
      .ok (text, vars) ∧
    d.lines = text ++ if d.signature.name.lexeme = entry then line 1 (utf8 "return 0;") else []

theorem IsWritten.definition_eq {entry : Bytes} {program : List Node} {d : Definition}
    (h : d.IsWritten entry program) : definition entry program d.signature d.body = .ok d.text := by
  obtain ⟨text, vars, hblock, hlines⟩ := h.lines
  rw [parameterTypes] at hblock
  simp only [definition, hblock, header_eq_ok_iff.2 h.header, Definition.text, opening, hlines,
    List.append_assoc]

end Definition

/-- A source: prototypes and definitions. -/
structure Outline where
  prototypes : List Prototype
  definitions : List Definition

namespace Outline

/-- The text in front of the definitions. -/
def declarations (l : Outline) : Bytes :=
  includes ++ l.prototypes.flatMap Prototype.text ++
    if l.prototypes.isEmpty then [] else [Bytes.newline]

def text (l : Outline) : Bytes :=
  l.declarations ++ Bytes.join [Bytes.newline] (l.definitions.map Definition.text)

/-- The text up to the body of `d`, if the definitions `earlier` come before it. -/
def upTo (l : Outline) (earlier : List Definition) (d : Definition) : Bytes :=
  l.declarations ++ earlier.flatMap (fun e => e.text ++ [Bytes.newline]) ++ d.opening

/-- The text behind the body of a definition, if the definitions `later` come behind it. -/
def rest (later : List Definition) : Bytes :=
  utf8 "\x7d\n" ++ later.flatMap fun e => Bytes.newline :: e.text

/-- A prototype or a header of a function called `x` stands in front of the body of `d`. -/
def Declares (l : Outline) (earlier : List Definition) (d : Definition) (x : Bytes) : Prop :=
  (∃ p ∈ l.prototypes, p.signature.name.lexeme = x ∧ p.text <:+: l.upTo earlier d) ∨
    ∃ e ∈ earlier ++ [d], e.signature.name.lexeme = x ∧ e.opening <:+: l.upTo earlier d

/-- The pieces are those of the program. -/
structure IsOf (entry : Bytes) (program : List Node) (l : Outline) : Prop where
  prototypes : l.prototypes.map (·.signature) =
    (program.filterMap Node.signature?).filter (·.name.lexeme ≠ entry)
  headers : ∀ p ∈ l.prototypes, IsHeader entry p.signature p.header
  definitions : l.definitions.map Definition.item = program.filter fun n => n matches .func ..
  bodies : ∀ d ∈ l.definitions, d.IsWritten entry program

theorem join_cons (text : Bytes) (texts : List Bytes) :
    Bytes.join [Bytes.newline] (text :: texts) =
      text ++ texts.flatMap fun t => Bytes.newline :: t := by
  rw [Bytes.join]
  induction texts generalizing text with
  | nil => simp
  | cons t ts ih => rw [List.intercalate_cons_cons, ih]; simp

theorem join_append (earlier later : List Definition) (d : Definition) :
    Bytes.join [Bytes.newline] ((earlier ++ d :: later).map Definition.text) =
      earlier.flatMap (fun e => e.text ++ [Bytes.newline]) ++ d.text ++
        later.flatMap fun e => Bytes.newline :: e.text := by
  induction earlier with
  | nil => simp [join_cons, List.flatMap_map]
  | cons e es ih =>
      rw [Bytes.join] at ih ⊢
      rw [List.cons_append, List.map_cons, List.intercalate_cons_of_ne_nil (by simp), ih]
      simp

/-- Every definition stands between what comes before and what comes behind it. -/
theorem text_eq {l : Outline} {earlier later : List Definition} {d : Definition}
    (h : l.definitions = earlier ++ d :: later) :
    l.text = l.upTo earlier d ++ d.lines ++ rest later := by
  rw [text, h, join_append]
  simp [upTo, rest, Definition.text]

variable {entry : Bytes} {program : List Node} {l : Outline} {earlier later : List Definition}
  {d : Definition}

/-- All prototypes stand in front of every body. -/
theorem prototype_infix {p : Prototype} (hp : p ∈ l.prototypes) : p.text <:+: l.upTo earlier d := by
  have hone : p.text <:+: l.prototypes.flatMap Prototype.text := by
    simpa using ((List.singleton_infix_iff p l.prototypes).2 hp).flatMap Prototype.text
  have hfront : l.prototypes.flatMap Prototype.text <:+: l.declarations := List.infix_append _ _ _
  refine (hone.trans hfront).trans (List.IsPrefix.isInfix ?_)
  exact (List.prefix_append _ _).trans (List.prefix_append _ _)

/-- The header of a definition stands in front of its own body and of the bodies that come later. -/
theorem opening_infix {e : Definition} (he : e ∈ earlier ++ [d]) : e.opening <:+: l.upTo earlier d := by
  rcases List.mem_append.1 he with he | he
  · have hone : e.text ++ [Bytes.newline] <:+: earlier.flatMap fun e => e.text ++ [Bytes.newline] := by
      simpa using ((List.singleton_infix_iff e earlier).2 he).flatMap fun e => e.text ++ [Bytes.newline]
    have hopening : e.opening <+: e.text ++ [Bytes.newline] := by
      simp only [Definition.text, List.append_assoc, List.prefix_append]
    exact (hopening.isInfix.trans hone).trans (List.infix_append _ _ _)
  · cases List.mem_singleton.1 he
    exact (List.suffix_append _ _).isInfix

/-- A function has a prototype, with its header, unless it is the entry function. -/
theorem IsOf.prototype_of_mem (h : l.IsOf entry program) {n : Node} {s : Signature} (hn : n ∈ program)
    (hs : n.signature? = some s) (hentry : s.name.lexeme ≠ entry) :
    ∃ p ∈ l.prototypes, p.signature = s := by
  have hmem : s ∈ l.prototypes.map (·.signature) := by
    rw [h.prototypes, List.mem_filter]
    exact ⟨List.mem_filterMap.2 ⟨n, hn, hs⟩, by simpa using hentry⟩
  obtain ⟨p, hp, rfl⟩ := List.mem_map.1 hmem
  exact ⟨p, hp, rfl⟩

theorem IsOf.item_mem (h : l.IsOf entry program) (hd : d ∈ l.definitions) : d.item ∈ program := by
  have hmem : d.item ∈ l.definitions.map Definition.item := List.mem_map_of_mem hd
  rw [h.definitions] at hmem
  exact List.mem_of_mem_filter hmem

/-- **Every item of a program is declared in front of every body**, if the entry function is first. -/
theorem IsOf.declares (h : l.IsOf entry program) {first : Signature} {body items : List Node}
    (heq : program = .func first body :: items) (hfirst : first.name.lexeme = entry)
    (hsplit : l.definitions = earlier ++ d :: later) {n : Node} {s : Signature} (hn : n ∈ program)
    (hs : n.signature? = some s) : l.Declares earlier d s.name.lexeme := by
  by_cases hname : s.name.lexeme = entry
  · -- the entry function has no prototype, but its definition is not behind `d`
    have hdefinitions := h.definitions
    rw [heq, List.filter_cons_of_pos rfl, hsplit] at hdefinitions
    obtain ⟨e, hemem, heitem⟩ : ∃ e ∈ earlier ++ [d], e.item = .func first body := by
      cases earlier with
      | nil => exact ⟨d, by simp, (List.cons.inj hdefinitions).1⟩
      | cons e es => exact ⟨e, by simp, (List.cons.inj hdefinitions).1⟩
    have hsame : e.signature.name.lexeme = s.name.lexeme := by
      rw [(Node.func.inj heitem).1, hfirst, hname]
    exact .inr ⟨e, hemem, hsame, opening_infix hemem⟩
  · obtain ⟨p, hp, hps⟩ := h.prototype_of_mem hn hs hname
    exact .inl ⟨p, hp, by rw [hps], prototype_infix hp⟩

end Outline

/-! ## The pieces of an accepted program -/

section

variable {entry : Bytes} {program tree : List Node}

theorem foldl_firstAppearances {names seen : List Bytes} (hnames : names.Nodup)
    (hseen : names.Disjoint seen) :
    names.foldl (fun seen n => if seen.contains n then seen else n :: seen) seen =
      names.reverse ++ seen := by
  induction names generalizing seen with
  | nil => rfl
  | cons n names ih =>
      obtain ⟨hn, hnames⟩ := List.nodup_cons.1 hnames
      obtain ⟨hfresh, hseen⟩ := List.disjoint_cons_left.1 hseen
      have hnext : names.Disjoint (n :: seen) := List.disjoint_cons_right.2 ⟨hn, hseen⟩
      rw [List.foldl_cons, if_neg (by simpa using hfresh), ih hnames hnext]
      simp

/-- Different names are all kept, in their order. -/
theorem functionNames_eq (h : DistinctNames tree) :
    functionNames tree = (tree.filterMap Node.signature?).map (·.name.lexeme) := by
  rw [functionNames, firstAppearances, foldl_firstAppearances h (List.disjoint_nil_right _)]
  simp

theorem prototypes_eq {ss : List Signature}
    (hlast : ∀ s ∈ ss, lastSignature? tree s.name.lexeme = some s)
    (hheaders : ∀ s ∈ ss, ∃ text, header entry s = .ok text) :
    ∃ ps : List Prototype,
      prototypes entry tree (ss.map (·.name.lexeme)) = .ok (ps.flatMap Prototype.text) ∧
        ps.map (·.signature) = ss.filter (·.name.lexeme ≠ entry) ∧
        ∀ p ∈ ps, IsHeader entry p.signature p.header := by
  induction ss with
  | nil => exact ⟨[], rfl, rfl, by simp⟩
  | cons s ss ih =>
      rw [List.forall_mem_cons] at hlast hheaders
      obtain ⟨ps, htext, hsignatures, hps⟩ := ih hlast.2 hheaders.2
      rw [List.map_cons, prototypes]
      by_cases hname : s.name.lexeme = entry
      · exact ⟨ps, by rw [if_pos hname, htext], by simpa [hname] using hsignatures, hps⟩
      · obtain ⟨text, hheader⟩ := hheaders.1
        refine ⟨⟨s, text⟩ :: ps, ?_, by simpa [hname] using hsignatures, ?_⟩
        · rw [if_neg hname, hlast.1]
          simp only [hheader, htext, List.flatMap_cons, Prototype.text]
        · rw [List.forall_mem_cons]
          exact ⟨header_eq_ok_iff.1 hheader, hps⟩

theorem definitions_eq {ns : List Node} (h : ∀ s body, .func s body ∈ ns →
      ∃ d : Definition, d.item = .func s body ∧ d.IsWritten entry tree) :
    ∃ ds : List Definition,
      definitions entry tree false ns = .ok (ds.flatMap fun d => Bytes.newline :: d.text) ∧
        ds.map Definition.item = ns.filter (fun n => n matches .func ..) ∧
        ∀ d ∈ ds, d.IsWritten entry tree := by
  induction ns with
  | nil => exact ⟨[], rfl, rfl, by simp⟩
  | cons n ns ih =>
      obtain ⟨ds, htext, hitems, hds⟩ := ih fun s body hmem => h s body (List.mem_cons_of_mem _ hmem)
      cases n with
      | func s body =>
          obtain ⟨d, hitem, hd⟩ := h s body List.mem_cons_self
          obtain ⟨rfl, rfl⟩ := Node.func.inj hitem
          refine ⟨d :: ds, ?_, by rw [List.map_cons, hitems]; rfl, List.forall_mem_cons.2 ⟨hd, hds⟩⟩
          simp [definitions, hd.definition_eq, htext]
      | _ => exact ⟨ds, by rw [definitions, htext]; simp, by rw [hitems]; rfl, hds⟩

/-- A typed body is written as the lines of a definition. -/
theorem isWritten_of_typed (hsigs : Signatures program)
    (heq : tree.map Node.signature? = program.map Node.signature?) {s : Signature}
    {body body' : List Node} (hmem : .func s body ∈ program)
    (hbody : BodyTyped program s [] body body') (entry : Bytes) :
    ∃ d : Definition, d.item = .func s body' ∧ d.IsWritten entry tree := by
  obtain ⟨hs, hret, hparams⟩ := hsigs _ hmem s rfl
  obtain ⟨text, vars, htext, -⟩ :=
    block_ok (k := ⟨entry, tree, s⟩) (hbody.congr heq) (covers_parameterTypes hs.nodup) 1
  obtain ⟨head, hhead⟩ := header_ok entry hparams hret
  let last := if s.name.lexeme = entry then line 1 (utf8 "return 0;") else []
  exact ⟨⟨s, body', head, text ++ last⟩, rfl, header_eq_ok_iff.1 hhead, text, vars, htext, rfl⟩

/-- The entry function of a well-typed program is still the first item. -/
theorem first_of_typed (htyped : Typing.WellTyped entry program tree) :
    ∃ first body items, tree = .func first body :: items ∧ first.name.lexeme = entry := by
  obtain ⟨first, body, items, rfl, hfirst, -⟩ := htyped.entry
  cases htyped.items with
  | cons hitem _ =>
      cases hitem with
      | func _ _ _ => exact ⟨first, _, _, rfl, hfirst⟩

/-- Only the first item has no prototype. -/
theorem length_functionNames (hdistinct : DistinctNames tree) {first : Signature}
    {body items : List Node} (heq : tree = .func first body :: items)
    (hfirst : first.name.lexeme = entry) :
    (functionNames tree).length =
      ((tree.filterMap Node.signature?).filter (·.name.lexeme ≠ entry)).length + 1 := by
  have hsplit : tree.filterMap Node.signature? = first :: items.filterMap Node.signature? := by
    rw [heq]
    rfl
  rw [functionNames_eq hdistinct]
  rw [DistinctNames, hsplit, List.map_cons, List.nodup_cons] at hdistinct
  have hothers : (items.filterMap Node.signature?).filter (·.name.lexeme ≠ entry) =
      items.filterMap Node.signature? := by
    refine List.filter_eq_self.2 fun s hs => decide_eq_true fun hsame => ?_
    exact hdistinct.1 (List.mem_map.2 ⟨s, hs, hsame.trans hfirst.symm⟩)
  rw [hsplit, List.filter_cons_of_neg (by simp [hfirst]), hothers]
  simp

/-- **The C source of a well-typed program is made of the pieces of the program.** -/
theorem program_outline (htyped : Typing.WellTyped entry program tree) (hsigs : Signatures program)
    (hdistinct : DistinctNames tree) :
    ∃ l : Outline, CSource.program entry tree = .ok l.text ∧ l.IsOf entry tree := by
  have heq := htyped.map_signature?
  have hlast : ∀ s ∈ tree.filterMap Node.signature?, lastSignature? tree s.name.lexeme = some s := by
    intro s hs
    obtain ⟨n, hn, hsig⟩ := List.mem_filterMap.1 hs
    exact hdistinct.lastSignature?_eq hn hsig
  have hheaders : ∀ s ∈ tree.filterMap Node.signature?, ∃ text, header entry s = .ok text :=
    fun s hs => header_of_last hsigs heq (hlast s hs) entry
  have hbodies : ∀ s body, .func s body ∈ tree →
      ∃ d : Definition, d.item = .func s body ∧ d.IsWritten entry tree := by
    intro s body' hmem
    obtain ⟨n, hn, hitem⟩ := Typing.item_of_mem htyped.items hmem
    cases hitem with
    | func _ _ hbody => exact isWritten_of_typed hsigs heq hn hbody entry
  obtain ⟨first, body, items, hfirst, hname⟩ := first_of_typed htyped
  obtain ⟨ps, hps, hsignatures, hwritten⟩ := prototypes_eq hlast hheaders
  obtain ⟨d, hitem, hd⟩ := hbodies first body (hfirst ▸ List.mem_cons_self)
  have hothers : ∀ s body, .func s body ∈ items →
      ∃ d : Definition, d.item = .func s body ∧ d.IsWritten entry tree :=
    fun s body hmem => hbodies s body (hfirst ▸ List.mem_cons_of_mem _ hmem)
  obtain ⟨ds, htext, hitems, hds⟩ := definitions_eq hothers
  refine ⟨⟨ps, d :: ds⟩, ?_, hsignatures, hwritten, ?_, List.forall_mem_cons.2 ⟨hd, hds⟩⟩
  · have hdefinitions : definitions entry tree true tree =
        .ok (d.text ++ ds.flatMap fun d => Bytes.newline :: d.text) := by
      nth_rewrite 2 [hfirst]
      rw [← hitem, Definition.item, definitions, hd.definition_eq]
      simp [htext]
    have hmany : 1 < (functionNames tree).length ↔ ps.isEmpty = false := by
      rw [length_functionNames hdistinct hfirst hname, ← hsignatures]
      cases ps <;> simp
    rw [← functionNames_eq hdistinct] at hps
    simp only [CSource.program, hps, hdefinitions, Outline.text, Outline.declarations, List.map_cons,
      Outline.join_cons, List.flatMap_map, hmany]
    cases ps <;> rfl
  · rw [List.map_cons, hitems, hitem, hfirst]
    rfl

end

/-! ## Calls -/

theorem mem_callsIn_trimAll {x : Bytes} {ns : List Node} (h : x ∈ callsIn (trimAll ns)) :
    ∃ n ∈ ns, x ∈ n.trim.calls := by
  induction ns with
  | nil => simp [callsIn] at h
  | cons n ns ih =>
      rw [trimAll_cons, callsIn, List.mem_append] at h
      rcases h with h | h
      · exact ⟨n, List.mem_cons_self, h⟩
      · obtain ⟨m, hm, hx⟩ := ih h
        exact ⟨m, List.mem_cons_of_mem _ hm, hx⟩

section

variable {program : List Node} {s : Signature} {Γ : Scope} {x : Bytes}

/-- A typed expression calls items of the program. -/
theorem isLastItem_of_call {e : Node} {t : Ty} (h : HasType program s Γ e t) (hx : x ∈ e.trim.calls) :
    ∃ callee, IsLastItem program x callee := by
  induction h with
  | int | float | bool | string | param | var => simp [Node.trim, Node.calls] at hx
  | binary op ht hl hr ihl ihr =>
      rw [Node.trim, Node.calls, List.mem_append] at hx
      exact hx.elim ihl ihr
  | @call name args callee ts t hcallee hparams hlength hargs hret ih =>
      rw [Node.trim, Node.calls, List.mem_cons] at hx
      rcases hx with rfl | hx
      · exact ⟨callee, hcallee⟩
      · obtain ⟨a, ha, hx⟩ := mem_callsIn_trimAll hx
        have hfst : (args.zip ts).map Prod.fst = args := List.map_fst_zip (Nat.le_of_eq hlength)
        rw [← hfst] at ha
        obtain ⟨p, hp, rfl⟩ := List.mem_map.1 ha
        exact ih p hp hx

/-- **A typed body calls items of the program.** What `print` does not print is not typed, and is left
out. -/
theorem isLastItem_of_callsIn {ns ns' : List Node} (h : BodyTyped program s Γ ns ns')
    (hx : x ∈ callsIn (trimAll ns')) : ∃ callee, IsLastItem program x callee := by
  induction h with
  | nil => simp [callsIn] at hx
  | expr he _ ih =>
      rw [trimAll_cons, callsIn, List.mem_append] at hx
      exact hx.elim (isLastItem_of_call he) ih
  | assign hv _ _ _ _ ih | ret _ hv _ _ ih =>
      rw [trimAll_cons, callsIn, List.mem_append, Node.trim, Node.calls] at hx
      exact hx.elim (isLastItem_of_call hv) ih
  | print _ _ ha _ _ ih =>
      rw [trimAll_cons, callsIn, List.mem_append, Node.trim, trimFirst, Node.calls] at hx
      simp only [callsIn, List.append_nil] at hx
      exact hx.elim (isLastItem_of_call ha) ih
  | cond _ hc _ _ ihb ih =>
      rw [trimAll_cons, callsIn, List.mem_append, Node.trim, Node.calls, List.mem_append] at hx
      rcases hx with (hx | hx) | hx
      · exact isLastItem_of_call hc hx
      · exact ihb hx
      · exact ih hx

end

/-! ## Calls as they are written -/

/-- What a call of `x` begins with. -/
def callText (x : Bytes) : Bytes := x ++ utf8 "("

mutual

theorem callText_of_call {x : Bytes} : ∀ {n : Node} {text : Bytes}, expression n = .ok text →
    x ∈ n.calls → callText x <:+: text
  | .binary l op r, text, h, hx => by
      simp only [expression] at h
      split at h
      · cases h
      rename_i left hleft
      split at h
      · cases h
      rename_i right hright
      cases h
      rw [Node.calls, List.mem_append] at hx
      rcases hx with hx | hx
      · refine (callText_of_call hleft hx).trans ?_
        simp only [List.append_assoc]
        exact List.infix_append' _ _ _
      · exact (callText_of_call hright hx).trans (List.infix_append _ _ _)
  | .call name args, text, h, hx => by
      simp only [expression] at h
      split at h
      · cases h
      rename_i texts htexts
      cases h
      rw [Node.calls, List.mem_cons] at hx
      rcases hx with rfl | hx
      · rw [List.append_assoc]
        exact (List.prefix_append _ _).isInfix
      · obtain ⟨text, hmem, hcall⟩ := callText_of_callsIn htexts hx
        exact (hcall.trans (Bytes.infix_join _ hmem)).trans (List.infix_append _ _ _)
  | .int .., _, _, hx | .float .., _, _, hx | .bool .., _, _, hx | .string .., _, _, hx
  | .ref .., _, _, hx => by simp [Node.calls] at hx
  | .decl .., _, h, _ | .assign .., _, h, _ | .signature .., _, h, _ | .func .., _, h, _
  | .cond .., _, h, _ | .ret .., _, h, _ | .print .., _, h, _ => by simp [expression] at h

theorem callText_of_callsIn {x : Bytes} : ∀ {ns : List Node} {texts : List Bytes},
    expressions ns = .ok texts → x ∈ callsIn ns → ∃ text ∈ texts, callText x <:+: text
  | [], _, _, hx => by simp [callsIn] at hx
  | n :: ns, texts, h, hx => by
      simp only [expressions] at h
      split at h
      · cases h
      rename_i text htext
      split at h
      · cases h
      rename_i rest hrest
      cases h
      rw [callsIn, List.mem_append] at hx
      rcases hx with hx | hx
      · exact ⟨text, List.mem_cons_self, callText_of_call htext hx⟩
      · obtain ⟨other, hmem, hcall⟩ := callText_of_callsIn hrest hx
        exact ⟨other, List.mem_cons_of_mem _ hmem, hcall⟩

end

section

variable {c : Context} {x : Bytes}

theorem infix_line {text part : Bytes} (depth : Nat) (h : part <:+: text) :
    part <:+: line depth text :=
  h.trans (List.infix_append _ _ _)

/-- An expression that is written with its calls. -/
theorem callText_of_trim {n : Node} {text : Bytes} (h : expression n = .ok text)
    (hx : x ∈ n.trim.calls) : callText x <:+: text :=
  callText_of_call ((expression_trim n).trans h) hx

theorem callText_of_printing {vars : Variables} {depth : Nat} {args : List Node} {text : Bytes}
    (h : printing c vars depth args = .ok text) (hx : x ∈ callsIn (trimFirst args)) :
    callText x <:+: text := by
  cases args with
  | nil => simp [printing] at h
  | cons a more =>
      simp only [printing] at h
      split at h
      · cases h
      rename_i v hv
      split at h
      · cases h
      cases h
      simp only [trimFirst, callsIn, List.append_nil] at hx
      refine infix_line depth (((callText_of_trim hv hx).trans ?_).trans (List.infix_append _ _ _))
      split
      · exact List.infix_append _ _ _
      · exact List.infix_refl _

theorem callText_of_returning {vars : Variables} {depth : Nat} {v : Node} {text : Bytes}
    (h : returning c vars depth v = .ok text) (hx : x ∈ v.trim.calls) : callText x <:+: text := by
  simp only [returning] at h
  split at h
  · cases h
  rename_i value hvalue
  have hcall := callText_of_trim hvalue hx
  split at h
  · cases h
    exact infix_line depth (hcall.trans (List.infix_append _ _ _))
  · cases h
    have hline := infix_line depth (hcall.trans (List.prefix_append value (utf8 ";")).isInfix)
    exact hline.trans (List.prefix_append _ _).isInfix

mutual

theorem callText_of_statement : ∀ {n : Node} {vars vars' : Variables} {depth : Nat} {text : Bytes},
    statement c vars depth n = .ok (text, vars') → x ∈ n.trim.calls → callText x <:+: text
  | .assign d v, vars, vars', depth, text, h, hx => by
      simp only [statement, binding] at h
      split at h
      · cases h
      split at h
      · cases h
      rename_i value hvalue
      cases h
      rw [Node.trim, Node.calls] at hx
      exact infix_line depth ((callText_of_trim hvalue hx).trans (List.infix_append _ _ _))
  | .print t args, vars, vars', depth, text, h, hx => by
      simp only [statement] at h
      split at h
      · cases h
      rename_i line hline
      cases h
      rw [Node.trim, Node.calls] at hx
      exact callText_of_printing hline hx
  | .ret t v, vars, vars', depth, text, h, hx => by
      simp only [statement] at h
      split at h
      · cases h
      rename_i line hline
      cases h
      rw [Node.trim, Node.calls] at hx
      exact callText_of_returning hline hx
  | .cond t condition body, vars, vars', depth, text, h, hx => by
      simp only [statement] at h
      split at h
      · cases h
      rename_i value hvalue
      split at h
      · cases h
      rename_i inner vars₁ hinner
      cases h
      rw [Node.trim, Node.calls, List.mem_append] at hx
      rcases hx with hx | hx
      · have hcall := (callText_of_trim hvalue hx).trans
          (List.infix_append (utf8 "if (") value (utf8 ") \x7b"))
        rw [List.append_assoc]
        exact (infix_line depth hcall).trans (List.prefix_append _ _).isInfix
      · exact (callText_of_block hinner hx).trans (List.infix_append _ _ _)
  | .int .., _, _, depth, _, h, hx | .float .., _, _, depth, _, h, hx | .bool .., _, _, depth, _, h, hx
  | .string .., _, _, depth, _, h, hx | .ref .., _, _, depth, _, h, hx
  | .binary .., _, _, depth, _, h, hx | .call .., _, _, depth, _, h, hx
  | .decl .., _, _, depth, _, h, hx | .signature .., _, _, depth, _, h, hx
  | .func .., _, _, depth, _, h, hx => by
      simp only [statement] at h
      split at h
      · cases h
      rename_i value hvalue
      cases h
      exact infix_line depth ((callText_of_trim hvalue hx).trans (List.prefix_append _ _).isInfix)

/-- **The calls of a body stand in its text.** -/
theorem callText_of_block : ∀ {ns : List Node} {vars vars' : Variables} {depth : Nat} {text : Bytes},
    block c vars depth ns = .ok (text, vars') → x ∈ callsIn (trimAll ns) → callText x <:+: text
  | [], _, _, _, _, _, hx => by simp [callsIn] at hx
  | n :: ns, vars, vars', depth, text, h, hx => by
      simp only [block] at h
      split at h
      · cases h
      rename_i first vars₁ hfirst
      split at h
      · cases h
      rename_i others vars₂ hothers
      cases h
      rw [trimAll_cons, callsIn, List.mem_append] at hx
      rcases hx with hx | hx
      · exact (callText_of_statement hfirst hx).trans (List.prefix_append _ _).isInfix
      · exact (callText_of_block hothers hx).trans (List.suffix_append _ _).isInfix

end

end

/-! ## Declared before use -/

section

variable {entry : Bytes} {program tree : List Node}

/-- **The C source of an accepted program declares every function once, before it is called.** It has
one prototype for every item but the entry function, in front of all definitions, and the definitions of
the functions in their order. A function has the same header in its prototype and in its definition,
with its return type, its name and its parameters (`IsHeader`). A call that is written in a body is one of
a function whose prototype or header stands in front of the body. -/
theorem program_declares {tokens : List Token} (hparse : Parsing.parse tokens = .ok program)
    (hanalyze : Typing.analyze entry program = .ok tree) (hdistinct : DistinctNames program) :
    ∃ l : Outline, CSource.program entry tree = .ok l.text ∧ l.IsOf entry tree ∧
      (l.prototypes.map (·.signature.name.lexeme)).Nodup ∧
      entry ∉ l.prototypes.map (·.signature.name.lexeme) ∧
      (∀ d ∈ l.definitions, d.signature.name.lexeme ≠ entry → ⟨d.signature, d.header⟩ ∈ l.prototypes) ∧
      ∀ earlier d later, l.definitions = earlier ++ d :: later →
        l.text = l.upTo earlier d ++ d.lines ++ Outline.rest later ∧
        ∀ x ∈ callsIn (trimAll d.body), callText x <:+: d.lines ∧ l.Declares earlier d x := by
  have hshape := Parsing.parse_grown (fun _ _ => trivial) hparse
  have htyped : Typing.WellTyped entry program tree := .of_analyze hshape hanalyze
  have hsame := Typing.filterMap_signature?_congr htyped.map_signature?
  have hdistinct' : DistinctNames tree := hdistinct.congr hsame
  obtain ⟨l, htext, hl⟩ := program_outline htyped (htyped.signatures hshape) hdistinct'
  obtain ⟨first, body, items, hfirst, hname⟩ := first_of_typed htyped
  have hnames : l.prototypes.map (·.signature.name.lexeme) =
      ((tree.filterMap Node.signature?).filter (·.name.lexeme ≠ entry)).map (·.name.lexeme) := by
    rw [← hl.prototypes, List.map_map]
    rfl
  refine ⟨l, htext, hl, ?_, ?_, ?_, ?_⟩
  · rw [hnames]
    exact List.Nodup.sublist (List.filter_sublist.map _) hdistinct'
  · rw [hnames]
    simp
  · intro d hd hother
    obtain ⟨⟨signature, header⟩, hp, rfl⟩ := hl.prototype_of_mem (hl.item_mem hd) rfl hother
    exact (hl.headers _ hp).unique (hl.bodies d hd).header ▸ hp
  · intro earlier d later hsplit
    refine ⟨Outline.text_eq hsplit, fun x hx => ?_⟩
    have hd : d ∈ l.definitions := by simp [hsplit]
    constructor
    · obtain ⟨text, vars, hblock, hlines⟩ := (hl.bodies d hd).lines
      rw [hlines]
      exact (callText_of_block hblock hx).trans (List.prefix_append _ _).isInfix
    · obtain ⟨-, -, hbody⟩ := htyped.body (hl.item_mem hd)
      obtain ⟨callee, before, item, after, hsplits, hitem, rfl, -⟩ := isLastItem_of_callsIn hbody hx
      exact hl.declares hfirst hname hsplit (by simp [hsplits]) hitem

end

end CSource

namespace Parsing

/-- A program with a function that is only declared, and one that calls the entry function:
```
func main() { if false { again() } }
func more(n: Int) -> Int
func again() { main() }
```
-/
def callsBack : List Node :=
  [.func ⟨named "main", [], some .void⟩
      [.cond (fixed (.keyword .ifBranch)) (.bool (fixed (.bool false)) false)
        [.call (named "again") []]],
    .signature ⟨named "more", [⟨false, named "n", some .int⟩], some .int⟩,
    .func ⟨named "again", [], some .void⟩ [.call (named "main") []]]

def callsBackTokens : List Token :=
  spelled ["func", "main", "(", ")", "\x7b", "if", "false", "\x7b", "again", "(", ")", "\x7d", "\x7d",
    "func", "more", "(", "n", ":", "Int", ")", "->", "Int", "func", "again", "(", ")", "\x7b", "main",
    "(", ")", "\x7d"]

end Parsing

namespace CSource

open Parsing in
/-- The entry function is called back, and has no prototype. -/
theorem program_declares_back :
    parse callsBackTokens = .ok callsBack ∧ Typing.analyze defaultEntry callsBack = .ok callsBack ∧
      DistinctNames callsBack ∧ ∃ l : Outline, CSource.program defaultEntry callsBack = .ok l.text ∧
        l.prototypes.map (·.header) = [utf8 "int more(int n)", utf8 "void again(void)"] ∧
        l.prototypes.map (·.signature.name.lexeme) = [utf8 "more", utf8 "again"] ∧
        ∃ main again, l.definitions = [main, again] ∧ l.Declares [main] again defaultEntry := by
  have hparse : parse callsBackTokens = .ok callsBack := by rfl
  have hanalyze : Typing.analyze defaultEntry callsBack = .ok callsBack := by rfl
  have hdistinct : DistinctNames callsBack := by decide
  obtain ⟨l, htext, hl, -, -, -, hcalls⟩ := program_declares hparse hanalyze hdistinct
  obtain ⟨⟨_, more⟩, others, hprototypes, rfl, hothers⟩ := List.map_eq_cons_iff.1 hl.prototypes
  obtain ⟨⟨_, again⟩, none, rfl, rfl, hnone⟩ := List.map_eq_cons_iff.1 hothers
  cases List.map_eq_nil_iff.1 hnone
  have hheaders := hl.headers
  rw [hprototypes] at hheaders
  have hmore : more = utf8 "int more(int n)" :=
    (hheaders _ List.mem_cons_self).unique (header_eq_ok_iff.1 rfl)
  have hagain : again = utf8 "void again(void)" :=
    (hheaders _ (List.mem_cons_of_mem _ List.mem_cons_self)).unique (header_eq_ok_iff.1 rfl)
  refine ⟨hparse, hanalyze, hdistinct, l, htext, ?_, by rw [hprototypes]; rfl, ?_⟩
  · rw [hprototypes, hmore, hagain]
    rfl
  · obtain ⟨main, items, hdefinitions, -, hitems⟩ := List.map_eq_cons_iff.1 hl.definitions
    obtain ⟨again, none, rfl, hagain, hnone⟩ := List.map_eq_cons_iff.1 hitems
    cases List.map_eq_nil_iff.1 hnone
    refine ⟨main, again, hdefinitions, ((hcalls [main] again [] hdefinitions).2 _ ?_).2⟩
    rw [(Node.func.inj hagain).2]
    decide

end CSource

end Swiftlet
