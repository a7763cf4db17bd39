import StyleFactor.Proofs.Grammar.Outside
import StyleFactor.Proofs.Sheet.Origins

/-!
The texts that a sheet holds, each by itself. They were read in front of other text and trimmed
since, and still the production that read a text takes it to the end when it stands alone. Main
statement: `selfContained_of_parse`.
-/
namespace StyleFactor

open Grammar Grammar.Reader

/-- By themselves the texts are a property and a value; trimming may have emptied the value. Strings
and parentheses in it are closed, and outside of them is nothing that would end it. -/
structure Decl.SelfContained (d : Decl) : Prop where
  property : Entire (production "property") d.property.toList
  value : d.value = "" ∨ Entire (production "value") d.value.toList ∧
    ∃ w, outerText '(' ')' 0 none d.value.toList = some w ∧ ∀ c ∈ w, c ∉ [';', '{', '}']

/-- Each text of the entry is one by itself, or empty where trimming may have left nothing. -/
def Entry.SelfContained : Entry → Prop
  | .rule r => (∀ s ∈ r.selectors, s = "" ∨ Entire (production "sel") s.toList) ∧
      ∀ d ∈ r.declarations, d.SelfContained
  | .fontFace f => ∀ d ∈ f.declarations, d.SelfContained
  | .atRule a => Entire (production "atprelude") a.prelude.toList ∧
      ∀ b ∈ a.body, Entire (production "atbody") b.toList ∧
        outerText '{' '}' 0 none b.toList = some []
  | .comment c => ¬['*', '/'] <:+: c.text.toList
  | .whitespace _ => True

theorem entire_leaf (tag : String) {a : Reader Char} {s : List Char} (h : Entire a s) :
    Entire (leaf tag a) s := by
  obtain ⟨xs, read⟩ := h
  have inner : plain a s = some ([.text xs], []) := map_eq_some.2 ⟨xs, read, rfl⟩
  exact ⟨_, node_eq_some.2 ⟨_, inner, rfl⟩⟩

variable {o : Origin} {text : List Char} {n : Node}

theorem selfContained_decl (genuine : n.Genuine text) (kind : n.tag = "decl") {d : Decl}
    (made : Decl.ofNode o n = .ok d) : d.SelfContained := by
  obtain ⟨p, u, v, t, -, rfl, name, value⟩ := decl_of_genuine genuine kind made
  have property : Entire (production "property") p := entire_leaf "property" name
  refine ⟨by simpa using property, ?_⟩
  by_cases empty : Text.trim v = []
  · left
    rw [empty]
  · have alone := entire_trim value empty
    have whole : Entire (production "value") (Text.trim v) := entire_leaf "value" alone
    exact .inr ⟨by simpa using whole, by simpa using outerText_valueText alone⟩

theorem selfContained_decls (genuine : n.Genuine text) {ds : List Decl}
    (read : declsOfNode o n = .ok ds) : ∀ d ∈ ds, d.SelfContained := by
  obtain ⟨ns, nodes, -, made⟩ := declOrigins_of_genuine genuine read
  intro d hd
  obtain ⟨c, hc, same⟩ := exists_of_forall₂ made hd
  exact selfContained_decl (nodes c hc).2 (nodes c hc).1 same

theorem selfContained_sel (genuine : n.Genuine text) (kind : n.tag = "sel") :
    collapsed n = "" ∨ Entire (production "sel") (collapsed n).toList := by
  obtain ⟨t, read⟩ := genuine.reads kind
  obtain ⟨-, selector⟩ := Reads.of_leaf read
  by_cases empty : Text.collapse n.str = []
  · left
    rw [collapsed, empty]
  · have whole : Entire (production "sel") (Text.collapse n.str) :=
      entire_leaf "sel" (entire_collapse_selector selector empty)
    right
    simpa [collapsed] using whole

theorem selfContained_of_madeFrom (genuine : n.Genuine text) {e : Entry} (made : e.MadeFrom o n) :
    e.SelfContained := by
  cases made with
  | rule kind made =>
    obtain ⟨l, -, -, nodes, selectors, decls⟩ := rule_of_genuine genuine made
    refine ⟨fun s hs => ?_, selfContained_decls genuine decls⟩
    rw [selectors] at hs
    obtain ⟨c, hc, rfl⟩ := List.mem_map.1 hs
    exact selfContained_sel (nodes c hc).2 (nodes c hc).1
  | fontFace kind made => exact selfContained_decls genuine (fontFace_of_genuine made)
  | atRule kind made =>
    obtain ⟨name, p, closing, body, -, rfl, prelude, bodies⟩ := atRule_of_genuine genuine kind made
    have heading : Entire (production "atprelude") (Text.collapse p) := entire_leaf _ prelude
    refine ⟨by simpa using heading, ?_⟩
    rcases bodies with ⟨rfl, -⟩ | ⟨rfl, whole⟩
    · exact fun b hb => nomatch hb
    · rintro b ⟨⟩
      have braces : Entire (production "atbody") closing := whole
      exact ⟨by simpa using braces, by simpa using outerText_atbody whole⟩
  | comment kind =>
    obtain ⟨u, -, closed, same⟩ := comment_of_genuine genuine kind o
    rw [same]
    simpa [Entry.SelfContained] using closed
  | whitespace s => trivial

/-- Every text of a sheet that was read is one by itself for the production that read it, whatever
stood around it and was trimmed from it. -/
theorem selfContained_of_parse {source : Option String} {text : String} {d : Sheet}
    (parsed : Sheet.parse source text = .ok d) : ∀ e ∈ d.entries, e.SelfContained := by
  intro e he
  obtain ⟨top, -, m, genuine, -, -, made⟩ := exists_of_forall₂ (origins_of_parse parsed) he
  exact selfContained_of_madeFrom genuine made

theorem selfContained_of_parse_untidySheet : ∃ d, Sheet.parse none untidySheet = .ok d ∧
    d.entries.map Entry.unplaced = untidyEntries ∧ ∀ e ∈ d.entries, e.SelfContained := by
  obtain ⟨d, parsed, entries⟩ := exists_of_map_ok parse_untidySheet
  exact ⟨d, parsed, entries, selfContained_of_parse parsed⟩

end StyleFactor
