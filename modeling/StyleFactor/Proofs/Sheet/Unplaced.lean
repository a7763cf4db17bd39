import StyleFactor.Outcomes
import StyleFactor.Grammar.Lossless
import StyleFactor.Sheet.Parse
import StyleFactor.Proofs.Tree.Sketch

/-!
Entries without their positions. Offsets of a tree matter for nothing else: two trees that differ
in offsets only give the same entries, or the same failure, positions apart.
-/
namespace StyleFactor

def Decl.unplaced (d : Decl) : Decl := { d with position := none }

def Rule.unplaced (r : Rule) : Rule := ⟨r.selectors, r.declarations.map Decl.unplaced, none⟩

def FontFace.unplaced (f : FontFace) : FontFace := ⟨f.declarations.map Decl.unplaced, none⟩

def AtRule.unplaced (a : AtRule) : AtRule := { a with position := none }

def Comment.unplaced (c : Comment) : Comment := { c with position := none }

namespace Entry

def unplaced : Entry → Entry
  | .rule r => .rule r.unplaced
  | .fontFace f => .fontFace f.unplaced
  | .atRule a => .atRule a.unplaced
  | .comment c => .comment c.unplaced
  | .whitespace s => .whitespace s

theorem isWhitespace_unplaced (e : Entry) : e.unplaced.isWhitespace = e.isWhitespace := by
  cases e <;> rfl

end Entry

theorem eq_of_unplaced_atRule {es : List Entry} {b : AtRule}
    (same : es.map Entry.unplaced = [.atRule b]) : ∃ a, es = [.atRule a] ∧ a.unplaced = b := by
  obtain ⟨e, rest, rfl, first, last⟩ := List.map_eq_cons_iff.1 same
  obtain rfl := List.map_eq_nil_iff.1 last
  cases e with
  | atRule a => exact ⟨a, rfl, Entry.atRule.inj first⟩
  | _ => cases first

theorem map_mapM {ε α β γ : Type} (f : α → Except ε β) (g : β → γ) (xs : List α) :
    (xs.mapM f).map (List.map g) = xs.mapM fun x => (f x).map g := by
  induction xs with
  | nil => rfl
  | cons x xs ih =>
    rw [List.mapM_cons, List.mapM_cons, ← ih]
    cases f x with
    | error => rfl
    | ok y => cases xs.mapM f <;> rfl

theorem withoutGaps_unplaced (ns : List Node) :
    withoutGaps (ns.map Node.unplaced) = (withoutGaps ns).map Node.unplaced := by
  simp [withoutGaps, List.filter_map, Function.comp_def]

theorem find_unplaced (n : Node) (tag : String) :
    n.unplaced.find tag = (n.find tag).map Node.unplaced := by
  have same : (fun m : Node => m.tag == tag) ∘ Node.unplaced = fun m => m.tag == tag := by
    funext m
    simp
  rw [Node.find, Node.find, children_unplaced, List.find?_map, same]

theorem findAll_unplaced (n : Node) (tag : String) :
    n.unplaced.findAll tag = (n.findAll tag).map Node.unplaced := by
  simp [Node.findAll, List.filter_map, Function.comp_def]

theorem need_unplaced (n : Node) (tag : String) :
    n.unplaced.need tag = (n.need tag).map Node.unplaced := by
  rw [Node.need, Node.need, find_unplaced]
  cases n.find tag <;> rfl

theorem first_unplaced (n : Node) : n.unplaced.first = n.first.map Node.unplaced := by
  rw [Node.first, Node.first, children_unplaced, tag_unplaced]
  cases n.children <;> rfl

theorem collapsed_unplaced (n : Node) : collapsed n.unplaced = collapsed n := by
  rw [collapsed, str_unplaced, collapsed]

variable (o o' : Origin)

theorem declOfNode_unplaced (n : Node) :
    (Decl.ofNode o n.unplaced).map Decl.unplaced = (Decl.ofNode o' n).map Decl.unplaced := by
  rw [Decl.ofNode, Decl.ofNode, children_unplaced, withoutGaps_unplaced]
  rcases withoutGaps n.children with _ | ⟨p, _ | ⟨v, _ | ⟨w, ws⟩⟩⟩
  · rfl
  · rfl
  · simp [Except.map, Decl.unplaced]
  · simp [Except.map]

theorem declsOfNode_unplaced (n : Node) :
    (declsOfNode o n.unplaced).map (List.map Decl.unplaced) =
      (declsOfNode o' n).map (List.map Decl.unplaced) := by
  rw [declsOfNode, declsOfNode, need_unplaced]
  cases n.need "block" with
  | error => rfl
  | ok block =>
    simp only [Except.map, Except.bind, bind]
    rw [find_unplaced]
    cases block.find "decls" with
    | none => rfl
    | some ds =>
      have same : (fun d => (Decl.ofNode o d.unplaced).map Decl.unplaced) =
          fun d => (Decl.ofNode o' d).map Decl.unplaced :=
        funext (declOfNode_unplaced o o')
      have lists := map_mapM (fun d => Decl.ofNode o d.unplaced) Decl.unplaced (ds.findAll "decl")
      rw [same, ← map_mapM] at lists
      simp only [Option.map_some, findAll_unplaced, List.mapM_map]
      exact lists

theorem ruleOfNode_unplaced (n : Node) :
    (Rule.ofNode o n.unplaced).map Rule.unplaced = (Rule.ofNode o' n).map Rule.unplaced := by
  have decls := declsOfNode_unplaced o o' n
  rw [Rule.ofNode, Rule.ofNode, need_unplaced]
  cases n.need "sels" with
  | error => rfl
  | ok sels =>
    cases here : declsOfNode o n.unplaced <;> cases there : declsOfNode o' n <;>
      simp_all [Except.map, Except.bind, bind, pure, Except.pure, Rule.unplaced,
        withoutGaps_unplaced, collapsed_unplaced]

theorem fontFaceOfNode_unplaced (n : Node) :
    (FontFace.ofNode o n.unplaced).map FontFace.unplaced =
      (FontFace.ofNode o' n).map FontFace.unplaced := by
  have decls := declsOfNode_unplaced o o' n
  rw [FontFace.ofNode, FontFace.ofNode]
  cases here : declsOfNode o n.unplaced <;> cases there : declsOfNode o' n <;>
    simp_all [Except.map, Except.bind, bind, pure, Except.pure, FontFace.unplaced]

theorem atRuleOfNode_unplaced (n : Node) :
    (AtRule.ofNode o n.unplaced).map AtRule.unplaced =
      (AtRule.ofNode o' n).map AtRule.unplaced := by
  rw [AtRule.ofNode, AtRule.ofNode, need_unplaced, find_unplaced, find_unplaced]
  cases n.need "atname" with
  | error => rfl
  | ok name =>
    simp [Except.map, Except.bind, bind, pure, Except.pure, AtRule.unplaced, Option.map_map,
      Function.comp_def, collapsed_unplaced]

/-- The entry of what stands at the top of a sheet, the group around at-rules taken off. -/
def Entry.ofInner (o : Origin) (n : Node) : Except TreeFault Entry := do
  if n.tag == "rule" then return .rule (← Rule.ofNode o n)
  else if n.tag == "fontface" then return .fontFace (← FontFace.ofNode o n)
  else if n.tag == "atblock" || n.tag == "atstatement" then return .atRule (← AtRule.ofNode o n)
  else
    let gap ← n.first
    if gap.tag == "comment" then return .comment (Comment.ofNode o gap)
    else return .whitespace (.ofList n.str)

theorem ofNode_eq_ofInner (top : Node) :
    Entry.ofNode o top =
      (if top.tag == "atrule" then top.first else .ok top) >>= Entry.ofInner o := by
  rw [Entry.ofNode]
  split <;> rfl

theorem ofInner_unplaced (n : Node) :
    (Entry.ofInner o n.unplaced).map Entry.unplaced =
      (Entry.ofInner o' n).map Entry.unplaced := by
  have rules := ruleOfNode_unplaced o o' n
  have faces := fontFaceOfNode_unplaced o o' n
  have others := atRuleOfNode_unplaced o o' n
  rw [Entry.ofInner, Entry.ofInner, tag_unplaced]
  split
  · cases here : Rule.ofNode o n.unplaced <;> cases there : Rule.ofNode o' n <;>
      simp_all [Except.map, Except.bind, bind, Except.pure, pure, Entry.unplaced]
  · split
    · cases here : FontFace.ofNode o n.unplaced <;> cases there : FontFace.ofNode o' n <;>
        simp_all [Except.map, Except.bind, bind, Except.pure, pure, Entry.unplaced]
    · split
      · cases here : AtRule.ofNode o n.unplaced <;> cases there : AtRule.ofNode o' n <;>
          simp_all [Except.map, Except.bind, bind, Except.pure, pure, Entry.unplaced]
      · rw [first_unplaced]
        cases n.first with
        | error => rfl
        | ok gap =>
          simp only [Except.map, Except.bind, bind, tag_unplaced, Comment.ofNode, str_unplaced]
          cases gap.tag == "comment" <;> rfl

theorem entryOfNode_unplaced (top : Node) :
    (Entry.ofNode o top.unplaced).map Entry.unplaced =
      (Entry.ofNode o' top).map Entry.unplaced := by
  have start : (if top.unplaced.tag == "atrule" then top.unplaced.first else .ok top.unplaced) =
      (if top.tag == "atrule" then top.first else .ok top).map Node.unplaced := by
    rw [tag_unplaced, first_unplaced]
    split <;> rfl
  rw [ofNode_eq_ofInner, ofNode_eq_ofInner, start]
  cases (if top.tag == "atrule" then top.first else .ok top) with
  | error => rfl
  | ok n => exact ofInner_unplaced o o' n

theorem ofNodes_unplaced (ns : List Node) :
    (Sheet.ofNodes o (ns.map Node.unplaced)).map (List.map Entry.unplaced) =
      (Sheet.ofNodes o' ns).map (List.map Entry.unplaced) := by
  have same : ∀ n : Node, (n.unplaced.first >>= Entry.ofNode o).map Entry.unplaced =
      (n.first >>= Entry.ofNode o').map Entry.unplaced := by
    intro n
    rw [first_unplaced]
    cases n.first with
    | error => rfl
    | ok top => exact entryOfNode_unplaced o o' top
  rw [Sheet.ofNodes, Sheet.ofNodes, List.mapM_map, map_mapM, map_mapM]
  exact congrArg ns.mapM (funext same)

/-- The nodes at the top of the tree of a text, as far as it is read. -/
def Sheet.nodes (text : List Char) : List Node := Node.ofSpans text (Sheet.spans text).1

theorem length_left_le (text : List Char) : (Grammar.css text).2.length ≤ text.length := by
  have whole := congrArg List.length (Grammar.css_append text)
  rw [List.length_append] at whole
  omega

/-- Everything is read where nothing is left. -/
theorem spans_eq_length (text : List Char) :
    (Sheet.spans text).2 = text.length ↔ (Grammar.css text).2 = [] := by
  have shorter := length_left_le text
  have stop : (Sheet.spans text).2 = text.length - (Grammar.css text).2.length := rfl
  rw [stop, ← List.length_eq_zero_iff]
  omega

theorem parse_eq_ok {source : Option String} {text : String} {d : Sheet} :
    Sheet.parse source text = .ok d ↔ (Sheet.spans text.toList).2 = text.toList.length ∧
      Sheet.ofNodes (.ofText text.toList source) (Sheet.nodes text.toList) = .ok d.entries ∧
      source = d.source := by
  obtain ⟨es, s⟩ := d
  simp only [Sheet.parse, Sheet.nodes]
  by_cases full : (Sheet.spans text.toList).2 = text.toList.length
  · rw [if_pos full]
    cases Sheet.ofNodes (.ofText text.toList source)
      (Node.ofSpans text.toList (Sheet.spans text.toList).1) <;> simp [full]
  · simp [full]

/-- A text that the grammar reads to the end is a sheet as soon as its tree without offsets is. -/
theorem parse_of_sketches (source : Option String) {text : String}
    {ps : List Grammar.Fragment} (read : Grammar.css text.toList = (ps, []))
    {es : List Entry} (found : Sheet.ofNodes o (sketches ps) = .ok es) :
    ∃ d, Sheet.parse source text = .ok d ∧
      d.entries.map Entry.unplaced = es.map Entry.unplaced := by
  have whole : Grammar.charsOf ps = text.toList := by
    simpa [read] using Grammar.css_append text.toList
  have spans : Sheet.spans text.toList = (spansOf 0 ps, text.toList.length) := by
    rw [Sheet.spans, read]
    rfl
  have nodes : Sheet.nodes text.toList = Node.ofSpans text.toList (spansOf 0 ps) := by
    rw [Sheet.nodes, spans]
  have same := ofNodes_unplaced o (.ofText text.toList source) (Sheet.nodes text.toList)
  rw [nodes, unplaced_ofSpans whole, found] at same
  obtain ⟨es', entries, equal⟩ := exists_of_map_ok same.symm
  exact ⟨⟨es', source⟩, parse_eq_ok.2 ⟨by rw [spans], nodes ▸ entries, rfl⟩, equal⟩

/-- And the other way round: a sheet has been read to the end, and its tree says its entries. -/
theorem sketches_of_parse {source : Option String} {text : String} {d : Sheet}
    (parsed : Sheet.parse source text = .ok d) :
    ∃ ps es, Grammar.css text.toList = (ps, []) ∧ Sheet.ofNodes o (sketches ps) = .ok es ∧
      es.map Entry.unplaced = d.entries.map Entry.unplaced := by
  obtain ⟨full, entries, -⟩ := parse_eq_ok.1 parsed
  rcases read : Grammar.css text.toList with ⟨ps, r⟩
  have whole : Grammar.charsOf ps ++ r = text.toList := by
    simpa [read] using Grammar.css_append text.toList
  obtain rfl : r = [] := by simpa [read] using (spans_eq_length text.toList).1 full
  rw [List.append_nil] at whole
  have nodes : Sheet.nodes text.toList = Node.ofSpans text.toList (spansOf 0 ps) := by
    rw [Sheet.nodes, Sheet.spans, read]
  have same := ofNodes_unplaced o (.ofText text.toList source) (Sheet.nodes text.toList)
  rw [entries, nodes, unplaced_ofSpans whole] at same
  obtain ⟨es, said, equal⟩ := exists_of_map_ok same
  exact ⟨ps, es, rfl, said, equal⟩

end StyleFactor
