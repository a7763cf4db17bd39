import StyleFactor.Proofs.Sheet.Origins
import StyleFactor.Proofs.Text.Lines

/-!
Positions and the text they point at. A marker can be turned back into the offset it was made from,
and so a position into a piece of the text. Main statement: the positions in a sheet stand in order,
and each points at the piece of text that says what the entry or declaration says
(`positions_of_parse`).
-/
namespace StyleFactor

open Grammar Grammar.Reader

namespace Text

theorem trim_suffix_trimEnd (s t : List Char) : trim t <:+ trimEnd (s ++ t) := by
  have whole := List.takeWhile_append_dropWhile (p := isBlank) (l := t)
  rw [trim]
  cases rest : t.dropWhile isBlank with
  | nil => exact List.nil_suffix
  | cons c r =>
    have solid : isBlank c = false := by
      have stop := List.head?_dropWhile_not isBlank t
      rw [rest] at stop
      simpa using stop
    have cut := trimEnd_append_cons solid (s ++ t.takeWhile isBlank) r
    have alone : trimEnd (c :: r) = c :: trimEnd r := trimEnd_append_cons solid [] r
    rw [rest] at whole
    rw [← whole, ← List.append_assoc, cut, alone]
    exact List.suffix_append _ _

end Text

/-! Positions. -/

namespace Position

/-- The offsets of its two markers. -/
def range (text : List Char) (p : Position) : Int × Int :=
  (Text.offset (Text.lineStarts text) p.start, Text.offset (Text.lineStarts text) p.stop)

def piece (text : List Char) (p : Position) : List Char :=
  Text.slice text (p.range text).1 (p.range text).2

end Position

/-- The declaration stands there: the piece starts with its property and ends with its value, white
space behind it apart. -/
structure Decl.ShownAt (text : List Char) (d : Decl) (p : Position) : Prop where
  position : d.position = some p
  nonempty : (p.range text).1 < (p.range text).2
  property : d.property.toList <+: p.piece text
  value : d.value.toList <:+ Text.trimEnd (p.piece text)

/-- The declarations stand inside, in order and apart. -/
def DeclsShown (text : List Char) (whole : Int × Int) (ds : List Decl) : Prop :=
  ∃ ps, List.Forall₂ (Decl.ShownAt text) ds ps ∧
    InOrder whole.1 (ps.map (Position.range text)) whole.2

/-- The piece of text at the position says what the entry says. -/
def Entry.Matches (text : List Char) (p : Position) : Entry → Prop
  | .rule r => ['}'] <:+ p.piece text ∧ DeclsShown text (p.range text) r.declarations
  | .fontFace f => DeclsShown text (p.range text) f.declarations
  | .atRule a => '@' :: a.name.toList <+: p.piece text ∧
      (match a.body with
        | some b => b.toList
        | none => [';']) <:+ p.piece text
  | .comment c => p.piece text = ['/', '*'] ++ c.text.toList ++ ['*', '/']
  | .whitespace _ => True

structure Entry.ShownAt (text : List Char) (e : Entry) (p : Position) : Prop where
  position : e.position = some p
  nonempty : (p.range text).1 < (p.range text).2
  piece : e.Matches text p

/-! Nodes. -/

section

variable {text : List Char} {source : Option String} {n : Node}

theorem range_position (grown : n.Grown text) :
    ((Origin.ofText text source).position n).range text = n.range := by
  obtain ⟨before, behind, -, start, stop, -⟩ := grown
  rw [Position.range, Origin.position, Origin.ofText, start, stop]
  simp only [Text.offset_locate]
  rw [Node.range, start, stop]

theorem piece_position (source : Option String) (grown : n.Grown text) :
    ((Origin.ofText text source).position n).piece text = n.str := by
  rw [Position.piece, range_position grown]
  obtain ⟨before, behind, whole, start, stop, -⟩ := grown
  rw [Node.range, start, stop]
  exact (congrArg (Text.slice · _ _) whole).trans (Text.slice_between before n.str behind)

theorem range_nonempty (grown : n.Grown text) (advances : (production n.tag).Advances) :
    n.start < n.stop := by
  obtain ⟨before, behind, -, start, stop, ps, read, -⟩ := grown
  have shorter := advances _ _ _ read
  rw [List.length_append] at shorter
  omega

theorem shownAt_decl (genuine : n.Genuine text) (kind : n.tag = "decl") {d : Decl}
    (made : Decl.ofNode (.ofText text source) n = .ok d) :
    d.ShownAt text ((Origin.ofText text source).position n) := by
  have grown := genuine.grown.here
  obtain ⟨p, u, v, t, whole, rfl, -, -⟩ := decl_of_genuine genuine kind made
  refine ⟨rfl, ?_, ?_, ?_⟩
  · rw [range_position grown]
    exact range_nonempty grown (kind ▸ advances_decl)
  · rw [piece_position source grown, whole, String.toList_ofList, List.append_assoc]
    exact List.prefix_append p _
  · rw [piece_position source grown, whole, String.toList_ofList]
    exact Text.trim_suffix_trimEnd _ v

theorem declsShown_of_genuine (genuine : n.Genuine text) {ds : List Decl}
    (read : declsOfNode (.ofText text source) n = .ok ds) :
    DeclsShown text (((Origin.ofText text source).position n).range text) ds := by
  obtain ⟨ns, nodes, inside, made⟩ := declOrigins_of_genuine genuine read
  refine ⟨ns.map (Origin.ofText text source).position, ?_, ?_⟩
  · rw [List.forall₂_map_right_iff]
    refine List.Forall₂.flip ?_
    exact ((List.forall₂_and_left _ _).2 ⟨nodes, made⟩).imp fun c d ⟨⟨kind, below⟩, same⟩ =>
      shownAt_decl below kind same
  · have ranges : (ns.map (Origin.ofText text source).position).map (Position.range text) =
        ns.map Node.range := by
      rw [List.map_map]
      exact List.map_congr_left fun c hc => range_position (nodes c hc).2.grown.here
    rw [ranges, range_position genuine.grown.here]
    exact inside

theorem closing_of_rule {s t : List Char} {ns : List Node} (read : Reads rule s t ns) :
    ['}'] <:+ s := by
  obtain ⟨_, -, inner⟩ := Reads.of_node read
  obtain ⟨_, b, _, _, rfl, -, -, body⟩ := inner.split keeps_block
  obtain ⟨_, -, inner⟩ := Reads.of_node body
  obtain ⟨u, z, _, _, rfl, -, -, closing⟩ := inner.split (keeps_sign '}')
  obtain ⟨rfl, -⟩ := closing.of_sign
  exact (List.suffix_append u ['}']).trans (List.suffix_append _ _)

theorem matches_of_madeFrom (genuine : n.Genuine text) {e : Entry}
    (made : e.MadeFrom (.ofText text source) n) :
    e.Matches text ((Origin.ofText text source).position n) := by
  have piece := piece_position source genuine.grown.here
  cases made with
  | rule kind made =>
    obtain ⟨-, -, -, -, -, decls⟩ := rule_of_genuine genuine made
    obtain ⟨t, read⟩ := genuine.reads kind
    refine ⟨?_, declsShown_of_genuine genuine decls⟩
    rw [piece]
    exact closing_of_rule read
  | fontFace kind made => exact declsShown_of_genuine genuine (fontFace_of_genuine made)
  | atRule kind made =>
    obtain ⟨name, p, closing, body, whole, rfl, -, bodies⟩ := atRule_of_genuine genuine kind made
    rw [Entry.Matches, piece, whole, String.toList_ofList]
    refine ⟨⟨p ++ closing, by simp⟩, ?_⟩
    rcases bodies with ⟨rfl, rfl⟩ | ⟨rfl, -⟩
    · exact List.suffix_append _ _
    · simp only [String.toList_ofList]
      exact List.suffix_append _ _
  | comment kind =>
    obtain ⟨u, whole, -, same⟩ := comment_of_genuine genuine kind (.ofText text source)
    rw [same, Entry.Matches, piece, whole, String.toList_ofList]
    rfl
  | whitespace s => trivial

theorem position_of_madeFrom {o : Origin} {e : Entry} (made : e.MadeFrom o n)
    (solid : e.isWhitespace = false) :
    e.position = some (o.position n) ∧ (production n.tag).Advances := by
  cases made with
  | rule kind made => exact ⟨position_rule made, kind ▸ advances_rule⟩
  | fontFace kind made => exact ⟨position_fontFace made, kind ▸ advances_fontface⟩
  | atRule kind made =>
    refine ⟨position_atRule made, ?_⟩
    rcases kind with kind | kind
    · exact kind ▸ advances_atblock
    · exact kind ▸ advances_atstatement
  | comment kind => exact ⟨rfl, kind ▸ advances_comment⟩
  | whitespace s => cases solid

theorem shownAt_of_madeFrom (genuine : n.Genuine text) {e : Entry}
    (made : e.MadeFrom (.ofText text source) n) (solid : e.isWhitespace = false) :
    e.ShownAt text ((Origin.ofText text source).position n) := by
  obtain ⟨position, advances⟩ := position_of_madeFrom made solid
  refine ⟨position, ?_, matches_of_madeFrom genuine made⟩
  rw [range_position genuine.grown.here]
  exact range_nonempty genuine.grown.here advances

/-- Entries made from nodes that are in order are in order themselves. -/
theorem shown_of_origins {ns : List Node} {es : List Entry} {a b : Int}
    (inside : InOrder a (ns.map Node.range) b)
    (origins : List.Forall₂ (fun n e => ∃ m, m.Genuine text ∧ n.start ≤ m.start ∧
      m.stop ≤ n.stop ∧ e.MadeFrom (.ofText text source) m) ns es) :
    ∃ ps, List.Forall₂ (Entry.ShownAt text) (es.filter (!·.isWhitespace)) ps ∧
      (∀ p ∈ ps, p.source = source) ∧ InOrder a (ps.map (Position.range text)) b := by
  induction origins generalizing a with
  | nil => exact ⟨[], .nil, List.forall_mem_nil _, inside⟩
  | @cons n e ns es first _ ih =>
    obtain ⟨start, wide, rest⟩ := inside
    have start : a ≤ n.start := start
    obtain ⟨m, genuine, start', stop', made⟩ := first
    obtain ⟨ps, shown, sources, later⟩ := ih rest
    have later : InOrder n.stop (ps.map (Position.range text)) b := later
    cases blank : e.isWhitespace with
    | true =>
      rw [List.filter_cons_of_neg (by simp [blank])]
      exact ⟨ps, shown, sources, later.widen (Int.le_trans start wide) (Int.le_refl b)⟩
    | false =>
      have here := shownAt_of_madeFrom genuine made blank
      rw [List.filter_cons_of_pos (by simp [blank])]
      refine ⟨_ :: ps, .cons here shown, List.forall_mem_cons.2 ⟨rfl, sources⟩, ?_⟩
      have nonempty := here.nonempty
      rw [List.map_cons, range_position genuine.grown.here]
      rw [range_position genuine.grown.here] at nonempty
      exact ⟨Int.le_trans start start', Int.le_of_lt nonempty, later.widen stop' (Int.le_refl b)⟩

end

/-- Turned back into offsets, the positions of all that is listed in a sheet are in order and apart,
and so are those of the declarations inside a rule or a font face. At each stands what it says. -/
theorem positions_of_parse {source : Option String} {text : String} {d : Sheet}
    (parsed : Sheet.parse source text = .ok d) :
    ∃ ps, List.Forall₂ (Entry.ShownAt text.toList) d.rules ps ∧ (∀ p ∈ ps, p.source = source) ∧
      InOrder 0 (ps.map (Position.range text.toList)) text.toList.length := by
  have tiles := tiles_nodes text.toList
  rw [(parse_eq_ok.1 parsed).1] at tiles
  exact shown_of_origins tiles.inOrder (origins_of_parse parsed)

def linedText : String := "/* k */\n@page \x7b \x7d\np,\n q\x7b r : s ;\n t:u\x7d"

def linedSheet : Sheet where
  entries := [.comment ⟨" k ", some ⟨⟨1, 1⟩, ⟨1, 8⟩, none⟩⟩, .whitespace "\n",
    .atRule ⟨"page", "", some "\x7b \x7d", some ⟨⟨2, 1⟩, ⟨2, 10⟩, none⟩⟩, .whitespace "\n",
    .rule ⟨["p", "q"], [⟨"r", "s", some ⟨⟨4, 5⟩, ⟨4, 11⟩, none⟩⟩,
      ⟨"t", "u", some ⟨⟨5, 2⟩, ⟨5, 5⟩, none⟩⟩], some ⟨⟨3, 1⟩, ⟨5, 6⟩, none⟩⟩]
  source := none

theorem parse_linedText : Sheet.parse none linedText = .ok linedSheet := by
  cbv

theorem positions_of_parse_linedText : Sheet.parse none linedText = .ok linedSheet ∧
    ∃ ps, List.Forall₂ (Entry.ShownAt linedText.toList) linedSheet.rules ps ∧
      (∀ p ∈ ps, p.source = none) ∧
      InOrder 0 (ps.map (Position.range linedText.toList)) linedText.toList.length :=
  ⟨parse_linedText, positions_of_parse parse_linedText⟩

end StyleFactor
