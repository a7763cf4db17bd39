import StyleFactor.Proofs.Outcomes
import StyleFactor.Proofs.Sheet.Reformatting
import StyleFactor.Proofs.Sheet.Walk
import StyleFactor.Proofs.Tree.Growth

/-!
Which groups of a text its entries are made from, and what stands there. Main statement: each entry
of a sheet is made from a node inside the one that stands for it at the top of the tree
(`origins_of_parse`), and each of its declarations from a node inside that
(`declOrigins_of_genuine`).
-/
namespace StyleFactor

open Grammar Grammar.Reader

theorem exists_of_forall₂ {α β : Type} {r : α → β → Prop} {xs : List α} {ys : List β}
    (h : List.Forall₂ r xs ys) {y : β} (hy : y ∈ ys) : ∃ x ∈ xs, r x y := by
  induction h with
  | nil => cases hy
  | cons first _ ih =>
    rcases List.mem_cons.1 hy with rfl | hy
    · exact ⟨_, List.mem_cons_self, first⟩
    · obtain ⟨x, hx, related⟩ := ih hy
      exact ⟨x, List.mem_cons_of_mem _ hx, related⟩

/-- A node from the tree of a text, with all that is so of it and of every node below it. -/
structure Node.Genuine (text : List Char) (n : Node) : Prop where
  derived : n.Derived
  grown : n.Throughout (Node.Grown text)
  nested : n.Throughout Node.Nested

/-- What an entry is made from. White space may come from anywhere. -/
inductive Entry.MadeFrom (o : Origin) (m : Node) : Entry → Prop
  | rule {r : Rule} : m.tag = "rule" → Rule.ofNode o m = .ok r → MadeFrom o m (.rule r)
  | fontFace {f : FontFace} : m.tag = "fontface" → FontFace.ofNode o m = .ok f →
      MadeFrom o m (.fontFace f)
  | atRule {a : AtRule} : m.tag = "atblock" ∨ m.tag = "atstatement" → AtRule.ofNode o m = .ok a →
      MadeFrom o m (.atRule a)
  | comment : m.tag = "comment" → MadeFrom o m (.comment (Comment.ofNode o m))
  | whitespace (s : String) : MadeFrom o m (.whitespace s)

namespace Node

theorem mem_of_first {n c : Node} (first : n.first = .ok c) : c ∈ n.children := by
  rw [Node.first] at first
  split at first
  · next cs same =>
    cases first
    rw [same]
    exact List.mem_cons_self
  · cases first

theorem mem_of_need {n c : Node} {tag : String} (needed : n.need tag = .ok c) :
    c ∈ n.children ∧ c.tag = tag := by
  rw [Node.need] at needed
  split at needed
  · next found =>
    cases needed
    exact ⟨List.mem_of_find?_eq_some found, by simpa using List.find?_some found⟩
  · cases needed

namespace Genuine

variable {text : List Char} {n c : Node}

theorem child (h : n.Genuine text) (hc : c ∈ n.children) : c.Genuine text :=
  ⟨h.derived.child hc, h.grown.child hc, h.nested.child hc⟩

theorem within (h : n.Genuine text) (hc : c ∈ n.children) :
    n.start ≤ c.start ∧ c.stop ≤ n.stop := by
  obtain ⟨start, -, stop⟩ := h.nested.here.mem (List.mem_map_of_mem hc)
  exact ⟨start, stop⟩

/-- What the production of its tag reads as the text of the node. -/
theorem reads (h : n.Genuine text) {tag : String} (kind : n.tag = tag) :
    ∃ behind, Reads (production tag) n.str behind [n.unplaced] := by
  obtain ⟨before, behind, -, -, -, read⟩ := h.grown.here
  exact ⟨behind, kind ▸ read⟩

end Genuine

end Node

theorem genuine_nodes (text : List Char) :
    ∀ n ∈ Sheet.nodes text, n.Genuine text := fun n hn =>
  ⟨(derived_spans text n hn).2, grown_nodes text n hn, nested_spansOf text 0 (css text).1 n hn⟩

variable {o : Origin} {text : List Char} {n m : Node} {e : Entry}

theorem madeFrom_of_ofInner (genuine : n.Genuine text)
    (read : Entry.ofInner o n = .ok e) :
    ∃ m, m.Genuine text ∧ n.start ≤ m.start ∧ m.stop ≤ n.stop ∧ e.MadeFrom o m := by
  simp only [Entry.ofInner, beq_iff_eq, Bool.or_eq_true] at read
  split at read
  · next tag =>
    obtain ⟨r, made, same⟩ := bind_eq_ok.1 read
    cases same
    exact ⟨n, genuine, Int.le_refl _, Int.le_refl _, .rule tag made⟩
  · split at read
    · next tag =>
      obtain ⟨f, made, same⟩ := bind_eq_ok.1 read
      cases same
      exact ⟨n, genuine, Int.le_refl _, Int.le_refl _, .fontFace tag made⟩
    · split at read
      · next tag =>
        obtain ⟨a, made, same⟩ := bind_eq_ok.1 read
        cases same
        exact ⟨n, genuine, Int.le_refl _, Int.le_refl _, .atRule tag made⟩
      · obtain ⟨g, first, read⟩ := bind_eq_ok.1 read
        have member := Node.mem_of_first first
        obtain ⟨start, stop⟩ := genuine.within member
        refine ⟨g, genuine.child member, start, stop, ?_⟩
        split at read
        · next tag =>
          cases read
          exact .comment tag
        · cases read
          exact .whitespace _

theorem madeFrom_of_first (genuine : n.Genuine text)
    (read : (n.first >>= Entry.ofNode o) = .ok e) :
    ∃ m, m.Genuine text ∧ n.start ≤ m.start ∧ m.stop ≤ n.stop ∧ e.MadeFrom o m := by
  obtain ⟨c, first, read⟩ := bind_eq_ok.1 read
  have hc := Node.mem_of_first first
  have below := genuine.child hc
  obtain ⟨start, stop⟩ := genuine.within hc
  rw [ofNode_eq_ofInner] at read
  obtain ⟨i, found, read⟩ := bind_eq_ok.1 read
  obtain ⟨inner, start', stop'⟩ : i.Genuine text ∧ c.start ≤ i.start ∧ i.stop ≤ c.stop := by
    split at found
    · have member := Node.mem_of_first found
      exact ⟨below.child member, below.within member⟩
    · cases found
      exact ⟨below, Int.le_refl _, Int.le_refl _⟩
  obtain ⟨m, origin, start'', stop'', made⟩ := madeFrom_of_ofInner inner read
  exact ⟨m, origin, Int.le_trans start (Int.le_trans start' start''),
    Int.le_trans stop'' (Int.le_trans stop' stop), made⟩

theorem origins_of_parse {source : Option String} {text : String} {d : Sheet}
    (parsed : Sheet.parse source text = .ok d) :
    List.Forall₂ (fun n e => ∃ m, m.Genuine text.toList ∧ n.start ≤ m.start ∧ m.stop ≤ n.stop ∧
      e.MadeFrom (.ofText text.toList source) m) (Sheet.nodes text.toList) d.entries := by
  obtain ⟨-, found, -⟩ := parse_eq_ok.1 parsed
  have each := mapM_eq_ok_iff.1 found
  have both := (List.forall₂_and_left _ _).2 ⟨genuine_nodes text.toList, each⟩
  exact both.imp fun n e ⟨genuine, read⟩ => madeFrom_of_first genuine read

/-- The nodes that declarations are made from, inside a node and in order. -/
theorem declOrigins_of_genuine (genuine : n.Genuine text) {ds : List Decl}
    (read : declsOfNode o n = .ok ds) :
    ∃ ns, (∀ c ∈ ns, c.tag = "decl" ∧ c.Genuine text) ∧
      InOrder n.start (ns.map Node.range) n.stop ∧
      List.Forall₂ (fun c d => Decl.ofNode o c = .ok d) ns ds := by
  obtain ⟨b, needed, read⟩ := bind_eq_ok.1 read
  obtain ⟨member, -⟩ := Node.mem_of_need needed
  have block := genuine.child member
  obtain ⟨start, stop⟩ := genuine.within member
  split at read
  · next l found =>
    have listed := List.mem_of_find?_eq_some found
    have list := block.child listed
    obtain ⟨start', stop'⟩ := block.within listed
    refine ⟨l.findAll "decl", fun c hc => ?_, ?_, mapM_eq_ok_iff.1 read⟩
    · obtain ⟨below, tag⟩ := List.mem_filter.1 hc
      exact ⟨beq_iff_eq.1 tag, list.child below⟩
    · have sub : (l.findAll "decl").Sublist l.children := List.filter_sublist
      have all := list.nested.here.sublist (sub.map Node.range)
      exact all.widen (Int.le_trans start start') (Int.le_trans stop' stop)
  · cases read
    refine ⟨[], List.forall_mem_nil _, ?_, .nil⟩
    exact genuine.nested.here.le

/-! What stands where an entry was made from. -/

theorem position_decl {d : Decl} (read : Decl.ofNode o n = .ok d) :
    d.position = some (o.position n) := by
  rw [Decl.ofNode] at read
  split at read
  · cases read
    rfl
  · cases read

theorem Decl.eq_of_unplaced {d : Decl} {property value : String} {p : Position}
    (same : d.unplaced = ⟨property, value, none⟩) (place : d.position = some p) :
    d = ⟨property, value, some p⟩ := by
  cases d
  simp_all [Decl.unplaced]

theorem AtRule.eq_of_unplaced {a : AtRule} {name prelude : String} {body : Option String}
    {p : Position} (same : a.unplaced = ⟨name, prelude, body, none⟩)
    (place : a.position = some p) : a = ⟨name, prelude, body, some p⟩ := by
  cases a
  simp_all [AtRule.unplaced]

theorem decl_of_genuine (genuine : n.Genuine text) (kind : n.tag = "decl") {d : Decl}
    (made : Decl.ofNode o n = .ok d) :
    ∃ p u v t, n.str = p ++ u ++ v ∧ d = ⟨.ofList p, .ofList (Text.trim v), some (o.position n)⟩ ∧
      Entire propertyText p ∧ valueText (v ++ t) = some (v, t) := by
  obtain ⟨t, read⟩ := genuine.reads kind
  obtain ⟨p, u, w, v, ms, whole, same, pair, name, value, -⟩ := Reads.of_decl read
  have bareNode := declOfNode_unplaced o o n
  rw [List.singleton_inj.1 same, made, Decl.ofNode, children_mk, pair] at bareNode
  have fields : (⟨.ofList p, .ofList (Text.trim v), none⟩ : Decl) = d.unplaced :=
    Except.ok.inj bareNode
  exact ⟨p, u ++ [':'] ++ w, v, t, by simp [whole],
    Decl.eq_of_unplaced fields.symm (position_decl made), name, value⟩

/-- An at-rule ends with its body, or with the sign that stands in its place. -/
theorem atRule_of_genuine (genuine : n.Genuine text)
    (kind : n.tag = "atblock" ∨ n.tag = "atstatement") {a : AtRule}
    (made : AtRule.ofNode o n = .ok a) :
    ∃ name p closing body, n.str = '@' :: (name ++ p) ++ closing ∧
      a = ⟨.ofList name, .ofList (Text.collapse p), body, some (o.position n)⟩ ∧
      Entire preludeText (Text.collapse p) ∧
      (body = none ∧ closing = [';'] ∨ body = some (.ofList closing) ∧ Entire atbody closing) := by
  have bareNode := atRuleOfNode_unplaced o o n
  have place := position_atRule made
  rcases kind with kind | kind
  · obtain ⟨t, read⟩ := genuine.reads kind
    obtain ⟨name, p, b, ms, whole, same, -, collapsed, body⟩ := Reads.of_atblock read
    rw [List.singleton_inj.1 same, made] at bareNode
    have fields : (⟨.ofList name, .ofList (Text.collapse p), some (.ofList b), none⟩ : AtRule) =
        a.unplaced := Except.ok.inj bareNode
    exact ⟨name, p, b, some (.ofList b), whole, AtRule.eq_of_unplaced fields.symm place, collapsed,
      .inr ⟨rfl, body⟩⟩
  · obtain ⟨t, read⟩ := genuine.reads kind
    obtain ⟨name, p, whole, same, -, collapsed⟩ := Reads.of_atstatement read
    rw [List.singleton_inj.1 same, made] at bareNode
    have fields : (⟨.ofList name, .ofList (Text.collapse p), none, none⟩ : AtRule) = a.unplaced :=
      Except.ok.inj bareNode
    exact ⟨name, p, [';'], none, whole, AtRule.eq_of_unplaced fields.symm place, collapsed,
      .inl ⟨rfl, rfl⟩⟩

theorem comment_of_genuine (genuine : n.Genuine text) (kind : n.tag = "comment") (o : Origin) :
    ∃ u, n.str = commentChars u ∧ ¬['*', '/'] <:+: u ∧
      Comment.ofNode o n = ⟨.ofList u, some (o.position n)⟩ := by
  obtain ⟨t, read⟩ := genuine.reads kind
  obtain ⟨u, whole, closed, -⟩ := Reads.of_comment read
  exact ⟨u, whole, closed, by rw [Comment.ofNode, whole, slice_commentChars]⟩

theorem rule_of_genuine (genuine : n.Genuine text) {r : Rule}
    (made : Rule.ofNode o n = .ok r) :
    ∃ l ∈ n.children, l.tag = "sels" ∧
      (∀ c ∈ withoutGaps l.children, c.tag = "sel" ∧ c.Genuine text) ∧
      r.selectors = (withoutGaps l.children).map collapsed ∧
      declsOfNode o n = .ok r.declarations := by
  obtain ⟨list, needed, rest⟩ := bind_eq_ok.1 made
  obtain ⟨ds, decls, same⟩ := bind_eq_ok.1 rest
  cases same
  obtain ⟨member, kind⟩ := Node.mem_of_need needed
  have sels := genuine.child member
  obtain ⟨-, tags⟩ : bare (list.children.map Node.tag) ≠ [] ∧
      ∀ t ∈ bare (list.children.map Node.tag), t = "sel" := sels.derived.inner kind
  rw [← map_tag_withoutGaps] at tags
  refine ⟨list, member, kind, fun c hc => ⟨tags _ (List.mem_map_of_mem hc), ?_⟩, rfl, decls⟩
  exact sels.child (List.mem_filter.1 hc).1

theorem prelude_of_genuine (genuine : n.Genuine text)
    (kind : n.tag = "atblock" ∨ n.tag = "atstatement") {a : AtRule}
    (made : AtRule.ofNode o n = .ok a) :
    ∃ p ∈ n.children, p.tag = "atprelude" ∧ a.prelude = collapsed p := by
  have listed : "atprelude" ∈ n.children.map Node.tag := by
    rcases kind with kind | kind
    · have tags : n.children.map Node.tag = ["atname", "atprelude", "atbody"] :=
        genuine.derived.inner kind
      simp [tags]
    · have tags : n.children.map Node.tag = ["atname", "atprelude"] := genuine.derived.inner kind
      simp [tags]
  obtain ⟨p, member, found, tag⟩ := Node.find_of_mem listed
  obtain ⟨name, -, same⟩ := bind_eq_ok.1 made
  cases same
  exact ⟨p, member, tag, by rw [found]; rfl⟩

theorem fontFace_of_genuine {f : FontFace} (made : FontFace.ofNode o n = .ok f) :
    declsOfNode o n = .ok f.declarations := by
  obtain ⟨ds, decls, same⟩ := bind_eq_ok.1 made
  cases same
  exact decls

end StyleFactor
