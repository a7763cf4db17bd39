import StyleFactor.Proofs.Sheet.Unplaced
import StyleFactor.Proofs.Tree.Derivation

/-!
Walking the tree of a text. The walk asks for children that every derived node has, so it finds an
entry at the top of each tree that the grammar leaves. Main statement: a text is a sheet exactly if
the grammar reads it to the end, and else is refused with the place where it stopped (`parse_total`).
-/
namespace StyleFactor

namespace Node

variable {n : Node} {tag : String} {tags : List String}

theorem Derived.inner (h : n.Derived) (kind : n.tag = tag) : Inner tag (n.children.map Node.tag) := by
  subst kind
  cases h with
  | mk inner _ => exact inner

theorem Derived.child (h : n.Derived) {c : Node} (hc : c ∈ n.children) : c.Derived := by
  cases h with
  | mk _ below => exact below c hc

theorem find_of_mem (h : tag ∈ n.children.map Node.tag) :
    ∃ c ∈ n.children, n.find tag = some c ∧ c.tag = tag := by
  obtain ⟨d, hd, same⟩ := List.mem_map.1 h
  have found : (n.find tag).isSome := List.find?_isSome.2 ⟨d, hd, by simp [same]⟩
  obtain ⟨c, hc⟩ := Option.isSome_iff_exists.1 found
  exact ⟨c, List.mem_of_find?_eq_some hc, hc, by simpa using List.find?_some hc⟩

theorem need_of_mem (h : tag ∈ n.children.map Node.tag) :
    ∃ c ∈ n.children, n.need tag = .ok c ∧ c.tag = tag := by
  obtain ⟨c, hc, found, same⟩ := find_of_mem h
  exact ⟨c, hc, by rw [need, found], same⟩

theorem first_of_tags {t : String} (h : n.children.map Node.tag = [t]) :
    ∃ c ∈ n.children, n.first = .ok c ∧ c.tag = t := by
  obtain ⟨c, cs, same, rfl, -⟩ := List.map_eq_cons_iff.1 h
  exact ⟨c, by simp [same], by rw [first, same], rfl⟩

end Node

theorem mem_of_mem_bare {t : String} {tags : List String} (h : t ∈ bare tags) : t ∈ tags :=
  (List.mem_filter.1 h).1

theorem map_tag_withoutGaps (ns : List Node) :
    (withoutGaps ns).map Node.tag = bare (ns.map Node.tag) := by
  rw [withoutGaps, bare, List.filter_map]
  rfl

variable (o : Origin) {n : Node}

theorem decl_of_derived (derived : n.Derived) (kind : n.tag = "decl") :
    ∃ d, Decl.ofNode o n = .ok d := by
  have pair : bare (n.children.map Node.tag) = ["property", "value"] := derived.inner kind
  rw [← map_tag_withoutGaps] at pair
  obtain ⟨p, rest, whole, -, second⟩ := List.map_eq_cons_iff.1 pair
  obtain ⟨v, none, rfl, -, last⟩ := List.map_eq_cons_iff.1 second
  obtain rfl := List.map_eq_nil_iff.1 last
  exact ⟨_, by rw [Decl.ofNode, whole]⟩

theorem decls_of_derived (derived : n.Derived) (braces : "block" ∈ n.children.map Node.tag) :
    ∃ ds, declsOfNode o n = .ok ds := by
  obtain ⟨b, hb, needed, kind⟩ := Node.need_of_mem braces
  have block := derived.child hb
  have list : bare (b.children.map Node.tag) = ["decls"] := block.inner kind
  obtain ⟨l, hl, found, -⟩ := Node.find_of_mem (mem_of_mem_bare (list ▸ List.mem_singleton_self _))
  have decls := block.child hl
  have each : ∀ d ∈ l.findAll "decl", ∃ e, Decl.ofNode o d = .ok e := by
    intro d hd
    obtain ⟨member, tag⟩ := List.mem_filter.1 hd
    exact decl_of_derived o (decls.child member) (beq_iff_eq.1 tag)
  obtain ⟨ds, all⟩ := exists_mapM_ok each
  refine ⟨ds, ?_⟩
  rw [declsOfNode, needed]
  simp only [bind, Except.bind, found, all]

theorem rule_of_derived (derived : n.Derived) (kind : n.tag = "rule") :
    ∃ r, Rule.ofNode o n = .ok r := by
  have parts : n.children.map Node.tag = ["sels", "block"] := derived.inner kind
  have selectors : "sels" ∈ n.children.map Node.tag := by simp [parts]
  obtain ⟨s, -, needed, -⟩ := Node.need_of_mem selectors
  obtain ⟨ds, decls⟩ := decls_of_derived o derived (by simp [parts])
  exact ⟨_, by rw [Rule.ofNode, needed, decls]; rfl⟩

theorem fontFace_of_derived (derived : n.Derived) (kind : n.tag = "fontface") :
    ∃ f, FontFace.ofNode o n = .ok f := by
  have parts : bare (n.children.map Node.tag) = ["block"] := derived.inner kind
  obtain ⟨ds, decls⟩ := decls_of_derived o derived
    (mem_of_mem_bare (parts ▸ List.mem_singleton_self _))
  exact ⟨_, by rw [FontFace.ofNode, decls]; rfl⟩

theorem atRule_of_derived (named : "atname" ∈ n.children.map Node.tag) :
    ∃ a, AtRule.ofNode o n = .ok a := by
  obtain ⟨name, -, needed, -⟩ := Node.need_of_mem named
  exact ⟨_, by rw [AtRule.ofNode, needed]; rfl⟩

theorem gap_of_derived (derived : n.Derived) (kind : n.tag = "s") :
    ∃ c ∈ n.children, n.first = .ok c ∧ (c.tag = "space" ∨ c.tag = "comment") := by
  obtain ⟨t, listed, parts⟩ : ∃ t ∈ ["space", "comment"], n.children.map Node.tag = [t] :=
    derived.inner kind
  obtain ⟨c, hc, first, rfl⟩ := Node.first_of_tags parts
  exact ⟨c, hc, first, by simpa using listed⟩

/-- The tags of the nodes that entries are made from. -/
def entryTags : List String := ["s", "rule", "fontface", "atblock", "atstatement"]

theorem ofInner_of_derived (derived : n.Derived) (kind : n.tag ∈ entryTags) :
    ∃ e, Entry.ofInner o n = .ok e := by
  simp only [entryTags, List.mem_cons, List.not_mem_nil, or_false] at kind
  rcases kind with kind | kind | kind | kind | kind
  · obtain ⟨c, -, first, space | comment⟩ := gap_of_derived derived kind
    · exact ⟨_, by simp [Entry.ofInner, kind, first, space, bind, Except.bind]; rfl⟩
    · exact ⟨_, by simp [Entry.ofInner, kind, first, comment, bind, Except.bind]; rfl⟩
  · obtain ⟨r, read⟩ := rule_of_derived o derived kind
    exact ⟨.rule r, by simp [Entry.ofInner, kind, read, bind, Except.bind]; rfl⟩
  · obtain ⟨f, read⟩ := fontFace_of_derived o derived kind
    exact ⟨.fontFace f, by simp [Entry.ofInner, kind, read, bind, Except.bind]; rfl⟩
  · have parts : n.children.map Node.tag = ["atname", "atprelude", "atbody"] := derived.inner kind
    obtain ⟨a, read⟩ := atRule_of_derived o (n := n) (by simp [parts])
    exact ⟨.atRule a, by simp [Entry.ofInner, kind, read, bind, Except.bind]; rfl⟩
  · have parts : n.children.map Node.tag = ["atname", "atprelude"] := derived.inner kind
    obtain ⟨a, read⟩ := atRule_of_derived o (n := n) (by simp [parts])
    exact ⟨.atRule a, by simp [Entry.ofInner, kind, read, bind, Except.bind]; rfl⟩

/-- Below the group of an at-rule, or else at once, stands what an entry is made from. -/
theorem start_of_derived (derived : n.Derived) (kind : n.tag ∈ ["s", "atrule", "rule"]) :
    ∃ m, (if n.tag == "atrule" then n.first else .ok n) = .ok m ∧ m.Derived ∧
      m.tag ∈ entryTags := by
  by_cases ruled : n.tag = "atrule"
  · obtain ⟨t, listed, parts⟩ : ∃ t ∈ ["fontface", "atblock", "atstatement"],
        n.children.map Node.tag = [t] := derived.inner ruled
    obtain ⟨m, hm, found, rfl⟩ := Node.first_of_tags parts
    have sub : ["fontface", "atblock", "atstatement"] ⊆ entryTags := by decide
    exact ⟨m, by simp [ruled, found], derived.child hm, sub listed⟩
  · refine ⟨n, by simp [ruled], derived, ?_⟩
    simp only [List.mem_cons, ruled, false_or] at kind
    rcases kind with kind | kind | kind
    · simp [entryTags, kind]
    · simp [entryTags, kind]
    · cases kind

theorem entry_of_derived (derived : n.Derived) (kind : n.tag = "toplevel") :
    ∃ e, (n.first >>= Entry.ofNode o) = .ok e := by
  obtain ⟨t, listed, parts⟩ : ∃ t ∈ ["s", "atrule", "rule"], n.children.map Node.tag = [t] :=
    derived.inner kind
  obtain ⟨c, hc, first, rfl⟩ := Node.first_of_tags parts
  obtain ⟨m, found, below, tag⟩ := start_of_derived (derived.child hc) listed
  obtain ⟨e, read⟩ := ofInner_of_derived o below tag
  refine ⟨e, bind_eq_ok.2 ⟨c, first, ?_⟩⟩
  rw [ofNode_eq_ofInner]
  exact bind_eq_ok.2 ⟨m, found, read⟩

theorem entries_of_derived {ns : List Node} (h : ∀ n ∈ ns, n.tag = "toplevel" ∧ n.Derived) :
    ∃ es, Sheet.ofNodes o ns = .ok es :=
  exists_mapM_ok fun n hn => entry_of_derived o (h n hn).2 (h n hn).1

/-- A text is read as a sheet exactly if the grammar leaves nothing of it, and is else refused as
unread from where the grammar stops. Either way each group in its tree holds what the walk over the
tree asks for, so that none of its steps fails. -/
theorem parse_total (source : Option String) (text : String) :
    (∀ n ∈ Sheet.nodes text.toList, n.tag = "toplevel" ∧ n.Derived) ∧
      (∀ o, ∃ es, Sheet.ofNodes o (Sheet.nodes text.toList) = .ok es) ∧
      ∃ es, Sheet.ofNodes (.ofText text.toList source) (Sheet.nodes text.toList) = .ok es ∧
        Sheet.parse source text =
          let left := (Grammar.css text.toList).2
          if left = [] then .ok ⟨es, source⟩
          else .error (.unread ⟨text.toList, text.toList.length - left.length, source⟩) := by
  have derived : ∀ n ∈ Sheet.nodes text.toList, n.tag = "toplevel" ∧ n.Derived :=
    derived_spans text.toList
  have walk : ∀ o, ∃ es, Sheet.ofNodes o (Sheet.nodes text.toList) = .ok es :=
    fun o => entries_of_derived o derived
  obtain ⟨es, found⟩ := walk (.ofText text.toList source)
  refine ⟨derived, walk, es, found, ?_⟩
  rw [Sheet.nodes] at found
  by_cases all : (Grammar.css text.toList).2 = []
  · simp only [Sheet.parse]
    rw [if_pos all, if_pos ((spans_eq_length _).2 all), found]
  · simp only [Sheet.parse]
    rw [if_neg all, if_neg fun full => all ((spans_eq_length _).1 full)]
    rfl

end StyleFactor
