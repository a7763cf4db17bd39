import StyleFactor.Proofs.Tree.Reads
import StyleFactor.Sheet.Parse

/-!
Which groups stand inside which. What the grammar leaves of a text is a tree with the groups of one
production inside each group, however little was read and wherever reading stopped. Main statement:
every group in the tree of a text holds what its production puts there (`derived_spans`).
-/
namespace StyleFactor

open Grammar Grammar.Reader

/-- Tags without those of what may stand between any two tokens. -/
def bare (tags : List String) : List String := tags.filter fun t => t != "s" && t != "comment"

/-- The tags of the groups that a production leaves directly inside its own. -/
def Inner (tag : String) (tags : List String) : Prop :=
  match tag with
  | "toplevel" => ∃ t ∈ ["s", "atrule", "rule"], tags = [t]
  | "s" => ∃ t ∈ ["space", "comment"], tags = [t]
  | "comment" => tags = ["commtext"]
  | "atrule" => ∃ t ∈ ["fontface", "atblock", "atstatement"], tags = [t]
  | "fontface" => bare tags = ["block"]
  | "atblock" => tags = ["atname", "atprelude", "atbody"]
  | "atstatement" => tags = ["atname", "atprelude"]
  | "atbody" => ∀ t ∈ tags, t = "atbody"
  | "rule" => tags = ["sels", "block"]
  | "sels" => bare tags ≠ [] ∧ ∀ t ∈ bare tags, t = "sel"
  | "block" => bare tags = ["decls"]
  | "decls" => ∀ t ∈ bare tags, t = "decl"
  | "decl" => bare tags = ["property", "value"]
  | _ => tags = []

/-- In this node and in every one below it stands what a production puts there. -/
inductive Node.Derived : Node → Prop
  | mk {tag : String} {start stop : Int} {str : List Char} {children : List Node} :
    Inner tag (children.map Node.tag) → (∀ c ∈ children, c.Derived) →
    Derived (.mk tag start stop str children)

mutual

theorem derived_of_unplaced : (n : Node) → n.unplaced.Derived → n.Derived
  | .mk tag start stop str cs, .mk inner below => by
    rw [unplacedAll_eq_map, List.map_map] at inner
    refine .mk ?_ (derived_of_unplacedAll cs below)
    have same : Node.tag ∘ Node.unplaced = Node.tag := funext tag_unplaced
    rwa [same] at inner

theorem derived_of_unplacedAll :
    (cs : List Node) → (∀ c ∈ Node.unplacedAll cs, c.Derived) → ∀ c ∈ cs, c.Derived
  | [], _ => List.forall_mem_nil _
  | c :: cs, h => by
    obtain ⟨first, rest⟩ := List.forall_mem_cons.1 h
    exact List.forall_mem_cons.2 ⟨derived_of_unplaced c first, derived_of_unplacedAll cs rest⟩

end

theorem bare_append (us vs : List String) : bare (us ++ vs) = bare us ++ bare vs :=
  List.filter_append us vs

namespace Grammar

def tagsOf (ps : List Fragment) : List String := (sketches ps).map Node.tag

theorem tagsOf_append (ps qs : List Fragment) : tagsOf (ps ++ qs) = tagsOf ps ++ tagsOf qs := by
  rw [tagsOf, sketches_append, List.map_append]
  rfl

/-- Whatever the reader takes, the tags it leaves are of this kind, and each of its groups is
derived. -/
def Reader.Leaves (a : Reader Fragment) (kind : List String → Prop) : Prop :=
  ∀ s ps r, a s = some (ps, r) → kind (tagsOf ps) ∧ ∀ n ∈ sketches ps, n.Derived

/-- White space and comments apart, the reader leaves just these tags. -/
abbrev Reader.LeavesBare (a : Reader Fragment) (tags : List String) : Prop :=
  a.Leaves fun ts => bare ts = tags

section

variable {a b : Reader Fragment} {kind kind' : List String → Prop}

theorem Reader.Leaves.mono (h : a.Leaves kind) (sub : ∀ ts, kind ts → kind' ts) :
    a.Leaves kind' := by
  intro s ps r read
  obtain ⟨tags, below⟩ := h s ps r read
  exact ⟨sub _ tags, below⟩

theorem leaves_plain (a : Reader Char) : (plain a).Leaves (· = []) := by
  intro s ps r read
  obtain ⟨cs, -, rfl⟩ := map_eq_some.1 read
  exact ⟨rfl, List.forall_mem_nil _⟩

theorem Reader.Leaves.node {tag : String} (h : a.Leaves (Inner tag)) :
    (node tag a).Leaves (· = [tag]) := by
  intro s ps r read
  obtain ⟨qs, inner, rfl⟩ := map_eq_some.1 read
  obtain ⟨tags, below⟩ := h s qs r inner
  refine ⟨rfl, fun n hn => ?_⟩
  obtain rfl : n = .mk tag 0 0 (charsOf qs) (sketches qs) := by
    simpa [sketches, Fragment.sketch] using hn
  exact .mk tags below

theorem leaves_leaf {tag : String} (a : Reader Char) (inner : Inner tag []) :
    (leaf tag a).Leaves (· = [tag]) :=
  ((leaves_plain a).mono fun _ none => none ▸ inner).node

theorem Reader.Leaves.append {whole : List String → Prop} (ha : a.Leaves kind)
    (hb : b.Leaves kind') (join : ∀ us vs, kind us → kind' vs → whole (us ++ vs)) :
    (a ++ b).Leaves whole := by
  intro s ps r read
  obtain ⟨qs, m, rs, first, second, rfl⟩ := append_eq_some.1 read
  obtain ⟨us, below⟩ := ha _ _ _ first
  obtain ⟨vs, below'⟩ := hb _ _ _ second
  rw [tagsOf_append, sketches_append]
  exact ⟨join _ _ us vs, List.forall_mem_append.2 ⟨below, below'⟩⟩

theorem Reader.LeavesBare.append {us vs : List String} (ha : a.LeavesBare us)
    (hb : b.LeavesBare vs) : (a ++ b).LeavesBare (us ++ vs) :=
  Reader.Leaves.append ha hb fun ts ts' first second => by rw [bare_append, first, second]

theorem Reader.Leaves.orElse (ha : a.Leaves kind) (hb : b.Leaves kind) :
    (a <|> b).Leaves kind := by
  intro s ps r read
  rcases orElse_eq_some.1 read with read | ⟨-, read⟩
  · exact ha s ps r read
  · exact hb s ps r read

theorem Reader.Leaves.opt (ha : a.Leaves kind) (nil : kind []) : a.opt.Leaves kind := by
  refine ha.orElse fun s ps r read => ?_
  cases read
  exact ⟨nil, List.forall_mem_nil _⟩

theorem Reader.Leaves.many (ha : a.Leaves kind) (nil : kind [])
    (join : ∀ us vs, kind us → kind vs → kind (us ++ vs)) (s : List Char) :
    kind (tagsOf (a.many s).1) ∧ ∀ n ∈ sketches (a.many s).1, n.Derived := by
  fun_induction Reader.many a s with
  | case1 s stop => exact ⟨nil, List.forall_mem_nil _⟩
  | case2 s ps m first shorter qs r rest ih =>
    rw [rest] at ih
    obtain ⟨us, below⟩ := ha _ _ _ first
    rw [tagsOf_append, sketches_append]
    exact ⟨join _ _ us ih.1, List.forall_mem_append.2 ⟨below, ih.2⟩⟩
  | case3 s ps m first stuck => exact ⟨nil, List.forall_mem_nil _⟩

theorem Reader.Leaves.star (ha : a.Leaves kind) (nil : kind [])
    (join : ∀ us vs, kind us → kind vs → kind (us ++ vs)) : a.star.Leaves kind := by
  intro s ps r read
  have all := ha.many nil join s
  rwa [Option.some.inj read] at all

end

/-! The productions, from the inside out. -/

/-- All tags but those of gaps are this one. -/
def Only (tag : String) (tags : List String) : Prop := ∀ t ∈ bare tags, t = tag

theorem Only.append {tag : String} {us vs : List String} (hu : Only tag us) (hv : Only tag vs) :
    Only tag (us ++ vs) := by
  rw [Only, bare_append]
  exact List.forall_mem_append.2 ⟨hu, hv⟩

theorem only_nil (tag : String) : Only tag [] := List.forall_mem_nil _

theorem only_of_bare {tag : String} {tags : List String} (none : bare tags = []) :
    Only tag tags := by
  rw [Only, none]
  exact List.forall_mem_nil _

theorem leavesBare_plain (a : Reader Char) : (plain a).LeavesBare [] :=
  (leaves_plain a).mono fun ts none => by rw [none]; rfl

theorem leavesBare_leaf {tag : String} (a : Reader Char) (inner : Inner tag [])
    (solid : bare [tag] = [tag]) : (leaf tag a).LeavesBare [tag] :=
  (leaves_leaf a inner).mono fun ts same => by rw [same, solid]

theorem leaves_comment : comment.Leaves (· = ["comment"]) := by
  have text : (leaf "commtext" commentText).Leaves (· = ["commtext"]) := leaves_leaf _ rfl
  have opened : (plain (word ['/', '*']) ++ leaf "commtext" commentText).Leaves
      (· = ["commtext"]) :=
    (leaves_plain _).append text fun us vs none same => by rw [none, same]; rfl
  exact Reader.Leaves.node (opened.append (leaves_plain _) fun us vs same none => by
    rw [same, none]; rfl)

theorem leaves_gap : gap.Leaves (· = ["s"]) := by
  have blank : (leaf "space" spaceText).Leaves (· = ["space"]) := leaves_leaf _ rfl
  have space : (leaf "space" spaceText).Leaves (Inner "s") :=
    blank.mono fun ts same => ⟨"space", by decide, same⟩
  have comments : comment.Leaves (Inner "s") :=
    leaves_comment.mono fun ts same => ⟨"comment", by decide, same⟩
  exact (space.orElse comments).node

theorem leavesBare_gaps : gap.star.LeavesBare [] := by
  have one : gap.LeavesBare [] := leaves_gap.mono fun ts same => by rw [same]; rfl
  exact one.star rfl fun us vs first second => by rw [bare_append, first, second]; rfl

theorem leavesBare_separator (c : Char) : (separator c).LeavesBare [] :=
  (leavesBare_gaps.append (leavesBare_plain _)).append leavesBare_gaps

theorem leaves_decl : decl.Leaves (· = ["decl"]) := by
  have property : (leaf "property" propertyText).LeavesBare ["property"] := leavesBare_leaf _ rfl rfl
  have value : (leaf "value" valueText).LeavesBare ["value"] := leavesBare_leaf _ rfl rfl
  exact Reader.Leaves.node ((((property.append leavesBare_gaps).append (leavesBare_plain _)).append
    leavesBare_gaps).append value)

theorem leaves_decls : decls.Leaves (· = ["decls"]) := by
  have maybe : decl.opt.Leaves (Only "decl") :=
    (leaves_decl.mono fun ts same => by rw [same]; exact fun t => List.mem_singleton.1).opt
      (only_nil _)
  have next : (separator ';' ++ decl.opt).Leaves (Only "decl") :=
    Reader.Leaves.append (leavesBare_separator ';') maybe fun us vs none more =>
      (only_of_bare none).append more
  exact Reader.Leaves.node (maybe.append (next.star (only_nil _) fun us vs => Only.append)
    fun us vs => Only.append)

theorem leaves_block : block.Leaves (· = ["block"]) := by
  have list : decls.LeavesBare ["decls"] := leaves_decls.mono fun ts same => by rw [same]; rfl
  exact Reader.Leaves.node (((((leavesBare_plain _).append leavesBare_gaps).append list).append
    leavesBare_gaps).append (leavesBare_plain _))

theorem leaves_sels : sels.Leaves (· = ["sels"]) := by
  have first : sel.Leaves (· = ["sel"]) := leaves_leaf _ rfl
  have other : sel.Leaves (Only "sel") :=
    first.mono fun ts same => by rw [same]; exact fun t => List.mem_singleton.1
  have next : (separator ',' ++ sel).Leaves (Only "sel") :=
    Reader.Leaves.append (leavesBare_separator ',') other fun us vs none more =>
      (only_of_bare none).append more
  refine Reader.Leaves.node (first.append (next.star (only_nil _) fun us vs => Only.append)
    fun us vs same more => ?_)
  subst same
  have all : bare (["sel"] ++ vs) = "sel" :: bare vs := bare_append ["sel"] vs
  exact ⟨by rw [all]; exact List.cons_ne_nil _ _, by
    rw [all]; exact List.forall_mem_cons.2 ⟨rfl, more⟩⟩

theorem leaves_rule : rule.Leaves (· = ["rule"]) :=
  Reader.Leaves.node (leaves_sels.append leaves_block fun us vs first second => by
    rw [first, second]; rfl)

theorem mem_sketches {n : Node} {ps : List Fragment} :
    n ∈ sketches ps ↔ ∃ p ∈ ps, n ∈ p.sketch := by
  induction ps with
  | nil => simp [sketches]
  | cons p ps ih => simp [sketches, ih]

theorem leaves_atbody : atbody.Leaves (· = ["atbody"]) := by
  intro s ps r read
  -- a body holds characters and bodies, whatever the depth
  let Bodies (p : Fragment) : Prop := ∀ n ∈ p.sketch, n.tag = "atbody" ∧ n.Derived
  have wrap : ∀ qs, (∀ q ∈ qs, Bodies q) → Bodies (.node "atbody" qs) := by
    intro qs inside n hn
    obtain rfl : n = .mk "atbody" 0 0 (charsOf qs) (sketches qs) := by
      simpa [Fragment.sketch] using hn
    have all : ∀ m ∈ sketches qs, m.tag = "atbody" ∧ m.Derived := by
      intro m hm
      obtain ⟨q, hq, hm⟩ := mem_sketches.1 hm
      exact inside q hq m hm
    refine ⟨rfl, .mk (fun t ht => ?_) fun m hm => (all m hm).2⟩
    obtain ⟨m, hm, rfl⟩ := List.mem_map.1 ht
    exact (all m hm).1
  obtain ⟨qs, rfl, inside⟩ := read_group bodyNest (P := Bodies) (fun c => List.forall_mem_nil _)
    (fun qs inside => List.forall_mem_singleton.2 (wrap qs inside)) read
  refine ⟨rfl, fun n hn => (wrap qs inside n ?_).2⟩
  obtain ⟨p, hp, hn⟩ := mem_sketches.1 hn
  exact List.mem_singleton.1 hp ▸ hn

theorem leaves_fontface : fontface.Leaves (· = ["fontface"]) := by
  have braces : block.LeavesBare ["block"] := leaves_block.mono fun ts same => by rw [same]; rfl
  exact Reader.Leaves.node (((leavesBare_plain _).append leavesBare_gaps).append braces)

theorem leaves_heading : (plain (sign '@') ++ atname ++ atprelude).Leaves
    (· = ["atname", "atprelude"]) := by
  have named : atname.Leaves (· = ["atname"]) := leaves_leaf _ rfl
  have prelude : atprelude.Leaves (· = ["atprelude"]) := leaves_leaf _ rfl
  have first : (plain (sign '@') ++ atname).Leaves (· = ["atname"]) :=
    (leaves_plain _).append named fun us vs none same => by rw [none, same]; rfl
  exact first.append prelude fun us vs same same' => by rw [same, same']; rfl

theorem leaves_atblock : atblock.Leaves (· = ["atblock"]) :=
  Reader.Leaves.node (leaves_heading.append leaves_atbody fun us vs heading body => by
    rw [heading, body]; rfl)

theorem leaves_atstatement : atstatement.Leaves (· = ["atstatement"]) :=
  Reader.Leaves.node (leaves_heading.append (leaves_plain _) fun us vs heading none => by
    rw [heading, none]; rfl)

theorem leaves_atrule : atrule.Leaves (· = ["atrule"]) := by
  have kind : ∀ t ∈ ["fontface", "atblock", "atstatement"], ∀ ts, ts = [t] → Inner "atrule" ts :=
    fun t ht ts same => ⟨t, ht, same⟩
  exact Reader.Leaves.node ((leaves_fontface.mono (kind _ (by decide))).orElse
    ((leaves_atblock.mono (kind _ (by decide))).orElse
      (leaves_atstatement.mono (kind _ (by decide)))))

theorem leaves_toplevel : toplevel.Leaves (· = ["toplevel"]) := by
  have kind : ∀ t ∈ ["s", "atrule", "rule"], ∀ ts, ts = [t] → Inner "toplevel" ts :=
    fun t ht ts same => ⟨t, ht, same⟩
  exact Reader.Leaves.node ((leaves_gap.mono (kind _ (by decide))).orElse
    ((leaves_atrule.mono (kind _ (by decide))).orElse (leaves_rule.mono (kind _ (by decide)))))

theorem leaves_css (text : List Char) :
    ∀ n ∈ sketches (css text).1, n.tag = "toplevel" ∧ n.Derived := by
  have each : toplevel.Leaves fun ts => ∀ t ∈ ts, t = "toplevel" :=
    leaves_toplevel.mono fun ts same => by rw [same]; exact fun t => List.mem_singleton.1
  obtain ⟨tags, below⟩ := each.many (List.forall_mem_nil _)
    (fun us vs hu hv => List.forall_mem_append.2 ⟨hu, hv⟩) text
  exact fun n hn => ⟨tags _ (List.mem_map_of_mem hn), below n hn⟩

end Grammar

/-- Whether or not the text is read to its end, every group is what a production left. -/
theorem derived_spans (text : List Char) : ∀ n ∈ Node.ofSpans text (Sheet.spans text).1,
    n.tag = "toplevel" ∧ n.Derived := by
  have whole : text = [] ++ charsOf (css text).1 ++ (css text).2 := (css_append text).symm
  have same : (Node.ofSpans text (Sheet.spans text).1).map Node.unplaced =
      sketches (css text).1 := by
    rw [ofSpans_eq_map]
    exact unplaced_spansOf _ whole
  intro n hn
  have member : n.unplaced ∈ sketches (css text).1 := same ▸ List.mem_map_of_mem hn
  obtain ⟨tag, derived⟩ := leaves_css text _ member
  exact ⟨by rw [← tag_unplaced, tag], derived_of_unplaced n derived⟩

end StyleFactor
