import StyleFactor.Proofs.Tree.Tiling

/-!
Each group of a text by itself. Whatever was read around it, a group is what its own production
reads at the place where it stands. Main statement: so it is with all groups in the tree of a text
(`grown_nodes`).
-/
namespace StyleFactor

open Grammar Grammar.Reader

namespace Grammar

/-- The production that leaves the groups with a tag. -/
def production : String → Reader Fragment
  | "toplevel" => toplevel
  | "s" => gap
  | "space" => leaf "space" spaceText
  | "comment" => comment
  | "commtext" => leaf "commtext" commentText
  | "atrule" => atrule
  | "fontface" => fontface
  | "atblock" => atblock
  | "atstatement" => atstatement
  | "atname" => atname
  | "atprelude" => atprelude
  | "atbody" => atbody
  | "rule" => rule
  | "sels" => sels
  | "sel" => sel
  | "block" => block
  | "decls" => decls
  | "decl" => decl
  | "property" => leaf "property" propertyText
  | "value" => leaf "value" valueText
  | _ => fun _ => none

mutual

/-- Each group is what its production reads in front of the text behind the group. -/
def Fragment.Parsed : Fragment → List Char → Prop
  | .text _, _ => True
  | .node tag ps, t =>
    production tag (charsOf ps ++ t) = some ([.node tag ps], t) ∧ ParsedAll ps t

def ParsedAll : List Fragment → List Char → Prop
  | [], _ => True
  | p :: ps, t => p.Parsed (charsOf ps ++ t) ∧ ParsedAll ps t

end

theorem parsedAll_append {ps qs : List Fragment} {t : List Char} :
    ParsedAll (ps ++ qs) t ↔ ParsedAll ps (charsOf qs ++ t) ∧ ParsedAll qs t := by
  induction ps with
  | nil => exact ⟨fun h => ⟨trivial, h⟩, fun h => h.2⟩
  | cons p ps ih =>
    rw [List.cons_append, ParsedAll, ParsedAll, ih, charsOf_append, List.append_assoc, and_assoc]

/-- Lossless, and on texts of at most this length each group that is left was parsed. -/
structure Reader.Grows (a : Reader Fragment) (size : Nat) : Prop where
  keeps : a.Keeps
  parsed : ∀ s ps r, s.length ≤ size → a s = some (ps, r) → ParsedAll ps r

section

variable {a b : Reader Fragment} {size : Nat}

theorem grows_plain {a : Reader Char} (lossless : a.Lossless id) : (plain a).Grows size where
  keeps := keeps_plain lossless
  parsed s ps r _ read := by
    obtain ⟨cs, -, rfl⟩ := map_eq_some.1 read
    exact ⟨trivial, trivial⟩

theorem Reader.Grows.append (ha : a.Grows size) (hb : b.Grows size) : (a ++ b).Grows size where
  keeps := ha.keeps.append hb.keeps
  parsed s zs r small read := by
    obtain ⟨ps, m, qs, first, second, rfl⟩ := append_eq_some.1 read
    have shorter := ha.keeps.shrinks s ps m first
    have behind : charsOf qs ++ r = m := hb.keeps _ _ _ second
    refine parsedAll_append.2 ⟨?_, hb.parsed m qs r (by omega) second⟩
    rw [behind]
    exact ha.parsed s ps m small first

theorem Reader.Grows.orElse (ha : a.Grows size) (hb : b.Grows size) : (a <|> b).Grows size where
  keeps := ha.keeps.orElse hb.keeps
  parsed s ps r small read := by
    rcases orElse_eq_some.1 read with first | ⟨-, second⟩
    · exact ha.parsed s ps r small first
    · exact hb.parsed s ps r small second

theorem Reader.Grows.opt (ha : a.Grows size) : a.opt.Grows size where
  keeps := ha.keeps.opt
  parsed s ps r small read := by
    rcases orElse_eq_some.1 read with first | ⟨-, nothing⟩
    · exact ha.parsed s ps r small first
    · cases nothing
      trivial

theorem Reader.Grows.many (ha : a.Grows size) {s : List Char} (small : s.length ≤ size) :
    ParsedAll (a.many s).1 (a.many s).2 := by
  fun_induction Reader.many a s with
  | case1 s stop => trivial
  | case2 s ps m first shorter qs r rest ih =>
    have behind : charsOf qs ++ r = m := by
      simpa [rest] using ha.keeps.many rfl charsOf_append m
    rw [rest] at ih
    refine parsedAll_append.2 ⟨?_, ih (by omega)⟩
    rw [behind]
    exact ha.parsed s ps m small first
  | case3 s ps m first stuck => trivial

theorem Reader.Grows.star (ha : a.Grows size) : a.star.Grows size where
  keeps := ha.keeps.star
  parsed s ps r small read := by
    have all := ha.many small
    rwa [Option.some.inj read] at all

/-- A group was parsed if its parts were and the production is the one of its tag. -/
theorem Reader.Grows.node {tag : String} (ha : a.Grows size) (own : production tag = node tag a) :
    (node tag a).Grows size where
  keeps := keeps_node tag ha.keeps
  parsed s ps r small read := by
    have whole := keeps_node tag ha.keeps s ps r read
    obtain ⟨qs, inner, rfl⟩ := map_eq_some.1 read
    rw [charsOf_cons, charsOf_nil, List.append_nil, chars_node] at whole
    refine ⟨⟨?_, ha.parsed s qs r small inner⟩, trivial⟩
    rw [own, charsOf_nil, List.nil_append, whole, read]

theorem grows_leaf {tag : String} {a : Reader Char} (lossless : a.Lossless id)
    (own : production tag = leaf tag a) : (leaf tag a).Grows size :=
  (grows_plain lossless).node own

end

/-! The productions, from the inside out. -/

variable (size : Nat)

theorem grows_sign (c : Char) : (plain (sign c)).Grows size := grows_plain (lossless_one _)

theorem grows_word (w : List Char) : (plain (word w)).Grows size := grows_plain (lossless_word w)

theorem grows_comment : comment.Grows size :=
  (((grows_word size _).append (grows_leaf lossless_commentText rfl)).append
    (grows_word size _)).node rfl

theorem grows_gap : gap.Grows size :=
  ((grows_leaf (lossless_plus (lossless_one _)) rfl).orElse (grows_comment size)).node rfl

theorem grows_separator (c : Char) : (separator c).Grows size :=
  ((grows_gap size).star.append (grows_sign size c)).append (grows_gap size).star

theorem grows_decl : decl.Grows size :=
  (((((grows_leaf lossless_propertyText rfl).append (grows_gap size).star).append
    (grows_sign size ':')).append (grows_gap size).star).append
      (grows_leaf lossless_valueText rfl)).node rfl

theorem grows_decls : decls.Grows size :=
  ((grows_decl size).opt.append
    ((grows_separator size ';').append (grows_decl size).opt).star).node rfl

theorem grows_block : block.Grows size :=
  (((((grows_sign size '{').append (grows_gap size).star).append (grows_decls size)).append
    (grows_gap size).star).append (grows_sign size '}')).node rfl

theorem grows_sel : sel.Grows size := grows_leaf lossless_selector rfl

theorem grows_sels : sels.Grows size :=
  ((grows_sel size).append ((grows_separator size ',').append (grows_sel size)).star).node rfl

theorem grows_rule : rule.Grows size := ((grows_sels size).append (grows_block size)).node rfl

theorem grows_fontface : fontface.Grows size :=
  (((grows_word size _).append (grows_gap size).star).append (grows_block size)).node rfl

theorem grows_heading : (plain (sign '@') ++ atname ++ atprelude).Grows size :=
  ((grows_sign size '@').append (grows_leaf lossless_name rfl)).append
    (grows_leaf lossless_preludeText rfl)

theorem charsOf_map_char (cs : List Char) : charsOf (cs.map bodyNest.char) = cs := by
  induction cs with
  | nil => rfl
  | cons c cs ih => rw [List.map_cons, charsOf_cons, ih]; rfl

theorem parsedAll_map_char (cs t : List Char) : ParsedAll (cs.map bodyNest.char) t := by
  induction cs with
  | nil => trivial
  | cons c cs ih => exact ⟨trivial, ih⟩

theorem grows_chars {a : Reader Char} (lossless : a.Lossless id) :
    (bodyNest.chars a).Grows size where
  keeps s ps r read := by
    obtain ⟨cs, text, rfl⟩ := bodyNest.chars_eq_some.1 read
    rw [charsOf_map_char]
    exact lossless s cs r text
  parsed s ps r _ read := by
    obtain ⟨cs, -, rfl⟩ := bodyNest.chars_eq_some.1 read
    exact parsedAll_map_char cs r

/-- The groups inside a body are in a shorter text. -/
theorem grows_atbody : atbody.Grows size := by
  induction size with
  | zero =>
    refine ⟨keeps_atbody, fun s ps r small read => ?_⟩
    obtain rfl := List.length_eq_zero_iff.1 (Nat.le_zero.1 small)
    cases read
  | succ size ih =>
    refine ⟨keeps_atbody, fun s ps r small read => ?_⟩
    have whole : charsOf ps ++ r = s := keeps_atbody s ps r read
    have parts := read
    rw [atbody, Nest.read_eq proper_bodyNest, append_assoc] at parts
    obtain ⟨qs, inner, rfl⟩ := map_eq_some.1 parts
    obtain ⟨us, m, vs, opening, rest, rfl⟩ := append_eq_some.1 inner
    obtain ⟨cs, sign, rfl⟩ := bodyNest.chars_eq_some.1 opening
    obtain ⟨c, -, rfl, rfl⟩ := one_eq_some.1 sign
    have item : bodyNest.item.Grows size :=
      (grows_chars size lossless_string).orElse (ih.orElse (grows_chars size (lossless_one _)))
    have inside := (item.star.append (grows_chars size (lossless_one _))).parsed m vs r
      (Nat.le_of_succ_le_succ small) rest
    refine ⟨⟨?_, trivial, inside⟩, trivial⟩
    have group : charsOf (bodyNest.group (bodyNest.char c :: vs)) =
        charsOf (bodyNest.char c :: vs) := by simp [bodyNest]
    rw [List.map_cons, List.map_nil, List.singleton_append, group] at whole
    rw [charsOf_nil, List.nil_append]
    exact (congrArg atbody whole).trans read

theorem grows_atblock : atblock.Grows size :=
  ((grows_heading size).append (grows_atbody size)).node rfl

theorem grows_atstatement : atstatement.Grows size :=
  ((grows_heading size).append (grows_sign size ';')).node rfl

theorem grows_atrule : atrule.Grows size :=
  ((grows_fontface size).orElse ((grows_atblock size).orElse (grows_atstatement size))).node rfl

theorem grows_toplevel : toplevel.Grows size :=
  ((grows_gap size).orElse ((grows_atrule size).orElse (grows_rule size))).node rfl

theorem parsedAll_css (text : List Char) : ParsedAll (css text).1 (css text).2 :=
  (grows_toplevel text.length).many (Nat.le_refl _)

end Grammar

/-! Nodes. -/

/-- The node stands where its offsets say, and is what its production reads there. -/
def Node.Grown (text : List Char) (n : Node) : Prop :=
  ∃ before behind, text = before ++ n.str ++ behind ∧ n.start = before.length ∧
    n.stop = (before.length + n.str.length : Nat) ∧ Reads (production n.tag) n.str behind [n.unplaced]

mutual

theorem grown_spans {text before behind : List Char} : (p : Fragment) →
    text = before ++ p.chars ++ behind → p.Parsed behind →
    ∀ n ∈ Node.ofSpans text (p.spans before.length), n.Throughout (Node.Grown text)
  | .text _, _, _ => List.forall_mem_nil _
  | .node tag ps, h, parsed => by
    have inner := grown_spansOf ps h parsed.2
    have sketch := unplaced_spans (.node tag ps) h
    have piece : Text.slice text before.length (before.length + widthOf ps : Nat) = charsOf ps := by
      rw [h, widthOf_eq]
      exact Text.slice_between before (charsOf ps) behind
    refine List.forall_mem_singleton.2 (.mk ⟨before, behind, ?_, rfl, ?_, ?_⟩ inner)
    · rw [Node.ofSpan, str_mk, piece, h, chars_node]
    · rw [Node.ofSpan, str_mk, piece, ← widthOf_eq]
      rfl
    · rw [Node.ofSpan, str_mk, piece]
      refine ⟨[.node tag ps], parsed.1, by simp, ?_⟩
      rw [sketches, sketches, List.append_nil, ← sketch, Fragment.spans, List.map_cons, List.map_nil,
        Node.ofSpan, piece]
      rfl

theorem grown_spansOf {text before behind : List Char} : (ps : List Fragment) →
    text = before ++ charsOf ps ++ behind → ParsedAll ps behind →
    ∀ n ∈ Node.ofSpans text (spansOf before.length ps), n.Throughout (Node.Grown text)
  | [], _, _ => List.forall_mem_nil _
  | p :: ps, h, parsed => by
    have here : text = before ++ p.chars ++ (charsOf ps ++ behind) := by simp [h]
    have there : text = (before ++ p.chars) ++ charsOf ps ++ behind := by simp [h]
    have first := grown_spans p here parsed.1
    have rest := grown_spansOf ps there parsed.2
    rw [List.length_append, ← p.width_eq] at rest
    rw [spansOf, ofSpans_append]
    exact List.forall_mem_append.2 ⟨first, rest⟩

end

theorem grown_nodes (text : List Char) :
    ∀ n ∈ Sheet.nodes text, n.Throughout (Node.Grown text) := by
  have whole : text = [] ++ charsOf (css text).1 ++ (css text).2 := (css_append text).symm
  exact grown_spansOf (css text).1 whole (parsedAll_css text)

end StyleFactor
