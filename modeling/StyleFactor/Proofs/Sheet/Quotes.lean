import StyleFactor.Proofs.Grammar.Strings
import StyleFactor.Proofs.Sheet.Origins

/-!
Strings in selectors and preludes, which are collapsed without regard to them. Main statement: the
strings in what was collapsed are those of the text, each collapsed itself (`strings_of_parse`). A
run of white space inside a string is therefore lost (`string_collapsed`).
-/
namespace StyleFactor

open Grammar Grammar.Reader

namespace Text

/-- What stands in a collapsed text for the white space that a text starts with. -/
def lead : List Char → List Char
  | [] => []
  | c :: _ => if isBlank c then [' '] else []

section

variable {c : Char} (solid : isBlank c = false)
include solid

theorem collapse_cons_solid {s : List Char} (more : collapse s ≠ []) :
    collapse (c :: s) = c :: (lead s ++ collapse s) := by
  match s with
  | [] => exact absurd rfl more
  | d :: s =>
    cases hd : isBlank d with
    | false => simpa [lead, hd] using collapse_cons_cons solid hd s
    | true =>
      rw [collapse_cons_blank hd s] at more ⊢
      rcases collapse_cons_cons_blank solid hd s with ⟨-, none⟩ | same
      · exact absurd none more
      · simpa [lead, hd] using same

/-- Behind such a character the collapsed text goes on, or one space and that. -/
theorem exists_collapse_cons (s : List Char) :
    ∃ w, collapse (c :: s) = c :: w ∧ (w = collapse s ∨ w = ' ' :: collapse s) := by
  match s with
  | [] => exact ⟨[], collapse_singleton solid, .inl rfl⟩
  | d :: s =>
    cases hd : isBlank d with
    | false => exact ⟨collapse (d :: s), collapse_cons_cons solid hd s, .inl rfl⟩
    | true =>
      rw [collapse_cons_blank hd s]
      rcases collapse_cons_cons_blank solid hd s with ⟨same, none⟩ | same
      · exact ⟨[], same, .inl none.symm⟩
      · exact ⟨' ' :: collapse s, same, .inr rfl⟩

theorem collapse_concat_ne_nil (s : List Char) : collapse (s ++ [c]) ≠ [] := by
  intro empty
  obtain ⟨u, v, whole, -, last⟩ := (respaced_collapse (s ++ [c])).split
  obtain ⟨w, rfl, -⟩ := last.solid solid
  rw [empty] at whole
  cases u <;> cases whole

/-- Behind a character that is no white space nothing is changed by what stands in front of it. -/
theorem collapse_append_cons (s t : List Char) :
    ∃ w, collapse (s ++ c :: t) = collapse (s ++ [c]) ++ w ∧
      (w = collapse t ∨ w = ' ' :: collapse t) := by
  induction s with
  | nil =>
    rw [List.nil_append, List.nil_append, collapse_singleton solid]
    exact exists_collapse_cons solid t
  | cons d s ih =>
    obtain ⟨w, same, behind⟩ := ih
    refine ⟨w, ?_, behind⟩
    have first : lead (s ++ c :: t) = lead (s ++ [c]) := by cases s <;> rfl
    have some := collapse_concat_ne_nil solid s
    have some' : collapse (s ++ c :: t) ≠ [] := by
      rw [same]
      exact List.append_ne_nil_of_left_ne_nil some w
    rw [List.cons_append, List.cons_append]
    cases hd : isBlank d with
    | true => rw [collapse_cons_blank hd, collapse_cons_blank hd, same]
    | false =>
      rw [collapse_cons_solid hd some', collapse_cons_solid hd some, first, same]
      simp

end

end Text

/-! Strings. -/

theorem quotes_behind {w t : List Char} (h : w = Text.collapse t ∨ w = ' ' :: Text.collapse t) :
    quotes w = quotes (Text.collapse t) := by
  rcases h with rfl | rfl
  · rfl
  · exact quotes_cons_plain rfl

variable {s r i : List Char} {c : Char}

/-- A mark without another like it behind still has none. -/
theorem quotes_collapse_cons (none : string (c :: s) = none) :
    quotes (Text.collapse (c :: s)) = quotes (Text.collapse s) := by
  cases blank : Text.isBlank c with
  | true => rw [Text.collapse_cons_blank blank]
  | false =>
    obtain ⟨w, same, behind⟩ := Text.exists_collapse_cons blank s
    rw [same, ← quotes_behind behind]
    refine quotes_cons ?_
    cases mark : isMark c with
    | false => exact starts_string.cons mark w
    | true =>
      refine (string_eq_none mark).2 fun later => (string_eq_none mark).1 none ?_
      refine (Text.respaced_collapse s).mem blank ?_
      rcases behind with rfl | rfl
      · exact later
      · refine (List.mem_cons.1 later).resolve_left ?_
        rintro rfl
        cases blank

theorem quotes_collapse_string (found : string s = some (i, r)) :
    quotes (Text.collapse s) = Text.collapse i :: quotes (Text.collapse r) := by
  have whole : i ++ r = s := lossless_string _ _ _ found
  obtain ⟨q, u, mark, -, same, -⟩ := string_eq_some.1 found
  have item : i = q :: u ++ [q] := same
  have text : s = q :: u ++ q :: r := by simp [← whole, item]
  obtain ⟨w, split, behind⟩ := Text.collapse_append_cons (solid_of_isMark mark) (q :: u) r
  rw [← text, ← item] at split
  rw [← whole] at found
  have again := string_respaced found (Text.respaced_collapse i) w
  rw [split, quotes_string again, quotes_behind behind]

/-- Collapsing a text collapses each of its strings, and makes and loses none. -/
theorem quotes_collapse (s : List Char) :
    quotes (Text.collapse s) = (quotes s).map Text.collapse := by
  induction size : s.length using Nat.strong_induction_on generalizing s with
  | _ n ih =>
    cases s with
    | nil =>
      rw [quotes_nil]
      exact quotes_nil
    | cons c s =>
      cases found : string (c :: s) with
      | none =>
        rw [quotes_collapse_cons found, quotes_cons found]
        exact ih s.length (by simp [← size]) s rfl
      | some read =>
        obtain ⟨i, r⟩ := read
        have shorter := pliant_string.advances _ _ _ found
        rw [quotes_collapse_string found, quotes_string found, ih r.length (size ▸ shorter) r rfl]
        rfl

/-! Sheets. -/

/-- The strings that are read in the text of the node, where it stands, and those that are read
again in what the text was made into, if that is not empty: each of these is the change of one. -/
def Node.StringsBecome (change : List Char → List Char) (lex : Reader Token) (text : List Char)
    (n : Node) (made : String) : Prop :=
  ∃ before behind ts ts', text = before ++ n.str ++ behind ∧ n.start = before.length ∧
    lex (n.str ++ behind) = some (ts, behind) ∧
    (made = "" ∧ ts' = [] ∨ lex made.toList = some (ts', [])) ∧
    strings ts' = (strings ts).map change

/-- So it is with all selectors of a rule, or with the prelude of an at-rule. -/
def Entry.StringsBecome (change : List Char → List Char) (text : List Char) (m : Node) :
    Entry → Prop
  | .rule r => ∃ l ∈ m.children, l.tag = "sels" ∧
      List.Forall₂ (Node.StringsBecome change selectorTokens text) (withoutGaps l.children)
        r.selectors
  | .atRule a => ∃ p ∈ m.children, p.tag = "atprelude" ∧
      p.StringsBecome change preludeTokens text a.prelude
  | _ => True

variable {text : List Char} {n : Node}

theorem stringsBecome_of_lexes {lex : Reader Token} {a : Reader Char}
    (lexes : ∀ size, lex.Lexes a size) (genuine : n.Genuine text)
    (own : production n.tag = leaf n.tag a)
    (again : ∀ t, a (n.str ++ t) = some (n.str, t) →
      Text.collapse n.str = [] ∨ Entire a (Text.collapse n.str)) :
    n.StringsBecome Text.collapse lex text (collapsed n) := by
  obtain ⟨before, behind, whole, start, -, here⟩ := genuine.grown.here
  rw [own] at here
  have read := (Reads.of_leaf here).2
  obtain ⟨ts, tokens, spelled⟩ := (lexes _).tokens (Nat.le_refl _) read
  have strings_eq : strings ts = quotes n.str := by
    rw [← spelled]
    exact Reader.Lexes.strings_eq lexes tokens
  have changed := quotes_collapse n.str
  rw [← strings_eq] at changed
  rcases again behind read with empty | again
  · refine ⟨before, behind, ts, [], whole, start, tokens, .inl ⟨by rw [collapsed, empty], rfl⟩, ?_⟩
    rw [← changed, empty, quotes_nil]
    rfl
  · obtain ⟨ts', tokens', spelled'⟩ :=
      (lexes _).tokens (Nat.le_refl _) (again.eq (lexes 0).lossless)
    refine ⟨before, behind, ts, ts', whole, start, tokens, .inr ?_, ?_⟩
    · rwa [collapsed, String.toList_ofList]
    · rw [Reader.Lexes.strings_eq lexes tokens', spelled', changed]

theorem stringsBecome_sel (genuine : n.Genuine text) (kind : n.tag = "sel") :
    n.StringsBecome Text.collapse selectorTokens text (collapsed n) :=
  stringsBecome_of_lexes lexes_selector genuine (by rw [kind]; rfl) fun _ read =>
    or_iff_not_imp_left.2 (entire_collapse_selector read)

theorem stringsBecome_prelude (genuine : n.Genuine text) (kind : n.tag = "atprelude") :
    n.StringsBecome Text.collapse preludeTokens text (collapsed n) :=
  stringsBecome_of_lexes lexes_prelude genuine (by rw [kind]; rfl) fun _ read =>
    .inr (entire_collapse read)

theorem stringsBecome_of_madeFrom {o : Origin} (genuine : n.Genuine text) {e : Entry}
    (made : e.MadeFrom o n) : e.StringsBecome Text.collapse text n := by
  cases made with
  | rule kind made =>
    obtain ⟨l, member, tag, nodes, selectors, -⟩ := rule_of_genuine genuine made
    refine ⟨l, member, tag, ?_⟩
    rw [selectors, List.forall₂_map_right_iff, List.forall₂_same]
    exact fun c hc => stringsBecome_sel (nodes c hc).2 (nodes c hc).1
  | atRule kind made =>
    obtain ⟨p, member, tag, same⟩ := prelude_of_genuine genuine kind made
    refine ⟨p, member, tag, ?_⟩
    rw [same]
    exact stringsBecome_prelude (genuine.child member) tag
  | fontFace => trivial
  | comment => trivial
  | whitespace => trivial

/-- For each entry, the nodes that its selectors or its prelude were made from hold as many strings
as are read again in these, in the same order, and collapsing a string of the text makes it the one
that is read again. -/
theorem strings_of_parse {source : Option String} {text : String} {d : Sheet}
    (parsed : Sheet.parse source text = .ok d) :
    List.Forall₂ (fun n e => ∃ m, m.Genuine text.toList ∧ n.start ≤ m.start ∧ m.stop ≤ n.stop ∧
      e.MadeFrom (.ofText text.toList source) m ∧ e.StringsBecome Text.collapse text.toList m)
      (Sheet.nodes text.toList) d.entries :=
  (origins_of_parse parsed).imp fun _ _ ⟨m, genuine, start, stop, made⟩ =>
    ⟨m, genuine, start, stop, made, stringsBecome_of_madeFrom genuine made⟩

def spacedImport : String := "@import \"a  b.css\";"

theorem parse_spacedImport : (Sheet.parse none spacedImport).map (·.entries.map Entry.unplaced) =
    .ok [.atRule ⟨"import", "\"a b.css\"", none, none⟩] := by
  cbv

theorem strings_of_parse_spacedImport : ∃ d, Sheet.parse none spacedImport = .ok d ∧
    List.Forall₂ (fun n e => ∃ m, m.Genuine spacedImport.toList ∧ n.start ≤ m.start ∧
      m.stop ≤ n.stop ∧ e.MadeFrom (.ofText spacedImport.toList none) m ∧
      e.StringsBecome Text.collapse spacedImport.toList m)
      (Sheet.nodes spacedImport.toList) d.entries := by
  obtain ⟨d, parsed, -⟩ := exists_of_map_ok parse_spacedImport
  exact ⟨d, parsed, strings_of_parse parsed⟩

/-- A string is not always left as it is: the one that is read again does not stand in the text. -/
theorem string_collapsed : ¬∀ source text d, Sheet.parse source text = .ok d →
    List.Forall₂ (fun n e => ∃ m, m.Genuine text.toList ∧ n.start ≤ m.start ∧ m.stop ≤ n.stop ∧
      e.MadeFrom (.ofText text.toList source) m ∧ e.StringsBecome id text.toList m)
      (Sheet.nodes text.toList) d.entries := by
  intro claim
  obtain ⟨d, parsed, entries⟩ := exists_of_map_ok parse_spacedImport
  obtain ⟨a, listed, same⟩ := eq_of_unplaced_atRule entries
  have member : Entry.atRule a ∈ d.entries := listed ▸ List.mem_cons_self
  obtain ⟨n, -, m, -, -, -, -, p, -, -, before, behind, ts, ts', whole, -, tokens, again, kept⟩ :=
    exists_of_forall₂ (claim none spacedImport d parsed) member
  have prelude : a.prelude = "\"a b.css\"" := congrArg AtRule.prelude same
  rw [prelude] at again
  have lexed : preludeTokens "\"a b.css\"".toList = some ([.quoted "\"a b.css\"".toList], []) := by
    cbv
  obtain rfl : [.quoted "\"a b.css\"".toList] = ts' := by
    rcases again with ⟨empty, -⟩ | again
    · exact absurd empty (by decide)
    · exact congrArg Prod.fst (Option.some.inj (lexed.symm.trans again))
  have inside : "\"a b.css\"".toList ∈ strings ts := by
    rw [List.map_id] at kept
    rw [← kept]
    exact List.mem_singleton_self _
  have spelled : spell ts = p.str :=
    List.append_cancel_right ((lexes_prelude _).whole (Nat.le_refl _) tokens)
  have stands : "\"a b.css\"".toList <:+: spacedImport.toList := by
    rw [whole]
    refine (infix_spell inside).trans ?_
    rw [spelled]
    exact ⟨before, behind, rfl⟩
  exact absurd stands (by decide +kernel)

end StyleFactor
