import StyleFactor.Layout.Print
import StyleFactor.Proofs.Sheet.Listing
import StyleFactor.Proofs.Sheet.Unplaced
import StyleFactor.Proofs.Sheet.WellFormed

/-!
Declarations and blocks as they are written, read again. Every value is followed by a semicolon or
by the brace that closes the block, and both end a value; the white space in between is a gap.
-/
namespace StyleFactor

open Grammar Grammar.Reader

/-- Layouts whose text can be read again: blocks are indented with white space, and a line break
inside a block stands behind a semicolon. -/
structure Layout.Readable (l : Layout) : Prop where
  indent : ∀ c ∈ l.indent.toList, isSpace c = true
  semicolon : l.blockIndent = true → l.lastSemicolon = true ∧ l.minify = false

theorem readable_layout (m : Mode) : m.layout.Readable := by
  cases m with
  | canonical => exact ⟨List.all_eq_true.1 rfl, fun _ => ⟨rfl, rfl⟩⟩
  | minified => exact ⟨List.all_eq_true.1 rfl, fun off => nomatch off⟩

namespace Layout

variable (l : Layout)

def valueLead : List Char := if l.valueSpace then [' '] else []

def newline : List Char := if l.blockIndent then ['\n'] else []

def indentation : List Char := if l.blockIndent then l.indent.toList else []

def lead : List Char := l.newline ++ l.indentation

def tail : List Char := (if l.lastSemicolon && !l.minify then [';'] else []) ++ l.newline

theorem isSpace_valueLead : ∀ c ∈ l.valueLead, isSpace c = true := by
  unfold valueLead
  split <;> exact List.all_eq_true.1 rfl

theorem isSpace_newline : ∀ c ∈ l.newline, isSpace c = true := by
  unfold newline
  split <;> exact List.all_eq_true.1 rfl

theorem toList_space : l.space.toList = [] ∨ l.space.toList = [' '] := by
  unfold space
  split <;> simp

theorem isSpace_space : ∀ c ∈ l.space.toList, isSpace c = true := by
  rcases l.toList_space with h | h <;> rw [h] <;> exact List.all_eq_true.1 rfl

theorem isSpace_lineBreak : ∀ c ∈ l.lineBreak.toList, isSpace c = true := by
  unfold lineBreak
  split <;> exact List.all_eq_true.1 rfl

variable {l}

theorem isSpace_lead (h : l.Readable) : ∀ c ∈ l.lead, isSpace c = true := by
  intro c hc
  rcases List.mem_append.1 hc with hc | hc
  · exact l.isSpace_newline c hc
  · unfold indentation at hc
    split at hc
    · exact h.indent c hc
    · cases hc

theorem tail_cases (h : l.Readable) : l.tail = [] ∨ l.tail = ';' :: l.newline := by
  unfold tail newline
  cases hi : l.blockIndent with
  | false => cases l.lastSemicolon && !l.minify <;> simp
  | true => simp [h.semicolon hi]

end Layout

theorem gap_append_none {s : List Char} {c : Char} (solid : ∀ d u, s = d :: u → isSpace d = false)
    (nonempty : s ≠ []) (plain : ¬['/', '*'] <+: s) (next : c ≠ '*') (t : List Char) :
    gap (s ++ c :: t) = none := by
  cases s with
  | nil => exact absurd rfl nonempty
  | cons d s =>
    refine gap_eq_none ?_ ?_
    · rintro e ⟨⟩
      exact solid d s rfl
    · intro opens
      cases s with
      | nil =>
        have second : ['*'] <+: c :: t := (List.cons_prefix_cons.1 opens).2
        exact next (List.cons_prefix_cons.1 second).1.symm
      | cons e s => exact plain (by simpa using opens)

theorem starts_propertyText :
    Starts (fun c => ['*', '_'].contains c || isNameStart c) propertyText := by
  intro s xs r h
  obtain ⟨ys, m, zs, hack, name, -⟩ := append_eq_some.1 h
  rcases orElse_eq_some.1 hack with hack | ⟨-, nothing⟩
  · obtain ⟨c, t, rfl, hc⟩ := starts_one _ _ _ _ hack
    exact ⟨c, t, rfl, Bool.or_eq_true_iff.2 (Or.inl hc)⟩
  · cases nothing
    obtain ⟨c, t, rfl, hc⟩ := (starts_one _).append _ _ _ _ name
    exact ⟨c, t, rfl, Bool.or_eq_true_iff.2 (Or.inr hc)⟩

variable {l : Layout} {d : Decl} {c : Char} {t : List Char}

theorem gap_of_property {s : List Char} (h : Entire propertyText s) (t : List Char) :
    gap (s ++ t) = none := by
  obtain ⟨xs, read⟩ := h
  obtain ⟨c, s, rfl, hc⟩ := starts_propertyText _ _ _ read
  exact gap_of_class (p := fun c => ['*', '_'].contains c || isNameStart c) hc (by decide) _

theorem gap_value (h : d.WellFormed) (next : c ≠ '*') (t : List Char) :
    gap (d.value.toList ++ c :: t) = none := by
  refine gap_append_none ?_ ?_ h.plain next t
  · intro e u same
    have trimmed := h.trimmed
    rw [same] at trimmed
    exact Text.not_isSpace (Text.not_isBlank_of_trim trimmed)
  · intro empty
    obtain ⟨xs, read⟩ := h.value
    rw [empty] at read
    cases read

theorem toList_format (l : Layout) (d : Decl) :
    (d.format l).toList = d.property.toList ++ ':' :: (l.valueLead ++ d.value.toList) := by
  rw [Decl.format, Layout.declaration, Layout.valueLead]
  split <;> simp

/-- What it takes to read a declaration back in front of a text. -/
structure Decl.Fits (d : Decl) (t : List Char) : Prop where
  property : Entire propertyText d.property.toList
  value : Entire valueText d.value.toList
  trimmed : Text.trim d.value.toList = d.value.toList
  start : gap (d.value.toList ++ t) = none

theorem Decl.WellFormed.fits (h : d.WellFormed) (next : c ≠ '*') (t : List Char) :
    d.Fits (c :: t) :=
  ⟨h.property, h.value, h.trimmed, gap_value h next t⟩

def declNode (l : Layout) (d : Decl) : Node :=
  .mk "decl" 0 0 (d.format l).toList
    (.mk "property" 0 0 d.property.toList [] ::
      (gapNodes l.valueLead ++ [.mk "value" 0 0 d.value.toList []]))

theorem reads_decl (h : d.Fits (c :: t)) (stop : c = ';' ∨ c = '}') :
    Reads decl (d.format l).toList (c :: t) [declNode l d] := by
  have property := reads_leaf "property"
    (propertyText_append (c := ':') (t := l.valueLead ++ (d.value.toList ++ c :: t)) h.property rfl)
  have gaps : Reads gap.star [] (':' :: (l.valueLead ++ (d.value.toList ++ c :: t))) [] :=
    reads_star_nil (gap_cons rfl (by decide) _)
  have lead := reads_gaps l.isSpace_valueLead h.start
  have value := reads_leaf "value" (valueText_append (t := t) h.value stop)
  have read := ((((property.append gaps).append (reads_sign ':' _)).append lead).append value).node
    "decl"
  simpa [decl, declNode, toList_format] using read

/-- The declarations of a block, each behind a semicolon. -/
def Layout.declListing (l : Layout) : Listing Decl where
  chars d := (d.format l).toList
  text := Decl.value
  Fits := Decl.Fits
  sign := ';'
  space := l.lead
  last := l.tail
  stop := '}'

def declsChars (l : Layout) (d : Decl) (ds : List Decl) : List Char :=
  (d.format l).toList ++ l.declListing.more ds

theorem declsChars_nil (l : Layout) (d : Decl) :
    declsChars l d [] = (d.format l).toList ++ l.tail := rfl

theorem declsChars_cons (l : Layout) (d e : Decl) (ds : List Decl) :
    declsChars l d (e :: ds) = (d.format l).toList ++ (';' :: l.lead ++ declsChars l e ds) := rfl

theorem gap_declsChars (h : Entire propertyText d.property.toList) (ds : List Decl)
    (t : List Char) : gap (declsChars l d ds ++ t) = none := by
  simpa [declsChars, toList_format] using gap_of_property h _

theorem filter_gapNodes (w : List Char) : (gapNodes w).filter (·.tag == "decl") = [] := by
  cases w <;> rfl

theorem separator_closing (t : List Char) : (separator ';' ++ decl.opt) ('}' :: t) = none :=
  separator_none rfl (by decide) (by decide) _ t

theorem reads_no_decl (t : List Char) :
    Reads (decl.opt ++ (separator ';' ++ decl.opt).star) [] ('}' :: t) [] := by
  have starts : Starts (fun c => ['*', '_'].contains c || isNameStart c) decl :=
    (((((starts_propertyText.plain.node _).append _).append _).append _).append _).node _
  exact (reads_nothing (starts.cons rfl t)).append (reads_star_nil (separator_closing t))

theorem reads_tail (h : l.Readable) (t : List Char) :
    ∃ ns, Reads (separator ';' ++ decl.opt).star l.tail ('}' :: t) ns ∧
      ns.filter (·.tag == "decl") = [] := by
  rcases Layout.tail_cases h with tail | tail
  · rw [tail]
    exact ⟨[], reads_star_nil (separator_closing t), rfl⟩
  · have apart : Reads (separator ';') (';' :: l.newline) ('}' :: t) (gapNodes l.newline) :=
      reads_separator rfl (by decide) l.isSpace_newline (gap_cons rfl (by decide) t)
    have read := apart.separated (List.cons_ne_nil _ _) (reads_no_decl t) keeps_decl.opt
    rw [List.append_nil, List.append_nil, ← tail] at read
    exact ⟨gapNodes l.newline, read, filter_gapNodes _⟩

theorem tail_append (h : l.Readable) (t : List Char) :
    ∃ c u, l.tail ++ '}' :: t = c :: u ∧ (c = ';' ∨ c = '}') := by
  rcases Layout.tail_cases h with tail | tail
  · rw [tail]
    exact ⟨'}', t, rfl, Or.inr rfl⟩
  · rw [tail]
    exact ⟨';', _, rfl, Or.inl rfl⟩

theorem joined_declListing (h : l.Readable) : l.declListing.Joined where
  sign := rfl
  space := Layout.isSpace_lead h
  last t := by
    obtain ⟨c, u, same, stop⟩ := tail_append h t
    exact ⟨c, u, same, by rcases stop with rfl | rfl <;> rfl⟩

/-- Every declaration fits in front of what is written behind it. -/
def DeclsFit (l : Layout) (ds : List Decl) (t : List Char) : Prop := l.declListing.FitAll ds t

theorem declsFit_of_wellFormed (h : l.Readable) {ds : List Decl} (wf : ∀ d ∈ ds, d.WellFormed)
    (t : List Char) : DeclsFit l ds ('}' :: t) := by
  refine Listing.fitAll_of_forall (joined_declListing h) (fun d hd c u joint => ?_) t
  refine (wf d hd).fits ?_ u
  rintro rfl
  cases joint

theorem DeclsFit.trimmed {ds : List Decl} (h : DeclsFit l ds t) :
    ∀ d ∈ ds, Text.trim d.value.toList = d.value.toList := by
  induction ds with
  | nil => exact fun d hd => nomatch hd
  | cons d ds ih => exact List.forall_mem_cons.2 ⟨h.1.trimmed, ih h.2⟩

theorem reads_declsChars (h : l.Readable) {ds : List Decl} (fit : DeclsFit l (d :: ds) ('}' :: t)) :
    ∃ ns, Reads (decl.opt ++ (separator ';' ++ decl.opt).star) (declsChars l d ds) ('}' :: t) ns ∧
      ns.filter (·.tag == "decl") = (d :: ds).map (declNode l) := by
  induction ds generalizing d with
  | nil =>
    obtain ⟨ns, rest, none⟩ := reads_tail h t
    obtain ⟨c, u, same, stop⟩ := tail_append h t
    have first : Reads decl.opt (d.format l).toList (l.tail ++ '}' :: t) [declNode l d] := by
      have here : d.Fits (l.tail ++ '}' :: t) := fit.1
      rw [same] at here ⊢
      exact (reads_decl here stop).first _
    refine ⟨declNode l d :: ns, first.append rest, ?_⟩
    rw [List.filter_cons_of_pos rfl, none]
    rfl
  | cons e ds ih =>
    obtain ⟨here, others⟩ : d.Fits (';' :: l.lead ++ declsChars l e ds ++ '}' :: t) ∧
      DeclsFit l (e :: ds) ('}' :: t) := fit
    obtain ⟨ns, read, found⟩ := ih others
    have apart : Reads (separator ';') (';' :: l.lead) (declsChars l e ds ++ '}' :: t)
        (gapNodes l.lead) :=
      reads_separator rfl (by decide) (Layout.isSpace_lead h)
        (gap_declsChars others.1.property ds _)
    have rest := apart.separated (List.cons_ne_nil _ _) read keeps_decl.opt
    have first : Reads decl.opt (d.format l).toList
        (';' :: l.lead ++ declsChars l e ds ++ '}' :: t) [declNode l d] :=
      (reads_decl here (Or.inl rfl)).first _
    refine ⟨declNode l d :: (gapNodes l.lead ++ ns), first.append rest, ?_⟩
    rw [List.filter_cons_of_pos rfl, List.filter_append, filter_gapNodes, found]
    rfl

def blockChars (l : Layout) (ds : List Decl) : List Char := (l.block (ds.map (Decl.format l))).toList

theorem intercalate_declsChars (l : Layout) (d : Decl) (ds : List Decl) :
    (';' :: l.newline).intercalate
        ((d :: ds).map fun e => l.indentation ++ (e.format l).toList) ++ l.tail =
      l.indentation ++ declsChars l d ds := by
  induction ds generalizing d with
  | nil => simp [declsChars_nil]
  | cons e ds ih =>
    have rest := ih e
    rw [List.map_cons] at rest
    rw [List.map_cons, List.map_cons, List.intercalate_cons_cons, List.append_assoc, rest]
    simp [declsChars_cons, Layout.lead]

theorem toList_newline (l : Layout) : (if l.blockIndent then "\n" else "").toList = l.newline := by
  unfold Layout.newline
  split <;> rfl

theorem toList_indentation (l : Layout) :
    (if l.blockIndent then l.indent else "").toList = l.indentation := by
  unfold Layout.indentation
  split <;> rfl

theorem toList_tail (l : Layout) :
    (if l.lastSemicolon && !l.minify then ";" else "").toList ++ l.newline = l.tail := by
  unfold Layout.tail
  split <;> rfl

theorem blockChars_nil (l : Layout) : blockChars l [] = '{' :: (l.newline ++ ['}']) := by
  simp [blockChars, Layout.block, toList_newline]

theorem blockChars_cons (l : Layout) (d : Decl) (ds : List Decl) :
    blockChars l (d :: ds) = '{' :: (l.lead ++ (declsChars l d ds ++ ['}'])) := by
  have some : ((d :: ds).map (Decl.format l)).isEmpty = false := rfl
  have elements : (((d :: ds).map (Decl.format l)).map
      ((if l.blockIndent then l.indent else "") ++ ·)).map String.toList =
        (d :: ds).map fun e => l.indentation ++ (e.format l).toList := by
    simp [toList_indentation]
  have apart : (";" ++ if l.blockIndent then "\n" else "").toList = ';' :: l.newline := by
    simp [toList_newline]
  have inner := intercalate_declsChars l d ds
  rw [← toList_tail, ← List.append_assoc] at inner
  simp only [blockChars, Layout.block, some, Bool.false_eq_true, if_false, String.toList_append,
    String.toList_intercalate, elements, apart, toList_newline, inner]
  simp [Layout.lead]

theorem blockChars_head (l : Layout) (ds : List Decl) : ∃ u, blockChars l ds = '{' :: u := by
  cases ds with
  | nil => exact ⟨_, blockChars_nil l⟩
  | cons d ds => exact ⟨_, blockChars_cons l d ds⟩

theorem blockChars_last (l : Layout) (ds : List Decl) : ∃ u, blockChars l ds = u ++ ['}'] := by
  cases ds with
  | nil => exact ⟨'{' :: l.newline, blockChars_nil l⟩
  | cons d ds =>
    refine ⟨'{' :: (l.lead ++ declsChars l d ds), ?_⟩
    rw [blockChars_cons]
    simp

/-- The nodes are read as the declarations, positions apart. -/
def SayDecls (ns : List Node) (ds : List Decl) : Prop :=
  ∀ o, ∃ ds', ns.mapM (Decl.ofNode o) = .ok ds' ∧ ds'.map Decl.unplaced = ds.map Decl.unplaced

def HoldsDecls (ds : List Decl) (n : Node) : Prop :=
  n.tag = "block" ∧ ∃ m, n.find "decls" = some m ∧ SayDecls (m.findAll "decl") ds

theorem declOfNode_declNode (trimmed : Text.trim d.value.toList = d.value.toList) (o : Origin) :
    Decl.ofNode o (declNode l d) =
      .ok { d with position := some (o.position (declNode l d)) } := by
  have children : withoutGaps (declNode l d).children =
      [.mk "property" 0 0 d.property.toList [], .mk "value" 0 0 d.value.toList []] := by
    cases hw : l.valueLead <;> simp [declNode, hw, gapNodes, withoutGaps]
  rw [Decl.ofNode, children]
  simp [trimmed]

theorem sayDecls_declNode {ds : List Decl}
    (trimmed : ∀ d ∈ ds, Text.trim d.value.toList = d.value.toList) :
    SayDecls (ds.map (declNode l)) ds := by
  intro o
  refine ⟨ds.map fun d => { d with position := some (o.position (declNode l d)) }, ?_, ?_⟩
  · induction ds with
    | nil => rfl
    | cons d ds ih =>
      obtain ⟨first, others⟩ := List.forall_mem_cons.1 trimmed
      rw [List.map_cons, List.mapM_cons, declOfNode_declNode first, ih others]
      rfl
  · simp [Decl.unplaced]

theorem reads_braces {w s : List Char} {ns : List Node} (space : ∀ c ∈ w, isSpace c = true)
    (start : gap (s ++ '}' :: t) = none) (list : Reads decls s ('}' :: t) [.mk "decls" 0 0 s ns])
    {ds : List Decl} (found : SayDecls (ns.filter (·.tag == "decl")) ds) :
    ∃ n, Reads block ('{' :: (w ++ (s ++ ['}']))) t [n] ∧ HoldsDecls ds n := by
  have lead := reads_gaps space start
  have gaps : Reads gap.star [] ('}' :: t) [] := reads_star_nil (gap_cons rfl (by decide) t)
  have read := (((((reads_sign '{' _).append lead).append list).append gaps).append
    (reads_sign '}' t)).node "block"
  refine ⟨.mk "block" 0 0 ('{' :: (w ++ (s ++ ['}']))) (gapNodes w ++ [.mk "decls" 0 0 s ns]),
    by simpa [block] using read, rfl, .mk "decls" 0 0 s ns, ?_, found⟩
  cases w <;> simp [Node.find, gapNodes]

theorem reads_block (h : l.Readable) {ds : List Decl} (fit : DeclsFit l ds ('}' :: t)) :
    ∃ n, Reads block (blockChars l ds) t [n] ∧ HoldsDecls ds n := by
  cases ds with
  | nil =>
    have closed : gap ([] ++ '}' :: t) = none := gap_cons rfl (by decide) t
    rw [blockChars_nil]
    exact reads_braces l.isSpace_newline closed ((reads_no_decl t).node "decls")
      fun o => ⟨[], rfl, rfl⟩
  | cons d ds =>
    obtain ⟨ns, list, found⟩ := reads_declsChars h fit
    have start := gap_declsChars (l := l) fit.1.property ds ('}' :: t)
    rw [blockChars_cons]
    exact reads_braces (Layout.isSpace_lead h) start (list.node "decls")
      (found ▸ sayDecls_declNode fit.trimmed)

theorem declsOfNode_of_holds {n b : Node} {ds : List Decl} (found : n.find "block" = some b)
    (holds : HoldsDecls ds b) (o : Origin) :
    ∃ ds', declsOfNode o n = .ok ds' ∧ ds'.map Decl.unplaced = ds.map Decl.unplaced := by
  obtain ⟨-, m, inner, say⟩ := holds
  obtain ⟨ds', read, same⟩ := say o
  refine ⟨ds', ?_, same⟩
  rw [declsOfNode, Node.need, found]
  simp only [bind, Except.bind, inner, read]

end StyleFactor
