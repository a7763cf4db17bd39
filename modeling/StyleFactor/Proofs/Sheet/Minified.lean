import StyleFactor.Draft.Print
import StyleFactor.Grouping.OfDraft
import StyleFactor.Proofs.Grouping.Measure
import StyleFactor.Proofs.Text.Words

/-!
The size of groupings, and the text they are written as when it is kept short. A size counts a
semicolon for every declaration; in the text the last one has none, but two braces stand around
them all, so that each grouping takes one character more than its size. Main statements: the text of
one grouping (`format_toRule_short`), and the length of the text of all (`length_minified`).
-/
namespace StyleFactor

theorem length_intercalate (sep : String) (ss : List String) :
    (sep.intercalate ss).length =
      total (ss.map String.length) + (ss.length - 1) * sep.length := by
  induction ss with
  | nil => simp
  | cons s ss ih =>
    cases ss with
    | nil => simp
    | cons t ss =>
      rw [String.intercalate_cons_cons, String.length_append, String.length_append, ih]
      simp only [List.map_cons, total_cons, List.length_cons, Nat.add_sub_cancel, Nat.add_mul]
      omega

theorem length_join (ss : List String) : (String.join ss).length = total (ss.map String.length) := by
  induction ss with
  | nil => rfl
  | cons s ss ih => rw [String.join_cons, String.length_append, ih, List.map_cons, total_cons]

/-- Where no entry ends with white space, nothing is trimmed from a sheet. -/
theorem sheet_of_solid {ss : List String}
    (solid : ∀ s ∈ ss, ∃ u c, s.toList = u ++ [c] ∧ Text.isBlank c = false) :
    Layout.sheet ss = String.join ss := by
  rcases List.eq_nil_or_concat ss with rfl | ⟨front, last, rfl⟩
  · rfl
  · rw [List.concat_eq_append] at solid ⊢
    obtain ⟨u, c, ending, visible⟩ := solid last (List.mem_append_right _ List.mem_cons_self)
    have whole : (String.join (front ++ [last])).toList =
        (String.join front).toList ++ u ++ [c] := by
      simp [String.join_append, ending]
    have kept : Text.trimEnd (String.join (front ++ [last])).toList =
        (String.join (front ++ [last])).toList := by
      rw [whole]
      exact Text.trimEnd_append_cons visible _ []
    rw [Layout.sheet, kept, String.ofList_toList]

namespace Layout

/-- Written short, with what would be used for an indentation if there was one. -/
def short (indent : String) : Layout := { minified with indent }

variable (indent : String)

theorem selectors_short (ss : List String) : (short indent).selectors ss = ",".intercalate ss := by
  simp only [selectors, space, short, minified, if_true, String.append_empty]
  split
  · next empty => exact (String.isEmpty_iff.1 empty).symm
  · rfl

theorem block_short (decls : List String) :
    (short indent).block decls = "\x7b" ++ ";".intercalate decls ++ "\x7d" := by
  cases decls <;> simp [block, short, minified, String.append_assoc]

end Layout

def Declaration.short (d : Declaration String) : String := d.property ++ ":" ++ d.value

/-- The shortest text of a grouping, in full. -/
theorem format_toRule_short (indent : String) (g : Grouping String) :
    (Entry.rule g.toRule).format (.short indent) =
      ",".intercalate g.selectors ++
        ("\x7b" ++ ";".intercalate (g.declarations.map Declaration.short) ++ "\x7d") := by
  have decls : g.toRule.declarations.map (Decl.format (.short indent)) =
      g.declarations.map Declaration.short := by
    simp [Grouping.toRule, Decl.format, Layout.declaration, Layout.short, Layout.minified,
      Declaration.short]
  have ending : (Layout.short indent).lineBreak = "" := rfl
  rw [Entry.format, Layout.rule, decls, ending, String.append_empty, Layout.selectors_short,
    Layout.block_short]
  rfl

/-- Every declaration is written with its colon, but without its semicolon. -/
theorem total_short (ds : List (Declaration String)) :
    total ((ds.map Declaration.short).map String.length) + ds.length = declarationsSize ds := by
  induction ds with
  | nil => rfl
  | cons d ds ih =>
    have colon : ":".length = 1 := rfl
    simp only [List.map_cons, total_cons, List.length_cons, declarationsSize_cons,
      Declaration.short, Declaration.size, String.length_append, colon, ← ih]
    omega

theorem length_format_toRule (indent : String) {g : Grouping String}
    (declares : g.declarations ≠ []) :
    ((Entry.rule g.toRule).format (.short indent)).length = g.size + 1 := by
  have some : 0 < g.declarations.length := List.length_pos_iff.2 declares
  have decls := total_short g.declarations
  have signs : ",".length = 1 ∧ ";".length = 1 ∧ "\x7b".length = 1 ∧ "\x7d".length = 1 :=
    ⟨rfl, rfl, rfl, rfl⟩
  simp only [format_toRule_short, String.length_append, length_intercalate, signs,
    List.length_map, Grouping.size, Grouping.declarationSize, Grouping.selectorSize]
  omega

theorem length_format_rules (indent : String) {gs : List (Grouping String)} (source : Option String)
    (declares : ∀ g ∈ gs, g.declarations ≠ []) :
    (Sheet.format (.short indent) ⟨gs.map (.rule ·.toRule), source⟩).length =
      totalSize gs + gs.length := by
  have solid : ∀ s ∈ (gs.map (.rule ·.toRule)).map (Entry.format (.short indent)),
      ∃ u c, s.toList = u ++ [c] ∧ Text.isBlank c = false := by
    intro s hs
    rw [List.map_map] at hs
    obtain ⟨g, -, rfl⟩ := List.mem_map.1 hs
    refine ⟨(",".intercalate g.selectors).toList ++
      ("\x7b" ++ ";".intercalate (g.declarations.map Declaration.short)).toList, '}', ?_, by decide⟩
    rw [Function.comp_apply, format_toRule_short]
    simp
  rw [Sheet.format, sheet_of_solid solid, length_join]
  clear solid
  induction gs with
  | nil => rfl
  | cons g gs ih =>
    obtain ⟨first, others⟩ := List.forall_mem_cons.1 declares
    have rest := ih others
    simp only [List.map_cons, total_cons, length_format_toRule indent first, totalSize_cons,
      List.length_cons]
    omega

/-- Written short, groupings that declare something take one character each more than their sizes
say. Whatever else has been set, they are written. -/
theorem length_minified {gs : List (Grouping String)} (declares : ∀ g ∈ gs, g.declarations ≠ [])
    (s : Settings) (source : Option String) :
    ∃ text, (Sheet.toDocument ⟨gs.map (.rule ·.toRule), source⟩).format (Mode.minified.preset s) =
        .ok text ∧
      text.length = totalSize gs + gs.length := by
  have layout : (Mode.minified.preset s).layout = .short (s.indent.text?.getD "") := rfl
  refine ⟨_, format_toDocument (fun indented => ?_) _, ?_⟩
  · rw [layout] at indented
    cases indented
  · rw [layout]
    exact length_format_rules _ source declares

/-- No selectors, empty texts and a value that is set twice, and an indentation that is no text. -/
theorem length_minified_bare :
    let gs : List (Grouping String) :=
      [⟨["a", "b"], [⟨"x", "1"⟩, ⟨"y", ""⟩, ⟨"x", "20"⟩]⟩, ⟨[], [⟨"", ""⟩]⟩, ⟨["", ""], [⟨"z", "0"⟩]⟩]
    let s : Settings := { Layout.canonical.toSettings with indent := .null }
    (∀ g ∈ gs, g.declarations ≠ []) ∧
      ∃ text, (Sheet.toDocument ⟨gs.map (.rule ·.toRule), none⟩).format (Mode.minified.preset s) =
          .ok text ∧
        text.length = totalSize gs + gs.length := by
  intro gs s
  have declares : ∀ g ∈ gs, g.declarations ≠ [] := by decide
  exact ⟨declares, length_minified declares s none⟩

end StyleFactor
