import StyleFactor.Outcomes
import StyleFactor.Layout.Print
import StyleFactor.Layout.Settings
import StyleFactor.Draft.Basic

/-!
Unchecked entries as text. They are written like checked ones as long as every text that is needed
is there; the first that is not is the fault. Main statement: a sheet is written as the document it
is, and never refused, if the indentation is a text wherever it has to be written
(`format_toDocument`).
-/
namespace StyleFactor

/-- A declaration in a block. A text in its place is a template. -/
def Value.formatDecl (l : Layout) : Value → Except Fault String
  | .decl p v _ => return l.declaration (← p.needText) (← v.needText)
  | .text s => (Text.fill s.toList).map String.ofList |>.mapError Fault.template
  | _ => .error .notFormattable

/-- A declaration for a line of its own, if declarations have them; there the indentation has to be
a text. -/
def Value.formatLine (s : Settings) (d : Value) : Except Fault String := do
  let text ← d.formatDecl s.layout
  if s.layout.blockIndent then
    let _ ← s.indent.needText
  return text

/-- The declarations of a block. Whatever counts as nothing is an empty block. -/
def Value.formatDecls (s : Settings) (ds : Value) : Except Fault (List String) :=
  if ds.isNothing then .ok [] else do (← ds.items).mapM (Value.formatLine s)

def Draft.format (s : Settings) : Draft → Except Fault String
  | .rule ss ds _ => do
    let selectors ← (← ss.items).mapM Value.needText
    return s.layout.rule selectors (← ds.formatDecls s)
  | .fontFace ds _ => return s.layout.fontFace (← ds.formatDecls s)
  | .atRule a => return s.layout.atRule a
  | .comment c => return s.layout.comment c.text
  | .whitespace t => return s.layout.whitespace t
  | .bare _ _ _ => .error .notFormattable

def Document.formatDecls (s : Settings) (d : Document) : Except Fault (List String) := do
  let blocks ← (d.entries.filterMap Draft.declarations?).mapM fun ds => do
    (← ds.items).mapM (Value.formatDecl s.layout)
  return blocks.flatten

def Document.formatEntries (s : Settings) (d : Document) : Except Fault (List String) :=
  d.entries.mapM (Draft.format s)

def Document.format (s : Settings) (d : Document) : Except Fault String :=
  (d.formatEntries s).map Layout.sheet

theorem needText_eq_ok {v : Value} (h : v.text?.isSome) : ∃ t, v.needText = .ok t := by
  cases v with
  | text t => exact ⟨t, rfl⟩
  | _ => simp [Value.text?] at h

section

variable {s : Settings} (h : s.layout.blockIndent = true → s.indent.text?.isSome)
include h

theorem formatLine_toValue (d : Decl) : d.toValue.formatLine s = .ok (d.format s.layout) := by
  unfold Value.formatLine
  split
  · next indented =>
    obtain ⟨t, ht⟩ := needText_eq_ok (h indented)
    rw [ht]
    rfl
  · rfl

theorem formatDecls_toValue (ds : List Decl) :
    (Value.list (ds.map Decl.toValue)).formatDecls s = .ok (ds.map (Decl.format s.layout)) := by
  cases ds with
  | nil => rfl
  | cons d ds => exact mapM_map_ok fun d _ => formatLine_toValue h d

theorem format_toDraft (e : Entry) : e.toDraft.format s = .ok (e.format s.layout) := by
  cases e with
  | rule r =>
    have each : ∀ t ∈ r.selectors, (Value.text t).needText = .ok (id t) := fun _ _ => rfl
    have this := mapM_map_ok each
    rw [List.map_id] at this
    simp only [Entry.toDraft, Draft.format, Value.items, formatDecls_toValue h]
    exact congrArg (fun ss => ss >>= fun ss =>
      Except.ok (s.layout.rule ss (r.declarations.map (Decl.format s.layout)))) this
  | fontFace f => simp only [Entry.toDraft, Draft.format, formatDecls_toValue h]; rfl
  | atRule a => rfl
  | comment c => rfl
  | whitespace t => rfl

theorem format_toDocument (d : Sheet) : d.toDocument.format s = .ok (d.format s.layout) :=
  congrArg (Except.map Layout.sheet) (mapM_map_ok fun e _ => format_toDraft h e)

end

theorem format_toDocument_toSettings (l : Layout) (d : Sheet) :
    d.toDocument.format l.toSettings = .ok (d.format l) := by
  have this := format_toDocument (s := l.toSettings) (fun _ => rfl) d
  rwa [Settings.layout_toSettings] at this

end StyleFactor
