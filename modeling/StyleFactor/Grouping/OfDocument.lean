import StyleFactor.Log
import StyleFactor.Grouping.OfDraft

/-!
The groupings of a document: one for each rule that resolves to any declarations. A strict
extraction ends with the first malformed rule, a lenient one skips it with a warning; an entry that
cannot even be looked at ends both.
-/
namespace StyleFactor

def groupingsFrom (strict : Bool) : List Draft → Logged (Except Refusal (List (Grouping String)))
  | [] => pure (.ok [])
  | d :: ds =>
    if !d.isType "rule" then groupingsFrom strict ds
    else
      match Grouping.ofDraft d with
      | .ok g =>
        if g.declarations.isEmpty then do
          .event .debug ("dropping empty rule " ++ displayTexts g.selectors)
          groupingsFrom strict ds
        else do
          let rest ← groupingsFrom strict ds
          return rest.map (g :: ·)
      | .error (.malformed m) =>
        if strict then pure (.error (.malformed m))
        else do
          .event .warning ("skipping malformed rule at " ++ displayPosition d.position ++ ": " ++
            m.message)
          groupingsFrom strict ds
      | .error (.fault f) => pure (.error (.fault f))

def Document.groupings (strict : Bool) (d : Document) :
    Logged (Except Refusal (List (Grouping String))) :=
  groupingsFrom strict d.rules

end StyleFactor
