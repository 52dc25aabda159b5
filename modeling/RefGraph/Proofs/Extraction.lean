import RefGraph.Extraction

/-!
# What the analysis of a file depends on

The analysis of a file depends on its text and on the extension of its path, however that path is
written.

* `Path.extension?_congr`: paths of the same components have the same extension.
* `ofPath?_congr`: paths of the same extension are of files of the same kind.
* `toOption_analyse?_congr`: what is found in a text depends on the extension alone.
-/

namespace RefGraph

variable {p q : Path}

/-- The extension of a path is that of its last component. -/
theorem Path.extension?_congr (h : p.components = q.components) :
    p.extension? = q.extension? := by
  rw [extension?, extension?, fileName?, fileName?, h]

theorem ofPath?_congr (h : p.extension? = q.extension?) :
    SourceKind.ofPath? p = SourceKind.ofPath? q := by
  rw [SourceKind.ofPath?, SourceKind.ofPath?, h]

/-- What is found in a text depends on the extension of the path of its file. -/
theorem toOption_analyse?_congr (h : p.extension? = q.extension?) (text : String)
    (withSymbols : Bool) :
    (analyse? p text withSymbols).toOption = (analyse? q text withSymbols).toOption := by
  have hdialect : Script.Dialect.ofPath? p = Script.Dialect.ofPath? q := by
    rw [Script.Dialect.ofPath?, Script.Dialect.ofPath?, h]
  have hcomments : hasLineComments p = hasLineComments q := by
    rw [hasLineComments, hasLineComments, h]
  unfold analyse?
  rw [ofPath?_congr h, hdialect, hcomments]
  cases SourceKind.ofPath? q with
  | none => rfl
  | some kind =>
    cases kind with
    | style => rfl
    | script => cases (Script.Dialect.ofPath? q).bind fun d => scriptTree? d text.toList <;> rfl

end RefGraph
