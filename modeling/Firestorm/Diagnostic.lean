import Firestorm.Located
import Firestorm.Source

/-!
# Reports of faults

Faults of a source are shown one after another, each with its position, the line it lies on and a
caret below the column, and counted at the end.

## Main definitions

* `Report`, `Report.render`.
-/

namespace Firestorm

/-- The faults found in a source, each with its wording, under a label such as `error`. -/
structure Report where
  label : String
  source : Source
  faults : List (Located String)

namespace Report

/-- The lines that show one fault. -/
def renderFault (report : Report) (fault : Located String) : String :=
  let position := report.source.resolve fault.offset
  let number := toString position.line
  let margin := Text.spaces number.length
  s!"{report.label}: {fault.value}\n --> {position.render}\n{margin} |\n" ++
    s!"{number} | {position.text}\n{margin} | {Text.spaces (position.column - 1).toNat}^\n\n"

/-- The text of a report. -/
def render (report : Report) : String :=
  match report.faults with
  | [] => "No errors were reported\n"
  | faults =>
    let noun := if faults.length = 1 then "error" else "errors"
    String.join (faults.map report.renderFault) ++
      s!"Build failed with {faults.length} {noun}\n"

end Report

end Firestorm
