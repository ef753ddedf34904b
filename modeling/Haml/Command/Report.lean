import Haml.Conversion
import Haml.Json

/-!
# Reports

A report tells what each template was converted to, as a JSON document.
-/

namespace Haml

def Stats.toJson (stats : Stats) : Json :=
  .object
    [("lines".toList, .number stats.lines),
      ("logical_lines".toList, .number stats.statements),
      ("frames_opened".toList, .number stats.framesOpened),
      ("frames_closed".toList, .number stats.framesClosed),
      ("filters_opened".toList, .number stats.filtersOpened),
      ("passthrough_lines".toList, .number stats.verbatim)]

def Conversion.toMembers (conversion : Conversion) : List (Text × Json) :=
  [("erb".toList, .string conversion.page), ("stats".toList, conversion.stats.toJson)]

def Conversion.toJson (conversion : Conversion) : Json := .object conversion.toMembers

namespace Command

/-- What a run did with one template. -/
structure FileReport where
  source : Text
  output : Text
  written : Bool
  conversion : Conversion
  deriving DecidableEq, Repr

/-- The document of a report whose paths are text. -/
def FileReport.toJson (report : FileReport) : Json :=
  .object
    ([("source".toList, .string report.source), ("output".toList, .string report.output),
      ("written".toList, .boolean report.written)] ++ report.conversion.toMembers)

end Command

end Haml
