import Haml.Text.Basic

/-!
# ERB tags

The tags of the target notation: code between delimiters, with one blank on either side.
-/

namespace Haml.Erb

/-- Writes the value of the code, escaped for HTML. -/
def output (code : Text) : Text := "<%= ".toList ++ code ++ " %>".toList

/-- Writes the value of the code as it is. -/
def unescapedOutput (code : Text) : Text := "<%== ".toList ++ code ++ " %>".toList

/-- Runs the code and writes nothing. -/
def statement (code : Text) : Text := "<% ".toList ++ code ++ " %>".toList

/-- A comment, which leaves nothing in the page. -/
def comment (remark : Text) : Text := "<%# ".toList ++ remark ++ " %>".toList

/-- Ends a block that a statement or an output has opened. -/
def endMarker : Text := statement "end".toList

end Haml.Erb
