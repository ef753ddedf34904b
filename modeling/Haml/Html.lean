import Haml.Text.Basic

/-!
# HTML elements

What the page's notation asks of an element: whether it has an end tag, and how that is written.
-/

namespace Haml.Html

/-- The elements without content and without an end tag. -/
def voidElements : List Text :=
  ["area", "base", "br", "col", "embed", "hr", "img", "input", "link", "meta", "param", "source",
    "track", "wbr"].map String.toList

/-- The element of a line that names only classes or ids. -/
def genericElement : Text := "div".toList

/-- Whether an element is void, upper and lower case being alike. -/
def isVoid (name : Text) : Bool := voidElements.contains (name.map Char.toLower)

def endTag (name : Text) : Text := "</".toList ++ name ++ ['>']

end Haml.Html
