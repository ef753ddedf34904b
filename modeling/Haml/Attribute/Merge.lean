import Haml.Text.Basic

/-!
# Merging class and style values

A class value is a set of tokens in the order of their first appearance. A style value is a row of
declarations, each ended by a semicolon. Tags of the page's code may stand in a class value, and
blanks in them separate nothing.
-/

namespace Haml.Attribute

/-! ## Classes -/

/-- The runs of characters between blanks, read on from inside or outside of a code tag. -/
def classRuns : (inTag : Bool) → Text → List Text
  | _, [] => [[]]
  | false, '<' :: '%' :: cs => Text.consHead '<' (Text.consHead '%' (classRuns true cs))
  | true, '%' :: '>' :: cs => Text.consHead '%' (Text.consHead '>' (classRuns false cs))
  | inTag, c :: cs =>
    if !inTag && Text.isAsciiBlank c then [] :: classRuns inTag cs
    else Text.consHead c (classRuns inTag cs)

def classTokens (value : Text) : List Text := (classRuns false value).filter (· != [])

def distinct (tokens : List Text) : List Text :=
  tokens.foldl (fun seen token => if seen.contains token then seen else seen ++ [token]) []

/-- The class value with the tokens of both values, each once. -/
def mergeClass (base additional : Text) : Text :=
  Text.join [' '] (distinct (classTokens base ++ classTokens additional))

/-! ## Styles -/

/-- The style value without blanks around it and, if anything is left, ended by a semicolon. -/
def terminated (style : Text) : Text :=
  let style := Text.trim style
  if style = [] || style.getLast? = some ';' then style else style ++ [';']

/-- The declarations of both values, a space between them. -/
def mergeStyle (base additional : Text) : Text :=
  Text.trim (terminated base ++ ' ' :: terminated additional)

end Haml.Attribute
