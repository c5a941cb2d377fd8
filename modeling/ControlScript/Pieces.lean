/-!
# Pieces of a text

Cutting a text at every occurrence of a character, as for the lines of a source and the parts of a
path.
-/

namespace ControlScript

/-- The pieces of a text between the occurrences of a separator; there is one more piece than there
    are separators. -/
def pieces (separator : Char) (text : List Char) : List (List Char) :=
  text.foldr
    (fun c found =>
      if c = separator then [] :: found
      else
        match found with
        | piece :: others => (c :: piece) :: others
        | [] => [[c]])
    [[]]

/-- The pieces of a string. -/
def stringPieces (separator : Char) (text : String) : List String :=
  (pieces separator text.toList).map .ofList

end ControlScript
