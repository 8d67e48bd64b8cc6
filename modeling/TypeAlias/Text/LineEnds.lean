/-!
# Line ends

Lines may end in a line feed, a carriage return, or both; a text is read as if all ended in a line
feed.
-/

namespace TypeAlias.Text

/-- A text with a line feed in the place of each carriage return and of what belongs to it. -/
def unifyLineEnds : List Char → List Char
  | [] => []
  | '\r' :: '\n' :: rest => '\n' :: unifyLineEnds rest
  | c :: rest => (if c = '\r' then '\n' else c) :: unifyLineEnds rest

end TypeAlias.Text
