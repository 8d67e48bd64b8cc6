import TypeAlias.Text.Quoted

/-!
# Styled text

Coloured text is enclosed in escape sequences. Where colours are not wanted they are taken out of
everything that is printed, wherever they come from. What is printed is written in UTF-8, which has
no way to write a lone surrogate: error output shows it by its code, and other output fails.
-/

namespace TypeAlias.CommandLine

/-- A colour of text. -/
inductive Color where
  | red
  | green
  | yellow
  | cyan
  deriving DecidableEq

/-- The code of a colour. -/
def Color.code : Color → String
  | red => "31"
  | green => "32"
  | yellow => "33"
  | cyan => "36"

/-- A text in a colour. -/
def styled (c : Color) (text : String) : String :=
  "\x1b[" ++ c.code ++ "m" ++ text ++ "\x1b[0m"

/-- What follows an escape sequence, of which the first two characters have been read. -/
def afterEscape? : List Char → Option (List Char)
  | [] => none
  | c :: rest =>
    if c.isDigit ∨ c = ';' ∨ c = '?' then afterEscape? rest
    else if c.isAlpha then some rest
    else none

theorem length_afterEscape {cs rest : List Char} (h : afterEscape? cs = some rest) :
    rest.length < cs.length := by
  fun_induction afterEscape? cs with
  | case1 => simp at h
  | case2 c cs _ ih => exact Nat.lt_succ_of_lt (ih h)
  | case3 c cs _ _ =>
    obtain rfl := Option.some.inj h
    exact Nat.lt_succ_self _
  | case4 => simp at h

/-- A text without escape sequences. -/
def withoutEscapes : List Char → List Char
  | [] => []
  | c :: cs =>
    match c, cs with
    | '\x1b', '[' :: inner =>
      match h : afterEscape? inner with
      | some rest =>
        have := length_afterEscape h
        withoutEscapes rest
      | none => '\x1b' :: withoutEscapes ('[' :: inner)
    | c, cs => c :: withoutEscapes cs
termination_by cs => cs.length

/-- A text as it is printed, with or without colours. -/
def printed (color : Bool) (text : String) : String :=
  if color then text else String.ofList (withoutEscapes text.toList)

/-- A text with the code of each lone surrogate in its place. -/
def surrogatesShown (text : String) : String :=
  String.ofList <| text.toList.flatMap fun c =>
    if Text.isStandIn c then '\\' :: 'u' :: Text.hexDigits 4 (Text.codePoint c) else [c]

/-- What is said of a text that cannot be written because of lone surrogates, of which the first
ones are shown or located. -/
def unwritableMessage (text : String) : String :=
  let cs := text.toList
  let start := (cs.takeWhile fun c => !Text.isStandIn c).length
  let which :=
    match (cs.drop start).takeWhile Text.isStandIn with
    | [c] => " '" ++ surrogatesShown (.singleton c) ++ "' in position " ++ toString start
    | run =>
      "s in position " ++ toString start ++ "-" ++ toString (start + run.length - 1)
  "'utf-8' codec can't encode character" ++ which ++ ": surrogates not allowed"

/-- A text with blanks in front of it, so that it has at least a given length. -/
def padLeft (width : Nat) (text : String) : String :=
  String.ofList (List.replicate (width - text.length) ' ') ++ text

end TypeAlias.CommandLine
