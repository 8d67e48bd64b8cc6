import TypeAlias.Data.Binary64
import TypeAlias.Data.Calendar
import TypeAlias.Text.Quoted

/-!
# Values of data documents

A value is a scalar, a list, or a mapping from scalars to values. A mapping keeps the order in which
its keys came; a repeated key keeps its first place and takes the last value.
-/

namespace TypeAlias.Data

/-- A value without parts. -/
inductive Scalar where
  | null
  | bool (b : Bool)
  | int (i : Int)
  | float (x : Binary64)
  | str (s : String)
  | bytes (bs : List UInt8)
  | date (d : Date)
  | timestamp (t : Timestamp)
  deriving DecidableEq

instance : Inhabited Scalar := ⟨.null⟩

namespace Scalar

/-- The scalar that stands for a key in comparisons: truth values and numbers without a fraction
count as the integers they equal. -/
def asKey : Scalar → Scalar
  | bool b => int (if b then 1 else 0)
  | float x => (x.toInt?.map int).getD (float x)
  | s => s

/-- Whether two scalars are the same key. -/
def sameKey (a b : Scalar) : Bool :=
  a.asKey == b.asKey

/-- How a scalar is shown inside a list or a mapping. -/
def shown : Scalar → String
  | null => "None"
  | bool b => if b then "True" else "False"
  | int i => toString i
  | float x => x.text
  | str s => Text.quoted s
  | bytes bs => Text.quotedBytes bs
  | date d => d.shown
  | timestamp t => t.shown

/-- How a scalar is shown by itself. -/
def text : Scalar → String
  | str s => s
  | date d => d.text
  | timestamp t => t.text
  | s => s.shown

end Scalar

/-- The entries of a mapping. -/
abbrev Entries (α : Type) := List (Scalar × α)

namespace Entries

variable {α : Type}

/-- Writes a value to a key. -/
def write (key : Scalar) (value : α) : Entries α → Entries α
  | [] => [(key, value)]
  | (k, v) :: rest =>
    if k.sameKey key then (k, value) :: rest else (k, v) :: write key value rest

/-- The entries that result from writing some one after the other. -/
def ofList (entries : List (Scalar × α)) : Entries α :=
  entries.foldl (fun es e => write e.1 e.2 es) []

/-- The value of a text key. -/
def member? (entries : Entries α) (key : String) : Option α :=
  (entries.find? fun e => e.1 == .str key).map Prod.snd

end Entries

/-- A value of a data document. -/
inductive Value where
  | scalar (s : Scalar)
  | list (items : List Value)
  | map (entries : List (Scalar × Value))

instance : Inhabited Value := ⟨.scalar .null⟩

namespace Value

/-- A text as a value. -/
def str (s : String) : Value :=
  scalar (.str s)

/-- A natural number as a value. -/
def nat (n : Nat) : Value :=
  scalar (.int n)

/-- A truth value as a value. -/
def bool (b : Bool) : Value :=
  scalar (.bool b)

/-- The value that stands for nothing. -/
def null : Value :=
  scalar .null

/-- Texts as a value. -/
def strs (ss : List String) : Value :=
  list (ss.map str)

/-- A mapping with text keys. -/
def object (members : List (String × Value)) : Value :=
  map (members.map fun m => (.str m.1, m.2))

end Value

end TypeAlias.Data
