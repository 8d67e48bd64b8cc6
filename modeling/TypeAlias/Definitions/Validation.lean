import TypeAlias.Definitions.Checked
import TypeAlias.Definitions.Document
import TypeAlias.Text.Integer

/-!
# Checking documents

A part of a data document is a definitions document when it has the right members with the right
contents. Members that are not known do not count; a member that is absent takes its default, if it
has one. Types may be nested to a bounded depth, and no type may be part of itself.
-/

namespace TypeAlias.Definitions

open Data

/-- Where a document comes from. In a request, something other than an object is reported in the
same way wherever an object should stand; in a file, the report names the model. -/
inductive Origin where
  | file
  | request
  deriving DecidableEq

namespace Validation

variable {α : Type}

/-! ## Scalars -/

/-- The text that bytes stand for. -/
def textOfBytes? (bytes : List UInt8) : Option String :=
  String.fromUTF8? ⟨bytes.toArray⟩

/-- A text. -/
def text (p : Part) : Checked String :=
  match p.content with
  | .scalar (.str s) => .valid s
  | .scalar (.bytes bs) =>
    match textOfBytes? bs with
    | some s => .valid s
    | none => .fail p .notUnicode
  | _ => .fail p .notString

/-- The name that a text is, found in a part. -/
def nameOf (p : Part) (s : String) : Checked WrittenName :=
  match h : TypeName.parse? s with
  | none => .fail p (.notName s)
  | some n => .valid ⟨s, n, h⟩

/-- The name of an alias that a text is, found in a part. -/
def aliasNameOf (p : Part) (s : String) : Checked WrittenAliasName :=
  match nameOf p s with
  | .invalid is => .invalid is
  | .valid w =>
    if h : w.name.kind = .aliasName then .valid ⟨w, h⟩ else .fail p (.notAliasName s)

/-- The text of a name. -/
def name (p : Part) : Checked WrittenName :=
  match text p with
  | .invalid is => .invalid is
  | .valid s => nameOf p s

/-- The text of the name of an alias. -/
def aliasName (p : Part) : Checked WrittenAliasName :=
  match text p with
  | .invalid is => .invalid is
  | .valid s => aliasNameOf p s

/-- The texts that stand for truth values, in lower case. -/
def boolWords : List (String × Bool) :=
  [("0", false), ("off", false), ("f", false), ("false", false), ("n", false), ("no", false),
    ("1", true), ("on", true), ("t", true), ("true", true), ("y", true), ("yes", true)]

/-- The truth value that a text stands for. -/
def boolOfText? (s : String) : Option Bool :=
  boolWords.lookup (s.map Char.toLower)

/-- The truth value that an integer stands for. -/
def boolOfInt? (i : Int) : Option Bool :=
  if i = 0 then some false else if i = 1 then some true else none

/-- Whether an integer fits into 64 bits with its sign. -/
def fitsWord (i : Int) : Bool :=
  -0x8000000000000000 ≤ i && i < 0x8000000000000000

/-- The truth value that a scalar stands for: itself, or a text or a number in its place. -/
def boolOf : Scalar → Except Problem Bool
  | .bool b => .ok b
  | .int i =>
    if fitsWord i then
      match boolOfInt? i with
      | some b => .ok b
      | none => .error .unclearBool
    else .error .notBool
  | .float x =>
    match x.toInt?.bind boolOfInt? with
    | some b => .ok b
    | none => .error .notBool
  | .str s =>
    match boolOfText? s with
    | some b => .ok b
    | none => .error .unclearBool
  | .bytes bs =>
    match (textOfBytes? bs).bind boolOfText? with
    | some b => .ok b
    | none => .error .unclearBool
  | _ => .error .notBool

/-- A truth value. -/
def bool (p : Part) : Checked Bool :=
  match p.content with
  | .scalar s =>
    match boolOf s with
    | .ok b => .valid b
    | .error problem => .fail p problem
  | _ => .fail p .notBool

/-- Whether every underscore among characters stands between two others. -/
def marksAreInner (cs : List Char) : Bool :=
  !cs.isEmpty && cs.head? ≠ some '_' && cs.getLast? ≠ some '_' &&
    (cs.zip cs.tail).all fun p => !(p.1 = '_' && p.2 = '_')

/-- The integer that a text stands for. Zeros may follow its point; in front of its digits there may
be other zeros unless it has a minus sign. -/
def integerOfText? (s : String) : Option Int :=
  let cs := Text.withoutPadding s.toList
  let (negative, unsigned) := Text.splitSign cs
  let (whole, fraction) := unsigned.span (· ≠ '.')
  let digits := whole.filter (· ≠ '_')
  if fraction.tail.all (· = '0') && marksAreInner whole && digits.all Char.isDigit &&
      !(negative && digits.head? = some '0' && 1 < digits.length) &&
      digits.length ≤ Text.mostDigits then
    let n : Int := Text.digitsValue 10 (digits.filterMap (Text.digitBelow? 10))
    some (if negative then -n else n)
  else none

/-- The check that fails as a truth value, as an integer and as a text. -/
def noLiteral (p : Part) (asBool asInt asText : Problem) : Checked α :=
  .invalid
    [⟨[.member "bool"], asBool, p⟩, ⟨[.member "int"], asInt, p⟩, ⟨[.member "str"], asText, p⟩]

/-- The value of a literal type. A number counts as the truth value or else the integer it equals,
if that fits into 64 bits, and bytes as what their text stands for. -/
def literal (p : Part) : Checked Literal :=
  let notOf (reason : Problem) : Checked Literal := noLiteral p .notBool reason .notString
  match p.content with
  | .scalar (.bool b) => .valid (.bool b)
  | .scalar (.int i) => .valid (.int i)
  | .scalar (.str s) => .valid (.str s)
  | .scalar (.bytes bs) =>
    match textOfBytes? bs with
    | none => noLiteral p .unclearBool .unclearInt .notUnicode
    | some s =>
      match boolOfText? s, integerOfText? s with
      | some b, _ => .valid (.bool b)
      | none, some i => .valid (.int i)
      | none, none => .valid (.str s)
  | .scalar (.float .nan) | .scalar (.float (.infinite _)) => notOf .notFinite
  | .scalar (.float x) =>
    match x.toInt? with
    | none => notOf .fractional
    | some i =>
      match boolOfInt? i with
      | some b => .valid (.bool b)
      | none => if i.natAbs < 0x8000000000000000 then .valid (.int i) else notOf .tooLarge
  | _ => notOf .notInt

/-! ## Lists and mappings -/

/-- Checks every item of a list at its position. -/
def items (check : Part → Checked α) (ps : List Part) (start : Nat) : List (Checked α) :=
  ps.mapIdx fun i p => (check p).inPlace (.item (i + start : Nat))

/-- The items of a part that can stand for a list. -/
def items? : Content Part → Option (List Part)
  | .list ps | .set ps => some ps
  | .pair first second => some [first, second]
  | .scalar _ | .map _ => none

/-- A list. -/
def listOf (check : Part → Checked α) (p : Part) : Checked (List α) :=
  match items? p.content with
  | some ps => .all (items check ps 0)
  | none => .fail p .notList

/-- A list that is not empty: its first item and the others. -/
def listOfSome (check : Part → Checked α) (p : Part) : Checked (α × List α) :=
  match items? p.content with
  | some [] => .fail p .tooShort
  | some (first :: others) =>
    Prod.mk <$> (check first).inPlace (.item 0) <*> .all (items check others 1)
  | none => .fail p .notList

/-- Either what is checked or nothing. -/
def nullable (check : Part → Checked α) (p : Part) : Checked (Option α) :=
  match p.content with
  | .scalar .null => .valid none
  | _ => some <$> check p

/-- The place of the value of a key. -/
def keyPlace : Scalar → Place
  | .str s => .member s
  | .bool b => .item (if b then 1 else 0)
  | .int i => if fitsWord i then .item i else .member (toString i)
  | k => .member k.shown

/-- A key, which must be a text. -/
def key (k : Scalar) : Checked String :=
  (text (.ofScalar k)).atMember "[key]"

/-- A mapping from texts; keys with the same text are one key. -/
def mappingOf (check : Part → Checked α) (p : Part) : Checked (List (String × α)) :=
  match p.content with
  | .map es =>
    let entries := es.map fun (k, v) => (Prod.mk <$> key k <*> check v).inPlace (keyPlace k)
    (fun es => (Table.ofList es).entries) <$> Checked.all entries
  | _ => .fail p .notMapping

/-! ## Objects -/

/-- A mapping with members. -/
structure Object where
  whole : Part
  entries : Entries Part

/-- A member that must be there. -/
def member (o : Object) (name : String) (check : Part → Checked α) : Checked α :=
  match o.entries.member? name with
  | none => (Checked.fail o.whole .missing).atMember name
  | some p => (check p).atMember name

/-- A member with a default. -/
def memberOr (o : Object) (name : String) (absent : α) (check : Part → Checked α) : Checked α :=
  match o.entries.member? name with
  | none => .valid absent
  | some p => (check p).atMember name

/-- An object with the members of a model. -/
def object (origin : Origin) (model : String) (check : Object → Checked α) (p : Part) :
    Checked α :=
  match p.content with
  | .map entries => check { whole := p, entries }
  | _ => .fail p (if origin = .file then .notModel model else .notObject)

/-! ## Types -/

/-- The kinds of types, as documents call them. -/
def kinds : List String :=
  ["base", "variable", "literal", "class_singleton", "class_instance", "interface", "alias",
    "union", "intersection", "optional", "tuple", "record", "function", "block", "proc"]

/-- A signature as documents write it. -/
abbrev SignatureNode := Signature TypeNode (Option TypeNode)

/-- A block as documents write it. -/
abbrev BlockNode := Block TypeNode (Option TypeNode)

/-- The checks of the types that are members of a type. -/
structure TypeChecks where
  /-- A type of any kind. -/
  type : Part → Checked TypeNode
  /-- A function where nothing else can stand. -/
  function : Part → Checked SignatureNode
  /-- A block where nothing else can stand. -/
  block : Part → Checked BlockNode

/-- The kind of a type where only one kind can stand; it may be left out. -/
def fixedKind (o : Object) (kind : String) : Checked Unit :=
  memberOr o "kind" () fun p =>
    match p.content with
    | .scalar (.str s) => if s = kind then .valid () else .fail p (.notLiteral kind)
    | _ => .fail p (.notLiteral kind)

/-- The members of a function. -/
def signature (type : Part → Checked TypeNode) (o : Object) : Checked SignatureNode :=
  (fun _ required optional rest keywords returns =>
      { required, optional, rest, keywords, returns }) <$>
    fixedKind o "function" <*>
    memberOr o "required" [] (listOf type) <*>
    memberOr o "optional" [] (listOf type) <*>
    memberOr o "rest" none (nullable type) <*>
    memberOr o "keywords" [] (mappingOf type) <*>
    memberOr o "return_type" none (nullable type)

/-- The members of a block. -/
def block (function : Part → Checked SignatureNode) (o : Object) : Checked BlockNode :=
  (fun _ signature required => { signature, required }) <$>
    fixedKind o "block" <*>
    member o "function" function <*>
    memberOr o "required" true bool

/-- The members of a type of a given kind. -/
def typeOfKind (checks : TypeChecks) (o : Object) (kind : String) : Checked TypeNode :=
  let type := checks.type
  match kind with
  | "base" => .base <$> member o "name" text
  | "variable" => .parameter <$> member o "name" text
  | "literal" => .literal <$> member o "value" literal
  | "class_singleton" => .classSingleton <$> member o "name" name
  | "class_instance" =>
    .classInstance <$> member o "name" name <*> memberOr o "args" [] (listOf type)
  | "interface" => .interface <$> member o "name" name <*> memberOr o "args" [] (listOf type)
  | "alias" =>
    .aliasInstance <$> member o "name" aliasName <*> memberOr o "args" [] (listOf type)
  | "union" => (fun ts => .union ts.1 ts.2) <$> member o "types" (listOfSome type)
  | "intersection" => (fun ts => .intersection ts.1 ts.2) <$> member o "types" (listOfSome type)
  | "optional" => .optional <$> member o "type" type
  | "tuple" => .tuple <$> memberOr o "types" [] (listOf type)
  | "record" => .record <$> memberOr o "fields" [] (mappingOf type)
  | "function" => .function <$> signature type o
  | "block" => .block <$> block checks.function o
  | "proc" =>
    .proc <$> member o "function" checks.function <*>
      memberOr o "block" none (nullable checks.block)
  | _ => .fail o.whole (.unknownKind kind kinds)

/-- The kinds of the types around a part that are being checked, with the numbers of their parts. -/
abbrev Around := List (Nat × String)

mutual

/-- A type inside of others, when a given number of types can still be nested. -/
def typeIn (origin : Origin) (room : Nat) (around : Around) (p : Part) : Checked TypeNode :=
  match p.content with
  | .map entries =>
    match Entries.member? entries "kind" with
    | none => .fail p .noKind
    | some kind =>
      match kind.content with
      | .scalar (.str tag) =>
        if kinds.contains tag then
          Checked.atMember tag <|
            if around.contains (p.number, tag) then .fail p .cyclic
            else
              match room with
              | 0 => .fail p .tooDeep
              | room + 1 =>
                let around := (p.number, tag) :: around
                let checks : TypeChecks := {
                  type := typeIn origin room around
                  function := functionIn origin room around
                  block := blockIn origin room around }
                typeOfKind checks { whole := p, entries } tag
        else .fail p (.unknownKind tag kinds)
      | _ => .fail p (.unknownKind kind.text kinds)
  | _ => .fail p .notObject

/-- A function in a fixed position inside of types. -/
def functionIn (origin : Origin) (room : Nat) (around : Around) (p : Part) :
    Checked SignatureNode :=
  if around.contains (p.number, "function") then .fail p .cyclic
  else
    match room with
    | 0 => .fail p .tooDeep
    | room + 1 =>
      object origin "FunctionNode"
        (signature (typeIn origin room ((p.number, "function") :: around))) p

/-- A block in a fixed position inside of types. -/
def blockIn (origin : Origin) (room : Nat) (around : Around) (p : Part) : Checked BlockNode :=
  if around.contains (p.number, "block") then .fail p .cyclic
  else
    match room with
    | 0 => .fail p .tooDeep
    | room + 1 =>
      object origin "BlockNode"
        (block (functionIn origin room ((p.number, "block") :: around))) p

end

/-- How deep types may be nested. -/
def mostLevels : Nat :=
  255

/-- A type. -/
def type (origin : Origin) (p : Part) : Checked TypeNode :=
  typeIn origin mostLevels [] p

/-! ## Documents -/

/-- The members of a module alias. -/
def moduleEntry (o : Object) : Checked ModuleEntry :=
  ModuleEntry.mk <$> member o "name" name <*> member o "target" name

/-- The members of an alias. -/
def aliasEntry (origin : Origin) (o : Object) : Checked AliasEntry :=
  AliasEntry.mk <$> member o "name" aliasName <*>
    memberOr o "type_params" [] (listOf text) <*>
    member o "type" (type origin)

/-- The members of a document. -/
def documentMembers (origin : Origin) (o : Object) : Checked Document :=
  Document.mk <$>
    memberOr o "module_aliases" [] (listOf (object origin "ModuleAliasEntry" moduleEntry)) <*>
    memberOr o "aliases" [] (listOf (object origin "AliasEntry" (aliasEntry origin)))

/-- A document; nothing at all counts as an empty one. -/
def document (p : Part) : Checked Document :=
  match p.content with
  | .scalar .null => .valid {}
  | _ => object .file "DefinitionsDocument" (documentMembers .file) p

end Validation

/-- What is said of a document with the given issues. -/
def issuesMessage (issues : List Issue) : String :=
  toString issues.length ++ " validation error" ++
    (if issues.length = 1 then "" else "s") ++ " for DefinitionsDocument"

/-- The document that a part is, or everything that is wrong with it. -/
def Document.ofPart (p : Part) : Except (List Issue) Document :=
  (Validation.document p).toExcept

end TypeAlias.Definitions
