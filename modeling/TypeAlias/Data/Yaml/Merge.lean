import TypeAlias.Data.Yaml.Node

/-!
# Merging mappings

Under the key `<<` a mapping names others, or a list of others, that are merged into it: their
entries come in front of its own, and those of the last of a list come first. The key `=` is a text
like others in a mapping that stands for itself.
-/

namespace TypeAlias.Data.Yaml

/-- Merging among the nodes of a document, which may be malformed. -/
abbrev Merging (α : Type) := StateT Nodes (Except Fault) α

namespace Merging

/-- The first node that is to be merged into a mapping with some entries, and the other entries. -/
def takeSource? (ns : Nodes) : List (Nat × Nat) → Option (Nat × List (Nat × Nat))
  | [] => none
  | (key, value) :: rest =>
    if ns.kindAt key = .merge then some (value, rest)
    else (takeSource? ns rest).map fun r => (r.1, (key, value) :: r.2)

/-- The node with a number. -/
def nodeAt? (number : Nat) : Merging (Option Node) := do
  return (← get)[number]?

/-- The entries of the mapping with a number. -/
def entriesAt (number : Nat) : Merging (List (Nat × Nat)) := do
  return ((← nodeAt? number).map Node.entries).getD []

/-- Gives the mapping with a number other entries. -/
def setEntries (number : Nat) (entries : List (Nat × Nat)) : Merging Unit :=
  modify fun ns => ns.change number fun n => .mapping n.kind entries

/-- Makes texts of the keys `=` among some entries. -/
def settleKeys (entries : List (Nat × Nat)) : Merging Unit :=
  modify fun ns =>
    entries.foldl (fun ns e =>
      if ns.kindAt e.1 = .value then ns.change e.1 (Node.withKind .str) else ns) ns

mutual

/-- Merges into the mapping with a number what is to be merged into it, behind entries that have
been merged already. -/
def mergeInto : Nat → Nat → List (Nat × Nat) → Merging Unit
  | 0, _, _ => throw .malformed
  | fuel + 1, number, merged => do
    let entries ← entriesAt number
    match takeSource? (← get) entries with
    | some (source, others) =>
      setEntries number others
      let more ← contribution fuel source
      mergeInto fuel number (merged ++ more)
    | none =>
      setEntries number (merged ++ entries)
      settleKeys entries

/-- The entries that a node adds to a mapping. -/
def contribution : Nat → Nat → Merging (List (Nat × Nat))
  | 0, _ => throw .malformed
  | fuel + 1, source => do
    match ← nodeAt? source with
    | some (.mapping _ _) =>
      mergeInto fuel source []
      entriesAt source
    | some (.sequence _ items) =>
      let parts ← items.mapM fun item => do
        match ← nodeAt? item with
        | some (.mapping _ _) =>
          mergeInto fuel item []
          entriesAt item
        | _ => throw .malformed
      return parts.reverse.flatten
    | _ => throw .malformed

end

/-- How many steps it takes to merge: two for each entry that is taken away, and two at the end. -/
def steps (ns : Nodes) : Nat :=
  ns.foldl (fun n node => n + 2 * node.entries.length) 2

/-- The entries of the mapping with a number after merging. -/
def merged (number : Nat) : Merging (List (Nat × Nat)) := do
  let ns ← get
  if (takeSource? ns (← entriesAt number)).isNone then mergeInto 1 number []
  else mergeInto (steps ns) number []
  entriesAt number

end Merging

end TypeAlias.Data.Yaml
