import TypeAlias.Proofs.Dependencies.Answers
import TypeAlias.Proofs.Dependencies.Mentions
import TypeAlias.Proofs.Dependencies.StrictAccess

/-!
# What the references in a definition come to

What is found in a definition depends on nothing but what the references in it resolve to. With the
direct dependencies of an alias, what dangles in its definition is kept; in an environment that does
not change, that is what is answered, whatever has been asked before.
-/

namespace TypeAlias

namespace Reading

variable {env env' : Environment} {decl decl' : AliasDecl} {guarded : Bool}

/-- The same has been found. -/
structure Matches (r r' : Reading) : Prop where
  found : r.found = r'.found
  dangling : r.dangling = r'.dangling

/-- The same is found in a definition in which all references resolve to the same. -/
theorem matches_ofDecl (htype : decl.type = decl'.type)
    (ht : ∀ t ∈ decl.type.preorder, ∀ name, t.reference? = some name →
      env.resolve? name decl.context = env'.resolve? name decl'.context) :
    (ofDecl env guarded decl).Matches (ofDecl env' guarded decl') := by
  have hmentions : ∀ m ∈ decl.type.mentions false,
      env.resolve? m.name decl.context = env'.resolve? m.name decl'.context := by
    intro m hm
    have hname : m.name ∈ (decl.type.mentions false).map TypeExpr.Mention.name :=
      List.mem_map_of_mem hm
    rw [TypeExpr.map_name_mentions, List.mem_filterMap] at hname
    obtain ⟨t, htm, hr⟩ := hname
    exact ht t htm m.name hr
  have h := comesFrom_ofDecl env guarded decl
  have h' := comesFrom_ofDecl env' guarded decl'
  rw [← htype] at h'
  constructor
  case found =>
    rw [h.found, h'.found, targets, targets]
    congr 1
    exact List.filterMap_congr fun m hm => hmentions m (List.mem_of_mem_filter hm)
  case dangling =>
    rw [h.dangling, h'.dangling, strays, strays, List.filter_map, List.filter_map]
    congr 1
    apply List.filter_congr
    intro m hm
    exact congrArg Option.isNone (hmentions m hm)

end Reading

/-- The references that dangle in the definition of a declared alias, in order of occurrence. -/
def Environment.danglingOf (env : Environment) (guarded : Bool) (n : TypeName) : List TypeName :=
  match env.aliases.get? n with
  | none => []
  | some decl => (Reading.ofDecl env guarded decl).dangling

namespace Dependencies

variable {env : Environment} {guarded : Bool} {d : Dependencies} {n : TypeName}

theorem KeptByReading.stable {p : Dependencies → Prop} (hp : KeptByReading env p) :
    Stable env p where
  tell _ notice h := hp.tell notice h
  direct := hp.read
  reached _ n h := hp.readReached n h

/-- What is kept as dangling is what dangles in the environment. -/
structure ReadIn (env : Environment) (guarded : Bool) (d : Dependencies) : Prop where
  mode : d.guarded = guarded
  dangling : ∀ n ∈ d.direct.keys, d.dangling.get? n = some (env.danglingOf guarded n)

theorem ReadIn.initial (env : Environment) (guarded : Bool) :
    ReadIn env guarded { guarded := guarded } :=
  ⟨rfl, fun _ hn => absurd hn List.not_mem_nil⟩

theorem ReadIn.readDirect (h : ReadIn env guarded d) (he : env.WellKeyed) (n : TypeName) :
    ReadIn env guarded (d.readDirect env n).2 := by
  rcases readDirect_cases env d n with ⟨_, _, hr⟩ | ⟨_, _, _, hr⟩ | ⟨_, decl, ha, hr⟩
  · rw [hr]
    exact h
  · rw [hr]
    exact h
  · rw [hr]
    refine ⟨h.mode, fun m hm => ?_⟩
    show (d.dangling.insert decl.name (Reading.ofDecl env d.guarded decl).dangling).get? m = _
    rw [name_of_aliasDecl he ha, Table.get?_insert, h.mode]
    split
    · next hmn => rw [hmn, Environment.danglingOf, get?_of_aliasDecl ha]
    · next hmn => exact h.dangling m ((Table.mem_keys_insert.mp hm).resolve_left hmn)

/-- In an environment that does not change, no query makes a difference to what dangles. -/
theorem ReadIn.stable (he : env.WellKeyed) (guarded : Bool) : Stable env (ReadIn env guarded) := by
  apply KeptByReading.stable
  constructor
  · intro d d' hguarded hdirect hdangling h
    refine ⟨hguarded.trans h.mode, fun n hn => ?_⟩
    rw [hdirect] at hn
    rw [hdangling]
    exact h.dangling n hn
  · exact fun d n h => h.readDirect he n

/-- What dangles in the definition of a declared alias is found. -/
theorem ReadIn.danglingReferences (h : ReadIn env guarded d) (he : env.WellKeyed)
    (hn : n ∈ env.aliasNames) :
    ((Query.danglingReferences env n).answer d).1 = .ok (env.danglingOf guarded n) := by
  have hread : (d.readDirect env n).1 = .ok (d.edges env n) := readDirect_ok hn
  have hkept := (h.readDirect he n).dangling n (mem_direct_readDirect hread)
  rw [Query.danglingReferences, Query.answer_canonical (he.normalize hn []), Query.answer_bind,
    Query.directOf, Query.answer_ofLookup, hread]
  show Except.ok (((d.readDirect env n).2.dangling.get? n).getD []) = _
  rw [hkept]
  rfl

/-- What is kept agrees with the environment, also in what dangles. -/
def Known (env : Environment) (guarded : Bool) (d : Dependencies) : Prop :=
  Settled env guarded d ∧ ReadIn env guarded d

theorem Known.initial (env : Environment) (guarded : Bool) :
    Known env guarded { guarded := guarded } :=
  ⟨Settled.initial env guarded, ReadIn.initial env guarded⟩

theorem Known.stable (he : env.WellKeyed) (guarded : Bool) : Stable env (Known env guarded) :=
  (Settled.stable env guarded).and (ReadIn.stable he guarded)

end Dependencies

end TypeAlias
