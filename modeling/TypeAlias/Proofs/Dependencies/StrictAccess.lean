import TypeAlias.Proofs.Dependencies.Following
import TypeAlias.Proofs.Environment.Canonical
import TypeAlias.Proofs.Graph.StrictSearch

/-!
# Strict access to what is known

What is known is kept in tables. Reading a definition and closing an alias give the same with strict
access to them as without. So everything that is looked up on the way is there; and as nothing is
written a second time, what is known stays as it is once it has been written.
-/

namespace TypeAlias

namespace Dependencies

variable {env : Environment} {d d' d₀ : Dependencies} {component : List TypeName} {cyclic : Bool}
  {n : TypeName}

/-! ## Strict reading and closing -/

/-- Reads a definition with strict access. -/
def readDirectStrict (env : Environment) (name : TypeName) (d : Dependencies) :
    Except (Fault TypeName) (Except LookupError (List TypeName) × Dependencies) :=
  match d.direct.get? name with
  | some deps => .ok (.ok deps, d)
  | none =>
    match env.aliasDecl name with
    | .error e => .ok (.error e, d)
    | .ok decl => do
      let r := Reading.ofDecl env d.guarded decl
      let direct ← d.direct.writeNew name r.found
      let dangling ← d.dangling.writeNew decl.name r.dangling
      return (.ok r.found, { d.record name decl r with direct, dangling })

/-- Adds a direct dependency of a component, and what that depends on in turn, with strict
access. -/
def spliceInStrict (d : Dependencies) (component : List TypeName) (t : Table TypeName Bool)
    (dep : TypeName) : Except (Fault TypeName) (Table TypeName Bool) :=
  if dep ∈ component then .ok t
  else do
    let closure ← d.reached.fetch dep
    return closure.keys.foldl addReached (addReached t dep)

/-- Everything the members of a component depend on, with strict access. -/
def closureOfStrict (d : Dependencies) (component : List TypeName) (cyclic : Bool) :
    Except (Fault TypeName) (Table TypeName Bool) := do
  let start := if cyclic then component.foldl (fun t m => t.insert m true) ∅ else ∅
  let deps ← component.mapM d.direct.fetch
  deps.flatten.foldlM (d.spliceInStrict component) start

/-- The cycles, with that of a component if it holds one, with strict access. -/
def cyclesStrict (d : Dependencies) (component : List TypeName) (cyclic : Bool) :
    Except (Fault TypeName) (Table TypeName (List TypeName)) :=
  if cyclic then component.foldlM (fun t m => t.writeNew m component) d.cycles else .ok d.cycles

/-- Closes the members of a component with strict access. -/
def closeStrict (d : Dependencies) (component : List TypeName) (cyclic : Bool) :
    Except (Fault TypeName) Dependencies := do
  let closure ← d.closureOfStrict component cyclic
  let cycles ← d.cyclesStrict component cyclic
  let reached ← component.foldlM (fun t m => t.writeNew m closure) d.reached
  return { if cyclic then d.tell (.circular component) else d with cycles, reached }

/-- Follows one moment of a search with strict access. -/
def followStrict (env : Environment) (m : Moment TypeName) (d : Dependencies) :
    Except (Fault TypeName) (Except LookupError Unit × Dependencies) :=
  match m.event with
  | .reached name =>
    if d.reached.contains name then .ok (.ok (), d)
    else do
      let (r, d) ← d.readDirectStrict env name
      return (r.map fun _ => (), d)
  | .emitted component =>
    let d := d.tell (.component component)
    match component.head?, m.state.isCyclic? component with
    | some head, some cyclic =>
      if d.reached.contains head then .ok (.ok (), d)
      else return (.ok (), ← d.closeStrict component cyclic)
    | _, _ => .error .empty

/-- Follows the moments of a search with strict access, until one fails. -/
def followAllStrict (env : Environment) : Trace TypeName → Dependencies →
    Except (Fault TypeName) (Except LookupError Unit × Dependencies)
  | [], d => .ok (.ok (), d)
  | m :: t, d => do
    match ← d.followStrict env m with
    | (.ok _, d) => d.followAllStrict env t
    | (.error e, d) => return (.error e, d)

/-- Everything an alias depends on, with strict access. -/
def readReachedStrict (env : Environment) (name : TypeName) (d : Dependencies) :
    Except (Fault TypeName) (Except LookupError (Table TypeName Bool) × Dependencies) :=
  match d.reached.get? name with
  | some closure => .ok (.ok closure, d)
  | none => do
    let trace ← (d.openGraph env).traceStrict name
    match ← d.followAllStrict env trace with
    | (.error e, d) => return (.error e, d)
    | (.ok _, d) => return (.ok (← d.reached.fetch name), d)

/-! ## What has been written stays -/

/-- Everything that is known is known afterwards, too. -/
structure Within (d d' : Dependencies) : Prop where
  direct : d.direct.Within d'.direct
  dangling : d.dangling.Within d'.dangling
  reached : d.reached.Within d'.reached
  cycles : d.cycles.Within d'.cycles

theorem Within.refl (d : Dependencies) : d.Within d :=
  ⟨.refl _, .refl _, .refl _, .refl _⟩

theorem Within.trans {d₁ d₂ d₃ : Dependencies} (h : d₁.Within d₂) (h' : d₂.Within d₃) :
    d₁.Within d₃ :=
  ⟨h.direct.trans h'.direct, h.dangling.trans h'.dangling, h.reached.trans h'.reached,
    h.cycles.trans h'.cycles⟩

theorem within_tell (d : Dependencies) (notice : Notice) : d.Within (d.tell notice) :=
  ⟨.refl _, .refl _, .refl _, .refl _⟩

theorem within_readDirectStrict {r : Except LookupError (List TypeName)}
    (h : d.readDirectStrict env n = .ok (r, d')) : d.Within d' := by
  unfold readDirectStrict at h
  split at h
  · cases h
    exact Within.refl d
  · split at h
    · cases h
      exact Within.refl d
    · obtain ⟨direct, hdirect, h⟩ := bind_ok h
      obtain ⟨dangling, hdangling, h⟩ := bind_ok h
      cases h
      exact ⟨Table.within_writeNew hdirect, Table.within_writeNew hdangling, .refl _, .refl _⟩

theorem within_closeStrict (h : d.closeStrict component cyclic = .ok d') : d.Within d' := by
  obtain ⟨closure, _, h⟩ := bind_ok h
  obtain ⟨cycles, hcycles, h⟩ := bind_ok h
  obtain ⟨reached, hreached, h⟩ := bind_ok h
  have hc : d.cycles.Within cycles := by
    cases cyclic with
    | false =>
      cases hcycles
      exact .refl _
    | true => exact Table.within_foldlM_writeNew hcycles
  have hr := Table.within_foldlM_writeNew hreached
  cases cyclic <;> cases h <;> exact ⟨.refl _, .refl _, hr, hc⟩

theorem within_followStrict {m : Moment TypeName} {r : Except LookupError Unit}
    (h : d.followStrict env m = .ok (r, d')) : d.Within d' := by
  unfold followStrict at h
  split at h
  · split at h
    · cases h
      exact Within.refl d
    · obtain ⟨⟨r, d''⟩, hread, h⟩ := bind_ok h
      cases h
      exact within_readDirectStrict hread
  · dsimp only at h
    split at h
    · split at h
      · cases h
        exact within_tell d _
      · obtain ⟨d'', hclose, h⟩ := bind_ok h
        cases h
        exact (within_tell d _).trans (within_closeStrict hclose)
    · cases h

theorem within_followAllStrict {future : Trace TypeName} {r : Except LookupError Unit}
    (h : d.followAllStrict env future = .ok (r, d')) : d.Within d' := by
  induction future generalizing d with
  | nil =>
    cases h
    exact Within.refl _
  | cons moment future ih =>
    obtain ⟨⟨r', d''⟩, hm, h⟩ := bind_ok h
    have hstep := within_followStrict hm
    cases r' with
    | error e =>
      cases h
      exact hstep
    | ok _ => exact hstep.trans (ih h)

theorem within_readReachedStrict {r : Except LookupError (Table TypeName Bool)}
    (h : d.readReachedStrict env n = .ok (r, d')) : d.Within d' := by
  unfold readReachedStrict at h
  split at h
  · cases h
    exact Within.refl d
  · obtain ⟨trace, _, h⟩ := bind_ok h
    obtain ⟨⟨r', d''⟩, hall, h⟩ := bind_ok h
    have hstep := within_followAllStrict hall
    cases r' with
    | error e =>
      cases h
      exact hstep
    | ok _ =>
      obtain ⟨closure, _, h⟩ := bind_ok h
      cases h
      exact hstep

/-! ## There are no faults -/

/-- Of every definition that has been read, what dangles is kept. -/
def Matched (d : Dependencies) : Prop :=
  ∀ n, n ∈ d.dangling.keys ↔ n ∈ d.direct.keys

theorem get?_of_aliasDecl {decl : AliasDecl} (h : env.aliasDecl n = .ok decl) :
    env.aliases.get? n = some decl := by
  unfold Environment.aliasDecl at h
  split at h
  · cases h
  · next hd =>
    cases h
    exact hd

theorem name_of_aliasDecl (he : env.WellKeyed) {decl : AliasDecl} (h : env.aliasDecl n = .ok decl) :
    decl.name = n :=
  (he n decl (get?_of_aliasDecl h)).1

theorem readDirectStrict_eq (he : env.WellKeyed) (hm : d.Matched) (n : TypeName) :
    d.readDirectStrict env n = .ok (d.readDirect env n) := by
  unfold readDirectStrict readDirect
  cases hd : d.direct.get? n with
  | some deps => rfl
  | none =>
    cases ha : env.aliasDecl n with
    | error e => rfl
    | ok decl =>
      have hn : n ∉ d.direct.keys := Table.get?_eq_none_iff.mp hd
      have hn' : decl.name ∉ d.dangling.keys := by
        rw [name_of_aliasDecl he ha, hm]
        exact hn
      dsimp only
      rw [Table.writeNew_of_not_mem hn, Table.writeNew_of_not_mem hn']
      rfl

theorem Matched.readDirect (hm : d.Matched) (he : env.WellKeyed) (n : TypeName) :
    (d.readDirect env n).2.Matched := by
  rcases readDirect_cases env d n with ⟨_, _, hr⟩ | ⟨_, _, _, hr⟩ | ⟨_, decl, ha, hr⟩
  · rw [hr]
    exact hm
  · rw [hr]
    exact hm
  · rw [hr]
    intro m
    show m ∈ (d.dangling.insert decl.name _).keys ↔ m ∈ (d.direct.insert n _).keys
    rw [Table.mem_keys_insert, Table.mem_keys_insert, name_of_aliasDecl he ha, hm]

theorem Matched.congr (hm : d.Matched) (hdirect : d'.direct = d.direct)
    (hdangling : d'.dangling = d.dangling) : d'.Matched := by
  intro n
  rw [hdirect, hdangling]
  exact hm n

theorem Matched.keptByReading (he : env.WellKeyed) : KeptByReading env Matched where
  congr _ _ _ hdirect hdangling hm := hm.congr hdirect hdangling
  read _ n hm := hm.readDirect he n

theorem Matched.follow (hm : d.Matched) (he : env.WellKeyed) (moment : Moment TypeName) :
    (d.follow env moment).2.Matched :=
  (keptByReading he).follow moment hm

theorem Matched.readReached (hm : d.Matched) (he : env.WellKeyed) (n : TypeName) :
    (d.readReached env n).2.Matched :=
  (keptByReading he).readReached n hm

theorem spliceInStrict_eq {dep : TypeName} (h : dep ∈ component ∨ dep ∈ d.reached.keys)
    (t : Table TypeName Bool) :
    d.spliceInStrict component t dep = .ok (d.spliceIn component t dep) := by
  unfold spliceInStrict spliceIn
  split
  · rfl
  · next hdep =>
    obtain ⟨closure, hclosure⟩ := Table.mem_keys_iff_get?.mp (h.resolve_left hdep)
    rw [Table.fetch_of_get? hclosure, hclosure]
    rfl

theorem foldlM_spliceInStrict {deps : List TypeName}
    (h : ∀ dep ∈ deps, dep ∈ component ∨ dep ∈ d.reached.keys) (t : Table TypeName Bool) :
    deps.foldlM (d.spliceInStrict component) t = .ok (deps.foldl (d.spliceIn component) t) := by
  induction deps generalizing t with
  | nil => rfl
  | cons dep deps ih =>
    rw [List.foldlM_cons, List.foldl_cons, spliceInStrict_eq (h dep List.mem_cons_self)]
    exact ih (fun dep' hd => h dep' (List.mem_cons_of_mem _ hd)) _

theorem closureOfStrict_eq (hc : Closable d component cyclic) :
    d.closureOfStrict component cyclic = .ok (d.closureOf component cyclic) := by
  have hdeps : ∀ dep ∈ (component.map fun m => (d.direct.get? m).getD []).flatten,
      dep ∈ component ∨ dep ∈ d.reached.keys := by
    intro dep hdep
    rw [← List.flatMap_def, List.mem_flatMap] at hdep
    obtain ⟨m, hm, hdep⟩ := hdep
    exact hc.onTop.closed m hm dep hdep
  unfold closureOfStrict closureOf
  dsimp only
  rw [Table.mapM_fetch hc.read [], List.flatMap_def]
  exact foldlM_spliceInStrict hdeps _

theorem cyclesStrict_eq (hn : component.Nodup) (h : ∀ n ∈ component, n ∉ d.cycles.keys) :
    d.cyclesStrict component cyclic = .ok (d.close component cyclic).cycles := by
  cases cyclic with
  | false => rfl
  | true => exact Table.foldlM_writeNew hn h component

/-- Closing a component finds everything that it looks up, and it writes nothing a second time. -/
theorem closeStrict_eq (h : Invariant d) (hc : Closable d component cyclic) :
    d.closeStrict component cyclic = .ok (d.close component cyclic) := by
  have hreached : ∀ n ∈ component, n ∉ d.reached.keys := hc.onTop.fresh
  have hcycles : ∀ n ∈ component, n ∉ d.cycles.keys := fun n hn hm =>
    hreached n hn ((h.circular n).mp hm).1
  have hwrite := Table.foldlM_writeNew hc.onTop.nodup hreached (d.closureOf component cyclic)
  rw [closeStrict, closureOfStrict_eq hc, cyclesStrict_eq hc.onTop.nodup hcycles]
  show (component.foldlM (fun t m => Table.writeNew t m (d.closureOf component cyclic)) d.reached
    >>= fun reached => _) = _
  rw [hwrite]
  cases cyclic <;> rfl

namespace Following

variable {past future : Trace TypeName} {starts : List TypeName} {s : SearchState TypeName}

theorem followStrict_emitted (h : Following env d₀ past d)
    (hs : Sound (d₀.openGraph env).toDigraph {} past.reverse)
    (hc : Emission (d₀.openGraph env).toDigraph {} past.reverse component s) :
    d.followStrict env ⟨.emitted component, s⟩ = .ok (d.follow env ⟨.emitted component, s⟩) := by
  obtain ⟨first, rest, rfl⟩ := List.exists_cons_of_ne_nil hc.ne_nil
  obtain ⟨cyclic, hcyclic⟩ := SearchState.exists_isCyclic? (s := s) hc.ne_nil
  have ht := h.tell (.component (first :: rest))
  unfold Dependencies.followStrict
  dsimp only [List.head?_cons]
  rw [hcyclic]
  dsimp only
  by_cases hr : first ∈ d.reached.keys
  · rw [follow_emitted_of_mem hr]
    exact if_pos (Table.contains_iff.mpr hr)
  · have hb : (some cyclic == some true) = cyclic := by cases cyclic <;> rfl
    have hopen := ht.closable hs hc hr
    have hc : ¬ (d.tell (.component (first :: rest))).reached.contains first = true := fun hm =>
      hr (Table.contains_iff.mp hm)
    rw [hcyclic, hb] at hopen
    rw [if_neg hc, closeStrict_eq ht.invariant hopen, follow_emitted hr, hcyclic, hb]
    rfl

/-- One moment of a search is followed without a fault. -/
theorem followStrict (h : Following env d₀ past d) (he : env.WellKeyed) (hm : d.Matched)
    {moment : Moment TypeName} (ht : (d₀.openGraph env).trace starts = past ++ moment :: future) :
    d.followStrict env moment = .ok (d.follow env moment) := by
  obtain ⟨event, s⟩ := moment
  cases event with
  | reached n =>
    by_cases hn : n ∈ d.reached.keys
    · rw [follow_reached_of_mem hn]
      exact if_pos (Table.contains_iff.mpr hn)
    · have hc : ¬ d.reached.contains n = true := fun h => hn (Table.contains_iff.mp h)
      rw [follow_reached hn, Dependencies.followStrict]
      dsimp only
      rw [if_neg hc, readDirectStrict_eq he hm]
      rfl
  | emitted component =>
    have htrace := (d₀.openGraph env).trace?_eq starts
    exact h.followStrict_emitted (Digraph.sound_past htrace ht) (Digraph.emission_trace? htrace ht)

/-- A search is followed without a fault, up to its end or up to a definition that is missing. -/
theorem followAllStrict (h : Following env d₀ past d) (he : env.WellKeyed) (hm : d.Matched)
    (ht : (d₀.openGraph env).trace starts = past ++ future) :
    d.followAllStrict env future = .ok (d.followAll env future) := by
  induction future generalizing past d with
  | nil => rfl
  | cons moment future ih =>
    rw [Dependencies.followAllStrict, h.followStrict he hm ht]
    rcases h.follow ht with ⟨hok, hnext⟩ | ⟨e, herr, -⟩
    · have hrest : (d₀.openGraph env).trace starts = (past ++ [moment]) ++ future := by
        rw [ht, List.append_assoc]
        rfl
      have hstep := ih hnext (hm.follow he moment) hrest
      rw [followAll_cons_ok hok]
      generalize d.follow env moment = r at hok hstep
      obtain ⟨_, d'⟩ := r
      cases hok
      exact hstep
    · rw [followAll_cons_error herr]
      generalize d.follow env moment = r at herr
      obtain ⟨_, d'⟩ := r
      cases herr
      rfl

end Following

/-- No fault occurs when an alias is closed, whether all definitions are found or not. -/
theorem readReachedStrict_eq (h : Invariant d) (he : env.WellKeyed) (hm : d.Matched)
    (n : TypeName) : d.readReachedStrict env n = .ok (d.readReached env n) := by
  have htrace : (d.openGraph env).trace [n] = [] ++ (d.openGraph env).trace [n] := rfl
  have hstrict := (Following.initial h).followAllStrict he hm htrace
  obtain ⟨_, _, _, hkept⟩ := h.readReached env n
  rcases readReached_cases env d n with ⟨t, ht, hr⟩ | ⟨hn, r, d', hall, hr⟩
  · rw [readReachedStrict, ht, hr]
  · rw [hall] at hstrict
    rw [hr] at hkept ⊢
    rw [readReachedStrict, Table.get?_eq_none_iff.mpr hn, FiniteDigraph.traceStrict_eq]
    show (d.followAllStrict env ((d.openGraph env).trace [n]) >>= fun r => _) = _
    rw [hstrict]
    cases r with
    | error e => rfl
    | ok _ =>
      -- The alias itself has been closed when the search has ended.
      show (d'.reached.fetch n >>= fun closure => _) = _
      rw [Table.fetch_of_get? (hkept _ rfl)]
      rfl

/-- Reading a definition changes nothing that is known. -/
theorem within_readDirect (he : env.WellKeyed) (hm : d.Matched) (n : TypeName) :
    d.Within (d.readDirect env n).2 :=
  within_readDirectStrict (readDirectStrict_eq he hm n)

/-- Closing an alias changes nothing that is known. -/
theorem within_readReached (h : Invariant d) (he : env.WellKeyed) (hm : d.Matched)
    (n : TypeName) : d.Within (d.readReached env n).2 :=
  within_readReachedStrict (readReachedStrict_eq h he hm n)

end Dependencies

end TypeAlias
