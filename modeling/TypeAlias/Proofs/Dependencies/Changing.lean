import TypeAlias.Session
import TypeAlias.Proofs.Dependencies.Queries
import TypeAlias.Proofs.Dependencies.StrictAccess
import TypeAlias.Proofs.Environment.Registration

/-!
# Answers that are kept in an environment that changes

What has been learnt is kept while the environment changes, so what was read before may no longer be
what an alias is defined as, and a name that it led to may no longer be declared; then a question
has no answer. All the same what is kept agrees with the definitions as they were read, and nothing
in it ever changes.
-/

namespace TypeAlias

/-- What can happen in a session. A question proceeds by reading and closing aliases one by one; so
that it may be left at any point, each of these can also happen by itself. -/
inductive Event where
  /-- Something is registered, or refused. -/
  | register (r : Registration)
  /-- Something is asked, and is answered or not. -/
  | ask (q : Question)
  /-- The definition of an alias is read. -/
  | read (name : TypeName)
  /-- An alias is closed. -/
  | close (name : TypeName)

namespace Session

/-- A session in which nothing has happened. -/
def initial (guarded : Bool) : Session where
  deps := { guarded }

/-- The session after an event. -/
def next (s : Session) : Event → Session
  | .register r => (s.register r).2
  | .ask q => (s.ask fun env => q.ask env).2
  | .read name => { s with deps := (s.deps.readDirect s.env name).2 }
  | .close name => { s with deps := (s.deps.readReached s.env name).2 }

/-- The session after some events. -/
def after (s : Session) (events : List Event) : Session :=
  events.foldl next s

end Session

namespace Dependencies

variable {d d₀ : Dependencies} {env : Environment}

/-- The closure that is kept of an alias agrees with the definitions that have been read. -/
structure Agrees (d : Dependencies) (n : TypeName) (closure : Table TypeName Bool) : Prop where
  read : n ∈ d.direct.keys
  /-- It holds what the alias leads to by one or more direct dependencies. -/
  reached : ∀ m, m ∈ closure.keys ↔ d.cached.LeadsTo n m
  closed : ∀ m ∈ closure.keys, m ∈ d.reached.keys
  /-- What leads back is marked. -/
  marked : ∀ m mark, closure.get? m = some mark →
    (mark = true ↔ d.cached.LeadsTo n m ∧ d.cached.LeadsTo m n)
  /-- A cycle is kept of the alias when it leads to itself. -/
  circular : n ∈ d.cycles.keys ↔ n ∈ closure.keys

theorem Invariant.agrees (h : Invariant d) {n : TypeName} {closure : Table TypeName Bool}
    (hn : d.reached.get? n = some closure) : Agrees d n closure := by
  have hmem : n ∈ d.reached.keys := Table.mem_keys_iff_get?.mpr ⟨closure, hn⟩
  constructor
  case read => exact h.read n hmem
  case reached => exact h.closure n closure hn
  case closed => exact fun m hm => h.mem_reached hmem ((h.closure n closure hn m).mp hm)
  case marked =>
    intro m mark hm
    rw [← h.flag n closure hn m, hm]
    exact Option.some_inj.symm
  case circular =>
    rw [h.circular, h.closure n closure hn]
    exact and_iff_right hmem

/-- What is kept is in order, and what was kept before is still there. -/
structure Kept (d₀ d : Dependencies) : Prop where
  invariant : Invariant d
  matched : d.Matched
  within : d₀.Within d

theorem Kept.initial (guarded : Bool) :
    Kept { guarded := guarded } { guarded := guarded } :=
  ⟨Invariant.initial guarded, fun _ => Iff.rfl, Within.refl _⟩

theorem Kept.self (h : Kept d₀ d) : Kept d d :=
  ⟨h.invariant, h.matched, Within.refl d⟩

/-- Nothing that a question does disturbs what is kept. -/
theorem Kept.stable (he : env.WellKeyed) (d₀ : Dependencies) : Stable env (Kept d₀) := by
  constructor
  · intro d notice h
    constructor
    · exact h.invariant.grows (grows_tell d notice)
    · exact h.matched.congr rfl rfl
    · exact h.within.trans (within_tell d notice)
  · intro d name h
    constructor
    · exact h.invariant.grows (grows_readDirect env d name)
    · exact h.matched.readDirect he name
    · exact h.within.trans (within_readDirect he h.matched name)
  · intro d name h
    constructor
    · exact (h.invariant.readReached env name).1
    · exact h.matched.readReached he name
    · exact h.within.trans (within_readReached h.invariant he h.matched name)

end Dependencies

namespace Session

open Dependencies

variable {s : Session} {d₀ : Dependencies}

/-- One event. -/
theorem kept_next (he : s.env.Reachable) (h : Kept d₀ s.deps) (event : Event) :
    (s.next event).env.Reachable ∧ Kept d₀ (s.next event).deps := by
  have hs := Kept.stable he.wellKeyed d₀
  cases event with
  | register r => exact ⟨he.register r, h⟩
  | ask q => exact ⟨he, hs.ask q s.deps h⟩
  | read name => exact ⟨he, hs.direct s.deps name h⟩
  | close name => exact ⟨he, hs.reached s.deps name h⟩

/-- Any number of events, in any order. -/
theorem kept_after (he : s.env.Reachable) (h : Kept d₀ s.deps) (events : List Event) :
    (s.after events).env.Reachable ∧ Kept d₀ (s.after events).deps := by
  induction events generalizing s with
  | nil => exact ⟨he, h⟩
  | cons event events ih =>
    obtain ⟨he', h'⟩ := kept_next he h event
    exact ih he' h'

/-- What is kept can be relied on. -/
structure Reliable (s : Session) : Prop where
  agrees : ∀ n closure, s.deps.reached.get? n = some closure → s.deps.Agrees n closure
  /-- What is given as an answer is kept. -/
  answered : ∀ n closure, (s.deps.readReached s.env n).1 = .ok closure →
    (s.deps.readReached s.env n).2.reached.get? n = some closure
  /-- Whatever happens next, no entry changes. -/
  unchanged : ∀ events, s.deps.Within (s.after events).deps
  /-- No lookup misses when a definition is read or an alias is closed, and nothing is written a
  second time. -/
  readDirect : ∀ n, s.deps.readDirectStrict s.env n = .ok (s.deps.readDirect s.env n)
  readReached : ∀ n, s.deps.readReachedStrict s.env n = .ok (s.deps.readReached s.env n)

/-- Whatever has happened in a session, what is kept can be relied on. -/
theorem reliable_after (guarded : Bool) (events : List Event) :
    ((initial guarded).after events).Reliable := by
  obtain ⟨he, h⟩ := kept_after (s := initial guarded) .empty (Kept.initial guarded) events
  constructor
  case agrees => exact fun n closure hn => h.invariant.agrees hn
  case answered => exact fun n => (h.invariant.readReached _ n).2.2.2
  case unchanged => exact fun more => (kept_after he h.self more).2.within
  case readDirect => exact fun n => readDirectStrict_eq he.wellKeyed h.matched n
  case readReached => exact fun n => readReachedStrict_eq h.invariant he.wellKeyed h.matched n

end Session

end TypeAlias
