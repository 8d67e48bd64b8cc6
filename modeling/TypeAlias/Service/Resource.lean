import TypeAlias.Service.Path

/-!
# Resources

What the paths of the service stand for, and what can be done with it. Who asks for a path with
slashes too many at its end is sent on to the path without them. A line feed at the end does not
count, unless it is part of an identifier.
-/

namespace TypeAlias.Service

/-- A question about all aliases of an environment, or about one. -/
inductive Inquiry where
  | circular
  | deps
  | order
  | components
  deriving DecidableEq

/-- What a path stands for. -/
inductive Resource where
  /-- A page that documents the service. -/
  | page
  | health
  | environments
  | environment (id : String)
  | aliases (id : String)
  | analysis (inquiry : Inquiry)
  deriving DecidableEq

/-- What the service is asked to do. -/
inductive Action where
  | showPage
  | health
  | create
  | describe (id : String)
  | listAliases (id : String)
  | delete (id : String)
  | inquire (inquiry : Inquiry)
  deriving DecidableEq

namespace Resource

/-- The resource with a given path, in segments, if it is not a single environment. -/
def ofFixedSegments? : List String → Option Resource
  | ["", "openapi.json"] | ["", "docs"] | ["", "docs", "oauth2-redirect"] | ["", "redoc"] =>
    some .page
  | ["", "api", "health"] => some .health
  | ["", "api", "environments"] => some .environments
  | ["", "api", "environments", id, "aliases"] => if id = "" then none else some (.aliases id)
  | ["", "api", "analysis", "circular"] => some (.analysis .circular)
  | ["", "api", "analysis", "deps"] => some (.analysis .deps)
  | ["", "api", "analysis", "order"] => some (.analysis .order)
  | ["", "api", "analysis", "components"] => some (.analysis .components)
  | _ => none

/-- The environment with a given path, in segments. -/
def ofEnvironmentSegments? : List String → Option Resource
  | ["", "api", "environments", id] => if id = "" then none else some (.environment id)
  | _ => none

/-- The segments of a path. -/
def segments (path : Path) : List String :=
  (path.splitOn '/').map String.ofList

/-- The resource with a given path. -/
def ofPath? (path : Path) : Option Resource :=
  let whole := if path.getLast? = some '\n' then path.dropLast else path
  ofFixedSegments? (segments whole) <|> ofEnvironmentSegments? (segments path)

/-- How often a request is sent on. -/
def mostRedirects : Nat :=
  20

/-- The resource to which a path leads, when a request for it may be sent on a given number of
times. -/
def find? : Nat → Path → Option Resource
  | 0, path => ofPath? path
  | redirects + 1, path =>
    match ofPath? path with
    | some resource => some resource
    | none =>
      let shorter := path.withoutSlashes
      if shorter ≠ path ∧ (ofPath? shorter).isSome then find? redirects (.ofTarget shorter)
      else none

/-- The resource to which the target of a request leads. -/
def ofTarget? (target : String) : Option Resource :=
  find? mostRedirects (.ofTarget target.toList)

/-- What a method asks to do with a resource. -/
def action? : Resource → String → Option Action
  | page, "GET" | page, "HEAD" => some .showPage
  | health, "GET" => some .health
  | environments, "POST" => some .create
  | environment id, "GET" => some (.describe id)
  | environment id, "DELETE" => some (.delete id)
  | aliases id, "GET" => some (.listAliases id)
  | analysis inquiry, "POST" => some (.inquire inquiry)
  | _, _ => none

end Resource

end TypeAlias.Service
