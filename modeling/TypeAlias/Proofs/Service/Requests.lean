import TypeAlias.Proofs.Diagnostics.Profiles
import TypeAlias.Service.Handler

/-!
# What a request does

A request hands in an environment, deletes one, or names one that it asks about. One that hands in
an environment adds it to the store, one that deletes takes it away, and every other request leaves
all environments as they are; at most it adds to what is known of the one it names. The answer about
an environment is decided by the environment, and not by what has been asked before.
-/

namespace TypeAlias.Service

open Data Definitions Dependencies

/-- The session on the environment that a body describes, if it is accepted. -/
def accept? (body : Option String) : Option Session :=
  match readBody body environmentMembers with
  | .ok (document, guarded) => (Session.ofDocument guarded document).toOption
  | .error _ => none

/-- The session on the environment that a request hands in, if it is accepted. -/
def Request.upload? (r : Request) : Option Session :=
  match r.action with
  | .ok .create => accept? r.body
  | _ => none

/-- A request asks for an environment to be deleted. -/
def Request.Deletes (r : Request) (id : String) : Prop :=
  r.action = .ok (.delete id)

instance (r : Request) (id : String) : Decidable (r.Deletes id) :=
  decidable_of_iff (r.action.toOption = some (.delete id)) <| by
    unfold Request.Deletes
    cases r.action <;> simp [Except.toOption]

/-- The environment that a question names. -/
def Inquiry.subject? (inquiry : Inquiry) (body : Option String) : Option String :=
  match inquiry with
  | .deps => (readBody body aliasMembers).toOption.map Prod.fst
  | _ => (readBody body idMember).toOption

/-- The environment that an action is about. -/
def Action.subject? (action : Action) (body : Option String) : Option String :=
  match action with
  | .describe id | .listAliases id | .delete id => some id
  | .inquire inquiry => inquiry.subject? body
  | .showPage | .health | .create => none

/-- The environment that a request names. -/
def Request.subject? (r : Request) : Option String :=
  match r.action with
  | .ok action => action.subject? r.body
  | .error _ => none

/-- Two answers say the same; the cycle of an alias may start anywhere. -/
inductive Response.Alike : Response → Response → Prop where
  | refl (r : Response) : Alike r r
  | cycle (members : List (String × Value)) {names names' : List TypeName} :
      names.Perm names' →
      Alike { status := 200, body := .data (.object (members ++ [("cycle", namesValue names)])) }
        { status := 200, body := .data (.object (members ++ [("cycle", namesValue names')])) }

/-! ## Refusals -/

theorem message_ne_notFound (e : LookupError) : e.message ≠ "Environment not found" := by
  obtain ⟨rest, hm⟩ : ∃ rest, e.message = "Unknown entity " ++ rest := by
    cases e with
    | undefined name => exact ⟨_, String.append_assoc⟩
    | moduleLoop name => exact ⟨_, String.append_assoc⟩
  intro h
  have hprefix : "Unknown entity ".toList <+: "Environment not found".toList :=
    ⟨rest.toList, by rw [← String.toList_append, ← hm, h]⟩
  exact absurd hprefix (by decide)

/-- A question is never refused as if the environment were not there. -/
theorem response_query_ne (e : QueryError) :
    (Refusal.query e).response ≠ Refusal.unknownEnvironment.response := by
  unfold Refusal.response
  cases e <;>
    simp [Refusal.isWritable, Refusal.status, Refusal.detail, Value.object, Value.str,
      QueryError.message, message_ne_notFound]

/-- The answer that comes of an action. -/
def respond : Except Refusal Payload → Response
  | .ok body => { status := 200, body }
  | .error e => e.response

/-- Only a page is shown to who asks about the answer alone. -/
theorem showPage_of_head {resource : Resource} {action : Action}
    (h : resource.action? "HEAD" = some action) : action = .showPage := by
  unfold Resource.action? at h
  split at h <;> simp_all

theorem handle_eq (now : String) (store : Store) {r : Request} {action : Action}
    (ha : r.action = .ok action) (hpage : action ≠ .showPage) :
    handle now store r = answer now store r := by
  have hhead : ¬ r.method.toUpper = "HEAD" := by
    intro hm
    unfold Request.action at ha
    rw [hm] at ha
    split at ha
    · cases ha
    · split at ha
      · cases ha
      · next h =>
        cases ha
        exact hpage (showPage_of_head h)
  exact Prod.ext (if_neg hhead) rfl

theorem state_handle (now : String) (store : Store) (r : Request) :
    (handle now store r).2 = (answer now store r).2 := rfl

theorem answer_of_action (now : String) (store : Store) {r : Request} {action : Action}
    (ha : r.action = .ok action) :
    answer now store r =
      (respond ((perform now r.body action).run.run store).1,
        ((perform now r.body action).run.run store).2) := by
  unfold answer
  rw [ha]
  dsimp only
  generalize (perform now r.body action).run.run store = result
  obtain ⟨result, store'⟩ := result
  cases result <;> rfl

theorem content_of_ok {α : Type} {body : Option String} {check : Validation.Object → Checked α}
    {a : α} (h : readBody body check = .ok a) : content body check = pure a := by
  rw [content, h]

theorem content_of_error {α : Type} {body : Option String} {check : Validation.Object → Checked α}
    {e : Refusal} (h : readBody body check = .error e) : content body check = throw e := by
  rw [content, h]

/-! ## Environments in the store -/

section Store

variable {store : Store} {id : String} {s : Stored} {α : Type} {question : Environment → Query α}

theorem Store.get?_add (store : Store) (session : Session) (timestamp id : String) :
    (store.add session timestamp).2.get? id =
      if id = store.nextId then some { session, timestamp } else store.get? id :=
  Table.get?_insert _ _ _ _

theorem Store.get?_update (store : Store) (id id' : String) (session : Session) :
    (store.update id session).get? id' =
      if id' = id then (store.get? id).map fun e => { e with session } else store.get? id' :=
  Table.get?_modify _ _ _ _

theorem Store.get?_erase (store : Store) (id id' : String) :
    (store.erase id).get? id' = if id' = id then none else store.get? id' :=
  Table.get?_erase _ _ _

theorem run_stored (h : store.get? id = some s) : (stored id).run.run store = (.ok s, store) := by
  unfold stored
  rw [run_bind, run_get]
  dsimp only
  rw [h]
  rfl

theorem run_stored_of_none (h : store.get? id = none) :
    (stored id).run.run store = (.error .unknownEnvironment, store) := by
  unfold stored
  rw [run_bind, run_get]
  dsimp only
  rw [h]
  rfl

theorem run_ask (h : store.get? id = some s) :
    (ask id question).run.run store =
      (((question s.session.env).answer s.session.deps).1.mapError .query,
        store.update id
          { s.session with deps := ((question s.session.env).answer s.session.deps).2 }) := by
  unfold ask
  rw [run_bind, run_stored h]
  unfold Session.ask
  dsimp only
  generalize (question s.session.env).answer s.session.deps = result
  obtain ⟨result, deps⟩ := result
  cases result <;> rfl

theorem run_ask_of_none (h : store.get? id = none) :
    (ask id question).run.run store = (.error .unknownEnvironment, store) := by
  unfold ask
  rw [run_bind, run_stored_of_none h]

end Store

/-! ## Questions -/

/-- An answer is decided by the environment that the question is put to: whatever has been asked
before, it is refused in the same way or says the same. -/
structure Steady {α : Type} (question : Environment → Query α) (render : α → Value) : Prop where
  keeps : ∀ env p, Stable env p → Query.Keeps p (question env)
  answers : ∀ {env : Environment} {guarded : Bool} {d d' : Dependencies}, env.WellKeyed →
    Known env guarded d → Known env guarded d' →
    (∃ e, ((question env).answer d).1 = .error e ∧ ((question env).answer d').1 = .error e) ∨
      ∃ a a', ((question env).answer d).1 = .ok a ∧ ((question env).answer d').1 = .ok a' ∧
        Response.Alike { status := 200, body := .data (render a) }
          { status := 200, body := .data (render a') }

/-- An answer that is always the same. -/
theorem steady_of_comesTo {α : Type} {question : Environment → Query α} {render : α → Value}
    (hk : ∀ env p, Stable env p → Query.Keeps p (question env))
    (h : ∀ (env : Environment) guarded, env.WellKeyed →
      ∃ r, ComesTo (Known env guarded) (question env) r) : Steady question render where
  keeps := hk
  answers := by
    intro env guarded d d' he hd hd'
    obtain ⟨r, hr⟩ := h env guarded he
    obtain ⟨_, hq, -⟩ := comesTo_iff.mp hr d hd
    obtain ⟨_, hq', -⟩ := comesTo_iff.mp hr d' hd'
    have ha : ((question env).answer d).1 = r := congrArg Prod.fst hq
    have ha' : ((question env).answer d').1 = r := congrArg Prod.fst hq'
    cases r with
    | error e => exact Or.inl ⟨e, ha, ha'⟩
    | ok a => exact Or.inr ⟨a, a, ha, ha', .refl _⟩

theorem steady_summary {render : Summary → Value} : Steady Query.summary render :=
  steady_of_comesTo (fun _ _ h => h.summary) fun _ _ he => ⟨.ok _, Query.returns_summary_eq he⟩

theorem steady_order {render : List TypeName → Value} : Steady Query.order render :=
  steady_of_comesTo (fun _ _ h => h.order) fun _ guarded he =>
    ⟨_, (Query.comesTo_order he).and (ReadIn.stable he guarded).order⟩

theorem steady_components {render : List (List TypeName) → Value} :
    Steady Query.components render :=
  steady_of_comesTo (fun _ _ h => h.components) fun _ guarded he =>
    ⟨.ok _, (Query.returns_components he).and (ReadIn.stable he guarded).components⟩

theorem steady_profile (text : String) :
    Steady (Query.profile text) fun p => .object (("name", .str text) :: p.members) where
  keeps _ _ h := h.profile text
  answers he hd hd' := by
    rcases Query.profile_known he hd hd' text with hrefused | ⟨p, p', hp, hp', halike⟩
    · exact Or.inl hrefused
    · refine Or.inr ⟨p, p', hp, hp', ?_⟩
      have hm : p.members = [("direct", namesValue p'.direct),
          ("transitive", namesValue p'.transitive), ("circular", .bool p'.circular),
          ("cycle", namesValue p.cycle)] := by
        rw [Profile.members, halike.direct, halike.circular, namesValue, namesValue, namesValue,
          halike.transitive]
        rfl
      rw [hm]
      exact .cycle [("name", .str text), ("direct", namesValue p'.direct),
        ("transitive", namesValue p'.transitive), ("circular", .bool p'.circular)] halike.cycle

/-- A request is refused without a look at the store, or names an environment that a question is put
to. -/
inductive Puts : Option String → Handler Value → Prop where
  | refused (e : Refusal) : Puts none (throw e)
  | asked (id : String) {α : Type} {question : Environment → Query α} {render : α → Value} :
      Steady question render → Puts (some id) (render <$> ask id question)

theorem puts_of_content {α : Type} {check : Validation.Object → Checked α}
    {f : α → Handler Value} {name : α → String} (body : Option String)
    (hf : ∀ a, Puts (some (name a)) (f a)) :
    Puts ((readBody body check).toOption.map name) (content body check >>= f) := by
  cases hb : readBody body check with
  | error e =>
    rw [content_of_error hb]
    exact .refused e
  | ok a =>
    rw [content_of_ok hb, pure_bind]
    exact hf a

theorem puts_ask {α : Type} {question : Environment → Query α} {render : α → Value}
    (h : Steady question render) (id : String) :
    Puts (some id) (do return render (← ask id question)) := by
  rw [bind_pure_comp]
  exact .asked id h

theorem puts_inquire (inquiry : Inquiry) (body : Option String) :
    Puts (inquiry.subject? body) (inquire inquiry body) := by
  have hid : (readBody body idMember).toOption =
      (readBody body idMember).toOption.map fun id => id :=
    Option.map_id'.symm
  cases inquiry with
  | deps =>
    unfold Inquiry.subject? inquire
    apply puts_of_content
    rintro ⟨id, name⟩
    exact puts_ask (steady_profile name) id
  | circular =>
    unfold Inquiry.subject? inquire
    rw [hid]
    apply puts_of_content
    intro id
    exact puts_ask steady_summary id
  | order =>
    unfold Inquiry.subject? inquire
    rw [hid]
    apply puts_of_content
    intro id
    exact puts_ask steady_order id
  | components =>
    unfold Inquiry.subject? inquire
    rw [hid]
    apply puts_of_content
    intro id
    exact puts_ask steady_components id

/-! ## Answers -/

/-- What is stored is an environment, and what is known of it agrees with it. -/
structure Stored.Holds (s : Stored) (env : Environment) (guarded : Bool) (timestamp : String) :
    Prop where
  environment : s.session.env = env
  known : Known env guarded s.session.deps
  time : s.timestamp = timestamp

section Answers

variable {store store' : Store} {id : String} {s s' : Stored} {env : Environment} {guarded : Bool}
  {timestamp : String} {action : Action} {body : Option String}

theorem perform_of_none (hsubject : action.subject? body = some id) (h : store.get? id = none)
    (now : String) :
    (perform now body action).run.run store = (.error .unknownEnvironment, store) := by
  cases action with
  | showPage => cases hsubject
  | health => cases hsubject
  | create => cases hsubject
  | describe id' =>
    cases hsubject
    rw [perform, run_bind, run_stored_of_none h]
  | listAliases id' =>
    cases hsubject
    rw [perform, run_bind, run_stored_of_none h]
  | delete id' =>
    cases hsubject
    rw [perform, run_bind, run_stored_of_none h]
  | inquire inquiry =>
    have hputs := puts_inquire inquiry body
    rw [show inquiry.subject? body = some id from hsubject] at hputs
    rw [perform, run_map]
    generalize inquire inquiry body = handler at hputs
    cases hputs with
    | asked _ _ => rw [run_map, run_ask_of_none h]; rfl

theorem perform_alike (he : env.WellKeyed) (hsubject : action.subject? body = some id)
    (h : store.get? id = some s) (h' : store'.get? id = some s')
    (hs : s.Holds env guarded timestamp) (hs' : s'.Holds env guarded timestamp) (now : String) :
    (respond ((perform now body action).run.run store).1).Alike
        (respond ((perform now body action).run.run store').1) ∧
      respond ((perform now body action).run.run store).1 ≠
        Refusal.unknownEnvironment.response := by
  cases action with
  | showPage => cases hsubject
  | health => cases hsubject
  | create => cases hsubject
  | describe id' =>
    cases hsubject
    have hsame : describe id s = describe id s' := by
      unfold describe
      rw [hs.environment, hs'.environment, hs.known.2.mode, hs'.known.2.mode, hs.time, hs'.time]
    rw [perform, run_bind, run_bind, run_stored h, run_stored h']
    dsimp only
    rw [hsame]
    exact ⟨.refl _, nofun⟩
  | listAliases id' =>
    cases hsubject
    rw [perform, run_bind, run_bind, run_stored h, run_stored h']
    dsimp only
    rw [hs.environment, hs'.environment]
    exact ⟨.refl _, nofun⟩
  | delete id' =>
    cases hsubject
    rw [perform, run_bind, run_bind, run_stored h, run_stored h']
    exact ⟨.refl _, nofun⟩
  | inquire inquiry =>
    have hputs := puts_inquire inquiry body
    rw [show inquiry.subject? body = some id from hsubject] at hputs
    rw [perform, run_map, run_map]
    generalize inquire inquiry body = handler at hputs
    cases hputs with
    | asked _ hsteady =>
      rw [run_map, run_map, run_ask h, run_ask h', hs.environment, hs'.environment]
      -- both environments are the same, so only what is known of them can differ
      rcases hsteady.answers he hs.known hs'.known with ⟨e, ha, ha'⟩ | ⟨a, a', ha, ha', halike⟩
      · rw [ha, ha']
        exact ⟨.refl _, response_query_ne e⟩
      · rw [ha, ha']
        exact ⟨halike, nofun⟩

theorem response_of_subject {r : Request} (hsubject : r.subject? = some id) :
    ∃ action, action.subject? r.body = some id ∧ ∀ now store,
      (handle now store r).1 = respond ((perform now r.body action).run.run store).1 := by
  unfold Request.subject? at hsubject
  split at hsubject
  · next action ha =>
    refine ⟨action, hsubject, fun now store => ?_⟩
    rw [handle_eq now store ha, answer_of_action now store ha]
    rintro rfl
    cases hsubject
  · cases hsubject

theorem response_of_none {r : Request} (hsubject : r.subject? = some id)
    (h : store.get? id = none) (now : String) :
    (handle now store r).1 = Refusal.unknownEnvironment.response := by
  obtain ⟨action, hsubject, hresponse⟩ := response_of_subject hsubject
  rw [hresponse, perform_of_none hsubject h]
  rfl

/-- What is stored under the name that a request gives decides how it is answered. -/
theorem response_alike {r : Request} (he : env.WellKeyed) (hsubject : r.subject? = some id)
    (h : store.get? id = some s) (h' : store'.get? id = some s')
    (hs : s.Holds env guarded timestamp) (hs' : s'.Holds env guarded timestamp) (now : String) :
    (handle now store r).1.Alike (handle now store' r).1 ∧
      (handle now store r).1 ≠ Refusal.unknownEnvironment.response := by
  obtain ⟨action, hsubject, hresponse⟩ := response_of_subject hsubject
  rw [hresponse, hresponse]
  exact perform_alike he hsubject h h' hs hs' now

end Answers

/-! ## Effects -/

/-- What is stored stays stored, and no more comes to it; of the environments something more may be
known. -/
structure Store.Retains (store store' : Store) : Prop where
  ids : store'.ids = store.ids
  issued : store'.issued = store.issued
  absent : ∀ id, store.get? id = none → store'.get? id = none
  present : ∀ id s, store.get? id = some s → ∃ d,
    store'.get? id = some { s with session := { s.session with deps := d } } ∧
    ∀ p, Stable s.session.env p → p s.session.deps → p d

theorem Store.Retains.refl (store : Store) : store.Retains store :=
  ⟨rfl, rfl, fun _ h => h, fun _ s h => ⟨s.session.deps, h, fun _ _ hp => hp⟩⟩

section Effects

variable {store : Store} {id : String} {r : Request} {body : Option String} {session : Session}

/-- A question teaches nothing about other environments. -/
theorem retains_ask {α : Type} {question : Environment → Query α}
    (hq : ∀ env p, Stable env p → Query.Keeps p (question env)) :
    store.Retains ((ask id question).run.run store).2 := by
  cases h : store.get? id with
  | none =>
    rw [run_ask_of_none h]
    exact .refl store
  | some s =>
    rw [run_ask h]
    refine ⟨rfl, rfl, fun id' h' => ?_, fun id' s' h' => ?_⟩
    · rw [Store.get?_update, if_neg, h']
      rintro rfl
      rw [h] at h'
      cases h'
    · rw [Store.get?_update]
      split
      · next hid =>
        subst hid
        rw [h] at h'
        cases h'
        rw [h]
        exact ⟨_, rfl, fun p hp hd => hq _ p hp _ hd⟩
      · exact ⟨s'.session.deps, h', fun _ _ hp => hp⟩

theorem retains_inquire (inquiry : Inquiry) (body : Option String) (store : Store) :
    store.Retains ((inquire inquiry body).run.run store).2 := by
  have hputs := puts_inquire inquiry body
  generalize inquiry.subject? body = subject, inquire inquiry body = handler at hputs
  cases hputs with
  | refused e => exact .refl store
  | asked id hsteady =>
    rw [run_map]
    exact retains_ask hsteady.keeps

/-- Looking an environment up leaves everything as it is. -/
theorem retains_stored (show' : Stored → Payload) :
    store.Retains ((return show' (← stored id) : Handler Payload).run.run store).2 := by
  rw [run_bind]
  cases h : store.get? id with
  | none => rw [run_stored_of_none h]; exact .refl store
  | some s => rw [run_stored h]; exact .refl store

theorem run_create (h : accept? body = some session) (now : String) (store : Store) :
    (create now body).run.run store =
      (.ok (describe store.nextId { session, timestamp := now }), (store.add session now).2) := by
  unfold accept? at h
  cases hb : readBody body environmentMembers with
  | error e => simp [hb] at h
  | ok members =>
    obtain ⟨document, guarded⟩ := members
    rw [hb] at h
    dsimp only at h
    rw [create, content_of_ok hb, pure_bind]
    dsimp only
    cases hs : Session.ofDocument guarded document with
    | error e => simp [hs, Except.toOption] at h
    | ok session' =>
      rw [hs] at h
      cases h
      rfl

theorem run_create_of_none (h : accept? body = none) (now : String) (store : Store) :
    ∃ e, (create now body).run.run store = (.error e, store) := by
  unfold accept? at h
  cases hb : readBody body environmentMembers with
  | error e =>
    rw [create, content_of_error hb]
    exact ⟨e, rfl⟩
  | ok members =>
    obtain ⟨document, guarded⟩ := members
    rw [hb] at h
    dsimp only at h
    rw [create, content_of_ok hb, pure_bind]
    dsimp only
    cases hs : Session.ofDocument guarded document with
    | ok session => simp [hs, Except.toOption] at h
    | error e => exact ⟨.registration e, rfl⟩

/-- An environment that is accepted is added to the store. -/
theorem state_of_upload (h : r.upload? = some session) (now : String) (store : Store) :
    (handle now store r).2 = (store.add session now).2 := by
  unfold Request.upload? at h
  split at h
  · next ha =>
    rw [state_handle, answer_of_action now store ha, perform, run_map, run_create h]
  · cases h

/-- An environment that is deleted is in the store no more. -/
theorem state_of_delete (h : r.Deletes id) (now : String) (store : Store) :
    (handle now store r).2 = store.erase id := by
  rw [state_handle, answer_of_action now store h, perform, run_bind]
  cases hs : store.get? id with
  | some s => rw [run_stored hs]; rfl
  | none =>
    rw [run_stored_of_none hs]
    have herase := Table.erase_of_not_mem (Table.get?_eq_none_iff.mp hs)
    rw [Store.erase, herase]

/-- Every other request leaves the environments as they are. -/
theorem retains_handle (hu : r.upload? = none) (hd : ∀ id, ¬ r.Deletes id) (now : String)
    (store : Store) : store.Retains (handle now store r).2 := by
  rw [state_handle]
  cases ha : r.action with
  | error e =>
    unfold answer
    rw [ha]
    exact .refl store
  | ok action =>
    rw [answer_of_action now store ha]
    cases action with
    | showPage => exact .refl store
    | health => exact .refl store
    | create =>
      -- no environment is uploaded, so none was accepted
      rw [Request.upload?, ha] at hu
      obtain ⟨e, he⟩ := run_create_of_none hu now store
      rw [perform, run_map, he]
      exact .refl store
    | describe id => exact retains_stored _
    | listAliases id => exact retains_stored _
    | delete id => exact absurd ha (hd id)
    | inquire inquiry =>
      rw [perform, run_map]
      exact retains_inquire inquiry r.body store

/-- A request to store an environment that is refused changes nothing. -/
theorem state_of_refused_create (ha : r.action = .ok .create)
    (hrefused : (handle now store r).1.status ≠ 200) : (handle now store r).2 = store := by
  rw [handle_eq now store ha nofun, answer_of_action now store ha, perform, run_map] at hrefused ⊢
  cases h : accept? r.body with
  | none =>
    obtain ⟨e, he⟩ := run_create_of_none h now store
    rw [he]
  | some session =>
    rw [run_create h] at hrefused
    exact absurd rfl hrefused

end Effects

end TypeAlias.Service
