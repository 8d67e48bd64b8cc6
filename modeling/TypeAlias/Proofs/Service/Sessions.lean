import Mathlib.Data.List.Induction
import TypeAlias.Data.Json.Printer
import TypeAlias.Proofs.Service.Requests

/-!
# Sessions that do not interfere

A request may follow any number of others. When no identifier is given out twice, the environment
that it names is there just when it has been handed in and not been deleted since, and what is
answered about it is what would be answered if nothing but that environment had ever been handed in.
-/

namespace TypeAlias.Service

open Data Dependencies

/-- Identifiers are never used again. -/
theorem Store.idOf_injective : Function.Injective Store.idOf := by
  have hvalue (n : Nat) : Nat.ofDigitChars 10 (Store.idOf n).toList 0 = n := by
    have hzeros (k : Nat) (cs : List Char) :
        Nat.ofDigitChars 10 (List.replicate k '0' ++ cs) 0 = Nat.ofDigitChars 10 cs 0 := by
      induction k with
      | zero => rfl
      | succ k ih => rw [List.replicate_succ, List.cons_append, Nat.ofDigitChars_cons, ← ih]; rfl
    rw [Store.idOf, String.toList_append, String.toList_ofList, hzeros]
    show Nat.ofDigitChars 10 n.repr.toList 0 = n
    rw [Nat.toList_repr, Nat.ofDigitChars_toDigits (by decide) (by decide)]
  intro n m h
  rw [← hvalue n, ← hvalue m, h]

/-- A request that was sent at some time. -/
structure Sent where
  now : String
  request : Request

/-- The store after some requests. -/
def Store.after (store : Store) (history : List Sent) : Store :=
  history.foldl (fun store sent => (handle sent.now store sent.request).2) store

/-- How many environments have been handed in and accepted. -/
def uploads (history : List Sent) : Nat :=
  history.countP fun sent => sent.request.upload?.isSome

/-- An identifier was given to an environment that a request handed in, and it has not been deleted
since. -/
def Live (ids : Nat → String) (history : List Sent) (id : String) (origin : Sent) : Prop :=
  ∃ earlier later, history = earlier ++ origin :: later ∧
    origin.request.upload?.isSome = true ∧ ids (uploads earlier + 1) = id ∧
    ∀ sent ∈ later, ¬ sent.request.Deletes id

variable {ids : Nat → String} {history : List Sent} {id : String} {origin sent : Sent}
  {session : Session} {r : Request}

theorem uploads_append (history history' : List Sent) :
    uploads (history ++ history') = uploads history + uploads history' :=
  List.countP_append

theorem uploads_singleton (sent : Sent) :
    uploads [sent] = if sent.request.upload?.isSome then 1 else 0 := by
  rw [uploads, List.countP_singleton]

/-- What is live after one more request has been handed in by it, or was live and is not deleted
by it. -/
theorem live_concat :
    Live ids (history ++ [sent]) id origin ↔
      (origin = sent ∧ sent.request.upload?.isSome = true ∧ ids (uploads history + 1) = id) ∨
        (Live ids history id origin ∧ ¬ sent.request.Deletes id) := by
  constructor
  · rintro ⟨earlier, later, hsplit, hupload, hid, hkept⟩
    -- the last request is either the one that handed it in or one that came after
    rcases List.eq_nil_or_concat' later with rfl | ⟨later, last, rfl⟩
    · obtain ⟨rfl, hlast⟩ := List.append_inj' hsplit rfl
      cases hlast
      exact Or.inl ⟨rfl, hupload, hid⟩
    · rw [← List.cons_append, ← List.append_assoc] at hsplit
      obtain ⟨rfl, hlast⟩ := List.append_inj' hsplit rfl
      cases hlast
      have hlive : Live ids (earlier ++ origin :: later) id origin :=
        ⟨earlier, later, rfl, hupload, hid, fun s hs => hkept s (List.mem_append_left _ hs)⟩
      exact Or.inr ⟨hlive, hkept _ (List.mem_append_right _ (List.mem_singleton_self _))⟩
  · rintro (⟨rfl, hupload, hid⟩ | ⟨⟨earlier, later, rfl, hupload, hid, hkept⟩, hlast⟩)
    · exact ⟨history, [], rfl, hupload, hid, fun _ hs => absurd hs List.not_mem_nil⟩
    · refine ⟨earlier, later ++ [sent], by simp, hupload, hid, fun s hs => ?_⟩
      rcases List.mem_append.mp hs with hs | hs
      · exact hkept s hs
      · rw [List.mem_singleton.mp hs]
        exact hlast

/-- What has been handed in so far has not got the identifier that is given out next. -/
theorem Live.ne_next (h : Live ids history id origin) (hids : Function.Injective ids) :
    id ≠ ids (uploads history + 1) := by
  obtain ⟨earlier, later, rfl, hupload, rfl, -⟩ := h
  intro hid
  have hcount := hids hid
  rw [uploads_append, ← List.singleton_append, uploads_append, uploads_singleton, if_pos hupload]
    at hcount
  omega

/-- An environment that is accepted can be stored, and nothing is known of it. -/
theorem holds_upload (h : r.upload? = some session) (now : String) :
    session.env.WellKeyed ∧
      Stored.Holds { session, timestamp := now } session.env session.deps.guarded now := by
  unfold Request.upload? at h
  split at h
  · unfold accept? at h
    split at h
    · next document guarded _ =>
      unfold Session.ofDocument at h
      cases hb : document.toEnvironment with
      | error e =>
        rw [hb] at h
        cases h
      | ok env =>
        rw [hb] at h
        cases h
        exact ⟨(Environment.reachable_build hb).wellKeyed, rfl, Known.initial env guarded, rfl⟩
    · cases h
  · cases h

/-- The environments in a store are those that some requests have left there. -/
structure Serves (ids : Nat → String) (history : List Sent) (store : Store) : Prop where
  supply : store.ids = ids
  issued : store.issued = uploads history
  absent : ∀ id, (∀ origin, ¬ Live ids history id origin) → store.get? id = none
  present : ∀ id origin, Live ids history id origin → ∃ session s,
    origin.request.upload? = some session ∧ store.get? id = some s ∧
    s.Holds session.env session.deps.guarded origin.now

namespace Serves

variable {store : Store}

theorem initial (ids : Nat → String) : Serves ids [] { ids } := by
  refine ⟨rfl, rfl, fun _ _ => rfl, fun id origin h => ?_⟩
  obtain ⟨earlier, later, hsplit, -⟩ := h
  simp at hsplit

theorem upload (h : Serves ids history store) (hids : Function.Injective ids)
    (hu : sent.request.upload? = some session) :
    Serves ids (history ++ [sent]) (handle sent.now store sent.request).2 := by
  have hsome : sent.request.upload?.isSome = true := Option.isSome_of_eq_some hu
  have hkept (id : String) : ¬ sent.request.Deletes id := by
    intro hd
    rw [Request.upload?, hd] at hu
    cases hu
  have hnext : store.nextId = ids (uploads history + 1) := by
    rw [Store.nextId, h.supply, h.issued]
  rw [state_of_upload hu]
  constructor
  case supply => exact h.supply
  case issued =>
    rw [uploads_append, uploads_singleton, if_pos hsome, ← h.issued]
    rfl
  case absent =>
    intro id hnone
    have hne : id ≠ store.nextId := fun hid =>
      hnone sent (live_concat.mpr (Or.inl ⟨rfl, hsome, hnext.symm.trans hid.symm⟩))
    rw [Store.get?_add, if_neg hne]
    exact h.absent id fun origin ho => hnone origin (live_concat.mpr (Or.inr ⟨ho, hkept id⟩))
  case present =>
    intro id origin hlive
    rw [Store.get?_add, hnext]
    rcases live_concat.mp hlive with ⟨rfl, -, hid⟩ | ⟨hold, -⟩
    · rw [if_pos hid.symm]
      exact ⟨session, _, hu, rfl, (holds_upload hu origin.now).2⟩
    · rw [if_neg (hold.ne_next hids)]
      exact h.present id origin hold

theorem delete (h : Serves ids history store) (hd : sent.request.Deletes id) :
    Serves ids (history ++ [sent]) (handle sent.now store sent.request).2 := by
  have hnone : sent.request.upload? = none := by rw [Request.upload?, hd]
  have hsent {id' : String} : sent.request.Deletes id' ↔ id' = id := by
    rw [Request.Deletes, hd]
    simp [eq_comm]
  rw [state_of_delete hd]
  constructor
  case supply => exact h.supply
  case issued =>
    rw [uploads_append, uploads_singleton, hnone]
    exact h.issued
  case absent =>
    intro id' hdead
    rw [Store.get?_erase]
    split
    · rfl
    · next hne =>
      exact h.absent id' fun origin ho =>
        hdead origin (live_concat.mpr (Or.inr ⟨ho, mt hsent.mp hne⟩))
  case present =>
    intro id' origin hlive
    rcases live_concat.mp hlive with ⟨-, hsome, -⟩ | ⟨hold, hkept⟩
    · rw [hnone] at hsome
      cases hsome
    · rw [Store.get?_erase, if_neg (mt hsent.mpr hkept)]
      exact h.present id' origin hold

theorem other (h : Serves ids history store) (hu : sent.request.upload? = none)
    (hd : ∀ id, ¬ sent.request.Deletes id) :
    Serves ids (history ++ [sent]) (handle sent.now store sent.request).2 := by
  have hr := retains_handle hu hd sent.now store
  have hlive {id : String} {origin : Sent} :
      Live ids (history ++ [sent]) id origin ↔ Live ids history id origin := by
    rw [live_concat, hu]
    simp [hd id]
  constructor
  case supply => exact hr.ids.trans h.supply
  case issued =>
    rw [hr.issued, uploads_append, uploads_singleton, hu]
    exact h.issued
  case absent =>
    intro id hdead
    exact hr.absent id (h.absent id fun origin ho => hdead origin (hlive.mpr ho))
  case present =>
    intro id origin ho
    obtain ⟨session, s, hsession, hs, hholds⟩ := h.present id origin (hlive.mp ho)
    obtain ⟨d, hd', hkept⟩ := hr.present id s hs
    refine ⟨session, _, hsession, hd', hholds.environment, ?_, hholds.time⟩
    have he := (holds_upload hsession origin.now).1
    apply hkept _ _ hholds.known
    rw [hholds.environment]
    exact Known.stable he _

/-- One more request. -/
theorem step (h : Serves ids history store) (hids : Function.Injective ids) (sent : Sent) :
    Serves ids (history ++ [sent]) (handle sent.now store sent.request).2 := by
  cases hu : sent.request.upload? with
  | some session => exact h.upload hids hu
  | none =>
    by_cases hd : ∃ id, sent.request.Deletes id
    · obtain ⟨id, hd⟩ := hd
      exact h.delete hd
    · exact h.other hu (not_exists.mp hd)

/-- Any number of requests. -/
theorem after (hids : Function.Injective ids) (history : List Sent) :
    Serves ids history (Store.after { ids } history) := by
  -- on the requests from the last, which is how far the store has come
  induction history using List.reverseRecOn with
  | nil => exact initial ids
  | append_singleton history sent ih =>
    rw [Store.after, List.foldl_append]
    exact ih.step hids sent

end Serves

/-- Where identifiers are not given out twice, a request that names an environment is told that it
is not there just when it has not been handed in or has been deleted since. Otherwise it is answered
as if nothing but that environment had ever been handed in. And a request to store an environment
that is refused changes nothing. -/
theorem sessions_apart (hids : Function.Injective ids) (history : List Sent) (now : String)
    (r : Request) :
    (∀ id, r.subject? = some id →
      ((handle now (Store.after { ids } history) r).1 = Refusal.unknownEnvironment.response ↔
        ∀ origin, ¬ Live ids history id origin) ∧
      ∀ origin, Live ids history id origin →
        (handle now (Store.after { ids } history) r).1.Alike
          (handle now (handle origin.now { ids := fun _ => id } origin.request).2 r).1) ∧
    (r.action = .ok .create → (handle now (Store.after { ids } history) r).1.status ≠ 200 →
      (handle now (Store.after { ids } history) r).2 = Store.after { ids } history) := by
  have hserves := Serves.after hids history
  refine ⟨fun id hsubject => ⟨⟨fun hresponse origin hlive => ?_, fun hdead => ?_⟩,
    fun origin hlive => ?_⟩, fun ha hrefused => state_of_refused_create ha hrefused⟩
  · obtain ⟨session, s, hu, hs, hholds⟩ := hserves.present id origin hlive
    have he := (holds_upload hu origin.now).1
    exact (response_alike he hsubject hs hs hholds hholds now).2 hresponse
  · exact response_of_none hsubject (hserves.absent id hdead) now
  · obtain ⟨session, s, hu, hs, hholds⟩ := hserves.present id origin hlive
    obtain ⟨he, halone⟩ := holds_upload hu origin.now
    have hget : (handle origin.now { ids := fun _ => id } origin.request).2.get? id =
        some { session, timestamp := origin.now } := by
      rw [state_of_upload hu, Store.get?_add]
      exact if_pos rfl
    exact (response_alike he hsubject hs hget hholds halone now).1

/-- A request with a body. -/
def post (target : String) (members : List (String × Value)) : Sent :=
  ⟨"noon", { method := "POST", target, body := some (Json.print none (.object members)) }⟩

/-- Hands in two aliases that refer to each other. -/
def couple : Sent :=
  let refers (name target : String) : Value :=
    .object [("name", .str name), ("type", .object [("kind", .str "alias"), ("name", .str target)])]
  post "/api/environments" [("aliases", .list [refers "a" "b", refers "b" "a"])]

/-- Asks for the profile of an alias in the environment that is handed in first. -/
def deps (name : String) : Sent :=
  post "/api/analysis/deps" [("env_id", .str "000000000001"), ("name", .str name)]

/-- Two environments are handed in, something is asked about the first, and the second is
deleted. -/
def interleaved : List Sent :=
  [couple, post "/api/environments" [], deps "b",
    ⟨"night", { method := "DELETE", target := "/api/environments/000000000002" }⟩]

theorem sessions_apart_interleaved :
    Function.Injective Store.idOf ∧
      Live Store.idOf interleaved "000000000001" couple ∧
      (handle "dawn" (Store.after {} interleaved) (deps "a").request).1.Alike
        (handle "dawn" (handle "noon" { ids := fun _ => "000000000001" } couple.request).2
          (deps "a").request).1 ∧
      (handle "dawn" (Store.after {} interleaved)
        { method := "GET", target := "/api/environments/000000000002" }).1 =
        Refusal.unknownEnvironment.response := by
  have hlive : Live Store.idOf interleaved "000000000001" couple := by
    exact ⟨[], interleaved.tail, rfl, by decide +kernel, by decide +kernel, by decide +kernel⟩
  have hdead (origin : Sent) : ¬ Live Store.idOf interleaved "000000000002" origin := by
    show ¬ Live _ ([_, _, _] ++ [_]) _ _
    rw [live_concat]
    rintro (⟨-, hupload, -⟩ | ⟨-, hkept⟩)
    · exact absurd hupload (by decide +kernel)
    · exact hkept (by decide +kernel)
  have h := sessions_apart Store.idOf_injective interleaved "dawn"
  refine ⟨Store.idOf_injective, hlive, ?_, ?_⟩
  · exact ((h (deps "a").request).1 "000000000001" (by decide +kernel)).2 couple hlive
  · exact ((h _).1 "000000000002" (by decide +kernel)).1.mpr hdead

end TypeAlias.Service
