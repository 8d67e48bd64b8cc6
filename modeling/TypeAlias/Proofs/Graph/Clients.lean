import TypeAlias.Graph.Client

/-!
# What clients make of what they are handed

A client goes through a list until it gives up, and what comes after is never looked at. A client of
components goes through those of a trace, and a client of nodes through the single members of those
before the first cycle.
-/

namespace TypeAlias

namespace Client

variable {β σ ε : Type} {client : Client β σ ε} {bs cs : List β} {memory m : σ} {e : ε}

theorem tell_append (client : Client β σ ε) (bs cs : List β) (memory : σ) :
    client.tell (bs ++ cs) memory =
      match client.tell bs memory with
      | (m, some e) => (m, some e)
      | (m, none) => client.tell cs m := by
  induction bs generalizing memory with
  | nil => rfl
  | cons b bs ih =>
    rw [List.cons_append, tell, tell]
    match client.receive b memory with
    | (_, some _) => rfl
    | (m, none) => exact ih m

theorem tell_singleton (client : Client β σ ε) (b : β) (memory : σ) :
    client.tell [b] memory = client.receive b memory := by
  rw [tell]
  match client.receive b memory with
  | (_, some _) => rfl
  | (_, none) => rfl

/-- One more element for a client who has not given up. -/
theorem tell_concat (h : client.tell bs memory = (m, none)) (b : β) :
    client.tell (bs ++ [b]) memory = client.receive b m := by
  rw [tell_append, h]
  exact client.tell_singleton b m

/-- A client who gives up looks no further. -/
theorem tell_of_isPrefix (hp : bs <+: cs) (h : client.tell bs memory = (m, some e)) :
    client.tell cs memory = (m, some e) := by
  obtain ⟨rest, rfl⟩ := hp
  rw [tell_append, h]

/-- A client takes all elements of a list but the last, at which it gives up. -/
def Refuses (client : Client β σ ε) (bs : List β) (memory m : σ) (e : ε) : Prop :=
  ∃ before last m', bs = before ++ [last] ∧ client.tell before memory = (m', none) ∧
    client.receive last m' = (m, some e)

theorem Refuses.tell (h : client.Refuses bs memory m e) :
    client.tell bs memory = (m, some e) := by
  obtain ⟨before, last, m', rfl, hb, hl⟩ := h
  rw [tell_concat hb, hl]

theorem tell_keeping_none (bs kept : List β) :
    (keeping none).tell bs kept = (kept ++ bs, none) := by
  induction bs generalizing kept with
  | nil => exact congrArg (·, none) (List.append_nil kept).symm
  | cons b bs ih =>
    rw [List.append_cons]
    exact ih (kept ++ [b])

/-! ## Clients of components -/

section Components

variable {α : Type} {client : Client (List α) σ ε}

theorem receive_ofComponents (client : Client (List α) σ ε) (moment : Moment α) (memory : σ) :
    client.ofComponents.receive moment memory =
      match moment.emitted? with
      | some c => client.receive c memory
      | none => (memory, none) :=
  rfl

/-- A client of components goes through the components. -/
theorem tell_ofComponents (client : Client (List α) σ ε) (t : Trace α) (memory : σ) :
    client.ofComponents.tell t memory = client.tell (Trace.components t) memory := by
  induction t generalizing memory with
  | nil => rfl
  | cons moment t ih =>
    rw [tell, receive_ofComponents]
    cases he : moment.emitted? with
    | none =>
      have hc : Trace.components (moment :: t) = Trace.components t := List.filterMap_cons_none he
      rw [hc]
      exact ih memory
    | some c =>
      have hc : Trace.components (moment :: t) = c :: Trace.components t :=
        List.filterMap_cons_some he
      rw [hc, tell]
      dsimp only
      match client.receive c memory with
      | (_, some _) => rfl
      | (m, none) => exact ih m

/-- A client of components gives up at the last of them. -/
theorem Refuses.of_components {t : Trace α} (h : client.ofComponents.Refuses t memory m e) :
    client.Refuses t.components memory m e := by
  obtain ⟨before, moment, m', rfl, hb, hl⟩ := h
  rw [tell_ofComponents] at hb
  rw [receive_ofComponents] at hl
  cases he : moment.emitted? with
  | none =>
    rw [he] at hl
    cases hl
  | some c =>
    rw [he] at hl
    refine ⟨Trace.components before, c, m', ?_, hb, hl⟩
    rw [Trace.components, List.filterMap_append, List.filterMap_cons_some he]
    rfl

end Components

end Client

/-! ## Clients of nodes -/

section Nodes

variable {α σ ε : Type} [DecidableEq α]

/-- Nothing is delivered after the first cycle. -/
theorem Trace.deliver_append (t u : Trace α) :
    deliver (t ++ u) =
      match deliver t with
      | (nodes, some c) => (nodes, some c)
      | (nodes, none) => (nodes ++ (deliver u).1, (deliver u).2) := by
  induction t with
  | nil => rfl
  | cons moment t ih =>
    rw [List.cons_append, deliver, deliver]
    cases moment.cycle? with
    | some c => rfl
    | none =>
      rw [ih]
      match deliver t with
      | (_, some _) => rfl
      | (_, none) => exact congrArg (·, _) (List.append_assoc _ _ _).symm

theorem Trace.deliver_isPrefix {t u : Trace α} (h : t <+: u) : t.deliver.1 <+: u.deliver.1 := by
  obtain ⟨rest, rfl⟩ := h
  rw [deliver_append]
  match t.deliver with
  | (_, some _) => exact List.prefix_rfl
  | (nodes, none) => exact List.prefix_append _ _

theorem Trace.deliver_of_isPrefix {t u : Trace α} {c : List α} (h : t <+: u)
    (hc : t.deliver.2 = some c) : u.deliver = t.deliver := by
  obtain ⟨rest, rfl⟩ := h
  have hd : t.deliver = (t.deliver.1, some c) := by rw [← hc]
  rw [deliver_append, hd]

namespace Client

variable {client : Client α σ ε} {memory m : σ} {e : ε} {t : Trace α}

theorem receive_ofNodes (client : Client α σ ε) (moment : Moment α) (memory : σ) :
    client.ofNodes.receive moment memory =
      match moment.cycle? with
      | some c => (memory, some (.cyclic ⟨c⟩))
      | none =>
        match moment.emitted?.bind List.head? with
        | some x => ((client.receive x memory).1, (client.receive x memory).2.map .refused)
        | none => (memory, none) :=
  rfl

/-- A client of nodes goes through what is delivered, and then is told of the cycle. -/
theorem tell_ofNodes (client : Client α σ ε) (t : Trace α) (memory : σ) :
    client.ofNodes.tell t memory =
      match client.tell (Trace.deliver t).1 memory with
      | (m, some e) => (m, some (.refused e))
      | (m, none) => (m, (Trace.deliver t).2.map fun c => .cyclic ⟨c⟩) := by
  induction t generalizing memory with
  | nil => rfl
  | cons moment t ih =>
    rw [tell, receive_ofNodes, Trace.deliver]
    cases moment.cycle? with
    | some c => rfl
    | none =>
      dsimp only
      cases moment.emitted?.bind List.head? with
      | none => exact ih memory
      | some x =>
        rw [Option.toList_some, List.cons_append, List.nil_append, tell]
        dsimp only
        match client.receive x memory with
        | (_, some _) => rfl
        | (m, none) => exact ih m

theorem tell_ofNodes_eq_none_iff : client.ofNodes.tell t memory = (m, none) ↔
    client.tell t.deliver.1 memory = (m, none) ∧ t.deliver.2 = none := by
  rw [tell_ofNodes]
  match client.tell t.deliver.1 memory, t.deliver.2 with
  | (_, some _), _ => simp
  | (_, none), some _ => simp
  | (_, none), none => simp

theorem tell_ofNodes_eq_cyclic_iff {d : CyclicDependency α} :
    client.ofNodes.tell t memory = (m, some (.cyclic d)) ↔
      client.tell t.deliver.1 memory = (m, none) ∧ t.deliver.2 = some d.members := by
  obtain ⟨c⟩ := d
  rw [tell_ofNodes]
  match client.tell t.deliver.1 memory, t.deliver.2 with
  | (_, some _), _ => simp
  | (_, none), some _ => simp
  | (_, none), none => simp

/-- A client of nodes gives up at the last of what is delivered. -/
theorem Refuses.of_nodes (h : client.ofNodes.Refuses t memory m (.refused e)) :
    client.Refuses t.deliver.1 memory m e := by
  obtain ⟨before, moment, m', rfl, hb, hl⟩ := h
  obtain ⟨hb, hn⟩ := tell_ofNodes_eq_none_iff.mp hb
  rw [receive_ofNodes] at hl
  cases hc : moment.cycle? with
  | some c =>
    rw [hc] at hl
    cases hl
  | none =>
    rw [hc] at hl
    cases he : moment.emitted?.bind List.head? with
    | none =>
      rw [he] at hl
      cases hl
    | some x =>
      rw [he] at hl
      refine ⟨(Trace.deliver before).1, x, m', ?_, hb, ?_⟩
      · have hd : Trace.deliver before = ((Trace.deliver before).1, none) := by rw [← hn]
        have hlast : Trace.deliver [moment] = ([x], none) := by
          rw [Trace.deliver, hc, he]
          rfl
        rw [Trace.deliver_append, hd, hlast]
      · obtain ⟨hm, hf⟩ := Prod.mk.inj hl
        obtain ⟨e', he', hee⟩ := Option.map_eq_some_iff.mp hf
        cases hee
        exact Prod.ext hm he'

end Client

end Nodes

end TypeAlias
