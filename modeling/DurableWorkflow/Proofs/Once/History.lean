import DurableWorkflow.Proofs.Once.Calls
import DurableWorkflow.Proofs.Reading.Compile
import DurableWorkflow.Proofs.Recovery.Transparency

/-!
# Nothing is done twice

An instance is started, signals are delivered to it, and it is resumed, with one call at a time, any
of which may be dropped anywhere. Meanwhile others do what they like, but not to this instance. What
is stored of it only gets longer (`Custody.Steps.history_grows`), and nothing is asked of a step that
the stored history has settled (`Custody.Steps.asked_once`).
-/

namespace DurableWorkflow

namespace Custody

variable {C H R : Type}

/-- The call on the instance that is under way, if there is one, and the world. -/
abbrev Site (C H R : Type) :=
  Option (Operation C (H × Asks) R (Driven C)) × World R (H × Asks)

/-- What may happen to an instance in custody. A call starts it that gets its identifier, and a call
is over when it has returned, or is dropped. -/
inductive Step (q : Custody C H R) : Site C H R → Site C H R → Prop
  | start {c : Coordinator C (H × Asks) R} (hc : q.Serves c) (operation : Nat) (context : C)
      {w v : World R (H × Asks)} {op : Operation C (H × Asks) R (Driven C)}
      (hid : w.mint.1 = q.id)
      (h : Course.Step ((c.start operation q.definition.id context).run, w) (op.run, v)) :
    Step q (none, w) (some op, v)
  | signal {c : Coordinator C (H × Asks) R} (hc : q.Serves c) (operation : Nat) (name : String)
      (payload : Json) (w : World R (H × Asks)) :
    Step q (none, w) (some (c.signal operation q.id name payload), w)
  | resume {c : Coordinator C (H × Asks) R} (hc : q.Serves c) (operation : Nat)
      (w : World R (H × Asks)) : Step q (none, w) (some (c.resume operation q.id), w)
  | go {op op' : Operation C (H × Asks) R (Driven C)} {w v : World R (H × Asks)}
      (h : Course.Step (op.run, w) (op'.run, v)) : Step q (some op, w) (some op', v)
  | ended (op : Operation C (H × Asks) R (Driven C)) (w : World R (H × Asks)) :
    Step q (some op, w) (none, w)
  | aside (call : Option (Operation C (H × Asks) R (Driven C))) {w v : World R (H × Asks)}
      (h : q.Aside w v) : Step q (call, w) (call, v)

abbrev Steps (q : Custody C H R) : Site C H R → Site C H R → Prop := Relation.ReflTransGen q.Step

/-- The instance is poised, and the call under way does what it may. -/
structure Safe (q : Custody C H R) (x : Site C H R) : Prop where
  poised : ∀ s ∈ q.stored x.2, q.Poised s
  call : ∀ op ∈ x.1, op.Heeds q.watch (fun _ _ => True) x.2

variable {q : Custody C H R} {c : Coordinator C (H × Asks) R} {w v : World R (H × Asks)}
  {op : Operation C (H × Asks) R (Driven C)} {context : C} {x y z : Site C H R}

/-- What the start of an instance does once it has an identifier. -/
theorem create_heeds (hc : q.Serves c) (horderly : q.definition.Orderly) (operation : Nat)
    (context : C) (encoded : Json) (w : World R (H × Asks)) :
    (do
      let now ← Operation.now
      let s := Instance.create q.id q.definition.id q.definition.version c.kind.typeName encoded now
      Operation.request (c.repository.save s)
      c.acquire operation q.id
      let s ← Operation.moved (s.transition .running now)
      let s ← c.persist s
      c.drive q.definition.noted s context .root :
      Operation C (H × Asks) R (Driven C)).Heeds q.watch (fun _ _ => True) w := by
  refine (Operation.Heeds.now (F := fun _ => True) (fun h _ => h) trivial).bind fun now v _ => ?_
  let s := Instance.create q.id q.definition.id q.definition.version c.kind.typeName encoded now
  have hs : q.Poised s := ⟨rfl, rfl, fun _ => ⟨rfl, rfl, rfl⟩, by simp [s, Instance.create],
    by simp [s, Instance.create]⟩
  have hsave : (Operation.request (c.repository.save s) :
      Operation C (H × Asks) R Unit).Heeds q.watch (fun _ v => q.stored v = some s) v := by
    refine .request fun v _ => ?_
    have hobeys := hc.lawful.save s v.store
    cases hreply : c.repository.save s v.store with
    | mk answer store =>
      rw [hreply] at hobeys
      cases answer with
      | error fault => exact ⟨.of_aside ⟨congrFun hobeys q.id, rfl⟩, by simp⟩
      | ok =>
        obtain ⟨hnew, hview⟩ := hobeys
        have hstored : q.view store q.id = some s := (hview q.id).trans (if_pos rfl)
        refine ⟨.of_stored (fun t ht => ?_) hs hstored rfl, fun _ _ => hstored⟩
        have hnone : q.stored v = none := hnew
        simp [hnone] at ht
  refine hsave.bind fun _ v hstored => (acquire_heeds operation q.id stable_stored hstored).bind
    fun _ v hstored => ?_
  refine (Operation.Heeds.moved (Q := fun s' v => s.transition .running now = .ok s' ∧
    q.stored v = some s) fun s' hs' => ⟨hs', hstored⟩).bind fun s' v ⟨hs', hstored⟩ => ?_
  obtain ⟨hpoised, hrunning, hhistory⟩ := poised_of_start hs rfl hs'
  refine claim_heeds hc horderly hpoised hrunning hhistory fun t ht => ?_
  cases hstored.symm.trans ht
  exact hhistory ▸ .refl _

theorem start_heeds (hc : q.Serves c) (horderly : q.definition.Orderly) (operation : Nat) (context : C)
    (hid : w.mint.1 = q.id)
    (h : Course.Step ((c.start operation q.definition.id context).run, w) (op.run, v)) :
    q.Advances w v ∧ op.Heeds q.watch (fun _ _ => True) v := by
  have hrelease (v : World R (H × Asks)) : q.Advances v (World.release operation v) :=
    .of_aside ⟨rfl, rfl⟩
  unfold Operation.Heeds
  generalize op.run = course at h
  unfold Coordinator.start Coordinator.definition at h
  rw [hc.definition] at h
  cases hencode : c.kind.encode context with
  | none =>
    rw [hencode] at h
    cases h
    exact ⟨hrelease w, fun _ _ => trivial⟩
  | some encoded =>
    rw [hencode] at h
    cases h
    have hcreate := create_heeds hc horderly operation context encoded w.mint.2
    rw [← hid] at hcreate
    exact ⟨.of_aside ⟨rfl, rfl⟩, Operation.Heeds.releasing operation hcreate hrelease⟩

/-- Whatever happens, the instance advances and stays poised. -/
theorem Safe.step (horderly : q.definition.Orderly) (h : q.Safe x) (hstep : q.Step x y) :
    q.Advances x.2 y.2 ∧ q.Safe y := by
  cases hstep with
  | start hc operation context hid hfirst =>
    obtain ⟨hadvances, hcall⟩ := start_heeds hc horderly operation context hid hfirst
    refine ⟨hadvances, hadvances.poised h.poised, ?_⟩
    rintro _ ⟨⟩
    exact hcall
  | signal hc operation name payload w =>
    refine ⟨.refl w, h.poised, ?_⟩
    rintro _ ⟨⟩
    exact signal_heeds hc horderly operation name payload h.poised
  | resume hc operation w =>
    refine ⟨.refl w, h.poised, ?_⟩
    rintro _ ⟨⟩
    exact resume_heeds hc horderly operation h.poised
  | @go op op' w v hgo =>
    obtain ⟨hseen, hcall⟩ := Course.Heeds.step hgo (h.call op rfl) trivial
    have hadvances : q.Advances w v := by cases hseen <;> assumption
    refine ⟨hadvances, hadvances.poised h.poised, ?_⟩
    rintro _ ⟨⟩
    exact hcall
  | ended op w => exact ⟨.refl w, h.poised, by simp⟩
  | aside call haside =>
    have hadvances := Advances.of_aside haside
    exact ⟨hadvances, hadvances.poised h.poised, fun op hop =>
      (h.call op hop).stable (fun _ _ _ _ _ _ _ => trivial) haside⟩

theorem Steps.advances (horderly : q.definition.Orderly) (hx : q.Safe x) (h : q.Steps x y) :
    q.Advances x.2 y.2 ∧ q.Safe y := by
  induction h with
  | refl => exact ⟨.refl _, hx⟩
  | tail _ hstep ih =>
    obtain ⟨hadvances, hsafe⟩ := ih.2.step horderly hstep
    exact ⟨ih.1.trans hadvances, hsafe⟩

theorem Safe.of_new (h : q.stored w = none) : q.Safe (none, w) := ⟨by simp [h], by simp⟩

/-- However the calls on an instance come, end and break off, and whatever its steps do: the stored
history gets no shorter, and keeps its entries in their order. Where all contexts can be stored,
whatever has been stored is the beginning of what is stored later. -/
theorem Steps.history_grows {registry : Registry C H} {p : Program C H}
    (hd : p.compile registry = .ok q.definition) (hnew : q.stored w = none)
    (hy : q.Steps (none, w) y) (hz : q.Steps y z) {s : Instance} (hs : q.stored y.2 = some s) :
    ∃ s', q.stored z.2 = some s' ∧ s.history.Sublist s'.history ∧
      (q.whole → s.history <+: s'.history) := by
  have horderly := p.orderly_of_compile registry hd
  obtain ⟨-, hsafe⟩ := hy.advances horderly (.of_new hnew)
  obtain ⟨s', hs', hlonger⟩ := (hz.advances horderly hsafe).1.longer s hs
  exact ⟨s', hs', hlonger.sublist, hlonger.begins⟩

/-- However the calls on an instance come, end and break off, and whatever its steps do: once an
entry is stored that a step has succeeded, or waits, the step is not executed any more, and once one
is stored that it has succeeded, no signal is given to it any more. -/
theorem Steps.asked_once {registry : Registry C H} {p : Program C H}
    (hd : p.compile registry = .ok q.definition) (hnew : q.stored w = none)
    (hy : q.Steps (none, w) y) (hz : q.Steps y z) {s : Instance} (hs : q.stored y.2 = some s)
    {t : StepTrace} (ht : t ∈ s.history) :
    ∃ l, z.2.memory.2 = y.2.memory.2 ++ l ∧
      ((t.outcome = .succeeded ∨ ∃ signal, t.outcome = .suspended signal) →
        (t.node, .execute) ∉ l) ∧
      (t.outcome = .succeeded → (t.node, .reply) ∉ l) := by
  have horderly := p.orderly_of_compile registry hd
  obtain ⟨-, hsafe⟩ := hy.advances horderly (.of_new hnew)
  obtain ⟨l, hl, hasked⟩ := (hz.advances horderly hsafe).1.asked
  exact ⟨l, hl, fun hdone ha => hasked _ ha s hs ⟨t, ht, rfl, hdone.imp_right fun h => ⟨rfl, h⟩⟩,
    fun hdone ha => hasked _ ha s hs ⟨t, ht, rfl, .inl hdone⟩⟩

/-! ### A number that is dialled once -/

/-- What a call leaves that takes its actions in order. -/
def through (call : Operation C (H × Asks) R (Driven C)) (w : World R (H × Asks)) :
    World R (H × Asks) :=
  match call.run.inOrder (w, []) with
  | some (.done _, v, _) => v
  | _ => w

theorem steps_through (op : Operation C (H × Asks) R (Driven C)) (w : World R (H × Asks)) :
    ∃ r, Course.Steps (op.run, w) (r, through op w) := by
  unfold through
  split
  · next a v calls h => exact ⟨_, Course.steps_of_inOrder _ h⟩
  · exact ⟨_, .refl⟩

theorem Steps.go {r : Errand C (H × Asks) R _} (h : Course.Steps (op.run, w) (r, v)) :
    q.Steps (some op, w) (none, v) :=
  (h.lift (fun x => (some (ExceptT.mk x.1), x.2)) fun _ _ h => .go h).tail (.ended _ _)

theorem Steps.signalled (hc : q.Serves c) (operation : Nat) (name : String) (payload : Json)
    (w : World R (H × Asks)) :
    q.Steps (none, w) (none, through (c.signal operation q.id name payload) w) :=
  (steps_through _ w).elim fun _ h => .head (.signal hc operation name payload w) (Steps.go h)

theorem Steps.started (hc : q.Serves c) (operation : Nat) (context : C) (hid : w.mint.1 = q.id) :
    q.Steps (none, w) (none, through (c.start operation q.definition.id context) w) := by
  obtain ⟨r, h⟩ := steps_through (c.start operation q.definition.id context) w
  obtain heq | ⟨⟨first, u⟩, hfirst, hrest⟩ := h.cases_head
  · rw [← (Prod.mk.inj heq).2]
  · have hstep : q.Step (none, w) (some (ExceptT.mk first), u) :=
      .start hc operation context hid hfirst
    exact .head hstep (Steps.go hrest)

/-- The number that is dialled, in custody. -/
def dialledNumber : Custody Nat Unit Memory where
  definition := dialled.definition
  view := Memory.find?
  id := dialledId
  whole := True

def notingDialler : Coordinator Nat (Unit × Asks) Memory where
  number := 0
  kind := dialled.kind
  repository := Memory.repository
  notifier := .silent
  options := dialled.options
  definitions := [dialled.definition.noted]

theorem notingDialler_serves : dialledNumber.Serves notingDialler :=
  ⟨rfl, Memory.repository_lawful, fun _ _ => rfl⟩

/-- Nothing has been dialled yet. -/
def undialled : World Memory (Unit × Asks) := { store := default, memory := ((), []), wall := ⟨0, 0⟩ }

/-- A digit is asked for. -/
def dialledOnce : World Memory (Unit × Asks) :=
  through (notingDialler.start 0 dialled.definition.id 0) undialled

/-- The digit has been given. -/
def dialledOn : World Memory (Unit × Asks) :=
  through (notingDialler.signal 1 dialledId "digit" (.int 2)) dialledOnce

theorem Steps.asked_once_dialled : dialling.compile {} = .ok dialledNumber.definition ∧
    dialledNumber.stored undialled = none ∧
    dialledNumber.Steps (none, undialled) (none, dialledOnce) ∧
    dialledNumber.Steps (none, dialledOnce) (none, dialledOn) ∧
    ∃ s, dialledNumber.stored dialledOnce = some s ∧ ∃ t ∈ s.history, t.node = 1 ∧
      t.outcome = .suspended "digit" ∧
      dialledOnce.memory.2 = [(0, .execute), (1, .execute)] ∧
      ∃ l, dialledOn.memory.2 = dialledOnce.memory.2 ++ l ∧ l = [(1, .reply), (2, .execute)] ∧
        (1, .execute) ∉ l := by
  have hcompile : dialling.compile {} = .ok dialledNumber.definition := rfl
  have hstarted : dialledNumber.Steps (none, undialled) (none, dialledOnce) :=
    .started notingDialler_serves 0 0 rfl
  have hsignalled : dialledNumber.Steps (none, dialledOnce) (none, dialledOn) :=
    .signalled notingDialler_serves 1 "digit" (.int 2) dialledOnce
  have hstored : (dialledNumber.stored dialledOnce).map (fun s =>
      s.history.map fun t => (t.node, t.outcome)) =
      some [(0, .succeeded), (1, .suspended "digit")] := by decide +kernel
  have hnotes : dialledOnce.memory.2 = [(0, .execute), (1, .execute)] ∧ dialledOn.memory.2 =
      [(0, .execute), (1, .execute), (1, .reply), (2, .execute)] := by decide +kernel
  -- The worlds are too large to be looked into.
  generalize dialledOnce = w at *
  generalize dialledOn = v at *
  obtain ⟨s, hs, hhistory⟩ := Option.map_eq_some_iff.1 hstored
  obtain ⟨t, ht, hentry⟩ : ∃ t ∈ s.history, (t.node, t.outcome) = (1, .suspended "digit") :=
    List.mem_map.1 (hhistory ▸ by simp)
  obtain ⟨hnode, hsuspended⟩ := Prod.mk.inj hentry
  obtain ⟨l, hl, hexecute, -⟩ := Steps.asked_once hcompile rfl hstarted hsignalled hs ht
  rw [hnode] at hexecute
  refine ⟨hcompile, rfl, hstarted, hsignalled, s, hs, t, ht, hnode, hsuspended, hnotes.1, l, hl, ?_,
    hexecute (.inr ⟨_, hsuspended⟩)⟩
  rw [show v.memory.2 = _ from hl, hnotes.1] at hnotes
  exact List.append_cancel_left hnotes.2

end Custody

end DurableWorkflow
