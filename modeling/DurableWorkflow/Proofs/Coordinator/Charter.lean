import DurableWorkflow.Proofs.Coordinator.Rule
import DurableWorkflow.Proofs.Run.Assertions
import DurableWorkflow.Proofs.Run.Passage
import DurableWorkflow.Proofs.Run.Watched

/-!
# Charters

A charter says of the instances of a workflow what holds of their contexts wherever they stand, in
phases that change when a signal is accepted. What is stored of an instance then is lawful in one of
the phases (`Charter.Lawful`), and this makes a rule about its versions. A coordinator that has the
workflow registered drives by this rule, if the assertions of every phase fit its graph
(`Charter.drives`).
-/

namespace DurableWorkflow

variable {C H R ι : Type}

/-! ### Driving by a rule -/

/-- What a run that has stopped may leave behind of an instance, before it is stored. -/
inductive Instance.Parts (x : Instance) : RunOutcome → Instance → Prop
  | completed {s : Instance} {now : Timestamp} (h : x.transition .completed now = .ok s) :
    Parts x .completed { s with pending := [] }
  | failed {s : Instance} {now : Timestamp} (failure : Failure)
    (h : x.transition .failed now = .ok s) :
    Parts x (.failed failure) { s with pending := [], error := some failure.text }
  | suspended {s : Instance} {now : Timestamp} {deadline : Option Timestamp} (w : Suspension)
    (h : x.enterWait w.signal w.node deadline w.pending now = .ok s) : Parts x (.suspended w) s

namespace Rule

variable {r : Rule} {view : R → Uuid → Option Instance} {call : Nat} {w : World (Journaled R) H}
  {c : Coordinator C H R} {d : Definition C H} {t x u : Instance} {context : C}

/-- The rule lets the call store the end of a run, or that it was cancelled. -/
def Closes (r : Rule) (encode : C → Option Json) (call : Nat) :
    Instance × Option (RunResult C) → Journal → Prop
  | (x, none), j => ∃ t, j.Knows call t ∧ ∀ now s, x.transition .cancelled now = .ok s →
      r.valid t → r.moves t { s with error := some "cancelled" }
  | (x, some result), j => ∃ t, j.Knows call t ∧ ∀ context history s,
      encode result.context = some context →
      Instance.Parts { x with context, history } result.outcome s → r.valid t → r.moves t s

theorem file_heeds {result : Except TransitionError Instance} (note : Instance → Instance)
    (notice : Instance → Notice) (ht : w.store.journal.Knows call t)
    (h : ∀ s, result = .ok s → r.valid t → r.moves t (note s)) :
    (do
      let s ← Operation.moved result
      let s ← (c.journaled call).persist (note s)
      (c.journaled call).tell (notice s)
      return s : Operation C H (Journaled R) Instance).Heeds (r.watch C view call)
      (fun _ _ => True) w := by
  refine (moved (F := (·.Knows call t)) ht).bind fun s v ⟨hs, ht⟩ => ?_
  refine (persist_heeds ht (h s hs)).bind fun s' v _ => ?_
  exact (idle_modify (fun _ => Notifier.tell_store ..) Journal.lasting_true trivial).bind
    fun _ _ _ => .pure trivial

theorem settle_heeds {outcome : RunOutcome} (ht : w.store.journal.Knows call t)
    (h : ∀ s, Instance.Parts x outcome s → r.valid t → r.moves t s) :
    ((c.journaled call).settle x outcome).Heeds (r.watch C view call) (fun _ _ => True) w := by
  have hnow : (Operation.now : Operation C H (Journaled R) Timestamp).Heeds (r.watch C view call)
      (fun _ v => v.store.journal.Knows call t) w := now (Journal.lasting_knows call t) ht
  cases outcome with
  | completed =>
    exact hnow.bind fun now v ht => file_heeds (fun s => { s with pending := [] }) .completed ht
      fun s hs => h _ (.completed hs)
  | failed failure =>
    exact hnow.bind fun now v ht => file_heeds
      (fun s => { s with pending := [], error := some failure.text }) (.errored · failure.text) ht
      fun s hs => h _ (.failed failure hs)
  | suspended wait =>
    refine hnow.bind fun now v ht => ?_
    split
    · exact .crash _
    · exact file_heeds id .approvalRequested ht fun s hs => h _ (.suspended wait hs)

theorem drive_heeds {start : StartPoint} (h : (((c.journaled call).environment u.id).run d start
      context u).Heeds (r.watch C view call)
      (fun y v => r.Closes c.kind.encode call y v.store.journal) w) :
    ((c.journaled call).drive d u context start).Heeds (r.watch C view call) (fun _ _ => True) w := by
  refine (Operation.Heeds.ofErrand h).bind fun y v hy => ?_
  obtain ⟨x, result⟩ := y
  cases result with
  | none =>
    obtain ⟨t, ht, hmove⟩ := hy
    refine (now (Journal.lasting_knows call t) ht).bind fun now v ht => ?_
    refine (moved (F := (·.Knows call t)) ht).bind fun s v ⟨hs, ht⟩ => ?_
    refine (persist_heeds ht (hmove now s hs)).bind fun s v _ => ?_
    exact (idle_modify (f := World.publish _) (fun _ => rfl) Journal.lasting_true trivial).bind
      fun _ _ _ => .throw _
  | some result =>
    obtain ⟨t, ht, hmove⟩ := hy
    refine Operation.Heeds.bind (Q := fun context v =>
      c.kind.encode result.context = some context ∧ v.store.journal.Knows call t)
      (.orThrow fun _ hcontext => ⟨hcontext, ht⟩) fun context v ⟨hcontext, ht⟩ => ?_
    exact (settle_heeds ht fun s hs => hmove context _ s hcontext hs).bind fun _ _ _ => .pure trivial

/-! ### Other instances -/

theorem parts_same {outcome : RunOutcome} {s : Instance} (h : Instance.Parts x outcome s) :
    s.id = x.id ∧ s.revision = x.revision := by
  cases h with
  | completed h | failed _ h =>
    obtain ⟨hid, hrevision, -⟩ := Instance.of_transition h
    exact ⟨hid, hrevision⟩
  | suspended _ h =>
    obtain ⟨hid, hrevision, -⟩ := Instance.of_enterWait h
    exact ⟨hid, hrevision⟩

/-- A version that the call knows of an instance, which is in hand. -/
def Handles (call : Nat) (id : Uuid) (board : Board C H Instance) (w : World (Journaled R) H) :
    Prop :=
  ∃ t, w.store.journal.Knows call t ∧ t.id = id ∧ board.extra.id = t.id ∧
    board.extra.revision = t.revision

/-- Of an instance that the rule says nothing of, a run may store what it likes. -/
theorem run_free (hfree : ∀ t s, t.id = u.id → s.id = t.id → s.revision = t.revision → r.moves t s)
    (hstored : ⟨call, .stored u⟩ ∈ w.store.journal) (start : StartPoint) :
    (((c.journaled call).environment u.id).run d start context u).Heeds (r.watch C view call)
      (fun y v => r.Closes c.kind.encode call y v.store.journal) w := by
  have hstable (board : Board C H Instance) : (r.watch C view call).Stable
      (Handles (R := R) (H := H) call u.id board) := by
    rintro w v ⟨t, ht, h⟩ hv
    exact ⟨t, Journal.lasting_knows call t (· ≠ call) _ _ ht hv, h⟩
  have hconclude (begin : Nat) (board : Board C H Instance) (o : RunOutcome)
      (v : World (Journaled R) H) (h : Handles call u.id board v) :
      (((c.journaled call).environment u.id).conclude d begin board o).Heeds (r.watch C view call)
        (fun y v => r.Closes c.kind.encode call (y.1.extra, some y.2) v.store.journal) v := by
    refine (Environment.conclude_heeds hstable (fun _ _ => ⟨.refl, .refl⟩) (fun _ _ _ h => h) d begin
      o (fun _ _ _ work _ => ?_) h).mono fun y v hy => ?_
    · exact Environment.onBoard_keeps (fun b m h w _ hb => ⟨⟨.refl, .refl⟩, hb⟩) work
    · obtain ⟨⟨t, ht, htu, hid, hrevision⟩, -⟩ := hy
      refine ⟨t, ht, fun context history s _ hs _ => ?_⟩
      obtain ⟨hsid, hsrevision⟩ := parts_same hs
      exact hfree t s htu (hsid.trans hid) (hsrevision.trans hrevision)
  refine Environment.run_heeds (K := fun path board w => Handles call u.id board w ∧
      path.Keeps (Coordinator.Saves call))
    (Watch.guides_keeps hstable (fun s t hs hst => ?_) (fun _ => ⟨.refl, .refl⟩)
      fun _ _ _ _ => trivial) (fun _ _ => ⟨.refl, .refl⟩) (fun v hv v' e hv' => ⟨?_, ?_⟩)
    (fun begin board r v hdone _ o _ => hconclude begin board o v hdone.1)
    (fun board r v hdone _ _ => ?_)
    fun begin path board v hpath => hconclude begin board _ v hpath.1
  · obtain ⟨u', hu', hid, hextra, hrevision⟩ := hs
    obtain ⟨hsame, hjournal⟩ | ⟨context', p, now, hsave⟩ := hst
    · simp only [watch, Handles, hsame, hjournal]
      exact ⟨⟨.refl, .refl⟩, u', hu', hid, hextra, hrevision⟩
    obtain ⟨hsame, hjournal⟩ | ⟨hsame, hjournal⟩ := hsave
    · simp only [watch, Handles, hsame, hjournal]
      exact ⟨⟨.refl, .refl⟩, u', hu', hid, hextra, hrevision⟩
    · simp only [watch, Handles, hsame, hjournal]
      exact ⟨⟨.stored hu' (hfree _ _ hid hextra hrevision), Journal.mints_stored⟩,
        _, ⟨_, List.mem_cons_self .., rfl⟩, hextra.trans hid, rfl, rfl⟩
  · exact ⟨u, ⟨_, Journal.lasting_mem _ (· ≠ call) _ _ (Journal.lasting_mem _ (· ≠ call) _ _ hstored hv)
      hv', rfl⟩, rfl, rfl, rfl⟩
  · exact Environment.traverse_keeps (Coordinator.environment_saves c call u.id d.graph) start
  · obtain ⟨⟨t, ht, htu, hid, hrevision⟩, -⟩ := hdone
    refine ⟨t, ht, fun now s hs _ => ?_⟩
    obtain ⟨hsid, hsrevision, -⟩ := Instance.of_transition hs
    exact hfree t _ htu (hsid.trans hid) (hsrevision.trans hrevision)

end Rule

/-- Only steps of the graph are entered as completed. -/
def Environment.Collects {X ω : Type} (g : Graph C H) (s t : Board C H X × ω) : Prop :=
  ∀ x ∈ t.1.ledger.completed, x ∈ s.1.ledger.completed ∨ x ∈ g.steps

theorem Environment.within_collects {X ω : Type} (env : Environment C H X ω) (g : Graph C H) :
    env.Within g (Collects g) where
  board b b' w h x hx := .inl (h.completed ▸ hx)
  enter node s b w hs x hx := by
    obtain hold | hnew := List.mem_append.1 hx
    · exact .inl hold
    · split at hnew
      · rw [List.mem_singleton.1 hnew]
        exact .inr hs
      · simp at hnew
  publish _ _ _ _ _ hx := .inl hx
  memory _ _ _ _ _ hx := .inl hx
  note _ _ _ _ hx := .inl hx
  save _ _ _ _ _ _ _ hx := .inl hx

/-! ### Charters -/

/-- Where an instance stands, its context is as the assertions say. -/
def Assertions.Stands (P : Assertions C) (root : NodeId) (s : Instance) (c : C) : Prop :=
  match s.status with
  | .created | .running =>
    P.Begins root (Coordinator.restartPoint { s with status := .running }) c
  | .waiting => ∃ w : Suspension, s.awaited = some w.signal ∧ s.waitingNode = some w.node ∧
      s.pending = w.pending ∧ P.waits w c
  | .completed => P.ahead [] c
  | .failed | .cancelled | .timedOut => True

structure Charter (C ι : Type) where
  workflow : String
  root : NodeId
  encode : C → Option Json
  phase : ι → Assertions C
  /-- The phase that begins when a signal is accepted. -/
  next : ι → Signal → ι

namespace Charter

variable (K : Charter C ι)

/-- In this phase the version is as the charter says. -/
structure Lawful (i : ι) (s : Instance) : Prop where
  workflow : s.workflow = K.workflow
  context : ∃ c, K.encode c = some s.context ∧ (K.phase i).live c ∧ (K.phase i).Stands K.root s c

/-- A version of this instance is lawful in some phase. What is stored in its place is so in the same
phase, unless the instance has waited and the signal that it has accepted is recorded. -/
def rule (id : Uuid) : Rule where
  valid s := s.id = id → ∃ i, K.Lawful i s
  moves t s := s.id = t.id ∧ s.revision = t.revision ∧ (t.id = id → t.status.isFinal = false ∧
    ∃ i, K.Lawful i t ∧ (K.Lawful i s ∨ t.status = .waiting ∧
      ∃ node signal, s.pendingDelivery = some (node, signal) ∧ K.Lawful (K.next i signal) s))

/-- Where an instance waits, accepting the signal leads to where it is told of it. -/
def Accepts : Prop :=
  ∀ i (w : Suspension) signal c, (K.phase i).waits w c → (K.phase i).live c →
    w.signal = signal.name → (K.phase (K.next i signal)).live c ∧
      (K.phase (K.next i signal)).told w.node w.pending signal c

/-- The assertions fit the definition in every phase, also where its steps are undone. -/
structure Fits (d : Definition C H) : Prop where
  root : d.root = K.root
  graph : ∀ i, (K.phase i).Fits d.graph
  undo : ∀ i, ∀ x ∈ d.graph.steps, ∀ work ∈ x.2.compensate,
    work.Keeps fun s t => (K.phase i).Spares s.1 t.1

/-- The coordinator has the workflow registered, and reads back what it has written. -/
structure Registered (c : Coordinator C H R) : Prop where
  fits : ∀ d ∈ c.definitions, d.id = K.workflow → K.Fits d
  encode : c.kind.encode = K.encode
  decode : ∀ a b j, K.encode a = some j → K.encode b = some j ∨ c.kind.decode j = some b → b = a

variable {K} {i : ι} {s t x : Instance} {id : Uuid}

theorem Lawful.revise (h : K.Lawful i s) (n : Nat) : K.Lawful i { s with revision := n } :=
  ⟨h.workflow, h.context⟩

theorem lawful_of_fresh {c : C} (hs : s.Fresh) (hworkflow : s.workflow = K.workflow)
    (hcontext : K.encode c = some s.context) (hlive : (K.phase i).live c)
    (hc : (K.phase i).ahead [K.root] c) : K.Lawful i s := by
  obtain ⟨id, workflow, version, contextType, context, now, rfl⟩ := hs
  exact ⟨hworkflow, c, hcontext, hlive, hc⟩

theorem isFinal_of_transition {target : Status} {now : Timestamp}
    (h : t.transition target now = .ok s) : t.status.isFinal = false := by
  obtain ⟨hallows, -⟩ := Instance.transition_eq h
  by_contra hfinal
  rw [Status.not_allows_of_isFinal (by simpa using hfinal)] at hallows
  simp at hallows

theorem Lawful.begin {now : Timestamp} (h : K.Lawful i t) (hcreated : t.status = .created)
    (hs : t.transition .running now = .ok s) : K.Lawful i s := by
  obtain ⟨-, rfl⟩ := Instance.transition_eq hs
  obtain ⟨hworkflow, c, hcontext, hlive, hstands⟩ := h
  refine ⟨hworkflow, c, hcontext, hlive, ?_⟩
  simp only [Assertions.Stands, hcreated] at hstands ⊢
  exact hstands

theorem Lawful.accept (hK : K.Accepts) {name : String} {payload : Json} {node : NodeId}
    {now : Timestamp} (h : K.Lawful i t) (hwaits : t.isWaitingFor name = true)
    (hnode : t.waitingNode = some node)
    (hs : t.acceptSignal node ⟨name, payload, now⟩ now = .ok s) :
    s.pendingDelivery = some (node, ⟨name, payload, now⟩) ∧
      K.Lawful (K.next i ⟨name, payload, now⟩) s := by
  obtain ⟨u, hu, rfl⟩ := Instance.acceptSignal_eq hs
  obtain ⟨-, rfl⟩ := Instance.transition_eq hu
  simp only [Instance.isWaitingFor, Bool.and_eq_true, beq_iff_eq] at hwaits
  obtain ⟨hworkflow, c, hcontext, hlive, hstands⟩ := h
  simp only [Assertions.Stands, hwaits.1] at hstands
  obtain ⟨w, hawaited, hwaiting, hpending, hw⟩ := hstands
  obtain rfl : node = w.node := Option.some.inj (hnode.symm.trans hwaiting)
  have hname : w.signal = name := Option.some.inj (hawaited.symm.trans hwaits.2)
  obtain ⟨hlive', htold⟩ := hK i w ⟨name, payload, now⟩ c hw hlive hname
  refine ⟨rfl, hworkflow, c, hcontext, hlive', ?_⟩
  show (K.phase _).told w.node t.pending _ c
  rw [hpending]
  exact htold

/-- An instance that ends without having completed. -/
theorem Lawful.end_of {target : Status} {now : Timestamp} (h : K.Lawful i t)
    (hs : t.transition target now = .ok s)
    (htarget : target = .failed ∨ target = .cancelled ∨ target = .timedOut) (message : Option String) :
    K.Lawful i { s with error := message } := by
  obtain ⟨-, rfl⟩ := Instance.transition_eq hs
  obtain ⟨hworkflow, c, hcontext, hlive, -⟩ := h
  refine ⟨hworkflow, c, hcontext, hlive, ?_⟩
  obtain rfl | rfl | rfl := htarget <;> trivial

theorem lets (hK : K.Accepts) (id : Uuid) : (K.rule id).Lets where
  same h := ⟨h.1, h.2.1⟩
  valid {t s} h n hid := by
    obtain ⟨hsame, -, hmove⟩ := h
    obtain ⟨-, i, -, hs | ⟨-, node, signal, -, hs⟩⟩ := hmove (hsame.symm.trans hid)
    · exact ⟨i, hs.revise n⟩
    · exact ⟨_, hs.revise n⟩
  begin {t s now} ht hcreated hs := by
    obtain ⟨hid, hrevision, -⟩ := Instance.of_transition hs
    refine ⟨hid, hrevision, fun htid => ⟨isFinal_of_transition hs, ?_⟩⟩
    obtain ⟨i, hi⟩ := ht htid
    exact ⟨i, hi, .inl (hi.begin hcreated hs)⟩
  renew {t} ht hrunning := by
    refine ⟨rfl, rfl, fun htid => ⟨by simp [hrunning, Status.isFinal], ?_⟩⟩
    obtain ⟨i, hi⟩ := ht htid
    exact ⟨i, hi, .inl hi⟩
  accept {t s name payload node now} ht hwaits hnode hs := by
    obtain ⟨hid, hrevision, -⟩ := Instance.of_acceptSignal hs
    obtain ⟨u, hu, -⟩ := Instance.acceptSignal_eq hs
    refine ⟨hid, hrevision, fun htid => ⟨isFinal_of_transition hu, ?_⟩⟩
    obtain ⟨i, hi⟩ := ht htid
    have hwaiting : t.status = .waiting := by
      simp only [Instance.isWaitingFor, Bool.and_eq_true, beq_iff_eq] at hwaits
      exact hwaits.1
    exact ⟨i, hi, .inr ⟨hwaiting, _, _, hi.accept hK hwaits hnode hs⟩⟩
  cancel {t s now} ht hs := by
    obtain ⟨hid, hrevision, -⟩ := Instance.of_transition hs
    refine ⟨hid, hrevision, fun htid => ⟨isFinal_of_transition hs, ?_⟩⟩
    obtain ⟨i, hi⟩ := ht htid
    exact ⟨i, hi, .inl (hi.end_of hs (.inr (.inl rfl)) s.error)⟩
  expire {t s now signal message} ht _ hs := by
    obtain ⟨hid, hrevision, -⟩ := Sweeper.of_expire hs
    obtain ⟨u, hu, rfl⟩ := Instance.expire_eq hs
    refine ⟨hid, hrevision, fun htid => ⟨isFinal_of_transition hu, ?_⟩⟩
    obtain ⟨i, hi⟩ := ht htid
    exact ⟨i, hi, .inl (hi.end_of hu (.inr (.inr rfl)) (some message))⟩

/-! ### Driving under a charter -/

/-- A checkpoint of which the assertion holds is lawful. -/
theorem lawful_of_checkpoint {c : C} {ahead : List NodeId} {trace : List StepTrace} {context : Json}
    {now : Timestamp} (hworkflow : x.workflow = K.workflow) (hrunning : x.status = .running)
    (hcontext : K.encode c = some context) (hlive : (K.phase i).live c)
    (h : (K.phase i).Onward [] ahead trace c) :
    K.Lawful i (Coordinator.atCheckpoint x context ⟨c, ahead.reverse, trace⟩ now) := by
  refine ⟨hworkflow, c, hcontext, hlive, ?_⟩
  have hstart : Coordinator.restartPoint
      { Coordinator.atCheckpoint x context ⟨c, ahead.reverse, trace⟩ now with status := .running } =
        .frontier ahead.reverse := by
    have hbegun : (ahead.reverse.isEmpty && (x.history ++ trace).isEmpty) = false := by
      by_contra hempty
      simp only [Bool.not_eq_false, Bool.and_eq_true, List.isEmpty_iff, List.reverse_eq_nil_iff,
        List.append_eq_nil_iff] at hempty
      exact h.2 (by simp [hempty.1]) hempty.2.2
    show (if (ahead.reverse.isEmpty && (x.history ++ trace).isEmpty) = true then StartPoint.root
      else .frontier ahead.reverse) = .frontier ahead.reverse
    rw [hbegun]
    rfl
  have hstatus : (Coordinator.atCheckpoint x context ⟨c, ahead.reverse, trace⟩ now).status =
      .running := hrunning
  simp only [Assertions.Stands, hstatus, hstart, Assertions.Begins, List.reverse_reverse]
  simpa using h.1

/-- What is stored of a run that has stopped is lawful. -/
theorem lawful_of_parts {c : C} {outcome : RunOutcome} {context : Json} {history : List StepTrace}
    (hs : Instance.Parts { x with context, history } outcome s)
    (hworkflow : x.workflow = K.workflow) (hcontext : K.encode c = some context)
    (hlive : (K.phase i).live c) (hdone : outcome = .completed → (K.phase i).ahead [] c)
    (hwaits : ∀ w, outcome = .suspended w → (K.phase i).waits w c) : K.Lawful i s := by
  cases hs with
  | completed h =>
    obtain ⟨-, rfl⟩ := Instance.transition_eq h
    exact ⟨hworkflow, c, hcontext, hlive, hdone rfl⟩
  | failed failure h =>
    obtain ⟨-, rfl⟩ := Instance.transition_eq h
    exact ⟨hworkflow, c, hcontext, hlive, trivial⟩
  | suspended w h =>
    obtain ⟨u, hu, rfl⟩ := Instance.enterWait_eq h
    obtain ⟨-, rfl⟩ := Instance.transition_eq hu
    exact ⟨hworkflow, c, hcontext, hlive, w, rfl, rfl, rfl, hwaits w rfl⟩

/-- What a call has in hand of an instance that it runs. -/
structure InHand (K : Charter C ι) (g : Graph C H) (call : Nat) (id : Uuid) (i : ι)
    (s : Board C H Instance × World (Journaled R) H) : Prop where
  known : ∃ t, s.2.store.journal.Knows call t ∧ t.id = id ∧ K.Lawful i t ∧ t.Ahead s.1.extra
  workflow : s.1.extra.workflow = K.workflow
  context : ∃ c, K.encode c = some s.1.extra.context ∧ (K.phase i).live c
  live : (K.phase i).live s.1.context
  steps : ∀ x ∈ s.1.ledger.completed, x ∈ g.steps

variable {view : R → Uuid → Option Instance} {call : Nat} {w : World (Journaled R) H}
  {c : Coordinator C H R} {d : Definition C H} {u : Instance} {g : Graph C H}
  {board : Board C H Instance} {y z : Board C H Instance × World (Journaled R) H}

theorem InHand.lasts : Lasts (Beside ((K.rule id).watch C view call).others)
    (K.InHand (R := R) g call id i) := by
  rintro ⟨board, w⟩ ⟨_, v⟩ h ⟨rfl, hv⟩
  obtain ⟨t, ht, hlawful⟩ := h.known
  exact ⟨⟨t, Journal.lasting_knows call t (· ≠ call) _ _ ht hv, hlawful⟩, h.workflow, h.context,
    h.live, h.steps⟩

/-- On a run the call stores what is lawful. -/
theorem InHand.acts (hc : K.Registered c) (h : K.InHand g call id i y)
    (hact : (K.phase i).Acts ((c.journaled call).environment id) (fun w v => v.store = w.store) y z)
    (hsteps : Environment.Collects g y z) :
    (y.2.store.journal.Adds call (K.rule id).moves z.2.store.journal ∧
      y.2.store.journal.Mints Instance.Fresh call z.2.store.journal) ∧ K.InHand g call id i z := by
  have hdone : ∀ x ∈ z.1.ledger.completed, x ∈ g.steps := fun x hx =>
    (hsteps x hx).elim (h.steps x) fun hx => hx
  obtain ⟨t, ht, hid, hlawful, hahead⟩ := h.known
  cases hact with
  | @stays b b' w w' hextra hlive hstore =>
    have hjournal : w'.store.journal = w.store.journal := congrArg Journaled.journal hstore
    refine ⟨by rw [hjournal]; exact ⟨.refl, .refl⟩, ⟨t, ?_, hid, hlawful, ?_⟩, ?_, ?_, hlive h.live, hdone⟩
    · rw [hjournal]
      exact ht
    · rw [hextra]
      exact hahead
    · rw [hextra]
      exact h.workflow
    · rw [hextra]
      exact h.context
  | @saves b w w' x ahead trace honward hsave =>
    obtain ⟨hsame, rfl⟩ | ⟨context, hcontext, hsaved⟩ := Coordinator.save_cases hsave
    · subst hsame
      exact ⟨⟨.refl, .refl⟩, h.known, h.workflow, h.context, h.live, hdone⟩
    rw [hc.encode] at hcontext
    have hcheck : K.Lawful i (Coordinator.atCheckpoint b.extra context
        ⟨b.context, ahead.reverse, trace⟩ w.wall) :=
      lawful_of_checkpoint h.workflow hahead.status hcontext h.live honward
    have hahead' := hahead.atCheckpoint context ⟨b.context, ahead.reverse, trace⟩ w.wall
    obtain ⟨hx, hjournal⟩ | ⟨hx, hjournal⟩ := hsaved
    · -- The checkpoint was refused.
      change w'.store.journal = w.store.journal at hjournal
      refine ⟨by rw [hjournal]; exact ⟨.refl, .refl⟩, ⟨t, ?_, hid, hlawful, ?_⟩, ?_, ?_, h.live, hdone⟩
      · rw [hjournal]
        exact ht
      · rw [hx]
        exact hahead'
      · rw [hx]
        exact h.workflow
      · rw [hx]
        exact ⟨_, hcontext, h.live⟩
    · have hmove : (K.rule id).moves t _ :=
        ⟨hahead'.id, hahead'.revision, fun _ => ⟨by simp [hahead.running, Status.isFinal],
          i, hlawful, .inl hcheck⟩⟩
      refine ⟨by rw [hjournal]; exact ⟨.stored ht hmove, Journal.mints_stored⟩,
        ⟨x, ?_, ?_, ?_, ?_⟩, ?_, ?_, h.live, hdone⟩
      · rw [hjournal, hx]
        exact ⟨_, List.mem_cons_self .., rfl⟩
      · rw [hx]
        exact hahead.id.trans hid
      · rw [hx]
        exact hcheck.revise _
      · rw [hx]
        exact .refl hahead.status
      · rw [hx]
        exact h.workflow
      · rw [hx]
        exact ⟨_, hcontext, h.live⟩

/-- Work that spares what has to hold all the way leaves the instance in hand. -/
theorem InHand.undo {env : Environment C H Instance (World (Journaled R) H)}
    (hmemory : ∀ h w, (env.setMemory h w).store = w.store) {work : Work (C × H) StepResult}
    (hwork : work.Keeps fun s t => (K.phase i).Spares s.1 t.1) :
    (env.onBoard work).Keeps fun y z => K.InHand g call id i y →
      z.2.store = y.2.store ∧ K.InHand g call id i z := by
  rw [Environment.onBoard]
  induction work with
  | done | crash => trivial
  | act f rest ih =>
    refine fun y => ⟨fun h => ⟨hmemory _ _, ?_⟩, ih _ (hwork _).2⟩
    obtain ⟨t, ht, hlawful⟩ := h.known
    refine ⟨⟨t, ?_, hlawful⟩, h.workflow, h.context, (hwork (y.1.context, env.memory y.2)).1 h.live,
      h.steps⟩
    show (env.setMemory _ y.2).store.journal.Knows call t
    rw [hmemory]
    exact ht
  | sleep d rest ih => exact ih hwork
  | awaitCancel rest ih => exact ih hwork

/-- The end of a run of which the reports are so. -/
theorem InHand.conclude (hc : K.Registered c) (hd : K.Fits d) (h : K.InHand d.graph call id i (board, w))
    {outcome : RunOutcome} (hdone : outcome = .completed → (K.phase i).ahead [] board.context)
    (hwaits : ∀ s, outcome = .suspended s → (K.phase i).waits s board.context) (runId : Uuid)
    (begin : Nat) : (((c.journaled call).environment runId).conclude d begin board outcome).Heeds
      ((K.rule id).watch C view call)
      (fun x v => (K.rule id).Closes c.kind.encode call (x.1.extra, some x.2) v.store.journal) w := by
  let F (own : Board C H Instance) (v : World (Journaled R) H) : Prop :=
    K.InHand d.graph call id i (own, v) ∧ (outcome.isFailed = false → own.context = board.context)
  refine (Environment.conclude_heeds (F := F) (fun own w v hF hv => ⟨InHand.lasts hF.1 ⟨rfl, hv⟩, hF.2⟩)
    (fun _ _ => ⟨.refl, .refl⟩) (fun own e v hF => ⟨⟨hF.1.known, hF.1.workflow, hF.1.context,
      hF.1.live, hF.1.steps⟩, hF.2⟩) d begin outcome (fun hfailed x hx work hwork => ?_)
    ⟨h, fun _ => rfl⟩).mono fun x v hx => ?_
  · have hundo : (((c.journaled call).environment runId).onBoard work).Keeps fun y z =>
        K.InHand d.graph call id i y → z.2.store = y.2.store ∧ K.InHand d.graph call id i z :=
      InHand.undo (fun _ _ => rfl) (hd.undo i x (h.steps x hx) work hwork)
    refine hundo.mono fun y z hz _ hF => ?_
    obtain ⟨hstore, hhand⟩ := hz hF.1
    refine ⟨?_, hhand, fun hcalm => by simp [hfailed] at hcalm⟩
    show y.2.store.journal.Adds call _ z.2.store.journal ∧ y.2.store.journal.Mints _ call z.2.store.journal
    rw [hstore]
    exact ⟨.refl, .refl⟩
  · obtain ⟨⟨hhand, hsame⟩, houtcome, hcontext, -⟩ := hx
    obtain ⟨t, ht, hid, hlawful, hahead⟩ := hhand.known
    refine ⟨t, ht, fun context history s hencode hs _ => ?_⟩
    obtain ⟨hsid, hsrevision⟩ := Rule.parts_same hs
    refine ⟨hsid.trans hahead.id, hsrevision.trans hahead.revision, fun _ =>
      ⟨by simp [hahead.running, Status.isFinal], i, hlawful, .inl ?_⟩⟩
    rw [hc.encode, hcontext] at hencode
    rw [houtcome] at hs
    refine lawful_of_parts hs hhand.workflow hencode hhand.live (fun h => ?_) fun s h => ?_
    · rw [hsame (by rw [h]; rfl)]
      exact hdone h
    · rw [hsame (by rw [h]; rfl)]
      exact hwaits s h

theorem run_heeds (hc : K.Registered c) (hd : K.Fits d) {context : C}
    (hu : ⟨call, .stored u⟩ ∈ w.store.journal) (hrunning : u.status = .running)
    (hlawful : K.Lawful i u) (hcontext : K.encode context = some u.context)
    (hlive : (K.phase i).live context)
    (hbegins : (K.phase i).Begins K.root (Coordinator.restartPoint u) context) :
    (((c.journaled call).environment u.id).run d (Coordinator.restartPoint u) context u).Heeds
      ((K.rule u.id).watch C view call)
      (fun y v => (K.rule u.id).Closes c.kind.encode call y v.store.journal) w := by
  let env := (c.journaled call).environment (C := C) (H := H) u.id
  have hquiet : env.Quietly fun w v => v.store = w.store :=
    ⟨fun _ => rfl, fun _ _ => rfl, fun _ _ => rfl⟩
  have hreports (r : Report) : Lasts (Beside ((K.rule u.id).watch C view call).others)
      ((K.phase i).Reports (H := H) (X := Instance) (ω := World (Journaled R) H) r) := by
    rintro ⟨board, w⟩ ⟨_, v⟩ h ⟨rfl, -⟩
    exact h
  have hguides := Watch.guides_upholds (P := (K.rule u.id).watch C view call)
    (J := K.InHand d.graph call u.id i) (G := Environment.Collects d.graph)
    (I := (K.phase i).Acts env fun w v => v.store = w.store) InHand.lasts hreports
    (fun _ _ hx => .inl hx) (fun y z hy hact hsteps => hy.acts hc hact hsteps)
    (fun _ => ⟨.refl, .refl⟩) fun _ _ _ _ => trivial
  refine Environment.run_heeds hguides (fun _ _ => ⟨.refl, .refl⟩) (fun v hv v' e hv' => ⟨?_, ?_, ?_⟩)
    (fun begin board r v hdone _ o ho => ?_) (fun board r v hdone _ _ => ?_)
    (fun begin path board v hpath => ?_)
  · have hstored := Journal.lasting_mem ⟨call, .stored u⟩ (· ≠ call) _ _
      (Journal.lasting_mem _ (· ≠ call) _ _ hu hv) hv'
    exact ⟨⟨u, ⟨_, hstored, rfl⟩, rfl, hlawful, .refl hrunning⟩, hlawful.workflow,
      ⟨context, hcontext, hlive⟩, hlive, by simp⟩
  · refine Environment.traverse_upholds hquiet (hd.graph i) ?_
    rw [hd.root]
    exact hbegins
  · exact Environment.traverse_keeps (Environment.within_collects env d.graph) _
  · obtain ⟨hhand, hreport, -⟩ := hdone
    have hreport : (K.phase i).Reports r (board, v) := hreport
    obtain ⟨hdrained, -, hsuspended⟩ := Environment.halt_of_outcome ho
    exact hhand.conclude hc hd (fun h => hreport.1 (hdrained h))
      (fun s h => hreport.2 s (hsuspended s h)) u.id begin
  · obtain ⟨hhand, -⟩ := hdone
    obtain ⟨t, ht, hid, hlawful, hahead⟩ := hhand.known
    obtain ⟨b, hb, hlive⟩ := hhand.context
    refine ⟨t, ht, fun now s hs _ => ?_⟩
    obtain ⟨hsid, hsrevision, -⟩ := Instance.of_transition hs
    refine ⟨hsid.trans hahead.id, hsrevision.trans hahead.revision, fun _ =>
      ⟨by simp [hahead.running, Status.isFinal], i, hlawful, .inl ?_⟩⟩
    obtain ⟨-, rfl⟩ := Instance.transition_eq hs
    exact ⟨hhand.workflow, b, hb, hlive, trivial⟩
  · exact hpath.1.conclude hc hd (by simp) (by simp) u.id begin

/-- A coordinator that has the workflow registered, and reads back what it has written, drives by the
rule of any instance of the workflow. -/
theorem drives (hc : K.Registered c) (id : Uuid) : (K.rule id).Drives view c := by
  intro call d u context w hd hworkflow hcontext hrunning hvalid hu
  by_cases hid : u.id = id
  · obtain ⟨i, hlawful⟩ := hvalid hid
    obtain ⟨b, hb, hlive, hstands⟩ := hlawful.context
    obtain rfl : context = b := hc.decode b context u.context hb (by rw [← hc.encode]; exact hcontext)
    have hfits := hc.fits d hd (hworkflow.trans hlawful.workflow)
    subst hid
    refine Rule.drive_heeds (run_heeds hc hfits hu hrunning hlawful hb hlive ?_)
    have hsame : { u with status := .running } = u := by rw [← hrunning]
    simpa only [Assertions.Stands, hrunning, hsame] using hstands
  · have hfree (t s : Instance) (ht : t.id = u.id) (hs : s.id = t.id)
        (hrevision : s.revision = t.revision) : (K.rule id).moves t s :=
      ⟨hs, hrevision, fun h => absurd (ht.symm.trans h) hid⟩
    exact Rule.drive_heeds (Rule.run_free hfree hu _)

/-- So does one that has nothing registered under the name of the workflow. -/
theorem drives_other {C' : Type} {c : Coordinator C' H R} (hc : ∀ d ∈ c.definitions, d.id ≠ K.workflow)
    (id : Uuid) : (K.rule id).Drives view c := by
  intro call d u context w hd hworkflow _ _ hvalid hu
  have hfree (t s : Instance) (ht : t.id = u.id) (hs : s.id = t.id)
      (hrevision : s.revision = t.revision) : (K.rule id).moves t s := by
    refine ⟨hs, hrevision, fun h => ?_⟩
    obtain ⟨i, hlawful⟩ := hvalid (ht.symm.trans h)
    exact absurd (hworkflow.trans hlawful.workflow) (hc d hd)
  exact Rule.drive_heeds (Rule.run_free hfree hu _)

end Charter

end DurableWorkflow
