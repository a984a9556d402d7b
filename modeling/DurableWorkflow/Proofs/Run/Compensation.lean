import DurableWorkflow.Proofs.Course.Moves
import DurableWorkflow.Proofs.Run.Entering
import DurableWorkflow.Proofs.Run.Watched

/-!
# Undoing what a run has completed

The chronicle of a run tells, in their order, of the successes that were entered into the books and
of the steps that were undone. Whatever the others do to the world meanwhile, a run has a chronicle
(`Course.Heeds.chronicle`), and each of its chronicles tells that the steps it has completed were
undone in the opposite order, each once, if it has failed and is to be undone, and nothing was else.
-/

namespace DurableWorkflow

variable {C H X ω α β : Type}

/-- What a chronicle tells of. -/
inductive Incident (C H X ω : Type) where
  /-- The success of a step was entered into the books. -/
  | completed (node : NodeId) (s : Step C H)
  /-- Work was done to undo a step, and ended like this. -/
  | called (work : Work (Board C H X × ω) StepResult) (e : Work.End StepResult)

namespace Incident

def completion? : Incident C H X ω → Option (NodeId × Step C H)
  | completed node s => some (node, s)
  | called .. => none

def call? : Incident C H X ω → Option (Work (Board C H X × ω) StepResult × Work.End StepResult)
  | completed .. => none
  | called work e => some (work, e)

/-- The successes of these steps, in this order. -/
def ofSteps (steps : List (NodeId × Step C H)) : List (Incident C H X ω) :=
  steps.map fun (node, s) => completed node s

@[simp]
theorem filterMap_completion?_ofSteps (steps : List (NodeId × Step C H)) :
    (ofSteps steps : List (Incident C H X ω)).filterMap completion? = steps := by
  rw [ofSteps, List.filterMap_map]
  exact List.filterMap_some

@[simp]
theorem filterMap_call?_ofSteps (steps : List (NodeId × Step C H)) :
    (ofSteps steps : List (Incident C H X ω)).filterMap call? = [] := by
  rw [ofSteps, List.filterMap_map]
  exact List.filterMap_eq_nil_iff.2 fun _ _ => rfl

end Incident

/-- Why undoing a step has failed, if it has. -/
def Work.End.fault? : Work.End StepResult → Option StepError
  | .done r => r.error?
  | .crash m => some (.panicked m)

namespace Environment

/-- From here on a course has come to this value, with these incidents on its way. The world may be
another one each time that the course goes on. -/
inductive Chronicle : Op C H X ω α → List (Incident C H X ω) → α → Prop
  | done (a : α) : Chronicle (.done a) [] a
  | act {f : ω → ω} {rest : ω → Op C H X ω α} {w : ω} {l : List (Incident C H X ω)} {a : α}
      (h : Chronicle (rest w) l a) : Chronicle (.act f rest) l a
  | wait {d : Nanos} {rest : Op C H X ω α} {l : List (Incident C H X ω)} {a : α}
      (h : Chronicle rest l a) : Chronicle (.wait d rest) l a
  /-- A step of a walk that enters no success. -/
  | stride {cancelled : ω → Bool} {limit : Option Nanos} {own own' : Board C H X}
      {path path' : Walk (Board C H X × ω) Report} {w w' : ω}
      {rest : Board C H X → Option Report → Op C H X ω α} {l : List (Incident C H X ω)} {a : α}
      (hstep : Walk.Step (path, own, w) (path', own', w'))
      (hquiet : own'.ledger.metrics.executed = own.ledger.metrics.executed)
      (h : Chronicle (.walk cancelled limit own' path' rest) l a) :
    Chronicle (.walk cancelled limit own path rest) l a
  | complete {cancelled : ω → Bool} {limit : Option Nanos} {own : Board C H X}
      {path path' : Walk (Board C H X × ω) Report} {w w' : ω} {node : NodeId} {s : Step C H}
      {rest : Board C H X → Option Report → Op C H X ω α} {l : List (Incident C H X ω)} {a : α}
      (hstep : Walk.Step (path, own, w) (path', own.enter node s, w'))
      (h : Chronicle (.walk cancelled limit (own.enter node s) path' rest) l a) :
    Chronicle (.walk cancelled limit own path rest) (.completed node s :: l) a
  | arrive {cancelled : ω → Bool} {limit : Option Nanos} {own : Board C H X} {r : Report}
      {rest : Board C H X → Option Report → Op C H X ω α} {l : List (Incident C H X ω)} {a : α}
      (h : Chronicle (rest own (some r)) l a) :
    Chronicle (.walk cancelled limit own (.done r) rest) l a
  | late {cancelled : ω → Bool} {d : Nanos} {own : Board C H X}
      {path : Walk (Board C H X × ω) Report}
      {rest : Board C H X → Option Report → Op C H X ω α} {l : List (Incident C H X ω)} {a : α}
      (h : Chronicle (rest own none) l a) :
    Chronicle (.walk cancelled (some d) own path rest) l a
  /-- Work is done to its end. -/
  | call {cancelled : ω → Bool} {own own' : Board C H X} {e : Work.End StepResult} {w w' : ω}
      {work : Work (Board C H X × ω) StepResult}
      {rest : Board C H X → Work.End StepResult → Op C H X ω α} {l : List (Incident C H X ω)}
      {a : α} (hwork : Moves (Beside fun _ _ => True) Work.Step (work, own, w) (e.work, own', w'))
      (h : Chronicle (rest own' e) l a) :
    Chronicle (.perform cancelled own work rest) (.called work e :: l) a

/-- The steps that can be undone, by their names, with the work that undoes them. -/
def compensations (steps : List (NodeId × Step C H)) : List (String × Work (C × H) StepResult) :=
  steps.filterMap fun (_, s) => s.compensate.map fun work => (s.name, work)

/-- What there is to undo after these incidents: what was completed, latest first. -/
def undoings (l : List (Incident C H X ω)) : List (String × Work (C × H) StepResult) :=
  compensations (l.filterMap Incident.completion?).reverse

/-- The steps on the list were undone, each of them once and one after the other, and this is told
of it. -/
structure Undid (env : Environment C H X ω) (steps : List (String × Work (C × H) StepResult))
    (l : List (Incident C H X ω)) (u : Undone) : Prop where
  called : (l.filterMap Incident.call?).map Prod.fst = steps.map fun s => env.onBoard s.2
  compensated : u.compensated = (steps.zip (l.filterMap Incident.call?)).filterMap fun (s, call) =>
    if call.2.fault? = none then some s.1 else none
  failures : u.failures = (steps.zip (l.filterMap Incident.call?)).filterMap fun (s, call) =>
    call.2.fault?.map fun error => ⟨s.1, error⟩

/-- A run that has failed has undone what it has completed, if it is to, and no other run has undone
anything. -/
def Compensates (env : Environment C H X ω) (l : List (Incident C H X ω)) (result : RunResult C) :
    Prop :=
  env.Undid (if result.outcome.isFailed && env.options.compensation then undoings l else []) l
    ⟨result.compensated, result.compensationFailures⟩

variable {env : Environment C H X ω} {g : Graph C H} {d : Definition C H}
  {l : List (Incident C H X ω)} {a : α} {b : β}

/-! ### What a chronicle tells -/

theorem Undone.add_eq (u : Undone) (name : String) (e : Work.End StepResult) :
    u.add name e = ⟨u.compensated ++ (if e.fault? = none then [name] else []),
      u.failures ++ (e.fault?.map fun error => ⟨name, error⟩).toList⟩ := by
  cases e with
  | crash m => simp [Undone.add, Work.End.fault?]
  | done r => cases herror : r.error? <;> simp [Undone.add, Work.End.fault?, herror]

/-- Only what was called counts. -/
theorem Undid.congr {steps : List (String × Work (C × H) StepResult)} {u : Undone}
    {l' : List (Incident C H X ω)} (h : env.Undid steps l u)
    (hcalls : l'.filterMap Incident.call? = l.filterMap Incident.call?) : env.Undid steps l' u := by
  obtain ⟨hcalled, hcompensated, hfailures⟩ := h
  exact ⟨by rw [hcalls, hcalled], by rw [hcalls, hcompensated], by rw [hcalls, hfailures]⟩

theorem Undid.nil : env.Undid [] [] {} := ⟨rfl, rfl, rfl⟩

theorem Undid.cons {name : String} {work : Work (C × H) StepResult} {e : Work.End StepResult}
    {steps : List (String × Work (C × H) StepResult)} {u : Undone} (h : env.Undid steps l u) :
    env.Undid ((name, work) :: steps) (.called (env.onBoard work) e :: l)
      ⟨(if e.fault? = none then [name] else []) ++ u.compensated,
        (e.fault?.map fun error => ⟨name, error⟩).toList ++ u.failures⟩ := by
  obtain ⟨hcalled, hcompensated, hfailures⟩ := h
  refine ⟨?_, ?_, ?_⟩
  · simp [Incident.call?, hcalled]
  · cases hfault : e.fault? <;> simp [Incident.call?, hfault, hcompensated]
  · cases hfault : e.fault? <;> simp [Incident.call?, hfault, hfailures]

/-- Undoing steps tells of nothing but this. -/
theorem undo_chronicle {k : Board C H X × Undone → Op C H X ω α} (steps : List (NodeId × Step C H))
    {board : Board C H X} {u : Undone} (h : Chronicle ((env.undo board u steps).bind k) l a) :
    ∃ board' u' l₁ l₂, l = l₁ ++ l₂ ∧ l₁.filterMap Incident.completion? = [] ∧
      env.Undid (compensations steps) l₁ u' ∧
      Chronicle (k (board', ⟨u.compensated ++ u'.compensated, u.failures ++ u'.failures⟩)) l₂ a := by
  induction steps generalizing board u l with
  | nil =>
    refine ⟨board, {}, [], l, rfl, rfl, .nil, ?_⟩
    rw [List.append_nil, List.append_nil]
    exact h
  | cons step steps ih =>
    obtain ⟨node, s⟩ := step
    rw [undo] at h
    cases hcompensate : s.compensate with
    | none =>
      rw [hcompensate] at h
      have hsame : compensations ((node, s) :: steps) = compensations steps := by
        simp [compensations, hcompensate]
      rw [hsame]
      exact ih h
    | some work =>
      rw [hcompensate] at h
      have hfirst : compensations ((node, s) :: steps) = (s.name, work) :: compensations steps := by
        simp [compensations, hcompensate]
      cases h with
      | @call _ _ _ e _ _ _ _ _ _ hwork h =>
        obtain ⟨board', u', l₁, l₂, rfl, hquiet, hundid, hrest⟩ := ih h
        have hcons := hfirst ▸ Undid.cons (e := e) hundid
        refine ⟨board', _, .called (env.onBoard work) e :: l₁, l₂, rfl, hquiet, hcons, ?_⟩
        rw [Undone.add_eq] at hrest
        simpa only [List.append_assoc] using hrest

/-- No success is entered but by the entry of one. -/
def Paces (s t : Board C H X × ω) : Prop :=
  s.1.Even t.1 ∨ ∃ node step, t.1 = s.1.enter node step

theorem Paces.even {s t : Board C H X × ω} (h : Paces s t)
    (hquiet : t.1.ledger.metrics.executed = s.1.ledger.metrics.executed) : s.1.Even t.1 := by
  rcases h with heven | ⟨node, step, henter⟩
  · exact heven
  · rw [henter] at hquiet
    exact absurd hquiet (Nat.succ_ne_self _)

theorem within_paces (env : Environment C H X ω) (g : Graph C H) :
    env.Within g (Paces (C := C) (H := H) (X := X) (ω := ω)) where
  board _ _ _ h := .inl ⟨h.completed, h.executed⟩
  enter node s _ _ _ := .inr ⟨node, s, rfl⟩
  publish b _ _ _ := .inl (.refl b)
  memory _ _ _ _ := .inl ⟨rfl, rfl⟩
  note _ _ _ := .inl ⟨rfl, rfl⟩
  save _ _ _ _ _ _ := .inl ⟨rfl, rfl⟩

/-- The successes that a walk has entered are those that the chronicle tells of, in their order. -/
theorem Chronicle.of_walk {cancelled : ω → Bool} {limit : Option Nanos} {own : Board C H X}
    {path : Walk (Board C H X × ω) Report} {rest : Board C H X → Option Report → Op C H X ω α}
    (h : Chronicle (.walk cancelled limit own path rest) l a) (hpath : path.Keeps Paces) :
    ∃ (all : List (NodeId × Step C H)) (l' : List (Incident C H X ω)) (own' : Board C H X)
      (report : Option Report), l = Incident.ofSteps all ++ l' ∧
      own'.ledger.completed = own.ledger.completed ++ all.filter (·.2.compensates) ∧
      Chronicle (rest own' report) l' a := by
  generalize hc : Course.walk cancelled limit own path rest = c at h
  induction h generalizing own path with
  | @stride _ _ own₀ own₁ _ _ _ _ _ _ _ hstep hquiet h ih =>
    cases hc
    obtain ⟨hpace, hpath'⟩ := Walk.Keeps.step hstep hpath
    have heven : own₀.Even own₁ := by
      rcases hpace with hsame | hpace
      · obtain ⟨rfl, -⟩ := Prod.mk.inj hsame
        exact .refl own₁
      · exact hpace.even hquiet
    obtain ⟨all, l', own', report, hl, hcompleted, hrest⟩ := ih hpath' rfl
    exact ⟨all, l', own', report, hl, by rw [hcompleted, heven.completed], hrest⟩
  | @complete _ _ _ _ _ _ _ node s _ _ _ hstep h ih =>
    cases hc
    obtain ⟨all, l', own', report, rfl, hcompleted, hrest⟩ :=
      ih (Walk.Keeps.step hstep hpath).2 rfl
    refine ⟨(node, s) :: all, l', own', report, rfl, ?_, hrest⟩
    rw [hcompleted, Board.enter, List.append_assoc, List.filter_cons]
    cases s.compensates <;> rfl
  | @arrive _ _ own r _ _ _ h =>
    cases hc
    exact ⟨[], _, own, some r, rfl, (List.append_nil _).symm, h⟩
  | @late _ _ own _ _ _ _ h =>
    cases hc
    exact ⟨[], _, own, none, rfl, (List.append_nil _).symm, h⟩
  | _ => cases hc

theorem compensations_filter (steps : List (NodeId × Step C H)) :
    compensations (steps.filter (·.2.compensates)).reverse = compensations steps.reverse := by
  rw [compensations, compensations, ← List.filter_reverse, List.filterMap_filter]
  refine List.filterMap_congr fun x _ => ?_
  cases hcompensate : x.2.compensate <;> simp [Step.compensates, hcompensate]

/-- The end of a run. -/
theorem conclude_chronicle {begin : Nat} {board : Board C H X} {outcome : RunOutcome}
    {result : RunResult C} {extra : X}
    (h : Chronicle ((env.conclude d begin board outcome).bind fun y =>
      .done (y.1.extra, some y.2)) l (extra, some result)) :
    result.outcome = outcome ∧ l.filterMap Incident.completion? = [] ∧
      env.Undid (compensations (if outcome.isFailed && env.options.compensation then
        board.ledger.completed.reverse else [])) l
        ⟨result.compensated, result.compensationFailures⟩ := by
  have hundo : Chronicle (Course.bind (Course.bind (env.undo board {} _) _) _) l
    (extra, some result) := h
  rw [Course.bind_assoc] at hundo
  obtain ⟨board', u, l₁, l₂, rfl, hquiet, hundid, hrest⟩ := undo_chronicle _ hundo
  have hend : l₂ = [] ∧ result.outcome = outcome ∧ result.compensated = u.compensated ∧
      result.compensationFailures = u.failures := by
    cases hrest with
    | act hrest =>
      simp only [Course.pure_bind, List.nil_append] at hrest
      split at hrest
      · cases hrest with
        | act hrest =>
          cases hrest
          exact ⟨rfl, rfl, rfl, rfl⟩
      · cases hrest
        exact ⟨rfl, rfl, rfl, rfl⟩
  obtain ⟨rfl, houtcome, hcompensated, hfailures⟩ := hend
  rw [List.append_nil, hcompensated, hfailures]
  exact ⟨houtcome, hquiet, hundid⟩

variable {start : StartPoint} {context : C} {extra extra' : X} {w v : ω} {result : RunResult C}

/-- Every chronicle of a run tells that it was undone as it should be. -/
theorem compensates_of_chronicle
    (h : Chronicle (env.run d start context extra) l (extra', some result)) :
    env.Compensates l result := by
  cases h with
  | act h =>
    cases h with
    | act h =>
      obtain ⟨all, l', board, report, rfl, hcompleted, h⟩ :=
        h.of_walk (traverse_keeps (within_paces env d.graph) start)
      simp only at h
      split at h
      · cases h
      · cases h
      · next outcome _ _ =>
        obtain ⟨rfl, hquiet, hundid⟩ := conclude_chronicle h
        have hcalls : (Incident.ofSteps all ++ l').filterMap Incident.call? =
            l'.filterMap Incident.call? := by
          rw [List.filterMap_append, Incident.filterMap_call?_ofSteps, List.nil_append]
        have hundoings : undoings (Incident.ofSteps all ++ l') =
            compensations board.ledger.completed.reverse := by
          rw [undoings, List.filterMap_append, Incident.filterMap_completion?_ofSteps, hquiet,
            List.append_nil, hcompleted, List.nil_append, compensations_filter]
        refine Undid.congr ?_ hcalls
        rw [hundoings]
        rwa [apply_ite compensations] at hundid

/-! ### Every run has a chronicle -/

/-- Nothing is demanded of a course but that its walks enter successes as they should. -/
def pacing (C H X ω : Type) : Watch ω (Board C H X) Report where
  good _ := True
  others _ _ := True
  own _ _ := True
  pace := Paces
  mark _ _ _ := True
  refl _ := trivial
  trans _ _ := trivial
  own_refl _ := trivial

/-- Whatever the others do, the way of a course to its value has a chronicle. -/
theorem exists_chronicle {c : Op C H X ω α} {w v : ω}
    (hc : c.Heeds (pacing C H X ω) (fun _ _ => True) w)
    (hmoves : Moves (fun _ _ => True) Course.Step (c, w) (.done a, v)) :
    ∃ l, Chronicle c l a := by
  have hall : ∀ x : Op C H X ω α × ω, Moves (fun _ _ => True) Course.Step x (.done a, v) →
      x.1.Heeds (pacing C H X ω) (fun _ _ => True) x.2 → ∃ l, Chronicle x.1 l a := by
    intro x hx
    induction hx using Relation.ReflTransGen.head_induction_on with
    | refl => exact fun _ => ⟨[], .done a⟩
    | @head x z hmove _ ih =>
      intro hheeds
      rcases hmove with hstep | ⟨hsame, -⟩
      · have hrest := (Course.Heeds.step hstep hheeds trivial).2
        obtain ⟨l, hl⟩ := ih hrest
        cases hstep with
        | act f rest w => exact ⟨l, .act hl⟩
        | wait d rest w => exact ⟨l, .wait hl⟩
        | walk hstride =>
          obtain ⟨K, hK, hpath, -⟩ := hheeds
          rcases (hK.step hpath trivial hstride).1 with heven | ⟨node, step, henter⟩
          · exact ⟨l, .stride hstride heven.executed hl⟩
          · subst henter
            exact ⟨_, .complete hstride hl⟩
        | arrive cancelled limit own r rest w => exact ⟨l, .arrive hl⟩
        | late cancelled d own path rest w => exact ⟨l, .late hl⟩
        | work hwork =>
          -- The rest of the work is told of already, and this is the step before it.
          cases hl with
          | call hmoves hl =>
            refine ⟨_, .call (.head (.inl hwork) (.head (.inr ?_) hmoves)) hl⟩
            exact ⟨rfl, rfl, trivial⟩
        | done cancelled own r rest w => exact ⟨_, .call (e := .done r) (w := w) .refl hl⟩
        | crash cancelled own m rest w => exact ⟨_, .call (e := .crash m) (w := w) .refl hl⟩
      · rw [← hsame] at hheeds ⊢
        exact ih (hheeds.stable (fun _ _ _ _ _ => trivial) trivial)
  exact hall (c, w) hmoves hc

theorem run_paces : (env.run d start context extra).Heeds (pacing C H X ω) (fun _ _ => True) w := by
  have hconclude (begin : Nat) (board : Board C H X) (o : RunOutcome) (v : ω) :
      (env.conclude d begin board o).Heeds (pacing C H X ω) (fun _ _ => True) v := by
    refine (conclude_heeds (F := fun _ _ => True) (fun _ _ _ _ _ => trivial) (fun _ _ => trivial)
      (fun _ _ _ _ => trivial) d begin o (fun _ x _ work _ => ?_) trivial).mono fun _ _ _ => trivial
    exact onBoard_keeps (fun _ _ _ _ _ _ => ⟨trivial, trivial⟩) work
  have hguides : (pacing C H X ω).Guides fun path board v => True ∧ path.Keeps Paces :=
    Watch.guides_keeps (J := fun _ _ => True) (fun _ _ _ _ _ => trivial)
      (fun _ _ _ hpace => ⟨hpace, trivial⟩) (fun s => .inl (.refl s.1)) fun _ _ _ _ => trivial
  exact run_heeds hguides (fun _ _ => trivial)
    (fun _ _ _ _ _ => ⟨trivial, traverse_keeps (within_paces env d.graph) start⟩)
    (fun begin board r v _ _ o _ => hconclude begin board o v) (fun _ _ _ _ _ _ => trivial)
    fun begin path board v _ => hconclude begin board _ v

/-- Whatever the others do while a run comes to its result: a success is entered into the books
where a call of the step has just succeeded, and nowhere else; the way of the run has a chronicle;
and each chronicle of it tells that the steps it has completed were undone, each once and latest
first, if the run has failed and is to be undone, and that nothing was undone otherwise. -/
theorem run_compensates (h : Moves (fun _ _ => True) Course.Step
    (env.run d start context extra, w) (.done (extra', some result), v)) :
    (env.traverse d start).Enters env d.graph none ∧
      (∃ l, Chronicle (env.run d start context extra) l (extra', some result)) ∧
      ∀ l, Chronicle (env.run d start context extra) l (extra', some result) →
        env.Compensates l result :=
  ⟨traverse_enters d start, exists_chronicle run_paces h, fun _ => compensates_of_chronicle⟩

/-! ### A trip that is called off -/

/-- The train is booked and then the room; the room cannot be given back, and the tickets for the
theatre are sold out. -/
def trip : Definition Nat Unit where
  id := "trip"
  name := "trip"
  version := ⟨1, 0, 0, "", ""⟩
  limit := none
  root := 0
  graph := ⟨#[
    { kind := .step
        { name := "train", execute := .done .success, compensate := some (.done .success) }
      next := some 1 },
    { kind := .step
        { name := "room", execute := .done .success, compensate := some (.crash "no refund") }
      next := some 2 },
    { kind := .step { name := "theatre", execute := .done (.failure (.panicked "sold out")) } }]⟩

/-- Nothing is published or saved, and nobody cancels. -/
def quietly : Environment Nat Unit Unit Unit where
  options := {}
  runId := .timeOrdered 0 0
  cancelled _ := false
  wall _ := ⟨0, 0⟩
  instant _ := 0
  publish _ w := w
  memory w := w
  setMemory _ w := w
  encode _ := none
  save _ x := .ok x

/-- The result of a run that was not cancelled. -/
def result? : Work.End (X × Option (RunResult C)) → Option (RunResult C)
  | .done (_, result) => result
  | .crash _ => none

theorem exists_of_result? {e : Work.End (X × Option (RunResult C))} {result : RunResult C}
    (h : result? e = some result) : ∃ extra, e = .done (extra, some result) := by
  cases e with
  | done r => exact ⟨r.1, congrArg (fun result => Work.End.done (r.1, result)) h⟩
  | crash m => cases h

/-- What a run in order comes to, it can come to in single steps, none of which is late. -/
theorem exists_timely_of_inOrder {β : Type} {env : Environment C H X ω} {d : Definition C H}
    {start : StartPoint} {context : C} {extra : X} {w : ω} {f : RunResult C → β} {b : β}
    (h : ((env.run d start context extra).inOrder (w, [])).bind (fun x => (result? x.1).map f) =
      some b) (drift : ω → ω → Prop) :
    ∃ extra' result v, Moves drift Course.Timely (env.run d start context extra, w)
      (.done (extra', some result), v) ∧ f result = b := by
  obtain ⟨⟨e, v, calls⟩, hrun, hleft⟩ := Option.bind_eq_some_iff.1 h
  obtain ⟨result, hresult, hb⟩ := Option.map_eq_some_iff.1 hleft
  obtain ⟨extra', rfl⟩ := exists_of_result? hresult
  exact ⟨extra', result, v, (Course.timely_of_inOrder _ hrun).lift id fun _ _ => .inl, hb⟩

theorem exists_of_inOrder {β : Type} {env : Environment C H X ω} {d : Definition C H}
    {start : StartPoint} {context : C} {extra : X} {w : ω} {f : RunResult C → β} {b : β}
    (h : ((env.run d start context extra).inOrder (w, [])).bind (fun x => (result? x.1).map f) =
      some b) (drift : ω → ω → Prop) :
    ∃ extra' result v, Moves drift Course.Step (env.run d start context extra, w)
      (.done (extra', some result), v) ∧ f result = b := by
  obtain ⟨extra', result, v, hmoves, hb⟩ := exists_timely_of_inOrder h drift
  exact ⟨extra', result, v, Course.Timely.moves hmoves, hb⟩

theorem run_compensates_trip : ∃ (result : RunResult Nat) (l : List (Incident Nat Unit Unit Unit)),
    Moves (fun _ _ => True) Course.Step (quietly.run trip .root 0 (), ())
      (.done ((), some result), ()) ∧
    Chronicle (quietly.run trip .root 0 ()) l ((), some result) ∧ quietly.Compensates l result ∧
    result.compensated = ["train"] ∧
    result.compensationFailures = [⟨"room", .panicked "no refund"⟩] := by
  have hend : ((quietly.run trip .root 0 ()).inOrder ((), [])).bind (fun x => (result? x.1).map
      fun result => (result.compensated, result.compensationFailures)) =
        some (["train"], [⟨"room", .panicked "no refund"⟩]) := by decide +kernel
  obtain ⟨⟨e, w, calls⟩, hrun, hleft⟩ := Option.bind_eq_some_iff.1 hend
  obtain ⟨result, hresult, hundone⟩ := Option.map_eq_some_iff.1 hleft
  obtain ⟨hcompensated, hfailures⟩ := Prod.mk.inj hundone
  obtain ⟨extra, rfl⟩ := exists_of_result? hresult
  have hsteps : Course.Steps (quietly.run trip .root 0 (), ()) (.done ((), some result), ()) :=
    Course.steps_of_inOrder _ hrun
  have hmoves : Moves (fun _ _ => True) Course.Step _ _ :=
    Relation.ReflTransGen.mono (fun _ _ => Or.inl) _ _ hsteps
  obtain ⟨-, ⟨l, hl⟩, hall⟩ := run_compensates hmoves
  exact ⟨result, l, hmoves, hl, hall l hl, hcompensated, hfailures⟩

end Environment

end DurableWorkflow
