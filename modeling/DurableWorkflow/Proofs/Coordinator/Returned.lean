import DurableWorkflow.Proofs.Codec.Stored
import DurableWorkflow.Proofs.Coordinator.InHand
import DurableWorkflow.Proofs.Coordinator.Standing
import DurableWorkflow.Proofs.System.Accounts

/-!
# What a driving call returns

What a call returns that has run an instance is what it has stored last: the instance as the call
has come by it, with the status, the context and the history that the run has left. The revision
counts what the call has stored, however many of its checkpoints were skipped or refused.
-/

namespace DurableWorkflow

variable {C H R α : Type}

namespace Coordinator

variable {view : R → Uuid → Option Instance} {K : Instance → Prop} {ids : Uuid → Prop}
  {c : Coordinator C H R} {call : Nat} {first : Deed} {before claim s : Instance}
  {w : World (Journaled R) H}

/-- A call that has come by an instance as `Came` tells returns what it has made of it. -/
def Returned (view : R → Uuid → Option Instance) (K : Instance → Prop) (ids : Uuid → Prop)
    (c : Coordinator C H R) (call : Nat) (Came : Instance → Deed → Prop) (driven : Driven C)
    (w : World (Journaled R) H) : Prop :=
  ∃ before first claim checkpoints, Came before first ∧
    w.store.journal = .ofCall call first (claim :: checkpoints ++ [driven.state]) ∧
    driven.Follows c before checkpoints.length ∧
    (ids driven.state.id → K driven.state →
      view w.store.store driven.state.id = some driven.state)

variable {Came : Instance → Deed → Prop} {driven : Driven C}

theorem Returned.congr {v u : World (Journaled R) H}
    (h : Returned view K ids c call Came driven v) (hjournal : u.store.journal = v.store.journal)
    (hview : ∀ id, ids id → view u.store.store id = view v.store.store id) :
    Returned view K ids c call Came driven u := by
  obtain ⟨before, first, claim, checkpoints, hcame, hnotes, hfollows, hshown⟩ := h
  exact ⟨before, first, claim, checkpoints, hcame, hjournal.trans hnotes, hfollows,
    fun hid hK => (hview _ hid).trans (hshown hid hK)⟩

theorem Returned.stable (driven : Driven C) :
    (sparing C H view ids).Stable (Returned view K ids c call Came driven) :=
  fun h hv => h.congr hv.1 hv.2

theorem drive_returns (hrecalls : c.repository.Recalls view K) (hcame : Came before first)
    (d : Definition C H) (context : C) (start : StartPoint)
    (h : InHand call first before claim [] claim w.store.journal)
    (hhistory : claim.history = before.history) :
    ((c.journaled call).drive d claim context start).Heeds (sparing C H view ids)
      (Returned view K ids c call Came) w := by
  refine (Operation.Heeds.ofErrand (run_returns d start context claim.id ⟨[], h⟩)).bind
    fun r v hr => ?_
  obtain ⟨last, result⟩ := r
  obtain ⟨checkpoints, hnotes, hid, hrevision, hprefix⟩ := hr
  cases result with
  | none =>
    have hcancelled : ((c.journaled call).settleCancelled last).Heeds (sparing C H view ids)
        (Returned view K ids c call Came) v := settleCancelled_returns hrecalls last
    exact hcancelled
  | some result =>
    refine Operation.Heeds.bind (Q := fun context u => c.kind.encode result.context = some context ∧
      u = v) (.orThrow fun context hcontext => ⟨hcontext, rfl⟩) fun encoded u hu => ?_
    obtain ⟨hencoded, rfl⟩ := hu
    refine (settle_returns hrecalls _ result.outcome hnotes).bind fun state u hstate => .pure ?_
    obtain ⟨⟨hcarries, hstatus, hstopped⟩, hnoted, hshown⟩ := hstate
    have hearlier : last.history.take claim.history.length = before.history := by
      rw [hhistory]
      exact (List.prefix_iff_eq_take.1 hprefix).symm
    refine ⟨before, first, claim, checkpoints, hcame, ?_, ?_, hshown⟩
    · rw [hnoted, ← Journal.ofCall_snoc]
    · exact {
        id := hcarries.id.trans hid
        status := hstatus
        context := by rw [hencoded, hcarries.context]
        history := by rw [hcarries.history, hearlier]
        stopped := hstopped
        revision := by rw [hcarries.revision, hrevision] }

/-- The version that a call makes of what it has come by is claimed, and is in hand from then on. -/
theorem claim_returns (hrecalls : c.repository.Recalls view K) {k : Instance →
      Operation C H (Journaled R) α} {Q : α → World (Journaled R) H → Prop}
    (hnotes : w.store.journal = .ofCall call first []) (hid : s.id = before.id)
    (hrevision : s.revision = before.revision) (hhistory : s.history = before.history)
    (hk : ∀ claim v, InHand call first before claim [] claim v.store.journal →
      claim.history = before.history → (k claim).Heeds (sparing C H view ids) Q v) :
    ((c.journaled call).persist s >>= k).Heeds (sparing C H view ids) Q w := by
  refine (persist_files hrecalls s hnotes).bind fun claim v ⟨hclaim, hfiled⟩ => ?_
  subst hclaim
  exact hk _ v (.begin hfiled.notes hid (congrArg (· + 1) hrevision) hhistory) hhistory

/-- The releases at the end leave what is returned. -/
theorem releasing_returns {operation : Nat} {op : Operation C H (Journaled R) (Driven C)}
    (h : op.Heeds (sparing C H view ids) (Returned view K ids c call Came) w) :
    (Operation.releasing operation op).Heeds (sparing C H view ids)
      (Returned view K ids c call Came) w :=
  Course.Heeds.ensure_stable h (fun _ => trivial) fun _ _ _ hr hv driven hdriven =>
    (Returned.stable driven (hr driven hdriven) hv).congr rfl fun _ _ => rfl

/-! ### Calls -/

theorem acquire_returns (operation : Nat) (id : Uuid) :
    ((c.journaled call).acquire operation id : Operation C H (Journaled R) Unit).Heeds
      (sparing C H view ids) (fun _ => Spares view ids w) w := by
  refine Operation.Heeds.bind (Q := fun _ => Spares view ids w)
    (.update fun v hv => ⟨trivial, ?_⟩) fun free v hv => ?_
  · rw [Spares, acquire_store]
    exact hv
  · cases free with
    | true => exact .pure hv
    | false => exact .throw _

theorem load_returns (hrecalls : c.repository.Recalls view K) {id : Uuid}
    (hw : w.store.journal = []) :
    ((c.journaled call).load id : Operation C H (Journaled R) Instance).Heeds
      (sparing C H view ids) (fun s v => v.store.journal = .ofCall call (.read s) [] ∧
        (ids id → view w.store.store id = some s)) w := by
  refine Operation.Heeds.bind (Q := fun found v => ∀ s, found = some s →
    v.store.journal = .ofCall call (.read s) [] ∧ (ids id → view w.store.store id = some s))
    (.request fun v hv => ⟨trivial, ?_⟩) fun found v hfound => .orThrow hfound
  rintro found hget s rfl
  obtain ⟨hnotes, hview⟩ := Journaled.get_recalled hrecalls v.store hget
  refine ⟨hnotes.trans ?_, fun hid => (hv.2 id hid).symm.trans hview⟩
  rw [hv.1, hw]
  rfl

theorem history_of_revive {now : Timestamp} {s s' : Instance} (h : revive s now = .ok s') :
    s'.history = s.history := by
  unfold revive at h
  split at h
  · cases h
    rfl
  · split at h
    · next t ht =>
      cases h
      exact (Instance.told_of_transition ht).2.2.1
    · cases h
  · cases h
  · cases h

theorem history_of_acceptSignal {now : Timestamp} {s s' : Instance} {node : NodeId}
    {signal : Signal} (h : s.acceptSignal node signal now = .ok s') : s'.history = s.history := by
  unfold Instance.acceptSignal at h
  cases ht : s.transition .running now with
  | error e =>
    rw [ht] at h
    cases h
  | ok t =>
    rw [ht] at h
    cases h
    exact (Instance.told_of_transition ht).2.2.1

section

variable {operation : Nat} {id : Uuid}

/-- The definition of an instance leaves the notes alone. -/
theorem definitionFor_returns {F : World (Journaled R) H → Prop} (s : Instance) (hw : F w) :
    ((c.journaled call).definitionFor s : Operation C H (Journaled R) (Definition C H)).Heeds
      (sparing C H view ids) (fun _ => F) w := by
  refine Operation.Heeds.bind (Q := fun _ => F) (.orThrow fun _ _ => hw) fun d v hv => ?_
  split
  · exact .pure hv
  · exact .throw _

theorem start_returns (hrecalls : c.repository.Recalls view K) (definition : String) (context : C)
    (hw : w.store.journal = []) :
    ((c.journaled call).start operation definition context).Heeds (sparing C H view ids)
      (Returned view K ids c call fun before first =>
        first = .created before ∧ before.revision = 0 ∧ before.history = []) w := by
  let F (v : World (Journaled R) H) : Prop := v.store.journal = []
  have hF : (sparing C H view ids).Stable F := fun h hv => hv.1.trans h
  refine releasing_returns ?_
  refine Operation.Heeds.bind (Q := fun _ => F) (.orThrow fun _ _ => hw) fun d v hv => ?_
  refine Operation.Heeds.bind (Q := fun _ => F) (.orThrow fun _ _ => hv) fun encoded v hv => ?_
  refine Operation.Heeds.bind (Q := fun _ => F) (.update fun u hu => ⟨trivial, hF hv hu⟩)
    fun id v hv => ?_
  refine (Operation.Heeds.now hF hv).bind fun now v hv => ?_
  let created := Instance.create id d.id d.version c.kind.typeName encoded now
  let G (v : World (Journaled R) H) : Prop := v.store.journal = .ofCall call (.created created) []
  have hG : (sparing C H view ids).Stable G := fun h hv => hv.1.trans h
  refine Operation.Heeds.bind (Q := fun _ => G) (.request fun u hu => ⟨trivial, fun _ hsave => ?_⟩)
    fun _ v hv => ?_
  · refine (Journaled.save_noted hsave).trans ?_
    rw [hF hv hu]
    rfl
  refine (acquire_returns operation id).bind fun _ u hu => ?_
  refine Operation.Heeds.bind (Q := fun s u => G u ∧ created.transition .running now = .ok s)
    (.moved fun s hs => ⟨hG hv hu, hs⟩) fun s u hs => ?_
  obtain ⟨hu, hs⟩ := hs
  obtain ⟨hid, -, hhistory, hrevision, -⟩ := Instance.told_of_transition hs
  exact claim_returns hrecalls hu hid hrevision hhistory fun claim v hv hclaim =>
    drive_returns hrecalls ⟨rfl, rfl, rfl⟩ d context .root hv hclaim

/-- A call that runs an instance that is there finds it as it was when the call began. -/
theorem found_returns (hrecalls : c.repository.Recalls view K) (hid : ids id)
    (hw : w.store.journal = []) {k : Instance → Operation C H (Journaled R) α}
    {Q : α → World (Journaled R) H → Prop}
    (hk : ∀ before v, view w.store.store id = some before →
      v.store.journal = .ofCall call (.read before) [] →
      (k before).Heeds (sparing C H view ids) Q v) :
    ((c.journaled call).acquire operation id >>= fun _ =>
      (c.journaled call).load id >>= k).Heeds (sparing C H view ids) Q w := by
  refine (acquire_returns operation id).bind fun _ u hu => ?_
  refine (load_returns hrecalls (hu.1.trans hw)).bind fun before v hbefore => ?_
  obtain ⟨hnotes, hview⟩ := hbefore
  exact hk before v ((hu.2 id hid).symm.trans (hview hid)) hnotes

theorem signal_returns (hrecalls : c.repository.Recalls view K) (hid : ids id) (name : String)
    (payload : Json) (hw : w.store.journal = []) :
    ((c.journaled call).signal operation id name payload).Heeds (sparing C H view ids)
      (Returned view K ids c call fun before first =>
        first = .read before ∧ view w.store.store id = some before) w := by
  refine releasing_returns (found_returns hrecalls hid hw fun before v hcame hnotes => ?_)
  let G (v : World (Journaled R) H) : Prop := v.store.journal = .ofCall call (.read before) []
  have hG : (sparing C H view ids).Stable G := fun h hv => hv.1.trans h
  refine Operation.Heeds.bind (Q := fun _ => G) (.orThrow fun _ _ => hnotes) fun node v hv => ?_
  refine (definitionFor_returns (F := G) before hv).bind fun d v hv => ?_
  refine Operation.Heeds.bind (Q := fun _ => G) (.orThrow fun _ _ => hv) fun context v hv => ?_
  refine (Operation.Heeds.now hG hv).bind fun now v hv => ?_
  refine Operation.Heeds.bind
    (Q := fun s u => G u ∧ before.acceptSignal node ⟨name, payload, now⟩ now = .ok s)
    (.moved fun s hs => ⟨hv, hs⟩) fun s u hs => ?_
  obtain ⟨hu, hs⟩ := hs
  obtain ⟨hsame, hrevision, -, -⟩ := Instance.of_acceptSignal hs
  refine claim_returns hrecalls hu hsame hrevision (history_of_acceptSignal hs)
    fun claim v hv hclaim => ?_
  refine Operation.Heeds.bind (Q := fun _ v => InHand call (.read before) before claim [] claim
    v.store.journal) (.update (f := fun v => ((), v.publish ⟨id, .runResumed name⟩)) fun u hu =>
      ⟨trivial, ?_⟩) fun _ v hv => ?_
  · have hjournal : (u.publish ⟨id, .runResumed name⟩).store.journal = v.store.journal := hu.1
    rw [hjournal]
    exact hv
  · exact drive_returns hrecalls ⟨rfl, hcame⟩ d context _ hv hclaim

theorem resume_returns (hrecalls : c.repository.Recalls view K) (hid : ids id)
    (hw : w.store.journal = []) :
    ((c.journaled call).resume operation id).Heeds (sparing C H view ids)
      (Returned view K ids c call fun before first =>
        first = .read before ∧ view w.store.store id = some before) w := by
  refine releasing_returns (found_returns hrecalls hid hw fun before v hcame hnotes => ?_)
  let G (v : World (Journaled R) H) : Prop := v.store.journal = .ofCall call (.read before) []
  have hG : (sparing C H view ids).Stable G := fun h hv => hv.1.trans h
  refine (Operation.Heeds.now hG hnotes).bind fun now v hv => ?_
  refine Operation.Heeds.bind (Q := fun s u => G u ∧ revive before now = .ok s)
    (.lift fun s hs => ⟨hv, hs⟩) fun s u hs => ?_
  obtain ⟨hu, hs⟩ := hs
  obtain ⟨hsame, hrevision, -, -⟩ := of_revive hs
  refine (definitionFor_returns (F := G) s hu).bind fun d v hv => ?_
  refine Operation.Heeds.bind (Q := fun _ => G) (.orThrow fun _ _ => hv) fun context v hv => ?_
  exact claim_returns hrecalls hv hsame hrevision (history_of_revive hs) fun claim v hv hclaim =>
    drive_returns hrecalls ⟨rfl, hcame⟩ d context _ hv hclaim

end

namespace Call

/-- The call has returned this. -/
def Returns : (call : Call C) → call.Answer → Driven C → Prop
  | start .., r, driven | signal .., r, driven | resume _, r, driven => r = .ok driven
  | cancel _, _, _ => False

/-- How a call comes by the instance that it runs: it has made it, or has found it stored. -/
def Opens (view : R → Uuid → Option Instance) (store : R) : Call C → Instance → Deed → Prop
  | start .., before, first => first = .created before ∧ before.revision = 0 ∧ before.history = []
  | signal id .., before, first | resume id, before, first =>
    first = .read before ∧ view store id = some before
  | cancel _, _, _ => False

end Call

theorem course_returns (hrecalls : c.repository.Recalls view K) {operation : Nat} {call : Call C}
    (hids : ∀ id, call.target = some id → ids id) (n : Nat) (hw : w.store.journal = []) :
    ((c.journaled n).course operation call).Heeds (sparing C H view ids) (fun answer v =>
      ∀ driven, call.Returns answer driven →
        Returned view K ids c n (call.Opens view w.store.store) driven v) w := by
  cases call with
  | start definition context => exact start_returns hrecalls definition context hw
  | signal id name payload => exact signal_returns hrecalls (hids id rfl) name payload hw
  | resume id => exact resume_returns hrecalls (hids id rfl) hw
  | cancel id => exact (sparing_heeds _ w).mono fun _ _ _ _ => False.elim

/-- What a call returns that has run an instance is stored, if nobody else has touched the instance
or the notes of the call: it is the instance that the call has come by, as its run has left it, and
what the call has stored is its claim, the checkpoints, and this. -/
theorem returned_is_stored (hrecalls : c.repository.Recalls view K) {operation n : Nat}
    {call : Call C} {answer : call.Answer} {driven : Driven C} {w v : World (Journaled R) H}
    (hnew : w.store.journal = [])
    (hmoves : Moves (Spares view fun id => id = driven.state.id ∨ call.target = some id) Course.Step
      ((c.journaled n).course operation call, w) (.done answer, v))
    (hreturns : call.Returns answer driven) :
    ∃ before first claim checkpoints, call.Opens view w.store.store before first ∧
      v.store.journal = .ofCall n first (claim :: checkpoints ++ [driven.state]) ∧
      driven.Follows c before checkpoints.length ∧
      (K driven.state → view v.store.store driven.state.id = some driven.state) := by
  let ids (id : Uuid) : Prop := id = driven.state.id ∨ call.target = some id
  have hcourse : ((c.journaled n).course operation call).Heeds (sparing C H view ids)
      (fun answer v => ∀ driven, call.Returns answer driven →
        Returned view K ids c n (call.Opens view w.store.store) driven v) w :=
    course_returns hrecalls (fun id h => .inr h) n hnew
  have hstable (answer : call.Answer) : (sparing C H view ids).Stable fun v =>
      ∀ driven, call.Returns answer driven →
        Returned view K ids c n (call.Opens view w.store.store) driven v :=
    fun h hv driven hreturns => Returned.stable driven (h driven hreturns) hv
  obtain ⟨hend, -⟩ := Course.Heeds.moves (G := fun _ => True) hstable (fun _ => trivial)
    (fun _ _ => trivial) (fun _ _ => trivial) (fun _ _ => trivial) hmoves hcourse trivial
  obtain ⟨before, first, claim, checkpoints, hopens, hnotes, hfollows, hshown⟩ :=
    hend driven hreturns
  exact ⟨before, first, claim, checkpoints, hopens, hnotes, hfollows, hshown (.inl rfl)⟩

/-- An instance waits at the gate. -/
def atTheGate : Instance :=
  { Instance.create (.timeOrdered 0 0) "gating" ⟨1, 0, 0, "", ""⟩ "Nat" (.int 0) ⟨0, 0⟩ with
    status := .waiting
    awaited := some "go"
    waitingNode := some 0
    revision := 2 }

/-- The signal is delivered: the claim, a checkpoint and the end are stored. -/
theorem returned_is_stored_atTheGate : ∃ (driven : Driven Nat) (w v : World (Journaled Memory) Nat),
    Moves (Spares Memory.find? fun id => id = driven.state.id ∨ some atTheGate.id = some id)
      Course.Step ((gatekeeper.journaled 0).course 0 (.signal atTheGate.id "go" .null), w)
      (.done (.ok driven), v) ∧
    driven.state.status = .completed ∧ driven.state.revision = 5 ∧
    ∃ claim checkpoints, v.store.journal =
        .ofCall 0 (.read atTheGate) (claim :: checkpoints ++ [driven.state]) ∧
      driven.Follows gatekeeper atTheGate checkpoints.length ∧
      v.store.store.find? driven.state.id = some driven.state := by
  let w : World (Journaled Memory) Nat :=
    { store := { store := { instances := [atTheGate] } }, memory := 1, wall := ⟨0, 0⟩ }
  have hend : (((gatekeeper.journaled 0).course 0 (.signal atTheGate.id "go" .null)).inOrder
      (w, [])).bind (fun x => (value? x.1).map fun driven =>
        (driven.state.status, driven.state.revision)) = some (.completed, 5) := by decide +kernel
  obtain ⟨⟨e, v, calls⟩, hrun, hleft⟩ := Option.bind_eq_some_iff.1 hend
  obtain ⟨driven, hdriven, hstored⟩ := Option.map_eq_some_iff.1 hleft
  obtain ⟨hstatus, hrevision⟩ := Prod.mk.inj hstored
  cases eq_of_value? hdriven
  have hsteps : Course.Steps ((gatekeeper.journaled 0).course 0 (.signal atTheGate.id "go" .null),
      w) (.done (.ok driven), v) := Course.steps_of_inOrder _ hrun
  have hmoves : Moves (Spares Memory.find? fun id => id = driven.state.id ∨
      some atTheGate.id = some id) Course.Step _ _ :=
    Relation.ReflTransGen.mono (fun _ _ => Or.inl) _ _ hsteps
  have hreturns : (Call.signal atTheGate.id "go" .null : Call Nat).Returns (Except.ok driven)
      driven := rfl
  obtain ⟨before, first, claim, checkpoints, ⟨rfl, hbefore⟩, hnotes, hfollows, hshown⟩ :=
    returned_is_stored Memory.repository_lawful.recalls rfl hmoves hreturns
  have hgate : w.store.store.find? atTheGate.id = some atTheGate := rfl
  obtain rfl : atTheGate = before := Option.some.inj (hgate.symm.trans hbefore)
  exact ⟨driven, w, v, hmoves, hstatus, hrevision, claim, checkpoints, hnotes, hfollows,
    hshown trivial⟩

/-! ### A number that is not given back -/

/-- A step that leaves a number as it is. -/
def keeping : Definition Binary64 Unit where
  id := "keeping"
  name := "keeping"
  version := ⟨1, 0, 0, "", ""⟩
  limit := none
  root := 0
  graph := ⟨#[{ kind := .step { name := "keep", execute := .done .success } }]⟩

/-- The instances of numbers, in a table. -/
def keeper : Coordinator Binary64 Unit Table where
  number := 0
  kind := ⟨"Binary64", fun x => some (.float x),
    fun j => match j with | .float x => some x | _ => none⟩
  repository := Table.repository
  notifier := .silent
  definitions := [keeping]

/-- What is found in a table is misread, and what was returned is not. -/
def Driven.isMisread (driven : Driven Binary64) (t : Table) : Bool :=
  match (keeper.repository.get driven.state.id t).1 with
  | .ok (some s) => Instance.isMisread s.context && !Instance.isMisread driven.state.context
  | _ => false

/-- The text of a number is misread, although nobody else has touched the table. -/
theorem returned_is_misread : ∃ (driven : Driven Binary64) (w v : World Table Unit) (s : Instance),
    Course.Steps (keeper.course 0 (.start "keeping" Instance.unkept), w) (.done (.ok driven), v) ∧
      (keeper.repository.get driven.state.id v.store).1 = .ok (some s) ∧
      s.context ≠ driven.state.context := by
  let w : World Table Unit := { store := default, memory := (), wall := ⟨0, 0⟩ }
  have hend : ((keeper.course 0 (.start "keeping" Instance.unkept)).inOrder (w, [])).bind
      (fun x => (value? x.1).map fun driven => Driven.isMisread driven x.2.1.store) =
        some true := by decide +kernel
  obtain ⟨⟨e, v, calls⟩, hrun, hleft⟩ := Option.bind_eq_some_iff.1 hend
  obtain ⟨driven, hdriven, hmisread⟩ := Option.map_eq_some_iff.1 hleft
  cases eq_of_value? hdriven
  have hsteps : Course.Steps (keeper.course 0 (.start "keeping" Instance.unkept), w)
      (.done (.ok driven), v) := Course.steps_of_inOrder _ hrun
  unfold Driven.isMisread at hmisread
  split at hmisread
  · next s hs =>
    refine ⟨driven, w, v, s, hsteps, hs, fun hsame => ?_⟩
    simp [hsame] at hmisread
  · cases hmisread

end Coordinator

end DurableWorkflow
