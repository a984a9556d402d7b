import DurableWorkflow.Proofs.Coordinator.Heeds
import DurableWorkflow.Proofs.Coordinator.Hold
import DurableWorkflow.Proofs.Coordinator.Parting
import DurableWorkflow.Proofs.Repository.Refinement
import DurableWorkflow.Proofs.Run.Watched

/-!
# What a call has in hand

A call notes what it does to the repository: how it has come by an instance, the version that claims
it, the checkpoints of the run, and the version in which the run has stopped. From the claim on the
call has a version in hand. A checkpoint that cannot be encoded leaves it alone, and one that is
refused changes it but not its revision (`InHand`). So whatever was refused on the way, the last
version has the revision after as many checkpoints as were stored, and tells of the whole run.
-/

namespace DurableWorkflow

variable {C H R α : Type}

/-! ### The notes of one call -/

/-- The notes of a call that has come by an instance by `first`, and has stored these versions one
after the other. -/
def Journal.ofCall (call : Nat) (first : Deed) (stored : List Instance) : Journal :=
  stored.reverse.map (fun s => ⟨call, .stored s⟩) ++ [⟨call, first⟩]

theorem Journal.ofCall_snoc (call : Nat) (first : Deed) (stored : List Instance) (s : Instance) :
    ofCall call first (stored ++ [s]) = ⟨call, .stored s⟩ :: ofCall call first stored := by
  rw [ofCall, List.reverse_append]
  rfl

section

variable {view : R → Uuid → Option Instance} {K : Instance → Prop} {inner : Repository R}
  {call : Nat} {s : Instance}

/-- A version that is stored is noted, and given back where `K` holds of it. -/
theorem Journaled.persist_recalled (hrecalls : inner.Recalls view K) (j : Journaled R)
    {s' : Instance} (h : ((inner.journaled call).persist s j).1 = .stored s') :
    s' = { s with revision := s.revision + 1 } ∧
      ((inner.journaled call).persist s j).2.journal = ⟨call, .stored s'⟩ :: j.journal ∧
      (K s' → view ((inner.journaled call).persist s j).2.store s'.id = some s') := by
  unfold Repository.persist at h ⊢
  split at h
  · next hlast =>
    have hask : (inner.journaled call).update { s with revision := s.revision + 1 } s.revision j =
        noting call (fun _ => [.stored { s with revision := s.revision + 1 }])
          (inner.update { s with revision := s.revision + 1 } s.revision) j := rfl
    have hback := hrecalls.update { s with revision := s.revision + 1 } s.revision j.store
    simp only [hlast, if_true, hask, noting] at h ⊢
    revert h hback
    generalize inner.update { s with revision := s.revision + 1 } s.revision j.store = reply
    obtain ⟨answer, store⟩ := reply
    cases answer with
    | error fault => exact fun _ h => by simp at h
    | ok =>
      intro hback h
      obtain rfl : { s with revision := s.revision + 1 } = s' := by simpa using h
      exact ⟨rfl, rfl, fun hK => hback hK rfl⟩
  · simp at h

/-- What is found is noted, and is what is given back. -/
theorem Journaled.get_recalled (hrecalls : inner.Recalls view K) {id : Uuid} (j : Journaled R)
    {s : Instance} (h : ((inner.journaled call).get id j).1 = .ok (some s)) :
    ((inner.journaled call).get id j).2.journal = ⟨call, .read s⟩ :: j.journal ∧
      view j.store id = some s := by
  have hask : (inner.journaled call).get id j =
      noting call (fun s => s.toList.map .read) (inner.get id) j := rfl
  have hback := hrecalls.get id j.store s
  rw [hask, noting] at h ⊢
  revert h hback
  generalize inner.get id j.store = reply
  obtain ⟨answer, store⟩ := reply
  intro h hback
  cases answer with
  | error fault => cases h
  | ok found =>
    cases h
    exact ⟨rfl, hback rfl⟩

theorem Journaled.save_noted {j : Journaled R} (h : ((inner.journaled call).save s j).1 = .ok ()) :
    ((inner.journaled call).save s j).2.journal = ⟨call, .created s⟩ :: j.journal := by
  have hask : (inner.journaled call).save s j =
      noting call (fun _ => [.created s]) (inner.save s) j := rfl
  rw [hask, noting] at h ⊢
  revert h
  generalize inner.save s j.store = reply
  obtain ⟨answer, store⟩ := reply
  cases answer with
  | error fault => exact fun h => by simp at h
  | ok => exact fun _ => rfl

end

/-! ### What is returned -/

/-- What an instance tells of how its run has stopped, where a wait without a limit of its own has
this one. -/
def Instance.StoppedAs (wait : Option Nanos) (s : Instance) : RunOutcome → Prop
  | .completed => s.pending = []
  | .failed failure => s.pending = [] ∧ s.error = some failure.text
  | .suspended w => s.pending = w.pending ∧ s.waitingNode = some w.node ∧
      s.awaited = some w.signal ∧ ∃ now, waitDeadline (w.limit.or wait) now = .ok s.deadline

/-- The run that a call has made of an instance, from the version that the call has found and with so
many checkpoints stored. -/
structure Driven.Follows (c : Coordinator C H R) (before : Instance) (checkpoints : Nat)
    (driven : Driven C) : Prop where
  id : driven.state.id = before.id
  status : driven.state.status = driven.result.outcome.status
  context : c.kind.encode driven.result.context = some driven.state.context
  history : driven.state.history = before.history ++ driven.result.trace
  stopped : driven.state.StoppedAs c.defaultWait driven.result.outcome
  revision : driven.state.revision = before.revision + 1 + checkpoints + 1

theorem Instance.told_of_transition {s s' : Instance} {target : Status} {now : Timestamp}
    (h : s.transition target now = .ok s') :
    s'.id = s.id ∧ s'.context = s.context ∧ s'.history = s.history ∧ s'.revision = s.revision ∧
      s'.status = target := by
  unfold transition at h
  split at h
  · cases h
    exact ⟨rfl, rfl, rfl, rfl, rfl⟩
  · cases h

theorem Instance.of_enterWait_ok {s s' : Instance} {signal : String} {node : NodeId}
    {deadline : Option Timestamp} {pending : List NodeId} {now : Timestamp}
    (h : s.enterWait signal node deadline pending now = .ok s') :
    ∃ t, s.transition .waiting now = .ok t ∧
      s' = { t with awaited := some signal, waitingNode := some node, deadline, pending } := by
  unfold enterWait at h
  cases ht : s.transition .waiting now with
  | error e =>
    rw [ht] at h
    cases h
  | ok t =>
    rw [ht] at h
    cases h
    exact ⟨t, rfl, rfl⟩

namespace Coordinator

/-- The others leave the notes of a call alone, and these instances. -/
def Spares (view : R → Uuid → Option Instance) (ids : Uuid → Prop) (w v : World (Journaled R) H) :
    Prop :=
  v.store.journal = w.store.journal ∧ ∀ id, ids id → view v.store.store id = view w.store.store id

/-- Nothing is demanded of a course, but the others spare these instances. -/
def sparing (C H : Type) (view : R → Uuid → Option Instance) (ids : Uuid → Prop) :
    Watch (World (Journaled R) H) (Board C H Instance) Report where
  good _ := True
  others := Spares view ids
  own _ _ := True
  pace _ _ := True
  mark _ _ _ := True
  refl _ := ⟨rfl, fun _ _ => rfl⟩
  trans h h' := ⟨h'.1.trans h.1, fun id hid => (h'.2 id hid).trans (h.2 id hid)⟩
  own_refl _ := trivial

/-- Where nothing is demanded, everything will do. -/
theorem sparing_heeds {view : R → Uuid → Option Instance} {ids : Uuid → Prop}
    (course : Errand C H (Journaled R) α) (w : World (Journaled R) H) :
    course.Heeds (sparing C H view ids) (fun _ _ => True) w := by
  induction course generalizing w with
  | done a => trivial
  | crash m => trivial
  | act f rest ih => exact fun v _ _ => ⟨trivial, ih v (f v)⟩
  | wait d rest ih => exact ih w
  | walk cancelled limit own path rest ih =>
    have hguides : (sparing C H view ids).Guides fun _ _ _ => True :=
      ⟨fun _ _ _ _ _ _ => trivial, fun _ _ _ => ⟨trivial, trivial⟩, fun _ => trivial⟩
    exact ⟨fun _ _ _ => True, hguides, trivial, fun own r v _ => ih own (some r) v,
      fun _ own v _ => ih own none v⟩
  | perform cancelled own work rest ih =>
    refine ⟨fun _ _ => True, trivial, fun _ _ _ _ _ => trivial, ?_, fun own e v _ => ih own e v⟩
    exact Work.keeps_of_forall work fun _ _ _ _ => ⟨trivial, trivial⟩

/-- What a call has noted that runs an instance, and the version that it has in hand. -/
structure InHand (call : Nat) (first : Deed) (before claim : Instance) (checkpoints : List Instance)
    (x : Instance) (j : Journal) : Prop where
  notes : j = .ofCall call first (claim :: checkpoints)
  id : x.id = before.id
  revision : x.revision = before.revision + 1 + checkpoints.length
  history : before.history <+: x.history

/-- The version has been stored last, and is given back where `K` holds of it. -/
structure Filed (view : R → Uuid → Option Instance) (K : Instance → Prop) (ids : Uuid → Prop)
    (call : Nat) (j : Journal) (s : Instance) (v : World (Journaled R) H) : Prop where
  notes : v.store.journal = ⟨call, .stored s⟩ :: j
  shown : ids s.id → K s → view v.store.store s.id = some s

variable {view : R → Uuid → Option Instance} {K : Instance → Prop} {ids : Uuid → Prop}
  {c : Coordinator C H R} {call : Nat} {first : Deed} {before claim x s : Instance}
  {checkpoints : List Instance} {j : Journal} {w : World (Journaled R) H}

theorem Filed.stable (s : Instance) :
    (sparing C H view ids).Stable (Filed view K ids call j s) := by
  intro w v h hv
  obtain ⟨hnotes, hshown⟩ := h
  exact ⟨hv.1.trans hnotes, fun hid hK => (hv.2 s.id hid).trans (hshown hid hK)⟩

theorem Filed.congr {v u : World (Journaled R) H} (h : Filed view K ids call j s v)
    (hsame : u.store = v.store) : Filed view K ids call j s u := by
  obtain ⟨hnotes, hshown⟩ := h
  exact ⟨by rw [hsame, hnotes], fun hid hK => by rw [hsame, hshown hid hK]⟩

/-! ### On a run -/

theorem InHand.begin (hnotes : j = .ofCall call first [claim]) (hid : claim.id = before.id)
    (hrevision : claim.revision = before.revision + 1) (hhistory : claim.history = before.history) :
    InHand call first before claim [] claim j :=
  ⟨hnotes, hid, hrevision, hhistory ▸ List.prefix_rfl⟩

/-- What an action of a run makes of what is in hand. -/
theorem InHand.saves {s t : Board C H Instance × World (Journaled R) H}
    (h : InHand call first before claim checkpoints s.1.extra s.2.store.journal)
    (hsaves : Saves call s t) :
    ∃ checkpoints, InHand call first before claim checkpoints t.1.extra t.2.store.journal := by
  obtain ⟨hnotes, hid, hrevision, hhistory⟩ := h
  obtain ⟨hextra, hjournal⟩ | ⟨context, p, now, hsave⟩ := hsaves
  · rw [hextra, hjournal]
    exact ⟨checkpoints, hnotes, hid, hrevision, hhistory⟩
  have hlonger : before.history <+: s.1.extra.history ++ p.trace :=
    hhistory.trans (List.prefix_append _ _)
  obtain ⟨hextra, hjournal⟩ | ⟨hextra, hjournal⟩ := hsave
  · -- The checkpoint was refused.
    rw [hextra, hjournal]
    exact ⟨checkpoints, hnotes, hid, hrevision, hlonger⟩
  · rw [hextra, hjournal, hnotes, ← Journal.ofCall_snoc]
    refine ⟨checkpoints ++ [_], rfl, hid, ?_, hlonger⟩
    have hnext : s.1.extra.revision + 1 = before.revision + 1 + checkpoints.length + 1 := by
      rw [hrevision]
    rw [List.length_append]
    exact hnext

/-- The instance is in hand on a run, whatever was stored on the way. -/
def Running (call : Nat) (first : Deed) (before claim : Instance) (x : Instance)
    (w : World (Journaled R) H) : Prop :=
  ∃ checkpoints, InHand call first before claim checkpoints x w.store.journal

theorem Running.stable (x : Instance) :
    (sparing C H view ids).Stable (Running (R := R) (H := H) call first before claim x) := by
  rintro w v ⟨checkpoints, h⟩ hv
  exact ⟨checkpoints, hv.1 ▸ h⟩

theorem run_returns (d : Definition C H) (start : StartPoint) (context : C) (runId : Uuid)
    (h : Running call first before claim x w) :
    (((c.journaled call).environment runId).run d start context x).Heeds (sparing C H view ids)
      (fun r => Running call first before claim r.1) w := by
  let F (board : Board C H Instance) : World (Journaled R) H → Prop :=
    Running call first before claim board.extra
  have hF (board : Board C H Instance) : (sparing C H view ids).Stable (F board) :=
    Running.stable board.extra
  have hpublish (e : Event) (board : Board C H Instance) (v : World (Journaled R) H)
      (hv : F board v) : F board (v.publish e) := hv
  have hconclude (begin : Nat) (board : Board C H Instance) (o : RunOutcome)
      (v : World (Journaled R) H) (hv : F board v) :
      (((c.journaled call).environment runId).conclude d begin board o).Heeds
        (sparing C H view ids) (fun y => Running call first before claim y.1.extra) v := by
    refine (Environment.conclude_heeds hF (fun _ _ => trivial) (fun b e v hv => hpublish e b v hv) d
      begin o (fun _ y _ work _ => ?_) hv).mono fun y v hy => hy.1
    exact Environment.onBoard_keeps (fun b c h w _ hb => ⟨trivial, hb⟩) work
  refine Environment.run_heeds (K := fun path board w => F board w ∧ path.Keeps (Saves call))
    (Watch.guides_keeps hF (fun s t hs hst => ⟨trivial, ?_⟩) (fun _ => trivial)
      fun _ _ _ _ => trivial) (fun _ _ => trivial) (fun v hv u e hu => ⟨?_, ?_⟩)
    (fun begin board r v hdone _ o _ => hconclude begin board o v hdone.1)
    (fun board r v hdone _ _ => hdone.1)
    fun begin path board v hpath => hconclude begin board _ v hpath.1
  · obtain ⟨checkpoints, hs⟩ := hs
    exact hs.saves hst
  · have hstable : (sparing C H view ids).Stable (Running call first before claim x) :=
      Running.stable x
    exact hstable (hstable h hv) hu
  · exact Environment.traverse_keeps (environment_saves c call runId d.graph) start

/-! ### The last version -/

theorem persist_files (hrecalls : c.repository.Recalls view K) (s : Instance)
    (hj : w.store.journal = j) :
    ((c.journaled call).persist s).Heeds (sparing C H view ids)
      (fun s' v => s' = { s with revision := s.revision + 1 } ∧ Filed view K ids call j s' v) w := by
  refine Operation.Heeds.bind (Q := fun p v => ∀ s', p = .stored s' →
    s' = { s with revision := s.revision + 1 } ∧ Filed view K ids call j s' v)
    (.update fun v hv => ⟨trivial, fun s' hs' => ?_⟩) fun p v hp => ?_
  · obtain ⟨heq, hnotes, hshown⟩ := Journaled.persist_recalled hrecalls v.store hs'
    exact ⟨heq, ⟨hnotes.trans (by rw [hv.1, hj]), fun _ => hshown⟩⟩
  · cases p with
    | stored s' => exact .pure (hp s' rfl)
    | refused fault => exact .throw _
    | exhausted => exact .crash _

theorem tell_files {s : Instance} (notice : Notice) (h : Filed view K ids call j s w) :
    ((c.journaled call).tell notice : Operation C H (Journaled R) Unit).Heeds (sparing C H view ids)
      (fun _ => Filed view K ids call j s) w :=
  .update (f := fun v => ((), (c.journaled call).notifier.tell notice v)) fun _ hv =>
    ⟨trivial, (Filed.stable (C := C) s h hv).congr (Notifier.tell_store ..)⟩

/-- A version is made, stored and told. -/
theorem file_returns (hrecalls : c.repository.Recalls view K) {r : Except TransitionError Instance}
    (note : Instance → Instance) (notice : Instance → Notice) (hj : w.store.journal = j) :
    (do
      let s ← Operation.moved r
      let s ← (c.journaled call).persist (note s)
      (c.journaled call).tell (notice s)
      return s : Operation C H (Journaled R) Instance).Heeds (sparing C H view ids)
      (fun s' v => (∃ s, r = .ok s ∧ s' = { note s with revision := (note s).revision + 1 }) ∧
        Filed view K ids call j s' v) w := by
  refine Operation.Heeds.bind (Q := fun s v => r = .ok s ∧ v = w) (.moved fun s hs => ⟨hs, rfl⟩)
    fun s _ ⟨hs, hv⟩ => ?_
  subst hv
  refine (persist_files hrecalls (note s) hj).bind fun s' _ ⟨hs', hv⟩ => ?_
  exact (tell_files (notice s') hv).bind fun _ _ hv => .pure ⟨⟨s, hs, hs'⟩, hv⟩

/-- A version with the same context and the same history, that comes next. -/
structure Carries (s s' : Instance) : Prop where
  id : s'.id = s.id
  context : s'.context = s.context
  history : s'.history = s.history
  revision : s'.revision = s.revision + 1

/-- Where a run has stopped is stored, and told as the run has told it. -/
theorem settle_returns (hrecalls : c.repository.Recalls view K) (s : Instance)
    (outcome : RunOutcome) (hj : w.store.journal = j) :
    ((c.journaled call).settle s outcome).Heeds (sparing C H view ids) (fun s' v =>
      (Carries s s' ∧ s'.status = outcome.status ∧ s'.StoppedAs c.defaultWait outcome) ∧
        Filed view K ids call j s' v) w := by
  have hnow : (Operation.now : Operation C H (Journaled R) Timestamp).Heeds (sparing C H view ids)
      (fun _ v => v.store.journal = j) w := .now (fun h hv => hv.1.trans h) hj
  cases outcome with
  | completed =>
    refine hnow.bind fun now v hj => (file_returns hrecalls _ .completed hj).mono
      fun r v h s' hs' => ?_
    obtain ⟨⟨t, ht, rfl⟩, hfiled⟩ := h s' hs'
    obtain ⟨hid, hcontext, hhistory, hrevision, hstatus⟩ := Instance.told_of_transition ht
    exact ⟨⟨⟨hid, hcontext, hhistory, congrArg (· + 1) hrevision⟩, hstatus, rfl⟩, hfiled⟩
  | failed failure =>
    refine hnow.bind fun now v hj => (file_returns hrecalls _ _ hj).mono fun r v h s' hs' => ?_
    obtain ⟨⟨t, ht, rfl⟩, hfiled⟩ := h s' hs'
    obtain ⟨hid, hcontext, hhistory, hrevision, hstatus⟩ := Instance.told_of_transition ht
    exact ⟨⟨⟨hid, hcontext, hhistory, congrArg (· + 1) hrevision⟩, hstatus, rfl, rfl⟩, hfiled⟩
  | suspended wait =>
    refine hnow.bind fun now v hj => ?_
    split
    · exact .crash _
    · next deadline hdeadline =>
      refine (file_returns hrecalls id .approvalRequested hj).mono fun r v h s' hs' => ?_
      obtain ⟨⟨t, ht, rfl⟩, hfiled⟩ := h s' hs'
      obtain ⟨u, hu, rfl⟩ := Instance.of_enterWait_ok ht
      obtain ⟨hid, hcontext, hhistory, hrevision, hstatus⟩ := Instance.told_of_transition hu
      exact ⟨⟨⟨hid, hcontext, hhistory, congrArg (· + 1) hrevision⟩, hstatus,
        rfl, rfl, rfl, now, hdeadline⟩, hfiled⟩

/-- A run that was cancelled returns nothing. -/
theorem settleCancelled_returns (hrecalls : c.repository.Recalls view K) (s : Instance)
    {Q : α → World (Journaled R) H → Prop} :
    ((c.journaled call).settleCancelled s : Operation C H (Journaled R) α).Heeds
      (sparing C H view ids) Q w := by
  have hnow : (Operation.now : Operation C H (Journaled R) Timestamp).Heeds (sparing C H view ids)
      (fun _ _ => True) w := .now (fun _ _ => trivial) trivial
  refine hnow.bind fun now v _ => ?_
  refine (Operation.Heeds.moved (Q := fun _ _ => True) fun _ _ => trivial).bind fun s v _ => ?_
  refine (persist_files hrecalls _ rfl).bind fun s v _ => ?_
  refine Operation.Heeds.bind (Q := fun _ _ => True) ?_ fun _ _ _ => .throw _
  exact .update (f := fun v => ((), v.publish ⟨s.id, .runCancelled⟩)) fun _ _ => ⟨trivial, trivial⟩

end Coordinator

end DurableWorkflow
