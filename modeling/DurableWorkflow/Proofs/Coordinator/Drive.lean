import DurableWorkflow.Coordinator.Basic
import DurableWorkflow.Proofs.Coordinator.Conduct
import DurableWorkflow.Proofs.Run.Keeps

/-!
# Driving an instance

Whoever drives an instance knows the version that it stored last, and that version is running. What
it has in hand may be ahead of that version, because a checkpoint that was refused counts for the
next one, but it has the identifier and the revision of that version, so all that it can ever store
is the successor of it. This is what `Drives` says, and it holds all the way of a run.
-/

namespace DurableWorkflow

variable {C H R α : Type}

/-! ### Transitions -/

namespace Instance

variable {s s' : Instance} {target : Status} {now : Timestamp}

theorem of_transition (h : s.transition target now = .ok s') :
    s'.id = s.id ∧ s'.revision = s.revision ∧ s.status.allows s'.status = true ∧
      s'.status = target := by
  unfold transition at h
  split at h
  · next hallows =>
    cases h
    exact ⟨rfl, rfl, hallows, rfl⟩
  · simp at h

theorem of_acceptSignal {node : NodeId} {signal : Signal}
    (h : s.acceptSignal node signal now = .ok s') :
    s'.id = s.id ∧ s'.revision = s.revision ∧ s.status.allows s'.status = true ∧
      s'.status = .running := by
  unfold acceptSignal at h
  cases ht : s.transition .running now with
  | error e => simp [ht, Except.map] at h
  | ok t =>
    rw [ht] at h
    cases h
    obtain ⟨hid, hrevision, hallows, hstatus⟩ := of_transition ht
    exact ⟨hid, hrevision, hallows, hstatus⟩

theorem of_enterWait {signal : String} {node : NodeId} {deadline : Option Timestamp}
    {pending : List NodeId} (h : s.enterWait signal node deadline pending now = .ok s') :
    s'.id = s.id ∧ s'.revision = s.revision ∧ s.status.allows s'.status = true := by
  unfold enterWait at h
  cases ht : s.transition .waiting now with
  | error e => simp [ht, Except.map] at h
  | ok t =>
    rw [ht] at h
    cases h
    obtain ⟨hid, hrevision, hallows, -⟩ := of_transition ht
    exact ⟨hid, hrevision, hallows⟩

end Instance

/-! ### What a call has in hand -/

/-- The call knows the version that `s` is made from, and may store `s` in its place. -/
def Journal.MayStore (j : Journal) (call : Nat) (s : Instance) : Prop :=
  ∃ t, j.Knows call t ∧ t.id = s.id ∧ t.revision = s.revision ∧ t.status.allows s.status = true

/-- The call has stored the running version that `s` is made from. -/
def Journal.Drives (j : Journal) (call : Nat) (s : Instance) : Prop :=
  s.status = .running ∧
    ∃ t, j.Knows call t ∧ t.id = s.id ∧ t.revision = s.revision ∧ t.status = .running

namespace Journal

variable {j j' : Journal} {call : Nat} {s s' : Instance}

theorem lasting_drives (call : Nat) (s : Instance) : Lasting (·.Drives call s) := by
  rintro p j j' ⟨hs, t, ht, h⟩ hgrows
  exact ⟨hs, t, hgrows.knows ht, h⟩

theorem lasting_mayStore (call : Nat) (s : Instance) : Lasting (·.MayStore call s) := by
  rintro p j j' ⟨t, ht, h⟩ hgrows
  exact ⟨t, hgrows.knows ht, h⟩

/-- A change that a transition of the known version allows may be stored. -/
theorem Knows.mayStore (h : j.Knows call s) (hid : s'.id = s.id)
    (hrevision : s'.revision = s.revision) (hallows : s.status.allows s'.status = true) :
    j.MayStore call s' := ⟨s, h, hid.symm, hrevision.symm, hallows⟩

theorem Drives.mayStore (h : j.Drives call s) (hid : s'.id = s.id)
    (hrevision : s'.revision = s.revision) (hallows : s.status.allows s'.status = true) :
    j.MayStore call s' := by
  obtain ⟨hs, t, ht, htid, htrevision, hstatus⟩ := h
  rw [hs] at hallows
  exact ⟨t, ht, htid.trans hid.symm, htrevision.trans hrevision.symm, hstatus ▸ hallows⟩

/-- What counts are the identifier, the revision and the status. -/
theorem Drives.congr (h : j.Drives call s) (hid : s'.id = s.id)
    (hrevision : s'.revision = s.revision) (hstatus : s'.status = s.status) :
    j.Drives call s' := by
  obtain ⟨hs, t, ht, htid, htrevision, htstatus⟩ := h
  exact ⟨hstatus.trans hs, t, ht, htid.trans hid.symm, htrevision.trans hrevision.symm, htstatus⟩

/-- A running version that has just been stored is driven. -/
theorem drives_of_stored (h : ⟨call, .stored s⟩ ∈ j) (hs : s.status = .running) :
    j.Drives call s := ⟨hs, s, ⟨_, h, rfl⟩, rfl, rfl, hs⟩

end Journal

/-- A coordinator, with notes of what a call does to the repository. -/
def Coordinator.journaled (call : Nat) (c : Coordinator C H R) : Coordinator C H (Journaled R) where
  number := c.number
  kind := c.kind
  repository := c.repository.journaled call
  notifier := c.notifier
  options := c.options
  defaultWait := c.defaultWait
  definitions := c.definitions

section

variable {view : R → Uuid → Option Instance} {inner : Repository R} {call : Nat}
  {about : Option Uuid} {s : Instance}

/-- What is made of the instance, and that it is noted, if it is stored. -/
def Persisted.Noted (call : Nat) (s : Instance) (p : Persisted) (j : Journal) : Prop :=
  ∀ s', p = .stored s' → s' = { s with revision := s.revision + 1 } ∧ ⟨call, .stored s'⟩ ∈ j

theorem Journaled.persist_does (hlaw : inner.Lawful view) {j : Journaled R} (h : j.Told view)
    (hmay : j.journal.MayStore call s) :
    j.Does view call ((inner.journaled call).persist s j).2 ∧
      ((inner.journaled call).persist s j).1.Noted call s
        ((inner.journaled call).persist s j).2.journal := by
  obtain ⟨t, hknows, hid, hrevision, hallows⟩ := hmay
  unfold Repository.persist
  split
  · have hnext : t.revision + 1 = s.revision + 1 := by rw [hrevision]
    obtain ⟨hdoes, hanswer⟩ := update_answers (s := { s with revision := s.revision + 1 }) hlaw h
      hknows hid hnext.symm hallows
    rw [hrevision] at hdoes hanswer
    simp only
    split
    · next store heq =>
      rw [heq] at hdoes hanswer
      refine ⟨hdoes, fun s' hs' => ?_⟩
      cases hs'
      exact ⟨rfl, hanswer () rfl⟩
    · next fault store heq =>
      rw [heq] at hdoes
      exact ⟨hdoes, fun s' hs' => by cases hs'⟩
  · exact ⟨⟨h, .refl⟩, fun s' hs' => by cases hs'⟩

variable {c : Coordinator C H R} {w : World (Journaled R) H}

/-- A request to store an instance keeps all that is known. -/
theorem Journaled.persist_fulfils (hlaw : inner.Lawful view) {F : Journal → Prop}
    (hF : Journal.Lasting F) (hmay : w.store.journal.MayStore call s) (hw : F w.store.journal) :
    (Course.update (Operation.onStore ((inner.journaled call).persist s)) :
      Errand C H (Journaled R) _).Fulfils view call about (fun p j => p.Noted call s j ∧ F j) w := by
  refine .request (F := fun j => j.MayStore call s ∧ F j) (fun j j' ⟨hmay, hj⟩ h =>
    ⟨Journal.lasting_mayStore call s _ _ _ hmay h, hF _ _ _ hj h⟩) ⟨hmay, hw⟩
    fun j hj ⟨hmay, hF'⟩ => ?_
  obtain ⟨hdoes, hnoted⟩ := Journaled.persist_does hlaw hj hmay
  exact ⟨hdoes, hnoted, hF _ _ _ hF' hdoes.noted.grows⟩

namespace Coordinator

theorem persist_fulfils (hlaw : c.repository.Lawful view) {F : Journal → Prop}
    (hF : Journal.Lasting F) (hmay : w.store.journal.MayStore call s) (hw : F w.store.journal) :
    ((c.journaled call).persist s).Fulfils view call about (fun s' j =>
      s' = { s with revision := s.revision + 1 } ∧ ⟨call, .stored s'⟩ ∈ j ∧ F j) w := by
  have hask : Course.Fulfils view call about (fun p j => p.Noted call s j ∧ F j)
      (Course.update (Operation.onStore ((c.journaled call).repository.persist s)) :
        Errand C H (Journaled R) _) w := Journaled.persist_fulfils hlaw hF hmay hw
  refine (Operation.Fulfils.ofErrand hask).bind fun p v ⟨hp, hF⟩ => ?_
  cases p with
  | stored s' =>
    obtain ⟨hs', hmem⟩ := hp s' rfl
    exact .pure ⟨hs', hmem, hF⟩
  | refused fault => exact .throw _
  | exhausted => exact .crash _

/-- The instance in the hands of a run. -/
def Driving (call : Nat) (id : Uuid) (board : Board C H Instance) (w : World (Journaled R) H) :
    Prop :=
  board.extra.id = id ∧ w.store.journal.Drives call board.extra

/-- On a run, nothing but checkpoints touches the instance in hand or the store. -/
theorem environment_within (hlaw : c.repository.Lawful view) (runId id : Uuid) (g : Graph C H) :
    ((c.journaled call).environment runId).Within g
      ((conduct H view call about).action (Driving (C := C) call id)) where
  board b b' w h hgood hJ := by
    refine ⟨hgood, (conduct H view call about).own_refl w, ?_⟩
    rw [Driving, h.extra]
    exact hJ
  enter node s b w _ hgood hJ := ⟨hgood, (conduct H view call about).own_refl w, hJ⟩
  publish b e w _ hgood hJ := ⟨hgood, (conduct H view call about).own_refl w, hJ⟩
  memory b c h w hgood hJ := ⟨hgood, (conduct H view call about).own_refl w, hJ⟩
  note b l w hgood hJ := ⟨hgood, (conduct H view call about).own_refl w, hJ⟩
  save p b w x w' hsave hgood hJ := by
    obtain ⟨hid, hdrives⟩ := hJ
    simp only [environment, save] at hsave
    cases henc : (c.journaled call).kind.encode p.context with
    | none =>
      rw [henc] at hsave
      cases hsave
      exact ⟨hgood, (conduct H view call about).own_refl w, hid, hdrives⟩
    | some context =>
      simp only [henc] at hsave
      have hat : w.store.journal.Drives call (atCheckpoint b.extra context p w.wall) :=
        hdrives.congr rfl rfl rfl
      have hmay := hat.mayStore rfl rfl (by rw [hat.1]; rfl)
      obtain ⟨hdoes, hnoted⟩ := Journaled.persist_does hlaw hgood hmay
      have hstays := Journal.lasting_drives call _ _ _ _ hat hdoes.noted.grows
      simp only [Operation.onStore] at hsave
      split at hsave
      · next s' v heq =>
        obtain ⟨hstored, rfl⟩ := Prod.mk.inj heq
        obtain ⟨rfl, hmem⟩ := hnoted s' hstored
        cases hsave
        exact ⟨hdoes.told, hdoes.noted, hid, Journal.drives_of_stored hmem hat.1⟩
      · next fault v heq =>
        obtain ⟨-, rfl⟩ := Prod.mk.inj heq
        cases hsave
        exact ⟨hdoes.told, hdoes.noted, hid, hstays⟩
      · simp at hsave

/-- A call that has won the instance it drives, and has it in hand. -/
def Held (call : Nat) (about : Option Uuid) (id : Uuid) (s : Instance) (j : Journal) : Prop :=
  j.Won call about ∧ s.id = id ∧ j.Drives call s

theorem lasting_held (call : Nat) (about : Option Uuid) (id : Uuid) (s : Instance) :
    Journal.Lasting (Held call about id s) := fun _ _ _ ⟨hwon, hid, hdrives⟩ h =>
  ⟨h.won hwon, hid, Journal.lasting_drives call s _ _ _ hdrives h⟩

/-- Undoing steps leaves the instance in hand. -/
theorem undo_fulfils {runId id : Uuid} (steps : List (NodeId × Step C H))
    {board : Board C H Instance} {u : Environment.Undone}
    (h : Held call about id board.extra w.store.journal) :
    (((c.journaled call).environment runId).undo board u steps).Fulfils view call about
      (fun r => Held call about id r.1.extra) w := by
  induction steps generalizing board u w with
  | nil => exact h
  | cons step steps ih =>
    obtain ⟨node, s⟩ := step
    rw [Environment.undo]
    split
    · exact ih h
    · obtain ⟨hwon, hid, hdrives⟩ := h
      refine ⟨hwon, Driving call id, ⟨hid, hdrives⟩, fun own w v hJ hv => ?_,
        Environment.onBoard_keeps (fun b c h w hgood hJ => ?_) _, fun own e v hwon hJ => ?_⟩
      · exact ⟨hJ.1, (Journal.lasting_drives call own.extra).steady call _ _ hJ.2 hv⟩
      · exact ⟨hgood, (conduct H view call about).own_refl w, hJ⟩
      · exact ih ⟨hwon, hJ.1, hJ.2⟩

theorem conclude_fulfils {runId id : Uuid} (d : Definition C H) (begin : Nat)
    {board : Board C H Instance} (outcome : RunOutcome)
    (h : Held call about id board.extra w.store.journal) :
    (((c.journaled call).environment runId).conclude d begin board outcome).Fulfils view call about
      (fun r => Held call about id r.1.extra) w := by
  refine Course.Fulfils.bind (undo_fulfils _ h) fun r v hr => ?_
  refine Course.Fulfils.bind (.read ((lasting_held _ _ _ _).steady call) hr) fun instant v hr => ?_
  simp only
  split
  · refine Course.Fulfils.bind (Course.Fulfils.modify (C := C)
      (f := World.publish _) (fun _ => rfl)
      ((lasting_held call about id r.1.extra).steady call) hr) fun _ v hr => ?_
    exact hr
  · exact hr

/-- A run of an instance that a call has won stays in its hands. -/
theorem run_fulfils (hlaw : c.repository.Lawful view) {runId id : Uuid} (d : Definition C H)
    (start : StartPoint) (context : C) (h : Held call about id s w.store.journal) :
    (((c.journaled call).environment runId).run d start context s).Fulfils view call about
      (fun r => Held call about id r.1) w := by
  refine Course.Fulfils.bind (.read ((lasting_held _ _ _ _).steady call) h) fun begin v h => ?_
  refine Course.Fulfils.bind (Course.Fulfils.modify (C := C) (f := World.publish _) (fun _ => rfl)
    ((lasting_held call about id s).steady call) h) fun _ v h => ?_
  obtain ⟨hwon, hid, hdrives⟩ := h
  refine ⟨hwon, Driving call id, ⟨hid, hdrives⟩, fun own w v hJ hv => ?_,
    Environment.traverse_keeps (environment_within hlaw runId id d.graph) start,
    fun board report v hwon hJ => ?_⟩
  · exact ⟨hJ.1, (Journal.lasting_drives call own.extra).steady call _ _ hJ.2 hv⟩
  · simp only
    split
    · trivial
    · exact ⟨hwon, hJ⟩
    · exact Course.Fulfils.bind (conclude_fulfils d begin _ ⟨hwon, hJ⟩) fun r v hr => hr

theorem tell_fulfils {F : Journal → Prop} (hF : Journal.Steady call F) (notice : Notice)
    (hw : F w.store.journal) :
    ((c.journaled call).tell notice : Operation C H (Journaled R) Unit).Fulfils view call about
      (fun _ => F) w :=
  .modify (fun _ => Notifier.tell_store ..) hF hw

theorem announce_fulfils {F : Journal → Prop} (hF : Journal.Steady call F) (id : Uuid)
    (what : Happening) (hw : F w.store.journal) :
    (Operation.announce id what : Operation C H (Journaled R) Unit).Fulfils view call about
      (fun _ => F) w :=
  .modify (f := World.publish ⟨id, what⟩) (fun _ => rfl) hF hw

/-- A move that the known version allows is stored and told. -/
theorem file_fulfils (hlaw : c.repository.Lawful view) {r : Except TransitionError Instance}
    (note : Instance → Instance) (notice : Instance → Notice)
    (h : ∀ s, r = .ok s → w.store.journal.MayStore call (note s)) :
    (do
      let s ← Operation.moved r
      let s ← (c.journaled call).persist (note s)
      (c.journaled call).tell (notice s)
      return s : Operation C H (Journaled R) Instance).Fulfils view call about (fun _ _ => True) w :=
  (Operation.Fulfils.moved (Q := fun s j => j.MayStore call (note s)) h).bind fun _ _ hmay =>
    (persist_fulfils hlaw Journal.lasting_true hmay trivial).bind fun _ _ _ =>
      (tell_fulfils (Journal.lasting_true.steady call) _ trivial).bind fun _ _ _ => .pure trivial

/-- The end of a run is stored as a move that the running version allows. -/
theorem settle_fulfils (hlaw : c.repository.Lawful view) {outcome : RunOutcome}
    (h : w.store.journal.Drives call s) :
    ((c.journaled call).settle s outcome).Fulfils view call about (fun _ _ => True) w := by
  have hnow : (Operation.now : Operation C H (Journaled R) Timestamp).Fulfils view call about
      (fun _ => (·.Drives call s)) w := .now ((Journal.lasting_drives call s).steady call) h
  cases outcome with
  | completed =>
    refine hnow.bind fun now v h => file_fulfils hlaw (fun s => { s with pending := [] }) .completed
      fun s' hs' => ?_
    obtain ⟨hid, hrevision, hallows, -⟩ := Instance.of_transition hs'
    exact h.mayStore hid hrevision hallows
  | failed failure =>
    refine hnow.bind fun now v h => file_fulfils hlaw
      (fun s => { s with pending := [], error := some failure.text }) (.errored · failure.text)
      fun s' hs' => ?_
    obtain ⟨hid, hrevision, hallows, -⟩ := Instance.of_transition hs'
    exact h.mayStore hid hrevision hallows
  | suspended wait =>
    refine hnow.bind fun now v h => ?_
    split
    · exact .crash _
    · refine file_fulfils hlaw id .approvalRequested fun s' hs' => ?_
      obtain ⟨hid, hrevision, hallows⟩ := Instance.of_enterWait hs'
      exact h.mayStore hid hrevision hallows

theorem settleCancelled_fulfils (hlaw : c.repository.Lawful view)
    (h : w.store.journal.Drives call s) :
    ((c.journaled call).settleCancelled s : Operation C H (Journaled R) α).Fulfils view call about
      (fun _ _ => True) w := by
  refine (Operation.Fulfils.now ((Journal.lasting_drives call s).steady call) h).bind
    fun now v h => ?_
  refine (Operation.Fulfils.moved (Q := fun s' j => j.MayStore call s') fun s' hs' => ?_).bind
    fun s' v hmay => ?_
  · obtain ⟨hid, hrevision, hallows, -⟩ := Instance.of_transition hs'
    exact h.mayStore hid hrevision hallows
  · refine (persist_fulfils (s := { s' with error := some "cancelled" }) hlaw Journal.lasting_true
      hmay trivial).bind fun _ v _ => ?_
    exact (announce_fulfils (Journal.lasting_true.steady call) _ _ trivial).bind fun _ _ _ => .throw _

/-- Driving an instance that the call has won. -/
theorem drive_fulfils (hlaw : c.repository.Lawful view) (d : Definition C H) (context : C)
    (start : StartPoint) (h : Held call about s.id s w.store.journal) :
    ((c.journaled call).drive d s context start).Fulfils view call about (fun _ _ => True) w := by
  refine (Operation.Fulfils.ofErrand (run_fulfils hlaw d start context h)).bind fun r v hr => ?_
  obtain ⟨last, result⟩ := r
  obtain ⟨-, hid, hdrives⟩ := hr
  cases result with
  | none => exact settleCancelled_fulfils hlaw hdrives
  | some result =>
    refine (Operation.Fulfils.orThrow (Q := fun _ j => j.Drives call last) fun _ _ => hdrives).bind
      fun context v hdrives => ?_
    exact .bind (settle_fulfils hlaw (hdrives.congr rfl rfl rfl)) fun _ _ _ =>
      .pure (Q := fun _ _ => True) trivial

end Coordinator

end

end DurableWorkflow
