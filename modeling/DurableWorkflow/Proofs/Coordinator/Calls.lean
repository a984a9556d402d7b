import DurableWorkflow.Coordinator.Basic
import DurableWorkflow.Coordinator.Sweeper
import DurableWorkflow.Proofs.Coordinator.Drive

/-!
# The calls of coordinators and sweepers

Every call keeps its conduct, from a world on in which it has not done anything yet. It reads an
instance once, or creates it; the first version that it stores is a move that the version which it
has read allows; and only with that version stored does it go on to a run.
-/

namespace DurableWorkflow

variable {C H R : Type} {view : R → Uuid → Option Instance} {call : Nat} {about : Option Uuid}
  {s : Instance} {id : Uuid} {w : World (Journaled R) H}

namespace Journal

variable {j : Journal} {t : Instance}

/-- The running version `s` may be stored, and if the call is about one instance, then in the place
of the version of it that the call has read. -/
def MayClaim (j : Journal) (call : Nat) (about : Option Uuid) (s : Instance) : Prop :=
  j.MayStore call s ∧ s.status = .running ∧
    ∀ id ∈ about, s.id = id ∧ ∃ t, ⟨call, .read t⟩ ∈ j ∧ t.id = id ∧ t.revision = s.revision

theorem lasting_mayClaim (call : Nat) (about : Option Uuid) (s : Instance) :
    Lasting (·.MayClaim call about s) := by
  rintro p j j' ⟨hmay, hrunning, habout⟩ h
  refine ⟨lasting_mayStore call s _ _ _ hmay h, hrunning, fun id hid => ?_⟩
  obtain ⟨hsid, t, ht, htid⟩ := habout id hid
  exact ⟨hsid, t, h.mem ht, htid⟩

theorem mayClaim_of_read (ht : ⟨call, .read t⟩ ∈ j) (hid : s.id = t.id)
    (hrevision : s.revision = t.revision) (hallows : t.status.allows s.status = true)
    (hrunning : s.status = .running) : j.MayClaim call (some t.id) s := by
  refine ⟨⟨t, ⟨_, ht, rfl⟩, hid.symm, hrevision.symm, hallows⟩, hrunning, fun id hid' => ?_⟩
  cases hid'
  exact ⟨hid, t, ht, rfl, hrevision.symm⟩

theorem MayClaim.won (h : j.MayClaim call about s)
    (hmem : ⟨call, .stored { s with revision := s.revision + 1 }⟩ ∈ j) : j.Won call about := by
  obtain ⟨-, -, habout⟩ := h
  cases about with
  | none => exact ⟨_, hmem⟩
  | some id =>
    obtain ⟨hid, t, ht, htid, hrevision⟩ := habout id rfl
    exact ⟨t, _, ht, hmem, htid, hid, by rw [hrevision]⟩

end Journal

namespace Coordinator

variable {c : Coordinator C H R}

theorem acquire_store (number operation : Nat) (id : Uuid) (w : World R H) :
    (World.acquire number operation id w).2.store = w.store := by
  unfold World.acquire
  split <;> rfl

theorem acquire_fulfils {F : Journal → Prop} (hF : Journal.Steady call F) (operation : Nat)
    (id : Uuid) (hw : F w.store.journal) :
    ((c.journaled call).acquire operation id : Operation C H (Journaled R) Unit).Fulfils view call
      about (fun _ => F) w := by
  refine (Operation.Fulfils.idle (acquire_store _ _ _) hF hw).bind fun free v h => ?_
  cases free with
  | true => exact .pure h
  | false => exact .throw _

theorem load_fulfils (hlaw : c.repository.Lawful view) (h : w.store.journal.Unknown call) :
    ((c.journaled call).load id : Operation C H (Journaled R) Instance).Fulfils view call about
      (fun s j => s.id = id ∧ ⟨call, .read s⟩ ∈ j) w := by
  refine (Operation.Fulfils.request (Journal.steady_unknown call) h fun j hj hnew =>
    Journaled.get_answers hlaw hj (hnew.untouched id)).bind fun found v hfound => ?_
  exact .orThrow hfound

theorem definitionFor_fulfils {F : Journal → Prop} (s : Instance) (hw : F w.store.journal) :
    ((c.journaled call).definitionFor s : Operation C H (Journaled R) (Definition C H)).Fulfils view
      call about (fun _ => F) w := by
  refine (Operation.Fulfils.orThrow (Q := fun _ => F) fun _ _ => hw).bind fun d v h => ?_
  split
  · exact .pure h
  · exact .throw _

/-- A claim that is stored is driven. -/
theorem claim_fulfils (hlaw : c.repository.Lawful view)
    (h : w.store.journal.MayClaim call about s) :
    ((c.journaled call).persist s).Fulfils view call about
      (fun s' => Held call about s'.id s') w := by
  have hrunning := h.2.1
  refine (persist_fulfils hlaw (Journal.lasting_mayClaim call about s) h.1 h).mono
    fun s' j ⟨hs', hmem, hclaim⟩ => ?_
  subst hs'
  exact ⟨hclaim.won hmem, rfl, Journal.drives_of_stored hmem hrunning⟩

theorem of_revive {s s' : Instance} {now : Timestamp} (h : revive s now = .ok s') :
    s'.id = s.id ∧ s'.revision = s.revision ∧ s.status.allows s'.status = true ∧
      s'.status = .running := by
  unfold revive at h
  split at h
  · next hrunning =>
    cases h
    exact ⟨rfl, rfl, by rw [hrunning]; rfl, hrunning⟩
  · split at h
    · next t ht =>
      cases h
      exact Instance.of_transition ht
    · simp at h
  · simp at h
  · simp at h

/-- Starting is about no instance that is there already. -/
theorem start_fulfils (hlaw : c.repository.Lawful view) (operation : Nat) (definition : String)
    (context : C) (h : w.store.journal.Unknown call) :
    ((c.journaled call).start operation definition context).Fulfils view call none
      (fun _ _ => True) w := by
  have hunknown := Journal.steady_unknown call
  refine .releasing operation (Operation.Fulfils.bind
    (Q := fun _ j => j.Unknown call) (.orThrow fun _ _ => h) fun d v h => ?_)
  refine Operation.Fulfils.bind (Q := fun _ j => j.Unknown call) (.orThrow fun _ _ => h)
    fun encoded v h => ?_
  refine (Operation.Fulfils.idle (f := World.mint) (fun _ => rfl) hunknown h).bind fun id v h => ?_
  refine (Operation.Fulfils.now hunknown h).bind fun now v h => ?_
  refine (Operation.Fulfils.request hunknown h fun j hj hnew =>
    Journaled.save_answers hlaw hj (hnew.untouched _) rfl rfl).bind fun _ v hknows => ?_
  refine (acquire_fulfils ((Journal.lasting_knows call _).steady call) operation id hknows).bind
    fun _ v hknows => ?_
  refine (Operation.Fulfils.moved (Q := fun s j => j.MayClaim call none s) fun s hs => ?_).bind
    fun s v hclaim => ?_
  · obtain ⟨hid, hrevision, hallows, hrunning⟩ := Instance.of_transition hs
    exact ⟨hknows.mayStore hid hrevision hallows, hrunning, by simp⟩
  · exact (claim_fulfils hlaw hclaim).bind fun s v hheld => drive_fulfils hlaw d context .root hheld

theorem signal_fulfils (hlaw : c.repository.Lawful view) (operation : Nat) (name : String)
    (payload : Json) (h : w.store.journal.Unknown call) :
    ((c.journaled call).signal operation id name payload).Fulfils view call (some id)
      (fun _ _ => True) w := by
  have hunknown := Journal.steady_unknown call
  refine .releasing operation ((acquire_fulfils hunknown operation id h).bind fun _ v h => ?_)
  refine (load_fulfils hlaw h).bind fun s v ⟨hid, h⟩ => ?_
  subst hid
  refine Operation.Fulfils.bind (Q := fun _ j => ⟨call, .read s⟩ ∈ j) (.orThrow fun _ _ => h)
    fun node v h => ?_
  refine (definitionFor_fulfils (F := fun j => ⟨call, .read s⟩ ∈ j) s h).bind fun d v h => ?_
  refine Operation.Fulfils.bind (Q := fun _ j => ⟨call, .read s⟩ ∈ j) (.orThrow fun _ _ => h)
    fun context v h => ?_
  refine (Operation.Fulfils.now ((Journal.lasting_read call s).steady call) h).bind
    fun now v h => ?_
  refine (Operation.Fulfils.moved (Q := fun s' j => j.MayClaim call (some s.id) s')
    fun s' hs' => ?_).bind fun s' v hclaim => ?_
  · obtain ⟨hid, hrevision, hallows, hrunning⟩ := Instance.of_acceptSignal hs'
    exact Journal.mayClaim_of_read h hid hrevision hallows hrunning
  refine (claim_fulfils hlaw hclaim).bind fun s' v hheld => ?_
  refine (announce_fulfils ((lasting_held call _ s'.id s').steady call) _ _ hheld).bind
    fun _ v hheld => ?_
  exact drive_fulfils hlaw d context _ hheld

theorem resume_fulfils (hlaw : c.repository.Lawful view) (operation : Nat)
    (h : w.store.journal.Unknown call) :
    ((c.journaled call).resume operation id).Fulfils view call (some id) (fun _ _ => True) w := by
  have hunknown := Journal.steady_unknown call
  refine .releasing operation ((acquire_fulfils hunknown operation id h).bind fun _ v h => ?_)
  refine (load_fulfils hlaw h).bind fun s v ⟨hid, h⟩ => ?_
  subst hid
  refine (Operation.Fulfils.now ((Journal.lasting_read call s).steady call) h).bind
    fun now v h => ?_
  refine Operation.Fulfils.bind (Q := fun s' j => j.MayClaim call (some s.id) s')
    (.lift fun s' hs' => ?_) fun s' v hclaim => ?_
  · obtain ⟨hid, hrevision, hallows, hrunning⟩ := of_revive hs'
    exact Journal.mayClaim_of_read h hid hrevision hallows hrunning
  refine (definitionFor_fulfils (F := (·.MayClaim call (some s.id) s')) s' hclaim).bind
    fun d v hclaim => ?_
  refine Operation.Fulfils.bind (Q := fun _ j => j.MayClaim call (some s.id) s')
    (.orThrow fun _ _ => hclaim) fun context v hclaim => ?_
  exact (claim_fulfils hlaw hclaim).bind fun s v hheld => drive_fulfils hlaw d context _ hheld

theorem acquireOrCancel_store (c : Coordinator C H R) (operation : Nat) (id : Uuid)
    (w : World R H) : (c.acquireOrCancel operation id w).2.store = w.store := by
  have hacquire := acquire_store c.number operation id w
  unfold acquireOrCancel
  split
  · next v heq =>
    rw [heq] at hacquire
    exact hacquire
  · unfold World.requestCancel
    split <;> rfl

/-- Cancelling runs nothing. -/
theorem cancel_fulfils (hlaw : c.repository.Lawful view) (operation : Nat)
    (h : w.store.journal.Unknown call) :
    ((c.journaled call).cancel operation id : Operation C H (Journaled R) Cancelled).Fulfils view
      call about (fun _ _ => True) w := by
  have hunknown := Journal.steady_unknown call
  refine .releasing operation ((Operation.Fulfils.idle
    (acquireOrCancel_store (c.journaled call) operation id) hunknown h).bind fun free v h => ?_)
  cases free with
  | false => exact .pure trivial
  | true =>
    refine (load_fulfils hlaw h).bind fun s v ⟨_, h⟩ => ?_
    refine (Operation.Fulfils.now ((Journal.lasting_read call s).steady call) h).bind
      fun now v h => ?_
    refine (Operation.Fulfils.moved (Q := fun s j => j.MayStore call s) fun s' hs' => ?_).bind
      fun s' v hmay => ?_
    · obtain ⟨hid', hrevision, hallows, -⟩ := Instance.of_transition hs'
      have hknows : v.store.journal.Knows call s := ⟨_, h, rfl⟩
      exact hknows.mayStore hid' hrevision hallows
    have hsteady := Journal.lasting_true.steady call
    refine (persist_fulfils hlaw Journal.lasting_true hmay trivial).bind fun _ v _ => ?_
    refine (Operation.Fulfils.modify (f := World.release operation) (fun _ => rfl) hsteady
      trivial).bind fun _ v _ => ?_
    exact (announce_fulfils hsteady _ _ trivial).bind fun _ _ _ => .pure trivial

end Coordinator

/-- A dispatcher, with notes of what a call does to the repositories. -/
def Dispatcher.journaled (call : Nat) (d : Dispatcher C H R) : Dispatcher C H (Journaled R) where
  repository := d.repository.journaled call
  targets := d.targets.map (·.journaled call)

/-- A sweeper, with notes of what a call does to the repository. -/
def Sweeper.journaled (call : Nat) (sweeper : Sweeper R) : Sweeper (Journaled R) where
  repository := sweeper.repository.journaled call
  notifier := sweeper.notifier

theorem Dispatcher.dispatch_fulfils {d : Dispatcher C H R} (hlaw : d.repository.Lawful view)
    (htargets : ∀ c ∈ d.targets, c.repository.Lawful view) (operation : Nat) (name : String)
    (payload : Json) (h : w.store.journal.Unknown call) :
    ((d.journaled call).dispatch operation id name payload).Fulfils view call (some id)
      (fun _ _ => True) w := by
  have hunknown := Journal.steady_unknown call
  refine Operation.Fulfils.bind (Q := fun _ j => j.Unknown call) (Operation.Fulfils.request hunknown
    h fun j hj hnew => ?_) fun found v h => ?_
  · have hanswers : Journaled.Answers view call j (fun _ j' => j' = j.journal)
        ((d.repository.journaled call).contextInfo id j) := Journaled.contextInfo_answers hlaw hj
    exact ⟨hanswers.1, fun found hfound => hanswers.2 found hfound ▸ hnew⟩
  refine Operation.Fulfils.bind (Q := fun _ j => j.Unknown call) (.orThrow fun _ _ => h)
    fun info v h => ?_
  split
  · exact .throw _
  · next c hc =>
    obtain ⟨c, hmem, rfl⟩ := List.mem_map.1 (List.mem_of_find?_eq_some hc)
    exact (Coordinator.signal_fulfils (htargets c hmem) operation name payload h).bind
      fun _ _ _ => .pure trivial

namespace Sweeper

variable {sweeper : Sweeper R}

theorem of_expire {s s' : Instance} {now : Timestamp} {signal message : String}
    (h : expire s now = .ok (s', signal, message)) :
    s'.id = s.id ∧ s'.revision = s.revision ∧ s.status.allows s'.status = true := by
  unfold expire at h
  cases ht : s.transition .timedOut now with
  | error e => simp [ht, Except.map] at h
  | ok t =>
    rw [ht] at h
    cases h
    obtain ⟨hid, hrevision, hallows, -⟩ := Instance.of_transition ht
    exact ⟨hid, hrevision, hallows⟩

theorem announce_fulfils {F : Journal → Prop} (hF : Journal.Steady call F) (s : Instance)
    (signal message : String) (hw : F w.store.journal) :
    ((sweeper.journaled call).announce s signal message : Errand C H (Journaled R) Unit).Fulfils
      view call about (fun _ => F) w :=
  .modify (fun v => Notifier.tell_store _ _ (v.publish ⟨s.id, .runTimedOut signal⟩)) hF hw

theorem sweepListed_fulfils (hlaw : sweeper.repository.Lawful view) (now : Timestamp)
    (listed : List Instance) (ended : List Uuid)
    (h : ∀ s ∈ listed, w.store.journal.Knows call s) :
    Course.Fulfils (C := C) (H := H) view call about (fun _ _ => True)
      ((sweeper.journaled call).sweepListed now ended listed) w := by
  induction listed generalizing ended w with
  | nil => trivial
  | cons s rest ih =>
    have hrest : ∀ s ∈ rest, w.store.journal.Knows call s := fun s hs =>
      h s (List.mem_cons_of_mem _ hs)
    rw [sweepListed]
    split
    · refine Course.Fulfils.bind (.read ((Journal.lasting_knowsAll call (s :: rest)).steady call) h)
        fun wall v h => ?_
      have hrest : ∀ s ∈ rest, v.store.journal.Knows call s := fun s hs =>
        h s (List.mem_cons_of_mem _ hs)
      split
      · exact ih ended hrest
      · next s' signal message hs' =>
        obtain ⟨hid, hrevision, hallows⟩ := of_expire hs'
        have hmay := (h s (List.mem_cons_self ..)).mayStore hid hrevision hallows
        refine Course.Fulfils.bind (Journaled.persist_fulfils hlaw
          (Journal.lasting_knowsAll call rest) hmay hrest) fun p v ⟨_, hrest⟩ => ?_
        split
        · exact Course.Fulfils.bind (announce_fulfils
            ((Journal.lasting_knowsAll call rest).steady call) _ _ _ hrest) fun _ v hrest =>
              ih _ hrest
        · exact ih ended hrest
        · trivial
        · trivial
    · exact ih ended hrest

theorem sweep_fulfils (hlaw : sweeper.repository.Lawful view) (now : Timestamp)
    (h : w.store.journal.Unknown call) :
    Course.Fulfils (C := C) (H := H) view call about (fun _ _ => True)
      ((sweeper.journaled call).sweep now) w := by
  refine Course.Fulfils.bind (Course.Fulfils.request (Q := fun (r : Except RepositoryFault _) j =>
    ∀ l, r = .ok l → ∀ s ∈ l, j.Knows call s) (Journal.steady_unknown call) h fun j hj hnew =>
    Journaled.listWaiting_answers hlaw hj (fun id => hnew.untouched id) none) fun r v hr => ?_
  cases r with
  | error fault => trivial
  | ok listed => exact sweepListed_fulfils hlaw now listed [] (hr listed rfl)

end Sweeper

/-- Deleting is left to whoever has a repository. -/
theorem Repository.delete_fulfils {repository : Repository R} (hlaw : repository.Lawful view)
    (h : w.store.journal.Unknown call) :
    (Operation.request ((repository.journaled call).delete id) :
      Operation C H (Journaled R) Bool).Fulfils view call about (fun _ _ => True) w :=
  .request (Journal.steady_unknown call) h fun _ hj hnew =>
    Journaled.delete_answers hlaw hj hnew.not_knows

end DurableWorkflow
