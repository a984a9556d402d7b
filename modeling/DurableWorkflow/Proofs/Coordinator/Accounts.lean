import DurableWorkflow.Proofs.Coordinator.Calls
import DurableWorkflow.Proofs.Coordinator.Hold

/-!
# The accounts of coordinators and sweepers

Every call keeps its account. A signal is accepted by the write that records it, and the run that
follows begins with the version which that write has stored. Resuming stores what it has read once
more, and begins where `restartPoint` says, which is the recorded delivery if there is one.
-/

namespace DurableWorkflow

variable {C H R α : Type} {view : R → Uuid → Option Instance} {a : Caller C H R} {id : Uuid}
  {w : World (Journaled R) H} {F : Journal → Prop}

/-- A move leaves the identifier and the revision to whoever stores it. -/
theorem Instance.Move.same {p : Warrant} {t s : Instance} (h : Move p t s) :
    s.id = t.id ∧ s.revision = t.revision := by
  cases h with
  | begin _ h | cancel h =>
    obtain ⟨hid, hrevision, -⟩ := of_transition h
    exact ⟨hid, hrevision⟩
  | renew => exact ⟨rfl, rfl⟩
  | accept _ _ _ h =>
    obtain ⟨hid, hrevision, -⟩ := of_acceptSignal h
    exact ⟨hid, hrevision⟩
  | expire _ h =>
    obtain ⟨hid, hrevision, -⟩ := Sweeper.of_expire h
    exact ⟨hid, hrevision⟩
  | complete hlast h | fail _ hlast h | giveUp hlast h =>
    obtain ⟨hid, hrevision, -⟩ := of_transition h
    exact ⟨hid.trans hlast.id, hrevision.trans hlast.revision⟩
  | wait hlast h =>
    obtain ⟨hid, hrevision, -⟩ := of_enterWait h
    exact ⟨hid.trans hlast.id, hrevision.trans hlast.revision⟩

namespace Coordinator

variable {c : Coordinator C H R} {s s' : Instance}

theorem acquire_accounts (hF : Journal.Lasting F) (operation : Nat) (id : Uuid)
    (hw : F w.store.journal) :
    ((c.journaled a.call).acquire operation id : Operation C H (Journaled R) Unit).Accounts view a
      (fun _ => F) w := by
  refine (Operation.Accounts.idle (acquire_store _ _ _) hF hw).bind fun free v h => ?_
  cases free with
  | true => exact .pure h
  | false => exact .throw _

theorem load_accounts (hlaw : c.repository.Lawful view) :
    ((c.journaled a.call).load id : Operation C H (Journaled R) Instance).Accounts view a
      (fun s j => j.Knows a.call s) w := by
  refine (Operation.Accounts.request fun j hj => Journaled.get_files hlaw hj).bind
    fun found v hfound => ?_
  exact .orThrow fun s hs => ⟨_, hfound s hs, rfl⟩

theorem definition_accounts (id : String) (hw : F w.store.journal) :
    ((c.journaled a.call).definition id : Operation C H (Journaled R) (Definition C H)).Accounts view
      a (fun d j => d ∈ c.definitions ∧ F j) w :=
  .orThrow fun _ hd => ⟨List.mem_of_find?_eq_some hd, hw⟩

theorem definitionFor_accounts (s : Instance) (hw : F w.store.journal) :
    ((c.journaled a.call).definitionFor s : Operation C H (Journaled R) (Definition C H)).Accounts
      view a (fun d j => d ∈ c.definitions ∧ F j) w := by
  refine (definition_accounts s.workflow hw).bind fun d v h => ?_
  split
  · exact .pure h
  · exact .throw _

/-- Starting creates an instance and stores that it is running. -/
theorem start_accounts (hlaw : c.repository.Lawful view) (hc : c ∈ a.coordinators) (operation : Nat)
    (definition : String) (context : C) :
    ((c.journaled a.call).start operation definition context).Accounts view a (fun _ _ => True)
      w := by
  refine .releasing operation ((definition_accounts (F := fun _ => True) definition trivial).bind
    fun d v ⟨hd, _⟩ => ?_)
  refine Operation.Accounts.bind (Q := fun _ _ => True) (.orThrow fun _ _ => trivial)
    fun encoded v _ => ?_
  refine (Operation.Accounts.idle (f := World.mint) (fun _ => rfl) Journal.lasting_true trivial).bind
    fun id v _ => ?_
  refine (Operation.Accounts.now Journal.lasting_true trivial).bind fun now v _ => ?_
  refine (Operation.Accounts.request fun j _ => Journaled.save_files hlaw rfl
    (Instance.create_wellFormed ..)).bind fun _ v hknown => ?_
  refine (acquire_accounts (Journal.lasting_knows a.call _) operation id hknown).bind
    fun _ v hknown => ?_
  refine (Operation.Accounts.moved (F := (·.Knows a.call _)) hknown).bind
    fun s v ⟨hs, hknown⟩ => ?_
  obtain ⟨-, rfl⟩ := Instance.transition_eq hs
  refine (persist_accounts hknown (.begin rfl hs) Journal.lasting_true trivial).bind
    fun u v ⟨hu, hstored, _⟩ => ?_
  subst hu
  refine drive_accounts hc hd (fun node signal hdelivery => ?_) rfl hstored
  simp [Instance.pendingDelivery, Instance.create] at hdelivery

theorem signal_accounts (hlaw : c.repository.Lawful view) (hc : c ∈ a.coordinators) (operation : Nat)
    {name : String} {payload : Json} (hoffer : a.offer = some (name, payload)) :
    ((c.journaled a.call).signal operation id name payload).Accounts view a (fun _ _ => True) w := by
  refine .releasing operation ((acquire_accounts Journal.lasting_true operation id trivial).bind
    fun _ v _ => ?_)
  refine (load_accounts hlaw).bind fun s v hknown => ?_
  refine Operation.Accounts.bind (Q := fun node j =>
    j.Knows a.call s ∧ s.isWaitingFor name = true ∧ s.waitingNode = some node)
    (.orThrow fun node hnode => ?_) fun node v ⟨hknown, hwaits, hnode⟩ => ?_
  · rw [Option.mem_def, Option.ite_none_right_eq_some] at hnode
    exact ⟨hknown, hnode⟩
  refine (definitionFor_accounts (F := fun j => j.Knows a.call s) s hknown).bind
    fun d v ⟨hd, hknown⟩ => ?_
  refine Operation.Accounts.bind (Q := fun _ j => j.Knows a.call s) (.orThrow fun _ _ => hknown)
    fun context v hknown => ?_
  refine (Operation.Accounts.now (Journal.lasting_knows a.call s) hknown).bind
    fun now v hknown => ?_
  refine (Operation.Accounts.moved (F := (·.Knows a.call s)) hknown).bind
    fun s v ⟨hs, hknown⟩ => ?_
  have hmove := Instance.Move.accept (p := a.warrant) hoffer hwaits hnode hs
  obtain ⟨t, ht, rfl⟩ := Instance.acceptSignal_eq hs
  obtain ⟨-, rfl⟩ := Instance.transition_eq ht
  refine (persist_accounts hknown hmove Journal.lasting_true trivial).bind
    fun u v ⟨hu, hstored, _⟩ => ?_
  subst hu
  refine (Operation.Accounts.modify (f := World.publish _) (fun _ => rfl) (Journal.lasting_mem _)
    hstored).bind fun _ v hstored => ?_
  refine drive_accounts hc hd (fun node signal hdelivery => ?_) rfl hstored
  cases hdelivery
  rfl

/-- An instance that is to be resumed is running, or has not begun. -/
theorem move_of_revive {p : Instance.Warrant} {now : Timestamp} (h : revive s now = .ok s') :
    Instance.Move p s s' := by
  unfold revive at h
  split at h
  · next hrunning =>
    cases h
    exact .renew hrunning
  · next hcreated =>
    split at h
    · next t ht =>
      cases h
      exact .begin hcreated ht
    · simp at h
  · simp at h
  · simp at h

/-- A recorded delivery is where an instance is resumed. -/
theorem restartPoint_redelivers (s : Instance) (n : Nat) :
    Redelivers { s with revision := n } (restartPoint s) := by
  intro node signal hdelivery
  have hs : s.pendingDelivery = some (node, signal) := hdelivery
  rw [restartPoint, hs]

theorem resume_accounts (hlaw : c.repository.Lawful view) (hc : c ∈ a.coordinators)
    (operation : Nat) :
    ((c.journaled a.call).resume operation id).Accounts view a (fun _ _ => True) w := by
  refine .releasing operation ((acquire_accounts Journal.lasting_true operation id trivial).bind
    fun _ v _ => ?_)
  refine (load_accounts hlaw).bind fun s v hknown => ?_
  refine (Operation.Accounts.now (Journal.lasting_knows a.call s) hknown).bind
    fun now v hknown => ?_
  refine Operation.Accounts.bind (Q := fun s' j => j.Knows a.call s ∧ revive s now = .ok s')
    (.lift fun s' hs' => ⟨hknown, hs'⟩) fun s' v ⟨hknown, hs'⟩ => ?_
  refine (definitionFor_accounts (F := fun j => j.Knows a.call s) s' hknown).bind
    fun d v ⟨hd, hknown⟩ => ?_
  refine Operation.Accounts.bind (Q := fun _ j => j.Knows a.call s) (.orThrow fun _ _ => hknown)
    fun context v hknown => ?_
  refine (persist_accounts hknown (move_of_revive hs') Journal.lasting_true trivial).bind
    fun u v ⟨hu, hstored, _⟩ => ?_
  subst hu
  have hrunning : s'.status = .running := (of_revive hs').2.2.2
  exact drive_accounts hc hd (restartPoint_redelivers s' _) hrunning hstored

theorem cancel_accounts (hlaw : c.repository.Lawful view) (operation : Nat) :
    ((c.journaled a.call).cancel operation id : Operation C H (Journaled R) Cancelled).Accounts view a
      (fun _ _ => True) w := by
  refine .releasing operation ((Operation.Accounts.idle
    (acquireOrCancel_store (c.journaled a.call) operation id) Journal.lasting_true trivial).bind
    fun free v _ => ?_)
  cases free with
  | false => exact .pure trivial
  | true =>
    refine (load_accounts hlaw).bind fun s v hknown => ?_
    refine (Operation.Accounts.now (Journal.lasting_knows a.call s) hknown).bind
      fun now v hknown => ?_
    refine (Operation.Accounts.moved (F := (·.Knows a.call s)) hknown).bind
      fun s' v ⟨hs', hknown⟩ => ?_
    refine (persist_accounts hknown (.cancel hs') Journal.lasting_true trivial).bind fun u v _ => ?_
    refine (Operation.Accounts.modify (f := World.release operation) (fun _ => rfl)
      Journal.lasting_true trivial).bind fun _ v _ => ?_
    exact (Operation.Accounts.modify (f := World.publish _) (fun _ => rfl) Journal.lasting_true
      trivial).bind fun _ _ _ => .pure trivial

end Coordinator

theorem Dispatcher.dispatch_accounts {d : Dispatcher C H R} (hlaw : d.repository.Lawful view)
    (htargets : ∀ c ∈ d.targets, c.repository.Lawful view)
    (hcoordinators : ∀ c ∈ d.targets, c ∈ a.coordinators) (operation : Nat) {name : String}
    {payload : Json} (hoffer : a.offer = some (name, payload)) :
    ((d.journaled a.call).dispatch operation id name payload).Accounts view a
      (fun _ _ => True) w := by
  refine (Operation.Accounts.request fun j _ => Journaled.contextInfo_files hlaw).bind
    fun found v _ => ?_
  refine Operation.Accounts.bind (Q := fun _ _ => True) (.orThrow fun _ _ => trivial)
    fun info v _ => ?_
  split
  · exact .throw _
  · next c hc =>
    obtain ⟨c, hmem, rfl⟩ := List.mem_map.1 (List.mem_of_find?_eq_some hc)
    exact (Coordinator.signal_accounts (htargets c hmem) (hcoordinators c hmem) operation
      hoffer).bind fun _ _ _ => .pure trivial

namespace Sweeper

variable {sweeper : Sweeper R}

theorem sweepListed_accounts (now : Timestamp) (listed : List Instance) (ended : List Uuid)
    (h : ∀ s ∈ listed, w.store.journal.Knows a.call s) :
    Course.Accounts view a (fun _ _ => True)
      ((sweeper.journaled a.call).sweepListed now ended listed) w := by
  induction listed generalizing ended w with
  | nil => trivial
  | cons s rest ih =>
    have hall := Journal.lasting_knowsAll a.call (s :: rest)
    rw [sweepListed]
    split
    · next hexpired =>
      refine Course.Accounts.bind (.read hall h) fun wall v h => ?_
      have hrest : ∀ s ∈ rest, v.store.journal.Knows a.call s := fun s hs =>
        h s (List.mem_cons_of_mem _ hs)
      split
      · exact ih ended hrest
      · next s' signal message hs' =>
        have hwaiting : s.status = .waiting := by
          simp only [Instance.isWaitExpired, Bool.and_eq_true, beq_iff_eq] at hexpired
          exact hexpired.1
        refine Course.Accounts.bind (Course.Accounts.request (Q := fun _ j =>
          ∀ s ∈ rest, j.Knows a.call s) hall h fun j _ h => ?_) fun p v hrest => ?_
        · have hadds := Journaled.persist_adds sweeper.repository (h s (List.mem_cons_self ..))
            (Instance.Move.expire (p := a.warrant) hwaiting hs')
          exact ⟨hadds, fun s hs => hadds.grows.knows (h s (List.mem_cons_of_mem _ hs))⟩
        split
        · exact Course.Accounts.bind (Course.Accounts.modify
            (fun v => Notifier.tell_store _ _ (v.publish _)) (Journal.lasting_knowsAll a.call rest)
            hrest) fun _ v hrest => ih _ hrest
        · exact ih ended hrest
        · trivial
        · trivial
    · exact ih ended fun s hs => h s (List.mem_cons_of_mem _ hs)

theorem sweep_accounts (hlaw : sweeper.repository.Lawful view) (now : Timestamp) :
    Course.Accounts view a (fun _ _ => True) ((sweeper.journaled a.call).sweep now) w := by
  refine Course.Accounts.bind (Course.Accounts.request (Q := fun (r : Except RepositoryFault _) j =>
    ∀ l, r = .ok l → ∀ s ∈ l, j.Knows a.call s) Journal.lasting_true trivial fun j hj _ =>
    Journaled.listWaiting_files hlaw hj none) fun r v hr => ?_
  cases r with
  | error fault => trivial
  | ok listed => exact sweepListed_accounts now listed [] (hr listed rfl)

end Sweeper

theorem Repository.delete_accounts {repository : Repository R} (hlaw : repository.Lawful view) :
    (Operation.request ((repository.journaled a.call).delete id) :
      Operation C H (Journaled R) Bool).Accounts view a (fun _ _ => True) w :=
  .request fun _ _ => Journaled.delete_files hlaw

end DurableWorkflow
