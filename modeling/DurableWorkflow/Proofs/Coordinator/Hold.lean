import DurableWorkflow.Proofs.Coordinator.Account

/-!
# What a run has in hand

A call that drives an instance has stored a version of it and begins its run with that one. What it
has in hand is ahead of a version that it knows (`Journal.Holds`). Only the version that the run
began with can record a delivery: a checkpoint that is stored records none. So whatever a run stores
in the place of a recorded delivery, it stores after the node of the delivery has been passed.
-/

namespace DurableWorkflow

variable {C H R α : Type}

namespace Instance

variable {t s : Instance}

theorem Ahead.refl (h : s.status = .running) : s.Ahead s :=
  ⟨rfl, rfl, h, h, rfl, rfl, rfl, .inl ⟨rfl, rfl⟩⟩

theorem Ahead.atCheckpoint (h : t.Ahead s) (context : Json) (p : Checkpoint C) (now : Timestamp) :
    t.Ahead (Coordinator.atCheckpoint s context p now) :=
  ⟨h.id, h.revision, h.running, h.status, h.awaited, h.deadline, h.error, .inr ⟨rfl, rfl⟩⟩

/-- The context and the history do not matter. -/
theorem Ahead.report (h : t.Ahead s) (context : Json) (history : List StepTrace) :
    t.Ahead { s with context, history } :=
  ⟨h.id, h.revision, h.running, h.status, h.awaited, h.deadline, h.error, h.delivery⟩

end Instance

/-- The call has begun to run the version `u`, and has `x` in hand: it is ahead of a version that
the call knows, and unless this is `u` itself, no delivery is recorded in it any more. -/
def Journal.Holds (j : Journal) (call : Nat) (u x : Instance) : Prop :=
  u.history <+: x.history ∧
    ∃ t, j.Knows call t ∧ t.Ahead x ∧ (t = u ∨ t.pendingDelivery = none)

theorem Journal.lasting_holds (call : Nat) (u x : Instance) : Lasting (·.Holds call u x) := by
  rintro p j j' ⟨hhistory, t, ht, h⟩ hgrows
  exact ⟨hhistory, t, hgrows.knows ht, h⟩

theorem Journal.holds_of_stored {j : Journal} {call : Nat} {u : Instance}
    (h : ⟨call, .stored u⟩ ∈ j) (hrunning : u.status = .running) : j.Holds call u u :=
  ⟨List.prefix_refl _, u, ⟨_, h, rfl⟩, .refl hrunning, .inl rfl⟩

/-- The entries tell what came of the delivery that `u` records, if the run has not failed. -/
def Caller.Tells (a : Caller C H R) (u : Instance) (outcome : RunOutcome)
    (entries : List StepTrace) : Prop :=
  outcome.isFailed = false → ∀ node signal, u.pendingDelivery = some (node, signal) →
    a.warrant.answers u node signal entries

namespace Coordinator

variable {c : Coordinator C H R} {call : Nat} {t s u : Instance} {id : Uuid}

/-- An action of a run saves a checkpoint, or it leaves the instance in hand and the store alone. -/
def Saves (call : Nat) (s t : Board C H Instance × World (Journaled R) H) : Prop :=
  t.1.extra = s.1.extra ∧ t.2.store.journal = s.2.store.journal ∨
    ∃ context, ∃ p : Checkpoint C, ∃ now, let x := atCheckpoint s.1.extra context p now
      t.1.extra = x ∧ t.2.store.journal = s.2.store.journal ∨
      t.1.extra = { x with revision := x.revision + 1 } ∧
        t.2.store.journal =
          ⟨call, .stored { x with revision := x.revision + 1 }⟩ :: s.2.store.journal

/-- What saving a checkpoint may do: the context cannot be encoded, the store refuses the instance, or
it is stored. -/
theorem save_cases {x : Instance} {p : Checkpoint C} {w w' : World (Journaled R) H}
    (h : (c.journaled call).save p (s, w) = .ok (x, w')) :
    x = s ∧ w' = w ∨ ∃ context, c.kind.encode p.context = some context ∧
      (let y := atCheckpoint s context p w.wall
      x = y ∧ w'.store.journal = w.store.journal ∨
        x = { y with revision := y.revision + 1 } ∧
          w'.store.journal = ⟨call, .stored { y with revision := y.revision + 1 }⟩ ::
            w.store.journal) := by
  simp only [save] at h
  cases henc : c.kind.encode p.context with
  | none =>
    change (c.journaled call).kind.encode p.context = none at henc
    rw [henc] at h
    cases h
    exact .inl ⟨rfl, rfl⟩
  | some context =>
    change (c.journaled call).kind.encode p.context = some context at henc
    simp only [henc, Operation.onStore] at h
    refine .inr ⟨context, rfl, ?_⟩
    obtain ⟨store, heq⟩ | ⟨fault, store, heq⟩ | heq := Journaled.persist_cases c.repository call
      (atCheckpoint s context p w.wall) w.store
    · change (c.journaled call).repository.persist _ _ = _ at heq
      rw [heq] at h
      cases h
      exact .inr ⟨rfl, rfl⟩
    · change (c.journaled call).repository.persist _ _ = _ at heq
      rw [heq] at h
      cases h
      exact .inl ⟨rfl, rfl⟩
    · change (c.journaled call).repository.persist _ _ = _ at heq
      rw [heq] at h
      simp at h

theorem environment_saves (c : Coordinator C H R) (call : Nat) (id : Uuid) (g : Graph C H) :
    ((c.journaled call).environment id).Within g (Saves (C := C) (H := H) (R := R) call) where
  board b b' w h := .inl ⟨h.extra, rfl⟩
  enter node s b w _ := .inl ⟨rfl, rfl⟩
  publish b e w _ := .inl ⟨rfl, rfl⟩
  memory b c h w := .inl ⟨rfl, rfl⟩
  note b l w := .inl ⟨rfl, rfl⟩
  save p b w x w' hsave := by
    obtain ⟨rfl, rfl⟩ | ⟨context, -, hsaved⟩ := save_cases hsave
    · exact .inl ⟨rfl, rfl⟩
    · exact .inr ⟨context, p, w.wall, hsaved⟩

theorem environment_around (c : Coordinator C H R) (call : Nat) (id : Uuid) (g : Graph C H) :
    ((c.journaled call).environment id).Around g
      (Environment.Still fun w v : World (Journaled R) H => v.store = w.store) where
  board _ _ _ h := ⟨h.extra, h.trace, rfl⟩
  enter _ _ _ _ _ := ⟨rfl, rfl, rfl⟩
  publish _ _ _ _ := ⟨rfl, rfl, rfl⟩
  memory _ _ _ _ := ⟨rfl, rfl, rfl⟩

variable {view : R → Uuid → Option Instance} {a : Caller C H R} {w : World (Journaled R) H}
  {F : Journal → Prop} {d : Definition C H} {start : StartPoint} {context : C}

/-- What is left of the run of the version `u`, with the instance in hand. -/
def Follows (c : Coordinator C H R) (call : Nat) (d : Definition C H) (start : StartPoint)
    (context : C) (u : Instance) (path : Walk (Board C H Instance × World (Journaled R) H) Report)
    (board : Board C H Instance) (w : World (Journaled R) H) : Prop :=
  ⟨call, .stored u⟩ ∈ w.store.journal ∧ w.store.journal.Holds call u board.extra ∧
    Walk.Leaves (((c.journaled call).environment u.id).traverse d start, { context, extra := u })
      (path, board)

/-- The start point of a run of `u` is the delivery that `u` records, if it records one. -/
def Redelivers (u : Instance) (start : StartPoint) : Prop :=
  ∀ node signal, u.pendingDelivery = some (node, signal) → start = .signal node u.pending signal

namespace Follows

variable {path path' : Walk (Board C H Instance × World (Journaled R) H) Report}
  {board board' : Board C H Instance} {w' : World (Journaled R) H}

theorem handing (h : c.Follows call d start context u path board w) (hstart : Redelivers u start)
    {node : NodeId} {signal : Signal} (hu : u.pendingDelivery = some (node, signal)) :
    Environment.Handing ((c.journaled call).environment u.id) (fun w v => v.store = w.store) d.graph
      node signal u path board := by
  obtain ⟨-, -, hleaves⟩ := h
  rw [hstart node signal hu] at hleaves
  have haround := environment_around c call u.id d.graph
  exact (Environment.traverse_handing haround node u.pending signal context u).leaves haround
    (fun _ => rfl) hleaves

/-- Books with the entry of the node tell what came of the delivery. -/
theorem answers (h : c.Follows a.call d start context u path board w) (hc : c ∈ a.coordinators)
    (hd : d ∈ c.definitions) (hstart : Redelivers u start) {node : NodeId} {signal : Signal}
    (hu : u.pendingDelivery = some (node, signal)) {e : StepTrace} {l : List StepTrace}
    (hbooks : board.ledger.trace = e :: l) (hnode : e.node = node) :
    a.warrant.answers u node signal board.ledger.trace := by
  have hleaves := h.2.2
  rw [hstart node signal hu] at hleaves
  exact ⟨c, hc, ⟨d, hd, context, path, board, hleaves, rfl⟩, e, l, hbooks, hnode⟩

/-- A step of a run stores what the books of the run allow, and the run goes on. -/
theorem step (h : c.Follows a.call d start context u path board w) (hc : c ∈ a.coordinators)
    (hd : d ∈ c.definitions) (hstart : Redelivers u start)
    (hstep : Walk.Step (path, board, w) (path', board', w')) :
    w.store.journal.Adds a.call (Instance.Passed a.warrant board.ledger.trace) w'.store.journal ∧
      c.Follows a.call d start context u path' board' w' := by
  have hstored := h.1
  obtain ⟨hhistory, t, hknown, hahead, hbase⟩ := h.2.1
  have hleaves := h.2.2
  have hnext : Walk.Leaves _ (path', board') := hleaves.tail ⟨w, w', hstep⟩
  have hkeeps : path.Keeps (Saves a.call) :=
    hleaves.keeps (Environment.traverse_keeps (environment_saves c a.call u.id d.graph) start)
  have hsame (hextra : board'.extra = board.extra)
      (hjournal : w'.store.journal = w.store.journal) :
      w.store.journal.Adds a.call (Instance.Passed a.warrant board.ledger.trace) w'.store.journal ∧
        c.Follows a.call d start context u path' board' w' := by
    rw [Follows, hjournal, hextra]
    exact ⟨.refl, hstored, h.2.1, hnext⟩
  obtain heq | ⟨hextra, hjournal⟩ | ⟨context', p, now, hsave⟩ := (Walk.Keeps.step hstep hkeeps).1
  · obtain ⟨hboard, hworld⟩ := Prod.mk.inj heq
    exact hsame (congrArg Board.extra hboard) (by rw [hworld])
  · exact hsame hextra hjournal
  have hcheck := hahead.atCheckpoint context' p now
  have hlonger : u.history <+: (atCheckpoint board.extra context' p now).history :=
    hhistory.trans (List.prefix_append _ _)
  obtain ⟨hextra, hjournal⟩ | ⟨hextra, hjournal⟩ := hsave
  · -- The checkpoint was refused, and counts for the next one.
    change w'.store.journal = w.store.journal at hjournal
    change board'.extra = _ at hextra
    rw [Follows, hjournal, hextra]
    exact ⟨.refl, hstored, ⟨hlonger, t, hknown, hcheck, hbase⟩, hnext⟩
  · change w'.store.journal = _ at hjournal
    change board'.extra = _ at hextra
    have hanswered : ∀ node signal, t.pendingDelivery = some (node, signal) →
        a.warrant.answers t node signal board.ledger.trace ∧
          ∃ e l, board.ledger.trace = e :: l ∧ e.outcome = .succeeded := by
      intro node signal ht
      obtain rfl | hnone := hbase
      · obtain ⟨-, ⟨-, hstore⟩ | ⟨e, l, hbooks, hnode, hdone⟩⟩ :=
          (h.handing hstart ht).step (environment_around c a.call t.id d.graph) (fun _ => rfl) hstep
        · -- Nothing is stored before the node has been passed.
          rw [hstore] at hjournal
          simp at hjournal
        · exact ⟨h.answers hc hd hstart ht hbooks hnode, e, l, hbooks, hdone⟩
      · rw [hnone] at ht
        simp at ht
    rw [Follows, hjournal, hextra]
    refine ⟨.stored hknown ⟨hcheck, rfl, rfl, hanswered⟩, List.mem_cons_of_mem _ hstored,
      ⟨hlonger, _, ⟨_, List.mem_cons_self .., rfl⟩, .refl hcheck.status, .inr ?_⟩, hnext⟩
    simp [Instance.pendingDelivery, atCheckpoint, Instance.clearDelivery]

theorem guides (hc : c ∈ a.coordinators) (hd : d ∈ c.definitions) (hstart : Redelivers u start) :
    (a.watch view).Guides (c.Follows a.call d start context u) where
  stable path board w v h hv := by
    obtain ⟨hstored, hholds, hleaves⟩ := h
    have hgrows : w.store.journal.Grows (· ≠ a.call) v.store.journal := hv
    exact ⟨hgrows.mem hstored, Journal.lasting_holds a.call u _ _ _ _ hholds hgrows, hleaves⟩
  step hfollows _ hstep := hfollows.step hc hd hstart hstep
  mark := fun ⟨hstored, _, hleaves⟩ =>
    ⟨c, hc, d, hd, start, context, u, hstored, hleaves, hstart⟩

/-- The entries of a run that has ended tell what came of the delivery. -/
theorem tells {r : Report} (h : c.Follows a.call d start context u (.done r) board w)
    (hc : c ∈ a.coordinators) (hd : d ∈ c.definitions) (hstart : Redelivers u start)
    {outcome : RunOutcome} (houtcome : Environment.outcome d (some r) = some outcome) :
    a.Tells u outcome board.ledger.trace := by
  intro hfailed node signal hu
  suffices hr : r.halt = .drained ∨ ∃ s, r.halt = .suspended s by
    obtain ⟨e, l, hbooks, hnode⟩ := (h.handing hstart hu).answered hr
    exact h.answers hc hd hstart hu hbooks hnode
  unfold Environment.outcome at houtcome
  simp only at houtcome
  split at houtcome
  · next hdrained => exact .inl hdrained
  · cases houtcome
    simp [RunOutcome.isFailed] at hfailed
  · next s hsuspended => exact .inr ⟨s, hsuspended⟩
  · simp at houtcome
  · simp at houtcome

end Follows

/-- What the call has in hand at the end of a run, and its result. -/
def Ended (a : Caller C H R) (u : Instance) (r : Instance × Option (RunResult C)) (j : Journal) :
    Prop :=
  j.Holds a.call u r.1 ∧ ∀ result ∈ r.2, a.Tells u result.outcome result.trace

theorem lasting_ended (a : Caller C H R) (u : Instance) (r : Instance × Option (RunResult C)) :
    Journal.Lasting (Ended a u r) := fun _ _ _ ⟨hholds, htells⟩ h =>
  ⟨Journal.lasting_holds a.call u r.1 _ _ _ hholds h, htells⟩

/-- Undoing steps leaves the instance in hand and the books. -/
theorem undo_accounts (id : Uuid) (steps : List (NodeId × Step C H)) {board : Board C H Instance}
    {undone : Environment.Undone} (hF : Journal.Lasting F) (hw : F w.store.journal) :
    (((c.journaled a.call).environment id).undo board undone steps).Accounts view a
      (fun r j => r.1.extra = board.extra ∧ r.1.ledger.trace = board.ledger.trace ∧ F j) w := by
  induction steps generalizing board undone w with
  | nil => exact ⟨rfl, rfl, hw⟩
  | cons step steps ih =>
    obtain ⟨node, s⟩ := step
    rw [Environment.undo]
    split
    · exact ih hw
    · let J (own : Board C H Instance) (w : World (Journaled R) H) : Prop :=
        own.extra = board.extra ∧ own.ledger.trace = board.ledger.trace ∧ F w.store.journal
      refine ⟨J, ⟨rfl, rfl, hw⟩, fun own w v hJ hv => ?_, ?_, fun own e v hJ => ?_⟩
      · obtain ⟨hextra, htrace, hF'⟩ := hJ
        exact ⟨hextra, htrace, hF (· ≠ a.call) _ _ hF' hv⟩
      · exact Environment.onBoard_keeps (fun _ _ _ _ _ hJ => ⟨.refl, hJ⟩) _
      · obtain ⟨hextra, htrace, hv⟩ := hJ
        refine Course.Heeds.mono (ih hv) fun r v hr => ?_
        obtain ⟨hextra', htrace', hv⟩ := hr
        exact ⟨hextra'.trans hextra, htrace'.trans htrace, hv⟩

/-- What is told at the end of a run is what was in the books. -/
theorem conclude_accounts (id : Uuid) (d : Definition C H) (begin : Nat) {board : Board C H Instance}
    {outcome : RunOutcome} (h : w.store.journal.Holds a.call u board.extra)
    (htells : a.Tells u outcome board.ledger.trace) :
    (((c.journaled a.call).environment id).conclude d begin board outcome).Accounts view a
      (fun r j => Ended a u (r.1.extra, some r.2) j) w := by
  have hholds := Journal.lasting_holds a.call u board.extra
  refine Course.Accounts.bind (undo_accounts id _ hholds h) fun r v ⟨hextra, htrace, h⟩ => ?_
  refine Course.Accounts.bind (.read hholds h) fun instant v h => ?_
  have hend : Ended a u (r.1.extra, some {
      outcome, context := r.1.context, compensated := r.2.compensated
      compensationFailures := r.2.failures
      metrics := { r.1.ledger.metrics with durationMillis := instant - begin }
      trace := r.1.ledger.trace }) v.store.journal := by
    refine ⟨hextra ▸ h, fun result hresult => ?_⟩
    cases hresult
    rw [htrace]
    exact htells
  simp only
  split
  · exact Course.Accounts.bind (Course.Accounts.modify (C := C) (f := World.publish _)
      (fun _ => rfl) (lasting_ended a u _) hend) fun _ v hend => hend
  · exact hend

/-- A run of a version that the call has stored. -/
theorem run_accounts (hc : c ∈ a.coordinators) (hd : d ∈ c.definitions) (hstart : Redelivers u start)
    (hrunning : u.status = .running) (h : ⟨a.call, .stored u⟩ ∈ w.store.journal) :
    (((c.journaled a.call).environment u.id).run d start context u).Accounts view a
      (Ended a u) w := by
  have hstored := Journal.lasting_mem ⟨a.call, .stored u⟩
  refine Course.Accounts.bind (.read hstored h) fun begin v h => ?_
  refine Course.Accounts.bind (Course.Accounts.modify (C := C) (f := World.publish _) (fun _ => rfl)
    hstored h) fun _ v h => ?_
  refine ⟨c.Follows a.call d start context u, Follows.guides hc hd hstart,
    ⟨h, Journal.holds_of_stored h hrunning, .refl⟩, fun board r v hfollows => ?_,
    fun path board v hfollows => ?_⟩
  · simp only
    split
    · trivial
    · exact ⟨hfollows.2.1, by simp⟩
    · next outcome _ houtcome =>
      have htells := hfollows.tells hc hd hstart houtcome
      exact Course.Accounts.bind (conclude_accounts u.id d begin hfollows.2.1 htells)
        fun r v hr => hr
  · -- The limit of the run was over first.
    exact Course.Accounts.bind (conclude_accounts u.id d begin hfollows.2.1
      fun hfailed => by simp [RunOutcome.isFailed] at hfailed) fun r v hr => hr

theorem persist_accounts (ht : w.store.journal.Knows a.call t) (h : Instance.Move a.warrant t s)
    (hF : Journal.Lasting F) (hw : F w.store.journal) :
    ((c.journaled a.call).persist s).Accounts view a (fun s' j =>
      s' = { s with revision := s.revision + 1 } ∧ ⟨a.call, .stored s'⟩ ∈ j ∧ F j) w := by
  have hask : Course.Accounts view a (fun p j => p.Noted a.call s j ∧ F j)
      (Course.update (Operation.onStore ((c.journaled a.call).repository.persist s)) :
        Errand C H (Journaled R) _) w := by
    refine .request (F := fun j => j.Knows a.call t ∧ F j) (fun p j j' ⟨ht, hj⟩ hgrows =>
      ⟨hgrows.knows ht, hF p j j' hj hgrows⟩) ⟨ht, hw⟩ fun j _ ⟨ht, hj⟩ => ?_
    have hadds := Journaled.persist_adds c.repository ht h
    refine ⟨hadds, ?_, hF _ _ _ hj hadds.grows⟩
    intro s' hs'
    obtain ⟨store, heq⟩ | ⟨fault, store, heq⟩ | heq :=
      Journaled.persist_cases c.repository a.call s j
    · change (c.journaled a.call).repository.persist s j = _ at heq
      rw [heq] at hs' ⊢
      cases hs'
      exact ⟨rfl, List.mem_cons_self ..⟩
    · change (c.journaled a.call).repository.persist s j = _ at heq
      rw [heq] at hs'
      cases hs'
    · change (c.journaled a.call).repository.persist s j = _ at heq
      rw [heq] at hs'
      cases hs'
  refine (Operation.Accounts.ofErrand hask).bind fun p v ⟨hp, hF⟩ => ?_
  cases p with
  | stored s' =>
    obtain ⟨hs', hmem⟩ := hp s' rfl
    exact .pure ⟨hs', hmem, hF⟩
  | refused fault => exact .throw _
  | exhausted => exact .crash _

/-- A move of a version that the call knows is stored and told. -/
theorem file_accounts {r : Except TransitionError Instance} (note : Instance → Instance)
    (notice : Instance → Notice) (ht : w.store.journal.Knows a.call t)
    (h : ∀ s, r = .ok s → Instance.Move a.warrant t (note s)) :
    (do
      let s ← Operation.moved r
      let s ← (c.journaled a.call).persist (note s)
      (c.journaled a.call).tell (notice s)
      return s : Operation C H (Journaled R) Instance).Accounts view a (fun _ _ => True) w := by
  refine (Operation.Accounts.moved (F := (·.Knows a.call t)) ht).bind fun s v ⟨hs, ht⟩ => ?_
  refine (persist_accounts ht (h s hs) Journal.lasting_true trivial).bind fun s' v _ => ?_
  exact (Operation.Accounts.modify (fun _ => Notifier.tell_store ..) Journal.lasting_true trivial).bind
    fun _ _ _ => .pure trivial

/-- The end of a run is stored with the entries that tell what came of a recorded delivery. -/
theorem settle_accounts {outcome : RunOutcome} (ht : w.store.journal.Knows a.call t)
    (hahead : t.Ahead s)
    (hanswered : outcome.isFailed = false → Instance.AnsweredIn a.warrant t s.history) :
    ((c.journaled a.call).settle s outcome).Accounts view a (fun _ _ => True) w := by
  have hnow : (Operation.now : Operation C H (Journaled R) Timestamp).Accounts view a
      (fun _ => (·.Knows a.call t)) w := .now (Journal.lasting_knows a.call t) ht
  cases outcome with
  | completed =>
    exact hnow.bind fun now v ht => file_accounts (fun s => { s with pending := [] }) .completed ht
      fun s' hs' => .complete hahead hs' (hanswered rfl)
  | failed failure =>
    exact hnow.bind fun now v ht => file_accounts
      (fun s => { s with pending := [], error := some failure.text }) (.errored · failure.text) ht
      fun s' hs' => .fail failure.text hahead hs'
  | suspended wait =>
    refine hnow.bind fun now v ht => ?_
    split
    · exact .crash _
    · exact file_accounts id .approvalRequested ht fun s' hs' => .wait hahead hs' (hanswered rfl)

theorem settleCancelled_accounts (ht : w.store.journal.Knows a.call t) (hahead : t.Ahead s) :
    ((c.journaled a.call).settleCancelled s : Operation C H (Journaled R) α).Accounts view a
      (fun _ _ => True) w := by
  refine (Operation.Accounts.now (Journal.lasting_knows a.call t) ht).bind fun now v ht => ?_
  refine (Operation.Accounts.moved (F := (·.Knows a.call t)) ht).bind fun s' v ⟨hs', ht⟩ => ?_
  refine (persist_accounts ht (.giveUp hahead hs') Journal.lasting_true trivial).bind
    fun s' v _ => ?_
  exact (Operation.Accounts.modify (f := World.publish _) (fun _ => rfl) Journal.lasting_true
    trivial).bind fun _ _ _ => .throw _

/-- Driving a version that the call has stored. -/
theorem drive_accounts (hc : c ∈ a.coordinators) (hd : d ∈ c.definitions)
    (hstart : Redelivers u start) (hrunning : u.status = .running)
    (h : ⟨a.call, .stored u⟩ ∈ w.store.journal) :
    ((c.journaled a.call).drive d u context start).Accounts view a (fun _ _ => True) w := by
  refine (Operation.Accounts.ofErrand (run_accounts hc hd hstart hrunning h)).bind fun r v hr => ?_
  obtain ⟨last, result⟩ := r
  obtain ⟨⟨hhistory, t, ht, hahead, hbase⟩, htells⟩ := hr
  cases result with
  | none => exact settleCancelled_accounts ht hahead
  | some result =>
    refine (Operation.Accounts.orThrow (Q := fun _ j => j.Knows a.call t) fun _ _ => ht).bind
      fun context v ht => ?_
    have hanswered : result.outcome.isFailed = false →
        Instance.AnsweredIn a.warrant t
          (last.history.take u.history.length ++ result.trace) := by
      intro hfailed node signal hdelivery
      obtain rfl | hnone := hbase
      · refine ⟨result.trace, ?_, htells result rfl hfailed node signal hdelivery⟩
        rw [← List.prefix_iff_eq_take.1 hhistory]
      · rw [hnone] at hdelivery
        simp at hdelivery
    exact .bind (settle_accounts ht (hahead.report context _) hanswered) fun _ _ _ =>
      .pure (Q := fun _ _ => True) trivial

end Coordinator

end DurableWorkflow
