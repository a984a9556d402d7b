import DurableWorkflow.Coordinator.Basic
import DurableWorkflow.Proofs.Course.Protocol
import DurableWorkflow.Proofs.Journal.Repository
import DurableWorkflow.Proofs.Run.Keeps

/-!
# Operations in stages

`op.Abides L E X Q p` says of an operation what it says of a course: `Q` is about the value of an
operation that ends without an error, `X` about the error of one that does not.

What a run and what comes after it do is the same for every call. At a stage at which an operation
may read, store and announce as it likes (`Protocol.Easy`) it may drive an instance.
-/

namespace DurableWorkflow

variable {C H R P α β : Type} {L : Protocol (World R H) (Board C H Instance) P} {E : P → Prop}
  {X : CoordinatorError → P → Prop} {Q : α → P → Prop} {S : β → P → Prop} {p q : P}

namespace Course.Abides

theorem update {f : World R H → α × World R H}
    (h : ∀ w, L.good w → ∃ q, L.act p w (f w).2 q ∧ Q (f w).1 q) :
    (Course.update f : Errand C H R α).Abides L Q E p := h

theorem modify {f : World R H → World R H} (h : ∀ w, L.good w → L.act p w (f w) q) :
    (Course.modify f : Errand C H R Unit).Abides L (fun _ r => r = q) E p :=
  fun w hgood => ⟨q, h w hgood, rfl⟩

theorem read {f : World R H → α} (h : ∀ w, L.good w → L.act p w w p) :
    (Course.read f : Errand C H R α).Abides L (fun _ r => r = p) E p :=
  fun w hgood => ⟨p, h w hgood, rfl⟩

end Course.Abides

/-- `Q` holds of what is stored, or `X` of the fault. -/
def Persisted.Ends (E : P → Prop) (X : CoordinatorError → P → Prop) (Q : Instance → P → Prop) :
    Persisted → P → Prop
  | .stored s, p => Q s p
  | .refused fault, p => X (.repository fault) p
  | .exhausted, p => E p

/-- `Q` holds if there is a value, and `X` if there is an error. -/
def Ends (X : CoordinatorError → P → Prop) (Q : α → P → Prop) :
    Except CoordinatorError α → P → Prop
  | .ok a, p => Q a p
  | .error e, p => X e p

namespace Operation

/-- The operation is as the protocol demands; it ends in `Q`, with an error in `X`, or crashes in
`E`. -/
def Abides (L : Protocol (World R H) (Board C H Instance) P) (E : P → Prop)
    (X : CoordinatorError → P → Prop) (Q : α → P → Prop) (op : Operation C H R α) (p : P) : Prop :=
  Course.Abides L (Ends X Q) E op.run p

namespace Abides

theorem pure {a : α} (h : Q a p) :
    Operation.Abides L E X Q (pure a : Operation C H R α) p := h

theorem throw {e : CoordinatorError} (h : X e p) :
    Operation.Abides L E X Q (throw e : Operation C H R α) p := h

theorem bind {op : Operation C H R α} {k : α → Operation C H R β} (h : op.Abides L E X Q p)
    (hk : ∀ a q, Q a q → (k a).Abides L E X S q) : (op >>= k).Abides L E X S p := by
  refine Course.Abides.bind h fun r q hr => ?_
  cases r with
  | ok a => exact hk a q hr
  | error e => exact hr

/-- After an operation that leads to the stage `q`. -/
theorem onward {op : Operation C H R α} {k : α → Operation C H R β}
    (h : op.Abides L E X (fun _ r => r = q) p) (hk : ∀ a, (k a).Abides L E X S q) :
    (op >>= k).Abides L E X S p := h.bind fun a _ hr => hr ▸ hk a

theorem mono {Q' : α → P → Prop} {op : Operation C H R α} (h : op.Abides L E X Q p)
    (hQ : ∀ a q, Q a q → Q' a q) : op.Abides L E X Q' p := by
  refine Course.Abides.mono h fun r q hr => ?_
  cases r with
  | ok a => exact hQ a q hr
  | error e => exact hr

theorem ofErrand {e : Errand C H R α} (h : e.Abides L Q E p) :
    (Operation.ofErrand e).Abides L E X Q p := Course.Abides.bind h fun _ _ hq => hq

theorem orThrow {e : CoordinatorError} {o : Option α} (hsome : ∀ a, o = some a → Q a p)
    (hnone : o = none → X e p) :
    (Operation.orThrow e o : Operation C H R α).Abides L E X Q p := by
  cases o with
  | none => exact .throw (hnone rfl)
  | some a => exact .pure (hsome a rfl)

theorem moved {r : Except TransitionError α} (hok : ∀ a, r = .ok a → Q a p)
    (herror : ∀ e, r = .error e → X (.invalidTransition e) p) :
    (Operation.moved r : Operation C H R α).Abides L E X Q p := by
  cases r with
  | error e => exact .throw (herror e rfl)
  | ok a => exact .pure (hok a rfl)

theorem lift {r : Except CoordinatorError α} (hok : ∀ a, r = .ok a → Q a p)
    (herror : ∀ e, r = .error e → X e p) :
    (liftM r : Operation C H R α).Abides L E X Q p := by
  cases r with
  | error e => exact herror e rfl
  | ok a => exact hok a rfl

theorem crash (m : String) (h : E p) :
    (Operation.crash m : Operation C H R α).Abides L E X Q p :=
  .ofErrand (Q := Q) (show Course.Abides L Q E (Course.crash m) p from h)

theorem update {f : World R H → α × World R H}
    (h : ∀ w, L.good w → ∃ q, L.act p w (f w).2 q ∧ Q (f w).1 q) :
    (Operation.update f : Operation C H R α).Abides L E X Q p := .ofErrand (.update h)

theorem modify {f : World R H → World R H} (h : ∀ w, L.good w → L.act p w (f w) q) :
    (Operation.modify f : Operation C H R Unit).Abides L E X (fun _ r => r = q) p :=
  .ofErrand (.modify h)

theorem now (h : ∀ w, L.good w → L.act p w w p) :
    (Operation.now : Operation C H R Timestamp).Abides L E X (fun _ r => r = p) p :=
  .ofErrand (.read h)

/-- A request to the repository is answered, or is refused with a fault. -/
theorem request {ask : R → Reply R α}
    (h : ∀ w, L.good w → ∃ q, L.act p w { w with store := (ask w.store).2 } q ∧
      Ends X Q ((ask w.store).1.mapError .repository) q) :
    (Operation.request ask : Operation C H R α).Abides L E X Q p := by
  have hask : (Operation.update (Operation.onStore ask) : Operation C H R _).Abides L E X
      (fun r => Ends X Q (r.mapError .repository)) p := update h
  refine hask.bind fun r q hr => ?_
  cases r with
  | ok a => exact .pure hr
  | error fault => exact .throw hr

theorem releasing {op : Operation C H R α} {operation : Nat} {E' : P → Prop}
    {X' : CoordinatorError → P → Prop} {Q' : α → P → Prop} (h : op.Abides L E X Q p)
    (hdone : ∀ r q, Ends X Q r q → ∀ w, L.good w →
      ∃ q', L.act q w (World.release operation w) q' ∧ Ends X' Q' r q')
    (hcrash : ∀ q, E q → ∀ w, L.good w →
      ∃ q', L.act q w (World.release operation w) q' ∧ E' q') :
    (Operation.releasing operation op).Abides L E' X' Q' p := Course.Abides.ensure h hdone hcrash

end Abides

end Operation

/-! ### Runs -/

namespace Instance

variable {s : Instance} {target : Status} {now : Timestamp}

theorem transition_ne_error (h : s.status.allows target = true) (e : TransitionError) :
    s.transition target now ≠ .error e := by
  unfold transition
  rw [if_pos h]
  exact nofun

theorem enterWait_ne_error {signal : String} {node : NodeId} {deadline : Option Timestamp}
    {pending : List NodeId} (h : s.status.allows .waiting = true) (e : TransitionError) :
    s.enterWait signal node deadline pending now ≠ .error e := by
  unfold enterWait transition
  rw [if_pos h]
  exact nofun

end Instance

/-- At the stage `p` a run may begin, and undo what it has done; only the instance in hand decides
whether an operation may be on a walk, and it is running. -/
structure Protocol.Sails (L : Protocol (World R H) (Board C H Instance) P)
    (c : Coordinator C H R) (id : Uuid) (g : Graph C H) (p : P) : Prop where
  within : (c.environment id).Within g (L.along p)
  extra : ∀ b b', L.aboard p b → b'.extra = b.extra → L.aboard p b'
  running : ∀ b, L.aboard p b → b.extra.status = .running
  read : ∀ w, L.good w → L.act p w w p
  publish : ∀ e w, e.what.isOfRun = true → L.good w → L.act p w (w.publish e) p

/-- At the stage `p` an operation may store and tell as it likes, and it may end in any way but with
a move that is not allowed. -/
structure Protocol.Easy (L : Protocol (World R H) (Board C H Instance) P)
    (c : Coordinator C H R) (E : P → Prop) (X : CoordinatorError → P → Prop) (p : P) : Prop where
  persist : ∀ s w, L.good w → L.act p w (Operation.onStore (c.repository.persist s) w).2 p
  tell : ∀ n w, L.good w → L.act p w (c.notifier.tell n w) p
  publish : ∀ e w, L.good w → L.act p w (w.publish e) p
  crash : E p
  repository : ∀ fault, X (.repository fault) p
  serialization : X .serialization p
  cancelled : ∀ id, X (.cancelled id) p

theorem Repository.eq_of_stored {repository : Repository R} {s s' : Instance} {r : R}
    (h : (repository.persist s r).1 = .stored s') : s' = { s with revision := s.revision + 1 } := by
  unfold persist at h
  split at h
  · simp only at h
    split at h <;> cases h
    rfl
  · cases h

/-! ### Leases -/

namespace World

variable {w : World R H} {number operation : Nat} {id : Uuid}

/-- The world in which an operation has been given a lease. -/
def grant (number operation : Nat) (id : Uuid) (w : World R H) : World R H :=
  { w with leases := { coordinator := number, instanceId := id, operation } :: w.leases }

theorem acquire_free (h : w.lease? number id = none) :
    acquire number operation id w = (true, w.grant number operation id) := by
  unfold acquire
  rw [h]
  rfl

theorem acquire_busy (h : (w.lease? number id).isSome) :
    acquire number operation id w = (false, w) := by
  obtain ⟨l, hl⟩ := Option.isSome_iff_exists.1 h
  unfold acquire
  rw [hl]

end World

namespace Coordinator

variable {c : Coordinator C H R} {d : Definition C H} {id : Uuid} {b : Board C H Instance}
  {s : Instance}

/-- A checkpoint changes the store at most, and neither the identifier nor the status. -/
theorem of_save {p : Checkpoint C} {s s' : Instance} {w w' : World R H}
    (h : c.save p (s, w) = .ok (s', w')) : s'.id = s.id ∧ s'.status = s.status ∧
      (w' = w ∨ ∃ t, w' = (Operation.onStore (c.repository.persist t) w).2) := by
  unfold save at h
  cases hencode : c.kind.encode p.context with
  | none =>
    simp only [hencode] at h
    cases h
    exact ⟨rfl, rfl, .inl rfl⟩
  | some context =>
    simp only [hencode] at h
    split at h
    · next t v heq =>
      cases h
      have hfirst : (c.repository.persist (atCheckpoint s context p w.wall) w.store).1 =
          .stored s' := congrArg Prod.fst heq
      obtain rfl := Repository.eq_of_stored hfirst
      exact ⟨rfl, rfl, .inr ⟨_, (congrArg Prod.snd heq).symm⟩⟩
    · next fault v heq =>
      cases h
      exact ⟨rfl, rfl, .inr ⟨_, (congrArg Prod.snd heq).symm⟩⟩
    · cases h

theorem ending_isOfRun {metrics : Metrics} {outcome : RunOutcome} {what : Happening}
    (h : Environment.ending d metrics outcome = some what) : what.isOfRun = true := by
  cases outcome with
  | completed | failed =>
    cases h
    rfl
  | suspended => cases h

theorem undo_abides (h : L.Sails c id d.graph p) (hashore : L.ashore p = p)
    {steps : List (NodeId × Step C H)} {u : Environment.Undone} (hb : L.aboard p b) :
    ((c.environment id).undo b u steps).Abides L (fun x r => r = p ∧ L.aboard p x.1) E p := by
  induction steps generalizing b u with
  | nil => exact ⟨rfl, hb⟩
  | cons entry steps ih =>
    obtain ⟨node, step⟩ := entry
    rw [Environment.undo]
    split
    · exact ih hb
    · refine ⟨hb, Environment.onBoard_keeps h.within.memory _, fun b' e hb' => ?_⟩
      rw [hashore]
      exact ih hb'

theorem conclude_abides (h : L.Sails c id d.graph p) (hashore : L.ashore p = p) (begin : Nat)
    (outcome : RunOutcome) (hb : L.aboard p b) :
    ((c.environment id).conclude d begin b outcome).Abides L (fun x r => r = p ∧ L.aboard p x.1) E
      p := by
  refine Course.Abides.bind (undo_abides h hashore hb) fun x q hx => ?_
  obtain ⟨b', undone⟩ := x
  obtain ⟨rfl, hb'⟩ := hx
  refine Course.Abides.bind (.read h.read) fun instant q hq => ?_
  subst hq
  dsimp only
  split
  · next what hwhat =>
    refine fun w hgood => ⟨q, h.publish _ w ?_ hgood, rfl, hb'⟩
    exact ending_isOfRun hwhat
  · exact ⟨rfl, hb'⟩

/-- What follows the walk of a run, with its report if it came to one. -/
def landing (env : Environment C H Instance (World R H)) (d : Definition C H) (begin : Nat)
    (b : Board C H Instance) (report : Option Report) :
    Environment.Op C H Instance (World R H) (Instance × Option (RunResult C)) :=
  match report.bind Report.crash?, Environment.outcome d report with
  | some m, _ => .crash m
  | none, none => pure (b.extra, none)
  | none, some outcome => do
    let (board, result) ← env.conclude d begin b outcome
    return (board.extra, some result)

/-- Whether the walk comes to its end or not, what comes after it is at the stage after walks. -/
theorem run_abides (h : L.Sails c id d.graph p) (hback : L.Sails c id d.graph q)
    (hashore : L.ashore p = q) (hstays : L.ashore q = q) (hcrash : E q)
    (hland : ∀ b, L.aboard p b → L.aboard q b) (start : StartPoint) (context : C)
    (hs : L.aboard p { context, extra := s }) :
    ((c.environment id).run d start context s).Abides L
      (fun x r => r = q ∧ x.1.status = .running) E p := by
  subst hashore
  unfold Environment.run
  refine Course.Abides.bind (.read h.read) fun begin r hr => ?_
  subst hr
  refine Course.Abides.bind (.modify (q := r) fun w => h.publish _ w rfl) fun _ r' hr => ?_
  subst hr
  have hrest (b : Board C H Instance) (report : Option Report) (hb : L.aboard r' b) :
      (landing (c.environment id) d begin b report).Abides L
        (fun x r => r = L.ashore r' ∧ x.1.status = .running) E (L.ashore r') := by
    unfold landing
    split
    · exact hcrash
    · exact ⟨rfl, h.running b hb⟩
    · refine Course.Abides.bind (conclude_abides hback hstays begin _ (hland b hb)) fun x r hx => ?_
      obtain ⟨rfl, hx⟩ := hx
      exact ⟨rfl, hback.running x.1 hx⟩
  exact ⟨_, L.guides_of_keeps r', ⟨Environment.traverse_keeps h.within start, hs⟩,
    fun own report hown => hrest own (some report) hown.2, fun path own hown => hrest own none hown.2⟩

/-- A lease is given if nobody has it. -/
theorem acquire_abides {operation : Nat} {Q : Unit → P → Prop}
    (hfree : ∀ w, L.good w → w.lease? c.number id = none →
      ∃ q, L.act p w (w.grant c.number operation id) q ∧ Q () q)
    (hbusy : ∀ w, L.good w → (w.lease? c.number id).isSome → ∃ q, L.act p w w q ∧ X (.busy id) q) :
    (c.acquire operation id : Operation C H R Unit).Abides L E X Q p := by
  refine Operation.Abides.bind (Q := fun free q => if free then Q () q else X (.busy id) q)
    (.update fun w hgood => ?_) fun free q hq => ?_
  · cases hlease : w.lease? c.number id with
    | none =>
      rw [World.acquire_free hlease]
      exact hfree w hgood hlease
    | some l =>
      have hsome : (w.lease? c.number id).isSome := by rw [hlease]; rfl
      rw [World.acquire_busy hsome]
      exact hbusy w hgood hsome
  · cases free with
    | true => exact .pure hq
    | false => exact .throw hq

/-- A lease is given if nobody has it; or else its holder is asked to cancel. -/
theorem acquireOrCancel_abides {operation : Nat} {Q : Bool → P → Prop}
    (hfree : ∀ w, L.good w → w.lease? c.number id = none →
      ∃ q, L.act p w (w.grant c.number operation id) q ∧ Q true q)
    (hbusy : ∀ w, L.good w → (w.lease? c.number id).isSome →
      ∃ q, L.act p w (World.requestCancel c.number id w).2 q ∧ Q false q) :
    (Operation.update (c.acquireOrCancel operation id) : Operation C H R Bool).Abides L E X Q p := by
  refine .update fun w hgood => ?_
  unfold acquireOrCancel
  cases hlease : w.lease? c.number id with
  | none =>
    rw [World.acquire_free hlease]
    exact hfree w hgood hlease
  | some l =>
    have hsome : (w.lease? c.number id).isSome := by rw [hlease]; rfl
    rw [World.acquire_busy hsome]
    exact hbusy w hgood hsome

theorem persist_abides {Q : Instance → P → Prop} (h : ∀ w, L.good w →
    ∃ q, L.act p w (Operation.onStore (c.repository.persist s) w).2 q ∧
      (c.repository.persist s w.store).1.Ends E X Q q) :
    (c.persist s).Abides (C := C) (H := H) L E X Q p := by
  refine Operation.Abides.bind (Operation.Abides.update h) fun r q hr => ?_
  cases r with
  | stored s => exact .pure hr
  | refused fault => exact .throw hr
  | exhausted => exact .crash _ hr

/-- Whether it is stored or not, the operation is at the stage `q` then. -/
theorem persist_onward
    (hact : ∀ w, L.good w → L.act p w (Operation.onStore (c.repository.persist s) w).2 q)
    (hfault : ∀ fault, X (.repository fault) q) (hcrash : E q) :
    (c.persist s).Abides (C := C) (H := H) L E X
      (fun s' r => r = q ∧ s' = { s with revision := s.revision + 1 }) p := by
  refine persist_abides fun w hgood => ⟨q, hact w hgood, ?_⟩
  cases hpersist : (c.repository.persist s w.store).1 with
  | stored s' => exact ⟨rfl, Repository.eq_of_stored hpersist⟩
  | refused fault => exact hfault fault
  | exhausted => exact hcrash

theorem persist_easy (h : L.Easy c E X p) :
    (c.persist s).Abides (C := C) (H := H) L E X (fun _ r => r = p) p :=
  (persist_onward (h.persist s) h.repository h.crash).mono fun _ _ hr => hr.1

/-- A move of a running instance is allowed. -/
theorem moved_easy {r : Except TransitionError Instance} (h : ∀ e, r ≠ .error e) :
    (Operation.moved r : Operation C H R Instance).Abides L E X (fun _ q => q = p) p :=
  .moved (fun _ _ => rfl) fun e he => absurd he (h e)

theorem settleCancelled_abides (h : L.Sails c id d.graph p) (heasy : L.Easy c E X p)
    (hs : s.status = .running) :
    (c.settleCancelled s : Operation C H R α).Abides L E X Q p := by
  refine (Operation.Abides.now h.read).onward fun now => ?_
  refine (moved_easy (Instance.transition_ne_error (by rw [hs]; rfl))).onward fun s => ?_
  refine (persist_easy heasy).onward fun s => ?_
  exact (Operation.Abides.modify (heasy.publish _)).onward fun _ => .throw (heasy.cancelled _)

theorem tell_easy (h : L.Easy c E X p) (notice : Notice) :
    (c.tell notice : Operation C H R Unit).Abides L E X (fun _ q => q = p) p :=
  .modify (h.tell notice)

/-- The instance makes a move, is stored, and is told of. -/
def settled (c : Coordinator C H R) (move : Except TransitionError Instance)
    (alter : Instance → Instance) (notice : Instance → Notice) : Operation C H R Instance := do
  let s ← Operation.moved move
  let s ← c.persist (alter s)
  c.tell (notice s)
  return s

theorem settled_easy (h : L.Easy c E X p) {move : Except TransitionError Instance}
    (hmove : ∀ e, move ≠ .error e) (alter : Instance → Instance) (notice : Instance → Notice) :
    (c.settled move alter notice : Operation C H R Instance).Abides L E X (fun _ q => q = p) p := by
  refine (moved_easy hmove).onward fun s => (persist_easy h).onward fun s => ?_
  exact (tell_easy h _).onward fun _ => .pure rfl

theorem settle_abides (h : L.Sails c id d.graph p) (heasy : L.Easy c E X p)
    (hs : s.status = .running) (outcome : RunOutcome) :
    (c.settle s outcome : Operation C H R Instance).Abides L E X (fun _ q => q = p) p := by
  cases outcome with
  | completed =>
    exact (Operation.Abides.now h.read).onward fun now =>
      settled_easy heasy (Instance.transition_ne_error (by rw [hs]; rfl)) _ _
  | failed failure =>
    exact (Operation.Abides.now h.read).onward fun now =>
      settled_easy heasy (Instance.transition_ne_error (by rw [hs]; rfl)) _ _
  | suspended w =>
    refine (Operation.Abides.now h.read).onward fun now => ?_
    cases waitDeadline (w.limit.or c.defaultWait) now with
    | error m => exact .crash m heasy.crash
    | ok deadline =>
      exact settled_easy heasy (Instance.enterWait_ne_error (by rw [hs]; rfl)) _ _

/-- Whoever may begin a run at the stage `p`, and store and tell as it likes after walks, may drive
the instance. -/
theorem drive_abides (h : L.Sails c s.id d.graph p) (hback : L.Sails c s.id d.graph q)
    (heasy : L.Easy c E X q) (hashore : L.ashore p = q) (hstays : L.ashore q = q)
    (hland : ∀ b, L.aboard p b → L.aboard q b) (context : C) (start : StartPoint)
    (hs : L.aboard p { context, extra := s }) :
    (c.drive d s context start).Abides L E X (fun _ r => r = q) p := by
  refine (Operation.Abides.ofErrand (run_abides h hback hashore hstays heasy.crash hland start context
    hs)).bind fun x r hx => ?_
  obtain ⟨last, result⟩ := x
  obtain ⟨rfl, hlast⟩ := hx
  cases result with
  | none => exact settleCancelled_abides hback heasy hlast
  | some result =>
    refine Operation.Abides.onward (q := r)
      (.orThrow (fun _ _ => rfl) fun _ => heasy.serialization) fun context => ?_
    refine (settle_abides hback heasy ?_ _).onward fun _ => .pure rfl
    exact hlast

end Coordinator

end DurableWorkflow
