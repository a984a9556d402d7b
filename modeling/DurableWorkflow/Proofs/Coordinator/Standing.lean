import DurableWorkflow.Proofs.Instance.Move
import DurableWorkflow.Proofs.Lease.Grip

/-!
# How far a call has come

A call looks before it does anything: it takes the lease, reads the instance, checks everything, and
only then stores its claim. Until the claim is stored no step has run and nothing has been announced.
After it nothing is refused any more for the state that the instance was in: a run ends in a move
that is allowed.
-/

namespace DurableWorkflow

variable {C H R α : Type} {view : R → Uuid → Option Instance}

/-- Nothing is stored, no step works, nothing is announced and nobody is told. -/
structure World.Blank (view : R → Uuid → Option Instance) (w v : World R H) : Prop where
  store : view v.store = view w.store
  memory : v.memory = w.memory
  announced : v.announced = w.announced
  notices : v.notices = w.notices

/-- The step is outside runs and changes nothing but leases. -/
structure Course.Stride.Idle (view : R → Uuid → Option Instance)
    (st : Course.Stride (World R H) (Board C H Instance) Report α) : Prop where
  ashore : st.course.own? = none
  blank : st.before.Blank view st.after

/-- The step stores something. -/
def Course.Stride.Stores (view : R → Uuid → Option Instance)
    (st : Course.Stride (World R H) (Board C H Instance) Report α) : Prop :=
  st.course.own? = none ∧ view st.after.store ≠ view st.before.store

/-- Storing a changed instance changes what is stored, or nothing. -/
theorem Repository.Lawful.persist_changes {repository : Repository R}
    (hlaw : repository.Lawful view) (s : Instance) (r : R) :
    (∃ s', (repository.persist s r).1 = .stored s' ∧ view (repository.persist s r).2 ≠ view r) ∨
      (∀ s', (repository.persist s r).1 ≠ .stored s') ∧
        view (repository.persist s r).2 = view r := by
  obtain ⟨hstored, ⟨t, ht, hrevision⟩, hview⟩ | hnot := hlaw.persist_cases s r
  · refine .inl ⟨_, hstored, fun hsame => ?_⟩
    have hnext := hview s.id
    rw [if_pos rfl, hsame, ht] at hnext
    have hlater : t.revision = s.revision + 1 := congrArg Instance.revision (Option.some.inj hnext)
    omega
  · exact .inr hnot

theorem World.requestCancel_blank (view : R → Uuid → Option Instance) {w : World R H}
    {number : Nat} {id : Uuid} : w.Blank view (World.requestCancel number id w).2 := by
  unfold World.requestCancel
  split <;> exact ⟨rfl, rfl, rfl, rfl⟩

/-- Only what has ended cannot be cancelled. -/
theorem Instance.final_of_transition {s : Instance} {now : Timestamp} {e : TransitionError}
    (h : s.transition .cancelled now = .error e) : s.status.isFinal = true := by
  cases hfinal : s.status.isFinal with
  | true => rfl
  | false =>
    refine absurd h (transition_ne_error ?_ e)
    cases hs : s.status <;> simp_all [Status.isFinal, Status.allows]

namespace Coordinator

variable {s t : Instance} {now : Timestamp}

/-- What is revived is still the same instance of the same definition. -/
theorem same_of_revive (h : revive s now = .ok t) :
    t.workflow = s.workflow ∧ t.version = s.version ∧ t.context = s.context := by
  unfold revive at h
  split at h
  · cases h
    exact ⟨rfl, rfl, rfl⟩
  · split at h
    · next ht =>
      cases h
      obtain ⟨-, rfl⟩ := Instance.transition_eq ht
      exact ⟨rfl, rfl, rfl⟩
    · cases h
  · cases h
  · cases h

/-- The coordinator knows a definition of this name and major version, and can read the context. -/
structure Serves (c : Coordinator C H R) (s : Instance) : Prop where
  known : ∃ d ∈ c.definitions, d.id = s.workflow ∧ d.version.major = s.version.major
  readable : (c.kind.decode s.context).isSome

end Coordinator

/-! ### How far a call has come -/

inductive Standing where
  | fresh
  /-- Somebody else has the lease. -/
  | met
  | leased
  /-- Nothing was found. -/
  | missed
  | read (s : Instance)
  | claimed
  | ran
  /-- A new instance is to be stored. -/
  | opening
  | opened

namespace Standing

/-- The call has stored something. -/
def Late : Standing → Prop
  | claimed | ran | opened => True
  | _ => False

/-- The call may do something that does not bring it further. -/
def Rests : Standing → Prop
  | fresh | leased => False
  | _ => True

def ashore : Standing → Standing
  | claimed => ran
  | p => p

theorem Late.rests {p : Standing} (h : p.Late) : p.Rests := by cases p <;> trivial

end Standing

namespace Coordinator

namespace Call

/-- These answers refuse the call. A call that starts an instance has stored it before it finds out
that somebody else has the lease on it. -/
def Refuses : Call C → CoordinatorError → Prop
  | _, .notFound _ | _, .notWaiting .. | _, .awaitingSignal .. | _, .unknownDefinition _
  | _, .invalidTransition _ => True
  | start .., .busy _ => False
  | _, .busy _ => True
  | _, _ => False

/-- The instance that is to be read. -/
def target : Call C → Option Uuid
  | start .. => none
  | signal id .. | resume id | cancel id => some id

/-- The call runs an instance that was there before. -/
def Needs : Call C → Prop
  | signal .. | resume _ => True
  | _ => False

/-- Why a call may be refused that has read this version. -/
def Apt : Call C → Instance → CoordinatorError → Prop
  | signal _ name _, s, .notWaiting .. => s.WellFormed → s.isWaitingFor name = false
  | resume _, s, .awaitingSignal .. => s.status = .waiting
  | resume _, s, .invalidTransition _ | cancel _, s, .invalidTransition _ =>
    s.status.isFinal = true
  | _, _, _ => True

/-- What waits is not resumed, and what has ended is not resumed. -/
theorem apt_of_revive {s : Instance} {now : Timestamp} {e : CoordinatorError} {id : Uuid}
    (h : revive s now = .error e) : (resume id : Call C).Apt s e := by
  unfold revive at h
  split at h
  · cases h
  · next hs =>
    split at h
    · cases h
    · next he =>
      exact absurd he (Instance.transition_ne_error (by rw [hs]; rfl) _)
  · next hs =>
    cases h
    exact hs
  · next hrunning hcreated hwaiting =>
    cases h
    show s.status.isFinal = true
    cases hs : s.status <;> simp_all [Status.isFinal]

/-- With what errors a call may end at this stage. -/
def Errs (call : Call C) (e : CoordinatorError) : Standing → Prop
  | .fresh | .leased | .claimed => False
  | .ran | .opened => ¬call.Refuses e
  | .read s => call.Apt s e
  | _ => True

end Call

theorem Call.Errs.rests {call : Call C} {e : CoordinatorError} {p : Standing} (h : call.Errs e p) :
    p.Rests := by cases p <;> trivial

variable (c : Coordinator C H R) (view : R → Uuid → Option Instance) (call : Call C)

/-- What an action of a call does. -/
inductive Brings (w v : World R H) : Standing → Standing → Prop
  | blank {p : Standing} (hp : p.Rests) (h : w.Blank view v) : Brings w v p p
  | late {p : Standing} (hp : p.Late) : Brings w v p p
  | lease (h : w.Blank view v) : Brings w v .fresh .leased
  | meet {id : Uuid} (hid : call.target = some id) (hbusy : (w.lease? c.number id).isSome)
    (h : w.Blank view v) : Brings w v .fresh .met
  | find {id : Uuid} {s : Instance} (hid : call.target = some id)
    (hget : (c.repository.get id w.store).1 = .ok (some s)) (h : w.Blank view v) :
    Brings w v .leased (.read s)
  | miss {id : Uuid} (hid : call.target = some id)
    (hget : ∀ s, (c.repository.get id w.store).1 ≠ .ok (some s)) (h : w.Blank view v) :
    Brings w v .leased .missed
  | claim {s : Instance} (hserves : call.Needs → c.Serves s)
    (h : view v.store ≠ view w.store) : Brings w v (.read s) .claimed
  | create (h : view v.store ≠ view w.store) : Brings w v .opening .opened

/-- The stages of a call. Only whoever has stored something may be on a run. -/
def refusing : Protocol (World R H) (Board C H Instance) Standing where
  good _ := True
  act p w v q := Brings c view call w v p q
  pace _ _ _ := True
  aboard p b := p.Late ∧ b.extra.status = .running
  ashore := Standing.ashore
  pace_refl _ _ := trivial

variable {c view call}

theorem refusing_sails {id : Uuid} (g : Graph C H) {p : Standing} (hp : p.Late) :
    (refusing c view call).Sails c id g p where
  within := {
    board := fun _ _ _ hnear _ hb => ⟨trivial, hb.1, by rw [hnear.extra]; exact hb.2⟩
    enter := fun _ _ _ _ _ _ hb => ⟨trivial, hb⟩
    publish := fun _ _ _ _ _ hb => ⟨trivial, hb⟩
    memory := fun _ _ _ _ _ hb => ⟨trivial, hb⟩
    note := fun _ _ _ _ hb => ⟨trivial, hb⟩
    save := fun _ _ _ _ _ hsave _ hb => ⟨trivial, hb.1, (of_save hsave).2.1.trans hb.2⟩ }
  extra _ _ hb heq := ⟨hb.1, by rw [heq]; exact hb.2⟩
  running _ hb := hb.2
  read _ _ := .late hp
  publish _ _ _ _ := .late hp

theorem refusing_easy {p : Standing} (hp : p.Late) (hrests : p.Rests)
    (herrs : ∀ e, ¬call.Refuses e → call.Errs e p) :
    (refusing c view call).Easy c Standing.Rests call.Errs p where
  persist _ _ _ := .late hp
  tell _ _ _ := .late hp
  publish _ _ _ := .late hp
  crash := hrests
  repository _ := herrs _ (by cases call <;> exact id)
  serialization := herrs _ (by cases call <;> exact id)
  cancelled _ := herrs _ (by cases call <;> exact id)

end Coordinator

/-- The operation goes through these stages. -/
abbrev Operation.Treads (c : Coordinator C H R) (view : R → Uuid → Option Instance)
    (call : Coordinator.Call C) (Q : α → Standing → Prop) (op : Operation C H R α) (p : Standing) :
    Prop := op.Abides (Coordinator.refusing c view call) Standing.Rests call.Errs Q p

namespace Coordinator

variable {c : Coordinator C H R} {call : Call C} {p : Standing} {operation : Nat} {id : Uuid}

/-! ### The calls -/

theorem releasing_treads {op : Operation C H R α} {Q : α → Standing → Prop}
    (hrests : ∀ a p, Q a p → p.Rests) (h : op.Treads c view call Q p) :
    (Operation.releasing operation op).Treads c view call Q p := by
  have hrelease (q : Standing) (hq : q.Rests) (w : World R H) :
      (refusing c view call).act q w (World.release operation w) q := .blank hq ⟨rfl, rfl, rfl, rfl⟩
  refine h.releasing (fun r q hr w _ => ⟨q, hrelease q ?_ w, hr⟩) fun q hq w _ =>
    ⟨q, hrelease q hq w, hq⟩
  cases r with
  | ok a => exact hrests a q hr
  | error e => exact hr.rests

theorem acquire_treads (hid : call.target = some id) :
    (c.acquire operation id : Operation C H R Unit).Treads c view call (fun _ p => p = .leased)
      .fresh := by
  refine acquire_abides (fun w _ _ => ?_) fun w _ hbusy => ?_
  · exact ⟨.leased, .lease ⟨rfl, rfl, rfl, rfl⟩, rfl⟩
  · exact ⟨.met, .meet hid hbusy ⟨rfl, rfl, rfl, rfl⟩, trivial⟩

theorem load_treads (hlaw : c.repository.Lawful view) (hid : call.target = some id) :
    (c.load id : Operation C H R Instance).Treads c view call (fun s p => p = .read s) .leased := by
  refine Operation.Abides.bind (Q := fun found p => (∀ s, found = some s → p = .read s) ∧
    (found = none → p = .missed)) (.request fun w _ => ?_) fun found p hp => ?_
  · have hsame : view (c.repository.get id w.store).2 = view w.store :=
      (hlaw.get id w.store).elim (fun _ _ h => h) fun _ _ h => h.1
    have hblank : w.Blank view { w with store := (c.repository.get id w.store).2 } :=
      ⟨hsame, rfl, rfl, rfl⟩
    rcases hget : (c.repository.get id w.store).1 with fault | found
    · exact ⟨.missed, .miss hid (by simp [hget]) hblank, trivial⟩
    · cases found with
      | none => exact ⟨.missed, .miss hid (by simp [hget]) hblank, by simp, by simp⟩
      | some s =>
        exact ⟨.read s, .find hid hget hblank, by simp, by simp⟩
  · cases found with
    | none =>
      obtain rfl := hp.2 rfl
      exact .throw trivial
    | some s => exact .pure (hp.1 s rfl)

theorem now_treads (hp : p.Rests) :
    (Operation.now : Operation C H R Timestamp).Treads c view call (fun _ q => q = p) p :=
  .now fun _ _ => .blank hp ⟨rfl, rfl, rfl, rfl⟩

theorem modify_late {f : World R H → World R H} (hp : p.Late) :
    (Operation.modify f : Operation C H R Unit).Treads c view call (fun _ q => q = p) p :=
  .modify fun _ _ => .late hp

theorem definitionFor_treads {s t : Instance} :
    (c.definitionFor t : Operation C H R (Definition C H)).Treads c view call
      (fun d q => q = .read s ∧ d ∈ c.definitions ∧ d.id = t.workflow ∧
        d.version.major = t.version.major) (.read s) := by
  have hunknown (what : String) : call.Errs (.unknownDefinition what) (.read s) := by
    cases call <;> trivial
  refine Operation.Abides.bind (Q := fun d q => q = .read s ∧ d ∈ c.definitions ∧ d.id = t.workflow)
    (.orThrow (fun d hd => ?_) fun _ => hunknown _) fun d q hd => ?_
  · exact ⟨rfl, List.mem_of_find?_eq_some hd, by simpa using List.find?_some hd⟩
  · obtain ⟨rfl, hmem, hid⟩ := hd
    split
    · next hmajor => exact .pure ⟨rfl, hmem, hid, hmajor⟩
    · exact .throw (hunknown _)

theorem decode_treads {s t : Instance} (hcontext : t.context = s.context) :
    (Operation.orThrow .serialization (c.kind.decode t.context) : Operation C H R C).Treads c view
      call (fun _ q => q = .read s ∧ (c.kind.decode s.context).isSome) (.read s) :=
  .orThrow (fun _ h => ⟨rfl, by rw [← hcontext, h]; rfl⟩) fun _ => by cases call <;> trivial

/-- The claim is stored, or nothing is. -/
theorem claim_treads (hlaw : c.repository.Lawful view) {s t : Instance}
    (hserves : call.Needs → c.Serves s) :
    (c.persist t).Treads (C := C) (H := H) c view call
      (fun t' q => q = .claimed ∧ t'.status = t.status) (.read s) := by
  refine persist_abides fun w _ => ?_
  obtain ⟨t', hstored, hchanged⟩ | ⟨hnot, hsame⟩ := hlaw.persist_changes t w.store
  · rw [hstored]
    exact ⟨.claimed, .claim hserves hchanged, rfl, by rw [Repository.eq_of_stored hstored]⟩
  · refine ⟨.read s, .blank trivial ⟨hsame, rfl, rfl, rfl⟩, ?_⟩
    cases hpersist : (c.repository.persist t w.store).1 with
    | stored t' => exact absurd hpersist (hnot t')
    | refused fault => cases call <;> trivial
    | exhausted => trivial

theorem drive_treads {s : Instance} (hs : s.status = .running) (hp : p.Late) (d : Definition C H)
    (context : C) (start : StartPoint) :
    (c.drive d s context start).Treads c view call (fun _ => Standing.Late) p := by
  have hashore : p.ashore.Late ∧ p.ashore.ashore = p.ashore := by cases p <;> trivial
  have herrs (e : CoordinatorError) (he : ¬call.Refuses e) : call.Errs e p.ashore := by
    cases p <;> first | exact he | exact hp.elim
  have hrests : p.ashore.Rests := by cases p <;> trivial
  have hdrive : (c.drive d s context start).Treads c view call (fun _ q => q = p.ashore) p :=
    drive_abides (refusing_sails d.graph hp) (refusing_sails d.graph hashore.1)
      (refusing_easy hashore.1 hrests herrs) rfl hashore.2 (fun _ hb => ⟨hashore.1, hb.2⟩) context
      start ⟨hp, hs⟩
  exact hdrive.mono fun _ q hq => hq ▸ hashore.1

theorem start_treads (hlaw : c.repository.Lawful view) (definition : String) (context : C) :
    (c.start operation definition context).Treads c view (.start definition context)
      (fun _ => Standing.Late) .opening := by
  have hblank (w v : World R H) (h : w.Blank view v) :
      (refusing c view (.start definition context)).act .opening w v .opening := .blank trivial h
  have hlate (w v : World R H) :
      (refusing c view (.start definition context)).act .opened w v .opened := .late trivial
  refine releasing_treads (fun _ _ => Standing.Late.rests) ?_
  refine Operation.Abides.onward (q := .opening) (.orThrow (fun _ _ => rfl) fun _ => trivial)
    fun d => ?_
  refine Operation.Abides.onward (q := .opening) (.orThrow (fun _ _ => rfl) fun _ => trivial)
    fun encoded => ?_
  refine Operation.Abides.onward (q := .opening)
    (.update fun w _ => ⟨.opening, hblank w _ ⟨rfl, rfl, rfl, rfl⟩, rfl⟩) fun id => ?_
  refine (now_treads (by trivial)).onward fun now => ?_
  refine Operation.Abides.onward (q := .opened) (.request fun w _ => ?_) fun _ => ?_
  · let s := Instance.create id d.id d.version c.kind.typeName encoded now
    refine (hlaw.save s w.store).elim (fun fault hsave hsame => ?_) fun a hsave hsaved => ?_
    · refine ⟨.opening, hblank w _ ⟨hsame, rfl, rfl, rfl⟩, ?_⟩
      rw [hsave]
      trivial
    · obtain ⟨hnone, hview⟩ := hsaved
      refine ⟨.opened, .create fun hsame => ?_, ?_⟩
      · have hnew := hview s.id
        rw [if_pos rfl, show view (c.repository.save s w.store).2 = view w.store from hsame,
          hnone] at hnew
        cases hnew
      · rw [hsave]
        rfl
  refine Operation.Abides.onward (q := .opened) (acquire_abides
    (fun w _ _ => ⟨.opened, hlate _ _, rfl⟩) fun w _ _ => ⟨.opened, hlate _ _, fun h => h⟩)
    fun _ => ?_
  refine Operation.Abides.bind (Q := fun s p => p = .opened ∧ s.status = .running)
    (.moved (fun s hs => ⟨rfl, (Instance.of_transition hs).2.2.2⟩) fun e he => ?_) fun s p hs => ?_
  · exact absurd he (Instance.transition_ne_error rfl e)
  obtain ⟨rfl, hrunning⟩ := hs
  refine Operation.Abides.bind (persist_onward (fun _ _ => hlate _ _) (fun _ h => h) trivial)
    fun s' p hs => ?_
  obtain ⟨rfl, rfl⟩ := hs
  refine drive_treads (p := .opened) ?_ trivial d context .root
  exact hrunning

theorem signal_treads (hlaw : c.repository.Lawful view) (name : String) (payload : Json) :
    (c.signal operation id name payload).Treads c view (.signal id name payload)
      (fun _ => Standing.Late) .fresh := by
  refine releasing_treads (fun _ _ => Standing.Late.rests) ((acquire_treads rfl).onward fun _ => ?_)
  refine (load_treads hlaw rfl).bind fun s p hp => ?_
  subst hp
  refine Operation.Abides.onward (q := .read s) (.orThrow (fun _ _ => rfl) fun hnone hs => ?_)
    fun node => ?_
  · cases hwaits : s.isWaitingFor name with
    | false => rfl
    | true =>
      rw [hwaits, if_pos rfl] at hnone
      simp only [Instance.isWaitingFor, Bool.and_eq_true, beq_iff_eq] at hwaits
      have hnode := (hs.waits hwaits.1).1
      simp [hnone] at hnode
  refine definitionFor_treads.bind fun d p hd => ?_
  obtain ⟨rfl, hknown⟩ := hd
  refine (decode_treads rfl).bind fun context p hp => ?_
  obtain ⟨rfl, hreadable⟩ := hp
  refine (now_treads (by trivial)).onward fun now => ?_
  refine Operation.Abides.bind (Q := fun t p => p = .read s ∧ t.status = .running)
    (.moved (fun t ht => ⟨rfl, (Instance.of_acceptSignal ht).2.2.2⟩) fun _ _ => trivial)
    fun t p ht => ?_
  obtain ⟨rfl, hrunning⟩ := ht
  refine (claim_treads hlaw fun _ => ⟨⟨d, hknown⟩, hreadable⟩).bind fun t' p ht' => ?_
  obtain ⟨rfl, hstatus⟩ := ht'
  refine (modify_late (p := .claimed) trivial).onward fun _ => ?_
  exact drive_treads (p := .claimed) (hstatus.trans hrunning) trivial d context _

theorem resume_treads (hlaw : c.repository.Lawful view) :
    (c.resume operation id).Treads c view (.resume id) (fun _ => Standing.Late) .fresh := by
  refine releasing_treads (fun _ _ => Standing.Late.rests) ((acquire_treads rfl).onward fun _ => ?_)
  refine (load_treads hlaw rfl).bind fun s p hp => ?_
  subst hp
  refine (now_treads (by trivial)).onward fun now => ?_
  refine Operation.Abides.bind (Q := fun t p => p = .read s ∧ (t.workflow = s.workflow ∧
    t.version = s.version ∧ t.context = s.context) ∧ t.status = .running)
    (.lift (fun t ht => ?_) fun e he => ?_) fun t p ht => ?_
  · exact ⟨rfl, same_of_revive ht, (of_revive ht).2.2.2⟩
  · exact Call.apt_of_revive he
  obtain ⟨rfl, ⟨hworkflow, hversion, hcontext⟩, hrunning⟩ := ht
  refine definitionFor_treads.bind fun d p hd => ?_
  obtain ⟨rfl, hknown⟩ := hd
  rw [hworkflow, hversion] at hknown
  refine (decode_treads hcontext).bind fun context p hp => ?_
  obtain ⟨rfl, hreadable⟩ := hp
  refine (claim_treads hlaw fun _ => ⟨⟨d, hknown⟩, hreadable⟩).bind fun t' p ht' => ?_
  obtain ⟨rfl, hstatus⟩ := ht'
  exact drive_treads (p := .claimed) (hstatus.trans hrunning) trivial d context _

theorem cancel_treads (hlaw : c.repository.Lawful view) :
    (c.cancel operation id : Operation C H R Cancelled).Treads c view (.cancel id)
      (fun _ => Standing.Rests) .fresh := by
  refine releasing_treads (fun _ _ hp => hp) (Operation.Abides.bind (Q := fun free p =>
    p = if free then .leased else .met)
    (acquireOrCancel_abides (fun w _ _ => ?_) fun w _ hbusy => ?_) fun free p hp => ?_)
  · exact ⟨.leased, .lease ⟨rfl, rfl, rfl, rfl⟩, rfl⟩
  · exact ⟨.met, .meet rfl hbusy (World.requestCancel_blank view), rfl⟩
  subst hp
  cases free with
  | false => exact .pure trivial
  | true =>
    refine (load_treads hlaw rfl).bind fun s p hp => ?_
    subst hp
    refine (now_treads (by trivial)).onward fun now => ?_
    refine Operation.Abides.onward (q := .read s) (.moved (fun _ _ => rfl) fun e he => ?_)
      fun t => ?_
    · exact Instance.final_of_transition he
    have hserves : (Call.cancel (C := C) id).Needs → c.Serves s := fun h => h.elim
    refine (claim_treads hlaw hserves).bind fun t' p ht' => ?_
    obtain ⟨rfl, -⟩ := ht'
    refine (modify_late (p := .claimed) trivial).onward fun _ => ?_
    refine (modify_late (p := .claimed) trivial).onward fun _ => ?_
    exact .pure trivial

namespace Call

/-- The answer is this error. -/
def Fails : (call : Call C) → call.Answer → CoordinatorError → Prop
  | start .., r, e | signal .., r, e | resume _, r, e => r = .error e
  | cancel _, r, e => r = .error e

/-- The stage at which a call begins. -/
def first : Call C → Standing
  | start .. => .opening
  | _ => .fresh

end Call

/-- At the end of an operation. -/
theorem ends_treads {op : Operation C H R α} {K : Standing → Prop}
    (h : op.Treads c view call (fun _ => K) p) (hrests : ∀ p, K p → p.Rests) :
    op.run.Abides (refusing c view call)
      (fun r p => p.Rests ∧ (∀ e, r = .error e → call.Errs e p) ∧ (K p ∨ ∃ e, r = .error e))
      Standing.Rests p := by
  refine Course.Abides.mono h fun r p hr => ?_
  cases r with
  | ok a => exact ⟨hrests p hr, by simp, .inl hr⟩
  | error e => exact ⟨hr.rests, fun e' he => Except.error.inj he ▸ hr, .inr ⟨e, rfl⟩⟩

/-- At the end of a call. One that runs an instance has claimed it by then, or failed. -/
theorem course_treads (hlaw : c.repository.Lawful view) (call : Call C) :
    (c.course operation call).Abides (refusing c view call)
      (fun r p => p.Rests ∧ (∀ e, call.Fails r e → call.Errs e p) ∧
        (call.Needs → p.Late ∨ ∃ e, call.Fails r e)) Standing.Rests call.first := by
  cases call with
  | start definition context =>
    exact (ends_treads (start_treads hlaw definition context) fun _ => Standing.Late.rests).mono
      fun _ _ hr => ⟨hr.1, hr.2.1, fun h => h.elim⟩
  | signal id name payload =>
    exact (ends_treads (signal_treads hlaw name payload) fun _ => Standing.Late.rests).mono
      fun _ _ hr => ⟨hr.1, hr.2.1, fun _ => hr.2.2⟩
  | resume id =>
    exact (ends_treads (resume_treads hlaw) fun _ => Standing.Late.rests).mono
      fun _ _ hr => ⟨hr.1, hr.2.1, fun _ => hr.2.2⟩
  | cancel id =>
    exact (ends_treads (cancel_treads hlaw) fun _ hp => hp).mono
      fun _ _ hr => ⟨hr.1, hr.2.1, fun h => h.elim⟩

end Coordinator

end DurableWorkflow
