import DurableWorkflow.Coordinator.Basic
import DurableWorkflow.Proofs.Coordinator.Drive
import DurableWorkflow.Proofs.Walk.Step

/-!
# How a driver parts with its instance

When a call that drives an instance returns, it has stored the instance as the run has left it:
ended or waiting with the result of the run, or cancelled if the run was. Only a context that cannot
be encoded, or a repository that refuses, keeps it from that, and then it says so. What the others
do meanwhile is no matter.
-/

namespace DurableWorkflow

/-! ### When a wait is over

A wait has the deadline that its limit gives, and none where the calendar has no such instant. But
the limits for which there is no instant are found in two ways: those of more milliseconds than can
be counted are taken as no limit at all, and shorter ones that reach beyond the calendar are fatal
(`waitDeadline_eq`). Then nothing is stored, and the instance is left running.
-/

section

variable {C H R : Type}

namespace Timestamp

/-- How long it is until the calendar ends, but for an instant. -/
def untilEnd (now : Timestamp) : Nat :=
  (maxSeconds - now.seconds).toNat * Nanos.perSecond + (Nanos.perSecond - 1 - now.nanos)

variable {now : Timestamp} {d : Nat}

theorem add?_eq_none_iff (hnow : now.inRange = true) (hnanos : now.nanos < Nanos.perSecond) :
    now.add? d = none ↔ now.untilEnd < d := by
  have hrange : minSeconds ≤ now.seconds ∧ now.seconds ≤ maxSeconds := by
    simpa [inRange] using hnow
  have hordinary : ¬(now.nanos ≥ Nanos.perSecond ∧ now.nanos + d < 2 * Nanos.perSecond) :=
    fun h => absurd h.1 (Nat.not_le.2 hnanos)
  have hadd : now.add? d = none ↔
      maxSeconds < now.seconds + ((now.nanos + d) / Nanos.perSecond : Nat) := by
    simp only [add?, Bool.and_eq_true, decide_eq_true_eq, hordinary, if_false, inRange]
    rw [ite_eq_right_iff]
    generalize (now.nanos + d) / Nanos.perSecond = later
    constructor
    · intro h
      refine Int.not_le.1 fun hle => ?_
      have hsome := h ⟨by omega, hle⟩
      simp at hsome
    · rintro hlate ⟨-, hle⟩
      omega
  rw [hadd, untilEnd]
  clear hadd hordinary
  simp only [Nanos.perSecond] at hnanos ⊢
  omega

end Timestamp

open Timestamp

variable {now : Timestamp} {limit : Option Nanos}

/-- A limit of more milliseconds than can be counted reaches beyond the calendar. -/
theorem untilEnd_lt_of_longestWait_lt {d : Nat} (hnow : now.inRange = true)
    (h : longestWait < d) : now.untilEnd < d := by
  have hmin : minSeconds = -8334601228800 := by decide +kernel
  have hmax : maxSeconds = 8210266876799 := by decide +kernel
  have hlongest : longestWait = 9223372036854775807000000 := by decide +kernel
  simp only [inRange, Bool.and_eq_true, decide_eq_true_eq, hmin, hmax] at hnow
  replace h : 9223372036854775807000000 < d := hlongest ▸ h
  simp only [untilEnd, hmax, Nanos.perSecond]
  omega

theorem waitDeadline_of_lt {d : Nat} (h : longestWait < d) :
    waitDeadline (some d) now = .ok none := by
  rw [waitDeadline, Option.filter_some_neg]
  simpa using h

theorem waitDeadline_of_le {d : Nat} (h : d ≤ longestWait) : waitDeadline (some d) now =
    if now.add? d = none then .error "`DateTime + TimeDelta` overflowed"
    else .ok (now.add? d) := by
  rw [waitDeadline, Option.filter_some_pos (by simpa using h)]
  cases hadd : now.add? d <;> simp [hadd]

/-- The wait is over where its limit is reached, and has no deadline where the calendar has no such
instant, unless the limit can be counted in milliseconds: then it is fatal. -/
theorem waitDeadline_eq (hnow : now.inRange = true) (hnanos : now.nanos < Nanos.perSecond) :
    waitDeadline limit now =
      if ∃ d ∈ limit, now.untilEnd < d ∧ d ≤ longestWait then
        .error "`DateTime + TimeDelta` overflowed"
      else .ok (limit.bind now.add?) := by
  cases limit with
  | none => simp [waitDeadline]
  | some d =>
    have hbeyond := add?_eq_none_iff (d := d) hnow hnanos
    simp only [Option.mem_def, Option.some.injEq, exists_eq_left', Option.bind_some]
    rcases Nat.lt_or_ge longestWait d with hlong | hshort
    · have hlate : now.add? d = none := hbeyond.2 (untilEnd_lt_of_longestWait_lt hnow hlong)
      rw [waitDeadline_of_lt hlong, if_neg fun h => Nat.not_le.2 hlong h.2, hlate]
    · simp only [waitDeadline_of_le hshort, hbeyond, hshort, and_true]

/-- Ten million million seconds from 1970 on. -/
example : waitDeadline (some (Nanos.ofSeconds 10000000000000)) ⟨0, 0⟩ =
    .error "`DateTime + TimeDelta` overflowed" := by rfl

/-- A course that crashes at what it reads has done nothing. -/
theorem Course.crash_of_read {ω τ β α : Type} {rest : ω → Course ω τ β α} {w : ω} {m : String}
    {y : Course ω τ β α × ω} (hrest : rest w = .crash m)
    (hsteps : Course.Steps (.act id rest, w) y) : y.2 = w ∧ ∀ a, y.1 ≠ .done a := by
  rcases Relation.ReflTransGen.cases_head hsteps with rfl | ⟨z, hz, hsteps⟩
  · exact ⟨rfl, nofun⟩
  cases hz with
  | act f rest w =>
    rw [hrest] at hsteps
    rcases Relation.ReflTransGen.cases_head hsteps with rfl | ⟨z, hz, -⟩
    · exact ⟨rfl, nofun⟩
    · cases hz

namespace Coordinator

/-- Where the deadline of a wait is fatal, the wait is not stored and the call does not return. -/
theorem settle_crashes (c : Coordinator C H R) (s : Instance) (wait : Suspension) {w : World R H}
    {m : String} {y : Errand C H R (Except CoordinatorError Instance) × World R H}
    (hlate : waitDeadline (wait.limit.or c.defaultWait) w.wall = .error m)
    (hsteps : Course.Steps ((c.settle s (.suspended wait)).run, w) y) :
    y.2 = w ∧ ∀ answer, y.1 ≠ .done answer := by
  -- The clock is read, and the deadline is all that is made of it.
  refine Course.crash_of_read (m := m) ?_ hsteps
  simp only [Course.bind, Function.comp, ExceptT.bindCont, hlate]
  rfl

end Coordinator

end

variable {C H R α β : Type}

/-- The status of an instance whose run has ended like this. -/
def RunOutcome.status : RunOutcome → Status
  | .completed => .completed
  | .failed _ => .failed
  | .suspended _ => .waiting

variable {view : R → Uuid → Option Instance} {call : Nat} {about : Option Uuid} {s : Instance}
  {w : World (Journaled R) H}

/-- The call may store this version, which has this identifier and this status. -/
structure Journal.Ready (j : Journal) (call : Nat) (id : Uuid) (status : Status) (s : Instance) :
    Prop where
  mayStore : j.MayStore call s
  id : s.id = id
  status : s.status = status

/-- Who drives an instance can move it wherever a running one may move to. -/
theorem Journal.Drives.transition {j : Journal} (h : j.Drives call s) {target : Status}
    (htarget : Status.running.allows target = true) (now : Timestamp) :
    ∃ s', s.transition target now = .ok s' ∧ j.Ready call s.id target s' := by
  cases hmove : s.transition target now with
  | error e =>
    rw [Instance.transition, h.1, if_pos htarget] at hmove
    cases hmove
  | ok s' =>
    obtain ⟨hid, hrevision, hallows, hstatus⟩ := Instance.of_transition hmove
    exact ⟨s', rfl, h.mayStore hid hrevision hallows, hid, hstatus⟩

theorem Journal.Drives.enterWait {j : Journal} (h : j.Drives call s) (signal : String)
    (node : NodeId) (deadline : Option Timestamp) (pending : List NodeId) (now : Timestamp) :
    ∃ s', s.enterWait signal node deadline pending now = .ok s' ∧
      j.Ready call s.id .waiting s' := by
  have hallows : Status.running.allows .waiting = true := rfl
  obtain ⟨s', hmove, hready⟩ := h.transition hallows now
  refine ⟨{ s' with awaited := some signal, waitingNode := some node, deadline, pending }, ?_,
    hready.mayStore, hready.id, hready.status⟩
  rw [Instance.enterWait, hmove]
  rfl

namespace Operation

section

variable (view : R → Uuid → Option Instance) (call : Nat) (about : Option Uuid)

/-- The operation keeps the conduct of the call and ends in `Q`, unless the repository refuses. -/
def Achieves (Q : α → Journal → Prop) (op : Operation C H (Journaled R) α)
    (w : World (Journaled R) H) : Prop :=
  Course.Fulfils view call about (fun r j =>
    (∃ a, r = .ok a ∧ Q a j) ∨ ∃ fault, r = .error (.repository fault)) op.run w

end

namespace Achieves

variable {Q : α → Journal → Prop} {S : β → Journal → Prop}

theorem pure {a : α} (h : Q a w.store.journal) :
    Achieves view call about Q (pure a : Operation C H (Journaled R) α) w := .inl ⟨a, rfl, h⟩

theorem refused (fault : RepositoryFault) :
    Achieves view call about Q (throw (.repository fault) : Operation C H (Journaled R) α) w :=
  .inr ⟨fault, rfl⟩

/-- What comes after may end as it likes, if a refusal will do. -/
theorem andThen {E : Except CoordinatorError β → Journal → Prop}
    {op : Operation C H (Journaled R) α} {k : α → Operation C H (Journaled R) β}
    (h : op.Achieves view call about Q w) (hrefused : ∀ fault j, E (.error (.repository fault)) j)
    (hk : ∀ a v, Q a v.store.journal → Course.Fulfils view call about E (k a).run v) :
    Course.Fulfils view call about E (op >>= k).run w := by
  refine Course.Fulfils.bind h fun r v hr => ?_
  obtain ⟨a, rfl, ha⟩ | ⟨fault, rfl⟩ := hr
  · exact hk a v ha
  · exact hrefused fault _

theorem bind {op : Operation C H (Journaled R) α} {k : α → Operation C H (Journaled R) β}
    (h : op.Achieves view call about Q w)
    (hk : ∀ a v, Q a v.store.journal → (k a).Achieves view call about S v) :
    (op >>= k).Achieves view call about S w := h.andThen (fun fault _ => .inr ⟨fault, rfl⟩) hk

theorem ofErrand {e : Errand C H (Journaled R) α} (h : e.Fulfils view call about Q w) :
    (Operation.ofErrand e).Achieves view call about Q w :=
  Course.Fulfils.bind h fun a _ hq => .inl ⟨a, rfl, hq⟩

theorem crash (m : String) :
    (Operation.crash m : Operation C H (Journaled R) α).Achieves view call about Q w :=
  .ofErrand (Q := Q) trivial

theorem now {F : Journal → Prop} (hF : Journal.Steady call F) (hw : F w.store.journal) :
    (Operation.now : Operation C H (Journaled R) Timestamp).Achieves view call about (fun _ => F)
      w := .ofErrand (.read hF hw)

theorem moved {r : Except TransitionError α} (h : ∃ a, r = .ok a ∧ Q a w.store.journal) :
    (Operation.moved r : Operation C H (Journaled R) α).Achieves view call about Q w := by
  obtain ⟨a, rfl, ha⟩ := h
  exact .pure ha

end Achieves

end Operation

namespace Coordinator

open Operation

variable {c : Coordinator C H R} {target : Status}

/-- The call has stored this version, which has this identifier and this status. -/
def Leaves (call : Nat) (id : Uuid) (status : Status) (s : Instance) (j : Journal) : Prop :=
  ⟨call, .stored s⟩ ∈ j ∧ s.id = id ∧ s.status = status

theorem lasting_leaves (call : Nat) (id : Uuid) (status : Status) (s : Instance) :
    Journal.Lasting (Leaves call id status s) :=
  fun _ _ _ ⟨hmem, h⟩ hgrows => ⟨hgrows.mem hmem, h⟩

theorem persist_achieves (hlaw : c.repository.Lawful view) {id : Uuid} {status : Status}
    (h : w.store.journal.Ready call id status s) :
    ((c.journaled call).persist s).Achieves view call about
      (fun s' => Leaves call id status s') w := by
  have hask : Course.Fulfils view call about (fun p j => p.Noted call s j ∧ True)
      (Course.update (onStore ((c.journaled call).repository.persist s)) :
        Errand C H (Journaled R) _) w :=
    Journaled.persist_fulfils hlaw Journal.lasting_true h.mayStore trivial
  refine (Achieves.ofErrand hask).bind fun p v ⟨hp, _⟩ => ?_
  cases p with
  | stored s' =>
    obtain ⟨rfl, hmem⟩ := hp s' rfl
    exact .pure ⟨hmem, h.id, h.status⟩
  | refused fault => exact .refused fault
  | exhausted => exact .crash _

/-- A version that may be stored is stored, and told to the notifier. -/
theorem file_achieves (hlaw : c.repository.Lawful view) (notice : Instance → Notice) {id : Uuid}
    {status : Status} (h : w.store.journal.Ready call id status s) :
    (do
      let s ← (c.journaled call).persist s
      (c.journaled call).tell (notice s)
      return s : Operation C H (Journaled R) Instance).Achieves view call about
        (fun s' => Leaves call id status s') w := by
  refine (persist_achieves hlaw h).bind fun s' v hs' => ?_
  have htell : (c.journaled call).tell (C := C) (notice s') |>.Achieves view call about
      (fun _ => Leaves call id status s') v :=
    .ofErrand (.modify (fun _ => Notifier.tell_store ..)
      ((lasting_leaves call id status s').steady call) hs')
  exact htell.bind fun _ _ hs' => .pure hs'

/-- The end of a run is stored with the status that it means. -/
theorem settle_achieves (hlaw : c.repository.Lawful view) {outcome : RunOutcome}
    (h : w.store.journal.Drives call s) :
    ((c.journaled call).settle s outcome).Achieves view call about
      (fun s' => Leaves call s.id outcome.status s') w := by
  have hnow : (Operation.now : Operation C H (Journaled R) Timestamp).Achieves view call about
      (fun _ => (·.Drives call s)) w := .now ((Journal.lasting_drives call s).steady call) h
  let Q (s' : Instance) (j : Journal) : Prop := j.Ready call s.id outcome.status s'
  cases outcome with
  | completed =>
    refine hnow.bind fun now v h => ?_
    exact (Achieves.moved (Q := Q) (h.transition rfl now)).bind fun s' v hs' =>
      file_achieves hlaw .completed ⟨hs'.mayStore, hs'.id, hs'.status⟩
  | failed failure =>
    refine hnow.bind fun now v h => ?_
    exact (Achieves.moved (Q := Q) (h.transition rfl now)).bind fun s' v hs' =>
      file_achieves hlaw (.errored · failure.text) ⟨hs'.mayStore, hs'.id, hs'.status⟩
  | suspended wait =>
    refine hnow.bind fun now v h => ?_
    split
    · exact .crash _
    · exact (Achieves.moved (Q := Q) (h.enterWait ..)).bind fun s' v hs' =>
        file_achieves hlaw .approvalRequested hs'

/-- What a call that has driven an instance has done about it: it has stored where the run has
stopped, or that it was cancelled, or it says what kept it from that. -/
def Parts (kind : ContextKind C) (call : Nat) (id : Uuid) :
    Except CoordinatorError (Driven C) → Journal → Prop
  | .ok driven, j => Leaves call id driven.result.outcome.status driven.state j
  | .error (.cancelled i), j => i = id ∧ ∃ s, Leaves call id .cancelled s j
  | .error .serialization, _ => ∃ context, kind.encode context = none
  | .error (.repository _), _ => True
  | .error _, _ => False

theorem settleCancelled_parts (hlaw : c.repository.Lawful view)
    (h : w.store.journal.Drives call s) :
    Course.Fulfils view call about (Parts c.kind call s.id)
      ((c.journaled call).settleCancelled s).run w := by
  have hnow : (Operation.now : Operation C H (Journaled R) Timestamp).Achieves view call about
      (fun _ => (·.Drives call s)) w := .now ((Journal.lasting_drives call s).steady call) h
  let Q (s' : Instance) (j : Journal) : Prop := j.Ready call s.id .cancelled s'
  refine hnow.andThen (fun _ _ => trivial) fun now v h => ?_
  refine (Achieves.moved (Q := Q) (h.transition rfl now)).andThen (fun _ _ => trivial)
    fun s' v hs' => ?_
  refine (persist_achieves (s := { s' with error := some "cancelled" }) hlaw
    ⟨hs'.mayStore, hs'.id, hs'.status⟩).andThen (fun _ _ => trivial) fun t v ht => ?_
  have htell : (announce t.id .runCancelled : Operation C H (Journaled R) Unit).Achieves view call
      about (fun _ => Leaves call s.id .cancelled t) v :=
    .ofErrand (.modify (f := World.publish ⟨t.id, .runCancelled⟩) (fun _ => rfl)
      ((lasting_leaves call s.id .cancelled t).steady call) ht)
  exact htell.andThen (fun _ _ => trivial) fun _ v ht => ⟨ht.2.1, t, ht⟩

/-- A call that returns from driving an instance has stored where the run has stopped. -/
theorem drive_parts (hlaw : c.repository.Lawful view) (d : Definition C H) (context : C)
    (start : StartPoint) (h : Held call about s.id s w.store.journal) :
    Course.Fulfils view call about (Parts c.kind call s.id)
      ((c.journaled call).drive d s context start).run w := by
  refine (Achieves.ofErrand (run_fulfils hlaw d start context h)).andThen (fun _ _ => trivial)
    fun r v hr => ?_
  obtain ⟨last, result⟩ := r
  obtain ⟨-, hid, hdrives⟩ := hr
  cases result with
  | none => exact hid ▸ settleCancelled_parts hlaw hdrives
  | some result =>
    have hencode : (c.journaled call).kind.encode result.context = c.kind.encode result.context :=
      rfl
    cases hcontext : c.kind.encode result.context with
    | none =>
      simp only [hencode, hcontext]
      exact ⟨result.context, hcontext⟩
    | some context =>
      simp only [hencode, hcontext]
      let report : Instance :=
        { last with context, history := last.history.take s.history.length ++ result.trace }
      have hsettle : ((c.journaled call).settle report result.outcome).Achieves view call about
          (fun s' => Leaves call s.id result.outcome.status s') v :=
        hid ▸ settle_achieves (s := report) hlaw (hdrives.congr rfl rfl rfl)
      have hdriven : Course.Fulfils view call about (Parts c.kind call s.id)
          ((c.journaled call).settle report result.outcome >>=
            fun state => Pure.pure { state, result }).run v :=
        hsettle.andThen (fun _ _ => trivial) fun s' v hs' => hs'
      exact hdriven

end Coordinator

end DurableWorkflow
