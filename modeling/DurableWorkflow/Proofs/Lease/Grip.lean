import DurableWorkflow.Proofs.Coordinator.Abides
import DurableWorkflow.Proofs.Coordinator.Calls

/-!
# How a call holds a lease

A call of a coordinator takes the lease on an instance at most once, or meets somebody else's; it is
on a run only of an instance that it has the lease on; and whatever it ends with, also if it
crashes, it has released what it had taken (`Coordinator.course_abides`). A call says that the
instance is busy, or passes on the wish to cancel it, only if it has met the lease of another.
-/

namespace DurableWorkflow

variable {C H R α : Type} {view : R → Uuid → Option Instance}

/-! ### Leases of one coordinator -/

namespace World

variable {w v : World R H} {number operation : Nat} {id : Uuid}

/-- Which operations of a coordinator have been given the leases on which instances. -/
def grants (number : Nat) (w : World R H) : List (Uuid × Nat) :=
  (w.leases.filter (·.coordinator == number)).map fun l => (l.instanceId, l.operation)

theorem mem_grants {operation : Nat} : (id, operation) ∈ w.grants number ↔
    ∃ l ∈ w.leases, l.coordinator = number ∧ l.instanceId = id ∧ l.operation = operation := by
  simp [grants, and_assoc]

theorem isSome_lease? : (w.lease? number id).isSome ↔ ∃ operation, (id, operation) ∈ w.grants number := by
  simp only [lease?, List.find?_isSome, Bool.and_eq_true, beq_iff_eq, mem_grants]
  constructor
  · rintro ⟨l, hl, hnumber, hid⟩
    exact ⟨l.operation, l, hl, hnumber, hid, rfl⟩
  · rintro ⟨_, l, hl, hnumber, hid, -⟩
    exact ⟨l, hl, hnumber, hid⟩

theorem lease?_eq_none : w.lease? number id = none ↔
    ∀ operation, (id, operation) ∉ w.grants number := by
  rw [← Option.not_isSome_iff_eq_none, isSome_lease?, not_exists]

theorem grants_release : (release operation w).grants number =
    (w.grants number).filter (·.2 != operation) := by
  simp only [grants, release, List.filter_filter, List.filter_map]
  congr 1
  exact List.filter_congr fun l _ => Bool.and_comm _ _

theorem mem_grants_release {o : Nat} :
    (id, o) ∈ (release operation w).grants number ↔ (id, o) ∈ w.grants number ∧ o ≠ operation := by
  simp [grants_release]

theorem requestCancel_store : (requestCancel number id w).2.store = w.store := by
  unfold requestCancel
  split <;> rfl

/-- To ask somebody to cancel takes no lease away. -/
theorem grants_requestCancel : (requestCancel number id w).2.grants number = w.grants number := by
  unfold requestCancel
  cases w.lease? number id with
  | none => rfl
  | some l =>
    simp only [grants, List.filter_map, List.map_map]
    have hsame (p : Lease → Bool) (hp : ∀ l : Lease, p { l with cancelled := true } = p l) :
        (p ∘ fun l : Lease => if l.coordinator == number && l.instanceId == id then
          { l with cancelled := true } else l) = p := by
      funext l
      simp only [Function.comp_apply]
      split
      · exact hp l
      · rfl
    rw [hsame _ fun _ => rfl]
    refine List.map_congr_left fun l _ => ?_
    simp only [Function.comp_apply]
    split <;> rfl

end World

/-! ### Stages of a call -/

/-- Where a call stands with the lease. -/
inductive Grip where
  | free
  | holds (id : Uuid)
  /-- The lease has been given to another. -/
  | met (id : Uuid)
  /-- All is released; perhaps a lease was met before. -/
  | ended (met : Option Uuid)

namespace Grip

/-- The lease of another that was met. -/
def met? : Grip → Option Uuid
  | met id => some id
  | ended m => m
  | _ => none

/-- What an action of an operation does to the leases of its coordinator. -/
inductive Acts (number operation : Nat) (w v : World R H) : Grip → Grip → Prop
  | keep (g : Grip) (h : v.grants number = w.grants number) : Acts number operation w v g g
  | take (id : Uuid) (hfree : w.lease? number id = none)
    (h : v.grants number = (id, operation) :: w.grants number) :
    Acts number operation w v .free (.holds id)
  | meet (id : Uuid) (hbusy : (w.lease? number id).isSome)
    (h : v.grants number = w.grants number) : Acts number operation w v .free (.met id)
  | give (g : Grip) (h : v.grants number = (w.grants number).filter (·.2 != operation)) :
    Acts number operation w v g (.ended g.met?)

end Grip

/-- What is found under an identifier has this identifier. -/
def Keyed (view : R → Uuid → Option Instance) (r : R) : Prop := ∀ id s, view r id = some s → s.id = id

theorem Keyed.of_eq {r r' : R} (h : Keyed view r) (heq : view r' = view r) : Keyed view r' := by
  unfold Keyed
  rw [heq]
  exact h

theorem Keyed.stored {r r' : R} {s : Instance} (h : Keyed view r)
    (hview : ∀ id, view r' id = if s.id = id then some s else view r id) : Keyed view r' := by
  intro id t ht
  rw [hview] at ht
  split at ht
  · next hid =>
    cases ht
    exact hid
  · exact h id t ht

namespace Repository.Lawful

variable {repository : Repository R} {r : R} {s : Instance}

theorem keyed_persist (hlaw : repository.Lawful view) (h : Keyed view r) :
    Keyed view (repository.persist s r).2 := by
  obtain ⟨-, -, hview⟩ | ⟨-, hsame⟩ := hlaw.persist_cases s r
  · exact h.stored (s := { s with revision := s.revision + 1 }) hview
  · exact h.of_eq hsame

theorem keyed_save (hlaw : repository.Lawful view) (h : Keyed view r) :
    Keyed view (repository.save s r).2 :=
  (hlaw.save s r).elim (fun _ _ hsame => h.of_eq hsame) fun _ _ hsaved => h.stored hsaved.2

theorem keyed_get (hlaw : repository.Lawful view) (id : Uuid) (h : Keyed view r) :
    Keyed view (repository.get id r).2 ∧
      ∀ s, (repository.get id r).1 = .ok (some s) → s.id = id := by
  refine (hlaw.get id r).elim (fun fault hget hsame => ⟨h.of_eq hsame, by simp [hget]⟩)
    fun found hget hfound => ⟨h.of_eq hfound.1, fun s hs => ?_⟩
  rw [hget] at hs
  exact h id s (hfound.2 s (Except.ok.inj hs))

end Repository.Lawful

/-- The stages of an operation of a coordinator. Only whoever has the lease on an instance may be on
a run of it. -/
def gripping (C H : Type) (view : R → Uuid → Option Instance) (number operation : Nat) :
    Protocol (World R H) (Board C H Instance) Grip where
  good w := Keyed view w.store
  act g w v g' := Grip.Acts number operation w v g g' ∧ (Keyed view w.store → Keyed view v.store)
  pace _ w v := v.grants number = w.grants number ∧ (Keyed view w.store → Keyed view v.store)
  aboard g b := g = .holds b.extra.id ∧ b.extra.status = .running
  ashore g := g
  pace_refl _ _ := ⟨rfl, id⟩

/-- An operation says that an instance is busy only if it has met the lease of another. -/
def Apart (e : CoordinatorError) (g : Grip) : Prop := ∀ id, e = .busy id → g = .met id

/-- All is released, and what `D` holds of has been met. -/
def Left (D : Uuid → Prop) (g : Grip) : Prop := ∃ m, g = .ended m ∧ ∀ id, D id → m = some id

theorem Left.mono {D D' : Uuid → Prop} {g : Grip} (h : Left D g) (hd : ∀ id, D' id → D id) :
    Left D' g := by
  obtain ⟨m, rfl, hm⟩ := h
  exact ⟨m, rfl, fun id hid => hm id (hd id hid)⟩

namespace Operation

/-- From this stage on the operation keeps to the stages, and ends in `Q`, unless with an error. -/
abbrev Grips (view : R → Uuid → Option Instance) (number operation : Nat) (Q : α → Grip → Prop)
    (op : Operation C H R α) (g : Grip) : Prop :=
  op.Abides (gripping C H view number operation) (fun _ => True) Apart Q g

/-- From its beginning on the operation keeps to the stages, and it leaves no lease behind. -/
abbrev Leaves (view : R → Uuid → Option Instance) (number operation : Nat)
    (D : α → Uuid → Prop) (op : Operation C H R α) : Prop :=
  op.Abides (gripping C H view number operation) (Left fun _ => False)
    (fun e => Left (e = .busy ·)) (fun a => Left (D a)) .free

end Operation

namespace Coordinator

variable {c : Coordinator C H R} {id : Uuid} {operation : Nat}

theorem gripping_sails (hlaw : c.repository.Lawful view) (g : Graph C H) :
    (gripping C H view c.number operation).Sails c id g (.holds id) where
  within := {
    board := fun b b' w hnear _ hb => ⟨⟨rfl, fun h => h⟩, by
      obtain ⟨hid, hstatus⟩ := hb
      exact ⟨by rw [hnear.extra]; exact hid, by rw [hnear.extra]; exact hstatus⟩⟩
    enter := fun _ _ _ _ _ _ hb => ⟨⟨rfl, fun h => h⟩, hb⟩
    publish := fun _ _ _ _ _ hb => ⟨⟨rfl, fun h => h⟩, hb⟩
    memory := fun _ _ _ _ _ hb => ⟨⟨rfl, fun h => h⟩, hb⟩
    note := fun _ _ _ _ hb => ⟨⟨rfl, fun h => h⟩, hb⟩
    save := fun p b w x w' hsave _ hb => by
      obtain ⟨hid, hstatus, hw⟩ := of_save hsave
      obtain ⟨hholds, hrunning⟩ := hb
      refine ⟨?_, by rw [hholds, ← hid], hstatus.trans hrunning⟩
      obtain rfl | ⟨t, rfl⟩ := hw
      · exact ⟨rfl, fun h => h⟩
      · exact ⟨rfl, hlaw.keyed_persist⟩ }
  extra b b' hb heq := by
    obtain ⟨hholds, hrunning⟩ := hb
    exact ⟨by rw [heq]; exact hholds, by rw [heq]; exact hrunning⟩
  running _ hb := hb.2
  read _ _ := ⟨.keep _ rfl, fun h => h⟩
  publish _ _ _ _ := ⟨.keep _ rfl, fun h => h⟩

theorem revive_ne_busy {s : Instance} {now : Timestamp} (id : Uuid) :
    revive s now ≠ .error (.busy id) := by
  unfold revive
  split
  · exact nofun
  · split <;> exact nofun
  · exact nofun
  · exact nofun

theorem gripping_easy (hlaw : c.repository.Lawful view) (id : Uuid) :
    (gripping C H view c.number operation).Easy c (fun _ => True) Apart (.holds id) where
  persist s w _ := ⟨.keep _ rfl, hlaw.keyed_persist⟩
  tell n w _ := ⟨.keep _ (by simp only [World.grants, Notifier.tell_leases]), by
    rw [Notifier.tell_store]
    exact fun h => h⟩
  publish _ _ _ := ⟨.keep _ rfl, fun h => h⟩
  crash := trivial
  repository _ _ := nofun
  serialization _ := nofun
  cancelled _ _ := nofun

theorem drive_grips (hlaw : c.repository.Lawful view) {s : Instance} (hs : s.status = .running)
    (d : Definition C H) (context : C) (start : StartPoint) :
    (c.drive d s context start).Grips view c.number operation (fun _ g => g = .holds s.id)
      (.holds s.id) :=
  drive_abides (gripping_sails hlaw d.graph) (gripping_sails hlaw d.graph) (gripping_easy hlaw s.id)
    rfl rfl (fun _ h => h) context start ⟨rfl, hs⟩

/-! ### Calls -/

/-- What is asked of a coordinator. -/
inductive Call (C : Type) where
  | start (definition : String) (context : C)
  | signal (id : Uuid) (name : String) (payload : Json)
  | resume (id : Uuid)
  | cancel (id : Uuid)

namespace Call

def Answer : Call C → Type
  | start .. | signal .. | resume .. => Except CoordinatorError (Driven C)
  | cancel .. => Except CoordinatorError Cancelled

/-- The answer says that somebody else has the lease on the instance. -/
def Declined : (call : Call C) → call.Answer → Uuid → Prop
  | start .., r, id | signal .., r, id | resume _, r, id => r = .error (.busy id)
  | cancel i, r, id => r = .error (.busy id) ∨ r = .ok .requested ∧ id = i

end Call

/-- The course of a call, as the operation of this number. -/
def course (c : Coordinator C H R) (operation : Nat) : (call : Call C) → Errand C H R call.Answer
  | .start definition context => (c.start operation definition context).run
  | .signal id name payload => (c.signal operation id name payload).run
  | .resume id => (c.resume operation id).run
  | .cancel id => (c.cancel operation id).run

/-- What a call has answered that has not failed. -/
def value? : Work.End (Except CoordinatorError α) → Option α
  | .done (.ok a) => some a
  | _ => none

theorem eq_of_value? {e : Work.End (Except CoordinatorError α)} {a : α}
    (h : value? e = some a) : e = .done (.ok a) := by
  unfold value? at h
  split at h
  · cases h
    rfl
  · cases h

/-- However an operation ends, it has released all, and it has met what it says is busy. -/
theorem releasing_grips {op : Operation C H R α} {D : α → Uuid → Prop}
    (h : op.Grips view c.number operation (fun a g => ∀ id, D a id → g = .met id) .free) :
    (Operation.releasing operation op).Leaves view c.number operation D := by
  refine h.releasing (fun r g hr w _ => ?_) fun g _ w _ => ?_
  · refine ⟨.ended g.met?, ⟨.give g World.grants_release, fun h => h⟩, ?_⟩
    cases r with
    | ok a => exact ⟨g.met?, rfl, fun id hd => by rw [hr id hd, Grip.met?]⟩
    | error e => exact ⟨g.met?, rfl, fun id he => by rw [hr id he, Grip.met?]⟩
  · exact ⟨.ended g.met?, ⟨.give g World.grants_release, fun h => h⟩, g.met?, rfl, nofun⟩

theorem acquire_grips (id : Uuid) :
    (c.acquire operation id : Operation C H R Unit).Grips view c.number operation
      (fun _ g => g = .holds id) .free := by
  refine acquire_abides (fun w _ hfree => ?_) fun w _ hbusy => ?_
  · exact ⟨.holds id, ⟨.take id hfree (by simp [World.grants, World.grant]), fun h => h⟩, rfl⟩
  · refine ⟨.met id, ⟨.meet id hbusy rfl, fun h => h⟩, fun id' he => ?_⟩
    cases he
    rfl

theorem load_grips (hlaw : c.repository.Lawful view) (g : Grip) :
    (c.load id : Operation C H R Instance).Grips view c.number operation
      (fun s g' => g' = g ∧ s.id = id) g := by
  refine Operation.Abides.bind (Q := fun found g' => g' = g ∧ ∀ s, found = some s → s.id = id)
    (.request fun w hgood => ?_) fun found g' hfound => ?_
  · obtain ⟨hkeyed, hid⟩ := hlaw.keyed_get id hgood
    refine ⟨g, ⟨.keep g rfl, fun _ => hkeyed⟩, ?_⟩
    cases hget : (c.repository.get id w.store).1 with
    | error fault => exact nofun
    | ok found =>
      rw [hget] at hid
      exact ⟨rfl, fun s hs => hid s (by rw [hs])⟩
  · obtain ⟨rfl, hid⟩ := hfound
    exact .orThrow (fun s hs => ⟨rfl, hid s hs⟩) fun _ => nofun

theorem persist_grips (hlaw : c.repository.Lawful view) (s : Instance) (g : Grip) :
    (c.persist s).Grips (C := C) (H := H) view c.number operation
      (fun s' g' => g' = g ∧ s'.id = s.id ∧ s'.status = s.status) g := by
  refine Operation.Abides.mono (persist_onward (q := g)
    (fun _ _ => ⟨.keep g rfl, hlaw.keyed_persist⟩) (fun _ => nofun) trivial) fun s' g' hs => ?_
  obtain ⟨rfl, rfl⟩ := hs
  exact ⟨rfl, rfl, rfl⟩

theorem now_grips (g : Grip) :
    (Operation.now : Operation C H R Timestamp).Grips view c.number operation
      (fun _ g' => g' = g) g := .now fun _ _ => ⟨.keep g rfl, fun h => h⟩

theorem announce_grips (id : Uuid) (what : Happening) (g : Grip) :
    (Operation.announce id what : Operation C H R Unit).Grips view c.number operation
      (fun _ g' => g' = g) g := .modify fun _ _ => ⟨.keep g (by rfl), fun h => h⟩

theorem definitionFor_grips (s : Instance) (g : Grip) :
    (c.definitionFor s : Operation C H R (Definition C H)).Grips view c.number operation
      (fun _ g' => g' = g) g := by
  refine Operation.Abides.onward (q := g) (.orThrow (fun _ _ => rfl) fun _ => nofun) fun d => ?_
  split
  · exact .pure rfl
  · exact .throw nofun

/-- A running instance under the lease is stored once more, and goes on under the lease. -/
theorem claim_grips (hlaw : c.repository.Lawful view) {s : Instance} (hs : s.status = .running)
    {k : Instance → Operation C H R α} {Q : α → Grip → Prop}
    (hk : ∀ s', s'.status = .running → (k s').Grips view c.number operation Q (.holds s'.id)) :
    (c.persist s >>= k).Grips view c.number operation Q (.holds s.id) := by
  refine (persist_grips hlaw s _).bind fun s' g hs' => ?_
  obtain ⟨rfl, hid, hstatus⟩ := hs'
  rw [← hid]
  exact hk s' (hstatus.trans hs)

theorem start_grips (hlaw : c.repository.Lawful view) (definition : String) (context : C) :
    (c.start operation definition context).Leaves view c.number operation
      fun _ _ => False := by
  refine releasing_grips (D := fun _ _ => False) ?_
  refine Operation.Abides.onward (q := .free) (.orThrow (fun _ _ => rfl) fun _ => nofun) fun d => ?_
  refine Operation.Abides.onward (q := .free) (.orThrow (fun _ _ => rfl) fun _ => nofun)
    fun encoded => ?_
  refine Operation.Abides.onward (q := .free)
    (.update fun w _ => ⟨.free, ⟨.keep _ rfl, fun h => h⟩, rfl⟩) fun id => ?_
  refine (now_grips .free).onward fun now => ?_
  refine Operation.Abides.onward (q := .free) (.request fun w _ => ?_) fun _ => ?_
  · refine ⟨.free, ⟨.keep _ rfl, hlaw.keyed_save⟩, ?_⟩
    cases (c.repository.save _ w.store).1 with
    | error fault => exact nofun
    | ok _ => rfl
  refine (acquire_grips id).onward fun _ => ?_
  refine Operation.Abides.bind (Q := fun s g => g = .holds id ∧ s.id = id ∧ s.status = .running)
    (.moved (fun s hs => ?_) fun _ _ => nofun) fun s g hs => ?_
  · obtain ⟨hid, -, -, hstatus⟩ := Instance.of_transition hs
    exact ⟨rfl, hid, hstatus⟩
  obtain ⟨rfl, rfl, hrunning⟩ := hs
  exact claim_grips hlaw hrunning fun s' hs' =>
    (drive_grips hlaw hs' d context .root).mono fun _ _ _ => nofun

theorem signal_grips (hlaw : c.repository.Lawful view) (name : String) (payload : Json) :
    (c.signal operation id name payload).Leaves view c.number operation
      fun _ _ => False := by
  refine releasing_grips (D := fun _ _ => False) ((acquire_grips id).onward fun _ => ?_)
  refine (load_grips hlaw _).bind fun s g hs => ?_
  obtain ⟨rfl, rfl⟩ := hs
  refine Operation.Abides.onward (q := .holds s.id) (.orThrow (fun _ _ => rfl) fun _ => nofun)
    fun node => ?_
  refine (definitionFor_grips s _).onward fun d => ?_
  refine Operation.Abides.onward (q := .holds s.id) (.orThrow (fun _ _ => rfl) fun _ => nofun)
    fun context => ?_
  refine (now_grips _).onward fun now => ?_
  refine Operation.Abides.bind (Q := fun s' g => g = .holds s'.id ∧ s'.status = .running)
    (.moved (fun s' hs' => ?_) fun _ _ => nofun) fun s' g hs' => ?_
  · obtain ⟨hid, -, -, hstatus⟩ := Instance.of_acceptSignal hs'
    exact ⟨by rw [hid], hstatus⟩
  obtain ⟨rfl, hrunning⟩ := hs'
  refine claim_grips hlaw hrunning fun t ht => ?_
  refine (announce_grips _ _ _).onward fun _ => ?_
  exact (drive_grips hlaw ht d context _).mono fun _ _ _ => nofun

theorem resume_grips (hlaw : c.repository.Lawful view) :
    (c.resume operation id).Leaves view c.number operation
      fun _ _ => False := by
  refine releasing_grips (D := fun _ _ => False) ((acquire_grips id).onward fun _ => ?_)
  refine (load_grips hlaw _).bind fun s g hs => ?_
  obtain ⟨rfl, rfl⟩ := hs
  refine (now_grips _).onward fun now => ?_
  refine Operation.Abides.bind (Q := fun s' g => g = .holds s'.id ∧ s'.status = .running)
    (.lift (fun s' hs' => ?_) fun e he => ?_) fun s' g hs' => ?_
  · obtain ⟨hid, -, -, hstatus⟩ := of_revive hs'
    exact ⟨by rw [hid], hstatus⟩
  · rintro i rfl
    exact absurd he (revive_ne_busy i)
  obtain ⟨rfl, hrunning⟩ := hs'
  refine (definitionFor_grips s' _).onward fun d => ?_
  refine Operation.Abides.onward (q := .holds s'.id) (.orThrow (fun _ _ => rfl) fun _ => nofun)
    fun context => ?_
  exact claim_grips hlaw hrunning fun t ht =>
    (drive_grips hlaw ht d context _).mono fun _ _ _ => nofun

/-- A wish to cancel is passed on only to whoever has the lease. -/
theorem cancel_grips (hlaw : c.repository.Lawful view) :
    (c.cancel operation id : Operation C H R Cancelled).Leaves view c.number operation
      fun a i => a = .requested ∧ i = id := by
  refine releasing_grips (Operation.Abides.bind (Q := fun free g =>
    g = if free then .holds id else .met id)
    (acquireOrCancel_abides (fun w _ hfree => ?_) fun w _ hbusy => ?_) fun free g hg => ?_)
  · exact ⟨.holds id, ⟨.take id hfree (by simp [World.grants, World.grant]), fun h => h⟩, rfl⟩
  · refine ⟨.met id, ⟨.meet id hbusy World.grants_requestCancel, fun h => ?_⟩, rfl⟩
    rw [World.requestCancel_store]
    exact h
  subst hg
  cases free with
  | false =>
    refine .pure fun i hi => ?_
    rw [hi.2]
    rfl
  | true =>
    refine (load_grips hlaw _).bind fun s g hs => ?_
    obtain ⟨rfl, rfl⟩ := hs
    refine (now_grips _).onward fun now => ?_
    refine Operation.Abides.onward (q := .holds s.id) (.moved (fun _ _ => rfl) fun _ _ => nofun)
      fun s' => ?_
    refine (persist_grips hlaw s' _).bind fun s' g hs' => ?_
    obtain ⟨rfl, -, -⟩ := hs'
    refine Operation.Abides.onward (q := .ended none)
      (.modify fun w _ => ⟨.give _ World.grants_release, fun h => h⟩) fun _ => ?_
    exact (announce_grips _ _ _).onward fun _ => .pure nofun

/-- At the end of an operation. -/
theorem ends_leaves {op : Operation C H R α} {D : α → Uuid → Prop}
    (h : op.Leaves view c.number operation D) :
    op.run.Abides (gripping C H view c.number operation)
      (fun r => Left fun id => r = .error (.busy id) ∨ ∃ a, r = .ok a ∧ D a id)
      (Left fun _ => False) .free := by
  refine Course.Abides.mono h fun r g hr => ?_
  cases r with
  | ok a =>
    refine Left.mono hr fun id hid => ?_
    obtain he | ⟨a', ha, hd⟩ := hid
    · cases he
    · exact Except.ok.inj ha ▸ hd
  | error e =>
    refine Left.mono hr fun id hid => ?_
    obtain he | ⟨a', ha, -⟩ := hid
    · exact Except.error.inj he
    · cases ha

/-- Whatever is asked, and however the call ends. -/
theorem course_leaves (hlaw : c.repository.Lawful view) (call : Call C) :
    (c.course operation call).Abides (gripping C H view c.number operation)
      (fun r => Left (call.Declined r)) (Left fun _ => False) .free := by
  cases call with
  | start definition context =>
    exact (ends_leaves (start_grips hlaw definition context)).mono
      fun _ _ hr => hr.mono fun _ => .inl
  | signal id name payload =>
    exact (ends_leaves (signal_grips hlaw name payload)).mono fun _ _ hr => hr.mono fun _ => .inl
  | resume id => exact (ends_leaves (resume_grips hlaw)).mono fun _ _ hr => hr.mono fun _ => .inl
  | cancel id =>
    exact (ends_leaves (cancel_grips hlaw)).mono fun _ _ hr => hr.mono fun _ hid =>
      hid.imp (fun he => he) fun h => ⟨_, h.1, rfl, h.2⟩

end Coordinator

end DurableWorkflow
