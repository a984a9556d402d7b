import DurableWorkflow.Proofs.Coordinator.Calls
import DurableWorkflow.Proofs.Course.Moves
import DurableWorkflow.Proofs.Course.Protocol
import DurableWorkflow.Proofs.Instance.Move

/-!
# Courses that are sure to come to a value

`c.Secures drift Q w` says of a course that acts and waits, and neither walks nor performs work,
that from the world `w` on it cannot crash, and that `Q` holds where it comes to its value, whatever
the others make of the world by `drift` between its actions. Wherever such a course stands, it has
come to its value or can go on (`Secures.moves`).
-/

namespace DurableWorkflow

variable {ω τ β α γ : Type} {drift : ω → ω → Prop}

/-- From this world on the course does not crash, and ends in `Q`. -/
def Course.Secures (drift : ω → ω → Prop) (Q : α → ω → Prop) : Course ω τ β α → ω → Prop
  | .done a, w => Q a w
  | .crash _, _ => False
  | .act f rest, w => ∀ v, Drifts drift w v → (rest v).Secures drift Q (f v)
  | .wait _ rest, w => rest.Secures drift Q w
  | .walk .., _ | .perform .., _ => False

namespace Course.Secures

variable {Q : α → ω → Prop} {S : γ → ω → Prop} {c d : Course ω τ β α} {w v : ω}

theorem stable (hQ : ∀ {a w v}, Q a w → drift w v → Q a v) (h : c.Secures drift Q w)
    (hv : drift w v) : c.Secures drift Q v := by
  induction c generalizing w with
  | done a => exact hQ h hv
  | act f rest ih => exact fun u hu => h u (.head hv hu)
  | wait d rest ih => exact ih h hv
  | crash | walk | perform => exact h

theorem bind {k : α → Course ω τ β γ} (h : c.Secures drift Q w)
    (hk : ∀ a v, Q a v → (k a).Secures drift S v) : (c.bind k).Secures drift S w := by
  induction c generalizing w with
  | done a => exact hk a w h
  | act f rest ih => exact fun v hv => ih v (h v hv)
  | wait d rest ih => exact ih h
  | crash | walk | perform => exact h

theorem mono {Q' : α → ω → Prop} (h : c.Secures drift Q w) (hQ : ∀ a v, Q a v → Q' a v) :
    c.Secures drift Q' w := by
  rw [← bind_done c]
  exact h.bind hQ

theorem modify {f : ω → ω} {Q : Unit → ω → Prop} (h : ∀ v, Drifts drift w v → Q () (f v)) :
    (Course.modify f : Course ω τ β Unit).Secures drift Q w := h

theorem read {f : ω → α} (h : ∀ v, Drifts drift w v → Q (f v) v) :
    (Course.read f : Course ω τ β α).Secures drift Q w := h

theorem update {f : ω → α × ω} (h : ∀ v, Drifts drift w v → Q (f v).1 (f v).2) :
    (Course.update f : Course ω τ β α).Secures drift Q w := h

theorem step (h : c.Secures drift Q w) (hstep : Course.Step (c, w) (d, v)) :
    d.Secures drift Q v := by
  cases hstep with
  | act => exact h w .refl
  | wait => exact h
  | walk | arrive | late | work | done | crash => exact h.elim

/-- Wherever the course has come to, it is at its value or can go on. -/
theorem moves (hQ : ∀ {a w v}, Q a w → drift w v → Q a v) (h : c.Secures drift Q w)
    (hmoves : Moves drift Course.Step (c, w) (d, v)) :
    (∃ a, d = .done a ∧ Q a v) ∨ ∃ y, Course.Step (d, v) y := by
  have hall : ∀ y, Moves drift Course.Step (c, w) y → y.1.Secures drift Q y.2 := by
    intro y hy
    induction hy with
    | refl => exact h
    | @tail x y _ hmove ih =>
      rcases hmove with hstep | ⟨hsame, hdrift⟩
      · exact ih.step hstep
      · rw [hsame]
        exact ih.stable hQ hdrift
  have hd : d.Secures drift Q v := hall _ hmoves
  by_cases hdone : ∃ a, d = .done a
  · obtain ⟨a, rfl⟩ := hdone
    exact .inl ⟨a, rfl, hd⟩
  · refine .inr (Course.exists_step v d (fun a ha => hdone ⟨a, ha⟩) fun m hm => ?_)
    rw [hm] at hd
    exact hd

end Course.Secures

end DurableWorkflow

/-!
### The turns of a sweep

A sweep works on a list that goes stale. It takes the expired instances of the list one after the
other, and each turn is one write: where the instance is stored as it was listed, its wait is ended,
and where it has changed, it is left alone. Between these actions others may do what they like, as
long as they do not put back what they have changed (`Fate`). `Turns` is such a row of turns, and
every sweep is one, up to an instance that is gone (`sweep_secures`).
-/

namespace DurableWorkflow

variable {R C H : Type} {view : R → Uuid → Option Instance}

/-! ### Repositories that answer -/

/-- Nothing goes wrong but that an instance has changed or is gone. -/
structure Repository.Prompt (repository : Repository R) (view : R → Uuid → Option Instance) :
    Prop where
  listWaiting : ∀ r, ∃ listed, (repository.listWaiting none r).1 = .ok listed ∧
    (listed.map (·.id)).Nodup ∧ ∀ s, s ∈ listed ↔ view r s.id = some s ∧ s.status = .waiting
  update : ∀ s t r, view r s.id = some t → (repository.update s t.revision r).1 = .ok ()
  stale : ∀ s t expected r, view r s.id = some t → t.revision ≠ expected →
    ∃ message, (repository.update s expected r).1 = .error (.conflict message)
  gone : ∀ s expected r, view r s.id = none → (repository.update s expected r).1 = .error .notFound

namespace Repository.Prompt

variable {repository : Repository R} {s t : Instance} {r : R}

theorem persist_current (hprompt : repository.Prompt view) (hlaw : repository.Lawful view)
    (hnext : s.revision < lastRevision) (ht : view r s.id = some t)
    (hrevision : t.revision = s.revision) :
    (repository.persist s r).1 = .stored { s with revision := s.revision + 1 } ∧
      ∀ id, view (repository.persist s r).2 id =
        if s.id = id then some { s with revision := s.revision + 1 } else view r id := by
  have hok := hprompt.update { s with revision := s.revision + 1 } t r ht
  have hobeys := hlaw.update { s with revision := s.revision + 1 } t.revision r
  rw [hrevision] at hok hobeys
  simp only [persist, hnext, if_true]
  revert hok hobeys
  generalize repository.update { s with revision := s.revision + 1 } s.revision r = reply
  obtain ⟨answer, r'⟩ := reply
  rintro rfl ⟨-, hview⟩
  exact ⟨rfl, hview⟩

/-- A request that is refused writes nothing. -/
theorem persist_refused {fault : RepositoryFault} (hlaw : repository.Lawful view)
    (hnext : s.revision < lastRevision)
    (h : (repository.update { s with revision := s.revision + 1 } s.revision r).1 = .error fault) :
    (repository.persist s r).1 = .refused fault ∧ view (repository.persist s r).2 = view r := by
  have hobeys := hlaw.update { s with revision := s.revision + 1 } s.revision r
  simp only [persist, hnext, if_true]
  revert h hobeys
  generalize repository.update { s with revision := s.revision + 1 } s.revision r = reply
  obtain ⟨answer, r'⟩ := reply
  rintro rfl hview
  exact ⟨rfl, hview⟩

theorem persist_stale (hprompt : repository.Prompt view) (hlaw : repository.Lawful view)
    (hnext : s.revision < lastRevision) (ht : view r s.id = some t)
    (hrevision : t.revision ≠ s.revision) :
    ∃ message, (repository.persist s r).1 = .refused (.conflict message) ∧
      view (repository.persist s r).2 = view r := by
  obtain ⟨message, hmessage⟩ :=
    hprompt.stale { s with revision := s.revision + 1 } t s.revision r ht hrevision
  exact ⟨message, persist_refused hlaw hnext hmessage⟩

theorem persist_gone (hprompt : repository.Prompt view) (hlaw : repository.Lawful view)
    (hnext : s.revision < lastRevision) (hgone : view r s.id = none) :
    (repository.persist s r).1 = .refused .notFound ∧
      view (repository.persist s r).2 = view r :=
  persist_refused hlaw hnext (hprompt.gone { s with revision := s.revision + 1 } s.revision r hgone)

end Repository.Prompt

namespace Instance

/-- The message of a wait that has taken too long. -/
def timeoutMessage (signal : String) : String := "timed out waiting for signal '" ++ signal ++ "'"

/-- What a waiting instance becomes when its wait is ended. -/
def timedOut (s : Instance) (signal : String) (wall : Timestamp) : Instance :=
  { s with
    status := .timedOut, awaited := none, waitingNode := none, deadline := none, delivered := none
    error := some (timeoutMessage signal), updatedAt := wall, revision := s.revision + 1 }

/-- It can be listed and stored again. -/
structure Waits (s : Instance) : Prop where
  status : s.status = .waiting
  awaited : s.awaited.isSome
  revision : s.revision < Repository.lastRevision

theorem expire_waiting {s : Instance} {signal : String} (hs : s.status = .waiting)
    (hsignal : s.awaited = some signal) (wall : Timestamp) :
    Sweeper.expire s wall = .ok ({ s.timedOut signal wall with revision := s.revision }, signal,
      timeoutMessage signal) := by
  have hallows : s.status.allows .timedOut = true := by rw [hs]; rfl
  have hmoved : s.transition .timedOut wall = .ok { s with
      status := .timedOut, awaited := none, waitingNode := none, deadline := none
      delivered := none, updatedAt := wall } := by
    rw [transition, if_pos hallows, hs]
    rfl
  rw [Sweeper.expire, hmoved, hsignal]
  rfl

end Instance

/-! ### Turns -/

/-- What others make of what is stored where `s` was listed: they leave it, or put a later version
in its place, or take it away, and never bring it back. -/
structure Fate (view : R → Uuid → Option Instance) (drift : World R H → World R H → Prop)
    (fate : Instance → Option Instance → Prop) : Prop where
  same : ∀ s, fate s (some s)
  drift : ∀ {s w v}, drift w v → fate s (view w.store s.id) → fate s (view v.store s.id)
  cases : ∀ {s found}, fate s found →
    found = some s ∨ (∃ t, found = some t ∧ s.revision < t.revision) ∨ found = none

theorem Fate.drifts {drift : World R H → World R H → Prop}
    {fate : Instance → Option Instance → Prop} (hfate : Fate view drift fate) {s : Instance}
    {w v : World R H} (h : Drifts drift w v) (hs : fate s (view w.store s.id)) :
    fate s (view v.store s.id) := by
  induction h with
  | refl => exact hs
  | tail _ hdrift ih => exact hfate.drift hdrift ih

namespace Sweeper

variable {sweeper : Sweeper R} {drift : World R H → World R H → Prop}
  {fate : Instance → Option Instance → Prop} {now : Timestamp}

/-- The world after it is announced that the wait of `s` for `signal` was ended. -/
def told (sweeper : Sweeper R) (s : Instance) (signal : String) (w : World R H) : World R H :=
  sweeper.notifier.tell (.errored s (Instance.timeoutMessage signal))
    (w.publish ⟨s.id, .runTimedOut signal⟩)

theorem told_store (s : Instance) (signal : String) (w : World R H) :
    (sweeper.told s signal w).store = w.store := Notifier.tell_store ..

/-- One turn after the other, each for a listed instance, with a mark if its wait was ended. -/
inductive Turns (sweeper : Sweeper R) (view : R → Uuid → Option Instance)
    (drift : World R H → World R H → Prop) :
    List (Instance × Bool) → World R H → World R H → Prop
  | nil {w v : World R H} (h : Drifts drift w v) : Turns sweeper view drift [] w v
  /-- It is stored as it was listed. Its wait is ended, and then this is announced. -/
  | ended {s : Instance} {rest : List (Instance × Bool)} {w u x v : World R H} {store : R}
      {signal : String} {wall : Timestamp} (hw : Drifts drift w u)
      (hfound : view u.store s.id = some s) (hsignal : s.awaited = some signal)
      (hstored : ∀ id, view store id =
        if s.id = id then some (s.timedOut signal wall) else view u.store id)
      (hx : Drifts drift { u with store } x)
      (hrest : Turns sweeper view drift rest (sweeper.told (s.timedOut signal wall) signal x) v) :
    Turns sweeper view drift ((s, true) :: rest) w v
  /-- A later version is stored. It is left alone, and nothing is announced. -/
  | overtaken {s t : Instance} {rest : List (Instance × Bool)} {w u v : World R H} {store : R}
      (hw : Drifts drift w u) (hfound : view u.store s.id = some t)
      (hlater : s.revision < t.revision) (hstored : view store = view u.store)
      (hrest : Turns sweeper view drift rest { u with store } v) :
    Turns sweeper view drift ((s, false) :: rest) w v

/-- The identifiers of those whose waits were ended. -/
def endedIds (turns : List (Instance × Bool)) : List Uuid := (turns.filter (·.2)).map (·.1.id)

/-- How a sweep over expired instances ends. -/
inductive Swept (sweeper : Sweeper R) (view : R → Uuid → Option Instance)
    (drift : World R H → World R H → Prop) (fate : Instance → Option Instance → Prop)
    (expired : List Instance) (w : World R H) :
    Except RepositoryFault (List Uuid) → World R H → Prop
  | all (turns : List (Instance × Bool)) {v : World R H} (hall : turns.map (·.1) = expired)
      (hturns : Turns sweeper view drift turns w v) :
    Swept sweeper view drift fate expired w (.ok (endedIds turns)) v
  /-- One of them is gone, and those after it do not have a turn. -/
  | gone (turns : List (Instance × Bool)) {s : Instance} {after : List Instance} {u v : World R H}
      {store : R} (hall : expired = turns.map (·.1) ++ s :: after)
      (hturns : Turns sweeper view drift turns w u) (hgone : view u.store s.id = none)
      (hfate : fate s none) (hstored : view store = view u.store)
      (hv : Drifts drift { u with store } v) :
    Swept sweeper view drift fate expired w (.error .notFound) v

theorem Turns.head {turns : List (Instance × Bool)} {w u v : World R H} (hw : Drifts drift w u)
    (h : Turns sweeper view drift turns u v) : Turns sweeper view drift turns w v := by
  cases h with
  | nil h => exact .nil (hw.trans h)
  | ended hu hfound hsignal hstored hx hrest =>
    exact .ended (hw.trans hu) hfound hsignal hstored hx hrest
  | overtaken hu hfound hlater hstored hrest =>
    exact .overtaken (hw.trans hu) hfound hlater hstored hrest

theorem Turns.snoc {turns : List (Instance × Bool)} {w u v : World R H}
    (h : Turns sweeper view drift turns w u) (hv : drift u v) :
    Turns sweeper view drift turns w v := by
  induction h with
  | nil h => exact .nil (h.tail hv)
  | ended hu hfound hsignal hstored hx _ ih =>
    exact .ended hu hfound hsignal hstored hx (ih hv)
  | overtaken hu hfound hlater hstored _ ih => exact .overtaken hu hfound hlater hstored (ih hv)

namespace Swept

variable {expired : List Instance} {result : Except RepositoryFault (List Uuid)}
  {w u v : World R H}

theorem head (hw : Drifts drift w u) (h : Swept sweeper view drift fate expired u result v) :
    Swept sweeper view drift fate expired w result v := by
  cases h with
  | all turns hall hturns => exact .all turns hall (hturns.head hw)
  | gone turns hall hturns hgone hfate hstored hv =>
    exact .gone turns hall (hturns.head hw) hgone hfate hstored hv

theorem snoc (h : Swept sweeper view drift fate expired w result u) (hv : drift u v) :
    Swept sweeper view drift fate expired w result v := by
  cases h with
  | all turns hall hturns => exact .all turns hall (hturns.snoc hv)
  | gone turns hall hturns hgone hfate hstored hu =>
    exact .gone turns hall hturns hgone hfate hstored (hu.tail hv)

end Swept

/-- The turn of an instance whose wait is ended comes before the others. -/
theorem Swept.ended {expired : List Instance} {result : Except RepositoryFault (List Uuid)}
    {s : Instance} {w u x v : World R H} {store : R} {signal : String} {wall : Timestamp}
    (hw : Drifts drift w u) (hfound : view u.store s.id = some s)
    (hsignal : s.awaited = some signal) (hstored : ∀ id, view store id =
      if s.id = id then some (s.timedOut signal wall) else view u.store id)
    (hx : Drifts drift { u with store } x)
    (h : Swept sweeper view drift fate expired (sweeper.told (s.timedOut signal wall) signal x)
      result v) :
    Swept sweeper view drift fate (s :: expired) w (result.map (s.id :: ·)) v := by
  cases h with
  | all turns hall hturns =>
    exact .all ((s, true) :: turns) (congrArg (s :: ·) hall)
      (.ended hw hfound hsignal hstored hx hturns)
  | gone turns hall hturns hgone hfate hsame hv =>
    exact .gone ((s, true) :: turns) (congrArg (s :: ·) hall)
      (.ended hw hfound hsignal hstored hx hturns) hgone hfate hsame hv

/-- So does the turn of one that is left alone. -/
theorem Swept.overtaken {expired : List Instance} {result : Except RepositoryFault (List Uuid)}
    {s t : Instance} {w u v : World R H} {store : R} (hw : Drifts drift w u)
    (hfound : view u.store s.id = some t) (hlater : s.revision < t.revision)
    (hstored : view store = view u.store)
    (h : Swept sweeper view drift fate expired { u with store } result v) :
    Swept sweeper view drift fate (s :: expired) w result v := by
  cases h with
  | all turns hall hturns =>
    exact .all ((s, false) :: turns) (congrArg (s :: ·) hall)
      (.overtaken hw hfound hlater hstored hturns)
  | gone turns hall hturns hgone hfate hsame hv =>
    exact .gone ((s, false) :: turns) (congrArg (s :: ·) hall)
      (.overtaken hw hfound hlater hstored hturns) hgone hfate hsame hv

/-! ### A sweep is a row of turns -/

/-- What comes of the attempt to store that the wait of `s` has ended. -/
inductive Tried (view : R → Uuid → Option Instance) (fate : Instance → Option Instance → Prop)
    (s : Instance) (signal : String) (wall : Timestamp) (u : World R H) :
    Persisted → World R H → Prop
  | ended {store : R} (hfound : view u.store s.id = some s)
      (hstored : ∀ id, view store id =
        if s.id = id then some (s.timedOut signal wall) else view u.store id) :
    Tried view fate s signal wall u (.stored (s.timedOut signal wall)) { u with store }
  | overtaken {t : Instance} {store : R} {message : String} (hfound : view u.store s.id = some t)
      (hlater : s.revision < t.revision) (hstored : view store = view u.store) :
    Tried view fate s signal wall u (.refused (.conflict message)) { u with store }
  | gone {store : R} (hgone : view u.store s.id = none) (hfate : fate s none)
      (hstored : view store = view u.store) :
    Tried view fate s signal wall u (.refused .notFound) { u with store }

theorem persist_tried (hlaw : sweeper.repository.Lawful view)
    (hprompt : sweeper.repository.Prompt view) (hfate : Fate view drift fate) {s : Instance}
    (hs : s.Waits) {signal : String} (wall : Timestamp) {u : World R H}
    (hlisted : fate s (view u.store s.id)) :
    Tried view fate s signal wall u
      (Operation.onStore (sweeper.repository.persist
        { s.timedOut signal wall with revision := s.revision }) u).1
      (Operation.onStore (sweeper.repository.persist
        { s.timedOut signal wall with revision := s.revision }) u).2 := by
  let t : Instance := { s.timedOut signal wall with revision := s.revision }
  have hnext : t.revision < Repository.lastRevision := hs.revision
  rcases hfate.cases hlisted with hsame | ⟨later, hfound, hlater⟩ | hgone
  · obtain ⟨hanswer, hstored⟩ := hprompt.persist_current (s := t) hlaw hnext hsame rfl
    rw [Operation.onStore, hanswer]
    exact .ended hsame hstored
  · obtain ⟨message, hanswer, hstored⟩ :=
      hprompt.persist_stale (s := t) hlaw hnext hfound (Nat.ne_of_gt hlater)
    rw [Operation.onStore, hanswer]
    exact .overtaken hfound hlater hstored
  · obtain ⟨hanswer, hstored⟩ := hprompt.persist_gone (s := t) hlaw hnext hgone
    rw [Operation.onStore, hanswer]
    exact .gone hgone (hgone ▸ hlisted) hstored

/-- The result, with the identifiers of those that were ended before. -/
def following (ended : List Uuid) (result : Except RepositoryFault (List Uuid)) :
    Except RepositoryFault (List Uuid) := result.map (ended ++ ·)

theorem following_append (ended : List Uuid) (id : Uuid)
    (result : Except RepositoryFault (List Uuid)) :
    following (ended ++ [id]) result = following ended (result.map (id :: ·)) := by
  cases result with
  | error fault => rfl
  | ok ids => simp [following, Except.map]

theorem sweepListed_secures (hlaw : sweeper.repository.Lawful view)
    (hprompt : sweeper.repository.Prompt view) (hfate : Fate view drift fate) (now : Timestamp)
    (ended : List Uuid) {listed : List Instance} {w : World R H} (hids : (listed.map (·.id)).Nodup)
    (hwaits : ∀ s ∈ listed, s.Waits) (hlisted : ∀ s ∈ listed, fate s (view w.store s.id)) :
    (sweeper.sweepListed now ended listed :
      Errand C H R (Except RepositoryFault (List Uuid))).Secures drift
      (fun a v => ∃ result, a = following ended result ∧
        Swept sweeper view drift fate (listed.filter (·.isWaitExpired now)) w result v) w := by
  induction listed generalizing ended w with
  | nil =>
    refine ⟨.ok [], ?_, .all [] rfl (.nil .refl)⟩
    simp [following, Except.map]
  | cons s rest ih =>
    rw [List.map_cons, List.nodup_cons] at hids
    obtain ⟨hnew, hids⟩ := hids
    have hother {t : Instance} (ht : t ∈ rest) : s.id ≠ t.id := fun h =>
      hnew (h ▸ List.mem_map_of_mem ht)
    have hwaitsrest : ∀ t ∈ rest, t.Waits := fun t ht => hwaits t (List.mem_cons_of_mem _ ht)
    have hlistedrest {u : World R H} (hu : Drifts drift w u) : ∀ t ∈ rest,
        fate t (view u.store t.id) := fun t ht =>
      hfate.drifts hu (hlisted t (List.mem_cons_of_mem _ ht))
    have hs := hwaits s (List.mem_cons_self ..)
    obtain ⟨signal, hsignal⟩ := Option.isSome_iff_exists.1 hs.awaited
    rw [sweepListed]
    split
    · next hexpired =>
      have hfilter : (s :: rest).filter (·.isWaitExpired now) =
          s :: rest.filter (·.isWaitExpired now) := List.filter_cons_of_pos hexpired
      rw [hfilter]
      refine Course.Secures.bind (Q := fun _ v => Drifts drift w v) (.read fun _ hv => hv) ?_
      intro wall v hv
      rw [Instance.expire_waiting hs.status hsignal]
      refine Course.Secures.bind
        (Q := fun p v => ∃ u, Drifts drift w u ∧ Tried view fate s signal wall u p v)
        (.update fun u hu => ⟨u, hv.trans hu, persist_tried hlaw hprompt hfate hs wall
          (hfate.drifts (hv.trans hu) (hlisted s (List.mem_cons_self ..)))⟩) ?_
      rintro p v ⟨u, hu, htried⟩
      cases htried with
      | @ended store hfound hstored =>
        refine Course.Secures.bind (Q := fun _ v => ∃ x, Drifts drift { u with store } x ∧
          v = sweeper.told (s.timedOut signal wall) signal x)
          (.modify fun x hx => ⟨x, hx, rfl⟩) ?_
        rintro - v ⟨x, hx, rfl⟩
        have hlater : ∀ t ∈ rest, fate t (view
            (sweeper.told (s.timedOut signal wall) signal x).store t.id) := fun t ht => by
          rw [told_store]
          refine hfate.drifts hx ?_
          simp only [hstored, hother ht, if_false]
          exact hlistedrest hu t ht
        refine (ih (ended ++ [s.id]) hids hwaitsrest hlater).mono ?_
        rintro a v ⟨result, rfl, hswept⟩
        exact ⟨_, following_append .., hswept.ended hu hfound hsignal hstored hx⟩
      | overtaken hfound hlater hstored =>
        refine (ih ended hids hwaitsrest fun t ht => ?_).mono ?_
        · rw [hstored]
          exact hlistedrest hu t ht
        · rintro a v ⟨result, rfl, hswept⟩
          exact ⟨_, rfl, hswept.overtaken hu hfound hlater hstored⟩
      | gone hgone hnone hstored =>
        exact ⟨_, rfl, .gone [] rfl (.nil hu) hgone hnone hstored .refl⟩
    · next hexpired =>
      have hfilter : (s :: rest).filter (·.isWaitExpired now) =
          rest.filter (·.isWaitExpired now) := List.filter_cons_of_neg hexpired
      rw [hfilter]
      exact ih ended hids hwaitsrest (hlistedrest .refl)

/-- A sweep that began in `w` has listed what waited in `u`, and has ended in `v`. -/
structure Attends (sweeper : Sweeper R) (view : R → Uuid → Option Instance)
    (drift : World R H → World R H → Prop) (fate : Instance → Option Instance → Prop)
    (now : Timestamp) (w u : World R H) (listed : List Instance)
    (result : Except RepositoryFault (List Uuid)) (v : World R H) : Prop where
  before : Drifts drift w u
  answer : (sweeper.repository.listWaiting none u.store).1 = .ok listed
  ids : (listed.map (·.id)).Nodup
  mem : ∀ s, s ∈ listed ↔ view u.store s.id = some s ∧ s.status = .waiting
  same : view (sweeper.repository.listWaiting none u.store).2 = view u.store
  swept : Swept sweeper view drift fate (listed.filter (·.isWaitExpired now))
    { u with store := (sweeper.repository.listWaiting none u.store).2 } result v

/-- Whatever the others do, a sweep lists what waits, and then the expired instances have their
turns. -/
theorem sweep_secures (hlaw : sweeper.repository.Lawful view)
    (hprompt : sweeper.repository.Prompt view) (hfate : Fate view drift fate) (now : Timestamp)
    {w : World R H} (hwaits : ∀ {u s}, Drifts drift w u → view u.store s.id = some s →
      s.status = .waiting → s.Waits) :
    (sweeper.sweep now : Errand C H R (Except RepositoryFault (List Uuid))).Secures drift
      (fun a v => ∃ u listed, sweeper.Attends view drift fate now w u listed a v) w := by
  refine Course.Secures.bind (Q := fun answer v => ∃ u, Drifts drift w u ∧
    (answer, v) = Operation.onStore (sweeper.repository.listWaiting none) u)
    (.update fun u hu => ⟨u, hu, rfl⟩) ?_
  rintro answer v ⟨u, hu, h⟩
  obtain ⟨listed, hanswer, hids, hmem⟩ := hprompt.listWaiting u.store
  have hobeys := hlaw.listWaiting none u.store
  have hview : view (sweeper.repository.listWaiting none u.store).2 = view u.store :=
    hobeys.elim (fun _ _ h => h) fun _ _ h => h.1
  rw [Operation.onStore, hanswer, Prod.mk.injEq] at h
  obtain ⟨rfl, rfl⟩ := h
  refine (sweepListed_secures hlaw hprompt hfate now [] hids
    (fun s hs => hwaits hu ((hmem s).1 hs).1 ((hmem s).1 hs).2) fun s hs => ?_).mono ?_
  · rw [hview, ((hmem s).1 hs).1]
    exact hfate.same s
  · rintro a v ⟨result, rfl, hswept⟩
    have hsame : following [] result = result := by cases result <;> rfl
    rw [hsame]
    exact ⟨u, listed, hu, hanswer, hids, hmem, hview, hswept⟩

/-- Wherever a sweep has come to, it can go on or has had its turns. -/
theorem sweep_moves (hlaw : sweeper.repository.Lawful view)
    (hprompt : sweeper.repository.Prompt view) (hfate : Fate view drift fate) {w : World R H}
    (hwaits : ∀ {u s}, Drifts drift w u → view u.store s.id = some s →
      s.status = .waiting → s.Waits)
    {c : Errand C H R (Except RepositoryFault (List Uuid))} {v : World R H}
    (h : Moves drift Course.Step (sweeper.sweep now, w) (c, v)) :
    (∃ y, Course.Step (c, v) y) ∨ ∃ result u listed, c = .done result ∧
      sweeper.Attends view drift fate now w u listed result v := by
  rcases (sweep_secures (C := C) hlaw hprompt hfate now hwaits).moves
    (fun ⟨u, listed, hends⟩ hv => ⟨u, listed, { hends with swept := hends.swept.snoc hv }⟩) h with
    ⟨result, rfl, u, listed, hends⟩ | hstep
  · exact .inr ⟨result, u, listed, rfl, hends⟩
  · exact .inl hstep

namespace Attends

variable {w u v : World R H} {listed : List Instance} {result : Except RepositoryFault (List Uuid)}

theorem distinct (h : sweeper.Attends view drift fate now w u listed result v) :
    ((listed.filter (·.isWaitExpired now)).map (·.id)).Nodup :=
  h.ids.sublist (List.filter_sublist.map _)

/-- What is to have a turn is stored when it is listed. -/
theorem stored (h : sweeper.Attends view drift fate now w u listed result v) {s : Instance}
    (hs : s ∈ listed.filter (·.isWaitExpired now)) :
    view (sweeper.repository.listWaiting none u.store).2 s.id = some s := by
  rw [h.same]
  exact ((h.mem s).1 (List.mem_filter.1 hs).1).1

end Attends

end Sweeper

end DurableWorkflow
