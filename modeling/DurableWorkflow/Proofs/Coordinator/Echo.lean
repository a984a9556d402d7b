import DurableWorkflow.Coordinator.Basic
import DurableWorkflow.Coordinator.Sweeper
import DurableWorkflow.Proofs.Course.Echo

/-!
# Calls through another notifier

What a notifier does is seen in the events and in the count of notices, and nowhere else; so a call
does the same through any other notifier. The same is announced by others, the same notices are given
in the same order, and only what comes of them differs (`Heard`).
-/

namespace DurableWorkflow

variable {C H R α : Type} {n n' : Notifier}

/-- What is heard through two notifiers when the same is announced beside them and they are given the
same notices. -/
inductive Heard (n n' : Notifier) : List Event × Nat → List Event × Nat → Prop
  | refl (x : List Event × Nat) : Heard n n' x x
  | publish {x y : List Event × Nat} (e : Event) (h : Heard n n' x y) :
    Heard n n' (e :: x.1, x.2) (e :: y.1, y.2)
  | tell {x y : List Event × Nat} (notice : Notice) (h : Heard n n' x y) :
    Heard n n' (n.hear notice x) (n'.hear notice y)

/-- The second world differs at most in what is heard through the notifiers. -/
inductive World.Alike (n n' : Notifier) (w : World R H) : World R H → Prop
  | intro (announced : List Event) (notices : Nat)
    (h : Heard n n' (w.announced, w.notices) (announced, notices)) :
    Alike n n' w { w with announced, notices }

namespace World.Alike

variable {w v : World R H}

theorem refl (w : World R H) : w.Alike n n' w := ⟨w.announced, w.notices, .refl _⟩

theorem store_eq (h : w.Alike n n' v) : v.store = w.store := by
  obtain ⟨announced, notices, h⟩ := h
  rfl

theorem heard (h : w.Alike n n' v) :
    Heard n n' (w.announced, w.notices) (v.announced, v.notices) := by
  obtain ⟨announced, notices, h⟩ := h
  exact h

theorem publish (h : w.Alike n n' v) (e : Event) : (w.publish e).Alike n n' (v.publish e) := by
  obtain ⟨announced, notices, h⟩ := h
  exact ⟨e :: announced, notices, h.publish e⟩

theorem onStore (h : w.Alike n n' v) (ask : R → α × R) :
    (Operation.onStore ask w).1 = (Operation.onStore ask v).1 ∧
      (Operation.onStore ask w).2.Alike n n' (Operation.onStore ask v).2 := by
  obtain ⟨announced, notices, h⟩ := h
  exact ⟨rfl, announced, notices, h⟩

theorem release (h : w.Alike n n' v) (operation : Nat) :
    (w.release operation).Alike n n' (v.release operation) := by
  obtain ⟨announced, notices, h⟩ := h
  exact ⟨announced, notices, h⟩

theorem mint (h : w.Alike n n' v) : w.mint.1 = v.mint.1 ∧ w.mint.2.Alike n n' v.mint.2 := by
  obtain ⟨announced, notices, h⟩ := h
  exact ⟨rfl, announced, notices, h⟩

theorem acquire (h : w.Alike n n' v) (number operation : Nat) (id : Uuid) :
    (w.acquire number operation id).1 = (v.acquire number operation id).1 ∧
      (w.acquire number operation id).2.Alike n n' (v.acquire number operation id).2 := by
  obtain ⟨announced, notices, h⟩ := h
  have hlease : World.lease? { w with announced, notices } number id = w.lease? number id := rfl
  unfold World.acquire
  rw [hlease]
  cases w.lease? number id with
  | none => exact ⟨rfl, announced, notices, h⟩
  | some l => exact ⟨rfl, announced, notices, h⟩

theorem requestCancel (h : w.Alike n n' v) (number : Nat) (id : Uuid) :
    (w.requestCancel number id).2.Alike n n' (v.requestCancel number id).2 := by
  obtain ⟨announced, notices, h⟩ := h
  have hlease : World.lease? { w with announced, notices } number id = w.lease? number id := rfl
  unfold World.requestCancel
  rw [hlease]
  cases w.lease? number id with
  | none => exact ⟨announced, notices, h⟩
  | some l => exact ⟨announced, notices, h⟩

theorem tell (h : w.Alike n n' v) (notice : Notice) :
    (n.tell notice w).Alike n n' (n'.tell notice v) := by
  obtain ⟨announced, notices, h⟩ := h
  rw [Notifier.tell_eq, Notifier.tell_eq]
  exact ⟨_, _, h.tell notice⟩

end World.Alike

namespace Coordinator

/-- The same coordinator with another notifier. -/
def through (n : Notifier) (c : Coordinator C H R) : Coordinator C H R := { c with notifier := n }

variable (c : Coordinator C H R) {operation : Nat} {id : Uuid}

theorem save_saved {w v : World R H} (h : w.Alike n n' v) (k : Checkpoint C) (s : Instance) :
    Saved (World.Alike n n') (c.save k (s, w)) (c.save k (s, v)) := by
  obtain ⟨announced, notices, h⟩ := h
  unfold save Operation.onStore
  dsimp only
  cases c.kind.encode k.context with
  | none => exact ⟨rfl, announced, notices, h⟩
  | some context =>
    dsimp only
    cases c.repository.persist _ w.store with
    | mk r store =>
      cases r with
      | stored s' => exact ⟨rfl, announced, notices, h⟩
      | refused fault => exact ⟨rfl, announced, notices, h⟩
      | exhausted => rfl

theorem environment_overlooks (id : Uuid) :
    (c.environment id : Environment C H Instance (World R H)).Overlooks (World.Alike n n') where
  cancelled h := by
    obtain ⟨announced, notices, h⟩ := h
    rfl
  wall h := by
    obtain ⟨announced, notices, h⟩ := h
    rfl
  instant h := by
    obtain ⟨announced, notices, h⟩ := h
    rfl
  memory h := by
    obtain ⟨announced, notices, h⟩ := h
    rfl
  setMemory _ h := by
    obtain ⟨announced, notices, h⟩ := h
    exact ⟨announced, notices, h⟩
  publish e h := h.publish e
  save k s h := c.save_saved h k s

/-! ### What does not use the notifier -/

theorem now_echoes : (Operation.now : Operation C H R Timestamp).Echoes (World.Alike n n') Operation.now := by
  refine .now fun w v h => ?_
  obtain ⟨announced, notices, h⟩ := h
  rfl

theorem request_echoes (ask : R → Reply R α) :
    (Operation.request ask : Operation C H R α).Echoes (World.Alike n n') (Operation.request ask) :=
  .request fun _ _ h => h.onStore ask

theorem releasing_echoes {op op' : Operation C H R α} (h : op.Echoes (World.Alike n n') op') :
    (Operation.releasing operation op).Echoes (World.Alike n n') (Operation.releasing operation op') :=
  Course.Echoes.ensure h fun _ _ h => h.release operation

theorem acquire_echoes : (c.acquire operation id : Operation C H R Unit).Echoes (World.Alike n n')
    ((c.through n').acquire operation id) := by
  refine Operation.Echoes.bind (.update fun _ _ h => h.acquire c.number operation id) fun free => ?_
  cases free with
  | true => exact .pure ()
  | false => exact .throw _

theorem load_echoes : (c.load id : Operation C H R Instance).Echoes (World.Alike n n')
    ((c.through n').load id) :=
  (request_echoes _).bind fun found => .orThrow _ found

theorem definition_echoes (name : String) :
    (c.definition name : Operation C H R (Definition C H)).Echoes (World.Alike n n')
      ((c.through n').definition name) := .orThrow _ _

theorem definitionFor_echoes (s : Instance) :
    (c.definitionFor s : Operation C H R (Definition C H)).Echoes (World.Alike n n')
      ((c.through n').definitionFor s) := by
  refine (c.definition_echoes s.workflow).bind fun d => ?_
  split
  · exact .pure d
  · exact .throw _

theorem persist_echoes (s : Instance) : (c.persist s : Operation C H R Instance).Echoes (World.Alike n n')
    ((c.through n').persist s) := by
  refine Operation.Echoes.bind (.update fun _ _ h => h.onStore _) fun r => ?_
  cases r with
  | stored s => exact .pure s
  | refused fault => exact .throw _
  | exhausted => exact .crash _

theorem announce_echoes (what : Happening) :
    (Operation.announce id what : Operation C H R Unit).Echoes (World.Alike n n')
      (Operation.announce id what) := .modify fun _ _ h => h.publish _

theorem settleCancelled_echoes (s : Instance) :
    (c.settleCancelled s : Operation C H R α).Echoes (World.Alike n n')
      ((c.through n').settleCancelled s) := by
  refine now_echoes.bind fun now => (Operation.Echoes.moved _).bind fun s => ?_
  exact (c.persist_echoes _).bind fun s => (announce_echoes _).bind fun _ => .throw _

/-! ### What does -/

variable (hc : c.notifier = n)

include hc

theorem tell_echoes (notice : Notice) :
    (c.tell notice : Operation C H R Unit).Echoes (World.Alike n n') ((c.through n').tell notice) :=
  .modify fun _ _ h => hc ▸ h.tell notice

theorem settle_echoes (s : Instance) (outcome : RunOutcome) :
    (c.settle s outcome : Operation C H R Instance).Echoes (World.Alike n n')
      ((c.through n').settle s outcome) := by
  cases outcome with
  | completed =>
    refine now_echoes.bind fun now => (Operation.Echoes.moved _).bind fun s => ?_
    exact (c.persist_echoes _).bind fun s => (c.tell_echoes hc _).bind fun _ => .pure s
  | failed failure =>
    refine now_echoes.bind fun now => (Operation.Echoes.moved _).bind fun s => ?_
    exact (c.persist_echoes _).bind fun s => (c.tell_echoes hc _).bind fun _ => .pure s
  | suspended wait =>
    refine now_echoes.bind fun now => ?_
    have hwait : (c.through n').defaultWait = c.defaultWait := rfl
    rw [hwait]
    cases waitDeadline (wait.limit.or c.defaultWait) now with
    | error m => exact .crash m
    | ok deadline =>
      refine (Operation.Echoes.moved _).bind fun s => ?_
      exact (c.persist_echoes _).bind fun s => (c.tell_echoes hc _).bind fun _ => .pure s

theorem drive_echoes (d : Definition C H) (s : Instance) (context : C) (start : StartPoint) :
    (c.drive d s context start).Echoes (World.Alike n n') ((c.through n').drive d s context start) := by
  refine Operation.Echoes.bind (.ofErrand
    (Environment.run_echoes (c.environment_overlooks s.id) d start context s)) fun x => ?_
  obtain ⟨last, result⟩ := x
  cases result with
  | none => exact c.settleCancelled_echoes last
  | some result =>
    refine (Operation.Echoes.orThrow _ _).bind fun context => ?_
    exact (c.settle_echoes hc _ _).bind fun state => .pure _

theorem start_echoes (definition : String) (context : C) :
    (c.start operation definition context).Echoes (World.Alike n n')
      ((c.through n').start operation definition context) := by
  refine releasing_echoes ((c.definition_echoes definition).bind fun d => ?_)
  refine (Operation.Echoes.orThrow _ _).bind fun encoded => ?_
  refine Operation.Echoes.bind (.update fun _ _ h => h.mint) fun id => ?_
  refine now_echoes.bind fun now => (request_echoes _).bind fun _ => ?_
  refine (c.acquire_echoes).bind fun _ => (Operation.Echoes.moved _).bind fun s => ?_
  exact (c.persist_echoes s).bind fun s => c.drive_echoes hc d s context .root

theorem signal_echoes (name : String) (payload : Json) :
    (c.signal operation id name payload).Echoes (World.Alike n n')
      ((c.through n').signal operation id name payload) := by
  refine releasing_echoes (c.acquire_echoes.bind fun _ => c.load_echoes.bind fun s => ?_)
  refine (Operation.Echoes.orThrow _ _).bind fun node => ?_
  refine (c.definitionFor_echoes s).bind fun d => ?_
  refine (Operation.Echoes.orThrow _ _).bind fun context => now_echoes.bind fun now => ?_
  refine (Operation.Echoes.moved _).bind fun s => (c.persist_echoes s).bind fun s => ?_
  exact (announce_echoes _).bind fun _ => c.drive_echoes hc d s context _

theorem resume_echoes : (c.resume operation id).Echoes (World.Alike n n')
    ((c.through n').resume operation id) := by
  refine releasing_echoes (c.acquire_echoes.bind fun _ => c.load_echoes.bind fun s => ?_)
  refine now_echoes.bind fun now => (Operation.Echoes.lift _).bind fun s => ?_
  refine (c.definitionFor_echoes s).bind fun d => (Operation.Echoes.orThrow _ _).bind fun context => ?_
  exact (c.persist_echoes s).bind fun s => c.drive_echoes hc d s context _

omit hc

theorem acquireOrCancel_alike {w v : World R H} (h : w.Alike n n' v) :
    (c.acquireOrCancel operation id w).1 = (c.acquireOrCancel operation id v).1 ∧
      (c.acquireOrCancel operation id w).2.Alike n n' (c.acquireOrCancel operation id v).2 := by
  have hacquire := h.acquire c.number operation id
  have hcancel := h.requestCancel c.number id
  unfold acquireOrCancel
  generalize World.acquire c.number operation id w = x at hacquire
  generalize World.acquire c.number operation id v = y at hacquire
  obtain ⟨free, w'⟩ := x
  obtain ⟨free', v'⟩ := y
  obtain ⟨rfl, halike⟩ := hacquire
  cases free with
  | true => exact ⟨rfl, halike⟩
  | false => exact ⟨rfl, hcancel⟩

theorem cancel_echoes : (c.cancel operation id : Operation C H R Cancelled).Echoes (World.Alike n n')
    ((c.through n').cancel operation id) := by
  refine releasing_echoes (Operation.Echoes.bind (.update fun w v h => ?_) fun free => ?_)
  · exact c.acquireOrCancel_alike h
  cases free with
  | false => exact .pure _
  | true =>
    refine c.load_echoes.bind fun s => now_echoes.bind fun now => ?_
    refine (Operation.Echoes.moved _).bind fun s => (c.persist_echoes s).bind fun _ => ?_
    refine Operation.Echoes.bind (.modify fun _ _ h => h.release operation) fun _ => ?_
    exact (announce_echoes _).bind fun _ => .pure _

end Coordinator

/-- The same dispatcher over coordinators with another notifier. -/
def Dispatcher.through (n : Notifier) (d : Dispatcher C H R) : Dispatcher C H R :=
  { d with targets := d.targets.map (·.through n) }

/-- The same sweeper with another notifier. -/
def Sweeper.through (n : Notifier) (sweeper : Sweeper R) : Sweeper R :=
  { sweeper with notifier := n }

variable {operation : Nat} {id : Uuid}

theorem Dispatcher.dispatch_echoes (d : Dispatcher C H R)
    (hd : ∀ c ∈ d.targets, c.notifier = n) (name : String) (payload : Json) :
    (d.dispatch operation id name payload).Echoes (World.Alike n n')
      ((d.through n').dispatch operation id name payload) := by
  refine (Coordinator.request_echoes _).bind fun found => ?_
  refine (Operation.Echoes.orThrow _ _).bind fun info => ?_
  have hfind : (d.through n').targets.find? (·.kind.typeName == info.typeName) =
      (d.targets.find? (·.kind.typeName == info.typeName)).map (·.through n') := by
    show List.find? _ (d.targets.map _) = _
    rw [List.find?_map]
    rfl
  rw [hfind]
  cases hc : d.targets.find? (·.kind.typeName == info.typeName) with
  | none => exact .throw _
  | some c =>
    have hnotifier := hd c (List.mem_of_find?_eq_some hc)
    exact (c.signal_echoes hnotifier name payload).bind fun _ => .pure _

namespace Sweeper

variable (sweeper : Sweeper R) (hsweeper : sweeper.notifier = n)

include hsweeper

theorem sweepListed_echoes (now : Timestamp) (listed : List Instance) (ended : List Uuid) :
    (sweeper.sweepListed now ended listed :
      Errand C H R (Except RepositoryFault (List Uuid))).Echoes (World.Alike n n')
        ((sweeper.through n').sweepListed now ended listed) := by
  induction listed generalizing ended with
  | nil => exact .done _
  | cons s rest ih =>
    rw [sweepListed, sweepListed]
    split
    · refine Course.Echoes.bind (.read fun w v h => ?_) fun wall => ?_
      · obtain ⟨announced, notices, h⟩ := h
        rfl
      split
      · exact ih ended
      · next s signal message _ =>
        refine Course.Echoes.bind (.update fun _ _ h => h.onStore _) fun r => ?_
        cases r with
        | stored s =>
          refine Course.Echoes.bind (.modify fun _ _ h => ?_) fun _ => ih _
          exact hsweeper ▸ (h.publish _).tell _
        | refused fault =>
          cases fault with
          | conflict reason => exact ih ended
          | _ => exact .done _
        | exhausted => exact .crash _
    · exact ih ended

theorem sweep_echoes (now : Timestamp) :
    (sweeper.sweep now : Errand C H R (Except RepositoryFault (List Uuid))).Echoes (World.Alike n n')
      ((sweeper.through n').sweep now) := by
  refine Course.Echoes.bind (.update fun _ _ h => h.onStore _) fun found => ?_
  cases found with
  | error fault => exact .done _
  | ok listed => exact sweeper.sweepListed_echoes hsweeper now listed []

end Sweeper

end DurableWorkflow
