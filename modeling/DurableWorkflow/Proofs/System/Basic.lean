import DurableWorkflow.Proofs.Coordinator.Calls

/-!
# Systems of coordinators and sweepers

Any number of coordinators and sweepers, each with a repository of its own over one store. Anybody
may make a call at any time; the calls that are under way take turns, one action or one step of a
walk at a time; a call may be dropped anywhere; and clocks, leases and the memory of the steps may
change between two actions, but not the store.

In a reachable system every call that is under way keeps its conduct, whatever the others have done
in between (`Sound`).
-/

namespace DurableWorkflow

variable {H R : Type}

/-- What somebody asks of a coordinator, a dispatcher, a sweeper or a repository. -/
inductive Demand (H R : Type) where
  | start {C : Type} (c : Coordinator C H R) (operation : Nat) (definition : String) (context : C)
  | signal {C : Type} (c : Coordinator C H R) (operation : Nat) (id : Uuid) (name : String)
    (payload : Json)
  | resume {C : Type} (c : Coordinator C H R) (operation : Nat) (id : Uuid)
  | cancel {C : Type} (c : Coordinator C H R) (operation : Nat) (id : Uuid)
  | dispatch {C : Type} (d : Dispatcher C H R) (operation : Nat) (id : Uuid) (name : String)
    (payload : Json)
  | sweep (sweeper : Sweeper R) (now : Timestamp)
  | delete (repository : Repository R) (id : Uuid)

namespace Demand

/-- The contexts of the runs. -/
def Context : Demand H R → Type
  | start (C := C) .. | signal (C := C) .. | resume (C := C) .. | cancel (C := C) ..
  | dispatch (C := C) .. => C
  | sweep .. | delete .. => Unit

def Answer : Demand H R → Type
  | start (C := C) .. | signal (C := C) .. | resume (C := C) .. =>
    Except CoordinatorError (Driven C)
  | cancel .. => Except CoordinatorError Cancelled
  | dispatch .. => Except CoordinatorError Instance
  | sweep .. => Except RepositoryFault (List Uuid)
  | delete .. => Except CoordinatorError Bool

/-- The course of the call of this number. -/
def course (call : Nat) : (t : Demand H R) → Errand t.Context H (Journaled R) t.Answer
  | start c operation definition context =>
    ((c.journaled call).start operation definition context).run
  | signal c operation id name payload => ((c.journaled call).signal operation id name payload).run
  | resume c operation id => ((c.journaled call).resume operation id).run
  | cancel c operation id => ((c.journaled call).cancel operation id).run
  | dispatch d operation id name payload =>
    ((d.journaled call).dispatch operation id name payload).run
  | sweep sweeper now => (sweeper.journaled call).sweep now
  | delete repository id => (Operation.request ((repository.journaled call).delete id)).run

/-- The instance that is to be run on. -/
def about : Demand H R → Option Uuid
  | signal _ _ id .. | resume _ _ id | dispatch _ _ id .. => some id
  | _ => none

/-- The repositories that are used keep the promises, with this view of the store. -/
def On (view : R → Uuid → Option Instance) : Demand H R → Prop
  | start c .. | signal c .. | resume c .. | cancel c .. => c.repository.Lawful view
  | dispatch d .. => d.repository.Lawful view ∧ ∀ c ∈ d.targets, c.repository.Lawful view
  | sweep sweeper _ => sweeper.repository.Lawful view
  | delete repository _ => repository.Lawful view

end Demand

/-- A call under way. -/
structure Thread (H R : Type) where
  demand : Demand H R
  number : Nat
  course : Errand demand.Context H (Journaled R) demand.Answer

namespace Thread

/-- A call that has just been made. -/
def begin (number : Nat) (demand : Demand H R) : Thread H R := ⟨demand, number, demand.course number⟩

/-- Is the call in a run of an instance, or undoing one? -/
def Running (th : Thread H R) : Prop :=
  match th.course with
  | .walk .. | .perform .. => True
  | _ => False

/-- The call keeps its conduct from this world on. -/
def Behaves (view : R → Uuid → Option Instance) (th : Thread H R) (w : World (Journaled R) H) :
    Prop :=
  Course.Fulfils view th.number th.demand.about (fun _ _ => True) th.course w

end Thread

structure System (H R : Type) where
  world : World (Journaled R) H
  threads : List (Thread H R) := []
  /-- How many calls have been made. -/
  calls : Nat := 0

namespace System

/-- The notes of all calls. -/
def journal (σ : System H R) : Journal := σ.world.store.journal

/-- The stored version of an instance. -/
def stored (view : R → Uuid → Option Instance) (σ : System H R) (id : Uuid) : Option Instance :=
  view σ.world.store.store id

/-- Nothing is stored and nobody has called. -/
structure Initial (view : R → Uuid → Option Instance) (σ : System H R) : Prop where
  empty : ∀ id, σ.stored view id = none
  journal : σ.journal = []
  threads : σ.threads = []

inductive Step (view : R → Uuid → Option Instance) : System H R → System H R → Prop
  /-- Somebody makes a call. -/
  | call (σ : System H R) (demand : Demand H R) (h : demand.On view) :
    Step view σ { σ with
      threads := .begin σ.calls demand :: σ.threads
      calls := σ.calls + 1 }
  /-- A call goes one step further. -/
  | move (l r : List (Thread H R)) (th : Thread H R) (calls : Nat) (w w' : World (Journaled R) H)
    (course : Errand th.demand.Context H (Journaled R) th.demand.Answer)
    (h : Course.Step (th.course, w) (course, w')) :
    Step view ⟨w, l ++ th :: r, calls⟩ ⟨w', l ++ { th with course } :: r, calls⟩
  /-- A call is dropped. -/
  | drop (l r : List (Thread H R)) (th : Thread H R) (calls : Nat) (w : World (Journaled R) H) :
    Step view ⟨w, l ++ th :: r, calls⟩ ⟨w, l ++ r, calls⟩
  /-- Something else changes, but not the store. -/
  | outside (σ : System H R) (w : World (Journaled R) H) (h : w.store = σ.world.store) :
    Step view σ { σ with world := w }

abbrev Steps (view : R → Uuid → Option Instance) : System H R → System H R → Prop :=
  Relation.ReflTransGen (Step view)

def Reachable (view : R → Uuid → Option Instance) (σ : System H R) : Prop :=
  ∃ σ₀, Initial view σ₀ ∧ Steps view σ₀ σ

/-- The invariant: the journal tells what is stored, each call has its own number, and each keeps
its conduct. -/
structure Sound (view : R → Uuid → Option Instance) (σ : System H R) : Prop where
  told : σ.world.store.Told view
  distinct : (σ.threads.map (·.number)).Nodup
  numbered : ∀ th ∈ σ.threads, th.number < σ.calls
  noted : ∀ e ∈ σ.journal, e.call < σ.calls
  behaves : ∀ th ∈ σ.threads, th.Behaves view σ.world

end System

variable {view : R → Uuid → Option Instance}

namespace Thread

variable {th : Thread H R} {w v : World (Journaled R) H}

/-- Every call that is made keeps its conduct. -/
theorem behaves_begin {demand : Demand H R} {number : Nat} (h : demand.On view)
    (hnew : w.store.journal.Unknown number) : (begin number demand).Behaves view w := by
  cases demand with
  | start c operation definition context =>
    exact (Coordinator.start_fulfils h operation definition context hnew).course
  | signal c operation id name payload =>
    exact (Coordinator.signal_fulfils h operation name payload hnew).course
  | resume c operation id => exact (Coordinator.resume_fulfils h operation hnew).course
  | cancel c operation id => exact (Coordinator.cancel_fulfils h operation hnew).course
  | dispatch d operation id name payload =>
    exact (Dispatcher.dispatch_fulfils h.1 h.2 operation name payload hnew).course
  | sweep sweeper now => exact Sweeper.sweep_fulfils h now hnew
  | delete repository id => exact (Repository.delete_fulfils h hnew).course

/-- What the others note does not matter. -/
theorem Behaves.others (h : th.Behaves view w)
    (hv : w.store.journal.Grows (· ≠ th.number) v.store.journal) : th.Behaves view v :=
  Course.Obeys.stable (fun _ _ _ _ _ => trivial) h hv

theorem Behaves.step {course : Errand th.demand.Context H (Journaled R) th.demand.Answer}
    (h : th.Behaves view w) (hstep : Course.Step (th.course, w) (course, v))
    (htold : w.store.Told view) :
    v.store.Told view ∧ w.store.journal.Noted th.number v.store.journal ∧
      { th with course : Thread H R }.Behaves view v :=
  Course.Obeys.step hstep h htold

/-- A call that is on a run has won it. -/
theorem Behaves.won (h : th.Behaves view w) (hrun : th.Running) :
    w.store.journal.Won th.number th.demand.about := by
  unfold Running at hrun
  unfold Behaves Course.Fulfils at h
  split at hrun
  · next heq =>
    rw [heq] at h
    exact h.1
  · next heq =>
    rw [heq] at h
    exact h.1
  · exact hrun.elim

end Thread

namespace System

variable {σ σ' : System H R}

/-- A call may run alone for a while. -/
theorem Steps.move {l r : List (Thread H R)} {th : Thread H R} {calls : Nat}
    {w : World (Journaled R) H}
    {y : Errand th.demand.Context H (Journaled R) th.demand.Answer × World (Journaled R) H}
    (h : Course.Steps (th.course, w) y) :
    Steps view ⟨w, l ++ th :: r, calls⟩ ⟨y.2, l ++ { th with course := y.1 } :: r, calls⟩ := by
  induction h with
  | refl => exact .refl
  | tail _ hstep ih => exact ih.tail (.move l r _ calls _ _ _ hstep)

theorem Initial.sound (h : Initial view σ) : Sound view σ where
  told := by
    have hjournal : σ.world.store.journal = [] := h.journal
    refine ⟨fun _ => by rw [hjournal]; trivial, funext fun id => ?_⟩
    rw [hjournal]
    exact h.empty id
  distinct := by simp [h.threads]
  numbered := by simp [h.threads]
  noted := by simp [h.journal]
  behaves := by simp [h.threads]

theorem mem_middle {l r : List (Thread H R)} {th t : Thread H R} :
    t ∈ l ++ th :: r ↔ t = th ∨ t ∈ l ++ r :=
  List.perm_middle.mem_iff.trans List.mem_cons

theorem ne_of_distinct {l r : List (Thread H R)} {th t : Thread H R}
    (h : ((l ++ th :: r).map (·.number)).Nodup) (ht : t ∈ l ++ r) : t.number ≠ th.number := by
  intro heq
  have hdistinct := (List.perm_middle.map _).nodup_iff.1 h
  rw [List.map_cons, List.nodup_cons] at hdistinct
  exact hdistinct.1 (heq ▸ List.mem_map_of_mem ht)

theorem Sound.step (h : Sound view σ) (hstep : Step view σ σ') : Sound view σ' := by
  obtain ⟨htold, hdistinct, hnumbered, hnoted, hbehaves⟩ := h
  cases hstep with
  | call _ demand hon =>
    have hnew : σ.journal.Unknown σ.calls := fun e he => Nat.ne_of_lt (hnoted e he)
    refine ⟨htold, ?_, ?_, fun e he => Nat.lt_succ_of_lt (hnoted e he), ?_⟩
    · refine List.nodup_cons.2 ⟨fun hmem => ?_, hdistinct⟩
      obtain ⟨th, hth, heq⟩ := List.mem_map.1 hmem
      exact absurd heq (Nat.ne_of_lt (hnumbered th hth))
    · intro th hth
      rcases List.mem_cons.1 hth with rfl | hth
      · exact Nat.lt_succ_self _
      · exact Nat.lt_succ_of_lt (hnumbered th hth)
    · intro th hth
      rcases List.mem_cons.1 hth with rfl | hth
      · exact Thread.behaves_begin hon hnew
      · exact hbehaves th hth
  | move l r th calls w w' course hmove =>
    have hth : th ∈ l ++ th :: r := by simp
    obtain ⟨htold', hnotes, hth'⟩ := (hbehaves th hth).step hmove htold
    obtain ⟨l', hjournal, hcall⟩ := hnotes.grows
    have hothers : ∀ t ∈ l ++ r, t.Behaves view w' := by
      intro t ht
      have hne : t.number ≠ th.number := ne_of_distinct hdistinct ht
      refine (hbehaves t (mem_middle.2 (.inr ht))).others ⟨l', hjournal, fun e he heq => ?_⟩
      exact hne (heq.symm.trans (hcall e he))
    refine ⟨htold', by simpa using hdistinct, fun t ht => ?_, fun e he => ?_, fun t ht => ?_⟩
    · rcases mem_middle.1 ht with rfl | ht
      · exact hnumbered th hth
      · exact hnumbered t (mem_middle.2 (.inr ht))
    · rw [journal, hjournal] at he
      rcases List.mem_append.1 he with he | he
      · rw [hcall e he]
        exact hnumbered th hth
      · exact hnoted e he
    · rcases mem_middle.1 ht with rfl | ht
      · exact hth'
      · exact hothers t ht
  | drop l r th calls w =>
    have hsub : (l ++ r).Sublist (l ++ th :: r) := (List.sublist_cons_self th r).append_left l
    exact ⟨htold, hdistinct.sublist (hsub.map _), fun t ht => hnumbered t (hsub.subset ht), hnoted,
      fun t ht => hbehaves t (hsub.subset ht)⟩
  | outside _ w hsame =>
    refine ⟨hsame ▸ htold, hdistinct, hnumbered, ?_, fun th hth => (hbehaves th hth).others ?_⟩
    · show ∀ e ∈ w.store.journal, e.call < σ.calls
      rw [hsame]
      exact hnoted
    · rw [hsame]
      exact .refl

theorem Reachable.sound (h : Reachable view σ) : Sound view σ := by
  obtain ⟨σ₀, hinitial, hsteps⟩ := h
  induction hsteps with
  | refl => exact hinitial.sound
  | tail _ hstep ih => exact ih.step hstep

end System

end DurableWorkflow
