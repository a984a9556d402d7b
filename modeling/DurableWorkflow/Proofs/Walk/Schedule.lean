import DurableWorkflow.Proofs.Walk.Step
import Mathlib.Data.List.Basic

/-!
# Schedules

Whose turn it is. While the branches of a fork run, cues say one after another which branch goes on,
inside it which branch of a fork of its own, and whether a limit is over there; and for a call
outside of all forks a schedule says whether its limit is over. Both are settled when the fork or
the call begins. Between two turns the state may drift.

`Goes` is how a walk and a course go on by a schedule, when nobody cancels: they may be dropped
anywhere, and otherwise end with a report that is `ok`. All turns are steps (`Cued.step`).
-/

namespace DurableWorkflow

variable {σ τ ρ α β γ ω : Type}

/-- A turn in a fork: the place of a branch, of a branch in it, and so on. -/
structure Cue where
  path : List Nat := []
  /-- Is a limit over there? -/
  late : Bool := false

namespace Cue

def first (c : Cue) : Nat := c.path.headD 0

def inner (c : Cue) : Cue := { c with path := c.path.tail }

end Cue

/-- A turn of the work of a call: its end, or the work that is left. -/
def Work.turn (late : Bool) (work : Work σ StepResult) (s : σ) :
    (CallEnd ⊕ Work σ StepResult) × σ :=
  if late then (.inl .timedOut, s)
  else
    match work with
    | .done r => (.inl (.finished r), s)
    | .crash m => (.inl (.crashed m), s)
    | .act f rest => (.inr (rest s), f s)
    | .sleep _ rest | .awaitCancel rest => (.inr rest, s)

/-- A call ends, with what the schedule says at turn `n` and later. -/
inductive Work.Ends (drift : σ → σ → Prop) (late : Nat → Bool) :
    Nat → Work σ StepResult × σ → CallEnd × σ → Prop
  | ended {n : Nat} {work : Work σ StepResult} {s s' t : σ} {e : CallEnd} (hdrift : drift s s')
      (h : work.turn (late n) s' = (.inl e, t)) : Ends drift late n (work, s) (e, t)
  | next {n : Nat} {work work' : Work σ StepResult} {s s' t : σ} {y : CallEnd × σ}
      (hdrift : drift s s') (h : work.turn (late n) s' = (.inr work', t))
      (hrest : Ends drift late (n + 1) (work', t) y) : Ends drift late n (work, s) y

/-- The turn of a branch on a cue. A branch reports what is `ok`. -/
inductive Walk.Cued (ok : ρ → Prop) : Cue → Walk σ ρ × σ → Walk σ ρ × σ → Prop
  | act (c : Cue) (f : σ → σ) (rest : σ → Walk σ ρ) (s : σ) :
    Cued ok c (.act f rest, s) (rest s, f s)
  | pause (c : Cue) (d : Nanos) (rest : Bool → Walk σ ρ) (s : σ) :
    Cued ok c (.pause d rest, s) (rest false, s)
  | ended {c : Cue} {limit : Option Nanos} {work : Work σ StepResult} {s t : σ} {e : CallEnd}
      (rest : CallEnd → Walk σ ρ) (h : work.turn (c.late && limit.isSome) s = (.inl e, t)) :
    Cued ok c (.call limit work rest, s) (rest e, t)
  | work {c : Cue} {limit : Option Nanos} {work work' : Work σ StepResult} {s t : σ}
      (rest : CallEnd → Walk σ ρ) (h : work.turn (c.late && limit.isSome) s = (.inr work', t)) :
    Cued ok c (.call limit work rest, s) (.call limit work' rest, t)
  | branch {c : Cue} {branches : List (Walk σ ρ)} {w w' : Walk σ ρ} {s t : σ}
      (rest : List ρ → Walk σ ρ) (hw : branches[c.first]? = some w)
      (h : Cued ok c.inner (w, s) (w', t)) :
    Cued ok c (.fork branches rest, s) (.fork (branches.set c.first w') rest, t)
  | report {c : Cue} {branches : List (Walk σ ρ)} {r : ρ} (rest : List ρ → Walk σ ρ) (s : σ)
      (hr : branches[c.first]? = some (.done r)) (hok : ok r) :
    Cued ok c (.fork branches rest, s)
      (.fork (branches.eraseIdx c.first) fun rs => rest (r :: rs), s)
  | join (c : Cue) (rest : List ρ → Walk σ ρ) (s : σ) : Cued ok c (.fork [] rest, s) (rest [], s)

/-- The branches of a fork end with these reports, on the cues at turn `n` and later. -/
inductive Walk.Reports (drift : σ → σ → Prop) (ok : ρ → Prop) (cues : Nat → Cue) :
    Nat → List (Walk σ ρ) × σ → List ρ × σ → Prop
  | all (n : Nat) (s : σ) : Reports drift ok cues n ([], s) ([], s)
  | branch {n : Nat} {branches : List (Walk σ ρ)} {w w' : Walk σ ρ} {s s' t : σ} {y : List ρ × σ}
      (hdrift : drift s s') (hw : branches[(cues n).first]? = some w)
      (h : Cued ok (cues n).inner (w, s') (w', t))
      (hrest : Reports drift ok cues (n + 1) (branches.set (cues n).first w', t) y) :
    Reports drift ok cues n (branches, s) y
  | report {n : Nat} {branches : List (Walk σ ρ)} {r : ρ} {rs : List ρ} {s t : σ}
      (hr : branches[(cues n).first]? = some (.done r)) (hok : ok r)
      (hrest : Reports drift ok cues (n + 1) (branches.eraseIdx (cues n).first, s) (rs, t)) :
    Reports drift ok cues n (branches, s) (r :: rs, t)

/-- What a scheduler says when a call or a fork begins. -/
structure Schedule (σ ρ : Type) where
  /-- Is the limit of a call over at its `n`-th turn? -/
  late : Option Nanos → Work σ StepResult → σ → Nat → Bool
  /-- The turns of a fork. -/
  cues : List (Walk σ ρ) → σ → Nat → Cue

/-- In time, and the first branch first. -/
def Schedule.inOrder : Schedule σ ρ := ⟨fun _ _ _ _ => false, fun _ _ _ => {}⟩

/-- One branch goes on, or is gone because it has ended. -/
inductive Walk.Turn : List (Walk σ ρ) × σ → List (Walk σ ρ) × σ → Prop
  | step (before after : List (Walk σ ρ)) {w w' : Walk σ ρ} {s s' : σ}
      (h : Walk.Step (w, s) (w', s')) : Turn (before ++ w :: after, s) (before ++ w' :: after, s')
  | leave (before after : List (Walk σ ρ)) (r : ρ) (s : σ) :
    Turn (before ++ .done r :: after, s) (before ++ after, s)

/-- Any number of steps, with drift between them. -/
def Moves (drift : σ → σ → Prop) (step : α × σ → α × σ → Prop) : α × σ → α × σ → Prop :=
  Relation.ReflTransGen fun x y => step x y ∨ y.1 = x.1 ∧ drift x.2 y.2

/-- How a walk goes on: to a report, or to where it is dropped. -/
inductive Walk.Goes (drift : σ → σ → Prop) (S : Schedule σ ρ) (ok : ρ → Prop) :
    Walk σ ρ × σ → Option ρ × σ → Prop
  | drop (w : Walk σ ρ) (s : σ) : Goes drift S ok (w, s) (none, s)
  | done {r : ρ} {s t : σ} (h : drift s t) (hok : ok r) : Goes drift S ok (.done r, s) (some r, t)
  | act {f : σ → σ} {rest : σ → Walk σ ρ} {s s' : σ} {y : Option ρ × σ} (h : drift s s')
      (hrest : Goes drift S ok (rest s', f s') y) : Goes drift S ok (.act f rest, s) y
  | pause {d : Nanos} {rest : Bool → Walk σ ρ} {s : σ} {y : Option ρ × σ}
      (hrest : Goes drift S ok (rest false, s) y) : Goes drift S ok (.pause d rest, s) y
  | inCall {limit : Option Nanos} {work work' : Work σ StepResult} {rest : CallEnd → Walk σ ρ}
      {s t : σ} (h : Moves drift Work.Step (work, s) (work', t)) :
    Goes drift S ok (.call limit work rest, s) (none, t)
  | call {limit : Option Nanos} {work : Work σ StepResult} {rest : CallEnd → Walk σ ρ} {s t : σ}
      {e : CallEnd} {y : Option ρ × σ}
      (h : Work.Ends drift (fun n => S.late limit work s n && limit.isSome) 0 (work, s) (e, t))
      (hrest : Goes drift S ok (rest e, t) y) : Goes drift S ok (.call limit work rest, s) y
  | inFork {branches branches' : List (Walk σ ρ)} {rest : List ρ → Walk σ ρ} {s t : σ}
      (h : Moves drift Walk.Turn (branches, s) (branches', t)) :
    Goes drift S ok (.fork branches rest, s) (none, t)
  | fork {branches : List (Walk σ ρ)} {rest : List ρ → Walk σ ρ} {s t : σ} {rs : List ρ}
      {y : Option ρ × σ} (h : Reports drift ok (S.cues branches s) 0 (branches, s) (rs, t))
      (hrest : Goes drift S ok (rest rs, t) y) : Goes drift S ok (.fork branches rest, s) y

/-- Drift of the world leaves what a walk has of its own. -/
def Beside (drift : ω → ω → Prop) (s t : τ × ω) : Prop := t.1 = s.1 ∧ drift s.2 t.2

/-- How a course goes on: to its value, or to where it is dropped. A course that panics is
dropped. -/
inductive Course.Goes (drift : ω → ω → Prop) (S : Schedule (τ × ω) β) (ok : β → Prop) :
    Course ω τ β α × ω → Option α × ω → Prop
  | drop (c : Course ω τ β α) (w : ω) : Goes drift S ok (c, w) (none, w)
  | done (a : α) (w : ω) : Goes drift S ok (.done a, w) (some a, w)
  | act {f : ω → ω} {rest : ω → Course ω τ β α} {w : ω} {y : Option α × ω}
      (hrest : Goes drift S ok (rest w, f w) y) : Goes drift S ok (.act f rest, w) y
  | wait {d : Nanos} {rest : Course ω τ β α} {w v : ω} {y : Option α × ω} (h : drift w v)
      (hrest : Goes drift S ok (rest, v) y) : Goes drift S ok (.wait d rest, w) y
  | inWalk {cancelled : ω → Bool} {limit : Option Nanos} {own own' : τ} {path : Walk (τ × ω) β}
      {rest : τ → Option β → Course ω τ β α} {w v : ω}
      (h : Walk.Goes (Beside drift) S ok (path, own, w) (none, own', v)) :
    Goes drift S ok (.walk cancelled limit own path rest, w) (none, v)
  | walk {cancelled : ω → Bool} {limit : Option Nanos} {own own' : τ} {path : Walk (τ × ω) β}
      {rest : τ → Option β → Course ω τ β α} {w v : ω} {r : β} {y : Option α × ω}
      (h : Walk.Goes (Beside drift) S ok (path, own, w) (some r, own', v))
      (hrest : Goes drift S ok (rest own' (some r), v) y) :
    Goes drift S ok (.walk cancelled limit own path rest, w) y
  | late {cancelled : ω → Bool} {d : Nanos} {own own' : τ} {path : Walk (τ × ω) β}
      {rest : τ → Option β → Course ω τ β α} {w v : ω} {y : Option α × ω}
      (h : Walk.Goes (Beside drift) S ok (path, own, w) (none, own', v))
      (hrest : Goes drift S ok (rest own' none, v) y) :
    Goes drift S ok (.walk cancelled (some d) own path rest, w) y
  | inPerform {cancelled : ω → Bool} {own own' : τ} {work work' : Work (τ × ω) StepResult}
      {rest : τ → Work.End StepResult → Course ω τ β α} {w v : ω}
      (h : Moves (Beside drift) Work.Step (work, own, w) (work', own', v)) :
    Goes drift S ok (.perform cancelled own work rest, w) (none, v)
  | perform {cancelled : ω → Bool} {own own' : τ} {work : Work (τ × ω) StepResult}
      {rest : τ → Work.End StepResult → Course ω τ β α} {w v : ω} {e : Work.End StepResult}
      {y : Option α × ω} (h : Moves (Beside drift) Work.Step (work, own, w) (e.work, own', v))
      (hrest : Goes drift S ok (rest own' e, v) y) :
    Goes drift S ok (.perform cancelled own work rest, w) y

/-! ### How far walks come

A walk and a course that go on for a number of turns, in order and in time. When the turns run out
they are dropped where they are; so they are at a fork, and at work that would have to wait. What
comes of it is one of the ways in which they can go on (`Walk.goes_advance`, `Course.goes_advance`).
-/

/-- The report, if the walk comes to one that is `ok`. -/
def Walk.advance (ok : ρ → Bool) : Nat → Walk σ ρ → σ → Option ρ × σ
  | 0, _, s => (none, s)
  | _ + 1, .done r, s => (if ok r then some r else none, s)
  | n + 1, .act f rest, s => (rest s).advance ok n (f s)
  | n + 1, .pause _ rest, s => (rest false).advance ok n s
  | n + 1, .call _ work rest, s =>
    match work.runNow s with
    | some (e, t) => (rest (.ofWork e)).advance ok n t
    | none => (none, s)
  | _ + 1, .fork _ _, s => (none, s)

/-- The value, if the course comes to it; each of its walks has the turns that are left before it.
-/
def Course.advance (ok : β → Bool) : Nat → Course ω τ β α → ω → Option α × ω
  | 0, _, w => (none, w)
  | _ + 1, .done a, w => (some a, w)
  | n + 1, .act f rest, w => (rest w).advance ok n (f w)
  | n + 1, .wait _ rest, w => rest.advance ok n w
  | n + 1, .walk _ _ own path rest, w =>
    match path.advance ok n (own, w) with
    | (some r, own, w) => (rest own (some r)).advance ok n w
    | (none, _, w) => (none, w)
  | _ + 1, .crash _, w | _ + 1, .perform .., w => (none, w)

theorem Work.ends_of_runNow {drift : σ → σ → Prop} (hdrift : ∀ s, drift s s)
    {work : Work σ StepResult} {s t : σ} {e : Work.End StepResult}
    (h : work.runNow s = some (e, t)) (n : Nat) :
    Work.Ends drift (fun _ => false) n (work, s) (.ofWork e, t) := by
  induction work generalizing s n with
  | done r | crash m =>
    cases h
    exact .ended (hdrift _) rfl
  | act f rest ih => exact .next (hdrift s) rfl (ih s h (n + 1))
  | sleep | awaitCancel => simp [Work.runNow] at h

theorem Walk.goes_advance {drift : σ → σ → Prop} {ok : ρ → Prop} {okay : ρ → Bool}
    (hdrift : ∀ s, drift s s) (hok : ∀ r, okay r = true → ok r) (n : Nat) (w : Walk σ ρ) (s : σ) :
    Walk.Goes drift .inOrder ok (w, s) (w.advance okay n s) := by
  induction n generalizing w s with
  | zero => exact .drop w s
  | succ n ih =>
    cases w with
    | done r =>
      rw [advance]
      split
      · next hr => exact .done (hdrift s) (hok r hr)
      · exact .drop _ s
    | act f rest => exact .act (hdrift s) (ih (rest s) (f s))
    | pause d rest => exact .pause (ih (rest false) s)
    | call limit work rest =>
      rw [advance]
      split
      · next e t hrun => exact .call (Work.ends_of_runNow hdrift hrun 0) (ih _ t)
      · exact .drop _ s
    | fork branches rest => exact .drop _ s

theorem Course.goes_advance {drift : ω → ω → Prop} {ok : β → Prop} {okay : β → Bool}
    (hdrift : ∀ w, drift w w) (hok : ∀ r, okay r = true → ok r) (n : Nat) (c : Course ω τ β α)
    (w : ω) : Course.Goes drift .inOrder ok (c, w) (c.advance okay n w) := by
  induction n generalizing c w with
  | zero => exact .drop c w
  | succ n ih =>
    cases c with
    | done a => exact .done a w
    | crash m => exact .drop _ w
    | act f rest => exact .act (ih (rest w) (f w))
    | wait d rest => exact .wait (hdrift w) (ih rest w)
    | perform => exact .drop _ w
    | walk cancelled limit own path rest =>
      have hsame : ∀ s : τ × ω, Beside drift s s := fun s => ⟨rfl, hdrift s.2⟩
      have hpath := Walk.goes_advance hsame hok n path (own, w)
      rw [advance]
      split
      · next r own' v hend =>
        rw [hend] at hpath
        exact .walk hpath (ih _ v)
      · next own' v hend =>
        rw [hend] at hpath
        exact .inWalk hpath

end DurableWorkflow
