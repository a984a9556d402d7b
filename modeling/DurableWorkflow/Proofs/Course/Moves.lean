import DurableWorkflow.Proofs.Walk.Schedule
import Mathlib.Order.WellFounded

/-!
# The ways of a course

A course that has come to its value has gone through its parts one after the other: an action in
some world, a walk to a report or to where its limit was over, work to its end.
-/

namespace DurableWorkflow

variable {ω τ β α : Type} {drift : ω → ω → Prop} {w v : ω} {a : α}

/-- The others have had their turns. -/
abbrev Drifts (drift : ω → ω → Prop) : ω → ω → Prop := Relation.ReflTransGen drift

/-- The course comes from this world to the value `a` in the world `v`. -/
abbrev Course.Comes (drift : ω → ω → Prop) (c : Course ω τ β α) (w : ω) (a : α) (v : ω) : Prop :=
  Moves drift Course.Step (c, w) (.done a, v)

/-- From the end to the beginning. -/
theorem Moves.back {γ : Type} {step : γ × ω → γ × ω → Prop} {P : γ → ω → Prop} {b c : γ}
    (hdone : P b v)
    (hstep : ∀ {c c' w u}, step (c, w) (c', u) → Moves drift step (c', u) (b, v) → P c' u → P c w)
    (hdrift : ∀ {c w u}, drift w u → P c u → P c w) (h : Moves drift step (c, w) (b, v)) : P c w := by
  have hall : ∀ x : γ × ω, Moves drift step x (b, v) → P x.1 x.2 := by
    intro x hx
    induction hx using Relation.ReflTransGen.head_induction_on with
    | refl => exact hdone
    | @head x z hmove hrest ih =>
      obtain ⟨c, w⟩ := x
      obtain ⟨c', u⟩ := z
      rcases hmove with hmove | ⟨hsame, hmove⟩
      · exact hstep hmove hrest ih
      · obtain rfl : c' = c := hsame
        exact hdrift hmove ih
  exact hall (c, w) h

namespace Course.Comes

theorem done {b : α} (h : Comes drift (.done b : Course ω τ β α) w a v) :
    b = a ∧ Drifts drift w v := by
  refine h.back (P := fun c w => c = .done b → b = a ∧ Drifts drift w v) ?_ ?_ ?_ rfl
  · rintro ⟨⟩
    exact ⟨rfl, .refl⟩
  · rintro _ _ w u hstep _ _ rfl
    cases hstep
  · intro _ w u hdrift ih hc
    exact ⟨(ih hc).1, .head hdrift (ih hc).2⟩

theorem not_crash {m : String} : ¬Comes drift (.crash m : Course ω τ β α) w a v := by
  intro h
  refine h.back (P := fun (c : Course ω τ β α) _ => c ≠ .crash m) (by simp) ?_ (fun _ ih => ih) rfl
  rintro _ _ w u hstep _ _ rfl
  cases hstep

theorem act {f : ω → ω} {rest : ω → Course ω τ β α} (h : Comes drift (.act f rest) w a v) :
    ∃ u, Drifts drift w u ∧ (rest u).Comes drift (f u) a v := by
  refine h.back (P := fun c w => c = .act f rest → ∃ u, Drifts drift w u ∧
    (rest u).Comes drift (f u) a v) (by simp) ?_ ?_ rfl
  · rintro _ _ w u hstep hrest _ rfl
    cases hstep
    exact ⟨w, .refl, hrest⟩
  · intro _ w u hdrift ih hc
    obtain ⟨t, ht, hrest⟩ := ih hc
    exact ⟨t, .head hdrift ht, hrest⟩

/-- A walk has gone on among the others, to a report or for as long as its limit lets it. -/
theorem walk {cancelled : ω → Bool} {limit : Option Nanos} {own : τ} {path : Walk (τ × ω) β}
    {rest : τ → Option β → Course ω τ β α}
    (h : Comes drift (.walk cancelled limit own path rest) w a v) :
    ∃ path' own' u report, Moves (Beside drift) Walk.Step (path, own, w) (path', own', u) ∧
      (∀ r, report = some r → path' = .done r) ∧ (report = none → limit.isSome = true) ∧
      (rest own' report).Comes drift u a v := by
  refine h.back (P := fun c w => ∀ path own, c = .walk cancelled limit own path rest →
    ∃ path' own' u report, Moves (Beside drift) Walk.Step (path, own, w) (path', own', u) ∧
      (∀ r, report = some r → path' = .done r) ∧ (report = none → limit.isSome = true) ∧
      (rest own' report).Comes drift u a v) (by simp) ?_ ?_ path own rfl
  · rintro _ _ w u hstep hrest ih path own rfl
    cases hstep with
    | walk hwalk =>
      obtain ⟨path', own', t, report, hmoves, hend⟩ := ih _ _ rfl
      exact ⟨path', own', t, report, .head (.inl hwalk) hmoves, hend⟩
    | arrive _ _ _ r _ _ =>
      refine ⟨.done r, own, w, some r, .refl, fun r' hr' => ?_, by simp, hrest⟩
      rw [Option.some.inj hr']
    | late => exact ⟨path, own, w, none, .refl, by simp, fun _ => rfl, hrest⟩
  · intro _ w u hdrift ih path own hc
    obtain ⟨path', own', t, report, hmoves, hend⟩ := ih path own hc
    exact ⟨path', own', t, report, .head (b := (path, own, u)) (.inr ⟨rfl, rfl, hdrift⟩) hmoves, hend⟩

theorem perform {cancelled : ω → Bool} {own : τ} {work : Work (τ × ω) StepResult}
    {rest : τ → Work.End StepResult → Course ω τ β α}
    (h : Comes drift (.perform cancelled own work rest) w a v) :
    ∃ e own' u, Moves (Beside drift) Work.Step (work, own, w) (e.work, own', u) ∧
      (rest own' e).Comes drift u a v := by
  refine h.back (P := fun c w => ∀ work own, c = .perform cancelled own work rest →
    ∃ e own' u, Moves (Beside drift) Work.Step (work, own, w) (e.work, own', u) ∧
      (rest own' e).Comes drift u a v) (by simp) ?_ ?_ work own rfl
  · rintro _ _ w u hstep hrest ih work own rfl
    cases hstep with
    | work hwork =>
      obtain ⟨e, own', t, hmoves, hend⟩ := ih _ _ rfl
      exact ⟨e, own', t, .head (.inl hwork) hmoves, hend⟩
    | done _ _ r _ _ => exact ⟨.done r, own, w, .refl, hrest⟩
    | crash _ _ m _ _ => exact ⟨.crash m, own, w, .refl, hrest⟩
  · intro _ w u hdrift ih work own hc
    obtain ⟨e, own', t, hmoves, hend⟩ := ih work own hc
    exact ⟨e, own', t, .head (b := (work, own, u)) (.inr ⟨rfl, rfl, hdrift⟩) hmoves, hend⟩

end Course.Comes

namespace Course.Timely

theorem moves {x y : Course ω τ β α × ω} (h : Moves drift Timely x y) : Moves drift Step x y :=
  h.lift id fun _ _ hmove => hmove.imp_left And.left

theorem act {f : ω → ω} {rest : ω → Course ω τ β α}
    (h : Moves drift Timely (.act f rest, w) (.done a, v)) :
    ∃ u, Drifts drift w u ∧ Moves drift Timely (rest u, f u) (.done a, v) := by
  refine h.back (P := fun c w => c = .act f rest → ∃ u, Drifts drift w u ∧
    Moves drift Timely (rest u, f u) (.done a, v)) (by simp) ?_ ?_ rfl
  · rintro _ _ w u ⟨hstep, -⟩ hrest _ rfl
    cases hstep
    exact ⟨w, .refl, hrest⟩
  · intro _ w u hdrift ih hc
    obtain ⟨t, ht, hrest⟩ := ih hc
    exact ⟨t, .head hdrift ht, hrest⟩

/-- A walk that was late had not come to its report. -/
theorem walk_comes {cancelled : ω → Bool} {limit : Option Nanos} {own : τ} {path : Walk (τ × ω) β}
    {rest : τ → Option β → Course ω τ β α}
    (h : Moves drift Timely (.walk cancelled limit own path rest, w) (.done a, v)) :
    ∃ path' own' u report, Moves (Beside drift) Walk.Step (path, own, w) (path', own', u) ∧
      (∀ r, path' = .done r ↔ report = some r) ∧ (report = none → limit.isSome = true) ∧
      (rest own' report).Comes drift u a v := by
  refine h.back (P := fun c w => ∀ path own, c = .walk cancelled limit own path rest →
    ∃ path' own' u report, Moves (Beside drift) Walk.Step (path, own, w) (path', own', u) ∧
      (∀ r, path' = .done r ↔ report = some r) ∧ (report = none → limit.isSome = true) ∧
      (rest own' report).Comes drift u a v) (by simp) ?_ ?_ path own rfl
  · rintro _ _ w u ⟨hstep, htimely⟩ hrest ih path own rfl
    cases hstep with
    | walk hwalk =>
      obtain ⟨path', own', t, report, hmoves, hend⟩ := ih _ _ rfl
      exact ⟨path', own', t, report, .head (.inl hwalk) hmoves, hend⟩
    | arrive _ _ _ r _ _ =>
      exact ⟨.done r, own, w, some r, .refl, fun r' => by simp, by simp, moves hrest⟩
    | late =>
      by_cases hpath : ∃ r, path = .done r
      · obtain ⟨r, rfl⟩ := hpath
        have hsame := htimely _ _ _ r _ rfl
        exact ⟨.done r, own, w, some r, .refl, fun r' => by simp, by simp, hsame ▸ moves hrest⟩
      · refine ⟨path, own, w, none, .refl, fun r => ⟨fun hr => ?_, by simp⟩, fun _ => rfl, moves hrest⟩
        exact absurd ⟨r, hr⟩ hpath
  · intro _ w u hdrift ih path own hc
    obtain ⟨path', own', t, report, hmoves, hend⟩ := ih path own hc
    exact ⟨path', own', t, report, .head (b := (path, own, u)) (.inr ⟨rfl, rfl, hdrift⟩) hmoves, hend⟩

end Course.Timely

/-!
## Courses end

Whatever a step leaves of a course is less than the course: of a call there is less work left, and
of a fork fewer branches or a branch of which there is less. So no course goes on forever, whatever
becomes of the state between its steps (`Course.breaks_off`).
-/

variable {σ ρ : Type}

namespace Work

/-- A step of the work leaves this of it. -/
def Left (work' work : Work σ α) : Prop := ∃ s s', Step (work, s) (work', s')

theorem acc (work : Work σ α) : Acc Left work := by
  induction work with
  | done | crash =>
    refine ⟨_, fun work' h => ?_⟩
    obtain ⟨s, s', hstep⟩ := h
    cases hstep
  | act f rest ih =>
    refine ⟨_, fun work' h => ?_⟩
    obtain ⟨s, s', hstep⟩ := h
    cases hstep
    exact ih s
  | sleep d rest ih | awaitCancel rest ih =>
    refine ⟨_, fun work' h => ?_⟩
    obtain ⟨s, s', hstep⟩ := h
    cases hstep
    exact ih

end Work

namespace Walk

/-- A step of the walk leaves this of it. -/
def Left (w' w : Walk σ ρ) : Prop := ∃ s s', Step (w, s) (w', s')

/-- The turn of a branch leaves these branches. -/
def BranchesLeft (ws' ws : List (Walk σ ρ)) : Prop := ∃ s s', Turn (ws, s) (ws', s')

theorem acc_call (limit : Option Nanos) {work : Work σ StepResult} {rest : CallEnd → Walk σ ρ}
    (hwork : Acc Work.Left work) (hrest : ∀ e, Acc Left (rest e)) :
    Acc Left (.call limit work rest) := by
  induction hwork with
  | intro work _ ih =>
    refine ⟨_, fun w' h => ?_⟩
    obtain ⟨s, s', hstep⟩ := h
    cases hstep with
    | work h => exact ih _ ⟨_, _, h⟩
    | done | crash | late | cancel => exact hrest _

/-- Either the first branch has its turn, or one of the others. -/
theorem acc_branches {w : Walk σ ρ} (hw : Acc Left w) {ws : List (Walk σ ρ)}
    (hws : Acc BranchesLeft ws) : Acc BranchesLeft (w :: ws) := by
  induction hw generalizing ws with
  | intro w _ ihw =>
    induction hws with
    | intro ws hws ihws =>
      refine ⟨_, fun ws' h => ?_⟩
      obtain ⟨s, s', hturn⟩ := h
      generalize hx : (w :: ws, s) = x at hturn
      cases hturn with
      | step before after h =>
        cases before with
        | nil =>
          cases hx
          exact ihw _ ⟨_, _, h⟩ ⟨ws, hws⟩
        | cons v before =>
          cases hx
          exact ihws _ ⟨_, _, .step before after h⟩
      | leave before after r =>
        cases before with
        | nil =>
          cases hx
          exact ⟨_, hws⟩
        | cons v before =>
          cases hx
          exact ihws _ ⟨s, s, .leave before after r s⟩

theorem acc_fork {branches : List (Walk σ ρ)} (hbranches : Acc BranchesLeft branches)
    {rest : List ρ → Walk σ ρ} (hrest : ∀ rs, Acc Left (rest rs)) :
    Acc Left (.fork branches rest) := by
  induction hbranches generalizing rest with
  | intro branches _ ih =>
    refine ⟨_, fun w' h => ?_⟩
    obtain ⟨s, s', hstep⟩ := h
    cases hstep with
    | branch before after h => exact ih _ ⟨_, _, .step before after h⟩ hrest
    | report before after r =>
      exact ih _ ⟨s, s, .leave before after r s⟩ fun rs => hrest (r :: rs)
    | join => exact hrest []

mutual

theorem acc : ∀ w : Walk σ ρ, Acc Left w
  | .done r => ⟨_, fun _ ⟨_, _, hstep⟩ => nomatch hstep⟩
  | .act f rest => by
    refine ⟨_, fun w' h => ?_⟩
    obtain ⟨s, s', hstep⟩ := h
    cases hstep
    exact acc (rest s)
  | .pause d rest => by
    refine ⟨_, fun w' h => ?_⟩
    obtain ⟨s, s', hstep⟩ := h
    cases hstep
    exact acc (rest _)
  | .call limit work rest => acc_call limit work.acc fun e => acc (rest e)
  | .fork branches rest => acc_fork (acc_all branches) fun rs => acc (rest rs)

theorem acc_all : ∀ ws : List (Walk σ ρ), Acc BranchesLeft ws
  | [] => by
    refine ⟨_, fun ws' h => ?_⟩
    obtain ⟨s, s', hturn⟩ := h
    generalize hx : (([] : List (Walk σ ρ)), s) = x at hturn
    cases hturn with
    | step before | leave before => cases before <;> cases hx
  | w :: ws => acc_branches (acc w) (acc_all ws)

end

end Walk

namespace Course

/-- A step of the course leaves this of it. -/
def Left (c' c : Course ω τ β α) : Prop := ∃ w w', Step (c, w) (c', w')

theorem acc_walk {cancelled : ω → Bool} {limit : Option Nanos} {own : τ} {path : Walk (τ × ω) β}
    {rest : τ → Option β → Course ω τ β α} (hpath : Acc Walk.Left path)
    (hrest : ∀ own r, Acc Left (rest own r)) : Acc Left (.walk cancelled limit own path rest) := by
  induction hpath generalizing own with
  | intro path _ ih =>
    refine ⟨_, fun c' h => ?_⟩
    obtain ⟨w, w', hstep⟩ := h
    cases hstep with
    | walk h => exact ih _ ⟨_, _, h⟩
    | arrive | late => exact hrest _ _

theorem acc_perform {cancelled : ω → Bool} {own : τ} {work : Work (τ × ω) StepResult}
    {rest : τ → Work.End StepResult → Course ω τ β α} (hwork : Acc Work.Left work)
    (hrest : ∀ own e, Acc Left (rest own e)) : Acc Left (.perform cancelled own work rest) := by
  induction hwork generalizing own with
  | intro work _ ih =>
    refine ⟨_, fun c' h => ?_⟩
    obtain ⟨w, w', hstep⟩ := h
    cases hstep with
    | work h => exact ih _ ⟨_, _, h⟩
    | done | crash => exact hrest _ _

theorem acc (c : Course ω τ β α) : Acc Left c := by
  induction c with
  | done | crash =>
    refine ⟨_, fun c' h => ?_⟩
    obtain ⟨w, w', hstep⟩ := h
    cases hstep
  | act f rest ih =>
    refine ⟨_, fun c' h => ?_⟩
    obtain ⟨w, w', hstep⟩ := h
    cases hstep
    exact ih w
  | wait d rest ih =>
    refine ⟨_, fun c' h => ?_⟩
    obtain ⟨w, w', hstep⟩ := h
    cases hstep
    exact ih
  | walk cancelled limit own path rest ih => exact acc_walk path.acc ih
  | perform cancelled own work rest ih => exact acc_perform work.acc ih

/-- No sequence of steps goes on forever, even if others change the world before each of them. -/
theorem breaks_off (x : Nat → Course ω τ β α × ω) :
    ∃ n, ¬∃ w, Step ((x n).1, w) (x (n + 1)) := by
  have hwell : IsWellFounded (Course ω τ β α) Left := ⟨⟨acc⟩⟩
  obtain ⟨n, hn⟩ := WellFounded.not_rel_apply_succ (r := Left) fun n => (x n).1
  refine ⟨n, fun ⟨w, hstep⟩ => hn ⟨w, (x (n + 1)).2, hstep⟩⟩

end Course

end DurableWorkflow
