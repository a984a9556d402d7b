import DurableWorkflow.Proofs.Run.Calm
import Mathlib.Logic.Relation

/-!
# Branches that take turns

How a walk goes on that nobody cancels, one atomic action at a time, with the branches of a fork
taking turns in any order. Whether a call is late is a matter of its own waits: of a limit something
is left after a wait, or the wait is too long. Between two turns the world may go on in whatever way
leaves the memory of the steps alone.
-/

namespace DurableWorkflow

variable {σ ρ α C H X ω : Type}

/-- What is left of a limit after a wait; nothing if the wait is too long. Of a limit `l` there is
`pass l d` left after a wait of length `d`. -/
def remaining (pass : Nanos → Nanos → Option Nanos) : Option Nanos → Nanos → Option (Option Nanos)
  | none, _ => some none
  | some l, d => (pass l d).map some

/-- One step of a walk that is not cancelled, or of a branch of it. -/
inductive Walk.Move (pass : Nanos → Nanos → Option Nanos) : Walk σ ρ × σ → Walk σ ρ × σ → Prop
  | act (f : σ → σ) (rest : σ → Walk σ ρ) (s : σ) : Move pass (.act f rest, s) (rest s, f s)
  | pause (d : Nanos) (rest : Bool → Walk σ ρ) (s : σ) :
    Move pass (.pause d rest, s) (rest false, s)
  | work (limit : Option Nanos) (f : σ → σ) (work : σ → Work σ StepResult)
      (rest : CallEnd → Walk σ ρ) (s : σ) :
    Move pass (.call limit (.act f work) rest, s) (.call limit (work s) rest, f s)
  | sleep {limit limit' : Option Nanos} {d : Nanos} (work : Work σ StepResult)
      (rest : CallEnd → Walk σ ρ) (s : σ) (h : remaining pass limit d = some limit') :
    Move pass (.call limit (.sleep d work) rest, s) (.call limit' work rest, s)
  | late {limit : Option Nanos} {d : Nanos} (work : Work σ StepResult)
      (rest : CallEnd → Walk σ ρ) (s : σ) (h : remaining pass limit d = none) :
    Move pass (.call limit (.sleep d work) rest, s) (rest .timedOut, s)
  /-- Work that waits for being cancelled waits until its limit is over. -/
  | await (limit : Nanos) (work : Work σ StepResult) (rest : CallEnd → Walk σ ρ) (s : σ) :
    Move pass (.call (some limit) (.awaitCancel work) rest, s) (rest .timedOut, s)
  | done (limit : Option Nanos) (r : StepResult) (rest : CallEnd → Walk σ ρ) (s : σ) :
    Move pass (.call limit (.done r) rest, s) (rest (.finished r), s)
  | crash (limit : Option Nanos) (m : String) (rest : CallEnd → Walk σ ρ) (s : σ) :
    Move pass (.call limit (.crash m) rest, s) (rest (.crashed m), s)
  | branch (before after : List (Walk σ ρ)) {w w' : Walk σ ρ} (rest : List ρ → Walk σ ρ) {s s' : σ}
      (h : Move pass (w, s) (w', s')) :
    Move pass (.fork (before ++ w :: after) rest, s) (.fork (before ++ w' :: after) rest, s')
  | report (before after : List (Walk σ ρ)) (r : ρ) (rest : List ρ → Walk σ ρ) (s : σ) :
    Move pass (.fork (before ++ .done r :: after) rest, s)
      (.fork (before ++ after) fun rs => rest (r :: rs), s)
  | join (rest : List ρ → Walk σ ρ) (s : σ) : Move pass (.fork [] rest, s) (rest [], s)

namespace Environment

variable (env : Environment C H X ω) (pass : Nanos → Nanos → Option Nanos)

/-- What steps leave in the memory is there, and stays there when events are published. -/
structure Remembers : Prop where
  set : ∀ h w, env.memory (env.setMemory h w) = h
  publish : ∀ e w, env.memory (env.publish e w) = env.memory w

/-- Nobody has cancelled, and the limit on visits has not been passed. -/
structure Quiet (s : Board C H X × ω) : Prop where
  cancelled : env.cancelled s.2 = false
  visits : s.1.visits ≤ env.options.maxNodeVisits

/-- A turn of a walk, or something that happens beside it. -/
inductive Tick : Walk (Board C H X × ω) Report × Board C H X × ω →
    Walk (Board C H X × ω) Report × Board C H X × ω → Prop
  | move {w w' : Walk (Board C H X × ω) Report} {s s' : Board C H X × ω}
      (h : Walk.Move pass (w, s) (w', s')) : Tick (w, s) (w', s')
  | beside (w : Walk (Board C H X × ω) Report) (b : Board C H X) {v v' : ω}
      (h : env.memory v' = env.memory v) : Tick (w, b, v) (w, b, v')

/-- The walk gets from the one place to the other, by any turns of its branches, without being
cancelled and within the limit on visits. -/
def Interleaves : Walk (Board C H X × ω) Report × Board C H X × ω →
    Walk (Board C H X × ω) Report × Board C H X × ω → Prop :=
  Relation.ReflTransGen fun x y => env.Tick pass x y ∧ env.Quiet y.2

/-- Begun at `s`, the part hands on `a` at `t`, whatever is to follow it. -/
def HandsOn (p : Part C H X ω α) (s : Board C H X × ω) (a : α) (t : Board C H X × ω) : Prop :=
  ∀ k, env.Interleaves pass (p k, s) (k a, t)

variable {env pass} {s t : Board C H X × ω} {r : Report}

namespace Interleaves

theorem trans {x y z : Walk (Board C H X × ω) Report × Board C H X × ω}
    (h : env.Interleaves pass x y) (h' : env.Interleaves pass y z) : env.Interleaves pass x z :=
  Relation.ReflTransGen.trans h h'

theorem branch {x y : Walk (Board C H X × ω) Report × Board C H X × ω}
    (h : env.Interleaves pass x y) (before after : List (Walk (Board C H X × ω) Report))
    (rest : List Report → Walk (Board C H X × ω) Report) :
    env.Interleaves pass (.fork (before ++ x.1 :: after) rest, x.2)
      (.fork (before ++ y.1 :: after) rest, y.2) := by
  refine h.lift (fun x => (Walk.fork (before ++ x.1 :: after) rest, x.2)) fun x y hstep => ?_
  obtain ⟨htick, hquiet⟩ := hstep
  refine ⟨?_, hquiet⟩
  cases htick with
  | move hmove => exact .move (.branch before after rest hmove)
  | beside w b hmemory => exact .beside _ b hmemory

theorem move {w w' : Walk (Board C H X × ω) Report} {s s' : Board C H X × ω}
    {y : Walk (Board C H X × ω) Report × Board C H X × ω} (h : Walk.Move pass (w, s) (w', s'))
    (hs' : env.Quiet s') (hy : env.Interleaves pass (w', s') y) : env.Interleaves pass (w, s) y :=
  .head ⟨.move h, hs'⟩ hy

/-- A walk that ends has done its first action, perhaps after something else has happened. -/
theorem of_act {f : Board C H X × ω → Board C H X × ω}
    {rest : Board C H X × ω → Walk (Board C H X × ω) Report} (hs : env.Quiet s)
    (h : env.Interleaves pass (.act f rest, s) (.done r, t)) :
    ∃ s', env.Quiet s' ∧ env.Quiet (f s') ∧ (∀ w, env.Interleaves pass (w, s) (w, s')) ∧
      env.Interleaves pass (rest s', f s') (.done r, t) := by
  generalize hx : (Walk.act f rest, s) = x at h
  induction h using Relation.ReflTransGen.head_induction_on generalizing s with
  | refl => cases hx
  | head hstep hrest ih =>
    subst hx
    obtain ⟨htick, hquiet⟩ := hstep
    cases htick with
    | move hmove =>
      cases hmove with
      | act => exact ⟨s, hs, hquiet, fun w => .refl, hrest⟩
    | beside w b hmemory =>
      obtain ⟨s', hs', hf, hbeside, hmore⟩ := ih hquiet rfl
      refine ⟨s', hs', hf, fun w => ?_, hmore⟩
      exact .head ⟨.beside w b hmemory, hquiet⟩ (hbeside w)

/-- A walk that ends has collected the reports of its branches. -/
theorem of_fork {ws : List (Walk (Board C H X × ω) Report)}
    {rest : List Report → Walk (Board C H X × ω) Report}
    (h : env.Interleaves pass (.fork ws rest, s) (.done r, t)) :
    ∃ rs u, env.Quiet u ∧ (∀ rest', env.Interleaves pass (.fork ws rest', s) (rest' rs, u)) ∧
      env.Interleaves pass (rest rs, u) (.done r, t) := by
  generalize hx : (Walk.fork ws rest, s) = x at h
  induction h using Relation.ReflTransGen.head_induction_on generalizing s ws rest with
  | refl => cases hx
  | head hstep hrest ih =>
    subst hx
    obtain ⟨htick, hquiet⟩ := hstep
    cases htick with
    | move hmove =>
      cases hmove with
      | branch before after _ hmove =>
        obtain ⟨rs, u, hu, hall, hmore⟩ := ih rfl
        refine ⟨rs, u, hu, fun rest' => ?_, hmore⟩
        exact .head ⟨.move (.branch before after rest' hmove), hquiet⟩ (hall rest')
      | report before after r =>
        obtain ⟨rs, u, hu, hall, hmore⟩ := ih rfl
        refine ⟨r :: rs, u, hu, fun rest' => ?_, hmore⟩
        exact .head ⟨.move (.report before after r rest' _), hquiet⟩ (hall _)
      | join =>
        exact ⟨[], s, hquiet, fun rest' => .single ⟨.move (.join rest' s), hquiet⟩, hrest⟩
    | beside w b hmemory =>
      obtain ⟨rs, u, hu, hall, hmore⟩ := ih rfl
      refine ⟨rs, u, hu, fun rest' => ?_, hmore⟩
      exact .head ⟨.beside _ b hmemory, hquiet⟩ (hall rest')

end Interleaves

end Environment

end DurableWorkflow
