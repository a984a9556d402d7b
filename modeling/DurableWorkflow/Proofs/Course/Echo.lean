import DurableWorkflow.Coordinator.Operation
import DurableWorkflow.Proofs.Run.Blind

/-!
# Courses that do the same

`c.Echoes S d` says that in worlds that `S` relates the courses `c` and `d` do the same, action by
action: they leave worlds that `S` relates, make the same walks with the same limits, and end alike.
So whatever step the one can take, the other can take, too (`Echoes.step`).
-/

namespace DurableWorkflow

variable {ω τ β α γ : Type} {S : ω → ω → Prop}

/-- In worlds that `S` relates both courses do the same. -/
inductive Course.Echoes (S : ω → ω → Prop) : Course ω τ β α → Course ω τ β α → Prop
  | done (a : α) : Echoes S (.done a) (.done a)
  | crash (m : String) : Echoes S (.crash m) (.crash m)
  | act {f g : ω → ω} {rest rest' : ω → Course ω τ β α} (hact : ∀ w v, S w v → S (f w) (g v))
    (hrest : ∀ w v, S w v → Echoes S (rest w) (rest' v)) : Echoes S (.act f rest) (.act g rest')
  | wait (d : Nanos) {rest rest' : Course ω τ β α} (hrest : Echoes S rest rest') :
    Echoes S (.wait d rest) (.wait d rest')
  | walk {cancelled : ω → Bool} (limit : Option Nanos) (own : τ) {path : Walk (τ × ω) β}
    {rest rest' : τ → Option β → Course ω τ β α}
    (hcancelled : ∀ w v, S w v → cancelled w = cancelled v) (hpath : path.Blind (Alongside S))
    (hrest : ∀ own r, Echoes S (rest own r) (rest' own r)) :
    Echoes S (.walk cancelled limit own path rest) (.walk cancelled limit own path rest')
  | perform {cancelled : ω → Bool} (own : τ) {work : Work (τ × ω) StepResult}
    {rest rest' : τ → Work.End StepResult → Course ω τ β α}
    (hcancelled : ∀ w v, S w v → cancelled w = cancelled v) (hwork : work.Blind (Alongside S))
    (hrest : ∀ own e, Echoes S (rest own e) (rest' own e)) :
    Echoes S (.perform cancelled own work rest) (.perform cancelled own work rest')

namespace Course.Echoes

variable {c d : Course ω τ β α}

theorem bind {k l : α → Course ω τ β γ} (h : c.Echoes S d) (hk : ∀ a, (k a).Echoes S (l a)) :
    (c.bind k).Echoes S (d.bind l) := by
  induction h with
  | done a => exact hk a
  | crash m => exact .crash m
  | act hact _ ih => exact .act hact ih
  | wait d _ ih => exact .wait d ih
  | walk limit own hcancelled hpath _ ih => exact .walk limit own hcancelled hpath ih
  | perform own hcancelled hwork _ ih => exact .perform own hcancelled hwork ih

theorem ensure {f : ω → ω} (h : c.Echoes S d) (hf : ∀ w v, S w v → S (f w) (f v)) :
    (c.ensure f).Echoes S (d.ensure f) := by
  induction h with
  | done a => exact .act hf fun _ _ _ => .done a
  | crash m => exact .act hf fun _ _ _ => .crash m
  | act hact _ ih => exact .act hact ih
  | wait d _ ih => exact .wait d ih
  | walk limit own hcancelled hpath _ ih => exact .walk limit own hcancelled hpath ih
  | perform own hcancelled hwork _ ih => exact .perform own hcancelled hwork ih

theorem update {f g : ω → α × ω} (h : ∀ w v, S w v → (f w).1 = (g v).1 ∧ S (f w).2 (g v).2) :
    (Course.update f : Course ω τ β α).Echoes S (Course.update g) :=
  .act (fun w v hS => (h w v hS).2) fun w v hS => (h w v hS).1 ▸ .done _

theorem modify {f g : ω → ω} (h : ∀ w v, S w v → S (f w) (g v)) :
    (Course.modify f : Course ω τ β Unit).Echoes S (Course.modify g) := .act h fun _ _ _ => .done ()

theorem read {f : ω → α} (h : ∀ w v, S w v → f w = f v) :
    (Course.read f : Course ω τ β α).Echoes S (Course.read f) :=
  .act (fun _ _ hS => hS) fun w v hS => h w v hS ▸ .done _

theorem done_iff (h : c.Echoes S d) (a : α) : c = .done a ↔ d = .done a := by
  cases h <;> simp

theorem crash_iff (h : c.Echoes S d) (m : String) : c = .crash m ↔ d = .crash m := by
  cases h <;> simp

/-- What the one course can do the other can do, and they go on doing the same. -/
theorem step {x y : Course ω τ β α × ω} (hstep : Course.Step x y) (h : x.1.Echoes S d) {v : ω}
    (hS : S x.2 v) : ∃ d' v', Course.Step (d, v) (d', v') ∧ y.1.Echoes S d' ∧ S y.2 v' := by
  cases hstep with
  | act f rest w =>
    cases h with
    | act hact hrest => exact ⟨_, _, .act _ _ v, hrest w v hS, hact w v hS⟩
  | wait d rest w =>
    cases h with
    | wait _ hrest => exact ⟨_, v, .wait _ _ v, hrest, hS⟩
  | @walk _ limit own _ _ _ _ _ _ hwalk =>
    cases h with
    | walk _ _ hcancelled hpath hrest =>
      obtain ⟨⟨_, v'⟩, ⟨rfl, hS'⟩, hstep, hpath'⟩ :=
        Walk.Blind.step (t := (own, v)) hwalk hpath ⟨rfl, hS⟩
      exact ⟨_, v', .walk hstep, .walk limit _ hcancelled hpath' hrest, hS'⟩
  | arrive cancelled limit own r rest w =>
    cases h with
    | walk _ _ _ _ hrest => exact ⟨_, v, .arrive cancelled limit own r _ v, hrest own (some r), hS⟩
  | late cancelled d own path rest w =>
    cases h with
    | walk _ _ _ _ hrest => exact ⟨_, v, .late cancelled d own path _ v, hrest own none, hS⟩
  | @work _ own _ _ _ _ _ _ hwork =>
    cases h with
    | perform _ hcancelled hblind hrest =>
      obtain ⟨⟨_, v'⟩, ⟨rfl, hS'⟩, hstep, hblind'⟩ :=
        Work.Blind.step (t := (own, v)) hwork hblind ⟨rfl, hS⟩
      exact ⟨_, v', .work hstep, .perform _ hcancelled hblind' hrest, hS'⟩
  | done cancelled own r rest w =>
    cases h with
    | perform _ _ _ hrest => exact ⟨_, v, .done cancelled own r _ v, hrest own _, hS⟩
  | crash cancelled own m rest w =>
    cases h with
    | perform _ _ _ hrest => exact ⟨_, v, .crash cancelled own m _ v, hrest own _, hS⟩

end Course.Echoes

/-! ### Runs -/

namespace Environment

variable {C H X : Type} {env : Environment C H X ω}

theorem undo_echoes (h : env.Overlooks S) (b : Board C H X) (u : Undone)
    (steps : List (NodeId × Step C H)) : (env.undo b u steps).Echoes S (env.undo b u steps) := by
  induction steps generalizing b u with
  | nil => exact .done _
  | cons entry steps ih =>
    obtain ⟨node, step⟩ := entry
    rw [undo]
    split
    · exact ih b u
    · exact .perform b (fun _ _ => h.cancelled) (onBoard_blind h _) fun b e => ih b _

theorem conclude_echoes (h : env.Overlooks S) (d : Definition C H) (begin : Nat)
    (b : Board C H X) (outcome : RunOutcome) :
    (env.conclude d begin b outcome).Echoes S (env.conclude d begin b outcome) := by
  refine Course.Echoes.bind (undo_echoes h b {} _) fun x => ?_
  refine Course.Echoes.bind (.read fun _ _ => h.instant) fun instant => ?_
  dsimp only
  split
  · exact Course.Echoes.bind (.modify fun _ _ => h.publish _) fun _ => .done _
  · exact .done _

/-- A run does the same in worlds whose difference the environment overlooks. -/
theorem run_echoes (h : env.Overlooks S) (d : Definition C H) (start : StartPoint) (context : C)
    (extra : X) : (env.run d start context extra).Echoes S (env.run d start context extra) := by
  refine Course.Echoes.bind (.read fun _ _ => h.instant) fun begin => ?_
  refine Course.Echoes.bind (.modify fun _ _ => h.publish _) fun _ => ?_
  refine .walk d.limit _ (fun _ _ => h.cancelled) (traverse_blind h d start) fun b report => ?_
  split
  · exact .crash _
  · exact .done _
  · exact Course.Echoes.bind (conclude_echoes h d begin b _) fun _ => .done _

end Environment

/-! ### Operations -/

variable {C H R : Type} {L : World R H → World R H → Prop}

/-- In worlds that `L` relates both operations do the same. -/
def Operation.Echoes (L : World R H → World R H → Prop) (op op' : Operation C H R α) : Prop :=
  Course.Echoes L op.run op'.run

namespace Operation.Echoes

theorem pure (a : α) : Operation.Echoes L (pure a : Operation C H R α) (Pure.pure a) := .done _

theorem throw (e : CoordinatorError) :
    Operation.Echoes L (throw e : Operation C H R α) (throw e) := .done _

theorem bind {op op' : Operation C H R α} {k l : α → Operation C H R γ} (h : op.Echoes L op')
    (hk : ∀ a, (k a).Echoes L (l a)) : (op >>= k).Echoes L (op' >>= l) := by
  refine Course.Echoes.bind h fun r => ?_
  cases r with
  | ok a => exact hk a
  | error e => exact .done _

theorem ofErrand {e e' : Errand C H R α} (h : e.Echoes L e') :
    (Operation.ofErrand e).Echoes L (Operation.ofErrand e') := Course.Echoes.bind h fun _ => .done _

theorem update {f g : World R H → α × World R H}
    (h : ∀ w v, L w v → (f w).1 = (g v).1 ∧ L (f w).2 (g v).2) :
    (Operation.update f : Operation C H R α).Echoes L (Operation.update g) := .ofErrand (.update h)

theorem modify {f g : World R H → World R H} (h : ∀ w v, L w v → L (f w) (g v)) :
    (Operation.modify f : Operation C H R Unit).Echoes L (Operation.modify g) :=
  .ofErrand (.modify h)

theorem crash (m : String) :
    (Operation.crash m : Operation C H R α).Echoes L (Operation.crash m) := .ofErrand (.crash m)

theorem moved (r : Except TransitionError α) :
    (Operation.moved r : Operation C H R α).Echoes L (Operation.moved r) := by
  cases r with
  | ok a => exact .pure a
  | error e => exact .throw _

theorem orThrow (e : CoordinatorError) (o : Option α) :
    (Operation.orThrow e o : Operation C H R α).Echoes L (Operation.orThrow e o) := by
  cases o with
  | some a => exact .pure a
  | none => exact .throw e

theorem now (h : ∀ w v, L w v → w.wall = v.wall) :
    (Operation.now : Operation C H R Timestamp).Echoes L Operation.now := .ofErrand (.read h)

theorem request {ask : R → Reply R α}
    (h : ∀ w v, L w v → (Operation.onStore ask w).1 = (Operation.onStore ask v).1 ∧
      L (Operation.onStore ask w).2 (Operation.onStore ask v).2) :
    (Operation.request ask : Operation C H R α).Echoes L (Operation.request ask) := by
  refine (update h).bind fun r => ?_
  cases r with
  | ok a => exact .pure a
  | error fault => exact .throw _

theorem lift (r : Except CoordinatorError α) :
    (liftM r : Operation C H R α).Echoes L (liftM r) := by
  cases r with
  | ok a => exact .pure a
  | error e => exact .throw e

end Operation.Echoes

end DurableWorkflow
