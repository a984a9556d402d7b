import DurableWorkflow.Proofs.Run.Compensation
import DurableWorkflow.Proofs.Run.Passage
import DurableWorkflow.Proofs.Run.Weights
import Mathlib.Algebra.Order.Group.Multiset

/-!
# What the entries of a run answer for

In each state something is asked of a run, and the entries of its trace answer for it. What the entries
of the main walk do not answer for is held by the walks of the run: by a step that is under way, by a
branch for its own entries, and by nobody else. A branch hands on with its report what its entries
answer for, and the main walk enters them. So where a run has come to a result and was not late, its
trace answers for all that is asked (`Honours.run_answers`); what branches held when a run was late has
been lost with their entries.
-/

namespace DurableWorkflow

variable {C H X ω κ : Type}

/-- What is asked of a run in a state, and what is at stake for a step. -/
structure Pledge (C H X ω κ : Type) where
  asked : Board C H X × ω → Multiset κ
  stakes : NodeId → String → Stakes (Multiset κ)

namespace Pledge

variable (P : Pledge C H X ω κ)

/-- What the entry answers for. -/
def given (t : StepTrace) : Multiset κ := (P.stakes t.node t.step).entry t.outcome t.attempts

def answered (entries : List StepTrace) : Multiset κ := (entries.map P.given).sum

@[simp]
theorem answered_nil : P.answered [] = 0 := rfl

@[simp]
theorem answered_singleton (t : StepTrace) : P.answered [t] = P.given t := by simp [answered]

@[simp]
theorem answered_append (l l' : List StepTrace) :
    P.answered (l ++ l') = P.answered l + P.answered l' := by simp [answered]

variable {P} in
theorem mem_answered {k : κ} {entries : List StepTrace} :
    k ∈ P.answered entries ↔ ∃ t ∈ entries, k ∈ P.given t := by
  induction entries with
  | nil => simp
  | cons t entries ih =>
    rw [← List.singleton_append, answered_append, answered_singleton, Multiset.mem_add, ih]
    simp

/-- The entries of the main walk answer for all that is not held. -/
def shares : Shares (Board C H X × ω) Report (Multiset κ) where
  sound s a := P.asked s ≤ P.answered s.1.ledger.trace + a
  still s t := P.asked t = P.asked s ∧ t.1.ledger.trace = s.1.ledger.trace
  deal _ _ _ := True
  report r a := r.isCancelled = true ∨ a = P.answered r.trace
  void r := r.isCancelled = true
  sound_still h hs := by rwa [h.1, h.2]
  report_void _ h := .inl h

variable {P} {f : Board C H X × ω → Board C H X × ω} {x y : Multiset κ}

/-- Only the main walk makes entries. -/
theorem trades (htrace : ∀ s, (f s).1.ledger.trace = s.1.ledger.trace)
    (hasked : ∀ s a, P.asked s ≤ a + x → P.asked (f s) ≤ a + y) : P.shares.Trades f x y := by
  intro v s a hs
  refine ⟨?_, trivial⟩
  have hall : P.asked s ≤ P.answered s.1.ledger.trace + a + x := by rwa [add_assoc]
  have hall' := hasked s _ hall
  rwa [add_assoc, ← htrace] at hall'

theorem trades_of_still (h : ∀ s, P.shares.still s (f s)) : P.shares.Trades f x x :=
  trades (fun s => (h s).2) fun s a hs => by rwa [(h s).1]

theorem adds_of_still (h : ∀ s, P.shares.still s (f s)) : P.shares.Adds f 0 := fun v s a hs => by
  rw [add_zero]
  exact ⟨P.shares.sound_still (h s) hs, trivial⟩

end Pledge

/-- The acts of a run are at stake as the pledge says. -/
structure Environment.Honours (env : Environment C H X ω) (P : Pledge C H X ω κ) : Prop where
  stands : ∀ node s, env.Stands P.shares node s (P.stakes node s.name)
  lost : ∀ node name, (P.stakes node name).lost 0 = 0
  board : ∀ b b' w, b'.ledger.completed = b.ledger.completed → P.asked (b', w) = P.asked (b, w)
  memory : ∀ b h w, P.asked (b, env.setMemory h w) = P.asked (b, w)
  save : ∀ {p b x w x' w'}, env.save p (x, w) = .ok (x', w') → P.asked (b, w') = P.asked (b, w)
  suspended : ∀ node signal b w,
    P.asked (b, env.announce (.runSuspended node signal) w) = P.asked (b, w)

namespace Environment.Honours

variable {env : Environment C H X ω} {P : Pledge C H X ω κ} {g : Graph C H} {a : Multiset κ}

theorem neutral (h : env.Honours P) : env.Neutral P.shares where
  stopped := rfl
  look := Pledge.adds_of_still fun _ => ⟨rfl, rfl⟩
  memory b c m w := ⟨(h.memory _ m w).trans (h.board b { b with context := c } w rfl), rfl⟩
  peak _ := Pledge.adds_of_still fun _ => ⟨h.board _ _ _ rfl, rfl⟩

/-- Nothing is at stake where no attempt was followed by another. -/
theorem after_zero (h : env.Honours P) (node : NodeId) (s : Step C H) (o : StepOutcome) :
    (P.stakes node s.name).after 0 o = 0 := by
  cases o with
  | success => exact (h.stands node s).first
  | failure => exact h.lost node s.name
  | suspended => exact (h.stands node s).first

/-! ### Visits -/

/-- The piece makes entries, and holds what they answer for. -/
abbrev Answers (P : Pledge C H X ω κ) (p : Part C H X ω Visited) : Prop :=
  ∀ a : Multiset κ, p.Holds P.shares a fun v b => b = a + P.answered v.trace

variable {branch : NodeId → Walk (Board C H X × ω) Report}

theorem runStep_answers (h : env.Honours P) (node : NodeId) (s : Step C H) (next : Option NodeId) :
    Answers P (env.runStep node s next) := by
  intro a
  refine (runStep_trades h.neutral (h.stands node s) next).mono ?_
  rintro v b ⟨t, hv, hname, rfl⟩
  rw [hv.trace, Pledge.answered_singleton, Pledge.given, hv.node, hname]

theorem silent_answers {v : Visited} (htrace : v.trace = []) :
    a = a + P.answered v.trace := by rw [htrace, Pledge.answered_nil, add_zero]

theorem reports_answer {reports : List Report} {d : Multiset κ} (h : P.shares.Reports reports d)
    (hcalm : ∀ r ∈ reports, r.isCancelled = false) :
    d = P.answered (reports.flatMap (·.trace)) := by
  induction h with
  | nil => rfl
  | @cons r rs a b hr _ ih =>
    obtain ⟨hcalm, hcalms⟩ := List.forall_mem_cons.1 hcalm
    obtain hcancelled | rfl := hr
    · rw [hcalm] at hcancelled
      cases hcancelled
    · rw [List.flatMap_cons, Pledge.answered_append, ih hcalms]

theorem runParallel_answers (h : env.Honours P)
    (hbranch : ∀ child, (branch child).Holds P.shares P.shares.report 0) (children : List NodeId)
    (next : Option NodeId) : Answers P (env.runParallel branch children next) := by
  intro a
  rw [← zero_add a]
  refine runParallel_holds h.neutral (allHold_branches hbranch children) ?_
  rintro reports d hreports hcalm
  rw [reports_answer hreports hcalm, zero_add, add_comm]
  rfl

theorem visit_answers (h : env.Honours P)
    (hbranch : ∀ child, (branch child).Holds P.shares P.shares.report 0) (node : NodeId) :
    Answers P (env.visit g branch node) := by
  intro a
  have hcount : P.shares.Adds (fun s => (env.countVisit s).2) 0 := by
    refine Pledge.adds_of_still fun s => ?_
    simp only [countVisit]
    split
    · exact ⟨rfl, rfl⟩
    · exact ⟨h.board _ _ _ rfl, rfl⟩
  refine visit_holds h.neutral hcount (fun m => silent_answers rfl) fun n => ?_
  exact enter_holds h.neutral (fun nodes => silent_answers rfl) (fun m => silent_answers rfl)
    (fun s => runStep_answers h node s n.next a) fun children _ =>
      runParallel_answers h hbranch children n.next a

theorem deliver_answers (h : env.Honours P) (node : NodeId) (signal : Signal) :
    Answers P (env.deliver g node signal) := by
  intro a
  refine deliver_holds h.neutral g signal (fun label m => silent_answers rfl)
    fun s next startedAt r => ?_
  have hsettled := settle_trades (a := a) h.neutral (h.stands node s).toBacks next startedAt r 0
  rw [h.after_zero, add_zero] at hsettled
  refine hsettled.mono ?_
  rintro v b ⟨t, hv, hname, -, -, rfl⟩
  rw [hv.trace, Pledge.answered_singleton, Pledge.given, hv.node, hname]

/-! ### Walks -/

theorem walkBranch_answers (h : env.Honours P) (fuel : Nat) (nodes : List NodeId)
    (trace : List StepTrace) :
    (env.walkBranch g fuel nodes trace).Holds P.shares P.shares.report (P.answered trace) := by
  induction fuel generalizing nodes trace with
  | zero => cases nodes <;> exact .inr rfl
  | succ fuel ih =>
    cases nodes with
    | nil => exact .inr rfl
    | cons node ahead =>
      rw [walkBranch]
      refine visit_answers h (fun child => ih [child] []) node _ _ _ (fun r b hr => .inl hr) ?_
      rintro v b rfl
      rw [← Pledge.answered_append]
      simp only
      split
      · exact ih _ _
      · exact .inr rfl
      · exact .inr rfl

/-- The main walk has been cancelled, or holds nothing any more. -/
def Settled (r : Report) (a : Multiset κ) : Prop := r.isCancelled = true ∨ a = 0

theorem checkpoint_answers (h : env.Honours P) (ahead : List NodeId) (trace : List StepTrace) :
    (env.checkpoint ahead trace).Holds P.shares a fun _ b => b = a := by
  refine (Piece.Holds.update (g := (0 : Multiset κ)) (Pledge.adds_of_still fun s => ?_)).mono
    fun _ b hb => hb.2.trans (add_zero a)
  cases hsave : env.save ⟨s.1.context, ahead.reverse, trace⟩ (s.1.extra, s.2) with
  | ok saved =>
    simp only [hsave]
    exact ⟨(h.board s.1 { s.1 with extra := saved.1 } saved.2 rfl).trans (h.save hsave), rfl⟩
  | error m =>
    simp only [hsave]
    exact ⟨rfl, rfl⟩

theorem pass_answers (h : env.Honours P) (node : NodeId) (ahead : List NodeId) (v : Visited)
    {next : List NodeId → Walk (Board C H X × ω) Report}
    (hnext : ∀ nodes, (next nodes).Holds P.shares Settled 0) :
    (env.pass node ahead v next).Holds P.shares Settled (P.answered v.trace) := by
  rintro ⟨b, w⟩ others hs
  have hasked : P.asked (b, w) ≤ P.answered b.ledger.trace + (P.answered v.trace + others) := hs
  have hentered : P.shares.sound ({ b with ledger.trace := b.ledger.trace ++ v.trace }, w)
      (0 + others) := by
    show P.asked _ ≤ P.answered (b.ledger.trace ++ v.trace) + (0 + others)
    rw [h.board b { b with ledger.trace := b.ledger.trace ++ v.trace } w rfl, Pledge.answered_append,
      zero_add, add_assoc]
    exact hasked
  have hstopped : ∀ (r : Report) (b : Multiset κ), r.isCancelled = true → Settled r b :=
    fun _ _ => .inl
  refine ⟨0, hentered, trivial, ?_⟩
  simp only
  split
  · refine checkpoint_answers h _ _ Settled _ hstopped fun fatal b hb => ?_
    subst hb
    cases fatal with
    | none => exact hnext _
    | some m => exact .inr rfl
  · exact .inr rfl
  · next signal limit _ =>
    have hsuspended : P.shares.Adds
        (fun s => (s.1, env.announce (.runSuspended node signal) s.2)) 0 :=
      Pledge.adds_of_still fun s => ⟨h.suspended node signal s.1 s.2, rfl⟩
    refine Piece.Holds.modify hsuspended Settled (fun _ => .done _) hstopped fun _ b hb => ?_
    exact .inr (hb.trans (add_zero 0))

theorem walkMain_answers (h : env.Honours P) (fuel : Nat) (nodes : List NodeId) :
    (env.walkMain g fuel nodes).Holds P.shares Settled 0 := by
  induction fuel generalizing nodes with
  | zero => cases nodes <;> exact .inr rfl
  | succ fuel ih =>
    cases nodes with
    | nil => exact .inr rfl
    | cons node ahead =>
      rw [walkMain]
      refine visit_answers h (fun child => walkBranch_answers h fuel [child] []) node _ _ _
        (fun _ _ => .inl) ?_
      rintro v b rfl
      rw [zero_add]
      exact pass_answers h node ahead v ih

theorem traverse_answers (h : env.Honours P) (d : Definition C H) (start : StartPoint) :
    (env.traverse d start).Holds P.shares Settled 0 := by
  cases start with
  | root => exact walkMain_answers h _ _
  | frontier nodes => exact walkMain_answers h _ _
  | signal node pending signal =>
    refine deliver_answers h node signal 0 _ _ (fun _ _ => .inl) ?_
    rintro v b rfl
    rw [zero_add]
    exact pass_answers h node _ v fun nodes => walkMain_answers h _ nodes

/-! ### Runs -/

variable {drift : ω → ω → Prop} {d : Definition C H} {start : StartPoint} {context : C} {extra : X}
  {result : RunResult C} {u t : ω} {board : Board C H X} {report : Option Report}
  {path : Walk (Board C H X × ω) Report}

/-- Where the walk of a run has ended that has come to a result and was not late, the entries of the
result answer for all that is asked. -/
theorem run_answers (h : env.Honours P)
    (hdrift : ∀ {b w v}, drift w v → P.asked (b, v) = P.asked (b, w))
    (hbegin : P.asked ({ context, extra }, u) = 0)
    (hpasses : env.Passes drift d start context extra result u t path board report)
    (htime : ¬result.IsLate d) : P.asked (board, t) ≤ P.answered result.trace := by
  obtain ⟨r, rfl, houtcome⟩ := hpasses.report htime
  have hstill : ∀ {s t : Board C H X × ω}, Beside drift s t → P.shares.still s t := by
    rintro ⟨b, w⟩ ⟨b', v⟩ ⟨rfl, hwv⟩
    exact ⟨hdrift hwv, rfl⟩
  have hsound : P.shares.sound ({ context, extra }, u) 0 := hbegin.trans_le (Multiset.zero_le _)
  obtain ⟨a, hall, hcancelled | rfl⟩ :=
    (traverse_answers h d start).moves hstill hpasses.walked hsound
  · have hhalt : r.halt = .cancelled := beq_iff_eq.1 hcancelled
    simp [outcome, hhalt] at houtcome
  · have hasked : P.asked (board, t) ≤ P.answered board.ledger.trace + 0 := hall
    rwa [add_zero, ← hpasses.trace] at hasked

end Environment.Honours

/-! ### What is undone is on record -/

namespace Environment

/-- Each success that can be undone is to be on record. -/
def successes (C H X ω : Type) : Pledge C H X ω (NodeId × String) where
  asked s := (s.1.ledger.completed.map fun (node, s) => (node, s.name) : List (NodeId × String))
  stakes node name :=
    { held _ := 0
      again _ := 0
      lost _ := 0
      entered _ := {(node, name)}
      entry outcome _ := if outcome.isSuccess then {(node, name)} else 0 }

variable {env : Environment C H X ω}

theorem successes_honoured (env : Environment C H X ω) : env.Honours (successes C H X ω) where
  stands node s :=
    { failure _ _ _ := Pledge.trades_of_still fun _ => ⟨rfl, rfl⟩
      success _ := by
        refine Pledge.trades (fun _ => rfl) fun b a h => ?_
        have hcompleted : (successes C H X ω).asked b ≤ a := h.trans_eq (add_zero a)
        have hasked : (successes C H X ω).asked (b.1.enter node s, b.2) =
            (successes C H X ω).asked b + if s.compensates then {(node, s.name)} else 0 := by
          simp only [successes, Board.enter, List.map_append, ← Multiset.coe_add]
          cases s.compensates <;> rfl
        rw [hasked]
        refine add_le_add hcompleted ?_
        cases s.compensates with
        | false => exact Multiset.zero_le _
        | true => exact le_refl _
      completed _ _ := Pledge.trades_of_still fun _ => ⟨rfl, rfl⟩
      suspended _ _ := rfl
      first := rfl
      again _ _ := Pledge.trades_of_still fun _ => ⟨rfl, rfl⟩
      retry _ := Pledge.trades_of_still fun _ => ⟨rfl, rfl⟩
      gaveUp _ _ := Pledge.trades_of_still fun _ => ⟨rfl, rfl⟩ }
  lost _ _ := rfl
  board _ _ _ h := by simp only [successes, h]
  memory _ _ _ := rfl
  save _ := rfl
  suspended _ _ _ _ := rfl

theorem answered_successes (entries : List StepTrace) :
    (successes C H X ω).answered entries =
      ((entries.filter (·.outcome.isSuccess)).map fun t => (t.node, t.step) : List _) := by
  induction entries with
  | nil => rfl
  | cons t entries ih =>
    rw [← List.singleton_append, Pledge.answered_append, ih, Pledge.answered_singleton,
      List.singleton_append]
    cases hsuccess : t.outcome.isSuccess with
    | false => simp [Pledge.given, successes, hsuccess]
    | true => simp [Pledge.given, successes, hsuccess]

/-- Whatever a run has undone that was not late, or has failed to undo, is on record: each time it is
another entry that tells of the success of this step at this node. -/
theorem run_records {d : Definition C H} {start : StartPoint} {context : C} {extra extra' : X}
    {result : RunResult C} {w v : ω} (h : Moves (fun _ _ => True) Course.Step
      (env.run d start context extra, w) (.done (extra', some result), v))
    (htime : ¬result.IsLate d) :
    ∃ steps : List (NodeId × Step C H),
      Undone.Of ⟨result.compensated, result.compensationFailures⟩ steps ∧
      (steps.map fun (node, s) => (node, s.name)).Subperm
        ((result.trace.filter (·.outcome.isSuccess)).map fun t => (t.node, t.step)) := by
  obtain ⟨u, t, path, board, report, -, -, hpasses⟩ := run_passes (outside_true env _) h
  have hrecorded := (successes_honoured env).run_answers (fun _ => rfl) rfl hpasses htime
  rw [answered_successes] at hrecorded
  have hdue : (env.dueSteps result.outcome board.ledger.completed).Subperm
      board.ledger.completed := by
    refine (List.filter_sublist ..).subperm.trans ?_
    split
    · exact (List.reverse_perm _).subperm
    · exact List.nil_subperm
  obtain ⟨steps, hperm, hsub⟩ := hdue
  refine ⟨_, hpasses.undone, .trans ?_ (Multiset.coe_le.1 hrecorded)⟩
  exact ⟨_, hperm.map _, hsub.map _⟩

/-- The train is given back, and that it was booked is on record. -/
theorem run_records_trip : ∃ result : RunResult Nat,
    Moves (fun _ _ => True) Course.Step (quietly.run trip .root 0 (), ())
      (.done ((), some result), ()) ∧
    ¬result.IsLate trip ∧ result.compensated = ["train"] ∧
    ∃ steps : List (NodeId × Step Nat Unit),
      Undone.Of ⟨result.compensated, result.compensationFailures⟩ steps ∧
      (steps.map fun (node, s) => (node, s.name)).Subperm
        ((result.trace.filter (·.outcome.isSuccess)).map fun t => (t.node, t.step)) := by
  have hend : ((quietly.run trip .root 0 ()).inOrder ((), [])).bind (fun x => (result? x.1).map
      fun result => result.compensated) = some ["train"] := by decide +kernel
  obtain ⟨⟨⟩, result, ⟨⟩, hmoves, hcompensated⟩ := exists_of_inOrder hend fun _ _ => True
  have htime : ¬result.IsLate trip := by
    rintro ⟨limit, hlimit, -⟩
    cases hlimit
  exact ⟨result, hmoves, htime, hcompensated, run_records hmoves htime⟩

end Environment

end DurableWorkflow
