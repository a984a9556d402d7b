import DurableWorkflow.Proofs.Run.Waits
import DurableWorkflow.Proofs.Run.Weights
import Mathlib.Algebra.Group.Prod
import Mathlib.Algebra.Order.Group.Multiset

/-!
# The books of a run

What has been counted is what subscribers have heard of and what the walks of the run hold. Each
walk holds what its entries weigh and what has been done since the last of them; a branch hands its
entries on with its report, and only the main walk has a hand in the books, from which it knows its
own entries. So when a walk ends, nothing has been counted but what its entries weigh
(`traverse_books`), whatever was lost with branches that were cancelled.
-/

namespace DurableWorkflow

variable {C H X ω : Type}

/-- Successes, attempts after which the step was tried again, and failures for good. -/
abbrev Counts := ℤ × ℤ × ℤ

def Metrics.tally (m : Metrics) : Counts := (m.executed, m.retries, m.failed)

def Happening.tally : Happening → Counts
  | .stepCompleted .. => (1, 0, 0)
  | .stepFailed _ _ _ true => (0, 1, 0)
  | .stepFailed _ _ _ false => (0, 0, 1)
  | _ => 0

/-- What has been counted and not been heard of, and the right to make entries in the books. -/
abbrev Holdings := Counts × Multiset (List StepTrace)

/-- The right of the main walk, which has made these entries. -/
def Holdings.hand (entries : List StepTrace) : Holdings := (0, {entries})

/-- What is counted, less what is heard: all that is told is heard `k` times. -/
def Weights.counted (k : ℤ) : Weights Holdings where
  executed := ((1, 0, 0), 0)
  failed := ((0, 0, 1), 0)
  retried := ((0, 1, 0), 0)
  completed := (-k • (1, 0, 0), 0)
  gaveUp := (-k • (0, 0, 1), 0)
  again := (-k • (0, 1, 0), 0)

def TraceOutcome.isFailure : TraceOutcome → Bool
  | failed .. => true
  | succeeded | suspended _ => false

/-- What the entry tells of. -/
def StepTrace.tally (t : StepTrace) : Counts :=
  (if t.outcome.isSuccess then 1 else 0, (t.attempts - 1 : Nat),
    if t.outcome.isFailure then 1 else 0)

theorem Weights.counted_ofEntry (k : ℤ) (t : StepTrace) :
    (Weights.counted k).ofEntry t = ((1 - k) • t.tally, 0) := by
  obtain ⟨step, node, startedAt, completedAt, outcome, attempts⟩ := t
  cases outcome <;>
    simp [ofEntry, ofEnd, ofLast, counted, StepTrace.tally, TraceOutcome.isSuccess,
      TraceOutcome.isFailure, sub_eq_neg_add, mul_comm, add_comm (1 : ℤ) (-k)]

theorem Weights.counted_ofTrace (k : ℤ) (entries : List StepTrace) :
    (Weights.counted k).ofTrace entries = ((1 - k) • (entries.map StepTrace.tally).sum, 0) := by
  induction entries with
  | nil => exact Prod.ext (zsmul_zero _).symm rfl
  | cons t entries ih =>
    rw [ofTrace, List.map_cons, List.sum_cons, ← ofTrace, ih, counted_ofEntry, List.map_cons,
      List.sum_cons, zsmul_add]
    rfl

/-- All that is told of steps is heard `k` times. -/
structure Environment.Hears (env : Environment C H X ω) (heard : ω → Counts) (k : ℤ) : Prop where
  announce : ∀ what w, heard (env.announce what w) = heard w + k • what.tally
  memory : ∀ h w, heard (env.setMemory h w) = heard w
  save : ∀ {p x w x' w'}, env.save p (x, w) = .ok (x', w') → heard w' = heard w

/-- A walk that has made these entries may end like this. -/
structure Report.Closes (entries : List StepTrace) (r : Report) : Prop where
  attempts : ∀ t ∈ entries, 1 ≤ t.attempts
  drained : r.halt = .drained → Succeeded entries
  suspended : ∀ s, r.halt = .suspended s → ∃ before t, entries = before ++ [t] ∧
    Succeeded before ∧ t.node = s.node ∧ t.outcome = .suspended s.signal

/-- What comes of a visit of the node, of which these entries tell. -/
structure Visited.Tells (node : NodeId) (v : Visited) : Prop where
  attempts : ∀ t ∈ v.trace, 1 ≤ t.attempts
  onward : ∀ nodes, v.turn = .onward nodes → Succeeded v.trace
  suspended : ∀ signal limit, v.turn = .suspended signal limit →
    ∃ t, v.trace = [t] ∧ t.node = node ∧ t.outcome = .suspended signal

theorem Visited.OfStep.tells {node : NodeId} {t : StepTrace} {v : Visited} (h : v.OfStep node t) :
    v.Tells node := by
  refine ⟨fun u hu => ?_, fun nodes hnodes u hu => ?_, fun signal limit hturn =>
    ⟨t, h.trace, h.node, h.suspended signal limit hturn⟩⟩
  · rw [h.trace, List.mem_singleton] at hu
    exact hu ▸ h.attempts
  · rw [h.trace, List.mem_singleton] at hu
    exact hu ▸ h.onward nodes hnodes

namespace Environment

/-- What has been counted and not been heard of. -/
def balance (heard : ω → Counts) (s : Board C H X × ω) : Counts :=
  s.1.ledger.metrics.tally - heard s.2

/-- The walks hold what has been counted and not been heard of, and one of them, the main walk, has
a hand in the books. -/
def accounts (C H X : Type) {ω : Type} (heard : ω → Counts) (k : ℤ) :
    Shares (Board C H X × ω) Report Holdings where
  sound s a := balance heard s = a.1 ∧ a.2 = {s.1.ledger.trace}
  still s t := balance heard t = balance heard s ∧ t.1.ledger.trace = s.1.ledger.trace
  deal _ _ _ := True
  report r a := r.isCancelled = true ∨ r.Closes r.trace ∧
    (r.halt = .drained ∨ ∃ f, r.halt = .failed f) ∧ a = (Weights.counted k).ofTrace r.trace
  void r := r.isCancelled = true
  sound_still h hs := ⟨h.1.trans hs.1, by rw [hs.2, h.2]⟩
  report_void _ h := .inl h

variable {env : Environment C H X ω} {heard : ω → Counts} {k : ℤ} {g : Graph C H}

theorem accounts_adds {f : Board C H X × ω → Board C H X × ω} {y : Counts}
    (h : ∀ s, balance heard (f s) = balance heard s + y ∧
      (f s).1.ledger.trace = s.1.ledger.trace) : (accounts C H X heard k).Adds f (y, 0) := by
  rintro v s ⟨held, hands⟩ ⟨hheld, hhands⟩
  obtain ⟨hbalance, htrace⟩ := h s
  refine ⟨⟨?_, ?_⟩, trivial⟩
  · rw [hbalance, hheld]
    rfl
  · rw [htrace, ← hhands]
    exact add_zero hands

theorem balance_add {b b' : Board C H X} {w : ω} {y : Counts}
    (h : b'.ledger.metrics.tally = b.ledger.metrics.tally + y) :
    balance heard (b', w) = balance heard (b, w) + y := by
  simp only [balance, h, add_sub_right_comm]

theorem accounts_weighs (h : env.Hears heard k) :
    env.Weighs (accounts C H X heard k) (Weights.counted k) where
  stopped := rfl
  look := accounts_adds fun s => ⟨(add_zero _).symm, rfl⟩
  memory b c m w := ⟨by simp only [balance, h.memory], rfl⟩
  success node s := accounts_adds fun b => ⟨balance_add (by simp [Board.enter, Metrics.tally]), rfl⟩
  failure := accounts_adds fun s => ⟨balance_add (by simp [Metrics.tally]), rfl⟩
  retry := accounts_adds fun s => ⟨balance_add (by simp [Metrics.tally]), rfl⟩
  peak bytes := accounts_adds fun s => ⟨(add_zero _).symm, rfl⟩
  announce what _ := by
    have hweight : (Weights.counted k).heard what = (-k • what.tally, 0) := by
      cases what with
      | stepFailed _ _ _ willRetry => cases willRetry <;> rfl
      | stepCompleted => rfl
      | _ => exact Prod.ext (zsmul_zero (-k)).symm rfl
    rw [hweight]
    refine accounts_adds fun s => ⟨?_, rfl⟩
    simp only [balance, h.announce, neg_zsmul]
    abel

/-! ### Reports of branches -/

theorem reports_accounts {reports : List Report} {d : Holdings}
    (h : (accounts C H X heard k).Reports reports d)
    (hcalm : ∀ r ∈ reports, r.isCancelled = false) :
    d = (Weights.counted k).ofTrace (reports.flatMap (·.trace)) ∧
      ∀ r ∈ reports, r.Closes r.trace ∧ (r.halt = .drained ∨ ∃ f, r.halt = .failed f) := by
  induction h with
  | nil => exact ⟨rfl, by simp⟩
  | @cons r rs a b hr hrs ih =>
    obtain ⟨hcalm, hcalms⟩ := List.forall_mem_cons.1 hcalm
    obtain ⟨rfl, hall⟩ := ih hcalms
    rcases hr with hcancelled | ⟨hcloses, hend, rfl⟩
    · rw [hcancelled] at hcalm
      cases hcalm
    · refine ⟨?_, List.forall_mem_cons.2 ⟨⟨hcloses, hend⟩, hall⟩⟩
      rw [List.flatMap_cons, Weights.ofTrace_append]

theorem join_tells (node : NodeId) {reports : List Report} (next : Option NodeId)
    (h : ∀ r ∈ reports, r.Closes r.trace ∧ (r.halt = .drained ∨ ∃ f, r.halt = .failed f)) :
    (join reports next).Tells node := by
  refine ⟨fun t ht => ?_, fun nodes hnodes t ht => ?_, fun signal limit hturn => ?_⟩
  · obtain ⟨r, hr, ht⟩ := List.mem_flatMap.1 ht
    exact (h r hr).1.attempts t ht
  · obtain ⟨r, hr, ht⟩ := List.mem_flatMap.1 ht
    simp only [join] at hnodes
    split at hnodes
    · simp at hnodes
    · next hnone =>
      -- No branch has failed, so each has come to its end.
      rcases (h r hr).2 with hdrained | ⟨f, hf⟩
      · exact (h r hr).1.drained hdrained t ht
      · have hfailure := List.findSome?_eq_none_iff.1 hnone r hr
        simp [Report.failure?, hf] at hfailure
  · simp only [join] at hturn
    split at hturn <;> simp at hturn

/-! ### Visits -/

variable {branch : NodeId → Walk (Board C H X × ω) Report} {a : Holdings}

theorem runParallel_books (h : env.Hears heard k)
    (hbranch : ∀ c, (branch c).Holds (accounts C H X heard k) (accounts C H X heard k).report 0)
    (node : NodeId) (children : List NodeId) (next : Option NodeId) :
    (env.runParallel branch children next).Holds (accounts C H X heard k) a fun v b =>
      v.Tells node ∧ b = a + (Weights.counted k).ofTrace v.trace := by
  rw [← zero_add a]
  refine runParallel_holds (accounts_weighs h).toNeutral (allHold_branches hbranch children) ?_
  rintro reports d hreports hcalm
  obtain ⟨rfl, hall⟩ := reports_accounts hreports hcalm
  exact ⟨join_tells node next hall, by rw [zero_add]; exact add_comm _ a⟩

/-- Nothing has been done yet, and nothing is told. -/
theorem silent_books {node : NodeId} {v : Visited} (htrace : v.trace = [])
    (hturn : ∀ signal limit, v.turn ≠ .suspended signal limit) :
    v.Tells node ∧ a = a + (Weights.counted k).ofTrace v.trace := by
  refine ⟨⟨by simp [htrace], fun _ _ => by simp [htrace, Succeeded], fun signal limit h =>
    absurd h (hturn signal limit)⟩, ?_⟩
  rw [htrace, Weights.ofTrace_nil, add_zero]

theorem enter_books (h : env.Hears heard k)
    (hbranch : ∀ c, (branch c).Holds (accounts C H X heard k) (accounts C H X heard k).report 0)
    (node : NodeId) (n : Node C H) :
    (env.enter branch node n).Holds (accounts C H X heard k) a fun v b =>
      v.Tells node ∧ b = a + (Weights.counted k).ofTrace v.trace := by
  refine enter_holds (accounts_weighs h).toNeutral (fun nodes => ?_) (fun m => ?_) (fun s => ?_)
    fun children _ => runParallel_books h hbranch node children n.next
  · exact silent_books rfl (by simp [Visited.onward])
  · exact silent_books rfl (by simp [Visited.engineFailure])
  · refine (runStep_holds (accounts_weighs h) node s n.next).mono ?_
    rintro v b ⟨t, hv, rfl⟩
    exact ⟨hv.tells, by rw [hv.trace, Weights.ofTrace_singleton]⟩

theorem visit_books (h : env.Hears heard k)
    (hbranch : ∀ c, (branch c).Holds (accounts C H X heard k) (accounts C H X heard k).report 0)
    (node : NodeId) :
    (env.visit g branch node).Holds (accounts C H X heard k) a fun v b =>
      v.Tells node ∧ b = a + (Weights.counted k).ofTrace v.trace := by
  have hcount : (accounts C H X heard k).Adds (fun s => (env.countVisit s).2) 0 := by
    refine accounts_adds fun s => ?_
    simp only [countVisit]
    split <;> exact ⟨(add_zero _).symm, rfl⟩
  exact visit_holds (accounts_weighs h).toNeutral hcount
    (fun m => silent_books rfl (by simp [Visited.engineFailure])) (enter_books h hbranch node)

theorem walkBranch_books (h : env.Hears heard k) (fuel : Nat) (nodes : List NodeId)
    {trace : List StepTrace} (hattempts : ∀ t ∈ trace, 1 ≤ t.attempts) (htrace : Succeeded trace) :
    (env.walkBranch g fuel nodes trace).Holds (accounts C H X heard k)
      (accounts C H X heard k).report ((Weights.counted k).ofTrace trace) := by
  induction fuel generalizing nodes trace with
  | zero =>
    cases nodes with
    | nil => exact .inr ⟨⟨hattempts, fun _ => htrace, by simp⟩, .inl rfl, rfl⟩
    | cons node ahead => exact .inr ⟨⟨hattempts, by simp, by simp⟩, .inr ⟨_, rfl⟩, rfl⟩
  | succ fuel ih =>
    cases nodes with
    | nil => exact .inr ⟨⟨hattempts, fun _ => htrace, by simp⟩, .inl rfl, rfl⟩
    | cons node ahead =>
      rw [walkBranch]
      have hbranch (c : NodeId) : (env.walkBranch g fuel [c] []).Holds (accounts C H X heard k)
          (accounts C H X heard k).report 0 :=
        ih [c] (by simp) (by simp [Succeeded])
      have hvisit := visit_books (g := g) (a := (Weights.counted k).ofTrace trace) h hbranch node
      refine hvisit _ _ (fun r b hr => .inl hr) ?_
      rintro v b ⟨hv, rfl⟩
      rw [← Weights.ofTrace_append]
      have hboth : ∀ t ∈ trace ++ v.trace, 1 ≤ t.attempts := fun t ht =>
        (List.mem_append.1 ht).elim (hattempts t) (hv.attempts t)
      simp only
      split
      · next nodes hturn =>
        refine ih _ hboth fun t ht => ?_
        exact (List.mem_append.1 ht).elim (htrace t) (hv.onward nodes hturn t)
      · exact .inr ⟨⟨hboth, by simp, by simp⟩, .inr ⟨_, rfl⟩, rfl⟩
      · exact .inr ⟨⟨hboth, by simp, by simp⟩, .inr ⟨_, rfl⟩, rfl⟩

/-! ### The main walk -/

/-- Only the main walk has a hand in the books. -/
theorem sound_hand {y : Counts} {entries : List StepTrace} {others : Holdings}
    {s : Board C H X × ω}
    (h : (accounts C H X heard k).sound s ((y, 0) + Holdings.hand entries + others)) :
    s.1.ledger.trace = entries ∧ others.2 = 0 := by
  have hhands : (0 + {entries} + others.2 : Multiset (List StepTrace)) = {s.1.ledger.trace} := h.2
  rw [zero_add, Multiset.singleton_add] at hhands
  have hnone : others.2 = 0 := by
    have hcard := congrArg Multiset.card hhands
    simpa using hcard
  rw [hnone] at hhands
  exact ⟨(Multiset.singleton_inj.1 hhands).symm, hnone⟩

theorem checkpoint_books (h : env.Hears heard k) (ahead : List NodeId) (trace : List StepTrace) :
    (env.checkpoint ahead trace).Holds (accounts C H X heard k) a fun _ b => b = a := by
  refine (Piece.Holds.update (g := ((0 : Counts), (0 : Multiset (List StepTrace))))
    (accounts_adds fun s => ?_)).mono fun _ b hb => hb.2.trans (add_zero a)
  cases hsave : env.save ⟨s.1.context, ahead.reverse, trace⟩ (s.1.extra, s.2) with
  | ok saved =>
    obtain ⟨x, w⟩ := saved
    simp only [hsave]
    exact ⟨by simp only [balance, h.save hsave, add_zero], trivial⟩
  | error m =>
    simp only [hsave]
    exact ⟨(add_zero _).symm, trivial⟩

theorem pass_books (h : env.Hears heard k) {node : NodeId} {ahead : List NodeId} {v : Visited}
    {next : List NodeId → Walk (Board C H X × ω) Report} {F : Report → Holdings → Prop} {y : Counts}
    {entries : List StepTrace} (hattempts : ∀ t ∈ entries, 1 ≤ t.attempts)
    (hentries : Succeeded entries) (hv : v.Tells node)
    (hF : ∀ r b, r.isCancelled = true → F r b)
    (hnext : ∀ nodes, v.turn = .onward nodes → ∀ ahead,
      (next ahead).Holds (accounts C H X heard k) F ((y, 0) + Holdings.hand (entries ++ v.trace)))
    (hend : ∀ r, Report.Closes (entries ++ v.trace) r →
      F r ((y, 0) + Holdings.hand (entries ++ v.trace))) :
    (env.pass node ahead v next).Holds (accounts C H X heard k) F
      ((y, 0) + Holdings.hand entries) := by
  have hboth : ∀ t ∈ entries ++ v.trace, 1 ≤ t.attempts := fun t ht =>
    (List.mem_append.1 ht).elim (hattempts t) (hv.attempts t)
  rintro ⟨b, w⟩ others hs
  obtain ⟨htrace, hnone⟩ := sound_hand hs
  have hbalance : b.ledger.metrics.tally - heard w = y + 0 + others.1 := hs.1
  refine ⟨(y, 0) + Holdings.hand (entries ++ v.trace), ⟨?_, ?_⟩, trivial, ?_⟩
  · show b.ledger.metrics.tally - heard w = y + 0 + others.1
    exact hbalance
  · show (0 + {entries ++ v.trace} + others.2 : Multiset _) = {b.ledger.trace ++ v.trace}
    rw [hnone, show b.ledger.trace = entries from htrace, zero_add, add_zero]
  · simp only
    split
    · next nodes hturn =>
      refine checkpoint_books h _ _ F _ hF fun fatal b hb => ?_
      subst hb
      cases fatal with
      | none => exact hnext nodes hturn _
      | some m => exact hend _ ⟨hboth, by simp, by simp⟩
    · exact hend _ ⟨hboth, by simp, by simp⟩
    · next signal limit hturn =>
      have hsuspended : (env.announcing (.runSuspended node signal)).Holds (accounts C H X heard k)
          ((y, 0) + Holdings.hand (entries ++ v.trace)) fun _ b => b = _ :=
        (announcing_holds (accounts_weighs h) rfl).mono fun _ b hb => hb.trans (add_zero _)
      refine hsuspended F (fun _ => .done _) hF fun _ b hb => ?_
      subst hb
      refine hend _ ⟨hboth, by simp, fun s hs => ?_⟩
      cases hs
      obtain ⟨t, ht, hnode, houtcome⟩ := hv.suspended signal limit hturn
      exact ⟨entries, t, by rw [ht], hentries, hnode, houtcome⟩

/-- What a walk holds that has made these entries and done nothing since. -/
def settled (k : ℤ) (entries : List StepTrace) : Holdings :=
  (Weights.counted k).ofTrace entries + Holdings.hand entries

theorem settled_eq (k : ℤ) (entries : List StepTrace) :
    settled k entries = ((1 - k) • (entries.map StepTrace.tally).sum, 0) + Holdings.hand entries := by
  rw [settled, Weights.counted_ofTrace]

/-- The main walk makes more entries, and at its end holds what all of them weigh. -/
theorem walkMain_books (h : env.Hears heard k) {F : Report → Holdings → Prop}
    (hF : ∀ r b, r.isCancelled = true → F r b) (fuel : Nat) (nodes : List NodeId)
    {entries : List StepTrace} (hattempts : ∀ t ∈ entries, 1 ≤ t.attempts)
    (hentries : Succeeded entries)
    (hend : ∀ r more, r.Closes (entries ++ more) → F r (settled k (entries ++ more))) :
    (env.walkMain g fuel nodes).Holds (accounts C H X heard k) F (settled k entries) := by
  have hhere (r : Report) (hr : r.Closes entries) : F r (settled k entries) := by
    have hnone := hend r []
    rw [List.append_nil] at hnone
    exact hnone hr
  induction fuel generalizing nodes entries with
  | zero =>
    cases nodes with
    | nil => exact hhere _ ⟨hattempts, fun _ => hentries, by simp⟩
    | cons node ahead => exact hhere _ ⟨hattempts, by simp, by simp⟩
  | succ fuel ih =>
    cases nodes with
    | nil => exact hhere _ ⟨hattempts, fun _ => hentries, by simp⟩
    | cons node ahead =>
      rw [walkMain]
      have hbranch (c : NodeId) : (env.walkBranch g fuel [c] []).Holds (accounts C H X heard k)
          (accounts C H X heard k).report 0 :=
        walkBranch_books h fuel [c] (by simp) (by simp [Succeeded])
      refine visit_books h hbranch node _ _ hF ?_
      rintro v b ⟨hv, rfl⟩
      have hsettled : settled k entries + (Weights.counted k).ofTrace v.trace =
          ((1 - k) • ((entries ++ v.trace).map StepTrace.tally).sum, 0) + Holdings.hand entries := by
        rw [settled, add_right_comm, ← Weights.ofTrace_append, Weights.counted_ofTrace]
      rw [hsettled]
      refine pass_books h hattempts hentries hv hF (fun nodes hturn ahead => ?_) fun r hr => ?_
      · rw [← settled_eq]
        refine ih ahead (fun t ht => ?_) (fun t ht => ?_) (fun r more hr => ?_) fun r hr => ?_
        · exact (List.mem_append.1 ht).elim (hattempts t) (hv.attempts t)
        · exact (List.mem_append.1 ht).elim (hentries t) (hv.onward nodes hturn t)
        · rw [List.append_assoc] at hr ⊢
          exact hend r _ hr
        · exact hend r _ hr
      · rw [← settled_eq]
        exact hend r _ hr

/-! ### A signal -/

/-- What subscribers do not hear of: the failure of the step to which the signal is delivered. -/
def untold : StartPoint → List StepTrace → Nat
  | .signal .., t :: _ => if t.outcome.isFailure then 1 else 0
  | _, _ => 0

/-- The walk has been cancelled, or it has made these entries and holds what they weigh, less what
has been left untold. -/
def Settles (k : ℤ) (start : StartPoint) (r : Report) (a : Holdings) : Prop :=
  r.isCancelled = true ∨ ∃ entries, r.Closes entries ∧
    a + untold start entries • (Weights.counted k).gaveUp = settled k entries

/-- What a delivery weighs falls short of its entry by what is left untold. -/
theorem ofEnd_add_untold {t : StepTrace} (hattempts : t.attempts = 1) (k : ℤ) (node : NodeId)
    (pending : List NodeId) (signal : Signal) (more : List StepTrace) :
    (Weights.counted k).ofEnd t.outcome +
      untold (.signal node pending signal) (t :: more) • (Weights.counted k).gaveUp =
        (Weights.counted k).ofEntry t := by
  rw [Weights.ofEntry, hattempts, Nat.sub_self, zero_nsmul, zero_add]
  cases houtcome : t.outcome with
  | succeeded | suspended => simp [untold, houtcome, TraceOutcome.isFailure, Weights.ofLast]
  | failed message shouldRetry =>
    have huntold : untold (.signal node pending signal) (t :: more) = 1 := by
      simp [untold, houtcome, TraceOutcome.isFailure]
    rw [huntold, one_nsmul, Weights.ofLast, add_comm]

theorem deliver_books (h : env.Hears heard k) (g : Graph C H) (node : NodeId) (signal : Signal) :
    (env.deliver g node signal).Holds (accounts C H X heard k) a fun v b =>
      (∃ label m, v = .engineFailure label node m) ∧ b = a ∨
        ∃ t, v.OfStep node t ∧ t.attempts = 1 ∧ b = a + (Weights.counted k).ofEnd t.outcome := by
  have hweighs := accounts_weighs (C := C) (H := H) (X := X) h
  refine deliver_holds hweighs.toNeutral g signal (fun label m => .inl ⟨⟨label, m, rfl⟩, rfl⟩)
    fun s next startedAt r => ?_
  refine (settle_holds hweighs node s next startedAt r (Nat.le_refl 1)).mono ?_
  rintro v b ⟨t, hv, hattempts, -, hb⟩
  exact .inr ⟨t, hv, hattempts, hb⟩

section

variable {node : NodeId} {pending : List NodeId} {signal : Signal}

theorem settles_of_refused (h : env.Hears heard k) (label m : String) (ahead : List NodeId)
    (next : List NodeId → Walk (Board C H X × ω) Report) :
    (env.pass node ahead (.engineFailure label node m) next).Holds (accounts C H X heard k)
      (Settles k (.signal node pending signal)) (settled k []) := by
  have htells : (Visited.engineFailure label node m).Tells node :=
    (silent_books (a := 0) (k := k) rfl (by simp [Visited.engineFailure])).1
  rw [settled_eq]
  refine pass_books h (by simp) (by simp [Succeeded]) htells (fun _ _ => .inl)
    (by simp [Visited.engineFailure]) fun r hr => .inr ⟨[], hr, ?_⟩
  have hnone : untold (.signal node pending signal) [] = 0 := rfl
  rw [hnone, zero_nsmul, add_zero, settled_eq]
  rfl

/-- The step to which the signal is delivered may fail untold; all that comes later is told. -/
theorem settles_of_delivered (h : env.Hears heard k) (g : Graph C H) (fuel : Nat)
    (ahead : List NodeId) {t : StepTrace} {v : Visited} (hv : v.OfStep node t)
    (hattempts : t.attempts = 1) :
    (env.pass node ahead v (env.walkMain g fuel)).Holds (accounts C H X heard k)
      (Settles k (.signal node pending signal))
      (settled k [] + (Weights.counted k).ofEnd t.outcome) := by
  obtain ⟨y, hy⟩ : ∃ y, (Weights.counted k).ofEnd t.outcome = (y, 0) := by
    refine ⟨_, Prod.ext rfl ?_⟩
    cases t.outcome <;> simp [Weights.ofEnd, Weights.counted]
  have hshort (more : List StepTrace) : (y, 0) + Holdings.hand [t] +
      untold (.signal node pending signal) (t :: more) • (Weights.counted k).gaveUp =
        settled k [t] := by
    rw [← hy, add_right_comm, ofEnd_add_untold hattempts, settled, Weights.ofTrace_singleton]
  have hheld : settled k [] + (Weights.counted k).ofEnd t.outcome =
      (y, 0) + Holdings.hand [] := by
    rw [settled, Weights.ofTrace_nil, zero_add, add_comm, hy]
  rw [hheld]
  refine pass_books h (by simp) (by simp [Succeeded]) hv.tells (fun _ _ => .inl)
    (fun nodes hturn ahead => ?_) fun r hr => ?_
  · have hdone : Succeeded [t] := by
      intro u hu
      rw [List.mem_singleton.1 hu]
      exact hv.onward nodes hturn
    have htold (more : List StepTrace) :
        untold (.signal node pending signal) (t :: more) = 0 := by
      simp [untold, hv.onward nodes hturn, TraceOutcome.isFailure]
    have hall := hshort []
    rw [htold, zero_nsmul, add_zero] at hall
    rw [hv.trace, List.nil_append, hall]
    refine walkMain_books h (fun _ _ => .inl) fuel ahead (by simpa using hv.attempts) hdone
      fun r more hr => .inr ⟨t :: more, hr, ?_⟩
    rw [htold, zero_nsmul, add_zero]
    rfl
  · rw [hv.trace, List.nil_append] at hr ⊢
    exact .inr ⟨[t], hr, hshort []⟩

end

theorem traverse_books (h : env.Hears heard k) (d : Definition C H) (start : StartPoint) :
    (env.traverse d start).Holds (accounts C H X heard k) (Settles k start) (settled k []) := by
  have hmain (start : StartPoint) (hstart : ∀ l, untold start l = 0) (nodes : List NodeId) :
      (env.walkMain d.graph (env.options.maxNodeVisits + 1) nodes).Holds (accounts C H X heard k)
        (Settles k start) (settled k []) := by
    refine walkMain_books h (fun _ _ => .inl) _ nodes (by simp) (by simp [Succeeded])
      fun r more hr => .inr ⟨more, hr, ?_⟩
    rw [hstart, zero_nsmul, add_zero, List.nil_append]
  cases start with
  | root => exact hmain .root (fun l => by cases l <;> rfl) [d.root]
  | frontier nodes => exact hmain (.frontier nodes) (fun l => by cases l <;> rfl) nodes.reverse
  | signal node pending signal =>
    refine deliver_books h d.graph node signal _ _ (fun _ _ => .inl) ?_
    rintro v b (⟨⟨label, m, rfl⟩, rfl⟩ | ⟨t, hv, hattempts, rfl⟩)
    · exact settles_of_refused h label m pending.reverse _
    · exact settles_of_delivered h d.graph _ pending.reverse hv hattempts

end Environment

end DurableWorkflow
