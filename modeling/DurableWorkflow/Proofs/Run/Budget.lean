import DurableWorkflow.Proofs.Run.Blame

/-!
# The budget of visits

All walks of a run, the main walk and the branches, pay for their visits from one budget. The log of a
walk tells which visits were admitted, which was refused because the budget was used up, and how
branches came together. Whatever the graph is like, and wherever the run begins, no more visits are
admitted than the budget has, and the walk that has been refused one ends with a failure: so does the
parallel node that it is a branch of, unless another branch has failed before, and so at last does the
run (`keepsBudget`).

A walk holds a purse: a right to make an entry for each visit that was admitted to it, and notes of what
it knows.
-/

namespace DurableWorkflow

variable {C H X ω : Type}

/-- What happens on the way of a walk that concerns its budget. -/
inductive Milestone where
  | admitted (node : NodeId)
  | refused (node : NodeId)
  /-- The branches of a parallel node have ended with these reports, in this order. -/
  | joined (reports : List Report)

def Milestone.isAdmitted : Milestone → Bool
  | admitted _ => true
  | refused _ | joined _ => false

def Milestone.isRefused : Milestone → Bool
  | refused _ => true
  | admitted _ | joined _ => false

/-- How many signals are handed over before the first visit. -/
def StartPoint.deliveries : StartPoint → Nat
  | root | frontier _ => 0
  | signal .. => 1

namespace Environment

/-- The next thing that this part of a walk does is to leave a parallel node whose branches have ended
with these reports. -/
def Joins (env : Environment C H X ω) (reports : List Report)
    (part : Walk (Board C H X × ω) Report) : Prop :=
  ∃ (next : Option NodeId) (k : Visited → Walk (Board C H X × ω) Report), part = .act id fun s =>
    (if env.cancelled s.2 || reports.any Report.isCancelled then stop
      else pure (join reports next) : Part C H X ω Visited) k

/-- What happens when a part of a walk makes `t` of `s`. -/
inductive Happens (env : Environment C H X ω) (g : Graph C H) (part : Walk (Board C H X × ω) Report)
    (s t : Board C H X × ω) : List Milestone → Prop
  | nothing (hcounted : t.1.visits = s.1.visits) : Happens env g part s t []
  | admitted {node : NodeId} (hpart : env.Faces g node part)
    (hcounted : env.countVisit s = (.admitted, t)) : Happens env g part s t [.admitted node]
  | refused {node : NodeId} (hpart : env.Faces g node part)
    (hcounted : env.countVisit s = (.refused, t)) : Happens env g part s t [.refused node]
  | joined {reports : List Report} (hpart : env.Joins reports part)
    (hcounted : t.1.visits = s.1.visits) : Happens env g part s t [.joined reports]

/-- The way of a walk from `x`, and what has happened on it. Between the steps the others may change
the world. -/
inductive Log (env : Environment C H X ω) (g : Graph C H)
    (x : Walk (Board C H X × ω) Report × Board C H X × ω) :
    Walk (Board C H X × ω) Report × Board C H X × ω → List Milestone → Prop
  | start : Log env g x x []
  | act {y z : Walk (Board C H X × ω) Report × Board C H X × ω} {log news : List Milestone}
    {part : Walk (Board C H X × ω) Report} (h : Log env g x y log) (haction : part.ActionOf y z)
    (hnews : env.Happens g part y.2 z.2 news) : Log env g x z (log ++ news)
  | step {y z : Walk (Board C H X × ω) Report × Board C H X × ω} {log : List Milestone}
    (h : Log env g x y log) (hstep : Walk.Step y z) (hcounted : z.2.1.visits = y.2.1.visits) :
    Log env g x z log
  | drift {path : Walk (Board C H X × ω) Report} {board : Board C H X} {w v : ω}
    {log : List Milestone} (h : Log env g x (path, board, w) log) : Log env g x (path, board, v) log

/-- The failure comes from a visit that was refused: it says so, or it is that of a branch which ended
earlier than another one of its node, whose failure comes from such a visit. -/
inductive Overdrawn (env : Environment C H X ω) (log : Milestone → Prop) : Failure → Prop
  | limit {node : NodeId} (h : log (.refused node)) :
    Overdrawn env log (.ofEngine "engine" node env.limitMessage)
  | earlier {before after : List Report} {e r : Report} {f f' : Failure}
    (hlog : log (.joined (before ++ r :: after))) (he : e ∈ before) (hf : e.halt = .failed f)
    (hr : r.halt = .failed f') (h : Overdrawn env log f') : Overdrawn env log f

variable {env : Environment C H X ω} {g : Graph C H}
  {x y : Walk (Board C H X × ω) Report × Board C H X × ω} {part : Walk (Board C H X × ω) Report}
  {s t : Board C H X × ω} {log news : List Milestone} {node : NodeId} {f : Failure}

theorem Overdrawn.mono {P Q : Milestone → Prop} (hPQ : ∀ m, P m → Q m) (h : env.Overdrawn P f) :
    env.Overdrawn Q f := by
  induction h with
  | limit h => exact .limit (hPQ _ h)
  | earlier hlog he hf hr _ ih => exact .earlier (hPQ _ hlog) he hf hr ih

/-! ### What is counted -/

theorem Happens.counts (h : env.Happens g part s t news) :
    t.1.visits = s.1.visits + news.countP Milestone.isAdmitted + news.countP Milestone.isRefused ∧
      (news.countP Milestone.isAdmitted ≠ 0 → t.1.visits ≤ env.options.maxNodeVisits) ∧
      (news.countP Milestone.isRefused ≠ 0 → env.options.maxNodeVisits ≤ s.1.visits) := by
  have hcases := env.countVisit_cases s
  cases h with
  | nothing hcounted | joined _ hcounted => exact ⟨hcounted, by simp [Milestone.isAdmitted],
      by simp [Milestone.isRefused]⟩
  | admitted _ hcounted =>
    rcases hcases with hcase | ⟨admission, -, hadmitted, hcase⟩
    · rw [hcounted] at hcase
      cases hcase
    · rw [hcounted] at hcase
      cases hcase
      exact ⟨rfl, fun _ => hadmitted.1 rfl, by simp [Milestone.isRefused]⟩
  | refused _ hcounted =>
    rcases hcases with hcase | ⟨admission, -, hadmitted, hcase⟩
    · rw [hcounted] at hcase
      cases hcase
    · rw [hcounted] at hcase
      cases hcase
      refine ⟨rfl, by simp [Milestone.isAdmitted], fun _ => ?_⟩
      by_contra hleft
      have hpaid := hadmitted.2 (by omega)
      cases hpaid

/-- The visits that are admitted are those that the budget pays for, and the others are refused. -/
theorem Log.counts (h : env.Log g x y log) (hx : x.2.1.visits = 0) :
    log.countP Milestone.isAdmitted = min y.2.1.visits env.options.maxNodeVisits ∧
      log.countP Milestone.isRefused = y.2.1.visits - env.options.maxNodeVisits := by
  induction h with
  | start => simp [hx]
  | act h haction hnews ih =>
    obtain ⟨hcounted, hadmitted, hrefused⟩ := hnews.counts
    rw [List.countP_append, List.countP_append]
    omega
  | step h hstep hcounted ih =>
    rw [hcounted]
    exact ih
  | drift h ih => exact ih

/-! ### Purses -/

/-- What a walk may know for good. -/
inductive Note where
  /-- So many visits have been counted. -/
  | counted (visits : Nat)
  | happened (m : Milestone)

/-- How many entries a walk may make, and what it knows. -/
abbrev Purse := Nat × Multiset Note

namespace Purse

def Knows (a : Purse) (m : Milestone) : Prop := .happened m ∈ a.2

/-- The walk has been refused a visit. -/
def IsRefused (a : Purse) : Prop := ∃ node, a.Knows (.refused node)

/-- Visits have been counted, at least `lower` of them, and all of these were admitted. -/
def Counts (a : Purse) (lower most : Nat) : Prop := ∃ m, lower ≤ m ∧ m ≤ most ∧ .counted m ∈ a.2

/-- That so many visits have been counted, which a walk may tell its branches. -/
def told (k : Nat) : Purse := (0, {.counted k})

variable {a b : Purse}

theorem not_isRefused_told (k : Nat) : ¬(told k).IsRefused := by simp [IsRefused, Knows, told]

theorem not_isRefused_nsmul (h : ¬a.IsRefused) (branches : Nat) : ¬IsRefused (branches • a) := by
  rintro ⟨node, hnode⟩
  exact h ⟨node, (Multiset.mem_nsmul.1 hnode).2⟩

theorem knows_add {m : Milestone} : (a + b).Knows m ↔ a.Knows m ∨ b.Knows m := Multiset.mem_add

theorem isRefused_add : (a + b).IsRefused ↔ a.IsRefused ∨ b.IsRefused := by
  simp only [IsRefused, knows_add, exists_or]

end Purse

/-- A branch with this purse ends with the report: it has paid for its entries, and if a visit was
refused, that is why it has failed. -/
structure Settled (env : Environment C H X ω) (r : Report) (a : Purse) : Prop where
  entries : r.trace.length ≤ a.1
  refused : a.IsRefused → ∃ f, r.halt = .failed f ∧ env.Overdrawn a.Knows f
  limit : ∀ f, r.halt = .failed f → f.IsRefusal env.options → a.IsRefused

/-- The walks have purses, and each admitted visit pays for one entry. -/
def budget (env : Environment C H X ω) (g : Graph C H) : Shares (Board C H X × ω) Report Purse where
  sound s a := (∀ k, .counted k ∈ a.2 → k ≤ s.1.visits) ∧
    (env.options.maxNodeVisits < s.1.visits → a.IsRefused)
  still s t := t.1.visits = s.1.visits ∧ t.1.ledger.trace = s.1.ledger.trace
  deal part x y := ∃ news, env.Happens g part x.1 y.1 news ∧
    (∀ m, y.2.Knows m → x.2.Knows m ∨ m ∈ news) ∧
    y.1.1.ledger.trace.length + y.2.1 ≤
      x.1.1.ledger.trace.length + x.2.1 + news.countP Milestone.isAdmitted
  report r a := r.halt = .cancelled ∨ env.Settled r a
  void r := r.halt = .cancelled
  sound_still h hs := by rwa [h.1]
  report_void _ h := .inl h

theorem budget_adds {act : Board C H X × ω → Board C H X × ω}
    (h : ∀ s, (env.budget g).still s (act s)) : (env.budget g).Adds act 0 := by
  intro part s a hs
  rw [add_zero]
  refine ⟨(env.budget g).sound_still (h s) hs, [], .nothing (h s).1, fun _ => .inl, ?_⟩
  rw [(h s).2]
  exact Nat.le_refl _

/-- What is done at a step has nothing to do with visits. -/
theorem budget_weighs (env : Environment C H X ω) (g : Graph C H) :
    env.Weighs (env.budget g) Weights.nothing where
  stopped := rfl
  look := budget_adds fun _ => ⟨rfl, rfl⟩
  memory _ _ _ _ := ⟨rfl, rfl⟩
  success _ _ := budget_adds fun _ => ⟨rfl, rfl⟩
  failure := budget_adds fun _ => ⟨rfl, rfl⟩
  retry := budget_adds fun _ => ⟨rfl, rfl⟩
  peak _ := budget_adds fun _ => ⟨rfl, rfl⟩
  announce what _ := by
    rw [Weights.nothing_heard]
    exact budget_adds fun _ => ⟨rfl, rfl⟩

/-! ### Visits -/

/-- What comes of a node for a walk that could make `paid` entries before. -/
structure Bought (env : Environment C H X ω) (paid lower : Nat) (v : Visited) (a : Purse) : Prop where
  entries : paid + v.trace.length ≤ a.1
  /-- Flow goes on only if the visit was admitted. -/
  onward : ∀ nodes, v.turn = .onward nodes →
    ¬a.IsRefused ∧ a.Counts lower env.options.maxNodeVisits
  suspended : ∀ signal limit, v.turn = .suspended signal limit → ¬a.IsRefused
  refused : ∀ f, v.turn = .failed f → a.IsRefused → env.Overdrawn a.Knows f
  limit : ∀ f, v.turn = .failed f → f.IsRefusal env.options → a.IsRefused

variable {branch : NodeId → Walk (Board C H X × ω) Report} {n : Node C H} {paid lower k m : Nat}
  {v : Visited} {a b c : Purse} {reports : List Report} {next : Option NodeId}

/-- A message that does not end as the one about the limit does. -/
theorem ne_limitText (last : Char) {message : String} (hlast : message.toList.getLast? = some last)
    (hd : last ≠ 'd') (o : RunOptions) : message ≠ o.limitText := by
  intro hsame
  have hexceeded : " exceeded".toList.getLast? = some 'd' := by simp
  rw [hsame] at hlast
  unfold RunOptions.limitText at hlast
  rw [String.toList_append, List.getLast?_append, hexceeded, Option.some_or] at hlast
  exact hd (Option.some.inj hlast).symm

theorem bought_engineFailure (hpaid : paid ≤ a.1) (hclear : ¬a.IsRefused) {label message : String}
    (hlimit : label ≠ "engine" ∨ message ≠ env.options.limitText) :
    env.Bought paid lower (.engineFailure label node message) a where
  entries := hpaid
  onward _ hturn := by simp [Visited.engineFailure] at hturn
  suspended _ _ hturn := by simp [Visited.engineFailure] at hturn
  refused _ _ hrefused := absurd hrefused hclear
  limit f hturn hrefusal := by
    cases hturn
    obtain ⟨_, hsame⟩ := hrefusal
    simp only [Failure.ofEngine, Failure.mk.injEq, Option.some.injEq] at hsame
    rcases hlimit with hlabel | hmessage
    · exact absurd hsame.1 hlabel
    · exact absurd hsame.2.2.2 hmessage

/-- Branches that were not cancelled have settled. If a visit was refused to one of them, it has failed
for that reason. -/
theorem reports_settle (h : (env.budget g).Reports reports a)
    (hcalm : ∀ r ∈ reports, r.isCancelled = false) :
    (reports.flatMap (·.trace)).length ≤ a.1 ∧
      (a.IsRefused → ∃ r ∈ reports, ∃ f, r.halt = .failed f ∧ env.Overdrawn a.Knows f) ∧
      ∀ r ∈ reports, ∀ f, r.halt = .failed f → f.IsRefusal env.options → a.IsRefused := by
  induction h with
  | nil => simp [Purse.IsRefused, Purse.Knows]
  | @cons r rs a b hr _ ih =>
    obtain ⟨hcalm, hcalms⟩ := List.forall_mem_cons.1 hcalm
    obtain ⟨hentries, hrefused, hlimit⟩ := ih hcalms
    rcases hr with hcancelled | hr
    · simp [Report.isCancelled, hcancelled] at hcalm
    · refine ⟨?_, fun h => ?_, List.forall_mem_cons.2 ⟨fun f hf hrefusal => ?_, fun u hu f hf hrefusal => ?_⟩⟩
      · rw [List.flatMap_cons, List.length_append]
        exact Nat.add_le_add hr.entries hentries
      · rcases Purse.isRefused_add.1 h with hown | hothers
        · obtain ⟨f, hf, hoverdrawn⟩ := hr.refused hown
          exact ⟨r, List.mem_cons_self .., f, hf,
            hoverdrawn.mono fun _ hm => Purse.knows_add.2 (.inl hm)⟩
        · obtain ⟨u, hu, f, hf, hoverdrawn⟩ := hrefused hothers
          exact ⟨u, List.mem_cons_of_mem r hu, f, hf,
            hoverdrawn.mono fun _ hm => Purse.knows_add.2 (.inr hm)⟩
      · exact Purse.isRefused_add.2 (.inl (hr.limit f hf hrefusal))
      · exact Purse.isRefused_add.2 (.inr (hlimit u hu f hf hrefusal))

/-- The first of these reports that has failed, if there is one. -/
theorem exists_first_failure (next : Option NodeId) {r : Report} {f' : Failure} (hr : r ∈ reports)
    (hf' : r.halt = .failed f') :
    ∃ before e after f, reports = before ++ e :: after ∧ e.halt = .failed f ∧
      (join reports next).turn = .failed f ∧ (r = e ∨ r ∈ after) := by
  obtain ⟨f, hfirst⟩ : ∃ f, reports.findSome? Report.failure? = some f := by
    rw [← Option.isSome_iff_exists, List.findSome?_isSome_iff]
    exact ⟨r, hr, by simp [Report.failure?, hf']⟩
  obtain ⟨before, e, after, rfl, hfailure, hbefore⟩ := List.findSome?_eq_some_iff.1 hfirst
  have he : e.halt = .failed f := by
    unfold Report.failure? at hfailure
    split at hfailure
    · next heq => rw [heq, Option.some.inj hfailure]
    · cases hfailure
  refine ⟨before, e, after, f, rfl, he, by simp [join, hfirst], ?_⟩
  rcases List.mem_append.1 hr with hr | hr
  · have hnone := hbefore r hr
    simp [Report.failure?, hf'] at hnone
  · exact List.mem_cons.1 hr

/-- What comes of branches that have settled. -/
theorem bought_join (hreports : (env.budget g).Reports reports b)
    (hcalm : ∀ r ∈ reports, r.isCancelled = false) (hpaid : paid ≤ a.1) (hclear : ¬a.IsRefused)
    (hcounts : a.Counts lower env.options.maxNodeVisits) :
    env.Bought paid lower (join reports next) (b + a + (0, {.happened (.joined reports)})) := by
  obtain ⟨hentries, hrefused, hlimit⟩ := reports_settle hreports hcalm
  have hjoined : ∀ node, ¬(Purse.Knows (0, {.happened (.joined reports)}) (.refused node)) := by
    simp [Purse.Knows]
  have hblame (h : Purse.IsRefused (b + a + (0, {.happened (.joined reports)}))) : b.IsRefused := by
    rcases Purse.isRefused_add.1 h with h | ⟨node, h⟩
    · exact (Purse.isRefused_add.1 h).resolve_right hclear
    · exact absurd h (hjoined node)
  have hgoes (hturn : ∀ f, (join reports next).turn ≠ .failed f) :
      ¬Purse.IsRefused (b + a + (0, {.happened (.joined reports)})) := by
    intro h
    obtain ⟨r, hr, f', hf', -⟩ := hrefused (hblame h)
    obtain ⟨_, _, _, f, -, -, hfails, -⟩ := exists_first_failure next hr hf'
    exact hturn f hfails
  refine ⟨?_, fun nodes hturn => ⟨hgoes (by simp [hturn]), ?_⟩, fun _ _ hturn => hgoes (by simp [hturn]),
    fun f hturn h => ?_, fun f hturn hrefusal => ?_⟩
  · show paid + (reports.flatMap (·.trace)).length ≤ b.1 + a.1 + 0
    omega
  · obtain ⟨m, hlower, hmost, hknown⟩ := hcounts
    exact ⟨m, hlower, hmost, Multiset.mem_add.2 (.inl (Multiset.mem_add.2 (.inr hknown)))⟩
  · -- Either the branch that was refused a visit has failed first, or another one has.
    obtain ⟨r, hr, f', hf', hoverdrawn⟩ := hrefused (hblame h)
    have hknown : env.Overdrawn
        (Purse.Knows (b + a + (0, {.happened (.joined reports)}))) f' :=
      hoverdrawn.mono fun _ hm => Purse.knows_add.2 (.inl (Purse.knows_add.2 (.inl hm)))
    obtain ⟨before, e, after, f'', hsplit, he, hfails, rfl | hafter⟩ :=
      exists_first_failure next hr hf'
    · rw [hfails] at hturn
      rw [hf'] at he
      cases hturn
      cases he
      exact hknown
    · rw [hfails] at hturn
      cases hturn
      obtain ⟨between, later, rfl⟩ := List.append_of_mem hafter
      rw [← List.cons_append, ← List.append_assoc] at hsplit
      rw [hsplit] at hknown ⊢
      exact .earlier (Purse.knows_add.2 (.inr (Multiset.mem_singleton_self _))) (by simp) he hf' hknown
  · obtain ⟨r, hr, hf⟩ := exists_of_join_failed hturn
    exact Purse.isRefused_add.2 (.inl (Purse.isRefused_add.2 (.inl (hlimit r hr f hf hrefusal))))

theorem runParallel_budget {children : List NodeId}
    (hall : allHold (env.budget g) (children.map branch) b) (hpaid : paid ≤ a.1)
    (hclear : ¬a.IsRefused) (hcounts : a.Counts lower env.options.maxNodeVisits) :
    (env.runParallel branch children next).Holds (env.budget g) (b + a)
      (env.Bought paid lower) := by
  refine (Piece.Holds.fork hall).bind ?_
  rintro reports c ⟨d, hreports, rfl⟩ F k hF hk s others hs
  refine ⟨d + a + (0, {Note.happened (.joined reports)}), ?_, ⟨[.joined reports],
    .joined ⟨next, k, rfl⟩ rfl, fun m hm => ?_, Nat.le_of_eq ?_⟩, ?_⟩
  · refine ⟨fun j hj => hs.1 j ?_, fun hover => ?_⟩
    · simpa using hj
    · obtain ⟨node, hnode⟩ := hs.2 hover
      exact ⟨node, Multiset.mem_of_le (add_le_add_left (Multiset.le_add_right _ _) _) hnode⟩
  · rcases Purse.knows_add.1 hm with hm | hm
    · rcases Purse.knows_add.1 hm with hm | hm
      · exact .inl (Purse.knows_add.2 (.inl hm))
      · have hsame : m = .joined reports := by simpa [Purse.Knows] using hm
        exact .inr (List.mem_singleton.2 hsame)
    · exact .inl (Purse.knows_add.2 (.inr hm))
  · simp [Milestone.isAdmitted]
  · simp only
    split
    · exact hF _ _ rfl
    · next hnone =>
      simp only [Bool.or_eq_true, List.any_eq_true, not_or, not_exists, not_and,
        Bool.not_eq_true] at hnone
      exact hk _ _ (bought_join hreports hnone.2 hpaid hclear hcounts)

/-- A node that was admitted pays for its entry, and its walk can tell branches of the visit. -/
theorem enter_budget (hpaid : paid < a.1) (hclear : ¬a.IsRefused) (hlower : lower ≤ m)
    (hm : m ≤ env.options.maxNodeVisits) (hknown : .counted m ∈ a.2)
    (hbranch : ∀ child, (branch child).Holds (env.budget g) (env.budget g).report (.told m)) :
    (env.enter branch node n).Holds (env.budget g) (n.kind.children.length • Purse.told m + a)
      (env.Bought paid lower) := by
  have hcounts (b : Purse) : (b + a).Counts lower env.options.maxNodeVisits :=
    ⟨m, hlower, hm, Multiset.mem_add.2 (.inr hknown)⟩
  have hgoes (j : Nat) : ¬(j • Purse.told m + a).IsRefused := fun h =>
    (Purse.isRefused_add.1 h).elim (Purse.not_isRefused_nsmul (Purse.not_isRefused_told m) j) hclear
  have hright (j : Nat) : paid < (j • Purse.told m + a).1 := by
    have hfst : (j • Purse.told m + a).1 = a.1 := by simp [Purse.told]
    rwa [hfst]
  refine enter_holds (budget_weighs env g).toNeutral (fun nodes => ?_) (fun message => ?_)
    (fun s => ?_) fun children hkind => ?_
  · exact ⟨(hright _).le, fun _ _ => ⟨hgoes _, hcounts _⟩, by simp [Visited.onward],
      by simp [Visited.onward], by simp [Visited.onward]⟩
  · exact bought_engineFailure (hright _).le (hgoes _) (.inl (by decide))
  · refine (runStep_holds (budget_weighs env g) node s n.next).mono ?_
    rintro v b ⟨t, hv, rfl⟩
    rw [Weights.nothing_ofEntry, add_zero]
    refine ⟨?_, fun _ _ => ⟨hgoes _, hcounts _⟩, fun _ _ _ => hgoes _, fun _ _ h => absurd h (hgoes _),
      fun f hturn hrefusal => absurd hrefusal (Failure.not_isRefusal (.inl ?_))⟩
    · rw [hv.trace]
      exact hright _
    · have hattempts := hv.attempts
      have hsame := hv.failed f hturn
      omega
  · rw [hkind]
    exact runParallel_budget (allHold_nsmul hbranch children) hpaid.le hclear
      ⟨m, hlower, hm, hknown⟩

/-- An admitted visit pays for an entry, and the walk and its branches know of it. -/
theorem admit_budget {x : Board C H X × ω} {others : Purse} (hfaces : env.Faces g node part)
    (hcount : env.countVisit x = (.admitted, { x.1 with visits := x.1.visits + 1 }, x.2))
    (hm : x.1.visits + 1 ≤ env.options.maxNodeVisits) (hs : (env.budget g).sound x (a + others))
    (branches : Nat) {b : Purse}
    (hb : b = branches • Purse.told (x.1.visits + 1) + (a + (1, {.counted (x.1.visits + 1)}))) :
    (env.budget g).sound ({ x.1 with visits := x.1.visits + 1 }, x.2) (b + others) ∧
      (env.budget g).deal part (x, a + others)
        (({ x.1 with visits := x.1.visits + 1 }, x.2), b + others) := by
  subst hb
  refine ⟨⟨fun j hj => ?_, fun hover => absurd hover (Nat.not_lt.2 hm)⟩,
    [.admitted node], .admitted hfaces hcount, fun m hknown => ?_, ?_⟩
  · have hnew : .counted j ∈ (a + others).2 ∨ j = x.1.visits + 1 := by
      simp only [Purse.told, Prod.snd_add, Prod.smul_snd, Multiset.mem_add, Multiset.mem_nsmul,
        Multiset.mem_singleton, Note.counted.injEq] at hj ⊢
      tauto
    rcases hnew with hold | rfl
    · exact Nat.le_succ_of_le (hs.1 j hold)
    · exact Nat.le_refl _
  · refine .inl ?_
    simp only [Purse.Knows, Purse.told, Prod.snd_add, Prod.smul_snd, Multiset.mem_add,
      Multiset.mem_nsmul, Multiset.mem_singleton, reduceCtorEq, and_false, or_false, false_or]
      at hknown ⊢
    exact hknown
  · simp [Purse.told, Milestone.isAdmitted]
    omega

/-- The walk that is refused a visit knows of it. -/
theorem refuse_budget {x : Board C H X × ω} {others : Purse} (hfaces : env.Faces g node part)
    (hcount : env.countVisit x = (.refused, { x.1 with visits := x.1.visits + 1 }, x.2))
    (hs : (env.budget g).sound x (a + others)) {b : Purse}
    (hb : b = a + (0, {.happened (.refused node)})) :
    (env.budget g).sound ({ x.1 with visits := x.1.visits + 1 }, x.2) (b + others) ∧
      (env.budget g).deal part (x, a + others)
        (({ x.1 with visits := x.1.visits + 1 }, x.2), b + others) := by
  subst hb
  refine ⟨⟨fun j hj => ?_, fun _ => ⟨node, ?_⟩⟩, [.refused node], .refused hfaces hcount,
    fun m hknown => ?_, ?_⟩
  · exact Nat.le_succ_of_le (hs.1 j (by simpa using hj))
  · simp [Purse.Knows]
  · simp only [Purse.Knows, Prod.snd_add, Multiset.mem_add, Multiset.mem_singleton,
      Note.happened.injEq, List.mem_singleton] at hknown ⊢
    tauto
  · simp [Milestone.isAdmitted]

/-- What follows a visit. -/
theorem visit_budget {F : Report → Purse → Prop} {K : Visited → Walk (Board C H X × ω) Report}
    (hclear : ¬a.IsRefused) (hk : .counted k ∈ a.2)
    (hfaces : env.Faces g node (env.visit g branch node K))
    (hbranch : ∀ child m, k < m → m ≤ env.options.maxNodeVisits →
      (branch child).Holds (env.budget g) (env.budget g).report (.told m))
    (hF : ∀ r b, r.halt = .cancelled → F r b)
    (hK : ∀ v b, env.Bought a.1 (k + 1) v b → (K v).Holds (env.budget g) F b) :
    (env.visit g branch node K).Holds (env.budget g) F a := by
  intro x others hs
  have hknown : k ≤ x.1.visits := hs.1 k (Multiset.mem_add.2 (.inl hk))
  show ∃ b, (env.budget g).sound (env.countVisit x).2 (b + others) ∧
    (env.budget g).deal (env.visit g branch node K) (x, a + others)
      ((env.countVisit x).2, b + others) ∧ Walk.Holds _ _ _ b
  beta_reduce
  rcases env.countVisit_cases x with hcount | ⟨admission, hnot, hadmitted, hcount⟩
  · rw [hcount]
    exact ⟨a, hs, ⟨[], .nothing rfl, fun _ => .inl, Nat.le_refl _⟩, hF _ a rfl⟩
  · cases admission with
    | cancelled => exact absurd rfl hnot
    | refused =>
      obtain ⟨hsound, hdeal⟩ := refuse_budget hfaces hcount hs rfl
      have hrefused : Purse.Knows (a + (0, {.happened (.refused node)})) (.refused node) :=
        Purse.knows_add.2 (.inr (Multiset.mem_singleton_self _))
      rw [hcount]
      refine ⟨_, hsound, hdeal, hK _ _ ⟨Nat.le_refl _, by simp [Visited.engineFailure],
        by simp [Visited.engineFailure], fun f hf _ => ?_, fun _ _ _ => ⟨node, hrefused⟩⟩⟩
      cases hf
      exact .limit hrefused
    | admitted =>
      have hm : x.1.visits + 1 ≤ env.options.maxNodeVisits := hadmitted.1 rfl
      have hkm : k < x.1.visits + 1 := Nat.lt_succ_of_le hknown
      have hadmit := admit_budget hfaces hcount hm hs
      have hclear' : ¬Purse.IsRefused (a + (1, {.counted (x.1.visits + 1)})) := by
        simpa [Purse.IsRefused, Purse.Knows] using hclear
      rw [hcount]
      cases hn : g.get? node with
      | none =>
        obtain ⟨hsound, hdeal⟩ := hadmit 0 rfl
        rw [zero_nsmul, zero_add] at hsound hdeal
        refine ⟨_, hsound, hdeal, ?_⟩
        simp only
        refine hK _ _ (bought_engineFailure (Nat.le_succ a.1) hclear' (.inr ?_))
        refine ne_limitText 't' ?_ (by decide) _
        rw [String.toList_append, List.getLast?_append]
        simp
      | some n =>
        obtain ⟨hsound, hdeal⟩ := hadmit n.kind.children.length rfl
        refine ⟨_, hsound, hdeal, ?_⟩
        simp only
        refine enter_budget (Nat.lt_succ_self a.1) hclear' (Nat.succ_le_of_lt hkm) hm ?_
          (fun child => hbranch child _ hkm hm) F K hF hK
        exact Multiset.mem_add.2 (.inr (Multiset.mem_singleton_self _))

/-! ### Walks -/

/-- More visits are known of than the fuel leaves room for, so it does not run out. -/
theorem walkBranch_budget (fuel : Nat) (nodes : List NodeId) {trace : List StepTrace} {a : Purse}
    (hclear : ¬a.IsRefused) (hk : .counted k ∈ a.2) (hmax : k ≤ env.options.maxNodeVisits)
    (hfuel : env.options.maxNodeVisits < k + fuel) (htrace : trace.length ≤ a.1) :
    (env.walkBranch g fuel nodes trace).Holds (env.budget g) (env.budget g).report a := by
  induction fuel generalizing nodes trace a k with
  | zero => omega
  | succ fuel ih =>
    cases nodes with
    | nil => exact .inr ⟨htrace, fun h => absurd h hclear, by simp⟩
    | cons node ahead =>
      refine visit_budget hclear hk (.branch fuel ahead trace) (fun child m hkm hm => ?_)
        (fun _ _ => .inl) fun v b hv => ?_
      · exact ih [child] (Purse.not_isRefused_told m) (Multiset.mem_singleton_self _) hm (by omega)
          (Nat.zero_le _)
      · have hall : (trace ++ v.trace).length ≤ b.1 := by
          have hentries := hv.entries
          rw [List.length_append]
          omega
        simp only
        cases hturn : v.turn with
        | onward nodes =>
          obtain ⟨hclear', m, hkm, hm, hknown⟩ := hv.onward nodes hturn
          exact ih _ hclear' hknown hm (by omega) hall
        | failed f =>
          refine .inr ⟨hall, fun h => ⟨f, rfl, hv.refused f hturn h⟩, fun f' hf' hrefusal => ?_⟩
          cases hf'
          exact hv.limit f hturn hrefusal
        | suspended signal limit =>
          refine .inr ⟨hall, fun h => absurd h (hv.suspended signal limit hturn),
            fun f' hf' hrefusal => ?_⟩
          cases hf'
          exact absurd hrefusal (Failure.not_isRefusal (.inl (by simp [Graph.strandedFailure])))

/-- The entries of a visit are made from what it has paid. -/
theorem pass_budget {ahead : List NodeId} {next : List NodeId → Walk (Board C H X × ω) Report}
    (hv : env.Bought paid lower v a)
    (hnext : ∀ nodes b, ¬b.IsRefused → b.Counts lower env.options.maxNodeVisits →
      (next nodes).Holds (env.budget g) (env.budget g).report b) :
    (env.pass node ahead v next).Holds (env.budget g) (env.budget g).report a := by
  intro x others hs
  have hentries := hv.entries
  refine ⟨(a.1 - v.trace.length, a.2), hs, ⟨[], .nothing rfl, fun _ => .inl, ?_⟩, ?_⟩
  · simp
    omega
  · simp only
    cases hturn : v.turn with
    | onward nodes =>
      obtain ⟨hclear, hcounts⟩ := hv.onward nodes hturn
      intro x others hs
      simp only
      cases env.save ⟨x.1.context, (nodes ++ ahead).reverse, v.trace⟩ (x.1.extra, x.2) with
      | ok saved =>
        exact ⟨_, hs, ⟨[], .nothing rfl, fun _ => .inl, Nat.le_refl _⟩, hnext _ _ hclear hcounts⟩
      | error message =>
        refine ⟨_, hs, ⟨[], .nothing rfl, fun _ => .inl, Nat.le_refl _⟩, .inr ?_⟩
        exact ⟨Nat.zero_le _, fun h => absurd h hclear, by simp⟩
    | failed f =>
      refine .inr ⟨Nat.zero_le _, fun h => ⟨f, rfl, hv.refused f hturn h⟩, fun f' hf' hrefusal => ?_⟩
      cases hf'
      exact hv.limit f hturn hrefusal
    | suspended signal limit =>
      intro x others hs
      refine ⟨_, hs, ⟨[], .nothing rfl, fun _ => .inl, Nat.le_refl _⟩, .inr ?_⟩
      exact ⟨Nat.zero_le _, fun h => absurd h (hv.suspended signal limit hturn), by simp⟩

theorem walkMain_budget (fuel : Nat) (nodes : List NodeId) {a : Purse} (hclear : ¬a.IsRefused)
    (hk : .counted k ∈ a.2) (hmax : k ≤ env.options.maxNodeVisits)
    (hfuel : env.options.maxNodeVisits < k + fuel) :
    (env.walkMain g fuel nodes).Holds (env.budget g) (env.budget g).report a := by
  induction fuel generalizing nodes a k with
  | zero => omega
  | succ fuel ih =>
    cases nodes with
    | nil => exact .inr ⟨Nat.zero_le _, fun h => absurd h hclear, by simp⟩
    | cons node ahead =>
      refine visit_budget hclear hk (.main fuel ahead) (fun child m hkm hm => ?_) (fun _ _ => .inl)
        fun v b hv => pass_budget hv fun nodes c hclear' hcounts => ?_
      · exact walkBranch_budget fuel [child] (Purse.not_isRefused_told m)
          (Multiset.mem_singleton_self _) hm (by omega) (Nat.zero_le _)
      · obtain ⟨m, hkm, hm, hknown⟩ := hcounts
        exact ih nodes hclear' hknown hm (by omega)

/-- A signal that is handed over leaves one entry, and takes no visit. -/
theorem deliver_budget (g : Graph C H) (node : NodeId) (signal : Signal) (hpaid : paid < a.1)
    (hclear : ¬a.IsRefused) (hcounts : a.Counts lower env.options.maxNodeVisits) :
    (env.deliver g node signal).Holds (env.budget g) a (env.Bought paid lower) := by
  have hweighs := budget_weighs env g
  unfold deliver
  cases hn : g.get? node with
  | none =>
    refine .pure (bought_engineFailure hpaid.le hclear (.inr (ne_limitText 't' ?_ (by decide) _)))
    rw [String.toList_append, List.getLast?_append]
    simp
  | some n =>
    simp only
    cases hs : n.step? with
    | none =>
      refine .pure (bought_engineFailure hpaid.le hclear (.inr (ne_limitText 'p' ?_ (by decide) _)))
      rw [String.toList_append, List.getLast?_append]
      simp
    | some s =>
      have hsettle (startedAt : Timestamp) (r : StepResult) :
          (env.settle node s n.next startedAt r 1).Holds (env.budget g) a (env.Bought paid lower) := by
        refine (settle_holds hweighs node s n.next startedAt r (Nat.le_refl 1)).mono ?_
        rintro v b ⟨t, hv, -, -, rfl⟩
        have hnothing : (Weights.nothing : Weights Purse).ofEnd t.outcome = 0 := by
          cases t.outcome <;> simp [Weights.ofEnd, Weights.nothing]
        rw [hnothing, add_zero]
        refine ⟨?_, fun _ _ => ⟨hclear, hcounts⟩, fun _ _ _ => hclear, fun _ _ h => absurd h hclear,
          fun f hturn hrefusal => absurd hrefusal (Failure.not_isRefusal (.inl ?_))⟩
        · rw [hv.trace]
          exact hpaid
        · have hattempts := hv.attempts
          have hsame := hv.failed f hturn
          omega
      refine (now_holds hweighs.toNeutral).bind fun startedAt b hb => ?_
      subst hb
      refine (Piece.Holds.call none (onBoard_keeps hweighs.memory _)).bind fun ending b hb => ?_
      subst hb
      cases ending with
      | finished r => exact hsettle startedAt r
      | crashed m => exact hsettle startedAt _
      | timedOut | cancelled => exact stop_holds hweighs.toNeutral

variable {d : Definition C H} {start : StartPoint} {context : C} {extra extra' : X} {u w : ω}

/-- What a run has before its first visit. -/
def firstPurse (start : StartPoint) : Purse := (start.deliveries, {.counted 0})

theorem traverse_budget (d : Definition C H) (start : StartPoint) :
    (env.traverse d start).Holds (env.budget d.graph) (env.budget d.graph).report
      (firstPurse start) := by
  have hclear : ¬(firstPurse start).IsRefused := by simp [Purse.IsRefused, Purse.Knows, firstPurse]
  have hk : Note.counted 0 ∈ (firstPurse start).2 := Multiset.mem_singleton_self _
  cases start with
  | root | frontier nodes => exact walkMain_budget _ _ hclear hk (Nat.zero_le _) (by omega)
  | signal node pending signal =>
    have hdeliver : (env.deliver d.graph node signal).Holds (env.budget d.graph)
        (firstPurse (.signal node pending signal)) (env.Bought 0 0) :=
      deliver_budget d.graph node signal Nat.zero_lt_one hclear ⟨0, Nat.le_refl 0, Nat.zero_le _, hk⟩
    refine hdeliver _ _ (fun _ _ => .inl) fun v b hv => pass_budget hv ?_
    rintro nodes c hclear' ⟨m, -, hm, hknown⟩
    exact walkMain_budget _ nodes hclear' hknown hm (by omega)

/-! ### Logs -/

/-- Every way of a walk with a purse has a log, which has all that the walk knows, and as many
admitted visits as are needed for the entries in the books and those that may still be made. -/
theorem exists_log (h : Moves (Beside fun _ _ => True) Walk.Step x y)
    (hx : x.1.Holds (env.budget g) (env.budget g).report a) (hs : (env.budget g).sound x.2 a)
    (hnew : ∀ m, ¬a.Knows m) :
    ∃ log b, env.Log g x y log ∧ (env.budget g).sound y.2 b ∧
      y.1.Holds (env.budget g) (env.budget g).report b ∧ (∀ m, b.Knows m → m ∈ log) ∧
      y.2.1.ledger.trace.length + b.1 ≤
        x.2.1.ledger.trace.length + a.1 + log.countP Milestone.isAdmitted := by
  induction h with
  | refl => exact ⟨[], a, .start, hs, hx, fun m hm => absurd hm (hnew m), Nat.le_refl _⟩
  | @tail y z _ hmove ih =>
    obtain ⟨log, b, hlog, hsound, hy, hknown, hentries⟩ := ih
    rcases hmove with hstep | ⟨hpath, hboard, -⟩
    · rcases Walk.Holds.step hstep hy with ⟨part, haction⟩ | ⟨hkept, hz⟩
      · rw [← add_zero b] at hsound
        obtain ⟨c, hsound', ⟨news, hnews, hlearns, hpays⟩, hz⟩ := Walk.Holds.action haction hy hsound
        rw [add_zero] at hsound'
        simp only [add_zero] at hlearns hpays
        refine ⟨log ++ news, c, .act hlog haction hnews, hsound', hz, fun m hm => ?_, ?_⟩
        · exact List.mem_append.2 ((hlearns m hm).imp_left (hknown m))
        · rw [List.countP_append]
          omega
      · have hstill : (env.budget g).still y.2 z.2 := by
          rcases hkept with hsame | hstill
          · rw [hsame]
            exact ⟨rfl, rfl⟩
          · exact hstill
        refine ⟨log, b, .step hlog hstep hstill.1, (env.budget g).sound_still hstill hsound, hz, hknown,
          ?_⟩
        rw [hstill.2]
        exact hentries
    · obtain ⟨path, board, v⟩ := y
      obtain ⟨path', board', v'⟩ := z
      obtain rfl : path' = path := hpath
      obtain rfl : board' = board := hboard
      exact ⟨log, b, .drift hlog, hsound, hy, hknown, hentries⟩

/-- What the log of a walk from this start point tells when the walk has come to `y`. -/
structure Tallies (env : Environment C H X ω) (start : StartPoint) (log : List Milestone)
    (y : Walk (Board C H X × ω) Report × Board C H X × ω) : Prop where
  within : log.countP Milestone.isAdmitted ≤ env.options.maxNodeVisits
  counted : y.2.1.visits = log.countP Milestone.isAdmitted + log.countP Milestone.isRefused
  /-- A step leaves its entry for a visit that was admitted, or for the signal that was handed over. -/
  entries : y.2.1.ledger.trace.length ≤ log.countP Milestone.isAdmitted + start.deliveries
  /-- A walk that was refused a visit ends with a failure that comes from this, unless it is
  cancelled. -/
  refused : (∃ node, .refused node ∈ log) → ∀ r, y.1 = .done r →
    r.halt = .cancelled ∨ ∃ f, r.halt = .failed f ∧ env.Overdrawn (· ∈ log) f
  /-- Nothing else makes it fail with the message of the limit. -/
  limit : ∀ r f, y.1 = .done r → r.halt = .failed f → f.IsRefusal env.options →
    ∃ node, .refused node ∈ log

theorem exists_tallies {board : Board C H X} {path : Walk (Board C H X × ω) Report} {v : ω}
    (h : Moves (Beside fun _ _ => True) Walk.Step
      (env.traverse d start, { context, extra }, u) (path, board, v)) :
    ∃ log, env.Log d.graph (env.traverse d start, { context, extra }, u) (path, board, v) log ∧
      env.Tallies start log (path, board, v) := by
  have hbegin : (env.budget d.graph).sound ({ context, extra }, u) (firstPurse start) := by
    refine ⟨fun k hk => ?_, fun hover => absurd hover (Nat.not_lt.2 (Nat.zero_le _))⟩
    obtain rfl : k = 0 := by simpa [firstPurse] using hk
    exact Nat.le_refl 0
  obtain ⟨log, b, hlog, hsound, hpath, hknown, hentries⟩ :=
    exists_log h (traverse_budget d start) hbegin (by simp [Purse.Knows, firstPurse])
  obtain ⟨hadmitted, hrefused⟩ := hlog.counts rfl
  have hover : (∃ node, .refused node ∈ log) → b.IsRefused := by
    rintro ⟨node, hnode⟩
    have hpos : 0 < log.countP Milestone.isRefused := List.countP_pos_iff.2 ⟨_, hnode, rfl⟩
    have hlt : env.options.maxNodeVisits < board.visits := by
      simp only at hrefused
      omega
    exact hsound.2 hlt
  simp only at hadmitted hrefused hentries
  have hnone : ({ context, extra } : Board C H X).ledger.trace.length = 0 := rfl
  refine ⟨log, hlog, by omega, by show board.visits = _; omega, ?_,
    fun hlogged r hr => ?_, fun r f hr hf hrefusal => ?_⟩
  · show board.ledger.trace.length ≤ _
    rw [hnone] at hentries
    simp only [firstPurse] at hentries
    omega
  · obtain rfl : path = .done r := hr
    rcases hpath with hcancelled | hsettled
    · exact .inl hcancelled
    · obtain ⟨f, hf, hoverdrawn⟩ := hsettled.refused (hover hlogged)
      exact .inr ⟨f, hf, hoverdrawn.mono hknown⟩
  · obtain rfl : path = .done r := hr
    rcases hpath with hcancelled | hsettled
    · rw [hf] at hcancelled
      cases hcancelled
    · obtain ⟨node, hnode⟩ := hsettled.limit f hf hrefusal
      exact ⟨node, hknown _ hnode⟩

/-! ### Runs -/

/-- A run keeps to its budget of visits. -/
structure KeepsBudget (env : Environment C H X ω) (d : Definition C H) (start : StartPoint)
    (context : C) (extra : X) (w : ω) : Prop where
  /-- There is a log of the walk of the run all the time. -/
  logged : ∀ {cancelled limit board path rest v}, Moves (fun _ _ => True) Course.Step
    (env.run d start context extra, w) (.walk cancelled limit board path rest, v) →
    ∃ u log, env.Log d.graph (env.traverse d start, { context, extra }, u) (path, board, v) log ∧
      env.Tallies start log (path, board, v)
  /-- The run does not go on forever, whatever the others do between its steps. -/
  ends : ∀ x : Nat → Op C H X ω (X × Option (RunResult C)) × ω,
    (x 0).1 = env.run d start context extra → ∃ n, ¬∃ v, Course.Step ((x n).1, v) (x (n + 1))
  /-- It does not get stuck. -/
  goesOn : ∀ {c v}, Moves (fun _ _ => True) Course.Step (env.run d start context extra, w) (c, v) →
    (∃ r, c = .done r) ∨ (∃ m, c = .crash m) ∨ ∃ y, Course.Step (c, v) y
  /-- If a visit was refused and the run has a result, it has failed: it was late, or the failure
  comes from this. -/
  concludes : ∀ {extra' result v}, Moves (fun _ _ => True) Course.Step
    (env.run d start context extra, w) (.done (extra', some result), v) →
    ∃ u path board t report log,
      env.Passes (fun _ _ => True) d start context extra result u t path board report ∧
      env.Log d.graph (env.traverse d start, { context, extra }, u) (path, board, t) log ∧
      env.Tallies start log (path, board, t) ∧
      result.trace.length ≤ env.options.maxNodeVisits + start.deliveries ∧
      ((∃ node, .refused node ∈ log) → ∃ f, result.outcome = .failed f ∧
        (result.IsLate d ∨ env.Overdrawn (· ∈ log) f))

/-- However the graph of a definition looks, wherever a run begins, whatever the steps do and in
whatever order its branches go on: no more visits are admitted than the options allow, and a run that
was refused one does not complete, nor does it wait for a signal. -/
theorem keepsBudget (env : Environment C H X ω) (d : Definition C H) (start : StartPoint)
    (context : C) (extra : X) (w : ω) : env.KeepsBudget d start context extra w where
  logged h := by
    obtain ⟨u, hmoves⟩ := run_walks h
    obtain ⟨log, hlog, htallies⟩ := exists_tallies hmoves
    exact ⟨u, log, hlog, htallies⟩
  ends x _ := Course.breaks_off x
  goesOn {c v} _ := Course.ended_or_step v c
  concludes {extra' result v} h := by
    obtain ⟨u, t, path, board, report, -, -, hpasses⟩ := run_passes (outside_true env _) h
    obtain ⟨log, hlog, htallies⟩ := exists_tallies hpasses.walked
    refine ⟨u, path, board, t, report, log, hpasses, hlog, htallies, ?_, fun hrefused => ?_⟩
    · rw [hpasses.trace]
      exact htallies.entries.trans (Nat.add_le_add_right htallies.within _)
    · by_cases htime : result.IsLate d
      · obtain ⟨limit, hlimit, houtcome⟩ := htime
        exact ⟨_, houtcome, .inl ⟨limit, hlimit, houtcome⟩⟩
      · obtain ⟨r, rfl, houtcome⟩ := hpasses.report htime
        rcases htallies.refused hrefused r rfl with hcancelled | ⟨f, hf, hoverdrawn⟩
        · simp [outcome, hcancelled] at houtcome
        · refine ⟨f, ?_, .inr hoverdrawn⟩
          simpa [outcome, hf, eq_comm] using houtcome

/-! ### Going round in circles -/

/-- One branch goes round in circles, and the other one stumbles at once. -/
def carousel : Definition Nat Unit where
  id := "carousel"
  name := "carousel"
  version := ⟨1, 0, 0, "", ""⟩
  limit := none
  root := 0
  graph := ⟨#[
    { kind := .parallel [1, 2] },
    { kind := .step { name := "stumble", execute := .done (.failure (.failed "ouch")) } },
    { kind := .step { name := "round", execute := .done .success }, next := some 2 }]⟩

/-- Six visits are admitted. -/
def forSixVisits : Environment Nat Unit Unit Unit := { quietly with options := { maxNodeVisits := 6 } }

/-- Begun at the branch itself, and at a node that there is not, the run fails with the message of the
limit. As a whole it fails with what the branch says that ended earlier. -/
theorem keepsBudget_carousel : ∃ result result' : RunResult Nat,
    Moves (fun _ _ => True) Course.Step (forSixVisits.run carousel (.frontier [7, 2]) 0 (), ())
      (.done ((), some result), ()) ∧
    result.outcome.failure?.map (·.message) = some "node visit limit of 6 exceeded" ∧
    result.trace.length = 6 ∧
    Moves (fun _ _ => True) Course.Step (forSixVisits.run carousel .root 0 (), ())
      (.done ((), some result'), ()) ∧
    result'.outcome.failure?.map (·.message) = some "ouch" ∧
    result'.trace.length = 5 ∧
    forSixVisits.KeepsBudget carousel (.frontier [7, 2]) 0 () () ∧
    forSixVisits.KeepsBudget carousel .root 0 () () := by
  have hend : ((forSixVisits.run carousel (.frontier [7, 2]) 0 ()).inOrder ((), [])).bind (fun x =>
      (result? x.1).map fun result => (result.outcome.failure?.map (·.message),
        result.trace.length)) = some (some "node visit limit of 6 exceeded", 6) := by decide +kernel
  have hend' : ((forSixVisits.run carousel .root 0 ()).inOrder ((), [])).bind (fun x =>
      (result? x.1).map fun result => (result.outcome.failure?.map (·.message),
        result.trace.length)) = some (some "ouch", 5) := by decide +kernel
  obtain ⟨⟨⟩, result, ⟨⟩, hmoves, hleft⟩ := exists_of_inOrder hend fun _ _ => True
  obtain ⟨⟨⟩, result', ⟨⟩, hmoves', hleft'⟩ := exists_of_inOrder hend' fun _ _ => True
  obtain ⟨hmessage, hentries⟩ := Prod.mk.inj hleft
  obtain ⟨hmessage', hentries'⟩ := Prod.mk.inj hleft'
  exact ⟨result, result', hmoves, hmessage, hentries, hmoves', hmessage', hentries',
    keepsBudget forSixVisits carousel _ 0 () (), keepsBudget forSixVisits carousel .root 0 () ()⟩

end Environment

end DurableWorkflow
