import DurableWorkflow.Proofs.Run.Attempts
import DurableWorkflow.Proofs.Run.Entries
import DurableWorkflow.Proofs.Run.Tour

/-!
# What a failed run blames

A walk holds the nodes that it has visited, until their entries are in the books, and it knows how
many visits have been counted and which entries have been made. A branch reports with the nodes of
its entries, and if it has failed, that is because of one of these entries, or because the engine
has failed at yet another node that it holds. No node is visited twice. So a run that fails blames a
node that it has visited, and tells of the entry of that node if there is one
(`Program.failure_told`); but of a step that waits in a branch it says that there was one attempt,
however many there were.
-/

namespace DurableWorkflow

variable {C H X ω : Type}

/-- The nodes that the entries are about. -/
def nodesOf (entries : List StepTrace) : Multiset Nat := (entries.map StepTrace.node : List Nat)

/-- The failure is about the entry, and names its step. -/
structure Graph.Charges (g : Graph C H) (t : StepTrace) (f : Failure) : Prop where
  fault : g.Fault t f
  step : f.step = some t.step

/-- What a failure rests on: one of the entries, or a failure of the engine itself at a node that is
held beside those of the entries. -/
inductive Graph.Grounds (g : Graph C H) (entries : List StepTrace) (held : Multiset Nat) :
    Failure → Prop
  | entry {t : StepTrace} {f : Failure} (ht : t ∈ entries) (h : g.Charges t f) :
    Grounds g entries held f
  | engine {label message : String} {node : NodeId} (h : node ::ₘ nodesOf entries ≤ held) :
    Grounds g entries held (.ofEngine label node message)

/-- The failure blames the node. It tells of the entry of that node, and if there is none, the
engine itself has failed there. -/
structure Graph.Accuses (g : Graph C H) (entries : List StepTrace) (node : NodeId) (f : Failure) :
    Prop where
  blamed : f.node = some node
  entry : ∀ t ∈ entries, t.node = node → g.Charges t f
  /-- A step that waits is said to have been tried once. -/
  attempts : ∀ t ∈ entries, t.node = node →
    f.attempts = if t.outcome.isFailure then t.attempts else 1
  engine : (∀ t ∈ entries, t.node ≠ node) → ∃ label message, f = .ofEngine label node message

variable {g : Graph C H} {entries l : List StepTrace} {held a b : Multiset Nat} {f : Failure}
  {t : StepTrace} {node : NodeId}

/-! ### Entries and failures -/

@[simp]
theorem nodesOf_nil : nodesOf [] = 0 := rfl

@[simp]
theorem nodesOf_append (l l' : List StepTrace) : nodesOf (l ++ l') = nodesOf l + nodesOf l' := by
  simp [nodesOf]

theorem mem_nodesOf : node ∈ nodesOf entries ↔ ∃ t ∈ entries, t.node = node := by simp [nodesOf]

theorem Graph.Charges.blamed (h : g.Charges t f) : f.node = some t.node := by
  obtain ⟨hfault, -⟩ := h
  cases hfault <;> rfl

theorem Graph.Charges.attempts (h : g.Charges t f) :
    f.attempts = if t.outcome.isFailure then t.attempts else 1 := by
  obtain ⟨hfault, -⟩ := h
  cases hfault with
  | failed h => rw [h, TraceOutcome.isFailure, if_pos rfl]
  | stranded h => rw [h, TraceOutcome.isFailure, if_neg Bool.false_ne_true, strandedFailure]

namespace Graph.Grounds

theorem mono (h : g.Grounds entries a f) (hab : a ≤ b) : g.Grounds entries b f := by
  cases h with
  | entry ht h => exact .entry ht h
  | engine h => exact .engine (h.trans hab)

theorem after (h : g.Grounds entries b f) (hl : nodesOf l ≤ a) :
    g.Grounds (l ++ entries) (a + b) f := by
  cases h with
  | entry ht h => exact .entry (List.mem_append_right l ht) h
  | engine h =>
    refine .engine ?_
    rw [nodesOf_append, ← Multiset.add_cons]
    exact add_le_add hl h

theorem before (h : g.Grounds entries a f) (hl : nodesOf l ≤ b) :
    g.Grounds (entries ++ l) (a + b) f := by
  cases h with
  | entry ht h => exact .entry (List.mem_append_left l ht) h
  | engine h =>
    refine .engine ?_
    rw [nodesOf_append, ← Multiset.cons_add]
    exact add_le_add h hl

/-- Where no node is visited twice, what the failure rests on decides what it tells. -/
theorem accuses (h : g.Grounds entries held f) (hle : nodesOf entries ≤ held) (hheld : held.Nodup) :
    ∃ node ∈ held, g.Accuses entries node f := by
  cases h with
  | @entry t _ ht h =>
    have hnodup : (entries.map StepTrace.node).Nodup :=
      Multiset.coe_nodup.1 (Multiset.nodup_of_le hle hheld)
    have honly (u : StepTrace) (hu : u ∈ entries) (hsame : u.node = t.node) : g.Charges u f := by
      rwa [List.inj_on_of_nodup_map hnodup hu ht hsame]
    exact ⟨t.node, Multiset.mem_of_le hle (mem_nodesOf.2 ⟨t, ht, rfl⟩), h.blamed, honly,
      fun u hu hsame => (honly u hu hsame).attempts, fun hnone => absurd rfl (hnone t ht)⟩
  | @engine label message node h =>
    have hfresh : node ∉ nodesOf entries :=
      (Multiset.nodup_cons.1 (Multiset.nodup_of_le h hheld)).1
    have hnone (u : StepTrace) (hu : u ∈ entries) : u.node ≠ node := fun hsame =>
      hfresh (mem_nodesOf.2 ⟨u, hu, hsame⟩)
    exact ⟨node, Multiset.mem_of_le h (Multiset.mem_cons_self _ _), rfl,
      fun u hu hsame => absurd hsame (hnone u hu), fun u hu hsame => absurd hsame (hnone u hu),
      fun _ => ⟨label, message, rfl⟩⟩

end Graph.Grounds

/-- If a visit waits, a failure that says so is about its entry. -/
theorem Visited.Fits.charges {v : Visited} (h : v.Fits g node) {signal : String}
    {limit : Option Nanos} (hturn : v.turn = .suspended signal limit) :
    ∃ t ∈ v.trace, g.Charges t (g.strandedFailure node signal) := by
  obtain ⟨n, s, t, hn, hkind, htrace, hstep, rfl, houtcome⟩ := h.suspended signal limit hturn
  refine ⟨t, by simp [htrace], .stranded houtcome, ?_⟩
  simp [Graph.strandedFailure, hn, hkind, NodeKind.label, hstep]

/-! ### What walks hold -/

/-- What a walk may know of the board for good. It stays true whatever the others do, so a walk can
tell each of its branches. -/
inductive Fact
  | counted (visits : Nat)
  | entered (t : StepTrace)

def Fact.Of (board : Board C H X) : Fact → Prop
  | counted visits => visits ≤ board.visits
  | entered t => t ∈ board.ledger.trace

/-- That these entries have been made. -/
def Fact.ofEntries (entries : List StepTrace) : Multiset Fact := (entries.map .entered : List Fact)

theorem Fact.mem_ofEntries {fact : Fact} :
    fact ∈ Fact.ofEntries entries ↔ ∃ t ∈ entries, fact = .entered t := by
  simp [Fact.ofEntries, eq_comm]

theorem Fact.Of.mono {fact : Fact} {board board' : Board C H X} (h : fact.Of board)
    (hvisits : board.visits ≤ board'.visits)
    (htrace : ∀ t ∈ board.ledger.trace, t ∈ board'.ledger.trace) : fact.Of board' := by
  cases fact with
  | counted => exact Nat.le_trans h hvisits
  | entered t => exact htrace t h

/-- The nodes that a walk has visited and that the books do not tell of, and what it knows. -/
abbrev Footing := Multiset Nat × Multiset Fact

/-- These nodes are held, and so many visits are known. -/
def Footing.holding (nodes : Multiset Nat) (visits : Nat) : Footing := (nodes, {.counted visits})

/-- The nodes that have been visited: those that the books tell of, and those that walks hold. -/
def trodden (x : (Board C H X × ω) × Footing) : Multiset Nat :=
  nodesOf x.1.1.ledger.trace + x.2.1

namespace Environment

/-- The walks hold the nodes that they have visited, and a branch answers for its report. -/
def footing (env : Environment C H X ω) (g : Graph C H) :
    Shares (Board C H X × ω) Report Footing where
  sound s a := ∀ fact ∈ a.2, fact.Of s.1
  still s t := t.1.visits = s.1.visits ∧ t.1.ledger.trace = s.1.ledger.trace
  deal part x y := y.1.1.visits = x.1.1.visits ∧ trodden y = trodden x ∨
    y.1.1.visits = x.1.1.visits + 1 ∧ ∃ node, env.Faces g node part ∧
      trodden y = node ::ₘ trodden x
  report r a := r.isCancelled = true ∨
    nodesOf r.trace ≤ a.1 ∧ ∀ f, r.halt = .failed f → g.Grounds r.trace a.1 f
  void r := r.isCancelled = true
  sound_still h hs fact hfact := (hs fact hfact).mono h.1.ge fun t ht => by rwa [h.2]
  report_void _ h := .inl h

variable {env : Environment C H X ω}

theorem footing_adds {act : Board C H X × ω → Board C H X × ω}
    (h : ∀ s, (env.footing g).still s (act s)) : (env.footing g).Adds act 0 := by
  intro part s a hs
  rw [add_zero]
  exact ⟨(env.footing g).sound_still (h s) hs, .inl ⟨(h s).1, by rw [trodden, trodden, (h s).2]⟩⟩

/-- What is done at a step has nothing to do with visits. -/
theorem footing_weighs (env : Environment C H X ω) (g : Graph C H) :
    env.Weighs (env.footing g) Weights.nothing where
  stopped := rfl
  look := footing_adds fun _ => ⟨rfl, rfl⟩
  memory _ _ _ _ := ⟨rfl, rfl⟩
  success _ _ := footing_adds fun _ => ⟨rfl, rfl⟩
  failure := footing_adds fun _ => ⟨rfl, rfl⟩
  retry := footing_adds fun _ => ⟨rfl, rfl⟩
  peak _ := footing_adds fun _ => ⟨rfl, rfl⟩
  announce what _ := by
    rw [Weights.nothing_heard]
    exact footing_adds fun _ => ⟨rfl, rfl⟩

/-! ### Visits -/

/-- What comes of a visit by a walk that has held these nodes and has known of `k` visits. -/
structure Trod (env : Environment C H X ω) (g : Graph C H) (held : Multiset Nat) (k : Nat)
    (v : Visited) (a : Footing) : Prop where
  more : ∃ c, a.1 = held + c ∧ nodesOf v.trace ≤ c ∧ ∀ f, v.turn = .failed f → g.Grounds v.trace c f
  /-- Flow goes on only if the visit was admitted. -/
  counted : ∀ nodes, v.turn = .onward nodes →
    ∃ m, k < m ∧ m ≤ env.options.maxNodeVisits ∧ .counted m ∈ a.2

variable {branch : NodeId → Walk (Board C H X × ω) Report} {n : Node C H} {s : Step C H} {k m : Nat}
  {v : Visited}

theorem runStep_reports (node : NodeId) (s : Step C H) (next : Option NodeId) :
    (env.runStep node s next).Hands fun v => ∃ o k, Reported s node next o k v := by
  refine .after fun startedAt => .after fun y => .after fun completedAt => ?_
  cases y.1.outcome with
  | success =>
    exact .after fun _ => .after fun _ => .after fun _ =>
      .pure ⟨.success, y.2, startedAt, completedAt, rfl⟩
  | failure error shouldRetry =>
    exact .after fun _ => .pure ⟨.failure error shouldRetry, y.2, startedAt, completedAt, rfl⟩
  | suspended signal limit =>
    exact .pure ⟨.suspended signal limit, y.2, startedAt, completedAt, rfl⟩

theorem Reported.grounds {next : Option NodeId} {o : StepOutcome} {k : Nat}
    (h : Reported s node next o k v) : nodesOf v.trace = {node} ∧
      ∀ f, v.turn = .failed f → g.Grounds v.trace {node} f := by
  obtain ⟨startedAt, completedAt, rfl⟩ := h
  refine ⟨rfl, fun f hf => ?_⟩
  cases o with
  | success | suspended => simp [Step.turn] at hf
  | failure error shouldRetry =>
    cases hf
    exact .entry (List.mem_singleton_self _) ⟨.failed rfl, rfl⟩

theorem reports_grounds {reports : List Report} {a : Footing}
    (h : (env.footing g).Reports reports a) (hcalm : ∀ r ∈ reports, r.isCancelled = false) :
    nodesOf (reports.flatMap (·.trace)) ≤ a.1 ∧ ∀ r ∈ reports, ∀ f, r.halt = .failed f →
      g.Grounds (reports.flatMap (·.trace)) a.1 f := by
  induction h with
  | nil => simp
  | @cons r rs a b hr _ ih =>
    obtain ⟨hcalm, hcalms⟩ := List.forall_mem_cons.1 hcalm
    obtain ⟨hrest, hothers⟩ := ih hcalms
    obtain hcancelled | ⟨hown, hfailed⟩ := hr
    · rw [hcalm] at hcancelled
      cases hcancelled
    · rw [List.flatMap_cons, nodesOf_append]
      refine ⟨add_le_add hown hrest, List.forall_mem_cons.2 ⟨fun f hf => ?_, fun u hu f hf => ?_⟩⟩
      · exact (hfailed f hf).before hrest
      · exact (hothers u hu f hf).after hown

/-- What is known can be told to each branch. -/
theorem allHold_nsmul {R : Type} [AddCommMonoid R] {S : Shares (Board C H X × ω) Report R} {c : R}
    (hbranch : ∀ child, (branch child).Holds S S.report c) (children : List NodeId) :
    allHold S (children.map branch) (children.length • c) := by
  induction children with
  | nil => exact zero_nsmul c
  | cons child children ih =>
    exact ⟨c, children.length • c, succ_nsmul' c _, hbranch child, ih⟩

/-- What the engine has against the node itself is about a node that is held. -/
theorem trod_engineFailure {b : Footing} (hb : b.1 = held + {node}) (label message : String) :
    env.Trod g held k (.engineFailure label node message) b := by
  refine ⟨⟨{node}, hb, by simp [Visited.engineFailure], fun f hf => ?_⟩,
    by simp [Visited.engineFailure]⟩
  cases hf
  exact .engine (le_refl _)

/-- A node that was admitted is held, and what comes of it is about it or about the nodes of its
branches. -/
theorem enter_footing (hkm : k < m) (hm : m ≤ env.options.maxNodeVisits)
    (hbranch : ∀ child, (branch child).Holds (env.footing g) (env.footing g).report
      (.holding 0 m)) :
    (env.enter branch node n).Holds (env.footing g)
      (n.kind.children.length • Footing.holding 0 m + .holding (held + {node}) m)
      (env.Trod g held k) := by
  have hheld (j : Nat) :
      (j • Footing.holding 0 m + .holding (held + {node}) m).1 = held + {node} := by
    simp [Footing.holding]
  have hcounted (a : Footing) : .counted m ∈ (a + .holding (held + {node}) m).2 := by
    simp [Footing.holding]
  refine enter_holds (footing_weighs env g).toNeutral (fun nodes => ?_) (fun message => ?_)
    (fun s => ?_) fun children hkind => ?_
  · exact ⟨⟨{node}, hheld _, by simp [Visited.onward], by simp [Visited.onward]⟩,
      fun _ _ => ⟨m, hkm, hm, hcounted _⟩⟩
  · exact trod_engineFailure (hheld _) _ message
  · refine ((runStep_holds (footing_weighs env g) node s n.next).hands
      (runStep_reports node s n.next) (footing_weighs env g).stopped).mono ?_
    rintro v b ⟨⟨t, -, rfl⟩, o, j, hreported⟩
    rw [Weights.nothing_ofEntry, add_zero]
    obtain ⟨hnodes, hfailed⟩ := hreported.grounds
    exact ⟨⟨{node}, hheld _, hnodes.le, hfailed⟩, fun _ _ => ⟨m, hkm, hm, hcounted _⟩⟩
  · rw [hkind]
    refine runParallel_holds (footing_weighs env g).toNeutral (allHold_nsmul hbranch children)
      fun reports d hreports hcalm => ?_
    obtain ⟨hown, hfailed⟩ := reports_grounds hreports hcalm
    refine ⟨⟨d.1 + {node}, ?_, ?_, fun f hf => ?_⟩, fun _ _ => ⟨m, hkm, hm, hcounted d⟩⟩
    · simp [Footing.holding, add_left_comm held]
    · exact hown.trans (Multiset.le_add_right _ _)
    · obtain ⟨r, hr, hhalt⟩ := exists_of_join_failed hf
      exact (hfailed r hr f hhalt).mono (Multiset.le_add_right _ _)

/-- A visit that is counted makes its walk hold the node, and the walk may tell branches of it. -/
theorem countVisit_footing {part : Walk (Board C H X × ω) Report} {x : Board C H X × ω}
    {a others : Footing} (hfaces : env.Faces g node part)
    (hs : (env.footing g).sound x (a + others)) (branches : Nat) :
    (env.footing g).sound ({ x.1 with visits := x.1.visits + 1 }, x.2)
        (branches • Footing.holding 0 (x.1.visits + 1) +
          .holding (a.1 + {node}) (x.1.visits + 1) + others) ∧
      (env.footing g).deal part (x, a + others) (({ x.1 with visits := x.1.visits + 1 }, x.2),
        branches • Footing.holding 0 (x.1.visits + 1) +
          .holding (a.1 + {node}) (x.1.visits + 1) + others) := by
  refine ⟨fun fact hfact => ?_, .inr ⟨rfl, node, hfaces, ?_⟩⟩
  · obtain hnew | hfact := Multiset.mem_add.1 hfact
    · obtain ⟨-, rfl⟩ | rfl : branches ≠ 0 ∧ fact = .counted (x.1.visits + 1) ∨
          fact = .counted (x.1.visits + 1) := by
        simpa [Footing.holding, Multiset.mem_nsmul] using hnew
      all_goals exact Nat.le_refl (x.1.visits + 1)
    · exact (hs fact (Multiset.mem_add.2 (.inr hfact))).mono (Nat.le_succ _) fun _ => id
  · simp [trodden, Footing.holding, ← Multiset.singleton_add]
    abel

/-- What follows a visit. -/
theorem visit_footing {a : Footing} {F : Report → Footing → Prop}
    {K : Visited → Walk (Board C H X × ω) Report} (hk : .counted k ∈ a.2)
    (hfaces : env.Faces g node (env.visit g branch node K))
    (hbranch : ∀ child m, k < m → m ≤ env.options.maxNodeVisits →
      (branch child).Holds (env.footing g) (env.footing g).report (.holding 0 m))
    (hF : ∀ r b, r.isCancelled = true → F r b)
    (hK : ∀ v b, env.Trod g a.1 k v b → v.Fits g node → (K v).Holds (env.footing g) F b) :
    (env.visit g branch node K).Holds (env.footing g) F a := by
  intro x others hs
  -- A visit is admitted only where fewer than all have been counted, so what is known stays below.
  have hknown : k ≤ x.1.visits := hs _ (Multiset.mem_add.2 (.inl hk))
  have hpaid := countVisit_footing hfaces hs
  show ∃ b, (env.footing g).sound (env.countVisit x).2 (b + others) ∧
    (env.footing g).deal (env.visit g branch node K) (x, a + others)
      ((env.countVisit x).2, b + others) ∧ Walk.Holds _ _ _ b
  beta_reduce
  obtain hcount | ⟨admission, hnot, hadmitted, hcount⟩ := env.countVisit_cases x
  · rw [hcount]
    exact ⟨a, hs, .inl ⟨rfl, rfl⟩, hF _ a rfl⟩
  · rw [hcount]
    cases admission with
    | cancelled => exact absurd rfl hnot
    | refused =>
      obtain ⟨hsound, hdeal⟩ := hpaid 0
      exact ⟨_, hsound, hdeal, hK _ _ (trod_engineFailure (by simp [Footing.holding]) _ _)
        (engineFailure_fits _ _)⟩
    | admitted =>
      cases hn : g.get? node with
      | none =>
        obtain ⟨hsound, hdeal⟩ := hpaid 0
        exact ⟨_, hsound, hdeal, hK _ _ (trod_engineFailure (by simp [Footing.holding]) _ _)
          (engineFailure_fits _ _)⟩
      | some n =>
        obtain ⟨hsound, hdeal⟩ := hpaid n.kind.children.length
        have hkm : k < x.1.visits + 1 := Nat.lt_succ_of_le hknown
        refine ⟨_, hsound, hdeal, ?_⟩
        exact ((enter_footing hkm (hadmitted.1 rfl) fun child =>
          hbranch child _ hkm (hadmitted.1 rfl)).hands (enter_hands hn)
            (footing_weighs env g).stopped) F K hF fun v b hv => hK v b hv.1 hv.2

/-! ### Walks -/

/-- More visits are known of than the fuel leaves room for, so it does not run out. -/
theorem walkBranch_footing (fuel : Nat) (nodes : List NodeId) {trace : List StepTrace} {a : Footing}
    (hk : .counted k ∈ a.2) (hmax : k ≤ env.options.maxNodeVisits)
    (hfuel : env.options.maxNodeVisits < k + fuel) (htrace : nodesOf trace ≤ a.1) :
    (env.walkBranch g fuel nodes trace).Holds (env.footing g) (env.footing g).report a := by
  induction fuel generalizing nodes trace a k with
  | zero => omega
  | succ fuel ih =>
    cases nodes with
    | nil => exact .inr ⟨htrace, by simp⟩
    | cons node ahead =>
      refine visit_footing hk (.branch fuel ahead trace) (fun child m hkm hm =>
        ih [child] (Multiset.mem_singleton_self _) hm (by omega) (Multiset.zero_le _))
        (fun _ _ => .inl) fun v b hv hfits => ?_
      obtain ⟨⟨c, hb, hown, hfailed⟩, hcounted⟩ := hv
      have hall : nodesOf (trace ++ v.trace) ≤ b.1 := by
        rw [nodesOf_append, hb]
        exact add_le_add htrace hown
      simp only
      cases hturn : v.turn with
      | onward nodes =>
        obtain ⟨m, hkm, hm, hknown⟩ := hcounted nodes hturn
        exact ih _ hknown hm (by omega) hall
      | failed f =>
        refine .inr ⟨hall, fun f' hf' => ?_⟩
        cases hf'
        rw [hb]
        exact (hfailed f hturn).after htrace
      | suspended signal limit =>
        refine .inr ⟨hall, fun f' hf' => ?_⟩
        cases hf'
        obtain ⟨t, ht, hcharges⟩ := hfits.charges hturn
        exact .entry (List.mem_append_right trace ht) hcharges

/-- If the main walk fails, that is because of an entry of the books, or at a node that it holds. -/
def Rests (g : Graph C H) (r : Report) (a : Footing) : Prop :=
  r.isCancelled = true ∨ ∀ f, r.halt = .failed f →
    (∃ t, .entered t ∈ a.2 ∧ g.Charges t f) ∨
      ∃ label message, ∃ node ∈ a.1, f = .ofEngine label node message

/-- Entries that are made are known from then on, and their nodes are held no more. -/
theorem entering_footing {part : Walk (Board C H X × ω) Report} {x : Board C H X × ω}
    {a others : Footing} {c : Multiset Nat} (ha : a.1 = held + (nodesOf entries + c))
    (hs : (env.footing g).sound x (a + others)) :
    (env.footing g).sound ({ x.1 with ledger.trace := x.1.ledger.trace ++ entries }, x.2)
        ((held + c, a.2 + Fact.ofEntries entries) + others) ∧
      (env.footing g).deal part (x, a + others)
        (({ x.1 with ledger.trace := x.1.ledger.trace ++ entries }, x.2),
          (held + c, a.2 + Fact.ofEntries entries) + others) := by
  refine ⟨fun fact hfact => ?_, .inl ⟨rfl, ?_⟩⟩
  · have hentered : fact ∈ (a + others).2 ∨ ∃ t ∈ entries, fact = .entered t := by
      simp only [Prod.snd_add, Multiset.mem_add, Fact.mem_ofEntries] at hfact ⊢
      tauto
    obtain hfact | ⟨t, ht, rfl⟩ := hentered
    · exact (hs fact hfact).mono (Nat.le_refl _) fun t ht => List.mem_append_left _ ht
    · exact List.mem_append_right _ ht
  · simp only [trodden, Prod.fst_add, nodesOf_append, ha]
    abel

/-- A failure that rests on the entries of a visit rests on the books once these are in them. -/
theorem rests_of_grounds {c : Multiset Nat} (h : g.Grounds entries (nodesOf entries + c) f)
    (known : Multiset Fact) :
    Rests g { halt := .failed f } (held + c, known + Fact.ofEntries entries) := by
  refine .inr fun f' hf' => ?_
  cases hf'
  cases h with
  | @entry t _ ht hcharges =>
    exact .inl ⟨t, Multiset.mem_add.2 (.inr (Fact.mem_ofEntries.2 ⟨t, ht, rfl⟩)), hcharges⟩
  | @engine label message node h =>
    have hrest : node ∈ c := by
      rw [← Multiset.singleton_add, add_comm] at h
      exact Multiset.singleton_le.1 (le_of_add_le_add_left h)
    exact .inr ⟨label, message, node, Multiset.mem_add.2 (.inr hrest), rfl⟩

theorem pass_footing {ahead : List NodeId} {a : Footing}
    {next : List NodeId → Walk (Board C H X × ω) Report} (hv : env.Trod g held k v a)
    (hnext : ∀ nodes b, (∃ m, k < m ∧ m ≤ env.options.maxNodeVisits ∧ .counted m ∈ b.2) →
      (next nodes).Holds (env.footing g) (Rests g) b) :
    (env.pass node ahead v next).Holds (env.footing g) (Rests g) a := by
  obtain ⟨⟨c, ha, hown, hfailed⟩, hcounted⟩ := hv
  obtain ⟨c, rfl⟩ := Multiset.le_iff_exists_add.1 hown
  intro x others hs
  obtain ⟨hsound, hdeal⟩ := entering_footing ha hs
  refine ⟨_, hsound, hdeal, ?_⟩
  simp only
  cases hturn : v.turn with
  | onward nodes =>
    obtain ⟨m, hkm, hm, hknown⟩ := hcounted nodes hturn
    intro x others hs
    simp only
    cases env.save ⟨x.1.context, (nodes ++ ahead).reverse, v.trace⟩ (x.1.extra, x.2) with
    | ok saved =>
      exact ⟨_, hs, .inl ⟨rfl, rfl⟩, hnext _ _ ⟨m, hkm, hm, Multiset.mem_add.2 (.inl hknown)⟩⟩
    | error message => exact ⟨_, hs, .inl ⟨rfl, rfl⟩, .inr (by simp)⟩
  | failed f => exact rests_of_grounds (hfailed f hturn) a.2
  | suspended signal limit =>
    intro x others hs
    exact ⟨_, hs, .inl ⟨rfl, rfl⟩, .inr (by simp)⟩

theorem walkMain_footing (fuel : Nat) (nodes : List NodeId) {a : Footing} (hk : .counted k ∈ a.2)
    (hmax : k ≤ env.options.maxNodeVisits) (hfuel : env.options.maxNodeVisits < k + fuel) :
    (env.walkMain g fuel nodes).Holds (env.footing g) (Rests g) a := by
  induction fuel generalizing nodes a k with
  | zero => omega
  | succ fuel ih =>
    cases nodes with
    | nil => exact .inr (by simp)
    | cons node ahead =>
      refine visit_footing hk (.main fuel ahead) (fun child m hkm hm =>
        walkBranch_footing fuel [child] (Multiset.mem_singleton_self _) hm (by omega)
          (Multiset.zero_le _)) (fun _ _ => .inl) fun v b hv _ =>
            pass_footing hv fun nodes c hc => ?_
      obtain ⟨m, hkm, hm, hknown⟩ := hc
      exact ih nodes hknown hm (by omega)

/-! ### Tours -/

/-- Where a tour has come to, the nodes that it has visited are those that the books tell of and
those that walks hold. -/
theorem Tour.footing {x y : Walk (Board C H X × ω) Report × Board C H X × ω} {nodes : List NodeId}
    {F : Report → Footing → Prop} {a : Footing} (h : env.Tour g x y nodes)
    (hx : x.1.Holds (env.footing g) F a) (hs : (env.footing g).sound x.2 a)
    (hbegin : trodden (x.2, a) = 0) : ∃ b, (env.footing g).sound y.2 b ∧
      y.1.Holds (env.footing g) F b ∧ trodden (y.2, b) = (nodes : Multiset Nat) := by
  refine Tour.deals (J := fun x a nodes => trodden (x, a) = (nodes : Multiset Nat))
    (fun _ _ _ => ⟨rfl, rfl⟩) ?_ ?_ ?_ h hx hs hbegin
  · intro s t a nodes hstill htrodden
    rwa [trodden, hstill.2]
  · rintro part s t a b nodes (⟨-, hkept⟩ | ⟨hmore, -⟩) hsame htrodden
    · exact hkept.trans htrodden
    · exact absurd (hmore.symm.trans hsame) (Nat.succ_ne_self _)
  · rintro part node s t a b nodes (⟨hsame, -⟩ | ⟨-, node', hpart', hmore⟩) hcounted hpart hcalm
      htrodden
    · exact absurd (hcounted.symm.trans hsame) (Nat.succ_ne_self _)
    · obtain rfl : node = node' := hpart.unique hpart' hcalm s.1
      rw [hmore, htrodden, ← Multiset.coe_add, Multiset.coe_singleton, add_comm,
        Multiset.singleton_add]

variable {d : Definition C H} {context : C} {extra extra' : X} {u v w : ω}

/-- Where the walk of a run has failed, it blames a node on its tour, and tells of the entry of that
node. -/
theorem Tour.accuses (horderly : d.Orderly) {r : Report} {x : Board C H X × ω} {nodes : List NodeId}
    (h : env.Tour d.graph (env.traverse d .root, { context, extra }, u) (.done r, x) nodes)
    (hf : r.halt = .failed f) : nodes.Nodup ∧ nodesOf x.1.ledger.trace ≤ (nodes : Multiset Nat) ∧
      ∃ node ∈ nodes, d.graph.Accuses x.1.ledger.trace node f := by
  have hnodup := ((toursOnce_of_orderly (w := u) horderly).once h).1
  have hbegin : (env.traverse d .root).Holds (env.footing d.graph) (Rests d.graph) (.holding 0 0) :=
    walkMain_footing _ _ (Multiset.mem_singleton_self _) (Nat.zero_le _) (by omega)
  have hknown : (env.footing d.graph).sound ({ context, extra }, u) (.holding 0 0) := by
    intro fact hfact
    rw [Multiset.mem_singleton.1 hfact]
    exact Nat.zero_le _
  obtain ⟨a, hsound, hrests, htrodden⟩ := h.footing hbegin hknown rfl
  have hle : nodesOf x.1.ledger.trace ≤ trodden (x, a) := Multiset.le_add_right _ _
  have hgrounds : d.graph.Grounds x.1.ledger.trace (trodden (x, a)) f := by
    obtain hcancelled | hrests := hrests
    · rw [Report.isCancelled, hf] at hcancelled
      cases hcancelled
    · obtain ⟨t, ht, hcharges⟩ | ⟨label, message, node, hnode, rfl⟩ := hrests f hf
      · exact .entry (hsound _ ht) hcharges
      · refine .engine ?_
        rw [trodden, ← Multiset.singleton_add, add_comm]
        exact add_le_add_right (Multiset.singleton_le.2 hnode) _
  rw [htrodden] at hle hgrounds
  exact ⟨hnodup, hle, hgrounds.accuses hle (Multiset.coe_nodup.2 hnodup)⟩

/-! ### Runs -/

/-- The run has failed with `f`, and these are the nodes that it has visited. -/
structure Fails (env : Environment C H X ω) (d : Definition C H) (context : C) (extra : X)
    (result : RunResult C) (f : Failure) (nodes : List NodeId) : Prop where
  /-- The walk of the run was on a tour of these nodes when it failed. -/
  toured : ∃ u t board r report, r.halt = .failed f ∧
    env.Passes (fun _ _ => True) d .root context extra result u t (.done r) board report ∧
    env.Tour d.graph (env.traverse d .root, { context, extra }, u) (.done r, board, t) nodes
  once : nodes.Nodup
  /-- Each entry is about one of the nodes, and no two are about the same. -/
  entries : (result.trace.map StepTrace.node).Nodup ∧ ∀ t ∈ result.trace, t.node ∈ nodes
  accuses : ∃ node ∈ nodes, d.graph.Accuses result.trace node f

end Environment

/-- A run from the root that fails, and is not late, blames a node that it has visited. If the trace
has an entry of this node, the failure names its step and has its attempts, unless the step waits.
If there is none, the engine itself has failed, and there were no attempts. -/
theorem Program.failure_told {registry : Registry C H} {p : Program C H} {d : Definition C H}
    (hd : p.compile registry = .ok d) {env : Environment C H X ω} {context : C} {extra extra' : X}
    {w v : ω} {result : RunResult C} {f : Failure}
    (h : Moves (fun _ _ => True) Course.Step (env.run d .root context extra, w)
      (.done (extra', some result), v))
    (hf : result.outcome = .failed f) (htime : ¬result.IsLate d) :
    ∃ nodes, env.Fails d context extra result f nodes := by
  have horderly := p.orderly_of_compile registry hd
  obtain ⟨u, t, path, board, report, -, -, hpasses⟩ :=
    Environment.run_passes (Environment.outside_true env _) h
  obtain ⟨r, rfl, houtcome⟩ := hpasses.report htime
  have hhalt : r.halt = .failed f := (Environment.halt_of_outcome houtcome).2.1 f hf
  obtain ⟨nodes, htour⟩ :=
    Environment.exists_tour hpasses.walked (Environment.traverse_ground horderly) rfl
  obtain ⟨hnodup, hle, haccuses⟩ := htour.accuses horderly hhalt
  rw [← hpasses.trace] at hle haccuses
  refine ⟨nodes, ⟨u, t, board, r, report, hhalt, hpasses, htour⟩, hnodup, ⟨?_, fun t ht => ?_⟩,
    haccuses⟩
  · exact Multiset.coe_nodup.1 (Multiset.nodup_of_le hle (Multiset.coe_nodup.2 hnodup))
  · exact Multiset.mem_coe.1 (Multiset.mem_of_le hle (mem_nodesOf.2 ⟨t, ht, rfl⟩))

/-! ### A step that waits after three attempts -/

/-- A step that is restless twice, and then waits without having said so. -/
def tossing : Step Nat Unit where
  name := "nap"
  execute := .act (fun (turns, u) => (turns + 1, u)) fun (turns, _) =>
    .done (if turns < 2 then .retryable (.failed "restless") else .suspend "morning")

/-- The lamp is lit, and beside the step another one reads. -/
def bedtime : Program Nat Unit where
  id := "bedtime"
  version := "1.0.0"
  calls :=
    [ .start { name := "lamp", execute := .done .success },
      .append (.parallel [.single tossing, .single { name := "read", execute := .done .success }]) ]

/-- The entry of the step has three attempts, and the failure that blames it has one. -/
theorem Program.failure_told_bedtime : ∃ (d : Definition Nat Unit) (result : RunResult Nat)
    (f : Failure) (t : StepTrace), bedtime.compile {} = .ok d ∧
      Moves (fun _ _ => True) Course.Step (Environment.quietly.run d .root 0 (), ())
        (.done ((), some result), ()) ∧
      result.outcome = .failed f ∧ ¬result.IsLate d ∧ t ∈ result.trace ∧ f.node = some t.node ∧
      t.attempts = 3 ∧ f.attempts = 1 ∧
      ∃ nodes, Environment.quietly.Fails d 0 () result f nodes := by
  obtain ⟨d, hd, hlimit, hrun⟩ : ∃ d, bedtime.compile {} = .ok d ∧ d.limit = none ∧
      ((Environment.quietly.run d .root 0 ()).inOrder ((), [])).bind (fun x =>
        (Environment.result? x.1).map fun result =>
          (result.outcome.failure?.map fun f => (f.node, f.attempts),
            result.trace.map fun t => (t.node, t.attempts))) =
        some (some (some 2, 1), [(0, 1), (2, 3), (3, 1)]) := ⟨_, rfl, rfl, by decide +kernel⟩
  obtain ⟨⟨⟩, result, ⟨⟩, hmoves, htold⟩ := Environment.exists_of_inOrder hrun fun _ _ => True
  obtain ⟨hfailure, htrace⟩ := Prod.mk.inj htold
  obtain ⟨f, hf, hblamed⟩ := Option.map_eq_some_iff.1 hfailure
  obtain ⟨hnode, hone⟩ := Prod.mk.inj hblamed
  have houtcome : result.outcome = .failed f := by
    cases hresult : result.outcome <;> simp_all [RunOutcome.failure?]
  have htime : ¬result.IsLate d := by
    rintro ⟨limit, hlate, -⟩
    rw [hlimit] at hlate
    cases hlate
  obtain ⟨t, ht, hentry⟩ : ∃ t ∈ result.trace, (t.node, t.attempts) = (2, 3) :=
    List.mem_map.1 (htrace ▸ by simp)
  obtain ⟨hsame, hthree⟩ := Prod.mk.inj hentry
  exact ⟨d, result, f, t, hd, hmoves, houtcome, htime, ht, hnode.trans (congrArg some hsame.symm),
    hthree, hone, Program.failure_told hd hmoves houtcome htime⟩

end DurableWorkflow
