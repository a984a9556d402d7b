import DurableWorkflow.Proofs.Run.Thrift
import DurableWorkflow.Proofs.Run.Weights
import Mathlib.Algebra.Order.Group.Multiset
import Mathlib.Order.Interval.Finset.Nat
import Mathlib.Order.Interval.Multiset

/-!
# The ground that walks have before them

In an orderly graph the walks of a run hold the nodes that they may still visit, each node at most
once: a walk holds the range in front of its stack, and at a parallel block it gives each branch the
range that begins with its child. To visit a node is to give it away (`walkMain_ground`). Where as
many visits are admitted as there are nodes, none is refused.
-/

namespace DurableWorkflow

variable {C H X ω : Type}

/-- The engine could not visit a node, because of the limit or because there is no such node. -/
def Failure.IsLoss (f : Failure) : Prop := ∃ node message, f = .ofEngine "engine" node message

def Visited.Lost (v : Visited) : Prop := ∃ f, v.turn = .failed f ∧ f.IsLoss

theorem Failure.not_isLoss {f : Failure} (h : f.attempts ≠ 0 ∨ f.step ≠ some "engine") :
    ¬f.IsLoss := by
  rintro ⟨node, message, rfl⟩
  simp [ofEngine] at h

theorem Visited.OfStep.not_lost {node : NodeId} {t : StepTrace} {v : Visited} (h : v.OfStep node t) :
    ¬v.Lost := by
  rintro ⟨f, hf, hloss⟩
  refine Failure.not_isLoss (.inl ?_) hloss
  have := h.attempts
  have := h.failed f hf
  omega

theorem Visited.onward_not_lost (nodes : List NodeId) : ¬(Visited.onward nodes).Lost := by
  rintro ⟨f, hf, -⟩
  simp [Visited.onward] at hf

namespace Environment

/-- The next thing that this part of a walk does is to visit the node. -/
inductive Faces (env : Environment C H X ω) (g : Graph C H) (node : NodeId) :
    Walk (Board C H X × ω) Report → Prop
  | main (fuel : Nat) (ahead : List NodeId) :
    Faces env g node (env.walkMain g (fuel + 1) (node :: ahead))
  | branch (fuel : Nat) (ahead : List NodeId) (trace : List StepTrace) :
    Faces env g node (env.walkBranch g (fuel + 1) (node :: ahead) trace)

/-- The walks hold nodes, and to visit one of them is to give it away. -/
def ground (env : Environment C H X ω) (g : Graph C H) :
    Shares (Board C H X × ω) Report (Multiset Nat) where
  sound s a := g.size ≤ env.options.maxNodeVisits →
    s.1.visits + a.card ≤ env.options.maxNodeVisits
  still s t := t.1.visits = s.1.visits
  deal part x y := y.1.1.visits = x.1.1.visits ∧ y.2 ≤ x.2 ∨
    y.1.1.visits = x.1.1.visits + 1 ∧ ∃ node, env.Faces g node part ∧ node ::ₘ y.2 ≤ x.2
  report r _ := g.size ≤ env.options.maxNodeVisits → ∀ f, r.halt = .failed f → ¬f.IsLoss
  void r := r.halt = .cancelled
  sound_still h hs hle := by
    rw [h]
    exact hs hle
  report_void _ h _ f hf := by simp [h] at hf

variable {env : Environment C H X ω} {g : Graph C H} {a : Multiset Nat}

theorem ground_adds {f : Board C H X × ω → Board C H X × ω}
    (h : ∀ s, (f s).1.visits = s.1.visits) : (env.ground g).Adds f 0 := by
  intro part s a hs
  rw [add_zero]
  exact ⟨(env.ground g).sound_still (h s) hs, .inl ⟨h s, le_refl a⟩⟩

/-- Nothing at a step has to do with the nodes. -/
theorem ground_weighs (env : Environment C H X ω) (g : Graph C H) :
    env.Weighs (env.ground g) Weights.nothing where
  stopped := rfl
  look := ground_adds fun _ => rfl
  memory _ _ _ _ := rfl
  success _ _ := ground_adds fun _ => rfl
  failure := ground_adds fun _ => rfl
  retry := ground_adds fun _ => rfl
  peak _ := ground_adds fun _ => rfl
  announce what _ := by
    rw [Weights.nothing_heard]
    exact ground_adds fun _ => rfl

/-! ### Nodes -/

variable {branch : NodeId → Walk (Board C H X × ω) Report} {x lo mid hi : Nat} {n : Node C H}

/-- The range of the nodes from `lo` on and before `hi`. -/
abbrev range (lo hi : Nat) : Multiset Nat := Multiset.Ico lo hi

theorem range_add (h : lo ≤ mid) (h' : mid ≤ hi) : range lo hi = range lo mid + range mid hi :=
  (Multiset.Ico_add_Ico_eq_Ico h h').symm

theorem cons_range_le (hx : lo ≤ x) (hhi : x < hi) : x ::ₘ range (x + 1) hi ≤ range lo hi := by
  have hone : range x (x + 1) = {x} := by
    simp [range, Multiset.Ico]
  rw [← Multiset.singleton_add, ← hone, ← range_add (Nat.le_succ x) hhi, range_add hx hhi.le]
  exact Multiset.le_add_left _ _

/-- The branches of a block share the range that they lie in, and leave some of it. -/
theorem allHold_of_apart {cs : List Nat} (h : g.Apart cs lo hi)
    (hbranch : ∀ c mid : Nat, lo ≤ c → mid ≤ hi → g.Apart [c] c mid →
      (branch c).Holds (env.ground g) (env.ground g).report (range c mid)) :
    ∃ a b, range lo hi = a + b ∧ allHold (env.ground g) (cs.map branch) a := by
  induction cs generalizing lo with
  | nil => exact ⟨0, range lo hi, (zero_add _).symm, rfl⟩
  | cons c cs ih =>
    obtain ⟨mid, hlo, hmid, hinside, hrest⟩ := h
    have hle := hrest.le
    obtain ⟨a, b, hab, hall⟩ := ih hrest fun d m hd => hbranch d m (by omega)
    refine ⟨range c mid + a, range lo c + b, ?_, range c mid, a, rfl, ?_, hall⟩
    · rw [range_add hlo (by omega : c ≤ hi), range_add hmid.le hle, hab]
      abel
    · exact hbranch c mid hlo hle ⟨mid, le_refl c, hmid, hinside, le_refl mid⟩

theorem exists_of_join_failed {reports : List Report} {next : Option NodeId} {f : Failure}
    (h : (join reports next).turn = .failed f) : ∃ r ∈ reports, r.halt = .failed f := by
  simp only [join] at h
  split at h
  · next hsome =>
    cases h
    obtain ⟨r, hr, hfailure⟩ := List.exists_of_findSome?_eq_some hsome
    refine ⟨r, hr, ?_⟩
    unfold Report.failure? at hfailure
    split at hfailure
    · next heq => rw [heq, Option.some.inj hfailure]
    · simp at hfailure
  · simp at h

/-- What comes of a visit where the node has been found, with `a` and perhaps more left to hold. -/
def Leaves (env : Environment C H X ω) (g : Graph C H) (a : Multiset Nat) (v : Visited)
    (b : Multiset Nat) : Prop :=
  (g.size ≤ env.options.maxNodeVisits → ¬v.Lost) ∧ ∃ c, b = c + a

theorem runParallel_ground {children : List NodeId} {b : Multiset Nat}
    (h : allHold (env.ground g) (children.map branch) b) (next : Option NodeId) :
    (env.runParallel branch children next).Holds (env.ground g) (b + a) (env.Leaves g a) := by
  refine runParallel_holds (ground_weighs env g).toNeutral h fun reports d hreports _ =>
    ⟨fun hle hlost => ?_, d, rfl⟩
  obtain ⟨f, hf, hloss⟩ := hlost
  obtain ⟨r, hr, hhalt⟩ := exists_of_join_failed hf
  obtain ⟨_, hreport⟩ := hreports.all r hr
  exact hreport hle f hhalt hloss

theorem enter_ground (x : NodeId) {b : Multiset Nat}
    (hchildren : ∀ children, n.kind = .parallel children →
      ∃ c d, b = c + d ∧ allHold (env.ground g) (children.map branch) c) :
    (env.enter branch x n).Holds (env.ground g) (b + a) (env.Leaves g a) := by
  refine enter_holds (ground_weighs env g).toNeutral
    (fun nodes => ⟨fun _ => Visited.onward_not_lost nodes, b, rfl⟩) (fun m => ⟨fun _ => ?_, b, rfl⟩)
    (fun s => ?_) fun children hkind => ?_
  · rintro ⟨f, hf, hloss⟩
    cases hf
    exact Failure.not_isLoss (.inr (by simp [Failure.ofEngine])) hloss
  · refine (runStep_holds (ground_weighs env g) x s n.next).mono ?_
    rintro v c ⟨t, hv, rfl⟩
    rw [Weights.nothing_ofEntry, add_zero]
    exact ⟨fun _ => hv.not_lost, b, rfl⟩
  · obtain ⟨c, d, rfl, hall⟩ := hchildren children hkind
    rw [add_assoc]
    refine (runParallel_ground hall n.next).mono ?_
    rintro v - ⟨hlost, k, rfl⟩
    exact ⟨hlost, k + d, (add_assoc k d a).symm⟩

/-- A visit is counted, unless the run is cancelled, and refused only beyond the limit. -/
theorem countVisit_cases (env : Environment C H X ω) (s : Board C H X × ω) :
    env.countVisit s = (.cancelled, s) ∨ ∃ admission, admission ≠ .cancelled ∧
      (admission = .admitted ↔ s.1.visits + 1 ≤ env.options.maxNodeVisits) ∧
      env.countVisit s = (admission, { s.1 with visits := s.1.visits + 1 }, s.2) := by
  obtain ⟨b, w⟩ := s
  by_cases hcancelled : env.cancelled w = true
  · exact .inl (if_pos hcancelled)
  · refine .inr ⟨if b.visits + 1 > env.options.maxNodeVisits then .refused else .admitted, ?_, ?_,
      if_neg hcancelled⟩
    · split <;> simp
    · simp

/-! ### Stacks -/

variable {steady : Bool} {heads nodes l : List Nat} {next : Option NodeId} {first : Nat}

theorem spare_ground {w : Walk (Board C H X × ω) Report}
    (h : w.Holds (env.ground g) (env.ground g).report a) (c : Multiset Nat) :
    w.Holds (env.ground g) (env.ground g).report (c + a) := by
  rw [add_comm]
  exact Walk.Holds.spare (fun _ _ hr => hr) w h

/-- A visit that is counted is paid for with its node, and it is admitted where enough visits are. -/
theorem countVisit_ground {s : Board C H X × ω} {others : Multiset Nat} (hx : first ≤ x)
    (hhi : x < hi) (hs : (env.ground g).sound s (range first hi + others)) :
    env.countVisit s = (.cancelled, s) ∨ ∃ admission, admission ≠ .cancelled ∧
      (g.size ≤ env.options.maxNodeVisits → admission = .admitted) ∧
      env.countVisit s = (admission, { s.1 with visits := s.1.visits + 1 }, s.2) ∧
      (env.ground g).sound ({ s.1 with visits := s.1.visits + 1 }, s.2)
        (range (x + 1) hi + others) := by
  have hspent : g.size ≤ env.options.maxNodeVisits →
      s.1.visits + 1 + (range (x + 1) hi + others).card ≤ env.options.maxNodeVisits := by
    intro hle
    have hcard := Multiset.card_le_card (add_le_add_left (cons_range_le hx hhi) others)
    have hheld := hs hle
    rw [Multiset.cons_add, Multiset.card_cons] at hcard
    omega
  obtain hcount | ⟨admission, hnot, hadmitted, hcount⟩ := env.countVisit_cases s
  · exact .inl hcount
  · refine .inr ⟨admission, hnot, fun hle => hadmitted.2 ?_, hcount, hspent⟩
    have := hspent hle
    omega

/-- The first node of a stack is given away, and what lies in front of the stack that is then left
is held on. -/
theorem visit_ground (htract : g.Tract steady heads 0 g.size next)
    (hstack : g.Apart (x :: l) first hi) (hhi : hi ≤ g.size)
    (hbranch : ∀ c mid : Nat, x < c → mid ≤ hi → g.Apart [c] c mid →
      (branch c).Holds (env.ground g) (env.ground g).report (range c mid))
    {k : Visited → Walk (Board C H X × ω) Report} (hfaces : env.Faces g x (env.visit g branch x k))
    (hk : ∀ e v, x < e → (g.size ≤ env.options.maxNodeVisits → ¬v.Lost) →
      (∀ nodes, v.turn = .onward nodes → g.Apart (nodes ++ l) e hi) →
      (k v).Holds (env.ground g) (env.ground g).report (range e hi)) :
    (env.visit g branch x k).Holds (env.ground g) (env.ground g).report (range first hi) := by
  have hx := hstack.mem (List.mem_cons_self ..)
  obtain ⟨n, hn⟩ : ∃ n, g.get? x = some n := Graph.exists_of_lt (by omega)
  obtain ⟨e, hxe, he, hchildren, honward⟩ := htract.onward hstack hn
  have hgo (v : Visited) (b : Multiset Nat) (hv : env.Leaves g (range e hi) v b)
      (hfits : v.Fits g x) : (k v).Holds (env.ground g) (env.ground g).report b := by
    obtain ⟨hlost, c, rfl⟩ := hv
    refine spare_ground (hk e v hxe hlost fun nodes hnodes => ?_) c
    obtain ⟨n', hn', hnodes⟩ := hfits.onward nodes hnodes
    rw [hn] at hn'
    cases hn'
    exact honward nodes hnodes
  have henter : (env.enter branch x n).Holds (env.ground g) (range (x + 1) e + range e hi)
      (env.Leaves g (range e hi)) :=
    enter_ground x fun children hkind => allHold_of_apart (hchildren children hkind)
      fun c mid hc hmid => hbranch c mid hc (by omega)
  intro s others hs
  have hmore : x ::ₘ (range (x + 1) hi + others) ≤ range first hi + others := by
    rw [← Multiset.cons_add]
    exact add_le_add_left (cons_range_le hx.1 hx.2) others
  show ∃ b, (env.ground g).sound (env.countVisit s).2 (b + others) ∧
    (env.ground g).deal (env.visit g branch x k) (s, range first hi + others)
      ((env.countVisit s).2, b + others) ∧
    Walk.Holds _ _ _ b
  beta_reduce
  obtain hcount | ⟨admission, hnot, hadmitted, hcount, hsound⟩ := countVisit_ground hx.1 hx.2 hs
  · rw [hcount]
    exact ⟨range first hi, hs, .inl ⟨rfl, le_refl _⟩, fun _ f hf => by simp at hf⟩
  · rw [hcount]
    refine ⟨range (x + 1) hi, hsound, .inr ⟨rfl, x, hfaces, hmore⟩, ?_⟩
    rw [range_add hxe he]
    cases admission with
    | cancelled => exact absurd rfl hnot
    | refused =>
      refine hgo _ _ ⟨fun hle => ?_, _, rfl⟩ (engineFailure_fits _ _)
      cases hadmitted hle
    | admitted =>
      simp only [hn]
      refine (henter.hands (enter_hands hn) (ground_weighs env g).stopped) _ k ?_ ?_
      · exact fun r b hr => (env.ground g).report_void b hr
      · exact fun v b hv => hgo v b hv.1 hv.2

/-- The fuel of a walk is for the visits that are admitted: where these suffice for the graph, so
does the fuel. -/
theorem walkBranch_ground (htract : g.Tract steady heads 0 g.size next)
    (hstack : g.Apart nodes first hi) (hhi : hi ≤ g.size) {fuel : Nat}
    (hfuel : g.size ≤ env.options.maxNodeVisits → hi < first + fuel) (trace : List StepTrace) :
    (env.walkBranch g fuel nodes trace).Holds (env.ground g) (env.ground g).report
      (range first hi) := by
  -- The stack begins behind every node that has been passed, so it is empty before the fuel is.
  induction fuel generalizing nodes first hi trace with
  | zero =>
    have hle := hstack.le
    cases nodes with
    | nil => exact fun _ f hf => by simp at hf
    | cons x l =>
      intro hvisits
      have := hfuel hvisits
      omega
  | succ fuel ih =>
    cases nodes with
    | nil => exact fun _ f hf => by simp at hf
    | cons x l =>
      have hx := (hstack.mem (List.mem_cons_self ..)).1
      refine visit_ground htract hstack hhi (fun c mid hc hmid hcstack =>
        ih hcstack (by omega) (fun hle => by have := hfuel hle; omega) []) (.branch fuel l trace)
        fun e v hxe hv honward => ?_
      simp only
      cases hturn : v.turn with
      | onward nodes =>
        exact ih (honward nodes hturn) hhi (fun hle => by have := hfuel hle; omega) _
      | failed f =>
        rintro hle f' hf' hloss
        cases hf'
        exact hv hle ⟨f, hturn, hloss⟩
      | suspended signal limit =>
        rintro - f hf hloss
        cases hf
        exact Failure.not_isLoss (.inl (by simp [Graph.strandedFailure])) hloss

theorem pass_ground {ahead : List NodeId} {v : Visited}
    {k : List NodeId → Walk (Board C H X × ω) Report}
    (hv : g.size ≤ env.options.maxNodeVisits → ¬v.Lost)
    (hk : ∀ nodes, v.turn = .onward nodes →
      (k (nodes ++ ahead)).Holds (env.ground g) (env.ground g).report a) :
    (env.pass x ahead v k).Holds (env.ground g) (env.ground g).report a := by
  intro s others hs
  refine ⟨a, hs, .inl ⟨rfl, le_refl _⟩, ?_⟩
  cases hturn : v.turn with
  | onward nodes =>
    intro s others hs
    simp only
    cases env.save ⟨s.1.context, (nodes ++ ahead).reverse, v.trace⟩ (s.1.extra, s.2) with
    | ok => exact ⟨a, hs, .inl ⟨rfl, le_refl _⟩, hk nodes hturn⟩
    | error => exact ⟨a, hs, .inl ⟨rfl, le_refl _⟩, fun _ f hf => by simp at hf⟩
  | failed f =>
    rintro hle f' hf' hloss
    cases hf'
    exact hv hle ⟨f, hturn, hloss⟩
  | suspended signal limit =>
    intro s others hs
    exact ⟨a, hs, .inl ⟨rfl, le_refl _⟩, fun _ f hf => by simp at hf⟩

theorem walkMain_ground (htract : g.Tract steady heads 0 g.size next)
    (hstack : g.Apart nodes first g.size) {fuel : Nat}
    (hfuel : g.size ≤ env.options.maxNodeVisits → g.size < first + fuel) :
    (env.walkMain g fuel nodes).Holds (env.ground g) (env.ground g).report
      (range first g.size) := by
  induction fuel generalizing nodes first with
  | zero =>
    have hle := hstack.le
    cases nodes with
    | nil => exact fun _ f hf => by simp at hf
    | cons x l =>
      intro hvisits
      have := hfuel hvisits
      omega
  | succ fuel ih =>
    cases nodes with
    | nil => exact fun _ f hf => by simp at hf
    | cons x l =>
      have hx := (hstack.mem (List.mem_cons_self ..)).1
      refine visit_ground htract hstack (le_refl _) (fun c mid hc hmid hcstack =>
        walkBranch_ground htract hcstack hmid (fun hle => by have := hfuel hle; omega) [])
        (.main fuel l) fun e v hxe hv honward => pass_ground hv fun nodes hnodes => ?_
      exact ih (honward nodes hnodes) fun hle => by have := hfuel hle; omega

/-- From the root a run has the whole graph before it. -/
theorem traverse_ground {d : Definition C H} (horderly : d.Orderly) :
    (env.traverse d .root).Holds (env.ground d.graph) (env.ground d.graph).report
      (range 0 d.graph.size) := by
  refine walkMain_ground horderly ?_ fun hle => by omega
  have hroot := (Graph.Tract.within horderly) d.root (List.mem_singleton_self _)
  exact ⟨d.graph.size, Nat.zero_le _, hroot.2, horderly.inside.mono (Nat.zero_le _), le_refl _⟩

end Environment

end DurableWorkflow
