import DurableWorkflow.Proofs.Run.Compensation
import DurableWorkflow.Proofs.Run.Passage
import DurableWorkflow.Proofs.Walk.Way

/-!
# Parallel nodes join

An account of a walk tells which nodes it has visited, one after the other, and what came of each. Of
a parallel node it tells that all branches came to their ends, in some order, whatever the others did,
and has an account of each of them. Every run that has come to a result, and was not late, has an
account (`run_joins`): the entries of a branch stand in the order in which it has visited its nodes,
those of a parallel node in the order in which its branches have ended; and if one of these has failed,
the node fails with the first of the failures, and what it is part of ends there.
-/

namespace DurableWorkflow

variable {C H X ω : Type}

/-- What comes of a parallel node whose branches have ended like this, in this order. -/
structure Joined (next : Option NodeId) (ends : List (NodeId × Report)) (v : Visited) : Prop where
  trace : v.trace = ends.flatMap (·.2.trace)
  succeeds : (∃ nodes, v.turn = .onward nodes) ↔ ∀ e ∈ ends, e.2.halt = .drained
  successor : ∀ nodes, v.turn = .onward nodes → nodes = next.toList
  /-- It fails as the first branch that has failed. -/
  fails : ∀ f, v.turn = .failed f ↔ ∃ before e after, ends = before ++ e :: after ∧
    (∀ b ∈ before, b.2.halt = .drained) ∧ e.2.halt = .failed f
  /-- It never waits, even if a branch would. -/
  waits : ∀ signal limit, v.turn ≠ .suspended signal limit

namespace Environment

variable (env : Environment C H X ω) (g : Graph C H)

mutual

/-- A visit of the node, begun at `x`, has handed on `v` at `y`. -/
inductive Visits : (Board C H X × ω → Board C H X × ω → Prop) → Nat → NodeId → Board C H X × ω →
    Visited → Board C H X × ω → Prop
  /-- It was one visit too many. -/
  | refused {drift : Board C H X × ω → Board C H X × ω → Prop} {fuel : Nat} {node : NodeId}
      {x s : Board C H X × ω} (hx : Relation.ReflTransGen drift x s)
      (h : (env.countVisit s).1 = .refused) :
    Visits drift fuel node x (.engineFailure "engine" node env.limitMessage) (env.countVisit s).2
  /-- Each branch of a parallel node has come to an end of its own. -/
  | parallel {drift : Board C H X × ω → Board C H X × ω → Prop} {fuel : Nat} {node : NodeId}
      {n : Node C H} {children : List NodeId} {ends : List (NodeId × Report)} {v : Visited}
      {x s y : Board C H X × ω} (hn : g.get? node = some n) (hkind : n.kind = .parallel children)
      (hx : Relation.ReflTransGen drift x s) (h : (env.countVisit s).1 = .admitted)
      (hfinishes : Walk.Finishes drift
        (children.map fun child => (child, env.walkBranch g fuel [child] []), (env.countVisit s).2)
        (ends, y))
      (hends : (ends.map Prod.fst).Perm children) (hown : ∀ e ∈ ends, Treads fuel [e.1] e.2)
      (hjoined : Joined n.next ends v) : Visits drift fuel node x v y
  | other {drift : Board C H X × ω → Board C H X × ω → Prop} {fuel : Nat} {node : NodeId}
      {v : Visited} {x y : Board C H X × ω}
      (hkind : ∀ n children, g.get? node = some n → n.kind ≠ .parallel children)
      (h : ∀ k : Visited → Walk (Board C H X × ω) Report, Moves drift Walk.Step
        (env.visit g (fun child => env.walkBranch g fuel [child] []) node k, x) (k v, y)) :
    Visits drift fuel node x v y

/-- A branch with these nodes ahead has visited one after the other, and this is its report. Others
may do whatever they want while it is under way. -/
inductive Treads : Nat → List NodeId → Report → Prop
  | drained {fuel : Nat} : Treads fuel [] ⟨[], .drained⟩
  | exhausted {node : NodeId} {ahead : List NodeId} :
    Treads 0 (node :: ahead) ⟨[], .failed (.ofEngine "engine" node env.limitMessage)⟩
  | onward {fuel : Nat} {node : NodeId} {ahead next : List NodeId} {v : Visited} {r : Report}
      {x y : Board C H X × ω} (h : Visits (fun _ _ => True) fuel node x v y)
      (hturn : v.turn = .onward next) (hrest : Treads fuel (next ++ ahead) r) :
    Treads (fuel + 1) (node :: ahead) ⟨v.trace ++ r.trace, r.halt⟩
  | failed {fuel : Nat} {node : NodeId} {ahead : List NodeId} {v : Visited} {f : Failure}
      {x y : Board C H X × ω} (h : Visits (fun _ _ => True) fuel node x v y)
      (hturn : v.turn = .failed f) : Treads (fuel + 1) (node :: ahead) ⟨v.trace, .failed f⟩
  | suspended {fuel : Nat} {node : NodeId} {ahead : List NodeId} {v : Visited} {signal : String}
      {limit : Option Nanos} {x y : Board C H X × ω} (h : Visits (fun _ _ => True) fuel node x v y)
      (hturn : v.turn = .suspended signal limit) :
    Treads (fuel + 1) (node :: ahead) ⟨v.trace, .failed (g.strandedFailure node signal)⟩

end

variable (drift : Board C H X × ω → Board C H X × ω → Prop)

mutual

/-- The main walk with these nodes ahead has visited one after the other, beginning at `x`; this is
how it ended, with the entries that it has made. -/
inductive Travels : Nat → List NodeId → Board C H X × ω → Report → Prop
  | drained {fuel : Nat} {x : Board C H X × ω} : Travels fuel [] x ⟨[], .drained⟩
  | exhausted {node : NodeId} {ahead : List NodeId} {x : Board C H X × ω} :
    Travels 0 (node :: ahead) x ⟨[], .failed (.ofEngine "engine" node env.limitMessage)⟩
  | visit {fuel : Nat} {node : NodeId} {ahead : List NodeId} {v : Visited} {r : Report}
      {x y : Board C H X × ω} (h : Visits env g drift fuel node x v y)
      (hrest : Continues fuel node ahead v y r) :
    Travels (fuel + 1) (node :: ahead) x ⟨v.trace ++ r.trace, r.halt⟩

/-- What follows once `v` came of the node: the walk has gone on with the nodes that are next, and
then with those ahead, or it has ended there. -/
inductive Continues : Nat → NodeId → List NodeId → Visited → Board C H X × ω → Report → Prop
  | onward {fuel : Nat} {node : NodeId} {ahead next : List NodeId} {v : Visited} {r : Report}
      {y z : Board C H X × ω} (hturn : v.turn = .onward next)
      (hpass : Moves drift Walk.Step (env.pass node ahead v (env.walkMain g fuel), y)
        (env.walkMain g fuel (next ++ ahead), z))
      (hrest : Travels fuel (next ++ ahead) z r) : Continues fuel node ahead v y r
  | failed {fuel : Nat} {node : NodeId} {ahead : List NodeId} {v : Visited} {f : Failure}
      {y : Board C H X × ω} (hturn : v.turn = .failed f) :
    Continues fuel node ahead v y ⟨[], .failed f⟩
  | suspended {fuel : Nat} {node : NodeId} {ahead : List NodeId} {v : Visited} {signal : String}
      {limit : Option Nanos} {y : Board C H X × ω} (hturn : v.turn = .suspended signal limit) :
    Continues fuel node ahead v y ⟨[], .suspended ⟨signal, limit, node, ahead.reverse⟩⟩

end

/-- An account of the walk of a definition from a start point. -/
def Accounts (d : Definition C H) (start : StartPoint) (x : Board C H X × ω) (r : Report) : Prop :=
  let fuel := env.options.maxNodeVisits + 1
  match start with
  | .root => env.Travels d.graph drift fuel [d.root] x r
  | .frontier nodes => env.Travels d.graph drift fuel nodes.reverse x r
  | .signal node pending signal => ∃ v y trace,
    (∀ k : Visited → Walk (Board C H X × ω) Report, Moves drift Walk.Step
      (env.deliver d.graph node signal k, x) (k v, y)) ∧
    env.Continues d.graph drift fuel node pending.reverse v y ⟨trace, r.halt⟩ ∧
    r.trace = v.trace ++ trace

variable {env g drift}

/-! ### Joining -/

/-- What comes of a parallel node if its branches have come to these ends. -/
theorem joined_join {next : Option NodeId} {ends : List (NodeId × Report)}
    (hends : ∀ e ∈ ends, e.2.halt = .drained ∨ ∃ f, e.2.halt = .failed f) :
    Joined next ends (join (ends.map Prod.snd) next) := by
  have hnone (e : NodeId × Report) (he : e ∈ ends) : e.2.failure? = none ↔ e.2.halt = .drained := by
    obtain h | ⟨f, h⟩ := hends e he <;> simp [Report.failure?, h]
  have hsome (r : Report) (f : Failure) : r.failure? = some f ↔ r.halt = .failed f := by
    unfold Report.failure?
    cases r.halt <;> simp
  obtain ⟨first, hfirst⟩ : ∃ first, (ends.findSome? fun e => e.2.failure?) = first := ⟨_, rfl⟩
  have hturn : (join (ends.map Prod.snd) next).turn = first.elim (.onward next.toList) .failed := by
    rw [← hfirst, join, List.findSome?_map]
    show _ = (ends.findSome? (Report.failure? ∘ Prod.snd)).elim _ _
    cases ends.findSome? (Report.failure? ∘ Prod.snd) <;> rfl
  refine ⟨List.flatMap_map .., ?_, ?_, fun f => ?_, ?_⟩
  · calc (∃ nodes, (join (ends.map Prod.snd) next).turn = .onward nodes)
        ↔ first = none := by rw [hturn]; cases first <;> simp
      _ ↔ ∀ e ∈ ends, e.2.halt = .drained := by
        rw [← hfirst, List.findSome?_eq_none_iff]
        exact forall₂_congr hnone
  · intro nodes hnodes
    rw [hturn] at hnodes
    cases first with
    | none => exact (Turn.onward.inj hnodes).symm
    | some f => cases hnodes
  · calc (join (ends.map Prod.snd) next).turn = .failed f
        ↔ first = some f := by rw [hturn]; cases first <;> simp
      _ ↔ _ := by
        rw [← hfirst, List.findSome?_eq_some_iff]
        constructor
        · rintro ⟨before, e, after, rfl, hf, hbefore⟩
          exact ⟨before, e, after, rfl, fun b hb => (hnone b (by simp [hb])).1 (hbefore b hb),
            (hsome e.2 f).1 hf⟩
        · rintro ⟨before, e, after, rfl, hbefore, hf⟩
          exact ⟨before, e, after, rfl, (hsome e.2 f).2 hf,
            fun b hb => (hnone b (by simp [hb])).2 (hbefore b hb)⟩
  · intro signal limit hsuspended
    rw [hturn] at hsuspended
    cases first <;> cases hsuspended

/-! ### Visits -/

variable {ι : Type} {see : Board C H X × ω → Board C H X × ω → List (Sight ι)}
  {I : Board C H X × ω → Board C H X × ω → Prop} {fuel : Nat} {node : NodeId} {nodes ahead : List NodeId}
  {trace : List StepTrace} {x y z t : Board C H X × ω} {l : List (Sight ι)} {r : Report}
  {k : Visited → Walk (Board C H X × ω) Report} {v : Visited}

/-- Unless it was cancelled, a branch that began with these nodes ahead and these entries behind it has
an account. -/
def Trodden (env : Environment C H X ω) (g : Graph C H) (fuel : Nat) (nodes : List NodeId)
    (trace : List StepTrace) (r : Report) : Prop :=
  ¬r.Stopped → (r.halt = .drained ∨ ∃ f, r.halt = .failed f) ∧
    ∃ own, r.trace = trace ++ own ∧ env.Treads g fuel nodes ⟨own, r.halt⟩

/-- The branches of a parallel node finish, and none of them was cancelled. -/
theorem runParallel_finishes {branch : NodeId → Walk (Board C H X × ω) Report}
    {children : List NodeId} {next : Option NodeId}
    (h : Walk.Way drift see (env.runParallel branch children next k, x) l (.done r, t))
    (hcalm : ¬r.Stopped) :
    ∃ ends y l', Walk.Finishes drift (children.map fun child => (child, branch child), x) (ends, y) ∧
      (∀ e ∈ ends, ¬e.2.Stopped) ∧
      Walk.Way drift see (k (join (ends.map Prod.snd) next), y) l' (.done r, t) := by
  obtain ⟨ends, y, l₁, l₂, -, hfinishes, -, hjoin⟩ :=
    h.of_fork (children.map fun child => (child, branch child)) (by simp [Function.comp_def])
  obtain ⟨z, l', hdrifts, -, hrest⟩ := hjoin.of_act
  simp only at hrest
  split at hrest
  · obtain ⟨rfl, -, -⟩ := hrest.of_done
    exact absurd rfl hcalm
  · next hnone =>
    rw [Bool.or_eq_true, not_or, List.any_eq_true] at hnone
    exact ⟨ends, z, l', hfinishes.tail hdrifts,
      fun e he hstopped => hnone.2 ⟨e.2, List.mem_map_of_mem he, hstopped⟩, hrest⟩

/-- On its way to a report that is not the one of a cancelled walk, a walk that begins with a visit
goes on with what the visit hands on. -/
theorem visit_visits (hI : Spans drift I) (hvisit : env.InVisit g I)
    (hbranch : ∀ {child x r y}, Moves (fun _ _ => True) Walk.Step
      (env.walkBranch g fuel [child] [], x) (.done r, y) → env.Trodden g fuel [child] [] r)
    (h : Walk.Way drift see (env.visit g (fun child => env.walkBranch g fuel [child] []) node k, x) l
      (.done r, t)) (hcalm : ¬r.Stopped) :
    ∃ v y l', I x y ∧ env.Visits g drift fuel node x v y ∧ Walk.Way drift see (k v, y) l' (.done r, t) := by
  by_cases hkind : ∃ n children, g.get? node = some n ∧ n.kind = .parallel children
  · obtain ⟨n, children, hn, hkind⟩ := hkind
    obtain ⟨s, l', hx, -, hrest⟩ := h.of_act
    have hcounted : I x (env.countVisit s).2 := by
      refine hI.trans (hI.drifts hx) ?_
      simp only [countVisit]
      split <;> exact hvisit.board s.1 _ s.2 ⟨rfl, rfl, rfl, rfl⟩
    cases hadmission : (env.countVisit s).1 with
    | cancelled =>
      simp only [hadmission] at hrest
      obtain ⟨rfl, -, -⟩ := hrest.of_done
      exact absurd rfl hcalm
    | refused =>
      simp only [hadmission] at hrest
      exact ⟨_, _, _, hcounted, .refused hx hadmission, hrest⟩
    | admitted =>
      simp only [hadmission, hn, enter, hkind] at hrest
      obtain ⟨ends, y, l'', hfinishes, hnone, hmore⟩ := runParallel_finishes hrest hcalm
      have hkeeps : ∀ w ∈ children.map fun child => (child, env.walkBranch g fuel [child] []),
          w.2.Keeps I := by
        simpa using fun child _ => walkBranch_keeps hvisit fuel [child] []
      have hends : (ends.map Prod.fst).Perm children := by
        simpa [Function.comp_def] using hfinishes.perm
      have hown (e : NodeId × Report) (he : e ∈ ends) :
          (e.2.halt = .drained ∨ ∃ f, e.2.halt = .failed f) ∧ env.Treads g fuel [e.1] e.2 := by
        obtain ⟨w, u, hw, hmoves⟩ := hfinishes.own e he
        obtain ⟨child, -, hsame⟩ := List.mem_map.1 hw
        obtain ⟨rfl, rfl⟩ := Prod.mk.inj hsame
        obtain ⟨hhalt, own, hown, htreads⟩ := hbranch hmoves (hnone e he)
        rw [List.nil_append] at hown
        subst hown
        exact ⟨hhalt, htreads⟩
      exact ⟨_, y, l'', hI.trans hcounted (hfinishes.keeps hI hkeeps),
        .parallel hn hkind hx hadmission hfinishes hends (fun e he => (hown e he).2)
          (joined_join fun e he => (hown e he).1), hmore⟩
  · obtain hstopped | ⟨v, y, l₁, l₂, -, hxy, hpasses, hrest⟩ :=
      (visit_keeps hvisit (fun child => walkBranch_keeps hvisit fuel [child] []) node).passes hI h
    · exact absurd hstopped hcalm
    · refine ⟨v, y, l₂, hxy, .other (fun n children hn hparallel => ?_) fun k => (hpasses k).moves, hrest⟩
      exact hkind ⟨n, children, hn, hparallel⟩

/-! ### Branches -/

theorem walkBranch_trodden
    (h : Moves (fun _ _ => True) Walk.Step (env.walkBranch g fuel nodes trace, x) (.done r, y)) :
    env.Trodden g fuel nodes trace r := by
  have hall : Spans (fun _ _ : Board C H X × ω => True) fun _ _ => True :=
    ⟨fun _ => trivial, fun _ _ => trivial, fun _ => trivial⟩
  have hvisit : env.InVisit g fun _ _ => True :=
    ⟨⟨fun _ _ _ _ => trivial, fun _ _ _ _ _ => trivial, fun _ _ _ _ => trivial⟩,
      fun _ _ _ _ => trivial⟩
  induction fuel generalizing nodes trace x y r with
  | zero =>
    intro hcalm
    obtain ⟨l, h⟩ := h.exists_way fun _ _ => ([] : List (Sight Unit))
    cases nodes with
    | nil =>
      obtain ⟨rfl, -, -⟩ := h.of_done
      exact ⟨.inl rfl, [], (List.append_nil _).symm, .drained⟩
    | cons node ahead =>
      obtain ⟨rfl, -, -⟩ := h.of_done
      exact ⟨.inr ⟨_, rfl⟩, [], (List.append_nil _).symm, .exhausted⟩
  | succ fuel ih =>
    intro hcalm
    obtain ⟨l, h⟩ := h.exists_way fun _ _ => ([] : List (Sight Unit))
    cases nodes with
    | nil =>
      obtain ⟨rfl, -, -⟩ := h.of_done
      exact ⟨.inl rfl, [], (List.append_nil _).symm, .drained⟩
    | cons node ahead =>
      rw [walkBranch] at h
      obtain ⟨v, y', l', -, hvisits, hrest⟩ := visit_visits hall hvisit ih h hcalm
      simp only at hrest
      split at hrest
      · next next hturn =>
        obtain ⟨hhalt, own, hown, htreads⟩ := ih hrest.moves hcalm
        exact ⟨hhalt, v.trace ++ own, by rw [hown, List.append_assoc], .onward hvisits hturn htreads⟩
      · next f hturn =>
        obtain ⟨rfl, -, -⟩ := hrest.of_done
        exact ⟨.inr ⟨f, rfl⟩, v.trace, rfl, .failed hvisits hturn⟩
      · next signal limit hturn =>
        obtain ⟨rfl, -, -⟩ := hrest.of_done
        exact ⟨.inr ⟨_, rfl⟩, v.trace, rfl, .suspended hvisits hturn⟩

/-! ### The main walk -/

/-- The entries of the main walk are the same. -/
def SameEntries (s t : Board C H X × ω) : Prop := t.1.ledger.trace = s.1.ledger.trace

theorem inVisit_sameEntries : env.InVisit g SameEntries where
  board _ _ _ h := h.trace
  enter _ _ _ _ _ := rfl
  announce _ _ _ _ := rfl
  memory _ _ _ _ := rfl

/-- After the entry and the checkpoint the walk goes on. -/
theorem pass_moves {next : List NodeId → Walk (Board C H X × ω) Report} {onward : List NodeId}
    (hturn : v.turn = .onward onward) {s u : Board C H X × ω} {saved : X × ω}
    (hy : Relation.ReflTransGen drift y s)
    (hs : Relation.ReflTransGen drift
      ({ s.1 with ledger.trace := s.1.ledger.trace ++ v.trace }, s.2) u)
    (hsave : env.save ⟨u.1.context, (onward ++ ahead).reverse, v.trace⟩ (u.1.extra, u.2) = .ok saved) :
    Moves drift Walk.Step (env.pass node ahead v next, y)
      (next (onward ++ ahead), { u.1 with extra := saved.1 }, saved.2) := by
  have hdrifts {s t : Board C H X × ω} (path : Walk (Board C H X × ω) Report)
      (h : Relation.ReflTransGen drift s t) : Moves drift Walk.Step (path, s) (path, t) :=
    h.lift (Prod.mk path) fun _ _ hst => .inr ⟨rfl, hst⟩
  have hentered := (hdrifts (env.pass node ahead v next) hy).tail (.inl (.act _ _ s))
  simp only [hturn] at hentered
  have hleft := (hentered.trans (hdrifts _ hs)).tail (.inl (.act _ _ u))
  simp only [hsave] at hleft
  exact hleft

/-- On a walk that was not cancelled and has not crashed, what follows a visit is in its account. -/
theorem pass_continues (hI : Spans drift SameEntries)
    (hnext : ∀ {nodes z l}, Walk.Way drift see (env.walkMain g fuel nodes, z) l (.done r, t) →
      ∃ entries, t.1.ledger.trace = z.1.ledger.trace ++ entries ∧
        env.Travels g drift fuel nodes z ⟨entries, r.halt⟩)
    (h : Walk.Way drift see (env.pass node ahead v (env.walkMain g fuel), y) l (.done r, t))
    (hsound : r.crash? = none) :
    ∃ entries, t.1.ledger.trace = y.1.ledger.trace ++ (v.trace ++ entries) ∧
      env.Continues g drift fuel node ahead v y ⟨entries, r.halt⟩ := by
  obtain ⟨s, l', hy, -, hrest⟩ := h.of_act
  have hs : s.1.ledger.trace = y.1.ledger.trace := hI.drifts hy
  simp only at hrest
  cases hturn : v.turn with
  | onward next =>
    simp only [hturn] at hrest
    obtain ⟨u, l', hdrifts, -, hmore⟩ := hrest.of_act
    cases hsave : env.save ⟨u.1.context, (next ++ ahead).reverse, v.trace⟩ (u.1.extra, u.2) with
    | error m =>
      simp only [hsave] at hmore
      obtain ⟨rfl, -, -⟩ := hmore.of_done
      cases hsound
    | ok saved =>
      simp only [hsave] at hmore
      obtain ⟨entries, hentries, htravels⟩ := hnext hmore
      refine ⟨entries, ?_, .onward hturn (pass_moves hturn hy hdrifts hsave) htravels⟩
      have hu : u.1.ledger.trace = s.1.ledger.trace ++ v.trace := hI.drifts hdrifts
      rw [hentries, hu, hs, List.append_assoc]
  | failed f =>
    simp only [hturn] at hrest
    obtain ⟨rfl, -, hdrifts⟩ := hrest.of_done
    refine ⟨[], ?_, .failed hturn⟩
    rw [hI.drifts hdrifts, List.append_nil, ← hs]
  | suspended signal limit =>
    simp only [hturn] at hrest
    obtain ⟨u, l', hdrifts, -, hdone⟩ := hrest.of_act
    obtain ⟨rfl, -, hlast⟩ := hdone.of_done
    refine ⟨[], ?_, .suspended hturn⟩
    rw [hI.drifts hlast, List.append_nil, ← hs]
    exact hI.drifts hdrifts

theorem walkMain_travels (hI : Spans drift SameEntries)
    (h : Walk.Way drift see (env.walkMain g fuel nodes, x) l (.done r, t)) (hcalm : ¬r.Stopped)
    (hsound : r.crash? = none) :
    ∃ entries, t.1.ledger.trace = x.1.ledger.trace ++ entries ∧
      env.Travels g drift fuel nodes x ⟨entries, r.halt⟩ := by
  induction fuel generalizing nodes x l with
  | zero =>
    cases nodes with
    | nil =>
      obtain ⟨rfl, -, hdrifts⟩ := h.of_done
      exact ⟨[], by rw [hI.drifts hdrifts, List.append_nil], .drained⟩
    | cons node ahead =>
      obtain ⟨rfl, -, hdrifts⟩ := h.of_done
      exact ⟨[], by rw [hI.drifts hdrifts, List.append_nil], .exhausted⟩
  | succ fuel ih =>
    cases nodes with
    | nil =>
      obtain ⟨rfl, -, hdrifts⟩ := h.of_done
      exact ⟨[], by rw [hI.drifts hdrifts, List.append_nil], .drained⟩
    | cons node ahead =>
      rw [walkMain] at h
      obtain ⟨v, y, l', hxy, hvisits, hrest⟩ :=
        visit_visits hI inVisit_sameEntries walkBranch_trodden h hcalm
      obtain ⟨entries, hentries, hcontinues⟩ := pass_continues hI ih hrest hsound
      have hxy : y.1.ledger.trace = x.1.ledger.trace := hxy
      exact ⟨v.trace ++ entries, by rw [hentries, hxy], .visit hvisits hcontinues⟩

variable {d : Definition C H} {start : StartPoint}

end Environment

end DurableWorkflow
