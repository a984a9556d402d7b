import DurableWorkflow.Proofs.Commute.Parts
import DurableWorkflow.Proofs.Reading.Compile

/-!
# The order of the branches of a block

Where the branches of a block are independent, it does not matter in which order they take their
turns: the block succeeds or fails, and leaves the same context, the same entries and the same steps
to undo. Only the order of the entries and of the steps to undo may differ, and which failure is the
one that counts. Behind the block flow goes on at its successor, to which no branch comes.

A run may be anything before and after the block: whatever run gets through it has got to a place
where the block hands on (`Environment.exists_handsOn`), and of two such places it is that
`Definition.branches_commute` speaks.
-/

namespace DurableWorkflow

variable {C H M X ω : Type}

/-- What a walk reports that ends behind a block from which flow goes on to `next`. -/
def Visited.close (next : List NodeId) (v : Visited) : Report where
  trace := v.trace
  halt :=
    match v.turn with
    | .onward nodes => if nodes = next then .drained else .cancelled
    | .failed f => .failed f
    | .suspended .. => .cancelled

namespace Environment

variable {env : Environment C H X ω} {pass : Nanos → Nanos → Option Nanos} {a : Aspect C H M}
  {g : Graph C H} {node : NodeId} {n : Node C H} {children : List NodeId} {fuel : Nat}
  {s t t' : Board C H X × ω} {v v' : Visited}

theorem block_shows (henv : env.Remembers) (hn : g.get? node = some n)
    (hkind : n.kind = .parallel children) (h : g.Concurrent a children) :
    env.Shows pass a 0
      (env.visit g (fun child => env.walkBranch g fuel [child] []) node fun v =>
        .done (v.close n.next.toList))
      (.fork (children.map fun child => g.plot pass a env.options.retry fuel [child])
        (.done true)) := by
  refine visit_shows (fun hnone => ?_) fun m hm => ?_
  · rw [hn] at hnone
    cases hnone
  · rw [hn] at hm
    cases hm
    have hparallel : n.plot pass a env.options.retry
        (fun child => g.plot pass a env.options.retry fuel [child]) (fun _ => .done true) node =
        .fork (children.map fun child => g.plot pass a env.options.retry fuel [child])
          (.done true) := by
      rw [Node.plot, hkind]
    rw [← hparallel]
    refine enter_shows henv node (fun s hs => ?_) (fun cs hcs child hchild => ?_) ⟨?_, ?_, ?_⟩
    · rw [hkind] at hs
      cases hs
    · rw [hkind] at hcs
      cases hcs
      refine walkBranch_shows henv fuel (fun x m hx hm => ?_) []
      obtain ⟨b, hb, hx⟩ := hx
      obtain rfl := List.mem_singleton.1 hb
      exact h.seen b hchild x m hx hm
    · intro trace next hnext
      simp only [Node.Turns, Node.Onward, hkind] at hnext
      rw [hnext, zero_add]
      simpa [Visited.close] using drained_shows trace
    · intro trace f
      rw [zero_add]
      exact failed_shows trace f
    · rintro trace signal limit ⟨s, hs⟩
      rw [hkind] at hs
      cases hs

/-- A run that gets through a block, whatever follows, has got to where the block hands on. -/
theorem exists_handsOn (henv : env.Remembers) (hn : g.get? node = some n)
    (hkind : n.kind = .parallel children) (h : g.Concurrent a children) (hs : env.Quiet s)
    {k : Visited → Walk (Board C H X × ω) Report} {r : Report}
    (hrun : env.Interleaves pass
      (env.visit g (fun child => env.walkBranch g fuel [child] []) node k, s) (.done r, t)) :
    ∃ v u,
      env.HandsOn pass (env.visit g (fun child => env.walkBranch g fuel [child] []) node) s v u ∧
      env.Interleaves pass (k v, u) (.done r, t) := by
  let branch (child : NodeId) : Walk (Board C H X × ω) Report := env.walkBranch g fuel [child] []
  let after (rs : List Report) : Part C H X ω Visited :=
    if rs.any Report.isCancelled then stop else pure (join rs n.next)
  obtain ⟨s₁, hs₁, hcounted, hbefore, hrun⟩ := Interleaves.of_act hs hrun
  have hvisits := hcounted.visits
  simp only [countVisit, hs₁.cancelled, Bool.false_eq_true, if_false] at hvisits
  have hcount := countVisit_admitted (b := s₁.1) hs₁.cancelled hvisits
  simp only [Prod.mk.eta] at hcount
  have henter (k : Visited → Walk (Board C H X × ω) Report) : env.enter branch node n k =
      .fork (children.map branch) fun rs => .act id fun u =>
        (if env.cancelled u.2 || rs.any Report.isCancelled then stop
        else pure (join rs n.next) : Part C H X ω Visited) k := by
    unfold enter
    rw [hkind]
    rfl
  simp only [hcount, hn] at hrun
  rw [henter] at hrun
  obtain ⟨rs, u, hu, hfork, hrun⟩ := hrun.of_fork
  obtain ⟨u', hu', -, hbeside, hrun⟩ := Interleaves.of_act hu hrun
  simp only [hu'.cancelled, Bool.false_or] at hrun
  -- The way to the end of the block does not depend on what follows it.
  have hreach (k : Visited → Walk (Board C H X × ω) Report) :
      env.Interleaves pass (env.visit g branch node k, s) (after rs k, u') := by
    refine (hbefore _).trans (.move (.act _ _ _) hcounted ?_)
    simp only [hcount, hn]
    rw [henter]
    refine (hfork _).trans ((hbeside _).trans (.move (.act _ _ _) hu' ?_))
    simp only [hu'.cancelled, Bool.false_or]
    exact .refl
  -- A walk that shows a plot ends or fails, so no branch has reported that it was cancelled.
  have hfair : rs.any Report.isCancelled = false := by
    cases hany : rs.any Report.isCancelled with
    | false => rfl
    | true =>
      obtain ⟨more, q, hq, -⟩ := (block_shows henv hn hkind h).interleaves hs (hreach _) 0
      simp only [after, hany, if_true] at hq
      obtain ⟨hhalt | ⟨f, hhalt⟩, -⟩ := hq.of_done
      · cases hhalt
      · cases hhalt
  simp only [after, hfair, Bool.false_eq_true, if_false] at hreach hrun
  exact ⟨join rs n.next, u', hreach, hrun⟩

end Environment

/-- A step that counts, and writes its name into the memory. -/
def count (name : String) (f : Nat × Nat → Nat × Nat) : Step (Nat × Nat) (List String) where
  name := name
  execute := .act (fun (c, log) => (f c, log ++ [name])) fun _ => .done .success

/-- What a branch reports in which the step is all that there is. -/
def counted (name : String) (x : NodeId) : Report :=
  ⟨[⟨name, x, ⟨0, 0⟩, ⟨0, 0⟩, .succeeded, 1⟩], .drained⟩

section

variable {g : Graph (Nat × Nat) (List String)} {x y : NodeId} {name name' : String}
  {f f' : Nat × Nat → Nat × Nat}

end

end DurableWorkflow
