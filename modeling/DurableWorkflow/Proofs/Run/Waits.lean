import DurableWorkflow.Proofs.Reading.Compile
import DurableWorkflow.Proofs.Run.Entries
import DurableWorkflow.Proofs.Run.Watched

/-!
# Where runs wait

A built definition has no step that may wait in a branch of a parallel block. A step may wait all
the same, unannounced; but the nodes that the main walk has ahead are exposed, from wherever the run
begins: the root, a frontier that an earlier run has saved, or a node at which one has waited
(`Captured`). So no run ends waiting at a node of a branch. If a step has waited there, the run has
failed, and what it tells of is the first step that did not succeed.
-/

namespace DurableWorkflow

variable {C H X ω : Type}

/-- All these entries tell of successes. -/
def Succeeded (entries : List StepTrace) : Prop := ∀ t ∈ entries, t.outcome = .succeeded

/-- The nodes may be what a main walk of the definition has ahead, the next one first. -/
structure Definition.Ahead (d : Definition C H) (nodes : List Nat) : Prop where
  apart : ∃ first, d.graph.Apart nodes first d.graph.size
  exposed : ∀ x ∈ nodes, d.graph.Exposed [d.root] x

/-- A main walk may begin like this. -/
def Definition.Opens (d : Definition C H) : StartPoint → Prop
  | .root => True
  | .frontier nodes => d.Ahead nodes.reverse
  | .signal node pending _ => d.Ahead (node :: pending.reverse)

/-- How a main walk may end that leaves these entries. -/
structure Definition.Ends (d : Definition C H) (r : Report) (entries : List StepTrace) : Prop where
  drained : r.halt = .drained → Succeeded entries
  failed : ∀ f, r.halt = .failed f → d.graph.Blames entries f
  suspended : ∀ s, r.halt = .suspended s → d.Ahead (s.node :: s.pending.reverse) ∧
    ∃ before t, entries = before ++ [t] ∧ Succeeded before ∧
      t.node = s.node ∧ t.outcome = .suspended s.signal

/-- How a run may end. -/
structure Definition.Concludes (d : Definition C H) (result : RunResult C) : Prop where
  completed : result.outcome = .completed → Succeeded result.trace
  failed : ∀ f, result.outcome = .failed f →
    f = Environment.lateFailure d (d.limit.getD 0) ∨ d.graph.Blames result.trace f
  suspended : ∀ s, result.outcome = .suspended s → d.Ahead (s.node :: s.pending.reverse) ∧
    ∃ before t, result.trace = before ++ [t] ∧ Succeeded before ∧
      t.node = s.node ∧ t.outcome = .suspended s.signal

/-- `S` holds of the world whatever a run of the definition does. -/
structure Environment.Withstands (env : Environment C H X ω) (d : Definition C H)
    (drift : ω → ω → Prop) (S : ω → Prop) : Prop where
  drift : ∀ {w v}, S w → drift w v → S v
  publish : ∀ {w} e, S w → S (env.publish e w)
  memory : ∀ {w} h, S w → S (env.setMemory h w)
  save : ∀ {p x w x' w'}, d.Ahead p.frontier.reverse → S w →
    env.save p (x, w) = .ok (x', w') → S w'

variable {d : Definition C H} {x e : Nat} {l nodes : List Nat} {n : Node C H}

namespace Definition.Ahead

theorem root (h : d.Orderly) : d.Ahead [d.root] := by
  have hroot : d.root ∈ [d.root] := by simp
  obtain ⟨hle, hlt⟩ := h.within d.root hroot
  refine ⟨⟨0, d.graph.size, hle, hlt, h.inside.mono hle, Nat.le_refl _⟩, fun x hx => h.exposed hx⟩

theorem onward (h : d.Orderly) (hx : d.Ahead (x :: l)) (hn : d.graph.get? x = some n)
    (hnodes : n.Onward nodes) : d.Ahead (nodes ++ l) := by
  obtain ⟨⟨first, hapart⟩, hexposed⟩ := hx
  obtain ⟨e, -, -, -, honward⟩ := h.onward hapart hn
  refine ⟨⟨e, honward nodes hnodes⟩, fun m hm => ?_⟩
  rcases List.mem_append.1 hm with hm | hm
  · exact (hexposed x (by simp)).onward h hn hnodes hm
  · exact hexposed m (by simp [hm])

end Definition.Ahead

theorem Definition.Concludes.of_ends {r : Report} {result : RunResult C}
    (h : d.Ends r result.trace) (ho : Environment.outcome d (some r) = some result.outcome) :
    d.Concludes result := by
  unfold Environment.outcome at ho
  simp only at ho
  split at ho
  · next hr =>
    exact ⟨fun _ => h.drained hr, by simp [← Option.some.inj ho], by simp [← Option.some.inj ho]⟩
  · next f hr =>
    refine ⟨by simp [← Option.some.inj ho], fun f' hf => .inr (h.failed f' ?_),
      by simp [← Option.some.inj ho]⟩
    rw [← Option.some.inj ho] at hf
    cases hf
    exact hr
  · next s hr =>
    refine ⟨by simp [← Option.some.inj ho], by simp [← Option.some.inj ho], fun s' hs =>
      h.suspended s' ?_⟩
    rw [← Option.some.inj ho] at hs
    cases hs
    exact hr
  · simp at ho
  · simp at ho

namespace Environment

variable {env : Environment C H X ω} {drift : ω → ω → Prop} {S : ω → Prop}

theorem Withstands.tends (hS : env.Withstands d drift S) :
    env.Tends d.graph (fun _ => True) fun s t =>
      t.1.ledger.trace = s.1.ledger.trace ∧ (S s.2 → S t.2) where
  board _ _ _ h := ⟨h.trace, id⟩
  enter _ _ _ _ _ := ⟨rfl, id⟩
  publish _ e _ _ := ⟨rfl, hS.publish e⟩
  execute _ _ s _ _ _ := onBoard_keeps (fun _ _ h _ => ⟨rfl, hS.memory h⟩) s.execute

/-- A main walk keeps `S`, and ends as it may. -/
abbrev Waits (d : Definition C H) (drift : ω → ω → Prop) (S : ω → Prop)
    (path : Walk (Board C H X × ω) Report) (s : Board C H X × ω) : Prop :=
  path.Obeys (Beside drift) (fun s t => S s.2 → S t.2) (fun r s => d.Ends r s.1.ledger.trace) s

theorem Waits.stopped {entries : List StepTrace} {r : Report} (h : r.Stopped) :
    d.Ends r entries := by
  have hhalt : r.halt = .cancelled := beq_iff_eq.1 h
  exact ⟨by simp [hhalt], by simp [hhalt], by simp [hhalt]⟩

/-- All that was done before a node is passed has succeeded. -/
theorem pass_waits (horderly : d.Orderly) (hS : env.Withstands d drift S)
    {v : Visited} {s : Board C H X × ω} {next : List NodeId → Walk (Board C H X × ω) Report}
    (hv : v.Of d.graph x e) (hx : d.Ahead (x :: l))
    (hs : Succeeded s.1.ledger.trace)
    (hnext : ∀ nodes s, d.Ahead nodes → Succeeded s.1.ledger.trace →
      Waits d drift S (next nodes) s) : Waits d drift S (env.pass x l v next) s := by
  rintro ⟨b, w⟩ ⟨rfl, -⟩
  refine ⟨id, ?_⟩
  simp only
  split
  · next nodes hturn =>
    obtain ⟨⟨n, hn, hnodes⟩, hdone⟩ := hv.onward nodes hturn
    have hahead := hx.onward horderly hn hnodes
    rintro ⟨b', w'⟩ ⟨rfl, -⟩
    have hall : Succeeded (s.1.ledger.trace ++ v.trace) := fun t ht =>
      (List.mem_append.1 ht).elim (hs t) (hdone t)
    simp only
    -- A checkpoint has the nodes ahead in the order of a stack, the next one last.
    split
    · next heq =>
      refine ⟨fun hw => hS.save ?_ hw heq, hnext _ _ hahead hall⟩
      rw [List.reverse_reverse]
      exact hahead
    · exact ⟨id, by simp, by simp, by simp⟩
  · next f hturn =>
    refine ⟨by simp, fun f' hf' => ?_, by simp⟩
    cases hf'
    exact (hv.failed f hturn).after hs
  · next signal limit hturn =>
    obtain ⟨t, htrace, hnode, houtcome⟩ := hv.suspended signal limit hturn
    rintro ⟨b', w'⟩ ⟨rfl, -⟩
    refine ⟨hS.publish _, by simp, by simp, fun s' hs' => ?_⟩
    cases hs'
    refine ⟨by rw [List.reverse_reverse]; exact hx, s.1.ledger.trace, t, by rw [htrace], hs, hnode,
      houtcome⟩

theorem brings_waits (horderly : d.Orderly) (hS : env.Withstands d drift S)
    {p : Part C H X ω Visited} (hp : p.Brings Report.Stopped (fun s t =>
      t.1.ledger.trace = s.1.ledger.trace ∧ (S s.2 → S t.2)) (Visited.Of d.graph x e))
    (hx : d.Ahead (x :: l)) {next : List NodeId → Walk (Board C H X × ω) Report}
    (hnext : ∀ nodes s, d.Ahead nodes → Succeeded s.1.ledger.trace →
      Waits d drift S (next nodes) s)
    {s : Board C H X × ω} (hs : Succeeded s.1.ledger.trace) :
    Waits d drift S (p fun v => env.pass x l v next) s := by
  have hlasts : Lasts (Beside drift) fun s : Board C H X × ω => Succeeded s.1.ledger.trace := by
    intro s t hs hst
    simp only [hst.1]
    exact hs
  refine hp.obeys hlasts (fun s t hV hs => ?_) (fun r s hr _ => Waits.stopped hr)
    (fun v s hv hs => pass_waits horderly hS hv hx hs hnext) hs
  rw [hV.1]
  exact ⟨hV.2, hs⟩

theorem walkMain_waits (horderly : d.Orderly) (hS : env.Withstands d drift S) (fuel : Nat)
    (hnodes : d.Ahead nodes) {s : Board C H X × ω} (hs : Succeeded s.1.ledger.trace) :
    Waits d drift S (env.walkMain d.graph fuel nodes) s := by
  induction fuel generalizing nodes s with
  | zero =>
    cases nodes with
    | nil => exact ⟨fun _ => hs, by simp, by simp⟩
    | cons x l =>
      refine ⟨by simp, fun f hf => ?_, by simp⟩
      cases hf
      exact .inl ⟨_, _, _, rfl⟩
  | succ fuel ih =>
    cases nodes with
    | nil => exact ⟨fun _ => hs, by simp, by simp⟩
    | cons x l =>
      obtain ⟨first, hapart⟩ := hnodes.apart
      obtain ⟨e, -, -, hvisit, -⟩ := visit_stack hS.tends horderly hapart trivial
        (fun child => env.walkBranch d.graph fuel [child] []) fun c e _ hc =>
          walkBranch_does hS.tends horderly fuel hc (Nat.le_succ x) (fun _ _ => trivial) (by simp)
      exact brings_waits horderly hS hvisit hnodes (fun nodes s hnodes hs => ih hnodes hs) hs

theorem traverse_waits (horderly : d.Orderly) (hS : env.Withstands d drift S) {start : StartPoint}
    (hstart : d.Opens start) {s : Board C H X × ω} (hs : Succeeded s.1.ledger.trace) :
    Waits d drift S (env.traverse d start) s := by
  cases start with
  | root => exact walkMain_waits horderly hS _ (.root horderly) hs
  | frontier nodes => exact walkMain_waits horderly hS _ hstart hs
  | signal node pending signal =>
    have hdeliver := deliver_brings hS.tends.toAbout signal
      (fun n s _ _ => onBoard_keeps (fun _ _ h _ => ⟨rfl, hS.memory h⟩) _) (Nat.lt_succ_self node)
    exact brings_waits horderly hS hdeliver hstart
      (fun nodes s hnodes hs => walkMain_waits horderly hS _ hnodes hs) hs

/-! ### Runs -/

/-- What is watched of a run that withstands: `S` is kept. -/
def watch (drift : ω → ω → Prop) (hrefl : ∀ w, drift w w)
    (htrans : ∀ {u v w}, drift u v → drift v w → drift u w) (S : ω → Prop) :
    Watch ω (Board C H X) Report where
  good _ := True
  others := drift
  own w v := S w → S v
  pace s t := S s.2 → S t.2
  mark _ _ _ := True
  refl := hrefl
  trans := htrans
  own_refl _ := id

theorem run_waits (horderly : d.Orderly) (hS : env.Withstands d drift S) {hrefl : ∀ w, drift w w}
    {htrans : ∀ {u v w}, drift u v → drift v w → drift u w} {start : StartPoint}
    (hstart : d.Opens start) (context : C) (extra : X) (w : ω) :
    (env.run d start context extra).Heeds (watch drift hrefl htrans S)
      (fun r _ => ∀ result ∈ r.2, d.Concludes result) w := by
  have hguides := Watch.guides_obeys (P := watch drift hrefl htrans S)
    (I := fun s t : Board C H X × ω => S s.2 → S t.2) (J := fun _ => True)
    (Q := fun r s => d.Ends r s.1.ledger.trace) (fun _ _ _ _ => trivial)
    (fun r s t hs hst => by simp only [hst.1]; exact hs) (fun _ _ _ h => ⟨h, trivial⟩) (fun _ => id)
    (fun _ _ _ _ => trivial)
  have hconclude (begin : Nat) (board : Board C H X) (o : RunOutcome) (v : ω) :
      (env.conclude d begin board o).Heeds (watch drift hrefl htrans S) (fun y _ =>
        y.2.outcome = o ∧ y.2.trace = board.ledger.trace) v := by
    refine (conclude_heeds (F := fun own _ => own.ledger.trace = board.ledger.trace)
      (fun _ _ _ h _ => h) (fun e _ => hS.publish e) (fun _ _ _ h => h) d begin o
      (fun _ _ _ work _ => onBoard_keeps (fun _ _ h _ _ hF => ⟨hS.memory h, hF⟩) work) rfl).mono
      fun y v hy => ⟨hy.2.1, hy.2.2.2.trans hy.1⟩
  refine run_heeds hguides (fun e _ => hS.publish e) (fun v _ u e _ => ?_)
    (fun begin board r v hdone _ o ho => ?_) (fun _ _ _ _ _ _ => by simp)
    (fun begin path board v _ => ?_)
  · exact ⟨trivial, traverse_waits horderly hS hstart (by simp [Succeeded])⟩
  · refine (hconclude begin board o v).mono fun y v hy result hresult => ?_
    cases hresult
    exact .of_ends (hy.2 ▸ hdone.2) (hy.1 ▸ ho)
  · refine (hconclude begin board _ v).mono fun y v hy result hresult => ?_
    cases hresult
    exact ⟨by simp [hy.1], fun f hf => .inl (by simpa [hy.1] using hf.symm), by simp [hy.1]⟩

end Environment

end DurableWorkflow
