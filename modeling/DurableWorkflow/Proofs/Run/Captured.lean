import DurableWorkflow.Proofs.Run.Calm
import DurableWorkflow.Proofs.Run.Waits

/-!
# Where runs may begin again

A run hands on checkpoints, and it may end waiting. Whoever records that can begin other runs there,
and others after those. All of them begin where a main walk may begin (`Captured.opens`), so none
of them ever waits in a branch of a parallel block (`Captured.never_waits_inParallel`).
-/

namespace DurableWorkflow

variable {C H X ω : Type}

/-- The same surroundings, with a record of the checkpoints that are saved. -/
def Environment.recording (env : Environment C H X ω) :
    Environment C H X (ω × List (Checkpoint C)) where
  options := env.options
  runId := env.runId
  cancelled w := env.cancelled w.1
  wall w := env.wall w.1
  instant w := env.instant w.1
  publish e w := (env.publish e w.1, w.2)
  memory w := env.memory w.1
  setMemory h w := (env.setMemory h w.1, w.2)
  encode := env.encode
  save p s := (env.save p (s.1, s.2.1)).map fun (x, w) => (x, w, s.2.2 ++ [p])

/-- Others leave the record alone. -/
def Unrecorded (w v : ω × List (Checkpoint C)) : Prop := v.2 = w.2

/-- A recorded run from this start point may come to this. -/
def Definition.Runs (d : Definition C H) (env : Environment C H X ω) (start : StartPoint)
    (y : Environment.Op C H X (ω × List (Checkpoint C)) (X × Option (RunResult C)) ×
      ω × List (Checkpoint C)) : Prop :=
  ∃ context extra w,
    Moves Unrecorded Course.Step (env.recording.run d start context extra, w, []) y

/-- Where runs of the definition may begin: at the root, at a frontier that an earlier run has handed
on, or with a signal for a node at which an earlier run waits. -/
inductive Definition.Captured (d : Definition C H) : StartPoint → Prop
  | root : Captured d .root
  | frontier {X ω : Type} {env : Environment C H X ω} {start : StartPoint}
      {course : Environment.Op C H X (ω × List (Checkpoint C)) (X × Option (RunResult C))}
      {w : ω × List (Checkpoint C)} {p : Checkpoint C} (hstart : Captured d start)
      (h : d.Runs env start (course, w)) (hp : p ∈ w.2) : Captured d (.frontier p.frontier)
  | signal {X ω : Type} {env : Environment C H X ω} {start : StartPoint} {x : X}
      {result : RunResult C} {w : ω × List (Checkpoint C)} {s : Suspension} (signal : Signal)
      (hstart : Captured d start) (h : d.Runs env start (.done (x, some result), w))
      (hs : result.outcome = .suspended s) : Captured d (.signal s.node s.pending signal)

variable {d : Definition C H} {env : Environment C H X ω} {drift : ω → ω → Prop} {S : ω → Prop}
  {start : StartPoint}

theorem Environment.Withstands.concludes (hS : env.Withstands d drift S) (horderly : d.Orderly)
    (hrefl : ∀ w, drift w w) (htrans : ∀ {u v w}, drift u v → drift v w → drift u w)
    (hstart : d.Opens start) {context : C} {extra : X} {w : ω}
    {y : Environment.Op C H X ω (X × Option (RunResult C)) × ω}
    (h : Moves drift Course.Step (env.run d start context extra, w) y) (hw : S w) :
    y.1.Heeds (watch drift hrefl htrans S) (fun r _ => ∀ result ∈ r.2, d.Concludes result) y.2 ∧
      S y.2 :=
  Course.Heeds.moves (P := watch drift hrefl htrans S) (fun _ _ _ h _ => h) (fun _ => trivial)
    hS.drift (fun hw h => h hw) (fun hw h => h hw) h
    (run_waits horderly hS hstart context extra w) hw

/-- All that is recorded can be what a main walk has ahead. -/
theorem Environment.recording_withstands (env : Environment C H X ω) (d : Definition C H) :
    env.recording.Withstands d Unrecorded fun w => ∀ p ∈ w.2, d.Ahead p.frontier.reverse where
  drift hw h := by rw [show _ = _ from h]; exact hw
  publish _ hw := hw
  memory _ hw := hw
  save {p x w x' w'} hp hw hsave := by
    simp only [recording] at hsave
    cases h : env.save p (x, w.1) with
    | error m => simp [h, Except.map] at hsave
    | ok saved =>
      rw [h] at hsave
      cases hsave
      intro q hq
      rcases List.mem_append.1 hq with hq | hq
      · exact hw q hq
      · rw [List.mem_singleton.1 hq]
        exact hp

namespace Definition

/-- A recorded run ends as it may, and what it has recorded can be ahead of a main walk. -/
theorem Runs.concludes (horderly : d.Orderly) (hstart : d.Opens start)
    {y : Environment.Op C H X (ω × List (Checkpoint C)) (X × Option (RunResult C)) ×
      ω × List (Checkpoint C)} (h : d.Runs env start y) :
    (∀ x result, y.1 = .done (x, some result) → d.Concludes result) ∧
      ∀ p ∈ y.2.2, d.Ahead p.frontier.reverse := by
  obtain ⟨context, extra, w, h⟩ := h
  obtain ⟨hheeds, hrecord⟩ := (env.recording_withstands d).concludes horderly (fun _ => rfl)
    (fun huv hvw => Eq.trans hvw huv) hstart h (by simp)
  refine ⟨fun x result hy => ?_, hrecord⟩
  obtain ⟨course, v⟩ := y
  obtain rfl : course = .done (x, some result) := hy
  exact hheeds result rfl

theorem Captured.opens (horderly : d.Orderly) (h : d.Captured start) : d.Opens start := by
  induction h with
  | root => trivial
  | frontier _ h hp ih => exact (h.concludes horderly ih).2 _ hp
  | signal _ _ h hs ih => exact (((h.concludes horderly ih).1 _ _ rfl).suspended _ hs).1

/-- No step in a branch of a parallel block may wait, and if one does all the same the run fails.
The failure tells of the first step that did not succeed, unless the engine itself has failed or the
run has taken too long. -/
theorem Captured.never_waits_inParallel {registry : Registry C H} {p : Program C H}
    (hd : p.compile registry = .ok d) :
    (∀ (node : Nat) n s, d.graph.InParallel node → d.graph.get? node = some n →
      n.step? = some s → s.maySuspend = false) ∧
    ∀ {X ω : Type} (env : Environment C H X ω) {start : StartPoint}, d.Captured start →
      ∀ {context : C} {extra x : X} {w v : ω} {result : RunResult C},
      Moves (fun _ _ => True) Course.Step (env.run d start context extra, w)
        (.done (x, some result), v) →
      (∀ s, result.outcome = .suspended s → ¬d.graph.InParallel s.node) ∧
      ∀ t ∈ result.trace, ∀ signal, t.outcome = .suspended signal → d.graph.InParallel t.node →
        ∃ f, result.outcome = .failed f ∧
          (f = Environment.lateFailure d (d.limit.getD 0) ∨ d.graph.Blames result.trace f) := by
  have horderly := p.orderly_of_compile registry hd
  refine ⟨fun node n s hx hn hs => Graph.Tract.steady_inParallel horderly hx hn hs,
    fun env start hstart context extra x w v result h => ?_⟩
  have hS : env.Withstands d (fun _ _ => True) fun _ => True :=
    ⟨fun _ _ => trivial, fun _ _ => trivial, fun _ _ => trivial, fun _ _ _ => trivial⟩
  have hconcludes : d.Concludes result :=
    (hS.concludes horderly (fun _ => trivial) (fun _ _ => trivial) (hstart.opens horderly) h
      trivial).1 result rfl
  have houtside (s : Suspension) (hs : result.outcome = .suspended s) :
      ¬d.graph.InParallel s.node :=
    ((hconcludes.suspended s hs).1.exposed s.node (by simp)).not_inParallel
  refine ⟨houtside, fun t ht signal hsignal hnode => ?_⟩
  cases hresult : result.outcome with
  | completed =>
    have := hconcludes.completed hresult t ht
    simp [hsignal] at this
  | failed f => exact ⟨f, rfl, hconcludes.failed f hresult⟩
  | suspended s =>
    obtain ⟨-, before, u, htrace, hbefore, hu, -⟩ := hconcludes.suspended s hresult
    rw [htrace, List.mem_append, List.mem_singleton] at ht
    obtain ht | rfl := ht
    · have := hbefore t ht
      simp [hsignal] at this
    · exact absurd (hu ▸ hnode) (houtside s hresult)

end Definition

/-! ### A step that waits where it must not -/

/-- A step that waits for a signal without having said so. -/
def nap : Step Nat Unit where
  name := "nap"
  execute := .done (.suspend "morning")

def idle : Step Nat Unit where
  name := "idle"
  execute := .done .success

def broken : Step Nat Unit where
  name := "broken"
  execute := .done (.failure (.failed "broken"))

/-- Beside the given step another one waits. -/
def napping (beside : Step Nat Unit) : Program Nat Unit where
  id := "napping"
  version := "1.0.0"
  calls := [.start idle, .append (.parallel [.single beside, .single nap])]

/-- A run of it from the root. -/
def napped (d : Definition Nat Unit) :
    Course Unit (Board Nat Unit Unit) Report (Unit × Option (RunResult Nat)) :=
  { Environment.still Nat Unit with options := { maxNodeVisits := 5 } : Environment _ _ _ _ }.run
    d .root 0 ()

/-- How the run ends in order, if there is a branch at the node 3. -/
def nap? (beside : Step Nat Unit) : Option (Definition Nat Unit × RunResult Nat) :=
  match (napping beside).compile {} with
  | .ok d =>
    match (d.graph.get? 1).map Node.kind, (napped d).inOrder ((), []) with
    | some (.parallel [_, 3]), some (.done (_, some result), _) => some (d, result)
    | _, _ => none
  | .error _ => none

theorem napped_of_nap {beside : Step Nat Unit} {d : Definition Nat Unit} {result : RunResult Nat}
    (h : nap? beside = some (d, result)) : (napping beside).compile {} = .ok d ∧
      d.graph.InParallel 3 ∧
      Moves (fun _ _ => True) Course.Step (napped d, ()) (.done ((), some result), ()) := by
  unfold nap? at h
  split at h
  · next d' hd =>
    split at h
    · next c x result' s hblock hrun =>
      cases h
      obtain ⟨n, hn, hkind⟩ := Option.map_eq_some_iff.1 hblock
      exact ⟨hd, ⟨1, n, _, 3, hn, hkind, by simp, .refl⟩,
        (Course.steps_of_inOrder _ hrun).lift id fun _ _ => .inl⟩
    · simp at h
  · simp at h

/-- Where another step has failed before, the failure tells of that one. -/
theorem Definition.Captured.other_step_blamed : ¬∀ (registry : Registry Nat Unit)
    (p : Program Nat Unit) (d : Definition Nat Unit), p.compile registry = .ok d →
    ∀ (env : Environment Nat Unit Unit Unit) (start : StartPoint), d.Captured start →
    ∀ (context : Nat) (result : RunResult Nat), Moves (fun _ _ => True) Course.Step
      (env.run d start context (), ()) (.done ((), some result), ()) →
    ∀ t ∈ result.trace, ∀ signal, t.outcome = .suspended signal → d.graph.InParallel t.node →
      ∃ f, result.outcome = .failed f ∧ f.node = some t.node := by
  intro h
  have hnap : (nap? broken).map (fun x => (x.2.outcome,
      x.2.trace.map fun t => (t.node, t.outcome))) =
      some (.failed ⟨some "broken", some 2, 1, "broken"⟩,
        [(0, .succeeded), (2, .failed "broken" false), (3, .suspended "morning")]) := by
    decide +kernel
  obtain ⟨⟨d, result⟩, hnap, heq⟩ := Option.map_eq_some_iff.1 hnap
  obtain ⟨houtcome, htrace⟩ := Prod.mk.inj heq
  obtain ⟨hd, hin, hmoves⟩ := napped_of_nap hnap
  obtain ⟨t, ht, hentry⟩ : ∃ t ∈ result.trace, (t.node, t.outcome) = (3, .suspended "morning") :=
    List.mem_map.1 (htrace ▸ by simp)
  obtain ⟨hnode, hsuspended⟩ := Prod.mk.inj hentry
  obtain ⟨f, hf, hblamed⟩ := h _ _ d hd _ .root .root 0 result hmoves t ht _ hsuspended
    (hnode ▸ hin)
  rw [show result.outcome = _ from houtcome] at hf
  cases hf
  rw [hnode] at hblamed
  simp at hblamed

theorem Definition.Captured.never_waits_inParallel_napped : ∃ (d : Definition Nat Unit)
    (result : RunResult Nat), (napping idle).compile {} = .ok d ∧ d.Captured .root ∧
      Moves (fun _ _ => True) Course.Step (napped d, ()) (.done ((), some result), ()) ∧
      d.graph.InParallel 3 ∧ (∃ t ∈ result.trace, t.node = 3 ∧ t.outcome = .suspended "morning") ∧
      ∃ f, result.outcome = .failed f ∧ f.node = some 3 ∧ d.graph.Blames result.trace f := by
  have hnap : (nap? idle).map (fun x =>
      (x.2.outcome.failure?.map fun f => (f.step, f.node, f.attempts),
        x.2.trace.map fun t => (t.node, t.outcome))) =
      some (some (some "nap", some 3, 1),
        [(0, .succeeded), (2, .succeeded), (3, .suspended "morning")]) := by
    decide +kernel
  obtain ⟨⟨d, result⟩, hnap, heq⟩ := Option.map_eq_some_iff.1 hnap
  obtain ⟨houtcome, htrace⟩ := Prod.mk.inj heq
  obtain ⟨hd, hin, hmoves⟩ := napped_of_nap hnap
  obtain ⟨t, ht, hentry⟩ : ∃ t ∈ result.trace, (t.node, t.outcome) = (3, .suspended "morning") :=
    List.mem_map.1 (htrace ▸ by simp)
  obtain ⟨hnode, hsuspended⟩ := Prod.mk.inj hentry
  obtain ⟨-, hruns⟩ := Definition.Captured.never_waits_inParallel hd
  obtain ⟨f, hf, hwhy⟩ := (hruns _ .root hmoves).2 t ht _ hsuspended (hnode ▸ hin)
  simp only [hf, RunOutcome.failure?, Option.map_some, Option.some.injEq, Prod.mk.injEq] at houtcome
  refine ⟨d, result, hd, .root, hmoves, hin, ⟨t, ht, hnode, hsuspended⟩, f, hf, houtcome.2.1,
    hwhy.resolve_left fun hlate => ?_⟩
  rw [hlate] at houtcome
  simp [Environment.lateFailure, Failure.ofRun] at houtcome

end DurableWorkflow
