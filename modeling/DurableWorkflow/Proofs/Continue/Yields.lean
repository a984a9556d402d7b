import DurableWorkflow.Proofs.Continue.Leads
import DurableWorkflow.Proofs.Continue.Tells

/-!
# What runs come to

A run that nobody cancels, without a limit and without compensation, is its walk: it ends as the walk
does and returns what the walk leaves (`Arrives.told`, `exists_arrives`). So where a context leads, all
runs from there come to the same, and each of them can come to it (`Yields.of_leads`).
-/

namespace DurableWorkflow

variable {C H X ω κ : Type}

namespace Environment

variable {env : Environment C H X ω} {o : RunOptions} {d : Definition C H} {start : StartPoint}

theorem Unhindered.recording (henv : env.Unhindered o) : env.recording.Unhindered o :=
  ⟨henv.options, fun w => henv.cancelled w.1⟩

theorem Saves.recording (hsaves : env.Saves) : env.recording.Saves := by
  intro p x w
  obtain ⟨saved, hsave⟩ := hsaves p x w.1
  exact ⟨(saved.1, saved.2, w.2 ++ [p]), by simp [Environment.recording, hsave, Except.map]⟩

/-- What a run returns that has undone nothing. -/
def summary (begin : Nat) (board : Board C H X) (outcome : RunOutcome) (instant : Nat) :
    RunResult C where
  outcome
  context := board.context
  metrics := { board.ledger.metrics with durationMillis := instant - begin }
  trace := board.ledger.trace

theorem conclude_uncompensated (h : env.options.compensation = false) (begin : Nat)
    (board : Board C H X) (outcome : RunOutcome) :
    env.conclude d begin board outcome = .act id fun w =>
      let result := summary begin board outcome (env.instant w)
      match ending d result.metrics outcome with
      | some what => .act (env.announce what) fun _ => .done (board, result)
      | none => .done (board, result) := by
  unfold conclude
  simp only [h, Bool.and_false, Bool.false_eq_true, if_false, undo]
  rfl

/-- Without compensation the end of a run returns what the walk has left. -/
theorem conclude_ends (h : env.options.compensation = false) {begin : Nat} {board b : Board C H X}
    {outcome : RunOutcome} {drift : ω → ω → Prop} {S : Schedule (Board C H X × ω) Report}
    {ok : Report → Prop} {w v : ω} {result : RunResult C}
    (hgoes : Course.Goes drift S ok (env.conclude d begin board outcome, w) (some (b, result), v)) :
    result = summary begin board outcome (env.instant w) ∧ (v = w ∨ ∃ e, v = env.publish e w) := by
  rw [conclude_uncompensated h] at hgoes
  cases hgoes with
  | act hgoes =>
    simp only [id] at hgoes
    split at hgoes
    · cases hgoes with
      | act hgoes =>
        cases hgoes
        exact ⟨rfl, .inr ⟨_, rfl⟩⟩
    · cases hgoes
      exact ⟨rfl, .inl rfl⟩

theorem conclude_goes (h : env.options.compensation = false) (begin : Nat) (board : Board C H X)
    (outcome : RunOutcome) (drift : ω → ω → Prop) (S : Schedule (Board C H X × ω) Report)
    (ok : Report → Prop) (w : ω) : ∃ b result v,
      Course.Goes drift S ok (env.conclude d begin board outcome, w) (some (b, result), v) := by
  rw [conclude_uncompensated h]
  cases hending : ending d (summary begin board outcome (env.instant w)).metrics outcome with
  | none =>
    refine ⟨board, summary begin board outcome (env.instant w), w, .act ?_⟩
    simp only [id, hending]
    exact .done _ _
  | some what =>
    refine ⟨board, summary begin board outcome (env.instant w), env.announce what w, .act ?_⟩
    simp only [id, hending]
    exact .act (.done _ _)

/-- A report of a walk that nobody has stopped is an outcome. -/
theorem exists_outcome {r : Report} (hr : r.Fair o) (hcrash : r.crash? = none) :
    ∃ outcome, Environment.outcome d (some r) = some outcome := by
  obtain ⟨trace, halt⟩ := r
  cases halt with
  | drained | failed | suspended => exact ⟨_, rfl⟩
  | cancelled => exact absurd rfl hr.1
  | crashed m => simp [Report.crash?] at hcrash

end Environment

variable {T : Schedule (Board C H X × ω × List (Checkpoint C)) Report} {o : RunOptions}
  {d : Definition C H} {env : Environment C H X ω} {start : StartPoint} {context context' : C}
  {extra : X} {w : ω} {result : RunResult C} {record : List (Checkpoint C)}

/-- By the schedule a recorded run from there can come to this result and this record. -/
def Definition.Arrives (d : Definition C H)
    (T : Schedule (Board C H X × ω × List (Checkpoint C)) Report) (env : Environment C H X ω)
    (start : StartPoint) (context : C) (extra : X) (w : ω) (result : RunResult C)
    (record : List (Checkpoint C)) : Prop :=
  ∃ x v, Course.Goes Unrecorded T (fun _ => True)
    (env.recording.run d start context extra, w, []) (some (x, some result), v, record)

/-- A run that has ended was the run of its walk. -/
theorem Definition.Arrives.walk (ho : env.recording.options.compensation = false)
    (hlimit : d.limit = none) (h : d.Arrives T env start context extra w result record) : ∃ w' r t,
      Walk.Goes (Beside Unrecorded) T (fun _ => True)
        (env.recording.traverse d start, ⟨context, extra, {}, 0⟩, w', []) (some r, t) ∧
      r.crash? = none ∧ Environment.outcome d (some r) = some result.outcome ∧
      result.context = t.1.context ∧ result.trace = t.1.ledger.trace ∧ record = t.2.2 := by
  obtain ⟨x, v, h⟩ := h
  cases h with
  | act h =>
    cases h with
    | act h =>
      rw [hlimit] at h
      cases h with
      | @walk _ _ _ b _ _ _ w' r _ hwalk h =>
        simp only [Option.bind_some] at h
        split at h
        · cases h
        · cases h
        · next outcome hcrash houtcome =>
          obtain ⟨v', -, hnone⟩ | ⟨⟨b', result'⟩, v', hend, h⟩ := Course.Goes.of_bind h
          · simp at hnone
          · obtain ⟨rfl, hv⟩ := Environment.conclude_ends ho hend
            cases h
            refine ⟨_, r, (b, w'), hwalk, hcrash, houtcome, rfl, rfl, ?_⟩
            rcases hv with hv | ⟨e, hv⟩
            · exact congrArg Prod.snd hv
            · exact congrArg Prod.snd hv

theorem Definition.exists_arrives (ho : env.recording.options.compensation = false)
    (hlimit : d.limit = none)
    (h : ∀ w, ∃ r t, (env.recording.traverse d start).Arrives (Beside Unrecorded) T o
      (⟨context, extra, {}, 0⟩, w, []) r t) (w : ω) :
    ∃ result record, d.Arrives T env start context extra w result record := by
  obtain ⟨r, t, hwalk, hcrash⟩ := h (env.announce (.runStarted d.id) w)
  have hfair : r.Fair o := hwalk.ok r rfl
  obtain ⟨outcome, houtcome⟩ := Environment.exists_outcome (d := d) hfair hcrash
  obtain ⟨b, result, v, hend⟩ := Environment.conclude_goes (d := d) ho (env.instant w) t.1 outcome
    Unrecorded T (fun _ => True) t.2
  refine ⟨result, v.2, b.extra, v.1, .act (.act ?_)⟩
  rw [hlimit]
  refine .walk (hwalk.mono fun _ _ => trivial) ?_
  simp only [Option.bind_some, hcrash, houtcome]
  exact .bind hend (.done _ _)

/-- How a walk ends with which the run has this outcome. -/
def RunOutcome.halt : RunOutcome → Halt
  | .completed => .drained
  | .failed f => .failed f
  | .suspended s => .suspended s

theorem Environment.outcome_iff {r : Report} {outcome : RunOutcome} :
    Environment.outcome d (some r) = some outcome ↔ r.halt = outcome.halt := by
  obtain ⟨trace, halt⟩ := r
  cases halt <;> cases outcome <;> simp [Environment.outcome, RunOutcome.halt]

/-- What all runs of the definition from there come to on this context. -/
structure Definition.Yields (d : Definition C H)
    (T : Schedule (Board C H X × ω × List (Checkpoint C)) Report) (o : RunOptions)
    (start : StartPoint) (context : C) (entries : List Gist) (outcome : RunOutcome) (context' : C) :
    Prop where
  /-- They can come to something. -/
  arrives : ∀ env : Environment C H X ω, env.Unhindered o → env.Saves → ∀ extra w,
    ∃ result record, d.Arrives T env start context extra w result record
  /-- They come to nothing else. -/
  agree : ∀ env : Environment C H X ω, env.Unhindered o → ∀ extra w result record,
    d.Arrives T env start context extra w result record →
      result.trace.map (·.gist) = entries ∧ result.outcome = outcome ∧ result.context = context'

/-- Steps depend on the context alone, and on what `key` tells of a signal, and so does the schedule;
nothing is undone, there is no limit on the whole run, and there are as many visits as nodes. -/
structure Definition.Regular (d : Definition C H)
    (T : Schedule (Board C H X × ω × List (Checkpoint C)) Report) (o : RunOptions)
    (key : Signal → κ) : Prop where
  orderly : d.Orderly
  blind : d.graph.Blind key
  behavioural : T.Behavioural o d.graph
  unlimited : d.limit = none
  uncompensated : o.compensation = false
  visits : d.graph.size ≤ o.maxNodeVisits

/-- What nodes do in recorded runs. -/
abbrev Definition.does (d : Definition C H)
    (T : Schedule (Board C H X × ω × List (Checkpoint C)) Report) (o : RunOptions)
    (key : Signal → κ) : Doings C κ :=
  visits (Beside Unrecorded) T o d.graph key

namespace Definition

variable {key : Signal → κ} {entries : List Gist} {outcome : RunOutcome}

theorem Regular.functional (hd : d.Regular T o key) : (d.does T o key).Functional :=
  visits_functional (fun _ _ h => by rw [h.1]) hd.behavioural hd.blind

/-- What a run has come to tells where its start leads. -/
theorem Arrives.told (hd : d.Regular T o key) (henv : env.Unhindered o)
    (hstart : d.Ahead (start.ahead d.root))
    (h : d.Arrives T env start context extra w result record) :
    (d.does T o key).Tells (start.signal?.map key) (start.ahead d.root) context result.trace record
      result.outcome.halt result.context := by
  obtain ⟨w', r, t, hwalk, hcrash, houtcome, hcontext, htrace, rfl⟩ :=
    h.walk (by rw [henv.recording.options]; exact hd.uncompensated) hd.unlimited
  obtain ⟨first, hstack⟩ := hstart.apart
  have hspent ⦃s t : Board C H X × ω × List (Checkpoint C)⦄ (h : Beside Unrecorded s t) :
      t.1.visits = s.1.visits := by rw [h.1]
  have hmost : 0 + d.graph.size ≤ o.maxNodeVisits := by rw [Nat.zero_add]; exact hd.visits
  -- Nobody cancels and no visit is refused, so the walk has come to a report that tells of the way.
  have hthrifty := Environment.traverse_thrifty henv.recording hd.orderly hd.visits hstack
  obtain ⟨hfair, -⟩ := hthrifty.goes hspent (fun r n h => h) hwalk hmost
  obtain ⟨entries, record, hall, hrecord, htells⟩ : (d.does T o key).Told (start.signal?.map key)
      (start.ahead d.root) context (⟨context, extra, {}, 0⟩, w', []) t r.halt :=
    Environment.traverse_told henv.recording.options ⟨hfair, hcrash⟩
  rw [Environment.outcome_iff.1 houtcome] at htells
  rw [List.nil_append] at hall hrecord
  rw [hcontext, htrace, hall, hrecord]
  exact htells

/-- Where a context leads, all runs from there can come, and to nothing else. -/
theorem Yields.of_leads (hd : d.Regular T o key) (hstart : d.Ahead (start.ahead d.root))
    (h : (d.does T o key).Leads (start.signal?.map key) (start.ahead d.root) context entries
      outcome.halt context') : d.Yields T o start context entries outcome context' where
  arrives env henv hsaves extra w := by
    obtain ⟨first, hstack⟩ := hstart.apart
    refine Definition.exists_arrives (o := o) (by rw [henv.recording.options]; exact hd.uncompensated)
      hd.unlimited (fun w => ?_) w
    exact Environment.traverse_arrives (D := Unrecorded) (s := (⟨context, extra, {}, 0⟩, w, []))
      (fun _ => rfl) henv.recording hsaves.recording hd.orderly hd.behavioural hd.blind hd.visits
      hstack rfl h
  agree env henv extra w result record hresult := by
    obtain ⟨hentries, hhalt, hcontext⟩ := (hresult.told hd henv hstart).leads.unique hd.functional h
    refine ⟨hentries, ?_, hcontext⟩
    generalize result.outcome = a at hhalt
    cases a <;> cases outcome <;> cases hhalt <;> rfl

end Definition

end DurableWorkflow
