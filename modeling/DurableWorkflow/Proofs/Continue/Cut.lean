import DurableWorkflow.Proofs.Continue.Leaving
import DurableWorkflow.Proofs.Continue.Yields
import DurableWorkflow.Proofs.Recovery.Transparency

/-!
# Runs that are cut and continued

A run from the root may be cut wherever it has handed on a checkpoint: a run from the frontier and the
context of the checkpoint does what was left of it. And where it has waited, a run with a signal goes
on as if the step had not waited, but had succeeded at once with what it made of the signal
(`Arrives.continues`).
-/

namespace DurableWorkflow

variable {C H X ω κ : Type}

namespace Definition

variable {d : Definition C H} {T : Schedule (Board C H X × ω × List (Checkpoint C)) Report}
  {o : RunOptions} {key : Signal → κ} {env : Environment C H X ω} {context : C} {extra : X} {w : ω}
  {result : RunResult C} {record : List (Checkpoint C)}

theorem Regular.leaving (hd : d.Regular T o key) (hT : ∀ g : Graph C H, T.Behavioural o g)
    (x : NodeId) (context : C) : (d.leaving x context).Regular T o key where
  orderly := hd.orderly.like (d.graph.like_leaving x context) rfl
  blind := hd.blind.leaving x context
  behavioural := hT _
  unlimited := hd.unlimited
  uncompensated := hd.uncompensated
  visits := by
    rw [show (d.leaving x context).graph.size = d.graph.size from
      (d.graph.like_leaving x context).size]
    exact hd.visits

/-- What is left of a run at one of its checkpoints. -/
theorem Arrives.cut (hd : d.Regular T o key) (henv : env.Unhindered o)
    (h : d.Arrives T env .root context extra w result record) {before after : List (Checkpoint C)}
    {p : Checkpoint C} (hp : record = before ++ p :: after) :
    ∃ rest, result.trace = (before ++ [p]).flatMap (·.trace) ++ rest ∧
      d.Yields T o (.frontier p.frontier) p.context (rest.map (·.gist)) result.outcome
        result.context := by
  have hroot : d.Ahead (StartPoint.root.ahead d.root) := Ahead.root hd.orderly
  have htells := h.told hd henv hroot
  obtain ⟨rest, hrest, hpasses⟩ := htells.passes before p after hp
  -- The way from the checkpoint is the rest of the way from the root, for there is only one.
  refine ⟨rest, hrest, .of_leads hd (hpasses.ahead (visits_along _ _ _ _ _) hd.orderly hroot) ?_⟩
  obtain ⟨rest', hentries, hleads⟩ := hpasses.remains hd.functional htells.leads
  rw [hrest, List.map_append] at hentries
  rw [List.append_cancel_left hentries]
  exact hleads

/-- Where a run has waited, the step has left one entry, after those of the nodes that the run has
passed. -/
theorem Arrives.waited (hd : d.Regular T o key) (henv : env.Unhindered o)
    (h : d.Arrives T env .root context extra w result record) {s : Suspension}
    (hs : result.outcome = .suspended s) : ∃ before t n step context₀,
      result.trace = before ++ [t] ∧ t.node = s.node ∧ t.outcome = .suspended s.signal ∧
      d.graph.get? s.node = some n ∧ n.kind = .step step ∧
      (d.does T o key).Passes none [d.root] context (before.map (·.gist))
        (s.node :: s.pending.reverse) context₀ := by
  have hroot : d.Ahead (StartPoint.root.ahead d.root) := Ahead.root hd.orderly
  have hleads := (h.told hd henv hroot).leads
  rw [hs] at hleads
  obtain ⟨ahead, context₀, before, last, hpending, hentries, hpasses, hlast⟩ := hleads.passes
  obtain ⟨n, step, attempts, hn, hkind, rfl⟩ := visits_suspended hlast
  obtain ⟨before', last', htrace, rfl, hlast'⟩ := List.map_eq_append_iff.1 hentries
  obtain ⟨t, rfl, hgist⟩ := List.map_eq_singleton_iff.1 hlast'
  refine ⟨before', t, n, step, context₀, htrace, ?_, ?_, hn, hkind, ?_⟩
  · exact congrArg (·.2.1) hgist
  · exact congrArg (·.2.2.1) hgist
  · rw [hpending, List.reverse_reverse]
    exact hpasses

/-- A run of the definition with a step replaced leads to the node of that step and on as a run with a
signal does that is answered like this. -/
theorem leads_iff_leaving (hd : d.Regular T o key) (hT : ∀ g : Graph C H, T.Behavioural o g)
    (henv : env.Unhindered o) (extra : X) (w : ω) {x : NodeId} {n : Node C H} {step : Step C H}
    {signal : Signal} {l : List NodeId} {before all : List Gist} {middle middle' after context' : C}
    {halt : Halt} (hn : d.graph.get? x = some n) (hkind : n.kind = .step step)
    (hanswers : step.Answers signal middle' context')
    (hpasses : (d.does T o key).Passes none [d.root] context before (x :: l) middle) :
    ((d.leaving x context').does T o key).Leads none [d.root] context all halt after ↔
      ∃ entries, all = before ++ entries ∧
        (d.does T o key).Leads (some (key signal)) (x :: l) middle' entries halt after := by
  have hroot := Ahead.root hd.orderly
  have hahead := hpasses.ahead (visits_along _ _ _ _ _) hd.orderly hroot
  -- A node at which a main walk is lies in no branch, so replacing it changes what no other does.
  have hx : ¬d.graph.InParallel x := (hahead.exposed x (List.mem_cons_self ..)).not_inParallel
  have hmost : 0 < o.maxNodeVisits :=
    Nat.lt_of_lt_of_le (Nat.lt_of_le_of_lt (Nat.zero_le _) (Graph.lt_size hn)) hd.visits
  have hleaving := hd.leaving hT x context'
  have hrefl (w : ω × List (Checkpoint C)) : Unrecorded w w := rfl
  exact Doings.leads_iff_elsewhere (fun y hy => visits_leaving_of_ne hx hy context') hd.functional
    hleaving.functional (visits_along _ _ _ _ _) (visits_along _ _ _ _ _) hd.orderly
    hleaving.orderly (d.graph.like_leaving x context') hroot hpasses
    (visits_answer hrefl henv.recording.options extra (w, []) hd.blind hn hkind hanswers)
    (visits_leaving hrefl henv.recording hmost extra (w, []) hn hkind middle)

/-- A run can be cut and continued. If steps and answers depend on the context alone, and branches are
scheduled by what they do, if nobody cancels, nothing is undone, no limit is set for the run, and there
are visits enough, then with each checkpoint a run from the root has handed on what is left of it; and
where it has waited, a run with a signal that is answered does what the run from the root would have
done if the step had succeeded and left that context. -/
theorem Arrives.continues {registry : Registry C H} {p : Program C H}
    (hd : p.compile registry = .ok d) (hblind : d.graph.Blind key)
    (hT : ∀ g : Graph C H, T.Behavioural o g) (hlimit : d.limit = none) (ho : o.compensation = false)
    (hvisits : d.graph.size ≤ o.maxNodeVisits) (henv : env.Unhindered o)
    (h : d.Arrives T env .root context extra w result record) :
    (∀ before p after, record = before ++ p :: after →
      ∃ rest, result.trace = (before ++ [p]).flatMap (·.trace) ++ rest ∧
        d.Yields T o (.frontier p.frontier) p.context (rest.map (·.gist)) result.outcome
          result.context) ∧
    ∀ s, result.outcome = .suspended s → ∃ before t n step, result.trace = before ++ [t] ∧
      t.node = s.node ∧ t.outcome = .suspended s.signal ∧ d.graph.get? s.node = some n ∧
      n.kind = .step step ∧ ∀ signal context', step.Answers signal result.context context' →
        (∀ env' : Environment C H X ω, env'.Unhindered o → ∀ extra' w' result' record',
          d.Arrives T env' (.signal s.node s.pending signal) result.context extra' w' result' record' →
          (d.leaving s.node context').Yields T o .root context
            (before.map (·.gist) ++ result'.trace.map (·.gist)) result'.outcome result'.context) ∧
        ∀ env' : Environment C H X ω, env'.Unhindered o → ∀ extra' w' result' record',
          (d.leaving s.node context').Arrives T env' .root context extra' w' result' record' →
          ∃ rest, result'.trace.map (·.gist) = before.map (·.gist) ++ (step.entry s.node :: rest) ∧
            d.Yields T o (.signal s.node s.pending signal) result.context
              (step.entry s.node :: rest) result'.outcome result'.context := by
  have hd : d.Regular T o key :=
    ⟨p.orderly_of_compile registry hd, hblind, hT d.graph, hlimit, ho, hvisits⟩
  refine ⟨fun before p after hp => h.cut hd henv hp, fun s hs => ?_⟩
  obtain ⟨before, t, n, step, context₀, htrace, hnode, houtcome, hn, hkind, hpasses⟩ :=
    h.waited hd henv hs
  refine ⟨before, t, n, step, htrace, hnode, houtcome, hn, hkind, fun signal context' hanswers => ?_⟩
  have hahead : d.Ahead ((StartPoint.signal s.node s.pending signal).ahead d.root) :=
    hpasses.ahead (visits_along _ _ _ _ _) hd.orderly (Ahead.root hd.orderly)
  have hleaving := hd.leaving hT s.node context'
  have hroot : (d.leaving s.node context').Ahead
      (StartPoint.root.ahead (d.leaving s.node context').root) := Ahead.root hleaving.orderly
  have hleads (all : List Gist) (halt : Halt) (after : C) :
      ((d.leaving s.node context').does T o key).Leads none [d.root] context all halt after ↔
        ∃ entries, all = before.map (·.gist) ++ entries ∧ (d.does T o key).Leads (some (key signal))
          (s.node :: s.pending.reverse) result.context entries halt after :=
    leads_iff_leaving hd hT henv extra w hn hkind hanswers hpasses
  refine ⟨fun env' henv' extra' w' result' record' h' => ?_,
    fun env' henv' extra' w' result' record' h' => ?_⟩
  · exact .of_leads hleaving hroot ((hleads _ _ _).2 ⟨_, rfl, (h'.told hd henv' hahead).leads⟩)
  · obtain ⟨entries, hentries, hleads'⟩ := (hleads _ _ _).1 (h'.told hleaving henv' hroot).leads
    obtain ⟨rest, rfl, -⟩ := hleads'.of_onward hd.functional
      (visits_answer (fun _ => rfl) henv.recording.options extra (w, []) hd.blind hn hkind hanswers)
    exact ⟨rest, hentries, .of_leads hd hahead hleads'⟩

end Definition

/-! ### A number dialled in two runs -/

/-- The surroundings in which numbers are dialled. -/
def undisturbed : Environment Nat Unit Unit Unit :=
  { Environment.still Nat Unit with options := dialled.options }

/-- What a run in these surroundings comes to, and its checkpoints. -/
def dialledFrom (start : StartPoint) (context : Nat) :
    Option (RunResult Nat × List (Checkpoint Nat)) :=
  match (undisturbed.recording.run dialled.definition start context ()).advance (fun _ => true) 100
    ((), []) with
  | (some (_, some result), _, record) => some (result, record)
  | _ => none

theorem arrives_of_dialledFrom {start : StartPoint} {context : Nat} {result : RunResult Nat}
    {record : List (Checkpoint Nat)} (h : dialledFrom start context = some (result, record)) :
    dialled.definition.Arrives .inOrder undisturbed start context () () result record := by
  have hrefl (w : Unit × List (Checkpoint Nat)) : Unrecorded w w := rfl
  have hok (r : Report) (_ : true = true) : True := trivial
  have hgoes := Course.goes_advance hrefl hok 100
    (undisturbed.recording.run dialled.definition start context ()) ((), [])
  unfold dialledFrom at h
  split at h
  · next x result' v record' hend =>
    cases h
    rw [hend] at hgoes
    exact ⟨x, v, hgoes⟩
  · simp at h

/-- The number is dialled up to the enquiry. What is left after the first step is to come there again;
and given a digit, the run comes to its end as if nobody had waited for it. -/
theorem Definition.Arrives.continues_dialled : ∃ result record result' record',
    dialled.definition.Arrives .inOrder undisturbed .root 0 () () result record ∧
    dialled.definition.Arrives .inOrder undisturbed (.signal 1 [] ⟨"digit", .int 2, ⟨0, 0⟩⟩) 1 () ()
      result' record' ∧
    result.outcome = .suspended ⟨"digit", none, 1, []⟩ ∧ record.map (·.frontier) = [[1]] ∧
    dialled.definition.Yields (X := Unit) (ω := Unit) .inOrder dialled.options (.frontier [1]) 1
      [("enquiry", 1, .suspended "digit", 1)] (.suspended ⟨"digit", none, 1, []⟩) 1 ∧
    (dialled.definition.leaving 1 12).Yields (X := Unit) (ω := Unit) .inOrder dialled.options .root 0
      [("figure", 0, .succeeded, 1), ("enquiry", 1, .succeeded, 1), ("figure", 2, .succeeded, 1)]
      .completed 123 := by
  have hends : (dialledFrom .root 0).map (fun x => (x.1.outcome, x.1.context)) =
      some (.suspended ⟨"digit", none, 1, []⟩, 1) := by decide +kernel
  have htells : (dialledFrom .root 0).map (fun x => x.1.trace.map (·.gist)) =
      some [("figure", 0, .succeeded, 1), ("enquiry", 1, .suspended "digit", 1)] := by
    decide +kernel
  have hrecord : (dialledFrom .root 0).map (fun x =>
      x.2.map fun p => (p.frontier, p.context, p.trace.length)) = some [([1], 1, 1)] := by
    decide +kernel
  have hends' : (dialledFrom (.signal 1 [] ⟨"digit", .int 2, ⟨0, 0⟩⟩) 1).map (fun x =>
      (x.1.outcome, x.1.context)) = some (.completed, 123) := by decide +kernel
  have htells' : (dialledFrom (.signal 1 [] ⟨"digit", .int 2, ⟨0, 0⟩⟩) 1).map (fun x =>
      x.1.trace.map (·.gist)) =
      some [("enquiry", 1, .succeeded, 1), ("figure", 2, .succeeded, 1)] := by decide +kernel
  obtain ⟨⟨result, record⟩, hrun, heq⟩ := Option.map_eq_some_iff.1 hends
  obtain ⟨⟨result', record'⟩, hrun', heq'⟩ := Option.map_eq_some_iff.1 hends'
  obtain ⟨houtcome, hcontext⟩ := Prod.mk.inj heq
  obtain ⟨houtcome', hcontext'⟩ := Prod.mk.inj heq'
  rw [hrun, Option.map_some, Option.some.injEq] at htells hrecord
  rw [hrun', Option.map_some, Option.some.injEq] at htells'
  have henv : undisturbed.Unhindered dialled.options := ⟨rfl, fun _ => rfl⟩
  have harrives := arrives_of_dialledFrom hrun
  have harrives' := arrives_of_dialledFrom hrun'
  have hcompile : dialling.compile {} = .ok dialled.definition := rfl
  obtain ⟨hcut, hwait⟩ := Definition.Arrives.continues hcompile dialled_sound.blind
    (Schedule.inOrder_behavioural _) rfl rfl (by decide) henv harrives
  obtain ⟨p, rfl, hp⟩ := List.map_eq_singleton_iff.1 hrecord
  obtain ⟨hfrontier, hp⟩ := Prod.mk.inj hp
  obtain ⟨hleft, hlength⟩ := Prod.mk.inj hp
  refine ⟨result, [p], result', record', harrives, harrives', houtcome, by simp [hfrontier], ?_, ?_⟩
  · obtain ⟨rest, htrace, hyields⟩ := hcut [] p [] rfl
    obtain ⟨t, ht⟩ := List.length_eq_one_iff.1 hlength
    rw [htrace] at htells
    simp only [List.nil_append, List.flatMap_singleton, ht, List.singleton_append, List.map_cons,
      List.cons.injEq] at htells
    rw [hfrontier, hleft, htells.2, houtcome, hcontext] at hyields
    exact hyields
  · obtain ⟨before, t, n, step, htrace, hnode, hwaits, hn, hkind, hanswered⟩ := hwait _ houtcome
    cases hn
    cases hkind
    have hanswers : enquiry.Answers ⟨"digit", .int 2, ⟨0, 0⟩⟩ 1 12 :=
      ⟨(), (), .success, .single (.act _ _ (1, ())), rfl⟩
    rw [htrace, List.map_append, List.map_singleton] at htells
    have hall : before.map (·.gist) ++ [t.gist] = [("figure", 0, .succeeded, 1)] ++
      [("enquiry", 1, .suspended "digit", 1)] := htells
    obtain ⟨hbefore, -⟩ := List.append_inj' hall rfl
    obtain ⟨hsignalled, -⟩ := hanswered _ 12 (hcontext ▸ hanswers)
    have hyields := hsignalled undisturbed henv () () result' record' (hcontext ▸ harrives')
    rw [hbefore, htells', houtcome', hcontext'] at hyields
    exact hyields

end DurableWorkflow
