import DurableWorkflow.Proofs.Run.Accounts
import DurableWorkflow.Proofs.Run.Pledges

/-!
# The events of a run

A run publishes that it begins, then what becomes of steps and nothing else, and in the end what its
result says; if it was cancelled, nothing more (`run_streams`). That a run waits is published by its
main walk, with the act that brings it to its report. So a run that was late before that has not said
so, and what waits in a branch is never heard of as a wait of the run.

A step that was said to be tried again is heard of again (`run_renews`), unless its entry says that
it waits.
-/

namespace DurableWorkflow

variable {σ ρ α C H X ω : Type}

/-! ### The last act of a walk -/

/-- Each action of the walk is a `Q`, but an action that brings it to its report `r` may be an `E r`
instead. -/
def Walk.Signs (Q : σ → σ → Prop) (E : ρ → σ → σ → Prop) : Walk σ ρ → Prop
  | .done r => ∀ s, E r s s
  | .act f rest => ∀ s, Q s (f s) ∧ (rest s).Signs Q E ∨ ∃ r, rest s = .done r ∧ E r s (f s)
  | .pause _ rest => ∀ cancelled, (rest cancelled).Signs Q E
  | .call _ work rest => work.Keeps Q ∧ ∀ e, (rest e).Signs Q E
  | .fork branches rest => allKeep Q branches ∧ ∀ rs, (rest rs).Signs Q E

variable {drift Q : σ → σ → Prop} {E : ρ → σ → σ → Prop}

namespace Walk.Signs

theorem step {x y : Walk σ ρ × σ} (h : Step x y) (hx : x.1.Signs Q E) :
    (y.2 = x.2 ∨ Q x.2 y.2) ∧ y.1.Signs Q E ∨ ∃ r, y.1 = .done r ∧ E r x.2 y.2 := by
  cases h with
  | act f rest s =>
    obtain ⟨hact, hrest⟩ | hlast := hx s
    · exact .inl ⟨.inr hact, hrest⟩
    · exact .inr hlast
  | pause d rest cancelled s => exact .inl ⟨.inl rfl, hx cancelled⟩
  | work h =>
    obtain ⟨hs, hwork⟩ := Work.Keeps.step h hx.1
    exact .inl ⟨hs, hwork, hx.2⟩
  | done | crash | late | cancel => exact .inl ⟨.inl rfl, hx.2 _⟩
  | branch before after h =>
    obtain ⟨hall, hrest⟩ := hx
    obtain ⟨hw, hothers⟩ := (allKeep_around before).1 hall
    obtain ⟨hs, hw'⟩ := Walk.Keeps.step h hw
    exact .inl ⟨hs, (allKeep_around before).2 ⟨hw', hothers⟩, hrest⟩
  | report before after r =>
    obtain ⟨hall, hrest⟩ := hx
    exact .inl ⟨.inl rfl, ((allKeep_around before).1 hall).2, fun rs => hrest (r :: rs)⟩
  | join => exact .inl ⟨.inl rfl, hx.2 []⟩

/-- Until it has come to its report a walk among others has only done what is a `Q`. -/
theorem moves (hQ : Spans drift Q) (hleft : ∀ {r s t u}, Q s t → E r t u → E r s u)
    (hright : ∀ {r s t u}, E r s t → drift t u → E r s u) {x y : Walk σ ρ × σ}
    (h : Moves drift Step x y) (hx : x.1.Signs Q E) :
    Q x.2 y.2 ∧ y.1.Signs Q E ∨ ∃ r, y.1 = .done r ∧ E r x.2 y.2 := by
  induction h with
  | refl => exact .inl ⟨hQ.refl _, hx⟩
  | @tail y z _ hmove ih =>
    obtain ⟨path, t⟩ := y
    obtain ⟨hs, hwalk⟩ | ⟨r, rfl, hs⟩ := ih
    · obtain hstep | ⟨hsame, hdrift⟩ := hmove
      · obtain ⟨hact, hwalk'⟩ | ⟨r, hdone, hact⟩ := step hstep hwalk
        · obtain hact | hact := hact
          · exact .inl ⟨hact ▸ hs, hwalk'⟩
          · exact .inl ⟨hQ.trans hs hact, hwalk'⟩
        · exact .inr ⟨r, hdone, hleft hs hact⟩
      · exact .inl ⟨hQ.trans hs (hQ.drift hdrift), hsame ▸ hwalk⟩
    -- A walk that has come to its report does nothing more.
    · obtain hstep | ⟨hsame, hdrift⟩ := hmove
      · cases hstep
      · exact .inr ⟨r, hsame, hright hs hdrift⟩

end Walk.Signs

/-- A walk that begins with the piece. -/
theorem Piece.Keeps.signs {P : ρ → Prop} {p : Piece σ ρ α} (hp : p.Keeps P Q)
    (hP : ∀ r, P r → ∀ s, E r s s) {k : α → Walk σ ρ} (hk : ∀ a, (k a).Signs Q E) :
    (p k).Signs Q E := by
  induction hp with
  | pure a => exact hk a
  | bind _ _ ihp ihf => exact ihp fun a => ihf a hk
  | halt h => exact hP _ h
  | update h => exact fun s => .inl ⟨h s, hk _⟩
  | pause d => exact fun cancelled => hk cancelled
  | call limit h => exact ⟨h, hk⟩
  | fork h => exact ⟨(allKeep_iff _).2 h, hk⟩

/-! ### What is said -/

/-- The node whose step was published of. -/
def Happening.stepNode? : Happening → Option NodeId
  | .stepCompleted node .. | .stepFailed node .. => some node
  | _ => none

/-- What the main walk says when it comes to this report. -/
def Report.word (r : Report) : List Happening :=
  match r.halt with
  | .suspended s => [.runSuspended s.node s.signal]
  | _ => []

namespace Environment

/-- What a run says in the end. -/
def lastWord (d : Definition C H) : Option (RunResult C) → List Happening
  | none => []
  | some result =>
    match result.outcome with
    | .completed => [.runCompleted d.id result.metrics.durationMillis result.metrics.executed]
    | .failed f => [.runFailed d.id f.text]
    | .suspended s => [.runSuspended s.node s.signal]

theorem lastWord_eq {d : Definition C H} {report : Option Report} {result : RunResult C}
    (h : outcome d report = some result.outcome) :
    lastWord d (some result) =
      report.elim [] Report.word ++ (ending d result.metrics result.outcome).toList := by
  cases report with
  | none =>
    have houtcome := (Option.some.inj h).symm
    simp only [lastWord, houtcome, ending]
    rfl
  | some r =>
    obtain ⟨hcompleted, hfailed, hsuspended⟩ := halt_of_outcome h
    cases houtcome : result.outcome with
    | completed => simp [lastWord, ending, Report.word, houtcome, hcompleted houtcome]
    | failed f => simp [lastWord, ending, Report.word, houtcome, hfailed f houtcome]
    | suspended s => simp [lastWord, ending, Report.word, houtcome, hsuspended s houtcome]

/-- A run that ends without a result has had no word. -/
theorem word_of_outcome {d : Definition C H} {report : Option Report}
    (h : outcome d report = none) : report.elim [] Report.word = [] := by
  cases report with
  | none => rfl
  | some r => cases hhalt : r.halt <;> simp_all [outcome, Report.word]

theorem stepNode?_lastWord {d : Definition C H} {result? : Option (RunResult C)} {what : Happening}
    (h : what ∈ lastWord d result?) : what.stepNode? = none := by
  unfold lastWord at h
  split at h
  · simp at h
  · split at h <;> obtain rfl := List.mem_singleton.1 h <;> rfl

variable {env : Environment C H X ω} {g : Graph C H} {words : List Happening}
  {w v u : ω × List Event}

/-- The run has published something of steps in between, and then these words. -/
def Utters (env : Environment C H X ω) (words : List Happening) (w v : ω × List Event) : Prop :=
  ∃ l, (∀ what ∈ l, what.isOfStep = true) ∧ v.2 = w.2 ++ (l ++ words).map (Event.mk env.runId)

namespace Utters

theorem now (h : v.2 = w.2 ++ words.map (Event.mk env.runId)) : env.Utters words w v :=
  ⟨[], by simp, h⟩

theorem nothing (h : v.2 = w.2) : env.Utters [] w v := now (by simpa using h)

theorem trans (h : env.Utters [] w v) (h' : env.Utters words v u) : env.Utters words w u := by
  obtain ⟨l, hl, hv⟩ := h
  obtain ⟨l', hl', hu⟩ := h'
  refine ⟨l ++ l', fun what hwhat => ?_, by simp [hu, hv]⟩
  rcases List.mem_append.1 hwhat with hwhat | hwhat
  · exact hl what hwhat
  · exact hl' what hwhat

theorem unheard (h : env.Utters words w v) (h' : Unheard v u) : env.Utters words w u := by
  obtain ⟨l, hl, hv⟩ := h
  exact ⟨l, hl, h'.trans hv⟩

end Utters

theorem spans_utters (env : Environment C H X ω) :
    Spans (Beside Unheard) fun s t : Board C H X × ω × List Event => env.Utters [] s.2 t.2 :=
  ⟨fun _ => .nothing rfl, .trans, fun h => .nothing h.2⟩

theorem inVisit_utters (env : Environment C H X ω) (g : Graph C H) :
    env.listening.InVisit g fun s t => env.Utters [] s.2 t.2 where
  board _ _ _ _ := .nothing rfl
  enter _ _ _ _ _ := .nothing rfl
  announce _ what w hwhat :=
    ⟨[what], fun what' h => by rwa [List.mem_singleton.1 h], by simp [listening, announce]⟩
  memory _ _ _ _ := .nothing rfl

/-- Steps are all that the walk of a branch tells of. -/
theorem walkBranch_utters (env : Environment C H X ω) (g : Graph C H) (fuel : Nat)
    (nodes : List NodeId) (trace : List StepTrace) :
    (env.listening.walkBranch g fuel nodes trace).Keeps fun s t => env.Utters [] s.2 t.2 :=
  walkBranch_keeps (inVisit_utters env g) fuel nodes trace

/-- Steps are all that the walk tells of, until it comes to its report and says its word. -/
abbrev Speaks (env : Environment C H X ω) : Walk (Board C H X × ω × List Event) Report → Prop :=
  Walk.Signs (fun s t => env.Utters [] s.2 t.2) fun r s t => env.Utters r.word s.2 t.2

theorem word_of_stopped {r : Report} (h : r.Stopped) : r.word = [] := by
  have hhalt : r.halt = .cancelled := beq_iff_eq.1 h
  simp [Report.word, hhalt]

theorem stopped_utters {r : Report} (h : r.Stopped) (s : Board C H X × ω × List Event) :
    env.Utters r.word s.2 s.2 := by
  rw [word_of_stopped h]
  exact .nothing rfl

theorem pass_speaks (node : NodeId) (ahead : List NodeId) (v : Visited)
    {next : List NodeId → Walk (Board C H X × ω × List Event) Report}
    (hnext : ∀ nodes, env.Speaks (next nodes)) :
    env.Speaks (env.listening.pass node ahead v next) := by
  refine fun s => .inl ⟨.nothing rfl, ?_⟩
  split
  · refine fun s => .inl ⟨?_, ?_⟩
    · simp only
      split
      · next hsave => exact .nothing (listening_save hsave)
      · exact .nothing rfl
    · simp only
      split
      · exact hnext _
      · exact fun s => .nothing rfl
  · exact fun s => .nothing rfl
  · exact fun s => .inr ⟨_, rfl, .now rfl⟩

theorem walkMain_speaks (fuel : Nat) (nodes : List NodeId) :
    env.Speaks (env.listening.walkMain g fuel nodes) := by
  induction fuel generalizing nodes with
  | zero => cases nodes <;> exact fun s => .nothing rfl
  | succ fuel ih =>
    cases nodes with
    | nil => exact fun s => .nothing rfl
    | cons node ahead =>
      rw [walkMain]
      have hbranch (child : NodeId) := walkBranch_utters env g fuel [child] []
      exact (visit_keeps (inVisit_utters env g) hbranch node).signs (fun _ => stopped_utters) fun v =>
        pass_speaks node ahead v ih

theorem traverse_speaks (d : Definition C H) (start : StartPoint) :
    env.Speaks (env.listening.traverse d start) := by
  cases start with
  | root => exact walkMain_speaks _ _
  | frontier nodes => exact walkMain_speaks _ _
  | signal node pending signal =>
    exact (deliver_keeps (inVisit_utters env d.graph) node signal).signs (fun _ => stopped_utters)
      fun v => pass_speaks node _ v fun nodes => walkMain_speaks _ nodes

end Environment

/-! ### What will be heard of again -/

/-- The nodes whose steps will be heard of again, once this was published. -/
def Happening.renew (nodes : Multiset NodeId) : Happening → Multiset NodeId
  | .stepFailed node _ _ true => node ::ₘ nodes.erase node
  | .stepFailed node _ _ false | .stepCompleted node .. => nodes.erase node
  | _ => nodes

/-- The nodes whose steps were last heard of to be tried again. -/
def awaited (events : List Event) : Multiset NodeId :=
  events.foldl (fun nodes e => e.what.renew nodes) 0

theorem awaited_concat (events : List Event) (e : Event) :
    awaited (events ++ [e]) = e.what.renew (awaited events) := by
  simp [awaited]

theorem Happening.mem_renew {node : NodeId} {nodes : Multiset NodeId} {what : Happening}
    (h : node ∈ nodes) (hother : what.stepNode? ≠ some node) : node ∈ what.renew nodes := by
  have herase {other : NodeId} (hwhat : what.stepNode? = some other) : node ∈ nodes.erase other :=
    (Multiset.mem_erase_of_ne fun heq => hother (by rw [hwhat, heq])).2 h
  unfold renew
  split
  · exact Multiset.mem_cons_of_mem (herase rfl)
  · exact herase rfl
  · exact herase rfl
  · exact h

/-- A step that was said to be tried again, and of which nothing was heard since, is awaited. -/
theorem mem_awaited {run : Uuid} {node : NodeId} {step error : String} {before after : List Event}
    (h : ∀ e ∈ after, e.what.stepNode? ≠ some node) :
    node ∈ awaited (before ++ ⟨run, .stepFailed node step error true⟩ :: after) := by
  have hkept {nodes : Multiset NodeId} (hnode : node ∈ nodes) :
      node ∈ after.foldl (fun nodes e => e.what.renew nodes) nodes := by
    induction after generalizing nodes with
    | nil => exact hnode
    | cons e after ih =>
      obtain ⟨he, hafter⟩ := List.forall_mem_cons.1 h
      exact ih hafter (Happening.mem_renew hnode he)
  rw [awaited, List.foldl_append]
  exact hkept (Multiset.mem_cons_self _ _)

namespace Environment

/-- Held for a step at the node after so many attempts. -/
def renewed (node : NodeId) (n : Nat) : Multiset NodeId := if n = 0 then 0 else {node}

theorem erase_le_of_renewed {nodes a : Multiset NodeId} {node : NodeId} {n : Nat}
    (h : nodes ≤ a + renewed node n) : nodes.erase node ≤ a := by
  unfold renewed at h
  split at h
  · exact (Multiset.erase_le _ _).trans (h.trans_eq (add_zero a))
  · rw [Multiset.erase_le_iff_le_cons, ← Multiset.singleton_add, add_comm]
    exact h

/-- Each step that is awaited is to be heard of again, or to wait. -/
def renewals (C H X ω : Type) : Pledge C H X (ω × List Event) NodeId where
  asked s := awaited s.2.2
  stakes node _ :=
    { held := renewed node
      again _ := {node}
      lost _ := 0
      entered := renewed node
      entry outcome attempts :=
        match outcome with
        | .suspended _ => renewed node (attempts - 1)
        | .succeeded | .failed .. => 0 }

theorem awaited_announce (env : Environment C H X ω) (what : Happening) (w : ω × List Event) :
    awaited (env.listening.announce what w).2 = what.renew (awaited w.2) :=
  awaited_concat w.2 ⟨env.runId, what⟩

theorem renewals_honoured (env : Environment C H X ω) :
    env.listening.Honours (renewals C H X ω) where
  stands node s :=
    { failure _ _ _ := Pledge.trades_of_still fun _ => ⟨rfl, rfl⟩
      success _ := Pledge.trades_of_still fun _ => ⟨rfl, rfl⟩
      completed n _ := by
        refine Pledge.trades (fun _ => rfl) fun b a h => ?_
        refine (awaited_announce env _ b.2).trans_le ?_
        exact (erase_le_of_renewed h).trans_eq (add_zero a).symm
      suspended _ _ := rfl
      first := rfl
      again n error := by
        refine Pledge.trades (fun _ => rfl) fun b a h => ?_
        refine (awaited_announce env _ b.2).trans_le ?_
        calc node ::ₘ (awaited b.2.2).erase node
            ≤ node ::ₘ a := (Multiset.cons_le_cons_iff node).2 (erase_le_of_renewed h)
          _ = a + {node} := by rw [← Multiset.singleton_add, add_comm]
      retry _ := Pledge.trades_of_still fun _ => ⟨rfl, rfl⟩
      gaveUp n error := by
        refine Pledge.trades (fun _ => rfl) fun b a h => ?_
        refine (awaited_announce env _ b.2).trans_le ?_
        exact (erase_le_of_renewed h).trans_eq (add_zero a).symm }
  lost _ _ := rfl
  board _ _ _ _ := rfl
  memory _ _ _ := rfl
  save hsave := congrArg awaited (listening_save hsave)
  suspended node signal _ w := awaited_announce env (.runSuspended node signal) w

variable {env : Environment C H X ω} {d : Definition C H} {start : StartPoint} {context : C}
  {extra extra' : X} {w v : ω} {events : List Event} {result : RunResult C}
  {result? : Option (RunResult C)}

/-- Where a run has come to a result and was not late, a step that is still awaited has an entry that
says that it waits, after more than one attempt. -/
theorem run_renews (h : Moves Unheard Course.Step
      (env.listening.run d start context extra, w, []) (.done (extra', some result), v, events))
    (htime : ¬result.IsLate d) {node : NodeId} (hnode : node ∈ awaited events) :
    ∃ t ∈ result.trace, t.node = node ∧ (∃ signal, t.outcome = .suspended signal) ∧
      2 ≤ t.attempts := by
  have houtside : env.listening.Outside Unheard fun w v => awaited v.2 = awaited w.2 :=
    ⟨⟨⟨fun _ => rfl, fun hst htu => htu.trans hst, fun h => congrArg awaited h⟩, fun _ _ => rfl⟩,
      fun _ w => awaited_announce env _ w, fun _ _ _ w => awaited_announce env _ w,
      fun _ _ w => awaited_announce env _ w⟩
  obtain ⟨u, t, path, board, report, hbegin, hend, hpasses⟩ := run_passes houtside h
  have hanswered := (renewals_honoured env).run_answers (fun h => congrArg awaited h) hbegin hpasses
    htime
  have hasked : node ∈ awaited t.2 := by rwa [← hend]
  obtain ⟨entry, hentry, hgiven⟩ := Pledge.mem_answered.1 (Multiset.mem_of_le hanswered hasked)
  refine ⟨entry, hentry, ?_⟩
  simp only [Pledge.given, renewals] at hgiven
  split at hgiven
  · next signal hsignal =>
    unfold renewed at hgiven
    split at hgiven
    · simp at hgiven
    · next hattempts =>
      exact ⟨(Multiset.mem_singleton.1 hgiven).symm, ⟨signal, hsignal⟩, by omega⟩
  · simp at hgiven
  · simp at hgiven

/-! ### The stream -/

/-- What a run has published that has come to its end. -/
structure Streams (env : Environment C H X ω) (d : Definition C H) (result? : Option (RunResult C))
    (l : List Happening) (events : List Event) : Prop where
  steps : ∀ what ∈ l, what.isOfStep = true
  events : events = (.runStarted d.id :: l ++ lastWord d result?).map (Event.mk env.runId)
  /-- What will be tried again is heard of again, unless the run is cancelled, is late, or the step
  waits. -/
  again : ∀ before node step error after, l = before ++ .stepFailed node step error true :: after →
    (∃ what ∈ after, what.stepNode? = some node) ∨ result? = none ∨
      ∃ result, result? = some result ∧ (result.IsLate d ∨ ∃ t ∈ result.trace, t.node = node ∧
        (∃ signal, t.outcome = .suspended signal) ∧ 2 ≤ t.attempts)

/-- What a run has said that has come to its end. -/
theorem run_utters (h : Moves Unheard Course.Timely
      (env.listening.run d start context extra, w, []) (.done (extra', result?), v, events)) :
    ∃ l : List Happening, (∀ what ∈ l, what.isOfStep = true) ∧
      events = (.runStarted d.id :: l ++ lastWord d result?).map (Event.mk env.runId) := by
  have hdrifts {s t : ω × List Event} (h : Drifts Unheard s t) : t.2 = s.2 := by
    induction h with
    | refl => rfl
    | tail _ hst ih => exact hst.trans ih
  obtain ⟨u, hu, h⟩ := Course.Timely.act h
  obtain ⟨u', hu', h⟩ := Course.Timely.act h
  obtain ⟨path, board, t, report, hwalked, hended, -, hcomes⟩ := Course.Timely.walk_comes h
  have hwalk : env.Utters (report.elim [] Report.word)
      (env.listening.announce (.runStarted d.id) u') t := by
    obtain ⟨hsaid, hleft⟩ | ⟨r, rfl, hsaid⟩ :=
      Walk.Signs.moves (spans_utters env) .trans (fun h hst => h.unheard hst.2) hwalked
        (traverse_speaks d start)
    · cases report with
      | none => exact hsaid
      | some r =>
        obtain rfl := (hended r).2 rfl
        exact hsaid.trans (hleft (board, t))
    · obtain rfl := (hended r).1 rfl
      exact hsaid
  obtain ⟨l, hl, ht⟩ := hwalk
  have hstarted : (env.listening.announce (.runStarted d.id) u').2 =
      [⟨env.runId, .runStarted d.id⟩] := by
    simp [listening, announce, hdrifts hu', hdrifts hu]
  rw [hstarted] at ht
  refine ⟨l, hl, ?_⟩
  simp only at hcomes
  split at hcomes
  · exact hcomes.not_crash.elim
  · next hnone =>
    obtain ⟨hresult, hlast⟩ := hcomes.done
    cases hresult
    have hevents : events = t.2 := hdrifts hlast
    rw [hevents, ht, word_of_outcome hnone]
    rfl
  · next o _ ho =>
    have haside : env.listening.Aside Unheard Unheard :=
      ⟨⟨fun _ => rfl, fun hst htu => htu.trans hst, id⟩, fun _ _ => rfl⟩
    obtain ⟨result, rfl, rfl, -, -, -, s, hts, hend⟩ := conclude_comes haside hcomes
    have hs : s.2 = t.2 := hts
    have hevents : events = ((ending d result.metrics result.outcome).elim s
      (env.listening.announce · s)).2 := hend
    rw [hevents, lastWord_eq ho]
    cases ending d result.metrics result.outcome with
    | none => simp [hs, ht]
    | some what => simp [listening, announce, hs, ht]

/-- A run that has come to its end has said no more than it should, and has kept its word on what
would be tried again. Of its branches only steps are heard. -/
theorem run_streams (h : Moves Unheard Course.Timely
      (env.listening.run d start context extra, w, []) (.done (extra', result?), v, events)) :
    (∃ l, env.Streams d result? l events) ∧
      ∀ fuel nodes trace, (env.listening.walkBranch d.graph fuel nodes trace).Keeps
        fun s t => env.Utters [] s.2 t.2 := by
  obtain ⟨l, hl, hevents⟩ := run_utters h
  refine ⟨⟨l, hl, hevents, fun before node step error after hsplit => ?_⟩,
    walkBranch_utters env d.graph⟩
  by_cases hheard : ∃ what ∈ after, what.stepNode? = some node
  · exact .inl hheard
  right
  cases result? with
  | none => exact .inl rfl
  | some result =>
    refine .inr ⟨result, rfl, or_iff_not_imp_left.2 fun htime => ?_⟩
    refine run_renews (Course.Timely.moves h) htime ?_
    have hlater : ∀ what ∈ after ++ lastWord d (some result), what.stepNode? ≠ some node := by
      intro what hwhat hnode
      rcases List.mem_append.1 hwhat with hwhat | hwhat
      · exact hheard ⟨what, hwhat, hnode⟩
      · rw [stepNode?_lastWord hwhat] at hnode
        cases hnode
    have hparts : events = (.runStarted d.id :: before).map (Event.mk env.runId) ++
        ⟨env.runId, .stepFailed node step error true⟩ ::
          (after ++ lastWord d (some result)).map (Event.mk env.runId) := by
      rw [hevents, hsplit]
      simp
    rw [hparts]
    exact mem_awaited (List.forall_mem_map.2 hlater)

/-- The call is heard of twice, and the wait for the taxi last. -/
theorem run_streams_journey : ∃ (result : RunResult Nat) (events : List Event) (l : List Happening),
    Moves Unheard Course.Timely (quietly.listening.run journey .root 0 (), (), [])
      (.done ((), some result), (), events) ∧
    result.metrics.retries = 1 ∧ quietly.Streams journey (some result) l events ∧
    lastWord journey (some result) = [.runSuspended 3 "honk"] := by
  have hend : ((quietly.listening.run journey .root 0 ()).inOrder (((), []), [])).bind
      (fun x => (result? x.1).map fun result =>
        (result.metrics.retries, lastWord journey (some result))) =
        some (1, [.runSuspended 3 "honk"]) := by decide +kernel
  obtain ⟨⟨⟩, result, ⟨⟨⟩, events⟩, hmoves, hsaid⟩ := exists_timely_of_inOrder hend Unheard
  obtain ⟨hretries, hword⟩ := Prod.mk.inj hsaid
  obtain ⟨⟨l, hstreams⟩, -⟩ := run_streams hmoves
  exact ⟨result, events, l, hmoves, hretries, hstreams, hword⟩

end Environment

end DurableWorkflow
