import DurableWorkflow.Proofs.Continue.Leads
import DurableWorkflow.Proofs.Run.Captured
import DurableWorkflow.Proofs.Run.Thrift

/-!
# What recorded runs tell

A recorded run that comes to an end without a crash leaves its entries and its checkpoints. The
entries are those that its nodes lead to; and at each checkpoint some nodes have been passed, with the
entries of the checkpoints so far (`traverse_told`).
-/

namespace DurableWorkflow

variable {C H X ω κ : Type}

/-- The signal with which a run begins. -/
def StartPoint.signal? : StartPoint → Option Signal
  | .root | .frontier _ => none
  | .signal _ _ given => some given

/-- These entries and these checkpoints are left on the way on which a context leads. -/
structure Doings.Tells (does : Doings C κ) (k : Option κ) (nodes : List NodeId) (context : C)
    (entries : List StepTrace) (record : List (Checkpoint C)) (halt : Halt) (context' : C) : Prop where
  leads : does.Leads k nodes context (entries.map (·.gist)) halt context'
  passes : ∀ before p after, record = before ++ p :: after →
    ∃ rest, entries = (before ++ [p]).flatMap (·.trace) ++ rest ∧
      does.Passes k nodes context (((before ++ [p]).flatMap (·.trace)).map (·.gist))
        p.frontier.reverse p.context

namespace Doings.Tells

variable {does : Doings C κ} {k : Option κ} {node : NodeId} {ahead nodes : List NodeId}
  {context context' context'' : C} {entries : List StepTrace} {record : List (Checkpoint C)}
  {halt : Halt} {v : Visited}

theorem of_leads (h : does.Leads k nodes context (entries.map (·.gist)) halt context') :
    does.Tells k nodes context entries [] halt context' :=
  ⟨h, by simp⟩

theorem onward (hdoes : does node k context (v.gist.1, .onward nodes) context')
    (h : does.Tells none (nodes ++ ahead) context' entries record halt context'') :
    does.Tells k (node :: ahead) context (v.trace ++ entries)
      (⟨context', (nodes ++ ahead).reverse, v.trace⟩ :: record) halt context'' where
  leads := by
    rw [List.map_append]
    exact .onward hdoes h.leads
  passes before p after heq := by
    -- The checkpoint is the one behind this node, or a later one.
    cases before with
    | nil =>
      cases heq
      refine ⟨entries, by simp, ?_⟩
      have hpasses :
          does.Passes k (node :: ahead) context (v.gist.1 ++ []) (nodes ++ ahead) context' :=
        .next hdoes (.here _ _)
      simpa [Visited.gist] using hpasses
    | cons p₀ before =>
      obtain ⟨rfl, hrecord⟩ := List.cons.inj heq
      obtain ⟨rest, rfl, hpasses⟩ := h.passes before p after hrecord
      refine ⟨rest, by simp, ?_⟩
      have hpasses := Passes.next hdoes hpasses
      simpa [Visited.gist] using hpasses

end Doings.Tells

/-! ### Recorded walks -/

/-- What has been added to the entries and to the record tells of the way from a context. -/
def Doings.Told (does : Doings C κ) (k : Option κ) (nodes : List NodeId) (context : C)
    (s t : Board C H X × ω × List (Checkpoint C)) (halt : Halt) : Prop :=
  ∃ entries record, t.1.ledger.trace = s.1.ledger.trace ++ entries ∧ t.2.2 = s.2.2 ++ record ∧
    does.Tells k nodes context entries record halt t.1.context

theorem Doings.Told.ends {does : Doings C κ} {k : Option κ} {nodes : List NodeId} {context : C}
    {entries : List StepTrace} {s t : Board C H X × ω × List (Checkpoint C)} {halt : Halt}
    (htrace : t.1.ledger.trace = s.1.ledger.trace ++ entries) (hcontext : t.1.context = s.1.context)
    (hrecord : t.2.2 = s.2.2)
    (h : does.Leads k nodes context (entries.map (·.gist)) halt s.1.context) :
    does.Told k nodes context s t halt := by
  refine ⟨entries, [], htrace, by rw [hrecord, List.append_nil], .of_leads ?_⟩
  rw [hcontext]
  exact h

/-- By the schedule the walk comes to this report, and no checkpoint was fatal. -/
def Walk.Arrives {σ : Type} (drift : σ → σ → Prop) (T : Schedule σ Report) (o : RunOptions)
    (w : Walk σ Report) (s : σ) (r : Report) (t : σ) : Prop :=
  Walk.Goes drift T (Report.Fair o) (w, s) (some r, t) ∧ r.crash? = none

namespace Environment

variable {env : Environment C H X ω} {T : Schedule (Board C H X × ω × List (Checkpoint C)) Report}
  {o : RunOptions} {g : Graph C H} {key : Signal → κ} {k : Option κ} {node : NodeId}
  {ahead : List NodeId} {context : C} {s t u : Board C H X × ω × List (Checkpoint C)} {r : Report}
  {next : List NodeId → Walk (Board C H X × ω × List (Checkpoint C)) Report}

/-- Nothing that happens at a node touches the entries of the main walk or the record. -/
theorem recording_around (env : Environment C H X ω) (g : Graph C H) :
    env.recording.Around g fun s t : Board C H X × ω × List (Checkpoint C) =>
      t.1.ledger.trace = s.1.ledger.trace ∧ t.2.2 = s.2.2 where
  board _ _ _ h := ⟨h.trace, rfl⟩
  enter _ _ _ _ _ := ⟨rfl, rfl⟩
  publish _ _ _ _ := ⟨rfl, rfl⟩
  memory _ _ _ _ := ⟨rfl, rfl⟩

theorem unrecorded_spans : Spans (Beside Unrecorded)
    fun s t : Board C H X × ω × List (Checkpoint C) =>
      t.1.ledger.trace = s.1.ledger.trace ∧ t.2.2 = s.2.2 where
  refl _ := ⟨rfl, rfl⟩
  trans h h' := ⟨h'.1.trans h.1, h'.2.trans h.2⟩
  drift h := ⟨by rw [h.1], h.2⟩

/-- A walk that comes to its end has passed no node that was refused. -/
theorem pass_not_refused {v : Visited}
    (h : (env.recording.pass node ahead v next).Arrives (Beside Unrecorded) T o s r t) :
    ¬v.Refused o := by
  rintro ⟨f, hturn, hrefusal⟩
  obtain ⟨h, -⟩ := h
  cases h with
  | act _ h =>
    simp only [hturn] at h
    cases h with
    | done _ hfair => exact hfair.2 f rfl hrefusal

theorem pass_told {does : Doings C κ} {v : Visited}
    (hdoes : does node k context (v.gist.1, v.turn) s.1.context)
    (hnext : ∀ nodes s, (next nodes).Arrives (Beside Unrecorded) T o s r t →
      does.Told none nodes s.1.context s t r.halt)
    (h : (env.recording.pass node ahead v next).Arrives (Beside Unrecorded) T o s r t) :
    does.Told k (node :: ahead) context s t r.halt := by
  obtain ⟨h, hcrash⟩ := h
  cases h with
  | @act _ _ _ x _ hdrift h =>
    obtain ⟨b, w⟩ := x
    obtain ⟨rfl, hrecord⟩ : b = s.1 ∧ w.2 = s.2.2 := hdrift
    simp only at h
    cases hturn : v.turn with
    | onward nodes =>
      rw [hturn] at hdoes
      simp only [hturn] at h
      cases h with
      | @act _ _ _ y _ hdrift h =>
        obtain ⟨b, w'⟩ := y
        obtain ⟨rfl, hrecord'⟩ : b = _ ∧ w'.2 = w.2 := hdrift
        simp only [recording] at h
        cases hsave : env.save ⟨s.1.context, (nodes ++ ahead).reverse, v.trace⟩ (s.1.extra, w'.1) with
        | error m =>
          simp only [hsave, Except.map] at h
          cases h with
          | done => simp [Report.crash?] at hcrash
        | ok saved =>
          simp only [hsave, Except.map] at h
          obtain ⟨entries, record, htrace, hall, htells⟩ := hnext _ _ ⟨h, hcrash⟩
          refine ⟨v.trace ++ entries, _ :: record, ?_, ?_, htells.onward hdoes⟩
          · rw [htrace, List.append_assoc]
          · rw [hall, hrecord', hrecord, List.append_assoc]
            rfl
    | failed f =>
      rw [hturn] at hdoes
      simp only [hturn] at h
      cases h with
      | done hdrift =>
        obtain ⟨hboard, hrecord'⟩ := hdrift
        exact .ends (by rw [hboard]) (by rw [hboard]) (hrecord'.trans hrecord) (.failed hdoes)
    | suspended signal limit =>
      rw [hturn] at hdoes
      simp only [hturn] at h
      cases h with
      | @act _ _ _ y _ hdrift h =>
        obtain ⟨b, w'⟩ := y
        obtain ⟨rfl, hrecord'⟩ : b = _ ∧ w'.2 = w.2 := hdrift
        cases h with
        | done hdrift =>
          obtain ⟨hboard, hrecord''⟩ := hdrift
          exact .ends (by rw [hboard]) (by rw [hboard])
            (hrecord''.trans (hrecord'.trans hrecord)) (.suspended hdoes)

theorem handle_told (henv : env.recording.options = o) (fuel : Nat) (signal : Option Signal)
    (hnext : ∀ nodes s, (next nodes).Arrives (Beside Unrecorded) T o s r t →
      (visits (Beside Unrecorded) T o g key).Told none nodes s.1.context s t r.halt)
    (h : Walk.Arrives (Beside Unrecorded) T o
      (env.recording.handle g fuel node signal fun v => env.recording.pass node ahead v next) s r t) :
    (visits (Beside Unrecorded) T o g key).Told (signal.map key) (node :: ahead) s.1.context s t
      r.halt := by
  obtain ⟨h, hcrash⟩ := h
  obtain ⟨hnone, -⟩ | ⟨v, u, ⟨htrace, hrecord⟩, hreaches, h⟩ :=
    (handle_keeps (env.recording_around g) fuel node signal).splits unrecorded_spans
      (fun _ hr => hr.not_fair) h
  · simp at hnone
  · have h : Walk.Arrives (Beside Unrecorded) T o _ u r t := ⟨h, hcrash⟩
    have hdoes : visits (Beside Unrecorded) T o g key node (signal.map key) s.1.context v.gist
        u.1.context := visits_of_reaches (fun _ => ⟨rfl, rfl⟩) henv hreaches (pass_not_refused h)
    have htold := pass_told hdoes hnext h
    unfold Doings.Told at htold
    rwa [htrace, hrecord] at htold

theorem drained_told (does : Doings C κ)
    (h : Walk.Arrives (Beside Unrecorded) T o (.done { halt := .drained }) s r t) :
    does.Told none [] s.1.context s t r.halt := by
  obtain ⟨h, -⟩ := h
  cases h with
  | done hdrift =>
    obtain ⟨hboard, hrecord⟩ := hdrift
    have hleads : does.Leads none [] s.1.context (([] : List StepTrace).map (·.gist)) .drained
      s.1.context := .drained _
    exact .ends (by rw [hboard, List.append_nil]) (by rw [hboard]) hrecord hleads

theorem walkMain_told (henv : env.recording.options = o) (fuel : Nat) (nodes : List NodeId)
    (h : Walk.Arrives (Beside Unrecorded) T o (env.recording.walkMain g fuel nodes) s r t) :
    (visits (Beside Unrecorded) T o g key).Told none nodes s.1.context s t r.halt := by
  induction fuel generalizing nodes s with
  | zero =>
    cases nodes with
    | nil => exact drained_told _ h
    | cons node ahead =>
      have hrefusal := refusal henv node
      obtain ⟨rfl, hfair⟩ := h.1.of_done
      exact absurd hrefusal (hfair.2 _ rfl)
  | succ fuel ih =>
    cases nodes with
    | nil => exact drained_told _ h
    | cons node ahead =>
      exact handle_told henv fuel none (fun nodes s h => ih nodes h) h

theorem traverse_told (henv : env.recording.options = o) {d : Definition C H} {start : StartPoint}
    (h : Walk.Arrives (Beside Unrecorded) T o (env.recording.traverse d start) s r t) :
    (visits (Beside Unrecorded) T o d.graph key).Told (start.signal?.map key)
      (start.ahead d.root) s.1.context s t r.halt := by
  cases start with
  | root | frontier => exact walkMain_told henv _ _ h
  | signal node pending signal =>
    exact handle_told henv 0 (some signal) (fun nodes s h => walkMain_told henv _ nodes h) h

end Environment

/-!
## Runs that come through

What nodes can do in one run they can do in any other that is not hindered, on a like context. So
wherever a context leads, a walk can come from there: nothing refuses a visit, and each checkpoint
can be saved (`traverse_arrives`).
-/

/-- Every checkpoint can be saved. -/
def Environment.Saves (env : Environment C H X ω) : Prop :=
  ∀ p x w, ∃ saved, env.save p (x, w) = .ok saved

/-- There are visits and fuel enough for what is ahead. -/
def Graph.Enough (g : Graph C H) (o : RunOptions) (fuel : Nat) (nodes : List Nat)
    (s : Board C H X × ω) : Prop :=
  ∃ first, g.Apart nodes first g.size ∧ s.1.visits + (g.size - first) ≤ o.maxNodeVisits ∧
    g.size < first + fuel

theorem Graph.Enough.exists_succ {g : Graph C H} {o : RunOptions} {fuel x : Nat} {l : List Nat}
    {s : Board C H X × ω} (h : g.Enough o fuel (x :: l) s) : ∃ n, fuel = n + 1 := by
  obtain ⟨first, hstack, -, hfuel⟩ := h
  have hx := hstack.mem (List.mem_cons_self ..)
  exact ⟨fuel - 1, by omega⟩

/-- The report of a node, and visits that are left for what is then ahead. -/
def Report.Leaves (o : RunOptions) (g : Graph C H) (x : Nat) (l : List Nat) (r : Report) (n : Nat) :
    Prop :=
  r.Fair o ∧ ∃ e, x < e ∧ g.size - e ≤ n ∧
    ∀ nodes, r.halt = .suspended ⟨"", none, 0, nodes⟩ → g.Apart (nodes ++ l) e g.size

theorem Visited.onward_of_shown {v : Visited} {nodes : List NodeId}
    (h : v.shown.halt = .suspended ⟨"", none, 0, nodes⟩) : v.turn = .onward nodes := by
  simp only [shown] at h
  split at h
  · next heq =>
    cases h
    exact heq
  · simp at h
  · simp at h

namespace Environment

variable {env : Environment C H X ω} {D : ω → ω → Prop} {T : Schedule (Board C H X × ω) Report}
  {o : RunOptions} {g : Graph C H} {key : Signal → κ} {steady : Bool} {heads nodes : List Nat}
  {after : Option NodeId} {x fuel : Nat} {l : List Nat} {k : Option κ} {signal : Option Signal}
  {s : Board C H X × ω} {context context' : C} {v : List Gist × Turn}
  {next : List NodeId → Walk (Board C H X × ω) Report}

/-- What a node did in another run it can do in this one. -/
theorem handle_reaches (hD : ∀ w, D w w) (henv : env.Unhindered o)
    (htract : g.Tract steady heads 0 g.size after) (hT : T.Behavioural o g) (hg : g.Blind key)
    (signal : Option Signal) (hk : signal.map key = k)
    (hdoes : visits (Beside D) T o g key x k s.1.context v context')
    (hs : g.Enough o (fuel + 1) (x :: l) s) : ∃ u t,
      (env.handle g fuel x signal).Reaches (Beside D) T (Report.Fair o) s u t ∧ u.gist = v ∧
        ¬u.Refused o ∧ t.1.context = context' ∧
        ∀ nodes, u.turn = .onward nodes → g.Enough o fuel (nodes ++ l) t := by
  obtain ⟨first, hstack, hvisits, hfuel⟩ := hs
  obtain ⟨env₀, fuel₀, signal₀, s₀, t₀, u₀, henv₀, hk₀, hcontext, rfl, rfl, hgoes⟩ := hdoes
  have hx := (hstack.mem (List.mem_cons_self ..)).1
  have hthrifty : (env.handle g fuel x signal fun u => .done u.shown).Thrifty
      (visitBudget C H X ω o) (Report.Leaves o g x l) (g.size - first) :=
    handle_thrifty henv htract fuel signal hstack (by omega) (Nat.le_refl _)
      fun e n u hxe hn hu honward => ⟨Visited.shown_fair hu, e, hxe, hn, fun nodes hnodes =>
        honward nodes (Visited.onward_of_shown hnodes)⟩
  have hrefl (s : Board C H X × ω) : Beside D s s := ⟨rfl, hD s.2⟩
  have hlike ⦃s t s' t' : Board C H X × ω⦄ (hst : (Board.likeness C H X ω o).state s t)
      (hs : Beside D s s') (ht : Beside D t t') : (Board.likeness C H X ω o).state s' t' := by
    show s'.1.context = t'.1.context
    rw [hs.1, ht.1]
    exact hst
  have hspent ⦃s t : Board C H X × ω⦄ (h : Beside D s t) : t.1.visits = s.1.visits := by rw [h.1]
  have hok (r : Report) (n : Nat) (h : Report.Leaves o g x l r n) : r.Fair o := h.1
  -- The node may do here what it did there, for it agrees with itself and there are visits enough.
  obtain ⟨r, t, hgoes', hreport, hstate⟩ := (handle_agree henv₀ henv.options hT hg fuel₀ fuel x
    (hk₀.trans hk.symm)).follows hlike hrefl hspent hcontext hgoes hok hthrifty hvisits
  obtain ⟨-, hleft⟩ := hthrifty.goes hspent hok (hgoes'.mono fun _ _ => trivial) hvisits
  obtain ⟨m, hm, -, e, hxe, he, honward⟩ := hleft r rfl
  obtain ⟨u, t', -, hreaches, hend⟩ := handle_splits hgoes'
  cases hend with
  | done hdrift hfair =>
    have hboard : t.1 = t'.1 := hdrift.1
    refine ⟨u, t', hreaches, (Visited.gist_of_shown hreport).symm, fun hu =>
      Visited.shown_unfair hu hfair, ?_, fun nodes hnodes => ⟨e, honward nodes ?_, ?_, by omega⟩⟩
    · rw [← hboard]
      exact hstate.symm
    · simp only [Visited.shown, hnodes]
    · have hm : t.1.visits + m ≤ o.maxNodeVisits := hm
      rw [hboard] at hm
      omega

theorem pass_arrives (hD : ∀ w, D w w) (hsaves : env.Saves) {u : Visited} (hu : ¬u.Refused o)
    (hnext : ∀ nodes t, u.turn = .onward nodes → t.1.context = s.1.context →
      t.1.visits = s.1.visits → ∃ r t', (next (nodes ++ l)).Arrives (Beside D) T o t r t') :
    ∃ r t, (env.pass x l u next).Arrives (Beside D) T o s r t := by
  have hrefl (s : Board C H X × ω) : Beside D s s := ⟨rfl, hD s.2⟩
  unfold pass
  cases hturn : u.turn with
  | onward nodes =>
    obtain ⟨⟨extra, w⟩, hsave⟩ := hsaves ⟨s.1.context, (nodes ++ l).reverse, u.trace⟩ s.1.extra s.2
    obtain ⟨r, t', hgoes, hcrash⟩ := hnext nodes ({ s.1 with
      extra, ledger.trace := s.1.ledger.trace ++ u.trace }, w) hturn rfl rfl
    refine ⟨r, t', .act (hrefl s) (.act (hrefl _) ?_), hcrash⟩
    simp only [hsave]
    exact hgoes
  | failed f =>
    refine ⟨_, _, .act (hrefl s) (.done (hrefl _)
      ⟨by simp, fun f' hf hrefusal => hu ⟨f, hturn, ?_⟩⟩), rfl⟩
    cases hf
    exact hrefusal
  | suspended signal limit =>
    exact ⟨_, _, .act (hrefl s) (.act (hrefl _) (.done (hrefl _) ⟨by simp, by simp⟩)), rfl⟩

theorem handle_arrives (hD : ∀ w, D w w) (henv : env.Unhindered o) (hsaves : env.Saves)
    (htract : g.Tract steady heads 0 g.size after) (hT : T.Behavioural o g) (hg : g.Blind key)
    (signal : Option Signal) (hk : signal.map key = k)
    (hdoes : visits (Beside D) T o g key x k s.1.context v context')
    (hs : g.Enough o (fuel + 1) (x :: l) s)
    (hnext : ∀ nodes t, v.2 = .onward nodes → t.1.context = context' →
      g.Enough o fuel (nodes ++ l) t → ∃ r t', (next (nodes ++ l)).Arrives (Beside D) T o t r t') :
    ∃ r t, Walk.Arrives (Beside D) T o (env.handle g fuel x signal fun u => env.pass x l u next)
      s r t := by
  obtain ⟨u, t, hreaches, rfl, hu, hcontext, henough⟩ :=
    handle_reaches hD henv htract hT hg signal hk hdoes hs
  obtain ⟨r, t', hgoes, hcrash⟩ := pass_arrives (s := t) hD hsaves hu
    fun nodes t' hnodes hsame hvisits => hnext nodes t' hnodes (hsame.trans hcontext) (by
      obtain ⟨first, hstack, hmost, hfuel⟩ := henough nodes hnodes
      exact ⟨first, hstack, hvisits ▸ hmost, hfuel⟩)
  exact ⟨r, t', hreaches _ _ hgoes, hcrash⟩

/-- Wherever a context leads, the main walk can come from there. -/
theorem walkMain_arrives (hD : ∀ w, D w w) (henv : env.Unhindered o) (hsaves : env.Saves)
    (htract : g.Tract steady heads 0 g.size after) (hT : T.Behavioural o g) (hg : g.Blind key)
    {entries : List Gist} {halt : Halt}
    (h : (visits (Beside D) T o g key).Leads none nodes s.1.context entries halt context')
    (hs : g.Enough o fuel nodes s) :
    ∃ r t, (env.walkMain g fuel nodes).Arrives (Beside D) T o s r t := by
  generalize hk : (none : Option κ) = k, hcontext : s.1.context = context at h
  induction h generalizing fuel s with
  | drained =>
    refine ⟨{ halt := .drained }, s, ?_, rfl⟩
    cases fuel <;> exact .done ⟨rfl, hD s.2⟩ ⟨by simp, by simp⟩
  | onward hdoes _ ih =>
    subst hk hcontext
    obtain ⟨fuel, rfl⟩ := hs.exists_succ
    refine handle_arrives hD henv hsaves htract hT hg none rfl hdoes hs
      fun nodes t hnodes hcontext hs => ?_
    cases hnodes
    exact ih hs rfl hcontext
  | failed hdoes | suspended hdoes =>
    subst hk hcontext
    obtain ⟨fuel, rfl⟩ := hs.exists_succ
    exact handle_arrives hD henv hsaves htract hT hg none rfl hdoes hs (by simp)

/-- Wherever a context leads, a run can come from there. -/
theorem traverse_arrives (hD : ∀ w, D w w) (henv : env.Unhindered o) (hsaves : env.Saves)
    {d : Definition C H} (horderly : d.Orderly) (hT : T.Behavioural o d.graph)
    (hg : d.graph.Blind key) (hmost : d.graph.size ≤ o.maxNodeVisits) {start : StartPoint}
    {first : Nat} (hstack : d.graph.Apart (start.ahead d.root) first d.graph.size)
    {entries : List Gist} {halt : Halt} (hvisits : s.1.visits = 0)
    (h : (visits (Beside D) T o d.graph key).Leads (start.signal?.map key) (start.ahead d.root)
      s.1.context entries halt context') :
    ∃ r t, (env.traverse d start).Arrives (Beside D) T o s r t := by
  have henough (fuel : Nat) (hfuel : d.graph.size < fuel) :
      d.graph.Enough o fuel (start.ahead d.root) s :=
    ⟨first, hstack, by omega, by omega⟩
  have hmost : d.graph.size < env.options.maxNodeVisits + 1 := by
    rw [henv.options]
    omega
  cases start with
  | root | frontier =>
    exact walkMain_arrives hD henv hsaves horderly hT hg h (henough _ hmost)
  | signal node pending signal =>
    have hs := henough (env.options.maxNodeVisits + 2) (by omega)
    cases h with
    | onward hdoes hrest =>
      refine handle_arrives hD henv hsaves horderly hT hg (some signal) rfl hdoes hs
        fun nodes t hnodes hcontext hs => ?_
      cases hnodes
      exact walkMain_arrives hD henv hsaves horderly hT hg (hcontext ▸ hrest) hs
    | failed hdoes | suspended hdoes =>
      exact handle_arrives hD henv hsaves horderly hT hg (some signal) rfl hdoes hs (by simp)

end Environment

end DurableWorkflow
