import DurableWorkflow.Proofs.Graph.Tract
import DurableWorkflow.Proofs.Recovery.Life
import DurableWorkflow.Proofs.Run.Thrift
import DurableWorkflow.Proofs.Run.Waits

/-!
# Where nodes lead

What nodes do to a context is a relation that is given. From it follows what a run can still come
to that has certain nodes ahead, on a certain context: the entries it will leave, how it will end and
the context at the end (`Doings.Leads`), and how far it can come on the way (`Doings.Passes`). If what
nodes do is a function of the context, what is left of a run does not depend on how it came there.
-/

namespace DurableWorkflow

variable {C κ : Type}

/-- With these nodes ahead and a signal for the first of them, if there is one, this context leads to
these entries, this end and that context. -/
inductive Doings.Leads (does : Doings C κ) :
    Option κ → List NodeId → C → List Gist → Halt → C → Prop
  | drained (context : C) : Leads does none [] context [] .drained context
  | onward {k : Option κ} {node : NodeId} {ahead nodes : List NodeId}
      {context context' context'' : C} {entries rest : List Gist} {halt : Halt}
      (h : does node k context (entries, .onward nodes) context')
      (hrest : Leads does none (nodes ++ ahead) context' rest halt context'') :
    Leads does k (node :: ahead) context (entries ++ rest) halt context''
  | failed {k : Option κ} {node : NodeId} {ahead : List NodeId} {context context' : C}
      {entries : List Gist} {f : Failure} (h : does node k context (entries, .failed f) context') :
    Leads does k (node :: ahead) context entries (.failed f) context'
  | suspended {k : Option κ} {node : NodeId} {ahead : List NodeId} {context context' : C}
      {entries : List Gist} {signal : String} {limit : Option Nanos}
      (h : does node k context (entries, .suspended signal limit) context') :
    Leads does k (node :: ahead) context entries (.suspended ⟨signal, limit, node, ahead.reverse⟩)
      context'

/-- Nodes are passed: with these ahead, a context leads over these entries to where those are
ahead, and to that context. -/
inductive Doings.Passes (does : Doings C κ) :
    Option κ → List NodeId → C → List Gist → List NodeId → C → Prop
  | here (nodes : List NodeId) (context : C) : Passes does none nodes context [] nodes context
  | next {k : Option κ} {node : NodeId} {ahead nodes last : List NodeId}
      {context context' context'' : C} {entries rest : List Gist}
      (h : does node k context (entries, .onward nodes) context')
      (hrest : Passes does none (nodes ++ ahead) context' rest last context'') :
    Passes does k (node :: ahead) context (entries ++ rest) last context''

namespace Doings

variable {does : Doings C κ} {k : Option κ} {node : NodeId} {ahead nodes last : List NodeId}
  {context context' context'' : C} {before entries entries' rest : List Gist} {halt halt' : Halt}

theorem Leads.unique (hfun : does.Functional) (h : does.Leads k nodes context entries halt context')
    (h' : does.Leads k nodes context entries' halt' context'') :
    entries = entries' ∧ halt = halt' ∧ context' = context'' := by
  induction h generalizing entries' halt' context'' with
  | drained => cases h' with | drained => exact ⟨rfl, rfl, rfl⟩
  | onward h _ ih =>
    cases h' with
    | onward h' hrest' =>
      obtain ⟨heq, rfl⟩ := hfun _ _ _ _ _ _ _ h h'
      obtain ⟨rfl, hturn⟩ := Prod.mk.inj heq
      cases hturn
      obtain ⟨rfl, rfl, rfl⟩ := ih hrest'
      exact ⟨rfl, rfl, rfl⟩
    | failed h' | suspended h' => simpa using (hfun _ _ _ _ _ _ _ h h').1
  | failed h =>
    cases h' with
    | failed h' =>
      obtain ⟨heq, rfl⟩ := hfun _ _ _ _ _ _ _ h h'
      cases heq
      exact ⟨rfl, rfl, rfl⟩
    | onward h' | suspended h' => simpa using (hfun _ _ _ _ _ _ _ h h').1
  | suspended h =>
    cases h' with
    | suspended h' =>
      obtain ⟨heq, rfl⟩ := hfun _ _ _ _ _ _ _ h h'
      cases heq
      exact ⟨rfl, rfl, rfl⟩
    | onward h' | failed h' => simpa using (hfun _ _ _ _ _ _ _ h h').1

/-- Where the first node is known to lead, the rest begins there. -/
theorem Leads.of_onward (hfun : does.Functional)
    (hdoes : does node k context (before, .onward nodes) context')
    (h : does.Leads k (node :: ahead) context entries halt context'') :
    ∃ rest, entries = before ++ rest ∧
      does.Leads none (nodes ++ ahead) context' rest halt context'' := by
  cases h with
  | onward h hrest =>
    obtain ⟨heq, rfl⟩ := hfun _ _ _ _ _ _ _ h hdoes
    cases heq
    exact ⟨_, rfl, hrest⟩
  | failed h | suspended h => simpa using (hfun _ _ _ _ _ _ _ h hdoes).1

theorem Passes.leads (h : does.Passes k nodes context before last context')
    (hrest : does.Leads none last context' rest halt context'') :
    does.Leads k nodes context (before ++ rest) halt context'' := by
  induction h with
  | here => exact hrest
  | next h _ ih =>
    rw [List.append_assoc]
    exact .onward h (ih hrest)

/-- Whatever a context leads to, it leads there over the nodes that it passes. -/
theorem Passes.remains (hfun : does.Functional) (h : does.Passes k nodes context before last context')
    (hall : does.Leads k nodes context entries halt context'') :
    ∃ rest, entries = before ++ rest ∧ does.Leads none last context' rest halt context'' := by
  induction h generalizing entries with
  | here => exact ⟨entries, rfl, hall⟩
  | next h _ ih =>
    obtain ⟨rest, rfl, hrest⟩ := hall.of_onward hfun h
    obtain ⟨rest', rfl, hlast⟩ := ih hrest
    exact ⟨rest', by rw [List.append_assoc], hlast⟩

/-- What ends waiting has passed all nodes but the one that waits. -/
theorem Leads.passes {s : Suspension}
    (h : does.Leads none nodes context entries (.suspended s) context') :
    ∃ ahead context₀ before last, s.pending = ahead.reverse ∧ entries = before ++ last ∧
      does.Passes none nodes context before (s.node :: ahead) context₀ ∧
      does s.node none context₀ (last, .suspended s.signal s.limit) context' := by
  -- A run that waits has no signal left, so the node at which it waits was visited without one.
  generalize hk : (none : Option κ) = k at h
  generalize hhalt : Halt.suspended s = halt at h
  induction h with
  | drained | failed => cases hhalt
  | onward h _ ih =>
    subst hk
    obtain ⟨ahead, context₀, before, last, hpending, rfl, hpasses, hlast⟩ := ih rfl hhalt
    exact ⟨ahead, context₀, _, last, hpending, (List.append_assoc ..).symm, .next h hpasses, hlast⟩
  | suspended h =>
    subst hk
    cases hhalt
    exact ⟨_, _, [], _, rfl, rfl, .here _ _, h⟩

end Doings

/-!
## Where nodes lead in a graph

Runs go on from a node only as the graph allows (`visits_along`), and where a run waits there is a
step, which has left one entry (`visits_suspended`). So nodes that are passed lead on from what a main
walk may have ahead to what it may have ahead (`Passes.ahead`), and past no node twice: if two
relations differ at one node only, then up to that node and behind it they lead to the same
(`Passes.elsewhere`, `Leads.elsewhere`).
-/

variable {H X ω : Type}

/-- Nodes lead only where they do in the graph. -/
def Doings.Along (does : Doings C κ) (g : Graph C H) : Prop :=
  ∀ node k context entries nodes context', does node k context (entries, .onward nodes) context' →
    ∃ n, g.get? node = some n ∧ n.Onward nodes

section

variable {drift : Board C H X × ω → Board C H X × ω → Prop}
  {T : Schedule (Board C H X × ω) Report} {o : RunOptions} {g : Graph C H} {key : Signal → κ}
  {node : NodeId} {k : Option κ} {context context' : C} {v : List Gist × Turn}

theorem visits_fits (h : visits drift T o g key node k context v context') :
    ∃ u : Visited, u.gist = v ∧ u.Fits g node := by
  obtain ⟨env, fuel, signal, s, t, u, -, -, -, -, rfl, h⟩ := h
  obtain ⟨a, x, hfits, -, hend⟩ := Environment.handle_splits h
  exact ⟨a, Visited.gist_of_shown (congrArg Report.gist hend.of_done.1), hfits⟩

theorem visits_along (drift : Board C H X × ω → Board C H X × ω → Prop)
    (T : Schedule (Board C H X × ω) Report) (o : RunOptions) (g : Graph C H) (key : Signal → κ) :
    (visits drift T o g key).Along g := by
  intro node k context entries nodes context' h
  obtain ⟨u, hu, hfits⟩ := visits_fits h
  exact hfits.onward nodes (congrArg Prod.snd hu)

/-- Where a run waits there is a step, and it has left one entry. -/
theorem visits_suspended {entries : List Gist} {signal : String} {limit : Option Nanos}
    (h : visits drift T o g key node k context (entries, .suspended signal limit) context') :
    ∃ n s attempts, g.get? node = some n ∧ n.kind = .step s ∧
      entries = [(s.name, node, .suspended signal, attempts)] := by
  obtain ⟨u, hu, hfits⟩ := visits_fits h
  obtain ⟨n, s, t, hn, hkind, htrace, hstep, hnode, houtcome⟩ :=
    hfits.suspended signal limit (congrArg Prod.snd hu)
  refine ⟨n, s, t.attempts, hn, hkind, ?_⟩
  have hentries : u.trace.map (·.gist) = entries := congrArg Prod.fst hu
  rw [← hentries, htrace, ← hstep, ← hnode, ← houtcome]
  rfl

end

namespace Doings

variable {does does' : Doings C κ} {d : Definition C H} {x first : Nat} {k : Option κ}
  {nodes l last : List NodeId} {context context' : C} {entries : List Gist} {halt : Halt}

theorem Passes.ahead (halong : does.Along d.graph) (horderly : d.Orderly)
    (h : does.Passes k nodes context entries last context') (hnodes : d.Ahead nodes) :
    d.Ahead last := by
  induction h with
  | here => exact hnodes
  | next h _ ih =>
    obtain ⟨n, hn, honward⟩ := halong _ _ _ _ _ _ h
    exact ih (hnodes.onward horderly hn honward)

/-- What passes the first node of a stack has only later nodes ahead. -/
theorem Along.later (halong : does.Along d.graph) (horderly : d.Orderly) {node : Nat}
    (hstack : d.graph.Apart (node :: l) first d.graph.size)
    (h : does node k context (entries, .onward nodes) context') :
    ∃ e, node < e ∧ d.graph.Apart (nodes ++ l) e d.graph.size := by
  obtain ⟨n, hn, honward⟩ := halong _ _ _ _ _ _ h
  obtain ⟨e, he, -, -, hrest⟩ := Graph.Tract.onward horderly hstack hn
  exact ⟨e, he, hrest nodes honward⟩

/-- Up to the node at which they differ both relations pass the same nodes. -/
theorem Passes.elsewhere (hsame : ∀ node, node ≠ x → does node = does' node)
    (halong : does.Along d.graph) (horderly : d.Orderly)
    (h : does.Passes k nodes context entries (x :: l) context')
    (hstack : d.graph.Apart nodes first d.graph.size) :
    does'.Passes k nodes context entries (x :: l) context' ∧ first ≤ x := by
  generalize hlast : x :: l = last at h
  -- All that is ahead lies from `first` on, and a node that is passed lies before what is then ahead.
  induction h generalizing first with
  | here =>
    subst hlast
    exact ⟨.here _ _, (hstack.mem (List.mem_cons_self ..)).1⟩
  | @next k node _ _ _ _ _ _ _ _ hdoes _ ih =>
    obtain ⟨e, he, hrest⟩ := halong.later horderly hstack hdoes
    obtain ⟨hpasses, hx⟩ := ih hrest hlast
    have hne : node ≠ x := by
      rintro rfl
      exact absurd he (Nat.not_lt.2 hx)
    rw [hsame node hne] at hdoes
    exact ⟨.next hdoes hpasses, Nat.le_trans (hstack.mem (List.mem_cons_self ..)).1
      (Nat.le_trans (Nat.le_of_lt he) hx)⟩

/-- Behind that node both relations lead to the same. -/
theorem Leads.elsewhere (hsame : ∀ node, node ≠ x → does node = does' node)
    (halong : does.Along d.graph) (horderly : d.Orderly)
    (h : does.Leads k nodes context entries halt context')
    (hstack : d.graph.Apart nodes first d.graph.size) (hx : x < first) :
    does'.Leads k nodes context entries halt context' := by
  have hother {node : NodeId} {l : List NodeId} {first : Nat} (hx : x < first)
      (hstack : d.graph.Apart (node :: l) first d.graph.size) : does node = does' node := by
    refine hsame node ?_
    rintro rfl
    exact absurd hx (Nat.not_lt.2 (hstack.mem (List.mem_cons_self ..)).1)
  induction h generalizing first with
  | drained => exact .drained _
  | onward hdoes _ ih =>
    obtain ⟨e, he, hrest⟩ := halong.later horderly hstack hdoes
    rw [hother hx hstack] at hdoes
    have hlt := Nat.lt_of_le_of_lt (hstack.mem (List.mem_cons_self ..)).1 he
    exact .onward hdoes (ih hrest (Nat.lt_trans hx hlt))
  | failed hdoes =>
    rw [hother hx hstack] at hdoes
    exact .failed hdoes
  | suspended hdoes =>
    rw [hother hx hstack] at hdoes
    exact .suspended hdoes

/-- A node is passed with the signal `k` in one run, and without in another that has come there and in
which it leaves the same. Then both lead to the same from there on. -/
theorem leads_iff_elsewhere {d' : Definition C H} (hsame : ∀ node, node ≠ x → does node = does' node)
    (hfun : does.Functional) (hfun' : does'.Functional) (halong : does.Along d.graph)
    (halong' : does'.Along d'.graph) (horderly : d.Orderly) (horderly' : d'.Orderly)
    (hlike : d.graph.Like d'.graph) {before own all : List Gist} {middle middle' after : C}
    (hnodes : d.Ahead nodes) (hpasses : does.Passes none nodes context before (x :: l) middle)
    (hdoes : does x k middle' (own, .onward last) after)
    (hdoes' : does' x none middle (own, .onward last) after) :
    does'.Leads none nodes context all halt context' ↔
      ∃ entries, all = before ++ entries ∧ does.Leads k (x :: l) middle' entries halt context' := by
  obtain ⟨first, hstack⟩ := hnodes.apart
  obtain ⟨first', hstack'⟩ := (hpasses.ahead halong horderly hnodes).apart
  obtain ⟨e, hx, hrest⟩ := halong.later horderly hstack' hdoes
  have hpasses' := (hpasses.elsewhere hsame halong horderly hstack).1
  constructor
  · intro h
    obtain ⟨remaining, rfl, hremaining⟩ := hpasses'.remains hfun' h
    obtain ⟨rest, rfl, hlast⟩ := hremaining.of_onward hfun' hdoes'
    have hrest' := hrest.like hlike
    rw [← hlike.size] at hrest'
    exact ⟨_, rfl, .onward hdoes
      (hlast.elsewhere (fun node hne => (hsame node hne).symm) halong' horderly' hrest' hx)⟩
  · rintro ⟨entries, rfl, h⟩
    obtain ⟨rest, rfl, hlast⟩ := h.of_onward hfun hdoes
    exact hpasses'.leads (.onward hdoes' (hlast.elsewhere hsame halong horderly hrest hx))

end Doings

end DurableWorkflow
