import DurableWorkflow.Coordinator.Basic
import DurableWorkflow.Proofs.Run.Alike
import DurableWorkflow.Proofs.Run.Keeps
import DurableWorkflow.Proofs.Walk.Goes

/-!
# The life of an instance

What matters of a stored instance is its sketch: everything but clocks, deadline and revision. A
life begins with a context, moves on by itself from sketch to sketch, one node at a time, and takes
a signal where it waits. What a node does is a relation that is given; if it is a function of the
context, so is the whole life, and two lives on like signals that have both come to rest are the
same (`Life.unique`).
-/

namespace DurableWorkflow

variable {C κ : Type}

/-- What matters of an instance; of a signal on its way, what `κ` tells. -/
structure Sketch (C κ : Type) where
  status : Status
  context : C
  /-- The nodes still to visit, the next one first. -/
  ahead : List NodeId := []
  node : Option NodeId := none
  awaited : Option String := none
  delivered : Option κ := none
  history : List Gist := []
  error : Option String := none

/-- The stored instance `s` looks like `x`. -/
structure Instance.Shows (kind : ContextKind C) (key : Signal → κ) (s : Instance)
    (x : Sketch C κ) : Prop where
  status : s.status = x.status
  context : kind.encode x.context = some s.context
  pending : s.pending = x.ahead.reverse
  node : s.waitingNode = x.node
  awaited : s.awaited = x.awaited
  delivered : s.delivered.map key = x.delivered
  history : s.history.map (·.gist) = x.history
  error : s.error = x.error

/-- What nodes do: where, with which signal, on which context, with which entries and turn, and to
which context. -/
abbrev Doings (C κ : Type) := NodeId → Option κ → C → List Gist × Turn → C → Prop

namespace Sketch

/-- The node that comes next, the signal for it, and the nodes after it. -/
def next (root : NodeId) (x : Sketch C κ) : Option (NodeId × Option κ × List NodeId) :=
  match x.node, x.delivered with
  | some node, some k => some (node, some k, x.ahead)
  | _, _ =>
    if x.history = [] ∧ x.ahead = [] then some (root, none, [])
    else x.ahead.head?.map fun node => (node, none, x.ahead.tail)

/-- The sketch with a node passed. -/
def passed (x : Sketch C κ) (context : C) (ahead : List NodeId) (entries : List Gist) :
    Sketch C κ :=
  { x with context, ahead, history := x.history ++ entries, node := none, delivered := none }

def completed (x : Sketch C κ) : Sketch C κ :=
  { x with status := .completed, ahead := [], node := none, delivered := none }

def failed (x : Sketch C κ) (text : String) : Sketch C κ :=
  { x with status := .failed, ahead := [], error := some text }

def waiting (x : Sketch C κ) (node : NodeId) (signal : String) : Sketch C κ :=
  { x with status := .waiting, node := some node, awaited := some signal }

/-- The sketch of an instance that has taken a signal. -/
def accepted (x : Sketch C κ) (k : κ) : Sketch C κ :=
  { x with status := .running, awaited := none, delivered := some k }

/-- A move without a signal. -/
inductive Next (does : Doings C κ) (root : NodeId) : Sketch C κ → Sketch C κ → Prop
  | begin {x : Sketch C κ} (h : x.status = .created) : Next does root x { x with status := .running }
  | pass {x : Sketch C κ} {node : NodeId} {k : Option κ} {ahead nodes : List NodeId}
      {entries : List Gist} {context : C} (hrunning : x.status = .running)
      (hnext : x.next root = some (node, k, ahead))
      (hdoes : does node k x.context (entries, .onward nodes) context) :
    Next does root x (x.passed context (nodes ++ ahead) entries)
  | fail {x : Sketch C κ} {node : NodeId} {k : Option κ} {ahead : List NodeId} {f : Failure}
      {entries : List Gist} {context : C} (hrunning : x.status = .running)
      (hnext : x.next root = some (node, k, ahead))
      (hdoes : does node k x.context (entries, .failed f) context) :
    Next does root x ((x.passed context ahead entries).failed f.text)
  | wait {x : Sketch C κ} {node : NodeId} {k : Option κ} {ahead : List NodeId} {signal : String}
      {limit : Option Nanos} {entries : List Gist} {context : C} (hrunning : x.status = .running)
      (hnext : x.next root = some (node, k, ahead))
      (hdoes : does node k x.context (entries, .suspended signal limit) context) :
    Next does root x ((x.passed context ahead entries).waiting node signal)
  | finish {x : Sketch C κ} (hrunning : x.status = .running) (hnext : x.next root = none) :
    Next does root x x.completed

/-- Nothing more happens by itself. -/
def Rests (x : Sketch C κ) : Prop := x.status ≠ .created ∧ x.status ≠ .running

end Sketch

/-- A life that began with a context and has taken these signals, the latest first. -/
inductive Life (does : Doings C κ) (root : NodeId) (context : C) : List κ → Sketch C κ → Prop
  | created : Life does root context [] { status := .created, context }
  | next {ks : List κ} {x y : Sketch C κ} (hx : Life does root context ks x)
      (h : x.Next does root y) : Life does root context ks y
  | accept {ks : List κ} {x : Sketch C κ} (k : κ) (hx : Life does root context ks x)
      (h : x.status = .waiting) : Life does root context (k :: ks) (x.accepted k)

/-- What nodes do is a function of the context. -/
def Doings.Functional (does : Doings C κ) : Prop :=
  ∀ node k context v v' y y', does node k context v y → does node k context v' y' → v = v' ∧ y = y'

variable {does : Doings C κ} {root : NodeId} {context : C} {ks : List κ} {x y z : Sketch C κ}

namespace Sketch

theorem next_of_not_delivered (h : x.delivered = none) :
    x.next root = if x.history = [] ∧ x.ahead = [] then some (root, none, [])
      else x.ahead.head?.map fun node => (node, none, x.ahead.tail) := by
  unfold next
  rw [h]
  cases x.node <;> rfl

/-- Only at the root an instance may be without entries. -/
theorem history_ne_nil (hroot : ∀ context v context', does root none context v context' → v.1 ≠ [])
    (hx : x.history = [] → x.ahead = [] ∧ x.delivered = none) {node : NodeId} {k : Option κ}
    {ahead : List NodeId} {v : List Gist × Turn} {context : C}
    (hnext : x.next root = some (node, k, ahead)) (hdoes : does node k x.context v context) :
    x.history ++ v.1 ≠ [] := by
  intro hempty
  rw [List.append_eq_nil_iff] at hempty
  obtain ⟨hahead, hdelivered⟩ := hx hempty.1
  rw [next_of_not_delivered hdelivered, if_pos ⟨hempty.1, hahead⟩] at hnext
  cases hnext
  exact hroot _ _ _ hdoes hempty.2

theorem Rests.not_next (hx : x.Rests) : ¬x.Next does root y := by
  intro h
  obtain ⟨hcreated, hrunning⟩ := hx
  cases h with
  | begin h => exact hcreated h
  | pass h | fail h | wait h | finish h => exact hrunning h

theorem Next.unique (hdoes : does.Functional) (hy : x.Next does root y) (hz : x.Next does root z) :
    y = z := by
  cases hy with
  | begin h =>
    cases hz with
    | begin => rfl
    | pass h' | fail h' | wait h' | finish h' => simp [h] at h'
  | pass hrunning hnext hd | fail hrunning hnext hd | wait hrunning hnext hd =>
    cases hz with
    | begin h => simp [h] at hrunning
    | pass _ hnext' hd' | fail _ hnext' hd' | wait _ hnext' hd' =>
      cases Option.some.inj (hnext.symm.trans hnext')
      obtain ⟨heq, rfl⟩ := hdoes _ _ _ _ _ _ _ hd hd'
      cases heq <;> rfl
    | finish _ hnext' => simp [hnext] at hnext'
  | finish hrunning hnext =>
    cases hz with
    | begin h => simp [h] at hrunning
    | pass _ hnext' | fail _ hnext' | wait _ hnext' => simp [hnext] at hnext'
    | finish => rfl

end Sketch

namespace Life

/-- On the way from one to the other. -/
abbrev Leads (does : Doings C κ) (root : NodeId) : Sketch C κ → Sketch C κ → Prop :=
  Relation.ReflTransGen (Sketch.Next does root)

/-- A sketch that rests leads nowhere else. -/
theorem eq_of_leads (hx : x.Rests) (h : Leads does root x y) : x = y := by
  cases h.cases_head with
  | inl heq => exact heq
  | inr h =>
    obtain ⟨z, hz, -⟩ := h
    exact absurd hz hx.not_next

theorem leads_of_created (h : Life does root context ks x) (hks : ks = []) :
    Leads does root { status := .created, context } x := by
  induction h with
  | created => exact .refl
  | next _ hnext ih => exact (ih hks).tail hnext
  | accept => simp at hks

theorem leads_of_accepted {k : κ} (hx : ∀ y, Life does root context ks y → y.status = .waiting →
      y = x) (h : Life does root context (k :: ks) z) : Leads does root (x.accepted k) z := by
  generalize hks : k :: ks = l at h
  induction h with
  | created => simp at hks
  | next _ hnext ih => exact (ih hks).tail hnext
  | accept k hy hwaiting =>
    cases hks
    rw [hx _ hy hwaiting]

/-- Of two sketches of like lives one leads to the other. -/
theorem comparable (hdoes : does.Functional) (h : Life does root context ks x)
    (hy : Life does root context ks y) : Leads does root x y ∨ Leads does root y x := by
  induction h generalizing y with
  | created => exact .inl (leads_of_created hy rfl)
  | @next ks x z _ hnext ih =>
    obtain hxy | hyx := ih hy
    · cases hxy.cases_head with
      | inl heq =>
        subst heq
        exact .inr (.single hnext)
      | inr h =>
        obtain ⟨u, hu, huy⟩ := h
        rw [hnext.unique hdoes hu]
        exact .inl huy
    · exact .inr (hyx.tail hnext)
  | @accept ks x k hx hwaiting ih =>
    refine .inl (leads_of_accepted (fun z hz hzwaiting => ?_) hy)
    have hrests {u : Sketch C κ} (hu : u.status = .waiting) : u.Rests := by
      simp [Sketch.Rests, hu]
    obtain hxz | hzx := ih hz
    · exact (eq_of_leads (hrests hwaiting) hxz).symm
    · exact eq_of_leads (hrests hzwaiting) hzx

/-- Like lives that have come to rest are the same. -/
theorem unique (hdoes : does.Functional) (hx : Life does root context ks x)
    (hy : Life does root context ks y) (hxrests : x.Rests) (hyrests : y.Rests) : x = y := by
  obtain h | h := hx.comparable hdoes hy
  · exact eq_of_leads hxrests h
  · exact (eq_of_leads hyrests h).symm

/-- An instance without entries has not passed its root. -/
theorem at_root (hroot : ∀ context v context', does root none context v context' → v.1 ≠ [])
    (h : Life does root context ks x) (hempty : x.history = []) :
    x.ahead = [] ∧ x.delivered = none ∧ x.status ≠ .waiting := by
  induction h with
  | created => exact ⟨rfl, rfl, by simp⟩
  | next _ hnext ih =>
    cases hnext with
    | begin h =>
      obtain ⟨hahead, hdelivered, -⟩ := ih hempty
      exact ⟨hahead, hdelivered, by simp⟩
    | pass _ hnext hd | fail _ hnext hd | wait _ hnext hd =>
      exact absurd hempty (Sketch.history_ne_nil hroot (fun h => ⟨(ih h).1, (ih h).2.1⟩) hnext hd)
    | finish => exact ⟨rfl, rfl, by simp [Sketch.completed]⟩
  | accept k _ hwaiting ih => exact absurd hwaiting (ih hempty).2.2

end Life

/-!
## What nodes do

What a node does to a context, in any run with the given options and by the given schedule: a visit
of it, or the delivery of a signal to it, that is not refused. It is a function of the context
(`visits_functional`), and at a step it leaves an entry (`visits_step`).
-/

variable {H X ω : Type}

/-- A report in which a visit can be seen. -/
def Visited.shown (v : Visited) : Report where
  trace := v.trace
  halt :=
    match v.turn with
    | .onward next => .suspended ⟨"", none, 0, next⟩
    | .failed f => .failed f
    | .suspended signal limit => .suspended ⟨signal, limit, 1, []⟩

namespace Visited

variable {o : RunOptions} {v v' : Visited}

theorem gist_of_shown (h : v.shown.gist = v'.shown.gist) : v.gist = v'.gist := by
  obtain ⟨hentries, hhalt⟩ := Prod.mk.inj h
  refine Prod.ext hentries ?_
  simp only [shown] at hhalt
  show v.turn = v'.turn
  cases hv : v.turn <;> cases hv' : v'.turn <;> simp_all

theorem shown_fair (h : ¬v.Refused o) : v.shown.Fair o := by
  unfold Report.Fair shown
  cases hv : v.turn with
  | onward | suspended => simp
  | failed f =>
    refine ⟨by simp, fun f' hf' hrefusal => h ⟨f, hv, ?_⟩⟩
    cases hf'
    exact hrefusal

theorem shown_unfair (h : v.Refused o) : ¬v.shown.Fair o := by
  obtain ⟨f, hf, hrefusal⟩ := h
  intro hfair
  refine hfair.2 f ?_ hrefusal
  rw [shown, hf]

end Visited

/-- Visit a node, or deliver a signal to it. -/
def Environment.handle (env : Environment C H X ω) (g : Graph C H) (fuel : Nat) (node : NodeId) :
    Option Signal → Environment.Part C H X ω Visited
  | none => env.visit g (fun child => env.walkBranch g fuel [child] []) node
  | some signal => env.deliver g node signal

theorem Environment.handle_keeps {env : Environment C H X ω} {g : Graph C H}
    {I : Board C H X × ω → Board C H X × ω → Prop} (h : env.Around g I) (fuel : Nat) (node : NodeId)
    (signal : Option Signal) : (env.handle g fuel node signal).Keeps Report.Stopped I := by
  cases signal with
  | none => exact visit_keeps h.inVisit (fun child => walkBranch_keeps h.inVisit fuel [child] []) node
  | some signal => exact deliver_keeps h.inVisit node signal

section

variable (drift : Board C H X × ω → Board C H X × ω → Prop)
  (T : Schedule (Board C H X × ω) Report) (o : RunOptions) (g : Graph C H) (key : Signal → κ)

/-- What nodes do in runs. -/
def visits : Doings C κ := fun node k context v context' =>
  ∃ (env : Environment C H X ω) (fuel : Nat) (signal : Option Signal) (s t : Board C H X × ω)
    (u : Visited), env.options = o ∧ signal.map key = k ∧ s.1.context = context ∧
      t.1.context = context' ∧ u.gist = v ∧
      Walk.Goes drift T (Report.Fair o)
        (env.handle g fuel node signal fun v => .done v.shown, s) (some u.shown, t)

end

variable {drift : Board C H X × ω → Board C H X × ω → Prop}
  {T : Schedule (Board C H X × ω) Report} {o : RunOptions} {g : Graph C H} {key : Signal → κ}
  {env env' : Environment C H X ω} {node : NodeId}

namespace Environment

theorem handle_agree (henv : env.options = o) (henv' : env'.options = o)
    (hT : T.Behavioural o g) (hg : g.Blind key) (fuel fuel' : Nat) (node : NodeId)
    {x y : Option Signal} (hxy : x.map key = y.map key) :
    (env.handle g fuel node x fun v => .done v.shown).Agree (Board.likeness C H X ω o) (some T)
      (env'.handle g fuel' node y fun v => .done v.shown) := by
  have hlike (v v' : Visited) (h : v.gist = v'.gist) :
      (Walk.done v.shown : Walk (Board C H X × ω) Report).Agree (Board.likeness C H X ω o) (some T)
        (.done v'.shown) := by
    refine .done ?_
    obtain ⟨hentries, hturn⟩ := Prod.mk.inj h
    simp only [Board.likeness, Report.gist, Visited.shown, hentries, hturn]
  cases x with
  | none =>
    cases y with
    | none =>
      exact visit_agree henv henv' hT hg
        (fun child => walkBranch_agree henv henv' hT hg fuel fuel' [child] rfl)
        (fun children s t hst => hT.cues env env' fuel fuel' children s t henv henv' hst) node
        (fun v hv => .done (Visited.shown_unfair hv)) (fun v hv => .done (Visited.shown_unfair hv))
        hlike
    | some y => simp at hxy
  | some x =>
    cases y with
    | none => simp at hxy
    | some y => exact deliver_alike henv henv' hg node (Option.some.inj hxy) _ _ hlike

end Environment

/-- What a node does is a function of the context. -/
theorem visits_functional (hdrift : ∀ s t, drift s t → t.1.context = s.1.context)
    (hT : T.Behavioural o g) (hg : g.Blind key) : (visits drift T o g key).Functional := by
  rintro node k context _ _ _ _ ⟨env, fuel, x, s, t, u, henv, rfl, rfl, rfl, rfl, hgoes⟩
    ⟨env', fuel', y, s', t', u', henv', hk, hcontext, rfl, rfl, hgoes'⟩
  have hagree := Environment.handle_agree henv henv' hT hg fuel fuel' node hk.symm
  have hlike (s t s' t' : Board C H X × ω) (hst : (Board.likeness C H X ω o).state s t)
      (hs : drift s s') (ht : drift t t') : (Board.likeness C H X ω o).state s' t' :=
    (hdrift s s' hs).trans (Eq.trans hst (hdrift t t' ht).symm)
  obtain ⟨hreport, hstate⟩ := hagree.goes hlike hcontext.symm hgoes hgoes'
  exact ⟨Visited.gist_of_shown hreport, hstate⟩

/-- What a run does at a node, as long as it is not refused. -/
theorem visits_of_reaches (hdrift : ∀ s, drift s s) (henv : env.options = o) {fuel : Nat}
    {signal : Option Signal} {s t : Board C H X × ω} {v : Visited}
    (h : (env.handle g fuel node signal).Reaches drift T (Report.Fair o) s v t)
    (hv : ¬v.Refused o) :
    visits drift T o g key node (signal.map key) s.1.context v.gist t.1.context :=
  ⟨env, fuel, signal, s, t, v, henv, rfl, rfl, rfl, rfl,
    h _ _ (.done (hdrift t) (Visited.shown_fair hv))⟩

/-! ### Steps leave entries -/

theorem Report.Stopped.not_fair {r : Report} (h : r.Stopped) : ¬r.Fair o :=
  fun hfair => hfair.1 (beq_iff_eq.1 h)

/-- A part of a run hands something on, if the run comes to a report. -/
theorem Piece.Keeps.hands_on {α β : Type} {p : Environment.Part C H X ω α}
    (hp : p.Keeps Report.Stopped fun _ _ => True) {f : α → Environment.Part C H X ω β}
    {k : β → Walk (Board C H X × ω) Report} {s t : Board C H X × ω} {r : Report}
    (h : Walk.Goes drift T (Report.Fair o) ((p >>= f) k, s) (some r, t)) :
    ∃ a u, Walk.Goes drift T (Report.Fair o) (f a k, u) (some r, t) := by
  have hspans : Spans drift fun _ _ => True :=
    ⟨fun _ => trivial, fun _ _ => trivial, fun _ => trivial⟩
  obtain ⟨hnone, -⟩ | ⟨a, u, -, -, h⟩ :=
    hp.splits (k := fun a => f a k) hspans (fun _ hr => hr.not_fair) h
  · simp at hnone
  · exact ⟨a, u, h⟩

theorem Walk.Goes.of_done {r r' : Report} {s t : Board C H X × ω}
    (h : Walk.Goes drift T (Report.Fair o) (.done r, s) (some r', t)) : r = r' ∧ r.Fair o := by
  cases h with
  | done _ hfair => exact ⟨rfl, hfair⟩

namespace Environment

theorem about_true (env : Environment C H X ω) (g : Graph C H) : env.About g fun _ _ => True :=
  ⟨fun _ _ _ _ => trivial, fun _ _ _ _ _ => trivial, fun _ _ _ _ => trivial⟩

/-- The books of a step have an entry. -/
theorem settle_hands_on {s : Step C H} {next : Option NodeId} {startedAt : Timestamp}
    {r : StepResult} {n : Nat} {k : Visited → Walk (Board C H X × ω) Report}
    {x y : Board C H X × ω} {report : Report}
    (h : Walk.Goes drift T (Report.Fair o) (env.settle node s next startedAt r n k, x)
      (some report, y)) :
    ∃ v u, v.trace ≠ [] ∧ Walk.Goes drift T (Report.Fair o) (k v, u) (some report, y) := by
  unfold settle at h
  obtain ⟨completedAt, x, h⟩ := (read_keeps (env.about_true {}).atNode _).hands_on h
  cases houtcome : r.outcome with
  | success =>
    simp only [houtcome] at h
    obtain ⟨-, x, h⟩ := (Piece.Keeps.modify fun _ => trivial).hands_on h
    obtain ⟨-, x, h⟩ := (announcing_keeps (env.about_true {}).atNode _).hands_on h
    obtain ⟨-, x, h⟩ := (trackContextSize_keeps (env.about_true {}).atNode).hands_on h
    exact ⟨_, x, by simp, h⟩
  | failure error =>
    simp only [houtcome] at h
    obtain ⟨-, x, h⟩ := (Piece.Keeps.modify fun _ => trivial).hands_on h
    exact ⟨_, x, by simp, h⟩
  | suspended signal limit =>
    simp only [houtcome] at h
    exact ⟨_, x, by simp, h⟩

end Environment

/-- A step that is visited leaves an entry. -/
theorem visits_step {n : Node C H} {s : Step C H} (hn : g.get? node = some n)
    (hkind : n.kind = .step s) {context context' : C} {v : List Gist × Turn}
    (h : visits drift T o g key node none context v context') : v.1 ≠ [] := by
  obtain ⟨env, fuel, signal, x, y, u, henv, hsignal, -, -, rfl, h⟩ := h
  obtain rfl : signal = none := by simpa using hsignal
  cases h with
  | @act _ _ _ x' _ _ h =>
    simp only at h
    cases hadmission : (env.countVisit x').1 with
    | cancelled =>
      rw [hadmission] at h
      exact absurd rfl h.of_done.2.1
    | refused =>
      rw [hadmission] at h
      exact absurd h.of_done.2 (Visited.shown_unfair ⟨_, rfl, Environment.refusal henv node⟩)
    | admitted =>
      simp only [hadmission, hn, Environment.enter, hkind, Environment.runStep] at h
      obtain ⟨startedAt, x, h⟩ := (Environment.read_keeps (env.about_true g).atNode _).hands_on h
      obtain ⟨r, x, h⟩ :=
        (Environment.attempts_keeps (env.about_true g).atNode
          (Environment.onBoard_keeps (fun _ _ _ _ => trivial) s.execute) node _ _ 1).hands_on h
      obtain ⟨w, z, hw, h⟩ := Environment.settle_hands_on h
      have hgist : w.gist = u.gist := Visited.gist_of_shown (congrArg Report.gist h.of_done.1)
      rw [← hgist]
      simpa [Visited.gist] using hw

end DurableWorkflow
