import DurableWorkflow.Proofs.Announce.Settled
import DurableWorkflow.Proofs.Coordinator.Echo

/-!
# Notifiers cannot influence anything

Every system has an echo in which another notifier is used: the same calls are made at the same
times and have come to the same places, the same is stored, and only what notifiers announce may
differ (`System.Echoes`). Whatever step the one can take, the echo can take, too.
-/

namespace DurableWorkflow

variable {H R : Type} {view : R → Uuid → Option Instance}

theorem Dispatcher.journaled_through {C : Type} (n : Notifier) (call : Nat)
    (d : Dispatcher C H R) : (d.through n).journaled call = (d.journaled call).through n := by
  simp only [journaled, through, List.map_map, Function.comp_def]
  rfl

/-- This is what notifiers announce. -/
def Happening.isNotice : Happening → Bool
  | .approvalRequested .. | .instanceFinished .. => true
  | _ => false

/-- What has been announced by others than notifiers, the latest first. -/
def World.others {R : Type} (w : World R H) : List Event :=
  w.announced.filter fun e => !e.what.isNotice

/-- The notifier announces only what notifiers announce, if anything. -/
def Notifier.Modest (n : Notifier) : Prop :=
  ∀ k notice es, n.notify k notice = .ok es → ∀ e ∈ es, e.what.isNotice = true

theorem Notifier.announcing_modest : announcing.Modest := by
  intro k notice es h e he
  cases notice with
  | approvalRequested s =>
    simp only [announcing, events] at h
    split at h
    · cases h
      rw [List.mem_singleton.1 he]
      rfl
    · cases h
  | completed s | errored s =>
    cases h
    rw [List.mem_singleton.1 he]
    rfl

/-- A notifier that announces every notice unless it fails, and fails whenever it likes. -/
theorem Notifier.modest_of_fails {n : Notifier} (h : ∀ k notice,
    n.notify k notice = events notice ∨ ∃ fault, n.notify k notice = .error fault) : n.Modest := by
  intro k notice es hes
  rcases h k notice with hevents | ⟨fault, hfault⟩
  · exact announcing_modest k notice es (hevents.symm.trans hes)
  · rw [hfault] at hes
    cases hes

theorem Notifier.Modest.hear {n : Notifier} (hn : n.Modest) (notice : Notice)
    (x : List Event × Nat) : ((n.hear notice x).1.filter fun e => !e.what.isNotice) =
      x.1.filter fun e => !e.what.isNotice := by
  unfold Notifier.hear
  split
  · next es hes =>
    have hnone : es.reverse.filter (fun e => !e.what.isNotice) = [] :=
      List.filter_eq_nil_iff.2 fun e he => by simp [hn _ _ _ hes e (List.mem_reverse.1 he)]
    rw [List.filter_append, hnone, List.nil_append]
  · rfl

/-- Alongside modest notifiers the same is announced. -/
theorem Heard.others {n n' : Notifier} {x y : List Event × Nat} (h : Heard n n' x y)
    (hn : n.Modest) (hn' : n'.Modest) : (y.1.filter fun e => !e.what.isNotice) =
      x.1.filter fun e => !e.what.isNotice := by
  induction h with
  | refl => rfl
  | publish e _ ih => rw [List.filter_cons, List.filter_cons, ih]
  | tell notice _ ih => rw [hn.hear, hn'.hear, ih]

namespace Demand

/-- The same call through another notifier. -/
def through (n : Notifier) : Demand H R → Demand H R
  | start c operation definition context => .start (c.through n) operation definition context
  | signal c operation id name payload => .signal (c.through n) operation id name payload
  | resume c operation id => .resume (c.through n) operation id
  | cancel c operation id => .cancel (c.through n) operation id
  | dispatch d operation id name payload => .dispatch (d.through n) operation id name payload
  | sweep sweeper now => .sweep (sweeper.through n) now
  | delete repository id => .delete repository id

/-- What a course of the call through another notifier answers is an answer to the call. -/
def recast (n : Notifier) {R' : Type} : (t : Demand H R) →
    Errand (t.through n).Context H R' (t.through n).Answer → Errand t.Context H R' t.Answer
  | start .., c | signal .., c | resume .., c | cancel .., c | dispatch .., c | sweep .., c
  | delete .., c => c

variable {demand : Demand H R} {n n' : Notifier}

theorem through_on (h : demand.On view) : (demand.through n).On view := by
  cases demand with
  | dispatch d =>
    refine ⟨h.1, fun c hc => ?_⟩
    obtain ⟨c, hmem, rfl⟩ := List.mem_map.1 hc
    exact h.2 c hmem
  | start | signal | resume | cancel | sweep | delete => exact h

theorem through_through (h : demand.Through n) : (demand.through n').Through n' := by
  cases demand with
  | dispatch d =>
    intro c hc
    obtain ⟨c, -, rfl⟩ := List.mem_map.1 hc
    rfl
  | delete => exact h
  | start | signal | resume | cancel | sweep => rfl

/-- A call does the same through any notifier. -/
theorem course_echoes (h : demand.Through n) (call : Nat) :
    (demand.course call).Echoes (World.Alike n n')
      (demand.recast n' ((demand.through n').course call)) := by
  cases demand with
  | start c operation definition context =>
    exact (c.journaled call).start_echoes h definition context
  | signal c operation id name payload =>
    exact (c.journaled call).signal_echoes h name payload
  | resume c operation id => exact (c.journaled call).resume_echoes h
  | cancel c operation id => exact (c.journaled call).cancel_echoes
  | dispatch d operation id name payload =>
    show Course.Echoes _ _ (((d.through n').journaled call).dispatch operation id name payload).run
    rw [d.journaled_through]
    refine (d.journaled call).dispatch_echoes (fun c hc => ?_) name payload
    obtain ⟨c, hmem, rfl⟩ := List.mem_map.1 hc
    exact h c hmem
  | sweep sweeper now => exact (sweeper.journaled call).sweep_echoes h now
  | delete => exact h.elim

theorem step_recast {R' : Type} {c : Errand (demand.through n).Context H R' (demand.through n).Answer}
    {d : Errand demand.Context H R' demand.Answer} {w v : World R' H}
    (h : Course.Step (demand.recast n c, w) (d, v)) :
    ∃ c', demand.recast n c' = d ∧ Course.Step (c, w) (c', v) := by
  cases demand with
  | start | signal | resume | cancel | dispatch | sweep | delete => exact ⟨d, rfl, h⟩

end Demand

/-- The second call is the first one through another notifier, and from here on both do the same. -/
inductive Thread.Echoes (n n' : Notifier) : Thread H R → Thread H R → Prop
  | intro {demand : Demand H R} (number : Nat)
    {course : Errand demand.Context H (Journaled R) demand.Answer}
    {echo : Errand (demand.through n').Context H (Journaled R) (demand.through n').Answer}
    (h : course.Echoes (World.Alike n n') (demand.recast n' echo)) :
    Echoes n n' ⟨demand, number, course⟩ ⟨demand.through n', number, echo⟩

/-- The second call is the first one through this notifier, and what the one has come to the other
has come to, too. -/
def Thread.Agrees (n : Notifier) (th th' : Thread H R) : Prop :=
  ∃ echo, th' = ⟨th.demand.through n, th.number, echo⟩ ∧
    (∀ a, th.course = .done a ↔ th.demand.recast n echo = .done a) ∧
    ∀ m, th.course = .crash m ↔ th.demand.recast n echo = .crash m

theorem Thread.Echoes.agrees {n n' : Notifier} {th th' : Thread H R} (h : th.Echoes n n' th') :
    th.Agrees n' th' := by
  obtain ⟨number, h⟩ := h
  exact ⟨_, rfl, h.done_iff, h.crash_iff⟩

namespace System

/-- In the second system the same calls are made through this notifier, they do the same, and
everything is the same but what notifiers have done. -/
structure Echoes (n n' : Notifier) (σ τ : System H R) : Prop where
  world : σ.world.Alike n n' τ.world
  threads : List.Forall₂ (Thread.Echoes n n') σ.threads τ.threads
  calls : τ.calls = σ.calls

variable {σ σ' τ : System H R} {n n' : Notifier}

/-- What stands in the middle of a list stands in the middle of a list like it. -/
theorem forall₂_middle {α β : Type*} {P : α → β → Prop} {l r : List α} {a : α} {m : List β}
    (h : List.Forall₂ P (l ++ a :: r) m) : ∃ l' b r', m = l' ++ b :: r' ∧ List.Forall₂ P l l' ∧
      P a b ∧ List.Forall₂ P r r' := by
  induction l generalizing m with
  | nil =>
    obtain _ | ⟨hab, hr⟩ := h
    exact ⟨[], _, _, rfl, .nil, hab, hr⟩
  | cons x l ih =>
    obtain _ | ⟨hx, h⟩ := h
    obtain ⟨l', b, r', rfl, hl, hab, hr⟩ := ih h
    exact ⟨_ :: l', b, r', rfl, .cons hx hl, hab, hr⟩

theorem Echoes.initial {σ₀ : System H R} (h : σ₀.threads = []) : σ₀.Echoes n n' σ₀ where
  world := .refl σ₀.world
  threads := h ▸ .nil
  calls := rfl

theorem Echoes.turn (h : σ.Echoes n n' τ)
    (hturn : Turn view n σ σ') : ∃ τ', Turn view n' τ τ' ∧ σ'.Echoes n n' τ' := by
  obtain ⟨hworld, hthreads, hcalls⟩ := h
  cases hturn with
  | call _ demand hon hthrough =>
    refine ⟨_, .call τ (demand.through n') (Demand.through_on hon)
      (Demand.through_through hthrough), hworld, .cons ?_ hthreads, congrArg (· + 1) hcalls⟩
    rw [hcalls]
    exact .intro _ (Demand.course_echoes hthrough _)
  | move l r th calls w w' course hmove =>
    obtain ⟨v, threads, calls'⟩ := τ
    obtain ⟨l', th', r', rfl, hl, hth, hr⟩ := forall₂_middle hthreads
    obtain ⟨number, hth⟩ := hth
    obtain ⟨course', v', hmove', hth, hworld'⟩ := hth.step hmove hworld
    obtain ⟨echo, rfl, hstep⟩ := Demand.step_recast hmove'
    refine ⟨_, .move l' r' _ _ v v' echo hstep, hworld', ?_, hcalls⟩
    exact List.rel_append hl (.cons (.intro number hth) hr)
  | outside _ w hstore hannounced hnotices =>
    let v : World (Journaled R) H :=
      { w with announced := τ.world.announced, notices := τ.world.notices }
    refine ⟨_, .outside τ v (hstore.trans hworld.store_eq.symm) rfl rfl, ?_, hthreads, hcalls⟩
    refine ⟨τ.world.announced, τ.world.notices, ?_⟩
    rw [hannounced, hnotices]
    exact hworld.heard

theorem Echoes.turns (h : σ.Echoes n n' τ)
    (hturns : Turns view n σ σ') : ∃ τ', Turns view n' τ τ' ∧ σ'.Echoes n n' τ' := by
  induction hturns with
  | refl => exact ⟨τ, .refl, h⟩
  | tail _ hturn ih =>
    obtain ⟨τ', hturns', h'⟩ := ih
    obtain ⟨τ'', hturn', h''⟩ := h'.turn hturn
    exact ⟨τ'', hturns'.tail hturn', h''⟩

/-- The same has been stored and noted, the same has been announced beside the notifiers, which have
been given the same notices, and all calls have come to the same. -/
structure Agrees (n n' : Notifier) (σ τ : System H R) : Prop where
  store : τ.world.store = σ.world.store
  heard : Heard n n' (σ.world.announced, σ.world.notices) (τ.world.announced, τ.world.notices)
  threads : List.Forall₂ (Thread.Agrees n') σ.threads τ.threads

theorem Echoes.agrees (h : σ.Echoes n n' τ) : σ.Agrees n n' τ where
  store := h.world.store_eq
  heard := h.world.heard
  threads := h.threads.imp fun _ _ h => h.agrees

/-- Where every notice is announced, nothing is announced of instances but what has been stored, and
each of it once; when all calls are over, all of it has been announced. And with any other notifier
the same calls store the same and come to the same, and only what notifiers announce can differ. -/
theorem announcements {σ₀ : System H R} (hinitial : Initial view σ₀)
    (hsilent : σ₀.world.announced = []) :
    (∀ σ, Turns view .announcing σ₀ σ → σ.world.told.Subperm σ.journal.dues ∧
      ((∀ th ∈ σ.threads, th.Over) → σ.world.told.Perm σ.journal.dues)) ∧
    ∀ n n' σ, Turns view n σ₀ σ → ∃ τ, Turns view n' σ₀ τ ∧ σ.Agrees n n' τ ∧
      (n.Modest → n'.Modest → τ.world.others = σ.world.others) := by
  refine ⟨fun σ hturns => ?_, fun n n' σ hturns => ?_⟩
  · have hbalanced := (hinitial.balanced hsilent).turns hturns
    exact ⟨hbalanced.subperm, hbalanced.perm⟩
  · have hfirst : σ₀.Echoes n n' σ₀ := .initial hinitial.threads
    obtain ⟨τ, hechoed, hechoes⟩ := hfirst.turns hturns
    have hagrees := hechoes.agrees
    exact ⟨τ, hechoed, hagrees, hagrees.heard.others⟩

/-- A call is made, and it goes on alone to its end. -/
theorem Turns.serve {demand : Demand H R} (hon : demand.On view) (hthrough : demand.Through n)
    (h : σ.serve? demand = some σ') : Turns view n σ σ' := by
  unfold serve? at h
  split at h
  · next a w calls heq =>
    cases h
    let th : Thread H R := .begin σ.calls demand
    have hmoves : ∀ {y : Errand demand.Context H (Journaled R) demand.Answer × World (Journaled R) H},
        Course.Steps (th.course, σ.world) y → Turns view n ⟨σ.world, [] ++ th :: σ.threads, σ.calls + 1⟩
          ⟨y.2, [] ++ { th with course := y.1 } :: σ.threads, σ.calls + 1⟩ := by
      intro y hsteps
      induction hsteps with
      | refl => exact .refl
      | tail _ hstep ih => exact ih.tail (.move [] σ.threads _ _ _ _ _ hstep)
    exact .head (.call σ demand hon hthrough) (hmoves (Course.steps_of_inOrder _ heq))
  · simp at h

theorem over_of_serve {demand : Demand H R} (hover : ∀ th ∈ σ.threads, th.Over)
    (h : σ.serve? demand = some σ') : ∀ th ∈ σ'.threads, th.Over := by
  unfold serve? at h
  split at h
  · cases h
    intro th hth
    rcases List.mem_cons.1 hth with rfl | hth
    · trivial
    · exact hover th hth
  · cases h

end System

/-- A coordinator that announces every notice. -/
def crier : Coordinator Nat Nat Memory where
  number := 0
  kind := ⟨"Nat", fun n => some (.int n), fun j => match j with | .int n => some n.toNat | _ => none⟩
  repository := Memory.repository
  notifier := .announcing
  definitions := [gating]

/-- An instance waits, and ends after its signal; a notifier that fails at every second notice makes
no difference. -/
theorem System.announcements_crier : ∃ (σ₀ σ τ : System Nat Memory) (n : Notifier) (id : Uuid),
    Initial Memory.find? σ₀ ∧ σ₀.world.announced = [] ∧
      Turns Memory.find? .announcing σ₀ σ ∧
      σ.journal.dues = [⟨id, .instanceFinished "gating" .completed none⟩, ⟨id, .runResumed "go"⟩,
        ⟨id, .approvalRequested "gating" "go" (some ⟨1, 0⟩)⟩] ∧
      σ.world.told.Perm σ.journal.dues ∧ (∃ notice fault, n.notify 0 notice = .error fault) ∧
      Turns Memory.find? n σ₀ τ ∧ σ.Agrees .announcing n τ ∧ τ.world.others = σ.world.others := by
  let σ₀ : System Nat Memory :=
    ⟨{ store := { store := default }, memory := 0, wall := ⟨0, 0⟩ }, [], 0⟩
  let id : Uuid := .timeOrdered 0 0
  let n : Notifier :=
    ⟨fun k notice => if k % 2 = 0 then .error ⟨"down"⟩ else Notifier.events notice⟩
  have hrun : ((σ₀.serve? (.start crier 0 "gating" (0 : Nat))).bind fun σ =>
      (σ.serve? (.signal crier 1 id "go" .null)).bind fun τ =>
        if τ.journal.dues = [⟨id, .instanceFinished "gating" .completed none⟩,
          ⟨id, .runResumed "go"⟩, ⟨id, .approvalRequested "gating" "go" (some ⟨1, 0⟩)⟩]
        then some () else none) = some () := by
    decide +kernel
  simp only [Option.bind_eq_some_iff, Option.ite_none_right_eq_some, and_true] at hrun
  obtain ⟨ρ, hρ, σ, hσ, hdues⟩ := hrun
  have hinitial : Initial Memory.find? σ₀ := ⟨fun _ => rfl, rfl, rfl⟩
  have hturns : Turns Memory.find? .announcing σ₀ σ := by
    refine (Turns.serve ?_ ?_ hρ).trans (Turns.serve ?_ ?_ hσ)
    · exact Memory.repository_lawful
    · rfl
    · exact Memory.repository_lawful
    · rfl
  have hn : n.Modest := by
    refine Notifier.modest_of_fails fun k notice => ?_
    by_cases hk : k % 2 = 0
    · exact .inr ⟨⟨"down"⟩, if_pos hk⟩
    · exact .inl (if_neg hk)
  obtain ⟨hmatch, hecho⟩ := announcements hinitial rfl
  obtain ⟨τ, hτ, hagrees, hothers⟩ := hecho .announcing n σ hturns
  refine ⟨σ₀, σ, τ, n, id, hinitial, rfl, hturns, hdues, (hmatch σ hturns).2 ?_, ?_, hτ, hagrees,
    hothers Notifier.announcing_modest hn⟩
  · have hnobody : ∀ th ∈ σ₀.threads, th.Over := fun th hth => absurd hth List.not_mem_nil
    exact over_of_serve (over_of_serve hnobody hρ) hσ
  · exact ⟨.completed default, ⟨"down"⟩, rfl⟩

end DurableWorkflow
