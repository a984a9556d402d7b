import Mathlib.Logic.Relation

/-!
# Forks whose branches keep out of each other's way

A plot is what is left of a walk when everything is forgotten but what it does to a state: it acts
on the state, forks into branches that take turns in any order, goes on behind a fork where all of
the branches came to a good end, and comes to a good or a bad end itself.

A plot `Ignores` a change of the state if none of its actions reads or overwrites what the change
is about. Branches are `Apart` if each of them ignores whatever the other does. In an `Orderly`
plot, where the branches of every fork are apart, no step makes a difference to what comes of
doing the branches one after the other (`Orderly.step`), and so the order of the turns does not
matter: a plot that has come to its end has left behind what `run` leaves behind (`Orderly.steps`).
-/

namespace DurableWorkflow

variable {σ : Type}

inductive Plot (σ : Type) where
  | done (good : Bool)
  /-- Change the state by `f`, and go on knowing the state before the change. -/
  | act (f : σ → σ) (rest : σ → Plot σ)
  /-- Do the branches, and the rest if all of them came to a good end. -/
  | fork (branches : List (Plot σ)) (rest : Plot σ)

namespace Plot

/-- Induction over plots, with the branches of a fork as members of a list. -/
@[elab_as_elim]
theorem ind {motive : Plot σ → Prop} (done : ∀ good, motive (.done good))
    (act : ∀ f rest, (∀ s, motive (rest s)) → motive (.act f rest))
    (fork : ∀ branches rest, (∀ p ∈ branches, motive p) → motive rest →
      motive (.fork branches rest)) (p : Plot σ) : motive p :=
  @Plot.rec σ motive (fun ps => ∀ p ∈ ps, motive p) done act fork (by simp)
    (fun _ _ hp hps => List.forall_mem_cons.2 ⟨hp, hps⟩) p

mutual

/-- What comes of the plot where the branches of forks are done one after the other. -/
def run : Plot σ → σ → Bool × σ
  | done good, s => (good, s)
  | act f rest, s => (rest s).run (f s)
  | fork branches rest, s =>
    match runAll branches s with
    | (true, t) => rest.run t
    | (false, t) => (false, t)

def runAll : List (Plot σ) → σ → Bool × σ
  | [], s => (true, s)
  | p :: ps, s => ((p.run s).1 && (runAll ps (p.run s).2).1, (runAll ps (p.run s).2).2)

end

/-- One step, at a state and by a change of it. -/
inductive Step : Plot σ → σ → (σ → σ) → Plot σ → Prop
  | act (f : σ → σ) (rest : σ → Plot σ) (s : σ) : Step (.act f rest) s f (rest s)
  | branch (before after : List (Plot σ)) (rest : Plot σ) {p p' : Plot σ} {s : σ} {f : σ → σ}
      (h : Step p s f p') :
    Step (.fork (before ++ p :: after) rest) s f (.fork (before ++ p' :: after) rest)
  | report (before after : List (Plot σ)) (rest : Plot σ) (good : Bool) (s : σ) :
    Step (.fork (before ++ .done good :: after) rest) s id
      (.fork (before ++ after) (if good then rest else .done false))
  | join (rest : Plot σ) (s : σ) : Step (.fork [] rest) s id rest

/-- Any number of steps. -/
abbrev Steps : Plot σ × σ → Plot σ × σ → Prop :=
  Relation.ReflTransGen fun x y => ∃ f, Step x.1 x.2 f y.1 ∧ y.2 = f x.2

/-- All actions of the plot are among `A`. -/
inductive Within (A : (σ → σ) → Prop) : Plot σ → Prop
  | done (good : Bool) : Within A (.done good)
  | act {f : σ → σ} {rest : σ → Plot σ} (hf : A f) (h : ∀ s, Within A (rest s)) :
    Within A (.act f rest)
  | fork {branches : List (Plot σ)} {rest : Plot σ} (hall : ∀ p ∈ branches, Within A p)
    (h : Within A rest) : Within A (.fork branches rest)

/-- The change makes no difference to the plot, and the plot none to what the change does. -/
inductive Ignores (k : σ → σ) : Plot σ → Prop
  | done (good : Bool) : Ignores k (.done good)
  | act {f : σ → σ} {rest : σ → Plot σ} (hf : ∀ s, f (k s) = k (f s))
    (hrest : ∀ s, rest (k s) = rest s) (h : ∀ s, Ignores k (rest s)) : Ignores k (.act f rest)
  | fork {branches : List (Plot σ)} {rest : Plot σ} (hall : ∀ p ∈ branches, Ignores k p)
    (h : Ignores k rest) : Ignores k (.fork branches rest)

/-- Each ignores what the other does. -/
def Apart (p q : Plot σ) : Prop :=
  ∃ A B, p.Within A ∧ q.Within B ∧ (∀ f, A f → q.Ignores f) ∧ ∀ f, B f → p.Ignores f

/-- The branches of every fork are apart. -/
inductive Orderly : Plot σ → Prop
  | done (good : Bool) : Orderly (.done good)
  | act {f : σ → σ} {rest : σ → Plot σ} (h : ∀ s, Orderly (rest s)) : Orderly (.act f rest)
  | fork {branches : List (Plot σ)} {rest : Plot σ} (hall : ∀ p ∈ branches, Orderly p)
    (hapart : branches.Pairwise Apart) (h : Orderly rest) : Orderly (.fork branches rest)

variable {A : (σ → σ) → Prop} {p p' q : Plot σ} {f k l : σ → σ} {s t : σ}

/-! ### Changes that are ignored -/

theorem Ignores.id (p : Plot σ) : p.Ignores id := by
  induction p using ind with
  | done good => exact .done good
  | act f rest ih => exact .act (fun _ => rfl) (fun _ => rfl) ih
  | fork branches rest ihs ih => exact .fork ihs ih

theorem Ignores.comp (hk : p.Ignores k) (hl : p.Ignores l) : p.Ignores (k ∘ l) := by
  induction hk with
  | done good => exact .done good
  | @act f rest hf hrest _ ih =>
    cases hl with
    | act hf' hrest' hl =>
      refine .act (fun s => ?_) (fun s => (hrest (l s)).trans (hrest' s)) fun s => ih s (hl s)
      exact (hf (l s)).trans (congrArg k (hf' s))
  | fork _ _ ihs ih =>
    cases hl with
    | fork hls hl => exact .fork (fun p hp => ihs p hp (hls p hp)) (ih hl)

theorem runAll_of_ignored {ps : List (Plot σ)}
    (h : ∀ p ∈ ps, ∀ s, p.run (k s) = ((p.run s).1, k (p.run s).2)) (s : σ) :
    runAll ps (k s) = ((runAll ps s).1, k (runAll ps s).2) := by
  induction ps generalizing s with
  | nil => rfl
  | cons p ps ih =>
    obtain ⟨hp, hps⟩ := List.forall_mem_cons.1 h
    simp only [runAll, hp, ih hps]

/-- A change that is ignored can as well come after the whole plot. -/
theorem Ignores.run (h : p.Ignores k) (s : σ) : p.run (k s) = ((p.run s).1, k (p.run s).2) := by
  induction h generalizing s with
  | done => rfl
  | @act f rest hf hrest _ ih => rw [Plot.run, Plot.run, hf, hrest, ih]
  | @fork branches rest _ _ ihs ih =>
    rw [Plot.run, Plot.run, runAll_of_ignored ihs]
    cases runAll branches s with
    | mk good t =>
      cases good with
      | false => rfl
      | true => exact ih t

/-- Whoever ignores all of `A` ignores the change. -/
def Covers (A : (σ → σ) → Prop) (k : σ → σ) : Prop :=
  ∀ q : Plot σ, (∀ f, A f → q.Ignores f) → q.Ignores k

theorem Covers.id : Covers A id := fun q _ => .id q

theorem Covers.comp (hk : Covers A k) (hl : Covers A l) : Covers A (k ∘ l) :=
  fun q hq => (hk q hq).comp (hl q hq)

theorem exists_change_all {ps : List (Plot σ)}
    (h : ∀ p ∈ ps, ∀ s, ∃ k, (p.run s).2 = k s ∧ Covers A k) (s : σ) :
    ∃ k, (runAll ps s).2 = k s ∧ Covers A k := by
  induction ps generalizing s with
  | nil => exact ⟨_, rfl, .id⟩
  | cons p ps ih =>
    obtain ⟨hp, hps⟩ := List.forall_mem_cons.1 h
    obtain ⟨k, hk, hcovers⟩ := hp s
    obtain ⟨l, hl, hcovers'⟩ := ih hps (p.run s).2
    exact ⟨l ∘ k, hl.trans (congrArg l hk), hcovers'.comp hcovers⟩

/-- What a plot does to a state amounts to a change that all ignore who ignore its actions. -/
theorem Within.exists_change (h : p.Within A) (s : σ) :
    ∃ k, (p.run s).2 = k s ∧ Covers A k := by
  induction h generalizing s with
  | done => exact ⟨_, rfl, .id⟩
  | @act f rest hf _ ih =>
    obtain ⟨k, hk, hcovers⟩ := ih s (f s)
    exact ⟨k ∘ f, hk, hcovers.comp fun q hq => hq f hf⟩
  | @fork branches rest _ _ ihs ih =>
    obtain ⟨k, hk, hcovers⟩ := exists_change_all ihs s
    rw [run]
    cases hrun : runAll branches s with
    | mk good t =>
      rw [hrun] at hk
      cases good with
      | false => exact ⟨k, hk, hcovers⟩
      | true =>
        obtain ⟨l, hl, hcovers'⟩ := ih t
        exact ⟨l ∘ k, hl.trans (congrArg l hk), hcovers'.comp hcovers⟩

/-! ### Steps -/

theorem forall_mem_replaced {α : Type} {P : α → Prop} {before after : List α} {a b : α}
    (h : ∀ x ∈ before ++ a :: after, P x) (hb : P b) : ∀ x ∈ before ++ b :: after, P x := by
  rw [List.forall_mem_append, List.forall_mem_cons] at h ⊢
  exact ⟨h.1, hb, h.2.2⟩

theorem forall_mem_dropped {α : Type} {P : α → Prop} {before after : List α} {a : α}
    (h : ∀ x ∈ before ++ a :: after, P x) : ∀ x ∈ before ++ after, P x := by
  rw [List.forall_mem_append, List.forall_mem_cons] at h
  exact List.forall_mem_append.2 ⟨h.1, h.2.2⟩

theorem Step.within (h : p.Step s f p') (hp : p.Within A) : p'.Within A ∧ (f = id ∨ A f) := by
  induction h with
  | act f rest s =>
    cases hp with
    | act hf hp => exact ⟨hp s, .inr hf⟩
  | branch before after rest _ ih =>
    cases hp with
    | fork hall hrest =>
      obtain ⟨hp', hf⟩ := ih (hall _ (by simp))
      exact ⟨.fork (forall_mem_replaced hall hp') hrest, hf⟩
  | report before after rest good s =>
    cases hp with
    | fork hall hrest =>
      refine ⟨.fork (forall_mem_dropped hall) ?_, .inl rfl⟩
      cases good with
      | true => exact hrest
      | false => exact .done false
  | join =>
    cases hp with
    | fork _ hrest => exact ⟨hrest, .inl rfl⟩

theorem Step.ignores (h : p.Step s f p') (hk : p.Ignores k) :
    p'.Ignores k ∧ f (k s) = k (f s) := by
  induction h with
  | act f rest s =>
    cases hk with
    | act hf _ hk => exact ⟨hk s, hf s⟩
  | branch before after rest _ ih =>
    cases hk with
    | fork hall hrest =>
      obtain ⟨hp', hf⟩ := ih (hall _ (by simp))
      exact ⟨.fork (forall_mem_replaced hall hp') hrest, hf⟩
  | report before after rest good s =>
    cases hk with
    | fork hall hrest =>
      refine ⟨.fork (forall_mem_dropped hall) ?_, rfl⟩
      cases good with
      | true => exact hrest
      | false => exact .done false
  | join =>
    cases hk with
    | fork _ hrest => exact ⟨hrest, rfl⟩

theorem Apart.symm (h : p.Apart q) : q.Apart p := by
  obtain ⟨A, B, hp, hq, hA, hB⟩ := h
  exact ⟨B, A, hq, hp, hB, hA⟩

theorem Apart.step (h : q.Apart p) (hstep : p.Step s f p') : q.Apart p' ∧ q.Ignores f := by
  obtain ⟨A, B, hq, hp, hA, hB⟩ := h
  obtain ⟨hp', hf⟩ := hstep.within hp
  refine ⟨⟨A, B, hq, hp', fun g hg => (hstep.ignores (hA g hg)).1, hB⟩, ?_⟩
  rcases hf with rfl | hf
  · exact .id q
  · exact hB f hf

theorem runAll_append (ps qs : List (Plot σ)) (s : σ) : runAll (ps ++ qs) s =
    ((runAll ps s).1 && (runAll qs (runAll ps s).2).1, (runAll qs (runAll ps s).2).2) := by
  induction ps generalizing s with
  | nil => rfl
  | cons p ps ih => simp only [List.cons_append, runAll, ih, Bool.and_assoc]

/-- The step of a branch makes no difference, though others were meant to be done before it. -/
theorem runAll_step (hstep : p.Step s f p') (hrun : p.run s = p'.run (f s))
    {before : List (Plot σ)} (hbefore : ∀ q ∈ before, q.Apart p) (after : List (Plot σ))
    (hk : p.Ignores k) :
    runAll (before ++ p :: after) (k s) = runAll (before ++ p' :: after) (f (k s)) := by
  induction before generalizing k with
  | nil =>
    obtain ⟨hk', hf⟩ := hstep.ignores hk
    have hsame : p.run (k s) = p'.run (f (k s)) := by rw [hf, hk.run, hk'.run, hrun]
    simp only [List.nil_append, runAll, hsame]
  | cons q before ih =>
    -- What the branch before it does comes before the step on one side and after it on the other.
    obtain ⟨hq, hbefore⟩ := List.forall_mem_cons.1 hbefore
    have hqf : q.Ignores f := (hq.step hstep).2
    obtain ⟨A, B, hwithin, -, hA, -⟩ := hq
    obtain ⟨l, hl, hcovers⟩ := hwithin.exists_change (k s)
    have hrest := ih hbefore ((hcovers p hA).comp hk)
    rw [Function.comp_apply] at hrest
    simp only [List.cons_append, runAll, hqf.run, hl, hrest]

/-- A step of an orderly plot makes no difference to what comes of it in the end. -/
theorem Orderly.step (h : p.Orderly) (hstep : p.Step s f p') :
    p.run s = p'.run (f s) ∧ p'.Orderly := by
  induction hstep with
  | act f rest s =>
    cases h with
    | act h => exact ⟨rfl, h s⟩
  | @branch before after rest p p' s f hstep ih =>
    cases h with
    | fork hall hapart h =>
      obtain ⟨hrun, hp'⟩ := ih (hall p (by simp))
      rw [List.pairwise_append, List.pairwise_cons] at hapart
      obtain ⟨hbefore, ⟨hp, hafter⟩, hacross⟩ := hapart
      have hfront (q : Plot σ) (hq : q ∈ before) : q.Apart p := hacross q hq p List.mem_cons_self
      have hsame : runAll (before ++ p :: after) s = runAll (before ++ p' :: after) (f s) :=
        runAll_step hstep hrun hfront after (.id p)
      refine ⟨by rw [run, run, hsame], .fork (forall_mem_replaced hall hp') ?_ h⟩
      rw [List.pairwise_append, List.pairwise_cons]
      refine ⟨hbefore, ⟨fun q hq => ((hp q hq).symm.step hstep).1.symm, hafter⟩, fun q hq => ?_⟩
      refine List.forall_mem_cons.2 ⟨((hfront q hq).step hstep).1, fun r hr => ?_⟩
      exact hacross q hq r (List.mem_cons_of_mem _ hr)
  | report before after rest good s =>
    cases h with
    | fork hall hapart h =>
      have hsub : (before ++ after).Sublist (before ++ Plot.done good :: after) :=
        (List.Sublist.refl before).append (List.sublist_cons_self _ after)
      refine ⟨?_, .fork (forall_mem_dropped hall) (hapart.sublist hsub) ?_⟩
      · simp only [run, runAll_append, runAll, id]
        cases good <;> cases (runAll before s).1 <;>
          cases (runAll after (runAll before s).2).1 <;> rfl
      · cases good with
        | true => exact h
        | false => exact .done false
  | join rest s =>
    cases h with
    | fork _ _ h => exact ⟨rfl, h⟩

theorem Orderly.steps {x y : Plot σ × σ} (h : x.1.Orderly) (hsteps : Steps x y) :
    x.1.run x.2 = y.1.run y.2 ∧ y.1.Orderly := by
  induction hsteps with
  | refl => exact ⟨rfl, h⟩
  | tail _ hstep ih =>
    obtain ⟨hrun, hy⟩ := ih
    obtain ⟨f, hstep, hs⟩ := hstep
    obtain ⟨hrun', hz⟩ := hy.step hstep
    rw [hs]
    exact ⟨hrun.trans hrun', hz⟩

theorem Steps.branch {before after : List (Plot σ)} {rest : Plot σ} {x y : Plot σ × σ}
    (h : Steps x y) : Steps (.fork (before ++ x.1 :: after) rest, x.2)
      (.fork (before ++ y.1 :: after) rest, y.2) :=
  h.lift (fun x => (Plot.fork (before ++ x.1 :: after) rest, x.2))
    fun _ _ ⟨f, hstep, hs⟩ => ⟨f, .branch before after rest hstep, hs⟩

end Plot

end DurableWorkflow
