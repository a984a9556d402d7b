import DurableWorkflow.Proofs.Walk.Schedule

/-!
# Walks piece by piece

By a schedule a walk that begins with a piece is dropped within the piece, or ended by it, or goes
on with what the piece hands on (`Piece.Keeps.splits`). Within the piece nothing happens but what
the piece keeps. `Course.Always` says what holds wherever a course is dropped, and when it ends.
-/

namespace DurableWorkflow

variable {σ τ ρ α β γ ω : Type}

/-! ### Turns are steps -/

theorem Work.step_of_turn {late : Bool} {work work' : Work σ StepResult} {s t : σ}
    (h : work.turn late s = (.inr work', t)) : Work.Step (work, s) (work', t) := by
  unfold turn at h
  split at h
  · simp at h
  · cases work with
    | done | crash => simp at h
    | act f rest =>
      cases h
      exact .act f rest s
    | sleep d =>
      cases h
      exact .sleep d work' s
    | awaitCancel =>
      cases h
      exact .awaitCancel work' s

/-- A call that ends leaves the state alone, and ended because its work did, or because it was
late. -/
theorem Work.end_of_turn {late : Bool} {work : Work σ StepResult} {s t : σ} {e : CallEnd}
    (h : work.turn late s = (.inl e, t)) :
    t = s ∧ (late = true ∧ e = .timedOut ∨ ∃ e' : Work.End StepResult, work = e'.work ∧
      e = .ofWork e') := by
  unfold turn at h
  split at h
  · next hlate =>
    cases h
    exact ⟨rfl, .inl ⟨hlate, rfl⟩⟩
  · cases work with
    | done r =>
      cases h
      exact ⟨rfl, .inr ⟨.done r, rfl, rfl⟩⟩
    | crash m =>
      cases h
      exact ⟨rfl, .inr ⟨.crash m, rfl, rfl⟩⟩
    | act | sleep | awaitCancel => simp at h

/-- A list around a place. -/
theorem exists_around {l : List α} {i : Nat} {a : α} (h : l[i]? = some a) :
    ∃ before after, l = before ++ a :: after ∧ (∀ b, l.set i b = before ++ b :: after) ∧
      l.eraseIdx i = before ++ after := by
  induction l generalizing i with
  | nil => simp at h
  | cons x l ih =>
    cases i with
    | zero =>
      cases h
      exact ⟨[], l, rfl, fun b => rfl, rfl⟩
    | succ i =>
      obtain ⟨before, after, rfl, hset, herase⟩ := ih h
      exact ⟨x :: before, after, rfl, fun b => by rw [List.set_cons_succ, hset]; rfl,
        by rw [List.eraseIdx_cons_succ, herase]; rfl⟩

namespace Walk

variable {ok : ρ → Prop}

/-- Every turn is a step. -/
theorem Cued.step {c : Cue} {x y : Walk σ ρ × σ} (h : Cued ok c x y) : Walk.Step x y := by
  induction h with
  | act c f rest s => exact .act f rest s
  | pause c d rest s => exact .pause d rest false s
  | @ended c limit work s t e rest h =>
    obtain ⟨rfl, ⟨hlate, rfl⟩ | ⟨e', rfl, rfl⟩⟩ := Work.end_of_turn h
    · rw [Bool.and_eq_true, Option.isSome_iff_exists] at hlate
      obtain ⟨-, d, rfl⟩ := hlate
      exact .late d work rest t
    · cases e' with
      | done r => exact .done limit r rest t
      | crash m => exact .crash limit m rest t
  | work rest h => exact .work (Work.step_of_turn h)
  | branch rest hw _ ih =>
    obtain ⟨before, after, hbranches, hset, -⟩ := exists_around hw
    rw [hset, hbranches]
    exact .branch before after ih
  | report rest s hr _ =>
    obtain ⟨before, after, hbranches, -, herase⟩ := exists_around hr
    rw [herase, hbranches]
    exact .report before after _ rest s
  | join c rest s => exact .join rest s

end Walk

/-! ### What happens on the way -/

/-- A relation that passes through drift, and from one action to the next. -/
structure Spans (drift Q : σ → σ → Prop) : Prop where
  refl : ∀ s, Q s s
  trans : ∀ {s t u}, Q s t → Q t u → Q s u
  drift : ∀ {s t}, drift s t → Q s t

variable {drift Q : σ → σ → Prop}

theorem Spans.drifts (h : Spans drift Q) {s t : σ} (hdrifts : Relation.ReflTransGen drift s t) :
    Q s t := by
  induction hdrifts with
  | refl => exact h.refl s
  | tail _ hdrift ih => exact h.trans ih (h.drift hdrift)

theorem Work.Keeps.moves (hQ : Spans drift Q) {x y : Work σ α × σ}
    (h : Moves drift Work.Step x y) (hx : x.1.Keeps Q) : Q x.2 y.2 ∧ y.1.Keeps Q := by
  induction h with
  | refl => exact ⟨hQ.refl _, hx⟩
  | tail _ hstep ih =>
    obtain ⟨hs, hwork⟩ := ih
    obtain hstep | ⟨hsame, hdrift⟩ := hstep
    · obtain ⟨hact, hwork'⟩ := Work.Keeps.step hstep hwork
      obtain hact | hact := hact
      · exact ⟨hact ▸ hs, hwork'⟩
      · exact ⟨hQ.trans hs hact, hwork'⟩
    · exact ⟨hQ.trans hs (hQ.drift hdrift), hsame ▸ hwork⟩

theorem Work.Keeps.ends (hQ : Spans drift Q) {late : Nat → Bool} {n : Nat}
    {x : Work σ StepResult × σ} {y : CallEnd × σ} (h : Work.Ends drift late n x y)
    (hx : x.1.Keeps Q) : Q x.2 y.2 := by
  induction h with
  | ended hdrift h =>
    obtain ⟨rfl, -⟩ := Work.end_of_turn h
    exact hQ.drift hdrift
  | next hdrift h _ ih =>
    obtain ⟨hact, hwork⟩ := Work.Keeps.step (Work.step_of_turn h) hx
    refine hQ.trans (hQ.drift hdrift) ?_
    obtain hact | hact := hact
    · have hrest := ih hwork
      rwa [hact] at hrest
    · exact hQ.trans hact (ih hwork)

namespace Walk

theorem Turn.keeps (hQ : Spans drift Q) {x y : List (Walk σ ρ) × σ} (h : Turn x y)
    (hx : ∀ w ∈ x.1, w.Keeps Q) : Q x.2 y.2 ∧ ∀ w ∈ y.1, w.Keeps Q := by
  cases h with
  | @step before after w w' s s' hstep =>
    obtain ⟨hact, hw'⟩ := Walk.Keeps.step hstep (hx w (by simp))
    refine ⟨?_, fun v hv => ?_⟩
    · obtain hact | hact := hact
      · have hsame : s' = s := hact
        rw [hsame]
        exact hQ.refl s
      · exact hact
    · rw [List.mem_append, List.mem_cons] at hv
      obtain hv | rfl | hv := hv
      · exact hx v (by simp [hv])
      · exact hw'
      · exact hx v (by simp [hv])
  | leave before after r s =>
    refine ⟨hQ.refl s, fun v hv => hx v ?_⟩
    rw [List.mem_append] at hv
    obtain hv | hv := hv <;> simp [hv]

theorem Turn.moves_keeps (hQ : Spans drift Q) {x y : List (Walk σ ρ) × σ}
    (h : Moves drift Turn x y) (hx : ∀ w ∈ x.1, w.Keeps Q) : Q x.2 y.2 ∧ ∀ w ∈ y.1, w.Keeps Q := by
  induction h with
  | refl => exact ⟨hQ.refl _, hx⟩
  | tail _ hstep ih =>
    obtain ⟨hs, hall⟩ := ih
    obtain hstep | ⟨hsame, hdrift⟩ := hstep
    · obtain ⟨hturn, hall'⟩ := hstep.keeps hQ hall
      exact ⟨hQ.trans hs hturn, hall'⟩
    · exact ⟨hQ.trans hs (hQ.drift hdrift), hsame ▸ hall⟩

/-- The reports of a fork come by turns. -/
theorem Reports.moves {ok : ρ → Prop} {cues : Nat → Cue} {n : Nat} {x : List (Walk σ ρ) × σ}
    {y : List ρ × σ} (h : Reports drift ok cues n x y) : Moves drift Turn x ([], y.2) := by
  induction h with
  | all n s => exact .refl
  | @branch n branches w w' s s' t y hdrift hw h _ ih =>
    obtain ⟨before, after, hbranches, hset, -⟩ := exists_around hw
    rw [hset] at ih
    rw [hbranches]
    have hturn : Turn (before ++ w :: after, s') (before ++ w' :: after, t) :=
      .step before after h.step
    exact .head (b := (before ++ w :: after, s')) (.inr ⟨rfl, hdrift⟩) (.head (.inl hturn) ih)
  | @report n branches r rs s t hr _ _ ih =>
    obtain ⟨before, after, hbranches, -, herase⟩ := exists_around hr
    rw [herase] at ih
    rw [hbranches]
    exact .head (.inl (.leave before after r s)) ih

end Walk

/-! ### Pieces -/

/-- By the schedule the piece can hand on `a` and leave the state at `t`. -/
def Piece.Reaches (drift : σ → σ → Prop) (S : Schedule σ ρ) (ok : ρ → Prop) (p : Piece σ ρ α)
    (s : σ) (a : α) (t : σ) : Prop :=
  ∀ (k : α → Walk σ ρ) y, Walk.Goes drift S ok (k a, t) y → Walk.Goes drift S ok (p k, s) y

namespace Piece.Reaches

variable {S : Schedule σ ρ} {ok : ρ → Prop} {p : Piece σ ρ α} {f : α → Piece σ ρ β} {a : α} {b : β}
  {s t u : σ}

theorem pure (a : α) (s : σ) : (Pure.pure a : Piece σ ρ α).Reaches drift S ok s a s :=
  fun _ _ h => h

theorem bind (h : p.Reaches drift S ok s a t) (hf : (f a).Reaches drift S ok t b u) :
    (p >>= f).Reaches drift S ok s b u := fun k y hk => h _ y (hf k y hk)

theorem update (hdrift : drift s s) (f : σ → α × σ) :
    (Piece.update f : Piece σ ρ α).Reaches drift S ok s (f s).1 (f s).2 :=
  fun _ _ h => .act hdrift h

theorem modify (hdrift : drift s s) (f : σ → σ) :
    (Piece.modify f : Piece σ ρ Unit).Reaches drift S ok s () (f s) := fun _ _ h => .act hdrift h

theorem read (hdrift : drift s s) (f : σ → α) :
    (Piece.read f : Piece σ ρ α).Reaches drift S ok s (f s) s := fun _ _ h => .act hdrift h

/-- A call without a limit is never late. -/
theorem call {work : Work σ StepResult} {e : CallEnd}
    (h : Work.Ends drift (fun _ => false) 0 (work, s) (e, t)) :
    (Piece.call none work : Piece σ ρ CallEnd).Reaches drift S ok s e t := fun _ _ hk =>
  .call (by simpa using h) hk

end Piece.Reaches

/-- A walk that begins with a piece is dropped in it, or the piece hands something on. -/
theorem Piece.Keeps.splits {S : Schedule σ ρ} {ok P : ρ → Prop} (hQ : Spans drift Q)
    (hP : ∀ r, P r → ¬ok r) {p : Piece σ ρ α} (hp : p.Keeps P Q) {k : α → Walk σ ρ} {s : σ}
    {y : Option ρ × σ} (h : Walk.Goes drift S ok (p k, s) y) :
    y.1 = none ∧ Q s y.2 ∨
      ∃ a t, Q s t ∧ p.Reaches drift S ok s a t ∧ Walk.Goes drift S ok (k a, t) y := by
  induction hp generalizing s with
  | pure a => exact .inr ⟨a, s, hQ.refl s, fun k y h => h, h⟩
  | bind _ _ ihp ihf =>
    obtain hdropped | ⟨a, t, hst, hreach, h⟩ := ihp h
    · exact .inl hdropped
    · obtain ⟨hnone, htu⟩ | ⟨b, u, htu, hreach', h⟩ := ihf a h
      · exact .inl ⟨hnone, hQ.trans hst htu⟩
      · exact .inr ⟨b, u, hQ.trans hst htu, fun k y h => hreach _ y (hreach' k y h), h⟩
  | @halt _ r hr =>
    cases h with
    | drop => exact .inl ⟨rfl, hQ.refl s⟩
    | done h hok => exact absurd hok (hP r hr)
  | @update _ f hf =>
    cases h with
    | drop => exact .inl ⟨rfl, hQ.refl s⟩
    | @act _ _ _ s' _ hdrift h =>
      exact .inr ⟨_, _, hQ.trans (hQ.drift hdrift) (hf s'), fun k y h => .act hdrift h, h⟩
  | pause d =>
    cases h with
    | drop => exact .inl ⟨rfl, hQ.refl s⟩
    | pause h => exact .inr ⟨false, s, hQ.refl s, fun k y h => .pause h, h⟩
  | call limit hwork =>
    cases h with
    | drop => exact .inl ⟨rfl, hQ.refl s⟩
    | inCall h => exact .inl ⟨rfl, (Work.Keeps.moves hQ h hwork).1⟩
    | call hends h =>
      exact .inr ⟨_, _, Work.Keeps.ends hQ hends hwork, fun k y h => .call hends h, h⟩
  | fork hall =>
    cases h with
    | drop => exact .inl ⟨rfl, hQ.refl s⟩
    | inFork h => exact .inl ⟨rfl, (Walk.Turn.moves_keeps hQ h hall).1⟩
    | fork hreports h =>
      exact .inr ⟨_, _, (Walk.Turn.moves_keeps hQ hreports.moves hall).1,
        fun k y h => .fork hreports h, h⟩

/-! ### Courses -/

section

variable {drift : ω → ω → Prop} {S : Schedule (τ × ω) β} {ok : β → Prop}

theorem Course.Goes.of_bind {c : Course ω τ β α} {k : α → Course ω τ β γ} {w : ω}
    {y : Option γ × ω} (h : Course.Goes drift S ok (c.bind k, w) y) :
    (∃ v, Course.Goes drift S ok (c, w) (none, v) ∧ y = (none, v)) ∨
      ∃ a v, Course.Goes drift S ok (c, w) (some a, v) ∧ Course.Goes drift S ok (k a, v) y := by
  induction c generalizing w with
  | done a => exact .inr ⟨a, w, .done a w, h⟩
  | crash m =>
    cases h
    exact .inl ⟨w, .drop _ w, rfl⟩
  | act f rest ih =>
    cases h with
    | drop => exact .inl ⟨w, .drop _ w, rfl⟩
    | act h =>
      obtain ⟨v, hc, hy⟩ | ⟨a, v, hc, hk⟩ := ih w h
      · exact .inl ⟨v, .act hc, hy⟩
      · exact .inr ⟨a, v, .act hc, hk⟩
  | wait d rest ih =>
    cases h with
    | drop => exact .inl ⟨w, .drop _ w, rfl⟩
    | wait hdrift h =>
      obtain ⟨v, hc, hy⟩ | ⟨a, v, hc, hk⟩ := ih h
      · exact .inl ⟨v, .wait hdrift hc, hy⟩
      · exact .inr ⟨a, v, .wait hdrift hc, hk⟩
  | walk cancelled limit own path rest ih =>
    cases h with
    | drop => exact .inl ⟨w, .drop _ w, rfl⟩
    | inWalk hpath => exact .inl ⟨_, .inWalk hpath, rfl⟩
    | walk hpath h =>
      obtain ⟨v, hc, hy⟩ | ⟨a, v, hc, hk⟩ := ih _ _ h
      · exact .inl ⟨v, .walk hpath hc, hy⟩
      · exact .inr ⟨a, v, .walk hpath hc, hk⟩
    | late hpath h =>
      obtain ⟨v, hc, hy⟩ | ⟨a, v, hc, hk⟩ := ih _ _ h
      · exact .inl ⟨v, .late hpath hc, hy⟩
      · exact .inr ⟨a, v, .late hpath hc, hk⟩
  | perform cancelled own work rest ih =>
    cases h with
    | drop => exact .inl ⟨w, .drop _ w, rfl⟩
    | inPerform hwork => exact .inl ⟨_, .inPerform hwork, rfl⟩
    | perform hwork h =>
      obtain ⟨v, hc, hy⟩ | ⟨a, v, hc, hk⟩ := ih _ _ h
      · exact .inl ⟨v, .perform hwork hc, hy⟩
      · exact .inr ⟨a, v, .perform hwork hc, hk⟩

/-- What follows a course goes on where the course has ended. -/
theorem Course.Goes.bind {c : Course ω τ β α} {k : α → Course ω τ β γ} {w v : ω} {a : α}
    {y : Option γ × ω} (h : Course.Goes drift S ok (c, w) (some a, v))
    (hk : Course.Goes drift S ok (k a, v) y) : Course.Goes drift S ok (c.bind k, w) y := by
  generalize hx : (c, w) = x, hz : (some a, v) = z at h
  induction h generalizing c w with
  | drop | inWalk | inPerform => simp at hz
  | done a w =>
    cases hx
    cases hz
    exact hk
  | act _ ih =>
    cases hx
    exact .act (ih rfl hz)
  | wait hdrift _ ih =>
    cases hx
    exact .wait hdrift (ih rfl hz)
  | walk hwalk _ ih =>
    cases hx
    exact .walk hwalk (ih rfl hz)
  | late hwalk _ ih =>
    cases hx
    exact .late hwalk (ih rfl hz)
  | perform hwork _ ih =>
    cases hx
    exact .perform hwork (ih rfl hz)

/-- What is done at the end is done where the course itself has come to. -/
theorem Course.Goes.of_ensure {c : Course ω τ β α} {f : ω → ω} {w : ω} {y : Option α × ω}
    (h : Course.Goes drift S ok (c.ensure f, w) y) :
    ∃ z, Course.Goes drift S ok (c, w) z ∧ (y.2 = z.2 ∨ y.2 = f z.2) := by
  induction c generalizing w with
  | done a =>
    cases h with
    | drop => exact ⟨_, .drop _ w, .inl rfl⟩
    | act h =>
      refine ⟨_, .drop _ w, .inr ?_⟩
      cases h <;> rfl
  | crash m =>
    cases h with
    | drop => exact ⟨_, .drop _ w, .inl rfl⟩
    | act h =>
      refine ⟨_, .drop _ w, .inr ?_⟩
      cases h
      rfl
  | act f rest ih =>
    cases h with
    | drop => exact ⟨_, .drop _ w, .inl rfl⟩
    | act h =>
      obtain ⟨z, hz, hy⟩ := ih w h
      exact ⟨z, .act hz, hy⟩
  | wait d rest ih =>
    cases h with
    | drop => exact ⟨_, .drop _ w, .inl rfl⟩
    | wait hdrift h =>
      obtain ⟨z, hz, hy⟩ := ih h
      exact ⟨z, .wait hdrift hz, hy⟩
  | walk cancelled limit own path rest ih =>
    cases h with
    | drop => exact ⟨_, .drop _ w, .inl rfl⟩
    | inWalk hpath => exact ⟨_, .inWalk hpath, .inl rfl⟩
    | walk hpath h =>
      obtain ⟨z, hz, hy⟩ := ih _ _ h
      exact ⟨z, .walk hpath hz, hy⟩
    | late hpath h =>
      obtain ⟨z, hz, hy⟩ := ih _ _ h
      exact ⟨z, .late hpath hz, hy⟩
  | perform cancelled own work rest ih =>
    cases h with
    | drop => exact ⟨_, .drop _ w, .inl rfl⟩
    | inPerform hwork => exact ⟨_, .inPerform hwork, .inl rfl⟩
    | perform hwork h =>
      obtain ⟨z, hz, hy⟩ := ih _ _ h
      exact ⟨z, .perform hwork hz, hy⟩

/-- Wherever the course is dropped `G` holds, and if it ends `Q` holds of its value, too. -/
def Course.Always (drift : ω → ω → Prop) (S : Schedule (τ × ω) β) (ok : β → Prop) (G : ω → Prop)
    (Q : α → ω → Prop) (c : Course ω τ β α) (w : ω) : Prop :=
  ∀ y, Course.Goes drift S ok (c, w) y → G y.2 ∧ ∀ a ∈ y.1, Q a y.2

namespace Course.Always

variable {G : ω → Prop} {Q : α → ω → Prop} {Q' : γ → ω → Prop} {c : Course ω τ β α} {w : ω}

theorem done {a : α} (hG : G w) (hQ : Q a w) :
    Course.Always drift S ok G Q (.done a : Course ω τ β α) w := by
  intro y h
  cases h with
  | drop => exact ⟨hG, by simp⟩
  | done =>
    refine ⟨hG, fun b hb => ?_⟩
    cases hb
    exact hQ

theorem crash (m : String) (hG : G w) :
    Course.Always drift S ok G Q (.crash m : Course ω τ β α) w := by
  intro y h
  cases h
  exact ⟨hG, by simp⟩

theorem bind {k : α → Course ω τ β γ} (h : c.Always drift S ok G Q w)
    (hk : ∀ a v, G v → Q a v → (k a).Always drift S ok G Q' v) :
    (c.bind k).Always drift S ok G Q' w := by
  intro y hy
  obtain ⟨v, hc, rfl⟩ | ⟨a, v, hc, hrest⟩ := hy.of_bind
  · exact ⟨(h _ hc).1, by simp⟩
  · obtain ⟨hG, hQ⟩ := h _ hc
    exact hk a v hG (hQ a rfl) y hrest

theorem act {f : ω → ω} {rest : ω → Course ω τ β α} (hG : G w)
    (h : (rest w).Always drift S ok G Q (f w)) : (Course.act f rest).Always drift S ok G Q w := by
  intro y hy
  cases hy with
  | drop => exact ⟨hG, by simp⟩
  | act hy => exact h y hy

/-- A walk in which no limit can be over. -/
theorem walk {cancelled : ω → Bool} {own : τ} {path : Walk (τ × ω) β}
    {rest : τ → Option β → Course ω τ β α} (hG : G w)
    (h : ∀ y, Walk.Goes (Beside drift) S ok (path, own, w) y → G y.2.2 ∧
      ∀ r ∈ y.1, (rest y.2.1 (some r)).Always drift S ok G Q y.2.2) :
    (Course.walk cancelled none own path rest).Always drift S ok G Q w := by
  intro y hy
  cases hy with
  | drop => exact ⟨hG, by simp⟩
  | inWalk hpath => exact ⟨(h _ hpath).1, by simp⟩
  | walk hpath hy => exact (h _ hpath).2 _ rfl y hy

/-- What is done at the end must keep `G`. -/
theorem ensure {f : ω → ω} (h : c.Always drift S ok G Q w) (hf : ∀ v, G v → G (f v)) :
    (c.ensure f).Always drift S ok G (fun _ _ => True) w := by
  intro y hy
  obtain ⟨z, hz, hsame | hdone⟩ := hy.of_ensure
  · exact ⟨hsame ▸ (h z hz).1, fun _ _ => trivial⟩
  · exact ⟨hdone ▸ hf _ (h z hz).1, fun _ _ => trivial⟩

end Course.Always

end

end DurableWorkflow
