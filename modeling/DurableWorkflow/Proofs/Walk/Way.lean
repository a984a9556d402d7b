import DurableWorkflow.Proofs.Walk.Goes

/-!
# What is seen of a walk

The steps of a walk with what there is to see of them: how a call ended, how long a wait was that has
passed, and of an action what `see` makes of the states before and after it. Every way that a walk
goes can be seen so (`Moves.exists_way`). A way to a report is read from its beginning: an action, a
wait, a call and a fork first, and then the way of what follows (`Way.of_act` and the like), and so is
a piece (`Piece.Tells`, `Piece.Keeps.passes`).

The branches of a fork come to their ends in some order, each on a way of its own, whatever the others
do in the meantime (`Walk.Finishes`).
-/

namespace DurableWorkflow

variable {σ ρ α β ι : Type}

/-- What there is to see of a walk. -/
inductive Sight (ι : Type) where
  /-- A call has ended. -/
  | called (e : CallEnd)
  /-- A wait is over, and was not cut short. -/
  | rested (d : Nanos)
  | acted (i : ι)

namespace Sight

def call? : Sight ι → Option CallEnd
  | called e => some e
  | _ => none

def rest? : Sight ι → Option Nanos
  | rested d => some d
  | _ => none

def act? : Sight ι → Option ι
  | acted i => some i
  | _ => none

end Sight

/-- One step of a walk, and what there is to see of it. -/
inductive Walk.Sighted (see : σ → σ → List (Sight ι)) :
    Walk σ ρ × σ → List (Sight ι) → Walk σ ρ × σ → Prop
  | act (f : σ → σ) (rest : σ → Walk σ ρ) (s : σ) :
    Sighted see (.act f rest, s) (see s (f s)) (rest s, f s)
  | rest (d : Nanos) (rest : Bool → Walk σ ρ) (s : σ) :
    Sighted see (.pause d rest, s) [.rested d] (rest false, s)
  | wake (d : Nanos) (rest : Bool → Walk σ ρ) (s : σ) :
    Sighted see (.pause d rest, s) [] (rest true, s)
  | work {limit : Option Nanos} {work work' : Work σ StepResult} {rest : CallEnd → Walk σ ρ}
      {s s' : σ} (h : Work.Step (work, s) (work', s')) :
    Sighted see (.call limit work rest, s) [] (.call limit work' rest, s')
  | ended (limit : Option Nanos) (e : Work.End StepResult) (rest : CallEnd → Walk σ ρ) (s : σ) :
    Sighted see (.call limit e.work rest, s) [.called (.ofWork e)] (rest (.ofWork e), s)
  | late (d : Nanos) (work : Work σ StepResult) (rest : CallEnd → Walk σ ρ) (s : σ) :
    Sighted see (.call (some d) work rest, s) [.called .timedOut] (rest .timedOut, s)
  | cancel (limit : Option Nanos) (work : Work σ StepResult) (rest : CallEnd → Walk σ ρ) (s : σ) :
    Sighted see (.call limit work rest, s) [.called .cancelled] (rest .cancelled, s)
  | branch (before after : List (Walk σ ρ)) {w w' : Walk σ ρ} (rest : List ρ → Walk σ ρ)
      {l : List (Sight ι)} {s s' : σ} (h : Sighted see (w, s) l (w', s')) :
    Sighted see (.fork (before ++ w :: after) rest, s) l (.fork (before ++ w' :: after) rest, s')
  | report (before after : List (Walk σ ρ)) (r : ρ) (rest : List ρ → Walk σ ρ) (s : σ) :
    Sighted see (.fork (before ++ .done r :: after) rest, s) []
      (.fork (before ++ after) fun rs => rest (r :: rs), s)
  | join (rest : List ρ → Walk σ ρ) (s : σ) : Sighted see (.fork [] rest, s) [] (rest [], s)

/-- The way of a walk among others, and what there is to see of it. -/
inductive Walk.Way (drift : σ → σ → Prop) (see : σ → σ → List (Sight ι)) :
    Walk σ ρ × σ → List (Sight ι) → Walk σ ρ × σ → Prop
  | refl (x : Walk σ ρ × σ) : Way drift see x [] x
  | step {x y z : Walk σ ρ × σ} {l l' : List (Sight ι)} (h : Sighted see x l y)
      (hrest : Way drift see y l' z) : Way drift see x (l ++ l') z
  | drift {w : Walk σ ρ} {s t : σ} {y : Walk σ ρ × σ} {l : List (Sight ι)} (h : drift s t)
      (hrest : Way drift see (w, t) l y) : Way drift see (w, s) l y

/-- A call of work has ended like this: its work has, or its limit was over, or it was cancelled. -/
inductive Work.Answers (drift : σ → σ → Prop) (limit : Option Nanos) :
    Work σ StepResult × σ → CallEnd × σ → Prop
  | ended {x : Work σ StepResult × σ} {e : Work.End StepResult} {t : σ}
      (h : Moves drift Work.Step x (e.work, t)) : Answers drift limit x (.ofWork e, t)
  | late {x : Work σ StepResult × σ} {work : Work σ StepResult} {t : σ}
      (h : Moves drift Work.Step x (work, t)) (hlimit : limit.isSome) :
    Answers drift limit x (.timedOut, t)
  | cancelled {x : Work σ StepResult × σ} {work : Work σ StepResult} {t : σ}
      (h : Moves drift Work.Step x (work, t)) : Answers drift limit x (.cancelled, t)

/-- Walks, each with a name, come to their reports, which stand in the order in which they came. -/
inductive Walk.Finishes (drift : σ → σ → Prop) : List (α × Walk σ ρ) × σ → List (α × ρ) × σ → Prop
  | all (s : σ) : Finishes drift ([], s) ([], s)
  | drift {ws : List (α × Walk σ ρ)} {s t : σ} {y : List (α × ρ) × σ} (h : drift s t)
      (hrest : Finishes drift (ws, t) y) : Finishes drift (ws, s) y
  | step (before after : List (α × Walk σ ρ)) (a : α) {w w' : Walk σ ρ} {s t : σ}
      {y : List (α × ρ) × σ} (h : Walk.Step (w, s) (w', t))
      (hrest : Finishes drift (before ++ (a, w') :: after, t) y) :
    Finishes drift (before ++ (a, w) :: after, s) y
  | report (before after : List (α × Walk σ ρ)) (a : α) (r : ρ) {s t : σ} {ends : List (α × ρ)}
      (hrest : Finishes drift (before ++ after, s) (ends, t)) :
    Finishes drift (before ++ (a, .done r) :: after, s) ((a, r) :: ends, t)

/-- Before the call went on like this, there was something else. -/
theorem Work.Answers.head {drift : σ → σ → Prop} {limit : Option Nanos} {x y : Work σ StepResult × σ}
    {z : CallEnd × σ} (hmove : Work.Step x y ∨ y.1 = x.1 ∧ drift x.2 y.2)
    (h : Work.Answers drift limit y z) : Work.Answers drift limit x z := by
  cases h with
  | ended h => exact .ended (.head hmove h)
  | late h hlimit => exact .late (.head hmove h) hlimit
  | cancelled h => exact .cancelled (.head hmove h)

theorem Work.Answers.keeps {drift I : σ → σ → Prop} (hI : Spans drift I) {limit : Option Nanos}
    {x : Work σ StepResult × σ} {z : CallEnd × σ} (h : Work.Answers drift limit x z)
    (hx : x.1.Keeps I) : I x.2 z.2 := by
  cases h with
  | ended h | late h | cancelled h => exact (Work.Keeps.moves hI h hx).1

variable {drift : σ → σ → Prop} {see : σ → σ → List (Sight ι)} {w : Walk σ ρ}
  {x y z : Walk σ ρ × σ} {l l' : List (Sight ι)} {r : ρ} {s t u : σ}

/-! ### Ways and steps -/

theorem Walk.Step.exists_sighted (see : σ → σ → List (Sight ι)) (h : Walk.Step x y) :
    ∃ l, Walk.Sighted see x l y := by
  induction h with
  | act f rest s => exact ⟨_, .act f rest s⟩
  | pause d rest cancelled s =>
    cases cancelled with
    | false => exact ⟨_, .rest d rest s⟩
    | true => exact ⟨_, .wake d rest s⟩
  | work h => exact ⟨_, .work h⟩
  | done limit r rest s => exact ⟨_, .ended limit (.done r) rest s⟩
  | crash limit m rest s => exact ⟨_, .ended limit (.crash m) rest s⟩
  | late d work rest s => exact ⟨_, .late d work rest s⟩
  | cancel limit work rest s => exact ⟨_, .cancel limit work rest s⟩
  | branch before after _ ih =>
    obtain ⟨l, hl⟩ := ih
    exact ⟨l, .branch before after _ hl⟩
  | report before after r rest s => exact ⟨_, .report before after r rest s⟩
  | join rest s => exact ⟨_, .join rest s⟩

namespace Walk

theorem Sighted.step (h : Sighted see x l y) : Step x y := by
  induction h with
  | act f rest s => exact .act f rest s
  | rest d rest s => exact .pause d rest false s
  | wake d rest s => exact .pause d rest true s
  | work h => exact .work h
  | ended limit e rest s =>
    cases e with
    | done r => exact .done limit r rest s
    | crash m => exact .crash limit m rest s
  | late d work rest s => exact .late d work rest s
  | cancel limit work rest s => exact .cancel limit work rest s
  | branch before after rest _ ih => exact .branch before after ih
  | report before after r rest s => exact .report before after r rest s
  | join rest s => exact .join rest s

namespace Way

theorem moves (h : Way drift see x l y) : Moves drift Step x y := by
  induction h with
  | refl => exact .refl
  | step h _ ih => exact .head (.inl h.step) ih
  | @drift w s t y l h _ ih => exact .head (b := (w, t)) (.inr ⟨rfl, h⟩) ih

theorem trans (h : Way drift see x l y) (h' : Way drift see y l' z) :
    Way drift see x (l ++ l') z := by
  induction h with
  | refl => exact h'
  | step h _ ih =>
    rw [List.append_assoc]
    exact .step h (ih h')
  | drift h _ ih => exact .drift h (ih h')

theorem of_drifts (h : Relation.ReflTransGen drift s t) (hrest : Way drift see (w, t) l y) :
    Way drift see (w, s) l y := by
  induction h using Relation.ReflTransGen.head_induction_on with
  | refl => exact hrest
  | head h _ ih => exact .drift h ih

theorem of_call_moves {limit : Option Nanos} {rest : CallEnd → Walk σ ρ}
    {a b : Work σ StepResult × σ} (h : Moves drift Work.Step a b) :
    Way drift see (.call limit a.1 rest, a.2) [] (.call limit b.1 rest, b.2) := by
  induction h using Relation.ReflTransGen.head_induction_on with
  | refl => exact .refl _
  | @head a b hmove _ ih =>
    obtain hstep | ⟨hsame, hdrift⟩ := hmove
    · exact .step (.work hstep) ih
    · rw [hsame] at ih
      exact .drift hdrift ih

end Way

end Walk

theorem Moves.exists_way (h : Moves drift Walk.Step x y) (see : σ → σ → List (Sight ι)) :
    ∃ l, Walk.Way drift see x l y := by
  induction h using Relation.ReflTransGen.head_induction_on with
  | refl => exact ⟨[], .refl y⟩
  | @head x z hmove _ ih =>
    obtain ⟨l, hl⟩ := ih
    obtain hstep | ⟨hsame, hdrift⟩ := hmove
    · obtain ⟨l', hl'⟩ := hstep.exists_sighted see
      exact ⟨l' ++ l, .step hl' hl⟩
    · obtain ⟨w, s⟩ := x
      obtain ⟨w', t⟩ := z
      obtain rfl : w' = w := hsame
      exact ⟨l, .drift hdrift hl⟩

/-! ### From the beginning of a way -/

namespace Walk.Way

theorem of_done {r' : ρ} (h : Way drift see (.done r', s) l (.done r, t)) :
    r' = r ∧ l = [] ∧ Relation.ReflTransGen drift s t := by
  generalize hx : (Walk.done r', s) = x, hy : (Walk.done r, t) = y at h
  induction h generalizing s with
  | refl =>
    subst hx
    cases hy
    exact ⟨rfl, rfl, .refl⟩
  | step h =>
    subst hx
    cases h
  | drift h _ ih =>
    cases hx
    obtain ⟨hr, hl, hdrifts⟩ := ih rfl hy
    exact ⟨hr, hl, .head h hdrifts⟩

theorem of_act {f : σ → σ} {rest : σ → Walk σ ρ} (h : Way drift see (.act f rest, s) l (.done r, t)) :
    ∃ u l', Relation.ReflTransGen drift s u ∧ l = see u (f u) ++ l' ∧
      Way drift see (rest u, f u) l' (.done r, t) := by
  generalize hx : (Walk.act f rest, s) = x, hy : (Walk.done r, t) = y at h
  induction h generalizing s with
  | refl =>
    subst hx
    cases hy
  | step h hrest _ =>
    subst hx hy
    cases h with
    | act => exact ⟨s, _, .refl, rfl, hrest⟩
  | drift h _ ih =>
    cases hx
    obtain ⟨u, l', hu, hl, hrest⟩ := ih rfl hy
    exact ⟨u, l', .head h hu, hl, hrest⟩

theorem of_pause {d : Nanos} {rest : Bool → Walk σ ρ}
    (h : Way drift see (.pause d rest, s) l (.done r, t)) :
    ∃ cancelled u l', Relation.ReflTransGen drift s u ∧
      l = (if cancelled then [] else [.rested d]) ++ l' ∧
      Way drift see (rest cancelled, u) l' (.done r, t) := by
  generalize hx : (Walk.pause d rest, s) = x, hy : (Walk.done r, t) = y at h
  induction h generalizing s with
  | refl =>
    subst hx
    cases hy
  | step h hrest _ =>
    subst hx hy
    cases h with
    | rest => exact ⟨false, s, _, .refl, rfl, hrest⟩
    | wake => exact ⟨true, s, _, .refl, rfl, hrest⟩
  | drift h _ ih =>
    cases hx
    obtain ⟨cancelled, u, l', hu, hl, hrest⟩ := ih rfl hy
    exact ⟨cancelled, u, l', .head h hu, hl, hrest⟩

theorem of_call {limit : Option Nanos} {work : Work σ StepResult} {rest : CallEnd → Walk σ ρ}
    (h : Way drift see (.call limit work rest, s) l (.done r, t)) :
    ∃ e u l', Work.Answers drift limit (work, s) (e, u) ∧ l = .called e :: l' ∧
      Way drift see (rest e, u) l' (.done r, t) := by
  generalize hx : (Walk.call limit work rest, s) = x, hy : (Walk.done r, t) = y at h
  induction h generalizing work s with
  | refl =>
    subst hx
    cases hy
  | step h hrest ih =>
    subst hx
    cases h with
    | work hstep =>
      obtain ⟨e, u, l', hanswers, hl, hway⟩ := ih rfl hy
      exact ⟨e, u, l', hanswers.head (.inl hstep), hl, hway⟩
    | ended => exact ⟨_, s, _, .ended .refl, rfl, hy ▸ hrest⟩
    | late => exact ⟨_, s, _, .late .refl rfl, rfl, hy ▸ hrest⟩
    | cancel => exact ⟨_, s, _, .cancelled .refl, rfl, hy ▸ hrest⟩
  | @drift _ _ s' _ _ h _ ih =>
    cases hx
    obtain ⟨e, u, l', hanswers, hl, hway⟩ := ih rfl hy
    exact ⟨e, u, l', hanswers.head (y := (work, s')) (.inr ⟨rfl, h⟩), hl, hway⟩

/-- The branches finish, and what follows is given their reports. Until then it does not matter what
is to follow. -/
theorem of_fork {branches : List (Walk σ ρ)} {rest : List ρ → Walk σ ρ} (ws : List (α × Walk σ ρ))
    (hws : ws.map Prod.snd = branches) (h : Way drift see (.fork branches rest, s) l (.done r, t)) :
    ∃ ends u l₁ l₂, l = l₁ ++ l₂ ∧ Finishes drift (ws, s) (ends, u) ∧
      (∀ rest', Way drift see (.fork branches rest', s) l₁ (rest' (ends.map Prod.snd), u)) ∧
      Way drift see (rest (ends.map Prod.snd), u) l₂ (.done r, t) := by
  generalize hx : (Walk.fork branches rest, s) = x, hy : (Walk.done r, t) = y at h
  induction h generalizing branches rest ws s with
  | refl =>
    subst hx
    cases hy
  | @step x y z l l' h hrest ih =>
    subst hx
    cases h with
    | @branch before after w w' _ _ _ s' h =>
      obtain ⟨before, tail, rfl, rfl, htail⟩ := List.map_eq_append_iff.1 hws
      obtain ⟨⟨a, w⟩, after, rfl, rfl, rfl⟩ := List.map_eq_cons_iff.1 htail
      obtain ⟨ends, u, l₁, l₂, rfl, hfinishes, hall, hmore⟩ :=
        ih (before ++ (a, w') :: after) (by simp) rfl hy
      refine ⟨ends, u, l ++ l₁, l₂, (List.append_assoc ..).symm, .step before after a h.step hfinishes,
        fun rest' => ?_, hmore⟩
      exact .step (.branch _ _ rest' h) (hall rest')
    | report before after r =>
      obtain ⟨before, tail, rfl, rfl, htail⟩ := List.map_eq_append_iff.1 hws
      obtain ⟨⟨a, w⟩, after, rfl, hw, rfl⟩ := List.map_eq_cons_iff.1 htail
      obtain rfl : w = .done r := hw
      obtain ⟨ends, u, l₁, l₂, rfl, hfinishes, hall, hmore⟩ :=
        ih (before ++ after) (by simp) rfl hy
      refine ⟨(a, r) :: ends, u, l₁, l₂, rfl, .report before after a r hfinishes, fun rest' => ?_,
        hmore⟩
      exact .step (.report _ _ r rest' _) (hall _)
    | join =>
      obtain rfl := List.map_eq_nil_iff.1 hws
      exact ⟨[], _, [], l', rfl, .all _, fun rest' => .step (.join rest' _) (.refl _), hy ▸ hrest⟩
  | drift h _ ih =>
    cases hx
    obtain ⟨ends, u, l₁, l₂, rfl, hfinishes, hall, hmore⟩ := ih ws hws rfl hy
    exact ⟨ends, u, l₁, l₂, rfl, .drift h hfinishes, fun rest' => .drift h (hall rest'), hmore⟩

theorem of_answers {limit : Option Nanos} {work : Work σ StepResult} {rest : CallEnd → Walk σ ρ}
    {e : CallEnd} (h : Work.Answers drift limit (work, s) (e, t)) :
    Way drift see (.call limit work rest, s) [.called e] (rest e, t) := by
  cases h with
  | ended h => exact (of_call_moves h).trans (.step (.ended limit _ rest t) (.refl _))
  | late h hlimit =>
    obtain ⟨d, rfl⟩ := Option.isSome_iff_exists.1 hlimit
    exact (of_call_moves h).trans (.step (.late d _ rest t) (.refl _))
  | cancelled h => exact (of_call_moves h).trans (.step (.cancel limit _ rest t) (.refl _))

end Walk.Way

namespace Walk.Finishes

variable {ws : List (α × Walk σ ρ)} {ends : List (α × ρ)}

/-- Each of them comes to an end, and once. -/
theorem perm (h : Finishes drift (ws, s) (ends, t)) :
    (ends.map Prod.fst).Perm (ws.map Prod.fst) := by
  generalize hx : (ws, s) = x, hy : (ends, t) = y at h
  induction h generalizing ws s ends with
  | all =>
    cases hx
    cases hy
    exact .nil
  | drift _ _ ih =>
    cases hx
    exact ih rfl hy
  | step before after a _ _ ih =>
    cases hx
    simpa using ih rfl hy
  | report before after a r _ ih =>
    cases hx
    cases hy
    rw [List.map_append, List.map_cons, List.map_cons]
    refine ((ih rfl rfl).cons a).trans ?_
    rw [List.map_append]
    exact List.perm_middle.symm

/-- Each of them goes its own way to its own end, whatever the others do. -/
theorem own (h : Finishes drift (ws, s) (ends, t)) : ∀ x ∈ ends, ∃ w u, (x.1, w) ∈ ws ∧
    Moves (fun _ _ => True) Step (w, s) (.done x.2, u) := by
  generalize hx : (ws, s) = x, hy : (ends, t) = y at h
  induction h generalizing ws s ends with
  | all =>
    cases hx
    cases hy
    simp
  | @drift ws s' t' y h _ ih =>
    cases hx
    intro x hx
    obtain ⟨w, u, hw, hmoves⟩ := ih rfl hy x hx
    exact ⟨w, u, hw, .head (b := (w, t')) (.inr ⟨rfl, trivial⟩) hmoves⟩
  | @step before after a w w' s' t' y h _ ih =>
    cases hx
    intro x hx
    obtain ⟨v, u, hv, hmoves⟩ := ih rfl hy x hx
    obtain hv | heq | hv : (x.1, v) ∈ before ∨ (x.1, v) = (a, w') ∨ (x.1, v) ∈ after := by
      simpa using hv
    · exact ⟨v, u, by simp [hv], .head (b := (v, t')) (.inr ⟨rfl, trivial⟩) hmoves⟩
    · obtain ⟨hname, rfl⟩ := Prod.mk.inj heq
      exact ⟨w, u, by simp [hname], .head (.inl h) hmoves⟩
    · exact ⟨v, u, by simp [hv], .head (b := (v, t')) (.inr ⟨rfl, trivial⟩) hmoves⟩
  | report before after a r _ ih =>
    cases hx
    cases hy
    refine List.forall_mem_cons.2 ⟨⟨.done r, _, by simp, .refl⟩, fun x hx => ?_⟩
    obtain ⟨w, u, hw, hmoves⟩ := ih rfl rfl x hx
    obtain hw | hw := List.mem_append.1 hw
    · exact ⟨w, u, by simp [hw], hmoves⟩
    · exact ⟨w, u, by simp [hw], hmoves⟩

theorem tail (h : Finishes drift (ws, s) (ends, t)) (hdrifts : Relation.ReflTransGen drift t u) :
    Finishes drift (ws, s) (ends, u) := by
  generalize hx : (ws, s) = x, hy : (ends, t) = y at h
  induction h generalizing ws s ends with
  | all =>
    cases hx
    cases hy
    induction hdrifts using Relation.ReflTransGen.head_induction_on with
    | refl => exact .all u
    | head h _ ih => exact .drift h ih
  | drift h _ ih =>
    cases hx
    exact .drift h (ih rfl hy)
  | step before after a h _ ih =>
    cases hx
    exact .step before after a h (ih rfl hy)
  | report before after a r _ ih =>
    cases hx
    cases hy
    exact .report before after a r (ih rfl rfl)

theorem keeps {I : σ → σ → Prop} (hI : Spans drift I) (h : Finishes drift (ws, s) (ends, t))
    (hws : ∀ x ∈ ws, x.2.Keeps I) : I s t := by
  generalize hx : (ws, s) = x, hy : (ends, t) = y at h
  induction h generalizing ws s ends with
  | all =>
    cases hx
    cases hy
    exact hI.refl _
  | drift h _ ih =>
    cases hx
    exact hI.trans (hI.drift h) (ih hws rfl hy)
  | @step before after a w w' s' t' y h _ ih =>
    cases hx
    simp only [List.forall_mem_append, List.forall_mem_cons] at hws
    obtain ⟨hbefore, hw, hafter⟩ := hws
    obtain ⟨hact, hw'⟩ := Walk.Keeps.step h hw
    have hrest : I t' t := ih (by
      simp only [List.forall_mem_append, List.forall_mem_cons]
      exact ⟨hbefore, hw', hafter⟩) rfl hy
    obtain hsame | hact := hact
    · have hsame : t' = s' := hsame
      rwa [hsame] at hrest
    · exact hI.trans hact hrest
  | report before after a r _ ih =>
    cases hx
    cases hy
    simp only [List.forall_mem_append, List.forall_mem_cons] at hws
    obtain ⟨hbefore, -, hafter⟩ := hws
    exact ih (by
      simp only [List.forall_mem_append]
      exact ⟨hbefore, hafter⟩) rfl rfl

end Walk.Finishes

/-! ### Pieces -/

/-- Begun at `s` the piece hands on `a` at `t`, whatever is to follow it, and there is this to see. -/
def Piece.Passes (drift : σ → σ → Prop) (see : σ → σ → List (Sight ι)) (p : Piece σ ρ α) (s : σ)
    (l : List (Sight ι)) (a : α) (t : σ) : Prop :=
  ∀ k : α → Walk σ ρ, Walk.Way drift see (p k, s) l (k a, t)

namespace Piece.Passes

variable {p : Piece σ ρ α} {f : α → Piece σ ρ β} {a : α} {b : β}

theorem pure (a : α) : (Pure.pure a : Piece σ ρ α).Passes drift see s [] a s := fun _ => .refl _

theorem bind (hp : p.Passes drift see s l a t) (hf : (f a).Passes drift see t l' b u) :
    (p >>= f).Passes drift see s (l ++ l') b u := fun k => (hp _).trans (hf k)

theorem update (f : σ → α × σ) (s : σ) :
    (Piece.update f : Piece σ ρ α).Passes drift see s (see s (f s).2) (f s).1 (f s).2 := fun k => by
  rw [← List.append_nil (see s (f s).2)]
  exact .step (.act (fun s => (f s).2) (fun s => k (f s).1) s) (.refl _)

theorem pause (d : Nanos) (s : σ) :
    (Piece.pause d : Piece σ ρ Bool).Passes drift see s [.rested d] false s :=
  fun k => .step (.rest d k s) (.refl _)

theorem call {limit : Option Nanos} {work : Work σ StepResult} {e : CallEnd}
    (h : Work.Answers drift limit (work, s) (e, t)) :
    (Piece.call limit work : Piece σ ρ CallEnd).Passes drift see s [.called e] e t :=
  fun _ => .of_answers h

end Piece.Passes

/-- Work comes to an end from wherever it is begun. -/
theorem Work.exists_end (drift : σ → σ → Prop) (work : Work σ β) (s : σ) :
    ∃ (e : Work.End β) (t : σ), Moves drift Work.Step (work, s) (e.work, t) := by
  induction work generalizing s with
  | done a => exact ⟨.done a, s, .refl⟩
  | crash m => exact ⟨.crash m, s, .refl⟩
  | act f rest ih =>
    obtain ⟨e, t, h⟩ := ih s (f s)
    exact ⟨e, t, .head (.inl (.act f rest s)) h⟩
  | sleep d rest ih =>
    obtain ⟨e, t, h⟩ := ih s
    exact ⟨e, t, .head (.inl (.sleep d rest s)) h⟩
  | awaitCancel rest ih =>
    obtain ⟨e, t, h⟩ := ih s
    exact ⟨e, t, .head (.inl (.awaitCancel rest s)) h⟩

/-- Wherever the piece is begun, it can hand something on. -/
def Piece.Opens (drift : σ → σ → Prop) (see : σ → σ → List (Sight ι)) (p : Piece σ ρ α) : Prop :=
  ∀ s, ∃ l a t, p.Passes drift see s l a t

namespace Piece.Opens

variable {p : Piece σ ρ α} {f : α → Piece σ ρ β}

theorem pure (a : α) : (Pure.pure a : Piece σ ρ α).Opens drift see := fun s => ⟨[], a, s, .pure a⟩

theorem bind (hp : p.Opens drift see) (hf : ∀ a, (f a).Opens drift see) :
    (p >>= f).Opens drift see := fun s => by
  obtain ⟨l, a, t, hpasses⟩ := hp s
  obtain ⟨l', b, u, hpasses'⟩ := hf a t
  exact ⟨l ++ l', b, u, hpasses.bind hpasses'⟩

theorem modify (f : σ → σ) : (Piece.modify f : Piece σ ρ Unit).Opens drift see :=
  fun s => ⟨_, _, _, .update (fun s => ((), f s)) s⟩

theorem read (f : σ → α) : (Piece.read f : Piece σ ρ α).Opens drift see :=
  fun s => ⟨_, _, _, .update (fun s => (f s, s)) s⟩

end Piece.Opens

/-- On its way to a report a walk that begins with a piece is ended by it, or the piece hands
something on. -/
theorem Piece.Keeps.passes {P : ρ → Prop} {I : σ → σ → Prop} (hI : Spans drift I) {p : Piece σ ρ α}
    (hp : p.Keeps P I) {k : α → Walk σ ρ} (h : Walk.Way drift see (p k, s) l (.done r, t)) :
    P r ∨ ∃ a u l₁ l₂, l = l₁ ++ l₂ ∧ I s u ∧ p.Passes drift see s l₁ a u ∧
      Walk.Way drift see (k a, u) l₂ (.done r, t) := by
  induction hp generalizing s l with
  | pure a => exact .inr ⟨a, s, [], l, rfl, hI.refl s, .pure a, h⟩
  | bind _ _ ihp ihf =>
    obtain hP | ⟨a, u, l₁, l₂, rfl, hsu, hpasses, hrest⟩ := ihp h
    · exact .inl hP
    obtain hP | ⟨b, v, l₃, l₄, rfl, huv, hpasses', hrest⟩ := ihf a hrest
    · exact .inl hP
    exact .inr ⟨b, v, l₁ ++ l₃, l₄, (List.append_assoc ..).symm, hI.trans hsu huv,
      hpasses.bind hpasses', hrest⟩
  | halt hr =>
    obtain ⟨rfl, -, -⟩ := h.of_done
    exact .inl hr
  | @update _ f hf =>
    obtain ⟨u, l', hu, rfl, hrest⟩ := h.of_act
    exact .inr ⟨_, _, _, l', rfl, hI.trans (hI.drifts hu) (hf u),
      fun k' => .of_drifts hu (Passes.update f u k'), hrest⟩
  | pause d =>
    obtain ⟨cancelled, u, l', hu, rfl, hrest⟩ := h.of_pause
    refine .inr ⟨cancelled, u, _, l', rfl, hI.drifts hu, fun k' => .of_drifts hu ?_, hrest⟩
    cases cancelled with
    | false => exact Passes.pause d u k'
    | true => exact .step (.wake d k' u) (.refl _)
  | call limit hwork =>
    obtain ⟨e, u, l', hanswers, rfl, hrest⟩ := h.of_call
    exact .inr ⟨e, u, [.called e], l', rfl, hanswers.keeps hI hwork, .call hanswers, hrest⟩
  | @fork branches hall =>
    obtain ⟨ends, u, l₁, l₂, hl, hfinishes, hpasses, hrest⟩ :=
      h.of_fork (branches.map fun w => ((), w)) (by simp [Function.comp_def])
    exact .inr ⟨_, u, l₁, l₂, hl, hfinishes.keeps hI (by simpa using hall), hpasses, hrest⟩

/-- On its way to a report a walk that begins with the piece is ended by it with a `P`, or the piece
hands on a value of which `V` holds with what there was to see. -/
def Piece.Tells (drift : σ → σ → Prop) (see : σ → σ → List (Sight ι)) (P : ρ → Prop)
    (V : α → List (Sight ι) → Prop) (p : Piece σ ρ α) : Prop :=
  ∀ (k : α → Walk σ ρ) (s : σ) (l : List (Sight ι)) (r : ρ) (t : σ),
    Walk.Way drift see (p k, s) l (.done r, t) →
    P r ∨ ∃ a u l₁ l₂, l = l₁ ++ l₂ ∧ V a l₁ ∧ Walk.Way drift see (k a, u) l₂ (.done r, t)

namespace Piece.Tells

variable {P : ρ → Prop} {V V' : α → List (Sight ι) → Prop} {U : β → List (Sight ι) → Prop}
  {p : Piece σ ρ α} {f : α → Piece σ ρ β}

theorem pure {a : α} (h : V a []) : (Pure.pure a : Piece σ ρ α).Tells drift see P V :=
  fun _ s l _ _ hway => .inr ⟨a, s, [], l, rfl, h, hway⟩

theorem bind (hp : p.Tells drift see P V)
    (hf : ∀ a l, V a l → (f a).Tells drift see P fun b l' => U b (l ++ l')) :
    (p >>= f).Tells drift see P U := by
  intro k s l r t hway
  obtain hP | ⟨a, u, l₁, l₂, rfl, hV, hrest⟩ := hp _ s l r t hway
  · exact .inl hP
  obtain hP | ⟨b, v, l₃, l₄, rfl, hU, hrest⟩ := hf a l₁ hV k u l₂ r t hrest
  · exact .inl hP
  exact .inr ⟨b, v, l₁ ++ l₃, l₄, (List.append_assoc ..).symm, hU, hrest⟩

theorem mono (hp : p.Tells drift see P V) (h : ∀ a l, V a l → V' a l) :
    p.Tells drift see P V' := by
  intro k s l r t hway
  obtain hP | ⟨a, u, l₁, l₂, hl, hV, hrest⟩ := hp k s l r t hway
  · exact .inl hP
  · exact .inr ⟨a, u, l₁, l₂, hl, h a l₁ hV, hrest⟩

theorem halt {r : ρ} (h : P r) : (Piece.halt r : Piece σ ρ α).Tells drift see P V := by
  intro k s l r' t hway
  obtain ⟨rfl, -, -⟩ := hway.of_done
  exact .inl h

theorem update {f : σ → α × σ} {g : List (Sight ι)} (h : ∀ s, see s (f s).2 = g) :
    (Piece.update f : Piece σ ρ α).Tells drift see P fun a l => (∃ s, a = (f s).1) ∧ l = g := by
  intro k s l r t hway
  obtain ⟨u, l', -, rfl, hrest⟩ := hway.of_act
  exact .inr ⟨_, _, _, l', rfl, ⟨⟨u, rfl⟩, h u⟩, hrest⟩

theorem read (f : σ → α) (h : ∀ s, see s s = []) :
    (Piece.read f : Piece σ ρ α).Tells drift see P fun _ l => l = [] :=
  (update (f := fun s => (f s, s)) h).mono fun _ _ hl => hl.2

theorem modify {f : σ → σ} {g : List (Sight ι)} (h : ∀ s, see s (f s) = g) :
    (Piece.modify f : Piece σ ρ Unit).Tells drift see P fun _ l => l = g :=
  (update (f := fun s => ((), f s)) h).mono fun _ _ hl => hl.2

theorem pause (d : Nanos) : (Piece.pause d : Piece σ ρ Bool).Tells drift see P fun cancelled l =>
    l = if cancelled then [] else [.rested d] := by
  intro k s l r t hway
  obtain ⟨cancelled, u, l', -, rfl, hrest⟩ := hway.of_pause
  exact .inr ⟨cancelled, u, _, l', rfl, rfl, hrest⟩

theorem call (limit : Option Nanos) (work : Work σ StepResult) :
    (Piece.call limit work : Piece σ ρ CallEnd).Tells drift see P fun e l =>
      (∃ s t, Work.Answers drift limit (work, s) (e, t)) ∧ l = [.called e] := by
  intro k s l r t hway
  obtain ⟨e, u, l', hanswers, rfl, hrest⟩ := hway.of_call
  exact .inr ⟨e, u, [.called e], l', rfl, ⟨⟨s, u, hanswers⟩, rfl⟩, hrest⟩

end Piece.Tells

end DurableWorkflow
