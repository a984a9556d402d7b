import DurableWorkflow.Proofs.Walk.Does

/-!
# What walks uphold

`w.Obeys drift I Q s` knows of a call and of a fork only one condition that holds all the way. Here
the work of a call is followed to its end, so that what is said afterwards may depend on how the work
has ended and on what it has made of the state. Each branch of a fork has a promise of its own, which
it keeps when it reports. The branches run among each other: `R` is what any of them may make of the
state in the meantime, and it breaks no promise that has been kept (`Admits`).
-/

namespace DurableWorkflow

variable {σ ρ α β : Type}

/-- From this state on every action of the work is an `I`, and `V` holds wherever the call of it may
end. -/
def Work.Upholds (drift I : σ → σ → Prop) (V : CallEnd → σ → Prop) :
    Work σ StepResult → σ → Prop
  | .done r, s => V .timedOut s ∧ V .cancelled s ∧ V (.finished r) s
  | .crash m, s => V .timedOut s ∧ V .cancelled s ∧ V (.crashed m) s
  | .act f rest, s => V .timedOut s ∧ V .cancelled s ∧
      ∀ t, drift s t → I t (f t) ∧ (rest t).Upholds drift I V (f t)
  | .sleep _ rest, s | .awaitCancel rest, s => rest.Upholds drift I V s

/-- Where branches may do an `R` among each other, and others a `drift`, these promises are not broken
once they have been kept. -/
structure Admits (drift R : σ → σ → Prop) (posts : List (ρ → σ → Prop)) : Prop where
  refl : ∀ s, R s s
  trans : ∀ s t u, R s t → R t u → R s u
  drift : ∀ s t, drift s t → R s t
  lasts : ∀ post ∈ posts, ∀ r, Lasts R (post r)

mutual

/-- From this state on every action is an `I`, and the walk ends in `Q`. -/
def Walk.Upholds (drift I : σ → σ → Prop) (Q : ρ → σ → Prop) : Walk σ ρ → σ → Prop
  | .done r, s => Q r s
  | .act f rest, s => ∀ t, drift s t → I t (f t) ∧ (rest t).Upholds drift I Q (f t)
  | .pause _ rest, s => ∀ cancelled, (rest cancelled).Upholds drift I Q s
  | .call _ work rest, s => work.Upholds drift I (fun e t => (rest e).Upholds drift I Q t) s
  | .fork branches rest, s => ∃ (R : σ → σ → Prop) (posts : List (ρ → σ → Prop)),
      Admits drift R posts ∧ allUphold R (fun t u => I t u ∧ R t u) branches posts s ∧
      ∀ rs t, R s t → (∀ post ∈ posts, ∃ r ∈ rs, post r t) → (rest rs).Upholds drift I Q t

/-- Each branch ends in its own promise. -/
def allUphold (drift I : σ → σ → Prop) :
    List (Walk σ ρ) → List (ρ → σ → Prop) → σ → Prop
  | [], posts, _ => posts = []
  | w :: ws, posts, s => ∃ post rest, posts = post :: rest ∧ w.Upholds drift I post s ∧
      allUphold drift I ws rest s

end

variable {drift I : σ → σ → Prop} {V : CallEnd → σ → Prop} {Q : ρ → σ → Prop} {s t : σ}

namespace Work.Upholds

variable {work work' : Work σ StepResult}

theorem stable (htrans : ∀ s t u, drift s t → drift t u → drift s u) (hV : ∀ e, Lasts drift (V e))
    (h : work.Upholds drift I V s) (hst : drift s t) : work.Upholds drift I V t := by
  induction work generalizing s t with
  | done r => exact ⟨hV _ h.1 hst, hV _ h.2.1 hst, hV _ h.2.2 hst⟩
  | crash m => exact ⟨hV _ h.1 hst, hV _ h.2.1 hst, hV _ h.2.2 hst⟩
  | act f rest ih => exact ⟨hV _ h.1 hst, hV _ h.2.1 hst, fun u hu => h.2.2 u (htrans s t u hst hu)⟩
  | sleep d rest ih => exact ih h hst
  | awaitCancel rest ih => exact ih h hst

theorem mono {J : σ → σ → Prop} {W : CallEnd → σ → Prop} (h : work.Upholds drift I V s)
    (hI : ∀ s t, I s t → J s t) (hV : ∀ e s, V e s → W e s) : work.Upholds drift J W s := by
  induction work generalizing s with
  | done r => exact ⟨hV _ _ h.1, hV _ _ h.2.1, hV _ _ h.2.2⟩
  | crash m => exact ⟨hV _ _ h.1, hV _ _ h.2.1, hV _ _ h.2.2⟩
  | act f rest ih =>
    refine ⟨hV _ _ h.1, hV _ _ h.2.1, fun t hst => ?_⟩
    obtain ⟨hact, hrest⟩ := h.2.2 t hst
    exact ⟨hI _ _ hact, ih t hrest⟩
  | sleep d rest ih => exact ih h
  | awaitCancel rest ih => exact ih h

/-- The call may end wherever its work stands, late or cancelled. -/
theorem given_up (h : work.Upholds drift I V s) : V .timedOut s ∧ V .cancelled s := by
  induction work generalizing s with
  | done | crash | act => exact ⟨h.1, h.2.1⟩
  | sleep d rest ih => exact ih h
  | awaitCancel rest ih => exact ih h

theorem step (hrefl : ∀ s, drift s s) (hstep : Work.Step (work, s) (work', t))
    (h : work.Upholds drift I V s) : (t = s ∨ I s t) ∧ work'.Upholds drift I V t := by
  cases hstep with
  | act f rest s =>
    obtain ⟨hact, hrest⟩ := h.2.2 s (hrefl s)
    exact ⟨.inr hact, hrest⟩
  | sleep => exact ⟨.inl rfl, h⟩
  | awaitCancel => exact ⟨.inl rfl, h⟩

end Work.Upholds

namespace Walk.Upholds

mutual

theorem stable : ∀ {w : Walk σ ρ} {drift I : σ → σ → Prop} {Q : ρ → σ → Prop} {s t : σ},
    (∀ s t u, drift s t → drift t u → drift s u) → (∀ r, Lasts drift (Q r)) →
    w.Upholds drift I Q s → drift s t → w.Upholds drift I Q t
  | .done r, _, _, _, _, _, _, hQ, h, hst => hQ r h hst
  | .act f rest, _, _, _, s, t, htrans, _, h, hst => fun u hu => h u (htrans s t u hst hu)
  | .pause d rest, _, _, _, _, _, htrans, hQ, h, hst => fun cancelled =>
    stable htrans hQ (h cancelled) hst
  | .call limit work rest, _, _, _, _, _, htrans, hQ, h, hst =>
    Work.Upholds.stable htrans (fun _ _ _ hrest hst => stable htrans hQ hrest hst) h hst
  | .fork branches rest, _, _, _, s, t, _, _, h, hst => by
    obtain ⟨R, posts, hR, hbranches, hrest⟩ := h
    have hmove := hR.drift s t hst
    exact ⟨R, posts, hR, allUphold_stable branches hR.trans hR.lasts hbranches hmove,
      fun rs u hu => hrest rs u (hR.trans s t u hmove hu)⟩

theorem allUphold_stable : ∀ (ws : List (Walk σ ρ)) {drift I : σ → σ → Prop}
    {posts : List (ρ → σ → Prop)} {s t : σ}, (∀ s t u, drift s t → drift t u → drift s u) →
    (∀ post ∈ posts, ∀ r, Lasts drift (post r)) → allUphold drift I ws posts s → drift s t →
    allUphold drift I ws posts t
  | [], _, _, _, _, _, _, _, h, _ => h
  | w :: ws, _, _, _, _, _, htrans, hposts, h, hst => by
    obtain ⟨post, rest, rfl, hw, hws⟩ := h
    obtain ⟨hpost, hrest⟩ := List.forall_mem_cons.1 hposts
    exact ⟨post, rest, rfl, stable htrans hpost hw hst, allUphold_stable ws htrans hrest hws hst⟩

end

/-- A branch and its promise among the others. -/
theorem allUphold_around (before : List (Walk σ ρ)) {w : Walk σ ρ} {after : List (Walk σ ρ)}
    {posts : List (ρ → σ → Prop)} (h : allUphold drift I (before ++ w :: after) posts s) :
    ∃ post others, (∀ p, p ∈ posts ↔ p = post ∨ p ∈ others) ∧ w.Upholds drift I post s ∧
      allUphold drift I (before ++ after) others s ∧
      ∀ w' t, w'.Upholds drift I post t → allUphold drift I (before ++ after) others t →
        allUphold drift I (before ++ w' :: after) posts t := by
  induction before generalizing posts with
  | nil =>
    obtain ⟨post, rest, rfl, hw, hrest⟩ := h
    exact ⟨post, rest, fun p => List.mem_cons, hw, hrest, fun w' t hw' hrest' =>
      ⟨post, rest, rfl, hw', hrest'⟩⟩
  | cons v before ih =>
    obtain ⟨first, rest, rfl, hv, hrest⟩ := h
    obtain ⟨post, others, hmem, hw, hothers, hback⟩ := ih hrest
    refine ⟨post, first :: others, fun p => ?_, hw, ⟨first, others, rfl, hv, hothers⟩, ?_⟩
    · rw [List.mem_cons, hmem, List.mem_cons, or_left_comm]
    · rintro w' t hw' ⟨first', others', heq, hv', hothers'⟩
      obtain ⟨rfl, rfl⟩ := List.cons.inj heq
      exact ⟨first, rest, rfl, hv', hback w' t hw' hothers'⟩

/-- A step is an `I`, and what is left upholds the same. -/
theorem step {x y : Walk σ ρ × σ} (hstep : Walk.Step x y) (hrefl : ∀ s, drift s s)
    (h : x.1.Upholds drift I Q x.2) : (y.2 = x.2 ∨ I x.2 y.2) ∧ y.1.Upholds drift I Q y.2 := by
  -- A branch runs among the others of its fork, and ends in its own promise.
  induction hstep generalizing drift I Q with
  | act f rest s =>
    obtain ⟨hact, hrest⟩ := h s (hrefl s)
    exact ⟨.inr hact, hrest⟩
  | pause d rest cancelled s => exact ⟨.inl rfl, h cancelled⟩
  | work hwork => exact Work.Upholds.step hrefl hwork h
  | done limit r rest s => exact ⟨.inl rfl, h.2.2⟩
  | crash limit m rest s => exact ⟨.inl rfl, h.2.2⟩
  | late d work rest s => exact ⟨.inl rfl, (Work.Upholds.given_up h).1⟩
  | cancel limit work rest s => exact ⟨.inl rfl, (Work.Upholds.given_up h).2⟩
  | @branch before after w w' rest s s' _ ih =>
    obtain ⟨R, posts, hR, hbranches, hrest⟩ := h
    obtain ⟨post, others, hmem, hw, hothers, hback⟩ := allUphold_around before hbranches
    obtain ⟨hact, hw'⟩ := ih hR.refl hw
    have hmove : R s s' := by
      obtain hsame | hact := hact
      · have hsame : s' = s := hsame
        exact hsame ▸ hR.refl s
      · exact hact.2
    have hlasts : ∀ p ∈ others, ∀ r, Lasts R (p r) := fun p hp => hR.lasts p ((hmem p).2 (.inr hp))
    refine ⟨hact.imp id And.left, R, posts, hR, hback w' s' hw' ?_, fun rs t ht => ?_⟩
    · exact allUphold_stable _ hR.trans hlasts hothers hmove
    · exact hrest rs t (hR.trans s s' t hmove ht)
  | report before after r rest s =>
    obtain ⟨R, posts, hR, hbranches, hrest⟩ := h
    obtain ⟨post, others, hmem, hr, hothers, -⟩ := allUphold_around before hbranches
    have hR' : Admits drift R others :=
      ⟨hR.refl, hR.trans, hR.drift, fun p hp => hR.lasts p ((hmem p).2 (.inr hp))⟩
    refine ⟨.inl rfl, R, others, hR', hothers, fun rs t ht hrs => hrest (r :: rs) t ht fun p hp => ?_⟩
    obtain rfl | hp := (hmem p).1 hp
    · exact ⟨r, List.mem_cons_self .., hR.lasts p hp r hr ht⟩
    · obtain ⟨r', hr', hpost⟩ := hrs p hp
      exact ⟨r', List.mem_cons_of_mem _ hr', hpost⟩
  | join rest s =>
    obtain ⟨R, posts, hR, hbranches, hrest⟩ := h
    obtain rfl : posts = [] := hbranches
    exact ⟨.inl rfl, hrest [] s (hR.refl s) (by simp)⟩

end Walk.Upholds

/-! ### Pieces -/

/-- From this state on the piece does only what is an `I`, ends walks only with a report of which `P`
holds, and hands on values in states as `V` demands. -/
def Piece.Upholds (P : ρ → Prop) (drift I : σ → σ → Prop) (V : α → σ → Prop) (p : Piece σ ρ α)
    (s : σ) : Prop :=
  ∀ (Q : ρ → σ → Prop) (k : α → Walk σ ρ), (∀ r t, P r → Q r t) →
    (∀ a t, V a t → (k a).Upholds drift I Q t) → (p k).Upholds drift I Q s

namespace Piece.Upholds

variable {P : ρ → Prop} {V : α → σ → Prop} {W : β → σ → Prop} {p : Piece σ ρ α}

theorem pure {a : α} (h : V a s) : (Pure.pure a : Piece σ ρ α).Upholds P drift I V s :=
  fun _ _ _ hk => hk a s h

theorem bind {f : α → Piece σ ρ β} (h : p.Upholds P drift I V s)
    (hf : ∀ a t, V a t → (f a).Upholds P drift I W t) : (p >>= f).Upholds P drift I W s :=
  fun Q k hQ hk => h Q _ hQ fun a t ha => hf a t ha Q k hQ hk

theorem mono {W : α → σ → Prop} (h : p.Upholds P drift I V s) (hVW : ∀ a t, V a t → W a t) :
    p.Upholds P drift I W s :=
  fun Q k hQ hk => h Q k hQ fun a t ha => hk a t (hVW a t ha)

theorem halt {r : ρ} (h : P r) : (Piece.halt r : Piece σ ρ α).Upholds P drift I V s :=
  fun _ _ hQ _ => hQ r s h

theorem update {f : σ → α × σ} (h : ∀ t, drift s t → I t (f t).2 ∧ V (f t).1 (f t).2) :
    (Piece.update f : Piece σ ρ α).Upholds P drift I V s :=
  fun _ _ _ hk t ht => ⟨(h t ht).1, hk _ _ (h t ht).2⟩

theorem modify {f : σ → σ} {V : Unit → σ → Prop} (h : ∀ t, drift s t → I t (f t) ∧ V () (f t)) :
    (Piece.modify f : Piece σ ρ Unit).Upholds P drift I V s :=
  update (f := fun s => ((), f s)) h

theorem read {f : σ → α} (h : ∀ t, drift s t → I t t ∧ V (f t) t) :
    (Piece.read f : Piece σ ρ α).Upholds P drift I V s :=
  update (f := fun s => (f s, s)) h

theorem pause (d : Nanos) {V : Bool → σ → Prop} (h : ∀ cancelled, V cancelled s) :
    (Piece.pause d : Piece σ ρ Bool).Upholds P drift I V s :=
  fun _ _ _ hk cancelled => hk cancelled s (h cancelled)

theorem call (limit : Option Nanos) {work : Work σ StepResult} {V : CallEnd → σ → Prop}
    (h : work.Upholds drift I V s) :
    (Piece.call limit work : Piece σ ρ CallEnd).Upholds P drift I V s :=
  fun _ _ _ hk => Work.Upholds.mono h (fun _ _ hI => hI) hk

theorem fork {branches : List (Walk σ ρ)} {R : σ → σ → Prop} {posts : List (ρ → σ → Prop)}
    (hR : Admits drift R posts) (h : allUphold R (fun t u => I t u ∧ R t u) branches posts s) :
    (Piece.fork branches : Piece σ ρ (List ρ)).Upholds P drift I
      (fun rs t => R s t ∧ ∀ post ∈ posts, ∃ r ∈ rs, post r t) s :=
  fun _ _ _ hk => ⟨R, posts, hR, h, fun rs t ht hrs => hk rs t ⟨ht, hrs⟩⟩

end Piece.Upholds

end DurableWorkflow
