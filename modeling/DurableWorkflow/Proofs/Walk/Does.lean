import DurableWorkflow.Proofs.Walk.Step

/-!
# What walks do and how they end

`w.Does I P` says of a walk what `Keeps` says, and that it can only end with a report of which `P`
holds; branches of a fork have to report in a way that what follows can rely on. A piece that
`Brings P I V` hands on values of which `V` holds.

`w.Obeys drift I Q s` is about the way from the state `s` on, with drift of the state between two
actions: every action is an `I`, and the walk ends with a report and in a state of which `Q` holds. A
call and a fork, where anybody's turn may come next, need a condition on the state that holds all
the way. Every step keeps it (`Obeys.step`).
-/

namespace DurableWorkflow

variable {σ ρ α β : Type}

mutual

/-- Every action of the walk is an `I`, and it ends with a `P`. -/
def Walk.Does (I : σ → σ → Prop) (P : ρ → Prop) : Walk σ ρ → Prop
  | .done r => P r
  | .act f rest => ∀ s, I s (f s) ∧ (rest s).Does I P
  | .pause _ rest => ∀ cancelled, (rest cancelled).Does I P
  | .call _ work rest => work.Keeps I ∧ ∀ e, (rest e).Does I P
  | .fork branches rest => ∃ B : ρ → Prop, allDo I B branches ∧
      ∀ rs : List ρ, (∀ r ∈ rs, B r) → (rest rs).Does I P

def allDo (I : σ → σ → Prop) (P : ρ → Prop) : List (Walk σ ρ) → Prop
  | [] => True
  | w :: ws => w.Does I P ∧ allDo I P ws

end

/-- What drift does not change. -/
def Lasts (drift : σ → σ → Prop) (J : σ → Prop) : Prop := ∀ ⦃s t⦄, J s → drift s t → J t

/-- From this state on every action is an `I`, and the walk ends in `Q`. -/
def Walk.Obeys (drift I : σ → σ → Prop) (Q : ρ → σ → Prop) : Walk σ ρ → σ → Prop
  | .done r, s => Q r s
  | .act f rest, s => ∀ t, drift s t → I t (f t) ∧ (rest t).Obeys drift I Q (f t)
  | .pause _ rest, s => ∀ cancelled, (rest cancelled).Obeys drift I Q s
  | .call _ work rest, s => ∃ J : σ → Prop, J s ∧ Lasts drift J ∧
      work.Keeps (fun t u => J t → I t u ∧ J u) ∧ ∀ e t, J t → (rest e).Obeys drift I Q t
  | .fork branches rest, s => ∃ (J : σ → Prop) (B : ρ → Prop), J s ∧ Lasts drift J ∧
      (∀ w ∈ branches, w.Does (fun t u => J t → I t u ∧ J u) B) ∧
      ∀ (rs : List ρ) t, (∀ r ∈ rs, B r) → J t → (rest rs).Obeys drift I Q t

variable {I V : σ → σ → Prop} {P : ρ → Prop} {drift : σ → σ → Prop} {Q : ρ → σ → Prop}

theorem allDo_iff (ws : List (Walk σ ρ)) : allDo I P ws ↔ ∀ w ∈ ws, w.Does I P := by
  induction ws with
  | nil => simp [allDo]
  | cons w ws ih => rw [allDo, ih, List.forall_mem_cons]

theorem Work.Keeps.mono {w : Work σ α} (h : w.Keeps V) (hVI : ∀ s t, V s t → I s t) :
    w.Keeps I := by
  induction w with
  | done | crash => trivial
  | act f rest ih => exact fun s => ⟨hVI _ _ (h s).1, ih s (h s).2⟩
  | sleep d rest ih => exact ih h
  | awaitCancel rest ih => exact ih h

namespace Walk

mutual

theorem Does.mono : ∀ {w : Walk σ ρ} {P : ρ → Prop}, w.Does V P → (∀ s t, V s t → I s t) → w.Does I P
  | .done _, _, h, _ => h
  | .act _ _, _, h, hVI => fun s => ⟨hVI _ _ (h s).1, Does.mono (h s).2 hVI⟩
  | .pause _ _, _, h, hVI => fun cancelled => Does.mono (h cancelled) hVI
  | .call _ _ _, _, h, hVI => ⟨h.1.mono hVI, fun e => Does.mono (h.2 e) hVI⟩
  | .fork branches _, _, ⟨B, hall, hrest⟩, hVI =>
    ⟨B, allDo_mono branches hall hVI, fun rs hrs => Does.mono (hrest rs hrs) hVI⟩

theorem allDo_mono : ∀ (ws : List (Walk σ ρ)) {P : ρ → Prop}, allDo V P ws →
    (∀ s t, V s t → I s t) → allDo I P ws
  | [], _, _, _ => trivial
  | _ :: ws, _, h, hVI => ⟨Does.mono h.1 hVI, allDo_mono ws h.2 hVI⟩

end

mutual

/-- What keeps `I` does nothing else, whatever it reports. -/
theorem Keeps.does : ∀ {w : Walk σ ρ}, w.Keeps I → w.Does I fun _ => True
  | .done _, _ => trivial
  | .act _ _, h => fun s => ⟨(h s).1, Keeps.does (h s).2⟩
  | .pause _ _, h => fun cancelled => Keeps.does (h cancelled)
  | .call _ _ _, h => ⟨h.1, fun e => Keeps.does (h.2 e)⟩
  | .fork branches _, h => ⟨_, allKeep.does branches h.1, fun rs _ => Keeps.does (h.2 rs)⟩

theorem allKeep.does : ∀ ws : List (Walk σ ρ), allKeep I ws → allDo I (fun _ => True) ws
  | [], _ => trivial
  | _ :: ws, h => ⟨Keeps.does h.1, allKeep.does ws h.2⟩

end

theorem forall_replaced {before after : List (Walk σ ρ)} {w w' : Walk σ ρ} {K : Walk σ ρ → Prop}
    (h : ∀ v ∈ before ++ w :: after, K v) (hw' : K w') : ∀ v ∈ before ++ w' :: after, K v := by
  intro v hv
  rw [List.mem_append, List.mem_cons] at hv
  obtain hv | rfl | hv := hv
  · exact h v (by simp [hv])
  · exact hw'
  · exact h v (by simp [hv])

theorem forall_removed {before after : List (Walk σ ρ)} {w : Walk σ ρ} {K : Walk σ ρ → Prop}
    (h : ∀ v ∈ before ++ w :: after, K v) : ∀ v ∈ before ++ after, K v := by
  intro v hv
  rw [List.mem_append] at hv
  obtain hv | hv := hv <;> exact h v (by simp [hv])

theorem Does.step {x y : Walk σ ρ × σ} (h : Walk.Step x y) {P : ρ → Prop} (hx : x.1.Does I P) :
    (y.2 = x.2 ∨ I x.2 y.2) ∧ y.1.Does I P := by
  -- A branch reports to its fork, so `P` is another one for each of them.
  induction h generalizing P with
  | act f rest s => exact ⟨.inr (hx s).1, (hx s).2⟩
  | pause d rest cancelled s => exact ⟨.inl rfl, hx cancelled⟩
  | work h =>
    obtain ⟨hs, hwork⟩ := Work.Keeps.step h hx.1
    exact ⟨hs, hwork, hx.2⟩
  | done | crash | late | cancel => exact ⟨.inl rfl, hx.2 _⟩
  | @branch before after w w' rest s s' h ih =>
    obtain ⟨B, hall, hrest⟩ := hx
    rw [allDo_iff] at hall
    obtain ⟨hs, hw'⟩ := ih (hall w (by simp))
    exact ⟨hs, B, (allDo_iff _).2 (forall_replaced hall hw'), hrest⟩
  | report before after r rest s =>
    obtain ⟨B, hall, hrest⟩ := hx
    rw [allDo_iff] at hall
    have hr : B r := hall (.done r) (by simp)
    exact ⟨.inl rfl, B, (allDo_iff _).2 (forall_removed hall),
      fun rs hrs => hrest (r :: rs) (List.forall_mem_cons.2 ⟨hr, hrs⟩)⟩
  | join rest s =>
    obtain ⟨B, -, hrest⟩ := hx
    exact ⟨.inl rfl, hrest [] (by simp)⟩

namespace Obeys

theorem stable (htrans : ∀ s t u, drift s t → drift t u → drift s u) (hQ : ∀ r, Lasts drift (Q r))
    {w : Walk σ ρ} {s t : σ} (h : w.Obeys drift I Q s) (hst : drift s t) :
    w.Obeys drift I Q t := by
  -- Of the branches of a fork it is said from every state what they do: nothing is to be shown.
  induction w using Walk.rec (motive_2 := fun _ => True) generalizing s t with
  | done r => exact hQ r h hst
  | act f rest ih => exact fun u hu => h u (htrans s t u hst hu)
  | pause d rest ih => exact fun cancelled => ih cancelled (h cancelled) hst
  | call limit work rest ih =>
    obtain ⟨J, hs, hJ, hwork, hrest⟩ := h
    exact ⟨J, hJ hs hst, hJ, hwork, hrest⟩
  | fork branches rest =>
    obtain ⟨J, B, hs, hJ, hbranches, hrest⟩ := h
    exact ⟨J, B, hJ hs hst, hJ, hbranches, hrest⟩
  | nil | cons => trivial

/-- A step is an `I`, and what is left obeys. -/
theorem step (hrefl : ∀ s, drift s s) {x y : Walk σ ρ × σ} (hstep : Walk.Step x y)
    (h : x.1.Obeys drift I Q x.2) : (y.2 = x.2 ∨ I x.2 y.2) ∧ y.1.Obeys drift I Q y.2 := by
  cases hstep with
  | act f rest s =>
    obtain ⟨hact, hrest⟩ := h s (hrefl s)
    exact ⟨.inr hact, hrest⟩
  | pause d rest cancelled s => exact ⟨.inl rfl, h cancelled⟩
  | work hwork =>
    obtain ⟨J, hs, hJ, hkeeps, hrest⟩ := h
    obtain ⟨hsame | hact, hkeeps'⟩ := Work.Keeps.step hwork hkeeps
    · have hsame' : _ = _ := hsame
      exact ⟨.inl hsame, J, hsame' ▸ hs, hJ, hkeeps', hrest⟩
    · obtain ⟨hI, hs'⟩ := hact hs
      exact ⟨.inr hI, J, hs', hJ, hkeeps', hrest⟩
  | done | crash | late | cancel =>
    obtain ⟨J, hs, -, -, hrest⟩ := h
    exact ⟨.inl rfl, hrest _ _ hs⟩
  | @branch before after w w' rest s s' hbranch =>
    obtain ⟨J, B, hs, hJ, hall, hrest⟩ := h
    obtain ⟨hsame | hact, hw'⟩ := Does.step hbranch (hall w (by simp))
    · have hsame' : s' = s := hsame
      subst hsame'
      exact ⟨.inl rfl, J, B, hs, hJ, forall_replaced hall hw', hrest⟩
    · obtain ⟨hI, hs'⟩ := hact hs
      exact ⟨.inr hI, J, B, hs', hJ, forall_replaced hall hw', hrest⟩
  | report before after r rest s =>
    obtain ⟨J, B, hs, hJ, hall, hrest⟩ := h
    have hr : B r := hall (.done r) (by simp)
    exact ⟨.inl rfl, J, B, hs, hJ, forall_removed hall,
      fun rs t hrs => hrest (r :: rs) t (List.forall_mem_cons.2 ⟨hr, hrs⟩)⟩
  | join rest s =>
    obtain ⟨J, B, hs, -, -, hrest⟩ := h
    exact ⟨.inl rfl, hrest [] s (by simp) hs⟩

end Obeys

end Walk

/-! ### Pieces -/

/-- The piece does only what is an `I`, hands on only values of which `V` holds, and ends walks only
with reports of which `P` holds. -/
inductive Piece.Brings (P : ρ → Prop) (I : σ → σ → Prop) :
    {α : Type} → (α → Prop) → Piece σ ρ α → Prop
  | pure {α : Type} {V : α → Prop} {a : α} (h : V a) : Brings P I V (Pure.pure a : Piece σ ρ α)
  | bind {α β : Type} {V : α → Prop} {W : β → Prop} {p : Piece σ ρ α} {f : α → Piece σ ρ β}
    (hp : Brings P I V p) (hf : ∀ a, V a → Brings P I W (f a)) : Brings P I W (p >>= f)
  | halt {α : Type} {V : α → Prop} {r : ρ} (h : P r) : Brings P I V (Piece.halt r : Piece σ ρ α)
  | update {α : Type} {V : α → Prop} {f : σ → α × σ} (h : ∀ s, I s (f s).2) (hV : ∀ s, V (f s).1) :
    Brings P I V (Piece.update f : Piece σ ρ α)
  | pause (d : Nanos) : Brings P I (fun _ => True) (Piece.pause d)
  | call (limit : Option Nanos) {work : Work σ StepResult} (h : work.Keeps I) :
    Brings P I (fun _ => True) (Piece.call limit work)
  | fork {branches : List (Walk σ ρ)} (B : ρ → Prop) (h : ∀ w ∈ branches, w.Does I B) :
    Brings P I (fun rs => ∀ r ∈ rs, B r) (Piece.fork branches)

theorem Piece.Keeps.brings {p : Piece σ ρ α} (h : p.Keeps P I) : p.Brings P I fun _ => True := by
  induction h with
  | pure a => exact .pure trivial
  | bind _ _ ihp ihf => exact ihp.bind fun a _ => ihf a
  | halt h => exact .halt h
  | update h => exact .update h fun _ => trivial
  | pause d => exact .pause d
  | call limit h => exact .call limit h
  | fork h =>
    have hfork := Piece.Brings.fork (P := P) (fun _ => True) fun w hw => (h w hw).does
    exact hfork.bind fun rs _ => .pure trivial

namespace Piece.Brings

variable {W : α → Prop} {p : Piece σ ρ α} {k : α → Walk σ ρ}

theorem read (f : σ → α) (h : ∀ s, I s s) (hW : ∀ s, W (f s)) :
    (Piece.read f : Piece σ ρ α).Brings P I W :=
  update (f := fun s => (f s, s)) h hW

theorem does {B : ρ → Prop} (h : p.Brings P I W) (hP : ∀ r, P r → B r)
    (hk : ∀ a, W a → (k a).Does I B) : (p k).Does I B := by
  induction h with
  | pure h => exact hk _ h
  | bind _ _ ihp ihf => exact ihp fun a ha => ihf a ha hk
  | halt h => exact hP _ h
  | update h hV => exact fun s => ⟨h s, hk _ (hV s)⟩
  | pause d => exact fun cancelled => hk cancelled trivial
  | call limit h => exact ⟨h, fun e => hk e trivial⟩
  | fork B h => exact ⟨B, (allDo_iff _).2 h, fun rs hrs => hk rs hrs⟩

/-- From a state in which `J` holds, which is kept by all that the piece does. -/
theorem obeys {J : σ → Prop} (h : p.Brings P V W) (hJ : Lasts drift J)
    (hV : ∀ s t, V s t → J s → I s t ∧ J t) (hP : ∀ r s, P r → J s → Q r s)
    (hk : ∀ a s, W a → J s → (k a).Obeys drift I Q s) {s : σ} (hs : J s) :
    (p k).Obeys drift I Q s := by
  induction h generalizing s with
  | pure h => exact hk _ s h hs
  | bind _ _ ihp ihf => exact ihp (fun a s ha hs => ihf a ha hk hs) hs
  | halt h => exact hP _ s h hs
  | update h hW =>
    intro t hst
    obtain ⟨hI, ht⟩ := hV _ _ (h t) (hJ hs hst)
    exact ⟨hI, hk _ _ (hW t) ht⟩
  | pause d => exact fun cancelled => hk cancelled s trivial hs
  | call limit h => exact ⟨J, hs, hJ, h.mono hV, fun e t ht => hk e t trivial ht⟩
  | fork B h => exact ⟨J, B, hs, hJ, fun w hw => (h w hw).mono hV, fun rs t hrs ht => hk rs t hrs ht⟩

end Piece.Brings

end DurableWorkflow
