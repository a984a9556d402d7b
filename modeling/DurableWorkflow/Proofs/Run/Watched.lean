import DurableWorkflow.Proofs.Course.Watch
import DurableWorkflow.Proofs.Run.Keeps
import DurableWorkflow.Proofs.Walk.Does
import DurableWorkflow.Proofs.Walk.Schedule
import DurableWorkflow.Proofs.Walk.Upholds

/-!
# Runs under watch

A run is as a watch demands, if its walk is and the end of it may be concluded (`run_heeds`).
Concluding a run undoes steps that it has completed, and changes nothing of the books. What is
watched is so however a course goes on among others (`Course.Heeds.moves`).
-/

namespace DurableWorkflow

variable {C H X ω τ β α : Type}

/-- What a walk obeys guides it under a watch, with `J` to hold all the way. -/
theorem Watch.guides_obeys {P : Watch ω τ β} {I : τ × ω → τ × ω → Prop} {J : τ × ω → Prop}
    {Q : β → τ × ω → Prop} (hJ : Lasts (Beside P.others) J)
    (hQ : ∀ r, Lasts (Beside P.others) (Q r)) (hI : ∀ s t, J s → I s t → P.pace s t ∧ J t)
    (hrefl : ∀ s, P.pace s s) (hmark : ∀ path own w, J (own, w) → P.mark path own w) :
    P.Guides fun path own w => J (own, w) ∧ path.Obeys (Beside P.others) I Q (own, w) where
  stable path own w v h hv := by
    refine ⟨hJ h.1 ⟨rfl, hv⟩, Walk.Obeys.stable (fun s t u hst htu => ?_) hQ h.2 ⟨rfl, hv⟩⟩
    exact ⟨htu.1.trans hst.1, P.trans hst.2 htu.2⟩
  step {path path' own own' w w'} h _ hstep := by
    obtain ⟨hhere, hpath⟩ := h
    obtain ⟨hsame | hact, hpath'⟩ := Walk.Obeys.step (fun s => ⟨rfl, P.refl s.2⟩) hstep hpath
    · obtain ⟨rfl, rfl⟩ := Prod.mk.inj hsame
      exact ⟨hrefl _, hhere, hpath'⟩
    · obtain ⟨hpace, hthere⟩ := hI _ _ hhere hact
      exact ⟨hpace, hthere, hpath'⟩
  mark h := hmark _ _ _ h.1

/-- What a walk upholds guides it under a watch, together with what every action of it does, with `J` to
hold all the way. -/
theorem Watch.guides_upholds {P : Watch ω τ β} {I G : τ × ω → τ × ω → Prop} {J : τ × ω → Prop}
    {Q : β → τ × ω → Prop} (hJ : Lasts (Beside P.others) J)
    (hQ : ∀ r, Lasts (Beside P.others) (Q r)) (hG : ∀ s, G s s)
    (hI : ∀ s t, J s → I s t → G s t → P.pace s t ∧ J t) (hrefl : ∀ s, P.pace s s)
    (hmark : ∀ path own w, J (own, w) → P.mark path own w) :
    P.Guides fun path own w =>
      J (own, w) ∧ path.Upholds (Beside P.others) I Q (own, w) ∧ path.Keeps G where
  stable path own w v h hv := by
    obtain ⟨hhere, hpath, hkeeps⟩ := h
    refine ⟨hJ hhere ⟨rfl, hv⟩, hpath.stable (fun s t u hst htu => ?_) hQ ⟨rfl, hv⟩, hkeeps⟩
    exact ⟨htu.1.trans hst.1, P.trans hst.2 htu.2⟩
  step {path path' own own' w w'} h _ hstep := by
    obtain ⟨hhere, hpath, hkeeps⟩ := h
    obtain ⟨hdone, hkeeps'⟩ := Walk.Keeps.step hstep hkeeps
    obtain ⟨hsame | hact, hpath'⟩ := Walk.Upholds.step hstep (fun s => ⟨rfl, P.refl s.2⟩) hpath
    · obtain ⟨rfl, rfl⟩ := Prod.mk.inj hsame
      exact ⟨hrefl _, hhere, hpath', hkeeps'⟩
    · have hdone : G (own, w) (own', w') := by
        obtain hsame | hdone := hdone
        · have hsame : (own', w') = (own, w) := hsame
          rw [hsame]
          exact hG _
        · exact hdone
      obtain ⟨hpace, hthere⟩ := hI _ _ hhere hact hdone
      exact ⟨hpace, hthere, hpath', hkeeps'⟩
  mark h := hmark _ _ _ h.1

/-- What every action of a walk does guides it under a watch, with `J` to hold all the way. -/
theorem Watch.guides_keeps {P : Watch ω τ β} {I : τ × ω → τ × ω → Prop}
    {J : τ → ω → Prop} (hJ : ∀ own, P.Stable (J own))
    (hI : ∀ s t, J s.1 s.2 → I s t → P.pace s t ∧ J t.1 t.2) (hrefl : ∀ s, P.pace s s)
    (hmark : ∀ path own w, J own w → P.mark path own w) :
    P.Guides fun path own w => J own w ∧ path.Keeps I where
  stable path own w v h hv := ⟨hJ own h.1 hv, h.2⟩
  step {path path' own own' w w'} h _ hstep := by
    obtain ⟨hhere, hpath⟩ := h
    obtain ⟨hsame | hact, hpath'⟩ := Walk.Keeps.step hstep hpath
    · obtain ⟨rfl, rfl⟩ := Prod.mk.inj hsame
      exact ⟨hrefl _, hhere, hpath'⟩
    · obtain ⟨hpace, hthere⟩ := hI _ _ hhere hact
      exact ⟨hpace, hthere, hpath'⟩
  mark h := hmark _ _ _ h.1

/-- What all that is watched keeps is kept however the course goes on among others. -/
theorem Course.Heeds.moves {P : Watch ω τ β} {Q : α → ω → Prop} {G : ω → Prop}
    (hQ : ∀ a, P.Stable (Q a)) (hgood : ∀ {w}, G w → P.good w)
    (hothers : ∀ {w v}, G w → P.others w v → G v) (hown : ∀ {w v}, G w → P.own w v → G v)
    (hpace : ∀ {s t : τ × ω}, G s.2 → P.pace s t → G t.2) {x y : Course ω τ β α × ω}
    (h : Moves P.others Course.Step x y) (hx : x.1.Heeds P Q x.2) (hG : G x.2) :
    y.1.Heeds P Q y.2 ∧ G y.2 := by
  induction h with
  | refl => exact ⟨hx, hG⟩
  | @tail x z _ hmove ih =>
    obtain ⟨hx, hG⟩ := ih
    obtain ⟨c, w⟩ := x
    obtain ⟨c', v⟩ := z
    obtain hstep | ⟨hsame, hdrift⟩ := hmove
    · obtain ⟨hseen, hrest⟩ := Course.Heeds.step hstep hx (hgood hG)
      refine ⟨hrest, ?_⟩
      cases hseen with
      | own h => exact hown hG h
      | pace h => exact hpace hG h
    · obtain rfl : c' = c := hsame
      exact ⟨hx.stable hQ hdrift, hothers hG hdrift⟩

namespace Environment

variable {env : Environment C H X ω} {P : Watch ω (Board C H X) Report}
  {F : Board C H X → ω → Prop} {w : ω}

theorem undo_heeds (hF : ∀ board, P.Stable (F board)) {steps : List (NodeId × Step C H)}
    (hsteps : ∀ x ∈ steps, ∀ work ∈ x.2.compensate, (env.onBoard work).Keeps fun s t =>
      P.good s.2 → F s.1 s.2 → P.own s.2 t.2 ∧ F t.1 t.2)
    {board : Board C H X} (undone : Undone) (hw : F board w) :
    (env.undo board undone steps).Heeds P (fun r v => F r.1 v) w := by
  induction steps generalizing board undone w with
  | nil => exact hw
  | cons x steps ih =>
    obtain ⟨hx, hrest⟩ := List.forall_mem_cons.1 hsteps
    obtain ⟨node, s⟩ := x
    rw [undo]
    split
    · exact ih hrest _ hw
    · next work hwork => exact ⟨F, hw, hF, hx work hwork, fun own e v hv => ih hrest _ hv⟩

theorem conclude_heeds (hF : ∀ board, P.Stable (F board)) (hpublish : ∀ e v, P.own v (env.publish e v))
    (hF' : ∀ board e v, F board v → F board (env.publish e v)) (d : Definition C H) (begin : Nat)
    {board : Board C H X} (outcome : RunOutcome)
    (hsteps : outcome.isFailed = true → ∀ x ∈ board.ledger.completed, ∀ work ∈ x.2.compensate,
      (env.onBoard work).Keeps fun s t => P.good s.2 → F s.1 s.2 → P.own s.2 t.2 ∧ F t.1 t.2)
    (hw : F board w) :
    (env.conclude d begin board outcome).Heeds P (fun r v => F r.1 v ∧ r.2.outcome = outcome ∧
      r.2.context = r.1.context ∧ r.2.trace = r.1.ledger.trace) w := by
  refine Course.Heeds.bind (undo_heeds hF (fun x hx => ?_) {} hw) fun r v hv => ?_
  · split at hx
    · next hundo => exact hsteps (Bool.and_eq_true_iff.1 hundo).1 x (List.mem_reverse.1 hx)
    · simp at hx
  · refine fun u hu _ => ⟨P.own_refl u, ?_⟩
    have hv := hF r.1 hv hu
    simp only [id, Course.pure_bind]
    split
    · exact fun t ht _ => ⟨hpublish _ t, hF' _ _ _ (hF r.1 hv ht), rfl, rfl, rfl⟩
    · exact ⟨hv, rfl, rfl, rfl⟩

/-- A run whose walk is guided by `K`. -/
theorem run_heeds {K : Walk (Board C H X × ω) Report → Board C H X → ω → Prop} {d : Definition C H}
    {start : StartPoint} {context : C} {extra : X} {Q : X × Option (RunResult C) → ω → Prop}
    (hK : P.Guides K) (hpublish : ∀ e v, P.own v (env.publish e v))
    (hbegin : ∀ v, P.others w v → ∀ u e, P.others v u → K (env.traverse d start)
      { context, extra } (env.publish e u))
    (harrive : ∀ begin board r v, K (.done r) board v → r.crash? = none →
      ∀ o ∈ outcome d (some r), (env.conclude d begin board o).Heeds P
        (fun y v => Q (y.1.extra, some y.2) v) v)
    (hstop : ∀ board r v, K (.done r) board v → r.crash? = none → outcome d (some r) = none →
      Q (board.extra, none) v)
    (hlate : ∀ begin path board v, K path board v →
      (env.conclude d begin board (.failed (lateFailure d (d.limit.getD 0)))).Heeds P
        (fun y v => Q (y.1.extra, some y.2) v) v) :
    (env.run d start context extra).Heeds P Q w := by
  refine fun v hv _ => ⟨P.own_refl v, fun u hu _ => ⟨hpublish _ u, K, hK, hbegin v hv u _ hu,
    fun board r v hdone => ?_, fun path board v hpath => ?_⟩⟩
  · simp only
    split
    · trivial
    · next hcrash houtcome => exact hstop board r v hdone (by simpa using hcrash) houtcome
    · next o hcrash houtcome =>
      exact (harrive _ board r v hdone (by simpa using hcrash) o houtcome).bind fun y v hy => hy
  · exact (hlate _ path board v hpath).bind fun y v hy => hy

end Environment

end DurableWorkflow
