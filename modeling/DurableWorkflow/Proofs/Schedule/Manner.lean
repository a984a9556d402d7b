import DurableWorkflow.Proofs.Walk.Step
import DurableWorkflow.Schedule.Strand

/-!
# Walks that are told to stop

A walk quits if, told to stop, it ends without doing anything (`Walk.Quits`). It minds being told if
it quits from wherever it waits: from a pause, from a call, and from a fork once its branches have
ended, which quit themselves (`Walk.Minds`). What else it may do is its manner. A walk that minds
leaves strands that do, whatever turns they are given.
-/

namespace DurableWorkflow

variable {σ ρ : Type}

/-- Told to stop, the walk ends without doing anything, with a report of which `P` holds. -/
def Walk.Quits (stop : σ → Bool) (P : ρ → Prop) : Walk σ ρ → Prop
  | .done r => P r
  | .act f rest => ∀ s, stop s = true → f s = s ∧ (rest s).Quits stop P
  | .pause _ rest => (rest true).Quits stop P
  | .call _ _ rest => (rest .cancelled).Quits stop P
  | .fork .. => False

/-- What a walk does, and when it looks whether it has been told to stop. -/
structure Manner (σ : Type) where
  /-- Has it been told to stop? -/
  stop : σ → Bool
  /-- What its own actions do. -/
  acts : σ → σ → Prop
  /-- The work that it calls. -/
  works : Work σ StepResult → Prop
  /-- May its calls have limits? -/
  limited : Prop
  /-- The ends of calls after which it looks. -/
  looks : CallEnd → Prop
  looks_cancelled : looks .cancelled
  works_step : ∀ {w w' s s'}, works w → Work.Step (w, s) (w', s') → works w'

variable {m : Manner σ} {P : ρ → Prop}

mutual

def Walk.Minds (m : Manner σ) (P : ρ → Prop) : Walk σ ρ → Prop
  | .done _ => True
  | .act f rest => ∀ s, m.acts s (f s) ∧ (rest s).Minds m P
  | .pause _ rest => (rest true).Quits m.stop P ∧ ∀ cancelled, (rest cancelled).Minds m P
  | .call limit work rest => (m.limited ∨ limit = none) ∧ m.works work ∧
      ∀ e, (m.looks e → (rest e).Quits m.stop P) ∧ (rest e).Minds m P
  | .fork branches rest => allMind m branches ∧
      ∀ rs, (rest rs).Quits m.stop P ∧ (rest rs).Minds m P

/-- What branches report when they quit does not matter. -/
def allMind (m : Manner σ) : List (Walk σ ρ) → Prop
  | [] => True
  | w :: ws => w.Quits m.stop (fun _ => True) ∧ w.Minds m (fun _ => True) ∧ allMind m ws

end

mutual

def Strand.Minds (m : Manner σ) (P : ρ → Prop) : Strand σ ρ → Prop
  | .ready _ w => w.Quits m.stop P ∧ w.Minds m P
  | .pausing _ rest => (rest true).Quits m.stop P ∧ ∀ cancelled, (rest cancelled).Minds m P
  | .calling deadline _ work rest => (m.limited ∨ deadline = none) ∧ m.works work ∧
      ∀ e, (m.looks e → (rest e).Quits m.stop P) ∧ (rest e).Minds m P
  | .joining branches _ told rest => Strand.AllMind m branches ∧ (branches = [] → told.isSome) ∧
      ∀ rs, (rest rs).Quits m.stop P ∧ (rest rs).Minds m P

def Strand.AllMind (m : Manner σ) : List (Strand σ ρ) → Prop
  | [] => True
  | b :: bs => b.Minds m (fun _ => True) ∧ Strand.AllMind m bs

end

def Progress.Minds (m : Manner σ) (P : ρ → Prop) : Progress σ ρ → Prop
  | .ended _ => True
  | .waiting b => b.Minds m P

/-! ### Turns -/

theorem Walk.Quits.proceed {stop : σ → Bool} : ∀ {w : Walk σ ρ} {s : σ}, w.Quits stop P →
    stop s = true → ∀ (rank : Nat) (c : Clock), ∃ r, P r ∧
      w.proceed stop rank s c = (.ended r, s, c)
  | .done r, _, h, _, _, _ => ⟨r, h, rfl⟩
  | .act f rest, s, h, hs, rank, c => by
    obtain ⟨hf, hrest⟩ := h s hs
    obtain ⟨r, hr, heq⟩ := Quits.proceed hrest hs rank c
    refine ⟨r, hr, ?_⟩
    rw [Walk.proceed, hf, heq]
  | .pause d rest, s, h, hs, rank, c => by
    obtain ⟨r, hr, heq⟩ := Quits.proceed (w := rest true) h hs rank c
    refine ⟨r, hr, ?_⟩
    rw [Walk.proceed, if_pos hs, heq]
  | .call limit work rest, s, h, hs, rank, c => by
    obtain ⟨r, hr, heq⟩ := Quits.proceed (w := rest .cancelled) h hs rank c
    refine ⟨r, hr, ?_⟩
    rw [Walk.proceed, if_pos hs, heq]

/-- Work that waits is work that is called. -/
theorem Manner.works_proceed (m : Manner σ) (rank : Nat) {work rest : Work σ StepResult} {s s' : σ}
    {c c' : Clock} {due : Option Moment} (h : m.works work)
    (heq : work.proceed m.stop rank s c = (.waiting due rest, s', c')) : m.works rest := by
  induction work generalizing s c with
  | done | crash => simp [Work.proceed] at heq
  | act f next ih => exact ih s (m.works_step h (.act f next s)) heq
  | sleep d next ih =>
    have hnext := m.works_step h (.sleep d next s)
    rw [Work.proceed] at heq
    split at heq
    · exact ih hnext heq
    · cases heq
      exact hnext
  | awaitCancel next ih =>
    have hnext := m.works_step h (.awaitCancel next s)
    rw [Work.proceed] at heq
    split at heq
    · exact ih hnext heq
    · cases heq
      exact hnext

theorem Clock.readied_minds : ∀ (ws : List (Walk σ ρ)) (c : Clock), allMind m ws →
    Strand.AllMind m (c.readied ws).1
  | [], _, _ => trivial
  | _ :: ws, _, h => ⟨⟨h.1, h.2.1⟩, readied_minds ws _ h.2.2⟩

theorem Clock.deadline_none {c : Clock} {rank : Nat} {limit : Option Nanos}
    (h : m.limited ∨ limit = none) : m.limited ∨ (c.deadline rank limit).1 = none :=
  h.imp id fun h => by rw [h, Clock.deadline]

theorem Walk.Minds.proceed : ∀ {w : Walk σ ρ}, w.Minds m P → ∀ (rank : Nat) (s : σ) (c : Clock),
    (w.proceed m.stop rank s c).1.Minds m P
  | .done r, _, _, _, _ => trivial
  | .act f rest, h, rank, s, c => Minds.proceed (h s).2 rank (f s) c
  | .pause d rest, h, rank, s, c => by
    rw [Walk.proceed]
    split
    · exact Minds.proceed (h.2 true) rank s c
    · split
      · exact Minds.proceed (h.2 false) rank s c
      · exact h
  | .call limit work rest, ⟨hlimit, hwork, hrest⟩, rank, s, c => by
    rw [Walk.proceed]
    split
    · exact Minds.proceed (hrest _).2 rank s c
    · split
      · exact Minds.proceed (hrest _).2 rank _ _
      · next heq =>
        simp only
        split
        · exact Minds.proceed (hrest _).2 rank _ _
        · exact ⟨Clock.deadline_none hlimit, m.works_proceed rank hwork heq, hrest⟩
  | .fork [] rest, h, rank, s, c => Minds.proceed (h.2 []).2 rank s c
  | .fork (_ :: _) rest, h, rank, s, c =>
    ⟨Clock.readied_minds _ c h.1, fun hnil => by simp at hnil, h.2⟩

namespace Strand

theorem Minds.poll {b : Strand σ ρ} (h : b.Minds m P) (rank : Nat) (s : σ) (c : Clock) :
    (b.poll m.stop rank s c).1.Minds m P := by
  cases b with
  | ready due w => exact h.2.proceed rank s c
  | pausing due rest =>
    rw [Strand.poll]
    split
    · exact (h.2 true).proceed rank s c
    · split
      · exact (h.2 false).proceed rank s c
      · exact h
  | calling deadline due work rest =>
    obtain ⟨hlimit, hwork, hrest⟩ := h
    rw [Strand.poll]
    split
    · exact (hrest _).2.proceed rank s c
    · split
      · exact (hrest _).2.proceed rank _ _
      · next heq =>
        split
        · exact (hrest _).2.proceed rank _ _
        · refine ⟨hlimit, ?_, hrest⟩
          split at heq
          · exact m.works_proceed rank hwork heq
          · cases heq
            exact hwork
  | joining branches reports told rest =>
    obtain ⟨hbranches, -, hrest⟩ := h
    cases branches with
    | nil => exact (hrest reports).2.proceed rank s c
    | cons b bs => exact ⟨hbranches, fun hnil => by simp at hnil, hrest⟩

theorem tell_isSome {rank : Nat} {report : Option ρ} {told : Option Moment} {c : Clock}
    (h : report.isSome ∨ told.isSome) : (tell rank report told c).1.isSome := by
  cases report <;> cases told <;> simp_all [tell]

variable (stopped : Option Moment) (at_ : Moment)

mutual

theorem Minds.turn : ∀ {b : Strand σ ρ} {P : ρ → Prop}, b.Minds m P → ∀ (ranks : Ranks) (s : σ)
    (c : Clock), (b.turn m.stop stopped at_ ranks s c).1.Minds m P
  | .ready _ _, _, h, ranks, s, c => h.poll ranks.own s c
  | .pausing _ _, _, h, ranks, s, c => h.poll ranks.own s c
  | .calling _ _ _ _, _, h, ranks, s, c => h.poll ranks.own s c
  | .joining branches reports told rest, _, h, ranks, s, c => by
    rw [Strand.turn]
    split
    · exact h.poll ranks.own s c
    · obtain ⟨hbranches, htold, hrest⟩ := h
      obtain ⟨hbranches', hreport⟩ := turnBranch_minds branches hbranches s c
      refine ⟨hbranches', fun hnil => tell_isSome ?_, hrest⟩
      rcases hreport hnil with hempty | hsome
      · exact .inr (htold hempty)
      · exact .inl hsome

theorem turnBranch_minds : ∀ (bs : List (Strand σ ρ)), AllMind m bs → ∀ (s : σ) (c : Clock),
    AllMind m (turnBranch m.stop stopped at_ bs s c).1 ∧
      ((turnBranch m.stop stopped at_ bs s c).1 = [] →
        bs = [] ∨ (turnBranch m.stop stopped at_ bs s c).2.1.isSome)
  | [], _, _, _ => ⟨trivial, fun _ => .inl rfl⟩
  | b :: bs, h, s, c => by
    rw [turnBranch]
    split
    · have hb := Minds.turn h.1 .background s c
      split
      · exact ⟨h.2, fun _ => .inr rfl⟩
      · next heq =>
        rw [heq] at hb
        exact ⟨⟨hb, h.2⟩, fun hnil => by simp at hnil⟩
    · exact ⟨⟨h.1, (turnBranch_minds bs h.2 s c).1⟩, fun hnil => by simp at hnil⟩

end

end Strand

end DurableWorkflow
