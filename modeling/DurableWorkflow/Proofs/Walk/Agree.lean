import DurableWorkflow.Proofs.Walk.Schedule
import Mathlib.Data.Sum.Basic

/-!
# Walks that agree

Two walks agree if from states that are alike they do alike, whatever follows; then by one schedule
they come to reports that are alike (`Agree.goes`). A walk may also be doomed: whatever follows, it
does not come to a report that is `ok`; then it agrees with any other.

While two forks run, their branches are compared turn by turn, each in the middle of what it does.
What a schedule says when a call or a fork begins has to be the same for both only where nothing of
it has been done yet: `Agree L (some S)` says so, `Agree L none` does not.
-/

namespace DurableWorkflow

variable {σ ρ α β γ : Type}

/-- Which states and which reports are alike, and which reports count. -/
structure Likeness (σ ρ : Type) where
  state : σ → σ → Prop
  report : ρ → ρ → Prop
  ok : ρ → Prop

/-- On states that are alike both works do the same. -/
inductive Work.Agree (R : σ → σ → Prop) : Work σ α → Work σ α → Prop
  | done (a : α) : Agree R (.done a) (.done a)
  | crash (m : String) : Agree R (.crash m) (.crash m)
  | act {f g : σ → σ} {rest rest' : σ → Work σ α} (hact : ∀ s t, R s t → R (f s) (g t))
      (hrest : ∀ s t, R s t → Agree R (rest s) (rest' t)) : Agree R (.act f rest) (.act g rest')
  | sleep (d : Nanos) {rest rest' : Work σ α} (hrest : Agree R rest rest') :
    Agree R (.sleep d rest) (.sleep d rest')
  | awaitCancel {rest rest' : Work σ α} (hrest : Agree R rest rest') :
    Agree R (.awaitCancel rest) (.awaitCancel rest')

/-- The walk comes to no report that is `ok`. -/
inductive Walk.Doomed (ok : ρ → Prop) : Walk σ ρ → Prop
  | done {r : ρ} (h : ¬ok r) : Doomed ok (.done r)
  | act {f : σ → σ} {rest : σ → Walk σ ρ} (h : ∀ s, Doomed ok (rest s)) : Doomed ok (.act f rest)
  | branch {branches : List (Walk σ ρ)} {rest : List ρ → Walk σ ρ} {i : Nat} {w : Walk σ ρ}
      (hw : branches[i]? = some w) (h : Doomed ok w) : Doomed ok (.fork branches rest)

/-- On states that are alike both walks do alike, unless one is doomed. -/
inductive Walk.Agree (L : Likeness σ ρ) (S : Option (Schedule σ ρ)) : Walk σ ρ → Walk σ ρ → Prop
  | left {w v : Walk σ ρ} (h : w.Doomed L.ok) : Agree L S w v
  | right {w v : Walk σ ρ} (h : v.Doomed L.ok) : Agree L S w v
  | done {r r' : ρ} (h : L.report r r') : Agree L S (.done r) (.done r')
  | act {f g : σ → σ} {rest rest' : σ → Walk σ ρ} (hact : ∀ s t, L.state s t → L.state (f s) (g t))
      (hrest : ∀ s t, L.state s t → Agree L S (rest s) (rest' t)) :
    Agree L S (.act f rest) (.act g rest')
  | pause (d : Nanos) {rest rest' : Bool → Walk σ ρ} (hrest : Agree L S (rest false) (rest' false)) :
    Agree L S (.pause d rest) (.pause d rest')
  | call (limit : Option Nanos) {work work' : Work σ StepResult} {rest rest' : CallEnd → Walk σ ρ}
      (hwork : work.Agree L.state work')
      (hlate : ∀ T ∈ S, ∀ s t, L.state s t → limit.isSome →
        T.late limit work s = T.late limit work' t)
      (hrest : ∀ e, Agree L S (rest e) (rest' e)) :
    Agree L S (.call limit work rest) (.call limit work' rest')
  | fork {branches branches' : List (Walk σ ρ)} {rest rest' : List ρ → Walk σ ρ}
      (hlength : branches.length = branches'.length)
      (hbranches : ∀ (i : Nat) w v, branches[i]? = some w → branches'[i]? = some v → Agree L S w v)
      (hcues : ∀ T ∈ S, ∀ s t, L.state s t → T.cues branches s = T.cues branches' t)
      (hrest : ∀ rs rs', List.Forall₂ L.report rs rs' → Agree L S (rest rs) (rest' rs')) :
    Agree L S (.fork branches rest) (.fork branches' rest')

/-! ### Work -/

namespace Work.Agree

variable {R : σ → σ → Prop} {drift : σ → σ → Prop}

theorem turn {w v : Work σ StepResult} (h : Agree R w v) (late : Bool) {s t : σ} (hst : R s t) :
    Sum.LiftRel Eq (Agree R) (w.turn late s).1 (v.turn late t).1 ∧
      R (w.turn late s).2 (v.turn late t).2 := by
  unfold Work.turn
  cases late with
  | true => exact ⟨.inl rfl, hst⟩
  | false =>
    cases h with
    | done | crash => exact ⟨.inl rfl, hst⟩
    | act hact hrest => exact ⟨.inr (hrest s t hst), hact s t hst⟩
    | sleep d hrest => exact ⟨.inr hrest, hst⟩
    | awaitCancel hrest => exact ⟨.inr hrest, hst⟩

/-- Calls of works that agree end in the same way. -/
theorem ends (hdrift : ∀ ⦃s t s' t'⦄, R s t → drift s s' → drift t t' → R s' t')
    {late : Nat → Bool} {n : Nat} {x : Work σ StepResult × σ} {y y' : CallEnd × σ}
    (hx : Ends drift late n x y) {v : Work σ StepResult} {t : σ} (h : Agree R x.1 v)
    (hst : R x.2 t) (hv : Ends drift late n (v, t) y') : y.1 = y'.1 ∧ R y.2 y'.2 := by
  induction hx generalizing v t with
  | @ended n work s s' u e hs hturn =>
    cases hv with
    | ended ht hturn' =>
      have hboth := h.turn (late n) (hdrift hst hs ht)
      rw [hturn, hturn', Sum.liftRel_inl_inl] at hboth
      exact hboth
    | next ht hturn' =>
      have hboth := h.turn (late n) (hdrift hst hs ht)
      rw [hturn, hturn'] at hboth
      exact absurd hboth.1 Sum.not_liftRel_inl_inr
  | @next n work work' s s' u y hs hturn _ ih =>
    cases hv with
    | ended ht hturn' =>
      have hboth := h.turn (late n) (hdrift hst hs ht)
      rw [hturn, hturn'] at hboth
      exact absurd hboth.1 Sum.not_liftRel_inr_inl
    | next ht hturn' hrest =>
      have hboth := h.turn (late n) (hdrift hst hs ht)
      rw [hturn, hturn', Sum.liftRel_inr_inr] at hboth
      exact ih hboth.1 hboth.2 hrest

end Work.Agree

/-! ### Places in a fork -/

theorem getElem?_of_set {l : List α} {i j : Nat} {a b : α} (h : (l.set i a)[j]? = some b) :
    i = j ∧ b = a ∨ i ≠ j ∧ l[j]? = some b := by
  by_cases hij : i = j
  · subst hij
    rw [List.getElem?_set] at h
    simp only [if_true] at h
    split at h
    · cases h
      exact .inl ⟨rfl, rfl⟩
    · simp at h
  · rw [List.getElem?_set_ne hij] at h
    exact .inr ⟨hij, h⟩

/-- What stood elsewhere still stands somewhere. -/
theorem getElem?_eraseIdx_of_ne {l : List α} {i j : Nat} {a : α} (h : l[j]? = some a)
    (hne : i ≠ j) : ∃ k : Nat, (l.eraseIdx i)[k]? = some a := by
  by_cases hlt : j < i
  · exact ⟨j, by rw [List.getElem?_eraseIdx_of_lt hlt, h]⟩
  · refine ⟨j - 1, ?_⟩
    rw [List.getElem?_eraseIdx_of_ge (by omega), show j - 1 + 1 = j by omega, h]

/-! ### Doomed walks -/

namespace Walk

variable {ok : ρ → Prop} {drift : σ → σ → Prop} {S : Schedule σ ρ}

theorem Doomed.set {branches : List (Walk σ ρ)} {i j : Nat} {w w' v : Walk σ ρ}
    (hw : branches[i]? = some w) (hw' : w.Doomed ok → w'.Doomed ok) (hv : branches[j]? = some v)
    (h : v.Doomed ok) : ∃ u, (branches.set i w')[j]? = some u ∧ u.Doomed ok := by
  by_cases hij : i = j
  · subst hij
    rw [hw] at hv
    cases hv
    exact ⟨w', List.getElem?_set_self (List.getElem?_eq_some_iff.1 hw).1, hw' h⟩
  · exact ⟨v, by rw [List.getElem?_set_ne hij, hv], h⟩

theorem Doomed.erase {branches : List (Walk σ ρ)} {i j : Nat} {r : ρ} {v : Walk σ ρ}
    (hr : branches[i]? = some (.done r)) (hok : ok r) (hv : branches[j]? = some v)
    (h : v.Doomed ok) : ∃ k : Nat, (branches.eraseIdx i)[k]? = some v := by
  refine getElem?_eraseIdx_of_ne hv fun hij => ?_
  subst hij
  rw [hr] at hv
  cases hv
  cases h with
  | done hnot => exact hnot hok

theorem Doomed.cued {c : Cue} {x y : Walk σ ρ × σ} (h : Cued ok c x y) (hx : x.1.Doomed ok) :
    y.1.Doomed ok := by
  induction h with
  | act c f rest s =>
    cases hx with
    | act h => exact h s
  | pause | ended | work => cases hx
  | branch rest hw _ ih =>
    cases hx with
    | branch hv hdoomed =>
      obtain ⟨u, hu, hdoomed⟩ := Doomed.set hw ih hv hdoomed
      exact .branch hu hdoomed
  | report rest s hr hok =>
    cases hx with
    | branch hv hdoomed =>
      obtain ⟨k, hk⟩ := Doomed.erase hr hok hv hdoomed
      exact .branch hk hdoomed
  | join =>
    cases hx with
    | branch hv => simp at hv

/-- A fork with a doomed branch does not come to its reports. -/
theorem Doomed.not_reports {cues : Nat → Cue} {n : Nat} {x : List (Walk σ ρ) × σ} {y : List ρ × σ}
    (hx : Reports drift ok cues n x y) {j : Nat} {v : Walk σ ρ} (hv : x.1[j]? = some v)
    (h : v.Doomed ok) : False := by
  induction hx generalizing j v with
  | all => simp at hv
  | branch _ hw hcued _ ih =>
    obtain ⟨u, hu, hdoomed⟩ := Doomed.set hw (Doomed.cued hcued) hv h
    exact ih hu hdoomed
  | report hr hok _ ih =>
    obtain ⟨k, hk⟩ := Doomed.erase hr hok hv h
    exact ih hk h

theorem Doomed.not_goes {x : Walk σ ρ × σ} {y : Option ρ × σ} (hx : Goes drift S ok x y)
    (h : x.1.Doomed ok) : y.1 = none := by
  induction hx with
  | drop | inCall | inFork => rfl
  | done _ hok =>
    cases h with
    | done hnot => exact absurd hok hnot
  | act _ _ ih =>
    cases h with
    | act h => exact ih (h _)
  | pause | call => cases h
  | fork hreports _ ih =>
    cases h with
    | branch hv h => exact (Doomed.not_reports hreports hv h).elim

end Walk

/-! ### Forks that agree -/

namespace Walk.Agree

variable {L : Likeness σ ρ} {S : Option (Schedule σ ρ)} {w v w' v' : Walk σ ρ}
  {branches branches' : List (Walk σ ρ)} {i : Nat} {drift : σ → σ → Prop}

/-- In the middle of what they do. -/
theorem begun (h : Agree L S w v) : Agree L none w v := by
  induction h with
  | left h => exact .left h
  | right h => exact .right h
  | done h => exact .done h
  | act hact _ ih => exact .act hact ih
  | pause d _ ih => exact .pause d ih
  | call limit hwork _ _ ih => exact .call limit hwork (by simp) ih
  | fork hlength _ _ _ ihb ih => exact .fork hlength ihb (by simp) ih

/-- Branches that agree, each with the one at its place. -/
def All (L : Likeness σ ρ) (branches branches' : List (Walk σ ρ)) : Prop :=
  branches.length = branches'.length ∧
    ∀ (i : Nat) w v, branches[i]? = some w → branches'[i]? = some v → Agree L none w v

theorem All.set (h : All L branches branches') (hw : Agree L none w' v') :
    All L (branches.set i w') (branches'.set i v') := by
  refine ⟨by rw [List.length_set, List.length_set, h.1], fun j w v hj hj' => ?_⟩
  obtain ⟨hij, rfl⟩ | ⟨hij, hj⟩ := getElem?_of_set hj
  · obtain ⟨-, rfl⟩ | ⟨hne, -⟩ := getElem?_of_set hj'
    · exact hw
    · exact absurd hij hne
  · obtain ⟨heq, -⟩ | ⟨-, hj'⟩ := getElem?_of_set hj'
    · exact absurd heq hij
    · exact h.2 j w v hj hj'

theorem All.erase (h : All L branches branches') :
    All L (branches.eraseIdx i) (branches'.eraseIdx i) := by
  refine ⟨by rw [List.length_eraseIdx, List.length_eraseIdx, h.1], fun j w v hj hj' => ?_⟩
  rw [List.getElem?_eraseIdx] at hj hj'
  split at hj
  · next hlt =>
    rw [if_pos hlt] at hj'
    exact h.2 j w v hj hj'
  · next hge =>
    rw [if_neg hge] at hj'
    exact h.2 (j + 1) w v hj hj'

theorem All.nil (h : All L [] branches) : branches = [] :=
  List.length_eq_zero_iff.1 h.1.symm

theorem All.nil' (h : All L branches []) : branches = [] :=
  List.length_eq_zero_iff.1 h.1

/-- Both ended, and with reports that count. -/
theorem reports_alike {r r' : ρ} (h : Agree L S (.done r) (.done r')) (hr : L.ok r)
    (hr' : L.ok r') : L.report r r' := by
  cases h with
  | left h =>
    cases h with
    | done hnot => exact absurd hr hnot
  | right h =>
    cases h with
    | done hnot => exact absurd hr' hnot
  | done h => exact h

/-- What agrees with a walk that has ended is doomed, or has ended. -/
theorem doomed_of_done {c : Cue} {r : ρ} {s t : σ} (h : Agree L S w (.done r)) (hr : L.ok r)
    (hw : Cued L.ok c (w, s) (w', t)) : w'.Doomed L.ok := by
  cases h with
  | left h => exact Doomed.cued hw h
  | right h =>
    cases h with
    | done hnot => exact absurd hr hnot
  | done => cases hw

theorem doomed_of_done' {c : Cue} {r : ρ} {s t : σ} (h : Agree L S (.done r) v) (hr : L.ok r)
    (hv : Cued L.ok c (v, s) (v', t)) : v'.Doomed L.ok := by
  cases h with
  | left h =>
    cases h with
    | done hnot => exact absurd hr hnot
  | right h => exact Doomed.cued hv h
  | done => cases hv

/-- On one cue both go on alike, unless one turns out to be doomed. -/
theorem cued {c : Cue} {s t s' t' : σ} (h : Agree L none w v) (hst : L.state s t)
    (hw : Cued L.ok c (w, s) (w', s')) (hv : Cued L.ok c (v, t) (v', t')) :
    Agree L none w' v' ∧ L.state s' t' ∨ w'.Doomed L.ok ∨ v'.Doomed L.ok := by
  induction h generalizing c s t w' v' s' t' with
  | left h => exact .inr (.inl (Doomed.cued hw h))
  | right h => exact .inr (.inr (Doomed.cued hv h))
  | done => cases hw
  | act hact hrest =>
    cases hw
    cases hv
    exact .inl ⟨hrest s t hst, hact s t hst⟩
  | pause d hrest =>
    cases hw
    cases hv
    exact .inl ⟨hrest, hst⟩
  | call limit hwork _ hrest =>
    have hboth := hwork.turn (c.late && limit.isSome) hst
    cases hw with
    | ended _ hturn =>
      cases hv with
      | ended _ hturn' =>
        rw [hturn, hturn', Sum.liftRel_inl_inl] at hboth
        obtain ⟨rfl, hst'⟩ := hboth
        exact .inl ⟨hrest _, hst'⟩
      | work _ hturn' =>
        rw [hturn, hturn'] at hboth
        exact absurd hboth.1 Sum.not_liftRel_inl_inr
    | work _ hturn =>
      cases hv with
      | ended _ hturn' =>
        rw [hturn, hturn'] at hboth
        exact absurd hboth.1 Sum.not_liftRel_inr_inl
      | work _ hturn' =>
        rw [hturn, hturn', Sum.liftRel_inr_inr] at hboth
        exact .inl ⟨.call limit hboth.1 (by simp) hrest, hboth.2⟩
  | @fork branches branches' rest rest' hlength hbranches _ hrest ih _ =>
    have hall : All L branches branches' := ⟨hlength, hbranches⟩
    have fork_agrees {bs bs'} {k k' : List ρ → Walk σ ρ} (hbs : All L bs bs')
        (hk : ∀ rs rs', List.Forall₂ L.report rs rs' → Agree L none (k rs) (k' rs')) :
        Agree L none (.fork bs k) (.fork bs' k') := .fork hbs.1 hbs.2 (by simp) hk
    cases hw with
    | @branch _ _ b b' _ _ _ hb hcued =>
      cases hv with
      | branch _ hb' hcued' =>
        obtain ⟨hagree, hst'⟩ | hdoomed | hdoomed := ih _ _ _ hb hb' hst hcued hcued'
        · exact .inl ⟨fork_agrees (hall.set hagree) hrest, hst'⟩
        · obtain ⟨hlt, -⟩ := List.getElem?_eq_some_iff.1 hb
          exact .inr (.inl (.branch (List.getElem?_set_self hlt) hdoomed))
        · obtain ⟨hlt, -⟩ := List.getElem?_eq_some_iff.1 hb'
          exact .inr (.inr (.branch (List.getElem?_set_self hlt) hdoomed))
      | report _ _ hr' hok' =>
        have hdoomed := (hbranches _ _ _ hb hr').doomed_of_done hok' hcued
        obtain ⟨hlt, -⟩ := List.getElem?_eq_some_iff.1 hb
        exact .inr (.inl (.branch (List.getElem?_set_self hlt) hdoomed))
      | join =>
        rw [hall.nil'] at hb
        simp at hb
    | report _ _ hr hok =>
      cases hv with
      | branch _ hb' hcued' =>
        have hdoomed := (hbranches _ _ _ hr hb').doomed_of_done' hok hcued'
        obtain ⟨hlt, -⟩ := List.getElem?_eq_some_iff.1 hb'
        exact .inr (.inr (.branch (List.getElem?_set_self hlt) hdoomed))
      | report _ _ hr' hok' =>
        have hreport := (hbranches _ _ _ hr hr').reports_alike hok hok'
        exact .inl ⟨fork_agrees hall.erase fun rs rs' hrs => hrest _ _ (.cons hreport hrs), hst⟩
      | join =>
        rw [hall.nil'] at hr
        simp at hr
    | join =>
      obtain rfl := hall.nil
      cases hv with
      | branch _ hb' => simp at hb'
      | report _ _ hr' => simp at hr'
      | join => exact .inl ⟨hrest [] [] .nil, hst⟩

/-- On the same cues forks come to reports that are alike. -/
theorem reports (hdrift : ∀ ⦃s t s' t'⦄, L.state s t → drift s s' → drift t t' → L.state s' t')
    {cues : Nat → Cue} {n : Nat} {x : List (Walk σ ρ) × σ} {y y' : List ρ × σ}
    (hx : Reports drift L.ok cues n x y) {t : σ} (h : All L x.1 branches) (hst : L.state x.2 t)
    (hy : Reports drift L.ok cues n (branches, t) y') :
    List.Forall₂ L.report y.1 y'.1 ∧ L.state y.2 y'.2 := by
  induction hx generalizing branches t y' with
  | all =>
    obtain rfl := h.nil
    cases hy with
    | all => exact ⟨.nil, hst⟩
    | branch _ hb' => simp at hb'
    | report hr' => simp at hr'
  | @branch n bs b b' s s' u y hs hb hcued hrest ih =>
    cases hy with
    | all =>
      rw [show bs = [] from h.nil'] at hb
      simp at hb
    | branch ht hb' hcued' hrest' =>
      obtain ⟨hagree, hst'⟩ | hdoomed | hdoomed :=
        (h.2 _ _ _ hb hb').cued (hdrift hst hs ht) hcued hcued'
      · exact ih (h.set hagree) hst' hrest'
      · obtain ⟨hlt, -⟩ := List.getElem?_eq_some_iff.1 hb
        exact (Doomed.not_reports hrest (List.getElem?_set_self hlt) hdoomed).elim
      · obtain ⟨hlt, -⟩ := List.getElem?_eq_some_iff.1 hb'
        exact (Doomed.not_reports hrest' (List.getElem?_set_self hlt) hdoomed).elim
    | report hr' hok' _ =>
      have hdoomed := (h.2 _ _ _ hb hr').doomed_of_done hok' hcued
      obtain ⟨hlt, -⟩ := List.getElem?_eq_some_iff.1 hb
      exact (Doomed.not_reports hrest (List.getElem?_set_self hlt) hdoomed).elim
  | @report n bs r rs s u hr hok _ ih =>
    cases hy with
    | all =>
      rw [show bs = [] from h.nil'] at hr
      simp at hr
    | branch _ hb' hcued' hrest' =>
      have hdoomed := (h.2 _ _ _ hr hb').doomed_of_done' hok hcued'
      obtain ⟨hlt, -⟩ := List.getElem?_eq_some_iff.1 hb'
      exact (Doomed.not_reports hrest' (List.getElem?_set_self hlt) hdoomed).elim
    | report hr' hok' hrest' =>
      have hreport := (h.2 _ _ _ hr hr').reports_alike hok hok'
      obtain ⟨hrs, hst'⟩ := ih h.erase hst hrest'
      exact ⟨.cons hreport hrs, hst'⟩

/-- By one schedule walks that agree come to reports that are alike. -/
theorem goes {T : Schedule σ ρ}
    (hdrift : ∀ ⦃s t s' t'⦄, L.state s t → drift s s' → drift t t' → L.state s' t')
    (h : Agree L (some T) w v) {s t s' t' : σ} {r r' : ρ} (hst : L.state s t)
    (hw : Walk.Goes drift T L.ok (w, s) (some r, s'))
    (hv : Walk.Goes drift T L.ok (v, t) (some r', t')) : L.report r r' ∧ L.state s' t' := by
  induction h generalizing s t with
  | left h => exact absurd (Doomed.not_goes hw h) (by simp)
  | right h => exact absurd (Doomed.not_goes hv h) (by simp)
  | done h =>
    cases hw with
    | done hs =>
      cases hv with
      | done ht => exact ⟨h, hdrift hst hs ht⟩
  | act hact _ ih =>
    cases hw with
    | act hs hw =>
      cases hv with
      | act ht hv =>
        have hst' := hdrift hst hs ht
        exact ih _ _ hst' (hact _ _ hst') hw hv
  | pause d _ ih =>
    cases hw with
    | pause hw =>
      cases hv with
      | pause hv => exact ih hst hw hv
  | call limit hwork hlate _ ih =>
    cases hw with
    | call hends hw =>
      cases hv with
      | call hends' hv =>
        have hsame : (fun n => T.late limit _ s n && limit.isSome) =
            fun n => T.late limit _ t n && limit.isSome := funext fun n => by
          cases limit with
          | none => simp
          | some d => rw [hlate T rfl s t hst rfl]
        rw [hsame] at hends
        obtain ⟨heq, hst'⟩ := hwork.ends hdrift hends hst hends'
        cases heq
        exact ih _ hst' hw hv
  | fork hlength hbranches hcues _ _ ih =>
    cases hw with
    | fork hreports hw =>
      cases hv with
      | fork hreports' hv =>
        rw [hcues T rfl s t hst] at hreports
        obtain ⟨hrs, hst'⟩ := Agree.reports hdrift hreports
          ⟨hlength, fun i w v hw hv => (hbranches i w v hw hv).begun⟩ hst hreports'
        exact ih _ _ hrs hst' hw hv

end Walk.Agree

/-! ### Pieces -/

/-- Followed by walks that agree on values of which `V` holds, the pieces agree. -/
def Piece.Alike (L : Likeness σ ρ) (T : Schedule σ ρ) (V : α → α → Prop) (p q : Piece σ ρ α) :
    Prop :=
  ∀ k l : α → Walk σ ρ, (∀ a b, V a b → (k a).Agree L (some T) (l b)) →
    (p k).Agree L (some T) (q l)

namespace Piece.Alike

variable {L : Likeness σ ρ} {T : Schedule σ ρ} {V : α → α → Prop} {W : β → β → Prop}
  {p q : Piece σ ρ α} {f g : α → Piece σ ρ β}

theorem pure {a b : α} (h : V a b) :
    Alike L T V (Pure.pure a : Piece σ ρ α) (Pure.pure b) := fun _ _ hkl => hkl a b h

theorem bind (h : p.Alike L T V q) (hfg : ∀ a b, V a b → (f a).Alike L T W (g b)) :
    (p >>= f).Alike L T W (q >>= g) := fun k l hkl =>
  h _ _ fun a b hab => hfg a b hab k l hkl

theorem haltLeft {r : ρ} (h : ¬L.ok r) : (Piece.halt r : Piece σ ρ α).Alike L T V q :=
  fun _ _ _ => .left (.done h)

theorem haltRight {r : ρ} (h : ¬L.ok r) : p.Alike L T V (Piece.halt r : Piece σ ρ α) :=
  fun _ _ _ => .right (.done h)

theorem modify {f g : σ → σ} (h : ∀ s t, L.state s t → L.state (f s) (g t)) :
    (Piece.modify f : Piece σ ρ Unit).Alike L T (fun _ _ => True) (Piece.modify g) :=
  fun _ _ hkl => .act h fun _ _ _ => hkl _ _ trivial

theorem read {f g : σ → α} (h : ∀ s t, L.state s t → V (f s) (g t)) :
    (Piece.read f : Piece σ ρ α).Alike L T V (Piece.read g) := fun _ _ hkl =>
  .act (fun _ _ hst => hst) fun s t hst => hkl _ _ (h s t hst)

theorem pause (d : Nanos) :
    (Piece.pause d : Piece σ ρ Bool).Alike L T (fun b b' => b = false ∧ b' = false)
      (Piece.pause d) := fun _ _ hkl => .pause d (hkl _ _ ⟨rfl, rfl⟩)

theorem call (limit : Option Nanos) {work work' : Work σ StepResult}
    (h : work.Agree L.state work')
    (hlate : ∀ s t, L.state s t → limit.isSome → T.late limit work s = T.late limit work' t) :
    (Piece.call limit work : Piece σ ρ CallEnd).Alike L T Eq (Piece.call limit work') :=
  fun _ _ hkl => .call limit h (fun _ hT => Option.some.inj hT ▸ hlate) fun e => hkl e e rfl

theorem fork {branches branches' : List (Walk σ ρ)} (hlength : branches.length = branches'.length)
    (hbranches : ∀ (i : Nat) w v, branches[i]? = some w → branches'[i]? = some v →
      w.Agree L (some T) v)
    (hcues : ∀ s t, L.state s t → T.cues branches s = T.cues branches' t) :
    (Piece.fork branches : Piece σ ρ (List ρ)).Alike L T (List.Forall₂ L.report)
      (Piece.fork branches') := fun _ _ hkl =>
  .fork hlength hbranches (fun _ hT => Option.some.inj hT ▸ hcues) hkl

end Piece.Alike

end DurableWorkflow
