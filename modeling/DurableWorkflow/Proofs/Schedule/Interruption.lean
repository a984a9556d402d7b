import DurableWorkflow.Proofs.Schedule.Stopping

/-!
# Tasks that are told to stop

A course minds if each of its walks does, and if it ends at once when a walk has quit
(`Course.Minds`). A task that is on such a walk when it is told to stop does nothing any more: it
ends after finitely many turns, and leaves the world as it is (`Task.Stops`), unless the limit of
the walk is over before.
-/

namespace DurableWorkflow

variable {ω τ β α : Type} {m : Manner (τ × ω)} {P : β → Prop} {A : τ → α → Prop}

/-- All walks mind, and when one has quit the course ends with an `A`. -/
def Course.Minds (m : Manner (τ × ω)) (P : β → Prop) (A : τ → α → Prop) : Course ω τ β α → Prop
  | .done _ | .crash _ => True
  | .act _ rest => ∀ w, (rest w).Minds m P A
  | .wait _ rest => rest.Minds m P A
  | .walk cancelled _ _ path rest => m.stop = (fun s => cancelled s.2) ∧ path.Minds m P ∧
      ∀ own, (∀ r, P r → ∃ a, rest own (some r) = .done a ∧ A own a) ∧ ∀ r, (rest own r).Minds m P A
  | .perform _ _ _ rest => ∀ own e, (rest own e).Minds m P A

namespace Task

def Minds (m : Manner (τ × ω)) (P : β → Prop) (A : τ → α → Prop) : Task ω τ β α → Prop
  | .ready _ course | .waiting _ course => course.Minds m P A
  | .walking cancelled _ _ strand rest => m.stop = (fun s => cancelled s.2) ∧ strand.Minds m P ∧
      ∀ own, (∀ r, P r → ∃ a, rest own (some r) = .done a ∧ A own a) ∧ ∀ r, (rest own r).Minds m P A
  | .performing _ _ _ _ rest => ∀ own e, (rest own e).Minds m P A
  | .ended _ | .crashed _ => True

theorem Minds.of_proceed {course : Course ω τ β α} (h : course.Minds m P A) (rank : Nat) (w : ω)
    (c : Clock) : (course.proceed rank w c).1.Minds m P A := by
  induction course generalizing w c with
  | done | crash => trivial
  | act f rest ih => exact ih w (h w) (f w) c
  | wait d rest ih =>
    rw [Course.proceed]
    split
    · exact ih h w c
    · exact h
  | walk cancelled limit own path rest ih =>
    obtain ⟨hstop, hpath, hrest⟩ := h
    have hstrand := hpath.proceed rank (own, w) c
    rw [hstop] at hstrand
    rw [Course.proceed]
    split
    · exact ih _ _ ((hrest _).2 _) _ _
    · next heq =>
      rw [heq] at hstrand
      simp only
      split
      · exact ih _ _ ((hrest _).2 _) _ _
      · exact ⟨hstop, hstrand, hrest⟩
  | perform cancelled own work rest ih =>
    rw [Course.proceed]
    split
    · exact ih _ _ (h _ _) _ _
    · exact h

theorem Minds.turn {t : Task ω τ β α} (h : t.Minds m P A) (stopped : Option Moment)
    (moment : Moment) (ranks : Ranks) (w : ω) (c : Clock) :
    (t.turn stopped moment ranks w c).1.Minds m P A := by
  cases t with
  | ready _ course => exact .of_proceed h ranks.own w c
  | waiting _ course => exact .of_proceed h ranks.own w c
  | walking cancelled deadline own strand rest =>
    obtain ⟨hstop, hstrand, hrest⟩ := h
    have hpoll := hstrand.poll ranks.own (own, w) c
    have hturn := hstrand.turn stopped moment ranks (own, w) c
    rw [hstop] at hpoll hturn
    rw [Task.turn]
    split
    · exact .of_proceed ((hrest _).2 _) ranks.own _ _
    · next heq =>
      split
      · exact .of_proceed ((hrest _).2 _) ranks.own _ _
      · refine ⟨hstop, ?_, hrest⟩
        split at heq
        · rw [heq] at hpoll
          exact hpoll
        · rw [heq] at hturn
          exact hturn
  | performing cancelled due own work rest =>
    rw [Task.turn]
    split
    · exact .of_proceed (h _ _) ranks.own _ _
    · exact h
  | ended | crashed => trivial

/-- What a course can be in progress as, whatever the world and the clock are at its turns. -/
inductive Of (course : Course ω τ β α) : Task ω τ β α → Prop
  | ready (due : Moment) : Of course (.ready due course)
  | proceed (rank : Nat) (w : ω) (c : Clock) : Of course (course.proceed rank w c).1
  | turn {t : Task ω τ β α} (h : Of course t) (stopped : Option Moment) (moment : Moment)
      (ranks : Ranks) (w : ω) (c : Clock) : Of course (t.turn stopped moment ranks w c).1

theorem Of.minds {course : Course ω τ β α} {t : Task ω τ β α} (h : Of course t)
    (hcourse : course.Minds m P A) : t.Minds m P A := by
  induction h with
  | ready => exact hcourse
  | proceed rank w c => exact .of_proceed hcourse rank w c
  | turn _ stopped moment ranks w c ih => exact ih.turn stopped moment ranks w c

/-- Is the limit of the walk over that the task is on? -/
def isLate (c : Clock) : Task ω τ β α → Bool
  | .walking _ deadline _ _ _ => deadline.any c.reached
  | _ => false

/-- Told to stop, the task is due until it ends with an `A`, leaves the world as it is at every
turn, and has only so many turns left, unless the limit of its walk is over before. -/
inductive Stops (cancelled : ω → Bool) (A : α → Prop) : Task ω τ β α → Prop
  | ended {a : α} (h : A a) : Stops cancelled A (.ended a)
  | turn {t : Task ω τ β α} (hdue : ∀ moment ranks, (t.due? (some moment) ranks).isSome)
      (hsame : ∀ stopped moment ranks w (c : Clock), cancelled w = true → c.reached moment = true →
        t.isLate c = false → (t.turn stopped moment ranks w c).2.1 = w)
      (hnext : ∀ stopped moment ranks w (c : Clock), cancelled w = true → c.reached moment = true →
        t.isLate c = false → t.due? stopped ranks = some moment →
        Stops cancelled A (t.turn stopped moment ranks w c).1) : Stops cancelled A t

section

variable {cancelled : ω → Bool} {deadline : Option Moment} {own : τ} {strand : Strand (τ × ω) β}
  {rest : τ → Option β → Course ω τ β α}

/-- One turn of a task on a walk that has been told to stop. -/
theorem Minds.winds {t : Task ω τ β α} (ht : t = .walking cancelled deadline own strand rest)
    (h : t.Minds m P A) {w : ω} (hw : cancelled w = true) (stopped : Option Moment)
    {moment : Moment} (ranks : Ranks) {c : Clock} (hreached : c.reached moment = true)
    (hlate : t.isLate c = false) :
    (∃ a c', A own a ∧ t.turn stopped moment ranks w c = (.ended a, w, c')) ∨
    ∃ strand' c', (strand.due? stopped ranks = some moment → strand'.size < strand.size) ∧
      t.turn stopped moment ranks w c = (.walking cancelled deadline own strand' rest, w, c') := by
  subst ht
  obtain ⟨hstop, hstrand, hrest⟩ := h
  have hs : m.stop (own, w) = true := by rw [hstop]; exact hw
  have hturn := hstrand.winds stopped moment hs ranks c
  rw [hstop] at hturn
  have hdeadline : (deadline == some moment) = false := by
    rw [beq_eq_false_iff_ne]
    rintro rfl
    simp [isLate, hreached] at hlate
  rw [Task.turn]
  simp only [hdeadline, Bool.false_or]
  generalize strand.turn (fun s : τ × ω => cancelled s.2) stopped moment ranks (own, w) c = p at hturn
  cases hturn with
  | @ended r c' hr hc =>
    left
    obtain ⟨a, heq, ha⟩ := (hrest own).1 _ hr
    refine ⟨a, c', ha, ?_⟩
    simp only [Bool.false_eq_true, if_false, heq, Course.proceed]
  | @waiting strand' c' hsize hdue hc =>
    right
    refine ⟨strand', c', hdue, ?_⟩
    have hlate' : deadline.any c'.reached = false := by
      cases deadline with
      | none => rfl
      | some d => simpa [isLate, Clock.reached, hc] using hlate
    simp only [Bool.false_eq_true, if_false, hlate', Bool.and_false]

theorem Minds.stops (h : (Task.walking cancelled deadline own strand rest).Minds m P A) :
    (Task.walking cancelled deadline own strand rest).Stops cancelled (A own) := by
  -- each turn at which the task is due makes the strand smaller
  generalize hn : strand.size = n
  induction n using Nat.strongRecOn generalizing strand with
  | ind n ih =>
    subst hn
    refine .turn (fun moment ranks => ?_) (fun stopped moment ranks w c hw hreached hlate => ?_)
      fun stopped moment ranks w c hw hreached hlate hdue => ?_
    · exact Moment.earliest_isSome (.inr (h.2.1.due_isSome moment ranks))
    · rcases h.winds rfl hw stopped ranks hreached hlate with ⟨a, c', -, heq⟩ | ⟨strand', c', -, heq⟩ <;>
        rw [heq]
    · have hmine : strand.due? stopped ranks = some moment := by
        rcases Moment.earliest_eq hdue with hdeadline | hmine
        · simp [isLate, hdeadline, hreached] at hlate
        · exact hmine
      have hnext := h.turn stopped moment ranks w c
      rcases h.winds rfl hw stopped ranks hreached hlate with
        ⟨a, c', ha, heq⟩ | ⟨strand', c', hless, heq⟩
      · rw [heq]
        exact .ended ha
      · rw [heq] at hnext ⊢
        exact ih _ (hless hmine) hnext rfl

end

end Task

end DurableWorkflow
