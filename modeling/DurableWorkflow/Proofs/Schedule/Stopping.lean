import DurableWorkflow.Proofs.Schedule.Manner
import DurableWorkflow.Schedule.Task

/-!
# Turns of a strand that has been told to stop

A strand that minds does nothing any more once it has been told to stop: a turn ends it, or only
takes note that a branch has ended (`Strand.Winds`). It is due until it ends, and every turn at
which it is due makes it smaller.
-/

namespace DurableWorkflow

variable {σ ρ : Type}

theorem Moment.earliest_eq {a b : Option Moment} {m : Moment} (h : earliest a b = some m) :
    a = some m ∨ b = some m := by
  cases a with
  | none => exact .inr h
  | some a =>
    cases b with
    | none => exact .inl h
    | some b =>
      rw [earliest] at h
      split at h
      · exact .inr h
      · exact .inl h

theorem Moment.earliest_isSome {a b : Option Moment} (h : a.isSome ∨ b.isSome) :
    (earliest a b).isSome := by
  cases a with
  | none => simpa [earliest] using h
  | some a =>
    cases b with
    | none => rfl
    | some b =>
      rw [earliest]
      split <;> rfl

namespace Strand

mutual

/-- A bound on the turns that are left once the strand has been told to stop. A branch counts twice,
for its end and for the news of it. -/
def size : Strand σ ρ → Nat
  | .joining branches _ told _ => 2 * sizes branches + told.isSome.toNat + 1
  | _ => 1

def sizes : List (Strand σ ρ) → Nat
  | [] => 0
  | b :: bs => b.size + sizes bs

end

theorem size_pos (b : Strand σ ρ) : 0 < b.size := by
  cases b <;> simp [size]

theorem tell_millis (rank : Nat) (report : Option ρ) (told : Option Moment) (c : Clock) :
    (tell rank report told c).2.millis = c.millis := by
  cases report <;> cases told <;> rfl

theorem tell_le (rank : Nat) (report : Option ρ) (told : Option Moment) (c : Clock) :
    (tell rank report told c).1.isSome.toNat ≤ told.isSome.toNat + report.isSome.toNat := by
  cases report <;> cases told <;> simp [tell]

variable {m : Manner σ} {P : ρ → Prop} {s : σ}

/-- What a turn can come to that leaves the state as it is. -/
inductive Winds (P : ρ → Prop) (s : σ) (c : Clock) (due : Prop) (b : Strand σ ρ) :
    Progress σ ρ × σ × Clock → Prop
  | ended {r : ρ} {c' : Clock} (h : P r) (hc : c'.millis = c.millis) :
    Winds P s c due b (.ended r, s, c')
  | waiting {b' : Strand σ ρ} {c' : Clock} (hsize : b'.size ≤ b.size)
      (hdue : due → b'.size < b.size) (hc : c'.millis = c.millis) :
    Winds P s c due b (.waiting b', s, c')

theorem Winds.of_quits {w : Walk σ ρ} (h : w.Quits m.stop P) (hs : m.stop s = true) (rank : Nat)
    (due : Prop) (b : Strand σ ρ) (c : Clock) : Winds P s c due b (w.proceed m.stop rank s c) := by
  obtain ⟨r, hr, heq⟩ := h.proceed hs rank c
  rw [heq]
  exact .ended hr rfl

/-- A strand that is polled quits, unless it waits for branches. Then it has been told something and
forgets it. -/
theorem Minds.poll_winds {b : Strand σ ρ} (h : b.Minds m P) (hs : m.stop s = true) (rank : Nat)
    (due : Prop) (c : Clock) (htold : ∀ bs reports told rest, b = .joining bs reports told rest →
      told.isSome) : Winds P s c due b (b.poll m.stop rank s c) := by
  cases b with
  | ready _ w => exact .of_quits h.1 hs rank due _ c
  | pausing d rest =>
    rw [Strand.poll, if_pos hs]
    exact .of_quits h.1 hs rank due _ c
  | calling deadline d work rest =>
    rw [Strand.poll, if_pos hs]
    exact .of_quits ((h.2.2 _).1 m.looks_cancelled) hs rank due _ c
  | joining bs reports told rest =>
    cases bs with
    | nil => exact .of_quits (h.2.2 reports).1 hs rank due _ c
    | cons b bs =>
      have hsome := htold _ _ _ _ rfl
      refine .waiting ?_ (fun _ => ?_) rfl <;> simp [size, hsome]

variable (stopped : Option Moment) (moment : Moment)

mutual

theorem Minds.winds : ∀ {b : Strand σ ρ} {P : ρ → Prop}, b.Minds m P → m.stop s = true →
    ∀ (ranks : Ranks) (c : Clock), Winds P s c (b.due? stopped ranks = some moment) b
      (b.turn m.stop stopped moment ranks s c)
  | .ready _ _, _, h, hs, ranks, c => h.poll_winds hs ranks.own _ c fun _ _ _ _ heq => by cases heq
  | .pausing _ _, _, h, hs, ranks, c =>
    h.poll_winds hs ranks.own _ c fun _ _ _ _ heq => by cases heq
  | .calling _ _ _ _, _, h, hs, ranks, c =>
    h.poll_winds hs ranks.own _ c fun _ _ _ _ heq => by cases heq
  | .joining branches reports told rest, _, h, hs, ranks, c => by
    rw [Strand.turn]
    split
    · next hmoment =>
      refine h.poll_winds hs ranks.own _ c fun _ _ _ _ heq => ?_
      cases heq
      simp [eq_of_beq hmoment]
    · next hmoment =>
      obtain ⟨bs, report, c', heq, hc, hsizes, hdue⟩ := turnBranch_winds branches h.1 hs c
      rw [heq]
      have htold := tell_le ranks.told report told c'
      change Winds _ s c _ _ (.waiting (.joining bs (reports ++ report.toList)
        (tell ranks.told report told c').1 rest), s, (tell ranks.told report told c').2)
      have hreport : report.isSome.toNat ≤ 1 := Bool.toNat_le _
      refine .waiting ?_ (fun hmine => ?_) ((tell_millis ranks.told report told c').trans hc)
      · simp only [size]
        omega
      · have hbranches : branchesDue? stopped branches = some moment := by
          rcases Moment.earliest_eq hmine with hown | hbranches
          · simp [hown] at hmoment
          · exact hbranches
        have hless := hdue hbranches
        simp only [size]
        omega

theorem turnBranch_winds : ∀ (bs : List (Strand σ ρ)), AllMind m bs → m.stop s = true →
    ∀ (c : Clock), ∃ bs' report c', turnBranch m.stop stopped moment bs s c = (bs', report, s, c') ∧
      c'.millis = c.millis ∧ sizes bs' + report.isSome.toNat ≤ sizes bs ∧
      (branchesDue? stopped bs = some moment → sizes bs' < sizes bs)
  | [], _, _, c => ⟨[], none, c, rfl, rfl, Nat.le_refl _, fun h => by simp [branchesDue?] at h⟩
  | b :: bs, h, hs, c => by
    rw [turnBranch]
    split
    · next hdue =>
      have hturn := Minds.winds h.1 hs .background c
      generalize hp : b.turn m.stop stopped moment .background s c = p at hturn
      have hpos := b.size_pos
      cases hturn with
      | ended _ hc =>
        refine ⟨bs, some _, _, rfl, hc, ?_, fun _ => ?_⟩ <;> simp [sizes] <;> omega
      | waiting hsize hless hc =>
        have hsmaller := hless (eq_of_beq hdue)
        refine ⟨_ :: bs, none, _, rfl, hc, ?_, fun _ => ?_⟩ <;> simp [sizes] <;> omega
    · next hdue =>
      obtain ⟨bs', report, c', heq, hc, hsizes, hless⟩ := turnBranch_winds bs h.2 hs c
      rw [heq]
      refine ⟨b :: bs', report, c', rfl, hc, by simp only [sizes]; omega, fun hmoment => ?_⟩
      rcases Moment.earliest_eq hmoment with hb | hbs
      · simp [hb] at hdue
      · have := hless hbs
        simp only [sizes]
        omega

end

mutual

/-- Told to stop, the strand is due. -/
theorem Minds.due_isSome : ∀ {b : Strand σ ρ} {P : ρ → Prop}, b.Minds m P → ∀ (ranks : Ranks),
    (b.due? (some moment) ranks).isSome
  | .ready _ _, _, _, _ => rfl
  | .pausing _ _, _, _, _ => by
    rw [due?]
    exact Moment.earliest_isSome (.inr rfl)
  | .calling _ _ _ _, _, _, _ => by
    rw [due?]
    exact Moment.earliest_isSome (.inl rfl)
  | .joining [] _ _ _, _, h, _ => by
    rw [due?]
    exact Moment.earliest_isSome (.inl (h.2.1 rfl))
  | .joining (b :: bs) _ _ _, _, h, _ => by
    have hb := Minds.due_isSome h.1.1 .background
    rw [due?, branchesDue?]
    exact Moment.earliest_isSome (.inr (Moment.earliest_isSome (.inl hb)))

end

end Strand

/-!
## Strands whose work tells them to stop

Work that is called may itself be what tells the walk to stop, and end without waiting. In a strict
manner the walk then looks before it does anything else: only work can have told it, calls have no
limits, and it looks after every end of a call. So what holds until the walk is told to stop, and is
kept by the work that it calls, holds ever after, and a strand that ends when it has been told to
stop has quit.
-/

/-- The manner of a walk that looks whenever work may have told it to stop. Of `K` it is known that
it holds as long as nobody has, and that work keeps it. -/
structure Manner.Strict (m : Manner σ) (K : σ → Prop) : Prop where
  acts : ∀ s t, m.acts s t → m.stop s = false → m.stop t = false
  works : ∀ w, m.works w → w.Keeps fun s t => K s → K t
  limits : ¬m.limited
  looks : ∀ e, e ≠ .timedOut → m.looks e
  holds : ∀ s, m.stop s = false → K s

variable {m : Manner σ} {K : σ → Prop} {P : ρ → Prop} {s : σ}

/-- `K` holds, and if it has ended after it was told to stop, it has quit. -/
def Manner.Kept (m : Manner σ) (K : σ → Prop) (P : ρ → Prop) (x : Progress σ ρ × σ × Clock) :
    Prop := K x.2.1 ∧ ∀ r, x.1 = .ended r → m.stop x.2.1 = true → P r

theorem Work.Keeps.proceed (stop : σ → Bool) {w : Work σ StepResult}
    (h : w.Keeps fun s t => K s → K t) (rank : Nat) (c : Clock) (hs : K s) :
    K (w.proceed stop rank s c).2.1 := by
  induction w generalizing s with
  | done | crash => exact hs
  | act f rest ih => exact ih s (h s).2 ((h s).1 hs)
  | sleep d rest ih =>
    rw [Work.proceed]
    split
    · exact ih h hs
    · exact hs
  | awaitCancel rest ih =>
    rw [Work.proceed]
    split
    · exact ih h hs
    · exact hs

namespace Manner.Strict

theorem kept_of_winds {b : Strand σ ρ} {c : Clock} {due : Prop} {x : Progress σ ρ × σ × Clock}
    (h : Strand.Winds P s c due b x) (hs : K s) : m.Kept K P x := by
  cases h with
  | ended hr =>
    refine ⟨hs, fun r heq _ => ?_⟩
    cases heq
    exact hr
  | waiting => exact ⟨hs, fun r heq => by simp at heq⟩

theorem kept_of_quits {w : Walk σ ρ} (h : w.Quits m.stop P) (hs : m.stop s = true) (hK : K s)
    (rank : Nat) (c : Clock) : m.Kept K P (w.proceed m.stop rank s c) := by
  obtain ⟨r, hr, heq⟩ := h.proceed hs rank c
  rw [heq]
  refine ⟨hK, fun r' heq' _ => ?_⟩
  cases heq'
  exact hr

theorem kept_waiting {b : Strand σ ρ} {c : Clock} (hK : K s) : m.Kept K P (.waiting b, s, c) :=
  ⟨hK, fun r heq => by simp at heq⟩

theorem deadline_none (h : m.Strict K) (c : Clock) (rank : Nat) {limit : Option Nanos}
    (hlimit : m.limited ∨ limit = none) : (c.deadline rank limit).1 = none :=
  (Clock.deadline_none hlimit).resolve_left h.limits

theorem looks_ofWork (h : m.Strict K) (e : Work.End StepResult) : m.looks (.ofWork e) :=
  h.looks _ (by cases e <;> simp [CallEnd.ofWork])

theorem proceed (h : m.Strict K) : ∀ {w : Walk σ ρ} {s : σ}, w.Minds m P → m.stop s = false →
    ∀ (rank : Nat) (c : Clock), m.Kept K P (w.proceed m.stop rank s c)
  | .done r, s, _, hs, _, _ => ⟨h.holds s hs, fun _ _ hs' =>
    absurd (hs.symm.trans hs') Bool.false_ne_true⟩
  | .act f rest, s, hw, hs, rank, c => proceed h (hw s).2 (h.acts s (f s) (hw s).1 hs) rank c
  | .pause d rest, s, hw, hs, rank, c => by
    rw [Walk.proceed, if_neg (by simp [hs])]
    split
    · exact proceed h (hw.2 false) hs rank c
    · exact kept_waiting (h.holds s hs)
  | .call limit work rest, s, ⟨hlimit, hwork, hrest⟩, hs, rank, c => by
    have hK := (h.works work hwork).proceed m.stop rank c (h.holds s hs)
    rw [Walk.proceed, if_neg (by simp [hs])]
    generalize work.proceed m.stop rank s c = x at hK
    obtain ⟨stage, s', c'⟩ := x
    cases stage with
    | ended e =>
      cases hs' : m.stop s' with
      | false => exact proceed h (hrest _).2 hs' rank c'
      | true => exact kept_of_quits ((hrest _).1 (h.looks_ofWork e)) hs' hK rank c'
    | waiting due work' =>
      have hnone := h.deadline_none c' rank hlimit
      simp only [hnone, Option.any_none, Bool.false_eq_true, if_false]
      exact kept_waiting hK
  | .fork [] rest, s, hw, hs, rank, c => proceed h (hw.2 []).2 hs rank c
  | .fork (w :: ws) rest, s, hw, hs, rank, c => kept_waiting (h.holds s hs)

theorem poll (h : m.Strict K) {b : Strand σ ρ} (hb : b.Minds m P) (hs : m.stop s = false)
    (rank : Nat) (c : Clock) : m.Kept K P (b.poll m.stop rank s c) := by
  cases b with
  | ready due w => exact h.proceed hb.2 hs rank c
  | pausing due rest =>
    rw [Strand.poll, if_neg (by simp [hs])]
    split
    · exact h.proceed (hb.2 false) hs rank c
    · exact kept_waiting (h.holds s hs)
  | calling deadline due work rest =>
    obtain ⟨hlimit, hwork, hrest⟩ := hb
    have hnone := hlimit.resolve_left h.limits
    have hK := (h.works work hwork).proceed m.stop rank c (h.holds s hs)
    rw [Strand.poll, if_neg (by simp [hs])]
    generalize work.proceed m.stop rank s c = x at hK
    obtain ⟨stage, s', c'⟩ := x
    by_cases hdue : due.any c.reached = true
    · rw [if_pos hdue]
      cases stage with
      | ended e =>
        cases hs' : m.stop s' with
        | false => exact h.proceed (hrest _).2 hs' rank c'
        | true => exact kept_of_quits ((hrest _).1 (h.looks_ofWork e)) hs' hK rank c'
      | waiting due' work' =>
        simp only [hnone, Option.any_none, Bool.false_eq_true, if_false]
        exact kept_waiting hK
    · rw [if_neg hdue]
      simp only [hnone, Option.any_none, Bool.false_eq_true, if_false]
      exact kept_waiting (h.holds s hs)
  | joining branches reports told rest =>
    cases branches with
    | nil => exact h.proceed (hb.2.2 reports).2 hs rank c
    | cons => exact kept_waiting (h.holds s hs)

variable (stopped : Option Moment) (moment : Moment)

mutual

/-- Every turn keeps `K`. -/
theorem turn (h : m.Strict K) : ∀ {b : Strand σ ρ} {P : ρ → Prop} {s : σ}, b.Minds m P → K s →
    ∀ (ranks : Ranks) (c : Clock), m.Kept K P (b.turn m.stop stopped moment ranks s c)
  | b, _, s, hb, hK, ranks, c => by
    cases hs : m.stop s with
    | true => exact kept_of_winds (hb.winds stopped moment hs ranks c) hK
    | false =>
      cases b with
      | ready | pausing | calling => exact h.poll hb hs ranks.own c
      | joining branches reports told rest =>
        rw [Strand.turn]
        split
        · exact h.poll hb hs ranks.own c
        · exact kept_waiting (turnBranch h branches hb.1 hK c)

theorem turnBranch (h : m.Strict K) : ∀ (bs : List (Strand σ ρ)) {s : σ}, Strand.AllMind m bs →
    K s → ∀ (c : Clock), K (Strand.turnBranch m.stop stopped moment bs s c).2.2.1
  | [], _, _, hK, _ => hK
  | b :: bs, s, hbs, hK, c => by
    rw [Strand.turnBranch]
    split
    · have hturn := (turn h hbs.1 hK .background c).1
      split <;> next heq => rw [heq] at hturn; exact hturn
    · exact turnBranch h bs hbs.2 hK c

end

end Manner.Strict

end DurableWorkflow
