import DurableWorkflow.Proofs.Walk.Step

/-!
# Courses among others

A course is one of many that work on a world. A conduct says what the others may do to the world
between two actions of the course, what an action of the course itself must be like, what every
action has to preserve, and what licence the course needs before it sets out on a walk.

`c.Obeys P Q w` says that from the world `w` on, whatever the others do meanwhile, each action of
`c` is as `P` demands, and `Q` holds of the value and the world if `c` comes to its end. It passes
through `bind`, it outlasts what others do, and every step keeps it. On a walk, where any branch may
act next and the limit may be over at any time, one condition on the own state and the world has to
hold all the way.
-/

namespace DurableWorkflow

variable {ω τ β α γ : Type}

structure Conduct (ω : Type) where
  good : ω → Prop
  /-- What the others may do. -/
  others : ω → ω → Prop
  /-- What one action of the course may do. -/
  own : ω → ω → Prop
  /-- May the course set out on a walk? -/
  licence : ω → Prop
  refl : ∀ w, others w w
  trans : ∀ {u v w}, others u v → others v w → others u w
  own_refl : ∀ w, own w w
  licence_others : ∀ {w v}, licence w → others w v → licence v
  licence_own : ∀ {w v}, licence w → own w v → licence v

namespace Conduct

variable (P : Conduct ω)

/-- An action on the way keeps `J`, and is as the conduct demands. -/
def action (J : τ → ω → Prop) (s t : τ × ω) : Prop :=
  P.good s.2 → J s.1 s.2 → P.good t.2 ∧ P.own s.2 t.2 ∧ J t.1 t.2

/-- What the others do does not change whether `Q` holds. -/
def Stable (Q : ω → Prop) : Prop := ∀ {w v}, Q w → P.others w v → Q v

end Conduct

/-- From this world on the course is as the conduct demands, and ends in `Q`. -/
def Course.Obeys (P : Conduct ω) (Q : α → ω → Prop) : Course ω τ β α → ω → Prop
  | .done a, w => Q a w
  | .crash _, _ => True
  | .act f rest, w => ∀ v, P.others w v → P.good v →
      P.good (f v) ∧ P.own v (f v) ∧ (rest v).Obeys P Q (f v)
  | .wait _ rest, w => rest.Obeys P Q w
  | .walk _ _ own path rest, w => P.licence w ∧ ∃ J : τ → ω → Prop, J own w ∧
      (∀ own, P.Stable (J own)) ∧ path.Keeps (P.action J) ∧
      ∀ own r v, P.licence v → J own v → (rest own r).Obeys P Q v
  | .perform _ own work rest, w => P.licence w ∧ ∃ J : τ → ω → Prop, J own w ∧
      (∀ own, P.Stable (J own)) ∧ work.Keeps (P.action J) ∧
      ∀ own e v, P.licence v → J own v → (rest own e).Obeys P Q v

namespace Course.Obeys

variable {P : Conduct ω} {Q : α → ω → Prop} {S : γ → ω → Prop} {c : Course ω τ β α} {w v : ω}

theorem stable (hQ : ∀ a, P.Stable (Q a)) (h : c.Obeys P Q w) (hv : P.others w v) :
    c.Obeys P Q v := by
  induction c generalizing w with
  | done a => exact hQ a h hv
  | crash => trivial
  | act f rest ih => exact fun u hu hgood => h u (P.trans hv hu) hgood
  | wait d rest ih => exact ih h hv
  | walk cancelled limit own path rest ih =>
    obtain ⟨hlicence, J, hJ, hstable, hpath, hrest⟩ := h
    exact ⟨P.licence_others hlicence hv, J, hstable own hJ hv, hstable, hpath, hrest⟩
  | perform cancelled own work rest ih =>
    obtain ⟨hlicence, J, hJ, hstable, hwork, hrest⟩ := h
    exact ⟨P.licence_others hlicence hv, J, hstable own hJ hv, hstable, hwork, hrest⟩

theorem bind {k : α → Course ω τ β γ} (h : c.Obeys P Q w)
    (hk : ∀ a v, Q a v → (k a).Obeys P S v) : (c.bind k).Obeys P S w := by
  induction c generalizing w with
  | done a => exact hk a w h
  | crash => trivial
  | act f rest ih =>
    intro v hv hgood
    obtain ⟨hf, hown, hrest⟩ := h v hv hgood
    exact ⟨hf, hown, ih v hrest⟩
  | wait d rest ih => exact ih h
  | walk cancelled limit own path rest ih =>
    obtain ⟨hlicence, J, hJ, hstable, hpath, hrest⟩ := h
    exact ⟨hlicence, J, hJ, hstable, hpath, fun own r v hl hv => ih own r (hrest own r v hl hv)⟩
  | perform cancelled own work rest ih =>
    obtain ⟨hlicence, J, hJ, hstable, hwork, hrest⟩ := h
    exact ⟨hlicence, J, hJ, hstable, hwork, fun own r v hl hv => ih own r (hrest own r v hl hv)⟩

theorem mono {Q' : α → ω → Prop} (h : c.Obeys P Q w) (hQ : ∀ a v, Q a v → Q' a v) :
    c.Obeys P Q' w := by
  rw [← bind_done c]
  exact h.bind hQ

/-- What is done at the end, however that is. -/
theorem ensure {f : ω → ω} (h : c.Obeys P Q w)
    (hf : ∀ v, P.good v → P.good (f v) ∧ P.own v (f v)) :
    (c.ensure f).Obeys P (fun _ _ => True) w := by
  induction c generalizing w with
  | done a => exact fun v _ hgood => ⟨(hf v hgood).1, (hf v hgood).2, trivial⟩
  | crash m => exact fun v _ hgood => ⟨(hf v hgood).1, (hf v hgood).2, trivial⟩
  | act g rest ih =>
    intro v hv hgood
    obtain ⟨hg, hown, hrest⟩ := h v hv hgood
    exact ⟨hg, hown, ih v hrest⟩
  | wait d rest ih => exact ih h
  | walk cancelled limit own path rest ih =>
    obtain ⟨hlicence, J, hJ, hstable, hpath, hrest⟩ := h
    exact ⟨hlicence, J, hJ, hstable, hpath, fun own r v hl hv => ih own r (hrest own r v hl hv)⟩
  | perform cancelled own work rest ih =>
    obtain ⟨hlicence, J, hJ, hstable, hwork, hrest⟩ := h
    exact ⟨hlicence, J, hJ, hstable, hwork, fun own r v hl hv => ih own r (hrest own r v hl hv)⟩

/-- A step is as the conduct demands, and so is what is left to do. -/
theorem step {x y : Course ω τ β α × ω} (hstep : Course.Step x y) (h : x.1.Obeys P Q x.2)
    (hgood : P.good x.2) : P.good y.2 ∧ P.own x.2 y.2 ∧ y.1.Obeys P Q y.2 := by
  cases hstep with
  | act f rest w => exact h w (P.refl w) hgood
  | wait d rest w => exact ⟨hgood, P.own_refl w, h⟩
  | @walk cancelled limit own own' path path' rest w w' hwalk =>
    obtain ⟨hlicence, J, hJ, hstable, hpath, hrest⟩ := h
    obtain ⟨hsame | haction, hpath'⟩ := Walk.Keeps.step hwalk hpath
    · obtain ⟨rfl, rfl⟩ := Prod.mk.inj hsame
      exact ⟨hgood, P.own_refl _, hlicence, J, hJ, hstable, hpath', hrest⟩
    · obtain ⟨hgood', hown, hJ'⟩ := haction hgood hJ
      exact ⟨hgood', hown, P.licence_own hlicence hown, J, hJ', hstable, hpath', hrest⟩
  | arrive cancelled limit own r rest w =>
    obtain ⟨hlicence, J, hJ, -, -, hrest⟩ := h
    exact ⟨hgood, P.own_refl w, hrest own _ w hlicence hJ⟩
  | late cancelled d own path rest w =>
    obtain ⟨hlicence, J, hJ, -, -, hrest⟩ := h
    exact ⟨hgood, P.own_refl w, hrest own _ w hlicence hJ⟩
  | @work cancelled own own' work work' rest w w' hwork =>
    obtain ⟨hlicence, J, hJ, hstable, hkeeps, hrest⟩ := h
    obtain ⟨hsame | haction, hkeeps'⟩ := Work.Keeps.step hwork hkeeps
    · obtain ⟨rfl, rfl⟩ := Prod.mk.inj hsame
      exact ⟨hgood, P.own_refl _, hlicence, J, hJ, hstable, hkeeps', hrest⟩
    · obtain ⟨hgood', hown, hJ'⟩ := haction hgood hJ
      exact ⟨hgood', hown, P.licence_own hlicence hown, J, hJ', hstable, hkeeps', hrest⟩
  | done cancelled own r rest w =>
    obtain ⟨hlicence, J, hJ, -, -, hrest⟩ := h
    exact ⟨hgood, P.own_refl w, hrest own _ w hlicence hJ⟩
  | crash cancelled own m rest w =>
    obtain ⟨hlicence, J, hJ, -, -, hrest⟩ := h
    exact ⟨hgood, P.own_refl w, hrest own _ w hlicence hJ⟩

end Course.Obeys

end DurableWorkflow
