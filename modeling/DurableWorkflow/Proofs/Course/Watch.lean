import DurableWorkflow.Proofs.Walk.Step

/-!
# Courses under watch

What is to be seen of a course while it works among others: each action of it outside walks (`own`),
each step of its walks together with the own state of the walk (`pace`), and of a walk under way
what is left of it (`mark`). A `Conduct` hides a walk behind one condition that holds all the way; a
watch follows it, so that a walk may do in one part of its way what it must not do in another.

`c.Heeds P Q w` says that from the world `w` on all this is as the watch `P` demands, and that `Q`
holds of the value and the world if `c` comes to its end. What is assumed is that every world in
which `c` acts is good.
-/

namespace DurableWorkflow

variable {ω τ β α γ : Type}

structure Watch (ω τ β : Type) where
  good : ω → Prop
  /-- What the others may do. -/
  others : ω → ω → Prop
  /-- What one action outside walks may do. -/
  own : ω → ω → Prop
  /-- What one step of a walk may do. -/
  pace : τ × ω → τ × ω → Prop
  /-- What holds of a walk under way. -/
  mark : Walk (τ × ω) β → τ → ω → Prop
  refl : ∀ w, others w w
  trans : ∀ {u v w}, others u v → others v w → others u w
  own_refl : ∀ w, own w w

namespace Watch

variable (P : Watch ω τ β)

/-- What the others do does not change whether `Q` holds. -/
def Stable (Q : ω → Prop) : Prop := ∀ {w v}, Q w → P.others w v → Q v

/-- `K` holds of a walk all the way, and makes it as the watch demands. -/
structure Guides (K : Walk (τ × ω) β → τ → ω → Prop) : Prop where
  stable : ∀ path own, P.Stable (K path own)
  step : ∀ {path path' own own' w w'}, K path own w → P.good w →
    Walk.Step (path, own, w) (path', own', w') → P.pace (own, w) (own', w') ∧ K path' own' w'
  mark : ∀ {path own w}, K path own w → P.mark path own w

end Watch

/-- From this world on the course is as the watch demands, and ends in `Q`. -/
def Course.Heeds (P : Watch ω τ β) (Q : α → ω → Prop) : Course ω τ β α → ω → Prop
  | .done a, w => Q a w
  | .crash _, _ => True
  | .act f rest, w => ∀ v, P.others w v → P.good v → P.own v (f v) ∧ (rest v).Heeds P Q (f v)
  | .wait _ rest, w => rest.Heeds P Q w
  | .walk _ _ own path rest, w => ∃ K, P.Guides K ∧ K path own w ∧
      (∀ own r v, K (.done r) own v → (rest own (some r)).Heeds P Q v) ∧
      ∀ path own v, K path own v → (rest own none).Heeds P Q v
  | .perform _ own work rest, w => ∃ J : τ → ω → Prop, J own w ∧ (∀ own, P.Stable (J own)) ∧
      work.Keeps (fun s t => P.good s.2 → J s.1 s.2 → P.own s.2 t.2 ∧ J t.1 t.2) ∧
      ∀ own e v, J own v → (rest own e).Heeds P Q v

namespace Course.Heeds

variable {P : Watch ω τ β} {Q : α → ω → Prop} {S : γ → ω → Prop} {c : Course ω τ β α} {w v : ω}

theorem stable (hQ : ∀ a, P.Stable (Q a)) (h : c.Heeds P Q w) (hv : P.others w v) :
    c.Heeds P Q v := by
  induction c generalizing w with
  | done a => exact hQ a h hv
  | crash => trivial
  | act f rest ih => exact fun u hu hgood => h u (P.trans hv hu) hgood
  | wait d rest ih => exact ih h hv
  | walk cancelled limit own path rest ih =>
    obtain ⟨K, hK, hpath, hrest⟩ := h
    exact ⟨K, hK, hK.stable path own hpath hv, hrest⟩
  | perform cancelled own work rest ih =>
    obtain ⟨J, hJ, hstable, hrest⟩ := h
    exact ⟨J, hstable own hJ hv, hstable, hrest⟩

theorem bind {k : α → Course ω τ β γ} (h : c.Heeds P Q w)
    (hk : ∀ a v, Q a v → (k a).Heeds P S v) : (c.bind k).Heeds P S w := by
  induction c generalizing w with
  | done a => exact hk a w h
  | crash => trivial
  | act f rest ih =>
    intro v hv hgood
    obtain ⟨hown, hrest⟩ := h v hv hgood
    exact ⟨hown, ih v hrest⟩
  | wait d rest ih => exact ih h
  | walk cancelled limit own path rest ih =>
    obtain ⟨K, hK, hpath, harrive, hlate⟩ := h
    exact ⟨K, hK, hpath, fun own r v hv => ih own (some r) (harrive own r v hv),
      fun path own v hv => ih own none (hlate path own v hv)⟩
  | perform cancelled own work rest ih =>
    obtain ⟨J, hJ, hstable, hwork, hrest⟩ := h
    exact ⟨J, hJ, hstable, hwork, fun own e v hv => ih own e (hrest own e v hv)⟩

theorem mono {Q' : α → ω → Prop} (h : c.Heeds P Q w) (hQ : ∀ a v, Q a v → Q' a v) :
    c.Heeds P Q' w := by
  rw [← bind_done c]
  exact h.bind hQ

/-- What is done at the end of a course leaves what it ends with. -/
theorem ensure_stable {f : ω → ω} (h : c.Heeds P Q w) (hown : ∀ v, P.own v (f v))
    (hQ : ∀ a v u, Q a v → P.others v u → Q a (f u)) : (c.ensure f).Heeds P Q w := by
  induction c generalizing w with
  | done a => exact fun v hv _ => ⟨hown v, hQ a w v h hv⟩
  | crash m => exact fun v _ _ => ⟨hown v, trivial⟩
  | act g rest ih =>
    intro v hv hgood
    obtain ⟨hg, hrest⟩ := h v hv hgood
    exact ⟨hg, ih v hrest⟩
  | wait d rest ih => exact ih h
  | walk cancelled limit own path rest ih =>
    obtain ⟨K, hK, hpath, harrive, hlate⟩ := h
    exact ⟨K, hK, hpath, fun own r v hv => ih own (some r) (harrive own r v hv),
      fun path own v hv => ih own none (hlate path own v hv)⟩
  | perform cancelled own work rest ih =>
    obtain ⟨J, hJ, hstable, hwork, hrest⟩ := h
    exact ⟨J, hJ, hstable, hwork, fun own e v hv => ih own e (hrest own e v hv)⟩

/-- What is done at the end, however that is. -/
theorem ensure {f : ω → ω} (h : c.Heeds P Q w) (hf : ∀ v, P.own v (f v)) :
    (c.ensure f).Heeds P (fun _ _ => True) w :=
  (h.mono fun _ _ _ => trivial).ensure_stable hf fun _ _ _ _ _ => trivial

/-- A step of a course is an action of it, or a step of the walk that it is on. -/
inductive Seen (P : Watch ω τ β) : Course ω τ β α → ω → ω → Prop
  | own {c : Course ω τ β α} {w v : ω} (h : P.own w v) : Seen P c w v
  | pace {cancelled : ω → Bool} {limit : Option Nanos} {own own' : τ} {path : Walk (τ × ω) β}
      {rest : τ → Option β → Course ω τ β α} {w v : ω} (h : P.pace (own, w) (own', v)) :
    Seen P (.walk cancelled limit own path rest) w v

theorem step {x y : Course ω τ β α × ω} (hstep : Course.Step x y) (h : x.1.Heeds P Q x.2)
    (hgood : P.good x.2) : Seen P x.1 x.2 y.2 ∧ y.1.Heeds P Q y.2 := by
  cases hstep with
  | act f rest w =>
    obtain ⟨hown, hrest⟩ := h w (P.refl w) hgood
    exact ⟨.own hown, hrest⟩
  | wait d rest w => exact ⟨.own (P.own_refl w), h⟩
  | walk hwalk =>
    obtain ⟨K, hK, hpath, hrest⟩ := h
    obtain ⟨hpace, hpath'⟩ := hK.step hpath hgood hwalk
    exact ⟨.pace hpace, K, hK, hpath', hrest⟩
  | arrive cancelled limit own r rest w =>
    obtain ⟨K, -, hpath, harrive, -⟩ := h
    exact ⟨.own (P.own_refl w), harrive own r w hpath⟩
  | late cancelled d own path rest w =>
    obtain ⟨K, -, hpath, -, hlate⟩ := h
    exact ⟨.own (P.own_refl w), hlate path own w hpath⟩
  | @work cancelled own own' work work' rest w w' hwork =>
    obtain ⟨J, hJ, hstable, hkeeps, hrest⟩ := h
    obtain ⟨hsame | haction, hkeeps'⟩ := Work.Keeps.step hwork hkeeps
    · obtain ⟨rfl, rfl⟩ := Prod.mk.inj hsame
      exact ⟨.own (P.own_refl _), J, hJ, hstable, hkeeps', hrest⟩
    · obtain ⟨hown, hJ'⟩ := haction hgood hJ
      exact ⟨.own hown, J, hJ', hstable, hkeeps', hrest⟩
  | done cancelled own r rest w =>
    obtain ⟨J, hJ, -, -, hrest⟩ := h
    exact ⟨.own (P.own_refl w), hrest own _ w hJ⟩
  | crash cancelled own m rest w =>
    obtain ⟨J, hJ, -, -, hrest⟩ := h
    exact ⟨.own (P.own_refl w), hrest own _ w hJ⟩

end Course.Heeds

end DurableWorkflow
