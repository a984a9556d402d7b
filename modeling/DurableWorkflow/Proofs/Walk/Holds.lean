import DurableWorkflow.Proofs.Walk.Thrift
import Mathlib.Algebra.Group.Basic
import Mathlib.Tactic.Abel

/-!
# What walks hold

The parts of a walk share out what goes with a state: visits still to make, or what has yet to be
entered into the books. Only all of it together can be sound. An action may change what its own part
of the walk holds, and does so in a way that whatever the others hold stays sound beside it. A fork
divides what its walk holds among the branches and what follows them, and what follows gets back
what the branches are left with when they report.

`w.Holds S F a` says that the walk `w` lives on the holdings `a`, and that `F` holds of its report
and of what it is left with.
-/

namespace DurableWorkflow

variable {σ ρ R α β : Type} [AddCommMonoid R]

structure Shares (σ ρ R : Type) where
  /-- All that is held goes with the state. -/
  sound : σ → R → Prop
  /-- What concerns no holdings. -/
  still : σ → σ → Prop
  /-- What an action of a part may make of the state and of all that is held. -/
  deal : Walk σ ρ → σ × R → σ × R → Prop
  /-- What a branch may be left with. -/
  report : ρ → R → Prop
  /-- The report of a part that has been given up. -/
  void : ρ → Prop
  sound_still : ∀ {s t a}, still s t → sound s a → sound t a
  report_void : ∀ {r} a, void r → report r a

/-- What branches are left with that end with these reports. -/
inductive Shares.Reports (S : Shares σ ρ R) : List ρ → R → Prop
  | nil : Reports S [] 0
  | cons {r : ρ} {rs : List ρ} {a b : R} (h : S.report r a) (hrs : Reports S rs b) :
    Reports S (r :: rs) (a + b)

theorem Shares.Reports.all {S : Shares σ ρ R} {rs : List ρ} {a : R} (h : S.Reports rs a) :
    ∀ r ∈ rs, ∃ b, S.report r b := by
  induction h with
  | nil => simp
  | cons h _ ih => exact List.forall_mem_cons.2 ⟨⟨_, h⟩, ih⟩

mutual

/-- The walk lives on what it holds, and ends as `F` demands. -/
def Walk.Holds (S : Shares σ ρ R) (F : ρ → R → Prop) : Walk σ ρ → R → Prop
  | .done r, a => F r a
  | .act f rest, a => ∀ s others, S.sound s (a + others) → ∃ b, S.sound (f s) (b + others) ∧
      S.deal (.act f rest) (s, a + others) (f s, b + others) ∧ (rest s).Holds S F b
  | .pause _ rest, a => ∀ cancelled, (rest cancelled).Holds S F a
  | .call _ work rest, a => work.Keeps S.still ∧ ∀ e, (rest e).Holds S F a
  | .fork branches rest, a => ∃ b c, a = b + c ∧ allHold S branches b ∧
      ∀ rs d, S.Reports rs d → (rest rs).Holds S F (d + c)

/-- The branches share what they hold. -/
def allHold (S : Shares σ ρ R) : List (Walk σ ρ) → R → Prop
  | [], a => a = 0
  | w :: ws, a => ∃ b c, a = b + c ∧ w.Holds S S.report b ∧ allHold S ws c

end

/-- A step that is the action of this part of the walk. -/
inductive Walk.ActionOf : Walk σ ρ → Walk σ ρ × σ → Walk σ ρ × σ → Prop
  | here (f : σ → σ) (rest : σ → Walk σ ρ) (s : σ) :
    ActionOf (.act f rest) (.act f rest, s) (rest s, f s)
  | branch {v : Walk σ ρ} (before after : List (Walk σ ρ)) {w w' : Walk σ ρ}
      {rest : List ρ → Walk σ ρ} {s s' : σ} (h : ActionOf v (w, s) (w', s')) :
    ActionOf v (.fork (before ++ w :: after) rest, s) (.fork (before ++ w' :: after) rest, s')

variable {S : Shares σ ρ R} {F : ρ → R → Prop} {a b c others : R}

namespace Walk

theorem ActionOf.step {v : Walk σ ρ} {x y : Walk σ ρ × σ} (h : ActionOf v x y) : Step x y := by
  induction h with
  | here f rest s => exact .act f rest s
  | branch before after _ ih => exact .branch before after ih

theorem ActionOf.acts {f : σ → σ} {rest : σ → Walk σ ρ} {x y : Walk σ ρ × σ}
    (h : ActionOf (.act f rest) x y) : y.2 = f x.2 := by
  generalize hv : Walk.act f rest = v at h
  induction h with
  | here =>
    cases hv
    rfl
  | branch before after _ ih => exact ih hv

theorem allHold_around (before : List (Walk σ ρ)) {w : Walk σ ρ} {after : List (Walk σ ρ)} :
    allHold S (before ++ w :: after) a ↔
      ∃ b c, a = b + c ∧ w.Holds S S.report b ∧ allHold S (before ++ after) c := by
  induction before generalizing a with
  | nil => exact Iff.rfl
  | cons v before ih =>
    constructor
    · rintro ⟨b, c, rfl, hv, hrest⟩
      obtain ⟨d, e, rfl, hw, hall⟩ := ih.1 hrest
      exact ⟨d, b + e, add_left_comm b d e, hw, b, e, rfl, hv, hall⟩
    · rintro ⟨d, f, rfl, hw, b, e, rfl, hv, hall⟩
      exact ⟨b, d + e, add_left_comm d b e, hv, ih.2 ⟨d, e, rfl, hw, hall⟩⟩

namespace Holds

/-- The action of a part leaves the whole walk sound holdings. -/
theorem action {v : Walk σ ρ} {x y : Walk σ ρ × σ} (h : ActionOf v x y) (hx : x.1.Holds S F a)
    (hs : S.sound x.2 (a + others)) : ∃ b, S.sound y.2 (b + others) ∧
      S.deal v (x.2, a + others) (y.2, b + others) ∧ y.1.Holds S F b := by
  -- A branch reports to its fork, and for it what the rest of the fork holds is with the others.
  induction h generalizing F a others with
  | here f rest s => exact hx s others hs
  | branch before after h ih =>
    obtain ⟨b, c, rfl, hall, hrest⟩ := hx
    obtain ⟨own, left, rfl, hw, hall⟩ := (allHold_around before).1 hall
    have hframe (k : R) : k + left + c + others = k + (left + c + others) := by abel
    simp only [hframe] at hs ⊢
    obtain ⟨k, hsound, hdeal, hw'⟩ := ih hw hs
    refine ⟨k + left + c, ?_, ?_, k + left, c, rfl, ?_, hrest⟩
    · rwa [hframe]
    · rwa [hframe]
    · exact (allHold_around before).2 ⟨k, left, rfl, hw', hall⟩

/-- A step is the action of a part of the walk, or leaves the holdings as they are. -/
theorem step {x y : Walk σ ρ × σ} (h : Step x y) (hx : x.1.Holds S F a) :
    (∃ v, ActionOf v x y) ∨ (y.2 = x.2 ∨ S.still x.2 y.2) ∧ y.1.Holds S F a := by
  induction h generalizing F a with
  | act f rest s => exact .inl ⟨_, .here f rest s⟩
  | pause d rest cancelled s => exact .inr ⟨.inl rfl, hx cancelled⟩
  | work h =>
    obtain ⟨hwork, hrest⟩ := hx
    obtain ⟨hact, hwork'⟩ := Work.Keeps.step h hwork
    exact .inr ⟨hact, hwork', hrest⟩
  | done limit r rest s => exact .inr ⟨.inl rfl, hx.2 _⟩
  | crash limit m rest s => exact .inr ⟨.inl rfl, hx.2 _⟩
  | late d work rest s => exact .inr ⟨.inl rfl, hx.2 _⟩
  | cancel limit work rest s => exact .inr ⟨.inl rfl, hx.2 _⟩
  | branch before after h ih =>
    obtain ⟨b, c, rfl, hall, hrest⟩ := hx
    obtain ⟨own, left, rfl, hw, hall⟩ := (allHold_around before).1 hall
    obtain ⟨v, haction⟩ | ⟨hstill, hw'⟩ := ih hw
    · exact .inl ⟨v, .branch before after haction⟩
    · exact .inr ⟨hstill, own + left, c, rfl, (allHold_around before).2 ⟨own, left, rfl, hw', hall⟩,
        hrest⟩
  | report before after r rest s =>
    obtain ⟨b, c, rfl, hall, hrest⟩ := hx
    obtain ⟨own, left, rfl, hr, hall⟩ := (allHold_around before).1 hall
    refine .inr ⟨.inl rfl, left, own + c, ?_, hall, fun rs d hrs => ?_⟩
    · rw [add_comm own left, add_assoc]
    · have hmore := hrest (r :: rs) (own + d) (.cons hr hrs)
      rwa [add_comm own d, add_assoc] at hmore
  | join rest s =>
    obtain ⟨b, c, rfl, hall, hrest⟩ := hx
    obtain rfl : b = 0 := hall
    exact .inr ⟨.inl rfl, hrest [] 0 .nil⟩

/-- However the walk goes on, what it then holds is sound. -/
theorem moves {drift : σ → σ → Prop} (hdrift : ∀ {s t}, drift s t → S.still s t)
    {x y : Walk σ ρ × σ} (h : Moves drift Step x y) (hx : x.1.Holds S F a) (hs : S.sound x.2 a) :
    ∃ b, S.sound y.2 b ∧ y.1.Holds S F b := by
  induction h with
  | refl => exact ⟨a, hs, hx⟩
  | @tail y z _ hstep ih =>
    obtain ⟨b, hsound, hy⟩ := ih
    obtain hstep | ⟨hsame, hst⟩ := hstep
    · obtain ⟨v, haction⟩ | ⟨hstill, hz⟩ := step hstep hy
      · rw [← add_zero b] at hsound
        obtain ⟨c, hsound', -, hz⟩ := action haction hy hsound
        rw [add_zero] at hsound'
        exact ⟨c, hsound', hz⟩
      · refine ⟨b, ?_, hz⟩
        obtain heq | hstill := hstill
        · rwa [heq]
        · exact S.sound_still hstill hsound
    · exact ⟨b, S.sound_still (hdrift hst) hsound, hsame ▸ hy⟩

/-- A walk may hold more than it lives on. -/
theorem spare (hF : ∀ r b, F r b → F r (b + c)) :
    ∀ (w : Walk σ ρ) {a : R}, w.Holds S F a → w.Holds S F (a + c)
  | .done r, a, h => hF r a h
  | .act f rest, a, h => by
    intro s others hs
    have hs' : S.sound s (a + (c + others)) := by rwa [← add_assoc]
    obtain ⟨b, hsound, hdeal, hrest⟩ := h s (c + others) hs'
    rw [← add_assoc] at hsound
    rw [← add_assoc, ← add_assoc] at hdeal
    exact ⟨b + c, hsound, hdeal, spare hF (rest s) hrest⟩
  | .pause _ rest, _, h => fun cancelled => spare hF (rest cancelled) (h cancelled)
  | .call _ _ rest, _, h => ⟨h.1, fun e => spare hF (rest e) (h.2 e)⟩
  | .fork _ rest, _, h => by
    obtain ⟨b, k, rfl, hall, hrest⟩ := h
    refine ⟨b, k + c, add_assoc b k c, hall, fun rs d hrs => ?_⟩
    rw [← add_assoc]
    exact spare hF (rest rs) (hrest rs d hrs)

end Holds

end Walk

/-! ### Pieces -/

/-- The action adds `g` to what its part of a walk holds. -/
def Shares.Adds (S : Shares σ ρ R) (f : σ → σ) (g : R) : Prop :=
  ∀ v s a, S.sound s a → S.sound (f s) (a + g) ∧ S.deal v (s, a) (f s, a + g)

/-- The action makes `y` of `x` in what its part of a walk holds. -/
def Shares.Trades (S : Shares σ ρ R) (f : σ → σ) (x y : R) : Prop :=
  ∀ v s a, S.sound s (a + x) → S.sound (f s) (a + y) ∧ S.deal v (s, a + x) (f s, a + y)

theorem Shares.Adds.trades {f : σ → σ} {g x y : R} (h : S.Adds f g) (hy : y = x + g) :
    S.Trades f x y := by
  intro v s a hs
  rw [hy, ← add_assoc]
  exact h v s (a + x) hs

/-- The piece holds `a`, and what follows gets values and holdings as `V` demands. -/
def Piece.Holds (S : Shares σ ρ R) (a : R) (V : α → R → Prop) (p : Piece σ ρ α) : Prop :=
  ∀ (F : ρ → R → Prop) (k : α → Walk σ ρ), (∀ r b, S.void r → F r b) →
    (∀ v b, V v b → (k v).Holds S F b) → (p k).Holds S F a

namespace Piece.Holds

variable {V : α → R → Prop} {U : β → R → Prop} {p : Piece σ ρ α}

theorem pure {v : α} (h : V v a) : (Pure.pure v : Piece σ ρ α).Holds S a V :=
  fun _ _ _ hk => hk v a h

theorem halt {r : ρ} (h : S.void r) : (Piece.halt r : Piece σ ρ α).Holds S a V :=
  fun _ _ hF _ => hF r a h

theorem bind {f : α → Piece σ ρ β} (h : p.Holds S a V) (hf : ∀ v b, V v b → (f v).Holds S b U) :
    (p >>= f).Holds S a U :=
  fun F k hF hk => h F _ hF fun v b hv => hf v b hv F k hF hk

theorem mono {W : α → R → Prop} (h : p.Holds S a V) (hVW : ∀ v b, V v b → W v b) : p.Holds S a W :=
  fun F k hF hk => h F k hF fun v b hv => hk v b (hVW v b hv)

/-- What is known of the values the piece hands on. -/
theorem hands {W : α → Prop} (h : p.Holds S a V) (hW : p.Hands W) {r : ρ} (hr : S.void r) :
    p.Holds S a fun v b => V v b ∧ W v := by
  classical
  intro F k hF hk
  rw [hW k (fun v => if W v then k v else .done r) fun v hv => (if_pos hv).symm]
  refine h F _ hF fun v b hv => ?_
  split
  · next hvW => exact hk v b ⟨hv, hvW⟩
  · exact hF r b hr

theorem update {f : σ → α × σ} {g : R} (h : S.Adds (fun s => (f s).2) g) :
    (Piece.update f : Piece σ ρ α).Holds S a fun v b => (∃ s, v = (f s).1) ∧ b = a + g := by
  intro F k _ hk s others hs
  obtain ⟨hsound, hdeal⟩ := h (.act (fun s => (f s).2) fun s => k (f s).1) s (a + others) hs
  rw [add_right_comm] at hsound hdeal
  exact ⟨a + g, hsound, hdeal, hk _ _ ⟨⟨s, rfl⟩, rfl⟩⟩

theorem modify {f : σ → σ} {g : R} (h : S.Adds f g) :
    (Piece.modify f : Piece σ ρ Unit).Holds S a fun _ b => b = a + g :=
  (update (f := fun s => ((), f s)) h).mono fun _ _ hb => hb.2

theorem trade {f : σ → σ} {x y : R} (h : S.Trades f x y) :
    (Piece.modify f : Piece σ ρ Unit).Holds S (a + x) fun _ b => b = a + y := by
  intro F k _ hk s others hs
  obtain ⟨hsound, hdeal⟩ := h (.act f fun _ => k ()) s (a + others) (by rwa [add_right_comm])
  rw [add_right_comm] at hsound
  rw [add_right_comm a others, add_right_comm a others] at hdeal
  exact ⟨a + y, hsound, hdeal, hk () _ rfl⟩

theorem read (f : σ → α) (h : S.Adds id 0) :
    (Piece.read f : Piece σ ρ α).Holds S a fun v b => (∃ s, v = f s) ∧ b = a :=
  (update (f := fun s => (f s, s)) h).mono fun _ _ hb => ⟨hb.1, hb.2.trans (add_zero a)⟩

theorem pause (d : Nanos) : (Piece.pause d : Piece σ ρ Bool).Holds S a fun _ b => b = a :=
  fun _ _ _ hk cancelled => hk cancelled a rfl

theorem call (limit : Option Nanos) {work : Work σ StepResult} (h : work.Keeps S.still) :
    (Piece.call limit work : Piece σ ρ CallEnd).Holds S a fun _ b => b = a :=
  fun _ _ _ hk => ⟨h, fun e => hk e a rfl⟩

theorem fork {branches : List (Walk σ ρ)} (h : allHold S branches b) :
    (Piece.fork branches : Piece σ ρ (List ρ)).Holds S (b + c) fun rs e =>
      ∃ d, S.Reports rs d ∧ e = d + c :=
  fun _ _ _ hk => ⟨b, c, rfl, h, fun rs d hrs => hk rs _ ⟨d, hrs, rfl⟩⟩

end Piece.Holds

end DurableWorkflow
