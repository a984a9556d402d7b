import DurableWorkflow.Proofs.Walk.Step

/-!
# Courses in stages

What a course may do depends on what it has done before. A protocol says through which stages `P` a
course may go: which action leads from one stage to another, what may be done on a walk, with which
own states the course may be on a walk at all, and which stage it has reached when it comes back.

`c.Abides L Q E p` says that from the stage `p` on, in whatever worlds the others leave it, the
course `c` is as the protocol `L` demands, that `Q` holds of the value and the stage if it comes to
its end, and `E` of the stage if it crashes. Along the steps that a course has taken (`Trail`) lies
a path of stages (`Protocol.Path`).
-/

namespace DurableWorkflow

variable {ω τ β α γ P : Type}

structure Protocol (ω τ P : Type) where
  /-- In which worlds a course acts. -/
  good : ω → Prop
  /-- An action outside walks, or a wait, from one stage to another. -/
  act : P → ω → ω → P → Prop
  /-- An action on a walk. -/
  pace : P → ω → ω → Prop
  aboard : P → τ → Prop
  /-- The stage after a walk. -/
  ashore : P → P
  pace_refl : ∀ p w, pace p w w

namespace Protocol

variable (L : Protocol ω τ P) (p : P)

def along (s t : τ × ω) : Prop :=
  L.good s.2 → L.aboard p s.1 → L.pace p s.2 t.2 ∧ L.aboard p t.1

/-- `K` holds of a walk all the way, and makes it as the protocol demands. -/
structure Guides (K : Walk (τ × ω) β → τ → Prop) : Prop where
  aboard : ∀ {path own}, K path own → L.aboard p own
  step : ∀ {path path' own own' w w'}, K path own → L.good w →
    Walk.Step (path, own, w) (path', own', w') → L.pace p w w' ∧ K path' own'

theorem guides_of_keeps :
    L.Guides p fun (path : Walk (τ × ω) β) own => path.Keeps (L.along p) ∧ L.aboard p own where
  aboard h := h.2
  step h hgood hstep := by
    obtain ⟨hkeeps, hown⟩ := h
    obtain ⟨hsame | halong, hkeeps'⟩ := Walk.Keeps.step hstep hkeeps
    · obtain ⟨rfl, rfl⟩ := Prod.mk.inj hsame
      exact ⟨L.pace_refl p _, hkeeps', hown⟩
    · obtain ⟨hpace, hown'⟩ := halong hgood hown
      exact ⟨hpace, hkeeps', hown'⟩

end Protocol

/-- From this stage on the course is as the protocol demands; it ends in `Q` or crashes in `E`. -/
def Course.Abides (L : Protocol ω τ P) (Q : α → P → Prop) (E : P → Prop) :
    Course ω τ β α → P → Prop
  | .done a, p => Q a p
  | .crash _, p => E p
  | .act f rest, p => ∀ w, L.good w → ∃ q, L.act p w (f w) q ∧ (rest w).Abides L Q E q
  | .wait _ rest, p => ∀ w, L.good w → ∃ q, L.act p w w q ∧ rest.Abides L Q E q
  | .walk _ _ own path rest, p => ∃ K, L.Guides p K ∧ K path own ∧
      (∀ own r, K (.done r) own → (rest own (some r)).Abides L Q E (L.ashore p)) ∧
      ∀ path own, K path own → (rest own none).Abides L Q E (L.ashore p)
  | .perform _ own work rest, p => L.aboard p own ∧ work.Keeps (L.along p) ∧
      ∀ own e, L.aboard p own → (rest own e).Abides L Q E (L.ashore p)

namespace Course

/-- The own state of a walk, or of undoing. -/
def own? : Course ω τ β α → Option τ
  | .walk _ _ own .. => some own
  | .perform _ own .. => some own
  | _ => none

/-- What the course has come to. -/
def answer? : Course ω τ β α → Option α
  | .done a => some a
  | _ => none

theorem of_answer? {c : Course ω τ β α} {a : α} (h : c.answer? = some a) : c = .done a := by
  cases c with
  | done b =>
    cases h
    rfl
  | _ => cases h

/-- A step that a course has taken, in the world as it was then. -/
structure Stride (ω τ β α : Type) where
  course : Course ω τ β α
  before : ω
  after : ω

/-- The steps that a course has taken, one after the other, and what is left of it. In between the
others do what they like. -/
inductive Trail : Course ω τ β α → List (Stride ω τ β α) → Course ω τ β α → Prop
  | nil (c : Course ω τ β α) : Trail c [] c
  | cons {c c' d : Course ω τ β α} {w w' : ω} {log : List (Stride ω τ β α)}
      (h : Step (c, w) (c', w')) (hlog : Trail c' log d) : Trail c (⟨c, w, w'⟩ :: log) d

theorem Trail.snoc {c d d' : Course ω τ β α} {w w' : ω} {log : List (Stride ω τ β α)}
    (h : Trail c log d) (hstep : Step (d, w) (d', w')) : Trail c (log ++ [⟨d, w, w'⟩]) d' := by
  induction h with
  | nil => exact .cons hstep (.nil d')
  | cons h _ ih => exact .cons h (ih hstep)

theorem Trail.of_done {a : α} {log : List (Stride ω τ β α)} {d : Course ω τ β α}
    (h : Trail (.done a) log d) : log = [] ∧ d = .done a := by
  cases h with
  | nil => exact ⟨rfl, rfl⟩
  | cons hstep => cases hstep

/-- What is left of a course after so many actions. -/
def acts : Nat → Course ω τ β α → ω → Option (Course ω τ β α × ω)
  | 0, c, w => some (c, w)
  | n + 1, .act f rest, w => (rest w).acts n (f w)
  | _, _, _ => none

theorem steps_of_acts {n : Nat} {c : Course ω τ β α} {w : ω} {y : Course ω τ β α × ω}
    (h : c.acts n w = some y) : Course.Steps (c, w) y := by
  induction n generalizing c w with
  | zero =>
    cases h
    exact .refl
  | succ n ih =>
    cases c with
    | act f rest => exact .head (.act f rest w) (ih h)
    | _ => cases h

theorem trail_of_acts {n : Nat} {c : Course ω τ β α} {w : ω} {y : Course ω τ β α × ω}
    (h : c.acts n w = some y) : ∃ log, Trail c log y.1 := by
  induction n generalizing c w with
  | zero =>
    cases h
    exact ⟨[], .nil c⟩
  | succ n ih =>
    cases c with
    | act f rest =>
      obtain ⟨log, hlog⟩ := ih h
      exact ⟨_, .cons (.act f rest w) hlog⟩
    | _ => cases h

end Course

/-- A walk that has not ended can go on. -/
theorem Walk.exists_step {σ ρ : Type} (s : σ) : (w : Walk σ ρ) → (∀ r, w ≠ .done r) →
    ∃ y, Walk.Step (w, s) y
  | .done r, h => absurd rfl (h r)
  | .act f rest, _ => ⟨_, .act f rest s⟩
  | .pause d rest, _ => ⟨_, .pause d rest false s⟩
  | .call limit work rest, _ => ⟨_, .cancel limit work rest s⟩
  | .fork [] rest, _ => ⟨_, .join rest s⟩
  | .fork (w :: branches) rest, _ => by
    by_cases hdone : ∃ r, w = .done r
    · obtain ⟨r, rfl⟩ := hdone
      exact ⟨_, .report [] branches r rest s⟩
    · obtain ⟨⟨w', s'⟩, hstep⟩ := exists_step s w fun r hr => hdone ⟨r, hr⟩
      exact ⟨_, .branch [] branches hstep⟩

/-- So can a course that has neither ended nor crashed. -/
theorem Course.exists_step (w : ω) (c : Course ω τ β α) (hdone : ∀ a, c ≠ .done a)
    (hcrash : ∀ m, c ≠ .crash m) : ∃ y, Course.Step (c, w) y := by
  cases c with
  | done a => exact absurd rfl (hdone a)
  | crash m => exact absurd rfl (hcrash m)
  | act f rest => exact ⟨_, .act f rest w⟩
  | wait d rest => exact ⟨_, .wait d rest w⟩
  | walk cancelled limit own path rest =>
    by_cases hend : ∃ r, path = .done r
    · obtain ⟨r, rfl⟩ := hend
      exact ⟨_, .arrive cancelled limit own r rest w⟩
    · obtain ⟨⟨path', own', w'⟩, hstep⟩ :=
        Walk.exists_step (own, w) path fun r hr => hend ⟨r, hr⟩
      exact ⟨_, .walk hstep⟩
  | perform cancelled own work rest =>
    cases work with
    | done r => exact ⟨_, .done cancelled own r rest w⟩
    | crash m => exact ⟨_, .crash cancelled own m rest w⟩
    | act f next => exact ⟨_, .work (.act f next (own, w))⟩
    | sleep d next => exact ⟨_, .work (.sleep d next (own, w))⟩
    | awaitCancel next => exact ⟨_, .work (.awaitCancel next (own, w))⟩

/-- A course has ended, or has crashed, or can go on. -/
theorem Course.ended_or_step (w : ω) (c : Course ω τ β α) :
    (∃ a, c = .done a) ∨ (∃ m, c = .crash m) ∨ ∃ y, Course.Step (c, w) y := by
  by_cases hdone : ∃ a, c = .done a
  · exact .inl hdone
  · by_cases hcrash : ∃ m, c = .crash m
    · exact .inr (.inl hcrash)
    · exact .inr (.inr (exists_step w c (fun a ha => hdone ⟨a, ha⟩) fun m hm => hcrash ⟨m, hm⟩))

namespace Protocol

/-- What is seen of a step of the course `c`. -/
inductive Sees (L : Protocol ω τ P) (c : Course ω τ β α) (p : P) (w : ω) : ω → P → Prop
  | act {v : ω} {q : P} (hc : c.own? = none) (h : L.act p w v q) : Sees L c p w v q
  | pace {own : τ} {v : ω} (hc : c.own? = some own) (hown : L.aboard p own) (h : L.pace p w v) :
    Sees L c p w v p
  | land {own : τ} {v : ω} (hc : c.own? = some own) (hown : L.aboard p own) (hsame : v = w) :
    Sees L c p w v (L.ashore p)

/-- The stages along the steps that a course has taken. -/
inductive Path (L : Protocol ω τ P) (p : P) : List (Course.Stride ω τ β α) → P → Prop
  | nil : Path L p [] p
  | snoc {log : List (Course.Stride ω τ β α)} {st : Course.Stride ω τ β α} {q r : P}
      (h : Path L p log q) (hst : L.Sees st.course q st.before st.after r) :
    Path L p (log ++ [st]) r

end Protocol

namespace Course.Abides

variable {L : Protocol ω τ P} {Q : α → P → Prop} {S : γ → P → Prop} {E : P → Prop}
  {c : Course ω τ β α} {p : P}

theorem bind {k : α → Course ω τ β γ} (h : c.Abides L Q E p)
    (hk : ∀ a q, Q a q → (k a).Abides L S E q) : (c.bind k).Abides L S E p := by
  induction c generalizing p with
  | done a => exact hk a p h
  | crash => exact h
  | act f rest ih =>
    intro w hgood
    obtain ⟨q, hact, hrest⟩ := h w hgood
    exact ⟨q, hact, ih w hrest⟩
  | wait d rest ih =>
    intro w hgood
    obtain ⟨q, hact, hrest⟩ := h w hgood
    exact ⟨q, hact, ih hrest⟩
  | walk cancelled limit own path rest ih =>
    obtain ⟨K, hK, hpath, harrive, hlate⟩ := h
    exact ⟨K, hK, hpath, fun own r hr => ih own (some r) (harrive own r hr),
      fun path own hown => ih own none (hlate path own hown)⟩
  | perform cancelled own work rest ih =>
    obtain ⟨hown, hwork, hrest⟩ := h
    exact ⟨hown, hwork, fun own e he => ih own e (hrest own e he)⟩

theorem mono {Q' : α → P → Prop} (h : c.Abides L Q E p) (hQ : ∀ a q, Q a q → Q' a q) :
    c.Abides L Q' E p := by
  rw [← bind_done c]
  exact h.bind hQ

/-- What is done at the end leads from the last stage to one more. -/
theorem ensure {f : ω → ω} {Q' : α → P → Prop} {E' : P → Prop} (h : c.Abides L Q E p)
    (hdone : ∀ a q, Q a q → ∀ w, L.good w → ∃ r, L.act q w (f w) r ∧ Q' a r)
    (hcrash : ∀ q, E q → ∀ w, L.good w → ∃ r, L.act q w (f w) r ∧ E' r) :
    (c.ensure f).Abides L Q' E' p := by
  induction c generalizing p with
  | done a => exact hdone a p h
  | crash m => exact hcrash p h
  | act g rest ih =>
    intro w hgood
    obtain ⟨q, hact, hrest⟩ := h w hgood
    exact ⟨q, hact, ih w hrest⟩
  | wait d rest ih =>
    intro w hgood
    obtain ⟨q, hact, hrest⟩ := h w hgood
    exact ⟨q, hact, ih hrest⟩
  | walk cancelled limit own path rest ih =>
    obtain ⟨K, hK, hpath, harrive, hlate⟩ := h
    exact ⟨K, hK, hpath, fun own r hr => ih own (some r) (harrive own r hr),
      fun path own hown => ih own none (hlate path own hown)⟩
  | perform cancelled own work rest ih =>
    obtain ⟨hown, hwork, hrest⟩ := h
    exact ⟨hown, hwork, fun own e he => ih own e (hrest own e he)⟩

theorem aboard {own : τ} (h : c.Abides L Q E p) (hown : c.own? = some own) : L.aboard p own := by
  cases c with
  | walk cancelled limit own' path rest =>
    cases hown
    obtain ⟨K, hK, hpath, -⟩ := h
    exact hK.aboard hpath
  | perform cancelled own' work rest =>
    cases hown
    exact h.1
  | done | crash | act | wait => cases hown

/-- A step is as the protocol demands, and so is what is left to do. -/
theorem step {x y : Course ω τ β α × ω} (hstep : Course.Step x y) (h : x.1.Abides L Q E p)
    (hgood : L.good x.2) : ∃ q, L.Sees x.1 p x.2 y.2 q ∧ y.1.Abides L Q E q := by
  cases hstep with
  | act f rest w =>
    obtain ⟨q, hact, hrest⟩ := h w hgood
    exact ⟨q, .act rfl hact, hrest⟩
  | wait d rest w =>
    obtain ⟨q, hact, hrest⟩ := h w hgood
    exact ⟨q, .act rfl hact, hrest⟩
  | walk hwalk =>
    obtain ⟨K, hK, hpath, hrest⟩ := h
    obtain ⟨hpace, hpath'⟩ := hK.step hpath hgood hwalk
    exact ⟨p, .pace rfl (hK.aboard hpath) hpace, K, hK, hpath', hrest⟩
  | arrive cancelled limit own r rest w =>
    obtain ⟨K, hK, hpath, harrive, -⟩ := h
    exact ⟨L.ashore p, .land rfl (hK.aboard hpath) rfl, harrive own r hpath⟩
  | late cancelled d own path rest w =>
    obtain ⟨K, hK, hpath, -, hlate⟩ := h
    exact ⟨L.ashore p, .land rfl (hK.aboard hpath) rfl, hlate path own hpath⟩
  | work hwork =>
    obtain ⟨hown, hkeeps, hrest⟩ := h
    obtain ⟨hsame | halong, hkeeps'⟩ := Work.Keeps.step hwork hkeeps
    · obtain ⟨rfl, rfl⟩ := Prod.mk.inj hsame
      exact ⟨p, .pace rfl hown (L.pace_refl p _), hown, hkeeps', hrest⟩
    · obtain ⟨hpace, hown'⟩ := halong hgood hown
      exact ⟨p, .pace rfl hown hpace, hown', hkeeps', hrest⟩
  | done cancelled own r rest w => exact ⟨L.ashore p, .land rfl h.1 rfl, h.2.2 own _ h.1⟩
  | crash cancelled own m rest w => exact ⟨L.ashore p, .land rfl h.1 rfl, h.2.2 own _ h.1⟩

theorem follow {d : Course ω τ β α} {pre log : List (Stride ω τ β α)} {q : P}
    (ht : Trail d log c) (hgood : ∀ st ∈ log, L.good st.before) (hpath : L.Path p pre q)
    (h : d.Abides L Q E q) : ∃ r, L.Path p (pre ++ log) r ∧ c.Abides L Q E r := by
  induction ht generalizing pre q with
  | nil => exact ⟨q, by rwa [List.append_nil], h⟩
  | @cons c c' d w w' log hstep _ ih =>
    obtain ⟨r, hsees, h'⟩ := h.step hstep (hgood _ List.mem_cons_self)
    have hpath' : L.Path p (pre ++ [⟨c, w, w'⟩]) r := .snoc hpath hsees
    have hmore := ih (fun st hst => hgood st (List.mem_cons_of_mem _ hst)) hpath' h'
    rwa [List.append_assoc, List.singleton_append] at hmore

theorem trail {d : Course ω τ β α} {log : List (Stride ω τ β α)} (h : d.Abides L Q E p)
    (ht : Trail d log c) (hgood : ∀ st ∈ log, L.good st.before) :
    ∃ q, L.Path p log q ∧ c.Abides L Q E q := follow ht hgood .nil h

end Course.Abides

end DurableWorkflow
