import DurableWorkflow.Proofs.Walk.Agree
import DurableWorkflow.Proofs.Walk.Goes

/-!
# Walks within their means

A state tells how much has been spent, and there is a limit to that. A walk is thrifty with `n` if
it never spends more, all its branches together, and ends as it should wherever it does not find
more spent than leaves it its `n`. By a schedule such a walk comes only to reports that count
(`Thrifty.goes`).
-/

namespace DurableWorkflow

variable {σ ρ : Type}

/-- What has been spent, how much may be spent, and which reports count. -/
structure Budget (σ ρ : Type) where
  spent : σ → Nat
  most : Nat
  ok : ρ → Prop

/-- A call with this limit can end like this, when nobody cancels. -/
def CallEnd.Open (limit : Option Nanos) : CallEnd → Prop
  | finished _ | crashed _ => True
  | timedOut => limit.isSome
  | cancelled => False

mutual

/-- With `n` to spend the walk spends no more and, unless it is cancelled, ends with a report and with
something left over as `F` demands. -/
def Walk.Thrifty (B : Budget σ ρ) (F : ρ → Nat → Prop) : Walk σ ρ → Nat → Prop
  | .done r, n => F r n
  | .act f rest, n => ∀ s, B.spent s + n ≤ B.most →
      ∃ m, B.spent (f s) + m ≤ B.spent s + n ∧ (rest s).Thrifty B F m
  | .pause _ rest, n => (rest false).Thrifty B F n
  | .call limit work rest, n => work.Keeps (fun s t => B.spent t = B.spent s) ∧
      ∀ e : CallEnd, e.Open limit → (rest e).Thrifty B F n
  | .fork branches rest, n => ∃ k m, k + m ≤ n ∧ allThrifty B branches k ∧
      ∀ rs : List ρ, (∀ r ∈ rs, B.ok r) → (rest rs).Thrifty B F m

/-- The branches share what there is to spend, and report what counts. -/
def allThrifty (B : Budget σ ρ) : List (Walk σ ρ) → Nat → Prop
  | [], _ => True
  | w :: ws, n => ∃ k m, k + m ≤ n ∧ w.Thrifty B (fun r _ => B.ok r) k ∧ allThrifty B ws m

end

theorem CallEnd.open_of_turn {limit : Option Nanos} {late : Bool} {work : Work σ StepResult}
    {s t : σ} {e : CallEnd} (hlate : late = true → limit.isSome)
    (h : work.turn late s = (.inl e, t)) : e.Open limit := by
  obtain ⟨-, ⟨hl, rfl⟩ | ⟨e', -, rfl⟩⟩ := Work.end_of_turn h
  · exact hlate hl
  · cases e' <;> trivial

namespace Walk

variable {B : Budget σ ρ} {F : ρ → Nat → Prop} {drift : σ → σ → Prop} {S : Schedule σ ρ} {n : Nat}
  {w : Walk σ ρ} {s : σ}

theorem allThrifty_around (before : List (Walk σ ρ)) {after : List (Walk σ ρ)} :
    allThrifty B (before ++ w :: after) n ↔ ∃ k m, k + m ≤ n ∧
      w.Thrifty B (fun r _ => B.ok r) k ∧ allThrifty B (before ++ after) m := by
  induction before generalizing n with
  | nil => exact Iff.rfl
  | cons v before ih =>
    constructor
    · rintro ⟨a, b, hab, hv, hrest⟩
      obtain ⟨k, m, hkm, hw, hall⟩ := ih.1 hrest
      exact ⟨k, a + m, by omega, hw, a, m, Nat.le_refl _, hv, hall⟩
    · rintro ⟨k, m, hkm, hw, a, b, hab, hv, hall⟩
      exact ⟨a, k + b, by omega, hv, ih.2 ⟨k, b, Nat.le_refl _, hw, hall⟩⟩

/-! ### By a schedule -/

theorem Cued.mono {ok ok' : ρ → Prop} {c : Cue} {x y : Walk σ ρ × σ} (h : Cued ok c x y)
    (hok : ∀ r, ok r → ok' r) : Cued ok' c x y := by
  induction h with
  | act c f rest s => exact .act c f rest s
  | pause c d rest s => exact .pause c d rest s
  | ended rest h => exact .ended rest h
  | work rest h => exact .work rest h
  | branch rest hw _ ih => exact .branch rest hw ih
  | report rest s hr h => exact .report rest s hr (hok _ h)
  | join c rest s => exact .join c rest s

theorem Reports.mono {ok ok' : ρ → Prop} {cues : Nat → Cue} {i : Nat} {x : List (Walk σ ρ) × σ}
    {y : List ρ × σ} (h : Reports drift ok cues i x y) (hok : ∀ r, ok r → ok' r) :
    Reports drift ok' cues i x y := by
  induction h with
  | all i s => exact .all i s
  | branch hd hw hcued _ ih => exact .branch hd hw (hcued.mono hok) ih
  | report hr h _ ih => exact .report hr (hok _ h) ih

theorem Goes.mono {ok ok' : ρ → Prop} {x : Walk σ ρ × σ} {y : Option ρ × σ}
    (h : Goes drift S ok x y) (hok : ∀ r, ok r → ok' r) : Goes drift S ok' x y := by
  induction h with
  | drop w s => exact .drop w s
  | done hd hr => exact .done hd (hok _ hr)
  | act hd _ ih => exact .act hd ih
  | pause _ ih => exact .pause ih
  | inCall h => exact .inCall h
  | call hends _ ih => exact .call hends ih
  | inFork h => exact .inFork h
  | fork hreports _ ih => exact .fork (hreports.mono hok) ih

theorem Goes.ok {ok : ρ → Prop} {x : Walk σ ρ × σ} {y : Option ρ × σ} (h : Goes drift S ok x y) :
    ∀ r ∈ y.1, ok r := by
  induction h with
  | drop | inCall | inFork => simp
  | done _ hr =>
    intro r' hr'
    cases hr'
    exact hr
  | act _ _ ih => exact ih
  | pause _ ih => exact ih
  | call _ _ ih => exact ih
  | fork _ _ ih => exact ih

namespace Thrifty

theorem cued {c : Cue} {x y : Walk σ ρ × σ} (h : Cued (fun _ => True) c x y)
    (hx : x.1.Thrifty B F n) (hs : B.spent x.2 + n ≤ B.most) :
    Cued B.ok c x y ∧ ∃ m, B.spent y.2 + m ≤ B.spent x.2 + n ∧ y.1.Thrifty B F m := by
  induction h generalizing F n with
  | act c f rest s => exact ⟨.act c f rest s, hx s hs⟩
  | pause c d rest s => exact ⟨.pause c d rest s, n, Nat.le_refl _, hx⟩
  | @ended c limit work s t e rest h =>
    have hopen := CallEnd.open_of_turn (fun hlate => (Bool.and_eq_true_iff.1 hlate).2) h
    obtain ⟨rfl, -⟩ := Work.end_of_turn h
    exact ⟨.ended rest h, n, Nat.le_refl _, hx.2 e hopen⟩
  | @work c limit work work' s t rest h =>
    obtain ⟨hact, hwork⟩ := Work.Keeps.step (Work.step_of_turn h) hx.1
    have hsame : B.spent t = B.spent s := by
      obtain heq | hact := hact
      · have heq : t = s := heq
        rw [heq]
      · exact hact
    exact ⟨.work rest h, n, show B.spent t + n ≤ B.spent s + n by omega, hwork, hx.2⟩
  | @branch c branches w w' s t rest hw hcued ih =>
    obtain ⟨before, after, hbranches, hset, -⟩ := exists_around hw
    obtain ⟨k, m, hkm, hall, hrest⟩ := hx
    rw [hbranches] at hall
    obtain ⟨own, others, hshare, hw', hall⟩ := (allThrifty_around before).1 hall
    have hs : B.spent s + n ≤ B.most := hs
    -- The share of the other branches is left as it is; the branch pays from its own.
    obtain ⟨hcued, left, hleft, hw'⟩ := ih hw' (show B.spent s + own ≤ B.most by omega)
    have hleft : B.spent t + left ≤ B.spent s + own := hleft
    refine ⟨.branch rest hw hcued, left + others + m, ?_, left + others, m, Nat.le_refl _, ?_, hrest⟩
    · show B.spent t + (left + others + m) ≤ B.spent s + n
      omega
    · rw [hset]
      exact (allThrifty_around before).2 ⟨left, others, Nat.le_refl _, hw', hall⟩
  | @report c branches r rest s hr =>
    obtain ⟨before, after, hbranches, -, herase⟩ := exists_around hr
    obtain ⟨k, m, hkm, hall, hrest⟩ := hx
    rw [hbranches] at hall
    obtain ⟨own, others, hshare, hok, hall⟩ := (allThrifty_around before).1 hall
    refine ⟨.report rest s hr hok, n, Nat.le_refl _, others, m, by omega, ?_,
      fun rs hrs => hrest (r :: rs) (List.forall_mem_cons.2 ⟨hok, hrs⟩)⟩
    rw [herase]
    exact hall
  | join c rest s =>
    obtain ⟨k, m, hkm, -, hrest⟩ := hx
    exact ⟨.join c rest s, m, show B.spent s + m ≤ B.spent s + n by omega, hrest [] (by simp)⟩

theorem reports (hdrift : ∀ ⦃s t⦄, drift s t → B.spent t = B.spent s) {cues : Nat → Cue} {i : Nat}
    {x : List (Walk σ ρ) × σ} {y : List ρ × σ} (h : Reports drift (fun _ => True) cues i x y)
    (hx : allThrifty B x.1 n) (hs : B.spent x.2 + n ≤ B.most) :
    Reports drift B.ok cues i x y ∧ (∀ r ∈ y.1, B.ok r) ∧ B.spent y.2 ≤ B.spent x.2 + n := by
  induction h generalizing n with
  | all i s => exact ⟨.all i s, by simp, Nat.le_add_right _ _⟩
  | @branch i branches w w' s s' t y hd hw hcued _ ih =>
    obtain ⟨before, after, hbranches, hset, -⟩ := exists_around hw
    rw [hbranches] at hx
    obtain ⟨own, others, hshare, hw', hall⟩ := (allThrifty_around before).1 hx
    have hs : B.spent s + n ≤ B.most := hs
    have hsame := hdrift hd
    obtain ⟨hcued, left, hleft, hw'⟩ := cued hcued hw' (show B.spent s' + own ≤ B.most by omega)
    have hleft : B.spent t + left ≤ B.spent s' + own := hleft
    obtain ⟨hreports, hok, hspent⟩ := ih (n := left + others)
      (by rw [hset]; exact (allThrifty_around before).2 ⟨left, others, Nat.le_refl _, hw', hall⟩)
      (show B.spent t + (left + others) ≤ B.most by omega)
    have hspent : B.spent y.2 ≤ B.spent t + (left + others) := hspent
    exact ⟨.branch hd hw hcued hreports, hok, show B.spent y.2 ≤ B.spent s + n by omega⟩
  | @report i branches r rs s t hr _ _ ih =>
    obtain ⟨before, after, hbranches, -, herase⟩ := exists_around hr
    rw [hbranches] at hx
    obtain ⟨own, others, hshare, hok, hall⟩ := (allThrifty_around before).1 hx
    have hs : B.spent s + n ≤ B.most := hs
    obtain ⟨hreports, hoks, hspent⟩ := ih (n := others) (by rw [herase]; exact hall)
      (show B.spent s + others ≤ B.most by omega)
    have hspent : B.spent t ≤ B.spent s + others := hspent
    exact ⟨.report hr hok hreports, List.forall_mem_cons.2 ⟨hok, hoks⟩,
      show B.spent t ≤ B.spent s + n by omega⟩

theorem ends (hdrift : ∀ ⦃s t⦄, drift s t → B.spent t = B.spent s) {late : Nat → Bool} {i : Nat}
    {limit : Option Nanos} (hlate : ∀ i, late i = true → limit.isSome) {x : Work σ StepResult × σ}
    {y : CallEnd × σ} (h : Work.Ends drift late i x y)
    (hx : x.1.Keeps fun s t => B.spent t = B.spent s) :
    B.spent y.2 = B.spent x.2 ∧ y.1.Open limit := by
  have hspans : Spans drift fun s t => B.spent t = B.spent s :=
    ⟨fun _ => rfl, fun hst htu => htu.trans hst, fun h => hdrift h⟩
  refine ⟨Work.Keeps.ends hspans h hx, ?_⟩
  clear hx
  induction h with
  | ended _ h => exact CallEnd.open_of_turn (hlate _) h
  | next _ _ _ ih => exact ih

/-- Whatever the walk comes to counts, and leaves what it should. -/
theorem goes (hdrift : ∀ ⦃s t⦄, drift s t → B.spent t = B.spent s) (hF : ∀ r n, F r n → B.ok r)
    {x : Walk σ ρ × σ} {y : Option ρ × σ} (h : Goes drift S (fun _ => True) x y)
    (hx : x.1.Thrifty B F n) (hs : B.spent x.2 + n ≤ B.most) :
    Goes drift S B.ok x y ∧ ∀ r ∈ y.1, ∃ m, B.spent y.2 + m ≤ B.most ∧ F r m := by
  induction h generalizing n with
  | drop w s => exact ⟨.drop w s, by simp⟩
  | @done r s t hd =>
    refine ⟨.done hd (hF r n hx), fun r' hr => ?_⟩
    cases hr
    have hs : B.spent s + n ≤ B.most := hs
    have hsame := hdrift hd
    exact ⟨n, show B.spent t + n ≤ B.most by omega, hx⟩
  | @act f rest s s' y hd _ ih =>
    have hs : B.spent s + n ≤ B.most := hs
    have hsame := hdrift hd
    obtain ⟨m, hm, hrest⟩ := hx s' (by omega)
    obtain ⟨hgoes, hend⟩ := ih hrest (show B.spent (f s') + m ≤ B.most by omega)
    exact ⟨.act hd hgoes, hend⟩
  | pause _ ih =>
    obtain ⟨hgoes, hend⟩ := ih hx hs
    exact ⟨.pause hgoes, hend⟩
  | inCall hmoves => exact ⟨.inCall hmoves, by simp⟩
  | @call limit work rest s t e y hends _ ih =>
    have hlate (i : Nat) (h : (S.late limit work s i && limit.isSome) = true) : limit.isSome = true :=
      (Bool.and_eq_true_iff.1 h).2
    obtain ⟨hsame, he⟩ := ends hdrift hlate hends hx.1
    have hsame : B.spent t = B.spent s := hsame
    have hs : B.spent s + n ≤ B.most := hs
    obtain ⟨hgoes, hend⟩ := ih (hx.2 e he) (show B.spent t + n ≤ B.most by omega)
    exact ⟨.call hends hgoes, hend⟩
  | inFork hmoves => exact ⟨.inFork hmoves, by simp⟩
  | @fork branches rest s t rs y hreports _ ih =>
    obtain ⟨k, m, hkm, hall, hrest⟩ := hx
    have hs : B.spent s + n ≤ B.most := hs
    obtain ⟨hreports, hok, hspent⟩ := reports hdrift hreports hall
      (show B.spent s + k ≤ B.most by omega)
    have hspent : B.spent t ≤ B.spent s + k := hspent
    obtain ⟨hgoes, hend⟩ := ih (hrest rs hok) (show B.spent t + m ≤ B.most by omega)
    exact ⟨.fork hreports hgoes, hend⟩

end Thrifty

/-- A walk that comes to no report that counts cannot be thrifty. -/
theorem Doomed.not_thrifty (h : w.Doomed B.ok) (hF : ∀ r n, F r n → B.ok r)
    (hs : B.spent s + n ≤ B.most) : ¬w.Thrifty B F n := by
  intro hw
  induction h generalizing F n s with
  | done hnot => exact hnot (hF _ n hw)
  | @act f rest _ ih =>
    obtain ⟨m, hm, hrest⟩ := hw s hs
    exact ih s hF (show B.spent (f s) + m ≤ B.most by omega) hrest
  | @branch branches rest i w hi _ ih =>
    obtain ⟨before, after, hbranches, -, -⟩ := exists_around hi
    obtain ⟨k, m, hkm, hall, -⟩ := hw
    rw [hbranches] at hall
    obtain ⟨own, others, hshare, hw', -⟩ := (allThrifty_around before).1 hall
    have hs' : B.spent s + own ≤ B.most := by omega
    exact ih (F := fun r _ => B.ok r) (fun _ _ h => h) hs' hw'

end Walk

/-! ### Pieces -/

variable {α β : Type} {B : Budget σ ρ} {V W : α → Prop} {U : β → Prop} {l m n : Nat} {p : Piece σ ρ α}

/-- The piece has `n` to spend, and leaves `m` to what follows, which it hands values of which `V`
holds. -/
def Piece.Spends (B : Budget σ ρ) (n m : Nat) (V : α → Prop) (p : Piece σ ρ α) : Prop :=
  ∀ (F : ρ → Nat → Prop) (k : α → Walk σ ρ), (∀ a, V a → (k a).Thrifty B F m) →
    (p k).Thrifty B F n

/-- The piece spends nothing. -/
def Piece.Free (B : Budget σ ρ) (V : α → Prop) (p : Piece σ ρ α) : Prop := ∀ n, p.Spends B n n V

/-- The piece hands on only values of which `V` holds. -/
def Piece.Hands (V : α → Prop) (p : Piece σ ρ α) : Prop :=
  ∀ k k' : α → Walk σ ρ, (∀ a, V a → k a = k' a) → p k = p k'

namespace Piece

theorem Spends.bind {f : α → Piece σ ρ β} (h : p.Spends B n m V)
    (hf : ∀ a, V a → (f a).Spends B m l U) : (p >>= f).Spends B n l U :=
  fun F k hk => h F _ fun a ha => hf a ha F k hk

theorem Spends.update {f : σ → α × σ} (h : ∀ s, B.spent s + n ≤ B.most →
    B.spent (f s).2 + m ≤ B.spent s + n ∧ V (f s).1) :
    (Piece.update f : Piece σ ρ α).Spends B n m V :=
  fun _ _ hk s hs => ⟨m, (h s hs).1, hk _ (h s hs).2⟩

namespace Free

theorem pure {a : α} (h : V a) : (Pure.pure a : Piece σ ρ α).Free B V := fun _ _ _ hk => hk a h

theorem bind {f : α → Piece σ ρ β} (h : p.Free B V) (hf : ∀ a, V a → (f a).Free B U) :
    (p >>= f).Free B U := fun n => (h n).bind fun a ha => hf a ha n

theorem modify {f : σ → σ} (h : ∀ s, B.spent (f s) = B.spent s) :
    (Piece.modify f : Piece σ ρ Unit).Free B fun _ => True :=
  fun n _ _ hk s _ => ⟨n, Nat.le_of_eq (congrArg (· + n) (h s)), hk () trivial⟩

theorem read {f : σ → α} (h : ∀ s, V (f s)) : (Piece.read f : Piece σ ρ α).Free B V :=
  fun n _ _ hk s _ => ⟨n, Nat.le_refl _, hk _ (h s)⟩

theorem pause (d : Nanos) : (Piece.pause d : Piece σ ρ Bool).Free B (· = false) :=
  fun _ _ _ hk => hk false rfl

theorem call (limit : Option Nanos) {work : Work σ StepResult}
    (h : work.Keeps fun s t => B.spent t = B.spent s) :
    (Piece.call limit work : Piece σ ρ CallEnd).Free B (·.Open limit) :=
  fun _ _ _ hk => ⟨h, hk⟩

end Free

namespace Hands

theorem any (p : Piece σ ρ α) : p.Hands fun _ => True :=
  fun _ _ h => congrArg p (funext fun a => h a trivial)

theorem pure {a : α} (h : V a) : (Pure.pure a : Piece σ ρ α).Hands V := fun _ _ hk => hk a h

theorem halt (r : ρ) : (Piece.halt r : Piece σ ρ α).Hands V := fun _ _ _ => rfl

theorem bind {f : α → Piece σ ρ β} (h : p.Hands V) (hf : ∀ a, V a → (f a).Hands U) :
    (p >>= f).Hands U := fun k k' hk => h _ _ fun a ha => hf a ha k k' hk

theorem after {f : α → Piece σ ρ β} (hf : ∀ a, (f a).Hands U) : (p >>= f).Hands U :=
  (any p).bind fun a _ => hf a

end Hands

/-- What is known of the values helps what follows to be thrifty. One such value there has to be. -/
theorem Spends.walk {F : ρ → Nat → Prop} {k : α → Walk σ ρ} (h : p.Spends B n m V)
    (hW : p.Hands W) {a₀ : α} (hV₀ : V a₀) (hW₀ : W a₀)
    (hk : ∀ a, V a → W a → (k a).Thrifty B F m) : (p k).Thrifty B F n := by
  classical
  rw [hW k (fun a => if W a then k a else k a₀) fun a ha => (if_pos ha).symm]
  refine h F _ fun a ha => ?_
  split
  · next haW => exact hk a ha haW
  · exact hk a₀ hV₀ hW₀

/-- A walk that begins with the piece and comes to a report goes on from one of those values. -/
theorem Hands.splits {P ok : ρ → Prop} {drift Q : σ → σ → Prop} {S : Schedule σ ρ} (hV : p.Hands V)
    (hp : p.Keeps P Q) (hQ : Spans drift Q) (hP : ∀ r, P r → ¬ok r) {r₀ : ρ} (hr₀ : ¬ok r₀)
    {k : α → Walk σ ρ} {s t : σ} {r : ρ} (h : Walk.Goes drift S ok (p k, s) (some r, t)) :
    ∃ a u, V a ∧ Q s u ∧ p.Reaches drift S ok s a u ∧
      Walk.Goes drift S ok (k a, u) (some r, t) := by
  classical
  rw [hV k (fun a => if V a then k a else .done r₀) fun a ha => (if_pos ha).symm] at h
  obtain ⟨hnone, -⟩ | ⟨a, u, hsu, hreaches, h⟩ :=
    hp.splits (k := fun a => if V a then k a else .done r₀) hQ hP h
  · simp at hnone
  · split at h
    · next ha => exact ⟨a, u, ha, hsu, hreaches, h⟩
    · cases h with
      | done _ hok => exact absurd hok hr₀

end Piece

end DurableWorkflow
