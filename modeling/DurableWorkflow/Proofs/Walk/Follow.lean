import DurableWorkflow.Proofs.Walk.Thrift

/-!
# Walks that follow others

Two walks that agree come to reports that are alike, if both come to one. The second may be doomed
where the first is not. But if it is thrifty, it is not doomed, and comes to whatever the first comes
to: it has the same turns to take (`Agree.follows`).
-/

namespace DurableWorkflow

variable {σ ρ : Type}

/-- The budget by which the reports count that are compared. -/
abbrev Likeness.budget (L : Likeness σ ρ) (spent : σ → Nat) (most : Nat) : Budget σ ρ :=
  ⟨spent, most, L.ok⟩

namespace Walk.Agree

variable {L : Likeness σ ρ} {spent : σ → Nat} {most : Nat} {F : ρ → Nat → Prop}
  {S : Option (Schedule σ ρ)} {drift : σ → σ → Prop} {w v w' : Walk σ ρ} {n : Nat}
  {branches : List (Walk σ ρ)}

theorem All.at {bs : List (Walk σ ρ)} (h : All L bs branches) {i : Nat} (hw : bs[i]? = some w) :
    ∃ v, branches[i]? = some v ∧ Agree L none w v := by
  obtain ⟨hlt, -⟩ := List.getElem?_eq_some_iff.1 hw
  have hlt' : i < branches.length := h.1 ▸ hlt
  exact ⟨branches[i], List.getElem?_eq_getElem hlt', h.2 i w _ hw (List.getElem?_eq_getElem hlt')⟩

theorem share {B : Budget σ ρ} {i : Nat} (hv : branches[i]? = some v) (h : allThrifty B branches n) :
    ∃ k ≤ n, v.Thrifty B (fun r _ => B.ok r) k := by
  obtain ⟨before, after, hbranches, -, -⟩ := exists_around hv
  rw [hbranches] at h
  obtain ⟨k, m, hkm, hv, -⟩ := (allThrifty_around before).1 h
  exact ⟨k, by omega, hv⟩

theorem done_of_done {r : ρ} {t : σ} (h : Agree L S (.done r) v) (hr : L.ok r)
    (hF : ∀ r n, F r n → L.ok r) (hv : v.Thrifty (L.budget spent most) F n)
    (ht : spent t + n ≤ most) : ∃ r', v = .done r' ∧ L.ok r' ∧ L.report r r' := by
  cases h with
  | left h =>
    cases h with
    | done hnot => exact absurd hr hnot
  | right h => exact (h.not_thrifty hF ht hv).elim
  | done h => exact ⟨_, rfl, hF _ _ hv, h⟩

/-- If the second walk is thrifty it goes on as the first one does, unless that is doomed. -/
theorem follows_cued {c : Cue} {s s' t : σ} (h : Agree L none w v) (hst : L.state s t)
    (hw : Cued L.ok c (w, s) (w', s')) (hF : ∀ r n, F r n → L.ok r)
    (hv : v.Thrifty (L.budget spent most) F n) (ht : spent t + n ≤ most) :
    w'.Doomed L.ok ∨ ∃ v' t', Cued L.ok c (v, t) (v', t') ∧ Agree L none w' v' ∧ L.state s' t' := by
  induction h generalizing c s t w' s' F n with
  | left h => exact .inl (Doomed.cued hw h)
  | right h => exact (h.not_thrifty hF ht hv).elim
  | done => cases hw
  | act hact hrest =>
    cases hw
    exact .inr ⟨_, _, .act .., hrest s t hst, hact s t hst⟩
  | pause d hrest =>
    cases hw
    exact .inr ⟨_, _, .pause .., hrest, hst⟩
  | @call limit work work' rest rest' hwork _ hrest =>
    have hboth := hwork.turn (c.late && limit.isSome) hst
    cases hturn' : work'.turn (c.late && limit.isSome) t with
    | mk left t' =>
      cases hw with
      | ended _ hturn =>
        rw [hturn, hturn'] at hboth
        obtain ⟨hend, hst'⟩ := hboth
        cases hend with
        | inl heq =>
          cases heq
          exact .inr ⟨_, _, .ended _ hturn', hrest _, hst'⟩
      | work _ hturn =>
        rw [hturn, hturn'] at hboth
        obtain ⟨hleft, hst'⟩ := hboth
        cases hleft with
        | inr hagree => exact .inr ⟨_, _, .work _ hturn', .call limit hagree (by simp) hrest, hst'⟩
  | @fork bs bs' rest rest' hlength hbranches _ hrest ih _ =>
    have hall : All L bs bs' := ⟨hlength, hbranches⟩
    obtain ⟨k, m, hkm, hthrifty, -⟩ := hv
    cases hw with
    | @branch _ _ b b' _ _ _ hb hcued =>
      obtain ⟨u, hu, hagree⟩ := hall.at hb
      obtain ⟨own, hown, hu'⟩ := share hu hthrifty
      obtain hdoomed | ⟨u', t', hcued', hagree', hst'⟩ :=
        ih _ _ _ hb hu hst hcued (fun _ _ h => h) hu' (by omega)
      · obtain ⟨hlt, -⟩ := List.getElem?_eq_some_iff.1 hb
        exact .inl (.branch (List.getElem?_set_self hlt) hdoomed)
      · exact .inr ⟨_, t', .branch _ hu hcued', .fork (hall.set hagree').1 (hall.set hagree').2
          (by simp) hrest, hst'⟩
    | report _ _ hr hok =>
      obtain ⟨u, hu, hagree⟩ := hall.at hr
      obtain ⟨own, hown, hu'⟩ := share hu hthrifty
      obtain ⟨r', rfl, hok', hreport⟩ :=
        hagree.done_of_done (t := t) hok (fun _ _ h => h) hu' (by omega)
      exact .inr ⟨_, t, .report _ t hu hok', .fork hall.erase.1 hall.erase.2 (by simp)
        fun rs rs' hrs => hrest _ _ (.cons hreport hrs), hst⟩
    | join =>
      obtain rfl := hall.nil
      exact .inr ⟨_, t, .join .., hrest [] [] .nil, hst⟩

/-- The second fork comes to reports like those of the first. -/
theorem follows_reports
    (hdrift : ∀ ⦃s t s' t'⦄, L.state s t → drift s s' → drift t t' → L.state s' t')
    (hrefl : ∀ s, drift s s) {cues : Nat → Cue} {i : Nat} {x : List (Walk σ ρ) × σ} {y : List ρ × σ}
    (hx : Reports drift L.ok cues i x y) {t : σ} (h : All L x.1 branches) (hst : L.state x.2 t)
    (hv : allThrifty (L.budget spent most) branches n) (ht : spent t + n ≤ most) :
    ∃ y', Reports drift L.ok cues i (branches, t) y' ∧ List.Forall₂ L.report y.1 y'.1 ∧
      L.state y.2 y'.2 := by
  induction hx generalizing branches t n with
  | all i s =>
    obtain rfl := h.nil
    exact ⟨_, .all i t, .nil, hst⟩
  | @branch i bs b b' s s' u y hs hb hcued hrest ih =>
    obtain ⟨v, hv', hagree⟩ := h.at hb
    obtain ⟨before, after, hbranches, hset, -⟩ := exists_around hv'
    rw [hbranches] at hv
    obtain ⟨own, others, hshare, hown, hothers⟩ := (allThrifty_around before).1 hv
    have hst := hdrift hst hs (hrefl t)
    obtain hdoomed | ⟨v', t', hcued', hagree', hst'⟩ :=
      hagree.follows_cued hst hcued (fun _ _ h => h) hown (by omega)
    · -- All branches of the first fork have reported, so none of them is doomed.
      obtain ⟨hlt, -⟩ := List.getElem?_eq_some_iff.1 hb
      exact (Doomed.not_reports hrest (List.getElem?_set_self hlt) hdoomed).elim
    · obtain ⟨-, left, hleft, hown'⟩ := Thrifty.cued (hcued'.mono fun _ _ => trivial) hown
        (show spent t + own ≤ most by omega)
      have hleft : spent t' + left ≤ spent t + own := hleft
      obtain ⟨y', hreports, halike⟩ := ih (h.set hagree') hst' (n := left + others)
        (by
          rw [hset]
          exact (allThrifty_around before).2 ⟨left, others, Nat.le_refl _, hown', hothers⟩)
        (by omega)
      exact ⟨y', .branch (hrefl t) hv' hcued' hreports, halike⟩
  | @report i bs r rs s u hr hok _ ih =>
    obtain ⟨v, hv', hagree⟩ := h.at hr
    obtain ⟨before, after, hbranches, -, herase⟩ := exists_around hv'
    rw [hbranches] at hv
    obtain ⟨own, others, hshare, hown, hothers⟩ := (allThrifty_around before).1 hv
    obtain ⟨r', rfl, hok', hreport⟩ :=
      hagree.done_of_done (t := t) hok (fun _ _ h => h) hown (by omega)
    obtain ⟨⟨rs', u'⟩, hreports, hrs, hstate⟩ := ih h.erase hst (n := others)
      (by rw [herase]; exact hothers) (by omega)
    exact ⟨_, .report hv' hok' hreports, .cons hreport hrs, hstate⟩

theorem follows_ends
    (hdrift : ∀ ⦃s t s' t'⦄, L.state s t → drift s s' → drift t t' → L.state s' t')
    (hrefl : ∀ s, drift s s) {late : Nat → Bool} {i : Nat} {x : Work σ StepResult × σ}
    {y : CallEnd × σ} (hx : Work.Ends drift late i x y) {work : Work σ StepResult} {t : σ}
    (h : x.1.Agree L.state work) (hst : L.state x.2 t) :
    ∃ t', Work.Ends drift late i (work, t) (y.1, t') ∧ L.state y.2 t' := by
  induction hx generalizing work t with
  | @ended i work₀ s s' u e hs hturn =>
    have hboth := h.turn (late i) (hdrift hst hs (hrefl t))
    cases hturn' : work.turn (late i) t with
    | mk left t' =>
      rw [hturn, hturn'] at hboth
      obtain ⟨hend, hst'⟩ := hboth
      cases hend with
      | inl heq =>
        cases heq
        exact ⟨t', .ended (hrefl t) hturn', hst'⟩
  | @next i work₀ work' s s' u y hs hturn _ ih =>
    have hboth := h.turn (late i) (hdrift hst hs (hrefl t))
    cases hturn' : work.turn (late i) t with
    | mk left t' =>
      rw [hturn, hturn'] at hboth
      obtain ⟨hleft, hst'⟩ := hboth
      cases hleft with
      | inr hagree =>
        obtain ⟨t'', hends, hstate⟩ := ih hagree hst'
        exact ⟨t'', .next (hrefl t) hturn' hends, hstate⟩

/-- A thrifty walk comes to a report like that of a walk with which it agrees. -/
theorem follows {T : Schedule σ ρ}
    (hdrift : ∀ ⦃s t s' t'⦄, L.state s t → drift s s' → drift t t' → L.state s' t')
    (hrefl : ∀ s, drift s s) (hspent : ∀ ⦃s t⦄, drift s t → spent t = spent s)
    (h : Agree L (some T) w v) {s s' t : σ} {r : ρ} (hst : L.state s t)
    (hw : Walk.Goes drift T L.ok (w, s) (some r, s')) (hF : ∀ r n, F r n → L.ok r)
    (hv : v.Thrifty (L.budget spent most) F n) (ht : spent t + n ≤ most) :
    ∃ r' t', Walk.Goes drift T L.ok (v, t) (some r', t') ∧ L.report r r' ∧ L.state s' t' := by
  induction h generalizing s t n with
  | left h => exact absurd (Doomed.not_goes hw h) (by simp)
  | right h => exact (h.not_thrifty hF ht hv).elim
  | done h =>
    cases hw with
    | done hs => exact ⟨_, t, .done (hrefl t) (hF _ _ hv), h, hdrift hst hs (hrefl t)⟩
  | act hact _ ih =>
    cases hw with
    | act hs hw =>
      have hst := hdrift hst hs (hrefl t)
      obtain ⟨m, hm, hrest⟩ := hv t ht
      obtain ⟨r', t', hgoes, halike⟩ := ih _ t hst (hact _ _ hst) hw hrest
        (Nat.le_trans hm ht)
      exact ⟨r', t', .act (hrefl t) hgoes, halike⟩
  | pause d _ ih =>
    cases hw with
    | pause hw =>
      obtain ⟨r', t', hgoes, halike⟩ := ih hst hw hv ht
      exact ⟨r', t', .pause hgoes, halike⟩
  | @call limit work work' rest rest' hwork hlate _ ih =>
    cases hw with
    | @call _ _ _ _ u e _ hends hw =>
      -- The schedule lets both calls be late at the same turns, so they end alike.
      have hsame : (fun n => T.late limit work s n && limit.isSome) =
          fun n => T.late limit work' t n && limit.isSome := funext fun n => by
        cases limit with
        | none => simp
        | some d => rw [hlate T rfl s t hst rfl]
      rw [hsame] at hends
      obtain ⟨t', hends', hst'⟩ := follows_ends hdrift hrefl hends hwork hst
      obtain ⟨hkeep, he⟩ := Thrifty.ends (B := L.budget spent most) hspent
        (fun i hi => (Bool.and_eq_true_iff.1 hi).2) hends' hv.1
      have hkeep : spent t' = spent t := hkeep
      obtain ⟨r', t'', hgoes, halike⟩ := ih e hst' hw (hv.2 e he) (by omega)
      exact ⟨r', t'', .call hends' hgoes, halike⟩
  | @fork bs bs' rest rest' hlength hbranches hcues _ _ ih =>
    cases hw with
    | fork hreports hw =>
      obtain ⟨k, m, hkm, hall, hrest⟩ := hv
      rw [hcues T rfl s t hst] at hreports
      obtain ⟨⟨rs', t'⟩, hreports', hrs, hst'⟩ := follows_reports hdrift hrefl hreports
        ⟨hlength, fun i w v hw hv => (hbranches i w v hw hv).begun⟩ hst hall (by omega)
      obtain ⟨-, hok, hsum⟩ := Thrifty.reports (B := L.budget spent most) hspent
        (hreports'.mono fun _ _ => trivial) hall (show spent t + k ≤ most by omega)
      have hsum : spent t' ≤ spent t + k := hsum
      obtain ⟨r', t'', hgoes, halike⟩ := ih _ _ hrs hst' hw (hrest rs' hok)
        (show spent t' + m ≤ most by omega)
      exact ⟨r', t'', .fork hreports' hgoes, halike⟩

end Walk.Agree

end DurableWorkflow
