import DurableWorkflow.Proofs.Announce.Owed
import DurableWorkflow.Proofs.System.Accounts
import Mathlib.Data.List.Perm.Subperm
import Mathlib.Logic.Function.Basic

/-!
# Announcements match what is stored

A system in which all coordinators and sweepers have one notifier, no call is dropped, and nobody
else stores or announces anything (`System.Turn`). If the notifier announces every notice, then what
has been announced, together with what the calls under way owe, is what has to be announced of all
that has been stored (`System.Balanced`).
-/

namespace DurableWorkflow

variable {H R : Type} {view : R → Uuid → Option Instance}

namespace Journal

variable {j : Journal} {call : Nat} {s t : Instance} {id : Uuid}

/-- No instance goes, and no identifier is given twice. -/
structure Kept (j : Journal) : Prop where
  unique : j.Unique
  lasts : ∀ e ∈ j, ∀ id, e.deed ≠ .deleted id

theorem current_of_created (h : ∀ e ∈ j, ∀ id, e.deed ≠ .deleted id) (hid : id ∈ j.created) :
    (j.current id).isSome := by
  induction j with
  | nil => cases hid
  | cons e j ih =>
    obtain ⟨call, d⟩ := e
    have hmore (hid : id ∈ created j) : (current j id).isSome :=
      ih (fun e he => h e (List.mem_cons_of_mem _ he)) hid
    cases d with
    | created s =>
      rw [current]
      split
      · rfl
      · next hne =>
        rcases List.mem_cons.1 hid with heq | hid
        · exact absurd heq.symm hne
        · exact hmore hid
    | stored s =>
      rw [current]
      split
      · rfl
      · exact hmore hid
    | read s => exact hmore hid
    | deleted i => exact absurd rfl (h _ List.mem_cons_self i)

theorem Kept.reads (h : j.Kept) (call : Nat) (l : List Instance) :
    Kept (l.map (fun s => ⟨call, .read s⟩) ++ j) := by
  induction l with
  | nil => exact h
  | cons s l ih =>
    refine ⟨ih.unique, fun e he => ?_⟩
    rcases List.mem_cons.1 he with rfl | he
    · exact nofun
    · exact ih.lasts e he

theorem Kept.created (h : j.Kept) (hnew : j.current s.id = none) :
    Kept (⟨call, .created s⟩ :: j) := by
  refine ⟨List.nodup_cons.2 ⟨fun hid => ?_, h.unique⟩, fun e he => ?_⟩
  · have hsome := current_of_created h.lasts hid
    rw [hnew] at hsome
    cases hsome
  · rcases List.mem_cons.1 he with rfl | he
    · exact nofun
    · exact h.lasts e he

theorem Kept.stored (h : j.Kept) : Kept (⟨call, .stored s⟩ :: j) := by
  refine ⟨h.unique, fun e he => ?_⟩
  rcases List.mem_cons.1 he with rfl | he
  · exact nofun
  · exact h.lasts e he

/-- A version is replaced that the call knows. -/
theorem Kept.replaces (h : Kept (⟨call, .stored s⟩ :: j)) (hlegal : Legal (⟨call, .stored s⟩ :: j))
    {known : List Instance} (hknown : ∀ u ∈ known, j.Knows call u) (hs : s.WellFormed) :
    ∃ t, j.current s.id = some t ∧ Owing.Replaces known t s := by
  obtain ⟨⟨t, ht, -, hrevision, -⟩, hj⟩ := hlegal
  refine ⟨t, ht, current_id ht, hrevision, fun u hu hid hsame => ?_, hs⟩
  obtain ⟨d, hd, hversion⟩ := hknown u hu
  rw [← current_id ht, ← hid] at ht
  rcases hj.later_of_version h.unique.tail hd hversion ht with heq | hlater
  · exact heq.symm
  · omega

end Journal

namespace Owing

/-- What a step of a call does to the balance: what is announced is no longer owed, and what is
stored has to be announced. -/
structure Settles (call : Nat) (w v : World (Journaled R) H) (p q : Owing) : Prop where
  kept : v.store.journal.Kept
  known : ∀ s ∈ q.known, s ∈ p.known ∨ v.store.journal.Knows call s
  balance : ∀ e, v.told.count e + q.debts.count e + w.store.journal.dues.count e =
    w.told.count e + p.debts.count e + v.store.journal.dues.count e

variable {C : Type} {call : Nat} {w v : World (Journaled R) H} {p q : Owing}

/-- Nothing is stored or announced. -/
theorem Settles.same (hkept : w.store.journal.Kept) (hjournal : v.store.journal = w.store.journal)
    (htold : v.told = w.told) : Settles call w v p p where
  kept := hjournal ▸ hkept
  known _ hs := .inl hs
  balance e := by rw [hjournal, htold]

theorem Does.settles (h : Does call w v p q) (hkept : w.store.journal.Kept)
    (hlegal : v.store.journal.Unique → v.store.journal.Legal) (hv : v.store.journal.WellFormed)
    (hknown : ∀ s ∈ p.known, w.store.journal.Knows call s) : Settles call w v p q := by
  cases h with
  | look l hjournal htold =>
    refine ⟨hjournal ▸ hkept.reads call l, fun s hs => .inr ?_, fun e => ?_⟩
    · rw [hjournal]
      exact ⟨.read s, List.mem_append_left _ (List.mem_map.2 ⟨s, hs, rfl⟩), rfl⟩
    · rw [hjournal, Journal.dues_reads, htold]
  | create s hnew hjournal htold =>
    refine ⟨hjournal ▸ hkept.created hnew, fun s hs => .inl hs, fun e => ?_⟩
    rw [hjournal, htold]
    rfl
  | @store s debts hclear hjournal hdebts htold =>
    rw [hjournal] at hlegal hv
    have hkept' : Journal.Kept (⟨call, .stored s⟩ :: w.store.journal) := hkept.stored
    obtain ⟨t, ht, hreplaces⟩ := hkept'.replaces (hlegal hkept'.unique) hknown
      (hv _ List.mem_cons_self s rfl)
    refine ⟨hjournal ▸ hkept', fun s hs => .inl hs, fun e => ?_⟩
    have hnone : p.debts = [] := hclear
    rw [hjournal, Journal.dues_stored ht, hdebts t hreplaces, htold, hnone, List.count_append]
    simp only [List.count_nil]
    omega
  | pay es hdebts hjournal htold =>
    refine ⟨hjournal ▸ hkept, fun s hs => .inl hs, fun e => ?_⟩
    rw [hjournal, htold, hdebts, List.count_append, List.count_append, List.count_reverse]
    simp only
    omega

/-- A checkpoint has not to be announced. -/
theorem Settles.saves (h : w.Saves call v) (htold : v.told = w.told)
    (hkept : w.store.journal.Kept)
    (hlegal : v.store.journal.Unique → v.store.journal.Legal) (hv : v.store.journal.WellFormed)
    (hknown : ∀ s ∈ p.known, w.store.journal.Knows call s) : Settles call w v p p := by
  rcases h with hjournal | ⟨s, hjournal, hstatus, hdelivered⟩
  · exact .same hkept hjournal htold
  · rw [hjournal] at hlegal hv
    have hkept' : Journal.Kept (⟨call, .stored s⟩ :: w.store.journal) := hkept.stored
    obtain ⟨t, ht, -⟩ := hkept'.replaces (hlegal hkept'.unique) hknown
      (hv _ List.mem_cons_self s rfl)
    refine ⟨hjournal ▸ hkept', fun s hs => .inl hs, fun e => ?_⟩
    rw [hjournal, Journal.dues_stored ht, Instance.dues_of_checkpoint hstatus hdelivered, htold]
    rfl

theorem sees_settles {α : Type}
    {c : Course (World (Journaled R) H) (Board C H Instance) Report α}
    (h : (owing C H view call).Sees c p w v q) (hkept : w.store.journal.Kept)
    (hlegal : v.store.journal.Unique → v.store.journal.Legal) (hv : v.store.journal.WellFormed)
    (hknown : ∀ s ∈ p.known, w.store.journal.Knows call s) : Settles call w v p q := by
  cases h with
  | act _ hdoes => exact hdoes.settles hkept hlegal hv hknown
  | pace _ _ hpace => exact .saves hpace.2 hpace.1 hkept hlegal hv hknown
  | land _ _ hsame =>
    subst hsame
    exact .same hkept rfl rfl

end Owing

namespace Demand

/-- A call of a coordinator, a dispatcher or a sweeper with this notifier. -/
def Through (n : Notifier) : Demand H R → Prop
  | start c .. | signal c .. | resume c .. | cancel c .. => c.notifier = n
  | dispatch d .. => ∀ c ∈ d.targets, c.notifier = n
  | sweep sweeper _ => sweeper.notifier = n
  | delete .. => False

/-- Every call pays what it owes. -/
theorem course_pays {demand : Demand H R} (hon : demand.On view) (h : demand.Through .announcing)
    (call : Nat) : (demand.course call).Abides (owing demand.Context H view call)
      (fun _ => Owing.Clear) Owing.Clear {} := by
  have hends {α : Type} : ∀ (r : Except CoordinatorError α) (p : Owing),
      Ends (fun _ => Owing.Clear) (fun _ => Owing.Clear) r p → p.Clear := by
    intro r p hr
    cases r <;> exact hr
  have hclear : Owing.Clear {} := rfl
  cases demand with
  | start c operation definition context =>
    exact Course.Abides.mono (Coordinator.start_pays hon h hclear definition context) hends
  | signal c operation id name payload =>
    exact Course.Abides.mono (Coordinator.signal_pays hon h hclear name payload) hends
  | resume c operation id => exact Course.Abides.mono (Coordinator.resume_pays hon h hclear) hends
  | cancel c operation id => exact Course.Abides.mono (Coordinator.cancel_pays hon hclear) hends
  | dispatch d operation id name payload =>
    exact Course.Abides.mono (Dispatcher.dispatch_pays (fun c hc => ⟨hon.2 c hc, h c hc⟩) hclear name
      payload) hends
  | sweep sweeper now => exact Sweeper.sweep_pays h hclear now
  | delete => exact h.elim

end Demand

/-- The call has come to its end, or has crashed. -/
def Thread.Over (th : Thread H R) : Prop :=
  match th.course with
  | .done _ | .crash _ => True
  | _ => False

/-- At this stage of what it owes the call pays as it should. -/
def Thread.Pays (view : R → Uuid → Option Instance) (th : Thread H R) (p : Owing) : Prop :=
  th.course.Abides (owing th.demand.Context H view th.number) (fun _ => Owing.Clear) Owing.Clear p

theorem Thread.Pays.clear {th : Thread H R} {p : Owing} (h : th.Pays view p) (hover : th.Over) :
    p.Clear := by
  unfold Over at hover
  unfold Pays at h
  split at hover
  · next heq =>
    rw [heq] at h
    exact h
  · next heq =>
    rw [heq] at h
    exact h
  · exact hover.elim

namespace System

/-- A step of a system in which all have this notifier, no call is dropped, and nobody else stores
or announces anything. -/
inductive Turn (view : R → Uuid → Option Instance) (n : Notifier) : System H R → System H R → Prop
  | call (σ : System H R) (demand : Demand H R) (hon : demand.On view) (h : demand.Through n) :
    Turn view n σ { σ with
      threads := .begin σ.calls demand :: σ.threads
      calls := σ.calls + 1 }
  | move (l r : List (Thread H R)) (th : Thread H R) (calls : Nat) (w w' : World (Journaled R) H)
    (course : Errand th.demand.Context H (Journaled R) th.demand.Answer)
    (h : Course.Step (th.course, w) (course, w')) :
    Turn view n ⟨w, l ++ th :: r, calls⟩ ⟨w', l ++ { th with course } :: r, calls⟩
  | outside (σ : System H R) (w : World (Journaled R) H) (hstore : w.store = σ.world.store)
    (hannounced : w.announced = σ.world.announced) (hnotices : w.notices = σ.world.notices) :
    Turn view n σ { σ with world := w }

abbrev Turns (view : R → Uuid → Option Instance) (n : Notifier) : System H R → System H R → Prop :=
  Relation.ReflTransGen (Turn view n)

variable {σ σ' : System H R} {n : Notifier}

theorem Turn.step (h : Turn view n σ σ') : Step view σ σ' := by
  cases h with
  | call _ demand hon => exact .call σ demand hon
  | move l r th calls w w' course h => exact .move l r th calls w w' course h
  | outside _ w hstore => exact .outside σ w hstore

/-- What these calls owe at their stages. -/
def owed (f : Nat → Owing) (threads : List (Thread H R)) : List Event :=
  (threads.map fun th => (f th.number).debts).flatten

theorem owed_congr {f f' : Nat → Owing} {threads : List (Thread H R)}
    (h : ∀ th ∈ threads, f' th.number = f th.number) : owed f' threads = owed f threads := by
  unfold owed
  rw [List.map_congr_left fun th hth => by rw [h th hth]]

theorem owed_append (f : Nat → Owing) (l r : List (Thread H R)) :
    owed f (l ++ r) = owed f l ++ owed f r := by
  simp [owed]

theorem owed_cons (f : Nat → Owing) (th : Thread H R) (r : List (Thread H R)) :
    owed f (th :: r) = (f th.number).debts ++ owed f r := rfl

/-- The calls under way are at these stages, by their numbers, and what has been announced and what
they owe is what has to be announced. -/
structure Owes (view : R → Uuid → Option Instance) (σ : System H R) (f : Nat → Owing) : Prop where
  pays : ∀ th ∈ σ.threads, th.Pays view (f th.number)
  known : ∀ th ∈ σ.threads, ∀ s ∈ (f th.number).known, σ.journal.Knows th.number s
  balance : ∀ e, σ.world.told.count e + (owed f σ.threads).count e = σ.journal.dues.count e

/-- The invariant. -/
structure Balanced (view : R → Uuid → Option Instance) (σ : System H R) : Prop
    extends Accounted view σ where
  kept : σ.journal.Kept
  owes : ∃ f, Owes view σ f

theorem Initial.balanced (h : Initial view σ) (hsilent : σ.world.announced = []) :
    Balanced view σ where
  toAccounted := h.accounted
  kept := by
    rw [h.journal]
    exact ⟨List.nodup_nil, fun _ h => nomatch h⟩
  owes := by
    refine ⟨fun _ => {}, ?_, ?_, fun e => ?_⟩
    · simp [h.threads]
    · simp [h.threads]
    · simp [World.told, hsilent, owed, h.threads, h.journal, Journal.dues]

theorem Balanced.turn (h : Balanced view σ) (hturn : Turn view .announcing σ σ') :
    Balanced view σ' := by
  have haccounted := h.toAccounted.step hturn.step
  obtain ⟨f, hpays, hknown, hbalance⟩ := h.owes
  cases hturn with
  | call _ demand hon hthrough =>
    let f' := Function.update f σ.calls {}
    have hother (th : Thread H R) (hth : th ∈ σ.threads) : f' th.number = f th.number :=
      Function.update_of_ne (Nat.ne_of_lt (h.numbered th hth)) _ _
    have hnew : f' σ.calls = {} := Function.update_self _ _ _
    refine ⟨haccounted, h.kept, f', fun th hth => ?_, fun th hth => ?_, fun e => ?_⟩
    · rcases List.mem_cons.1 hth with rfl | hth
      · show Thread.Pays view _ (f' σ.calls)
        rw [hnew]
        exact Demand.course_pays hon hthrough _
      · rw [hother th hth]
        exact hpays th hth
    · rcases List.mem_cons.1 hth with rfl | hth
      · show ∀ s ∈ (f' σ.calls).known, _
        rw [hnew]
        exact fun _ h => nomatch h
      · rw [hother th hth]
        exact hknown th hth
    · show _ + ((f' σ.calls).debts ++ owed f' σ.threads).count e = _
      rw [hnew, owed_congr hother]
      exact hbalance e
  | move l r th calls w w' course hmove =>
    have hth : th ∈ l ++ th :: r := by simp
    obtain ⟨q, hsees, hcourse⟩ := (hpays th hth).step hmove h.told
    obtain ⟨hkept, hknown', hsettled⟩ := Owing.sees_settles hsees h.kept haccounted.told.legal
      haccounted.wellFormed (hknown th hth)
    obtain ⟨-, hnotes, -⟩ := (h.behaves th hth).step hmove h.told
    let f' := Function.update f th.number q
    have hother (t : Thread H R) (ht : t ∈ l ++ r) : f' t.number = f t.number :=
      Function.update_of_ne (ne_of_distinct h.distinct ht) _ _
    have hnew : f' th.number = q := Function.update_self _ _ _
    refine ⟨haccounted, hkept, f', fun t ht => ?_, fun t ht => ?_, fun e => ?_⟩
    · rcases mem_middle.1 ht with rfl | ht
      · show Thread.Pays view _ (f' th.number)
        rw [hnew]
        exact hcourse
      · rw [hother t ht]
        exact hpays t (mem_middle.2 (.inr ht))
    · rcases mem_middle.1 ht with rfl | ht
      · show ∀ s ∈ (f' th.number).known, _
        rw [hnew]
        intro s hs
        rcases hknown' s hs with hs | hs
        · exact hnotes.grows.knows (hknown th hth s hs)
        · exact hs
      · rw [hother t ht]
        exact fun s hs => hnotes.grows.knows (hknown t (mem_middle.2 (.inr ht)) s hs)
    · have hbefore : w.told.count e + (owed f (l ++ th :: r)).count e =
          w.store.journal.dues.count e := hbalance e
      have hafter : w'.told.count e + q.debts.count e + w.store.journal.dues.count e =
          w.told.count e + (f th.number).debts.count e + w'.store.journal.dues.count e := hsettled e
      have hl : owed f' l = owed f l := owed_congr fun t ht => hother t (List.mem_append_left _ ht)
      have hr : owed f' r = owed f r := owed_congr fun t ht => hother t (List.mem_append_right _ ht)
      rw [owed_append, owed_cons, List.count_append, List.count_append] at hbefore
      show w'.told.count e + (owed f' (l ++ { th with course } :: r)).count e =
        w'.store.journal.dues.count e
      rw [owed_append, owed_cons, hl, hr, List.count_append, List.count_append, hnew]
      omega
  | outside _ w hstore hannounced hnotices =>
    have hjournal : w.store.journal = σ.journal := by rw [hstore, journal]
    refine ⟨haccounted, ?_, f, hpays, ?_, fun e => ?_⟩
    · show w.store.journal.Kept
      rw [hjournal]
      exact h.kept
    · show ∀ th ∈ σ.threads, ∀ s ∈ _, w.store.journal.Knows th.number s
      rw [hjournal]
      exact hknown
    · show w.told.count e + _ = w.store.journal.dues.count e
      rw [World.told, hannounced, hjournal]
      exact hbalance e

theorem Balanced.turns (h : Balanced view σ) (hturns : Turns view .announcing σ σ') :
    Balanced view σ' := by
  induction hturns with
  | refl => exact h
  | tail _ hturn ih => exact ih.turn hturn

/-- Nothing is announced but what has to be, because it has been stored, and each of it once. -/
theorem Balanced.subperm (h : Balanced view σ) : σ.world.told.Subperm σ.journal.dues := by
  obtain ⟨f, -, -, hbalance⟩ := h.owes
  exact List.subperm_iff_count.2 fun e => by have := hbalance e; omega

/-- When all calls are over, everything has been announced. -/
theorem Balanced.perm (h : Balanced view σ) (hover : ∀ th ∈ σ.threads, th.Over) :
    σ.world.told.Perm σ.journal.dues := by
  obtain ⟨f, hpays, -, hbalance⟩ := h.owes
  have hnothing : owed f σ.threads = [] := by
    refine List.flatten_eq_nil_iff.2 fun l hl => ?_
    obtain ⟨th, hth, rfl⟩ := List.mem_map.1 hl
    exact (hpays th hth).clear (hover th hth)
  refine List.perm_iff_count.2 fun e => ?_
  rw [← hbalance e, hnothing]
  rfl

end System

end DurableWorkflow
