import DurableWorkflow.Proofs.Coordinator.Abides
import DurableWorkflow.Proofs.Coordinator.Accounts
import DurableWorkflow.Proofs.Coordinator.Hold

/-!
# What has to be announced

Of each version that is stored in the place of another one it is said what has to be announced of
the change. So a journal tells what has to have been announced in the end (`Journal.dues`), to be
compared with what has been announced of instances so far (`World.told`), which is all but what runs
announce themselves.
-/

namespace DurableWorkflow

variable {H R : Type}

namespace Instance

/-- What has to be announced when the version `s` is stored in the place of `t`: that a signal was
accepted, and what the instance has come to. -/
def announcements (t s : Instance) : List Happening :=
  match s.status with
  | .created => []
  | .running =>
    if t.status = .waiting then s.delivered.toList.map fun d => .runResumed d.name else []
  | .waiting => [.approvalRequested s.workflow (s.awaited.getD "") s.deadline]
  | .completed | .failed => [.instanceFinished s.workflow s.status s.error]
  | .timedOut =>
    [.runTimedOut (t.awaited.getD ""), .instanceFinished s.workflow .timedOut s.error]
  | .cancelled => [.runCancelled]

/-- The same as events. -/
def dues (t s : Instance) : List Event := (t.announcements s).map (Event.mk s.id)

/-- A checkpoint is not announced. -/
theorem dues_of_checkpoint {s : Instance} (hs : s.status = .running) (hd : s.delivered = none)
    (t : Instance) : t.dues s = [] := by
  simp [dues, announcements, hs, hd]

theorem dues_running {t s : Instance} (ht : t.status ≠ .waiting) (hs : s.status = .running) :
    t.dues s = [] := by
  simp [dues, announcements, hs, ht]

theorem dues_accepted {t s : Instance} (signal : Signal) (ht : t.status = .waiting)
    (hs : s.status = .running) (hd : s.delivered = some signal) :
    t.dues s = [⟨s.id, .runResumed signal.name⟩] := by
  simp [dues, announcements, hs, ht, hd]

theorem dues_waiting {s : Instance} {signal : String} (hs : s.status = .waiting)
    (ha : s.awaited = some signal) (t : Instance) :
    t.dues s = [⟨s.id, .approvalRequested s.workflow signal s.deadline⟩] := by
  simp [dues, announcements, hs, ha]

theorem dues_finished {s : Instance} (hs : s.status = .completed ∨ s.status = .failed)
    (t : Instance) : t.dues s = Notifier.finished s s.error := by
  rcases hs with hs | hs <;> simp [dues, announcements, hs, Notifier.finished]

theorem dues_timedOut {s : Instance} (hs : s.status = .timedOut) (t : Instance) :
    t.dues s = ⟨s.id, .runTimedOut (t.awaited.getD "")⟩ :: Notifier.finished s s.error := by
  simp [dues, announcements, hs, Notifier.finished]

theorem dues_cancelled {s : Instance} (hs : s.status = .cancelled) (t : Instance) :
    t.dues s = [⟨s.id, .runCancelled⟩] := by
  simp [dues, announcements, hs]

end Instance

namespace Journal

/-- All that has to be announced of what has been stored, the latest first. -/
def dues : Journal → List Event
  | [] => []
  | ⟨_, .stored s⟩ :: j => ((current j s.id).elim [] fun t => t.dues s) ++ dues j
  | ⟨_, .created _⟩ :: j | ⟨_, .read _⟩ :: j | ⟨_, .deleted _⟩ :: j => dues j

variable {j l : Journal} {call : Nat} {s t : Instance}

theorem dues_stored (h : j.current s.id = some t) :
    dues (⟨call, .stored s⟩ :: j) = t.dues s ++ j.dues := by
  rw [dues, h, Option.elim_some]

theorem dues_reads (call : Nat) (l : List Instance) (j : Journal) :
    dues (l.map (fun s => ⟨call, .read s⟩) ++ j) = j.dues := by
  induction l with
  | nil => rfl
  | cons s l ih => exact ih

end Journal

namespace World

/-- What has been announced of instances, the latest first. -/
def told (w : World R H) : List Event := w.announced.filter fun e => !e.what.isOfRun

variable {w : World R H} {e : Event}

theorem told_publish_ofRun (h : e.what.isOfRun = true) : (w.publish e).told = w.told := by
  simp [told, publish, h]

theorem told_publish (h : e.what.isOfRun = false) : (w.publish e).told = e :: w.told := by
  simp [told, publish, h]

end World

/-- What a notice announces is about instances. -/
theorem Notifier.events_not_ofRun {notice : Notice} {es : List Event}
    (h : Notifier.events notice = .ok es) : ∀ e ∈ es, e.what.isOfRun = false := by
  intro e he
  cases notice with
  | approvalRequested s =>
    simp only [events] at h
    split at h
    · cases h
      rw [List.mem_singleton.1 he]
      rfl
    · cases h
  | completed s | errored s =>
    cases h
    rw [List.mem_singleton.1 he]
    rfl

/-- Who announces every notice announces this of it. -/
theorem World.told_tell {notice : Notice} {es : List Event} (h : Notifier.events notice = .ok es)
    (w : World R H) : (Notifier.announcing.tell notice w).told = es.reverse ++ w.told := by
  have hall : es.reverse.filter (fun e => !e.what.isOfRun) = es.reverse :=
    List.filter_eq_self.2 fun e he => by
      rw [Notifier.events_not_ofRun h e (List.mem_reverse.1 he)]
      rfl
  have hhear : Notifier.announcing.hear notice (w.announced, w.notices) =
      (es.reverse ++ w.announced, w.notices + 1) := by
    simp only [Notifier.hear, Notifier.announcing, h]
  rw [Notifier.tell_eq, hhear, told, List.filter_append, hall]
  rfl

end DurableWorkflow

/-!
### What a call owes

A call that has stored a version owes what has to be announced of it, until it has announced it. It
does so before it does anything else of the kind, so it owes nothing when it ends, when it is
refused, and where it crashes; and nothing is announced of an instance that is not owed.

What has to be announced depends on the version that is replaced. A call stores in the place of a
version that it knows (`Owing.known`), if nobody else has stored another one meanwhile.
-/

namespace DurableWorkflow

variable {C H R α β : Type} {view : R → Uuid → Option Instance}

/-- The versions that a call has read to replace them, and the events that it owes. -/
structure Owing where
  known : List Instance := []
  debts : List Event := []

namespace Owing

/-- Nothing is owed. -/
def Clear (p : Owing) : Prop := p.debts = []

/-- If the version `s` is stored by somebody who has read these versions, then in the place of such
a `t`. -/
structure Replaces (known : List Instance) (t s : Instance) : Prop where
  id : t.id = s.id
  revision : s.revision = t.revision + 1
  known : ∀ u ∈ known, u.id = t.id → u.revision = t.revision → u = t
  wellFormed : s.WellFormed

/-- Who changes a version that it knows stores in the place of this one. -/
theorem Replaces.eq {known : List Instance} {r s t : Instance}
    (h : Replaces known t { s with revision := s.revision + 1 }) (hr : r ∈ known)
    (hid : s.id = r.id) (hrevision : s.revision = r.revision) : r = t := by
  have hnext : s.revision + 1 = t.revision + 1 := h.revision
  exact h.known r hr (hid.symm.trans h.id.symm) (by omega)

/-- What one action of a call does to what it knows and owes. -/
inductive Does (call : Nat) (w v : World (Journaled R) H) (p : Owing) : Owing → Prop
  | look (l : List Instance)
    (hjournal : v.store.journal = l.map (fun s => ⟨call, .read s⟩) ++ w.store.journal)
    (htold : v.told = w.told) : Does call w v p { p with known := l }
  | create (s : Instance) (hnew : w.store.journal.current s.id = none)
    (hjournal : v.store.journal = ⟨call, .created s⟩ :: w.store.journal)
    (htold : v.told = w.told) : Does call w v p p
  | store (s : Instance) {debts : List Event} (hclear : p.Clear)
    (hjournal : v.store.journal = ⟨call, .stored s⟩ :: w.store.journal)
    (hdebts : ∀ t, Replaces p.known t s → t.dues s = debts) (htold : v.told = w.told) :
    Does call w v p { p with debts }
  | pay (es : List Event) {debts : List Event} (hdebts : p.debts = es ++ debts)
    (hjournal : v.store.journal = w.store.journal) (htold : v.told = es.reverse ++ w.told) :
    Does call w v p { p with debts }

variable {call : Nat} {p : Owing}

theorem Does.idle {w v : World (Journaled R) H} (hjournal : v.store.journal = w.store.journal)
    (htold : v.told = w.told) : Does call w v p p := .pay [] rfl hjournal htold

end Owing

/-- A checkpoint is stored, or nothing is. -/
def World.Saves (call : Nat) (w v : World (Journaled R) H) : Prop :=
  v.store.journal = w.store.journal ∨ ∃ s, v.store.journal = ⟨call, .stored s⟩ :: w.store.journal ∧
    s.status = .running ∧ s.delivered = none

/-- A call goes on a run only when it owes nothing, and a run owes nothing. -/
def owing (C H : Type) (view : R → Uuid → Option Instance) (call : Nat) :
    Protocol (World (Journaled R) H) (Board C H Instance) Owing where
  good w := w.store.Told view
  act p w v q := Owing.Does call w v p q
  pace _ w v := v.told = w.told ∧ w.Saves call v
  aboard p b := p.Clear ∧ b.extra.status = .running
  ashore p := p
  pace_refl _ _ := ⟨rfl, .inl rfl⟩

/-- The operation pays what it owes. -/
abbrev Operation.Pays (view : R → Uuid → Option Instance) (call : Nat) (Q : α → Owing → Prop)
    (op : Operation C H (Journaled R) α) (p : Owing) : Prop :=
  op.Abides (owing C H view call) Owing.Clear (fun _ => Owing.Clear) Q p

variable {call : Nat} {p : Owing} {c : Coordinator C H R} {s t : Instance} {id : Uuid}
  {operation : Nat}

/-! ### Single requests -/

/-- What is read is known. -/
theorem Journaled.noting_does {ask : R → Reply R α} (reads : α → List Instance)
    {Q : α → Owing → Prop} (hp : p.Clear) (w : World (Journaled R) H)
    (hQ : ∀ a r, ask w.store.store = (.ok a, r) → Q a { p with known := reads a }) :
    ∃ q, Owing.Does call w
        (Operation.onStore (Journaled.noting call (fun a => (reads a).map .read) ask) w).2 p q ∧
      Ends (fun _ => Owing.Clear) Q
        ((Journaled.noting call (fun a => (reads a).map .read) ask w.store).1.mapError
          .repository) q := by
  unfold Operation.onStore Journaled.noting
  cases hask : ask w.store.store with
  | mk answer r =>
    cases answer with
    | error fault => exact ⟨p, .idle rfl rfl, hp⟩
    | ok a => exact ⟨_, .look (reads a) (by simp) rfl, hQ a r hask⟩

namespace Operation.Pays

theorem idle {f : World (Journaled R) H → α × World (Journaled R) H}
    (hf : ∀ w, (f w).2.store = w.store ∧ (f w).2.announced = w.announced) :
    (Operation.update f : Operation C H (Journaled R) α).Pays view call (fun _ q => q = p) p := by
  refine .update fun w _ => ⟨p, .idle ?_ ?_, rfl⟩
  · rw [(hf w).1]
  · rw [World.told, (hf w).2, World.told]

theorem now : (Operation.now : Operation C H (Journaled R) Timestamp).Pays view call
    (fun _ q => q = p) p := Operation.Abides.now fun _ _ => .idle rfl rfl

/-- A move that may be refused. -/
theorem moved (hp : p.Clear) (r : Except TransitionError α) :
    (Operation.moved r : Operation C H (Journaled R) α).Pays view call
      (fun a q => q = p ∧ r = .ok a) p :=
  Operation.Abides.moved (fun _ h => ⟨rfl, h⟩) fun _ _ => hp

theorem orThrow (hp : p.Clear) (e : CoordinatorError) (o : Option α) :
    (Operation.orThrow e o : Operation C H (Journaled R) α).Pays view call
      (fun a q => q = p ∧ o = some a) p :=
  Operation.Abides.orThrow (fun _ h => ⟨rfl, h⟩) fun _ => hp

/-- What is owed is announced. -/
theorem announce {what : Happening} (debts : List Event) (hwhat : what.isOfRun = false)
    (hp : p.debts = ⟨id, what⟩ :: debts) :
    (Operation.announce id what : Operation C H (Journaled R) Unit).Pays view call
      (fun _ q => q = { p with debts }) p := by
  refine Operation.Abides.modify fun w _ => .pay [⟨id, what⟩] hp rfl ?_
  exact World.told_publish hwhat

theorem request {ask : R → Reply R α} (reads : α → List Instance) {Q : α → Owing → Prop}
    (hp : p.Clear) (hQ : ∀ (j : Journaled R) a r, j.Told view → ask j.store = (.ok a, r) →
      Q a { p with known := reads a }) :
    (Operation.request (Journaled.noting call (fun a => (reads a).map .read) ask) :
      Operation C H (Journaled R) α).Pays view call Q p :=
  Operation.Abides.request fun w htold => Journaled.noting_does reads hp w fun a r => hQ w.store a r htold

end Operation.Pays

/-- A version is stored, and what has to be announced of it is owed. -/
theorem Repository.persist_does (repository : Repository R) (debts : List Event)
    {E : Owing → Prop} {X : CoordinatorError → Owing → Prop} (hp : p.Clear) (hE : E p)
    (hX : ∀ e, X e p)
    (hdebts : ∀ t, Owing.Replaces p.known t { s with revision := s.revision + 1 } →
      t.dues { s with revision := s.revision + 1 } = debts) (w : World (Journaled R) H) :
    ∃ q, Owing.Does call w
        (Operation.onStore ((repository.journaled call).persist s) w).2 p q ∧
      ((repository.journaled call).persist s w.store).1.Ends E X
        (fun s' q => s' = { s with revision := s.revision + 1 } ∧ q = { p with debts }) q := by
  obtain ⟨store, heq⟩ | ⟨fault, store, heq⟩ | heq :=
    Journaled.persist_cases repository call s w.store
  · rw [Operation.onStore, heq]
    exact ⟨_, .store _ hp rfl hdebts rfl, rfl, rfl⟩
  · rw [Operation.onStore, heq]
    exact ⟨p, .idle rfl rfl, hX _⟩
  · rw [Operation.onStore, heq]
    exact ⟨p, .idle rfl rfl, hE⟩

namespace Coordinator

theorem releasing_pays {op : Operation C H (Journaled R) α} {Q : α → Owing → Prop}
    (h : op.Pays view call Q p) : (Operation.releasing operation op).Pays view call Q p :=
  h.releasing (fun _ q hr _ _ => ⟨q, .idle rfl rfl, hr⟩) fun q hq _ _ => ⟨q, .idle rfl rfl, hq⟩

theorem acquire_pays (hp : p.Clear) :
    ((c.journaled call).acquire operation id : Operation C H (Journaled R) Unit).Pays view call
      (fun _ q => q = p) p :=
  acquire_abides (fun _ _ _ => ⟨p, .idle rfl rfl, rfl⟩) fun _ _ _ => ⟨p, .idle rfl rfl, hp⟩

theorem load_pays (hlaw : c.repository.Lawful view) (hp : p.Clear) :
    ((c.journaled call).load id : Operation C H (Journaled R) Instance).Pays view call
      (fun s q => s.id = id ∧ q = { p with known := [s] }) p := by
  refine Operation.Abides.bind (Q := fun found q => q = { p with known := found.toList } ∧
    ∀ s ∈ found, s.id = id) (Operation.Pays.request Option.toList hp fun j found r htold hask => ⟨rfl, ?_⟩)
    fun found q hq => ?_
  · intro s hs
    have hobeys := hlaw.get id j.store
    rw [hask] at hobeys
    have hstored := hobeys.2 s hs
    rw [htold.stored] at hstored
    exact Journal.current_id hstored
  · obtain ⟨rfl, hfound⟩ := hq
    cases found with
    | none => exact .throw hp
    | some s => exact .pure ⟨hfound s rfl, rfl⟩

theorem definition_pays (hp : p.Clear) (name : String) :
    ((c.journaled call).definition name : Operation C H (Journaled R) (Definition C H)).Pays view call
      (fun _ q => q = p) p := (Operation.Pays.orThrow hp _ _).mono fun _ _ h => h.1

theorem definitionFor_pays (hp : p.Clear) (s : Instance) :
    ((c.journaled call).definitionFor s : Operation C H (Journaled R) (Definition C H)).Pays view call
      (fun _ q => q = p) p := by
  refine (definition_pays hp s.workflow).onward fun d => ?_
  split
  · exact .pure rfl
  · exact .throw hp

theorem persist_pays (debts : List Event) (hp : p.Clear)
    (hdebts : ∀ t, Owing.Replaces p.known t { s with revision := s.revision + 1 } →
      t.dues { s with revision := s.revision + 1 } = debts) :
    ((c.journaled call).persist s).Pays (C := C) (H := H) view call
      (fun s' q => s' = { s with revision := s.revision + 1 } ∧ q = { p with debts }) p :=
  persist_abides fun w _ => c.repository.persist_does debts hp hp (fun _ => hp) hdebts w

/-- Notices pay debts. -/
theorem tell_pays (hspeaks : c.notifier = .announcing) {notice : Notice} {es debts : List Event}
    (hevents : Notifier.events notice = .ok es) (hp : p.debts = es ++ debts) :
    ((c.journaled call).tell notice : Operation C H (Journaled R) Unit).Pays view call
      (fun _ q => q = { p with debts }) p := by
  refine Operation.Abides.modify fun w _ => .pay es hp ?_ ?_
  · rw [Notifier.tell_store]
  · show (c.notifier.tell notice w).told = _
    rw [hspeaks, World.told_tell hevents]

/-! ### Runs -/

theorem owing_sails (g : Graph C H) :
    (owing C H view call).Sails (c.journaled call) id g p where
  within := {
    board := fun _ _ _ hnear _ hb => ⟨⟨rfl, .inl rfl⟩, hb.1, by rw [hnear.extra]; exact hb.2⟩
    enter := fun _ _ _ _ _ _ hb => ⟨⟨rfl, .inl rfl⟩, hb⟩
    publish := fun _ _ _ he _ hb => ⟨⟨World.told_publish_ofRun he, .inl rfl⟩, hb⟩
    memory := fun _ _ _ _ _ hb => ⟨⟨rfl, .inl rfl⟩, hb⟩
    note := fun _ _ _ _ hb => ⟨⟨rfl, .inl rfl⟩, hb⟩
    save := fun k b w x w' hsave _ hb => by
      obtain ⟨-, hstatus, hw⟩ := of_save hsave
      obtain ⟨hclear, hrunning⟩ := hb
      refine ⟨⟨?_, ?_⟩, hclear, hstatus.trans hrunning⟩
      · obtain rfl | ⟨t, rfl⟩ := hw <;> rfl
      · rcases (environment_saves c call id g).save k b w x w' hsave with
          ⟨-, hsame⟩ | ⟨context, k, now, ⟨-, hsame⟩ | ⟨-, hstored⟩⟩
        · exact .inl hsame
        · exact .inl hsame
        · exact .inr ⟨_, hstored, hrunning, rfl⟩ }
  extra _ _ hb heq := ⟨hb.1, by rw [heq]; exact hb.2⟩
  running _ hb := hb.2
  read _ _ := .idle rfl rfl
  publish _ _ he _ := .idle rfl (World.told_publish_ofRun he)

theorem settleCancelled_pays (hp : p.Clear) (s : Instance) :
    ((c.journaled call).settleCancelled s : Operation C H (Journaled R) α).Pays view call
      (fun _ => Owing.Clear) p := by
  refine Operation.Pays.now.onward fun now => ?_
  refine (Operation.Pays.moved hp _).bind fun s' q hs => ?_
  obtain ⟨rfl, hs⟩ := hs
  have hstatus : s'.status = .cancelled := (Instance.of_transition hs).2.2.2
  refine (persist_pays [⟨s'.id, .runCancelled⟩] hp fun t _ => ?_).bind fun t q ht => ?_
  · refine Instance.dues_cancelled ?_ t
    exact hstatus
  · obtain ⟨rfl, rfl⟩ := ht
    exact (Operation.Pays.announce [] rfl rfl).onward fun _ => .throw rfl

/-- What has to be announced of a move is told when it has been stored. -/
theorem settled_pays (hspeaks : c.notifier = .announcing) (hp : p.Clear)
    {move : Except TransitionError Instance} {alter : Instance → Instance}
    {notice : Instance → Notice}
    (h : ∀ s, move = .ok s → ∃ es,
      Notifier.events (notice { alter s with revision := (alter s).revision + 1 }) = .ok es ∧
        ∀ t, Owing.Replaces p.known t { alter s with revision := (alter s).revision + 1 } →
          t.dues { alter s with revision := (alter s).revision + 1 } = es) :
    ((c.journaled call).settled move alter notice : Operation C H (Journaled R) Instance).Pays view
      call (fun _ => Owing.Clear) p := by
  refine (Operation.Pays.moved hp _).bind fun s q hs => ?_
  obtain ⟨rfl, hs⟩ := hs
  obtain ⟨es, hevents, hdues⟩ := h s hs
  refine (persist_pays es hp hdues).bind fun t q ht => ?_
  obtain ⟨rfl, rfl⟩ := ht
  exact (tell_pays hspeaks hevents (List.append_nil _).symm).onward fun _ => .pure rfl

theorem settle_pays (hspeaks : c.notifier = .announcing) (hp : p.Clear) (s : Instance)
    (outcome : RunOutcome) :
    ((c.journaled call).settle s outcome : Operation C H (Journaled R) Instance).Pays view call
      (fun _ => Owing.Clear) p := by
  cases outcome with
  | completed =>
    refine Operation.Pays.now.onward fun now => settled_pays hspeaks hp fun s' hs =>
      ⟨Notifier.finished s' none, rfl, fun t ht => ?_⟩
    have hstatus : s'.status = .completed := (Instance.of_transition hs).2.2.2
    have herror : s'.error = none :=
      Option.not_isSome_iff_eq_none.1 fun h => (ht.wellFormed.sound h).2 hstatus
    refine (Instance.dues_finished (.inl ?_) t).trans ?_
    · exact hstatus
    · show Notifier.finished s' s'.error = _
      rw [herror]
  | failed failure =>
    refine Operation.Pays.now.onward fun now => settled_pays hspeaks hp fun s' hs =>
      ⟨Notifier.finished s' (some failure.text), rfl, fun t _ => ?_⟩
    have hstatus : s'.status = .failed := (Instance.of_transition hs).2.2.2
    refine Instance.dues_finished (.inr ?_) t
    exact hstatus
  | suspended wait =>
    refine Operation.Pays.now.onward fun now => ?_
    cases waitDeadline (wait.limit.or (c.journaled call).defaultWait) now with
    | error m => exact .crash m hp
    | ok deadline =>
      refine settled_pays hspeaks hp fun s' hs => ?_
      obtain ⟨u, hu, rfl⟩ := Instance.enterWait_eq hs
      have hstatus : u.status = .waiting := (Instance.of_transition hu).2.2.2
      refine ⟨[⟨u.id, .approvalRequested u.workflow wait.signal deadline⟩], rfl, fun t _ => ?_⟩
      refine Instance.dues_waiting ?_ ?_ t
      · exact hstatus
      · rfl

theorem drive_pays (hspeaks : c.notifier = .announcing) (hp : p.Clear) (hs : s.status = .running)
    (d : Definition C H) (context : C) (start : StartPoint) :
    ((c.journaled call).drive d s context start).Pays view call (fun _ => Owing.Clear) p := by
  have hsails : (owing C H view call).Sails (c.journaled call) s.id d.graph p := owing_sails d.graph
  have hrun := run_abides (E := Owing.Clear) hsails hsails rfl rfl hp (fun _ hb => hb) start context
    ⟨hp, hs⟩
  refine (Operation.Abides.ofErrand hrun).bind fun x q hx => ?_
  obtain ⟨last, result⟩ := x
  obtain ⟨rfl, -⟩ := hx
  cases result with
  | none => exact settleCancelled_pays hp last
  | some result =>
    refine (Operation.Pays.orThrow hp _ _).bind fun context q hq => ?_
    obtain ⟨rfl, -⟩ := hq
    exact (settle_pays hspeaks hp _ _).bind fun _ q hq => .pure hq

/-! ### The calls -/

theorem save_pays (hlaw : c.repository.Lawful view) (hp : p.Clear) (s : Instance) :
    (Operation.request ((c.journaled call).repository.save s) :
      Operation C H (Journaled R) Unit).Pays view call (fun _ q => q = p) p := by
  refine Operation.Abides.request fun w htold => ⟨p, ?_⟩
  have hobeys := hlaw.save s w.store.store
  show Owing.Does call w { w with store := (Journaled.noting call (fun _ => [.created s])
    (c.repository.save s) w.store).2 } p p ∧ Ends (fun _ => Owing.Clear) (fun _ q => q = p)
      ((Journaled.noting call (fun _ => [.created s])
        (c.repository.save s) w.store).1.mapError .repository) p
  unfold Journaled.noting
  cases hask : c.repository.save s w.store.store with
  | mk answer r =>
    cases answer with
    | error fault => exact ⟨.idle rfl rfl, hp⟩
    | ok _ =>
      rw [hask] at hobeys
      exact ⟨.create s (htold.stored ▸ hobeys.1) rfl rfl, rfl⟩

theorem start_pays (hlaw : c.repository.Lawful view) (hspeaks : c.notifier = .announcing) (hp : p.Clear) (definition : String)
    (context : C) :
    ((c.journaled call).start operation definition context).Pays view call
      (fun _ => Owing.Clear) p := by
  refine releasing_pays ((definition_pays hp definition).onward fun d => ?_)
  refine (Operation.Pays.orThrow hp _ _).bind fun encoded q hq => ?_
  obtain ⟨rfl, -⟩ := hq
  refine (Operation.Pays.idle fun w => ⟨rfl, rfl⟩).onward fun id => ?_
  refine Operation.Pays.now.onward fun now => ?_
  refine (save_pays hlaw hp _).onward fun _ => ?_
  refine (acquire_pays hp).onward fun _ => ?_
  refine (Operation.Pays.moved hp _).bind fun s r hs => ?_
  obtain ⟨rfl, hs⟩ := hs
  obtain ⟨-, rfl⟩ := Instance.transition_eq hs
  refine (persist_pays [] hp fun t _ => ?_).bind fun t r ht => ?_
  · exact Instance.dues_of_checkpoint rfl rfl t
  · obtain ⟨rfl, rfl⟩ := ht
    exact drive_pays hspeaks (by rfl) rfl d context .root

theorem signal_pays (hlaw : c.repository.Lawful view) (hspeaks : c.notifier = .announcing)
    (hp : p.Clear) (name : String) (payload : Json) :
    ((c.journaled call).signal operation id name payload).Pays view call
      (fun _ => Owing.Clear) p := by
  refine releasing_pays ((acquire_pays hp).onward fun _ => ?_)
  refine (load_pays hlaw hp).bind fun s q hs => ?_
  obtain ⟨rfl, hq⟩ := hs
  have hclear : q.Clear := hq ▸ hp
  have hread : s ∈ q.known := hq ▸ List.mem_singleton.2 rfl
  refine (Operation.Pays.orThrow hclear _ _).bind fun node q' hnode => ?_
  obtain ⟨rfl, hnode⟩ := hnode
  have hwaiting : s.status = .waiting := by
    have hwaits := (Option.ite_none_right_eq_some.1 hnode).1
    simp only [Instance.isWaitingFor, Bool.and_eq_true, beq_iff_eq] at hwaits
    exact hwaits.1
  refine (definitionFor_pays hclear s).onward fun d => ?_
  refine (Operation.Pays.orThrow hclear _ _).bind fun context q' hq' => ?_
  obtain ⟨rfl, -⟩ := hq'
  refine Operation.Pays.now.onward fun now => ?_
  refine (Operation.Pays.moved hclear _).bind fun s' q' hs => ?_
  obtain ⟨rfl, hs⟩ := hs
  obtain ⟨hid, hrevision, -, hrunning⟩ := Instance.of_acceptSignal hs
  have hdelivered : s'.delivered = some ⟨name, payload, now⟩ := by
    obtain ⟨u, -, rfl⟩ := Instance.acceptSignal_eq hs
    rfl
  refine (persist_pays [⟨s.id, .runResumed name⟩] hclear fun t ht => ?_).bind
    fun t r ht => ?_
  · obtain rfl : s = t := ht.eq hread hid hrevision
    rw [← hid]
    exact Instance.dues_accepted (s := { s' with revision := s'.revision + 1 })
      ⟨name, payload, now⟩ hwaiting hrunning hdelivered
  · obtain ⟨rfl, rfl⟩ := ht
    refine (Operation.Pays.announce [] rfl rfl).onward fun _ => ?_
    exact drive_pays (s := { s' with revision := s'.revision + 1 }) (p := { q' with debts := [] })
      hspeaks rfl hrunning d context _

theorem resume_pays (hlaw : c.repository.Lawful view) (hspeaks : c.notifier = .announcing)
    (hp : p.Clear) :
    ((c.journaled call).resume operation id).Pays view call (fun _ => Owing.Clear) p := by
  refine releasing_pays ((acquire_pays hp).onward fun _ => ?_)
  refine (load_pays hlaw hp).bind fun s q hs => ?_
  obtain ⟨rfl, hq⟩ := hs
  have hclear : q.Clear := hq ▸ hp
  have hread : s ∈ q.known := hq ▸ List.mem_singleton.2 rfl
  refine Operation.Pays.now.onward fun now => ?_
  refine Operation.Abides.bind (Q := fun s' q' => q' = q ∧ revive s now = .ok s')
    (.lift (fun _ h => ⟨rfl, h⟩) fun _ _ => hclear) fun s' q' hs => ?_
  obtain ⟨rfl, hs⟩ := hs
  obtain ⟨hid, hrevision, -, hrunning⟩ := of_revive hs
  have hawake : s.status ≠ .waiting := fun h => by simp [revive, h] at hs
  refine (definitionFor_pays hclear s').onward fun d => ?_
  refine (Operation.Pays.orThrow hclear _ _).bind fun context q' hq' => ?_
  obtain ⟨rfl, -⟩ := hq'
  refine (persist_pays [] hclear fun t ht => ?_).bind fun t r ht => ?_
  · obtain rfl : s = t := ht.eq hread hid hrevision
    exact Instance.dues_running (s := { s' with revision := s'.revision + 1 }) hawake hrunning
  · obtain ⟨rfl, rfl⟩ := ht
    exact drive_pays (s := { s' with revision := s'.revision + 1 }) (p := { q' with debts := [] })
      hspeaks rfl hrunning d context _

theorem cancel_pays (hlaw : c.repository.Lawful view) (hp : p.Clear) :
    ((c.journaled call).cancel operation id : Operation C H (Journaled R) Cancelled).Pays view call
      (fun _ => Owing.Clear) p := by
  refine releasing_pays (Operation.Abides.onward (q := p) (acquireOrCancel_abides
    (fun _ _ _ => ⟨p, .idle rfl rfl, rfl⟩) fun w _ _ => ⟨p, ?_, rfl⟩) fun free => ?_)
  · unfold World.requestCancel
    split <;> exact .idle rfl rfl
  cases free with
  | false => exact .pure hp
  | true =>
    refine (load_pays hlaw hp).bind fun s q hs => ?_
    obtain ⟨rfl, hq⟩ := hs
    have hclear : q.Clear := hq ▸ hp
    refine Operation.Pays.now.onward fun now => ?_
    refine (Operation.Pays.moved hclear _).bind fun s' q' hs => ?_
    obtain ⟨rfl, hs⟩ := hs
    obtain ⟨hid, -, -, hstatus⟩ := Instance.of_transition hs
    refine (persist_pays [⟨s.id, .runCancelled⟩] hclear fun t _ => ?_).bind
      fun t r ht => ?_
    · rw [← hid]
      refine Instance.dues_cancelled ?_ t
      exact hstatus
    · obtain ⟨rfl, rfl⟩ := ht
      refine Operation.Abides.onward (.modify fun w _ => .idle rfl rfl) fun _ => ?_
      exact (Operation.Pays.announce [] rfl rfl).onward fun _ => .pure rfl

end Coordinator

theorem Dispatcher.dispatch_pays {d : Dispatcher C H R}
    (htargets : ∀ c ∈ d.targets, c.repository.Lawful view ∧ c.notifier = .announcing)
    (hp : p.Clear) (name : String) (payload : Json) :
    ((d.journaled call).dispatch operation id name payload).Pays view call
      (fun _ => Owing.Clear) p := by
  refine Operation.Abides.bind (Q := fun _ => Owing.Clear) (Operation.Pays.request
    (fun _ => []) hp fun _ _ _ _ _ => hp) fun found q hq => ?_
  refine (Operation.Pays.orThrow hq _ _).bind fun info r hr => ?_
  obtain ⟨rfl, -⟩ := hr
  split
  · exact .throw hq
  · next c hc =>
    obtain ⟨c, hmem, rfl⟩ := List.mem_map.1 (List.mem_of_find?_eq_some hc)
    obtain ⟨hlaw, hspeaks⟩ := htargets c hmem
    exact (Coordinator.signal_pays hlaw hspeaks hq name payload).bind fun _ _ hr => .pure hr

namespace Sweeper

variable {sweeper : Sweeper R}

theorem told_of_expire {s s' : Instance} {now : Timestamp} {signal message : String}
    (h : expire s now = .ok (s', signal, message)) :
    s'.status = .timedOut ∧ s'.error = some message ∧ s.awaited.getD "" = signal := by
  unfold expire at h
  cases ht : s.transition .timedOut now with
  | error e => simp [ht, Except.map] at h
  | ok t =>
    rw [ht] at h
    cases h
    exact ⟨(Instance.of_transition ht).2.2.2, rfl, rfl⟩

theorem announce_pays (hspeaks : sweeper.notifier = .announcing) {signal message : String}
    (hp : p.debts = ⟨s.id, .runTimedOut signal⟩ :: Notifier.finished s (some message)) :
    ((sweeper.journaled call).announce s signal message : Errand C H (Journaled R) Unit).Abides
      (owing C H view call) (fun _ q => q = { p with debts := [] }) Owing.Clear p := by
  refine .modify fun w _ => .pay _ (hp.trans (List.append_nil _).symm) ?_ ?_
  · rw [Notifier.tell_store]
    rfl
  · show (sweeper.notifier.tell (.errored s message) (w.publish ⟨s.id, .runTimedOut signal⟩)).told
      = _
    have hevents : Notifier.events (.errored s message) = .ok (Notifier.finished s (some message)) :=
      rfl
    rw [hspeaks, World.told_tell hevents, World.told_publish rfl]
    rfl

/-- The listed instances are known, and what is stored of one is announced before the next one. -/
theorem sweepListed_pays (hspeaks : sweeper.notifier = .announcing) (hp : p.Clear)
    (now : Timestamp) (listed : List Instance) (ended : List Uuid) (h : ∀ s ∈ listed, s ∈ p.known) :
    ((sweeper.journaled call).sweepListed now ended listed :
      Errand C H (Journaled R) (Except RepositoryFault (List Uuid))).Abides (owing C H view call)
        (fun _ => Owing.Clear) Owing.Clear p := by
  induction listed generalizing ended p with
  | nil => exact hp
  | cons s rest ih =>
    have hread : s ∈ p.known := h s List.mem_cons_self
    have hrest : ∀ s ∈ rest, s ∈ p.known := fun s hs => h s (List.mem_cons_of_mem _ hs)
    rw [sweepListed]
    split
    · refine Course.Abides.bind (.read fun w _ => .idle rfl rfl) fun wall q hq => ?_
      subst hq
      split
      · exact ih hp ended hrest
      · next s' signal message hs' =>
        obtain ⟨hid, hrevision, -⟩ := of_expire hs'
        obtain ⟨hstatus, herror, hsignal⟩ := told_of_expire hs'
        refine Course.Abides.bind (.update fun w _ => sweeper.repository.persist_does
          (⟨s'.id, .runTimedOut signal⟩ :: Notifier.finished s' (some message))
          (E := Owing.Clear) (X := fun _ r => r = q) hp hp
          (fun _ => rfl) (fun t ht => ?_) w) fun r q' hr => ?_
        · obtain rfl : s = t := ht.eq hread hid hrevision
          refine (Instance.dues_timedOut (s := { s' with revision := s'.revision + 1 }) hstatus
            s).trans ?_
          rw [hsignal, herror]
          rfl
        · cases r with
          | stored s'' =>
            obtain ⟨rfl, rfl⟩ := hr
            refine Course.Abides.bind (announce_pays hspeaks rfl) fun _ r hr => ?_
            subst hr
            exact ih (p := { q with debts := [] }) rfl _ hrest
          | refused fault =>
            obtain rfl : q' = q := hr
            cases fault with
            | conflict reason => exact ih hp ended hrest
            | _ => exact hp
          | exhausted => exact hr
    · exact ih hp ended hrest

theorem sweep_pays (hspeaks : sweeper.notifier = .announcing) (hp : p.Clear) (now : Timestamp) :
    ((sweeper.journaled call).sweep now :
      Errand C H (Journaled R) (Except RepositoryFault (List Uuid))).Abides (owing C H view call)
        (fun _ => Owing.Clear) Owing.Clear p := by
  refine Course.Abides.bind
    (Q := fun (found : Except RepositoryFault (List Instance)) => Ends (fun _ => Owing.Clear)
      (fun l q => q.Clear ∧ l = q.known) (found.mapError .repository))
    (.update fun w _ => Journaled.noting_does id hp w fun _ _ _ => ⟨hp, rfl⟩)
    fun found q hq => ?_
  cases found with
  | error fault => exact hq
  | ok listed =>
    obtain ⟨hclear, rfl⟩ := hq
    exact sweepListed_pays hspeaks hclear now _ [] fun s hs => hs

end Sweeper

end DurableWorkflow
