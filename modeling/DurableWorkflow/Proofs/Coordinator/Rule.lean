import DurableWorkflow.Proofs.Coordinator.Accounts
import DurableWorkflow.Proofs.Coordinator.Heeds

/-!
# Rules about versions

A rule says which versions of instances may be there, and what may be stored in the place of one. What
coordinators and sweepers do outside runs is for the rule to allow (`Rule.Lets`), and of a coordinator
it is assumed that it drives by the rule (`Rule.Drives`). Then all that its calls store is by the rule,
whatever the others do in between, as long as every version that they find is a valid one.
-/

namespace DurableWorkflow

variable {C H R α β : Type}

/-- An instance as it is created. -/
def Instance.Fresh (s : Instance) : Prop :=
  ∃ id workflow version contextType context now,
    s = Instance.create id workflow version contextType context now

/-- Every version that somebody has known is a `K`. -/
def Journal.All (K : Instance → Prop) (j : Journal) : Prop :=
  ∀ e ∈ j, ∀ s, e.deed.version? = some s → K s

/-- What a call has created in the meantime is an `F`. -/
def Journal.Mints (F : Instance → Prop) (call : Nat) (j j' : Journal) : Prop :=
  ∀ s, ⟨call, .created s⟩ ∈ j' → ⟨call, .created s⟩ ∈ j ∨ F s

namespace Journal

variable {K F : Instance → Prop} {M : Instance → Instance → Prop} {call : Nat} {j j' : Journal}
  {s : Instance} {id : Uuid}

theorem Mints.refl : j.Mints F call j := fun _ => .inl

theorem mints_stored : j.Mints F call (⟨call, .stored s⟩ :: j) := fun t ht => by
  left
  simpa using ht

theorem All.current (h : j.All K) (hs : j.current id = some s) : K s := by
  obtain ⟨e, he, hversion⟩ := mem_of_current hs
  exact h e he s hversion

/-- What a request adds to the versions. -/
theorem Adds.all (h : Adds call M j j') (hM : ∀ t s, M t s → ∀ n, K { s with revision := n })
    (hmints : j.Mints K call j') (hj : j.All K) : j'.All K := by
  intro e he u hu
  cases h with
  | reads l hl =>
    rcases List.mem_append.1 he with he | he
    · obtain ⟨s, hs, rfl⟩ := List.mem_map.1 he
      cases hu
      exact hj.current (hl u hs)
    · exact hj e he u hu
  | created =>
    rcases List.mem_cons.1 he with rfl | hold
    · cases hu
      obtain hold | hfresh := hmints u (List.mem_cons_self ..)
      · exact hj _ hold u rfl
      · exact hfresh
    · exact hj e hold u hu
  | @stored t s ht hmove =>
    rcases List.mem_cons.1 he with rfl | he
    · cases hu
      exact hM t s hmove _
    · exact hj e he u hu
  | deleted i =>
    rcases List.mem_cons.1 he with rfl | he
    · simp [Deed.version?] at hu
    · exact hj e he u hu

end Journal

theorem Journaled.noting_mints {F : Instance → Prop} {call : Nat} {deeds : α → List Deed}
    {ask : R → Reply R α} {j : Journaled R} (h : ∀ a s, Deed.created s ∈ deeds a → F s) :
    j.journal.Mints F call (noting call deeds ask j).2.journal := by
  unfold noting
  obtain ⟨answer, store⟩ := ask j.store
  cases answer with
  | error fault => exact .refl
  | ok a =>
    intro s hs
    obtain hnew | hold := List.mem_append.1 hs
    · obtain ⟨d, hd, heq⟩ := List.mem_map.1 hnew
      cases heq
      exact .inr (h a s hd)
    · exact .inl hold

theorem Journaled.persist_mints {F : Instance → Prop} (inner : Repository R) {call : Nat}
    {s : Instance} {j : Journaled R} :
    j.journal.Mints F call ((inner.journaled call).persist s j).2.journal := by
  obtain ⟨store, heq⟩ | ⟨fault, store, heq⟩ | heq := persist_cases inner call s j
  · rw [heq]
    exact Journal.mints_stored
  · rw [heq]
    exact .refl
  · rw [heq]
    exact .refl

structure Rule where
  valid : Instance → Prop
  moves : Instance → Instance → Prop

namespace Rule

variable (r : Rule)

/-- Between actions of the call every version is valid; what the call notes is by the rule. -/
def watch (C : Type) (view : R → Uuid → Option Instance) (call : Nat) :
    Watch (World (Journaled R) H) (Board C H Instance) Report where
  good w := w.store.Told view ∧ w.store.journal.All r.valid
  others w v := w.store.journal.Grows (· ≠ call) v.store.journal
  own w v := w.store.journal.Adds call r.moves v.store.journal ∧
    w.store.journal.Mints Instance.Fresh call v.store.journal
  pace s t := s.2.store.journal.Adds call r.moves t.2.store.journal ∧
    s.2.store.journal.Mints Instance.Fresh call t.2.store.journal
  mark _ _ _ := True
  refl _ := .refl
  trans := .trans
  own_refl _ := ⟨.refl, .refl⟩

/-- The rule allows what is done outside runs, and what it allows is valid in any revision. -/
structure Lets : Prop where
  same : ∀ {t s}, r.moves t s → s.id = t.id ∧ s.revision = t.revision
  valid : ∀ {t s}, r.moves t s → ∀ n, r.valid { s with revision := n }
  begin : ∀ {t s now}, r.valid t → t.status = .created → t.transition .running now = .ok s →
    r.moves t s
  renew : ∀ {t}, r.valid t → t.status = .running → r.moves t t
  accept : ∀ {t s name payload node now}, r.valid t → t.isWaitingFor name = true →
    t.waitingNode = some node → t.acceptSignal node ⟨name, payload, now⟩ now = .ok s → r.moves t s
  cancel : ∀ {t s now}, r.valid t → t.transition .cancelled now = .ok s → r.moves t s
  expire : ∀ {t s now signal message}, r.valid t → t.status = .waiting →
    Sweeper.expire t now = .ok (s, signal, message) → r.moves t s

/-- By the rule the coordinator drives what it has claimed, from where an instance is to go on. -/
def Drives (view : R → Uuid → Option Instance) (c : Coordinator C H R) : Prop :=
  ∀ (call : Nat) (d : Definition C H) (u : Instance) (context : C) (w : World (Journaled R) H),
    d ∈ c.definitions → d.id = u.workflow →
    c.kind.encode context = some u.context ∨ c.kind.decode u.context = some context →
    u.status = .running → r.valid u → ⟨call, .stored u⟩ ∈ w.store.journal →
    ((c.journaled call).drive d u context (Coordinator.restartPoint u)).Heeds
      (r.watch C view call) (fun _ _ => True) w

variable {r} {view : R → Uuid → Option Instance} {call : Nat} {w : World (Journaled R) H}
  {F : Journal → Prop} {s t : Instance} {id : Uuid}

theorem lasting (hF : Journal.Lasting F) :
    (r.watch (H := H) C view call).Stable fun w => F w.store.journal :=
  fun hw hv => hF (· ≠ call) _ _ hw hv

/-! ### Actions and requests -/

/-- An action that leaves the store alone. -/
theorem aside {f : World (Journaled R) H → α × World (Journaled R) H}
    (hf : ∀ v, (f v).2.store = v.store) (hF : Journal.Lasting F) (hw : F w.store.journal) :
    (Course.update f : Errand C H (Journaled R) α).Heeds (r.watch C view call)
      (fun _ v => F v.store.journal) w := by
  refine .update fun v hv => ?_
  have hsame := hf v
  refine ⟨⟨?_, ?_⟩, ?_⟩
  · show v.store.journal.Adds call r.moves (f v).2.store.journal
    rw [hsame]
    exact .refl
  · show v.store.journal.Mints Instance.Fresh call (f v).2.store.journal
    rw [hsame]
    exact .refl
  · rw [hsame]
    exact hF (· ≠ call) _ _ hw hv

theorem aside_modify {f : World (Journaled R) H → World (Journaled R) H}
    (hf : ∀ v, (f v).store = v.store) (hF : Journal.Lasting F) (hw : F w.store.journal) :
    (Course.modify f : Errand C H (Journaled R) Unit).Heeds (r.watch C view call)
      (fun _ v => F v.store.journal) w :=
  aside (f := fun v => ((), f v)) hf hF hw

theorem idle {f : World (Journaled R) H → α × World (Journaled R) H}
    (hf : ∀ v, (f v).2.store = v.store) (hF : Journal.Lasting F) (hw : F w.store.journal) :
    (Operation.update f : Operation C H (Journaled R) α).Heeds (r.watch C view call)
      (fun _ v => F v.store.journal) w := .ofErrand (aside hf hF hw)

theorem idle_modify {f : World (Journaled R) H → World (Journaled R) H}
    (hf : ∀ v, (f v).store = v.store) (hF : Journal.Lasting F) (hw : F w.store.journal) :
    (Operation.modify f : Operation C H (Journaled R) Unit).Heeds (r.watch C view call)
      (fun _ v => F v.store.journal) w :=
  idle (f := fun v => ((), f v)) hf hF hw

theorem now (hF : Journal.Lasting F) (hw : F w.store.journal) :
    (Operation.now : Operation C H (Journaled R) Timestamp).Heeds (r.watch C view call)
      (fun _ v => F v.store.journal) w :=
  idle (f := fun v => (v.wall, v)) (fun _ => rfl) hF hw

theorem moved {result : Except TransitionError α} (hw : F w.store.journal) :
    (Operation.moved result : Operation C H (Journaled R) α).Heeds (r.watch C view call)
      (fun a v => result = .ok a ∧ F v.store.journal) w := .moved fun _ ha => ⟨ha, hw⟩

/-- A request to the repository, with every version valid that the journal knows. -/
theorem request {ask : Journaled R → Reply (Journaled R) α} {Q : α → Journal → Prop}
    (hF : Journal.Lasting F) (hw : F w.store.journal)
    (h : ∀ j : Journaled R, j.Told view → j.journal.All r.valid → F j.journal →
      Journaled.Files call r.moves j Q (ask j) ∧ j.journal.Mints Instance.Fresh call (ask j).2.journal) :
    (Operation.request ask : Operation C H (Journaled R) α).Heeds (r.watch C view call)
      (fun a v => Q a v.store.journal) w := by
  have hask : (Course.update (Operation.onStore ask) : Errand C H (Journaled R) _).Heeds
      (r.watch C view call) (fun o v => ∀ a, o = .ok a → Q a v.store.journal) w := by
    intro v hv hgood
    obtain ⟨⟨hadds, hq⟩, hmints⟩ := h v.store hgood.1 hgood.2 (hF (· ≠ call) _ _ hw hv)
    exact ⟨⟨hadds, hmints⟩, hq⟩
  refine (Operation.Heeds.ofErrand hask).bind fun o v ho => ?_
  cases o with
  | ok a => exact .pure (ho a rfl)
  | error fault => exact .throw _

theorem releasing {op : Operation C H (Journaled R) α} (operation : Nat)
    (h : op.Heeds (r.watch C view call) (fun _ _ => True) w) :
    (Operation.releasing operation op).Heeds (r.watch C view call) (fun _ _ => True) w :=
  Operation.Heeds.releasing operation h fun v =>
    show v.store.journal.Adds call r.moves v.store.journal ∧ v.store.journal.Mints Instance.Fresh call _ from
      ⟨.refl, .refl⟩

variable {c : Coordinator C H R}

theorem acquire_heeds (hF : Journal.Lasting F) (operation : Nat) (id : Uuid)
    (hw : F w.store.journal) :
    ((c.journaled call).acquire operation id : Operation C H (Journaled R) Unit).Heeds
      (r.watch C view call) (fun _ v => F v.store.journal) w := by
  refine (idle (Coordinator.acquire_store _ _ _) hF hw).bind fun free v h => ?_
  cases free with
  | true => exact .pure h
  | false => exact .throw _

/-- What is loaded is a valid version. -/
theorem load_heeds (hr : r.Lets) (hlaw : c.repository.Lawful view) :
    ((c.journaled call).load id : Operation C H (Journaled R) Instance).Heeds
      (r.watch C view call) (fun s v => v.store.journal.Knows call s ∧ r.valid s) w := by
  refine Operation.Heeds.bind (request (F := fun _ => True) (Q := fun found j =>
    ∀ s ∈ found, j.Knows call s ∧ r.valid s) Journal.lasting_true trivial fun j hj hall _ => ?_)
    fun found v hfound => .orThrow hfound
  have hfiles : Journaled.Files call r.moves j _ ((c.repository.journaled call).get id j) :=
    Journaled.get_files hlaw hj
  have hmints (F : Instance → Prop) :
      j.journal.Mints F call ((c.repository.journaled call).get id j).2.journal :=
    Journaled.noting_mints fun found s hs => by simp at hs
  have hall' := hfiles.1.all (fun _ _ hmove => hr.valid hmove) (hmints r.valid) hall
  refine ⟨⟨hfiles.1, fun found hfound s hs => ?_⟩, hmints _⟩
  have hread := hfiles.2 found hfound s hs
  exact ⟨⟨_, hread, rfl⟩, hall' _ hread s rfl⟩

/-- Storing what the rule makes of a version that the call knows. -/
theorem persist_heeds (ht : w.store.journal.Knows call t) (h : r.valid t → r.moves t s) :
    ((c.journaled call).persist s).Heeds (r.watch C view call) (fun s' v =>
      s' = { s with revision := s.revision + 1 } ∧ ⟨call, .stored s'⟩ ∈ v.store.journal ∧
        r.moves t s) w := by
  have hask : (Course.update (Operation.onStore ((c.journaled call).repository.persist s)) :
      Errand C H (Journaled R) _).Heeds (r.watch C view call) (fun p v => ∀ s', p = .stored s' →
        s' = { s with revision := s.revision + 1 } ∧ ⟨call, .stored s'⟩ ∈ v.store.journal ∧
          r.moves t s) w := by
    intro v hv hgood
    have hknown : v.store.journal.Knows call t := Journal.lasting_knows call t (· ≠ call) _ _ ht hv
    obtain ⟨d, hd, hversion⟩ := id hknown
    have hmove := h (hgood.2 _ hd t hversion)
    have hadds := Journaled.persist_adds c.repository hknown hmove
    have hmints : v.store.journal.Mints Instance.Fresh call
        ((c.repository.journaled call).persist s v.store).2.journal :=
      Journaled.persist_mints c.repository
    refine ⟨⟨hadds, hmints⟩, ?_⟩
    intro s' hs'
    obtain ⟨store, heq⟩ | ⟨fault, store, heq⟩ | heq :=
      Journaled.persist_cases c.repository call s v.store
    · change (c.journaled call).repository.persist s v.store = _ at heq
      simp only [Operation.onStore, heq] at hs' ⊢
      cases hs'
      exact ⟨rfl, List.mem_cons_self .., hmove⟩
    · change (c.journaled call).repository.persist s v.store = _ at heq
      simp only [Operation.onStore, heq] at hs'
      cases hs'
    · change (c.journaled call).repository.persist s v.store = _ at heq
      simp only [Operation.onStore, heq] at hs'
      cases hs'
  refine (Operation.Heeds.ofErrand hask).bind fun p v hp => ?_
  cases p with
  | stored s' => exact .pure (hp s' rfl)
  | refused fault => exact .throw _
  | exhausted => exact .crash _

theorem definition_heeds (id : String) (hw : F w.store.journal) :
    ((c.journaled call).definition id : Operation C H (Journaled R) (Definition C H)).Heeds
      (r.watch C view call) (fun d v => d ∈ c.definitions ∧ d.id = id ∧ F v.store.journal) w :=
  .orThrow fun _ hd =>
    ⟨List.mem_of_find?_eq_some hd, by simpa using List.find?_some hd, hw⟩

theorem definitionFor_heeds (s : Instance) (hw : F w.store.journal) :
    ((c.journaled call).definitionFor s : Operation C H (Journaled R) (Definition C H)).Heeds
      (r.watch C view call) (fun d v => d ∈ c.definitions ∧ d.id = s.workflow ∧ F v.store.journal)
      w := by
  refine (definition_heeds s.workflow hw).bind fun d v h => ?_
  split
  · exact .pure h
  · exact .throw _

/-- A stored version goes on as it is, whatever its revision. -/
theorem restartPoint_revised (s : Instance) (n : Nat) :
    Coordinator.restartPoint { s with revision := n } = Coordinator.restartPoint s := rfl

theorem start_heeds (hr : r.Lets) (hlaw : c.repository.Lawful view) (hdrives : r.Drives view c)
    (operation : Nat) (definition : String) (context : C) :
    ((c.journaled call).start operation definition context).Heeds (r.watch C view call)
      (fun _ _ => True) w := by
  refine releasing operation ((definition_heeds (F := fun _ => True) definition trivial).bind
    fun d v ⟨hd, _, _⟩ => ?_)
  refine Operation.Heeds.bind (Q := fun encoded _ => c.kind.encode context = some encoded)
    (.orThrow fun _ hencoded => hencoded) fun encoded v hencoded => ?_
  refine (idle (f := World.mint) (fun _ => rfl) Journal.lasting_true trivial).bind fun id v _ => ?_
  refine (now Journal.lasting_true trivial).bind fun now v _ => ?_
  refine (request (Q := fun _ j => j.Knows call (Instance.create id d.id d.version c.kind.typeName
    encoded now)) Journal.lasting_true trivial fun j _ _ _ => ⟨Journaled.save_files hlaw rfl
      (Instance.create_wellFormed ..), Journaled.noting_mints fun _ s hs => ?_⟩).bind
    fun _ v hknown => ?_
  · obtain rfl := Deed.created.inj (List.mem_singleton.1 hs)
    exact ⟨_, _, _, _, _, _, rfl⟩
  refine (acquire_heeds (Journal.lasting_knows call _) operation id hknown).bind
    fun _ v hknown => ?_
  refine (moved (F := (·.Knows call _)) hknown).bind fun s v ⟨hs, hknown⟩ => ?_
  refine (persist_heeds hknown fun hvalid => hr.begin hvalid rfl hs).bind
    fun u v ⟨hu, hstored, hmove⟩ => ?_
  have hvalid : r.valid u := hu ▸ hr.valid hmove _
  obtain ⟨-, rfl⟩ := Instance.transition_eq hs
  subst hu
  exact hdrives call d _ context v hd rfl (.inl hencoded) rfl hvalid hstored

theorem signal_heeds (hr : r.Lets) (hlaw : c.repository.Lawful view) (hdrives : r.Drives view c)
    (operation : Nat) (id : Uuid) (name : String) (payload : Json) :
    ((c.journaled call).signal operation id name payload).Heeds (r.watch C view call)
      (fun _ _ => True) w := by
  refine releasing operation ((acquire_heeds Journal.lasting_true operation id trivial).bind
    fun _ v _ => ?_)
  refine (load_heeds hr hlaw).bind fun s v ⟨hknown, _⟩ => ?_
  refine Operation.Heeds.bind (Q := fun node v =>
    v.store.journal.Knows call s ∧ s.isWaitingFor name = true ∧ s.waitingNode = some node)
    (.orThrow fun node hnode => ?_) fun node v ⟨hknown, hwaits, hnode⟩ => ?_
  · rw [Option.mem_def, Option.ite_none_right_eq_some] at hnode
    exact ⟨hknown, hnode⟩
  refine (definitionFor_heeds (F := fun j => j.Knows call s) s hknown).bind
    fun d v ⟨hd, hworkflow, hknown⟩ => ?_
  refine Operation.Heeds.bind (Q := fun context v =>
    c.kind.decode s.context = some context ∧ v.store.journal.Knows call s)
    (.orThrow fun _ hcontext => ⟨hcontext, hknown⟩) fun context v ⟨hcontext, hknown⟩ => ?_
  refine (now (Journal.lasting_knows call s) hknown).bind fun now v hknown => ?_
  refine (moved (F := (·.Knows call s)) hknown).bind fun s' v ⟨hs', hknown⟩ => ?_
  refine (persist_heeds hknown fun hvalid => hr.accept hvalid hwaits hnode hs').bind
    fun u v ⟨hu, hstored, hmove⟩ => ?_
  have hvalid : r.valid u := hu ▸ hr.valid hmove _
  obtain ⟨t, ht, rfl⟩ := Instance.acceptSignal_eq hs'
  obtain ⟨-, rfl⟩ := Instance.transition_eq ht
  subst hu
  refine (idle_modify (f := World.publish _) (fun _ => rfl) (Journal.lasting_mem _) hstored).bind
    fun _ v hstored => ?_
  exact hdrives call d _ context v hd hworkflow (.inr hcontext) rfl hvalid hstored

theorem revive_moves (hr : r.Lets) {now : Timestamp} (hs : r.valid s)
    (h : Coordinator.revive s now = .ok t) : r.moves s t := by
  unfold Coordinator.revive at h
  split at h
  · next hrunning =>
    cases h
    exact hr.renew hs hrunning
  · next hcreated =>
    split at h
    · next t ht =>
      cases h
      exact hr.begin hs hcreated ht
    · simp at h
  · simp at h
  · simp at h

theorem resume_heeds (hr : r.Lets) (hlaw : c.repository.Lawful view) (hdrives : r.Drives view c)
    (operation : Nat) (id : Uuid) :
    ((c.journaled call).resume operation id).Heeds (r.watch C view call) (fun _ _ => True) w := by
  refine releasing operation ((acquire_heeds Journal.lasting_true operation id trivial).bind
    fun _ v _ => ?_)
  refine (load_heeds hr hlaw).bind fun s v ⟨hknown, _⟩ => ?_
  refine (now (Journal.lasting_knows call s) hknown).bind fun now v hknown => ?_
  refine Operation.Heeds.bind (Q := fun s' v =>
    v.store.journal.Knows call s ∧ Coordinator.revive s now = .ok s')
    (.lift fun s' hs' => ⟨hknown, hs'⟩) fun s' v ⟨hknown, hs'⟩ => ?_
  refine (definitionFor_heeds (F := fun j => j.Knows call s) s' hknown).bind
    fun d v ⟨hd, hworkflow, hknown⟩ => ?_
  refine Operation.Heeds.bind (Q := fun context v =>
    c.kind.decode s'.context = some context ∧ v.store.journal.Knows call s)
    (.orThrow fun _ hcontext => ⟨hcontext, hknown⟩) fun context v ⟨hcontext, hknown⟩ => ?_
  refine (persist_heeds hknown fun hvalid => revive_moves hr hvalid hs').bind
    fun u v ⟨hu, hstored, hmove⟩ => ?_
  have hvalid : r.valid u := hu ▸ hr.valid hmove _
  have hrunning : s'.status = .running := (Coordinator.of_revive hs').2.2.2
  subst hu
  exact hdrives call d _ context v hd hworkflow (.inr hcontext) hrunning hvalid hstored

theorem cancel_heeds (hr : r.Lets) (hlaw : c.repository.Lawful view) (operation : Nat) (id : Uuid) :
    ((c.journaled call).cancel operation id : Operation C H (Journaled R) Cancelled).Heeds
      (r.watch C view call) (fun _ _ => True) w := by
  refine releasing operation ((idle (Coordinator.acquireOrCancel_store (c.journaled call) operation id)
    Journal.lasting_true trivial).bind fun free v _ => ?_)
  cases free with
  | false => exact .pure trivial
  | true =>
    refine (load_heeds hr hlaw).bind fun s v ⟨hknown, _⟩ => ?_
    refine (now (Journal.lasting_knows call s) hknown).bind fun now v hknown => ?_
    refine (moved (F := (·.Knows call s)) hknown).bind fun s' v ⟨hs', hknown⟩ => ?_
    refine (persist_heeds hknown fun hvalid => hr.cancel hvalid hs').bind fun u v _ => ?_
    refine (idle_modify (f := World.release operation) (fun _ => rfl) Journal.lasting_true
      trivial).bind fun _ v _ => ?_
    exact (idle_modify (f := World.publish _) (fun _ => rfl) Journal.lasting_true trivial).bind
      fun _ _ _ => .pure trivial

theorem dispatch_heeds {d : Dispatcher C H R} (hr : r.Lets) (hlaw : d.repository.Lawful view)
    (htargets : ∀ c ∈ d.targets, c.repository.Lawful view)
    (hdrives : ∀ c ∈ d.targets, r.Drives view c) (operation : Nat) (id : Uuid) (name : String)
    (payload : Json) :
    ((d.journaled call).dispatch operation id name payload).Heeds (r.watch C view call)
      (fun _ _ => True) w := by
  refine (request (Q := fun _ _ => True) Journal.lasting_true trivial fun j _ _ _ =>
    ⟨Journaled.contextInfo_files hlaw, Journaled.noting_mints fun _ s hs => by simp at hs⟩).bind
    fun found v _ => ?_
  refine Operation.Heeds.bind (Q := fun _ _ => True) (.orThrow fun _ _ => trivial)
    fun info v _ => ?_
  split
  · exact .throw _
  · next c hc =>
    obtain ⟨c, hmem, rfl⟩ := List.mem_map.1 (List.mem_of_find?_eq_some hc)
    exact (signal_heeds hr (htargets c hmem) (hdrives c hmem) operation id name payload).bind
      fun _ _ _ => .pure trivial

theorem delete_heeds {repository : Repository R} (hlaw : repository.Lawful view) (id : Uuid) :
    (Operation.request ((repository.journaled call).delete id) :
      Operation C H (Journaled R) Bool).Heeds (r.watch C view call) (fun _ _ => True) w :=
  request (F := fun _ => True) (Q := fun _ _ => True) Journal.lasting_true trivial fun _ _ _ _ =>
    ⟨Journaled.delete_files hlaw, Journaled.noting_mints fun _ s hs => by simp at hs⟩

/-! ### Sweeps -/

variable {sweeper : Sweeper R}

theorem sweepListed_heeds (hr : r.Lets) (instant : Timestamp) (listed : List Instance)
    (ended : List Uuid) (h : ∀ s ∈ listed, w.store.journal.Knows call s) :
    Course.Heeds (r.watch C view call) (fun _ _ => True)
      ((sweeper.journaled call).sweepListed instant ended listed :
        Errand C H (Journaled R) (Except RepositoryFault (List Uuid))) w := by
  induction listed generalizing ended w with
  | nil => trivial
  | cons s rest ih =>
    rw [Sweeper.sweepListed]
    split
    · next hexpired =>
      have hwaiting : s.status = .waiting := by
        simp only [Instance.isWaitExpired, Bool.and_eq_true, beq_iff_eq] at hexpired
        exact hexpired.1
      refine Course.Heeds.bind (aside (f := fun v => (v.wall, v)) (fun _ => rfl)
        (Journal.lasting_knowsAll call (s :: rest)) h) fun wall v h => ?_
      have hrest : ∀ s ∈ rest, v.store.journal.Knows call s := fun s hs =>
        h s (List.mem_cons_of_mem _ hs)
      split
      · exact ih ended hrest
      · next s' signal message hs' =>
        refine Course.Heeds.bind (Q := fun _ v => ∀ s ∈ rest, v.store.journal.Knows call s) ?_
          fun p v hrest => ?_
        · intro u hu hgood
          have h := Journal.lasting_knowsAll call (s :: rest) (· ≠ call) _ _ h hu
          obtain ⟨d, hd, hversion⟩ := id (h s (List.mem_cons_self ..))
          have hmove := hr.expire (hgood.2 _ hd s hversion) hwaiting hs'
          have hadds := Journaled.persist_adds sweeper.repository (h s (List.mem_cons_self ..)) hmove
          exact ⟨⟨hadds, Journaled.persist_mints sweeper.repository⟩, fun s hs =>
            hadds.grows.knows (h s (List.mem_cons_of_mem _ hs))⟩
        split
        · exact Course.Heeds.bind (aside_modify (fun v => Notifier.tell_store _ _ (v.publish _))
            (Journal.lasting_knowsAll call rest) hrest) fun _ v hrest => ih _ hrest
        · exact ih ended hrest
        · trivial
        · trivial
    · exact ih ended fun s hs => h s (List.mem_cons_of_mem _ hs)

theorem sweep_heeds (hr : r.Lets) (hlaw : sweeper.repository.Lawful view) (instant : Timestamp) :
    Course.Heeds (r.watch C view call) (fun _ _ => True)
      ((sweeper.journaled call).sweep instant :
        Errand C H (Journaled R) (Except RepositoryFault (List Uuid))) w := by
  refine Course.Heeds.bind (Q := fun (answer : Except RepositoryFault _) v =>
    ∀ l, answer = .ok l → ∀ s ∈ l, v.store.journal.Knows call s) ?_ fun answer v hanswer => ?_
  · intro u _ hgood
    have hfiles : Journaled.Files call r.moves u.store _
        ((sweeper.repository.journaled call).listWaiting none u.store) :=
      Journaled.listWaiting_files hlaw hgood.1 none
    exact ⟨⟨hfiles.1, Journaled.noting_mints fun l s hs => by simp at hs⟩, hfiles.2⟩
  cases answer with
  | error fault => trivial
  | ok listed => exact sweepListed_heeds hr instant listed [] (hanswer listed rfl)

end Rule

end DurableWorkflow
