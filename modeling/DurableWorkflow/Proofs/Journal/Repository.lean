import DurableWorkflow.Proofs.Journal.Basic
import DurableWorkflow.Repository.Faulty
import DurableWorkflow.Repository.Memory

/-!
# Repositories with a journal

What a repository promises (`Lawful`), with a view of its store: which version of each instance is
stored. Each request is one atomic action, an update is a comparison of revisions and an exchange,
and an error means that nothing was written. `journaled` is a repository that notes what a call does
through it; the notes tell what is stored (`Journaled.Told`).
-/

namespace DurableWorkflow

variable {R α : Type}

/-- An answer is what `Q` says, and an error means that nothing has been written. -/
def Reply.Obeys (view : R → Uuid → Option Instance) (r : R) (Q : α → R → Prop) : Reply R α → Prop
  | (.ok a, r') => Q a r'
  | (.error _, r') => view r' = view r

theorem Reply.Obeys.elim {view : R → Uuid → Option Instance} {r : R} {Q : α → R → Prop}
    {reply : Reply R α} {G : Prop} (h : reply.Obeys view r Q)
    (herror : ∀ fault, reply.1 = .error fault → view reply.2 = view r → G)
    (hok : ∀ a, reply.1 = .ok a → Q a reply.2 → G) : G := by
  obtain ⟨answer, r'⟩ := reply
  cases answer with
  | error fault => exact herror fault rfl h
  | ok a => exact hok a rfl h

/-- The promises of a repository. -/
structure Repository.Lawful (repository : Repository R) (view : R → Uuid → Option Instance) :
    Prop where
  save : ∀ s r, (repository.save s r).Obeys view r fun _ r' => view r s.id = none ∧
    ∀ id, view r' id = if s.id = id then some s else view r id
  get : ∀ id r, (repository.get id r).Obeys view r fun found r' => view r' = view r ∧
    ∀ s ∈ found, view r id = some s
  update : ∀ s expected r, (repository.update s expected r).Obeys view r fun _ r' =>
    (∃ t, view r s.id = some t ∧ t.revision = expected) ∧
      ∀ id, view r' id = if s.id = id then some s else view r id
  delete : ∀ id r, (repository.delete id r).Obeys view r fun _ r' =>
    ∀ i, view r' i = if id = i then none else view r i
  listWaiting : ∀ signal r, (repository.listWaiting signal r).Obeys view r fun found r' =>
    view r' = view r ∧ ∀ s ∈ found, view r s.id = some s
  listByStatus : ∀ status r, (repository.listByStatus status r).Obeys view r fun found r' =>
    view r' = view r ∧ ∀ s ∈ found, view r s.id = some s
  contextInfo : ∀ id r, (repository.contextInfo id r).Obeys view r fun _ r' => view r' = view r

/-- Storing a changed instance: it is stored under the next revision in the place of the version
with its own revision, or nothing is. -/
theorem Repository.Lawful.persist_cases {repository : Repository R}
    {view : R → Uuid → Option Instance} (hlaw : repository.Lawful view) (s : Instance) (store : R) :
    ((repository.persist s store).1 = .stored { s with revision := s.revision + 1 } ∧
        (∃ t, view store s.id = some t ∧ t.revision = s.revision) ∧
        ∀ id, view (repository.persist s store).2 id =
          if s.id = id then some { s with revision := s.revision + 1 } else view store id) ∨
      (∀ s', (repository.persist s store).1 ≠ .stored s') ∧
        view (repository.persist s store).2 = view store := by
  unfold persist
  split
  · have hobeys := hlaw.update { s with revision := s.revision + 1 } s.revision store
    simp only
    split
    · next store' heq =>
      rw [heq] at hobeys
      exact .inl ⟨rfl, hobeys⟩
    · next fault store' heq =>
      rw [heq] at hobeys
      exact .inr ⟨by simp, hobeys⟩
  · exact .inr ⟨by simp, rfl⟩

theorem Repository.persist_view {repository : Repository R} {view : R → Uuid → Option Instance}
    (hlaw : repository.Lawful view) (s : Instance) (store : R) :
    (repository.persist s store).1 = .stored { s with revision := s.revision + 1 } ∧
        view (repository.persist s store).2 s.id = some { s with revision := s.revision + 1 } ∨
      (∀ s', (repository.persist s store).1 ≠ .stored s') ∧
        view (repository.persist s store).2 = view store :=
  (hlaw.persist_cases s store).imp_left fun h => ⟨h.1, by rw [h.2.2, if_pos rfl]⟩

/-- Only faults are appointed, and no rivals. -/
def Appointment.IsFault (a : Appointment) : Prop := ∃ fault, a.mishap = .fault fault

/-! ### Repositories that keep the promises -/

namespace Memory

theorem find?_insert (m : Memory) (s : Instance) (h : m.find? s.id = none) (id : Uuid) :
    (m.insert s h).find? id = if s.id = id then some s else m.find? id := by
  rw [find?, insert, List.find?_cons]
  by_cases hid : s.id = id
  · simp [hid]
  · simp [beq_eq_false_iff_ne.2 hid, hid, find?]

theorem find?_replace {m : Memory} {s t : Instance} (h : m.find? s.id = some t) (id : Uuid) :
    (m.replace s).find? id = if s.id = id then some s else m.find? id := by
  have hid : ((·.id == id) ∘ fun t : Instance => if t.id = s.id then s else t) = (·.id == id) :=
    funext fun t => by rw [Function.comp_apply, replaced_id]
  have hmap : (m.replace s).find? id =
      (m.find? id).map fun t : Instance => if t.id = s.id then s else t := by
    rw [find?, replace, List.find?_map, hid, find?]
  by_cases hs : s.id = id
  · rw [hmap, if_pos hs, ← hs, h, Option.map_some, if_pos (find?_id h)]
  · rw [hmap, if_neg hs]
    cases hu : m.find? id with
    | none => rfl
    | some u => rw [Option.map_some, if_neg (by rw [find?_id hu]; exact Ne.symm hs)]

theorem find?_erase (m : Memory) (id i : Uuid) :
    (m.erase id).find? i = if id = i then none else m.find? i := by
  rw [find?, erase, List.find?_filter]
  by_cases h : id = i
  · subst h
    simp
  · rw [if_neg h, find?]
    congr 1
    funext s
    by_cases hs : s.id = i
    · simp [hs, Ne.symm h]
    · simp [hs]

theorem find?_of_mem {m : Memory} {s : Instance} (h : s ∈ m.instances) : m.find? s.id = some s := by
  obtain ⟨l, hl⟩ := m
  simp only [find?] at h ⊢
  induction l with
  | nil => simp at h
  | cons t l ih =>
    rw [List.map_cons, List.nodup_cons] at hl
    rw [List.find?_cons]
    rcases List.mem_cons.1 h with rfl | h
    · simp
    · have hne : t.id ≠ s.id := fun heq => hl.1 (heq ▸ List.mem_map_of_mem h)
      simp only [beq_eq_false_iff_ne.2 hne]
      exact ih hl.2 h

theorem find?_of_select {m : Memory} {keep : Instance → Bool} {s : Instance}
    (h : s ∈ m.select keep) : m.find? s.id = some s := by
  rw [select, List.mem_mergeSort] at h
  exact find?_of_mem (List.mem_filter.1 h).1

/-- The repository in memory keeps its promises. -/
theorem repository_lawful : repository.Lawful find? where
  save s m := by
    simp only [repository, save]
    split
    · exact rfl
    · next h => exact ⟨h, find?_insert m s h⟩
  get id m := ⟨rfl, fun s h => h⟩
  update s expected m := by
    simp only [repository, update]
    split
    · exact rfl
    · next t ht =>
      split
      · next hrevision => exact ⟨⟨t, ht, hrevision⟩, find?_replace ht⟩
      · exact rfl
  delete id m := find?_erase m id
  listWaiting signal m := ⟨rfl, fun s hs => find?_of_select hs⟩
  listByStatus status m := ⟨rfl, fun s hs => find?_of_select hs⟩
  contextInfo id m := rfl

end Memory

namespace Faulty

variable {inner : Repository R} {view : R → Uuid → Option Instance}
  {appointments : List Appointment}

/-- A request is answered with a fault and not made, or made as it is. -/
theorem request_obeys (inner : Repository R) (h : ∀ a ∈ appointments, a.IsFault)
    (kind : RequestKind) (id : Option Uuid) {ask : R → Reply R α} {f : Faulty R} {Q : α → R → Prop}
    (hask : (ask f.store).Obeys view f.store Q) :
    (request inner appointments kind id ask f).Obeys (fun f => view f.store) f
      fun a f' => Q a f'.store := by
  unfold request
  simp only
  split
  · exact rfl
  · next raise heq =>
    obtain ⟨fault, hfault⟩ := h _ (List.mem_of_find?_eq_some heq)
    simp at hfault
  · revert hask
    obtain ⟨answer, store⟩ := ask f.store
    cases answer <;> exact fun hask => hask

/-- With faults a repository keeps its promises. -/
theorem repository_lawful (hinner : inner.Lawful view) (h : ∀ a ∈ appointments, a.IsFault) :
    (repository inner appointments).Lawful fun f => view f.store where
  save s f := request_obeys inner h .save (some s.id) (hinner.save s f.store)
  get id f := request_obeys inner h .get (some id) (hinner.get id f.store)
  update s expected f := request_obeys inner h .update (some s.id) (hinner.update s expected f.store)
  delete id f := request_obeys inner h .delete (some id) (hinner.delete id f.store)
  listWaiting signal f := request_obeys inner h .listWaiting none (hinner.listWaiting signal f.store)
  listByStatus status f :=
    request_obeys inner h .listByStatus none (hinner.listByStatus status f.store)
  contextInfo id f := request_obeys inner h .contextInfo (some id) (hinner.contextInfo id f.store)

end Faulty

/-! ### Notes -/

/-- A store with a journal of what has been done to it. -/
structure Journaled (R : Type) where
  store : R
  journal : Journal := []

/-- Make a request, and note what it did. -/
def Journaled.noting (call : Nat) (deeds : α → List Deed) (ask : R → Reply R α)
    (j : Journaled R) : Reply (Journaled R) α :=
  match ask j.store with
  | (.ok a, store) => (.ok a, ⟨store, (deeds a).map (Entry.mk call) ++ j.journal⟩)
  | (.error fault, store) => (.error fault, ⟨store, j.journal⟩)

/-- The repository `inner`, with notes of what a call does through it. -/
def Repository.journaled (call : Nat) (inner : Repository R) : Repository (Journaled R) where
  save s := Journaled.noting call (fun _ => [.created s]) (inner.save s)
  get id := Journaled.noting call (fun s => s.toList.map .read) (inner.get id)
  update s expected := Journaled.noting call (fun _ => [.stored s]) (inner.update s expected)
  delete id := Journaled.noting call (fun _ => [.deleted id]) (inner.delete id)
  listWaiting signal := Journaled.noting call (·.map .read) (inner.listWaiting signal)
  listByStatus status := Journaled.noting call (·.map .read) (inner.listByStatus status)
  contextInfo id := Journaled.noting call (fun _ => []) (inner.contextInfo id)

/-- The journal is legal, as long as no identifier is given twice, and tells what is stored. -/
structure Journaled.Told (view : R → Uuid → Option Instance) (j : Journaled R) : Prop where
  legal : j.journal.Unique → j.journal.Legal
  stored : view j.store = j.journal.current

/-- What one request of a call does to a store with a journal. -/
structure Journaled.Does (view : R → Uuid → Option Instance) (call : Nat) (j j' : Journaled R) :
    Prop where
  told : j'.Told view
  noted : j.journal.Noted call j'.journal

namespace Journaled

variable {view : R → Uuid → Option Instance} {inner : Repository R} {call : Nat} {j : Journaled R}
  {s t : Instance} {id : Uuid}

/-- A request that leaves what is stored, and of which nothing is noted. -/
theorem Told.same (h : j.Told view) {store : R} (hview : view store = view j.store) :
    j.Does view call ⟨store, j.journal⟩ :=
  ⟨⟨h.legal, hview.trans h.stored⟩, .refl⟩

/-- One more note. -/
theorem Told.note (h : j.Told view) {d : Deed} {store : R}
    (hallows : j.journal.Unique → j.journal.Legal → j.journal.Allows call d)
    (hview : view store = Journal.current (⟨call, d⟩ :: j.journal)) :
    j.Does view call ⟨store, ⟨call, d⟩ :: j.journal⟩ :=
  ⟨⟨fun hu => ⟨hallows hu.tail (h.legal hu.tail), h.legal hu.tail⟩, hview⟩,
    .deed d⟩

/-- What a call makes of a request: an answer in which `Q` holds with the notes of the request
taken. -/
def Answers (view : R → Uuid → Option Instance) (call : Nat) (j : Journaled R) {α : Type}
    (Q : α → Journal → Prop) (reply : Reply (Journaled R) α) : Prop :=
  j.Does view call reply.2 ∧ ∀ a, reply.1 = .ok a → Q a reply.2.journal

theorem noting_answers (h : j.Told view) {deeds : α → List Deed} {ask : R → Reply R α}
    {S : α → R → Prop} {Q : α → Journal → Prop} (hask : (ask j.store).Obeys view j.store S)
    (hok : ∀ a store, S a store →
      j.Does view call ⟨store, (deeds a).map (Entry.mk call) ++ j.journal⟩ ∧
      Q a ((deeds a).map (Entry.mk call) ++ j.journal)) :
    Answers view call j Q (noting call deeds ask j) := by
  unfold noting
  revert hask
  obtain ⟨answer, store⟩ := ask j.store
  cases answer with
  | ok a =>
    intro hask
    obtain ⟨hdoes, hq⟩ := hok a store hask
    exact ⟨hdoes, fun b hb => Except.ok.inj hb ▸ hq⟩
  | error fault => exact fun hask => ⟨h.same hask, by simp⟩

theorem get_answers (hlaw : inner.Lawful view) (h : j.Told view)
    (hnew : j.journal.Untouched call id) :
    Answers view call j (fun found j' => ∀ s ∈ found, s.id = id ∧ ⟨call, .read s⟩ ∈ j')
      ((inner.journaled call).get id j) := by
  refine noting_answers h (hlaw.get id j.store) fun found store ⟨hview, hfound⟩ => ?_
  cases found with
  | none => exact ⟨h.same hview, by simp⟩
  | some s =>
    have hcurrent : j.journal.current id = some s := by
      rw [← h.stored]
      exact hfound s rfl
    have hid := Journal.current_id hcurrent
    refine ⟨h.note (fun _ _ => ⟨hid ▸ hcurrent, fun d hd hdid => ?_⟩) ?_, ?_⟩
    · exact absurd (hdid.trans hid) (hnew d hd)
    · exact hview.trans h.stored
    · intro t ht
      cases ht
      exact ⟨hid, List.mem_cons_self ..⟩

theorem save_answers (hlaw : inner.Lawful view) (h : j.Told view)
    (hnew : j.journal.Untouched call s.id) (hrevision : s.revision = 0)
    (hstatus : s.status = .created) :
    Answers view call j (fun _ j' => j'.Knows call s) ((inner.journaled call).save s j) := by
  refine noting_answers h (hlaw.save s j.store) fun _ store ⟨hnone, hview⟩ => ⟨?_, ?_⟩
  · rw [h.stored] at hnone
    refine h.note (fun _ _ => ⟨hnone, hnew, hrevision, hstatus⟩) (funext fun id => ?_)
    rw [hview id, h.stored]
    rfl
  · exact ⟨_, List.mem_cons_self .., rfl⟩

/-- A call stores the successor of a version that it knows. -/
theorem update_answers (hlaw : inner.Lawful view) (h : j.Told view)
    (hknows : j.journal.Knows call t) (hid : t.id = s.id) (hrevision : s.revision = t.revision + 1)
    (hstatus : t.status.allows s.status = true) :
    Answers view call j (fun _ j' => ⟨call, .stored s⟩ ∈ j')
      ((inner.journaled call).update s t.revision j) := by
  refine noting_answers h (hlaw.update s t.revision j.store)
    fun _ store ⟨⟨u, hu, hexpected⟩, hview⟩ => ⟨?_, List.mem_cons_self ..⟩
  rw [h.stored] at hu
  refine h.note (fun hunique hlegal => ?_) (funext fun id => ?_)
  · obtain ⟨d, hd, hversion⟩ := hknows
    rcases hlegal.later_of_version hunique hd hversion (hid ▸ hu) with rfl | hlt
    · exact ⟨u, hu, ⟨d, hd, hversion⟩, hrevision, hstatus⟩
    · omega
  · rw [hview id, h.stored]
    rfl

theorem delete_answers (hlaw : inner.Lawful view) (h : j.Told view)
    (hnew : ∀ t, ¬j.journal.Knows call t) :
    Answers view call j (fun _ _ => True) ((inner.journaled call).delete id j) := by
  refine noting_answers h (hlaw.delete id j.store) fun _ store hview => ⟨?_, trivial⟩
  refine h.note (fun _ _ => hnew) (funext fun i => ?_)
  rw [hview i, h.stored]
  rfl

theorem contextInfo_answers (hlaw : inner.Lawful view) (h : j.Told view) :
    Answers view call j (fun _ j' => j' = j.journal) ((inner.journaled call).contextInfo id j) :=
  noting_answers h (hlaw.contextInfo id j.store) fun _ _ hview => ⟨h.same hview, rfl⟩

theorem legal_reads {l : List Instance} {j : Journal} (hj : j.Legal)
    (hl : ∀ s ∈ l, j.current s.id = some s) (hnew : ∀ id, j.Untouched call id) :
    Journal.Legal (l.map (fun s => ⟨call, .read s⟩) ++ j) := by
  induction l with
  | nil => exact hj
  | cons s l ih =>
    have hrest : ∀ s ∈ l, j.current s.id = some s := fun s hs => hl s (List.mem_cons_of_mem _ hs)
    have hs := hl s (List.mem_cons_self ..)
    refine ⟨⟨(congrFun (Journal.current_reads call l j) s.id).trans hs, fun d hd hid => ?_⟩, ih hrest⟩
    rcases List.mem_append.1 hd with hd | hd
    · simp only [List.mem_map, Entry.mk.injEq, true_and] at hd
      obtain ⟨t, ht, rfl⟩ := hd
      have hid' : t.id = s.id := hid
      have hcurrent := hrest t ht
      rw [hid', hs] at hcurrent
      rw [Option.some.inj hcurrent]
    · exact absurd hid (hnew s.id d hd)

theorem listWaiting_answers (hlaw : inner.Lawful view) (h : j.Told view)
    (hnew : ∀ id, j.journal.Untouched call id) (signal : Option String) :
    Answers view call j (fun found j' => ∀ s ∈ found, j'.Knows call s)
      ((inner.journaled call).listWaiting signal j) := by
  refine noting_answers h (hlaw.listWaiting signal j.store) fun found store ⟨hview, hfound⟩ =>
    ?_
  have hmap : (found.map Deed.read).map (Entry.mk call) = found.map fun s => ⟨call, .read s⟩ :=
    List.map_map
  rw [hmap]
  refine ⟨⟨⟨fun hu => ?_, ?_⟩, .reads found⟩, fun s hs => ⟨.read s, by simp [hs], rfl⟩⟩
  · rw [h.stored] at hfound
    exact legal_reads (h.legal hu.of_append) hfound hnew
  · rw [Journal.current_reads]
    exact hview.trans h.stored

end Journaled

end DurableWorkflow
