import DurableWorkflow.Proofs.Codec.Stored
import DurableWorkflow.Proofs.Journal.Repository
import DurableWorkflow.Repository.Memory
import DurableWorkflow.Repository.Table
import Mathlib.Data.List.Forall2

/-!
# A table answers like memory

A table mirrors memory if its rows are those of the instances in memory, in the same order, and
these instances are kept by the text of their documents. Every call keeps the two alike and is
answered alike, provided that an update leaves alone what is written with the row and never again.
-/

namespace DurableWorkflow

/-! ### Calls of a repository

Calls and their answers as data, so that two repositories can be asked the same. Answers agree if
they are equal, but for the order in a list.
-/

/-- A call of a repository. -/
inductive RepositoryCall where
  | save (s : Instance)
  | get (id : Uuid)
  | update (s : Instance) (expected : Nat)
  | delete (id : Uuid)
  | listWaiting (signal : Option String)
  | listByStatus (status : Status)
  | contextInfo (id : Uuid)

inductive RepositoryAnswer where
  | done (result : Except RepositoryFault Unit)
  | found (result : Except RepositoryFault (Option Instance))
  | deleted (result : Except RepositoryFault Bool)
  | listed (result : Except RepositoryFault (List Instance))
  | info (result : Except RepositoryFault (Option ContextInfo))

namespace RepositoryAnswer

/-- Equal, a list up to its order. -/
def Agrees : RepositoryAnswer → RepositoryAnswer → Prop
  | .listed (.ok as), .listed (.ok bs) => as.Perm bs
  | a, b => a = b

end RepositoryAnswer

namespace RepositoryCall

variable {R : Type}

/-- The answer of a repository, and its store after it. -/
def ask (repository : Repository R) : RepositoryCall → R → RepositoryAnswer × R
  | save s, r => (repository.save s r).map .done id
  | get key, r => (repository.get key r).map .found id
  | update s expected, r => (repository.update s expected r).map .done id
  | delete key, r => (repository.delete key r).map .deleted id
  | listWaiting signal, r => (repository.listWaiting signal r).map .listed id
  | listByStatus status, r => (repository.listByStatus status r).map .listed id
  | contextInfo key, r => (repository.contextInfo key r).map .info id

/-- The answers to one call after the other. -/
def answers (repository : Repository R) : List RepositoryCall → R → List RepositoryAnswer
  | [], _ => []
  | c :: cs, r => (c.ask repository r).1 :: answers repository cs (c.ask repository r).2

end RepositoryCall

open Json

/-! ### Rows of instances -/

theorem Status.text_injective : Function.Injective Status.text := fun s t h => by
  have hst : some s = some t := by rw [← s.ofText?_text, h, t.ofText?_text]
  exact Option.some.inj hst

theorem Status.text_beq (s t : Status) : (s.text == t.text) = (s == t) := by
  rw [Bool.eq_iff_iff, beq_iff_eq, beq_iff_eq]
  exact ⟨fun h => text_injective h, congrArg text⟩

namespace Instance

/-- What can be stored as a row and read back. -/
structure Lasting (s : Instance) : Prop where
  valid : s.Valid
  storable : s.Storable
  revision : s.revision < Row.revisionLimit

/-- What is written with the row of an instance and never again. -/
structure Same (s t : Instance) : Prop where
  workflow : s.workflow = t.workflow
  version : s.version = t.version
  contextType : s.contextType = t.contextType
  createdAt : s.createdAt = t.createdAt

end Instance

namespace Row

/-- The document of a row stands for its text. -/
theorem ofText?_document {s : Instance} (h : s.Lasting) (hn : s.Carries Narrow) :
    Instance.ofJson? (ofInstance s).document.reread = Instance.ofText? s.text := by
  rw [Instance.ofText?_text h.valid hn h.storable]
  simp only [ofInstance, Instance.reread_toJson, Instance.reread_eq h.storable.exact,
    Instance.ofJson?_toJson h.valid h.storable.own]

theorem checkRevision_eq {n : Nat} (h : n < revisionLimit) : checkRevision n = .ok n := if_pos h

theorem toInstance_ofInstance {s : Instance} (h : s.Lasting) :
    (ofInstance s).toInstance = .ok s := by
  simp only [toInstance, ofInstance, Instance.reread_toJson, Instance.reread_eq h.storable.exact,
    Instance.ofJson?_toJson h.valid h.storable.own]

theorem contextInfo_ofInstance {s : Instance} (h : s.Valid) :
    (ofInstance s).contextInfo = .ok s.contextInfo := by
  simp only [contextInfo, ofInstance, Version.parse_text h.version]
  rfl

theorem write_ofInstance {s t : Instance} (hid : t.id = s.id) (h : s.Same t) :
    (ofInstance t).write s = ofInstance s := by
  simp only [write, ofInstance, hid, h.workflow, h.version, h.contextType, h.createdAt]

theorem waiting_ofInstance (signal : Option String) (s : Instance) :
    ((ofInstance s).status == Status.waiting.text &&
      signal.all fun name => (ofInstance s).awaited == some name) =
    match signal with
    | some name => s.isWaitingFor name
    | none => s.status == .waiting := by
  simp only [ofInstance, Status.text_beq]
  cases signal with
  | none => exact Bool.and_true _
  | some name => rfl

/-- Rows of instances are read as these instances. -/
theorem mapM_toInstance {rows : List Row} {instances : List Instance}
    (hrows : rows.Perm (instances.map ofInstance)) (h : ∀ s ∈ instances, s.Lasting) :
    ∃ read, rows.mapM toInstance = .ok read ∧ read.Perm instances := by
  let read (r : Row) : Instance := (r.toInstance.toOption).getD default
  have hread : ∀ s ∈ instances, read (ofInstance s) = s := fun s hs => by
    simp only [read, toInstance_ofInstance (h s hs)]
    rfl
  have hok : ∀ r ∈ rows, r.toInstance = .ok (read r) := fun r hr => by
    obtain ⟨s, hs, rfl⟩ := List.mem_map.1 (hrows.subset hr)
    rw [hread s hs, toInstance_ofInstance (h s hs)]
  have hmapM : ∀ rows : List Row, (∀ r ∈ rows, r.toInstance = .ok (read r)) →
      rows.mapM toInstance = .ok (rows.map read) := by
    intro rows hok
    induction rows with
    | nil => rfl
    | cons r rest ih =>
      rw [List.mapM_cons, hok r (by simp), ih fun r hr => hok r (by simp [hr])]
      rfl
  refine ⟨rows.map read, hmapM rows hok, ?_⟩
  have hmap : (instances.map ofInstance).map read = instances := by
    rw [List.map_map]
    exact (List.map_congr_left hread).trans (List.map_id' _)
  exact hmap ▸ hrows.map read

end Row

/-! ### Calls that a table understands -/

namespace RepositoryCall

/-- What is stored can be read back, and an update leaves alone what is written once. -/
def Sound (m : Memory) : RepositoryCall → Prop
  | save s => s.Lasting
  | update s expected => s.Lasting ∧ expected < Row.revisionLimit ∧
      ∀ stored, m.find? s.id = some stored → stored.revision = expected → s.Same stored
  | get _ | delete _ | listWaiting _ | listByStatus _ | contextInfo _ => True

/-- Each call is sound where it is made. -/
def AllSound : List RepositoryCall → Memory → Prop
  | [], _ => True
  | c :: cs, m => c.Sound m ∧ AllSound cs (c.ask Memory.repository m).2

end RepositoryCall

/-! ### Alike -/

/-- The rows are those of the instances in memory, which can all be read back. -/
structure Table.Mirrors (t : Table) (m : Memory) : Prop where
  rows : t.rows = m.instances.map Row.ofInstance
  lasting : ∀ s ∈ m.instances, s.Lasting

namespace Table.Mirrors

variable {t : Table} {m : Memory}

theorem find? (h : t.Mirrors m) (id : Uuid) : t.find? id = (m.find? id).map Row.ofInstance := by
  have hid : (fun r : Row => r.id == id.text) ∘ Row.ofInstance = fun s => s.id == id :=
    funext fun s => s.id.text_beq id
  rw [Table.find?, h.rows, List.find?_map, hid, Memory.find?]

theorem found (h : t.Mirrors m) {id : Uuid} {s : Instance} (hs : m.find? id = some s) :
    s.Lasting := h.lasting s (List.mem_of_find?_eq_some hs)

theorem select (h : t.Mirrors m) (keep : Row → Bool) {keep' : Instance → Bool}
    (hkeep : ∀ s, keep (Row.ofInstance s) = keep' s) :
    ∃ read, t.select keep = .ok read ∧ read.Perm (m.select keep') := by
  have hrows : ((t.rows.filter keep).mergeSort Row.older).Perm
      ((m.instances.filter keep').map Row.ofInstance) := by
    have hfilter : t.rows.filter keep = (m.instances.filter keep').map Row.ofInstance := by
      rw [h.rows, List.filter_map, show keep ∘ Row.ofInstance = keep' from funext hkeep]
    rw [hfilter]
    exact List.mergeSort_perm _ _
  obtain ⟨read, hread, hperm⟩ := Row.mapM_toInstance hrows
    fun s hs => h.lasting s (List.mem_filter.1 hs).1
  exact ⟨read, hread, hperm.trans (List.mergeSort_perm _ _).symm⟩

theorem insert (h : t.Mirrors m) {s : Instance} (hs : s.Lasting) (hnew : m.find? s.id = none) :
    Table.Mirrors ⟨Row.ofInstance s :: t.rows⟩ (m.insert s hnew) where
  rows := by simp only [Memory.insert, List.map_cons, h.rows]
  lasting := by simpa [Memory.insert] using ⟨hs, h.lasting⟩

theorem erase (h : t.Mirrors m) (id : Uuid) : (t.erase id).Mirrors (m.erase id) where
  rows := by
    have hid : (fun r : Row => r.id != id.text) ∘ Row.ofInstance = fun s => s.id != id := by
      funext s
      simp only [Function.comp_apply, bne, Row.ofInstance, Uuid.text_beq]
    simp only [Table.erase, Memory.erase, h.rows, List.filter_map, hid]
  lasting := fun s hs => h.lasting s (List.mem_filter.1 hs).1

theorem replace (h : t.Mirrors m) {s stored : Instance} (hs : s.Lasting)
    (hstored : m.find? s.id = some stored) (hsame : s.Same stored) :
    Table.Mirrors ⟨t.rows.map fun r => if r.id = s.id.text then r.write s else r⟩
      (m.replace s) where
  rows := by
    simp only [Memory.replace, h.rows, List.map_map]
    refine List.map_congr_left fun u hu => ?_
    have hrow : (Row.ofInstance u).id = s.id.text ↔ u.id = s.id :=
      ⟨fun he => Uuid.text_injective he, congrArg Uuid.text⟩
    simp only [Function.comp_apply, hrow]
    split
    · next hid =>
      have hu : u = stored := by
        rw [← hid, Memory.find?_of_mem hu] at hstored
        exact Option.some.inj hstored
      exact Row.write_ofInstance (hu ▸ hid) (hu ▸ hsame)
    · rfl
  lasting := by
    intro u hu
    obtain ⟨v, hv, rfl⟩ := List.mem_map.1 hu
    split
    · exact hs
    · exact h.lasting v hv

/-- A call is answered alike, and the stores are alike after it. -/
theorem ask (h : t.Mirrors m) {c : RepositoryCall} (hc : c.Sound m) :
    (c.ask Table.repository t).1.Agrees (c.ask Memory.repository m).1 ∧
      (c.ask Table.repository t).2.Mirrors (c.ask Memory.repository m).2 := by
  cases c with
  | save s =>
    simp only [RepositoryCall.ask, Table.repository, Memory.repository, Table.save, h.find?,
      Row.checkRevision_eq (Instance.Lasting.revision hc)]
    unfold Memory.save
    split <;> split
    · exact ⟨rfl, h⟩
    · next row hrow hnew => rw [hnew] at hrow; cases hrow
    · next hrow _ hfound => rw [hfound] at hrow; cases hrow
    · next hnew => exact ⟨rfl, h.insert hc hnew⟩
  | get id =>
    simp only [RepositoryCall.ask, Table.repository, Memory.repository, h.find?]
    cases hfound : m.find? id with
    | none => exact ⟨rfl, h⟩
    | some s =>
      simp only [Option.map_some, Row.toInstance_ofInstance (h.found hfound)]
      exact ⟨rfl, h⟩
  | update s expected =>
    obtain ⟨hs, hexpected, hsame⟩ := hc
    simp only [RepositoryCall.ask, Table.repository, Memory.repository, Table.update,
      Memory.update, h.find?, Row.checkRevision_eq hs.revision, Row.checkRevision_eq hexpected]
    cases hfound : m.find? s.id with
    | none => exact ⟨rfl, h⟩
    | some stored =>
      by_cases hrevision : stored.revision = expected
      · simp only [Option.map_some, Row.ofInstance, hrevision, if_true]
        exact ⟨rfl, h.replace hs hfound (hsame stored hfound hrevision)⟩
      · simp only [Option.map_some, Row.ofInstance, hrevision, if_false]
        exact ⟨rfl, h⟩
  | delete id =>
    simp only [RepositoryCall.ask, Table.repository, Memory.repository, Table.delete,
      Memory.delete, h.find?, Option.isSome_map]
    exact ⟨rfl, h.erase id⟩
  | listWaiting signal =>
    obtain ⟨read, hread, hperm⟩ := h.select
      (fun r => r.status == Status.waiting.text && signal.all fun s => r.awaited == some s)
      (Row.waiting_ofInstance signal)
    simp only [RepositoryCall.ask, Table.repository, Memory.repository, hread]
    exact ⟨hperm, h⟩
  | listByStatus status =>
    obtain ⟨read, hread, hperm⟩ := h.select (fun r => r.status == status.text)
      fun s => Status.text_beq s.status status
    simp only [RepositoryCall.ask, Table.repository, Memory.repository, hread]
    exact ⟨hperm, h⟩
  | contextInfo id =>
    simp only [RepositoryCall.ask, Table.repository, Memory.repository, h.find?]
    cases hfound : m.find? id with
    | none => exact ⟨rfl, h⟩
    | some s =>
      simp only [Option.map_some, Row.contextInfo_ofInstance (h.found hfound).valid]
      exact ⟨rfl, h⟩

end Table.Mirrors

namespace RepositoryCall

theorem answers_agree : ∀ {calls : List RepositoryCall} {t : Table} {m : Memory}, t.Mirrors m →
    AllSound calls m →
    List.Forall₂ RepositoryAnswer.Agrees (answers Table.repository calls t)
      (answers Memory.repository calls m)
  | [], _, _, _, _ => .nil
  | _ :: _, _, _, h, ⟨hc, hcalls⟩ =>
    have ⟨hanswer, hstores⟩ := h.ask hc
    .cons hanswer (answers_agree hstores hcalls)

/-- Calls in a row, each sound where it is made, are answered by the table as by the memory. -/
theorem table_answers_as_memory {calls : List RepositoryCall} (h : AllSound calls {}) :
    List.Forall₂ RepositoryAnswer.Agrees (answers Table.repository calls {})
      (answers Memory.repository calls {}) :=
  answers_agree ⟨rfl, by simp⟩ h

/-- An instance that ran, waits now. -/
def resting : Instance :=
  { Instance.leaping with
    status := .waiting, awaited := some "approved", delivered := none, revision := 6 }

theorem lasting_leaping : Instance.leaping.Lasting :=
  ⟨Instance.valid_leaping, Instance.storable_leaping, by decide⟩

theorem lasting_resting : resting.Lasting where
  valid := { Instance.valid_leaping with delivered := by simp [resting], revision := by decide }
  storable := {
    own := ⟨Instance.storable_leaping.own.context, by simp [resting]⟩
    exact := ⟨Instance.storable_leaping.exact.context, by simp [resting]⟩
    contextDepth := Instance.storable_leaping.contextDepth
    payloadDepth := by simp [resting] }
  revision := by decide

/-- Each kind of call, and each way in which an instance is refused. -/
def various : List RepositoryCall :=
  [.update resting 5, .save Instance.leaping, .save Instance.leaping, .update resting 5,
    .update resting 5, .get resting.id, .listWaiting (some "approved"), .listByStatus .running,
    .contextInfo resting.id, .delete resting.id, .delete resting.id]

theorem various_answers :
    AllSound various {} ∧ List.Forall₂ RepositoryAnswer.Agrees (answers Table.repository various {})
      (answers Memory.repository various {}) := by
  have hsound : AllSound various {} := by
    refine ⟨⟨lasting_resting, by decide, fun _ h => by cases h⟩, lasting_leaping, lasting_leaping,
      ⟨lasting_resting, by decide, fun stored h _ => ?_⟩,
      ⟨lasting_resting, by decide, fun stored h hrevision => ?_⟩,
      trivial, trivial, trivial, trivial, trivial, trivial, trivial⟩
    · cases h
      exact ⟨rfl, rfl, rfl, rfl⟩
    · cases h
      cases hrevision
  exact ⟨hsound, table_answers_as_memory hsound⟩

end RepositoryCall

/-!
## What a repository gives back

A repository that keeps its promises gives back the instance that it was given. One that keeps texts
gives back what it reads in them, which is the same instance only where the text is read as it was
written. `Recalls` says for which instances a repository gives back what it was given.
-/

variable {R : Type}

/-- `view` tells what the repository gives back: what it was given, where `K` holds of that. -/
structure Repository.Recalls (repository : Repository R) (view : R → Uuid → Option Instance)
    (K : Instance → Prop) : Prop where
  get : ∀ id r s, (repository.get id r).1 = .ok (some s) → view r id = some s
  update : ∀ s expected r, K s → (repository.update s expected r).1 = .ok () →
    view (repository.update s expected r).2 s.id = some s

theorem Repository.Lawful.recalls {repository : Repository R} {view : R → Uuid → Option Instance}
    (hlaw : repository.Lawful view) : repository.Recalls view fun _ => True where
  get id r s h := by
    have hobeys := hlaw.get id r
    revert h hobeys
    generalize repository.get id r = reply
    obtain ⟨answer, r'⟩ := reply
    rintro rfl ⟨-, hfound⟩
    exact hfound s rfl
  update s expected r _ h := by
    have hobeys := hlaw.update s expected r
    revert h hobeys
    generalize repository.update s expected r = reply
    obtain ⟨answer, r'⟩ := reply
    rintro rfl ⟨-, hview⟩
    exact (hview s.id).trans (if_pos rfl)

namespace Table

/-- The instance that is read in the row of this identifier. -/
def read? (t : Table) (id : Uuid) : Option Instance :=
  (t.find? id).bind fun row => row.toInstance.toOption

theorem read?_of_find? {t : Table} {id : Uuid} {row : Row} {s : Instance}
    (hrow : t.find? id = some row) (hs : row.toInstance = .ok s) : t.read? id = some s := by
  rw [read?, hrow, Option.bind_some, hs]
  rfl

/-- What is written into a row of an instance is found there. -/
theorem find?_write {t : Table} {s : Instance} {row : Row} (h : t.find? s.id = some row) :
    Table.find? ⟨t.rows.map fun r => if r.id = s.id.text then r.write s else r⟩ s.id =
      some (row.write s) := by
  have hid : row.id = s.id.text := by simpa using List.find?_some h
  have hsame : ((·.id == s.id.text) ∘ fun r : Row => if r.id = s.id.text then r.write s else r) =
      (·.id == s.id.text) := by
    funext r
    rw [Function.comp_apply]
    split <;> rfl
  rw [find?] at h ⊢
  rw [List.find?_map, hsame, h, Option.map_some, if_pos hid]

/-- Only the document and the revision of a row are read. -/
theorem toInstance_write (row : Row) (s : Instance) :
    (row.write s).toInstance = (Row.ofInstance s).toInstance := by
  simp only [Row.toInstance, Row.write, Row.ofInstance]

theorem update_find? {s : Instance} {expected : Nat} {t : Table}
    (h : (update s expected t).1 = .ok ()) :
    ∃ row, t.find? s.id = some row ∧ (update s expected t).2 =
      ⟨t.rows.map fun r => if r.id = s.id.text then r.write s else r⟩ := by
  unfold update at h ⊢
  split at h
  · simp at h
  · simp at h
  · split at h
    · simp at h
    · next row hrow =>
      split at h
      · next hrevision =>
        refine ⟨row, hrow, ?_⟩
        simp only [hrevision, if_true]
      · simp at h

/-- A table gives back the instances whose documents are read as they were written. -/
theorem repository_recalls :
    repository.Recalls read? fun s => (Row.ofInstance s).toInstance = .ok s where
  get id t s h := by
    simp only [repository] at h
    split at h
    · simp at h
    · next row hrow =>
      refine read?_of_find? hrow ?_
      cases hread : row.toInstance with
      | error fault => simp [hread, Except.map] at h
      | ok s' =>
        rw [hread] at h
        cases h
        rfl
  update s expected t hread h := by
    obtain ⟨row, hrow, hstore⟩ := update_find? h
    have hshown : (repository.update s expected t).2 = _ := hstore
    rw [hshown]
    exact read?_of_find? (find?_write hrow) ((toInstance_write row s).trans hread)

end Table

end DurableWorkflow
