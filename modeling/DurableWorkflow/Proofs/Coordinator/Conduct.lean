import DurableWorkflow.Coordinator.Operation
import DurableWorkflow.Proofs.Course.Conduct
import DurableWorkflow.Proofs.Journal.Repository

/-!
# The conduct of calls

What a call owes to all others with whom it shares a repository: its journal stays legal and tells
what is stored, it notes only its own deeds, and it does not set out on a walk before it has stored
a version of the instance that it is about. What the others do is note deeds of their own.

`op.Fulfils Q w` says that the operation keeps this conduct from the world `w` on, and that `Q`
holds of its value and the journal if it ends without an error.
-/

namespace DurableWorkflow

variable {C H R α β : Type}

/-- The call has stored a version; if it is about one instance, the successor of the version of it
that it has read. -/
def Journal.Won (j : Journal) (call : Nat) : Option Uuid → Prop
  | none => ∃ s, ⟨call, .stored s⟩ ∈ j
  | some id => ∃ t s, ⟨call, .read t⟩ ∈ j ∧ ⟨call, .stored s⟩ ∈ j ∧ t.id = id ∧ s.id = id ∧
      s.revision = t.revision + 1

theorem Journal.Grows.won {p : Nat → Prop} {j j' : Journal} {call : Nat} {about : Option Uuid}
    (h : j.Grows p j') (hj : j.Won call about) : j'.Won call about := by
  cases about with
  | none =>
    obtain ⟨s, hs⟩ := hj
    exact ⟨s, h.mem hs⟩
  | some id =>
    obtain ⟨t, s, ht, hs, hids⟩ := hj
    exact ⟨t, s, h.mem ht, h.mem hs, hids⟩

/-- The conduct of a call that is about one instance, or about any. -/
def conduct (H : Type) (view : R → Uuid → Option Instance) (call : Nat) (about : Option Uuid) :
    Conduct (World (Journaled R) H) where
  good w := w.store.Told view
  others w v := w.store.journal.Grows (· ≠ call) v.store.journal
  own w v := w.store.journal.Noted call v.store.journal
  licence w := w.store.journal.Won call about
  refl _ := .refl
  trans := .trans
  own_refl _ := .refl
  licence_others h h' := h'.won h
  licence_own h h' := h'.grows.won h

/-- What the others note does not change whether `F` holds. -/
def Journal.Steady (call : Nat) (F : Journal → Prop) : Prop :=
  ∀ j j', F j → j.Grows (· ≠ call) j' → F j'

/-- No note changes whether `F` holds. -/
def Journal.Lasting (F : Journal → Prop) : Prop :=
  ∀ p j j', F j → j.Grows p j' → F j'

theorem Journal.Lasting.steady {F : Journal → Prop} (h : Lasting F) (call : Nat) : Steady call F :=
  h _

theorem Journal.lasting_true : Lasting fun _ => True := fun _ _ _ _ _ => trivial

theorem Journal.lasting_knows (call : Nat) (t : Instance) : Lasting (·.Knows call t) :=
  fun _ _ _ h h' => h'.knows h

theorem Journal.lasting_knowsAll (call : Nat) (l : List Instance) :
    Lasting fun j => ∀ t ∈ l, j.Knows call t := fun _ _ _ h h' t ht => h'.knows (h t ht)

theorem Journal.lasting_read (call : Nat) (t : Instance) : Lasting (⟨call, .read t⟩ ∈ ·) :=
  fun _ _ _ h h' => h'.mem h

/-- The call has not done anything yet. -/
def Journal.Unknown (j : Journal) (call : Nat) : Prop := ∀ e ∈ j, e.call ≠ call

theorem Journal.Unknown.untouched {j : Journal} {call : Nat} (h : j.Unknown call) (id : Uuid) :
    j.Untouched call id := fun d hd => absurd rfl (h ⟨call, d⟩ hd)

theorem Journal.Unknown.not_knows {j : Journal} {call : Nat} (h : j.Unknown call) (t : Instance) :
    ¬j.Knows call t := fun ⟨_, hd, _⟩ => h _ hd rfl

theorem Journal.steady_unknown (call : Nat) : Steady call (·.Unknown call) := by
  rintro j j' h ⟨l, rfl, hl⟩ e he
  rcases List.mem_append.1 he with he | he
  · exact hl e he
  · exact h e he

section

variable (view : R → Uuid → Option Instance) (call : Nat) (about : Option Uuid)

/-- The course keeps the conduct of the call and ends in `Q`. -/
def Course.Fulfils (Q : α → Journal → Prop)
    (c : Errand C H (Journaled R) α) (w : World (Journaled R) H) : Prop :=
  c.Obeys (conduct H view call about) (fun a w => Q a w.store.journal) w

/-- The operation keeps the conduct of the call and ends in `Q`, unless with an error. -/
def Operation.Fulfils (Q : α → Journal → Prop)
    (op : Operation C H (Journaled R) α) (w : World (Journaled R) H) : Prop :=
  Course.Fulfils view call about (fun r j => ∀ a, r = .ok a → Q a j) op.run w

end

variable {view : R → Uuid → Option Instance} {call : Nat} {about : Option Uuid}
  {w : World (Journaled R) H} {Q : α → Journal → Prop} {S : β → Journal → Prop}

namespace Course.Fulfils

theorem bind {c : Errand C H (Journaled R) α} {k : α → Errand C H (Journaled R) β}
    (h : c.Fulfils view call about Q w)
    (hk : ∀ a v, Q a v.store.journal → (k a).Fulfils view call about S v) :
    (c.bind k).Fulfils view call about S w := Course.Obeys.bind h hk

theorem mono {S : α → Journal → Prop} {c : Errand C H (Journaled R) α}
    (h : c.Fulfils view call about Q w) (hS : ∀ a j, Q a j → S a j) :
    c.Fulfils view call about S w := Course.Obeys.mono h fun a _ hq => hS a _ hq

/-- An action that leaves the store alone. -/
theorem idle {f : World (Journaled R) H → α × World (Journaled R) H}
    (hf : ∀ v, (f v).2.store = v.store) {F : Journal → Prop} (hF : Journal.Steady call F)
    (hw : F w.store.journal) :
    (Course.update f : Errand C H (Journaled R) α).Fulfils view call about (fun _ => F) w := by
  intro v hv hgood
  have hsame := hf v
  refine ⟨?_, ?_, ?_⟩
  · show (f v).2.store.Told view
    rw [hsame]
    exact hgood
  · show v.store.journal.Noted call (f v).2.store.journal
    rw [hsame]
    exact .refl
  · show F (f v).2.store.journal
    rw [hsame]
    exact hF _ _ hw hv

theorem modify {f : World (Journaled R) H → World (Journaled R) H}
    (hf : ∀ v, (f v).store = v.store) {F : Journal → Prop} (hF : Journal.Steady call F)
    (hw : F w.store.journal) :
    (Course.modify f : Errand C H (Journaled R) Unit).Fulfils view call about (fun _ => F) w :=
  idle (f := fun v => ((), f v)) hf hF hw

theorem read {f : World (Journaled R) H → α} {F : Journal → Prop} (hF : Journal.Steady call F)
    (hw : F w.store.journal) :
    (Course.read f : Errand C H (Journaled R) α).Fulfils view call about (fun _ => F) w :=
  idle (f := fun v => (f v, v)) (fun _ => rfl) hF hw

/-- A request to the repository. -/
theorem request {ask : Journaled R → α × Journaled R} {F : Journal → Prop}
    (hF : Journal.Steady call F) (hw : F w.store.journal)
    (h : ∀ j : Journaled R, j.Told view → F j.journal →
      j.Does view call (ask j).2 ∧ Q (ask j).1 (ask j).2.journal) :
    (Course.update (Operation.onStore ask) : Errand C H (Journaled R) α).Fulfils view call about Q
      w := by
  intro v hv hgood
  obtain ⟨hdoes, hq⟩ := h v.store hgood (hF _ _ hw hv)
  exact ⟨hdoes.told, hdoes.noted, hq⟩

end Course.Fulfils

namespace Operation.Fulfils

/-- As a course, whatever it ends with. -/
theorem course {op : Operation C H (Journaled R) α} (h : op.Fulfils view call about Q w) :
    Course.Fulfils view call about (fun _ _ => True) op.run w :=
  Course.Fulfils.mono h fun _ _ _ => trivial

theorem pure {a : α} (h : Q a w.store.journal) :
    Operation.Fulfils view call about Q (pure a : Operation C H (Journaled R) α) w := by
  intro b hb
  cases hb
  exact h

theorem throw (e : CoordinatorError) :
    Operation.Fulfils view call about Q (throw e : Operation C H (Journaled R) α) w := by
  intro b hb
  cases hb

theorem bind {op : Operation C H (Journaled R) α} {k : α → Operation C H (Journaled R) β}
    (h : op.Fulfils view call about Q w)
    (hk : ∀ a v, Q a v.store.journal → (k a).Fulfils view call about S v) :
    (op >>= k).Fulfils view call about S w := by
  refine Course.Fulfils.bind h fun r v hr => ?_
  cases r with
  | ok a => exact hk a v (hr a rfl)
  | error e => exact fun b hb => by cases hb

theorem mono {S : α → Journal → Prop} {op : Operation C H (Journaled R) α}
    (h : op.Fulfils view call about Q w) (hS : ∀ a j, Q a j → S a j) :
    op.Fulfils view call about S w :=
  Course.Fulfils.mono h fun _ j hr a ha => hS a j (hr a ha)

theorem ofErrand {e : Errand C H (Journaled R) α} (h : e.Fulfils view call about Q w) :
    (Operation.ofErrand e).Fulfils view call about Q w :=
  Course.Fulfils.bind h fun a v hq b hb => by
    cases hb
    exact hq

theorem orThrow {e : CoordinatorError} {o : Option α} (h : ∀ a ∈ o, Q a w.store.journal) :
    (Operation.orThrow e o : Operation C H (Journaled R) α).Fulfils view call about Q w := by
  cases o with
  | none => exact .throw e
  | some a => exact .pure (h a rfl)

theorem moved {r : Except TransitionError α} (h : ∀ a, r = .ok a → Q a w.store.journal) :
    (Operation.moved r : Operation C H (Journaled R) α).Fulfils view call about Q w := by
  cases r with
  | error e => exact .throw _
  | ok a => exact .pure (h a rfl)

theorem lift {r : Except CoordinatorError α} (h : ∀ a, r = .ok a → Q a w.store.journal) :
    (liftM r : Operation C H (Journaled R) α).Fulfils view call about Q w := h

theorem crash (m : String) :
    (Operation.crash m : Operation C H (Journaled R) α).Fulfils view call about Q w :=
  .ofErrand (Q := Q) trivial

theorem idle {f : World (Journaled R) H → α × World (Journaled R) H}
    (hf : ∀ v, (f v).2.store = v.store) {F : Journal → Prop} (hF : Journal.Steady call F)
    (hw : F w.store.journal) :
    (Operation.update f : Operation C H (Journaled R) α).Fulfils view call about (fun _ => F) w :=
  .ofErrand (.idle hf hF hw)

theorem modify {f : World (Journaled R) H → World (Journaled R) H}
    (hf : ∀ v, (f v).store = v.store) {F : Journal → Prop} (hF : Journal.Steady call F)
    (hw : F w.store.journal) :
    (Operation.modify f : Operation C H (Journaled R) Unit).Fulfils view call about (fun _ => F)
      w :=
  .ofErrand (.modify hf hF hw)

theorem now {F : Journal → Prop} (hF : Journal.Steady call F) (hw : F w.store.journal) :
    (Operation.now : Operation C H (Journaled R) Timestamp).Fulfils view call about (fun _ => F)
      w :=
  .ofErrand (.read hF hw)

theorem request {ask : Journaled R → Reply (Journaled R) α} {F : Journal → Prop}
    (hF : Journal.Steady call F) (hw : F w.store.journal)
    (h : ∀ j : Journaled R, j.Told view → F j.journal → Journaled.Answers view call j Q (ask j)) :
    (Operation.request ask : Operation C H (Journaled R) α).Fulfils view call about Q w := by
  have hask : (Course.update (Operation.onStore ask) : Errand C H (Journaled R) _).Fulfils view call
      about (fun r j => ∀ a, r = .ok a → Q a j) w := .request hF hw h
  refine (ofErrand hask).bind fun r v hr => ?_
  cases r with
  | ok a => exact .pure (hr a rfl)
  | error fault => exact .throw _

/-- Leases are released at the end, which is no matter of the store. -/
theorem releasing {op : Operation C H (Journaled R) α} (operation : Nat)
    (h : op.Fulfils view call about (fun _ _ => True) w) :
    (Operation.releasing operation op).Fulfils view call about (fun _ _ => True) w := by
  have hall : (Course.ensure (World.release operation) op.run).Obeys (conduct H view call about)
      (fun _ _ => True) w := Course.Obeys.ensure h fun v hgood =>
    ⟨hgood, show v.store.journal.Noted call v.store.journal from .refl⟩
  exact hall.mono fun _ _ _ _ _ => trivial

end Operation.Fulfils

end DurableWorkflow
