import DurableWorkflow.Proofs.Coordinator.Drive
import DurableWorkflow.Proofs.Course.Watch
import DurableWorkflow.Proofs.Journal.Adds
import DurableWorkflow.Proofs.Run.Handing

/-!
# The account of a call

What a call stores is a `Move` of a version that it knows, and on a run it is what `Passed` says of
the books of the run. A walk under way is what is left of a traversal that has begun with a version
which the call has stored itself; if that version records the delivery of a signal, the traversal
begins with this signal.

`op.Accounts a Q w` says that the operation is like this from the world `w` on, and that `Q` holds
of its value and the journal if it ends without an error.
-/

namespace DurableWorkflow

variable {C H R α β : Type}

/-- The path is what is left of a run of an instance that the call has stored. -/
def Coordinator.Runs (c : Coordinator C H R) (call : Nat)
    (path : Walk (Board C H Instance × World (Journaled R) H) Report) (board : Board C H Instance)
    (j : Journal) : Prop :=
  ∃ d ∈ c.definitions, ∃ start context u, ⟨call, .stored u⟩ ∈ j ∧
    Walk.Leaves (((c.journaled call).environment u.id).traverse d start, { context, extra := u })
      (path, board) ∧
    ∀ node signal, u.pendingDelivery = some (node, signal) → start = .signal node u.pending signal

/-- The books of a run of the version `u` that has begun with the delivery of the signal to the
node, with the entry of this node. -/
def Coordinator.Answers (c : Coordinator C H R) (call : Nat) (u : Instance) (node : NodeId)
    (signal : Signal) (books : List StepTrace) : Prop :=
  (∃ d ∈ c.definitions, ∃ context path board,
    Walk.Leaves (((c.journaled call).environment u.id).traverse d (.signal node u.pending signal),
      { context, extra := u }) (path, board) ∧ board.ledger.trace = books) ∧
    ∃ e l, books = e :: l ∧ e.node = node

/-- Who makes a call: its number, the signal that it offers, and the coordinators that it may go
through. -/
structure Caller (C H R : Type) where
  call : Nat
  offer : Option (String × Json)
  coordinators : List (Coordinator C H R)

/-- The call rests on its own runs. -/
def Caller.warrant (a : Caller C H R) : Instance.Warrant where
  offer := a.offer
  answers u node signal books := ∃ c ∈ a.coordinators, c.Answers a.call u node signal books

def Caller.watch (view : R → Uuid → Option Instance) (a : Caller C H R) :
    Watch (World (Journaled R) H) (Board C H Instance) Report where
  good w := w.store.Told view
  others w v := w.store.journal.Grows (· ≠ a.call) v.store.journal
  own w v := w.store.journal.Adds a.call (Instance.Move a.warrant) v.store.journal
  pace s t :=
    s.2.store.journal.Adds a.call (Instance.Passed a.warrant s.1.ledger.trace) t.2.store.journal
  mark path board w := ∃ c ∈ a.coordinators, c.Runs a.call path board w.store.journal
  refl _ := .refl
  trans := .trans
  own_refl _ := .refl

theorem Journal.Adds.grows {call : Nat} {M : Instance → Instance → Prop} {j j' : Journal}
    (h : j.Adds call M j') : j.Grows (· = call) j' := by
  cases h with
  | reads l => exact ⟨_, rfl, by simp⟩
  | created | stored | deleted => exact ⟨[_], rfl, by simp⟩

theorem Journal.lasting_mem (e : Entry) : Lasting (e ∈ ·) := fun _ _ _ h hgrows => hgrows.mem h

section

variable (view : R → Uuid → Option Instance) (a : Caller C H R)

/-- The course is as the account of the call says, and ends in `Q`. -/
def Course.Accounts (Q : α → Journal → Prop) (c : Errand C H (Journaled R) α)
    (w : World (Journaled R) H) : Prop :=
  c.Heeds (a.watch view) (fun a w => Q a w.store.journal) w

/-- The operation is as the account of the call says, and ends in `Q`, unless with an error. -/
def Operation.Accounts (Q : α → Journal → Prop) (op : Operation C H (Journaled R) α)
    (w : World (Journaled R) H) : Prop :=
  Course.Accounts view a (fun r j => ∀ a, r = .ok a → Q a j) op.run w

end

variable {view : R → Uuid → Option Instance} {a : Caller C H R} {w : World (Journaled R) H}
  {Q : α → Journal → Prop} {S : β → Journal → Prop} {F : Journal → Prop}

namespace Course.Accounts

theorem bind {c : Errand C H (Journaled R) α} {k : α → Errand C H (Journaled R) β}
    (h : c.Accounts view a Q w)
    (hk : ∀ b v, Q b v.store.journal → (k b).Accounts view a S v) :
    (c.bind k).Accounts view a S w := Course.Heeds.bind h hk

/-- An action that leaves the store alone. -/
theorem idle {f : World (Journaled R) H → α × World (Journaled R) H}
    (hf : ∀ v, (f v).2.store = v.store) (hF : Journal.Lasting F) (hw : F w.store.journal) :
    (Course.update f : Errand C H (Journaled R) α).Accounts view a (fun _ => F) w := by
  intro v hv _
  have hsame := hf v
  refine ⟨?_, ?_⟩
  · show v.store.journal.Adds a.call _ (f v).2.store.journal
    rw [hsame]
    exact .refl
  · show F (f v).2.store.journal
    rw [hsame]
    exact hF (· ≠ a.call) _ _ hw hv

theorem modify {f : World (Journaled R) H → World (Journaled R) H} (hf : ∀ v, (f v).store = v.store)
    (hF : Journal.Lasting F) (hw : F w.store.journal) :
    (Course.modify f : Errand C H (Journaled R) Unit).Accounts view a (fun _ => F) w :=
  idle (f := fun v => ((), f v)) hf hF hw

theorem read {f : World (Journaled R) H → α} (hF : Journal.Lasting F) (hw : F w.store.journal) :
    (Course.read f : Errand C H (Journaled R) α).Accounts view a (fun _ => F) w :=
  idle (f := fun v => (f v, v)) (fun _ => rfl) hF hw

/-- A request to the repository. -/
theorem request {ask : Journaled R → α × Journaled R} (hF : Journal.Lasting F)
    (hw : F w.store.journal) (h : ∀ j : Journaled R, j.Told view → F j.journal →
      j.journal.Adds a.call (Instance.Move a.warrant) (ask j).2.journal ∧
        Q (ask j).1 (ask j).2.journal) :
    (Course.update (Operation.onStore ask) : Errand C H (Journaled R) α).Accounts view a Q w :=
  fun v hv hgood => h v.store hgood (hF (· ≠ a.call) _ _ hw hv)

end Course.Accounts

namespace Operation.Accounts

/-- As a course, whatever it ends with. -/
theorem course {op : Operation C H (Journaled R) α} (h : op.Accounts view a Q w) :
    Course.Accounts view a (fun _ _ => True) op.run w :=
  Course.Heeds.mono h fun _ _ _ => trivial

theorem pure {b : α} (h : Q b w.store.journal) :
    Operation.Accounts view a Q (pure b : Operation C H (Journaled R) α) w := by
  intro c hc
  cases hc
  exact h

theorem throw (e : CoordinatorError) :
    Operation.Accounts view a Q (throw e : Operation C H (Journaled R) α) w := by
  intro b hb
  cases hb

theorem bind {op : Operation C H (Journaled R) α} {k : α → Operation C H (Journaled R) β}
    (h : op.Accounts view a Q w)
    (hk : ∀ b v, Q b v.store.journal → (k b).Accounts view a S v) :
    (op >>= k).Accounts view a S w := by
  refine Course.Accounts.bind h fun r v hr => ?_
  cases r with
  | ok b => exact hk b v (hr b rfl)
  | error e => exact fun b hb => by cases hb

theorem ofErrand {e : Errand C H (Journaled R) α} (h : e.Accounts view a Q w) :
    (Operation.ofErrand e).Accounts view a Q w :=
  Course.Accounts.bind h fun b v hq c hc => by
    cases hc
    exact hq

theorem orThrow {e : CoordinatorError} {o : Option α} (h : ∀ b ∈ o, Q b w.store.journal) :
    (Operation.orThrow e o : Operation C H (Journaled R) α).Accounts view a Q w := by
  cases o with
  | none => exact .throw e
  | some b => exact .pure (h b rfl)

theorem moved {r : Except TransitionError α} (hw : F w.store.journal) :
    (Operation.moved r : Operation C H (Journaled R) α).Accounts view a
      (fun b j => r = .ok b ∧ F j) w := by
  cases r with
  | error e => exact .throw _
  | ok b => exact .pure ⟨rfl, hw⟩

theorem lift {r : Except CoordinatorError α} (h : ∀ b, r = .ok b → Q b w.store.journal) :
    (liftM r : Operation C H (Journaled R) α).Accounts view a Q w := h

theorem crash (m : String) :
    (Operation.crash m : Operation C H (Journaled R) α).Accounts view a Q w :=
  .ofErrand (Q := Q) trivial

theorem idle {f : World (Journaled R) H → α × World (Journaled R) H}
    (hf : ∀ v, (f v).2.store = v.store) (hF : Journal.Lasting F) (hw : F w.store.journal) :
    (Operation.update f : Operation C H (Journaled R) α).Accounts view a (fun _ => F) w :=
  .ofErrand (.idle hf hF hw)

theorem modify {f : World (Journaled R) H → World (Journaled R) H}
    (hf : ∀ v, (f v).store = v.store) (hF : Journal.Lasting F) (hw : F w.store.journal) :
    (Operation.modify f : Operation C H (Journaled R) Unit).Accounts view a (fun _ => F) w :=
  .ofErrand (.modify hf hF hw)

theorem now (hF : Journal.Lasting F) (hw : F w.store.journal) :
    (Operation.now : Operation C H (Journaled R) Timestamp).Accounts view a (fun _ => F) w :=
  .ofErrand (.read hF hw)

theorem request {ask : Journaled R → Reply (Journaled R) α}
    (h : ∀ j : Journaled R, j.Told view →
      Journaled.Files a.call (Instance.Move a.warrant) j Q (ask j)) :
    (Operation.request ask : Operation C H (Journaled R) α).Accounts view a Q w := by
  have hask : (Course.update (Operation.onStore ask) : Errand C H (Journaled R) _).Accounts view a
      (fun r j => ∀ b, r = .ok b → Q b j) w :=
    .request Journal.lasting_true trivial fun j hj _ => h j hj
  refine (ofErrand hask).bind fun r v hr => ?_
  cases r with
  | ok b => exact .pure (hr b rfl)
  | error fault => exact .throw _

/-- Leases are released at the end, which is no matter of the store. -/
theorem releasing {op : Operation C H (Journaled R) α} (operation : Nat)
    (h : op.Accounts view a (fun _ _ => True) w) :
    (Operation.releasing operation op).Accounts view a (fun _ _ => True) w := by
  have hall : (Course.ensure (World.release operation) op.run).Heeds (a.watch view)
      (fun _ _ => True) w := Course.Heeds.ensure h fun v =>
    show v.store.journal.Adds a.call _ v.store.journal from .refl
  exact hall.mono fun _ _ _ _ _ => trivial

end Operation.Accounts

end DurableWorkflow
