import DurableWorkflow.Coordinator.Basic
import DurableWorkflow.Proofs.Coordinator.Standing
import DurableWorkflow.Proofs.System.Change

/-!
# Calls that are refused

What the steps of a call have been at each of its stages (`Fits`): up to the first thing that it
stores it has only looked. So a call that is refused has changed nothing, and what it is refused for
is what the instance is that it has found (`Coordinator.refusals`).
-/

namespace DurableWorkflow

variable {C H R α : Type} {view : R → Uuid → Option Instance}

namespace Coordinator

variable {c : Coordinator C H R} {call : Call C} {operation : Nat} {id : Uuid}

/-! ### What the steps of a call tell -/

section

variable (c : Coordinator C H R) (view : R → Uuid → Option Instance) (call : Call C)
  (log : List (Course.Stride (World R H) (Board C H Instance) Report call.Answer))

/-- With its second step the call has found this version. -/
def Found (s : Instance) : Prop :=
  ∃ id st₁ st₂ rest, call.target = some id ∧ log = st₁ :: st₂ :: rest ∧
    (c.repository.get id st₂.before.store).1 = .ok (some s)

/-- The call only looks until it stores something. -/
def StoresFirst : Prop :=
  ∃ pre st post, log = pre ++ st :: post ∧ (∀ x ∈ pre, x.Idle view) ∧ st.Stores view

/-- What the steps of a call have been when it has come to a stage. -/
def Fits : Standing → Prop
  | .fresh => log = []
  | .leased => ∃ st, log = [st] ∧ st.Idle view
  | .met => (∀ st ∈ log, st.Idle view) ∧ ∃ id st rest, call.target = some id ∧ log = st :: rest ∧
    (st.before.lease? c.number id).isSome
  | .missed => (∀ st ∈ log, st.Idle view) ∧ ∃ id st₁ st₂ rest, call.target = some id ∧
    log = st₁ :: st₂ :: rest ∧ ∀ s, (c.repository.get id st₂.before.store).1 ≠ .ok (some s)
  | .read s => (∀ st ∈ log, st.Idle view) ∧ Found c call log s
  | .claimed => StoresFirst view call log ∧
    ∃ s, Found c call log s ∧ (call.Needs → c.Serves s)
  | .ran => StoresFirst view call log ∧ (∃ st ∈ log, st.course.own?.isSome) ∧
    ∃ s, Found c call log s ∧ (call.Needs → c.Serves s)
  | .opening => call.target = none ∧ ∀ st ∈ log, st.Idle view
  | .opened => call.target = none ∧ StoresFirst view call log

end

section

variable {log : List (Course.Stride (World R H) (Board C H Instance) Report call.Answer)}
  {st : Course.Stride (World R H) (Board C H Instance) Report call.Answer}

theorem Found.snoc {s : Instance} (h : Found c call log s) : Found c call (log ++ [st]) s := by
  obtain ⟨id, st₁, st₂, rest, hid, rfl, hget⟩ := h
  exact ⟨id, st₁, st₂, rest ++ [st], hid, rfl, hget⟩

theorem StoresFirst.snoc (h : StoresFirst view call log) :
    StoresFirst view call (log ++ [st]) := by
  obtain ⟨pre, x, post, rfl, hpre, hx⟩ := h
  exact ⟨pre, x, post ++ [st], by simp, hpre, hx⟩

theorem idle_snoc (h : ∀ x ∈ log, x.Idle view) (hst : st.Idle view) :
    ∀ x ∈ log ++ [st], x.Idle view := by
  intro x hx
  rcases List.mem_append.1 hx with hx | hx
  · exact h x hx
  · rw [List.mem_singleton.1 hx]
    exact hst

/-- A step that only looks, at a stage that it does not change. -/
theorem Fits.blank {p : Standing} (h : Fits c view call log p) (hp : p.Rests) (hst : st.Idle view) :
    Fits c view call (log ++ [st]) p := by
  cases p with
  | fresh | leased => exact hp.elim
  | met =>
    obtain ⟨hidle, id, x, rest, hid, rfl, hbusy⟩ := h
    exact ⟨idle_snoc hidle hst, id, x, rest ++ [st], hid, rfl, hbusy⟩
  | missed =>
    obtain ⟨hidle, id, x, y, rest, hid, rfl, hmiss⟩ := h
    exact ⟨idle_snoc hidle hst, id, x, y, rest ++ [st], hid, rfl, hmiss⟩
  | read s => exact ⟨idle_snoc h.1 hst, h.2.snoc⟩
  | opening => exact ⟨h.1, idle_snoc h.2 hst⟩
  | claimed =>
    obtain ⟨hfirst, s, hfound, hserves⟩ := h
    exact ⟨hfirst.snoc, s, hfound.snoc, hserves⟩
  | ran =>
    obtain ⟨hfirst, ⟨x, hx, hruns⟩, s, hfound, hserves⟩ := h
    exact ⟨hfirst.snoc, ⟨x, List.mem_append_left _ hx, hruns⟩, s, hfound.snoc, hserves⟩
  | opened => exact ⟨h.1, h.2.snoc⟩

/-- Any step, once the call has stored something. -/
theorem Fits.late {p : Standing} (h : Fits c view call log p) (hp : p.Late) :
    Fits c view call (log ++ [st]) p := by
  cases p with
  | claimed =>
    obtain ⟨hfirst, s, hfound, hserves⟩ := h
    exact ⟨hfirst.snoc, s, hfound.snoc, hserves⟩
  | ran =>
    obtain ⟨hfirst, ⟨x, hx, hruns⟩, s, hfound, hserves⟩ := h
    exact ⟨hfirst.snoc, ⟨x, List.mem_append_left _ hx, hruns⟩, s, hfound.snoc, hserves⟩
  | opened => exact ⟨h.1, h.2.snoc⟩
  | fresh | met | leased | missed | read | opening => exact hp.elim

theorem Fits.snoc {p q : Standing} (h : Fits c view call log p)
    (hst : (refusing c view call).Sees st.course p st.before st.after q) :
    Fits c view call (log ++ [st]) q := by
  cases hst with
  | pace _ hown => exact h.late hown.1
  | land hc hown =>
    cases p with
    | claimed =>
      obtain ⟨hfirst, s, hfound, hserves⟩ := h
      exact ⟨hfirst.snoc, ⟨st, by simp, by rw [hc]; rfl⟩, s, hfound.snoc, hserves⟩
    | ran | opened => exact h.late hown.1
    | fresh | met | leased | missed | read | opening => exact hown.1.elim
  | act hc hact =>
    cases hact with
    | blank hp hblank => exact h.blank hp ⟨hc, hblank⟩
    | late hp => exact h.late hp
    | lease hblank =>
      obtain rfl : log = [] := h
      exact ⟨st, rfl, hc, hblank⟩
    | meet hid hbusy hblank =>
      obtain rfl : log = [] := h
      exact ⟨by simp [Course.Stride.Idle.mk hc hblank], _, st, [], hid, rfl, hbusy⟩
    | find hid hget hblank =>
      obtain ⟨x, rfl, hx⟩ := h
      exact ⟨by simp [hx, Course.Stride.Idle.mk hc hblank], _, x, st, [], hid, rfl, hget⟩
    | miss hid hget hblank =>
      obtain ⟨x, rfl, hx⟩ := h
      exact ⟨by simp [hx, Course.Stride.Idle.mk hc hblank], _, x, st, [], hid, rfl, hget⟩
    | claim hserves hstores =>
      exact ⟨⟨log, st, [], rfl, h.1, hc, hstores⟩, _, h.2.snoc, hserves⟩
    | create hstores => exact ⟨h.1, log, st, [], rfl, h.2, hc, hstores⟩

theorem fits_of_path {p : Standing} (h : (refusing c view call).Path call.first log p) :
    Fits c view call log p := by
  induction h with
  | nil => cases call <;> first | rfl | exact ⟨rfl, fun _ h => nomatch h⟩
  | snoc _ hst ih => exact ih.snoc hst

/-- Up to the first thing that it stores a call has only looked. -/
theorem Fits.idle {p : Standing} (h : Fits c view call log p) (hp : ¬p.Late) :
    ∀ st ∈ log, st.Idle view := by
  cases p with
  | fresh =>
    obtain rfl : log = [] := h
    exact fun _ h => nomatch h
  | leased =>
    obtain ⟨x, rfl, hx⟩ := h
    exact fun y hy => List.mem_singleton.1 hy ▸ hx
  | met | missed | read => exact h.1
  | opening => exact h.2
  | claimed | ran | opened => exact absurd trivial hp

theorem Fits.idle_or_stores {p : Standing} (h : Fits c view call log p) :
    (∀ st ∈ log, st.Idle view) ∨ StoresFirst view call log := by
  cases p with
  | claimed | ran => exact .inr h.1
  | opened => exact .inr h.2
  | fresh | leased | met | missed | read | opening => exact .inl (h.idle fun h => h)

end

/-! ### How a call ends -/

/-- The step after which a call has ended takes back its leases. -/
theorem last_of_trail {c : Errand C H R α} {f : World R H → World R H} {a : α}
    {log : List (Course.Stride (World R H) (Board C H Instance) Report α)}
    (h : Course.Trail (c.ensure f) log (.done a)) :
    ∃ st, log.getLast? = some st ∧ st.after = f st.before := by
  generalize hd : c.ensure f = d at h
  generalize he : Course.done a = e at h
  induction h generalizing c with
  | nil d =>
    subst hd
    cases c <;> cases he
  | @cons d d' e w w' log hstep hlog ih =>
    subst hd
    subst he
    have hmore (c' : Errand C H R α) (hd' : c'.ensure f = d') :
        ∃ st, (⟨c.ensure f, w, w'⟩ :: log).getLast? = some st ∧ st.after = f st.before := by
      obtain ⟨st, hlast, hst⟩ := ih hd' rfl
      refine ⟨st, ?_, hst⟩
      rw [List.getLast?_cons, hlast]
      rfl
    cases c with
    | done b =>
      cases hstep
      cases hlog with
      | nil => exact ⟨_, rfl, rfl⟩
      | cons h => cases h
    | crash m =>
      cases hstep
      cases hlog with
      | cons h => cases h
    | act g rest =>
      cases hstep
      exact hmore _ rfl
    | wait d rest =>
      cases hstep
      exact hmore _ rfl
    | walk cancelled limit own path rest =>
      cases hstep with
      | walk => exact hmore (.walk cancelled limit _ _ rest) rfl
      | arrive => exact hmore _ rfl
      | late => exact hmore _ rfl
    | perform cancelled own work rest =>
      cases hstep with
      | work => exact hmore (.perform cancelled _ _ rest) rfl
      | done => exact hmore _ rfl
      | crash => exact hmore _ rfl

section

variable {op : Operation C H R α} {k : α → Operation C H R α} {f : World R H → World R H}
  {st : Course.Stride (World R H) (Board C H Instance) Report (Except CoordinatorError α)}
  {log : List (Course.Stride (World R H) (Board C H Instance) Report (Except CoordinatorError α))}
  {d : Errand C H R (Except CoordinatorError α)}

theorem after_act {ω τ β γ : Type} {f : ω → ω} {rest : ω → Course ω τ β γ}
    {st : Course.Stride ω τ β γ} {log : List (Course.Stride ω τ β γ)} {d : Course ω τ β γ}
    (h : Course.Trail (.act f rest) (st :: log) d) : Course.Trail (rest st.before) log d := by
  cases h with
  | cons hstep hlog =>
    cases hstep
    exact hlog

theorem after_acquire {k : Unit → Operation C H R α}
    (h : Course.Trail (Course.ensure f (c.acquire operation id >>= k).run) (st :: log) d)
    (hlease : st.before.lease? c.number id = none) :
    Course.Trail (Course.ensure f (k ()).run) log d := by
  have hafter : Course.Trail (Course.ensure f ((do
      unless (World.acquire c.number operation id st.before).1 do throw (.busy id) :
      Operation C H R Unit) >>= k).run) log d := after_act h
  rw [World.acquire_free hlease] at hafter
  exact hafter

theorem after_load {s : Instance} {k : Instance → Operation C H R α}
    (h : Course.Trail (Course.ensure f (c.load id >>= k).run) (st :: log) d)
    (hget : (c.repository.get id st.before.store).1 = .ok (some s)) :
    Course.Trail (Course.ensure f (k s).run) log d := by
  have hfound : (Operation.onStore (c.repository.get id) st.before).1 = .ok (some s) := hget
  have hafter := after_act h
  simp only [hfound] at hafter
  exact hafter

theorem after_now {k : Timestamp → Operation C H R α}
    (h : Course.Trail (Course.ensure f (Operation.now >>= k).run) (st :: log) d) :
    Course.Trail (Course.ensure f (k st.before.wall).run) log d := after_act h

theorem after_throw {e : CoordinatorError}
    (h : Course.Trail (Course.ensure f (throw e : Operation C H R α).run) (st :: log) d) :
    d = .done (.error e) := by
  have hafter : Course.Trail (.done (.error e)) log d := after_act h
  exact hafter.of_done.2

end

/-- With its first two steps a call finds an instance that nobody else is driving. -/
structure Meets (c : Coordinator C H R) (id : Uuid) (s : Instance) {α : Type}
    (st₁ st₂ : Course.Stride (World R H) (Board C H Instance) Report α) : Prop where
  free : st₁.before.lease? c.number id = none
  found : (c.repository.get id st₂.before.store).1 = .ok (some s)

/-- Why a call is refused: by its answer, because the context of the version that it has found
cannot be read, or because what it wanted to claim was not stored. A call that starts an instance
claims what it has stored itself. -/
inductive Call.Refused (c : Coordinator C H R) (call : Call C)
    (log : List (Course.Stride (World R H) (Board C H Instance) Report call.Answer))
    (r : call.Answer) : Prop
  | answer {e : CoordinatorError} (h : call.Fails r e) (he : call.Refuses e) : Refused c call log r
  | unreadable {s : Instance} (hneeds : call.Needs) (hfound : Found c call log s)
    (h : c.kind.decode s.context = none) : Refused c call log r
  | overtaken {id : Uuid} {fault : RepositoryFault} (hid : call.target = some id)
    (h : call.Fails r (.repository fault)) (hruns : ∀ st ∈ log, st.course.own? = none) :
    Refused c call log r

section

variable {log rest : List (Course.Stride (World R H) (Board C H Instance) Report call.Answer)}
  {st₁ st₂ : Course.Stride (World R H) (Board C H Instance) Report call.Answer} {r : call.Answer}
  {s : Instance} {e : CoordinatorError}

theorem Found.unique {t : Instance} (h : Found c call log s) (ht : Found c call log t) : s = t := by
  obtain ⟨id, st₁, st₂, rest, hid, rfl, hget⟩ := h
  obtain ⟨id', st₁', st₂', rest', hid', heq, hget'⟩ := ht
  cases heq
  cases Option.some.inj (hid.symm.trans hid')
  rw [hget] at hget'
  simpa using hget'

/-- The stage at which a call has ended. -/
theorem ended (hlaw : c.repository.Lawful view)
    (h : Course.Trail (c.course operation call) log (.done r)) :
    ∃ p, Fits c view call log p ∧ p.Rests ∧ (∀ e, call.Fails r e → call.Errs e p) ∧
      (call.Needs → p.Late ∨ ∃ e, call.Fails r e) := by
  obtain ⟨p, hpath, hp⟩ := Course.Abides.trail (course_treads hlaw call) h
    fun _ _ => trivial
  exact ⟨p, fits_of_path hpath, hp⟩

theorem idle_of_refused (hlaw : c.repository.Lawful view)
    (h : Course.Trail (c.course operation call) log (.done r)) (hr : call.Refused c log r) :
    ∀ st ∈ log, st.Idle view := by
  obtain ⟨p, hfits, hrests, herrs, -⟩ := ended hlaw h
  rcases hfits.idle_or_stores with hidle | hstores
  · exact hidle
  cases p with
  | fresh | leased => exact hrests.elim
  | met | missed | read => exact hfits.1
  | opening => exact hfits.2
  | claimed =>
    obtain ⟨-, s, hfound, hserves⟩ := hfits
    cases hr with
    | answer hfails => exact (herrs _ hfails).elim
    | unreadable hneed hfound' hnone =>
      have hsome := (hserves hneed).readable
      rw [hfound.unique hfound', hnone] at hsome
      cases hsome
    | overtaken _ hfails => exact (herrs _ hfails).elim
  | ran =>
    obtain ⟨-, ⟨x, hx, hruns⟩, s, hfound, hserves⟩ := hfits
    cases hr with
    | answer hfails hrefuses => exact absurd hrefuses (herrs _ hfails)
    | unreadable hneed hfound' hnone =>
      have hsome := (hserves hneed).readable
      rw [hfound.unique hfound', hnone] at hsome
      cases hsome
    | overtaken _ _ hashore =>
      rw [hashore x hx] at hruns
      cases hruns
  | opened =>
    cases hr with
    | answer hfails hrefuses => exact absurd hrefuses (herrs _ hfails)
    | unreadable _ hfound =>
      obtain ⟨id, -, -, -, hid, -⟩ := hfound
      rw [hfits.1] at hid
      cases hid
    | overtaken hid =>
      rw [hfits.1] at hid
      cases hid

/-- A call that meets an instance is refused for what the instance is. -/
theorem apt_of_answer (hlaw : c.repository.Lawful view) (hid : call.target = some id)
    (h : Course.Trail (c.course operation call) (st₁ :: st₂ :: rest) (.done r))
    (hmeets : Meets c id s st₁ st₂) (hfails : call.Fails r e) (hrefuses : call.Refuses e) :
    call.Apt s e := by
  obtain ⟨p, hfits, hrests, herrs, -⟩ := ended hlaw h
  have herr := herrs e hfails
  cases p with
  | fresh | leased => exact hrests.elim
  | met =>
    obtain ⟨-, id', st, rest', hid', heq, hbusy⟩ := hfits
    cases heq
    cases Option.some.inj (hid.symm.trans hid')
    rw [hmeets.free] at hbusy
    cases hbusy
  | missed =>
    obtain ⟨-, id', x, y, rest', hid', heq, hmiss⟩ := hfits
    cases heq
    cases Option.some.inj (hid.symm.trans hid')
    exact absurd hmeets.found (hmiss s)
  | read t =>
    have hfound : Found c call (st₁ :: st₂ :: rest) s :=
      ⟨id, st₁, st₂, rest, hid, rfl, hmeets.found⟩
    rw [hfound.unique hfits.2]
    exact herr
  | claimed => exact herr.elim
  | ran | opened => exact absurd hrefuses herr
  | opening =>
    rw [hfits.1] at hid
    cases hid

end

/-- When a call has ended no lease of its operation is left. -/
theorem released_of_ended {log : List (Course.Stride (World R H) (Board C H Instance) Report call.Answer)}
    {r : call.Answer} (h : Course.Trail (c.course operation call) log (.done r)) :
    ∃ st, log.getLast? = some st ∧ ∀ l ∈ st.after.leases, l.operation ≠ operation := by
  have hlast : ∃ st, log.getLast? = some st ∧ st.after = World.release operation st.before := by
    cases call <;> exact last_of_trail h
  obtain ⟨st, hst, hafter⟩ := hlast
  refine ⟨st, hst, fun l hl => ?_⟩
  rw [hafter, World.release, List.mem_filter] at hl
  simpa using hl.2

section

variable {s : Instance} {name : String} {payload : Json} {α : Type}

/-- After its third step a call that delivers a signal has been refused, or never is. -/
theorem signal_refused_iff (hlaw : c.repository.Lawful view) (hs : s.WellFormed)
    {st₁ st₂ st₃ : Course.Stride (World R H) (Board C H Instance) Report _} {rest : List _}
    {d : Errand C H R _}
    (h : Course.Trail (c.course operation (.signal id name payload)) (st₁ :: st₂ :: st₃ :: rest) d)
    (hmeets : Meets c id s st₁ st₂) :
    (∃ i n status, d = .done (.error (.notWaiting i n status))) ↔
      s.isWaitingFor name = false := by
  constructor
  · rintro ⟨i, n, status, rfl⟩
    exact apt_of_answer hlaw rfl h hmeets rfl trivial hs
  · intro hwaits
    have hloaded := after_load (after_acquire h hmeets.free) hmeets.found
    rw [hwaits, if_neg Bool.false_ne_true] at hloaded
    exact ⟨id, name, s.status, after_throw hloaded⟩

theorem resume_refused_iff (hlaw : c.repository.Lawful view)
    {st₁ st₂ st₃ st₄ : Course.Stride (World R H) (Board C H Instance) Report _} {rest : List _}
    {d : Errand C H R _}
    (h : Course.Trail (c.course operation (.resume id)) (st₁ :: st₂ :: st₃ :: st₄ :: rest) d)
    (hmeets : Meets c id s st₁ st₂) :
    ((∃ i n, d = .done (.error (.awaitingSignal i n))) ↔ s.status = .waiting) ∧
      ((∃ e, d = .done (.error (.invalidTransition e))) ↔ s.status.isFinal = true) := by
  have hloaded := after_now (after_load (after_acquire h hmeets.free) hmeets.found)
  refine ⟨⟨?_, fun hs => ?_⟩, ?_, fun hs => ?_⟩
  · rintro ⟨i, n, rfl⟩
    exact apt_of_answer hlaw rfl h hmeets rfl trivial
  · have hrevive : revive s st₃.before.wall = .error (.awaitingSignal s.id (s.awaited.getD "")) := by
      simp only [revive, hs]
    rw [hrevive] at hloaded
    exact ⟨_, _, after_throw hloaded⟩
  · rintro ⟨e, rfl⟩
    exact apt_of_answer hlaw rfl h hmeets rfl trivial
  · have hrevive : revive s st₃.before.wall = .error (.invalidTransition ⟨s.status, .running⟩) := by
      cases hstatus : s.status <;> simp_all [revive, Status.isFinal]
    rw [hrevive] at hloaded
    exact ⟨_, after_throw hloaded⟩

theorem cancel_refused_iff (hlaw : c.repository.Lawful view)
    {st₁ st₂ st₃ st₄ : Course.Stride (World R H) (Board C H Instance) Report _} {rest : List _}
    {d : Errand C H R _}
    (h : Course.Trail (c.course operation (.cancel id)) (st₁ :: st₂ :: st₃ :: st₄ :: rest) d)
    (hmeets : Meets c id s st₁ st₂) :
    (∃ e, d = .done (.error (.invalidTransition e))) ↔ s.status.isFinal = true := by
  constructor
  · rintro ⟨e, rfl⟩
    exact apt_of_answer hlaw rfl h hmeets rfl trivial
  · intro hs
    have hacquired := after_act h
    have hfree : c.acquireOrCancel operation id st₁.before =
        (true, st₁.before.grant c.number operation id) := by
      unfold acquireOrCancel
      rw [World.acquire_free hmeets.free]
    simp only [hfree] at hacquired
    have hloaded := after_now (after_load hacquired hmeets.found)
    have hmove : s.transition .cancelled st₃.before.wall = .error ⟨s.status, .cancelled⟩ := by
      unfold Instance.transition
      rw [Status.not_allows_of_isFinal hs, if_neg Bool.false_ne_true]
    rw [hmove] at hloaded
    exact ⟨_, after_throw hloaded⟩

end

/-- What holds of the calls of a coordinator, whatever the others do between two steps of a call. -/
structure Refusals (c : Coordinator C H R) (view : R → Uuid → Option Instance) (operation : Nat) :
    Prop where
  /-- Up to the first thing that it stores a call only looks. -/
  first : ∀ call log d, Course.Trail (c.course operation call) log d →
    (∀ st ∈ log, st.Idle view) ∨ StoresFirst view call log
  /-- A call that is refused has changed nothing, run nothing and told nobody. -/
  refused : ∀ call log r, Course.Trail (c.course operation call) log (.done r) →
    call.Refused c log r → ∀ st ∈ log, st.Idle view
  released : ∀ call log r, Course.Trail (c.course operation call) log (.done r) →
    ∃ st, log.getLast? = some st ∧ ∀ l ∈ st.after.leases, l.operation ≠ operation
  /-- A call goes on until it ends. -/
  proceeds : ∀ call log d, Course.Trail (c.course operation call) log d → (∀ r, d ≠ .done r) →
    (∀ m, d ≠ .crash m) → ∀ w, ∃ y, Course.Step (d, w) y
  /-- After its third step, and for ever, a call that delivers a signal has been refused if and only
  if the instance is not waiting for this signal. -/
  signal : ∀ id name payload s st₁ st₂ st₃ rest d, s.WellFormed →
    Course.Trail (c.course operation (.signal id name payload)) (st₁ :: st₂ :: st₃ :: rest) d →
    Meets c id s st₁ st₂ → ((∃ i n status, d = .done (.error (.notWaiting i n status))) ↔
      s.isWaitingFor name = false)
  /-- After its fourth step so has a call that resumes what waits or has ended, -/
  resume : ∀ id s st₁ st₂ st₃ st₄ rest d, s.WellFormed →
    Course.Trail (c.course operation (.resume id)) (st₁ :: st₂ :: st₃ :: st₄ :: rest) d →
    Meets c id s st₁ st₂ →
      ((∃ i n, d = .done (.error (.awaitingSignal i n))) ↔ s.status = .waiting) ∧
      ((∃ e, d = .done (.error (.invalidTransition e))) ↔ s.status.isFinal = true)
  /-- and a call that cancels what has ended. -/
  cancel : ∀ id s st₁ st₂ st₃ st₄ rest d, s.WellFormed →
    Course.Trail (c.course operation (.cancel id)) (st₁ :: st₂ :: st₃ :: st₄ :: rest) d →
    Meets c id s st₁ st₂ →
      ((∃ e, d = .done (.error (.invalidTransition e))) ↔ s.status.isFinal = true)

theorem refusals (hlaw : c.repository.Lawful view) (operation : Nat) :
    Refusals (H := H) c view operation where
  first call log d h := by
    obtain ⟨p, hpath, -⟩ := (course_treads hlaw call).trail h fun _ _ => trivial
    exact (fits_of_path hpath).idle_or_stores
  refused _ _ _ h hr := idle_of_refused hlaw h hr
  released _ _ _ h := released_of_ended h
  proceeds _ _ d _ hdone hcrash w := Course.exists_step w d hdone hcrash
  signal _ _ _ _ _ _ _ _ _ hs h hmeets := signal_refused_iff hlaw hs h hmeets
  resume _ _ _ _ _ _ _ _ _ h hmeets := resume_refused_iff hlaw h hmeets
  cancel _ _ _ _ _ _ _ _ _ h hmeets := cancel_refused_iff hlaw h hmeets

/-! ### A signal that nobody waits for -/

/-- An instance that waits for its approval. -/
def awaitingApproval : Instance :=
  { Instance.create (.timeOrdered 0 0) "counting" ⟨1, 0, 0, "", ""⟩ "Nat" (.int 0) ⟨0, 0⟩ with
    status := .waiting
    awaited := some "approve"
    waitingNode := some 0 }

theorem refusals_awaitingApproval : ∃ log i n status,
    Course.Trail (counter.course (H := Unit) 0 (.signal awaitingApproval.id "reject" (.int 1))) log
      (.done (.error (.notWaiting i n status))) ∧ ∀ st ∈ log, st.Idle Memory.find? := by
  let w : World Memory Unit :=
    { store := (Memory.repository.save awaitingApproval default).2, memory := (), wall := ⟨0, 0⟩ }
  have hend : ((counter.course 0 (.signal awaitingApproval.id "reject" (.int 1))).acts 3 w).map
      (·.1.answer?) = some (some (.error (.notWaiting awaitingApproval.id "reject" .waiting))) := by
    rfl
  obtain ⟨⟨d, v⟩, hacts, hd⟩ := Option.map_eq_some_iff.1 hend
  obtain ⟨log, hlog⟩ := Course.trail_of_acts hacts
  rw [show d = .done (.error (.notWaiting awaitingApproval.id "reject" .waiting)) from
    Course.of_answer? hd] at hlog
  exact ⟨log, awaitingApproval.id, "reject", .waiting, hlog,
    (refusals Memory.repository_lawful 0).refused _ log _ hlog (.answer rfl trivial)⟩

end Coordinator

end DurableWorkflow

/-!
### Whose instances a coordinator runs

An instance carries the name of its type of contexts. A dispatcher goes by this name. A coordinator
does not look at it: it refuses every instance that it does not serve, and it serves every instance
whose definition it knows by name and major version and whose context it can read.
-/

namespace DurableWorkflow

variable {C H R : Type} {view : R → Uuid → Option Instance}

namespace Coordinator

variable {c : Coordinator C H R} {call : Call C} {operation : Nat} {id : Uuid}

/-- A coordinator runs only what it serves: a call that has found anything else fails, and has only
looked. -/
theorem refused_of_not_serves {s : Instance}
    {log : List (Course.Stride (World R H) (Board C H Instance) Report call.Answer)}
    {r : call.Answer} (hlaw : c.repository.Lawful view) (hneeds : call.Needs)
    (h : Course.Trail (c.course operation call) log (.done r)) (hfound : Found c call log s)
    (hs : ¬c.Serves s) : (∃ e, call.Fails r e) ∧ ∀ st ∈ log, st.Idle view := by
  obtain ⟨p, hfits, -, -, hends⟩ := ended hlaw h
  have hlate : ¬p.Late := by
    intro hp
    cases p with
    | claimed =>
      obtain ⟨-, t, ht, hserves⟩ := hfits
      rw [hfound.unique ht] at hs
      exact hs (hserves hneeds)
    | ran =>
      obtain ⟨-, -, t, ht, hserves⟩ := hfits
      rw [hfound.unique ht] at hs
      exact hs (hserves hneeds)
    | opened =>
      obtain ⟨i, -, -, -, hi, -⟩ := hfound
      rw [hfits.1] at hi
      cases hi
    | fresh | met | leased | missed | read | opening => exact hp
  exact ⟨(hends hneeds).resolve_left hlate, hfits.idle hlate⟩

/-- A coordinator of another type of contexts, which reads numbers as well. -/
def tally : Coordinator Nat Unit Memory :=
  { counter with number := 1, kind := { counter.kind with typeName := "Tally" } }

/-- It serves an instance of the first type, and runs it to its end. -/
theorem tally_runs_awaitingApproval : tally.kind.typeName ≠ awaitingApproval.contextType ∧
    ∃ (w v : World Memory Unit) (x : Driven Nat),
      w.store.find? awaitingApproval.id = some awaitingApproval ∧
      Course.Steps ((tally.signal 0 awaitingApproval.id "approve" (.int 1)).run, w)
        (.done (.ok x), v) ∧
      (v.store.find? awaitingApproval.id).map (fun s => (s.contextType, s.status, s.revision)) =
        some ("Nat", .completed, awaitingApproval.revision + 3) := by
  refine ⟨by decide, ?_⟩
  let w : World Memory Unit :=
    { store := (Memory.repository.save awaitingApproval default).2, memory := (), wall := ⟨0, 0⟩ }
  have hend : (((tally.signal 0 awaitingApproval.id "approve" (.int 1)).run.inOrder (w, [])).map
      fun (e, v, _) => ((value? e).isSome,
        (v.store.find? awaitingApproval.id).map fun s => (s.contextType, s.status, s.revision))) =
      some (true, some ("Nat", .completed, awaitingApproval.revision + 3)) := by rfl
  obtain ⟨⟨e, v, calls⟩, hrun, hleft⟩ := Option.map_eq_some_iff.1 hend
  obtain ⟨he, hstored⟩ := Prod.mk.inj hleft
  obtain ⟨x, hx⟩ := Option.isSome_iff_exists.1 he
  cases eq_of_value? hx
  exact ⟨w, v, x, rfl, Course.steps_of_inOrder _ hrun, hstored⟩

end Coordinator

/-- What a dispatcher does when the repository has named the type of the instance. -/
def Dispatcher.route (d : Dispatcher C H R) (operation : Nat) (id : Uuid) (name : String)
    (payload : Json) (info : ContextInfo) : Operation C H R Instance :=
  match d.targets.find? (·.kind.typeName == info.typeName) with
  | none => throw (.unknownDefinition (info.workflow ++ " (context type " ++ info.typeName ++ ")"))
  | some c => (·.state) <$> c.signal operation id name payload

/-- A dispatcher only looks, and then fails or leaves the signal to a coordinator of the type that
the repository has named. -/
theorem Dispatcher.dispatches {d : Dispatcher C H R} {operation : Nat} {id : Uuid} {name : String}
    {payload : Json} (hlaw : d.repository.Lawful view)
    {st : Course.Stride (World R H) (Board C H Instance) Report (Except CoordinatorError Instance)}
    {log : List _} {e : Errand C H R (Except CoordinatorError Instance)}
    (h : Course.Trail (d.dispatch operation id name payload).run (st :: log) e) :
    st.Idle view ∧
      ((∃ err, log = [] ∧ e = .done (.error err)) ∨
        ∃ info c, (d.repository.contextInfo id st.before.store).1 = .ok (some info) ∧
          c ∈ d.targets ∧ c.kind.typeName = info.typeName ∧
          Course.Trail ((·.state) <$> c.signal operation id name payload).run log e) := by
  have hnext := Coordinator.after_act h
  have hidle : st.Idle view := by
    cases h with
    | @cons _ _ _ w _ _ hstep hlog =>
      cases hstep
      have hsame : view (d.repository.contextInfo id w.store).2 = view w.store :=
        (hlaw.contextInfo id w.store).elim (fun _ _ h => h) fun _ _ h => h
      exact ⟨rfl, hsame, rfl, rfl, rfl⟩
  refine ⟨hidle, ?_⟩
  have hanswer : (Operation.onStore (d.repository.contextInfo id) st.before).1 =
      (d.repository.contextInfo id st.before.store).1 := rfl
  simp only [hanswer] at hnext
  have hfails {err : CoordinatorError} (h : Course.Trail (.done (.error err)) log e) :
      ∃ err, log = [] ∧ e = .done (.error err) := ⟨err, h.of_done⟩
  cases hinfo : (d.repository.contextInfo id st.before.store).1 with
  | error fault =>
    rw [hinfo] at hnext
    exact .inl (hfails hnext)
  | ok found =>
    rw [hinfo] at hnext
    cases found with
    | none => exact .inl (hfails hnext)
    | some info =>
      have hrouted : Course.Trail (d.route operation id name payload info).run log e := hnext
      unfold Dispatcher.route at hrouted
      cases htarget : d.targets.find? (·.kind.typeName == info.typeName) with
      | none =>
        rw [htarget] at hrouted
        exact .inl (hfails hrouted)
      | some c =>
        rw [htarget] at hrouted
        exact .inr ⟨info, c, rfl, List.mem_of_find?_eq_some htarget,
          by simpa using List.find?_some htarget, hrouted⟩

end DurableWorkflow
