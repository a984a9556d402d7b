import DurableWorkflow.Proofs.Reading.Compile
import DurableWorkflow.Proofs.Reading.Mistakes

/-!
# The first mistake is reported

Compiling finds the mistakes of a program, the first one first (`Program.first_mistake`). Where
something is wrong more may be found later than there is: a block whose only step has been rejected
is empty. But as long as nothing has been found, the draft holds just what has been said, and all
exits that are linked are open, so no link is refused.
-/

namespace DurableWorkflow

variable {C H : Type}

/-- From the one draft to the other mistakes are noted, the first of which is the first of `l`. -/
structure Draft.Finds (d d' : Draft C H) (l : List ConfigError) : Prop where
  grows : d.errors <+: d'.errors
  first : d.errors = [] → d'.errors.head? = l.head?

namespace Draft

variable {d d₁ d₂ : Draft C H} {l l' : List ConfigError}

namespace Finds

theorem silent (h : d.errors <+: d₁.errors) (hsame : d.errors = [] → d₁.errors = []) :
    d.Finds d₁ [] :=
  ⟨h, fun hclean => by rw [hsame hclean]⟩

theorem congr {d' : Draft C H} (h : d.Finds d₁ l) (hd : d'.errors = d.errors)
    (hd₁ : d₂.errors = d₁.errors) : d'.Finds d₂ l := by
  refine ⟨?_, ?_⟩
  · rw [hd, hd₁]
    exact h.grows
  · rw [hd, hd₁]
    exact h.first

theorem note (d : Draft C H) (e : ConfigError) : d.Finds (d.note e) [e] :=
  ⟨d.note_grows e, fun hclean => by simp [Draft.note, hclean]⟩

theorem guarded (d : Draft C H) {b b' : Bool} (e : ConfigError) (hb : d.errors = [] → b = b') :
    d.Finds (if b then d.note e else d) (if b' then [e] else []) := by
  refine ⟨d.guarded_grows b e, fun hclean => ?_⟩
  rw [hb hclean]
  cases b'
  · simp [hclean]
  · exact (note d e).first hclean

theorem clean (h : d.Finds d₁ l) (hd : d.errors = []) : d₁.errors = [] ↔ l = [] := by
  rw [← List.head?_eq_none_iff, h.first hd, List.head?_eq_none_iff]

/-- What comes first is found first, and where nothing is wrong with it, what comes next. -/
theorem trans (h : d.Finds d₁ l) (hgrows : d₁.errors <+: d₂.errors)
    (h' : d.errors = [] → d₁.errors = [] → d₁.Finds d₂ l') : d.Finds d₂ (l ++ l') := by
  refine ⟨h.grows.trans hgrows, fun hclean => ?_⟩
  have hfirst := h.first hclean
  cases l with
  | nil =>
    have hclean' := (h.clean hclean).2 rfl
    exact (h' hclean hclean').first hclean'
  | cons e l =>
    obtain ⟨more, hmore⟩ := hgrows
    obtain ⟨errors, herrors⟩ := List.head?_eq_some_iff.1 hfirst
    rw [← hmore, herrors]
    rfl

end Finds

/-! ### Links are made -/

theorem link_errors {id target : NodeId}
    (h : ∀ n, d.graph.get? id = some n → n.next = none ∨ n.next = some target) :
    (d.link id target).errors = d.errors ∧ (d.link id target).graph = d.graph.link id target := by
  have hnone : d.graph.conflict? id target = none := by
    unfold Graph.conflict?
    cases hn : d.graph.get? id with
    | none => rfl
    | some n => rcases h n hn with hnext | hnext <;> simp [hnext]
  simp [link, hnone]

theorem links_errors {target : NodeId} (exits : List NodeId)
    (h : ∀ id ∈ exits, ∀ n, d.graph.get? id = some n → n.next = none ∨ n.next = some target) :
    (exits.foldl (fun d exit => d.link exit target) d).errors = d.errors := by
  induction exits generalizing d with
  | nil => rfl
  | cons exit exits ih =>
    obtain ⟨herrors, hgraph⟩ := link_errors (h exit (List.mem_cons_self ..))
    rw [List.foldl_cons, ih, herrors]
    intro id hid n hn
    rw [hgraph, Graph.get?_link, Graph.closed] at hn
    obtain ⟨m, hm, rfl⟩ := Option.map_eq_some_iff.1 hn
    split
    · exact .inr rfl
    · exact h id (List.mem_cons_of_mem _ hid) m hm

theorem attach_errors {place : Place} {chain : Chain} {node : NodeId}
    (h : ∀ id ∈ chain.linked place, ∀ n, d.graph.get? id = some n → n.next = none) :
    (d.attach place chain node).2.errors = d.errors := by
  unfold attach
  unfold Chain.linked at h
  split
  · rfl
  · next hplace =>
    split
    · rfl
    · next e he =>
      refine links_errors chain.exits fun id hid n hn => .inl (h id ?_ n hn)
      simpa [hplace, he] using hid

end Draft

theorem Block.holds {d d' : Draft C H} {n : Nat} {P : Graph C H → Option NodeId → Prop}
    (h : Block d d' n [] P) : P d'.graph none :=
  h.opened.holds d'.graph none fun _ _ _ => (Graph.closed_of_not_mem (by simp) none).symm

/-- The exits that the chain links are nodes of the graph, and open. -/
def Chain.Free (chain : Chain) (place : Place) (g : Graph C H) : Prop :=
  ∀ id : Nat, id ∈ chain.linked place → id < g.size ∧ ∀ n, g.get? id = some n → n.next = none

namespace Draft

variable {d d₁ : Draft C H} {l : List ConfigError} {place : Place} {chain : Chain} {node : NodeId}

/-- A node may be attached to the chain later, if what comes before it leaves the old nodes alone. -/
theorem Finds.attach (h : d.Finds d₁ l) (hfree : d.errors = [] → chain.Free place d.graph)
    (hold : d₁.errors = [] → ∀ id : Nat, id < d.graph.size → d₁.graph.get? id = d.graph.get? id) :
    d.Finds (d₁.attach place chain node).2 l := by
  rw [← List.append_nil l]
  refine h.trans (d₁.attach_grows place chain node) fun hclean hclean' => .silent ?_ fun _ => ?_
  · exact d₁.attach_grows place chain node
  · rw [attach_errors, hclean']
    intro id hid n hn
    obtain ⟨hlt, hopen⟩ := hfree hclean id hid
    exact hopen n (hold hclean' id hlt ▸ hn)

/-- A node that is pushed and attached at once. -/
theorem push_attach_finds (kind : NodeKind C H)
    (hfree : d.errors = [] → chain.Free place d.graph) :
    d.Finds ((d.push kind).2.attach place chain d.graph.size).2 [] := by
  have hpush : d.Finds (d.push kind).2 [] := .silent List.prefix_rfl id
  exact hpush.attach hfree fun _ id hid => Graph.get?_push_of_lt kind hid

theorem addStep_finds (s : Step C H) (hfree : d.errors = [] → chain.Free place d.graph) :
    d.Finds (d.addStep place chain s).2 (s.mistakes place.inParallel) := by
  unfold addStep Step.mistakes
  split
  · exact .note d _
  · exact push_attach_finds (.step s) hfree

/-- A block is closed: that it is empty is found after what is wrong in it. -/
theorem close_finds {kind₀ kind : NodeKind C H} {b b' : Bool} {e : ConfigError}
    (hcontents : (d.push kind₀).2.Finds d₁ l)
    (hblock : d₁.errors = [] → ∃ n Q, Block (d.push kind₀).2 d₁ n [] Q)
    (hb : d₁.errors = [] → b = b')
    (hfree : d.errors = [] → chain.Free place d.graph) :
    d.Finds (((if b then d₁.note e else d₁).setKind d.graph.size kind).attach place chain
      d.graph.size).2 (l ++ if b' then [e] else []) := by
  have hcontents : d.Finds d₁ l := hcontents.congr rfl rfl
  have hclosed : d.Finds (if b then d₁.note e else d₁) (l ++ if b' then [e] else []) :=
    hcontents.trans (d₁.guarded_grows b e) fun _ hclean => .guarded d₁ e fun _ => hb hclean
  have hset : d.Finds ((if b then d₁.note e else d₁).setKind d.graph.size kind)
      (l ++ if b' then [e] else []) :=
    hclosed.congr rfl rfl
  refine hset.attach hfree fun hclean id hid => ?_
  obtain ⟨hclean, hnot⟩ := errors_of_guarded hclean
  obtain ⟨n, Q, hblock⟩ := hblock hclean
  have hpush : (d.push kind₀).2.graph.size = d.graph.size + 1 := Graph.size_push _
  simp only [hnot, Bool.false_eq_true, if_false, setKind]
  rw [Graph.get?_setKind_of_ne _ (Nat.ne_of_lt hid), hblock.old id (by omega)]
  exact Graph.get?_push_of_lt _ hid

end Draft

section

variable (registry : Registry C H)

/-- The items of the chain lie in the graph, unless they are not linked at all. -/
def Chain.Fits (chain : Chain) (place : Place) (g : Graph C H) : Prop :=
  place.isolated = true ∨ ∃ lo done, ChainHolds registry place.inParallel lo done chain g

variable {registry}

theorem Chain.Fits.free {chain : Chain} {place : Place} {g : Graph C H}
    (h : chain.Fits registry place g) : chain.Free place g := by
  intro id hid
  cases hplace : place.isolated with
  | true => simp [Chain.linked, hplace] at hid
  | false =>
    obtain htrue | ⟨lo, done, hc⟩ := h
    · simp [hplace] at htrue
    · rw [hc.linked hplace] at hid
      exact ⟨(hc.opened.mem id hid).2, hc.opened.free id hid⟩

theorem Chain.Fits.concat {chain : Chain} {place : Place} {d : Draft C H} {item : Item C H}
    {r : Chain × Draft C H} (h : chain.Fits registry place d.graph)
    (hitem : item.Compiled registry place chain d r) : r.1.Fits registry place r.2.graph := by
  cases hplace : place.isolated with
  | true => exact .inl hplace
  | false =>
    obtain htrue | ⟨lo, done, hc⟩ := h
    · simp [hplace] at htrue
    · exact .inr ⟨lo, done ++ [item], (hc.concat hplace hitem).1⟩

variable (registry)

theorem Chain.fits_nil (place : Place) (g : Graph C H) : Chain.Fits registry {} place g :=
  .inr ⟨g.size, [], ChainHolds.nil registry place.inParallel g⟩

mutual

/-- Compiling an item finds what is wrong with it. -/
theorem Item.compile_finds (place : Place) (chain : Chain) (d : Draft C H)
    (h : d.errors = [] → chain.Fits registry place d.graph) : (item : Item C H) →
    d.Finds (item.compile registry place chain d).2 (item.mistakes registry place.inParallel)
  | .step s => by
    rw [Item.compile, Item.mistakes]
    exact Draft.addStep_finds s fun hclean => (h hclean).free
  | .registered type => by
    rw [Item.compile, Item.mistakes]
    cases registry.resolve type with
    | none => exact .note d _
    | some s => exact Draft.addStep_finds s fun hclean => (h hclean).free
  | .delay duration => by
    rw [Item.compile, Item.mistakes]
    exact Draft.push_attach_finds (.delay duration) fun hclean => (h hclean).free
  | .choice holds arms => by
    rw [Item.compile, Item.mistakes]
    have hnode : d.Finds ((d.push (.conditional holds none none)).2.attach place chain
        d.graph.size).2 [] :=
      Draft.push_attach_finds _ fun hclean => (h hclean).free
    have harms := compileArms_finds place {}
      ((d.push (.conditional holds none none)).2.attach place chain d.graph.size).2 arms
    exact (hnode.trans harms.grows fun _ _ => harms).congr rfl rfl
  | .parallel branches => by
    have hblock := compileBranches_block registry branches [] (d.push (.parallel [])).2
    have hbranches := compileBranches_finds [] (d.push (.parallel [])).2 branches
    rw [Item.compile_parallel registry place chain d branches rfl, Item.mistakes]
    refine Draft.close_finds hbranches (fun hclean => ?_) (fun hclean => ?_)
      fun hclean => (h hclean).free
    · obtain ⟨children, -, hblock⟩ := hblock hclean
      exact ⟨_, _, hblock⟩
    · obtain ⟨children, hchildren, hblock⟩ := hblock hclean
      have hat := hblock.holds.1
      rw [hchildren, List.nil_append]
      match branches, hat with
      | [], hat =>
        obtain rfl : children = [] := hat
        rfl
      | .single _ :: _, ⟨c, cs, heq, _⟩ | .chain _ :: _, ⟨c, cs, heq, _⟩ =>
        subst heq
        rfl
  | .sequence items => by
    have hparts := compileItems_parts registry ⟨place.inParallel, true⟩ rfl items {}
      (d.push (.sequence [])).2
    have hitems := compileItems_finds ⟨place.inParallel, true⟩ {} (d.push (.sequence [])).2
      (fun _ => .inl rfl) items
    rw [Item.compile_sequence registry place chain d items rfl, Item.mistakes]
    refine Draft.close_finds hitems (fun hclean => ?_) (fun hclean => ?_)
      fun hclean => (h hclean).free
    · obtain ⟨children, -, hblock⟩ := hparts hclean
      exact ⟨_, _, hblock⟩
    · obtain ⟨children, hchildren, hblock⟩ := hparts hclean
      have hat := hblock.holds.1
      rw [hchildren, List.nil_append]
      cases items with
      | nil =>
        obtain rfl : children = [] := hat
        rfl
      | cons item items =>
        obtain ⟨c, cs, rfl, -⟩ := hat
        rfl

theorem compileItems_finds (place : Place) (chain : Chain) (d : Draft C H)
    (h : d.errors = [] → chain.Fits registry place d.graph) : (items : List (Item C H)) →
    d.Finds (compileItems registry place chain d items).2
      (itemsMistakes registry place.inParallel items)
  | [] => by
    rw [compileItems, itemsMistakes]
    exact .silent List.prefix_rfl id
  | item :: items => by
    rw [compileItems, itemsMistakes]
    refine (item.compile_finds place chain d h).trans (compileItems_grows registry place _ _ items)
      fun hclean hclean' => compileItems_finds place _ _ (fun _ => ?_) items
    have hlt := fun id hid => ((h hclean).free id hid).1
    exact (h hclean).concat (item.compiled registry place chain d hlt hclean')

theorem compileArms_finds (place : Place) (done : Arms) (d : Draft C H) : (arms : List (Arm C H)) →
    d.Finds (compileArms registry place done d arms).2 (armsMistakes registry place.inParallel
      done.whenTrue.isSome done.whenFalse.isSome arms)
  | [] => by
    rw [compileArms, armsMistakes]
    exact .silent List.prefix_rfl id
  | .whenTrue items :: arms => by
    rw [compileArms, armsMistakes]
    by_cases hside : done.whenTrue.isSome = true
    · have hrest := compileArms_finds place done (d.note (.armAlreadyConfigured true)) arms
      rw [hside] at hrest
      rw [if_pos hside, if_pos hside]
      exact (Draft.Finds.note d _).trans hrest.grows fun _ _ => hrest
    · have hitems := compileItems_finds ⟨place.inParallel, false⟩ {} d
        (fun _ => Chain.fits_nil registry _ d.graph) items
      rw [if_neg hside, if_neg hside]
      exact hitems.trans (compileArms_grows registry place _ _ arms) fun _ _ =>
        compileArms_finds place _ _ arms
  | .whenFalse items :: arms => by
    rw [compileArms, armsMistakes]
    by_cases hside : done.whenFalse.isSome = true
    · have hrest := compileArms_finds place done (d.note (.armAlreadyConfigured false)) arms
      rw [hside] at hrest
      rw [if_pos hside, if_pos hside]
      exact (Draft.Finds.note d _).trans hrest.grows fun _ _ => hrest
    · have hitems := compileItems_finds ⟨place.inParallel, false⟩ {} d
        (fun _ => Chain.fits_nil registry _ d.graph) items
      rw [if_neg hside, if_neg hside]
      exact hitems.trans (compileArms_grows registry place _ _ arms) fun _ _ =>
        compileArms_finds place _ _ arms

theorem compileBranches_finds (children : List NodeId) (d : Draft C H) :
    (branches : List (Branch C H)) →
    d.Finds (compileBranches registry children d branches).2 (branchesMistakes registry branches)
  | [] => by
    rw [compileBranches, branchesMistakes]
    exact .silent List.prefix_rfl id
  | .single s :: branches => by
    rw [compileBranches, branchesMistakes, Step.mistakes, Bool.true_and]
    by_cases hs : s.maySuspend = true
    · have hrest := compileBranches_finds children (d.note (.suspendInParallel s.name)) branches
      rw [if_pos hs, if_pos hs]
      exact (Draft.Finds.note d _).trans hrest.grows fun _ _ => hrest
    · rw [if_neg hs, if_neg hs, List.nil_append]
      exact (compileBranches_finds _ (d.push (.step s)).2 branches).congr rfl rfl
  | .chain items :: branches => by
    rw [compileBranches_chain registry children d items branches rfl, branchesMistakes]
    have hitems := compileItems_finds ⟨true, false⟩ {} d
      (fun _ => Chain.fits_nil registry _ d.graph) items
    have hchain := compileItems_chain registry ⟨true, false⟩ rfl d.graph.size items {} d []
      (ChainHolds.nil registry _ d.graph)
    cases he : (compileItems registry ⟨true, false⟩ {} d items).1.entry with
    | none =>
      have hrest := compileBranches_finds children
        ((compileItems registry ⟨true, false⟩ {} d items).2.note .emptyBranch) branches
      refine (hitems.trans (Draft.note_grows _ .emptyBranch) fun _ hclean => ?_).trans hrest.grows
        fun _ _ => hrest
      have hempty : items = [] := (hchain hclean).2.1.empty.1 he
      rw [hempty]
      exact .note _ _
    | some entry =>
      have hrest := compileBranches_finds (children ++ [entry])
        (compileItems registry ⟨true, false⟩ {} d items).2 branches
      refine (hitems.trans List.prefix_rfl fun _ hclean => ?_).trans hrest.grows fun _ _ => hrest
      have hne : items ≠ [] := fun hempty => by
        rw [(hchain hclean).2.1.empty.2 hempty] at he
        simp at he
      rw [if_neg (by simpa using hne)]
      exact .silent List.prefix_rfl id

end

/-! ### Programs -/

namespace Outline

variable {o : Outline C H}

theorem call_finds (h : o.draft.errors = [] → o.chain.Fits registry ⟨false, false⟩ o.draft.graph)
    (call : Call C H) :
    o.draft.Finds (o.call registry call).draft (call.mistakes registry o.started) := by
  cases call with
  | start s =>
    rw [Outline.call, Call.mistakes]
    by_cases hs : o.started = true
    · rw [if_pos hs, if_pos hs]
      exact .note o.draft _
    · rw [if_neg hs, if_neg hs]
      exact (Item.step s).compile_finds registry ⟨false, false⟩ o.chain o.draft h
  | append item =>
    rw [Outline.call, Call.mistakes]
    by_cases hs : o.started = true
    · rw [if_pos hs, if_pos hs]
      exact item.compile_finds registry ⟨false, false⟩ o.chain o.draft h
    · rw [if_neg hs, if_neg hs]
      have hnote := Draft.Finds.note o.draft (.notStarted item.noun)
      simp only
      split
      · -- A choice is compiled all the same, but something has been found already.
        have hmore := item.compile_grows registry ⟨false, false⟩ o.chain
          (o.draft.note (.notStarted item.noun))
        rw [← List.append_nil [_]]
        exact hnote.trans hmore fun _ hclean => absurd hclean (Draft.note_errors_ne _)
      · exact hnote
  | bound limit =>
    rw [Outline.call, Call.mistakes]
    split
    · exact .note o.draft _
    · split
      · exact .note o.draft _
      · exact .silent List.prefix_rfl id

theorem started_call (o : Outline C H) (call : Call C H) :
    (o.call registry call).started = (o.started || call.isStart) := by
  cases call with
  | start s =>
    rw [Outline.call]
    split
    · next hs => exact hs.trans (by simp [Call.isStart])
    · exact (Bool.or_true _).symm
  | append item =>
    rw [Outline.call, Call.isStart, Bool.or_false]
    split
    · rfl
    · simp only
      split <;> rfl
  | bound limit =>
    rw [Outline.call, Call.isStart, Bool.or_false]
    split
    · rfl
    · split <;> rfl

/-- The chain of a workflow holds what has been said as long as nothing is wrong with it. -/
theorem fits_call (h : o.draft.errors = [] → o.chain.Fits registry ⟨false, false⟩ o.draft.graph)
    {call : Call C H} (hclean : (o.call registry call).draft.errors = []) :
    (o.call registry call).chain.Fits registry ⟨false, false⟩ (o.call registry call).draft.graph := by
  obtain ⟨hclean', heq⟩ := draft_of_call registry hclean
  obtain ⟨hchain, hdraft⟩ := Prod.mk.inj heq
  obtain htrue | ⟨lo, done, hc⟩ := h hclean'
  · simp at htrue
  · rw [hdraft] at hclean
    obtain ⟨-, hc', -⟩ := compileItems_chain registry ⟨false, false⟩ rfl lo call.items o.chain o.draft
      done hc hclean
    rw [hchain, hdraft]
    exact .inr ⟨lo, _, hc'⟩

theorem calls_finds (calls : List (Call C H))
    (h : o.draft.errors = [] → o.chain.Fits registry ⟨false, false⟩ o.draft.graph) :
    o.draft.Finds (calls.foldl (fun o c => o.call registry c) o).draft
      (callsMistakes registry o.started calls) := by
  induction calls generalizing o with
  | nil => exact .silent List.prefix_rfl id
  | cons call calls ih =>
    have hrest := ih (o := o.call registry call) fun hclean => fits_call registry h hclean
    rw [started_call] at hrest
    rw [List.foldl_cons, callsMistakes]
    exact (call_finds registry h call).trans hrest.grows fun _ _ => hrest

theorem begin_finds (p : Program C H) :
    ({} : Draft C H).Finds (Outline.begin p.id (Version.parse p.version) p.version).draft
      p.titleMistakes := by
  refine ⟨List.nil_prefix, fun _ => ?_⟩
  unfold Outline.begin Program.titleMistakes
  cases Version.parse p.version <;> cases isValidId p.id <;> rfl

end Outline

/-- A workflow that is never started has no items. -/
theorem items_eq_nil_of_not_started {calls : List (Call C H)}
    (hstart : calls.any Call.isStart = false) (h : callsMistakes registry false calls = []) : calls.flatMap Call.items = [] := by
  induction calls with
  | nil => rfl
  | cons call calls ih =>
    rw [List.any_cons, Bool.or_eq_false_iff] at hstart
    rw [callsMistakes, List.append_eq_nil_iff, hstart.1] at h
    rw [List.flatMap_cons, ih hstart.2 h.2, List.append_nil]
    cases call with
    | start s => simp [Call.isStart] at hstart
    | append item => simp [Call.mistakes] at h
    | bound limit => rfl

theorem items_ne_nil_of_started {calls : List (Call C H)} (h : calls.any Call.isStart = true) :
    calls.flatMap Call.items ≠ [] := by
  obtain ⟨call, hcall, hstart⟩ := List.any_eq_true.1 h
  intro hnil
  have hitems := List.flatMap_eq_nil_iff.1 hnil call hcall
  cases call with
  | start s => simp [Call.items] at hitems
  | append | bound => simp [Call.isStart] at hstart

/-- Going through the calls of a program finds what is wrong with them. Where nothing is, the chain
holds their items. -/
theorem Program.calls_find (p : Program C H) {o : Outline C H}
    (ho : o = p.calls.foldl (fun o c => o.call registry c)
      (.begin p.id (Version.parse p.version) p.version)) :
    o.draft.errors.head? = (p.titleMistakes ++ callsMistakes registry false p.calls).head? ∧
      (o.draft.errors = [] →
        ChainHolds registry false 0 (p.calls.flatMap Call.items) o.chain o.draft.graph) := by
  obtain ⟨hchain, hgraph, hnew⟩ :=
    Outline.begin_eq (C := C) (H := H) p.id (Version.parse p.version) p.version
  have hbegin := Outline.begin_finds p
  generalize Outline.begin p.id (Version.parse p.version) p.version = first at *
  have hnil : ChainHolds registry false 0 [] first.chain first.draft.graph := by
    rw [hgraph, hchain]
    exact ChainHolds.nil registry false {}
  have hcalls := Outline.calls_finds registry p.calls (o := first) fun _ => .inr ⟨0, [], hnil⟩
  rw [hnew] at hcalls
  have hempty : first.draft.graph.size = 0 := by
    rw [hgraph]
    rfl
  subst ho
  refine ⟨(hbegin.trans hcalls.grows fun _ _ => hcalls).first rfl, fun hclean => ?_⟩
  exact (Outline.holds_of_calls registry p.calls [] hnil hempty hclean).1

/-- Compiling reports the first mistake, and fails for nothing else. -/
theorem Program.compile_finds (p : Program C H) :
    (∀ e, (p.mistakes registry).head? = some e → p.compile registry = .error e) ∧
      (p.mistakes registry = [] → ∃ d, p.compile registry = .ok d) := by
  obtain ⟨o, ho⟩ : ∃ o : Outline C H, o = p.calls.foldl (fun o c => o.call registry c)
    (.begin p.id (Version.parse p.version) p.version) := ⟨_, rfl⟩
  obtain ⟨hfirst, hholds⟩ := p.calls_find registry ho
  simp only [Program.compile, Program.mistakes, ← ho]
  cases hfound : p.titleMistakes ++ callsMistakes registry false p.calls with
  | cons e found =>
    rw [hfirst, hfound]
    exact ⟨fun e' he' => congrArg Except.error (Option.some.inj he'), by simp⟩
  | nil =>
    rw [hfound] at hfirst
    obtain ⟨htitle, hnothing⟩ := List.append_eq_nil_iff.1 hfound
    obtain ⟨-, version, hversion⟩ := p.titleMistakes_eq_nil_iff.1 htitle
    have hc := hholds (List.head?_eq_none_iff.1 hfirst)
    rw [hfirst, hversion]
    cases hstart : p.calls.any Call.isStart with
    | false =>
      have hentry : o.chain.entry = none :=
        hc.empty.2 (items_eq_nil_of_not_started registry hstart hnothing)
      rw [hentry]
      refine ⟨fun e he => ?_, by simp⟩
      exact congrArg Except.error (Option.some.inj he)
    | true =>
      obtain ⟨root, hentry⟩ : ∃ root, o.chain.entry = some root := by
        cases hentry : o.chain.entry with
        | none => exact absurd (hc.empty.1 hentry) (items_ne_nil_of_started hstart)
        | some root => exact ⟨root, rfl⟩
      rw [hentry]
      exact ⟨by simp, fun _ => ⟨_, rfl⟩⟩

/-- Exactly the well-formed programs compile. Of any other one the first mistake is reported: that it
is not started only where nothing else is wrong, and that nodes cannot be linked in no case. -/
theorem Program.first_mistake (p : Program C H) :
    ((∃ d, p.compile registry = .ok d) ↔ p.WellFormed registry) ∧
      (∀ e, p.compile registry = .error e ↔ (p.mistakes registry).head? = some e) ∧
      (p.compile registry = .error .missingRoot ↔ p.mistakes registry = [.missingRoot]) ∧
      ∀ node existing, p.compile registry ≠ .error (.link node existing) := by
  obtain ⟨hfirst, hnothing⟩ := p.compile_finds registry
  have herror (e : ConfigError) :
      p.compile registry = .error e ↔ (p.mistakes registry).head? = some e := by
    refine ⟨fun h => ?_, hfirst e⟩
    cases hmistakes : p.mistakes registry with
    | nil =>
      obtain ⟨d, hd⟩ := hnothing hmistakes
      rw [hd] at h
      cases h
    | cons e' more =>
      have h' := hfirst e' (by rw [hmistakes]; rfl)
      rw [h'] at h
      cases h
      rfl
  obtain ⟨found, hfound, heq⟩ := p.mistakes_eq registry
  have hhead {e : ConfigError} (he : e.isOfCall = false)
      (h : (p.mistakes registry).head? = some e) : found = [] ∧ e = .missingRoot := by
    cases found with
    | nil =>
      refine ⟨rfl, ?_⟩
      rcases heq with heq | heq <;> simp [heq] at h
      exact h.symm
    | cons e' found =>
      have he' := hfound e' (List.mem_cons_self ..)
      rcases heq with heq | heq <;> simp [heq] at h <;> simp [h, he] at he'
  refine ⟨?_, herror, ?_, fun node existing h => ?_⟩
  · rw [← p.mistakes_eq_nil_iff registry]
    refine ⟨fun ⟨d, hd⟩ => ?_, hnothing⟩
    rw [← List.head?_eq_none_iff]
    cases hmistakes : (p.mistakes registry).head? with
    | none => rfl
    | some e => simp [hfirst e hmistakes] at hd
  · rw [herror]
    constructor
    · intro h
      obtain ⟨rfl, -⟩ := hhead rfl h
      rcases heq with heq | heq
      · simp [heq] at h
      · exact heq
    · intro h
      rw [h]
      rfl
  · obtain ⟨-, hlink⟩ := hhead rfl ((herror _).1 h)
    cases hlink

end

end DurableWorkflow
